/-
Runs of a step function, and conditions on their steps.

A run from `s` over the inputs `l` ends in `l.foldl step s`. `Along step P s l` says that `P` holds of the state and the
input before every step of it. Two rules: an invariant that steps with `P` keep holds at the end of a run with `P` along it
(`Along.inv`); and if a step without `P` breaks a property at once, the property holds at every point of a run exactly
if `P` holds along it (`along_iff`, `along_iff_history` for a property of the inputs so far, both also for the runs that another
condition holds along).
-/
import Mathlib.Tactic

namespace TrafficServer.Run

variable {σ α : Type*} {step : σ → α → σ} {P : σ → α → Prop} {I Q : σ → Prop}

/-- `P` holds before every step of a run -/
def Along (step : σ → α → σ) (P : σ → α → Prop) : σ → List α → Prop
  | _, [] => True
  | s, a :: l => P s a ∧ Along step P (step s a) l

instance decidableAlong (step : σ → α → σ) (P : σ → α → Prop) [∀ s, DecidablePred (P s)] :
    ∀ s l, Decidable (Along step P s l)
  | _, [] => isTrue trivial
  | s, a :: l =>
    have := decidableAlong step P (step s a) l
    inferInstanceAs (Decidable (_ ∧ _))

theorem Along.and {P' : σ → α → Prop} {s : σ} {l : List α} (h : Along step P s l) (h' : Along step P' s l) :
    Along step (fun s a => P s a ∧ P' s a) s l := by
  induction l generalizing s with
  | nil => exact trivial
  | cons a l ih => exact ⟨⟨h.1, h'.1⟩, ih h.2 h'.2⟩

theorem along_of_forall {p : α → Prop} {s : σ} {l : List α} (h : ∀ a ∈ l, p a) : Along step (fun _ a => p a) s l := by
  induction l generalizing s with
  | nil => exact trivial
  | cons a l ih => exact ⟨h a List.mem_cons_self, ih fun b hb => h b (List.mem_cons_of_mem a hb)⟩

theorem Along.inv (hstep : ∀ s a, I s → P s a → I (step s a)) {s : σ} {l : List α} (h : I s) (hl : Along step P s l) :
    I (l.foldl step s) := by
  induction l generalizing s with
  | nil => exact h
  | cons a l ih => exact ih (hstep s a h hl.1) hl.2

theorem Along.take {s : σ} {l : List α} (hl : Along step P s l) (n : ℕ) : Along step P s (l.take n) := by
  induction l generalizing s n with
  | nil => simpa using hl
  | cons a l ih =>
    cases n with
    | zero => exact trivial
    | succ n => exact ⟨hl.1, ih hl.2 n⟩

/-- Two conditions that are the same where the invariant holds, which steps with the first keep, are the same along a run. -/
theorem along_congr {C P' : σ → α → Prop} (hiff : ∀ s a, I s → C s a → (P s a ↔ P' s a))
    (hstep : ∀ s a, I s → C s a → P s a → I (step s a)) {s : σ} {l : List α} (hC : Along step C s l) (h : I s) :
    Along step P s l ↔ Along step P' s l := by
  induction l generalizing s with
  | nil => exact Iff.rfl
  | cons a l ih =>
    constructor
    · intro hl
      exact ⟨(hiff s a h hC.1).mp hl.1, (ih hC.2 (hstep s a h hC.1 hl.1)).mp hl.2⟩
    · intro hl
      have hP := (hiff s a h hC.1).mpr hl.1
      exact ⟨hP, (ih hC.2 (hstep s a h hC.1 hP)).mpr hl.2⟩

/-- In a run with `C` along it: the invariant gives `Q`, steps with `P` keep it, and a step without `P` breaks `Q`. -/
theorem along_iff {C : σ → α → Prop} (hI : ∀ s, I s → Q s) (hstep : ∀ s a, I s → C s a → P s a → I (step s a))
    (hbad : ∀ s a, I s → C s a → ¬ P s a → ¬ Q (step s a)) {s : σ} {l : List α} (hC : Along step C s l) (h : I s) :
    (∀ n, Q ((l.take n).foldl step s)) ↔ Along step P s l := by
  constructor
  · intro hQ
    induction l generalizing s with
    | nil => exact trivial
    | cons a l ih =>
      have hP : P s a := by
        by_contra hP
        exact hbad s a h hC.1 hP (hQ 1)
      exact ⟨hP, ih hC.2 (hstep s a h hC.1 hP) fun n => hQ (n + 1)⟩
  · intro hl n
    have hboth := (hC.and hl).take n
    exact hI _ (hboth.inv (fun s a h hca => hstep s a h hca.1 hca.2) h)

/-- The same for a property of the state and of the inputs so far. -/
theorem along_iff_history {C : σ → α → Prop} {I Q : List α → σ → Prop} (hI : ∀ m s, I m s → Q m s)
    (hstep : ∀ m s a, I m s → C s a → P s a → I (m ++ [a]) (step s a))
    (hbad : ∀ m s a, I m s → C s a → ¬ P s a → ¬ Q (m ++ [a]) (step s a)) {m : List α} {s : σ} {l : List α}
    (hC : Along step C s l) (h : I m s) :
    (∀ n, Q (m ++ l.take n) ((l.take n).foldl step s)) ↔ Along step P s l := by
  induction l generalizing m s with
  | nil =>
    refine ⟨fun _ => trivial, fun _ n => ?_⟩
    simpa using hI m s h
  | cons a l ih =>
    have hnext : (∀ n, Q (m ++ (a :: l).take (n + 1)) (((a :: l).take (n + 1)).foldl step s)) ↔
        ∀ n, Q ((m ++ [a]) ++ l.take n) ((l.take n).foldl step (step s a)) := by
      simp
    constructor
    · intro hQ
      have hP : P s a := by
        by_contra hP
        exact hbad m s a h hC.1 hP (by simpa using hQ 1)
      exact ⟨hP, (ih hC.2 (hstep m s a h hC.1 hP)).mp (hnext.mp fun n => hQ (n + 1))⟩
    · intro hl n
      cases n with
      | zero => simpa using hI m s h
      | succ n => exact hnext.mpr ((ih hC.2 (hstep m s a h hC.1 hl.1)).mpr hl.2) n

end TrafficServer.Run
