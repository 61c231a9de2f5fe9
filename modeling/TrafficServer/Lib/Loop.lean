/-
Loops whose bounds come from untrusted data.

A loop is a step function: it goes on from a state (`.inl`) or leaves with a result (`.inr`). `Ends` says that it leaves, `Reaches` relates a
state to those that the loop comes to from it, `Returns` one to the result that it leaves with. A loop ends if its states follow a relation that is accessible (`ends_of_acc`) or if a number gets
smaller (`ends_of_measure`), and does not end where a condition is kept without leaving (`not_ends_of_kept`). In a relation with finitely many
elements after `a`, `a` is accessible if none of them follows itself (`acc_of_acyclic`).
-/
import Mathlib

namespace TrafficServer.Loop

open Relation

variable {α β γ : Type*} {step : α → α ⊕ β}

inductive Ends (step : α → α ⊕ β) : α → Prop
  | leave {a : α} {b : β} : step a = .inr b → Ends step a
  | next {a a' : α} : step a = .inl a' → Ends step a' → Ends step a

def Reaches (step : α → α ⊕ β) : α → α → Prop := ReflTransGen fun a a' => step a = .inl a'

inductive Returns (step : α → α ⊕ β) : α → β → Prop
  | leave {a : α} {b : β} : step a = .inr b → Returns step a b
  | next {a a' : α} {b : β} : step a = .inl a' → Returns step a' b → Returns step a b

theorem Returns.ends {a : α} {b : β} (h : Returns step a b) : Ends step a := by
  induction h with
  | leave hleave => exact .leave hleave
  | next hnext _ ih => exact .next hnext ih

theorem Ends.reaches {a a' : α} (h : Ends step a) (hr : Reaches step a a') : Ends step a' := by
  induction hr with
  | refl => exact h
  | tail _ hstep ih =>
    cases ih with
    | leave hleave => rw [hleave] at hstep; cases hstep
    | next hnext hends =>
      rw [hnext] at hstep
      rwa [← Sum.inl.inj hstep]

theorem not_ends_of_kept {P : α → Prop} (hstep : ∀ a, P a → ∃ a', step a = .inl a' ∧ P a') {a : α} (h : P a) : ¬ Ends step a := by
  intro hends
  induction hends with
  | leave hleave =>
    obtain ⟨a', hnext, -⟩ := hstep _ h
    rw [hleave] at hnext
    cases hnext
  | next hnext _ ih =>
    obtain ⟨a', hnext', hP⟩ := hstep _ h
    rw [hnext] at hnext'
    exact ih (by rwa [Sum.inl.inj hnext'])

/-- While `P` holds, the loop leaves, or it goes to where it ends, or the measure gets smaller. -/
theorem ends_of_measure {P : α → Prop} (m : α → ℕ)
    (hstep : ∀ a, P a → (∃ b, step a = .inr b) ∨ ∃ a', step a = .inl a' ∧ (Ends step a' ∨ P a' ∧ m a' < m a)) {a : α} (h : P a) :
    Ends step a := by
  induction hm : m a using Nat.strong_induction_on generalizing a with
  | _ n ih =>
    rcases hstep a h with ⟨b, hleave⟩ | ⟨a', hnext, hends | ⟨hP, hlt⟩⟩
    · exact .leave hleave
    · exact .next hnext hends
    · exact .next hnext (ih _ (hm ▸ hlt) hP rfl)

/-- While `P` holds, the loop leaves, or it goes to where it ends, or what `f` gives moves along the relation. -/
theorem ends_of_acc {P : α → Prop} (f : α → γ) {R : γ → γ → Prop}
    (hstep : ∀ a, P a → (∃ b, step a = .inr b) ∨ ∃ a', step a = .inl a' ∧ (Ends step a' ∨ P a' ∧ R (f a) (f a'))) {a : α} (h : P a)
    (hacc : Acc (fun b c => R c b) (f a)) : Ends step a := by
  generalize hc : f a = c at hacc
  induction hacc generalizing a with
  | intro c _ ih =>
    rcases hstep a h with ⟨b, hleave⟩ | ⟨a', hnext, hends | ⟨hP, hR⟩⟩
    · exact .leave hleave
    · exact .next hnext hends
    · exact .next hnext (ih _ (hc ▸ hR) hP rfl)

theorem acc_of_acyclic {R : α → α → Prop} {a : α} (hfin : {b | ReflTransGen R a b}.Finite)
    (h : ∀ b, ReflTransGen R a b → ¬ TransGen R b b) : Acc (fun b c => R c b) a := by
  let T : {b // ReflTransGen R a b} → {b // ReflTransGen R a b} → Prop := fun x y => TransGen R y.1 x.1
  have hfinite : Finite {b // ReflTransGen R a b} := hfin.to_subtype
  have htrans : IsTrans _ T := ⟨fun x y z hxy hyz => hyz.trans hxy⟩
  have hirrefl : Std.Irrefl T := ⟨fun x hx => h x.1 x.2 hx⟩
  have hwf : WellFounded T := Finite.wellFounded_of_trans_of_irrefl T
  have hacc : ∀ x : {b // ReflTransGen R a b}, Acc (fun b c => R c b) x.1 := by
    intro x
    induction x using hwf.induction with
    | _ x ih => exact Acc.intro _ fun c hc => ih ⟨c, x.2.tail hc⟩ (.single hc)
  exact hacc ⟨a, .refl⟩

end TrafficServer.Loop
