/-
`PriorityQueue` (`include/tscore/PriorityQueue.h`), for any number of queues over the same entries.

A queue is a binary heap with the vector `_v`; an entry has its place in the field `index` and its key behind `node`, and both are shared by all
queues. An entry is in one queue at a time, but for a splice: `Tree::remove` pushes the top entry of a queue into another queue and only then
pops it. `pop` puts the old index back into the entry that goes, and this is the new one.

`Inv` is the invariant, with the entries that have been pushed and not removed; `step_inv` says that every operation keeps it, and the
result is `priority_queue_laws`.
-/
import Mathlib
import TrafficServer.Lib.HeapOrder
import TrafficServer.Lib.Run

namespace TrafficServer.PriorityQueue

open TrafficServer.IndexedHeap TrafficServer.Run

/-! ## Queues -/

variable {Q E K : Type*}

structure State (Q E K : Type*) where
  /-- `_v` of each queue -/
  v : Q → List E
  index : E → ℕ
  /-- what `node` points to -/
  key : E → K

namespace State

def queue (s : State Q E K) (q : Q) : Heap E := ⟨s.v q, s.index⟩

/-- `PriorityQueueLess` -/
def less (lt : K → K → Bool) (s : State Q E K) (a b : E) : Bool := lt (s.key a) (s.key b)

def top (s : State Q E K) (q : Q) : Option E := (s.v q).head?

variable [DecidableEq Q] [DecidableEq E] (lt : K → K → Bool) (s : State Q E K)

def set (q : Q) (h : Heap E) : State Q E K := { s with v := Function.update s.v q h.v, index := h.index }

def setKey (e : E) (k : K) : State Q E K := { s with key := Function.update s.key e k }

def push (q : Q) (e : E) : State Q E K := s.set q ((s.queue q).push (s.less lt) e)

def pop (q : Q) : State Q E K := s.set q ((s.queue q).pop (s.less lt))

def erase (q : Q) (e : E) : State Q E K := s.set q ((s.queue q).erase (s.less lt) e)

/-- `update(entry, increased)` -/
def update (q : Q) (e : E) (increased : Bool) : State Q E K :=
  if s.v q = [] then s
  else if increased then s.set q ((s.queue q).bubbleDown (s.less lt) (s.v q).length (s.index e))
  else s.set q ((s.queue q).bubbleUp (s.less lt) (s.index e) (s.index e))

/-- a round of the loop in `Tree::remove`: `dst.push(src.top())`, `src.pop()` -/
def moveTop (src dst : Q) : State Q E K :=
  match s.top src with
  | none => s
  | some e => (s.push lt dst e).pop lt src

/-- the loop in `Tree::remove`; each round makes the queue shorter -/
def splice (src dst : Q) : ℕ → State Q E K → State Q E K
  | 0, s => s
  | fuel + 1, s => if s.v src = [] then s else splice src dst fuel (s.moveTop lt src dst)

end State

/-- the calls; an entry gets a key when it is pushed, and before an update -/
inductive Op (Q E K : Type*) where
  | push (q : Q) (e : E) (k : K)
  | pop (q : Q)
  | erase (q : Q) (e : E)
  | update (q : Q) (e : E) (k : K) (increased : Bool)
  | splice (src dst : Q)

section Runs

variable [DecidableEq Q] [DecidableEq E] (lt : K → K → Bool)

def step (s : State Q E K) : Op Q E K → State Q E K
  | .push q e k => (s.setKey e k).push lt q e
  | .pop q => s.pop lt q
  | .erase q e => s.erase lt q e
  | .update q e k increased => (s.setKey e k).update lt q e increased
  | .splice src dst => State.splice lt src dst (s.v src).length s

/-- An entry that is pushed is in no queue, one that is erased or updated is in that queue, and the direction of an update is true. -/
def Allowed (s : State Q E K) : Op Q E K → Prop
  | .push _ e _ => ∀ q, e ∉ s.v q
  | .pop _ => True
  | .erase q e => e ∈ s.v q
  | .update q e k increased => e ∈ s.v q ∧ if increased then lt k (s.key e) = false else lt (s.key e) k = false
  | .splice src dst => src ≠ dst

instance decidableAllowed [Fintype Q] (s : State Q E K) : DecidablePred (Allowed lt s)
  | .push _ e _ => inferInstanceAs (Decidable (∀ q, e ∉ s.v q))
  | .pop _ => isTrue trivial
  | .erase q e => inferInstanceAs (Decidable (e ∈ s.v q))
  | .update q e k increased =>
    inferInstanceAs (Decidable (e ∈ s.v q ∧ if increased then lt k (s.key e) = false else lt (s.key e) k = false))
  | .splice src dst => inferInstanceAs (Decidable (src ≠ dst))

/-- what has been pushed and not removed, behind an operation -/
def track (s : State Q E K) (m : Q → Set E) : Op Q E K → Q → Set E
  | .push q e _ => Function.update m q (insert e (m q))
  | .pop q => Function.update m q {x | x ∈ m q ∧ s.top q ≠ some x}
  | .erase q e => Function.update m q {x | x ∈ m q ∧ x ≠ e}
  | .update _ _ _ _ => m
  | .splice src dst => Function.update (Function.update m dst (m dst ∪ m src)) src ∅

/-- the same behind a run -/
def members (s : State Q E K) (m : Q → Set E) : List (Op Q E K) → Q → Set E
  | [] => m
  | op :: ops => members (step lt s op) (track s m op) ops

def init (key : E → K) : State Q E K := ⟨fun _ => [], fun _ => 0, key⟩

end Runs

/-! ## The invariant -/

/-- a heap in which every entry is where its index says, and which holds these entries -/
structure QueueOk (lt : K → K → Bool) (s : State Q E K) (q : Q) (M : Set E) : Prop where
  ordered : Ordered (s.less lt) (s.queue q)
  indexed : Indexed (s.queue q)
  mem : ∀ e, e ∈ s.v q ↔ e ∈ M

structure Inv (lt : K → K → Bool) (s : State Q E K) (m : Q → Set E) : Prop where
  queue : ∀ q, QueueOk lt s q (m q)
  disjoint : ∀ q q', q ≠ q' → ∀ e ∈ m q, e ∉ m q'

variable {lt : K → K → Bool} {s s' : State Q E K} {m : Q → Set E} {M : Set E} {q src dst : Q} {e : E}

theorem less_weak (hlt : Weak lt) (s : State Q E K) : Weak (s.less lt) where
  asymm a b := hlt.asymm (s.key a) (s.key b)
  trans a b c := hlt.trans (s.key a) (s.key b) (s.key c)

/-- a queue that an operation does not touch -/
theorem QueueOk.frame (h : QueueOk lt s q M) (hv : s'.v q = s.v q) (hindex : ∀ x ∈ M, s'.index x = s.index x)
    (hkey : ∀ x ∈ M, s'.key x = s.key x) : QueueOk lt s' q M := by
  refine ⟨h.ordered.congr hv fun a ha b hb => ?_, fun i x hx => ?_, fun x => ?_⟩
  · rw [State.less, State.less, hkey a ((h.mem a).mp ha), hkey b ((h.mem b).mp hb)]
  · have hx' : (s.v q)[i]? = some x := by rwa [← hv]
    exact (hindex x ((h.mem x).mp (List.mem_of_getElem? hx'))).trans (h.indexed i x hx')
  · rw [hv, h.mem]

theorem Inv.setKey [DecidableEq E] (h : Inv lt s m) {k : K} (he : ∀ q, e ∉ m q) : Inv lt (s.setKey e k) m := by
  refine ⟨fun q => (h.queue q).frame rfl (fun _ _ => rfl) fun x hx => ?_, h.disjoint⟩
  have hne : x ≠ e := by
    rintro rfl
    exact he q hx
  exact Function.update_of_ne hne ..

theorem init_inv (lt : K → K → Bool) (key : E → K) : Inv lt (init key : State Q E K) fun _ => ∅ where
  queue _ := ⟨fun _ _ => comp_of_length_le (Or.inl (Nat.zero_le _)), fun _ _ hx => by simp [State.queue, init] at hx, fun _ => by simp [init]⟩
  disjoint _ _ _ _ hin := hin.elim

section Set

variable [DecidableEq Q]

/-- the heap that an operation gives a queue -/
theorem queueOk_set {h' : Heap E} (ho : Ordered (s.less lt) h') (hi : Indexed h') (hmem : ∀ e, e ∈ h'.v ↔ e ∈ M) : QueueOk lt (s.set q h') q M := by
  have hv : (s.set q h').v q = h'.v := Function.update_self ..
  refine ⟨ho.congr hv fun _ _ _ _ => rfl, fun i x hx => hi i x ?_, fun x => ?_⟩
  · rw [← hv]
    exact hx
  · rw [hv, hmem]

theorem set_v_of_ne {h' : Heap E} {q' : Q} (hne : q' ≠ q) : (s.set q h').v q' = s.v q' := Function.update_of_ne hne ..

/-- The other queues are as they should be, and the operation only touches entries that are not in them. -/
theorem inv_set {h' : Heap E} (hqueue : ∀ q' ≠ q, QueueOk lt s q' (m q'))
    (hdisjoint : ∀ q₁ ≠ q, ∀ q₂ ≠ q, q₁ ≠ q₂ → ∀ x ∈ m q₁, x ∉ m q₂) (ho : Ordered (s.less lt) h') (hi : Indexed h')
    (hmem : ∀ x, x ∈ h'.v ↔ x ∈ M) (hframe : ∀ q' ≠ q, ∀ x ∈ m q', x ∉ M ∧ h'.index x = s.index x) :
    Inv lt (s.set q h') (Function.update m q M) := by
  refine ⟨fun q' => ?_, fun q₁ q₂ hne x hx hx' => ?_⟩
  · by_cases hq : q' = q
    · rw [hq, Function.update_self]
      exact queueOk_set ho hi hmem
    · rw [Function.update_of_ne hq]
      exact (hqueue q' hq).frame (set_v_of_ne hq) (fun x hx => (hframe q' hq x hx).2) fun _ _ => rfl
  · by_cases h₁ : q₁ = q
    · have h₂ : q₂ ≠ q := fun h₂ => hne (h₁.trans h₂.symm)
      rw [h₁, Function.update_self] at hx
      rw [Function.update_of_ne h₂] at hx'
      exact (hframe q₂ h₂ x hx').1 hx
    · rw [Function.update_of_ne h₁] at hx
      by_cases h₂ : q₂ = q
      · rw [h₂, Function.update_self] at hx'
        exact (hframe q₁ h₁ x hx).1 hx'
      · rw [Function.update_of_ne h₂] at hx'
        exact hdisjoint q₁ h₁ q₂ h₂ hne x hx hx'

theorem Inv.set (h : Inv lt s m) {h' : Heap E} (ho : Ordered (s.less lt) h') (hi : Indexed h') (hmem : ∀ x, x ∈ h'.v ↔ x ∈ M)
    (hframe : ∀ q' ≠ q, ∀ x ∈ m q', x ∉ M ∧ h'.index x = s.index x) : Inv lt (s.set q h') (Function.update m q M) :=
  inv_set (fun q' _ => h.queue q') (fun q₁ _ q₂ _ => h.disjoint q₁ q₂) ho hi hmem hframe

theorem splice_empty (h : QueueOk lt s src (m src)) (hv : s.v src = []) : Function.update (Function.update m dst (m dst ∪ m src)) src ∅ = m := by
  have hsrc : m src = ∅ := Set.eq_empty_of_forall_notMem fun x hx => by
    have hin := (h.mem x).mpr hx
    rw [hv] at hin
    exact List.not_mem_nil hin
  rw [hsrc, Set.union_empty, Function.update_eq_self, ← hsrc, Function.update_eq_self]

end Set

section Operations

variable [DecidableEq Q] [DecidableEq E]

theorem Inv.push (hlt : Weak lt) (h : Inv lt s m) (he : ∀ q, e ∉ m q) : Inv lt (s.push lt q e) (Function.update m q (insert e (m q))) := by
  have hq := h.queue q
  have hnot : e ∉ (s.queue q).v := fun hin => he q ((hq.mem e).mp hin)
  obtain ⟨hi, hmem, hframe⟩ := push_spec (s.less lt) hq.indexed hnot
  refine h.set (push_ordered (less_weak hlt s) hq.ordered e) hi (fun x => ?_) fun q' hne x hx => ?_
  · rw [hmem, Set.mem_insert_iff, or_comm]
    exact or_congr_right (hq.mem x)
  · have hxe : x ≠ e := by
      rintro rfl
      exact he q' hx
    have hxq : x ∉ m q := h.disjoint q' q hne x hx
    exact ⟨fun hin => (Set.mem_insert_iff.mp hin).elim hxe hxq, hframe x (fun hin => hxq ((hq.mem x).mp hin)) hxe⟩

theorem Inv.erase (hlt : Weak lt) (h : Inv lt s m) : Inv lt (s.erase lt q e) (Function.update m q {x | x ∈ m q ∧ x ≠ e}) := by
  have hq := h.queue q
  obtain ⟨hi, hmem, hframe⟩ := erase_spec (s.less lt) hq.indexed e
  refine h.set (erase_ordered (less_weak hlt s) hq.ordered e) hi (fun x => ?_) fun q' hne x hx => ?_
  · rw [hmem]
    exact and_congr_left' (hq.mem x)
  · have hxq : x ∉ m q := h.disjoint q' q hne x hx
    exact ⟨fun hin => hxq hin.1, hframe x fun hin => hxq ((hq.mem x).mp hin)⟩

theorem Inv.pop (hlt : Weak lt) (h : Inv lt s m) : Inv lt (s.pop lt q) (Function.update m q {x | x ∈ m q ∧ s.top q ≠ some x}) := by
  have hq := h.queue q
  have ho := pop_ordered (less_weak hlt s) hq.ordered
  cases hv : s.v q with
  | nil =>
    have hpop : (s.queue q).pop (s.less lt) = s.queue q := by
      unfold Heap.pop State.queue
      rw [hv]
    rw [State.pop]
    rw [hpop] at ho ⊢
    refine h.set ho hq.indexed (fun x => ?_) fun q' hne x hx => ⟨fun hin => h.disjoint q' q hne x hx hin.1, rfl⟩
    have htop : s.top q ≠ some x := by simp [State.top, hv]
    exact (hq.mem x).trans (and_iff_left htop).symm
  | cons e l =>
    obtain ⟨hi, hmem, -, hframe⟩ := pop_spec (s.less lt) (show (s.queue q).v = e :: l from hv) hq.indexed.nodup fun i x _ hx => hq.indexed i x hx
    have hnodup : (e :: l).Nodup := hv ▸ hq.indexed.nodup
    refine h.set ho hi (fun x => ?_) fun q' hne x hx => ?_
    · have htop : s.top q ≠ some x ↔ e ≠ x := by simp [State.top, hv]
      rw [hmem, Set.mem_ofPred_eq, htop, ← hq.mem, hv, List.mem_cons]
      refine ⟨fun hx => ⟨Or.inr hx, ?_⟩, fun hx => hx.1.resolve_left (Ne.symm hx.2)⟩
      rintro rfl
      exact (List.nodup_cons.mp hnodup).1 hx
    · have hxq : x ∉ m q := h.disjoint q' q hne x hx
      exact ⟨fun hin => hxq hin.1, hframe x fun hin => hxq ((hq.mem x).mp hin)⟩

/-- an update with the true direction -/
theorem Inv.update (hlt : Weak lt) (h : Inv lt s m) (he : e ∈ m q) {k : K} {increased : Bool}
    (htrue : if increased then lt k (s.key e) = false else lt (s.key e) k = false) :
    Inv lt ((s.setKey e k).update lt q e increased) m := by
  have hq := h.queue q
  have hin : e ∈ s.v q := (hq.mem e).mpr he
  obtain ⟨i, hi⟩ := List.mem_iff_getElem?.mp hin
  have hindex : s.index e = i := hq.indexed i e hi
  obtain ⟨s', hs'⟩ : ∃ s', s' = s.setKey e k := ⟨_, rfl⟩
  have hkey : s'.key e = k := by
    rw [hs']
    exact Function.update_self ..
  have hother : ∀ x, x ≠ e → s'.key x = s.key x := by
    intro x hx
    rw [hs']
    exact Function.update_of_ne hx ..
  have hqueue : s'.queue q = s.queue q := by rw [hs']; rfl
  -- the order is kept but for the place of the entry
  have hexcept : Except (s'.less lt) (s'.queue q) i := by
    rw [hqueue]
    refine hq.ordered.exceptAt (less_weak hlt s) hq.indexed.nodup hi fun a b ha hb => ?_
    rw [State.less, State.less, hother a ha, hother b hb]
  have hplace : ∀ j, j ≠ i → ∀ x, (s.queue q).v[j]? = some x → s'.key x = s.key x := by
    intro j hj x hx
    refine hother x fun heq => hj ?_
    rw [← hq.indexed j x hx, heq]
    exact hindex
  have hsift : ∃ h', (s'.update lt q e increased) = s'.set q h' ∧ Ordered (s'.less lt) h' ∧ Rearranged (s'.queue q) h' := by
    have hne : s'.v q ≠ [] := by
      rw [hs']
      exact List.ne_nil_of_mem hin
    have hi' : s'.index e = i := by rw [hs']; exact hindex
    have hindexed : Indexed (s'.queue q) := hqueue ▸ hq.indexed
    rw [State.update, if_neg hne, hi']
    cases increased with
    | true =>
      refine ⟨_, if_pos rfl, bubbleDown_ordered (less_weak hlt s') _ (hexcept.downOrder fun hpos => ?_) (Nat.le_add_right _ _),
        bubbleDown_rearranged _ _ hindexed _⟩
      have hold := hq.ordered i hpos
      rw [hqueue]
      cases hp : (s.queue q).v[(i - 1) / 2]? with
      | none => exact comp_of_length_le (Or.inr (List.getElem?_eq_none_iff.mp hp))
      | some p =>
        rw [comp_some hi hp] at hold ⊢
        rw [State.less, hkey, hplace _ (by omega) p hp]
        exact hlt.trans _ _ _ htrue hold
    | false =>
      refine ⟨_, if_neg Bool.false_ne_true, bubbleUp_ordered (less_weak hlt s') _ ⟨fun j hj hji => ?_, hexcept.grand⟩ le_rfl,
        bubbleUp_rearranged _ _ hindexed _⟩
      by_cases hpar : (j - 1) / 2 = i
      · have hold := hq.ordered j hj
        rw [hpar] at hold ⊢
        rw [hqueue]
        cases hc : (s.queue q).v[j]? with
        | none => exact comp_of_length_le (Or.inl (List.getElem?_eq_none_iff.mp hc))
        | some c =>
          rw [comp_some hc hi] at hold ⊢
          rw [State.less, hkey, hplace j hji c hc]
          exact hlt.trans _ _ _ hold htrue
      · exact hexcept.off j hj hji hpar
  obtain ⟨h', hupdate, ho, hr⟩ := hsift
  rw [← hs', hupdate]
  have hsame : Function.update m q (m q) = m := Function.update_eq_self q m
  rw [← hsame]
  refine inv_set (fun q' hne => (h.queue q').frame ?_ (fun x _ => ?_) fun x hx => hother x ?_) (fun q₁ _ q₂ _ => h.disjoint q₁ q₂) ho hr.indexed
    (fun x => (hr.mem x).trans ?_) fun q' hne x hx => ⟨h.disjoint q' q hne x hx, hr.frame x fun hin => ?_⟩
  · rw [hs']
    rfl
  · rw [hs']
    rfl
  · rintro rfl
    exact h.disjoint q' q hne x hx he
  · rw [hqueue]
    exact hq.mem x
  · rw [hqueue] at hin
    exact h.disjoint q' q hne x hx ((hq.mem x).mp hin)

/-- the top entry goes to another queue, and keeps the place that it has there -/
theorem Inv.moveTop (hlt : Weak lt) (h : Inv lt s m) (hne : src ≠ dst) {l : List E} (hv : s.v src = e :: l) :
    Inv lt (s.moveTop lt src dst) (Function.update (Function.update m dst (insert e (m dst))) src {x | x ∈ m src ∧ x ≠ e}) ∧
      ((s.moveTop lt src dst).v src).length = l.length := by
  have hsrc := h.queue src
  have hdst := h.queue dst
  have hnodup : (e :: l).Nodup := hv ▸ hsrc.indexed.nodup
  have hmemsrc : ∀ x, x ∈ m src ↔ x = e ∨ x ∈ l := fun x => by rw [← hsrc.mem, hv, List.mem_cons]
  have he : e ∈ m src := (hmemsrc e).mpr (Or.inl rfl)
  have hapart : ∀ x ∈ m src, x ∉ m dst := h.disjoint src dst hne
  have hmove : s.moveTop lt src dst = (s.push lt dst e).pop lt src := by
    rw [State.moveTop, State.top, hv]
    rfl
  -- the push
  have hnot : e ∉ (s.queue dst).v := fun hin => hapart e he ((hdst.mem e).mp hin)
  obtain ⟨hi₁, hmem₁, hframe₁⟩ := push_spec (s.less lt) hdst.indexed hnot
  have ho₁ := push_ordered (less_weak hlt s) hdst.ordered e
  obtain ⟨s₁, hs₁⟩ : ∃ s₁, s₁ = s.push lt dst e := ⟨_, rfl⟩
  have hindex₁ : ∀ x, x ≠ e → x ∉ m dst → s₁.index x = s.index x := by
    intro x hx hxd
    rw [hs₁]
    exact hframe₁ x (fun hin => hxd ((hdst.mem x).mp hin)) hx
  have hv₁ : s₁.v src = e :: l := by
    rw [hs₁, ← hv]
    exact set_v_of_ne hne
  have hdst₁ : QueueOk lt s₁ dst (insert e (m dst)) := by
    rw [hs₁]
    refine queueOk_set ho₁ hi₁ fun x => (hmem₁ x).trans ?_
    rw [Set.mem_insert_iff, or_comm]
    exact or_congr_right (hdst.mem x)
  have hqueue₁ : ∀ q ≠ src, QueueOk lt s₁ q (Function.update m dst (insert e (m dst)) q) := by
    intro q hq
    by_cases hqd : q = dst
    · rw [hqd, Function.update_self]
      exact hdst₁
    · rw [Function.update_of_ne hqd]
      refine (h.queue q).frame ?_ (fun x hx => hindex₁ x ?_ (h.disjoint q dst hqd x hx)) fun x _ => ?_
      · rw [hs₁]
        exact set_v_of_ne hqd
      · rintro rfl
        exact h.disjoint q src hq x hx he
      · rw [hs₁]
        rfl
  -- the pop
  have hplace : ∀ i x, i ≠ 0 → (s₁.queue src).v[i]? = some x → (s₁.queue src).index x = i := by
    intro i x hi hx
    have hx' : (s₁.v src)[i]? = some x := hx
    rw [hv₁, ← hv] at hx'
    have hxs : x ∈ m src := (hsrc.mem x).mp (List.mem_of_getElem? hx')
    have hxe : x ≠ e := by
      rintro rfl
      have hzero : s.index x = 0 := hsrc.indexed 0 x (show (s.v src)[0]? = some x by rw [hv]; rfl)
      exact hi ((hsrc.indexed i x hx').symm.trans hzero)
    exact (hindex₁ x hxe (hapart x hxs)).trans (hsrc.indexed i x hx')
  obtain ⟨hi₂, hmem₂, hkept, hframe₂⟩ := pop_spec (s₁.less lt) (show (s₁.queue src).v = e :: l from hv₁)
    (show (s₁.v src).Nodup by rw [hv₁]; exact hnodup) hplace
  have hordered₁ : Ordered (s₁.less lt) (s₁.queue src) := by
    refine hsrc.ordered.congr (show s₁.v src = s.v src by rw [hv₁, hv]) fun a _ b _ => ?_
    rw [hs₁]
    rfl
  have ho₂ := pop_ordered (less_weak hlt s₁) hordered₁
  rw [hmove, ← hs₁]
  refine ⟨inv_set hqueue₁ (fun q₁ h₁ q₂ h₂ hq x hx hx' => ?_) ho₂ hi₂ (fun x => ?_) fun q hq x hx => ?_, ?_⟩
  · by_cases hd₁ : q₁ = dst
    · have hd₂ : q₂ ≠ dst := fun hd₂ => hq (hd₁.trans hd₂.symm)
      rw [hd₁, Function.update_self] at hx
      rw [Function.update_of_ne hd₂] at hx'
      rcases Set.mem_insert_iff.mp hx with rfl | hxd
      · exact h.disjoint q₂ src h₂ x hx' he
      · exact h.disjoint q₂ dst hd₂ x hx' hxd
    · rw [Function.update_of_ne hd₁] at hx
      by_cases hd₂ : q₂ = dst
      · rw [hd₂, Function.update_self] at hx'
        rcases Set.mem_insert_iff.mp hx' with rfl | hxd
        · exact h.disjoint q₁ src h₁ x hx he
        · exact h.disjoint q₁ dst hd₁ x hx hxd
      · rw [Function.update_of_ne hd₂] at hx'
        exact h.disjoint q₁ q₂ hq x hx hx'
  · rw [hmem₂, Set.mem_ofPred_eq, hmemsrc]
    refine ⟨fun hx => ⟨Or.inr hx, ?_⟩, fun hx => hx.1.resolve_left hx.2⟩
    rintro rfl
    exact (List.nodup_cons.mp hnodup).1 hx
  · by_cases hxe : x = e
    · rw [hxe]
      exact ⟨fun hin => hin.2 rfl, hkept⟩
    · have hxsrc : x ∉ m src := by
        by_cases hqd : q = dst
        · rw [hqd, Function.update_self] at hx
          exact fun hin => hapart x hin ((Set.mem_insert_iff.mp hx).resolve_left hxe)
        · rw [Function.update_of_ne hqd] at hx
          exact h.disjoint q src hq x hx
      refine ⟨fun hin => hxsrc hin.1, hframe₂ x fun hin => hxsrc ((hsrc.mem x).mp ?_)⟩
      have hin' : x ∈ s₁.v src := hin
      rwa [hv₁, ← hv] at hin'
  · have hv₂ : ((s₁.pop lt src).v src) = ((s₁.queue src).pop (s₁.less lt)).v := Function.update_self ..
    rw [hv₂]
    exact ((List.perm_ext_iff_of_nodup hi₂.nodup (List.nodup_cons.mp hnodup).2).mpr hmem₂).length_eq

theorem splice_cons (hne : src ≠ dst) (he : e ∈ m src) {m' : Q → Set E}
    (hm' : m' = Function.update (Function.update m dst (insert e (m dst))) src {x | x ∈ m src ∧ x ≠ e}) :
    Function.update (Function.update m' dst (m' dst ∪ m' src)) src ∅ = Function.update (Function.update m dst (m dst ∪ m src)) src ∅ := by
  funext q
  by_cases hsrc : q = src
  · rw [hsrc, Function.update_self, Function.update_self]
  · rw [Function.update_of_ne hsrc, Function.update_of_ne hsrc]
    by_cases hdst : q = dst
    · rw [hdst, Function.update_self, Function.update_self, hm', Function.update_self, Function.update_of_ne (Ne.symm hne), Function.update_self]
      ext x
      by_cases hx : x = e
      · rw [hx]
        exact iff_of_true (Or.inl (Or.inl rfl)) (Or.inr he)
      · simp [hx]
    · rw [Function.update_of_ne hdst, Function.update_of_ne hdst, hm', Function.update_of_ne hsrc, Function.update_of_ne hdst]

/-- all entries go to another queue -/
theorem Inv.splice (hlt : Weak lt) (hne : src ≠ dst) (fuel : ℕ) (h : Inv lt s m) (hfuel : (s.v src).length ≤ fuel) :
    Inv lt (State.splice lt src dst fuel s) (Function.update (Function.update m dst (m dst ∪ m src)) src ∅) := by
  induction fuel generalizing s m with
  | zero =>
    rw [splice_empty (h.queue src) (List.length_eq_zero_iff.mp (Nat.le_zero.mp hfuel))]
    exact h
  | succ fuel ih =>
    rw [State.splice]
    cases hv : s.v src with
    | nil =>
      rw [if_pos rfl, splice_empty (h.queue src) hv]
      exact h
    | cons e l =>
      have he : e ∈ m src := ((h.queue src).mem e).mp (hv ▸ List.mem_cons_self)
      obtain ⟨hmoved, hlen⟩ := h.moveTop hlt hne hv
      rw [hv, List.length_cons] at hfuel
      rw [if_neg (List.cons_ne_nil e l), ← splice_cons hne he rfl]
      exact ih hmoved (by omega)

/-! ## Runs -/

theorem step_inv (hlt : Weak lt) (h : Inv lt s m) {op : Op Q E K} (hok : Allowed lt s op) : Inv lt (step lt s op) (track s m op) := by
  cases op with
  | push q e k =>
    have he : ∀ q, e ∉ m q := fun q hin => hok q (((h.queue q).mem e).mpr hin)
    exact (h.setKey he).push hlt he
  | pop q => exact h.pop hlt
  | erase q e => exact h.erase hlt
  | update q e k increased => exact h.update hlt (((h.queue q).mem e).mp hok.1) hok.2
  | splice src dst => exact h.splice hlt hok _ le_rfl

theorem run_inv (hlt : Weak lt) (h : Inv lt s m) (ops : List (Op Q E K)) (hok : Along (step lt) (Allowed lt) s ops) :
    Inv lt (ops.foldl (step lt) s) (members lt s m ops) := by
  induction ops generalizing s m with
  | nil => exact h
  | cons op ops ih => exact ih (step_inv hlt h hok.1) hok.2

/-- Each vector is a heap in which every entry is where its index says, with exactly the entries that have been pushed and not removed. -/
theorem priority_queue_laws (hlt : Weak lt) (key : E → K) (ops : List (Op Q E K)) (hok : Along (step lt) (Allowed lt) (init key) ops) (q : Q) :
    Ordered ((ops.foldl (step lt) (init key)).less lt) ((ops.foldl (step lt) (init key)).queue q) ∧
      (∀ i e, ((ops.foldl (step lt) (init key)).v q)[i]? = some e → (ops.foldl (step lt) (init key)).index e = i) ∧
      ∀ e, e ∈ (ops.foldl (step lt) (init key)).v q ↔ e ∈ members lt (init key) (fun _ => ∅) ops q := by
  have h := (run_inv hlt (init_inv lt key) ops hok).queue q
  exact ⟨h.ordered, h.indexed, h.mem⟩

end Operations

theorem natLt_weak : Weak fun a b : ℕ => decide (a < b) where
  asymm a b h := by simpa using (of_decide_eq_true h).le
  trans a b c h h' := by
    rw [decide_eq_false_iff_not, not_lt] at h h' ⊢
    exact h'.trans h

/-- three entries, one of which gets a larger key, and are moved to another queue -/
def splicing : List (Op Bool ℕ ℕ) :=
  [.push false 7 30, .push false 8 10, .push false 9 20, .update false 8 25 true, .push true 6 40, .splice false true, .erase true 9]

theorem splicing_laws : Ordered ((splicing.foldl (step fun a b => decide (a < b)) (init fun _ => 0)).less fun a b => decide (a < b))
    ((splicing.foldl (step fun a b => decide (a < b)) (init fun _ => 0)).queue true) :=
  (priority_queue_laws natLt_weak (fun _ => 0) splicing (by decide) true).1

end TrafficServer.PriorityQueue
