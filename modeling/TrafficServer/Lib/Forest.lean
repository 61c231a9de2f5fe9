/-
Parent links.

Each node has a parent or none. The links are `Grounded` if no way up is endless. A node may get a new parent that it is not `Above` of
(`Grounded.update`); the way up from a node that is not below it stays as it is (`above_update`). Among finitely many nodes a way up is not
longer than their number (`height_parent`).
-/
import Mathlib.Data.Finset.Card
import Mathlib.Logic.Relation
import Mathlib.Tactic

namespace TrafficServer.Forest

variable {α : Type*} {parent : α → Option α} {a b c n p q : α}

/-- every way up ends -/
def Grounded (parent : α → Option α) : Prop := WellFounded fun p n => parent n = some p

/-- `a` is on the way up from `n`, or is `n` -/
def Above (parent : α → Option α) (a n : α) : Prop := Relation.ReflTransGen (fun x y => parent x = some y) n a

theorem Above.refl (a : α) : Above parent a a := Relation.ReflTransGen.refl

theorem Above.of_parent (hp : parent n = some p) (h : Above parent a p) : Above parent a n := Relation.ReflTransGen.head hp h

theorem above_cases (h : Above parent a n) : a = n ∨ ∃ p, parent n = some p ∧ Above parent a p := by
  rcases Relation.ReflTransGen.cases_head h with rfl | ⟨p, hp, h⟩
  · exact Or.inl rfl
  · exact Or.inr ⟨p, hp, h⟩

/-- a node is not above its parent -/
theorem Grounded.not_above (h : Grounded parent) : ∀ {n p : α}, parent n = some p → ¬ Above parent n p := by
  intro n
  induction n using h.induction with
  | _ n ih =>
    intro p hp habove
    rcases above_cases habove with rfl | ⟨q, hq, habove⟩
    · exact ih n hp hp (Above.refl n)
    · exact ih p hp hq (Relation.ReflTransGen.tail habove hp)

variable [DecidableEq α]

theorem above_update (o : Option α) (h : ¬ Above parent c n) : Above (Function.update parent c o) a n ↔ Above parent a n := by
  constructor
  · intro habove
    induction habove using Relation.ReflTransGen.head_induction_on with
    | refl => exact Above.refl a
    | @head x y hxy _ ih =>
      have hne : x ≠ c := fun heq => h (heq ▸ Above.refl x)
      rw [Function.update_of_ne hne] at hxy
      exact Above.of_parent hxy (ih fun hc => h (Above.of_parent hxy hc))
  · intro habove
    induction habove using Relation.ReflTransGen.head_induction_on with
    | refl => exact Above.refl a
    | @head x y hxy _ ih =>
      have hne : x ≠ c := fun heq => h (heq ▸ Above.refl x)
      have hxy' : Function.update parent c o x = some y := by rwa [Function.update_of_ne hne]
      exact Above.of_parent hxy' (ih fun hc => h (Above.of_parent hxy hc))

/-- a node may get a parent that it is not above of, or none -/
theorem Grounded.update (h : Grounded parent) {o : Option α} (ho : ∀ q, o = some q → ¬ Above parent c q) :
    Grounded (Function.update parent c o) := by
  have hoff : ∀ n, ¬ Above parent c n → Acc (fun p n => Function.update parent c o n = some p) n := by
    intro n
    induction n using h.induction with
    | _ n ih =>
      intro hn
      refine Acc.intro n fun p hp => ?_
      have hne : n ≠ c := fun heq => hn (heq ▸ Above.refl n)
      rw [Function.update_of_ne hne] at hp
      exact ih p hp fun hc => hn (Above.of_parent hp hc)
  have hc : Acc (fun p n => Function.update parent c o n = some p) c := by
    refine Acc.intro c fun p hp => ?_
    rw [Function.update_self] at hp
    exact hoff p (ho p hp)
  refine ⟨fun n => ?_⟩
  induction n using h.induction with
  | _ n ih =>
    by_cases hn : n = c
    · exact hn ▸ hc
    · refine Acc.intro n fun p hp => ?_
      rw [Function.update_of_ne hn] at hp
      exact ih p hp

/-! ## Heights -/

section Height

open Classical

/-- how many of the nodes are on the way up -/
noncomputable def height (parent : α → Option α) (L : List α) (n : α) : ℕ := (L.toFinset.filter fun a => Above parent a n).card

theorem height_le (L : List α) (n : α) : height parent L n ≤ L.length :=
  (Finset.card_filter_le _ _).trans (List.toFinset_card_le L)

theorem height_pos {L : List α} (hn : n ∈ L) : 0 < height parent L n :=
  Finset.card_pos.mpr ⟨n, Finset.mem_filter.mpr ⟨List.mem_toFinset.mpr hn, Above.refl n⟩⟩

theorem height_parent (h : Grounded parent) {L : List α} (hn : n ∈ L) (hp : parent n = some p) : height parent L p < height parent L n := by
  refine Finset.card_lt_card (Finset.ssubset_iff_subset_ne.mpr ⟨fun a ha => ?_, fun heq => ?_⟩)
  · obtain ⟨hmem, habove⟩ := Finset.mem_filter.mp ha
    exact Finset.mem_filter.mpr ⟨hmem, Above.of_parent hp habove⟩
  · have hself : n ∈ L.toFinset.filter fun a => Above parent a n :=
      Finset.mem_filter.mpr ⟨List.mem_toFinset.mpr hn, Above.refl n⟩
    rw [← heq] at hself
    exact h.not_above hp (Finset.mem_filter.mp hself).2

end Height

end TrafficServer.Forest
