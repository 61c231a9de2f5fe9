/-
The LRU policy on a list, the least recently used element first.

A use moves an element to the end (`touch`). What is new comes in at the end, and then elements leave from the front until the rest
fits (`evict`). `evict` leaves the longest end of the list that fits (`evict_suffix`, `evict_fits`, `suffix_evict`), and what came in
last stays exactly if it fits alone (`evict_concat_of_le`, `evict_concat_of_lt`).

The elements are of any type, their cost is in any ordered group.
-/
import Mathlib

namespace TrafficServer.LruPolicy

variable {α β M : Type*}

/-- the first element that `p` holds of goes to the end -/
def touch (p : α → Bool) (l : List α) : List α := l.eraseP p ++ (l.find? p).toList

theorem touch_eq {p : α → Bool} {l₁ l₂ : List α} {e : α} (h₁ : ∀ x ∈ l₁, ¬ p x) (he : p e) :
    touch p (l₁ ++ e :: l₂) = l₁ ++ l₂ ++ [e] := by
  have hfind : (l₁ ++ e :: l₂).find? p = some e := by
    rw [List.find?_append, List.find?_eq_none.mpr h₁, Option.none_or, List.find?_cons_of_pos he]
  rw [touch, hfind, List.eraseP_append_right _ h₁, List.eraseP_cons_of_pos he]
  rfl

theorem map_touch {p : α → Bool} {q : β → Bool} {f : α → β} {l : List α} (h : ∀ x ∈ l, q (f x) = p x) :
    (touch p l).map f = touch q (l.map f) := by
  have hfind : (l.map f).find? q = (l.find? p).map f := by
    rw [List.find?_map]
    congr 1
    exact List.find?_congr fun x hx => h x hx
  have herase : (l.map f).eraseP q = (l.eraseP p).map f := by
    clear hfind
    induction l with
    | nil => rfl
    | cons a l ih =>
      have ha := h a List.mem_cons_self
      rw [List.map_cons]
      cases hp : p a with
      | true => rw [List.eraseP_cons_of_pos (ha.trans hp), List.eraseP_cons_of_pos hp]
      | false =>
        rw [List.eraseP_cons_of_neg (by simp [ha, hp]), List.eraseP_cons_of_neg (by simp [hp]), List.map_cons,
          ih fun x hx => h x (List.mem_cons_of_mem a hx)]
  rw [touch, touch, List.map_append, hfind, herase, Option.toList_map]

section Evict

variable [AddCommMonoid M] [LinearOrder M]

/-- what is left when elements leave from the front until the rest fits -/
def evict (cost : α → M) (cap : M) : List α → List α
  | [] => []
  | x :: l => if cap < ((x :: l).map cost).sum then evict cost cap l else x :: l

variable {cost : α → M} {cap : M} {l l' : List α} {x : α}

theorem evict_suffix (cost : α → M) (cap : M) (l : List α) : evict cost cap l <:+ l := by
  induction l with
  | nil => exact List.suffix_rfl
  | cons x l ih =>
    rw [evict]
    split
    · exact ih.trans (List.suffix_cons x l)
    · exact List.suffix_rfl

theorem evict_fits (h : 0 ≤ cap) (l : List α) : ((evict cost cap l).map cost).sum ≤ cap := by
  induction l with
  | nil => simpa [evict] using h
  | cons x l ih =>
    rw [evict]
    by_cases hlt : cap < ((x :: l).map cost).sum
    · rw [if_pos hlt]
      exact ih
    · rw [if_neg hlt]
      exact not_lt.mp hlt

theorem map_evict (cost : α → M) (cost' : β → M) {f : α → β} (h : ∀ x ∈ l, cost' (f x) = cost x) :
    (evict cost cap l).map f = evict cost' cap (l.map f) := by
  induction l with
  | nil => rfl
  | cons x l ih =>
    have hsum : (f x :: l.map f).map cost' = (x :: l).map cost := by
      rw [← List.map_cons, List.map_map]
      exact List.map_congr_left h
    rw [List.map_cons, evict, evict, hsum, ← ih fun y hy => h y (List.mem_cons_of_mem x hy)]
    split <;> rfl

/-- no more leaves than has to: every end of the list that fits is left -/
theorem suffix_evict (h : l' <:+ l) (hfits : (l'.map cost).sum ≤ cap) : l' <:+ evict cost cap l := by
  induction l with
  | nil => exact h
  | cons x l ih =>
    rw [evict]
    by_cases hlt : cap < ((x :: l).map cost).sum
    · rw [if_pos hlt]
      rcases List.suffix_cons_iff.mp h with rfl | h
      · exact absurd hfits (not_le.mpr hlt)
      · exact ih h
    · rw [if_neg hlt]
      exact h

/-- what came in last stays if it fits alone, behind an end of what was there -/
theorem evict_concat_of_le (cost : α → M) (l : List α) (h : cost x ≤ cap) : ∃ l', l' <:+ l ∧ evict cost cap (l ++ [x]) = l' ++ [x] := by
  obtain ⟨l', hl'⟩ := suffix_evict (List.suffix_append l [x]) (by simpa using h : (([x] : List α).map cost).sum ≤ cap)
  obtain ⟨t, ht⟩ := evict_suffix cost cap (l ++ [x])
  rw [← hl', ← List.append_assoc] at ht
  exact ⟨l', ⟨t, List.append_cancel_right ht⟩, hl'.symm⟩

variable [IsOrderedAddMonoid M]

theorem sum_le_of_suffix (hcost : ∀ x, 0 ≤ cost x) (h : l' <:+ l) : (l'.map cost).sum ≤ (l.map cost).sum := by
  obtain ⟨t, rfl⟩ := h
  rw [List.map_append, List.sum_append]
  exact le_add_of_nonneg_left (List.sum_nonneg (by simpa using fun x _ => hcost x))

/-- and otherwise nothing stays -/
theorem evict_concat_of_lt (hcost : ∀ x, 0 ≤ cost x) (h : cap < cost x) : evict cost cap (l ++ [x]) = [] := by
  induction l with
  | nil => simp [evict, h]
  | cons y l ih =>
    have hle := sum_le_of_suffix hcost (List.suffix_append (y :: l) [x])
    rw [List.map_singleton, List.sum_singleton] at hle
    rw [List.cons_append, evict, ← List.cons_append, if_pos (h.trans_le hle), ih]

end Evict

end TrafficServer.LruPolicy
