/-
Erasing, from a list, the first element with a given key, for one key after another.

`eraseKeys key ks L` does that for the keys `ks`. On the keys it is `List.diff` (`map_eraseKeys`). It is the same as keeping the elements whose
key has a property exactly if no such key is erased and every other key is erased as often as it occurs (`eraseKeys_eq_filter_iff`).
-/
import Mathlib.Tactic
import Mathlib.Data.List.Count

namespace TrafficServer.EraseKeys

variable {α κ : Type*} [BEq κ] {key : α → κ} {c : κ} {ks : List κ} {L : List α} {q : κ → Bool}

def eraseKeys (key : α → κ) (ks : List κ) (L : List α) : List α := ks.foldl (fun L c => L.eraseP fun y => key y == c) L

@[simp] theorem eraseKeys_nil (L : List α) : eraseKeys key [] L = L := rfl

@[simp] theorem eraseKeys_cons (c : κ) (ks : List κ) (L : List α) :
    eraseKeys key (c :: ks) L = eraseKeys key ks (L.eraseP fun y => key y == c) := rfl

theorem eraseKeys_sublist (ks : List κ) (L : List α) : (eraseKeys key ks L).Sublist L := by
  induction ks generalizing L with
  | nil => exact List.Sublist.refl L
  | cons c ks ih => exact (ih _).trans List.eraseP_sublist

theorem map_eraseP (c : κ) (L : List α) : (L.eraseP fun y => key y == c).map key = (L.map key).erase c := by
  induction L with
  | nil => rfl
  | cons y L ih =>
    rw [List.map_cons, List.eraseP_cons, List.erase_cons]
    cases hy : key y == c with
    | true => simp
    | false => simp [ih]

variable [LawfulBEq κ]

theorem map_eraseKeys (ks : List κ) (L : List α) : (eraseKeys key ks L).map key = (L.map key).diff ks := by
  induction ks generalizing L with
  | nil => rfl
  | cons c ks ih => rw [eraseKeys_cons, ih, map_eraseP, List.diff_cons]

theorem filter_eraseP (h : q c = true → c ∉ L.map key) :
    (L.eraseP fun y => key y == c).filter (fun y => q (key y)) = L.filter fun y => q (key y) := by
  induction L with
  | nil => rfl
  | cons y L ih =>
    rw [List.map_cons, List.mem_cons, not_or] at h
    rw [List.eraseP_cons]
    cases hy : key y == c with
    | true =>
      have hkey : key y = c := eq_of_beq hy
      have hq : q (key y) = false := by
        by_contra hq
        rw [Bool.not_eq_false, hkey] at hq
        exact (h hq).1 hkey.symm
      rw [List.filter_cons_of_neg (by rw [hq]; decide)]
      rfl
    | false =>
      show (y :: L.eraseP fun y => key y == c).filter (fun y => q (key y)) = _
      rw [List.filter_cons, List.filter_cons, ih fun hq => (h hq).2]

/-- elements whose keys are not erased stay -/
theorem filter_eraseKeys (h : ∀ c ∈ ks, q c = true → c ∉ L.map key) :
    (eraseKeys key ks L).filter (fun y => q (key y)) = L.filter fun y => q (key y) := by
  induction ks generalizing L with
  | nil => rfl
  | cons c ks ih =>
    have hsub : (L.eraseP fun y => key y == c).Sublist L := List.eraseP_sublist
    rw [eraseKeys_cons, ih fun c hc hq hmem => h c (List.mem_cons_of_mem _ hc) hq ((hsub.map key).subset hmem)]
    exact filter_eraseP (h c List.mem_cons_self)

/-- how often a key is left -/
theorem count_eraseKeys (c : κ) : ((eraseKeys key ks L).map key).count c = (L.map key).count c - ks.count c := by
  rw [map_eraseKeys, List.count_diff]

theorem count_filter_key (c : κ) :
    ((L.filter fun y => q (key y)).map key).count c = if q c then (L.map key).count c else 0 := by
  have hmap : (L.filter fun y => q (key y)).map key = (L.map key).filter q := by
    rw [List.filter_map]
    rfl
  rw [hmap]
  cases hq : q c with
  | true =>
    rw [if_pos rfl]
    exact List.count_filter hq
  | false =>
    rw [if_neg (by decide), List.count_eq_zero, List.mem_filter, hq]
    exact fun h => Bool.false_ne_true h.2

theorem eraseKeys_eq_filter_iff : eraseKeys key ks L = L.filter (fun y => q (key y)) ↔
    ∀ y ∈ L, if q (key y) then key y ∉ ks else (L.map key).count (key y) ≤ ks.count (key y) := by
  constructor
  · intro heq y hy
    have hcount : ((eraseKeys key ks L).map key).count (key y) = (L.map key).count (key y) - ks.count (key y) := count_eraseKeys (key y)
    rw [heq, count_filter_key] at hcount
    have hpos : 0 < (L.map key).count (key y) := List.count_pos_iff.2 (List.mem_map_of_mem hy)
    split_ifs at hcount ⊢ with hq
    · rw [← List.count_eq_zero]
      omega
    · omega
  · intro h
    -- what is left has the property
    have hleft : (eraseKeys key ks L).filter (fun y => q (key y)) = eraseKeys key ks L := by
      rw [List.filter_eq_self]
      intro y hy
      have hkey := h y ((eraseKeys_sublist ks L).subset hy)
      by_contra hq
      rw [if_neg hq] at hkey
      have hpos : 0 < ((eraseKeys key ks L).map key).count (key y) := List.count_pos_iff.2 (List.mem_map_of_mem hy)
      rw [count_eraseKeys] at hpos
      omega
    rw [← hleft, filter_eraseKeys]
    intro c hc hq hmem
    obtain ⟨y, hy, rfl⟩ := List.mem_map.1 hmem
    have hkey := h y hy
    rw [if_pos hq] at hkey
    exact hkey hc

end TrafficServer.EraseKeys
