/-
Lists of labels that are written one after the other with a separator between them.

The text `[x].intercalate ls` determines the labels when there is at least one and none of them contains the separator (`intercalate_inj`), and
a text that ends in another one behind a separator has its labels as the last of its own (`intercalate_suffix`).
-/
import Mathlib

namespace TrafficServer.Labels

variable {α β : Type} {x : α} {l : List α} {ls ms : List (List α)}

/-- every label has a letter and no separator -/
def Good (x : α) (ls : List (List α)) : Prop := ∀ l ∈ ls, l ≠ [] ∧ x ∉ l

theorem Good.tail (h : Good x (l :: ls)) : Good x ls := fun m hm => h m (List.mem_cons_of_mem l hm)

theorem intercalate_cons (h : ls ≠ []) : [x].intercalate (l :: ls) = l ++ x :: [x].intercalate ls := by
  obtain ⟨m, ls, rfl⟩ := List.exists_cons_of_ne_nil h
  rw [List.intercalate_cons_cons, List.append_assoc, List.singleton_append]

theorem intercalate_append (hl : ls ≠ []) (hm : ms ≠ []) : [x].intercalate (ls ++ ms) = [x].intercalate ls ++ x :: [x].intercalate ms := by
  induction ls with
  | nil => exact absurd rfl hl
  | cons l ls ih =>
    rcases List.eq_nil_or_concat' ls with rfl | ⟨ls', m, rfl⟩
    · rw [List.singleton_append, intercalate_cons hm, List.intercalate_singleton]
    · have hne : ls' ++ [m] ≠ [] := by simp
      rw [List.cons_append, intercalate_cons (by simp), ih hne, intercalate_cons hne, List.append_assoc, List.cons_append]

theorem intercalate_concat (hl : ls ≠ []) : [x].intercalate (ls ++ [l]) = [x].intercalate ls ++ x :: l := by
  rw [intercalate_append hl (List.cons_ne_nil l []), List.intercalate_singleton]

theorem intercalate_map (f : α → β) (ls : List (List α)) : ([x].intercalate ls).map f = [f x].intercalate (ls.map (List.map f)) := by
  induction ls with
  | nil => rfl
  | cons l ls ih =>
    by_cases hl : ls = []
    · rw [hl, List.map_singleton, List.intercalate_singleton, List.intercalate_singleton]
    · rw [List.map_cons, intercalate_cons hl, intercalate_cons (by simpa using hl), List.map_append, List.map_cons, ih]

theorem intercalate_ne_nil (h : Good x ls) (hl : ls ≠ []) : [x].intercalate ls ≠ [] := by
  obtain ⟨l, ls, rfl⟩ := List.exists_cons_of_ne_nil hl
  have hne := (h l List.mem_cons_self).1
  by_cases hls : ls = []
  · rw [hls, List.intercalate_singleton]
    exact hne
  · rw [intercalate_cons hls]
    simp

theorem intercalate_inj [DecidableEq α] (hl : Good x ls) (hm : Good x ms) (hls : ls ≠ []) (hms : ms ≠ [])
    (h : [x].intercalate ls = [x].intercalate ms) : ls = ms := by
  have h1 := List.splitOn_intercalate x (fun l hm => (hl l hm).2) hls
  have h2 := List.splitOn_intercalate x (fun l hm' => (hm l hm').2) hms
  rw [← h1, ← h2, h]

/-- the labels behind a separator -/
theorem intercalate_suffix [DecidableEq α] {s : List α} (hl : Good x ls) (hm : Good x ms) (hms : ms ≠ [])
    (h : [x].intercalate ls = s ++ x :: [x].intercalate ms) : ∃ ks, ks ≠ [] ∧ ls = ks ++ ms := by
  induction ls generalizing s with
  | nil => simp [List.intercalate] at h
  | cons l ls ih =>
    have hx := (hl l List.mem_cons_self).2
    by_cases hls : ls = []
    · rw [hls, List.intercalate_singleton] at h
      exact absurd (by rw [h]; simp) hx
    · rw [intercalate_cons hls] at h
      -- the first separator is the one behind `l`
      rcases List.append_eq_append_iff.mp h with ⟨m, hs, ht⟩ | ⟨m, hs, ht⟩
      · cases m with
        | nil =>
          rw [List.nil_append] at ht
          exact ⟨[l], List.cons_ne_nil l [], congrArg (l :: ·) (intercalate_inj hl.tail hm hls hms (List.cons.inj ht).2)⟩
        | cons c m =>
          obtain ⟨rfl, ht'⟩ := List.cons.inj ht
          obtain ⟨ks, -, rfl⟩ := ih hl.tail ht'
          exact ⟨l :: ks, List.cons_ne_nil l ks, rfl⟩
      · cases m with
        | nil =>
          rw [List.nil_append] at ht
          exact ⟨[l], List.cons_ne_nil l [], congrArg (l :: ·) (intercalate_inj hl.tail hm hls hms (List.cons.inj ht).2.symm)⟩
        | cons c m =>
          obtain ⟨rfl, -⟩ := List.cons.inj ht
          exact absurd (by rw [hs]; simp) hx

end TrafficServer.Labels
