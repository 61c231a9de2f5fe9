/-
A list cut into consecutive pieces.

`start l i` is the position of the first element of piece `i` in the whole; `Covers l s i` says that position `s` lies in
piece `i`. A position lies in exactly one piece (`exists_covers`, `Covers.unique`), and the element there is the one at the
relative position in the piece (`Covers.getElem`). `start_append` is the rule for a cut that grows at its end.
-/
import Mathlib.Tactic

namespace TrafficServer.Pieces

variable {α : Type*} {l m : List (List α)} {s i j : ℕ}

/-- the position of the first element of piece `i` -/
def start (l : List (List α)) (i : ℕ) : ℕ := (l.take i).flatten.length

/-- position `s` lies in piece `i` -/
def Covers (l : List (List α)) (s i : ℕ) : Prop := start l i ≤ s ∧ s < start l (i + 1)

@[simp] theorem start_zero (l : List (List α)) : start l 0 = 0 := rfl

theorem start_length (l : List (List α)) : start l l.length = l.flatten.length := by
  unfold start
  rw [List.take_length]

theorem start_append (m : List (List α)) (hi : i ≤ l.length) : start (l ++ m) i = start l i := by
  unfold start
  rw [List.take_append_of_le_length hi]

theorem start_succ {p : List α} (h : l[i]? = some p) : start l (i + 1) = start l i + p.length := by
  unfold start
  rw [List.take_add_one, h, List.flatten_append, List.length_append]
  simp

theorem start_of_length_le (h : l.length ≤ i) : start l i = l.flatten.length := by
  unfold start
  rw [List.take_of_length_le h]

theorem start_le_succ (l : List (List α)) (i : ℕ) : start l i ≤ start l (i + 1) := by
  rcases lt_or_ge i l.length with hi | hi
  · rw [start_succ (List.getElem?_eq_getElem hi)]
    exact Nat.le_add_right _ _
  · rw [start_of_length_le hi, start_of_length_le (hi.trans (Nat.le_succ i))]

theorem start_mono (l : List (List α)) : Monotone (start l) := monotone_nat_of_le_succ (start_le_succ l)

namespace Covers

theorem unique (h : Covers l s i) (h' : Covers l s j) : i = j := by
  rcases lt_trichotomy i j with hij | hij | hij
  · have hle : start l (i + 1) ≤ start l j := start_mono l hij
    exact absurd (hle.trans h'.1) (not_le.2 h.2)
  · exact hij
  · have hle : start l (j + 1) ≤ start l i := start_mono l hij
    exact absurd (hle.trans h.1) (not_le.2 h'.2)

theorem lt_length (h : Covers l s i) : i < l.length := by
  by_contra hi
  have hi' := not_lt.1 hi
  obtain ⟨hlo, hhi⟩ := h
  rw [start_of_length_le hi'] at hlo
  rw [start_of_length_le (hi'.trans (Nat.le_succ i))] at hhi
  exact absurd hlo (not_le.2 hhi)

/-- the element at a position is the one at the relative position in its piece -/
theorem getElem (h : Covers l s i) {p : List α} (hp : l[i]? = some p) : l.flatten[s]? = p[s - start l i]? := by
  have hsplit : l.flatten = (l.take i).flatten ++ (p ++ (l.drop (i + 1)).flatten) := by
    have hi := h.lt_length
    have hget : l[i] = p := by
      rw [List.getElem?_eq_getElem hi] at hp
      exact Option.some.inj hp
    calc l.flatten = (l.take i ++ l.drop i).flatten := by rw [List.take_append_drop]
      _ = (l.take i).flatten ++ (p ++ (l.drop (i + 1)).flatten) := by
        rw [List.flatten_append, List.drop_eq_getElem_cons hi, List.flatten_cons, hget]
  have hlt : s - start l i < p.length := by
    have hhi := h.2
    rw [start_succ hp] at hhi
    have hlo := h.1
    omega
  rw [hsplit, List.getElem?_append_right h.1]
  exact List.getElem?_append_left hlt

end Covers

/-- every position of the whole lies in a piece -/
theorem exists_covers (h : s < l.flatten.length) : ∃ i, Covers l s i := by
  have hex : ∃ i, s < start l i := ⟨l.length, by rwa [start_length]⟩
  have hfind := Nat.find_spec hex
  have hne : Nat.find hex ≠ 0 := by
    intro h0
    rw [h0, start_zero] at hfind
    exact absurd hfind (Nat.not_lt_zero s)
  obtain ⟨i, hi⟩ := Nat.exists_eq_succ_of_ne_zero hne
  refine ⟨i, ?_, ?_⟩
  · exact not_lt.1 (Nat.find_min hex (by omega))
  · rw [hi] at hfind
    exact hfind

end TrafficServer.Pieces
