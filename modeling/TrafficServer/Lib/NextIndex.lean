/-
The next index of a kind.

A set of indices below a bound is given by a test. `first` is the smallest of them, and `next i` the smallest one behind `i`. When an index is
put into the set it becomes the next one of its predecessor, and takes over what was the next one of that; when it is taken out it is the
other way round. A list that is linked in the order of its indices is linked by `next`.
-/
import Mathlib.Data.List.Range
import Mathlib.Tactic.Common

namespace TrafficServer.NextIndex

variable (p : ℕ → Bool) (n : ℕ)

def first : Option ℕ := (List.range n).find? p

def next (i : ℕ) : Option ℕ := (List.range n).find? fun j => i < j && p j

/-- there is nothing from the bound on -/
def Bounded : Prop := ∀ j, p j = true → j < n

variable {p n}

theorem first_eq_some_iff (hp : Bounded p n) {j : ℕ} : first p n = some j ↔ p j = true ∧ ∀ m < j, p m = false := by
  rw [first, List.find?_range_eq_some]
  simp only [List.mem_range, Bool.not_eq_eq_eq_not, Bool.not_true]
  exact ⟨fun h => ⟨h.1, h.2.2⟩, fun h => ⟨h.1, hp j h.1, h.2⟩⟩

theorem first_eq_none_iff (hp : Bounded p n) : first p n = none ↔ ∀ j, p j = false := by
  rw [first, List.find?_range_eq_none]
  simp only [Bool.not_eq_eq_eq_not, Bool.not_true]
  refine ⟨fun h j => ?_, fun h j _ => h j⟩
  by_contra hj
  exact hj (h j (hp j (by simpa using hj)))

/-- the indices behind `i` -/
def after (p : ℕ → Bool) (i j : ℕ) : Bool := i < j && p j

theorem Bounded.after (hp : Bounded p n) (i : ℕ) : Bounded (after p i) n := fun j hj => hp j (Bool.and_eq_true_iff.mp hj).2

theorem next_eq_first (i : ℕ) : next p n i = first (after p i) n := rfl

theorem next_eq_some_iff (hp : Bounded p n) {i j : ℕ} :
    next p n i = some j ↔ i < j ∧ p j = true ∧ ∀ m, i < m → m < j → p m = false := by
  rw [next_eq_first, first_eq_some_iff (hp.after i)]
  simp only [after, Bool.and_eq_true, decide_eq_true_eq, Bool.and_eq_false_iff, decide_eq_false_iff_not, not_lt, and_assoc]
  refine and_congr_right fun _ => and_congr_right fun _ => ⟨fun h m him hmj => (h m hmj).resolve_left (not_le.mpr him), fun h m hmj => ?_⟩
  exact (le_or_gt m i).imp id fun him => h m him hmj

theorem next_eq_none_iff (hp : Bounded p n) {i : ℕ} : next p n i = none ↔ ∀ j, i < j → p j = false := by
  rw [next_eq_first, first_eq_none_iff (hp.after i)]
  simp only [after, Bool.and_eq_false_iff, decide_eq_false_iff_not, not_lt]
  exact ⟨fun h j hij => (h j).resolve_left (not_le.mpr hij), fun h j => (le_or_gt j i).imp id fun hij => h j hij⟩

theorem first_congr {q : ℕ → Bool} {m : ℕ} (hp : Bounded p n) (hq : Bounded q m) (h : ∀ j, p j = q j) : first p n = first q m := by
  obtain rfl : p = q := funext h
  cases hfirst : first p n with
  | none => exact ((first_eq_none_iff hq).mpr ((first_eq_none_iff hp).mp hfirst)).symm
  | some j => exact ((first_eq_some_iff hq).mpr ((first_eq_some_iff hp).mp hfirst)).symm

theorem next_congr {q : ℕ → Bool} {m i : ℕ} (hp : Bounded p n) (hq : Bounded q m) (h : ∀ j, p j = q j) : next p n i = next q m i :=
  first_congr (hp.after i) (hq.after i) fun j => congrArg (decide (i < j) && ·) (h j)

/-! ## An index is put in -/

section Insert

variable {q : ℕ → Bool} {m i : ℕ} (hp : Bounded p n) (hq : Bounded q m) (h : ∀ j, q j = true ↔ p j = true ∨ j = i)

include hp hq h

theorem first_insert : first q m = if ∀ y ∈ first p n, i < y then some i else first p n := by
  split_ifs with hless
  · rw [first_eq_some_iff hq]
    refine ⟨(h i).mpr (Or.inr rfl), fun j hj => ?_⟩
    by_contra hqj
    have hpj : p j = true := ((h j).mp (by simpa using hqj)).resolve_right hj.ne
    cases hfirst : first p n with
    | none => exact Bool.false_ne_true (((first_eq_none_iff hp).mp hfirst j).symm.trans hpj)
    | some y =>
      have hy := hless y hfirst
      exact Bool.false_ne_true ((((first_eq_some_iff hp).mp hfirst).2 j (hj.trans hy)).symm.trans hpj)
  · push Not at hless
    obtain ⟨y, hy, hyi⟩ := hless
    obtain ⟨hpy, hbefore⟩ := (first_eq_some_iff hp).mp hy
    rw [show first p n = some y from hy, first_eq_some_iff hq]
    refine ⟨(h y).mpr (Or.inl hpy), fun j hj => ?_⟩
    by_contra hqj
    rcases (h j).mp (by simpa using hqj) with hpj | rfl
    · exact Bool.false_ne_true ((hbefore j hj).symm.trans hpj)
    · exact absurd hj (not_lt.mpr hyi)

theorem next_insert (x : ℕ) : next q m x = if x < i ∧ ∀ y ∈ next p n x, i < y then some i else next p n x := by
  by_cases hx : x < i
  · have hafter : ∀ j, after q x j = true ↔ after p x j = true ∨ j = i := by
      intro j
      simp only [after, Bool.and_eq_true, decide_eq_true_eq, h]
      constructor
      · rintro ⟨hxj, hpj | rfl⟩
        · exact Or.inl ⟨hxj, hpj⟩
        · exact Or.inr rfl
      · rintro (⟨hxj, hpj⟩ | rfl)
        · exact ⟨hxj, Or.inl hpj⟩
        · exact ⟨hx, Or.inr rfl⟩
    simp only [next_eq_first, first_insert (hp.after x) (hq.after x) hafter, hx, true_and]
  · rw [if_neg fun hcond => hx hcond.1]
    refine first_congr (hq.after x) (hp.after x) fun j => ?_
    by_cases hxj : x < j
    · have hji : j ≠ i := by omega
      have hqp : q j = p j := Bool.eq_iff_iff.mpr ((h j).trans (or_iff_left hji))
      exact congrArg (decide (x < j) && ·) hqp
    · simp [hxj]

end Insert

/-! ## An index is taken out -/

section Erase

variable {q : ℕ → Bool} {m i : ℕ} (hp : Bounded p n) (hq : Bounded q m) (h : ∀ j, q j = true ↔ p j = true ∧ j ≠ i)

include hp hq h

theorem first_erase : first q m = if first p n = some i then next p n i else first p n := by
  split_ifs with hfirst
  · obtain ⟨-, hbefore⟩ := (first_eq_some_iff hp).mp hfirst
    refine first_congr hq (hp.after i) fun j => ?_
    rw [Bool.eq_iff_iff, h]
    simp only [Bool.and_eq_true, decide_eq_true_eq]
    refine ⟨fun ⟨hpj, hji⟩ => ⟨?_, hpj⟩, fun ⟨hij, hpj⟩ => ⟨hpj, hij.ne'⟩⟩
    by_contra hle
    have hlt : j < i := by omega
    exact Bool.false_ne_true ((hbefore j hlt).symm.trans hpj)
  · cases hp' : first p n with
    | none =>
      refine (first_eq_none_iff hq).mpr fun j => ?_
      by_contra hqj
      exact Bool.false_ne_true (((first_eq_none_iff hp).mp hp' j).symm.trans ((h j).mp (by simpa using hqj)).1)
    | some y =>
      obtain ⟨hpy, hbefore⟩ := (first_eq_some_iff hp).mp hp'
      have hyi : y ≠ i := fun heq => hfirst (heq ▸ hp')
      refine (first_eq_some_iff hq).mpr ⟨(h y).mpr ⟨hpy, hyi⟩, fun j hj => ?_⟩
      by_contra hqj
      exact Bool.false_ne_true ((hbefore j hj).symm.trans ((h j).mp (by simpa using hqj)).1)

theorem next_erase (x : ℕ) : next q m x = if next p n x = some i then next p n i else next p n x := by
  have hafter : ∀ j, after q x j = true ↔ after p x j = true ∧ j ≠ i := by
    intro j
    simp only [after, Bool.and_eq_true, decide_eq_true_eq, h, and_assoc]
  rw [next_eq_first, first_erase (hp.after x) (hq.after x) hafter]
  by_cases hi : first (after p x) n = some i
  · have hxi : x < i := ((next_eq_some_iff hp).mp hi).1
    rw [if_pos hi, if_pos (show next p n x = some i from hi)]
    -- behind `i` is behind `x` too
    refine first_congr ((hp.after x).after i) (hp.after i) fun j => ?_
    rw [Bool.eq_iff_iff]
    simp only [after, Bool.and_eq_true, decide_eq_true_eq]
    exact ⟨fun ⟨hij, _, hpj⟩ => ⟨hij, hpj⟩, fun ⟨hij, hpj⟩ => ⟨hij, hxi.trans hij, hpj⟩⟩
  · rw [if_neg hi, if_neg (show ¬ next p n x = some i from hi)]
    rfl

end Erase

/-! ## All of them -/

/-- the indices of the set in their order: the first one, and those behind it -/
theorem filter_range_of_first {j : ℕ} (h : first p n = some j) : (List.range n).filter p = j :: (List.range n).filter (after p j) := by
  obtain ⟨hpj, l, r, hrange, hl⟩ := List.find?_eq_some_iff_append.mp h
  have hsorted : (l ++ j :: r).Pairwise (· < ·) := hrange ▸ List.pairwise_lt_range
  obtain ⟨-, hr, hlj⟩ := List.pairwise_append.mp hsorted
  have hbefore : l.filter p = [] := List.filter_eq_nil_iff.mpr fun x hx => by simpa using hl x hx
  have hbefore' : l.filter (after p j) = [] := by
    refine List.filter_eq_nil_iff.mpr fun x hx => ?_
    have hxj : x < j := hlj x hx j List.mem_cons_self
    simp [after, hxj.le]
  have hbehind : r.filter (after p j) = r.filter p := by
    refine List.filter_congr fun x hx => ?_
    have hjx : j < x := (List.pairwise_cons.mp hr).1 x hx
    simp [after, hjx]
  rw [hrange, List.filter_append, List.filter_append, hbefore, hbefore', List.filter_cons_of_pos hpj,
    List.filter_cons_of_neg (by simp [after]), hbehind, List.nil_append, List.nil_append]

theorem filter_range_of_first_none (h : first p n = none) : (List.range n).filter p = [] := by
  rw [List.filter_eq_nil_iff]
  simpa [first] using h

/-- behind an index of the set, what is behind another -/
theorem after_after {i j : ℕ} (hij : i < j) : after (after p i) j = after p j := by
  funext m
  rw [Bool.eq_iff_iff]
  simp only [after, Bool.and_eq_true, decide_eq_true_eq]
  exact ⟨fun ⟨hjm, _, hpm⟩ => ⟨hjm, hpm⟩, fun ⟨hjm, hpm⟩ => ⟨hjm, hij.trans hjm, hpm⟩⟩

/-- the bound does not matter -/
theorem filter_range_bounded {m : ℕ} (hn : Bounded p n) (hm : n ≤ m) : (List.range m).filter p = (List.range n).filter p := by
  obtain ⟨d, rfl⟩ := Nat.exists_eq_add_of_le hm
  rw [List.range_add, List.filter_append]
  refine (congrArg _ ?_).trans (List.append_nil _)
  refine List.filter_eq_nil_iff.mpr fun x hx hpx => ?_
  obtain ⟨a, -, rfl⟩ := List.mem_map.mp hx
  exact absurd (hn _ hpx) (not_lt.mpr (Nat.le_add_right n a))

end TrafficServer.NextIndex
