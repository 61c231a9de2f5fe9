/-
Numbers in groups of seven bits, the lowest group first.

Every byte but the last has its top bit set. `write` gives the shortest form; `read` takes any form, also one that ends in empty groups, and
returns what is left of the bytes. Reading what was written gives the number back (`read_write`).
-/
import Mathlib.Tactic

namespace TrafficServer.Leb128

def write (n : ℕ) : List (BitVec 8) := if n < 128 then [BitVec.ofNat 8 n] else BitVec.ofNat 8 (n % 128 + 128) :: write (n / 128)
termination_by n
decreasing_by omega

/-- the number in front and the bytes behind it; nothing if the bytes end before it does -/
def read : List (BitVec 8) → Option (ℕ × List (BitVec 8))
  | [] => none
  | b :: l => if b.toNat < 128 then some (b.toNat, l) else (read l).map fun vr => (b.toNat % 128 + 128 * vr.1, vr.2)

theorem write_of_lt {n : ℕ} (h : n < 128) : write n = [BitVec.ofNat 8 n] := by rw [write, if_pos h]

theorem write_of_ge {n : ℕ} (h : 128 ≤ n) : write n = BitVec.ofNat 8 (n % 128 + 128) :: write (n / 128) := by
  rw [write, if_neg (Nat.not_lt_of_le h)]

theorem read_of_lt {b : BitVec 8} (h : b.toNat < 128) (l : List (BitVec 8)) : read (b :: l) = some (b.toNat, l) := by
  rw [read, if_pos h]

theorem read_of_ge {b : BitVec 8} (h : 128 ≤ b.toNat) (l : List (BitVec 8)) :
    read (b :: l) = (read l).map fun vr => (b.toNat % 128 + 128 * vr.1, vr.2) := by
  rw [read, if_neg (Nat.not_lt_of_le h)]

/-- the first group is a part of the number -/
theorem group_le_of_read {b : BitVec 8} {l r : List (BitVec 8)} {v : ℕ} (h : read (b :: l) = some (v, r)) : b.toNat % 128 ≤ v := by
  by_cases hb : b.toNat < 128
  · rw [read_of_lt hb] at h
    cases h
    exact Nat.mod_le _ _
  · rw [read_of_ge (Nat.le_of_not_lt hb), Option.map_eq_some_iff] at h
    obtain ⟨vr, -, heq⟩ := h
    cases heq
    exact Nat.le_add_right _ _

theorem read_write (n : ℕ) (l : List (BitVec 8)) : read (write n ++ l) = some (n, l) := by
  induction n using write.induct with
  | case1 n hn =>
    have hb : (BitVec.ofNat 8 n).toNat = n := by
      rw [BitVec.toNat_ofNat]
      exact Nat.mod_eq_of_lt (by omega)
    rw [write_of_lt hn, List.singleton_append, read_of_lt (by rwa [hb]), hb]
  | case2 n hn ih =>
    have hb : (BitVec.ofNat 8 (n % 128 + 128)).toNat = n % 128 + 128 := by
      rw [BitVec.toNat_ofNat]
      exact Nat.mod_eq_of_lt (by omega)
    rw [write_of_ge (Nat.le_of_not_lt hn), List.cons_append, read_of_ge (by omega), ih, Option.map_some, hb]
    congr 2
    omega

/-- a number below `128 ^ (k + 1)` has at most `k + 1` groups -/
theorem length_write_le {n k : ℕ} (h : n < 128 ^ (k + 1)) : (write n).length ≤ k + 1 := by
  induction k generalizing n with
  | zero => rw [write_of_lt (by simpa using h), List.length_singleton]
  | succ k ih =>
    by_cases hn : n < 128
    · rw [write_of_lt hn, List.length_singleton]
      exact Nat.le_add_left 1 (k + 1)
    · have hdiv : n / 128 < 128 ^ (k + 1) := by
        apply Nat.div_lt_of_lt_mul
        rwa [pow_succ, mul_comm] at h
      rw [write_of_ge (Nat.le_of_not_lt hn), List.length_cons]
      exact Nat.succ_le_succ (ih hdiv)

/-- what is left is the end of the bytes -/
theorem read_rest {l r : List (BitVec 8)} {v : ℕ} (h : read l = some (v, r)) : r <:+ l ∧ r.length < l.length := by
  induction l generalizing v with
  | nil => cases h
  | cons b l ih =>
    by_cases hb : b.toNat < 128
    · rw [read_of_lt hb] at h
      cases h
      exact ⟨List.suffix_cons b r, Nat.lt_succ_self _⟩
    · rw [read_of_ge (Nat.le_of_not_lt hb), Option.map_eq_some_iff] at h
      obtain ⟨⟨v', r'⟩, hread, heq⟩ := h
      cases heq
      obtain ⟨hsuf, hlen⟩ := ih hread
      exact ⟨hsuf.trans (List.suffix_cons b l), hlen.trans (Nat.lt_succ_self _)⟩

end TrafficServer.Leb128
