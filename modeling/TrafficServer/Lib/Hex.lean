/-
Hexadecimal numbers in text.

`digits n` has the digits of `n` with lower-case letters, `fold` reads digits of either case. Reading what was written gives the number back
(`fold_digits`), also behind leading zeros (`fold_leftpad`).
-/
import Mathlib.Data.List.Basic
import Mathlib.Data.Nat.Basic
import Mathlib.Tactic

namespace TrafficServer.Hex

/-- the bytes of a text in ASCII -/
def ascii (s : String) : List (BitVec 8) := s.toList.map fun c => BitVec.ofNat 8 c.toNat

def digit (d : ℕ) : BitVec 8 := if d < 10 then BitVec.ofNat 8 (0x30 + d) else BitVec.ofNat 8 (0x57 + d)

/-- the value of a digit -/
def value (b : BitVec 8) : Option ℕ :=
  if 0x30 ≤ b.toNat ∧ b.toNat ≤ 0x39 then some (b.toNat - 0x30)
  else if 0x41 ≤ b.toNat ∧ b.toNat ≤ 0x46 then some (b.toNat - 0x37)
  else if 0x61 ≤ b.toNat ∧ b.toNat ≤ 0x66 then some (b.toNat - 0x57)
  else none

/-- the digits of a number that is less than the fuel -/
def digitsAux : ℕ → ℕ → List (BitVec 8)
  | 0, _ => []
  | fuel + 1, n => if n < 16 then [digit n] else digitsAux fuel (n / 16) ++ [digit (n % 16)]

def digits (n : ℕ) : List (BitVec 8) := digitsAux (n + 1) n

/-- digits behind a number that has been read -/
def fold (acc : ℕ) : List (BitVec 8) → ℕ
  | [] => acc
  | b :: l => fold (acc * 16 + (value b).getD 0) l

theorem digitsAux_eq {fuel n : ℕ} (h : n < fuel) : digitsAux fuel n = digits n := by
  induction fuel using Nat.strong_induction_on generalizing n with
  | _ fuel ih =>
    cases fuel with
    | zero => exact absurd h (Nat.not_lt_zero n)
    | succ fuel =>
      rw [digits, digitsAux, digitsAux]
      by_cases hn : n < 16
      · rw [if_pos hn, if_pos hn]
      · rw [if_neg hn, if_neg hn, ih fuel (Nat.lt_succ_self fuel) (by omega)]
        by_cases hlast : n = fuel
        · rw [hlast, ih fuel (Nat.lt_succ_self fuel) (by omega)]
        · rw [ih n (by omega) (by omega)]

theorem digits_eq (n : ℕ) : digits n = if n < 16 then [digit n] else digits (n / 16) ++ [digit (n % 16)] := by
  rw [digits, digitsAux]
  by_cases hn : n < 16
  · rw [if_pos hn, if_pos hn]
  · rw [if_neg hn, if_neg hn, digitsAux_eq (by omega)]

theorem value_digit {d : ℕ} (h : d < 16) : value (digit d) = some d := by
  revert d
  decide

theorem value_lt {b : BitVec 8} {v : ℕ} (h : value b = some v) : v < 16 := by
  unfold value at h
  split_ifs at h <;> obtain rfl := Option.some.inj h <;> omega

theorem fold_append (acc : ℕ) (l l' : List (BitVec 8)) : fold acc (l ++ l') = fold (fold acc l) l' := by
  induction l generalizing acc with
  | nil => rfl
  | cons b l ih => exact ih _

theorem fold_digits (n : ℕ) : fold 0 (digits n) = n := by
  induction n using Nat.strong_induction_on with
  | _ n ih =>
    rw [digits_eq]
    by_cases hn : n < 16
    · rw [if_pos hn, fold, value_digit hn]
      simp [fold]
    · rw [if_neg hn, fold_append, ih (n / 16) (by omega), fold, fold, value_digit (Nat.mod_lt n (by decide)), Option.getD_some]
      omega

theorem mem_digits {n : ℕ} {b : BitVec 8} (h : b ∈ digits n) : ∃ d, d < 16 ∧ b = digit d := by
  induction n using Nat.strong_induction_on with
  | _ n ih =>
    rw [digits_eq] at h
    by_cases hn : n < 16
    · rw [if_pos hn] at h
      exact ⟨n, hn, List.mem_singleton.mp h⟩
    · rw [if_neg hn] at h
      rcases List.mem_append.mp h with h | h
      · exact ih (n / 16) (by omega) h
      · exact ⟨n % 16, Nat.mod_lt n (by decide), List.mem_singleton.mp h⟩

theorem digits_ne_nil (n : ℕ) : digits n ≠ [] := by
  rw [digits_eq]
  split_ifs <;> simp

theorem length_digits_le {n k : ℕ} (hk : 0 < k) (h : n < 16 ^ k) : (digits n).length ≤ k := by
  induction k generalizing n with
  | zero => exact absurd hk (lt_irrefl 0)
  | succ k ih =>
    rw [digits_eq]
    by_cases hn : n < 16
    · rw [if_pos hn]
      exact Nat.succ_le_succ (Nat.zero_le k)
    · rw [if_neg hn, List.length_append, List.length_singleton]
      have hk0 : 0 < k := by
        by_contra hk0
        obtain rfl : k = 0 := by omega
        exact hn (by simpa using h)
      have hdiv : n / 16 < 16 ^ k := by
        rw [pow_succ] at h
        exact Nat.div_lt_of_lt_mul (by omega)
      exact Nat.succ_le_succ (ih hk0 hdiv)

theorem fold_leftpad (k n : ℕ) : fold 0 (List.leftpad k (digit 0) (digits n)) = n := by
  have hzeros : ∀ m, fold 0 (List.replicate m (digit 0)) = 0 := by
    intro m
    induction m with
    | zero => rfl
    | succ m ih =>
      rw [List.replicate_succ, fold, value_digit (by decide)]
      exact ih
  rw [List.leftpad, fold_append, hzeros, fold_digits]

end TrafficServer.Hex
