/-
Decimal numbers in text.

`number` reads a text of digits; it gives back a number that was printed (`number_ascii`).
-/
import TrafficServer.Lib.Hex

namespace TrafficServer.Decimal

open TrafficServer.Hex

def isDigit (b : BitVec 8) : Bool := 0x30 ≤ b.toNat && b.toNat ≤ 0x39

/-- digits behind a number that has been read -/
def fold (acc : ℕ) (l : List (BitVec 8)) : ℕ := l.foldl (fun n b => 10 * n + (b.toNat - 0x30)) acc

/-- a text of digits only -/
def number (s : List (BitVec 8)) : Option ℕ := if s ≠ [] ∧ s.all isDigit then some (fold 0 s) else none

theorem bounds_of_isDigit {c : Char} (h : c.isDigit = true) : 48 ≤ c.toNat ∧ c.toNat ≤ 57 := by
  simpa [Char.isDigit, UInt32.le_iff_toNat_le] using h

theorem toNat_ofNat_digit {c : Char} (h : c.isDigit = true) : (BitVec.ofNat 8 c.toNat).toNat = c.toNat := by
  have hle := (bounds_of_isDigit h).2
  rw [BitVec.toNat_ofNat, Nat.mod_eq_of_lt (by omega)]

theorem isDigit_ascii {c : Char} (h : c.isDigit = true) : isDigit (BitVec.ofNat 8 c.toNat) = true := by
  rw [isDigit, toNat_ofNat_digit h]
  simpa using bounds_of_isDigit h

theorem fold_ascii {cs : List Char} (h : ∀ c ∈ cs, c.isDigit = true) (acc : ℕ) :
    fold acc (cs.map fun c => BitVec.ofNat 8 c.toNat) = Nat.ofDigitChars 10 cs acc := by
  induction cs generalizing acc with
  | nil => rfl
  | cons c cs ih =>
    have hrest : ∀ d ∈ cs, d.isDigit = true := fun d hd => h d (List.mem_cons_of_mem c hd)
    calc fold acc ((c :: cs).map fun c => BitVec.ofNat 8 c.toNat)
        = fold (10 * acc + (c.toNat - 0x30)) (cs.map fun c => BitVec.ofNat 8 c.toNat) := by
          rw [List.map_cons, fold, List.foldl_cons, toNat_ofNat_digit (h c List.mem_cons_self)]
          rfl
      _ = Nat.ofDigitChars 10 cs (10 * acc + (c.toNat - 0x30)) := ih hrest _
      _ = Nat.ofDigitChars 10 (c :: cs) acc := Nat.ofDigitChars_cons.symm

theorem isDigit_mem_ascii {n : ℕ} {b : BitVec 8} (h : b ∈ ascii (toString n)) : isDigit b = true := by
  obtain ⟨c, hc, rfl⟩ := List.mem_map.mp h
  rw [Nat.toString_eq_repr, Nat.toList_repr] at hc
  exact isDigit_ascii (Nat.isDigit_of_mem_toDigits (by decide) (by decide) hc)

theorem number_ascii (n : ℕ) : number (ascii (toString n)) = some n := by
  have hne : ascii (toString n) ≠ [] := by
    simp [ascii, Nat.toDigits_ne_nil]
  have hall : (ascii (toString n)).all isDigit = true := List.all_eq_true.mpr fun b hb => isDigit_mem_ascii hb
  have hdigits : ∀ c ∈ Nat.toDigits 10 n, c.isDigit = true := fun c hc => Nat.isDigit_of_mem_toDigits (by decide) (by decide) hc
  rw [number, if_pos ⟨hne, hall⟩, ascii, Nat.toString_eq_repr, Nat.toList_repr, fold_ascii hdigits, Nat.ofDigitChars_ten_toDigits]

end TrafficServer.Decimal
