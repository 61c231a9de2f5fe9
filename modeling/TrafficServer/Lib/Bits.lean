/-
Bits of numbers and of byte strings, most significant first.

`msb w n` are the low `w` bits of `n` as a list. It splits at every position (`msb_add`), and two numbers with the same low
bits have the same list (`msb_congr`). `bytesMsb` is the bit string that a byte string stands for, and no other has it (`bytesMsb_inj`).
-/
import Mathlib.Tactic

namespace TrafficServer.Bits

/-- the low `w` bits of `n`, most significant first -/
def msb : ℕ → ℕ → List Bool
  | 0, _ => []
  | w + 1, n => n.testBit w :: msb w n

@[simp] theorem length_msb (w n : ℕ) : (msb w n).length = w := by
  induction w with
  | zero => rfl
  | succ w ih => rw [msb, List.length_cons, ih]

theorem msb_congr {w m n : ℕ} (h : ∀ i < w, m.testBit i = n.testBit i) : msb w m = msb w n := by
  induction w with
  | zero => rfl
  | succ w ih => rw [msb, msb, h w (Nat.lt_succ_self w), ih fun i hi => h i (Nat.lt_succ_of_lt hi)]

theorem testBit_of_msb {w m n : ℕ} (h : msb w m = msb w n) : ∀ i < w, m.testBit i = n.testBit i := by
  induction w with
  | zero => exact nofun
  | succ w ih =>
    obtain ⟨htop, hrest⟩ := List.cons.inj h
    intro i hi
    rcases Nat.lt_succ_iff_lt_or_eq.mp hi with hlt | rfl
    · exact ih hrest i hlt
    · exact htop

theorem msb_add (a b n : ℕ) : msb (a + b) n = msb a (n >>> b) ++ msb b n := by
  induction a with
  | zero => rw [Nat.zero_add, msb, List.nil_append]
  | succ a ih => rw [Nat.succ_add, msb, msb, ih, Nat.testBit_shiftRight, Nat.add_comm b a, List.cons_append]

/-- a number with zeros below position `b`, and one with zeros from there on -/
theorem msb_or {a b h l : ℕ} (hh : ∀ i < b, h.testBit i = false) (hl : ∀ i, b ≤ i → l.testBit i = false) :
    msb (a + b) (h ||| l) = msb a (h >>> b) ++ msb b l := by
  rw [msb_add]
  congr 1
  · apply msb_congr
    intro i _
    rw [Nat.testBit_shiftRight, Nat.testBit_shiftRight, Nat.testBit_or, hl (b + i) (Nat.le_add_right b i), Bool.or_false]
  · apply msb_congr
    intro i hi
    rw [Nat.testBit_or, hh i hi, Bool.false_or]

theorem msb_ones {w n : ℕ} (h : ∀ i < w, n.testBit i = true) : msb w n = List.replicate w true := by
  induction w with
  | zero => rfl
  | succ w ih => rw [msb, h w (Nat.lt_succ_self w), ih fun i hi => h i (Nat.lt_succ_of_lt hi), List.replicate_succ]

/-- the bits of a byte string -/
def bytesMsb (l : List (BitVec 8)) : List Bool := l.flatMap fun b => msb 8 b.toNat

@[simp] theorem bytesMsb_nil : bytesMsb [] = [] := rfl

@[simp] theorem bytesMsb_cons (b : BitVec 8) (l : List (BitVec 8)) : bytesMsb (b :: l) = msb 8 b.toNat ++ bytesMsb l := rfl

@[simp] theorem bytesMsb_append (l l' : List (BitVec 8)) : bytesMsb (l ++ l') = bytesMsb l ++ bytesMsb l' :=
  List.flatMap_append

@[simp] theorem length_bytesMsb (l : List (BitVec 8)) : (bytesMsb l).length = 8 * l.length := by
  induction l with
  | nil => rfl
  | cons b l ih => rw [bytesMsb_cons, List.length_append, length_msb, ih, List.length_cons, Nat.mul_succ, Nat.add_comm]

/-- byte strings with the same bits are the same -/
theorem bytesMsb_inj {l l' : List (BitVec 8)} (h : bytesMsb l = bytesMsb l') : l = l' := by
  induction l generalizing l' with
  | nil =>
    cases l' with
    | nil => rfl
    | cons b' l' => cases h
  | cons b l ih =>
    cases l' with
    | nil => cases h
    | cons b' l' =>
      rw [bytesMsb_cons, bytesMsb_cons] at h
      obtain ⟨hbyte, hrest⟩ := List.append_inj h (by rw [length_msb, length_msb])
      have hb : b = b' := BitVec.eq_of_getLsbD_eq fun i hi => testBit_of_msb hbyte i hi
      rw [hb, ih hrest]

/-- the low byte of `n` has its low eight bits -/
theorem msb_byte (n : ℕ) : msb 8 (BitVec.ofNat 8 n).toNat = msb 8 n := by
  apply msb_congr
  intro i hi
  rw [BitVec.toNat_ofNat, Nat.testBit_mod_two_pow, decide_eq_true hi, Bool.true_and]

end TrafficServer.Bits
