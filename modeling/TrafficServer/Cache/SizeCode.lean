/-
The size code of a directory entry against the size that is written.

A document is written with `round_to_approx_size` of its length, and its entry gets this size by `dir_set_approx_size`. Both round up to the
block of the same class of sizes, and the sector is either a divisor of the block or a multiple of it that ends where the class ends. So the
code is exact: a reader reads what was written.
-/
import Mathlib
import TrafficServer.Cache.Vol

namespace TrafficServer.Cache

theorem inkAlign_dvd (size boundary : ℕ) : boundary ∣ INK_ALIGN size boundary := Dvd.intro_left _ rfl

theorem inkAlign_of_dvd {size boundary : ℕ} (hb : 0 < boundary) (h : boundary ∣ size) : INK_ALIGN size boundary = size :=
  le_antisymm (inkAlign_le_of_dvd hb h le_rfl) (inkAlign_ge hb size)

/-- `s` is a size of the class `b`: the class of the next smaller blocks does not have it -/
def SizeClass (b s : ℕ) : Prop := s ≤ DIR_SIZE_WITH_BLOCK b ∧ (b = 0 ∨ DIR_SIZE_WITH_BLOCK (b - 1) < s)

theorem sizeClass_exists {s : ℕ} (hs : s ≤ DIR_SIZE_WITH_BLOCK 3) : ∃ b ≤ 3, SizeClass b s := by
  by_cases h0 : s ≤ DIR_SIZE_WITH_BLOCK 0
  · exact ⟨0, by decide, h0, Or.inl rfl⟩
  · by_cases h1 : s ≤ DIR_SIZE_WITH_BLOCK 1
    · exact ⟨1, by decide, h1, Or.inr (not_le.mp h0)⟩
    · by_cases h2 : s ≤ DIR_SIZE_WITH_BLOCK 2
      · exact ⟨2, by decide, h2, Or.inr (not_le.mp h1)⟩
      · exact ⟨3, by decide, hs, Or.inr (not_le.mp h2)⟩

variable {b s : ℕ}

/-- the tests of the two macros, in order -/
theorem SizeClass.ite (h : SizeClass b s) (hb : b ≤ 3) {α : Type} (f : ℕ → α) :
    (if s ≤ DIR_SIZE_WITH_BLOCK 0 then f 0
      else if s ≤ DIR_SIZE_WITH_BLOCK 1 then f 1 else if s ≤ DIR_SIZE_WITH_BLOCK 2 then f 2 else f 3) = f b := by
  obtain ⟨hle, hlt⟩ := h
  have h01 : DIR_SIZE_WITH_BLOCK 0 ≤ DIR_SIZE_WITH_BLOCK 1 := by decide
  have h12 : DIR_SIZE_WITH_BLOCK 1 ≤ DIR_SIZE_WITH_BLOCK 2 := by decide
  match b with
  | 0 => rw [if_pos hle]
  | 1 =>
    have h0 := hlt.resolve_left (by decide)
    rw [if_neg (not_le.mpr h0), if_pos hle]
  | 2 =>
    have h1 := hlt.resolve_left (by decide)
    rw [if_neg (not_le.mpr (h01.trans_lt h1)), if_neg (not_le.mpr h1), if_pos hle]
  | 3 =>
    have h2 := hlt.resolve_left (by decide)
    rw [if_neg (not_le.mpr ((h01.trans h12).trans_lt h2)), if_neg (not_le.mpr (h12.trans_lt h2)), if_neg (not_le.mpr h2)]

theorem SizeClass.round (h : SizeClass b s) (hb : b ≤ 3) : roundToApproxDirSize s = INK_ALIGN s (DIR_BLOCK_SIZE b) :=
  h.ite hb fun i => INK_ALIGN s (DIR_BLOCK_SIZE i)

theorem DIR_BLOCK_SIZE_eq (b : ℕ) : DIR_BLOCK_SIZE b = 2 ^ (9 + 3 * b) := by
  rw [DIR_BLOCK_SIZE, DIR_BLOCK_SHIFT, CACHE_BLOCK_SIZE, CACHE_BLOCK_SHIFT, Nat.shiftLeft_eq, Nat.shiftLeft_eq, one_mul, pow_add]

/-- A multiple of the block in the class is stored as it is. -/
theorem SizeClass.approxSize (h : SizeClass b s) (hb : b ≤ 3) (hpos : 0 < s) (hdvd : DIR_BLOCK_SIZE b ∣ s) (e : Dir) :
    (e.setApproxSize s).approxSize = s := by
  have hset : e.setApproxSize s = (e.setBig b).setSize ((s + (2 ^ 64 - 1)) % 2 ^ 64 / DIR_BLOCK_SIZE b) :=
    h.ite hb fun i => (e.setBig i).setSize ((s + (2 ^ 64 - 1)) % 2 ^ 64 / DIR_BLOCK_SIZE i)
  have hblock : 0 < DIR_BLOCK_SIZE b := by
    rw [DIR_BLOCK_SIZE_eq]
    positivity
  obtain ⟨n, rfl⟩ := hdvd
  have hn : 0 < n := Nat.pos_of_mul_pos_left hpos
  have hn64 : n ≤ 64 := by
    have hle : DIR_BLOCK_SIZE b * n ≤ 64 * DIR_BLOCK_SIZE b := h.1
    rw [mul_comm 64] at hle
    exact Nat.le_of_mul_le_mul_left hle hblock
  have hlt : DIR_BLOCK_SIZE b * n < 2 ^ 64 := by
    have hle : DIR_BLOCK_SIZE b ≤ 2 ^ 18 := by
      rw [DIR_BLOCK_SIZE_eq]
      exact Nat.pow_le_pow_right two_pos (by omega)
    calc DIR_BLOCK_SIZE b * n ≤ 2 ^ 18 * 64 := Nat.mul_le_mul hle hn64
      _ < 2 ^ 64 := by norm_num
  have hpred : (DIR_BLOCK_SIZE b * n + (2 ^ 64 - 1)) % 2 ^ 64 = DIR_BLOCK_SIZE b * n - 1 := by omega
  have hdiv : (DIR_BLOCK_SIZE b * n - 1) / DIR_BLOCK_SIZE b = n - 1 := by
    obtain ⟨m, rfl⟩ := Nat.exists_eq_succ_of_ne_zero hn.ne'
    rw [Nat.succ_eq_add_one, Nat.add_sub_cancel, mul_add, mul_one, Nat.add_sub_assoc hblock, Nat.mul_add_div hblock,
      Nat.div_eq_of_lt (Nat.sub_lt hblock Nat.one_pos), add_zero]
  rw [Dir.approxSize, hset, Dir.setSize_size, Dir.setSize_big, Dir.setBig_big, hpred, hdiv, Nat.mod_eq_of_lt (by omega),
    Nat.mod_eq_of_lt (by omega), Nat.sub_add_cancel hn, mul_comm]

namespace VolGeom

/-- The written size is a multiple of the block of the class of the length, and in the class. -/
theorem roundToApproxSize_class (g : VolGeom) {b l : ℕ} (h : SizeClass b l) (hb : b ≤ 3) :
    SizeClass b (g.roundToApproxSize l) ∧ DIR_BLOCK_SIZE b ∣ g.roundToApproxSize l ∧ l ≤ g.roundToApproxSize l := by
  have hblock : 0 < DIR_BLOCK_SIZE b := by
    rw [DIR_BLOCK_SIZE_eq]
    positivity
  have htop : DIR_SIZE_WITH_BLOCK b = 2 ^ (15 + 3 * b) := by
    rw [DIR_SIZE_WITH_BLOCK, DIR_BLOCK_SIZE_eq, DIR_SIZE_WIDTH, Nat.shiftLeft_eq, one_mul, ← pow_add]
    congr 1
    omega
  have hsector : g.sectorSize ∣ DIR_SIZE_WITH_BLOCK b := by
    refine g.sectorDvd.trans ?_
    rw [htop]
    exact pow_dvd_pow 2 (show 13 ≤ 15 + 3 * b by omega)
  have hblockDvd : DIR_BLOCK_SIZE b ∣ DIR_SIZE_WITH_BLOCK b := Dvd.intro_left _ rfl
  have hdir := inkAlign_le_of_dvd hblock hblockDvd h.1
  have hdir' := inkAlign_le_of_dvd g.sectorPos hsector hdir
  have hsmall : DIR_SIZE_WITH_BLOCK b < 2 ^ 32 := by
    rw [htop]
    exact Nat.pow_lt_pow_right (by norm_num) (by omega)
  have heq : g.roundToApproxSize l = INK_ALIGN (INK_ALIGN l (DIR_BLOCK_SIZE b)) g.sectorSize := by
    rw [roundToApproxSize, h.round hb, Nat.mod_eq_of_lt (hdir.trans_lt hsmall), Nat.mod_eq_of_lt (hdir'.trans_lt hsmall)]
  have hge : l ≤ INK_ALIGN (INK_ALIGN l (DIR_BLOCK_SIZE b)) g.sectorSize := (inkAlign_ge hblock l).trans (inkAlign_ge g.sectorPos _)
  rw [heq]
  refine ⟨⟨hdir', h.2.imp_right fun hlt => hlt.trans_le hge⟩, ?_, hge⟩
  -- one of block and sector divides the other
  obtain ⟨k, -, hk⟩ := (Nat.dvd_prime_pow Nat.prime_two).mp (show g.sectorSize ∣ 2 ^ 13 from g.sectorDvd)
  rcases le_total k (9 + 3 * b) with hle | hle
  · have hdvd : g.sectorSize ∣ DIR_BLOCK_SIZE b := by
      rw [hk, DIR_BLOCK_SIZE_eq]
      exact pow_dvd_pow 2 hle
    rw [inkAlign_of_dvd g.sectorPos (hdvd.trans (inkAlign_dvd l _))]
    exact inkAlign_dvd l _
  · have hdvd : DIR_BLOCK_SIZE b ∣ g.sectorSize := by
      rw [hk, DIR_BLOCK_SIZE_eq]
      exact pow_dvd_pow 2 hle
    exact hdvd.trans (inkAlign_dvd _ _)

/-- What `dir_approx_size` returns for a document is the size that has been written, and that is at least the length of the document. -/
theorem approxSize_exact (g : VolGeom) (e : Dir) {l : ℕ} (hpos : 1 ≤ l) (hl : l ≤ AGG_SIZE) :
    (e.setApproxSize (g.roundToApproxSize l)).approxSize = g.roundToApproxSize l ∧ l ≤ g.roundToApproxSize l := by
  obtain ⟨b, hb, hclass⟩ := sizeClass_exists (hl.trans (by decide))
  obtain ⟨hclass', hdvd, hge⟩ := g.roundToApproxSize_class hclass hb
  exact ⟨hclass'.approxSize hb (Nat.lt_of_lt_of_le hpos hge) hdvd e, hge⟩

/-- a volume on sectors of 8 KB -/
def sector8K : VolGeom := ⟨0, 0, 0, 8192, le_rfl, dvd_rfl⟩

/-- one byte more than the first class has -/
theorem approxSize_exact_class1 :
    (Dir.zero.setApproxSize (sector8K.roundToApproxSize 32769)).approxSize = sector8K.roundToApproxSize 32769 ∧
      32769 ≤ sector8K.roundToApproxSize 32769 :=
  sector8K.approxSize_exact Dir.zero (by decide) (by decide)

end VolGeom

end TrafficServer.Cache
