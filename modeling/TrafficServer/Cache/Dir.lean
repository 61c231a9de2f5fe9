/-
The directory entry of the cache (`iocore/cache/P_CacheDir.h`): five 16-bit words and the accessor macros over them.

A `Dir` on a bucket chain packs offset, size code, tag and flags. A `Dir` on the freelist uses the same five words as a
`FreeDir`: its back link `prev` is word 2, so it ALIASES the tag, phase, head, pinned and token fields, and its forward
link `next` is word 3 in both readings. The setters below are the source's macros on those words; nothing here knows
which reading a given entry is in.

`CacheKey` is the 128-bit hash as its 16 bytes; `slice32` reads it the way the union `CryptoHash` does on a
little-endian machine.
-/
import Mathlib

namespace TrafficServer.Cache

/-! ## Constants -/

def DIR_DEPTH : ℕ := 4
def DIR_TAG_WIDTH : ℕ := 12
def DIR_SIZE_WIDTH : ℕ := 6
def CACHE_BLOCK_SHIFT : ℕ := 9
def CACHE_BLOCK_SIZE : ℕ := 1 <<< CACHE_BLOCK_SHIFT
def MAX_ENTRIES_PER_SEGMENT : ℕ := 1 <<< 16
def DIR_BLOCK_SHIFT (i : ℕ) : ℕ := 3 * i
def DIR_BLOCK_SIZE (i : ℕ) : ℕ := CACHE_BLOCK_SIZE <<< DIR_BLOCK_SHIFT i
def DIR_SIZE_WITH_BLOCK (i : ℕ) : ℕ := (1 <<< DIR_SIZE_WIDTH) * DIR_BLOCK_SIZE i
def DIR_MASK_TAG (t : ℕ) : ℕ := t &&& ((1 <<< DIR_TAG_WIDTH) - 1)

/-! ## Keys -/

/-- a cache key: the 16 bytes of the hash -/
structure CacheKey where
  u8 : Fin 16 → BitVec 8
deriving DecidableEq

/-- a key has slices to number -/
instance neZero_slices : NeZero 4 := ⟨by decide⟩

/-- the `i`-th 32-bit slice, little endian -/
def CacheKey.slice32 (k : CacheKey) (i : Fin 4) : ℕ :=
  let byte (j : ℕ) (h : j < 4) : ℕ := (k.u8 ⟨4 * i + j, by omega⟩).toNat
  byte 0 (by omega) + byte 1 (by omega) * 2 ^ 8 + byte 2 (by omega) * 2 ^ 16 + byte 3 (by omega) * 2 ^ 24

/-- the first 64-bit slice `b[0]`, little endian -/
def CacheKey.b0 (k : CacheKey) : ℕ := k.slice32 0 + k.slice32 1 * 2 ^ 32

/-! ## The entry and its macros -/

structure Dir where
  w0 : BitVec 16
  w1 : BitVec 16
  w2 : BitVec 16
  w3 : BitVec 16
  w4 : BitVec 16
deriving DecidableEq, Repr

/-- `dir_clear`, and what `memset` leaves -/
def Dir.zero : Dir := ⟨0, 0, 0, 0, 0⟩

namespace Dir

def offset (e : Dir) : ℕ := e.w0.toNat ||| ((e.w1.toNat &&& 0xFF) <<< 16) ||| (e.w4.toNat <<< 24)

def setOffset (e : Dir) (o : ℕ) : Dir :=
  { e with w0 := BitVec.ofNat 16 o, w1 := BitVec.ofNat 16 (((o >>> 16) &&& 0xFF) ||| (e.w1.toNat &&& 0xFF00)),
           w4 := BitVec.ofNat 16 (o >>> 24) }

def isEmpty (e : Dir) : Bool := e.offset == 0

/-- `dir_bit(_e, 2, b)`: the flags all live in word 2 -/
def bit (e : Dir) (b : ℕ) : Bool := e.w2.getLsbD b

def setBit (e : Dir) (b : ℕ) (v : Bool) : Dir :=
  { e with w2 := (e.w2 &&& ~~~(1#16 <<< b)) ||| ((if v then 1#16 else 0#16) <<< b) }

def phase (e : Dir) : Bool := e.bit 12
def setPhase (e : Dir) (v : Bool) : Dir := e.setBit 12 v
def head (e : Dir) : Bool := e.bit 13
def setHead (e : Dir) (v : Bool) : Dir := e.setBit 13 v
def pinned (e : Dir) : Bool := e.bit 14
def setPinned (e : Dir) (v : Bool) : Dir := e.setBit 14 v
def token (e : Dir) : Bool := e.bit 15
def setToken (e : Dir) (v : Bool) : Dir := e.setBit 15 v

def big (e : Dir) : ℕ := (e.w1.toNat >>> 8) &&& 0x3

def setBig (e : Dir) (v : ℕ) : Dir :=
  { e with w1 := BitVec.ofNat 16 ((e.w1.toNat &&& 0xFCFF) ||| ((v &&& 0x3) <<< 8)) }

def size (e : Dir) : ℕ := e.w1.toNat >>> 10

def setSize (e : Dir) (v : ℕ) : Dir := { e with w1 := BitVec.ofNat 16 ((e.w1.toNat &&& ((1 <<< 10) - 1)) ||| (v <<< 10)) }

/-- `dir_set_approx_size`; the size is unsigned, so `s - 1` wraps around for 0 -/
def setApproxSize (e : Dir) (s : ℕ) : Dir :=
  let t := (s + (2 ^ 64 - 1)) % 2 ^ 64
  if s ≤ DIR_SIZE_WITH_BLOCK 0 then (e.setBig 0).setSize (t / DIR_BLOCK_SIZE 0)
  else if s ≤ DIR_SIZE_WITH_BLOCK 1 then (e.setBig 1).setSize (t / DIR_BLOCK_SIZE 1)
  else if s ≤ DIR_SIZE_WITH_BLOCK 2 then (e.setBig 2).setSize (t / DIR_BLOCK_SIZE 2)
  else (e.setBig 3).setSize (t / DIR_BLOCK_SIZE 3)

def approxSize (e : Dir) : ℕ := (e.size + 1) * DIR_BLOCK_SIZE e.big

def tag (e : Dir) : ℕ := e.w2.toNat &&& ((1 <<< DIR_TAG_WIDTH) - 1)

def setTag (e : Dir) (t : ℕ) : Dir :=
  { e with w2 := (e.w2 &&& 0xF000#16) ||| BitVec.ofNat 16 (t &&& ((1 <<< DIR_TAG_WIDTH) - 1)) }

def next (e : Dir) : ℕ := e.w3.toNat
def setNext (e : Dir) (o : ℕ) : Dir := { e with w3 := BitVec.ofNat 16 o }

/-- the back link of a freelist entry: word 2, the word of tag and flags -/
def prev (e : Dir) : ℕ := e.w2.toNat
def setPrev (e : Dir) (o : ℕ) : Dir := { e with w2 := BitVec.ofNat 16 o }

/-- `dir_assign_data`: every word of `x` except the link, which stays that of `e` -/
def assignData (e x : Dir) : Dir := x.setNext e.next

def compareTag (e : Dir) (key : CacheKey) : Bool := e.tag == DIR_MASK_TAG (key.slice32 2)

/-! ## What the setters leave alone -/

@[simp] theorem zero_offset : Dir.zero.offset = 0 := by decide
@[simp] theorem zero_next : Dir.zero.next = 0 := rfl
@[simp] theorem zero_prev : Dir.zero.prev = 0 := rfl

@[simp] theorem setNext_offset (e : Dir) (o : ℕ) : (e.setNext o).offset = e.offset := rfl
@[simp] theorem setNext_prev (e : Dir) (o : ℕ) : (e.setNext o).prev = e.prev := rfl
@[simp] theorem setNext_tag (e : Dir) (o : ℕ) : (e.setNext o).tag = e.tag := rfl
@[simp] theorem setNext_phase (e : Dir) (o : ℕ) : (e.setNext o).phase = e.phase := rfl
@[simp] theorem setPrev_offset (e : Dir) (o : ℕ) : (e.setPrev o).offset = e.offset := rfl
@[simp] theorem setPrev_next (e : Dir) (o : ℕ) : (e.setPrev o).next = e.next := rfl
@[simp] theorem setTag_offset (e : Dir) (t : ℕ) : (e.setTag t).offset = e.offset := rfl
@[simp] theorem setTag_next (e : Dir) (t : ℕ) : (e.setTag t).next = e.next := rfl
@[simp] theorem setOffset_next (e : Dir) (o : ℕ) : (e.setOffset o).next = e.next := rfl
@[simp] theorem setOffset_prev (e : Dir) (o : ℕ) : (e.setOffset o).prev = e.prev := rfl
@[simp] theorem setOffset_tag (e : Dir) (o : ℕ) : (e.setOffset o).tag = e.tag := rfl
@[simp] theorem setOffset_phase (e : Dir) (o : ℕ) : (e.setOffset o).phase = e.phase := rfl
@[simp] theorem assignData_offset (e x : Dir) : (e.assignData x).offset = x.offset := rfl

@[simp] theorem setBit_offset (e : Dir) (b : ℕ) (v : Bool) : (e.setBit b v).offset = e.offset := rfl
@[simp] theorem setBit_approxSize (e : Dir) (b : ℕ) (v : Bool) : (e.setBit b v).approxSize = e.approxSize := rfl
@[simp] theorem setTag_approxSize (e : Dir) (t : ℕ) : (e.setTag t).approxSize = e.approxSize := rfl
@[simp] theorem setNext_approxSize (e : Dir) (o : ℕ) : (e.setNext o).approxSize = e.approxSize := rfl

/-- a link that fits 16 bits is stored exactly -/
theorem setNext_next {o : ℕ} (e : Dir) (h : o < 2 ^ 16) : (e.setNext o).next = o := by
  simp only [next, setNext, BitVec.toNat_ofNat]; omega

theorem setPrev_prev {o : ℕ} (e : Dir) (h : o < 2 ^ 16) : (e.setPrev o).prev = o := by
  simp only [prev, setPrev, BitVec.toNat_ofNat]; omega

theorem next_lt (e : Dir) : e.next < 2 ^ 16 := e.w3.isLt

theorem prev_lt (e : Dir) : e.prev < 2 ^ 16 := e.w2.isLt

@[simp] theorem assignData_next (e x : Dir) : (e.assignData x).next = e.next := setNext_next x (next_lt e)

/-- the offset as a sum: 16 bits of word 0, 8 of word 1 and 16 of word 4 -/
theorem offset_eq (e : Dir) : e.offset = e.w0.toNat + (e.w1.toNat % 2 ^ 8) * 2 ^ 16 + e.w4.toNat * 2 ^ 24 := by
  have h0 := e.w0.isLt
  have h1 : e.w1.toNat &&& 0xFF = e.w1.toNat % 2 ^ 8 := Nat.and_two_pow_sub_one_eq_mod _ 8
  have hlow : e.w0.toNat ||| ((e.w1.toNat % 2 ^ 8) <<< 16) = 2 ^ 16 * (e.w1.toNat % 2 ^ 8) + e.w0.toNat := by
    rw [Nat.or_comm, Nat.shiftLeft_eq, Nat.mul_comm, Nat.two_pow_add_eq_or_of_lt h0]
  have hlt : 2 ^ 16 * (e.w1.toNat % 2 ^ 8) + e.w0.toNat < 2 ^ 24 := by omega
  unfold offset
  rw [h1, hlow, Nat.or_comm, Nat.shiftLeft_eq, Nat.mul_comm e.w4.toNat, ← Nat.two_pow_add_eq_or_of_lt hlt]
  ring

/-- word 1 after `dir_set_offset`: bits 16..23 of the offset, with the size code above them kept -/
theorem setOffset_w1 (e : Dir) (o : ℕ) :
    (e.setOffset o).w1.toNat = (o / 2 ^ 16) % 2 ^ 8 + e.w1.toNat / 2 ^ 8 * 2 ^ 8 := by
  have h1 := e.w1.isLt
  have hlo : (o >>> 16) &&& 0xFF = (o / 2 ^ 16) % 2 ^ 8 := by
    rw [Nat.shiftRight_eq_div_pow]; exact Nat.and_two_pow_sub_one_eq_mod _ 8
  have hhi : e.w1.toNat &&& 0xFF00 = 2 ^ 8 * (e.w1.toNat / 2 ^ 8) := by
    apply Nat.eq_of_testBit_eq
    intro i
    have h8 : Nat.testBit 0xFF00 i = (decide (8 ≤ i) && decide (i < 16)) := by
      by_cases hi : i < 16
      · interval_cases i <;> decide
      · simp only [hi, decide_false, Bool.and_false]
        exact Nat.testBit_lt_two_pow (lt_of_lt_of_le (by norm_num) (Nat.pow_le_pow_right two_pos (Nat.le_of_not_lt hi)))
    rw [Nat.testBit_and, h8, Nat.testBit_two_pow_mul, Nat.testBit_div_two_pow]
    by_cases hi : 8 ≤ i
    · by_cases hi' : i < 16
      · simp [hi, hi']
      · have : e.w1.toNat.testBit i = false :=
          Nat.testBit_lt_two_pow (lt_of_lt_of_le h1 (Nat.pow_le_pow_right two_pos (Nat.le_of_not_lt hi')))
        simp [hi, this]
    · simp [hi]
  simp only [setOffset, BitVec.toNat_ofNat, hlo, hhi]
  rw [Nat.or_comm, ← Nat.two_pow_add_eq_or_of_lt (Nat.mod_lt _ (by norm_num))]
  omega

/-- an offset of at most 40 bits is stored exactly -/
theorem setOffset_offset {o : ℕ} (e : Dir) (h : o < 2 ^ 40) : (e.setOffset o).offset = o := by
  rw [offset_eq, setOffset_w1]
  simp only [setOffset, BitVec.toNat_ofNat, Nat.shiftRight_eq_div_pow]
  omega

/-! ## The size code

Word 1 holds, above the 8 bits of the offset, the block size in 2 bits and the number of blocks in 6. -/

theorem setSize_w1 (e : Dir) (v : ℕ) : (e.setSize v).w1.toNat = e.w1.toNat % 2 ^ 10 + v % 2 ^ 6 * 2 ^ 10 := by
  have hlo : e.w1.toNat &&& ((1 <<< 10) - 1) = e.w1.toNat % 2 ^ 10 := Nat.and_two_pow_sub_one_eq_mod _ 10
  simp only [setSize, BitVec.toNat_ofNat, hlo]
  rw [Nat.or_comm, Nat.shiftLeft_eq, Nat.mul_comm v, ← Nat.two_pow_add_eq_or_of_lt (Nat.mod_lt _ (by norm_num))]
  omega

/-- `& 0xFCFF` clears bits 8 and 9 -/
theorem and_FCFF {x : ℕ} (h : x < 2 ^ 16) : x &&& 0xFCFF = x % 2 ^ 8 + x / 2 ^ 10 * 2 ^ 10 := by
  have hlo : (x &&& 0xFCFF) % 2 ^ 8 = x % 2 ^ 8 := by
    rw [Nat.and_mod_two_pow]
    exact (Nat.and_two_pow_sub_one_eq_mod _ 8).trans (Nat.mod_mod _ _)
  have hmid : (x &&& 0xFCFF) / 2 ^ 8 % 2 ^ 2 = 0 := by
    rw [Nat.and_div_two_pow, Nat.and_mod_two_pow]
    exact Nat.and_zero _
  have hhi : (x &&& 0xFCFF) / 2 ^ 10 = x / 2 ^ 10 % 2 ^ 6 := by
    rw [Nat.and_div_two_pow]
    exact Nat.and_two_pow_sub_one_eq_mod _ 6
  omega

theorem setBig_w1 (e : Dir) (v : ℕ) :
    (e.setBig v).w1.toNat = e.w1.toNat % 2 ^ 8 + v % 4 * 2 ^ 8 + e.w1.toNat / 2 ^ 10 * 2 ^ 10 := by
  have h1 := e.w1.isLt
  have hv : v &&& 0x3 = v % 4 := Nat.and_two_pow_sub_one_eq_mod _ 2
  have hlt : v % 4 * 2 ^ 8 < 2 ^ 10 := by omega
  have hlow : e.w1.toNat % 2 ^ 8 ||| v % 4 * 2 ^ 8 = 2 ^ 8 * (v % 4) + e.w1.toNat % 2 ^ 8 := by
    rw [Nat.or_comm, Nat.mul_comm, Nat.two_pow_add_eq_or_of_lt (Nat.mod_lt _ (by norm_num))]
  have hsplit : e.w1.toNat % 2 ^ 8 + e.w1.toNat / 2 ^ 10 * 2 ^ 10 =
      2 ^ 10 * (e.w1.toNat / 2 ^ 10) ||| e.w1.toNat % 2 ^ 8 := by
    rw [← Nat.two_pow_add_eq_or_of_lt (lt_of_lt_of_le (Nat.mod_lt _ (by norm_num)) (by norm_num))]
    ring
  simp only [setBig, BitVec.toNat_ofNat, hv, and_FCFF h1, Nat.shiftLeft_eq]
  rw [hsplit, Nat.or_assoc, hlow, ← Nat.two_pow_add_eq_or_of_lt (by omega)]
  omega

theorem setSize_size (e : Dir) (v : ℕ) : (e.setSize v).size = v % 2 ^ 6 := by
  unfold size
  rw [Nat.shiftRight_eq_div_pow, setSize_w1]
  omega

theorem big_eq (e : Dir) : e.big = e.w1.toNat / 2 ^ 8 % 4 := by
  unfold big
  rw [Nat.shiftRight_eq_div_pow]
  exact Nat.and_two_pow_sub_one_eq_mod _ 2

theorem setSize_big (e : Dir) (v : ℕ) : (e.setSize v).big = e.big := by
  rw [big_eq, big_eq, setSize_w1]
  omega

theorem setBig_big (e : Dir) (v : ℕ) : (e.setBig v).big = v % 4 := by
  rw [big_eq, setBig_w1]
  omega

theorem setSize_offset (e : Dir) (v : ℕ) : (e.setSize v).offset = e.offset := by
  have hw : (e.setSize v).w1.toNat % 2 ^ 8 = e.w1.toNat % 2 ^ 8 := by
    rw [setSize_w1]
    omega
  rw [offset_eq, offset_eq, hw]
  rfl

theorem setBig_offset (e : Dir) (v : ℕ) : (e.setBig v).offset = e.offset := by
  have hw : (e.setBig v).w1.toNat % 2 ^ 8 = e.w1.toNat % 2 ^ 8 := by
    rw [setBig_w1]
    omega
  rw [offset_eq, offset_eq, hw]
  rfl

/-- the code that `dir_set_approx_size` stores: the least block size that can hold `s`, or the greatest -/
theorem setApproxSize_eq (e : Dir) (s : ℕ) :
    ∃ b ≤ 3, (b = 3 ∨ s ≤ DIR_SIZE_WITH_BLOCK b) ∧
      e.setApproxSize s = (e.setBig b).setSize ((s + (2 ^ 64 - 1)) % 2 ^ 64 / DIR_BLOCK_SIZE b) := by
  simp only [setApproxSize]
  split_ifs with h0 h1 h2
  · exact ⟨0, by omega, Or.inr h0, rfl⟩
  · exact ⟨1, by omega, Or.inr h1, rfl⟩
  · exact ⟨2, by omega, Or.inr h2, rfl⟩
  · exact ⟨3, by omega, Or.inl rfl, rfl⟩

@[simp] theorem setApproxSize_offset (e : Dir) (s : ℕ) : (e.setApproxSize s).offset = e.offset := by
  obtain ⟨b, -, -, heq⟩ := setApproxSize_eq e s
  rw [heq, setSize_offset, setBig_offset]

/-- the size that an entry can express -/
theorem approxSize_bounds (e : Dir) : 0 < e.approxSize ∧ e.approxSize ≤ 2 ^ 24 := by
  have hsize : e.size < 2 ^ 6 := by
    have := e.w1.isLt
    unfold size
    rw [Nat.shiftRight_eq_div_pow]
    omega
  have hblock : 0 < DIR_BLOCK_SIZE e.big ∧ DIR_BLOCK_SIZE e.big ≤ 2 ^ 18 := by
    have hbig : e.big < 4 := by
      rw [big_eq]
      omega
    interval_cases e.big <;> decide
  unfold approxSize
  constructor
  · exact Nat.mul_pos (Nat.succ_pos _) hblock.1
  · calc (e.size + 1) * DIR_BLOCK_SIZE e.big ≤ 2 ^ 6 * 2 ^ 18 := Nat.mul_le_mul hsize hblock.2
      _ = 2 ^ 24 := by norm_num

/-- a size of at most 16 MB is rounded up -/
theorem setApproxSize_ge (e : Dir) {s : ℕ} (hpos : 0 < s) (hs : s ≤ 2 ^ 24) : s ≤ (e.setApproxSize s).approxSize := by
  obtain ⟨b, hb, hfit, heq⟩ := setApproxSize_eq e s
  have hpred : (s + (2 ^ 64 - 1)) % 2 ^ 64 = s - 1 := by omega
  have hfit' : s ≤ 2 ^ 6 * DIR_BLOCK_SIZE b := by
    rcases hfit with rfl | hfit
    · exact hs
    · exact hfit
  have hblock : 0 < DIR_BLOCK_SIZE b := by interval_cases b <;> decide
  have hsize : (s - 1) / DIR_BLOCK_SIZE b < 2 ^ 6 := by
    rw [Nat.div_lt_iff_lt_mul hblock]
    omega
  have hlt := Nat.lt_div_mul_add (a := s - 1) hblock
  unfold approxSize
  rw [heq, setSize_size, setSize_big, setBig_big, hpred, Nat.mod_eq_of_lt hsize, Nat.mod_eq_of_lt (by omega : b < 4)]
  calc s ≤ (s - 1) / DIR_BLOCK_SIZE b * DIR_BLOCK_SIZE b + DIR_BLOCK_SIZE b := by omega
    _ = ((s - 1) / DIR_BLOCK_SIZE b + 1) * DIR_BLOCK_SIZE b := by ring

@[simp] theorem setOffset_zero (e : Dir) : (e.setOffset 0).offset = 0 := setOffset_offset e (by norm_num)

end Dir

end TrafficServer.Cache
