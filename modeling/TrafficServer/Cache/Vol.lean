/-
The geometry of a cache volume (`iocore/cache/P_CacheVol.h`) and the arithmetic on it.

A volume occupies the bytes `[skip, skip + len)` of its disk: first two copies of the directory, then the data, from
`start` on. Objects are placed in units of `CACHE_BLOCK_SIZE`; a directory entry stores a position as a number of cache
blocks from `start`, plus one, so that 0 can mean empty. `INK_ALIGN` is written with a division: its boundaries are
powers of two.
-/
import Mathlib
import TrafficServer.Cache.Dir

namespace TrafficServer.Cache

/-! ## Constants -/

def STORE_BLOCK_SIZE : ℕ := 8192
def AGG_SIZE : ℕ := 4 * 1024 * 1024
def AGG_HIGH_WATER : ℕ := AGG_SIZE / 2
def EVACUATION_SIZE : ℕ := 2 * AGG_SIZE
def EVACUATION_BUCKET_SIZE : ℕ := 2 * EVACUATION_SIZE
def PIN_SCAN_EVERY : ℕ := 16

/-- `sizeof(Doc)` -/
def sizeofDoc : ℕ := 72

def MAX_FRAG_SIZE : ℕ := AGG_SIZE - sizeofDoc

/-! ## Geometry -/

/-- a volume: its data starts inside it, and its sector size is a power of two that `CacheProcessor` lets through -/
structure VolGeom where
  start : ℤ
  skip : ℤ
  len : ℤ
  sectorSize : ℕ
  room : start ≤ skip + len
  sectorDvd : sectorSize ∣ STORE_BLOCK_SIZE

/-- the usual sector size -/
theorem sector512_dvd : 512 ∣ STORE_BLOCK_SIZE := by decide

theorem room_128_mb : (16384 : ℤ) ≤ 0 + 2 ^ 27 := by decide

theorem VolGeom.sectorPos (g : VolGeom) : 0 < g.sectorSize := Nat.pos_of_dvd_of_pos g.sectorDvd (by decide)

theorem VolGeom.sectorFits (g : VolGeom) : g.sectorSize ≤ STORE_BLOCK_SIZE := Nat.le_of_dvd (by decide) g.sectorDvd

def INK_ALIGN (size boundary : ℕ) : ℕ := (size + (boundary - 1)) / boundary * boundary

theorem inkAlign_ge {boundary : ℕ} (h : 0 < boundary) (size : ℕ) : size ≤ INK_ALIGN size boundary := by
  have hlt := Nat.lt_div_mul_add (a := size + (boundary - 1)) h
  unfold INK_ALIGN
  omega

theorem inkAlign_lt {boundary : ℕ} (h : 0 < boundary) (size : ℕ) : INK_ALIGN size boundary < size + boundary := by
  have hle := Nat.div_mul_le_self (size + (boundary - 1)) boundary
  unfold INK_ALIGN
  omega

theorem inkAlign_le_of_dvd {boundary m : ℕ} (h : 0 < boundary) (hm : boundary ∣ m) {size : ℕ} (hs : size ≤ m) :
    INK_ALIGN size boundary ≤ m := by
  obtain ⟨k, rfl⟩ := hm
  unfold INK_ALIGN
  rw [Nat.mul_comm boundary k]
  apply Nat.mul_le_mul_right
  apply Nat.le_of_lt_succ
  rw [Nat.div_lt_iff_lt_mul h]
  calc size + (boundary - 1) < boundary * k + boundary := by omega
    _ = (k + 1) * boundary := by ring

def roundToApproxDirSize (s : ℕ) : ℕ :=
  if s ≤ DIR_SIZE_WITH_BLOCK 0 then INK_ALIGN s (DIR_BLOCK_SIZE 0)
  else if s ≤ DIR_SIZE_WITH_BLOCK 1 then INK_ALIGN s (DIR_BLOCK_SIZE 1)
  else if s ≤ DIR_SIZE_WITH_BLOCK 2 then INK_ALIGN s (DIR_BLOCK_SIZE 2)
  else INK_ALIGN s (DIR_BLOCK_SIZE 3)

theorem roundToApproxDirSize_bounds (s : ℕ) : s ≤ roundToApproxDirSize s ∧ roundToApproxDirSize s < s + 2 ^ 18 := by
  have hblock : ∀ i ∈ [0, 1, 2, 3], 0 < DIR_BLOCK_SIZE i ∧ DIR_BLOCK_SIZE i ≤ 2 ^ 18 := by decide
  have halign : ∀ i ∈ [0, 1, 2, 3], s ≤ INK_ALIGN s (DIR_BLOCK_SIZE i) ∧ INK_ALIGN s (DIR_BLOCK_SIZE i) < s + 2 ^ 18 := by
    intro i hi
    have hlt := inkAlign_lt (hblock i hi).1 s
    have hle := (hblock i hi).2
    exact ⟨inkAlign_ge (hblock i hi).1 s, by omega⟩
  unfold roundToApproxDirSize
  split_ifs
  · exact halign 0 (by decide)
  · exact halign 1 (by decide)
  · exact halign 2 (by decide)
  · exact halign 3 (by decide)

theorem roundToApproxDirSize_le {s : ℕ} (hs : s ≤ 2 ^ 24) : roundToApproxDirSize s ≤ 2 ^ 24 := by
  have hblock : ∀ i ∈ [0, 1, 2, 3], 0 < DIR_BLOCK_SIZE i ∧ DIR_BLOCK_SIZE i ∣ 2 ^ 24 := by decide
  unfold roundToApproxDirSize
  split_ifs
  · exact inkAlign_le_of_dvd (hblock 0 (by decide)).1 (hblock 0 (by decide)).2 hs
  · exact inkAlign_le_of_dvd (hblock 1 (by decide)).1 (hblock 1 (by decide)).2 hs
  · exact inkAlign_le_of_dvd (hblock 2 (by decide)).1 (hblock 2 (by decide)).2 hs
  · exact inkAlign_le_of_dvd (hblock 3 (by decide)).1 (hblock 3 (by decide)).2 hs

namespace VolGeom

/-- `Vol::round_to_approx_size`, on 32-bit unsigned integers -/
def roundToApproxSize (g : VolGeom) (l : ℕ) : ℕ :=
  INK_ALIGN (roundToApproxDirSize l % 2 ^ 32) g.sectorSize % 2 ^ 32

theorem roundToApproxSize_ge (g : VolGeom) {l : ℕ} (hl : l ≤ 2 ^ 30) : l ≤ g.roundToApproxSize l := by
  obtain ⟨hge, hlt⟩ := roundToApproxDirSize_bounds l
  have hs := g.sectorFits
  simp only [STORE_BLOCK_SIZE] at hs
  unfold roundToApproxSize
  rw [Nat.mod_eq_of_lt (by omega : roundToApproxDirSize l < 2 ^ 32)]
  have hge' := inkAlign_ge g.sectorPos (roundToApproxDirSize l)
  have hlt' := inkAlign_lt g.sectorPos (roundToApproxDirSize l)
  rw [Nat.mod_eq_of_lt (by omega)]
  omega

theorem roundToApproxSize_le (g : VolGeom) {l : ℕ} (hl : l ≤ 2 ^ 24) : g.roundToApproxSize l ≤ 2 ^ 24 := by
  have hdvd : g.sectorSize ∣ 2 ^ 24 := g.sectorDvd.trans (by decide)
  have hdir := roundToApproxDirSize_le hl
  unfold roundToApproxSize
  rw [Nat.mod_eq_of_lt (by omega : roundToApproxDirSize l < 2 ^ 32)]
  exact (Nat.mod_le _ _).trans (inkAlign_le_of_dvd g.sectorPos hdvd hdir)

def offsetToVolOffset (g : VolGeom) (pos : ℤ) : ℤ := (pos - g.start + CACHE_BLOCK_SIZE).tdiv CACHE_BLOCK_SIZE

def volOffset (g : VolGeom) (e : Dir) : ℤ := g.start + e.offset * CACHE_BLOCK_SIZE - CACHE_BLOCK_SIZE

/-- the length of the document that marks a sync -/
def markerLen (g : VolGeom) : ℕ := g.roundToApproxSize sizeofDoc

theorem markerLen_le (g : VolGeom) : g.markerLen ≤ AGG_SIZE := by
  have hdir : roundToApproxDirSize sizeofDoc % 2 ^ 32 = 512 := by decide
  have hlt := inkAlign_lt g.sectorPos 512
  have hs := g.sectorFits
  unfold markerLen roundToApproxSize
  rw [hdir]
  have : INK_ALIGN 512 g.sectorSize % 2 ^ 32 ≤ INK_ALIGN 512 g.sectorSize := Nat.mod_le _ _
  simp only [STORE_BLOCK_SIZE] at hs
  simp only [AGG_SIZE]
  omega

end VolGeom

def dirOffsetEvacBucket (o : ℤ) : ℤ := o.tdiv (EVACUATION_BUCKET_SIZE / CACHE_BLOCK_SIZE)

end TrafficServer.Cache
