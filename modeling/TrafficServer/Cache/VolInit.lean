/-
The size of a volume's directory (`vol_init_data` in `iocore/cache/Cache.cc`).

The directory takes space from the data whose objects it is for, so its size is found in three rounds: each estimates the number of objects from
the space that the last one has left for data, and gives room to that many entries in two copies of the directory. `volInitDataInternal` is one
round; it fails where the code divides by zero. `segments` and the result of `headerlen` are ints and wrap around, the other values stay far
from the limits of 64 bits.

The estimates alternate around the right value, so the smallest number of entries is that of the second round. `vol_init_data_iff`: the result is
a sound geometry (`GeometryOk`) exactly if the average object size is positive and the space that the first round leaves holds the four objects
of a bucket. Else the second round divides by zero, or, when the directory of the first is larger than the whole volume, the third is as large
again. Nothing in the code keeps a volume from being so small: counterexample `small_volume`, with the default average.
-/
import Mathlib
import TrafficServer.Cache.Vol

namespace TrafficServer.Cache.VolInit

/-! ## Model -/

/-- conversion to `int` -/
def int32 (x : ℤ) : ℤ := (x + 2147483648) % 4294967296 - 2147483648

/-- `ROUND_TO_STORE_BLOCK` -/
def roundToStoreBlock (x : ℤ) : ℤ := (x + (STORE_BLOCK_SIZE - 1)) / STORE_BLOCK_SIZE * STORE_BLOCK_SIZE

def sizeofVolHeaderFooter : ℤ := 80
def SIZEOF_DIR : ℤ := 10
def MAX_VOL_SIZE : ℤ := 512 * 1024 * 1024 * 1024 * 1024

def headerlen (segments : ℤ) : ℤ := int32 (roundToStoreBlock (sizeofVolHeaderFooter + 2 * (segments - 1)))

def dirlen (segments buckets : ℤ) : ℤ :=
  headerlen segments + roundToStoreBlock (buckets * DIR_DEPTH * segments * SIZEOF_DIR) + roundToStoreBlock sizeofVolHeaderFooter

structure Vol where
  segments : ℤ
  buckets : ℤ
  start : ℤ
deriving DecidableEq

/-- step 1 and step 2 -/
def totalBuckets (m skip len start : ℤ) : ℤ := ((len - (start - skip)).tdiv m).tdiv DIR_DEPTH

/-- steps 3 to 5 -/
def divideBuckets (skip totalBuckets : ℤ) : Option Vol :=
  let segments := int32 ((totalBuckets + 16383).tdiv 16384)
  if segments = 0 then none
  else
    let buckets := (totalBuckets + segments - 1).tdiv segments
    some ⟨segments, buckets, skip + 2 * dirlen segments buckets⟩

/-- `vol_init_data_internal` with `cache_config_min_average_object_size` at `m`; `none` is a division by zero -/
def volInitDataInternal (m skip len : ℤ) (d : Vol) : Option Vol :=
  if m = 0 then none else divideBuckets skip (totalBuckets m skip len d.start)

/-- `vol_init_data`, called with `start` at `skip` -/
def volInitData (m skip len : ℤ) : Option Vol := do
  let d ← volInitDataInternal m skip len ⟨0, 0, skip⟩
  let d ← volInitDataInternal m skip len d
  volInitDataInternal m skip len d

/-! ## What it should be -/

/-- At least one segment and one bucket, entries within the 16-bit links, and two copies of header, directory and footer in front of the data,
which start inside the volume. -/
structure GeometryOk (skip len : ℤ) (d : Vol) : Prop where
  segments : 1 ≤ d.segments
  buckets : 1 ≤ d.buckets
  links : d.buckets * DIR_DEPTH ≤ MAX_ENTRIES_PER_SEGMENT
  copies : skip + 2 * (sizeofVolHeaderFooter + 2 * (d.segments - 1) + d.buckets * DIR_DEPTH * d.segments * SIZEOF_DIR +
    sizeofVolHeaderFooter) ≤ d.start
  start : d.start < skip + len

/-- the segments for `b` buckets, none of them with more than 16384, and the buckets of each -/
def segmentsFor (b : ℤ) : ℤ := (b + 16383) / 16384

def bucketsFor (b : ℤ) : ℤ := (b + segmentsFor b - 1) / segmentsFor b

/-- the space of two directories with room for `b` buckets -/
def dirSpace (b : ℤ) : ℤ :=
  2 * (roundToStoreBlock (sizeofVolHeaderFooter + 2 * (segmentsFor b - 1)) +
    roundToStoreBlock (bucketsFor b * DIR_DEPTH * segmentsFor b * SIZEOF_DIR) + roundToStoreBlock sizeofVolHeaderFooter)

/-- Objects of the average size `m`, four at least, have room behind two directories for a volume full of them. -/
def Fits (m len : ℤ) : Prop := 0 < m ∧ 4 * m ≤ len - dirSpace (len / m / 4)

variable {m skip len b b' s : ℤ} {d : Vol}

/-! ## Rounding -/

theorem roundToStoreBlock_eq (x : ℤ) : roundToStoreBlock x = (x + 8191) / 8192 * 8192 := rfl

theorem roundToStoreBlock_bounds (x : ℤ) : x ≤ roundToStoreBlock x ∧ roundToStoreBlock x < x + 8192 := by
  rw [roundToStoreBlock_eq]
  omega

theorem roundToStoreBlock_mono {x y : ℤ} (h : x ≤ y) : roundToStoreBlock x ≤ roundToStoreBlock y := by
  rw [roundToStoreBlock_eq, roundToStoreBlock_eq]
  omega

theorem int32_bounds (x : ℤ) : -2147483648 ≤ int32 x ∧ int32 x ≤ 2147483647 := by
  unfold int32
  omega

theorem int32_eq {x : ℤ} (h : -2147483648 ≤ x) (h' : x ≤ 2147483647) : int32 x = x := by
  unfold int32
  omega

/-- buckets times segments, whatever the sign and the size of the number of segments -/
theorem product_bounds (b : ℤ) (hs : s ≠ 0) (hlow : -2147483648 ≤ s) (hhigh : s ≤ 2147483647) :
    b - 4294967296 ≤ (b + s - 1).tdiv s * s ∧ (b + s - 1).tdiv s * s ≤ b + 4294967296 := by
  have hdiv := Int.mul_tdiv_add_tmod (b + s - 1) s
  have hmod : ((b + s - 1).tmod s).natAbs < s.natAbs := by
    rw [Int.natAbs_tmod]
    exact Nat.mod_lt _ (Int.natAbs_pos.2 hs)
  rw [mul_comm] at hdiv
  omega

theorem product_neg (b : ℤ) (hs : s < 0) : (b + s - 1).tdiv s * s ≤ b := by
  have hdiv := Int.mul_tdiv_add_tmod (b + s - 1) s
  have hmod : ((b + s - 1).tmod s).natAbs < s.natAbs := by
    rw [Int.natAbs_tmod]
    exact Nat.mod_lt _ (Int.natAbs_pos.2 hs.ne)
  rw [mul_comm] at hdiv
  omega

theorem product_ge (b : ℤ) (hs : 0 < s) (hb : 0 ≤ b) : b ≤ (b + s - 1).tdiv s * s ∧ (b + s - 1).tdiv s * s ≤ b + s - 1 := by
  have hdiv := Int.mul_tdiv_add_tmod (b + s - 1) s
  have hnonneg := Int.tmod_nonneg s (show 0 ≤ b + s - 1 by omega)
  have hmod := Int.tmod_lt_of_pos (b + s - 1) hs
  rw [mul_comm] at hdiv
  omega

/-- truncating division, from both sides -/
theorem tdiv_bounds (x : ℤ) : (0 ≤ x → 16384 * x.tdiv 16384 ≤ x ∧ x < 16384 * x.tdiv 16384 + 16384) ∧
    (x ≤ 0 → x ≤ 16384 * x.tdiv 16384 ∧ 16384 * x.tdiv 16384 < x + 16384) := by
  have hdiv := Int.mul_tdiv_add_tmod x 16384
  have hlt := Int.tmod_lt_of_pos x (b := 16384) (by decide)
  have hgt := Int.lt_tmod_of_pos x (b := 16384) (by decide)
  refine ⟨fun hx => ?_, fun hx => ?_⟩
  · have := Int.tmod_nonneg 16384 hx
    omega
  · have hneg := Int.tmod_nonneg 16384 (show 0 ≤ -x by omega)
    rw [Int.neg_tmod] at hneg
    omega

/-! ## One round -/

theorem divideBuckets_some (h : divideBuckets skip b = some d) : d.segments = int32 ((b + 16383).tdiv 16384) ∧ d.segments ≠ 0 ∧
    d.buckets = (b + d.segments - 1).tdiv d.segments ∧ d.start = skip + 2 * dirlen d.segments d.buckets := by
  unfold divideBuckets at h
  dsimp only at h
  split_ifs at h with h0
  obtain rfl := Option.some.inj h
  exact ⟨rfl, h0, rfl, rfl⟩

theorem dirlen_bounds (segments buckets : ℤ) :
    headerlen segments + 40 * (buckets * segments) + 8192 ≤ dirlen segments buckets ∧
      dirlen segments buckets < headerlen segments + 40 * (buckets * segments) + 16384 := by
  have hprod : buckets * DIR_DEPTH * segments * SIZEOF_DIR = 40 * (buckets * segments) := by
    simp only [DIR_DEPTH, SIZEOF_DIR]
    push_cast
    ring
  have hround := roundToStoreBlock_bounds (40 * (buckets * segments))
  have hfooter : roundToStoreBlock sizeofVolHeaderFooter = 8192 := by decide
  rw [dirlen, hprod, hfooter]
  omega

/-- Without buckets there is a division by zero, or the number of segments is negative and the data starts in front of the volume. -/
theorem divideBuckets_neg (hb : b ≤ 0) (h : divideBuckets skip b = some d) : b ≤ -32767 ∧ d.start < skip := by
  obtain ⟨hsegs, hne, hbuckets, hstart⟩ := divideBuckets_some h
  obtain ⟨hpos, hneg⟩ := tdiv_bounds (b + 16383)
  generalize (b + 16383).tdiv 16384 = q at hsegs hpos hneg
  have hs := int32_bounds q
  rw [← hsegs] at hs
  have hlow : b ≤ -32767 := by
    by_contra hlt
    have hq : q = 0 := by
      rcases le_total 0 (b + 16383) with hx | hx
      · have := hpos hx; omega
      · have := hneg hx; omega
    exact hne (by rw [hsegs, hq]; decide)
  refine ⟨hlow, ?_⟩
  have hq := hneg (by omega)
  have hprod := product_bounds b hne hs.1 hs.2
  have hlen := (dirlen_bounds d.segments d.buckets).2
  have hheader := (int32_bounds (roundToStoreBlock (sizeofVolHeaderFooter + 2 * (d.segments - 1)))).2
  rw [← hbuckets] at hprod
  rw [headerlen] at hlen
  by_cases hwrap : q < -2147483648
  · omega
  have hseg : d.segments = q := by
    rw [hsegs]
    exact int32_eq (by omega) (by omega)
  have hprod' := product_neg b (show d.segments < 0 by omega)
  rw [← hbuckets] at hprod'
  by_cases hbig : q < -1073741824
  · omega
  · have hround := roundToStoreBlock_bounds (sizeofVolHeaderFooter + 2 * (d.segments - 1))
    have hsize : sizeofVolHeaderFooter = 80 := rfl
    rw [int32_eq (by omega) (by omega)] at hlen
    omega

/-- the directory is never much smaller than its entries -/
theorem divideBuckets_low (h : divideBuckets skip b = some d) : skip + 80 * b - 352187318272 ≤ d.start := by
  obtain ⟨hsegs, hne, hbuckets, hstart⟩ := divideBuckets_some h
  have hs := int32_bounds ((b + 16383).tdiv 16384)
  rw [← hsegs] at hs
  have hprod := product_bounds b hne hs.1 hs.2
  have hlen := (dirlen_bounds d.segments d.buckets).1
  have hheader := (int32_bounds (roundToStoreBlock (sizeofVolHeaderFooter + 2 * (d.segments - 1)))).1
  rw [← hbuckets] at hprod
  rw [headerlen] at hlen
  omega

theorem segmentsFor_bounds (hb : 1 ≤ b) : 1 ≤ segmentsFor b ∧ b ≤ 16384 * segmentsFor b ∧ 16384 * segmentsFor b < b + 16384 := by
  unfold segmentsFor
  omega

theorem bucketsFor_eq (hb : 1 ≤ b) : (b + segmentsFor b - 1).tdiv (segmentsFor b) = bucketsFor b :=
  Int.tdiv_eq_ediv_of_nonneg (by have := segmentsFor_bounds hb; omega)

theorem bucketsFor_bounds (hb : 1 ≤ b) : 1 ≤ bucketsFor b ∧ bucketsFor b ≤ 16384 ∧
    b ≤ bucketsFor b * segmentsFor b ∧ bucketsFor b * segmentsFor b ≤ b + segmentsFor b - 1 := by
  obtain ⟨hs, hle, -⟩ := segmentsFor_bounds hb
  have hprod := product_ge b (show 0 < segmentsFor b by omega) (by omega)
  rw [bucketsFor_eq hb] at hprod
  refine ⟨?_, ?_, hprod⟩
  · rw [bucketsFor, Int.le_ediv_iff_mul_le (by omega)]
    omega
  · refine Int.lt_add_one_iff.1 ?_
    rw [bucketsFor, Int.ediv_lt_iff_lt_mul (by omega)]
    omega

/-- up to this many buckets nothing wraps around -/
theorem divideBuckets_eq (hb : 1 ≤ b) (hle : b ≤ 2 ^ 43) :
    divideBuckets skip b = some ⟨segmentsFor b, bucketsFor b, skip + dirSpace b⟩ := by
  have hs := segmentsFor_bounds hb
  have hsegs : int32 ((b + 16383).tdiv 16384) = segmentsFor b := by
    rw [Int.tdiv_eq_ediv_of_nonneg (by omega)]
    exact int32_eq (by unfold segmentsFor at hs; omega) (by unfold segmentsFor at hs; omega)
  have hheader : headerlen (segmentsFor b) = roundToStoreBlock (sizeofVolHeaderFooter + 2 * (segmentsFor b - 1)) := by
    have hround := roundToStoreBlock_bounds (sizeofVolHeaderFooter + 2 * (segmentsFor b - 1))
    have hsize : sizeofVolHeaderFooter = 80 := rfl
    exact int32_eq (by omega) (by omega)
  rw [divideBuckets, hsegs]
  dsimp only
  rw [if_neg (by omega), bucketsFor_eq hb, dirlen, hheader]
  rfl

theorem dirSpace_bounds (hb : 1 ≤ b) : 80 * b < dirSpace b := by
  have hs := segmentsFor_bounds hb
  obtain ⟨-, -, hprod, -⟩ := bucketsFor_bounds hb
  have hmul : bucketsFor b * DIR_DEPTH * segmentsFor b * SIZEOF_DIR = 40 * (bucketsFor b * segmentsFor b) := by
    simp only [DIR_DEPTH, SIZEOF_DIR]
    push_cast
    ring
  have hround := roundToStoreBlock_bounds (40 * (bucketsFor b * segmentsFor b))
  have hheader := roundToStoreBlock_bounds (sizeofVolHeaderFooter + 2 * (segmentsFor b - 1))
  have hsize : sizeofVolHeaderFooter = 80 := rfl
  have hfooter : roundToStoreBlock sizeofVolHeaderFooter = 8192 := by decide
  rw [dirSpace, hmul, hfooter]
  omega

theorem dirSpace_mono (hb : 1 ≤ b) (hle : b ≤ b') : dirSpace b ≤ dirSpace b' := by
  have hs := segmentsFor_bounds hb
  have hs' := segmentsFor_bounds (hb.trans hle)
  have hp := bucketsFor_bounds hb
  have hp' := bucketsFor_bounds (hb.trans hle)
  have hsegs : segmentsFor b ≤ segmentsFor b' := by
    unfold segmentsFor
    omega
  -- with as many segments a bucket more in each, with more segments more than 16384 in each of the old ones
  have hprod : bucketsFor b * segmentsFor b ≤ bucketsFor b' * segmentsFor b' := by
    rcases hsegs.eq_or_lt with heq | hlt
    · have hbuckets : bucketsFor b ≤ bucketsFor b' := by
        rw [bucketsFor, bucketsFor, heq]
        exact Int.ediv_le_ediv (by omega) (by omega)
      rw [heq]
      exact mul_le_mul_of_nonneg_right hbuckets (by omega)
    · have hmax : bucketsFor b * segmentsFor b ≤ 16384 * segmentsFor b := mul_le_mul_of_nonneg_right hp.2.1 (by omega)
      omega
  have hmul : ∀ x y : ℤ, x * DIR_DEPTH * y * SIZEOF_DIR = 40 * (x * y) := by
    intro x y
    simp only [DIR_DEPTH, SIZEOF_DIR]
    push_cast
    ring
  have hheader := roundToStoreBlock_mono (show sizeofVolHeaderFooter + 2 * (segmentsFor b - 1) ≤
    sizeofVolHeaderFooter + 2 * (segmentsFor b' - 1) by omega)
  have hentries := roundToStoreBlock_mono (show 40 * (bucketsFor b * segmentsFor b) ≤ 40 * (bucketsFor b' * segmentsFor b') by omega)
  rw [dirSpace, dirSpace, hmul, hmul]
  omega

/-! ## The three rounds -/

theorem totalBuckets_nonneg (hm : 0 < m) (h : 0 ≤ len - (s - skip)) : totalBuckets m skip len s = (len - (s - skip)) / m / 4 := by
  have hdiv : 0 ≤ (len - (s - skip)) / m := Int.ediv_nonneg h hm.le
  rw [totalBuckets, Int.tdiv_eq_ediv_of_nonneg h, Int.tdiv_eq_ediv_of_nonneg hdiv]
  rfl

theorem totalBuckets_nonpos (h : 0 ≤ len - (s - skip) ∧ m < 0 ∨ len - (s - skip) < 4 * m ∧ 0 < m) : totalBuckets m skip len s ≤ 0 := by
  have hentries : (len - (s - skip)).tdiv m ≤ 3 := by
    rcases h with ⟨hlen, hm⟩ | ⟨hlen, hm⟩
    · exact (Int.tdiv_nonpos_of_nonneg_of_nonpos hlen hm.le).trans (by decide)
    · refine (Int.tdiv_le_tdiv hm (show len - (s - skip) ≤ 4 * m - 1 by omega)).trans ?_
      rw [Int.tdiv_eq_ediv_of_nonneg (by omega)]
      refine Int.lt_add_one_iff.1 ?_
      rw [Int.ediv_lt_iff_lt_mul hm]
      omega
  exact (Int.tdiv_le_tdiv (by decide) hentries).trans (by decide)

/-- one bucket takes four objects -/
theorem one_le_iff (hm : 0 < m) (x : ℤ) : 1 ≤ x / m / 4 ↔ 4 * m ≤ x := by
  rw [Int.le_ediv_iff_mul_le (by decide), Int.le_ediv_iff_mul_le hm]
  omega

theorem Fits.bounds (h : Fits m len) (h0 : 0 ≤ len) (hmax : len ≤ MAX_VOL_SIZE) : 1 ≤ len / m / 4 ∧ len / m / 4 ≤ 2 ^ 43 := by
  obtain ⟨hm, hfit⟩ := h
  have hsize : MAX_VOL_SIZE = 562949953421312 := rfl
  have hone : 1 ≤ len / m / 4 := by
    by_contra hlt
    have hlen : len < 4 * m := by
      by_contra hle
      exact hlt ((one_le_iff hm len).2 (by omega))
    have hzero : len / m / 4 = 0 := by
      have hnonneg := Int.ediv_nonneg (Int.ediv_nonneg h0 hm.le) (show (0 : ℤ) ≤ 4 by decide)
      omega
    have hspace : 0 ≤ dirSpace 0 := by decide
    rw [hzero] at hfit
    omega
  have hspace := dirSpace_bounds hone
  exact ⟨hone, by omega⟩

/-- While the data starts no later than after the first round, a round makes room for one bucket at least and no more than the first. -/
theorem volInitDataInternal_fits (h : Fits m len) (h0 : 0 ≤ len) (hmax : len ≤ MAX_VOL_SIZE) (hlow : skip ≤ d.start)
    (hhigh : d.start ≤ skip + dirSpace (len / m / 4)) : ∃ b, 1 ≤ b ∧ b ≤ len / m / 4 ∧
      volInitDataInternal m skip len d = some ⟨segmentsFor b, bucketsFor b, skip + dirSpace b⟩ := by
  obtain ⟨hm, hfit⟩ := id h
  have hbounds := h.bounds h0 hmax
  have hone : 1 ≤ (len - (d.start - skip)) / m / 4 := (one_le_iff hm _).2 (by omega)
  have hle : (len - (d.start - skip)) / m / 4 ≤ len / m / 4 :=
    Int.ediv_le_ediv (by decide) (Int.ediv_le_ediv hm (by omega))
  refine ⟨_, hone, hle, ?_⟩
  rw [volInitDataInternal, if_neg hm.ne', totalBuckets_nonneg hm (by omega)]
  exact divideBuckets_eq hone (hle.trans hbounds.2)

/-- one round, looked at from its result -/
theorem volInitDataInternal_some {d' : Vol} (h : volInitDataInternal m skip len d = some d') :
    m ≠ 0 ∧ divideBuckets skip (totalBuckets m skip len d.start) = some d' := by
  unfold volInitDataInternal at h
  split_ifs at h with hm
  exact ⟨hm, h⟩

theorem volInitData_some (h : volInitData m skip len = some d) : ∃ d₁ d₂, volInitDataInternal m skip len ⟨0, 0, skip⟩ = some d₁ ∧
    volInitDataInternal m skip len d₁ = some d₂ ∧ volInitDataInternal m skip len d₂ = some d := by
  obtain ⟨d₁, h₁, h⟩ := Option.bind_eq_some_iff.1 h
  obtain ⟨d₂, h₂, h₃⟩ := Option.bind_eq_some_iff.1 h
  exact ⟨d₁, d₂, h₁, h₂, h₃⟩

theorem volInitData_fits (h : Fits m len) (h0 : 0 ≤ len) (hmax : len ≤ MAX_VOL_SIZE) : ∃ b, 1 ≤ b ∧ b ≤ len / m / 4 ∧
    volInitData m skip len = some ⟨segmentsFor b, bucketsFor b, skip + dirSpace b⟩ := by
  have hbounds := h.bounds h0 hmax
  have hspace : ∀ b, 1 ≤ b → b ≤ len / m / 4 → skip ≤ skip + dirSpace b ∧ skip + dirSpace b ≤ skip + dirSpace (len / m / 4) := by
    intro b hb hle
    have hpos := dirSpace_bounds hb
    have hmono := dirSpace_mono hb hle
    omega
  have hfirst := hspace _ hbounds.1 le_rfl
  obtain ⟨b₁, hb₁, hle₁, h₁⟩ := volInitDataInternal_fits h h0 hmax (d := ⟨0, 0, skip⟩) le_rfl (hfirst.1.trans hfirst.2)
  obtain ⟨b₂, hb₂, hle₂, h₂⟩ := volInitDataInternal_fits h h0 hmax (d := ⟨segmentsFor b₁, bucketsFor b₁, skip + dirSpace b₁⟩)
    (hspace b₁ hb₁ hle₁).1 (hspace b₁ hb₁ hle₁).2
  obtain ⟨b₃, hb₃, hle₃, h₃⟩ := volInitDataInternal_fits h h0 hmax (d := ⟨segmentsFor b₂, bucketsFor b₂, skip + dirSpace b₂⟩)
    (hspace b₂ hb₂ hle₂).1 (hspace b₂ hb₂ hle₂).2
  exact ⟨b₃, hb₃, hle₃, Option.bind_eq_some_iff.2 ⟨_, h₁, Option.bind_eq_some_iff.2 ⟨_, h₂, h₃⟩⟩⟩

/-- two directories of `b` buckets, where the volume goes on behind them -/
theorem geometryOk (hb : 1 ≤ b) (hlen : dirSpace b < len) : GeometryOk skip len ⟨segmentsFor b, bucketsFor b, skip + dirSpace b⟩ := by
  obtain ⟨hs, -, -⟩ := segmentsFor_bounds hb
  obtain ⟨hone, hmax, -, -⟩ := bucketsFor_bounds hb
  refine ⟨hs, hone, ?_, ?_, ?_⟩
  · simp only [DIR_DEPTH, MAX_ENTRIES_PER_SEGMENT]
    push_cast
    omega
  · have hheader := (roundToStoreBlock_bounds (sizeofVolHeaderFooter + 2 * (segmentsFor b - 1))).1
    have hdir := (roundToStoreBlock_bounds (bucketsFor b * DIR_DEPTH * segmentsFor b * SIZEOF_DIR)).1
    have hfooter := (roundToStoreBlock_bounds sizeofVolHeaderFooter).1
    dsimp only
    rw [dirSpace]
    omega
  · dsimp only
    omega

/-- Without a bucket the next round starts with more than the volume, so it has at least as many as the first. -/
theorem fits_of_geometryOk (h0 : 0 ≤ len) (hmax : len ≤ MAX_VOL_SIZE) (h : volInitData m skip len = some d) (hok : GeometryOk skip len d) :
    Fits m len := by
  obtain ⟨d₁, d₂, h₁, h₂, h₃⟩ := volInitData_some h
  obtain ⟨hm0, h₁⟩ := volInitDataInternal_some h₁
  obtain ⟨-, h₂⟩ := volInitDataInternal_some h₂
  obtain ⟨-, h₃⟩ := volInitDataInternal_some h₃
  have hsize : MAX_VOL_SIZE = 562949953421312 := rfl
  have hend := hok.start
  have hpos : ¬ totalBuckets m skip len d₂.start ≤ 0 := by
    intro hle
    have hback := (divideBuckets_neg hle h₃).2
    have hcopies := hok.copies
    have hsegs := hok.segments
    have hentries : 0 ≤ d.buckets * DIR_DEPTH * d.segments * SIZEOF_DIR :=
      mul_nonneg (mul_nonneg (mul_nonneg (by have := hok.buckets; omega) (by decide)) (by omega)) (by decide)
    have hfooter : sizeofVolHeaderFooter = 80 := rfl
    omega
  have hm : 0 < m := by
    refine lt_of_le_of_ne (not_lt.1 fun hneg => hpos ?_) (Ne.symm hm0)
    have hback₁ := (divideBuckets_neg (totalBuckets_nonpos (.inl ⟨by dsimp only; omega, hneg⟩)) h₁).2
    have hback₂ := (divideBuckets_neg (totalBuckets_nonpos (.inl ⟨by omega, hneg⟩)) h₂).2
    exact totalBuckets_nonpos (.inl ⟨by omega, hneg⟩)
  refine ⟨hm, not_lt.1 fun hlt => ?_⟩
  rw [show totalBuckets m skip len skip = len / m / 4 by rw [totalBuckets_nonneg hm (by omega), sub_self, sub_zero]] at h₁
  have hone : 1 ≤ len / m / 4 := by
    by_contra hle
    have hnonneg := Int.ediv_nonneg (Int.ediv_nonneg h0 hm.le) (show (0 : ℤ) ≤ 4 by decide)
    have hlow := (divideBuckets_neg (by omega) h₁).1
    omega
  -- the first round leaves no room for a bucket
  have hspace : len - (d₁.start - skip) < 4 * m := by
    rcases le_or_gt (len / m / 4) (2 ^ 43) with hle | hgt
    · rw [divideBuckets_eq hone hle] at h₁
      obtain rfl := Option.some.inj h₁
      dsimp only
      omega
    · have hlow := divideBuckets_low h₁
      omega
  obtain ⟨hlow, hback⟩ := divideBuckets_neg (totalBuckets_nonpos (.inr ⟨hspace, hm⟩)) h₂
  have hover : len < d₁.start - skip := by
    by_contra hle
    rw [totalBuckets_nonneg hm (by omega)] at hlow
    have hnonneg := Int.ediv_nonneg (Int.ediv_nonneg (show 0 ≤ len - (d₁.start - skip) by omega) hm.le) (show (0 : ℤ) ≤ 4 by decide)
    omega
  -- and the third makes room for as many as the first
  rw [totalBuckets_nonneg hm (by omega)] at h₃
  have hle : len / m / 4 ≤ (len - (d₂.start - skip)) / m / 4 := Int.ediv_le_ediv (by decide) (Int.ediv_le_ediv hm (by omega))
  rcases le_or_gt ((len - (d₂.start - skip)) / m / 4) (2 ^ 43) with hsmall | hbig
  · have hmono := dirSpace_mono hone hle
    rw [divideBuckets_eq hone (hle.trans hsmall)] at h₁
    rw [divideBuckets_eq (hone.trans hle) hsmall] at h₃
    obtain rfl := Option.some.inj h₁
    obtain rfl := Option.some.inj h₃
    dsimp only at hend hover
    omega
  · have hstart := divideBuckets_low h₃
    omega

/-- For every length up to the largest of a volume, the three rounds end with a sound geometry exactly if the average object size is positive
and four objects of it have room behind two directories for a volume full of them. -/
theorem vol_init_data_iff (m skip len : ℤ) (h0 : 0 ≤ len) (hmax : len ≤ MAX_VOL_SIZE) :
    (∃ d, volInitData m skip len = some d ∧ GeometryOk skip len d) ↔ Fits m len := by
  refine ⟨fun ⟨d, h, hok⟩ => fits_of_geometryOk h0 hmax h hok, fun h => ?_⟩
  obtain ⟨b, hb, hle, heq⟩ := @volInitData_fits m skip len h h0 hmax
  have hmono := dirSpace_mono hb hle
  exact ⟨_, heq, geometryOk hb (by have := h.1; have := h.2; omega)⟩

/-- 128 MB, the smallest size that `volume.config` may give, with the default average -/
theorem vol_init_data_iff_128_mb : (0 : ℤ) ≤ 134217728 ∧ (134217728 : ℤ) ≤ MAX_VOL_SIZE ∧
    ((∃ d, volInitData 8000 8192 134217728 = some d ∧ GeometryOk 8192 134217728 d) ↔ Fits 8000 134217728) ∧ Fits 8000 134217728 :=
  ⟨by decide, by decide, vol_init_data_iff 8000 8192 134217728 (by decide) (by decide), by unfold Fits; decide⟩

/-- A volume of 64 kB: the directory of the first round leaves less than four objects, and the second divides by zero segments. -/
theorem small_volume : ¬ ∀ m skip len, 0 < m → 0 < len → len ≤ MAX_VOL_SIZE →
    ∃ d, volInitData m skip len = some d ∧ GeometryOk skip len d := by
  intro hall
  obtain ⟨d, h, -⟩ := hall 8000 8192 65536 (by decide) (by decide) (by decide)
  rw [show volInitData 8000 8192 65536 = none by decide] at h
  cases h

end TrafficServer.Cache.VolInit
