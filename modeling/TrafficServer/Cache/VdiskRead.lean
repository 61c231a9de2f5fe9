/-
The read that stands for an object of the virtual disk (`Cache::open_read` and `CacheVC::openReadStartHead` in
`iocore/cache/CacheRead.cc`, `CacheVC::handleRead` and `handleReadDone` in `iocore/cache/Cache.cc`).

With a virtual disk, a hit is decided by `vdisk_cache->lookup`, which returns the length of the object. The bytes are then
read from a place that is made up from the key: `key->b[0]`, masked with `len - 1`, without bit 30, aligned to 4 KB, and
counted from `start`. A directory entry is made for it, of the object's length with a document header, rounded as any
entry's; `handleRead` cuts the read at the end of the volume; `handleReadDone` writes a document header over what was read.

`FakedReadOk` is what the read should be. The masked offset is less than `len`, but counted from `start` it need not be in
the volume: clearing bit 30 keeps the last GB out only if that bit is set in `len - 1`. And an entry expresses at most
16 MB. `faked_read_ok_iff` is the exact condition; `faked_read_past_end` is a volume of 5 GB where it fails.
-/
import Mathlib
import TrafficServer.Cache.Vol

namespace TrafficServer.Cache.Vdisk

def VDOC_HEADER_LEN : ℕ := 2320

/-- a volume of a size that `Vol::init` asserts -/
structure VolSpace extends VolGeom where
  lenPos : 0 < len
  lenMax : len ≤ 512 * 1024 * 1024 * 1024 * 1024

/-- the masked part of the offset -/
def maskedOffset (g : VolSpace) (key : CacheKey) : ℕ :=
  (BitVec.ofNat 64 key.b0 &&& BitVec.ofInt 64 (g.len - 1) &&& ~~~(1#64 <<< 30) &&& ~~~0xfff#64).toNat

/-- the entry that is made up for the key of an object of `valueLen` bytes, over whatever `e` held -/
def fakedDir (g : VolSpace) (key : CacheKey) (valueLen : BitVec 64) (e : Dir) : Dir :=
  let aioOffset : ℤ := maskedOffset g key + g.start
  let e := e.setOffset (g.offsetToVolOffset aioOffset).toNat
  let aggLen := g.roundToApproxSize ((valueLen.toNat + VDOC_HEADER_LEN + sizeofDoc) % 2 ^ 64 % 2 ^ 32)
  let e := (e.setApproxSize aggLen).setTag (key.slice32 2)
  ((((e.setPhase false).setHead true).setPinned false).setToken false).setNext 0

/-- `do_read_call` and `handleRead`: offset and length of the read; the length is a `size_t` -/
def handleRead (g : VolGeom) (dir : Dir) : ℤ × ℕ :=
  let nbytes := dir.approxSize
  let offset := g.volOffset dir
  (offset, if offset + nbytes > g.skip + g.len then ((g.skip + g.len - offset) % 2 ^ 64).toNat else nbytes)

/-- `doc->len` after `handleReadDone` -/
def fakedDocLen (valueLen : BitVec 64) : ℕ := (valueLen.toNat + VDOC_HEADER_LEN + sizeofDoc) % 2 ^ 64 % 2 ^ 32

/-- the read has a length, is inside the data of the volume and covers the document made of it -/
def FakedReadOk (g : VolSpace) (key : CacheKey) (valueLen : BitVec 64) (e : Dir) : Prop :=
  let io := handleRead g.toVolGeom (fakedDir g key valueLen e)
  0 < io.2 ∧ g.start ≤ io.1 ∧ io.1 + io.2 ≤ g.skip + g.len ∧ fakedDocLen valueLen ≤ io.2

instance (g : VolSpace) (key : CacheKey) (valueLen : BitVec 64) (e : Dir) : Decidable (FakedReadOk g key valueLen e) :=
  inferInstanceAs (Decidable (_ ∧ _ ∧ _ ∧ _))

/-! ## The offset -/

section Offset

variable (g : VolSpace) (key : CacheKey)

theorem maskedOffset_aligned : maskedOffset g key % 2 ^ 12 = 0 := by
  unfold maskedOffset
  rw [BitVec.toNat_and, Nat.and_mod_two_pow]
  exact Nat.and_zero _

theorem maskedOffset_lt : (maskedOffset g key : ℤ) < g.len := by
  have hpos := g.lenPos
  have hmax := g.lenMax
  have hlen : (BitVec.ofInt 64 (g.len - 1)).toNat = (g.len - 1).toNat := by
    rw [BitVec.toNat_ofInt]
    omega
  have hle : maskedOffset g key ≤ (g.len - 1).toNat := by
    unfold maskedOffset
    rw [BitVec.toNat_and, BitVec.toNat_and, BitVec.toNat_and, hlen]
    calc _ ≤ (BitVec.ofNat 64 key.b0).toNat &&& (g.len - 1).toNat := Nat.and_le_left.trans Nat.and_le_left
      _ ≤ (g.len - 1).toNat := Nat.and_le_right
  omega

theorem fakedDir_offset (valueLen : BitVec 64) (e : Dir) : (fakedDir g key valueLen e).offset =
    (e.setOffset (g.offsetToVolOffset (maskedOffset g key + g.start)).toNat).offset := by
  simp only [fakedDir, Dir.setNext_offset, Dir.setToken, Dir.setPinned, Dir.setHead, Dir.setPhase, Dir.setBit_offset,
    Dir.setTag_offset, Dir.setApproxSize_offset]

theorem fakedDir_approxSize (valueLen : BitVec 64) (e : Dir) : (fakedDir g key valueLen e).approxSize =
    ((e.setOffset (g.offsetToVolOffset (maskedOffset g key + g.start)).toNat).setApproxSize
      (g.roundToApproxSize (fakedDocLen valueLen))).approxSize := by
  simp only [fakedDir, Dir.setNext_approxSize, Dir.setToken, Dir.setPinned, Dir.setHead, Dir.setPhase,
    Dir.setBit_approxSize, Dir.setTag_approxSize, fakedDocLen]

/-- the offset survives its way through the directory entry -/
theorem volOffset_fakedDir (valueLen : BitVec 64) (e : Dir) :
    g.volOffset (fakedDir g key valueLen e) = g.start + maskedOffset g key := by
  have hlt := maskedOffset_lt g key
  have hmax := g.lenMax
  have halign := maskedOffset_aligned g key
  have hblock : (CACHE_BLOCK_SIZE : ℤ) = 512 := rfl
  have hoffset : g.offsetToVolOffset (maskedOffset g key + g.start) = maskedOffset g key / 512 + 1 := by
    unfold VolGeom.offsetToVolOffset
    rw [hblock, Int.tdiv_eq_ediv_of_nonneg (by omega)]
    omega
  have hdir : (fakedDir g key valueLen e).offset = maskedOffset g key / 512 + 1 := by
    rw [fakedDir_offset, hoffset, Dir.setOffset_offset]
    · omega
    · omega
  unfold VolGeom.volOffset
  rw [hdir, hblock]
  omega

end Offset

/-! ## The length -/

/-- an entry is made for at least the document, up to 16 MB -/
theorem fakedDocLen_le_approxSize (g : VolSpace) (key : CacheKey) (valueLen : BitVec 64) (e : Dir)
    (h : fakedDocLen valueLen ≤ 2 ^ 24) : fakedDocLen valueLen ≤ (fakedDir g key valueLen e).approxSize := by
  rcases Nat.eq_zero_or_pos (fakedDocLen valueLen) with h0 | hpos
  · rw [h0]
    exact Nat.zero_le _
  · have hge := g.roundToApproxSize_ge (l := fakedDocLen valueLen) (by omega)
    have hle := g.roundToApproxSize_le h
    rw [fakedDir_approxSize]
    exact hge.trans (Dir.setApproxSize_ge _ (by omega) hle)

/-- A made-up read has a length, is inside the volume and covers its document exactly if the document is at most 16 MB and
ends before the volume does when it is placed at the masked offset. -/
theorem faked_read_ok_iff (g : VolSpace) (key : CacheKey) (valueLen : BitVec 64) (e : Dir) :
    FakedReadOk g key valueLen e ↔
      fakedDocLen valueLen ≤ 2 ^ 24 ∧ g.start + maskedOffset g key + max 1 (fakedDocLen valueLen) ≤ g.skip + g.len := by
  obtain ⟨hpos, hmax⟩ := (fakedDir g key valueLen e).approxSize_bounds
  have hoffset := volOffset_fakedDir g key valueLen e
  have hge := fakedDocLen_le_approxSize g key valueLen e
  unfold FakedReadOk handleRead
  simp only [hoffset]
  split_ifs with hcut
  · rcases lt_or_ge (g.skip + g.len) (g.start + maskedOffset g key) with hout | hin
    · -- behind the end: the length wraps around
      have hwrap : ((g.skip + g.len - (g.start + maskedOffset g key)) % 2 ^ 64).toNat + (g.start + maskedOffset g key) >
          g.skip + g.len := by omega
      refine iff_of_false (fun h => ?_) (fun h => ?_)
      · have := h.2.2.1
        omega
      · have := h.2
        omega
    · have hlt := maskedOffset_lt g key
      have hlen : (((g.skip + g.len - (g.start + maskedOffset g key)) % 2 ^ 64).toNat : ℤ) =
          g.skip + g.len - (g.start + maskedOffset g key) := by omega
      constructor
      · intro h
        refine ⟨?_, ?_⟩ <;> omega
      · intro h
        refine ⟨?_, ?_, ?_, ?_⟩ <;> omega
  · constructor
    · intro h
      refine ⟨?_, ?_⟩ <;> omega
    · intro h
      have := hge h.1
      refine ⟨?_, ?_, ?_, ?_⟩ <;> omega

/-- a volume of 5 GB, whose `len - 1` does not have bit 30 -/
def space5G : VolSpace := ⟨⟨14680064, 32768, 5368709120, 512, by decide, sector512_dvd⟩, by decide, by decide⟩

/-- A key of ones is read from behind the end of the volume, with a length that has wrapped around. -/
theorem faked_read_past_end :
    handleRead space5G.toVolGeom (fakedDir space5G ⟨fun _ => 0xff⟩ 1000#64 Dir.zero) = (5383385088, 18446744073694908416) ∧
      space5G.skip + space5G.len = 5368741888 ∧ ¬ FakedReadOk space5G ⟨fun _ => 0xff⟩ 1000#64 Dir.zero := by
  decide +kernel

end TrafficServer.Cache.Vdisk
