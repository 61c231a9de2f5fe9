/-
The volume blocks of a disk (`CacheDisk` in `iocore/cache/CacheDisk.cc` and `P_CacheDisk.h`).

The header of a disk has an array `vol_info` of volume blocks, each used by a volume or free. The blocks of a volume are in
the queue of its `DiskVol`, the free ones in that of `free_blocks`; a queue holds indices of the array here, where the code
has pointers into it. `create_volume` takes the first free block that is large enough, or else the largest, and splits
it if 128 MB or more are left. `delete_volume` frees the blocks of a volume, `delete_all_volumes` makes the usable area one
free block, and `update_header` builds the queues from the array, also after a restart (`reopen`).

`header` and `disk_vols` are allocated by `open`, for blocks of 128 MB; `overrun` is set when an entry is written behind
their end, where the code has no check.

`LayoutOk` is what the header should say of the disk; the invariant behind it, and when it holds, are in `DiskVolInv`.

Left out: `new_block` of the queue entries and `num_blocks` and `magic` of the header, which nothing here reads.
-/
import Mathlib
import TrafficServer.Cache.Vol

namespace TrafficServer.Cache.Disk

/-! ## Model -/

def STORE_BLOCK_SHIFT : ℕ := 13
def VOL_BLOCK_SIZE : ℕ := 1024 * 1024 * 128
def MIN_VOL_SIZE : ℕ := VOL_BLOCK_SIZE
def MAX_VOL_SIZE : ℕ := 512 * 1024 * 1024 * 1024 * 1024

def sizeofDiskHeader : ℕ := 56
def sizeofDiskVolBlock : ℕ := 24

/-- `blocks_per_vol`, the store blocks of 128 MB -/
def blocksPerVol : ℕ := VOL_BLOCK_SIZE / STORE_BLOCK_SIZE

def maxBlocks : ℕ := MAX_VOL_SIZE / 2 ^ STORE_BLOCK_SHIFT

/-- what `open` fixes: the usable area, and how many entries the two arrays have -/
structure Span where
  start : ℕ
  numUsableBlocks : ℤ
  volInfoRoom : ℕ
  diskVolsRoom : ℕ
  area_lt : start + numUsableBlocks * STORE_BLOCK_SIZE < 2 ^ 63

def headerLen (l : ℕ) : ℕ :=
  if l ≥ MIN_VOL_SIZE then sizeofDiskHeader + (l / MIN_VOL_SIZE - 1) * sizeofDiskVolBlock else sizeofDiskHeader

/-- the three rounds of `open`: the last `l`, and the length of the header before it is rounded -/
def approximate (bytes : ℕ) : ℕ × ℕ :=
  let l := bytes - headerLen bytes
  let l := bytes - headerLen l
  (l, headerLen l)

theorem area_le (askip blocks header : ℕ) :
    ((askip + header : ℕ) : ℤ) + ((blocks * STORE_BLOCK_SIZE : ℕ) - (header : ℤ)) / 2 ^ STORE_BLOCK_SHIFT * STORE_BLOCK_SIZE ≤
      askip + (blocks * STORE_BLOCK_SIZE : ℕ) := by
  simp only [STORE_BLOCK_SIZE, STORE_BLOCK_SHIFT]
  omega

/-- the span of `blocks` store blocks from `askip` on; `header_len` is an int, which is enough for these -/
def openSpan (blocks askip : ℕ) (h : 0 < blocks ∧ askip + blocks * STORE_BLOCK_SIZE < 2 ^ 53) : Span where
  start := askip + INK_ALIGN (approximate (blocks * STORE_BLOCK_SIZE)).2 STORE_BLOCK_SIZE
  numUsableBlocks :=
    ((blocks * STORE_BLOCK_SIZE : ℕ) - (INK_ALIGN (approximate (blocks * STORE_BLOCK_SIZE)).2 STORE_BLOCK_SIZE : ℤ)) /
      2 ^ STORE_BLOCK_SHIFT
  volInfoRoom := (INK_ALIGN (approximate (blocks * STORE_BLOCK_SIZE)).2 STORE_BLOCK_SIZE -
    (sizeofDiskHeader - sizeofDiskVolBlock)) / sizeofDiskVolBlock
  diskVolsRoom := (approximate (blocks * STORE_BLOCK_SIZE)).1 / MIN_VOL_SIZE + 1
  area_lt := lt_of_le_of_lt (area_le askip blocks _) (by have := h.2; push_cast at this ⊢; omega)

structure DiskVolBlock where
  /-- in bytes -/
  offset : ℕ
  /-- in store blocks -/
  len : ℕ
  number : ℤ
  type : ℕ
  free : Bool
deriving DecidableEq

structure DiskVol where
  numVolblocks : ℤ
  volNumber : ℤ
  size : ℤ
  dpbQueue : List ℕ

structure CacheDisk where
  volInfo : ℕ → DiskVolBlock
  numFree : ℤ
  numUsed : ℤ
  numDiskvolBlks : ℕ
  freeSpace : ℤ
  wastedSpace : ℤ
  freeBlocks : DiskVol
  /-- the first `num_volumes` entries of `disk_vols` -/
  diskVols : List DiskVol
  cleared : Bool
  overrun : Bool

def CACHE_NONE_TYPE : ℕ := 0

/-- a `uint64_t` -/
def u64 (x : ℤ) : ℕ := (x % 2 ^ 64).toNat

/-- block `b` into the queue of its volume; a volume that is not there is added -/
def enqueueVol (number : ℤ) (b len : ℕ) : List DiskVol → List DiskVol
  | [] => [{ numVolblocks := 1, volNumber := number, size := len, dpbQueue := [b] }]
  | dv :: vols =>
    if dv.volNumber = number then
      { dv with dpbQueue := dv.dpbQueue ++ [b], numVolblocks := dv.numVolblocks + 1, size := dv.size + len } :: vols
    else dv :: enqueueVol number b len vols

namespace CacheDisk

def addToDiskVol (sp : Span) (s : CacheDisk) (b : ℕ) : CacheDisk :=
  let number := (s.volInfo b).number
  { s with
    diskVols := enqueueVol number b (s.volInfo b).len s.diskVols
    overrun := s.overrun ||
      (s.diskVols.all (fun dv => dv.volNumber ≠ number) && decide (sp.diskVolsRoom ≤ s.diskVols.length)) }

/-- the rest of a free block as a new one, from `size` blocks on -/
def splitOff (sp : Span) (s : CacheDisk) (p : DiskVolBlock) (size : ℤ) : CacheDisk :=
  let n := s.numDiskvolBlks
  let dpb := { p with len := u64 (p.len - size), offset := u64 (p.offset + size * STORE_BLOCK_SIZE) }
  { s with
    volInfo := Function.update s.volInfo n dpb
    freeBlocks := { s.freeBlocks with dpbQueue := s.freeBlocks.dpbQueue ++ [n], size := s.freeBlocks.size + dpb.len }
    freeSpace := s.freeSpace + dpb.len
    numDiskvolBlks := n + 1
    overrun := s.overrun || decide (sp.volInfoRoom ≤ n) }

/-- `create_volume` from where the block is known -/
def allocate (sp : Span) (s : CacheDisk) (b : ℕ) (number size : ℤ) (scheme : ℕ) : CacheDisk :=
  let p := s.volInfo b
  let s := { s with
    freeBlocks := { s.freeBlocks with dpbQueue := s.freeBlocks.dpbQueue.erase b, size := s.freeBlocks.size - p.len }
    freeSpace := s.freeSpace - p.len }
  let newSize := u64 (p.len - size)
  let s := if newSize ≥ blocksPerVol then s.splitOff sp p size else { s with numFree := s.numFree - 1 }
  let s := { s with
    volInfo := Function.update s.volInfo b { p with len := u64 size, free := false, number, type := scheme }
    numUsed := s.numUsed + 1 }
  s.addToDiskVol sp b

end CacheDisk

/-- the loop of `create_volume` over the free blocks: one of that size, or else the largest -/
def search (len : ℕ → ℕ) (size : ℤ) : ℕ → List ℕ → ℕ × Bool
  | closestMatch, [] => (closestMatch, false)
  | closestMatch, q :: queue =>
    if size ≤ len q then (q, true) else search len size (if len closestMatch < len q then q else closestMatch) queue

namespace CacheDisk

/-- `len` of a block -/
def lenOf (s : CacheDisk) (b : ℕ) : ℕ := (s.volInfo b).len

/-- the disk after it, and the block -/
def createVolume (sp : Span) (s : CacheDisk) (number : ℤ) (sizeInBlocks : BitVec 64) (scheme : ℕ) : CacheDisk × Option ℕ :=
  if sizeInBlocks = 0 then (s, none)
  else
    match s.freeBlocks.dpbQueue with
    | [] => (s, none)
    | q :: queue =>
      let size := if sizeInBlocks.toInt ≤ maxBlocks then sizeInBlocks.toInt else maxBlocks
      match search s.lenOf size q (q :: queue) with
      | (b, true) => (s.allocate sp b number size scheme, some b)
      | (b, false) =>
        let waste := s.lenOf b % blocksPerVol
        ({ s with wastedSpace := s.wastedSpace + waste }.allocate sp b number (s.lenOf b - waste : ℕ) scheme, some b)

/-- one block of a volume that is deleted -/
def freeBlock (s : CacheDisk) (b : ℕ) : CacheDisk :=
  { s with
    volInfo := Function.update s.volInfo b { s.volInfo b with type := CACHE_NONE_TYPE, free := true }
    freeSpace := s.freeSpace + s.lenOf b
    numFree := s.numFree + 1
    numUsed := s.numUsed - 1
    freeBlocks := { s.freeBlocks with dpbQueue := s.freeBlocks.dpbQueue ++ [b] } }

def deleteVolume (s : CacheDisk) (number : ℤ) : CacheDisk × ℤ :=
  match s.diskVols.find? (fun dv => dv.volNumber = number) with
  | none => (s, -1)
  | some dv =>
    let s := dv.dpbQueue.foldl freeBlock s
    ({ s with
      freeBlocks := { s.freeBlocks with
        numVolblocks := s.freeBlocks.numVolblocks + dv.numVolblocks, size := s.freeBlocks.size + dv.size }
      diskVols := s.diskVols.eraseP fun dv => dv.volNumber = number }, 0)

/-- one entry of the array, in `update_header` -/
def placeBlock (sp : Span) (s : CacheDisk) (i : ℕ) : CacheDisk :=
  if (s.volInfo i).free then
    { s with
      freeBlocks := { s.freeBlocks with
        numVolblocks := s.freeBlocks.numVolblocks + 1, size := s.freeBlocks.size + s.lenOf i
        dpbQueue := s.freeBlocks.dpbQueue ++ [i] }
      freeSpace := s.freeSpace + s.lenOf i }
  else s.addToDiskVol sp i

def updateHeader (sp : Span) (s : CacheDisk) : CacheDisk :=
  (List.range s.numDiskvolBlks).foldl (placeBlock sp)
    { s with
      freeBlocks := { numVolblocks := 0, volNumber := -1, size := 0, dpbQueue := [] }
      freeSpace := 0
      diskVols := [] }

def deleteAllVolumes (sp : Span) (s : CacheDisk) : CacheDisk :=
  updateHeader sp { s with
    volInfo := Function.update s.volInfo 0 { s.volInfo 0 with
      offset := sp.start, len := u64 sp.numUsableBlocks, type := CACHE_NONE_TYPE, free := true }
    numUsed := 0
    numFree := 1
    numDiskvolBlks := 1
    cleared := true }

/-- a new process that reads the header back -/
def reopen (sp : Span) (s : CacheDisk) : CacheDisk := updateHeader sp { s with wastedSpace := 0, cleared := false }

/-- the object before `open`, with the header zeroed -/
def fresh : CacheDisk :=
  { volInfo := fun _ => ⟨0, 0, 0, 0, false⟩, numFree := 0, numUsed := 0, numDiskvolBlks := 0, freeSpace := 0, wastedSpace := 0
    freeBlocks := ⟨0, -1, 0, []⟩, diskVols := [], cleared := false, overrun := false }

end CacheDisk

inductive Op where
  | createVolume (number : ℤ) (sizeInBlocks : BitVec 64) (scheme : ℕ)
  | deleteVolume (number : ℤ)
  | deleteAllVolumes
  | reopen

def step (sp : Span) (s : CacheDisk) : Op → CacheDisk
  | .createVolume number sizeInBlocks scheme => (s.createVolume sp number sizeInBlocks scheme).1
  | .deleteVolume number => (s.deleteVolume number).1
  | .deleteAllVolumes => s.deleteAllVolumes sp
  | .reopen => s.reopen sp

/-- a disk that `open` clears -/
def clearDisk (sp : Span) : CacheDisk := CacheDisk.fresh.deleteAllVolumes sp

/-! ## What the header should say -/

/-- the byte behind a block -/
def DiskVolBlock.stop (v : DiskVolBlock) : ℕ := v.offset + v.len * STORE_BLOCK_SIZE

/-- the blocks of the header with a property, and their lengths added up -/
def CacheDisk.blocks (s : CacheDisk) (p : DiskVolBlock → Bool) : List ℕ :=
  (List.range s.numDiskvolBlks).filter fun i => p (s.volInfo i)

def CacheDisk.total (s : CacheDisk) (p : DiskVolBlock → Bool) : ℕ := ((s.blocks p).map s.lenOf).sum

structure LayoutOk (sp : Span) (s : CacheDisk) : Prop where
  disjoint : ∀ i < s.numDiskvolBlks, ∀ j < s.numDiskvolBlks, i ≠ j →
    (s.volInfo i).stop ≤ (s.volInfo j).offset ∨ (s.volInfo j).stop ≤ (s.volInfo i).offset
  len_pos : ∀ i < s.numDiskvolBlks, 0 < (s.volInfo i).len
  inside : ∀ i < s.numDiskvolBlks, sp.start ≤ (s.volInfo i).offset ∧
    ((s.volInfo i).stop : ℤ) ≤ sp.start + sp.numUsableBlocks * STORE_BLOCK_SIZE
  freeSpace_eq : s.freeSpace = s.total fun v => v.free
  freeBlocks_size : s.freeBlocks.size = s.total fun v => v.free
  counts : s.numUsed + s.numFree = s.numDiskvolBlks
  diskVol_size : ∀ dv ∈ s.diskVols, dv.size = s.total fun v => !v.free && v.number = dv.volNumber
  diskVol_covers : ∀ i < s.numDiskvolBlks, (s.volInfo i).free = false → ∃ dv ∈ s.diskVols, dv.volNumber = (s.volInfo i).number
  no_overrun : s.overrun = false

end TrafficServer.Cache.Disk
