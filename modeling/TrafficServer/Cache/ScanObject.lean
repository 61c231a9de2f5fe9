/-
The scan of a cache (`CacheVC::scanObject` in `iocore/cache/CacheVol.cc`), and when the scans of a disk are safe.

Like the recovery scan it goes from a document to the next by the rounded length that the document gives, over a buffer that a read has filled;
what has no document is skipped by a block. An object that goes over the end of the buffer is moved to its beginning, and the next read fills the
rest (`scan_fix_buffer_offset`). What the body does with an HTTP object depends on the directory and on the caller: it goes on, or leaves the
function. `Safe` is for all that it may do.

Here the offsets have 64 bits, so the only way not to end is a document of rounded length zero (`safe_iff`). `disk_scan_safe_iff` puts both scans
together. Counterexamples: a document of length zero, and for the recovery one that is longer than the buffer (`unsafe_scans`).
-/
import Mathlib
import TrafficServer.Cache.RecoverScan

namespace TrafficServer.Cache.ScanObject

open TrafficServer.Loop RecoverScan

/-! ## Model -/

def SCAN_BUF_SIZE : ℕ := RECOVERY_SIZE
def CACHE_FRAG_TYPE_HTTP : ℕ := 3

/-- the scan after a read, with the offset to go on at and the bytes that were in the buffer before; `map` is what `make_vol_map` found -/
structure Scan where
  start : ℤ
  skip : ℤ
  len : ℤ
  sectorSize : BitVec 32
  aioOffset : ℤ
  aioNbytes : ℕ
  aioResult : ℕ
  scanFixBufferOffset : ℕ
  offset : ℕ
  map : ℤ → Bool
  buffer : ℕ → Doc

/-- the bytes in the buffer, as if all had been read this time -/
def Scan.nbytes (c : Scan) : ℕ := c.aioNbytes + c.scanFixBufferOffset

/-- what the body does with an HTTP object: on to the next, perhaps with the rest of this one, or out of the function -/
inductive Visit where
  | skip (mightNeedOverlapRead : Bool)
  | leave

inductive State where
  | readDone
  | loop (doc nextObjectLen turn : ℕ) (mightNeedOverlapRead : Bool)

inductive Outcome where
  | readFail
  | leave
  | nextVol
  | read (aioOffset : ℤ) (aioNbytes : ℤ) (scanFixBufferOffset : ℕ)

/-- `next_in_map`, from the start of the data -/
def nextInMap (volLen : ℤ) (map : ℤ → Bool) (newOff : ℤ) : ℤ :=
  if newOff < volLen ∧ map (newOff / SCAN_BUF_SIZE) = false then nextInMap volLen map (newOff + SCAN_BUF_SIZE)
  else if volLen ≤ newOff then volLen else newOff
termination_by (volLen - newOff).toNat
decreasing_by
  have hsize : SCAN_BUF_SIZE = 8388608 := rfl
  omega

/-- `Lread` -/
def readAt (c : Scan) (aioOffset aioNbytes : ℤ) (scanFixBufferOffset : ℕ) : Outcome :=
  if c.skip + c.len ≤ aioOffset then .nextVol
  else if c.skip + c.len < aioOffset + aioNbytes then .read aioOffset (c.skip + c.len - aioOffset) scanFixBufferOffset
  else .read aioOffset aioNbytes scanFixBufferOffset

/-- after the loop -/
def finish (c : Scan) (doc nextObjectLen : ℕ) (mightNeedOverlapRead : Bool) : Outcome :=
  let aioOffset := c.aioOffset - c.scanFixBufferOffset
  if mightNeedOverlapRead ∧ c.nbytes < doc + nextObjectLen ∧ 0 < nextObjectLen then
    let partialObjectLen := c.nbytes - doc
    readAt c (aioOffset + c.nbytes) ((SCAN_BUF_SIZE : ℤ) - partialObjectLen) partialObjectLen
  else
    let startOffset := c.start - CACHE_BLOCK_SIZE
    readAt c (startOffset + nextInMap (c.skip + c.len - startOffset) c.map (aioOffset + (doc + nextObjectLen) - startOffset)) SCAN_BUF_SIZE 0

/-- the length of a document, or a block -/
def Scan.length (c : Scan) (p : ℕ) : ℕ :=
  if (c.buffer p).magic = DOC_MAGIC then roundToApproxSize c.sectorSize (c.buffer p).len else CACHE_BLOCK_SIZE

/-- One turn; `visit` is what the body does in each. -/
def step (c : Scan) (visit : ℕ → Visit) : State → State ⊕ Outcome
  | .readDone => if c.aioResult ≠ c.aioNbytes then .inr .readFail else .inl (.loop c.offset 0 0 false)
  | .loop doc nextObjectLen turn mightNeedOverlapRead =>
    if doc + nextObjectLen < c.nbytes then
      let doc := doc + nextObjectLen
      if (c.buffer doc).magic ≠ DOC_MAGIC then .inl (.loop doc CACHE_BLOCK_SIZE (turn + 1) false)
      else
        let nextObjectLen := roundToApproxSize c.sectorSize (c.buffer doc).len
        if (c.buffer doc).docType ≠ CACHE_FRAG_TYPE_HTTP ∨ (c.buffer doc).hlen = 0 then .inl (.loop doc nextObjectLen (turn + 1) false)
        else
          match visit turn with
          | .skip overlap => .inl (.loop doc nextObjectLen (turn + 1) overlap)
          | .leave => .inr .leave
    else .inr (finish c doc nextObjectLen mightNeedOverlapRead)

/-- the offset of the header that a turn reads -/
def reads (c : Scan) : State → Option ℕ
  | .readDone => none
  | .loop doc nextObjectLen _ _ => if doc + nextObjectLen < c.nbytes then some (doc + nextObjectLen) else none

/-- Whatever the body does, the loop ends and reads headers only within the bytes in the buffer. -/
def Safe (c : Scan) : Prop :=
  ∀ visit, Ends (step c visit) .readDone ∧
    ∀ s, Reaches (step c visit) .readDone s → ∀ p, reads c s = some p → p + sizeofDoc ≤ c.aioResult + c.scanFixBufferOffset

/-! ## The documents on the way -/

/-- where the loop comes to if the body never leaves -/
inductive Scan.Comes (c : Scan) : ℕ → Prop where
  | start (hread : c.aioResult = c.aioNbytes) : c.Comes c.offset
  | next {p : ℕ} (h : c.Comes p) (hlt : p < c.nbytes) : c.Comes (p + c.length p)

/-- No document on the way is of rounded length zero, and no header is cut off by the end of the bytes. -/
structure Ok (c : Scan) : Prop where
  zero : ∀ p, c.Comes p → p < c.nbytes → (c.buffer p).magic = DOC_MAGIC → roundToApproxSize c.sectorSize (c.buffer p).len ≠ 0
  cut : ∀ p, c.Comes p → p < c.nbytes → p + sizeofDoc ≤ c.nbytes

variable {c : Scan} {visit : ℕ → Visit} {s s' : State} {doc next turn p : ℕ} {overlap : Bool}

theorem Scan.Comes.read (h : c.Comes p) : c.aioResult = c.aioNbytes := by
  induction h with
  | start hread => exact hread
  | next _ _ ih => exact ih

/-- A turn leaves, or goes on with the length of the document that it looked at. -/
theorem step_loop (visit : ℕ → Visit) (turn : ℕ) (overlap : Bool) (hlt : doc + next < c.nbytes) :
    step c visit (.loop doc next turn overlap) = .inr .leave ∨
    ∃ o, step c visit (.loop doc next turn overlap) = .inl (.loop (doc + next) (c.length (doc + next)) (turn + 1) o) := by
  unfold step Scan.length
  dsimp only
  rw [if_pos hlt]
  by_cases hmagic : (c.buffer (doc + next)).magic = DOC_MAGIC
  · rw [if_neg (not_not.2 hmagic), if_pos hmagic]
    split_ifs
    · exact Or.inr ⟨_, rfl⟩
    · cases visit turn with
      | skip o => exact Or.inr ⟨_, rfl⟩
      | leave => exact Or.inl rfl
  · rw [if_pos hmagic, if_neg hmagic]
    exact Or.inr ⟨_, rfl⟩

/-- a body that never leaves -/
def stay : ℕ → Visit := fun _ => .skip false

theorem step_stay (turn : ℕ) (overlap : Bool) (hlt : doc + next < c.nbytes) : ∃ o,
    step c stay (.loop doc next turn overlap) = .inl (.loop (doc + next) (c.length (doc + next)) (turn + 1) o) := by
  rcases step_loop stay turn overlap hlt with hleave | hnext
  · unfold step stay at hleave
    dsimp only at hleave
    rw [if_pos hlt] at hleave
    split_ifs at hleave
  · exact hnext

/-! ## When the loop ends -/

def Inv (c : Scan) : State → Prop
  | .readDone => True
  | .loop doc next _ _ => c.Comes (doc + next)

theorem step_inv (h : Inv c s) (hstep : step c visit s = .inl s') : Inv c s' := by
  cases s with
  | readDone =>
    simp only [step] at hstep
    split_ifs at hstep with hread
    obtain rfl := Sum.inl.inj hstep
    exact .start (not_not.1 hread)
  | loop doc next turn overlap =>
    by_cases hlt : doc + next < c.nbytes
    · rcases step_loop visit turn overlap hlt with hleave | ⟨o, hnext⟩
      · rw [hleave] at hstep
        cases hstep
      · rw [hnext] at hstep
        obtain rfl := Sum.inl.inj hstep
        exact .next h hlt
    · simp only [step] at hstep
      rw [if_neg hlt] at hstep
      cases hstep

theorem reaches_inv (h : Reaches (step c visit) .readDone s) : Inv c s := by
  induction h with
  | refl => exact trivial
  | tail _ hstep ih => exact step_inv ih hstep

/-- the bytes in front of the next header -/
def left (c : Scan) : State → ℕ
  | .readDone => c.nbytes + 1
  | .loop doc next _ _ => c.nbytes - (doc + next)

theorem length_pos (hok : Ok c) (hcomes : c.Comes p) (hlt : p < c.nbytes) : 0 < c.length p := by
  unfold Scan.length
  split_ifs with hmagic
  · exact Nat.pos_of_ne_zero (hok.zero p hcomes hlt hmagic)
  · decide

theorem Ok.ends (hok : Ok c) (visit : ℕ → Visit) : Ends (step c visit) .readDone := by
  refine ends_of_measure (P := Inv c) (left c) ?_ trivial
  intro s hinv
  rcases hstep : step c visit s with s' | o
  · refine Or.inr ⟨s', rfl, Or.inr ⟨step_inv hinv hstep, ?_⟩⟩
    cases s with
    | readDone =>
      simp only [step] at hstep
      split_ifs at hstep
      rw [← Sum.inl.inj hstep]
      simp only [left]
      omega
    | loop doc next turn overlap =>
      by_cases hlt : doc + next < c.nbytes
      · have hpos := length_pos hok hinv hlt
        rcases step_loop visit turn overlap hlt with hleave | ⟨o, hnext⟩
        · rw [hleave] at hstep
          cases hstep
        · rw [hnext] at hstep
          rw [← Sum.inl.inj hstep]
          simp only [left]
          omega
      · simp only [step] at hstep
        rw [if_neg hlt] at hstep
        cases hstep
  · exact Or.inl ⟨o, rfl⟩

theorem Ok.read_le (hok : Ok c) (hr : Reaches (step c visit) .readDone s) (hread : reads c s = some p) :
    p + sizeofDoc ≤ c.aioResult + c.scanFixBufferOffset := by
  have hinv := reaches_inv hr
  cases s with
  | readDone => cases hread
  | loop doc next turn overlap =>
    simp only [reads] at hread
    split_ifs at hread with hlt
    obtain rfl := Option.some.inj hread
    have hcomes : c.Comes (doc + next) := hinv
    rw [hcomes.read]
    exact hok.cut _ hcomes hlt

theorem Scan.Comes.reached (h : c.Comes p) : ∃ doc next turn o, Reaches (step c stay) .readDone (.loop doc next turn o) ∧ doc + next = p := by
  induction h with
  | start hread =>
    refine ⟨c.offset, 0, 0, false, .single ?_, rfl⟩
    simp only [step]
    rw [if_neg (not_not.2 hread)]
  | next _ hlt ih =>
    obtain ⟨doc, next, turn, o, hr, rfl⟩ := ih
    obtain ⟨o', hnext⟩ := step_stay turn o hlt
    exact ⟨_, _, _, _, hr.tail hnext, rfl⟩

theorem safe_iff (c : Scan) : Safe c ↔ Ok c := by
  refine ⟨fun h => ⟨fun p hcomes hlt hmagic hzero => ?_, fun p hcomes hlt => ?_⟩,
    fun hok visit => ⟨hok.ends visit, fun s hr p => hok.read_le hr⟩⟩
  · obtain ⟨doc, next, turn, o, hr, rfl⟩ := hcomes.reached
    have hlength : c.length (doc + next) = 0 := by rw [Scan.length, if_pos hmagic, hzero]
    refine not_ends_of_kept (P := fun s => ∃ d n t o, s = State.loop d n t o ∧ d + n = doc + next) ?_ ⟨_, _, _, _, rfl, rfl⟩
      ((h stay).1.reaches hr)
    rintro s ⟨d, n, t, o, rfl, hsum⟩
    obtain ⟨o', hnext⟩ := step_stay t o (show d + n < c.nbytes by omega)
    refine ⟨_, hnext, _, _, _, _, rfl, ?_⟩
    rw [hsum, hlength, add_zero]
  · obtain ⟨doc, next, turn, o, hr, rfl⟩ := hcomes.reached
    have hread := (h stay).2 _ hr (doc + next) (if_pos hlt)
    rwa [hcomes.read] at hread

/-! ## Both scans -/

/-- For all that the disk may have, the scan after a recovery and that of a cache are safe exactly if the documents on their way are. -/
theorem disk_scan_safe_iff (v : Vol) (c : Scan) : (RecoverScan.Safe v ↔ RecoverScan.Ok v) ∧ (Safe c ↔ Ok c) :=
  ⟨RecoverScan.safe_iff v, safe_iff c⟩

/-- a volume of 128 MB with 512 bytes written since the last sync, when the first read of its recovery is done -/
def disk (buffer : ℕ → Doc) : Vol where
  start := 65536
  skip := 8192
  len := 134217728
  sectorSize := 512
  header := ⟨5, 1, 1049088, 1048576⟩
  recoverPos := 1048576
  prevRecoverPos := 1048576
  recoverWrapped := false
  lastSyncSerial := 0
  lastWriteSerial := 0
  aioOffset := 1048576
  aioNbytes := RECOVERY_SIZE
  aioResult := RECOVERY_SIZE
  buffer := buffer
  nbytesLe := le_rfl

/-- A document of length zero follows the one that is checked. -/
def emptyDocument : ℕ → Doc := fun p => ⟨DOC_MAGIC, if p = 0 then 100 else 0, 0, 0, 5, 1⟩

/-- The document that is checked is longer than the buffer. -/
def longDocument : ℕ → Doc := fun _ => ⟨DOC_MAGIC, 16777216, 0, 0, 5, 1⟩

/-- a scan that comes to a document of length zero -/
def emptyObject : Scan := ⟨65536, 8192, 134217728, 512, 1048576, 8388608, 8388608, 0, 0, fun _ => true, emptyDocument⟩

/-- A length of zero keeps both scans where they are, and one longer than the buffer makes the recovery read behind it. -/
theorem unsafe_scans : ¬ RecoverScan.Safe (disk emptyDocument) ∧ ¬ RecoverScan.Safe (disk longDocument) ∧ ¬ Safe emptyObject := by
  refine ⟨fun h => ?_, fun h => ?_, fun h => ?_⟩
  · have hchecked : (disk emptyDocument).Checked 512 5 := .next (.start rfl rfl) ⟨by decide, ⟨rfl, le_rfl⟩, by decide⟩
    exact h.zero (.start ⟨rfl, Or.inr ⟨hchecked, by decide⟩⟩) (fun hwrap => absurd hwrap.1 (by decide)) (by decide) ⟨rfl, Or.inl rfl⟩
      (by decide)
  · have hchecked : (disk longDocument).Checked 16777216 5 := .next (.start rfl rfl) ⟨by decide, ⟨rfl, le_rfl⟩, by decide⟩
    exact absurd (h.ends hchecked) (by decide)
  · have hcomes : emptyObject.Comes 512 := .next (.start rfl) (by decide)
    exact ((safe_iff _).1 h).zero 512 hcomes (by decide) rfl (by decide)

end TrafficServer.Cache.ScanObject
