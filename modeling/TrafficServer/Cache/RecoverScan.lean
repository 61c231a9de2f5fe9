/-
The recovery scan (`Vol::handle_recover_from_data` in `iocore/cache/Cache.cc`).

After a crash the volume is read from the last synced position on, to find how far it was written. A buffer of it is looked at in two loops: the
first goes over the documents that the directory knows already, the second over those written later. Both go from a document to the next by the
rounded length that the document itself gives, and nothing is checked of it: the bytes are what the disk has. `step` goes from one turn of a loop
to the next, `Safe` is that the loops end and read headers only within the bytes that were read.

`done` in the first loop and `got_len` after it have 32 bits. So a length can lead back in the first loop, and a document that ends behind the
bytes read makes the second loop start there with nearly 4 GB in front of it. In the second loop a length of zero, or one that is rounded to
2^32, keeps the scan where it is. `safe_iff` says that this is all, up to a header cut off by the end of the bytes.
-/
import Mathlib
import TrafficServer.Lib.Loop
import TrafficServer.Cache.Vol

namespace TrafficServer.Cache.RecoverScan

open Relation TrafficServer.Loop

/-! ## Model -/

def DOC_MAGIC : ℕ := 0x5F129B13
def RECOVERY_SIZE : ℕ := EVACUATION_SIZE

/-- what the scans read of the header of a document -/
structure Doc where
  magic : ℕ
  len : ℕ
  hlen : ℕ
  docType : ℕ
  syncSerial : ℕ
  writeSerial : ℕ

/-- the header of the directory -/
structure VolHeaderFooter where
  syncSerial : ℕ
  writeSerial : ℕ
  writePos : ℤ
  lastWritePos : ℤ

/-- `Vol::round_to_approx_size`, with the sector size that the disk gives -/
def roundToApproxSize (sectorSize : BitVec 32) (l : ℕ) : ℕ :=
  ((BitVec.ofNat 32 (roundToApproxDirSize l) + (sectorSize - 1)) &&& ~~~(sectorSize - 1)).toNat

/-- The volume as its header and the code have it, and the bytes read: `buffer p` is what a header at offset `p` would have. A read is never
for more than `RECOVERY_SIZE`. -/
structure Vol where
  start : ℤ
  skip : ℤ
  len : ℤ
  sectorSize : BitVec 32
  header : VolHeaderFooter
  recoverPos : ℤ
  prevRecoverPos : ℤ
  recoverWrapped : Bool
  lastSyncSerial : ℕ
  lastWriteSerial : ℕ
  aioOffset : ℤ
  aioNbytes : ℕ
  aioResult : ℕ
  buffer : ℕ → Doc
  nbytesLe : aioNbytes ≤ RECOVERY_SIZE

/-- the bytes from the last synced position to that of the header, in 32 bits -/
def Vol.toCheck (v : Vol) : ℕ := ((v.header.writePos - v.header.lastWritePos) % 2 ^ 32).toNat

def Vol.gotLen (v : Vol) (done : ℕ) : ℕ := (((v.aioNbytes : ℤ) - done) % 2 ^ 32).toNat

/-- the offset behind the document at `p` -/
def Vol.behind (v : Vol) (p : ℕ) : ℕ := p + roundToApproxSize v.sectorSize (v.buffer p).len

/-- where the function is: after the read, at the top of a loop, or at one of the two tests between the loops -/
inductive Point where
  | readDone
  | check (done : ℕ)
  | examine (s gotLen : ℕ)
  | first (s e : ℕ)
  | scan (s e last : ℕ)

structure State where
  point : Point
  lastSyncSerial : ℕ
  lastWriteSerial : ℕ
  maxSyncSerial : ℕ
  recoverPos : ℤ

/-- `Lclear`, `Ldone`, or the next read -/
inductive Outcome where
  | clear
  | done (recoverPos : ℤ) (recoverWrapped : Bool) (maxSyncSerial : ℕ)
  | read (recoverPos : ℤ) (recoverWrapped : Bool) (aioNbytes : ℤ) (lastSyncSerial lastWriteSerial : ℕ)

/-- the end of the function, for a read at `recoverPos` -/
def readMore (v : Vol) (σ : State) (recoverPos : ℤ) (recoverWrapped : Bool) (aioNbytes : ℤ) : Outcome :=
  if recoverPos = v.prevRecoverPos then .clear else .read recoverPos recoverWrapped aioNbytes σ.lastSyncSerial σ.lastWriteSerial

/-- the turn of the first loop at a valid document -/
def State.checked (v : Vol) (σ : State) (done : ℕ) : State :=
  { σ with
    point := .check (v.behind done % 2 ^ 32)
    lastSyncSerial := if σ.lastWriteSerial < (v.buffer done).syncSerial then (v.buffer done).syncSerial else σ.lastSyncSerial }

/-- After the second loop: what of the last document is behind the end is read again. -/
def scanned (v : Vol) (σ : State) (s e last : ℕ) : Outcome :=
  let s' : ℤ := if e < s then s - last else s
  let recoverPos := σ.recoverPos - (e - s')
  let recoverWrapped := v.recoverWrapped || decide (v.skip + v.len ≤ recoverPos)
  let recoverPos := if v.skip + v.len ≤ recoverPos then v.start else recoverPos
  let aioNbytes := if v.skip + v.len < recoverPos + RECOVERY_SIZE then v.skip + v.len - recoverPos else RECOVERY_SIZE
  readMore v σ recoverPos recoverWrapped aioNbytes

/-- The document at `s` does not go on: too close to the end the scan wraps around. -/
def stopped (v : Vol) (σ : State) (maxSyncSerial s e : ℕ) : Outcome :=
  let recoverPos := σ.recoverPos - ((e : ℤ) - s)
  if v.skip + v.len - AGG_SIZE < recoverPos then readMore v σ v.start true RECOVERY_SIZE
  else .done recoverPos v.recoverWrapped maxSyncSerial

def step (v : Vol) (σ : State) : State ⊕ Outcome :=
  match σ.point with
  | .readDone =>
    if v.aioResult ≠ v.aioNbytes then .inr .clear
    else if v.aioOffset = v.header.lastWritePos then .inl { σ with point := .check 0 }
    else .inl { σ with point := .examine 0 (v.gotLen 0), recoverPos := σ.recoverPos + v.aioNbytes }
  | .check done =>
    if done < v.toCheck then
      let doc := v.buffer done
      if doc.magic ≠ DOC_MAGIC ∨ v.header.writeSerial < doc.writeSerial then .inr .clear
      else .inl (σ.checked v done)
    else .inl { σ with point := .examine done (v.gotLen done), recoverPos := σ.recoverPos + v.aioNbytes }
  | .examine s gotLen =>
    if gotLen = 0 then .inr (readMore v σ σ.recoverPos v.recoverWrapped v.aioNbytes)
    else if v.recoverWrapped ∧ v.start = v.aioOffset then .inl { σ with point := .first s (s + gotLen) }
    else .inl { σ with point := .scan s (s + gotLen) 0 }
  | .first s e =>
    let doc := v.buffer s
    if doc.magic ≠ DOC_MAGIC ∨ doc.writeSerial < σ.lastWriteSerial then
      .inr (.done (v.skip + v.len - EVACUATION_SIZE) v.recoverWrapped σ.maxSyncSerial)
    else .inl { σ with point := .scan s e 0 }
  | .scan s e last =>
    if s < e then
      let doc := v.buffer s
      let next := Point.scan (v.behind s) e (v.behind s - s)
      if doc.magic = DOC_MAGIC then
        if doc.syncSerial = σ.lastSyncSerial then .inl { σ with point := next, lastWriteSerial := doc.writeSerial }
        else
          let maxSyncSerial := if v.header.syncSerial < doc.syncSerial then doc.syncSerial else σ.maxSyncSerial
          if σ.lastSyncSerial < doc.syncSerial ∧ doc.syncSerial ≤ (v.header.syncSerial + 1) % 2 ^ 32 then
            .inl { σ with point := next, lastSyncSerial := doc.syncSerial, maxSyncSerial := maxSyncSerial }
          else .inr (stopped v σ maxSyncSerial s e)
      else .inr (stopped v σ σ.maxSyncSerial s e)
    else .inr (scanned v σ s e last)

/-- `handle_recover_from_data` when a read is done -/
def init (v : Vol) : State := ⟨.readDone, v.lastSyncSerial, v.lastWriteSerial, v.header.syncSerial, v.recoverPos⟩

/-- the offset of the header that a step reads -/
def reads (v : Vol) (σ : State) : Option ℕ :=
  match σ.point with
  | .readDone => none
  | .check done => if done < v.toCheck then some done else none
  | .examine _ _ => none
  | .first s _ => some s
  | .scan s e _ => if s < e then some s else none

/-- The loops end, and they read headers only within the bytes read. -/
def Safe (v : Vol) : Prop :=
  Ends (step v) (init v) ∧ ∀ σ, Reaches (step v) (init v) σ → ∀ p, reads v σ = some p → p + sizeofDoc ≤ v.aioResult

/-! ## The documents on the way -/

/-- a document that the first loop takes -/
def Vol.Valid (v : Vol) (p : ℕ) : Prop := (v.buffer p).magic = DOC_MAGIC ∧ (v.buffer p).writeSerial ≤ v.header.writeSerial

/-- from a document that is to be checked to the next, in 32 bits -/
def Vol.Follows (v : Vol) (p q : ℕ) : Prop := p < v.toCheck ∧ v.Valid p ∧ q = v.behind p % 2 ^ 32

/-- where the first loop comes to, and the `last_sync_serial` that it comes with -/
inductive Vol.Checked (v : Vol) : ℕ → ℕ → Prop where
  | start (hread : v.aioResult = v.aioNbytes) (hpos : v.aioOffset = v.header.lastWritePos) : v.Checked 0 v.lastSyncSerial
  | next {p q ls : ℕ} (h : v.Checked p ls) (hnext : v.Follows p q) :
      v.Checked q (if v.lastWriteSerial < (v.buffer p).syncSerial then (v.buffer p).syncSerial else ls)

/-- where the second loop is to start -/
def Vol.Starts (v : Vol) (s ls : ℕ) : Prop :=
  v.aioResult = v.aioNbytes ∧ (v.aioOffset ≠ v.header.lastWritePos ∧ s = 0 ∧ ls = v.lastSyncSerial ∨ v.Checked s ls ∧ v.toCheck ≤ s)

/-- After a wrap the first document has to be of the same run of writes. -/
def Vol.Passes (v : Vol) (s : ℕ) : Prop :=
  v.recoverWrapped ∧ v.start = v.aioOffset → (v.buffer s).magic = DOC_MAGIC ∧ v.lastWriteSerial ≤ (v.buffer s).writeSerial

/-- a document after which the second loop goes on -/
def Vol.Continues (v : Vol) (p ls : ℕ) : Prop :=
  (v.buffer p).magic = DOC_MAGIC ∧ ((v.buffer p).syncSerial = ls ∨
    ls < (v.buffer p).syncSerial ∧ (v.buffer p).syncSerial ≤ (v.header.syncSerial + 1) % 2 ^ 32)

/-- where the second loop, started at `s`, comes to, and the `last_sync_serial` that it comes with -/
inductive Vol.Scanned (v : Vol) (s : ℕ) : ℕ → ℕ → Prop where
  | start {ls : ℕ} (h : v.Starts s ls) : v.Scanned s s ls
  | next {p ls : ℕ} (h : v.Scanned s p ls) (hpass : v.Passes s) (hlt : p < s + v.gotLen s) (hcont : v.Continues p ls) :
      v.Scanned s (v.behind p) (v.buffer p).syncSerial

/-- a header that one of the loops comes to -/
def Vol.Comes (v : Vol) (p : ℕ) : Prop :=
  (∃ ls, v.Checked p ls ∧ p < v.toCheck) ∨ ∃ s ls, v.Scanned s p ls ∧ p < s + v.gotLen s

/-- What is to hold of the documents: in the first loop none leads back, and none ends behind the bytes read, nor at their end with more to be
checked; in the second none is of rounded length zero; and no header is cut off by the end of the bytes. -/
structure Ok (v : Vol) : Prop where
  forward : ∀ p ls, v.Checked p ls → ¬ TransGen v.Follows p p
  ends : ∀ p ls, v.Checked p ls → p < v.aioNbytes ∨ p = v.aioNbytes ∧ v.toCheck ≤ p
  zero : ∀ s p ls, v.Scanned s p ls → v.Passes s → p < s + v.gotLen s → v.Continues p ls → roundToApproxSize v.sectorSize (v.buffer p).len ≠ 0
  cut : ∀ p, v.Comes p → p < v.aioNbytes → p + sizeofDoc ≤ v.aioNbytes

variable {v : Vol} {σ σ' : State} {p q s e last ls : ℕ}

/-! ## One step -/

theorem step_check_next (hpoint : σ.point = .check p) (hlt : p < v.toCheck) (hvalid : v.Valid p) : step v σ = .inl (σ.checked v p) := by
  unfold step
  rw [hpoint]
  dsimp only
  rw [if_pos hlt, if_neg]
  rintro (hmagic | hserial)
  · exact hmagic hvalid.1
  · exact absurd hvalid.2 (not_le.2 hserial)

theorem step_check_clear (hpoint : σ.point = .check p) (hlt : p < v.toCheck) (hvalid : ¬ v.Valid p) : step v σ = .inr .clear := by
  unfold step
  rw [hpoint]
  dsimp only
  rw [if_pos hlt, if_pos]
  by_contra hnot
  rw [not_or, not_not, not_lt] at hnot
  exact hvalid hnot

theorem step_check_done (hpoint : σ.point = .check p) (hle : v.toCheck ≤ p) :
    step v σ = .inl { σ with point := .examine p (v.gotLen p), recoverPos := σ.recoverPos + v.aioNbytes } := by
  unfold step
  rw [hpoint]
  dsimp only
  rw [if_neg (not_lt.2 hle)]

theorem step_scan_next (hpoint : σ.point = .scan p e last) (hlt : p < e) (hcont : v.Continues p σ.lastSyncSerial) :
    ∃ σ', step v σ = .inl σ' ∧ σ'.point = .scan (v.behind p) e (v.behind p - p) ∧ σ'.lastSyncSerial = (v.buffer p).syncSerial := by
  obtain ⟨hmagic, hsync⟩ := hcont
  unfold step
  rw [hpoint]
  dsimp only
  rw [if_pos hlt, if_pos hmagic]
  by_cases heq : (v.buffer p).syncSerial = σ.lastSyncSerial
  · rw [if_pos heq]
    exact ⟨_, rfl, rfl, heq.symm⟩
  · rw [if_neg heq, if_pos (hsync.resolve_left heq)]
    exact ⟨_, rfl, rfl, rfl⟩

theorem step_scan_stop (hpoint : σ.point = .scan p e last) (hstop : p < e → ¬ v.Continues p σ.lastSyncSerial) : ∃ o, step v σ = .inr o := by
  unfold step
  rw [hpoint]
  dsimp only
  by_cases hlt : p < e
  · rw [if_pos hlt]
    by_cases hmagic : (v.buffer p).magic = DOC_MAGIC
    · rw [if_pos hmagic, if_neg, if_neg]
      · exact ⟨_, rfl⟩
      · exact fun hnext => hstop hlt ⟨hmagic, Or.inr hnext⟩
      · exact fun heq => hstop hlt ⟨hmagic, Or.inl heq⟩
    · rw [if_neg hmagic]
      exact ⟨_, rfl⟩
  · rw [if_neg hlt]
    exact ⟨_, rfl⟩

/-! ## The loops go along the documents -/

theorem Vol.Checked.read (h : v.Checked p ls) : v.aioResult = v.aioNbytes := by
  induction h with
  | start hread _ => exact hread
  | next _ _ ih => exact ih

theorem Vol.Checked.lt (h : v.Checked p ls) : p < 2 ^ 32 := by
  cases h with
  | start _ _ => decide
  | next _ hnext =>
    rw [hnext.2.2]
    exact Nat.mod_lt _ (by decide)

/-- what is known where the function comes to -/
def Inv (v : Vol) (σ : State) : Prop :=
  match σ.point with
  | .readDone => σ = init v
  | .check p => v.Checked p σ.lastSyncSerial ∧ σ.lastWriteSerial = v.lastWriteSerial
  | .examine s n => v.Starts s σ.lastSyncSerial ∧ n = v.gotLen s ∧ σ.lastWriteSerial = v.lastWriteSerial
  | .first s e => v.Starts s σ.lastSyncSerial ∧ e = s + v.gotLen s ∧ s < e ∧ σ.lastWriteSerial = v.lastWriteSerial
  | .scan p e _ => ∃ s, v.Scanned s p σ.lastSyncSerial ∧ v.Passes s ∧ e = s + v.gotLen s

theorem step_inv (h : Inv v σ) (hstep : step v σ = .inl σ') : Inv v σ' := by
  obtain ⟨point, ls, lw, mx, pos⟩ := σ
  cases point with
  | readDone =>
    obtain ⟨rfl, rfl, rfl, rfl⟩ : ls = v.lastSyncSerial ∧ lw = v.lastWriteSerial ∧ mx = v.header.syncSerial ∧ pos = v.recoverPos := by
      simpa [Inv, init] using h
    simp only [step] at hstep
    split_ifs at hstep with hread hpos
    · obtain rfl := Sum.inl.inj hstep
      exact ⟨.start (not_not.1 hread) hpos, rfl⟩
    · obtain rfl := Sum.inl.inj hstep
      exact ⟨⟨not_not.1 hread, Or.inl ⟨hpos, rfl, rfl⟩⟩, rfl, rfl⟩
  | check p =>
    obtain ⟨hchecked, hwrite⟩ : v.Checked p ls ∧ lw = v.lastWriteSerial := h
    by_cases hlt : p < v.toCheck
    · by_cases hvalid : v.Valid p
      · rw [step_check_next rfl hlt hvalid] at hstep
        obtain rfl := Sum.inl.inj hstep
        have hnext := Vol.Checked.next hchecked ⟨hlt, hvalid, rfl⟩
        rw [← hwrite] at hnext
        exact ⟨hnext, hwrite⟩
      · rw [step_check_clear rfl hlt hvalid] at hstep
        cases hstep
    · rw [step_check_done rfl (not_lt.1 hlt)] at hstep
      obtain rfl := Sum.inl.inj hstep
      exact ⟨⟨hchecked.read, Or.inr ⟨hchecked, not_lt.1 hlt⟩⟩, rfl, hwrite⟩
  | examine s n =>
    obtain ⟨hstart, rfl, hwrite⟩ : v.Starts s ls ∧ n = v.gotLen s ∧ lw = v.lastWriteSerial := h
    simp only [step] at hstep
    split_ifs at hstep with hzero hwrap
    · obtain rfl := Sum.inl.inj hstep
      exact ⟨hstart, rfl, by omega, hwrite⟩
    · obtain rfl := Sum.inl.inj hstep
      exact ⟨s, .start hstart, fun hw => absurd hw hwrap, rfl⟩
  | first s e =>
    obtain ⟨hstart, rfl, hlt, hwrite⟩ : v.Starts s ls ∧ e = s + v.gotLen s ∧ s < e ∧ lw = v.lastWriteSerial := h
    simp only [step] at hstep
    split_ifs at hstep with hbad
    obtain rfl := Sum.inl.inj hstep
    rw [not_or, not_not, not_lt, hwrite] at hbad
    exact ⟨s, .start hstart, fun _ => hbad, rfl⟩
  | scan p e last =>
    obtain ⟨s, hscanned, hpass, rfl⟩ : ∃ s, v.Scanned s p ls ∧ v.Passes s ∧ e = s + v.gotLen s := h
    by_cases hcont : p < s + v.gotLen s ∧ v.Continues p ls
    · obtain ⟨σ'', hnext, hpoint, hsync⟩ := step_scan_next (σ := ⟨.scan p (s + v.gotLen s) last, ls, lw, mx, pos⟩) rfl hcont.1 hcont.2
      rw [hnext] at hstep
      obtain rfl := Sum.inl.inj hstep
      have hscanned' := Vol.Scanned.next hscanned hpass hcont.1 hcont.2
      rw [← hsync] at hscanned'
      unfold Inv
      rw [hpoint]
      exact ⟨s, hscanned', hpass, rfl⟩
    · obtain ⟨o, hstop⟩ := step_scan_stop (v := v) (σ := ⟨.scan p (s + v.gotLen s) last, ls, lw, mx, pos⟩) rfl
        fun hlt hc => hcont ⟨hlt, hc⟩
      rw [hstop] at hstep
      cases hstep

theorem reaches_inv (h : Reaches (step v) (init v) σ) : Inv v σ := by
  induction h with
  | refl => exact rfl
  | tail _ hstep ih => exact step_inv ih hstep

theorem Vol.Checked.reached (h : v.Checked p ls) : ∃ σ, Reaches (step v) (init v) σ ∧ σ.point = .check p ∧ σ.lastSyncSerial = ls ∧
    σ.lastWriteSerial = v.lastWriteSerial := by
  induction h with
  | start hread hpos =>
    refine ⟨{ init v with point := .check 0 }, .single ?_, rfl, rfl, rfl⟩
    simp only [step, init]
    rw [if_neg (not_not.2 hread), if_pos hpos]
  | @next p q ls _ hnext ih =>
    obtain ⟨σ, hr, hpoint, hsync, hwrite⟩ := ih
    obtain ⟨hlt, hvalid, rfl⟩ := hnext
    refine ⟨σ.checked v p, hr.tail (step_check_next hpoint hlt hvalid), rfl, ?_, hwrite⟩
    rw [State.checked, hsync, hwrite]

theorem Vol.Starts.reached (h : v.Starts s ls) : ∃ σ, Reaches (step v) (init v) σ ∧ σ.point = .examine s (v.gotLen s) ∧
    σ.lastSyncSerial = ls ∧ σ.lastWriteSerial = v.lastWriteSerial := by
  obtain ⟨hread, ⟨hpos, rfl, rfl⟩ | ⟨hchecked, hle⟩⟩ := h
  · refine ⟨{ init v with point := .examine 0 (v.gotLen 0), recoverPos := v.recoverPos + v.aioNbytes }, .single ?_, rfl, rfl, rfl⟩
    simp only [step, init]
    rw [if_neg (not_not.2 hread), if_neg hpos]
  · obtain ⟨σ, hr, hpoint, hsync, hwrite⟩ := hchecked.reached
    exact ⟨_, hr.tail (step_check_done hpoint hle), rfl, hsync, hwrite⟩

/-- The second loop comes to its first document, or the test before it does. -/
theorem Vol.Starts.reads (h : v.Starts s ls) (hlt : s < s + v.gotLen s) : ∃ σ, Reaches (step v) (init v) σ ∧ reads v σ = some s := by
  obtain ⟨σ, hr, hpoint, -⟩ := h.reached
  have hstep : ∃ σ', step v σ = .inl σ' ∧ RecoverScan.reads v σ' = some s := by
    unfold step
    rw [hpoint]
    dsimp only
    rw [if_neg (by omega)]
    split_ifs
    · exact ⟨_, rfl, rfl⟩
    · exact ⟨_, rfl, if_pos hlt⟩
  obtain ⟨σ', hnext, hreads⟩ := hstep
  exact ⟨σ', hr.tail hnext, hreads⟩

theorem Vol.Scanned.reached (h : v.Scanned s p ls) (hpass : v.Passes s) (hlt : s < s + v.gotLen s) : ∃ σ last,
    Reaches (step v) (init v) σ ∧ σ.point = .scan p (s + v.gotLen s) last ∧ σ.lastSyncSerial = ls := by
  induction h with
  | start h =>
    obtain ⟨σ, hr, hpoint, hsync, hwrite⟩ := h.reached
    have hexamine : step v σ = if v.recoverWrapped ∧ v.start = v.aioOffset then .inl { σ with point := .first s (s + v.gotLen s) }
        else .inl { σ with point := .scan s (s + v.gotLen s) 0 } := by
      unfold step
      rw [hpoint]
      dsimp only
      rw [if_neg (by omega)]
    by_cases hwrap : v.recoverWrapped ∧ v.start = v.aioOffset
    · rw [if_pos hwrap] at hexamine
      have hfirst : step v { σ with point := .first s (s + v.gotLen s) } = .inl { σ with point := .scan s (s + v.gotLen s) 0 } := by
        obtain ⟨hmagic, hserial⟩ := hpass hwrap
        simp only [step]
        rw [if_neg]
        rw [not_or, not_not, not_lt, hwrite]
        exact ⟨hmagic, hserial⟩
      exact ⟨_, 0, (hr.tail hexamine).tail hfirst, rfl, hsync⟩
    · rw [if_neg hwrap] at hexamine
      exact ⟨_, 0, hr.tail hexamine, rfl, hsync⟩
  | next _ _ hlt' hcont ih =>
    obtain ⟨σ, last, hr, hpoint, hsync⟩ := ih
    obtain ⟨σ', hnext, hpoint', hsync'⟩ := step_scan_next hpoint hlt' (hsync ▸ hcont)
    exact ⟨σ', _, hr.tail hnext, hpoint', hsync'⟩

/-! ## When the loops end -/

theorem gotLen_eq (hle : s ≤ v.aioNbytes) : s + v.gotLen s = v.aioNbytes := by
  have hmax := v.nbytesLe
  unfold Vol.gotLen
  simp only [RECOVERY_SIZE, EVACUATION_SIZE, AGG_SIZE] at hmax
  omega

/-- A loop that is to start behind the bytes read has a length that wraps around. -/
theorem gotLen_pos (hlt : v.aioNbytes < s) (hmax : s < 2 ^ 32) : 0 < v.gotLen s := by
  unfold Vol.gotLen
  omega

theorem Vol.Starts.le (h : v.Starts s ls) (hok : Ok v) : s ≤ v.aioNbytes := by
  obtain ⟨-, ⟨-, rfl, -⟩ | ⟨hchecked, -⟩⟩ := h
  · exact Nat.zero_le _
  · rcases hok.ends s ls hchecked with hlt | ⟨heq, -⟩
    · exact hlt.le
    · exact heq.le

theorem Vol.Scanned.starts (h : v.Scanned s p ls) : ∃ ls₀, v.Starts s ls₀ := by
  induction h with
  | start h => exact ⟨_, h⟩
  | next _ _ _ _ ih => exact ih

theorem Vol.Scanned.le (h : v.Scanned s p ls) : s ≤ p := by
  induction h with
  | start _ => exact le_rfl
  | next _ _ _ _ ih => exact ih.trans (Nat.le_add_right _ _)

/-- what holds at the top of the second loop -/
def InScan (v : Vol) (σ : State) : Prop := Inv v σ ∧ ∃ p e last, σ.point = .scan p e last

/-- the bytes in front of the second loop -/
def left (σ : State) : ℕ :=
  match σ.point with
  | .scan p e _ => e - p
  | _ => 0

theorem ends_scan (hok : Ok v) (h : InScan v σ) : Ends (step v) σ := by
  refine ends_of_measure (P := InScan v) left ?_ h
  rintro σ ⟨hinv, p, e, last, hpoint⟩
  obtain ⟨s, hscanned, hpass, rfl⟩ : ∃ s, v.Scanned s p σ.lastSyncSerial ∧ v.Passes s ∧ e = s + v.gotLen s := by
    simpa only [Inv, hpoint] using hinv
  by_cases hcont : p < s + v.gotLen s ∧ v.Continues p σ.lastSyncSerial
  · obtain ⟨σ', hnext, hpoint', -⟩ := step_scan_next hpoint hcont.1 hcont.2
    have hzero := hok.zero s p _ hscanned hpass hcont.1 hcont.2
    refine Or.inr ⟨σ', hnext, Or.inr ⟨⟨step_inv hinv hnext, _, _, _, hpoint'⟩, ?_⟩⟩
    have hlt := hcont.1
    simp only [left, hpoint, hpoint', Vol.behind]
    omega
  · exact Or.inl (step_scan_stop hpoint fun hlt hc => hcont ⟨hlt, hc⟩)

theorem ends_first (hok : Ok v) (hinv : Inv v σ) (hpoint : σ.point = .first s e) : Ends (step v) σ := by
  rcases hstep : step v σ with σ' | o
  · refine .next hstep (ends_scan hok ⟨step_inv hinv hstep, ?_⟩)
    unfold step at hstep
    rw [hpoint] at hstep
    dsimp only at hstep
    split_ifs at hstep
    exact ⟨_, _, _, by rw [← Sum.inl.inj hstep]⟩
  · exact .leave hstep

theorem ends_examine {n : ℕ} (hok : Ok v) (hinv : Inv v σ) (hpoint : σ.point = .examine s n) : Ends (step v) σ := by
  rcases hstep : step v σ with σ' | o
  · have hinv' := step_inv hinv hstep
    refine .next hstep ?_
    unfold step at hstep
    rw [hpoint] at hstep
    dsimp only at hstep
    split_ifs at hstep
    · exact ends_first hok hinv' (s := s) (e := s + n) (by rw [← Sum.inl.inj hstep])
    · exact ends_scan hok ⟨hinv', _, _, _, by rw [← Sum.inl.inj hstep]⟩
  · exact .leave hstep

theorem Vol.Checked.follows (h : v.Checked p ls) (hr : ReflTransGen v.Follows p q) : ∃ ls', v.Checked q ls' := by
  induction hr with
  | refl => exact ⟨ls, h⟩
  | tail _ hnext ih =>
    obtain ⟨ls', h'⟩ := ih
    exact ⟨_, h'.next hnext⟩

theorem finite_follows (p : ℕ) : {q | ReflTransGen v.Follows p q}.Finite := by
  refine ((Set.finite_lt_nat (2 ^ 32)).union (Set.finite_singleton p)).subset fun q hq => ?_
  cases hq with
  | refl => exact Or.inr rfl
  | tail _ hnext =>
    refine Or.inl ?_
    rw [Set.mem_ofPred_eq, hnext.2.2]
    exact Nat.mod_lt _ (by decide)

/-- The first loop ends: no document comes twice, and there are only finitely many offsets. -/
theorem ends_check (hok : Ok v) (hinv : Inv v σ) (hpoint : σ.point = .check p) : Ends (step v) σ := by
  obtain ⟨hchecked, -⟩ : v.Checked p σ.lastSyncSerial ∧ σ.lastWriteSerial = v.lastWriteSerial := by
    simpa only [Inv, hpoint] using hinv
  have hacc : Acc (fun b c => v.Follows c b) p := acc_of_acyclic (finite_follows p) fun q hq => by
    obtain ⟨ls, hls⟩ := hchecked.follows hq
    exact hok.forward q ls hls
  refine ends_of_acc (P := fun σ => Inv v σ ∧ ∃ p, σ.point = .check p)
    (fun σ => match σ.point with | .check p => p | _ => 0) (R := v.Follows) ?_ ⟨hinv, p, hpoint⟩ (by simpa only [hpoint] using hacc)
  rintro σ ⟨hinv, p, hpoint⟩
  by_cases hlt : p < v.toCheck
  · by_cases hvalid : v.Valid p
    · have hnext := step_check_next hpoint hlt hvalid
      refine Or.inr ⟨_, hnext, Or.inr ⟨⟨step_inv hinv hnext, _, rfl⟩, ?_⟩⟩
      simp only [hpoint]
      exact ⟨hlt, hvalid, rfl⟩
    · exact Or.inl ⟨_, step_check_clear hpoint hlt hvalid⟩
  · have hdone := step_check_done hpoint (not_lt.1 hlt)
    exact Or.inr ⟨_, hdone, Or.inl (ends_examine hok (step_inv hinv hdone) rfl)⟩

theorem Ok.ends_init (hok : Ok v) : Ends (step v) (init v) := by
  rcases hstep : step v (init v) with σ' | o
  · have hinv := step_inv (show Inv v (init v) from rfl) hstep
    refine .next hstep ?_
    simp only [step, init] at hstep
    split_ifs at hstep
    · exact ends_check hok hinv (p := 0) (by rw [← Sum.inl.inj hstep])
    · exact ends_examine hok hinv (s := 0) (n := v.gotLen 0) (by rw [← Sum.inl.inj hstep])
  · exact .leave hstep

/-! ## Where it reads -/

theorem Ok.read_le (hok : Ok v) (hr : Reaches (step v) (init v) σ) (hread : reads v σ = some p) : p + sizeofDoc ≤ v.aioResult := by
  have hinv := reaches_inv hr
  obtain ⟨point, ls, lw, mx, pos⟩ := σ
  -- a header in front of the end of the second loop, which is the end of the bytes
  have hscan : ∀ s q ls, v.Scanned s q ls → q < s + v.gotLen s → q + sizeofDoc ≤ v.aioResult := by
    intro s q ls hscanned hlt
    obtain ⟨ls₀, hstart⟩ := hscanned.starts
    rw [hstart.1]
    exact hok.cut q (Or.inr ⟨s, ls, hscanned, hlt⟩) (by rwa [gotLen_eq (hstart.le hok)] at hlt)
  cases point with
  | readDone => cases hread
  | check done =>
    obtain ⟨hchecked, -⟩ : v.Checked done ls ∧ lw = v.lastWriteSerial := hinv
    simp only [reads] at hread
    split_ifs at hread with hlt
    obtain rfl := Option.some.inj hread
    rw [hchecked.read]
    refine hok.cut done (Or.inl ⟨ls, hchecked, hlt⟩) ?_
    rcases hok.ends done ls hchecked with hin | ⟨-, hle⟩
    · exact hin
    · exact absurd hlt (not_lt.2 hle)
  | examine s n => cases hread
  | first s e =>
    obtain ⟨hstart, rfl, hlt, -⟩ : v.Starts s ls ∧ e = s + v.gotLen s ∧ s < e ∧ lw = v.lastWriteSerial := hinv
    obtain rfl := Option.some.inj hread
    exact hscan s s ls (.start hstart) hlt
  | scan q e last =>
    obtain ⟨s, hscanned, -, rfl⟩ : ∃ s, v.Scanned s q ls ∧ v.Passes s ∧ e = s + v.gotLen s := hinv
    simp only [reads] at hread
    split_ifs at hread with hlt
    obtain rfl := Option.some.inj hread
    exact hscan s q ls hscanned hlt

/-! ## What a safe scan shows of the documents -/

theorem Safe.forward (h : Safe v) (hchecked : v.Checked p ls) : ¬ TransGen v.Follows p p := by
  intro hcycle
  obtain ⟨σ, hr, hpoint, -⟩ := hchecked.reached
  refine not_ends_of_kept (P := fun σ => ∃ q, σ.point = .check q ∧ TransGen v.Follows q q) ?_ ⟨p, hpoint, hcycle⟩ (h.1.reaches hr)
  rintro σ ⟨q, hpoint, hcycle⟩
  obtain ⟨q', hnext, hback⟩ := TransGen.head'_iff.1 hcycle
  have hstep := step_check_next hpoint hnext.1 hnext.2.1
  refine ⟨_, hstep, q', ?_, TransGen.tail' hback hnext⟩
  rw [hnext.2.2]
  rfl

theorem Safe.ends (h : Safe v) (hchecked : v.Checked p ls) : p < v.aioNbytes ∨ p = v.aioNbytes ∧ v.toCheck ≤ p := by
  by_cases hlt : p < v.toCheck
  · obtain ⟨σ, hr, hpoint, -⟩ := hchecked.reached
    have hread := h.2 σ hr p (by simp only [reads, hpoint]; rw [if_pos hlt])
    rw [hchecked.read] at hread
    exact Or.inl (by have : 0 < sizeofDoc := by decide
                     omega)
  · refine (lt_trichotomy p v.aioNbytes).imp_right fun hge => ⟨hge.resolve_right fun hgt => ?_, not_lt.1 hlt⟩
    have hpos := gotLen_pos hgt hchecked.lt
    have hstart : v.Starts p ls := ⟨hchecked.read, Or.inr ⟨hchecked, not_lt.1 hlt⟩⟩
    obtain ⟨σ, hr, hreads⟩ := hstart.reads (by omega)
    have hread := h.2 σ hr p hreads
    rw [hchecked.read] at hread
    omega

theorem Safe.zero (h : Safe v) (hscanned : v.Scanned s p ls) (hpass : v.Passes s) (hlt : p < s + v.gotLen s) (hcont : v.Continues p ls) :
    roundToApproxSize v.sectorSize (v.buffer p).len ≠ 0 := by
  intro hzero
  have hbehind : v.behind p = p := by rw [Vol.behind, hzero, add_zero]
  obtain ⟨σ, last, hr, hpoint, hsync⟩ := hscanned.reached hpass (hscanned.le.trans_lt hlt)
  refine not_ends_of_kept (P := fun σ => (∃ last, σ.point = .scan p (s + v.gotLen s) last) ∧ v.Continues p σ.lastSyncSerial) ?_
    ⟨⟨last, hpoint⟩, hsync ▸ hcont⟩ (h.1.reaches hr)
  rintro σ ⟨⟨last, hpoint⟩, hcont⟩
  obtain ⟨σ', hnext, hpoint', hsync'⟩ := step_scan_next hpoint hlt hcont
  rw [hbehind] at hpoint'
  exact ⟨σ', hnext, ⟨_, hpoint'⟩, hcont.1, Or.inl hsync'.symm⟩

theorem Vol.Comes.reads (h : v.Comes p) : ∃ σ, Reaches (step v) (init v) σ ∧ reads v σ = some p := by
  rcases h with ⟨ls, hchecked, hlt⟩ | ⟨s, ls, hscanned, hlt⟩
  · obtain ⟨σ, hr, hpoint, -⟩ := hchecked.reached
    refine ⟨σ, hr, ?_⟩
    simp only [RecoverScan.reads, hpoint]
    rw [if_pos hlt]
  · cases id hscanned with
    | start hstart => exact hstart.reads hlt
    | next _ hpass _ _ =>
      obtain ⟨σ, last, hr, hpoint, -⟩ := hscanned.reached hpass (hscanned.le.trans_lt hlt)
      refine ⟨σ, hr, ?_⟩
      simp only [RecoverScan.reads, hpoint]
      rw [if_pos hlt]

theorem Vol.Comes.read (h : v.Comes p) : v.aioResult = v.aioNbytes := by
  rcases h with ⟨ls, hchecked, -⟩ | ⟨s, ls, hscanned, -⟩
  · exact hchecked.read
  · exact hscanned.starts.choose_spec.1

theorem safe_iff (v : Vol) : Safe v ↔ Ok v := by
  refine ⟨fun h => ⟨fun p ls => h.forward, fun p ls => h.ends, fun s p ls => h.zero, fun p hcomes _ => ?_⟩,
    fun hok => ⟨hok.ends_init, fun σ hr p => hok.read_le hr⟩⟩
  obtain ⟨σ, hr, hreads⟩ := hcomes.reads
  rw [← hcomes.read]
  exact h.2 σ hr p hreads

end TrafficServer.Cache.RecoverScan
