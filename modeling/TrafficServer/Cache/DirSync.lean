/-
The two copies of a volume's directory on disk (`CacheSync::mainEvent` in `iocore/cache/CacheDir.cc`, the start-up of `Vol`
in `iocore/cache/Cache.cc`).

The directory is kept in memory. A sync gives it the next `sync_serial`, takes a snapshot and writes it, header block,
body in pieces of `SYNC_MAX_WRITE`, footer block, to copy A or B by the parity of the serial. At start-up
`handle_header_read` takes a copy whose header and footer have the same serial, the one with the greater serial if both
have. `handle_recover_from_data` then may give the directory a new serial, of the other parity, and write it out;
or it clears it. `clear_dir` writes an empty directory with serial 0 to copy A and then only the header to copy B.

`Vol` is the disk and what memory holds of this. A block or byte of the disk is represented by the number of the
snapshot it belongs to (a ghost, `buf` for the snapshot being written), header and footer with their serial and whether
their magic is right. A write reaches the disk when it completes. A crash may come between any two operations: it is a
`restart`, which keeps the disk and nothing else. The event that finds the aggregation buffer in use is put off and is
not a step.
-/
import Mathlib

namespace TrafficServer.Cache.DirSync

/-! ## The disk -/

def SYNC_MAX_WRITE : ℕ := 2 * 1024 * 1024

/-- the sizes in bytes of the directory and of its header and footer blocks -/
structure Layout where
  headerlen : ℕ
  dirlen : ℕ
  headerPos : 0 < headerlen
  room : 2 * headerlen < dirlen

/-- a header or footer block -/
structure Stamp where
  writer : ℕ
  magic : Bool
  serial : ℕ
deriving DecidableEq, Repr

structure Copy where
  header : Stamp
  /-- whose the byte at an offset is -/
  body : ℕ → ℕ
  footer : Stamp

/-- the copies by parity: A is `false`, B is `true` -/
abbrev Disk := Bool → Copy

def copyOf (serial : ℕ) : Bool := decide (serial % 2 = 1)

/-- bytes `[pos, pos + len)` of a copy are overwritten from the snapshot of `w` -/
def Copy.write (L : Layout) (w : Stamp) (pos len : ℕ) (c : Copy) : Copy where
  header := if pos = 0 ∧ L.headerlen ≤ len then w else c.header
  body := fun o => if pos ≤ o ∧ o < pos + len then w.writer else c.body o
  footer := if pos ≤ L.dirlen - L.headerlen ∧ L.dirlen ≤ pos + len then w else c.footer

/-- the test of `handle_header_read` on one copy -/
def Copy.looksGood (c : Copy) : Bool := c.header.serial == c.footer.serial

/-- `Vol::handle_header_read`: the copy it goes on with, or none and the directory is cleared -/
def handleHeaderRead (d : Disk) : Option Bool :=
  if (d false).looksGood ∧ ((d true).header.serial ≤ (d false).header.serial ∨ (d true).looksGood = false) then some false
  else if (d true).looksGood then some true
  else none

/-! ## The volume -/

inductive Stage where
  | running
  | clearing
  | recovering
deriving DecidableEq, Repr

/-- a write in progress -/
structure Aio where
  copy : Bool
  pos : ℕ
  len : ℕ
deriving DecidableEq, Repr

structure Vol where
  disk : Disk
  stage : Stage
  io : Option Aio
  /-- `header->sync_serial` -/
  serial : ℕ
  dirty : Bool
  dirSyncInProgress : Bool
  writepos : ℕ
  /-- ghost: the snapshot being written -/
  buf : ℕ
  /-- ghost: the number of the next snapshot -/
  nextId : ℕ

/-- how `handle_recover_from_data` ends: nothing to clear, a new serial above those of the documents seen (the last greater
than the directory's, if any), or no valid directory -/
inductive Recovery where
  | wrapped
  | bump (docSerial : Fin (2 ^ 32))
  | clear

/-- `touch` is any change of the directory; `sync` is a timer event of `CacheSync`; `aioFail k` is the end of a write that
failed after `k` bytes; `restart` may be told to clear, and a failed read has the same effect. -/
inductive Op where
  | touch
  | sync
  | aioDone
  | aioFail (k : ℕ)
  | restart (clear : Bool) (r : Recovery)

def Vol.stamp (v : Vol) : Stamp := ⟨v.buf, true, v.serial⟩

/-- `n` bytes of the write `a` reach the disk -/
def Vol.land (L : Layout) (v : Vol) (a : Aio) (n : ℕ) : Disk :=
  Function.update v.disk a.copy ((v.disk a.copy).write L v.stamp a.pos n)

/-- `sync_serial` of the next sync -/
def nextSerial (serial : ℕ) : ℕ := (serial + 1) % 2 ^ 32

/-- the serial for a recovered directory, never of the parity of the copy it was read from -/
def recoverSerial (serial docSerial : ℕ) : ℕ :=
  let max := if serial < docSerial then docSerial else serial
  let next := (max + 1) % 2 ^ 32
  if serial % 2 = next % 2 then (next + 1) % 2 ^ 32 else next

/-- `Vol::clear_dir`: copy A is written in one piece -/
def clearDir (L : Layout) (v : Vol) : Vol :=
  { v with stage := .clearing, io := some ⟨false, 0, L.dirlen⟩, serial := 0, dirty := false, buf := v.nextId,
           nextId := v.nextId + 1 }

/-- a timer event of `CacheSync::mainEvent` -/
def mainEvent (L : Layout) (v : Vol) : Vol :=
  if v.writepos = 0 then
    if v.dirty then
      { v with dirty := false, serial := nextSerial v.serial, dirSyncInProgress := true, buf := v.nextId,
               nextId := v.nextId + 1, io := some ⟨copyOf (nextSerial v.serial), 0, L.headerlen⟩, writepos := L.headerlen }
    else v
  else if v.writepos < L.dirlen - L.headerlen then
    let l := if v.writepos + SYNC_MAX_WRITE > L.dirlen - L.headerlen then L.dirlen - L.headerlen - v.writepos
      else SYNC_MAX_WRITE
    { v with io := some ⟨copyOf v.serial, v.writepos, l⟩, writepos := v.writepos + l }
  else if v.writepos < L.dirlen then
    { v with io := some ⟨copyOf v.serial, v.writepos, L.headerlen⟩, writepos := v.writepos + L.headerlen }
  else { v with dirSyncInProgress := false, writepos := 0 }

/-- the end of a write that succeeded, by stage: `mainEvent`, `handle_dir_clear`, the chain of recovery writes -/
def aioDone (L : Layout) (a : Aio) (v : Vol) : Vol :=
  match v.stage with
  | .running => { v with disk := v.land L a a.len, io := none }
  | .clearing =>
    if a.len = L.dirlen then { v with disk := v.land L a a.len, io := some ⟨true, 0, L.headerlen⟩ }
    else { v with disk := v.land L a a.len, io := none, stage := .running }
  | .recovering =>
    if a.pos = 0 then
      { v with disk := v.land L a a.len, io := some ⟨a.copy, L.headerlen, L.dirlen - 2 * L.headerlen⟩ }
    else if a.pos < L.dirlen - L.headerlen then
      { v with disk := v.land L a a.len, io := some ⟨a.copy, L.dirlen - L.headerlen, L.headerlen⟩ }
    else { v with disk := v.land L a a.len, io := none, stage := .running }

/-- the end of a sync's write that failed: `goto Ldone` -/
def aioFail (L : Layout) (a : Aio) (k : ℕ) (v : Vol) : Vol :=
  { v with disk := v.land L a (min k a.len), io := none, writepos := 0 }

/-- `Vol::init` up to the end of recovery, except for its writes -/
def restart (L : Layout) (clear : Bool) (r : Recovery) (v : Vol) : Vol :=
  let v := { v with stage := .running, io := none, dirty := false, dirSyncInProgress := false, writepos := 0 }
  if clear then clearDir L v
  else
    match handleHeaderRead v.disk with
    | none => clearDir L v
    | some b =>
      if (v.disk b).header.magic ∧ (v.disk b).footer.magic then
        let v := { v with serial := (v.disk b).header.serial }
        if v.serial = 0 then v
        else
          match r with
          | .wrapped => v
          | .clear => clearDir L v
          | .bump doc =>
            { v with serial := recoverSerial v.serial doc, stage := .recovering, buf := v.nextId, nextId := v.nextId + 1,
                     io := some ⟨copyOf (recoverSerial v.serial doc), 0, L.headerlen⟩ }
      else clearDir L v

def step (L : Layout) (v : Vol) : Op → Vol
  | .touch => if v.stage = .running then { v with dirty := true } else v
  | .sync => if v.stage = .running ∧ v.io = none then mainEvent L v else v
  | .aioDone =>
    match v.io with
    | some a => aioDone L a v
    | none => v
  | .aioFail k =>
    match v.io with
    | some a => if v.stage = .running then aioFail L a k v else v
    | none => v
  | .restart clear r => restart L clear r v

def run (L : Layout) (v : Vol) (ops : List Op) : Vol := ops.foldl (step L) v

def Copy.blank : Copy := ⟨⟨0, false, 0⟩, fun _ => 0, ⟨0, false, 0⟩⟩

/-- a new volume, with its directory about to be cleared -/
def init (L : Layout) : Vol := clearDir L
  { disk := fun _ => .blank, stage := .running, io := none, serial := 0, dirty := false, dirSyncInProgress := false,
    writepos := 0, buf := 0, nextId := 1 }

/-! ## Complete copies -/

/-- header, body and footer of one snapshot -/
structure Complete (L : Layout) (c : Copy) : Prop where
  writer : c.footer.writer = c.header.writer
  serial : c.footer.serial = c.header.serial
  body : ∀ o, L.headerlen ≤ o → o < L.dirlen - L.headerlen → c.body o = c.header.writer

theorem Complete.looksGood {L : Layout} {c : Copy} (h : Complete L c) : c.looksGood = true := by
  simp [Copy.looksGood, h.serial]

/-- a start-up with this disk takes a complete copy, the one with the greatest serial, whenever there is one -/
structure SelectOk (L : Layout) (d : Disk) : Prop where
  accepted : ∀ b, handleHeaderRead d = some b → Complete L (d b)
  greatest : ∀ b, Complete L (d b) → ∃ b', handleHeaderRead d = some b' ∧ (d b).header.serial ≤ (d b').header.serial

/-- the first `p` bytes of a copy have been overwritten from the snapshot of `w` -/
structure Over (L : Layout) (w : Stamp) (p : ℕ) (c : Copy) : Prop where
  header : 0 < p → c.header = w
  body : ∀ o, L.headerlen ≤ o → o < p → o < L.dirlen - L.headerlen → c.body o = w.writer
  footer : p = L.dirlen → c.footer = w
  rest : p ≠ L.dirlen → c.footer.writer ≠ w.writer

/-- the pieces that a snapshot is written in -/
def Piece (L : Layout) (pos len : ℕ) : Prop :=
  pos = 0 ∧ len = L.headerlen ∨ L.headerlen ≤ pos ∧ 0 < len ∧ pos + len ≤ L.dirlen - L.headerlen ∨
    pos = L.dirlen - L.headerlen ∧ len = L.headerlen

theorem Over.complete {L : Layout} {w : Stamp} {c : Copy} (h : Over L w L.dirlen c) : Complete L c := by
  have hroom := L.room
  have hheader := h.header (by omega)
  have hfooter := h.footer rfl
  refine ⟨by rw [hfooter, hheader], by rw [hfooter, hheader], ?_⟩
  intro o hlo hhi
  rw [hheader]
  exact h.body o hlo (by omega) hhi

theorem Over.incomplete {L : Layout} {w : Stamp} {p : ℕ} {c : Copy} (h : Over L w p c) (hpos : 0 < p)
    (hp : p ≠ L.dirlen) : ¬ Complete L c := by
  intro hc
  apply h.rest hp
  rw [hc.writer, h.header hpos]

theorem Over.write {L : Layout} {w : Stamp} {p l : ℕ} {c : Copy} (h : Over L w p c) (hp : Piece L p l) :
    Over L w (p + l) (c.write L w p l) := by
  have hroom := L.room
  have hpos := L.headerPos
  have hnot : p ≠ L.dirlen := by
    rcases hp with ⟨h0, -⟩ | ⟨-, -, hle⟩ | ⟨heq, -⟩ <;> omega
  constructor
  · intro _
    simp only [Copy.write]
    split_ifs with h0
    · rfl
    · apply h.header
      rcases hp with ⟨h1, h2⟩ | ⟨hge, -⟩ | ⟨heq, -⟩
      · exact absurd ⟨h1, h2.ge⟩ h0
      · omega
      · omega
  · intro o hlo hlt hhi
    simp only [Copy.write]
    split_ifs with hin
    · rfl
    · exact h.body o hlo (by omega) hhi
  · intro hend
    simp only [Copy.write]
    rw [if_pos]
    rcases hp with ⟨h0, hl⟩ | ⟨-, -, hle⟩ | ⟨heq, -⟩ <;> omega
  · intro hend
    simp only [Copy.write]
    rw [if_neg]
    · exact h.rest hnot
    · rintro ⟨-, hge⟩
      rcases hp with ⟨h0, hl⟩ | ⟨-, -, hle⟩ | ⟨heq, hl⟩ <;> omega

end TrafficServer.Cache.DirSync
