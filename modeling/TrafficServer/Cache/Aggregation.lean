/-
Aggregated writes of a volume (`iocore/cache/CacheWrite.cc`): writers queue up, their documents are copied into one
buffer, and the buffer is written at `write_pos` in one piece.

A write request enters the queue `agg` from `CacheVC::handleWrite` or, for an evacuated document, from
`Vol::evacuateWrite`. `Vol::aggWrite` copies requests from the head of the queue into the buffer while they fit, wraps to
the start of the volume when nothing fits, first reads out documents that the write would destroy (`evac_range`), and
issues the write. A request that was copied is called back at once, except that a SYNC request (`f.sync &&
f.use_first_key`) waits in `sync` until two more writes have completed; if no other write comes, `aggWrite` writes an
empty marker document to complete one. `Vol::aggWriteDone` advances `write_pos` and goes on.

`Vol` is that state. Requests carry a ghost number, given when they are put on the queue; `buffered`, `called` and
`writes` are ghost too: the requests in the buffer, the requests called back, and the byte ranges written. What other
code does to the evacuation blocks (readers, pinned documents) is an input: the step `blocks` and the function `scan`.

`step` is split as the source is: `enter` is the handler up to its call of `aggWrite`, if it makes one.

Result: `aggAgain_rule` (a property of `aggWrite` from its parts).
-/
import Mathlib
import TrafficServer.Cache.Vol

namespace TrafficServer.Cache.Aggregation

/-! ## State -/

/-- a write request on the queue -/
structure Req where
  id : ℕ
  vc : ℕ
  aggLen : ℕ
  evacuator : Bool
  /-- `f.sync && f.use_first_key` -/
  sync : Bool
  writeSerial : ℕ
deriving DecidableEq, Repr

structure EvacuationBlock where
  dir : Dir
  done : Bool
deriving DecidableEq, Repr

/-- the disk operation in progress -/
inductive Io where
  | aggWrite (offset : ℤ) (nbytes : ℕ)
  | evacRead (offset : ℤ) (nbytes : ℤ)
deriving DecidableEq, Repr

structure Vol where
  phase : Bool
  cycle : ℕ
  writePos : ℤ
  lastWritePos : ℤ
  aggPos : ℤ
  writeSerial : ℕ
  aggBufPos : ℕ
  aggTodoSize : ℤ
  agg : List Req
  sync : List Req
  io : Option Io
  dirSyncWaiting : Bool
  evacuate : ℤ → List EvacuationBlock
  scanPos : ℤ
  /-- ghost: the next request number -/
  nextId : ℕ
  /-- ghost: the requests whose documents are in the buffer -/
  buffered : List ℕ
  /-- ghost: the requests that have been called back -/
  called : List ℕ
  /-- ghost: all ranges written, as offset and length -/
  writes : List (ℤ × ℕ)

/-- the configuration variables that `handleWrite` reads -/
structure Config where
  aggWriteBacklog : ℤ
  maxDocSize : ℤ

/-- what `handleWrite` reads of the VC. All its callers cut the data at the largest fragment. -/
structure WriteVC where
  vc : ℕ
  writeLen : ℕ
  writeLen_le : writeLen ≤ MAX_FRAG_SIZE
  headerLen : ℕ
  readers : Bool
  evacVector : Bool
  sync : Bool
  useFirstKey : Bool
  ndone : ℤ
  nbytes : ℤ

/-- assignment to an `int` -/
def int32 (x : ℤ) : ℤ := x.bmod (2 ^ 32)

def INT_MAX : ℕ := 2 ^ 31 - 1

def INT64_MAX : ℤ := 2 ^ 63 - 1

/-- difference of two `uint32_t` -/
def usub (x y : ℕ) : ℕ := (x + 2 ^ 32 - y) % 2 ^ 32

def UINT_WRAP_LTE (x y : ℕ) : Bool := usub y x < INT_MAX

def UINT_WRAP_LT (x y : ℕ) : Bool := INT_MAX ≤ usub x y

/-! ## Evacuation -/

/-- evacuation blocks, by bucket -/
abbrev Blocks := ℤ → List EvacuationBlock

/-- the block of a bucket with the least offset among those that `evac_range` looks for; the first of several -/
def evacPick (s e : ℤ) (phase : Bool) (l : List EvacuationBlock) : Option EvacuationBlock :=
  l.foldl (fun first b =>
    if s ≤ b.dir.offset ∧ (b.dir.offset : ℤ) < e ∧ b.done = false ∧ b.dir.phase = phase then
      match first with
      | none => some b
      | some f => if b.dir.offset < f.dir.offset then some b else first
    else first) none

/-- the read of a block's document, clipped at the end of the volume -/
def evacIo (g : VolGeom) (b : EvacuationBlock) : Io :=
  let nbytes : ℤ := b.dir.approxSize
  let offset := g.volOffset b.dir
  .evacRead offset (if offset + nbytes > g.skip + g.len then g.skip + g.len - offset else nbytes)

/-- `Vol::evac_range`: the state with the first read started, if there is a document to evacuate -/
def evacRange (g : VolGeom) (low high : ℤ) (phase : Bool) (v : Vol) : Option Vol :=
  let s := g.offsetToVolOffset low
  let e := g.offsetToVolOffset high
  let si := dirOffsetEvacBucket s
  let ei := dirOffsetEvacBucket e
  ((List.range (ei - si + 1).toNat).map fun i => si + i).findSome? fun i =>
    (evacPick s e phase (v.evacuate i)).map fun b =>
      let l := v.evacuate i
      { v with evacuate := Function.update v.evacuate i (l.modify (l.idxOf b) fun x => { x with done := true }),
               io := some (evacIo g b) }

/-- `evacuate_cleanup` and `scan_for_pinned_documents` change the blocks by `scan` -/
def periodicScan (g : VolGeom) (scan : Blocks → Blocks) (v : Vol) : Vol :=
  { v with evacuate := scan v.evacuate,
           scanPos := (if v.writePos = g.start then g.start else v.scanPos) + g.len.tdiv PIN_SCAN_EVERY }

/-! ## `Vol::aggWrite` -/

/-- `sync.insert`: behind the last request that is not newer -/
def syncInsert (c : Req) (l : List Req) : List Req :=
  let newer := l.reverse.takeWhile fun x => UINT_WRAP_LT c.writeSerial x.writeSerial
  let older := l.reverse.dropWhile fun x => UINT_WRAP_LT c.writeSerial x.writeSerial
  older.reverse ++ c :: newer.reverse

/-- the loop that copies requests into the buffer; `tocall` collects those to call back -/
def aggLoop (g : VolGeom) : List Req → Vol → List Req → Vol × List Req
  | [], v, tocall => ({ v with agg := [] }, tocall)
  | c :: q, v, tocall =>
    if v.aggBufPos + c.aggLen > AGG_SIZE ∨ v.writePos + v.aggBufPos + c.aggLen > g.skip + g.len then
      ({ v with agg := c :: q }, tocall)
    else
      let v := { v with aggTodoSize := int32 (v.aggTodoSize - c.aggLen), aggBufPos := v.aggBufPos + c.aggLen,
                        buffered := c.id :: v.buffered }
      if c.sync then aggLoop g q { v with sync := syncInsert { c with writeSerial := v.writeSerial } v.sync } tocall
      else if c.evacuator then aggLoop g q { v with called := c.id :: v.called } tocall
      else aggLoop g q v (tocall ++ [c])

def aggWrap (g : VolGeom) (scan : Blocks → Blocks) (v : Vol) : Vol :=
  periodicScan g scan { v with writePos := g.start, phase := !v.phase, cycle := v.cycle + 1, aggPos := g.start }

/-- "punt on everything": every queued request is dropped and called back -/
def aggPunt (v : Vol) : Vol :=
  { v with agg := [], aggTodoSize := int32 (v.aggTodoSize - (v.agg.map Req.aggLen).sum),
           called := v.agg.map Req.id ++ v.called }

/-- `Lwait`: the collected requests are called back -/
def aggWait (tocall : List Req) (v : Vol) : Vol := { v with called := tocall.map Req.id ++ v.called }

/-- the write itself, of a sync marker if the buffer is empty -/
def aggIssue (g : VolGeom) (v : Vol) : Vol :=
  let n := if v.aggBufPos = 0 then g.markerLen else v.aggBufPos
  { v with aggBufPos := n, aggPos := v.writePos + n, io := some (.aggWrite v.writePos n),
           writes := (v.writePos, n) :: v.writes }

/-- "evacuate space": in front of the write, and at the start of the volume when it reaches around the end -/
def evacSpace (g : VolGeom) (v : Vol) : Option Vol :=
  let stop := v.writePos + v.aggBufPos + EVACUATION_SIZE
  match evacRange g v.writePos stop (!v.phase) v with
  | some v => some v
  | none =>
    if stop > g.skip + g.len then evacRange g g.start (g.start + (stop - (g.skip + g.len))) v.phase v else none

/-- from "evacuate space" on -/
def aggFinish (g : VolGeom) (v : Vol) : Vol :=
  match evacSpace g v with
  | some v => v
  | none =>
    if v.aggBufPos < AGG_HIGH_WATER ∧ v.agg = [] ∧ v.sync = [] ∧ v.dirSyncWaiting = false then v else aggIssue g v

/-- `aggWrite` from `Lagain` on, with at most `fuel` passes -/
def aggAgain (g : VolGeom) (scan : Blocks → Blocks) : ℕ → Vol → List Req → Vol
  | 0, v, tocall => aggWait tocall v
  | fuel + 1, v, tocall =>
    let (v, tocall) := aggLoop g v.agg v tocall
    if v.aggBufPos = 0 then
      if v.agg = [] ∧ v.sync = [] then v
      else if v.writePos = g.start then aggPunt v
      else if v.agg ≠ [] then aggAgain g scan fuel (aggWrap g scan v) tocall
      else aggWait tocall (aggFinish g v)
    else aggWait tocall (aggFinish g v)

/-- `Vol::aggWrite`: after one wrap `write_pos` is `start`, so there is no third pass -/
def aggWrite (g : VolGeom) (scan : Blocks → Blocks) (v : Vol) : Vol := aggAgain g scan 2 v []

/-! ## The handlers around it -/

/-- a request is put on the queue -/
def enqueue (v : Vol) (agg : List Req) (aggLen : ℕ) : Vol :=
  { v with agg := agg, aggTodoSize := int32 (v.aggTodoSize + aggLen), nextId := v.nextId + 1 }

/-- the VCs that wait for a call back -/
def waiting (v : Vol) : List ℕ := (v.agg ++ v.sync).map Req.vc

/-- `CacheVC::handleWrite`, up to the call of `aggWrite`: the new state, and whether it is called. A request that is
refused leaves the volume as it was. -/
def handleWrite (g : VolGeom) (cfg : Config) (w : WriteVC) (v : Vol) : Vol × Bool :=
  let aggLen := g.roundToApproxSize ((w.writeLen + w.headerLen + sizeofDoc) % 2 ^ 32)
  let todo := int32 (v.aggTodoSize + aggLen)
  let aggError := AGG_SIZE < aggLen ∨ MAX_FRAG_SIZE < w.headerLen + sizeofDoc ∨
    (w.readers = false ∧ cfg.aggWriteBacklog + AGG_SIZE < todo ∧ w.writeLen ≠ 0)
  let maxDocError := cfg.maxDocSize ≠ 0 ∧
    (cfg.maxDocSize < w.ndone ∨ (w.nbytes ≠ INT64_MAX ∧ cfg.maxDocSize < w.nbytes))
  if aggError ∨ maxDocError then ({ v with aggTodoSize := int32 (todo - aggLen) }, false)
  else
    let c : Req := ⟨v.nextId, w.vc, aggLen, false, w.sync && w.useFirstKey, 0⟩
    (enqueue v (if w.evacVector then c :: v.agg else v.agg ++ [c]) aggLen, v.io.isNone)

/-- `Vol::evacuateWrite`, up to the call: behind the other evacuators -/
def evacuateWrite (g : VolGeom) (vc docLen : ℕ) (v : Vol) : Vol :=
  let aggLen := g.roundToApproxSize docLen
  let c : Req := ⟨v.nextId, vc, aggLen, true, false, 0⟩
  enqueue v (v.agg.takeWhile Req.evacuator ++ c :: v.agg.dropWhile Req.evacuator) aggLen

/-- the loop of `aggWriteDone` over `sync`: requests two writes old are called back -/
def syncReady (writeSerial : ℕ) (l : List Req) : List Req :=
  l.takeWhile fun c => UINT_WRAP_LTE ((c.writeSerial + 2) % 2 ^ 32) writeSerial

def syncCall (v : Vol) : Vol :=
  { v with sync := v.sync.drop (syncReady v.writeSerial v.sync).length,
           called := (syncReady v.writeSerial v.sync).map Req.id ++ v.called }

/-- `Vol::aggWriteDone`, up to the call of `aggWrite` -/
def aggWriteDone (g : VolGeom) (scan : Blocks → Blocks) (ok : Bool) (nbytes : ℕ) (v : Vol) : Vol × Bool :=
  let v :=
    if ok then
      let v := { v with lastWritePos := v.writePos, writePos := v.writePos + nbytes }
      let v := if v.scanPos < v.writePos + (EVACUATION_SIZE : ℤ) then periodicScan g scan v else v
      { v with aggBufPos := 0, buffered := [], writeSerial := (v.writeSerial + 1) % 2 ^ 32 }
    else { v with aggBufPos := 0, buffered := [] }
  let v := syncCall { v with io := none }
  let v := { v with dirSyncWaiting := false }
  (v, decide (v.agg ≠ [] ∨ v.sync ≠ []))

/-- what happens to a volume. `evacReadDone` brings the VC and the document length of an evacuation that is to be
written, or nothing; `dirSync` is the directory sync asking for the buffer to be written out. -/
inductive Op where
  | handleWrite (w : WriteVC)
  | aggWriteDone (ok : Bool)
  | evacReadDone (doc : Option (ℕ × ℕ))
  | dirSync
  | blocks (scan : Blocks → Blocks)

/-- a handler up to its call of `aggWrite`: the state at the call, and whether there is one. A VC has one request at a
time. An evacuated document has a header, as all that was ever written; its length is asserted to fit the buffer. -/
def enter (g : VolGeom) (cfg : Config) (scan : Blocks → Blocks) (v : Vol) : Op → Vol × Bool
  | .handleWrite w => if w.vc ∈ waiting v then (v, false) else handleWrite g cfg w v
  | .aggWriteDone ok =>
    match v.io with
    | some (.aggWrite _ n) => aggWriteDone g scan ok n v
    | _ => (v, false)
  | .evacReadDone doc =>
    match v.io, doc with
    | some (.evacRead _ _), some (vc, docLen) =>
      if vc ∉ waiting v ∧ sizeofDoc ≤ docLen ∧ docLen ≤ AGG_SIZE ∧ g.roundToApproxSize docLen ≤ AGG_SIZE then
        (evacuateWrite g vc docLen { v with io := none }, true)
      else (v, false)
    | some (.evacRead _ _), none => ({ v with io := none }, true)
    | _, _ => (v, false)
  | .dirSync =>
    if v.io.isSome ∨ v.aggBufPos ≠ 0 then ({ v with dirSyncWaiting := true }, v.io.isNone) else (v, false)
  | .blocks f => ({ v with evacuate := f v.evacuate }, false)

def step (g : VolGeom) (cfg : Config) (v : Vol) (i : Op × (Blocks → Blocks)) : Vol :=
  match enter g cfg i.2 v i.1 with
  | (v, true) => aggWrite g i.2 v
  | (v, false) => v

theorem step_eq (g : VolGeom) (cfg : Config) (v : Vol) (i : Op × (Blocks → Blocks)) :
    step g cfg v i =
      if (enter g cfg i.2 v i.1).2 then aggWrite g i.2 (enter g cfg i.2 v i.1).1 else (enter g cfg i.2 v i.1).1 := by
  unfold step
  rcases enter g cfg i.2 v i.1 with ⟨v', _ | _⟩ <;> rfl

def run (g : VolGeom) (cfg : Config) (v : Vol) (ops : List (Op × (Blocks → Blocks))) : Vol := ops.foldl (step g cfg) v

/-- a volume at start-up, with what its header and the evacuation table hold -/
def init (phase : Bool) (cycle : ℕ) (writePos lastWritePos aggPos : ℤ) (writeSerial : ℕ) (evacuate : Blocks)
    (scanPos : ℤ) : Vol where
  phase := phase
  cycle := cycle
  writePos := writePos
  lastWritePos := lastWritePos
  aggPos := aggPos
  writeSerial := writeSerial
  aggBufPos := 0
  aggTodoSize := 0
  agg := []
  sync := []
  io := none
  dirSyncWaiting := false
  evacuate := evacuate
  scanPos := scanPos
  nextId := 0
  buffered := []
  called := []
  writes := []

/-! ## What a pass of `aggWrite` does

`aggAgain_rule` reduces a property of `aggWrite` to its parts: the copying loop, the wrap, and the three ways out. -/

theorem aggAgain_rule {g : VolGeom} {scan : Blocks → Blocks} {P : Vol → List Req → Prop} {Q : Vol → Prop}
    (hloop : ∀ v t, P v t → P (aggLoop g v.agg v t).1 (aggLoop g v.agg v t).2)
    (hidle : ∀ v t, P v t → v.aggBufPos = 0 → v.agg = [] → Q v)
    (hpunt : ∀ v t, P v t → v.aggBufPos = 0 → Q (aggPunt v))
    (hwrap : ∀ v t, P v t → v.aggBufPos = 0 → v.agg ≠ [] → P (aggWrap g scan v) t)
    (hfinish : ∀ v t, P v t → (v.aggBufPos = 0 → v.agg = [] ∧ v.sync ≠ [] ∧ v.writePos ≠ g.start) →
      Q (aggWait t (aggFinish g v)))
    (hwait : ∀ v t, P v t → Q (aggWait t v))
    (fuel : ℕ) (v : Vol) (t : List Req) (h : P v t) : Q (aggAgain g scan fuel v t) := by
  induction fuel generalizing v t with
  | zero => exact hwait v t h
  | succ fuel ih =>
    have hP := hloop v t h
    simp only [aggAgain]
    split_ifs with hbuf hnone hstart hagg
    · exact hidle _ _ hP hbuf hnone.1
    · exact hpunt _ _ hP hbuf
    · exact ih _ _ (hwrap _ _ hP hbuf hagg)
    · apply hfinish _ _ hP
      intro _
      have hnil : (aggLoop g v.agg v t).1.agg = [] := not_not.mp hagg
      exact ⟨hnil, fun hs => hnone ⟨hnil, hs⟩, hstart⟩
    · exact hfinish _ _ hP fun h0 => absurd h0 hbuf

theorem evacRange_some {g : VolGeom} {low high : ℤ} {phase : Bool} {v v' : Vol}
    (h : evacRange g low high phase v = some v') :
    ∃ e o n, v' = { v with evacuate := e, io := some (.evacRead o n) } := by
  unfold evacRange at h
  obtain ⟨i, -, hi⟩ := List.exists_of_findSome?_eq_some h
  obtain ⟨b, -, rfl⟩ := Option.map_eq_some_iff.mp hi
  exact ⟨_, _, _, rfl⟩

theorem evacSpace_some {g : VolGeom} {v v' : Vol} (h : evacSpace g v = some v') :
    ∃ e o n, v' = { v with evacuate := e, io := some (.evacRead o n) } := by
  simp only [evacSpace] at h
  split at h
  case h_1 w hw =>
    obtain rfl : w = v' := Option.some.inj h
    exact evacRange_some hw
  case h_2 hw =>
    split_ifs at h with hend
    exact evacRange_some h

/-- the three ways out of `aggFinish`: an evacuation read, nothing yet, or the write -/
theorem aggFinish_cases (g : VolGeom) (v : Vol) :
    (∃ e o n, aggFinish g v = { v with evacuate := e, io := some (.evacRead o n) }) ∨
      (aggFinish g v = v ∧ v.sync = []) ∨ (aggFinish g v = aggIssue g v ∧ evacSpace g v = none) := by
  unfold aggFinish
  rcases hev : evacSpace g v with _ | v'
  · rcases Classical.em (v.aggBufPos < AGG_HIGH_WATER ∧ v.agg = [] ∧ v.sync = [] ∧ v.dirSyncWaiting = false) with hw | hw
    · exact Or.inr (Or.inl ⟨by simp only [hw, and_self, if_true], hw.2.2.1⟩)
    · exact Or.inr (Or.inr ⟨by simp only [hw, if_false], rfl⟩)
  · obtain ⟨e, o, n, rfl⟩ := evacSpace_some hev
    exact Or.inl ⟨e, o, n, rfl⟩

/-- what the copying loop leaves alone -/
theorem aggLoop_frame (g : VolGeom) (q : List Req) (v : Vol) (t : List Req) :
    let v' := (aggLoop g q v t).1
    v'.writePos = v.writePos ∧ v'.io = v.io ∧ v'.writes = v.writes ∧ v'.nextId = v.nextId := by
  induction q generalizing v t with
  | nil => exact ⟨rfl, rfl, rfl, rfl⟩
  | cons c q ih =>
    simp only [aggLoop]
    split_ifs with hfull hsync hevac
    · exact ⟨rfl, rfl, rfl, rfl⟩
    · exact ih _ _
    · exact ih _ _
    · exact ih _ _

end TrafficServer.Cache.Aggregation
