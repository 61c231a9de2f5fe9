/-
The write side of `CacheVC` (CacheWrite.cc, Cache.cc, P_CacheInternal.h): from `open_write` to `openWriteCloseDir`.

A write VC takes the bytes of an object from its client's buffer (`openWriteMain`), writes them as fragments under the keys of
the chain of `earliest_key` (`openWriteWriteDone`), and after `do_io_close` writes what is left and then the head with the
vector of alternates (`openWriteClose`, `openWriteCloseDataDone`, `openWriteCloseHead`, `updateVector`,
`openWriteCloseHeadDone`). Every way out leads to `openWriteCloseDir`, which with a virtual disk also admits the object there.
A small object is written with the head alone.

One step is a call of the client (`set_http_info`, `do_io_write`, `do_io_close`, a change of the VIO or of its buffer) or an
event to the VC's handler. What a handler finds around it is in `World`: whether the volume's lock and the vector are free,
and what `updateVector` finds in the vector. A write ends by `AIO_EVENT_DONE`; `handleWrite` may have refused it, and as
nothing sets `io.aio_result` back, `io.ok()` stays false after a refused write. `calluser` returns the control to the client
inside `openWriteMain`: `callback` says where the call stands. The lock that `openWriteCloseDir` takes is tried in a step of
its own. The stored bytes (`docs`, `head`), the bytes taken from the client (`consumed`) and the calls of `admit` are kept for
the statements; no branch reads them.
-/
import TrafficServer.Cache.CacheKey
import TrafficServer.Cache.Vol

namespace TrafficServer.Cache.WriteVC

/-- configuration: `cache_config_target_fragment_size`, and whether the volume has a virtual disk (`vdisk_cache`) -/
structure Config where
  targetFragmentSize : ℕ
  vdiskCache : Bool
  above_doc : sizeofDoc < targetFragmentSize

def Config.target_fragment_size (cfg : Config) : ℕ := cfg.targetFragmentSize - sizeofDoc

/-- the alternate (`CacheHTTPInfo`): key and size of its object, and the table of fragment offsets -/
structure HTTPInfo where
  objectKey : CacheKey
  objectSize : ℕ
  fragOffsets : List ℕ
deriving DecidableEq

/-- `push_frag_offset`: the array grows by doubling, which the list does not show -/
def HTTPInfo.pushFragOffset (a : HTTPInfo) (offset : ℕ) : HTTPInfo := { a with fragOffsets := a.fragOffsets ++ [offset] }

/-- a document on disk: key, length of its header, data -/
structure Doc where
  key : CacheKey
  hlen : ℕ
  data : List UInt8
deriving DecidableEq

inductive Handler where
  | openWriteMain
  | openWriteWriteDone
  | openWriteClose
  | openWriteCloseDataDone
  | updateVector
  | openWriteCloseHeadDone
  | openWriteCloseDir
  | freed
deriving DecidableEq

/-- the call of the client that `openWriteMain` is in: none, `WRITE_READY` without a buffer, `WRITE_COMPLETE`, `WRITE_READY`
for more data, `ERROR` -/
inductive Callback where
  | none
  | noBuffer (calledUser : Bool)
  | complete
  | ready
  | error
deriving DecidableEq

/-- a call of `vdisk_cache->admit`: the size it reports, and what was true of the VC -/
structure Admit where
  size : ℤ
  closed : ℤ
  ioOk : Bool
  head : Bool
  written : ℕ

structure VC where
  handler : Handler
  callback : Callback
  update : Bool
  http : Bool
  allowEmptyDoc : Bool
  closeComplete : Bool
  dataDone : Bool
  rewriteResidentAlt : Bool
  /-- 0, 1 after a close and -1 after an abort -/
  closed : ℤ
  ioInProgress : Bool
  ioOk : Bool
  /-- the VIO: length, done, and the client's buffer -/
  nbytes : ℤ
  ndone : ℤ
  hasBuffer : Bool
  buffer : List UInt8
  /-- the `length` bytes at `offset` in `blocks`: taken from the client and not yet written -/
  blocks : List UInt8
  totalLen : ℕ
  writeLen : ℕ
  writePos : ℕ
  fragment : ℕ
  key : CacheKey
  earliestKey : CacheKey
  updateKey : CacheKey
  updateLen : ℕ
  alternate : Option HTTPInfo
  consumed : List UInt8
  /-- the fragments that the directory knows, and the data in the head -/
  docs : List Doc
  head : Option (List UInt8)
  admits : List Admit

/-- a VC as `open_write` hands it to the client -/
def init (update http closeComplete : Bool) (key updateKey : CacheKey) (updateLen : ℕ) : VC where
  handler := .openWriteMain
  callback := .none
  update := update
  http := http
  allowEmptyDoc := false
  closeComplete := closeComplete
  dataDone := false
  rewriteResidentAlt := false
  closed := 0
  ioInProgress := false
  ioOk := true
  nbytes := 0
  ndone := 0
  hasBuffer := false
  buffer := []
  blocks := []
  totalLen := 0
  writeLen := 0
  writePos := 0
  fragment := 0
  key := key
  earliestKey := key
  updateKey := updateKey
  updateLen := updateLen
  alternate := none
  consumed := []
  docs := []
  head := none
  admits := []

/-- what a handler finds: the volume's lock is held by another thread; the vector is in use; of an alternate that an update
deletes, that it is no longer there or was the last one; the fragment table of the alternate that an update replaces; the
length of a resident alternate that has to move with the vector -/
structure World where
  volBusy : Bool
  vecBusy : Bool
  gone : Bool
  old : Option (List ℕ)
  resident : Option ℕ

namespace VC

def length (v : VC) : ℕ := v.blocks.length

def ntodo (v : VC) : ℤ := v.nbytes - v.ndone

/-- the data of the fragments, in order -/
def docsData (v : VC) : List UInt8 := (v.docs.map Doc.data).flatten

/-- body bytes written for this object -/
def written (v : VC) : ℕ := v.docsData.length + (v.head.getD []).length

/-! ## Closing -/

/-- a call of `openWriteCloseDir` -/
def callCloseDir (v : VC) : VC := { v with handler := .openWriteCloseDir }

def openWriteCloseDir (cfg : Config) (w : World) (v : VC) : VC :=
  if w.volBusy then v
  else
    { v with
      handler := .freed
      admits :=
        if cfg.vdiskCache ∧ v.alternate.isSome then
          v.admits ++ [⟨v.nbytes, v.closed, v.ioOk, v.head.isSome, v.written⟩]
        else v.admits }

/-- `AIO_EVENT_DONE` ends the write in progress; with a write in progress any other event is ignored -/
def ioDone (aio : Option Bool) (v : VC) : Option VC :=
  if v.ioInProgress then aio.map fun ok => { v with ioInProgress := false, ioOk := v.ioOk && ok } else some v

def openWriteCloseHeadDone (aio : Option Bool) (w : World) (v : VC) : VC :=
  match v.ioDone aio with
  | none => v
  | some v =>
    if w.volBusy then v
    else if v.ioOk then
      callCloseDir { v with head := some (if v.rewriteResidentAlt then [] else v.blocks.take v.writeLen) }
    else callCloseDir v

/-- the alternate as `updateVector` puts it into the vector and `agg_copy` marshals it -/
def vectorInfo (w : World) (v : VC) (a : HTTPInfo) : HTTPInfo where
  objectKey := a.objectKey
  objectSize := if ¬ v.update ∨ v.totalLen ≠ 0 then v.totalLen else a.objectSize
  fragOffsets := if v.update then w.old.getD a.fragOffsets else a.fragOffsets

def updateVector (w : World) (v : VC) : VC :=
  if w.vecBusy then v
  else if v.update ∧ v.alternate.isNone ∧ w.gone then callCloseDir v
  else
    let moved := w.resident.isSome ∧ (v.fragment ≠ 0 ∨ (v.update ∧ v.totalLen = 0))
    { v with
      handler := .openWriteCloseHeadDone
      ioInProgress := true
      alternate := v.alternate.map (v.vectorInfo w)
      rewriteResidentAlt := v.rewriteResidentAlt || moved
      writeLen := if moved then w.resident.getD 0 else v.writeLen }

def openWriteCloseHead (w : World) (v : VC) : VC :=
  if v.ioOk then
    let v := { v with writeLen := if v.dataDone then 0 else v.length }
    if v.http then updateVector w { v with handler := .updateVector }
    else { v with handler := .openWriteCloseHeadDone, ioInProgress := true }
  else callCloseDir v

/-- a fragment is on disk: its start goes into the table unless it is the first one, its key into the directory -/
def fragmentDone (v : VC) : VC :=
  { v with
    alternate := if v.fragment = 0 then v.alternate else v.alternate.map (·.pushFragOffset v.writePos)
    fragment := v.fragment + 1
    writePos := v.writePos + v.writeLen
    docs := v.docs ++ [⟨v.key, 0, v.blocks.take v.writeLen⟩]
    blocks := v.blocks.drop v.writeLen
    key := nextCacheKey v.key }

/-- the write of what is left, a fragment at most -/
def writeRest (v : VC) : VC := { v with ioInProgress := true, writeLen := min v.length MAX_FRAG_SIZE }

def openWriteCloseDataDone (aio : Option Bool) (w : World) (v : VC) : VC :=
  match v.ioDone aio with
  | none => v
  | some v =>
    if ¬ v.ioOk then callCloseDir v
    else if w.volBusy then v
    else
      let v := v.fragmentDone
      if v.length ≠ 0 then v.writeRest else openWriteCloseHead w { v with dataDone := true }

/-- `openWriteClose` with no write in progress -/
def closeNow (w : World) (v : VC) : VC :=
  if 0 < v.closed ∨ v.allowEmptyDoc then
    if v.totalLen = 0 then
      if v.update ∨ v.allowEmptyDoc then updateVector w v
      -- closed, but nothing has been written: the close is made an abort
      else callCloseDir { v with closed := -1 }
    else if v.length ≠ 0 ∧ (v.fragment ≠ 0 ∨ MAX_FRAG_SIZE < v.length) then
      writeRest { v with handler := .openWriteCloseDataDone }
    else openWriteCloseHead w v
  else callCloseDir v

def openWriteClose (aio : Option Bool) (w : World) (v : VC) : VC :=
  match v.ioDone aio with
  | none => v
  | some v' => if v.ioInProgress ∧ ¬ v'.ioOk then callCloseDir v' else closeNow w v'

/-- a write in progress comes back to `closed` at the end of `openWriteWriteDone` -/
def die (w : World) (v : VC) : VC :=
  let v :=
    { v with
      alternate :=
        if v.update ∧ v.totalLen ≠ 0 then v.alternate.map fun a => { a with objectKey := v.earliestKey } else v.alternate }
  if v.ioInProgress then v else openWriteClose none w { v with handler := .openWriteClose, callback := .none }

/-! ## Writing -/

/-- cut the pair (`avail`, `towrite`) to a limit of `towrite` -/
def clip (limit : ℤ) (p : ℤ × ℤ) : ℤ × ℤ := if limit < p.2 then (p.1 - (p.2 - limit), limit) else p

/-- take `avail` bytes from the client; `blocks` and `length` then hold `towrite` bytes -/
def consume (avail towrite : ℤ) (v : VC) : VC :=
  let taken := v.buffer.take avail.toNat
  { v with
    buffer := v.buffer.drop avail.toNat
    ndone := v.ndone + taken.length
    totalLen := v.totalLen + taken.length
    consumed := v.consumed ++ taken
    blocks := (v.blocks ++ v.buffer).take towrite.toNat }

/-- a piece a little longer than the target is cut to it -/
def pickWriteLen (cfg : Config) (length : ℕ) : ℕ :=
  if cfg.target_fragment_size < length ∧ length < cfg.target_fragment_size + cfg.target_fragment_size / 4 then
    cfg.target_fragment_size
  else length

/-- the end of `openWriteMain`: write, or wait for more data -/
def writeOrWait (cfg : Config) (w : World) (calledUser : Bool) (ntodo towrite : ℤ) (v : VC) : VC :=
  let notWriting := towrite ≠ ntodo ∧ towrite < cfg.target_fragment_size
  if ¬ calledUser ∧ notWriting then { v with callback := .ready }
  -- back to the top, where nothing is left to do
  else if ¬ calledUser ∧ v.ntodo ≤ 0 then { v with callback := .complete }
  else if notWriting then v
  else if towrite = ntodo ∧ v.closeComplete then openWriteClose none w { v with closed := 1, handler := .openWriteClose }
  else { v with handler := .openWriteWriteDone, ioInProgress := true }

/-- `openWriteMain` once there is a buffer and something to do -/
def writeSome (cfg : Config) (w : World) (calledUser : Bool) (v : VC) : VC :=
  let ntodo := v.ntodo + v.length
  let p := clip MAX_FRAG_SIZE (clip ntodo (v.buffer.length, v.buffer.length + v.length))
  let v := v.consume p.1 p.2
  writeOrWait cfg w calledUser ntodo p.2 { v with writeLen := pickWriteLen cfg v.length }

def afterBuffer (cfg : Config) (w : World) (calledUser : Bool) (v : VC) : VC :=
  if v.ntodo ≤ 0 then { v with callback := .complete } else writeSome cfg w calledUser v

def lagain (cfg : Config) (w : World) (calledUser : Bool) (v : VC) : VC :=
  if v.hasBuffer then afterBuffer cfg w calledUser v else { v with callback := .noBuffer calledUser }

/-- `openWriteMain`, from the top or from the callback it is in; a close inside the callback is seen here -/
def openWriteMain (cfg : Config) (w : World) (v : VC) : VC :=
  let v' := { v with callback := .none }
  if v.callback ≠ .none ∧ v.closed ≠ 0 then die w v'
  else
    match v.callback with
    | .none => lagain cfg w false v'
    | .noBuffer calledUser => if v.hasBuffer then afterBuffer cfg w calledUser v' else v'
    | .complete => if v.ntodo ≤ 0 then v' else writeSome cfg w true v'
    | .ready => lagain cfg w true v'
    | .error => v'

def openWriteWriteDone (cfg : Config) (aio : Option Bool) (w : World) (v : VC) : VC :=
  match v.ioDone aio with
  | none => v
  | some v =>
    if ¬ v.ioOk then
      if v.closed ≠ 0 then die w { v with closed := -1 } else { v with handler := .openWriteMain, callback := .error }
    else if w.volBusy then v
    else
      let v := v.fragmentDone
      if v.closed ≠ 0 then die w v else openWriteMain cfg w { v with handler := .openWriteMain }

/-! ## Calls of the client -/

/-- `set_http_info`, with the size in the given info and whether it announces an empty document; asserts that no byte was
taken yet -/
def setHttpInfo (size : ℕ) (allowEmptyDoc : Bool) (v : VC) : VC :=
  if v.totalLen = 0 then
    { v with
      alternate := some (if v.update then ⟨v.updateKey, v.updateLen, []⟩ else ⟨v.earliestKey, size, []⟩)
      allowEmptyDoc := allowEmptyDoc }
  else v

def doIoWrite (nbytes : ℤ) (buffer : List UInt8) (v : VC) : VC := { v with ndone := 0, nbytes, hasBuffer := true, buffer }

def doIoClose (alerrno : ℤ) (w : World) (v : VC) : VC :=
  let v' := { v with closed := if alerrno = -1 then 1 else -1 }
  if v.closed = 0 ∧ v.callback = .none then die w v' else v'

end VC

/-! ## Runs -/

/-- a step: a call of the client, or an event to the handler (`some ok` with the result of the write for `AIO_EVENT_DONE`) -/
inductive Op where
  | setHttpInfo (size : ℕ) (allowEmptyDoc : Bool)
  | doIoWrite (nbytes : ℤ) (buffer : List UInt8)
  | setNbytes (nbytes : ℤ)
  | fill (data : List UInt8)
  | doIoClose (alerrno : ℤ) (w : World)
  | event (aio : Option Bool) (w : World)

def handleEvent (cfg : Config) (aio : Option Bool) (w : World) (v : VC) : VC :=
  match v.handler with
  | .openWriteMain => v.openWriteMain cfg w
  | .openWriteWriteDone => v.openWriteWriteDone cfg aio w
  | .openWriteClose => v.openWriteClose aio w
  | .openWriteCloseDataDone => v.openWriteCloseDataDone aio w
  | .updateVector => v.updateVector w
  | .openWriteCloseHeadDone => v.openWriteCloseHeadDone aio w
  | .openWriteCloseDir => v.openWriteCloseDir cfg w
  | .freed => v

/-- a freed VC takes no step -/
def step (cfg : Config) (v : VC) (op : Op) : VC :=
  if v.handler = .freed then v
  else
    match op with
    | .setHttpInfo size allowEmptyDoc => v.setHttpInfo size allowEmptyDoc
    | .doIoWrite nbytes buffer => v.doIoWrite nbytes buffer
    | .setNbytes nbytes => { v with nbytes }
    | .fill data => { v with buffer := v.buffer ++ data }
    | .doIoClose alerrno w => v.doIoClose alerrno w
    | .event aio w => handleEvent cfg aio w v

def run (cfg : Config) (v : VC) (ops : List Op) : VC := ops.foldl (step cfg) v

end TrafficServer.Cache.WriteVC
