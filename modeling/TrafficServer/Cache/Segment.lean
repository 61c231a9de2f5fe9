/-
Directory segments (`iocore/cache/CacheDir.cc`): buckets of `DIR_DEPTH` slots, chained through 16-bit indices, with one
freelist per segment.

A segment of `g.buckets` buckets has `g.slots = buckets * DIR_DEPTH` slots. Slot `4 * b` is the ROOT of bucket `b`; it is
never linked anywhere. The other slots are either on the chain of some bucket, reached from its root through `next`, or
on the freelist, doubly linked through `next` and `prev`. Index 0 is the null link (slot 0 is a root), so a slot pointer
is an `Option ℕ`: `none` is `nullptr`, and the root of bucket 0 is `some 0`.

`Seg` is the memory one segment's operations touch: its slots, `header->freelist[s]`, the header's dirty flag, the
directory-entries statistic. Two GHOST fields are never read by an operation: `stamp i` names the entry that slot `i`
holds. A newly inserted entry gets a fresh stamp, and the copy of a successor over a deleted root carries its stamp with
it, so an entry keeps its stamp while its slot changes.

Every function below is the source's under its own name. The `do ... while (e)` loops over a chain run on fuel
`g.slots + 1`, which `SegmentInv` proves is never exhausted; the `Lagain` loops of `dir_insert` and `dir_overwrite` need
not end, so they take their number of passes as an argument and return the state they reached with `none`.
-/
import Mathlib
import TrafficServer.Cache.Dir

namespace TrafficServer.Cache

/-! ## State -/

/-- the shape of a segment: at least one bucket, and every slot index fits the 16-bit links -/
structure SegGeom where
  buckets : ℕ
  pos : 0 < buckets
  fits : buckets * DIR_DEPTH ≤ MAX_ENTRIES_PER_SEGMENT

theorem one_bucket_fits : 1 * DIR_DEPTH ≤ MAX_ENTRIES_PER_SEGMENT := by decide

def SegGeom.slots (g : SegGeom) : ℕ := g.buckets * DIR_DEPTH

/-- the volume fields `dir_valid` reads -/
structure VolPos where
  phase : Bool
  writePos : ℤ
  aggPos : ℤ
  aggBufPos : ℤ
  start : ℤ
deriving DecidableEq, Repr

def volInPhaseValid (d : VolPos) (e : Dir) : Bool :=
  (e.offset : ℤ) - 1 < (d.writePos + d.aggBufPos - d.start).tdiv CACHE_BLOCK_SIZE

def volOutOfPhaseValid (d : VolPos) (e : Dir) : Bool :=
  (e.offset : ℤ) - 1 ≥ (d.aggPos - d.start).tdiv CACHE_BLOCK_SIZE

def dirValid (d : VolPos) (e : Dir) : Bool :=
  if d.phase = e.phase then volInPhaseValid d e else volOutOfPhaseValid d e

structure Seg where
  dir : ℕ → Dir
  freelist : ℕ
  dirty : Bool
  /-- `cache_direntries_used_stat` -/
  used : ℤ
  /-- ghost: the entry that a slot holds -/
  stamp : ℕ → ℕ
  /-- ghost: the next fresh stamp -/
  clock : ℕ

namespace Seg

def set (s : Seg) (i : ℕ) (e : Dir) : Seg := { s with dir := Function.update s.dir i e }

def modify (s : Seg) (i : ℕ) (f : Dir → Dir) : Seg := s.set i (f (s.dir i))

/-- ghost: slot `i` now holds a new entry -/
def mark (s : Seg) (i : ℕ) : Seg := { s with stamp := Function.update s.stamp i s.clock, clock := s.clock + 1 }

/-- ghost: slot `i` now holds the entry of slot `j` -/
def carry (s : Seg) (i j : ℕ) : Seg := { s with stamp := Function.update s.stamp i (s.stamp j) }

end Seg

def dirFromOffset (i : ℕ) : Option ℕ := if i = 0 then none else some i

def Seg.nextDir (s : Seg) (e : ℕ) : Option ℕ := dirFromOffset (s.dir e).next

/-- the back link of a freelist entry -/
def Seg.prevDir (s : Seg) (e : ℕ) : Option ℕ := dirFromOffset (s.dir e).prev

def dirBucket (b : ℕ) : ℕ := b * DIR_DEPTH

def dirBucketRow (b l : ℕ) : ℕ := b + l

/-! ## The freelist -/

def dirFreeEntry (e : ℕ) (s : Seg) : Seg :=
  let fo := s.freelist
  let s := s.modify e (·.setNext fo)
  let s := if fo ≠ 0 then s.modify fo (·.setPrev e) else s
  { s with freelist := e % 2 ^ 16 }

def dirInitSegment (g : SegGeom) (s : Seg) : Seg :=
  let s := { s with freelist := 0, dir := fun i => if i < g.slots then Dir.zero else s.dir i }
  [1, 2, 3].foldl (fun s l => (List.range g.buckets).foldl (fun s b => dirFreeEntry (dirBucketRow (dirBucket b) l) s) s) s

def unlinkFromFreelist (e : ℕ) (s : Seg) : Seg :=
  let s := match s.prevDir e with
    | some p => s.modify p (·.setNext (s.dir e).next)
    | none => { s with freelist := (s.dir e).next }
  match s.nextDir e with
  | some n => s.modify n (·.setPrev (s.dir e).prev)
  | none => s

/-! ## Deletion -/

/-- `dir_delete_entry` with a predecessor: `e` is cut out of the chain and pushed on the freelist -/
def dirDeleteAfter (e p : ℕ) (s : Seg) : Seg :=
  let no := (s.dir e).next
  let fo := s.freelist
  let s := { s with dirty := true }
  let s := s.set e Dir.zero
  let s := s.modify p (·.setNext no)
  let s := s.modify e (·.setNext fo)
  let s := if fo ≠ 0 then s.modify fo (·.setPrev e) else s
  { s with freelist := e % 2 ^ 16 }

/-- `dir_delete_entry`: returns the entry that follows the deleted one. A root is not linked, so deleting it copies its
successor over it and deletes the successor instead. -/
def dirDeleteEntry (e : ℕ) (p : Option ℕ) (s : Seg) : Seg × Option ℕ :=
  match p with
  | some p => (dirDeleteAfter e p s, dirFromOffset (s.dir e).next)
  | none =>
    match s.nextDir e with
    | some n => (dirDeleteAfter n e ((s.set e (s.dir n)).carry e n), some e)
    | none => ({ s.set e Dir.zero with dirty := true }, none)

/-- the loop of `dir_clean_bucket`, at entry `e` with predecessor `p` -/
def dirCleanLoop (d : VolPos) : ℕ → Option ℕ → ℕ → Seg → Seg
  | 0, _, _, s => s
  | fuel + 1, p, e, s =>
    if !dirValid d (s.dir e) || (s.dir e).isEmpty then
      let s := if (s.dir e).isEmpty then s else { s with used := s.used - 1 }
      match dirDeleteEntry e p s with
      | (s, none) => s
      | (s, some e) => dirCleanLoop d fuel p e s
    else
      match s.nextDir e with
      | none => s
      | some n => dirCleanLoop d fuel (some e) n s

def dirCleanBucket (g : SegGeom) (d : VolPos) (b : ℕ) (s : Seg) : Seg := dirCleanLoop d (g.slots + 1) none b s

def dirCleanSegment (g : SegGeom) (d : VolPos) (s : Seg) : Seg :=
  (List.range g.buckets).foldl (fun s i => dirCleanBucket g d (dirBucket i) s) s

/-- `dir_clear_range` on the slots of one segment, before the cleaning -/
def dirClearSlots (g : SegGeom) (start stop : ℤ) (s : Seg) : Seg :=
  (List.range g.slots).foldl (fun s e =>
    if !(s.dir e).token && decide (start ≤ (s.dir e).offset) && decide (((s.dir e).offset : ℤ) < stop) then
      { s.modify e (·.setOffset 0) with used := s.used - 1 }
    else s) s

/-- the purge of `freelist_clean`: every tenth entry that is a document head loses its offset -/
def freelistPurge (g : SegGeom) (s : Seg) : Seg :=
  ((List.range g.slots).foldl (fun (sn : Seg × ℕ) e =>
    if (sn.1.dir e).head then
      (if sn.2 % 10 = 0 then { sn.1.modify e (·.setOffset 0) with used := sn.1.used - 1 } else sn.1, sn.2 + 1)
    else sn) (s, 0)).1

def freelistClean (g : SegGeom) (d : VolPos) (s : Seg) : Seg :=
  let s := dirCleanSegment g d s
  if s.freelist ≠ 0 then s else dirCleanSegment g d (freelistPurge g s)

def freelistPop (g : SegGeom) (d : VolPos) (s : Seg) : Seg × Option ℕ :=
  match dirFromOffset s.freelist with
  | none => (freelistClean g d s, none)
  | some e =>
    let s := { s with freelist := (s.dir e).next }
    -- if the freelist is bad, punt
    if !(s.dir e).isEmpty then (dirInitSegment g s, none)
    else
      match dirFromOffset s.freelist with
      | some h => (s.modify h (·.setPrev 0), some e)
      | none => (s, some e)

/-! ## Lookup -/

/-- the loop of `dir_probe` at entry `e`: the slot of a hit, or else what is left of `collision` -/
def dirProbeLoop (d : VolPos) (key : CacheKey) : ℕ → Option ℕ → Option ℕ → ℕ → Seg → Seg × Option ℕ × Option ℕ
  | 0, collision, _, _, s => (s, none, collision)
  | fuel + 1, collision, p, e, s =>
    let cont (collision : Option ℕ) : Seg × Option ℕ × Option ℕ :=
      match s.nextDir e with
      | none => (s, none, collision)
      | some n => dirProbeLoop d key fuel collision (some e) n s
    if (s.dir e).compareTag key then
      if collision.isSome then cont (if collision = some e then none else collision)
      else if dirValid d (s.dir e) then (s, some e, none)
      else
        -- delete the invalid entry
        match dirDeleteEntry e p { s with used := s.used - 1 } with
        | (s, none) => (s, none, none)
        | (s, some e) => dirProbeLoop d key fuel none p e s
    else cont collision

def dirProbePass (g : SegGeom) (d : VolPos) (key : CacheKey) (collision : Option ℕ) (s : Seg) :
    Seg × Option ℕ × Option ℕ :=
  let b := dirBucket (key.slice32 1 % g.buckets)
  if (s.dir b).isEmpty then (s, none, collision) else dirProbeLoop d key (g.slots + 1) collision none b s

/-- `dir_probe`: on a hit the entry found and the new `*last_collision` -/
def dirProbe (g : SegGeom) (d : VolPos) (key : CacheKey) (lastCollision : Option ℕ) (s : Seg) :
    Seg × Option (Dir × ℕ) :=
  let found (s : Seg) (e : ℕ) : Seg × Option (Dir × ℕ) := (s, some (s.dir e, e))
  match dirProbePass g d key lastCollision s with
  | (s, some e, _) => found s e
  | (s, none, none) => (s, none)
  | (s, none, some _) =>
    -- last collision no longer in the list, retry
    match dirProbePass g d key none s with
    | (s, some e, _) => found s e
    | (s, none, _) => (s, none)

/-! ## Insertion and overwriting -/

/-- the first empty slot of the bucket's own row, the root apart -/
def emptyRow (b : ℕ) (s : Seg) : Option ℕ := [1, 2, 3].map (dirBucketRow b) |>.find? fun e => (s.dir e).isEmpty

/-- `Llink`: `e` becomes the successor of the root `b` -/
def dirLink (e b : ℕ) (s : Seg) : Seg := (s.modify e (·.setNext (s.dir b).next)).modify b (·.setNext e)

/-- `Lfill` -/
def dirFill (e : ℕ) (x : Dir) (t : ℕ) (s : Seg) : Seg :=
  { s.modify e (fun y => (y.assignData x).setTag t) with dirty := true }

/-- a slot for a new entry of the bucket with root `b`: its root, a slot of its row or one from the freelist, linked
behind the root. `none` when the freelist was empty: it has been cleaned and the caller goes back to `Lagain`. -/
def dirTakeSlot (g : SegGeom) (d : VolPos) (b : ℕ) (s : Seg) : Seg × Option ℕ :=
  if (s.dir b).isEmpty then (s, some b)
  else
    match emptyRow b s with
    | some e => (dirLink e b (unlinkFromFreelist e s), some e)
    | none =>
      match freelistPop g d s with
      | (s, some e) => (dirLink e b s, some e)
      | (s, none) => (s, none)

/-- fill a newly taken slot: the entry counts as used and is a new one -/
def dirFillNew (e : ℕ) (x : Dir) (t : ℕ) (s : Seg) : Seg :=
  { (dirFill e x t s).mark e with used := s.used + 1 }

/-- `dir_insert` with at most `fuel` passes through `Lagain` -/
def dirInsert (g : SegGeom) (d : VolPos) (key : CacheKey) (toPart : Dir) : ℕ → Seg → Seg × Option ℕ
  | 0, s => (s, none)
  | fuel + 1, s =>
    match dirTakeSlot g d (dirBucket (key.slice32 1 % g.buckets)) s with
    | (s, some e) => (dirFillNew e toPart (key.slice32 2) s, some 1)
    | (s, none) => dirInsert g d key toPart fuel s

/-- the search of `dir_overwrite` for the entry to overwrite, from entry `e` on -/
def dirOverwriteFind (t o : ℕ) : ℕ → ℕ → Seg → Option ℕ
  | 0, _, _ => none
  | fuel + 1, e, s =>
    if (s.dir e).tag = t ∧ (s.dir e).offset = o then some e
    else
      match s.nextDir e with
      | none => none
      | some n => dirOverwriteFind t o fuel n s

/-- `dir_overwrite` with at most `fuel` passes through `Lagain` -/
def dirOverwrite (g : SegGeom) (d : VolPos) (key : CacheKey) (dir overwrite : Dir) (mustOverwrite : Bool) :
    ℕ → Seg → Seg × Option ℕ
  | 0, s => (s, none)
  | fuel + 1, s =>
    let b := dirBucket (key.slice32 1 % g.buckets)
    let t := DIR_MASK_TAG (key.slice32 2)
    let found := if (s.dir b).isEmpty then none else dirOverwriteFind t overwrite.offset (g.slots + 1) b s
    match found with
    | some e => (dirFill e dir t s, some 1)
    | none =>
      if mustOverwrite then (s, some 0)
      else
        match dirTakeSlot g d b s with
        | (s, some e) => (dirFillNew e dir t s, some 0)
        | (s, none) => dirOverwrite g d key dir overwrite mustOverwrite fuel s

/-- the loop of `dir_delete`, at entry `e` with predecessor `p` -/
def dirDeleteLoop (key : CacheKey) (o : ℕ) : ℕ → Option ℕ → ℕ → Seg → Seg × ℕ
  | 0, _, _, s => (s, 0)
  | fuel + 1, p, e, s =>
    if (s.dir e).compareTag key && (s.dir e).offset == o then
      ((dirDeleteEntry e p { s with used := s.used - 1 }).1, 1)
    else
      match s.nextDir e with
      | none => (s, 0)
      | some n => dirDeleteLoop key o fuel (some e) n s

def dirDelete (g : SegGeom) (key : CacheKey) (del : Dir) (s : Seg) : Seg × ℕ :=
  let b := dirBucket (key.slice32 1 % g.buckets)
  if (s.dir b).isEmpty then (s, 0) else dirDeleteLoop key del.offset (g.slots + 1) none b s

/-! ## The directory of a volume -/

/-- all segments of a volume -/
structure VolDir where
  geom : SegGeom
  segments : ℕ
  seg : ℕ → Seg

def VolDir.dirSegment (v : VolDir) (key : CacheKey) : ℕ := key.slice32 0 % v.segments

def VolDir.setSeg (v : VolDir) (i : ℕ) (s : Seg) : VolDir := { v with seg := Function.update v.seg i s }

/-- apply `f` to every segment of the volume -/
def VolDir.mapSeg (v : VolDir) (f : Seg → Seg) : VolDir :=
  { v with seg := fun i => if i < v.segments then f (v.seg i) else v.seg i }

def dirCleanVol (d : VolPos) (v : VolDir) : VolDir := v.mapSeg (dirCleanSegment v.geom d)

def dirClearRange (d : VolPos) (start stop : ℤ) (v : VolDir) : VolDir :=
  dirCleanVol d (v.mapSeg (dirClearSlots v.geom start stop))

/-- one call into the directory; `d` is what the volume header holds at that moment -/
inductive DirOp where
  | insert (d : VolPos) (key : CacheKey) (toPart : Dir) (passes : ℕ)
  | overwrite (d : VolPos) (key : CacheKey) (dir old : Dir) (mustOverwrite : Bool) (passes : ℕ)
  | delete (key : CacheKey) (del : Dir)
  | probe (d : VolPos) (key : CacheKey) (lastCollision : Option ℕ)
  | cleanSegment (d : VolPos) (i : ℕ)
  | freelistClean (d : VolPos) (i : ℕ)
  | clearRange (d : VolPos) (start stop : ℤ)

def VolDir.step (v : VolDir) : DirOp → VolDir
  | .insert d key x n => v.setSeg (v.dirSegment key) (dirInsert v.geom d key x n (v.seg (v.dirSegment key))).1
  | .overwrite d key x o must n =>
    v.setSeg (v.dirSegment key) (dirOverwrite v.geom d key x o must n (v.seg (v.dirSegment key))).1
  | .delete key x => v.setSeg (v.dirSegment key) (dirDelete v.geom key x (v.seg (v.dirSegment key))).1
  | .probe d key c => v.setSeg (v.dirSegment key) (dirProbe v.geom d key c (v.seg (v.dirSegment key))).1
  | .cleanSegment d i => v.setSeg i (dirCleanSegment v.geom d (v.seg i))
  | .freelistClean d i => v.setSeg i (Cache.freelistClean v.geom d (v.seg i))
  | .clearRange d start stop => dirClearRange d start stop v

def VolDir.run (v : VolDir) (ops : List DirOp) : VolDir := ops.foldl VolDir.step v

/-- a volume whose segments have all been through `dir_init_segment`, whatever memory they had before -/
def VolDir.init (g : SegGeom) (segments : ℕ) (mem : ℕ → Seg) : VolDir := ⟨g, segments, fun i => dirInitSegment g (mem i)⟩

end TrafficServer.Cache
