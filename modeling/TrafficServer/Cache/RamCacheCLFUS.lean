/-
The CLFUS memory cache (`iocore/cache/RamCacheCLFUS.cc`).

`lru[0]` has the entries in memory, `lru[1]` those of which only the key and the hits are kept (the history). A new object goes
to memory while there is room and no history; after that it goes to the history, and an entry of the history comes back if it is
worth more than what has to leave: `put` takes victims from the head of `lru[0]` (a second chance for those above the average
value), and puts back those for which there is room after all. A third queue, the local `victims` of `put`, uses the same links;
it is kept in the state with the two others (`Lru`) and is empty between calls. `compressed` is a cursor in `lru[0]` for the
compression passes.

Sizes are `uint32_t`, so that `size + ENTRY_OVERHEAD` is a sum of 32 bits (`withOverhead`); the counters of the cache are wide.
The values that decide what leaves are floats: `Cfg` has their arithmetic as a parameter, and so it has the codecs. The two tests
of a compressed length against 0.9 and 0.8 of another are exact on lengths below `2 ^ 32` and are taken over the integers.

An entry is an address, those handed out are the numbers below `nextEntry`; what memory holds before that is not known, except
that `data` is null, as it is for every entry that is freed. `bytes` of a buffer are those that were written. A pass over the
entries is one step here; the lock it gives up in between is the subject of `CompressLock`.

Left out: statistics and debug output, and the size class of the buffer that `get` copies to.
-/
import Mathlib
import TrafficServer.Lib.HashChain
import TrafficServer.Cache.Dir

namespace TrafficServer.Cache.CLFUS

open TrafficServer.Dll TrafficServer.HashChain

def ENTRY_OVERHEAD : ℕ := 256

/-- extra temporary history -/
def HISTORY_HYSTERIA : ℤ := 10

def REQUEUE_LIMIT : ℤ := 100

def CACHE_COMPRESSION_FASTLZ : ℕ := 1

def CACHE_COMPRESSION_LIBZ : ℕ := 2

def CACHE_COMPRESSION_LIBLZMA : ℕ := 3

/-- an `IOBufferData` -/
structure Data where
  id : ℕ
  blockSize : ℕ
  bytes : List (BitVec 8)
deriving DecidableEq

structure Entry where
  key : CacheKey
  auxkey1 : ℕ
  auxkey2 : ℕ
  hits : ℕ
  /-- memory used including padding in buffer -/
  size : ℕ
  /-- actual data length -/
  len : ℕ
  compressedLen : ℕ
  /-- compression type -/
  compressed : ℕ
  incompressible : Bool
  /-- in the history -/
  lru : Bool
  /-- copy-in-copy-out -/
  copy : Bool
  data : Option Data

/-- what `put` is called with: the object is the first `len` bytes of the buffer -/
structure Put where
  key : CacheKey
  auxkey1 : ℕ
  auxkey2 : ℕ
  data : Data
  len : ℕ
  copy : Bool
  len_le : len ≤ data.bytes.length
  len_lt : len < 2 ^ 32

structure Cfg (V : Type) where
  /-- `cache_config_ram_cache_use_seen_filter` -/
  useSeenFilter : Bool
  /-- `cache_config_ram_cache_compress` -/
  compress : ℕ
  hasZlib : Bool
  hasLzma : Bool
  /-- `CACHE_VALUE_HITS_SIZE` -/
  value : ℕ → ℕ → V
  lt : V → V → Bool
  add : V → V → V
  zero : V
  /-- a value taken into the average -/
  average : V → V → V
  /-- with so many objects, so many of them compressed: is there more to compress -/
  target : ℤ → ℤ → Bool
  encode : ℕ → List (BitVec 8) → Option (List (BitVec 8))
  /-- with room for so many bytes -/
  decode : ℕ → List (BitVec 8) → ℕ → Option (List (BitVec 8))
  /-- the integers behind `bucket_sizes` -/
  stray : ℕ → ℕ+

/-- `lru[0]`, `lru[1]` and `victims` -/
inductive Lru where
  | memory
  | history
  | victims
deriving DecidableEq

structure RamCacheCLFUS (V : Type) where
  maxBytes : ℤ
  bytes : ℤ
  objects : ℤ
  averageValue : V
  history : ℤ
  ibuckets : ℕ
  /-- 0 while `bucket` is null -/
  nbuckets : ℕ
  bucket : ℕ → Option ℕ
  hashLink : Dll.Links ℕ
  lru : Lru → Queue ℕ
  lruLink : Dll.Links ℕ
  seen : ℕ → ℕ
  ncompressed : ℤ
  compressed : Option ℕ
  entry : ℕ → Entry
  nextEntry : ℕ
  nextData : ℕ

def bucketSizes : List ℕ :=
  [127, 251, 509, 1021, 2039, 4093, 8191, 16381, 32749, 65521, 131071, 262139, 524287, 1048573, 2097143, 4194301, 8388593,
   16777213, 33554393, 67108859, 134217689, 268435399, 536870909, 1073741789, 2147483647]

/-- `size + ENTRY_OVERHEAD`, an `uint32_t` -/
def withOverhead (size : ℕ) : ℕ := (size + ENTRY_OVERHEAD) % 2 ^ 32

def REQUEUE_HITS (h : ℕ) : ℕ := h - 1

/-- the chain of a key in a table of `n` -/
def hashOf (n : ℕ) (key : CacheKey) : ℕ := key.slice32 3 % n

/-- the pass has nothing to do -/
def Entry.tried (x : Entry) : Bool := x.incompressible || x.compressed != 0

/-- `size` in `put` -/
def Put.size (p : Put) : ℕ := (if p.copy then p.len else p.data.blockSize) % 2 ^ 32

namespace Cfg

variable {V : Type} (c : Cfg V)

def bucketSize (i : ℕ) : ℕ := bucketSizes.getD i (c.stray i)

/-- the compression types that the code knows -/
def available (ctype : ℕ) : Bool :=
  ctype == CACHE_COMPRESSION_FASTLZ || (ctype == CACHE_COMPRESSION_LIBZ && c.hasZlib) ||
    (ctype == CACHE_COMPRESSION_LIBLZMA && c.hasLzma)

/-- the switch of `get` -/
def decompress (x : Entry) : Option (List (BitVec 8)) :=
  if c.available x.compressed then
    match c.decode x.compressed ((x.data.elim [] Data.bytes).take x.compressedLen) x.len with
    | none => none
    | some out => if x.compressed = CACHE_COMPRESSION_FASTLZ ∧ out.length ≠ x.len then none else some out
  else none

end Cfg

namespace RamCacheCLFUS

variable {V : Type} (c : Cfg V) (s : RamCacheCLFUS V)

/-! ## Access -/

def modify (e : ℕ) (f : Entry → Entry) : RamCacheCLFUS V := { s with entry := Function.update s.entry e (f (s.entry e)) }

/-- `CACHE_VALUE` -/
def value (e : ℕ) : V := c.value (s.entry e).hits (s.entry e).size

def enqueue (i : Lru) (e : ℕ) : RamCacheCLFUS V :=
  let r := (s.lru i).enqueue s.lruLink e
  { s with lruLink := r.1, lru := Function.update s.lru i r.2 }

def dequeue (i : Lru) : RamCacheCLFUS V × Option ℕ :=
  let r := (s.lru i).dequeue s.lruLink
  ({ s with lruLink := r.1, lru := Function.update s.lru i r.2.1 }, r.2.2)

def lruRemove (i : Lru) (e : ℕ) : RamCacheCLFUS V :=
  let r := (s.lru i).remove s.lruLink e
  { s with lruLink := r.1, lru := Function.update s.lru i r.2 }

/-- `bucket[b].remove(e)` -/
def bucketRemove (e : ℕ) : RamCacheCLFUS V :=
  let b := hashOf s.nbuckets (s.entry e).key
  let r := Dll.remove s.hashLink (s.bucket b) e
  { s with hashLink := r.1, bucket := Function.update s.bucket b r.2 }

/-- `bucket[i].push(e)` -/
def bucketPush (e : ℕ) : RamCacheCLFUS V :=
  let b := hashOf s.nbuckets (s.entry e).key
  let r := push s.hashLink (s.bucket b) e
  { s with hashLink := r.1, bucket := Function.update s.bucket b r.2 }

def chain (key : CacheKey) : Option ℕ := s.bucket (hashOf s.nbuckets key)

def keysEqual (key : CacheKey) (auxkey1 auxkey2 : ℕ) (x : Entry) : Bool :=
  x.key = key ∧ x.auxkey1 = auxkey1 ∧ x.auxkey2 = auxkey2

/-- the walk of `get` and `fixup` -/
def lookup (key : CacheKey) (auxkey1 auxkey2 : ℕ) : Option ℕ :=
  find s.hashLink (fun e => keysEqual key auxkey1 auxkey2 (s.entry e)) (s.nextEntry + 1) (s.chain key)

def resizeHashtable : RamCacheCLFUS V :=
  let anbuckets := c.bucketSize s.ibuckets
  let r := rehash (fun e => hashOf anbuckets (s.entry e).key) (s.nextEntry + 1) s.nbuckets s.hashLink s.bucket
  { s with hashLink := r.1, bucket := r.2, nbuckets := anbuckets, seen := fun _ => 0 }

def init (abytes : ℤ) : RamCacheCLFUS V :=
  let s := { s with maxBytes := abytes }
  if s.maxBytes = 0 then s else s.resizeHashtable c

/-! ## Entries leave -/

def moveCompressed (e : ℕ) : RamCacheCLFUS V :=
  if s.compressed = some e then
    match s.lruLink.next e with
    | some n => { s with compressed := some n }
    | none => { s with ncompressed := s.ncompressed - 1, compressed := s.lruLink.prev e }
  else s

/-- the cache without the entry, and the entry behind it in its chain -/
def destroy (e : ℕ) : RamCacheCLFUS V × Option ℕ :=
  let ret := s.hashLink.next e
  let s := s.moveCompressed e
  let s :=
    if (s.entry e).lru then
      let s := s.lruRemove .history e
      { s with history := s.history - 1 }
    else
      let s := s.lruRemove .memory e
      let s := { s with objects := s.objects - 1, bytes := s.bytes - withOverhead (s.entry e).size }
      s.modify e fun x => { x with data := none }
  (s.bucketRemove e, ret)

/-- `Lfree` of `tick` -/
def freeHistory (e : ℕ) : RamCacheCLFUS V :=
  let s := s.modify e fun x => { x with lru := false }
  let s := { s with history := s.history - 1 }
  s.bucketRemove e

/-- move CLOCK on history -/
def tick : RamCacheCLFUS V :=
  match s.dequeue .history with
  | (s, none) => s
  | (s, some e) =>
    let s := s.modify e fun x => { x with hits := x.hits / 2 }
    if (s.entry e).hits = 0 then s.freeHistory e
    else
      let s := s.modify e fun x => { x with hits := REQUEUE_HITS x.hits }
      let s := s.enqueue .history e
      if s.history ≤ s.objects + HISTORY_HYSTERIA then s
      else
        match s.dequeue .history with
        | (s, none) => s
        | (s, some e) => s.freeHistory e

def victimize (e : ℕ) : RamCacheCLFUS V :=
  let s := { s with objects := s.objects - 1 }
  let s := s.modify e fun x => { x with data := none, lru := true }
  let s := s.enqueue .history e
  { s with history := s.history + 1 }

/-- a victim goes back to memory -/
def requeue (victim : ℕ) : RamCacheCLFUS V :=
  let s := { s with bytes := s.bytes + withOverhead (s.entry victim).size }
  let s := s.modify victim fun x => { x with hits := REQUEUE_HITS x.hits }
  s.enqueue .memory victim

/-- the loop of `requeue_victims` -/
def requeueVictims : ℕ → RamCacheCLFUS V → RamCacheCLFUS V
  | 0, s => s
  | fuel + 1, s =>
    match s.dequeue .victims with
    | (s, none) => s
    | (s, some victim) => requeueVictims fuel (s.requeue victim)

/-! ## `get` -/

/-- a hit in memory -/
def getHit (e : ℕ) : RamCacheCLFUS V × Option (ℕ × Data) :=
  let s := if c.lt s.averageValue (s.value c e) then (s.lruRemove .memory e).enqueue .memory e else s
  let s := s.modify e fun x => { x with hits := x.hits + 1 }
  let x := s.entry e
  if x.compressed = 0 then
    match x.data with
    | none => (s, none)
    | some data =>
      if x.copy then
        ({ s with nextData := s.nextData + 1 }, some (1, ⟨s.nextData, x.len, data.bytes.take x.len⟩))
      else (s, some (1, data))
  else
    match c.decompress x with
    | none => ((s.destroy e).1, none)
    | some out =>
      let data : Data := ⟨s.nextData, x.len, out⟩
      let s := { s with nextData := s.nextData + 1 }
      if x.copy then (s, some (x.compressed + 1, data))
      else
        let s := { s with bytes := s.bytes + ((x.compressedLen : ℤ) - x.size) }
        (s.modify e fun x => { x with size := x.compressedLen, compressed := 0, data := some data },
          some (x.compressed + 1, data))

/-- the hit state and the buffer -/
def get (key : CacheKey) (auxkey1 auxkey2 : ℕ) : RamCacheCLFUS V × Option (ℕ × Data) :=
  if s.maxBytes = 0 then (s, none)
  else
    match s.lookup key auxkey1 auxkey2 with
    | none => (s, none)
    | some e =>
      let s := s.moveCompressed e
      if (s.entry e).lru then (s, none) else s.getHit c e

/-! ## `put` -/

/-- the walk along the chain -/
def putWalk (p : Put) : ℕ → RamCacheCLFUS V → Option ℕ → RamCacheCLFUS V × Option ℕ
  | 0, s, _ => (s, none)
  | _ + 1, s, none => (s, none)
  | fuel + 1, s, some e =>
    if (s.entry e).key = p.key then
      if (s.entry e).auxkey1 = p.auxkey1 ∧ (s.entry e).auxkey2 = p.auxkey2 then (s, some e)
      else
        -- discard when aux keys conflict
        let r := s.destroy e
        putWalk p fuel r.1 r.2
    else putWalk p fuel s (s.hashLink.next e)

/-- the buffer that an entry keeps -/
def keep (p : Put) : RamCacheCLFUS V × Data :=
  if p.copy then ({ s with nextData := s.nextData + 1 }, ⟨s.nextData, p.len, p.data.bytes.take p.len⟩) else (s, p.data)

/-- already in cache -/
def putHit (e : ℕ) (p : Put) : RamCacheCLFUS V :=
  let s := s.moveCompressed e
  let s := (s.lruRemove .memory e).enqueue .memory e
  let s := { s with bytes := s.bytes + ((p.size : ℤ) - (s.entry e).size) }
  let r := s.keep p
  r.1.modify e fun x => { x with size := p.size, data := some r.2, copy := p.copy, compressed := 0 }

/-- a victim is taken out of memory -/
def takeVictim (victim : ℕ) : RamCacheCLFUS V :=
  let s := { s with bytes := s.bytes - withOverhead (s.entry victim).size }
  let s := s.enqueue .victims victim
  if s.compressed = some victim then { s with compressed := none } else { s with ncompressed := s.ncompressed - 1 }

/-- where the search for room ends -/
inductive Room where
  | insert
  | history
  | refused
deriving DecidableEq

/-- the loop for victims; `o` is the entry if it comes from the history -/
def makeRoom (size : ℕ) (o : Option ℕ) : ℕ → ℤ → V → RamCacheCLFUS V → RamCacheCLFUS V × Room
  | 0, _, _, s => (s, .refused)
  | fuel + 1, limit, victimValue, s =>
    match s.dequeue .memory with
    | (s, none) =>
      if s.bytes + size ≤ s.maxBytes then (s, .insert)
      else
        let s := o.elim s (s.enqueue .history)
        (requeueVictims (s.nextEntry + 1) s, .refused)
    | (s, some victim) =>
      let s := { s with averageValue := c.average (s.value c victim) s.averageValue }
      let above := c.lt s.averageValue (s.value c victim)
      if above ∧ limit > 0 then makeRoom size o fuel (limit - 1) victimValue (s.enqueue .memory victim)
      else
        let limit := if above then limit - 1 else limit
        let s := s.takeVictim victim
        let victimValue := c.add victimValue (s.value c victim)
        let s := s.tick
        match o with
        | none => (s, .history)
        | some e =>
          if s.bytes + (s.entry victim).size + size > s.maxBytes ∧ c.lt (s.value c e) victimValue then
            ((requeueVictims (s.nextEntry + 1) s).enqueue .history e, .refused)
          else if s.bytes + size ≤ s.maxBytes then (s, .insert)
          else makeRoom size o fuel limit victimValue s

/-- the victims there is room for go back, the others to the history -/
def insertVictims (size : ℕ) : ℕ → RamCacheCLFUS V → RamCacheCLFUS V
  | 0, s => s
  | fuel + 1, s =>
    match s.dequeue .victims with
    | (s, none) => s
    | (s, some victim) =>
      insertVictims size fuel
        (if s.bytes + size + (s.entry victim).size ≤ s.maxBytes then s.requeue victim else s.victimize victim)

/-- a new entry, with null links -/
def newEntry (p : Put) : RamCacheCLFUS V :=
  let e := s.nextEntry
  let s := { s with nextEntry := e + 1, lruLink := s.lruLink.clear e, hashLink := s.hashLink.clear e }
  let s := s.modify e fun x => { x with key := p.key, auxkey1 := p.auxkey1, auxkey2 := p.auxkey2, hits := 1 }
  s.bucketPush e

/-- `Linsert` behind the victims -/
def insertEntry (e : ℕ) (p : Put) : RamCacheCLFUS V :=
  let r := s.keep p
  let s := r.1.modify e fun x =>
    { x with compressed := 0, incompressible := false, lru := false, copy := p.copy, data := some r.2, size := p.size, len := p.len }
  let s := { s with bytes := s.bytes + withOverhead p.size, objects := s.objects + 1 }
  s.enqueue .memory e

/-- `Linsert` -/
def insert (o : Option ℕ) (p : Put) : RamCacheCLFUS V :=
  let s := insertVictims p.size (s.nextEntry + 1) s
  match o with
  | some e => { s with history := s.history - 1 }.insertEntry e p
  | none =>
    let e := s.nextEntry
    let s := s.newEntry p
    let s := if s.objects > s.nbuckets then { s with ibuckets := s.ibuckets + 1 }.resizeHashtable c else s
    s.insertEntry e p

/-- `Lhistory` -/
def insertHistory (p : Put) : RamCacheCLFUS V :=
  let s := requeueVictims (s.nextEntry + 1) s
  let e := s.nextEntry
  let s := s.newEntry p
  let s := s.modify e fun x =>
    { x with size := p.data.blockSize % 2 ^ 32, compressed := 0, incompressible := false, lru := true, copy := false }
  let s := s.enqueue .history e
  { s with history := s.history + 1 }

/-- the seen filter: the cache after it, and whether the key goes on -/
def filter (o : Option ℕ) (key : CacheKey) : RamCacheCLFUS V × Bool :=
  if o = none ∧ c.useSeenFilter then
    let i := hashOf (c.bucketSize s.ibuckets) key
    let k := key.slice32 3 / 2 ^ 16 % 2 ^ 16
    ({ s with seen := Function.update s.seen i k }, ¬ (s.history ≥ s.objects ∧ s.seen i ≠ k))
  else (s, true)

/-- `put` of what is not in memory -/
def putMiss (o : Option ℕ) (p : Put) : RamCacheCLFUS V × Bool :=
  if (s.lru .history).head = none ∧ s.bytes + p.size ≤ s.maxBytes then (s.insert c o p, true)
  else
    match s.filter c o p.key with
    | (s, false) => (s, false)
    | (s, true) =>
      match makeRoom c p.size o (s.nextEntry + REQUEUE_LIMIT.toNat + 1) REQUEUE_LIMIT c.zero s with
      | (s, .insert) => (s.insert c o p, true)
      | (s, .history) => (s.insertHistory p, false)
      | (s, .refused) => (s, false)

def put (p : Put) : RamCacheCLFUS V × Bool :=
  if s.maxBytes = 0 then (s, false)
  else
    match putWalk p (s.nextEntry + 1) s (s.chain p.key) with
    | (s, none) => s.putMiss c none p
    | (s, some e) =>
      let s := s.modify e fun x => { x with hits := x.hits + 1 }
      if (s.entry e).lru then
        let s := s.lruRemove .history e
        if c.lt (s.value c e) s.averageValue then (s.enqueue .history e, false) else s.putMiss c (some e) p
      else (s.putHit e p, true)

def fixup (key : CacheKey) (oldAuxkey1 oldAuxkey2 newAuxkey1 newAuxkey2 : ℕ) : RamCacheCLFUS V × Bool :=
  if s.maxBytes = 0 then (s, false)
  else
    match s.lookup key oldAuxkey1 oldAuxkey2 with
    | none => (s, false)
    | some e => (s.modify e fun x => { x with auxkey1 := newAuxkey1, auxkey2 := newAuxkey2 }, true)

/-! ## The compression pass -/

/-- `Lfailed` -/
def compressFailed (e : ℕ) : RamCacheCLFUS V := s.modify e fun x => { x with incompressible := true }

/-- with the codec's output, and the entry still there -/
def compressDone (e : ℕ) (out : List (BitVec 8)) : RamCacheCLFUS V :=
  let l := out.length
  -- `REQUIRED_COMPRESSION`
  let s := if 10 * l > 9 * (s.entry e).len then s.modify e fun x => { x with incompressible := true } else s
  let x := s.entry e
  -- `REQUIRED_SHRINK`
  if 5 * l > 4 * x.size then s.compressFailed e
  else
    let id := s.nextData
    let s := { s with nextData := id + 1 }
    if l < x.len then
      let s := { s with bytes := s.bytes + ((l : ℤ) - x.size) }
      s.modify e fun x => { x with compressed := c.compress, compressedLen := l, size := l, data := some ⟨id, l, out⟩ }
    else
      let s := { s with bytes := s.bytes + ((x.len : ℤ) - x.size) }
      s.modify e fun x =>
        { x with compressed := 0, size := x.len, data := some ⟨id, x.len, (x.data.elim [] Data.bytes).take x.len⟩ }

/-- the codec on an entry; none if it fails -/
def encoded (x : Entry) : Option (List (BitVec 8)) :=
  if c.compress = CACHE_COMPRESSION_FASTLZ ∧ x.len < 16 then none
  else c.encode c.compress ((x.data.elim [] Data.bytes).take x.len)

/-- what the pass does with one entry -/
def compressEntry (e : ℕ) : RamCacheCLFUS V :=
  if (s.entry e).tried then s
  else
    let s := s.modify e fun x => { x with compressedLen := x.size }
    if c.available c.compress then
      match encoded c (s.entry e) with
      | none => s.compressFailed e
      | some out =>
        -- see if the entry is still around
        let x := s.entry e
        let ee := find s.hashLink (fun y => (s.entry y).key = x.key ∧ (s.entry y).data.map Data.id = x.data.map Data.id)
          (s.nextEntry + 1) (s.chain x.key)
        if ee = some e then s.compressDone c e out else s
    else s

/-- the loop of `compress_entries`; `n` more entries may be compressed -/
def compressLoop (target : ℤ → Bool) : ℕ → ℕ → RamCacheCLFUS V → RamCacheCLFUS V
  | 0, _, s => s
  | fuel + 1, n, s =>
    match s.compressed with
    | none => s
    | some e =>
      if target s.ncompressed then
        let tried := (s.entry e).tried
        if tried = false ∧ n = 0 then s
        else
          let s := s.compressEntry c e
          match s.lruLink.next e with
          | none => s
          | some next =>
            compressLoop target fuel (if tried then n else n - 1)
              { s with compressed := some next, ncompressed := s.ncompressed + 1 }
      else s

def compressEntries (doAtMost : ℕ) : RamCacheCLFUS V :=
  if c.compress = 0 then s
  else
    let s := if s.compressed = none then { s with compressed := (s.lru .memory).head, ncompressed := 0 } else s
    compressLoop c (c.target s.objects) (s.nextEntry + 1) doAtMost s

end RamCacheCLFUS

inductive Op where
  | init (abytes : ℤ)
  | get (key : CacheKey) (auxkey1 auxkey2 : ℕ)
  | put (p : Put)
  | fixup (key : CacheKey) (oldAuxkey1 oldAuxkey2 newAuxkey1 newAuxkey2 : ℕ)
  | compress (doAtMost : ℕ)

variable {V : Type}

def step (c : Cfg V) (s : RamCacheCLFUS V) : Op → RamCacheCLFUS V
  | .init abytes => s.init c abytes
  | .get key auxkey1 auxkey2 => (s.get c key auxkey1 auxkey2).1
  | .put p => (s.put c p).1
  | .fixup key old1 old2 new1 new2 => (s.fixup key old1 old2 new1 new2).1
  | .compress doAtMost => s.compressEntries c doAtMost

/-- a new cache; `raw` stands for memory that was never an entry -/
def newRamCacheCLFUS (c : Cfg V) (raw : ℕ → Entry) : RamCacheCLFUS V where
  maxBytes := 0
  bytes := 0
  objects := 0
  averageValue := c.zero
  history := 0
  ibuckets := 0
  nbuckets := 0
  bucket := fun _ => none
  hashLink := ⟨fun _ => none, fun _ => none⟩
  lru := fun _ => ⟨none, none⟩
  lruLink := ⟨fun _ => none, fun _ => none⟩
  seen := fun _ => 0
  ncompressed := 0
  compressed := none
  entry := fun e => { raw e with data := none }
  nextEntry := 0
  nextData := 0

end TrafficServer.Cache.CLFUS
