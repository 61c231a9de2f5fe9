/-
The LRU memory cache (`iocore/cache/RamCacheLRU.cc`).

Entries are in a queue, the least recently used first, and in one of the chains of a hash table, by links that are part of the
entry (`Lib.Dll`; the two kinds of links are kept apart here). `put` walks the chain of its key, removes entries of that key
with other auxiliary keys on the way, puts a new entry in and then drops entries from the head of the queue until the bytes
fit. With more objects than chains the table is rebuilt with the next size: the entries are popped from the old chains and
pushed to the new ones, with the same links.

An entry is an address; those handed out are the numbers below `nextEntry`. A loop over a chain or the queue has that
number as its fuel. `bucket_sizes` ends at 23 sizes and the code does not look: `stray` are the integers behind the array,
positive because the process does not survive another table size.

Left out: `copy` and `len`, which `put` ignores, the statistics, and the trace output of `get`.
-/
import Mathlib
import TrafficServer.Lib.HashChain
import TrafficServer.Cache.Dir

namespace TrafficServer.Cache.LRU

open TrafficServer.Dll TrafficServer.HashChain

def ENTRY_OVERHEAD : ℕ := 128

/-- an `IOBufferData` -/
structure Data where
  id : ℕ
  blockSize : ℕ
deriving DecidableEq

structure Entry where
  key : CacheKey
  auxkey1 : ℕ
  auxkey2 : ℕ
  data : Data

structure Cfg where
  /-- `cache_config_ram_cache_use_seen_filter` -/
  useSeenFilter : Bool
  stray : ℕ → ℕ+

structure RamCacheLRU where
  maxBytes : ℤ
  bytes : ℤ
  objects : ℤ
  entry : ℕ → Entry
  lruLink : Dll.Links ℕ
  lru : Queue ℕ
  hashLink : Dll.Links ℕ
  bucket : ℕ → Option ℕ
  /-- 0 while `bucket` is null -/
  nbuckets : ℕ
  ibuckets : ℕ
  seen : ℕ → ℕ
  nextEntry : ℕ

def bucketSizes : List ℕ :=
  [127, 251, 509, 1021, 2039, 4093, 8191, 16381, 32749, 65521, 131071, 262139, 524287, 1048573, 2097143, 4194301, 8388593,
   16777213, 33554393, 67108859, 134217689, 268435399, 536870909]

def bucketSize (c : Cfg) (i : ℕ) : ℕ := bucketSizes.getD i (c.stray i)

/-- the chain of a key in a table of `n` -/
def hashOf (n : ℕ) (key : CacheKey) : ℕ := key.slice32 3 % n

namespace RamCacheLRU

/-- what an entry counts for -/
def cost (s : RamCacheLRU) (e : ℕ) : ℤ := ENTRY_OVERHEAD + (s.entry e).data.blockSize

def resizeHashtable (c : Cfg) (s : RamCacheLRU) : RamCacheLRU :=
  let anbuckets := bucketSize c s.ibuckets
  let r := rehash (fun e => hashOf anbuckets (s.entry e).key) (s.nextEntry + 1) s.nbuckets s.hashLink s.bucket
  { s with hashLink := r.1, bucket := r.2, nbuckets := anbuckets, seen := fun _ => 0 }

def init (c : Cfg) (s : RamCacheLRU) (abytes : ℤ) : RamCacheLRU :=
  let s := { s with maxBytes := abytes }
  if s.maxBytes = 0 then s else s.resizeHashtable c

/-- the entry of a chain that `p` holds of -/
def find (s : RamCacheLRU) (p : Entry → Bool) (head : Option ℕ) : Option ℕ :=
  HashChain.find s.hashLink (fun e => p (s.entry e)) (s.nextEntry + 1) head

def keysEqual (key : CacheKey) (auxkey1 auxkey2 : ℕ) (e : Entry) : Bool :=
  e.key = key ∧ e.auxkey1 = auxkey1 ∧ e.auxkey2 = auxkey2

def chain (s : RamCacheLRU) (key : CacheKey) : Option ℕ := s.bucket (hashOf s.nbuckets key)

/-- `lru.remove(e); lru.enqueue(e)` -/
def touch (s : RamCacheLRU) (e : ℕ) : RamCacheLRU :=
  let r := s.lru.remove s.lruLink e
  let r := r.2.enqueue r.1 e
  { s with lruLink := r.1, lru := r.2 }

def get (s : RamCacheLRU) (key : CacheKey) (auxkey1 auxkey2 : ℕ) : RamCacheLRU × Option Data :=
  if s.maxBytes = 0 then (s, none)
  else
    match s.find (keysEqual key auxkey1 auxkey2) (s.chain key) with
    | none => (s, none)
    | some e => (s.touch e, some (s.entry e).data)

/-- the cache without the entry, and the entry behind it in its chain -/
def remove (s : RamCacheLRU) (e : ℕ) : RamCacheLRU × Option ℕ :=
  let ret := s.hashLink.next e
  let b := hashOf s.nbuckets (s.entry e).key
  let h := Dll.remove s.hashLink (s.bucket b) e
  let l := s.lru.remove s.lruLink e
  ({ s with
    hashLink := h.1
    bucket := Function.update s.bucket b h.2
    lruLink := l.1
    lru := l.2
    bytes := s.bytes - s.cost e
    objects := s.objects - 1 }, ret)

/-- the loop of `put` over the chain; true if the entry is there -/
def putWalk (key : CacheKey) (auxkey1 auxkey2 : ℕ) : ℕ → RamCacheLRU → Option ℕ → RamCacheLRU × Bool
  | 0, s, _ => (s, false)
  | _ + 1, s, none => (s, false)
  | fuel + 1, s, some e =>
    if (s.entry e).key = key then
      if (s.entry e).auxkey1 = auxkey1 ∧ (s.entry e).auxkey2 = auxkey2 then (s.touch e, true)
      else
        -- discard when aux keys conflict
        let r := s.remove e
        putWalk key auxkey1 auxkey2 fuel r.1 r.2
    else putWalk key auxkey1 auxkey2 fuel s (s.hashLink.next e)

/-- a new entry, with null links -/
def insertEntry (s : RamCacheLRU) (entry : Entry) : RamCacheLRU :=
  let e := s.nextEntry
  let i := hashOf s.nbuckets entry.key
  let h := push (s.hashLink.clear e) (s.bucket i) e
  let l := s.lru.enqueue (s.lruLink.clear e) e
  { s with
    entry := Function.update s.entry e entry
    hashLink := h.1
    bucket := Function.update s.bucket i h.2
    lruLink := l.1
    lru := l.2
    bytes := s.bytes + (ENTRY_OVERHEAD + entry.data.blockSize : ℕ)
    objects := s.objects + 1
    nextEntry := e + 1 }

/-- the loop that makes room -/
def evict : ℕ → RamCacheLRU → RamCacheLRU
  | 0, s => s
  | fuel + 1, s =>
    if s.bytes > s.maxBytes then
      let r := s.lru.dequeue s.lruLink
      let s := { s with lruLink := r.1, lru := r.2.1 }
      match r.2.2 with
      | some ee => evict fuel (s.remove ee).1
      | none => s
    else s

/-- the seen filter: the cache after it, and whether the key has been seen before -/
def filter (c : Cfg) (s : RamCacheLRU) (key : CacheKey) : RamCacheLRU × Bool :=
  if c.useSeenFilter then
    let i := hashOf s.nbuckets key
    let k := key.slice32 3 / 2 ^ 16 % 2 ^ 16
    ({ s with seen := Function.update s.seen i k }, s.seen i = k)
  else (s, true)

def put (c : Cfg) (s : RamCacheLRU) (entry : Entry) : RamCacheLRU × Bool :=
  if s.maxBytes = 0 then (s, false)
  else
    match s.filter c entry.key with
    | (s, false) => (s, false)
    | (s, true) =>
      match putWalk entry.key entry.auxkey1 entry.auxkey2 (s.nextEntry + 1) s (s.chain entry.key) with
      | (s, true) => (s, true)
      | (s, false) =>
        let s := s.insertEntry entry
        let s := evict (s.nextEntry + 1) s
        (if s.objects > s.nbuckets then { s with ibuckets := s.ibuckets + 1 }.resizeHashtable c else s, true)

def fixup (s : RamCacheLRU) (key : CacheKey) (oldAuxkey1 oldAuxkey2 newAuxkey1 newAuxkey2 : ℕ) : RamCacheLRU × Bool :=
  if s.maxBytes = 0 then (s, false)
  else
    match s.find (keysEqual key oldAuxkey1 oldAuxkey2) (s.chain key) with
    | none => (s, false)
    | some e =>
      let entry := { s.entry e with auxkey1 := newAuxkey1, auxkey2 := newAuxkey2 }
      ({ s with entry := Function.update s.entry e entry }, true)

end RamCacheLRU

inductive Op where
  | init (abytes : ℤ)
  | get (key : CacheKey) (auxkey1 auxkey2 : ℕ)
  | put (entry : Entry)
  | fixup (key : CacheKey) (oldAuxkey1 oldAuxkey2 newAuxkey1 newAuxkey2 : ℕ)

def step (c : Cfg) (s : RamCacheLRU) : Op → RamCacheLRU
  | .init abytes => s.init c abytes
  | .get key auxkey1 auxkey2 => (s.get key auxkey1 auxkey2).1
  | .put entry => (s.put c entry).1
  | .fixup key old1 old2 new1 new2 => (s.fixup key old1 old2 new1 new2).1

/-- a new cache; `entry0` stands for memory that was never an entry -/
def newRamCacheLRU (entry0 : Entry) : RamCacheLRU where
  maxBytes := 0
  bytes := 0
  objects := 0
  entry := fun _ => entry0
  lruLink := ⟨fun _ => none, fun _ => none⟩
  lru := ⟨none, none⟩
  hashLink := ⟨fun _ => none, fun _ => none⟩
  bucket := fun _ => none
  nbuckets := 0
  ibuckets := 0
  seen := fun _ => 0
  nextEntry := 0

end TrafficServer.Cache.LRU
