/-
`HostLookup` (`src/tscore/HostLookup.cc`): which of the host and domain entries of a table match a host name.

The table is a tree of at most three levels over the labels of a name, from the last one on. A branch has the entries that end there, and those
with more labels that have to be compared as a whole. Below the root the branches are in a `charIndex`, below the others in an array of eight
and, when that is full, in a hash table. `MatchFirst` and `MatchNext` walk down the tree along the host name, one entry a call; the state of the
walk is kept between the calls.
-/
import Mathlib
import TrafficServer.TsCore.CharIndex

namespace TrafficServer.HostLookup

abbrev dot : UInt8 := 46

/-! ## Comparing names -/

/-- a `char` as the comparisons see it -/
def signed (c : UInt8) : ℤ := if c < 128 then c.toNat else (c.toNat : ℤ) - 256

/-- `hostcmp` -/
def hostcmp : Bytes → Bytes → ℤ
  | [], [] => 0
  | [], c₂ :: s₂ => if 0 < signed (toLower c₂) then (if c₂ = dot ∧ s₂ = [] then 0 else -1) else 1
  | c₁ :: s₁, [] => if signed (toLower c₁) < 0 then -1 else if c₁ = dot ∧ s₁ = [] then 0 else 1
  | c₁ :: s₁, c₂ :: s₂ =>
    if signed (toLower c₁) < signed (toLower c₂) then -1
    else if signed (toLower c₁) > signed (toLower c₂) then 1
    else hostcmp s₁ s₂

/-- the loop of `domaincmp` over both strings from the end, and what is decided behind it; `first` is the first character of the domain -/
def domaincmpLoop (first : UInt8) : Bytes → Bytes → Bool
  | [], [] => true
  | [], h :: _ => first == dot || h == dot
  | d :: ds, [] => d == dot && ds.isEmpty
  | d :: ds, h :: hs => if toLower d ≠ toLower h then false else domaincmpLoop first ds hs

/-- without a dot at the end -/
def dropDot (s : Bytes) : Bytes := if s.head? = some dot then s.tail else s

/-- `domaincmp` -/
def domaincmp (hostname domain : Bytes) : Bool :=
  match domain with
  | [] => false
  | first :: _ => if hostname = [] then false else domaincmpLoop first (dropDot domain.reverse) (dropDot hostname.reverse)

/-! ## The tree -/

def HOST_TABLE_DEPTH : ℕ := 3

/-- `HostNodeType`, with the structure that `next_level` points to -/
inductive NextLevel where
  | terminal
  | hash (table : Bytes → Option ℕ)
  | index (ci : CharIndex)
  | array (els : List (Bytes × ℕ))

structure HostBranch where
  level : ℕ
  next : NextLevel
  leafIndexs : List ℕ

inductive LeafType where
  | hostPartial
  | hostComplete
  | domainComplete
  | domainPartial
deriving DecidableEq

structure HostLeaf (α : Type) where
  type : LeafType
  /-- the name -/
  name : Bytes
  opaqueData : α

/-- The branches are those below `fresh`, and the root is the branch 0. `AllocateSpace` has made room for all entries. -/
structure Table (α : Type) where
  branch : ℕ → HostBranch
  fresh : ℕ
  leafArray : List (HostLeaf α)

variable {α : Type}

namespace NextLevel

/-- `FindNextLevel` -/
def find (notProcess : Bool) (levelData : Bytes) : NextLevel → Option ℕ
  | terminal => none
  | hash table => table levelData
  | index ci => ci.lookup levelData
  | array els => arrayLookup notProcess levelData els none

/-- the insertion of `InsertBranch`; a full array is moved into a hash table -/
def insert (levelData : Bytes) (v : ℕ) : NextLevel → NextLevel
  | terminal => terminal
  | hash table => hash (Function.update table levelData (some v))
  | index ci => index (ci.insert levelData v)
  | array els =>
    if els.length ≥ HOST_ARRAY_MAX then hash (tableOfArray (Function.update (fun _ => none) levelData (some v)) els)
    else array (els ++ [(levelData, v)])

end NextLevel

namespace Table

def new : Table α := ⟨fun _ => ⟨0, .terminal, []⟩, 1, []⟩

def setBranch (t : Table α) (i : ℕ) (b : HostBranch) : Table α := { t with branch := Function.update t.branch i b }

/-- `InsertBranch`, with the structure to insert into -/
def insertBranch (t : Table α) (i : ℕ) (next : NextLevel) (levelData : Bytes) : Table α × ℕ :=
  let t' := t.setBranch i { t.branch i with next := next.insert levelData t.fresh }
  ({ t'.setBranch t.fresh ⟨(t.branch i).level + 1, .terminal, []⟩ with fresh := t.fresh + 1 }, t.fresh)

/-- `TableNewLevel` -/
def newLevel (t : Table α) (i : ℕ) (levelData : Bytes) : Table α × ℕ :=
  t.insertBranch i (if (t.branch i).level = 0 then .index CharIndex.new else .array []) levelData

/-- one round of the loop of `TableInsert` -/
def descend (t : Table α) (cur : ℕ) (levelData : Bytes) : Table α × ℕ :=
  match (t.branch cur).next with
  | .terminal => t.newLevel cur levelData
  | next =>
    match next.find false levelData with
    | none => t.insertBranch cur next levelData
    | some i => (t, i)

/-- the loop of `TableInsert`; `toks` are all tokens, from the last one on -/
def insertLoop (toks : List Bytes) : ℕ → ℕ → Table α → ℕ → Table α × ℕ
  | 0, _, t, cur => (t, cur)
  | k + 1, i, t, cur =>
    if toks.length = (t.branch cur).level then (t, cur)
    else
      let r := t.descend cur (toks.getD i [])
      insertLoop toks k (i + 1) r.1 r.2

/-- the tokens of `Tokenizer` with the delimiter `.`; `tok` is what has been read of the current one -/
def tokenize : Bytes → Bytes → List Bytes
  | [], tok => if tok = [] then [] else [tok]
  | c :: s, tok =>
    if c = dot then if tok = [] then tokenize s [] else tok :: tokenize s []
    else tokenize s (tok ++ [c])

def leafType (domainRecord : Bool) (numTok : ℕ) : LeafType :=
  if domainRecord then if numTok > HOST_TABLE_DEPTH then .domainPartial else .domainComplete
  else if numTok > HOST_TABLE_DEPTH then .hostPartial else .hostComplete

/-- `NewEntry` and `TableInsert` -/
def newEntry (t : Table α) (matchData : Bytes) (domainRecord : Bool) (opaqueData : α) : Table α :=
  let toks := tokenize (matchData.map toLower) []
  let r := insertLoop toks.reverse HOST_TABLE_DEPTH 0 t 0
  let b := r.1.branch r.2
  { r.1.setBranch r.2 { b with leafIndexs := b.leafIndexs ++ [t.leafArray.length] } with
    leafArray := t.leafArray ++ [⟨leafType domainRecord toks.length, matchData, opaqueData⟩] }

end Table

/-! ## Matching -/

/-- `HostLookupState`. `host_copy` has a null byte for each period that has been passed; `host_copy_next` is an index into it. -/
structure State where
  cur : ℕ
  tableLevel : ℕ
  arrayIndex : ℤ
  hostname : Bytes
  hostCopy : Bytes
  hostCopyNext : Option ℕ

namespace Table

/-- whether a leaf matches when the walk is at its branch -/
def leafMatches (hostname : Bytes) (hostDone : Bool) (leaf : HostLeaf α) : Bool :=
  match leaf.type with
  | .hostPartial => hostcmp hostname leaf.name == 0
  | .hostComplete => hostDone
  | .domainPartial => domaincmp hostname leaf.name
  | .domainComplete => true

/-- the loop of `MatchArray` from the index `i` on, and the index where it ends -/
def matchArray (t : Table α) (hostname : Bytes) (hostDone : Bool) : List ℕ → ℕ → Option α × ℕ
  | [], i => (none, i)
  | index :: l, i =>
    match t.leafArray[index]? with
    | none => matchArray t hostname hostDone l (i + 1)
    | some leaf => if leafMatches hostname hostDone leaf then (some leaf.opaqueData, i) else matchArray t hostname hostDone l (i + 1)

/-- the part of the host name at `host_copy_next`, up to the null byte -/
def token (hostCopy : Bytes) (p : ℕ) : Bytes := (hostCopy.drop p).takeWhile (· != 0)

/-- back to the character behind a period, or to the start -/
def backUp (hostCopy : Bytes) : ℕ → ℕ
  | 0 => 0
  | p + 1 => if hostCopy[p + 1]? = some dot then p + 2 else backUp hostCopy p

/-- the state at the next level -/
def State.down (s : State) (cur p : ℕ) : State :=
  if p = 0 then { s with cur := cur, arrayIndex := -1, tableLevel := s.tableLevel + 1, hostCopyNext := none }
  else
    { s with
      cur := cur, arrayIndex := -1, tableLevel := s.tableLevel + 1, hostCopy := s.hostCopy.set (p - 1) 0
      hostCopyNext := some (backUp (s.hostCopy.set (p - 1) 0) (p - 2)) }

/-- the loop of `MatchNext` -/
def matchLoop (t : Table α) : ℕ → State → Option α × State
  | 0, s => (none, s)
  | fuel + 1, s =>
    if s.tableLevel ≤ HOST_TABLE_DEPTH then
      let start := (s.arrayIndex + 1).toNat
      let r := t.matchArray s.hostname s.hostCopyNext.isNone ((t.branch s.cur).leafIndexs.drop start) start
      let s := { s with arrayIndex := r.2 }
      match r.1, s.hostCopyNext with
      | some d, _ => (some d, s)
      | none, none => (none, s)
      | none, some p =>
        -- a terminal branch has no lower levels
        match (t.branch s.cur).next.find true (token s.hostCopy p) with
        | none => (none, s)
        | some cur => matchLoop t fuel (State.down s cur p)
    else (none, s)

/-- `MatchNext`: the data of the entry, or failure -/
def matchNext (t : Table α) (s : State) : Option α × State :=
  if t.leafArray.length ≤ 0 then (none, s) else t.matchLoop (HOST_TABLE_DEPTH + 1) s

/-- the character behind the last period -/
def lastLabel (s : Bytes) : ℕ := s.length - (s.reverse.takeWhile (· != dot)).length

def State.init (host : Bytes) : State := ⟨0, 0, -1, host, host.map toLower, some (lastLabel host)⟩

/-- `MatchFirst`, and then `MatchNext` again and again: what the call number `k` returns -/
def matchCall (t : Table α) (host : Bytes) : ℕ → Option α × State
  | 0 => t.matchNext (State.init host)
  | k + 1 => t.matchNext (t.matchCall host k).2

end Table

end TrafficServer.HostLookup
