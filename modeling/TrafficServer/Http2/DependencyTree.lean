/-
The dependency tree of the streams of a connection (`proxy/http2/Http2DependencyTree.h`, `include/tscore/PriorityQueue.h`).

A node hangs in the list of children of its parent. It is in the priority queue of its parent while it has something to send (`active`) or
something is queued below it, and `top` goes down the queues. Nodes are known by their address; the parent of a new node is searched by its
stream, among the nodes that are found in `maxDepth` steps and, if it has been there, among its ancestors. That search of the ancestors has
no end if they go round in a circle: `add` has no result then.

The loops up to the root are one function with what they test and do at a node (`climb`), and so are the two that move all children of a node
under another (`moveChildren`).
-/
import TrafficServer.Lib.IndexedHeap

namespace TrafficServer.Http2.DependencyTree

open TrafficServer.IndexedHeap

def K : BitVec 32 := 256

def HTTP2_DEPENDENCY_TREE_MAX_DEPTH : ℕ := 256

def HTTP2_PRIORITY_DEFAULT_STREAM_DEPENDENCY : BitVec 32 := 0

def HTTP2_PRIORITY_DEFAULT_WEIGHT : BitVec 32 := 15

/-- `T` is what a node is for: its stream -/
structure Node (T : Type) where
  active : Bool
  queued : Bool
  shadow : Bool
  id : BitVec 32
  weight : BitVec 32
  point : BitVec 32
  t : Option T
  parent : Option ℕ
  children : List ℕ
  /-- `entry->index` -/
  index : ℕ
  queue : List ℕ

def Node.new {T : Type} (id weight point : BitVec 32) (parent : Option ℕ) (t : Option T) : Node T :=
  ⟨false, false, false, id, weight, point, t, parent, [], 0, []⟩

/-- what is at an address without a node -/
def Node.none (T : Type) : Node T := Node.new HTTP2_PRIORITY_DEFAULT_STREAM_DEPENDENCY HTTP2_PRIORITY_DEFAULT_WEIGHT 0 Option.none Option.none

def maxAncestors : ℕ := 64

structure Tree (T : Type) where
  node : ℕ → Node T
  /-- the addresses of the nodes that there are, and the next one -/
  live : List ℕ
  next : ℕ
  maxDepth : ℕ
  nodeCount : ℕ
  /-- streams and their parents -/
  ancestors : List (BitVec 32 × BitVec 32)
  ancestorIndex : ℕ

/-- `_root` -/
def root : ℕ := 0

namespace Tree

variable {T : Type} (s : Tree T)

def init (T : Type) (maxConcurrentStreams : ℕ) : Tree T :=
  ⟨fun _ => Node.none T, [root], 1, min maxConcurrentStreams HTTP2_DEPENDENCY_TREE_MAX_DEPTH, 0, List.replicate maxAncestors (0, 0), 0⟩

def modify (n : ℕ) (f : Node T → Node T) : Tree T := { s with node := Function.update s.node n (f (s.node n)) }

/-! ## Queues -/

/-- `PriorityQueueLess` -/
def less (a b : ℕ) : Bool := (s.node a).point < (s.node b).point

def heap (p : ℕ) : Heap ℕ := ⟨(s.node p).queue, fun n => (s.node n).index⟩

def setHeap (p : ℕ) (h : Heap ℕ) : Tree T :=
  { s with node := fun n => { s.node n with index := h.index n, queue := if n = p then h.v else (s.node n).queue } }

def push (p e : ℕ) : Tree T := s.setHeap p ((s.heap p).push s.less e)

def pop (p : ℕ) : Tree T := s.setHeap p ((s.heap p).pop s.less)

def erase (p e : ℕ) : Tree T := s.setHeap p ((s.heap p).erase s.less e)

def updateEntry (p e : ℕ) : Tree T := s.setHeap p ((s.heap p).update s.less e)

/-- a node goes into the queue of its parent -/
def enqueue (p n : ℕ) : Tree T := (s.push p n).modify n fun x => { x with queued := true }

def dequeue (p n : ℕ) : Tree T := (s.erase p n).modify n fun x => { x with queued := false }

/-! ## Links -/

def childrenPush (p c : ℕ) : Tree T := s.modify p fun x => { x with children := c :: x.children }

def childrenRemove (p c : ℕ) : Tree T := s.modify p fun x => { x with children := x.children.erase c }

def setChildren (p : ℕ) (l : List ℕ) : Tree T := s.modify p fun x => { x with children := l }

def setParent (n : ℕ) (p : Option ℕ) : Tree T := s.modify n fun x => { x with parent := p }

/-- a loop from a node up to the root, and where it stops; the body does not change parents -/
def climb (cond : Tree T → ℕ → Bool) (body : Tree T → ℕ → ℕ → Tree T) : ℕ → Tree T → ℕ → Tree T × ℕ
  | 0, s, n => (s, n)
  | fuel + 1, s, n =>
    match (s.node n).parent with
    | none => (s, n)
    | some p => if cond s n then climb cond body fuel (body s n p) p else (s, n)

/-- nodes are queued up to one that is queued -/
def queueUp (n : ℕ) : Tree T := (climb (fun s n => !(s.node n).queued) (fun s n p => s.enqueue p n) s.live.length s n).1

/-- nodes that have nothing to send are taken off the queues -/
def unqueueUp (n : ℕ) : Tree T :=
  (climb (fun s n => (s.node n).queue.isEmpty && !(s.node n).active) (fun s n p => s.dequeue p n) s.live.length s n).1

/-- a child is moved under another node, with its queue entry -/
def moveChild (src dst child : ℕ) (rest : List ℕ) : Tree T :=
  let s := s.setChildren src rest
  let s := if (s.node child).queued then (s.erase src child).push dst child else s
  (s.childrenPush dst child).setParent child (some dst)

/-- the loops of `add` and `_change_parent` over the children of a node -/
def moveChildren (src dst : ℕ) : ℕ → Tree T → Tree T
  | 0, s => s
  | fuel + 1, s =>
    match (s.node src).children with
    | [] => s
    | child :: rest => moveChildren src dst fuel (s.moveChild src dst child rest)

/-! ## Searching -/

/-- the children one after the other; each of them is taken to be one step deeper than the one before -/
def findChildren (find : ℕ → ℕ → Option (ℕ × Bool)) : List ℕ → ℕ → Option (ℕ × Bool)
  | [], _ => none
  | n :: l, depth =>
    match find n (depth + 1) with
    | some result => some result
    | none => findChildren find l (depth + 1)

/-- a node, and `is_max_leaf` -/
def findNode (id : BitVec 32) : ℕ → ℕ → ℕ → Option (ℕ × Bool)
  | 0, _, _ => none
  | fuel + 1, n, depth =>
    if (s.node n).id = id then some (n, depth = s.maxDepth)
    else if (s.node n).children = [] ∨ depth > s.maxDepth then none
    else findChildren (findNode id fuel) (s.node n).children depth

def findShadow (id : BitVec 32) : Option (ℕ × Bool) := s.findNode id (s.maxDepth + 1) root 1

def find (id : BitVec 32) : Option ℕ :=
  match s.findShadow id with
  | none => none
  | some (n, _) => if (s.node n).shadow then none else some n

def addAncestor (n : ℕ) : Tree T :=
  match (s.node n).parent with
  | none => s
  | some p =>
    if p = root then s
    else
      { s with
        ancestors := s.ancestors.set s.ancestorIndex ((s.node n).id, (s.node p).id)
        ancestorIndex := if s.ancestorIndex + 1 ≥ maxAncestors then 0 else s.ancestorIndex + 1 }

def wasAncestorLoop (pid : BitVec 32) : ℕ → ℕ → BitVec 32
  | 0, _ => 0
  | fuel + 1, i =>
    if i = s.ancestorIndex then 0
    else
      let a := s.ancestors.getD i (0, 0)
      if a.1 = pid then a.2 else wasAncestorLoop pid fuel (if i = 0 then maxAncestors - 1 else i - 1)

def wasAncestor (pid : BitVec 32) : BitVec 32 :=
  s.wasAncestorLoop pid maxAncestors (if s.ancestorIndex = 0 then maxAncestors - 1 else s.ancestorIndex - 1)

/-- the nearest ancestor that is still there, if the loop ends -/
def findAncestor : ℕ → BitVec 32 → Option (Option ℕ)
  | 0, _ => none
  | fuel + 1, pid =>
    let pid := s.wasAncestor pid
    if pid = 0 then some none
    else
      match s.find pid with
      | some n => some (some n)
      | none => findAncestor fuel pid

def inParentChain (maybeParent : ℕ) : ℕ → ℕ → Bool
  | 0, _ => false
  | fuel + 1, target =>
    match (s.node target).parent with
    | none => false
    | some p => if maybeParent = p then true else inParentChain maybeParent fuel p

/-! ## Changes -/

def delete (n : ℕ) : Tree T := { s with node := Function.update s.node n (Node.none T), live := s.live.erase n }

/-- the queue of a node goes over to its parent -/
def moveQueue (p n : ℕ) : ℕ → Tree T → Tree T
  | 0, s => s
  | fuel + 1, s =>
    match (s.node n).queue with
    | [] => s
    | top :: _ => moveQueue p n fuel ((s.push p top).pop n)

/-- and so do its children -/
def spliceChildren (p n : ℕ) : ℕ → Tree T → Tree T
  | 0, s => s
  | fuel + 1, s =>
    match (s.node n).children with
    | [] => s
    | child :: rest => spliceChildren p n fuel (((s.setChildren n rest).childrenPush p child).setParent child (some p))

/-- `remove`, which goes on to a shadow node that is left without children -/
def removeLoop : ℕ → Tree T → ℕ → Tree T
  | 0, s, _ => s
  | fuel + 1, s, n =>
    if n = root ∨ (s.node n).active then s
    else
      match (s.node n).parent with
      | none => s
      | some p =>
        let s := s.addAncestor n
        let s := s.childrenRemove p n
        let s := if (s.node n).queued then s.erase p n else s
        let s := moveQueue p n (s.node n).queue.length s
        let s := spliceChildren p n (s.node n).children.length s
        let s := if (s.node p).shadow ∧ (s.node p).children = [] ∧ (s.node p).queue = [] then removeLoop fuel s p else s
        { s with nodeCount := s.nodeCount - 1 }.delete n

def remove (n : ℕ) : Tree T := removeLoop s.live.length s n

/-- `_change_parent` -/
def changeParent (n newParent : ℕ) (exclusive : Bool) : Tree T :=
  match (s.node n).parent with
  | none => s
  | some p =>
    let s := s.childrenRemove p n
    let s := if (s.node n).queued then (s.dequeue p n).unqueueUp p else s
    let s := s.setParent n none
    let s := if exclusive then moveChildren newParent n (s.node newParent).children.length s else s
    let s := (s.childrenPush newParent n).setParent n (some newParent)
    if (s.node n).active ∨ (s.node n).queue ≠ [] then s.queueUp n else s

/-- a node gets a new parent, and what is left of the node -/
def reprioritize (n : ℕ) (newParentId : BitVec 32) (exclusive : Bool) : Tree T × Option ℕ :=
  match (s.node n).parent with
  | none => (s, some n)
  | some oldParent =>
    if (s.node oldParent).id = newParentId then (s, some n)
    else
      match s.find newParentId with
      | none => (s, some n)
      | some newParent =>
        -- a new parent that is below the node is moved first
        let s := if newParentId ≠ 0 ∧ s.inParentChain n s.live.length newParent then s.changeParent newParent oldParent false else s
        let s := s.changeParent n newParent exclusive
        if (s.node n).shadow ∧ (s.node n).children = [] ∧ (s.node n).queue = [] then (s.remove n, none) else (s, some n)

def reprioritizeId (id newParentId : BitVec 32) (exclusive : Bool) : Tree T × Option ℕ :=
  match s.find id with
  | none => (s, none)
  | some n => s.reprioritize n newParentId exclusive

/-- a new node below a parent -/
def addBelow (parent : ℕ) (id weight : BitVec 32) (exclusive : Bool) (t : Option T) (shadow : Bool) : Tree T × Option ℕ :=
  let n := s.next
  let s := { s with node := Function.update s.node n (Node.new id weight id (some parent) t), next := n + 1, live := n :: s.live }
  let s := if exclusive then moveChildren parent n (s.node parent).children.length s else s
  let s := s.childrenPush parent n
  let s := if (s.node n).queue ≠ [] then s.enqueue parent n else s
  let s := s.modify n fun x => { x with shadow := shadow }
  ({ s with nodeCount := s.nodeCount + 1 }, some n)

/-- the parent of a new node whose parent is not found, its weight and whether it is exclusive -/
def searchAncestor (fuel : ℕ) (parentId id weight : BitVec 32) (exclusive : Bool) : Option (Option ℕ × BitVec 32 × Bool) :=
  if parentId < id then
    match s.findAncestor fuel parentId with
    | none => none
    | some (some parent) => some (some parent, weight, exclusive)
    | some none => some (some root, HTTP2_PRIORITY_DEFAULT_WEIGHT, false)
  else some (none, weight, exclusive)

/-- `add`; the first number is of the calls inside it, the second of steps in the search of the ancestors -/
def add : ℕ → ℕ → Tree T → BitVec 32 → BitVec 32 → BitVec 32 → Bool → Option T → Bool → Option (Tree T × Option ℕ)
  | 0, _, _, _, _, _, _, _, _ => none
  | calls + 1, fuel, s, parentId, id, weight, exclusive, t, shadow =>
    let addNew : Option (Tree T × Option ℕ) :=
      match s.findShadow parentId with
      | some (parent, isMaxLeaf) =>
        some (if isMaxLeaf then s.addBelow root id weight false t shadow else s.addBelow parent id weight exclusive t shadow)
      | none =>
        match s.searchAncestor fuel parentId id weight exclusive with
        | none => none
        | some (parent, weight, exclusive) =>
          match if parent = some root then none else parent with
          | some parent => some (s.addBelow parent id weight exclusive t shadow)
          | none =>
            match add calls fuel s 0 parentId HTTP2_PRIORITY_DEFAULT_WEIGHT false none true with
            | some (s, some parent) => some (s.addBelow parent id weight false t shadow)
            | _ => none
    match s.findShadow id with
    | some (n, _) =>
      if (s.node n).shadow then
        let s := s.modify n fun x => { x with t := t, point := id, weight := weight, shadow := false }
        some (s.reprioritize n parentId exclusive)
      else addNew
    | none => addNew

/-! ## Sending -/

/-- a node has sent some bytes: its point grows, and that of the nodes above it -/
def update (n : ℕ) (sent : BitVec 32) : Tree T :=
  (climb (fun _ _ => true)
    (fun s n p =>
      let s := s.modify n fun x => { x with point := x.point + sent * K / (x.weight + 1) }
      if (s.node n).queued then s.updateEntry p n else s.enqueue p n)
    s.live.length s n).1

def activate (n : ℕ) : Tree T := (s.modify n fun x => { x with active := true }).queueUp n

def deactivate (n : ℕ) (sent : BitVec 32) : Tree T :=
  let s := s.modify n fun x => { x with active := false }
  let (s, n) :=
    climb (fun s n => !(s.node n).active && (s.node n).queue.isEmpty) (fun s n p => if (s.node n).queued then s.dequeue p n else s)
      s.live.length s n
  s.update n sent

def topLoop : ℕ → ℕ → Option ℕ
  | 0, _ => none
  | fuel + 1, n =>
    if (s.node n).active then some n
    else
      match (s.node n).queue with
      | [] => none
      | child :: _ => topLoop fuel child

def top : Option ℕ := s.topLoop s.live.length root

end Tree

/-! ## Runs -/

inductive Op (T : Type) where
  | add (parentId id weight : BitVec 32) (exclusive : Bool) (t : Option T)
  | remove (n : ℕ)
  | reprioritize (n : ℕ) (newParentId : BitVec 32) (exclusive : Bool)
  | reprioritizeId (id newParentId : BitVec 32) (exclusive : Bool)
  | activate (n : ℕ)
  | deactivate (n : ℕ) (sent : BitVec 32)
  | update (n : ℕ) (sent : BitVec 32)

/-- a node that the connection may have -/
def IsNode {T : Type} (s : Tree T) (n : ℕ) : Prop := n ∈ s.live ∧ n ≠ root

/-- what the connection sees to before a call -/
def Allowed {T : Type} (s : Tree T) : Op T → Prop
  | .add parentId id _ _ _ => parentId ≠ id
  | .remove n => IsNode s n ∧ (s.node n).active = false
  | .reprioritize n newParentId _ => IsNode s n ∧ newParentId ≠ (s.node n).id
  | .reprioritizeId id newParentId _ => id ≠ 0 ∧ newParentId ≠ id
  | .activate n => IsNode s n
  | .deactivate n _ => IsNode s n
  | .update n _ => IsNode s n ∧ (s.node n).active = true

/-- what a call comes to, if it returns -/
def Returns {T : Type} (s : Tree T) : Op T → Tree T → Prop
  | .add parentId id weight exclusive t, s' => ∃ calls fuel n, s.add calls fuel parentId id weight exclusive t false = some (s', n)
  | .remove n, s' => s' = s.remove n
  | .reprioritize n newParentId exclusive, s' => s' = (s.reprioritize n newParentId exclusive).1
  | .reprioritizeId id newParentId exclusive, s' => s' = (s.reprioritizeId id newParentId exclusive).1
  | .activate n, s' => s' = s.activate n
  | .deactivate n sent, s' => s' = s.deactivate n sent
  | .update n sent, s' => s' = s.update n sent

/-- the trees of a connection -/
inductive Reachable (T : Type) : Tree T → Prop where
  | init (maxConcurrentStreams : ℕ) : Reachable T (Tree.init T maxConcurrentStreams)
  | step {s s' : Tree T} {op : Op T} (h : Reachable T s) (hop : Allowed s op) (hs : Returns s op s') : Reachable T s'

end TrafficServer.Http2.DependencyTree
