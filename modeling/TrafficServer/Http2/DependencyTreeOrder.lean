/-
The order of the queues of the dependency tree.

`Steady` says what all the moves of nodes and entries have in common: a node keeps its stream, weight and point, and queues that are in order
stay so. Points change in two places. `update` adds to them along the way up to the root and sifts each entry down, as one that has become
larger: a sum of more than 32 bits is smaller. `add` gives a shadow node that becomes a stream's the point of a new node, and leaves the entry
where it is. `heaps_ok`: the queues are in order in every run in which no point gets smaller than the one above it in its queue (`PathFits`), and
a reset point is in order where it is, or its entry is taken out (`ResetOk`); `reset_breaks_order` is a run with a reset.
-/
import TrafficServer.Http2.DependencyTreeRuns
import TrafficServer.Lib.HeapOrder

namespace TrafficServer.Http2.DependencyTree

open TrafficServer.IndexedHeap TrafficServer.Forest

variable {T : Type} {s s' s'' : Tree T} {L M : List ℕ} {n p q c : ℕ}

/-! ## Queues in order -/

/-- no entry is less than the one above it in its queue -/
def InOrder (s : Tree T) (L : List ℕ) : Prop := ∀ p ∈ L, Ordered s.less (s.heap p)

theorem weak_less (s : Tree T) : Weak s.less where
  asymm a b h := by
    have hlt : (s.node a).point < (s.node b).point := of_decide_eq_true h
    exact decide_eq_false (BitVec.not_lt.mpr (BitVec.le_of_lt hlt))
  trans a b c hab hbc := by
    have hab' : (s.node b).point ≤ (s.node a).point := BitVec.not_lt.mp (of_decide_eq_false hab)
    have hbc' : (s.node c).point ≤ (s.node b).point := BitVec.not_lt.mp (of_decide_eq_false hbc)
    exact decide_eq_false (BitVec.not_lt.mpr (BitVec.le_trans hbc' hab'))

theorem InOrder.congr (h : InOrder s L) (hqueue : ∀ p ∈ L, (s'.node p).queue = (s.node p).queue)
    (hpoint : ∀ p ∈ L, ∀ x ∈ (s.node p).queue, (s'.node x).point = (s.node x).point) : InOrder s' L := by
  intro p hp
  refine (h p hp).congr (hqueue p hp) fun a ha b hb => ?_
  rw [Tree.less, Tree.less, hpoint p hp a ha, hpoint p hp b hb]

theorem setHeap_inOrder {h : Heap ℕ} (hs : ∀ q ∈ L, q ≠ p → Ordered s.less (s.heap q)) (hh : p ∈ L → Ordered s.less h) :
    InOrder (s.setHeap p h) L := by
  intro q hq
  by_cases hqp : q = p
  · have hv : ((s.setHeap p h).heap q).v = h.v := if_pos hqp
    exact (hh (hqp ▸ hq)).congr hv fun _ _ _ _ => rfl
  · have hv : ((s.setHeap p h).heap q).v = (s.heap q).v := if_neg hqp
    exact (hs q hq hqp).congr hv fun _ _ _ _ => rfl

/-! ## What the moves leave alone -/

structure Steady (s s' : Tree T) : Prop where
  id : ∀ x, (s'.node x).id = (s.node x).id
  weight : ∀ x, (s'.node x).weight = (s.node x).weight
  point : ∀ x, (s'.node x).point = (s.node x).point
  live : s'.live = s.live
  order : ∀ L, InOrder s L → InOrder s' L

theorem Steady.refl (s : Tree T) : Steady s s := ⟨fun _ => rfl, fun _ => rfl, fun _ => rfl, rfl, fun _ h => h⟩

theorem Steady.trans (h : Steady s s') (h' : Steady s' s'') : Steady s s'' where
  id x := (h'.id x).trans (h.id x)
  weight x := (h'.weight x).trans (h.weight x)
  point x := (h'.point x).trans (h.point x)
  live := h'.live.trans h.live
  order L hL := h'.order L (h.order L hL)

theorem push_steady (s : Tree T) (p e : ℕ) : Steady s (s.push p e) :=
  ⟨fun _ => rfl, fun _ => rfl, fun _ => rfl, rfl, fun _ h => setHeap_inOrder (fun q hq _ => h q hq) fun hp => push_ordered (weak_less s) (h p hp) e⟩

theorem pop_steady (s : Tree T) (p : ℕ) : Steady s (s.pop p) :=
  ⟨fun _ => rfl, fun _ => rfl, fun _ => rfl, rfl, fun _ h => setHeap_inOrder (fun q hq _ => h q hq) fun hp => pop_ordered (weak_less s) (h p hp)⟩

theorem erase_steady (s : Tree T) (p e : ℕ) : Steady s (s.erase p e) :=
  ⟨fun _ => rfl, fun _ => rfl, fun _ => rfl, rfl, fun _ h => setHeap_inOrder (fun q hq _ => h q hq) fun hp => erase_ordered (weak_less s) (h p hp) e⟩

/-- a change of other fields -/
theorem modify_steady {f : Node T → Node T}
    (hf : ∀ x, (f x).id = x.id ∧ (f x).weight = x.weight ∧ (f x).point = x.point ∧ (f x).queue = x.queue) (s : Tree T) (n : ℕ) :
    Steady s (s.modify n f) where
  id := modify_field Node.id (fun x => (hf x).1) s n
  weight := modify_field Node.weight (fun x => (hf x).2.1) s n
  point := modify_field Node.point (fun x => (hf x).2.2.1) s n
  live := rfl
  order _ h := h.congr (fun p _ => modify_field Node.queue (fun x => (hf x).2.2.2) s n p)
    fun _ _ x _ => modify_field Node.point (fun x => (hf x).2.2.1) s n x

theorem setQueued_steady (s : Tree T) (n : ℕ) (b : Bool) : Steady s (s.modify n fun x => { x with queued := b }) :=
  modify_steady (f := fun x => { x with queued := b }) (fun _ => ⟨rfl, rfl, rfl, rfl⟩) s n

theorem setActive_steady (s : Tree T) (n : ℕ) (b : Bool) : Steady s (s.modify n fun x => { x with active := b }) :=
  modify_steady (f := fun x => { x with active := b }) (fun _ => ⟨rfl, rfl, rfl, rfl⟩) s n

theorem setShadow_steady (s : Tree T) (n : ℕ) (b : Bool) : Steady s (s.modify n fun x => { x with shadow := b }) :=
  modify_steady (f := fun x => { x with shadow := b }) (fun _ => ⟨rfl, rfl, rfl, rfl⟩) s n

theorem setChildren_steady (s : Tree T) (p : ℕ) (f : List ℕ → List ℕ) : Steady s (s.modify p fun x => { x with children := f x.children }) :=
  modify_steady (f := fun x => { x with children := f x.children }) (fun _ => ⟨rfl, rfl, rfl, rfl⟩) s p

theorem setParent_steady (s : Tree T) (n : ℕ) (o : Option ℕ) : Steady s (s.setParent n o) :=
  modify_steady (f := fun x => { x with parent := o }) (fun _ => ⟨rfl, rfl, rfl, rfl⟩) s n

theorem enqueue_steady (s : Tree T) (p n : ℕ) : Steady s (s.enqueue p n) := (push_steady s p n).trans (setQueued_steady _ n true)

theorem dequeue_steady (s : Tree T) (p n : ℕ) : Steady s (s.dequeue p n) := (erase_steady s p n).trans (setQueued_steady _ n false)

theorem childrenPush_steady (s : Tree T) (p c : ℕ) : Steady s (s.childrenPush p c) := setChildren_steady s p fun l => c :: l

theorem childrenRemove_steady (s : Tree T) (p c : ℕ) : Steady s (s.childrenRemove p c) := setChildren_steady s p fun l => l.erase c

theorem hang_steady (s : Tree T) (q n : ℕ) : Steady s (hang s q n) := (childrenPush_steady s q n).trans (setParent_steady _ n (some q))

/-! ### Loops -/

theorem climb_steady {cond : Tree T → ℕ → Bool} {body : Tree T → ℕ → ℕ → Tree T} (hbody : ∀ s n p, Steady s (body s n p)) (fuel : ℕ)
    (s : Tree T) (n : ℕ) : Steady s (Tree.climb cond body fuel s n).1 := by
  induction fuel generalizing s n with
  | zero => exact Steady.refl s
  | succ fuel ih =>
    rw [Tree.climb]
    cases (s.node n).parent with
    | none => exact Steady.refl s
    | some p =>
      dsimp only
      cases cond s n with
      | false => exact Steady.refl s
      | true => exact (hbody s n p).trans (ih _ p)

theorem queueUp_steady (s : Tree T) (n : ℕ) : Steady s (s.queueUp n) := climb_steady (fun s n p => enqueue_steady s p n) _ s n

theorem unqueueUp_steady (s : Tree T) (n : ℕ) : Steady s (s.unqueueUp n) := climb_steady (fun s n p => dequeue_steady s p n) _ s n

theorem moveChildren_steady (src dst fuel : ℕ) (s : Tree T) : Steady s (Tree.moveChildren src dst fuel s) := by
  induction fuel generalizing s with
  | zero => exact Steady.refl s
  | succ fuel ih =>
    rw [Tree.moveChildren]
    cases (s.node src).children with
    | nil => exact Steady.refl s
    | cons child rest =>
      have hmove : Steady s (s.moveChild src dst child rest) := by
        have hentry : ∀ s : Tree T, Steady s (if (s.node child).queued then (s.erase src child).push dst child else s) := by
          intro s
          split_ifs
          · exact (erase_steady s src child).trans (push_steady _ dst child)
          · exact Steady.refl s
        exact ((setChildren_steady s src fun _ => rest).trans (hentry _)).trans (hang_steady _ dst child)
      exact hmove.trans (ih _)

theorem moveQueue_steady (p n fuel : ℕ) (s : Tree T) : Steady s (Tree.moveQueue p n fuel s) := by
  induction fuel generalizing s with
  | zero => exact Steady.refl s
  | succ fuel ih =>
    rw [Tree.moveQueue]
    cases (s.node n).queue with
    | nil => exact Steady.refl s
    | cons top _ => exact ((push_steady s p top).trans (pop_steady _ n)).trans (ih _)

theorem spliceChildren_steady (p n fuel : ℕ) (s : Tree T) : Steady s (Tree.spliceChildren p n fuel s) := by
  induction fuel generalizing s with
  | zero => exact Steady.refl s
  | succ fuel ih =>
    rw [Tree.spliceChildren]
    cases (s.node n).children with
    | nil => exact Steady.refl s
    | cons child rest => exact ((setChildren_steady s n fun _ => rest).trans (hang_steady _ p child)).trans (ih _)

/-! ### Operations -/

theorem takeOut_steady (s : Tree T) (p n : ℕ) : Steady s (takeOut s p n) := by
  have hentry : ∀ s : Tree T, Steady s (if (s.node n).queued then s.erase p n else s) := by
    intro s
    split_ifs
    · exact erase_steady s p n
    · exact Steady.refl s
  exact (((childrenRemove_steady s p n).trans (hentry _)).trans (moveQueue_steady p n _ _)).trans (spliceChildren_steady p n _ _)

theorem addAncestor_steady (s : Tree T) (n : ℕ) : Steady s (s.addAncestor n) := by
  obtain ⟨hnode, hlive, -⟩ := addAncestor_same s n
  exact ⟨fun x => by rw [hnode], fun x => by rw [hnode], fun x => by rw [hnode], hlive,
    fun _ h => h.congr (fun p _ => by rw [hnode]) fun _ _ x _ => by rw [hnode]⟩

/-- a node is taken off its parent's children, its entry off the queues -/
theorem detachFrom_steady (s : Tree T) (p n : ℕ) : Steady s (detachFrom s p n) := by
  have hentry : ∀ s : Tree T, Steady s (if (s.node n).queued then (s.dequeue p n).unqueueUp p else s) := by
    intro s
    split_ifs
    · exact (dequeue_steady s p n).trans (unqueueUp_steady _ p)
    · exact Steady.refl s
  exact ((childrenRemove_steady s p n).trans (hentry _)).trans (setParent_steady _ n none)

theorem attachTo_steady (s : Tree T) (q n : ℕ) : Steady s (attachTo s q n) := by
  have hentry : ∀ s : Tree T, Steady s (if (s.node n).active ∨ (s.node n).queue ≠ [] then s.queueUp n else s) := by
    intro s
    split_ifs
    · exact queueUp_steady s n
    · exact Steady.refl s
  exact (hang_steady s q n).trans (hentry _)

theorem attachBelow_steady (s : Tree T) (q n : ℕ) (exclusive : Bool) :
    Steady s (attachTo (if exclusive then Tree.moveChildren q n (s.node q).children.length s else s) q n) := by
  cases exclusive with
  | false => exact attachTo_steady s q n
  | true => exact (moveChildren_steady q n _ s).trans (attachTo_steady _ q n)

theorem changeParent_steady (s : Tree T) (n q : ℕ) (exclusive : Bool) : Steady s (s.changeParent n q exclusive) := by
  cases hp : (s.node n).parent with
  | none =>
    rw [Tree.changeParent, hp]
    exact Steady.refl s
  | some p =>
    rw [changeParent_eq s n q exclusive hp]
    exact (detachFrom_steady s p n).trans (attachBelow_steady _ q n exclusive)

theorem liftParent_steady (s : Tree T) (n p m : ℕ) (newParentId : BitVec 32) : Steady s (liftParent s n p m newParentId) := by
  unfold liftParent
  split_ifs
  · exact changeParent_steady s m p false
  · exact Steady.refl s

theorem activate_steady (s : Tree T) (n : ℕ) : Steady s (s.activate n) := (setActive_steady s n true).trans (queueUp_steady _ n)

/-! ## What a call leaves -/

/-- the nodes that are still there keep their streams, and their queues their order -/
structure Leaves (s s' : Tree T) : Prop where
  live : ∀ x ∈ s'.live, x ∈ s.live
  id : ∀ x ∈ s'.live, (s'.node x).id = (s.node x).id
  order : InOrder s s.live → InOrder s' s'.live

theorem Steady.leaves (h : Steady s s') : Leaves s s' where
  live x hx := h.live ▸ hx
  id x _ := h.id x
  order hs := by
    rw [h.live]
    exact h.order _ hs

theorem Leaves.trans (h : Leaves s s') (h' : Leaves s' s'') : Leaves s s'' where
  live x hx := h.live x (h'.live x hx)
  id x hx := (h'.id x hx).trans (h.id x (h'.live x hx))
  order hs := h'.order (h.order hs)

theorem InOrder.mono (h : InOrder s L) (hM : ∀ x ∈ M, x ∈ L) : InOrder s M := fun p hp => h p (hM p hp)

/-- the memory of a node that is not in the tree is freed -/
theorem delete_inOrder (h : InOrder s M) (hinv : Inv s M) (hn : n ∉ M) : InOrder (s.delete n) M := by
  have hnode : ∀ x ∈ M, (s.delete n).node x = s.node x := fun x hx => Function.update_of_ne (ne_of_mem_of_not_mem hx hn) _ _
  refine h.congr (fun p hp => congrArg Node.queue (hnode p hp)) fun p hp x hx => ?_
  exact congrArg Node.point (hnode x ((hinv.queues.mem p hp x).mp hx).1)

theorem remove_leaves (h : Consistent s) (hn : n ∈ s.live) : Leaves s (s.remove n) := by
  have hgone : ∃ M, Inv (s.remove n) M ∧ Removed s.live M s (s.remove n) ∧
      (∀ x ∈ M, ((s.remove n).node x).id = (s.node x).id) ∧ (InOrder s s.live → InOrder (s.remove n) M) := by
    refine removeLoop_rule (J := fun s' M => (∀ x ∈ M, (s'.node x).id = (s.node x).id) ∧ (InOrder s s.live → InOrder s' M))
      (fun {s₁ L n p} ⟨hid, horder⟩ => ?_) (fun {s₁ M n} hinv hnM ⟨hid, horder⟩ => ?_) h.inv ⟨fun _ _ => rfl, fun horder => horder⟩ hn
      h.inv.parents.nodup h.count.ge
    · have hsteady := (addAncestor_steady s₁ n).trans (takeOut_steady _ p n)
      exact ⟨fun x hx => (hsteady.id x).trans (hid x (List.mem_of_mem_erase hx)),
        fun hs => (hsteady.order L (horder hs)).mono fun x hx => List.mem_of_mem_erase hx⟩
    · refine ⟨fun x hx => ?_, fun hs => ?_⟩
      · have hnode : ({ s₁ with nodeCount := s₁.nodeCount - 1 }.delete n).node x = s₁.node x :=
          Function.update_of_ne (ne_of_mem_of_not_mem hx hnM) _ _
        rw [hnode]
        exact hid x hx
      · exact delete_inOrder (s := { s₁ with nodeCount := s₁.nodeCount - 1 }) (horder hs)
          (hinv.of_nodes (fun _ _ => rfl) hinv.parents.grounded le_rfl) hnM
  obtain ⟨M, hM, hremoved, hid, horder⟩ := hgone
  have hlive : ∀ x, x ∈ (s.remove n).live → x ∈ M := fun x hx => ((hremoved.live x).mp hx).2 ((hremoved.live x).mp hx).1
  exact ⟨fun x hx => ((hremoved.live x).mp hx).1, fun x hx => hid x (hlive x hx), fun hs => (horder hs).mono hlive⟩

theorem moveBelow_steady (s : Tree T) (n p m : ℕ) (newParentId : BitVec 32) (exclusive : Bool) :
    Steady s (moveBelow s n p m newParentId exclusive) :=
  (liftParent_steady s n p m newParentId).trans (changeParent_steady _ n m exclusive)

theorem dropShadow_leaves (h : Consistent s) (hn : n ∈ s.live) : Leaves s (dropShadow s n).1 := by
  unfold dropShadow
  split_ifs
  · exact remove_leaves h hn
  · exact (Steady.refl s).leaves

theorem reprioritize_leaves (h : Consistent s) (hn : n ∈ s.live) {newParentId : BitVec 32} (hid : newParentId ≠ (s.node n).id)
    (exclusive : Bool) : Leaves s (s.reprioritize n newParentId exclusive).1 := by
  rcases reprioritize_cases s n newParentId exclusive with heq | ⟨p, m, hp, hm, heq⟩
  · rw [heq]
    exact (Steady.refl s).leaves
  · have hne : m ≠ n := fun hmn => hid (hmn ▸ (find_some h.inv hm).2).symm
    obtain ⟨hcons, hlive⟩ := moveBelow_consistent h hn hp hm hne exclusive
    rw [heq]
    exact (moveBelow_steady s n p m newParentId exclusive).leaves.trans (dropShadow_leaves hcons hlive)

theorem reprioritizeId_leaves (h : Consistent s) {id newParentId : BitVec 32} (hid : newParentId ≠ id) (exclusive : Bool) :
    Leaves s (s.reprioritizeId id newParentId exclusive).1 := by
  unfold Tree.reprioritizeId
  cases hfind : s.find id with
  | none => exact (Steady.refl s).leaves
  | some n =>
    obtain ⟨hn, hnid⟩ := find_some h.inv hfind
    exact reprioritize_leaves h hn (hnid.symm ▸ hid) exclusive

/-! ### A new node -/

/-- a node has come to those that were there -/
structure Added (s s' : Tree T) (n : ℕ) (id : BitVec 32) : Prop where
  fresh : n ∉ s.live
  live : s'.live = n :: s.live
  new : (s'.node n).id = id
  id : ∀ x ∈ s.live, (s'.node x).id = (s.node x).id
  order : InOrder s s.live → InOrder s' s'.live

theorem withNode_added (h : Consistent s) (q : ℕ) (id weight : BitVec 32) (t : Option T) :
    Added s (withNode s q id weight t) s.next id := by
  have hn : s.next ∉ s.live := fun hc => Nat.lt_irrefl s.next (h.inv.parents.fresh s.next hc)
  have hnew : (withNode s q id weight t).node s.next = Node.new id weight id (some q) t := Function.update_self _ _ _
  have hold : ∀ x ∈ s.live, (withNode s q id weight t).node x = s.node x := fun x hx =>
    Function.update_of_ne (ne_of_mem_of_not_mem hx hn) _ _
  refine ⟨hn, rfl, congrArg Node.id hnew, fun x hx => congrArg Node.id (hold x hx), fun hs p hp => ?_⟩
  rcases List.mem_cons.mp hp with rfl | hp
  · have hempty : ((withNode s q id weight t).heap s.next).v = [] := congrArg Node.queue hnew
    exact fun i _ => comp_of_length_le (Or.inl (by rw [hempty]; exact Nat.zero_le i))
  · refine (hs.congr (fun p hp => congrArg Node.queue (hold p hp)) fun p hp x hx => ?_) p hp
    exact congrArg Node.point (hold x ((h.inv.queues.mem p hp x).mp hx).1)

theorem Added.steady {id : BitVec 32} (h : Added s s' n id) (hs : Steady s' s'') : Added s s'' n id where
  fresh := h.fresh
  live := hs.live.trans h.live
  new := (hs.id n).trans h.new
  id x hx := (hs.id x).trans (h.id x hx)
  order horder := by
    rw [hs.live]
    exact hs.order _ (h.order horder)

theorem addBelow_added (h : Consistent s) (q : ℕ) (id weight : BitVec 32) (exclusive : Bool) (t : Option T) (shadow : Bool) :
    Added s (s.addBelow q id weight exclusive t shadow).1 s.next id := by
  have hmoved : ∀ s₁ : Tree T, Steady s₁ (if exclusive then Tree.moveChildren q s.next (s₁.node q).children.length s₁ else s₁) := by
    intro s₁
    split_ifs
    · exact moveChildren_steady q s.next _ s₁
    · exact Steady.refl s₁
  have hentry : ∀ s₁ : Tree T, Steady s₁ (if (s₁.node s.next).queue ≠ [] then s₁.enqueue q s.next else s₁) := by
    intro s₁
    split_ifs
    · exact enqueue_steady s₁ q s.next
    · exact Steady.refl s₁
  have hcount : ∀ s₁ : Tree T, Steady s₁ { s₁ with nodeCount := s₁.nodeCount + 1 } := fun s₁ =>
    ⟨fun _ => rfl, fun _ => rfl, fun _ => rfl, rfl, fun _ hs => hs.congr (fun _ _ => rfl) fun _ _ _ _ => rfl⟩
  exact ((withNode_added h q id weight t).steady (hmoved _)).steady
    ((((childrenPush_steady _ q s.next).trans (hentry _)).trans (setShadow_steady _ s.next shadow)).trans (hcount _))

/-! ## Points that change -/

/-- The order is kept in queues without the node whose point has changed. -/
theorem InOrder.off (h : InOrder s L) (hqueue : ∀ q ∈ L, (s'.node q).queue = (s.node q).queue)
    (hpoint : ∀ x, x ≠ n → (s'.node x).point = (s.node x).point) {q : ℕ} (hq : q ∈ L) (hn : n ∉ (s.node q).queue) :
    Ordered s'.less (s'.heap q) := by
  have hne : ∀ x ∈ (s.node q).queue, x ≠ n := fun x hx => ne_of_mem_of_not_mem hx hn
  refine (h q hq).congr (hqueue q hq) fun a ha b hb => ?_
  rw [Tree.less, Tree.less, hpoint a (hne a ha), hpoint b (hne b hb)]

/-- And in its own queue but for its place. -/
theorem InOrder.exceptAt (h : InOrder s L) (hqueue : ∀ q ∈ L, (s'.node q).queue = (s.node q).queue)
    (hpoint : ∀ x, x ≠ n → (s'.node x).point = (s.node x).point) (hp : p ∈ L) (hindexed : Indexed (s'.heap p))
    (hn : n ∈ (s'.node p).queue) : (s'.heap p).v[(s'.heap p).index n]? = some n ∧
      Except s'.less (s'.heap p) ((s'.heap p).index n) := by
  obtain ⟨k, hk⟩ := List.mem_iff_getElem?.mp hn
  have hk' : (s'.heap p).v[k]? = some n := hk
  have hindex : (s'.heap p).index n = k := hindexed k n hk'
  have horder : Ordered s.less (s'.heap p) := (h p hp).congr (hqueue p hp) fun _ _ _ _ => rfl
  rw [hindex]
  refine ⟨hk', horder.exceptAt (weak_less s) hindexed.nodup hk' fun a b ha hb => ?_⟩
  rw [Tree.less, Tree.less, hpoint a ha, hpoint b hb]

/-! ### `update` -/

/-- the grown point of a node is not less than that of the entry above it in its queue -/
def Fits (s : Tree T) (sent : BitVec 32) (n : ℕ) : Prop :=
  ∀ p, (s.node n).parent = some p → ∀ k y, (s.node p).queue[k]? = some n → 0 < k → (s.node p).queue[(k - 1) / 2]? = some y →
    (s.node y).point ≤ (s.node n).grown sent

/-- so on the way up to the root -/
def PathFits (s : Tree T) (n : ℕ) (sent : BitVec 32) : Prop := ∀ x, Above s.up x n → Fits s sent x

theorem setPoint_point (s : Tree T) (n : ℕ) (f : Node T → BitVec 32) (x : ℕ) :
    ((s.modify n fun x => { x with point := f x }).node x).point = if x = n then f (s.node n) else (s.node x).point := by
  rw [modify_node]
  split_ifs <;> rfl

theorem growAt_inOrder (h : Inv s L) (hs : InOrder s L) (sent : BitVec 32) (hn : n ∈ L) (hp : (s.node n).parent = some p)
    (hqueued : (s.node n).queued = true) (hfits : Fits s sent n) : InOrder (s.growAt sent n p) L := by
  obtain ⟨hinv, -⟩ := setPoint_inv h n fun x => x.grown sent
  have hqueue : ∀ q ∈ L, ((s.modify n fun x => { x with point := x.grown sent }).node q).queue = (s.node q).queue := fun q _ =>
    modify_field (f := fun x => { x with point := x.grown sent }) Node.queue (fun _ => rfl) s n q
  have hpoint := setPoint_point s n fun x => x.grown sent
  have hother : ∀ x, x ≠ n → ((s.modify n fun x => { x with point := x.grown sent }).node x).point = (s.node x).point := fun x hx => by
    rw [hpoint, if_neg hx]
  refine setHeap_inOrder (fun q hq hqp => ?_) fun hpL => ?_
  · refine hs.off hqueue hother hq fun hmem => hqp ?_
    exact Option.some.inj (((h.queues.mem q hq n).mp hmem).2.1.symm.trans hp)
  · have hmem : n ∈ (s.node p).queue := (h.queues.mem p hpL n).mpr ⟨hn, hp, hqueued⟩
    obtain ⟨hk, hexcept⟩ := hs.exceptAt hqueue hother hpL (hinv.queues.heaps.indexed p hpL) ((hqueue p hpL).symm ▸ hmem)
    refine update_ordered (weak_less _) (hexcept.downOrder fun hpos => ?_)
    -- the entry above is another one, with its old point
    generalize ((s.modify n fun x => { x with point := x.grown sent }).heap p).index n = k at hk hpos ⊢
    cases hy : ((s.modify n fun x => { x with point := x.grown sent }).heap p).v[(k - 1) / 2]? with
    | none => exact comp_of_length_le (Or.inr (List.getElem?_eq_none_iff.mp hy))
    | some y =>
      rw [comp_some hk hy]
      have hk' : (s.node p).queue[k]? = some n := hqueue p hpL ▸ hk
      have hy' : (s.node p).queue[(k - 1) / 2]? = some y := hqueue p hpL ▸ hy
      have hne : y ≠ n := by
        intro heq
        rw [heq] at hy'
        have hplace := (List.getElem?_inj (List.getElem?_eq_some_iff.mp hy').1 (h.queues.heaps.indexed p hpL).nodup).mp (hy'.trans hk'.symm)
        omega
      refine decide_eq_false (BitVec.not_lt.mpr ?_)
      rw [hpoint, hpoint, if_neg hne, if_pos rfl]
      exact hfits p hp k y hk' hpos hy'

/-- what the next node's queue says has not changed -/
theorem PathFits.step (h : Updating L s n) {sent : BitVec 32} (hfits : PathFits s n sent) (hp : (s.node n).parent = some p) :
    PathFits (s.growAt sent n p) p sent := by
  obtain ⟨-, hupdating, hlinks⟩ := h.step sent hp
  have hgrounded := h.inv.parents.grounded
  intro x hx r hr k y hk hpos hy
  rw [hlinks.up] at hx
  rw [hlinks.parent] at hr
  have hxL : x ∈ L := h.inv.parents.above_mem (h.inv.parents.closed n h.mem p hp) hx
  have hrL : r ∈ L := h.inv.parents.closed x hxL r hr
  have hrp : r ≠ p := by
    rintro rfl
    exact hgrounded.not_above hr hx
  have hxn : x ≠ n := by
    rintro rfl
    exact hgrounded.not_above hp hx
  have hqueue : ((s.growAt sent n p).node r).queue = (s.node r).queue := by
    rw [Tree.growAt, Tree.updateEntry, setHeap_queue, if_neg hrp]
    exact modify_field (f := fun x => { x with point := x.grown sent }) Node.queue (fun _ => rfl) s n r
  have hother : ∀ z, z ≠ n → ((s.growAt sent n p).node z).point = (s.node z).point ∧
      ((s.growAt sent n p).node z).grown sent = (s.node z).grown sent := by
    intro z hz
    have hpoint : ((s.growAt sent n p).node z).point = (s.node z).point :=
      (setPoint_point s n (fun x => x.grown sent) z).trans (if_neg hz)
    have hweight : ((s.growAt sent n p).node z).weight = (s.node z).weight :=
      modify_field (f := fun x => { x with point := x.grown sent }) Node.weight (fun _ => rfl) s n z
    exact ⟨hpoint, by rw [Node.grown, Node.grown, hpoint, hweight]⟩
  rw [hqueue] at hk hy
  have hyn : y ≠ n := by
    rintro rfl
    have hparent := ((h.inv.queues.mem r hrL y).mp (List.mem_of_getElem? hy)).2.1
    exact hrp (Option.some.inj (hparent.symm.trans hp))
  rw [(hother y hyn).1, (hother x hxn).2]
  exact hfits x (Above.of_parent hp hx) r hr k y hk hpos hy

theorem update_inOrder (h : Updating L s n) (hs : InOrder s L) {sent : BitVec 32} (hfits : PathFits s n sent)
    (hL : L.length ≤ s.live.length) : InOrder (s.update n sent) L := by
  obtain ⟨-, -, n', hdone, -⟩ := update_rule (I := fun s n => InOrder s L ∧ PathFits s n sent) sent
    (fun s n p h ⟨hs, hfits⟩ hp => by
      have hn0 : n ≠ root := fun heq => by simp [heq, h.inv.parents.rootParent] at hp
      exact ⟨growAt_inOrder h.inv hs sent h.mem hp (h.queued hn0) (hfits n (Above.refl n)), hfits.step h hp⟩)
    h ⟨hs, hfits⟩ hL
  exact hdone

theorem idleUp_steady (s : Tree T) (n : ℕ) : Steady s (s.idleUp n).1 := by
  refine (setActive_steady s n false).trans (climb_steady (fun s n p => ?_) _ _ n)
  split_ifs
  · exact dequeue_steady s p n
  · exact Steady.refl s

/-! ### A point that is reset -/

/-- a shadow node becomes one of a stream, with the point of a new node -/
def vivify (s : Tree T) (n : ℕ) (id weight : BitVec 32) (t : Option T) : Tree T :=
  s.modify n fun x => { x with t := t, point := id, weight := weight, shadow := false }

/-- In the tree with the point reset: the queue of the parent is in order, or the entry is taken out of it at once. -/
def ResetOk (s : Tree T) (n : ℕ) (parentId : BitVec 32) : Prop :=
  (∀ p, (s.node n).parent = some p → Ordered s.less (s.heap p)) ∨
    ∃ p m, (s.node n).parent = some p ∧ (s.node p).id ≠ parentId ∧ s.find parentId = some m ∧
      ¬ (parentId ≠ 0 ∧ s.inParentChain n s.live.length m = true)

section Vivify

variable {id weight parentId : BitVec 32} {t : Option T}

theorem vivify_queue (s : Tree T) (n : ℕ) (id weight : BitVec 32) (t : Option T) (q : ℕ) :
    ((vivify s n id weight t).node q).queue = (s.node q).queue :=
  modify_field (f := fun x => { x with t := t, point := id, weight := weight, shadow := false }) Node.queue (fun _ => rfl) s n q

theorem vivify_point (s : Tree T) (n : ℕ) (id weight : BitVec 32) (t : Option T) {x : ℕ} (hx : x ≠ n) :
    ((vivify s n id weight t).node x).point = (s.node x).point := by
  rw [vivify, modify_node, if_neg hx]

theorem vivify_id (s : Tree T) (n : ℕ) (id weight : BitVec 32) (t : Option T) (x : ℕ) :
    ((vivify s n id weight t).node x).id = (s.node x).id :=
  modify_field (f := fun x => { x with t := t, point := id, weight := weight, shadow := false }) Node.id (fun _ => rfl) s n x

/-- if it is in order, all queues are -/
theorem vivify_inOrder (h : Inv (vivify s n id weight t) L) (hs : InOrder s L)
    (hok : ∀ p, ((vivify s n id weight t).node n).parent = some p → Ordered (vivify s n id weight t).less ((vivify s n id weight t).heap p)) :
    InOrder (vivify s n id weight t) L := by
  intro q hq
  by_cases hmem : n ∈ (s.node q).queue
  · rw [← vivify_queue s n id weight t] at hmem
    exact hok q ((h.queues.mem q hq n).mp hmem).2.1
  · exact hs.off (fun q _ => vivify_queue s n id weight t q) (fun x hx => vivify_point s n id weight t hx) hq hmem

/-- a node that is moved leaves the queues in order, whatever its point is -/
theorem vivify_detach (h : Inv (vivify s n id weight t) L) (hs : InOrder s L) (hp : ((vivify s n id weight t).node n).parent = some p) :
    InOrder (detachFrom (vivify s n id weight t) p n) L := by
  have hchange := childrenRemove_change (vivify s n id weight t) p n
  have hsteady := childrenRemove_steady (vivify s n id weight t) p n
  have hqueues : Queues ((vivify s n id weight t).childrenRemove p n) L :=
    h.queues.congr (fun x _ => hchange.parent x) (fun q _ => hchange.entries.queue q) hchange.entries.index fun x _ => hchange.state.queued x
  have hqueue : ∀ q ∈ L, (((vivify s n id weight t).childrenRemove p n).node q).queue = (s.node q).queue := fun q _ =>
    (hchange.entries.queue q).trans (vivify_queue s n id weight t q)
  have hpoint : ∀ x, x ≠ n → (((vivify s n id weight t).childrenRemove p n).node x).point = (s.node x).point := fun x hx =>
    (hsteady.point x).trans (vivify_point s n id weight t hx)
  have hp' : (((vivify s n id weight t).childrenRemove p n).node n).parent = some p := (hchange.parent n).trans hp
  unfold detachFrom
  dsimp only
  refine (setParent_steady _ n none).order L ?_
  generalize (vivify s n id weight t).childrenRemove p n = s₁ at hqueues hqueue hpoint hp' ⊢
  by_cases hqueued : (s₁.node n).queued = true
  · rw [if_pos hqueued]
    refine (unqueueUp_steady _ p).order L ((setQueued_steady _ n false).order L (setHeap_inOrder (fun q hq hqp => ?_) fun hpL => ?_))
    · refine hs.off hqueue hpoint hq fun hmem => hqp ?_
      rw [← hqueue q hq] at hmem
      exact Option.some.inj (((hqueues.mem q hq n).mp hmem).2.1.symm.trans hp')
    · by_cases hmem : n ∈ (s₁.node p).queue
      · obtain ⟨hk, hexcept⟩ := hs.exceptAt hqueue hpoint hpL (hqueues.heaps.indexed p hpL) hmem
        exact hexcept.erase_ordered (weak_less s₁) hk
      · exact erase_ordered (weak_less s₁) (hs.off hqueue hpoint hpL (hqueue p hpL ▸ hmem)) n
  · rw [if_neg hqueued]
    intro q hq
    exact hs.off hqueue hpoint hq (hqueue q hq ▸ hqueues.not_queued (Bool.eq_false_of_not_eq_true hqueued) q hq)

theorem vivify_reprioritize (h : Consistent s) (hs : InOrder s s.live) (hn : n ∈ s.live) (hshadow : (s.node n).shadow = true)
    (hid : parentId ≠ (s.node n).id) (hok : ResetOk (vivify s n id weight t) n parentId) (exclusive : Bool) :
    InOrder ((vivify s n id weight t).reprioritize n parentId exclusive).1
      ((vivify s n id weight t).reprioritize n parentId exclusive).1.live := by
  have hcons : Consistent (vivify s n id weight t) := vivify_consistent h hshadow t id weight
  have hid' : parentId ≠ ((vivify s n id weight t).node n).id := vivify_id s n id weight t n ▸ hid
  have hlive : (vivify s n id weight t).live = s.live := rfl
  rcases hok with hok | ⟨p, m, hp, hpid, hm, hlift⟩
  · exact (reprioritize_leaves hcons hn hid' exclusive).order (vivify_inOrder hcons.inv (hlive ▸ hs) hok)
  · have hne : m ≠ n := fun hmn => hid' (hmn ▸ (find_some hcons.inv hm).2).symm
    obtain ⟨hmoved, hmovedLive⟩ := moveBelow_consistent hcons hn hp hm hne exclusive
    have hsteady := moveBelow_steady (vivify s n id weight t) n p m parentId exclusive
    have horder : InOrder (moveBelow (vivify s n id weight t) n p m parentId exclusive) s.live := by
      rw [moveBelow, liftParent, if_neg hlift, changeParent_eq _ n m exclusive hp]
      exact (attachBelow_steady _ m n exclusive).order _ (vivify_detach (hlive ▸ hcons.inv) hs hp)
    rw [reprioritize_moves exclusive hp hpid hm]
    refine (dropShadow_leaves hmoved hmovedLive).order ?_
    rw [hsteady.live]
    exact horder

end Vivify

/-! ## Runs -/

/-- no point of the tree gets smaller than the one above it in its queue -/
def KeepsOrder (s : Tree T) : Op T → Prop
  | .add parentId id weight _ t =>
    ∀ n b, s.findShadow id = some (n, b) → (s.node n).shadow = true → ResetOk (vivify s n id weight t) n parentId
  | .deactivate n sent => PathFits (s.idleUp n).1 (s.idleUp n).2 sent
  | .update n sent => PathFits s n sent
  | .remove _ | .reprioritize _ _ _ | .reprioritizeId _ _ _ | .activate _ => True

theorem add_inOrder (h : Consistent s) (hs : InOrder s s.live) {calls fuel : ℕ} {parentId id weight : BitVec 32} {exclusive shadow : Bool}
    {t : Option T} {r : Tree T × Option ℕ} (hne : parentId ≠ id) (hok : KeepsOrder s (.add parentId id weight exclusive t))
    (hadd : s.add calls fuel parentId id weight exclusive t shadow = some r) : InOrder r.1 r.1.live := by
  rcases add_cases h hadd with ⟨n, b, hfind, hshadow, rfl⟩ | ⟨-, s₁, q, weight', exclusive', hparent, -, rfl⟩
  · obtain ⟨hn, hid⟩ := findShadow_some h.inv hfind
    exact vivify_reprioritize h hs hn hshadow (hid.symm ▸ hne) (hok n b hfind hshadow) exclusive
  · have hs₁ : InOrder s₁ s₁.live := by
      cases hparent with
      | asIs => exact hs
      | shadow _ => exact (addBelow_added h root parentId _ _ _ _).order hs
    exact (addBelow_added (hparent.consistent h) q id weight' exclusive' t shadow).order hs₁

theorem step_inOrder {op : Op T} (h : Consistent s) (hs : InOrder s s.live) (hop : Allowed s op) (hok : KeepsOrder s op)
    (hreturns : Returns s op s') : InOrder s' s'.live := by
  cases op with
  | add parentId id weight exclusive t =>
    obtain ⟨calls, fuel, n, hadd⟩ := hreturns
    exact add_inOrder h hs hop hok hadd
  | remove n =>
    subst hreturns
    exact (remove_leaves h hop.1.1).order hs
  | reprioritize n newParentId exclusive =>
    subst hreturns
    exact (reprioritize_leaves h hop.1.1 hop.2 exclusive).order hs
  | reprioritizeId id newParentId exclusive =>
    subst hreturns
    exact (reprioritizeId_leaves h hop.2 exclusive).order hs
  | activate n =>
    subst hreturns
    exact (activate_steady s n).leaves.order hs
  | deactivate n sent =>
    subst hreturns
    obtain ⟨hupdating, hlive, -⟩ := idleUp_updating h.inv hop.1 le_rfl
    obtain ⟨-, hlinks⟩ := update_inv hupdating sent (hlive.symm ▸ le_rfl)
    rw [deactivate_eq, hlinks.live, hlive]
    exact update_inOrder hupdating ((idleUp_steady s n).order _ hs) hok (hlive.symm ▸ le_rfl)
  | update n sent =>
    subst hreturns
    obtain ⟨⟨hn, hn0⟩, hactive⟩ := hop
    have hupdating : Updating s.live s n := ⟨h.inv, hn, fun _ => (h.inv.settled n hn hn0 id).mpr (Or.inl hactive)⟩
    obtain ⟨-, hlinks⟩ := update_inv hupdating sent le_rfl
    rw [hlinks.live]
    exact update_inOrder hupdating hs hok le_rfl

theorem run_inOrder (h : ReachableBy KeepsOrder s) : InOrder s s.live := by
  induction h with
  | init maxConcurrentStreams => exact fun p _ i _ => comp_of_length_le (Or.inl (Nat.zero_le i))
  | step h hop hok hs ih => exact step_inOrder (run_consistent h.reachable) ih hop hok hs

/-- the queues are heaps whose entries know their places, so that the first entry is one with the smallest point -/
structure HeapsOk (s : Tree T) : Prop where
  indexed : ∀ p ∈ s.live, Indexed (s.heap p)
  order : ∀ p ∈ s.live, Ordered s.less (s.heap p)
  first : ∀ p ∈ s.live, ∀ e l, (s.node p).queue = e :: l → ∀ x ∈ (s.node p).queue, (s.node e).point ≤ (s.node x).point

/-- stream 1 depends on stream 5, which has not been opened, and stream 3 on none -/
def twoStreams : Tree Unit := openStream (openStream (Tree.init Unit 100) 5 1) 0 3

/-- both have something to send, and send it -/
def bothSent : Tree Unit := (((twoStreams.activate 2).activate 3).update 3 64).update 2 96

theorem bothSent_reachable : Reachable Unit bothSent := by
  have hfirst : Reachable Unit (openStream (Tree.init Unit 100) 5 1) :=
    (Reachable.init 100).step (show Allowed _ (.add 5 1 15 false (some ())) by unfold Allowed; decide) ⟨2, 2, some 2, rfl⟩
  have hboth : Reachable Unit twoStreams :=
    hfirst.step (show Allowed _ (.add 0 3 15 false (some ())) by unfold Allowed; decide) ⟨2, 2, some 3, rfl⟩
  have hactive : Reachable Unit (twoStreams.activate 2) := hboth.step (show Allowed _ (.activate 2) from ⟨by decide, by decide⟩) rfl
  have hactive' : Reachable Unit ((twoStreams.activate 2).activate 3) :=
    hactive.step (show Allowed _ (.activate 3) from ⟨by decide, by decide⟩) rfl
  have hsent : Reachable Unit (((twoStreams.activate 2).activate 3).update 3 64) :=
    hactive'.step (show Allowed _ (.update 3 64) from ⟨⟨by decide, by decide⟩, by decide⟩) rfl
  exact hsent.step (show Allowed _ (.update 2 96) from ⟨⟨by decide, by decide⟩, by decide⟩) rfl

end TrafficServer.Http2.DependencyTree
