/-
The invariant of the dependency tree.

`Parents` and `Children` are about the links: the parents form a tree and the lists of children are that tree. `Queues` is about the queues:
an entry is in the queue of its parent exactly while the node is `queued`. `Settled` says which nodes are: those that are active or have
something queued below them. While a change is under way a node may hang nowhere (`d`), and nodes on the way up may not be settled yet: each
loop up to the root settles one after the other (`queueUp_settled`, `unqueueUp_settled`). The nodes of the tree are in a list `L`, which
`remove` leaves before the memory of a node is freed.
-/
import TrafficServer.Http2.DependencyTree
import TrafficServer.Lib.Forest

namespace TrafficServer.Http2.DependencyTree

open TrafficServer.IndexedHeap TrafficServer.Forest

variable {T : Type} {s s' s'' : Tree T} {L : List ℕ} {n p q c d : ℕ}

/-! ## The invariant -/

/-- the parent links -/
def Tree.up (s : Tree T) (n : ℕ) : Option ℕ := (s.node n).parent

/-- the parent links of the nodes in `L` -/
structure Parents (s : Tree T) (L : List ℕ) : Prop where
  nodup : L.Nodup
  rootMem : root ∈ L
  rootParent : (s.node root).parent = none
  rootId : (s.node root).id = 0
  rootShadow : (s.node root).shadow = false
  fresh : ∀ n ∈ L, n < s.next
  closed : ∀ n ∈ L, ∀ p, (s.node n).parent = some p → p ∈ L
  grounded : Grounded s.up

/-- nodes other than the root and `d` have a parent -/
def Rooted (s : Tree T) (L : List ℕ) (d : ℕ) : Prop := ∀ n ∈ L, n ≠ root → n ≠ d → (s.node n).parent ≠ none

/-- the lists of children have the nodes other than `d` -/
structure Children (s : Tree T) (L : List ℕ) (d : ℕ) : Prop where
  mem : ∀ p ∈ L, ∀ c, c ∈ (s.node p).children ↔ c ∈ L ∧ c ≠ d ∧ (s.node c).parent = some p
  nodup : ∀ p ∈ L, (s.node p).children.Nodup

/-- the entries are where they say they are, each in one queue -/
structure Heaps (s : Tree T) (L : List ℕ) : Prop where
  indexed : ∀ p ∈ L, Indexed (s.heap p)
  disjoint : ∀ p ∈ L, ∀ q ∈ L, ∀ x, x ∈ (s.node p).queue → x ∈ (s.node q).queue → p = q

structure Queues (s : Tree T) (L : List ℕ) : Prop where
  heaps : Heaps s L
  mem : ∀ p ∈ L, ∀ x, x ∈ (s.node p).queue ↔ x ∈ L ∧ (s.node x).parent = some p ∧ (s.node x).queued = true

/-- a node has something to send, or one below it has -/
def Busy (s : Tree T) (L : List ℕ) (n : ℕ) : Prop :=
  (s.node n).active = true ∨ ∃ x ∈ L, (s.node x).parent = some n ∧ (s.node x).queued = true

/-- the nodes but those that are left out are queued if they are busy -/
def Settled (s : Tree T) (L : List ℕ) (out : ℕ → Prop) : Prop :=
  ∀ n ∈ L, n ≠ root → ¬ out n → ((s.node n).queued = true ↔ Busy s L n)

structure Inv (s : Tree T) (L : List ℕ) : Prop where
  parents : Parents s L
  rooted : Rooted s L root
  children : Children s L root
  queues : Queues s L
  settled : Settled s L fun _ => False

theorem Queues.queue_eq_nil (h : Queues s L) (hn : n ∈ L) :
    (s.node n).queue = [] ↔ ¬ ∃ x ∈ L, (s.node x).parent = some n ∧ (s.node x).queued = true := by
  rw [List.eq_nil_iff_forall_not_mem, not_exists]
  exact forall_congr' fun x => not_congr (h.mem n hn x)

theorem Queues.busy_iff (h : Queues s L) (hn : n ∈ L) : Busy s L n ↔ (s.node n).active = true ∨ (s.node n).queue ≠ [] := by
  rw [Ne, h.queue_eq_nil hn, not_not]
  rfl

/-! ## What the operations leave as it is -/

/-- only queues and what goes with them may change -/
structure SameLinks (s s' : Tree T) : Prop where
  parent : ∀ n, (s'.node n).parent = (s.node n).parent
  children : ∀ n, (s'.node n).children = (s.node n).children
  active : ∀ n, (s'.node n).active = (s.node n).active
  shadow : ∀ n, (s'.node n).shadow = (s.node n).shadow
  id : ∀ n, (s'.node n).id = (s.node n).id
  live : s'.live = s.live
  next : s'.next = s.next
  count : s'.nodeCount = s.nodeCount

/-- links and queues may change -/
structure SameState (s s' : Tree T) : Prop where
  queued : ∀ n, (s'.node n).queued = (s.node n).queued
  active : ∀ n, (s'.node n).active = (s.node n).active
  shadow : ∀ n, (s'.node n).shadow = (s.node n).shadow
  id : ∀ n, (s'.node n).id = (s.node n).id
  live : s'.live = s.live
  next : s'.next = s.next
  count : s'.nodeCount = s.nodeCount

theorem modify_node (s : Tree T) (n : ℕ) (f : Node T → Node T) (m : ℕ) :
    (s.modify n f).node m = if m = n then f (s.node n) else s.node m := Function.update_apply _ _ _ _

/-- a field that the function keeps -/
theorem modify_field {β : Type} (g : Node T → β) {f : Node T → Node T} (hf : ∀ x, g (f x) = g x) (s : Tree T) (n m : ℕ) :
    g ((s.modify n f).node m) = g (s.node m) := by
  rw [modify_node]
  split_ifs with h
  · rw [hf, h]
  · rfl

theorem SameLinks.refl (s : Tree T) : SameLinks s s :=
  ⟨fun _ => rfl, fun _ => rfl, fun _ => rfl, fun _ => rfl, fun _ => rfl, rfl, rfl, rfl⟩

theorem SameLinks.trans (h : SameLinks s s') (h' : SameLinks s' s'') : SameLinks s s'' where
  parent n := (h'.parent n).trans (h.parent n)
  children n := (h'.children n).trans (h.children n)
  active n := (h'.active n).trans (h.active n)
  shadow n := (h'.shadow n).trans (h.shadow n)
  id n := (h'.id n).trans (h.id n)
  live := h'.live.trans h.live
  next := h'.next.trans h.next
  count := h'.count.trans h.count

theorem SameLinks.up (h : SameLinks s s') : s'.up = s.up := funext h.parent

theorem Parents.congr (hp : Parents s L) (hparent : ∀ n, (s'.node n).parent = (s.node n).parent) (hid : ∀ n, (s'.node n).id = (s.node n).id)
    (hshadow : (s'.node root).shadow = (s.node root).shadow) (hnext : s'.next = s.next) : Parents s' L where
  nodup := hp.nodup
  rootMem := hp.rootMem
  rootParent := (hparent _).trans hp.rootParent
  rootId := (hid _).trans hp.rootId
  rootShadow := hshadow.trans hp.rootShadow
  fresh n hn := hnext ▸ hp.fresh n hn
  closed n hn p hpar := hp.closed n hn p ((hparent n).symm.trans hpar)
  grounded := (funext hparent : s'.up = s.up).symm ▸ hp.grounded

theorem SameLinks.parents (h : SameLinks s s') (hp : Parents s L) : Parents s' L := hp.congr h.parent h.id (h.shadow root) h.next

theorem SameLinks.rooted (h : SameLinks s s') (hr : Rooted s L d) : Rooted s' L d := fun n hn h0 hd => (h.parent n).symm ▸ hr n hn h0 hd

theorem SameLinks.childrenOk (h : SameLinks s s') (hc : Children s L d) : Children s' L d where
  mem p hp c := by rw [h.children, h.parent, hc.mem p hp c]
  nodup p hp := (h.children p).symm ▸ hc.nodup p hp

theorem setHeap_sameLinks (s : Tree T) (p : ℕ) (h : Heap ℕ) : SameLinks s (s.setHeap p h) :=
  ⟨fun _ => rfl, fun _ => rfl, fun _ => rfl, fun _ => rfl, fun _ => rfl, rfl, rfl, rfl⟩

/-- a change of fields that are not links -/
theorem modify_sameLinks {f : Node T → Node T}
    (hf : ∀ x, (f x).parent = x.parent ∧ (f x).children = x.children ∧ (f x).active = x.active ∧ (f x).shadow = x.shadow ∧ (f x).id = x.id)
    (s : Tree T) (n : ℕ) : SameLinks s (s.modify n f) where
  parent := modify_field Node.parent (fun x => (hf x).1) s n
  children := modify_field Node.children (fun x => (hf x).2.1) s n
  active := modify_field Node.active (fun x => (hf x).2.2.1) s n
  shadow := modify_field Node.shadow (fun x => (hf x).2.2.2.1) s n
  id := modify_field Node.id (fun x => (hf x).2.2.2.2) s n
  live := rfl
  next := rfl
  count := rfl

theorem setQueued_sameLinks (s : Tree T) (n : ℕ) (b : Bool) : SameLinks s (s.modify n fun x => { x with queued := b }) :=
  modify_sameLinks (f := fun x => { x with queued := b }) (fun _ => ⟨rfl, rfl, rfl, rfl, rfl⟩) s n

theorem enqueue_sameLinks (s : Tree T) (p n : ℕ) : SameLinks s (s.enqueue p n) :=
  (setHeap_sameLinks s p _).trans (setQueued_sameLinks _ n true)

theorem dequeue_sameLinks (s : Tree T) (p n : ℕ) : SameLinks s (s.dequeue p n) :=
  (setHeap_sameLinks s p _).trans (setQueued_sameLinks _ n false)

/-! ## Queue operations -/

theorem Heaps.congr (hs : Heaps s L) (hqueue : ∀ p ∈ L, (s'.node p).queue = (s.node p).queue)
    (hindex : ∀ x, (s'.node x).index = (s.node x).index) : Heaps s' L where
  indexed p hp i x hx := by
    have hx' : (s.node p).queue[i]? = some x := by
      rw [← hqueue p hp]
      exact hx
    exact (hindex x).trans (hs.indexed p hp i x hx')
  disjoint p hp q hq x hxp hxq := hs.disjoint p hp q hq x (hqueue p hp ▸ hxp) (hqueue q hq ▸ hxq)

theorem setHeap_queue (s : Tree T) (p : ℕ) (h : Heap ℕ) (q : ℕ) :
    ((s.setHeap p h).node q).queue = if q = p then h.v else (s.node q).queue := rfl

/-- what is in other queues is left alone; the queue itself need not have been one -/
theorem Heaps.setHeap {M : List ℕ} {h : Heap ℕ} (hs : Heaps s M) (hM : ∀ q ∈ L, q ≠ p → q ∈ M) (hindexed : Indexed h)
    (hoff : ∀ q ∈ L, q ≠ p → ∀ x ∈ (s.node q).queue, h.index x = (s.node x).index ∧ x ∉ h.v) : Heaps (s.setHeap p h) L := by
  refine ⟨fun q hq => ?_, fun q hq r hr x hxq hxr => ?_⟩
  · by_cases hqp : q = p
    · have hheap : (s.setHeap p h).heap q = h := by
        rw [Tree.heap, setHeap_queue, if_pos hqp]
        rfl
      rw [hheap]
      exact hindexed
    · intro i x hx
      have hx' : (s.node q).queue[i]? = some x := by
        have hqueue := setHeap_queue s p h q
        rw [if_neg hqp] at hqueue
        rw [← hqueue]
        exact hx
      exact (hoff q hq hqp x (List.mem_of_getElem? hx')).1.trans (hs.indexed q (hM q hq hqp) i x hx')
  · rw [setHeap_queue] at hxq hxr
    split_ifs at hxq hxr with hqp hrp hrp
    · rw [hqp, hrp]
    · exact absurd hxq (hoff r hr hrp x hxr).2
    · exact absurd hxr (hoff q hq hqp x hxq).2
    · exact hs.disjoint q (hM q hq hqp) r (hM r hr hrp) x hxq hxr

/-- an entry that is in no queue is pushed -/
theorem Heaps.push (hs : Heaps s L) (hp : p ∈ L) (hn : ∀ q ∈ L, n ∉ (s.node q).queue) :
    Heaps (s.push p n) L ∧ ∀ q x, x ∈ ((s.push p n).node q).queue ↔ x ∈ (s.node q).queue ∨ q = p ∧ x = n := by
  obtain ⟨hindexed, hmem, hframe⟩ := push_spec s.less (hs.indexed p hp) (hn p hp)
  refine ⟨hs.setHeap (fun _ hq _ => hq) hindexed fun q hq hqp x hx => ?_, fun q x => ?_⟩
  · have hxp : x ∉ (s.node p).queue := fun hxp => hqp (hs.disjoint q hq p hp x hx hxp)
    have hxn : x ≠ n := fun heq => hn q hq (heq ▸ hx)
    exact ⟨hframe x hxp hxn, fun hc => ((hmem x).mp hc).elim hxp hxn⟩
  · rw [Tree.push, setHeap_queue]
    split_ifs with hqp
    · rw [hmem, hqp]
      exact or_congr_right (by simp)
    · exact (or_iff_left fun hc => hqp hc.1).symm

theorem Heaps.erase (hs : Heaps s L) (hp : p ∈ L) (n : ℕ) :
    Heaps (s.erase p n) L ∧ ∀ q x, x ∈ ((s.erase p n).node q).queue ↔ x ∈ (s.node q).queue ∧ ¬ (q = p ∧ x = n) := by
  obtain ⟨hindexed, hmem, hframe⟩ := erase_spec s.less (hs.indexed p hp) n
  refine ⟨hs.setHeap (fun _ hq _ => hq) hindexed fun q hq hqp x hx => ?_, fun q x => ?_⟩
  · have hxp : x ∉ (s.node p).queue := fun hxp => hqp (hs.disjoint q hq p hp x hx hxp)
    exact ⟨hframe x hxp, fun hc => hxp ((hmem x).mp hc).1⟩
  · rw [Tree.erase, setHeap_queue]
    split_ifs with hqp
    · rw [hmem, hqp]
      exact and_congr_right fun _ => by simp
    · exact (and_iff_left fun hc => hqp hc.1).symm

theorem Heaps.updateEntry (hs : Heaps s L) (hp : p ∈ L) (n : ℕ) :
    Heaps (s.updateEntry p n) L ∧ ∀ q x, x ∈ ((s.updateEntry p n).node q).queue ↔ x ∈ (s.node q).queue := by
  obtain ⟨hindexed, hmem, hframe⟩ := update_spec s.less (hs.indexed p hp) n
  refine ⟨hs.setHeap (fun _ hq _ => hq) hindexed fun q hq hqp x hx => ?_, fun q x => ?_⟩
  · have hxp : x ∉ (s.node p).queue := fun hxp => hqp (hs.disjoint q hq p hp x hx hxp)
    exact ⟨hframe x hxp, fun hc => hxp ((hmem x).mp hc)⟩
  · rw [Tree.updateEntry, setHeap_queue]
    split_ifs with hqp
    · rw [hmem, hqp]
      rfl
    · rfl

theorem setQueued_heaps {b : Bool} (hs : Heaps s L) : Heaps (s.modify n fun x => { x with queued := b }) L :=
  hs.congr (fun p _ => modify_field (f := fun x => { x with queued := b }) Node.queue (fun _ => rfl) s n p)
    (modify_field (f := fun x => { x with queued := b }) Node.index (fun _ => rfl) s n)

theorem setQueued_queued (s : Tree T) (n : ℕ) (b : Bool) (x : ℕ) :
    ((s.modify n fun x => { x with queued := b }).node x).queued = if x = n then b else (s.node x).queued := by
  rw [modify_node]
  split_ifs <;> rfl

theorem enqueue_queued (s : Tree T) (p n x : ℕ) : ((s.enqueue p n).node x).queued = if x = n then true else (s.node x).queued :=
  setQueued_queued _ n true x

theorem dequeue_queued (s : Tree T) (p n x : ℕ) : ((s.dequeue p n).node x).queued = if x = n then false else (s.node x).queued :=
  setQueued_queued _ n false x

theorem enqueue_queue (s : Tree T) (p n q : ℕ) : ((s.enqueue p n).node q).queue = ((s.push p n).node q).queue :=
  modify_field (f := fun x => { x with queued := true }) Node.queue (fun _ => rfl) (s.push p n) n q

theorem dequeue_queue (s : Tree T) (p n q : ℕ) : ((s.dequeue p n).node q).queue = ((s.erase p n).node q).queue :=
  modify_field (f := fun x => { x with queued := false }) Node.queue (fun _ => rfl) (s.erase p n) n q

theorem Queues.not_queued (hs : Queues s L) (hn : (s.node n).queued = false) : ∀ q ∈ L, n ∉ (s.node q).queue := by
  intro q hq hmem
  have hqueued := ((hs.mem q hq n).mp hmem).2.2
  rw [hn] at hqueued
  exact Bool.false_ne_true hqueued

theorem Queues.enqueue (hs : Queues s L) (hpL : p ∈ L) (hnL : n ∈ L) (hparent : (s.node n).parent = some p)
    (hn : (s.node n).queued = false) : Queues (s.enqueue p n) L := by
  obtain ⟨hheaps, hmem⟩ := hs.heaps.push hpL (hs.not_queued hn)
  refine ⟨setQueued_heaps hheaps, fun q hq x => ?_⟩
  rw [enqueue_queue, hmem, (enqueue_sameLinks s p n).parent, enqueue_queued, hs.mem q hq x]
  by_cases hx : x = n
  · subst hx
    rw [if_pos rfl, hn, hparent]
    simp [hnL, eq_comm]
  · rw [if_neg hx]
    exact or_iff_left fun hc => hx hc.2

theorem Queues.dequeue (hs : Queues s L) (hpL : p ∈ L) (hparent : (s.node n).parent = some p) : Queues (s.dequeue p n) L := by
  obtain ⟨hheaps, hmem⟩ := hs.heaps.erase hpL n
  refine ⟨setQueued_heaps hheaps, fun q hq x => ?_⟩
  rw [dequeue_queue, hmem, (dequeue_sameLinks s p n).parent, dequeue_queued, hs.mem q hq x]
  by_cases hx : x = n
  · subst hx
    rw [if_pos rfl, hparent]
    simp only [Option.some.injEq, and_true, Bool.false_eq_true, and_false, iff_false]
    exact fun hc => hc.2 hc.1.2.1.symm
  · rw [if_neg hx]
    exact and_iff_left fun hc => hx hc.2

theorem Queues.updateEntry (hs : Queues s L) (hpL : p ∈ L) (n : ℕ) : Queues (s.updateEntry p n) L := by
  obtain ⟨hheaps, hmem⟩ := hs.heaps.updateEntry hpL n
  exact ⟨hheaps, fun q hq x => (hmem q x).trans (hs.mem q hq x)⟩

theorem Queues.congr (hs : Queues s L) (hparent : ∀ x ∈ L, (s'.node x).parent = (s.node x).parent)
    (hqueue : ∀ p ∈ L, (s'.node p).queue = (s.node p).queue) (hindex : ∀ x, (s'.node x).index = (s.node x).index)
    (hqueued : ∀ x ∈ L, (s'.node x).queued = (s.node x).queued) : Queues s' L where
  heaps := hs.heaps.congr hqueue hindex
  mem p hp x := by
    rw [hqueue p hp, hs.mem p hp x]
    exact and_congr_right fun hx => by rw [hparent x hx, hqueued x hx]

theorem Busy.congr (hactive : (s'.node n).active = (s.node n).active)
    (h : ∀ x ∈ L, ((s'.node x).parent = some n ∧ (s'.node x).queued = true ↔ (s.node x).parent = some n ∧ (s.node x).queued = true)) :
    Busy s' L n ↔ Busy s L n :=
  or_congr (by rw [hactive]) (exists_congr fun x => and_congr_right (h x))

/-- a node that is not the parent of one that has changed -/
theorem busy_congr (hlinks : SameLinks s s') (hqueued : ∀ x, x ≠ c → (s'.node x).queued = (s.node x).queued)
    (hc : (s.node c).parent ≠ some n) : Busy s' L n ↔ Busy s L n := by
  refine Busy.congr (hlinks.active n) fun x _ => ?_
  rw [hlinks.parent]
  refine and_congr_right fun hx => ?_
  rw [hqueued]
  rintro rfl
  exact hc hx

theorem Settled.congr {out : ℕ → Prop} (hs : Settled s L out) (hactive : ∀ x, (s'.node x).active = (s.node x).active)
    (hparent : ∀ x ∈ L, (s'.node x).parent = (s.node x).parent) (hqueued : ∀ x ∈ L, (s'.node x).queued = (s.node x).queued) :
    Settled s' L out := by
  intro n hn h0 hout
  rw [hqueued n hn, hs n hn h0 hout]
  exact (Busy.congr (hactive n) fun x hx => by rw [hparent x hx, hqueued x hx]).symm

/-! ## Loops up to the root -/

/-- what holds at a node and is passed on to its parent holds where the loop ends -/
theorem climb_rule {I : Tree T → ℕ → Prop} (cond : Tree T → ℕ → Bool) (body : Tree T → ℕ → ℕ → Tree T) {fuel : ℕ} (L : List ℕ)
    (hstep : ∀ s n p, I s n → (s.node n).parent = some p → cond s n = true → I (body s n p) p ∧ SameLinks s (body s n p))
    (hmem : ∀ s n, I s n → n ∈ L) (hI : I s n) (hgrounded : Grounded s.up) (hfuel : height s.up L n ≤ fuel) :
    ∃ s' n', Tree.climb cond body fuel s n = (s', n') ∧ I s' n' ∧ SameLinks s s' ∧
      ((s'.node n').parent = none ∨ cond s' n' = false) := by
  induction fuel generalizing s n with
  | zero =>
    have hpos : 0 < height s.up L n := height_pos (hmem s n hI)
    omega
  | succ fuel ih =>
    rw [Tree.climb]
    cases hp : (s.node n).parent with
    | none => exact ⟨s, n, rfl, hI, SameLinks.refl s, Or.inl hp⟩
    | some p =>
      dsimp only
      cases hcond : cond s n with
      | false => exact ⟨s, n, rfl, hI, SameLinks.refl s, Or.inr hcond⟩
      | true =>
        rw [if_pos rfl]
        obtain ⟨hI', hlinks⟩ := hstep s n p hI hp hcond
        have hless : height s.up L p < height s.up L n := height_parent hgrounded (hmem s n hI) hp
        obtain ⟨s', n', heq, hI'', hlinks', hend⟩ := ih hI' (hlinks.up.symm ▸ hgrounded) (by rw [hlinks.up]; omega)
        exact ⟨s', n', heq, hI'', hlinks.trans hlinks', hend⟩

/-- the loops begin with enough fuel -/
theorem height_le_live (hL : L.length ≤ s.live.length) (n : ℕ) : height s.up L n ≤ s.live.length := (height_le L n).trans hL

/-- nodes are being queued: all are settled but the one at hand, which is busy, and its parent, which is queued if it is busy without it -/
structure Queuing (L : List ℕ) (s : Tree T) (n : ℕ) : Prop where
  parents : Parents s L
  rooted : Rooted s L root
  queues : Queues s L
  mem : n ∈ L
  busy : n = root ∨ Busy s L n
  settled : Settled s L fun x => x = n ∨ (s.node n).parent = some x
  above : ∀ x ∈ L, x ≠ root → (s.node n).parent = some x → Busy s L x → (s.node x).queued = true

theorem Queuing.step (h : Queuing L s n) (hp : (s.node n).parent = some p) (hn : (s.node n).queued = false) :
    Queuing L (s.enqueue p n) p := by
  have hpL : p ∈ L := h.parents.closed n h.mem p hp
  have hlinks := enqueue_sameLinks s p n
  have hqueued := enqueue_queued s p n
  have hne : p ≠ n := fun heq => h.parents.grounded.not_above hp (heq ▸ Above.refl p)
  have hnq : ((s.enqueue p n).node n).queued = true := by rw [hqueued, if_pos rfl]
  have hn0 : n ≠ root := fun heq => by simp [heq, h.parents.rootParent] at hp
  have hbusyn : Busy (s.enqueue p n) L n := by
    refine (busy_congr hlinks (fun x hx => by rw [hqueued, if_neg hx]) ?_).mpr (h.busy.resolve_left hn0)
    rw [hp]
    exact fun heq => hne (Option.some.inj heq)
  have hbusy : ∀ x, x ≠ p → (Busy (s.enqueue p n) L x ↔ Busy s L x) := fun x hx =>
    busy_congr hlinks (fun y hy => by rw [hqueued, if_neg hy]) (by rw [hp]; exact fun heq => hx (Option.some.inj heq).symm)
  refine ⟨hlinks.parents h.parents, hlinks.rooted h.rooted, h.queues.enqueue hpL h.mem hp hn, hpL, ?_, ?_, ?_⟩
  · exact Or.inr (Or.inr ⟨n, h.mem, (hlinks.parent n).trans hp, hnq⟩)
  · intro x hx hx0 hout
    obtain ⟨hxp, -⟩ := not_or.mp hout
    by_cases hxn : x = n
    · rw [hxn, hnq]
      exact iff_of_true rfl hbusyn
    · rw [hqueued, if_neg hxn, hbusy x hxp]
      refine h.settled x hx hx0 fun hc => hc.elim hxn fun hc => ?_
      exact hxp (Option.some.inj (hc.symm.trans hp))
  · intro x hx hx0 hpx hb
    rw [hlinks.parent] at hpx
    have hxp : x ≠ p := fun heq => h.parents.grounded.not_above hpx (heq ▸ Above.refl x)
    have hxn : x ≠ n := by
      rintro rfl
      exact h.parents.grounded.not_above hp (Above.of_parent hpx (Above.refl x))
    rw [hqueued, if_neg hxn]
    refine (h.settled x hx hx0 fun hc => hc.elim hxn fun hc => ?_).mpr ((hbusy x hxp).mp hb)
    exact hxp (Option.some.inj (hc.symm.trans hp))

theorem queueUp_settled (h : Queuing L s n) (hL : L.length ≤ s.live.length) :
    SameLinks s (s.queueUp n) ∧ Queues (s.queueUp n) L ∧ Settled (s.queueUp n) L fun _ => False := by
  obtain ⟨s', n', heq, hI, hlinks, hend⟩ := climb_rule (I := Queuing L) (fun s n => !(s.node n).queued) (fun s n p => s.enqueue p n) L
    (fun s n p h hp hn => ⟨h.step hp (by simpa using hn), enqueue_sameLinks s p n⟩) (fun s n h => h.mem) h h.parents.grounded
    (height_le_live hL n)
  have hup : s.queueUp n = s' := congrArg Prod.fst heq
  rw [hup]
  refine ⟨hlinks, hI.queues, fun x hx hx0 _ => ?_⟩
  have hqueued : n' ≠ root → (s'.node n').queued = true := fun h0 =>
    hend.elim (fun hnone => absurd hnone (hI.rooted n' hI.mem h0 h0)) fun hcond => by simpa using hcond
  by_cases hxn : x = n'
  · rw [hxn] at hx0 ⊢
    exact iff_of_true (hqueued hx0) (hI.busy.resolve_left hx0)
  · by_cases hxp : (s'.node n').parent = some x
    · have hn0 : n' ≠ root := fun h0 => by simp [h0, hI.parents.rootParent] at hxp
      have hbusy : Busy s' L x := Or.inr ⟨n', hI.mem, hxp, hqueued hn0⟩
      exact iff_of_true (hI.above x hx hx0 hxp hbusy) hbusy
    · exact hI.settled x hx hx0 (not_or.mpr ⟨hxn, hxp⟩)

/-- nodes are being taken off: all are settled but the one at hand, which may be queued without being busy, and a node that is not above it -/
structure Unqueuing (L : List ℕ) (d : ℕ) (s : Tree T) (n : ℕ) : Prop where
  parents : Parents s L
  rooted : Rooted s L root
  queues : Queues s L
  mem : n ∈ L
  queued : n ≠ root → Busy s L n → (s.node n).queued = true
  settled : Settled s L fun x => x = n ∨ x = d
  off : d = root ∨ ¬ Above s.up d n
  idle : d ≠ root → (s.node d).queued = false

/-- a node that is not busy is off the queue of its parent -/
theorem Unqueuing.step (h : Unqueuing L d s n) (hp : (s.node n).parent = some p) (hidle : ¬ Busy s L n) (hlinks : SameLinks s s')
    (hqueues : Queues s' L) (hqueued : ∀ x, (s'.node x).queued = if x = n then false else (s.node x).queued) : Unqueuing L d s' p := by
  have hpL : p ∈ L := h.parents.closed n h.mem p hp
  have hne : p ≠ n := fun heq => h.parents.grounded.not_above hp (heq ▸ Above.refl p)
  have hbusy : ∀ x, x ≠ p → (Busy s' L x ↔ Busy s L x) := fun x hx =>
    busy_congr hlinks (fun y hy => by rw [hqueued, if_neg hy]) (by rw [hp]; exact fun heq => hx (Option.some.inj heq).symm)
  have hoff : d = root ∨ ¬ Above s.up d p := h.off.imp_right fun hoff hc => hoff (Above.of_parent hp hc)
  refine ⟨hlinks.parents h.parents, hlinks.rooted h.rooted, hqueues, hpL, fun hp0 hb => ?_, fun x hx hx0 hout => ?_, ?_, fun hd0 => ?_⟩
  · have hpd : p ≠ d := fun heq => hoff.elim (fun h0 => hp0 (heq.trans h0)) fun hoff => hoff (heq ▸ Above.refl p)
    rw [hqueued, if_neg hne]
    refine (h.settled p hpL hp0 (not_or.mpr ⟨hne, hpd⟩)).mpr ?_
    refine hb.imp (fun ha => (hlinks.active p).symm.trans ha) fun ⟨x, hx, hxp, hxq⟩ => ⟨x, hx, (hlinks.parent x).symm.trans hxp, ?_⟩
    rw [hqueued] at hxq
    split_ifs at hxq
    exact hxq
  · obtain ⟨hxp, hxd⟩ := not_or.mp hout
    rw [hqueued, hbusy x hxp]
    by_cases hxn : x = n
    · rw [if_pos hxn, hxn]
      exact iff_of_false Bool.false_ne_true hidle
    · rw [if_neg hxn]
      exact h.settled x hx hx0 (not_or.mpr ⟨hxn, hxd⟩)
  · rwa [hlinks.up]
  · rw [hqueued, h.idle hd0, ite_self]

/-- at the end all nodes are settled -/
theorem Unqueuing.done (h : Unqueuing L d s n) (hend : (s.node n).parent = none ∨ Busy s L n) : Settled s L fun x => x = d := by
  intro x hx hx0 hxd
  by_cases hxn : x = n
  · rw [hxn] at hx0 ⊢
    have hbusy : Busy s L n := hend.resolve_left fun hnone => h.rooted n h.mem hx0 hx0 hnone
    exact iff_of_true (h.queued hx0 hbusy) hbusy
  · exact h.settled x hx hx0 (not_or.mpr ⟨hxn, hxd⟩)

theorem Unqueuing.idle_iff (h : Unqueuing L d s n) : ((s.node n).queue.isEmpty && !(s.node n).active) = true ↔ ¬ Busy s L n := by
  rw [h.queues.busy_iff h.mem]
  simp [and_comm]

theorem unqueueUp_settled (h : Unqueuing L d s n) (hL : L.length ≤ s.live.length) :
    SameLinks s (s.unqueueUp n) ∧ Queues (s.unqueueUp n) L ∧ (Settled (s.unqueueUp n) L fun x => x = d) ∧
      (d ≠ root → ((s.unqueueUp n).node d).queued = false) := by
  obtain ⟨s', n', heq, hI, hlinks, hend⟩ := climb_rule (I := Unqueuing L d)
    (fun s n => (s.node n).queue.isEmpty && !(s.node n).active) (fun s n p => s.dequeue p n) L
    (fun s n p h hp hn => ⟨h.step hp (h.idle_iff.mp hn) (dequeue_sameLinks s p n)
      (h.queues.dequeue (h.parents.closed n h.mem p hp) hp) (dequeue_queued s p n), dequeue_sameLinks s p n⟩)
    (fun s n h => h.mem) h h.parents.grounded (height_le_live hL n)
  have hup : s.unqueueUp n = s' := congrArg Prod.fst heq
  rw [hup]
  refine ⟨hlinks, hI.queues, hI.done (hend.imp_right fun hcond => ?_), hI.idle⟩
  by_contra hidle
  rw [hI.idle_iff.mpr hidle] at hcond
  exact Bool.false_ne_true hcond.symm

/-- points are being updated, from a node that is queued -/
structure Updating (L : List ℕ) (s : Tree T) (n : ℕ) : Prop where
  inv : Inv s L
  mem : n ∈ L
  queued : n ≠ root → (s.node n).queued = true

theorem Inv.congr (h : Inv s L) (hlinks : SameLinks s s') (hqueue : ∀ p, (s'.node p).queue = (s.node p).queue)
    (hindex : ∀ x, (s'.node x).index = (s.node x).index) (hqueued : ∀ x, (s'.node x).queued = (s.node x).queued) : Inv s' L where
  parents := hlinks.parents h.parents
  rooted := hlinks.rooted h.rooted
  children := hlinks.childrenOk h.children
  queues := h.queues.congr (fun x _ => hlinks.parent x) (fun p _ => hqueue p) hindex fun x _ => hqueued x
  settled := h.settled.congr hlinks.active (fun x _ => hlinks.parent x) fun x _ => hqueued x

/-- a node other than the root may be for another stream, with another weight and point, or become a shadow node or a node that is not one -/
theorem modify_inv {f : Node T → Node T} (h : Inv s L)
    (hf : ∀ x, (f x).parent = x.parent ∧ (f x).children = x.children ∧ (f x).active = x.active ∧ (f x).id = x.id ∧ (f x).queued = x.queued ∧
      (f x).queue = x.queue ∧ (f x).index = x.index) (hn : n ≠ root) : Inv (s.modify n f) L := by
  have hparent := modify_field Node.parent (fun x => (hf x).1) s n
  have hchildren := modify_field Node.children (fun x => (hf x).2.1) s n
  have hactive := modify_field Node.active (fun x => (hf x).2.2.1) s n
  have hqueued := modify_field Node.queued (fun x => (hf x).2.2.2.2.1) s n
  refine ⟨h.parents.congr hparent (modify_field Node.id (fun x => (hf x).2.2.2.1) s n) ?_ rfl,
    fun x hx h0 hd => (hparent x).symm ▸ h.rooted x hx h0 hd, ⟨fun x hx y => ?_, fun x hx => ?_⟩,
    h.queues.congr (fun x _ => hparent x) (fun x _ => modify_field Node.queue (fun x => (hf x).2.2.2.2.2.1) s n x)
      (modify_field Node.index (fun x => (hf x).2.2.2.2.2.2) s n) fun x _ => hqueued x,
    h.settled.congr hactive (fun x _ => hparent x) fun x _ => hqueued x⟩
  · rw [modify_node, if_neg (Ne.symm hn)]
  · rw [hchildren, hparent]
    exact h.children.mem x hx y
  · rw [hchildren]
    exact h.children.nodup x hx

theorem setPoint_inv (h : Inv s L) (n : ℕ) (f : Node T → BitVec 32) :
    Inv (s.modify n fun x => { x with point := f x }) L ∧ SameLinks s (s.modify n fun x => { x with point := f x }) := by
  have hlinks : SameLinks s (s.modify n fun x => { x with point := f x }) :=
    modify_sameLinks (f := fun x => { x with point := f x }) (fun _ => ⟨rfl, rfl, rfl, rfl, rfl⟩) s n
  refine ⟨h.congr hlinks ?_ ?_ ?_, hlinks⟩
  · exact modify_field (f := fun x => { x with point := f x }) Node.queue (fun _ => rfl) s n
  · exact modify_field (f := fun x => { x with point := f x }) Node.index (fun _ => rfl) s n
  · exact modify_field (f := fun x => { x with point := f x }) Node.queued (fun _ => rfl) s n

theorem updateEntry_inv (h : Inv s L) (hpL : p ∈ L) (n : ℕ) : Inv (s.updateEntry p n) L := by
  have hlinks : SameLinks s (s.updateEntry p n) := setHeap_sameLinks s p _
  exact ⟨hlinks.parents h.parents, hlinks.rooted h.rooted, hlinks.childrenOk h.children, h.queues.updateEntry hpL n,
    h.settled.congr (fun _ => rfl) (fun _ _ => rfl) fun _ _ => rfl⟩

/-- the point of a node that has sent some bytes -/
def Node.grown (x : Node T) (sent : BitVec 32) : BitVec 32 := x.point + sent * K / (x.weight + 1)

/-- one round of `update` at a node that is queued -/
def Tree.growAt (s : Tree T) (sent : BitVec 32) (n p : ℕ) : Tree T :=
  (s.modify n fun x => { x with point := x.grown sent }).updateEntry p n

/-- a node is queued below its parent, so that the parent is queued as well -/
theorem Updating.step (h : Updating L s n) (sent : BitVec 32) (hp : (s.node n).parent = some p) :
    (let s := s.modify n fun x => { x with point := x.point + sent * K / (x.weight + 1) }
      if (s.node n).queued then s.updateEntry p n else s.enqueue p n) = s.growAt sent n p ∧
    Updating L (s.growAt sent n p) p ∧ SameLinks s (s.growAt sent n p) := by
  obtain ⟨hinv, hlinks⟩ := setPoint_inv h.inv n fun x => x.grown sent
  have hpL : p ∈ L := h.inv.parents.closed n h.mem p hp
  have hn0 : n ≠ root := fun heq => by simp [heq, h.inv.parents.rootParent] at hp
  have hp' := (hlinks.parent n).trans hp
  have hn' : ((s.modify n fun x => { x with point := x.grown sent }).node n).queued = true :=
    (modify_field (f := fun x => { x with point := x.grown sent }) Node.queued (fun _ => rfl) s n n).trans (h.queued hn0)
  refine ⟨if_pos hn', ⟨updateEntry_inv hinv hpL n, hpL, fun hp0 => ?_⟩, hlinks.trans (setHeap_sameLinks _ p _)⟩
  exact (hinv.settled p hpL hp0 id).mpr (Or.inr ⟨n, h.mem, hp', hn'⟩)

/-- What holds at a node and, with its point grown, at its parent holds where `update` ends. -/
theorem update_rule {I : Tree T → ℕ → Prop} (sent : BitVec 32)
    (hI : ∀ s n p, Updating L s n → I s n → (s.node n).parent = some p → I (s.growAt sent n p) p) (h : Updating L s n) (hn : I s n)
    (hL : L.length ≤ s.live.length) : Inv (s.update n sent) L ∧ SameLinks s (s.update n sent) ∧ ∃ n', I (s.update n sent) n' := by
  obtain ⟨s', n', heq, ⟨hupdating, hn'⟩, hlinks, -⟩ := climb_rule (I := fun s n => Updating L s n ∧ I s n) (fun _ _ => true)
    (fun s n p =>
      let s := s.modify n fun x => { x with point := x.point + sent * K / (x.weight + 1) }
      if (s.node n).queued then s.updateEntry p n else s.enqueue p n) L
    (fun s n p ⟨h, hn⟩ hp _ => by
      obtain ⟨heq, hupdating, hlinks⟩ := h.step sent hp
      rw [heq]
      exact ⟨⟨hupdating, hI s n p h hn hp⟩, hlinks⟩)
    (fun s n h => h.1.mem) ⟨h, hn⟩ h.inv.parents.grounded (height_le_live hL n)
  have hup : s.update n sent = s' := congrArg Prod.fst heq
  rw [hup]
  exact ⟨hupdating.inv, hlinks, n', hn'⟩

theorem update_inv (h : Updating L s n) (sent : BitVec 32) (hL : L.length ≤ s.live.length) :
    Inv (s.update n sent) L ∧ SameLinks s (s.update n sent) := by
  obtain ⟨hinv, hlinks, -⟩ := update_rule (I := fun _ _ => True) sent (fun _ _ _ _ _ _ => trivial) h trivial hL
  exact ⟨hinv, hlinks⟩

/-! ## Nodes that have something to send, or have not -/

/-- whether a node is active -/
structure SetActive (s s' : Tree T) (n : ℕ) (b : Bool) : Prop where
  active : ∀ x, (s'.node x).active = if x = n then b else (s.node x).active
  parent : ∀ x, (s'.node x).parent = (s.node x).parent
  children : ∀ x, (s'.node x).children = (s.node x).children
  queue : ∀ x, (s'.node x).queue = (s.node x).queue
  index : ∀ x, (s'.node x).index = (s.node x).index
  queued : ∀ x, (s'.node x).queued = (s.node x).queued
  id : ∀ x, (s'.node x).id = (s.node x).id
  shadow : ∀ x, (s'.node x).shadow = (s.node x).shadow
  next : s'.next = s.next

theorem setActive (s : Tree T) (n : ℕ) (b : Bool) : SetActive s (s.modify n fun x => { x with active := b }) n b where
  active x := by
    rw [modify_node]
    split_ifs <;> rfl
  parent := modify_field (f := fun x => { x with active := b }) Node.parent (fun _ => rfl) s n
  children := modify_field (f := fun x => { x with active := b }) Node.children (fun _ => rfl) s n
  queue := modify_field (f := fun x => { x with active := b }) Node.queue (fun _ => rfl) s n
  index := modify_field (f := fun x => { x with active := b }) Node.index (fun _ => rfl) s n
  queued := modify_field (f := fun x => { x with active := b }) Node.queued (fun _ => rfl) s n
  id := modify_field (f := fun x => { x with active := b }) Node.id (fun _ => rfl) s n
  shadow := modify_field (f := fun x => { x with active := b }) Node.shadow (fun _ => rfl) s n
  next := rfl

theorem SetActive.parents {b : Bool} (h : SetActive s s' n b) (hp : Parents s L) : Parents s' L := hp.congr h.parent h.id (h.shadow root) h.next

theorem SetActive.queues {b : Bool} (h : SetActive s s' n b) (hq : Queues s L) : Queues s' L :=
  hq.congr (fun x _ => h.parent x) (fun p _ => h.queue p) h.index fun x _ => h.queued x

theorem SetActive.childrenOk {b : Bool} (h : SetActive s s' n b) (hc : Children s L d) : Children s' L d where
  mem p hp c := by rw [h.children, h.parent, hc.mem p hp c]
  nodup p hp := (h.children p).symm ▸ hc.nodup p hp

theorem SetActive.busy {b : Bool} (h : SetActive s s' n b) {x : ℕ} (hx : x ≠ n) : Busy s' L x ↔ Busy s L x :=
  Busy.congr (by rw [h.active, if_neg hx]) fun y _ => by rw [h.parent, h.queued]

theorem activate_inv (h : Inv s L) (hn : n ∈ L) (hL : L.length ≤ s.live.length) :
    Inv (s.activate n) L ∧ (s.activate n).live = s.live ∧ (s.activate n).nodeCount = s.nodeCount := by
  have hset := setActive s n true
  have hqueuing : Queuing L (s.modify n fun x => { x with active := true }) n := by
    refine ⟨hset.parents h.parents, fun x hx h0 hd => (hset.parent x).symm ▸ h.rooted x hx h0 hd, hset.queues h.queues, hn,
      Or.inr (Or.inl ((hset.active n).trans (if_pos rfl))), fun x hx h0 hout => ?_, fun x hx h0 hp hb => ?_⟩
    · rw [hset.queued, hset.busy (not_or.mp hout).1]
      exact h.settled x hx h0 id
    · rw [hset.parent] at hp
      have hne : x ≠ n := fun heq => h.parents.grounded.not_above hp (heq ▸ Above.refl x)
      rw [hset.queued]
      exact (h.settled x hx h0 id).mpr ((hset.busy hne).mp hb)
  obtain ⟨hlinks, hqueues, hsettled⟩ := queueUp_settled hqueuing hL
  exact ⟨⟨hlinks.parents hqueuing.parents, hlinks.rooted hqueuing.rooted, hlinks.childrenOk (hset.childrenOk h.children), hqueues, hsettled⟩,
    hlinks.live, hlinks.count⟩

/-- the first loop of `deactivate` -/
def Tree.idleUp (s : Tree T) (n : ℕ) : Tree T × ℕ :=
  Tree.climb (fun s n => !(s.node n).active && (s.node n).queue.isEmpty) (fun s n p => if (s.node n).queued then s.dequeue p n else s)
    s.live.length (s.modify n fun x => { x with active := false }) n

theorem deactivate_eq (s : Tree T) (n : ℕ) (sent : BitVec 32) : s.deactivate n sent = (s.idleUp n).1.update (s.idleUp n).2 sent := rfl

/-- where the loop stops a node is queued, or is the root -/
theorem idleUp_updating (h : Inv s L) (hn : n ∈ L) (hL : L.length ≤ s.live.length) :
    Updating L (s.idleUp n).1 (s.idleUp n).2 ∧ (s.idleUp n).1.live = s.live ∧ (s.idleUp n).1.nodeCount = s.nodeCount := by
  have hset := setActive s n false
  have hunqueuing : Unqueuing L root (s.modify n fun x => { x with active := false }) n := by
    refine ⟨hset.parents h.parents, fun x hx h0 hd => (hset.parent x).symm ▸ h.rooted x hx h0 hd, hset.queues h.queues, hn,
      fun h0 hb => ?_, fun x hx h0 hout => ?_, Or.inl rfl, fun h0 => absurd rfl h0⟩
    · rw [hset.queued]
      refine (h.settled n hn h0 id).mpr (Or.inr ?_)
      rcases hb with ha | ⟨x, hx, hxp, hxq⟩
      · rw [hset.active, if_pos rfl] at ha
        exact absurd ha Bool.false_ne_true
      · exact ⟨x, hx, (hset.parent x).symm.trans hxp, (hset.queued x).symm.trans hxq⟩
    · rw [hset.queued, hset.busy (not_or.mp hout).1]
      exact h.settled x hx h0 id
  obtain ⟨s', n', heq, hI, hlinks, hend⟩ := climb_rule (I := Unqueuing L root)
    (fun s n => !(s.node n).active && (s.node n).queue.isEmpty) (fun s n p => if (s.node n).queued then s.dequeue p n else s) L
    (fun s n p h hp hcond => by
      have hidle : ¬ Busy s L n := h.idle_iff.mp (by rwa [Bool.and_comm])
      by_cases hq : (s.node n).queued = true
      · rw [if_pos hq]
        exact ⟨h.step hp hidle (dequeue_sameLinks s p n) (h.queues.dequeue (h.parents.closed n h.mem p hp) hp) (dequeue_queued s p n),
          dequeue_sameLinks s p n⟩
      · rw [if_neg hq]
        refine ⟨h.step hp hidle (SameLinks.refl s) h.queues fun x => ?_, SameLinks.refl s⟩
        split_ifs with hx
        · rw [hx]
          simpa using hq
        · rfl)
    (fun s n h => h.mem) hunqueuing hunqueuing.parents.grounded
    (height_le_live (s := s.modify n fun x => { x with active := false }) hL n)
  have hbusy : (s'.node n').parent = none ∨ Busy s' L n' := hend.imp_right fun hcond => by
    by_contra hidle
    rw [Bool.and_comm, hI.idle_iff.mpr hidle] at hcond
    exact Bool.false_ne_true hcond.symm
  have hchildren : Children s' L root := hlinks.childrenOk (hset.childrenOk h.children)
  have hidle : s.idleUp n = (s', n') := heq
  rw [hidle]
  refine ⟨⟨⟨hI.parents, hI.rooted, hchildren, hI.queues, fun x hx h0 _ => hI.done hbusy x hx h0 h0⟩, hI.mem, fun h0 => ?_⟩, hlinks.live,
    hlinks.count⟩
  exact hI.queued h0 (hbusy.resolve_left fun hnone => hI.rooted n' hI.mem h0 h0 hnone)

theorem deactivate_inv (h : Inv s L) (hn : n ∈ L) (sent : BitVec 32) (hL : L.length ≤ s.live.length) :
    Inv (s.deactivate n sent) L ∧ (s.deactivate n sent).live = s.live ∧ (s.deactivate n sent).nodeCount = s.nodeCount := by
  obtain ⟨hupdating, hlive, hcount⟩ := idleUp_updating h hn hL
  obtain ⟨hinv, hlinks⟩ := update_inv hupdating sent (hlive.symm ▸ hL)
  rw [deactivate_eq]
  exact ⟨hinv, hlinks.live.trans hlive, hlinks.count.trans hcount⟩

end TrafficServer.Http2.DependencyTree
