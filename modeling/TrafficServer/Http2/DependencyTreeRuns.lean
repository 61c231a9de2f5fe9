/-
Runs of the dependency tree: searches, `reprioritize`, `add` and `top`.

A new parent that is below the node goes to the node's parent first, and the node then is not above it (`reprioritize_consistent`). A new node
hangs nowhere until it has taken the children it gets, like one that `_change_parent` moves (`newNode_loose`); its entry goes no further up than
its parent's queue because the parent was queued already (`attachTo_newNode`).

`dependency_tree`: in every tree of a connection the links form one tree with the root at its top, the count is that of the other nodes, a node
is queued exactly if its entry is in its parent's queue, and exactly if it is active or its own queue is not empty, and `top` has an active node
exactly if there is one.
-/
import TrafficServer.Http2.DependencyTreeRemove

namespace TrafficServer.Http2.DependencyTree

open TrafficServer.IndexedHeap TrafficServer.Forest

variable {T : Type} {s s' : Tree T} {L : List ℕ} {n p q m : ℕ}

/-! ## Searches -/

theorem findChildren_some {find : ℕ → ℕ → Option (ℕ × Bool)} {l : List ℕ} {depth : ℕ} {r : ℕ × Bool}
    (h : Tree.findChildren find l depth = some r) : ∃ x ∈ l, ∃ d, find x d = some r := by
  induction l generalizing depth with
  | nil => simp [Tree.findChildren] at h
  | cons x l ih =>
    rw [Tree.findChildren] at h
    cases hx : find x (depth + 1) with
    | some r' =>
      rw [hx] at h
      exact ⟨x, List.mem_cons_self, depth + 1, hx.trans h⟩
    | none =>
      rw [hx] at h
      obtain ⟨y, hy, d, hd⟩ := ih h
      exact ⟨y, List.mem_cons_of_mem x hy, d, hd⟩

/-- what is found is in the tree and has the stream that was searched -/
theorem findNode_some (hs : Inv s L) {id : BitVec 32} {fuel depth : ℕ} {b : Bool} (hn : n ∈ L)
    (h : s.findNode id fuel n depth = some (m, b)) : m ∈ L ∧ (s.node m).id = id := by
  induction fuel generalizing n depth with
  | zero => simp [Tree.findNode] at h
  | succ fuel ih =>
    rw [Tree.findNode] at h
    split_ifs at h with hid hnone
    · obtain ⟨rfl, -⟩ := Prod.mk.inj (Option.some.inj h)
      exact ⟨hn, hid⟩
    · obtain ⟨x, hx, d, hd⟩ := findChildren_some h
      exact ih ((hs.children.mem n hn x).mp hx).1 hd

theorem findShadow_some (hs : Inv s L) {id : BitVec 32} {b : Bool} (h : s.findShadow id = some (m, b)) : m ∈ L ∧ (s.node m).id = id :=
  findNode_some hs hs.parents.rootMem h

theorem findShadow_zero (hs : Inv s L) : ∃ b, s.findShadow 0 = some (root, b) := by
  refine ⟨decide (1 = s.maxDepth), ?_⟩
  rw [Tree.findShadow, Tree.findNode, if_pos hs.parents.rootId]

theorem find_findShadow {id : BitVec 32} (h : s.find id = some m) : ∃ b, s.findShadow id = some (m, b) := by
  unfold Tree.find at h
  cases hfind : s.findShadow id with
  | none => simp [hfind] at h
  | some r =>
    obtain ⟨x, b⟩ := r
    simp only [hfind] at h
    split_ifs at h
    exact ⟨b, by rw [Option.some.inj h]⟩

theorem find_some (hs : Inv s L) {id : BitVec 32} (h : s.find id = some m) : m ∈ L ∧ (s.node m).id = id := by
  obtain ⟨b, hfind⟩ := find_findShadow h
  exact findShadow_some hs hfind

theorem findAncestor_some (hs : Inv s L) {fuel : ℕ} {pid : BitVec 32} (h : s.findAncestor fuel pid = some (some m)) : m ∈ L := by
  induction fuel generalizing pid with
  | zero => simp [Tree.findAncestor] at h
  | succ fuel ih =>
    rw [Tree.findAncestor] at h
    by_cases h0 : s.wasAncestor pid = 0
    · simp [h0] at h
    · rw [if_neg h0] at h
      cases hfind : s.find (s.wasAncestor pid) with
      | some x =>
        rw [hfind] at h
        obtain rfl := Option.some.inj (Option.some.inj h)
        exact (find_some hs hfind).1
      | none =>
        rw [hfind] at h
        exact ih h

theorem inParentChain_iff (hs : Parents s L) {fuel : ℕ} (hm : m ∈ L) (hfuel : height s.up L m ≤ fuel) :
    s.inParentChain n fuel m = true ↔ ∃ q, (s.node m).parent = some q ∧ Above s.up n q := by
  induction fuel generalizing m with
  | zero =>
    have hpos : 0 < height s.up L m := height_pos hm
    omega
  | succ fuel ih =>
    rw [Tree.inParentChain]
    cases hq : (s.node m).parent with
    | none => simp
    | some q =>
      have hless : height s.up L q < height s.up L m := height_parent hs.grounded hm hq
      simp only [Option.some.injEq, exists_eq_left']
      split_ifs with hnq
      · exact iff_of_true rfl (hnq ▸ Above.refl n)
      · rw [ih (hs.closed m hm q hq) (by omega)]
        refine ⟨fun ⟨r, hr, habove⟩ => Above.of_parent hr habove, fun habove => ?_⟩
        exact (above_cases habove).resolve_left hnq

/-! ## `reprioritize` -/

theorem changeParent_consistent (h : Consistent s) (hn : n ∈ s.live) (hp : (s.node n).parent = some p) (hq : q ∈ s.live)
    (hoff : ¬ Above s.up n q) (exclusive : Bool) :
    Consistent (s.changeParent n q exclusive) ∧ Kept s (s.changeParent n q exclusive) ∧
      ∀ x, ((s.changeParent n q exclusive).node x).parent =
        if x = n then some q else if exclusive = true ∧ x ∈ (s.node q).children then some n else (s.node x).parent := by
  obtain ⟨hinv, hkept, hparent⟩ := changeParent_inv h.inv hn hp hq hoff exclusive le_rfl
  refine ⟨⟨?_, ?_⟩, hkept, hparent⟩
  · rw [hkept.live]
    exact hinv
  · rw [hkept.count, hkept.live]
    exact h.count

/-- a new parent that is below the node gets the node's parent -/
def liftParent (s : Tree T) (n p m : ℕ) (newParentId : BitVec 32) : Tree T :=
  if newParentId ≠ 0 ∧ s.inParentChain n s.live.length m then s.changeParent m p false else s

/-- and then the node is not above it -/
theorem liftParent_spec (h : Consistent s) (hn : n ∈ s.live) (hp : (s.node n).parent = some p) {newParentId : BitVec 32}
    (hm : s.find newParentId = some m) (hne : m ≠ n) :
    let s' := liftParent s n p m newParentId
    Consistent s' ∧ Kept s s' ∧ ((Above s.up n m → (s'.node m).parent = some p) ∧
      ∀ x, (x = m → ¬ Above s.up n m) → (s'.node x).parent = (s.node x).parent) ∧ ¬ Above s'.up n m := by
  obtain ⟨hmL, hid⟩ := find_some h.inv hm
  have hgrounded := h.inv.parents.grounded
  have hchain := inParentChain_iff (n := n) h.inv.parents hmL (height_le_live le_rfl m)
  dsimp only
  unfold liftParent
  by_cases hcond : newParentId ≠ 0 ∧ s.inParentChain n s.live.length m
  · rw [if_pos hcond]
    obtain ⟨q, hq, hnq⟩ := hchain.mp hcond.2
    have hoff : ¬ Above s.up m p := fun hc => hgrounded.not_above hq (hnq.trans (Above.of_parent hp hc))
    obtain ⟨hcons, hkept, hparent⟩ := changeParent_consistent h hmL hq (h.inv.parents.closed n hn p hp) hoff false
    have hlifted : ∀ x, ((s.changeParent m p false).node x).parent = if x = m then some p else (s.node x).parent := by
      intro x
      rw [hparent, if_neg (c := false = true ∧ _) fun hc => Bool.false_ne_true hc.1]
    have hup : (s.changeParent m p false).up = Function.update s.up m (some p) := by
      funext x
      rw [Function.update_apply]
      exact hlifted x
    refine ⟨hcons, hkept, ⟨fun _ => ?_, fun x hx => ?_⟩, fun hc => ?_⟩
    · rw [hlifted, if_pos rfl]
    · rw [hlifted, if_neg fun hxm => hx hxm (Above.of_parent hq hnq)]
    · obtain ⟨r, hr, hc⟩ := (above_cases hc).resolve_left (Ne.symm hne)
      rw [hup, Function.update_self] at hr
      rw [hup, ← Option.some.inj hr, above_update (some p) hoff] at hc
      exact hgrounded.not_above hp hc
  · have hoff : ¬ Above s.up n m := by
      intro hc
      obtain ⟨q, hq, hnq⟩ := (above_cases hc).resolve_left (Ne.symm hne)
      by_cases h0 : newParentId = 0
      · -- the root has no parent
        obtain ⟨b, hroot⟩ := findShadow_zero h.inv
        obtain ⟨b', hfind⟩ := find_findShadow hm
        rw [h0, hroot] at hfind
        obtain ⟨rfl, -⟩ := Prod.mk.inj (Option.some.inj hfind)
        exact Option.some_ne_none q (hq.symm.trans h.inv.parents.rootParent)
      · exact hcond ⟨h0, hchain.mpr ⟨q, hq, hnq⟩⟩
    rw [if_neg hcond]
    exact ⟨h, Kept.refl s, ⟨fun hc => absurd hc hoff, fun _ _ => rfl⟩, hoff⟩

/-- the node below its new parent -/
def moveBelow (s : Tree T) (n p m : ℕ) (newParentId : BitVec 32) (exclusive : Bool) : Tree T :=
  (liftParent s n p m newParentId).changeParent n m exclusive

/-- a node that is not one of a stream and has no children left goes -/
def dropShadow (s : Tree T) (n : ℕ) : Tree T × Option ℕ :=
  if (s.node n).shadow ∧ (s.node n).children = [] ∧ (s.node n).queue = [] then (s.remove n, none) else (s, some n)

theorem moveBelow_consistent (h : Consistent s) (hn : n ∈ s.live) (hp : (s.node n).parent = some p) {newParentId : BitVec 32}
    (hm : s.find newParentId = some m) (hne : m ≠ n) (exclusive : Bool) :
    Consistent (moveBelow s n p m newParentId exclusive) ∧ n ∈ (moveBelow s n p m newParentId exclusive).live := by
  obtain ⟨hmL, -⟩ := find_some h.inv hm
  obtain ⟨hlifted, hkept, hparent, hoff⟩ := liftParent_spec h hn hp hm hne
  have hp' : ((liftParent s n p m newParentId).node n).parent = some p :=
    (hparent.2 n fun hnm => absurd hnm.symm hne).trans hp
  obtain ⟨hcons, hkept', -⟩ := changeParent_consistent hlifted (hkept.live.symm ▸ hn) hp' (hkept.live.symm ▸ hmL) hoff exclusive
  refine ⟨hcons, ?_⟩
  rw [moveBelow, hkept'.live, hkept.live]
  exact hn

theorem reprioritize_moves {newParentId : BitVec 32} (exclusive : Bool) (hp : (s.node n).parent = some p)
    (hpid : (s.node p).id ≠ newParentId) (hm : s.find newParentId = some m) :
    s.reprioritize n newParentId exclusive = dropShadow (moveBelow s n p m newParentId exclusive) n := by
  unfold Tree.reprioritize
  rw [hp]
  dsimp only
  rw [if_neg hpid, hm]
  rfl

/-- what `reprioritize` comes to: nothing, or the node is moved -/
theorem reprioritize_cases (s : Tree T) (n : ℕ) (newParentId : BitVec 32) (exclusive : Bool) :
    s.reprioritize n newParentId exclusive = (s, some n) ∨
    ∃ p m, (s.node n).parent = some p ∧ s.find newParentId = some m ∧
      s.reprioritize n newParentId exclusive = dropShadow (moveBelow s n p m newParentId exclusive) n := by
  cases hp : (s.node n).parent with
  | none =>
    unfold Tree.reprioritize
    rw [hp]
    exact Or.inl rfl
  | some p =>
    by_cases hpid : (s.node p).id = newParentId
    · unfold Tree.reprioritize
      rw [hp]
      exact Or.inl (if_pos hpid)
    · cases hm : s.find newParentId with
      | none =>
        unfold Tree.reprioritize
        rw [hp, hm]
        exact Or.inl (if_neg hpid)
      | some m => exact Or.inr ⟨p, m, rfl, rfl, reprioritize_moves exclusive hp hpid hm⟩

theorem reprioritize_consistent (h : Consistent s) (hn : n ∈ s.live) {newParentId : BitVec 32} (hid : newParentId ≠ (s.node n).id)
    (exclusive : Bool) : Consistent (s.reprioritize n newParentId exclusive).1 ∧
      ∀ x, (s.reprioritize n newParentId exclusive).2 = some x → x ∈ (s.reprioritize n newParentId exclusive).1.live := by
  rcases reprioritize_cases s n newParentId exclusive with heq | ⟨p, m, hp, hm, heq⟩
  · rw [heq]
    exact ⟨h, fun x hx => Option.some.inj hx ▸ hn⟩
  · have hne : m ≠ n := fun hmn => hid (hmn ▸ (find_some h.inv hm).2).symm
    obtain ⟨hcons, hlive⟩ := moveBelow_consistent h hn hp hm hne exclusive
    rw [heq]
    unfold dropShadow
    split_ifs
    · exact ⟨remove_consistent hcons hlive, fun x hx => by simp at hx⟩
    · exact ⟨hcons, fun x hx => Option.some.inj hx ▸ hlive⟩

theorem reprioritizeId_consistent (h : Consistent s) {id newParentId : BitVec 32} (hid : newParentId ≠ id) (exclusive : Bool) :
    Consistent (s.reprioritizeId id newParentId exclusive).1 := by
  unfold Tree.reprioritizeId
  cases hfind : s.find id with
  | none => exact h
  | some n =>
    obtain ⟨hn, hnid⟩ := find_some h.inv hfind
    exact (reprioritize_consistent h hn (hnid.symm ▸ hid) exclusive).1

/-! ## `add` -/

/-- a new node, which is in no list of children yet -/
def withNode (s : Tree T) (q : ℕ) (id weight : BitVec 32) (t : Option T) : Tree T :=
  { s with node := Function.update s.node s.next (Node.new id weight id (some q) t), next := s.next + 1, live := s.next :: s.live }

theorem Parents.above_mem (hs : Parents s L) {a : ℕ} (hn : n ∈ L) (h : Above s.up a n) : a ∈ L := by
  induction h with
  | refl => exact hn
  | tail _ hp ih => exact hs.closed _ ih _ hp

theorem newNode_loose (hs : Inv s L) (hn : n ∉ L) (hfresh : n < s.next) (hq : q ∈ L) (hparent : (s.node n).parent = some q)
    (hchildren : (s.node n).children = []) (hqueue : (s.node n).queue = []) (hidle : (s.node n).queued = false) :
    Loose (n :: L) n q s := by
  have hroot : ∀ {x y : ℕ}, (s.node y).parent = some x → y ≠ root := fun hy h0 => by simp [h0, hs.parents.rootParent] at hy
  have hnone : ∀ y ∈ L, (s.node y).parent ≠ some n := fun y hy hc => hn (hs.parents.closed y hy n hc)
  have hne : ∀ y ∈ L, y ≠ n := fun y hy => ne_of_mem_of_not_mem hy hn
  have hbusy : ∀ x, Busy s (n :: L) x ↔ Busy s L x := fun x => or_congr_right
    ⟨fun ⟨y, hy, hyx, hyq⟩ => ⟨y, (List.mem_cons.mp hy).resolve_left fun heq => by simp [heq, hidle] at hyq, hyx, hyq⟩,
      fun ⟨y, hy, hyx, hyq⟩ => ⟨y, List.mem_cons_of_mem n hy, hyx, hyq⟩⟩
  refine ⟨⟨List.nodup_cons.mpr ⟨hn, hs.parents.nodup⟩, List.mem_cons_of_mem n hs.parents.rootMem, hs.parents.rootParent, hs.parents.rootId,
      hs.parents.rootShadow, fun x hx => ?_, fun x hx p hp => ?_, hs.parents.grounded⟩, fun x hx h0 hxn => ?_,
    ⟨fun p hp c => ?_, fun p hp => ?_⟩, ⟨⟨fun p hp => ?_, fun p hp r hr x hxp hxr => ?_⟩, fun p hp x => ?_⟩, List.mem_cons_self,
    Ne.symm (hne root hs.parents.rootMem), List.mem_cons_of_mem n hq, fun hc => hn (hs.parents.above_mem hq hc), hidle,
    fun x hx h0 hout => ?_, fun hq0 => ?_⟩
  · rcases List.mem_cons.mp hx with rfl | hx
    · exact hfresh
    · exact hs.parents.fresh x hx
  · rcases List.mem_cons.mp hx with rfl | hx
    · exact List.mem_cons_of_mem x (Option.some.inj (hparent.symm.trans hp) ▸ hq)
    · exact List.mem_cons_of_mem n (hs.parents.closed x hx p hp)
  · exact hs.rooted x ((List.mem_cons.mp hx).resolve_left hxn) h0 h0
  · rcases List.mem_cons.mp hp with rfl | hp
    · rw [hchildren]
      refine iff_of_false List.not_mem_nil fun hc => ?_
      exact hnone c ((List.mem_cons.mp hc.1).resolve_left hc.2.1) hc.2.2
    · rw [hs.children.mem p hp c]
      exact ⟨fun hc => ⟨List.mem_cons_of_mem n hc.1, hne c hc.1, hc.2.2⟩,
        fun hc => ⟨(List.mem_cons.mp hc.1).resolve_left hc.2.1, hroot hc.2.2, hc.2.2⟩⟩
  · rcases List.mem_cons.mp hp with rfl | hp
    · rw [hchildren]
      exact List.nodup_nil
    · exact hs.children.nodup p hp
  · rcases List.mem_cons.mp hp with rfl | hp
    · intro i x hx
      have hx' : (s.node p).queue[i]? = some x := hx
      simp [hqueue] at hx'
    · exact hs.queues.heaps.indexed p hp
  · have hmem : ∀ y ∈ n :: L, x ∈ (s.node y).queue → y ∈ L := fun y hy hxy => (List.mem_cons.mp hy).resolve_left fun heq => by
      rw [heq, hqueue] at hxy
      exact List.not_mem_nil hxy
    exact hs.queues.heaps.disjoint p (hmem p hp hxp) r (hmem r hr hxr) x hxp hxr
  · rcases List.mem_cons.mp hp with rfl | hp
    · rw [hqueue]
      refine iff_of_false List.not_mem_nil fun hc => ?_
      rcases List.mem_cons.mp hc.1 with rfl | hx
      · exact Bool.false_ne_true (hidle.symm.trans hc.2.2)
      · exact hnone x hx hc.2.1
    · rw [hs.queues.mem p hp x]
      refine and_congr_left fun hc => ⟨List.mem_cons_of_mem n, fun hx => (List.mem_cons.mp hx).resolve_left fun heq => ?_⟩
      rw [heq, hidle] at hc
      exact Bool.false_ne_true hc.2
  · obtain ⟨hxn, -⟩ := not_or.mp hout
    rw [hbusy]
    exact hs.settled x ((List.mem_cons.mp hx).resolve_left hxn) h0 id
  · have hsettled := hs.settled q hq hq0 id
    rw [hbusy, hbusy]
    exact ⟨hsettled.mpr, fun hc => Or.inl (hsettled.mp hc)⟩

theorem withNode_loose (hs : Inv s L) (hq : q ∈ L) (id weight : BitVec 32) (t : Option T) :
    Loose (s.next :: L) s.next q (withNode s q id weight t) := by
  have hn : s.next ∉ L := fun hc => Nat.lt_irrefl s.next (hs.parents.fresh s.next hc)
  have hnode : (withNode s q id weight t).node s.next = Node.new id weight id (some q) t := Function.update_self _ _ _
  have hup : (withNode s q id weight t).up = Function.update s.up s.next (some q) := by
    funext x
    rw [Function.update_apply]
    show (Function.update s.node s.next (Node.new id weight id (some q) t) x).parent = _
    rw [Function.update_apply]
    split_ifs <;> rfl
  have hgrounded : Grounded (withNode s q id weight t).up := by
    rw [hup]
    exact hs.parents.grounded.update fun r hr habove => hn (hs.parents.above_mem (Option.some.inj hr ▸ hq) habove)
  have hinv : Inv (withNode s q id weight t) L :=
    hs.of_nodes (fun x hx => Function.update_of_ne (ne_of_mem_of_not_mem hx hn) _ _) hgrounded (Nat.le_succ _)
  exact newNode_loose hinv hn (Nat.lt_succ_self _) hq (congrArg Node.parent hnode) (congrArg Node.children hnode) (congrArg Node.queue hnode)
    (congrArg Node.queued hnode)

theorem setParent_same {o : Option ℕ} (hp : (s.node n).parent = o) : s.setParent n o = s := by
  subst hp
  show { s with node := Function.update s.node n (s.node n) } = s
  rw [Function.update_eq_self]

/-- the entry of a new node with something to send goes into the queue of a parent that is queued: the loop up to the root stops there -/
theorem attachTo_newNode (h : Loose L n q s) (hp : (s.node n).parent = some q) (hactive : (s.node n).active = false)
    (hqueued : (s.node n).queue ≠ [] → q ≠ root → (s.node q).queued = true) (hrooted : (s.node root).parent = none)
    (hL : 2 ≤ s.live.length) :
    attachTo s q n = if ((s.childrenPush q n).node n).queue ≠ [] then (s.childrenPush q n).enqueue q n else s.childrenPush q n := by
  have hchange : LinkChange s (s.childrenPush q n) (fun x => (s.node x).parent)
      fun x => if x = q then n :: (s.node q).children else (s.node x).children := setChildren_change s q fun l => n :: l
  have hhang : hang s q n = s.childrenPush q n := setParent_same ((hchange.parent n).trans hp)
  have hidle : ¬ ((s.childrenPush q n).node n).active = true := by
    rw [show ((s.childrenPush q n).node n).active = false from (hchange.state.active n).trans hactive]
    exact Bool.false_ne_true
  unfold attachTo
  dsimp only
  rw [hhang]
  by_cases hqueue : ((s.childrenPush q n).node n).queue ≠ []
  · rw [if_pos (Or.inr hqueue), if_pos hqueue]
    obtain ⟨fuel, hfuel⟩ := Nat.exists_eq_add_of_le hL
    have hfuel' : (s.childrenPush q n).live.length = (fuel + 1) + 1 := hchange.state.live ▸ (hfuel.trans (Nat.add_comm 2 fuel))
    have hparent : ((s.childrenPush q n).node n).parent = some q := (hchange.parent n).trans hp
    have hn : ((s.childrenPush q n).node n).queued = false := (hchange.state.queued n).trans h.idle
    have hne : q ≠ n := fun heq => h.off (heq ▸ Above.refl q)
    rw [Tree.queueUp, hfuel', Tree.climb, hparent]
    dsimp only
    rw [hn, if_pos (by rfl), Tree.climb]
    have hlinks := enqueue_sameLinks (s.childrenPush q n) q n
    cases hr : (((s.childrenPush q n).enqueue q n).node q).parent with
    | none => rfl
    | some r =>
      have hq0 : q ≠ root := fun h0 => by
        rw [hlinks.parent, hchange.parent, h0, hrooted] at hr
        exact Option.some_ne_none r hr.symm
      have hq : (((s.childrenPush q n).enqueue q n).node q).queued = true := by
        rw [enqueue_queued, if_neg hne, hchange.state.queued]
        exact hqueued (by rwa [← hchange.entries.queue n]) hq0
      dsimp only
      rw [hq, if_neg (by simp)]
  · rw [if_neg fun hc => hc.elim hidle hqueue, if_neg hqueue]

/-- `addBelow` puts a new node under its parent as `_change_parent` puts one that it moves -/
theorem addBelow_eq (hs : Inv s L) (hq : q ∈ L) (hL : L.length ≤ s.live.length) (id weight : BitVec 32) (exclusive : Bool) (t : Option T)
    (shadow : Bool) : ∃ s₁ : Tree T, Loose (s.next :: L) s.next q s₁ ∧ SameState (withNode s q id weight t) s₁ ∧
      s.addBelow q id weight exclusive t shadow =
        ({ (attachTo s₁ q s.next).modify s.next fun x => { x with shadow := shadow } with
            nodeCount := (attachTo s₁ q s.next).nodeCount + 1 }, some s.next) := by
  have hloose := withNode_loose hs hq id weight t
  have hnode : (withNode s q id weight t).node s.next = Node.new id weight id (some q) t := Function.update_self _ _ _
  have hparent : ((withNode s q id weight t).node s.next).parent = some q := congrArg Node.parent hnode
  have hactive : ((withNode s q id weight t).node s.next).active = false := congrArg Node.active hnode
  have hlive : 2 ≤ (withNode s q id weight t).live.length :=
    Nat.succ_le_succ ((List.length_pos_of_mem hs.parents.rootMem).trans_le hL)
  have hadd : ∀ s₁ : Tree T, s₁ = (if exclusive then
        Tree.moveChildren q s.next ((withNode s q id weight t).node q).children.length (withNode s q id weight t) else withNode s q id weight t) →
      attachTo s₁ q s.next = (if ((s₁.childrenPush q s.next).node s.next).queue ≠ [] then (s₁.childrenPush q s.next).enqueue q s.next
        else s₁.childrenPush q s.next) →
      s.addBelow q id weight exclusive t shadow =
        ({ (attachTo s₁ q s.next).modify s.next fun x => { x with shadow := shadow } with
            nodeCount := (attachTo s₁ q s.next).nodeCount + 1 }, some s.next) := by
    intro s₁ hs₁ hattach
    rw [hattach, hs₁]
    rfl
  cases exclusive with
  | false =>
    refine ⟨withNode s q id weight t, hloose, SameState.refl _, hadd _ rfl (attachTo_newNode hloose hparent hactive (fun hqueue => ?_)
      hloose.parents.rootParent hlive)⟩
    exact absurd (congrArg Node.queue hnode) hqueue
  | true =>
    obtain ⟨hloose', hmoved⟩ := hloose.moveChildren fun r hr => (Option.some.inj (hparent.symm.trans hr)).symm
    have hne : s.next ∉ ((withNode s q id weight t).node q).children := fun hc => ((hloose.children.mem q hloose.parent _).mp hc).2.1 rfl
    refine ⟨_, hloose', hmoved.state, hadd _ rfl (attachTo_newNode hloose' ?_ ((hmoved.state.active _).trans hactive) (fun hqueue hq0 => ?_)
      hloose'.parents.rootParent (hmoved.state.live.symm ▸ hlive))⟩
    · rw [hmoved.parent, if_neg hne]
      exact hparent
    · -- what is queued below the new node was queued below its parent
      have hbusy := (hloose'.queues.busy_iff hloose'.mem).mpr (Or.inr hqueue)
      rw [hmoved.state.queued]
      rcases hbusy with ha | ⟨y, hy, hyn, hyq⟩
      · rw [hmoved.state.active, hactive] at ha
        exact absurd ha Bool.false_ne_true
      · rw [hmoved.state.queued] at hyq
        refine (hloose.above hq0).1 (Or.inr ⟨y, hy, ?_, hyq⟩)
        rw [hmoved.parent] at hyn
        split_ifs at hyn with hchild
        · exact ((hloose.children.mem q hloose.parent y).mp hchild).2.2
        · have hself : y ≠ s.next := fun heq => by
            rw [heq, hloose.idle] at hyq
            exact Bool.false_ne_true hyq
          have hyL : y ∈ L := (List.mem_cons.mp hy).resolve_left hself
          have hold : (withNode s q id weight t).node y = s.node y := Function.update_of_ne hself _ _
          rw [hold] at hyn
          exact absurd (hs.parents.closed y hyL _ hyn) fun hc => Nat.lt_irrefl s.next (hs.parents.fresh s.next hc)

theorem addBelow_consistent (h : Consistent s) (hq : q ∈ s.live) (id weight : BitVec 32) (exclusive : Bool) (t : Option T) (shadow : Bool) :
    Consistent (s.addBelow q id weight exclusive t shadow).1 ∧
      ∀ x, (s.addBelow q id weight exclusive t shadow).2 = some x → x ∈ (s.addBelow q id weight exclusive t shadow).1.live := by
  obtain ⟨s₁, hloose, hstate, heq⟩ := addBelow_eq h.inv hq le_rfl id weight exclusive t shadow
  have hlive : s₁.live = s.next :: s.live := hstate.live
  obtain ⟨hinv, hhung⟩ := attachTo_inv hloose (hlive.symm ▸ le_rfl)
  have hinv' : Inv ((attachTo s₁ q s.next).modify s.next fun x => { x with shadow := shadow }) (s.next :: s.live) :=
    modify_inv (f := fun x => { x with shadow := shadow }) hinv (fun _ => ⟨rfl, rfl, rfl, rfl, rfl, rfl, rfl⟩) hloose.ne_root
  have hlive' : (attachTo s₁ q s.next).live = s.next :: s.live := hhung.live.trans hlive
  rw [heq]
  refine ⟨⟨?_, ?_⟩, fun x hx => ?_⟩
  · show Inv _ (attachTo s₁ q s.next).live
    rw [hlive']
    exact hinv'.of_nodes (fun _ _ => rfl) hinv'.parents.grounded le_rfl
  · show (attachTo s₁ q s.next).nodeCount + 1 + 1 = (attachTo s₁ q s.next).live.length
    rw [hlive', hhung.count, hstate.count, List.length_cons]
    exact congrArg (· + 1) h.count
  · show x ∈ (attachTo s₁ q s.next).live
    rw [hlive', ← Option.some.inj hx]
    exact List.mem_cons_self

/-- a node that there is now and that is still there after a call -/
def Gives (r : Tree T × Option ℕ) : Prop := Consistent r.1 ∧ ∀ n, r.2 = some n → n ∈ r.1.live

theorem searchAncestor_some (hs : Inv s L) {fuel : ℕ} {parentId id weight weight' : BitVec 32} {exclusive exclusive' : Bool}
    (h : s.searchAncestor fuel parentId id weight exclusive = some (some m, weight', exclusive')) : m ∈ L := by
  unfold Tree.searchAncestor at h
  split_ifs at h
  · cases hfind : s.findAncestor fuel parentId with
    | none => simp [hfind] at h
    | some r =>
      rw [hfind] at h
      cases r with
      | none =>
        obtain ⟨hroot, -⟩ := Prod.mk.inj (Option.some.inj h)
        exact Option.some.inj hroot ▸ hs.parents.rootMem
      | some x =>
        obtain ⟨hx, -⟩ := Prod.mk.inj (Option.some.inj h)
        exact Option.some.inj hx ▸ findAncestor_some hs hfind
  · simp at h

/-- a shadow node becomes one of a stream -/
theorem vivify_consistent (h : Consistent s) (hshadow : (s.node n).shadow = true) (t : Option T) (point weight : BitVec 32) :
    Consistent (s.modify n fun x => { x with t := t, point := point, weight := weight, shadow := false }) := by
  have hn0 : n ≠ root := fun h0 => by simp [h0, h.inv.parents.rootShadow] at hshadow
  refine ⟨?_, h.count⟩
  exact modify_inv (f := fun x => { x with t := t, point := point, weight := weight, shadow := false }) h.inv
    (fun _ => ⟨rfl, rfl, rfl, rfl, rfl, rfl, rfl⟩) hn0

/-- `add` of a stream without a shadow node -/
def addNew (calls fuel : ℕ) (s : Tree T) (parentId id weight : BitVec 32) (exclusive : Bool) (t : Option T) (shadow : Bool) :
    Option (Tree T × Option ℕ) :=
  match s.findShadow parentId with
  | some (parent, isMaxLeaf) =>
    some (if isMaxLeaf then s.addBelow root id weight false t shadow else s.addBelow parent id weight exclusive t shadow)
  | none =>
    match s.searchAncestor fuel parentId id weight exclusive with
    | none => none
    | some (parent, weight, exclusive) =>
      match if parent = some root then none else parent with
      | some parent => some (s.addBelow parent id weight exclusive t shadow)
      | none =>
        match s.add calls fuel 0 parentId HTTP2_PRIORITY_DEFAULT_WEIGHT false none true with
        | some (s, some parent) => some (s.addBelow parent id weight false t shadow)
        | _ => none

theorem add_succ (calls fuel : ℕ) (s : Tree T) (parentId id weight : BitVec 32) (exclusive : Bool) (t : Option T) (shadow : Bool) :
    s.add (calls + 1) fuel parentId id weight exclusive t shadow =
      match s.findShadow id with
      | some (n, _) =>
        if (s.node n).shadow then
          some ((s.modify n fun x => { x with t := t, point := id, weight := weight, shadow := false }).reprioritize n parentId exclusive)
        else addNew calls fuel s parentId id weight exclusive t shadow
      | none => addNew calls fuel s parentId id weight exclusive t shadow := by
  rw [Tree.add]
  rfl

/-- the tree in which a new node gets its parent: as it was, or with a shadow node for the parent -/
inductive WithParent (s : Tree T) (parentId : BitVec 32) : Tree T → Prop
  | asIs : WithParent s parentId s
  | shadow (h : s.findShadow parentId = none) :
    WithParent s parentId (s.addBelow root parentId HTTP2_PRIORITY_DEFAULT_WEIGHT false none true).1

/-- the root is found with any number of steps, and a shadow node goes below it -/
theorem addNew_zero (hs : Inv s L) (calls fuel : ℕ) (id weight : BitVec 32) (t : Option T) (shadow : Bool) :
    addNew calls fuel s 0 id weight false t shadow = some (s.addBelow root id weight false t shadow) := by
  obtain ⟨b, hroot⟩ := findShadow_zero hs
  rw [addNew, hroot]
  dsimp only
  rw [ite_self]

theorem addNew_cases {calls fuel : ℕ} {parentId id weight : BitVec 32} {exclusive shadow : Bool} {t : Option T} {r : Tree T × Option ℕ}
    (h : Consistent s) (hnew : addNew calls fuel s parentId id weight exclusive t shadow = some r) :
    ∃ s₁ q weight' exclusive', WithParent s parentId s₁ ∧ q ∈ s₁.live ∧ r = s₁.addBelow q id weight' exclusive' t shadow := by
  unfold addNew at hnew
  cases hfind : s.findShadow parentId with
  | some found =>
    obtain ⟨parent, isMaxLeaf⟩ := found
    rw [hfind] at hnew
    have hr := Option.some.inj hnew
    cases isMaxLeaf with
    | true => exact ⟨s, root, weight, false, .asIs, h.inv.parents.rootMem, hr.symm⟩
    | false => exact ⟨s, parent, weight, exclusive, .asIs, (findShadow_some h.inv hfind).1, hr.symm⟩
  | none =>
    rw [hfind] at hnew
    dsimp only at hnew
    cases hsearch : s.searchAncestor fuel parentId id weight exclusive with
    | none => simp [hsearch] at hnew
    | some found =>
      obtain ⟨parent, weight', exclusive'⟩ := found
      rw [hsearch] at hnew
      dsimp only at hnew
      cases hparent : (if parent = some root then none else parent) with
      | some x =>
        rw [hparent] at hnew
        split_ifs at hparent
        exact ⟨s, x, weight', exclusive', .asIs, searchAncestor_some h.inv (hparent ▸ hsearch), (Option.some.inj hnew).symm⟩
      | none =>
        rw [hparent] at hnew
        dsimp only at hnew
        cases calls with
        | zero => simp [Tree.add] at hnew
        | succ calls =>
          rw [add_succ, hfind] at hnew
          dsimp only at hnew
          rw [addNew_zero h.inv] at hnew
          exact ⟨_, s.next, weight', false, .shadow hfind,
            (addBelow_consistent h h.inv.parents.rootMem _ _ _ _ _).2 s.next rfl, (Option.some.inj hnew).symm⟩

/-- what `add` comes to: a shadow node that becomes one of a stream, or a new node -/
theorem add_cases {calls fuel : ℕ} {parentId id weight : BitVec 32} {exclusive shadow : Bool} {t : Option T} {r : Tree T × Option ℕ}
    (h : Consistent s) (hadd : s.add calls fuel parentId id weight exclusive t shadow = some r) :
    (∃ n b, s.findShadow id = some (n, b) ∧ (s.node n).shadow = true ∧
      r = (s.modify n fun x => { x with t := t, point := id, weight := weight, shadow := false }).reprioritize n parentId exclusive) ∨
    (∀ n b, s.findShadow id = some (n, b) → (s.node n).shadow = false) ∧
      ∃ s₁ q weight' exclusive', WithParent s parentId s₁ ∧ q ∈ s₁.live ∧ r = s₁.addBelow q id weight' exclusive' t shadow := by
  cases calls with
  | zero => simp [Tree.add] at hadd
  | succ calls =>
    rw [add_succ] at hadd
    cases hfind : s.findShadow id with
    | none =>
      rw [hfind] at hadd
      exact Or.inr ⟨nofun, addNew_cases h hadd⟩
    | some found =>
      obtain ⟨n, b⟩ := found
      rw [hfind] at hadd
      dsimp only at hadd
      by_cases hshadow : (s.node n).shadow = true
      · rw [if_pos hshadow] at hadd
        exact Or.inl ⟨n, b, rfl, hshadow, (Option.some.inj hadd).symm⟩
      · rw [if_neg hshadow] at hadd
        refine Or.inr ⟨fun n' b' heq => ?_, addNew_cases h hadd⟩
        obtain ⟨rfl, -⟩ := Prod.mk.inj (Option.some.inj heq)
        exact Bool.eq_false_of_not_eq_true hshadow

theorem WithParent.consistent {parentId : BitVec 32} (h : Consistent s) (hs : WithParent s parentId s') : Consistent s' := by
  cases hs with
  | asIs => exact h
  | shadow _ => exact (addBelow_consistent h h.inv.parents.rootMem _ _ _ _ _).1

theorem add_gives {calls fuel : ℕ} {parentId id weight : BitVec 32} {exclusive shadow : Bool} {t : Option T} {r : Tree T × Option ℕ}
    (h : Consistent s) (hne : parentId ≠ id) (hadd : s.add calls fuel parentId id weight exclusive t shadow = some r) : Gives r := by
  rcases add_cases h hadd with ⟨n, b, hfind, hshadow, rfl⟩ | ⟨-, s₁, q, weight', exclusive', hparent, hq, rfl⟩
  · obtain ⟨hn, hid⟩ := findShadow_some h.inv hfind
    refine reprioritize_consistent (vivify_consistent h hshadow t id weight) hn ?_ exclusive
    rw [modify_node, if_pos rfl]
    exact hid.symm ▸ hne
  · exact addBelow_consistent (hparent.consistent h) hq id weight' exclusive' t shadow

/-! ## Runs -/

theorem init_consistent (maxConcurrentStreams : ℕ) : Consistent (Tree.init T maxConcurrentStreams) := by
  have hroot : ∀ x ∈ (Tree.init T maxConcurrentStreams).live, x = root := fun x hx => List.mem_singleton.mp hx
  have hparent : ∀ x p, ((Tree.init T maxConcurrentStreams).node x).parent ≠ some p := fun x p hp => (Option.some_ne_none p hp.symm).elim
  have hempty : ∀ p x, x ∉ ((Tree.init T maxConcurrentStreams).node p).queue := fun p x => List.not_mem_nil
  have hparents : Parents (Tree.init T maxConcurrentStreams) (Tree.init T maxConcurrentStreams).live :=
    ⟨List.nodup_singleton root, List.mem_singleton_self root, rfl, rfl, rfl, fun x hx => hroot x hx ▸ Nat.one_pos,
      fun x _ p hp => absurd hp (hparent x p), ⟨fun x => Acc.intro x fun p hp => absurd hp (hparent x p)⟩⟩
  refine ⟨⟨hparents, fun x hx h0 => absurd (hroot x hx) h0, ⟨fun p _ c => ?_, fun p _ => List.nodup_nil⟩,
    ⟨⟨fun p _ i x hx => ?_, fun p _ q _ x hx => absurd hx (hempty p x)⟩, fun p _ x => ?_⟩, fun x hx h0 => absurd (hroot x hx) h0⟩, rfl⟩
  · exact iff_of_false List.not_mem_nil fun hc => hparent c p hc.2.2
  · exact absurd (List.mem_of_getElem? hx) (hempty p x)
  · exact iff_of_false (hempty p x) fun hc => hparent x p hc.2.1

theorem step_consistent {op : Op T} (h : Consistent s) (hop : Allowed s op) (hs : Returns s op s') : Consistent s' := by
  have hlive : ∀ {s' : Tree T}, Inv s' s.live ∧ s'.live = s.live ∧ s'.nodeCount = s.nodeCount → Consistent s' :=
    fun {s'} ⟨hinv, hlive, hcount⟩ => ⟨by rw [hlive]; exact hinv, by rw [hcount, hlive]; exact h.count⟩
  cases op with
  | add parentId id weight exclusive t =>
    obtain ⟨calls, fuel, n, hadd⟩ := hs
    exact (add_gives h hop hadd).1
  | remove n =>
    subst hs
    exact remove_consistent h hop.1.1
  | reprioritize n newParentId exclusive =>
    subst hs
    exact (reprioritize_consistent h hop.1.1 hop.2 exclusive).1
  | reprioritizeId id newParentId exclusive =>
    subst hs
    exact reprioritizeId_consistent h hop.2 exclusive
  | activate n =>
    subst hs
    exact hlive (activate_inv h.inv hop.1 le_rfl)
  | deactivate n sent =>
    subst hs
    exact hlive (deactivate_inv h.inv hop.1 sent le_rfl)
  | update n sent =>
    subst hs
    obtain ⟨⟨hn, hn0⟩, hactive⟩ := hop
    have hupdating : Updating s.live s n := ⟨h.inv, hn, fun _ => (h.inv.settled n hn hn0 id).mpr (Or.inl hactive)⟩
    obtain ⟨hinv, hlinks⟩ := update_inv hupdating sent le_rfl
    exact hlive ⟨hinv, hlinks.live, hlinks.count⟩

/-- the trees of a connection whose calls all meet a condition on the tree before them -/
inductive ReachableBy (P : Tree T → Op T → Prop) : Tree T → Prop where
  | init (maxConcurrentStreams : ℕ) : ReachableBy P (Tree.init T maxConcurrentStreams)
  | step {s s' : Tree T} {op : Op T} (h : ReachableBy P s) (hop : Allowed s op) (hP : P s op) (hs : Returns s op s') : ReachableBy P s'

theorem ReachableBy.reachable {P : Tree T → Op T → Prop} (h : ReachableBy P s) : Reachable T s := by
  induction h with
  | init maxConcurrentStreams => exact .init maxConcurrentStreams
  | step _ hop _ hs ih => exact ih.step hop hs

theorem run_consistent (h : Reachable T s) : Consistent s := by
  induction h with
  | init maxConcurrentStreams => exact init_consistent maxConcurrentStreams
  | step _ hop hs ih => exact step_consistent ih hop hs

/-! ## `top` -/

/-- the root is above all nodes -/
theorem Inv.root_above (hs : Inv s L) (hn : n ∈ L) : Above s.up root n := by
  induction n using hs.parents.grounded.induction with
  | _ n ih =>
    by_cases hn0 : n = root
    · rw [hn0]
      exact Above.refl root
    · cases hp : (s.node n).parent with
      | none => exact absurd hp (hs.rooted n hn hn0 hn0)
      | some p => exact Above.of_parent hp (ih p hp (hs.parents.closed n hn p hp))

/-- a busy node makes those above it busy -/
theorem Inv.root_busy (hs : Inv s L) (hn : n ∈ L) (hb : Busy s L n) : Busy s L root := by
  induction n using hs.parents.grounded.induction with
  | _ n ih =>
    by_cases hn0 : n = root
    · exact hn0 ▸ hb
    · cases hp : (s.node n).parent with
      | none => exact absurd hp (hs.rooted n hn hn0 hn0)
      | some p => exact ih p hp (hs.parents.closed n hn p hp) (Or.inr ⟨n, hn, hp, (hs.settled n hn hn0 id).mpr hb⟩)

theorem topLoop_active (hs : Inv s L) {fuel : ℕ} (hn : n ∈ L) (h : s.topLoop fuel n = some m) : m ∈ L ∧ (s.node m).active = true := by
  induction fuel generalizing n with
  | zero => simp [Tree.topLoop] at h
  | succ fuel ih =>
    rw [Tree.topLoop] at h
    split_ifs at h with hactive
    · exact Option.some.inj h ▸ ⟨hn, hactive⟩
    · cases hqueue : (s.node n).queue with
      | nil => simp [hqueue] at h
      | cons child rest =>
        rw [hqueue] at h
        exact ih ((hs.queues.mem n hn child).mp (hqueue ▸ List.mem_cons_self)).1 h

/-- the way down the queues ends at an active node: each step is away from the root, and below a busy node there is a busy one -/
theorem topLoop_busy (hs : Inv s L) {fuel : ℕ} (hn : n ∈ L) (hb : Busy s L n) (hfuel : L.length < fuel + height s.up L n) :
    ∃ m, s.topLoop fuel n = some m := by
  induction fuel generalizing n with
  | zero =>
    have hle : height s.up L n ≤ L.length := height_le L n
    omega
  | succ fuel ih =>
    rw [Tree.topLoop]
    by_cases hactive : (s.node n).active = true
    · exact ⟨n, if_pos hactive⟩
    · rw [if_neg hactive]
      cases hqueue : (s.node n).queue with
      | nil => exact absurd hqueue (((hs.queues.busy_iff hn).mp hb).resolve_left hactive)
      | cons child rest =>
        obtain ⟨hchild, hp, hqueued⟩ := (hs.queues.mem n hn child).mp (hqueue ▸ List.mem_cons_self)
        have hne : child ≠ root := fun h0 => by simp [h0, hs.parents.rootParent] at hp
        have hless : height s.up L n < height s.up L child := height_parent hs.parents.grounded hchild hp
        exact ih hchild ((hs.settled child hchild hne id).mp hqueued) (by omega)

theorem top_spec (h : Consistent s) :
    (∀ n, s.top = some n → n ∈ s.live ∧ (s.node n).active = true) ∧
      ((∃ n, s.top = some n) ↔ ∃ n ∈ s.live, (s.node n).active = true) := by
  have hroot := h.inv.parents.rootMem
  have hactive : ∀ n, s.top = some n → n ∈ s.live ∧ (s.node n).active = true := fun n hn => topLoop_active h.inv hroot hn
  refine ⟨hactive, fun ⟨n, hn⟩ => ⟨n, hactive n hn⟩, fun ⟨n, hn, ha⟩ => ?_⟩
  have hpos : 0 < height s.up s.live root := height_pos hroot
  exact topLoop_busy h.inv hroot (h.inv.root_busy hn (Or.inl ha)) (by omega)

/-! ## The tree of a connection -/

/-- the parents and the lists of children are one tree, with the root at its top -/
structure OneTree (s : Tree T) : Prop where
  root : root ∈ s.live ∧ (s.node root).parent = none
  parent : ∀ n ∈ s.live, n ≠ DependencyTree.root → ∃ p ∈ s.live, (s.node n).parent = some p
  children : ∀ p ∈ s.live, ∀ n, n ∈ (s.node p).children ↔ n ∈ s.live ∧ (s.node n).parent = some p
  once : ∀ p ∈ s.live, (s.node p).children.Nodup
  above : ∀ n ∈ s.live, Above s.up DependencyTree.root n

theorem Consistent.oneTree (h : Consistent s) : OneTree s where
  root := ⟨h.inv.parents.rootMem, h.inv.parents.rootParent⟩
  parent n hn hn0 := by
    cases hp : (s.node n).parent with
    | none => exact absurd hp (h.inv.rooted n hn hn0 hn0)
    | some p => exact ⟨p, h.inv.parents.closed n hn p hp, rfl⟩
  children p hp n := by
    rw [h.inv.children.mem p hp n]
    refine and_congr_right fun _ => and_iff_right_of_imp fun hn h0 => ?_
    rw [h0, h.inv.parents.rootParent] at hn
    exact Option.some_ne_none p hn.symm
  once := h.inv.children.nodup
  above _ hn := h.inv.root_above hn

/-- a node is queued if its entry is in its parent's queue, and if it has something to send or something queued below it -/
def QueuedRight (s : Tree T) (n : ℕ) : Prop :=
  ((s.node n).queued = true ↔ ∃ p, (s.node n).parent = some p ∧ n ∈ (s.node p).queue) ∧
    ((s.node n).queued = true ↔ (s.node n).active = true ∨ (s.node n).queue ≠ [])

theorem Consistent.queuedRight (h : Consistent s) (hn : n ∈ s.live) (hn0 : n ≠ root) : QueuedRight s n := by
  refine ⟨⟨fun hq => ?_, fun ⟨p, hp, hq⟩ => ?_⟩, ?_⟩
  · cases hp : (s.node n).parent with
    | none => exact absurd hp (h.inv.rooted n hn hn0 hn0)
    | some p => exact ⟨p, rfl, (h.inv.queues.mem p (h.inv.parents.closed n hn p hp) n).mpr ⟨hn, hp, hq⟩⟩
  · exact ((h.inv.queues.mem p (h.inv.parents.closed n hn p hp) n).mp hq).2.2
  · rw [← h.inv.queues.busy_iff hn]
    exact h.inv.settled n hn hn0 id

theorem Consistent.count_others (h : Consistent s) : s.nodeCount = (s.live.filter (· ≠ root)).length := by
  have herase : s.live.filter (· ≠ root) = s.live.erase root := by
    rw [h.inv.parents.nodup.erase_eq_filter root]
    exact List.filter_congr fun x _ => by simp only [decide_not, bne, beq_eq_decide]
  have hcount := h.count
  rw [herase, List.length_erase_of_mem h.inv.parents.rootMem]
  omega

/-- **The dependency tree.** -/
theorem dependency_tree (h : Reachable T s) :
    OneTree s ∧ s.nodeCount = (s.live.filter (· ≠ root)).length ∧ (∀ n ∈ s.live, n ≠ root → QueuedRight s n) ∧
      (∀ n, s.top = some n → n ∈ s.live ∧ (s.node n).active = true) ∧
      ((∃ n, s.top = some n) ↔ ∃ n ∈ s.live, (s.node n).active = true) :=
  ⟨(run_consistent h).oneTree, (run_consistent h).count_others, fun _ hn hn0 => (run_consistent h).queuedRight hn hn0,
    top_spec (run_consistent h)⟩

/-- a stream is opened with a parent -/
def openStream (s : Tree Unit) (parentId id : BitVec 32) : Tree Unit :=
  ((s.add 2 2 parentId id HTTP2_PRIORITY_DEFAULT_WEIGHT false (some ()) false).map Prod.fst).getD s

/-- a stream has been added and has something to send -/
def oneStream : Tree Unit := ((Tree.init Unit 100).addBelow root 1 15 false (some ()) false).1.activate 1

theorem oneStream_reachable : Reachable Unit oneStream := by
  have hadd : Returns (Tree.init Unit 100) (.add 0 1 15 false (some ())) ((Tree.init Unit 100).addBelow root 1 15 false (some ()) false).1 :=
    ⟨1, 0, some 1, rfl⟩
  have hallowed : Allowed (Tree.init Unit 100) (.add 0 1 15 false (some ())) := show (0 : BitVec 32) ≠ 1 by decide
  have hadded : Reachable Unit ((Tree.init Unit 100).addBelow root 1 15 false (some ()) false).1 :=
    (Reachable.init 100).step hallowed hadd
  have hnode : IsNode ((Tree.init Unit 100).addBelow root 1 15 false (some ()) false).1 1 := ⟨List.mem_cons_self, by decide⟩
  exact hadded.step (show Allowed _ (.activate 1) from hnode) rfl

theorem dependency_tree_oneStream : oneStream.top = some 1 ∧ oneStream.nodeCount = 1 ∧
    OneTree oneStream ∧ oneStream.nodeCount = (oneStream.live.filter (· ≠ root)).length ∧
      (∀ n ∈ oneStream.live, n ≠ root → QueuedRight oneStream n) ∧
      (∀ n, oneStream.top = some n → n ∈ oneStream.live ∧ (oneStream.node n).active = true) ∧
      ((∃ n, oneStream.top = some n) ↔ ∃ n ∈ oneStream.live, (oneStream.node n).active = true) :=
  ⟨by decide, by decide, dependency_tree oneStream_reachable⟩

end TrafficServer.Http2.DependencyTree
