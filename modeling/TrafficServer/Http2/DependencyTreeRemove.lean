/-
Nodes that leave the dependency tree.

`remove` gives the queue entries of a node to its parent, each of which is in two queues for a moment (`handOver_heaps`), and then its children
(`Splicing`). The node is not in the tree then, but its memory is still there while `remove` goes on to a parent that is a shadow node:
`Removed` is about the nodes that have left a list of nodes of the tree.
-/
import TrafficServer.Http2.DependencyTreeMoves

namespace TrafficServer.Http2.DependencyTree

open TrafficServer.IndexedHeap TrafficServer.Forest

variable {T : Type} {s s' : Tree T} {L M : List ℕ} {n p q c : ℕ}

/-! ## Other lists of nodes -/

theorem Inv.of_mem (h : Inv s L) (hmem : ∀ x, x ∈ L ↔ x ∈ M) (hM : M.Nodup) : Inv s M := by
  have hbusy : ∀ x, Busy s M x ↔ Busy s L x := fun x => or_congr_right (exists_congr fun y => by rw [hmem])
  refine ⟨⟨hM, (hmem _).mp h.parents.rootMem, h.parents.rootParent, h.parents.rootId, h.parents.rootShadow,
    fun x hx => h.parents.fresh x ((hmem x).mpr hx), fun x hx y hy => (hmem y).mp (h.parents.closed x ((hmem x).mpr hx) y hy),
    h.parents.grounded⟩, fun x hx => h.rooted x ((hmem x).mpr hx), ⟨fun x hx y => ?_, fun x hx => h.children.nodup x ((hmem x).mpr hx)⟩,
    ⟨⟨fun x hx => h.queues.heaps.indexed x ((hmem x).mpr hx), fun x hx y hy => ?_⟩, fun x hx y => ?_⟩, fun x hx h0 hout => ?_⟩
  · rw [← hmem]
    exact h.children.mem x ((hmem x).mpr hx) y
  · exact h.queues.heaps.disjoint x ((hmem x).mpr hx) y ((hmem y).mpr hy)
  · rw [← hmem]
    exact h.queues.mem x ((hmem x).mpr hx) y
  · rw [hbusy]
    exact h.settled x ((hmem x).mpr hx) h0 hout

/-- other nodes may change -/
theorem Inv.of_nodes (h : Inv s L) (hnode : ∀ x ∈ L, s'.node x = s.node x) (hgrounded : Grounded s'.up) (hnext : s.next ≤ s'.next) :
    Inv s' L := by
  have hroot := h.parents.rootMem
  have hbusy : ∀ x ∈ L, (Busy s' L x ↔ Busy s L x) := fun x hx =>
    Busy.congr (by rw [hnode x hx]) fun y hy => by rw [hnode y hy]
  refine ⟨⟨h.parents.nodup, hroot, by rw [hnode _ hroot]; exact h.parents.rootParent, by rw [hnode _ hroot]; exact h.parents.rootId,
    by rw [hnode _ hroot]; exact h.parents.rootShadow, fun x hx => (h.parents.fresh x hx).trans_le hnext, fun x hx y hy => ?_, hgrounded⟩,
    fun x hx h0 hd => ?_, ⟨fun x hx y => ?_, fun x hx => ?_⟩, ⟨⟨fun x hx i y hy => ?_, fun x hx y hy z hzx hzy => ?_⟩, fun x hx y => ?_⟩,
    fun x hx h0 hout => ?_⟩
  · rw [hnode x hx] at hy
    exact h.parents.closed x hx y hy
  · rw [hnode x hx]
    exact h.rooted x hx h0 hd
  · rw [hnode x hx, h.children.mem x hx y]
    exact and_congr_right fun hy => by rw [hnode y hy]
  · rw [hnode x hx]
    exact h.children.nodup x hx
  · have hy' : (s.node x).queue[i]? = some y := by
      rw [← hnode x hx]
      exact hy
    have hyL : y ∈ L := ((h.queues.mem x hx y).mp (List.mem_of_getElem? hy')).1
    have hindex : (s'.heap x).index y = (s.heap x).index y := congrArg Node.index (hnode y hyL)
    exact hindex.trans (h.queues.heaps.indexed x hx i y hy')
  · rw [hnode x hx] at hzx
    rw [hnode y hy] at hzy
    exact h.queues.heaps.disjoint x hx y hy z hzx hzy
  · rw [hnode x hx, h.queues.mem x hx y]
    exact and_congr_right fun hy => by rw [hnode y hy]
  · rw [hnode x hx, hbusy x hx]
    exact h.settled x hx h0 hout

/-! ## The queue goes to the parent -/

/-- the first entry of a queue goes to another queue -/
theorem handOver_heaps {top : ℕ} {rest : List ℕ} (hs : Heaps s L) (hp : p ∈ L) (hn : n ∈ L) (hne : p ≠ n)
    (hqueue : (s.node n).queue = top :: rest) :
    Heaps ((s.push p top).pop n) L ∧ ∀ q x, x ∈ (((s.push p top).pop n).node q).queue ↔
      if q = n then x ∈ rest else x ∈ (s.node q).queue ∨ q = p ∧ x = top := by
  have htop : top ∈ (s.node n).queue := hqueue ▸ List.mem_cons_self
  have hown : ∀ x ∈ (s.node n).queue, ∀ q ∈ L, x ∈ (s.node q).queue → q = n := fun x hx q hq hmem => hs.disjoint q hq n hn x hmem hx
  have hnodup : (top :: rest).Nodup := hqueue ▸ (hs.indexed n hn).nodup
  -- among the other nodes the entry is in no queue yet
  have hothers : Heaps s (L.filter (· ≠ n)) :=
    ⟨fun q hq => hs.indexed q (List.mem_filter.mp hq).1, fun q hq r hr => hs.disjoint q (List.mem_filter.mp hq).1 r (List.mem_filter.mp hr).1⟩
  have hpO : p ∈ L.filter (· ≠ n) := List.mem_filter.mpr ⟨hp, by simpa using hne⟩
  obtain ⟨hpush, hmem⟩ := hothers.push hpO fun q hq hc =>
    of_decide_eq_true (List.mem_filter.mp hq).2 (hown top htop q (List.mem_filter.mp hq).1 hc)
  obtain ⟨-, -, hframe⟩ := push_spec s.less (hs.indexed p hp) fun hc => hne (hown top htop p hp hc)
  have hv : ((s.push p top).heap n).v = top :: rest := by
    show ((s.push p top).node n).queue = top :: rest
    rw [Tree.push, setHeap_queue, if_neg (Ne.symm hne)]
    exact hqueue
  obtain ⟨hindexed, hpop, hindex, hframe'⟩ := pop_spec (s.push p top).less hv (hv.symm ▸ hnodup) fun m x hm hx => by
    rw [hv] at hx
    have hxrest : x ∈ rest := by
      rw [List.getElem?_cons, if_neg hm] at hx
      exact List.mem_of_getElem? hx
    have hxn : x ∈ (s.node n).queue := hqueue ▸ List.mem_cons_of_mem top hxrest
    have hxtop : x ≠ top := fun heq => (List.nodup_cons.mp hnodup).1 (heq ▸ hxrest)
    exact (hframe x (fun hc => hne (hown x hxn p hp hc)) hxtop).trans (hs.indexed n hn m x (by
      show (s.node n).queue[m]? = some x
      rw [hqueue]
      exact hx))
  have hqueues : ∀ q x, x ∈ (((s.push p top).pop n).node q).queue ↔
      if q = n then x ∈ rest else x ∈ (s.node q).queue ∨ q = p ∧ x = top := by
    intro q x
    rw [Tree.pop, setHeap_queue]
    split_ifs with hqn
    · exact hpop x
    · exact hmem q x
  refine ⟨hpush.setHeap (fun q hq hqn => List.mem_filter.mpr ⟨hq, by simpa using hqn⟩) hindexed fun q hq hqn x hx => ?_, hqueues⟩
  rw [hpop]
  by_cases hxtop : x = top
  · rw [hxtop]
    exact ⟨hindex, (List.nodup_cons.mp hnodup).1⟩
  · have hxn : x ∉ (s.node n).queue := fun hc =>
      ((hmem q x).mp hx).elim (fun hxq => hqn (hown x hc q hq hxq)) fun hxp => hxtop hxp.2
    rw [hqueue] at hxn
    exact ⟨hframe' x (hv.symm ▸ hxn), fun hc => hxn (List.mem_cons_of_mem top hc)⟩

/-- all entries of a queue have gone to another one -/
structure HandedOver (L : List ℕ) (p n : ℕ) (s s' : Tree T) : Prop where
  heaps : Heaps s' L
  queue : ∀ q ∈ L, q ≠ n → ∀ x, x ∈ (s'.node q).queue ↔ x ∈ (s.node q).queue ∨ q = p ∧ x ∈ (s.node n).queue
  links : SameLinks s s'
  state : SameState s s'

theorem moveQueue_handedOver {fuel : ℕ} (hs : Heaps s L) (hp : p ∈ L) (hn : n ∈ L) (hne : p ≠ n)
    (hfuel : (s.node n).queue.length ≤ fuel) : HandedOver L p n s (Tree.moveQueue p n fuel s) := by
  have hnil : ∀ {s : Tree T}, Heaps s L → (s.node n).queue = [] → HandedOver L p n s s := fun {s} hs hnil =>
    ⟨hs, fun q _ _ x => by simp [hnil], SameLinks.refl s, SameState.refl s⟩
  induction fuel generalizing s with
  | zero => exact hnil hs (List.length_eq_zero_iff.mp (Nat.le_zero.mp hfuel))
  | succ fuel ih =>
    rw [Tree.moveQueue]
    cases hqueue : (s.node n).queue with
    | nil => exact hnil hs hqueue
    | cons top rest =>
      dsimp only
      obtain ⟨hheaps, hmem⟩ := handOver_heaps hs hp hn hne hqueue
      have hlinks : SameLinks s ((s.push p top).pop n) := (setHeap_sameLinks s p _).trans (setHeap_sameLinks _ n _)
      have hstate : SameState s ((s.push p top).pop n) := (setHeap_sameState s p _).trans (setHeap_sameState _ n _)
      have hrest : ∀ x, x ∈ (((s.push p top).pop n).node n).queue ↔ x ∈ rest := fun x => (hmem n x).trans (by rw [if_pos rfl])
      have hlength : (((s.push p top).pop n).node n).queue.length = rest.length := by
        have hnodup : (top :: rest).Nodup := hqueue ▸ (hs.indexed n hn).nodup
        exact ((List.perm_ext_iff_of_nodup (hheaps.indexed n hn).nodup (List.nodup_cons.mp hnodup).2).mpr hrest).length_eq
      have hover := ih hheaps (by rw [hqueue] at hfuel; rw [hlength]; exact Nat.le_of_succ_le_succ hfuel)
      refine ⟨hover.heaps, fun q hq hqn x => ?_, hlinks.trans hover.links, hstate.trans hover.state⟩
      rw [hover.queue q hq hqn, hmem, if_neg hqn, hrest, hqueue, List.mem_cons, or_assoc, ← and_or_left]

/-! ## The children go to the parent -/

/-- the children of a node that is in no list of children go to its parent -/
structure Splicing (L : List ℕ) (p n : ℕ) (s : Tree T) : Prop where
  parents : Parents s L
  children : Children s L n
  up : (s.node n).parent = some p
  mem : n ∈ L

theorem Splicing.ne (h : Splicing L p n s) : n ≠ p := fun heq => h.parents.grounded.not_above h.up (heq ▸ Above.refl n)

theorem Splicing.step {rest : List ℕ} (h : Splicing L p n s) (hch : (s.node n).children = c :: rest) :
    Splicing L p n (((s.setChildren n rest).childrenPush p c).setParent c (some p)) := by
  obtain ⟨hcL, hcn, hc⟩ := h.children.head_parent h.mem hch
  obtain ⟨hrelinked, -⟩ := relink_spec h.ne hch (SameLinks.refl (s.setChildren n rest)) (SameState.refl _)
  have hc0 : c ≠ root := fun h0 => by simp [h0, h.parents.rootParent] at hc
  have hpL : p ∈ L := h.parents.closed n h.mem p h.up
  have hoff : ¬ Above s.up c p := fun hc' => h.parents.grounded.not_above hc (Above.of_parent h.up hc')
  refine ⟨h.parents.reparent hrelinked.parent hc0 (fun q hq => Option.some.inj hq ▸ ⟨hpL, hoff⟩) hrelinked.state,
    hrelinked.childrenOk h.children hcL hcn hc h.mem hpL h.ne, ?_, h.mem⟩
  rw [hrelinked.parent, if_neg (Ne.symm hcn)]
  exact h.up

/-- all children have gone to the parent -/
structure Spliced (p n : ℕ) (s s' : Tree T) : Prop where
  parent : ∀ x, (s'.node x).parent = if x ∈ (s.node n).children then some p else (s.node x).parent
  children : (s'.node n).children = []
  entries : SameEntries s s'
  state : SameState s s'

theorem spliceChildren_spliced {fuel : ℕ} (h : Splicing L p n s) (hfuel : (s.node n).children.length ≤ fuel) :
    Splicing L p n (Tree.spliceChildren p n fuel s) ∧ Spliced p n s (Tree.spliceChildren p n fuel s) := by
  have hnil : ∀ {s : Tree T}, (s.node n).children = [] → Spliced p n s s := fun {s} hnil =>
    ⟨fun x => by rw [hnil, if_neg List.not_mem_nil], hnil, ⟨fun _ => rfl, fun _ => rfl⟩, SameState.refl s⟩
  induction fuel generalizing s with
  | zero => exact ⟨h, hnil (List.length_eq_zero_iff.mp (Nat.le_zero.mp hfuel))⟩
  | succ fuel ih =>
    rw [Tree.spliceChildren]
    cases hch : (s.node n).children with
    | nil => exact ⟨h, hnil hch⟩
    | cons c rest =>
      dsimp only
      obtain ⟨hrelinked, hentries⟩ := relink_spec h.ne hch (SameLinks.refl (s.setChildren n rest)) (SameState.refl _)
      have h₁ : LinkChange s (s.setChildren n rest) (fun x => (s.node x).parent) fun x => if x = n then rest else (s.node x).children :=
        setChildren_change s n fun _ => rest
      have hstep := h.step hch
      generalize ((s.setChildren n rest).childrenPush p c).setParent c (some p) = s₁ at *
      have hrest : (s₁.node n).children = rest := by
        rw [hrelinked.children, if_pos rfl, hch, List.erase_cons_head]
      obtain ⟨hsplicing, hspliced⟩ := ih hstep (by rw [hch] at hfuel; rw [hrest]; exact Nat.le_of_succ_le_succ hfuel)
      refine ⟨hsplicing, fun x => ?_, hspliced.children,
        ⟨fun x => (hspliced.entries.queue x).trans ((hentries.queue x).trans (h₁.entries.queue x)),
          fun x => (hspliced.entries.index x).trans ((hentries.index x).trans (h₁.entries.index x))⟩, hrelinked.state.trans hspliced.state⟩
      rw [hspliced.parent, hrest, hrelinked.parent, hch]
      by_cases hx : x = c
      · rw [if_pos hx, hx, if_pos List.mem_cons_self, ite_self]
      · rw [if_neg hx]
        simp only [List.mem_cons, hx, false_or]

/-! ## A node is taken out -/

/-- the steps of `remove` but the first and the last ones -/
def takeOut (s : Tree T) (p n : ℕ) : Tree T :=
  let s := s.childrenRemove p n
  let s := if (s.node n).queued then s.erase p n else s
  let s := Tree.moveQueue p n (s.node n).queue.length s
  Tree.spliceChildren p n (s.node n).children.length s

/-- the children and the queue of a node are those of its parent now -/
structure TakenOut (L : List ℕ) (p n : ℕ) (s s' : Tree T) : Prop where
  parents : Parents s' L
  children : Children s' L n
  heaps : Heaps s' L
  parent : ∀ x ∈ L, (s'.node x).parent = if (s.node x).parent = some n then some p else (s.node x).parent
  queue : ∀ q ∈ L, q ≠ n → ∀ x, x ∈ (s'.node q).queue ↔ x ≠ n ∧ (x ∈ (s.node q).queue ∨ q = p ∧ x ∈ (s.node n).queue)
  state : SameState s s'

/-- the entry of a node is erased, if it has one -/
theorem eraseEntry_heaps (hs : Queues s L) (hp : p ∈ L) (hn : (s.node n).parent = some p) :
    let s' := if (s.node n).queued then s.erase p n else s
    Heaps s' L ∧ (∀ q ∈ L, ∀ x, x ∈ (s'.node q).queue ↔ x ∈ (s.node q).queue ∧ x ≠ n) ∧ SameLinks s s' ∧ SameState s s' := by
  dsimp only
  cases hqueued : (s.node n).queued with
  | true =>
    rw [if_pos rfl]
    obtain ⟨hheaps, hmem⟩ := hs.heaps.erase hp n
    refine ⟨hheaps, fun q hq x => (hmem q x).trans (and_congr_right fun hx => ?_), setHeap_sameLinks s p _, setHeap_sameState s p _⟩
    refine ⟨fun hc hxn => hc ⟨?_, hxn⟩, fun hxn hc => hxn hc.2⟩
    rw [hxn] at hx
    exact (Option.some.inj (hn.symm.trans ((hs.mem q hq n).mp hx).2.1)).symm
  | false =>
    rw [if_neg Bool.false_ne_true]
    refine ⟨hs.heaps, fun q hq x => (and_iff_left_of_imp fun hx hxn => ?_).symm, SameLinks.refl s, SameState.refl s⟩
    exact hs.not_queued hqueued q hq (hxn ▸ hx)

theorem takeOut_takenOut (h : Inv s L) (hn : n ∈ L) (hp : (s.node n).parent = some p) : TakenOut L p n s (takeOut s p n) := by
  have hpL : p ∈ L := h.parents.closed n hn p hp
  have hne : n ≠ p := fun heq => h.parents.grounded.not_above hp (heq ▸ Above.refl n)
  have h₁ := childrenRemove_change s p n
  have hparents₁ : Parents (s.childrenRemove p n) L := h.parents.congr h₁.parent h₁.state.id (h₁.state.shadow root) h₁.state.next
  have hqueues₁ : Queues (s.childrenRemove p n) L :=
    h.queues.congr (fun x _ => h₁.parent x) (fun q _ => h₁.entries.queue q) h₁.entries.index fun x _ => h₁.state.queued x
  obtain ⟨hheaps₂, hqueue₂, hlinks₂, hstate₂⟩ := eraseEntry_heaps hqueues₁ hpL ((h₁.parent n).trans hp)
  have hchildren₁ := childrenRemove_children h.parents h.children hp
  unfold takeOut
  dsimp only at hheaps₂ hqueue₂ hlinks₂ hstate₂ ⊢
  generalize (if ((s.childrenRemove p n).node n).queued then (s.childrenRemove p n).erase p n else s.childrenRemove p n) = s₂ at *
  have hover := moveQueue_handedOver hheaps₂ hpL hn (Ne.symm hne) le_rfl
  generalize Tree.moveQueue p n (s₂.node n).queue.length s₂ = s₃ at *
  have hlinks : SameLinks (s.childrenRemove p n) s₃ := hlinks₂.trans hover.links
  have hparent₃ : ∀ x, (s₃.node x).parent = (s.node x).parent := fun x => (hlinks.parent x).trans (h₁.parent x)
  have hsplicing : Splicing L p n s₃ := ⟨hlinks.parents hparents₁, hlinks.childrenOk hchildren₁, (hparent₃ n).trans hp, hn⟩
  obtain ⟨hsplicing', hspliced⟩ := spliceChildren_spliced hsplicing le_rfl
  have hown : ∀ x, x ∈ (s.node n).queue → x ≠ n := fun x hx hxn => by
    rw [hxn] at hx
    exact hne (Option.some.inj (((h.queues.mem n hn n).mp hx).2.1.symm.trans hp))
  refine ⟨hsplicing'.parents, hsplicing'.children, hover.heaps.congr (fun q _ => hspliced.entries.queue q) hspliced.entries.index,
    fun x hx => ?_, fun q hq hqn x => ?_, ((h₁.state.trans hstate₂).trans hover.state).trans hspliced.state⟩
  · have hmem : x ∈ (s₃.node n).children ↔ (s.node x).parent = some n := by
      rw [hsplicing.children.mem n hn x, hparent₃]
      refine ⟨fun hc => hc.2.2, fun hc => ⟨hx, fun hxn => ?_, hc⟩⟩
      rw [hxn, hp] at hc
      exact hne (Option.some.inj hc).symm
    rw [hspliced.parent, hparent₃]
    exact if_congr hmem rfl rfl
  · rw [hspliced.entries.queue, hover.queue q hq hqn, hqueue₂ q hq, hqueue₂ n hn, h₁.entries.queue, h₁.entries.queue, ← and_assoc, ← or_and_right,
      and_comm]

/-- a node with nothing to send leaves the rest as it is: what was queued below it is queued below its parent -/
theorem TakenOut.inv (h : TakenOut L p n s s') (hs : Inv s L) (hn : n ∈ L) (hn0 : n ≠ root) (hp : (s.node n).parent = some p)
    (hidle : (s.node n).active = false) : Inv s' (L.erase n) := by
  have hmem : ∀ x, x ∈ L.erase n ↔ x ≠ n ∧ x ∈ L := fun x => hs.parents.nodup.mem_erase_iff
  have hne : p ≠ n := fun heq => hs.parents.grounded.not_above hp (heq ▸ Above.refl p)
  have hpL : p ∈ L := hs.parents.closed n hn p hp
  have hbusyn : Busy s L n ↔ ∃ y ∈ L, (s.node y).parent = some n ∧ (s.node y).queued = true :=
    or_iff_right fun hc => Bool.false_ne_true (hidle.symm.trans hc)
  have hbusy : ∀ x, x ≠ n → (Busy s' (L.erase n) x ↔ Busy s L x) := by
    refine fun x hx => or_congr (by rw [h.state.active]) ⟨fun ⟨y, hy, hyx, hyq⟩ => ?_, fun ⟨y, hy, hyx, hyq⟩ => ?_⟩
    · obtain ⟨-, hyL⟩ := (hmem y).mp hy
      rw [h.parent y hyL] at hyx
      rw [h.state.queued] at hyq
      split_ifs at hyx with hyn
      · have hxp : x = p := (Option.some.inj hyx).symm
        exact ⟨n, hn, hxp ▸ hp, (hs.settled n hn hn0 id).mpr (hbusyn.mpr ⟨y, hyL, hyn, hyq⟩)⟩
      · exact ⟨y, hyL, hyx, hyq⟩
    · by_cases hyn : y = n
      · rw [hyn] at hyx hyq
        obtain ⟨z, hz, hzn, hzq⟩ := hbusyn.mp ((hs.settled n hn hn0 id).mp hyq)
        have hzne : z ≠ n := fun heq => hs.parents.grounded.not_above (heq ▸ hzn : s.up n = some n) (Above.refl n)
        refine ⟨z, (hmem z).mpr ⟨hzne, hz⟩, ?_, (h.state.queued z).trans hzq⟩
        rw [h.parent z hz, if_pos hzn, ← hp, hyx]
      · refine ⟨y, (hmem y).mpr ⟨hyn, hy⟩, ?_, (h.state.queued y).trans hyq⟩
        rw [h.parent y hy, if_neg (by rw [hyx]; exact fun hc => hx (Option.some.inj hc)), hyx]
  refine ⟨⟨hs.parents.nodup.erase n, (hmem root).mpr ⟨Ne.symm hn0, hs.parents.rootMem⟩, h.parents.rootParent, h.parents.rootId,
    h.parents.rootShadow, fun x hx => h.parents.fresh x ((hmem x).mp hx).2, fun x hx y hy => ?_, h.parents.grounded⟩, fun x hx h0 _ => ?_,
    ⟨fun x hx y => ?_, fun x hx => h.children.nodup x ((hmem x).mp hx).2⟩,
    ⟨⟨fun x hx => h.heaps.indexed x ((hmem x).mp hx).2, fun x hx y hy => h.heaps.disjoint x ((hmem x).mp hx).2 y ((hmem y).mp hy).2⟩,
      fun q hq x => ?_⟩, fun x hx h0 _ => ?_⟩
  · obtain ⟨-, hxL⟩ := (hmem x).mp hx
    refine (hmem y).mpr ⟨fun hyn => ?_, h.parents.closed x hxL y hy⟩
    rw [h.parent x hxL, hyn] at hy
    split_ifs at hy with hxn
    · exact hne (Option.some.inj hy)
    · exact hxn hy
  · obtain ⟨-, hxL⟩ := (hmem x).mp hx
    rw [h.parent x hxL]
    split_ifs
    · exact Option.some_ne_none p
    · exact hs.rooted x hxL h0 h0
  · rw [h.children.mem x ((hmem x).mp hx).2 y, hmem]
    refine ⟨fun hc => ⟨⟨hc.2.1, hc.1⟩, fun h0 => ?_, hc.2.2⟩, fun hc => ⟨hc.1.2, hc.1.1, hc.2.2⟩⟩
    rw [h0, h.parents.rootParent] at hc
    exact Option.some_ne_none x hc.2.2.symm
  · obtain ⟨hqn, hqL⟩ := (hmem q).mp hq
    rw [h.queue q hqL hqn, hs.queues.mem q hqL, hs.queues.mem n hn, hmem, h.state.queued, and_assoc]
    refine and_congr_right fun hxn => ?_
    by_cases hxL : x ∈ L
    · rw [h.parent x hxL]
      simp only [hxL, true_and]
      by_cases hx : (s.node x).parent = some n
      · rw [if_pos hx, hx]
        simp only [Option.some.injEq, Ne.symm hqn, false_and, false_or, true_and, eq_comm]
      · rw [if_neg hx]
        simp only [hx, false_and, and_false, or_false]
    · simp only [hxL, false_and, and_false, or_false]
  · obtain ⟨hxn, hxL⟩ := (hmem x).mp hx
    rw [h.state.queued, hbusy x hxn]
    exact hs.settled x hxL h0 id

/-! ## `remove` -/

theorem addAncestor_same (s : Tree T) (n : ℕ) : (s.addAncestor n).node = s.node ∧ (s.addAncestor n).live = s.live ∧
    (s.addAncestor n).next = s.next ∧ (s.addAncestor n).nodeCount = s.nodeCount := by
  unfold Tree.addAncestor
  split
  · exact ⟨rfl, rfl, rfl, rfl⟩
  · split_ifs <;> exact ⟨rfl, rfl, rfl, rfl⟩

theorem addAncestor_inv (h : Inv s L) (n : ℕ) : Inv (s.addAncestor n) L := by
  obtain ⟨hnode, -, hnext, -⟩ := addAncestor_same s n
  have hup : (s.addAncestor n).up = s.up := funext fun x => congrArg Node.parent (congrFun hnode x)
  exact h.of_nodes (fun x _ => congrFun hnode x) (hup.symm ▸ h.parents.grounded) hnext.ge

theorem delete_inv (h : Inv s L) (hn : n ∉ L) : Inv (s.delete n) L := by
  refine h.of_nodes (fun x hx => Function.update_of_ne (ne_of_mem_of_not_mem hx hn) _ _) ?_ le_rfl
  have hup : (s.delete n).up = Function.update s.up n none := by
    funext x
    rw [Function.update_apply]
    show (Function.update s.node n (Node.none T) x).parent = _
    rw [Function.update_apply]
    split_ifs <;> rfl
  rw [hup]
  exact h.parents.grounded.update fun q hq => by simp at hq

/-- what `remove` goes on to, before the memory of the node is freed -/
def removeShadow (fuel : ℕ) (s : Tree T) (p : ℕ) : Tree T :=
  if (s.node p).shadow ∧ (s.node p).children = [] ∧ (s.node p).queue = [] then Tree.removeLoop fuel s p else s

theorem removeLoop_succ (fuel : ℕ) (hn : ¬ (n = root ∨ (s.node n).active = true)) (hp : (s.node n).parent = some p) :
    Tree.removeLoop (fuel + 1) s n =
      let s' := removeShadow fuel (takeOut (s.addAncestor n) p n) p
      { s' with nodeCount := s'.nodeCount - 1 }.delete n := by
  rw [Tree.removeLoop, if_neg hn, hp]
  rfl

/-- the nodes of `L` that are not in `M` have gone -/
structure Removed (L M : List ℕ) (s s' : Tree T) : Prop where
  sub : ∀ x ∈ M, x ∈ L
  live : ∀ x, x ∈ s'.live ↔ x ∈ s.live ∧ (x ∈ L → x ∈ M)
  nodup : s'.live.Nodup
  count : s'.nodeCount + L.length = s.nodeCount + M.length

theorem Removed.refl (L : List ℕ) (hlive : s.live.Nodup) : Removed L L s s := ⟨fun _ hx => hx, fun _ => by simp, hlive, rfl⟩

/-- What holds of the nodes of the tree, also when one is taken out or its memory is freed, holds of those that `remove` leaves. -/
theorem removeLoop_rule {J : Tree T → List ℕ → Prop}
    (htake : ∀ {s : Tree T} {L : List ℕ} {n p : ℕ}, J s L → J (takeOut (s.addAncestor n) p n) (L.erase n))
    (hdelete : ∀ {s : Tree T} {M : List ℕ} {n : ℕ}, Inv s M → n ∉ M → J s M → J ({ s with nodeCount := s.nodeCount - 1 }.delete n) M)
    {fuel : ℕ} (h : Inv s L) (hJ : J s L) (hn : n ∈ L) (hlive : s.live.Nodup) (hcount : L.length ≤ s.nodeCount + 1) :
    ∃ M, Inv (Tree.removeLoop fuel s n) M ∧ Removed L M s (Tree.removeLoop fuel s n) ∧ J (Tree.removeLoop fuel s n) M := by
  induction fuel generalizing s L n with
  | zero => exact ⟨L, h, Removed.refl L hlive, hJ⟩
  | succ fuel ih =>
    by_cases hcond : n = root ∨ (s.node n).active = true
    · rw [Tree.removeLoop, if_pos hcond]
      exact ⟨L, h, Removed.refl L hlive, hJ⟩
    · obtain ⟨hn0, hactive⟩ := not_or.mp hcond
      cases hp : (s.node n).parent with
      | none => exact absurd hp (h.rooted n hn hn0 hn0)
      | some p =>
        rw [removeLoop_succ fuel hcond hp]
        obtain ⟨hnode, hsame, -, hsameCount⟩ := addAncestor_same s n
        have hp' : ((s.addAncestor n).node n).parent = some p := hnode ▸ hp
        have htaken := takeOut_takenOut (addAncestor_inv h n) hn hp'
        have hinv := htaken.inv (addAncestor_inv h n) hn hn0 hp' (by rw [hnode]; simpa using hactive)
        have hne : p ≠ n := fun heq => h.parents.grounded.not_above hp (heq ▸ Above.refl p)
        have hmem : ∀ x, x ∈ L.erase n ↔ x ≠ n ∧ x ∈ L := fun x => h.parents.nodup.mem_erase_iff
        have hpE : p ∈ L.erase n := (hmem p).mpr ⟨hne, h.parents.closed n hn p hp⟩
        have hlength : (L.erase n).length + 1 = L.length := by
          rw [List.length_erase_of_mem hn]
          exact Nat.sub_add_cancel (List.length_pos_of_mem hn)
        have hlive₁ : (takeOut (s.addAncestor n) p n).live = s.live := htaken.state.live.trans hsame
        have hcount₁ : (takeOut (s.addAncestor n) p n).nodeCount = s.nodeCount := htaken.state.count.trans hsameCount
        -- the parent may go as well, while the memory of the node is still there
        have hgone : ∀ s₂ : Tree T, (∃ M, Inv s₂ M ∧ Removed (L.erase n) M (takeOut (s.addAncestor n) p n) s₂ ∧ J s₂ M) →
            ∃ M, Inv ({ s₂ with nodeCount := s₂.nodeCount - 1 }.delete n) M ∧
              Removed L M s ({ s₂ with nodeCount := s₂.nodeCount - 1 }.delete n) ∧ J ({ s₂ with nodeCount := s₂.nodeCount - 1 }.delete n) M := by
          rintro s₂ ⟨M, hM, hremoved, hJ₂⟩
          have hnM : n ∉ M := fun hc => ((hmem n).mp (hremoved.sub n hc)).1 rfl
          have hMpos : 0 < M.length := List.length_pos_of_mem hM.parents.rootMem
          refine ⟨M, delete_inv (hM.of_nodes (fun _ _ => rfl) hM.parents.grounded le_rfl) hnM,
            ⟨fun x hx => ((hmem x).mp (hremoved.sub x hx)).2, fun x => ?_, hremoved.nodup.erase n, ?_⟩, hdelete hM hnM hJ₂⟩
          · show x ∈ s₂.live.erase n ↔ _
            rw [hremoved.nodup.mem_erase_iff, hremoved.live, hlive₁, hmem]
            by_cases hx : x = n
            · rw [hx]
              exact iff_of_false (fun hc => hc.1 rfl) fun hc => hnM (hc.2 hn)
            · simp only [ne_eq, hx, not_false_eq_true, true_and]
          · show s₂.nodeCount - 1 + L.length = s.nodeCount + M.length
            have heq := hremoved.count
            rw [hcount₁] at heq
            omega
        have hnodup₁ : (takeOut (s.addAncestor n) p n).live.Nodup := hlive₁.symm ▸ hlive
        refine hgone _ ?_
        unfold removeShadow
        split_ifs
        · exact ih hinv (htake hJ) hpE hnodup₁ (by omega)
        · exact ⟨L.erase n, hinv, Removed.refl _ hnodup₁, htake hJ⟩

/-- the nodes that are there form the tree, and are counted -/
structure Consistent (s : Tree T) : Prop where
  inv : Inv s s.live
  count : s.nodeCount + 1 = s.live.length

theorem Consistent.of_inv (h : Inv s L) (hmem : ∀ x, x ∈ s.live ↔ x ∈ L) (hlive : s.live.Nodup) (hcount : s.nodeCount + 1 = L.length) :
    Consistent s where
  inv := h.of_mem (fun x => (hmem x).symm) hlive
  count := hcount.trans ((List.perm_ext_iff_of_nodup h.parents.nodup hlive).mpr fun x => (hmem x).symm).length_eq

theorem remove_consistent (h : Consistent s) (hn : n ∈ s.live) : Consistent (s.remove n) := by
  have hgone : ∃ M, Inv (s.remove n) M ∧ Removed s.live M s (s.remove n) ∧ True :=
    removeLoop_rule (J := fun _ _ => True) (fun _ => trivial) (fun _ _ _ => trivial) h.inv trivial hn h.inv.parents.nodup h.count.ge
  obtain ⟨M, hM, hremoved, -⟩ := hgone
  refine Consistent.of_inv hM (fun x => ?_) hremoved.nodup ?_
  · rw [hremoved.live]
    exact ⟨fun hx => hx.2 hx.1, fun hx => ⟨hremoved.sub x hx, fun _ => hx⟩⟩
  · have heq := hremoved.count
    have hcount := h.count
    omega

end TrafficServer.Http2.DependencyTree
