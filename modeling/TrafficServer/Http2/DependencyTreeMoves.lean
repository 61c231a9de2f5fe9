/-
Nodes of the dependency tree that are moved.

A child that goes from one node to another (`Relinked`) leaves a tree behind if it is not above its new parent, and takes its queue entry with
it (`Moving.step`). `_change_parent` takes a node out of the tree (`detachFrom_detached`), may move all children of the new parent under it, and
hangs it there (`attachTo_inv`); `add` does the same with a new node.
-/
import TrafficServer.Http2.DependencyTreeInv

namespace TrafficServer.Http2.DependencyTree

open TrafficServer.IndexedHeap TrafficServer.Forest

variable {T : Type} {s s' s'' : Tree T} {L : List ℕ} {n p q c d r r' src dst : ℕ}

/-! ## What is left as it is -/

theorem SameState.refl (s : Tree T) : SameState s s := ⟨fun _ => rfl, fun _ => rfl, fun _ => rfl, fun _ => rfl, rfl, rfl, rfl⟩

theorem SameState.trans (h : SameState s s') (h' : SameState s' s'') : SameState s s'' where
  queued n := (h'.queued n).trans (h.queued n)
  active n := (h'.active n).trans (h.active n)
  shadow n := (h'.shadow n).trans (h.shadow n)
  id n := (h'.id n).trans (h.id n)
  live := h'.live.trans h.live
  next := h'.next.trans h.next
  count := h'.count.trans h.count

theorem setHeap_sameState (s : Tree T) (p : ℕ) (h : Heap ℕ) : SameState s (s.setHeap p h) :=
  ⟨fun _ => rfl, fun _ => rfl, fun _ => rfl, fun _ => rfl, rfl, rfl, rfl⟩

theorem modify_sameState {f : Node T → Node T}
    (hf : ∀ x, (f x).queued = x.queued ∧ (f x).active = x.active ∧ (f x).shadow = x.shadow ∧ (f x).id = x.id)
    (s : Tree T) (n : ℕ) : SameState s (s.modify n f) where
  queued := modify_field Node.queued (fun x => (hf x).1) s n
  active := modify_field Node.active (fun x => (hf x).2.1) s n
  shadow := modify_field Node.shadow (fun x => (hf x).2.2.1) s n
  id := modify_field Node.id (fun x => (hf x).2.2.2) s n
  live := rfl
  next := rfl
  count := rfl

/-- the fields of a node that are about its queue -/
structure SameEntries (s s' : Tree T) : Prop where
  queue : ∀ n, (s'.node n).queue = (s.node n).queue
  index : ∀ n, (s'.node n).index = (s.node n).index

/-- lists of children and parents -/
structure LinkChange (s s' : Tree T) (parent : ℕ → Option ℕ) (children : ℕ → List ℕ) : Prop where
  parent : ∀ x, (s'.node x).parent = parent x
  children : ∀ x, (s'.node x).children = children x
  entries : SameEntries s s'
  state : SameState s s'

theorem setChildren_change (s : Tree T) (p : ℕ) (f : List ℕ → List ℕ) :
    LinkChange s (s.modify p fun x => { x with children := f x.children }) (fun x => (s.node x).parent)
      fun x => if x = p then f (s.node p).children else (s.node x).children where
  parent := modify_field (f := fun x => { x with children := f x.children }) Node.parent (fun _ => rfl) s p
  children x := by
    rw [modify_node]
    split_ifs <;> rfl
  entries :=
    ⟨modify_field (f := fun x => { x with children := f x.children }) Node.queue (fun _ => rfl) s p,
      modify_field (f := fun x => { x with children := f x.children }) Node.index (fun _ => rfl) s p⟩
  state := modify_sameState (f := fun x => { x with children := f x.children }) (fun _ => ⟨rfl, rfl, rfl, rfl⟩) s p

theorem setParent_change (s : Tree T) (n : ℕ) (o : Option ℕ) :
    LinkChange s (s.setParent n o) (fun x => if x = n then o else (s.node x).parent) fun x => (s.node x).children where
  parent x := by
    rw [Tree.setParent, modify_node]
    split_ifs <;> rfl
  children := modify_field (f := fun x => { x with parent := o }) Node.children (fun _ => rfl) s n
  entries :=
    ⟨modify_field (f := fun x => { x with parent := o }) Node.queue (fun _ => rfl) s n,
      modify_field (f := fun x => { x with parent := o }) Node.index (fun _ => rfl) s n⟩
  state := modify_sameState (f := fun x => { x with parent := o }) (fun _ => ⟨rfl, rfl, rfl, rfl⟩) s n

/-! ## A child goes to another parent -/

/-- the links when a child goes from `r` to `r'` -/
structure Relinked (s s' : Tree T) (c r r' : ℕ) : Prop where
  parent : ∀ x, (s'.node x).parent = if x = c then some r' else (s.node x).parent
  children : ∀ x, (s'.node x).children =
    if x = r then (s.node r).children.erase c else if x = r' then c :: (s.node r').children else (s.node x).children
  state : SameState s s'

theorem Relinked.up (h : Relinked s s' c r r') : s'.up = Function.update s.up c (some r') := by
  funext x
  rw [Function.update_apply]
  exact h.parent x

theorem Parents.reparent {o : Option ℕ} (hp : Parents s L) (hup : ∀ x, (s'.node x).parent = if x = c then o else (s.node x).parent)
    (hc0 : c ≠ root) (ho : ∀ q, o = some q → q ∈ L ∧ ¬ Above s.up c q) (hstate : SameState s s') : Parents s' L where
  nodup := hp.nodup
  rootMem := hp.rootMem
  rootParent := by rw [hup, if_neg (Ne.symm hc0), hp.rootParent]
  rootId := (hstate.id _).trans hp.rootId
  rootShadow := (hstate.shadow _).trans hp.rootShadow
  fresh n hn := hstate.next ▸ hp.fresh n hn
  closed n hn p hpar := by
    rw [hup] at hpar
    split_ifs at hpar
    · exact (ho p hpar).1
    · exact hp.closed n hn p hpar
  grounded := by
    have heq : s'.up = Function.update s.up c o := by
      funext x
      rw [Function.update_apply]
      exact hup x
    rw [heq]
    exact hp.grounded.update fun q hq => (ho q hq).2

theorem Relinked.childrenOk (h : Relinked s s' c r r') (hs : Children s L d) (hcL : c ∈ L) (hcd : c ≠ d) (hc : (s.node c).parent = some r)
    (hr : r ∈ L) (hr' : r' ∈ L) (hne : r ≠ r') : Children s' L d := by
  have hnot : ∀ x ∈ L, x ≠ r → c ∉ (s.node x).children := fun x hx hxr hmem =>
    hxr (Option.some.inj (((hs.mem x hx c).mp hmem).2.2.symm.trans hc))
  refine ⟨fun x hx y => ?_, fun x hx => ?_⟩
  · rw [h.children, h.parent]
    by_cases hxr : x = r
    · subst hxr
      rw [if_pos rfl, (hs.nodup x hx).mem_erase_iff, hs.mem x hx y]
      by_cases hy : y = c
      · rw [if_pos hy]
        exact iff_of_false (fun hc' => hc'.1 hy) fun hc' => hne (Option.some.inj hc'.2.2).symm
      · rw [if_neg hy]
        exact and_iff_right hy
    · rw [if_neg hxr]
      by_cases hxr' : x = r'
      · subst hxr'
        rw [if_pos rfl, List.mem_cons]
        by_cases hy : y = c
        · rw [if_pos hy, hy]
          exact iff_of_true (Or.inl rfl) ⟨hcL, hcd, rfl⟩
        · rw [if_neg hy, hs.mem x hx y]
          exact or_iff_right hy
      · rw [if_neg hxr']
        by_cases hy : y = c
        · rw [if_pos hy, hy]
          exact iff_of_false (hnot x hx hxr) fun hc' => hxr' (Option.some.inj hc'.2.2).symm
        · rw [if_neg hy, hs.mem x hx y]
  · rw [h.children]
    split_ifs with hxr hxr'
    · exact (hs.nodup r hr).erase c
    · exact List.nodup_cons.mpr ⟨hnot r' hr' (Ne.symm hne), hs.nodup r' hr'⟩
    · exact hs.nodup x hx

/-- the queue entry of a child that has one is moved -/
def moveEntry (s : Tree T) (src dst c : ℕ) : Tree T := if (s.node c).queued then (s.erase src c).push dst c else s

theorem moveEntry_same (s : Tree T) (src dst c : ℕ) : SameLinks s (moveEntry s src dst c) ∧ SameState s (moveEntry s src dst c) := by
  unfold moveEntry
  split_ifs
  · exact ⟨(setHeap_sameLinks s src _).trans (setHeap_sameLinks _ dst _), (setHeap_sameState s src _).trans (setHeap_sameState _ dst _)⟩
  · exact ⟨SameLinks.refl s, SameState.refl s⟩

theorem moveEntry_heaps (hs : Queues s L) (hsrc : src ∈ L) (hdst : dst ∈ L) (hc : (s.node c).parent = some src) :
    Heaps (moveEntry s src dst c) L ∧ ∀ q ∈ L, ∀ x, x ∈ ((moveEntry s src dst c).node q).queue ↔
      if x = c then q = dst ∧ (s.node c).queued = true else x ∈ (s.node q).queue := by
  have hown : ∀ q ∈ L, c ∈ (s.node q).queue → q = src := fun q hq hmem =>
    (Option.some.inj (hc.symm.trans ((hs.mem q hq c).mp hmem).2.1)).symm
  unfold moveEntry
  cases hcq : (s.node c).queued with
  | true =>
    rw [if_pos rfl]
    obtain ⟨herase, hmem⟩ := hs.heaps.erase hsrc c
    have hout : ∀ q ∈ L, c ∉ ((s.erase src c).node q).queue := fun q hq hin =>
      ((hmem q c).mp hin).2 ⟨hown q hq ((hmem q c).mp hin).1, rfl⟩
    obtain ⟨hpush, hmem'⟩ := herase.push hdst hout
    refine ⟨hpush, fun q hq x => ?_⟩
    rw [hmem', hmem]
    by_cases hx : x = c
    · rw [if_pos hx, hx]
      refine ⟨fun h => ⟨h.elim (fun h => absurd ⟨hown q hq h.1, rfl⟩ h.2) And.left, rfl⟩, fun h => Or.inr ⟨h.1, rfl⟩⟩
    · rw [if_neg hx]
      exact (or_iff_left fun h => hx h.2).trans (and_iff_left fun h => hx h.2)
  | false =>
    rw [if_neg Bool.false_ne_true]
    refine ⟨hs.heaps, fun q hq x => ?_⟩
    by_cases hx : x = c
    · rw [if_pos hx, hx]
      exact iff_of_false (hs.not_queued hcq q hq) fun h => Bool.false_ne_true h.2
    · rw [if_neg hx]

theorem Children.head_parent {rest : List ℕ} (hs : Children s L d) (hr : r ∈ L) (hch : (s.node r).children = c :: rest) :
    c ∈ L ∧ c ≠ d ∧ (s.node c).parent = some r :=
  (hs.mem r hr c).mp (hch ▸ List.mem_cons_self)

/-- the first child is taken off one list and put onto another; entries may be moved between these steps -/
theorem relink_spec {rest : List ℕ} (hne : src ≠ dst) (hch : (s.node src).children = c :: rest) (hlinks : SameLinks (s.setChildren src rest) s')
    (hstate : SameState (s.setChildren src rest) s') :
    Relinked s ((s'.childrenPush dst c).setParent c (some dst)) c src dst ∧
      SameEntries s' ((s'.childrenPush dst c).setParent c (some dst)) := by
  have h₁ : LinkChange s (s.setChildren src rest) (fun x => (s.node x).parent) fun x => if x = src then rest else (s.node x).children :=
    setChildren_change s src fun _ => rest
  have h₃ : LinkChange s' (s'.childrenPush dst c) (fun x => (s'.node x).parent)
      fun x => if x = dst then c :: (s'.node dst).children else (s'.node x).children := setChildren_change s' dst fun l => c :: l
  have h₄ := setParent_change (s'.childrenPush dst c) c (some dst)
  refine ⟨⟨fun x => ?_, fun x => ?_, ((h₁.state.trans hstate).trans h₃.state).trans h₄.state⟩,
    ⟨fun x => (h₄.entries.queue x).trans (h₃.entries.queue x), fun x => (h₄.entries.index x).trans (h₃.entries.index x)⟩⟩
  · refine (h₄.parent x).trans ?_
    split_ifs
    · rfl
    · exact (h₃.parent x).trans ((hlinks.parent x).trans (h₁.parent x))
  · have hold : ∀ y, (s'.node y).children = if y = src then rest else (s.node y).children := fun y =>
      (hlinks.children y).trans (h₁.children y)
    refine (h₄.children x).trans ((h₃.children x).trans ?_)
    rw [hold, hold, if_neg (Ne.symm hne), hch, List.erase_cons_head]
    by_cases hx : x = src
    · rw [if_neg fun h => hne (hx.symm.trans h), if_pos hx, if_pos hx]
    · rw [if_neg hx, if_neg hx]

theorem moveChild_relinked {rest : List ℕ} (hne : src ≠ dst) (hch : (s.node src).children = c :: rest) :
    Relinked s (s.moveChild src dst c rest) c src dst ∧
      SameEntries (moveEntry (s.setChildren src rest) src dst c) (s.moveChild src dst c rest) :=
  relink_spec hne hch (moveEntry_same (s.setChildren src rest) src dst c).1 (moveEntry_same (s.setChildren src rest) src dst c).2

theorem moveChild_queues {rest : List ℕ} (hs : Queues s L) (hne : src ≠ dst) (hch : (s.node src).children = c :: rest) (hsrc : src ∈ L)
    (hdst : dst ∈ L) (hc : (s.node c).parent = some src) (hcL : c ∈ L) : Queues (s.moveChild src dst c rest) L := by
  have h₁ : LinkChange s (s.setChildren src rest) (fun x => (s.node x).parent) fun x => if x = src then rest else (s.node x).children :=
    setChildren_change s src fun _ => rest
  have hs₁ : Queues (s.setChildren src rest) L :=
    hs.congr (fun x _ => h₁.parent x) (fun p _ => h₁.entries.queue p) h₁.entries.index fun x _ => h₁.state.queued x
  obtain ⟨hheaps, hmem⟩ := moveEntry_heaps hs₁ hsrc hdst ((h₁.parent c).trans hc)
  obtain ⟨hrelinked, hentries⟩ := moveChild_relinked hne hch
  refine ⟨hheaps.congr (fun p _ => hentries.queue p) hentries.index, fun q hq x => ?_⟩
  rw [hentries.queue, hmem q hq x, hrelinked.parent, hrelinked.state.queued]
  by_cases hx : x = c
  · rw [if_pos hx, if_pos hx, hx, h₁.state.queued]
    refine ⟨fun h => ⟨hcL, by rw [h.1], h.2⟩, fun h => ⟨(Option.some.inj h.2.1).symm, h.2.2⟩⟩
  · rw [if_neg hx, if_neg hx]
    exact (hs₁.mem q hq x).trans (by rw [h₁.parent, h₁.state.queued])

/-- children are being moved from `src` to `dst`, which hangs nowhere yet -/
structure Moving (L : List ℕ) (src dst : ℕ) (s : Tree T) : Prop where
  parents : Parents s L
  rooted : Rooted s L dst
  children : Children s L dst
  queues : Queues s L
  srcMem : src ∈ L
  dstMem : dst ∈ L
  ne : src ≠ dst
  off : ¬ Above s.up dst src
  dstParent : ∀ r, (s.node dst).parent = some r → r = src

theorem Moving.step {rest : List ℕ} (h : Moving L src dst s) (hch : (s.node src).children = c :: rest) :
    Moving L src dst (s.moveChild src dst c rest) := by
  obtain ⟨hcL, hcd, hc⟩ := h.children.head_parent h.srcMem hch
  obtain ⟨hrelinked, -⟩ := moveChild_relinked h.ne hch
  have hc0 : c ≠ root := fun h0 => by simp [h0, h.parents.rootParent] at hc
  have hsrc : ¬ Above s.up c src := h.parents.grounded.not_above hc
  have hdst : ¬ Above s.up c dst := by
    intro habove
    rcases above_cases habove with heq | ⟨r, hr, habove⟩
    · exact hcd heq
    · exact hsrc (h.dstParent r hr ▸ habove)
  refine ⟨h.parents.reparent hrelinked.parent hc0 (fun q hq => Option.some.inj hq ▸ ⟨h.dstMem, hdst⟩) hrelinked.state, fun x hx h0 hd => ?_,
    hrelinked.childrenOk h.children hcL hcd hc h.srcMem h.dstMem h.ne, moveChild_queues h.queues h.ne hch h.srcMem h.dstMem hc hcL, h.srcMem, h.dstMem, h.ne,
    ?_, fun r hr => ?_⟩
  · rw [hrelinked.parent]
    split_ifs
    · simp
    · exact h.rooted x hx h0 hd
  · rw [hrelinked.up, above_update (some dst) hsrc]
    exact h.off
  · rw [hrelinked.parent, if_neg (Ne.symm hcd)] at hr
    exact h.dstParent r hr

/-- all children have been moved -/
structure Moved (src dst : ℕ) (s s' : Tree T) : Prop where
  parent : ∀ x, (s'.node x).parent = if x ∈ (s.node src).children then some dst else (s.node x).parent
  children : (s'.node src).children = []
  state : SameState s s'

theorem moveChildren_moved {fuel : ℕ} (h : Moving L src dst s) (hfuel : (s.node src).children.length ≤ fuel) :
    Moving L src dst (Tree.moveChildren src dst fuel s) ∧ Moved src dst s (Tree.moveChildren src dst fuel s) := by
  have hnil : ∀ {s : Tree T}, (s.node src).children = [] → Moved src dst s s := fun {s} hnil =>
    ⟨fun x => by rw [hnil, if_neg List.not_mem_nil], hnil, SameState.refl s⟩
  induction fuel generalizing s with
  | zero => exact ⟨h, hnil (List.length_eq_zero_iff.mp (Nat.le_zero.mp hfuel))⟩
  | succ fuel ih =>
    rw [Tree.moveChildren]
    cases hch : (s.node src).children with
    | nil => exact ⟨h, hnil hch⟩
    | cons c rest =>
      dsimp only
      obtain ⟨hrelinked, -⟩ := moveChild_relinked h.ne hch
      have hrest : ((s.moveChild src dst c rest).node src).children = rest := by
        rw [hrelinked.children, if_pos rfl, hch, List.erase_cons_head]
      have hfuel' : ((s.moveChild src dst c rest).node src).children.length ≤ fuel := by
        rw [hch] at hfuel
        rw [hrest]
        exact Nat.le_of_succ_le_succ hfuel
      obtain ⟨hmoving, hmoved⟩ := ih (h.step hch) hfuel'
      refine ⟨hmoving, fun x => ?_, hmoved.children, hrelinked.state.trans hmoved.state⟩
      rw [hmoved.parent, hrest, hrelinked.parent, hch]
      by_cases hx : x = c
      · rw [if_pos hx, hx, if_pos List.mem_cons_self, ite_self]
      · rw [if_neg hx]
        simp only [List.mem_cons, hx, false_or]

/-! ## A node gets another parent -/

/-- a node that hangs nowhere; the nodes it was under are settled -/
structure Detached (L : List ℕ) (n : ℕ) (s s' : Tree T) : Prop where
  parents : Parents s' L
  rooted : Rooted s' L n
  children : Children s' L n
  queues : Queues s' L
  settled : Settled s' L fun x => x = n
  idle : (s'.node n).queued = false
  parent : ∀ x, (s'.node x).parent = if x = n then none else (s.node x).parent
  active : ∀ x, (s'.node x).active = (s.node x).active
  shadow : ∀ x, (s'.node x).shadow = (s.node x).shadow
  id : ∀ x, (s'.node x).id = (s.node x).id
  live : s'.live = s.live
  next : s'.next = s.next
  count : s'.nodeCount = s.nodeCount

/-- the first steps of `_change_parent` -/
def detachFrom (s : Tree T) (p n : ℕ) : Tree T :=
  let s := s.childrenRemove p n
  let s := if (s.node n).queued then (s.dequeue p n).unqueueUp p else s
  s.setParent n none

theorem childrenRemove_change (s : Tree T) (p n : ℕ) :
    LinkChange s (s.childrenRemove p n) (fun x => (s.node x).parent)
      fun x => if x = p then (s.node p).children.erase n else (s.node x).children :=
  setChildren_change s p fun l => l.erase n

theorem childrenRemove_children (hparents : Parents s L) (h : Children s L root) (hp : (s.node n).parent = some p) :
    Children (s.childrenRemove p n) L n := by
  have hchange := childrenRemove_change s p n
  have hroot : ∀ {x y : ℕ}, (s.node y).parent = some x → y ≠ root := fun hy h0 => by simp [h0, hparents.rootParent] at hy
  refine ⟨fun x hx y => ?_, fun x hx => ?_⟩
  · rw [hchange.children, hchange.parent]
    by_cases hxp : x = p
    · subst hxp
      rw [if_pos rfl, (h.nodup x hx).mem_erase_iff, h.mem x hx y]
      exact ⟨fun hy => ⟨hy.2.1, hy.1, hy.2.2.2⟩, fun hy => ⟨hy.2.1, hy.1, hroot hy.2.2, hy.2.2⟩⟩
    · rw [if_neg hxp, h.mem x hx y]
      refine ⟨fun hy => ⟨hy.1, fun hyn => ?_, hy.2.2⟩, fun hy => ⟨hy.1, hroot hy.2.2, hy.2.2⟩⟩
      exact hxp (Option.some.inj (hy.2.2.symm.trans (hyn ▸ hp)))
  · rw [hchange.children]
    split_ifs with hxp
    · exact (h.nodup p (hxp ▸ hx)).erase n
    · exact h.nodup x hx

/-- the entry of a node goes, and those above it that have nothing else queued -/
theorem unqueue_spec (hparents : Parents s L) (hrooted : Rooted s L root) (hqueues : Queues s L) (hsettled : Settled s L fun _ => False)
    (hn : n ∈ L) (hp : (s.node n).parent = some p) (hL : L.length ≤ s.live.length) :
    let s' := if (s.node n).queued then (s.dequeue p n).unqueueUp p else s
    SameLinks s s' ∧ Queues s' L ∧ (Settled s' L fun x => x = n) ∧ (s'.node n).queued = false := by
  have hpL : p ∈ L := hparents.closed n hn p hp
  have hn0 : n ≠ root := fun h0 => by simp [h0, hparents.rootParent] at hp
  have hlinks := dequeue_sameLinks s p n
  have hqueued := dequeue_queued s p n
  have hne : p ≠ n := fun heq => hparents.grounded.not_above hp (heq ▸ Above.refl p)
  dsimp only
  cases hnq : (s.node n).queued with
  | false =>
    rw [if_neg Bool.false_ne_true]
    exact ⟨SameLinks.refl s, hqueues, fun x hx h0 _ => hsettled x hx h0 id, hnq⟩
  | true =>
    rw [if_pos rfl]
    have hunqueuing : Unqueuing L n (s.dequeue p n) p := by
      refine ⟨hlinks.parents hparents, hlinks.rooted hrooted, hqueues.dequeue hpL hp, hpL, fun hp0 hb => ?_, fun x hx hx0 hout => ?_,
        Or.inr ?_, fun _ => by rw [hqueued, if_pos rfl]⟩
      · rw [hqueued, if_neg hne]
        refine (hsettled p hpL hp0 id).mpr (hb.imp (fun ha => (hlinks.active p).symm.trans ha) fun ⟨x, hx, hxp, hxq⟩ => ?_)
        rw [hqueued] at hxq
        split_ifs at hxq
        exact ⟨x, hx, (hlinks.parent x).symm.trans hxp, hxq⟩
      · obtain ⟨hxp, hxn⟩ := not_or.mp hout
        rw [hqueued, if_neg hxn, hsettled x hx hx0 id]
        refine (busy_congr (c := n) hlinks (fun y hy => by rw [hqueued, if_neg hy]) ?_).symm
        rw [hp]
        exact fun heq => hxp (Option.some.inj heq).symm
      · rw [hlinks.up]
        exact hparents.grounded.not_above hp
    obtain ⟨hlinks', hqueues', hsettled', hidle⟩ := unqueueUp_settled hunqueuing (hlinks.live.symm ▸ hL)
    exact ⟨hlinks.trans hlinks', hqueues', hsettled', hidle hn0⟩

theorem detachFrom_detached (h : Inv s L) (hn : n ∈ L) (hp : (s.node n).parent = some p) (hL : L.length ≤ s.live.length) :
    Detached L n s (detachFrom s p n) := by
  have hn0 : n ≠ root := fun h0 => by simp [h0, h.parents.rootParent] at hp
  have h₁ := childrenRemove_change s p n
  have hparents₁ : Parents (s.childrenRemove p n) L := h.parents.congr h₁.parent h₁.state.id (h₁.state.shadow root) h₁.state.next
  have hrooted₁ : Rooted (s.childrenRemove p n) L root := fun x hx h0 hd => (h₁.parent x).symm ▸ h.rooted x hx h0 hd
  have hqueues₁ : Queues (s.childrenRemove p n) L :=
    h.queues.congr (fun x _ => h₁.parent x) (fun q _ => h₁.entries.queue q) h₁.entries.index fun x _ => h₁.state.queued x
  have hsettled₁ : Settled (s.childrenRemove p n) L fun _ => False :=
    h.settled.congr h₁.state.active (fun x _ => h₁.parent x) fun x _ => h₁.state.queued x
  obtain ⟨hlinks, hqueues, hsettled, hidle⟩ := unqueue_spec hparents₁ hrooted₁ hqueues₁ hsettled₁ hn ((h₁.parent n).trans hp)
    (h₁.state.live.symm ▸ hL)
  have hchildren := hlinks.childrenOk (childrenRemove_children h.parents h.children hp)
  unfold detachFrom
  dsimp only at hlinks hqueues hsettled hidle hchildren ⊢
  generalize (if ((s.childrenRemove p n).node n).queued then ((s.childrenRemove p n).dequeue p n).unqueueUp p
    else s.childrenRemove p n) = s₂ at *
  have h₃ := setParent_change s₂ n none
  have hold : ∀ x, (s₂.node x).parent = (s.node x).parent := fun x => (hlinks.parent x).trans (h₁.parent x)
  refine ⟨?_, fun x hx h0 hxn => ?_, ⟨fun q hq x => ?_, fun q hq => ?_⟩, ⟨?_, fun q hq x => ?_⟩, fun x hx h0 hxn => ?_, ?_, fun x => ?_,
    fun x => ?_, fun x => ?_, fun x => ?_, ?_, ?_, ?_⟩
  · exact (hlinks.parents hparents₁).reparent h₃.parent hn0 (fun q hq => by simp at hq) h₃.state
  · rw [h₃.parent, if_neg hxn]
    exact hlinks.rooted hrooted₁ x hx h0 h0
  · rw [h₃.children, h₃.parent, hchildren.mem q hq x]
    exact and_congr_right fun _ => and_congr_right fun hxn => by rw [if_neg hxn]
  · rw [h₃.children]
    exact hchildren.nodup q hq
  · exact hqueues.heaps.congr (fun q _ => h₃.entries.queue q) h₃.entries.index
  · rw [h₃.entries.queue, h₃.parent, h₃.state.queued, hqueues.mem q hq x]
    by_cases hxn : x = n
    · rw [hxn, hidle]
      simp
    · rw [if_neg hxn]
  · rw [h₃.state.queued, hsettled x hx h0 hxn]
    refine (Busy.congr (h₃.state.active x) fun y _ => ?_).symm
    rw [h₃.parent, h₃.state.queued]
    by_cases hyn : y = n
    · rw [hyn, hidle]
      simp
    · rw [if_neg hyn]
  · exact (h₃.state.queued n).trans hidle
  · rw [h₃.parent, hold]
  · exact (h₃.state.active x).trans ((hlinks.active x).trans (h₁.state.active x))
  · exact (h₃.state.shadow x).trans ((hlinks.shadow x).trans (h₁.state.shadow x))
  · exact (h₃.state.id x).trans ((hlinks.id x).trans (h₁.state.id x))
  · exact h₃.state.live.trans (hlinks.live.trans h₁.state.live)
  · exact h₃.state.next.trans (hlinks.next.trans h₁.state.next)
  · exact h₃.state.count.trans (hlinks.count.trans h₁.state.count)

/-- what has happened to the tree when a node has a new parent -/
structure Hung (s s' : Tree T) (n q : ℕ) : Prop where
  parent : ∀ x, (s'.node x).parent = if x = n then some q else (s.node x).parent
  shadow : ∀ x, (s'.node x).shadow = (s.node x).shadow
  id : ∀ x, (s'.node x).id = (s.node x).id
  live : s'.live = s.live
  next : s'.next = s.next
  count : s'.nodeCount = s.nodeCount

/-- a node that hangs nowhere, and a node that it may be put under; this one is queued if it is busy, and may be if the other one is -/
structure Loose (L : List ℕ) (n q : ℕ) (s : Tree T) : Prop where
  parents : Parents s L
  rooted : Rooted s L n
  children : Children s L n
  queues : Queues s L
  mem : n ∈ L
  ne_root : n ≠ root
  parent : q ∈ L
  off : ¬ Above s.up n q
  idle : (s.node n).queued = false
  settled : Settled s L fun x => x = n ∨ x = q
  above : q ≠ root → (Busy s L q → (s.node q).queued = true) ∧ ((s.node q).queued = true → Busy s L q ∨ Busy s L n)

/-- a node is put under another -/
def hang (s : Tree T) (q n : ℕ) : Tree T := (s.childrenPush q n).setParent n (some q)

theorem hang_spec (h : Loose L n q s) :
    Hung s (hang s q n) n q ∧ Parents (hang s q n) L ∧ Rooted (hang s q n) L root ∧ Children (hang s q n) L root ∧ Queues (hang s q n) L ∧
      SameEntries s (hang s q n) ∧ SameState s (hang s q n) ∧ ∀ x, Busy (hang s q n) L x ↔ Busy s L x := by
  have h₁ : LinkChange s (s.childrenPush q n) (fun x => (s.node x).parent)
      fun x => if x = q then n :: (s.node q).children else (s.node x).children := setChildren_change s q fun l => n :: l
  have h₂ := setParent_change (s.childrenPush q n) n (some q)
  have hparent : ∀ x, ((hang s q n).node x).parent = if x = n then some q else (s.node x).parent := fun x =>
    (h₂.parent x).trans (by rw [h₁.parent])
  have hchildren : ∀ x, ((hang s q n).node x).children = if x = q then n :: (s.node q).children else (s.node x).children := fun x =>
    (h₂.children x).trans (h₁.children x)
  have hstate : SameState s (hang s q n) := h₁.state.trans h₂.state
  have hentries : SameEntries s (hang s q n) :=
    ⟨fun x => (h₂.entries.queue x).trans (h₁.entries.queue x), fun x => (h₂.entries.index x).trans (h₁.entries.index x)⟩
  have hnot : ∀ x ∈ L, n ∉ (s.node x).children := fun x hx hmem => ((h.children.mem x hx n).mp hmem).2.1 rfl
  have hroot : ∀ {x y : ℕ}, (s.node y).parent = some x → y ≠ root := fun hy h0 => by simp [h0, h.parents.rootParent] at hy
  refine ⟨⟨hparent, hstate.shadow, hstate.id, hstate.live, hstate.next, hstate.count⟩,
    h.parents.reparent hparent h.ne_root (fun r hr => Option.some.inj hr ▸ ⟨h.parent, h.off⟩) hstate, fun x hx h0 _ => ?_,
    ⟨fun x hx y => ?_, fun x hx => ?_⟩, ⟨h.queues.heaps.congr (fun x _ => hentries.queue x) hentries.index, fun x hx y => ?_⟩, hentries,
    hstate, fun x => Busy.congr (hstate.active x) fun y _ => ?_⟩
  · rw [hparent]
    split_ifs with hxn
    · simp
    · exact h.rooted x hx h0 hxn
  · rw [hchildren, hparent]
    by_cases hxq : x = q
    · subst hxq
      rw [if_pos rfl, List.mem_cons, h.children.mem x hx y]
      by_cases hyn : y = n
      · rw [if_pos hyn, hyn]
        exact iff_of_true (Or.inl rfl) ⟨h.mem, h.ne_root, rfl⟩
      · rw [if_neg hyn]
        exact ⟨fun hy => (hy.resolve_left hyn).imp_right fun hy => ⟨hroot hy.2, hy.2⟩, fun hy => Or.inr ⟨hy.1, hyn, hy.2.2⟩⟩
    · rw [if_neg hxq]
      by_cases hyn : y = n
      · rw [if_pos hyn, hyn]
        exact iff_of_false (hnot x hx) fun hy => hxq (Option.some.inj hy.2.2).symm
      · rw [if_neg hyn, h.children.mem x hx y]
        exact and_congr_right fun _ => ⟨fun hy => ⟨hroot hy.2, hy.2⟩, fun hy => ⟨hyn, hy.2⟩⟩
  · rw [hchildren]
    split_ifs
    · exact List.nodup_cons.mpr ⟨hnot q h.parent, h.children.nodup q h.parent⟩
    · exact h.children.nodup x hx
  · rw [hentries.queue, hparent, hstate.queued, h.queues.mem x hx y]
    by_cases hyn : y = n
    · rw [hyn, h.idle]
      simp
    · rw [if_neg hyn]
  · rw [hparent, hstate.queued]
    by_cases hyn : y = n
    · rw [hyn, h.idle]
      simp
    · rw [if_neg hyn]

/-- the last steps of `_change_parent` -/
def attachTo (s : Tree T) (q n : ℕ) : Tree T :=
  let s := hang s q n
  if (s.node n).active ∨ (s.node n).queue ≠ [] then s.queueUp n else s

theorem attachTo_inv (h : Loose L n q s) (hL : L.length ≤ s.live.length) : Inv (attachTo s q n) L ∧ Hung s (attachTo s q n) n q := by
  obtain ⟨hhung, hparents, hrooted, hchildren, hqueues, hentries, hstate, hbusy⟩ := hang_spec h
  have hiff : ((hang s q n).node n).active = true ∨ ((hang s q n).node n).queue ≠ [] ↔ Busy s L n := by
    rw [hstate.active, hentries.queue, h.queues.busy_iff h.mem]
  unfold attachTo
  dsimp only
  by_cases hb : Busy s L n
  · rw [if_pos (hiff.mpr hb)]
    have hqueuing : Queuing L (hang s q n) n := by
      refine ⟨hparents, hrooted, hqueues, h.mem, Or.inr ((hbusy n).mpr hb), fun x hx hx0 hout => ?_, fun x hx hx0 hpx hbx => ?_⟩
      · obtain ⟨hxn, hxq⟩ := not_or.mp hout
        rw [hhung.parent, if_pos rfl] at hxq
        rw [hstate.queued, hbusy]
        exact h.settled x hx hx0 (not_or.mpr ⟨hxn, fun hc => hxq (congrArg some hc.symm)⟩)
      · rw [hhung.parent, if_pos rfl] at hpx
        obtain rfl := Option.some.inj hpx
        rw [hstate.queued]
        exact (h.above hx0).1 ((hbusy q).mp hbx)
    obtain ⟨hlinks, hqueues', hsettled⟩ := queueUp_settled hqueuing (hstate.live.symm ▸ hL)
    refine ⟨⟨hlinks.parents hparents, hlinks.rooted hrooted, hlinks.childrenOk hchildren, hqueues', hsettled⟩,
      fun x => (hlinks.parent x).trans (hhung.parent x), fun x => (hlinks.shadow x).trans (hhung.shadow x),
      fun x => (hlinks.id x).trans (hhung.id x), hlinks.live.trans hhung.live, hlinks.next.trans hhung.next, hlinks.count.trans hhung.count⟩
  · rw [if_neg fun hc => hb (hiff.mp hc)]
    refine ⟨⟨hparents, hrooted, hchildren, hqueues, fun x hx hx0 _ => ?_⟩, hhung⟩
    rw [hstate.queued, hbusy]
    by_cases hxn : x = n
    · rw [hxn, h.idle]
      exact iff_of_false Bool.false_ne_true hb
    · by_cases hxq : x = q
      · rw [hxq] at hx0 ⊢
        exact ⟨fun hq => ((h.above hx0).2 hq).resolve_right hb, (h.above hx0).1⟩
      · exact h.settled x hx hx0 (not_or.mpr ⟨hxn, hxq⟩)

theorem changeParent_eq (s : Tree T) (n q : ℕ) (exclusive : Bool) (hp : (s.node n).parent = some p) :
    s.changeParent n q exclusive =
      attachTo (if exclusive then Tree.moveChildren q n ((detachFrom s p n).node q).children.length (detachFrom s p n) else detachFrom s p n)
        q n := by
  unfold Tree.changeParent
  rw [hp]
  rfl

/-- what a node is, and which nodes there are -/
structure Kept (s s' : Tree T) : Prop where
  shadow : ∀ x, (s'.node x).shadow = (s.node x).shadow
  id : ∀ x, (s'.node x).id = (s.node x).id
  live : s'.live = s.live
  next : s'.next = s.next
  count : s'.nodeCount = s.nodeCount

theorem Kept.refl (s : Tree T) : Kept s s := ⟨fun _ => rfl, fun _ => rfl, rfl, rfl, rfl⟩

theorem Kept.trans (h : Kept s s') (h' : Kept s' s'') : Kept s s'' where
  shadow x := (h'.shadow x).trans (h.shadow x)
  id x := (h'.id x).trans (h.id x)
  live := h'.live.trans h.live
  next := h'.next.trans h.next
  count := h'.count.trans h.count

theorem SameState.kept (h : SameState s s') : Kept s s' := ⟨h.shadow, h.id, h.live, h.next, h.count⟩

theorem Detached.kept (h : Detached L n s s') : Kept s s' := ⟨h.shadow, h.id, h.live, h.next, h.count⟩

theorem Hung.kept (h : Hung s s' n q) : Kept s s' := ⟨h.shadow, h.id, h.live, h.next, h.count⟩

theorem Detached.loose (h : Detached L n s s') (hn : n ∈ L) (hn0 : n ≠ root) (hq : q ∈ L) (hoff : ¬ Above s.up n q) : Loose L n q s' := by
  have hup : s'.up = Function.update s.up n none := by
    funext x
    rw [Function.update_apply]
    exact h.parent x
  have hqn : q ≠ n := fun heq => hoff (heq ▸ Above.refl q)
  refine ⟨h.parents, h.rooted, h.children, h.queues, hn, hn0, hq, ?_, h.idle, fun x hx h0 hout => h.settled x hx h0 fun hc => hout (Or.inl hc),
    fun hq0 => ?_⟩
  · rw [hup, above_update none hoff]
    exact hoff
  · have hsettled := h.settled q hq hq0 hqn
    exact ⟨hsettled.mpr, fun hqueued => Or.inl (hsettled.mp hqueued)⟩

/-- all children of the new parent go under the node first; what is queued below the parent is then queued below the node -/
theorem Loose.moveChildren (h : Loose L n q s) (hn : ∀ r, (s.node n).parent = some r → r = q) :
    Loose L n q (Tree.moveChildren q n (s.node q).children.length s) ∧ Moved q n s (Tree.moveChildren q n (s.node q).children.length s) := by
  have hqn : q ≠ n := fun heq => h.off (heq ▸ Above.refl q)
  have hmoving : Moving L q n s :=
    ⟨h.parents, h.rooted, h.children, h.queues, h.parent, h.mem, hqn, h.off, hn⟩
  obtain ⟨hmoving', hmoved⟩ := moveChildren_moved hmoving le_rfl
  generalize Tree.moveChildren q n (s.node q).children.length s = s' at hmoving' hmoved ⊢
  have hchild : ∀ y ∈ (s.node q).children, (s.node y).parent = some q := fun y hy => ((h.children.mem q h.parent y).mp hy).2.2
  have hidle : ∀ y, (s.node y).queued = true → y ≠ n := fun y hy heq => by
    rw [heq, h.idle] at hy
    exact Bool.false_ne_true hy
  have hbusy : ∀ x, x ≠ n → x ≠ q → (Busy s' L x ↔ Busy s L x) := by
    intro x hxn hxq
    refine Busy.congr (hmoved.state.active x) fun y _ => ?_
    rw [hmoved.state.queued, hmoved.parent]
    split_ifs with hy
    · rw [hchild y hy]
      simp [Ne.symm hxn, Ne.symm hxq]
    · exact Iff.rfl
  refine ⟨⟨hmoving'.parents, hmoving'.rooted, hmoving'.children, hmoving'.queues, h.mem, h.ne_root, h.parent, hmoving'.off,
    (hmoved.state.queued n).trans h.idle, fun x hx h0 hout => ?_, fun hq0 => ⟨fun hb => ?_, fun hqueued => ?_⟩⟩, hmoved⟩
  · obtain ⟨hxn, hxq⟩ := not_or.mp hout
    rw [hmoved.state.queued, hbusy x hxn hxq]
    exact h.settled x hx h0 hout
  · rw [hmoved.state.queued]
    refine (h.above hq0).1 (hb.imp (fun ha => (hmoved.state.active q).symm.trans ha) fun ⟨y, hy, hyq, hqueued⟩ => ?_)
    have hmem : y ∈ (s'.node q).children := (hmoving'.children.mem q h.parent y).mpr
      ⟨hy, hidle y ((hmoved.state.queued y).symm.trans hqueued), hyq⟩
    rw [hmoved.children] at hmem
    exact absurd hmem List.not_mem_nil
  · rw [hmoved.state.queued] at hqueued
    have hmove : ∀ y ∈ L, (s.node y).queued = true → (s'.node y).parent = some n → Busy s' L n := fun y hy hyq hp =>
      Or.inr ⟨y, hy, hp, (hmoved.state.queued y).trans hyq⟩
    rcases (h.above hq0).2 hqueued with (ha | ⟨y, hy, hyq, hyqueued⟩) | ha | ⟨y, hy, hyn, hyqueued⟩
    · exact Or.inl (Or.inl ((hmoved.state.active q).trans ha))
    · have hmem : y ∈ (s.node q).children := (h.children.mem q h.parent y).mpr ⟨hy, hidle y hyqueued, hyq⟩
      exact Or.inr (hmove y hy hyqueued (by rw [hmoved.parent, if_pos hmem]))
    · exact Or.inr (Or.inl ((hmoved.state.active n).trans ha))
    · refine Or.inr (hmove y hy hyqueued ?_)
      rw [hmoved.parent]
      split_ifs
      · rfl
      · exact hyn

theorem changeParent_inv (h : Inv s L) (hn : n ∈ L) (hp : (s.node n).parent = some p) (hq : q ∈ L) (hoff : ¬ Above s.up n q)
    (exclusive : Bool) (hL : L.length ≤ s.live.length) :
    Inv (s.changeParent n q exclusive) L ∧ Kept s (s.changeParent n q exclusive) ∧
      ∀ x, ((s.changeParent n q exclusive).node x).parent =
        if x = n then some q else if exclusive = true ∧ x ∈ (s.node q).children then some n else (s.node x).parent := by
  have hn0 : n ≠ root := fun h0 => by simp [h0, h.parents.rootParent] at hp
  have hdetached := detachFrom_detached h hn hp hL
  have hloose := hdetached.loose hn hn0 hq hoff
  have hlive : L.length ≤ (detachFrom s p n).live.length := hdetached.live.symm ▸ hL
  rw [changeParent_eq s n q exclusive hp]
  cases exclusive with
  | false =>
    obtain ⟨hinv, hhung⟩ := attachTo_inv hloose hlive
    refine ⟨hinv, hdetached.kept.trans hhung.kept, fun x => (hhung.parent x).trans ?_⟩
    rw [hdetached.parent]
    by_cases hx : x = n
    · rw [if_pos hx, if_pos hx]
    · rw [if_neg hx, if_neg hx, if_neg hx, if_neg fun hc => Bool.false_ne_true hc.1]
  | true =>
    have hnone : ((detachFrom s p n).node n).parent = none := (hdetached.parent n).trans (if_pos rfl)
    obtain ⟨hloose', hmoved⟩ := hloose.moveChildren fun r hr => by simp [hnone] at hr
    obtain ⟨hinv, hhung⟩ := attachTo_inv hloose' (hmoved.state.live.symm ▸ hlive)
    refine ⟨hinv, (hdetached.kept.trans hmoved.state.kept).trans hhung.kept, fun x => (hhung.parent x).trans ?_⟩
    rw [hmoved.parent, hdetached.parent]
    by_cases hx : x = n
    · rw [if_pos hx, if_pos hx]
    · -- the children but the node itself are those that the new parent had
      have hchild : x ∈ ((detachFrom s p n).node q).children ↔ true = true ∧ x ∈ (s.node q).children := by
        rw [hdetached.children.mem q hq x, h.children.mem q hq x, hdetached.parent, if_neg hx]
        refine ⟨fun hc => ⟨rfl, hc.1, fun h0 => ?_, hc.2.2⟩, fun hc => ⟨hc.2.1, hx, hc.2.2.2⟩⟩
        rw [h0, h.parents.rootParent] at hc
        exact Option.some_ne_none q hc.2.2.symm
      rw [if_neg hx, if_neg hx, if_neg hx]
      simp only [hchild]

end TrafficServer.Http2.DependencyTree
