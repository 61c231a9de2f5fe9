/-
What `reprioritize` does to the dependency tree (`proxy/http2/Http2DependencyTree.h`).

A node that gets another parent becomes a child of it, alone if the change is exclusive, and a new parent that was below the node has become a
child of the node's parent before (`Follows`). `_change_parent` does this, twice if need be (`moveBelow_follows`). But `reprioritize` does
nothing if the parent has the id already, also when the node should become the only child; nothing if the search does not come to the new
parent; and a shadow node that is left without children goes.

`reprioritize_follows_iff`: these are all the exceptions. `exclusive_ignored` is the first of them.
-/
import TrafficServer.Http2.DependencyTreeOrder

namespace TrafficServer.Http2.DependencyTree

open TrafficServer.IndexedHeap TrafficServer.Forest

variable {T : Type} {s s' s'' : Tree T} {n p m : ℕ} {newParentId : BitVec 32} {exclusive : Bool}

/-- the tree after a change of the parent of `n` to `m` -/
structure Follows (s s' : Tree T) (n m : ℕ) (exclusive : Bool) : Prop where
  nodes : s'.live = s.live
  child : (s'.node n).parent = some m ∧ n ∈ (s'.node m).children
  only : exclusive = true → (s'.node m).children = [n] ∧
    ∀ x ∈ (s.node m).children, x ≠ n → (s'.node x).parent = some n ∧ x ∈ (s'.node n).children
  lifted : Above s.up n m → (s'.node m).parent = (s.node n).parent
  others : ∀ x ∈ s.live, x ≠ n → (exclusive = true → x ∉ (s.node m).children) → (x = m → ¬ Above s.up n m) →
    (s'.node x).parent = (s.node x).parent

/-- the trees on which `reprioritize` is called: those of a connection, and within `add` one whose shadow node has got its stream -/
inductive AtCall : Tree T → Prop
  | reachable {s : Tree T} (h : Reachable T s) : AtCall s
  | vivified {s : Tree T} {n : ℕ} (h : Reachable T s) (hshadow : (s.node n).shadow = true) (id weight : BitVec 32) (t : Option T) :
    AtCall (vivify s n id weight t)

/-- the node is not one of a stream, and has no children when it has been moved -/
def LeftBare (s : Tree T) (n m : ℕ) (exclusive : Bool) : Prop :=
  (s.node n).shadow = true ∧ (s.node n).active = false ∧ (∀ x ∈ (s.node n).children, x = m) ∧
    (exclusive = true → (s.node m).children = [])

/-- the node is where it should be, or it is moved and stays -/
def MoveOk (s : Tree T) (n p m : ℕ) (newParentId : BitVec 32) (exclusive : Bool) : Prop :=
  ((s.node p).id = newParentId → p = m ∧ (exclusive = true → (s.node m).children = [n])) ∧
    ((s.node p).id ≠ newParentId → s.find newParentId = some m ∧ ¬ LeftBare s n m exclusive)

theorem AtCall.consistent (h : AtCall s) : Consistent s := by
  cases h with
  | reachable h => exact run_consistent h
  | vivified h hshadow id weight t => exact vivify_consistent (run_consistent h) hshadow t id weight

theorem Consistent.mem_children (h : Consistent s) (hp : p ∈ s.live) (x : ℕ) :
    x ∈ (s.node p).children ↔ x ∈ s.live ∧ (s.node x).parent = some p := h.oneTree.children p hp x

theorem Consistent.ne_parent (h : Consistent s) (hp : (s.node n).parent = some p) : p ≠ n :=
  fun heq => h.inv.parents.grounded.not_above hp (heq ▸ Above.refl p)

/-! ## The node is moved -/

theorem moveBelow_parent (h : Consistent s) (hn : n ∈ s.live) (hp : (s.node n).parent = some p) (hm : s.find newParentId = some m)
    (hne : m ≠ n) (hpm : p ≠ m) (exclusive : Bool) :
    let s' := moveBelow s n p m newParentId exclusive
    Kept s s' ∧ (s'.node n).parent = some m ∧
      (exclusive = true → ∀ x ∈ (s.node m).children, x ≠ n → (s'.node x).parent = some n) ∧
      (Above s.up n m → (s'.node m).parent = some p) ∧
      ∀ x, x ≠ n → (exclusive = true → x ∉ (s.node m).children) → (x = m → ¬ Above s.up n m) → (s'.node x).parent = (s.node x).parent := by
  obtain ⟨hmL, -⟩ := find_some h.inv hm
  obtain ⟨hlifted, hkept, ⟨hlift, hsame⟩, hoff⟩ := liftParent_spec h hn hp hm hne
  have hp' : ((liftParent s n p m newParentId).node n).parent = some p := (hsame n fun hnm => absurd hnm.symm hne).trans hp
  obtain ⟨-, hkept', hparent⟩ := changeParent_consistent hlifted (hkept.live.symm ▸ hn) hp' (hkept.live.symm ▸ hmL) hoff exclusive
  have hself : m ∉ (s.node m).children := fun hc => h.ne_parent ((h.mem_children hmL m).mp hc).2 rfl
  -- a new parent that is lifted takes its children along
  have hchildren : ∀ x, x ∈ ((liftParent s n p m newParentId).node m).children ↔ x ∈ (s.node m).children := by
    intro x
    rw [hlifted.mem_children (hkept.live.symm ▸ hmL), h.mem_children hmL, hkept.live]
    by_cases hx : x = m ∧ Above s.up n m
    · rw [hx.1, hlift hx.2]
      refine iff_of_false (fun hc => hpm (Option.some.inj hc.2)) fun hc => ?_
      exact h.ne_parent hc.2 rfl
    · rw [hsame x fun hxm habove => hx ⟨hxm, habove⟩]
  refine ⟨hkept.trans hkept', ?_, fun hex x hx hxn => ?_, fun habove => ?_, fun x hxn hxm hlow => ?_⟩
  · exact (hparent n).trans (if_pos rfl)
  · exact (hparent x).trans (by rw [if_neg hxn, if_pos ⟨hex, (hchildren x).mpr hx⟩])
  · refine (hparent m).trans ?_
    rw [if_neg hne, if_neg fun hc => hself ((hchildren m).mp hc.2)]
    exact hlift habove
  · refine (hparent x).trans ?_
    rw [if_neg hxn, if_neg fun hc => hxm hc.1 ((hchildren x).mp hc.2)]
    exact hsame x hlow

theorem moveBelow_follows (h : Consistent s) (hn : n ∈ s.live) (hp : (s.node n).parent = some p) (hm : s.find newParentId = some m)
    (hne : m ≠ n) (hpm : p ≠ m) (exclusive : Bool) : Follows s (moveBelow s n p m newParentId exclusive) n m exclusive := by
  obtain ⟨hmL, -⟩ := find_some h.inv hm
  obtain ⟨hcons, hnL⟩ := moveBelow_consistent h hn hp hm hne exclusive
  obtain ⟨hkept, hchild, honly, hlift, hothers⟩ := moveBelow_parent h hn hp hm hne hpm exclusive
  have hmL' : m ∈ (moveBelow s n p m newParentId exclusive).live := hkept.live.symm ▸ hmL
  refine ⟨hkept.live, ⟨hchild, (hcons.mem_children hmL' n).mpr ⟨hnL, hchild⟩⟩, fun hex => ⟨?_, fun x hx hxn => ?_⟩, fun habove => ?_,
    fun x _ => hothers x⟩
  · have hall : ∀ x, x ∈ ((moveBelow s n p m newParentId exclusive).node m).children ↔ x ∈ [n] := by
      intro x
      rw [hcons.mem_children hmL', hkept.live, List.mem_singleton]
      constructor
      · intro ⟨hxL, hxm⟩
        by_contra hxn
        by_cases hx : x ∈ (s.node m).children
        · rw [honly hex x hx hxn] at hxm
          exact hne (Option.some.inj hxm).symm
        · by_cases hlow : x = m ∧ Above s.up n m
          · rw [hlow.1, hlift hlow.2] at hxm
            exact hpm (Option.some.inj hxm)
          · rw [hothers x hxn (fun _ => hx) fun hxm' habove => hlow ⟨hxm', habove⟩] at hxm
            exact hx ((h.mem_children hmL x).mpr ⟨hxL, hxm⟩)
      · intro hxn
        rw [hxn]
        exact ⟨hn, hchild⟩
    exact List.perm_singleton.mp ((List.perm_ext_iff_of_nodup (hcons.inv.children.nodup m hmL') (List.nodup_singleton n)).mpr hall)
  · have hparent := honly hex x hx hxn
    refine ⟨hparent, (hcons.mem_children hnL x).mpr ⟨?_, hparent⟩⟩
    rw [hkept.live]
    exact ((h.mem_children hmL x).mp hx).1
  · rw [hlift habove, hp]

/-! ## What is removed afterwards -/

theorem climb_active {cond : Tree T → ℕ → Bool} {body : Tree T → ℕ → ℕ → Tree T} {x : ℕ}
    (hbody : ∀ s n p, ((body s n p).node x).active = (s.node x).active) (fuel : ℕ) (s : Tree T) (n : ℕ) :
    ((Tree.climb cond body fuel s n).1.node x).active = (s.node x).active := by
  induction fuel generalizing s n with
  | zero => rfl
  | succ fuel ih =>
    rw [Tree.climb]
    cases (s.node n).parent with
    | none => rfl
    | some p =>
      dsimp only
      split_ifs
      · exact (ih _ p).trans (hbody s n p)
      · rfl

theorem hang_active (s : Tree T) (q n x : ℕ) : ((hang s q n).node x).active = (s.node x).active :=
  ((setParent_change (s.childrenPush q n) n (some q)).state.active x).trans ((setChildren_change s q fun l => n :: l).state.active x)

theorem moveChildren_active (src dst fuel : ℕ) (s : Tree T) (x : ℕ) :
    ((Tree.moveChildren src dst fuel s).node x).active = (s.node x).active := by
  induction fuel generalizing s with
  | zero => rfl
  | succ fuel ih =>
    rw [Tree.moveChildren]
    cases (s.node src).children with
    | nil => rfl
    | cons c rest =>
      have hmove : ((s.moveChild src dst c rest).node x).active = (s.node x).active :=
        ((hang_active _ dst c x).trans ((moveEntry_same (s.setChildren src rest) src dst c).2.active x)).trans
          ((setChildren_change s src fun _ => rest).state.active x)
      exact (ih _).trans hmove

theorem detachFrom_active (s : Tree T) (p n x : ℕ) : ((detachFrom s p n).node x).active = (s.node x).active := by
  have hentry : ∀ s : Tree T, ((if (s.node n).queued then (s.dequeue p n).unqueueUp p else s).node x).active = (s.node x).active := by
    intro s
    split_ifs
    · exact (climb_active (fun s n p => (dequeue_sameLinks s p n).active x) _ _ p).trans ((dequeue_sameLinks s p n).active x)
    · rfl
  exact (((setParent_change _ n none).state.active x).trans (hentry _)).trans ((childrenRemove_change s p n).state.active x)

theorem attachTo_active (s : Tree T) (q n x : ℕ) : ((attachTo s q n).node x).active = (s.node x).active := by
  unfold attachTo
  dsimp only
  split_ifs
  · exact (climb_active (fun s n p => (enqueue_sameLinks s p n).active x) _ _ n).trans (hang_active s q n x)
  · exact hang_active s q n x

theorem changeParent_active (s : Tree T) (n q : ℕ) (exclusive : Bool) (x : ℕ) :
    ((s.changeParent n q exclusive).node x).active = (s.node x).active := by
  cases hp : (s.node n).parent with
  | none => rw [Tree.changeParent, hp]
  | some p =>
    rw [changeParent_eq s n q exclusive hp, attachTo_active]
    cases exclusive with
    | false => exact detachFrom_active s p n x
    | true => exact (moveChildren_active q n _ _ x).trans (detachFrom_active s p n x)

theorem moveBelow_active (s : Tree T) (n p m : ℕ) (newParentId : BitVec 32) (exclusive : Bool) (x : ℕ) :
    ((moveBelow s n p m newParentId exclusive).node x).active = (s.node x).active := by
  rw [moveBelow, changeParent_active, liftParent]
  split_ifs
  · exact changeParent_active s m p false x
  · rfl

theorem takeOut_live (s : Tree T) (p n : ℕ) : (takeOut (s.addAncestor n) p n).live = s.live :=
  (takeOut_steady _ p n).live.trans (addAncestor_steady s n).live

theorem removeShadow_sublist {fuel : ℕ} (h : ∀ (s : Tree T) (n : ℕ), (Tree.removeLoop fuel s n).live.Sublist s.live) (s : Tree T)
    (p n : ℕ) : (removeShadow fuel (takeOut (s.addAncestor n) p n) p).live.Sublist s.live := by
  rw [← takeOut_live s p n]
  unfold removeShadow
  split_ifs
  · exact h _ p
  · exact List.Sublist.refl _

theorem removeLoop_sublist (fuel : ℕ) (s : Tree T) (n : ℕ) : (Tree.removeLoop fuel s n).live.Sublist s.live := by
  induction fuel generalizing s n with
  | zero => exact List.Sublist.refl _
  | succ fuel ih =>
    by_cases hcond : n = root ∨ (s.node n).active = true
    · rw [Tree.removeLoop, if_pos hcond]
    · cases hp : (s.node n).parent with
      | none =>
        rw [Tree.removeLoop, if_neg hcond, hp]
      | some p =>
        rw [removeLoop_succ fuel hcond hp]
        exact (List.erase_sublist ..).trans (removeShadow_sublist ih s p n)

/-- a node that is removed is gone -/
theorem remove_gone (h : Consistent s) (hn : n ∈ s.live) (hn0 : n ≠ root) (hidle : (s.node n).active = false) : n ∉ (s.remove n).live := by
  have hcond : ¬ (n = root ∨ (s.node n).active = true) := by
    rintro (hc | hc)
    · exact hn0 hc
    · exact Bool.false_ne_true (hidle.symm.trans hc)
  obtain ⟨p, hp⟩ := Option.ne_none_iff_exists'.mp (h.inv.rooted n hn hn0 hn0)
  obtain ⟨fuel, hfuel⟩ := Nat.exists_eq_succ_of_ne_zero (List.length_pos_of_mem hn).ne'
  have hnodup : (removeShadow fuel (takeOut (s.addAncestor n) p n) p).live.Nodup :=
    List.Nodup.sublist (removeShadow_sublist (removeLoop_sublist fuel) s p n) h.inv.parents.nodup
  rw [Tree.remove, hfuel, removeLoop_succ fuel hcond hp]
  exact fun hc => (hnodup.mem_erase_iff.mp hc).1 rfl

/-- when the node has no children behind the move -/
theorem moveBelow_bare (h : Consistent s) (hn : n ∈ s.live) (hp : (s.node n).parent = some p) (hm : s.find newParentId = some m)
    (hne : m ≠ n) (hpm : p ≠ m) (exclusive : Bool) :
    ((moveBelow s n p m newParentId exclusive).node n).children = [] ↔
      (∀ x ∈ (s.node n).children, x = m) ∧ (exclusive = true → (s.node m).children = []) := by
  obtain ⟨hmL, -⟩ := find_some h.inv hm
  obtain ⟨hcons, hnL⟩ := moveBelow_consistent h hn hp hm hne exclusive
  obtain ⟨hkept, hchild, honly, hlift, hothers⟩ := moveBelow_parent h hn hp hm hne hpm exclusive
  have hnm : n ∉ (s.node m).children := fun hc => hpm (Option.some.inj (hp.symm.trans ((h.mem_children hmL n).mp hc).2))
  rw [List.eq_nil_iff_forall_not_mem]
  constructor
  · intro hbare
    refine ⟨fun x hx => ?_, fun hex => List.eq_nil_iff_forall_not_mem.mpr fun x hx => ?_⟩
    · by_contra hxm
      obtain ⟨hxL, hxn⟩ := (h.mem_children hn x).mp hx
      have hxm' : x ∉ (s.node m).children := fun hc =>
        hne (Option.some.inj (((h.mem_children hmL x).mp hc).2.symm.trans hxn))
      have hparent := hothers x (h.ne_parent hxn).symm (fun _ => hxm') fun hc => absurd hc hxm
      exact hbare x ((hcons.mem_children hnL x).mpr ⟨hkept.live.symm ▸ hxL, hparent.trans hxn⟩)
    · have hxn : x ≠ n := fun hc => hnm (hc ▸ hx)
      have hxL := ((h.mem_children hmL x).mp hx).1
      exact hbare x ((hcons.mem_children hnL x).mpr ⟨hkept.live.symm ▸ hxL, honly hex x hx hxn⟩)
  · intro ⟨hchildren, hex⟩ x hx
    obtain ⟨hxL, hxn⟩ := (hcons.mem_children hnL x).mp hx
    have hne' : x ≠ n := (hcons.ne_parent hxn).symm
    have hxm : exclusive = true → x ∉ (s.node m).children := fun he => by simp [hex he]
    by_cases hlow : x = m ∧ Above s.up n m
    · rw [hlow.1, hlift hlow.2] at hxn
      exact h.ne_parent hp (Option.some.inj hxn)
    · rw [hothers x hne' hxm fun hc habove => hlow ⟨hc, habove⟩] at hxn
      have hxm' := hchildren x ((h.mem_children hn x).mpr ⟨hkept.live ▸ hxL, hxn⟩)
      exact hlow ⟨hxm', Above.of_parent (hxm' ▸ hxn) (Above.refl n)⟩

/-! ## `reprioritize` -/

/-- nothing is done -/
theorem follows_self_iff (h : Consistent s) (hn : n ∈ s.live) (hp : (s.node n).parent = some p) (exclusive : Bool) :
    Follows s s n m exclusive ↔ p = m ∧ (exclusive = true → (s.node m).children = [n]) := by
  constructor
  · intro hf
    exact ⟨Option.some.inj (hp.symm.trans hf.child.1), fun hex => (hf.only hex).1⟩
  · intro ⟨hpm, hex⟩
    subst hpm
    have hpL := h.inv.parents.closed n hn p hp
    refine ⟨rfl, ⟨hp, (h.mem_children hpL n).mpr ⟨hn, hp⟩⟩, fun he => ⟨hex he, fun x hx hxn => ?_⟩, fun habove => ?_, fun _ _ _ _ _ => rfl⟩
    · rw [hex he, List.mem_singleton] at hx
      exact absurd hx hxn
    · exact absurd habove (h.inv.parents.grounded.not_above hp)

/-- the node is moved, to whichever node was found, and goes if it is a shadow node without children -/
theorem dropShadow_follows_iff {q : ℕ} (h : Consistent s) (hn : IsNode s n) (hp : (s.node n).parent = some p)
    (hq : s.find newParentId = some q) (hne : q ≠ n) (hpq : p ≠ q) (exclusive : Bool) :
    Follows s (dropShadow (moveBelow s n p q newParentId exclusive) n).1 n m exclusive ↔ q = m ∧ ¬ LeftBare s n m exclusive := by
  obtain ⟨hnL, hn0⟩ := hn
  obtain ⟨hcons, hnL'⟩ := moveBelow_consistent h hnL hp hq hne exclusive
  obtain ⟨hkept, hchild, -⟩ := moveBelow_parent h hnL hp hq hne hpq exclusive
  have hbare := moveBelow_bare h hnL hp hq hne hpq exclusive
  have hactive := moveBelow_active s n p q newParentId exclusive n
  have hmoved : Follows s (moveBelow s n p q newParentId exclusive) n m exclusive ↔ q = m := by
    constructor
    · intro hf
      exact Option.some.inj (hchild.symm.trans hf.child.1)
    · rintro rfl
      exact moveBelow_follows h hnL hp hq hne hpq exclusive
  have hqueue : ((moveBelow s n p q newParentId exclusive).node n).children = [] →
      ((moveBelow s n p q newParentId exclusive).node n).queue = [] := by
    intro hnil
    refine (hcons.inv.queues.queue_eq_nil hnL').mpr fun ⟨x, hx, hxn, _⟩ => ?_
    have hmem := (hcons.mem_children hnL' x).mpr ⟨hx, hxn⟩
    rw [hnil] at hmem
    exact List.not_mem_nil hmem
  have hshadow := hkept.shadow n
  unfold dropShadow
  by_cases hgo : ((moveBelow s n p q newParentId exclusive).node n).shadow = true ∧
      ((moveBelow s n p q newParentId exclusive).node n).children = [] ∧ ((moveBelow s n p q newParentId exclusive).node n).queue = []
  · rw [if_pos hgo]
    cases ha : (s.node n).active with
    | true =>
      -- an active node is not removed
      have hstays : (moveBelow s n p q newParentId exclusive).remove n = moveBelow s n p q newParentId exclusive := by
        obtain ⟨fuel, hfuel⟩ := Nat.exists_eq_succ_of_ne_zero (List.length_pos_of_mem hnL').ne'
        rw [Tree.remove, hfuel, Tree.removeLoop, if_pos (Or.inr (hactive.trans ha))]
      rw [hstays, hmoved]
      exact (and_iff_left fun hleft => Bool.false_ne_true (hleft.2.1.symm.trans ha)).symm
    | false =>
      have hgone := remove_gone hcons hnL' hn0 (hactive.trans ha)
      refine iff_of_false (fun hf => hgone (hf.nodes.symm ▸ hnL)) ?_
      rintro ⟨rfl, hleft⟩
      exact hleft ⟨hshadow.symm.trans hgo.1, ha, hbare.mp hgo.2.1⟩
  · rw [if_neg hgo, hmoved]
    refine (and_iff_left_of_imp ?_).symm
    rintro rfl hleft
    have hnil := hbare.mpr hleft.2.2
    exact hgo ⟨hshadow.trans hleft.1, hnil, hqueue hnil⟩

/-- **Reprioritisation.** A node is given the new parent `m`. The tree is as it should be exactly if `m` is the parent already, and the only
child's if the change is exclusive, or else the search finds `m` and the node is not a shadow node that is left without children. -/
theorem reprioritize_follows_iff (h : AtCall s) (hn : IsNode s n) (hp : (s.node n).parent = some p) (hid : (s.node m).id = newParentId)
    (hne : newParentId ≠ (s.node n).id) (exclusive : Bool) :
    Follows s (s.reprioritize n newParentId exclusive).1 n m exclusive ↔ MoveOk s n p m newParentId exclusive := by
  have hcons := h.consistent
  by_cases hpid : (s.node p).id = newParentId
  · have hsame : s.reprioritize n newParentId exclusive = (s, some n) := by
      unfold Tree.reprioritize
      rw [hp]
      exact if_pos hpid
    rw [hsame, follows_self_iff hcons hn.1 hp exclusive]
    exact ⟨fun hok => ⟨fun _ => hok, fun hc => absurd hpid hc⟩, fun hok => hok.1 hpid⟩
  · have hok : MoveOk s n p m newParentId exclusive ↔ s.find newParentId = some m ∧ ¬ LeftBare s n m exclusive :=
      ⟨fun hok => hok.2 hpid, fun hfound => ⟨fun hc => absurd hc hpid, fun _ => hfound⟩⟩
    rw [hok]
    cases hq : s.find newParentId with
    | none =>
      have hsame : s.reprioritize n newParentId exclusive = (s, some n) := by
        unfold Tree.reprioritize
        rw [hp, hq]
        exact if_neg hpid
      rw [hsame, follows_self_iff hcons hn.1 hp exclusive]
      refine iff_of_false (fun hf => hpid ?_) fun hf => by simp at hf
      rw [hf.1, hid]
    | some q =>
      have hqid := (find_some hcons.inv hq).2
      have hqn : q ≠ n := fun hc => hne (hc ▸ hqid).symm
      have hpq : p ≠ q := fun hc => hpid (hc ▸ hqid)
      rw [reprioritize_moves exclusive hp hpid hq, dropShadow_follows_iff hcons hn hp hq hqn hpq exclusive, Option.some.injEq]

/-! ### Two streams -/

/-- streams 1 and 3 depend on none -/
def siblings : Tree Unit := openStream (openStream (Tree.init Unit 100) 0 1) 0 3

theorem siblings_reachable : Reachable Unit siblings := by
  have hfirst : Reachable Unit (openStream (Tree.init Unit 100) 0 1) :=
    (Reachable.init 100).step (show Allowed _ (.add 0 1 15 false (some ())) by unfold Allowed; decide) ⟨2, 2, some 1, rfl⟩
  exact hfirst.step (show Allowed _ (.add 0 3 15 false (some ())) by unfold Allowed; decide) ⟨2, 2, some 2, rfl⟩

/-- stream 3 is moved below stream 1 -/
theorem stream_moved : Follows siblings (siblings.reprioritize 2 1 true).1 2 1 true := by
  have hok : MoveOk siblings 2 root 1 1 true := by
    refine ⟨fun hc => absurd hc (by decide), fun _ => ⟨by decide, fun hleft => ?_⟩⟩
    exact absurd hleft.1 (by decide)
  exact (reprioritize_follows_iff (AtCall.reachable siblings_reachable) ⟨by decide, by decide⟩ rfl (by decide) (by decide) true).mpr hok

/-- stream 3 should be the only one that depends on none, and stream 1 depend on it: nothing is done -/
theorem exclusive_ignored : AtCall siblings ∧ IsNode siblings 2 ∧ (siblings.node root).id = 0 ∧ (siblings.node root).shadow = false ∧
    (siblings.reprioritize 2 0 true).1 = siblings ∧ (siblings.node 1).parent = some root ∧
    ¬ Follows siblings (siblings.reprioritize 2 0 true).1 2 root true := by
  refine ⟨AtCall.reachable siblings_reachable, ⟨by decide, by decide⟩, by decide, by decide, rfl, by decide, fun hf => ?_⟩
  have honly : ((siblings.reprioritize 2 0 true).1.node root).children = [2] := (hf.only rfl).1
  exact absurd honly (by decide)

end TrafficServer.Http2.DependencyTree
