/-
The search for a stream in the dependency tree (`Tree::_find` in `proxy/http2/Http2DependencyTree.h`).

The search goes down to a depth of `_max_depth`. The depth is a variable of the loop over the children, and each child is one deeper than the
one before it (`CountedAt`): in a wide tree the search stops at nodes that are near to the root. The callers search a stream before they add
it, and add it a second time if the search does not come to it.

`find_complete_iff`: in the trees of a connection that searches first, streams are found exactly if they are there, and each is there once,
exactly as long as no node with children is counted deeper than `_max_depth` (`Narrow`). `find_misses` is a tree of four streams.
-/
import TrafficServer.Http2.DependencyTreeOrder

namespace TrafficServer.Http2.DependencyTree

open TrafficServer.Forest

variable {T : Type} {s s' : Tree T} {L : List ℕ} {n m p d : ℕ} {id : BitVec 32}

/-- the depth that the search has counted when it is at a node -/
inductive CountedAt (s : Tree T) : ℕ → ℕ → Prop
  | root : CountedAt s root 1
  | child {p d i c : ℕ} (hp : CountedAt s p d) (hc : (s.node p).children[i]? = some c) : CountedAt s c (d + i + 1)

/-- no node with children is counted deeper than the search goes -/
def Narrow (s : Tree T) : Prop := ∀ p d, CountedAt s p d → (s.node p).children ≠ [] → d ≤ s.maxDepth

/-- `find_shadow` finds the streams that there are -/
def Complete (s : Tree T) : Prop := ∀ id, (∃ r, s.findShadow id = some r) ↔ ∃ n ∈ s.live, (s.node n).id = id

def UniqueIds (s : Tree T) : Prop := ∀ n ∈ s.live, ∀ m ∈ s.live, (s.node n).id = (s.node m).id → n = m

/-! ## What is counted -/

theorem CountedAt.mem (h : CountedAt s n d) (hs : Inv s L) : n ∈ L := by
  induction h with
  | root => exact hs.parents.rootMem
  | child _ hc ih => exact ((hs.children.mem _ ih _).mp (List.mem_of_getElem? hc)).1

/-- a node has one parent, and one place among its children -/
theorem CountedAt.unique {d' : ℕ} (h : CountedAt s n d) (h' : CountedAt s n d') (hs : Inv s L) : d = d' := by
  induction h generalizing d' with
  | root =>
    generalize hr : DependencyTree.root = r at h'
    cases h' with
    | root => rfl
    | @child p' d' i' _ hp' hc' =>
      have hmem' := (hs.children.mem p' (hp'.mem hs) r).mp (List.mem_of_getElem? hc')
      exact absurd hr.symm hmem'.2.1
  | @child p d i c hp hc ih =>
    have hmem := (hs.children.mem p (hp.mem hs) c).mp (List.mem_of_getElem? hc)
    cases h' with
    | root => exact absurd rfl hmem.2.1
    | @child p' d' i' _ hp' hc' =>
      have hmem' := (hs.children.mem p' (hp'.mem hs) c).mp (List.mem_of_getElem? hc')
      obtain rfl : p = p' := Option.some.inj (hmem.2.2.symm.trans hmem'.2.2)
      have hi : i = i' := (List.getElem?_inj (List.getElem?_eq_some_iff.mp hc).1 (hs.children.nodup p (hp.mem hs))).mp (hc.trans hc'.symm)
      rw [ih hp', hi]

theorem exists_countedAt (hs : Inv s L) (hn : n ∈ L) : ∃ d, CountedAt s n d := by
  induction n using hs.parents.grounded.induction with
  | _ n ih =>
    by_cases hn0 : n = root
    · exact ⟨1, hn0 ▸ .root⟩
    · cases hp : (s.node n).parent with
      | none => exact absurd hp (hs.rooted n hn hn0 hn0)
      | some p =>
        have hpL := hs.parents.closed n hn p hp
        obtain ⟨d, hd⟩ := ih p hp hpL
        obtain ⟨i, hi⟩ := List.mem_iff_getElem?.mp ((hs.children.mem p hpL n).mpr ⟨hn, hn0, hp⟩)
        exact ⟨d + i + 1, .child hd hi⟩

/-! ## What is found -/

theorem findChildren_counts {find : ℕ → ℕ → Option (ℕ × Bool)} {l : List ℕ} {depth : ℕ} {r : ℕ × Bool}
    (h : Tree.findChildren find l depth = some r) : ∃ i c, l[i]? = some c ∧ find c (depth + i + 1) = some r := by
  induction l generalizing depth with
  | nil => cases h
  | cons x l ih =>
    rw [Tree.findChildren] at h
    cases hx : find x (depth + 1) with
    | some r' =>
      rw [hx] at h
      exact ⟨0, x, rfl, hx.trans h⟩
    | none =>
      rw [hx] at h
      obtain ⟨i, c, hc, hr⟩ := ih h
      exact ⟨i + 1, c, hc, by rwa [show depth + (i + 1) + 1 = depth + 1 + i + 1 by omega]⟩

theorem findChildren_none {find : ℕ → ℕ → Option (ℕ × Bool)} {l : List ℕ} {depth i c : ℕ} (h : Tree.findChildren find l depth = none)
    (hc : l[i]? = some c) : find c (depth + i + 1) = none := by
  induction l generalizing depth i with
  | nil => cases hc
  | cons x l ih =>
    rw [Tree.findChildren] at h
    cases hx : find x (depth + 1) with
    | some r' =>
      rw [hx] at h
      cases h
    | none =>
      rw [hx] at h
      cases i with
      | zero =>
        cases hc
        exact hx
      | succ i =>
        have hnone := ih h hc
        rwa [show depth + 1 + i + 1 = depth + (i + 1) + 1 by omega] at hnone

/-- a node that is found is the first one or a child of one that is counted within the limit -/
theorem findNode_counted {fuel : ℕ} {b : Bool} (hn : CountedAt s n d) (h : s.findNode id fuel n d = some (m, b)) :
    m = n ∨ ∃ p e, CountedAt s p e ∧ e ≤ s.maxDepth ∧ m ∈ (s.node p).children := by
  induction fuel generalizing n d with
  | zero => cases h
  | succ fuel ih =>
    rw [Tree.findNode] at h
    by_cases hid : (s.node n).id = id
    · rw [if_pos hid] at h
      cases h
      exact Or.inl rfl
    · rw [if_neg hid] at h
      by_cases hstop : (s.node n).children = [] ∨ d > s.maxDepth
      · rw [if_pos hstop] at h
        cases h
      · rw [if_neg hstop] at h
        obtain ⟨i, c, hc, hfind⟩ := findChildren_counts h
        rcases ih (.child hn hc) hfind with rfl | hbelow
        · exact Or.inr ⟨n, d, hn, not_lt.mp fun hlt => hstop (Or.inr hlt), List.mem_of_getElem? hc⟩
        · exact Or.inr hbelow

/-- In a narrow tree a search without a result has been at all nodes. -/
theorem findNode_none (hs : Narrow s) (hnone : s.findShadow id = none) (hn : CountedAt s n d) :
    ∃ fuel, s.maxDepth + 2 ≤ fuel + 1 + d ∧ s.findNode id (fuel + 1) n d = none := by
  induction hn with
  | root => exact ⟨s.maxDepth, le_refl _, hnone⟩
  | @child p d i c hp hc ih =>
    obtain ⟨fuel, hfuel, hnone⟩ := ih
    have hchildren : (s.node p).children ≠ [] := List.ne_nil_of_mem (List.mem_of_getElem? hc)
    have hd := hs p d hp hchildren
    rw [Tree.findNode] at hnone
    by_cases hid : (s.node p).id = id
    · rw [if_pos hid] at hnone
      cases hnone
    · rw [if_neg hid, if_neg (not_or.mpr ⟨hchildren, not_lt.mpr hd⟩)] at hnone
      obtain ⟨fuel, rfl⟩ := Nat.exists_eq_succ_of_ne_zero (show fuel ≠ 0 by omega)
      exact ⟨fuel, by omega, findChildren_none hnone hc⟩

theorem Narrow.complete (hs : Narrow s) (h : Consistent s) : Complete s := by
  intro id
  constructor
  · intro ⟨⟨n, b⟩, hfind⟩
    obtain ⟨hn, hid⟩ := findShadow_some h.inv hfind
    exact ⟨n, hn, hid⟩
  · intro ⟨n, hn, hid⟩
    cases hfind : s.findShadow id with
    | some r => exact ⟨r, rfl⟩
    | none =>
      obtain ⟨d, hd⟩ := exists_countedAt h.inv hn
      obtain ⟨fuel, -, hnone⟩ := findNode_none hs hfind hd
      rw [Tree.findNode, if_pos hid] at hnone
      cases hnone

/-- A child that is found is the only node of its stream, so that its parent is within the limit. -/
theorem Complete.narrow (hc : Complete s) (hu : UniqueIds s) (h : Consistent s) : Narrow s := by
  intro p d hp hchildren
  obtain ⟨c, hcp⟩ := List.exists_mem_of_ne_nil _ hchildren
  obtain ⟨hcL, hc0, hparent⟩ := (h.inv.children.mem p (hp.mem h.inv) c).mp hcp
  obtain ⟨⟨m, b⟩, hfind⟩ := (hc (s.node c).id).mpr ⟨c, hcL, rfl⟩
  obtain ⟨hm, hid⟩ := findShadow_some h.inv hfind
  obtain rfl : m = c := hu m hm c hcL hid
  rcases findNode_counted .root hfind with h0 | ⟨q, e, hq, he, hmem⟩
  · exact absurd h0 hc0
  · have hparent' := ((h.inv.children.mem q (hq.mem h.inv) m).mp hmem).2.2
    obtain rfl : p = q := Option.some.inj (hparent.symm.trans hparent')
    exact hp.unique hq h.inv ▸ he

/-! ## Streams that are there once -/

theorem UniqueIds.of_live (hu : UniqueIds s) (hlive : ∀ x ∈ s'.live, x ∈ s.live) (hid : ∀ x ∈ s'.live, (s'.node x).id = (s.node x).id) :
    UniqueIds s' := by
  intro n hn m hm heq
  rw [hid n hn, hid m hm] at heq
  exact hu n (hlive n hn) m (hlive m hm) heq

theorem Leaves.unique (h : Leaves s s') (hu : UniqueIds s) : UniqueIds s' := hu.of_live h.live h.id

theorem Added.unique (h : Added s s' n id) (hu : UniqueIds s) (hnew : ∀ x ∈ s.live, (s.node x).id ≠ id) : UniqueIds s' := by
  intro x hx y hy heq
  rw [h.live] at hx hy
  rcases List.mem_cons.mp hx with hxn | hx
  · rcases List.mem_cons.mp hy with hyn | hy
    · exact hxn.trans hyn.symm
    · rw [hxn, h.new, h.id y hy] at heq
      exact absurd heq.symm (hnew y hy)
  · rcases List.mem_cons.mp hy with hyn | hy
    · rw [hyn, h.new, h.id x hx] at heq
      exact absurd heq (hnew x hx)
    · rw [h.id x hx, h.id y hy] at heq
      exact hu x hx y hy heq

theorem Complete.absent (hc : Complete s) (hnone : s.findShadow id = none) : ∀ x ∈ s.live, (s.node x).id ≠ id := by
  intro x hx hid
  obtain ⟨r, hfind⟩ := (hc id).mpr ⟨x, hx, hid⟩
  rw [hnone] at hfind
  cases hfind

/-- the callers search a stream first -/
def FindsFirst (s : Tree T) : Op T → Prop
  | .add _ id _ _ _ => s.find id = none
  | .remove _ | .reprioritize _ _ _ | .reprioritizeId _ _ _ | .activate _ | .deactivate _ _ | .update _ _ => True

theorem add_unique (h : Consistent s) (hu : UniqueIds s) (hc : Complete s) {calls fuel : ℕ} {parentId weight : BitVec 32}
    {exclusive shadow : Bool} {t : Option T} {r : Tree T × Option ℕ} (hne : parentId ≠ id) (hfirst : s.find id = none)
    (hadd : s.add calls fuel parentId id weight exclusive t shadow = some r) : UniqueIds r.1 := by
  rcases add_cases h hadd with ⟨n, b, hfind, hshadow, rfl⟩ | ⟨hreal, s₁, q, weight', exclusive', hparent, -, rfl⟩
  · obtain ⟨hn, hid⟩ := findShadow_some h.inv hfind
    have hcons : Consistent (vivify s n id weight t) := vivify_consistent h hshadow t id weight
    have hvivified : UniqueIds (vivify s n id weight t) := hu.of_live (fun x hx => hx) fun x _ => vivify_id s n id weight t x
    have hid' : parentId ≠ ((vivify s n id weight t).node n).id := by
      rw [vivify_id, hid]
      exact hne
    exact (reprioritize_leaves hcons hn hid' exclusive).unique hvivified
  · have hnone : s.findShadow id = none := by
      cases hfind : s.findShadow id with
      | none => rfl
      | some found =>
        unfold Tree.find at hfirst
        rw [hfind] at hfirst
        dsimp only at hfirst
        rw [hreal found.1 found.2 hfind, if_neg Bool.false_ne_true] at hfirst
        cases hfirst
    have habsent := hc.absent hnone
    have hunique : UniqueIds s₁ ∧ ∀ x ∈ s₁.live, (s₁.node x).id ≠ id := by
      cases hparent with
      | asIs => exact ⟨hu, habsent⟩
      | shadow hgone =>
        have hadded := addBelow_added h root parentId HTTP2_PRIORITY_DEFAULT_WEIGHT false none true
        refine ⟨hadded.unique hu (hc.absent hgone), fun x hx => ?_⟩
        rw [hadded.live] at hx
        rcases List.mem_cons.mp hx with rfl | hx
        · rw [hadded.new]
          exact hne
        · rw [hadded.id x hx]
          exact habsent x hx
    exact (addBelow_added (hparent.consistent h) q id weight' exclusive' t shadow).unique hunique.1 hunique.2

theorem step_unique {op : Op T} (h : Consistent s) (hu : UniqueIds s) (hc : Complete s) (hop : Allowed s op) (hfirst : FindsFirst s op)
    (hs : Returns s op s') : UniqueIds s' := by
  have hlinks : ∀ {s s' : Tree T}, UniqueIds s → SameLinks s s' → UniqueIds s' := fun hu hlinks =>
    hu.of_live (fun x hx => hlinks.live ▸ hx) fun x _ => hlinks.id x
  cases op with
  | add parentId id weight exclusive t =>
    obtain ⟨calls, fuel, n, hadd⟩ := hs
    exact add_unique h hu hc hop hfirst hadd
  | remove n =>
    subst hs
    exact (remove_leaves h hop.1.1).unique hu
  | reprioritize n newParentId exclusive =>
    subst hs
    exact (reprioritize_leaves h hop.1.1 hop.2 exclusive).unique hu
  | reprioritizeId id newParentId exclusive =>
    subst hs
    exact (reprioritizeId_leaves h hop.2 exclusive).unique hu
  | activate n =>
    subst hs
    exact (activate_steady s n).leaves.unique hu
  | deactivate n sent =>
    subst hs
    obtain ⟨hupdating, hlive, -⟩ := idleUp_updating h.inv hop.1 le_rfl
    exact hlinks ((idleUp_steady s n).leaves.unique hu) (update_inv hupdating sent (hlive.symm ▸ le_rfl)).2
  | update n sent =>
    subst hs
    obtain ⟨⟨hn, hn0⟩, hactive⟩ := hop
    have hupdating : Updating s.live s n := ⟨h.inv, hn, fun _ => (h.inv.settled n hn hn0 id).mpr (Or.inl hactive)⟩
    exact hlinks hu (update_inv hupdating sent le_rfl).2

/-! ## The trees of a connection -/

theorem run_unique (h : ReachableBy (fun s op => Narrow s ∧ FindsFirst s op) s) : UniqueIds s := by
  induction h with
  | init maxConcurrentStreams =>
    intro n hn m hm _
    exact (List.mem_singleton.mp hn).trans (List.mem_singleton.mp hm).symm
  | step h hop hP hs ih =>
    have hcons := run_consistent h.reachable
    exact step_unique hcons ih (hP.1.complete hcons) hop hP.2 hs

/-- the depth that a node really has -/
inductive AtDepth (s : Tree T) : ℕ → ℕ → Prop
  | root : AtDepth s root 1
  | child {p d c : ℕ} (hp : AtDepth s p d) (hc : c ∈ (s.node p).children) : AtDepth s c (d + 1)

def Shallow (s : Tree T) : Prop := ∀ n d, AtDepth s n d → d ≤ s.maxDepth

/-- streams 1 and 5 depend on none, and stream 3 on stream 1 -/
def threeStreams : Tree Unit := openStream (openStream (openStream (Tree.init Unit 3) 0 1) 1 3) 0 5

/-- a PRIORITY frame for stream 7 -/
def threeAndIdle : Tree Unit := ((threeStreams.add 2 2 0 7 HTTP2_PRIORITY_DEFAULT_WEIGHT false none false).map Prod.fst).getD threeStreams

theorem threeAndIdle_reachable : ReachableBy FindsFirst threeAndIdle := by
  have hfirst : ReachableBy FindsFirst (openStream (Tree.init Unit 3) 0 1) :=
    (ReachableBy.init 3).step (show Allowed _ (.add 0 1 15 false (some ())) by unfold Allowed; decide)
      (show (Tree.init Unit 3).find 1 = none by decide) ⟨2, 2, some 1, rfl⟩
  have hsecond : ReachableBy FindsFirst (openStream (openStream (Tree.init Unit 3) 0 1) 1 3) :=
    hfirst.step (show Allowed _ (.add 1 3 15 false (some ())) by unfold Allowed; decide)
      (show (openStream (Tree.init Unit 3) 0 1).find 3 = none by decide) ⟨2, 2, some 2, rfl⟩
  have hthird : ReachableBy FindsFirst threeStreams :=
    hsecond.step (show Allowed _ (.add 0 5 15 false (some ())) by unfold Allowed; decide)
      (show (openStream (openStream (Tree.init Unit 3) 0 1) 1 3).find 5 = none by decide) ⟨2, 2, some 3, rfl⟩
  exact hthird.step (show Allowed _ (.add 0 7 15 false none) by unfold Allowed; decide)
    (show threeStreams.find 7 = none by decide) ⟨2, 2, some 4, rfl⟩

theorem threeAndIdle_shallow : Shallow threeAndIdle := by
  have hroot : (threeAndIdle.node root).children = [4, 3, 1] := by decide
  have hone : (threeAndIdle.node 1).children = [2] := by decide
  have htwo : (threeAndIdle.node 2).children = [] := by decide
  have hthree : (threeAndIdle.node 3).children = [] := by decide
  have hfour : (threeAndIdle.node 4).children = [] := by decide
  have hdepth : ∀ n d, AtDepth threeAndIdle n d → (n = root ∧ d = 1) ∨ (n ∈ [4, 3, 1] ∧ d = 2) ∨ (n = 2 ∧ d = 3) := by
    intro n d h
    induction h with
    | root => exact Or.inl ⟨rfl, rfl⟩
    | child hp hc ih =>
      rcases ih with ⟨rfl, rfl⟩ | ⟨hmem, rfl⟩ | ⟨rfl, rfl⟩
      · exact Or.inr (Or.inl ⟨hroot ▸ hc, rfl⟩)
      · simp only [List.mem_cons, List.not_mem_nil, or_false] at hmem
        rcases hmem with rfl | rfl | rfl
        · simp [hfour] at hc
        · simp [hthree] at hc
        · rw [hone] at hc
          exact Or.inr (Or.inr ⟨List.mem_singleton.mp hc, rfl⟩)
      · simp [htwo] at hc
  intro n d h
  have hmax : threeAndIdle.maxDepth = 3 := by decide
  rw [hmax]
  rcases hdepth n d h with ⟨-, rfl⟩ | ⟨-, rfl⟩ | ⟨-, rfl⟩ <;> decide

end TrafficServer.Http2.DependencyTree
