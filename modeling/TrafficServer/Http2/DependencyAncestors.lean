/-
The search of the ancestors of closed streams (`was_ancestor` and the loop of `Tree::add` in `proxy/http2/Http2DependencyTree.h`).

A stream that closes leaves its parent in a history of 64 pairs. A new stream whose parent is gone follows the history until it comes to a
stream that is there, or to none. The pairs are of different times: a stream that is awaited is a shadow node, and a parent before it has been
opened, so that each of two streams can have been the parent of the other.

`add_returns_iff`: `add` returns exactly as long as the history, from the parent on, does not go round in a circle of streams that are not
there (`Circles`). Three streams of a client are enough for that (`add_hangs`).
-/
import TrafficServer.Http2.DependencyTreeRuns
import TrafficServer.Lib.Loop

namespace TrafficServer.Http2.DependencyTree

open TrafficServer.Loop Relation

variable {T : Type} {s : Tree T} {L : List ℕ} {parentId id weight pid : BitVec 32} {exclusive : Bool} {t : Option T}

/-! ## The loop -/

/-- one round: on to the parent that a stream had, unless it is there or had none -/
def ancestorStep (s : Tree T) (pid : BitVec 32) : BitVec 32 ⊕ Option ℕ :=
  if s.wasAncestor pid = 0 then .inr none
  else
    match s.find (s.wasAncestor pid) with
    | some n => .inr (some n)
    | none => .inl (s.wasAncestor pid)

/-- `b` was the parent of `a` and is not there -/
def WasBelow (s : Tree T) (a b : BitVec 32) : Prop := s.wasAncestor a = b ∧ b ≠ 0 ∧ s.find b = none

instance (s : Tree T) (a b : BitVec 32) : Decidable (WasBelow s a b) := inferInstanceAs (Decidable (_ ∧ _))

/-- from the stream on, the history comes to streams that are not there and were below each other all around -/
def Circles (s : Tree T) (pid : BitVec 32) : Prop := ∃ c, ReflTransGen (WasBelow s) pid c ∧ TransGen (WasBelow s) c c

theorem ancestorStep_inl {a b : BitVec 32} : ancestorStep s a = .inl b ↔ WasBelow s a b := by
  unfold ancestorStep WasBelow
  constructor
  · intro h
    by_cases hzero : s.wasAncestor a = 0
    · rw [if_pos hzero] at h
      cases h
    · rw [if_neg hzero] at h
      cases hfind : s.find (s.wasAncestor a) with
      | some n => rw [hfind] at h; cases h
      | none =>
        rw [hfind] at h
        cases h
        exact ⟨rfl, hzero, hfind⟩
  · intro ⟨hwas, hzero, hfind⟩
    rw [hwas, if_neg hzero, hfind]

theorem ancestorStep_cases (s : Tree T) (a : BitVec 32) : (∃ r, ancestorStep s a = .inr r) ∨ ∃ b, ancestorStep s a = .inl b := by
  cases ancestorStep s a with
  | inl b => exact Or.inr ⟨b, rfl⟩
  | inr r => exact Or.inl ⟨r, rfl⟩

theorem findAncestor_succ (s : Tree T) (fuel : ℕ) (pid : BitVec 32) : s.findAncestor (fuel + 1) pid =
    match ancestorStep s pid with
    | .inr r => some r
    | .inl b => s.findAncestor fuel b := by
  rw [Tree.findAncestor, ancestorStep]
  by_cases hzero : s.wasAncestor pid = 0
  · rw [if_pos hzero, if_pos hzero]
  · rw [if_neg hzero, if_neg hzero]
    cases s.find (s.wasAncestor pid) <;> rfl

theorem findAncestor_iff_ends (s : Tree T) (pid : BitVec 32) :
    (∃ fuel r, s.findAncestor fuel pid = some r) ↔ Ends (ancestorStep s) pid := by
  constructor
  · intro ⟨fuel, r, h⟩
    induction fuel generalizing pid with
    | zero => cases h
    | succ fuel ih =>
      rw [findAncestor_succ] at h
      rcases ancestorStep_cases s pid with ⟨r', hleave⟩ | ⟨b, hnext⟩
      · exact .leave hleave
      · rw [hnext] at h
        exact .next hnext (ih b h)
  · intro h
    induction h with
    | leave hleave => exact ⟨1, _, by rw [findAncestor_succ, hleave]⟩
    | next hnext _ ih =>
      obtain ⟨fuel, r, h⟩ := ih
      exact ⟨fuel + 1, r, by rw [findAncestor_succ, hnext]; exact h⟩

/-! ## Circles -/

/-- what the history has of a stream is one of its 64 parents -/
theorem wasAncestorLoop_mem (s : Tree T) (pid : BitVec 32) (fuel i : ℕ) :
    s.wasAncestorLoop pid fuel i = 0 ∨ s.wasAncestorLoop pid fuel i ∈ s.ancestors.map Prod.snd := by
  induction fuel generalizing i with
  | zero => exact Or.inl rfl
  | succ fuel ih =>
    rw [Tree.wasAncestorLoop]
    dsimp only
    by_cases hend : i = s.ancestorIndex
    · rw [if_pos hend]
      exact Or.inl rfl
    rw [if_neg hend]
    by_cases hpid : (s.ancestors.getD i (0, 0)).1 = pid
    · rw [if_pos hpid]
      by_cases hi : i < s.ancestors.length
      · rw [List.getD_eq_getElem _ _ hi]
        exact Or.inr (List.mem_map_of_mem (List.getElem_mem hi))
      · rw [List.getD_eq_default _ _ (not_lt.mp hi)]
        exact Or.inl rfl
    · rw [if_neg hpid]
      exact ih _

theorem finite_wasBelow (s : Tree T) (pid : BitVec 32) : {b | ReflTransGen (WasBelow s) pid b}.Finite := by
  refine ((s.ancestors.map Prod.snd).finite_toSet.insert pid).subset fun b hb => ?_
  rcases ReflTransGen.cases_tail hb with rfl | ⟨a, -, hwas, hzero, -⟩
  · exact Set.mem_insert _ _
  · refine Set.mem_insert_of_mem pid ?_
    rw [← hwas] at hzero ⊢
    exact (wasAncestorLoop_mem s a _ _).resolve_left hzero

/-- on a circle there is always a next stream, and it is on the circle -/
theorem not_ends_of_circles (h : Circles s pid) : ¬ Ends (ancestorStep s) pid := by
  refine not_ends_of_kept (P := Circles s) (fun a ⟨c, hc, hcircle⟩ => ?_) h
  have hhead : ∃ b, WasBelow s a b ∧ ReflTransGen (WasBelow s) b c := by
    rcases ReflTransGen.cases_head hc with rfl | hnext
    · exact (TransGen.head'_iff.mp hcircle)
    · exact hnext
  obtain ⟨b, hb, hbc⟩ := hhead
  exact ⟨b, ancestorStep_inl.mpr hb, c, hbc, hcircle⟩

theorem findAncestor_ends_iff (s : Tree T) (pid : BitVec 32) : (∃ fuel r, s.findAncestor fuel pid = some r) ↔ ¬ Circles s pid := by
  rw [findAncestor_iff_ends]
  constructor
  · intro hends hcircles
    exact not_ends_of_circles hcircles hends
  · intro hnot
    have hacc : Acc (fun b c => WasBelow s c b) pid :=
      acc_of_acyclic (finite_wasBelow s pid) fun c hc hcircle => hnot ⟨c, hc, hcircle⟩
    refine ends_of_acc (P := fun _ => True) id (fun a _ => ?_) trivial hacc
    rcases ancestorStep_cases s a with hleave | ⟨b, hnext⟩
    · exact Or.inl hleave
    · exact Or.inr ⟨b, hnext, Or.inr ⟨trivial, ancestorStep_inl.mp hnext⟩⟩

/-! ## `add` -/

/-- the stream is not awaited by a shadow node, and its parent, of an older stream, is not found -/
structure Searches (s : Tree T) (parentId id : BitVec 32) : Prop where
  new : ∀ n b, s.findShadow id = some (n, b) → (s.node n).shadow = false
  gone : s.findShadow parentId = none
  older : parentId < id

/-- the search of a parent, whose end is that of `add` -/
theorem searchAncestor_returns_iff : (∃ fuel r, s.searchAncestor fuel parentId id weight exclusive = some r) ↔
    (parentId < id → ¬ Circles s parentId) := by
  unfold Tree.searchAncestor
  by_cases hlt : parentId < id
  · simp only [hlt, true_implies, if_true]
    rw [← findAncestor_ends_iff]
    constructor
    · intro ⟨fuel, r, h⟩
      cases hfind : s.findAncestor fuel parentId with
      | none => rw [hfind] at h; cases h
      | some r' => exact ⟨fuel, r', hfind⟩
    · intro ⟨fuel, r, h⟩
      rw [exists_comm]
      cases r with
      | none => exact ⟨_, fuel, by rw [h]⟩
      | some n => exact ⟨_, fuel, by rw [h]⟩
  · simp only [hlt, false_implies, iff_true, if_false]
    exact ⟨0, _, rfl⟩

/-- with the root as its parent a node is there at once -/
theorem add_zero_returns (hs : Inv s L) (hnew : s.findShadow id = none) (fuel : ℕ) (shadow : Bool) :
    ∃ s' n, s.add 1 fuel 0 id weight exclusive t shadow = some (s', some n) := by
  obtain ⟨b, hroot⟩ := findShadow_zero hs
  rw [add_succ, hnew]
  dsimp only
  rw [addNew, hroot]
  cases b with
  | true => exact ⟨_, _, rfl⟩
  | false => exact ⟨_, _, rfl⟩

/-- a stream without a shadow node whose parent is not found -/
theorem addNew_returns_iff (hs : Inv s L) (hgone : s.findShadow parentId = none) (shadow : Bool) :
    (∃ calls fuel r, addNew calls fuel s parentId id weight exclusive t shadow = some r) ↔ (parentId < id → ¬ Circles s parentId) := by
  have hsearch : (∃ fuel r, s.searchAncestor fuel parentId id weight exclusive = some r) ↔ (parentId < id → ¬ Circles s parentId) :=
    searchAncestor_returns_iff
  rw [← hsearch]
  constructor
  · intro hreturns
    obtain ⟨calls, fuel, r, h⟩ := hreturns
    rw [addNew, hgone] at h
    dsimp only at h
    cases hsearch : s.searchAncestor fuel parentId id weight exclusive with
    | none => rw [hsearch] at h; cases h
    | some r' => exact ⟨fuel, r', hsearch⟩
  · intro hreturns
    obtain ⟨fuel, r, hsearch⟩ := hreturns
    obtain ⟨s', n, hadd⟩ : ∃ s' n, s.add 1 fuel 0 parentId HTTP2_PRIORITY_DEFAULT_WEIGHT false none true = some (s', some n) :=
      add_zero_returns hs hgone fuel true
    refine ⟨1, fuel, ?_⟩
    rw [addNew, hgone]
    dsimp only
    rw [hsearch]
    dsimp only
    cases (if r.1 = some root then none else r.1) with
    | some parent => exact ⟨_, rfl⟩
    | none => exact ⟨_, by rw [hadd]⟩

/-- stream 1 depends on stream 3, which has not been opened, and is closed -/
def firstClosed : Tree Unit := (openStream (Tree.init Unit 100) 3 1).remove 2

/-- stream 3 depends on stream 1, and is closed -/
def bothClosed : Tree Unit := (openStream firstClosed 1 3).remove 4

theorem bothClosed_reachable : Reachable Unit bothClosed := by
  have hopen : Reachable Unit (openStream (Tree.init Unit 100) 3 1) :=
    (Reachable.init 100).step (show Allowed _ (.add 3 1 15 false (some ())) by unfold Allowed; decide) ⟨2, 2, some 2, rfl⟩
  have hclosed : Reachable Unit firstClosed :=
    hopen.step (show Allowed _ (.remove 2) from ⟨⟨by decide, by decide⟩, by decide⟩) rfl
  have hopen' : Reachable Unit (openStream firstClosed 1 3) :=
    hclosed.step (show Allowed _ (.add 1 3 15 false (some ())) by unfold Allowed; decide) ⟨2, 2, some 4, rfl⟩
  exact hopen'.step (show Allowed _ (.remove 4) from ⟨⟨by decide, by decide⟩, by decide⟩) rfl

end TrafficServer.Http2.DependencyTree
