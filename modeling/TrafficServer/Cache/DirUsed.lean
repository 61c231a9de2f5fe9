/-
`cache_direntries_used_stat`: does it count the entry slots with an offset?

`drift` is the statistic less the number of slots that hold an entry. Links do not matter to it, so every operation is a few lines: whoever
takes an entry out of a slot counts one down, whoever puts one into an empty slot counts one up. All of them keep the drift, with one
exception. `dir_clear_range` counts one down for every slot without the token bit whose offset is in the range, and a slot that holds nothing
has offset 0: a range that contains 0 makes the statistic too small by the number of empty slots (`Inv.clearSlots_drift`). `dir_clean_bucket`,
which does the same to one bucket, looks at the offset first.

The drift never goes up again, so after a run the statistic is right exactly if no `dir_clear_range` of it met such a slot (`used_iff`).
-/
import Mathlib
import TrafficServer.Lib.Run
import TrafficServer.Cache.InsertLoop

namespace TrafficServer.Cache

open TrafficServer.LinkSeg

/-- the entry slots with an offset -/
def occupied (g : SegGeom) (s : Seg) : ℕ := ((Finset.range g.slots).filter fun i => (s.dir i).isEmpty = false).card

def drift (g : SegGeom) (s : Seg) : ℤ := s.used - occupied g s

/-- what a slot adds to the number of entries -/
def full (e : Dir) : ℤ := if e.isEmpty then 0 else 1

section Drift

variable {g : SegGeom} {d : VolPos} {key : CacheKey} {s s' : Seg} {k : ℕ} {ch : ℕ → List ℕ} {v : ℕ → List Entry} {b e i : ℕ}
  {pre post : List ℕ}

theorem occupied_eq_sum (g : SegGeom) (s : Seg) : (occupied g s : ℤ) = ∑ i ∈ Finset.range g.slots, full (s.dir i) := by
  rw [occupied, Finset.card_filter, Nat.cast_sum]
  refine Finset.sum_congr rfl fun i _ => ?_
  rw [full]
  cases (s.dir i).isEmpty <;> rfl

theorem drift_congr (hu : s'.used = s.used) (hd : ∀ i, (s'.dir i).isEmpty = (s.dir i).isEmpty) : drift g s' = drift g s := by
  simp only [drift, occupied, hu, hd]

@[simp] theorem drift_used (n : ℤ) : drift g { s with used := n } = drift g s + (n - s.used) := by
  show n - (occupied g s : ℤ) = s.used - occupied g s + (n - s.used)
  ring

theorem drift_set (hi : i < g.slots) (x : Dir) : drift g (s.set i x) = drift g s + full (s.dir i) - full x := by
  have hmem := Finset.mem_range.2 hi
  have hsum : ∑ j ∈ Finset.range g.slots, full ((s.set i x).dir j) =
      full x + ∑ j ∈ Finset.range g.slots \ {i}, full (s.dir j) := by
    rw [← Finset.sum_update_of_mem hmem]
    refine Finset.sum_congr rfl fun j _ => ?_
    rw [Seg.set_dir, Function.update_apply]
    split_ifs <;> rfl
  have hold : ∑ j ∈ Finset.range g.slots, full (s.dir j) = full (s.dir i) + ∑ j ∈ Finset.range g.slots \ {i}, full (s.dir j) := by
    rw [Finset.sdiff_singleton_eq_erase, Finset.add_sum_erase _ (fun j => full (s.dir j)) hmem]
  calc drift g (s.set i x) = s.used - (full x + ∑ j ∈ Finset.range g.slots \ {i}, full (s.dir j)) := by
        rw [drift, occupied_eq_sum, hsum]; rfl
    _ = drift g s + full (s.dir i) - full x := by rw [drift, occupied_eq_sum, hold]; ring

/-- a change that neither fills nor empties a slot -/
theorem modify_isEmpty (s : Seg) (i : ℕ) (f : Dir → Dir) (hf : ∀ x, (f x).isEmpty = x.isEmpty) (j : ℕ) :
    ((s.modify i f).dir j).isEmpty = (s.dir j).isEmpty := by
  rw [Seg.modify_dir]
  split_ifs with hj
  · rw [hf, hj]
  · rfl

theorem modify_setNext_isEmpty (s : Seg) (i n j : ℕ) : ((s.modify i (·.setNext n)).dir j).isEmpty = (s.dir j).isEmpty :=
  modify_isEmpty s i (·.setNext n) (fun _ => rfl) j

theorem modify_setPrev_isEmpty (s : Seg) (i n j : ℕ) : ((s.modify i (·.setPrev n)).dir j).isEmpty = (s.dir j).isEmpty :=
  modify_isEmpty s i (·.setPrev n) (fun _ => rfl) j

/-! ## The freelist and the links -/

theorem dirFreeEntry_isEmpty (e : ℕ) (s : Seg) (i : ℕ) : ((dirFreeEntry e s).dir i).isEmpty = (s.dir i).isEmpty := by
  unfold dirFreeEntry
  dsimp only
  split_ifs with h0
  · rw [modify_setPrev_isEmpty, modify_setNext_isEmpty]
  · rw [modify_setNext_isEmpty]

theorem dirFreeEntry_used (e : ℕ) (s : Seg) : (dirFreeEntry e s).used = s.used := by
  unfold dirFreeEntry
  dsimp only
  split_ifs <;> rfl

theorem unlinkFromFreelist_isEmpty (e : ℕ) (s : Seg) (i : ℕ) :
    ((unlinkFromFreelist e s).dir i).isEmpty = (s.dir i).isEmpty := by
  unfold unlinkFromFreelist
  cases s.prevDir e with
  | none =>
    dsimp only
    split
    · rw [modify_setPrev_isEmpty]
    · rfl
  | some p =>
    dsimp only
    split
    · rw [modify_setPrev_isEmpty, modify_setNext_isEmpty]
    · rw [modify_setNext_isEmpty]

theorem unlinkFromFreelist_used (e : ℕ) (s : Seg) : (unlinkFromFreelist e s).used = s.used := by
  unfold unlinkFromFreelist
  cases s.prevDir e <;> dsimp only <;> split <;> rfl

theorem dirLink_isEmpty (e b : ℕ) (s : Seg) (i : ℕ) : ((dirLink e b s).dir i).isEmpty = (s.dir i).isEmpty := by
  unfold dirLink
  rw [modify_setNext_isEmpty, modify_setNext_isEmpty]

/-! ## Deletion -/

theorem drift_deleteAfter (he : e < g.slots) (p : ℕ) (s : Seg) :
    drift g (dirDeleteAfter e p s) = drift g s + full (s.dir e) := by
  have hset := drift_set (g := g) (s := s) he Dir.zero
  have hzero : full Dir.zero = 0 := rfl
  rw [hzero, sub_zero] at hset
  rw [← hset, dirDeleteAfter_eq]
  refine drift_congr (dirFreeEntry_used _ _) fun i => ?_
  rw [dirFreeEntry_isEmpty]
  exact modify_setNext_isEmpty (s.set e Dir.zero) p (s.dir e).next i

theorem drift_deleteEntry (he : e < g.slots) (hn : ∀ n, s.nextDir e = some n → n < g.slots) (p : Option ℕ) :
    drift g (dirDeleteEntry e p s).1 = drift g s + full (s.dir e) := by
  unfold dirDeleteEntry
  cases p with
  | some p => exact drift_deleteAfter he p s
  | none =>
    cases hnext : s.nextDir e with
    | none =>
      show drift g (s.set e Dir.zero) = _
      rw [drift_set he]
      exact sub_zero _
    | some n =>
      -- the successor is copied first and deleted then
      have hcarry : drift g ((s.set e (s.dir n)).carry e n) = drift g (s.set e (s.dir n)) := rfl
      have hdir : ((s.set e (s.dir n)).carry e n).dir n = s.dir n := by
        rw [Seg.carry_dir, Seg.set_dir]
        split_ifs <;> rfl
      show drift g (dirDeleteAfter n e ((s.set e (s.dir n)).carry e n)) = _
      rw [drift_deleteAfter (hn n hnext), hcarry, drift_set he, hdir]
      ring

theorem dirBucket_lt (hb : b < g.buckets) : dirBucket b < g.slots := by
  simp only [dirBucket, SegGeom.slots, DIR_DEPTH]
  omega

theorem Rep.slot_lt (h : Rep g s k ch v) (hb : b < g.buckets) (he : e ∈ dirBucket b :: ch b) : e < g.slots := by
  obtain ⟨free, loc, hl, -⟩ := h.links
  rcases List.mem_cons.1 he with rfl | he
  · exact dirBucket_lt hb
  · exact (hl.row_of_ch hb he).1

/-- the deletion of the entry under a cursor -/
theorem Cursor.delete_drift (h : Cursor g s k ch v b pre e post) (p : Option ℕ) :
    drift g (dirDeleteEntry e p s).1 = drift g s + full (s.dir e) := by
  have hslot : ∀ x ∈ e :: post, x < g.slots := by
    intro x hx
    refine h.rep.slot_lt h.lt ?_
    rw [h.pos]
    exact List.mem_append_right _ hx
  refine drift_deleteEntry (hslot e List.mem_cons_self) (fun n hn => ?_) p
  rw [h.next] at hn
  exact hslot n (List.mem_cons_of_mem _ (List.mem_of_head? hn))

/-- an entry of a bucket has an offset -/
theorem Inv.not_empty (hi : Inv g s k ch v) (h : Cursor g s k ch v b pre e post) : (s.dir e).isEmpty = false := by
  have hoff := (hi.good b h.lt).offset (s.ent e) (by rw [h.ents]; simp)
  rw [Seg.ent_offset] at hoff
  simpa [Dir.isEmpty] using hoff

/-- an entry is counted down and deleted -/
theorem Cursor.drop_drift (h : Cursor g s k ch v b pre e post) (hne : (s.dir e).isEmpty = false) (p : Option ℕ) :
    drift g (dirDeleteEntry e p { s with used := s.used - 1 }).1 = drift g s := by
  have h₁ : Cursor g { s with used := s.used - 1 } k ch v b pre e post := h.of_dir_eq rfl rfl rfl rfl
  have hfull : full (s.dir e) = 1 := by rw [full, hne]; rfl
  rw [h₁.delete_drift, drift_used]
  show drift g s + (s.used - 1 - s.used) + full (s.dir e) = drift g s
  rw [hfull]
  ring

/-! ## Cleaning -/

theorem Cursor.cleanLoop_drift (fuel : ℕ) (h : Cursor g s k ch v b pre e post) :
    drift g (dirCleanLoop d fuel pre.getLast? e s) = drift g s := by
  induction fuel generalizing s ch v pre e post with
  | zero => rfl
  | succ fuel ih =>
    unfold dirCleanLoop
    rcases hbad : (!dirValid d (s.dir e) || (s.dir e).isEmpty) with _ | _
    · rw [if_neg (by decide), h.next]
      cases post with
      | nil => rfl
      | cons n post =>
        have hrest := ih h.advance
        rwa [List.getLast?_concat] at hrest
    · rw [if_pos rfl]
      generalize hs₁ : (if (s.dir e).isEmpty = true then s else { s with used := s.used - 1 }) = s₁
      have h₁ : Cursor g s₁ k ch v b pre e post := by
        subst hs₁
        split_ifs
        · exact h
        · exact h.of_dir_eq rfl rfl rfl rfl
      -- an entry without an offset is not counted and was not
      have hdrop : drift g (dirDeleteEntry e pre.getLast? s₁).1 = drift g s := by
        subst hs₁
        split_ifs at h₁ ⊢ with hempty
        · rw [h.delete_drift, full, if_pos hempty, add_zero]
        · exact h.drop_drift (by simpa using hempty) _
      dsimp only
      rcases hdel : dirDeleteEntry e pre.getLast? s₁ with ⟨s₂, _ | e'⟩
      · rw [hdel] at hdrop
        exact hdrop
      · obtain ⟨ch', post', hcur, -⟩ := h₁.delete_some hdel
        rw [hdel] at hdrop
        exact (ih hcur).trans hdrop

theorem Rep.cleanBucket_drift (h : Rep g s k ch v) (hb : b < g.buckets) :
    drift g (dirCleanBucket g d (dirBucket b) s) = drift g s := by
  by_cases hv : v b = []
  · -- an empty root is cleared once more
    rcases h.holds b hb with ⟨-, hc, h0⟩ | h1
    · have hnext : s.nextDir (dirBucket b) = none := by
        have := h.lseg hb
        rwa [hc] at this
      have hempty : (s.dir (dirBucket b)).isEmpty = true := by unfold Dir.isEmpty; rw [h0]; rfl
      have hclean : dirCleanBucket g d (dirBucket b) s = { s.set (dirBucket b) Dir.zero with dirty := true } := by
        simp [dirCleanBucket, dirCleanLoop, hempty, dirDeleteEntry, hnext]
      rw [hclean]
      show drift g (s.set (dirBucket b) Dir.zero) = _
      rw [drift_set (dirBucket_lt hb), full, if_pos hempty]
      exact (sub_zero _).trans (add_zero _)
    · rw [hv] at h1
      simp at h1
  · exact (h.cursor hb hv).cleanLoop_drift _

theorem Rep.cleanSegment_drift (h : Rep g s k ch v) : drift g (dirCleanSegment g d s) = drift g s := by
  have hn : ∀ n ≤ g.buckets, ∃ ch' v', Rep g ((List.range n).foldl (fun s i => dirCleanBucket g d (dirBucket i) s) s) k ch' v' ∧
      drift g ((List.range n).foldl (fun s i => dirCleanBucket g d (dirBucket i) s) s) = drift g s := by
    intro n
    induction n with
    | zero => intro _; exact ⟨ch, v, h, rfl⟩
    | succ n ih =>
      intro hle
      obtain ⟨ch', v', hrep, hdrift⟩ := ih (by omega)
      obtain ⟨ch'', hrep'⟩ := hrep.cleanBucket d (b := n) (by omega)
      have hbucket := hrep.cleanBucket_drift (d := d) (b := n) (by omega)
      rw [List.range_succ, List.foldl_append]
      exact ⟨ch'', _, hrep', hbucket.trans hdrift⟩
  obtain ⟨-, -, -, hdrift⟩ := hn g.buckets le_rfl
  exact hdrift

/-! ## Offsets that are zeroed in place -/

/-- counting a slot down and clearing its offset is right if it had one -/
theorem drift_clear (he : e < g.slots) :
    drift g { s.modify e (·.setOffset 0) with used := s.used - 1 } = drift g s - if (s.dir e).isEmpty then 1 else 0 := by
  have hzero : full ((s.dir e).setOffset 0) = 0 := by rw [full, Dir.isEmpty, Dir.setOffset_zero]; rfl
  have hset := drift_set (s := s) he ((s.dir e).setOffset 0)
  rw [hzero, sub_zero] at hset
  have hmod : drift g (s.modify e (·.setOffset 0)) = drift g s + full (s.dir e) := hset
  show drift g { s.modify e (·.setOffset 0) with used := (s.modify e (·.setOffset 0)).used - 1 } = _
  rw [drift_used, hmod, full]
  split_ifs <;> ring

/-- the purge is right if every head holds an entry -/
theorem purge_drift (l : List ℕ) (hnd : l.Nodup) (sn : Seg × ℕ)
    (hl : ∀ i ∈ l, i < g.slots ∧ ((sn.1.dir i).head = true → (sn.1.dir i).isEmpty = false)) :
    drift g (l.foldl purgeStep sn).1 = drift g sn.1 := by
  induction l generalizing sn with
  | nil => rfl
  | cons e l ih =>
    obtain ⟨he, hnd⟩ := List.nodup_cons.1 hnd
    obtain ⟨hlt, hhead⟩ := hl e List.mem_cons_self
    have hstep : drift g (purgeStep sn e).1 = drift g sn.1 := by
      unfold purgeStep
      split_ifs with hh hn
      · show drift g { sn.1.modify e (·.setOffset 0) with used := sn.1.used - 1 } = _
        rw [drift_clear hlt, hhead hh, if_neg (by decide), sub_zero]
      · rfl
      · rfl
    rw [List.foldl_cons, ← hstep]
    refine ih hnd _ fun i hi => ?_
    have hie : i ≠ e := fun heq => he (heq ▸ hi)
    rcases purgeStep_dir sn e i with hsame | ⟨heq, -⟩
    · rw [hsame]
      exact hl i (List.mem_cons_of_mem _ hi)
    · exact absurd heq hie

theorem Rep.freelistClean_drift (h : Rep g s k ch v) : drift g (freelistClean g d s) = drift g s := by
  obtain ⟨ch₁, h₁, hroots⟩ := h.cleaned (d := d)
  have hclean := h.cleanSegment_drift (d := d)
  unfold freelistClean
  dsimp only
  split_ifs with hf
  · exact hclean
  · have hfull := h₁.toRep.freelist_zero_iff.1 (not_not.1 hf)
    -- with the freelist empty only roots can be empty, and those have been cleared
    have hheads : ∀ i ∈ List.range g.slots, i < g.slots ∧ (((dirCleanSegment g d s).dir i).head = true →
        ((dirCleanSegment g d s).dir i).isEmpty = false) := by
      intro i hi
      have hlt := List.mem_range.1 hi
      refine ⟨hlt, fun hhead => ?_⟩
      by_cases hroot : g.IsRoot i
      · obtain ⟨c, hc, rfl⟩ := hroot
        by_contra hempty
        rw [Bool.not_eq_false, h₁.root_empty hc] at hempty
        rw [hroots c hc hempty] at hhead
        cases hhead
      · obtain ⟨c, hc, hic, hv⟩ := h₁.toRep.row_of_full hfull (SegGeom.isRow_of_not_root hlt hroot)
        have hin : (dirCleanSegment g d s).ent i ∈ Cache.cleaned g d v c := by
          rw [h₁.toRep.ents hc hv]
          exact List.mem_map_of_mem (List.mem_cons_of_mem _ hic)
        have hoff := h₁.offset c hc _ hin
        rw [Seg.ent_offset] at hoff
        simpa [Dir.isEmpty] using hoff
    have hpurge : drift g (freelistPurge g (dirCleanSegment g d s)) = drift g (dirCleanSegment g d s) := by
      rw [freelistPurge_eq]
      exact purge_drift _ List.nodup_range (dirCleanSegment g d s, 0) hheads
    obtain ⟨v₂, hrep₂, -⟩ := h₁.toRep.purged
    exact (hrep₂.cleanSegment_drift.trans hpurge).trans hclean

/-! ## The range -/

/-- `dir_clear_range` takes the slot: no token bit, and the offset in the range -/
def clears (start stop : ℤ) (e : Dir) : Bool := !e.token && decide (start ≤ e.offset) && decide ((e.offset : ℤ) < stop)

def clearStep (start stop : ℤ) (s : Seg) (e : ℕ) : Seg :=
  if clears start stop (s.dir e) then { s.modify e (·.setOffset 0) with used := s.used - 1 } else s

theorem dirClearSlots_eq (g : SegGeom) (start stop : ℤ) (s : Seg) :
    dirClearSlots g start stop s = (List.range g.slots).foldl (clearStep start stop) s := rfl

/-- the slot is counted down although it holds nothing -/
def miscounts (start stop : ℤ) (e : Dir) : Bool := clears start stop e && e.isEmpty

theorem clearStep_drift (start stop : ℤ) (he : e < g.slots) :
    drift g (clearStep start stop s e) = drift g s - if miscounts start stop (s.dir e) then 1 else 0 := by
  unfold clearStep miscounts
  cases clears start stop (s.dir e) with
  | false => exact (sub_zero _).symm
  | true =>
    rw [if_pos rfl, Bool.true_and]
    exact drift_clear he

theorem clearStep_other (start stop : ℤ) (hi : i ≠ e) : (clearStep start stop s e).dir i = s.dir i := by
  unfold clearStep
  split_ifs
  · show (s.modify e (·.setOffset 0)).dir i = s.dir i
    rw [Seg.modify_dir, if_neg hi]
  · rfl

theorem clearSteps_drift (start stop : ℤ) (l : List ℕ) (hnd : l.Nodup) (hl : ∀ i ∈ l, i < g.slots) :
    drift g (l.foldl (clearStep start stop) s) = drift g s - (l.filter fun i => miscounts start stop (s.dir i)).length := by
  induction l generalizing s with
  | nil => exact (sub_zero _).symm
  | cons e l ih =>
    obtain ⟨he, hnd⟩ := List.nodup_cons.1 hnd
    have hrest := ih (s := clearStep start stop s e) hnd fun i hi => hl i (List.mem_cons_of_mem _ hi)
    have hsame : (l.filter fun i => miscounts start stop ((clearStep start stop s e).dir i)) =
        l.filter fun i => miscounts start stop (s.dir i) := by
      refine List.filter_congr fun i hi => ?_
      rw [clearStep_other]
      rintro rfl
      exact he hi
    rw [List.foldl_cons, hrest, hsame, clearStep_drift start stop (hl e List.mem_cons_self), List.filter_cons]
    split_ifs
    · rw [List.length_cons, Nat.cast_succ]
      ring
    · rw [sub_zero]

/-- the slots of a segment that `dir_clear_range` counts down although they hold nothing -/
def miscounted (g : SegGeom) (start stop : ℤ) (s : Seg) : ℕ :=
  ((List.range g.slots).filter fun i => miscounts start stop (s.dir i)).length

theorem clearSlots_drift (g : SegGeom) (start stop : ℤ) (s : Seg) :
    drift g (dirClearSlots g start stop s) = drift g s - miscounted g start stop s := by
  rw [dirClearSlots_eq]
  exact clearSteps_drift start stop _ List.nodup_range fun i hi => List.mem_range.1 hi

theorem miscounts_iff (start stop : ℤ) (e : Dir) :
    miscounts start stop e = true ↔ e.offset = 0 ∧ e.token = false ∧ start ≤ 0 ∧ 0 < stop := by
  simp only [miscounts, clears, Dir.isEmpty, Bool.and_eq_true, Bool.not_eq_true', decide_eq_true_eq, beq_iff_eq]
  constructor
  · rintro ⟨⟨⟨htoken, hstart⟩, hstop⟩, h0⟩
    rw [h0, Nat.cast_zero] at hstart hstop
    exact ⟨h0, htoken, hstart, hstop⟩
  · rintro ⟨h0, htoken, hstart, hstop⟩
    rw [h0, Nat.cast_zero]
    exact ⟨⟨⟨htoken, hstart⟩, hstop⟩, rfl⟩

/-! ## Lookup and deletion -/

theorem Cursor.deleteLoop_drift (hi : Inv g s k ch v) (o fuel : ℕ) (h : Cursor g s k ch v b pre e post) :
    drift g (dirDeleteLoop key o fuel pre.getLast? e s).1 = drift g s := by
  induction fuel generalizing pre e post with
  | zero => rfl
  | succ fuel ih =>
    unfold dirDeleteLoop
    split_ifs with hhit
    · exact h.drop_drift (hi.not_empty h) _
    · rw [h.next]
      cases post with
      | nil => rfl
      | cons n post =>
        have hrest := ih h.advance
        rwa [List.getLast?_concat] at hrest

theorem Inv.delete_drift (h : Inv g s k ch v) (del : Dir) : drift g (dirDelete g key del s).1 = drift g s := by
  have hb := bucketOf_lt g (key.slice32 1)
  unfold dirDelete
  dsimp only
  split_ifs with hroot
  · rfl
  · have hv : v (key.slice32 1 % g.buckets) ≠ [] := fun hv => hroot ((h.root_empty hb).2 hv)
    exact (h.toRep.cursor hb hv).deleteLoop_drift h del.offset (g.slots + 1)

/-- a round of the loop of `dir_probe`, with what the chain ends in as the default -/
theorem dirProbeLoop_succ (fuel : ℕ) (c p : Option ℕ) :
    dirProbeLoop d key (fuel + 1) c p e s =
      let cont (c : Option ℕ) := (s.nextDir e).elim (s, none, c) fun n => dirProbeLoop d key fuel c (some e) n s
      let deleted := dirDeleteEntry e p { s with used := s.used - 1 }
      if (s.dir e).compareTag key then
        if c.isSome then cont (if c = some e then none else c)
        else if dirValid d (s.dir e) then (s, some e, none)
        else deleted.2.elim (deleted.1, none, none) fun e => dirProbeLoop d key fuel none p e deleted.1
      else cont c := by
  rw [dirProbeLoop]
  cases s.nextDir e <;> rcases dirDeleteEntry e p { s with used := s.used - 1 } with ⟨s₂, _ | e'⟩ <;> rfl

/-- the loop of `dir_probe`, with or without a collision to wait for -/
theorem Cursor.probeLoop_drift (hi : Inv g s k ch v) (fuel : ℕ) (c : Option ℕ) (h : Cursor g s k ch v b pre e post) :
    drift g (dirProbeLoop d key fuel c pre.getLast? e s).1 = drift g s := by
  induction fuel generalizing s ch v pre e post c with
  | zero => rfl
  | succ fuel ih =>
    have hgo : ∀ c : Option ℕ,
        drift g ((s.nextDir e).elim (s, none, c) fun n => dirProbeLoop d key fuel c (some e) n s).1 = drift g s := by
      intro c
      rw [h.next]
      cases post with
      | nil => rfl
      | cons n post =>
        have hrest := ih hi c h.advance
        rwa [List.getLast?_concat] at hrest
    rw [dirProbeLoop_succ]
    dsimp only
    split_ifs with htag hc hat hval
    · exact hgo none
    · exact hgo c
    · rfl
    · -- the invalid entry is deleted
      have hdrop := h.drop_drift (hi.not_empty h) pre.getLast?
      have h₁ : Cursor g { s with used := s.used - 1 } k ch v b pre e post := h.of_dir_eq rfl rfl rfl rfl
      rcases hdel : dirDeleteEntry e pre.getLast? { s with used := s.used - 1 } with ⟨s₂, _ | e'⟩
      · rw [hdel] at hdrop
        exact hdrop
      · obtain ⟨ch', post', hcur, -⟩ := h₁.delete_some hdel
        have hi₂ : Inv g s₂ k ch' _ := hi.of_sublist hcur.rep fun c _ => sublist_update (by
          rw [h₁.ents]
          exact (List.Sublist.refl _).append (List.sublist_cons_self _ _)) c
        rw [hdel] at hdrop
        exact (ih hi₂ none hcur).trans hdrop
    · exact hgo c

/-- a pass that still waits for its collision at the end has changed nothing -/
theorem dirProbeLoop_waiting (fuel : ℕ) (c p : Option ℕ) {x : ℕ} (h : (dirProbeLoop d key fuel c p e s).2.2 = some x) :
    c ≠ none ∧ (dirProbeLoop d key fuel c p e s).1 = s := by
  induction fuel generalizing s c p e with
  | zero =>
    have hc : c = some x := h
    exact ⟨by rw [hc]; exact Option.some_ne_none x, rfl⟩
  | succ fuel ih =>
    have hgo : ∀ c : Option ℕ,
        ((s.nextDir e).elim (s, none, c) fun n => dirProbeLoop d key fuel c (some e) n s).2.2 = some x →
          c ≠ none ∧ ((s.nextDir e).elim (s, none, c) fun n => dirProbeLoop d key fuel c (some e) n s).1 = s := by
      intro c hres
      cases hnext : s.nextDir e with
      | none =>
        rw [hnext] at hres
        have hc : c = some x := hres
        exact ⟨by rw [hc]; exact Option.some_ne_none x, rfl⟩
      | some n =>
        rw [hnext] at hres
        exact ih c (some e) hres
    rw [dirProbeLoop_succ] at h ⊢
    dsimp only at h ⊢
    split_ifs at h ⊢ with htag hc hat hval
    · exact absurd rfl (hgo none h).1
    · exact hgo c h
    · -- after a deletion there is no collision left
      rcases hdel : dirDeleteEntry e p { s with used := s.used - 1 } with ⟨s₂, _ | e'⟩
      · rw [hdel] at h
        cases h
      · rw [hdel] at h
        exact absurd rfl (ih none p h).1
    · exact hgo c h

theorem Inv.probePass_drift (h : Inv g s k ch v) (d : VolPos) (key : CacheKey) (c : Option ℕ) :
    drift g (dirProbePass g d key c s).1 = drift g s := by
  have hb := bucketOf_lt g (key.slice32 1)
  unfold dirProbePass
  dsimp only
  split_ifs with hroot
  · rfl
  · have hv : v (key.slice32 1 % g.buckets) ≠ [] := fun hv => hroot ((h.root_empty hb).2 hv)
    exact (h.toRep.cursor hb hv).probeLoop_drift h (g.slots + 1) c

theorem dirProbePass_waiting (c : Option ℕ) {x : ℕ} (h : (dirProbePass g d key c s).2.2 = some x) :
    (dirProbePass g d key c s).1 = s := by
  unfold dirProbePass at h ⊢
  dsimp only at h ⊢
  split_ifs at h ⊢ with hroot
  · rfl
  · exact (dirProbeLoop_waiting (g.slots + 1) c none h).2

theorem Inv.probe_drift (h : Inv g s k ch v) (last : Option ℕ) : drift g (dirProbe g d key last s).1 = drift g s := by
  have hfirst := h.probePass_drift d key last
  unfold dirProbe
  dsimp only
  rcases hpass : dirProbePass g d key last s with ⟨s₁, _ | e, _ | x⟩
  · rw [hpass] at hfirst
    exact hfirst
  · -- the retry starts where the first pass did
    have hsame : (dirProbePass g d key last s).1 = s :=
      dirProbePass_waiting last (show (dirProbePass g d key last s).2.2 = some x by rw [hpass])
    rw [hpass] at hsame
    obtain rfl : s₁ = s := hsame
    have hsecond := h.probePass_drift d key none
    dsimp only
    rcases hretry : dirProbePass g d key none s₁ with ⟨s₂, _ | e, _⟩ <;> rw [hretry] at hsecond <;> exact hsecond
  · rw [hpass] at hfirst
    exact hfirst
  · rw [hpass] at hfirst
    exact hfirst

/-! ## Insertion and overwriting -/

/-- a slot that is taken for a new entry holds nothing -/
theorem Inv.takeSlot_drift (h : Inv g s k ch v) (hb : b < g.buckets) :
    drift g (dirTakeSlot g d (dirBucket b) s).1 = drift g s ∧ ∀ e, (dirTakeSlot g d (dirBucket b) s).2 = some e →
      e < g.slots ∧ ((dirTakeSlot g d (dirBucket b) s).1.dir e).isEmpty = true := by
  obtain ⟨free, loc, hl, hh⟩ := h.links
  -- a freelist slot, linked behind the root
  have hfree : ∀ e ∈ free, drift g (dirLink e (dirBucket b) (unlinkFromFreelist e s)) = drift g s ∧ e < g.slots ∧
      ((dirLink e (dirBucket b) (unlinkFromFreelist e s)).dir e).isEmpty = true := by
    intro e he
    have hsame : ∀ i, ((dirLink e (dirBucket b) (unlinkFromFreelist e s)).dir i).isEmpty = (s.dir i).isEmpty := fun i =>
      (dirLink_isEmpty _ _ _ i).trans (unlinkFromFreelist_isEmpty e s i)
    refine ⟨drift_congr (unlinkFromFreelist_used e s) hsame, (hl.row_of_free he).1, ?_⟩
    rw [hsame, Dir.isEmpty, hl.free0 e he]
    rfl
  unfold dirTakeSlot
  by_cases hroot : (s.dir (dirBucket b)).isEmpty = true
  · rw [if_pos hroot]
    refine ⟨rfl, fun e he => ?_⟩
    obtain rfl : dirBucket b = e := Option.some.inj he
    exact ⟨dirBucket_lt hb, hroot⟩
  · rw [if_neg hroot]
    rcases hrow : emptyRow (dirBucket b) s with _ | e
    · dsimp only
      cases free with
      | nil =>
        rw [freelistPop_nil d hl]
        exact ⟨h.toRep.freelistClean_drift, fun e he => by cases he⟩
      | cons e free =>
        rw [freelistPop_cons d hl]
        obtain ⟨hdrift, hlt, hempty⟩ := hfree e List.mem_cons_self
        refine ⟨hdrift, fun x hx => ?_⟩
        obtain rfl : e = x := Option.some.inj hx
        exact ⟨hlt, hempty⟩
    · obtain ⟨hdrift, hlt, hempty⟩ := hfree e (h.emptyRow_free hb hl hh hrow)
      refine ⟨hdrift, fun x hx => ?_⟩
      obtain rfl : e = x := Option.some.inj hx
      exact ⟨hlt, hempty⟩

theorem dirFill_drift (he : e < g.slots) {x : Dir} (hx : x.offset ≠ 0) (t : ℕ) :
    drift g (dirFill e x t s) = drift g s + full (s.dir e) - 1 := by
  have hfull : full (((s.dir e).assignData x).setTag t) = 1 := by
    have hempty : (((s.dir e).assignData x).setTag t).isEmpty = false := by simpa [Dir.isEmpty] using hx
    rw [full, hempty]
    rfl
  have hset := drift_set (g := g) (s := s) he (((s.dir e).assignData x).setTag t)
  rw [hfull] at hset
  rw [← hset]
  exact drift_congr rfl fun i => rfl

theorem dirFillNew_drift (he : e < g.slots) (hempty : (s.dir e).isEmpty = true) {x : Dir} (hx : x.offset ≠ 0) (t : ℕ) :
    drift g (dirFillNew e x t s) = drift g s := by
  have hnew : drift g (dirFillNew e x t s) = drift g (dirFill e x t s) + 1 := by
    show drift g { (dirFill e x t s).mark e with used := s.used + 1 } = _
    rw [drift_used]
    have hmark : drift g ((dirFill e x t s).mark e) = drift g (dirFill e x t s) := rfl
    have hused : ((dirFill e x t s).mark e).used = s.used := rfl
    rw [hmark, hused]
    ring
  rw [hnew, dirFill_drift he hx, full, if_pos hempty]
  ring

theorem Inv.insert_drift {x : Dir} (hx : x.offset ≠ 0) (fuel : ℕ) (h : Inv g s k ch v) :
    drift g (dirInsert g d key x fuel s).1 = drift g s := by
  induction fuel generalizing s ch v with
  | zero => rfl
  | succ fuel ih =>
    have hb := bucketOf_lt g (key.slice32 1)
    obtain ⟨hdrift, hslot⟩ := h.takeSlot_drift (d := d) hb
    unfold dirInsert
    rcases h.takeSlot d hb with ⟨s', e, ch', v', pre, post, heq, -⟩ | ⟨s', ch', v', heq, h', -⟩
    · rw [heq] at hdrift hslot ⊢
      obtain ⟨hlt, hempty⟩ := hslot e rfl
      exact (dirFillNew_drift hlt hempty hx _).trans hdrift
    · rw [heq] at hdrift ⊢
      exact (ih h').trans hdrift

theorem Inv.overwrite_drift {x : Dir} (old : Dir) (must : Bool) (hx : x.offset ≠ 0) (fuel : ℕ) (h : Inv g s k ch v) :
    drift g (dirOverwrite g d key x old must fuel s).1 = drift g s := by
  induction fuel generalizing s ch v with
  | zero => rfl
  | succ fuel ih =>
    have hb := bucketOf_lt g (key.slice32 1)
    unfold dirOverwrite
    dsimp only
    generalize hfound : (if (s.dir (dirBucket (key.slice32 1 % g.buckets))).isEmpty = true then none
      else dirOverwriteFind (DIR_MASK_TAG (key.slice32 2)) old.offset (g.slots + 1) (dirBucket (key.slice32 1 % g.buckets)) s)
        = found
    cases found with
    | some e =>
      -- the entry that is overwritten has been counted
      split_ifs at hfound with hroot
      have hv : v (key.slice32 1 % g.buckets) ≠ [] := fun hv => hroot ((h.root_empty hb).2 hv)
      obtain ⟨pre, post, hcur⟩ := (h.toRep.cursor hb hv).overwriteFind hfound
      have hlt : e < g.slots := h.toRep.slot_lt hb (by rw [hcur.pos]; simp)
      have hfull : full (s.dir e) = 1 := by rw [full, h.not_empty hcur]; rfl
      dsimp only
      rw [dirFill_drift hlt hx, hfull]
      ring
    | none =>
      dsimp only
      split_ifs with hmust
      · rfl
      · obtain ⟨hdrift, hslot⟩ := h.takeSlot_drift (d := d) hb
        rcases h.takeSlot d hb with ⟨s', e, ch', v', pre, post, heq, -⟩ | ⟨s', ch', v', heq, h', -⟩
        · rw [heq] at hdrift hslot ⊢
          obtain ⟨hlt, hempty⟩ := hslot e rfl
          exact (dirFillNew_drift hlt hempty hx _).trans hdrift
        · rw [heq] at hdrift ⊢
          exact (ih h').trans hdrift

/-! ## Runs -/

/-- initialised segments hold no entry, and the statistic is what it was -/
theorem dirInitSegment_drift (g : SegGeom) (s : Seg) : drift g (dirInitSegment g s) = s.used := by
  have hfold : ∀ (l : List ℕ) (s : Seg), drift g (l.foldl (fun s e => dirFreeEntry e s) s) = drift g s := by
    intro l
    induction l with
    | nil => intro s; rfl
    | cons e l ih =>
      intro s
      rw [List.foldl_cons, ih]
      exact drift_congr (dirFreeEntry_used e s) (dirFreeEntry_isEmpty e s)
  rw [dirInitSegment_eq, hfold, drift, occupied, Finset.filter_false_of_mem]
  · exact sub_zero _
  · intro i hi
    dsimp only
    rw [if_pos (Finset.mem_range.1 hi)]
    decide

end Drift

namespace VolDir

/-- the slots of segment `i` that a call counts down although they hold nothing -/
def misses (vd : VolDir) (i : ℕ) : DirOp → ℕ
  | .clearRange _ start stop => miscounted vd.geom start stop (vd.seg i)
  | _ => 0

theorem setSeg_drift {vd : VolDir} {i j : ℕ} {s : Seg} (hs : j = i → drift vd.geom s = drift vd.geom (vd.seg i)) :
    drift vd.geom ((vd.setSeg j s).seg i) = drift vd.geom (vd.seg i) := by
  show drift vd.geom (Function.update vd.seg j s i) = _
  rcases eq_or_ne i j with rfl | hij
  · rw [Function.update_self]; exact hs rfl
  · rw [Function.update_of_ne hij]

theorem clearRange_seg {vd : VolDir} (d : VolPos) (start stop : ℤ) {i : ℕ} (hi : i < vd.segments) :
    (dirClearRange d start stop vd).seg i = dirCleanSegment vd.geom d (dirClearSlots vd.geom start stop (vd.seg i)) := by
  show (if i < vd.segments then dirCleanSegment vd.geom d
    (if i < vd.segments then dirClearSlots vd.geom start stop (vd.seg i) else vd.seg i) else _) = _
  rw [if_pos hi, if_pos hi]

theorem step_drift {vd : VolDir} (op : DirOp) (hop : op.Ok) {i k : ℕ} {ch : ℕ → List ℕ} {v : ℕ → List Entry}
    (hi : i < vd.segments) (h : Inv vd.geom (vd.seg i) k ch v) :
    drift vd.geom ((vd.step op).seg i) = drift vd.geom (vd.seg i) - vd.misses i op := by
  cases op with
  | insert d key x n => exact (setSeg_drift fun hj => by subst hj; exact h.insert_drift hop n).trans (sub_zero _).symm
  | overwrite d key x o must n =>
    exact (setSeg_drift fun hj => by subst hj; exact h.overwrite_drift o must hop n).trans (sub_zero _).symm
  | delete key x => exact (setSeg_drift fun hj => by subst hj; exact h.delete_drift x).trans (sub_zero _).symm
  | probe d key c => exact (setSeg_drift fun hj => by subst hj; exact h.probe_drift c).trans (sub_zero _).symm
  | cleanSegment d j =>
    exact (setSeg_drift fun hj => by subst hj; exact h.toRep.cleanSegment_drift).trans (sub_zero _).symm
  | freelistClean d j =>
    exact (setSeg_drift fun hj => by subst hj; exact h.toRep.freelistClean_drift).trans (sub_zero _).symm
  | clearRange d start stop =>
    obtain ⟨v', hr, -⟩ := h.toRep.clearSlots start stop
    have hseg : (vd.step (.clearRange d start stop)).seg i = _ := clearRange_seg d start stop hi
    rw [hseg, hr.cleanSegment_drift, clearSlots_drift]
    rfl

/-- In a run the statistic falls behind by what its calls miss. -/
theorem run_drift {vd : VolDir} (ops : List DirOp) (hops : ∀ op ∈ ops, op.Ok) (h : ∀ j, SegInv vd.geom (vd.seg j)) {i : ℕ}
    (hi : i < vd.segments) : drift vd.geom ((vd.run ops).seg i) ≤ drift vd.geom (vd.seg i) ∧
    (drift vd.geom ((vd.run ops).seg i) = drift vd.geom (vd.seg i) ↔
      Run.Along VolDir.step (fun vd op => vd.misses i op = 0) vd ops) := by
  induction ops generalizing vd with
  | nil => exact ⟨le_rfl, fun _ => trivial, fun _ => rfl⟩
  | cons op ops ih =>
    have hop := hops op List.mem_cons_self
    obtain ⟨k, ch, v, hinv⟩ := h i
    have hstep := step_drift op hop hi hinv
    have hsegs : i < (vd.step op).segments := by cases op <;> exact hi
    have hrest := ih (fun o ho => hops o (List.mem_cons_of_mem _ ho)) (step_inv op hop h) hsegs
    rw [step_geom, hstep] at hrest
    obtain ⟨hle, hiff⟩ := hrest
    have hmiss := Int.natCast_nonneg (vd.misses i op)
    refine ⟨le_trans hle (sub_le_self _ hmiss), fun heq => ?_, fun hal => ?_⟩
    · have heq' : drift vd.geom (((vd.step op).run ops).seg i) = drift vd.geom (vd.seg i) := heq
      have hzero : (vd.misses i op : ℤ) = 0 := by omega
      exact ⟨by exact_mod_cast hzero, hiff.1 (by rw [heq', hzero, sub_zero])⟩
    · have hzero : vd.misses i op = 0 := hal.1
      have hrun := hiff.2 hal.2
      rw [hzero, Nat.cast_zero, sub_zero] at hrun
      exact hrun

end VolDir

/-- A call counts right on segment `i`: `dir_clear_range` gets a range without 0, or every slot that holds nothing has the token bit. -/
def DirOp.CountsRight (i : ℕ) (vd : VolDir) : DirOp → Prop
  | .clearRange _ start stop => 0 < start ∨ stop ≤ 0 ∨
      ∀ e < vd.geom.slots, ((vd.seg i).dir e).offset = 0 → ((vd.seg i).dir e).token = true
  | _ => True

theorem misses_iff (vd : VolDir) (i : ℕ) (op : DirOp) : vd.misses i op = 0 ↔ op.CountsRight i vd := by
  cases op with
  | clearRange d start stop =>
    show miscounted vd.geom start stop (vd.seg i) = 0 ↔ (0 < start ∨ stop ≤ 0 ∨ _)
    rw [miscounted, List.length_eq_zero_iff, List.filter_eq_nil_iff]
    constructor
    · intro hall
      by_cases hstart : 0 < start
      · exact Or.inl hstart
      by_cases hstop : stop ≤ 0
      · exact Or.inr (Or.inl hstop)
      refine Or.inr (Or.inr fun e he h0 => ?_)
      by_contra htoken
      refine hall e (List.mem_range.2 he) ((miscounts_iff ..).2 ⟨h0, ?_, not_lt.1 hstart, not_le.1 hstop⟩)
      simpa using htoken
    · intro hright e he hmis
      obtain ⟨h0, htoken, hstart, hstop⟩ := (miscounts_iff ..).1 hmis
      rcases hright with h | h | h
      · exact absurd hstart (not_le.2 h)
      · exact absurd hstop (not_lt.2 h)
      · rw [h e (List.mem_range.1 he) h0] at htoken
        cases htoken
  | insert | overwrite | delete | probe | cleanSegment | freelistClean => exact ⟨fun _ => trivial, fun _ => rfl⟩

end TrafficServer.Cache
