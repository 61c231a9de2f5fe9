/-
The `Lagain` loop of `dir_insert` and `dir_overwrite`: when it ends.

A pass that finds neither the bucket's root, nor a slot of its row, nor the freelist with room calls `freelist_clean` and
starts again. `freelist_clean` drops the invalid entries and, if the freelist is still empty, the offsets of every tenth
document head. So it frees nothing at all when the entries are valid and none of them is a head, and then the loop
repeats for ever.

`Stored` is what the argument needs of a segment, the ghost stamps apart: the lists of `SegmentInv`, all of their entries
with an offset. An entry is CRITICAL for a bucket when it is in that bucket or in one with a chain: removing it gives a
slot, whereas removing a lone root elsewhere gives none. `Stuck` says that the freelist is empty and every critical entry
is valid and no head. A stuck segment stays stuck (`Stored.clean_stuck`); one that is not stuck finds room or loses an
entry in every pass (`Stored.clean_progress`). `lagain_loop` is the result for both functions.
-/
import Mathlib
import TrafficServer.Cache.SegmentOps

namespace TrafficServer.Cache

open TrafficServer.LinkSeg

/-! ## Segments, the stamps apart -/

/-- the memory `s` represents the lists `v`, and every entry of them has an offset -/
structure Stored (g : SegGeom) (s : Seg) (k : ℕ) (ch : ℕ → List ℕ) (v : ℕ → List Entry) : Prop
    extends Rep g s k ch v where
  offset : ∀ b < g.buckets, ∀ x ∈ v b, x.1.offset ≠ 0

/-- the lists that the slots of a segment hold -/
def Seg.lists (s : Seg) (ch : ℕ → List ℕ) (b : ℕ) : List Entry :=
  if (s.dir (dirBucket b)).isEmpty then [] else (dirBucket b :: ch b).map s.ent

section Loop

variable {g : SegGeom} {d : VolPos} {s s' : Seg} {k : ℕ} {free : List ℕ} {ch : ℕ → List ℕ} {v v' : ℕ → List Entry}
  {b c e : ℕ} {pre post : List ℕ}

theorem SegGeom.isRow_of_not_root (he : e < g.slots) (hr : ¬ g.IsRoot e) : g.IsRow e := by
  refine ⟨he, fun hmod => hr ⟨e / 4, ?_, ?_⟩⟩
  · simp only [SegGeom.slots, DIR_DEPTH] at he; omega
  · simp only [dirBucket, DIR_DEPTH] at hmod ⊢; omega

theorem SegGeom.IsRow.not_root (h : g.IsRow e) : ¬ g.IsRoot e := by
  intro ⟨b, _, heq⟩
  exact h.ne_root b heq

open Classical in
/-- the slots of a segment that satisfies the invariant are in the places that its lists give them -/
theorem SegmentOk.links (h : SegmentOk g s free ch) :
    ∃ loc, Links g s free ch loc ∧ ∀ e, g.IsRow e → loc e ≠ .held := by
  have hfree : ∀ e ∈ free, g.IsRow e ∧ ∀ b < g.buckets, e ∉ ch b := by
    intro e he
    rcases h.place e (h.inside.1 e he) with ⟨_, _, h3⟩ | ⟨_, _, h3⟩ | ⟨h1, h2, _⟩
    · exact absurd he h3
    · exact absurd he h3
    · exact ⟨SegGeom.isRow_of_not_root (h.inside.1 e he) h1, h2⟩
  have hch : ∀ b < g.buckets, ∀ e ∈ ch b, g.IsRow e ∧ e ∉ free ∧ ∀ c < g.buckets, e ∈ ch c → c = b := by
    intro b hb e he
    rcases h.place e (h.inside.2 b hb e he) with ⟨_, h2, _⟩ | ⟨h1, ⟨b', _, huniq⟩, h3⟩ | ⟨_, h2, _⟩
    · exact absurd he (h2 b hb)
    · refine ⟨SegGeom.isRow_of_not_root (h.inside.2 b hb e he) h1, h3, fun c hc hec => ?_⟩
      rw [huniq c ⟨hc, hec⟩, huniq b ⟨hb, he⟩]
    · exact absurd he (h2 b hb)
  -- a slot on no chain is on the freelist
  let loc : ℕ → Place := fun e => if hx : ∃ b, b < g.buckets ∧ e ∈ ch b then .chain hx.choose else .free
  have hloc : ∀ b < g.buckets, ∀ e ∈ ch b, loc e = .chain b := by
    intro b hb e he
    have hx : ∃ b, b < g.buckets ∧ e ∈ ch b := ⟨b, hb, he⟩
    show (if hx : ∃ b, b < g.buckets ∧ e ∈ ch b then Place.chain hx.choose else .free) = _
    rw [dif_pos hx, (hch b hb e he).2.2 _ hx.choose_spec.1 hx.choose_spec.2]
  have hnone : ∀ e, (¬ ∃ b, b < g.buckets ∧ e ∈ ch b) → loc e = .free := fun e hx => dif_neg hx
  have hin : ∀ e b, loc e = .chain b → b < g.buckets ∧ e ∈ ch b := by
    intro e b hl
    by_cases hx : ∃ b, b < g.buckets ∧ e ∈ ch b
    · obtain ⟨c, hc, hec⟩ := hx
      rw [hloc c hc e hec] at hl
      cases hl
      exact ⟨hc, hec⟩
    · rw [hnone e hx] at hl
      cases hl
  refine ⟨loc, ⟨⟨fun e => ⟨fun he => ⟨(hfree e he).1, ?_⟩, fun ⟨hr, hl⟩ => ?_⟩, fun b hb e => ⟨fun he => ?_, fun ⟨_, hl⟩ => ?_⟩,
    fun e b _ hl => (hin e b hl).1⟩, h.freelist, h.chain, h.freeOffset, ?_⟩, fun e _ hl => ?_⟩
  · exact hnone e fun ⟨b, hb, heb⟩ => (hfree e he).2 b hb heb
  · rcases h.place e hr.1 with ⟨h1, _, _⟩ | ⟨_, ⟨b, ⟨hb, heb⟩, _⟩, _⟩ | ⟨_, _, h3⟩
    · exact absurd h1 hr.not_root
    · rw [hloc b hb e heb] at hl; cases hl
    · exact h3
  · exact ⟨(hch b hb e he).1, hloc b hb e he⟩
  · exact (hin e b hl).2
  · -- the head of the freelist is a slot
    obtain ⟨q, hq⟩ := h.freelist
    have hhead := hq.lseg.head
    by_cases h0 : s.freelist = 0
    · rw [h0]; decide
    · rw [dirFromOffset_pos h0] at hhead
      exact (hfree _ (List.mem_of_head? hhead.symm)).1.lt
  · by_cases hx : ∃ b, b < g.buckets ∧ e ∈ ch b
    · obtain ⟨b, hb, heb⟩ := hx
      rw [hloc b hb e heb] at hl; cases hl
    · rw [hnone e hx] at hl; cases hl

/-- what a bucket with an empty root, or with a chain, looks like -/
theorem SegmentOk.stored (h : SegmentOk g s free ch) : Stored g s s.clock ch (s.lists ch) := by
  obtain ⟨loc, hl, hh⟩ := h.links
  refine ⟨⟨rfl, ⟨free, loc, hl, hh⟩, fun b hb => ?_⟩, fun b hb x hx => ?_⟩
  · unfold Seg.lists
    split_ifs with h0
    · refine Or.inl ⟨rfl, ?_, by simpa [Dir.isEmpty] using h0⟩
      by_contra hne
      exact h.rootOffset b hb hne (by simpa [Dir.isEmpty] using h0)
    · exact Or.inr rfl
  · unfold Seg.lists at hx
    split_ifs at hx with h0
    · cases hx
    · obtain ⟨e, he, rfl⟩ := List.mem_map.1 hx
      rw [Seg.ent_offset]
      rcases List.mem_cons.1 he with rfl | he
      · simpa [Dir.isEmpty] using h0
      · exact h.chainOffset b hb e he

theorem Stored.root_empty (h : Stored g s k ch v) (hb : b < g.buckets) :
    (s.dir (dirBucket b)).isEmpty = true ↔ v b = [] := by
  rcases h.holds b hb with ⟨h1, -, h3⟩ | h1
  · simp [h1, Dir.isEmpty, h3]
  · have hmem : s.ent (dirBucket b) ∈ v b := by rw [← h1]; simp
    have h0 : (s.dir (dirBucket b)).offset ≠ 0 := h.offset b hb _ hmem
    simp [Dir.isEmpty, h0, List.ne_nil_of_mem hmem]

/-- the slots of a bucket that holds something hold its list -/
theorem Rep.ents (h : Rep g s k ch v) (hb : b < g.buckets) (hv : v b ≠ []) :
    v b = (dirBucket b :: ch b).map s.ent := (h.cursor hb hv).ents

theorem Rep.ch_length (h : Rep g s k ch v) (hb : b < g.buckets) : (ch b).length = (v b).length - 1 := by
  rcases h.holds b hb with ⟨h1, h2, -⟩ | h1
  · rw [h1, h2]; rfl
  · rw [← h1, List.length_map]; rfl

/-! ## Room -/

/-- how many slots are no roots -/
def SegGeom.rowSlots (g : SegGeom) : ℕ := ((Finset.range g.slots).filter fun e => e % DIR_DEPTH ≠ 0).card

/-- every slot that is no root is on the freelist or on a chain -/
theorem Links.count {loc : ℕ → Place} (hl : Links g s free ch loc) (hh : ∀ e, g.IsRow e → loc e ≠ .held) :
    free.length + ∑ b ∈ Finset.range g.buckets, (ch b).length = g.rowSlots := by
  have hdis : ∀ b ∈ Finset.range g.buckets, ∀ c ∈ Finset.range g.buckets, b ≠ c →
      Disjoint (ch b).toFinset (ch c).toFinset := by
    intro b hb c hc hbc
    rw [Finset.disjoint_left]
    intro e he he'
    exact hl.bucket_apart (Finset.mem_range.1 hb) (Finset.mem_range.1 hc) hbc
      (List.mem_cons_of_mem _ (List.mem_toFinset.1 he)) (List.mem_cons_of_mem _ (List.mem_toFinset.1 he'))
  have hchains : ((Finset.range g.buckets).biUnion fun b => (ch b).toFinset).card =
      ∑ b ∈ Finset.range g.buckets, (ch b).length := by
    rw [Finset.card_biUnion hdis]
    exact Finset.sum_congr rfl fun b hb => List.toFinset_card_of_nodup (hl.nodup_ch (Finset.mem_range.1 hb))
  have hfree : free.toFinset.card = free.length := List.toFinset_card_of_nodup hl.nodup_free
  have hapart : Disjoint free.toFinset ((Finset.range g.buckets).biUnion fun b => (ch b).toFinset) := by
    rw [Finset.disjoint_left]
    intro e he he'
    obtain ⟨b, hb, heb⟩ := Finset.mem_biUnion.1 he'
    exact hl.not_free_of_ch (Finset.mem_range.1 hb) (List.mem_toFinset.1 heb) (List.mem_toFinset.1 he)
  rw [← hchains, ← hfree, ← Finset.card_union_of_disjoint hapart]
  refine congrArg Finset.card (Finset.ext fun e => ?_)
  simp only [Finset.mem_union, List.mem_toFinset, Finset.mem_biUnion, Finset.mem_range, Finset.mem_filter]
  constructor
  · rintro (he | ⟨b, hb, he⟩)
    · exact hl.row_of_free he
    · exact hl.row_of_ch hb he
  · intro hrow
    rcases hloc : loc e with _ | b | _
    · exact Or.inl ((hl.memFree e).2 ⟨hrow, hloc⟩)
    · have hb := hl.inside e b hrow hloc
      exact Or.inr ⟨b, hb, (hl.memCh b hb e).2 ⟨hrow, hloc⟩⟩
    · exact absurd hloc (hh e hrow)

/-- the slots that the lists of the buckets take besides the roots -/
def taken (g : SegGeom) (v : ℕ → List Entry) : ℕ := ∑ b ∈ Finset.range g.buckets, ((v b).length - 1)

/-- the freelist is empty: the entries take every slot that is no root -/
def Full (g : SegGeom) (v : ℕ → List Entry) : Prop := taken g v = g.rowSlots

theorem Rep.free_nil_iff (h : Rep g s k ch v) {loc : ℕ → Place} (hl : Links g s free ch loc)
    (hh : ∀ e, g.IsRow e → loc e ≠ .held) : free = [] ↔ Full g v := by
  have hcount := hl.count hh
  have htaken : taken g v = ∑ b ∈ Finset.range g.buckets, (ch b).length :=
    Finset.sum_congr rfl fun b hb => (h.ch_length (Finset.mem_range.1 hb)).symm
  unfold Full
  rw [htaken, ← List.length_eq_zero_iff]
  omega

theorem Rep.freelist_zero_iff (h : Rep g s k ch v) : s.freelist = 0 ↔ Full g v := by
  obtain ⟨free, loc, hl, hh⟩ := h.links
  obtain ⟨q, hq⟩ := hl.freelist
  rw [← h.free_nil_iff hl hh, ← dirFromOffset_eq_none, hq.lseg.head, List.head?_eq_none_iff]

/-- in a full segment every slot that is no root holds an entry -/
theorem Rep.row_of_full (h : Rep g s k ch v) (hfull : Full g v) (hrow : g.IsRow e) :
    ∃ b < g.buckets, e ∈ ch b ∧ v b ≠ [] := by
  obtain ⟨free, loc, hl, hh⟩ := h.links
  have hnil := (h.free_nil_iff hl hh).2 hfull
  rcases hloc : loc e with _ | b | _
  · have := (hl.memFree e).2 ⟨hrow, hloc⟩
    rw [hnil] at this
    cases this
  · have hb := hl.inside e b hrow hloc
    have heb := (hl.memCh b hb e).2 ⟨hrow, hloc⟩
    refine ⟨b, hb, heb, fun hv => ?_⟩
    have hlen := h.ch_length hb
    rw [hv] at hlen
    rw [List.length_eq_zero_iff.1 hlen] at heb
    cases heb
  · exact absurd hloc (hh e hrow)

/-- a pass finds no slot exactly when the root is taken and the freelist is empty; then it has cleaned the freelist -/
theorem Stored.takeSlot_none (h : Stored g s k ch v) (hb : b < g.buckets) :
    ((dirTakeSlot g d (dirBucket b) s).2 = none ↔ v b ≠ [] ∧ Full g v) ∧
    ((dirTakeSlot g d (dirBucket b) s).2 = none → (dirTakeSlot g d (dirBucket b) s).1 = freelistClean g d s) := by
  obtain ⟨free, loc, hl, hh⟩ := h.links
  have hfull := h.toRep.free_nil_iff hl hh
  unfold dirTakeSlot
  by_cases hroot : (s.dir (dirBucket b)).isEmpty = true
  · have hv := (h.root_empty hb).1 hroot
    rw [if_pos hroot]
    simp [hv]
  · have hv : v b ≠ [] := fun hv => hroot ((h.root_empty hb).2 hv)
    rw [if_neg hroot]
    rcases hrow : emptyRow (dirBucket b) s with _ | e
    · cases free with
      | nil =>
        rw [freelistPop_nil d hl]
        simp [hv, hfull.1 rfl]
      | cons e free =>
        rw [freelistPop_cons d hl]
        have hnot : ¬ Full g v := fun hf => List.cons_ne_nil _ _ (hfull.2 hf)
        simp [hnot]
    · -- an empty slot of the row is on the freelist
      have hnot : ¬ Full g v := by
        intro hf
        have hzero := List.find?_some hrow
        have hmem := List.mem_of_find?_eq_some hrow
        have hisrow : g.IsRow e := by
          unfold SegGeom.IsRow SegGeom.slots
          simp only [List.map_cons, List.map_nil, List.mem_cons, List.not_mem_nil, or_false, dirBucketRow, dirBucket,
            DIR_DEPTH] at hmem ⊢
          omega
        obtain ⟨c, hc, hec, hvc⟩ := h.toRep.row_of_full hf hisrow
        have hin : s.ent e ∈ v c := by
          rw [h.toRep.ents hc hvc]
          exact List.mem_map_of_mem (List.mem_cons_of_mem _ hec)
        exact h.offset c hc _ hin ((Seg.ent_offset s e).trans (by simpa [Dir.isEmpty] using hzero))
      simp [hnot]

/-! ## What cleaning leaves in the roots -/

theorem dirDeleteAfter_other {p x : ℕ} (he : x ≠ e) (hp : x ≠ p) (hf : s.freelist ≠ 0 → x ≠ s.freelist) :
    (dirDeleteAfter e p s).dir x = s.dir x := by
  unfold dirDeleteAfter
  dsimp only
  split_ifs with h0
  · show (Seg.modify _ s.freelist _).dir x = _
    rw [Seg.modify_dir, if_neg (hf h0), Seg.modify_dir, if_neg he, Seg.modify_dir, if_neg hp, Seg.set_dir, if_neg he]
  · show (Seg.modify _ e _).dir x = _
    rw [Seg.modify_dir, if_neg he, Seg.modify_dir, if_neg hp, Seg.set_dir, if_neg he]

/-- a deletion in one bucket does not touch the root of another -/
theorem Cursor.delete_root (h : Cursor g s k ch v b pre e post) (hc : c < g.buckets) (hcb : c ≠ b) :
    (dirDeleteEntry e pre.getLast? s).1.dir (dirBucket c) = s.dir (dirBucket c) := by
  obtain ⟨free, loc, hl, -⟩ := h.rep.links
  have hroot : ∀ x ∈ pre ++ e :: post, dirBucket c ≠ x := by
    intro x hx heq
    rw [← h.pos] at hx
    exact hl.bucket_apart h.lt hc (Ne.symm hcb) hx (heq ▸ List.mem_cons_self)
  have hfree : s.freelist ≠ 0 → dirBucket c ≠ s.freelist := by
    intro h0
    obtain ⟨q, hq⟩ := hl.freelist
    have hhead := hq.lseg.head
    rw [dirFromOffset_pos h0] at hhead
    exact ((hl.row_of_free (List.mem_of_head? hhead.symm)).ne_root c).symm
  unfold dirDeleteEntry
  cases hp : pre.getLast? with
  | some p =>
    have hpm := List.mem_of_getLast? hp
    exact dirDeleteAfter_other (hroot e (by simp)) (hroot p (by simp [hpm])) hfree
  | none =>
    dsimp only
    rw [h.next]
    cases hpost : post.head? with
    | none => exact (Seg.set_dir ..).trans (if_neg (hroot e (by simp)))
    | some n =>
      have hn : dirBucket c ≠ n := hroot n (by simp [List.mem_of_head? hpost])
      have hcarry : ((s.set e (s.dir n)).carry e n).dir (dirBucket c) = s.dir (dirBucket c) :=
        (Seg.set_dir ..).trans (if_neg (hroot e (by simp)))
      have hafter : (dirDeleteAfter n e ((s.set e (s.dir n)).carry e n)).dir (dirBucket c) =
          ((s.set e (s.dir n)).carry e n).dir (dirBucket c) := dirDeleteAfter_other hn (hroot e (by simp)) hfree
      exact hafter.trans hcarry

theorem Cursor.cleanLoop_root (fuel : ℕ) (h : Cursor g s k ch v b pre e post) (hc : c < g.buckets) (hcb : c ≠ b) :
    (dirCleanLoop d fuel pre.getLast? e s).dir (dirBucket c) = s.dir (dirBucket c) := by
  induction fuel generalizing s ch v pre e post with
  | zero => rfl
  | succ fuel ih =>
    unfold dirCleanLoop
    rcases hbad : (!dirValid d (s.dir e) || (s.dir e).isEmpty) with _ | _
    · rw [if_neg (by decide), h.next]
      cases post with
      | nil => rfl
      | cons n post =>
        have := ih h.advance
        rwa [List.getLast?_concat] at this
    · rw [if_pos rfl]
      generalize hs₁ : (if (s.dir e).isEmpty = true then s else { s with used := s.used - 1 }) = s₁
      have h₁ : Cursor g s₁ k ch v b pre e post := by
        subst hs₁
        split_ifs
        · exact h
        · exact h.of_dir_eq rfl rfl rfl rfl
      have hd₁ : s₁.dir = s.dir := by subst hs₁; split_ifs <;> rfl
      have hroot := h₁.delete_root hc hcb
      rw [hd₁] at hroot
      rcases hdel : dirDeleteEntry e pre.getLast? s₁ with ⟨s₂, _ | e'⟩
      · rw [hdel] at hroot
        simpa [hdel] using hroot
      · obtain ⟨ch', post', hcur, -⟩ := h₁.delete_some hdel
        rw [hdel] at hroot
        simpa [hdel] using (ih hcur).trans hroot

/-- a bucket that loses all of its entries has its root cleared -/
theorem Cursor.cleanLoop_clear (fuel : ℕ) (h : Cursor g s k ch v b [] e post) (hfuel : post.length < fuel)
    (hall : ∀ x ∈ (e :: post).map s.ent, keep d x = false) :
    (dirCleanLoop d fuel none e s).dir (dirBucket b) = Dir.zero := by
  induction fuel generalizing s ch v e post with
  | zero => omega
  | succ fuel ih =>
    have hbad : (!dirValid d (s.dir e) || (s.dir e).isEmpty) = true := by
      have hkeep : keep d (s.ent e) = !(!dirValid d (s.dir e) || (s.dir e).isEmpty) := by
        rw [Bool.not_or, Bool.not_not]; rfl
      rw [hall (s.ent e) List.mem_cons_self] at hkeep
      exact Bool.not_eq_eq_eq_not.mp hkeep.symm
    unfold dirCleanLoop
    rw [if_pos hbad]
    generalize hs₁ : (if (s.dir e).isEmpty = true then s else { s with used := s.used - 1 }) = s₁
    have h₁ : Cursor g s₁ k ch v b [] e post := by
      subst hs₁
      split_ifs
      · exact h
      · exact h.of_dir_eq rfl rfl rfl rfl
    have he₁ : s₁.ent = s.ent := by subst hs₁; split_ifs <;> rfl
    obtain ⟨hroot, hpost⟩ := h₁.root_of_nil
    rcases hdel : dirDeleteEntry e none s₁ with ⟨s₂, _ | e'⟩
    · -- the last entry: the root is overwritten with zeroes
      obtain ⟨hnil, -⟩ := h₁.delete_none hdel
      have hnext : s₁.nextDir e = none := by rw [h₁.next, hnil]; rfl
      have hclear : s₂.dir (dirBucket b) = Dir.zero := by
        simp only [dirDeleteEntry, hnext, Prod.mk.injEq, and_true] at hdel
        rw [← hdel, hroot]
        exact (Seg.set_dir ..).trans (if_pos rfl)
      simpa [hdel] using hclear
    · obtain ⟨ch', post', hcur, -, hmap⟩ := h₁.delete_some hdel
      have hlen := congrArg List.length hmap
      simp only [List.map_cons, List.length_cons, List.length_map] at hlen
      have hrest := ih hcur (by omega) fun x hx => hall x (by
        rw [hmap, he₁] at hx
        exact List.mem_cons_of_mem _ hx)
      simpa [hdel] using hrest

theorem Rep.cleanBucket_root (h : Rep g s k ch v) (hb : b < g.buckets) :
    (∀ c < g.buckets, c ≠ b → (dirCleanBucket g d (dirBucket b) s).dir (dirBucket c) = s.dir (dirBucket c)) ∧
    ((v b).filter (keep d) = [] → (dirCleanBucket g d (dirBucket b) s).dir (dirBucket b) = Dir.zero) := by
  by_cases hv : v b = []
  · rcases h.holds b hb with ⟨-, hc, h0⟩ | h1
    · have hnext : s.nextDir (dirBucket b) = none := by
        have := h.lseg hb
        rwa [hc] at this
      have hempty : (s.dir (dirBucket b)).isEmpty = true := by unfold Dir.isEmpty; rw [h0]; rfl
      have hclean : dirCleanBucket g d (dirBucket b) s = { s.set (dirBucket b) Dir.zero with dirty := true } := by
        simp [dirCleanBucket, dirCleanLoop, hempty, dirDeleteEntry, hnext]
      rw [hclean]
      exact ⟨fun c _ hcb => (Seg.set_dir ..).trans (if_neg fun heq => hcb (dirBucket_inj.1 heq)),
        fun _ => (Seg.set_dir ..).trans (if_pos rfl)⟩
    · rw [hv] at h1
      simp at h1
  · have hcur := h.cursor hb hv
    have hlen := h.length_le hb
    refine ⟨fun c hc hcb => hcur.cleanLoop_root _ hc hcb, fun hnil => ?_⟩
    refine hcur.cleanLoop_clear _ (by omega) fun x hx => ?_
    rw [← h.ents hb hv] at hx
    simpa using List.filter_eq_nil_iff.1 hnil x hx

/-- `dir_clean_segment` filters the buckets and clears the roots that hold nothing then -/
theorem Rep.cleanSegment_roots (h : Rep g s k ch v) : ∃ ch',
    Rep g (dirCleanSegment g d s) k ch' (fun b => if b < g.buckets then (v b).filter (keep d) else v b) ∧
    ∀ b < g.buckets, (v b).filter (keep d) = [] → (dirCleanSegment g d s).dir (dirBucket b) = Dir.zero := by
  -- the buckets cleaned so far are the first `n`
  have hn : ∀ n ≤ g.buckets, ∃ ch', Rep g ((List.range n).foldl (fun s i => dirCleanBucket g d (dirBucket i) s) s) k ch'
      (fun b => if b < n then (v b).filter (keep d) else v b) ∧ ∀ b < n, (v b).filter (keep d) = [] →
        ((List.range n).foldl (fun s i => dirCleanBucket g d (dirBucket i) s) s).dir (dirBucket b) = Dir.zero := by
    intro n
    induction n with
    | zero => intro _; exact ⟨ch, by simpa using h, fun b hb => absurd hb (Nat.not_lt_zero b)⟩
    | succ n ih =>
      intro hle
      obtain ⟨ch', hrep, hzero⟩ := ih (by omega)
      rw [List.range_succ, List.foldl_append]
      obtain ⟨ch'', hrep'⟩ := hrep.cleanBucket d (b := n) (by omega)
      obtain ⟨hother, hown⟩ := hrep.cleanBucket_root (d := d) (b := n) (by omega)
      have hlists : (fun b => if b < n + 1 then (v b).filter (keep d) else v b) = Function.update
          (fun b => if b < n then (v b).filter (keep d) else v b) n ((if n < n then (v n).filter (keep d) else v n).filter
            (keep d)) := by
        funext b
        rcases eq_or_ne b n with rfl | hbn
        · simp
        · rw [Function.update_of_ne hbn]
          have : b < n + 1 ↔ b < n := by omega
          simp only [this]
      rw [hlists]
      refine ⟨ch'', hrep', fun b hb hnil => ?_⟩
      rcases eq_or_ne b n with rfl | hbn
      · exact hown (by rwa [if_neg (lt_irrefl b)])
      · exact (hother b (by omega) hbn).trans (hzero b (by omega) hnil)
  exact hn g.buckets le_rfl

/-! ## The purge -/

/-- one slot of the purge, with the number of heads seen so far -/
def purgeStep (sn : Seg × ℕ) (e : ℕ) : Seg × ℕ :=
  if (sn.1.dir e).head then
    (if sn.2 % 10 = 0 then { sn.1.modify e (·.setOffset 0) with used := sn.1.used - 1 } else sn.1, sn.2 + 1)
  else sn

theorem freelistPurge_eq (g : SegGeom) (s : Seg) :
    freelistPurge g s = ((List.range g.slots).foldl purgeStep (s, 0)).1 := rfl

theorem purgeStep_dir (sn : Seg × ℕ) (e i : ℕ) : (purgeStep sn e).1.dir i = sn.1.dir i ∨
    i = e ∧ (sn.1.dir e).head = true ∧ (purgeStep sn e).1.dir i = (sn.1.dir e).setOffset 0 := by
  have hmod := Seg.modify_dir sn.1 e i (·.setOffset 0)
  unfold purgeStep
  split_ifs with hhead hn
  · by_cases hi : i = e
    · exact Or.inr ⟨hi, hhead, hmod.trans (if_pos hi)⟩
    · exact Or.inl (hmod.trans (if_neg hi))
  · exact Or.inl rfl
  · exact Or.inl rfl

/-- the purge leaves a slot that is no head as it is -/
theorem purge_not_head {i : ℕ} (l : List ℕ) (sn : Seg × ℕ) (hi : (sn.1.dir i).head = false) :
    (l.foldl purgeStep sn).1.dir i = sn.1.dir i := by
  induction l generalizing sn with
  | nil => rfl
  | cons e l ih =>
    have hstep : (purgeStep sn e).1.dir i = sn.1.dir i := by
      rcases purgeStep_dir sn e i with h | ⟨rfl, hhead, -⟩
      · exact h
      · rw [hi] at hhead; cases hhead
    rw [List.foldl_cons, ih (purgeStep sn e) (by rw [hstep]; exact hi), hstep]

/-- a slot without an offset gets none -/
theorem purge_zero {i : ℕ} (l : List ℕ) (sn : Seg × ℕ) (hi : (sn.1.dir i).offset = 0) :
    ((l.foldl purgeStep sn).1.dir i).offset = 0 := by
  induction l generalizing sn with
  | nil => exact hi
  | cons e l ih =>
    refine ih (purgeStep sn e) ?_
    rcases purgeStep_dir sn e i with h | ⟨-, -, h⟩
    · rw [h]; exact hi
    · rw [h]; exact Dir.setOffset_zero _

theorem purge_skip (l : List ℕ) (sn : Seg × ℕ) (hl : ∀ i ∈ l, (sn.1.dir i).head = false) : l.foldl purgeStep sn = sn := by
  induction l with
  | nil => rfl
  | cons e l ih =>
    have hstep : purgeStep sn e = sn := if_neg (by rw [hl e List.mem_cons_self]; decide)
    rw [List.foldl_cons, hstep]
    exact ih fun i hi => hl i (List.mem_cons_of_mem _ hi)

/-- the first head of the segment loses its offset -/
theorem purge_first (he : e < g.slots) (hhead : (s.dir e).head = true) (hfirst : ∀ i < e, (s.dir i).head = false) :
    ((freelistPurge g s).dir e).offset = 0 := by
  have hsplit : List.range g.slots = List.range e ++ e :: (List.range (g.slots - e - 1)).map (e + 1 + ·) := by
    have hslots : g.slots = e + 1 + (g.slots - e - 1) := by omega
    conv_lhs => rw [hslots, List.range_add, List.range_succ, List.append_assoc]
    rfl
  have hskip : (List.range e).foldl purgeStep (s, 0) = (s, 0) :=
    purge_skip (List.range e) (s, 0) fun i hi => hfirst i (List.mem_range.1 hi)
  rw [freelistPurge_eq, hsplit, List.foldl_append, List.foldl_cons, hskip]
  refine purge_zero _ _ ?_
  have hstep : purgeStep (s, 0) e = ({ s.modify e (·.setOffset 0) with used := s.used - 1 }, 1) := by
    simp [purgeStep, hhead]
  rw [hstep]
  show ((s.modify e (·.setOffset 0)).dir e).offset = 0
  rw [Seg.modify_dir, if_pos rfl]
  exact Dir.setOffset_zero _

theorem purgeStep_stamp (sn : Seg × ℕ) (e : ℕ) : (purgeStep sn e).1.stamp = sn.1.stamp := by
  unfold purgeStep
  split_ifs <;> rfl

theorem freelistPurge_stamp (g : SegGeom) (s : Seg) : (freelistPurge g s).stamp = s.stamp := by
  rw [freelistPurge_eq]
  have hfold : ∀ (l : List ℕ) (sn : Seg × ℕ), (l.foldl purgeStep sn).1.stamp = sn.1.stamp := by
    intro l
    induction l with
    | nil => intro sn; rfl
    | cons e l ih => intro sn; rw [List.foldl_cons, ih, purgeStep_stamp]
  exact hfold _ _

theorem freelistPurge_ent (g : SegGeom) {i : ℕ} (hi : (s.dir i).head = false) : (freelistPurge g s).ent i = s.ent i := by
  unfold Seg.ent
  rw [freelistPurge_stamp, freelistPurge_eq, purge_not_head _ (s, 0) hi]

/-! ## One pass -/

/-- the lists after `dir_clean_segment` -/
def cleaned (g : SegGeom) (d : VolPos) (v : ℕ → List Entry) (b : ℕ) : List Entry :=
  if b < g.buckets then (v b).filter (keep d) else v b

theorem cleaned_eq (hb : b < g.buckets) : cleaned g d v b = (v b).filter (keep d) := if_pos hb

theorem Rep.cleaned (h : Rep g s k ch v) : ∃ ch', Stored g (dirCleanSegment g d s) k ch' (cleaned g d v) ∧
    ∀ b < g.buckets, Cache.cleaned g d v b = [] → (dirCleanSegment g d s).dir (dirBucket b) = Dir.zero := by
  obtain ⟨ch', hrep, hzero⟩ := h.cleanSegment_roots (d := d)
  refine ⟨ch', ⟨hrep, fun b hb x hx => ?_⟩, fun b hb hnil => hzero b hb (by rwa [cleaned_eq hb] at hnil)⟩
  rw [cleaned_eq hb] at hx
  have hkeep := (List.mem_filter.1 hx).2
  simp only [keep, Bool.and_eq_true, Bool.not_eq_true', Dir.isEmpty] at hkeep
  simpa using hkeep.2

/-- bucket `c` is critical for bucket `b`: cleaning an entry of it away makes room for `b` -/
def Critical (v : ℕ → List Entry) (b c : ℕ) : Prop := c = b ∨ 2 ≤ (v c).length

/-- the purge of a segment, list by list: a list without heads stays, and the lengths stay -/
theorem Rep.purged (h : Rep g s k ch v) : ∃ v', Rep g (freelistPurge g s) k ch v' ∧
    (∀ c < g.buckets, (v' c).length = (v c).length) ∧ (∀ c < g.buckets, List.Forall₂ Zeroed (v c) (v' c)) ∧
    (∀ c < g.buckets, (∀ x ∈ v c, x.1.head = false) → v' c = v c) := by
  obtain ⟨v', hrep, hz⟩ := h.purge
  have hlen : ∀ c < g.buckets, (v' c).length = (v c).length := fun c hc => (hz c hc).length_eq.symm
  refine ⟨v', hrep, hlen, hz, fun c hc hall => ?_⟩
  by_cases hv : v c = []
  · rw [hv]
    exact List.length_eq_zero_iff.1 (by rw [hlen c hc, hv]; rfl)
  · have hv' : v' c ≠ [] := by
      intro hnil
      have := hlen c hc
      rw [hnil] at this
      exact hv (List.length_eq_zero_iff.1 this.symm)
    rw [hrep.ents hc hv', h.ents hc hv]
    refine List.map_congr_left fun x hx => freelistPurge_ent g ?_
    exact hall (s.ent x) (by rw [h.ents hc hv]; exact List.mem_map_of_mem hx)

/-- in a full segment whose empty roots are clear the purge takes the offset of an entry, if there is a head -/
theorem Stored.purge_some (h : Stored g s k ch v) (hfull : Full g v)
    (hclear : ∀ c < g.buckets, v c = [] → s.dir (dirBucket c) = Dir.zero) (hc : c < g.buckets) {x : Entry} (hx : x ∈ v c)
    (hhead : x.1.head = true) (hrep : Rep g (freelistPurge g s) k ch v')
    (hlen : ∀ c < g.buckets, (v' c).length = (v c).length) :
    ∃ c < g.buckets, ∃ y ∈ v' c, y.1.offset = 0 := by
  have hslot : ∃ e, e < g.slots ∧ (s.dir e).head = true := by
    rw [h.toRep.ents hc (List.ne_nil_of_mem hx)] at hx
    obtain ⟨e, he, rfl⟩ := List.mem_map.1 hx
    refine ⟨e, ?_, hhead⟩
    obtain ⟨free, loc, hl, -⟩ := h.links
    rcases List.mem_cons.1 he with rfl | he
    · simp only [SegGeom.slots, dirBucket, DIR_DEPTH]; omega
    · exact (hl.row_of_ch hc he).1
  -- the first head holds an entry
  classical
  obtain ⟨he, hehead⟩ := Nat.find_spec hslot
  have hfirst : ∀ i < Nat.find hslot, (s.dir i).head = false := by
    intro i hi
    have := Nat.find_min hslot hi
    simpa using fun hh => this ⟨lt_trans hi he, hh⟩
  have hzero := purge_first he hehead hfirst
  generalize Nat.find hslot = e at he hehead hzero
  have hplace : ∃ c < g.buckets, e ∈ dirBucket c :: ch c ∧ v c ≠ [] := by
    by_cases hroot : g.IsRoot e
    · obtain ⟨c, hc, rfl⟩ := hroot
      refine ⟨c, hc, List.mem_cons_self, fun hv => ?_⟩
      rw [hclear c hc hv] at hehead
      cases hehead
    · obtain ⟨c, hc, hec, hv⟩ := h.toRep.row_of_full hfull (SegGeom.isRow_of_not_root he hroot)
      exact ⟨c, hc, List.mem_cons_of_mem _ hec, hv⟩
  obtain ⟨c, hc, hec, hv⟩ := hplace
  have hv' : v' c ≠ [] := by
    intro hnil
    have := hlen c hc
    rw [hnil] at this
    exact hv (List.length_eq_zero_iff.1 this.symm)
  refine ⟨c, hc, (freelistPurge g s).ent e, ?_, hzero⟩
  rw [hrep.ents hc hv']
  exact List.mem_map_of_mem hec

/-- what a pass that found no slot leaves: some of the entries, all of them valid -/
theorem Stored.clean (h : Stored g s k ch v) : ∃ ch' v', Stored g (freelistClean g d s) k ch' v' ∧
    (∀ c < g.buckets, (v' c).Sublist (v c)) ∧ (∀ c < g.buckets, ∀ x ∈ v' c, dirValid d x.1 = true) ∧
    (∀ c < g.buckets, (∀ x ∈ v c, dirValid d x.1 = true ∧ x.1.head = false) → v' c = v c) ∧
    (Full g v' → (∀ c < g.buckets, v' c = v c) → ∀ c < g.buckets, ∀ x ∈ v c, x.1.head = false) := by
  obtain ⟨ch₁, h₁, hclear⟩ := h.toRep.cleaned (d := d)
  have hsub₁ : ∀ c < g.buckets, (cleaned g d v c).Sublist (v c) := fun c hc => by
    rw [cleaned_eq hc]; exact List.filter_sublist
  have hvalid : ∀ {u : ℕ → List Entry}, ∀ c < g.buckets, ∀ x ∈ cleaned g d u c, dirValid d x.1 = true := by
    intro u c hc x hx
    rw [cleaned_eq hc] at hx
    exact (Bool.and_eq_true_iff.1 (List.mem_filter.1 hx).2).1
  have hstay : ∀ {u : ℕ → List Entry}, ∀ c < g.buckets, (∀ x ∈ u c, x.1.offset ≠ 0) →
      (∀ x ∈ u c, dirValid d x.1 = true) → cleaned g d u c = u c := by
    intro u c hc hoff hval
    rw [cleaned_eq hc, List.filter_eq_self]
    intro x hx
    have h0 : x.1.isEmpty = false := by simpa [Dir.isEmpty] using hoff x hx
    simp [keep, hval x hx, h0]
  unfold freelistClean
  dsimp only
  split_ifs with hf
  · refine ⟨ch₁, _, h₁, hsub₁, hvalid, fun c hc hall => hstay c hc (h.offset c hc) fun x hx => (hall x hx).1, ?_⟩
    exact fun hfull _ => absurd (h₁.toRep.freelist_zero_iff.2 hfull) hf
  · obtain ⟨v₂, hrep₂, hlen, hz, hsame⟩ := h₁.toRep.purged
    obtain ⟨ch₃, h₃, -⟩ := hrep₂.cleaned (d := d)
    have hsub₃ : ∀ c < g.buckets, (cleaned g d v₂ c).Sublist (cleaned g d v c) := fun c hc => by
      rw [cleaned_eq hc]; exact keep_sublist d (hz c hc)
    refine ⟨ch₃, _, h₃, fun c hc => (hsub₃ c hc).trans (hsub₁ c hc), hvalid, fun c hc hall => ?_, fun hfull heq c hc x hx => ?_⟩
    · have h1 : cleaned g d v c = v c := hstay c hc (h.offset c hc) fun x hx => (hall x hx).1
      have h2 : v₂ c = v c := by
        rw [hsame c hc fun x hx => (hall x (by rwa [h1] at hx)).2, h1]
      calc cleaned g d v₂ c = v₂ c := hstay c hc (by rw [h2]; exact h.offset c hc) (by rw [h2]; exact fun x hx => (hall x hx).1)
        _ = v c := h2
    · -- the lists are as they were, so the purge took nothing
      have hmid : ∀ c < g.buckets, cleaned g d v c = v c := fun c hc =>
        (hsub₁ c hc).antisymm ((heq c hc) ▸ hsub₃ c hc)
      have hfull₁ : Full g (cleaned g d v) := by
        unfold Full at hfull ⊢
        rw [← hfull]
        refine Finset.sum_congr rfl fun c hc => ?_
        rw [hmid c (Finset.mem_range.1 hc), heq c (Finset.mem_range.1 hc)]
      by_contra hx'
      have hhead : x.1.head = true := by simpa using hx'
      obtain ⟨c', hc', y, hy, hy0⟩ := h₁.purge_some hfull₁ hclear hc ((hmid c hc).symm ▸ hx) hhead hrep₂ hlen
      have hlt : (cleaned g d v₂ c').length < (v₂ c').length := by
        rw [cleaned_eq hc']
        refine List.length_filter_lt_length_iff_exists.2 ⟨y, hy, ?_⟩
        simp [keep, Dir.isEmpty, hy0]
      rw [heq c' hc', hlen c' hc', hmid c' hc'] at hlt
      exact lt_irrefl _ hlt

/-- the freelist is empty and every critical entry is valid and no head -/
structure StuckLists (g : SegGeom) (d : VolPos) (b : ℕ) (v : ℕ → List Entry) : Prop where
  root : v b ≠ []
  full : Full g v
  kept : ∀ c < g.buckets, Critical v b c → ∀ x ∈ v c, dirValid d x.1 = true ∧ x.1.head = false

/-- cleaning a stuck segment leaves it stuck -/
theorem Stored.clean_stuck (h : Stored g s k ch v) (hb : b < g.buckets) (hs : StuckLists g d b v) :
    ∃ ch' v', Stored g (freelistClean g d s) k ch' v' ∧ StuckLists g d b v' := by
  obtain ⟨ch', v', h', hsub, -, hstay, -⟩ := h.clean (d := d)
  have hsame : ∀ c < g.buckets, Critical v b c → v' c = v c := fun c hc hcrit => hstay c hc (hs.kept c hc hcrit)
  have hvb := hsame b hb (Or.inl rfl)
  refine ⟨ch', v', h', by rw [hvb]; exact hs.root, ?_, fun c hc hcrit x hx => ?_⟩
  · rw [Full, ← hs.full]
    refine Finset.sum_congr rfl fun c hc => ?_
    have hc := Finset.mem_range.1 hc
    by_cases hcrit : Critical v b c
    · rw [hsame c hc hcrit]
    · have h1 : (v c).length < 2 := not_le.1 fun h2 => hcrit (Or.inr h2)
      have h2 := (hsub c hc).length_le
      omega
  · have hcrit' : Critical v b c := hcrit.imp_right fun h2 => h2.trans (hsub c hc).length_le
    rw [hsame c hc hcrit'] at hx
    exact hs.kept c hc hcrit' x hx

/-- cleaning a full segment that is not stuck takes entries away and leaves it not stuck -/
theorem Stored.clean_progress (h : Stored g s k ch v) (hb : b < g.buckets) (hroot : v b ≠ []) (hfull : Full g v)
    (hs : ¬ StuckLists g d b v) : ∃ ch' v', Stored g (freelistClean g d s) k ch' v' ∧
      ((v' b = [] ∨ ¬ Full g v') ∨ ¬ StuckLists g d b v' ∧
        ∑ c ∈ Finset.range g.buckets, (v' c).length < ∑ c ∈ Finset.range g.buckets, (v c).length) := by
  obtain ⟨ch', v', h', hsub, hvalid, -, hhead⟩ := h.clean (d := d)
  refine ⟨ch', v', h', ?_⟩
  by_cases hroom : v' b = [] ∨ ¬ Full g v'
  · exact Or.inl hroom
  right
  rw [not_or, not_not] at hroom
  obtain ⟨hroot', hfull'⟩ := hroom
  -- the segment is as full as before, so no critical bucket lost an entry
  have hle : ∀ c ∈ Finset.range g.buckets, (v' c).length - 1 ≤ (v c).length - 1 := fun c hc =>
    Nat.sub_le_sub_right (hsub c (Finset.mem_range.1 hc)).length_le 1
  have hlen := (Finset.sum_eq_sum_iff_of_le hle).1 (hfull'.trans hfull.symm)
  have hsame : ∀ c < g.buckets, Critical v b c → v' c = v c := by
    intro c hc hcrit
    have hlc := hlen c (Finset.mem_range.2 hc)
    refine (hsub c hc).eq_of_length ?_
    have hcs := (hsub c hc).length_le
    rcases hcrit with rfl | h2
    · have h1 := List.length_pos_iff.2 hroot'
      omega
    · omega
  -- so what keeps it from being stuck is a head
  obtain ⟨c, hc, hcrit, x, hx, hxh⟩ : ∃ c < g.buckets, Critical v b c ∧ ∃ x ∈ v c, x.1.head = true := by
    by_contra hno
    push Not at hno
    refine hs ⟨hroot, hfull, fun c hc hcrit x hx => ⟨hvalid c hc x ?_, by simpa using hno c hc hcrit x hx⟩⟩
    rw [hsame c hc hcrit]
    exact hx
  have hcs := hsame c hc hcrit
  refine ⟨fun hs' => ?_, ?_⟩
  · have hcrit' : Critical v' b c := hcrit.imp_right fun h2 => by rw [hcs]; exact h2
    have := (hs'.kept c hc hcrit' x (by rw [hcs]; exact hx)).2
    rw [hxh] at this
    cases this
  · have hne : ¬ ∀ c < g.buckets, v' c = v c := fun hall => by
      have := hhead hfull' hall c hc x hx
      rw [hxh] at this
      cases this
    push Not at hne
    obtain ⟨c', hc', hne⟩ := hne
    refine Finset.sum_lt_sum (fun c hc => (hsub c (Finset.mem_range.1 hc)).length_le) ⟨c', Finset.mem_range.2 hc', ?_⟩
    exact lt_of_le_of_ne (hsub c' hc').length_le fun heq => hne ((hsub c' hc').eq_of_length heq)

/-! ## The loop -/

/-- some pass finds a slot for bucket `b` -/
inductive Room (g : SegGeom) (d : VolPos) (b : ℕ) : Seg → Prop where
  | now {s s' : Seg} {e : ℕ} (h : dirTakeSlot g d (dirBucket b) s = (s', some e)) : Room g d b s
  | later {s s' : Seg} (h : dirTakeSlot g d (dirBucket b) s = (s', none)) (hr : Room g d b s') : Room g d b s

/-- a pass that finds no slot leaves the cleaned segment -/
theorem Stored.missed (h : Stored g s k ch v) (hb : b < g.buckets) (ht : dirTakeSlot g d (dirBucket b) s = (s', none)) :
    v b ≠ [] ∧ Full g v ∧ s' = freelistClean g d s := by
  obtain ⟨hnone, hstate⟩ := h.takeSlot_none (d := d) hb
  rw [ht] at hnone hstate
  obtain ⟨h1, h2⟩ := hnone.1 rfl
  exact ⟨h1, h2, hstate rfl⟩

theorem StuckLists.not_room (hr : Room g d b s) (h : Stored g s k ch v) (hb : b < g.buckets) : ¬ StuckLists g d b v := by
  intro hs
  induction hr generalizing ch v with
  | now ht =>
    have hnone := (h.takeSlot_none (d := d) hb).1.2 ⟨hs.root, hs.full⟩
    rw [ht] at hnone
    cases hnone
  | later ht _ ih =>
    obtain ⟨-, -, rfl⟩ := h.missed hb ht
    obtain ⟨ch', v', h', hs'⟩ := h.clean_stuck hb hs
    exact ih h' hs'

/-- by induction on the number of entries: a pass that does not make room takes some away -/
theorem Stored.room (n : ℕ) (h : Stored g s k ch v) (hb : b < g.buckets) (hs : ¬ StuckLists g d b v)
    (hn : ∑ c ∈ Finset.range g.buckets, (v c).length ≤ n) : Room g d b s := by
  induction n generalizing s ch v with
  | zero =>
    rcases ht : dirTakeSlot g d (dirBucket b) s with ⟨s', _ | e⟩
    · obtain ⟨hroot, -, -⟩ := h.missed hb ht
      have hlen := Finset.single_le_sum (f := fun c => (v c).length) (fun _ _ => Nat.zero_le _) (Finset.mem_range.2 hb)
      exact absurd (List.length_eq_zero_iff.1 (Nat.le_zero.1 (hlen.trans hn))) hroot
    · exact .now ht
  | succ n ih =>
    rcases ht : dirTakeSlot g d (dirBucket b) s with ⟨s', _ | e⟩
    · obtain ⟨hroot, hfull, rfl⟩ := h.missed hb ht
      obtain ⟨ch', v', h', hroom | ⟨hs', hlt⟩⟩ := h.clean_progress hb hroot hfull hs
      · -- the next pass finds a slot
        refine .later ht ?_
        rcases ht' : dirTakeSlot g d (dirBucket b) (freelistClean g d s) with ⟨s', _ | e⟩
        · obtain ⟨h1, h2, -⟩ := h'.missed hb ht'
          rcases hroom with h0 | h0
          · exact absurd h0 h1
          · exact absurd h2 h0
        · exact .now ht'
      · exact .later ht (ih h' hs' (by omega))
    · exact .now ht

theorem Stored.room_iff (h : Stored g s k ch v) (hb : b < g.buckets) : Room g d b s ↔ ¬ StuckLists g d b v :=
  ⟨fun hr => StuckLists.not_room hr h hb, fun hs => h.room _ hb hs le_rfl⟩

theorem dirInsert_returns (key : CacheKey) (x : Dir) :
    (∃ n, (dirInsert g d key x n s).2 ≠ none) ↔ Room g d (key.slice32 1 % g.buckets) s := by
  constructor
  · rintro ⟨n, hn⟩
    induction n generalizing s with
    | zero => exact absurd rfl hn
    | succ n ih =>
      unfold dirInsert at hn
      rcases ht : dirTakeSlot g d (dirBucket (key.slice32 1 % g.buckets)) s with ⟨s', _ | e⟩
      · rw [ht] at hn
        exact .later ht (ih hn)
      · exact .now ht
  · intro hr
    induction hr with
    | now ht => exact ⟨1, by simp [dirInsert, ht]⟩
    | later ht _ ih =>
      obtain ⟨n, hn⟩ := ih
      exact ⟨n + 1, by simpa [dirInsert, ht] using hn⟩

/-- an entry with tag `t` and offset `o` -/
def Matches (t o : ℕ) (x : Entry) : Prop := x.1.tag = t ∧ x.1.offset = o

theorem Cursor.overwriteFind_iff {t o : ℕ} (fuel : ℕ) (h : Cursor g s k ch v b pre e post) (hfuel : post.length < fuel) :
    dirOverwriteFind t o fuel e s ≠ none ↔ ∃ x ∈ (e :: post).map s.ent, Matches t o x := by
  induction fuel generalizing pre e post with
  | zero => omega
  | succ fuel ih =>
    unfold dirOverwriteFind
    split_ifs with hhit
    · simp only [ne_eq, reduceCtorEq, not_false_eq_true, true_iff]
      exact ⟨s.ent e, List.mem_cons_self, hhit⟩
    · have hmiss : ¬ Matches t o (s.ent e) := hhit
      rw [h.next]
      cases post with
      | nil => simp [hmiss]
      | cons n post =>
        have := ih h.advance (by simp only [List.length_cons] at hfuel; omega)
        simpa [hmiss] using this

/-- the search of `dir_overwrite` succeeds exactly when its bucket has a matching entry -/
theorem Stored.find_iff (h : Stored g s k ch v) (hb : b < g.buckets) (t o : ℕ) :
    (if (s.dir (dirBucket b)).isEmpty then none else dirOverwriteFind t o (g.slots + 1) (dirBucket b) s) ≠ none ↔
      ∃ x ∈ v b, Matches t o x := by
  have hempty := h.root_empty hb
  split_ifs with hroot
  · simp [hempty.1 hroot]
  · have hv : v b ≠ [] := fun hv => hroot (hempty.2 hv)
    have hlen := h.toRep.length_le hb
    rw [(h.toRep.cursor hb hv).overwriteFind_iff _ (by omega), ← h.toRep.ents hb hv]

theorem Stored.overwrite_returns (h : Stored g s k ch v) (key : CacheKey) (x old : Dir) :
    (∃ n, (dirOverwrite g d key x old false n s).2 ≠ none) ↔
      (∃ y ∈ v (key.slice32 1 % g.buckets), Matches (DIR_MASK_TAG (key.slice32 2)) old.offset y) ∨
        Room g d (key.slice32 1 % g.buckets) s := by
  have hb := bucketOf_lt g (key.slice32 1)
  constructor
  · rintro ⟨n, hn⟩
    induction n generalizing s ch v with
    | zero => exact absurd rfl hn
    | succ n ih =>
      have hfind := h.find_iff hb (DIR_MASK_TAG (key.slice32 2)) old.offset
      unfold dirOverwrite at hn
      dsimp only at hn
      generalize hf : (if (s.dir (dirBucket (key.slice32 1 % g.buckets))).isEmpty = true then none
        else dirOverwriteFind (DIR_MASK_TAG (key.slice32 2)) old.offset (g.slots + 1)
          (dirBucket (key.slice32 1 % g.buckets)) s) = found at hn hfind
      cases found with
      | some e => exact Or.inl (hfind.1 (by simp))
      | none =>
        rcases ht : dirTakeSlot g d (dirBucket (key.slice32 1 % g.buckets)) s with ⟨s', _ | e⟩
        · obtain ⟨-, -, rfl⟩ := h.missed hb ht
          obtain ⟨ch', v', h', hsub, -⟩ := h.clean (d := d)
          simp only [ht, Bool.false_eq_true, if_false] at hn
          rcases ih h' hn with ⟨y, hy, hm⟩ | hr
          · exact Or.inl ⟨y, (hsub _ hb).subset hy, hm⟩
          · exact Or.inr (.later ht hr)
        · exact Or.inr (.now ht)
  · -- one pass overwrites or takes the slot, or it leaves the rest to the next
    have hpass : ∀ (s : Seg) (r : Seg × Option ℕ), dirTakeSlot g d (dirBucket (key.slice32 1 % g.buckets)) s = r →
        (r.2 = none → ∃ n, (dirOverwrite g d key x old false n r.1).2 ≠ none) →
        ∃ n, (dirOverwrite g d key x old false n s).2 ≠ none := by
      rintro s ⟨s', res⟩ ht hrest
      have hn : ∃ n, res = none → (dirOverwrite g d key x old false n s').2 ≠ none := by
        cases res with
        | none => exact (hrest rfl).imp fun n hn _ => hn
        | some e => exact ⟨0, fun h0 => by cases h0⟩
      obtain ⟨n, hn⟩ := hn
      refine ⟨n + 1, ?_⟩
      unfold dirOverwrite
      dsimp only
      generalize (if (s.dir (dirBucket (key.slice32 1 % g.buckets))).isEmpty = true then none
        else dirOverwriteFind (DIR_MASK_TAG (key.slice32 2)) old.offset (g.slots + 1)
          (dirBucket (key.slice32 1 % g.buckets)) s) = found
      cases found with
      | some e => simp
      | none =>
        rw [ht]
        cases res with
        | none => exact hn rfl
        | some e => simp
    rintro (hy | hr)
    · refine ⟨1, ?_⟩
      have hfound := (h.find_iff hb _ _).2 hy
      unfold dirOverwrite
      dsimp only
      generalize (if (s.dir (dirBucket (key.slice32 1 % g.buckets))).isEmpty = true then none
        else dirOverwriteFind (DIR_MASK_TAG (key.slice32 2)) old.offset (g.slots + 1)
          (dirBucket (key.slice32 1 % g.buckets)) s) = found at hfound
      cases found with
      | some e => simp
      | none => exact absurd rfl hfound
    · clear h
      induction hr with
      | now ht => exact hpass _ _ ht fun h0 => by cases h0
      | later ht _ ih => exact hpass _ _ ht fun _ => ih

/-- Bucket `b` never gets a slot: the freelist is empty, the root is taken, and cleaning keeps the entries of the bucket
and of every bucket with a chain, because they are valid and none of them is a document head. -/
structure Stuck (g : SegGeom) (d : VolPos) (b : ℕ) (s : Seg) (free : List ℕ) (ch : ℕ → List ℕ) : Prop where
  full : free = []
  root : (s.dir (dirBucket b)).offset ≠ 0
  kept : ∀ c < g.buckets, c = b ∨ ch c ≠ [] → ∀ e ∈ dirBucket c :: ch c,
    dirValid d (s.dir e) = true ∧ (s.dir e).head = false

theorem SegmentOk.stuck_iff (h : SegmentOk g s free ch) (hb : b < g.buckets) :
    StuckLists g d b (s.lists ch) ↔ Stuck g d b s free ch := by
  have hst := h.stored
  obtain ⟨loc, hl, hh⟩ := h.links
  have hfull := hst.toRep.free_nil_iff hl hh
  have hroot : s.lists ch b ≠ [] ↔ (s.dir (dirBucket b)).offset ≠ 0 := by
    rw [ne_eq, ← hst.root_empty hb]
    simp [Dir.isEmpty]
  have hlong : ∀ c < g.buckets, 2 ≤ (s.lists ch c).length ↔ ch c ≠ [] := by
    intro c hc
    have := hst.toRep.ch_length hc
    rw [ne_eq, ← List.length_eq_zero_iff]
    omega
  -- a critical bucket of a bucket that holds something holds something itself
  have hheld : s.lists ch b ≠ [] → ∀ c < g.buckets, c = b ∨ ch c ≠ [] →
      s.lists ch c = (dirBucket c :: ch c).map s.ent := by
    rintro hv c hc (rfl | hne)
    · exact hst.toRep.ents hc hv
    · refine hst.toRep.ents hc fun h0 => ?_
      have := (hlong c hc).2 hne
      rw [h0] at this
      simp at this
  constructor
  · rintro ⟨h1, h2, h3⟩
    refine ⟨hfull.2 h2, hroot.1 h1, fun c hc hcrit e he => ?_⟩
    refine h3 c hc (hcrit.imp_right (hlong c hc).2) (s.ent e) ?_
    rw [hheld h1 c hc hcrit]
    exact List.mem_map_of_mem he
  · rintro ⟨h1, h2, h3⟩
    refine ⟨hroot.2 h2, hfull.1 h1, fun c hc hcrit x hx => ?_⟩
    have hcrit' := hcrit.imp_right (hlong c hc).1
    rw [hheld (hroot.2 h2) c hc hcrit'] at hx
    obtain ⟨e, he, rfl⟩ := List.mem_map.1 hx
    exact h3 c hc hcrit' e he

/-- `dir_overwrite` finds the entry it is to overwrite -/
def Overwrites (g : SegGeom) (key : CacheKey) (old : Dir) (s : Seg) (ch : ℕ → List ℕ) : Prop :=
  (s.dir (dirBucket (key.slice32 1 % g.buckets))).offset ≠ 0 ∧
    ∃ e ∈ dirBucket (key.slice32 1 % g.buckets) :: ch (key.slice32 1 % g.buckets),
      (s.dir e).tag = DIR_MASK_TAG (key.slice32 2) ∧ (s.dir e).offset = old.offset

theorem overwrites_iff (key : CacheKey) (old : Dir) :
    (∃ y ∈ s.lists ch (key.slice32 1 % g.buckets), Matches (DIR_MASK_TAG (key.slice32 2)) old.offset y) ↔
      Overwrites g key old s ch := by
  unfold Seg.lists Overwrites
  split_ifs with h0
  · simp only [List.not_mem_nil, false_and, exists_false, false_iff, not_and]
    exact fun hne => absurd (by simpa [Dir.isEmpty] using h0) hne
  · have hne : (s.dir (dirBucket (key.slice32 1 % g.buckets))).offset ≠ 0 := by simpa [Dir.isEmpty] using h0
    constructor
    · rintro ⟨y, hy, hm⟩
      obtain ⟨e, he, rfl⟩ := List.mem_map.1 hy
      exact ⟨hne, e, he, hm⟩
    · rintro ⟨-, e, he, hm⟩
      exact ⟨s.ent e, List.mem_map_of_mem he, hm⟩

/-- The `Lagain` loops end exactly when the bucket is not stuck, or `dir_overwrite` finds its entry. -/
theorem lagain_loop (h : SegmentOk g s free ch) (d : VolPos) (key : CacheKey) (x old : Dir) :
    ((∃ n, (dirInsert g d key x n s).2 ≠ none) ↔ ¬ Stuck g d (key.slice32 1 % g.buckets) s free ch) ∧
    ((∃ n, (dirOverwrite g d key x old false n s).2 ≠ none) ↔
      Overwrites g key old s ch ∨ ¬ Stuck g d (key.slice32 1 % g.buckets) s free ch) := by
  have hb := bucketOf_lt g (key.slice32 1)
  have hroom : Room g d (key.slice32 1 % g.buckets) s ↔ ¬ Stuck g d (key.slice32 1 % g.buckets) s free ch := by
    rw [h.stored.room_iff hb, h.stuck_iff hb]
  exact ⟨(dirInsert_returns key x).trans hroom,
    (h.stored.overwrite_returns key x old).trans (or_congr (overwrites_iff key old) hroom)⟩

end Loop

/-- one bucket whose four slots all hold fragments: none of them is a document head -/
def Seg.fragments : Seg :=
  { Seg.blank with dir := fun i => if i < 4 then (Dir.zero.setOffset (i + 1)).setNext ((i + 1) % 4) else Dir.zero }

def SegGeom.single : SegGeom := ⟨1, Nat.one_pos, one_bucket_fits⟩

theorem fragments_ok : SegmentOk .single Seg.fragments [] fun _ => [1, 2, 3] where
  freelist := ⟨none, rfl, rfl⟩
  chain := by intro b hb; obtain rfl : b = 0 := Nat.lt_one_iff.1 hb; exact ⟨by decide, by decide, by decide, by rfl⟩
  acyclic := ⟨List.nodup_nil, fun _ _ => by decide⟩
  inside := ⟨fun _ he => absurd he List.not_mem_nil, fun _ _ => by decide⟩
  place := by
    intro e he
    by_cases h0 : e = 0
    · exact Or.inl ⟨⟨0, by decide, h0⟩, fun _ _ => by subst h0; decide, List.not_mem_nil⟩
    · have hmem : e ∈ [1, 2, 3] := by
        have : e < 4 := he
        simp only [List.mem_cons, List.not_mem_nil, or_false]
        omega
      refine Or.inr (Or.inl ⟨?_, ⟨0, ⟨by decide, hmem⟩, fun b hb => Nat.lt_one_iff.1 hb.1⟩, List.not_mem_nil⟩)
      rintro ⟨b, hb, rfl⟩
      obtain rfl : b = 0 := Nat.lt_one_iff.1 hb
      exact h0 rfl
  chainOffset := by intro b _; decide
  rootOffset := by intro b hb _; obtain rfl : b = 0 := Nat.lt_one_iff.1 hb; decide
  freeOffset := fun _ he => absurd he List.not_mem_nil

theorem fragments_stuck : Stuck .single ⟨false, 4096, 0, 0, 0⟩ 0 Seg.fragments [] fun _ => [1, 2, 3] where
  full := rfl
  root := by decide
  kept := by intro c hc _; obtain rfl : c = 0 := Nat.lt_one_iff.1 hc; decide

/-- four fragments in a segment of one bucket, and a fifth entry to insert: no number of passes is enough -/
theorem fragments_never_end :
    SegmentOk .single Seg.fragments [] (fun _ => [1, 2, 3]) ∧ (Dir.zero.setOffset 5).offset ≠ 0 ∧
    (¬ ∃ n, (dirInsert .single ⟨false, 4096, 0, 0, 0⟩ ⟨fun _ => 0⟩ (Dir.zero.setOffset 5) n Seg.fragments).2 ≠ none) ∧
    ¬ ∃ n, (dirOverwrite .single ⟨false, 4096, 0, 0, 0⟩ ⟨fun _ => 0⟩ (Dir.zero.setOffset 5) (Dir.zero.setOffset 9) false n
      Seg.fragments).2 ≠ none := by
  have hst := fragments_ok.stored
  have hstuck : StuckLists .single ⟨false, 4096, 0, 0, 0⟩ 0 (Seg.fragments.lists fun _ => [1, 2, 3]) :=
    (fragments_ok.stuck_iff (by decide)).2 fragments_stuck
  have hroom : ¬ Room .single ⟨false, 4096, 0, 0, 0⟩ 0 Seg.fragments := fun hr => hstuck.not_room hr hst (by decide)
  refine ⟨fragments_ok, by decide, fun hn => hroom ((dirInsert_returns _ _).1 hn), fun hn => ?_⟩
  rcases (hst.overwrite_returns ⟨fun _ => 0⟩ _ _).1 hn with hy | hr
  · obtain ⟨-, e, he, -, ho⟩ := (overwrites_iff ⟨fun _ => 0⟩ (Dir.zero.setOffset 9)).1 hy
    have hno : ∀ e ∈ [0, 1, 2, 3], (Seg.fragments.dir e).offset ≠ (Dir.zero.setOffset 9).offset := by decide
    exact hno e he ho
  · exact hroom hr

/-- of a bucket that is not stuck -/
theorem lagain_loop_empty :
    let x := Dir.zero.setOffset 5
    (∃ n, (dirInsert .single ⟨false, 0, 0, 0, 0⟩ ⟨fun _ => 0⟩ x n Seg.fragments).2 ≠ none) := by
  intro x
  refine ((lagain_loop fragments_ok ⟨false, 0, 0, 0, 0⟩ ⟨fun _ => 0⟩ x x).1).2 fun hs => ?_
  have := (hs.kept 0 (by decide) (Or.inl rfl) 0 List.mem_cons_self).1
  revert this
  decide

end TrafficServer.Cache
