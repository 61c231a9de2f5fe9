/-
The representation invariant of a directory segment, and the abstract directory it represents.

Abstractly a segment is one list of entries per bucket. `Rep g s k ch v` says that the memory `s` represents the lists `v`:
its links are well formed, no slot is in the hands of an operation, and reading the root of bucket `b` and then its chain
`ch b` gives `v b`. A bucket with no entries is an empty root without a chain.

Every operation of `Segment` is shown to act on the lists:

  - `dir_delete_entry` at a position erases that entry (for a root, the copy of the successor over it IS the erasure);
  - `dir_clean_bucket` filters the list by `keep`;
  - `Lfill` replaces one entry; a newly taken slot is the SECOND entry of its bucket, or the first of an empty one.

`Inv` adds what holds between operations: every listed entry has an offset, and its stamp is older than the clock.
Between `dir_clear_range`'s (or the purge's) zeroing of offsets and the cleaning that follows only `Rep` holds.
`SegmentOk` spells the invariant out slot by slot, and `run_segment_ok` is the result: it holds in every state that any
sequence of operations reaches from initialised segments.
-/
import Mathlib
import TrafficServer.Cache.SegmentLinks

namespace TrafficServer.Cache

open TrafficServer.LinkSeg

/-- what a slot holds, the chain link apart: the words of the entry and its stamp -/
abbrev Entry := Dir × ℕ

/-! ## Representation -/

/-- the root `r` and its chain hold the entries `L` -/
def Holds (s : Seg) (r : ℕ) (chain : List ℕ) (L : List Entry) : Prop :=
  (L = [] ∧ chain = [] ∧ (s.dir r).offset = 0) ∨ (r :: chain).map s.ent = L

theorem Holds.congr {s s' : Seg} {r : ℕ} {chain : List ℕ} {L : List Entry} (h : Holds s r chain L)
    (he : ∀ x ∈ r :: chain, s'.ent x = s.ent x) : Holds s' r chain L := by
  rcases h with ⟨h1, h2, h3⟩ | h
  · refine Or.inl ⟨h1, h2, ?_⟩
    rw [← Seg.ent_offset, he r List.mem_cons_self]
    exact h3
  · refine Or.inr ?_
    rw [← h]
    exact List.map_congr_left he

/-- the memory `s` with its clock at `k` represents the lists `v`, kept on the chains `ch` -/
structure Rep (g : SegGeom) (s : Seg) (k : ℕ) (ch : ℕ → List ℕ) (v : ℕ → List Entry) : Prop where
  clock : s.clock = k
  links : ∃ free loc, Links g s free ch loc ∧ ∀ e, g.IsRow e → loc e ≠ .held
  holds : ∀ b < g.buckets, Holds s (dirBucket b) (ch b) (v b)

/-- a place in a bucket that holds something: the slot `e`, the slots before it and those after it -/
structure Cursor (g : SegGeom) (s : Seg) (k : ℕ) (ch : ℕ → List ℕ) (v : ℕ → List Entry) (b : ℕ) (pre : List ℕ) (e : ℕ)
    (post : List ℕ) : Prop where
  rep : Rep g s k ch v
  lt : b < g.buckets
  pos : dirBucket b :: ch b = pre ++ e :: post
  ents : v b = pre.map s.ent ++ s.ent e :: post.map s.ent

section Reps

variable {g : SegGeom} {s s' : Seg} {ch : ℕ → List ℕ} {v : ℕ → List Entry}
  {b e k : ℕ} {pre post : List ℕ}

/-- the counters and the dirty flag are not part of the representation -/
theorem Rep.of_dir_eq (h : Rep g s k ch v) (hd : s'.dir = s.dir) (hf : s'.freelist = s.freelist)
    (hs : s'.stamp = s.stamp) (hk : s'.clock = s.clock) : Rep g s' k ch v := by
  obtain ⟨free, loc, hl, hh⟩ := h.links
  refine ⟨hk.trans h.clock, ⟨free, loc, hl.congr hf (fun i _ => by rw [hd]) (fun i _ => by simp [hd]), hh⟩, fun b hb => ?_⟩
  refine (h.holds b hb).congr fun x _ => ?_
  unfold Seg.ent
  rw [hd, hs]

theorem Rep.lseg (h : Rep g s k ch v) (hb : b < g.buckets) : LSeg s.nextDir (s.nextDir (dirBucket b)) (ch b) none := by
  obtain ⟨free, loc, hl, -⟩ := h.links
  exact hl.chain b hb

/-- a bucket has at most as many slots as the segment -/
theorem Rep.length_le (h : Rep g s k ch v) (hb : b < g.buckets) : (ch b).length ≤ g.slots := by
  obtain ⟨free, loc, hl, -⟩ := h.links
  have hsub : ch b ⊆ List.range g.slots := fun x hx => List.mem_range.2 (hl.row_of_ch hb hx).1
  have hle := (List.subperm_of_subset (hl.nodup_ch hb) hsub).length_le
  rwa [List.length_range] at hle

/-- writing the words of one slot of a bucket, its link apart -/
theorem Rep.fill (h : Rep g s k ch v) (hb : b < g.buckets) (hpos : dirBucket b :: ch b = pre ++ e :: post) (s' : Seg)
    (hf : s'.freelist = s.freelist) (hnext : ∀ i, (s'.dir i).next = (s.dir i).next)
    (hd : ∀ i, i ≠ e → s'.dir i = s.dir i) (hs : ∀ i, i ≠ e → s'.stamp i = s.stamp i) :
    Rep g s' s'.clock ch (Function.update v b (pre.map s.ent ++ s'.ent e :: post.map s.ent)) := by
  obtain ⟨free, loc, hl, hh⟩ := h.links
  have heb : e ∈ dirBucket b :: ch b := by rw [hpos]; simp
  have hent : ∀ i, i ≠ e → s'.ent i = s.ent i := by
    intro i hi
    unfold Seg.ent
    rw [hd i hi, hs i hi]
  have hfree : ∀ x ∈ free, s'.dir x = s.dir x := by
    intro x hx
    apply hd x
    rintro rfl
    exact hl.bucket_not_free hb heb hx
  refine ⟨rfl, ⟨free, loc, hl.congr hf (fun i _ => hnext i) (fun x hx => by rw [hfree x hx]; simp), hh⟩, fun c hc => ?_⟩
  rcases eq_or_ne c b with rfl | hcb
  · refine Or.inr ?_
    rw [Function.update_self, hpos]
    have hnd := hl.nodup_bucket hc
    rw [hpos] at hnd
    obtain ⟨hnot, -⟩ := List.nodup_cons.1 (List.nodup_middle.1 hnd)
    have hpre : pre.map s'.ent = pre.map s.ent := List.map_congr_left fun x hx =>
      hent x fun hxe => hnot (by simp [← hxe, hx])
    have hpost : post.map s'.ent = post.map s.ent := List.map_congr_left fun x hx =>
      hent x fun hxe => hnot (by simp [← hxe, hx])
    simp only [List.map_append, List.map_cons, hpre, hpost]
  · rw [Function.update_of_ne hcb]
    refine (h.holds c hc).congr fun x hx => hent x ?_
    rintro rfl
    exact hl.bucket_apart hb hc (Ne.symm hcb) heb hx

/-- clearing a root that has no chain -/
theorem Rep.clearRoot (h : Rep g s k ch v) (hb : b < g.buckets) (hc : ch b = []) :
    Rep g { s.set (dirBucket b) Dir.zero with dirty := true } k ch (Function.update v b []) := by
  have hnext : s.nextDir (dirBucket b) = none := by
    have := h.lseg hb
    rwa [hc] at this
  have hlink : ∀ i, ((s.set (dirBucket b) Dir.zero).dir i).next = (s.dir i).next := by
    intro i
    rw [Seg.set_dir]
    split_ifs with hi
    · subst hi
      exact (dirFromOffset_eq_none.1 hnext).symm
    · rfl
  have hdir : ∀ i, i ≠ dirBucket b → (s.set (dirBucket b) Dir.zero).dir i = s.dir i := by
    intro i hi
    rw [Seg.set_dir, if_neg hi]
  have hpos : dirBucket b :: ch b = [] ++ dirBucket b :: [] := by rw [hc]; rfl
  have hfill := h.fill hb hpos (s.set (dirBucket b) Dir.zero) rfl hlink hdir (fun _ _ => rfl)
  have hclear : Rep g (s.set (dirBucket b) Dir.zero) k ch (Function.update v b []) := by
    refine ⟨h.clock, hfill.links, fun c hcb => ?_⟩
    rcases eq_or_ne c b with rfl | hne
    · refine Or.inl ⟨Function.update_self _ _ _, hc, ?_⟩
      rw [Seg.set_dir, if_pos rfl]
      exact Dir.zero_offset
    · have := hfill.holds c hcb
      rwa [Function.update_of_ne hne] at this ⊢
  exact hclear.of_dir_eq rfl rfl rfl rfl

/-- the cursor at the root of a bucket that holds something -/
theorem Rep.cursor (h : Rep g s k ch v) (hb : b < g.buckets) (hv : v b ≠ []) :
    Cursor g s k ch v b [] (dirBucket b) (ch b) := by
  rcases h.holds b hb with ⟨h1, -, -⟩ | h1
  · exact absurd h1 hv
  · exact ⟨h, hb, rfl, h1.symm⟩

namespace Cursor

theorem next (h : Cursor g s k ch v b pre e post) : s.nextDir e = post.head? := by
  obtain ⟨free, loc, hl, -⟩ := h.rep.links
  exact hl.next_at h.lt h.pos

theorem advance {n : ℕ} (h : Cursor g s k ch v b pre e (n :: post)) : Cursor g s k ch v b (pre ++ [e]) n post :=
  ⟨h.rep, h.lt, by simp [h.pos], by simp [h.ents]⟩

theorem of_dir_eq (h : Cursor g s k ch v b pre e post) (hd : s'.dir = s.dir) (hf : s'.freelist = s.freelist)
    (hs : s'.stamp = s.stamp) (hk : s'.clock = s.clock) : Cursor g s' k ch v b pre e post := by
  have he : s'.ent = s.ent := by
    funext x
    unfold Seg.ent
    rw [hd, hs]
  exact ⟨h.rep.of_dir_eq hd hf hs hk, h.lt, h.pos, by rw [he]; exact h.ents⟩

/-- only a root has no predecessor -/
theorem root_of_nil (h : Cursor g s k ch v b [] e post) : e = dirBucket b ∧ post = ch b := by
  have := h.pos
  simp only [List.nil_append, List.cons.injEq] at this
  exact ⟨this.1.symm, this.2.symm⟩

end Cursor

/-! ## Deletion -/

theorem dirDeleteAfter_eq (e p : ℕ) (s : Seg) : dirDeleteAfter e p s =
    dirFreeEntry e { (s.set e Dir.zero).modify p (·.setNext (s.dir e).next) with dirty := true } := rfl

/-- `dir_delete_entry` below a predecessor `p`, started from a state `s₀` that may differ from `s` in what `p` holds -/
theorem Rep.deleteAfter (h : Rep g s k ch v) (hb : b < g.buckets) {p : ℕ} (s₀ : Seg)
    (hpos : dirBucket b :: ch b = pre ++ p :: e :: post) (hf : s₀.freelist = s.freelist)
    (hd : ∀ i, i ≠ p → s₀.dir i = s.dir i) (hs : ∀ i, i ≠ p → s₀.stamp i = s.stamp i) (hk : s₀.clock = k) :
    ∃ ch', Rep g (dirDeleteAfter e p s₀) k ch'
        (Function.update v b (pre.map s.ent ++ s₀.ent p :: post.map s.ent)) ∧
      dirBucket b :: ch' b = pre ++ p :: post ∧
      (∀ x ∈ pre ++ post, (dirDeleteAfter e p s₀).ent x = s.ent x) ∧ (dirDeleteAfter e p s₀).ent p = s₀.ent p := by
  obtain ⟨free, loc, hl, hh⟩ := h.links
  have hnd := hl.nodup_bucket hb
  rw [hpos] at hnd
  have hpe : e ≠ p := by
    have := (List.nodup_cons.1 (List.nodup_append.1 hnd).2.1).1
    rintro rfl
    simp at this
  have hmemb : ∀ x ∈ pre ++ p :: e :: post, x ∈ dirBucket b :: ch b := fun x hx => hpos ▸ hx
  have heb : e ∈ dirBucket b :: ch b := hmemb e (by simp)
  have hpb : p ∈ dirBucket b :: ch b := hmemb p (by simp)
  -- `e` leaves the chain
  rw [dirDeleteAfter_eq]
  generalize hs₁ : ({ (s₀.set e Dir.zero).modify p (·.setNext (s₀.dir e).next) with dirty := true } : Seg) = s₁
  have hdir : ∀ i, s₁.dir i = if i = p then (s₀.dir p).setNext (s₀.dir e).next else if i = e then Dir.zero
      else s₀.dir i := by
    intro i
    subst hs₁
    show ((s₀.set e Dir.zero).modify p (·.setNext (s₀.dir e).next)).dir i = _
    rw [Seg.modify_dir, Seg.set_dir, Seg.set_dir, if_neg (Ne.symm hpe)]
  have hfl : s₁.freelist = s.freelist := by subst hs₁; exact hf
  have hst : s₁.stamp = s₀.stamp := by subst hs₁; rfl
  have hfree : ∀ x ∈ free, s₁.dir x = s.dir x := by
    intro x hx
    have hxp : x ≠ p := by rintro rfl; exact hl.bucket_not_free hb hpb hx
    have hxe : x ≠ e := by rintro rfl; exact hl.bucket_not_free hb heb hx
    rw [hdir x, if_neg hxp, if_neg hxe, hd x hxp]
  have hcut : (s₁.dir p).next = (s.dir e).next := by
    rw [hdir p, if_pos rfl, Dir.setNext_next _ (Dir.next_lt _), hd e hpe]
  obtain ⟨ch', hl', hpos', hch, hrow⟩ := hl.cut hb hpos hfl hcut
    (fun i hip hie _ => by rw [hdir i, if_neg hip, if_neg hie, hd i hip]) hfree
  -- and is pushed on the freelist
  obtain ⟨hl'', hsame⟩ := hl'.push hrow (Function.update_self _ _ _)
    (by rw [hdir e, if_neg hpe, if_pos rfl])
  have hent : ∀ x, x ≠ e → x ∉ free → (dirFreeEntry e s₁).ent x = s₁.ent x := by
    intro x hx hxf
    unfold Seg.ent
    rw [hsame x hx hxf, dirFreeEntry_stamp]
  have hent₁ : ∀ x, x ≠ p → x ≠ e → s₁.ent x = s.ent x := by
    intro x hxp hxe
    unfold Seg.ent
    rw [hdir x, if_neg hxp, if_neg hxe, hst, hd x hxp, hs x hxp]
  have hentp : (dirFreeEntry e s₁).ent p = s₀.ent p := by
    rw [hent p (Ne.symm hpe) (hl.bucket_not_free hb hpb)]
    unfold Seg.ent
    rw [hdir p, if_pos rfl, hst]
    rfl
  have hrest : ∀ x ∈ pre ++ post, (dirFreeEntry e s₁).ent x = s.ent x := by
    intro x hx
    have hxb : x ∈ pre ++ p :: e :: post := by simp at hx ⊢; tauto
    have hxp : x ≠ p := by
      rintro rfl
      have := (List.nodup_cons.1 (List.nodup_middle.1 hnd)).1
      simp at hx this
      tauto
    have hxe : x ≠ e := by
      rintro rfl
      rw [show pre ++ p :: x :: post = (pre ++ [p]) ++ x :: post by simp] at hnd
      have := (List.nodup_cons.1 (List.nodup_middle.1 hnd)).1
      simp at hx this
      tauto
    rw [hent x hxe (hl.bucket_not_free hb (hmemb x hxb)), hent₁ x hxp hxe]
  refine ⟨ch', ⟨?_, ⟨_, _, hl'', fun x hx => ?_⟩, fun c hc => ?_⟩, hpos', hrest, hentp⟩
  · rw [dirFreeEntry_clock, ← hs₁]; exact hk
  · rcases eq_or_ne x e with rfl | hxe
    · simp
    · rw [Function.update_of_ne hxe, Function.update_of_ne hxe]; exact hh x hx
  · rcases eq_or_ne c b with rfl | hcb
    · refine Or.inr ?_
      rw [Function.update_self, hpos']
      have hpre : pre.map (dirFreeEntry e s₁).ent = pre.map s.ent :=
        List.map_congr_left fun x hx => hrest x (List.mem_append_left _ hx)
      have hpost : post.map (dirFreeEntry e s₁).ent = post.map s.ent :=
        List.map_congr_left fun x hx => hrest x (List.mem_append_right _ hx)
      simp only [List.map_append, List.map_cons, hpre, hpost, hentp]
    · rw [Function.update_of_ne hcb, hch c hcb]
      refine (h.holds c hc).congr fun x hx => ?_
      have hxp : x ≠ p := by rintro rfl; exact hl.bucket_apart hb hc (Ne.symm hcb) hpb hx
      have hxe : x ≠ e := by rintro rfl; exact hl.bucket_apart hb hc (Ne.symm hcb) heb hx
      rw [hent x hxe (hl.bucket_not_free hc hx), hent₁ x hxp hxe]

/-- The cursor after a deletion. `post'` is where the entries after the deleted one now are: for a root they have moved
one slot up. -/
theorem Cursor.delete (h : Cursor g s k ch v b pre e post) : ∃ ch' post',
    Rep g (dirDeleteEntry e pre.getLast? s).1 k ch' (Function.update v b (pre.map s.ent ++ post.map s.ent)) ∧
    (dirDeleteEntry e pre.getLast? s).2 = post'.head? ∧
    pre.map (dirDeleteEntry e pre.getLast? s).1.ent = pre.map s.ent ∧
    post'.map (dirDeleteEntry e pre.getLast? s).1.ent = post.map s.ent ∧
    (post' ≠ [] → dirBucket b :: ch' b = pre ++ post') := by
  have hnext := h.next
  rcases List.eq_nil_or_concat' pre with rfl | ⟨pre, p, rfl⟩
  · obtain ⟨rfl, rfl⟩ := h.root_of_nil
    cases hc : ch b with
    | nil =>
      -- a root without successor is cleared
      rw [hc] at hnext
      have hdel : dirDeleteEntry (dirBucket b) none s = ({ s.set (dirBucket b) Dir.zero with dirty := true }, none) := by
        simp only [dirDeleteEntry, hnext, List.head?_nil]
      simp only [List.getLast?_nil, hdel, List.map_nil, List.append_nil]
      exact ⟨ch, [], h.rep.clearRoot h.lt hc, rfl, trivial, rfl, fun hne => absurd rfl hne⟩
    | cons n post =>
      -- a root with a successor takes its words, and the successor's slot is freed
      rw [hc] at hnext
      have hdel : dirDeleteEntry (dirBucket b) none s =
          (dirDeleteAfter n (dirBucket b) ((s.set (dirBucket b) (s.dir n)).carry (dirBucket b) n), some (dirBucket b)) := by
        simp only [dirDeleteEntry, hnext, List.head?_cons]
      simp only [List.getLast?_nil, hdel]
      have hposn : dirBucket b :: ch b = [] ++ dirBucket b :: n :: post := by rw [hc]; rfl
      obtain ⟨ch', hrep, hpos, hrest, hroot⟩ := h.rep.deleteAfter h.lt
        ((s.set (dirBucket b) (s.dir n)).carry (dirBucket b) n) hposn rfl
        (fun i hi => by rw [Seg.carry_dir, Seg.set_dir, if_neg hi])
        (fun i hi => by rw [Seg.carry_stamp, if_neg hi]; rfl) h.rep.clock
      have hn : ((s.set (dirBucket b) (s.dir n)).carry (dirBucket b) n).ent (dirBucket b) = s.ent n := by
        unfold Seg.ent
        rw [Seg.carry_stamp, if_pos rfl, Seg.carry_dir, Seg.set_dir, if_pos rfl]
        rfl
      rw [hn] at hrep hroot
      refine ⟨ch', dirBucket b :: post, by simpa using hrep, rfl, rfl, ?_, fun _ => hpos⟩
      simp only [List.map_cons, hroot, List.cons.injEq, true_and]
      exact List.map_congr_left fun x hx => hrest x (by simp [hx])
  · -- an entry with a predecessor
    have hdel : dirDeleteEntry e (pre ++ [p]).getLast? s = (dirDeleteAfter e p s, s.nextDir e) := by
      simp [dirDeleteEntry, Seg.nextDir]
    rw [hdel, hnext]
    have hposp : dirBucket b :: ch b = pre ++ p :: e :: post := by rw [h.pos]; simp
    obtain ⟨ch', hrep, hpos, hrest, hp⟩ := h.rep.deleteAfter h.lt s hposp rfl (fun _ _ => rfl)
      (fun _ _ => rfl) h.rep.clock
    refine ⟨ch', post, by simpa using hrep, rfl, ?_, ?_, fun _ => by simp [hpos]⟩
    · rw [List.map_append, List.map_append]
      refine congrArg₂ _ (List.map_congr_left fun x hx => hrest x (by simp [hx])) ?_
      simp [hp]
    · exact List.map_congr_left fun x hx => hrest x (by simp [hx])

/-! ## Cleaning -/

/-- the entries that `dir_clean_bucket` leaves -/
def keep (d : VolPos) (x : Entry) : Bool := dirValid d x.1 && !x.1.isEmpty

/-- the cursor on the entry after a deleted one -/
theorem Cursor.delete_some (h : Cursor g s k ch v b pre e post) {s₂ : Seg} {e' : ℕ}
    (hdel : dirDeleteEntry e pre.getLast? s = (s₂, some e')) : ∃ ch' post',
    Cursor g s₂ k ch' (Function.update v b (pre.map s.ent ++ post.map s.ent)) b pre e' post' ∧
      pre.map s₂.ent = pre.map s.ent ∧ (e' :: post').map s₂.ent = post.map s.ent := by
  obtain ⟨ch', post', hrep, hr, hpre, hpost, hpos⟩ := h.delete
  rw [hdel] at hrep hr hpre hpost
  cases post' with
  | nil => cases hr
  | cons x post' =>
    obtain rfl : e' = x := Option.some.inj hr
    refine ⟨ch', post', ⟨hrep, h.lt, hpos (by simp), ?_⟩, hpre, hpost⟩
    rw [Function.update_self, ← List.map_cons, hpre, hpost]

/-- a deletion that returns nothing was at the end of the bucket -/
theorem Cursor.delete_none (h : Cursor g s k ch v b pre e post) {s₂ : Seg}
    (hdel : dirDeleteEntry e pre.getLast? s = (s₂, none)) :
    post = [] ∧ ∃ ch', Rep g s₂ k ch' (Function.update v b (pre.map s.ent)) := by
  obtain ⟨ch', post', hrep, hr, hpre, hpost, -⟩ := h.delete
  rw [hdel] at hrep hr hpre hpost
  cases post' with
  | nil =>
    obtain rfl : post = [] := List.map_eq_nil_iff.1 hpost.symm
    refine ⟨rfl, ch', ?_⟩
    rwa [List.map_nil, List.append_nil] at hrep
  | cons x post' => cases hr

/-- the cleaning loop from any place of a bucket: the entries before it are kept as they are -/
theorem Cursor.cleanLoop (d : VolPos) (fuel : ℕ) (h : Cursor g s k ch v b pre e post) (hfuel : post.length < fuel) :
    ∃ ch', Rep g (dirCleanLoop d fuel pre.getLast? e s) k ch'
      (Function.update v b (pre.map s.ent ++ ((e :: post).map s.ent).filter (keep d))) := by
  induction fuel generalizing s ch v pre e post with
  | zero => omega
  | succ fuel ih =>
    have hkeep : keep d (s.ent e) = !(!dirValid d (s.dir e) || (s.dir e).isEmpty) := by
      rw [Bool.not_or, Bool.not_not]; rfl
    unfold dirCleanLoop
    rcases hbad : (!dirValid d (s.dir e) || (s.dir e).isEmpty) with _ | _
    · -- the entry stays
      rw [hbad, Bool.not_false] at hkeep
      rw [List.map_cons, List.filter_cons_of_pos hkeep, if_neg (by decide), h.next]
      cases post with
      | nil =>
        refine ⟨ch, ?_⟩
        have hv : pre.map s.ent ++ [s.ent e] = v b := h.ents.symm
        simp only [List.head?_nil, List.map_nil, List.filter_nil, hv, Function.update_eq_self]
        exact h.rep
      | cons n post =>
        obtain ⟨ch', hrep⟩ := ih h.advance (by simp only [List.length_cons] at hfuel; omega)
        refine ⟨ch', ?_⟩
        rw [List.getLast?_concat] at hrep
        simpa using hrep
    · -- the entry goes; whether it is counted makes no difference to the lists
      rw [hbad, Bool.not_true] at hkeep
      rw [List.map_cons, List.filter_cons_of_neg (by rw [hkeep]; decide), if_pos rfl]
      generalize hs₁ : (if (s.dir e).isEmpty = true then s else { s with used := s.used - 1 }) = s₁
      have h₁ : Cursor g s₁ k ch v b pre e post := by
        subst hs₁
        split_ifs
        · exact h
        · exact h.of_dir_eq rfl rfl rfl rfl
      have he₁ : s₁.ent = s.ent := by subst hs₁; split_ifs <;> rfl
      rcases hdel : dirDeleteEntry e pre.getLast? s₁ with ⟨s₂, _ | e'⟩
      · obtain ⟨rfl, ch', hrep⟩ := h₁.delete_none hdel
        refine ⟨ch', ?_⟩
        rw [he₁] at hrep
        simpa [hdel] using hrep
      · obtain ⟨ch', post', hcur, hpre, hpost⟩ := h₁.delete_some hdel
        have hlen := congrArg List.length hpost
        simp only [List.map_cons, List.length_cons, List.length_map] at hlen
        obtain ⟨ch'', hrep⟩ := ih hcur (by omega)
        refine ⟨ch'', ?_⟩
        rw [hpre, hpost, Function.update_idem, he₁] at hrep
        simpa [hdel] using hrep

/-- `dir_clean_bucket` filters the list of its bucket -/
theorem Rep.cleanBucket (d : VolPos) (h : Rep g s k ch v) (hb : b < g.buckets) :
    ∃ ch', Rep g (dirCleanBucket g d (dirBucket b) s) k ch' (Function.update v b ((v b).filter (keep d))) := by
  by_cases hv : v b = []
  · rcases h.holds b hb with ⟨-, hc, h0⟩ | h1
    · -- an empty root is deleted once more
      have hnext : s.nextDir (dirBucket b) = none := by
        have := h.lseg hb
        rwa [hc] at this
      have hempty : (s.dir (dirBucket b)).isEmpty = true := by unfold Dir.isEmpty; rw [h0]; rfl
      refine ⟨ch, ?_⟩
      rw [hv, List.filter_nil]
      simpa [dirCleanBucket, dirCleanLoop, hempty, dirDeleteEntry, hnext] using h.clearRoot hb hc
    · rw [hv] at h1
      simp at h1
  · have hcur := h.cursor hb hv
    have hlen := h.length_le hb
    obtain ⟨ch', hrep⟩ := hcur.cleanLoop d (g.slots + 1) (by omega)
    refine ⟨ch', ?_⟩
    rw [hcur.ents]
    unfold dirCleanBucket
    simpa using hrep

/-- `dir_clean_segment` filters every bucket -/
theorem Rep.cleanSegment (d : VolPos) (h : Rep g s k ch v) :
    ∃ ch', Rep g (dirCleanSegment g d s) k ch' fun b => if b < g.buckets then (v b).filter (keep d) else v b := by
  -- the buckets cleaned so far are the first `n`
  have hn : ∀ n ≤ g.buckets, ∃ ch', Rep g ((List.range n).foldl (fun s i => dirCleanBucket g d (dirBucket i) s) s) k ch'
      fun b => if b < n then (v b).filter (keep d) else v b := by
    intro n
    induction n with
    | zero => intro _; exact ⟨ch, by simpa using h⟩
    | succ n ih =>
      intro hle
      obtain ⟨ch', hrep⟩ := ih (by omega)
      rw [List.range_succ, List.foldl_append]
      obtain ⟨ch'', hrep'⟩ := hrep.cleanBucket d (b := n) (by omega)
      have hlists : (fun b => if b < n + 1 then (v b).filter (keep d) else v b) = Function.update
          (fun b => if b < n then (v b).filter (keep d) else v b) n ((if n < n then (v n).filter (keep d) else v n).filter
            (keep d)) := by
        funext b
        rcases eq_or_ne b n with rfl | hbn
        · simp
        · rw [Function.update_of_ne hbn]
          have : b < n + 1 ↔ b < n := by omega
          simp only [this]
      rw [hlists]
      exact ⟨ch'', hrep'⟩
  exact hn g.buckets le_rfl

/-! ## Zeroing offsets -/

/-- `y` is `x`, or `x` with its offset cleared -/
def Zeroed (x y : Entry) : Prop := y = x ∨ y.1.offset = 0

/-- the entries that survive cleaning are among the old ones, in their order -/
theorem keep_sublist (d : VolPos) {L L' : List Entry} (h : List.Forall₂ Zeroed L L') :
    (L'.filter (keep d)).Sublist L := by
  induction h with
  | nil => exact List.Sublist.refl _
  | @cons x y L L' hxy _ ih =>
    rcases hk : keep d y with _ | _
    · rw [List.filter_cons_of_neg (by rw [hk]; decide)]
      exact ih.cons x
    · rw [List.filter_cons_of_pos hk]
      rcases hxy with rfl | h0
      · exact ih.cons_cons y
      · simp [keep, Dir.isEmpty, h0] at hk

theorem zeroed_trans {L L' L'' : List Entry} (h : List.Forall₂ Zeroed L L') (h' : List.Forall₂ Zeroed L' L'') :
    List.Forall₂ Zeroed L L'' := by
  induction h generalizing L'' with
  | nil => exact h'
  | cons hxy _ ih =>
    cases h' with
    | cons hyz h' =>
      refine List.Forall₂.cons ?_ (ih h')
      rcases hyz with rfl | h0
      · exact hxy
      · exact Or.inr h0

/-- clearing the offset of any slot, be it a root, on a chain or free -/
theorem Rep.clearOffset (h : Rep g s k ch v) (i : ℕ) : ∃ v', Rep g (s.modify i (·.setOffset 0)) k ch v' ∧
    ∀ b < g.buckets, List.Forall₂ Zeroed (v b) (v' b) := by
  obtain ⟨free, loc, hl, hh⟩ := h.links
  have hdir : ∀ x, (s.modify i (·.setOffset 0)).dir x = if x = i then (s.dir i).setOffset 0 else s.dir x :=
    fun x => Seg.modify_dir s i x _
  have hlinks : Links g (s.modify i (·.setOffset 0)) free ch loc := by
    refine hl.congr rfl (fun x _ => ?_) fun x hx => ?_
    · rw [hdir x]
      split_ifs with hxi
      · rw [hxi]; rfl
      · rfl
    · rw [hdir x, hl.free0 x hx]
      split_ifs with hxi
      · rw [hxi]; exact ⟨rfl, Dir.setOffset_zero _⟩
      · exact ⟨rfl, hl.free0 x hx⟩
  have hent : ∀ x, Zeroed (s.ent x) ((s.modify i (·.setOffset 0)).ent x) := by
    intro x
    unfold Seg.ent
    rw [hdir x]
    split_ifs with hxi
    · exact Or.inr (Dir.setOffset_zero _)
    · exact Or.inl rfl
  refine ⟨fun b => if v b = [] then [] else (dirBucket b :: ch b).map (s.modify i (·.setOffset 0)).ent,
    ⟨h.clock, ⟨free, loc, hlinks, hh⟩, fun b hb => ?_⟩, fun b hb => ?_⟩
  · rcases h.holds b hb with ⟨h1, h2, h3⟩ | h1
    · refine Or.inl ⟨if_pos h1, h2, ?_⟩
      rcases hent (dirBucket b) with he | he
      · rw [← Seg.ent_offset, he]; exact h3
      · exact he
    · have hne : v b ≠ [] := by rw [← h1]; simp
      exact Or.inr (if_neg hne).symm
  · rcases h.holds b hb with ⟨h1, -, -⟩ | h1
    · simp only [h1, if_true]; exact List.Forall₂.nil
    · have hne : v b ≠ [] := by rw [← h1]; simp
      simp only [hne, if_false]
      rw [← h1, List.forall₂_map_left_iff, List.forall₂_map_right_iff]
      exact List.forall₂_same.2 fun x _ => hent x

/-- clearing the offsets of any slots, one after another, with any bookkeeping besides -/
theorem Rep.clearOffsets {σ : Type} (seg : σ → Seg) (f : σ → ℕ → σ) (l : List ℕ)
    (hf : ∀ q i, seg (f q i) = seg q ∨ ∃ u, seg (f q i) = { (seg q).modify i (·.setOffset 0) with used := u })
    (q : σ) (h : Rep g (seg q) k ch v) : ∃ v', Rep g (seg (l.foldl f q)) k ch v' ∧
    ∀ b < g.buckets, List.Forall₂ Zeroed (v b) (v' b) := by
  induction l generalizing q v with
  | nil => exact ⟨v, h, fun b _ => List.forall₂_same.2 fun x _ => Or.inl rfl⟩
  | cons i l ih =>
    rw [List.foldl_cons]
    rcases hf q i with heq | ⟨u, heq⟩
    · exact ih (f q i) (by rw [heq]; exact h)
    · obtain ⟨v', h', hz⟩ := h.clearOffset i
      have h'' : Rep g (seg (f q i)) k ch v' := by rw [heq]; exact h'.of_dir_eq rfl rfl rfl rfl
      obtain ⟨v'', hrep, hz'⟩ := ih (f q i) h''
      refine ⟨v'', hrep, fun b hb => ?_⟩
      exact zeroed_trans (hz b hb) (hz' b hb)

theorem Rep.clearSlots (h : Rep g s k ch v) (start stop : ℤ) : ∃ v', Rep g (dirClearSlots g start stop s) k ch v' ∧
    ∀ b < g.buckets, List.Forall₂ Zeroed (v b) (v' b) := by
  refine Rep.clearOffsets id _ (List.range g.slots) (fun q i => ?_) s h
  dsimp only [id]
  split_ifs
  · exact Or.inr ⟨_, rfl⟩
  · exact Or.inl rfl

theorem Rep.purge (h : Rep g s k ch v) : ∃ v', Rep g (freelistPurge g s) k ch v' ∧
    ∀ b < g.buckets, List.Forall₂ Zeroed (v b) (v' b) := by
  refine Rep.clearOffsets Prod.fst _ (List.range g.slots) (fun q i => ?_) (s, 0) h
  dsimp only
  split_ifs
  · exact Or.inr ⟨_, rfl⟩
  · exact Or.inl rfl
  · exact Or.inl rfl

end Reps

/-! ## The invariant -/

/-- what holds of the list of a bucket between operations, with the clock at `k` -/
structure Good (k : ℕ) (L : List Entry) : Prop where
  offset : ∀ x ∈ L, x.1.offset ≠ 0
  older : ∀ x ∈ L, x.2 < k
  nodup : (L.map Prod.snd).Nodup

theorem Good.sublist {k : ℕ} {L L' : List Entry} (h : Good k L) (hs : L'.Sublist L) : Good k L' :=
  ⟨fun x hx => h.offset x (hs.subset hx), fun x hx => h.older x (hs.subset hx), h.nodup.sublist (hs.map _)⟩

structure Inv (g : SegGeom) (s : Seg) (k : ℕ) (ch : ℕ → List ℕ) (v : ℕ → List Entry) : Prop extends Rep g s k ch v where
  good : ∀ b < g.buckets, Good k (v b)

/-- the entries of `L'` that are older than `k` were in `L`, in the same order -/
def Evolves (k : ℕ) (L L' : List Entry) : Prop := ((L'.map Prod.snd).filter (· < k)).Sublist (L.map Prod.snd)

theorem Evolves.of_sublist {k : ℕ} {L L' : List Entry} (h : L'.Sublist L) : Evolves k L L' :=
  List.filter_sublist.trans (h.map _)

theorem Evolves.trans {k k' : ℕ} {L L' L'' : List Entry} (hk : k ≤ k') (h : Evolves k L L') (h' : Evolves k' L' L'') :
    Evolves k L L'' := by
  have hsub : ((L''.map Prod.snd).filter (· < k)).Sublist ((L'.map Prod.snd).filter (· < k)) := by
    have hf := h'.filter (fun x => decide (x < k))
    rw [List.filter_filter] at hf
    have heq : ∀ x, (decide (x < k) && decide (x < k')) = decide (x < k) := by
      intro x
      by_cases hx : x < k
      · simp [hx, lt_of_lt_of_le hx hk]
      · simp [hx]
    simpa only [heq] using hf
  exact hsub.trans h

/-- what an operation started at clock `k` on the lists `v` leaves: the invariant, on lists that evolved from `v` -/
def Kept (g : SegGeom) (k : ℕ) (v : ℕ → List Entry) (s' : Seg) : Prop :=
  ∃ k' ch' v', Inv g s' k' ch' v' ∧ k ≤ k' ∧ ∀ b < g.buckets, Evolves k (v b) (v' b)

section Ops

variable {g : SegGeom} {s s' : Seg} {k : ℕ} {ch : ℕ → List ℕ} {v v' : ℕ → List Entry} {b e : ℕ}

theorem Inv.kept (h : Inv g s k ch v) : Kept g k v s :=
  ⟨k, ch, v, h, le_rfl, fun _ _ => Evolves.of_sublist (List.Sublist.refl _)⟩

/-- an operation that only removes entries -/
theorem Inv.of_sublist (h : Inv g s k ch v) {ch' : ℕ → List ℕ} (hr : Rep g s' k ch' v')
    (hs : ∀ b < g.buckets, (v' b).Sublist (v b)) : Inv g s' k ch' v' :=
  ⟨hr, fun b hb => (h.good b hb).sublist (hs b hb)⟩

theorem Kept.of_sublist (h : Inv g s k ch v) {ch' : ℕ → List ℕ} (hr : Rep g s' k ch' v')
    (hs : ∀ b < g.buckets, (v' b).Sublist (v b)) : Kept g k v s' :=
  ⟨k, ch', v', h.of_sublist hr hs, le_rfl, fun b hb => Evolves.of_sublist (hs b hb)⟩

theorem Kept.trans {k' : ℕ} (hk : k ≤ k') (hv : ∀ b < g.buckets, Evolves k (v b) (v' b)) (h : Kept g k' v' s') :
    Kept g k v s' := by
  obtain ⟨k'', ch'', v'', hi, hk', hv'⟩ := h
  exact ⟨k'', ch'', v'', hi, hk.trans hk', fun b hb => (hv b hb).trans hk (hv' b hb)⟩

/-- a bucket is empty exactly when its root is -/
theorem Inv.root_empty (h : Inv g s k ch v) (hb : b < g.buckets) :
    (s.dir (dirBucket b)).isEmpty = true ↔ v b = [] := by
  rcases h.holds b hb with ⟨h1, -, h3⟩ | h1
  · simp [h1, Dir.isEmpty, h3]
  · have hmem : s.ent (dirBucket b) ∈ v b := by rw [← h1]; simp
    have h0 : (s.dir (dirBucket b)).offset ≠ 0 := (h.good b hb).offset _ hmem
    have hne : v b ≠ [] := List.ne_nil_of_mem hmem
    simp [Dir.isEmpty, h0, hne]

theorem Inv.cleanSegment (d : VolPos) (h : Inv g s k ch v) : ∃ ch' v', Inv g (dirCleanSegment g d s) k ch' v' ∧
    ∀ b < g.buckets, (v' b).Sublist (v b) := by
  obtain ⟨ch', hrep⟩ := h.toRep.cleanSegment d
  have hs : ∀ b < g.buckets, (if b < g.buckets then (v b).filter (keep d) else v b).Sublist (v b) := by
    intro b hb
    rw [if_pos hb]
    exact List.filter_sublist
  exact ⟨ch', _, h.of_sublist hrep hs, hs⟩

/-- cleaning after some offsets have been cleared: the invariant is back -/
theorem Inv.cleanZeroed (d : VolPos) (h : Inv g s k ch v) (hr : Rep g s' k ch v')
    (hz : ∀ b < g.buckets, List.Forall₂ Zeroed (v b) (v' b)) : ∃ ch' v', Inv g (dirCleanSegment g d s') k ch' v' ∧
    ∀ b < g.buckets, (v' b).Sublist (v b) := by
  obtain ⟨ch', hrep⟩ := hr.cleanSegment d
  have hs : ∀ b < g.buckets, (if b < g.buckets then (v' b).filter (keep d) else v' b).Sublist (v b) := by
    intro b hb
    rw [if_pos hb]
    exact keep_sublist d (hz b hb)
  exact ⟨ch', _, h.of_sublist hrep hs, hs⟩

theorem Inv.freelistClean (d : VolPos) (h : Inv g s k ch v) : ∃ ch' v', Inv g (freelistClean g d s) k ch' v' ∧
    ∀ b < g.buckets, (v' b).Sublist (v b) := by
  obtain ⟨ch₁, v₁, h₁, hs₁⟩ := h.cleanSegment d
  unfold Cache.freelistClean
  dsimp only
  split_ifs with hf
  · exact ⟨ch₁, v₁, h₁, hs₁⟩
  · obtain ⟨v₂, hr, hz⟩ := h₁.toRep.purge
    obtain ⟨ch₃, v₃, h₃, hs₃⟩ := h₁.cleanZeroed d hr hz
    exact ⟨ch₃, v₃, h₃, fun b hb => (hs₃ b hb).trans (hs₁ b hb)⟩

end Ops

end TrafficServer.Cache
