/-
The seven operations keep the invariant of a directory segment.

`SegmentInv` says how the primitives act on the lists of a segment. Here each operation is assembled from them: taking a
slot (`take_slot`), then `dir_insert`, `dir_overwrite`, `dir_delete` and `dir_probe`. Every one returns `Kept`: the
invariant again, on lists whose old entries are in their old order. `dir_probe` is described exactly, since `Probe` needs
to know which entry it returns.

`SegmentOk` spells the invariant out slot by slot and `run_segment_ok` is the result: it holds of every segment in every
state that a sequence of operations reaches from initialised segments.
-/
import Mathlib
import TrafficServer.Cache.SegmentInv

namespace TrafficServer.Cache

open TrafficServer.LinkSeg

section Ops

variable {g : SegGeom} {s s' : Seg} {k : ℕ} {ch : ℕ → List ℕ} {v v' : ℕ → List Entry} {b e : ℕ}

/-! ## Taking a slot -/

/-- a new entry goes second: it is linked behind the root -/
def insertSecond (n : Entry) : List Entry → List Entry
  | [] => [n]
  | a :: l => a :: n :: l

/-- the entry that `Lfill` writes for a new insertion at clock `k` -/
def newEntry (x : Dir) (t k : ℕ) : Entry := ((x.setTag t).setNext 0, k)

theorem Good.insertSecond {L : List Entry} (h : Good k L) {x : Dir} (t : ℕ) (hx : x.offset ≠ 0) :
    Good (k + 1) (insertSecond (newEntry x t k) L) := by
  have hmem : ∀ y, y ∈ Cache.insertSecond (newEntry x t k) L ↔ y = newEntry x t k ∨ y ∈ L := by
    intro y
    cases L with
    | nil => simp [Cache.insertSecond]
    | cons a l => simp only [Cache.insertSecond, List.mem_cons]; tauto
  have hperm : ((Cache.insertSecond (newEntry x t k) L).map Prod.snd).Perm (k :: L.map Prod.snd) := by
    cases L with
    | nil => exact List.Perm.refl _
    | cons a l => exact List.Perm.swap _ _ _
  refine ⟨fun y hy => ?_, fun y hy => ?_, ?_⟩
  · rcases (hmem y).1 hy with rfl | hy
    · exact hx
    · exact h.offset y hy
  · rcases (hmem y).1 hy with rfl | hy
    · exact Nat.lt_succ_self k
    · exact Nat.lt_succ_of_lt (h.older y hy)
  · refine hperm.nodup_iff.2 (List.nodup_cons.2 ⟨fun hk => ?_, h.nodup⟩)
    obtain ⟨y, hy, hyk⟩ := List.mem_map.1 hk
    have := h.older y hy
    omega

theorem evolves_insertSecond (L : List Entry) (x : Dir) (t k : ℕ) : Evolves k L (insertSecond (newEntry x t k) L) := by
  have hk : ¬ (newEntry x t k).2 < k := lt_irrefl k
  unfold Evolves
  cases L with
  | nil => simp [insertSecond, hk]
  | cons a l =>
    simp only [insertSecond, List.map_cons]
    have hdrop : (a.2 :: (newEntry x t k).2 :: l.map Prod.snd).filter (· < k) = (a.2 :: l.map Prod.snd).filter (· < k) := by
      simp [List.filter_cons, hk]
    rw [hdrop]
    exact List.filter_sublist

/-- the slot that was taken is linked at `e`, and the entries of the bucket stand before and after it -/
structure Taken (g : SegGeom) (s' : Seg) (k : ℕ) (v : ℕ → List Entry) (b e : ℕ) (ch' : ℕ → List ℕ)
    (v' : ℕ → List Entry) (pre post : List ℕ) : Prop where
  rep : Rep g s' k ch' v'
  other : ∀ c, c ≠ b → v' c = v c
  pos : dirBucket b :: ch' b = pre ++ e :: post
  ents : ∀ n, pre.map s'.ent ++ n :: post.map s'.ent = insertSecond n (v b)

/-- a freelist slot is linked behind the root of a bucket that holds something -/
theorem Inv.takeFree (h : Inv g s k ch v) (hb : b < g.buckets) (hv : v b ≠ []) {free : List ℕ} {loc : ℕ → Place}
    (hl : Links g s free ch loc) (hh : ∀ e, g.IsRow e → loc e ≠ .held) (he : e ∈ free) :
    ∃ ch' v' pre post, Taken g (dirLink e (dirBucket b) (unlinkFromFreelist e s)) k v b e ch' v' pre post := by
  obtain ⟨l₁, l₂, rfl⟩ := List.append_of_mem he
  have hrow : g.IsRow e := hl.row_of_free he
  obtain ⟨hu, hsame⟩ := hl.unlink
  have hlink := hu.link hb hrow (Function.update_self _ _ _)
  generalize hs' : dirLink e (dirBucket b) (unlinkFromFreelist e s) = s' at hlink ⊢
  -- the slots of the buckets hold what they held
  have hent : ∀ c < g.buckets, ∀ x ∈ dirBucket c :: ch c, s'.ent x = s.ent x := by
    intro c hc x hx
    have hxf := hl.bucket_not_free hc hx
    have hx' : (unlinkFromFreelist e s).ent x = s.ent x := by
      unfold Seg.ent
      rw [hsame x (fun hxl => hxf (by simp at hxl ⊢; tauto)), unlinkFromFreelist_stamp]
    rw [← hs', ← hx']
    unfold dirLink
    rw [Seg.ent_setNext, Seg.ent_setNext]
  have hcur := h.toRep.cursor hb hv
  refine ⟨_, Function.update v b ((dirBucket b :: e :: ch b).map s'.ent), [dirBucket b], ch b,
    ⟨?_, ⟨_, _, hlink, fun x hx => ?_⟩, fun c hc => ?_⟩, fun c hc => Function.update_of_ne hc _ _, ?_, fun n => ?_⟩
  · rw [← hs']
    show (unlinkFromFreelist e s).clock = k
    rw [unlinkFromFreelist_clock]
    exact h.clock
  · rcases eq_or_ne x e with rfl | hxe
    · simp
    · rw [Function.update_of_ne hxe, Function.update_of_ne hxe]; exact hh x hx
  · rcases eq_or_ne c b with rfl | hcb
    · refine Or.inr ?_
      rw [Function.update_self, Function.update_self]
    · rw [Function.update_of_ne hcb, Function.update_of_ne hcb]
      exact (h.holds c hc).congr (hent c hc)
  · rw [Function.update_self]; rfl
  · have hroot := hent b hb (dirBucket b) List.mem_cons_self
    have hchain : (ch b).map s'.ent = (ch b).map s.ent :=
      List.map_congr_left fun x hx => hent b hb x (List.mem_cons_of_mem _ hx)
    rw [hcur.ents, hchain]
    simp [insertSecond, hroot]

/-- `freelist_pop` from a non-empty freelist unlinks its head: a freelist slot is never found in use -/
theorem freelistPop_cons (d : VolPos) {free : List ℕ} {loc : ℕ → Place} (hl : Links g s (e :: free) ch loc) :
    freelistPop g d s = (unlinkFromFreelist e s, some e) := by
  obtain ⟨q, hhead, hprev, -⟩ := hl.freelist
  have hempty : (s.dir e).isEmpty = true := by
    unfold Dir.isEmpty
    rw [hl.free0 e List.mem_cons_self]
    rfl
  have hp0 : (s.dir e).prev = 0 := dirFromOffset_eq_none.1 hprev
  unfold freelistPop unlinkFromFreelist
  rw [hhead, hprev]
  simp only [hempty, Bool.not_true, Bool.false_eq_true, if_false]
  unfold Seg.nextDir
  dsimp only
  rcases hn : dirFromOffset (s.dir e).next with _ | n
  · rfl
  · simp only [hp0]

theorem freelistPop_nil (d : VolPos) {loc : ℕ → Place} (hl : Links g s [] ch loc) :
    freelistPop g d s = (freelistClean g d s, none) := by
  obtain ⟨q, hhead, -⟩ := hl.freelist
  unfold freelistPop
  rw [hhead]

/-- an empty slot of the bucket's row is on the freelist -/
theorem Inv.emptyRow_free (h : Inv g s k ch v) (hb : b < g.buckets) {free : List ℕ} {loc : ℕ → Place}
    (hl : Links g s free ch loc) (hh : ∀ e, g.IsRow e → loc e ≠ .held) (he : emptyRow (dirBucket b) s = some e) :
    e ∈ free := by
  have hfind := List.find?_some he
  have hmem := List.mem_of_find?_eq_some he
  have hrow : g.IsRow e := by
    unfold SegGeom.IsRow SegGeom.slots
    simp only [List.map_cons, List.map_nil, List.mem_cons, List.not_mem_nil, or_false, dirBucketRow, dirBucket,
      DIR_DEPTH] at hmem ⊢
    omega
  have h0 : (s.dir e).offset = 0 := by simpa [Dir.isEmpty] using hfind
  rw [hl.memFree]
  refine ⟨hrow, ?_⟩
  rcases hloc : loc e with _ | c | _
  · rfl
  · -- a slot of a chain is in use
    have hc := hl.inside e c hrow hloc
    have hec : e ∈ ch c := (hl.memCh c hc e).2 ⟨hrow, hloc⟩
    have hne : v c ≠ [] := by
      rcases h.holds c hc with ⟨-, h2, -⟩ | h1
      · rw [h2] at hec; cases hec
      · rw [← h1]; simp
    have hev : s.ent e ∈ v c := by
      rw [(h.toRep.cursor hc hne).ents]
      exact List.mem_cons_of_mem _ (List.mem_map_of_mem hec)
    exact absurd h0 ((h.good c hc).offset _ hev)
  · exact absurd hloc (hh e hrow)

/-- the choice of a slot for a new entry -/
theorem Inv.takeSlot (d : VolPos) (h : Inv g s k ch v) (hb : b < g.buckets) :
    (∃ s' e ch' v' pre post, dirTakeSlot g d (dirBucket b) s = (s', some e) ∧ Taken g s' k v b e ch' v' pre post) ∨
    (∃ s' ch' v', dirTakeSlot g d (dirBucket b) s = (s', none) ∧ Inv g s' k ch' v' ∧
      ∀ c < g.buckets, (v' c).Sublist (v c)) := by
  obtain ⟨free, loc, hl, hh⟩ := h.links
  unfold dirTakeSlot
  by_cases hroot : (s.dir (dirBucket b)).isEmpty = true
  · -- the root itself
    left
    have hv := (h.root_empty hb).1 hroot
    rw [if_pos hroot]
    rcases h.holds b hb with ⟨-, hc, -⟩ | h1
    · refine ⟨s, _, ch, v, [], [], rfl, h.toRep, fun _ _ => rfl, by rw [hc]; rfl, fun n => ?_⟩
      rw [hv]; rfl
    · rw [hv] at h1; simp at h1
  · have hv : v b ≠ [] := fun hv => hroot ((h.root_empty hb).2 hv)
    rw [if_neg hroot]
    rcases hrow : emptyRow (dirBucket b) s with _ | e
    · -- no free slot in the row
      dsimp only
      cases free with
      | nil =>
        right
        obtain ⟨ch', v', h', hs⟩ := h.freelistClean d
        rw [freelistPop_nil d hl]
        exact ⟨_, ch', v', rfl, h', hs⟩
      | cons e free =>
        left
        rw [freelistPop_cons d hl]
        obtain ⟨ch', v', pre, post, ht⟩ := h.takeFree hb hv hl hh List.mem_cons_self
        exact ⟨_, e, ch', v', pre, post, rfl, ht⟩
    · left
      obtain ⟨ch', v', pre, post, ht⟩ := h.takeFree hb hv hl hh (h.emptyRow_free hb hl hh hrow)
      exact ⟨_, e, ch', v', pre, post, rfl, ht⟩

/-! ## Insertion -/

theorem dirFill_dir (x : Dir) (t i : ℕ) :
    (dirFill e x t s).dir i = if i = e then ((s.dir e).assignData x).setTag t else s.dir i :=
  Seg.modify_dir s e i fun y => (y.assignData x).setTag t

theorem dirFill_next (x : Dir) (t i : ℕ) : ((dirFill e x t s).dir i).next = (s.dir i).next := by
  rw [dirFill_dir]
  split_ifs with hi
  · rw [hi, Dir.setTag_next, Dir.assignData_next]
  · rfl

theorem Taken.fillNew {ch' : ℕ → List ℕ} {pre post : List ℕ} (h : Taken g s' k v b e ch' v' pre post) (hb : b < g.buckets)
    (x : Dir) (t : ℕ) :
    Rep g (dirFillNew e x t s') (k + 1) ch' (Function.update v b (insertSecond (newEntry x t k) (v b))) := by
  have hfill := h.rep.fill hb h.pos (dirFillNew e x t s') rfl (fun i => dirFill_next x t i)
    (fun i hi => (dirFill_dir x t i).trans (if_neg hi))
    (fun i hi => (Seg.mark_stamp _ _ _).trans (if_neg hi))
  have hent : (dirFillNew e x t s').ent e = newEntry x t k := by
    have hstamp : (dirFillNew e x t s').stamp e = s'.clock := (Seg.mark_stamp _ _ _).trans (if_pos rfl)
    have hdir : (dirFillNew e x t s').dir e = ((s'.dir e).assignData x).setTag t := (dirFill_dir x t e).trans (if_pos rfl)
    unfold Seg.ent newEntry
    rw [hstamp, hdir, h.rep.clock]
    rfl
  have hlists : Function.update v' b (insertSecond (newEntry x t k) (v b)) =
      Function.update v b (insertSecond (newEntry x t k) (v b)) := by
    funext c
    rcases eq_or_ne c b with rfl | hc
    · rw [Function.update_self, Function.update_self]
    · rw [Function.update_of_ne hc, Function.update_of_ne hc, h.other c hc]
  rw [hent, h.ents, hlists] at hfill
  have hclock : (dirFillNew e x t s').clock = k + 1 := by
    show s'.clock + 1 = k + 1
    rw [h.rep.clock]
  rwa [hclock] at hfill

/-- a new entry in one bucket, its stamp the clock -/
theorem Inv.of_insert (h : Inv g s k ch v) {x : Dir} {t : ℕ} (hx : x.offset ≠ 0) {ch' : ℕ → List ℕ}
    (hr : Rep g s' (k + 1) ch' (Function.update v b (insertSecond (newEntry x t k) (v b)))) (hb : b < g.buckets) :
    Kept g k v s' := by
  refine ⟨k + 1, ch', _, ⟨hr, fun c hc => ?_⟩, Nat.le_succ k, fun c hc => ?_⟩
  · rcases eq_or_ne c b with rfl | hcb
    · rw [Function.update_self]
      exact (h.good c hc).insertSecond t hx
    · rw [Function.update_of_ne hcb]
      have := h.good c hc
      exact ⟨this.offset, fun y hy => Nat.lt_succ_of_lt (this.older y hy), this.nodup⟩
  · rcases eq_or_ne c b with rfl | hcb
    · rw [Function.update_self]
      exact evolves_insertSecond _ _ _ _
    · rw [Function.update_of_ne hcb]
      exact Evolves.of_sublist (List.Sublist.refl _)

theorem bucketOf_lt (g : SegGeom) (n : ℕ) : n % g.buckets < g.buckets := Nat.mod_lt _ g.pos

theorem Inv.insert (d : VolPos) (key : CacheKey) {x : Dir} (hx : x.offset ≠ 0) (fuel : ℕ) (h : Inv g s k ch v) :
    Kept g k v (dirInsert g d key x fuel s).1 := by
  induction fuel generalizing s ch v with
  | zero => exact h.kept
  | succ fuel ih =>
    have hb := bucketOf_lt g (key.slice32 1)
    unfold dirInsert
    rcases h.takeSlot d hb with ⟨s', e, ch', v', pre, post, heq, ht⟩ | ⟨s', ch', v', heq, h', hs⟩
    · rw [heq]
      exact h.of_insert hx (ht.fillNew hb x (key.slice32 2)) hb
    · rw [heq]
      exact (ih h').trans le_rfl fun c hc => Evolves.of_sublist (hs c hc)

/-! ## Overwriting -/

/-- the entry to overwrite is found in the bucket -/
theorem Cursor.overwriteFind {pre post : List ℕ} {t o fuel x : ℕ} (h : Cursor g s k ch v b pre e post)
    (hf : dirOverwriteFind t o fuel e s = some x) :
    ∃ pre' post', Cursor g s k ch v b pre' x post' := by
  induction fuel generalizing pre e post with
  | zero => cases hf
  | succ fuel ih =>
    unfold dirOverwriteFind at hf
    split_ifs at hf with hhit
    · obtain rfl := Option.some.inj hf
      exact ⟨pre, post, h⟩
    · rw [h.next] at hf
      cases post with
      | nil => cases hf
      | cons n post => exact ih h.advance hf

/-- `Lfill` over an existing entry: the stamps do not change -/
theorem Cursor.overwrite {pre post : List ℕ} (hi : Inv g s k ch v) (h : Cursor g s k ch v b pre e post) {x : Dir} (t : ℕ)
    (hx : x.offset ≠ 0) : Kept g k v (dirFill e x t s) := by
  have hfill := h.rep.fill h.lt h.pos (dirFill e x t s) rfl (fun i => dirFill_next x t i)
    (fun i hi => (dirFill_dir x t i).trans (if_neg hi)) (fun _ _ => rfl)
  have hclock : (dirFill e x t s).clock = k := h.rep.clock
  rw [hclock] at hfill
  generalize hL : pre.map s.ent ++ (dirFill e x t s).ent e :: post.map s.ent = L at hfill
  have hsnd : L.map Prod.snd = (v b).map Prod.snd := by
    rw [← hL, h.ents]
    simp only [List.map_append, List.map_cons]
    rfl
  have hoff : ∀ y ∈ L, y.1.offset ≠ 0 := by
    intro y hy
    rw [← hL] at hy
    have hold : ∀ z ∈ v b, z.1.offset ≠ 0 := (hi.good b h.lt).offset
    rcases List.mem_append.1 hy with hy | hy
    · exact hold y (by rw [h.ents]; exact List.mem_append_left _ hy)
    · rcases List.mem_cons.1 hy with rfl | hy
      · rw [Seg.ent_offset, dirFill_dir, if_pos rfl]
        exact hx
      · exact hold y (by rw [h.ents]; exact List.mem_append_right _ (List.mem_cons_of_mem _ hy))
  have holder : ∀ y ∈ L, y.2 < k := by
    intro y hy
    have hy' : y.2 ∈ (v b).map Prod.snd := by rw [← hsnd]; exact List.mem_map_of_mem hy
    obtain ⟨z, hz, hzy⟩ := List.mem_map.1 hy'
    rw [← hzy]
    exact (hi.good b h.lt).older z hz
  refine ⟨k, ch, _, ⟨hfill, fun c hc => ?_⟩, le_rfl, fun c hc => ?_⟩
  · rcases eq_or_ne c b with rfl | hcb
    · rw [Function.update_self]
      exact ⟨hoff, holder, by rw [hsnd]; exact (hi.good c hc).nodup⟩
    · rw [Function.update_of_ne hcb]
      exact hi.good c hc
  · rcases eq_or_ne c b with rfl | hcb
    · rw [Function.update_self]
      unfold Evolves
      rw [hsnd]
      exact List.filter_sublist
    · rw [Function.update_of_ne hcb]
      exact Evolves.of_sublist (List.Sublist.refl _)

theorem Inv.overwrite (d : VolPos) (key : CacheKey) {x : Dir} (old : Dir) (must : Bool) (hx : x.offset ≠ 0) (fuel : ℕ)
    (h : Inv g s k ch v) : Kept g k v (dirOverwrite g d key x old must fuel s).1 := by
  induction fuel generalizing s ch v with
  | zero => exact h.kept
  | succ fuel ih =>
    have hb := bucketOf_lt g (key.slice32 1)
    unfold dirOverwrite
    dsimp only
    generalize hfound : (if (s.dir (dirBucket (key.slice32 1 % g.buckets))).isEmpty = true then none
      else dirOverwriteFind (DIR_MASK_TAG (key.slice32 2)) old.offset (g.slots + 1) (dirBucket (key.slice32 1 % g.buckets)) s)
        = found
    cases found with
    | some e =>
      -- an entry with this tag and offset is overwritten in place
      split_ifs at hfound with hroot
      have hv : v (key.slice32 1 % g.buckets) ≠ [] := fun hv => hroot ((h.root_empty hb).2 hv)
      obtain ⟨pre, post, hcur⟩ := (h.toRep.cursor hb hv).overwriteFind hfound
      exact hcur.overwrite h _ hx
    | none =>
      dsimp only
      split_ifs with hmust
      · exact h.kept
      · rcases h.takeSlot d hb with ⟨s', e, ch', v', pre, post, heq, ht⟩ | ⟨s', ch', v', heq, h', hs⟩
        · rw [heq]
          exact h.of_insert hx (ht.fillNew hb x _) hb
        · rw [heq]
          exact (ih h').trans le_rfl fun c hc => Evolves.of_sublist (hs c hc)

/-! ## Deletion -/

theorem sublist_update {L : List Entry} (hs : L.Sublist (v b)) (c : ℕ) : (Function.update v b L c).Sublist (v c) := by
  rcases eq_or_ne c b with rfl | hcb
  · rw [Function.update_self]; exact hs
  · rw [Function.update_of_ne hcb]

/-- `dir_delete` deletes an entry with this offset and the key's tag -/
def deletes (key : CacheKey) (o : ℕ) (y : Entry) : Bool := y.1.compareTag key && y.1.offset == o

/-- the loop deletes the first such entry -/
theorem Cursor.deleteLoop {pre post : List ℕ} (key : CacheKey) (o fuel : ℕ) (h : Cursor g s k ch v b pre e post)
    (hfuel : post.length < fuel) : ∃ ch', Rep g (dirDeleteLoop key o fuel pre.getLast? e s).1 k ch'
      (Function.update v b (pre.map s.ent ++ ((e :: post).map s.ent).eraseP (deletes key o))) := by
  induction fuel generalizing pre e post with
  | zero => omega
  | succ fuel ih =>
    unfold dirDeleteLoop
    split_ifs with hhit
    · have h₁ : Cursor g { s with used := s.used - 1 } k ch v b pre e post := h.of_dir_eq rfl rfl rfl rfl
      obtain ⟨ch', post', hrep, -⟩ := h₁.delete
      refine ⟨ch', ?_⟩
      rw [List.map_cons, List.eraseP_cons_of_pos (show deletes key o (s.ent e) = true from hhit)]
      exact hrep
    · have hno : ¬ deletes key o (s.ent e) = true := hhit
      rw [List.map_cons, List.eraseP_cons_of_neg hno, h.next]
      cases post with
      | nil =>
        have hv : pre.map s.ent ++ [s.ent e] = v b := h.ents.symm
        rw [List.map_nil, List.eraseP_nil, hv, Function.update_eq_self]
        exact ⟨ch, h.rep⟩
      | cons n post =>
        obtain ⟨ch', hrep⟩ := ih h.advance (by simp only [List.length_cons] at hfuel; omega)
        refine ⟨ch', ?_⟩
        rw [List.getLast?_concat] at hrep
        simpa using hrep

/-- `dir_delete` on the lists -/
theorem Inv.delete_spec (key : CacheKey) (del : Dir) (h : Inv g s k ch v) (hb : b = key.slice32 1 % g.buckets) :
    ∃ ch', Inv g (dirDelete g key del s).1 k ch' (Function.update v b ((v b).eraseP (deletes key del.offset))) := by
  have hlt : b < g.buckets := hb ▸ bucketOf_lt g _
  have hsub : ∀ c < g.buckets, (Function.update v b ((v b).eraseP (deletes key del.offset)) c).Sublist (v c) :=
    fun c _ => sublist_update List.eraseP_sublist c
  unfold dirDelete
  dsimp only
  rw [← hb]
  split_ifs with hroot
  · have hv := (h.root_empty hlt).1 hroot
    refine ⟨ch, ?_⟩
    have hsame : (v b).eraseP (deletes key del.offset) = v b := by rw [hv]; rfl
    rw [hsame, Function.update_eq_self]
    exact h
  · have hv : v b ≠ [] := fun hv => hroot ((h.root_empty hlt).2 hv)
    have hcur := h.toRep.cursor hlt hv
    have hlen := h.toRep.length_le hlt
    obtain ⟨ch', hrep⟩ := hcur.deleteLoop key del.offset (g.slots + 1) (by omega)
    have hents : v b = (dirBucket b :: ch b).map s.ent := hcur.ents
    rw [List.map_nil, List.nil_append, ← hents] at hrep
    exact ⟨ch', h.of_sublist hrep hsub⟩

theorem Inv.delete (key : CacheKey) (del : Dir) (h : Inv g s k ch v) : Kept g k v (dirDelete g key del s).1 := by
  obtain ⟨ch', hinv⟩ := h.delete_spec key del rfl
  exact Kept.of_sublist h hinv.toRep fun c _ => sublist_update List.eraseP_sublist c

/-! ## Lookup -/

/-- the entries that `dir_probe` returns: the tag is the key's and the entry is valid -/
def hits (d : VolPos) (key : CacheKey) (y : Entry) : Bool := y.1.compareTag key && dirValid d y.1

/-- the entries that `dir_probe` does not delete: the tag is another one or the entry is valid -/
def stays (d : VolPos) (key : CacheKey) (y : Entry) : Bool := !y.1.compareTag key || dirValid d y.1

/-- What a scan of the entries `T` of bucket `b` found: the slot of the first hit, with the entries after it still in
place, or nothing because there is no hit. -/
def Found (d : VolPos) (key : CacheKey) (T : List Entry) (g : SegGeom) (s' : Seg) (k : ℕ) (ch' : ℕ → List ℕ)
    (v' : ℕ → List Entry) (b : ℕ) : Option ℕ → Prop
  | none => ∀ y ∈ T, hits d key y = false
  | some x => ∃ U pre post, T = U ++ s'.ent x :: post.map s'.ent ∧ (∀ y ∈ U, hits d key y = false) ∧
      hits d key (s'.ent x) = true ∧ Cursor g s' k ch' v' b pre x post

theorem Found.cons {d : VolPos} {key : CacheKey} {T : List Entry} {ch' : ℕ → List ℕ} {r : Option ℕ} {y : Entry}
    (hy : hits d key y = false) (h : Found d key T g s' k ch' v' b r) : Found d key (y :: T) g s' k ch' v' b r := by
  cases r with
  | none =>
    intro z hz
    rcases List.mem_cons.1 hz with rfl | hz
    · exact hy
    · exact h z hz
  | some x =>
    obtain ⟨U, pre, post, hT, hU, hx, hcur⟩ := h
    refine ⟨y :: U, pre, post, by rw [hT]; rfl, fun z hz => ?_, hx, hcur⟩
    rcases List.mem_cons.1 hz with rfl | hz
    · exact hy
    · exact hU z hz

/-- The loop of `dir_probe` with no collision to wait for. It returns the first hit and deletes the invalid entries with
the key's tag before it. -/
theorem Cursor.probeLoop (d : VolPos) (key : CacheKey) (fuel : ℕ) {pre post : List ℕ}
    (h : Cursor g s k ch v b pre e post) (hfuel : post.length < fuel) : ∃ s' r ch' T',
    dirProbeLoop d key fuel none pre.getLast? e s = (s', r, none) ∧
    Rep g s' k ch' (Function.update v b (pre.map s.ent ++ T')) ∧ T'.Sublist ((e :: post).map s.ent) ∧
    Found d key ((e :: post).map s.ent) g s' k ch' (Function.update v b (pre.map s.ent ++ T')) b r ∧
    T'.filter (stays d key) = ((e :: post).map s.ent).filter (stays d key) := by
  induction fuel generalizing s ch v pre e post with
  | zero => omega
  | succ fuel ih =>
    have hsame : Function.update v b (pre.map s.ent ++ (e :: post).map s.ent) = v := by
      rw [List.map_cons, ← h.ents, Function.update_eq_self]
    unfold dirProbeLoop
    dsimp only
    rcases htag : (s.dir e).compareTag key with _ | _
    · -- another tag: go on
      have hno : hits d key (s.ent e) = false := by
        show ((s.dir e).compareTag key && dirValid d (s.dir e)) = false
        rw [htag, Bool.false_and]
      rw [if_neg (by decide), h.next]
      cases post with
      | nil =>
        refine ⟨s, none, ch, (e :: []).map s.ent, rfl, by rw [hsame]; exact h.rep, List.Sublist.refl _, ?_, rfl⟩
        intro y hy
        rw [List.map_singleton, List.mem_singleton] at hy
        rw [hy]; exact hno
      | cons n post =>
        obtain ⟨s', r, ch', T', heq, hrep, hsub, hfound, hstay⟩ := ih h.advance (by simp only [List.length_cons] at hfuel; omega)
        rw [List.getLast?_concat] at heq
        rw [List.map_append, List.map_singleton, List.append_assoc, List.singleton_append] at hrep hfound
        refine ⟨s', r, ch', s.ent e :: T', heq, hrep, hsub.cons_cons _, Found.cons hno hfound, ?_⟩
        rw [List.map_cons, List.filter_cons, List.filter_cons, hstay]
    · rw [if_pos rfl]
      simp only [Option.isSome_none, Bool.false_eq_true, if_false]
      rcases hval : dirValid d (s.dir e) with _ | _
      · -- the invalid entry is deleted
        have hno : hits d key (s.ent e) = false := by
          show ((s.dir e).compareTag key && dirValid d (s.dir e)) = false
          rw [hval, Bool.and_false]
        have hgone : stays d key (s.ent e) = false := by
          show (!(s.dir e).compareTag key || dirValid d (s.dir e)) = false
          rw [htag, hval]
          rfl
        simp only [Bool.false_eq_true, if_false]
        have h₁ : Cursor g { s with used := s.used - 1 } k ch v b pre e post := h.of_dir_eq rfl rfl rfl rfl
        rcases hdel : dirDeleteEntry e pre.getLast? { s with used := s.used - 1 } with ⟨s₂, _ | e'⟩
        · obtain ⟨rfl, ch', hrep⟩ := h₁.delete_none hdel
          refine ⟨s₂, none, ch', [], rfl, ?_, List.nil_sublist _, fun y hy => ?_, ?_⟩
          · rw [List.append_nil]; exact hrep
          · rw [List.map_singleton, List.mem_singleton] at hy
            rw [hy]; exact hno
          · rw [List.map_singleton, List.filter_cons_of_neg (by rw [hgone]; decide), List.filter_nil]
        · obtain ⟨ch₂, post', hcur, hpre, hpost⟩ := h₁.delete_some hdel
          have hlen := congrArg List.length hpost
          simp only [List.map_cons, List.length_cons, List.length_map] at hlen
          obtain ⟨s', r, ch', T', heq, hrep, hsub, hfound, hstay⟩ := ih hcur (by omega)
          rw [hpost] at hsub hfound hstay
          rw [hpre, Function.update_idem] at hrep hfound
          refine ⟨s', r, ch', T', heq, hrep, hsub.trans (List.sublist_cons_self _ _), Found.cons hno hfound, ?_⟩
          rw [hstay, List.map_cons, List.filter_cons_of_neg (by rw [hgone]; decide)]
          rfl
      · simp only [if_true]
        have hyes : hits d key (s.ent e) = true := by
          show ((s.dir e).compareTag key && dirValid d (s.dir e)) = true
          rw [htag, hval]; rfl
        refine ⟨s, some e, ch, (e :: post).map s.ent, rfl, by rw [hsame]; exact h.rep, List.Sublist.refl _, ?_, rfl⟩
        rw [hsame]
        exact ⟨[], pre, post, rfl, fun y hy => absurd hy List.not_mem_nil, hyes, h⟩

/-- one step of the loop while it waits for a collision that is not at `e` -/
theorem dirProbeLoop_wait (d : VolPos) {key : CacheKey} (fuel : ℕ) {c : ℕ} (p : Option ℕ)
    (hne : (s.dir e).compareTag key = true → c ≠ e) :
    dirProbeLoop d key (fuel + 1) (some c) p e s = match s.nextDir e with
      | none => (s, none, some c)
      | some n => dirProbeLoop d key fuel (some c) (some e) n s := by
  rw [dirProbeLoop]
  rcases htag : (s.dir e).compareTag key with _ | _
  · rewrite [if_neg (by decide)]
    cases s.nextDir e <;> rfl
  · have hce : ¬ some c = some e := fun h => hne htag (Option.some.inj h)
    rewrite [if_pos rfl, Option.isSome_some, if_pos rfl, if_neg hce]
    cases s.nextDir e <;> rfl

/-- one step of the loop at the collision it waits for -/
theorem dirProbeLoop_reached (d : VolPos) {key : CacheKey} (fuel : ℕ) (p : Option ℕ)
    (htag : (s.dir e).compareTag key = true) :
    dirProbeLoop d key (fuel + 1) (some e) p e s = match s.nextDir e with
      | none => (s, none, none)
      | some n => dirProbeLoop d key fuel none (some e) n s := by
  rewrite [dirProbeLoop, if_pos htag, Option.isSome_some, if_pos rfl, if_pos rfl]
  cases s.nextDir e <;> rfl

/-- with a collision that no entry ahead is at, the loop goes to the end and changes nothing -/
theorem Cursor.probeLoop_stuck (d : VolPos) (key : CacheKey) (fuel : ℕ) {pre post : List ℕ} {c : ℕ} (p : Option ℕ)
    (h : Cursor g s k ch v b pre e post) (hno : c ∈ e :: post → (s.dir c).compareTag key = false) :
    dirProbeLoop d key fuel (some c) p e s = (s, none, some c) := by
  induction fuel generalizing pre e post p with
  | zero => rfl
  | succ fuel ih =>
    have hne : (s.dir e).compareTag key = true → c ≠ e := by
      intro htag hce
      subst hce
      rw [hno List.mem_cons_self] at htag
      cases htag
    rw [dirProbeLoop_wait d fuel p hne, h.next]
    cases post with
    | nil => rfl
    | cons n post => exact ih (some e) h.advance fun hc => hno (List.mem_cons_of_mem _ hc)

/-- with a collision at `c`, the loop passes `c`, changing nothing, and goes on without one -/
theorem Cursor.probeLoop_at (d : VolPos) (key : CacheKey) (fuel : ℕ) {pre post U W : List ℕ} {c : ℕ}
    (h : Cursor g s k ch v b pre e post) (hfuel : post.length < fuel) (hc : e :: post = U ++ c :: W)
    (htag : (s.dir c).compareTag key = true) :
    (W = [] ∧ dirProbeLoop d key fuel (some c) pre.getLast? e s = (s, none, none)) ∨
    ∃ n W' fuel', W = n :: W' ∧ W'.length < fuel' ∧ Cursor g s k ch v b (pre ++ U ++ [c]) n W' ∧
      dirProbeLoop d key fuel (some c) pre.getLast? e s =
        dirProbeLoop d key fuel' none (pre ++ U ++ [c]).getLast? n s := by
  induction fuel generalizing pre e post U with
  | zero => omega
  | succ fuel ih =>
    cases U with
    | nil =>
      -- the collision itself
      simp only [List.nil_append, List.cons.injEq] at hc
      obtain ⟨rfl, rfl⟩ := hc
      rw [dirProbeLoop_reached d fuel _ htag, h.next, List.append_nil, List.getLast?_concat]
      cases post with
      | nil => exact Or.inl ⟨rfl, rfl⟩
      | cons n W' =>
        simp only [List.length_cons] at hfuel
        exact Or.inr ⟨n, W', fuel, rfl, by omega, h.advance, rfl⟩
    | cons x U =>
      simp only [List.cons_append, List.cons.injEq] at hc
      obtain ⟨rfl, rfl⟩ := hc
      -- `e` is not the collision, the bucket having no slot twice
      have hne : (s.dir e).compareTag key = true → c ≠ e := by
        rintro - rfl
        obtain ⟨free, loc, hl, -⟩ := h.rep.links
        have hnd := hl.nodup_bucket h.lt
        rw [h.pos] at hnd
        have := (List.nodup_cons.1 (List.nodup_append.1 hnd).2.1).1
        exact this (by simp)
      rw [dirProbeLoop_wait d fuel _ hne, h.next]
      generalize hp : U ++ c :: W = post at h hfuel
      cases post with
      | nil => simp at hp
      | cons n post =>
        simp only [List.length_cons] at hfuel
        have hnext := ih h.advance (by omega) hp.symm
        rw [List.getLast?_concat] at hnext
        simpa using hnext

/-- `*last_collision` holds up a pass: its slot is in the bucket and carries the key's tag -/
def Waits (s : Seg) (key : CacheKey) (bucket : List ℕ) (c : ℕ) : Prop := c ∈ bucket ∧ (s.dir c).compareTag key = true

/-- One call of `dir_probe`. The entries it looks at, `T`, are all those of the bucket, or those after the entry at
`*last_collision` if that slot is in the bucket with the key's tag; it returns the first hit among them. -/
theorem Inv.probe_spec (d : VolPos) (key : CacheKey) (last : Option ℕ) (h : Inv g s k ch v)
    (hb : b = key.slice32 1 % g.buckets) : ∃ s' r ch' L' T,
    dirProbe g d key last s = (s', r.map fun x => (s'.dir x, x)) ∧
    Rep g s' k ch' (Function.update v b L') ∧ L'.Sublist (v b) ∧
    Found d key T g s' k ch' (Function.update v b L') b r ∧
    ((T = v b ∧ ∀ c, last = some c → v b ≠ [] → ¬ Waits s key (dirBucket b :: ch b) c) ∨
      ∃ c U, last = some c ∧ Waits s key (dirBucket b :: ch b) c ∧ v b = U ++ s.ent c :: T) ∧
    L'.filter (stays d key) = (v b).filter (stays d key) := by
  have hlt : b < g.buckets := by rw [hb]; exact bucketOf_lt g _
  have hself : Function.update v b (v b) = v := Function.update_eq_self b v
  -- a pass over the whole bucket
  have hpass : ∃ s' r ch' L', dirProbePass g d key none s = (s', r, none) ∧ Rep g s' k ch' (Function.update v b L') ∧
      L'.Sublist (v b) ∧ Found d key (v b) g s' k ch' (Function.update v b L') b r ∧
      L'.filter (stays d key) = (v b).filter (stays d key) := by
    unfold dirProbePass
    dsimp only
    rw [← hb]
    split_ifs with hroot
    · have hv := (h.root_empty hlt).1 hroot
      refine ⟨s, none, ch, v b, rfl, by rw [hself]; exact h.toRep, List.Sublist.refl _, ?_, rfl⟩
      rw [hv]
      exact fun y hy => absurd hy List.not_mem_nil
    · have hv : v b ≠ [] := fun hv => hroot ((h.root_empty hlt).2 hv)
      have hcur := h.toRep.cursor hlt hv
      have hlen := h.toRep.length_le hlt
      obtain ⟨s', r, ch', T', heq, hrep, hsub, hfound, hstay⟩ := hcur.probeLoop d key (g.slots + 1) (by omega)
      have hents : v b = (dirBucket b :: ch b).map s.ent := hcur.ents
      rw [← hents] at hsub hfound hstay
      exact ⟨s', r, ch', T', heq, hrep, hsub, hfound, hstay⟩
  obtain ⟨s', r, ch', L', heq, hrep, hsub, hfound, hstay⟩ := hpass
  have hnone : ∀ s₀, dirProbePass g d key last s₀ = dirProbePass g d key none s₀ → s₀ = s →
      dirProbe g d key last s = (s', r.map fun x => (s'.dir x, x)) := by
    rintro s₀ hp rfl
    unfold dirProbe
    rw [hp, heq]
    cases r <;> rfl
  rcases last with _ | c
  · exact ⟨s', r, ch', L', v b, hnone s rfl rfl, hrep, hsub, hfound, Or.inl ⟨rfl, fun c hc => by cases hc⟩, hstay⟩
  · by_cases hv : v b = []
    · -- an empty bucket: neither pass looks at anything
      have hroot := (h.root_empty hlt).2 hv
      rw [hb] at hroot
      have hstuck : dirProbePass g d key (some c) s = (s, none, some c) := by
        unfold dirProbePass; simp only [hroot, if_true]
      have hretry : dirProbe g d key (some c) s = (s', r.map fun x => (s'.dir x, x)) := by
        unfold dirProbe
        rw [hstuck]
        simp only [heq]
        cases r <;> rfl
      exact ⟨s', r, ch', L', v b, hretry, hrep, hsub, hfound, Or.inl ⟨rfl, fun _ _ hne => absurd hv hne⟩, hstay⟩
    · have hroot : ¬ (s.dir (dirBucket b)).isEmpty = true := fun hr => hv ((h.root_empty hlt).1 hr)
      have hcur := h.toRep.cursor hlt hv
      have hlen := h.toRep.length_le hlt
      have hents : v b = (dirBucket b :: ch b).map s.ent := hcur.ents
      have hpass : dirProbePass g d key (some c) s = dirProbeLoop d key (g.slots + 1) (some c) none (dirBucket b) s := by
        unfold dirProbePass
        dsimp only
        rw [← hb, if_neg hroot]
      by_cases hw : Waits s key (dirBucket b :: ch b) c
      · -- the pass goes on after the collision
        obtain ⟨U, W, hUW⟩ := List.append_of_mem hw.1
        have hT : v b = U.map s.ent ++ s.ent c :: W.map s.ent := by rw [hents, hUW]; simp
        rcases hcur.probeLoop_at d key (g.slots + 1) (by omega) hUW hw.2 with
          ⟨rfl, hloop⟩ | ⟨n, W', fuel', rfl, hfuel, hcur', hloop⟩
        · refine ⟨s, none, ch, v b, [], ?_, by rw [hself]; exact h.toRep, List.Sublist.refl _, ?_,
            Or.inr ⟨c, U.map s.ent, rfl, hw, hT⟩, rfl⟩
          · unfold dirProbe
            rw [hpass]
            simp only [List.getLast?_nil] at hloop
            rw [hloop]
            rfl
          · exact fun y hy => absurd hy List.not_mem_nil
        · obtain ⟨s₂, r₂, ch₂, T₂, heq₂, hrep₂, hsub₂, hfound₂, hstay₂⟩ := hcur'.probeLoop d key fuel' hfuel
          refine ⟨s₂, r₂, ch₂, _, (n :: W').map s.ent, ?_, hrep₂, ?_, hfound₂, Or.inr ⟨c, U.map s.ent, rfl, hw, hT⟩, ?_⟩
          · unfold dirProbe
            rw [hpass]
            simp only [List.getLast?_nil] at hloop
            rw [hloop, heq₂]
            cases r₂ <;> rfl
          · rw [hcur'.ents, ← List.map_cons]
            exact (List.Sublist.refl _).append hsub₂
          · rw [hcur'.ents, ← List.map_cons, List.filter_append, List.filter_append, hstay₂]
      · -- the collision is not there: retry without it
        have hstuck : dirProbePass g d key (some c) s = (s, none, some c) := by
          rw [hpass]
          refine hcur.probeLoop_stuck d key (g.slots + 1) none fun hc => ?_
          rcases htag : (s.dir c).compareTag key with _ | _
          · rfl
          · exact absurd ⟨hc, htag⟩ hw
        have hretry : dirProbe g d key (some c) s = (s', r.map fun x => (s'.dir x, x)) := by
          unfold dirProbe
          rw [hstuck]
          simp only [heq]
          cases r <;> rfl
        refine ⟨s', r, ch', L', v b, hretry, hrep, hsub, hfound, Or.inl ⟨rfl, fun c' hc' _ => ?_⟩, hstay⟩
        obtain rfl := Option.some.inj hc'
        exact hw

theorem Inv.probe (d : VolPos) (key : CacheKey) (last : Option ℕ) (h : Inv g s k ch v) :
    Kept g k v (dirProbe g d key last s).1 := by
  obtain ⟨s', r, ch', L', T, heq, hrep, hsub, -⟩ := h.probe_spec d key last rfl
  rw [heq]
  exact Kept.of_sublist h hrep fun c _ => sublist_update hsub c

/-! ## Initialisation -/

/-- the slots that `dir_init_segment` pushes, in its order -/
def SegGeom.rows (g : SegGeom) : List ℕ :=
  [1, 2, 3].flatMap fun l => (List.range g.buckets).map fun b => dirBucketRow (dirBucket b) l

theorem SegGeom.mem_rows (g : SegGeom) (e : ℕ) : e ∈ g.rows ↔ g.IsRow e := by
  simp only [SegGeom.rows, List.flatMap_cons, List.flatMap_nil, List.append_nil, List.mem_append, List.mem_map,
    List.mem_range, SegGeom.IsRow, SegGeom.slots, dirBucketRow, dirBucket, DIR_DEPTH]
  constructor
  · rintro (⟨b, hb, rfl⟩ | ⟨b, hb, rfl⟩ | ⟨b, hb, rfl⟩) <;> omega
  · rintro ⟨hlt, hmod⟩
    have hcases : e % 4 = 1 ∨ e % 4 = 2 ∨ e % 4 = 3 := by omega
    rcases hcases with h | h | h
    · exact Or.inl ⟨e / 4, by omega, by omega⟩
    · exact Or.inr (Or.inl ⟨e / 4, by omega, by omega⟩)
    · exact Or.inr (Or.inr ⟨e / 4, by omega, by omega⟩)

theorem SegGeom.nodup_rows (g : SegGeom) : g.rows.Nodup := by
  have hinj : ∀ l, Function.Injective fun b => dirBucketRow (dirBucket b) l := by
    intro l b c h
    simp only [dirBucketRow, dirBucket, DIR_DEPTH] at h
    omega
  refine List.nodup_flatMap.2 ⟨fun l _ => List.nodup_range.map (hinj l), ?_⟩
  have hdis : ∀ l m, l % 4 ≠ m % 4 → List.Disjoint ((List.range g.buckets).map fun b => dirBucketRow (dirBucket b) l)
      ((List.range g.buckets).map fun b => dirBucketRow (dirBucket b) m) := by
    intro l m hlm x hx hy
    obtain ⟨b, -, rfl⟩ := List.mem_map.1 hx
    obtain ⟨c, -, hc⟩ := List.mem_map.1 hy
    simp only [dirBucketRow, dirBucket, DIR_DEPTH] at hc
    omega
  simp only [List.pairwise_cons, List.mem_cons, List.not_mem_nil, or_false, false_implies, implies_true, List.Pairwise.nil,
    and_true, forall_eq_or_imp, forall_eq]
  exact ⟨⟨hdis 1 2 (by decide), hdis 1 3 (by decide)⟩, hdis 2 3 (by decide)⟩

/-- pushing slots that are in hand, one after another -/
theorem Links.pushAll {free : List ℕ} {loc : ℕ → Place} (l : List ℕ) (h : Links g s free ch loc) (hnd : l.Nodup)
    (hl : ∀ e ∈ l, g.IsRow e ∧ loc e = .held ∧ s.dir e = Dir.zero) :
    ∃ free' loc', Links g (l.foldl (fun s e => dirFreeEntry e s) s) free' ch loc' ∧
      (∀ e, e ∈ l ∨ loc e ≠ .held → loc' e ≠ .held) ∧ (∀ e, e ∉ l → e ∉ free →
        (l.foldl (fun s e => dirFreeEntry e s) s).dir e = s.dir e) ∧
      (l.foldl (fun s e => dirFreeEntry e s) s).clock = s.clock := by
  induction l generalizing s free loc with
  | nil => exact ⟨free, loc, h, fun e he => by simpa using he, fun e _ _ => rfl, rfl⟩
  | cons x l ih =>
    obtain ⟨hx, hnd⟩ := List.nodup_cons.1 hnd
    obtain ⟨hrow, hheld, hz⟩ := hl x List.mem_cons_self
    obtain ⟨hp, hsame⟩ := h.push hrow hheld hz
    have hl' : ∀ e ∈ l, g.IsRow e ∧ Function.update loc x .free e = .held ∧ (dirFreeEntry x s).dir e = Dir.zero := by
      intro e he
      have hex : e ≠ x := fun hh => hx (hh ▸ he)
      obtain ⟨hr, hh, hz⟩ := hl e (List.mem_cons_of_mem _ he)
      refine ⟨hr, by rw [Function.update_of_ne hex]; exact hh, ?_⟩
      rw [hsame e hex fun hf => ?_]
      · exact hz
      · rw [((h.memFree e).1 hf).2] at hh; cases hh
    obtain ⟨free', loc', h', hloc, hdir, hclock⟩ := ih hp hnd hl'
    refine ⟨free', loc', h', fun e he => hloc e ?_, fun e he hef => ?_, by rw [List.foldl_cons, hclock, dirFreeEntry_clock]⟩
    · rcases eq_or_ne e x with rfl | hex
      · right; simp
      · rw [Function.update_of_ne hex]
        rcases he with he | he
        · rcases List.mem_cons.1 he with rfl | he
          · exact absurd rfl hex
          · exact Or.inl he
        · exact Or.inr he
    · rw [List.mem_cons, not_or] at he
      rw [List.foldl_cons, hdir e he.2 (by simp [he.1, hef]), hsame e he.1 hef]

theorem dirInitSegment_eq (g : SegGeom) (s : Seg) : dirInitSegment g s = g.rows.foldl (fun s e => dirFreeEntry e s)
    { s with freelist := 0, dir := fun i => if i < g.slots then Dir.zero else s.dir i } := by
  unfold dirInitSegment SegGeom.rows
  simp only [List.foldl_flatMap, List.foldl_map]

/-- `dir_init_segment` makes every bucket empty, whatever the memory held -/
theorem Inv.init (g : SegGeom) (s : Seg) : Inv g (dirInitSegment g s) s.clock (fun _ => []) fun _ => [] := by
  have hfold := dirInitSegment_eq g s
  generalize hs₀ : ({ s with freelist := 0, dir := fun i => if i < g.slots then Dir.zero else s.dir i } : Seg) = s₀ at hfold
  have hdir : ∀ i < g.slots, s₀.dir i = Dir.zero := by
    intro i hi
    rw [← hs₀]
    exact if_pos hi
  have hroot : ∀ b < g.buckets, dirBucket b < g.slots := by
    intro b hb
    simp only [dirBucket, SegGeom.slots, DIR_DEPTH]
    omega
  have hstart : Links g s₀ [] (fun _ => []) fun _ => .held := by
    refine ⟨⟨fun e => ?_, fun b _ e => ?_, fun e b _ h => ?_⟩, ⟨none, ?_, rfl⟩, fun b hb => ?_, fun e he => ?_, ?_⟩
    · simp
    · simp
    · cases h
    · rw [← hs₀]; rfl
    · show dirFromOffset (s₀.dir (dirBucket b)).next = none
      rw [hdir _ (hroot b hb)]; rfl
    · cases he
    · rw [← hs₀]; exact Nat.two_pow_pos 16
  obtain ⟨free, loc, hl, hheld, hkeep, hclock⟩ := hstart.pushAll g.rows g.nodup_rows fun e he =>
    ⟨(g.mem_rows e).1 he, rfl, hdir e ((g.mem_rows e).1 he).1⟩
  rw [hfold]
  refine ⟨⟨by rw [hclock, ← hs₀], ⟨free, loc, hl, fun e he => hheld e (Or.inl ((g.mem_rows e).2 he))⟩, fun b hb => ?_⟩,
    fun b _ => ⟨by simp, by simp, by simp⟩⟩
  refine Or.inl ⟨rfl, rfl, ?_⟩
  have hnot : dirBucket b ∉ g.rows := fun hr => ((g.mem_rows _).1 hr).ne_root b rfl
  rw [hkeep _ hnot List.not_mem_nil, hdir _ (hroot b hb)]
  exact Dir.zero_offset

end Ops

/-! ## The directory of a volume -/

/-- the entry that an operation stores has an offset -/
def DirOp.Ok : DirOp → Prop
  | .insert _ _ x _ => x.offset ≠ 0
  | .overwrite _ _ x _ _ _ => x.offset ≠ 0
  | _ => True

instance : DecidablePred DirOp.Ok
  | .insert _ _ x _ => inferInstanceAs (Decidable (x.offset ≠ 0))
  | .overwrite _ _ x _ _ _ => inferInstanceAs (Decidable (x.offset ≠ 0))
  | .delete .. | .probe .. | .cleanSegment .. | .freelistClean .. | .clearRange .. => isTrue trivial

/-- some lists are represented, and they are good -/
def SegInv (g : SegGeom) (s : Seg) : Prop := ∃ k ch v, Inv g s k ch v

theorem Kept.segInv {g : SegGeom} {k : ℕ} {v : ℕ → List Entry} {s : Seg} (h : Kept g k v s) : SegInv g s := by
  obtain ⟨k', ch', v', hi, -⟩ := h
  exact ⟨k', ch', v', hi⟩

namespace VolDir

@[simp] theorem step_geom (vd : VolDir) (op : DirOp) : (vd.step op).geom = vd.geom := by
  cases op <;> rfl

theorem setSeg_kept {vd : VolDir} {g : SegGeom} {i j : ℕ} {s : Seg} {k : ℕ} {ch : ℕ → List ℕ} {v : ℕ → List Entry}
    (h : Inv g (vd.seg j) k ch v) (hs : i = j → Kept g k v s) : Kept g k v ((vd.setSeg i s).seg j) := by
  show Kept g k v (Function.update vd.seg i s j)
  rcases eq_or_ne j i with rfl | hj
  · rw [Function.update_self]; exact hs rfl
  · rw [Function.update_of_ne hj]; exact h.kept

/-- one operation, seen from any segment -/
theorem step_kept {vd : VolDir} (op : DirOp) (hop : op.Ok) {j k : ℕ} {ch : ℕ → List ℕ} {v : ℕ → List Entry}
    (h : Inv vd.geom (vd.seg j) k ch v) : Kept vd.geom k v ((vd.step op).seg j) := by
  cases op with
  | insert d key x n => exact setSeg_kept h fun hj => by subst hj; exact h.insert d key hop n
  | overwrite d key x o must n => exact setSeg_kept h fun hj => by subst hj; exact h.overwrite d key o must hop n
  | delete key x => exact setSeg_kept h fun hj => by subst hj; exact h.delete key x
  | probe d key c => exact setSeg_kept h fun hj => by subst hj; exact h.probe d key c
  | cleanSegment d i =>
    refine setSeg_kept h fun hj => ?_
    subst hj
    obtain ⟨ch', v', hi', hs⟩ := h.cleanSegment d
    exact Kept.of_sublist h hi'.toRep hs
  | freelistClean d i =>
    refine setSeg_kept h fun hj => ?_
    subst hj
    obtain ⟨ch', v', hi', hs⟩ := h.freelistClean d
    exact Kept.of_sublist h hi'.toRep hs
  | clearRange d start stop =>
    show Kept vd.geom k v (if j < vd.segments then dirCleanSegment vd.geom d
      (if j < vd.segments then dirClearSlots vd.geom start stop (vd.seg j) else vd.seg j)
      else if j < vd.segments then dirClearSlots vd.geom start stop (vd.seg j) else vd.seg j)
    split_ifs with hj
    · obtain ⟨v', hr, hz⟩ := h.toRep.clearSlots start stop
      obtain ⟨ch'', v'', hi', hs⟩ := h.cleanZeroed d hr hz
      exact Kept.of_sublist h hi'.toRep hs
    · exact h.kept

theorem step_inv {vd : VolDir} (op : DirOp) (hop : op.Ok) (h : ∀ j, SegInv vd.geom (vd.seg j)) (j : ℕ) :
    SegInv (vd.step op).geom ((vd.step op).seg j) := by
  obtain ⟨k, ch, v, hi⟩ := h j
  rw [step_geom]
  exact (step_kept op hop hi).segInv

theorem run_inv {vd : VolDir} (ops : List DirOp) (hops : ∀ op ∈ ops, op.Ok) (h : ∀ j, SegInv vd.geom (vd.seg j)) :
    (vd.run ops).geom = vd.geom ∧ ∀ j, SegInv vd.geom ((vd.run ops).seg j) := by
  induction ops generalizing vd with
  | nil => exact ⟨rfl, h⟩
  | cons op ops ih =>
    have hstep := step_inv op (hops op List.mem_cons_self) h
    obtain ⟨hgeom, hrun⟩ := ih (fun o ho => hops o (List.mem_cons_of_mem _ ho)) hstep
    rw [step_geom] at hgeom hrun
    exact ⟨hgeom, hrun⟩

end VolDir

/-! ## Slot by slot -/

/-- the three places of a slot -/
def SegGeom.IsRoot (g : SegGeom) (e : ℕ) : Prop := ∃ b < g.buckets, e = dirBucket b

/-- `e` is on the chain of exactly one bucket -/
def OnOneChain (g : SegGeom) (ch : ℕ → List ℕ) (e : ℕ) : Prop := ∃! b, b < g.buckets ∧ e ∈ ch b

/-- The representation invariant of a segment with freelist `free` and chains `ch`. -/
structure SegmentOk (g : SegGeom) (s : Seg) (free : List ℕ) (ch : ℕ → List ℕ) : Prop where
  /-- from `header->freelist`, `next` visits `free` and ends; every entry's `prev` is the entry before it -/
  freelist : ∃ q, DSeg s.nextDir s.prevDir none (dirFromOffset s.freelist) free q none
  /-- from the root's link, `next` visits the chain and ends -/
  chain : ∀ b < g.buckets, LSeg s.nextDir (s.nextDir (dirBucket b)) (ch b) none
  /-- no list visits a slot twice -/
  acyclic : free.Nodup ∧ ∀ b < g.buckets, (ch b).Nodup
  /-- no list leaves the segment -/
  inside : (∀ e ∈ free, e < g.slots) ∧ ∀ b < g.buckets, ∀ e ∈ ch b, e < g.slots
  /-- every slot is in exactly one place -/
  place : ∀ e < g.slots, (g.IsRoot e ∧ (∀ b < g.buckets, e ∉ ch b) ∧ e ∉ free) ∨
    (¬ g.IsRoot e ∧ OnOneChain g ch e ∧ e ∉ free) ∨ (¬ g.IsRoot e ∧ (∀ b < g.buckets, e ∉ ch b) ∧ e ∈ free)
  chainOffset : ∀ b < g.buckets, ∀ e ∈ ch b, (s.dir e).offset ≠ 0
  rootOffset : ∀ b < g.buckets, ch b ≠ [] → (s.dir (dirBucket b)).offset ≠ 0
  freeOffset : ∀ e ∈ free, (s.dir e).offset = 0

theorem Inv.segmentOk {g : SegGeom} {s : Seg} {k : ℕ} {ch : ℕ → List ℕ} {v : ℕ → List Entry} (h : Inv g s k ch v) :
    ∃ free, SegmentOk g s free ch := by
  obtain ⟨free, loc, hl, hh⟩ := h.links
  -- what a bucket with a chain holds is what its slots hold
  have hoff : ∀ b < g.buckets, ch b ≠ [] → ∀ e ∈ dirBucket b :: ch b, (s.dir e).offset ≠ 0 := by
    intro b hb hne e he
    rcases h.holds b hb with ⟨-, h2, -⟩ | h1
    · exact absurd h2 hne
    · have hmem : s.ent e ∈ v b := by rw [← h1]; exact List.mem_map_of_mem he
      exact (h.good b hb).offset _ hmem
  refine ⟨free, hl.freelist, hl.chain, ⟨hl.nodup_free, fun b hb => hl.nodup_ch hb⟩,
    ⟨fun e he => (hl.row_of_free he).1, fun b hb e he => (hl.row_of_ch hb he).1⟩, fun e he => ?_, fun b hb e he => ?_,
    fun b hb hne => hoff b hb hne _ List.mem_cons_self, hl.free0⟩
  · by_cases hroot : g.IsRoot e
    · obtain ⟨b, hb, rfl⟩ := hroot
      exact Or.inl ⟨⟨b, hb, rfl⟩, fun c hc => hl.root_not_ch hc b, hl.root_not_free b⟩
    · right
      have hrow : g.IsRow e := by
        refine ⟨he, fun hmod => hroot ⟨e / 4, ?_, ?_⟩⟩
        · simp only [SegGeom.slots, DIR_DEPTH] at he; omega
        · simp only [dirBucket, DIR_DEPTH] at hmod ⊢; omega
      rcases hloc : loc e with _ | b | _
      · have hf : e ∈ free := (hl.memFree e).2 ⟨hrow, hloc⟩
        exact Or.inr ⟨hroot, fun c hc hec => hl.not_free_of_ch hc hec hf, hf⟩
      · have hb := hl.inside e b hrow hloc
        have heb : e ∈ ch b := (hl.memCh b hb e).2 ⟨hrow, hloc⟩
        refine Or.inl ⟨hroot, ⟨b, ⟨hb, heb⟩, fun c hc => ?_⟩, hl.not_free_of_ch hb heb⟩
        by_contra hcb
        exact hl.bucket_apart hb hc.1 (Ne.symm hcb) (List.mem_cons_of_mem _ heb) (List.mem_cons_of_mem _ hc.2)
      · exact absurd hloc (hh e hrow)
  · exact hoff b hb (List.ne_nil_of_mem he) e (List.mem_cons_of_mem _ he)

/-- memory that holds only zero words -/
def Seg.blank : Seg := ⟨fun _ => Dir.zero, 0, false, 0, fun _ => 0, 0⟩

end TrafficServer.Cache
