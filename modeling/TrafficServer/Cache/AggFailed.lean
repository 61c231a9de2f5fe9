/-
A failed aggregated write (`Vol::aggWriteDone`): the directory entries of the documents in the buffer are to be deleted.

`aggWriteFailed` walks over the aggregation buffer and calls `dir_delete` for every document. An entry is found by its tag, its bucket and its
offset. Two of these are not what was inserted: the offset is `write_pos + done`, a position in bytes, where `agg_copy` had stored the position
in blocks of the data area; and the key is `doc->key`, where the entry of a document head is under `first_key`.

So an entry goes only if its offset, a number of blocks, happens to be the byte position of a document with its tag in its bucket, modulo
2 ^ 40. `failed_write_iff` says for which directories that is what should happen. Counterexample:
`failed_write_kept`.
-/
import Mathlib
import TrafficServer.Lib.EraseKeys
import TrafficServer.Cache.Vol
import TrafficServer.Cache.ProbeAll

namespace TrafficServer.Cache.AggFailed

open TrafficServer.EraseKeys

/-- what the clean-up reads of a document in the buffer -/
structure Doc where
  key : CacheKey
  len : ℕ

/-- the entry to delete -/
def delDir (writePos done : ℕ) : Dir := Dir.zero.setOffset (writePos + done)

/-- the loop over the buffer, from `done` on -/
def deleteLoop (g : VolGeom) (buffer : ℕ → Doc) (writePos aggBufPos : ℕ) : ℕ → ℕ → VolDir → VolDir
  | 0, _, v => v
  | fuel + 1, done, v =>
    if done < aggBufPos then
      let doc := buffer done
      deleteLoop g buffer writePos aggBufPos fuel (done + g.roundToApproxSize doc.len) (v.step (.delete doc.key (delDir writePos done)))
    else v

/-- `Vol::aggWriteDone` after an error; the buffer holds less documents than bytes -/
def aggWriteFailed (g : VolGeom) (buffer : ℕ → Doc) (writePos aggBufPos : ℕ) (v : VolDir) : VolDir :=
  deleteLoop g buffer writePos aggBufPos aggBufPos 0 v

/-- The documents `docs` lie in the buffer one behind the other, from `done` to `stop`. -/
def Laid (g : VolGeom) (buffer : ℕ → Doc) : ℕ → List Doc → ℕ → Prop
  | done, [], stop => done = stop
  | done, doc :: docs, stop =>
    buffer done = doc ∧ 0 < doc.len ∧ doc.len ≤ AGG_SIZE ∧ Laid g buffer (done + g.roundToApproxSize doc.len) docs stop

/-- the calls of `dir_delete` for documents that lie behind `done` -/
def deletions (g : VolGeom) (writePos : ℕ) : ℕ → List Doc → List DirOp
  | _, [] => []
  | done, doc :: docs => .delete doc.key (delDir writePos done) :: deletions g writePos (done + g.roundToApproxSize doc.len) docs

variable {g : VolGeom} {buffer : ℕ → Doc} {writePos aggBufPos done stop : ℕ} {doc : Doc} {docs : List Doc} {v : VolDir} {i b : ℕ}

theorem round_pos (h : 0 < doc.len) (hle : doc.len ≤ AGG_SIZE) : 0 < g.roundToApproxSize doc.len := by
  have hround := g.roundToApproxSize_ge (l := doc.len) (by simp only [AGG_SIZE] at hle; omega)
  omega

theorem Laid.length_le (h : Laid g buffer done docs stop) : done + docs.length ≤ stop := by
  induction docs generalizing done with
  | nil => exact Nat.le_of_eq h
  | cons doc docs ih =>
    obtain ⟨-, hpos, hle, hrest⟩ := h
    have hround := round_pos (g := g) hpos hle
    have := ih hrest
    rw [List.length_cons]
    omega

/-- the loop makes one call for each document -/
theorem deleteLoop_eq (fuel : ℕ) (h : Laid g buffer done docs aggBufPos) (hfuel : docs.length ≤ fuel) :
    deleteLoop g buffer writePos aggBufPos fuel done v = v.run (deletions g writePos done docs) := by
  induction docs generalizing done v fuel with
  | nil =>
    have hdone : done = aggBufPos := h
    cases fuel with
    | zero => rfl
    | succ fuel => rw [deleteLoop, if_neg (by omega)]; rfl
  | cons doc docs ih =>
    obtain ⟨hdoc, hpos, hle, hrest⟩ := h
    have hround := round_pos (g := g) hpos hle
    have hlen := hrest.length_le
    cases fuel with
    | zero => cases hfuel
    | succ fuel =>
      rw [deleteLoop, if_pos (by omega)]
      dsimp only
      rw [hdoc, ih fuel hrest (Nat.le_of_succ_le_succ hfuel)]
      rfl

theorem aggWriteFailed_eq (h : Laid g buffer 0 docs aggBufPos) :
    aggWriteFailed g buffer writePos aggBufPos v = v.run (deletions g writePos 0 docs) := by
  have hlen := h.length_le
  exact deleteLoop_eq aggBufPos h (by omega)

/-! ## Bucket by bucket -/

/-- what `dir_delete` compares, the bucket apart -/
def entryKey (y : Entry) : ℕ × ℕ := (y.1.tag, y.1.offset)

/-- the tags and offsets that documents behind `done` delete in bucket `b` of segment `i` -/
def targets (g : VolGeom) (v : VolDir) (writePos i b : ℕ) : ℕ → List Doc → List (ℕ × ℕ)
  | _, [] => []
  | done, doc :: docs =>
    let rest := targets g v writePos i b (done + g.roundToApproxSize doc.len) docs
    if v.dirSegment doc.key = i ∧ doc.key.slice32 1 % v.geom.buckets = b then
      (DIR_MASK_TAG (doc.key.slice32 2), (delDir writePos done).offset) :: rest
    else rest

theorem deletes_eq (key : CacheKey) (o : ℕ) : deletes key o = fun y => entryKey y == (DIR_MASK_TAG (key.slice32 2), o) := by
  funext y
  rw [Bool.eq_iff_iff, deletes, Dir.compareTag, Bool.and_eq_true, beq_iff_eq, beq_iff_eq, beq_iff_eq, entryKey, Prod.mk.injEq]

theorem delete_bucket (h : SegInv v.geom (v.seg i)) (hb : b < v.geom.buckets) (key : CacheKey) (del : Dir) :
    ((v.step (.delete key del)).seg i).bucket v.geom b =
      if v.dirSegment key = i ∧ key.slice32 1 % v.geom.buckets = b then ((v.seg i).bucket v.geom b).eraseP (deletes key del.offset)
      else (v.seg i).bucket v.geom b := by
  show ((Function.update v.seg (v.dirSegment key) (dirDelete v.geom key del (v.seg (v.dirSegment key))).1 i).bucket v.geom b) = _
  by_cases hi : v.dirSegment key = i
  · obtain ⟨k, ch, u, hinv⟩ := h
    subst hi
    obtain ⟨ch', hinv'⟩ := hinv.delete_spec key del rfl
    rw [Function.update_self, hinv'.bucket_eq hb, hinv.bucket_eq hb]
    by_cases hkey : key.slice32 1 % v.geom.buckets = b
    · rw [if_pos ⟨rfl, hkey⟩, ← hkey, Function.update_self]
    · rw [if_neg fun hh => hkey hh.2, Function.update_of_ne (Ne.symm hkey)]
  · rw [Function.update_of_ne (Ne.symm hi), if_neg fun hh => hi hh.1]

theorem targets_step (op : DirOp) (done : ℕ) (docs : List Doc) :
    targets g (v.step op) writePos i b done docs = targets g v writePos i b done docs := by
  have hseg : ∀ key, (v.step op).dirSegment key = v.dirSegment key := by
    intro key
    cases op <;> rfl
  induction docs generalizing done with
  | nil => rfl
  | cons doc docs ih => rw [targets, targets, ih, hseg, VolDir.step_geom]

theorem run_bucket (h : ∀ j, SegInv v.geom (v.seg j)) (hb : b < v.geom.buckets) (done : ℕ) (docs : List Doc) :
    ((v.run (deletions g writePos done docs)).seg i).bucket v.geom b =
      eraseKeys entryKey (targets g v writePos i b done docs) ((v.seg i).bucket v.geom b) := by
  induction docs generalizing v done with
  | nil => rfl
  | cons doc docs ih =>
    have hstep := VolDir.step_inv (.delete doc.key (delDir writePos done)) trivial h
    have hrest := ih (v := v.step (.delete doc.key (delDir writePos done))) hstep (by rwa [VolDir.step_geom])
      (done + g.roundToApproxSize doc.len)
    rw [VolDir.step_geom, targets_step] at hrest
    have hrun : v.run (deletions g writePos done (doc :: docs)) =
        (v.step (.delete doc.key (delDir writePos done))).run (deletions g writePos (done + g.roundToApproxSize doc.len) docs) := rfl
    rw [hrun, hrest, delete_bucket (h i) hb, targets]
    split_ifs with hkey
    · rw [eraseKeys_cons, deletes_eq]
    · rfl

/-! ## The result -/

/-- an offset as a position in bytes -/
def posOf (g : VolGeom) (offset : ℕ) : ℤ := g.start + offset * CACHE_BLOCK_SIZE - CACHE_BLOCK_SIZE

/-- An entry with this offset points into the range that was to be written. -/
def InFailed (g : VolGeom) (writePos aggBufPos offset : ℕ) : Prop :=
  (writePos : ℤ) ≤ posOf g offset ∧ posOf g offset < writePos + aggBufPos

instance (g : VolGeom) (writePos aggBufPos offset : ℕ) : Decidable (InFailed g writePos aggBufPos offset) :=
  inferInstanceAs (Decidable (_ ∧ _))

/-- Every entry that points into the failed range is the target of a document, as often as there are such entries; no other entry is. -/
def CleansUp (g : VolGeom) (writePos aggBufPos : ℕ) (docs : List Doc) (v : VolDir) : Prop :=
  ∀ i < v.segments, ∀ b < v.geom.buckets, ∀ y ∈ (v.seg i).bucket v.geom b,
    if InFailed g writePos aggBufPos y.1.offset then
      (((v.seg i).bucket v.geom b).map entryKey).count (entryKey y) ≤ (targets g v writePos i b 0 docs).count (entryKey y)
    else entryKey y ∉ targets g v writePos i b 0 docs

/-- After the failed write no entry points into its range and every other entry is as it was, if and only if `CleansUp` held before. -/
theorem failed_write_iff (g : VolGeom) (buffer : ℕ → Doc) (docs : List Doc) (writePos aggBufPos : ℕ) (v : VolDir)
    (hlaid : Laid g buffer 0 docs aggBufPos) (hinv : ∀ i, SegInv v.geom (v.seg i)) :
    (∀ i < v.segments, ∀ b < v.geom.buckets, ((aggWriteFailed g buffer writePos aggBufPos v).seg i).bucket v.geom b =
      ((v.seg i).bucket v.geom b).filter fun y => !decide (InFailed g writePos aggBufPos y.1.offset)) ↔
    CleansUp g writePos aggBufPos docs v := by
  refine forall₂_congr fun i hi => forall₂_congr fun b hb => ?_
  rw [aggWriteFailed_eq hlaid, run_bucket hinv hb]
  have hiff := @eraseKeys_eq_filter_iff Entry (ℕ × ℕ) _ entryKey (targets g v writePos i b 0 docs) ((v.seg i).bucket v.geom b)
    (fun c => !decide (InFailed g writePos aggBufPos c.2)) _
  refine hiff.trans (forall₂_congr fun y _ => ?_)
  have hkey : (!decide (InFailed g writePos aggBufPos (entryKey y).2)) = true ↔ ¬ InFailed g writePos aggBufPos y.1.offset := by
    rw [Bool.not_eq_true', decide_eq_false_iff_not]
    rfl
  by_cases hin : InFailed g writePos aggBufPos y.1.offset
  · rw [if_neg fun hq => hkey.1 hq hin, if_pos hin]
  · rw [if_pos (hkey.2 hin), if_neg hin]

def smallVol : VolGeom := ⟨16384, 0, 2 ^ 27, 512, room_128_mb, sector512_dvd⟩

/-- a fragment of 1000 bytes -/
def fragment : Doc := ⟨⟨fun _ => 0⟩, 1000⟩

/-- a volume of one bucket with one entry, for `fragment` at the position in blocks `offset` -/
def oneEntry (offset : ℕ) : VolDir :=
  (VolDir.init tinyGeom 1 fun _ => Seg.blank).run [.insert ⟨false, 81920, 81920, 1024, 16384⟩ fragment.key (Dir.zero.setOffset offset) 1]

theorem oneEntry_inv {offset : ℕ} (h : (Dir.zero.setOffset offset).offset ≠ 0) (i : ℕ) :
    SegInv (oneEntry offset).geom ((oneEntry offset).seg i) := by
  have hinit : ∀ j, SegInv tinyGeom ((VolDir.init tinyGeom 1 fun _ => Seg.blank).seg j) := fun j => ⟨_, _, _, Inv.init _ _⟩
  refine (@VolDir.run_inv (VolDir.init tinyGeom 1 fun _ => Seg.blank) _ (fun op hop => ?_) hinit).2 i
  obtain rfl := List.mem_singleton.1 hop
  exact h

/-- The only entry points to a place in front of the failed range: it is left alone. -/
theorem failed_write_other :
    ((aggWriteFailed smallVol (fun _ => fragment) 81920 1024 (oneEntry 1)).seg 0).bucket (oneEntry 1).geom 0 =
      (((oneEntry 1).seg 0).bucket (oneEntry 1).geom 0).filter fun y => !decide (InFailed smallVol 81920 1024 y.1.offset) := by
  refine (failed_write_iff smallVol (fun _ => fragment) [fragment] 81920 1024 (oneEntry 1) ⟨rfl, by decide, by decide, ?_⟩
    (oneEntry_inv (by decide))).2 ?_ 0 (by decide) 0 (by decide)
  · show 0 + smallVol.roundToApproxSize 1000 = 1024
    decide
  · unfold CleansUp
    decide +kernel

/-- The fragment is the only document in the buffer and its entry points to the write position. The entry stays. -/
theorem failed_write_kept :
    smallVol.offsetToVolOffset 81920 = 129 ∧ Laid smallVol (fun _ => fragment) 0 [fragment] 1024 ∧
    ((oneEntry 129).seg 0).bucket (oneEntry 129).geom 0 = [(Dir.zero.setOffset 129, 0)] ∧ InFailed smallVol 81920 1024 129 ∧
    ((aggWriteFailed smallVol (fun _ => fragment) 81920 1024 (oneEntry 129)).seg 0).bucket (oneEntry 129).geom 0 =
      [(Dir.zero.setOffset 129, 0)] := by
  refine ⟨by decide, ⟨rfl, by decide, by decide, ?_⟩, by decide +kernel, by decide, by decide +kernel⟩
  show 0 + smallVol.roundToApproxSize 1000 = 1024
  decide

end TrafficServer.Cache.AggFailed
