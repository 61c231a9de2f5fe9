/-
The last step of the recovery scan (`Ldone` in `Vol::handle_recover_from_data`): the part of the directory between the write position of the
last sync and the recovered position is cleared.

`dir_clear_range` filters every bucket (`clearRange_bucket`): the entries in the range go, and so do those that are invalid anyway. `recoverDone`
is the step. What it is for is `InRecovered`: the positions that lie ahead of the write position, around the end of the data area, by less
than the recovered position and the margin of `EVACUATION_SIZE` behind it.

The step gets the range right as long as the margin ends before the end of the volume and the scan has not wrapped. Otherwise the position
behind the margin is moved by `skip + len` and not to the start of the data, and the two ranges that are cleared are the ones outside of the
wrapped range plus, since they overlap, everything else too. `recover_iff` gives the exact condition. Counterexample: `recover_wrapped_all`.
-/
import Mathlib
import TrafficServer.Cache.Vol
import TrafficServer.Cache.ProbeAll
import TrafficServer.Cache.DirUsed

namespace TrafficServer.Cache

def DIR_OFFSET_MAX : ℤ := 2 ^ 40 - 1

/-! ## A cleared range, bucket by bucket -/

section Range

variable {g : SegGeom} {d : VolPos} {s : Seg} {k : ℕ} {ch : ℕ → List ℕ} {v : ℕ → List Entry} {b i : ℕ} {start stop : ℤ}

/-- the entry as `dir_clear_range` leaves it before the cleaning -/
def clearEntry (start stop : ℤ) (y : Entry) : Entry := if clears start stop y.1 then (y.1.setOffset 0, y.2) else y

/-- the entries that are left -/
def survives (d : VolPos) (start stop : ℤ) (y : Entry) : Bool := !clears start stop y.1 && dirValid d y.1

theorem clearStep_stamp (s : Seg) (e : ℕ) : (clearStep start stop s e).stamp = s.stamp := by
  unfold clearStep
  split_ifs <;> rfl

theorem clearStep_self (s : Seg) (e : ℕ) : (clearStep start stop s e).ent e = clearEntry start stop (s.ent e) := by
  have hclears : clears start stop (s.ent e).1 = clears start stop (s.dir e) := rfl
  rw [clearEntry, hclears, Seg.ent, clearStep_stamp]
  unfold clearStep
  split_ifs
  · show (((s.modify e (·.setOffset 0)).dir e).setNext 0, s.stamp e) = _
    rw [Seg.modify_dir, if_pos rfl]
    rfl
  · rfl

theorem clearSteps_ent (l : List ℕ) (hnd : l.Nodup) (s : Seg) (hi : i ∈ l) :
    (l.foldl (clearStep start stop) s).ent i = clearEntry start stop (s.ent i) := by
  have hrest : ∀ (l : List ℕ) (s : Seg), i ∉ l → (l.foldl (clearStep start stop) s).ent i = s.ent i := by
    intro l
    induction l with
    | nil => intro s _; rfl
    | cons e l ih =>
      intro s hi
      rw [List.mem_cons, not_or] at hi
      rw [List.foldl_cons, ih _ hi.2, Seg.ent, Seg.ent, clearStep_stamp, clearStep_other start stop hi.1]
  induction l generalizing s with
  | nil => cases hi
  | cons e l ih =>
    obtain ⟨he, hnd⟩ := List.nodup_cons.1 hnd
    rw [List.foldl_cons]
    rcases List.mem_cons.1 hi with rfl | hi
    · rw [hrest l _ he, clearStep_self]
    · have hne : i ≠ e := fun heq => he (heq ▸ hi)
      rw [ih hnd _ hi, Seg.ent, clearStep_stamp, clearStep_other start stop hne]
      rfl

theorem filter_clearEntry (L : List Entry) (hL : ∀ y ∈ L, y.1.offset ≠ 0) :
    (L.map (clearEntry start stop)).filter (keep d) = L.filter (survives d start stop) := by
  induction L with
  | nil => rfl
  | cons y L ih =>
    have hrest := ih fun z hz => hL z (List.mem_cons_of_mem _ hz)
    have hy : y.1.isEmpty = false := by simpa [Dir.isEmpty] using hL y List.mem_cons_self
    rw [List.map_cons, List.filter_cons, List.filter_cons, hrest]
    cases hc : clears start stop y.1 with
    | true =>
      have hkeep : keep d (clearEntry start stop y) = false := by
        rw [clearEntry, if_pos hc, keep, Dir.isEmpty, Dir.setOffset_zero]
        exact Bool.and_false _
      rw [hkeep, survives, hc]
      rfl
    | false =>
      have hsame : clearEntry start stop y = y := if_neg (by rw [hc]; decide)
      have hkeep : keep d y = survives d start stop y := by
        rw [keep, survives, hc, hy]
        exact (Bool.and_true _).trans (Bool.true_and _).symm
      rw [hsame, hkeep]

theorem Inv.clearRange (h : Inv g s k ch v) (d : VolPos) (start stop : ℤ) : ∃ ch' v',
    Inv g (dirCleanSegment g d (dirClearSlots g start stop s)) k ch' v' ∧
    ∀ b < g.buckets, v' b = (v b).filter (survives d start stop) := by
  obtain ⟨v₁, hrep, hz⟩ := h.toRep.clearSlots start stop
  -- the lists before the cleaning
  have hlists : ∀ b < g.buckets, v₁ b = (v b).map (clearEntry start stop) := by
    intro b hb
    by_cases hv : v b = []
    · have hlen := (hz b hb).length_eq
      rw [hv] at hlen ⊢
      exact List.length_eq_zero_iff.1 hlen.symm
    · have hv₁ : v₁ b ≠ [] := by
        intro hnil
        have hlen := (hz b hb).length_eq
        rw [hnil] at hlen
        exact hv (List.length_eq_zero_iff.1 hlen)
      rw [hrep.ents hb hv₁, h.toRep.ents hb hv, List.map_map]
      refine List.map_congr_left fun x hx => ?_
      have hlt := h.toRep.slot_lt hb hx
      rw [dirClearSlots_eq]
      exact clearSteps_ent _ List.nodup_range s (List.mem_range.2 hlt)
  obtain ⟨ch', hclean⟩ := hrep.cleanSegment d
  have heq : ∀ b < g.buckets, (if b < g.buckets then (v₁ b).filter (keep d) else v₁ b) = (v b).filter (survives d start stop) := by
    intro b hb
    rw [if_pos hb, hlists b hb]
    exact filter_clearEntry _ (h.good b hb).offset
  refine ⟨ch', _, h.of_sublist hclean fun b hb => ?_, heq⟩
  rw [heq b hb]
  exact List.filter_sublist

theorem clearRange_bucket (h : SegInv g s) (d : VolPos) (start stop : ℤ) :
    SegInv g (dirCleanSegment g d (dirClearSlots g start stop s)) ∧
    ∀ b < g.buckets, (dirCleanSegment g d (dirClearSlots g start stop s)).bucket g b =
      (s.bucket g b).filter (survives d start stop) := by
  obtain ⟨k, ch, v, hi⟩ := h
  obtain ⟨ch', v', hi', heq⟩ := hi.clearRange d start stop
  refine ⟨⟨k, ch', v', hi'⟩, fun b hb => ?_⟩
  rw [hi'.bucket_eq hb, hi.bucket_eq hb, heq b hb]

end Range

namespace Recover

/-! ## The step -/

/-- the fields of the volume header that the step reads or writes -/
structure VolHeader where
  writePos : ℤ
  aggPos : ℤ
  phase : Bool
  syncSerial : ℕ
deriving DecidableEq

/-- what `dir_valid` looks at; the aggregation buffer is still empty -/
def VolHeader.pos (h : VolHeader) (g : VolGeom) : VolPos := ⟨h.phase, h.writePos, h.aggPos, 0, g.start⟩

/-- the serial number of the next sync, which must go to the other copy of the directory -/
def nextSyncSerial (maxSyncSerial syncSerial : ℕ) : ℕ :=
  let next := (maxSyncSerial + 1) % 2 ^ 32
  if syncSerial % 2 = next % 2 then (next + 1) % 2 ^ 32 else next

/-- `Vol::clear_dir`: the memory of the directory is zeroed, with its header, and the segments are initialised -/
def clearDir (g : VolGeom) (v : VolDir) : VolDir × VolHeader :=
  (v.mapSeg (dirInitSegment v.geom), ⟨g.start, g.start, false, 0⟩)

/-- the position behind the margin, as the step moves it when it is past the end -/
def endPos (g : VolGeom) (recoverPos : ℤ) : ℤ :=
  if recoverPos + EVACUATION_SIZE > g.skip + g.len then recoverPos + EVACUATION_SIZE - (g.skip + g.len)
  else recoverPos + EVACUATION_SIZE

/-- the affected portion of the cache -/
def clearAffected (g : VolGeom) (h : VolHeader) (recoverPos : ℤ) (v : VolDir) : VolDir :=
  let clearStart := g.offsetToVolOffset h.writePos
  let clearEnd := g.offsetToVolOffset (endPos g recoverPos)
  if clearStart ≤ clearEnd then dirClearRange (h.pos g) clearStart clearEnd v
  else dirClearRange (h.pos g) 1 clearStart (dirClearRange (h.pos g) clearEnd DIR_OFFSET_MAX v)

/-- `Ldone` -/
def recoverDone (g : VolGeom) (h : VolHeader) (maxSyncSerial : ℕ) (recoverPos : ℤ) (recoverWrapped : Bool) (v : VolDir) :
    VolDir × VolHeader :=
  -- back at the starting position: there is nothing to recover
  if recoverPos = h.writePos ∧ recoverWrapped then (v, h)
  else if recoverPos + EVACUATION_SIZE < h.writePos ∧ recoverPos + EVACUATION_SIZE + EVACUATION_SIZE ≥ h.writePos then clearDir g v
  else (clearAffected g h recoverPos v, { h with syncSerial := nextSyncSerial maxSyncSerial h.syncSerial })

/-! ## The range -/

/-- the way from one position of the data area to another, around its end -/
def ahead (g : VolGeom) (a b : ℤ) : ℤ := if a ≤ b then b - a else b - a + (g.skip + g.len - g.start)

/-- The position is in the range that was written after the sync, or in the margin behind it. -/
def InRecovered (g : VolGeom) (writePos recoverPos pos : ℤ) : Prop :=
  ahead g writePos pos < ahead g writePos recoverPos + EVACUATION_SIZE

instance (g : VolGeom) (w r p : ℤ) : Decidable (InRecovered g w r p) := inferInstanceAs (Decidable (_ < _))

/-- the positions are in the data area, at blocks, and the data area is not larger than the offsets of entries can be -/
structure Placed (g : VolGeom) (writePos recoverPos : ℤ) : Prop where
  nonneg : 0 ≤ g.start
  write : g.start ≤ writePos ∧ writePos ≤ g.skip + g.len
  recover : g.start ≤ recoverPos ∧ recoverPos ≤ g.skip + g.len
  blocks : 512 ∣ g.start ∧ 512 ∣ g.skip + g.len ∧ 512 ∣ writePos ∧ 512 ∣ recoverPos
  fits : g.skip + g.len - g.start < 512 * DIR_OFFSET_MAX

/-- `dir_insert` asserts that an entry points into the volume; the token bit of an entry is only ever cleared -/
def EntryOk (g : VolGeom) (e : Dir) : Prop := e.offset ≠ 0 ∧ g.volOffset e < g.skip + g.len ∧ e.token = false

/-- The step does the right thing with an entry. -/
def ClearedRight (g : VolGeom) (h : VolHeader) (recoverPos : ℤ) (recoverWrapped : Bool) (e : Dir) : Prop :=
  if recoverPos = h.writePos ∧ recoverWrapped then ¬ InRecovered g h.writePos recoverPos (g.volOffset e)
  else if h.writePos ≤ recoverPos ∧ recoverPos + EVACUATION_SIZE ≤ g.skip + g.len then
    InRecovered g h.writePos recoverPos (g.volOffset e) ∨ dirValid (h.pos g) e
  else if endPos g recoverPos < h.writePos then InRecovered g h.writePos recoverPos (g.volOffset e)
  else dirValid (h.pos g) e → h.writePos ≤ g.volOffset e ∧ g.volOffset e < endPos g recoverPos

variable {g : VolGeom} {h : VolHeader} {recoverPos a b : ℤ} {e : Dir}

/-- the position of a block, as entries store it -/
theorem offsetToVolOffset_block {m n : ℤ} (hm : g.start = 512 * m) (hn : a = 512 * n) : g.offsetToVolOffset a = n - m + 1 := by
  have hblock : (CACHE_BLOCK_SIZE : ℤ) = 512 := by decide
  have hmul : 512 * n - 512 * m + 512 = 512 * (n - m + 1) := by ring
  rw [VolGeom.offsetToVolOffset, hblock, hm, hn, hmul, Int.mul_tdiv_cancel_left _ (by decide)]

theorem offset_lt_iff (hg : 512 ∣ g.start) (ha : 512 ∣ a) : (e.offset : ℤ) < g.offsetToVolOffset a ↔ g.volOffset e < a := by
  obtain ⟨m, hm⟩ := hg
  obtain ⟨n, hn⟩ := ha
  have hblock : (CACHE_BLOCK_SIZE : ℤ) = 512 := by decide
  rw [offsetToVolOffset_block hm hn, VolGeom.volOffset, hblock, hm, hn]
  omega

theorem offsetToVolOffset_le_iff (hg : 512 ∣ g.start) (ha : 512 ∣ a) (hb : 512 ∣ b) :
    g.offsetToVolOffset a ≤ g.offsetToVolOffset b ↔ a ≤ b := by
  obtain ⟨m, hm⟩ := hg
  obtain ⟨n, hn⟩ := ha
  obtain ⟨q, hq⟩ := hb
  rw [offsetToVolOffset_block hm hn, offsetToVolOffset_block hm hq, hn, hq]
  omega

/-- without the token bit, an entry is cleared if its position is in the range -/
theorem clears_iff (hg : 512 ∣ g.start) (ha : 512 ∣ a) (hb : 512 ∣ b) (he : EntryOk g e) :
    clears (g.offsetToVolOffset a) (g.offsetToVolOffset b) e = true ↔ a ≤ g.volOffset e ∧ g.volOffset e < b := by
  have hlt := offset_lt_iff (e := e) hg hb
  have hge := (offset_lt_iff (e := e) hg ha).not
  rw [not_lt, not_lt] at hge
  simp only [clears, he.2.2, Bool.not_false, Bool.true_and, Bool.and_eq_true, decide_eq_true_eq, hlt, hge]

theorem Placed.endPos_dvd (hp : Placed g h.writePos recoverPos) : 512 ∣ endPos g recoverPos := by
  obtain ⟨-, hend, -, hrec⟩ := hp.blocks
  have hevac : (512 : ℤ) ∣ EVACUATION_SIZE := by decide
  unfold endPos
  split_ifs
  · exact dvd_sub (dvd_add hrec hevac) hend
  · exact dvd_add hrec hevac

/-- two ranges that overlap take every entry -/
theorem clears_both (hp : Placed g h.writePos recoverPos) (he : EntryOk g e) (hlt : endPos g recoverPos < h.writePos) :
    clears (g.offsetToVolOffset (endPos g recoverPos)) DIR_OFFSET_MAX e = true ∨ clears 1 (g.offsetToVolOffset h.writePos) e = true := by
  obtain ⟨hstart, hend, hwrite, -⟩ := hp.blocks
  have hpos : (1 : ℤ) ≤ e.offset := by
    have := he.1
    omega
  have hmax : (e.offset : ℤ) < DIR_OFFSET_MAX := by
    have hin := he.2.1
    have hfits := hp.fits
    have hblock : (CACHE_BLOCK_SIZE : ℤ) = 512 := by decide
    rw [VolGeom.volOffset, hblock] at hin
    omega
  simp only [clears, he.2.2, Bool.not_false, Bool.true_and, Bool.and_eq_true, decide_eq_true_eq, offset_lt_iff hstart hwrite]
  by_cases hbelow : g.volOffset e < h.writePos
  · exact Or.inr ⟨hpos, hbelow⟩
  · have hge := (offset_lt_iff (e := e) hstart hp.endPos_dvd).not
    rw [not_lt, not_lt] at hge
    exact Or.inl ⟨hge.2 (by omega), hmax⟩

/-! ## The ranges of positions -/

theorem volOffset_ge (he : EntryOk g e) : g.start ≤ g.volOffset e := by
  have hne := he.1
  have hblock : (CACHE_BLOCK_SIZE : ℤ) = 512 := by decide
  rw [VolGeom.volOffset, hblock]
  omega

/-- not wrapped, and the margin ends in the volume -/
theorem inRecovered_iff (hp : Placed g h.writePos recoverPos) (he : EntryOk g e) (hle : h.writePos ≤ recoverPos)
    (hend : recoverPos + EVACUATION_SIZE ≤ g.skip + g.len) :
    InRecovered g h.writePos recoverPos (g.volOffset e) ↔ h.writePos ≤ g.volOffset e ∧ g.volOffset e < endPos g recoverPos := by
  have hge := volOffset_ge he
  have hlt := he.2.1
  have hw := hp.write
  rw [endPos, if_neg (not_lt.2 hend), InRecovered, ahead, ahead, if_pos hle]
  split_ifs <;> omega

/-- the margin reaches the write position again -/
theorem inRecovered_all (hp : Placed g h.writePos recoverPos) (he : EntryOk g e)
    (hnot : ¬ (h.writePos ≤ recoverPos ∧ recoverPos + EVACUATION_SIZE ≤ g.skip + g.len)) (hle : h.writePos ≤ endPos g recoverPos) :
    InRecovered g h.writePos recoverPos (g.volOffset e) := by
  have hge := volOffset_ge he
  have hlt := he.2.1
  have hw := hp.write
  have hr := hp.recover
  have hnonneg := hp.nonneg
  have hevac : (0 : ℤ) ≤ EVACUATION_SIZE := by decide
  unfold endPos at hle
  unfold InRecovered ahead
  split_ifs at hle ⊢ <;> omega

/-! ## The result -/

theorem filter_eq_iff {p q : Entry → Bool} {L : List Entry} : L.filter p = L.filter q ↔ ∀ y ∈ L, p y = q y := by
  refine ⟨fun heq y hy => ?_, List.filter_congr⟩
  have hp : p y = true ↔ y ∈ L.filter p := by rw [List.mem_filter, and_iff_right hy]
  have hq : q y = true ↔ y ∈ L.filter q := by rw [List.mem_filter, and_iff_right hy]
  rw [Bool.eq_iff_iff, hp, hq, heq]

variable {v : VolDir} {i b : ℕ} {m : ℕ} {wrapped : Bool}

theorem init_bucket (g : SegGeom) (s : Seg) {b : ℕ} (hb : b < g.buckets) : (dirInitSegment g s).bucket g b = [] :=
  (Inv.init g s).bucket_eq hb

theorem clearRange_vol {d : VolPos} (start stop : ℤ) (hinv : SegInv v.geom (v.seg i)) (hi : i < v.segments) (hb : b < v.geom.buckets) :
    SegInv v.geom ((dirClearRange d start stop v).seg i) ∧
      ((dirClearRange d start stop v).seg i).bucket v.geom b = ((v.seg i).bucket v.geom b).filter (survives d start stop) := by
  obtain ⟨hseg, hbucket⟩ := clearRange_bucket hinv d start stop
  rw [VolDir.clearRange_seg _ _ _ hi]
  exact ⟨hseg, hbucket b hb⟩

/-- what the ranges leave of an entry -/
def outside (g : VolGeom) (h : VolHeader) (recoverPos : ℤ) (y : Entry) : Bool :=
  if g.offsetToVolOffset h.writePos ≤ g.offsetToVolOffset (endPos g recoverPos) then
    survives (h.pos g) (g.offsetToVolOffset h.writePos) (g.offsetToVolOffset (endPos g recoverPos)) y
  else survives (h.pos g) 1 (g.offsetToVolOffset h.writePos) y &&
    survives (h.pos g) (g.offsetToVolOffset (endPos g recoverPos)) DIR_OFFSET_MAX y

theorem clearAffected_bucket (hinv : SegInv v.geom (v.seg i)) (hi : i < v.segments) (hb : b < v.geom.buckets) :
    ((clearAffected g h recoverPos v).seg i).bucket v.geom b =
      ((v.seg i).bucket v.geom b).filter (outside g h recoverPos) := by
  unfold clearAffected outside
  dsimp only
  generalize g.offsetToVolOffset h.writePos = clearStart
  generalize g.offsetToVolOffset (endPos g recoverPos) = clearEnd
  generalize DIR_OFFSET_MAX = offsetMax
  split_ifs
  · exact (clearRange_vol clearStart clearEnd hinv hi hb).2
  · -- the second call meets what the first one has left
    obtain ⟨hinv₁, hbucket₁⟩ := clearRange_vol (d := h.pos g) clearEnd offsetMax hinv hi hb
    have hsecond := (@clearRange_vol (dirClearRange (h.pos g) clearEnd offsetMax v) i b (h.pos g) 1 clearStart hinv₁ hi hb).2
    exact hsecond.trans (by rw [← List.filter_filter, ← hbucket₁]; rfl)

/-- what the step leaves of an entry -/
def left (g : VolGeom) (h : VolHeader) (recoverPos : ℤ) (recoverWrapped : Bool) (y : Entry) : Bool :=
  if recoverPos = h.writePos ∧ recoverWrapped then true
  else if recoverPos + EVACUATION_SIZE < h.writePos ∧ recoverPos + EVACUATION_SIZE + EVACUATION_SIZE ≥ h.writePos then false
  else outside g h recoverPos y

theorem recoverDone_bucket (hinv : SegInv v.geom (v.seg i)) (hi : i < v.segments) (hb : b < v.geom.buckets) :
    ((recoverDone g h m recoverPos wrapped v).1.seg i).bucket v.geom b =
      ((v.seg i).bucket v.geom b).filter (left g h recoverPos wrapped) := by
  unfold recoverDone left
  split_ifs with hback hclear
  · exact (List.filter_eq_self.2 fun _ _ => rfl).symm
  · have hnil : ((clearDir g v).1.seg i).bucket v.geom b = [] := by
      show ((if i < v.segments then dirInitSegment v.geom (v.seg i) else v.seg i).bucket v.geom b) = []
      rw [if_pos hi]
      exact init_bucket _ _ hb
    rw [hnil]
    exact (List.filter_eq_nil_iff.2 fun _ _ => Bool.false_ne_true).symm
  · exact clearAffected_bucket hinv hi hb

/-- entry by entry -/
theorem left_iff (hp : Placed g h.writePos recoverPos) {y : Entry} (he : EntryOk g y.1) :
    left g h recoverPos wrapped y = !decide (InRecovered g h.writePos recoverPos (g.volOffset y.1)) ↔
      ClearedRight g h recoverPos wrapped y.1 := by
  obtain ⟨hstart, -, hwrite, -⟩ := hp.blocks
  have hendPos := hp.endPos_dvd
  have hle := offsetToVolOffset_le_iff hstart hwrite hendPos
  have hclears := clears_iff hstart hwrite hendPos he
  have hevac : (0 : ℤ) ≤ EVACUATION_SIZE := by decide
  have hwe := hp.write.2
  rw [Bool.eq_iff_iff, Bool.not_eq_true', decide_eq_false_iff_not]
  unfold left ClearedRight
  by_cases hback : recoverPos = h.writePos ∧ wrapped = true
  · rw [if_pos hback, if_pos hback]
    exact ⟨fun hiff => hiff.1 rfl, fun hnot => ⟨fun _ => hnot, fun _ => rfl⟩⟩
  rw [if_neg hback, if_neg hback]
  by_cases hplain : h.writePos ≤ recoverPos ∧ recoverPos + EVACUATION_SIZE ≤ g.skip + g.len
  · -- the range is cleared as it is
    have hin := inRecovered_iff hp he hplain.1 hplain.2
    have hendEq : endPos g recoverPos = recoverPos + EVACUATION_SIZE := if_neg (not_lt.2 hplain.2)
    rw [if_neg (by omega), outside, if_pos (hle.2 (by omega)), if_pos hplain]
    rw [← hin] at hclears
    rw [survives, Bool.and_eq_true, Bool.not_eq_true', ← Bool.not_eq_true, hclears]
    refine ⟨fun hiff => ?_, fun hor => ⟨fun hleft => hleft.1, fun hno => ⟨hno, hor.resolve_left hno⟩⟩⟩
    by_contra hneither
    rw [not_or] at hneither
    exact hneither.2 (hiff.2 hneither.1).2
  rw [if_neg hplain]
  by_cases hlt : endPos g recoverPos < h.writePos
  · -- everything goes
    have hgone : outside g h recoverPos y = false := by
      rw [outside, if_neg fun hh => absurd (hle.1 hh) (not_le.2 hlt)]
      rcases clears_both hp he hlt with hc | hc <;> simp [survives, hc]
    rw [hgone, if_pos hlt, ite_self]
    simp
  · -- only the part from the write position on goes, and the range is everything
    have hall := inRecovered_all hp he hplain (not_lt.1 hlt)
    have hnear : ¬ (recoverPos + EVACUATION_SIZE < h.writePos ∧ recoverPos + EVACUATION_SIZE + EVACUATION_SIZE ≥ h.writePos) := by
      intro hnear
      refine hlt ?_
      rw [endPos, if_neg (by omega)]
      exact hnear.1
    rw [if_neg hnear, outside, if_pos (hle.2 (not_lt.1 hlt)), if_neg hlt]
    rw [survives, Bool.and_eq_true, Bool.not_eq_true', ← Bool.not_eq_true, hclears]
    refine ⟨fun hiff hvalid => ?_, fun himp => ⟨fun hleft => absurd (himp hleft.2) hleft.1, fun hno => absurd hall hno⟩⟩
    by_contra hout
    exact hiff.1 ⟨hout, hvalid⟩ hall

/-- The step removes exactly the entries of the range and leaves all others as they are if and only if `ClearedRight` holds of every entry. -/
theorem recover_iff (g : VolGeom) (h : VolHeader) (m : ℕ) (recoverPos : ℤ) (wrapped : Bool) (v : VolDir)
    (hp : Placed g h.writePos recoverPos) (hinv : ∀ i, SegInv v.geom (v.seg i))
    (hents : ∀ i < v.segments, ∀ b < v.geom.buckets, ∀ y ∈ (v.seg i).bucket v.geom b, EntryOk g y.1) :
    (∀ i < v.segments, ∀ b < v.geom.buckets, ((recoverDone g h m recoverPos wrapped v).1.seg i).bucket v.geom b =
      ((v.seg i).bucket v.geom b).filter fun y => !decide (InRecovered g h.writePos recoverPos (g.volOffset y.1))) ↔
    ∀ i < v.segments, ∀ b < v.geom.buckets, ∀ y ∈ (v.seg i).bucket v.geom b, ClearedRight g h recoverPos wrapped y.1 := by
  refine forall₂_congr fun i hi => forall₂_congr fun b hb => ?_
  rw [recoverDone_bucket (hinv i) hi hb, filter_eq_iff]
  exact forall₂_congr fun y hy => left_iff hp (hents i hi b hb y hy)

/-- the smallest volume -/
def smallVol : VolGeom := ⟨16384, 0, 2 ^ 27, 512, room_128_mb, sector512_dvd⟩

/-- synced with the write position 64 MB into the data -/
def halfway : VolHeader := ⟨16384 + 2 ^ 26, 16384 + 2 ^ 26, false, 6⟩

/-- one entry, 32 MB into the data -/
def oneEntry : VolDir :=
  (VolDir.init .single 1 fun _ => Seg.blank).run [.insert (halfway.pos smallVol) ⟨fun _ => 0⟩ (Dir.zero.setOffset 65537) 1]

theorem oneEntry_inv (i : ℕ) : SegInv oneEntry.geom (oneEntry.seg i) := by
  have hinit : ∀ j, SegInv SegGeom.single ((VolDir.init .single 1 fun _ => Seg.blank).seg j) := fun j => ⟨_, _, _, Inv.init _ _⟩
  refine (@VolDir.run_inv (VolDir.init .single 1 fun _ => Seg.blank)
    [.insert (halfway.pos smallVol) ⟨fun _ => 0⟩ (Dir.zero.setOffset 65537) 1] (fun op hop => ?_) hinit).2 i
  obtain rfl := List.mem_singleton.1 hop
  show (Dir.zero.setOffset 65537).offset ≠ 0
  decide

theorem oneEntry_bucket : (oneEntry.seg 0).bucket oneEntry.geom 0 = [(Dir.zero.setOffset 65537, 0)] := by decide

/-- The scan finds nothing behind the write position: the entry is kept. -/
theorem recover_iff_kept : ((recoverDone smallVol halfway 6 halfway.writePos false oneEntry).1.seg 0).bucket oneEntry.geom 0 =
    ((oneEntry.seg 0).bucket oneEntry.geom 0).filter fun y =>
      !decide (InRecovered smallVol halfway.writePos halfway.writePos (smallVol.volOffset y.1)) := by
  have hplaced : Placed smallVol halfway.writePos halfway.writePos :=
    ⟨by decide, by decide, by decide, by decide, by decide⟩
  have hone : ∀ i < oneEntry.segments, ∀ b < oneEntry.geom.buckets, (oneEntry.seg i).bucket oneEntry.geom b =
      [(Dir.zero.setOffset 65537, 0)] := by
    intro i hi b hb
    obtain rfl : i = 0 := Nat.lt_one_iff.1 hi
    obtain rfl : b = 0 := Nat.lt_one_iff.1 hb
    exact oneEntry_bucket
  refine (recover_iff smallVol halfway 6 halfway.writePos false oneEntry hplaced oneEntry_inv fun i hi b hb y hy => ?_).2
    (fun i hi b hb y hy => ?_) 0 (by decide) 0 (by decide)
  · rw [hone i hi b hb, List.mem_singleton] at hy
    subst hy
    exact ⟨by decide, by decide, by decide⟩
  · rw [hone i hi b hb, List.mem_singleton] at hy
    subst hy
    have hplain : halfway.writePos ≤ halfway.writePos ∧ halfway.writePos + EVACUATION_SIZE ≤ smallVol.skip + smallVol.len := by decide
    rw [ClearedRight, if_neg (by decide), if_pos hplain]
    exact Or.inr (by decide)

/-- The scan has wrapped and found 1 MB at the start of the data: the entry, far from the range, is removed. -/
theorem recover_wrapped_all :
    Placed smallVol halfway.writePos (smallVol.start + 2 ^ 20) ∧ EntryOk smallVol (Dir.zero.setOffset 65537) ∧
    (oneEntry.seg 0).bucket oneEntry.geom 0 = [(Dir.zero.setOffset 65537, 0)] ∧
    ¬ InRecovered smallVol halfway.writePos (smallVol.start + 2 ^ 20) (smallVol.volOffset (Dir.zero.setOffset 65537)) ∧
    ((recoverDone smallVol halfway 6 (smallVol.start + 2 ^ 20) true oneEntry).1.seg 0).bucket oneEntry.geom 0 = [] := by
  refine ⟨⟨by decide, by decide, by decide, by decide, by decide⟩, ⟨by decide, by decide, by decide⟩, oneEntry_bucket, by decide, ?_⟩
  decide +kernel

end Recover

end TrafficServer.Cache
