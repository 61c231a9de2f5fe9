/-
The bounds of the writes of a volume.

`aggWrite` copies a request into the buffer only if it fits there and before the end of the volume. The sync marker is
written without such a check: when `write_pos` has come to the end of the volume and requests still wait for their sync, it
is written past the end. `MarkerFits` is the condition under which that does not happen.

Results: `run_writes_inside` (all writes of a run are inside exactly if `MarkerFits` at every call of `aggWrite`).
Witness: `run_writes_inside_start`. Counterexample: `marker_past_end`.
-/
import Mathlib
import TrafficServer.Lib.Run
import TrafficServer.Cache.AggQueue

namespace TrafficServer.Cache.Aggregation

open Run

/-! ## The bounds of the writes -/

/-- a range that was written lies in the data of the volume -/
def Inside (g : VolGeom) (w : ℤ × ℕ) : Prop := g.start ≤ w.1 ∧ w.1 + w.2 ≤ g.skip + g.len

instance (g : VolGeom) (w : ℤ × ℕ) : Decidable (Inside g w) := inferInstanceAs (Decidable (_ ∧ _))

/-- all writes so far were inside, and the buffer does not overflow -/
def InBounds (g : VolGeom) (v : Vol) : Prop := v.aggBufPos ≤ AGG_SIZE ∧ ∀ w ∈ v.writes, Inside g w

instance (g : VolGeom) (v : Vol) : Decidable (InBounds g v) := inferInstanceAs (Decidable (_ ∧ _))

/-- When `aggWrite` is called to write a sync marker, there is room for it before the end of the volume. This is the case
of an empty buffer, an empty queue and a request waiting for a sync, with nothing to evacuate. -/
def MarkerFits (g : VolGeom) (v : Vol) : Prop :=
  v.aggBufPos = 0 → v.agg = [] → v.sync ≠ [] → v.writePos ≠ g.start → evacSpace g v = none →
    v.writePos + g.markerLen ≤ g.skip + g.len

instance (g : VolGeom) (v : Vol) : Decidable (MarkerFits g v) :=
  inferInstanceAs (Decidable (_ → _ → _ → _ → _ → _))

structure BInv (g : VolGeom) (v : Vol) : Prop where
  lo : g.start ≤ v.writePos
  buf : v.aggBufPos ≤ AGG_SIZE
  hi : v.aggBufPos ≠ 0 → v.writePos + v.aggBufPos ≤ g.skip + g.len
  writes : ∀ w ∈ v.writes, Inside g w

theorem BInv.loop {g : VolGeom} {q : List Req} {v : Vol} (h : BInv g v) (t : List Req) : BInv g (aggLoop g q v t).1 := by
  induction q generalizing v t with
  | nil => exact ⟨h.lo, h.buf, h.hi, h.writes⟩
  | cons c q ih =>
    simp only [aggLoop]
    split_ifs with hfull hsync hevac
    · exact ⟨h.lo, h.buf, h.hi, h.writes⟩
    all_goals
      rw [not_or] at hfull
      apply ih
      refine ⟨h.lo, ?_, fun _ => ?_, h.writes⟩
      · exact not_lt.mp hfull.1
      · have := hfull.2
        push_cast
        omega

theorem aggLoop_buf_ge (g : VolGeom) (q : List Req) (v : Vol) (t : List Req) :
    v.aggBufPos ≤ (aggLoop g q v t).1.aggBufPos := by
  induction q generalizing v t with
  | nil => exact le_rfl
  | cons c q ih =>
    simp only [aggLoop]
    split_ifs with hfull hsync hevac
    · exact le_rfl
    all_goals
      refine le_trans ?_ (ih _ _)
      exact Nat.le_add_right _ _

/-- a loop that leaves the buffer empty did nothing -/
theorem aggLoop_idle {g : VolGeom} {q : List Req} {v : Vol} {t : List Req} (hpos : ∀ c ∈ q, 0 < c.aggLen)
    (h0 : (aggLoop g q v t).1.aggBufPos = 0) : aggLoop g q v t = ({ v with agg := q }, t) := by
  cases q with
  | nil => rfl
  | cons c q =>
    have hc := hpos c List.mem_cons_self
    simp only [aggLoop] at h0 ⊢
    split_ifs at h0 ⊢ with hfull hsync hevac
    · rfl
    all_goals
      have hge := aggLoop_buf_ge g q _ _ |>.trans h0.le
      simp only at hge
      omega

/-- a volume when `aggWrite` is entered, or at `Lagain` -/
structure Ready (g : VolGeom) (v : Vol) : Prop extends BInv g v where
  pos : ∀ c ∈ v.agg, 0 < c.aggLen
  fits : MarkerFits g v

theorem Ready.loop {g : VolGeom} {v : Vol} (h : Ready g v) (t : List Req) : Ready g (aggLoop g v.agg v t).1 where
  toBInv := h.toBInv.loop t
  pos := fun c hc => h.pos c ((Later.loop g v.agg v t).1 c hc)
  fits := by
    intro h0
    rw [aggLoop_idle h.pos h0]
    exact h.fits (by rwa [aggLoop_idle h.pos h0] at h0)

theorem Ready.finish {g : VolGeom} {v : Vol} (h : Ready g v)
    (hmarker : v.aggBufPos = 0 → v.agg = [] ∧ v.sync ≠ [] ∧ v.writePos ≠ g.start) : BInv g (aggFinish g v) := by
  rcases aggFinish_cases g v with ⟨e, o, n, heq⟩ | ⟨heq, -⟩ | ⟨heq, hev⟩
  · rw [heq]
    exact ⟨h.lo, h.buf, h.hi, h.writes⟩
  · rw [heq]
    exact h.toBInv
  · -- the length that is written, for a document or a marker
    let n := if v.aggBufPos = 0 then g.markerLen else v.aggBufPos
    have hn : n ≤ AGG_SIZE ∧ v.writePos + n ≤ g.skip + g.len := by
      rcases eq_or_ne v.aggBufPos 0 with h0 | h0
      · obtain ⟨hagg, hsync, hstart⟩ := hmarker h0
        simp only [n, h0, if_true]
        exact ⟨g.markerLen_le, h.fits h0 hagg hsync hstart hev⟩
      · simp only [n, h0, if_false]
        exact ⟨h.buf, h.hi h0⟩
    rw [heq]
    refine ⟨h.lo, hn.1, fun _ => hn.2, ?_⟩
    intro w hw
    rcases List.mem_cons.mp hw with rfl | hw
    · exact ⟨h.lo, hn.2⟩
    · exact h.writes w hw

theorem Ready.aggWrite {g : VolGeom} {scan : Blocks → Blocks} {v : Vol} (h : Ready g v) : BInv g (aggWrite g scan v) := by
  refine aggAgain_rule (P := fun v _ => Ready g v) (Q := fun v => BInv g v) ?_ ?_ ?_ ?_ ?_ ?_ 2 v [] h
  · exact fun v t h => h.loop t
  · exact fun v t h _ _ => h.toBInv
  · exact fun v t h _ => ⟨h.lo, h.buf, h.hi, h.writes⟩
  · intro v t h h0 hagg
    exact ⟨⟨le_rfl, h.buf, fun hne => absurd h0 hne, h.writes⟩, h.pos, fun _ hnil => absurd hnil hagg⟩
  · intro v t h hmarker
    have hfin := h.finish hmarker
    exact ⟨hfin.lo, hfin.buf, hfin.hi, hfin.writes⟩
  · exact fun v t h => ⟨h.lo, h.buf, h.hi, h.writes⟩

/-- a marker that does not fit is written all the same -/
theorem aggWrite_outside {g : VolGeom} (scan : Blocks → Blocks) {v : Vol} (h : ¬ MarkerFits g v) :
    ∃ w ∈ (aggWrite g scan v).writes, ¬ Inside g w := by
  unfold MarkerFits at h
  push Not at h
  obtain ⟨h0, hagg, hsync, hstart, hev, hend⟩ := h
  have hv : { v with agg := [] } = v := by rw [← hagg]
  have hloop : aggLoop g v.agg v [] = (v, []) := by rw [hagg, aggLoop, hv]
  have hissue : aggWrite g scan v = aggWait [] (aggIssue g v) := by
    simp only [aggWrite, aggAgain, hloop]
    simp [h0, hagg, hsync, hstart, aggFinish, hev]
  rw [hissue]
  refine ⟨(v.writePos, g.markerLen), ?_, fun hin => absurd hin.2 (not_le.mpr hend)⟩
  simp [aggWait, aggIssue, h0]

theorem BInv.congr {g : VolGeom} {v v' : Vol} (h : BInv g v) (hpos : v'.writePos = v.writePos)
    (hbuf : v'.aggBufPos = v.aggBufPos) (hwrites : v'.writes = v.writes) : BInv g v' where
  lo := by
    rw [hpos]
    exact h.lo
  buf := by
    rw [hbuf]
    exact h.buf
  hi := by
    rw [hpos, hbuf]
    exact h.hi
  writes := by
    rw [hwrites]
    exact h.writes

theorem BInv.aggWriteDone {g : VolGeom} {scan : Blocks → Blocks} {ok : Bool} {n : ℕ} {v : Vol} (h : BInv g v) :
    BInv g (aggWriteDone g scan ok n v).1 := by
  have hbuf : (Aggregation.aggWriteDone g scan ok n v).1.aggBufPos = 0 := by
    simp only [Aggregation.aggWriteDone, syncCall]
    split_ifs <;> rfl
  have hwrites : (Aggregation.aggWriteDone g scan ok n v).1.writes = v.writes := by
    simp only [Aggregation.aggWriteDone, syncCall]
    split_ifs <;> rfl
  have hpos : v.writePos ≤ (Aggregation.aggWriteDone g scan ok n v).1.writePos := by
    simp only [Aggregation.aggWriteDone, syncCall, periodicScan]
    split_ifs <;> simp
  refine ⟨h.lo.trans hpos, ?_, fun hne => absurd hbuf hne, ?_⟩
  · rw [hbuf]
    exact Nat.zero_le _
  · rw [hwrites]
    exact h.writes

theorem BInv.enter {g : VolGeom} {cfg : Config} {scan : Blocks → Blocks} {v : Vol} (op : Op) (h : BInv g v) :
    BInv g (enter g cfg scan v op).1 := by
  cases op with
  | handleWrite w =>
    simp only [Aggregation.enter, handleWrite]
    split_ifs
    · exact h
    all_goals exact h.congr rfl rfl rfl
  | aggWriteDone ok =>
    simp only [Aggregation.enter]
    split
    · exact h.aggWriteDone
    · exact h
  | evacReadDone doc =>
    simp only [Aggregation.enter]
    split
    · split_ifs
      · exact h.congr rfl rfl rfl
      · exact h
    · exact h.congr rfl rfl rfl
    · exact h
  | dirSync =>
    simp only [Aggregation.enter]
    split_ifs
    · exact h.congr rfl rfl rfl
    · exact h
  | blocks f => exact h.congr rfl rfl rfl

/-- `MarkerFits` at the call of `aggWrite` in a step, if it makes one -/
def FitsAt (g : VolGeom) (cfg : Config) (v : Vol) (i : Op × (Blocks → Blocks)) : Prop :=
  (enter g cfg i.2 v i.1).2 = true → MarkerFits g (enter g cfg i.2 v i.1).1

instance (g : VolGeom) (cfg : Config) (v : Vol) : DecidablePred (FitsAt g cfg v) := fun _ =>
  inferInstanceAs (Decidable (_ → _))

theorem step_bInv {g : VolGeom} {cfg : Config} {v : Vol} {i : Op × (Blocks → Blocks)} (h : BInv g v)
    (hq : QInv v.agg v []) (hfits : FitsAt g cfg v i) : BInv g (step g cfg v i) := by
  have henter : BInv g (enter g cfg i.2 v i.1).1 := h.enter i.1
  rw [step_eq]
  split_ifs with hcall
  · have hready : Ready g (enter g cfg i.2 v i.1).1 := ⟨henter, (hq.enter i.1).pos, hfits hcall⟩
    exact hready.aggWrite
  · exact henter

theorem step_outside {g : VolGeom} {cfg : Config} {v : Vol} {i : Op × (Blocks → Blocks)} (h : ¬ FitsAt g cfg v i) :
    ¬ InBounds g (step g cfg v i) := by
  unfold FitsAt at h
  push Not at h
  obtain ⟨hcall, hfits⟩ := h
  intro hin
  rw [step_eq, if_pos hcall] at hin
  obtain ⟨w, hw, hout⟩ := aggWrite_outside i.2 hfits
  exact hout (hin.2 w hw)

/-- In a run from start-up all writes stay in the volume and the buffer never overflows, exactly if there is room for the
sync marker whenever one is written. -/
theorem run_writes_inside (g : VolGeom) (cfg : Config) (phase : Bool) (cycle : ℕ) (writePos lastWritePos aggPos : ℤ)
    (writeSerial : ℕ) (evacuate : Blocks) (scanPos : ℤ) (ops : List (Op × (Blocks → Blocks)))
    (hstart : g.start ≤ writePos) :
    let v := init phase cycle writePos lastWritePos aggPos writeSerial evacuate scanPos
    (∀ n, InBounds g (run g cfg v (ops.take n))) ↔ Along (step g cfg) (FitsAt g cfg) v ops := by
  intro v
  have hv : BInv g v := ⟨hstart, Nat.zero_le _, fun hne => absurd rfl hne, fun w hw => absurd hw List.not_mem_nil⟩
  have hq : QInv v.agg v [] := init_qInv phase cycle writePos lastWritePos aggPos writeSerial evacuate scanPos
  have htrue : Along (step g cfg) (fun _ _ => True) v ops := along_of_forall fun _ _ => trivial
  apply along_iff (I := fun v => BInv g v ∧ QInv v.agg v []) _ _ _ htrue ⟨hv, hq⟩
  · exact fun v h => ⟨h.1.buf, h.1.writes⟩
  · exact fun v i h _ hfits => ⟨step_bInv h.1 h.2 hfits, step_qInv i h.2⟩
  · exact fun v i _ _ hfits => step_outside hfits

/-- a volume of 128 MB -/
def geom128 : VolGeom := ⟨4194304, 32768, 134217728, 512, by decide, sector512_dvd⟩

/-- the configuration of an idle cache, and the header of a small document that asks for a sync -/
def config128 : Config := ⟨5242880, 0⟩

def syncWrite : WriteVC := ⟨0, 0, by decide, 100, false, false, true, true, 0, 0⟩

/-- the document is written, then a marker, and then the request is called back -/
def syncOps : List (Op × (Blocks → Blocks)) :=
  [(.handleWrite syncWrite, id), (.aggWriteDone true, id), (.aggWriteDone true, id)]

theorem run_writes_inside_start :
    (∀ n, InBounds geom128 (run geom128 config128 (init false 0 4194304 0 0 0 (fun _ => []) 0) (syncOps.take n))) ∧
      (run geom128 config128 (init false 0 4194304 0 0 0 (fun _ => []) 0) syncOps).writes =
        [(4194816, 512), (4194304, 512)] :=
  ⟨(run_writes_inside geom128 config128 false 0 4194304 0 0 0 (fun _ => []) 0 syncOps (by decide)).mpr (by decide +kernel),
    by decide +kernel⟩

/-- The document fills the volume to its end; the marker is written behind it. -/
theorem marker_past_end :
    geom128.start ≤ 134249984 ∧ 134249984 ≤ geom128.skip + geom128.len ∧
      (run geom128 config128 (init false 0 134249984 0 0 0 (fun _ => []) 0) syncOps).writes =
        [(134250496, 512), (134249984, 512)] ∧
      ¬ InBounds geom128 (run geom128 config128 (init false 0 134249984 0 0 0 (fun _ => []) 0) syncOps) := by
  decide +kernel

end TrafficServer.Cache.Aggregation
