/-
The accounting of the aggregation queue.

`agg_todo_size` is an `int` that `handleWrite` and `evacuateWrite` add to and `aggWrite` takes from; it decides when writes
are refused. `QInv` says that it is the length of the queue in bytes, and that each request ever put on the queue is in
one place: on the queue, waiting for a sync, about to be called back, or called back. It holds between the statements of
`aggWrite`, with the requests `t` that it has collected but not yet called. `Later` compares two states of one run.

Results: `run_queue_ok`, for every reachable state.
-/
import Mathlib
import TrafficServer.Cache.Aggregation

namespace TrafficServer.Cache.Aggregation

/-! ## Accounting -/

/-- the total length of some requests -/
def total (q : List Req) : ℕ := (q.map Req.aggLen).sum

@[simp] theorem total_nil : total [] = 0 := rfl

@[simp] theorem total_cons (c : Req) (q : List Req) : total (c :: q) = c.aggLen + total q := by simp [total]

@[simp] theorem total_append (p q : List Req) : total (p ++ q) = total p + total q := by simp [total]

theorem int32_sub (x : ℤ) (y : ℤ) : int32 (int32 x - y) = int32 (x - y) := Int.bmod_sub_bmod

theorem int32_add (x : ℤ) (y : ℤ) : int32 (int32 x + y) = int32 (x + y) := Int.bmod_add_bmod

theorem int32_idem (x : ℤ) : int32 (int32 x) = int32 x := Int.bmod_bmod

theorem int32_of_lt {n : ℕ} (h : n < 2 ^ 31) : int32 n = n := by
  unfold int32
  apply Int.bmod_eq_of_le
  · push_cast; omega
  · push_cast; omega

theorem syncInsert_perm (c : Req) (l : List Req) : (syncInsert c l).Perm (c :: l) := by
  let p : Req → Bool := fun x => UINT_WRAP_LT c.writeSerial x.writeSerial
  have hsplit : (l.reverse.dropWhile p).reverse ++ (l.reverse.takeWhile p).reverse = l := by
    calc (l.reverse.dropWhile p).reverse ++ (l.reverse.takeWhile p).reverse
        = (l.reverse.takeWhile p ++ l.reverse.dropWhile p).reverse := List.reverse_append.symm
      _ = l.reverse.reverse := by rw [List.takeWhile_append_dropWhile]
      _ = l := List.reverse_reverse l
  have hmid : (syncInsert c l).Perm (c :: ((l.reverse.dropWhile p).reverse ++ (l.reverse.takeWhile p).reverse)) :=
    List.perm_middle
  rwa [hsplit] at hmid

/-! ## The accounting invariant -/

/-- the numbers of all requests that are queued (in `q`), waiting for a sync, about to be called back or called back -/
def allIds (q : List Req) (v : Vol) (t : List Req) : List ℕ :=
  q.map Req.id ++ v.sync.map Req.id ++ t.map Req.id ++ v.called

/-- the accounting of the queue `q`, while `aggWrite` holds the requests `t` that it has yet to call back -/
structure QInv (q : List Req) (v : Vol) (t : List Req) : Prop where
  todo : v.aggTodoSize = int32 (total q)
  ids : (allIds q v t).Perm (List.range v.nextId)
  vcs : ((q ++ v.sync ++ t).map Req.vc).Nodup
  unbuffered : ∀ c ∈ q, c.id ∉ v.buffered
  old : ∀ i ∈ v.buffered, i < v.nextId
  pos : ∀ c ∈ q, 0 < c.aggLen
  held : v.aggBufPos = 0 → t = []

/-- a request is copied into the buffer -/
theorem QInv.take {c : Req} {q t t' : List Req} {v v' : Vol} (h : QInv (c :: q) v t)
    (htodo : v'.aggTodoSize = int32 (v.aggTodoSize - c.aggLen)) (hnext : v'.nextId = v.nextId)
    (hids : (allIds q v' t').Perm (allIds (c :: q) v t))
    (hvcs : ∀ x, ((q ++ v'.sync ++ t').map Req.vc).count x ≤ (((c :: q) ++ v.sync ++ t).map Req.vc).count x)
    (hbuffered : v'.buffered = c.id :: v.buffered) (hbuf : v'.aggBufPos = v.aggBufPos + c.aggLen) : QInv q v' t' where
  todo := by
    rw [htodo, h.todo, int32_sub, total_cons]
    congr 1
    push_cast
    ring
  ids := by
    rw [hnext]
    exact hids.trans h.ids
  vcs := List.nodup_iff_count_le_one.mpr fun x => (hvcs x).trans (List.nodup_iff_count_le_one.mp h.vcs x)
  unbuffered := by
    intro d hd hmem
    rw [hbuffered] at hmem
    rcases List.mem_cons.mp hmem with heq | hmem
    · have hnodup : (allIds (c :: q) v t).Nodup := h.ids.nodup_iff.mpr List.nodup_range
      simp only [allIds, List.map_cons, List.cons_append, List.nodup_cons] at hnodup
      apply hnodup.1
      rw [← heq]
      simp only [List.mem_append]
      exact Or.inl (Or.inl (Or.inl (List.mem_map_of_mem hd)))
    · exact h.unbuffered d (List.mem_cons_of_mem _ hd) hmem
  old := by
    intro i hi
    rw [hnext]
    rw [hbuffered] at hi
    rcases List.mem_cons.mp hi with rfl | hi
    · exact List.mem_range.mp (h.ids.mem_iff.mp (by simp [allIds]))
    · exact h.old i hi
  pos := fun d hd => h.pos d (List.mem_cons_of_mem _ hd)
  held := by
    intro h0
    have := h.pos c List.mem_cons_self
    omega

theorem QInv.loop {g : VolGeom} {q t : List Req} {v : Vol} (h : QInv q v t) :
    QInv (aggLoop g q v t).1.agg (aggLoop g q v t).1 (aggLoop g q v t).2 := by
  induction q generalizing v t with
  | nil => exact ⟨h.todo, h.ids, h.vcs, h.unbuffered, h.old, h.pos, h.held⟩
  | cons c q ih =>
    simp only [aggLoop]
    split_ifs with hfull hsync hevac
    · exact ⟨h.todo, h.ids, h.vcs, h.unbuffered, h.old, h.pos, h.held⟩
    · -- the request waits in `sync`
      have hperm := syncInsert_perm { c with writeSerial := v.writeSerial } v.sync
      apply ih
      refine h.take rfl rfl (List.perm_iff_count.mpr fun x => ?_) (fun x => ?_) rfl rfl
      · have := (hperm.map Req.id).count_eq x
        simp only [allIds, List.count_append, List.map_cons, List.count_cons] at this ⊢
        omega
      · have := (hperm.map Req.vc).count_eq x
        simp only [List.map_append, List.count_append, List.map_cons, List.count_cons] at this ⊢
        omega
    · -- an evacuator is called at once
      apply ih
      refine h.take rfl rfl (List.perm_iff_count.mpr fun x => ?_) (fun x => ?_) rfl rfl
      · simp only [allIds, List.count_append, List.map_cons, List.count_cons]
        omega
      · simp only [List.map_append, List.count_append, List.map_cons, List.count_cons]
        omega
    · apply ih
      refine h.take rfl rfl (List.perm_iff_count.mpr fun x => ?_) (fun x => ?_) rfl rfl
      · simp only [allIds, List.count_append, List.map_append, List.map_cons, List.map_nil, List.count_cons,
          List.count_nil]
        omega
      · simp only [List.map_append, List.count_append, List.map_cons, List.map_nil, List.count_cons, List.count_nil]
        omega

/-- `QInv` reads eight fields -/
theorem QInv.congr {q t : List Req} {v v' : Vol} (h : QInv q v t) (htodo : v'.aggTodoSize = v.aggTodoSize)
    (hnext : v'.nextId = v.nextId) (hsync : v'.sync = v.sync) (hcalled : v'.called = v.called)
    (hbuffered : v'.buffered = v.buffered) (hbuf : v'.aggBufPos = 0 → v.aggBufPos = 0) : QInv q v' t where
  todo := htodo.trans h.todo
  ids := by
    simp only [allIds, hsync, hcalled, hnext]
    exact h.ids
  vcs := by
    rw [hsync]
    exact h.vcs
  unbuffered := by
    rw [hbuffered]
    exact h.unbuffered
  old := by
    rw [hbuffered, hnext]
    exact h.old
  pos := h.pos
  held := fun h0 => h.held (hbuf h0)

theorem QInv.finish {g : VolGeom} {t : List Req} {v : Vol} (h : QInv v.agg v t) :
    QInv (aggFinish g v).agg (aggFinish g v) t := by
  rcases aggFinish_cases g v with ⟨e, o, n, heq⟩ | ⟨heq, -⟩ | ⟨heq, -⟩
  · rw [heq]
    exact h.congr rfl rfl rfl rfl rfl id
  · rw [heq]
    exact h
  · rw [heq]
    show QInv v.agg (aggIssue g v) t
    refine h.congr rfl rfl rfl rfl rfl ?_
    intro h0
    by_contra hne
    simp only [aggIssue, hne, if_false] at h0

theorem QInv.wait {t : List Req} {v : Vol} (h : QInv v.agg v t) : QInv (aggWait t v).agg (aggWait t v) [] where
  todo := h.todo
  ids := by
    refine (List.perm_iff_count.mpr fun x => ?_).trans h.ids
    simp only [allIds, aggWait, List.map_nil, List.count_append, List.count_nil]
    omega
  vcs := by
    have hsub : (v.agg ++ v.sync ++ []).Sublist (v.agg ++ v.sync ++ t) := by simp
    exact h.vcs.sublist (hsub.map Req.vc)
  unbuffered := h.unbuffered
  old := h.old
  pos := h.pos
  held := fun _ => rfl

theorem QInv.punt {t : List Req} {v : Vol} (h : QInv v.agg v t) (h0 : v.aggBufPos = 0) :
    QInv (aggPunt v).agg (aggPunt v) [] where
  todo := by
    simp only [aggPunt, h.todo, int32_sub, total_nil]
    congr 1
    simp [total]
  ids := by
    refine (List.perm_iff_count.mpr fun x => ?_).trans h.ids
    simp only [allIds, aggPunt, h.held h0, List.map_nil, List.count_append, List.count_nil]
    omega
  vcs := by
    have hsub : (([] : List Req) ++ v.sync ++ []).Sublist (v.agg ++ v.sync ++ t) := by simp [List.append_assoc]
    exact h.vcs.sublist (hsub.map Req.vc)
  unbuffered := by simp [aggPunt]
  old := h.old
  pos := by simp [aggPunt]
  held := fun _ => rfl

theorem QInv.aggWrite {g : VolGeom} {scan : Blocks → Blocks} {v : Vol} (h : QInv v.agg v []) :
    QInv (aggWrite g scan v).agg (aggWrite g scan v) [] := by
  refine aggAgain_rule (P := fun v t => QInv v.agg v t) (Q := fun v => QInv v.agg v [])
    ?_ ?_ ?_ ?_ ?_ ?_ 2 v [] h
  · exact fun v t h => h.loop
  · intro v t h h0 _
    have ht := h.held h0
    rwa [ht] at h
  · exact fun v t h h0 => h.punt h0
  · exact fun v t h _ _ => h.congr rfl rfl rfl rfl rfl id
  · exact fun v t h _ => h.finish.wait
  · exact fun v t h => h.wait

/-! ## The accounting along a run -/

theorem QInv.enqueue {v : Vol} {agg : List Req} {c : Req} {aggLen : ℕ} (h : QInv v.agg v [])
    (hagg : agg.Perm (c :: v.agg)) (hid : c.id = v.nextId) (hvc : c.vc ∉ waiting v) (hlen : c.aggLen = aggLen)
    (hpos : 0 < aggLen) : QInv agg (enqueue v agg aggLen) [] where
  todo := by
    have htotal : total agg = aggLen + total v.agg := by
      rw [← hlen]
      exact ((hagg.map Req.aggLen).sum_eq).trans (total_cons c v.agg)
    simp only [Aggregation.enqueue, h.todo, int32_add, htotal]
    congr 1
    push_cast
    ring
  ids := by
    have hmap := hagg.map Req.id
    have hold : (v.nextId :: allIds v.agg v []).Perm (List.range v.nextId ++ [v.nextId]) :=
      (h.ids.cons v.nextId).trans (List.perm_append_singleton _ _).symm
    simp only [Aggregation.enqueue, List.range_succ]
    refine (List.perm_iff_count.mpr fun x => ?_).trans hold
    have hcount := hmap.count_eq x
    simp only [allIds, List.map_cons, List.map_nil, List.count_append, List.count_cons, hid] at hcount ⊢
    omega
  vcs := by
    have hnodup : ((c :: (v.agg ++ v.sync)).map Req.vc).Nodup := by
      have hold : ((v.agg ++ v.sync).map Req.vc).Nodup := by simpa using h.vcs
      exact List.nodup_cons.mpr ⟨hvc, hold⟩
    have hperm : (agg ++ v.sync ++ []).Perm (c :: (v.agg ++ v.sync)) := by simpa using hagg.append_right v.sync
    exact (hperm.map Req.vc).nodup_iff.mpr hnodup
  unbuffered := by
    intro d hd
    rcases List.mem_cons.mp (hagg.mem_iff.mp hd) with rfl | hd
    · intro hmem
      exact absurd (h.old d.id hmem) (by omega)
    · exact h.unbuffered d hd
  old := fun i hi => Nat.lt_succ_of_lt (h.old i hi)
  pos := by
    intro d hd
    rcases List.mem_cons.mp (hagg.mem_iff.mp hd) with rfl | hd
    · omega
    · exact h.pos d hd
  held := fun _ => rfl

theorem QInv.handleWrite {g : VolGeom} {cfg : Config} {w : WriteVC} {v : Vol} (h : QInv v.agg v [])
    (hvc : w.vc ∉ waiting v) : QInv (handleWrite g cfg w v).1.agg (handleWrite g cfg w v).1 [] := by
  simp only [Aggregation.handleWrite]
  split_ifs with herr hfront
  · refine h.congr ?_ rfl rfl rfl rfl id
    calc int32 (int32 (v.aggTodoSize + _) - _) = int32 v.aggTodoSize := by rw [int32_sub, add_sub_cancel_right]
      _ = int32 (int32 (total v.agg)) := by rw [h.todo]
      _ = v.aggTodoSize := by rw [int32_idem, h.todo]
  all_goals
    have hsmall : w.headerLen + sizeofDoc ≤ MAX_FRAG_SIZE := by
      by_contra hbig
      exact herr (Or.inl (Or.inr (Or.inl (by omega))))
    have hle := w.writeLen_le
    simp only [MAX_FRAG_SIZE, AGG_SIZE, sizeofDoc] at hsmall hle
    have hmod : (w.writeLen + w.headerLen + sizeofDoc) % 2 ^ 32 = w.writeLen + w.headerLen + sizeofDoc :=
      Nat.mod_eq_of_lt (by simp only [sizeofDoc]; omega)
    have hge := g.roundToApproxSize_ge (l := w.writeLen + w.headerLen + sizeofDoc) (by simp only [sizeofDoc]; omega)
    have hpos : 0 < g.roundToApproxSize ((w.writeLen + w.headerLen + sizeofDoc) % 2 ^ 32) := by
      rw [hmod]
      exact lt_of_lt_of_le (by simp only [sizeofDoc]; omega) hge
  · exact h.enqueue (List.Perm.refl _) rfl hvc rfl hpos
  · exact h.enqueue (List.perm_append_singleton _ _) rfl hvc rfl hpos

theorem evacuators_perm (c : Req) (q : List Req) :
    (q.takeWhile Req.evacuator ++ c :: q.dropWhile Req.evacuator).Perm (c :: q) := by
  refine List.perm_middle.trans ?_
  rw [List.takeWhile_append_dropWhile]

theorem QInv.evacuateWrite {g : VolGeom} {vc docLen : ℕ} {v : Vol} (h : QInv v.agg v []) (hvc : vc ∉ waiting v)
    (hmin : sizeofDoc ≤ docLen) (hmax : docLen ≤ AGG_SIZE) :
    QInv (evacuateWrite g vc docLen v).agg (evacuateWrite g vc docLen v) [] := by
  have hpos : 0 < g.roundToApproxSize docLen := by
    have hge := g.roundToApproxSize_ge (l := docLen) (by simp only [AGG_SIZE] at hmax; omega)
    simp only [sizeofDoc] at hmin
    omega
  exact h.enqueue (evacuators_perm _ _) rfl hvc rfl hpos

theorem syncReady_append (n : ℕ) (l : List Req) : syncReady n l ++ l.drop (syncReady n l).length = l :=
  List.prefix_iff_eq_append.mp (List.takeWhile_prefix _)

theorem QInv.syncCall {v : Vol} (h : QInv v.agg v []) : QInv (syncCall v).agg (syncCall v) [] where
  todo := h.todo
  ids := by
    refine (List.perm_iff_count.mpr fun x => ?_).trans h.ids
    have hsplit := congrArg (fun l => (l.map Req.id).count x) (syncReady_append v.writeSerial v.sync)
    simp only [List.map_append, List.count_append] at hsplit
    simp only [allIds, Aggregation.syncCall, List.count_append]
    omega
  vcs := by
    have hsub : (v.agg ++ v.sync.drop (syncReady v.writeSerial v.sync).length ++ []).Sublist (v.agg ++ v.sync ++ []) :=
      ((List.Sublist.refl _).append (List.drop_sublist _ _)).append (List.Sublist.refl _)
    exact h.vcs.sublist (hsub.map Req.vc)
  unbuffered := h.unbuffered
  old := h.old
  pos := h.pos
  held := fun _ => rfl

/-- the buffer is empty again -/
theorem QInv.flushed {v v' : Vol} (h : QInv v.agg v []) (hagg : v'.agg = v.agg) (htodo : v'.aggTodoSize = v.aggTodoSize)
    (hnext : v'.nextId = v.nextId) (hsync : v'.sync = v.sync) (hcalled : v'.called = v.called)
    (hbuffered : v'.buffered = []) : QInv v'.agg v' [] where
  todo := by rw [htodo, hagg, h.todo]
  ids := by
    simp only [allIds, hagg, hsync, hcalled, hnext]
    exact h.ids
  vcs := by
    rw [hagg, hsync]
    exact h.vcs
  unbuffered := by simp [hbuffered]
  old := by simp [hbuffered]
  pos := by
    rw [hagg]
    exact h.pos
  held := fun _ => rfl

theorem QInv.aggWriteDone {g : VolGeom} {scan : Blocks → Blocks} {ok : Bool} {n : ℕ} {v : Vol} (h : QInv v.agg v []) :
    QInv (aggWriteDone g scan ok n v).1.agg (aggWriteDone g scan ok n v).1 [] := by
  simp only [Aggregation.aggWriteDone]
  refine (QInv.syncCall (h.flushed ?_ ?_ ?_ ?_ ?_ ?_)).congr rfl rfl rfl rfl rfl id
  all_goals (split_ifs <;> rfl)

theorem QInv.enter {g : VolGeom} {cfg : Config} {scan : Blocks → Blocks} {v : Vol} (op : Op) (h : QInv v.agg v []) :
    QInv (enter g cfg scan v op).1.agg (enter g cfg scan v op).1 [] := by
  cases op with
  | handleWrite w =>
    simp only [Aggregation.enter]
    split_ifs with hvc
    · exact h
    · exact h.handleWrite hvc
  | aggWriteDone ok =>
    simp only [Aggregation.enter]
    split
    · exact h.aggWriteDone
    · exact h
  | evacReadDone doc =>
    have hio : QInv v.agg { v with io := none } [] := h.congr rfl rfl rfl rfl rfl id
    simp only [Aggregation.enter]
    split
    · split_ifs with hdoc
      · exact hio.evacuateWrite hdoc.1 hdoc.2.1 hdoc.2.2.1
      · exact h
    · exact hio
    · exact h
  | dirSync =>
    simp only [Aggregation.enter]
    split_ifs
    · exact h.congr rfl rfl rfl rfl rfl id
    · exact h
  | blocks f => exact h.congr rfl rfl rfl rfl rfl id

theorem step_qInv {g : VolGeom} {cfg : Config} {v : Vol} (i : Op × (Blocks → Blocks)) (h : QInv v.agg v []) :
    QInv (step g cfg v i).agg (step g cfg v i) [] := by
  have henter : QInv (enter g cfg i.2 v i.1).1.agg (enter g cfg i.2 v i.1).1 [] := h.enter i.1
  rw [step_eq]
  split_ifs
  · exact henter.aggWrite
  · exact henter

theorem run_qInv {g : VolGeom} {cfg : Config} {v : Vol} (ops : List (Op × (Blocks → Blocks))) (h : QInv v.agg v []) :
    QInv (run g cfg v ops).agg (run g cfg v ops) [] := by
  induction ops generalizing v with
  | nil => exact h
  | cons i ops ih => exact ih (step_qInv i h)

/-- what a later state keeps: the queue gains only new requests, and calls are not taken back -/
structure Later (v v' : Vol) : Prop where
  next : v.nextId ≤ v'.nextId
  queue : ∀ c ∈ v'.agg, c ∈ v.agg ∨ v.nextId ≤ c.id
  called : v.called <:+ v'.called

namespace Later

theorem refl (v : Vol) : Later v v := ⟨le_rfl, fun _ hc => Or.inl hc, List.suffix_refl _⟩

theorem trans {v v' v'' : Vol} (h : Later v v') (h' : Later v' v'') : Later v v'' where
  next := h.next.trans h'.next
  queue := by
    intro c hc
    rcases h'.queue c hc with hc | hnew
    · exact h.queue c hc
    · exact Or.inr (h.next.trans hnew)
  called := h.called.trans h'.called

theorem loop (g : VolGeom) (q : List Req) (v : Vol) (t : List Req) :
    (∀ c ∈ (aggLoop g q v t).1.agg, c ∈ q) ∧ v.called <:+ (aggLoop g q v t).1.called := by
  induction q generalizing v t with
  | nil => exact ⟨fun c hc => hc, List.suffix_refl _⟩
  | cons c q ih =>
    simp only [aggLoop]
    split_ifs with hfull hsync hevac
    · exact ⟨fun d hd => hd, List.suffix_refl _⟩
    · obtain ⟨hagg, hcalled⟩ := ih
        { v with
          aggTodoSize := int32 (v.aggTodoSize - c.aggLen), aggBufPos := v.aggBufPos + c.aggLen,
          buffered := c.id :: v.buffered, sync := syncInsert { c with writeSerial := v.writeSerial } v.sync } t
      exact ⟨fun d hd => List.mem_cons_of_mem _ (hagg d hd), hcalled⟩
    · obtain ⟨hagg, hcalled⟩ := ih
        { v with
          aggTodoSize := int32 (v.aggTodoSize - c.aggLen), aggBufPos := v.aggBufPos + c.aggLen,
          buffered := c.id :: v.buffered, called := c.id :: v.called } t
      exact ⟨fun d hd => List.mem_cons_of_mem _ (hagg d hd), (List.suffix_cons _ _).trans hcalled⟩
    · obtain ⟨hagg, hcalled⟩ := ih
        { v with
          aggTodoSize := int32 (v.aggTodoSize - c.aggLen), aggBufPos := v.aggBufPos + c.aggLen,
          buffered := c.id :: v.buffered } (t ++ [c])
      exact ⟨fun d hd => List.mem_cons_of_mem _ (hagg d hd), hcalled⟩

theorem aggWrite (g : VolGeom) (scan : Blocks → Blocks) (v : Vol) : Later v (aggWrite g scan v) := by
  have hwait : ∀ w t, Later v w → Later v (aggWait t w) := fun w t h =>
    ⟨h.next, h.queue, h.called.trans (List.suffix_append _ _)⟩
  refine aggAgain_rule (P := fun w _ => Later v w) (Q := fun w => Later v w) ?_ ?_ ?_ ?_ ?_ ?_ 2 v [] (refl v)
  · intro w t h
    obtain ⟨hagg, hcalled⟩ := loop g w.agg w t
    refine h.trans ⟨?_, fun c hc => Or.inl (hagg c hc), hcalled⟩
    exact (aggLoop_frame g w.agg w t).2.2.2.ge
  · exact fun w t h _ _ => h
  · exact fun w t h _ => ⟨h.next, fun c hc => absurd hc List.not_mem_nil, h.called.trans (List.suffix_append _ _)⟩
  · exact fun w t h _ _ => ⟨h.next, h.queue, h.called⟩
  · intro w t h _
    apply hwait
    rcases aggFinish_cases g w with ⟨e, o, n, heq⟩ | ⟨heq, -⟩ | ⟨heq, -⟩
    · rw [heq]
      exact ⟨h.next, h.queue, h.called⟩
    · rw [heq]
      exact h
    · rw [heq]
      exact ⟨h.next, h.queue, h.called⟩
  · exact hwait

theorem enqueue {v : Vol} {agg : List Req} {c : Req} (aggLen : ℕ) (hagg : agg.Perm (c :: v.agg))
    (hid : c.id = v.nextId) : Later v (enqueue v agg aggLen) where
  next := Nat.le_succ _
  queue := by
    intro d hd
    rcases List.mem_cons.mp (hagg.mem_iff.mp hd) with rfl | hd
    · exact Or.inr hid.ge
    · exact Or.inl hd
  called := List.suffix_refl _

theorem enter (g : VolGeom) (cfg : Config) (scan : Blocks → Blocks) (v : Vol) (op : Op) :
    Later v (enter g cfg scan v op).1 := by
  have hsame : ∀ w : Vol, w.nextId = v.nextId → w.agg = v.agg → v.called <:+ w.called → Later v w := by
    intro w hnext hagg hcalled
    exact ⟨hnext.ge, fun c hc => Or.inl (hagg ▸ hc), hcalled⟩
  cases op with
  | handleWrite w =>
    simp only [Aggregation.enter, handleWrite]
    split_ifs
    · exact refl v
    · exact hsame _ rfl rfl (List.suffix_refl _)
    · exact enqueue _ (List.Perm.refl _) rfl
    · exact enqueue _ (List.perm_append_singleton _ _) rfl
  | aggWriteDone ok =>
    simp only [Aggregation.enter]
    split
    · apply hsame
      · simp only [aggWriteDone, syncCall]; split_ifs <;> rfl
      · simp only [aggWriteDone, syncCall]; split_ifs <;> rfl
      · have hcalled : ∀ w : Vol, w.called = v.called → v.called <:+ (syncCall w).called := by
          intro w hw
          rw [← hw]
          exact List.suffix_append _ _
        simp only [aggWriteDone]
        apply hcalled
        split_ifs <;> rfl
    · exact refl v
  | evacReadDone doc =>
    simp only [Aggregation.enter]
    split
    · split_ifs
      · refine (hsame { v with io := none } rfl rfl (List.suffix_refl _)).trans (enqueue _ (evacuators_perm _ _) rfl)
      · exact refl v
    · exact hsame _ rfl rfl (List.suffix_refl _)
    · exact refl v
  | dirSync =>
    simp only [Aggregation.enter]
    split_ifs
    · exact hsame _ rfl rfl (List.suffix_refl _)
    · exact refl v
  | blocks f => exact hsame _ rfl rfl (List.suffix_refl _)

theorem step (g : VolGeom) (cfg : Config) (v : Vol) (i : Op × (Blocks → Blocks)) : Later v (step g cfg v i) := by
  rw [step_eq]
  split_ifs
  · exact (enter g cfg i.2 v i.1).trans (aggWrite g i.2 _)
  · exact enter g cfg i.2 v i.1

theorem run (g : VolGeom) (cfg : Config) (v : Vol) (ops : List (Op × (Blocks → Blocks))) : Later v (run g cfg v ops) := by
  induction ops generalizing v with
  | nil => exact refl v
  | cons i ops ih => exact (step g cfg v i).trans (ih _)

end Later

/-- the queue of a volume: its length in bytes, and that each request put on it is in one place -/
structure QueueOk (v : Vol) : Prop where
  todo : v.aggTodoSize = int32 (total v.agg)
  todo_exact : total v.agg < 2 ^ 31 → v.aggTodoSize = total v.agg
  /-- each request was put on the queue once and is there, or waits for its sync, or was called back, once -/
  once : (v.agg.map Req.id ++ v.sync.map Req.id ++ v.called).Perm (List.range v.nextId)
  vcs : (waiting v).Nodup
  unbuffered : ∀ c ∈ v.agg, c.id ∉ v.buffered

theorem init_qInv (phase : Bool) (cycle : ℕ) (writePos lastWritePos aggPos : ℤ) (writeSerial : ℕ) (evacuate : Blocks)
    (scanPos : ℤ) :
    let v := init phase cycle writePos lastWritePos aggPos writeSerial evacuate scanPos
    QInv v.agg v [] where
  todo := (int32_of_lt (n := 0) (by norm_num)).symm
  ids := List.Perm.refl _
  vcs := List.nodup_nil
  unbuffered := fun _ hc => absurd hc List.not_mem_nil
  old := fun _ hi => absurd hi List.not_mem_nil
  pos := fun _ hc => absurd hc List.not_mem_nil
  held := fun _ => rfl

theorem QInv.queueOk {v : Vol} (h : QInv v.agg v []) : QueueOk v where
  todo := h.todo
  todo_exact := fun hlt => h.todo.trans (int32_of_lt hlt)
  once := by simpa [allIds] using h.ids
  vcs := by simpa [waiting] using h.vcs
  unbuffered := h.unbuffered

/-- The queue is accounted for in every reachable state, and a request that has left it never comes back. -/
theorem run_queue_ok (g : VolGeom) (cfg : Config) (phase : Bool) (cycle : ℕ) (writePos lastWritePos aggPos : ℤ)
    (writeSerial : ℕ) (evacuate : Blocks) (scanPos : ℤ) (ops : List (Op × (Blocks → Blocks))) :
    let v := run g cfg (init phase cycle writePos lastWritePos aggPos writeSerial evacuate scanPos) ops
    QueueOk v ∧
      ∀ more, v.called <:+ (run g cfg v more).called ∧
        ∀ i < v.nextId, i ∉ v.agg.map Req.id → i ∉ (run g cfg v more).agg.map Req.id := by
  intro v
  refine ⟨(run_qInv ops (init_qInv phase cycle writePos lastWritePos aggPos writeSerial evacuate scanPos)).queueOk, ?_⟩
  intro more
  have hlater := Later.run g cfg v more
  refine ⟨hlater.called, ?_⟩
  intro i hi hout hin
  obtain ⟨c, hc, rfl⟩ := List.mem_map.mp hin
  rcases hlater.queue c hc with hc | hnew
  · exact hout (List.mem_map_of_mem hc)
  · omega

end TrafficServer.Cache.Aggregation
