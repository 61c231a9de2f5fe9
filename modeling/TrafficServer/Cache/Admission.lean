/-
Admission to the virtual disk (`openWriteCloseDir` of CacheWrite.cc).

`openWriteCloseDir` is where a write VC ends, however it was closed: after a complete write, after an abort by the client,
after a refused write of a fragment or of the head. With a virtual disk and an alternate set it calls
`vdisk_cache->admit(first_key, vio.nbytes, ..)` there, under the comment that the transfer is finished. It looks neither at
`closed` nor at `io.ok()`, and the size is the one announced in `do_io_write`, not `total_len`.

Result: `run_admits_ok`. In a run whose client keeps to the contract of `do_io_close`, every call of `admit` is for a write that
was closed normally, had no refused write and whose head is on disk, with the number of body bytes written as the size, and
there is at most one, exactly if whenever a VC with an alternate comes to `openWriteCloseDir` with the lock its `closed` is
positive, `io.ok()` holds and `vio.nbytes` is `total_len`. `abort_admitted`: an aborted write of 1000 bytes is admitted with
this size although no byte came.
-/
import TrafficServer.Cache.WriteVCInv

namespace TrafficServer.Cache.WriteVC

open TrafficServer.Run

/-- the write was closed normally, no write was refused, the head is on disk and the size is that of the body -/
def AdmitOk (a : Admit) : Prop := 0 < a.closed ∧ a.ioOk = true ∧ a.head = true ∧ a.size = a.written

instance (a : Admit) : Decidable (AdmitOk a) := inferInstanceAs (Decidable (_ ∧ _))

/-- the calls of `admit` that a VC made -/
def AdmitsOk (v : VC) : Prop := v.admits.length ≤ 1 ∧ ∀ a ∈ v.admits, AdmitOk a

instance (v : VC) : Decidable (AdmitsOk v) := inferInstanceAs (Decidable (_ ∧ _))

/-- a VC with an alternate comes to `openWriteCloseDir` only after a normal close, with no refused write and with all the
announced bytes taken -/
def CloseOk (cfg : Config) (v : VC) : Op → Prop
  | .event _ w =>
    v.handler = .openWriteCloseDir → w.volBusy = false → cfg.vdiskCache = true → v.alternate.isSome →
      0 < v.closed ∧ v.ioOk = true ∧ v.nbytes = v.totalLen
  | _ => True

instance (cfg : Config) (v : VC) : DecidablePred (CloseOk cfg v)
  | .event _ _ => inferInstanceAs (Decidable (_ → _))
  | .setHttpInfo _ _ => isTrue trivial
  | .doIoWrite _ _ => isTrue trivial
  | .setNbytes _ => isTrue trivial
  | .fill _ => isTrue trivial
  | .doIoClose _ _ => isTrue trivial

variable {cfg : Config} {v : VC}

/-- a VC in use has admitted nothing -/
theorem Inv.admits (h : Inv v) : v.admits = [] := by
  have hstage := h.stage
  unfold Stage at hstage
  generalize v.handler = handler at hstage
  cases handler with
  | freed => exact hstage.elim
  | _ => exact hstage.1.1

/-- once the head is written, all bytes taken are written -/
theorem written_eq (hs : Stream v) (hh : HeadOk v) (hhead : v.head.isSome) : v.written = v.totalLen := by
  obtain ⟨d, hd⟩ := Option.isSome_iff_exists.1 hhead
  obtain ⟨rfl, -⟩ := hh d hd
  unfold VC.written VC.docsData
  rw [hd, Option.getD_some, hs.total, hs.taken, List.length_append]

/-- what `openWriteCloseDir` admits under the lock -/
theorem closeDir_admits (cfg : Config) (h : Inv v) {op : Op} (hlast : LastStep v op) :
    (step cfg v op).admits =
      if cfg.vdiskCache = true ∧ v.alternate.isSome then [⟨v.nbytes, v.closed, v.ioOk, v.head.isSome, v.written⟩] else [] := by
  obtain ⟨hdir, aio, w, rfl, hbusy⟩ := hlast
  have hne : v.handler ≠ .freed := by rw [hdir]; decide
  unfold step
  rw [if_neg hne]
  simp only [handleEvent, hdir, VC.openWriteCloseDir, hbusy, h.admits]
  rfl

theorem Inv.closing (h : Inv v) (hdir : v.handler = .openWriteCloseDir) : Closing v := by
  have hstage := h.stage
  simp only [Stage, hdir] at hstage
  exact hstage.1

theorem admitsOk_of_nil (h : v.admits = []) : AdmitsOk v := by
  unfold AdmitsOk
  rw [h]
  exact ⟨Nat.zero_le _, fun a ha => absurd ha List.not_mem_nil⟩

/-- the last step admits rightly if the close was right -/
theorem admits_of_closeOk {op : Op} (h : Inv v) (hlast : LastStep v op) (hclose : CloseOk cfg v op) :
    AdmitsOk (step cfg v op) := by
  have hadmits := closeDir_admits cfg h hlast
  obtain ⟨hdir, aio, w, rfl, hbusy⟩ := hlast
  obtain ⟨-, hhead, hdone⟩ := h.closing hdir
  split_ifs at hadmits with hadmit
  · obtain ⟨hclosed, hok, hbytes⟩ := hclose hdir hbusy hadmit.1 hadmit.2
    have hsome := hdone hclosed hok hadmit.2
    unfold AdmitsOk
    rw [hadmits]
    refine ⟨le_rfl, fun a ha => ?_⟩
    rw [List.mem_singleton.1 ha]
    refine ⟨hclosed, hok, hsome, ?_⟩
    rw [written_eq h.stream hhead hsome]
    exact hbytes
  · exact admitsOk_of_nil hadmits

/-- a close that was not right is admitted all the same -/
theorem not_admitsOk {op : Op} (h : Inv v) (hclose : ¬ CloseOk cfg v op) : ¬ AdmitsOk (step cfg v op) := by
  cases op with
  | event aio w =>
    simp only [CloseOk] at hclose
    push Not at hclose
    obtain ⟨hdir, hbusy, hvdisk, halt, hbad⟩ := hclose
    have hadmits := closeDir_admits cfg h ⟨hdir, aio, w, rfl, hbusy⟩
    rw [if_pos ⟨hvdisk, halt⟩] at hadmits
    obtain ⟨-, hhead, -⟩ := h.closing hdir
    intro hok
    obtain ⟨hclosed, hio, hsome, hsize⟩ := hok.2 _ (hadmits ▸ List.mem_singleton_self _)
    have hsize' : v.nbytes = (v.written : ℤ) := hsize
    rw [written_eq h.stream hhead hsome] at hsize'
    exact hbad hclosed hio hsize'
  | setHttpInfo size allowEmptyDoc => exact absurd trivial hclose
  | doIoWrite nbytes buffer => exact absurd trivial hclose
  | setNbytes nbytes => exact absurd trivial hclose
  | fill data => exact absurd trivial hclose
  | doIoClose alerrno w => exact absurd trivial hclose

/-- **Admissions of a write VC.** In a run whose client does not use the VC after closing it, every admission is for a
complete write with its size, and there is at most one, exactly if every VC with an alternate comes to `openWriteCloseDir`
after a normal close, with no refused write and with the announced bytes taken. -/
theorem run_admits_ok (cfg : Config) (update http closeComplete : Bool) (key updateKey : CacheKey) (updateLen : ℕ)
    (ops : List Op)
    (hclient : Along (step cfg) ClientOk (init update http closeComplete key updateKey updateLen) ops) :
    (∀ n, AdmitsOk (run cfg (init update http closeComplete key updateKey updateLen) (ops.take n))) ↔
      Along (step cfg) (CloseOk cfg) (init update http closeComplete key updateKey updateLen) ops := by
  have hinit := init_inv update http closeComplete key updateKey updateLen
  apply along_iff (I := fun v => RunInv v ∧ AdmitsOk v) _ _ _ hclient ⟨Or.inl hinit, admitsOk_of_nil rfl⟩
  · exact fun v h => h.2
  · rintro v op ⟨h, hadmits⟩ hc hclose
    refine ⟨step_inv cfg v op h hc, ?_⟩
    rcases h with h | h
    · rcases step_cases cfg op h hc with h' | ⟨hlast, -⟩
      · exact admitsOk_of_nil h'.admits
      · exact admits_of_closeOk h hlast hclose
    · rw [h.step cfg op]
      exact hadmits
  · rintro v op ⟨h | h, -⟩ hc hclose
    · exact not_admitsOk h hclose
    · -- a freed VC does not come to `openWriteCloseDir`
      exfalso
      apply hclose
      cases op with
      | event aio w => exact fun hdir => absurd (h.handler.symm.trans hdir) (by decide)
      | setHttpInfo size allowEmptyDoc => exact trivial
      | doIoWrite nbytes buffer => exact trivial
      | setNbytes nbytes => exact trivial
      | fill data => exact trivial
      | doIoClose alerrno w => exact trivial

/-! ## Two runs -/

/-- the default fragment size, with a virtual disk -/
def vdiskConfig : Config := ⟨1048576, true, by decide⟩

def keyZero : CacheKey := ⟨fun _ => 0⟩

/-- no lock is missed and nothing is in the vector -/
def calm : World := ⟨false, false, false, none, none⟩

/-- three bytes, closed in the callback that asks for no more, written with the head -/
def smallWrite : List Op :=
  [.setHttpInfo 0 false, .doIoWrite 3 [7, 8, 9], .event none calm, .doIoClose (-1) calm, .event none calm,
    .event (some true) calm, .event none calm]

theorem run_admits_ok_small_write :
    Along (step vdiskConfig) ClientOk (init false true false keyZero keyZero 0) smallWrite ∧
      (run vdiskConfig (init false true false keyZero keyZero 0) smallWrite).admits.map Admit.size = [3] ∧
      ∀ n, AdmitsOk (run vdiskConfig (init false true false keyZero keyZero 0) (smallWrite.take n)) := by
  have hclient : Along (step vdiskConfig) ClientOk (init false true false keyZero keyZero 0) smallWrite := by decide +kernel
  refine ⟨hclient, by decide +kernel, ?_⟩
  exact (run_admits_ok vdiskConfig false true false keyZero keyZero 0 smallWrite hclient).2 (by decide +kernel)

/-- a write of 1000 bytes that the client aborts before any byte comes is admitted as an object of 1000 bytes -/
theorem abort_admitted :
    let ops : List Op := [.setHttpInfo 0 false, .doIoWrite 1000 [], .doIoClose 1 calm, .event none calm]
    let v := run vdiskConfig (init false true false keyZero keyZero 0) ops
    Along (step vdiskConfig) ClientOk (init false true false keyZero keyZero 0) ops ∧
      v.admits.map Admit.size = [1000] ∧ v.written = 0 ∧ v.closed = -1 ∧ ¬ AdmitsOk v := by
  decide +kernel

end TrafficServer.Cache.WriteVC
