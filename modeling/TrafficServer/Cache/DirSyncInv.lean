/-
The progress of directory syncs, in every run.

`landed` is how much of the current snapshot is on disk. `Inv` says that a sync or recovery has overwritten just that much of
its copy, also in runs with failed writes; `Sound` that the other copy is complete meanwhile. The functions of the model
are taken apart once, by `restart_cases`, `mainEvent_cases` and `aioDone_cases`.
-/
import Mathlib
import TrafficServer.Cache.DirSync

namespace TrafficServer.Cache.DirSync

/-! ## Progress of a snapshot -/

theorem copyOf_succ {n m : ℕ} (h : n % 2 ≠ m % 2) : copyOf n = !copyOf m := by
  unfold copyOf
  rcases Nat.mod_two_eq_zero_or_one n with hn | hn <;> rcases Nat.mod_two_eq_zero_or_one m with hm | hm
  all_goals simp [hn, hm] at h ⊢

theorem nextSerial_parity (n : ℕ) : nextSerial n % 2 ≠ n % 2 := by
  unfold nextSerial
  omega

theorem recoverSerial_parity (n doc : ℕ) : recoverSerial n doc % 2 ≠ n % 2 := by
  simp only [recoverSerial]
  split_ifs <;> omega

/-- the bytes of the snapshot `buf` that are on disk, while there is one being written -/
def landed (v : Vol) : Option ℕ :=
  match v.stage, v.io with
  | .running, none => if v.writepos = 0 then none else some v.writepos
  | .running, some a => some a.pos
  | .recovering, some a => some a.pos
  | _, _ => none

structure Inv (L : Layout) (v : Vol) : Prop where
  headers : ∀ b, (v.disk b).header.writer < v.nextId
  footers : ∀ b, (v.disk b).footer.writer < v.nextId
  buf : v.buf < v.nextId
  written : ∀ p, landed v = some p → Over L v.stamp p (v.disk (copyOf v.serial))
  io : ∀ a, v.io = some a → v.stage ≠ .clearing → a.copy = copyOf v.serial ∧ Piece L a.pos a.len
  syncing : v.stage = .running → ∀ a, v.io = some a → v.writepos = a.pos + a.len
  between : v.stage = .running → v.io = none → v.writepos = 0 ∨ L.headerlen ≤ v.writepos ∧
    v.writepos ≤ L.dirlen - L.headerlen ∨ v.writepos = L.dirlen
  recovering : v.stage = .recovering → ∃ a, v.io = some a ∧
    (a.pos = 0 ∨ a.pos = L.headerlen ∧ a.len = L.dirlen - 2 * L.headerlen ∨
      a.pos = L.dirlen - L.headerlen ∧ a.len = L.headerlen)
  starting : v.stage ≠ .running → v.writepos = 0
  clearing : v.stage = .clearing → v.io = some ⟨false, 0, L.dirlen⟩ ∨ v.io = some ⟨true, 0, L.headerlen⟩

theorem copyOf_cases {serial : ℕ} {b : Bool} (h : b ≠ copyOf serial) : b = !copyOf serial := by
  cases b <;> cases hc : copyOf serial <;> simp_all

section Write

variable {L : Layout} {v : Vol} {a : Aio}

theorem land_same (n : ℕ) : v.land L a n a.copy = (v.disk a.copy).write L v.stamp a.pos n := Function.update_self ..

theorem land_other {b : Bool} (n : ℕ) (h : b ≠ a.copy) : v.land L a n b = v.disk b := Function.update_of_ne h _ _

theorem Copy.write_header_writer {w : Stamp} {c : Copy} {pos len m : ℕ} (hc : c.header.writer < m) (hw : w.writer < m) :
    (c.write L w pos len).header.writer < m := by
  simp only [Copy.write]
  split_ifs
  · exact hw
  · exact hc

theorem Copy.write_footer_writer {w : Stamp} {c : Copy} {pos len m : ℕ} (hc : c.footer.writer < m) (hw : w.writer < m) :
    (c.write L w pos len).footer.writer < m := by
  simp only [Copy.write]
  split_ifs
  · exact hw
  · exact hc

theorem Inv.land_headers (h : Inv L v) (n : ℕ) (b : Bool) : (v.land L a n b).header.writer < v.nextId := by
  rcases eq_or_ne b a.copy with rfl | hb
  · rw [land_same]
    exact Copy.write_header_writer (h.headers _) h.buf
  · rw [land_other n hb]
    exact h.headers b

theorem Inv.land_footers (h : Inv L v) (n : ℕ) (b : Bool) : (v.land L a n b).footer.writer < v.nextId := by
  rcases eq_or_ne b a.copy with rfl | hb
  · rw [land_same]
    exact Copy.write_footer_writer (h.footers _) h.buf
  · rw [land_other n hb]
    exact h.footers b

/-- a piece of the snapshot reaches the disk -/
theorem Inv.over_land (h : Inv L v) (hio : v.io = some a) (hstage : v.stage ≠ .clearing) :
    Over L v.stamp (a.pos + a.len) (v.land L a a.len (copyOf v.serial)) := by
  obtain ⟨hcopy, hpiece⟩ := h.io a hio hstage
  have hlanded : landed v = some a.pos := by
    cases hs : v.stage
    · simp [landed, hs, hio]
    · exact absurd hs hstage
    · simp [landed, hs, hio]
  have hover := (h.written a.pos hlanded).write hpiece
  rw [← hcopy] at hover ⊢
  rw [land_same]
  exact hover

/-- a new snapshot, of which nothing has been written -/
theorem over_start {w : Stamp} {c : Copy} (hfresh : c.footer.writer < w.writer) : Over L w 0 c where
  header := fun h => absurd h (lt_irrefl 0)
  body := fun o _ h _ => absurd h (Nat.not_lt_zero o)
  footer := by
    intro h
    have := L.room
    omega
  rest := fun _ => hfresh.ne

end Write

/-! ## The steps -/

section Steps

variable {L : Layout} {v : Vol}

theorem Inv.clearDir (h : Inv L v) (hpos : v.writepos = 0) : Inv L (clearDir L v) where
  headers := fun b => (h.headers b).trans (Nat.lt_succ_self _)
  footers := fun b => (h.footers b).trans (Nat.lt_succ_self _)
  buf := Nat.lt_succ_self _
  written := fun p hp => by simp [landed, DirSync.clearDir] at hp
  io := fun a _ hstage => absurd rfl hstage
  syncing := fun hstage => by simp [DirSync.clearDir] at hstage
  between := fun hstage => by simp [DirSync.clearDir] at hstage
  recovering := fun hstage => by simp [DirSync.clearDir] at hstage
  starting := fun _ => hpos
  clearing := fun _ => Or.inl rfl

/-- memory after a crash, with nothing in progress -/
def Vol.idle (v : Vol) : Vol :=
  { v with stage := .running, io := none, dirty := false, dirSyncInProgress := false, writepos := 0 }

theorem Inv.idle (h : Inv L v) (serial : ℕ) : Inv L { v.idle with serial := serial } where
  headers := h.headers
  footers := h.footers
  buf := h.buf
  written := fun p hp => by simp [landed, Vol.idle] at hp
  io := fun a ha => by simp [Vol.idle] at ha
  syncing := fun _ a ha => by simp [Vol.idle] at ha
  between := fun _ _ => Or.inl rfl
  recovering := fun hstage => by simp [Vol.idle] at hstage
  starting := fun _ => rfl
  clearing := fun hstage => by simp [Vol.idle] at hstage

/-- what a start-up can do: clear, go on with the directory it read, or write it under a new serial -/
theorem restart_cases (L : Layout) (clear : Bool) (r : Recovery) (v : Vol) :
    (∃ s, restart L clear r v = DirSync.clearDir L { v.idle with serial := s }) ∨
      (∃ b, handleHeaderRead v.disk = some b ∧ restart L clear r v = { v.idle with serial := (v.disk b).header.serial }) ∨
      ∃ b doc, handleHeaderRead v.disk = some b ∧ clear = false ∧ r = .bump doc ∧ (v.disk b).header.serial ≠ 0 ∧
        restart L clear r v =
          { v.idle with
            serial := recoverSerial (v.disk b).header.serial doc, stage := .recovering, buf := v.nextId,
            nextId := v.nextId + 1,
            io := some ⟨copyOf (recoverSerial (v.disk b).header.serial doc), 0, L.headerlen⟩ } := by
  cases clear with
  | true => exact Or.inl ⟨v.serial, rfl⟩
  | false =>
    simp only [restart, Bool.false_eq_true, if_false]
    rcases hread : handleHeaderRead v.disk with _ | b
    · exact Or.inl ⟨v.serial, rfl⟩
    · simp only
      split_ifs with hmagic hzero
      · exact Or.inr (Or.inl ⟨b, rfl, rfl⟩)
      · cases r with
        | wrapped => exact Or.inr (Or.inl ⟨b, rfl, rfl⟩)
        | clear => exact Or.inl ⟨(v.disk b).header.serial, rfl⟩
        | bump doc => exact Or.inr (Or.inr ⟨b, doc, rfl, trivial, rfl, hzero, rfl⟩)
      · exact Or.inl ⟨v.serial, rfl⟩

theorem Inv.restart (h : Inv L v) (clear : Bool) (r : Recovery) : Inv L (restart L clear r v) := by
  rcases restart_cases L clear r v with ⟨s, heq⟩ | ⟨b, -, heq⟩ | ⟨b, doc, -, -, -, -, heq⟩
  · rw [heq]
    exact (h.idle s).clearDir rfl
  · rw [heq]
    exact h.idle _
  · rw [heq]
    exact {
      headers := fun b => (h.headers b).trans (Nat.lt_succ_self _)
      footers := fun b => (h.footers b).trans (Nat.lt_succ_self _)
      buf := Nat.lt_succ_self _
      written := by
        intro p hp
        obtain rfl : 0 = p := by simpa [landed] using hp
        exact over_start (h.footers _)
      io := by
        intro a ha _
        obtain rfl := Option.some.inj ha
        exact ⟨rfl, Or.inl ⟨rfl, rfl⟩⟩
      syncing := fun hstage => by simp at hstage
      between := fun hstage => by simp at hstage
      recovering := fun _ => ⟨_, rfl, Or.inl rfl⟩
      starting := fun _ => rfl
      clearing := fun hstage => by simp at hstage }

/-- what a timer event can do: nothing, start a sync, write the next piece, or finish -/
theorem mainEvent_cases (h : Inv L v) (hstage : v.stage = .running) (hio : v.io = none) :
    (mainEvent L v = v ∧ v.writepos = 0) ∨
      (v.writepos = 0 ∧ v.dirty = true ∧
        mainEvent L v =
          { v with
            dirty := false, serial := nextSerial v.serial, dirSyncInProgress := true, buf := v.nextId,
            nextId := v.nextId + 1, io := some ⟨copyOf (nextSerial v.serial), 0, L.headerlen⟩,
            writepos := L.headerlen }) ∨
      (v.writepos ≠ 0 ∧ ∃ l, Piece L v.writepos l ∧
        mainEvent L v = { v with io := some ⟨copyOf v.serial, v.writepos, l⟩, writepos := v.writepos + l }) ∨
      (v.writepos = L.dirlen ∧ mainEvent L v = { v with dirSyncInProgress := false, writepos := 0 }) := by
  have hroom := L.room
  have hpos := L.headerPos
  have hbetween := h.between hstage hio
  simp only [mainEvent]
  split_ifs with hstart hdirty hbody hlast hfooter
  · exact Or.inr (Or.inl ⟨hstart, hdirty, rfl⟩)
  · exact Or.inl ⟨rfl, hstart⟩
  · refine Or.inr (Or.inr (Or.inl ⟨hstart, _, Or.inr (Or.inl ?_), rfl⟩))
    omega
  · refine Or.inr (Or.inr (Or.inl ⟨hstart, _, Or.inr (Or.inl ?_), rfl⟩))
    simp only [SYNC_MAX_WRITE] at hlast ⊢
    omega
  · refine Or.inr (Or.inr (Or.inl ⟨hstart, _, Or.inr (Or.inr ⟨?_, rfl⟩), rfl⟩))
    omega
  · refine Or.inr (Or.inr (Or.inr ⟨?_, rfl⟩))
    omega

theorem Inv.mainEvent (h : Inv L v) (hstage : v.stage = .running) (hio : v.io = none) : Inv L (mainEvent L v) := by
  rcases mainEvent_cases h hstage hio with ⟨heq, -⟩ | ⟨-, -, heq⟩ | ⟨hne, l, hpiece, heq⟩ | ⟨-, heq⟩
  · rw [heq]
    exact h
  · rw [heq]
    exact {
      headers := fun b => (h.headers b).trans (Nat.lt_succ_self _)
      footers := fun b => (h.footers b).trans (Nat.lt_succ_self _)
      buf := Nat.lt_succ_self _
      written := by
        intro p hp
        obtain rfl : 0 = p := by simpa [landed, hstage] using hp
        exact over_start (h.footers _)
      io := by
        intro a ha _
        obtain rfl := Option.some.inj ha
        exact ⟨rfl, Or.inl ⟨rfl, rfl⟩⟩
      syncing := by
        intro _ a ha
        obtain rfl := Option.some.inj ha
        exact (Nat.zero_add _).symm
      between := fun _ hnone => by simp at hnone
      recovering := fun hr => by simp [hstage] at hr
      starting := fun hr => absurd hstage hr
      clearing := fun hc => by simp [hstage] at hc }
  · rw [heq]
    exact {
      headers := h.headers
      footers := h.footers
      buf := h.buf
      written := by
        intro p hp
        obtain rfl : v.writepos = p := by simpa [landed, hstage] using hp
        exact h.written _ (by simp [landed, hstage, hio, hne])
      io := by
        intro a ha _
        obtain rfl := Option.some.inj ha
        exact ⟨rfl, hpiece⟩
      syncing := by
        intro _ a ha
        obtain rfl := Option.some.inj ha
        rfl
      between := fun _ hnone => by simp at hnone
      recovering := fun hr => by simp [hstage] at hr
      starting := fun hr => absurd hstage hr
      clearing := fun hc => by simp [hstage] at hc }
  · rw [heq]
    exact {
      headers := h.headers
      footers := h.footers
      buf := h.buf
      written := fun p hp => by simp [landed, hstage, hio] at hp
      io := fun a ha => by simp [hio] at ha
      syncing := fun _ a ha => by simp [hio] at ha
      between := fun _ _ => Or.inl rfl
      recovering := fun hr => by simp [hstage] at hr
      starting := fun hr => absurd hstage hr
      clearing := fun hc => by simp [hstage] at hc }

theorem Inv.aioDone_running {a : Aio} (h : Inv L v) (hio : v.io = some a) (hstage : v.stage = .running) :
    Inv L { v with disk := v.land L a a.len, io := none } := by
  have hroom := L.room
  have hpos := L.headerPos
  obtain ⟨-, hpiece⟩ := h.io a hio (by simp [hstage])
  have hsync := h.syncing hstage a hio
  exact {
    headers := h.land_headers a.len
    footers := h.land_footers a.len
    buf := h.buf
    written := by
      intro p hp
      have hwp : v.writepos = p := by
        simp only [landed, hstage] at hp
        split_ifs at hp
        exact Option.some.inj hp
      rw [← hwp, hsync]
      exact h.over_land hio (by simp [hstage])
    io := fun b hb => by simp at hb
    syncing := fun _ b hb => by simp at hb
    between := by
      intro _ _
      show v.writepos = 0 ∨ L.headerlen ≤ v.writepos ∧ v.writepos ≤ L.dirlen - L.headerlen ∨ v.writepos = L.dirlen
      rcases hpiece with ⟨h0, hl⟩ | ⟨hge, -, hle⟩ | ⟨heq, hl⟩
      · exact Or.inr (Or.inl (by omega))
      · exact Or.inr (Or.inl (by omega))
      · exact Or.inr (Or.inr (by omega))
    recovering := fun hr => by simp [hstage] at hr
    starting := fun hr => absurd hstage hr
    clearing := fun hc => by simp [hstage] at hc }

/-- what the end of a write can do: a sync waits for its next event; a clear goes on to copy B or is done; a recovery goes
on to its next piece or is done -/
theorem aioDone_cases {a : Aio} (h : Inv L v) (hio : v.io = some a) :
    (v.stage = .running ∧ aioDone L a v = { v with disk := v.land L a a.len, io := none }) ∨
      (v.stage = .clearing ∧ a = ⟨false, 0, L.dirlen⟩ ∧
        aioDone L a v = { v with disk := v.land L a a.len, io := some ⟨true, 0, L.headerlen⟩ }) ∨
      (v.stage = .clearing ∧ a = ⟨true, 0, L.headerlen⟩ ∧
        aioDone L a v = { v with disk := v.land L a a.len, io := none, stage := .running }) ∨
      (v.stage = .recovering ∧ ∃ b : Aio, b.copy = a.copy ∧ b.pos = a.pos + a.len ∧ Piece L b.pos b.len ∧
        (b.pos = L.headerlen ∧ b.len = L.dirlen - 2 * L.headerlen ∨ b.pos = L.dirlen - L.headerlen ∧ b.len = L.headerlen) ∧
        aioDone L a v = { v with disk := v.land L a a.len, io := some b }) ∨
      (v.stage = .recovering ∧ a.pos + a.len = L.dirlen ∧
        aioDone L a v = { v with disk := v.land L a a.len, io := none, stage := .running }) := by
  have hroom := L.room
  have hpos := L.headerPos
  cases hstage : v.stage with
  | running => exact Or.inl ⟨rfl, by simp [aioDone, hstage]⟩
  | clearing =>
    rcases h.clearing hstage with ha | ha
    · obtain rfl := Option.some.inj (hio.symm.trans ha)
      exact Or.inr (Or.inl ⟨rfl, rfl, by simp [aioDone, hstage]⟩)
    · obtain rfl := Option.some.inj (hio.symm.trans ha)
      have hne : L.headerlen ≠ L.dirlen := by omega
      exact Or.inr (Or.inr (Or.inl ⟨rfl, rfl, by simp [aioDone, hstage, hne]⟩))
  | recovering =>
    obtain ⟨-, hpiece⟩ := h.io a hio (by simp [hstage])
    obtain ⟨c, hc, hplace⟩ := h.recovering hstage
    obtain rfl := Option.some.inj (hio.symm.trans hc)
    rcases hplace with hfirst | ⟨hbody, hlen⟩ | ⟨hlast, hlen⟩
    · have hlen : a.len = L.headerlen := by
        rcases hpiece with ⟨-, hl⟩ | ⟨hge, -⟩ | ⟨-, hl⟩ <;> omega
      refine Or.inr (Or.inr (Or.inr (Or.inl ⟨rfl, ⟨a.copy, L.headerlen, L.dirlen - 2 * L.headerlen⟩, rfl, ?_, ?_,
        Or.inl ⟨rfl, rfl⟩, by simp [aioDone, hstage, hfirst]⟩)))
      · rw [hfirst, hlen, Nat.zero_add]
      · exact Or.inr (Or.inl (by simp only; omega))
    · have hne : a.pos ≠ 0 := by omega
      have hlt : a.pos < L.dirlen - L.headerlen := by omega
      refine Or.inr (Or.inr (Or.inr (Or.inl ⟨rfl, ⟨a.copy, L.dirlen - L.headerlen, L.headerlen⟩, rfl, ?_,
        Or.inr (Or.inr ⟨rfl, rfl⟩), Or.inr ⟨rfl, rfl⟩, by simp [aioDone, hstage, hne, hlt]⟩)))
      simp only
      omega
    · have hne : a.pos ≠ 0 := by omega
      have hlt : ¬ a.pos < L.dirlen - L.headerlen := by omega
      refine Or.inr (Or.inr (Or.inr (Or.inr ⟨rfl, ?_, by simp [aioDone, hstage, hne, hlt]⟩)))
      omega

/-- the next piece of a recovery -/
theorem Inv.recoverNext {a : Aio} (b : Aio) (h : Inv L v) (hio : v.io = some a) (hstage : v.stage = .recovering)
    (hcopy : b.copy = a.copy) (hpos : b.pos = a.pos + a.len) (hpiece : Piece L b.pos b.len)
    (hb : b.pos = L.headerlen ∧ b.len = L.dirlen - 2 * L.headerlen ∨ b.pos = L.dirlen - L.headerlen ∧ b.len = L.headerlen) :
    Inv L { v with disk := v.land L a a.len, io := some b } where
  headers := h.land_headers _
  footers := h.land_footers _
  buf := h.buf
  written := by
    intro p hp
    obtain rfl : b.pos = p := by simpa [landed, hstage] using hp
    rw [hpos]
    exact h.over_land hio (by simp [hstage])
  io := by
    intro c hc _
    obtain rfl := Option.some.inj hc
    exact ⟨hcopy.trans (h.io a hio (by simp [hstage])).1, hpiece⟩
  syncing := fun hs => by simp [hstage] at hs
  between := fun hs => by simp [hstage] at hs
  recovering := fun _ => ⟨b, rfl, Or.inr hb⟩
  starting := h.starting
  clearing := fun hs => by simp [hstage] at hs

/-- start-up is over -/
theorem Inv.started {a : Aio} (h : Inv L v) (hstart : v.writepos = 0) :
    Inv L { v with disk := v.land L a a.len, io := none, stage := .running } where
  headers := h.land_headers _
  footers := h.land_footers _
  buf := h.buf
  written := fun p hp => by simp [landed, hstart] at hp
  io := fun _ hb => by simp at hb
  syncing := fun _ _ hb => by simp at hb
  between := fun _ _ => Or.inl hstart
  recovering := fun hs => by simp at hs
  starting := fun _ => hstart
  clearing := fun hs => by simp at hs

theorem Inv.aioFail {a : Aio} (h : Inv L v) (k : ℕ) (hstage : v.stage = .running) : Inv L (aioFail L a k v) where
  headers := h.land_headers _
  footers := h.land_footers _
  buf := h.buf
  written := fun p hp => by simp [landed, DirSync.aioFail, hstage] at hp
  io := fun _ hb => by simp [DirSync.aioFail] at hb
  syncing := fun _ _ hb => by simp [DirSync.aioFail] at hb
  between := fun _ _ => Or.inl rfl
  recovering := fun hs => by simp [DirSync.aioFail, hstage] at hs
  starting := fun _ => rfl
  clearing := fun hs => by simp [DirSync.aioFail, hstage] at hs

theorem Inv.touch (h : Inv L v) : Inv L { v with dirty := true } :=
  ⟨h.headers, h.footers, h.buf, h.written, h.io, h.syncing, h.between, h.recovering, h.starting, h.clearing⟩

theorem Inv.aioDone {a : Aio} (h : Inv L v) (hio : v.io = some a) : Inv L (aioDone L a v) := by
  rcases aioDone_cases h hio with ⟨hstage, heq⟩ | ⟨hstage, -, heq⟩ | ⟨hstage, -, heq⟩ |
    ⟨hstage, b, hcopy, hpos, hpiece, hb, heq⟩ | ⟨hstage, -, heq⟩
  · rw [heq]
    exact h.aioDone_running hio hstage
  · rw [heq]
    exact {
      headers := h.land_headers _
      footers := h.land_footers _
      buf := h.buf
      written := fun p hp => by simp [landed, hstage] at hp
      io := fun _ _ hs => absurd hstage hs
      syncing := fun hs => by simp [hstage] at hs
      between := fun hs => by simp [hstage] at hs
      recovering := fun hs => by simp [hstage] at hs
      starting := h.starting
      clearing := fun _ => Or.inr rfl }
  · rw [heq]
    exact h.started (h.starting (by simp [hstage]))
  · rw [heq]
    exact h.recoverNext b hio hstage hcopy hpos hpiece hb
  · rw [heq]
    exact h.started (h.starting (by simp [hstage]))

theorem step_inv (op : Op) (h : Inv L v) : Inv L (step L v op) := by
  cases op with
  | touch =>
    simp only [step]
    split_ifs
    · exact h.touch
    · exact h
  | sync =>
    simp only [step]
    split_ifs with hrun
    · exact h.mainEvent hrun.1 hrun.2
    · exact h
  | aioDone =>
    simp only [step]
    split
    case h_1 a hio => exact h.aioDone hio
    case h_2 => exact h
  | aioFail k =>
    simp only [step]
    split
    · split_ifs with hstage
      · exact h.aioFail k hstage
      · exact h
    · exact h
  | restart clear r => exact h.restart clear r

end Steps

theorem init_inv (L : Layout) : Inv L (init L) := by
  refine Inv.clearDir ?_ rfl
  exact {
    headers := fun _ => Nat.one_pos
    footers := fun _ => Nat.one_pos
    buf := Nat.one_pos
    written := fun p hp => by simp [landed] at hp
    io := fun _ hb => by simp at hb
    syncing := fun _ _ hb => by simp at hb
    between := fun _ _ => Or.inl rfl
    recovering := fun hs => by simp at hs
    starting := fun _ => rfl
    clearing := fun hs => by simp at hs }

theorem run_inv (L : Layout) {v : Vol} (ops : List Op) (h : Inv L v) : Inv L (run L v ops) := by
  induction ops generalizing v with
  | nil => exact h
  | cons op ops ih => exact ih (step_inv op h)

/-! ## A complete copy besides the one being written -/

/-- the current copy is complete when nothing is being written, else the other one is -/
structure Sound (L : Layout) (v : Vol) : Prop where
  idle : v.stage = .running → v.io = none → v.writepos = 0 → Complete L (v.disk (copyOf v.serial))
  busy : ∀ p, landed v = some p → Complete L (v.disk (!copyOf v.serial))

section Sound

variable {L : Layout} {v : Vol} {a : Aio}

theorem landed_io (h : v.io = some a) (hstage : v.stage ≠ .clearing) : landed v = some a.pos := by
  cases hs : v.stage
  · simp [landed, hs, h]
  · exact absurd hs hstage
  · simp [landed, hs, h]

theorem landed_between (hstage : v.stage = .running) (hio : v.io = none) (hpos : v.writepos ≠ 0) :
    landed v = some v.writepos := by
  simp [landed, hstage, hio, hpos]

theorem Inv.complete_end (h : Inv L v) (hlanded : landed v = some L.dirlen) : Complete L (v.disk (copyOf v.serial)) :=
  (h.written _ hlanded).complete

/-- a write of the snapshot leaves the other copy alone -/
theorem Inv.land_not (h : Inv L v) (hio : v.io = some a) (hstage : v.stage ≠ .clearing) (n : ℕ) :
    v.land L a n (!copyOf v.serial) = v.disk (!copyOf v.serial) := by
  apply land_other
  rw [(h.io a hio hstage).1]
  exact Bool.not_ne_self _

theorem Sound.mainEvent (h : Inv L v) (hs : Sound L v) (hstage : v.stage = .running) (hio : v.io = none) :
    Sound L (mainEvent L v) := by
  rcases mainEvent_cases h hstage hio with ⟨heq, -⟩ | ⟨hzero, -, heq⟩ | ⟨hne, l, -, heq⟩ | ⟨hend, heq⟩
  · rw [heq]
    exact hs
  · rw [heq]
    refine ⟨fun _ hnone => by simp at hnone, fun p _ => ?_⟩
    show Complete L (v.disk (!copyOf (nextSerial v.serial)))
    rw [copyOf_succ (nextSerial_parity v.serial), Bool.not_not]
    exact hs.idle hstage hio hzero
  · rw [heq]
    refine ⟨fun _ hnone => by simp at hnone, fun p _ => ?_⟩
    exact hs.busy _ (landed_between hstage hio hne)
  · rw [heq]
    have hpos : v.writepos ≠ 0 := by
      have := L.room
      omega
    refine ⟨fun _ _ _ => ?_, fun p hp => by simp [landed, hstage, hio] at hp⟩
    exact h.complete_end (by rw [landed_between hstage hio hpos, hend])

/-- a piece of a sync or a recovery reaches the disk -/
theorem Sound.land_busy (h : Inv L v) (hs : Sound L v) (hio : v.io = some a) (hstage : v.stage ≠ .clearing) :
    Complete L (v.land L a a.len (!copyOf v.serial)) := by
  rw [h.land_not hio hstage]
  exact hs.busy _ (landed_io hio hstage)

theorem Sound.aioDone_running (h : Inv L v) (hs : Sound L v) (hio : v.io = some a) (hstage : v.stage = .running) :
    Sound L { v with disk := v.land L a a.len, io := none } := by
  have hpos := L.headerPos
  have hsync := h.syncing hstage a hio
  obtain ⟨-, hpiece⟩ := h.io a hio (by simp [hstage])
  refine ⟨fun _ _ hzero => ?_, fun p _ => hs.land_busy h hio (by simp [hstage])⟩
  exfalso
  change v.writepos = 0 at hzero
  rcases hpiece with ⟨-, hl⟩ | ⟨hge, -⟩ | ⟨-, hl⟩ <;> omega

/-- a sound volume has a complete copy -/
theorem Sound.exists_complete (hs : Sound L v) (hstage : v.stage = .running) :
    ∃ b, Complete L (v.disk b) := by
  rcases hlanded : landed v with _ | p
  · refine ⟨copyOf v.serial, hs.idle hstage ?_ ?_⟩
    · rcases hio : v.io with _ | a
      · rfl
      · simp [landed, hstage, hio] at hlanded
    · rcases hio : v.io with _ | a
      · by_contra hne
        simp [landed, hstage, hio, hne] at hlanded
      · simp [landed, hstage, hio] at hlanded
  · exact ⟨_, hs.busy p hlanded⟩

end Sound

end TrafficServer.Cache.DirSync
