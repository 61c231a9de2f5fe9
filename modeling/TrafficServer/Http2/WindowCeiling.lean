/-
The ceiling of the windows an HTTP/2 connection sends into.

A WINDOW_UPDATE that would bring a window above `2 ^ 31 - 1` is an error. A SETTINGS frame with a new initial window moves the windows
of all streams by the difference, and `update_initial_rwnd` looks at no window: a stream that was brought up to the ceiling by a
WINDOW_UPDATE is moved above it by a larger initial window, and the frame is accepted (`ceiling_exceeded`). Nothing else brings a window
above the ceiling: it holds in every state of a run exactly if no SETTINGS frame of the run comes to a stream that has less room than
the frame announces (`under_ceiling_iff`).
-/
import TrafficServer.Http2.FlowControl

namespace TrafficServer.Http2

open TrafficServer.Run

namespace Flow

/-- no window is above `2 ^ 31 - 1` -/
structure UnderCeiling (c : Http2ConnectionState) : Prop where
  connection : c.clientRwnd ≤ HTTP2_MAX_WINDOW_SIZE
  stream : ∀ s ∈ c.streamList, s.clientRwnd ≤ HTTP2_MAX_WINDOW_SIZE

/-- what the proxy answers a frame with -/
def answer (r : Run) : Op → Http2Error
  | .settings params => (r.conn.rcvSettings params).2
  | .windowUpdate streamId size => (r.conn.rcvWindowUpdate streamId size).2
  | _ => .ok

/-- the initial window a SETTINGS frame leaves behind: the last one that is announced before the first bad parameter -/
def announced (initial : BitVec 32) : List (BitVec 16 × BitVec 32) → BitVec 32
  | [] => initial
  | (id, value) :: params =>
    match settingsIdentifier id with
    | none => initial
    | some i =>
      if settingsParameterIsValid i value then announced (if i = .initialWindowSize then value else initial) params else initial

/-- every stream has room for the change of the initial window -/
def HasRoom (r : Run) : Op → Prop
  | .settings params => ∀ s ∈ r.conn.streamList,
      s.clientRwnd + (announced (r.conn.clientSettings .initialWindowSize) params).toNat -
        (r.conn.clientSettings .initialWindowSize).toNat ≤ HTTP2_MAX_WINDOW_SIZE
  | _ => True

/-! ## SETTINGS -/

/-- a stream behind a change of the initial window -/
def moved (old new : BitVec 32) (s : Http2Stream) : Http2Stream := { s with clientRwnd := s.clientRwnd + new.toNat - old.toNat }

theorem moved_self (w : BitVec 32) (s : Http2Stream) : moved w w s = s := by
  have hsame : s.clientRwnd + w.toNat - w.toNat = s.clientRwnd := by ring
  unfold moved
  rw [hsame]

theorem moved_moved (u v w : BitVec 32) (s : Http2Stream) : moved v w (moved u v s) = moved u w s := by
  have hsum : s.clientRwnd + v.toNat - u.toNat + w.toNat - v.toNat = s.clientRwnd + w.toNat - u.toNat := by ring
  simp only [moved, hsum]

theorem map_moved_self (w : BitVec 32) (streams : List Http2Stream) : streams.map (moved w w) = streams := by
  rw [List.map_congr_left fun s _ => moved_self w s]
  exact List.map_id' streams

theorem applySetting_initialWindow (c : Http2ConnectionState) (id : Http2SettingsIdentifier) (value : BitVec 32) :
    (c.applySetting id value).clientSettings .initialWindowSize =
      if id = .initialWindowSize then value else c.clientSettings .initialWindowSize := by
  unfold Http2ConnectionState.applySetting
  by_cases hid : id = .initialWindowSize
  · subst hid
    simp [Http2ConnectionState.updateInitialRwnd]
  · simp [hid, Function.update_of_ne (Ne.symm hid)]

theorem applySetting_streamList (c : Http2ConnectionState) (id : Http2SettingsIdentifier) (value : BitVec 32) :
    (c.applySetting id value).streamList = c.streamList.map
      (moved (c.clientSettings .initialWindowSize) ((c.applySetting id value).clientSettings .initialWindowSize)) := by
  rw [applySetting_initialWindow]
  unfold Http2ConnectionState.applySetting
  by_cases hid : id = .initialWindowSize
  · rw [if_pos hid, if_pos hid]
    refine List.map_congr_left fun s _ => ?_
    have hsum : (value.toNat : ℤ) - ((c.clientSettings .initialWindowSize).toNat - s.clientRwnd) =
        s.clientRwnd + value.toNat - (c.clientSettings .initialWindowSize).toNat := by ring
    rw [moved, hsum]
  · rw [if_neg hid, if_neg hid, map_moved_self]

theorem applySetting_clientRwnd (c : Http2ConnectionState) (id : Http2SettingsIdentifier) (value : BitVec 32) :
    (c.applySetting id value).clientRwnd = c.clientRwnd := by
  unfold Http2ConnectionState.applySetting
  split_ifs
  · rfl
  · rfl

/-- a SETTINGS frame moves all streams by what it announces, and leaves the window of the connection -/
theorem rcvSettings_moves (c : Http2ConnectionState) (params : List (BitVec 16 × BitVec 32)) :
    (c.rcvSettings params).1.streamList = c.streamList.map
      (moved (c.clientSettings .initialWindowSize) (announced (c.clientSettings .initialWindowSize) params)) ∧
    (c.rcvSettings params).1.clientRwnd = c.clientRwnd := by
  induction params generalizing c with
  | nil => exact ⟨(map_moved_self _ _).symm, rfl⟩
  | cons p params ih =>
    obtain ⟨id, value⟩ := p
    rw [Http2ConnectionState.rcvSettings, announced]
    cases settingsIdentifier id with
    | none => exact ⟨(map_moved_self _ _).symm, rfl⟩
    | some i =>
      dsimp only
      by_cases hvalid : settingsParameterIsValid i value = true
      · rw [if_pos hvalid, if_pos hvalid]
        obtain ⟨hlist, hrwnd⟩ := ih (c.applySetting i value)
        refine ⟨?_, hrwnd.trans (applySetting_clientRwnd c i value)⟩
        rw [hlist, applySetting_streamList, List.map_map, ← applySetting_initialWindow]
        refine List.map_congr_left fun s _ => ?_
        exact moved_moved _ _ _ s
      · rw [if_neg hvalid, if_neg hvalid]
        split_ifs
        · exact ⟨(map_moved_self _ _).symm, rfl⟩
        · exact ⟨(map_moved_self _ _).symm, rfl⟩

theorem rcvSettings_cls (c : Http2ConnectionState) (params : List (BitVec 16 × BitVec 32)) :
    (c.rcvSettings params).2.cls ≠ .stream := by
  induction params generalizing c with
  | nil => simp [Http2ConnectionState.rcvSettings, Http2Error.ok]
  | cons p params ih =>
    obtain ⟨id, value⟩ := p
    rw [Http2ConnectionState.rcvSettings]
    cases settingsIdentifier id with
    | none => simp
    | some i =>
      dsimp only
      split_ifs
      · exact ih _
      · simp
      · simp

/-- the error of a SETTINGS frame closes no stream -/
theorem handleError_streamList {c : Http2ConnectionState} {error : Http2Error} (h : error.cls ≠ .stream) (id : ℕ) :
    (c.handleError id error).streamList = c.streamList ∧ (c.handleError id error).clientRwnd = c.clientRwnd := by
  unfold Http2ConnectionState.handleError
  cases hcls : error.cls with
  | none => exact ⟨rfl, rfl⟩
  | connection => exact ⟨rfl, rfl⟩
  | stream => exact absurd hcls h

theorem settings_iff {r : Run} (h : UnderCeiling r.conn) (params : List (BitVec 16 × BitVec 32)) :
    UnderCeiling (step r (.settings params)).conn ↔ HasRoom r (.settings params) := by
  obtain ⟨hlist, hrwnd⟩ := rcvSettings_moves r.conn params
  obtain ⟨hkeep, hkeep'⟩ := handleError_streamList (c := (r.conn.rcvSettings params).1) (rcvSettings_cls r.conn params) 0
  have hstreams := hkeep.trans hlist
  constructor
  · intro hafter s hs
    have hmem : moved _ _ s ∈ (step r (.settings params)).conn.streamList := hstreams ▸ List.mem_map_of_mem hs
    exact hafter.stream _ hmem
  · intro hroom
    refine ⟨(hkeep'.trans hrwnd).trans_le h.connection, fun s' hs' => ?_⟩
    rw [step, hstreams] at hs'
    obtain ⟨s, hs, rfl⟩ := List.mem_map.mp hs'
    exact hroom s hs

/-! ## The other steps -/

theorem UnderCeiling.kept {c c' : Http2ConnectionState} (h : UnderCeiling c) (hk : Kept c c') : UnderCeiling c' := by
  refine ⟨hk.client_eq.trans_le h.connection, fun s' hs' => ?_⟩
  obtain ⟨s, hs, hw⟩ := hk.stream s' hs'
  rw [← hw.client_eq]
  exact h.stream s hs

/-- a stream that is changed, and the others as they were -/
theorem UnderCeiling.modify {c : Http2ConnectionState} (h : UnderCeiling c) (addr : ℕ) {f : Http2Stream → Http2Stream}
    (hf : ∀ s ∈ c.streamList, s.addr = addr → (f s).clientRwnd ≤ HTTP2_MAX_WINDOW_SIZE) : UnderCeiling (c.modify addr f) := by
  refine ⟨h.connection, fun s' hs' => ?_⟩
  obtain ⟨s, hs, rfl⟩ := List.mem_map.mp hs'
  by_cases ha : s.addr = addr
  · rw [if_pos ha]
    exact hf s hs ha
  · rw [if_neg ha]
    exact h.stream s hs

/-- a WINDOW_UPDATE is checked against the window it is for -/
theorem UnderCeiling.windowUpdate {r : Run} (hinv : Inv r) (h : UnderCeiling r.conn) (streamId : ℕ) (size : BitVec 32) :
    UnderCeiling (r.conn.rcvWindowUpdate streamId size).1 := by
  unfold Http2ConnectionState.rcvWindowUpdate
  by_cases h0 : size = 0
  · rw [if_pos h0]
    split_ifs
    · exact h
    · exact h
  rw [if_neg h0]
  by_cases hid : streamId = 0
  · rw [if_pos hid]
    by_cases hbig : (size.toNat : ℤ) > HTTP2_MAX_WINDOW_SIZE - r.conn.clientRwnd
    · rw [if_pos hbig]
      exact h
    · rw [if_neg hbig]
      refine ⟨?_, h.stream⟩
      have hsum := add_le_of_le_sub_left (not_lt.mp hbig)
      exact hsum
  · rw [if_neg hid]
    cases hfind : r.conn.findStream streamId with
    | none =>
      dsimp only
      split_ifs
      · exact h
      · exact h
    | some s =>
      dsimp only
      by_cases hbig : (size.toNat : ℤ) > HTTP2_MAX_WINDOW_SIZE - s.clientRwnd
      · rw [if_pos hbig]
        exact h
      · rw [if_neg hbig]
        apply h.modify
        intro s' hs' ha
        rw [Streams.eq_of_addr hinv.streams.addrs hs' (List.mem_of_find?_eq_some hfind) ha]
        exact add_le_of_le_sub_left (not_lt.mp hbig)

/-- a WINDOW_UPDATE that is answered with an error changes no window -/
theorem rcvWindowUpdate_refused {c : Http2ConnectionState} {streamId : ℕ} {size : BitVec 32}
    (h : (c.rcvWindowUpdate streamId size).2.cls ≠ .none) : (c.rcvWindowUpdate streamId size).1 = c := by
  unfold Http2ConnectionState.rcvWindowUpdate at h ⊢
  by_cases h0 : size = 0
  · rw [if_pos h0]
    split_ifs
    · rfl
    · rfl
  rw [if_neg h0] at h ⊢
  by_cases hid : streamId = 0
  · rw [if_pos hid] at h ⊢
    split_ifs at h ⊢
    · rfl
    · exact absurd rfl h
  · rw [if_neg hid] at h ⊢
    cases hfind : c.findStream streamId with
    | none =>
      dsimp only
      split_ifs
      · rfl
      · rfl
    | some s =>
      simp only [hfind] at h ⊢
      split_ifs at h ⊢
      · rfl
      · exact absurd rfl h

/-- what is sent comes out of the windows -/
theorem UnderCeiling.send {r : Run} (h : UnderCeiling r.conn) (addr : ℕ) (readAvail : Option ℕ) (bodyDone : Bool) :
    UnderCeiling (step r (.send addr readAvail bodyDone)).conn := by
  rw [step]
  cases r.conn.streamAt addr with
  | none => exact h
  | some s =>
    dsimp only
    unfold Http2ConnectionState.sendADataFrame
    cases r.conn.dataPayload s readAvail bodyDone with
    | error result => exact h
    | ok payload =>
      have hless : ∀ w : ℤ, w ≤ HTTP2_MAX_WINDOW_SIZE → w - payload ≤ HTTP2_MAX_WINDOW_SIZE := fun w hw =>
        (Int.sub_le_self w (Int.natCast_nonneg payload)).trans hw
      have hconn : UnderCeiling { r.conn with clientRwnd := r.conn.clientRwnd - payload } := ⟨hless _ h.connection, h.stream⟩
      have hsent := hconn.modify s.addr (f := fun s => { s with clientRwnd := s.clientRwnd - payload })
        fun s' hs' _ => hless _ (h.stream s' hs')
      dsimp only
      split_ifs
      · refine hsent.kept (modify_kept _ s.addr _ fun s' _ _ => ?_)
        have hended : SameWindows s' { s' with sendEndStream := true } := ⟨rfl, rfl, rfl⟩
        exact hended.changeState .data false
      · exact hsent

/-- a new stream has the initial window -/
theorem UnderCeiling.create {r : Run} (hinv : Inv r) (h : UnderCeiling r.conn) (newId : ℕ) :
    UnderCeiling (step r (.create newId)).conn := by
  rw [step, Streams.step, Http2ConnectionState.createStream]
  dsimp only
  cases r.conn.createError newId with
  | some error => exact h
  | none =>
    have hrwnd : (r.conn.enqueueStream newId).clientRwnd = r.conn.clientRwnd := by
      unfold Http2ConnectionState.enqueueStream
      dsimp only
      split_ifs
      · rfl
      · rfl
    refine ⟨hrwnd.trans_le h.connection, fun s hs => ?_⟩
    dsimp only at hs
    rw [(Streams.enqueueStream_list r.conn newId).1] at hs
    rcases List.mem_append.mp hs with hs | hs
    · exact h.stream s hs
    · obtain rfl := List.mem_singleton.mp hs
      exact Int.ofNat_le.mpr hinv.bounded.initial

theorem UnderCeiling.step {r : Run} (hinv : Inv r) (h : UnderCeiling r.conn) {op : Op} (hroom : HasRoom r op) :
    UnderCeiling (step r op).conn := by
  cases op with
  | settings params => exact (settings_iff h params).mpr hroom
  | windowUpdate streamId size =>
    by_cases hcls : (r.conn.rcvWindowUpdate streamId size).2.cls = .none
    · have haccepted := h.windowUpdate hinv streamId size
      simp only [Flow.step, Http2ConnectionState.handleError, hcls]
      exact haccepted
    · simp only [Flow.step, rcvWindowUpdate_refused hcls]
      exact h.kept (handleError_kept hinv.streams.addrs streamId _).1
  | create newId => exact h.create hinv newId
  | delete addr => exact h.kept (delete_kept hinv.streams.addrs addr)
  | send addr readAvail bodyDone => exact h.send addr readAvail bodyDone

/-! ## Whole runs -/

/-- Every window stays under the ceiling in every state of a run exactly if every SETTINGS frame finds room for its change of the
initial window in every stream. -/
theorem under_ceiling_iff (initialWindowSize : BitVec 32) (ops : List Op) :
    (∀ n, UnderCeiling (run initialWindowSize (ops.take n)).conn) ↔
      Along step HasRoom ⟨newConnection initialWindowSize, [], []⟩ ops := by
  have hall : Along step (fun _ _ => True) ⟨newConnection initialWindowSize, [], []⟩ ops := along_of_forall fun _ _ => trivial
  refine along_iff (I := fun r => Inv r ∧ UnderCeiling r.conn) (Q := fun r => UnderCeiling r.conn) (fun r h => h.2)
    (fun r op h _ hroom => ⟨step_inv h.1 op, h.2.step h.1 hroom⟩) (fun r op h _ hroom => ?_) hall ⟨new_inv initialWindowSize, ?_⟩
  · cases op with
    | settings params => exact fun hafter => hroom ((settings_iff h.2 params).mp hafter)
    | windowUpdate streamId size => exact absurd trivial hroom
    | create newId => exact absurd trivial hroom
    | delete addr => exact absurd trivial hroom
    | send addr readAvail bodyDone => exact absurd trivial hroom
  · exact ⟨(new_inv initialWindowSize).bounded.connection.2, fun s hs => absurd hs (by simp [newConnection])⟩

/-- A stream is brought to the ceiling, and a larger initial window is announced: no frame is answered with an error, and the window is
`2 ^ 31`. -/
theorem ceiling_exceeded : ¬ ∀ (initialWindowSize : BitVec 32) (ops : List Op),
    Along step (fun r op => (answer r op).cls = .none) ⟨newConnection initialWindowSize, [], []⟩ ops →
      UnderCeiling (run initialWindowSize ops).conn := by
  intro h
  have hup := h 65535 [.create 1, .windowUpdate 1 0x7fff0000, .settings [(4, 65536)]] (by decide)
  have hwindow : ∃ s ∈ (run 65535 [.create 1, .windowUpdate 1 0x7fff0000, .settings [(4, 65536)]]).conn.streamList,
      ¬ s.clientRwnd ≤ HTTP2_MAX_WINDOW_SIZE := by decide
  obtain ⟨s, hs, hbig⟩ := hwindow
  exact hbig (hup.stream s hs)

end Flow

end TrafficServer.Http2
