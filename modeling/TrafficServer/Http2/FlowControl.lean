/-
What an HTTP/2 connection may send (`send_a_data_frame`, `rcv_settings_frame`, `rcv_window_update_frame`).

Each stream has a window, and the connection has one. A SETTINGS frame with a new initial window moves the windows of all streams, also
below zero; a WINDOW_UPDATE adds to one window, unless that would be more than `2 ^ 31 - 1`: then it is an error, and the window stays.
`send_a_data_frame` sends what both windows allow. The log has what the peer announced and what was sent, with the windows before.

`send_flow_control`: in every reachable state a stream's window is the announced initial window with the increments that were accepted
for the stream and without what was sent on it, the window of the connection is 65535 with its accepted increments and without everything
that was sent, and no frame had more bytes than both windows. An increment that was refused is not in the window (`refused_increment`).

The windows are 64 bits wide; none of them leaves the range of 33 bits (`windows_bounded`), and they are integers here.
-/
import TrafficServer.Http2.ConnectionState

namespace TrafficServer.Http2

open TrafficServer.Run

/-! ## Received frames -/

/-- the parameters of a SETTINGS frame that are known -/
def settingsIdentifier (id : BitVec 16) : Option Http2SettingsIdentifier :=
  if id = 1 then some .headerTableSize
  else if id = 2 then some .enablePush
  else if id = 3 then some .maxConcurrentStreams
  else if id = 4 then some .initialWindowSize
  else if id = 5 then some .maxFrameSize
  else if id = 6 then some .maxHeaderListSize
  else none

def settingsMax : Http2SettingsIdentifier → ℕ
  | .headerTableSize => 0xffffffff
  | .enablePush => 1
  | .maxConcurrentStreams => 0xffffffff
  | .initialWindowSize => HTTP2_MAX_WINDOW_SIZE
  | .maxFrameSize => 16777215
  | .maxHeaderListSize => 0xffffffff

/-- `http2_settings_parameter_is_valid` for a known parameter -/
def settingsParameterIsValid (id : Http2SettingsIdentifier) (value : BitVec 32) : Bool :=
  value.toNat ≤ settingsMax id && (id != .maxFrameSize || 2 ^ 14 ≤ value.toNat)

namespace Http2ConnectionState

variable (c : Http2ConnectionState)

def updateInitialRwnd (newSize : BitVec 32) : Http2ConnectionState :=
  { c with streamList := c.streamList.map fun s =>
      { s with clientRwnd := newSize.toNat - ((c.clientSettings .initialWindowSize).toNat - s.clientRwnd) } }

/-- one valid parameter -/
def applySetting (id : Http2SettingsIdentifier) (value : BitVec 32) : Http2ConnectionState :=
  let c := if id = .initialWindowSize then c.updateInitialRwnd value else c
  { c with clientSettings := Function.update c.clientSettings id value }

/-- the loop over the parameters of a SETTINGS frame -/
def rcvSettings (c : Http2ConnectionState) : List (BitVec 16 × BitVec 32) → Http2ConnectionState × Http2Error
  | [] => (c, .ok)
  | (id, value) :: params =>
    match settingsIdentifier id with
    | none => (c, ⟨.connection, .protocolError, "recv settings bad param"⟩)
    | some i =>
      if settingsParameterIsValid i value then rcvSettings (c.applySetting i value) params
      else if i = .initialWindowSize then (c, ⟨.connection, .flowControlError, "recv settings bad initial window size"⟩)
      else (c, ⟨.connection, .protocolError, "recv settings bad param"⟩)

/-- a WINDOW_UPDATE frame with its four bytes -/
def rcvWindowUpdate (streamId : ℕ) (size : BitVec 32) : Http2ConnectionState × Http2Error :=
  if size = 0 then
    if streamId = 0 then (c, ⟨.connection, .protocolError, "window update length=0 and id=0"⟩)
    else (c, ⟨.stream, .protocolError, "window update length=0"⟩)
  else if streamId = 0 then
    if (size.toNat : ℤ) > HTTP2_MAX_WINDOW_SIZE - c.clientRwnd then (c, ⟨.connection, .flowControlError, "window update too big"⟩)
    else ({ c with clientRwnd := c.clientRwnd + size.toNat }, .ok)
  else
    match c.findStream streamId with
    | none =>
      if c.isValidStreamid streamId then (c, .ok) else (c, ⟨.connection, .protocolError, "window update stream invalid id"⟩)
    | some s =>
      if (size.toNat : ℤ) > HTTP2_MAX_WINDOW_SIZE - s.clientRwnd then (c, ⟨.stream, .flowControlError, "window update too big 2"⟩)
      else (c.modify s.addr fun s => { s with clientRwnd := s.clientRwnd + size.toNat }, .ok)

/-- what the event handler does with the error of a frame -/
def handleError (streamId : ℕ) (error : Http2Error) : Http2ConnectionState :=
  match error.cls with
  | .none => c
  | .connection => { c with halfCloseLocal := true }
  | .stream => c.sendRstStreamFrame streamId

/-! ## DATA frames -/

/-- `BUFFER_SIZE_FOR_INDEX(BUFFER_SIZE_INDEX_16K)` -/
def DATA_BUF_LEN : ℕ := 128 * 2 ^ 7

end Http2ConnectionState

inductive Http2SendDataFrameResult where
  | noError
  | noWindow
  | noPayload
  | error
  | done
deriving DecidableEq

/-- a window as `size_t` -/
def toSize (w : ℤ) : ℕ := (w % 2 ^ 64).toNat

namespace Http2ConnectionState

variable (c : Http2ConnectionState)

/-- the payload, if there is a frame to send -/
def dataPayload (s : Http2Stream) (readAvail : Option ℕ) (bodyDone : Bool) : Except Http2SendDataFrameResult ℕ :=
  let windowSize := min c.clientRwnd s.clientRwnd
  let writeAvailableSize := min DATA_BUF_LEN (toSize windowSize)
  match readAvail with
  | none => .error .error
  | some readAvailableSize =>
    if readAvailableSize > 0 ∧ windowSize ≤ 0 then .error .noWindow
    else
      let payloadLength := if readAvailableSize > 0 then min readAvailableSize writeAvailableSize else 0
      if bodyDone = false ∧ payloadLength = 0 then .error .noPayload else .ok payloadLength

/-- is it the last frame of the stream -/
def dataEndStream (s : Http2Stream) (readAvailableSize : ℕ) (bodyDone : Bool) : Bool :=
  bodyDone && readAvailableSize ≤ min DATA_BUF_LEN (toSize (min c.clientRwnd s.clientRwnd))

/-- a DATA frame of the stream at this address: so many bytes of the body can be read, and whether that is all there will be -/
def sendADataFrame (s : Http2Stream) (readAvail : Option ℕ) (bodyDone : Bool) :
    Http2ConnectionState × Http2SendDataFrameResult × Option ℕ :=
  match c.dataPayload s readAvail bodyDone with
  | .error result => (c, result, none)
  | .ok payloadLength =>
    let c' := { c with clientRwnd := c.clientRwnd - payloadLength }
    let c' := c'.modify s.addr fun s => { s with clientRwnd := s.clientRwnd - payloadLength }
    if c.dataEndStream s (readAvail.getD 0) bodyDone then
      (c'.modify s.addr fun s => ({ s with sendEndStream := true }.changeState .data false).1, .done, some payloadLength)
    else (c', .noError, some payloadLength)

end Http2ConnectionState

/-! ## Runs -/

namespace Flow

inductive Event where
  /-- a WINDOW_UPDATE frame, and whether it was accepted -/
  | increment (streamId size : ℕ) (accepted : Bool)
  /-- a DATA frame, with the windows of the connection and the stream before it -/
  | data (streamId payload : ℕ) (connection stream : ℤ)

structure Run where
  conn : Http2ConnectionState
  created : List (ℕ × ℕ)
  log : List Event

inductive Op where
  | settings (params : List (BitVec 16 × BitVec 32))
  | windowUpdate (streamId : ℕ) (size : BitVec 32)
  | create (newId : ℕ)
  | delete (addr : ℕ)
  | send (addr : ℕ) (readAvail : Option ℕ) (bodyDone : Bool)

def step (r : Run) : Op → Run
  | .settings params =>
    let p := r.conn.rcvSettings params
    { r with conn := p.1.handleError 0 p.2 }
  | .windowUpdate streamId size =>
    let p := r.conn.rcvWindowUpdate streamId size
    { r with
      conn := p.1.handleError streamId p.2
      log := r.log ++ [.increment streamId size.toNat (p.2.cls = .none)] }
  | .create newId =>
    let r' := Streams.step ⟨r.conn, r.created⟩ (.create newId)
    { r with conn := r'.conn, created := r'.created }
  | .delete addr => { r with conn := (r.conn.deleteStream addr).1 }
  | .send addr readAvail bodyDone =>
    match r.conn.streamAt addr with
    | none => r
    | some s =>
      match r.conn.sendADataFrame s readAvail bodyDone with
      | (c, _, none) => { r with conn := c }
      | (c, _, some payload) => { r with conn := c, log := r.log ++ [.data s.id payload r.conn.clientRwnd s.clientRwnd] }

/-- the increments that were accepted for a stream, or for the connection as stream 0 -/
def accepted (streamId : ℕ) : List Event → ℤ
  | [] => 0
  | .increment id size true :: log => (if id = streamId then size else 0) + accepted streamId log
  | _ :: log => accepted streamId log

/-- the bytes that were sent on the streams with `p` -/
def sentOn (p : ℕ → Bool) : List Event → ℤ
  | [] => 0
  | .data id payload _ _ :: log => (if p id then payload else 0) + sentOn p log
  | .increment .. :: log => sentOn p log

/-- the increments of all WINDOW_UPDATE frames of a stream -/
def received (streamId : ℕ) : List Event → ℤ
  | [] => 0
  | .increment id size _ :: log => (if id = streamId then size else 0) + received streamId log
  | _ :: log => received streamId log

structure Law (r : Run) : Prop where
  stream : ∀ s ∈ r.conn.streamList,
    s.clientRwnd = (r.conn.clientSettings .initialWindowSize).toNat + accepted s.id r.log - sentOn (· == s.id) r.log
  connection : r.conn.clientRwnd = HTTP2_INITIAL_WINDOW_SIZE + accepted 0 r.log - sentOn (fun _ => true) r.log
  frames : ∀ id payload wc ws, Event.data id payload wc ws ∈ r.log → 0 < payload → (payload : ℤ) ≤ wc ∧ (payload : ℤ) ≤ ws

/-! ## What a run keeps -/

/-- no window leaves the range of 33 bits -/
structure Bounded (c : Http2ConnectionState) : Prop where
  initial : (c.clientSettings .initialWindowSize).toNat ≤ HTTP2_MAX_WINDOW_SIZE
  connection : 0 ≤ c.clientRwnd ∧ c.clientRwnd ≤ HTTP2_MAX_WINDOW_SIZE
  stream : ∀ s ∈ c.streamList, -(HTTP2_MAX_WINDOW_SIZE : ℤ) ≤ s.clientRwnd - (c.clientSettings .initialWindowSize).toNat ∧
    s.clientRwnd - (c.clientSettings .initialWindowSize).toNat ≤ HTTP2_MAX_WINDOW_SIZE

/-- the ids of the log are not new any more -/
structure Known (c : Http2ConnectionState) (log : List Event) : Prop where
  increments : ∀ id size, Event.increment id size true ∈ log → id ≤ Streams.latest (http2IsClientStreamid id) c
  data : ∀ id payload wc ws, Event.data id payload wc ws ∈ log → id ≤ Streams.latest (http2IsClientStreamid id) c

structure Inv (r : Run) : Prop where
  streams : Streams.Inv ⟨r.conn, r.created⟩
  law : Law r
  known : Known r.conn r.log
  bounded : Bounded r.conn
  pos : ∀ e ∈ r.created, e.1 ≠ 0

theorem accepted_append (k : ℕ) (log log' : List Event) : accepted k (log ++ log') = accepted k log + accepted k log' := by
  induction log with
  | nil => simp [accepted]
  | cons e log ih =>
    cases e with
    | increment id size ok => cases ok <;> simp only [List.cons_append, accepted, ih, add_assoc]
    | data id payload wc ws => simp only [List.cons_append, accepted, ih]

theorem sentOn_append (p : ℕ → Bool) (log log' : List Event) : sentOn p (log ++ log') = sentOn p log + sentOn p log' := by
  induction log with
  | nil => simp [sentOn]
  | cons e log ih =>
    cases e with
    | increment id size ok => simp only [List.cons_append, sentOn, ih]
    | data id payload wc ws => simp only [List.cons_append, sentOn, ih, add_assoc]

theorem accepted_eq_zero {k : ℕ} {log : List Event} (h : ∀ size, Event.increment k size true ∉ log) : accepted k log = 0 := by
  induction log with
  | nil => rfl
  | cons e log ih =>
    have hrest := ih fun size hmem => h size (List.mem_cons_of_mem e hmem)
    cases e with
    | data id payload wc ws => exact hrest
    | increment id size ok =>
      cases ok with
      | false => exact hrest
      | true =>
        have hne : id ≠ k := by
          rintro rfl
          exact h size List.mem_cons_self
        rw [accepted, if_neg hne, hrest, Nat.cast_zero, add_zero]

theorem sentOn_eq_zero {k : ℕ} {log : List Event} (h : ∀ payload wc ws, Event.data k payload wc ws ∉ log) :
    sentOn (· == k) log = 0 := by
  induction log with
  | nil => rfl
  | cons e log ih =>
    have hrest := ih fun payload wc ws hmem => h payload wc ws (List.mem_cons_of_mem e hmem)
    cases e with
    | increment id size ok => exact hrest
    | data id payload wc ws =>
      have hne : ¬ (id == k) = true := by
        rw [beq_iff_eq]
        rintro rfl
        exact h payload wc ws List.mem_cons_self
      rw [sentOn, if_neg hne, hrest, Nat.cast_zero, add_zero]

/-! ### Steps that leave the windows alone -/

/-- the windows of a stream, and its id -/
structure SameWindows (s s' : Http2Stream) : Prop where
  id_eq : s.id = s'.id
  client_eq : s.clientRwnd = s'.clientRwnd
  server_eq : s.serverRwnd = s'.serverRwnd

theorem SameWindows.trans {s₁ s₂ s₃ : Http2Stream} (h : SameWindows s₁ s₂) (h' : SameWindows s₂ s₃) : SameWindows s₁ s₃ :=
  ⟨h.id_eq.trans h'.id_eq, h.client_eq.trans h'.client_eq, h.server_eq.trans h'.server_eq⟩

/-- the streams that are left have the windows they had; the connection may be shut down -/
structure Kept (c c' : Http2ConnectionState) : Prop where
  client_eq : c'.clientRwnd = c.clientRwnd
  server_eq : c'.serverRwnd = c.serverRwnd
  clientSettings_eq : c'.clientSettings = c.clientSettings
  serverSettings_eq : c'.serverSettings = c.serverSettings
  initial_eq : c'.initialWindowSize = c.initialWindowSize
  stream : ∀ s' ∈ c'.streamList, ∃ s ∈ c.streamList, SameWindows s s'
  latest_eq : ∀ b, Streams.latest b c' = Streams.latest b c
  still_open : c'.halfCloseLocal = false → c.halfCloseLocal = false

theorem Kept.refl (c : Http2ConnectionState) : Kept c c :=
  ⟨rfl, rfl, rfl, rfl, rfl, fun s hs => ⟨s, hs, rfl, rfl, rfl⟩, fun _ => rfl, id⟩

/-- also when the connection is shut down -/
theorem Kept.shut {c c' : Http2ConnectionState} (h : Kept c c') : Kept c { c' with halfCloseLocal := true } :=
  ⟨h.client_eq, h.server_eq, h.clientSettings_eq, h.serverSettings_eq, h.initial_eq, h.stream, h.latest_eq,
    fun hopen => absurd hopen (by simp)⟩

theorem Kept.trans {c₁ c₂ c₃ : Http2ConnectionState} (h : Kept c₁ c₂) (h' : Kept c₂ c₃) : Kept c₁ c₃ where
  client_eq := h'.client_eq.trans h.client_eq
  server_eq := h'.server_eq.trans h.server_eq
  clientSettings_eq := h'.clientSettings_eq.trans h.clientSettings_eq
  serverSettings_eq := h'.serverSettings_eq.trans h.serverSettings_eq
  initial_eq := h'.initial_eq.trans h.initial_eq
  stream s hs := by
    obtain ⟨s', hs', hw'⟩ := h'.stream s hs
    obtain ⟨s'', hs'', hw''⟩ := h.stream s' hs'
    exact ⟨s'', hs'', hw''.trans hw'⟩
  latest_eq b := (h'.latest_eq b).trans (h.latest_eq b)
  still_open hopen := h.still_open (h'.still_open hopen)

theorem Law.kept {c c' : Http2ConnectionState} {created created' : List (ℕ × ℕ)} {log : List Event} (h : Law ⟨c, created, log⟩)
    (hk : Kept c c') : Law ⟨c', created', log⟩ where
  stream s' hs' := by
    obtain ⟨s, hs, hw⟩ := hk.stream s' hs'
    rw [← hw.client_eq, ← hw.id_eq, hk.clientSettings_eq]
    exact h.stream s hs
  connection := hk.client_eq.trans h.connection
  frames := h.frames

theorem Bounded.kept {c c' : Http2ConnectionState} (h : Bounded c) (hk : Kept c c') : Bounded c' where
  initial := by rw [hk.clientSettings_eq]; exact h.initial
  connection := by rw [hk.client_eq]; exact h.connection
  stream s' hs' := by
    obtain ⟨s, hs, hw⟩ := hk.stream s' hs'
    rw [← hw.client_eq, hk.clientSettings_eq]
    exact h.stream s hs

theorem modify_kept (c : Http2ConnectionState) (addr : ℕ) (f : Http2Stream → Http2Stream)
    (hf : ∀ s ∈ c.streamList, s.addr = addr → SameWindows s (f s)) : Kept c (c.modify addr f) := by
  refine ⟨rfl, rfl, rfl, rfl, rfl, fun s' hs' => ?_, fun _ => rfl, id⟩
  obtain ⟨s, hs, rfl⟩ := List.mem_map.mp hs'
  by_cases ha : s.addr = addr
  · rw [if_pos ha]
    exact ⟨s, hs, hf s hs ha⟩
  · rw [if_neg ha]
    exact ⟨s, hs, rfl, rfl, rfl⟩

theorem SameWindows.changeState {s₀ s : Http2Stream} (h : SameWindows s₀ s) (type : Http2FrameType) (endHeaders : Bool) :
    SameWindows s₀ (s.changeState type endHeaders).1 := by
  rw [Streams.changeState_eq]
  exact ⟨h.id_eq, h.client_eq, h.server_eq⟩

theorem sendRst_kept {c : Http2ConnectionState} (h : (c.streamList.map Http2Stream.addr).Nodup) (id : ℕ) :
    Kept c (c.sendRstStreamFrame id) := by
  unfold Http2ConnectionState.sendRstStreamFrame
  cases hfind : c.findStream id with
  | none => exact Kept.refl c
  | some s =>
    have hmem : s ∈ c.streamList := List.mem_of_find?_eq_some hfind
    have hkept := modify_kept c s.addr (fun _ => (s.changeState .rstStream false).1) fun s' hs' ha => by
      rw [Streams.eq_of_addr h hs' hmem ha]
      exact SameWindows.changeState ⟨rfl, rfl, rfl⟩ .rstStream false
    dsimp only
    by_cases hok : (s.changeState .rstStream false).2 = true
    · rw [if_pos hok]
      exact hkept
    · rw [if_neg hok]
      exact hkept.shut

theorem handleError_kept {c : Http2ConnectionState} (h : (c.streamList.map Http2Stream.addr).Nodup) (id : ℕ) (error : Http2Error) :
    Kept c (c.handleError id error) ∧ Streams.SameKeys c (c.handleError id error) := by
  unfold Http2ConnectionState.handleError
  cases error.cls with
  | none => exact ⟨Kept.refl c, Streams.SameKeys.refl c⟩
  | connection => exact ⟨(Kept.refl c).shut, ⟨rfl, rfl, rfl, fun _ => rfl, fun _ => rfl⟩⟩
  | stream => exact ⟨sendRst_kept h id, Streams.sendRst_sameKeys h id⟩

theorem delete_kept {c : Http2ConnectionState} (h : (c.streamList.map Http2Stream.addr).Nodup) (addr : ℕ) :
    Kept c (c.deleteStream addr).1 := by
  unfold Http2ConnectionState.deleteStream
  cases c.streamAt addr with
  | none => exact Kept.refl c
  | some s =>
    dsimp only
    have hreset : Kept c (if s.state = .closed then c else c.sendRstStreamFrame s.id) := by
      split_ifs
      · exact Kept.refl c
      · exact sendRst_kept h s.id
    generalize (if s.state = .closed then c else c.sendRstStreamFrame s.id) = d at hreset ⊢
    have hdrop : ∀ n m, Kept d { d with
        streamList := d.streamList.filter fun s => s.addr != addr, clientStreamsInCount := n, clientStreamsOutCount := m } := by
      intro n m
      refine ⟨rfl, rfl, rfl, rfl, rfl, fun s' hs' => ⟨s', ?_, rfl, rfl, rfl⟩, fun _ => rfl, id⟩
      exact (List.mem_filter.mp hs').1
    refine hreset.trans ?_
    split_ifs
    · exact hdrop _ _
    · exact hdrop _ _

theorem Known.mono {c c' : Http2ConnectionState} {log : List Event} (h : Known c log)
    (hle : ∀ b, Streams.latest b c ≤ Streams.latest b c') : Known c' log :=
  ⟨fun id size hmem => (h.increments id size hmem).trans (hle _), fun id payload wc ws hmem => (h.data id payload wc ws hmem).trans (hle _)⟩

/-- a step that leaves the windows and the log alone -/
theorem Inv.kept {r : Run} {c : Http2ConnectionState} (h : Inv r) (hs : Streams.Inv ⟨c, r.created⟩) (hk : Kept r.conn c) :
    Inv { r with conn := c } :=
  ⟨hs, h.law.kept (c := r.conn) hk, h.known.mono fun b => (hk.latest_eq b).ge, h.bounded.kept hk, h.pos⟩

/-! ### SETTINGS -/

theorem applySetting_inv {r : Run} {id : Http2SettingsIdentifier} {value : BitVec 32} (h : Inv r)
    (hvalid : settingsParameterIsValid id value = true) : Inv { r with conn := r.conn.applySetting id value } := by
  unfold Http2ConnectionState.applySetting
  by_cases hid : id = .initialWindowSize
  · rw [if_pos hid]
    subst hid
    have hmax : value.toNat ≤ HTTP2_MAX_WINDOW_SIZE := by
      simp only [settingsParameterIsValid, Bool.and_eq_true, decide_eq_true_eq] at hvalid
      exact hvalid.1
    have hkeys : Streams.SameKeys r.conn { r.conn.updateInitialRwnd value with
        clientSettings := Function.update r.conn.clientSettings .initialWindowSize value } := by
      refine ⟨?_, ?_, rfl, fun _ => rfl, fun _ => rfl⟩
      · exact (List.map_map ..).trans rfl
      · exact (List.map_map ..).trans rfl
    refine ⟨h.streams.congr (c := r.conn) hkeys, ⟨fun s' hs' => ?_, h.law.connection, h.law.frames⟩,
      h.known.mono fun b => (hkeys.latest_eq b).ge, ⟨?_, h.bounded.connection, fun s' hs' => ?_⟩, h.pos⟩
    · obtain ⟨s, hs, rfl⟩ := List.mem_map.mp hs'
      have hw := h.law.stream s hs
      dsimp only [Http2ConnectionState.updateInitialRwnd]
      rw [Function.update_self, hw]
      ring
    · dsimp only [Http2ConnectionState.updateInitialRwnd]
      rw [Function.update_self]
      exact hmax
    · obtain ⟨s, hs, rfl⟩ := List.mem_map.mp hs'
      have hb := h.bounded.stream s hs
      dsimp only [Http2ConnectionState.updateInitialRwnd]
      rw [Function.update_self]
      omega
  · rw [if_neg hid]
    have hsame : Function.update r.conn.clientSettings id value .initialWindowSize = r.conn.clientSettings .initialWindowSize :=
      Function.update_of_ne (Ne.symm hid) value r.conn.clientSettings
    have hkeys : Streams.SameKeys r.conn { r.conn with clientSettings := Function.update r.conn.clientSettings id value } :=
      ⟨rfl, rfl, rfl, fun _ => rfl, fun _ => rfl⟩
    refine ⟨h.streams.congr (c := r.conn) hkeys, ⟨fun s hs => ?_, h.law.connection, h.law.frames⟩,
      h.known.mono fun b => (hkeys.latest_eq b).ge, ⟨?_, h.bounded.connection, fun s hs => ?_⟩, h.pos⟩
    · dsimp only
      rw [hsame]
      exact h.law.stream s hs
    · dsimp only
      rw [hsame]
      exact h.bounded.initial
    · dsimp only
      rw [hsame]
      exact h.bounded.stream s hs

theorem rcvSettings_inv {r : Run} (params : List (BitVec 16 × BitVec 32)) (h : Inv r) :
    Inv { r with conn := (r.conn.rcvSettings params).1 } := by
  induction params generalizing r with
  | nil => exact h
  | cons p params ih =>
    obtain ⟨id, value⟩ := p
    rw [Http2ConnectionState.rcvSettings]
    cases settingsIdentifier id with
    | none => exact h
    | some i =>
      dsimp only
      by_cases hvalid : settingsParameterIsValid i value = true
      · rw [if_pos hvalid]
        exact ih (applySetting_inv h hvalid)
      · rw [if_neg hvalid]
        split_ifs
        · exact h
        · exact h

/-- an error is handled behind the frame -/
theorem Inv.handleError {r : Run} (h : Inv r) (id : ℕ) (error : Http2Error) : Inv { r with conn := r.conn.handleError id error } := by
  obtain ⟨hk, hs⟩ := handleError_kept h.streams.addrs id error
  exact h.kept (h.streams.congr (c := r.conn) hs) hk

/-! ### WINDOW_UPDATE -/

theorem Known.append {c : Http2ConnectionState} {log : List Event} {e : Event} (h : Known c log) (he : Known c [e]) :
    Known c (log ++ [e]) := by
  refine ⟨fun id size hmem => ?_, fun id payload wc ws hmem => ?_⟩
  · rcases List.mem_append.mp hmem with hmem | hmem
    · exact h.increments id size hmem
    · exact he.increments id size hmem
  · rcases List.mem_append.mp hmem with hmem | hmem
    · exact h.data id payload wc ws hmem
    · exact he.data id payload wc ws hmem

theorem known_increment {c : Http2ConnectionState} {id size : ℕ} {ok : Bool}
    (h : ok = true → id ≤ Streams.latest (http2IsClientStreamid id) c) : Known c [.increment id size ok] := by
  refine ⟨fun id' size' hmem => ?_, fun id' payload wc ws hmem => absurd (List.mem_singleton.mp hmem) (by simp)⟩
  obtain ⟨rfl, rfl, rfl⟩ := Event.increment.inj (List.mem_singleton.mp hmem)
  exact h rfl

theorem accepted_single (k id size : ℕ) (ok : Bool) : accepted k [.increment id size ok] = if ok = true ∧ id = k then (size : ℤ) else 0 := by
  cases ok <;> simp [accepted]

/-- a frame that changes no window, because it was refused or its stream is gone -/
theorem Inv.ignored {r : Run} {id size : ℕ} {ok : Bool} (h : Inv r)
    (hok : ok = true → id ≠ 0 ∧ id ≤ Streams.latest (http2IsClientStreamid id) r.conn ∧ ∀ s ∈ r.conn.streamList, s.id ≠ id) :
    Inv { r with log := r.log ++ [.increment id size ok] } := by
  have hzero : ∀ k, (k = 0 ∨ ∃ s ∈ r.conn.streamList, s.id = k) → accepted k [.increment id size ok] = 0 := by
    intro k hk
    rw [accepted_single]
    apply if_neg
    rintro ⟨hacc, rfl⟩
    obtain ⟨h0, _, hnone⟩ := hok hacc
    rcases hk with hk | ⟨s, hs, hid⟩
    · exact h0 hk
    · exact hnone s hs hid
  have hsent : ∀ p, sentOn p [.increment id size ok] = 0 := fun _ => rfl
  refine ⟨h.streams, ⟨fun s hs => ?_, ?_, fun id' payload wc ws hmem => ?_⟩, ?_, h.bounded, h.pos⟩
  · dsimp only
    rw [accepted_append, sentOn_append, hsent, hzero s.id (Or.inr ⟨s, hs, rfl⟩), add_zero, add_zero]
    exact h.law.stream s hs
  · dsimp only
    rw [accepted_append, sentOn_append, hsent, hzero 0 (Or.inl rfl), add_zero, add_zero]
    exact h.law.connection
  · rcases List.mem_append.mp hmem with hmem | hmem
    · exact h.law.frames id' payload wc ws hmem
    · exact absurd (List.mem_singleton.mp hmem) (by simp)
  · exact h.known.append (known_increment fun hacc => (hok hacc).2.1)

theorem Inv.id_ne_zero {r : Run} (h : Inv r) {s : Http2Stream} (hs : s ∈ r.conn.streamList) : s.id ≠ 0 := by
  obtain ⟨e, he, heq⟩ := List.mem_map.mp (h.streams.id_created s hs)
  rw [← heq]
  exact h.pos e he

/-- an increment of the connection -/
theorem Inv.connectionUpdate {r : Run} {size : ℕ} (h : Inv r) (hle : ¬ (size : ℤ) > HTTP2_MAX_WINDOW_SIZE - r.conn.clientRwnd) :
    Inv { r with conn := { r.conn with clientRwnd := r.conn.clientRwnd + size }, log := r.log ++ [.increment 0 size true] } := by
  have hkeys : Streams.SameKeys r.conn { r.conn with clientRwnd := r.conn.clientRwnd + size } :=
    ⟨rfl, rfl, rfl, fun _ => rfl, fun _ => rfl⟩
  have hsent : ∀ p, sentOn p [.increment 0 size true] = 0 := fun _ => rfl
  have hb := h.bounded.connection
  refine ⟨h.streams.congr (c := r.conn) hkeys, ⟨fun s hs => ?_, ?_, fun id payload wc ws hmem => ?_⟩,
    (h.known.mono fun b => (hkeys.latest_eq b).ge).append (known_increment fun _ => Nat.zero_le _), ⟨h.bounded.initial, ?_, h.bounded.stream⟩, h.pos⟩
  · have hne : ¬ (true = true ∧ 0 = s.id) := fun heq => h.id_ne_zero hs heq.2.symm
    dsimp only
    rw [accepted_append, sentOn_append, hsent, accepted_single, if_neg hne, add_zero, add_zero]
    exact h.law.stream s hs
  · dsimp only
    rw [accepted_append, sentOn_append, hsent, accepted_single, if_pos ⟨rfl, rfl⟩, h.law.connection]
    ring
  · rcases List.mem_append.mp hmem with hmem | hmem
    · exact h.law.frames id payload wc ws hmem
    · exact absurd (List.mem_singleton.mp hmem) (by simp)
  · dsimp only
    omega

/-- a change of one stream leaves the others -/
theorem mem_modify {r : Run} {s s' : Http2Stream} {f : Http2Stream → Http2Stream} (h : Inv r) (hs : s ∈ r.conn.streamList)
    (hs' : s' ∈ (r.conn.modify s.addr f).streamList) : s' = f s ∨ (s' ∈ r.conn.streamList ∧ s'.id ≠ s.id) := by
  obtain ⟨s₀, hs₀, rfl⟩ := List.mem_map.mp hs'
  by_cases ha : s₀.addr = s.addr
  · rw [if_pos ha, Streams.eq_of_addr h.streams.addrs hs₀ hs ha]
    exact Or.inl rfl
  · rw [if_neg ha]
    refine Or.inr ⟨hs₀, fun hid => ha ?_⟩
    rw [List.inj_on_of_nodup_map h.streams.ids hs₀ hs hid]

/-- an increment of a stream -/
theorem Inv.streamUpdate {r : Run} {s : Http2Stream} {size : ℕ} (h : Inv r) (hs : s ∈ r.conn.streamList)
    (hle : ¬ (size : ℤ) > HTTP2_MAX_WINDOW_SIZE - s.clientRwnd) :
    Inv { r with
      conn := r.conn.modify s.addr fun s => { s with clientRwnd := s.clientRwnd + size }
      log := r.log ++ [.increment s.id size true] } := by
  have hkeys := Streams.modify_sameKeys r.conn s.addr (fun s => { s with clientRwnd := s.clientRwnd + size }) fun _ _ _ => ⟨rfl, rfl⟩
  have hsent : ∀ p, sentOn p [.increment s.id size true] = 0 := fun _ => rfl
  refine ⟨h.streams.congr (c := r.conn) hkeys, ⟨fun s' hs' => ?_, ?_, fun id payload wc ws hmem => ?_⟩,
    (h.known.mono fun b => (hkeys.latest_eq b).ge).append (known_increment fun _ => h.streams.id_le (h.streams.id_created s hs)),
    ⟨h.bounded.initial, h.bounded.connection, fun s' hs' => ?_⟩, h.pos⟩
  · dsimp only
    rw [accepted_append, sentOn_append, hsent, accepted_single, add_zero]
    rcases mem_modify h hs hs' with rfl | ⟨hmem, hne⟩
    · have hw := h.law.stream s hs
      rw [if_pos ⟨rfl, rfl⟩]
      dsimp only [Http2ConnectionState.modify]
      rw [hw]
      ring
    · rw [if_neg fun heq => hne heq.2.symm, add_zero]
      exact h.law.stream s' hmem
  · have hne : ¬ (true = true ∧ s.id = 0) := fun heq => h.id_ne_zero hs heq.2
    dsimp only
    rw [accepted_append, sentOn_append, hsent, accepted_single, if_neg hne, add_zero, add_zero]
    exact h.law.connection
  · rcases List.mem_append.mp hmem with hmem | hmem
    · exact h.law.frames id payload wc ws hmem
    · exact absurd (List.mem_singleton.mp hmem) (by simp)
  · rcases mem_modify h hs hs' with rfl | ⟨hmem, _⟩
    · have hb := h.bounded.stream s hs
      dsimp only [Http2ConnectionState.modify]
      omega
    · exact h.bounded.stream s' hmem

theorem valid_iff (c : Http2ConnectionState) (id : ℕ) :
    c.isValidStreamid id = true ↔ id ≤ Streams.latest (http2IsClientStreamid id) c := by
  unfold Http2ConnectionState.isValidStreamid Streams.latest
  cases http2IsClientStreamid id <;> simp

theorem windowUpdate_inv {r : Run} (h : Inv r) (streamId : ℕ) (size : BitVec 32) : Inv (step r (.windowUpdate streamId size)) := by
  have herror : ∀ error : Http2Error, error.cls ≠ .none →
      Inv { r with conn := r.conn.handleError streamId error, log := r.log ++ [.increment streamId size.toNat (error.cls = .none)] } := by
    intro error herr
    rw [decide_eq_false herr]
    exact (h.ignored fun hacc => absurd hacc Bool.false_ne_true).handleError streamId error
  suffices hall : ∀ p, r.conn.rcvWindowUpdate streamId size = p →
      Inv { r with conn := p.1.handleError streamId p.2, log := r.log ++ [.increment streamId size.toNat (p.2.cls = .none)] } from
    hall _ rfl
  intro p hp
  unfold Http2ConnectionState.rcvWindowUpdate at hp
  by_cases h0 : size = 0
  · rw [if_pos h0] at hp
    by_cases hid : streamId = 0
    · rw [if_pos hid] at hp
      exact hp ▸ herror _ (by simp)
    · rw [if_neg hid] at hp
      exact hp ▸ herror _ (by simp)
  · rw [if_neg h0] at hp
    by_cases hid : streamId = 0
    · rw [if_pos hid] at hp
      by_cases hbig : (size.toNat : ℤ) > HTTP2_MAX_WINDOW_SIZE - r.conn.clientRwnd
      · rw [if_pos hbig] at hp
        exact hp ▸ herror _ (by simp)
      · rw [if_neg hbig] at hp
        subst hp hid
        exact h.connectionUpdate hbig
    · rw [if_neg hid] at hp
      cases hfind : r.conn.findStream streamId with
      | none =>
        rw [hfind] at hp
        by_cases hvalid : r.conn.isValidStreamid streamId = true
        · -- the stream is gone
          simp only [if_pos hvalid] at hp
          subst hp
          refine h.ignored fun _ => ⟨hid, (valid_iff _ _).mp hvalid, fun s hs heq => ?_⟩
          have := List.find?_eq_none.mp hfind s hs
          exact this (by simp [heq])
        · simp only [if_neg hvalid] at hp
          exact hp ▸ herror _ (by simp)
      | some s =>
        have hs : s ∈ r.conn.streamList := List.mem_of_find?_eq_some hfind
        obtain rfl : s.id = streamId := by
          have := List.find?_some hfind
          simpa using this
        simp only [hfind] at hp
        by_cases hbig : (size.toNat : ℤ) > HTTP2_MAX_WINDOW_SIZE - s.clientRwnd
        · rw [if_pos hbig] at hp
          exact hp ▸ herror _ (by simp)
        · rw [if_neg hbig] at hp
          subst hp
          exact h.streamUpdate hs hbig

/-! ### DATA -/

/-- what a frame carries is in both windows -/
theorem dataPayload_le {c : Http2ConnectionState} {s : Http2Stream} {readAvail : Option ℕ} {bodyDone : Bool} {payload : ℕ}
    (h : c.dataPayload s readAvail bodyDone = .ok payload) (hpos : 0 < payload) :
    (payload : ℤ) ≤ c.clientRwnd ∧ (payload : ℤ) ≤ s.clientRwnd := by
  unfold Http2ConnectionState.dataPayload at h
  cases readAvail with
  | none => exact absurd h (by simp)
  | some readAvailableSize =>
    dsimp only at h
    split_ifs at h with hwindow hread hnone hnone
    · obtain rfl := Except.ok.inj h
      have hw : 0 < min c.clientRwnd s.clientRwnd := by
        by_contra hle
        exact hwindow ⟨hread, not_lt.mp hle⟩
      have hsize : (toSize (min c.clientRwnd s.clientRwnd) : ℤ) ≤ min c.clientRwnd s.clientRwnd := by
        unfold toSize
        omega
      omega
    · obtain rfl := Except.ok.inj h
      exact absurd hpos (lt_irrefl 0)

theorem sentOn_single (p : ℕ → Bool) (id payload : ℕ) (wc ws : ℤ) :
    sentOn p [.data id payload wc ws] = if p id then (payload : ℤ) else 0 := by
  rw [sentOn, sentOn, add_zero]
  split_ifs <;> rfl

theorem known_data {c : Http2ConnectionState} {id payload : ℕ} {wc ws : ℤ} (h : id ≤ Streams.latest (http2IsClientStreamid id) c) :
    Known c [.data id payload wc ws] := by
  refine ⟨fun id' size' hmem => absurd (List.mem_singleton.mp hmem) (by simp), fun id' payload' wc' ws' hmem => ?_⟩
  obtain ⟨rfl, _, _, _⟩ := Event.data.inj (List.mem_singleton.mp hmem)
  exact h

/-- a frame that both windows allow -/
theorem Inv.dataFrame {r : Run} {s : Http2Stream} {payload : ℕ} (h : Inv r) (hs : s ∈ r.conn.streamList)
    (hle : 0 < payload → (payload : ℤ) ≤ r.conn.clientRwnd ∧ (payload : ℤ) ≤ s.clientRwnd) :
    Inv { r with
      conn := { r.conn with clientRwnd := r.conn.clientRwnd - payload }.modify s.addr fun s => { s with clientRwnd := s.clientRwnd - payload }
      log := r.log ++ [.data s.id payload r.conn.clientRwnd s.clientRwnd] } := by
  have hkeys : Streams.SameKeys r.conn ({ r.conn with clientRwnd := r.conn.clientRwnd - payload }.modify s.addr fun s =>
      { s with clientRwnd := s.clientRwnd - payload }) := by
    have := Streams.modify_sameKeys r.conn s.addr (fun s => { s with clientRwnd := s.clientRwnd - payload }) fun _ _ _ => ⟨rfl, rfl⟩
    exact ⟨this.addr_eq, this.id_eq, rfl, fun _ => rfl, fun _ => rfl⟩
  have hacc : ∀ k, accepted k [.data s.id payload r.conn.clientRwnd s.clientRwnd] = 0 := fun _ => rfl
  have hb := h.bounded
  refine ⟨h.streams.congr (c := r.conn) hkeys, ⟨fun s' hs' => ?_, ?_, fun id payload' wc ws hmem hpos => ?_⟩,
    (h.known.mono fun b => (hkeys.latest_eq b).ge).append (known_data (h.streams.id_le (h.streams.id_created s hs))),
    ⟨hb.initial, ?_, fun s' hs' => ?_⟩, h.pos⟩
  · dsimp only
    rw [accepted_append, sentOn_append, hacc, sentOn_single, add_zero]
    rcases mem_modify h hs hs' with rfl | ⟨hmem, hne⟩
    · have hw := h.law.stream s hs
      rw [if_pos (beq_self_eq_true _)]
      dsimp only [Http2ConnectionState.modify]
      rw [hw]
      ring
    · have hno : ¬ (s.id == s'.id) = true := by
        rw [beq_iff_eq]
        exact fun heq => hne heq.symm
      rw [if_neg hno, add_zero]
      exact h.law.stream s' hmem
  · have hw := h.law.connection
    dsimp only [Http2ConnectionState.modify]
    rw [accepted_append, sentOn_append, hacc, sentOn_single, if_pos rfl, hw]
    ring
  · rcases List.mem_append.mp hmem with hmem | hmem
    · exact h.law.frames id payload' wc ws hmem hpos
    · obtain ⟨rfl, rfl, rfl, rfl⟩ := Event.data.inj (List.mem_singleton.mp hmem)
      exact hle hpos
  · have hc := hb.connection
    dsimp only [Http2ConnectionState.modify]
    omega
  · rcases mem_modify h hs hs' with rfl | ⟨hmem, _⟩
    · have hst := hb.stream s hs
      have hi := hb.initial
      dsimp only [Http2ConnectionState.modify]
      omega
    · exact hb.stream s' hmem

theorem send_inv {r : Run} (h : Inv r) (addr : ℕ) (readAvail : Option ℕ) (bodyDone : Bool) : Inv (step r (.send addr readAvail bodyDone)) := by
  rw [step]
  cases hat : r.conn.streamAt addr with
  | none => exact h
  | some s =>
    have hs : s ∈ r.conn.streamList := List.mem_of_find?_eq_some hat
    dsimp only
    unfold Http2ConnectionState.sendADataFrame
    cases hp : r.conn.dataPayload s readAvail bodyDone with
    | error result => exact h
    | ok payload =>
      have hsent := h.dataFrame hs (dataPayload_le hp)
      dsimp only at hsent ⊢
      by_cases hend : r.conn.dataEndStream s (readAvail.getD 0) bodyDone = true
      · rw [if_pos hend]
        -- the last frame also changes the state of the stream
        have hstate : ∀ s : Http2Stream, ({ s with sendEndStream := true }.changeState .data false).1.addr = s.addr ∧
            ({ s with sendEndStream := true }.changeState .data false).1.id = s.id := by
          intro s
          rw [Streams.changeState_eq]
          exact ⟨rfl, rfl⟩
        have hended : ∀ s : Http2Stream, SameWindows s { s with sendEndStream := true } := fun _ => ⟨rfl, rfl, rfl⟩
        exact hsent.kept
          (hsent.streams.congr (Streams.modify_sameKeys _ s.addr _ fun s' _ _ => hstate s'))
          (modify_kept _ s.addr _ fun s' _ _ => (hended s').changeState .data false)
      · rw [if_neg hend]
        exact hsent

/-! ### Creation and deletion -/

theorem create_inv {r : Run} (h : Inv r) (newId : ℕ) : Inv (step r (.create newId)) := by
  rw [step, Streams.step, Http2ConnectionState.createStream]
  dsimp only
  cases hnone : r.conn.createError newId with
  | some error => exact h
  | none =>
    obtain ⟨hlatest, _⟩ := Streams.createError_none hnone
    obtain ⟨hlist, _⟩ := Streams.enqueueStream_list r.conn newId
    have hfields : (r.conn.enqueueStream newId).clientRwnd = r.conn.clientRwnd ∧
        (r.conn.enqueueStream newId).clientSettings = r.conn.clientSettings := by
      unfold Http2ConnectionState.enqueueStream
      dsimp only
      split_ifs <;> exact ⟨rfl, rfl⟩
    have hle : ∀ b, Streams.latest b r.conn ≤ Streams.latest b (r.conn.enqueueStream newId) := by
      intro b
      obtain ⟨hsame, hother⟩ := Streams.enqueueStream_side r.conn newId b
      by_cases hb : b = http2IsClientStreamid newId
      · rw [(hsame hb).2, hb]
        exact hlatest.le
      · rw [(hother hb).2]
    -- nothing in the log is about the new id
    have hacc : accepted newId r.log = 0 :=
      accepted_eq_zero fun size hmem => absurd (h.known.increments newId size hmem) (Nat.not_le_of_lt hlatest)
    have hsent : sentOn (· == newId) r.log = 0 :=
      sentOn_eq_zero fun payload wc ws hmem => absurd (h.known.data newId payload wc ws hmem) (Nat.not_le_of_lt hlatest)
    have hb := h.bounded
    refine ⟨Streams.create_inv h.streams hnone, ⟨fun s hs => ?_, ?_, h.law.frames⟩, h.known.mono hle, ⟨?_, ?_, fun s hs => ?_⟩, ?_⟩
    · dsimp only at hs ⊢
      rw [hlist] at hs
      rw [hfields.2]
      rcases List.mem_append.mp hs with hs | hs
      · exact h.law.stream s hs
      · obtain rfl := List.mem_singleton.mp hs
        dsimp only [Http2ConnectionState.newStream]
        rw [hacc, hsent, add_zero, sub_zero]
    · dsimp only
      rw [hfields.1]
      exact h.law.connection
    · dsimp only
      rw [hfields.2]
      exact hb.initial
    · dsimp only
      rw [hfields.1]
      exact hb.connection
    · dsimp only at hs ⊢
      rw [hlist] at hs
      rw [hfields.2]
      rcases List.mem_append.mp hs with hs | hs
      · exact hb.stream s hs
      · obtain rfl := List.mem_singleton.mp hs
        dsimp only [Http2ConnectionState.newStream]
        rw [sub_self]
        exact ⟨by decide, by decide⟩
    · intro e he
      rcases List.mem_append.mp he with he | he
      · exact h.pos e he
      · obtain rfl := List.mem_singleton.mp he
        exact Nat.ne_of_gt (Nat.zero_lt_of_lt hlatest)

theorem step_inv {r : Run} (h : Inv r) (op : Op) : Inv (step r op) := by
  cases op with
  | settings params => exact (rcvSettings_inv params h).handleError 0 _
  | windowUpdate streamId size => exact windowUpdate_inv h streamId size
  | create newId => exact create_inv h newId
  | delete addr => exact h.kept (Streams.delete_inv h.streams) (delete_kept h.streams.addrs addr)
  | send addr readAvail bodyDone => exact send_inv h addr readAvail bodyDone

/-! ### Whole runs -/

/-- the state of a connection after a sequence of frames -/
def run (initialWindowSize : BitVec 32) (ops : List Op) : Run := ops.foldl step ⟨newConnection initialWindowSize, [], []⟩

theorem new_inv (initialWindowSize : BitVec 32) : Inv ⟨newConnection initialWindowSize, [], []⟩ := by
  have hstreams : Streams.Inv ⟨newConnection initialWindowSize, []⟩ := Streams.new_inv initialWindowSize
  refine ⟨hstreams, ⟨fun s hs => absurd hs (by simp [newConnection]), rfl, fun _ _ _ _ hmem => absurd hmem (by simp)⟩,
    ⟨fun _ _ hmem => absurd hmem (by simp), fun _ _ _ _ hmem => absurd hmem (by simp)⟩,
    ⟨?_, ⟨?_, ?_⟩, fun s hs => absurd hs (by simp [newConnection])⟩, fun e he => absurd he (by simp)⟩
  · change (65535#32).toNat ≤ HTTP2_MAX_WINDOW_SIZE
    decide
  · exact Int.natCast_nonneg HTTP2_INITIAL_WINDOW_SIZE
  · change ((HTTP2_INITIAL_WINDOW_SIZE : ℕ) : ℤ) ≤ HTTP2_MAX_WINDOW_SIZE
    decide

theorem run_inv (initialWindowSize : BitVec 32) (ops : List Op) : Inv (run initialWindowSize ops) := by
  have hrun : Along step (fun _ _ => True) ⟨newConnection initialWindowSize, [], []⟩ ops := along_of_forall fun _ _ => trivial
  exact hrun.inv (I := Inv) (fun r op h _ => step_inv h op) (new_inv initialWindowSize)

theorem send_flow_control (initialWindowSize : BitVec 32) (ops : List Op) : Law (run initialWindowSize ops) :=
  (run_inv initialWindowSize ops).law

/-- a WINDOW_UPDATE that the code refuses is in no window: the stream has 65535, and it was announced `65535 + (2 ^ 31 - 1)` -/
theorem refused_increment : ∃ ops : List Op, ∃ s ∈ (run 65535 ops).conn.streamList,
    s.clientRwnd ≠ ((run 65535 ops).conn.clientSettings .initialWindowSize).toNat + received s.id (run 65535 ops).log -
      sentOn (· == s.id) (run 65535 ops).log := by
  refine ⟨[.create 1, .windowUpdate 1 0x7fffffff], ?_⟩
  decide

/-- the windows never leave the range of 33 bits, so the 64 bits of the code do not overflow -/
theorem windows_bounded (initialWindowSize : BitVec 32) (ops : List Op) : Bounded (run initialWindowSize ops).conn :=
  (run_inv initialWindowSize ops).bounded

end Flow

end TrafficServer.Http2
