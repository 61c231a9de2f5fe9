/-
What an HTTP/2 peer may send (`rcv_data_frame`, the INIT event of `main_event_handler`).

The connection has a window for the bytes that the peer may still send, `server_rwnd`, which starts with the configured initial window. The
peer keeps the same number from what it knows: 65535 at first, the WINDOW_UPDATE frames of stream 0, and the DATA frames it has sent.
A DATA frame is taken out of `server_rwnd` only behind all checks of its stream; a frame for a stream that is gone or closed is answered
with an error of the stream, and is not.

`receive_window_agreement`: as long as the connection is open the two numbers are equal, the peer has some window, and no peer that
respects its windows is accused of a flow control error, exactly if the configured window is at least 65535 and each DATA frame that is
not empty comes for a stream that can still receive. `closed_stream_leak` is a run with a frame for a stream that was deleted.

The frames of the other types are here with what they do to the streams. The buffers of the request body are left out.
-/
import TrafficServer.Http2.FlowControl

namespace TrafficServer.Http2

open TrafficServer.Run

/-! ## Configuration -/

/-- the settings of the server, which are checked at the start (`Http2::init`) -/
structure Http2Config where
  settings : Http2SettingsIdentifier → BitVec 32
  valid : ∀ id, settingsParameterIsValid id (settings id) = true

/-- a WINDOW_UPDATE frame that is sent: the stream and the increment -/
abbrev WindowUpdate := ℕ × BitVec 32

/-- `HTTP2_SESSION_EVENT_INIT` -/
def sessionInit (config : Http2Config) : Http2ConnectionState × List WindowUpdate :=
  let initial := config.settings .initialWindowSize
  ({ newConnection initial with serverSettings := config.settings },
    if initial.toNat > HTTP2_INITIAL_WINDOW_SIZE then [(0, initial - 65535)] else [])

/-! ## DATA frames -/

structure DataFrame where
  streamId : ℕ
  payloadLength : ℕ
  payloadLength_lt : payloadLength < 2 ^ 24
  padded : Bool
  /-- the byte behind the frame header, or 0 if there is none; it is the first of the payload, if that is not empty -/
  firstByte : BitVec 8
  endStream : Bool

namespace DataFrame

variable (f : DataFrame)

def padLength : ℕ := if f.padded then f.firstByte.toNat else 0

/-- `payload_length - pad_length - nbytes`, with 32 bits -/
def dataLength : ℕ := (f.payloadLength + 2 ^ 32 - f.padLength - if f.padded then 1 else 0) % 2 ^ 32

end DataFrame

namespace Http2Stream

variable (s : Http2Stream)

def payloadLengthIsValid : Bool := s.contentLength % 2 ^ 32 = 0 || s.contentLength % 2 ^ 32 = s.dataLength

/-- the bytes are counted, and the end of the request is noted; false if the frame is not legal in this state -/
def receiveData (f : DataFrame) : Http2Stream × Bool :=
  let s := { s with dataLength := (s.dataLength + f.dataLength) % 2 ^ 64 }
  if f.endStream then { s with recvEndStream := true }.changeState .data false else (s, true)

end Http2Stream

/-- a window that is low is filled up to `initial`; the difference has 32 bits -/
def fillUp (initial minRwnd : ℕ) (rwnd : ℤ) : ℤ × Option (BitVec 32) :=
  if rwnd ≤ minRwnd then
    let diffSize := BitVec.ofInt 32 (initial - rwnd)
    (rwnd + diffSize.toInt, some diffSize)
  else (rwnd, none)

namespace Http2ConnectionState

variable (c : Http2ConnectionState)

def minRwnd : ℕ := min (c.serverSettings .initialWindowSize).toNat (c.serverSettings .maxFrameSize).toNat

/-- the windows behind a DATA frame of a stream -/
def takeFromWindows (s : Http2Stream) (payloadLength : ℕ) : Http2ConnectionState × List WindowUpdate :=
  let initial := (c.serverSettings .initialWindowSize).toNat
  let pc := fillUp initial c.minRwnd (c.serverRwnd - payloadLength)
  let ps := fillUp initial c.minRwnd (s.serverRwnd - payloadLength)
  ({ c with serverRwnd := pc.1 }.modify s.addr fun s => { s with serverRwnd := ps.1 },
    (pc.2.map fun size => (0, size)).toList ++ (ps.2.map fun size => (s.id, size)).toList)

def rcvDataFrame (f : DataFrame) : Http2ConnectionState × Http2Error × List WindowUpdate :=
  if http2IsClientStreamid f.streamId = false then (c, ⟨.connection, .protocolError, "recv data bad frame client id"⟩, [])
  else
    match c.findStream f.streamId with
    | none =>
      if c.isValidStreamid f.streamId then (c, ⟨.stream, .streamClosed, ""⟩, [])
      else (c, ⟨.connection, .protocolError, "recv data stream freed with invalid id"⟩, [])
    | some s =>
      if s.state ≠ .opened ∧ s.state ≠ .halfClosedLocal then (c, ⟨.stream, .streamClosed, "recv data stream closed"⟩, [])
      else if f.padded ∧ f.padLength > f.payloadLength then (c, ⟨.connection, .protocolError, "recv data pad > payload"⟩, [])
      else
        let p := s.receiveData f
        let c := c.modify s.addr fun _ => p.1
        if p.2 = false then (c.sendRstStreamFrame f.streamId, .ok, [])
        else if f.endStream ∧ p.1.payloadLengthIsValid = false then
          (c, ⟨.connection, .protocolError, "recv data bad payload length"⟩, [])
        else if f.payloadLength = 0 then (c, .ok, [])
        else if c.serverRwnd < f.payloadLength then
          (c, ⟨.connection, .flowControlError, "recv data cstate.server_rwnd < payload_length"⟩, [])
        else if s.serverRwnd < f.payloadLength then
          (c, ⟨.stream, .flowControlError, "recv data stream->server_rwnd < payload_length"⟩, [])
        else
          let p := c.takeFromWindows p.1 f.payloadLength
          (p.1, .ok, p.2)

end Http2ConnectionState

/-! ## Runs -/

namespace Receive

inductive Op where
  | data (f : DataFrame)
  | create (newId : ℕ)
  | delete (addr : ℕ)
  /-- a frame of another type, received or sent, with the end of the stream in that direction -/
  | change (addr : ℕ) (type : Http2FrameType) (endHeaders recvEnd sendEnd : Bool)
  | contentLength (addr length : ℕ)
  /-- the error of a frame of another type -/
  | error (streamId : ℕ) (error : Http2Error)

/-- a connection and its peer, which knows its own windows -/
structure Run where
  conn : Http2ConnectionState
  created : List (ℕ × ℕ)
  peerRwnd : ℤ
  peerStreamRwnd : ℕ → ℤ
  /-- an error of flow control, while the connection was open -/
  accused : Bool

/-- what WINDOW_UPDATE frames add to a window -/
def increments (id : ℕ) : List WindowUpdate → ℤ
  | [] => 0
  | (id', size) :: us => (if id' = id then size.toNat else 0) + increments id us

/-- a stream of the peer starts with the initial window, or with 65535 if the peer has not seen the settings yet -/
def start (config : Http2Config) : Run :=
  let p := sessionInit config
  { conn := p.1
    created := []
    peerRwnd := HTTP2_INITIAL_WINDOW_SIZE + increments 0 p.2
    peerStreamRwnd := fun _ => max (config.settings .initialWindowSize).toNat HTTP2_INITIAL_WINDOW_SIZE
    accused := false }

def step (r : Run) : Op → Run
  | .data f =>
    let (c, error, updates) := r.conn.rcvDataFrame f
    { r with
      conn := c.handleError f.streamId error
      peerRwnd := r.peerRwnd - f.payloadLength + increments 0 updates
      peerStreamRwnd := fun id => r.peerStreamRwnd id - (if id = f.streamId then f.payloadLength else 0) + increments id updates
      accused := r.accused || (!r.conn.halfCloseLocal && error.code = .flowControlError) }
  | .create newId =>
    let r' := Streams.step ⟨r.conn, r.created⟩ (.create newId)
    { r with conn := r'.conn, created := r'.created }
  | .delete addr => { r with conn := (r.conn.deleteStream addr).1 }
  | .change addr type endHeaders recvEnd sendEnd =>
    { r with conn := r.conn.modify addr fun s =>
        ({ s with recvEndStream := s.recvEndStream || recvEnd, sendEndStream := s.sendEndStream || sendEnd }.changeState
          type endHeaders).1 }
  | .contentLength addr length => { r with conn := r.conn.modify addr fun s => { s with contentLength := length } }
  | .error streamId error => { r with conn := r.conn.handleError streamId error }

/-- the peer sends DATA for a stream it has opened, and not more than it may -/
def Conforming (r : Run) : Op → Prop
  | .data f =>
    http2IsClientStreamid f.streamId = true ∧ r.conn.isValidStreamid f.streamId = true ∧
      (∀ s ∈ r.conn.streamList, s.id = f.streamId → s.state ≠ .idle ∧ s.state ≠ .reservedLocal ∧ s.state ≠ .reservedRemote) ∧
      (f.payloadLength : ℤ) ≤ r.peerRwnd ∧ (f.payloadLength : ℤ) ≤ r.peerStreamRwnd f.streamId
  | _ => True

/-- a frame that is not empty comes for a stream that can receive -/
def Receivable (r : Run) : Op → Prop
  | .data f => r.conn.halfCloseLocal = false → 0 < f.payloadLength →
      ∃ s ∈ r.conn.streamList, s.id = f.streamId ∧ (s.state = .opened ∨ s.state = .halfClosedLocal)
  | _ => True

structure Agreed (r : Run) : Prop where
  windows : r.conn.halfCloseLocal = false → r.peerRwnd = r.conn.serverRwnd ∧ 0 < r.peerRwnd
  not_accused : r.accused = false

/-! ## What a frame does -/

theorem fillUp_spec {initial : ℕ} (minRwnd : ℕ) (hinitial : initial ≤ HTTP2_MAX_WINDOW_SIZE) (hpos : 0 < initial)
    {w : ℤ} (h0 : 0 ≤ w) (hw : w ≤ initial) :
    (fillUp initial minRwnd w).1 = w + ((fillUp initial minRwnd w).2.map BitVec.toNat).getD 0 ∧
      0 < (fillUp initial minRwnd w).1 ∧ (fillUp initial minRwnd w).1 ≤ initial := by
  unfold fillUp
  by_cases hlow : w ≤ minRwnd
  · rw [if_pos hlow]
    have hmax : (initial : ℤ) ≤ 2147483647 := by exact_mod_cast hinitial
    have hnat : ((BitVec.ofInt 32 (initial - w)).toNat : ℤ) = initial - w := by
      rw [BitVec.toNat_ofInt]
      omega
    have hint : (BitVec.ofInt 32 (initial - w)).toInt = initial - w := by
      rw [BitVec.toInt_eq_toNat_of_lt (by omega), hnat]
    simp only [Option.map_some, Option.getD_some]
    rw [hint, hnat]
    omega
  · rw [if_neg hlow]
    simp only [Option.map_none, Option.getD_none]
    omega

theorem increments_append (id : ℕ) (us us' : List WindowUpdate) : increments id (us ++ us') = increments id us + increments id us' := by
  induction us with
  | nil => simp [increments]
  | cons u us ih => simp only [List.cons_append, increments, ih, add_assoc]

theorem increments_option (id id' : ℕ) (o : Option (BitVec 32)) :
    increments id (o.map fun size => (id', size)).toList = if id' = id then (((o.map BitVec.toNat).getD 0 : ℕ) : ℤ) else 0 := by
  cases o with
  | none => simp [increments]
  | some size => simp [increments]

theorem receiveData_same (s : Http2Stream) (f : DataFrame) :
    (s.receiveData f).1.addr = s.addr ∧ Flow.SameWindows s (s.receiveData f).1 := by
  have hlength : ∀ n, Flow.SameWindows s { s with dataLength := n } := fun _ => ⟨rfl, rfl, rfl⟩
  have hcount : ∀ n, Flow.SameWindows s { s with dataLength := n, recvEndStream := true } := fun _ => ⟨rfl, rfl, rfl⟩
  unfold Http2Stream.receiveData
  by_cases hend : f.endStream = true
  · simp only [if_pos hend]
    refine ⟨?_, (hcount _).changeState .data false⟩
    rw [Streams.changeState_eq]
  · simp only [if_neg hend, true_and]
    exact hlength _

/-- the state of a stream that can receive -/
def CanReceive (s : Http2Stream) : Prop := s.state = .opened ∨ s.state = .halfClosedLocal

/-- there the end of the stream is legal -/
theorem receiveData_legal {s : Http2Stream} (h : CanReceive s) (f : DataFrame) : (s.receiveData f).2 = true := by
  unfold Http2Stream.receiveData
  by_cases hend : f.endStream = true
  · simp only [if_pos hend]
    unfold Http2Stream.changeState
    rcases h with h | h
    · simp [h]
    · simp [h]
  · simp only [if_neg hend]

/-- a frame that is not taken out of the windows -/
structure NotTaken (c : Http2ConnectionState) (f : DataFrame) (p : Http2ConnectionState × Http2Error × List WindowUpdate) : Prop where
  kept : Flow.Kept c p.1
  keys : Streams.SameKeys c p.1
  updates : p.2.2 = []
  /-- an accusation has a window behind it -/
  accused : p.2.1.code = .flowControlError → 0 < f.payloadLength ∧ ∃ s, c.findStream f.streamId = some s ∧
    (c.serverRwnd < f.payloadLength ∨ s.serverRwnd < f.payloadLength)
  received : ∀ s, c.findStream f.streamId = some s → CanReceive s → 0 < f.payloadLength →
    p.2.1.cls = .connection ∨ s.serverRwnd < f.payloadLength

/-- a frame that is taken out of the windows of the connection and of its stream, which have it -/
structure Taken (c : Http2ConnectionState) (f : DataFrame) (p : Http2ConnectionState × Http2Error × List WindowUpdate)
    (c₁ : Http2ConnectionState) (s : Http2Stream) : Prop where
  kept : Flow.Kept c c₁
  keys : Streams.SameKeys c c₁
  mem : s ∈ c₁.streamList
  id_eq : s.id = f.streamId
  connection : (f.payloadLength : ℤ) ≤ c₁.serverRwnd
  stream : (f.payloadLength : ℤ) ≤ s.serverRwnd
  eq : p = ((c₁.takeFromWindows s f.payloadLength).1, .ok, (c₁.takeFromWindows s f.payloadLength).2)

theorem rcvDataFrame_cases {c : Http2ConnectionState} (h : (c.streamList.map Http2Stream.addr).Nodup) (f : DataFrame)
    (hclient : http2IsClientStreamid f.streamId = true) :
    NotTaken c f (c.rcvDataFrame f) ∨ ∃ c₁ s, Taken c f (c.rcvDataFrame f) c₁ s := by
  unfold Http2ConnectionState.rcvDataFrame
  rw [if_neg (by simp [hclient])]
  cases hfind : c.findStream f.streamId with
  | none =>
    left
    have hno : ∀ error : Http2Error, error.code ≠ .flowControlError → NotTaken c f (c, error, []) := fun error hcode =>
      ⟨Flow.Kept.refl c, Streams.SameKeys.refl c, rfl, fun heq => absurd heq hcode, fun s hs => absurd (hfind.symm.trans hs) (by simp)⟩
    dsimp only
    split_ifs
    · exact hno _ (by simp)
    · exact hno _ (by simp)
  | some s =>
    dsimp only
    by_cases hstate : s.state ≠ .opened ∧ s.state ≠ .halfClosedLocal
    · rw [if_pos hstate]
      refine Or.inl ⟨Flow.Kept.refl c, Streams.SameKeys.refl c, rfl, fun heq => absurd heq (by simp), fun s' hs' hcan => ?_⟩
      obtain rfl := Option.some.inj (hfind.symm.trans hs')
      exact absurd hcan (not_or.mpr hstate)
    rw [if_neg hstate]
    have hcan : CanReceive s := by
      unfold CanReceive
      tauto
    by_cases hpad : f.padded = true ∧ f.padLength > f.payloadLength
    · rw [if_pos hpad]
      exact Or.inl ⟨Flow.Kept.refl c, Streams.SameKeys.refl c, rfl, fun heq => absurd heq (by simp), fun _ _ _ _ => Or.inl rfl⟩
    rw [if_neg hpad, if_neg (by simp [receiveData_legal hcan])]
    have hmem : s ∈ c.streamList := List.mem_of_find?_eq_some hfind
    have hsame := receiveData_same s f
    have hkept : Flow.Kept c (c.modify s.addr fun _ => (s.receiveData f).1) := Flow.modify_kept c s.addr _ fun s' hs' ha => by
      rw [Streams.eq_of_addr h hs' hmem ha]
      exact hsame.2
    have hkeys : Streams.SameKeys c (c.modify s.addr fun _ => (s.receiveData f).1) :=
      Streams.modify_sameKeys c s.addr _ fun s' hs' ha => by
        rw [Streams.eq_of_addr h hs' hmem ha]
        exact ⟨hsame.1, hsame.2.id_eq.symm⟩
    by_cases hlen : f.endStream = true ∧ (s.receiveData f).1.payloadLengthIsValid = false
    · rw [if_pos hlen]
      exact Or.inl ⟨hkept, hkeys, rfl, fun heq => absurd heq (by simp), fun _ _ _ _ => Or.inl rfl⟩
    rw [if_neg hlen]
    by_cases h0 : f.payloadLength = 0
    · rw [if_pos h0]
      exact Or.inl ⟨hkept, hkeys, rfl, fun heq => absurd heq (by simp [Http2Error.ok]), fun _ _ _ hpos => absurd hpos (by omega)⟩
    rw [if_neg h0]
    by_cases hconn : (c.modify s.addr fun _ => (s.receiveData f).1).serverRwnd < f.payloadLength
    · rw [if_pos hconn]
      exact Or.inl ⟨hkept, hkeys, rfl, fun _ => ⟨by omega, s, hfind, Or.inl hconn⟩, fun _ _ _ _ => Or.inl rfl⟩
    rw [if_neg hconn]
    by_cases hstream : s.serverRwnd < f.payloadLength
    · rw [if_pos hstream]
      refine Or.inl ⟨hkept, hkeys, rfl, fun _ => ⟨by omega, s, hfind, Or.inr hstream⟩, fun s' hs' _ _ => Or.inr ?_⟩
      obtain rfl := Option.some.inj (hfind.symm.trans hs')
      exact hstream
    rw [if_neg hstream]
    have hid : s.id = f.streamId := by
      have := List.find?_some hfind
      simpa using this
    refine Or.inr ⟨_, (s.receiveData f).1, hkept, hkeys, ?_, hsame.2.id_eq.symm.trans hid, not_lt.mp hconn, ?_, rfl⟩
    · exact List.mem_map.mpr ⟨s, hmem, if_pos rfl⟩
    · rw [← hsame.2.server_eq]
      exact not_lt.mp hstream

/-! ## What a run keeps -/

/-- the windows of an open connection and its peer -/
structure Windows (initial : ℕ) (r : Run) : Prop where
  eq : r.peerRwnd = r.conn.serverRwnd
  pos : 0 < r.conn.serverRwnd
  le : r.conn.serverRwnd ≤ initial
  /-- the peer may have sent more on a stream than was taken out of its window, not less -/
  stream : ∀ s ∈ r.conn.streamList, http2IsClientStreamid s.id = true → r.peerStreamRwnd s.id ≤ s.serverRwnd
  stream_le : ∀ s ∈ r.conn.streamList, s.serverRwnd ≤ initial
  peer_le : ∀ id, http2IsClientStreamid id = true → r.peerStreamRwnd id ≤ initial

structure Inv (config : Http2Config) (r : Run) : Prop where
  streams : Streams.Inv ⟨r.conn, r.created⟩
  settings_eq : r.conn.serverSettings = config.settings
  initial_eq : r.conn.initialWindowSize = config.settings .initialWindowSize
  windows : r.conn.halfCloseLocal = false → Windows (config.settings .initialWindowSize).toNat r
  not_accused : r.accused = false

variable {config : Http2Config}

theorem Inv.agreed {r : Run} (h : Inv config r) : Agreed r := by
  refine ⟨fun hopen => ?_, h.not_accused⟩
  obtain ⟨heq, hpos, _⟩ := h.windows hopen
  exact ⟨heq, heq ▸ hpos⟩

/-- a step of the connection that leaves its windows, and those of the peer -/
theorem Inv.kept {r : Run} {c : Http2ConnectionState} (h : Inv config r) (hs : Streams.Inv ⟨c, r.created⟩) (hk : Flow.Kept r.conn c) :
    Inv config { r with conn := c } := by
  refine ⟨hs, hk.serverSettings_eq.trans h.settings_eq, hk.initial_eq.trans h.initial_eq, fun hopen => ?_, h.not_accused⟩
  have hw := h.windows (hk.still_open hopen)
  refine ⟨hw.eq.trans hk.server_eq.symm, ?_, ?_, fun s' hs' hid => ?_, fun s' hs' => ?_, hw.peer_le⟩
  · dsimp only
    rw [hk.server_eq]
    exact hw.pos
  · dsimp only
    rw [hk.server_eq]
    exact hw.le
  · obtain ⟨s, hs, hsame⟩ := hk.stream s' hs'
    rw [← hsame.id_eq] at hid ⊢
    rw [← hsame.server_eq]
    exact hw.stream s hs hid
  · obtain ⟨s, hs, hsame⟩ := hk.stream s' hs'
    rw [← hsame.server_eq]
    exact hw.stream_le s hs

theorem create_inv {r : Run} (h : Inv config r) (newId : ℕ) : Inv config (step r (.create newId)) := by
  rw [step, Streams.step, Http2ConnectionState.createStream]
  dsimp only
  cases hnone : r.conn.createError newId with
  | some error => exact h
  | none =>
    obtain ⟨hlist, _⟩ := Streams.enqueueStream_list r.conn newId
    have hfields : (r.conn.enqueueStream newId).serverRwnd = r.conn.serverRwnd ∧
        (r.conn.enqueueStream newId).serverSettings = r.conn.serverSettings ∧
        (r.conn.enqueueStream newId).initialWindowSize = r.conn.initialWindowSize ∧
        (r.conn.enqueueStream newId).halfCloseLocal = r.conn.halfCloseLocal := by
      unfold Http2ConnectionState.enqueueStream
      dsimp only
      split_ifs <;> exact ⟨rfl, rfl, rfl, rfl⟩
    obtain ⟨hserver, hsettings, hinitial, hhalf⟩ := hfields
    refine ⟨Streams.create_inv h.streams hnone, hsettings.trans h.settings_eq, hinitial.trans h.initial_eq, fun hopen => ?_, h.not_accused⟩
    have hw := h.windows (hhalf ▸ hopen)
    have hnew : ((r.conn.newStream newId).serverRwnd : ℤ) = (config.settings .initialWindowSize).toNat := by
      rw [← h.initial_eq]
      rfl
    refine ⟨hw.eq.trans hserver.symm, ?_, ?_, fun s hs hid => ?_, fun s hs => ?_, hw.peer_le⟩
    · dsimp only
      rw [hserver]
      exact hw.pos
    · dsimp only
      rw [hserver]
      exact hw.le
    · dsimp only at hs
      rw [hlist] at hs
      rcases List.mem_append.mp hs with hs | hs
      · exact hw.stream s hs hid
      · obtain rfl := List.mem_singleton.mp hs
        rw [hnew]
        exact hw.peer_le _ hid
    · dsimp only at hs
      rw [hlist] at hs
      rcases List.mem_append.mp hs with hs | hs
      · exact hw.stream_le s hs
      · obtain rfl := List.mem_singleton.mp hs
        rw [hnew]

/-- a stream is changed, but not its windows -/
theorem Inv.change {r : Run} (h : Inv config r) (addr : ℕ) (g : Http2Stream → Http2Stream)
    (hg : ∀ s, (g s).addr = s.addr ∧ Flow.SameWindows s (g s)) : Inv config { r with conn := r.conn.modify addr g } :=
  h.kept (h.streams.congr (c := r.conn) (Streams.modify_sameKeys r.conn addr g fun s _ _ => ⟨(hg s).1, (hg s).2.id_eq.symm⟩))
    (Flow.modify_kept r.conn addr g fun s _ _ => (hg s).2)

theorem Inv.handleError {r : Run} (h : Inv config r) (id : ℕ) (error : Http2Error) :
    Inv config { r with conn := r.conn.handleError id error } := by
  obtain ⟨hk, hs⟩ := Flow.handleError_kept h.streams.addrs id error
  exact h.kept (h.streams.congr (c := r.conn) hs) hk

/-! ### DATA -/

theorem findStream_of_mem {r : Run} (h : Inv config r) {s : Http2Stream} (hs : s ∈ r.conn.streamList) :
    r.conn.findStream s.id = some s := by
  unfold Http2ConnectionState.findStream
  cases hfind : r.conn.streamList.find? fun s' => s'.id == s.id with
  | none => exact absurd (List.find?_eq_none.mp hfind s hs) (by simp)
  | some s' =>
    have hid : s'.id = s.id := by
      have := List.find?_some hfind
      simpa using this
    rw [List.inj_on_of_nodup_map h.streams.ids (List.mem_of_find?_eq_some hfind) hs hid]

/-- a frame is taken out of the windows of both sides, and both are filled up -/
theorem Inv.takeFromWindows (hconfig : HTTP2_INITIAL_WINDOW_SIZE ≤ (config.settings .initialWindowSize).toNat) {r : Run}
    (h : Inv config r) {s : Http2Stream} (hs : s ∈ r.conn.streamList) (hclient : http2IsClientStreamid s.id = true)
    {n : ℕ} (hconn : (n : ℤ) ≤ r.conn.serverRwnd) (hstream : (n : ℤ) ≤ s.serverRwnd) :
    Inv config { r with
      conn := (r.conn.takeFromWindows s n).1
      peerRwnd := r.peerRwnd - n + increments 0 (r.conn.takeFromWindows s n).2
      peerStreamRwnd := fun id =>
        r.peerStreamRwnd id - (if id = s.id then n else 0) + increments id (r.conn.takeFromWindows s n).2 } := by
  have hkeys : Streams.SameKeys r.conn (r.conn.takeFromWindows s n).1 := by
    have := Streams.modify_sameKeys r.conn s.addr (fun s' => { s' with serverRwnd :=
      (fillUp (r.conn.serverSettings .initialWindowSize).toNat r.conn.minRwnd (s.serverRwnd - n)).1 }) fun _ _ _ => ⟨rfl, rfl⟩
    exact ⟨this.addr_eq, this.id_eq, rfl, fun _ => rfl, fun _ => rfl⟩
  refine ⟨h.streams.congr (c := r.conn) hkeys, h.settings_eq, h.initial_eq, fun hopen => ?_, h.not_accused⟩
  have hw := h.windows hopen
  have hmax : (config.settings .initialWindowSize).toNat ≤ HTTP2_MAX_WINDOW_SIZE := by
    have := config.valid .initialWindowSize
    simp only [settingsParameterIsValid, Bool.and_eq_true, decide_eq_true_eq] at this
    exact this.1
  have hpos : 0 < (config.settings .initialWindowSize).toNat := lt_of_lt_of_le (by decide) hconfig
  obtain ⟨hc_eq, hc_pos, hc_le⟩ := fillUp_spec r.conn.minRwnd hmax hpos (sub_nonneg.mpr hconn)
    ((sub_le_self _ (Int.natCast_nonneg n)).trans hw.le)
  obtain ⟨hs_eq, _, hs_le⟩ := fillUp_spec r.conn.minRwnd hmax hpos (sub_nonneg.mpr hstream)
    ((sub_le_self _ (Int.natCast_nonneg n)).trans (hw.stream_le s hs))
  have hne : s.id ≠ 0 := by
    intro h0
    rw [h0] at hclient
    exact absurd hclient (by decide)
  -- the stream's window, and no other one
  have hupdates : ∀ id, increments id (r.conn.takeFromWindows s n).2 =
      (if 0 = id then ((((fillUp (config.settings .initialWindowSize).toNat r.conn.minRwnd (r.conn.serverRwnd - n)).2.map
        BitVec.toNat).getD 0 : ℕ) : ℤ) else 0) +
      if s.id = id then ((((fillUp (config.settings .initialWindowSize).toNat r.conn.minRwnd (s.serverRwnd - n)).2.map
        BitVec.toNat).getD 0 : ℕ) : ℤ) else 0 := by
    intro id
    rw [← h.settings_eq, Http2ConnectionState.takeFromWindows, increments_append, increments_option, increments_option]
  have hstream_peer : ∀ id, http2IsClientStreamid id = true →
      r.peerStreamRwnd id - (if id = s.id then n else 0) + increments id (r.conn.takeFromWindows s n).2 =
      r.peerStreamRwnd id + if s.id = id then
        (fillUp (config.settings .initialWindowSize).toNat r.conn.minRwnd (s.serverRwnd - n)).1 - s.serverRwnd else 0 := by
    intro id hid
    have h0 : ¬ 0 = id := by
      rintro rfl
      exact absurd hid (by decide)
    rw [hupdates, if_neg h0, hs_eq]
    by_cases heq : s.id = id
    · rw [if_pos heq, if_pos heq, if_pos heq.symm]
      ring
    · rw [if_neg heq, if_neg heq, if_neg (Ne.symm heq)]
      ring
  have hmem : ∀ s' ∈ (r.conn.takeFromWindows s n).1.streamList,
      (s'.id = s.id ∧ s'.serverRwnd = (fillUp (config.settings .initialWindowSize).toNat r.conn.minRwnd (s.serverRwnd - n)).1) ∨
      (s' ∈ r.conn.streamList ∧ s.id ≠ s'.id) := by
    intro s' hs'
    obtain ⟨s₀, hs₀, rfl⟩ := List.mem_map.mp hs'
    by_cases ha : s₀.addr = s.addr
    · rw [if_pos ha, Streams.eq_of_addr h.streams.addrs hs₀ hs ha, ← h.settings_eq]
      exact Or.inl ⟨rfl, rfl⟩
    · rw [if_neg ha]
      refine Or.inr ⟨hs₀, fun heq => ha ?_⟩
      rw [List.inj_on_of_nodup_map h.streams.ids hs₀ hs heq.symm]
  have hserver : (r.conn.takeFromWindows s n).1.serverRwnd =
      (fillUp (config.settings .initialWindowSize).toNat r.conn.minRwnd (r.conn.serverRwnd - n)).1 := by
    rw [← h.settings_eq]
    rfl
  refine ⟨?_, ?_, ?_, fun s' hs' hid => ?_, fun s' hs' => ?_, fun id hid => ?_⟩
  · dsimp only
    rw [hupdates, if_pos rfl, if_neg hne, hserver, hc_eq, hw.eq]
    ring
  · dsimp only
    rw [hserver]
    exact hc_pos
  · dsimp only
    rw [hserver]
    exact hc_le
  · dsimp only
    rw [hstream_peer s'.id hid]
    rcases hmem s' hs' with ⟨hid', hrwnd⟩ | ⟨hs', hne'⟩
    · have := hw.stream s hs hclient
      rw [if_pos hid'.symm, hrwnd, hid']
      linarith
    · rw [if_neg hne', add_zero]
      exact hw.stream s' hs' hid
  · rcases hmem s' hs' with ⟨_, hrwnd⟩ | ⟨hs', _⟩
    · rw [hrwnd]
      exact hs_le
    · exact hw.stream_le s' hs'
  · dsimp only
    rw [hstream_peer id hid]
    by_cases heq : s.id = id
    · have := hw.stream s hs hclient
      rw [if_pos heq, ← heq]
      linarith
    · rw [if_neg heq, add_zero]
      exact hw.peer_le id hid

theorem data_inv (hconfig : HTTP2_INITIAL_WINDOW_SIZE ≤ (config.settings .initialWindowSize).toNat) {r : Run} (h : Inv config r)
    {f : DataFrame} (hconf : Conforming r (.data f)) (hrec : Receivable r (.data f)) : Inv config (step r (.data f)) := by
  obtain ⟨hclient, _, _, hpeer, hpeerStream⟩ := hconf
  rcases rcvDataFrame_cases h.streams.addrs f hclient with hnot | ⟨c₁, s, ht⟩
  · -- an open connection has taken nothing, so there was nothing in the frame
    have hstreams : Streams.Inv ⟨(r.conn.rcvDataFrame f).1, r.created⟩ := h.streams.congr (c := r.conn) hnot.keys
    obtain ⟨hk, hs⟩ := Flow.handleError_kept hstreams.addrs f.streamId (r.conn.rcvDataFrame f).2.1
    have hkept := hnot.kept.trans hk
    have hafter := h.kept (hstreams.congr (c := (r.conn.rcvDataFrame f).1) hs) hkept
    have hnone : r.conn.halfCloseLocal = false → (r.conn.rcvDataFrame f).2.1.code ≠ .flowControlError := by
      intro hopen hcode
      have hw := h.windows hopen
      obtain ⟨_, s, hfind, hlow⟩ := hnot.accused hcode
      have hmem : s ∈ r.conn.streamList := List.mem_of_find?_eq_some hfind
      have hid : s.id = f.streamId := by
        have := List.find?_some hfind
        simpa using this
      have hstream := hw.stream s hmem (hid ▸ hclient)
      rw [hid] at hstream
      rcases hlow with hlow | hlow
      · rw [hw.eq] at hpeer
        exact absurd hpeer (not_le.mpr hlow)
      · exact absurd (hpeerStream.trans hstream) (not_le.mpr hlow)
    have hempty : ((r.conn.rcvDataFrame f).1.handleError f.streamId (r.conn.rcvDataFrame f).2.1).halfCloseLocal = false →
        f.payloadLength = 0 := by
      intro hopen
      by_contra hpos
      have hopen₀ := hkept.still_open hopen
      obtain ⟨s, hs, hid, hcan⟩ := hrec hopen₀ (Nat.pos_of_ne_zero hpos)
      have hfind : r.conn.findStream f.streamId = some s := hid ▸ findStream_of_mem h hs
      have hw := h.windows hopen₀
      rcases hnot.received s hfind hcan (Nat.pos_of_ne_zero hpos) with hcls | hlow
      · rw [Http2ConnectionState.handleError, hcls] at hopen
        exact absurd hopen (by simp)
      · have hstream := hw.stream s hs (hid ▸ hclient)
        rw [hid] at hstream
        exact absurd (hpeerStream.trans hstream) (not_le.mpr hlow)
    refine ⟨hafter.streams, hafter.settings_eq, hafter.initial_eq, fun hopen => ?_, ?_⟩
    · have hw := hafter.windows hopen
      have h0 := hempty hopen
      simp only [step, hnot.updates, h0, increments, Nat.cast_zero, ite_self, sub_zero, add_zero]
      exact ⟨hw.eq, hw.pos, hw.le, hw.stream, hw.stream_le, hw.peer_le⟩
    · simp only [step, h.not_accused, Bool.false_or, Bool.and_eq_false_iff, Bool.not_eq_false', decide_eq_false_iff_not]
      cases hopen : r.conn.halfCloseLocal with
      | true => exact Or.inl rfl
      | false => exact Or.inr (hnone hopen)
  · have hafter := h.kept (h.streams.congr (c := r.conn) ht.keys) ht.kept
    have hstep : step r (.data f) = { r with
        conn := (c₁.takeFromWindows s f.payloadLength).1
        peerRwnd := r.peerRwnd - f.payloadLength + increments 0 (c₁.takeFromWindows s f.payloadLength).2
        peerStreamRwnd := fun id => r.peerStreamRwnd id - (if id = s.id then f.payloadLength else 0) +
          increments id (c₁.takeFromWindows s f.payloadLength).2 } := by
      simp [step, ht.eq, ht.id_eq, Http2ConnectionState.handleError, Http2Error.ok]
    rw [hstep]
    exact hafter.takeFromWindows hconfig ht.mem (ht.id_eq ▸ hclient) ht.connection ht.stream

theorem step_inv (hconfig : HTTP2_INITIAL_WINDOW_SIZE ≤ (config.settings .initialWindowSize).toNat) {r : Run} (h : Inv config r)
    {op : Op} (hconf : Conforming r op) (hrec : Receivable r op) : Inv config (step r op) := by
  cases op with
  | data f => exact data_inv hconfig h hconf hrec
  | create newId => exact create_inv h newId
  | delete addr => exact h.kept (Streams.delete_inv h.streams) (Flow.delete_kept h.streams.addrs addr)
  | change addr type endHeaders recvEnd sendEnd =>
    refine h.change addr _ fun s => ⟨?_, ?_⟩
    · rw [Streams.changeState_eq]
    · have hflags : Flow.SameWindows s { s with
          recvEndStream := s.recvEndStream || recvEnd, sendEndStream := s.sendEndStream || sendEnd } := ⟨rfl, rfl, rfl⟩
      exact hflags.changeState type endHeaders
  | contentLength addr length => exact h.change addr _ fun s => ⟨rfl, rfl, rfl, rfl⟩
  | error streamId error => exact h.handleError streamId error

/-- bytes for a stream that cannot receive are missing on one side -/
theorem not_agreed {r : Run} (h : Inv config r) {op : Op} (hconf : Conforming r op) (hrec : ¬ Receivable r op) : ¬ Agreed (step r op) := by
  cases op with
  | data f =>
    obtain ⟨hclient, hvalid, hstates, _, _⟩ := hconf
    simp only [Receivable, not_forall] at hrec
    obtain ⟨hopen, hpos, hnone⟩ := hrec
    have hw := h.windows hopen
    have hclosed : ∃ error : Http2Error, error.cls = .stream ∧ r.conn.rcvDataFrame f = (r.conn, error, []) := by
      unfold Http2ConnectionState.rcvDataFrame
      rw [if_neg (by simp [hclient])]
      cases hfind : r.conn.findStream f.streamId with
      | none => exact ⟨_, rfl, if_pos hvalid⟩
      | some s =>
        have hid : s.id = f.streamId := by
          have := List.find?_some hfind
          simpa using this
        have hstate : s.state ≠ .opened ∧ s.state ≠ .halfClosedLocal :=
          not_or.mp fun hcan => hnone ⟨s, List.mem_of_find?_eq_some hfind, hid, hcan⟩
        exact ⟨_, rfl, if_pos hstate⟩
    obtain ⟨error, hcls, heq⟩ := hclosed
    have hstill : (r.conn.sendRstStreamFrame f.streamId).halfCloseLocal = false ∧
        (r.conn.sendRstStreamFrame f.streamId).serverRwnd = r.conn.serverRwnd := by
      refine ⟨?_, (Flow.sendRst_kept h.streams.addrs f.streamId).server_eq⟩
      unfold Http2ConnectionState.sendRstStreamFrame
      cases hfind : r.conn.findStream f.streamId with
      | none => exact hopen
      | some s =>
        have hid : s.id = f.streamId := by
          have := List.find?_some hfind
          simpa using this
        obtain ⟨h1, h2, h3⟩ := hstates s (List.mem_of_find?_eq_some hfind) hid
        have hlegal : (s.changeState .rstStream false).2 = true := by
          unfold Http2Stream.changeState
          cases hstate : s.state <;> simp_all
        simp only [hlegal, if_true]
        exact hopen
    intro hagreed
    have hwin := hagreed.windows
    simp only [step, heq, Http2ConnectionState.handleError, hcls, increments, add_zero] at hwin
    have := (hwin hstill.1).1
    rw [hstill.2, ← hw.eq] at this
    omega
  | create newId => exact absurd trivial hrec
  | delete addr => exact absurd trivial hrec
  | change addr type endHeaders recvEnd sendEnd => exact absurd trivial hrec
  | contentLength addr length => exact absurd trivial hrec
  | error streamId error => exact absurd trivial hrec

/-! ### Whole runs -/

theorem start_peer (config : Http2Config) :
    (start config).peerRwnd = max (config.settings .initialWindowSize).toNat HTTP2_INITIAL_WINDOW_SIZE := by
  unfold start sessionInit
  dsimp only
  by_cases hbig : (config.settings .initialWindowSize).toNat > HTTP2_INITIAL_WINDOW_SIZE
  · rw [if_pos hbig]
    have hsub : (config.settings .initialWindowSize - 65535).toNat = (config.settings .initialWindowSize).toNat - 65535 :=
      BitVec.toNat_sub_of_le (by rw [BitVec.le_def]; exact hbig.le)
    simp only [increments, if_true, hsub]
    unfold HTTP2_INITIAL_WINDOW_SIZE at hbig ⊢
    omega
  · rw [if_neg hbig]
    simp only [increments, add_zero]
    omega

theorem start_inv (hconfig : HTTP2_INITIAL_WINDOW_SIZE ≤ (config.settings .initialWindowSize).toNat) : Inv config (start config) := by
  have hstreams : Streams.Inv ⟨newConnection (config.settings .initialWindowSize), []⟩ := Streams.new_inv _
  refine ⟨hstreams.congr (c := newConnection (config.settings .initialWindowSize)) ⟨rfl, rfl, rfl, fun _ => rfl, fun _ => rfl⟩,
    rfl, rfl, fun _ => ?_, rfl⟩
  have hmax : max (config.settings .initialWindowSize).toNat HTTP2_INITIAL_WINDOW_SIZE = (config.settings .initialWindowSize).toNat :=
    max_eq_left hconfig
  have hserver : (start config).conn.serverRwnd = (config.settings .initialWindowSize).toNat := rfl
  have hpos : 0 < (config.settings .initialWindowSize).toNat := lt_of_lt_of_le (by decide) hconfig
  refine ⟨?_, ?_, hserver.le, fun s hs => absurd hs (by simp [start, sessionInit, newConnection]),
    fun s hs => absurd hs (by simp [start, sessionInit, newConnection]), fun id _ => ?_⟩
  · rw [start_peer, hmax, hserver]
  · rw [hserver]
    exact_mod_cast hpos
  · have hpeer : (start config).peerStreamRwnd id =
        max ((config.settings .initialWindowSize).toNat : ℤ) HTTP2_INITIAL_WINDOW_SIZE := rfl
    rw [hpeer]
    exact_mod_cast hmax.le

theorem receive_window_agreement (config : Http2Config) (ops : List Op) (hconf : Along step Conforming (start config) ops) :
    (∀ n, Agreed ((ops.take n).foldl step (start config))) ↔
      HTTP2_INITIAL_WINDOW_SIZE ≤ (config.settings .initialWindowSize).toNat ∧ Along step Receivable (start config) ops := by
  constructor
  · intro hagreed
    have hconfig : HTTP2_INITIAL_WINDOW_SIZE ≤ (config.settings .initialWindowSize).toNat := by
      have h0 := ((hagreed 0).windows rfl).1
      simp only [List.take_zero, List.foldl_nil, start_peer] at h0
      have hserver : (start config).conn.serverRwnd = (config.settings .initialWindowSize).toNat := rfl
      rw [hserver] at h0
      exact max_eq_left_iff.mp (by exact_mod_cast h0)
    exact ⟨hconfig, (along_iff (I := Inv config) (fun _ h => h.agreed) (fun _ _ h hc hp => step_inv hconfig h hc hp)
      (fun _ _ h hc hp => not_agreed h hc hp) hconf (start_inv hconfig)).mp hagreed⟩
  · rintro ⟨hconfig, hrec⟩
    exact (along_iff (I := Inv config) (fun _ h => h.agreed) (fun _ _ h hc hp => step_inv hconfig h hc hp)
      (fun _ _ h hc hp => not_agreed h hc hp) hconf (start_inv hconfig)).mpr hrec

/-! ### Two runs with the default configuration -/

def recordsConfig : Http2SettingsIdentifier → BitVec 32
  | .initialWindowSize => 1048576
  | .maxConcurrentStreams => 100
  | .maxHeaderListSize => 131072
  | id => defaultSettings id

theorem recordsConfig_valid (id : Http2SettingsIdentifier) : settingsParameterIsValid id (recordsConfig id) = true := by
  cases id <;> rfl

def defaultConfig : Http2Config := ⟨recordsConfig, recordsConfig_valid⟩

theorem thousand_lt : 1000 < 2 ^ 24 := by decide

/-- a thousand bytes of the first stream, ten of them padding -/
def thousandBytes : DataFrame := ⟨1, 1000, thousand_lt, true, 10, false⟩

/-- the first stream is opened, and gets the bytes -/
def upload : List Op := [.create 1, .change 0 .headers true false false, .data thousandBytes]

/-- the first stream is opened and deleted, and its bytes come later -/
def lateUpload : List Op := [.create 1, .change 0 .headers true false false, .delete 0, .data thousandBytes]

theorem upload_agreed : Agreed (upload.foldl step (start defaultConfig)) := by
  have hconf : Along step Conforming (start defaultConfig) upload :=
    ⟨trivial, trivial, ⟨by decide, by decide, by decide, by decide, by decide⟩, trivial⟩
  have hreceivable : Along step Receivable (start defaultConfig) upload :=
    ⟨trivial, trivial, fun _ _ => ⟨_, List.mem_singleton.mpr rfl, rfl, Or.inl rfl⟩, trivial⟩
  exact (receive_window_agreement defaultConfig upload hconf).mpr ⟨by decide, hreceivable⟩ upload.length

theorem closed_stream_leak : Along step Conforming (start defaultConfig) lateUpload ∧
    (lateUpload.foldl step (start defaultConfig)).conn.halfCloseLocal = false ∧
    (lateUpload.foldl step (start defaultConfig)).peerRwnd = 1047576 ∧
    (lateUpload.foldl step (start defaultConfig)).conn.serverRwnd = 1048576 := by
  refine ⟨⟨trivial, trivial, trivial, ⟨by decide, by decide, by decide, by decide, by decide⟩, trivial⟩, ?_, ?_, ?_⟩
  · decide
  · decide
  · decide

end Receive

end TrafficServer.Http2
