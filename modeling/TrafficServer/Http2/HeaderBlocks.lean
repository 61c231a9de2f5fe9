/-
Header blocks of an HTTP/2 connection and its HPACK table (`rcv_headers_frame`, `rcv_continuation_frame`).

A header block comes in a HEADERS frame and the CONTINUATION frames behind it. When it is complete it is decoded, which also changes the
dynamic table of the connection, so that every block has to be decoded, whatever becomes of its stream. `rcv_headers_frame` has some
returns with an error of the stream, or without an error, before that.

`header_table`: as long as no error of the connection was returned the table is what decoding all complete blocks in their order gives,
in every run in which no HEADERS frame takes one of these returns (`Decodes`). `refused_block` is a run with a stream beyond the limit,
whose block is missing in the table.

The decoder is a parameter: what a block does to a table, and how the request of a stream comes out. Behind a payload that is too short for
its padding the code reads what happens to be there (`rest`). The priority tree is left out.
-/
import TrafficServer.Http2.ReceiveWindow
import TrafficServer.Http2.HpackTable

namespace TrafficServer.Http2

open TrafficServer.Run

/-! ## Frames -/

abbrev Bytes := List (BitVec 8)

structure HeadersFrame where
  streamId : ℕ
  payload : Bytes
  endStream : Bool
  endHeaders : Bool
  padded : Bool
  priority : Bool
  /-- what is behind the payload -/
  rest : Bytes
  payload_lt : payload.length < 2 ^ 24

namespace HeadersFrame

variable (f : HeadersFrame)

def padLength : ℕ := if f.padded then ((f.payload ++ f.rest).headD 0).toNat else 0

def padOffset : ℕ := if f.padded then 1 else 0

/-- `header_block_fragment_offset` -/
def offset : ℕ := f.padOffset + if f.priority then 5 else 0

/-- `header_block_fragment_length`, with 32 bits -/
def fragmentLength : ℕ := (f.payload.length + 2 ^ 32 - (f.padOffset + f.padLength) - if f.priority then 5 else 0) % 2 ^ 32

def headerBlocks : Bytes := ((f.payload ++ f.rest).drop f.offset).take f.fragmentLength

/-- `stream_dependency` of the priority, without the bit of the exclusive flag -/
def streamDependency : ℕ :=
  let b := (f.payload ++ f.rest).drop f.padOffset
  (b.getD 0 0).toNat % 2 ^ 7 * 2 ^ 24 + (b.getD 1 0).toNat * 2 ^ 16 + (b.getD 2 0).toNat * 2 ^ 8 + (b.getD 3 0).toNat

/-- the fragment of the header block that the frame carries -/
def fragment : Bytes := (f.payload.drop f.offset).take (f.payload.length - f.offset - f.padLength)

/-- the payload has room for its padding and its priority -/
def Fits : Prop := f.offset + f.padLength ≤ f.payload.length

end HeadersFrame

structure ContinuationFrame where
  streamId : ℕ
  payload : Bytes
  endHeaders : Bool

/-! ## Decoding -/

/-- what a header block does, with `max_header_list_size` and the size of the table given -/
structure Decoder (τ η : Type*) where
  table : τ → Bytes → τ
  /-- a request without fields -/
  empty : η
  /-- the result, the request with the new fields, and whether a trailing header follows -/
  request : τ → η → Bool → Bytes → Http2ErrorCode × η × Bool

structure HeaderState (τ η : Type*) where
  conn : Http2ConnectionState
  continuedStreamId : ℕ
  /-- `local_hpack_handle` -/
  table : τ
  /-- `_req_header` of the streams -/
  requests : ℕ → η

namespace HeaderState

variable {τ η : Type*} (d : Decoder τ η) (maxHeaderListSize : ℕ) (st : HeaderState τ η)

/-- a stream is written back -/
def put (s : Http2Stream) : HeaderState τ η := { st with conn := st.conn.modify s.addr fun _ => s }

def decodeHeaderBlocks (s : Http2Stream) : HeaderState τ η × Http2ErrorCode :=
  let (code, request, trailing) := d.request st.table (st.requests s.addr) s.trailingHeader s.headerBlocks
  ({ st.put { s with trailingHeader := trailing } with
      table := d.table st.table s.headerBlocks
      requests := Function.update st.requests s.addr request }, code)

/-- the error of a HEADERS frame with this result -/
def headersResult : Http2ErrorCode → Http2Error
  | .noError => .ok
  | .compressionError => ⟨.connection, .compressionError, "recv headers compression error"⟩
  | .enhanceYourCalm => ⟨.connection, .enhanceYourCalm, "recv headers enhance your calm"⟩
  | _ => ⟨.stream, .protocolError, "recv headers malformed request"⟩

def continuationResult : Http2ErrorCode → Http2Error
  | .noError => .ok
  | .compressionError => ⟨.connection, .compressionError, "continuation compression error"⟩
  | .enhanceYourCalm => ⟨.connection, .enhanceYourCalm, "continuation enhance your calm"⟩
  | _ => ⟨.connection, .protocolError, "continuation malformed request"⟩

/-- `request_header_length` with the bytes of a frame -/
def headerLength (s : Http2Stream) (payloadLength : ℕ) : ℕ := (s.requestHeaderLength + payloadLength) % 2 ^ 32

/-- the block of a stream is stored, and decoded if it is complete -/
def storeHeaders (s : Http2Stream) (f : HeadersFrame) : HeaderState τ η × Http2Error :=
  if f.endHeaders then
    let p := s.changeState .headers true
    if p.2 = false ∧ s.trailingHeader = false then
      (st.put p.1, ⟨.connection, .protocolError, "recv headers end headers and not trailing header"⟩)
    else if s.trailingHeader ∧ f.endStream = false then
      (st.put p.1, ⟨.stream, .protocolError, "recv headers tailing header without endstream"⟩)
    else
      let q := (st.put p.1).decodeHeaderBlocks d p.1
      (q.1, headersResult q.2)
  else ({ st.put s with continuedStreamId := f.streamId }, .ok)

/-- the part of `rcv_headers_frame` that has a stream -/
def headersOf (s : Http2Stream) (f : HeadersFrame) : HeaderState τ η × Http2Error :=
  if s.state = .closed then (st, .ok)
  else
    let s := { s with requestHeaderLength := headerLength s f.payload.length }
    if s.requestHeaderLength > maxHeaderListSize then
      (st.put s, ⟨.stream, .protocolError, "recv headers payload for headers greater than header length"⟩)
    else
      let s := { s with recvEndStream := s.recvEndStream || f.endStream }
      if f.padded ∧ f.padLength > f.payload.length then
        (st.put s, ⟨.connection, .protocolError, "recv headers pad > payload length"⟩)
      else if f.priority ∧ f.streamId = f.streamDependency then
        (st.put s, ⟨.stream, .protocolError, "recv headers self dependency"⟩)
      else st.storeHeaders d { s with headerBlocks := f.headerBlocks } f

def rcvHeadersFrame (f : HeadersFrame) : HeaderState τ η × Http2Error :=
  if http2IsClientStreamid f.streamId = false then (st, ⟨.connection, .protocolError, "recv headers bad client id"⟩)
  else if st.conn.isValidStreamid f.streamId then
    match st.conn.findStream f.streamId with
    | none => (st, ⟨.connection, .streamClosed, "recv headers cannot find existing stream_id"⟩)
    | some s =>
      if s.trailingHeader = false then (st, ⟨.connection, .streamClosed, "recv headers cannot find existing stream_id"⟩)
      else st.headersOf d maxHeaderListSize s f
  else
    match st.conn.createStream f.streamId with
    | (_, .error error) => (st, error)
    | (c, .ok addr) =>
      { st with conn := c, requests := Function.update st.requests addr d.empty }.headersOf d maxHeaderListSize
        (st.conn.newStream f.streamId) f

def rcvContinuationFrame (f : ContinuationFrame) : HeaderState τ η × Http2Error :=
  if http2IsClientStreamid f.streamId = false then (st, ⟨.connection, .protocolError, "continuation bad client id"⟩)
  else
    match st.conn.findStream f.streamId with
    | none =>
      if st.conn.isValidStreamid f.streamId then (st, ⟨.connection, .streamClosed, "continuation stream freed with valid id"⟩)
      else (st, ⟨.connection, .protocolError, "continuation stream freed with invalid id"⟩)
    | some s =>
      if s.state = .halfClosedRemote then (st, ⟨.connection, .streamClosed, "continuation half close remote"⟩)
      else if s.state ≠ .idle then (st, ⟨.connection, .protocolError, "continuation bad state"⟩)
      else
        let s := { s with requestHeaderLength := headerLength s f.payload.length }
        if s.requestHeaderLength > maxHeaderListSize then
          (st.put s, ⟨.connection, .protocolError, "continuation payload for headers exceeded"⟩)
        else
          let s := { s with headerBlocks := s.headerBlocks ++ f.payload }
          if f.endHeaders then
            let st := { st with continuedStreamId := 0 }
            let p := s.changeState .continuation true
            if p.2 = false then (st.put p.1, ⟨.connection, .protocolError, "continuation no state change"⟩)
            else
              let q := (st.put p.1).decodeHeaderBlocks d p.1
              (q.1, continuationResult q.2)
          else (st.put s, .ok)

/-- the check of the session before a frame of type HEADERS or CONTINUATION is read -/
def continuationExpected : Http2Error := ⟨.connection, .protocolError, ""⟩

end HeaderState

/-! ## Runs -/

namespace Headers

variable {τ η : Type*} (d : Decoder τ η) (maxHeaderListSize : ℕ)

inductive Op where
  | headers (f : HeadersFrame)
  | continuation (f : ContinuationFrame)
  | delete (addr : ℕ)
  /-- a frame of another type, received or sent, with the end of the stream in that direction -/
  | change (addr : ℕ) (type : Http2FrameType) (endHeaders recvEnd sendEnd : Bool)
  /-- the second GOAWAY frame of a graceful shutdown -/
  | shutdown

/-- a connection, and the header blocks that its peer has sent -/
structure Run (τ η : Type*) where
  st : HeaderState τ η
  /-- an error of the connection was returned -/
  torn : Bool
  /-- the block that is not complete yet, with its stream -/
  pending : Option (ℕ × Bytes)
  blocks : List Bytes

/-- the peer sends a part of a block -/
def Run.received (r : Run τ η) (id : ℕ) (block : Bytes) (complete : Bool) : Run τ η :=
  if complete then { r with pending := none, blocks := r.blocks ++ [block] } else { r with pending := some (id, block) }

/-- the result of a frame -/
def Run.result (r : Run τ η) (id : ℕ) (p : HeaderState τ η × Http2Error) : Run τ η :=
  { r with
    st := { p.1 with conn := p.1.conn.handleError id p.2 }
    torn := r.torn || p.2.cls = .connection }

def step (r : Run τ η) : Op → Run τ η
  | .headers f =>
    (r.result f.streamId (if r.st.continuedStreamId ≠ 0 then (r.st, HeaderState.continuationExpected)
      else r.st.rcvHeadersFrame d maxHeaderListSize f)).received f.streamId f.fragment f.endHeaders
  | .continuation f =>
    let r' := r.result f.streamId (if r.st.continuedStreamId ≠ 0 ∧ r.st.continuedStreamId ≠ f.streamId then
      (r.st, HeaderState.continuationExpected) else r.st.rcvContinuationFrame d maxHeaderListSize f)
    match r.pending with
    | some (id, block) => if id = f.streamId then r'.received id (block ++ f.payload) f.endHeaders else r'
    | none => r'
  | .delete addr => { r with st := { r.st with conn := (r.st.conn.deleteStream addr).1 } }
  | .change addr type endHeaders recvEnd sendEnd =>
    { r with st := { r.st with conn := r.st.conn.modify addr fun s =>
        ({ s with recvEndStream := s.recvEndStream || recvEnd, sendEndStream := s.sendEndStream || sendEnd }.changeState
          type endHeaders).1 } }
  | .shutdown => { r with st := { r.st with conn := { r.st.conn with halfCloseLocal := true } } }

def start (config : Http2Config) (table : τ) : Run τ η where
  st := ⟨(sessionInit config).1, 0, table, fun _ => d.empty⟩
  torn := false
  pending := none
  blocks := []

/-- the table is that of all complete blocks -/
def Decoded (table : τ) (r : Run τ η) : Prop := r.torn = false → r.st.table = r.blocks.foldl d.table table

/-- the frame does not leave `rcv_headers_frame` before its block is decoded, apart from errors of the connection -/
def Decodes (r : Run τ η) : Op → Prop
  | .headers f => r.torn = false → r.st.continuedStreamId = 0 → http2IsClientStreamid f.streamId = true →
    (r.st.conn.isValidStreamid f.streamId = false →
      (∀ error, r.st.conn.createError f.streamId = some error → error.cls = .stream → f.endHeaders = false) ∧
      (r.st.conn.createError f.streamId = none →
        f.Fits ∧ f.payload.length ≤ maxHeaderListSize ∧ (f.priority = true → f.streamId ≠ f.streamDependency))) ∧
    (∀ s ∈ r.st.conn.streamList, s.id = f.streamId → s.trailingHeader = true → f.endHeaders = true →
      s.state ≠ .closed ∧ f.Fits ∧ HeaderState.headerLength s f.payload.length ≤ maxHeaderListSize ∧
      (f.priority = true → f.streamId ≠ f.streamDependency) ∧ f.endStream = true)
  | _ => True

/-! ## What a run keeps -/

theorem headerBlocks_eq {f : HeadersFrame} (h : f.Fits) : f.headerBlocks = f.fragment := by
  have hlen : f.fragmentLength = f.payload.length - f.offset - f.padLength := by
    have hlt := f.payload_lt
    unfold HeadersFrame.Fits HeadersFrame.offset at h
    unfold HeadersFrame.fragmentLength HeadersFrame.offset
    omega
  unfold HeadersFrame.Fits at h
  unfold HeadersFrame.headerBlocks HeadersFrame.fragment
  rw [hlen, List.drop_append_of_le_length (by omega), List.take_append_of_le_length (by rw [List.length_drop]; omega)]

theorem changeState_not_idle {s : Http2Stream} (h : s.state ≠ .idle) (type : Http2FrameType) (endHeaders : Bool) :
    (s.changeState type endHeaders).1.state ≠ .idle := by
  unfold Http2Stream.changeState
  cases hstate : s.state with
  | idle => exact absurd hstate h
  | closed => simp [hstate]
  | reservedRemote => simp [hstate]
  | _ =>
    cases type
    all_goals
      dsimp only
      first
        | split_ifs <;> simp [hstate]
        | simp [hstate]

/-- behind a header block a stream is not idle -/
theorem changeState_request (s : Http2Stream) {type : Http2FrameType} (htype : type = .headers ∨ type = .continuation) (endHeaders : Bool) :
    (s.changeState type endHeaders).1.state ≠ .idle ∧ (s.state = .idle → (s.changeState type endHeaders).2 = true) := by
  by_cases hidle : s.state = .idle
  · unfold Http2Stream.changeState
    rcases htype with rfl | rfl
    all_goals
      rw [hidle]
      dsimp only
      split_ifs
      all_goals simp
  · exact ⟨changeState_not_idle hidle type endHeaders, fun h => absurd h hidle⟩

/-- an idle stream is the one whose block is not complete -/
structure Ready (c : Http2ConnectionState) (continuedStreamId : ℕ) (pending : Option (ℕ × Bytes)) : Prop where
  idle : ∀ s ∈ c.streamList, http2IsClientStreamid s.id = true → s.state = .idle →
    pending = some (s.id, s.headerBlocks) ∧ continuedStreamId = s.id
  trailing : ∀ s ∈ c.streamList, s.trailingHeader = true → s.state ≠ .idle

structure Inv (table : τ) (r : Run τ η) : Prop where
  streams : ∃ created, Streams.Inv ⟨r.st.conn, created⟩
  decoded : Decoded d table r
  ready : r.torn = false → Ready r.st.conn r.st.continuedStreamId r.pending

/-! ### Steps without a header block -/

/-- the streams that are left have their blocks, and none of them becomes idle -/
def Calm (c c' : Http2ConnectionState) : Prop := ∀ s' ∈ c'.streamList, ∃ s ∈ c.streamList,
  s.id = s'.id ∧ s.headerBlocks = s'.headerBlocks ∧ s.trailingHeader = s'.trailingHeader ∧ (s'.state = .idle → s.state = .idle)

theorem calm_changeState (s : Http2Stream) (type : Http2FrameType) (endHeaders : Bool) :
    (s.changeState type endHeaders).1.id = s.id ∧ (s.changeState type endHeaders).1.headerBlocks = s.headerBlocks ∧
      (s.changeState type endHeaders).1.trailingHeader = s.trailingHeader ∧
      ((s.changeState type endHeaders).1.state = .idle → s.state = .idle) := by
  refine ⟨?_, ?_, ?_, fun hidle => ?_⟩
  · rw [Streams.changeState_eq]
  · rw [Streams.changeState_eq]
  · rw [Streams.changeState_eq]
  · by_contra hne
    exact changeState_not_idle hne type endHeaders hidle

theorem Calm.refl (c : Http2ConnectionState) : Calm c c := fun s hs => ⟨s, hs, rfl, rfl, rfl, id⟩

/-- some streams are reset -/
theorem calm_of_reset {c c' : Http2ConnectionState}
    (h : ∀ s' ∈ c'.streamList, ∃ s ∈ c.streamList, s' = s ∨ s' = (s.changeState .rstStream false).1) : Calm c c' := by
  intro s' hs'
  obtain ⟨s, hs, rfl | rfl⟩ := h s' hs'
  · exact ⟨s', hs, rfl, rfl, rfl, id⟩
  · obtain ⟨hid, hblocks, htrailing, hidle⟩ := calm_changeState s .rstStream false
    exact ⟨s, hs, hid.symm, hblocks.symm, htrailing.symm, hidle⟩

theorem handleError_calm {c : Http2ConnectionState} (h : (c.streamList.map Http2Stream.addr).Nodup) (id : ℕ) (error : Http2Error) :
    Calm c (c.handleError id error) := by
  unfold Http2ConnectionState.handleError
  cases error.cls with
  | none => exact Calm.refl c
  | connection => exact Calm.refl c
  | stream => exact calm_of_reset fun s' hs' => Streams.sendRst_mem h hs'

theorem Ready.calm {c c' : Http2ConnectionState} {k : ℕ} {pending : Option (ℕ × Bytes)} (h : Ready c k pending) (hc : Calm c c') :
    Ready c' k pending := by
  refine ⟨fun s' hs' hclient hidle => ?_, fun s' hs' htrailing => ?_⟩
  · obtain ⟨s, hs, hid, hblocks, _, hstate⟩ := hc s' hs'
    rw [← hid, ← hblocks]
    exact h.idle s hs (hid ▸ hclient) (hstate hidle)
  · obtain ⟨s, hs, _, _, htr, hstate⟩ := hc s' hs'
    exact fun hidle => h.trailing s hs (htr.trans htrailing) (hstate hidle)

variable {d maxHeaderListSize} {table : τ}

theorem Inv.calm {r : Run τ η} {c : Http2ConnectionState} (h : Inv d table r) (hs : ∃ created, Streams.Inv ⟨c, created⟩)
    (hc : Calm r.st.conn c) : Inv d table { r with st := { r.st with conn := c } } :=
  ⟨hs, h.decoded, fun htorn => (h.ready htorn).calm hc⟩

/-! ### HEADERS -/

/-- one stream is written back, and the others are not idle -/
theorem ready_put {st : HeaderState τ η} {s s' : Http2Stream} {k : ℕ} {pending : Option (ℕ × Bytes)} (haddr : s'.addr = s.addr)
    (hothers : ∀ s₁ ∈ st.conn.streamList, s₁.addr ≠ s.addr → http2IsClientStreamid s₁.id = true → s₁.state ≠ .idle)
    (htrailing : ∀ s₁ ∈ st.conn.streamList, s₁.trailingHeader = true → s₁.state ≠ .idle)
    (hidle : s'.state = .idle → (pending = some (s'.id, s'.headerBlocks) ∧ k = s'.id) ∧ s'.trailingHeader = false) :
    Ready (st.put s').conn k pending := by
  unfold HeaderState.put
  rw [haddr]
  refine ⟨fun s₁ hs₁ hclient h₁ => ?_, fun s₁ hs₁ htr h₁ => ?_⟩
  · obtain ⟨s₀, hs₀, rfl⟩ := List.mem_map.mp hs₁
    by_cases ha : s₀.addr = s.addr
    · rw [if_pos ha] at h₁ ⊢
      exact (hidle h₁).1
    · rw [if_neg ha] at h₁ hclient ⊢
      exact absurd h₁ (hothers s₀ hs₀ ha hclient)
  · obtain ⟨s₀, hs₀, rfl⟩ := List.mem_map.mp hs₁
    by_cases ha : s₀.addr = s.addr
    · rw [if_pos ha] at h₁ htr
      exact absurd htr (by simp [(hidle h₁).2])
    · rw [if_neg ha] at h₁ htr
      exact absurd h₁ (htrailing s₀ hs₀ htr)

theorem put_put (st : HeaderState τ η) {s s' : Http2Stream} (h : s.addr = s'.addr) : (st.put s).put s' = st.put s' := by
  unfold HeaderState.put Http2ConnectionState.modify
  dsimp only
  rw [List.map_map, h]
  congr 2
  apply List.map_congr_left
  intro s₀ _
  by_cases ha : s₀.addr = s'.addr
  · simp [ha, h]
  · simp [ha]

theorem put_sameKeys {st : HeaderState τ η} (hnodup : (st.conn.streamList.map Http2Stream.addr).Nodup) {s s' : Http2Stream}
    (hs : s ∈ st.conn.streamList) (haddr : s'.addr = s.addr) (hid : s'.id = s.id) : Streams.SameKeys st.conn (st.put s').conn := by
  refine Streams.modify_sameKeys st.conn s'.addr (fun _ => s') fun s₀ hs₀ ha => ?_
  rw [Streams.eq_of_addr hnodup hs₀ hs (ha.trans haddr)]
  exact ⟨haddr, hid⟩

/-- what has to hold of a frame for a stream -/
structure Good (maxHeaderListSize : ℕ) (s : Http2Stream) (f : HeadersFrame) : Prop where
  not_closed : s.state ≠ .closed
  fits : f.Fits
  length_le : HeaderState.headerLength s f.payload.length ≤ maxHeaderListSize
  dependency : f.priority = true → f.streamId ≠ f.streamDependency
  endStream : s.trailingHeader = true → f.endStream = true

theorem headersOf_keys {st : HeaderState τ η} (hnodup : (st.conn.streamList.map Http2Stream.addr).Nodup) {s : Http2Stream}
    (hs : s ∈ st.conn.streamList) (f : HeadersFrame) : Streams.SameKeys st.conn (st.headersOf d maxHeaderListSize s f).1.conn := by
  have hput : ∀ s' : Http2Stream, s'.addr = s.addr → s'.id = s.id → Streams.SameKeys st.conn (st.put s').conn :=
    fun s' => put_sameKeys hnodup hs
  unfold HeaderState.headersOf HeaderState.storeHeaders HeaderState.decodeHeaderBlocks
  dsimp only
  split_ifs
  · exact Streams.SameKeys.refl _
  · exact hput _ rfl rfl
  · exact hput _ rfl rfl
  · exact hput _ rfl rfl
  · exact hput _ (by rw [Streams.changeState_eq]) (by rw [Streams.changeState_eq])
  · exact hput _ (by rw [Streams.changeState_eq]) (by rw [Streams.changeState_eq])
  · rw [put_put]
    · exact hput _ (by rw [Streams.changeState_eq]) (by rw [Streams.changeState_eq])
    · rfl
  · exact hput _ rfl rfl

theorem headersOf_ready {st : HeaderState τ η} (hnodup : (st.conn.streamList.map Http2Stream.addr).Nodup) {s : Http2Stream}
    {f : HeadersFrame} (hs : s ∈ st.conn.streamList) (hid : s.id = f.streamId)
    (hothers : ∀ s₁ ∈ st.conn.streamList, s₁.addr ≠ s.addr → http2IsClientStreamid s₁.id = true → s₁.state ≠ .idle)
    (htrailing : ∀ s₁ ∈ st.conn.streamList, s₁.trailingHeader = true → s₁.state ≠ .idle)
    (hgood : f.endHeaders = true ∨ s.state = .idle → Good maxHeaderListSize s f) :
    (st.headersOf d maxHeaderListSize s f).2.cls = .connection ∨
      (Ready (st.headersOf d maxHeaderListSize s f).1.conn (st.headersOf d maxHeaderListSize s f).1.continuedStreamId
          (if f.endHeaders then none else some (f.streamId, f.fragment)) ∧
        (st.headersOf d maxHeaderListSize s f).1.table = if f.endHeaders then d.table st.table f.fragment else st.table) := by
  by_cases hbad : Good maxHeaderListSize s f
  · -- the block is stored
    obtain ⟨hclosed, hfits, hlen, hdep, hend⟩ := hbad
    unfold HeaderState.headersOf
    rw [if_neg hclosed]
    dsimp only
    rw [if_neg (not_lt.mpr hlen), if_neg (fun h => absurd h.2 (by unfold HeadersFrame.Fits at hfits; omega)), if_neg (fun h => hdep h.1 h.2)]
    unfold HeaderState.storeHeaders
    by_cases hcomplete : f.endHeaders = true
    · rw [if_pos hcomplete, if_pos hcomplete, if_pos hcomplete]
      dsimp only
      generalize hp : Http2Stream.changeState _ .headers true = p
      have hfields : p.1.addr = s.addr ∧ p.1.headerBlocks = f.headerBlocks ∧ p.1.state ≠ .idle := by
        rw [← hp]
        refine ⟨?_, ?_, (changeState_request _ (Or.inl rfl) true).1⟩
        · rw [Streams.changeState_eq]
        · rw [Streams.changeState_eq]
      by_cases hillegal : p.2 = false ∧ s.trailingHeader = false
      · rw [if_pos hillegal]
        exact Or.inl rfl
      · rw [if_neg hillegal, if_neg fun h => absurd (hend h.1) (by simp [h.2])]
        right
        unfold HeaderState.decodeHeaderBlocks
        dsimp only
        rw [put_put]
        · refine ⟨ready_put hfields.1 hothers htrailing fun hidle => absurd hidle hfields.2.2, ?_⟩
          rw [hfields.2.1, headerBlocks_eq hfits]
          rfl
        · rfl
    · rw [if_neg hcomplete, if_neg hcomplete, if_neg hcomplete]
      refine Or.inr ⟨ready_put rfl hothers htrailing fun hidle => ⟨⟨?_, hid.symm⟩, ?_⟩, rfl⟩
      · rw [headerBlocks_eq hfits, hid]
      · by_contra htr
        exact htrailing s hs (by simpa using htr) hidle
  · -- a return before that, for a stream that is not idle
    have hno : ¬ (f.endHeaders = true ∨ s.state = .idle) := fun h => hbad (hgood h)
    obtain ⟨hcomplete, hidle⟩ := not_or.mp hno
    have hput : ∀ s' : Http2Stream, s'.addr = s.addr → s'.state = s.state → ∀ k pending, Ready (st.put s').conn k pending :=
      fun s' haddr hstate k pending => ready_put haddr hothers htrailing fun h => absurd (hstate ▸ h) hidle
    rw [if_neg hcomplete, if_neg hcomplete]
    unfold HeaderState.headersOf
    by_cases hclosed : s.state = .closed
    · rw [if_pos hclosed]
      refine Or.inr ⟨⟨fun s₁ hs₁ hclient h₁ => ?_, htrailing⟩, rfl⟩
      by_cases ha : s₁.addr = s.addr
      · rw [Streams.eq_of_addr hnodup hs₁ hs ha] at h₁
        exact absurd h₁ hidle
      · exact absurd h₁ (hothers s₁ hs₁ ha hclient)
    · rw [if_neg hclosed]
      have hstore : ∀ s', st.storeHeaders d s' f = ({ st.put s' with continuedStreamId := f.streamId }, .ok) := fun s' => if_neg hcomplete
      dsimp only
      rw [hstore]
      split_ifs
      · refine Or.inr ⟨hput _ ?_ ?_ _ _, rfl⟩
        · rfl
        · rfl
      · exact Or.inl rfl
      · refine Or.inr ⟨hput _ ?_ ?_ _ _, rfl⟩
        · rfl
        · rfl
      · refine Or.inr ⟨hput _ ?_ ?_ _ _, rfl⟩
        · rfl
        · rfl

/-- without a stream that waits for its CONTINUATION there is no idle one -/
theorem Ready.none_idle {c : Http2ConnectionState} {pending : Option (ℕ × Bytes)} (h : Ready c 0 pending) :
    ∀ s ∈ c.streamList, http2IsClientStreamid s.id = true → s.state ≠ .idle := by
  intro s hs hclient hidle
  rw [← (h.idle s hs hclient hidle).2] at hclient
  exact absurd hclient (by decide)

theorem createError_cls {c : Http2ConnectionState} {newId : ℕ} {error : Http2Error} (h : c.createError newId = some error) :
    error.cls ≠ .none := by
  unfold Http2ConnectionState.createError at h
  split_ifs at h
  all_goals
    obtain rfl := Option.some.inj h
    simp

theorem newStream_mem (c : Http2ConnectionState) (newId : ℕ) : c.newStream newId ∈ (c.enqueueStream newId).streamList := by
  rw [(Streams.enqueueStream_list c newId).1]
  exact List.mem_append_right _ (List.mem_singleton.mpr rfl)

theorem rcvHeadersFrame_streams {st : HeaderState τ η} (h : ∃ created, Streams.Inv ⟨st.conn, created⟩) (f : HeadersFrame) :
    ∃ created, Streams.Inv ⟨(st.rcvHeadersFrame d maxHeaderListSize f).1.conn, created⟩ := by
  obtain ⟨created, hstreams⟩ := h
  unfold HeaderState.rcvHeadersFrame
  by_cases hclient : http2IsClientStreamid f.streamId = false
  · rw [if_pos hclient]
    exact ⟨created, hstreams⟩
  rw [if_neg hclient]
  by_cases hvalid : st.conn.isValidStreamid f.streamId = true
  · rw [if_pos hvalid]
    cases hfind : st.conn.findStream f.streamId with
    | none => exact ⟨created, hstreams⟩
    | some s =>
      dsimp only
      split_ifs
      · exact ⟨created, hstreams⟩
      · exact ⟨created, hstreams.congr (c := st.conn) (headersOf_keys hstreams.addrs (List.mem_of_find?_eq_some hfind) f)⟩
  · rw [if_neg hvalid]
    unfold Http2ConnectionState.createStream
    cases hcreate : st.conn.createError f.streamId with
    | some error => exact ⟨created, hstreams⟩
    | none =>
      dsimp only
      generalize hst : ({ st with conn := st.conn.enqueueStream f.streamId, requests := _ } : HeaderState τ η) = st₁
      have hconn : st₁.conn = st.conn.enqueueStream f.streamId := by rw [← hst]
      have hcreated := Streams.create_inv hstreams hcreate
      dsimp only at hcreated
      rw [← hconn] at hcreated
      exact ⟨_, hcreated.congr (headersOf_keys hcreated.addrs (hconn ▸ newStream_mem st.conn f.streamId) f)⟩

theorem rcvHeadersFrame_ready {r : Run τ η} (h : Inv d table r) (htorn : r.torn = false) (hcont : r.st.continuedStreamId = 0)
    {f : HeadersFrame} (hdec : Decodes maxHeaderListSize r (.headers f)) :
    (r.st.rcvHeadersFrame d maxHeaderListSize f).2.cls = .connection ∨
      (Ready (r.st.rcvHeadersFrame d maxHeaderListSize f).1.conn (r.st.rcvHeadersFrame d maxHeaderListSize f).1.continuedStreamId
          (if f.endHeaders then none else some (f.streamId, f.fragment)) ∧
        (r.st.rcvHeadersFrame d maxHeaderListSize f).1.table =
          if f.endHeaders then d.table r.st.table f.fragment else r.st.table) := by
  obtain ⟨created, hstreams⟩ := h.streams
  have hready := h.ready htorn
  have hidle := (hcont ▸ hready).none_idle
  unfold HeaderState.rcvHeadersFrame
  by_cases hclient : http2IsClientStreamid f.streamId = false
  · rw [if_pos hclient]
    exact Or.inl rfl
  rw [if_neg hclient]
  obtain ⟨hnew, hold⟩ := hdec htorn hcont (by simpa using hclient)
  by_cases hvalid : r.st.conn.isValidStreamid f.streamId = true
  · rw [if_pos hvalid]
    cases hfind : r.st.conn.findStream f.streamId with
    | none => exact Or.inl rfl
    | some s =>
      have hs : s ∈ r.st.conn.streamList := List.mem_of_find?_eq_some hfind
      have hid : s.id = f.streamId := by
        have := List.find?_some hfind
        simpa using this
      dsimp only
      by_cases htr : s.trailingHeader = false
      · rw [if_pos htr]
        exact Or.inl rfl
      · rw [if_neg htr]
        refine headersOf_ready hstreams.addrs hs hid (fun s₁ hs₁ _ hc => hidle s₁ hs₁ hc) hready.trailing fun hor => ?_
        have hcomplete : f.endHeaders = true :=
          hor.resolve_right (hready.trailing s hs (by simpa using htr))
        obtain ⟨hclosed, hfits, hlen, hdep, hend⟩ := hold s hs hid (by simpa using htr) hcomplete
        exact ⟨hclosed, hfits, hlen, hdep, fun _ => hend⟩
  · rw [if_neg hvalid]
    obtain ⟨hrefused, haccepted⟩ := hnew (by simpa using hvalid)
    unfold Http2ConnectionState.createStream
    cases hcreate : r.st.conn.createError f.streamId with
    | some error =>
      dsimp only
      cases hcls : error.cls with
      | connection => exact Or.inl rfl
      | stream =>
        -- an incomplete block of a refused stream
        have hinc := hrefused error hcreate hcls
        right
        rw [if_neg (by simp [hinc]), if_neg (by simp [hinc])]
        exact ⟨⟨fun s hs hc hi => absurd hi (hidle s hs hc), hready.trailing⟩, rfl⟩
      | none => exact absurd hcls (createError_cls hcreate)
    | none =>
      obtain ⟨hfits, hlen, hdep⟩ := haccepted hcreate
      have hcreated := Streams.create_inv hstreams hcreate
      have hlist := (Streams.enqueueStream_list r.st.conn f.streamId).1
      dsimp only
      refine headersOf_ready hcreated.addrs (newStream_mem r.st.conn f.streamId) rfl (fun s₁ hs₁ hne hc => ?_) (fun s₁ hs₁ htr => ?_)
        fun _ => ?_
      · dsimp only at hs₁
        rw [hlist] at hs₁
        rcases List.mem_append.mp hs₁ with hs₁ | hs₁
        · exact hidle s₁ hs₁ hc
        · exact absurd (congrArg Http2Stream.addr (List.mem_singleton.mp hs₁)) hne
      · dsimp only at hs₁
        rw [hlist] at hs₁
        rcases List.mem_append.mp hs₁ with hs₁ | hs₁
        · exact hready.trailing s₁ hs₁ htr
        · rw [List.mem_singleton.mp hs₁] at htr
          exact absurd htr Bool.false_ne_true
      · refine ⟨by simp [Http2ConnectionState.newStream], hfits, ?_, hdep, fun htr => absurd htr Bool.false_ne_true⟩
        have hmod : HeaderState.headerLength (r.st.conn.newStream f.streamId) f.payload.length ≤ f.payload.length := by
          unfold HeaderState.headerLength Http2ConnectionState.newStream
          rw [Nat.zero_add]
          exact Nat.mod_le _ _
        exact hmod.trans hlen

/-- the step of a frame from its specification: the streams, and what was decoded -/
theorem result_inv {r : Run τ η} {p : HeaderState τ η × Http2Error} (id : ℕ)
    (hstreams : ∃ created, Streams.Inv ⟨p.1.conn, created⟩) {pending : Option (ℕ × Bytes)} {blocks : List Bytes}
    (hspec : r.torn = false → p.2.cls = .connection ∨
      (Ready p.1.conn p.1.continuedStreamId pending ∧ p.1.table = blocks.foldl d.table table)) :
    Inv d table { r.result id p with pending := pending, blocks := blocks } := by
  obtain ⟨created, hs⟩ := hstreams
  have hkeys := (Flow.handleError_kept hs.addrs id p.2).2
  have hopen : (r.result id p).torn = false → Ready p.1.conn p.1.continuedStreamId pending ∧ p.1.table = blocks.foldl d.table table := by
    intro htorn
    simp only [Run.result, Bool.or_eq_false_iff, decide_eq_false_iff_not] at htorn
    exact (hspec htorn.1).resolve_left htorn.2
  refine ⟨⟨created, hs.congr (c := p.1.conn) hkeys⟩, fun htorn => (hopen htorn).2, fun htorn => ?_⟩
  exact (hopen htorn).1.calm (handleError_calm hs.addrs id p.2)

theorem headers_inv {r : Run τ η} (h : Inv d table r) {f : HeadersFrame} (hdec : Decodes maxHeaderListSize r (.headers f)) :
    Inv d table (step d maxHeaderListSize r (.headers f)) := by
  have hreceived : ∀ r' : Run τ η, r'.received f.streamId f.fragment f.endHeaders = { r' with
      pending := if f.endHeaders then none else some (f.streamId, f.fragment)
      blocks := if f.endHeaders then r'.blocks ++ [f.fragment] else r'.blocks } := by
    intro r'
    unfold Run.received
    split_ifs <;> rfl
  rw [step, hreceived]
  by_cases hcont : r.st.continuedStreamId = 0
  · rw [if_neg (not_not.mpr hcont)]
    refine result_inv f.streamId (rcvHeadersFrame_streams h.streams f) fun htorn => ?_
    rcases rcvHeadersFrame_ready h htorn hcont hdec with hconn | ⟨hready, htable⟩
    · exact Or.inl hconn
    · refine Or.inr ⟨hready, ?_⟩
      rw [htable, h.decoded htorn]
      by_cases hcomplete : f.endHeaders = true
      · rw [if_pos hcomplete, if_pos hcomplete]
        change _ = (r.blocks ++ [f.fragment]).foldl d.table table
        rw [List.foldl_append]
        rfl
      · rw [if_neg hcomplete, if_neg hcomplete]
        rfl
  · rw [if_pos hcont]
    exact result_inv f.streamId h.streams fun _ => Or.inl rfl

/-! ### CONTINUATION -/

theorem rcvContinuationFrame_streams {st : HeaderState τ η} (h : ∃ created, Streams.Inv ⟨st.conn, created⟩) (f : ContinuationFrame) :
    ∃ created, Streams.Inv ⟨(st.rcvContinuationFrame d maxHeaderListSize f).1.conn, created⟩ := by
  obtain ⟨created, hstreams⟩ := h
  refine ⟨created, hstreams.congr (c := st.conn) ?_⟩
  unfold HeaderState.rcvContinuationFrame
  by_cases hclient : http2IsClientStreamid f.streamId = false
  · rw [if_pos hclient]
    exact Streams.SameKeys.refl _
  rw [if_neg hclient]
  cases hfind : st.conn.findStream f.streamId with
  | none =>
    dsimp only
    split_ifs
    all_goals exact Streams.SameKeys.refl _
  | some s =>
    have hput : ∀ (st' : HeaderState τ η) (s' : Http2Stream), st'.conn = st.conn → s'.addr = s.addr → s'.id = s.id →
        Streams.SameKeys st.conn (st'.put s').conn := by
      intro st' s' hconn haddr hid
      have := put_sameKeys (hconn ▸ hstreams.addrs) (hconn ▸ List.mem_of_find?_eq_some hfind) haddr hid
      rwa [hconn] at this
    unfold HeaderState.decodeHeaderBlocks
    dsimp only
    split_ifs
    · exact Streams.SameKeys.refl _
    · exact Streams.SameKeys.refl _
    · exact hput _ _ rfl rfl rfl
    · exact hput _ _ rfl (by rw [Streams.changeState_eq]) (by rw [Streams.changeState_eq])
    · rw [put_put]
      · exact hput _ _ rfl (by rw [Streams.changeState_eq]) (by rw [Streams.changeState_eq])
      · rfl
    · exact hput _ _ rfl rfl rfl

theorem rcvContinuationFrame_ready {r : Run τ η} (h : Inv d table r) (htorn : r.torn = false) (f : ContinuationFrame) :
    (r.st.rcvContinuationFrame d maxHeaderListSize f).2.cls = .connection ∨ ∃ block, r.pending = some (f.streamId, block) ∧
      Ready (r.st.rcvContinuationFrame d maxHeaderListSize f).1.conn
        (r.st.rcvContinuationFrame d maxHeaderListSize f).1.continuedStreamId
        (if f.endHeaders then none else some (f.streamId, block ++ f.payload)) ∧
      (r.st.rcvContinuationFrame d maxHeaderListSize f).1.table =
        if f.endHeaders then d.table r.st.table (block ++ f.payload) else r.st.table := by
  obtain ⟨created, hstreams⟩ := h.streams
  have hready := h.ready htorn
  unfold HeaderState.rcvContinuationFrame
  by_cases hclient : http2IsClientStreamid f.streamId = false
  · rw [if_pos hclient]
    exact Or.inl rfl
  rw [if_neg hclient]
  cases hfind : r.st.conn.findStream f.streamId with
  | none =>
    dsimp only
    split_ifs
    all_goals exact Or.inl rfl
  | some s =>
    dsimp only
    by_cases hremote : s.state = .halfClosedRemote
    · rw [if_pos hremote]
      exact Or.inl rfl
    rw [if_neg hremote]
    by_cases hstate : s.state = .idle
    · rw [if_neg (not_not.mpr hstate)]
      by_cases hlen : HeaderState.headerLength s f.payload.length > maxHeaderListSize
      · rw [if_pos hlen]
        exact Or.inl rfl
      rw [if_neg hlen]
      have hs : s ∈ r.st.conn.streamList := List.mem_of_find?_eq_some hfind
      have hid : s.id = f.streamId := by
        have := List.find?_some hfind
        simpa using this
      obtain ⟨hpending, hcont⟩ := hready.idle s hs (by rw [hid]; simpa using hclient) hstate
      -- it is the only one that waits
      have hothers : ∀ s₁ ∈ r.st.conn.streamList, s₁.addr ≠ s.addr → http2IsClientStreamid s₁.id = true → s₁.state ≠ .idle := by
        intro s₁ hs₁ hne hc hidle
        have hsame := hcont.symm.trans (hready.idle s₁ hs₁ hc hidle).2
        exact hne (by rw [List.inj_on_of_nodup_map hstreams.ids hs₁ hs hsame.symm])
      have htrailing : s.trailingHeader = false := by
        by_contra htr
        exact hready.trailing s hs (by simpa using htr) hstate
      refine Or.inr ⟨s.headerBlocks, hid ▸ hpending, ?_⟩
      by_cases hcomplete : f.endHeaders = true
      · rw [if_pos hcomplete, if_pos hcomplete, if_pos hcomplete]
        generalize hp : Http2Stream.changeState _ .continuation true = p
        have hfields : p.1.addr = s.addr ∧ p.1.headerBlocks = s.headerBlocks ++ f.payload ∧ p.1.state ≠ .idle ∧ p.2 = true := by
          rw [← hp]
          obtain ⟨hne, hlegal⟩ := changeState_request { s with
            requestHeaderLength := HeaderState.headerLength s f.payload.length
            headerBlocks := s.headerBlocks ++ f.payload } (Or.inr rfl) true
          refine ⟨?_, ?_, hne, hlegal hstate⟩
          · rw [Streams.changeState_eq]
          · rw [Streams.changeState_eq]
        rw [if_neg (by simp [hfields.2.2.2])]
        unfold HeaderState.decodeHeaderBlocks
        dsimp only
        rw [put_put]
        · refine ⟨ready_put hfields.1 hothers hready.trailing fun hidle => absurd hidle hfields.2.2.1, ?_⟩
          rw [hfields.2.1]
          rfl
        · rfl
      · rw [if_neg hcomplete, if_neg hcomplete, if_neg hcomplete]
        exact ⟨ready_put rfl hothers hready.trailing fun _ => ⟨⟨by rw [hid], hcont⟩, htrailing⟩, rfl⟩
    · rw [if_pos hstate]
      exact Or.inl rfl

theorem continuation_inv {r : Run τ η} (h : Inv d table r) (f : ContinuationFrame) :
    Inv d table (step d maxHeaderListSize r (.continuation f)) := by
  have hreceived : ∀ (r' : Run τ η) id block, r'.received id block f.endHeaders = { r' with
      pending := if f.endHeaders then none else some (id, block)
      blocks := if f.endHeaders then r'.blocks ++ [block] else r'.blocks } := by
    intro r' id block
    unfold Run.received
    split_ifs <;> rfl
  rw [step]
  generalize hp : (if r.st.continuedStreamId ≠ 0 ∧ r.st.continuedStreamId ≠ f.streamId then (r.st, HeaderState.continuationExpected)
    else r.st.rcvContinuationFrame d maxHeaderListSize f) = p
  have hspec : (∃ created, Streams.Inv ⟨p.1.conn, created⟩) ∧ (r.torn = false → p.2.cls = .connection ∨
      ∃ block, r.pending = some (f.streamId, block) ∧
        Ready p.1.conn p.1.continuedStreamId (if f.endHeaders then none else some (f.streamId, block ++ f.payload)) ∧
        p.1.table = if f.endHeaders then d.table r.st.table (block ++ f.payload) else r.st.table) := by
    rw [← hp]
    by_cases hother : r.st.continuedStreamId ≠ 0 ∧ r.st.continuedStreamId ≠ f.streamId
    · rw [if_pos hother]
      exact ⟨h.streams, fun _ => Or.inl rfl⟩
    · rw [if_neg hother]
      exact ⟨rcvContinuationFrame_streams h.streams f, fun htorn => rcvContinuationFrame_ready h htorn f⟩
  obtain ⟨hstreams, hopen⟩ := hspec
  cases hpending : r.pending with
  | none =>
    refine result_inv f.streamId hstreams fun htorn => Or.inl ?_
    rcases hopen htorn with hconn | ⟨block, hsome, _⟩
    · exact hconn
    · exact absurd (hpending.symm.trans hsome) (by simp)
  | some entry =>
    obtain ⟨id, block⟩ := entry
    dsimp only
    by_cases hid : id = f.streamId
    · rw [if_pos hid, hreceived]
      subst hid
      refine result_inv f.streamId hstreams fun htorn => ?_
      rcases hopen htorn with hconn | ⟨block', hsome, hready, htable⟩
      · exact Or.inl hconn
      · obtain ⟨_, rfl⟩ := Prod.mk.inj (Option.some.inj (hpending.symm.trans hsome))
        refine Or.inr ⟨hready, ?_⟩
        rw [htable, h.decoded htorn]
        by_cases hcomplete : f.endHeaders = true
        · rw [if_pos hcomplete, if_pos hcomplete]
          change _ = (r.blocks ++ [block ++ f.payload]).foldl d.table table
          rw [List.foldl_append]
          rfl
        · rw [if_neg hcomplete, if_neg hcomplete]
          rfl
    · rw [if_neg hid]
      refine result_inv f.streamId hstreams fun htorn => Or.inl ?_
      rcases hopen htorn with hconn | ⟨block', hsome, _⟩
      · exact hconn
      · exact absurd (Prod.mk.inj (Option.some.inj (hpending.symm.trans hsome))).1 hid

/-! ### Whole runs -/

theorem step_inv {r : Run τ η} (h : Inv d table r) {op : Op} (hdec : Decodes maxHeaderListSize r op) :
    Inv d table (step d maxHeaderListSize r op) := by
  cases op with
  | headers f => exact headers_inv h hdec
  | continuation f => exact continuation_inv h f
  | delete addr =>
    obtain ⟨created, hstreams⟩ := h.streams
    exact h.calm ⟨created, Streams.delete_inv hstreams⟩ (calm_of_reset fun s' hs' => Streams.delete_mem hstreams.addrs hs')
  | change addr type endHeaders recvEnd sendEnd =>
    obtain ⟨created, hstreams⟩ := h.streams
    refine h.calm ⟨created, hstreams.congr (c := r.st.conn) (Streams.modify_sameKeys _ _ _ fun s _ _ => ?_)⟩ fun s' hs' => ?_
    · rw [Streams.changeState_eq]
      exact ⟨rfl, rfl⟩
    · obtain ⟨s, hs, rfl⟩ := List.mem_map.mp hs'
      refine ⟨s, hs, ?_⟩
      by_cases ha : s.addr = addr
      · rw [if_pos ha]
        obtain ⟨hid, hblocks, htrailing, hidle⟩ := calm_changeState { s with
          recvEndStream := s.recvEndStream || recvEnd, sendEndStream := s.sendEndStream || sendEnd } type endHeaders
        exact ⟨hid.symm, hblocks.symm, htrailing.symm, hidle⟩
      · rw [if_neg ha]
        exact ⟨rfl, rfl, rfl, id⟩
  | shutdown =>
    obtain ⟨created, hstreams⟩ := h.streams
    exact h.calm ⟨created, hstreams.congr (c := r.st.conn) ⟨rfl, rfl, rfl, fun _ => rfl, fun _ => rfl⟩⟩ fun s hs => ⟨s, hs, rfl, rfl, rfl, id⟩

theorem start_inv (config : Http2Config) : Inv d table (start d config table) := by
  have hstreams : Streams.Inv ⟨newConnection (config.settings .initialWindowSize), []⟩ := Streams.new_inv _
  refine ⟨⟨[], hstreams.congr (c := newConnection (config.settings .initialWindowSize)) ⟨rfl, rfl, rfl, fun _ => rfl, fun _ => rfl⟩⟩,
    fun _ => rfl, fun _ => ⟨fun s hs => ?_, fun s hs => ?_⟩⟩
  · exact absurd hs (by simp [start, sessionInit, newConnection])
  · exact absurd hs (by simp [start, sessionInit, newConnection])

theorem header_table (d : Decoder τ η) (config : Http2Config) (table : τ) (ops : List Op)
    (h : Along (step d (config.settings .maxHeaderListSize).toNat) (Decodes (config.settings .maxHeaderListSize).toNat)
      (start d config table) ops) (n : ℕ) :
    Decoded d table ((ops.take n).foldl (step d (config.settings .maxHeaderListSize).toNat) (start d config table)) :=
  ((h.take n).inv (I := Inv d table) (fun _ _ hinv hdec => step_inv hinv hdec) (start_inv config)).decoded

/-! ### Two runs -/

/-- a literal field with a new name and short strings, which enters the table -/
def decodeLiteral (t : Hpack.HpackDynamicTable) : Bytes → Hpack.HpackDynamicTable
  | 0x40 :: n :: rest =>
    match rest.drop n.toNat with
    | m :: rest' =>
      if h : (rest.take n.toNat).length < 2 ^ 16 ∧ (rest'.take m.toNat).length < 2 ^ 24 then
        t.addHeaderField ⟨rest.take n.toNat, rest'.take m.toNat, h.1, h.2⟩
      else t
    | [] => t
  | _ => t

/-- a request of one such field has no pseudo header -/
def literalDecoder : Decoder Hpack.HpackDynamicTable Unit := ⟨decodeLiteral, (), fun _ _ _ _ => (.protocolError, (), false)⟩

def oneStream : Http2SettingsIdentifier → BitVec 32
  | .maxConcurrentStreams => 1
  | id => Receive.recordsConfig id

theorem oneStream_valid (id : Http2SettingsIdentifier) : settingsParameterIsValid id (oneStream id) = true := by
  cases id <;> rfl

def oneStreamConfig : Http2Config := ⟨oneStream, oneStream_valid⟩

theorem five_lt : 5 < 2 ^ 24 := by decide

/-- a complete block with the field `a: b` -/
def oneField (id : ℕ) : HeadersFrame := ⟨id, [0x40, 1, 0x61, 1, 0x62], true, true, false, false, [], five_lt⟩

theorem one_block_decoded : Decoded literalDecoder (.new 4096)
    ((([.headers (oneField 1)] : List Op).take 1).foldl (step literalDecoder 131072)
      (start literalDecoder oneStreamConfig (.new 4096))) := by
  refine header_table literalDecoder oneStreamConfig (.new 4096) [.headers (oneField 1)] ⟨fun _ _ _ => ⟨fun _ => ⟨?_, fun _ => ?_⟩, ?_⟩, trivial⟩ 1
  · intro error herror
    have hnone : (start literalDecoder oneStreamConfig (.new 4096)).st.conn.createError (oneField 1).streamId = none := by decide
    exact absurd (hnone.symm.trans herror) (by simp)
  · exact ⟨by unfold HeadersFrame.Fits; decide, by decide, fun hpriority => absurd hpriority (by decide)⟩
  · intro s hs
    exact absurd hs (by simp [start, sessionInit, newConnection])

/-- the second stream is refused, and the table misses its field -/
theorem refused_block : ¬ Decoded literalDecoder (.new 4096)
    (([.headers (oneField 1), .headers (oneField 3)] : List Op).foldl (step literalDecoder 131072)
      (start literalDecoder oneStreamConfig (.new 4096))) := by
  intro h
  have hlength := congrArg (fun t : Hpack.HpackDynamicTable => t.headers.length) (h (by decide))
  exact absurd hlength (by decide)

end Headers

end TrafficServer.Http2
