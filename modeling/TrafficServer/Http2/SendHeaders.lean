/-
Sending a header block (`send_headers_frame`).

A block that fits in a buffer of 16K is one HEADERS frame, a longer one is a HEADERS frame and CONTINUATION frames, with END_HEADERS on the
last. The frames carry the block (`framed`). `change_state` is called for each of them, and in the state half closed (remote), in which
the response to a request without a body is sent, it takes a CONTINUATION frame for an error: the stream is closed, although the frame is
sent, and the body is not sent any more (`long_block_closes`).

`transparent_iff` says for every state of the stream when a block leaves it as a block that fits would leave it.
-/
import TrafficServer.Http2.HeaderBlocks

namespace TrafficServer.Http2

/-- `BUFFER_SIZE_FOR_INDEX(BUFFER_SIZE_INDEX_16K)`, the buffer of HEADERS and CONTINUATION frames -/
def HEADERS_BUF_LEN : ℕ := 128 * 2 ^ 7

/-- a frame with a part of a header block -/
structure HeaderFrame where
  type : Http2FrameType
  endHeaders : Bool
  endStream : Bool
  payload : Bytes

/-- the CONTINUATION frames for what is left of a block -/
def continuationFrames (rest : Bytes) : List HeaderFrame :=
  if rest = [] then []
  else ⟨.continuation, rest.length ≤ HEADERS_BUF_LEN, false, rest.take HEADERS_BUF_LEN⟩ :: continuationFrames (rest.drop HEADERS_BUF_LEN)
termination_by rest.length
decreasing_by
  rw [List.length_drop]
  exact Nat.sub_lt (List.length_pos_iff.mpr ‹_›) (by decide)

namespace Http2Stream

variable (s : Http2Stream) (block : Bytes) (contentLength : Option ℤ)

/-- END_STREAM is set on the HEADERS frame of a response without a body, if the block fits -/
def headersEndStream : Bool := block.length ≤ HEADERS_BUF_LEN && contentLength == some 0

/-- the HEADERS frame -/
def headersFrame : HeaderFrame :=
  ⟨.headers, block.length ≤ HEADERS_BUF_LEN, headersEndStream block contentLength, block.take HEADERS_BUF_LEN⟩

/-- the stream behind frames that are sent; the result of `change_state` is not looked at -/
def continued (frames : List HeaderFrame) : Http2Stream := frames.foldl (fun s f => (s.changeState f.type f.endHeaders).1) s

/-- the stream behind its header block, and the frames; without frames where the HEADERS frame is no legal change of the state -/
def sendHeaderBlock : Http2Stream × Option (List HeaderFrame) :=
  let p := { s with sendEndStream := s.sendEndStream || headersEndStream block contentLength }.changeState .headers
    (block.length ≤ HEADERS_BUF_LEN)
  if p.2 = false then (p.1, none)
  else
    let frames := continuationFrames (block.drop HEADERS_BUF_LEN)
    (p.1.continued frames, some (headersFrame block contentLength :: frames))

/-- the states in which the transaction calls `send_headers_frame` -/
def isClientStateWriteable : Bool := s.state = .opened ∨ s.state = .halfClosedRemote ∨ s.state = .reservedLocal

end Http2Stream

/-- `send_headers_frame` with what the encoder made of the response, if it did; a GOAWAY frame half closes the session -/
def Http2ConnectionState.sendHeadersFrame (c : Http2ConnectionState) (s : Http2Stream) (encoded : Option Bytes)
    (contentLength : Option ℤ) : Http2ConnectionState × List HeaderFrame :=
  match encoded with
  | none => (c, [])
  | some block =>
    let p := s.sendHeaderBlock block contentLength
    let c := c.modify s.addr fun _ => p.1
    match p.2 with
    | none => ({ c with halfCloseLocal := true }, [])
    | some frames => (c, frames)

/-! ## The frames -/

namespace SendHeaders

/-- the frames carry the block: a HEADERS frame, then CONTINUATION frames, END_HEADERS on the last one -/
structure Framed (block : Bytes) (frames : List HeaderFrame) : Prop where
  types : ∃ n, frames.map HeaderFrame.type = .headers :: List.replicate n .continuation
  payload : (frames.map HeaderFrame.payload).flatten = block
  size : ∀ f ∈ frames, f.payload.length ≤ HEADERS_BUF_LEN
  endHeaders : ∃ n, frames.map HeaderFrame.endHeaders = List.replicate n false ++ [true]

theorem continuationFrames_nil : continuationFrames [] = [] := by
  rw [continuationFrames, if_pos rfl]

theorem continuationFrames_cons {rest : Bytes} (h : rest ≠ []) : continuationFrames rest =
    ⟨.continuation, rest.length ≤ HEADERS_BUF_LEN, false, rest.take HEADERS_BUF_LEN⟩ ::
      continuationFrames (rest.drop HEADERS_BUF_LEN) := by
  rw [continuationFrames, if_neg h]

/-- what is left behind a frame is nothing exactly if the frame has END_HEADERS -/
theorem drop_eq_nil {rest : Bytes} : rest.drop HEADERS_BUF_LEN = [] ↔ rest.length ≤ HEADERS_BUF_LEN := List.drop_eq_nil_iff

theorem continuationFrames_types (rest : Bytes) :
    ∃ n, (continuationFrames rest).map HeaderFrame.type = List.replicate n .continuation := by
  induction rest using continuationFrames.induct with
  | case1 => exact ⟨0, by rw [continuationFrames_nil]; rfl⟩
  | case2 rest hne ih =>
    obtain ⟨n, hn⟩ := ih
    refine ⟨n + 1, ?_⟩
    rw [continuationFrames_cons hne, List.map_cons, hn]
    rfl

theorem continuationFrames_payload (rest : Bytes) : ((continuationFrames rest).map HeaderFrame.payload).flatten = rest := by
  induction rest using continuationFrames.induct with
  | case1 => rw [continuationFrames_nil]; rfl
  | case2 rest hne ih =>
    rw [continuationFrames_cons hne, List.map_cons, List.flatten_cons, ih]
    exact List.take_append_drop HEADERS_BUF_LEN rest

theorem continuationFrames_size (rest : Bytes) : ∀ f ∈ continuationFrames rest, f.payload.length ≤ HEADERS_BUF_LEN := by
  induction rest using continuationFrames.induct with
  | case1 =>
    intro f hf
    rw [continuationFrames_nil] at hf
    exact absurd hf (by simp)
  | case2 rest hne ih =>
    intro f hf
    rw [continuationFrames_cons hne] at hf
    rcases List.mem_cons.mp hf with rfl | hf
    · exact List.length_take_le _ _
    · exact ih f hf

theorem continuationFrames_endHeaders {rest : Bytes} (h : rest ≠ []) :
    ∃ n, (continuationFrames rest).map HeaderFrame.endHeaders = List.replicate n false ++ [true] := by
  induction rest using continuationFrames.induct with
  | case1 => exact absurd rfl h
  | case2 rest hne ih =>
    rw [continuationFrames_cons hne, List.map_cons]
    by_cases hlast : rest.drop HEADERS_BUF_LEN = []
    · refine ⟨0, ?_⟩
      rw [hlast, continuationFrames_nil, decide_eq_true (drop_eq_nil.mp hlast)]
      rfl
    · obtain ⟨n, hn⟩ := ih hlast
      refine ⟨n + 1, ?_⟩
      rw [hn, decide_eq_false fun hle => hlast (drop_eq_nil.mpr hle)]
      rfl

theorem framed (block : Bytes) (contentLength : Option ℤ) :
    Framed block (Http2Stream.headersFrame block contentLength :: continuationFrames (block.drop HEADERS_BUF_LEN)) where
  types := by
    obtain ⟨n, hn⟩ := continuationFrames_types (block.drop HEADERS_BUF_LEN)
    refine ⟨n, ?_⟩
    rw [List.map_cons, hn]
    rfl
  payload := by
    rw [List.map_cons, List.flatten_cons, continuationFrames_payload]
    exact List.take_append_drop HEADERS_BUF_LEN block
  size f hf := by
    rcases List.mem_cons.mp hf with rfl | hf
    · exact List.length_take_le _ _
    · exact continuationFrames_size _ f hf
  endHeaders := by
    rw [List.map_cons]
    by_cases hfits : block.drop HEADERS_BUF_LEN = []
    · refine ⟨0, ?_⟩
      rw [hfits, continuationFrames_nil]
      exact congrArg (fun b => [b]) (decide_eq_true (drop_eq_nil.mp hfits))
    · obtain ⟨n, hn⟩ := continuationFrames_endHeaders hfits
      refine ⟨n + 1, ?_⟩
      rw [hn, Http2Stream.headersFrame, decide_eq_false fun hle => hfits (drop_eq_nil.mpr hle)]
      rfl

/-! ## The state -/

theorem changeState_halfClosedRemote {s : Http2Stream} (h : s.state = .halfClosedRemote) (type : Http2FrameType) (endHeaders : Bool) :
    s.changeState type endHeaders =
      if type = .rstStream ∨ s.sendEndStream then ({ s with state := .closed }, true)
      else if type = .headers then (s, true)
      else ({ s with state := .closed }, false) := by
  unfold Http2Stream.changeState
  rw [h]

theorem changeState_halfClosedLocal {s : Http2Stream} (h : s.state = .halfClosedLocal) (type : Http2FrameType) (endHeaders : Bool) :
    s.changeState type endHeaders = ({ s with state := .closed }, decide (type = .rstStream ∨ s.recvEndStream = true)) := by
  unfold Http2Stream.changeState
  rw [h]
  dsimp only
  split_ifs with hok
  · rw [decide_eq_true hok]
  · rw [decide_eq_false hok]

/-- HEADERS and CONTINUATION frames of a promised stream -/
theorem changeState_reservedLocal {s : Http2Stream} (h : s.state = .reservedLocal) {type : Http2FrameType}
    (htype : type = .headers ∨ type = .continuation) (endHeaders : Bool) :
    s.changeState type endHeaders = (if endHeaders then { s with state := .halfClosedRemote } else s, true) := by
  unfold Http2Stream.changeState
  rw [h]
  rcases htype with rfl | rfl
  · rfl
  · rfl

/-- HEADERS and CONTINUATION frames of an open stream -/
theorem changeState_opened {s : Http2Stream} (h : s.state = .opened) {type : Http2FrameType}
    (htype : type = .headers ∨ type = .continuation) (endHeaders : Bool) : s.changeState type endHeaders = (s, true) := by
  unfold Http2Stream.changeState
  rw [h]
  rcases htype with rfl | rfl
  · rfl
  · rfl

theorem changeState_closed {s : Http2Stream} (h : s.state = .closed) (type : Http2FrameType) (endHeaders : Bool) :
    s.changeState type endHeaders = (s, true) := by
  unfold Http2Stream.changeState
  rw [h]

/-- HEADERS and CONTINUATION frames of an idle stream -/
theorem changeState_idle {s : Http2Stream} (h : s.state = .idle) {type : Http2FrameType}
    (htype : type = .headers ∨ type = .continuation) (endHeaders : Bool) :
    s.changeState type endHeaders =
      if s.recvEndStream then ({ s with state := .halfClosedRemote }, true)
      else if s.sendEndStream then ({ s with state := .halfClosedLocal }, true)
      else ({ s with state := .opened }, true) := by
  unfold Http2Stream.changeState
  rw [h]
  rcases htype with rfl | rfl
  · rfl
  · rfl

/-- CONTINUATION frames behind each other -/
theorem continued_cons {s : Http2Stream} {rest : Bytes} (h : rest ≠ []) : s.continued (continuationFrames rest) =
    (s.changeState .continuation (rest.length ≤ HEADERS_BUF_LEN)).1.continued (continuationFrames (rest.drop HEADERS_BUF_LEN)) := by
  rw [continuationFrames_cons h, Http2Stream.continued, List.foldl_cons]
  rfl

/-- a state that CONTINUATION frames leave alone -/
theorem continued_fixed {s : Http2Stream} (h : ∀ endHeaders, (s.changeState .continuation endHeaders).1 = s) (rest : Bytes) :
    s.continued (continuationFrames rest) = s := by
  induction rest using continuationFrames.induct with
  | case1 => rw [continuationFrames_nil]; rfl
  | case2 rest hne ih => rw [continued_cons hne, h, ih]

theorem continued_opened {s : Http2Stream} (h : s.state = .opened) (rest : Bytes) : s.continued (continuationFrames rest) = s := by
  apply continued_fixed
  intro endHeaders
  rw [changeState_opened h (Or.inr rfl)]

theorem continued_closed {s : Http2Stream} (h : s.state = .closed) (rest : Bytes) : s.continued (continuationFrames rest) = s := by
  apply continued_fixed
  intro endHeaders
  rw [changeState_closed h]

/-- a half closed stream is closed by a CONTINUATION frame -/
theorem continued_halfClosed {s : Http2Stream} (h : s.state = .halfClosedRemote ∨ s.state = .halfClosedLocal) {rest : Bytes}
    (hne : rest ≠ []) : (s.continued (continuationFrames rest)).state = .closed := by
  have hclosed : ∀ endHeaders, (s.changeState .continuation endHeaders).1.state = .closed := by
    intro endHeaders
    rcases h with h | h
    · rw [changeState_halfClosedRemote h]
      cases s.sendEndStream with
      | true => simp
      | false => simp
    · rw [changeState_halfClosedLocal h]
  rw [continued_cons hne, continued_closed (hclosed _)]
  exact hclosed _

/-- the last CONTINUATION frame of a promised stream half closes it -/
theorem continued_reserved {s : Http2Stream} (h : s.state = .reservedLocal) {rest : Bytes} (hne : rest ≠ []) :
    (s.continued (continuationFrames rest)).state = .halfClosedRemote := by
  have hstep := changeState_reservedLocal h (Or.inr rfl)
  induction rest using continuationFrames.induct with
  | case1 => exact absurd rfl hne
  | case2 rest _ ih =>
    rw [continued_cons hne, hstep]
    by_cases hlast : rest.drop HEADERS_BUF_LEN = []
    · rw [if_pos (decide_eq_true (drop_eq_nil.mp hlast)), hlast, continuationFrames_nil]
      rfl
    · rw [if_neg fun hle => hlast (drop_eq_nil.mpr (of_decide_eq_true hle))]
      exact ih hlast

/-- the stream behind its HEADERS frame -/
def headed (s : Http2Stream) (block : Bytes) (contentLength : Option ℤ) : Http2Stream × Bool :=
  { s with sendEndStream := s.sendEndStream || Http2Stream.headersEndStream block contentLength }.changeState .headers
    (block.length ≤ HEADERS_BUF_LEN)

/-- what is sent, and the stream that is left -/
theorem sendHeaderBlock_eq {s : Http2Stream} {block : Bytes} {contentLength : Option ℤ} (h : (headed s block contentLength).2 = true) :
    s.sendHeaderBlock block contentLength = ((headed s block contentLength).1.continued (continuationFrames (block.drop HEADERS_BUF_LEN)),
      some (Http2Stream.headersFrame block contentLength :: continuationFrames (block.drop HEADERS_BUF_LEN))) := by
  unfold Http2Stream.sendHeaderBlock
  exact if_neg fun hfalse => absurd (h.symm.trans hfalse) (by decide)

/-- nothing is sent if HEADERS is no legal frame -/
theorem sendHeaderBlock_illegal {s : Http2Stream} {block : Bytes} {contentLength : Option ℤ}
    (h : (headed s block contentLength).2 = false) : (s.sendHeaderBlock block contentLength).2 = none := by
  unfold Http2Stream.sendHeaderBlock
  dsimp only
  rw [if_pos (by exact h)]

/-- END_STREAM is sent with a block that fits, for a response without a body -/
def ended (s : Http2Stream) (contentLength : Option ℤ) : Http2Stream :=
  { s with sendEndStream := s.sendEndStream || contentLength == some 0 }

theorem ended_sendEndStream (s : Http2Stream) (contentLength : Option ℤ) :
    (ended s contentLength).sendEndStream = true ↔ s.sendEndStream = true ∨ contentLength = some 0 := by
  simp [ended]

theorem headed_fits (s : Http2Stream) {block : Bytes} (contentLength : Option ℤ) (h : block.length ≤ HEADERS_BUF_LEN) :
    headed s block contentLength = (ended s contentLength).changeState .headers true := by
  unfold headed Http2Stream.headersEndStream ended
  rw [decide_eq_true h, Bool.true_and]

theorem headed_long (s : Http2Stream) {block : Bytes} (contentLength : Option ℤ) (h : ¬ block.length ≤ HEADERS_BUF_LEN) :
    headed s block contentLength = s.changeState .headers false := by
  unfold headed Http2Stream.headersEndStream
  rw [decide_eq_false h, Bool.false_and, Bool.or_false]

/-- a HEADERS frame may be sent -/
def CanSend (s : Http2Stream) : Prop := s.state ≠ .reservedRemote ∧ (s.state = .halfClosedLocal → s.recvEndStream = true)

theorem changeState_headers_legal (s : Http2Stream) (endHeaders : Bool) : (s.changeState .headers endHeaders).2 = true ↔ CanSend s := by
  unfold CanSend
  cases hstate : s.state with
  | idle =>
    rw [changeState_idle hstate (Or.inl rfl)]
    split_ifs
    all_goals simp
  | opened => simp [changeState_opened hstate (Or.inl rfl)]
  | reservedLocal => simp [changeState_reservedLocal hstate (Or.inl rfl)]
  | reservedRemote =>
    unfold Http2Stream.changeState
    simp [hstate]
  | halfClosedLocal => simp [changeState_halfClosedLocal hstate]
  | halfClosedRemote =>
    rw [changeState_halfClosedRemote hstate, if_pos rfl]
    split_ifs
    all_goals simp
  | closed => simp [changeState_closed hstate]

theorem headed_legal (s : Http2Stream) (block : Bytes) (contentLength : Option ℤ) :
    (headed s block contentLength).2 = true ↔ CanSend s := changeState_headers_legal _ _

/-- the state behind a block that fits -/
theorem state_fits {s : Http2Stream} {block : Bytes} {contentLength : Option ℤ} (h : CanSend s) (hfits : block.length ≤ HEADERS_BUF_LEN) :
    (s.sendHeaderBlock block contentLength).1.state = ((ended s contentLength).changeState .headers true).1.state := by
  rw [sendHeaderBlock_eq ((headed_legal s block contentLength).mpr h), drop_eq_nil.mpr hfits, continuationFrames_nil,
    headed_fits s contentLength hfits]
  rfl

/-- the state behind a longer block -/
theorem state_long {s : Http2Stream} {block : Bytes} {contentLength : Option ℤ} (h : CanSend s) (hlong : ¬ block.length ≤ HEADERS_BUF_LEN) :
    (s.sendHeaderBlock block contentLength).1.state =
      ((s.changeState .headers false).1.continued (continuationFrames (block.drop HEADERS_BUF_LEN))).state := by
  rw [sendHeaderBlock_eq ((headed_legal s block contentLength).mpr h), headed_long s contentLength hlong]

/-! ## When a long block is as good as a short one -/

/-- A block is sent in frames, and the stream is left in the state in which a block that fits would leave it. -/
structure Transparent (s : Http2Stream) (block : Bytes) (contentLength : Option ℤ) : Prop where
  framed : ∃ frames, (s.sendHeaderBlock block contentLength).2 = some frames ∧ Framed block frames
  state_eq : ∀ small : Bytes, small.length ≤ HEADERS_BUF_LEN →
    (s.sendHeaderBlock block contentLength).1.state = (s.sendHeaderBlock small contentLength).1.state

/-- the states in which a block of this length can be sent -/
def Keeps (s : Http2Stream) (block : Bytes) (contentLength : Option ℤ) : Prop :=
  match s.state with
  | .opened | .reservedLocal | .closed => True
  | .halfClosedRemote => block.length ≤ HEADERS_BUF_LEN ∨ s.sendEndStream = true ∨ contentLength = some 0
  | .halfClosedLocal => s.recvEndStream = true
  | .reservedRemote => False
  | .idle => block.length ≤ HEADERS_BUF_LEN ∨ (s.recvEndStream = false ∧ s.sendEndStream = false ∧ contentLength ≠ some 0)

theorem Keeps.canSend {s : Http2Stream} {block : Bytes} {contentLength : Option ℤ} (h : Keeps s block contentLength) : CanSend s := by
  unfold Keeps at h
  constructor
  · intro hstate
    rw [hstate] at h
    exact h
  · intro hstate
    rw [hstate] at h
    exact h

theorem keeps_of_fits {s : Http2Stream} {block : Bytes} {contentLength : Option ℤ} (h : CanSend s) (hfits : block.length ≤ HEADERS_BUF_LEN) :
    Keeps s block contentLength := by
  unfold Keeps
  cases hstate : s.state with
  | idle => exact Or.inl hfits
  | opened => trivial
  | reservedLocal => trivial
  | reservedRemote => exact absurd hstate h.1
  | halfClosedLocal => exact h.2 hstate
  | halfClosedRemote => exact Or.inl hfits
  | closed => trivial

/-- where the two states agree -/
theorem state_eq_iff {s : Http2Stream} {block : Bytes} {contentLength : Option ℤ} (h : CanSend s) (hlong : ¬ block.length ≤ HEADERS_BUF_LEN) :
    (s.sendHeaderBlock block contentLength).1.state = ((ended s contentLength).changeState .headers true).1.state ↔
      Keeps s block contentLength := by
  have hne : block.drop HEADERS_BUF_LEN ≠ [] := fun hnil => hlong (drop_eq_nil.mp hnil)
  rw [state_long h hlong]
  unfold Keeps
  cases hstate : s.state with
  | idle =>
    rw [changeState_idle hstate (Or.inl rfl), changeState_idle (s := ended s contentLength) hstate (Or.inl rfl)]
    by_cases hrecv : s.recvEndStream = true
    · have hrecv' : (ended s contentLength).recvEndStream = true := hrecv
      rw [if_pos hrecv, if_pos hrecv', continued_halfClosed (Or.inl rfl) hne]
      simp [hlong, hrecv]
    · have hrecv' : ¬ (ended s contentLength).recvEndStream = true := hrecv
      rw [if_neg hrecv, if_neg hrecv']
      by_cases hsend : s.sendEndStream = true
      · have hsend' : (ended s contentLength).sendEndStream = true := (ended_sendEndStream s contentLength).mpr (Or.inl hsend)
        rw [if_pos hsend, if_pos hsend', continued_halfClosed (Or.inr rfl) hne]
        simp [hlong, hsend]
      · rw [if_neg hsend, continued_opened rfl]
        by_cases hzero : contentLength = some 0
        · have hsend' : (ended s contentLength).sendEndStream = true := (ended_sendEndStream s contentLength).mpr (Or.inr hzero)
          rw [if_pos hsend']
          simp [hlong, hzero]
        · have hsend' : ¬ (ended s contentLength).sendEndStream = true := by
            rw [ended_sendEndStream]
            exact fun hc => hc.elim hsend hzero
          rw [if_neg hsend']
          simp [hrecv, hsend, hzero]
  | opened =>
    rw [changeState_opened hstate (Or.inl rfl), changeState_opened (s := ended s contentLength) hstate (Or.inl rfl),
      continued_opened hstate]
    exact iff_of_true rfl trivial
  | reservedLocal =>
    rw [changeState_reservedLocal hstate (Or.inl rfl), changeState_reservedLocal (s := ended s contentLength) hstate (Or.inl rfl)]
    exact iff_of_true (continued_reserved hstate hne) trivial
  | reservedRemote => exact absurd hstate h.1
  | halfClosedLocal =>
    rw [changeState_halfClosedLocal hstate, changeState_halfClosedLocal (s := ended s contentLength) hstate, continued_closed rfl]
    exact iff_of_true rfl (h.2 hstate)
  | halfClosedRemote =>
    rw [changeState_halfClosedRemote hstate, changeState_halfClosedRemote (s := ended s contentLength) hstate]
    by_cases hsend : s.sendEndStream = true
    · have hsend' : (ended s contentLength).sendEndStream = true := (ended_sendEndStream s contentLength).mpr (Or.inl hsend)
      rw [if_pos (Or.inr hsend), if_pos (Or.inr hsend'), continued_closed rfl]
      exact iff_of_true rfl (Or.inr (Or.inl hsend))
    · have hlegal : ¬ (Http2FrameType.headers = .rstStream ∨ s.sendEndStream = true) := by simp [hsend]
      rw [if_neg hlegal, if_pos rfl, continued_halfClosed (Or.inl hstate) hne]
      by_cases hzero : contentLength = some 0
      · have hsend' : (ended s contentLength).sendEndStream = true := (ended_sendEndStream s contentLength).mpr (Or.inr hzero)
        rw [if_pos (Or.inr hsend')]
        exact iff_of_true rfl (Or.inr (Or.inr hzero))
      · simp [ended, hstate, hlong, hsend, hzero]
  | closed =>
    rw [changeState_closed hstate, changeState_closed (s := ended s contentLength) hstate, continued_closed hstate]
    exact iff_of_true rfl trivial

/-- A header block of any length is sent in HEADERS and CONTINUATION frames that carry it, and leaves the stream in the state in which a
block that fits in the HEADERS frame leaves it, exactly in the states of `Keeps`. -/
theorem transparent_iff (s : Http2Stream) (block : Bytes) (contentLength : Option ℤ) :
    Transparent s block contentLength ↔ Keeps s block contentLength := by
  by_cases hcan : CanSend s
  · have hframes := sendHeaderBlock_eq ((headed_legal s block contentLength).mpr hcan)
    have hframed : ∃ frames, (s.sendHeaderBlock block contentLength).2 = some frames ∧ Framed block frames :=
      ⟨_, congrArg Prod.snd hframes, framed block contentLength⟩
    by_cases hfits : block.length ≤ HEADERS_BUF_LEN
    · refine iff_of_true ⟨hframed, fun small hsmall => ?_⟩ (keeps_of_fits hcan hfits)
      rw [state_fits hcan hfits, state_fits hcan hsmall]
    · rw [← state_eq_iff hcan hfits]
      constructor
      · intro h
        have hempty : ([] : Bytes).length ≤ HEADERS_BUF_LEN := Nat.zero_le _
        rw [← state_fits hcan hempty]
        exact h.state_eq [] hempty
      · intro h
        refine ⟨hframed, fun small hsmall => ?_⟩
        rw [h, state_fits hcan hsmall]
  · refine iff_of_false (fun h => ?_) fun h => hcan h.canSend
    obtain ⟨frames, hsome, _⟩ := h.framed
    have hillegal : (headed s block contentLength).2 = false := by
      rw [← Bool.not_eq_true, headed_legal]
      exact hcan
    rw [sendHeaderBlock_illegal hillegal] at hsome
    exact absurd hsome (by simp)

/-- where the transaction sends its header block no GOAWAY is sent instead -/
theorem sendHeadersFrame_writeable (c : Http2ConnectionState) {s : Http2Stream} (h : s.isClientStateWriteable = true) (block : Bytes)
    (contentLength : Option ℤ) : ∃ frames, Framed block frames ∧
      c.sendHeadersFrame s (some block) contentLength = (c.modify s.addr fun _ => (s.sendHeaderBlock block contentLength).1, frames) := by
  have hcan : CanSend s := by
    unfold Http2Stream.isClientStateWriteable at h
    rcases of_decide_eq_true h with hstate | hstate | hstate
    · simp [CanSend, hstate]
    · simp [CanSend, hstate]
    · simp [CanSend, hstate]
  refine ⟨_, framed block contentLength, ?_⟩
  unfold Http2ConnectionState.sendHeadersFrame
  dsimp only
  rw [sendHeaderBlock_eq ((headed_legal s block contentLength).mpr hcan)]

/-- A stream that a request without a body has half closed, with a block of `2 ^ 14 + 1` bytes: the stream is closed. -/
theorem long_block_closes : ¬ ∀ (s : Http2Stream) (block : Bytes) (contentLength : Option ℤ), s.isClientStateWriteable = true →
    Transparent s block contentLength := by
  intro h
  have hstream := h ⟨0, 1, .halfClosedRemote, 65535, 65535, true, false, false, 0, 0, [], 0⟩ (List.replicate (HEADERS_BUF_LEN + 1) 0) none rfl
  rw [transparent_iff] at hstream
  simp [Keeps] at hstream

end SendHeaders

end TrafficServer.Http2
