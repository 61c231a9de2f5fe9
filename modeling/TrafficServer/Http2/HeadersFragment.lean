/-
The header block fragment of a HEADERS frame (`rcv_headers_frame`).

The length of the fragment is the length of the payload without the byte of the pad length, the padding and the priority, computed with 32
bits. The only check is that the pad length is not more than the payload. A frame of one byte that announces one byte of padding
passes it, and the length is `2 ^ 32 - 1` (`fragment_wraps`); so does a frame with a priority that is not in its payload.

`fragment_sound_iff`: the fragment lies in the payload and has the length it should have exactly if the payload of a frame that comes so
far has room for its padding and its priority. `rcvHeadersFrame_fragment` says that this fragment is what the frame stores.
-/
import TrafficServer.Http2.HeaderBlocks

namespace TrafficServer.Http2

namespace HeaderState

variable {τ η : Type*} (maxHeaderListSize : ℕ) (st : HeaderState τ η)

/-- the stream of a HEADERS frame: a stream that has a trailing header, or a new one -/
def headersStream (f : HeadersFrame) : Except Http2Error Http2Stream :=
  if http2IsClientStreamid f.streamId = false then .error ⟨.connection, .protocolError, "recv headers bad client id"⟩
  else if st.conn.isValidStreamid f.streamId then
    match st.conn.findStream f.streamId with
    | none => .error ⟨.connection, .streamClosed, "recv headers cannot find existing stream_id"⟩
    | some s =>
      if s.trailingHeader = false then .error ⟨.connection, .streamClosed, "recv headers cannot find existing stream_id"⟩ else .ok s
  else
    match st.conn.createStream f.streamId with
    | (_, .error error) => .error error
    | (_, .ok _) => .ok (st.conn.newStream f.streamId)

/-- offset and length of the fragment of a frame for this stream, or what is returned before they are computed -/
def fragmentOf (s : Http2Stream) (f : HeadersFrame) : Except Http2Error (ℕ × ℕ) :=
  if s.state = .closed then .error .ok
  else if headerLength s f.payload.length > maxHeaderListSize then
    .error ⟨.stream, .protocolError, "recv headers payload for headers greater than header length"⟩
  else if f.padded ∧ f.padLength > f.payload.length then .error ⟨.connection, .protocolError, "recv headers pad > payload length"⟩
  else if f.priority ∧ f.streamId = f.streamDependency then .error ⟨.stream, .protocolError, "recv headers self dependency"⟩
  else .ok (f.offset, f.fragmentLength)

/-- `header_block_fragment_offset` and `header_block_fragment_length` where the block is stored -/
def headersFragment (f : HeadersFrame) : Except Http2Error (ℕ × ℕ) :=
  match st.headersStream f with
  | .error error => .error error
  | .ok s => fragmentOf maxHeaderListSize s f

/-- what the stream stores of this fragment -/
def copied (f : HeadersFrame) (offset length : ℕ) : Bytes := ((f.payload ++ f.rest).drop offset).take length

/-! ## The fragment is what the frame stores -/

variable (d : Decoder τ η)

/-- a frame with a fragment goes on to store it, and a frame without one is answered with the error -/
structure Follows (f : HeadersFrame) (fragment : Except Http2Error (ℕ × ℕ)) (p : HeaderState τ η × Http2Error) : Prop where
  returned : ∀ error, fragment = .error error → p.2 = error
  stored : ∀ offset length, fragment = .ok (offset, length) →
    ∃ (st' : HeaderState τ η) (s : Http2Stream), s.headerBlocks = copied f offset length ∧ p = st'.storeHeaders d s f

theorem Follows.of_error {f : HeadersFrame} {error : Http2Error} {p : HeaderState τ η × Http2Error} (h : p.2 = error) :
    Follows d f (.error error) p :=
  ⟨fun _ herr => h.trans (Except.error.inj herr), fun _ _ hok => absurd hok (by simp)⟩

theorem headersOf_follows (s : Http2Stream) (f : HeadersFrame) :
    Follows d f (fragmentOf maxHeaderListSize s f) (st.headersOf d maxHeaderListSize s f) := by
  unfold fragmentOf headersOf
  by_cases hclosed : s.state = .closed
  · rw [if_pos hclosed, if_pos hclosed]
    exact Follows.of_error d rfl
  rw [if_neg hclosed, if_neg hclosed]
  dsimp only
  by_cases hlong : headerLength s f.payload.length > maxHeaderListSize
  · rw [if_pos hlong, if_pos hlong]
    exact Follows.of_error d rfl
  rw [if_neg hlong, if_neg hlong]
  by_cases hpad : f.padded ∧ f.padLength > f.payload.length
  · rw [if_pos hpad, if_pos hpad]
    exact Follows.of_error d rfl
  rw [if_neg hpad, if_neg hpad]
  by_cases hself : f.priority ∧ f.streamId = f.streamDependency
  · rw [if_pos hself, if_pos hself]
    exact Follows.of_error d rfl
  rw [if_neg hself, if_neg hself]
  refine ⟨fun _ herr => absurd herr (by simp), fun offset length hok => ?_⟩
  obtain ⟨rfl, rfl⟩ := Prod.mk.inj (Except.ok.inj hok)
  exact ⟨st, _, rfl, rfl⟩

/-- a fragment, where there is one, is in the payload and has the length that the padding and the priority leave, as integers -/
def Sound (f : HeadersFrame) : Except Http2Error (ℕ × ℕ) → Prop
  | .error _ => True
  | .ok (offset, length) => offset + length ≤ f.payload.length ∧
      (length : ℤ) = f.payload.length - (if f.padded then 1 + f.padLength else 0 : ℕ) - (if f.priority then 5 else 0 : ℕ)

/-- the frame is not answered before its fragment is computed -/
structure Passes (s : Http2Stream) (f : HeadersFrame) : Prop where
  not_closed : s.state ≠ .closed
  length_le : headerLength s f.payload.length ≤ maxHeaderListSize
  pad_le : f.padded = true → f.padLength ≤ f.payload.length
  not_self : f.priority = true → f.streamId ≠ f.streamDependency

theorem sound_iff_fits (f : HeadersFrame) : Sound f (.ok (f.offset, f.fragmentLength)) ↔ f.Fits := by
  have hpad : (if f.padded then 1 + f.padLength else 0) = f.padOffset + f.padLength := by
    unfold HeadersFrame.padOffset HeadersFrame.padLength
    split_ifs
    · rfl
    · rfl
  have hlt := f.payload_lt
  unfold Sound HeadersFrame.Fits HeadersFrame.fragmentLength HeadersFrame.offset
  rw [hpad]
  generalize (if f.priority then 5 else 0) = priority
  constructor
  · intro h
    have hexact := h.2
    omega
  · intro h
    omega

theorem fragmentOf_sound_iff (s : Http2Stream) (f : HeadersFrame) :
    Sound f (fragmentOf maxHeaderListSize s f) ↔ (Passes maxHeaderListSize s f → f.Fits) := by
  by_cases hpasses : Passes maxHeaderListSize s f
  · have hcomputed : fragmentOf maxHeaderListSize s f = .ok (f.offset, f.fragmentLength) := by
      unfold fragmentOf
      rw [if_neg hpasses.not_closed, if_neg (not_lt.mpr hpasses.length_le), if_neg fun h => not_lt.mpr (hpasses.pad_le h.1) h.2,
        if_neg fun h => hpasses.not_self h.1 h.2]
    rw [hcomputed, sound_iff_fits]
    exact ⟨fun h _ => h, fun h => h hpasses⟩
  · refine iff_of_true ?_ fun h => absurd h hpasses
    unfold fragmentOf
    split_ifs with hclosed hlong hpad hself
    · trivial
    · trivial
    · trivial
    · trivial
    · exact absurd ⟨hclosed, not_lt.mp hlong, fun h => not_lt.mp fun hgt => hpad ⟨h, hgt⟩, fun h heq => hself ⟨h, heq⟩⟩ hpasses

/-- The fragment of a HEADERS frame lies in the payload, with the length that is left, exactly if the payload of a frame that is not
answered before has room for its padding and its priority. -/
theorem fragment_sound_iff (f : HeadersFrame) :
    Sound f (st.headersFragment maxHeaderListSize f) ↔
      ∀ s, st.headersStream f = .ok s → Passes maxHeaderListSize s f → f.Fits := by
  unfold headersFragment
  cases hstream : st.headersStream f with
  | error error =>
    refine iff_of_true trivial fun s hs => absurd hs (by simp)
  | ok s =>
    dsimp only
    rw [fragmentOf_sound_iff]
    constructor
    · intro h s' hs'
      rw [← Except.ok.inj hs']
      exact h
    · intro h
      exact h s rfl

/-- a HEADERS frame of one byte, which announces one byte of padding -/
def paddedByte : HeadersFrame := ⟨1, [1], true, true, true, false, [], by simp⟩

/-- The first frame of a connection may be this one: the length of its fragment is `2 ^ 32 - 1`. -/
theorem fragment_wraps : ¬ ∀ (maxHeaderListSize : ℕ) (st : HeaderState Unit Unit) (f : HeadersFrame),
    Sound f (st.headersFragment maxHeaderListSize f) := by
  intro h
  have hsound := h 131072 ⟨newConnection 65535, 0, (), fun _ => ()⟩ paddedByte
  have hfragment : (⟨newConnection 65535, 0, (), fun _ => ()⟩ : HeaderState Unit Unit).headersFragment 131072 paddedByte =
      .ok (1, 2 ^ 32 - 1) := by decide
  rw [hfragment] at hsound
  exact absurd hsound.1 (by decide)

end HeaderState

end TrafficServer.Http2
