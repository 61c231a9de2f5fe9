/-
The declared and the received length of a request (`payload_length_is_valid`).

The bytes of DATA frames are counted, and the count is compared with Content-Length when END_STREAM comes with a DATA frame. Content-Length
is cut to 32 bits before, and 0 stands for a request without one. END_STREAM on the HEADERS frame or on trailers is not compared at all.

`length_checked_iff`: for frames with room for their padding, a request that ends without an error has the declared length, whatever
frames it has, exactly if its END_STREAM comes with a DATA frame and it declares 1 to `2 ^ 32 - 1` bytes (or ends with HEADERS and declares
none, or ends with trailers it did not announce). `length_unchecked` is a request that declares `2 ^ 32` bytes.

`rcvDataFrame_rcvData` and `storeHeaders_rcvHeaders` say that the frames of the connection do this to their stream.
-/
import TrafficServer.Http2.DataDelivery

namespace TrafficServer.Http2

namespace Http2Stream

variable (s : Http2Stream)

/-- what `rcv_data_frame` does to the stream before it looks at the windows -/
def rcvData (f : DataFrame) : Except Http2Error Http2Stream :=
  if s.state ≠ .opened ∧ s.state ≠ .halfClosedLocal then .error ⟨.stream, .streamClosed, "recv data stream closed"⟩
  else if f.padded ∧ f.padLength > f.payloadLength then .error ⟨.connection, .protocolError, "recv data pad > payload"⟩
  else
    let p := s.receiveData f
    if p.2 = false then .error .ok
    else if f.endStream ∧ p.1.payloadLengthIsValid = false then .error ⟨.connection, .protocolError, "recv data bad payload length"⟩
    else .ok p.1

/-- what a HEADERS frame with END_HEADERS does, for a new stream or as trailers, whose block leaves the request with this Content-Length
and announces trailers or does not -/
def rcvHeaders (endStream : Bool) (contentLength : BitVec 64) (trailing : Bool) : Except Http2Error Http2Stream :=
  if s.state ≠ .idle ∧ s.trailingHeader = false then
    .error ⟨.connection, .streamClosed, "recv headers cannot find existing stream_id"⟩
  else
    let p := { s with recvEndStream := s.recvEndStream || endStream }.changeState .headers true
    if p.2 = false ∧ s.trailingHeader = false then
      .error ⟨.connection, .protocolError, "recv headers end headers and not trailing header"⟩
    else if s.trailingHeader ∧ endStream = false then
      .error ⟨.stream, .protocolError, "recv headers tailing header without endstream"⟩
    else .ok { p.1 with contentLength := contentLength.toNat, trailingHeader := trailing }

end Http2Stream

namespace Length

/-! ## The frames of a connection -/

/-- A DATA frame without an error does this to its stream, and then may move its window. -/
theorem rcvDataFrame_rcvData {c : Http2ConnectionState} {f : DataFrame} {s : Http2Stream} (hfind : c.findStream f.streamId = some s)
    (h : (c.rcvDataFrame f).2.1.cls = .none) : ∃ s', s.rcvData f = .ok s' ∧
      ((c.rcvDataFrame f).1 = c.modify s.addr (fun _ => s') ∨
        (c.rcvDataFrame f).1 = ((c.modify s.addr fun _ => s').takeFromWindows s' f.payloadLength).1) := by
  unfold Http2ConnectionState.rcvDataFrame at h ⊢
  unfold Http2Stream.rcvData
  by_cases hclient : http2IsClientStreamid f.streamId = false
  · rw [if_pos hclient] at h
    exact absurd h (by simp)
  rw [if_neg hclient, hfind] at h
  rw [if_neg hclient, hfind]
  dsimp only at h ⊢
  by_cases hstate : s.state ≠ .opened ∧ s.state ≠ .halfClosedLocal
  · rw [if_pos hstate] at h
    exact absurd h (by simp)
  have hcan : Receive.CanReceive s := by
    unfold Receive.CanReceive
    tauto
  have hlegal : ¬ (s.receiveData f).2 = false := by simp [Receive.receiveData_legal hcan]
  rw [if_neg hstate] at h
  rw [if_neg hstate, if_neg hstate]
  by_cases hpad : f.padded = true ∧ f.padLength > f.payloadLength
  · rw [if_pos hpad] at h
    exact absurd h (by simp)
  rw [if_neg hpad, if_neg hlegal] at h
  rw [if_neg hpad, if_neg hpad, if_neg hlegal, if_neg hlegal]
  by_cases hlength : f.endStream = true ∧ (s.receiveData f).1.payloadLengthIsValid = false
  · rw [if_pos hlength] at h
    exact absurd h (by simp)
  rw [if_neg hlength] at h
  rw [if_neg hlength, if_neg hlength]
  refine ⟨_, rfl, ?_⟩
  by_cases hempty : f.payloadLength = 0
  · rw [if_pos hempty]
    exact Or.inl rfl
  rw [if_neg hempty] at h ⊢
  by_cases hconn : (c.modify s.addr fun _ => (s.receiveData f).1).serverRwnd < f.payloadLength
  · rw [if_pos hconn] at h
    exact absurd h (by simp)
  rw [if_neg hconn] at h ⊢
  by_cases hstream : s.serverRwnd < f.payloadLength
  · rw [if_pos hstream] at h
    exact absurd h (by simp)
  rw [if_neg hstream]
  exact Or.inr rfl

/-- A HEADERS frame with END_HEADERS that does this to its stream goes on to decode its block; nothing is compared. -/
theorem storeHeaders_rcvHeaders {τ η : Type*} (d : Decoder τ η) (st : HeaderState τ η) {s s' : Http2Stream} {f : HeadersFrame}
    {contentLength : BitVec 64} {trailing : Bool} (hend : f.endHeaders = true)
    (h : s.rcvHeaders f.endStream contentLength trailing = .ok s') :
    ∃ s₁ : Http2Stream, s₁.state = s'.state ∧ s₁.recvEndStream = s'.recvEndStream ∧
      st.storeHeaders d { s with recvEndStream := s.recvEndStream || f.endStream } f =
        (((st.put s₁).decodeHeaderBlocks d s₁).1, HeaderState.headersResult ((st.put s₁).decodeHeaderBlocks d s₁).2) := by
  unfold Http2Stream.rcvHeaders at h
  unfold HeaderState.storeHeaders
  rw [if_pos hend]
  dsimp only at h ⊢
  split_ifs at h with hunknown hillegal htrailing
  obtain rfl := Except.ok.inj h
  rw [if_neg hillegal, if_neg htrailing]
  exact ⟨({ s with recvEndStream := s.recvEndStream || f.endStream }.changeState .headers true).1, rfl, rfl, rfl⟩

/-! ## Requests -/

/-- the bytes of a frame without its padding -/
def contentLength (f : DataFrame) : ℕ := f.payloadLength - (if f.padded then 1 else 0) - f.padLength

def total (frames : List DataFrame) : ℕ := (frames.map contentLength).sum

/-- the frame has room for its padding -/
def Fits (f : DataFrame) : Prop := (if f.padded then 1 else 0) + f.padLength ≤ f.payloadLength

/-- the frame that END_STREAM comes with -/
inductive Ending where
  | headers
  | data
  | trailers

/-- DATA frames behind each other -/
def rcvAll (s : Http2Stream) (frames : List DataFrame) : Except Http2Error Http2Stream := frames.foldlM Http2Stream.rcvData s

/-- a new stream -/
def idle : Http2Stream := (newConnection 65535).newStream 1

/-- A request with this Content-Length, which announces trailers or does not, and these DATA frames: its END_STREAM is processed without
an error. -/
def EndsWithoutError (cl : BitVec 64) (trailing : Bool) (frames : List DataFrame) : Ending → Prop
  | .headers => frames = [] ∧ ∃ s, idle.rcvHeaders true cl trailing = .ok s
  | .data => ∃ init last s s', frames = init ++ [last] ∧ last.endStream = true ∧ idle.rcvHeaders false cl trailing = .ok s ∧
      rcvAll s frames = .ok s'
  | .trailers => ∃ s s' s'' cl' trailing', idle.rcvHeaders false cl trailing = .ok s ∧ rcvAll s frames = .ok s' ∧
      s'.rcvHeaders true cl' trailing' = .ok s''

/-- the requests whose length is checked -/
def Checked (cl : BitVec 64) (trailing : Bool) : Ending → Prop
  | .headers => cl = 0
  | .data => 0 < cl.toInt ∧ cl.toInt < 2 ^ 32
  | .trailers => trailing = false

/-! ### Counting -/

/-- a stream that has counted `n` bytes of a request with this Content-Length -/
structure Counted (cl : BitVec 64) (n : ℕ) (s : Http2Stream) : Prop where
  declared : s.contentLength = cl.toNat
  counted : s.dataLength = n % 2 ^ 64

theorem dataLength_eq {f : DataFrame} (h : Fits f) : f.dataLength = contentLength f := by
  have hlt := f.payloadLength_lt
  unfold Fits at h
  unfold DataFrame.dataLength contentLength
  omega

theorem receiveData_counts {s : Http2Stream} (f : DataFrame) :
    (s.receiveData f).1.contentLength = s.contentLength ∧ (s.receiveData f).1.dataLength = (s.dataLength + f.dataLength) % 2 ^ 64 := by
  unfold Http2Stream.receiveData
  by_cases hend : f.endStream = true
  · simp only [if_pos hend]
    rw [Streams.changeState_eq]
    exact ⟨rfl, rfl⟩
  · simp [hend]

/-- what a DATA frame does without an error -/
theorem rcvData_ok {s s' : Http2Stream} {f : DataFrame} (h : s.rcvData f = .ok s') :
    s' = (s.receiveData f).1 ∧ (f.endStream = true → s'.payloadLengthIsValid = true) := by
  unfold Http2Stream.rcvData at h
  dsimp only at h
  split_ifs at h with hstate hpad hillegal hlength
  obtain rfl := Except.ok.inj h
  refine ⟨rfl, fun hend => ?_⟩
  by_contra hvalid
  exact hlength ⟨hend, Bool.eq_false_of_not_eq_true hvalid⟩

theorem Counted.rcvData {cl : BitVec 64} {n : ℕ} {s s' : Http2Stream} (h : Counted cl n s) {f : DataFrame} (hfits : Fits f)
    (hok : s.rcvData f = .ok s') : Counted cl (n + contentLength f) s' := by
  obtain ⟨rfl, _⟩ := rcvData_ok hok
  obtain ⟨hdeclared, hcounted⟩ := receiveData_counts (s := s) f
  refine ⟨hdeclared.trans h.declared, ?_⟩
  rw [hcounted, h.counted, dataLength_eq hfits, Nat.mod_add_mod]

theorem rcvAll_cons {s s' : Http2Stream} {f : DataFrame} {frames : List DataFrame} :
    rcvAll s (f :: frames) = .ok s' ↔ ∃ s₁, s.rcvData f = .ok s₁ ∧ rcvAll s₁ frames = .ok s' := by
  unfold rcvAll
  rw [List.foldlM_cons]
  cases s.rcvData f with
  | error error => exact ⟨fun h => absurd h (by simp [bind, Except.bind]), fun ⟨_, h, _⟩ => absurd h (by simp)⟩
  | ok s₁ => exact ⟨fun h => ⟨s₁, rfl, h⟩, fun ⟨s₂, h, h'⟩ => Except.ok.inj h ▸ h'⟩

theorem rcvAll_concat {s s' : Http2Stream} {init : List DataFrame} {last : DataFrame} :
    rcvAll s (init ++ [last]) = .ok s' ↔ ∃ s₁, rcvAll s init = .ok s₁ ∧ s₁.rcvData last = .ok s' := by
  induction init generalizing s with
  | nil =>
    rw [List.nil_append, rcvAll_cons]
    constructor
    · intro h
      obtain ⟨s₁, hlast, hdone⟩ := h
      exact ⟨s, rfl, Except.ok.inj hdone ▸ hlast⟩
    · intro h
      obtain ⟨s₁, hinit, hlast⟩ := h
      obtain rfl := Except.ok.inj hinit
      exact ⟨s', hlast, rfl⟩
  | cons f init ih =>
    rw [List.cons_append, rcvAll_cons]
    constructor
    · intro h
      obtain ⟨s₂, hfirst, hrest⟩ := h
      obtain ⟨s₁, hinit, hlast⟩ := ih.mp hrest
      exact ⟨s₁, rcvAll_cons.mpr ⟨s₂, hfirst, hinit⟩, hlast⟩
    · intro h
      obtain ⟨s₁, hinit, hlast⟩ := h
      obtain ⟨s₂, hfirst, hrest⟩ := rcvAll_cons.mp hinit
      exact ⟨s₂, hfirst, ih.mpr ⟨s₁, hrest, hlast⟩⟩

/-- the bytes of all frames are counted -/
theorem Counted.rcvAll {cl : BitVec 64} {frames : List DataFrame} (hfits : ∀ f ∈ frames, Fits f) {n : ℕ} {s s' : Http2Stream}
    (h : Counted cl n s) (hok : rcvAll s frames = .ok s') : Counted cl (n + total frames) s' := by
  induction frames generalizing n s with
  | nil =>
    obtain rfl := Except.ok.inj hok
    exact h
  | cons f frames ih =>
    obtain ⟨s₁, hfirst, hrest⟩ := rcvAll_cons.mp hok
    have hcounted := ih (fun g hg => hfits g (List.mem_cons_of_mem f hg)) (h.rcvData (hfits f List.mem_cons_self) hfirst) hrest
    rwa [Nat.add_assoc] at hcounted

/-! ### The first frame -/

/-- the request of a new stream -/
theorem idle_rcvHeaders (endStream : Bool) (cl : BitVec 64) (trailing : Bool) :
    idle.rcvHeaders endStream cl trailing = .ok { idle with
      state := if endStream then .halfClosedRemote else .opened
      recvEndStream := endStream
      contentLength := cl.toNat
      trailingHeader := trailing } := by
  cases endStream with
  | true => rfl
  | false => rfl

theorem idle_counted {endStream : Bool} {cl : BitVec 64} {trailing : Bool} {s : Http2Stream}
    (h : idle.rcvHeaders endStream cl trailing = .ok s) : Counted cl 0 s := by
  rw [idle_rcvHeaders] at h
  obtain rfl := Except.ok.inj h
  exact ⟨rfl, rfl⟩

/-! ### Requests that are checked -/

theorem toNat_of_range {cl : BitVec 64} (hpos : 0 < cl.toInt) (hlt : cl.toInt < 2 ^ 32) :
    cl.toInt = cl.toNat ∧ cl.toNat % 2 ^ 32 = cl.toNat ∧ cl.toNat ≠ 0 := by
  have hcl := cl.isLt
  rw [BitVec.toInt_eq_toNat_cond] at hpos hlt ⊢
  split_ifs at hpos hlt ⊢
  · omega
  · omega

/-- END_STREAM on a DATA frame -/
theorem checked_data {cl : BitVec 64} (hpos : 0 < cl.toInt) (hlt : cl.toInt < 2 ^ 32) {trailing : Bool} {frames : List DataFrame}
    (hfits : ∀ f ∈ frames, Fits f) (htotal : total frames < 2 ^ 64) (h : EndsWithoutError cl trailing frames .data) :
    (total frames : ℤ) = cl.toInt := by
  obtain ⟨init, last, s, s', rfl, hend, hheaders, hall⟩ := h
  obtain ⟨hint, hmod, hne⟩ := toNat_of_range hpos hlt
  have hcounted := (idle_counted hheaders).rcvAll hfits hall
  rw [Nat.zero_add] at hcounted
  -- the last frame has looked at the lengths
  have hvalid : s'.payloadLengthIsValid = true := by
    obtain ⟨s₁, _, hlast⟩ := rcvAll_concat.mp hall
    exact (rcvData_ok hlast).2 hend
  unfold Http2Stream.payloadLengthIsValid at hvalid
  rw [hcounted.declared, hcounted.counted, hmod, Nat.mod_eq_of_lt htotal] at hvalid
  simp only [Bool.or_eq_true, decide_eq_true_eq] at hvalid
  rcases hvalid with hzero | hsame
  · exact absurd hzero hne
  · rw [hint, hsame]

/-! ### Requests that are not -/

theorem oneByte_lt : 1 < 2 ^ 24 := by decide

/-- a DATA frame of one byte -/
def oneByte (endStream : Bool) : DataFrame := ⟨1, 1, oneByte_lt, false, 0, endStream⟩

/-- `n` frames of one byte, with END_STREAM on the last one if it is wanted -/
def bytes (n : ℕ) (endStream : Bool) : List DataFrame := List.replicate n (oneByte false) ++ [oneByte endStream]

theorem bytes_fits (n : ℕ) (endStream : Bool) : ∀ f ∈ bytes n endStream, Fits f := by
  intro f hf
  rcases List.mem_append.mp hf with hf | hf
  · rw [List.eq_of_mem_replicate hf]
    exact Nat.zero_le 1
  · rw [List.mem_singleton.mp hf]
    exact Nat.zero_le 1

theorem bytes_total (n : ℕ) (endStream : Bool) : total (bytes n endStream) = n + 1 := by
  have hone : contentLength (oneByte false) = 1 := rfl
  have hlast : contentLength (oneByte endStream) = 1 := rfl
  unfold total bytes
  rw [List.map_append, List.sum_append, List.map_replicate, List.sum_replicate, hone, List.map_singleton, List.sum_singleton, hlast,
    smul_eq_mul, mul_one]

/-- a frame of one byte on an open stream -/
theorem rcvData_oneByte {s : Http2Stream} (h : s.state = .opened) :
    s.rcvData (oneByte false) = .ok { s with dataLength := (s.dataLength + 1) % 2 ^ 64 } := by
  unfold Http2Stream.rcvData
  rw [if_neg (fun hstate => hstate.1 h), if_neg (by simp [oneByte])]
  rfl

theorem rcvAll_replicate {s : Http2Stream} (h : s.state = .opened) {n : ℕ} (hn : s.dataLength + n < 2 ^ 64) :
    rcvAll s (List.replicate n (oneByte false)) = .ok { s with dataLength := s.dataLength + n } := by
  induction n generalizing s with
  | zero => rfl
  | succ n ih =>
    have hmod : (s.dataLength + 1) % 2 ^ 64 = s.dataLength + 1 := Nat.mod_eq_of_lt (by omega)
    rw [List.replicate_succ, rcvAll_cons]
    refine ⟨_, rcvData_oneByte h, ?_⟩
    have hnext := ih (s := { s with dataLength := s.dataLength + 1 }) h (by dsimp only; omega)
    have hsum : s.dataLength + 1 + n = s.dataLength + (n + 1) := by omega
    rw [hmod, hnext]
    simp only [hsum]

/-- the last one is accepted if the cut length is 0 or is the number of the bytes -/
theorem rcvData_last {s : Http2Stream} (h : s.state = .opened)
    (hvalid : s.contentLength % 2 ^ 32 = 0 ∨ s.contentLength % 2 ^ 32 = (s.dataLength + 1) % 2 ^ 64) :
    ∃ s', s.rcvData (oneByte true) = .ok s' := by
  obtain ⟨hdeclared, hcounted⟩ := receiveData_counts (s := s) (oneByte true)
  have hone : (oneByte true).dataLength = 1 := rfl
  have hlegal := Receive.receiveData_legal (Or.inl h) (oneByte true)
  refine ⟨(s.receiveData (oneByte true)).1, ?_⟩
  unfold Http2Stream.rcvData
  dsimp only
  rw [if_neg (fun hstate => hstate.1 h), if_neg (by simp [oneByte]), if_neg (by simp [hlegal]), if_neg ?_]
  rintro ⟨_, hinvalid⟩
  unfold Http2Stream.payloadLengthIsValid at hinvalid
  rw [hdeclared, hcounted, hone] at hinvalid
  simp only [Bool.or_eq_false_iff, decide_eq_false_iff_not] at hinvalid
  rcases hvalid with hzero | hsame
  · exact hinvalid.1 hzero
  · exact hinvalid.2 hsame

theorem bytes_accepted {cl : BitVec 64} (trailing : Bool) {n : ℕ} (hn : n + 1 < 2 ^ 64)
    (hvalid : cl.toNat % 2 ^ 32 = 0 ∨ cl.toNat % 2 ^ 32 = n + 1) : EndsWithoutError cl trailing (bytes n true) .data := by
  have hheaders := idle_rcvHeaders false cl trailing
  generalize hs : ({ idle with
    state := if false = true then .halfClosedRemote else .opened, recvEndStream := false, contentLength := cl.toNat,
    trailingHeader := trailing } : Http2Stream) = s at hheaders
  have hopen : s.state = .opened := by rw [← hs]; rfl
  have hnone : s.dataLength = 0 := by rw [← hs]; rfl
  have hdeclared : s.contentLength = cl.toNat := by rw [← hs]
  have hinit := rcvAll_replicate hopen (n := n) (by omega)
  obtain ⟨s', hlast⟩ := rcvData_last (s := { s with dataLength := s.dataLength + n }) hopen (by
    dsimp only
    rw [hdeclared, hnone, Nat.zero_add, Nat.mod_eq_of_lt hn]
    exact hvalid)
  exact ⟨List.replicate n (oneByte false), oneByte true, s, s', rfl, rfl, hheaders, rcvAll_concat.mpr ⟨_, hinit, hlast⟩⟩

/-- a frame of one byte without END_STREAM, or no frame, and trailers that were announced -/
theorem trailers_accepted (cl : BitVec 64) {frames : List DataFrame} (h : frames = [] ∨ frames = [oneByte false]) :
    EndsWithoutError cl true frames .trailers := by
  rcases h with rfl | rfl
  · exact ⟨_, _, _, cl, true, idle_rcvHeaders false cl true, rfl, rfl⟩
  · exact ⟨_, _, _, cl, true, idle_rcvHeaders false cl true, rfl, rfl⟩

theorem toInt_eq_zero {cl : BitVec 64} : cl.toInt = 0 ↔ cl = 0 := by
  have hzero : (0 : BitVec 64).toInt = 0 := by decide
  rw [← BitVec.toInt_inj, hzero]

/-- a length that is not checked is missed by a request that is accepted -/
theorem unchecked {cl : BitVec 64} {trailing : Bool} {ending : Ending} (h : ¬ Checked cl trailing ending) :
    ∃ frames, (∀ f ∈ frames, Fits f) ∧ total frames < 2 ^ 64 ∧ EndsWithoutError cl trailing frames ending ∧ (total frames : ℤ) ≠ cl.toInt := by
  have hcl := cl.isLt
  cases ending with
  | headers =>
    refine ⟨[], fun f hf => absurd hf (by simp), by decide, ⟨rfl, _, idle_rcvHeaders true cl trailing⟩, fun heq => h ?_⟩
    exact toInt_eq_zero.mp heq.symm
  | data =>
    have hint := BitVec.toInt_eq_toNat_cond cl
    by_cases hzero : cl.toNat % 2 ^ 32 = 0
    · -- one byte, and if that is what is declared the length is checked
      refine ⟨bytes 0 true, bytes_fits 0 true, ?_, bytes_accepted trailing (by decide) (Or.inl hzero), ?_⟩
      · rw [bytes_total]
        decide
      · rw [bytes_total]
        split_ifs at hint
        · omega
        · omega
    · -- the bytes that the cut length says
      refine ⟨bytes (cl.toNat % 2 ^ 32 - 1) true, bytes_fits _ true, ?_, bytes_accepted trailing (by omega) (Or.inr (by omega)), ?_⟩
      · rw [bytes_total]
        omega
      · rw [bytes_total]
        intro heq
        refine h ⟨?_, ?_⟩
        · omega
        · omega
  | trailers =>
    obtain rfl : trailing = true := Bool.eq_true_of_not_eq_false h
    by_cases hzero : cl.toInt = 0
    · refine ⟨[oneByte false], fun f hf => ?_, by decide, trailers_accepted cl (Or.inr rfl), ?_⟩
      · rw [List.mem_singleton.mp hf]
        exact Nat.zero_le 1
      · rw [hzero]
        decide
    · exact ⟨[], fun f hf => absurd hf (by simp), by decide, trailers_accepted cl (Or.inl rfl), fun heq => hzero heq.symm⟩

/-! ### The check -/

/-- a stream with a request that announces no trailers -/
structure NoTrailers (s : Http2Stream) : Prop where
  not_idle : s.state ≠ .idle
  not_announced : s.trailingHeader = false

theorem NoTrailers.rcvData {s s' : Http2Stream} (h : NoTrailers s) {f : DataFrame} (hok : s.rcvData f = .ok s') : NoTrailers s' := by
  obtain ⟨rfl, _⟩ := rcvData_ok hok
  unfold Http2Stream.receiveData
  by_cases hend : f.endStream = true
  · simp only [if_pos hend]
    constructor
    · apply Headers.changeState_not_idle
      exact h.not_idle
    · rw [Streams.changeState_eq]
      exact h.not_announced
  · simp only [if_neg hend]
    exact ⟨h.not_idle, h.not_announced⟩

theorem NoTrailers.rcvAll {frames : List DataFrame} {s s' : Http2Stream} (h : NoTrailers s) (hok : rcvAll s frames = .ok s') :
    NoTrailers s' := by
  induction frames generalizing s with
  | nil =>
    obtain rfl := Except.ok.inj hok
    exact h
  | cons f frames ih =>
    obtain ⟨s₁, hfirst, hrest⟩ := rcvAll_cons.mp hok
    exact ih (h.rcvData hfirst) hrest

/-- trailers that were not announced are an error -/
theorem trailers_refused {cl : BitVec 64} {frames : List DataFrame} : ¬ EndsWithoutError cl false frames .trailers := by
  intro h
  obtain ⟨s, s', s'', cl', trailing', hheaders, hall, htrailers⟩ := h
  rw [idle_rcvHeaders] at hheaders
  obtain rfl := Except.ok.inj hheaders
  have hplain : NoTrailers s' := NoTrailers.rcvAll ⟨by simp, rfl⟩ hall
  unfold Http2Stream.rcvHeaders at htrailers
  rw [if_pos ⟨hplain.not_idle, hplain.not_announced⟩] at htrailers
  exact absurd htrailers (by simp)

/-- Which requests have the length they declare, whatever DATA frames they have. -/
theorem length_checked_iff (cl : BitVec 64) (trailing : Bool) (ending : Ending) :
    (∀ frames, (∀ f ∈ frames, Fits f) → total frames < 2 ^ 64 → EndsWithoutError cl trailing frames ending →
      (total frames : ℤ) = cl.toInt) ↔ Checked cl trailing ending := by
  constructor
  · intro h
    by_contra hunchecked
    obtain ⟨frames, hfits, htotal, hends, hne⟩ := unchecked hunchecked
    exact hne (h frames hfits htotal hends)
  · intro hchecked frames hfits htotal hends
    cases ending with
    | headers =>
      obtain ⟨rfl, _⟩ := hends
      exact (toInt_eq_zero.mpr hchecked).symm
    | data => exact checked_data hchecked.1 hchecked.2 hfits htotal hends
    | trailers =>
      obtain rfl : trailing = false := hchecked
      exact absurd hends trailers_refused

/-- A request that declares `2 ^ 32` bytes ends with the byte it has. -/
theorem length_unchecked : ¬ ∀ (cl : BitVec 64) (trailing : Bool) (frames : List DataFrame) (ending : Ending),
    EndsWithoutError cl trailing frames ending → (total frames : ℤ) = cl.toInt := by
  intro h
  have hsame := h (2 ^ 32) false (bytes 0 true) .data (bytes_accepted false (by decide) (Or.inl (by decide)))
  rw [bytes_total] at hsame
  exact absurd hsame (by decide)

end Length

end TrafficServer.Http2
