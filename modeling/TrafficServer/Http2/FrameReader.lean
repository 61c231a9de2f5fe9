/-
Frames on the wire (`http2_parse_frame_header` and `http2_write_frame_header` in `proxy/http2/HTTP2.cc`), and how a session reads them
(`state_process_frame_read` in `proxy/http2/Http2ClientSession.cc`).

The bytes come in pieces that have nothing to do with the frames. The connection is a parameter: what it refuses by the header
(`http2_frame_header_is_valid`, the size of a frame, a CONTINUATION that is missing), and what a frame does to it.

`frames_arrive`: frames that are written back to back arrive as they are, however their bytes are cut, as long as none is refused and none
closes the session.
-/
import Mathlib.Tactic

namespace TrafficServer.Http2.FrameReader

abbrev Bytes := List (BitVec 8)

/-- a number on the wire, with the first byte on the left -/
def ntoh (l : Bytes) : ℕ := l.foldl (fun n b => 256 * n + b.toNat) 0

structure Http2FrameHeader where
  length : ℕ
  type : BitVec 8
  flags : BitVec 8
  streamid : ℕ

def HTTP2_FRAME_HEADER_LEN : ℕ := 9

/-- the high bit of the stream is cleared -/
def http2ParseFrameHeader (iov : Bytes) : Option Http2FrameHeader :=
  if iov.length < HTTP2_FRAME_HEADER_LEN then none
  else
    let lengthAndType := ntoh (iov.take 4)
    some ⟨lengthAndType / 2 ^ 8, BitVec.ofNat 8 lengthAndType, iov.getD 4 0, ntoh ((iov.drop 5).take 4) % 2 ^ 31⟩

/-- the high byte of the length is not used -/
def http2WriteFrameHeader (hdr : Http2FrameHeader) : Bytes :=
  [BitVec.ofNat 8 (hdr.length / 2 ^ 16), BitVec.ofNat 8 (hdr.length / 2 ^ 8), BitVec.ofNat 8 hdr.length, hdr.type, hdr.flags,
   BitVec.ofNat 8 (hdr.streamid / 2 ^ 24), BitVec.ofNat 8 (hdr.streamid / 2 ^ 16), BitVec.ofNat 8 (hdr.streamid / 2 ^ 8),
   BitVec.ofNat 8 hdr.streamid]

/-- a connection: the answer to a header that it refuses, the effect of a frame, and `is_client_closed` -/
structure Connection (σ : Type) where
  refused : σ → Http2FrameHeader → Option σ
  recv : σ → Http2FrameHeader → Bytes → σ
  closed : σ → Bool

/-- `currentHdr` is the header in front of a payload that is not complete -/
structure Http2ClientSession (σ : Type) where
  conn : σ
  buf : Bytes
  currentHdr : Option Http2FrameHeader
  stopped : Bool

namespace Http2ClientSession

variable {σ : Type} (C : Connection σ)

def doCompleteFrameRead (s : Http2ClientSession σ) (hdr : Http2FrameHeader) : Http2ClientSession σ :=
  { s with conn := C.recv s.conn hdr (s.buf.take hdr.length), buf := s.buf.drop hdr.length, currentHdr := none }

/-- the loop of `state_process_frame_read`; without a header's bytes there is no header -/
def processFrames : ℕ → Http2ClientSession σ → Http2ClientSession σ
  | 0, s => s
  | fuel + 1, s =>
    match http2ParseFrameHeader s.buf with
    | none => { s with stopped := C.closed s.conn }
    | some hdr =>
      let s := { s with buf := s.buf.drop HTTP2_FRAME_HEADER_LEN }
      match C.refused s.conn hdr with
      | some conn => { s with conn, stopped := true }
      | none =>
        if s.buf.length < hdr.length then { s with currentHdr := some hdr, stopped := C.closed s.conn }
        else processFrames fuel (s.doCompleteFrameRead C hdr)

/-- bytes have come: `state_start_frame_read`, or `state_complete_frame_read` inside a frame -/
def readReady (s : Http2ClientSession σ) (piece : Bytes) : Http2ClientSession σ :=
  if s.stopped then s
  else
    let s := { s with buf := s.buf ++ piece }
    match s.currentHdr with
    | none => processFrames C (s.buf.length + 1) s
    | some hdr => if s.buf.length < hdr.length then s else processFrames C (s.buf.length + 1) (s.doCompleteFrameRead C hdr)

end Http2ClientSession

/-! ## Frames back to back -/

/-- a frame whose length and stream fit in a header -/
structure Frame where
  type : BitVec 8
  flags : BitVec 8
  streamid : ℕ
  payload : Bytes
  streamid_lt : streamid < 2 ^ 31
  length_lt : payload.length < 2 ^ 24

namespace Frame

def hdr (f : Frame) : Http2FrameHeader := ⟨f.payload.length, f.type, f.flags, f.streamid⟩

def bytes (f : Frame) : Bytes := http2WriteFrameHeader f.hdr ++ f.payload

end Frame

theorem parse_write {hdr : Http2FrameHeader} (hlength : hdr.length < 2 ^ 24) (hstream : hdr.streamid < 2 ^ 31) (rest : Bytes) :
    http2ParseFrameHeader (http2WriteFrameHeader hdr ++ rest) = some hdr := by
  have htype := hdr.type.isLt
  have hword : ntoh ((http2WriteFrameHeader hdr ++ rest).take 4) = 256 * hdr.length + hdr.type.toNat := by
    simp only [http2WriteFrameHeader, List.cons_append, List.take_succ_cons, List.take_zero, ntoh, List.foldl, BitVec.toNat_ofNat]
    omega
  have hid : ntoh (((http2WriteFrameHeader hdr ++ rest).drop 5).take 4) % 2 ^ 31 = hdr.streamid := by
    simp only [http2WriteFrameHeader, List.cons_append, List.drop_succ_cons, List.drop_zero, List.take_succ_cons, List.take_zero, ntoh,
      List.foldl, BitVec.toNat_ofNat]
    omega
  have hlen : (256 * hdr.length + hdr.type.toNat) / 2 ^ 8 = hdr.length := by omega
  have hlow : BitVec.ofNat 8 (256 * hdr.length + hdr.type.toNat) = hdr.type := by
    apply BitVec.eq_of_toNat_eq
    rw [BitVec.toNat_ofNat]
    omega
  rw [http2ParseFrameHeader, if_neg (by simp [http2WriteFrameHeader, HTTP2_FRAME_HEADER_LEN]), hword, hid]
  dsimp only
  rw [hlen, hlow]
  rfl

/-- what comes behind the header is not looked at -/
theorem parse_append {b : Bytes} (h : ¬ b.length < HTTP2_FRAME_HEADER_LEN) (r : Bytes) :
    http2ParseFrameHeader (b ++ r) = http2ParseFrameHeader b := by
  have hnine : 9 ≤ b.length := Nat.le_of_not_lt h
  have hlong : ¬ (b ++ r).length < HTTP2_FRAME_HEADER_LEN := by
    rw [List.length_append]
    exact fun hlt => h (Nat.lt_of_le_of_lt (Nat.le_add_right _ _) hlt)
  rw [http2ParseFrameHeader, http2ParseFrameHeader, if_neg h, if_neg hlong, List.take_append_of_le_length (by omega),
    List.drop_append_of_le_length (by omega), List.take_append_of_le_length (by rw [List.length_drop]; omega),
    List.getD_eq_getElem?_getD, List.getD_eq_getElem?_getD, List.getElem?_append_left (by omega)]

variable {σ : Type} {C : Connection σ} {s : Http2ClientSession σ} {r : Bytes} {l : List Frame}

/-- no frame is refused, and the session stays open -/
def Accepted (C : Connection σ) : σ → List Frame → Prop
  | c, [] => C.closed c = false
  | c, f :: l => C.closed c = false ∧ C.refused c f.hdr = none ∧ Accepted C (C.recv c f.hdr f.payload) l

theorem Accepted.not_closed {c : σ} (h : Accepted C c l) : C.closed c = false := by
  cases l with
  | nil => exact h
  | cons f l => exact h.1

/-- the bytes of the frames -/
def stream (l : List Frame) : Bytes := (l.map Frame.bytes).flatten

/-- a header that is complete is that of the first frame -/
theorem header_first {b : Bytes} {f : Frame} (h : ¬ b.length < HTTP2_FRAME_HEADER_LEN) (hbytes : b ++ r = stream (f :: l)) :
    http2ParseFrameHeader b = some f.hdr ∧ b.drop HTTP2_FRAME_HEADER_LEN ++ r = f.payload ++ stream l := by
  have hsplit : b ++ r = http2WriteFrameHeader f.hdr ++ (f.payload ++ stream l) := by
    rw [hbytes, stream, List.map_cons, List.flatten_cons, Frame.bytes, List.append_assoc]
    rfl
  constructor
  · rw [← parse_append h r, hsplit]
    exact parse_write f.length_lt f.streamid_lt _
  · rw [← List.drop_append_of_le_length (Nat.le_of_not_lt h), hsplit]
    rfl

/-- the connection behind the frames -/
def received (C : Connection σ) (c : σ) (l : List Frame) : σ := l.foldl (fun c f => C.recv c f.hdr f.payload) c

/-- with the bytes `r` to come the session has the frames `l` in front of it -/
structure Expects (C : Connection σ) (s : Http2ClientSession σ) (r : Bytes) (l : List Frame) : Prop where
  going : s.stopped = false
  accepted : Accepted C s.conn l
  bytes : match s.currentHdr with
    | none => s.buf ++ r = stream l
    | some hdr => ∃ f l', l = f :: l' ∧ hdr = f.hdr ∧ s.buf.length < f.payload.length ∧ s.buf ++ r = f.payload ++ stream l'

/-- the session has taken every header that is complete -/
def AtRest (s : Http2ClientSession σ) : Prop := s.currentHdr = none → s.buf.length < HTTP2_FRAME_HEADER_LEN

/-- it goes on with the frames behind those that it has received -/
def Reads (C : Connection σ) (c : σ) (l : List Frame) (s : Http2ClientSession σ) (r : Bytes) : Prop :=
  AtRest s ∧ ∃ l', Expects C s r l' ∧ received C s.conn l' = received C c l

theorem complete_expects {f : Frame} (hgoing : s.stopped = false) (h : Accepted C s.conn (f :: l)) (hlong : ¬ s.buf.length < f.payload.length)
    (hbytes : s.buf ++ r = f.payload ++ stream l) :
    Expects C (s.doCompleteFrameRead C f.hdr) r l ∧ received C (s.doCompleteFrameRead C f.hdr).conn l = received C s.conn (f :: l) := by
  have hle : f.payload.length ≤ s.buf.length := Nat.le_of_not_lt hlong
  have htake : s.buf.take f.payload.length = f.payload := by
    have htaken := congrArg (List.take f.payload.length) hbytes
    rwa [List.take_append_of_le_length hle, List.take_left] at htaken
  have hdrop : s.buf.drop f.payload.length ++ r = stream l := by
    rw [← List.drop_append_of_le_length hle, hbytes, List.drop_left]
  have hconn : (s.doCompleteFrameRead C f.hdr).conn = C.recv s.conn f.hdr f.payload := congrArg _ htake
  refine ⟨⟨hgoing, ?_, hdrop⟩, ?_⟩
  · rw [hconn]
    exact h.2.2
  · rw [hconn]
    rfl

theorem processFrames_reads {fuel : ℕ} (hfuel : s.buf.length < fuel) (hcur : s.currentHdr = none) (h : Expects C s r l) :
    Reads C s.conn l (s.processFrames C fuel) r := by
  induction fuel generalizing s l with
  | zero => omega
  | succ fuel ih =>
    have hclosed := h.accepted.not_closed
    have hbytes := h.bytes
    rw [hcur] at hbytes
    dsimp only at hbytes
    rw [Http2ClientSession.processFrames]
    by_cases hshort : s.buf.length < HTTP2_FRAME_HEADER_LEN
    · rw [show http2ParseFrameHeader s.buf = none from if_pos hshort]
      exact ⟨fun _ => hshort, l, ⟨hclosed, h.accepted, h.bytes⟩, rfl⟩
    have hnine : HTTP2_FRAME_HEADER_LEN ≤ s.buf.length := Nat.le_of_not_lt hshort
    cases l with
    | nil =>
      have hnil : s.buf = [] := (List.append_eq_nil_iff.mp hbytes).1
      rw [hnil] at hnine
      cases hnine
    | cons f l =>
      obtain ⟨hparse, hbehind⟩ := header_first hshort hbytes
      rw [hparse]
      dsimp only
      rw [h.accepted.2.1]
      dsimp only
      by_cases hwait : (s.buf.drop HTTP2_FRAME_HEADER_LEN).length < f.hdr.length
      · rw [if_pos hwait]
        exact ⟨nofun, f :: l, ⟨hclosed, h.accepted, f, l, rfl, rfl, hwait, hbehind⟩, rfl⟩
      · rw [if_neg hwait]
        obtain ⟨hnext, hsame⟩ := complete_expects (s := { s with buf := s.buf.drop HTTP2_FRAME_HEADER_LEN }) h.going h.accepted hwait hbehind
        obtain ⟨hrest, l', hexpects, hreceived⟩ := ih (by
          show ((s.buf.drop HTTP2_FRAME_HEADER_LEN).drop f.payload.length).length < fuel
          rw [HTTP2_FRAME_HEADER_LEN] at hnine ⊢
          rw [List.length_drop, List.length_drop]
          omega) rfl hnext
        exact ⟨hrest, l', hexpects, hreceived.trans hsame⟩

theorem readReady_reads {piece : Bytes} (h : Expects C s (piece ++ r) l) : Reads C s.conn l (s.readReady C piece) r := by
  have hbytes := h.bytes
  rw [Http2ClientSession.readReady, h.going, if_neg Bool.false_ne_true]
  dsimp only
  cases hcur : s.currentHdr with
  | none =>
    rw [hcur] at hbytes
    dsimp only at hbytes ⊢
    rw [← List.append_assoc] at hbytes
    exact processFrames_reads (s := ⟨s.conn, s.buf ++ piece, none, false⟩) (Nat.lt_succ_self _) rfl ⟨rfl, h.accepted, hbytes⟩
  | some hdr =>
    rw [hcur] at hbytes
    obtain ⟨f, l', rfl, rfl, -, hpayload⟩ := hbytes
    rw [← List.append_assoc] at hpayload
    dsimp only
    by_cases hwait : (s.buf ++ piece).length < f.hdr.length
    · rw [if_pos hwait]
      exact ⟨nofun, f :: l', ⟨rfl, h.accepted, f, l', rfl, rfl, hwait, hpayload⟩, rfl⟩
    · rw [if_neg hwait]
      obtain ⟨hnext, hsame⟩ := complete_expects (s := ⟨s.conn, s.buf ++ piece, some f.hdr, false⟩) rfl h.accepted hwait hpayload
      have hfuel : ((s.buf ++ piece).drop f.payload.length).length < (s.buf ++ piece).length + 1 := by
        rw [List.length_drop]
        omega
      obtain ⟨hrest, l'', hexpects, hreceived⟩ := processFrames_reads hfuel rfl hnext
      exact ⟨hrest, l'', hexpects, hreceived.trans hsame⟩

theorem run_reads {pieces : List Bytes} (hrest : AtRest s) (h : Expects C s pieces.flatten l) :
    Reads C s.conn l (pieces.foldl (Http2ClientSession.readReady C) s) [] := by
  induction pieces generalizing s l with
  | nil => exact ⟨hrest, l, h, rfl⟩
  | cons piece pieces ih =>
    obtain ⟨hrest', l', hexpects, hreceived⟩ := readReady_reads h
    obtain ⟨hrest'', l'', hexpects', hreceived'⟩ := ih hrest' hexpects
    exact ⟨hrest'', l'', hexpects', hreceived'.trans hreceived⟩

/-- Frames arrive as they were written, however their bytes are cut. -/
theorem frames_arrive (C : Connection σ) (c : σ) (l : List Frame) (pieces : List Bytes) (hcut : pieces.flatten = stream l) (h : Accepted C c l) :
    pieces.foldl (Http2ClientSession.readReady C) ⟨c, [], none, false⟩ = ⟨received C c l, [], none, false⟩ := by
  obtain ⟨hrest, l', hexpects, hreceived⟩ := run_reads (s := ⟨c, [], none, false⟩) (fun _ => Nat.succ_pos 8) ⟨rfl, h, hcut⟩
  generalize pieces.foldl (Http2ClientSession.readReady C) ⟨c, [], none, false⟩ = s at hrest hexpects hreceived
  obtain ⟨conn, buf, currentHdr, stopped⟩ := s
  obtain ⟨hgoing, -, hbytes⟩ := hexpects
  cases currentHdr with
  | none =>
    have hbuf : buf = stream l' := (List.append_nil buf).symm.trans hbytes
    have hlt : buf.length < 9 := hrest rfl
    cases l' with
    | nil =>
      subst hbuf
      obtain rfl : stopped = false := hgoing
      obtain rfl : conn = received C c l := hreceived
      rfl
    | cons f l' =>
      rw [hbuf, stream, List.map_cons, List.flatten_cons, Frame.bytes, http2WriteFrameHeader] at hlt
      simp at hlt
      omega
  | some hdr =>
    obtain ⟨f, l', -, -, hlt, hpayload⟩ := hbytes
    have hlen := congrArg List.length hpayload
    rw [List.append_nil, List.length_append] at hlen
    omega

/-- a connection that refuses DATA on stream 0 and keeps what it gets -/
def keeping : Connection Bytes :=
  ⟨fun got hdr => if hdr.type = 0 ∧ hdr.streamid = 0 then some got else none, fun got _ payload => got ++ payload, fun _ => false⟩

/-- DATA with `ab` on stream 1, cut within the header and within the payload -/
theorem frames_arrive_cut : [[0, 0, 2, 0], [0, 0, 0, 0, 1, 0x61], [0x62]].foldl (Http2ClientSession.readReady keeping) ⟨[], [], none, false⟩ =
    ⟨[0x61, 0x62], [], none, false⟩ :=
  frames_arrive keeping [] [⟨0, 0, 1, [0x61, 0x62], by decide, by decide⟩] _ (by decide) ⟨rfl, rfl, rfl⟩

end TrafficServer.Http2.FrameReader
