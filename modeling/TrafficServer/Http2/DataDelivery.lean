/-
The bytes of a DATA frame on their way into the request buffer (the copy loop of `rcv_data_frame`).

The payload is copied in pieces of 16K at most. A write into the request buffer leaves the reader where it is, and the loop then consumes
`nbytes`, which is not the piece but the sum of all pieces so far, with the byte of the pad length. Behind the first piece of a padded frame
and behind the second piece of any frame the reader is too far on. A reader at the end of what has been received reads nothing, and then
the loop does not end.

`delivered_iff` says for which frames the loop ends, appends the payload without its padding, and reads nothing behind the frame, while the
bytes are counted right. `long_frame` is a frame of more than 32K.
-/
import TrafficServer.Http2.HeaderBlocks

namespace TrafficServer.Http2

open Http2ConnectionState (DATA_BUF_LEN)

/-- a DATA frame with its bytes -/
structure DataPayload where
  streamId : ℕ
  payload : Bytes
  padded : Bool
  endStream : Bool
  /-- what has been received behind the frame -/
  rest : Bytes
  payload_lt : payload.length < 2 ^ 24

namespace DataPayload

variable (f : DataPayload)

/-- the frame as the checks of `rcv_data_frame` see it -/
def frame : DataFrame := ⟨f.streamId, f.payload.length, f.payload_lt, f.padded, (f.payload ++ f.rest).headD 0, f.endStream⟩

def padOffset : ℕ := if f.padded then 1 else 0

/-- the payload without the byte of the pad length and without the padding -/
def content : Bytes := (f.payload.drop f.padOffset).take (f.payload.length - f.padOffset - f.frame.padLength)

/-- `unpadded_length` -/
def unpaddedLength : ℕ := f.payload.length - f.frame.padLength

/-- a piece that is written, with the position it is read at -/
abbrev Piece := ℕ × Bytes

/-- `read_len` -/
def readLen (unpaddedLength nbytes : ℕ) : ℕ :=
  if nbytes + DATA_BUF_LEN > unpaddedLength then
    DATA_BUF_LEN - (nbytes + DATA_BUF_LEN - unpaddedLength)
  else DATA_BUF_LEN

/-- the loop, with the reader at `pos`; nothing if the rounds are used up -/
def copyLoop (buffer : Bytes) (unpaddedLength : ℕ) : ℕ → ℕ → ℕ → Option (List Piece)
  | 0, _, _ => none
  | fuel + 1, nbytes, pos =>
    if nbytes < unpaddedLength then
      let piece := (buffer.drop pos).take (readLen unpaddedLength nbytes)
      let nbytes := nbytes + piece.length
      (copyLoop buffer unpaddedLength fuel nbytes (pos + nbytes)).map ((pos, piece) :: ·)
    else some []

/-- what is written into the request buffer; an empty frame is done before the loop -/
def copy (fuel : ℕ) : Option (List Piece) :=
  if f.payload.length = 0 then some [] else copyLoop (f.payload ++ f.rest) f.unpaddedLength fuel f.padOffset f.padOffset

/-- the pieces are the content of the frame, and none of them is read behind the frame -/
structure InFrame (pieces : List Piece) : Prop where
  content_eq : (pieces.map Prod.snd).flatten = f.content
  inside : ∀ p ∈ pieces, p.1 + p.2.length ≤ f.payload.length

/-- The loop ends, the request buffer gets the content of the frame, nothing behind the frame is read, and `data_length` grows by the
length of the content. -/
structure Delivered : Prop where
  copied : ∃ fuel pieces, f.copy fuel = some pieces ∧ f.InFrame pieces
  counted : f.frame.dataLength = f.content.length

/-- One piece, or two of a frame without padding, or two of a padded frame in which each byte of the second piece is the byte behind it. -/
structure Deliverable : Prop where
  fits : f.padOffset + f.frame.padLength ≤ f.payload.length
  plain : f.padded = false → f.payload.length ≤ 2 * DATA_BUF_LEN
  padded : f.padded = true → f.content.length ≤ DATA_BUF_LEN ∨
    f.content.length ≤ 2 * DATA_BUF_LEN ∧ 0 < f.frame.padLength ∧
      ∀ i, DATA_BUF_LEN < i → i < f.unpaddedLength → f.payload[i + 1]? = f.payload[i]?

/-! ## Rounds of the loop -/

section Loop

variable {buffer : Bytes} {unpaddedLength fuel nbytes pos : ℕ} {pieces : List Piece}

theorem readLen_eq (h : nbytes < unpaddedLength) :
    readLen unpaddedLength nbytes = min DATA_BUF_LEN (unpaddedLength - nbytes) := by
  unfold readLen
  split_ifs
  · omega
  · omega

/-- the loop is done -/
theorem copyLoop_done (h : unpaddedLength ≤ nbytes) : copyLoop buffer unpaddedLength (fuel + 1) nbytes pos = some [] := by
  rw [copyLoop, if_neg (not_lt.mpr h)]

/-- a round of the loop -/
theorem copyLoop_round (h : nbytes < unpaddedLength) {piece : Bytes}
    (hpiece : piece = (buffer.drop pos).take (min DATA_BUF_LEN (unpaddedLength - nbytes))) :
    copyLoop buffer unpaddedLength (fuel + 1) nbytes pos =
      (copyLoop buffer unpaddedLength fuel (nbytes + piece.length) (pos + (nbytes + piece.length))).map ((pos, piece) :: ·) := by
  rw [copyLoop, if_pos h, readLen_eq h, hpiece]

/-- a loop that ends without reading behind position `limit` has room for what is left -/
theorem room_of_copyLoop {limit : ℕ} (h : copyLoop buffer unpaddedLength fuel nbytes pos = some pieces)
    (hin : ∀ p ∈ pieces, p.1 + p.2.length ≤ limit) (hlt : nbytes < unpaddedLength) : pos + (unpaddedLength - nbytes) ≤ limit := by
  induction fuel generalizing nbytes pos pieces with
  | zero => exact absurd h (by simp [copyLoop])
  | succ fuel ih =>
    rw [copyLoop_round hlt rfl] at h
    obtain ⟨more, hmore, rfl⟩ := Option.map_eq_some_iff.mp h
    have hfirst := hin _ List.mem_cons_self
    have hlater : ∀ p ∈ more, p.1 + p.2.length ≤ limit := fun p hp => hin p (List.mem_cons_of_mem _ hp)
    generalize (buffer.drop pos).take (min DATA_BUF_LEN (unpaddedLength - nbytes)) = piece at hmore hfirst
    dsimp only at hfirst
    by_cases hnext : nbytes + piece.length < unpaddedLength
    · have hroom := ih hmore hlater hnext
      omega
    · omega

/-- a piece of which everything is there -/
theorem piece_length {n : ℕ} (h : pos + n ≤ buffer.length) : ((buffer.drop pos).take n).length = n := by
  rw [List.length_take, List.length_drop]
  omega

/-- a full round, with more to come -/
theorem copyLoop_full (h : nbytes + DATA_BUF_LEN ≤ unpaddedLength)
    (hbuffer : pos + DATA_BUF_LEN ≤ buffer.length) :
    copyLoop buffer unpaddedLength (fuel + 1) nbytes pos =
      (copyLoop buffer unpaddedLength fuel (nbytes + DATA_BUF_LEN)
        (pos + (nbytes + DATA_BUF_LEN))).map
        ((pos, (buffer.drop pos).take DATA_BUF_LEN) :: ·) := by
  have hpos : 0 < DATA_BUF_LEN := by decide
  have hmin : min DATA_BUF_LEN (unpaddedLength - nbytes) = DATA_BUF_LEN := by omega
  rw [copyLoop_round (by omega) rfl, hmin, piece_length hbuffer]

/-- the last round -/
theorem copyLoop_last (hlt : nbytes < unpaddedLength) (h : unpaddedLength ≤ nbytes + DATA_BUF_LEN)
    (hbuffer : pos + (unpaddedLength - nbytes) ≤ buffer.length) :
    copyLoop buffer unpaddedLength (fuel + 2) nbytes pos = some [(pos, (buffer.drop pos).take (unpaddedLength - nbytes))] := by
  have hmin : min DATA_BUF_LEN (unpaddedLength - nbytes) = unpaddedLength - nbytes := by omega
  rw [copyLoop_round hlt rfl, hmin, piece_length hbuffer, copyLoop_done (by omega)]
  rfl

/-- a loop that ends has done its full rounds -/
theorem copyLoop_full_inv (h : copyLoop buffer unpaddedLength fuel nbytes pos = some pieces)
    (hfull : nbytes + DATA_BUF_LEN ≤ unpaddedLength) (hbuffer : pos + DATA_BUF_LEN ≤ buffer.length) :
    ∃ fuel' more, copyLoop buffer unpaddedLength fuel' (nbytes + DATA_BUF_LEN) (pos + (nbytes + DATA_BUF_LEN)) = some more ∧
      pieces = (pos, (buffer.drop pos).take DATA_BUF_LEN) :: more := by
  cases fuel with
  | zero => exact absurd h (by simp [copyLoop])
  | succ fuel =>
    rw [copyLoop_full hfull hbuffer] at h
    obtain ⟨more, hmore, rfl⟩ := Option.map_eq_some_iff.mp h
    exact ⟨fuel, more, hmore, rfl⟩

/-- and its last round -/
theorem copyLoop_last_inv (h : copyLoop buffer unpaddedLength fuel nbytes pos = some pieces) (hlt : nbytes < unpaddedLength)
    (hlast : unpaddedLength ≤ nbytes + DATA_BUF_LEN) (hbuffer : pos + (unpaddedLength - nbytes) ≤ buffer.length) :
    pieces = [(pos, (buffer.drop pos).take (unpaddedLength - nbytes))] := by
  match fuel with
  | 0 => exact absurd h (by simp [copyLoop])
  | 1 =>
    rw [copyLoop_round hlt rfl, copyLoop] at h
    exact absurd h (by simp)
  | fuel + 2 =>
    rw [copyLoop_last hlt hlast hbuffer] at h
    exact (Option.some.inj h).symm

end Loop

/-! ## Which frames are delivered -/

variable {f}

theorem padLength_lt : f.frame.padLength < 2 ^ 8 := by
  unfold DataFrame.padLength
  split_ifs
  · exact (f.frame.firstByte).isLt
  · exact Nat.two_pow_pos 8

theorem plain_offsets (h : f.padded = false) : f.padOffset = 0 ∧ f.frame.padLength = 0 := by
  have hframe : f.frame.padded = false := h
  unfold padOffset DataFrame.padLength
  rw [h, hframe]
  exact ⟨rfl, rfl⟩

theorem padded_offset (h : f.padded = true) : f.padOffset = 1 := by
  unfold padOffset
  rw [h]
  rfl

theorem content_length : f.content.length = f.payload.length - f.padOffset - f.frame.padLength := by
  unfold content
  rw [List.length_take, List.length_drop]
  omega

/-- the bytes are counted right exactly if the frame has room for its padding -/
theorem counted_iff : f.frame.dataLength = f.content.length ↔ f.padOffset + f.frame.padLength ≤ f.payload.length := by
  have hoffset : (if f.frame.padded then 1 else 0) = f.padOffset := rfl
  have hlength : f.frame.payloadLength = f.payload.length := rfl
  have hle : f.padOffset ≤ 1 := by
    unfold padOffset
    split_ifs
    · exact le_refl 1
    · exact Nat.zero_le 1
  have hpad := padLength_lt (f := f)
  have hlt := f.payload_lt
  unfold DataFrame.dataLength
  rw [content_length, hoffset, hlength]
  omega

theorem content_eq (h : f.padOffset + f.frame.padLength ≤ f.payload.length) :
    f.content = (f.payload.drop f.padOffset).take (f.unpaddedLength - f.padOffset) := by
  have hlength : f.payload.length - f.padOffset - f.frame.padLength = f.unpaddedLength - f.padOffset := by
    unfold unpaddedLength
    omega
  rw [content, hlength]

theorem copy_eq (h : f.payload.length ≠ 0) (fuel : ℕ) :
    f.copy fuel = copyLoop (f.payload ++ f.rest) f.unpaddedLength fuel f.padOffset f.padOffset := by
  rw [copy, if_neg h]

theorem buffer_take {n m : ℕ} (h : n + m ≤ f.payload.length) :
    ((f.payload ++ f.rest).drop n).take m = (f.payload.drop n).take m := by
  rw [List.drop_append_of_le_length (by omega), List.take_append_of_le_length (by rw [List.length_drop]; omega)]

theorem buffer_length : (f.payload ++ f.rest).length = f.payload.length + f.rest.length := List.length_append

/-- one piece -/
theorem deliver_one (h : f.padOffset + f.frame.padLength ≤ f.payload.length) (hshort : f.unpaddedLength ≤ f.padOffset + DATA_BUF_LEN) :
    ∃ fuel pieces, f.copy fuel = some pieces ∧ f.InFrame pieces := by
  have hle : f.unpaddedLength ≤ f.payload.length := Nat.sub_le _ _
  have hcontent := content_eq h
  by_cases hempty : f.unpaddedLength ≤ f.padOffset
  · have hnil : f.content = [] := by
      rw [hcontent, Nat.sub_eq_zero_of_le hempty, List.take_zero]
    refine ⟨1, [], ?_, ?_, fun p hp => absurd hp (by simp)⟩
    · unfold copy
      split_ifs
      · rfl
      · exact copyLoop_done hempty
    · exact hnil.symm
  · have hlt := not_le.mp hempty
    have hpiece := buffer_take (f := f) (n := f.padOffset) (m := f.unpaddedLength - f.padOffset) (by omega)
    refine ⟨2, _, (copy_eq (by omega) 2).trans (copyLoop_last hlt hshort (by rw [buffer_length]; omega)), ?_, ?_⟩
    · rw [List.map_singleton, List.flatten_singleton, hpiece, hcontent]
    · intro p hp
      obtain rfl := List.mem_singleton.mp hp
      dsimp only
      rw [hpiece, List.length_take]
      omega

/-- the second piece of a frame, which is read behind one byte too many if the frame is padded -/
def secondPiece (f : DataPayload) : Piece :=
  (f.padOffset + (f.padOffset + DATA_BUF_LEN), ((f.payload ++ f.rest).drop (f.padOffset + (f.padOffset + DATA_BUF_LEN))).take
    (f.unpaddedLength - (f.padOffset + DATA_BUF_LEN)))

def firstPiece (f : DataPayload) : Piece := (f.padOffset, ((f.payload ++ f.rest).drop f.padOffset).take DATA_BUF_LEN)

/-- two pieces, if the second one is the right one -/
theorem inFrame_two_iff (h : f.padOffset + f.frame.padLength ≤ f.payload.length) (hlong : f.padOffset + DATA_BUF_LEN < f.unpaddedLength)
    (hroom : f.padOffset + f.unpaddedLength ≤ f.payload.length) :
    f.InFrame [firstPiece f, secondPiece f] ↔
      ((f.payload).drop (f.padOffset + (f.padOffset + DATA_BUF_LEN))).take (f.unpaddedLength - (f.padOffset + DATA_BUF_LEN)) =
        (f.payload.drop (f.padOffset + DATA_BUF_LEN)).take (f.unpaddedLength - (f.padOffset + DATA_BUF_LEN)) := by
  have hfirst := buffer_take (f := f) (n := f.padOffset) (m := DATA_BUF_LEN) (by omega)
  have hsecond := buffer_take (f := f) (n := f.padOffset + (f.padOffset + DATA_BUF_LEN))
    (m := f.unpaddedLength - (f.padOffset + DATA_BUF_LEN)) (by omega)
  have hsplit : f.content = (f.payload.drop f.padOffset).take DATA_BUF_LEN ++
      (f.payload.drop (f.padOffset + DATA_BUF_LEN)).take (f.unpaddedLength - (f.padOffset + DATA_BUF_LEN)) := by
    have hsum : f.unpaddedLength - f.padOffset = DATA_BUF_LEN + (f.unpaddedLength - (f.padOffset + DATA_BUF_LEN)) := by omega
    rw [content_eq h, hsum, List.take_add, List.drop_drop]
  have hflatten : ([firstPiece f, secondPiece f].map Prod.snd).flatten = (f.payload.drop f.padOffset).take DATA_BUF_LEN ++
      (f.payload.drop (f.padOffset + (f.padOffset + DATA_BUF_LEN))).take (f.unpaddedLength - (f.padOffset + DATA_BUF_LEN)) := by
    simp [firstPiece, secondPiece, hfirst, hsecond]
  constructor
  · intro hin
    have heq := hin.content_eq
    rw [hflatten, hsplit] at heq
    exact List.append_cancel_left heq
  · intro heq
    refine ⟨by rw [hflatten, hsplit, heq], fun p hp => ?_⟩
    rcases List.mem_cons.mp hp with rfl | hp
    · dsimp only [firstPiece]
      rw [hfirst, List.length_take]
      omega
    · obtain rfl := List.mem_singleton.mp hp
      dsimp only [secondPiece]
      rw [hsecond, List.length_take]
      omega

/-- the loop in two rounds -/
theorem copy_two (hlong : f.padOffset + DATA_BUF_LEN < f.unpaddedLength)
    (hshort : f.unpaddedLength ≤ f.padOffset + 2 * DATA_BUF_LEN) (hroom : f.padOffset + f.unpaddedLength ≤ f.payload.length) :
    f.copy 3 = some [firstPiece f, secondPiece f] := by
  rw [copy_eq (by omega), copyLoop_full (by omega) (by rw [buffer_length]; omega),
    copyLoop_last (by omega) (by omega) (by rw [buffer_length]; omega)]
  rfl

/-- What a frame of more than one piece needs: the reader of the second piece is too far on by `padOffset`, and that of the third by more
than any padding. -/
theorem two_of_inFrame {fuel : ℕ} {pieces : List Piece} (h : f.padOffset + f.frame.padLength ≤ f.payload.length)
    (hlong : f.padOffset + DATA_BUF_LEN < f.unpaddedLength) (hcopy : f.copy fuel = some pieces) (hin : f.InFrame pieces) :
    f.padOffset + f.unpaddedLength ≤ f.payload.length ∧ f.unpaddedLength ≤ f.padOffset + 2 * DATA_BUF_LEN ∧
      f.InFrame [firstPiece f, secondPiece f] := by
  have hsize : DATA_BUF_LEN = 16384 := rfl
  have hpad := padLength_lt (f := f)
  have hunpadded : f.unpaddedLength + f.frame.padLength = f.payload.length := by
    unfold unpaddedLength
    omega
  rw [copy_eq (by omega)] at hcopy
  obtain ⟨fuel', more, hmore, hpieces⟩ := copyLoop_full_inv hcopy (by omega) (by rw [buffer_length]; omega)
  have hinside : ∀ p ∈ more, p.1 + p.2.length ≤ f.payload.length := fun p hp => hin.inside p (hpieces ▸ List.mem_cons_of_mem _ hp)
  have hroom := room_of_copyLoop hmore hinside hlong
  have hshort : f.unpaddedLength ≤ f.padOffset + 2 * DATA_BUF_LEN := by
    by_contra hthird
    obtain ⟨fuel'', rest, hrest, hmore'⟩ := copyLoop_full_inv hmore (by omega) (by rw [buffer_length]; omega)
    have hinside' : ∀ p ∈ rest, p.1 + p.2.length ≤ f.payload.length := fun p hp => hinside p (hmore' ▸ List.mem_cons_of_mem _ hp)
    have hroom' := room_of_copyLoop hrest hinside' (by omega)
    omega
  have hlast := copyLoop_last_inv hmore hlong (by omega) (by rw [buffer_length]; omega)
  refine ⟨by omega, hshort, ?_⟩
  rw [hpieces, hlast] at hin
  exact hin

/-- the bytes of the second piece against the bytes behind them -/
theorem shifted_iff (l : Bytes) (k m : ℕ) : (l.drop (k + 1)).take m = (l.drop k).take m ↔ ∀ i, k ≤ i → i < k + m → l[i + 1]? = l[i]? := by
  constructor
  · intro h i hk hm
    have hget := congrArg (fun t : Bytes => t[i - k]?) h
    simp only [List.getElem?_take, List.getElem?_drop] at hget
    rw [if_pos (by omega), if_pos (by omega)] at hget
    rwa [show k + 1 + (i - k) = i + 1 by omega, show k + (i - k) = i by omega] at hget
  · intro h
    refine List.ext_getElem? fun j => ?_
    simp only [List.getElem?_take, List.getElem?_drop]
    split_ifs with hj
    · rw [show k + 1 + j = k + j + 1 by omega]
      exact h (k + j) (by omega) (by omega)
    · rfl

theorem delivered_iff_deliverable (f : DataPayload) : f.Delivered ↔ f.Deliverable := by
  have hpos : 0 < DATA_BUF_LEN := by decide
  constructor
  · intro hdelivered
    have hfits := counted_iff.mp hdelivered.counted
    have hunpadded : f.unpaddedLength = f.payload.length - f.frame.padLength := rfl
    obtain ⟨fuel, pieces, hcopy, hin⟩ := hdelivered.copied
    refine ⟨hfits, fun hplain => ?_, fun hpadded => ?_⟩
    · obtain ⟨hoffset, hnone⟩ := plain_offsets hplain
      by_contra hlong
      have htwo := two_of_inFrame hfits (by omega) hcopy hin
      omega
    · have hoffset := padded_offset hpadded
      have hlength := content_length (f := f)
      by_cases hshort : f.content.length ≤ DATA_BUF_LEN
      · exact Or.inl hshort
      · have hlong : f.padOffset + DATA_BUF_LEN < f.unpaddedLength := by omega
        obtain ⟨hroom, htwice, hpieces⟩ := two_of_inFrame hfits hlong hcopy hin
        have hsecond := (inFrame_two_iff hfits hlong hroom).mp hpieces
        rw [hoffset, show 1 + (1 + DATA_BUF_LEN) = 1 + DATA_BUF_LEN + 1 by omega, shifted_iff] at hsecond
        exact Or.inr ⟨by omega, by omega, fun i hi hlt => hsecond i (by omega) (by omega)⟩
  · intro h
    have hunpadded : f.unpaddedLength = f.payload.length - f.frame.padLength := rfl
    have hfits := h.fits
    refine ⟨?_, counted_iff.mpr hfits⟩
    by_cases hone : f.unpaddedLength ≤ f.padOffset + DATA_BUF_LEN
    · exact deliver_one hfits hone
    have hlong := not_le.mp hone
    cases hp : f.padded with
    | false =>
      obtain ⟨hoffset, hnone⟩ := plain_offsets hp
      have htwice := h.plain hp
      have hroom : f.padOffset + f.unpaddedLength ≤ f.payload.length := by omega
      refine ⟨3, _, copy_two hlong (by omega) hroom, (inFrame_two_iff hfits hlong hroom).mpr ?_⟩
      simp only [hoffset, Nat.zero_add]
    | true =>
      have hoffset := padded_offset hp
      have hlength := content_length (f := f)
      rcases h.padded hp with hshort | ⟨htwice, hpad, hsame⟩
      · omega
      · have hroom : f.padOffset + f.unpaddedLength ≤ f.payload.length := by omega
        refine ⟨3, _, copy_two hlong (by omega) hroom, (inFrame_two_iff hfits hlong hroom).mpr ?_⟩
        rw [hoffset, show 1 + (1 + DATA_BUF_LEN) = 1 + DATA_BUF_LEN + 1 by omega, shifted_iff]
        exact fun i hi hlt => hsame i (by omega) (by omega)

/-! ## Accepted frames -/

/-- the frame is answered with no error -/
def Accepted (c : Http2ConnectionState) (f : DataPayload) : Prop := (c.rcvDataFrame f.frame).2.1.cls = .none

instance (c : Http2ConnectionState) (f : DataPayload) : Decidable (Accepted c f) := inferInstanceAs (Decidable (_ = _))

/-- A DATA frame that is accepted is delivered exactly if it is deliverable. -/
theorem delivered_iff (c : Http2ConnectionState) (f : DataPayload) : (Accepted c f → f.Delivered) ↔ (Accepted c f → f.Deliverable) :=
  imp_congr_right fun _ => delivered_iff_deliverable f

theorem longPayload_lt : (List.replicate (2 * DATA_BUF_LEN + 1) (0 : BitVec 8)).length < 2 ^ 24 := by
  rw [List.length_replicate]
  decide

/-- a frame of 32K and a byte, without padding -/
def longFrame : DataPayload := ⟨1, List.replicate (2 * DATA_BUF_LEN + 1) 0, false, false, [], longPayload_lt⟩

/-- a connection with an open stream -/
def oneStream : Http2ConnectionState :=
  { newConnection 65535 with
    streamList := [⟨0, 1, .opened, 65535, 65535, false, false, false, 0, 0, [], 0⟩]
    nextStream := 1
    latestStreamidIn := 1
    clientStreamsInCount := 1 }

/-- Both windows allow the frame, and it is not delivered: the last byte is read 16K behind its place. -/
theorem long_frame : ¬ ∀ (c : Http2ConnectionState) (f : DataPayload), Accepted c f → f.Delivered := by
  intro h
  have hlength : longFrame.payload.length = 2 * DATA_BUF_LEN + 1 := List.length_replicate
  have hfirst : (longFrame.payload ++ longFrame.rest).headD 0 = 0 := rfl
  have hframe : longFrame.frame = ⟨1, 2 * DATA_BUF_LEN + 1, by decide, false, 0, false⟩ := by
    unfold frame
    simp only [hfirst, hlength]
    rfl
  have haccepted : Accepted oneStream longFrame := by
    unfold Accepted
    rw [hframe]
    decide
  have hlong := ((delivered_iff_deliverable longFrame).mp (h oneStream longFrame haccepted)).plain rfl
  omega

end DataPayload

end TrafficServer.Http2
