/-
The chunked transfer coding (`ChunkedHandler` in `proxy/http/HttpTunnel.cc`).

`generate_chunked_content` writes what has arrived of a body as chunks of at most `max_chunk_size` bytes, and the last chunk when the
server is done. `process_chunked_content` reads chunks from a reader, which has its bytes in blocks: the size lines and the trailer byte by
byte, block after block, the chunks themselves by copying or by reference, as their size is.

`chunked_round_trip`: whatever pieces the body comes in, and however the coded bytes (and others behind them) are cut into blocks and calls, the
reader is done exactly when it has got the whole coding, then it has given out the body and left what is behind, and both sizes are those of
what was written.

`Decoder.run` is the reader on single bytes; each part of the code keeps what it comes to (`processChunkedContent_run`). The two actions have a
record each; a decoder without a buffer only follows the chunks.
-/
import Mathlib.Data.List.TakeWhile
import TrafficServer.Lib.Hex

namespace TrafficServer.Http

open TrafficServer.Hex

abbrev Bytes := List (BitVec 8)

/-! ## Readers -/

/-- what is left of the blocks of a buffer -/
abbrev IOBufferReader := List Bytes

namespace IOBufferReader

def readAvail (r : IOBufferReader) : ℕ := r.flatten.length

/-- the first block that is not empty: its bytes are at `start`, their number is `block_read_avail` -/
def block (r : IOBufferReader) : Bytes := (r.dropWhile List.isEmpty).headD []

def consume : ℕ → IOBufferReader → IOBufferReader
  | _, [] => []
  | n, b :: r => if n < b.length then b.drop n :: r else consume (n - b.length) r

end IOBufferReader

/-! ## Reading -/

inductive ChunkedState where
  | readChunk
  | readSizeStart
  | readSize
  | readSizeCrlf
  | readTrailerBlank
  | readTrailerCr
  | readTrailerLine
  | readError
  | readDone
  | writeChunk
  | writeDone
  | flowControl
deriving DecidableEq

structure Decoder where
  state : ChunkedState
  curChunkSize : ℤ
  bytesLeft : ℤ
  runningSum : BitVec 32
  numDigits : BitVec 32
  /-- what was written to `dechunked_buffer` -/
  dechunkedBuffer : Option Bytes
  dechunkedSize : ℕ

def CR : BitVec 8 := 0x0d

def LF : BitVec 8 := 0x0a

def minBlockTransferBytes : ℕ := 256

/-- the loops over the bytes of a block: the bytes used, and whether it is done -/
def readBlock (step : Decoder → BitVec 8 → Decoder × Bool) (c : Decoder) : Bytes → Decoder × ℕ × Bool
  | [] => (c, 0, false)
  | b :: data =>
    let (c, done) := step c b
    if done then (c, 1, true)
    else
      let (c, used, done) := readBlock step c data
      (c, used + 1, done)

/-- the loops over the blocks -/
def readBlocks (step : Decoder → BitVec 8 → Decoder × Bool) : ℕ → Decoder → IOBufferReader → Decoder × IOBufferReader
  | 0, c, r => (c, r)
  | fuel + 1, c, r =>
    if r.readAvail = 0 then (c, r)
    else
      let (c, bytesUsed, done) := readBlock step c r.block
      let r := r.consume bytesUsed
      if done then (c, r) else readBlocks step fuel c r

namespace Decoder

variable (c : Decoder)

/-- a byte in `read_size` -/
def sizeByte (b : BitVec 8) : Decoder × Bool :=
  match c.state with
  | .readSize =>
    match value b with
    | some v => ({ c with numDigits := c.numDigits + 1, runningSum := c.runningSum * 16 + BitVec.ofNat 32 v }, false)
    | none =>
      if c.numDigits = 0 ∨ c.runningSum.toInt < 0 then ({ c with state := .readError }, true)
      else ({ c with state := .readSizeCrlf }, false)
  | .readSizeCrlf =>
    if b = LF then
      ({ c with
        curChunkSize := c.runningSum.toInt
        bytesLeft := c.runningSum.toInt
        state := if c.runningSum = 0 then .readTrailerBlank else .readChunk }, true)
    else (c, false)
  | .readSizeStart => if b = LF then ({ c with runningSum := 0, numDigits := 0, state := .readSize }, false) else (c, false)
  | _ => (c, false)

/-- a byte in `read_trailer` -/
def trailerByte (b : BitVec 8) : Decoder × Bool :=
  if b = CR then ({ c with state := if c.state = .readTrailerBlank then .readTrailerCr else .readTrailerLine }, false)
  else if b = LF then
    if c.state = .readTrailerCr ∨ c.state = .readTrailerBlank then ({ c with state := .readDone }, true)
    else ({ c with state := .readTrailerBlank }, false)
  else ({ c with state := .readTrailerLine }, false)

/-- bytes of a chunk are moved -/
def move (l : Bytes) : Decoder :=
  match c.dechunkedBuffer with
  | none => { c with bytesLeft := c.bytesLeft - l.length }
  | some out =>
    { c with bytesLeft := c.bytesLeft - l.length, dechunkedBuffer := some (out ++ l), dechunkedSize := c.dechunkedSize + l.length }

/-- the loop of `transfer_bytes` -/
def transferLoop : ℕ → Decoder → IOBufferReader → Decoder × IOBufferReader
  | 0, c, r => (c, r)
  | fuel + 1, c, r =>
    if c.bytesLeft > 0 then
      let toMove : ℤ := min c.bytesLeft r.block.length
      if toMove ≤ 0 then (c, r)
      else
        let moved : Bytes := if toMove ≥ minBlockTransferBytes then r.flatten.take c.bytesLeft.toNat else r.block.take toMove.toNat
        if moved.length > 0 then transferLoop fuel (c.move moved) (r.consume moved.length) else (c, r)
    else (c, r)

def transferBytes (r : IOBufferReader) : Decoder × IOBufferReader :=
  match c.dechunkedBuffer with
  | none =>
    let moved := (min c.bytesLeft r.readAvail).toNat
    ({ c with bytesLeft := c.bytesLeft - moved }, r.consume moved)
  | some _ => transferLoop r.readAvail c r

def readChunk (r : IOBufferReader) : Decoder × IOBufferReader :=
  let (c, r) := c.transferBytes r
  (if c.bytesLeft = 0 then { c with state := .readSizeStart } else c, r)

def readSize (r : IOBufferReader) : Decoder × IOBufferReader := readBlocks sizeByte r.readAvail c r

def readTrailer (r : IOBufferReader) : Decoder × IOBufferReader := readBlocks trailerByte r.readAvail c r

/-- what `process_chunked_content` does in a state, if it goes on there -/
def handler : ChunkedState → Option (Decoder → IOBufferReader → Decoder × IOBufferReader)
  | .readSize | .readSizeCrlf | .readSizeStart => some readSize
  | .readChunk => some readChunk
  | .readTrailerBlank | .readTrailerCr | .readTrailerLine => some readTrailer
  | _ => none

def processLoop : ℕ → Decoder → IOBufferReader → Decoder × IOBufferReader
  | 0, c, r => (c, r)
  | fuel + 1, c, r =>
    if r.readAvail = 0 then (c, r)
    else
      match handler c.state with
      | none => (c, r)
      | some read =>
        let (c, r) := read c r
        processLoop fuel c r

def processChunkedContent (r : IOBufferReader) : Decoder × IOBufferReader := processLoop r.readAvail c r

/-- a new tunnel that removes the coding -/
def init : Decoder := ⟨.readSize, 0, 0, 0, 0, some [], 0⟩

end Decoder

/-! ## Writing -/

structure Chunker where
  state : ChunkedState
  dechunkedReader : IOBufferReader
  /-- what was written to `chunked_buffer` -/
  chunkedBuffer : Bytes
  chunkedSize : ℕ
  maxChunkSize : ℕ
  maxChunkHeader : Bytes

/-- `CHUNK_HEADER_FMT` -/
def chunkHeader (size : ℕ) : Bytes := digits size ++ [CR, LF]

namespace Chunker

/-- a new tunnel that adds the coding -/
def init (maxChunkSize : ℕ) : Chunker := ⟨.writeChunk, [], [], 0, maxChunkSize, chunkHeader maxChunkSize⟩

def write (g : Chunker) (l : Bytes) : Chunker := { g with chunkedBuffer := g.chunkedBuffer ++ l, chunkedSize := g.chunkedSize + l.length }

def generateLoop : ℕ → Chunker → Chunker
  | 0, g => g
  | fuel + 1, g =>
    let rAvail := g.dechunkedReader.readAvail
    if rAvail > 0 ∧ g.state ≠ .writeDone then
      let writeVal := min g.maxChunkSize rAvail
      let g := { g with state := .writeChunk }
      let g := g.write (if writeVal ≠ g.maxChunkSize then chunkHeader writeVal else g.maxChunkHeader)
      let g := g.write (g.dechunkedReader.flatten.take writeVal)
      let g := { g with dechunkedReader := g.dechunkedReader.consume writeVal }
      generateLoop fuel (g.write [CR, LF])
    else g

/-- a call when more of the body has arrived -/
def generateChunkedContent (g : Chunker) (serverDone : Bool) : Chunker :=
  let g := generateLoop g.dechunkedReader.readAvail g
  if serverDone then { g with state := .writeDone }.write (digits 0 ++ [CR, LF, CR, LF]) else g

/-- the calls for a body in pieces, the last one when the server is done -/
def generate : Chunker → List IOBufferReader → IOBufferReader → Chunker
  | g, [], last => { g with dechunkedReader := g.dechunkedReader ++ last }.generateChunkedContent true
  | g, piece :: pieces, last =>
    generate ({ g with dechunkedReader := g.dechunkedReader ++ piece }.generateChunkedContent false) pieces last

end Chunker

/-! ## The blocks of a reader -/

namespace IOBufferReader

theorem block_prefix (r : IOBufferReader) : ∃ rest, r.flatten = r.block ++ rest := by
  induction r with
  | nil => exact ⟨[], rfl⟩
  | cons b r ih =>
    cases b with
    | nil => exact ih
    | cons x b => exact ⟨r.flatten, rfl⟩

theorem block_ne_nil {r : IOBufferReader} (h : r.readAvail ≠ 0) : r.block ≠ [] := by
  induction r with
  | nil => exact absurd rfl h
  | cons b r ih =>
    cases b with
    | nil => exact ih h
    | cons x b => exact List.cons_ne_nil x b

theorem flatten_consume (n : ℕ) (r : IOBufferReader) : (r.consume n).flatten = r.flatten.drop n := by
  induction r generalizing n with
  | nil => rw [consume, List.flatten_nil, List.drop_nil]
  | cons b r ih =>
    rw [consume, List.flatten_cons, List.drop_append]
    by_cases hn : n < b.length
    · rw [if_pos hn, List.flatten_cons, Nat.sub_eq_zero_of_le hn.le, List.drop_zero]
    · rw [if_neg hn, ih, List.drop_eq_nil_of_le (not_lt.mp hn), List.nil_append]

/-- bytes that were used are consumed -/
theorem consume_of_append {r : IOBufferReader} {l s : Bytes} (h : r.flatten = l ++ s) : (r.consume l.length).flatten = s := by
  rw [flatten_consume, h, List.drop_left]

end IOBufferReader

/-! ## The reader on single bytes -/

namespace Decoder

def endChunk (c : Decoder) : Decoder := if c.bytesLeft = 0 then { c with state := .readSizeStart } else c

/-- what a byte does -/
def byteStep (c : Decoder) (b : BitVec 8) : Decoder :=
  match c.state with
  | .readSize | .readSizeCrlf | .readSizeStart => (c.sizeByte b).1
  | .readChunk => (c.move [b]).endChunk
  | _ => (c.trailerByte b).1

/-- `process_chunked_content` does not go on -/
def stopped (c : Decoder) : Bool := (handler c.state).isNone

/-- bytes one by one, and what is left of them when the reader has stopped -/
def run : Decoder → Bytes → Decoder × Bytes
  | c, [] => (c, [])
  | c, b :: l => if c.stopped then (c, b :: l) else run (c.byteStep b) l

theorem run_stopped {c : Decoder} (h : c.stopped = true) (l : Bytes) : c.run l = (c, l) := by
  cases l with
  | nil => rfl
  | cons b l => rw [run, if_pos h]

theorem run_cons {c : Decoder} (h : c.stopped = false) (b : BitVec 8) (l : Bytes) : c.run (b :: l) = (c.byteStep b).run l := by
  rw [run, if_neg (by simp [h])]

/-- the bytes may come in two parts -/
theorem run_append (c : Decoder) (l s : Bytes) : c.run (l ++ s) = (c.run l).1.run ((c.run l).2 ++ s) := by
  induction l generalizing c with
  | nil => rfl
  | cons b l ih =>
    cases hstop : c.stopped with
    | true => rw [run_stopped hstop (b :: l)]
    | false => rw [List.cons_append, run_cons hstop, run_cons hstop, ih]

/-- the bytes that are left are left again -/
theorem run_run (c : Decoder) (l : Bytes) : (c.run l).1.run (c.run l).2 = c.run l := by
  have h : c.run (l ++ []) = (c.run l).1.run ((c.run l).2 ++ []) := run_append c l []
  rwa [List.append_nil, List.append_nil, eq_comm] at h

/-- either all bytes were used or the reader has stopped -/
theorem run_rest (c : Decoder) (l : Bytes) : (c.run l).2 = [] ∨ (c.run l).1.stopped = true := by
  induction l generalizing c with
  | nil => exact Or.inl rfl
  | cons b l ih =>
    cases hstop : c.stopped with
    | true =>
      rw [run_stopped hstop]
      exact Or.inr hstop
    | false =>
      rw [run_cons hstop]
      exact ih (c.byteStep b)

/-- a chunk that is read has bytes left, and a size whose line has to end is not negative -/
structure Inv (c : Decoder) : Prop where
  chunk : c.state = .readChunk → 0 < c.bytesLeft
  crlf : c.state = .readSizeCrlf → 0 ≤ c.runningSum.toInt

variable {c : Decoder}

theorem endChunk_inv (h : c.state = .readChunk) (hleft : 0 ≤ c.bytesLeft) : c.endChunk.Inv := by
  unfold endChunk
  by_cases h0 : c.bytesLeft = 0
  · rw [if_pos h0]
    exact ⟨by simp, by simp⟩
  · rw [if_neg h0]
    exact ⟨fun _ => lt_of_le_of_ne hleft (Ne.symm h0), by simp [h]⟩

@[simp] theorem move_state (c : Decoder) (l : Bytes) : (c.move l).state = c.state := by
  unfold move
  split <;> rfl

@[simp] theorem move_bytesLeft (c : Decoder) (l : Bytes) : (c.move l).bytesLeft = c.bytesLeft - l.length := by
  unfold move
  split <;> rfl

theorem move_nil (c : Decoder) : c.move [] = c := by
  obtain ⟨_, _, _, _, _, out, _⟩ := c
  cases out <;> simp [move]

theorem move_move (c : Decoder) (l s : Bytes) : (c.move l).move s = c.move (l ++ s) := by
  obtain ⟨_, _, _, _, _, out, _⟩ := c
  cases out <;> simp [move] <;> omega

/-- bytes of a chunk are moved at once or one by one -/
theorem run_chunk {l : Bytes} (h : c.state = .readChunk) (hleft : 0 < c.bytesLeft) (hl : l.length ≤ c.bytesLeft) (s : Bytes) :
    c.run (l ++ s) = (c.move l).endChunk.run s := by
  have hopen : ∀ {d : Decoder}, 0 < d.bytesLeft → d.endChunk = d := fun hd => if_neg (ne_of_gt hd)
  induction l generalizing c with
  | nil => rw [move_nil, hopen hleft, List.nil_append]
  | cons b l ih =>
    have hrun : c.run (b :: (l ++ s)) = (c.move [b]).endChunk.run (l ++ s) := by
      rw [run_cons (by simp [stopped, handler, h]), byteStep, h]
    rw [List.cons_append, hrun]
    cases l with
    | nil => rfl
    | cons b' l =>
      have hleft' : 0 < (c.move [b]).bytesLeft := by
        simp at hl ⊢
        omega
      rw [hopen hleft', ih (by simpa using h) hleft' (by simp at hl ⊢; omega), move_move]
      rfl

/-- the states of `read_size` -/
def InSize (c : Decoder) : Prop := c.state = .readSizeStart ∨ c.state = .readSize ∨ c.state = .readSizeCrlf

/-- the states of `read_trailer` -/
def InTrailer (c : Decoder) : Prop := c.state = .readTrailerBlank ∨ c.state = .readTrailerCr ∨ c.state = .readTrailerLine

/-- what a step of a loop over bytes does in the states of this loop -/
structure ByteLoop (P : Decoder → Prop) (step : Decoder → BitVec 8 → Decoder × Bool) : Prop where
  stopped : ∀ {c}, P c → c.stopped = false
  byte : ∀ {c}, P c → ∀ b, (step c b).1 = c.byteStep b
  stays : ∀ {c}, P c → ∀ b, (step c b).2 = false → P (step c b).1
  inv : ∀ {c}, P c → c.Inv → ∀ b, (step c b).1.Inv

theorem byteLoop_size : ByteLoop InSize sizeByte := by
  refine ⟨?_, ?_, ?_, ?_⟩
  · rintro c (h | h | h) <;> simp [Decoder.stopped, handler, h]
  · rintro c (h | h | h) b <;> simp [byteStep, h]
  · rintro c (h | h | h) b hdone
    · by_cases hb : b = LF <;> simp [sizeByte, h, hb, InSize]
    · cases hv : value b with
      | some v => simp [sizeByte, h, hv, InSize]
      | none =>
        by_cases hbad : c.numDigits = 0#32 ∨ c.runningSum.toInt < 0
        · simp [sizeByte, h, hv, hbad] at hdone
        · simp [sizeByte, h, hv, hbad, InSize]
    · by_cases hb : b = LF
      · simp [sizeByte, h, hb] at hdone
      · simp [sizeByte, h, hb, InSize]
  · rintro c (h | h | h) hinv b
    · by_cases hb : b = LF
      · constructor <;> simp [sizeByte, h, hb]
      · constructor <;> simp [sizeByte, h, hb]
    · cases hv : value b with
      | some v => constructor <;> simp [sizeByte, h, hv]
      | none =>
        by_cases hbad : c.numDigits = 0#32 ∨ c.runningSum.toInt < 0
        · constructor <;> simp [sizeByte, h, hv, hbad]
        · have hpos : 0 ≤ c.runningSum.toInt := not_lt.mp fun hneg => hbad (Or.inr hneg)
          exact ⟨by simp [sizeByte, h, hv, hbad], fun _ => by simpa [sizeByte, h, hv, hbad] using hpos⟩
    · by_cases hb : b = LF
      · by_cases hsum : c.runningSum = 0
        · constructor <;> simp [sizeByte, h, hb, hsum]
        · have hpos : 0 < c.runningSum.toInt :=
            lt_of_le_of_ne (hinv.crlf h) fun h0 => hsum (BitVec.eq_of_toInt_eq (by simpa using h0.symm))
          simp only [sizeByte, h, if_pos hb]
          exact ⟨fun _ => hpos, fun _ => hpos.le⟩
      · simp only [sizeByte, h, if_neg hb]
        exact hinv

/-- behind a byte of the trailer the reader is still there or done -/
theorem trailerByte_state (c : Decoder) (b : BitVec 8) :
    InTrailer (c.trailerByte b).1 ∨ (c.trailerByte b).1.state = .readDone ∧ (c.trailerByte b).2 = true := by
  unfold trailerByte
  split_ifs <;> simp [InTrailer]

theorem byteLoop_trailer : ByteLoop InTrailer trailerByte := by
  refine ⟨?_, ?_, ?_, ?_⟩
  · rintro c (h | h | h) <;> simp [Decoder.stopped, handler, h]
  · rintro c (h | h | h) b <;> simp [byteStep, h]
  · intro c _ b hdone
    rcases c.trailerByte_state b with h | ⟨-, h⟩
    · exact h
    · exact absurd (hdone.symm.trans h) (by decide)
  · intro c _ _ b
    rcases c.trailerByte_state b with (h | h | h) | ⟨h, -⟩ <;> exact ⟨by simp [h], by simp [h]⟩

/-- a part of the code has taken bytes from the reader as `run` does -/
structure Reads (c : Decoder) (r : IOBufferReader) (x : Decoder × IOBufferReader) : Prop where
  inv : x.1.Inv
  run : x.1.run x.2.flatten = c.run r.flatten
  le : x.2.readAvail ≤ r.readAvail

theorem Reads.trans {r : IOBufferReader} {x y : Decoder × IOBufferReader} (h : Reads c r x) (h' : Reads x.1 x.2 y) : Reads c r y :=
  ⟨h'.inv, h'.run.trans h.run, h'.le.trans h.le⟩

theorem readBlock_run {P : Decoder → Prop} {step : Decoder → BitVec 8 → Decoder × Bool} (hstep : ByteLoop P step) (data s : Bytes)
    (hc : P c) (hinv : c.Inv) :
    (readBlock step c data).1.Inv ∧
      (∃ l rest, data = l ++ rest ∧ l.length = (readBlock step c data).2.1 ∧ c.run (data ++ s) = (readBlock step c data).1.run (rest ++ s)) ∧
      ((readBlock step c data).2.2 = false → P (readBlock step c data).1) ∧ (data ≠ [] → 0 < (readBlock step c data).2.1) := by
  induction data generalizing c with
  | nil => exact ⟨hinv, ⟨[], [], rfl, rfl, rfl⟩, fun _ => hc, fun h => absurd rfl h⟩
  | cons b data ih =>
    have hrun : c.run (b :: (data ++ s)) = (step c b).1.run (data ++ s) := by
      rw [run_cons (hstep.stopped hc), hstep.byte hc]
    have hinv' : (step c b).1.Inv := hstep.inv hc hinv b
    rw [readBlock]
    cases hdone : (step c b).2 with
    | true =>
      simp only [hdone, if_true]
      exact ⟨hinv', ⟨[b], data, rfl, rfl, hrun⟩, by simp, by simp⟩
    | false =>
      obtain ⟨hi, ⟨l, rest, hdata, hl, hr⟩, hp, -⟩ := ih (hstep.stays hc b hdone) hinv'
      simp only [hdone, Bool.false_eq_true, if_false]
      refine ⟨hi, ⟨b :: l, rest, ?_, ?_, hrun.trans hr⟩, hp, fun _ => Nat.succ_pos _⟩
      · rw [hdata, List.cons_append]
      · rw [List.length_cons, hl]

/-- bytes of the first block are used -/
theorem reads_consume {r : IOBufferReader} {d : Decoder} {l s : Bytes} (hinv : d.Inv) (hr : r.flatten = l ++ s)
    (hrun : c.run (l ++ s) = d.run s) : Reads c r (d, r.consume l.length) := by
  have hs : (r.consume l.length).flatten = s := IOBufferReader.consume_of_append hr
  refine ⟨hinv, ?_, ?_⟩
  · rw [hs, hr, hrun]
  · simp only [IOBufferReader.readAvail, hs, hr, List.length_append]
    exact Nat.le_add_left _ _

theorem readAvail_consume_lt {r : IOBufferReader} {n : ℕ} (hn : 0 < n) (hr : r.readAvail ≠ 0) : (r.consume n).readAvail < r.readAvail := by
  rw [IOBufferReader.readAvail, IOBufferReader.flatten_consume, List.length_drop]
  unfold IOBufferReader.readAvail at *
  omega

theorem readBlocks_reads {P : Decoder → Prop} {step : Decoder → BitVec 8 → Decoder × Bool} (hstep : ByteLoop P step) (fuel : ℕ)
    {r : IOBufferReader} (hc : P c) (hinv : c.Inv) :
    Reads c r (readBlocks step fuel c r) ∧
      (0 < fuel → r.readAvail ≠ 0 → (readBlocks step fuel c r).2.readAvail < r.readAvail) := by
  induction fuel generalizing c r with
  | zero => exact ⟨⟨hinv, rfl, le_refl _⟩, fun h => absurd h (lt_irrefl 0)⟩
  | succ fuel ih =>
    rw [readBlocks]
    by_cases h0 : r.readAvail = 0
    · rw [if_pos h0]
      exact ⟨⟨hinv, rfl, le_refl _⟩, fun _ h => absurd h0 h⟩
    · obtain ⟨s, hs⟩ := r.block_prefix
      obtain ⟨hi, ⟨l, rest, hblock, hl, hrun⟩, hp, hpos⟩ := readBlock_run hstep r.block s hc hinv
      rw [if_neg h0]
      generalize readBlock step c r.block = x at *
      obtain ⟨d, used, done⟩ := x
      dsimp only at *
      have hfirst : Reads c r (d, r.consume used) := by
        rw [← hl]
        refine reads_consume hi (s := rest ++ s) ?_ ?_
        · rw [hs, hblock, List.append_assoc]
        · rw [← List.append_assoc, ← hblock, hrun]
      have hless : (r.consume used).readAvail < r.readAvail := readAvail_consume_lt (hpos (IOBufferReader.block_ne_nil h0)) h0
      cases done with
      | true =>
        rw [if_pos rfl]
        exact ⟨hfirst, fun _ _ => hless⟩
      | false =>
        rw [if_neg Bool.false_ne_true]
        have hrest : Reads d (r.consume used) (readBlocks step fuel d (r.consume used)) := (ih (hp rfl) hi).1
        exact ⟨hfirst.trans hrest, fun _ _ => lt_of_le_of_lt hrest.le hless⟩

/-- the loop moves bytes that belong to the chunk -/
theorem transferLoop_spec (fuel : ℕ) (c : Decoder) (r : IOBufferReader) (hleft : 0 ≤ c.bytesLeft) :
    ∃ l, r.flatten = l ++ (transferLoop fuel c r).2.flatten ∧ (transferLoop fuel c r).1 = c.move l ∧ l.length ≤ c.bytesLeft ∧
      (0 < fuel → 0 < c.bytesLeft → r.readAvail ≠ 0 → l ≠ []) := by
  induction fuel generalizing c r with
  | zero => exact ⟨[], rfl, c.move_nil.symm, by simpa using hleft, fun h => absurd h (lt_irrefl 0)⟩
  | succ fuel ih =>
    rw [transferLoop]
    by_cases hpos : c.bytesLeft > 0
    · rw [if_pos hpos]
      dsimp only
      by_cases hblock : min c.bytesLeft (r.block.length : ℤ) ≤ 0
      · rw [if_pos hblock]
        refine ⟨[], rfl, c.move_nil.symm, by simpa using hleft, fun _ _ hr => ?_⟩
        have hlen : 0 < r.block.length := List.length_pos_of_ne_nil (IOBufferReader.block_ne_nil hr)
        omega
      · rw [if_neg hblock]
        obtain ⟨s, hs⟩ := r.block_prefix
        have hmoved : ∀ big : Prop, [Decidable big] →
            ∃ l s, r.flatten = l ++ s ∧ 0 < l.length ∧ (l.length : ℤ) ≤ c.bytesLeft ∧
              l = if big then r.flatten.take c.bytesLeft.toNat else r.block.take (min c.bytesLeft (r.block.length : ℤ)).toNat := by
          intro big _
          have hlen : r.flatten.length = r.block.length + s.length := by rw [hs, List.length_append]
          split_ifs
          · refine ⟨_, _, (List.take_append_drop c.bytesLeft.toNat r.flatten).symm, ?_, ?_, rfl⟩ <;>
              rw [List.length_take] <;> omega
          · refine ⟨_, r.block.drop (min c.bytesLeft (r.block.length : ℤ)).toNat ++ s, ?_, ?_, ?_, rfl⟩
            · rw [← List.append_assoc, List.take_append_drop, hs]
            · rw [List.length_take]
              omega
            · rw [List.length_take]
              omega
        obtain ⟨l, s, hr, hlpos, hlle, hl⟩ := hmoved (min c.bytesLeft (r.block.length : ℤ) ≥ minBlockTransferBytes)
        rw [← hl, if_pos hlpos]
        obtain ⟨l', hr', hmove, hle, -⟩ := ih (c.move l) (r.consume l.length) (by rw [move_bytesLeft]; omega)
        rw [IOBufferReader.consume_of_append hr] at hr'
        rw [move_bytesLeft] at hle
        refine ⟨l ++ l', ?_, ?_, ?_, ?_⟩
        · rw [hr, List.append_assoc, ← hr']
        · rw [hmove, move_move]
        · rw [List.length_append]
          omega
        · intro _ _ _ hnil
          rw [(List.append_eq_nil_iff.mp hnil).1] at hlpos
          exact lt_irrefl 0 hlpos
    · rw [if_neg hpos]
      exact ⟨[], rfl, c.move_nil.symm, by simpa using hleft, fun _ h => absurd h hpos⟩

theorem transferBytes_spec (c : Decoder) (r : IOBufferReader) (hleft : 0 < c.bytesLeft) :
    ∃ l, r.flatten = l ++ (c.transferBytes r).2.flatten ∧ (c.transferBytes r).1 = c.move l ∧ l.length ≤ c.bytesLeft ∧
      (r.readAvail ≠ 0 → l ≠ []) := by
  unfold transferBytes
  cases hbuf : c.dechunkedBuffer with
  | some out =>
    obtain ⟨l, hr, hmove, hle, hne⟩ := transferLoop_spec r.readAvail c r hleft.le
    exact ⟨l, hr, hmove, hle, fun h => hne (Nat.pos_of_ne_zero h) hleft h⟩
  | none =>
    dsimp only
    have hmin : (min c.bytesLeft (r.readAvail : ℤ)).toNat ≤ r.flatten.length := by
      unfold IOBufferReader.readAvail
      omega
    refine ⟨r.flatten.take (min c.bytesLeft (r.readAvail : ℤ)).toNat, ?_, ?_, ?_, fun h => ?_⟩
    · rw [IOBufferReader.flatten_consume, List.take_append_drop]
    · rw [move, hbuf, List.length_take, Nat.min_eq_left hmin]
    · rw [List.length_take]
      omega
    · refine List.ne_nil_of_length_pos ?_
      rw [List.length_take]
      unfold IOBufferReader.readAvail at *
      omega

theorem handler_cases {read : Decoder → IOBufferReader → Decoder × IOBufferReader} (h : handler c.state = some read) :
    InSize c ∧ read = readSize ∨ c.state = .readChunk ∧ read = readChunk ∨ InTrailer c ∧ read = readTrailer := by
  unfold InSize InTrailer
  cases hstate : c.state <;> simp [handler, hstate] at h <;> simp [h]

/-- a part of the code takes bytes as `run` does, at least one if there is one -/
theorem handler_reads {read : Decoder → IOBufferReader → Decoder × IOBufferReader} {r : IOBufferReader} (hread : handler c.state = some read)
    (hinv : c.Inv) (hr : r.readAvail ≠ 0) : Reads c r (read c r) ∧ (read c r).2.readAvail < r.readAvail := by
  have hfuel : 0 < r.readAvail := Nat.pos_of_ne_zero hr
  rcases handler_cases hread with ⟨h, rfl⟩ | ⟨h, rfl⟩ | ⟨h, rfl⟩
  · obtain ⟨hreads, hless⟩ := readBlocks_reads byteLoop_size r.readAvail h hinv
    exact ⟨hreads, hless hfuel hr⟩
  · have hleft : 0 < c.bytesLeft := hinv.chunk h
    obtain ⟨l, hflat, hmove, hle, hne⟩ := transferBytes_spec c r hleft
    have hchunk : c.readChunk r = ((c.move l).endChunk, (c.transferBytes r).2) := by
      rw [← hmove]
      rfl
    have hlpos : 0 < l.length := List.length_pos_of_ne_nil (hne hr)
    have hlen : r.readAvail = l.length + (c.transferBytes r).2.readAvail := by
      rw [IOBufferReader.readAvail, hflat, List.length_append]
      rfl
    rw [hchunk]
    refine ⟨⟨?_, ?_, ?_⟩, ?_⟩
    · exact endChunk_inv (by simpa using h) (by rw [move_bytesLeft]; omega)
    · rw [hflat, run_chunk h hleft hle]
    · dsimp only
      omega
    · dsimp only
      omega
  · obtain ⟨hreads, hless⟩ := readBlocks_reads byteLoop_trailer r.readAvail h hinv
    exact ⟨hreads, hless hfuel hr⟩

theorem processLoop_run {fuel : ℕ} {r : IOBufferReader} (hinv : c.Inv) (hfuel : r.readAvail ≤ fuel) :
    (processLoop fuel c r).1.Inv ∧ ((processLoop fuel c r).1, (processLoop fuel c r).2.flatten) = c.run r.flatten := by
  have hempty : r.readAvail = 0 → (c, r.flatten) = c.run r.flatten := by
    intro h
    rw [List.length_eq_zero_iff.mp h]
    rfl
  induction fuel generalizing c r with
  | zero => exact ⟨hinv, hempty (Nat.le_zero.mp hfuel)⟩
  | succ fuel ih =>
    rw [processLoop]
    by_cases h0 : r.readAvail = 0
    · rw [if_pos h0]
      exact ⟨hinv, hempty h0⟩
    · rw [if_neg h0]
      cases hread : handler c.state with
      | none => exact ⟨hinv, (run_stopped (by rw [stopped, hread]; rfl) r.flatten).symm⟩
      | some read =>
        obtain ⟨hreads, hless⟩ := handler_reads hread hinv h0
        dsimp only
        rw [← hreads.run]
        refine ih hreads.inv (by omega) fun h => ?_
        rw [List.length_eq_zero_iff.mp h]
        rfl

/-- a call comes to what the bytes come to one by one -/
theorem processChunkedContent_run (hinv : c.Inv) (r : IOBufferReader) :
    (c.processChunkedContent r).1.Inv ∧ ((c.processChunkedContent r).1, (c.processChunkedContent r).2.flatten) = c.run r.flatten :=
  processLoop_run hinv (le_refl _)

/-- calls of `process_chunked_content`, each when more blocks have arrived -/
def process : Decoder × IOBufferReader → List IOBufferReader → Decoder × IOBufferReader
  | x, [] => x
  | (c, r), blocks :: calls => process (c.processChunkedContent (r ++ blocks)) calls

/-- the calls come to what the bytes come to, whichever way they are cut -/
theorem process_run {r : IOBufferReader} (hinv : c.Inv) (hrest : (c, r.flatten) = c.run r.flatten) (calls : List IOBufferReader) :
    ((process (c, r) calls).1, (process (c, r) calls).2.flatten) = c.run (r.flatten ++ calls.flatten.flatten) := by
  induction calls generalizing c r with
  | nil => simpa [process] using hrest
  | cons blocks calls ih =>
    obtain ⟨hinv', hrun⟩ := processChunkedContent_run hinv (r ++ blocks)
    have hrest' : c.run (r.flatten ++ (blocks.flatten ++ calls.flatten.flatten)) =
        (c.processChunkedContent (r ++ blocks)).1.run ((c.processChunkedContent (r ++ blocks)).2.flatten ++ calls.flatten.flatten) := by
      rw [← List.append_assoc, ← List.flatten_append, run_append, ← hrun]
    rw [process, List.flatten_cons, List.flatten_append, hrest']
    refine ih hinv' ?_
    have hagain := run_run c (r ++ blocks).flatten
    rw [← hrun] at hagain
    exact hagain.symm

end Decoder

/-! ## Reading what was written -/

/-- a chunk as it is sent -/
def chunk (l : Bytes) : Bytes := chunkHeader l.length ++ l ++ [CR, LF]

/-- what is sent behind the chunks -/
def lastChunk : Bytes := digits 0 ++ [CR, LF, CR, LF]

namespace Decoder

variable {c : Decoder}

/-- nothing has been read of the next size line -/
structure AtSize (out : Bytes) (c : Decoder) : Prop where
  state : c.state = .readSize
  sum : c.runningSum = 0
  digits : c.numDigits = 0
  buffer : c.dechunkedBuffer = some out
  size : c.dechunkedSize = out.length

/-- digits of either case are counted and added up -/
theorem readBlock_digits {l : Bytes} (acc : ℕ) (h : c.state = .readSize) (hsum : c.runningSum = BitVec.ofNat 32 acc)
    (hl : ∀ b ∈ l, (value b).isSome) :
    readBlock sizeByte c l =
      ({ c with numDigits := c.numDigits + BitVec.ofNat 32 l.length, runningSum := BitVec.ofNat 32 (Hex.fold acc l) }, l.length, false) := by
  induction l generalizing c acc with
  | nil =>
    obtain ⟨_, _, _, _, _, _, _⟩ := c
    dsimp only at hsum
    simp [readBlock, hsum, Hex.fold]
  | cons b l ih =>
    obtain ⟨v, hvalue⟩ := Option.isSome_iff_exists.mp (hl b List.mem_cons_self)
    have hstep : c.sizeByte b = ({ c with numDigits := c.numDigits + 1, runningSum := c.runningSum * 16 + BitVec.ofNat 32 v }, false) := by
      simp only [sizeByte, h, hvalue]
    have hsum' : c.runningSum * 16 + BitVec.ofNat 32 v = BitVec.ofNat 32 (acc * 16 + v) := by
      rw [hsum, BitVec.ofNat_add, BitVec.ofNat_mul]
      rfl
    have hcount : c.numDigits + 1 + BitVec.ofNat 32 l.length = c.numDigits + BitVec.ofNat 32 (l.length + 1) := by
      rw [BitVec.ofNat_add, BitVec.add_assoc, BitVec.add_comm 1]
      rfl
    have hrest := ih (c := { c with numDigits := c.numDigits + 1, runningSum := BitVec.ofNat 32 (acc * 16 + v) }) (acc * 16 + v) h rfl
      fun b hb => hl b (List.mem_cons_of_mem _ hb)
    rw [readBlock, hstep, hsum']
    simp only [hrest, hcount, Hex.fold, hvalue, Option.getD_some, List.length_cons, Bool.false_eq_true, if_false]

theorem run_digits {l : Bytes} (acc : ℕ) (h : c.state = .readSize) (hsum : c.runningSum = BitVec.ofNat 32 acc)
    (hl : ∀ b ∈ l, (value b).isSome) (s : Bytes) :
    c.run (l ++ s) =
      { c with numDigits := c.numDigits + BitVec.ofNat 32 l.length, runningSum := BitVec.ofNat 32 (Hex.fold acc l) }.run s := by
  have hinv : c.Inv := ⟨by simp [h], by simp [h]⟩
  obtain ⟨-, ⟨used, rest, hdata, hused, hrun⟩, -⟩ := readBlock_run byteLoop_size l s (Or.inr (Or.inl h)) hinv
  rw [readBlock_digits acc h hsum hl] at hused hrun
  have hrest : rest = [] := by
    have hlen : used.length = l.length := hused
    rw [hdata, List.length_append] at hlen
    exact List.length_eq_zero_iff.mp (by omega)
  rwa [hrest, List.nil_append] at hrun

theorem value_mem_digits {n : ℕ} {b : BitVec 8} (h : b ∈ digits n) : (value b).isSome := by
  obtain ⟨d, hd, rfl⟩ := mem_digits h
  rw [value_digit hd]
  rfl

theorem value_CR : value CR = none := by decide

/-- a size line is read -/
theorem run_chunkHeader {out : Bytes} {n : ℕ} (h : AtSize out c) (hn : n < 2 ^ 31) (s : Bytes) :
    ∃ d : Decoder, c.run (chunkHeader n ++ s) = d.run s ∧ d.state = (if n = 0 then .readTrailerBlank else .readChunk) ∧ d.bytesLeft = n ∧
      d.dechunkedBuffer = some out ∧ d.dechunkedSize = out.length := by
  have hnat : (BitVec.ofNat 32 n).toNat = n := by
    rw [BitVec.toNat_ofNat]
    exact Nat.mod_eq_of_lt (by omega)
  have hint : (BitVec.ofNat 32 n).toInt = n := by
    rw [BitVec.toInt_eq_toNat_of_lt (by omega), hnat]
  have hzero : BitVec.ofNat 32 n = 0 ↔ n = 0 := by
    refine ⟨fun h => ?_, fun h => ?_⟩
    · rw [← hnat, h]
      rfl
    · rw [h]
      rfl
  have hdigits : 0 < (digits n).length := List.length_pos_of_ne_nil (digits_ne_nil n)
  have hcount : c.numDigits + BitVec.ofNat 32 (digits n).length ≠ 0 := by
    intro h0
    have hle : (digits n).length ≤ 8 := length_digits_le (by decide) (hn.trans (by decide))
    have hmod : (digits n).length % 2 ^ 32 = 0 := by simpa [h.digits] using congrArg BitVec.toNat h0
    rw [Nat.mod_eq_of_lt (hle.trans_lt (by decide))] at hmod
    exact absurd hmod (ne_of_gt hdigits)
  let c₁ : Decoder := { c with numDigits := c.numDigits + BitVec.ofNat 32 (digits n).length, runningSum := BitVec.ofNat 32 n }
  let c₂ : Decoder := { c₁ with state := .readSizeCrlf }
  let c₃ : Decoder :=
    { c₂ with
      curChunkSize := c₂.runningSum.toInt
      bytesLeft := c₂.runningSum.toInt
      state := if c₂.runningSum = 0 then .readTrailerBlank else .readChunk }
  have hfirst : c.run (digits n ++ (CR :: LF :: s)) = c₁.run (CR :: LF :: s) := by
    rw [run_digits 0 h.state h.sum (fun _ hb => value_mem_digits hb), fold_digits]
  have hsecond : c₁.run (CR :: LF :: s) = c₂.run (LF :: s) := by
    have hstate : c₁.state = .readSize := h.state
    have hok : ¬ (c₁.numDigits = 0 ∨ c₁.runningSum.toInt < 0) := by
      rintro (h0 | h0)
      · exact hcount h0
      · exact absurd h0 (by dsimp only [c₁]; rw [hint]; omega)
    rw [run_cons (by simp [stopped, handler, hstate])]
    simp only [byteStep, sizeByte, hstate, value_CR, if_neg hok]
    rfl
  have hthird : c₂.run (LF :: s) = c₃.run s := by
    have hstate : c₂.state = .readSizeCrlf := rfl
    rw [run_cons (by simp [stopped, handler, hstate])]
    simp only [byteStep, sizeByte, hstate]
    rfl
  refine ⟨c₃, ?_, ?_, hint, h.buffer, h.size⟩
  · rw [chunkHeader, List.append_assoc]
    exact hfirst.trans (hsecond.trans hthird)
  · dsimp only [c₃, c₂, c₁]
    simp only [hzero]

/-- a chunk is read -/
theorem run_chunk_atSize {out l : Bytes} (h : AtSize out c) (hl : l ≠ []) (hlen : l.length < 2 ^ 31) (s : Bytes) :
    ∃ d : Decoder, c.run (chunk l ++ s) = d.run s ∧ AtSize (out ++ l) d := by
  have hpos : 0 < l.length := List.length_pos_of_ne_nil hl
  obtain ⟨d, hrun, hstate, hleft, hbuf, hsize⟩ := run_chunkHeader h hlen (l ++ ([CR, LF] ++ s))
  rw [if_neg (by omega)] at hstate
  have hbody : d.run (l ++ ([CR, LF] ++ s)) = (d.move l).endChunk.run (CR :: LF :: s) :=
    run_chunk hstate (by omega) (by omega) _
  let e : Decoder := { d.move l with state := .readSizeStart }
  have hend : (d.move l).endChunk = e := by
    rw [endChunk, if_pos (by rw [move_bytesLeft]; omega)]
  have hmove : d.move l =
      { d with
        bytesLeft := d.bytesLeft - l.length
        dechunkedBuffer := some (out ++ l)
        dechunkedSize := d.dechunkedSize + l.length } := by
    rw [move, hbuf]
  have hcr : e.run (CR :: LF :: s) = e.run (LF :: s) := by
    rw [run_cons rfl]
    rfl
  have hlf : e.run (LF :: s) = { e with runningSum := 0, numDigits := 0, state := .readSize }.run s := by
    rw [run_cons rfl]
    rfl
  refine ⟨{ e with runningSum := 0, numDigits := 0, state := .readSize }, ?_, rfl, rfl, rfl, ?_, ?_⟩
  · rw [chunk, List.append_assoc, List.append_assoc, hrun, hbody, hend, hcr, hlf]
  · dsimp only [e]
    rw [hmove]
  · dsimp only [e]
    rw [hmove, hsize, List.length_append]

theorem run_chunks {chunks : List Bytes} (out : Bytes) (h : AtSize out c) (hchunks : ∀ l ∈ chunks, l ≠ [] ∧ l.length < 2 ^ 31) (s : Bytes) :
    ∃ d : Decoder, c.run (chunks.flatMap chunk ++ s) = d.run s ∧ AtSize (out ++ chunks.flatten) d := by
  induction chunks generalizing c out with
  | nil => exact ⟨c, rfl, by simpa using h⟩
  | cons l chunks ih =>
    obtain ⟨hne, hlen⟩ := hchunks l List.mem_cons_self
    obtain ⟨d, hrun, hd⟩ := run_chunk_atSize h hne hlen (chunks.flatMap chunk ++ s)
    obtain ⟨e, hrun', he⟩ := ih (out ++ l) hd fun l hl => hchunks l (List.mem_cons_of_mem _ hl)
    refine ⟨e, ?_, ?_⟩
    · rw [List.flatMap_cons, List.append_assoc, hrun, hrun']
    · rwa [List.flatten_cons, ← List.append_assoc]

/-- the end is read, and nothing behind it -/
theorem run_lastChunk {out : Bytes} (h : AtSize out c) (s : Bytes) :
    ∃ d : Decoder, c.run (lastChunk ++ s) = (d, s) ∧ d.state = .readDone ∧ d.dechunkedBuffer = some out ∧ d.dechunkedSize = out.length := by
  obtain ⟨d, hrun, hstate, -, hbuf, hsize⟩ := run_chunkHeader h (n := 0) (by decide) ([CR, LF] ++ s)
  rw [if_pos rfl] at hstate
  have hcr : d.run (CR :: LF :: s) = { d with state := .readTrailerCr }.run (LF :: s) := by
    rw [run_cons (by simp [stopped, handler, hstate])]
    simp only [byteStep, trailerByte, hstate]
    rfl
  have hlf : { d with state := .readTrailerCr }.run (LF :: s) = ({ d with state := .readDone }, s) := by
    rw [run_cons rfl]
    exact run_stopped rfl s
  refine ⟨{ d with state := .readDone }, ?_, rfl, hbuf, hsize⟩
  rw [← hlf, ← hcr]
  exact hrun

/-- `dechunked_size` is what was written to the buffer -/
def Sized (c : Decoder) : Prop := c.dechunkedBuffer.map List.length = some c.dechunkedSize

theorem byteStep_sized (h : Sized c) (b : BitVec 8) : Sized (c.byteStep b) := by
  have hsize : (c.sizeByte b).1.dechunkedBuffer = c.dechunkedBuffer ∧ (c.sizeByte b).1.dechunkedSize = c.dechunkedSize := by
    unfold sizeByte
    split <;> (try split) <;> (try split) <;> exact ⟨rfl, rfl⟩
  have htrailer : (c.trailerByte b).1.dechunkedBuffer = c.dechunkedBuffer ∧ (c.trailerByte b).1.dechunkedSize = c.dechunkedSize := by
    unfold trailerByte
    split_ifs <;> exact ⟨rfl, rfl⟩
  have hmove : Sized (c.move [b]).endChunk := by
    unfold Sized at h
    cases hbuf : c.dechunkedBuffer with
    | none => simp [hbuf] at h
    | some out =>
      unfold endChunk Sized
      split <;> simp_all [move]
  unfold byteStep
  split
  case h_4 => exact hmove
  all_goals
    unfold Sized at h ⊢
    first
    | rwa [hsize.1, hsize.2]
    | rwa [htrailer.1, htrailer.2]

theorem run_sized (h : Sized c) (l : Bytes) : Sized (c.run l).1 := by
  induction l generalizing c with
  | nil => exact h
  | cons b l ih =>
    cases hstop : c.stopped with
    | true => rwa [run_stopped hstop]
    | false =>
      rw [run_cons hstop]
      exact ih (byteStep_sized h b)

end Decoder

/-! ## What was written -/

namespace Chunker

/-- what a part of the code has written for bytes of the reader -/
structure Writes (g g' : Chunker) (size : ℕ) : Prop where
  chunks : ∃ chunks : List Bytes, g'.chunkedBuffer = g.chunkedBuffer ++ chunks.flatMap chunk ∧
    g.dechunkedReader.flatten = chunks.flatten ++ g'.dechunkedReader.flatten ∧ ∀ l ∈ chunks, l ≠ [] ∧ l.length ≤ size
  size : g.chunkedSize = g.chunkedBuffer.length → g'.chunkedSize = g'.chunkedBuffer.length
  max : g'.maxChunkSize = g.maxChunkSize ∧ g'.maxChunkHeader = g.maxChunkHeader

theorem Writes.refl (g : Chunker) (size : ℕ) : Writes g g size :=
  ⟨⟨[], (List.append_nil _).symm, rfl, fun _ h => absurd h List.not_mem_nil⟩, id, rfl, rfl⟩

/-- a chunk is written -/
def writeChunk (g : Chunker) (l : Bytes) : Chunker :=
  { g with
    state := .writeChunk
    dechunkedReader := g.dechunkedReader.consume l.length
    chunkedBuffer := g.chunkedBuffer ++ chunk l
    chunkedSize := g.chunkedSize + (chunk l).length }

theorem generateLoop_chunk (fuel : ℕ) {g : Chunker} (hstate : g.state ≠ .writeDone) (hheader : g.maxChunkHeader = chunkHeader g.maxChunkSize)
    (h0 : 0 < g.dechunkedReader.readAvail) :
    ∃ l, l.length = min g.maxChunkSize g.dechunkedReader.readAvail ∧
      g.dechunkedReader.flatten = l ++ (g.writeChunk l).dechunkedReader.flatten ∧
      generateLoop (fuel + 1) g = generateLoop fuel (g.writeChunk l) := by
  obtain ⟨l, hl⟩ : ∃ l, l = g.dechunkedReader.flatten.take (min g.maxChunkSize g.dechunkedReader.readAvail) := ⟨_, rfl⟩
  have hlen : l.length = min g.maxChunkSize g.dechunkedReader.readAvail := by
    rw [hl, List.length_take]
    exact Nat.min_eq_left (Nat.min_le_right _ _)
  have hhead : (if l.length ≠ g.maxChunkSize then chunkHeader l.length else g.maxChunkHeader) = chunkHeader l.length := by
    by_cases h : l.length = g.maxChunkSize
    · rw [if_neg (not_not.mpr h), hheader, h]
    · rw [if_pos h]
  refine ⟨l, hlen, ?_, ?_⟩
  · rw [writeChunk, IOBufferReader.flatten_consume, hlen, hl, List.take_append_drop]
  · rw [generateLoop]
    dsimp only
    rw [if_pos ⟨h0, hstate⟩]
    simp only [write]
    rw [← hl, ← hlen, hhead]
    simp only [writeChunk, chunk, List.append_assoc, List.length_append, Nat.add_assoc]

theorem generateLoop_writes {fuel : ℕ} (size : ℕ) {g : Chunker} (hstate : g.state = .writeChunk)
    (hheader : g.maxChunkHeader = chunkHeader g.maxChunkSize) (hmax : 0 < g.maxChunkSize) (hfuel : g.dechunkedReader.readAvail ≤ fuel)
    (hsize : min g.maxChunkSize g.dechunkedReader.readAvail ≤ size) :
    Writes g (generateLoop fuel g) size ∧ (generateLoop fuel g).state = .writeChunk ∧ (generateLoop fuel g).dechunkedReader.flatten = [] := by
  induction fuel generalizing g with
  | zero => exact ⟨Writes.refl g size, hstate, List.length_eq_zero_iff.mp (Nat.le_zero.mp hfuel)⟩
  | succ fuel ih =>
    by_cases h0 : g.dechunkedReader.readAvail = 0
    · rw [generateLoop]
      dsimp only
      rw [if_neg fun h => absurd h0 (ne_of_gt h.1)]
      exact ⟨Writes.refl g size, hstate, List.length_eq_zero_iff.mp h0⟩
    · obtain ⟨l, hlen, hread, hloop⟩ := generateLoop_chunk fuel (by simp [hstate]) hheader (Nat.pos_of_ne_zero h0)
      have havail : g.dechunkedReader.readAvail = l.length + (g.writeChunk l).dechunkedReader.readAvail := by
        rw [IOBufferReader.readAvail, hread, List.length_append]
        rfl
      obtain ⟨⟨⟨chunks, hbuf, hflat, hchunks⟩, hsized, hkept⟩, hdone⟩ := ih (g := g.writeChunk l) rfl hheader hmax (by omega)
        (by change min g.maxChunkSize _ ≤ size; omega)
      rw [hloop]
      refine ⟨⟨⟨l :: chunks, ?_, ?_, ?_⟩, ?_, hkept⟩, hdone⟩
      · rw [hbuf, List.flatMap_cons, ← List.append_assoc]
        rfl
      · rw [hread, hflat, List.flatten_cons, List.append_assoc]
      · rintro l' (_ | ⟨_, hl'⟩)
        · exact ⟨List.ne_nil_of_length_pos (by omega), by omega⟩
        · exact hchunks l' hl'
      · intro h
        refine hsized ?_
        dsimp only [writeChunk]
        rw [h, List.length_append]

/-- between two calls, before the server is done -/
structure Ready (g : Chunker) : Prop where
  state : g.state = .writeChunk
  header : g.maxChunkHeader = chunkHeader g.maxChunkSize
  max : 0 < g.maxChunkSize
  empty : g.dechunkedReader.flatten = []
  count : g.chunkedSize = g.chunkedBuffer.length

theorem init_ready {maxChunkSize : ℕ} (h : 0 < maxChunkSize) : Ready (init maxChunkSize) := ⟨rfl, rfl, h, rfl, rfl⟩

/-- what has arrived is written in chunks -/
theorem generateLoop_ready {size : ℕ} {g : Chunker} (h : Ready g) (piece : IOBufferReader) (hsize : min g.maxChunkSize piece.readAvail ≤ size) :
    ∃ g', g' = generateLoop (g.dechunkedReader ++ piece).flatten.length { g with dechunkedReader := g.dechunkedReader ++ piece } ∧
      Ready g' ∧ g'.maxChunkSize = g.maxChunkSize ∧ ∃ chunks : List Bytes, g'.chunkedBuffer = g.chunkedBuffer ++ chunks.flatMap chunk ∧
        chunks.flatten = piece.flatten ∧ ∀ l ∈ chunks, l ≠ [] ∧ l.length ≤ size := by
  have hflat : (g.dechunkedReader ++ piece).flatten = piece.flatten := by rw [List.flatten_append, h.empty, List.nil_append]
  have havail : IOBufferReader.readAvail (g.dechunkedReader ++ piece) = piece.readAvail := congrArg List.length hflat
  obtain ⟨⟨⟨chunks, hbuf, hread, hchunks⟩, hcount, hmax, hheader⟩, hstate, hempty⟩ :=
    generateLoop_writes size (g := { g with dechunkedReader := g.dechunkedReader ++ piece }) h.state h.header h.max (le_refl _)
      (by rwa [havail])
  refine ⟨_, rfl, ⟨hstate, ?_, ?_, hempty, hcount h.count⟩, hmax, chunks, hbuf, ?_, hchunks⟩
  · exact hheader.trans (h.header.trans (congrArg chunkHeader hmax.symm))
  · exact hmax.symm ▸ h.max
  · rw [← hflat]
    exact (hread.trans (by rw [hempty, List.append_nil])).symm

/-- the body comes out in chunks whichever way it comes in -/
theorem generate_chunks {size : ℕ} {g : Chunker} (h : Ready g) (pieces : List IOBufferReader) (last : IOBufferReader)
    (hsize : ∀ piece ∈ pieces ++ [last], min g.maxChunkSize piece.readAvail ≤ size) :
    ∃ chunks : List Bytes, (g.generate pieces last).chunkedBuffer = g.chunkedBuffer ++ (chunks.flatMap chunk ++ lastChunk) ∧
      chunks.flatten = (pieces.flatten ++ last).flatten ∧ (∀ l ∈ chunks, l ≠ [] ∧ l.length ≤ size) ∧
      (g.generate pieces last).chunkedSize = (g.generate pieces last).chunkedBuffer.length ∧ (g.generate pieces last).state = .writeDone := by
  induction pieces generalizing g with
  | nil =>
    obtain ⟨g', hg', hready, -, chunks, hbuf, hflat, hchunks⟩ := generateLoop_ready h last (hsize last (by simp))
    have hgen : g.generate [] last = { g' with state := .writeDone }.write lastChunk := by
      rw [hg']
      rfl
    refine ⟨chunks, ?_, hflat, hchunks, ?_, ?_⟩
    · rw [hgen, ← List.append_assoc, ← hbuf]
      rfl
    · rw [hgen]
      simp only [write, List.length_append, hready.count]
    · rw [hgen]
      rfl
  | cons piece pieces ih =>
    obtain ⟨g', hg', hready, hmax, chunks, hbuf, hflat, hchunks⟩ := generateLoop_ready h piece (hsize piece (by simp))
    have hgen : g.generate (piece :: pieces) last = g'.generate pieces last := by
      rw [hg']
      rfl
    obtain ⟨chunks', hbuf', hflat', hchunks', hdone⟩ := ih hready fun piece hpiece => by
      rw [hmax]
      exact hsize piece (List.mem_cons_of_mem _ hpiece)
    rw [hgen]
    refine ⟨chunks ++ chunks', ?_, ?_, ?_, hdone⟩
    · rw [hbuf', hbuf, List.flatMap_append, List.append_assoc, List.append_assoc]
    · rw [List.flatten_append, hflat, hflat', List.flatten_cons, List.append_assoc, ← List.flatten_append]
    · intro l hl
      exact (List.mem_append.mp hl).elim (hchunks l) (hchunks' l)

end Chunker

/-! ## The round trip -/

namespace Decoder

theorem init_inv : init.Inv := ⟨by simp [init], by simp [init]⟩

/-- a reader that stops just behind some bytes stops nowhere else -/
theorem run_prefix {c d : Decoder} {l s : Bytes} (h : c.run (l ++ s) = (d, [])) (hs : s ≠ []) :
    (c.run l).1.stopped = false ∧ (c.run l).2 = [] := by
  have hgoes : (c.run l).1.stopped = false := by
    by_contra hstop
    rw [run_append, run_stopped (by simpa using hstop)] at h
    exact hs (List.append_eq_nil_iff.mp (congrArg Prod.snd h)).2
  exact ⟨hgoes, (run_rest c l).resolve_right (by simp [hgoes])⟩

end Decoder

/-- **Chunked round trip.** The body comes in pieces; of the coding and what is behind it some bytes have been received, in blocks and calls.
The reader is done exactly if the coding has been received, it leaves what is behind, and it has given out the body. Both sizes are counted. -/
theorem chunked_round_trip {maxChunkSize : ℕ} (hmax : 0 < maxChunkSize) (pieces : List IOBufferReader) (last : IOBufferReader)
    (hsize : ∀ piece ∈ pieces ++ [last], min maxChunkSize piece.readAvail < 2 ^ 31) (calls : List IOBufferReader) (behind : Bytes)
    (hcalls : calls.flatten.flatten <+: ((Chunker.init maxChunkSize).generate pieces last).chunkedBuffer ++ behind) :
    let g := (Chunker.init maxChunkSize).generate pieces last
    let x := Decoder.process (Decoder.init, []) calls
    g.state = .writeDone ∧ g.chunkedSize = g.chunkedBuffer.length ∧
      (x.1.state = .readDone ↔ g.chunkedBuffer.length ≤ calls.flatten.flatten.length) ∧
      x.2.flatten = calls.flatten.flatten.drop g.chunkedBuffer.length ∧
      (x.1.state = .readDone → x.1.dechunkedBuffer = some (pieces.flatten ++ last).flatten) ∧
      x.1.dechunkedBuffer.map List.length = some x.1.dechunkedSize := by
  dsimp only
  obtain ⟨chunks, hbuf, hflat, hchunks, hcount, hdone⟩ :=
    Chunker.generate_chunks (Chunker.init_ready hmax) pieces last fun piece hpiece => Nat.le_of_lt_succ (hsize piece hpiece)
  have hread : ∀ s : Bytes, ∃ d : Decoder, Decoder.init.run (((Chunker.init maxChunkSize).generate pieces last).chunkedBuffer ++ s) = (d, s) ∧
      d.state = .readDone ∧ d.dechunkedBuffer = some (pieces.flatten ++ last).flatten := by
    intro s
    obtain ⟨c, hc, hsizeline⟩ := Decoder.run_chunks (c := .init) [] ⟨rfl, rfl, rfl, rfl, rfl⟩
      (fun l hl => ⟨(hchunks l hl).1, Nat.lt_succ_of_le (hchunks l hl).2⟩) (lastChunk ++ s)
    obtain ⟨d, hd, hstate, hout, -⟩ := Decoder.run_lastChunk hsizeline s
    refine ⟨d, ?_, hstate, by rw [hout, List.nil_append, hflat]⟩
    rw [hbuf]
    simp only [Chunker.init, List.nil_append, List.append_assoc]
    rw [hc, hd]
  have hrun := Decoder.process_run (r := []) Decoder.init_inv rfl calls
  have hsized := Decoder.run_sized (c := .init) rfl calls.flatten.flatten
  generalize ((Chunker.init maxChunkSize).generate pieces last).chunkedBuffer = encoded at *
  generalize calls.flatten.flatten = received at *
  generalize Decoder.process (Decoder.init, []) calls = x at *
  rw [List.flatten_nil, List.nil_append] at hrun
  obtain ⟨hfst, hsnd⟩ : x.1 = (Decoder.init.run received).1 ∧ x.2.flatten = (Decoder.init.run received).2 := Prod.mk.inj hrun
  rw [hfst, hsnd]
  by_cases hlen : encoded.length ≤ received.length
  · obtain ⟨s, rfl⟩ : encoded <+: received := List.prefix_of_prefix_length_le (List.prefix_append _ _) hcalls hlen
    obtain ⟨d, hd, hstate, hout⟩ := hread s
    rw [hd] at hsized ⊢
    exact ⟨hdone, hcount, iff_of_true hstate hlen, List.drop_left.symm, fun _ => hout, hsized⟩
  · obtain ⟨s, rfl⟩ : received <+: encoded :=
      List.prefix_of_prefix_length_le hcalls (List.prefix_append _ _) (Nat.le_of_not_le hlen)
    obtain ⟨d, hd, -, -⟩ := hread []
    rw [List.append_nil] at hd
    have hs : s ≠ [] := by
      rintro rfl
      exact hlen (by rw [List.append_nil])
    obtain ⟨hgoes, hnil⟩ := Decoder.run_prefix hd hs
    have hnotdone : (Decoder.init.run received).1.state ≠ .readDone := by
      intro h
      simp [Decoder.stopped, Decoder.handler, h] at hgoes
    refine ⟨hdone, hcount, iff_of_false hnotdone hlen, ?_, fun h => absurd h hnotdone, hsized⟩
    rw [hnil, List.drop_eq_nil_of_le (Nat.le_of_not_le hlen)]

/-- a body in two pieces, in chunks of at most three bytes; the second call has the rest of the coding and a byte behind it -/
theorem two_pieces :
    let g := (Chunker.init 3).generate [[ascii "abcd"]] [ascii "e"]
    let x := Decoder.process (Decoder.init, []) [[g.chunkedBuffer.take 5], [g.chunkedBuffer.drop 5, ascii "x"]]
    g.chunkedBuffer = ascii "3" ++ [CR, LF] ++ ascii "abc" ++ [CR, LF] ++ ascii "1" ++ [CR, LF] ++ ascii "d" ++ [CR, LF] ++ ascii "1" ++
        [CR, LF] ++ ascii "e" ++ [CR, LF] ++ ascii "0" ++ [CR, LF, CR, LF] ∧
      x.1.state = .readDone ∧ x.2.flatten = ascii "x" ∧ x.1.dechunkedBuffer = some (ascii "abcde") := by
  have hthree : 0 < 3 := by decide
  obtain ⟨-, -, hstate, hrest, hout, -⟩ := chunked_round_trip hthree [[ascii "abcd"]] [ascii "e"] (by decide)
    [[((Chunker.init 3).generate [[ascii "abcd"]] [ascii "e"]).chunkedBuffer.take 5],
      [((Chunker.init 3).generate [[ascii "abcd"]] [ascii "e"]).chunkedBuffer.drop 5, ascii "x"]] (ascii "x") (by decide)
  have hdone := hstate.mpr (by decide)
  refine ⟨by decide, hdone, ?_, hout hdone⟩
  rw [hrest]
  decide

end TrafficServer.Http
