/-
The size of a chunk (`ChunkedHandler::read_size` in `proxy/http/HttpTunnel.cc`).

The digits of a size line are counted and added up in an `int` each. The line is refused if there are none or the sum is negative, a sum that
has gone round is not seen otherwise. The rest of the line is skipped up to its line feed, and the sum is the size.

`chunk_size_exact_iff`: whichever way the bytes of a line are cut into blocks and calls, the size is the number the digits stand for, or the
line is refused, unless the number is 2³¹ or more and its low 32 bits are less (`chunk_size_wraps`).
-/
import TrafficServer.Http.ChunkedHandler

namespace TrafficServer.Http

open TrafficServer.Hex

variable {step : Decoder → BitVec 8 → Decoder × Bool} {c : Decoder}

/-! ## The loops as one -/

theorem readBlock_used (data : Bytes) (h : (readBlock step c data).2.2 = false) : (readBlock step c data).2.1 = data.length := by
  induction data generalizing c with
  | nil => rfl
  | cons b data ih =>
    rw [readBlock] at h ⊢
    cases hdone : (step c b).2 with
    | true => simp [hdone] at h
    | false =>
      simp only [hdone, Bool.false_eq_true, if_false] at h ⊢
      rw [ih h, List.length_cons]

/-- a part that the loop does not get through is all it looks at -/
theorem readBlock_append_done {data : Bytes} (h : (readBlock step c data).2.2 = true) (s : Bytes) :
    readBlock step c (data ++ s) = readBlock step c data := by
  induction data generalizing c with
  | nil => exact absurd h (by simp [readBlock])
  | cons b data ih =>
    rw [List.cons_append, readBlock, readBlock]
    rw [readBlock] at h
    cases hdone : (step c b).2 with
    | true => simp only [hdone, if_true]
    | false =>
      simp only [hdone, Bool.false_eq_true, if_false] at h ⊢
      rw [ih h]

theorem readBlock_append {data : Bytes} (h : (readBlock step c data).2.2 = false) (s : Bytes) :
    readBlock step c (data ++ s) =
      ((readBlock step (readBlock step c data).1 s).1, data.length + (readBlock step (readBlock step c data).1 s).2.1,
        (readBlock step (readBlock step c data).1 s).2.2) := by
  induction data generalizing c with
  | nil => simp [readBlock]
  | cons b data ih =>
    rw [readBlock] at h
    cases hdone : (step c b).2 with
    | true => simp [hdone] at h
    | false =>
      simp only [hdone, Bool.false_eq_true, if_false] at h
      rw [List.cons_append, readBlock, readBlock]
      simp only [hdone, Bool.false_eq_true, if_false, ih h, List.length_cons]
      rw [Nat.add_right_comm]

/-- the blocks do not matter, only their bytes -/
theorem readBlocks_eq {fuel : ℕ} {r : IOBufferReader} (hfuel : r.readAvail ≤ fuel) :
    (readBlocks step fuel c r).1 = (readBlock step c r.flatten).1 ∧
      (readBlocks step fuel c r).2.flatten = r.flatten.drop (readBlock step c r.flatten).2.1 := by
  induction fuel generalizing c r with
  | zero =>
    have hnil : r.flatten = [] := List.length_eq_zero_iff.mp (Nat.le_zero.mp hfuel)
    rw [hnil]
    exact ⟨rfl, hnil.trans List.drop_nil.symm⟩
  | succ fuel ih =>
    rw [readBlocks]
    by_cases h0 : r.readAvail = 0
    · have hnil : r.flatten = [] := List.length_eq_zero_iff.mp h0
      rw [if_pos h0, hnil]
      exact ⟨rfl, List.drop_nil.symm⟩
    · obtain ⟨rest, hr⟩ := r.block_prefix
      rw [if_neg h0]
      cases hdone : (readBlock step c r.block).2.2 with
      | true =>
        simp only [hdone, if_true]
        rw [hr, readBlock_append_done hdone, ← hr]
        exact ⟨rfl, IOBufferReader.flatten_consume _ r⟩
      | false =>
        have hrest : (r.consume (readBlock step c r.block).2.1).flatten = rest := by
          rw [IOBufferReader.flatten_consume, readBlock_used _ hdone, hr, List.drop_left]
        have hlen : 0 < r.block.length := List.length_pos_of_ne_nil (IOBufferReader.block_ne_nil h0)
        have havail : r.block.length + rest.length ≤ fuel + 1 := by
          rw [← List.length_append, ← hr]
          exact hfuel
        have hfuel' : (r.consume (readBlock step c r.block).2.1).readAvail ≤ fuel := by
          rw [IOBufferReader.readAvail, hrest]
          omega
        obtain ⟨hstate, hleft⟩ := ih (c := (readBlock step c r.block).1) hfuel'
        simp only [hdone, Bool.false_eq_true, if_false]
        rw [hrest] at hstate hleft
        rw [hr, readBlock_append hdone]
        refine ⟨hstate, ?_⟩
        rw [hleft, List.drop_append]
        simp

namespace Decoder

/-! ## Calls of `read_size` -/

instance (c : Decoder) : Decidable c.InSize := inferInstanceAs (Decidable (_ ∨ _ ∨ _))

/-- calls of `read_size`, each when more blocks have arrived, until its states are left -/
def readSizes : Decoder × IOBufferReader → List IOBufferReader → Decoder × IOBufferReader
  | x, [] => x
  | (c, r), blocks :: calls => if c.InSize then readSizes (c.readSize (r ++ blocks)) calls else (c, r)

/-- nothing has been read of a size line -/
structure AtLine (c : Decoder) : Prop where
  state : c.state = .readSize
  sum : c.runningSum = 0
  digits : c.numDigits = 0

theorem init_atLine : init.AtLine := ⟨rfl, rfl, rfl⟩

/-- the loop leaves the states of `read_size` when it is done -/
theorem sizeByte_done (h : c.InSize) (b : BitVec 8) : (c.sizeByte b).2 = true ↔ ¬ (c.sizeByte b).1.InSize := by
  constructor
  · intro hdone
    rcases h with h | h | h
    · by_cases hb : b = LF <;> simp [sizeByte, h, hb] at hdone
    · cases hv : value b with
      | some v => simp [sizeByte, h, hv] at hdone
      | none =>
        by_cases hbad : c.numDigits = 0#32 ∨ c.runningSum.toInt < 0
        · simp [sizeByte, h, hv, hbad, InSize]
        · simp [sizeByte, h, hv, hbad] at hdone
    · by_cases hb : b = LF
      · by_cases hsum : c.runningSum = 0#32 <;> simp [sizeByte, h, hb, hsum, InSize]
      · simp [sizeByte, h, hb] at hdone
  · intro hout
    by_contra hdone
    exact hout (byteLoop_size.stays h b (by simpa using hdone))

theorem readBlock_size_done (h : c.InSize) (data : Bytes) :
    (readBlock sizeByte c data).2.2 = true ↔ ¬ (readBlock sizeByte c data).1.InSize := by
  induction data generalizing c with
  | nil => simp [readBlock, h]
  | cons b data ih =>
    rw [readBlock]
    cases hdone : (c.sizeByte b).2 with
    | true => simpa [hdone] using (sizeByte_done h b).mp hdone
    | false =>
      simp only [hdone, Bool.false_eq_true, if_false]
      exact ih (byteLoop_size.stays h b hdone)

theorem readSizes_done {r : IOBufferReader} (h : ¬ c.InSize) (calls : List IOBufferReader) : readSizes (c, r) calls = (c, r) := by
  cases calls with
  | nil => rfl
  | cons blocks calls => rw [readSizes, if_neg h]

theorem readSize_eq (c : Decoder) (r : IOBufferReader) :
    (c.readSize r).1 = (readBlock sizeByte c r.flatten).1 ∧
      (c.readSize r).2.flatten = r.flatten.drop (readBlock sizeByte c r.flatten).2.1 :=
  readBlocks_eq (le_refl _)

/-- the calls come to the loop over all bytes -/
theorem readSizes_eq {r : IOBufferReader} (h : c.InSize) (hr : r.flatten = []) (calls : List IOBufferReader) :
    (readSizes (c, r) calls).1 = (readBlock sizeByte c calls.flatten.flatten).1 := by
  induction calls generalizing c r with
  | nil => rfl
  | cons blocks calls ih =>
    have hbytes : (r ++ blocks).flatten = blocks.flatten := by rw [List.flatten_append, hr, List.nil_append]
    obtain ⟨hstate, hleft⟩ := readSize_eq c (r ++ blocks)
    rw [hbytes] at hstate hleft
    rw [readSizes, if_pos h, List.flatten_cons, List.flatten_append]
    cases hdone : (readBlock sizeByte c blocks.flatten).2.2 with
    | true =>
      have hout : ¬ (c.readSize (r ++ blocks)).1.InSize := by
        rw [hstate]
        exact (readBlock_size_done h _).mp hdone
      rw [readSizes_done hout, readBlock_append_done hdone]
      exact hstate
    | false =>
      have hin : (c.readSize (r ++ blocks)).1.InSize := by
        by_contra hout
        rw [hstate, ← readBlock_size_done h, hdone] at hout
        exact absurd hout (by decide)
      have hnil : (c.readSize (r ++ blocks)).2.flatten = [] := by
        rw [hleft, readBlock_used _ hdone, List.drop_length]
      rw [readBlock_append hdone]
      dsimp only
      rw [← hstate]
      exact ih hin hnil

/-! ## The digits -/

def sizeDigits (s : Bytes) : Bytes := s.takeWhile fun b => (value b).isSome

/-- the number the digits of a line stand for -/
def sizeValue (s : Bytes) : ℕ := Hex.fold 0 (sizeDigits s)

/-- behind a byte that ends the digits there is a line feed -/
def LineEnds (s : Bytes) : Prop := LF ∈ s.drop ((sizeDigits s).length + 1)

instance (s : Bytes) : Decidable (LineEnds s) := inferInstanceAs (Decidable (LF ∈ _))

/-- behind the bytes of a line: it is still read, it was refused, or the size is exact -/
def SizeExact (s : Bytes) (c : Decoder) : Prop :=
  ¬ LineEnds s ∧ c.InSize ∨ c.state = .readError ∨ c.curChunkSize = sizeValue s

instance (s : Bytes) (c : Decoder) : Decidable (SizeExact s c) := inferInstanceAs (Decidable (_ ∨ _ ∨ _))

/-- behind the digits only a line feed counts -/
theorem readBlock_crlf (h : c.state = .readSizeCrlf) (s : Bytes) :
    (readBlock sizeByte c s).1 = if LF ∈ s then (c.sizeByte LF).1 else c := by
  induction s with
  | nil => rfl
  | cons b s ih =>
    rw [readBlock]
    by_cases hb : b = LF
    · have hdone : (c.sizeByte LF).2 = true := by simp [sizeByte, h]
      rw [hb, if_pos List.mem_cons_self]
      simp only [hdone, if_true]
    · have hskip : c.sizeByte b = (c, false) := by simp [sizeByte, h, hb]
      have hmem : LF ∈ b :: s ↔ LF ∈ s := by simp [Ne.symm hb]
      simp only [hskip, hmem, Bool.false_eq_true, if_false]
      exact ih

/-- the byte that ends the digits decides -/
theorem readBlock_stop {stop : BitVec 8} (h : c.state = .readSize) (hstop : value stop = none) (ext : Bytes) :
    (readBlock sizeByte c (stop :: ext)).1 =
      if c.numDigits = 0 ∨ c.runningSum.toInt < 0 then { c with state := .readError }
      else if LF ∈ ext then ({ c with state := .readSizeCrlf }.sizeByte LF).1 else { c with state := .readSizeCrlf } := by
  rw [readBlock]
  by_cases hbad : c.numDigits = 0 ∨ c.runningSum.toInt < 0
  · have hrefused : c.sizeByte stop = ({ c with state := .readError }, true) := by
      simp only [sizeByte, h, hstop, if_pos hbad]
    simp only [hrefused, if_true, if_pos hbad]
  · have hgoes : c.sizeByte stop = ({ c with state := .readSizeCrlf }, false) := by
      simp only [sizeByte, h, hstop, if_neg hbad]
    simp only [hgoes, Bool.false_eq_true, if_false, if_neg hbad]
    exact readBlock_crlf rfl ext

/-- a line may still be in its digits -/
theorem line_cases (s : Bytes) :
    s = sizeDigits s ∧ ¬ LineEnds s ∨
      ∃ stop ext, s = sizeDigits s ++ stop :: ext ∧ value stop = none ∧ (LineEnds s ↔ LF ∈ ext) := by
  have hsplit : sizeDigits s ++ (s.dropWhile fun b => (value b).isSome) = s := List.takeWhile_append_dropWhile
  cases hrest : s.dropWhile fun b => (value b).isSome with
  | nil =>
    rw [hrest, List.append_nil] at hsplit
    refine Or.inl ⟨hsplit.symm, ?_⟩
    rw [LineEnds, hsplit, List.drop_eq_nil_of_le (Nat.le_succ _)]
    exact List.not_mem_nil
  | cons stop ext =>
    rw [hrest] at hsplit
    refine Or.inr ⟨stop, ext, hsplit.symm, ?_, ?_⟩
    · have hhead := List.head?_dropWhile_not (fun b => (value b).isSome) s
      rw [hrest] at hhead
      simpa using hhead
    · have hdrop : s.drop ((sizeDigits s).length + 1) = ext := by
        calc s.drop ((sizeDigits s).length + 1)
            = (s.drop (sizeDigits s).length).drop 1 := (List.drop_drop ..).symm
          _ = ((sizeDigits s ++ stop :: ext).drop (sizeDigits s).length).drop 1 := by rw [hsplit]
          _ = ext := by rw [List.drop_left]; rfl
      rw [LineEnds, hdrop]

theorem sizeDigits_isSome {s : Bytes} {b : BitVec 8} (h : b ∈ sizeDigits s) : (value b).isSome :=
  List.mem_takeWhile_imp (p := fun b => (value b).isSome) h

theorem ofNat_eq_zero_iff (n : ℕ) : BitVec.ofNat 32 n = 0 ↔ n % 2 ^ 32 = 0 := by
  rw [← BitVec.toNat_inj, BitVec.toNat_ofNat]
  rfl

theorem toInt_ofNat_neg_iff (n : ℕ) : (BitVec.ofNat 32 n).toInt < 0 ↔ 2 ^ 31 ≤ n % 2 ^ 32 := by
  rw [BitVec.toInt_eq_toNat_cond, BitVec.toNat_ofNat]
  split_ifs <;> omega

/-- an `int` is a number only if it is less than 2³¹ -/
theorem toInt_ofNat_eq_iff (n : ℕ) : (BitVec.ofNat 32 n).toInt = n ↔ n < 2 ^ 31 := by
  rw [BitVec.toInt_eq_toNat_cond, BitVec.toNat_ofNat]
  split_ifs <;> omega

/-- **Exact sizes.** The bytes of a size line come in blocks and calls. When it has ended it was refused or the size is the number its digits
stand for, exactly if there are no digits (or their count has gone round to zero), or the low 32 bits of the number are negative as an `int`,
or it is less than 2³¹. -/
theorem chunk_size_exact_iff (h : c.AtLine) (calls : List IOBufferReader) :
    SizeExact calls.flatten.flatten (readSizes (c, []) calls).1 ↔
      (LineEnds calls.flatten.flatten → (sizeDigits calls.flatten.flatten).length % 2 ^ 32 = 0 ∨
        2 ^ 31 ≤ sizeValue calls.flatten.flatten % 2 ^ 32 ∨ sizeValue calls.flatten.flatten < 2 ^ 31) := by
  rw [readSizes_eq (Or.inr (Or.inl h.state)) rfl]
  generalize calls.flatten.flatten = s
  let d : Decoder := { c with numDigits := BitVec.ofNat 32 (sizeDigits s).length, runningSum := BitVec.ofNat 32 (sizeValue s) }
  have hd : d.state = .readSize := h.state
  have hcount : (0 : BitVec 32) + BitVec.ofNat 32 (sizeDigits s).length = BitVec.ofNat 32 (sizeDigits s).length := BitVec.zero_add _
  have hread : readBlock sizeByte c (sizeDigits s) = (d, (sizeDigits s).length, false) := by
    rw [readBlock_digits 0 h.state h.sum fun _ hb => sizeDigits_isSome hb, h.digits, hcount]
    rfl
  rcases line_cases s with ⟨hs, hopen⟩ | ⟨stop, ext, hs, hstop, hends⟩
  · have hin : (readBlock sizeByte c s).1.InSize := by
      rw [hs, hread]
      exact Or.inr (Or.inl hd)
    exact iff_of_true (Or.inl ⟨hopen, hin⟩) fun hline => absurd hline hopen
  · have hline : (readBlock sizeByte c s).1 = (readBlock sizeByte d (stop :: ext)).1 := by
      conv_lhs => rw [hs, readBlock_append (by rw [hread]), hread]
    rw [SizeExact, hline, readBlock_stop hd hstop, hends]
    by_cases hbad : d.numDigits = 0 ∨ d.runningSum.toInt < 0
    · rw [if_pos hbad]
      refine iff_of_true (Or.inr (Or.inl rfl)) fun _ => ?_
      rcases hbad with hnone | hneg
      · exact Or.inl ((ofNat_eq_zero_iff _).mp hnone)
      · exact Or.inr (Or.inl ((toInt_ofNat_neg_iff _).mp hneg))
    · rw [if_neg hbad]
      by_cases hlf : LF ∈ ext
      · let e : Decoder := ({ d with state := .readSizeCrlf }.sizeByte LF).1
        have hstate : e.state ≠ .readError := by
          by_cases hzero : d.runningSum = 0#32 <;> simp [e, sizeByte, hzero]
        have hsize : e.curChunkSize = d.runningSum.toInt := rfl
        rw [if_pos hlf]
        constructor
        · intro hexact
          rcases hexact with ⟨hopen, -⟩ | herror | hsum
          · exact absurd hlf hopen
          · exact absurd herror hstate
          · exact fun _ => Or.inr (Or.inr ((toInt_ofNat_eq_iff _).mp (hsize.symm.trans hsum)))
        · intro hcond
          rcases hcond hlf with hnone | hneg | hsmall
          · exact absurd (Or.inl ((ofNat_eq_zero_iff _).mpr hnone)) hbad
          · exact absurd (Or.inr ((toInt_ofNat_neg_iff _).mpr hneg)) hbad
          · exact Or.inr (Or.inr (hsize.trans ((toInt_ofNat_eq_iff _).mpr hsmall)))
      · rw [if_neg hlf]
        exact iff_of_true (Or.inl ⟨hlf, Or.inr (Or.inr rfl)⟩) fun h => absurd h hlf

/-- a line with an extension in two calls -/
theorem chunk_size_two_calls :
    SizeExact [0x31, 0x46, 0x3b, 0x78, CR, LF] (readSizes (init, []) [[[0x31]], [[0x46, 0x3b, 0x78], [CR], [LF]]]).1 :=
  (chunk_size_exact_iff init_atLine [[[0x31]], [[0x46, 0x3b, 0x78], [CR], [LF]]]).mpr fun _ => Or.inr (Or.inr (by decide))

/-- a line of nine digits in two calls: the server sends a chunk of 4 GiB and five bytes, and five bytes are taken -/
theorem chunk_size_wraps :
    let calls : List IOBufferReader := [[ascii "1000"], [ascii "00005", [CR, LF]]]
    let d := (readSizes (init, []) calls).1
    LineEnds calls.flatten.flatten ∧ d.state = .readChunk ∧ d.curChunkSize = 5 ∧ sizeValue calls.flatten.flatten = 2 ^ 32 + 5 ∧
      ¬ SizeExact calls.flatten.flatten d := by
  decide

end Decoder

end TrafficServer.Http
