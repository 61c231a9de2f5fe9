/-
`RangeTransform` (`proxy/Transform.cc`): the body of a response to a range request, cut out of an object that arrives in pieces.

Each call of `transform_to_range` goes on where the last one stopped. `_done_byte` of the current range is the last byte of the object that
has been read; the loop skips to the start of the range, sends, and when the range is done writes what stands before the next one. With
more than one range each part has a boundary and a sub-header of its own, and a closing boundary ends the body. The Content-Length was
announced before, by `HttpSM::calculate_output_cl`, from the lengths of these pieces of text.

When the last range is done the writer is told so and sends nothing more: `finished`.

`rangeBody` is the body that was asked for. `Going` is the invariant of an unfinished transform: what it has written and what the current
position still owes are the body. `range_response` says that every way to cut the object ends with the body written, counted and of the
announced length.
-/
import Mathlib

namespace TrafficServer.Http.Range

/-! ## Text -/

def text (s : String) : List UInt8 := s.toList.map fun c => c.toNat.toUInt8

def crlf : List UInt8 := [13, 10]

/-- `PRId64` -/
def decimal (i : ℤ) : List UInt8 :=
  (if i < 0 then text "-" else []) ++ (Nat.toDigits 10 i.natAbs).map fun c => c.toNat.toUInt8

def bound : List UInt8 := text "RANGE_SEPARATOR"

def contType : List UInt8 := text "Content-type: "

def contRange : List UInt8 := text "Content-range: bytes "

def RANGE_NUMBERS_LENGTH : ℕ := 60

/-! ## The transform -/

structure RangeRecord where
  start : ℤ
  /-- `_end` -/
  stop : ℤ
  doneByte : ℤ

structure RangeTransform where
  ranges : List RangeRecord
  currentRange : ℕ
  contentType : Option (List UInt8)
  /-- `m_output_cl`: the size of the object -/
  outputCl : ℤ
  done : ℤ
  /-- the bytes written to `m_output_buf` -/
  output : List UInt8
  /-- the bytes that the reader of the write VIO has -/
  reader : List UInt8
  /-- `m_output_vio` is not null -/
  started : Bool
  finished : Bool

namespace RangeTransform

def init (ranges : List RangeRecord) (contentType : Option (List UInt8)) (contentLength : ℤ) : RangeTransform :=
  ⟨ranges, 0, contentType, contentLength, 0, [], [], false, false⟩

def range (t : RangeTransform) : RangeRecord := t.ranges.getD t.currentRange ⟨-1, -1, -1⟩

def setDone (t : RangeTransform) (d : ℤ) : RangeTransform :=
  { t with ranges := t.ranges.modify t.currentRange fun r => { r with doneByte := d } }

def write (t : RangeTransform) (b : List UInt8) : RangeTransform := { t with output := t.output ++ b, done := t.done + b.length }

def addBoundary (t : RangeTransform) (last : Bool) : RangeTransform :=
  let t := (t.write (text "--")).write bound
  let t := if last then t.write (text "--") else t
  t.write crlf

def addSubHeader (t : RangeTransform) (index : ℕ) : RangeTransform :=
  let r := t.ranges.getD index ⟨-1, -1, -1⟩
  let t := t.write contType
  let t := match t.contentType with
    | some ct => t.write ct
    | none => t
  let t := (t.write crlf).write contRange
  -- `snprintf` leaves room for the terminating null
  let numbers := (decimal r.start ++ text "-" ++ decimal r.stop ++ text "/" ++ decimal t.outputCl).take (RANGE_NUMBERS_LENGTH - 1)
  let t := if numbers.length < RANGE_NUMBERS_LENGTH then t.write numbers else t
  t.write (crlf ++ crlf)

/-- skip to the start of the current range -/
def skip (t : RangeTransform) : RangeTransform :=
  let r := t.range
  if r.doneByte < r.start - 1 then
    let toskip := min (r.start - r.doneByte - 1) t.reader.length
    if toskip > 0 then { t with reader := t.reader.drop toskip.toNat }.setDone (r.doneByte + toskip) else t
  else t

/-- send what there is of the current range -/
def send (t : RangeTransform) : RangeTransform :=
  if t.reader.length > 0 then
    let r := t.range
    let tosend := min (r.stop - r.doneByte) t.reader.length
    { t with output := t.output ++ t.reader.take tosend.toNat, reader := t.reader.drop tosend.toNat
             done := t.done + tosend }.setDone (r.doneByte + tosend)
  else t

/-- the inner loop: move to the next range if the current one is done. A bad range has its end and its done byte at -1. -/
def nextRange (prevEnd : ℤ) : ℕ → RangeTransform → RangeTransform
  | 0, t => t
  | fuel + 1, t =>
    if t.range.doneByte = t.range.stop then
      let t := { t with currentRange := t.currentRange + 1 }
      if t.currentRange = t.ranges.length then
        let t := if t.ranges.length > 1 then (t.write crlf).addBoundary true else t
        { t with finished := true }
      else if t.range.stop ≠ -1 then
        (((t.write crlf).addBoundary false).addSubHeader t.currentRange).setDone prevEnd
      else nextRange prevEnd fuel t
    else t

/-- the loop of `transform_to_range`, which ends when there is nothing to read -/
def loop : ℕ → ℤ → RangeTransform → RangeTransform
  | 0, _, t => t
  | fuel + 1, prevEnd, t =>
    let t := t.skip.send
    let prevEnd := if t.range.doneByte = t.range.stop then t.range.stop else prevEnd
    let t := nextRange prevEnd t.ranges.length t
    if t.finished || t.reader.isEmpty then t else loop fuel prevEnd t

def transformToRange (t : RangeTransform) : RangeTransform := loop (t.ranges.length + 1) 0 t

/-- the first event opens the output -/
def open' (t : RangeTransform) : RangeTransform :=
  if t.started then t
  else
    let t := { t with started := true }
    if t.ranges.length > 1 then (t.addBoundary false).addSubHeader t.currentRange else t

/-- the next piece of the object arrives; a writer that has been told of the end sends nothing -/
def handleEvent (t : RangeTransform) (piece : List UInt8) : RangeTransform :=
  if t.finished then t else { t.open' with reader := t.reader ++ piece }.transformToRange

def run (t : RangeTransform) (pieces : List (List UInt8)) : RangeTransform := pieces.foldl handleEvent t

end RangeTransform

/-! ## The announced length -/

/-- the loop of `num_chars_for_int` adds one for each division that leaves something -/
def numChars (n : ℕ) : ℕ := if n / 10 = 0 then 1 else numChars (n / 10) + 1
decreasing_by omega

def numCharsForInt (i : ℤ) : ℤ := if i < 0 then 0 else numChars i.toNat

def subHeaderSize : ℤ := ("Content-type: ".length : ℤ) + 2 + "Content-range: bytes ".length + 4

def boundarySize : ℤ := 2 + ("RANGE_SEPARATOR".length : ℤ) + 2

/-- `calculate_output_cl`; the announced length starts at 0 -/
def calculateOutputCl (ranges : List RangeRecord) (numCharsForCt numCharsForCl : ℤ) : ℤ :=
  match ranges with
  | [r] => r.stop - r.start + 1
  | ranges =>
    let outputCl := ranges.foldl (fun outputCl r =>
      if r.start ≥ 0 then
        outputCl + boundarySize + (subHeaderSize + numCharsForCt) +
          (numCharsForInt r.start + numCharsForInt r.stop + numCharsForCl + 2) + (r.stop - r.start + 1) + 2
      else outputCl) 0
    outputCl + (boundarySize + 2)

/-- `do_range_parse`, with the ranges that `parse_range_and_compare` found -/
def doRangeParse (ranges : List RangeRecord) (contentType : Option (List UInt8)) (contentLength : ℤ) : ℤ :=
  calculateOutputCl ranges (contentType.elim 0 fun ct => (ct.length : ℤ)) (numCharsForInt contentLength)

/-! ## The body that was asked for -/

/-- the bytes of a range -/
def bytesOf (obj : List UInt8) (r : RangeRecord) : List UInt8 := (obj.take (r.stop.toNat + 1)).drop r.start.toNat

/-- what stands before the bytes of a part -/
def partHeader (contentType : Option (List UInt8)) (contentLength : ℤ) (r : RangeRecord) : List UInt8 :=
  text "--" ++ bound ++ crlf ++ contType ++ contentType.getD [] ++ crlf ++
    contRange ++ decimal r.start ++ text "-" ++ decimal r.stop ++ text "/" ++ decimal contentLength ++ crlf ++ crlf

def closing : List UInt8 := text "--" ++ bound ++ text "--" ++ crlf

def rangeBody (ranges : List RangeRecord) (contentType : Option (List UInt8)) (obj : List UInt8) : List UInt8 :=
  match ranges with
  | [r] => bytesOf obj r
  | ranges => (ranges.flatMap fun r => partHeader contentType obj.length r ++ bytesOf obj r ++ crlf) ++ closing

/-- the ranges of a request, as `parse_range_and_compare` leaves them: within the object, in order and disjoint, nothing sent -/
structure Requested (size : ℕ) (ranges : List RangeRecord) : Prop where
  some : ranges ≠ []
  fits : ∀ r ∈ ranges, 0 ≤ r.start ∧ r.start ≤ r.stop ∧ r.stop < size
  ordered : ranges.Pairwise fun r r' => r.stop < r'.start
  fresh : ∀ r ∈ ranges, r.doneByte = -1

/-! ## Lengths -/

theorem toDigits_length (n : ℕ) : (Nat.toDigits 10 n).length = numChars n := by
  induction n using Nat.strongRecOn with
  | ind n ih =>
    rw [numChars]
    by_cases h : n < 10
    · rw [Nat.toDigits_of_lt_base h, if_pos (Nat.div_eq_of_lt h)]
      rfl
    · have hne : n / 10 ≠ 0 := by omega
      rw [Nat.toDigits_of_base_le (by decide) (by omega), if_neg hne, List.length_append, ih (n / 10) (by omega)]
      rfl

theorem decimal_length {i : ℤ} (h : 0 ≤ i) : ((decimal i).length : ℤ) = numCharsForInt i := by
  have hn : ¬i < 0 := by omega
  have he : i.natAbs = i.toNat := by omega
  simp only [decimal, numCharsForInt, if_neg hn, List.nil_append, List.length_map, toDigits_length, he]

/-- an `int64_t` that is not negative has at most 19 digits -/
theorem decimal_length_le {i : ℤ} (h : 0 ≤ i) (hi : i < 2 ^ 63) : (decimal i).length ≤ 19 := by
  have hn : ¬i < 0 := by omega
  simp only [decimal, if_neg hn, List.nil_append, List.length_map]
  exact (Nat.length_toDigits_le_iff (by decide) (by decide)).mpr (by omega)

section Bodies

variable (ct : Option (List UInt8)) (obj : List UInt8)

theorem partHeader_length {r : RangeRecord} (h0 : 0 ≤ r.start) (h1 : 0 ≤ r.stop) :
    ((partHeader ct obj.length r).length : ℤ) = boundarySize + (subHeaderSize + ct.elim 0 fun c => (c.length : ℤ)) +
      (numCharsForInt r.start + numCharsForInt r.stop + numCharsForInt obj.length + 2) := by
  have ht : (text "--").length = 2 ∧ bound.length = 15 ∧ contType.length = 14 ∧ contRange.length = 21 ∧ (text "-").length = 1 ∧
      (text "/").length = 1 := by decide
  obtain ⟨e1, e2, e3, e4, e5, e6⟩ := ht
  have hb : boundarySize = 19 ∧ subHeaderSize = 41 := by decide
  have hc : ((ct.getD []).length : ℤ) = ct.elim 0 fun c => (c.length : ℤ) := by cases ct <;> rfl
  simp only [partHeader, List.length_append, e1, e2, e3, e4, e5, e6, crlf, List.length_cons, List.length_nil, Nat.cast_add,
    decimal_length h0, decimal_length h1, decimal_length (Int.natCast_nonneg obj.length), hc, hb]
  push_cast
  ring

theorem bytesOf_length {r : RangeRecord} (h : 0 ≤ r.start ∧ r.start ≤ r.stop ∧ r.stop < obj.length) :
    ((bytesOf obj r).length : ℤ) = r.stop - r.start + 1 := by
  simp only [bytesOf, List.length_drop, List.length_take]
  omega

/-- what follows the bytes of a range when there are more than one -/
def owed (multi : Bool) : List RangeRecord → List UInt8
  | [] => if multi then crlf ++ closing else []
  | r :: rs => crlf ++ (partHeader ct obj.length r ++ (bytesOf obj r ++ owed multi rs))

theorem rangeBody_cons (r : RangeRecord) (rs : List RangeRecord) :
    rangeBody (r :: rs) ct obj =
      (if rs = [] then [] else partHeader ct obj.length r) ++ (bytesOf obj r ++ owed ct obj (!rs.isEmpty) rs) := by
  cases rs with
  | nil => simp [rangeBody, owed]
  | cons r' rs =>
    -- the parts of the text end with a line break, those of the transform start with one
    have key : ∀ (l : List RangeRecord) (q : RangeRecord),
        ((q :: l).flatMap fun r => partHeader ct obj.length r ++ bytesOf obj r ++ crlf) ++ closing =
          partHeader ct obj.length q ++ (bytesOf obj q ++ owed ct obj true l) := by
      intro l
      induction l with
      | nil => intro q; simp [owed]
      | cons q' l ih =>
        intro q
        rw [List.flatMap_cons, List.append_assoc, ih q']
        simp [owed]
    simpa [rangeBody] using key (r' :: rs) r

theorem foldl_length (ranges : List RangeRecord) (hf : ∀ r ∈ ranges, 0 ≤ r.start ∧ r.start ≤ r.stop ∧ r.stop < obj.length) (a : ℤ) :
    ranges.foldl (fun outputCl r =>
      if r.start ≥ 0 then
        outputCl + boundarySize + (subHeaderSize + ct.elim 0 fun c => (c.length : ℤ)) +
          (numCharsForInt r.start + numCharsForInt r.stop + numCharsForInt obj.length + 2) + (r.stop - r.start + 1) + 2
      else outputCl) a =
    a + ((ranges.flatMap fun r => partHeader ct obj.length r ++ bytesOf obj r ++ crlf).length : ℤ) := by
  induction ranges generalizing a with
  | nil => simp
  | cons r rs ih =>
    obtain ⟨h0, h1, h2⟩ := hf r List.mem_cons_self
    rw [List.foldl_cons, ih (fun q hq => hf q (List.mem_cons_of_mem r hq)), if_pos h0, List.flatMap_cons]
    simp only [List.length_append, Nat.cast_add, partHeader_length ct obj h0 (h0.trans h1), bytesOf_length obj ⟨h0, h1, h2⟩]
    simp only [crlf, List.length_cons, List.length_nil]
    push_cast
    ring

/-- the announced length is that of the body -/
theorem doRangeParse_eq {ranges : List RangeRecord} (h : Requested obj.length ranges) :
    doRangeParse ranges ct obj.length = (rangeBody ranges ct obj).length := by
  have hne := h.some
  match ranges, h.fits with
  | [r], hf => exact (bytesOf_length obj (hf r List.mem_cons_self)).symm
  | r :: r' :: rs, hf =>
    have hc : (closing.length : ℤ) = boundarySize + 2 := by decide
    simp only [doRangeParse, calculateOutputCl, rangeBody]
    rw [foldl_length ct obj _ hf, List.length_append, Nat.cast_add, hc, zero_add]

end Bodies

/-! ## The writes -/

namespace RangeTransform

/-- `t'` is `t` with `b` written -/
def Wrote (t t' : RangeTransform) (b : List UInt8) : Prop :=
  t' = { t with output := t.output ++ b, done := t.done + b.length }

theorem write_wrote (t : RangeTransform) (b : List UInt8) : Wrote t (t.write b) b := rfl

theorem Wrote.trans {t t' t'' : RangeTransform} {b c : List UInt8} (h : Wrote t t' b) (h' : Wrote t' t'' c) :
    Wrote t t'' (b ++ c) := by
  unfold Wrote at *
  subst h
  subst h'
  simp [add_assoc]

theorem addBoundary_true (t : RangeTransform) : Wrote t (t.addBoundary true) closing := by
  have h := (((write_wrote t (text "--")).trans (write_wrote _ bound)).trans (write_wrote _ (text "--"))).trans (write_wrote _ crlf)
  exact h

theorem Wrote.outputCl {t t' : RangeTransform} {b : List UInt8} (h : Wrote t t' b) : t'.outputCl = t.outputCl := by
  unfold Wrote at h
  rw [h]

/-- a sub-header, where the three numbers fit -/
theorem addSubHeader_wrote (t : RangeTransform) {r : RangeRecord} {size : ℕ} {i : ℕ} (hr : t.ranges[i]? = some r)
    (hcl : t.outputCl = size) (h0 : 0 ≤ r.start) (h1 : r.start ≤ r.stop) (h2 : r.stop < size) (hs : size < 2 ^ 63) :
    Wrote t (t.addSubHeader i) (contType ++ t.contentType.getD [] ++ crlf ++ contRange ++
      (decimal r.start ++ text "-" ++ decimal r.stop ++ text "/" ++ decimal size) ++ (crlf ++ crlf)) := by
  have hg : t.ranges.getD i ⟨-1, -1, -1⟩ = r := by
    rw [List.getD_eq_getElem?_getD, hr]
    rfl
  have hl : (decimal r.start ++ text "-" ++ decimal r.stop ++ text "/" ++ decimal size).length ≤ RANGE_NUMBERS_LENGTH - 1 := by
    have e1 := decimal_length_le h0 (by omega)
    have e2 := decimal_length_le (h0.trans h1) (by omega)
    have e3 := decimal_length_le (Int.natCast_nonneg size) (by omega)
    have e4 : (text "-").length = 1 ∧ (text "/").length = 1 := by decide
    simp only [List.length_append, RANGE_NUMBERS_LENGTH, e4]
    omega
  have hlt : (decimal r.start ++ text "-" ++ decimal r.stop ++ text "/" ++ decimal size).length < RANGE_NUMBERS_LENGTH :=
    lt_of_le_of_lt hl (by decide)
  -- the content type is written if there is one
  obtain ⟨u, hu, hw⟩ : ∃ u, u = (match (t.write contType).contentType with
      | some c => (t.write contType).write c
      | none => t.write contType) ∧ Wrote (t.write contType) u (t.contentType.getD []) := by
    refine ⟨_, rfl, ?_⟩
    have he : (t.write contType).contentType = t.contentType := rfl
    rw [he]
    cases t.contentType with
    | none => simp [Wrote]
    | some c => exact write_wrote _ c
  have hn := (((write_wrote t contType).trans hw).trans (write_wrote u crlf)).trans (write_wrote _ contRange)
  unfold addSubHeader
  simp only [hg]
  rw [← hu, hn.outputCl, hcl, List.take_of_length_le hl, if_pos hlt]
  exact (hn.trans (write_wrote _ _)).trans (write_wrote _ _)

theorem addPart_wrote (t : RangeTransform) {r : RangeRecord} {size : ℕ} {i : ℕ} (hr : t.ranges[i]? = some r)
    (hcl : t.outputCl = size) (h0 : 0 ≤ r.start) (h1 : r.start ≤ r.stop) (h2 : r.stop < size) (hs : size < 2 ^ 63) :
    Wrote t ((t.addBoundary false).addSubHeader i) (partHeader t.contentType size r) := by
  have hb : Wrote t (t.addBoundary false) (text "--" ++ bound ++ crlf) :=
    ((write_wrote t (text "--")).trans (write_wrote _ bound)).trans (write_wrote _ crlf)
  have hh := hb.trans (addSubHeader_wrote (t.addBoundary false) (i := i) hr hcl h0 h1 h2 hs)
  have he : partHeader t.contentType size r = text "--" ++ bound ++ crlf ++ (contType ++ t.contentType.getD [] ++ crlf ++ contRange ++
      (decimal r.start ++ text "-" ++ decimal r.stop ++ text "/" ++ decimal size) ++ (crlf ++ crlf)) := by
    simp [partHeader]
  rw [he]
  exact hh

/-! ## The invariant -/

section Run

variable {ct : Option (List UInt8)} {obj body : List UInt8}

/-- The ranges before the current one are done, `n` bytes of the object have been read, `future` has not arrived; what is written and what
is owed are the body. -/
structure Going (ct : Option (List UInt8)) (obj body : List UInt8) (t : RangeTransform) (before : List RangeRecord) (r : RangeRecord)
    (rs : List RangeRecord) (n : ℕ) (future : List UInt8) : Prop where
  size : obj.length < 2 ^ 63
  ranges : t.ranges = before ++ r :: rs
  current : t.currentRange = before.length
  contentType : t.contentType = ct
  outputCl : t.outputCl = obj.length
  unfinished : t.finished = false
  started : t.started = true
  position : r.doneByte = (n : ℤ) - 1
  fits : ∀ q ∈ r :: rs, 0 ≤ q.start ∧ q.start ≤ q.stop ∧ q.stop < obj.length
  ordered : (r :: rs).Pairwise fun q q' => q.stop < q'.start
  inside : (n : ℤ) ≤ r.stop + 1
  source : obj.drop n = t.reader ++ future
  written : t.output ++ ((obj.take (r.stop.toNat + 1)).drop (max n r.start.toNat) ++ owed ct obj (decide (t.ranges.length > 1)) rs) = body
  count : t.done = t.output.length

structure Finished (body : List UInt8) (t : RangeTransform) : Prop where
  finished : t.finished = true
  written : t.output = body
  count : t.done = t.output.length

theorem range_at {t : RangeTransform} {before rs : List RangeRecord} {r : RangeRecord} (hr : t.ranges = before ++ r :: rs)
    (hc : t.currentRange = before.length) : t.range = r := by
  simp [range, hr, hc]

theorem setDone_ranges {t : RangeTransform} {before rs : List RangeRecord} {r : RangeRecord} (hr : t.ranges = before ++ r :: rs)
    (hc : t.currentRange = before.length) (d : ℤ) : (t.setDone d).ranges = before ++ { r with doneByte := d } :: rs := by
  simp [setDone, hr, hc, List.modify_eq_take_cons_drop]

theorem drop_of_prefix {α : Type} {l a b : List α} {n k : ℕ} (h : l.drop n = a ++ b) (hk : k ≤ a.length) :
    l.drop (n + k) = a.drop k ++ b := by
  rw [← List.drop_drop, h, List.drop_append_of_le_length hk]

/-- the bytes from `n` to `m` start with those that are there -/
theorem take_of_prefix {α : Type} {l a b : List α} {n m k : ℕ} (h : l.drop n = a ++ b) (hk : k ≤ a.length) (hm : n + k ≤ m) :
    (l.take m).drop n = a.take k ++ (l.take m).drop (n + k) := by
  have hx : ((l.take m).drop n).take k = a.take k := by
    rw [List.drop_take, List.take_take, min_eq_left (by omega), h, List.take_append_of_le_length hk]
  have hy : ((l.take m).drop n).drop k = (l.take m).drop (n + k) := List.drop_drop
  calc (l.take m).drop n
      = ((l.take m).drop n).take k ++ ((l.take m).drop n).drop k := (List.take_append_drop k _).symm
    _ = a.take k ++ (l.take m).drop (n + k) := by rw [hx, hy]

variable {t : RangeTransform} {before rs : List RangeRecord} {r : RangeRecord} {n : ℕ} {future : List UInt8}

theorem Going.fit (h : Going ct obj body t before r rs n future) : 0 ≤ r.start ∧ r.start ≤ r.stop ∧ r.stop < obj.length :=
  h.fits r List.mem_cons_self

/-- the position goes on by `k` bytes of the reader, the bytes from `w` on are written -/
theorem Going.advance (h : Going ct obj body t before r rs n future) {k : ℕ} {w : List UInt8} (hk : k ≤ t.reader.length)
    (hin : ((n + k : ℕ) : ℤ) ≤ r.stop + 1)
    (hw : (obj.take (r.stop.toNat + 1)).drop (max n r.start.toNat) = w ++ (obj.take (r.stop.toNat + 1)).drop (max (n + k) r.start.toNat))
    {d : ℤ} (hd : d = ((n + k : ℕ) : ℤ) - 1) {c : ℤ} (hc : c = t.done + w.length) :
    Going ct obj body ({ t with output := t.output ++ w, reader := t.reader.drop k, done := c }.setDone d)
      before { r with doneByte := d } rs (n + k) future := by
  have hr := setDone_ranges (t := { t with output := t.output ++ w, reader := t.reader.drop k, done := c }) h.ranges h.current d
  have hlen : (before ++ { r with doneByte := d } :: rs).length = t.ranges.length := by simp [h.ranges]
  refine ⟨h.size, hr, h.current, h.contentType, h.outputCl, h.unfinished, h.started, hd, ?_, ?_, hin, drop_of_prefix h.source hk, ?_, ?_⟩
  · intro q hq
    rcases List.mem_cons.mp hq with rfl | hq
    · exact h.fit
    · exact h.fits q (List.mem_cons_of_mem r hq)
  · exact List.pairwise_cons.mpr (List.pairwise_cons.mp h.ordered)
  · rw [hr, hlen]
    have hb := h.written
    rw [hw] at hb
    simpa [setDone] using hb
  · simp [setDone, hc, h.count]

theorem Going.skip (h : Going ct obj body t before r rs n future) (hn : (n : ℤ) ≤ r.stop) :
    ∃ m d, Going ct obj body t.skip before { r with doneByte := d } rs m future ∧ (m : ℤ) ≤ r.stop ∧
      (r.start ≤ m ∨ t.skip.reader = []) := by
  obtain ⟨h0, h1, h2⟩ := h.fit
  have hself : Going ct obj body t before { r with doneByte := r.doneByte } rs n future := h
  unfold RangeTransform.skip
  simp only [range_at h.ranges h.current]
  have hp := h.position
  by_cases hlt : r.doneByte < r.start - 1
  · rw [if_pos hlt]
    obtain ⟨k, hk⟩ : ∃ k : ℕ, min (r.start - r.doneByte - 1) (t.reader.length : ℤ) = k := ⟨_, (Int.toNat_of_nonneg (by omega)).symm⟩
    rw [hk]
    by_cases hs : (k : ℤ) > 0
    · rw [if_pos hs, Int.toNat_natCast]
      refine ⟨n + k, r.doneByte + k, ?_, by omega, ?_⟩
      · have hw : max n r.start.toNat = max (n + k) r.start.toNat := by omega
        have hg := h.advance (k := k) (w := []) (by omega) (by omega) (by rw [← hw, List.nil_append]) (d := r.doneByte + k) (by omega)
          (c := t.done) (by simp)
        simpa using hg
      · by_cases hle : r.start - r.doneByte - 1 ≤ t.reader.length
        · exact Or.inl (by omega)
        · exact Or.inr (List.drop_eq_nil_of_le (by omega))
    · rw [if_neg hs]
      exact ⟨n, _, hself, hn, Or.inr (List.length_eq_zero_iff.mp (by omega))⟩
  · rw [if_neg hlt]
    exact ⟨n, _, hself, hn, Or.inl (by omega)⟩

theorem Going.send (h : Going ct obj body t before r rs n future) (hn : (n : ℤ) ≤ r.stop) (hs : r.start ≤ n ∨ t.reader = []) :
    ∃ m d, Going ct obj body t.send before { r with doneByte := d } rs m future ∧ ((m : ℤ) = r.stop + 1 ∨ t.send.reader = []) := by
  obtain ⟨h0, h1, h2⟩ := h.fit
  have hp := h.position
  unfold RangeTransform.send
  simp only [range_at h.ranges h.current]
  by_cases hl : t.reader.length > 0
  · have hs : r.start ≤ n := by
      rcases hs with hs | hs
      · exact hs
      · simp [hs] at hl
    rw [if_pos hl]
    obtain ⟨k, hk⟩ : ∃ k : ℕ, min (r.stop - r.doneByte) (t.reader.length : ℤ) = k := ⟨_, (Int.toNat_of_nonneg (by omega)).symm⟩
    have hkl : k ≤ t.reader.length := by omega
    rw [hk, Int.toNat_natCast]
    refine ⟨n + k, r.doneByte + k, ?_, ?_⟩
    · have e1 : max n r.start.toNat = n := by omega
      have e2 : max (n + k) r.start.toNat = n + k := by omega
      refine h.advance hkl (by omega) ?_ (by omega) ?_
      · rw [e1, e2]
        exact take_of_prefix h.source hkl (by omega)
      · rw [List.length_take, min_eq_left hkl]
    · by_cases hle : r.stop - r.doneByte ≤ t.reader.length
      · exact Or.inl (by omega)
      · exact Or.inr (List.drop_eq_nil_of_le (by omega))
  · rw [if_neg hl]
    exact ⟨n, _, h, Or.inr (List.length_eq_zero_iff.mp (by omega))⟩

/-- while the current range is not done nothing happens -/
theorem Going.nextRange_same (h : Going ct obj body t before r rs n future) (hn : (n : ℤ) ≤ r.stop) (prevEnd : ℤ) (fuel : ℕ) :
    nextRange prevEnd fuel t = t := by
  cases fuel with
  | zero => rfl
  | succ fuel =>
    have hp := h.position
    rw [nextRange, range_at h.ranges h.current, if_neg (by omega)]

/-- the last range is done -/
theorem Going.nextRange_last (h : Going ct obj body t before r [] n future) (hn : (n : ℤ) = r.stop + 1) (prevEnd : ℤ) (fuel : ℕ) :
    Finished body (nextRange prevEnd (fuel + 1) t) := by
  obtain ⟨h0, h1, h2⟩ := h.fit
  have hp := h.position
  have hlast : t.currentRange + 1 = t.ranges.length := by simp [h.ranges, h.current]
  have hnil : (obj.take (r.stop.toNat + 1)).drop (max n r.start.toNat) = [] := by
    apply List.drop_eq_nil_of_le
    simp only [List.length_take]
    omega
  have hb := h.written
  rw [hnil, List.nil_append] at hb
  rw [nextRange, range_at h.ranges h.current, if_pos (by omega)]
  simp only [hlast, if_true]
  by_cases hm : t.ranges.length > 1
  · have hw := (write_wrote { t with currentRange := t.ranges.length } crlf).trans (addBoundary_true _)
    unfold Wrote at hw
    rw [if_pos hm, hw]
    refine ⟨rfl, ?_, ?_⟩
    · simpa [owed, hm] using hb
    · simp [h.count]
  · rw [if_neg hm]
    exact ⟨rfl, by simpa [owed, hm] using hb, h.count⟩

/-- one range is done and the next is begun -/
theorem Going.nextRange_next {r' : RangeRecord} (h : Going ct obj body t before r (r' :: rs) n future) (hn : (n : ℤ) = r.stop + 1)
    (fuel : ℕ) :
    Going ct obj body (nextRange r.stop (fuel + 1) t) (before ++ [r]) { r' with doneByte := r.stop } rs n future ∧ (n : ℤ) ≤ r'.stop ∧
      (nextRange r.stop (fuel + 1) t).reader = t.reader := by
  obtain ⟨h0, h1, h2⟩ := h.fit
  obtain ⟨g0, g1, g2⟩ := h.fits r' (by simp)
  have hp := h.position
  have hord : r.stop < r'.start := (List.pairwise_cons.mp h.ordered).1 r' List.mem_cons_self
  have hnil : (obj.take (r.stop.toNat + 1)).drop (max n r.start.toNat) = [] := by
    apply List.drop_eq_nil_of_le
    simp only [List.length_take]
    omega
  have hmore : t.currentRange + 1 ≠ t.ranges.length := by simp [h.ranges, h.current]
  have hranges : t.ranges = (before ++ [r]) ++ r' :: rs := by simp [h.ranges]
  have hcur : t.currentRange + 1 = (before ++ [r]).length := by simp [h.current]
  have hat : ({ t with currentRange := t.currentRange + 1 } : RangeTransform).range = r' := range_at hranges hcur
  -- what is written before the bytes of the next range
  obtain ⟨u, hu, hw⟩ : ∃ u, u = ((({ t with currentRange := t.currentRange + 1 } : RangeTransform).write crlf).addBoundary
      false).addSubHeader (t.currentRange + 1) ∧
      Wrote { t with currentRange := t.currentRange + 1 } u (crlf ++ partHeader ct obj.length r') := by
    refine ⟨_, rfl, ?_⟩
    have hpart := addPart_wrote (({ t with currentRange := t.currentRange + 1 } : RangeTransform).write crlf) (i := t.currentRange + 1)
      (by simp [RangeTransform.write, hranges, h.current]) h.outputCl g0 g1 g2 h.size
    have hct : (({ t with currentRange := t.currentRange + 1 } : RangeTransform).write crlf).contentType = ct := h.contentType
    rw [hct] at hpart
    exact (write_wrote _ crlf).trans hpart
  have hstep : nextRange r.stop (fuel + 1) t = u.setDone r.stop := by
    rw [nextRange, range_at h.ranges h.current, if_pos (by omega)]
    simp only [if_neg hmore, hat]
    rw [if_pos (by omega), hu]
  unfold Wrote at hw
  have hur : u.ranges = (before ++ [r]) ++ r' :: rs := by rw [hw]; exact hranges
  have huc : u.currentRange = (before ++ [r]).length := by rw [hw]; exact hcur
  have hset := setDone_ranges hur huc r.stop
  rw [hstep]
  refine ⟨⟨h.size, hset, huc, ?_, ?_, ?_, ?_, by simp; omega, ?_, ?_, by simp; omega, ?_, ?_, ?_⟩, by omega, ?_⟩
  · rw [hw]; exact h.contentType
  · rw [hw]; exact h.outputCl
  · rw [hw]; exact h.unfinished
  · rw [hw]; exact h.started
  · intro q hq
    rcases List.mem_cons.mp hq with rfl | hq
    · exact ⟨g0, g1, g2⟩
    · exact h.fits q (by simp [hq])
  · exact List.pairwise_cons.mpr (List.pairwise_cons.mp (List.pairwise_cons.mp h.ordered).2)
  · rw [hw]; exact h.source
  · have hb := h.written
    have e : max n r'.start.toNat = r'.start.toNat := by omega
    have hmulti : t.ranges.length > 1 := by simp only [h.ranges, List.length_append, List.length_cons]; omega
    have hmulti' : (u.setDone r.stop).ranges.length > 1 := by simp only [hset, List.length_append, List.length_cons]; omega
    rw [hnil, decide_eq_true hmulti, List.nil_append, owed] at hb
    rw [decide_eq_true hmulti', hw]
    simpa [setDone, e, bytesOf] using hb
  · rw [hw]; simp [setDone, h.count]
  · rw [hw]; rfl

theorem open_started (h : t.started = true) : t.open' = t := by
  rw [open', if_pos h]

/-- between two events: the transform is done, or has nothing to read and the current range is not done -/
def AtRest (ct : Option (List UInt8)) (obj body : List UInt8) (t : RangeTransform) (future : List UInt8) : Prop :=
  Finished body t ∨
    t.finished = false ∧ t.reader = [] ∧ t.open'.reader = [] ∧ ∃ before r rs n, Going ct obj body t.open' before r rs n future ∧ (n : ℤ) ≤ r.stop

theorem Going.atRest (h : Going ct obj body t before r rs n future) (hn : (n : ℤ) ≤ r.stop) (he : t.reader = []) :
    AtRest ct obj body t future := by
  have ho := open_started h.started
  refine Or.inr ⟨h.unfinished, he, ?_, before, r, rs, n, ?_, hn⟩
  · rw [ho, he]
  · rw [ho]; exact h

theorem loop_rest (fuel : ℕ) (prevEnd : ℤ) (h : Going ct obj body t before r rs n future) (hn : (n : ℤ) ≤ r.stop)
    (hf : rs.length < fuel) : AtRest ct obj body (loop fuel prevEnd t) future := by
  induction fuel generalizing t before r rs n prevEnd with
  | zero => omega
  | succ fuel ih =>
    obtain ⟨m, d, hk, hm, hs⟩ := h.skip hn
    obtain ⟨m', d', hg, hd⟩ := hk.send hm hs
    rw [loop]
    by_cases hdone : (m' : ℤ) = r.stop + 1
    · -- the range is done
      have hp := hg.position
      have hr := range_at hg.ranges hg.current
      have hlen : ∃ l, t.skip.send.ranges.length = l + 1 := ⟨before.length + rs.length, by simp [hg.ranges]; omega⟩
      obtain ⟨l, hl⟩ := hlen
      simp only [hr, if_pos (show d' = r.stop by simp at hp; omega), hl]
      cases rs with
      | nil =>
        have hfin := hg.nextRange_last hdone r.stop l
        rw [hfin.finished]
        exact Or.inl hfin
      | cons r' rs =>
        obtain ⟨hg', hn', hrd⟩ := hg.nextRange_next hdone l
        by_cases he : (nextRange r.stop (l + 1) t.skip.send).reader = []
        · rw [he]
          simp only [List.isEmpty_nil, Bool.or_true, if_true]
          exact hg'.atRest hn' he
        · have hc : ((nextRange r.stop (l + 1) t.skip.send).finished || (nextRange r.stop (l + 1) t.skip.send).reader.isEmpty) = false := by
            simp [hg'.unfinished, he]
          rw [hc]
          exact ih r.stop hg' hn' (by simp at hf; omega)
    · -- everything that was there has been read
      have hi := hg.inside
      have hempty : t.skip.send.reader = [] := by
        rcases hd with hd | hd
        · exact absurd hd hdone
        · exact hd
      simp only [hg.nextRange_same (show (m' : ℤ) ≤ r.stop by simp at hi; omega), hempty]
      simp only [List.isEmpty_nil, Bool.or_true, if_true]
      exact hg.atRest (by simp at hi; simp; omega) hempty

/-- one event: a piece of what has not arrived -/
theorem handleEvent_rest (piece future : List UInt8) (h : AtRest ct obj body t (piece ++ future)) :
    AtRest ct obj body (t.handleEvent piece) future := by
  unfold handleEvent
  rcases h with h | ⟨hf, he, ho, before, r, rs, n, h, hn⟩
  · rw [if_pos h.finished]
    exact Or.inl h
  · rw [hf, he, if_neg Bool.false_ne_true, List.nil_append]
    have hsource : obj.drop n = piece ++ future := by
      rw [h.source, ho, List.nil_append]
    have hg : Going ct obj body { t.open' with reader := piece } before r rs n future :=
      ⟨h.size, h.ranges, h.current, h.contentType, h.outputCl, h.unfinished, h.started, h.position, h.fits, h.ordered, h.inside, hsource,
        h.written, h.count⟩
    refine loop_rest _ 0 hg hn ?_
    simp only [h.ranges, List.length_append, List.length_cons]
    omega

theorem run_rest (pieces : List (List UInt8)) (h : AtRest ct obj body t pieces.flatten) : AtRest ct obj body (t.run pieces) [] := by
  induction pieces generalizing t with
  | nil => exact h
  | cons piece pieces ih => exact ih (handleEvent_rest piece pieces.flatten h)

theorem init_rest (ct : Option (List UInt8)) {ranges : List RangeRecord} (h : Requested obj.length ranges) (hs : obj.length < 2 ^ 63) :
    AtRest ct obj (rangeBody ranges ct obj) (init ranges ct obj.length) obj := by
  obtain ⟨r, rs, rfl⟩ := List.exists_cons_of_ne_nil h.some
  obtain ⟨h0, h1, h2⟩ := h.fits r List.mem_cons_self
  have hfr := h.fresh r List.mem_cons_self
  -- what the first event writes before the first range
  obtain ⟨u, hu, hw⟩ : ∃ u, u = (init (r :: rs) ct obj.length).open' ∧
      Wrote { init (r :: rs) ct obj.length with started := true } u (if rs = [] then [] else partHeader ct obj.length r) := by
    refine ⟨_, rfl, ?_⟩
    rw [open', if_neg (by simp [init])]
    by_cases he : rs = []
    · subst he
      simp [Wrote, init]
    · have hm : (init (r :: rs) ct obj.length).ranges.length > 1 := by
        have := List.length_pos_iff.mpr he
        simp only [init, List.length_cons]
        omega
      simp only [if_pos hm, if_neg he]
      exact addPart_wrote _ rfl rfl h0 h1 h2 hs
  unfold Wrote at hw
  refine Or.inr ⟨rfl, rfl, ?_, [], r, rs, 0, ?_, by simp; omega⟩
  · rw [← hu, hw]
    rfl
  · have hmulti : decide (u.ranges.length > 1) = !rs.isEmpty := by
      rw [hw]
      cases rs <;> simp [init]
    rw [← hu]
    refine ⟨hs, by rw [hw]; rfl, by rw [hw]; rfl, by rw [hw]; rfl, by rw [hw]; rfl, by rw [hw]; rfl, by rw [hw], by simp [hfr], h.fits,
      h.ordered, by simp; omega, by rw [hw]; rfl, ?_, by rw [hw]; simp [init]⟩
    rw [rangeBody_cons, hmulti, hw]
    simp [init, bytesOf]

end Run

end RangeTransform

/-- Whatever the pieces the object arrives in, the transform ends having written the body that was asked for. `m_done` counts it and it has
the length that was announced. -/
theorem range_response (ranges : List RangeRecord) (contentType : Option (List UInt8)) (obj : List UInt8) (pieces : List (List UInt8))
    (h : Requested obj.length ranges) (hs : obj.length < 2 ^ 63) (hp : pieces.flatten = obj) :
    let t := (RangeTransform.init ranges contentType obj.length).run pieces
    t.finished = true ∧ t.output = rangeBody ranges contentType obj ∧ t.done = t.output.length ∧
      t.done = doRangeParse ranges contentType obj.length := by
  intro t
  have hfin : RangeTransform.Finished (rangeBody ranges contentType obj) t := by
    have hi := RangeTransform.init_rest contentType h hs
    rw [← hp] at hi
    rcases RangeTransform.run_rest pieces hi with hf | ⟨-, -, ho, before, r, rs, n, hg, hn⟩
    · rw [hp] at hf
      exact hf
    · -- the object has been read, but the current range ends inside it
      have hsrc := hg.source
      rw [ho, List.append_nil, hp] at hsrc
      have hle := List.drop_eq_nil_iff.mp hsrc
      obtain ⟨h0, h1, h2⟩ := hg.fit
      rw [hp] at h2
      omega
  refine ⟨hfin.finished, hfin.written, hfin.count, ?_⟩
  rw [hfin.count, hfin.written, doRangeParse_eq contentType obj h]

/-- two ranges of a short object that arrives in three pieces -/
theorem range_response_two :
    let ranges : List RangeRecord := [⟨1, 2, -1⟩, ⟨4, 4, -1⟩]
    let obj : List UInt8 := [10, 11, 12, 13, 14, 15]
    let t := (RangeTransform.init ranges none obj.length).run [[10, 11], [], [12, 13, 14, 15]]
    Requested obj.length ranges ∧ obj.length < 2 ^ 63 ∧ t.output = rangeBody ranges none obj ∧
      t.done = doRangeParse ranges none obj.length := by
  intro ranges obj t
  have hr : Requested obj.length ranges :=
    ⟨by simp [ranges], by simp [ranges, obj], by simp [ranges], by simp [ranges]⟩
  have h := range_response ranges none obj [[10, 11], [], [12, 13, 14, 15]] hr (by decide) rfl
  exact ⟨hr, by decide, h.2.1, h.2.2.2⟩

end TrafficServer.Http.Range
