/-
Printing the fields of a message (`mime_hdr_print` in `proxy/hdrs/MIME.cc`).

A header is printed into buffers of any sizes (`TSMimeHdrPrint`): each call starts at the first field, leaves out what has been printed
before, and stops where the buffer ends. A field that has room is copied without these counts, in one piece if it is still as it came
(`n_v_raw_printable`).

Both ways are the text of the field in the window (`mimeFieldPrint_prints`), so that the pieces are the text of the header
(`mimeHdrPrint_windowed`). The counters are `int`s, which never pass the length of the buffer or of the text. The call without a buffer, which
is for `test_header`, is left out.
-/
import TrafficServer.Lib.Windowed
import TrafficServer.Hdrs.HttpLine

namespace TrafficServer.Hdrs.Mime

open TrafficServer.Memory TrafficServer.Windowed TrafficServer.Hdrs.HttpParse

def INT_MAX : ℕ := 2 ^ 31 - 1

def MIME_FIELD_BLOCK_SLOTS : ℕ := 16

/-- `MIME_FIELD_SLOT_READINESS_EMPTY` and so on -/
inductive Readiness
  | empty
  | detached
  | live
  | deleted
  deriving DecidableEq

/-- what is printed of a field; the pointers are addresses in the memory of the header -/
structure MIMEField where
  ptrName : ℕ
  ptrValue : ℕ
  lenName : BitVec 16
  lenValue : BitVec 24
  nVRawPrintable : Bool
  nVRawPrintablePad : BitVec 3
  readiness : Readiness

structure MIMEFieldBlockImpl where
  freetop : ℕ
  fieldSlots : List MIMEField
  length_eq : fieldSlots.length = MIME_FIELD_BLOCK_SLOTS
  freetop_le : freetop ≤ MIME_FIELD_BLOCK_SLOTS

/-- the first block, and those that `m_next` leads to -/
structure MIMEHdrImpl where
  firstFblock : MIMEFieldBlockImpl
  next : List MIMEFieldBlockImpl

def MIMEField.isLive (f : MIMEField) : Bool := f.readiness = .live

variable {n : ℕ} (mem : ℕ → UInt8)

/-- the string at an address -/
def str (p l : ℕ) : Bytes := (List.range l).map fun i => mem (p + i)

@[simp] theorem length_str (p l : ℕ) : (str mem p l).length = l := by
  rw [str, List.length_map, List.length_range]

/-! ## `mime_mem_print` -/

/-- as much as there is room for -/
def copyMem (src : Bytes) (w : Window UInt8 n) : Option (Bool × Window UInt8 n) :=
  let copyL := min (n - w.index) src.length
  if copyL > 0 then
    (w.buf.write w.index ((src.take copyL).map some)).map fun buf =>
      (src.length = copyL, ⟨buf, w.index + copyL, w.skip, by have hle := w.index_le; omega⟩)
  else some (src.length = copyL, w)

def mimeMemPrint (src : Bytes) (w : Window UInt8 n) : Option (Bool × Window UInt8 n) :=
  if w.skip > 0 then
    if w.skip ≥ src.length then some (true, { w with skip := w.skip - src.length })
    else copyMem (src.drop w.skip) { w with skip := 0 }
  else copyMem src w

theorem copyMem_eq_put {w : Window UInt8 n} (src : Bytes) (hskip : w.skip = 0) : copyMem src w = w.put src := by
  have hpart : w.part src = src.take (min (n - w.index) src.length) := by
    rw [Window.part, hskip, List.drop_zero, List.take_eq_take_min]
  have hlen : (w.part src).length = min (n - w.index) src.length := by
    rw [hpart, List.length_take, Nat.min_eq_left (Nat.min_le_right _ _)]
  have hdone : decide (src.length = min (n - w.index) src.length) = decide (src.length - w.skip ≤ n - w.index) := by
    rw [hskip, Nat.sub_zero, decide_eq_decide, eq_comm, min_eq_right_iff]
  obtain ⟨w', hput, hwrite, hindex, hskip'⟩ := w.exists_put src
  have hsame : w'.skip = w.skip := by
    rw [hskip', hskip, Nat.zero_sub]
  unfold copyMem
  dsimp only
  rw [hput, hdone]
  by_cases hpos : min (n - w.index) src.length > 0
  · rw [if_pos hpos, ← hpart, hwrite, Option.map_some]
    congr 2
    exact Window.ext rfl (by rw [hindex, hlen]) hsame.symm
  · have hzero : min (n - w.index) src.length = 0 := Nat.eq_zero_of_not_pos hpos
    rw [if_neg hpos]
    rw [List.eq_nil_of_length_eq_zero (hlen.trans hzero), List.map_nil, Block.write_nil w.buf w.index_le] at hwrite
    congr 2
    exact Window.ext (Option.some.inj hwrite) (by rw [hindex, hlen, hzero, Nat.add_zero]) hsame.symm

theorem mimeMemPrint_prints (src : Bytes) : Prints (mimeMemPrint (n := n) src) src := by
  intro w
  unfold mimeMemPrint
  by_cases hskip : w.skip > 0
  · rw [if_pos hskip]
    by_cases hall : w.skip ≥ src.length
    · rw [if_pos hall, w.put_of_le hall]
    · rw [if_neg hall, copyMem_eq_put _ rfl, w.put_drop (not_le.mp hall).le]
  · rw [if_neg hskip, copyMem_eq_put src (Nat.eq_zero_of_not_pos hskip)]

/-! ## `mime_field_print` -/

namespace MIMEField

variable (f : MIMEField)

def name : Bytes := str mem f.ptrName f.lenName.toNat

def value : Bytes := str mem f.ptrValue f.lenValue.toNat

/-- `total_len` of a field that is printed as it came -/
def rawLen : ℕ := f.lenName.toNat + f.lenValue.toNat + f.nVRawPrintablePad.toNat

/-- `total_len` of a field that is put together -/
def pairLen : ℕ := f.lenName.toNat + f.lenValue.toNat + 2 + 2

def raw : Bytes := str mem f.ptrName f.rawLen

def rawFast (w : Window UInt8 n) (h : f.rawLen ≤ n - w.index) : Option (Bool × Window UInt8 n) := do
  let buf ← w.buf.write w.index ((f.raw mem).map some)
  some (true, ⟨buf, w.index + f.rawLen, w.skip, by have hle := w.index_le; omega⟩)

def rawSlow (w : Window UInt8 n) : Option (Bool × Window UInt8 n) := mimeMemPrint (f.raw mem) w

def pairFast (w : Window UInt8 n) (h : f.pairLen ≤ n - w.index) : Option (Bool × Window UInt8 n) := do
  let start := w.index
  let buf ← w.buf.write start ((f.name mem).map some)
  let start := start + f.lenName.toNat
  let buf ← buf.write start ((text ": ").map some)
  let start := start + 2
  let buf ← buf.write start ((f.value mem).map some)
  let start := start + f.lenValue.toNat
  let buf ← buf.write start ([CHAR_CR, CHAR_LF].map some)
  some (true, ⟨buf, w.index + f.pairLen, w.skip, by have hle := w.index_le; omega⟩)

def pairSlow : Window UInt8 n → Option (Bool × Window UInt8 n) :=
  andThen (mimeMemPrint (f.name mem))
    (andThen (mimeMemPrint (text ": ")) (andThen (mimeMemPrint (f.value mem)) (mimeMemPrint [CHAR_CR, CHAR_LF])))

end MIMEField

/-- names that begin with an `@` are not printed -/
def mimeFieldPrint (f : MIMEField) (w : Window UInt8 n) : Option (Bool × Window UInt8 n) :=
  if mem f.ptrName = 64 then some (true, w)
  else if f.nVRawPrintable then
    if h : w.skip = 0 ∧ f.rawLen ≤ n - w.index then f.rawFast mem w h.2 else f.rawSlow mem w
  else
    if h : w.skip = 0 ∧ f.pairLen ≤ n - w.index then f.pairFast mem w h.2 else f.pairSlow mem w

/-! ### The fast path -/

namespace MIMEField

variable (f : MIMEField)

def pair : Bytes := f.name mem ++ (text ": " ++ (f.value mem ++ [CHAR_CR, CHAR_LF]))

theorem length_pair : (f.pair mem).length = f.pairLen := by
  simp only [pair, name, value, pairLen, List.length_append, length_str]
  show _ + (2 + (_ + 2)) = _
  omega

theorem pairSlow_prints : Prints (f.pairSlow (n := n) mem) (f.pair mem) :=
  (mimeMemPrint_prints _).andThen ((mimeMemPrint_prints _).andThen ((mimeMemPrint_prints _).andThen (mimeMemPrint_prints _)))

theorem rawFast_eq_slow (w : Window UInt8 n) (hskip : w.skip = 0) (h : f.rawLen ≤ n - w.index) : f.rawFast mem w h = f.rawSlow mem w := by
  unfold rawSlow
  rw [mimeMemPrint_prints (f.raw mem) w]
  exact w.put_of_room hskip (length_str mem _ _) h _

theorem pairFast_eq_slow (w : Window UInt8 n) (hskip : w.skip = 0) (h : f.pairLen ≤ n - w.index) :
    f.pairFast mem w h = f.pairSlow mem w := by
  rw [f.pairSlow_prints mem w]
  refine Eq.trans ?_ (w.put_of_room hskip (f.length_pair mem) h (by have hle := w.index_le; omega))
  have hname : (f.name mem).length = f.lenName.toNat := length_str mem _ _
  have hvalue : (f.value mem).length = f.lenValue.toNat := length_str mem _ _
  have hcolon : (text ": ").length = 2 := rfl
  unfold pairFast pair
  simp only [List.map_append, ← Block.write_write, Option.bind_assoc, List.length_map, hname, hvalue, hcolon, Option.bind_eq_bind]

end MIMEField

/-! ## `mime_hdr_print` -/

/-- the slots of a block -/
def printSlots : List MIMEField → Window UInt8 n → Option (Bool × Window UInt8 n)
  | [], w => some (true, w)
  | f :: slots, w => if f.isLive then andThen (mimeFieldPrint mem f) (printSlots slots) w else printSlots slots w

def printBlocks : List MIMEFieldBlockImpl → Window UInt8 n → Option (Bool × Window UInt8 n)
  | [], w => some (true, w)
  | fblock :: fblocks, w => andThen (printSlots mem (fblock.fieldSlots.take fblock.freetop)) (printBlocks fblocks) w

def mimeHdrPrint (mh : MIMEHdrImpl) : Window UInt8 n → Option (Bool × Window UInt8 n) :=
  andThen (printBlocks mem (mh.firstFblock :: mh.next)) (mimeMemPrint [CHAR_CR, CHAR_LF])

/-- The loop of `TSMimeHdrPrint`, into blocks with the given room. -/
def tsMimeHdrPrint (mh : MIMEHdrImpl) (sizes : ℕ → ℕ) (fuel : ℕ) : Option (List Bytes) :=
  dump (fun _ => mimeHdrPrint mem mh) sizes INT_MAX fuel 0 0

/-! ### The text of a header -/

def MIMEField.fieldText (f : MIMEField) : Bytes :=
  if mem f.ptrName = 64 then [] else if f.nVRawPrintable then f.raw mem else f.pair mem

def slotsText (slots : List MIMEField) : Bytes := (slots.filter MIMEField.isLive).flatMap (MIMEField.fieldText mem)

def hdrText (mh : MIMEHdrImpl) : Bytes :=
  ((mh.firstFblock :: mh.next).flatMap fun fblock => slotsText mem (fblock.fieldSlots.take fblock.freetop)) ++ [CHAR_CR, CHAR_LF]

theorem mimeFieldPrint_prints (f : MIMEField) : Prints (mimeFieldPrint (n := n) mem f) (f.fieldText mem) := by
  intro w
  unfold mimeFieldPrint MIMEField.fieldText
  by_cases hat : mem f.ptrName = 64
  · rw [if_pos hat, if_pos hat, w.put_nil]
  · rw [if_neg hat, if_neg hat]
    by_cases hraw : f.nVRawPrintable = true
    · rw [if_pos hraw, if_pos hraw]
      have hslow : f.rawSlow mem w = w.put (f.raw mem) := mimeMemPrint_prints _ w
      by_cases hfast : w.skip = 0 ∧ f.rawLen ≤ n - w.index
      · rw [dif_pos hfast, f.rawFast_eq_slow mem w hfast.1 hfast.2, hslow]
      · rw [dif_neg hfast, hslow]
    · rw [if_neg hraw, if_neg hraw]
      have hslow : f.pairSlow mem w = w.put (f.pair mem) := f.pairSlow_prints mem w
      by_cases hfast : w.skip = 0 ∧ f.pairLen ≤ n - w.index
      · rw [dif_pos hfast, f.pairFast_eq_slow mem w hfast.1 hfast.2, hslow]
      · rw [dif_neg hfast, hslow]

theorem printSlots_prints (slots : List MIMEField) : Prints (printSlots (n := n) mem slots) (slotsText mem slots) := by
  induction slots with
  | nil => exact Prints.nil
  | cons f slots ih =>
    intro w
    rw [printSlots, slotsText, List.filter_cons]
    by_cases hlive : f.isLive = true
    · rw [if_pos hlive, if_pos hlive, List.flatMap_cons]
      exact ((mimeFieldPrint_prints mem f).andThen ih) w
    · rw [if_neg hlive, if_neg hlive]
      exact ih w

theorem printBlocks_prints (fblocks : List MIMEFieldBlockImpl) :
    Prints (printBlocks (n := n) mem fblocks) (fblocks.flatMap fun fblock => slotsText mem (fblock.fieldSlots.take fblock.freetop)) := by
  induction fblocks with
  | nil => exact Prints.nil
  | cons fblock fblocks ih =>
    rw [List.flatMap_cons]
    exact (printSlots_prints mem _).andThen ih

theorem mimeHdrPrint_prints (mh : MIMEHdrImpl) : Prints (mimeHdrPrint (n := n) mem mh) (hdrText mem mh) :=
  (printBlocks_prints mem _).andThen (mimeMemPrint_prints _)

/-! ## The pieces of a header -/

/-- a new buffer that has all of the header afterwards -/
def PrintsAll (mh : MIMEHdrImpl) (n : ℕ) (out : Bytes) : Prop :=
  ∃ w : Window UInt8 n, mimeHdrPrint mem mh (.fresh n 0) = some (true, w) ∧ w.printed = some out

/-- A buffer is large enough exactly if the text fits, and then it has the text. -/
theorem printsAll_iff (mh : MIMEHdrImpl) {out : Bytes} : PrintsAll mem mh n out ↔ (hdrText mem mh).length ≤ n ∧ out = hdrText mem mh := by
  obtain ⟨w, hput, hprinted, -⟩ := Window.put_fresh n 0 (hdrText mem mh)
  rw [List.drop_zero] at hprinted
  have hprint : mimeHdrPrint mem mh (.fresh n 0) = some (decide ((hdrText mem mh).length ≤ n), w) :=
    (mimeHdrPrint_prints mem mh _).trans hput
  constructor
  · intro ⟨w', hw', hout⟩
    rw [hprint] at hw'
    have hboth := Prod.mk.inj (Option.some.inj hw')
    have hfits := of_decide_eq_true hboth.1
    rw [← hboth.2, hprinted, List.take_of_length_le hfits] at hout
    exact ⟨hfits, (Option.some.inj hout).symm⟩
  · intro ⟨hfits, hout⟩
    rw [decide_eq_true hfits] at hprint
    refine ⟨w, hprint, ?_⟩
    rw [hprinted, List.take_of_length_le hfits, hout]

/-- The pieces in buffers of any sizes are what one large buffer gets, and the fast path for a field does what the slow one does. -/
theorem mimeHdrPrint_windowed (mh : MIMEHdrImpl) :
    (∀ sizes : ℕ → ℕ, (∀ i, 0 < sizes i) → ∀ n ≤ INT_MAX, ∀ out, PrintsAll mem mh n out →
      ∀ fuel > out.length, ∃ pieces, tsMimeHdrPrint mem mh sizes fuel = some pieces ∧ pieces.flatten = out) ∧
    (∀ n, (hdrText mem mh).length ≤ n → PrintsAll mem mh n (hdrText mem mh)) ∧
    ∀ (f : MIMEField) (n : ℕ) (w : Window UInt8 n), w.skip = 0 →
      (∀ h : f.rawLen ≤ n - w.index, f.rawFast mem w h = f.rawSlow mem w) ∧
      ∀ h : f.pairLen ≤ n - w.index, f.pairFast mem w h = f.pairSlow mem w := by
  refine ⟨?_, fun n hfits => (printsAll_iff mem mh).mpr ⟨hfits, rfl⟩, fun f n w hskip => ⟨?_, ?_⟩⟩
  · intro sizes hsizes n hn out hout fuel hfuel
    obtain ⟨hfits, rfl⟩ := (printsAll_iff mem mh).mp hout
    exact dump_flatten (fun _ => mimeHdrPrint_prints mem mh) hsizes (hfits.trans hn) 0 (Nat.zero_le _) hfuel
  · exact f.rawFast_eq_slow mem w hskip
  · exact f.pairFast_eq_slow mem w hskip

/-! ### A header of three fields -/

def threeMem (p : ℕ) : UInt8 := (text "A: b\r\nC@d").getD p 0

def noField : MIMEField := ⟨0, 0, 0, 0, false, 0, .empty⟩

/-- one field as it came, one that is not printed, one that is put together, and one that has been deleted -/
def threeFields : MIMEHdrImpl :=
  ⟨⟨4, [⟨0, 3, 1, 1, true, 4, .live⟩, ⟨7, 8, 1, 1, false, 0, .live⟩, ⟨6, 8, 1, 1, false, 0, .live⟩, ⟨0, 3, 1, 1, false, 0, .deleted⟩] ++
    List.replicate 12 noField, rfl, Nat.le_add_right 4 12⟩, []⟩

theorem mimeHdrPrint_windowed_three :
    ∃ pieces, tsMimeHdrPrint threeMem threeFields (fun _ => 4) 20 = some pieces ∧ pieces.flatten = text "A: b\r\nC: d\r\n\r\n" := by
  have hall : PrintsAll threeMem threeFields 64 (text "A: b\r\nC: d\r\n\r\n") := (printsAll_iff threeMem threeFields).mpr ⟨by decide, by decide⟩
  exact (mimeHdrPrint_windowed threeMem threeFields).1 (fun _ => 4) (fun _ => Nat.succ_pos 3) 64 (by decide) _ hall 20 (by decide)

end TrafficServer.Hdrs.Mime
