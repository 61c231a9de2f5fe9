/-
A heap in a buffer (`HdrHeap::marshal` in `proxy/hdrs/HdrHeap.cc`).

Behind the place of a block header come the objects of all blocks and the strings of all string heaps, and the pointers in the objects are
made offsets. `len` is what is left of the buffer: it is made less by each piece that is copied, but not by the header. So a piece can be
copied up to 136 bytes behind the end of the buffer. `marshal_stays_iff` says when nothing is written there, and
`marshal_marshalLength` that nothing is if the buffer is as long as `marshal_length` has said.

Writes are noted by where they begin and how long they are.
-/
import TrafficServer.Hdrs.HdrHeap
import Mathlib.Algebra.BigOperators.Group.List.Basic
import Mathlib.Tactic.Linarith

namespace TrafficServer.Hdrs.HeapMarshal

open Heap (HDR_PTR_SIZE HDR_HEAP_HDR_SIZE ROUND)

/-! ## The objects -/

/-- `MarshalXlate`: a piece, and what is subtracted from a pointer into it -/
structure MarshalXlate where
  start : ℕ
  stop : ℕ
  offset : ℤ

/-- `HDR_MARSHAL_STR` and `HDR_MARSHAL_PTR`; those with `_1` are for a table of one entry -/
def marshalPtr (table : List MarshalXlate) : Option ℕ → Option (Option ℕ)
  | none => some none
  | some ptr => (table.find? fun e => e.start ≤ ptr ∧ ptr ≤ e.stop).map fun e => some ((ptr : ℤ) - e.offset).toNat

structure URLImpl where
  scheme : Option ℕ
  user : Option ℕ
  password : Option ℕ
  host : Option ℕ
  port : Option ℕ
  path : Option ℕ
  params : Option ℕ
  query : Option ℕ
  fragment : Option ℕ

def URLImpl.marshal (strXlate : List MarshalXlate) (url : URLImpl) : Option URLImpl := do
  let scheme ← marshalPtr strXlate url.scheme
  let user ← marshalPtr strXlate url.user
  let password ← marshalPtr strXlate url.password
  let host ← marshalPtr strXlate url.host
  let port ← marshalPtr strXlate url.port
  let path ← marshalPtr strXlate url.path
  let params ← marshalPtr strXlate url.params
  let query ← marshalPtr strXlate url.query
  let fragment ← marshalPtr strXlate url.fragment
  return ⟨scheme, user, password, host, port, path, params, query, fragment⟩

/-- by the polarity: the method and the URL, or the reason -/
inductive Polarity where
  | request (method url : Option ℕ)
  | response (reason : Option ℕ)

structure HTTPHdrImpl where
  u : Polarity
  fieldsImpl : Option ℕ

def HTTPHdrImpl.marshal (ptrXlate strXlate : List MarshalXlate) (hh : HTTPHdrImpl) : Option HTTPHdrImpl := do
  let u ← match hh.u with
    | .request method url => do
      let method ← marshalPtr strXlate method
      let url ← marshalPtr ptrXlate url
      pure (Polarity.request method url)
    | .response reason => (marshalPtr strXlate reason).map .response
  let fieldsImpl ← marshalPtr ptrXlate hh.fieldsImpl
  return ⟨u, fieldsImpl⟩

structure MIMEField where
  isLive : Bool
  name : Option ℕ
  value : Option ℕ
  nextDup : Option ℕ

/-- a field of a block: only a live one has pointers that count -/
def MIMEField.marshal (ptrXlate strXlate : List MarshalXlate) (field : MIMEField) : Option MIMEField :=
  if field.isLive then do
    let name ← marshalPtr strXlate field.name
    let value ← marshalPtr strXlate field.value
    let nextDup ← marshalPtr ptrXlate field.nextDup
    return { field with name, value, nextDup }
  else some field

structure MIMEFieldBlockImpl where
  next : Option ℕ
  /-- the slots below `m_freetop` -/
  fieldSlots : List MIMEField

def MIMEFieldBlockImpl.marshal (ptrXlate strXlate : List MarshalXlate) (block : MIMEFieldBlockImpl) : Option MIMEFieldBlockImpl := do
  let next ← marshalPtr ptrXlate block.next
  let fieldSlots ← block.fieldSlots.mapM (MIMEField.marshal ptrXlate strXlate)
  return ⟨next, fieldSlots⟩

structure MIMEHdrImpl where
  fblockListTail : Option ℕ
  firstFblock : MIMEFieldBlockImpl

def MIMEHdrImpl.marshal (ptrXlate strXlate : List MarshalXlate) (mh : MIMEHdrImpl) : Option MIMEHdrImpl := do
  let fblockListTail ← marshalPtr ptrXlate mh.fblockListTail
  let firstFblock ← mh.firstFblock.marshal ptrXlate strXlate
  return ⟨fblockListTail, firstFblock⟩

/-- by `m_type` -/
inductive Obj where
  | empty
  | raw
  | url (url : URLImpl)
  | httpHeader (hh : HTTPHdrImpl)
  | mimeHeader (mh : MIMEHdrImpl)
  | fieldBlock (block : MIMEFieldBlockImpl)

structure HdrHeapObjImpl where
  obj : Obj
  length : ℕ
  pos : 0 < length

/-- one round of the loop over the objects -/
def HdrHeapObjImpl.marshal (ptrXlate strXlate : List MarshalXlate) (o : HdrHeapObjImpl) : Option HdrHeapObjImpl :=
  match o.obj with
  | .url url => (url.marshal strXlate).map fun url => { o with obj := .url url }
  | .httpHeader hh => (hh.marshal ptrXlate strXlate).map fun hh => { o with obj := .httpHeader hh }
  | .fieldBlock block => (block.marshal ptrXlate strXlate).map fun block => { o with obj := .fieldBlock block }
  | .mimeHeader mh => (mh.marshal ptrXlate strXlate).map fun mh => { o with obj := .mimeHeader mh }
  | .empty | .raw => if o.length ≤ 0 then none else some o

/-! ## The heap -/

def HDR_BUF_RONLY_HEAPS : ℕ := 3

/-- `sizeof(HdrStrHeap)` -/
def sizeofHdrStrHeap : ℕ := 32

/-- a block; its objects are one behind the other -/
structure HdrHeapBlock where
  dataStart : ℕ
  freeStart : ℕ
  objs : List HdrHeapObjImpl
  tiled : freeStart = dataStart + (objs.map HdrHeapObjImpl.length).sum

/-- the string heap at an address -/
structure HdrStrHeap where
  address : ℕ
  heapSize : ℕ
  freeSize : ℕ
  holds : sizeofHdrStrHeap + freeSize ≤ heapSize

structure StrHeapDesc where
  heapStart : Option ℕ
  heapLen : ℕ

structure HdrHeap where
  /-- the block itself, and those behind `m_next` -/
  block : HdrHeapBlock
  next : List HdrHeapBlock
  readWriteHeap : Option HdrStrHeap
  ronlyHeap : Fin HDR_BUF_RONLY_HEAPS → StrHeapDesc

/-- what is copied at once -/
structure Piece where
  start : ℕ
  size : ℕ

def HdrHeapBlock.piece (h : HdrHeapBlock) : Piece := ⟨h.dataStart, h.freeStart - h.dataStart⟩

def HdrStrHeap.piece (h : HdrStrHeap) : Piece := ⟨h.address + sizeofHdrStrHeap, h.heapSize - (sizeofHdrStrHeap + h.freeSize)⟩

def StrHeapDesc.piece (h : StrHeapDesc) : Option Piece := h.heapStart.map fun start => ⟨start, h.heapLen⟩

namespace HdrHeap

variable (heap : HdrHeap)

def ptrPieces : List Piece := (heap.block :: heap.next).map HdrHeapBlock.piece

def strPieces : List Piece := heap.readWriteHeap.toList.map HdrStrHeap.piece ++ (List.ofFn heap.ronlyHeap).filterMap StrHeapDesc.piece

def objs : List HdrHeapObjImpl := (heap.block :: heap.next).flatMap HdrHeapBlock.objs

/-- `HdrHeap::marshal_length` -/
def marshalLength : ℕ :=
  ROUND (HDR_HEAP_HDR_SIZE + (heap.ptrPieces.map Piece.size).sum + (heap.strPieces.map Piece.size).sum) HDR_PTR_SIZE

end HdrHeap

/-! ## `marshal` -/

/-- what is written: where it begins in the buffer, and how many bytes it has -/
abbrev Write := ℕ × ℕ

/-- the variables of the loops -/
structure Run where
  /-- `b - buf` -/
  b : ℕ
  len : ℤ
  xlation : List MarshalXlate
  writes : List Write

/-- a piece is copied, or there is no room for it -/
def copyPiece (r : Run) (p : Piece) : Except Run Run :=
  if (p.size : ℤ) > r.len then .error r
  else .ok ⟨r.b + p.size, r.len - p.size, r.xlation ++ [⟨p.start, p.start + p.size, p.start - r.b⟩], r.writes ++ [(r.b, p.size)]⟩

def copyPieces (r : Run) (ps : List Piece) : Except Run Run := ps.foldlM copyPiece r

/-- `m_magic` -/
def magicWrite : Write := (0, 4)

/-- where `m_ronly_heap[0].m_heap_len` is -/
def heapLenWrite : Write := (72, 4)

/-- `m_free_start`, `m_data_start`, `m_magic`, `m_writeable`, `m_size`, `m_next`, `m_free_size`, `m_read_write_heap`, `m_lost_string_space`, and
of the read-only heaps the start and the counter of the first one and the starts of the others -/
def headerWrites : List Write := [(8, 8), (16, 8), magicWrite, (28, 1), (24, 4), (32, 8), (40, 4), (48, 8), (128, 4), (64, 8), (56, 8), (88, 8), (112, 8)]

structure Marshalled where
  used : ℤ
  writes : List Write
  objs : List HdrHeapObjImpl

/-- the label `Failed` -/
def failed (writes : List Write) (objs : List HdrHeapObjImpl) : Marshalled := ⟨-1, writes ++ [magicWrite], objs⟩

/-- the loop over the objects, from a place in the buffer; the pointers of an object are written where it is -/
def marshalObjs (ptrXlate strXlate : List MarshalXlate) : ℕ → List HdrHeapObjImpl → Bool × List Write × List HdrHeapObjImpl
  | _, [] => (true, [], [])
  | b, o :: os =>
    match o.marshal ptrXlate strXlate with
    | none => (false, [(b, o.length)], [])
    | some o' =>
      let (ok, writes, os') := marshalObjs ptrXlate strXlate (b + o.length) os
      (ok, (b, o.length) :: writes, o' :: os')

def HdrHeap.marshal (heap : HdrHeap) (len : ℤ) : Marshalled :=
  match copyPieces ⟨HDR_HEAP_HDR_SIZE, len, [], []⟩ heap.ptrPieces with
  | .error r => failed r.writes []
  | .ok ptr =>
    match copyPieces ⟨ptr.b, ptr.len, [], ptr.writes ++ headerWrites⟩ heap.strPieces with
    | .error r => failed r.writes []
    | .ok str =>
      let (ok, writes, objs) := marshalObjs ptr.xlation str.xlation HDR_HEAP_HDR_SIZE heap.objs
      let writes := str.writes ++ heapLenWrite :: writes
      let ptrHeapSize := ptr.b - HDR_HEAP_HDR_SIZE
      let strSize := str.b - ptr.b
      if ok then ⟨ROUND (ptrHeapSize + strSize + HDR_HEAP_HDR_SIZE) HDR_PTR_SIZE, writes, objs⟩ else failed writes objs

/-- each byte that is written is in the buffer -/
def Within (len : ℤ) (w : Write) : Prop := ∀ i < w.2, ((w.1 + i : ℕ) : ℤ) < len

/-- no byte is written that is not in the buffer, and no more is said to be used -/
structure Stays (m : Marshalled) (len : ℤ) : Prop where
  used : m.used = -1 ∨ m.used ≤ len
  writes : ∀ w ∈ m.writes, Within len w

/-! ## What is copied -/

/-- pieces one behind the other -/
def placed : ℕ → List ℕ → List Write
  | _, [] => []
  | b, n :: ns => (b, n) :: placed (b + n) ns

/-- the pieces before the first that is longer than what is left -/
def fitting : ℤ → List ℕ → List ℕ
  | _, [] => []
  | len, n :: ns => if (n : ℤ) > len then [] else n :: fitting (len - n) ns

/-- the translation table of pieces that are one behind the other -/
def xlationFrom : ℕ → List Piece → List MarshalXlate
  | _, [] => []
  | b, p :: ps => ⟨p.start, p.start + p.size, p.start - b⟩ :: xlationFrom (b + p.size) ps

theorem within_range_iff {len : ℤ} {w : Write} : Within len w ↔ (w.2 ≠ 0 → ((w.1 + w.2 : ℕ) : ℤ) ≤ len) := by
  constructor
  · intro h hne
    have hlast := h (w.2 - 1) (Nat.sub_lt (Nat.pos_of_ne_zero hne) Nat.one_pos)
    omega
  · intro h i hi
    have hend := h (Nat.ne_zero_of_lt hi)
    omega

/-- of pieces one behind the other the end of the last one counts -/
theorem within_placed {len : ℤ} : ∀ (b : ℕ) (sizes : List ℕ),
    (∀ w ∈ placed b sizes, Within len w) ↔ (sizes.sum ≠ 0 → ((b + sizes.sum : ℕ) : ℤ) ≤ len)
  | b, [] => by simp [placed]
  | b, n :: ns => by
    rw [placed, List.forall_mem_cons, within_placed (b + n) ns, within_range_iff, List.sum_cons]
    constructor
    · rintro ⟨hfirst, hrest⟩ hne
      by_cases hzero : ns.sum = 0
      · rw [hzero, add_zero] at hne ⊢
        exact hfirst hne
      · have hend := hrest hzero
        rwa [add_assoc] at hend
    · intro h
      constructor
      · intro hne
        have hend := h (by omega)
        have hle : b + n ≤ b + (n + ns.sum) := by omega
        exact (Int.ofNat_le.mpr hle).trans hend
      · intro hne
        rw [add_assoc]
        exact h (by omega)

theorem fitting_append : ∀ (len : ℤ) (ns ms : List ℕ), fitting len ns = ns → fitting len (ns ++ ms) = ns ++ fitting (len - ns.sum) ms
  | len, [], ms, _ => by rw [List.nil_append, List.nil_append, List.sum_nil, Nat.cast_zero, sub_zero]
  | len, n :: ns, ms, h => by
    unfold fitting at h
    split_ifs at h with hlong
    rw [List.cons_append, fitting, if_neg hlong, fitting_append (len - n) ns ms (List.cons.inj h).2, List.cons_append, List.sum_cons, Nat.cast_add,
      sub_sub]

theorem fitting_append_of_ne : ∀ (len : ℤ) (ns ms : List ℕ), fitting len ns ≠ ns → fitting len (ns ++ ms) = fitting len ns
  | len, [], ms, h => absurd rfl h
  | len, n :: ns, ms, h => by
    rw [List.cons_append, fitting, fitting]
    split_ifs with hlong
    · rfl
    · refine congrArg (n :: ·) (fitting_append_of_ne (len - n) ns ms fun heq => h ?_)
      rw [fitting, if_neg hlong, heq]

theorem fitting_length_le : ∀ (len : ℤ) (ns : List ℕ), (fitting len ns).length ≤ ns.length
  | _, [] => le_rfl
  | len, n :: ns => by
    rw [fitting]
    split_ifs
    · exact Nat.zero_le _
    · exact Nat.succ_le_succ (fitting_length_le (len - n) ns)

theorem fitting_ne_append {len : ℤ} {ns ms : List ℕ} (h : fitting len ns ≠ ns) : fitting len ns ≠ ns ++ ms := by
  intro heq
  have hle := fitting_length_le len ns
  rw [heq, List.length_append] at hle
  have hnil : ms = [] := List.eq_nil_of_length_eq_zero (by omega)
  rw [hnil, List.append_nil] at heq
  exact h heq

/-- there is room for pieces that are not longer than the buffer together -/
theorem fitting_of_sum_le : ∀ (len : ℤ) (ns : List ℕ), (ns.sum : ℤ) ≤ len → fitting len ns = ns
  | _, [], _ => rfl
  | len, n :: ns, h => by
    rw [List.sum_cons, Nat.cast_add] at h
    have hn : ¬ (n : ℤ) > len := by linarith [Int.natCast_nonneg ns.sum]
    rw [fitting, if_neg hn, fitting_of_sum_le (len - n) ns (by linarith)]

/-- the pieces that fit are copied one behind the other, and it fails at the first one that does not -/
theorem copyPieces_spec : ∀ (ps : List Piece) (r : Run),
    (fitting r.len (ps.map Piece.size) = ps.map Piece.size ∧ copyPieces r ps = .ok ⟨r.b + (ps.map Piece.size).sum,
      r.len - (ps.map Piece.size).sum, r.xlation ++ xlationFrom r.b ps, r.writes ++ placed r.b (ps.map Piece.size)⟩) ∨
    (fitting r.len (ps.map Piece.size) ≠ ps.map Piece.size ∧ ∃ r', copyPieces r ps = .error r' ∧
      r'.writes = r.writes ++ placed r.b (fitting r.len (ps.map Piece.size)))
  | [], r => by
    refine .inl ⟨rfl, ?_⟩
    simp [copyPieces, xlationFrom, placed, pure, Except.pure]
  | p :: ps, r => by
    by_cases hlong : (p.size : ℤ) > r.len
    · have hcopy : copyPieces r (p :: ps) = .error r := by
        rw [copyPieces, List.foldlM_cons, copyPiece, if_pos hlong]
        rfl
      have hfitting : fitting r.len ((p :: ps).map Piece.size) = [] := by rw [List.map_cons, fitting, if_pos hlong]
      refine .inr ⟨?_, r, hcopy, ?_⟩
      · rw [hfitting, List.map_cons]
        exact nofun
      · rw [hfitting, placed, List.append_nil]
    · obtain ⟨r₁, hr₁⟩ : ∃ r₁ : Run, r₁ = ⟨r.b + p.size, r.len - p.size, r.xlation ++ [⟨p.start, p.start + p.size, p.start - r.b⟩],
        r.writes ++ [(r.b, p.size)]⟩ := ⟨_, rfl⟩
      have hcopy : copyPieces r (p :: ps) = copyPieces r₁ ps := by
        rw [copyPieces, List.foldlM_cons, copyPiece, if_neg hlong, hr₁]
        rfl
      have hfitting : fitting r.len ((p :: ps).map Piece.size) = p.size :: fitting r₁.len (ps.map Piece.size) := by
        rw [List.map_cons, fitting, if_neg hlong, hr₁]
      rw [hcopy, hfitting, List.map_cons, List.sum_cons]
      rcases copyPieces_spec ps r₁ with ⟨hfit, hok⟩ | ⟨hfit, r', herror, hwrites⟩
      · refine .inl ⟨by rw [hfit], ?_⟩
        rw [hok, hr₁]
        simp [xlationFrom, placed, add_assoc, sub_sub]
      · refine .inr ⟨fun heq => hfit (List.cons.inj heq).2, r', herror, ?_⟩
        rw [hwrites, hr₁, placed, List.append_assoc, List.singleton_append]

theorem placed_append : ∀ (b : ℕ) (ns ms : List ℕ), placed b (ns ++ ms) = placed b ns ++ placed (b + ns.sum) ms
  | b, [], ms => rfl
  | b, n :: ns, ms => by
    rw [List.cons_append, placed, placed, placed_append (b + n) ns ms, List.cons_append, List.sum_cons, add_assoc]

theorem fitting_append_eq_iff {len : ℤ} {ns ms : List ℕ} :
    fitting len (ns ++ ms) = ns ++ ms ↔ fitting len ns = ns ∧ fitting (len - ns.sum) ms = ms := by
  constructor
  · intro h
    by_cases hns : fitting len ns = ns
    · rw [fitting_append len ns ms hns] at h
      exact ⟨hns, List.append_cancel_left h⟩
    · rw [fitting_append_of_ne len ns ms hns] at h
      exact absurd h (fitting_ne_append hns)
  · rintro ⟨hns, hms⟩
    rw [fitting_append len ns ms hns, hms]

/-! ## The objects -/

theorem marshalObjs_writes {ptrXlate strXlate : List MarshalXlate} : ∀ (b : ℕ) (os : List HdrHeapObjImpl),
    ∀ w ∈ (marshalObjs ptrXlate strXlate b os).2.1, b ≤ w.1 ∧ w.1 + w.2 ≤ b + (os.map HdrHeapObjImpl.length).sum ∧ 0 < w.2
  | _, [] => fun w hw => absurd hw List.not_mem_nil
  | b, o :: os => by
    intro w hw
    rw [marshalObjs] at hw
    rw [List.map_cons, List.sum_cons, ← add_assoc]
    cases hmarshal : o.marshal ptrXlate strXlate with
    | none =>
      rw [hmarshal] at hw
      obtain rfl := List.mem_singleton.mp hw
      exact ⟨le_rfl, Nat.le_add_right _ _, o.pos⟩
    | some o' =>
      rw [hmarshal] at hw
      rcases List.mem_cons.mp hw with rfl | hmem
      · exact ⟨le_rfl, Nat.le_add_right _ _, o.pos⟩
      · obtain ⟨hle, hrest⟩ := marshalObjs_writes (b + o.length) os w hmem
        exact ⟨(Nat.le_add_right _ _).trans hle, hrest⟩

theorem le_round (n : ℕ) : n ≤ ROUND n HDR_PTR_SIZE := by
  simp only [ROUND, HDR_PTR_SIZE]
  omega

namespace HdrHeap

variable (heap : HdrHeap)

def ptrSizes : List ℕ := heap.ptrPieces.map Piece.size

def strSizes : List ℕ := heap.strPieces.map Piece.size

/-- the bytes that are copied to a buffer of a length -/
def copied (len : ℤ) : ℕ := (fitting len (heap.ptrSizes ++ heap.strSizes)).sum

/-- each pointer that is translated is into one of the pieces -/
def translates : Bool :=
  (marshalObjs (xlationFrom HDR_HEAP_HDR_SIZE heap.ptrPieces) (xlationFrom (HDR_HEAP_HDR_SIZE + heap.ptrSizes.sum) heap.strPieces)
    HDR_HEAP_HDR_SIZE heap.objs).1

theorem sum_ptrSizes : heap.ptrSizes.sum = (heap.objs.map HdrHeapObjImpl.length).sum := by
  have hblock : ∀ h : HdrHeapBlock, h.piece.size = (h.objs.map HdrHeapObjImpl.length).sum := by
    intro h
    rw [HdrHeapBlock.piece, h.tiled, Nat.add_sub_cancel_left]
  rw [ptrSizes, ptrPieces, objs, List.map_map, List.map_flatMap, List.flatMap_def, List.sum_flatten, List.map_map]
  exact congrArg List.sum (List.map_congr_left fun h _ => hblock h)

end HdrHeap

/-- the buffer has room for what is written: for the mark of a failure, for the pieces that are copied behind the place of the header, for the
header if the objects are copied, and for what is said to be used if all is -/
structure HasRoom (heap : HdrHeap) (len : ℤ) : Prop where
  magic : 4 ≤ len
  copied : heap.copied len ≠ 0 → ((HDR_HEAP_HDR_SIZE + heap.copied len : ℕ) : ℤ) ≤ len
  header : fitting len heap.ptrSizes = heap.ptrSizes → 132 ≤ len
  used : fitting len (heap.ptrSizes ++ heap.strSizes) = heap.ptrSizes ++ heap.strSizes → heap.translates = true → (heap.marshalLength : ℤ) ≤ len

theorem within_magicWrite {len : ℤ} : Within len magicWrite ↔ 4 ≤ len := by
  rw [within_range_iff]
  exact ⟨fun h => h (by decide), fun h _ => h⟩

theorem within_headerWrites {len : ℤ} : (∀ w ∈ headerWrites, Within len w) ↔ 132 ≤ len := by
  constructor
  · intro h
    have hlost : ((128, 4) : Write) ∈ headerWrites := by decide
    exact within_range_iff.mp (h _ hlost) (by decide)
  · intro hlen w hw
    have hend : w.1 + w.2 ≤ 132 := (by decide : ∀ w ∈ headerWrites, w.1 + w.2 ≤ 132) w hw
    exact within_range_iff.mpr fun _ => by omega

theorem stays_failed {writes : List Write} {objs : List HdrHeapObjImpl} {len : ℤ} :
    Stays (failed writes objs) len ↔ (∀ w ∈ writes, Within len w) ∧ 4 ≤ len := by
  constructor
  · rintro ⟨-, hwrites⟩
    rw [failed, List.forall_mem_append] at hwrites
    exact ⟨hwrites.1, within_magicWrite.mp (hwrites.2 _ List.mem_cons_self)⟩
  · rintro ⟨hwrites, hlen⟩
    refine ⟨.inl rfl, ?_⟩
    rw [failed, List.forall_mem_append, List.forall_mem_singleton]
    exact ⟨hwrites, within_magicWrite.mpr hlen⟩

section Copied

variable {heap : HdrHeap} {len : ℤ}

/-- the blocks do not fit -/
theorem marshal_stays_of_blocks (hptr : fitting len heap.ptrSizes ≠ heap.ptrSizes) : Stays (heap.marshal len) len ↔ HasRoom heap len := by
  rcases copyPieces_spec heap.ptrPieces ⟨HDR_HEAP_HDR_SIZE, len, [], []⟩ with ⟨hfit, -⟩ | ⟨-, r, herror, hwrites⟩
  · exact absurd hfit hptr
  · rw [HdrHeap.marshal, herror]
    dsimp only
    rw [stays_failed, hwrites, List.nil_append, within_placed]
    have hcopied : heap.copied len = (fitting len heap.ptrSizes).sum := by rw [HdrHeap.copied, fitting_append_of_ne len _ _ hptr]
    constructor
    · rintro ⟨hend, hmagic⟩
      refine ⟨hmagic, ?_, fun heq => absurd heq hptr, fun heq => absurd (fitting_append_eq_iff.mp heq).1 hptr⟩
      rw [hcopied]
      exact hend
    · rintro ⟨hmagic, hend, -, -⟩
      rw [hcopied] at hend
      exact ⟨hend, hmagic⟩

section Blocks

variable (hptr : fitting len heap.ptrSizes = heap.ptrSizes)

include hptr

/-- the blocks fit: they are copied, and the strings behind them -/
theorem within_copied : ((∀ w ∈ placed HDR_HEAP_HDR_SIZE heap.ptrSizes, Within len w) ∧
    ∀ w ∈ placed (HDR_HEAP_HDR_SIZE + heap.ptrSizes.sum) (fitting (len - heap.ptrSizes.sum) heap.strSizes), Within len w) ↔
      (heap.copied len ≠ 0 → ((HDR_HEAP_HDR_SIZE + heap.copied len : ℕ) : ℤ) ≤ len) := by
  rw [← List.forall_mem_append, ← placed_append, HdrHeap.copied, fitting_append len _ _ hptr]
  exact within_placed _ _

theorem copyPieces_ptr : copyPieces ⟨HDR_HEAP_HDR_SIZE, len, [], []⟩ heap.ptrPieces = .ok ⟨HDR_HEAP_HDR_SIZE + heap.ptrSizes.sum,
    len - heap.ptrSizes.sum, xlationFrom HDR_HEAP_HDR_SIZE heap.ptrPieces, placed HDR_HEAP_HDR_SIZE heap.ptrSizes⟩ := by
  rcases copyPieces_spec heap.ptrPieces ⟨HDR_HEAP_HDR_SIZE, len, [], []⟩ with ⟨-, hok⟩ | ⟨hfit, -⟩
  · exact hok
  · exact absurd hptr hfit

/-- a string heap does not fit -/
theorem marshal_stays_of_strings (hstr : fitting (len - heap.ptrSizes.sum) heap.strSizes ≠ heap.strSizes) :
    Stays (heap.marshal len) len ↔ HasRoom heap len := by
  rcases copyPieces_spec heap.strPieces ⟨HDR_HEAP_HDR_SIZE + heap.ptrSizes.sum, len - heap.ptrSizes.sum, [],
    placed HDR_HEAP_HDR_SIZE heap.ptrSizes ++ headerWrites⟩ with ⟨hfit, -⟩ | ⟨-, r, herror, hwrites⟩
  · exact absurd hfit hstr
  · rw [HdrHeap.marshal, copyPieces_ptr hptr]
    dsimp only
    rw [herror]
    dsimp only
    rw [stays_failed, hwrites, List.forall_mem_append, List.forall_mem_append, within_headerWrites]
    constructor
    · rintro ⟨⟨⟨hblocks, hheader⟩, hstrings⟩, hmagic⟩
      exact ⟨hmagic, (within_copied hptr).mp ⟨hblocks, hstrings⟩, fun _ => hheader, fun heq => absurd (fitting_append_eq_iff.mp heq).2 hstr⟩
    · rintro ⟨hmagic, hcopied, hheader, -⟩
      obtain ⟨hblocks, hstrings⟩ := (within_copied hptr).mpr hcopied
      exact ⟨⟨⟨hblocks, hheader hptr⟩, hstrings⟩, hmagic⟩

/-- the objects are written where they have been copied to -/
theorem within_objs {ptrXlate strXlate : List MarshalXlate} (hend : heap.copied len ≠ 0 → ((HDR_HEAP_HDR_SIZE + heap.copied len : ℕ) : ℤ) ≤ len) :
    ∀ w ∈ (marshalObjs ptrXlate strXlate HDR_HEAP_HDR_SIZE heap.objs).2.1, Within len w := by
  intro w hw
  obtain ⟨hle, hwend, hpos⟩ := marshalObjs_writes HDR_HEAP_HDR_SIZE heap.objs w hw
  rw [← heap.sum_ptrSizes] at hwend
  have hcopied : heap.ptrSizes.sum ≤ heap.copied len := by
    rw [HdrHeap.copied, fitting_append len _ _ hptr, List.sum_append]
    exact Nat.le_add_right _ _
  have hne : heap.copied len ≠ 0 := by omega
  have hlen := hend hne
  exact within_range_iff.mpr fun _ => by omega

/-- all is copied -/
theorem within_writes (hstr : fitting (len - heap.ptrSizes.sum) heap.strSizes = heap.strSizes) {ptrXlate strXlate : List MarshalXlate} :
    (∀ w ∈ placed HDR_HEAP_HDR_SIZE heap.ptrSizes ++ headerWrites ++ placed (HDR_HEAP_HDR_SIZE + heap.ptrSizes.sum) heap.strSizes ++
      heapLenWrite :: (marshalObjs ptrXlate strXlate HDR_HEAP_HDR_SIZE heap.objs).2.1, Within len w) ↔
      (heap.copied len ≠ 0 → ((HDR_HEAP_HDR_SIZE + heap.copied len : ℕ) : ℤ) ≤ len) ∧ 132 ≤ len := by
  rw [List.forall_mem_append, List.forall_mem_append, List.forall_mem_append, List.forall_mem_cons, within_headerWrites, ← within_copied hptr, hstr]
  constructor
  · rintro ⟨⟨⟨hblocks, hheader⟩, hstrings⟩, -⟩
    exact ⟨⟨hblocks, hstrings⟩, hheader⟩
  · rintro ⟨⟨hblocks, hstrings⟩, hheader⟩
    refine ⟨⟨⟨hblocks, hheader⟩, hstrings⟩, ?_, within_objs hptr ((within_copied hptr).mp ⟨hblocks, hstr.symm ▸ hstrings⟩)⟩
    exact within_range_iff.mpr fun _ => (show ((76 : ℕ) : ℤ) ≤ 132 by decide).trans hheader

theorem marshal_stays_of_objects (hstr : fitting (len - heap.ptrSizes.sum) heap.strSizes = heap.strSizes) :
    Stays (heap.marshal len) len ↔ HasRoom heap len := by
  rcases copyPieces_spec heap.strPieces ⟨HDR_HEAP_HDR_SIZE + heap.ptrSizes.sum, len - heap.ptrSizes.sum, [],
    placed HDR_HEAP_HDR_SIZE heap.ptrSizes ++ headerWrites⟩ with ⟨-, hok⟩ | ⟨hfit, -⟩
  · have hfit : fitting len (heap.ptrSizes ++ heap.strSizes) = heap.ptrSizes ++ heap.strSizes := fitting_append_eq_iff.mpr ⟨hptr, hstr⟩
    have hlength : ROUND (HDR_HEAP_HDR_SIZE + heap.ptrSizes.sum - HDR_HEAP_HDR_SIZE + (HDR_HEAP_HDR_SIZE + heap.ptrSizes.sum + heap.strSizes.sum -
        (HDR_HEAP_HDR_SIZE + heap.ptrSizes.sum)) + HDR_HEAP_HDR_SIZE) HDR_PTR_SIZE = heap.marshalLength := by
      rw [HdrHeap.marshalLength, Nat.add_sub_cancel_left, Nat.add_sub_cancel_left, add_comm _ HDR_HEAP_HDR_SIZE, ← add_assoc]
      rfl
    have htranslates : (marshalObjs (xlationFrom HDR_HEAP_HDR_SIZE heap.ptrPieces)
        (xlationFrom (HDR_HEAP_HDR_SIZE + heap.ptrSizes.sum) heap.strPieces) HDR_HEAP_HDR_SIZE heap.objs).1 = heap.translates := rfl
    rw [HdrHeap.marshal, copyPieces_ptr hptr]
    dsimp only
    rw [hok]
    dsimp only
    rw [List.nil_append, htranslates]
    change Stays (if _ then ⟨(ROUND (_ + (HDR_HEAP_HDR_SIZE + heap.ptrSizes.sum + heap.strSizes.sum - _) + _) _ : ℕ), _, _⟩ else _) len ↔ _
    rw [hlength]
    cases hall : heap.translates with
    | false =>
      rw [if_neg Bool.false_ne_true, stays_failed]
      constructor
      · rintro ⟨hwrites, hmagic⟩
        obtain ⟨hcopied, hheader⟩ := (within_writes hptr hstr).mp hwrites
        exact ⟨hmagic, hcopied, fun _ => hheader, fun _ htrue => absurd (hall.symm.trans htrue) Bool.false_ne_true⟩
      · rintro ⟨hmagic, hcopied, hheader, -⟩
        exact ⟨(within_writes hptr hstr).mpr ⟨hcopied, hheader hptr⟩, hmagic⟩
    | true =>
      rw [if_pos rfl]
      constructor
      · rintro ⟨hused, hwrites⟩
        obtain ⟨hcopied, hheader⟩ := (within_writes hptr hstr).mp hwrites
        refine ⟨le_trans (by decide) hheader, hcopied, fun _ => hheader, fun _ _ => ?_⟩
        rcases hused with hminus | hle
        · exact absurd hminus (Int.natCast_nonneg _ |>.trans_lt' (by decide)).ne'
        · exact hle
      · rintro ⟨-, hcopied, hheader, hused⟩
        exact ⟨.inr (hused hfit hall), (within_writes hptr hstr).mpr ⟨hcopied, hheader hptr⟩⟩
  · exact absurd hstr hfit

end Blocks

end Copied

/-- nothing is written behind the buffer if and only if there is room -/
theorem marshal_stays_iff (heap : HdrHeap) (len : ℤ) : Stays (heap.marshal len) len ↔ HasRoom heap len := by
  by_cases hptr : fitting len heap.ptrSizes = heap.ptrSizes
  · by_cases hstr : fitting (len - heap.ptrSizes.sum) heap.strSizes = heap.strSizes
    · exact marshal_stays_of_objects hptr hstr
    · exact marshal_stays_of_strings hptr hstr
  · exact marshal_stays_of_blocks hptr

/-- a buffer that is as long as `marshal_length` has said is long enough -/
theorem marshal_marshalLength (heap : HdrHeap) {len : ℤ} (hlen : heap.marshalLength ≤ len) : Stays (heap.marshal len) len := by
  have hround : HDR_HEAP_HDR_SIZE + heap.ptrSizes.sum + heap.strSizes.sum ≤ heap.marshalLength := le_round _
  have hhdr : HDR_HEAP_HDR_SIZE = 136 := rfl
  have hfit : fitting len (heap.ptrSizes ++ heap.strSizes) = heap.ptrSizes ++ heap.strSizes := by
    apply fitting_of_sum_le
    rw [List.sum_append]
    omega
  have hcopied : heap.copied len = heap.ptrSizes.sum + heap.strSizes.sum := by rw [HdrHeap.copied, hfit, List.sum_append]
  refine (marshal_stays_iff heap len).mpr ⟨by omega, fun _ => ?_, fun _ => by omega, fun _ _ => hlen⟩
  rw [hcopied]
  omega

/-- one object of 160 bytes -/
def oneObject : HdrHeap := ⟨⟨1000, 1160, [⟨.raw, 160, Nat.succ_pos 159⟩], rfl⟩, [], none, fun _ => ⟨none, 0⟩⟩

theorem marshal_marshalLength_oneObject : Stays (oneObject.marshal 296) 296 := marshal_marshalLength oneObject (by decide)

/-- it is copied to a buffer of 160 bytes, and to the 136 bytes behind it -/
theorem written_behind : ((136, 160) : Write) ∈ (oneObject.marshal 160).writes ∧ (oneObject.marshal 160).used = 296 ∧ ¬ Stays (oneObject.marshal 160) 160 := by
  have hused : (oneObject.marshal 160).used = 296 := by decide
  refine ⟨by decide, hused, fun h => ?_⟩
  rcases h.used with hminus | hle
  · exact absurd (hminus.symm.trans hused) (by decide)
  · exact absurd (hused ▸ hle) (by decide)

end TrafficServer.Hdrs.HeapMarshal
