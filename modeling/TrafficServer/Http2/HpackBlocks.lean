/-
The block encoder of HPACK (`hpack_encode_header_block` and `HpackIndexingTable::lookup` in `proxy/http2/HPACK.cc`), and the header blocks
of a connection from one end to the other.

The fields of a header are looked up in the tables one after the other. A field that is there goes out as an index, another one as a literal,
with the index of its name where the name is there. Names are compared without case and go out in lower case, but a field goes into the
table as it is, so the table of the decoder is that of the encoder with the names in lower case (`lowerTable`).

`header_blocks_arrive`: as long as the encoder has room and the Huffman codes of the strings come back, each header of a connection arrives
as it was, with the names in lower case, and the two tables stay in step, over any number of headers and of changes of the size of the table.
-/
import TrafficServer.Http2.HpackDecode

namespace TrafficServer.Http2.Hpack

open TrafficServer.Http2.Huffman TrafficServer.Hdrs.UrlHash TrafficServer.Run

/-! ## The encoder -/

inductive HpackMatch where
  | none
  | name
  | exact
deriving DecidableEq

/-- an index of 0 is none -/
structure HpackLookupResult where
  index : ℕ
  matchType : HpackMatch

/-- the two strings have the same letters in the same places, whatever the case (`ptr_len_casecmp`) -/
def ptrLenCasecmp (p q : List (BitVec 8)) : Bool := p.map inkTolower == q.map inkTolower

/-- the name and the value of an index -/
def entryAt (t : HpackDynamicTable) (index : ℕ) : List (BitVec 8) × List (BitVec 8) :=
  if index < TS_HPACK_STATIC_TABLE_ENTRY_NUM then
    let entry := STATIC_TABLE.getD index ("", "")
    (Hex.ascii entry.1, Hex.ascii entry.2)
  else
    let mField := (t.getHeaderField (index - TS_HPACK_STATIC_TABLE_ENTRY_NUM)).getD Field.empty
    (mField.name, mField.value)

/-- the first entry with this name and value, or else the first one with the name -/
def lookupLoop (t : HpackDynamicTable) (header : Field) : List ℕ → HpackLookupResult → HpackLookupResult
  | [], result => result
  | index :: l, result =>
    if ptrLenCasecmp header.name (entryAt t index).1 then
      if header.value = (entryAt t index).2 then ⟨index, .exact⟩
      else lookupLoop t header l (if result.index = 0 then ⟨index, .name⟩ else result)
    else lookupLoop t header l result

/-- one more than the last index -/
def entryNum (t : HpackDynamicTable) : ℕ := (TS_HPACK_STATIC_TABLE_ENTRY_NUM + t.length) % 2 ^ 32

def lookup (t : HpackDynamicTable) (header : Field) : HpackLookupResult :=
  lookupLoop t header (List.range' 1 (entryNum t - 1)) ⟨0, .none⟩

def encodeIndexedHeaderField (size : ℕ) (index : BitVec 32) : Encoded :=
  if 0 ≥ size then ⟨[], -1⟩
  else
    let len := encodeInteger size index 7
    if len.ret = -1 then len
    else if 1 ≥ size then ⟨len.bytes, -1⟩
    else ⟨orFirst 0x80 len.bytes, (orFirst 0x80 len.bytes).length⟩

def encodeDynamicTableSizeUpdate (size : ℕ) (newSize : BitVec 32) : Encoded :=
  let len := encodeInteger size newSize 5
  if len.ret = -1 then len else ⟨orFirst 0x20 len.bytes, len.ret⟩

/-- a short `Cookie` and an `Authorization` are not for the tables -/
def fieldType (header : Field) : HpackField :=
  if (ptrLenCasecmp header.name (Hex.ascii "Cookie") ∧ header.value.length < 20) ∨ ptrLenCasecmp header.name (Hex.ascii "Authorization") then
    .neverindexLiteral
  else .indexedLiteral

/-- one field, in what is left of the buffer -/
def encodeHeaderField (size : ℕ) (t : HpackDynamicTable) (header : Field) : HpackDynamicTable × Encoded :=
  let result := lookup t header
  match result.matchType with
  | .none => encodeLiteralHeaderFieldWithNewName size header t (fieldType header)
  | .name => encodeLiteralHeaderFieldWithIndexedName size header (BitVec.ofNat 32 result.index) t (fieldType header)
  | .exact => (t, encodeIndexedHeaderField size (BitVec.ofNat 32 result.index))

/-- the fields one after the other, behind what has been written -/
def encodeHeaderFields (size : ℕ) (t : HpackDynamicTable) (out : List (BitVec 8)) : List Field → HpackDynamicTable × Encoded
  | [] => (t, ⟨out, out.length⟩)
  | header :: l =>
    let written := encodeHeaderField (size - out.length) t header
    if written.2.ret = HPACK_ERROR_COMPRESSION_ERROR then (written.1, ⟨out ++ written.2.bytes, HPACK_ERROR_COMPRESSION_ERROR⟩)
    else encodeHeaderFields size written.1 (out ++ written.2.bytes) l

/-- a size of the table that is negative is none -/
def hpackEncodeHeaderBlock (t : HpackDynamicTable) (size : ℕ) (hdr : List Field) (maximumTableSize : BitVec 32) :
    HpackDynamicTable × Encoded :=
  if maximumTableSize.toInt ≥ 0 then
    let t := (t.updateMaximumSize maximumTableSize).1
    let written := encodeDynamicTableSizeUpdate size maximumTableSize
    if written.ret = HPACK_ERROR_COMPRESSION_ERROR then (t, ⟨written.bytes, HPACK_ERROR_COMPRESSION_ERROR⟩)
    else encodeHeaderFields size t written.bytes hdr
  else encodeHeaderFields size t [] hdr

/-! ## What is looked up -/

/-- what is found is an entry with this name, and with this value too where the match is exact -/
def Found (t : HpackDynamicTable) (header : Field) (result : HpackLookupResult) : Prop :=
  result.matchType ≠ .none → 1 ≤ result.index ∧ result.index < entryNum t ∧
    ptrLenCasecmp header.name (entryAt t result.index).1 = true ∧
      (result.matchType = .exact → header.value = (entryAt t result.index).2)

theorem found_lookupLoop {t : HpackDynamicTable} {header : Field} {l : List ℕ} {result : HpackLookupResult}
    (hl : ∀ index ∈ l, 1 ≤ index ∧ index < entryNum t) (h : Found t header result) : Found t header (lookupLoop t header l result) := by
  induction l generalizing result with
  | nil => exact h
  | cons index l ih =>
    obtain ⟨⟨hone, hlt⟩, hrest⟩ := List.forall_mem_cons.mp hl
    rw [lookupLoop]
    by_cases hname : ptrLenCasecmp header.name (entryAt t index).1 = true
    · rw [if_pos hname]
      by_cases hvalue : header.value = (entryAt t index).2
      · rw [if_pos hvalue]
        exact fun _ => ⟨hone, hlt, hname, fun _ => hvalue⟩
      · rw [if_neg hvalue]
        refine ih hrest ?_
        split_ifs
        · exact fun _ => ⟨hone, hlt, hname, nofun⟩
        · exact h
    · rw [if_neg hname]
      exact ih hrest h

theorem found_lookup (t : HpackDynamicTable) (header : Field) : Found t header (lookup t header) := by
  refine found_lookupLoop (fun index hindex => ?_) fun hnone => absurd rfl hnone
  rw [List.mem_range'_1] at hindex
  omega

/-! ## The two tables -/

theorem toNat_lower {b : BitVec 8} (h : b.toNat ≤ 0x5a) : (b + 0x20).toNat = b.toNat + 32 := by
  have hbit : (0x20 : BitVec 8).toNat = 32 := rfl
  rw [BitVec.toNat_add, hbit]
  omega

theorem not_upper_inkTolower (b : BitVec 8) : isUpalpha (inkTolower b) = false := by
  unfold isUpalpha inkTolower
  by_cases hupper : 0x41 ≤ b.toNat ∧ b.toNat ≤ 0x5a
  · have hlow := toNat_lower hupper.2
    rw [if_pos hupper, decide_eq_false (by omega)]
  · rw [if_neg hupper, decide_eq_false hupper]

/-- the field that arrives -/
def lowerField (f : Field) : Field := { f with name := lowerName f, name_lt := lt_of_eq_of_lt (List.length_map inkTolower) f.name_lt }

theorem size_lowerField (f : Field) : (lowerField f).size = f.size := by
  simp [Field.size, lowerField, lowerName]

theorem total_map_lowerField (l : List Field) : total (l.map lowerField) = total l := by
  simp [total, Function.comp_def, size_lowerField]

theorem fit_map_lowerField (m : ℕ) (l : List Field) : fit m (l.map lowerField) = (fit m l).map lowerField := by
  induction l generalizing m with
  | nil => rfl
  | cons f l ih =>
    rw [List.map_cons, fit, fit, size_lowerField, ih]
    split_ifs <;> rfl

/-- the table of the decoder for one of the encoder -/
def lowerTable (t : HpackDynamicTable) : HpackDynamicTable := { t with headers := t.headers.map lowerField }

/-- the recorded size is that of the entries, and no sum of 32 bits wraps -/
structure Sized (t : HpackDynamicTable) : Prop where
  size_eq : t.currentSize = total t.headers
  size_le : t.currentSize ≤ t.maximumSize
  maximum_lt : t.maximumSize < 2 ^ 31

theorem Sized.lower {t : HpackDynamicTable} (h : Sized t) : Sized (lowerTable t) :=
  ⟨h.size_eq.trans (total_map_lowerField t.headers).symm, h.size_le, h.maximum_lt⟩

theorem Sized.addOk {t : HpackDynamicTable} (h : Sized t) (f : Field) : f.size ≤ t.maximumSize → t.currentSize + f.size < 2 ^ 32 := by
  intro _
  have hf := f.size_lt
  have hle := h.size_le
  have hlt := h.maximum_lt
  omega

theorem Sized.addHeaderField {t : HpackDynamicTable} (h : Sized t) (f : Field) : Sized (t.addHeaderField f) := by
  rw [addHeaderField_eq h.size_eq (h.addOk f)]
  exact ⟨rfl, total_fit _ _, h.maximum_lt⟩

theorem Sized.lower_addHeaderField {t : HpackDynamicTable} (h : Sized t) (f : Field) :
    (lowerTable t).addHeaderField (lowerField f) = lowerTable (t.addHeaderField f) := by
  rw [addHeaderField_eq h.size_eq (h.addOk f), addHeaderField_eq h.lower.size_eq (h.lower.addOk _)]
  simp only [lowerTable, ← List.map_cons, fit_map_lowerField, total_map_lowerField]

theorem Sized.updateMaximumSize {t : HpackDynamicTable} (h : Sized t) {n : BitVec 32} (hn : n.toNat < 2 ^ 31) :
    Sized (t.updateMaximumSize n).1 := by
  have hlt : t.currentSize < 2 ^ 32 := lt_of_le_of_lt h.size_le (h.maximum_lt.trans (by decide))
  rw [updateMaximumSize_eq h.size_eq hlt]
  exact ⟨rfl, total_fit _ _, hn⟩

theorem Sized.lower_updateMaximumSize {t : HpackDynamicTable} (h : Sized t) (n : BitVec 32) :
    (lowerTable t).updateMaximumSize n = (lowerTable (t.updateMaximumSize n).1, true) := by
  have hlt : t.currentSize < 2 ^ 32 := lt_of_le_of_lt h.size_le (h.maximum_lt.trans (by decide))
  rw [updateMaximumSize_eq h.size_eq hlt, updateMaximumSize_eq h.lower.size_eq hlt]
  simp only [lowerTable, fit_map_lowerField, total_map_lowerField]

/-- the names of the static table are in lower case, and short -/
theorem static_lower : ∀ entry ∈ STATIC_TABLE, (Hex.ascii entry.1).map inkTolower = Hex.ascii entry.1 ∧
    (Hex.ascii entry.1).length < 2 ^ 16 ∧ (Hex.ascii entry.2).length < 2 ^ 24 := by
  decide

theorem entry_lt {t : HpackDynamicTable} (h : Sized t) : entryNum t = TS_HPACK_STATIC_TABLE_ENTRY_NUM + t.length := by
  have htotal := length_le_total t.headers
  have hsize := h.size_eq
  have hle := h.size_le
  have hlt := h.maximum_lt
  refine Nat.mod_eq_of_lt ?_
  show 62 + t.headers.length < 2 ^ 32
  omega

theorem take_mod {l : List (BitVec 8)} {n : ℕ} (h : l.length < 2 ^ n) : l.take (l.length % 2 ^ n) = l := by
  rw [Nat.mod_eq_of_lt h, List.take_length]

theorem valueSet_lowerField {f header : Field} (hname : f.name = lowerName header) : f.valueSet header.value = lowerField header := by
  have hall := take_mod header.value_lt
  unfold Field.valueSet lowerField
  simp only [hname, hall]

/-- the decoder finds the entry of the encoder, with its name in lower case -/
theorem getHeaderField_lower {t : HpackDynamicTable} (h : Sized t) {index : ℕ} (hone : 1 ≤ index) (hlt : index < entryNum t) :
    ∃ field, getHeaderField (lowerTable t) (BitVec.ofNat 32 index) Field.empty = (0, field) ∧
      field.name = (entryAt t index).1.map inkTolower ∧ field.value = (entryAt t index).2 := by
  have hnum := entry_lt h
  have hindex : (BitVec.ofNat 32 index).toNat = index := by
    rw [BitVec.toNat_ofNat]
    exact Nat.mod_eq_of_lt (lt_trans hlt (Nat.mod_lt _ (Nat.two_pow_pos 32)))
  have hne : BitVec.ofNat 32 index ≠ 0 := fun hzero => by
    rw [hzero] at hindex
    exact absurd hindex (Nat.ne_of_lt hone)
  have hset : ∀ {name value : List (BitVec 8)}, name.length < 2 ^ 16 → value.length < 2 ^ 24 →
      ((Field.empty.nameSet name).valueSet value).name = name ∧ ((Field.empty.nameSet name).valueSet value).value = value := by
    intro name value hname hvalue
    exact ⟨take_mod hname, take_mod hvalue⟩
  rw [getHeaderField, if_neg hne, hindex, entryAt]
  by_cases hstatic : index < TS_HPACK_STATIC_TABLE_ENTRY_NUM
  · rw [if_pos hstatic, if_pos hstatic]
    have hentry : STATIC_TABLE.getD index ("", "") ∈ STATIC_TABLE := by
      rw [List.getD_eq_getElem _ _ (by exact hstatic)]
      exact List.getElem_mem _
    obtain ⟨hlower, hname, hvalue⟩ := static_lower _ hentry
    exact ⟨_, rfl, by rw [(hset hname hvalue).1, hlower], (hset hname hvalue).2⟩
  · rw [if_neg hstatic, if_neg hstatic, if_pos (by rw [← entryNum] at *; simpa [entryNum, lowerTable, HpackDynamicTable.length] using hlt)]
    have hat : index - TS_HPACK_STATIC_TABLE_ENTRY_NUM < t.headers.length := by
      rw [hnum] at hlt
      unfold HpackDynamicTable.length at hlt
      omega
    have hget : (lowerTable t).getHeaderField (index - TS_HPACK_STATIC_TABLE_ENTRY_NUM) =
        some (lowerField t.headers[index - TS_HPACK_STATIC_TABLE_ENTRY_NUM]) := by
      simp [HpackDynamicTable.getHeaderField, lowerTable, hat]
    have hget' : t.getHeaderField (index - TS_HPACK_STATIC_TABLE_ENTRY_NUM) = some t.headers[index - TS_HPACK_STATIC_TABLE_ENTRY_NUM] :=
      List.getElem?_eq_getElem hat
    rw [hget, hget']
    have hboth := hset (lowerField t.headers[index - TS_HPACK_STATIC_TABLE_ENTRY_NUM]).name_lt
      (lowerField t.headers[index - TS_HPACK_STATIC_TABLE_ENTRY_NUM]).value_lt
    exact ⟨_, rfl, hboth.1, hboth.2⟩

/-! ## What is written is read -/

theorem encodeInteger_ok {n size : ℕ} (hn : n ≤ 8) {v : BitVec 32} (h : (encodeInteger size v n).ret ≠ -1) :
    encodeInteger size v n = ⟨encoding n v.toNat, (encoding n v.toNat).length⟩ := by
  obtain ⟨hfits, hfails, -⟩ := encodeInteger_eq size v hn
  exact hfits (Nat.le_of_not_lt fun hroom => h (hfails hroom))

/-- the first byte of a number is in its prefix -/
theorem encoding_first (n v : ℕ) : ∃ k l, encoding n v = BitVec.ofNat 8 k :: l ∧ k < 2 ^ n := by
  have hpos := Nat.two_pow_pos n
  unfold encoding
  split_ifs with hv
  · exact ⟨v, [], rfl, by omega⟩
  · exact ⟨2 ^ n - 1, _, rfl, by omega⟩

/-- the bits of the type are not part of the number -/
theorem decodeInteger_orFirst {n : ℕ} (hn : n ≤ 8) {flag : BitVec 8} (hflag : flag.toNat % 2 ^ n = 0) (v : BitVec 32)
    (rest : List (BitVec 8)) :
    decodeInteger (orFirst flag (encoding n v.toNat) ++ rest) n = .ok (encoding n v.toNat).length v := by
  obtain ⟨k, l, hl, -⟩ := encoding_first n v.toNat
  have hread := decodeInteger_encoding hn v rest
  rw [hl, List.cons_append, decodeInteger_cons hn] at hread
  rw [hl, orFirst, List.cons_append, decodeInteger_cons hn, BitVec.toNat_or, Nat.or_mod_two_pow, hflag, Nat.or_zero]
  exact hread

theorem index_bits : (0x80 : BitVec 8).toNat % 2 ^ 7 = 0 := rfl

/-- what is written for a string -/
theorem encodeString_ok {size : ℕ} {value : List (BitVec 8)} (h : (encodeString size value).ret ≠ -1) :
    (encodeString size value).bytes = orFirst 0x80 (encoding 7 (BitVec.ofNat 32 (huffmanEncode value).length).toNat) ++ huffmanEncode value ∧
      (encodeString size value).ret = (encodeString size value).bytes.length := by
  have hdata : (if value = [] then [] else huffmanEncode value) = huffmanEncode value := by
    split_ifs with hnil
    · rw [hnil]
      rfl
    · rfl
  unfold encodeString at h ⊢
  rw [hdata] at h ⊢
  dsimp only at h ⊢
  split_ifs at h ⊢ with hint hroom
  · exact absurd hint h
  · exact absurd rfl h
  · rw [encodeInteger_ok (by decide) hint]
    exact ⟨rfl, rfl⟩

/-- a string comes back, with any bytes behind it -/
theorem decodeString_encodeString {size : ℕ} {value : List (BitVec 8)} (hlen : value.length < 2 ^ 24) (hfit : CodesFit 0 value)
    (h : (encodeString size value).ret ≠ -1) (rest : List (BitVec 8)) :
    (encodeString size value).ret = (encodeString size value).bytes.length ∧
      decodeString ((encodeString size value).bytes ++ rest) = .ok (encodeString size value).bytes.length value := by
  obtain ⟨hbytes, hret⟩ := encodeString_ok h
  refine ⟨hret, ?_⟩
  have hshort := length_huffmanEncode_le value
  have hdecode := (huffmanDecode_huffmanEncode value).1 hfit
  rw [hbytes]
  generalize huffmanEncode value = data at hshort hdecode ⊢
  have hnum : (BitVec.ofNat 32 data.length).toNat = data.length := by
    rw [BitVec.toNat_ofNat]
    exact Nat.mod_eq_of_lt (by omega)
  obtain ⟨k, l, hl, hk⟩ := encoding_first 7 (BitVec.ofNat 32 data.length).toNat
  have hread := decodeInteger_orFirst (show 7 ≤ 8 by decide) index_bits (BitVec.ofNat 32 data.length) (data ++ rest)
  have hflag : (BitVec.ofNat 8 k ||| 0x80) &&& 0x80 ≠ 0 := by
    rw [top_ne_zero, BitVec.toNat_or]
    exact Nat.right_le_or
  have hdrop : (orFirst 0x80 (encoding 7 (BitVec.ofNat 32 data.length).toNat) ++ (data ++ rest)).drop
      (encoding 7 (BitVec.ofNat 32 data.length).toNat).length = data ++ rest := by
    rw [List.drop_append_of_le_length (by rw [length_orFirst]), List.drop_of_length_le (by rw [length_orFirst]), List.nil_append]
  rw [List.append_assoc, hl, orFirst, List.cons_append, decodeString]
  rw [hl, orFirst, List.cons_append] at hread hdrop
  rw [hread]
  dsimp only
  rw [hdrop, hnum, if_neg (by rw [List.length_append]; omega), if_pos hflag, List.take_left, hdecode]
  have hbuffer := (decodeBuffer_eq_iff (show data.length < 2 ^ 32 by omega)).mpr (by omega)
  obtain ⟨ret, dst, hdst, hle⟩ := huffmanDecode_bound data
  rw [hdecode] at hdst
  cases hdst
  dsimp only
  rw [if_neg (by omega), if_neg (by omega)]
  simp [Nat.add_right_comm]

theorem Encoded.andThen_ok {size : ℕ} {e : Encoded} {next : ℕ → Encoded} (h : (e.andThen size next).ret ≠ -1) :
    e.ret ≠ -1 ∧ (next (size - e.bytes.length)).ret ≠ -1 ∧
      e.andThen size next = ⟨e.bytes ++ (next (size - e.bytes.length)).bytes, (e.bytes ++ (next (size - e.bytes.length)).bytes).length⟩ := by
  unfold Encoded.andThen at h ⊢
  by_cases hret : e.ret = -1
  · rw [if_pos hret] at h
    exact absurd hret h
  · rw [if_neg hret] at h ⊢
    dsimp only at h ⊢
    by_cases hnext : (next (size - e.bytes.length)).ret = -1
    · rw [if_pos hnext] at h
      exact absurd rfl h
    · rw [if_neg hnext]
      exact ⟨hret, hnext, rfl⟩

/-- the types that `hpack_encode_header_block` writes, with the bits of the type and the prefix of the number -/
inductive Flag : HpackField → BitVec 8 → ℕ → Prop
  | indexed : Flag .indexedLiteral 0x40 6
  | never : Flag .neverindexLiteral 0x10 4

theorem Flag.spec {type : HpackField} {flag : BitVec 8} {pre : ℕ} (h : Flag type flag pre) :
    pre ≤ 8 ∧ literalPrefix type = pre ∧ flag.toNat % 2 ^ pre = 0 ∧ orFirst flag (encoding pre 0) = [flag] ∧
      (∀ k < 2 ^ pre, hpackParseFieldType (BitVec.ofNat 8 k ||| flag) = type) ∧
      (type = .indexedLiteral ∨ type = .noindexLiteral ∨ type = .neverindexLiteral) := by
  cases h with
  | indexed => exact ⟨by decide, rfl, rfl, rfl, by decide, Or.inl rfl⟩
  | never => exact ⟨by decide, rfl, rfl, rfl, by decide, Or.inr (Or.inr rfl)⟩

theorem flag_fieldType (header : Field) : ∃ flag pre, Flag (fieldType header) flag pre := by
  unfold fieldType
  split_ifs
  · exact ⟨0x10, 4, .never⟩
  · exact ⟨0x40, 6, .indexed⟩

/-- what a literal of this type does to the table of the encoder, and what is written -/
theorem encodeLiterals_eq {type : HpackField} {flag : BitVec 8} {pre : ℕ} (hflag : Flag type flag pre) (size : ℕ) (header : Field)
    (t : HpackDynamicTable) (index : BitVec 32) :
    encodeLiteralHeaderFieldWithNewName size header t type = (literalTable type t header, writeNewName size header flag) ∧
      encodeLiteralHeaderFieldWithIndexedName size header index t type =
        (literalTable type t header, writeIndexedName size header index pre flag) := by
  cases hflag with
  | indexed => exact ⟨rfl, rfl⟩
  | never => exact ⟨rfl, rfl⟩

section Literals

variable {t : HpackDynamicTable} {header : Field} {size : ℕ} {type : HpackField} {flag : BitVec 8} {pre : ℕ}

/-- `w` is read as a literal of this type, with this field -/
def ReadsAs (type : HpackField) (t : HpackDynamicTable) (w : List (BitVec 8)) (field : Field) : Prop :=
  ∀ rest, ∃ byte l, w ++ rest = byte :: l ∧ hpackParseFieldType byte = type ∧
    decodeLiteral Field.empty (literalPrefix type) (byte :: l) t = .ok w.length (field, false)

theorem readsAs_indexedName (hflag : Flag type flag pre) (ht : Sized t) {index : ℕ} (hone : 1 ≤ index) (hlt : index < entryNum t)
    (hname : ptrLenCasecmp header.name (entryAt t index).1 = true) (hfit : CodesFit 0 header.value)
    (h : (writeIndexedName size header (BitVec.ofNat 32 index) pre flag).ret ≠ -1) :
    (writeIndexedName size header (BitVec.ofNat 32 index) pre flag).ret =
        (writeIndexedName size header (BitVec.ofNat 32 index) pre flag).bytes.length ∧
      ReadsAs type (lowerTable t) (writeIndexedName size header (BitVec.ofNat 32 index) pre flag).bytes (lowerField header) := by
  obtain ⟨hpre, hwidth, hbits, -, htype, -⟩ := hflag.spec
  unfold writeIndexedName at h ⊢
  dsimp only at h ⊢
  by_cases hint : (encodeInteger size (BitVec.ofNat 32 index) pre).ret = -1
  · rw [if_pos hint] at h
    exact absurd hint h
  rw [if_neg hint, encodeInteger_ok hpre hint] at h ⊢
  by_cases hroom : 1 ≥ size
  · rw [if_pos hroom] at h
    exact absurd rfl h
  rw [if_neg hroom] at h ⊢
  obtain ⟨-, hstring, heq⟩ := Encoded.andThen_ok h
  rw [heq]
  refine ⟨rfl, fun rest => ?_⟩
  obtain ⟨k, l, hl, hk⟩ := encoding_first pre (BitVec.ofNat 32 index).toNat
  obtain ⟨field, hget, hfieldName, -⟩ := getHeaderField_lower ht hone hlt
  have hne : BitVec.ofNat 32 index ≠ 0 := fun hzero => by
    have hindex : index < 2 ^ 32 := lt_trans hlt (Nat.mod_lt _ (Nat.two_pow_pos 32))
    have := congrArg BitVec.toNat hzero
    rw [BitVec.toNat_ofNat, Nat.mod_eq_of_lt hindex] at this
    exact absurd this (Nat.ne_of_gt hone)
  dsimp only at hstring ⊢
  generalize hbytes : encodeString _ header.value = str at hstring ⊢
  have hvalue := (hbytes ▸ decodeString_encodeString header.value_lt hfit (hbytes ▸ hstring) rest).2
  have hread := decodeInteger_orFirst hpre hbits (BitVec.ofNat 32 index) (str.bytes ++ rest)
  have hdrop : (orFirst flag (encoding pre (BitVec.ofNat 32 index).toNat) ++ (str.bytes ++ rest)).drop
      ((encoding pre (BitVec.ofNat 32 index).toNat).length + 0) = str.bytes ++ rest := by
    rw [Nat.add_zero, ← length_orFirst flag, List.drop_left]
  have hlower : field.valueSet header.value = lowerField header := valueSet_lowerField (hfieldName.trans (beq_iff_eq.mp hname).symm)
  rw [hl] at hread hdrop
  rw [hl, List.append_assoc]
  refine ⟨BitVec.ofNat 8 k ||| flag, l ++ (str.bytes ++ rest), rfl, htype k hk, ?_⟩
  rw [hwidth, decodeLiteral]
  rw [orFirst, List.cons_append] at hread hdrop
  rw [hread]
  dsimp only
  rw [decodeName, if_pos hne, hget]
  dsimp only
  rw [hdrop, hvalue]
  dsimp only
  rw [hlower]
  simp

theorem readsAs_newName (hflag : Flag type flag pre) (t' : HpackDynamicTable) (hname : CodesFit 0 (lowerName header))
    (hfit : CodesFit 0 header.value) (h : (writeNewName size header flag).ret ≠ -1) :
    (writeNewName size header flag).ret = (writeNewName size header flag).bytes.length ∧
      ReadsAs type t' (writeNewName size header flag).bytes (lowerField header) := by
  obtain ⟨hpre, hwidth, hbits, hzero, htype, -⟩ := hflag.spec
  unfold writeNewName at h ⊢
  by_cases hroom : 1 ≥ size
  · rw [if_pos hroom] at h
    exact absurd rfl h
  rw [if_neg hroom] at h ⊢
  dsimp only at h ⊢
  obtain ⟨hnameRet, hstring, heq⟩ := Encoded.andThen_ok h
  obtain ⟨-, hnameString, hnameEq⟩ := Encoded.andThen_ok hnameRet
  rw [heq, hnameEq]
  rw [hnameEq] at hstring
  refine ⟨rfl, fun rest => ?_⟩
  dsimp only at hstring hnameString ⊢
  generalize hnameBytes : encodeString _ (lowerName header) = name at hnameString hstring ⊢
  generalize hbytes : encodeString _ header.value = str at hstring ⊢
  have hvalueRead := (hbytes ▸ decodeString_encodeString header.value_lt hfit (hbytes ▸ hstring) rest).2
  have hlen : (lowerName header).length < 2 ^ 24 := by
    rw [lowerName, List.length_map]
    exact header.name_lt.trans (by decide)
  have hnameRead := (hnameBytes ▸ decodeString_encodeString hlen hname (hnameBytes ▸ hnameString) (str.bytes ++ rest)).2
  have hread : decodeInteger (orFirst flag (encoding pre 0) ++ (name.bytes ++ (str.bytes ++ rest))) pre = .ok (encoding pre 0).length 0 :=
    decodeInteger_orFirst hpre hbits 0 _
  rw [hzero] at hread
  have hone : (encoding pre 0).length = 1 := by
    rw [← length_orFirst flag, hzero, List.length_singleton]
  have htype0 : hpackParseFieldType flag = type := by simpa using htype 0 (Nat.two_pow_pos pre)
  have hdrop : (name.bytes ++ (str.bytes ++ rest)).drop name.bytes.length = str.bytes ++ rest := List.drop_left
  have hlower : (Field.empty.nameSet (lowerName header)).valueSet header.value = lowerField header :=
    valueSet_lowerField (take_mod (lowerField header).name_lt)
  have hnoUpper : (lowerName header).any isUpalpha = false := by
    rw [lowerName, List.any_map, List.any_eq_false]
    exact fun b _ => by simp [not_upper_inkTolower]
  refine ⟨flag, name.bytes ++ (str.bytes ++ rest), by simp, htype0, ?_⟩
  rw [hwidth, decodeLiteral]
  rw [List.singleton_append] at hread
  rw [hread, hone]
  dsimp only
  rw [decodeName, if_neg (by simp), List.drop_one, List.tail_cons, hnameRead]
  dsimp only
  rw [Nat.add_comm 1, List.drop_succ_cons, hdrop, hvalueRead]
  dsimp only
  rw [hlower, hnoUpper]
  simp [Nat.add_comm, Nat.add_assoc]

end Literals

/-! ## One field -/

variable {b : Block} {s : BlockState} {t : HpackDynamicTable} {size : ℕ}

/-- behind a representation: the field is there, and the cursor and the table have moved -/
def behind (b : Block) (s : BlockState) (t : HpackDynamicTable) (len : ℕ) (field : Field) : BlockState ⊕ Leave :=
  BlockState.attach b { s with table := t, cursor := s.cursor + len, headerFieldStarted := true } field

theorem literalTable_lower (ht : Sized t) (type : HpackField) (header : Field) :
    Sized (literalTable type t header) ∧ literalTable type (lowerTable t) (lowerField header) = lowerTable (literalTable type t header) := by
  unfold literalTable
  split_ifs
  · exact ⟨ht.addHeaderField header, ht.lower_addHeaderField header⟩
  · exact ⟨ht, rfl⟩

theorem blockStep_literal {type : HpackField} {w rest : List (BitVec 8)} {header : Field} (ht : Sized t) (htable : s.table = lowerTable t)
    (htype : type = .indexedLiteral ∨ type = .noindexLiteral ∨ type = .neverindexLiteral) (hread : ReadsAs type (lowerTable t) w (lowerField header))
    (hbuf : b.inBuf.drop s.cursor = w ++ rest) :
    1 ≤ w.length ∧ blockStep b s = behind b s (lowerTable (literalTable type t header)) w.length (lowerField header) := by
  obtain ⟨byte, l, hw, hbyte, hdecode⟩ := hread rest
  have hlen := decodeLiteral_len (literalPrefix_le type) hdecode
  refine ⟨by omega, ?_⟩
  have hstep : blockStep b s = s.stepLiteral b := by
    rw [blockStep, hbuf, hw]
    dsimp only
    rw [hbyte]
    rcases htype with rfl | rfl | rfl <;> rfl
  have hne : (w.length : ℤ) ≠ HPACK_ERROR_COMPRESSION_ERROR := natCast_ne_error _
  have hplain : decide ((w.length : ℤ) < 0) = false := decide_eq_false (by omega)
  rw [hstep, BlockState.stepLiteral, hbuf, hw, decodeLiteralHeaderField]
  dsimp only
  rw [hbyte, htable, hdecode]
  dsimp only
  rw [if_neg Bool.false_ne_true, if_neg hne, behind, ← (literalTable_lower ht type header).2, Int.natAbs_natCast, hplain,
    Bool.or_false]
  rfl

theorem indexed_first : ∀ k < 2 ^ 7, hpackParseFieldType (BitVec.ofNat 8 k ||| 0x80) = .index := by decide

theorem field_ext {f g : Field} (hname : f.name = g.name) (hvalue : f.value = g.value) : f = g := by
  cases f
  cases g
  cases hname
  cases hvalue
  rfl

theorem blockStep_indexed {index : ℕ} {header : Field} (ht : Sized t) (htable : s.table = lowerTable t) (hone : 1 ≤ index)
    (hlt : index < entryNum t) (hname : ptrLenCasecmp header.name (entryAt t index).1 = true) (hvalue : header.value = (entryAt t index).2)
    (h : (encodeIndexedHeaderField size (BitVec.ofNat 32 index)).ret ≠ -1) {rest : List (BitVec 8)}
    (hbuf : b.inBuf.drop s.cursor = (encodeIndexedHeaderField size (BitVec.ofNat 32 index)).bytes ++ rest) :
    (encodeIndexedHeaderField size (BitVec.ofNat 32 index)).ret = (encodeIndexedHeaderField size (BitVec.ofNat 32 index)).bytes.length ∧
      1 ≤ (encodeIndexedHeaderField size (BitVec.ofNat 32 index)).bytes.length ∧
      blockStep b s =
        behind b s (lowerTable t) (encodeIndexedHeaderField size (BitVec.ofNat 32 index)).bytes.length (lowerField header) := by
  have hwritten : encodeIndexedHeaderField size (BitVec.ofNat 32 index) =
      ⟨orFirst 0x80 (encoding 7 (BitVec.ofNat 32 index).toNat), (orFirst 0x80 (encoding 7 (BitVec.ofNat 32 index).toNat)).length⟩ := by
    unfold encodeIndexedHeaderField at h ⊢
    dsimp only at h ⊢
    split_ifs at h ⊢ with hsize hint hroom
    · exact absurd rfl h
    · exact absurd hint h
    · exact absurd rfl h
    · rw [encodeInteger_ok (by decide) hint]
  obtain ⟨k, l, hl, hk⟩ := encoding_first 7 (BitVec.ofNat 32 index).toNat
  obtain ⟨field, hget, hfieldName, hfieldValue⟩ := getHeaderField_lower ht hone hlt
  have hfield : field = lowerField header := field_ext (hfieldName.trans (beq_iff_eq.mp hname).symm) (hfieldValue.trans hvalue.symm)
  have hread := decodeInteger_orFirst (show 7 ≤ 8 by decide) index_bits (BitVec.ofNat 32 index) rest
  rw [hwritten] at hbuf ⊢
  refine ⟨rfl, by rw [hl]; simp [orFirst], ?_⟩
  have hstep : blockStep b s = s.stepIndexed b := by
    rw [blockStep, hbuf, hl, orFirst, List.cons_append]
    dsimp only
    rw [indexed_first k hk]
  have hdecode : decodeIndexedHeaderField Field.empty (b.inBuf.drop s.cursor) s.table =
      some (((encoding 7 (BitVec.ofNat 32 index).toNat).length : ℤ), field) := by
    rw [decodeIndexedHeaderField, hbuf, hread]
    dsimp only
    rw [htable, hget]
    rfl
  rw [hstep, BlockState.stepIndexed, hdecode]
  dsimp only
  rw [if_neg (natCast_ne_error _), hfield, length_orFirst, behind, ← htable]
  rfl

/-- what is written for a field is read as the field -/
theorem blockStep_field {header : Field} (ht : Sized t) (htable : s.table = lowerTable t) (hname : CodesFit 0 (lowerName header))
    (hvalue : CodesFit 0 header.value) (h : (encodeHeaderField size t header).2.ret ≠ -1) {rest : List (BitVec 8)}
    (hbuf : b.inBuf.drop s.cursor = (encodeHeaderField size t header).2.bytes ++ rest) :
    Sized (encodeHeaderField size t header).1 ∧
      (encodeHeaderField size t header).2.ret = (encodeHeaderField size t header).2.bytes.length ∧
      1 ≤ (encodeHeaderField size t header).2.bytes.length ∧
      blockStep b s =
        behind b s (lowerTable (encodeHeaderField size t header).1) (encodeHeaderField size t header).2.bytes.length (lowerField header) := by
  obtain ⟨flag, pre, hflag⟩ := flag_fieldType header
  have htype := hflag.spec.2.2.2.2.2
  have hfound := found_lookup t header
  unfold encodeHeaderField at h hbuf ⊢
  dsimp only at h hbuf ⊢
  cases hmatch : (lookup t header).matchType with
  | none =>
    rw [hmatch] at h hbuf
    dsimp only at h hbuf ⊢
    rw [(encodeLiterals_eq hflag size header t 0).1] at h hbuf ⊢
    obtain ⟨hret, hread⟩ := readsAs_newName hflag (lowerTable t) hname hvalue h
    exact ⟨(literalTable_lower ht _ header).1, hret, blockStep_literal ht htable htype hread hbuf⟩
  | name =>
    rw [hmatch] at h hbuf
    dsimp only at h hbuf ⊢
    obtain ⟨hone, hlt, hcase, -⟩ := hfound (by rw [hmatch]; decide)
    rw [(encodeLiterals_eq hflag size header t _).2] at h hbuf ⊢
    obtain ⟨hret, hread⟩ := readsAs_indexedName hflag ht hone hlt hcase hvalue h
    exact ⟨(literalTable_lower ht _ header).1, hret, blockStep_literal ht htable htype hread hbuf⟩
  | exact =>
    rw [hmatch] at h hbuf
    dsimp only at h hbuf ⊢
    obtain ⟨hone, hlt, hcase, hexact⟩ := hfound (by rw [hmatch]; decide)
    obtain ⟨hret, hlen, hstep⟩ := blockStep_indexed ht htable hone hlt hcase (hexact hmatch) h hbuf
    exact ⟨ht, hret, hlen, hstep⟩

/-! ## One header -/

/-- the bytes of the names and the values, which `max_header_size` is about -/
def textLength (l : List Field) : ℕ := (l.map fun f => f.name.length + f.value.length).sum

/-- the Huffman code of the name and of the value comes back -/
def CodesReturn (l : List Field) : Prop := ∀ f ∈ l, CodesFit 0 (lowerName f) ∧ CodesFit 0 f.value

instance (l : List Field) : Decidable (CodesReturn l) := inferInstanceAs (Decidable (∀ f ∈ l, _))

theorem behind_eq (t : HpackDynamicTable) (len : ℕ) {field : Field}
    (h : s.totalHeaderSize.toNat + (field.name.length + field.value.length) ≤ b.maxHeaderSize.toNat) :
    ∃ total : BitVec 32, total.toNat = s.totalHeaderSize.toNat + (field.name.length + field.value.length) ∧
      behind b s t len field = .inl ⟨s.cursor + len, t, s.fields ++ [field], true, s.hasHttp2Violation, total⟩ := by
  have htotal : (s.totalHeaderSize + BitVec.ofNat 32 (field.name.length + field.value.length)).toNat =
      s.totalHeaderSize.toNat + (field.name.length + field.value.length) := by
    have hmax := b.maxHeaderSize.isLt
    rw [BitVec.toNat_add, BitVec.toNat_ofNat, Nat.add_mod_mod]
    exact Nat.mod_eq_of_lt (by omega)
  have hfits : ¬ s.totalHeaderSize + BitVec.ofNat 32 (field.name.length + field.value.length) > b.maxHeaderSize := by
    show ¬ b.maxHeaderSize < _
    rw [BitVec.lt_def, htotal]
    omega
  refine ⟨_, htotal, ?_⟩
  rw [behind, BlockState.attach]
  exact if_neg hfits

/-- what has been written stays in front -/
theorem encodeHeaderFields_prefix (size : ℕ) (l : List Field) (t : HpackDynamicTable) (out : List (BitVec 8)) :
    ∃ w, (encodeHeaderFields size t out l).2.bytes = out ++ w := by
  induction l generalizing t out with
  | nil => exact ⟨[], (List.append_nil out).symm⟩
  | cons header l ih =>
    rw [encodeHeaderFields]
    split_ifs
    · exact ⟨_, rfl⟩
    · obtain ⟨w, hw⟩ := ih (encodeHeaderField (size - out.length) t header).1 (out ++ (encodeHeaderField (size - out.length) t header).2.bytes)
      exact ⟨_, hw.trans (List.append_assoc out _ w)⟩

/-- the loop reads the fields that the encoder has written behind `out`, and ends with them -/
theorem decodeBlockLoop_fields {l : List Field} {out : List (BitVec 8)} {fuel : ℕ} (ht : Sized t) (htable : s.table = lowerTable t)
    (hplain : s.hasHttp2Violation = false) (hcursor : s.cursor = out.length) (hret : (encodeHeaderFields size t out l).2.ret ≠ -1)
    (hbuf : b.inBuf = (encodeHeaderFields size t out l).2.bytes) (hcodes : CodesReturn l)
    (hsize : s.totalHeaderSize.toNat + textLength l ≤ b.maxHeaderSize.toNat) (hfuel : b.inBuf.length - s.cursor < fuel) :
    Sized (encodeHeaderFields size t out l).1 ∧ (encodeHeaderFields size t out l).2.ret = b.inBuf.length ∧
      decodeBlockLoop b fuel s =
        some (.returns b.inBuf.length (lowerTable (encodeHeaderFields size t out l).1) (s.fields ++ l.map lowerField)) := by
  induction l generalizing s t out fuel with
  | nil =>
    obtain ⟨fuel, rfl⟩ := Nat.exists_eq_add_one_of_ne_zero (Nat.ne_zero_of_lt hfuel)
    have hend : b.inBuf.drop s.cursor = [] := by
      rw [hbuf, hcursor]
      exact List.drop_length
    refine ⟨ht, by rw [hbuf]; rfl, ?_⟩
    have hcur : s.cursor = b.inBuf.length := by rw [hcursor, hbuf]; rfl
    rw [decodeBlockLoop, blockStep, hend]
    simp [hplain, htable, encodeHeaderFields, hcur]
  | cons header l ih =>
    obtain ⟨⟨hname, hvalue⟩, hrest⟩ := List.forall_mem_cons.mp hcodes
    rw [encodeHeaderFields] at hret hbuf ⊢
    by_cases hfail : (encodeHeaderField (size - out.length) t header).2.ret = HPACK_ERROR_COMPRESSION_ERROR
    · rw [if_pos hfail] at hret
      exact absurd rfl hret
    rw [if_neg hfail] at hret hbuf ⊢
    obtain ⟨w, hw⟩ := encodeHeaderFields_prefix size l (encodeHeaderField (size - out.length) t header).1
      (out ++ (encodeHeaderField (size - out.length) t header).2.bytes)
    have hdrop : b.inBuf.drop s.cursor = (encodeHeaderField (size - out.length) t header).2.bytes ++ w := by
      rw [hbuf, hw, hcursor, List.append_assoc, List.drop_left]
    obtain ⟨ht', -, hlen, hstep⟩ := blockStep_field ht htable hname hvalue hfail hdrop
    have hinside := congrArg List.length hdrop
    rw [List.length_drop, List.length_append] at hinside
    rw [textLength, List.map_cons, List.sum_cons, ← textLength] at hsize
    have hlower : (lowerField header).name.length + (lowerField header).value.length = header.name.length + header.value.length := by
      simp [lowerField, lowerName]
    rw [← hlower] at hsize
    obtain ⟨total, htotal, hbehind⟩ := behind_eq (lowerTable (encodeHeaderField (size - out.length) t header).1)
      (encodeHeaderField (size - out.length) t header).2.bytes.length (le_trans (Nat.add_le_add_left (Nat.le_add_right _ _) _) hsize)
    obtain ⟨fuel, rfl⟩ := Nat.exists_eq_add_one_of_ne_zero (Nat.ne_zero_of_lt hfuel)
    rw [decodeBlockLoop, hstep, hbehind]
    dsimp only
    have hfuel' : b.inBuf.length - (s.cursor + (encodeHeaderField (size - out.length) t header).2.bytes.length) < fuel := by omega
    have hend := ih (s := ⟨s.cursor + (encodeHeaderField (size - out.length) t header).2.bytes.length,
        lowerTable (encodeHeaderField (size - out.length) t header).1, s.fields ++ [lowerField header], true, s.hasHttp2Violation, total⟩)
      ht' rfl hplain (by rw [hcursor, List.length_append]) hret hbuf hrest (by dsimp only; omega) hfuel'
    rw [List.map_cons, List.append_cons s.fields (lowerField header) (l.map lowerField)]
    exact hend

theorem size_first : ∀ k < 2 ^ 5, hpackParseFieldType (BitVec.ofNat 8 k ||| 0x20) = .tablesizeUpdate := by decide

/-- the new maximum at the start of a block reaches the table of the decoder -/
theorem blockStep_tableSize (ht : Sized t) {n : BitVec 32} (hn : n ≤ b.maximumTableSize)
    (h : (encodeDynamicTableSizeUpdate size n).ret ≠ -1) {rest : List (BitVec 8)}
    (hbuf : b.inBuf = (encodeDynamicTableSizeUpdate size n).bytes ++ rest) :
    1 ≤ (encodeDynamicTableSizeUpdate size n).bytes.length ∧
      blockStep b (.init (lowerTable t)) =
        .inl ⟨(encodeDynamicTableSizeUpdate size n).bytes.length, lowerTable (t.updateMaximumSize n).1, [], false, false, 0⟩ := by
  have hwritten : (encodeDynamicTableSizeUpdate size n).bytes = orFirst 0x20 (encoding 5 n.toNat) := by
    unfold encodeDynamicTableSizeUpdate at h ⊢
    dsimp only at h ⊢
    split_ifs at h ⊢ with hint
    · exact absurd hint h
    · rw [encodeInteger_ok (by decide) hint]
  obtain ⟨k, l, hl, hk⟩ := encoding_first 5 n.toNat
  have hread := decodeInteger_orFirst (show 5 ≤ 8 by decide) (show (0x20 : BitVec 8).toNat % 2 ^ 5 = 0 from rfl) n rest
  rw [hwritten] at hbuf ⊢
  have hfirst : b.inBuf = (BitVec.ofNat 8 k ||| 0x20) :: (l ++ rest) := by rw [hbuf, hl]; rfl
  have hstep : blockStep b (.init (lowerTable t)) = BlockState.stepTableSize b (.init (lowerTable t)) := by
    rw [blockStep, BlockState.init, List.drop_zero, hfirst]
    dsimp only
    rw [size_first k hk]
  have hupdate : updateDynamicTableSize b.inBuf (lowerTable t) b.maximumTableSize =
      some (((encoding 5 n.toNat).length : ℤ), lowerTable (t.updateMaximumSize n).1) := by
    rw [← hbuf] at hread
    rw [hfirst] at hread ⊢
    rw [updateDynamicTableSize, hread]
    dsimp only
    rw [if_neg (fun hlt => absurd (BitVec.le_def.mp hn) (Nat.not_le_of_lt (BitVec.lt_def.mp hlt))), ht.lower_updateMaximumSize]
    rfl
  refine ⟨by rw [hl]; simp [orFirst], ?_⟩
  rw [hstep, BlockState.stepTableSize, BlockState.init]
  dsimp only
  rw [if_neg Bool.false_ne_true, List.drop_zero, hupdate]
  dsimp only
  rw [if_neg (natCast_ne_error _), Int.toNat_natCast, Nat.zero_add, length_orFirst]

/-- a maximum that is not negative has 31 bits -/
theorem toNat_lt_of_nonneg {n : BitVec 32} (h : n.toInt ≥ 0) : n.toNat < 2 ^ 31 := by
  rw [BitVec.toInt_eq_toNat_cond] at h
  split_ifs at h <;> omega

/-- A header that has been encoded is decoded, and the tables stay in step. -/
theorem hpackDecodeHeaderBlock_encode {hdr : List Field} {maximumTableSize maxHeaderSize permitted : BitVec 32} (ht : Sized t)
    (hret : (hpackEncodeHeaderBlock t size hdr maximumTableSize).2.ret ≠ -1) (hcodes : CodesReturn hdr)
    (htext : textLength hdr ≤ maxHeaderSize.toNat) (hpermitted : maximumTableSize.toInt ≥ 0 → maximumTableSize ≤ permitted) :
    Sized (hpackEncodeHeaderBlock t size hdr maximumTableSize).1 ∧ 0 ≤ (hpackEncodeHeaderBlock t size hdr maximumTableSize).2.ret ∧
      hpackDecodeHeaderBlock ⟨(hpackEncodeHeaderBlock t size hdr maximumTableSize).2.bytes, maxHeaderSize, permitted⟩ (lowerTable t) =
        some (.returns (hpackEncodeHeaderBlock t size hdr maximumTableSize).2.ret
          (lowerTable (hpackEncodeHeaderBlock t size hdr maximumTableSize).1) (hdr.map lowerField)) := by
  have hzero : (0 : BitVec 32).toNat + textLength hdr ≤ maxHeaderSize.toNat := by simpa using htext
  unfold hpackEncodeHeaderBlock at hret ⊢
  by_cases hsize : maximumTableSize.toInt ≥ 0
  · rw [if_pos hsize] at hret ⊢
    dsimp only at hret ⊢
    by_cases hfail : (encodeDynamicTableSizeUpdate size maximumTableSize).ret = HPACK_ERROR_COMPRESSION_ERROR
    · rw [if_pos hfail] at hret
      exact absurd rfl hret
    rw [if_neg hfail] at hret ⊢
    obtain ⟨w, hw⟩ := encodeHeaderFields_prefix size hdr (t.updateMaximumSize maximumTableSize).1
      (encodeDynamicTableSizeUpdate size maximumTableSize).bytes
    have ht' := ht.updateMaximumSize (toNat_lt_of_nonneg hsize)
    generalize hb : (⟨_, maxHeaderSize, permitted⟩ : Block) = b
    have hbuf : b.inBuf = (encodeHeaderFields size (t.updateMaximumSize maximumTableSize).1
      (encodeDynamicTableSizeUpdate size maximumTableSize).bytes hdr).2.bytes := by rw [← hb]
    have hmax : b.maxHeaderSize = maxHeaderSize := by rw [← hb]
    obtain ⟨hone, hstep⟩ := blockStep_tableSize (b := b) ht (by rw [← hb]; exact hpermitted hsize) hfail (hbuf.trans hw)
    have hle : 1 ≤ b.inBuf.length := by
      rw [hbuf, hw, List.length_append]
      exact Nat.le_add_right_of_le hone
    have hfuel : b.inBuf.length - (encodeDynamicTableSizeUpdate size maximumTableSize).bytes.length < b.inBuf.length := Nat.sub_lt hle hone
    obtain ⟨hsized, hlen, hloop⟩ := decodeBlockLoop_fields (b := b) (s := ⟨_, _, [], false, false, 0⟩) ht' rfl rfl rfl
      hret hbuf hcodes (hmax ▸ hzero) hfuel
    rw [hlen, hpackDecodeHeaderBlock, decodeBlockLoop, hstep]
    exact ⟨hsized, Int.natCast_nonneg _, hloop⟩
  · rw [if_neg hsize] at hret ⊢
    generalize hb : (⟨_, maxHeaderSize, permitted⟩ : Block) = b
    have hbuf : b.inBuf = (encodeHeaderFields size t [] hdr).2.bytes := by rw [← hb]
    have hmax : b.maxHeaderSize = maxHeaderSize := by rw [← hb]
    obtain ⟨hsized, hlen, hloop⟩ := decodeBlockLoop_fields (b := b) (s := .init (lowerTable t)) ht rfl rfl rfl
      hret hbuf hcodes (hmax ▸ hzero) (Nat.lt_succ_of_le (Nat.sub_le _ _))
    rw [hlen]
    exact ⟨hsized, Int.natCast_nonneg _, hloop⟩

/-! ## A connection -/

def HTTP2_MAX_TABLE_SIZE_LIMIT : BitVec 32 := 64 * 1024

/-- the table's maximum goes out where it is a new one, with 64 kB at most -/
def http2EncodeHeaderBlocks (t : HpackDynamicTable) (outLen : ℕ) (hdr : List Field) (maximumTableSize : BitVec 32) :
    HpackDynamicTable × Encoded :=
  let limited := if HTTP2_MAX_TABLE_SIZE_LIMIT.toInt < maximumTableSize.toInt then HTTP2_MAX_TABLE_SIZE_LIMIT else maximumTableSize
  hpackEncodeHeaderBlock t outLen hdr (if limited = BitVec.ofNat 32 t.maximumSize then -1 else limited)

/-- a header, the room for its block and the `HEADER_TABLE_SIZE` that the peer has announced -/
structure Message where
  hdr : List Field
  outLen : ℕ
  headerTableSize : BitVec 32

/-- the tables at the two ends, and the headers that have been decoded without an error -/
structure Peers where
  encoder : HpackDynamicTable
  decoder : HpackDynamicTable
  arrived : List (List Field)

namespace Peers

/-- `Http2ConnectionState::init` makes both tables for `HTTP2_HEADER_TABLE_SIZE` -/
def init : Peers := ⟨⟨0, 4096, []⟩, ⟨0, 4096, []⟩, []⟩

/-- a header is sent and received; the table of the encoder has changed also where its block is not sent -/
def send (maxHeaderListSize : BitVec 32) (p : Peers) (m : Message) : Peers :=
  let sent := http2EncodeHeaderBlocks p.encoder m.outLen m.hdr m.headerTableSize
  if sent.2.ret < 0 then { p with encoder := sent.1 }
  else
    match hpackDecodeHeaderBlock ⟨sent.2.bytes, maxHeaderListSize, m.headerTableSize⟩ p.decoder with
    | some (.returns ret decoder fields) => ⟨sent.1, decoder, if ret < 0 then p.arrived else p.arrived ++ [fields]⟩
    | _ => { p with encoder := sent.1 }

end Peers

/-- the buffer has room for the block, the Huffman codes come back, and the header is not too large for the peer -/
structure Carried (maxHeaderListSize : BitVec 32) (p : Peers) (m : Message) : Prop where
  room : (http2EncodeHeaderBlocks p.encoder m.outLen m.hdr m.headerTableSize).2.ret ≠ -1
  codes : CodesReturn m.hdr
  text : textLength m.hdr ≤ maxHeaderListSize.toNat

variable {maxHeaderListSize : BitVec 32}

theorem le_announced {n : BitVec 32} {t : HpackDynamicTable} :
    let limited := if HTTP2_MAX_TABLE_SIZE_LIMIT.toInt < n.toInt then HTTP2_MAX_TABLE_SIZE_LIMIT else n
    let sent := if limited = BitVec.ofNat 32 t.maximumSize then -1 else limited
    sent.toInt ≥ 0 → sent ≤ n := by
  intro limited sent hsent
  have hlimit : HTTP2_MAX_TABLE_SIZE_LIMIT.toInt = 65536 := rfl
  have hlimit' : HTTP2_MAX_TABLE_SIZE_LIMIT.toNat = 65536 := rfl
  have hminus : (-1 : BitVec 32).toInt = -1 := rfl
  unfold sent at hsent ⊢
  split_ifs at hsent ⊢ with hsame
  · omega
  · unfold limited at hsent ⊢
    rw [BitVec.le_def]
    split_ifs at hsent ⊢ with hlt
    · have hn := BitVec.toInt_eq_toNat_cond n
      split_ifs at hn <;> omega
    · exact le_refl _

theorem send_carried {p : Peers} {m : Message} (ht : Sized p.encoder) (htable : p.decoder = lowerTable p.encoder)
    (h : Carried maxHeaderListSize p m) :
    Sized (p.send maxHeaderListSize m).encoder ∧
      (p.send maxHeaderListSize m).decoder = lowerTable (p.send maxHeaderListSize m).encoder ∧
      (p.send maxHeaderListSize m).arrived = p.arrived ++ [m.hdr.map lowerField] := by
  obtain ⟨hsized, hret, hdecode⟩ := hpackDecodeHeaderBlock_encode ht h.room h.codes h.text le_announced
  rw [Peers.send, htable]
  unfold http2EncodeHeaderBlocks
  dsimp only
  rw [if_neg (Int.not_lt.mpr hret), hdecode]
  exact ⟨hsized, rfl, if_neg (Int.not_lt.mpr hret)⟩

theorem send_encoder (p : Peers) (m : Message) :
    (p.send maxHeaderListSize m).encoder = (http2EncodeHeaderBlocks p.encoder m.outLen m.hdr m.headerTableSize).1 := by
  unfold Peers.send
  dsimp only
  split_ifs
  · rfl
  · split <;> rfl

theorem sized_init : Sized Peers.init.encoder := ⟨rfl, Nat.zero_le _, by decide⟩

theorem run_carried {p : Peers} {l : List Message} (ht : Sized p.encoder) (htable : p.decoder = lowerTable p.encoder)
    (hl : Along (Peers.send maxHeaderListSize) (Carried maxHeaderListSize) p l) :
    (l.foldl (Peers.send maxHeaderListSize) p).arrived = p.arrived ++ l.map (fun m => m.hdr.map lowerField) ∧
      (l.foldl (Peers.send maxHeaderListSize) p).decoder = lowerTable (l.foldl (Peers.send maxHeaderListSize) p).encoder := by
  induction l generalizing p with
  | nil => exact ⟨(List.append_nil _).symm, htable⟩
  | cons m l ih =>
    obtain ⟨hsized, hsame, harrived⟩ := send_carried ht htable hl.1
    obtain ⟨hall, hend⟩ := ih hsized hsame hl.2
    refine ⟨?_, hend⟩
    rw [List.foldl_cons, hall, harrived, List.map_cons, List.append_assoc, List.singleton_append]

end TrafficServer.Http2.Hpack
