/-
The block decoder of HPACK (`hpack_decode_header_block` and the representations in `proxy/http2/HPACK.cc`).

A block is a sequence of representations: a field of the tables, a literal with a name from the tables or one of its own, or a new maximum
for the dynamic table. `blockStep` is one round of the loop, from a cursor in the block. `get_header_field` finds an index that is beyond both
tables, but the literals do not look at what it returns: the name stays empty, the value is read and the field is a header field like others.

`decode_sound_iff`: the loop ends, reads no byte behind the block, goes on by at least one byte in each round, keeps the table within its
maximum and refuses an index beyond the tables, in each block of a connection exactly as long as no literal with such an index has a value
that is accepted (`RefersOk`), the integers and strings are those that are decoded in a defined way (`LiteralDefined`), and the size of the
table does not wrap with a new entry (`RoomOk`). `decode_accepts_beyond` is a block of three bytes.
-/
import TrafficServer.Http2.HpackEncode
import TrafficServer.Lib.Loop

namespace TrafficServer.Http2.Hpack

open TrafficServer.Http2.Huffman TrafficServer.Loop TrafficServer.Run

/-! ## The tables -/

def HPACK_ERROR_COMPRESSION_ERROR : ℤ := -1

def HPACK_ERROR_SIZE_EXCEEDED_ERROR : ℤ := -2

def TS_HPACK_STATIC_TABLE_ENTRY_NUM : ℕ := 62

/-- entry 0 is not used -/
def STATIC_TABLE : List (String × String) :=
  [("", ""), (":authority", ""), (":method", "GET"), (":method", "POST"), (":path", "/"), (":path", "/index.html"), (":scheme", "http"),
   (":scheme", "https"), (":status", "200"), (":status", "204"), (":status", "206"), (":status", "304"), (":status", "400"),
   (":status", "404"), (":status", "500"), ("accept-charset", ""), ("accept-encoding", "gzip, deflate"), ("accept-language", ""),
   ("accept-ranges", ""), ("accept", ""), ("access-control-allow-origin", ""), ("age", ""), ("allow", ""), ("authorization", ""),
   ("cache-control", ""), ("content-disposition", ""), ("content-encoding", ""), ("content-language", ""), ("content-length", ""),
   ("content-location", ""), ("content-range", ""), ("content-type", ""), ("cookie", ""), ("date", ""), ("etag", ""), ("expect", ""),
   ("expires", ""), ("from", ""), ("host", ""), ("if-match", ""), ("if-modified-since", ""), ("if-none-match", ""), ("if-range", ""),
   ("if-unmodified-since", ""), ("last-modified", ""), ("link", ""), ("location", ""), ("max-forwards", ""),
   ("proxy-authenticate", ""), ("proxy-authorization", ""), ("range", ""), ("referer", ""), ("refresh", ""), ("retry-after", ""),
   ("server", ""), ("set-cookie", ""), ("strict-transport-security", ""), ("transfer-encoding", ""), ("user-agent", ""), ("vary", ""),
   ("via", ""), ("www-authenticate", "")]

theorem take_mod_length_lt (l : List (BitVec 8)) (n : ℕ) : (l.take (l.length % 2 ^ n)).length < 2 ^ n :=
  lt_of_le_of_lt (List.length_take_le _ _) (Nat.mod_lt _ (Nat.two_pow_pos n))

namespace Field

/-- a field that `mime_field_create` has made -/
def empty : Field := ⟨[], [], nil_length_lt, Nat.two_pow_pos 24⟩

/-- 16 bits for the length -/
def nameSet (f : Field) (name : List (BitVec 8)) : Field :=
  { f with name := name.take (name.length % 2 ^ 16), name_lt := take_mod_length_lt name 16 }

/-- 24 bits for the length -/
def valueSet (f : Field) (value : List (BitVec 8)) : Field :=
  { f with value := value.take (value.length % 2 ^ 24), value_lt := take_mod_length_lt value 24 }

end Field

/-- the field of an index, in `field`; 0, or an error and the field as it was -/
def getHeaderField (indexingTable : HpackDynamicTable) (index : BitVec 32) (field : Field) : ℤ × Field :=
  if index = 0 then (HPACK_ERROR_COMPRESSION_ERROR, field)
  else if index.toNat < TS_HPACK_STATIC_TABLE_ENTRY_NUM then
    let entry := STATIC_TABLE.getD index.toNat ("", "")
    (0, (field.nameSet (Hex.ascii entry.1)).valueSet (Hex.ascii entry.2))
  else if index.toNat < (TS_HPACK_STATIC_TABLE_ENTRY_NUM + indexingTable.length) % 2 ^ 32 then
    let mField := (indexingTable.getHeaderField (index.toNat - TS_HPACK_STATIC_TABLE_ENTRY_NUM)).getD Field.empty
    (0, (field.nameSet mField.name).valueSet mField.value)
  else (HPACK_ERROR_COMPRESSION_ERROR, field)

/-! ## The representations -/

def hpackParseFieldType (ftype : BitVec 8) : HpackField :=
  if ftype &&& 0x80 ≠ 0 then .index
  else if ftype &&& 0x40 ≠ 0 then .indexedLiteral
  else if ftype &&& 0x20 ≠ 0 then .tablesizeUpdate
  else if ftype &&& 0x10 ≠ 0 then .neverindexLiteral
  else .noindexLiteral

/-- the bytes read or an error, and the field; nothing if the result is not defined -/
def decodeIndexedHeaderField (header : Field) (buf : List (BitVec 8)) (indexingTable : HpackDynamicTable) : Option (ℤ × Field) :=
  match decodeInteger buf 7 with
  | .undefined => none
  | .compressionError => some (HPACK_ERROR_COMPRESSION_ERROR, header)
  | .ok len index =>
    let result := getHeaderField indexingTable index header
    if result.1 = HPACK_ERROR_COMPRESSION_ERROR then some (HPACK_ERROR_COMPRESSION_ERROR, result.2) else some (len, result.2)

/-- `ParseRules::is_upalpha` -/
def isUpalpha (b : BitVec 8) : Bool := 0x41 ≤ b.toNat ∧ b.toNat ≤ 0x5a

/-- the name of a literal at `p`, and whether it has letters in upper case; a name of the tables takes no bytes -/
def decodeName (header : Field) (index : BitVec 32) (p : List (BitVec 8)) (indexingTable : HpackDynamicTable) : Decoded (Field × Bool) :=
  if index ≠ 0 then .ok 0 ((getHeaderField indexingTable index header).2, false)
  else
    match decodeString p with
    | .undefined => .undefined
    | .compressionError => .compressionError
    | .ok len nameStr => .ok len (header.nameSet nameStr, nameStr.any isUpalpha)

/-- the integer of a literal with a prefix of `pre` bits, its name and its value -/
def decodeLiteral (header : Field) (pre : ℕ) (buf : List (BitVec 8)) (indexingTable : HpackDynamicTable) : Decoded (Field × Bool) :=
  match decodeInteger buf pre with
  | .undefined => .undefined
  | .compressionError => .compressionError
  | .ok len index =>
    match decodeName header index (buf.drop len) indexingTable with
    | .undefined => .undefined
    | .compressionError => .compressionError
    | .ok nameLen name =>
      match decodeString (buf.drop (len + nameLen)) with
      | .undefined => .undefined
      | .compressionError => .compressionError
      | .ok valueLen valueStr => .ok (len + nameLen + valueLen) (name.1.valueSet valueStr, name.2)

/-- the prefix of a literal's index -/
def literalPrefix (ftype : HpackField) : ℕ := if ftype = .indexedLiteral then 6 else 4

/-- the first byte is read without a look at the end of the buffer -/
def decodeLiteralHeaderField (header : Field) (buf : List (BitVec 8)) (indexingTable : HpackDynamicTable) :
    Option (ℤ × Field × HpackDynamicTable) :=
  match buf with
  | [] => none
  | byte :: _ =>
    let ftype := hpackParseFieldType byte
    match decodeLiteral header (literalPrefix ftype) buf indexingTable with
    | .undefined => none
    | .compressionError => some (HPACK_ERROR_COMPRESSION_ERROR, header, indexingTable)
    | .ok len literal =>
      let indexingTable := if ftype = .indexedLiteral then indexingTable.addHeaderField literal.1 else indexingTable
      some (if literal.2 then -(len : ℤ) else len, literal.1, indexingTable)

def updateDynamicTableSize (buf : List (BitVec 8)) (indexingTable : HpackDynamicTable) (maximumTableSize : BitVec 32) :
    Option (ℤ × HpackDynamicTable) :=
  match buf with
  | [] => some (HPACK_ERROR_COMPRESSION_ERROR, indexingTable)
  | _ :: _ =>
    match decodeInteger buf 5 with
    | .undefined => none
    | .compressionError => some (HPACK_ERROR_COMPRESSION_ERROR, indexingTable)
    | .ok len size =>
      if size > maximumTableSize then some (HPACK_ERROR_COMPRESSION_ERROR, indexingTable)
      else
        let result := indexingTable.updateMaximumSize size
        if result.2 = false then some (HPACK_ERROR_COMPRESSION_ERROR, result.1) else some (len, result.1)

/-! ## The block -/

/-- the arguments of `hpack_decode_header_block` that stay as they are -/
structure Block where
  inBuf : List (BitVec 8)
  maxHeaderSize : BitVec 32
  maximumTableSize : BitVec 32

structure BlockState where
  cursor : ℕ
  table : HpackDynamicTable
  /-- the fields that have been attached to the header -/
  fields : List Field
  headerFieldStarted : Bool
  hasHttp2Violation : Bool
  totalHeaderSize : BitVec 32

/-- the return value, with the table and the fields, or nothing that is defined -/
inductive Leave where
  | returns (ret : ℤ) (table : HpackDynamicTable) (fields : List Field)
  | undefined

namespace BlockState

def init (table : HpackDynamicTable) : BlockState := ⟨0, table, [], false, false, 0⟩

/-- a field is complete: its size counts, and it is stored -/
def attach (b : Block) (s : BlockState) (field : Field) : BlockState ⊕ Leave :=
  let totalHeaderSize := s.totalHeaderSize + BitVec.ofNat 32 (field.name.length + field.value.length)
  if totalHeaderSize > b.maxHeaderSize then .inr (.returns HPACK_ERROR_SIZE_EXCEEDED_ERROR s.table s.fields)
  else .inl { s with totalHeaderSize, fields := s.fields ++ [field] }

def stepIndexed (b : Block) (s : BlockState) : BlockState ⊕ Leave :=
  match decodeIndexedHeaderField Field.empty (b.inBuf.drop s.cursor) s.table with
  | none => .inr .undefined
  | some (readBytes, header) =>
    if readBytes = HPACK_ERROR_COMPRESSION_ERROR then .inr (.returns HPACK_ERROR_COMPRESSION_ERROR s.table s.fields)
    else attach b { s with cursor := s.cursor + readBytes.toNat, headerFieldStarted := true } header

def stepLiteral (b : Block) (s : BlockState) : BlockState ⊕ Leave :=
  match decodeLiteralHeaderField Field.empty (b.inBuf.drop s.cursor) s.table with
  | none => .inr .undefined
  | some (readBytes, header, table) =>
    if readBytes = HPACK_ERROR_COMPRESSION_ERROR then .inr (.returns HPACK_ERROR_COMPRESSION_ERROR table s.fields)
    else
      attach b
        { s with
          table
          cursor := s.cursor + readBytes.natAbs
          hasHttp2Violation := s.hasHttp2Violation || readBytes < 0
          headerFieldStarted := true }
        header

def stepTableSize (b : Block) (s : BlockState) : BlockState ⊕ Leave :=
  if s.headerFieldStarted then .inr (.returns HPACK_ERROR_COMPRESSION_ERROR s.table s.fields)
  else
    match updateDynamicTableSize (b.inBuf.drop s.cursor) s.table b.maximumTableSize with
    | none => .inr .undefined
    | some (readBytes, table) =>
      if readBytes = HPACK_ERROR_COMPRESSION_ERROR then .inr (.returns HPACK_ERROR_COMPRESSION_ERROR table s.fields)
      else .inl { s with table, cursor := s.cursor + readBytes.toNat }

end BlockState

/-- one round of the loop, and the end of it -/
def blockStep (b : Block) (s : BlockState) : BlockState ⊕ Leave :=
  match b.inBuf.drop s.cursor with
  | [] => .inr (.returns (if s.hasHttp2Violation then -(s.cursor : ℤ) else s.cursor) s.table s.fields)
  | byte :: _ =>
    match hpackParseFieldType byte with
    | .index => s.stepIndexed b
    | .indexedLiteral | .noindexLiteral | .neverindexLiteral => s.stepLiteral b
    | .tablesizeUpdate => s.stepTableSize b

def decodeBlockLoop (b : Block) : ℕ → BlockState → Option Leave
  | 0, _ => none
  | fuel + 1, s =>
    match blockStep b s with
    | .inr leave => some leave
    | .inl s => decodeBlockLoop b fuel s

/-- a round for each byte is enough -/
def hpackDecodeHeaderBlock (b : Block) (table : HpackDynamicTable) : Option Leave := decodeBlockLoop b (b.inBuf.length + 1) (.init table)

/-! ## What is read -/

theorem integer_len {n v len : ℕ} {buf : List (BitVec 8)} (h : integer n buf = some (v, len)) : 1 ≤ len ∧ len ≤ buf.length := by
  cases buf with
  | nil => cases h
  | cons byte buf =>
    rw [integer] at h
    split_ifs at h with hlt
    · cases h
      exact ⟨le_refl 1, Nat.le_add_left 1 _⟩
    · obtain ⟨⟨w, r⟩, hread, heq⟩ := Option.map_eq_some_iff.mp h
      cases heq
      have := (Leb128.read_rest hread).2
      rw [List.length_cons]
      dsimp only
      omega

theorem decodeInteger_len {n len : ℕ} (hn : n ≤ 8) {buf : List (BitVec 8)} {v : BitVec 32} (h : decodeInteger buf n = .ok len v) :
    1 ≤ len ∧ len ≤ buf.length := by
  obtain ⟨-, w, hint, -⟩ := (decodeInteger_spec hn buf).ok len v h
  exact integer_len hint

theorem decodeInteger_undefined_iff {n : ℕ} (hn : n ≤ 8) (buf : List (BitVec 8)) :
    decodeInteger buf n = .undefined ↔ SixthGroup n buf := (decodeInteger_spec hn buf).undefined_iff

/-- the string is decoded in a defined way: a length without a sixth group, and a Huffman code that stays inside its buffer -/
def StringDefined (buf : List (BitVec 8)) : Prop :=
  ¬ SixthGroup 7 buf ∧ ∀ len n ret str, decodeInteger buf 7 = .ok len n → n.toNat ≤ (buf.drop len).length → buf.headD 0 &&& 0x80 ≠ 0 →
    huffmanDecode ((buf.drop len).take n.toNat) = some (ret, str) → str.length ≤ decodeBuffer n

theorem decodeString_len {len : ℕ} {buf str : List (BitVec 8)} (h : decodeString buf = .ok len str) : 1 ≤ len ∧ len ≤ buf.length := by
  cases buf with
  | nil => cases h
  | cons byte buf =>
    rw [decodeString] at h
    cases hint : decodeInteger (byte :: buf) 7 with
    | undefined => simp [hint] at h
    | compressionError => simp [hint] at h
    | ok len' n =>
      obtain ⟨hone, hle⟩ := decodeInteger_len (by decide) hint
      simp only [hint] at h
      by_cases hlong : n.toNat > ((byte :: buf).drop len').length
      · rw [if_pos hlong] at h
        cases h
      · rw [if_neg hlong] at h
        rw [List.length_drop] at hlong
        have hbound : 1 ≤ len' + n.toNat ∧ len' + n.toNat ≤ (byte :: buf).length := by omega
        by_cases hbit : byte &&& 0x80 ≠ 0
        · rw [if_pos hbit] at h
          cases hhuff : huffmanDecode (((byte :: buf).drop len').take n.toNat) with
          | none => rw [hhuff] at h; cases h
          | some r =>
            rw [hhuff] at h
            dsimp only at h
            split_ifs at h
            cases h
            exact hbound
        · rw [if_neg hbit] at h
          cases h
          exact hbound

theorem decodeString_undefined_iff (buf : List (BitVec 8)) : decodeString buf = .undefined ↔ ¬ StringDefined buf := by
  cases buf with
  | nil => simp [decodeString, StringDefined, SixthGroup, decodeInteger]
  | cons byte buf =>
    have hund := decodeInteger_undefined_iff (show 7 ≤ 8 by decide) (byte :: buf)
    rw [decodeString, StringDefined]
    cases hint : decodeInteger (byte :: buf) 7 with
    | undefined =>
      have hsixth := hund.mp hint
      simp [hsixth]
    | compressionError =>
      have hsixth : ¬ SixthGroup 7 (byte :: buf) := fun h => by rw [hund.mpr h] at hint; cases hint
      simp [hsixth]
    | ok len n =>
      have hsixth : ¬ SixthGroup 7 (byte :: buf) := fun h => by rw [hund.mpr h] at hint; cases hint
      simp only [hsixth, not_false_eq_true, true_and, List.headD_cons]
      constructor
      · intro h hdef
        by_cases hlong : n.toNat > ((byte :: buf).drop len).length
        · rw [if_pos hlong] at h
          cases h
        · rw [if_neg hlong] at h
          by_cases hbit : byte &&& 0x80 ≠ 0
          · rw [if_pos hbit] at h
            obtain ⟨ret, str, hhuff, _⟩ := huffmanDecode_bound (((byte :: buf).drop len).take n.toNat)
            rw [hhuff] at h
            dsimp only at h
            rw [if_neg (Nat.not_lt_of_le (hdef len n ret str rfl (Nat.le_of_not_lt hlong) hbit hhuff))] at h
            split_ifs at h
          · rw [if_neg hbit] at h
            cases h
      · intro hnot
        by_contra hne
        refine hnot fun len' n' ret str heq hle hbit hhuff => ?_
        cases heq
        by_contra hlt
        rw [if_neg (Nat.not_lt_of_le hle), if_pos hbit, hhuff] at hne
        exact hne (if_pos (Nat.lt_of_not_le hlt))

/-- the integer, the name and the value of a literal are decoded in a defined way -/
def LiteralDefined (pre : ℕ) (buf : List (BitVec 8)) : Prop :=
  ¬ SixthGroup pre buf ∧ ∀ len index, decodeInteger buf pre = .ok len index →
    (index ≠ 0 → StringDefined (buf.drop len)) ∧
    (index = 0 → StringDefined (buf.drop len) ∧
      ∀ nameLen name, decodeString (buf.drop len) = .ok nameLen name → StringDefined (buf.drop (len + nameLen)))

section Literal

variable {header : Field} {pre : ℕ} {buf : List (BitVec 8)} {t : HpackDynamicTable}

/-- an integer and a string at least -/
theorem decodeLiteral_len (hpre : pre ≤ 8) {len : ℕ} {literal : Field × Bool} (h : decodeLiteral header pre buf t = .ok len literal) :
    2 ≤ len ∧ len ≤ buf.length := by
  rw [decodeLiteral] at h
  cases hint : decodeInteger buf pre with
  | undefined => simp [hint] at h
  | compressionError => simp [hint] at h
  | ok len' index =>
    obtain ⟨hone, -⟩ := decodeInteger_len hpre hint
    simp only [hint] at h
    cases hname : decodeName header index (buf.drop len') t with
    | undefined => simp [hname] at h
    | compressionError => simp [hname] at h
    | ok nameLen name =>
      simp only [hname] at h
      cases hvalue : decodeString (buf.drop (len' + nameLen)) with
      | undefined => simp [hvalue] at h
      | compressionError => simp [hvalue] at h
      | ok valueLen value =>
        obtain ⟨hpos, hle⟩ := decodeString_len hvalue
        rw [List.length_drop] at hle
        simp only [hvalue] at h
        cases h
        omega

theorem decodeName_undefined_iff {index : BitVec 32} : decodeName header index buf t = .undefined ↔ index = 0 ∧ ¬ StringDefined buf := by
  rw [decodeName, ← decodeString_undefined_iff]
  by_cases hzero : index = 0
  · rw [if_neg (not_not.mpr hzero)]
    cases decodeString buf <;> simp [hzero]
  · rw [if_pos hzero]
    exact ⟨nofun, fun h => absurd h.1 hzero⟩

/-- one of the three is the first that is not defined -/
theorem decodeLiteral_undefined : decodeLiteral header pre buf t = .undefined ↔
    decodeInteger buf pre = .undefined ∨ ∃ len index, decodeInteger buf pre = .ok len index ∧
      (decodeName header index (buf.drop len) t = .undefined ∨ ∃ nameLen name, decodeName header index (buf.drop len) t = .ok nameLen name ∧
        decodeString (buf.drop (len + nameLen)) = .undefined) := by
  rw [decodeLiteral]
  cases decodeInteger buf pre with
  | undefined => simp
  | compressionError => simp
  | ok len index =>
    dsimp only
    constructor
    · intro h
      refine Or.inr ⟨len, index, rfl, ?_⟩
      cases hname : decodeName header index (buf.drop len) t with
      | undefined => exact Or.inl rfl
      | compressionError => simp [hname] at h
      | ok nameLen name =>
        refine Or.inr ⟨nameLen, name, rfl, ?_⟩
        simp only [hname] at h
        cases hvalue : decodeString (buf.drop (len + nameLen)) with
        | undefined => rfl
        | compressionError => simp [hvalue] at h
        | ok valueLen value => simp [hvalue] at h
    · intro h
      rcases h with h | ⟨len', index', heq, h⟩
      · cases h
      · cases heq
        rcases h with hname | ⟨nameLen, name, hname, hvalue⟩
        · rw [hname]
        · simp only [hname, hvalue]

theorem decodeLiteral_undefined_iff (hpre : pre ≤ 8) : decodeLiteral header pre buf t = .undefined ↔ ¬ LiteralDefined pre buf := by
  have hund := decodeInteger_undefined_iff hpre buf
  rw [decodeLiteral_undefined]
  constructor
  · intro h hdef
    rcases h with hint | ⟨len, index, hint, hname | ⟨nameLen, name, hname, hvalue⟩⟩
    · exact hdef.1 (hund.mp hint)
    · obtain ⟨hzero, hnot⟩ := decodeName_undefined_iff.mp hname
      exact hnot ((hdef.2 len index hint).2 hzero).1
    · have hnot := (decodeString_undefined_iff _).mp hvalue
      rw [decodeName] at hname
      by_cases hzero : index = 0
      · rw [if_neg (not_not.mpr hzero)] at hname
        cases hstr : decodeString (buf.drop len) with
        | undefined => rw [hstr] at hname; cases hname
        | compressionError => rw [hstr] at hname; cases hname
        | ok nameLen' nameStr =>
          rw [hstr] at hname
          cases hname
          exact hnot (((hdef.2 len index hint).2 hzero).2 nameLen nameStr hstr)
      · rw [if_pos hzero] at hname
        cases hname
        exact hnot ((hdef.2 len index hint).1 hzero)
  · intro hnot
    by_contra hall
    obtain ⟨hint, hrest⟩ := not_or.mp hall
    refine hnot ⟨fun hsixth => hint (hund.mpr hsixth), fun len index hok => ?_⟩
    have hname : ¬ (index = 0 ∧ ¬ StringDefined (buf.drop len)) := fun h => hrest ⟨len, index, hok, Or.inl (decodeName_undefined_iff.mpr h)⟩
    have hvalue : ∀ nameLen name, decodeName header index (buf.drop len) t = .ok nameLen name → StringDefined (buf.drop (len + nameLen)) := by
      intro nameLen name h
      by_contra hundef
      exact hrest ⟨len, index, hok, Or.inr ⟨nameLen, name, h, (decodeString_undefined_iff _).mpr hundef⟩⟩
    constructor
    · intro hzero
      exact hvalue 0 _ (if_pos hzero)
    · intro hzero
      refine ⟨by_contra fun hundef => hname ⟨hzero, hundef⟩, fun nameLen name hstr => hvalue nameLen (header.nameSet name, name.any isUpalpha) ?_⟩
      rw [decodeName, if_neg (not_not.mpr hzero), hstr]

end Literal

/-! ## One round -/

/-- an index that is in neither table -/
def Beyond (t : HpackDynamicTable) (index : BitVec 32) : Prop := TS_HPACK_STATIC_TABLE_ENTRY_NUM + t.length ≤ index.toNat

instance (t : HpackDynamicTable) (index : BitVec 32) : Decidable (Beyond t index) := Nat.decLe _ _

/-- the representation in front of `buf` has an index, which a literal with its own name has as 0 -/
def RefersTo (buf : List (BitVec 8)) (index : BitVec 32) : Prop :=
  match buf with
  | [] => False
  | byte :: _ =>
    match hpackParseFieldType byte with
    | .index => ∃ len, decodeInteger buf 7 = .ok len index
    | .indexedLiteral => ∃ len, decodeInteger buf 6 = .ok len index
    | .noindexLiteral | .neverindexLiteral => ∃ len, decodeInteger buf 4 = .ok len index
    | .tablesizeUpdate => False

def Leave.table : Leave → Option HpackDynamicTable
  | .returns _ table _ => some table
  | .undefined => none

/-- the table behind a round -/
def tableAfter : BlockState ⊕ Leave → Option HpackDynamicTable
  | .inl s => some s.table
  | .inr leave => leave.table

/-- what is expected of a round, with tables of up to `permitted` bytes -/
structure StepSound (permitted : BitVec 32) (b : Block) (s : BlockState) : Prop where
  /-- no byte behind the block is read, none is written behind a buffer, and no shift is too wide -/
  defined : blockStep b s ≠ .inr .undefined
  progress : ∀ s', blockStep b s = .inl s' → s.cursor < s'.cursor ∧ s'.cursor ≤ b.inBuf.length
  table : ∀ t, tableAfter (blockStep b s) = some t → total t.headers ≤ permitted.toNat
  reference : ∀ index, RefersTo (b.inBuf.drop s.cursor) index → Beyond s.table index → ∃ ret t fields,
    blockStep b s = .inr (.returns ret t fields) ∧ (ret = HPACK_ERROR_COMPRESSION_ERROR ∨ ret = HPACK_ERROR_SIZE_EXCEEDED_ERROR)

/-- the header is larger than it may be with the field -/
def TooLarge (b : Block) (s : BlockState) (field : Field) : Prop :=
  s.totalHeaderSize + BitVec.ofNat 32 (field.name.length + field.value.length) > b.maxHeaderSize

/-- a literal with an index beyond the tables has no value that can be read, or one that is too large for the header -/
def RefersOk (b : Block) (s : BlockState) (pre : ℕ) (buf : List (BitVec 8)) : Prop :=
  ∀ len index valueLen value, decodeInteger buf pre = .ok len index → Beyond s.table index →
    decodeString (buf.drop len) = .ok valueLen value → TooLarge b s (Field.empty.valueSet value)

/-- the size of the table with the new entry has 32 bits -/
def RoomOk (t : HpackDynamicTable) (pre : ℕ) (buf : List (BitVec 8)) : Prop :=
  ∀ len literal, decodeLiteral Field.empty pre buf t = .ok len literal → AddOk t (.add literal.1)

/-- the representation is decoded in a defined way, refers to what there is and does not wrap the size of the table -/
def StepGood (b : Block) (s : BlockState) : Prop :=
  match b.inBuf.drop s.cursor with
  | [] => True
  | byte :: rest =>
    match hpackParseFieldType byte with
    | .index => ¬ SixthGroup 7 (byte :: rest)
    | .indexedLiteral => LiteralDefined 6 (byte :: rest) ∧ RefersOk b s 6 (byte :: rest) ∧ RoomOk s.table 6 (byte :: rest)
    | .noindexLiteral | .neverindexLiteral => LiteralDefined 4 (byte :: rest) ∧ RefersOk b s 4 (byte :: rest)
    | .tablesizeUpdate => s.headerFieldStarted = true ∨ ¬ SixthGroup 5 (byte :: rest)

/-- a table of a connection: its size is that of its entries, and within its maximum -/
structure TableOk (permitted : BitVec 32) (t : HpackDynamicTable) : Prop where
  size_eq : t.currentSize = total t.headers
  size_le : t.currentSize ≤ t.maximumSize
  maximum_le : t.maximumSize ≤ permitted.toNat

variable {permitted : BitVec 32} {b : Block} {s s' : BlockState} {t : HpackDynamicTable}

theorem TableOk.maximum_lt (h : TableOk permitted t) : t.maximumSize < 2 ^ 32 := lt_of_le_of_lt h.maximum_le permitted.isLt

theorem TableOk.total_le (h : TableOk permitted t) : total t.headers ≤ permitted.toNat := h.size_eq ▸ h.size_le.trans h.maximum_le

/-- entries have 32 bytes at least, so that the number of entries does not wrap -/
theorem length_le_total (l : List Field) : 32 * l.length ≤ total l := by
  induction l with
  | nil => exact Nat.zero_le _
  | cons f l ih =>
    have hsize : 32 ≤ f.size := by
      unfold Field.size ADDITIONAL_OCTETS
      omega
    rw [List.length_cons, total_cons]
    omega

theorem TableOk.addHeaderField (h : TableOk permitted t) {f : Field} (hadd : AddOk t (.add f)) : TableOk permitted (t.addHeaderField f) := by
  rw [addHeaderField_eq h.size_eq hadd]
  exact ⟨rfl, total_fit _ _, h.maximum_le⟩

/-- without room in 32 bits no entry leaves for the new one -/
theorem TableOk.add_wraps (h : TableOk permitted t) {f : Field} (hadd : ¬ AddOk t (.add f)) :
    permitted.toNat < total (t.addHeaderField f).headers := by
  obtain ⟨hf, hover⟩ := Classical.not_imp.mp hadd
  have hmax := h.maximum_lt
  have hle := h.size_le
  have hperm := permitted.isLt
  have hsize := h.size_eq
  rw [HpackDynamicTable.addHeaderField, if_neg (by omega)]
  dsimp only
  rw [HpackDynamicTable.evict, if_neg (by dsimp only; omega)]
  dsimp only
  rw [total_cons]
  omega

theorem TableOk.updateMaximumSize (h : TableOk permitted t) {n : BitVec 32} (hn : n ≤ permitted) :
    TableOk permitted (t.updateMaximumSize n).1 ∧ (t.updateMaximumSize n).2 = true := by
  rw [updateMaximumSize_eq h.size_eq (lt_of_le_of_lt h.size_le h.maximum_lt)]
  exact ⟨⟨rfl, total_fit _ _, BitVec.le_def.mp hn⟩, rfl⟩

/-- an index beyond the tables is an error -/
theorem getHeaderField_beyond (h : TableOk permitted t) {index : BitVec 32} (hbeyond : Beyond t index) (field : Field) :
    getHeaderField t index field = (HPACK_ERROR_COMPRESSION_ERROR, field) := by
  have hlen : 32 * t.length ≤ permitted.toNat := (length_le_total t.headers).trans h.total_le
  have hperm := permitted.isLt
  unfold Beyond TS_HPACK_STATIC_TABLE_ENTRY_NUM at hbeyond
  have hzero : index ≠ 0 := by
    intro hindex
    have htoNat : index.toNat = 0 := congrArg BitVec.toNat hindex
    omega
  rw [getHeaderField, if_neg hzero, TS_HPACK_STATIC_TABLE_ENTRY_NUM, if_neg (by omega), if_neg (by omega)]

/-- the field is stored, or the header is too large -/
theorem attach_cases (b : Block) (s : BlockState) (field : Field) :
    (¬ TooLarge b s field ∧ ∃ fields size, BlockState.attach b s field = .inl { s with fields := fields, totalHeaderSize := size }) ∨
      TooLarge b s field ∧ BlockState.attach b s field = .inr (.returns HPACK_ERROR_SIZE_EXCEEDED_ERROR s.table s.fields) := by
  unfold BlockState.attach
  dsimp only
  by_cases hlarge : TooLarge b s field
  · exact Or.inr ⟨hlarge, if_pos hlarge⟩
  · exact Or.inl ⟨hlarge, _, _, if_neg hlarge⟩

/-- a round with a defined result: it goes on in the block or returns, and the table is one of the connection -/
inductive Outcome (permitted : BitVec 32) (b : Block) (s : BlockState) : BlockState ⊕ Leave → Prop
  | next {s' : BlockState} (hlt : s.cursor < s'.cursor) (hle : s'.cursor ≤ b.inBuf.length) (htable : TableOk permitted s'.table) :
    Outcome permitted b s (.inl s')
  | leave {ret : ℤ} {t : HpackDynamicTable} {fields : List Field} (htable : TableOk permitted t) :
    Outcome permitted b s (.inr (.returns ret t fields))

theorem Outcome.attach {u : BlockState} (hlt : s.cursor < u.cursor) (hle : u.cursor ≤ b.inBuf.length) (htable : TableOk permitted u.table)
    (field : Field) : Outcome permitted b s (u.attach b field) := by
  rcases attach_cases b u field with ⟨-, fields, size, h⟩ | ⟨-, h⟩
  · rw [h]
    exact .next hlt hle htable
  · rw [h]
    exact .leave htable

/-- behind a representation of `len` bytes -/
theorem cursor_le {len : ℕ} (hs : s.cursor ≤ b.inBuf.length) (h : len ≤ (b.inBuf.drop s.cursor).length) :
    s.cursor + len ≤ b.inBuf.length := by
  rw [List.length_drop] at h
  omega

theorem natCast_ne_error (len : ℕ) : (len : ℤ) ≠ HPACK_ERROR_COMPRESSION_ERROR := by
  unfold HPACK_ERROR_COMPRESSION_ERROR
  omega

/-! ### A field of the tables -/

theorem stepIndexed_undefined (h : SixthGroup 7 (b.inBuf.drop s.cursor)) : s.stepIndexed b = .inr .undefined := by
  rw [BlockState.stepIndexed, decodeIndexedHeaderField, (decodeInteger_undefined_iff (by decide) _).mpr h]

theorem stepIndexed_outcome (ht : TableOk permitted s.table) (hs : s.cursor ≤ b.inBuf.length) (h : ¬ SixthGroup 7 (b.inBuf.drop s.cursor)) :
    Outcome permitted b s (s.stepIndexed b) := by
  rw [BlockState.stepIndexed, decodeIndexedHeaderField]
  cases hint : decodeInteger (b.inBuf.drop s.cursor) 7 with
  | undefined => exact absurd ((decodeInteger_undefined_iff (by decide) _).mp hint) h
  | compressionError => exact .leave ht
  | ok len index =>
    obtain ⟨hone, hle⟩ := decodeInteger_len (by decide) hint
    dsimp only
    by_cases herr : (getHeaderField s.table index Field.empty).1 = HPACK_ERROR_COMPRESSION_ERROR
    · rw [if_pos herr]
      exact .leave ht
    · rw [if_neg herr]
      dsimp only
      rw [if_neg (natCast_ne_error len), Int.toNat_natCast]
      refine Outcome.attach ?_ ?_ ?_ _
      · exact Nat.lt_add_of_pos_right hone
      · exact cursor_le hs hle
      · exact ht

theorem stepIndexed_beyond (ht : TableOk permitted s.table) {len : ℕ} {index : BitVec 32}
    (hint : decodeInteger (b.inBuf.drop s.cursor) 7 = .ok len index) (hbeyond : Beyond s.table index) :
    s.stepIndexed b = .inr (.returns HPACK_ERROR_COMPRESSION_ERROR s.table s.fields) := by
  rw [BlockState.stepIndexed, decodeIndexedHeaderField, hint]
  dsimp only
  rw [getHeaderField_beyond ht hbeyond]
  rfl

/-! ### A literal -/

/-- the table behind a literal of type `ftype` -/
def literalTable (ftype : HpackField) (t : HpackDynamicTable) (field : Field) : HpackDynamicTable :=
  if ftype = .indexedLiteral then t.addHeaderField field else t

theorem literalPrefix_le (ftype : HpackField) : literalPrefix ftype ≤ 8 := by
  unfold literalPrefix
  split_ifs <;> decide

/-- a literal that is decoded is a field of the header, and its table is that of its type -/
theorem stepLiteral_eq {byte : BitVec 8} {rest : List (BitVec 8)} (hbuf : b.inBuf.drop s.cursor = byte :: rest) {len : ℕ}
    {literal : Field × Bool}
    (h : decodeLiteral Field.empty (literalPrefix (hpackParseFieldType byte)) (byte :: rest) s.table = .ok len literal) :
    ∃ violation, s.stepLiteral b =
      BlockState.attach b
        { s with
          table := literalTable (hpackParseFieldType byte) s.table literal.1
          cursor := s.cursor + len
          hasHttp2Violation := violation
          headerFieldStarted := true }
        literal.1 := by
  have hlen := (decodeLiteral_len (literalPrefix_le _) h).1
  rw [BlockState.stepLiteral, hbuf, decodeLiteralHeaderField, h]
  dsimp only
  have hret : (if literal.2 = true then -(len : ℤ) else len) ≠ HPACK_ERROR_COMPRESSION_ERROR := by
    unfold HPACK_ERROR_COMPRESSION_ERROR
    split_ifs <;> omega
  have habs : (if literal.2 = true then -(len : ℤ) else len).natAbs = len := by
    split_ifs <;> omega
  rw [if_neg hret, habs]
  exact ⟨_, rfl⟩

theorem stepLiteral_undefined {byte : BitVec 8} {rest : List (BitVec 8)} (hbuf : b.inBuf.drop s.cursor = byte :: rest)
    (h : ¬ LiteralDefined (literalPrefix (hpackParseFieldType byte)) (byte :: rest)) : s.stepLiteral b = .inr .undefined := by
  rw [BlockState.stepLiteral, hbuf, decodeLiteralHeaderField, (decodeLiteral_undefined_iff (literalPrefix_le _)).mpr h]

theorem stepLiteral_outcome (ht : TableOk permitted s.table) (hs : s.cursor ≤ b.inBuf.length) {byte : BitVec 8} {rest : List (BitVec 8)}
    (hbuf : b.inBuf.drop s.cursor = byte :: rest) (hdef : LiteralDefined (literalPrefix (hpackParseFieldType byte)) (byte :: rest))
    (hroom : hpackParseFieldType byte = .indexedLiteral → RoomOk s.table 6 (byte :: rest)) : Outcome permitted b s (s.stepLiteral b) := by
  cases hliteral : decodeLiteral Field.empty (literalPrefix (hpackParseFieldType byte)) (byte :: rest) s.table with
  | undefined => exact absurd hdef ((decodeLiteral_undefined_iff (literalPrefix_le _)).mp hliteral)
  | compressionError =>
    rw [BlockState.stepLiteral, hbuf, decodeLiteralHeaderField, hliteral]
    exact .leave ht
  | ok len literal =>
    obtain ⟨htwo, hle⟩ := decodeLiteral_len (literalPrefix_le _) hliteral
    obtain ⟨violation, heq⟩ := stepLiteral_eq hbuf hliteral
    rw [heq]
    refine Outcome.attach ?_ ?_ ?_ _
    · exact Nat.lt_add_of_pos_right (Nat.lt_of_lt_of_le Nat.zero_lt_two htwo)
    · rw [← hbuf] at hle
      exact cursor_le hs hle
    · dsimp only [literalTable]
      by_cases hindexed : hpackParseFieldType byte = .indexedLiteral
      · rw [if_pos hindexed]
        rw [literalPrefix, if_pos hindexed] at hliteral
        exact ht.addHeaderField (hroom hindexed len literal hliteral)
      · rw [if_neg hindexed]
        exact ht

/-- without room for the size the table is larger than it may be -/
theorem stepLiteral_wraps (ht : TableOk permitted s.table) {byte : BitVec 8} {rest : List (BitVec 8)}
    (hbuf : b.inBuf.drop s.cursor = byte :: rest) (hindexed : hpackParseFieldType byte = .indexedLiteral)
    (hroom : ¬ RoomOk s.table 6 (byte :: rest)) :
    ∃ t, tableAfter (s.stepLiteral b) = some t ∧ permitted.toNat < total t.headers := by
  obtain ⟨len, literal, hliteral, hadd⟩ : ∃ len literal, decodeLiteral Field.empty 6 (byte :: rest) s.table = .ok len literal ∧
      ¬ AddOk s.table (.add literal.1) := by
    by_contra hnone
    exact hroom fun len literal h => by_contra fun hadd => hnone ⟨len, literal, h, hadd⟩
  have hpre : literalPrefix (hpackParseFieldType byte) = 6 := by rw [literalPrefix, if_pos hindexed]
  obtain ⟨violation, heq⟩ := stepLiteral_eq hbuf (hpre.symm ▸ hliteral)
  refine ⟨s.table.addHeaderField literal.1, ?_, ht.add_wraps hadd⟩
  rw [heq, literalTable, if_pos hindexed]
  rcases attach_cases b { s with
      table := s.table.addHeaderField literal.1
      cursor := s.cursor + len
      hasHttp2Violation := violation
      headerFieldStarted := true } literal.1 with ⟨-, fields, size, h⟩ | ⟨-, h⟩
  · rw [h]
    rfl
  · rw [h]
    rfl

/-- The name of a literal with an index beyond the tables stays empty, and only its value can be in error. -/
theorem stepLiteral_beyond (ht : TableOk permitted s.table) {byte : BitVec 8} {rest : List (BitVec 8)}
    (hbuf : b.inBuf.drop s.cursor = byte :: rest) {len : ℕ} {index : BitVec 32}
    (hint : decodeInteger (byte :: rest) (literalPrefix (hpackParseFieldType byte)) = .ok len index) (hbeyond : Beyond s.table index)
    (hdef : LiteralDefined (literalPrefix (hpackParseFieldType byte)) (byte :: rest)) :
    (∃ ret t fields, s.stepLiteral b = .inr (.returns ret t fields) ∧
      (ret = HPACK_ERROR_COMPRESSION_ERROR ∨ ret = HPACK_ERROR_SIZE_EXCEEDED_ERROR)) ↔
    ∀ valueLen value, decodeString ((byte :: rest).drop len) = .ok valueLen value → TooLarge b s (Field.empty.valueSet value) := by
  have hzero : index ≠ 0 := by
    intro h
    have htoNat : index.toNat = 0 := congrArg BitVec.toNat h
    unfold Beyond TS_HPACK_STATIC_TABLE_ENTRY_NUM at hbeyond
    omega
  have hliteral : decodeLiteral Field.empty (literalPrefix (hpackParseFieldType byte)) (byte :: rest) s.table =
      match decodeString ((byte :: rest).drop len) with
      | .undefined => .undefined
      | .compressionError => .compressionError
      | .ok valueLen valueStr => .ok (len + valueLen) (Field.empty.valueSet valueStr, false) := by
    rw [decodeLiteral, hint]
    dsimp only
    rw [decodeName, if_pos hzero, getHeaderField_beyond ht hbeyond]
    rfl
  cases hvalue : decodeString ((byte :: rest).drop len) with
  | undefined => exact absurd ((hdef.2 len index hint).1 hzero) ((decodeString_undefined_iff _).mp hvalue)
  | compressionError =>
    rw [hvalue] at hliteral
    refine ⟨fun _ valueLen value h => absurd h nofun, fun _ => ⟨HPACK_ERROR_COMPRESSION_ERROR, s.table, s.fields, ?_, Or.inl rfl⟩⟩
    rw [BlockState.stepLiteral, hbuf, decodeLiteralHeaderField, hliteral]
    rfl
  | ok valueLen value =>
    rw [hvalue] at hliteral
    obtain ⟨violation, heq⟩ := stepLiteral_eq hbuf hliteral
    rw [heq]
    rcases attach_cases b { s with
        table := literalTable (hpackParseFieldType byte) s.table (Field.empty.valueSet value)
        cursor := s.cursor + (len + valueLen)
        hasHttp2Violation := violation
        headerFieldStarted := true } (Field.empty.valueSet value) with ⟨hfits, fields, size, h⟩ | ⟨hlarge, h⟩
    · constructor
      · intro ⟨ret, t, fields', hret, _⟩
        rw [h] at hret
        cases hret
      · intro hall
        exact absurd (hall valueLen value rfl) hfits
    · constructor
      · intro _ valueLen' value' heq'
        cases heq'
        exact hlarge
      · intro _
        exact ⟨_, _, _, h, Or.inr rfl⟩

/-! ### A new maximum -/

theorem stepTableSize_undefined {byte : BitVec 8} {rest : List (BitVec 8)} (hbuf : b.inBuf.drop s.cursor = byte :: rest)
    (hstarted : s.headerFieldStarted = false) (h : SixthGroup 5 (byte :: rest)) : s.stepTableSize b = .inr .undefined := by
  rw [BlockState.stepTableSize, if_neg (by simp [hstarted]), hbuf, updateDynamicTableSize,
    (decodeInteger_undefined_iff (by decide) _).mpr h]

theorem stepTableSize_outcome (ht : TableOk permitted s.table) (hmax : b.maximumTableSize ≤ permitted) (hs : s.cursor ≤ b.inBuf.length)
    {byte : BitVec 8} {rest : List (BitVec 8)} (hbuf : b.inBuf.drop s.cursor = byte :: rest)
    (h : s.headerFieldStarted = true ∨ ¬ SixthGroup 5 (byte :: rest)) : Outcome permitted b s (s.stepTableSize b) := by
  rw [BlockState.stepTableSize]
  by_cases hstarted : s.headerFieldStarted = true
  · rw [if_pos hstarted]
    exact .leave ht
  · rw [if_neg hstarted, hbuf, updateDynamicTableSize]
    cases hint : decodeInteger (byte :: rest) 5 with
    | undefined => exact absurd ((decodeInteger_undefined_iff (by decide) _).mp hint) (h.resolve_left hstarted)
    | compressionError => exact .leave ht
    | ok len size =>
      obtain ⟨hone, hle⟩ := decodeInteger_len (by decide) hint
      dsimp only
      by_cases hsize : size > b.maximumTableSize
      · rw [if_pos hsize]
        exact .leave ht
      · obtain ⟨htable, hdone⟩ := ht.updateMaximumSize (BitVec.le_trans (BitVec.not_lt.mp hsize) hmax)
        rw [if_neg hsize, hdone, if_neg (by decide)]
        dsimp only
        rw [if_neg (natCast_ne_error len), Int.toNat_natCast]
        refine .next ?_ ?_ htable
        · exact Nat.lt_add_of_pos_right hone
        · rw [← hbuf] at hle
          exact cursor_le hs hle

/-! ### The five of them -/

theorem step_outcome (ht : TableOk permitted s.table) (hmax : b.maximumTableSize ≤ permitted) (hs : s.cursor ≤ b.inBuf.length)
    (h : StepGood b s) : Outcome permitted b s (blockStep b s) := by
  rw [blockStep]
  rw [StepGood] at h
  cases hbuf : b.inBuf.drop s.cursor with
  | nil => exact .leave ht
  | cons byte rest =>
    rw [hbuf] at h
    dsimp only at h ⊢
    have hliteral := stepLiteral_outcome ht hs hbuf
    cases htype : hpackParseFieldType byte with
    | index =>
      rw [htype] at h
      exact stepIndexed_outcome ht hs (hbuf.symm ▸ h)
    | indexedLiteral =>
      rw [htype] at h hliteral
      exact hliteral h.1 fun _ => h.2.2
    | noindexLiteral =>
      rw [htype] at h hliteral
      exact hliteral h.1 nofun
    | neverindexLiteral =>
      rw [htype] at h hliteral
      exact hliteral h.1 nofun
    | tablesizeUpdate =>
      rw [htype] at h
      exact stepTableSize_outcome ht hmax hs hbuf h

theorem step_reference (ht : TableOk permitted s.table) (h : StepGood b s) {index : BitVec 32}
    (hrefers : RefersTo (b.inBuf.drop s.cursor) index) (hbeyond : Beyond s.table index) : ∃ ret t fields,
    blockStep b s = .inr (.returns ret t fields) ∧ (ret = HPACK_ERROR_COMPRESSION_ERROR ∨ ret = HPACK_ERROR_SIZE_EXCEEDED_ERROR) := by
  rw [blockStep]
  rw [StepGood] at h
  cases hbuf : b.inBuf.drop s.cursor with
  | nil =>
    rw [hbuf] at hrefers
    exact hrefers.elim
  | cons byte rest =>
    rw [hbuf, RefersTo] at hrefers
    rw [hbuf] at h
    dsimp only at h hrefers ⊢
    have hliteral : ∀ len, decodeInteger (byte :: rest) (literalPrefix (hpackParseFieldType byte)) = .ok len index → _ := fun len hint =>
      stepLiteral_beyond ht hbuf hint hbeyond
    cases htype : hpackParseFieldType byte with
    | index =>
      rw [htype] at hrefers
      obtain ⟨len, hint⟩ := hrefers
      exact ⟨_, _, _, stepIndexed_beyond ht (hbuf.symm ▸ hint) hbeyond, Or.inl rfl⟩
    | indexedLiteral =>
      rw [htype] at hrefers h hliteral
      obtain ⟨len, hint⟩ := hrefers
      exact (hliteral len hint h.1).mpr fun valueLen value => h.2.1 len index valueLen value hint hbeyond
    | noindexLiteral =>
      rw [htype] at hrefers h hliteral
      obtain ⟨len, hint⟩ := hrefers
      exact (hliteral len hint h.1).mpr fun valueLen value => h.2 len index valueLen value hint hbeyond
    | neverindexLiteral =>
      rw [htype] at hrefers h hliteral
      obtain ⟨len, hint⟩ := hrefers
      exact (hliteral len hint h.1).mpr fun valueLen value => h.2 len index valueLen value hint hbeyond
    | tablesizeUpdate =>
      rw [htype] at hrefers
      exact hrefers.elim

/-- a literal of a round as expected -/
theorem literal_good (ht : TableOk permitted s.table) {byte : BitVec 8} {rest : List (BitVec 8)}
    (hbuf : b.inBuf.drop s.cursor = byte :: rest) (h : StepSound permitted b s) (hstep : blockStep b s = s.stepLiteral b)
    (hrefers : ∀ len index, decodeInteger (byte :: rest) (literalPrefix (hpackParseFieldType byte)) = .ok len index →
      RefersTo (b.inBuf.drop s.cursor) index) :
    LiteralDefined (literalPrefix (hpackParseFieldType byte)) (byte :: rest) ∧
      RefersOk b s (literalPrefix (hpackParseFieldType byte)) (byte :: rest) ∧
      (hpackParseFieldType byte = .indexedLiteral → RoomOk s.table 6 (byte :: rest)) := by
  have hdef : LiteralDefined (literalPrefix (hpackParseFieldType byte)) (byte :: rest) := by
    by_contra hnot
    exact h.defined (hstep.trans (stepLiteral_undefined hbuf hnot))
  refine ⟨hdef, fun len index valueLen value hint hbeyond => ?_, fun hindexed => ?_⟩
  · have herr := h.reference index (hrefers len index hint) hbeyond
    rw [hstep] at herr
    exact (stepLiteral_beyond ht hbuf hint hbeyond hdef).mp herr valueLen value
  · by_contra hroom
    obtain ⟨t, hafter, hlt⟩ := stepLiteral_wraps ht hbuf hindexed hroom
    exact absurd (h.table t (hstep.symm ▸ hafter)) (Nat.not_le_of_lt hlt)

theorem step_good (ht : TableOk permitted s.table) (h : StepSound permitted b s) : StepGood b s := by
  rw [StepGood]
  cases hbuf : b.inBuf.drop s.cursor with
  | nil => exact trivial
  | cons byte rest =>
    have hliteral := literal_good ht hbuf h
    have hstep : blockStep b s = match hpackParseFieldType byte with
        | .index => s.stepIndexed b
        | .indexedLiteral | .noindexLiteral | .neverindexLiteral => s.stepLiteral b
        | .tablesizeUpdate => s.stepTableSize b := by
      rw [blockStep, hbuf]
    simp only [hbuf, RefersTo] at hliteral
    dsimp only
    cases htype : hpackParseFieldType byte with
    | index =>
      intro hsixth
      rw [htype] at hstep
      exact h.defined (hstep.trans (stepIndexed_undefined (hbuf.symm ▸ hsixth)))
    | indexedLiteral =>
      rw [htype] at hstep hliteral
      obtain ⟨hdef, hrefers, hroom⟩ := hliteral hstep fun len index hint => ⟨len, hint⟩
      exact ⟨hdef, hrefers, hroom rfl⟩
    | noindexLiteral =>
      rw [htype] at hstep hliteral
      obtain ⟨hdef, hrefers, -⟩ := hliteral hstep fun len index hint => ⟨len, hint⟩
      exact ⟨hdef, hrefers⟩
    | neverindexLiteral =>
      rw [htype] at hstep hliteral
      obtain ⟨hdef, hrefers, -⟩ := hliteral hstep fun len index hint => ⟨len, hint⟩
      exact ⟨hdef, hrefers⟩
    | tablesizeUpdate =>
      rw [htype] at hstep
      by_contra hbad
      obtain ⟨hstarted, hsixth⟩ := not_or.mp hbad
      exact h.defined (hstep.trans (stepTableSize_undefined hbuf (Bool.eq_false_of_not_eq_true hstarted) (not_not.mp hsixth)))

theorem step_sound (ht : TableOk permitted s.table) (hmax : b.maximumTableSize ≤ permitted) (hs : s.cursor ≤ b.inBuf.length)
    (h : StepGood b s) : StepSound permitted b s := by
  have hout := step_outcome ht hmax hs h
  refine ⟨fun hund => ?_, fun s' hnext => ?_, fun t hafter => ?_, fun index => step_reference ht h⟩
  · rw [hund] at hout
    cases hout
  · rw [hnext] at hout
    cases hout with
    | next hlt hle _ => exact ⟨hlt, hle⟩
  · cases hres : blockStep b s with
    | inl s' =>
      rw [hres] at hout hafter
      cases hafter
      cases hout with
      | next _ _ htable => exact htable.total_le
    | inr leave =>
      rw [hres] at hout hafter
      cases hout with
      | leave htable =>
        cases hafter
        exact htable.total_le

/-! ## The loop -/

/-- what is expected of the decoding of a block -/
structure BlockSound (permitted : BitVec 32) (b : Block) (t : HpackDynamicTable) : Prop where
  ends : ∃ leave, hpackDecodeHeaderBlock b t = some leave
  rounds : ∀ s, Reaches (blockStep b) (.init t) s → StepSound permitted b s

def BlockGood (b : Block) (t : HpackDynamicTable) : Prop := ∀ s, Reaches (blockStep b) (.init t) s → StepGood b s

/-- the table that a block leaves -/
def blockTable (t : HpackDynamicTable) (b : Block) : HpackDynamicTable := ((hpackDecodeHeaderBlock b t).bind Leave.table).getD t

/-- the table of a connection in each round, as long as the rounds are good where the table is -/
theorem reaches_tableOk (ht : TableOk permitted t) (hmax : b.maximumTableSize ≤ permitted)
    (hgood : ∀ s, Reaches (blockStep b) (.init t) s → TableOk permitted s.table → StepGood b s)
    (hr : Reaches (blockStep b) (.init t) s) : TableOk permitted s.table ∧ s.cursor ≤ b.inBuf.length := by
  induction hr with
  | refl => exact ⟨ht, Nat.zero_le _⟩
  | tail hr hnext ih =>
    have hout := step_outcome ih.1 hmax ih.2 (hgood _ hr ih.1)
    rw [hnext] at hout
    cases hout with
    | next _ hle htable => exact ⟨htable, hle⟩

/-- each round takes a byte at least -/
theorem decodeBlockLoop_leaves (fuel : ℕ) (hfuel : b.inBuf.length - s.cursor < fuel)
    (h : ∀ s', Reaches (blockStep b) s s' → StepSound permitted b s') :
    ∃ leave s', decodeBlockLoop b fuel s = some leave ∧ Reaches (blockStep b) s s' ∧ blockStep b s' = .inr leave := by
  induction fuel generalizing s with
  | zero => exact absurd hfuel (Nat.not_lt_zero _)
  | succ fuel ih =>
    rw [decodeBlockLoop]
    cases hstep : blockStep b s with
    | inr leave => exact ⟨leave, s, rfl, .refl, hstep⟩
    | inl s₁ =>
      obtain ⟨hlt, hle⟩ := (h s .refl).progress s₁ hstep
      obtain ⟨leave, s', hloop, hr, hleave⟩ := ih (by omega) fun s' hr => h s' (.head hstep hr)
      exact ⟨leave, s', hloop, .head hstep hr, hleave⟩

theorem block_sound_iff (ht : TableOk permitted t) (hmax : b.maximumTableSize ≤ permitted) : BlockSound permitted b t ↔ BlockGood b t := by
  constructor
  · intro h s hr
    have hs := reaches_tableOk ht hmax (fun s hr hs => step_good hs (h.rounds s hr)) hr
    exact step_good hs.1 (h.rounds s hr)
  · intro h
    have hrounds : ∀ s, Reaches (blockStep b) (.init t) s → StepSound permitted b s := by
      intro s hr
      have hs := reaches_tableOk ht hmax (fun s hr _ => h s hr) hr
      exact step_sound hs.1 hmax hs.2 (h s hr)
    obtain ⟨leave, _, hloop, -⟩ := decodeBlockLoop_leaves _ (Nat.lt_succ_of_le (Nat.sub_le _ _)) hrounds
    exact ⟨⟨leave, hloop⟩, hrounds⟩

/-- the table behind a block as expected is again one of the connection -/
theorem TableOk.blockTable (ht : TableOk permitted t) (hmax : b.maximumTableSize ≤ permitted) (h : BlockSound permitted b t) :
    TableOk permitted (blockTable t b) := by
  have hgood := (block_sound_iff ht hmax).mp h
  obtain ⟨leave, s, hloop, hr, hleave⟩ := decodeBlockLoop_leaves _ (Nat.lt_succ_of_le (Nat.sub_le _ _)) h.rounds
  have hs := reaches_tableOk ht hmax (fun s hr _ => hgood s hr) hr
  have hout := step_outcome hs.1 hmax hs.2 (hgood s hr)
  rw [Hpack.blockTable, hpackDecodeHeaderBlock, hloop]
  rw [hleave] at hout
  cases hout with
  | leave htable => exact htable

theorem tableOk_new {size : BitVec 32} (h : size ≤ permitted) : TableOk permitted (.new size) := ⟨rfl, Nat.zero_le _, BitVec.le_def.mp h⟩

/-- For every connection: its blocks are decoded as expected exactly as long as their rounds are good. -/
theorem decode_sound_iff {size : BitVec 32} (hsize : size ≤ permitted) {blocks : List Block}
    (hmax : ∀ b ∈ blocks, b.maximumTableSize ≤ permitted) :
    Along blockTable (fun t b => BlockSound permitted b t) (.new size) blocks ↔
      Along blockTable (fun t b => BlockGood b t) (.new size) blocks := by
  have hC : Along blockTable (fun _ b => b.maximumTableSize ≤ permitted) (.new size) blocks := along_of_forall hmax
  exact along_congr (I := TableOk permitted) (fun t b ht hb => block_sound_iff ht hb) (fun t b ht hb h => ht.blockTable hb h) hC
    (tableOk_new hsize)

/-- `:method: GET` from the static table -/
def getBlock : Block := ⟨[0x82], 4096, 4096⟩

theorem blockGood_getBlock (t : HpackDynamicTable) : BlockGood getBlock t := by
  intro s hr
  have hnext : ∀ s₁, blockStep getBlock (.init t) = .inl s₁ → s₁.cursor = 1 := by
    intro s₁ h
    cases h
    rfl
  have hend : ∀ s₁ : BlockState, s₁.cursor = 1 → getBlock.inBuf.drop s₁.cursor = [] := by
    intro s₁ h
    rw [h]
    rfl
  rcases Relation.ReflTransGen.cases_head hr with rfl | ⟨s₁, hstep, hr'⟩
  · intro hsixth
    have hund : decodeInteger [0x82] 7 = .undefined := (decodeInteger_undefined_iff (by decide) _).mpr hsixth
    exact absurd hund (by decide)
  · have h₁ := hend s₁ (hnext s₁ hstep)
    rcases Relation.ReflTransGen.cases_head hr' with rfl | ⟨s₂, hstep', -⟩
    · rw [StepGood, h₁]
      exact trivial
    · rw [blockStep, h₁] at hstep'
      cases hstep'

theorem decode_sound_get : Along blockTable (fun t b => BlockSound 4096 b t) (.new 4096) [getBlock] :=
  (decode_sound_iff (by decide) (by decide)).mpr ⟨blockGood_getBlock _, trivial⟩

/-- a literal with the name of index 70 and an empty value -/
def beyondBlock : Block := ⟨[0x7f, 0x07, 0x00], 4096, 4096⟩

/-- the index is beyond the 62 entries of a new connection, and the block is accepted -/
theorem decode_accepts_beyond :
    (∃ t fields, hpackDecodeHeaderBlock beyondBlock (.new 4096) = some (.returns 3 t fields)) ∧
      ¬ ∀ blocks : List Block, (∀ b ∈ blocks, b.maximumTableSize ≤ 4096) →
        Along blockTable (fun t b => BlockSound 4096 b t) (.new 4096) blocks := by
  refine ⟨⟨_, _, rfl⟩, fun h => ?_⟩
  have hsound := (h [beyondBlock] (by decide)).1
  have hrefers : RefersTo [0x7f, 0x07, 0x00] 70 := ⟨2, by decide⟩
  obtain ⟨ret, t, fields, hret, -⟩ := (hsound.rounds _ .refl).reference 70 hrefers (by decide)
  have hnext : (blockStep beyondBlock (.init (.new 4096))).isLeft = true := rfl
  rw [hret] at hnext
  cases hnext

end TrafficServer.Http2.Hpack
