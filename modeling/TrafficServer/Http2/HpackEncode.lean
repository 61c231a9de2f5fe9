/-
The literals that HPACK encodes (`encode_literal_header_field_with_indexed_name` and `encode_literal_header_field_with_new_name` in
`proxy/http2/HPACK.cc`).

A literal with indexing goes into the dynamic table first and is written then, an integer or a byte, the name and the value. Each of these
fails without room, and nothing takes the field out of the table again. `encode_atomic_iff`: a failure leaves the table as it was exactly if
the type is another one, or the field changes nothing in the table, or everything fits (and there is no failure). `encode_not_atomic` is the
first field for a new table.
-/
import TrafficServer.Http2.HpackString
import TrafficServer.Http2.HpackTable
import TrafficServer.Hdrs.UrlHash

namespace TrafficServer.Http2.Hpack

open TrafficServer.Http2.Huffman

inductive HpackField where
  | index
  | indexedLiteral
  | noindexLiteral
  | neverindexLiteral
  | tablesizeUpdate
deriving DecidableEq

/-! ## Writing -/

/-- `p += len` and the next step behind it, in what is left of the buffer; -1 goes out at once -/
def Encoded.andThen (size : ℕ) (e : Encoded) (next : ℕ → Encoded) : Encoded :=
  if e.ret = -1 then e
  else
    let e' := next (size - e.bytes.length)
    ⟨e.bytes ++ e'.bytes, if e'.ret = -1 then -1 else (e.bytes ++ e'.bytes).length⟩

/-- what is behind the `switch` of `encode_literal_header_field_with_indexed_name` -/
def writeIndexedName (size : ℕ) (header : Field) (index : BitVec 32) (pre : ℕ) (flag : BitVec 8) : Encoded :=
  let len := encodeInteger size index pre
  if len.ret = -1 then len
  else if 1 ≥ size then ⟨len.bytes, -1⟩
  else
    let p := orFirst flag len.bytes
    Encoded.andThen size ⟨p, p.length⟩ fun size => encodeString size header.value

def encodeLiteralHeaderFieldWithIndexedName (size : ℕ) (header : Field) (index : BitVec 32) (indexingTable : HpackDynamicTable)
    (type : HpackField) : HpackDynamicTable × Encoded :=
  match type with
  | .indexedLiteral => (indexingTable.addHeaderField header, writeIndexedName size header index 6 0x40)
  | .noindexLiteral => (indexingTable, writeIndexedName size header index 4 0x00)
  | .neverindexLiteral => (indexingTable, writeIndexedName size header index 4 0x10)
  | .index | .tablesizeUpdate => (indexingTable, ⟨[], -1⟩)

/-- the name goes out in lower case -/
def lowerName (header : Field) : List (BitVec 8) := header.name.map Hdrs.UrlHash.inkTolower

/-- what is behind the `switch` of `encode_literal_header_field_with_new_name` -/
def writeNewName (size : ℕ) (header : Field) (flag : BitVec 8) : Encoded :=
  if 1 ≥ size then ⟨[], -1⟩
  else
    let name := Encoded.andThen size ⟨[flag], 1⟩ fun size => encodeString size (lowerName header)
    Encoded.andThen size name fun size => encodeString size header.value

def encodeLiteralHeaderFieldWithNewName (size : ℕ) (header : Field) (indexingTable : HpackDynamicTable) (type : HpackField) :
    HpackDynamicTable × Encoded :=
  match type with
  | .indexedLiteral => (indexingTable.addHeaderField header, writeNewName size header 0x40)
  | .noindexLiteral => (indexingTable, writeNewName size header 0x00)
  | .neverindexLiteral => (indexingTable, writeNewName size header 0x10)
  | .index | .tablesizeUpdate => (indexingTable, ⟨[], -1⟩)

/-! ## Room -/

/-- the number that is written for the length of a string -/
def lengthOf (value : List (BitVec 8)) : BitVec 32 := BitVec.ofNat 32 (huffmanEncode value).length

/-- the bytes of a string literal -/
def stringLength (value : List (BitVec 8)) : ℕ := (encoding 7 (lengthOf value).toNat).length + (huffmanEncode value).length

def StringFits (size : ℕ) (value : List (BitVec 8)) : Prop := room 7 (lengthOf value).toNat ≤ size ∧ stringLength value ≤ size

def IndexedNameFits (size : ℕ) (header : Field) (index : BitVec 32) (pre : ℕ) : Prop :=
  room pre index.toNat ≤ size ∧ 2 ≤ size ∧ StringFits (size - (encoding pre index.toNat).length) header.value

def NewNameFits (size : ℕ) (header : Field) : Prop :=
  2 ≤ size ∧ StringFits (size - 1) (lowerName header) ∧ StringFits (size - (1 + stringLength (lowerName header))) header.value

/-- it succeeds exactly if `fits` holds, and writes `length` bytes then -/
structure Writes (fits : Prop) (length : ℕ) (e : Encoded) : Prop where
  ok : fits → e.ret = e.bytes.length ∧ e.bytes.length = length
  fails : ¬ fits → e.ret = -1

theorem Writes.ret_iff {fits : Prop} {length : ℕ} {e : Encoded} (h : Writes fits length e) : e.ret = -1 ↔ ¬ fits := by
  refine ⟨fun hret hfits => ?_, h.fails⟩
  rw [(h.ok hfits).1] at hret
  omega

/-- two steps one after the other -/
theorem Writes.andThen {length length' : ℕ} {fits fits' : Prop} {e : Encoded} (h : Writes fits length e) (size : ℕ) (next : ℕ → Encoded)
    (h' : Writes fits' length' (next (size - length))) : Writes (fits ∧ fits') (length + length') (e.andThen size next) := by
  unfold Encoded.andThen
  by_cases hfits : fits
  · obtain ⟨hret, hlen⟩ := h.ok hfits
    rw [if_neg (fun hneg => h.ret_iff.mp hneg hfits), hlen]
    constructor
    · rintro ⟨-, hfits'⟩
      have hlen' := (h'.ok hfits').2
      refine ⟨if_neg fun hneg => h'.ret_iff.mp hneg hfits', ?_⟩
      rw [List.length_append, hlen, hlen']
    · intro hnot
      exact if_pos (h'.fails fun hfits' => hnot ⟨hfits, hfits'⟩)
  · have hret := h.fails hfits
    rw [if_pos hret]
    exact ⟨fun hboth => absurd hboth.1 hfits, fun _ => hret⟩

theorem encodeInteger_writes {n : ℕ} (hn : n ≤ 8) (size : ℕ) (v : BitVec 32) :
    Writes (room n v.toNat ≤ size) (encoding n v.toNat).length (encodeInteger size v n) := by
  obtain ⟨hfits, hfails, -⟩ := encodeInteger_eq size v hn
  constructor
  · intro hroom
    rw [hfits hroom]
    exact ⟨rfl, rfl⟩
  · intro hroom
    exact hfails (Nat.lt_of_not_le hroom)

theorem encodeString_writes (size : ℕ) (value : List (BitVec 8)) :
    Writes (StringFits size value) (stringLength value) (encodeString size value) := by
  have hdata : (if value = [] then [] else huffmanEncode value) = huffmanEncode value := by
    split_ifs with hnil
    · rw [hnil]
      rfl
    · rfl
  have hint := encodeInteger_writes (show 7 ≤ 8 by decide) size (lengthOf value)
  unfold encodeString
  rw [hdata]
  dsimp only
  by_cases hroom : room 7 (lengthOf value).toNat ≤ size
  · obtain ⟨hret, hlen⟩ := hint.ok hroom
    rw [← lengthOf, if_neg (fun hneg => hint.ret_iff.mp hneg hroom), length_orFirst, hlen]
    have hle : (encoding 7 (lengthOf value).toNat).length ≤ size := by
      have := (encodeInteger_eq size (lengthOf value) (show 7 ≤ 8 by decide)).2.2
      rwa [hlen] at this
    by_cases hdata : size - (encoding 7 (lengthOf value).toNat).length < (huffmanEncode value).length
    · rw [if_pos hdata]
      refine ⟨fun h => absurd h.2 ?_, fun _ => rfl⟩
      unfold stringLength
      omega
    · rw [if_neg hdata]
      constructor
      · intro _
        rw [List.length_append, length_orFirst, hlen]
        exact ⟨rfl, rfl⟩
      · intro hnot
        refine absurd ⟨hroom, ?_⟩ hnot
        unfold stringLength
        omega
  · have hret := hint.fails hroom
    rw [← lengthOf, if_pos hret]
    exact ⟨fun h => absurd h.1 hroom, fun _ => hret⟩

theorem writeIndexedName_writes {pre : ℕ} (hpre : pre ≤ 8) (size : ℕ) (header : Field) (index : BitVec 32) (flag : BitVec 8) :
    Writes (IndexedNameFits size header index pre) ((encoding pre index.toNat).length + stringLength header.value)
      (writeIndexedName size header index pre flag) := by
  have hint := encodeInteger_writes hpre size index
  unfold writeIndexedName
  dsimp only
  by_cases hroom : room pre index.toNat ≤ size
  · obtain ⟨hret, hlen⟩ := hint.ok hroom
    rw [if_neg (fun hneg => hint.ret_iff.mp hneg hroom)]
    by_cases hone : 1 ≥ size
    · rw [if_pos hone]
      exact ⟨fun h => absurd h.2.1 (by omega), fun _ => rfl⟩
    · rw [if_neg hone]
      have hfirst : Writes (room pre index.toNat ≤ size ∧ 2 ≤ size) (encoding pre index.toNat).length
          ⟨orFirst flag (encodeInteger size index pre).bytes, (orFirst flag (encodeInteger size index pre).bytes).length⟩ := by
        refine ⟨fun _ => ⟨rfl, ?_⟩, fun hnot => absurd ⟨hroom, by omega⟩ hnot⟩
        rw [length_orFirst, hlen]
      have hboth := hfirst.andThen size (fun size => encodeString size header.value) (encodeString_writes _ header.value)
      rw [IndexedNameFits, ← and_assoc]
      exact hboth
  · have hret := hint.fails hroom
    rw [if_pos hret]
    exact ⟨fun h => absurd h.1 hroom, fun _ => hret⟩

theorem writeNewName_writes (size : ℕ) (header : Field) (flag : BitVec 8) :
    Writes (NewNameFits size header) (1 + stringLength (lowerName header) + stringLength header.value)
      (writeNewName size header flag) := by
  unfold writeNewName
  by_cases hone : 1 ≥ size
  · rw [if_pos hone]
    exact ⟨fun h => absurd h.1 (by omega), fun _ => rfl⟩
  · rw [if_neg hone]
    have hfirst : Writes (2 ≤ size) 1 ⟨[flag], 1⟩ := ⟨fun _ => ⟨rfl, rfl⟩, fun hnot => absurd (by omega) hnot⟩
    have hname := hfirst.andThen size (fun size => encodeString size (lowerName header)) (encodeString_writes _ (lowerName header))
    have hvalue := hname.andThen size (fun size => encodeString size header.value) (encodeString_writes _ header.value)
    rw [NewNameFits, ← and_assoc]
    exact hvalue

/-! ## Failures and the table -/

/-- a failure leaves the table as it was -/
def Atomic (t : HpackDynamicTable) (result : HpackDynamicTable × Encoded) : Prop := result.2.ret = -1 → result.1 = t

theorem atomic_iff {t t' : HpackDynamicTable} {fits : Prop} {length : ℕ} {e : Encoded} (h : Writes fits length e) :
    Atomic t (t', e) ↔ fits ∨ t' = t := by
  rw [Atomic, h.ret_iff, or_iff_not_imp_left]

/-- Failures leave the table as it was exactly if the field is not indexed, or has room, or makes no difference in the table. -/
theorem encode_atomic_iff (t : HpackDynamicTable) (header : Field) (index : BitVec 32) (size : ℕ) (type : HpackField) :
    (Atomic t (encodeLiteralHeaderFieldWithIndexedName size header index t type) ↔
      (type = .indexedLiteral → IndexedNameFits size header index 6 ∨ t.addHeaderField header = t)) ∧
    (Atomic t (encodeLiteralHeaderFieldWithNewName size header t type) ↔
      (type = .indexedLiteral → NewNameFits size header ∨ t.addHeaderField header = t)) := by
  cases type with
  | indexedLiteral =>
    constructor
    · rw [encodeLiteralHeaderFieldWithIndexedName, atomic_iff (writeIndexedName_writes (by decide) size header index 0x40)]
      exact ⟨fun h _ => h, fun h => h rfl⟩
    · rw [encodeLiteralHeaderFieldWithNewName, atomic_iff (writeNewName_writes size header 0x40)]
      exact ⟨fun h _ => h, fun h => h rfl⟩
  | noindexLiteral => exact ⟨⟨fun _ => nofun, fun _ _ => rfl⟩, ⟨fun _ => nofun, fun _ _ => rfl⟩⟩
  | neverindexLiteral => exact ⟨⟨fun _ => nofun, fun _ _ => rfl⟩, ⟨fun _ => nofun, fun _ _ => rfl⟩⟩
  | index => exact ⟨⟨fun _ => nofun, fun _ _ => rfl⟩, ⟨fun _ => nofun, fun _ _ => rfl⟩⟩
  | tablesizeUpdate => exact ⟨⟨fun _ => nofun, fun _ _ => rfl⟩, ⟨fun _ => nofun, fun _ _ => rfl⟩⟩

theorem x_length_lt : [0x78#8].length < 2 ^ 16 := by decide

theorem y_length_lt : [0x79#8].length < 2 ^ 24 := by decide

def xy : Field := ⟨[0x78], [0x79], x_length_lt, y_length_lt⟩

/-- the name fits in a buffer of four bytes, the value does not, and the field is in the table -/
theorem encode_not_atomic : ¬ ∀ (t : HpackDynamicTable) (header : Field) (index : BitVec 32) (size : ℕ) (type : HpackField),
    Atomic t (encodeLiteralHeaderFieldWithIndexedName size header index t type) ∧
      Atomic t (encodeLiteralHeaderFieldWithNewName size header t type) := by
  intro h
  have hret : (encodeLiteralHeaderFieldWithNewName 4 xy (.new 4096) .indexedLiteral).2.ret = -1 := by decide +kernel
  have htable := congrArg HpackDynamicTable.length ((h (.new 4096) xy 0 4 .indexedLiteral).2 hret)
  exact absurd htable (by decide +kernel)

end TrafficServer.Http2.Hpack
