/-
The Huffman coder of HPACK (`proxy/http2/HuffmanCodec.cc`).

`huffman_encode` collects the codes of the bytes in a buffer of 32 bits, writes it out whenever it is full and fills the last
byte with ones. `huffman_decode` walks the tree that `make_huffman_tree` builds from the table, one bit at a time, and
counts in `byte_boundary_crossed` the byte boundaries since the last symbol. More than three of them, or more than one at
the end of the input, and it gives up. The counter starts again at a leaf, before the boundary behind the leaf is counted:
after a code that ends with its byte the next one starts with a count of 1.

A code of 30 bits touches four bytes at least and five if it starts at the third bit or later, so that the counter stops
codes that the encoder writes. `huffman_roundtrip_iff` says which strings come back; `huffman_roundtrip_fails` is one of two
bytes that does not.

Lengths are those of lists; the code has 32 bits for them.
-/
import Mathlib
import TrafficServer.Lib.Bits

namespace TrafficServer.Http2.Huffman

open TrafficServer.Bits

/-! ## The table and the tree -/

structure HuffmanEntry where
  codeAsHex : ℕ
  bitLen : ℕ
deriving DecidableEq, Inhabited

/-- one entry for each byte and one for the end of the string -/
def huffmanTable : List HuffmanEntry :=
  [⟨0x1ff8, 13⟩, ⟨0x7fffd8, 23⟩, ⟨0xfffffe2, 28⟩, ⟨0xfffffe3, 28⟩, ⟨0xfffffe4, 28⟩, ⟨0xfffffe5, 28⟩, ⟨0xfffffe6, 28⟩,
   ⟨0xfffffe7, 28⟩, ⟨0xfffffe8, 28⟩, ⟨0xffffea, 24⟩, ⟨0x3ffffffc, 30⟩, ⟨0xfffffe9, 28⟩, ⟨0xfffffea, 28⟩,
   ⟨0x3ffffffd, 30⟩, ⟨0xfffffeb, 28⟩, ⟨0xfffffec, 28⟩, ⟨0xfffffed, 28⟩, ⟨0xfffffee, 28⟩, ⟨0xfffffef, 28⟩,
   ⟨0xffffff0, 28⟩, ⟨0xffffff1, 28⟩, ⟨0xffffff2, 28⟩, ⟨0x3ffffffe, 30⟩, ⟨0xffffff3, 28⟩, ⟨0xffffff4, 28⟩,
   ⟨0xffffff5, 28⟩, ⟨0xffffff6, 28⟩, ⟨0xffffff7, 28⟩, ⟨0xffffff8, 28⟩, ⟨0xffffff9, 28⟩, ⟨0xffffffa, 28⟩,
   ⟨0xffffffb, 28⟩, ⟨0x14, 6⟩, ⟨0x3f8, 10⟩, ⟨0x3f9, 10⟩, ⟨0xffa, 12⟩, ⟨0x1ff9, 13⟩, ⟨0x15, 6⟩, ⟨0xf8, 8⟩, ⟨0x7fa, 11⟩,
   ⟨0x3fa, 10⟩, ⟨0x3fb, 10⟩, ⟨0xf9, 8⟩, ⟨0x7fb, 11⟩, ⟨0xfa, 8⟩, ⟨0x16, 6⟩, ⟨0x17, 6⟩, ⟨0x18, 6⟩, ⟨0x0, 5⟩, ⟨0x1, 5⟩,
   ⟨0x2, 5⟩, ⟨0x19, 6⟩, ⟨0x1a, 6⟩, ⟨0x1b, 6⟩, ⟨0x1c, 6⟩, ⟨0x1d, 6⟩, ⟨0x1e, 6⟩, ⟨0x1f, 6⟩, ⟨0x5c, 7⟩, ⟨0xfb, 8⟩,
   ⟨0x7ffc, 15⟩, ⟨0x20, 6⟩, ⟨0xffb, 12⟩, ⟨0x3fc, 10⟩, ⟨0x1ffa, 13⟩, ⟨0x21, 6⟩, ⟨0x5d, 7⟩, ⟨0x5e, 7⟩, ⟨0x5f, 7⟩,
   ⟨0x60, 7⟩, ⟨0x61, 7⟩, ⟨0x62, 7⟩, ⟨0x63, 7⟩, ⟨0x64, 7⟩, ⟨0x65, 7⟩, ⟨0x66, 7⟩, ⟨0x67, 7⟩, ⟨0x68, 7⟩, ⟨0x69, 7⟩,
   ⟨0x6a, 7⟩, ⟨0x6b, 7⟩, ⟨0x6c, 7⟩, ⟨0x6d, 7⟩, ⟨0x6e, 7⟩, ⟨0x6f, 7⟩, ⟨0x70, 7⟩, ⟨0x71, 7⟩, ⟨0x72, 7⟩, ⟨0xfc, 8⟩,
   ⟨0x73, 7⟩, ⟨0xfd, 8⟩, ⟨0x1ffb, 13⟩, ⟨0x7fff0, 19⟩, ⟨0x1ffc, 13⟩, ⟨0x3ffc, 14⟩, ⟨0x22, 6⟩, ⟨0x7ffd, 15⟩, ⟨0x3, 5⟩,
   ⟨0x23, 6⟩, ⟨0x4, 5⟩, ⟨0x24, 6⟩, ⟨0x5, 5⟩, ⟨0x25, 6⟩, ⟨0x26, 6⟩, ⟨0x27, 6⟩, ⟨0x6, 5⟩, ⟨0x74, 7⟩, ⟨0x75, 7⟩,
   ⟨0x28, 6⟩, ⟨0x29, 6⟩, ⟨0x2a, 6⟩, ⟨0x7, 5⟩, ⟨0x2b, 6⟩, ⟨0x76, 7⟩, ⟨0x2c, 6⟩, ⟨0x8, 5⟩, ⟨0x9, 5⟩, ⟨0x2d, 6⟩,
   ⟨0x77, 7⟩, ⟨0x78, 7⟩, ⟨0x79, 7⟩, ⟨0x7a, 7⟩, ⟨0x7b, 7⟩, ⟨0x7ffe, 15⟩, ⟨0x7fc, 11⟩, ⟨0x3ffd, 14⟩, ⟨0x1ffd, 13⟩,
   ⟨0xffffffc, 28⟩, ⟨0xfffe6, 20⟩, ⟨0x3fffd2, 22⟩, ⟨0xfffe7, 20⟩, ⟨0xfffe8, 20⟩, ⟨0x3fffd3, 22⟩, ⟨0x3fffd4, 22⟩,
   ⟨0x3fffd5, 22⟩, ⟨0x7fffd9, 23⟩, ⟨0x3fffd6, 22⟩, ⟨0x7fffda, 23⟩, ⟨0x7fffdb, 23⟩, ⟨0x7fffdc, 23⟩, ⟨0x7fffdd, 23⟩,
   ⟨0x7fffde, 23⟩, ⟨0xffffeb, 24⟩, ⟨0x7fffdf, 23⟩, ⟨0xffffec, 24⟩, ⟨0xffffed, 24⟩, ⟨0x3fffd7, 22⟩, ⟨0x7fffe0, 23⟩,
   ⟨0xffffee, 24⟩, ⟨0x7fffe1, 23⟩, ⟨0x7fffe2, 23⟩, ⟨0x7fffe3, 23⟩, ⟨0x7fffe4, 23⟩, ⟨0x1fffdc, 21⟩, ⟨0x3fffd8, 22⟩,
   ⟨0x7fffe5, 23⟩, ⟨0x3fffd9, 22⟩, ⟨0x7fffe6, 23⟩, ⟨0x7fffe7, 23⟩, ⟨0xffffef, 24⟩, ⟨0x3fffda, 22⟩, ⟨0x1fffdd, 21⟩,
   ⟨0xfffe9, 20⟩, ⟨0x3fffdb, 22⟩, ⟨0x3fffdc, 22⟩, ⟨0x7fffe8, 23⟩, ⟨0x7fffe9, 23⟩, ⟨0x1fffde, 21⟩, ⟨0x7fffea, 23⟩,
   ⟨0x3fffdd, 22⟩, ⟨0x3fffde, 22⟩, ⟨0xfffff0, 24⟩, ⟨0x1fffdf, 21⟩, ⟨0x3fffdf, 22⟩, ⟨0x7fffeb, 23⟩, ⟨0x7fffec, 23⟩,
   ⟨0x1fffe0, 21⟩, ⟨0x1fffe1, 21⟩, ⟨0x3fffe0, 22⟩, ⟨0x1fffe2, 21⟩, ⟨0x7fffed, 23⟩, ⟨0x3fffe1, 22⟩, ⟨0x7fffee, 23⟩,
   ⟨0x7fffef, 23⟩, ⟨0xfffea, 20⟩, ⟨0x3fffe2, 22⟩, ⟨0x3fffe3, 22⟩, ⟨0x3fffe4, 22⟩, ⟨0x7ffff0, 23⟩, ⟨0x3fffe5, 22⟩,
   ⟨0x3fffe6, 22⟩, ⟨0x7ffff1, 23⟩, ⟨0x3ffffe0, 26⟩, ⟨0x3ffffe1, 26⟩, ⟨0xfffeb, 20⟩, ⟨0x7fff1, 19⟩, ⟨0x3fffe7, 22⟩,
   ⟨0x7ffff2, 23⟩, ⟨0x3fffe8, 22⟩, ⟨0x1ffffec, 25⟩, ⟨0x3ffffe2, 26⟩, ⟨0x3ffffe3, 26⟩, ⟨0x3ffffe4, 26⟩, ⟨0x7ffffde, 27⟩,
   ⟨0x7ffffdf, 27⟩, ⟨0x3ffffe5, 26⟩, ⟨0xfffff1, 24⟩, ⟨0x1ffffed, 25⟩, ⟨0x7fff2, 19⟩, ⟨0x1fffe3, 21⟩, ⟨0x3ffffe6, 26⟩,
   ⟨0x7ffffe0, 27⟩, ⟨0x7ffffe1, 27⟩, ⟨0x3ffffe7, 26⟩, ⟨0x7ffffe2, 27⟩, ⟨0xfffff2, 24⟩, ⟨0x1fffe4, 21⟩, ⟨0x1fffe5, 21⟩,
   ⟨0x3ffffe8, 26⟩, ⟨0x3ffffe9, 26⟩, ⟨0xffffffd, 28⟩, ⟨0x7ffffe3, 27⟩, ⟨0x7ffffe4, 27⟩, ⟨0x7ffffe5, 27⟩, ⟨0xfffec, 20⟩,
   ⟨0xfffff3, 24⟩, ⟨0xfffed, 20⟩, ⟨0x1fffe6, 21⟩, ⟨0x3fffe9, 22⟩, ⟨0x1fffe7, 21⟩, ⟨0x1fffe8, 21⟩, ⟨0x7ffff3, 23⟩,
   ⟨0x3fffea, 22⟩, ⟨0x3fffeb, 22⟩, ⟨0x1ffffee, 25⟩, ⟨0x1ffffef, 25⟩, ⟨0xfffff4, 24⟩, ⟨0xfffff5, 24⟩, ⟨0x3ffffea, 26⟩,
   ⟨0x7ffff4, 23⟩, ⟨0x3ffffeb, 26⟩, ⟨0x7ffffe6, 27⟩, ⟨0x3ffffec, 26⟩, ⟨0x3ffffed, 26⟩, ⟨0x7ffffe7, 27⟩,
   ⟨0x7ffffe8, 27⟩, ⟨0x7ffffe9, 27⟩, ⟨0x7ffffea, 27⟩, ⟨0x7ffffeb, 27⟩, ⟨0xffffffe, 28⟩, ⟨0x7ffffec, 27⟩,
   ⟨0x7ffffed, 27⟩, ⟨0x7ffffee, 27⟩, ⟨0x7ffffef, 27⟩, ⟨0x7fffff0, 27⟩, ⟨0x3ffffee, 26⟩, ⟨0x3fffffff, 30⟩]

/-- a node of the tree, or `nullptr` -/
inductive Node where
  | null
  | node (left right : Node) (asciiCode : BitVec 8) (leafNode : Bool)

def makeHuffmanTreeNode : Node := .node .null .null 0 false

/-- `current->right` for a bit that is set, else `current->left` -/
def Node.child (bit : Bool) : Node → Node
  | .null => .null
  | .node left right _ _ => if bit then right else left

/-- the loop of `make_huffman_tree` over the bits of one entry, from a node that is made if it is missing -/
def Node.insert (codeAsHex i : ℕ) : ℕ → Node → Node
  | 0, .null => .node .null .null (BitVec.ofNat 8 i) true
  | 0, .node left right _ _ => .node left right (BitVec.ofNat 8 i) true
  | bitLen + 1, .null =>
    if codeAsHex &&& (1 <<< bitLen) ≠ 0 then .node .null (insert codeAsHex i bitLen .null) 0 false
    else .node (insert codeAsHex i bitLen .null) .null 0 false
  | bitLen + 1, .node left right asciiCode leafNode =>
    if codeAsHex &&& (1 <<< bitLen) ≠ 0 then .node left (insert codeAsHex i bitLen right) asciiCode leafNode
    else .node (insert codeAsHex i bitLen left) right asciiCode leafNode

@[irreducible] def makeHuffmanTree : Node :=
  huffmanTable.zipIdx.foldl (fun root e => root.insert e.1.codeAsHex e.2 e.1.bitLen) makeHuffmanTreeNode

/-! ## Decoding -/

structure DecodeState where
  dst : List (BitVec 8)
  /-- what is left of the input; `src_len` is its length -/
  src : List (BitVec 8)
  shift : ℕ
  current : Node
  byteBoundaryCrossed : ℕ
  includesZero : Bool

/-- at a leaf the byte is written and the walk starts again -/
def DecodeState.atLeaf (s : DecodeState) (asciiCode : BitVec 8) : DecodeState :=
  { s with dst := s.dst ++ [asciiCode], current := makeHuffmanTree, byteBoundaryCrossed := 0, includesZero := false }

def DecodeState.atInner (s : DecodeState) (bit : Bool) (current : Node) : DecodeState :=
  { s with current, includesZero := s.includesZero || !bit }

/-- the node that the bit leads to -/
def DecodeState.take (s : DecodeState) (bit : Bool) : Node → Option DecodeState
  | .null => none
  | .node left right asciiCode leafNode =>
    some (if leafNode then s.atLeaf asciiCode else s.atInner bit (.node left right asciiCode leafNode))

/-- to the next bit -/
def DecodeState.advance (s : DecodeState) : DecodeState :=
  if s.shift ≠ 0 then { s with shift := s.shift - 1 }
  else { s with shift := 7, src := s.src.tail, byteBoundaryCrossed := s.byteBoundaryCrossed + 1 }

/-- one round of the loop, for a byte at `src`; nothing if it follows a null pointer -/
def decodeBit (s : DecodeState) (byte : BitVec 8) : Option DecodeState :=
  let bit := byte.toNat.testBit s.shift
  (s.take bit (s.current.child bit)).map DecodeState.advance

/-- what is returned, and the bytes written by then -/
def decodeLoop : ℕ → DecodeState → Option (ℤ × List (BitVec 8))
  | 0, _ => none
  | fuel + 1, s =>
    match s.src with
    | [] =>
      if s.byteBoundaryCrossed > 1 then some (-1, s.dst)
      else if s.includesZero then some (-1, s.dst)
      else some (s.dst.length, s.dst)
    | byte :: _ =>
      match decodeBit s byte with
      | none => none
      | some s => if s.byteBoundaryCrossed > 3 then some (-1, s.dst) else decodeLoop fuel s

/-- one round for each bit, and one to see the end -/
def huffmanDecode (src : List (BitVec 8)) : Option (ℤ × List (BitVec 8)) :=
  decodeLoop (8 * src.length + 1) ⟨[], src, 7, makeHuffmanTree, 0, false⟩

/-! ## Encoding -/

/-- bytes 3 to `n` of `src`; `j` of the source is `3 - k` -/
def huffmanEncodeAppend (dst : List (BitVec 8)) (src n : ℕ) : List (BitVec 8) :=
  (List.range (4 - n)).foldl (fun dst k => dst ++ [BitVec.ofNat 8 ((src >>> (8 * (3 - k))) &&& 255)]) dst

structure EncodeState where
  dst : List (BitVec 8)
  buf : ℕ
  remainBits : ℕ

/-- the entry of a byte -/
def entry (c : BitVec 8) : HuffmanEntry := huffmanTable.getD c.toNat default

def encodeByte (s : EncodeState) (c : BitVec 8) : EncodeState :=
  let hex := (entry c).codeAsHex
  let bitLen := (entry c).bitLen
  if s.remainBits > bitLen then
    let remainBits := s.remainBits - bitLen
    { s with remainBits, buf := s.buf ||| hex <<< remainBits % 2 ^ 32 }
  else if s.remainBits = bitLen then
    { dst := huffmanEncodeAppend s.dst (s.buf ||| hex) 0, remainBits := 32, buf := 0 }
  else
    let remainBits := 32 - (bitLen - s.remainBits)
    { dst := huffmanEncodeAppend s.dst (s.buf ||| hex >>> (bitLen - s.remainBits)) 0
      remainBits, buf := hex <<< remainBits % 2 ^ 32 }

def huffmanEncode (src : List (BitVec 8)) : List (BitVec 8) :=
  let s := src.foldl encodeByte ⟨[], 0, 32⟩
  let dst := huffmanEncodeAppend s.dst s.buf (s.remainBits / 8)
  let padLen := s.remainBits % 8
  -- padding with the first bits of the end of the string
  if padLen ≠ 0 then dst.modifyLast (· ||| BitVec.ofNat 8 (0xff >>> (8 - padLen))) else dst

/-! ## The encoder writes the codes, then ones -/

/-- the code of an entry of the table, as bits; the entry behind the bytes is the end of the string -/
def symBits (i : ℕ) : List Bool := msb (huffmanTable.getD i default).bitLen (huffmanTable.getD i default).codeAsHex

/-- the code of a byte, as bits -/
def codeBits (c : BitVec 8) : List Bool := msb (entry c).bitLen (entry c).codeAsHex

/-- every code fits its length, and none is longer than 30 bits -/
theorem entry_wf (c : BitVec 8) :
    5 ≤ (entry c).bitLen ∧ (entry c).bitLen ≤ 30 ∧ (entry c).codeAsHex < 2 ^ (entry c).bitLen := by
  have h : ∀ n < 256, let e := huffmanTable.getD n default; 5 ≤ e.bitLen ∧ e.bitLen ≤ 30 ∧ e.codeAsHex < 2 ^ e.bitLen := by
    decide +kernel
  exact h c.toNat c.isLt

theorem bytesMsb_append_one (dst : List (BitVec 8)) (src j : ℕ) :
    bytesMsb (dst ++ [BitVec.ofNat 8 ((src >>> (8 * j)) &&& 255)]) = bytesMsb dst ++ msb 8 (src >>> (8 * j)) := by
  rw [bytesMsb_append, bytesMsb_cons, bytesMsb_nil, List.append_nil, msb_byte]
  congr 1
  apply msb_congr
  intro i hi
  rw [show (255 : ℕ) = 2 ^ 8 - 1 by rfl, Nat.testBit_and, Nat.testBit_two_pow_sub_one, decide_eq_true hi, Bool.and_true]

/-- the top bytes of `src`, for any number of them -/
theorem bytesMsb_encodeAppend (dst : List (BitVec 8)) (src n : ℕ) (hn : n ≤ 4) :
    bytesMsb (huffmanEncodeAppend dst src n) = bytesMsb dst ++ msb (8 * (4 - n)) (src >>> (8 * n)) := by
  obtain ⟨m, hm⟩ : ∃ m, m = 4 - n := ⟨_, rfl⟩
  have hmn : n = 4 - m := by omega
  have hm4 : m ≤ 4 := by omega
  unfold huffmanEncodeAppend
  rw [← hm, hmn]
  clear hm hmn hn
  induction m with
  | zero => simp [msb]
  | succ m ih =>
    have ih := ih (by omega)
    rw [List.range_succ, List.foldl_append]
    simp only [List.foldl_cons, List.foldl_nil]
    rw [bytesMsb_append_one, ih, List.append_assoc, show 8 * (m + 1) = 8 * m + 8 by ring, msb_add]
    rw [← Nat.shiftRight_add, show 8 * (4 - (m + 1)) + 8 = 8 * (4 - m) by omega, show 3 - m = 4 - (m + 1) by omega]

/-- what has been written and what is in the buffer are the bits so far; the rest of the buffer is zero -/
structure EncodeOk (s : EncodeState) (bits : List Bool) : Prop where
  bits_eq : bytesMsb s.dst ++ msb (32 - s.remainBits) (s.buf >>> s.remainBits) = bits
  remain_pos : 0 < s.remainBits
  remain_le : s.remainBits ≤ 32
  low_zero : ∀ i < s.remainBits, s.buf.testBit i = false

theorem encodeOk_init : EncodeOk ⟨[], 0, 32⟩ [] := ⟨rfl, by decide, le_refl 32, fun _ _ => Nat.zero_testBit _⟩

variable {s : EncodeState} {bits : List Bool}

theorem testBit_code_ge {c : BitVec 8} {i : ℕ} (hi : (entry c).bitLen ≤ i) : (entry c).codeAsHex.testBit i = false :=
  Nat.testBit_lt_two_pow (lt_of_lt_of_le (entry_wf c).2.2 (Nat.pow_le_pow_right Nat.two_pos hi))

/-- what is shifted into a word and back, below the end of the word -/
theorem testBit_shift_back {x k i : ℕ} (hi : k + i < 32) : (((x <<< k) % 2 ^ 32) >>> k).testBit i = x.testBit i := by
  rw [Nat.testBit_shiftRight, Nat.testBit_mod_two_pow, Nat.testBit_shiftLeft, decide_eq_true hi, Bool.true_and,
    decide_eq_true (Nat.le_add_right k i), Bool.true_and, Nat.add_sub_cancel_left]

theorem EncodeOk.encodeByte (h : EncodeOk s bits) (c : BitVec 8) : EncodeOk (encodeByte s c) (bits ++ codeBits c) := by
  obtain ⟨hfive, hthirty, _⟩ := entry_wf c
  obtain ⟨heq, hpos, hle, hlow⟩ := h
  subst heq
  unfold Huffman.encodeByte
  by_cases hgt : s.remainBits > (entry c).bitLen
  · -- the code fits and leaves room
    rw [if_pos hgt]
    refine ⟨?_, by dsimp only; omega, by dsimp only; omega, ?_⟩
    · have hhigh : ∀ i < (entry c).bitLen, (s.buf >>> (s.remainBits - (entry c).bitLen)).testBit i = false := by
        intro i hi
        rw [Nat.testBit_shiftRight]
        exact hlow _ (by omega)
      have hcode : (((entry c).codeAsHex <<< (s.remainBits - (entry c).bitLen)) % 2 ^ 32) >>> (s.remainBits - (entry c).bitLen) =
          (entry c).codeAsHex := by
        apply Nat.eq_of_testBit_eq
        intro i
        by_cases hi : i < (entry c).bitLen
        · exact testBit_shift_back (by omega)
        · rw [Nat.testBit_shiftRight, Nat.testBit_mod_two_pow, Nat.testBit_shiftLeft, testBit_code_ge (not_lt.mp hi), Nat.add_sub_cancel_left,
            testBit_code_ge (not_lt.mp hi), Bool.and_false, Bool.and_false]
      dsimp only
      rw [show 32 - (s.remainBits - (entry c).bitLen) = (32 - s.remainBits) + (entry c).bitLen by omega, Nat.shiftRight_or_distrib, hcode,
        msb_or hhigh (fun i hi => testBit_code_ge hi), ← Nat.shiftRight_add, Nat.sub_add_cancel hgt.le, List.append_assoc]
      rfl
    · intro i hi
      dsimp only at hi ⊢
      rw [Nat.testBit_or, hlow i (by omega), Nat.testBit_mod_two_pow, Nat.testBit_shiftLeft]
      simp
      omega
  · rw [if_neg hgt]
    by_cases heq : s.remainBits = (entry c).bitLen
    · -- the code fills the buffer
      rw [if_pos heq]
      refine ⟨?_, Nat.succ_pos 31, le_refl 32, fun i _ => Nat.zero_testBit i⟩
      dsimp only
      rw [bytesMsb_encodeAppend _ _ 0 (by decide), Nat.mul_zero, Nat.shiftRight_zero,
        show 8 * (4 - 0) = (32 - s.remainBits) + s.remainBits by omega, msb_or hlow fun i hi => testBit_code_ge (heq ▸ hi),
        show msb (32 - 32) (0 >>> 32) = [] by rfl, List.append_nil, List.append_assoc, codeBits, heq]
    · -- the code is split over two buffers
      rw [if_neg heq]
      refine ⟨?_, by dsimp only; omega, by dsimp only; omega, ?_⟩
      · have hfirst : ∀ i, s.remainBits ≤ i → ((entry c).codeAsHex >>> ((entry c).bitLen - s.remainBits)).testBit i = false := by
          intro i hi
          rw [Nat.testBit_shiftRight]
          exact testBit_code_ge (by omega)
        have hrest : msb (32 - (32 - ((entry c).bitLen - s.remainBits)))
            ((((entry c).codeAsHex <<< (32 - ((entry c).bitLen - s.remainBits))) % 2 ^ 32) >>> (32 - ((entry c).bitLen - s.remainBits))) =
              msb ((entry c).bitLen - s.remainBits) (entry c).codeAsHex := by
          rw [show 32 - (32 - ((entry c).bitLen - s.remainBits)) = (entry c).bitLen - s.remainBits by omega]
          apply msb_congr
          intro i hi
          exact testBit_shift_back (by omega)
        have hcode : codeBits c = msb s.remainBits ((entry c).codeAsHex >>> ((entry c).bitLen - s.remainBits)) ++
            msb ((entry c).bitLen - s.remainBits) (entry c).codeAsHex := by
          rw [← msb_add, Nat.add_sub_cancel' (not_lt.mp hgt)]
          rfl
        dsimp only
        rw [bytesMsb_encodeAppend _ _ 0 (by decide), Nat.mul_zero, Nat.shiftRight_zero,
          show 8 * (4 - 0) = (32 - s.remainBits) + s.remainBits by omega, msb_or hlow hfirst, hrest, hcode]
        simp only [List.append_assoc]
      · intro i hi
        dsimp only at hi ⊢
        rw [Nat.testBit_mod_two_pow, Nat.testBit_shiftLeft]
        simp
        omega

theorem EncodeOk.foldl (h : EncodeOk s bits) (src : List (BitVec 8)) :
    EncodeOk (src.foldl Huffman.encodeByte s) (bits ++ src.flatMap codeBits) := by
  induction src generalizing s bits with
  | nil => simpa using h
  | cons c src ih =>
    rw [List.flatMap_cons, ← List.append_assoc]
    exact ih (h.encodeByte c)

/-- the ones in the last byte, where the bits of the buffer end -/
theorem bytesMsb_orLast {dst : List (BitVec 8)} {pre : List Bool} {pad v : ℕ} (hpad : pad < 8) (hpos : 0 < pad)
    (heq : bytesMsb dst = pre ++ msb pad v) (hlen : pre.length = 8 * dst.length - pad) (hne : dst ≠ []) :
    bytesMsb (dst.modifyLast (· ||| BitVec.ofNat 8 (0xff >>> (8 - pad)))) =
      pre ++ List.replicate pad true := by
  obtain ⟨init, last, rfl⟩ := List.eq_nil_or_concat dst |>.resolve_left hne
  rw [List.concat_eq_append] at *
  rw [List.modifyLast_concat]
  rw [bytesMsb_append, bytesMsb_cons, bytesMsb_nil, List.append_nil] at heq ⊢
  have hsplit : ∀ n, msb 8 n = msb (8 - pad) (n >>> pad) ++ msb pad n := by
    intro n
    rw [← msb_add, Nat.sub_add_cancel hpad.le]
  have hones : ∀ i, (BitVec.ofNat 8 (0xff >>> (8 - pad))).toNat.testBit i = decide (i < pad) := by
    intro i
    rw [BitVec.toNat_ofNat, Nat.testBit_mod_two_pow, Nat.testBit_shiftRight, show (0xff : ℕ) = 2 ^ 8 - 1 by rfl,
      Nat.testBit_two_pow_sub_one, ← Bool.decide_and]
    simp only [decide_eq_decide]
    omega
  rw [hsplit, ← List.append_assoc] at heq ⊢
  obtain ⟨hpre, _⟩ := List.append_inj' heq (by simp)
  rw [← hpre]
  congr 1
  · congr 1
    apply msb_congr
    intro i hi
    rw [Nat.testBit_shiftRight, Nat.testBit_shiftRight, BitVec.toNat_or, Nat.testBit_or, hones]
    simp
  · apply msb_ones
    intro i hi
    rw [BitVec.toNat_or, Nat.testBit_or, hones, decide_eq_true hi, Bool.or_true]

/-- the output of `huffman_encode`: the codes in order, filled up with ones to a whole byte -/
theorem bytesMsb_huffmanEncode (src : List (BitVec 8)) :
    ∃ pad < 8, bytesMsb (huffmanEncode src) = src.flatMap codeBits ++ List.replicate pad true := by
  have hok := encodeOk_init.foldl src
  rw [List.nil_append] at hok
  unfold huffmanEncode
  generalize src.foldl encodeByte ⟨[], 0, 32⟩ = s at hok
  obtain ⟨heq, hpos, hle, hlow⟩ := hok
  refine ⟨s.remainBits % 8, Nat.mod_lt _ (by decide), ?_⟩
  have happ : bytesMsb (huffmanEncodeAppend s.dst s.buf (s.remainBits / 8)) =
      src.flatMap codeBits ++ msb (s.remainBits % 8) (s.buf >>> (8 * (s.remainBits / 8))) := by
    rw [bytesMsb_encodeAppend _ _ _ (by omega), ← heq, List.append_assoc]
    congr 1
    rw [show 8 * (4 - s.remainBits / 8) = (32 - s.remainBits) + s.remainBits % 8 by omega, msb_add, ← Nat.shiftRight_add,
      Nat.div_add_mod]
  dsimp only
  by_cases hpad : s.remainBits % 8 = 0
  · rw [if_neg (not_not.mpr hpad), happ, hpad]
    rfl
  · rw [if_pos hpad]
    have hlen := congrArg List.length happ
    rw [length_bytesMsb, List.length_append, length_msb] at hlen
    apply bytesMsb_orLast (Nat.mod_lt _ (by decide)) (Nat.pos_of_ne_zero hpad) happ (by omega)
    intro hnil
    rw [hnil, List.length_nil] at hlen
    omega

/-! ## The decoder on bits -/

/-- the bits from a node lead to the leaf of `c`, and to no leaf before -/
def Node.leadsTo (c : BitVec 8) : Node → List Bool → Bool
  | _, [] => false
  | t, b :: bits =>
    match t.child b with
    | .null => false
    | .node l r a leaf => if leaf then bits.isEmpty && a == c else leadsTo c (.node l r a leaf) bits

/-- `n` ones from a node lead to no leaf -/
def Node.onesInner : ℕ → Node → Bool
  | 0, _ => true
  | n + 1, t =>
    match t.child true with
    | .null => false
    | .node l r a leaf => !leaf && onesInner n (.node l r a leaf)

/-- the node that the bits lead to, over nodes that are no leaves -/
def Node.walk : Node → List Bool → Option Node
  | t, [] => some t
  | t, b :: bits =>
    match t.child b with
    | .null => none
    | .node l r a leaf => if leaf then none else walk (.node l r a leaf) bits

/-- the tree has every entry at the end of its code, the end of the string as a zero -/
theorem tree_leadsTo : ∀ i < 257, makeHuffmanTree.leadsTo (BitVec.ofNat 8 i) (symBits i) = true := by decide +kernel

theorem tree_onesInner : makeHuffmanTree.onesInner 7 = true := by decide +kernel

theorem Node.walk_ones {m n : ℕ} (h : m ≤ n) {t : Node} (ht : t.onesInner n = true) : ∃ u, t.walk (List.replicate m true) = some u := by
  induction m generalizing n t with
  | zero => exact ⟨t, rfl⟩
  | succ m ih =>
    obtain ⟨k, rfl⟩ : ∃ k, n = k + 1 := ⟨n - 1, by omega⟩
    rw [List.replicate_succ]
    unfold Node.onesInner at ht
    unfold Node.walk
    generalize t.child true = u at ht
    cases u with
    | null => cases ht
    | node l r a leaf =>
      simp only [Bool.and_eq_true, Bool.not_eq_true'] at ht
      obtain ⟨rfl, hinner⟩ := ht
      exact ih (Nat.le_of_succ_le_succ h) hinner

namespace DecodeState

variable {s : DecodeState}

/-- the bits not yet read -/
def rest (s : DecodeState) : List Bool :=
  match s.src with
  | [] => []
  | byte :: src => msb (s.shift + 1) byte.toNat ++ bytesMsb src

theorem advance_rest {byte : BitVec 8} {src : List (BitVec 8)} (hsrc : s.src = byte :: src) :
    s.rest = byte.toNat.testBit s.shift :: s.advance.rest := by
  unfold rest advance
  cases hshift : s.shift with
  | zero =>
    cases src with
    | nil => simp [hsrc, msb]
    | cons b src => simp [hsrc, msb]
  | succ k => simp [hsrc, msb]

@[simp] theorem advance_dst : s.advance.dst = s.dst := by
  unfold advance
  split_ifs <;> rfl

@[simp] theorem advance_current : s.advance.current = s.current := by
  unfold advance
  split_ifs <;> rfl

@[simp] theorem advance_includesZero : s.advance.includesZero = s.includesZero := by
  unfold advance
  split_ifs <;> rfl

variable {offset : ℕ}

theorem advance_shift (h : s.shift = 7 - offset % 8) : s.advance.shift = 7 - (offset + 1) % 8 := by
  unfold advance
  split_ifs <;> simp only <;> omega

theorem advance_byteBoundaryCrossed (h : s.shift = 7 - offset % 8) :
    s.advance.byteBoundaryCrossed = s.byteBoundaryCrossed + (offset % 8 + 1) / 8 := by
  unfold advance
  split_ifs <;> simp only <;> omega

end DecodeState

/-- one round, for the bit at hand -/
theorem decodeLoop_succ {s s' : DecodeState} {bit : Bool} {tl : List Bool} (hrest : s.rest = bit :: tl)
    (htake : s.take bit (s.current.child bit) = some s') (hsrc : s'.src = s.src) (hshift : s'.shift = s.shift) (n : ℕ) :
    s'.advance.rest = tl ∧ decodeLoop (n + 1) s =
      if s'.advance.byteBoundaryCrossed > 3 then some (-1, s'.dst) else decodeLoop n s'.advance := by
  cases h : s.src with
  | nil => simp [DecodeState.rest, h] at hrest
  | cons byte src =>
    have hadv := DecodeState.advance_rest (hsrc.trans h)
    have hsame : s'.rest = s.rest := by rw [DecodeState.rest, DecodeState.rest, hsrc, hshift]
    rw [hsame, hrest, hshift] at hadv
    injection hadv with hbit htl
    refine ⟨htl.symm, ?_⟩
    rw [decodeLoop, h]
    simp only [decodeBit, ← hbit, htake, Option.map_some, DecodeState.advance_dst]

/-- at the root, `offset` bits into the input -/
structure AtRoot (s : DecodeState) (dst : List (BitVec 8)) (rest : List Bool) (offset : ℕ) : Prop where
  dst_eq : s.dst = dst
  rest_eq : s.rest = rest
  current_eq : s.current = makeHuffmanTree
  zero_eq : s.includesZero = false
  shift_eq : s.shift = 7 - offset % 8
  crossed_eq : s.byteBoundaryCrossed = if offset ≠ 0 ∧ offset % 8 = 0 then 1 else 0

variable {s : DecodeState} {bit : Bool} {tl : List Bool} {offset : ℕ} {l r : Node} {c : BitVec 8}

theorem decodeLoop_leaf (hrest : s.rest = bit :: tl) (hchild : s.current.child bit = .node l r c true)
    (hshift : s.shift = 7 - offset % 8) (n : ℕ) :
    decodeLoop (n + 1) s = decodeLoop n (s.atLeaf c).advance ∧
      AtRoot (s.atLeaf c).advance (s.dst ++ [c]) tl (offset + 1) := by
  have htake : s.take bit (s.current.child bit) = some (s.atLeaf c) := by rw [hchild]; rfl
  obtain ⟨hrest', hloop⟩ := decodeLoop_succ hrest htake rfl rfl n
  have hcross : (s.atLeaf c).advance.byteBoundaryCrossed = 0 + (offset % 8 + 1) / 8 :=
    DecodeState.advance_byteBoundaryCrossed hshift
  constructor
  · rw [hloop, if_neg (by omega)]
  · refine ⟨DecodeState.advance_dst, hrest', ?_, DecodeState.advance_includesZero, DecodeState.advance_shift hshift, ?_⟩
    · rw [DecodeState.advance_current, DecodeState.atLeaf]
    · rw [hcross]
      split_ifs <;> omega

theorem decodeLoop_inner (hrest : s.rest = bit :: tl) (hchild : s.current.child bit = .node l r c false) (n : ℕ) :
    (s.atInner bit (.node l r c false)).advance.rest = tl ∧ decodeLoop (n + 1) s =
      if (s.atInner bit (.node l r c false)).advance.byteBoundaryCrossed > 3 then some (-1, s.dst)
      else decodeLoop n (s.atInner bit (.node l r c false)).advance := by
  have htake : s.take bit (s.current.child bit) = some (s.atInner bit (.node l r c false)) := by rw [hchild]; rfl
  exact decodeLoop_succ hrest htake rfl rfl n

/-- a code from a node to its leaf: the boundaries before its last bit decide -/
theorem decodeLoop_code {bits : List Bool} (hlead : s.current.leadsTo c bits = true) (hrest : s.rest = bits ++ tl)
    (hshift : s.shift = 7 - offset % 8) (hcross : s.byteBoundaryCrossed ≤ 3) (n : ℕ) :
    (s.byteBoundaryCrossed + (offset % 8 + bits.length - 1) / 8 ≤ 3 →
      ∃ s', decodeLoop (n + bits.length) s = decodeLoop n s' ∧ AtRoot s' (s.dst ++ [c]) tl (offset + bits.length)) ∧
    (3 < s.byteBoundaryCrossed + (offset % 8 + bits.length - 1) / 8 → decodeLoop (n + bits.length) s = some (-1, s.dst)) := by
  induction bits generalizing s offset with
  | nil => simp [Node.leadsTo] at hlead
  | cons bit bits ih =>
    unfold Node.leadsTo at hlead
    cases hchild : s.current.child bit with
    | null => simp [hchild] at hlead
    | node l r a leaf =>
      rw [hchild] at hlead
      cases leaf with
      | true =>
        -- the last bit of the code
        simp only [if_true, Bool.and_eq_true, List.isEmpty_iff, beq_iff_eq] at hlead
        obtain ⟨rfl, rfl⟩ := hlead
        obtain ⟨hloop, hroot⟩ := decodeLoop_leaf hrest hchild hshift n
        refine ⟨fun _ => ⟨_, hloop, hroot⟩, fun hgt => ?_⟩
        rw [List.length_singleton] at hgt
        omega
      | false =>
        simp only [Bool.false_eq_true, if_false] at hlead
        have hlen : 0 < bits.length := by
          apply List.length_pos_of_ne_nil
          rintro rfl
          simp [Node.leadsTo] at hlead
        obtain ⟨hrest', hloop⟩ := decodeLoop_inner hrest hchild (n + bits.length)
        have hcross' : (s.atInner bit (.node l r a false)).advance.byteBoundaryCrossed =
            s.byteBoundaryCrossed + (offset % 8 + 1) / 8 := DecodeState.advance_byteBoundaryCrossed hshift
        have hsum : s.byteBoundaryCrossed + (offset % 8 + (bits.length + 1) - 1) / 8 =
            (s.atInner bit (.node l r a false)).advance.byteBoundaryCrossed + ((offset + 1) % 8 + bits.length - 1) / 8 := by
          omega
        rw [List.length_cons, hsum, ← Nat.add_assoc n, hloop]
        by_cases hthree : (s.atInner bit (.node l r a false)).advance.byteBoundaryCrossed > 3
        · rw [if_pos hthree]
          exact ⟨fun hle => absurd hle (by omega), fun _ => rfl⟩
        · rw [if_neg hthree, show offset + (bits.length + 1) = offset + 1 + bits.length by omega]
          have hlead' : (s.atInner bit (.node l r a false)).advance.current.leadsTo c bits = true := by
            rw [DecodeState.advance_current]
            exact hlead
          have h := ih hlead' hrest' (DecodeState.advance_shift hshift) (Nat.le_of_not_lt hthree)
          rwa [DecodeState.advance_dst] at h

/-- bits at the end that lead to no leaf: accepted if they are ones and end with their byte -/
theorem decodeLoop_tail {tail : List Bool} {u : Node} (hwalk : s.current.walk tail = some u) (hrest : s.rest = tail)
    (hshift : s.shift = 7 - offset % 8) (hend : (offset + tail.length) % 8 = 0) (n : ℕ) :
    decodeLoop (n + tail.length + 1) s =
      some (if s.byteBoundaryCrossed + (offset % 8 + tail.length) / 8 ≤ 1 ∧ s.includesZero = false ∧ ∀ b ∈ tail, b = true then
        (s.dst.length : ℤ) else -1, s.dst) := by
  induction tail generalizing s offset with
  | nil =>
    have hsrc : s.src = [] := by
      cases h : s.src with
      | nil => rfl
      | cons byte src => simp [DecodeState.rest, h, msb] at hrest
    rw [List.length_nil, Nat.add_zero] at hend
    rw [List.length_nil, Nat.add_zero, Nat.add_zero, hend, decodeLoop, hsrc]
    dsimp only
    by_cases hcross : s.byteBoundaryCrossed > 1
    · rw [if_pos hcross, if_neg (fun h => by omega)]
    · rw [if_neg hcross]
      cases hzero : s.includesZero with
      | true => simp
      | false => simp [Nat.le_of_not_lt hcross]
  | cons bit tail ih =>
    unfold Node.walk at hwalk
    cases hchild : s.current.child bit with
    | null => simp [hchild] at hwalk
    | node l r a leaf =>
      rw [hchild] at hwalk
      cases leaf with
      | true => cases hwalk
      | false =>
        obtain ⟨hrest', hloop⟩ := decodeLoop_inner hrest hchild (n + tail.length + 1)
        have hcross : (s.atInner bit (.node l r a false)).advance.byteBoundaryCrossed =
            s.byteBoundaryCrossed + (offset % 8 + 1) / 8 := DecodeState.advance_byteBoundaryCrossed hshift
        have hsum : s.byteBoundaryCrossed + (offset % 8 + (tail.length + 1)) / 8 =
            (s.atInner bit (.node l r a false)).advance.byteBoundaryCrossed + ((offset + 1) % 8 + tail.length) / 8 := by
          omega
        rw [List.length_cons, hsum, ← Nat.add_assoc n, hloop]
        by_cases hthree : (s.atInner bit (.node l r a false)).advance.byteBoundaryCrossed > 3
        · rw [if_pos hthree, if_neg (fun h => by omega)]
        · have hwalk' : (s.atInner bit (.node l r a false)).advance.current.walk tail = some u := by
            rw [DecodeState.advance_current]
            exact hwalk
          rw [List.length_cons] at hend
          rw [if_neg hthree, ih hwalk' hrest' (DecodeState.advance_shift hshift) (by omega), DecodeState.advance_dst]
          -- a zero on the way is not forgotten
          have hzero : (s.atInner bit (.node l r a false)).advance.includesZero = false ∧ (∀ b ∈ tail, b = true) ↔
              s.includesZero = false ∧ ∀ b ∈ bit :: tail, b = true := by
            rw [DecodeState.advance_includesZero, List.forall_mem_cons]
            simp only [DecodeState.atInner, Bool.or_eq_false_iff, Bool.not_eq_false', and_assoc]
          simp only [hzero]
          rfl

/-! ## The strings that come back -/

/-- byte boundaries the decoder counts before the last bit of a code of `bitLen` bits that starts at bit `offset` -/
def boundaries (offset bitLen : ℕ) : ℕ := (if offset ≠ 0 ∧ offset % 8 = 0 then 1 else 0) + (offset % 8 + bitLen - 1) / 8

/-- no code crosses more than three of them, for a string whose first code starts at bit `offset` -/
def CodesFit : ℕ → List (BitVec 8) → Prop
  | _, [] => True
  | offset, c :: src => boundaries offset (entry c).bitLen ≤ 3 ∧ CodesFit (offset + (entry c).bitLen) src

instance decidableCodesFit : ∀ offset src, Decidable (CodesFit offset src)
  | _, [] => isTrue trivial
  | offset, c :: src =>
    have := decidableCodesFit (offset + (entry c).bitLen) src
    inferInstanceAs (Decidable (_ ∧ _))

/-- the same for entries of the table -/
def SymbolsFit : ℕ → List ℕ → Prop
  | _, [] => True
  | offset, i :: l => boundaries offset (symBits i).length ≤ 3 ∧ SymbolsFit (offset + (symBits i).length) l

theorem codesFit_iff (offset : ℕ) (src : List (BitVec 8)) : CodesFit offset src ↔ SymbolsFit offset (src.map BitVec.toNat) := by
  induction src generalizing offset with
  | nil => exact Iff.rfl
  | cons c src ih =>
    have hlen : (symBits c.toNat).length = (entry c).bitLen := length_msb _ _
    rw [List.map_cons, CodesFit, SymbolsFit, hlen, ih]

/-- from the root, over the codes of some entries -/
theorem decodeLoop_symbols {l : List ℕ} {dst : List (BitVec 8)} {tail : List Bool} (hl : ∀ i ∈ l, i < 257)
    (hroot : AtRoot s dst (l.flatMap symBits ++ tail) offset) (n : ℕ) :
    (SymbolsFit offset l → ∃ s', decodeLoop (n + (l.flatMap symBits).length) s = decodeLoop n s' ∧
      AtRoot s' (dst ++ l.map (BitVec.ofNat 8)) tail (offset + (l.flatMap symBits).length)) ∧
    (¬ SymbolsFit offset l →
      ∃ d, decodeLoop (n + (l.flatMap symBits).length) s = some (-1, dst ++ d) ∧ d.length ≤ l.length) := by
  induction l generalizing s dst offset with
  | nil =>
    refine ⟨fun _ => ⟨s, rfl, ?_⟩, fun h => absurd trivial h⟩
    rwa [List.map_nil, List.append_nil]
  | cons i l ih =>
    obtain ⟨rfl, hrest, hcurrent, hzero, hshift, hcross⟩ := hroot
    rw [List.flatMap_cons, List.append_assoc] at hrest
    rw [List.flatMap_cons, List.length_append]
    have hlead : s.current.leadsTo (BitVec.ofNat 8 i) (symBits i) = true := by
      rw [hcurrent]
      exact tree_leadsTo i (hl i List.mem_cons_self)
    have hle : s.byteBoundaryCrossed ≤ 3 := by
      rw [hcross]
      split_ifs <;> omega
    obtain ⟨hfit, hlong⟩ := decodeLoop_code hlead hrest hshift hle (n + (l.flatMap symBits).length)
    rw [hcross] at hfit hlong
    rw [show n + ((symBits i).length + (l.flatMap symBits).length) = n + (l.flatMap symBits).length + (symBits i).length by omega]
    by_cases hc : boundaries offset (symBits i).length ≤ 3
    · obtain ⟨s', hloop, hroot'⟩ := hfit hc
      obtain ⟨hrun, hstop⟩ := ih (fun j hj => hl j (List.mem_cons_of_mem i hj)) hroot'
      rw [List.append_assoc, List.singleton_append, ← List.map_cons, Nat.add_assoc offset] at hrun
      rw [hloop]
      refine ⟨fun h => hrun h.2, fun h => ?_⟩
      obtain ⟨d, hd, hlen⟩ := hstop fun h' => h ⟨hc, h'⟩
      rw [List.append_assoc] at hd
      exact ⟨_, hd, Nat.succ_le_succ hlen⟩
    · refine ⟨fun h => absurd h.1 hc, fun _ => ⟨[], ?_, Nat.zero_le _⟩⟩
      rw [List.append_nil]
      exact hlong (Nat.lt_of_not_le hc)

theorem flatMap_codeBits (src : List (BitVec 8)) : src.flatMap codeBits = (src.map BitVec.toNat).flatMap symBits := by
  rw [List.flatMap_map]
  rfl

theorem map_toNat_lt (src : List (BitVec 8)) : ∀ i ∈ src.map BitVec.toNat, i < 257 := by
  intro i hi
  obtain ⟨c, _, rfl⟩ := List.mem_map.mp hi
  exact lt_trans c.isLt (by decide)

theorem map_ofNat_toNat (src : List (BitVec 8)) : (src.map BitVec.toNat).map (BitVec.ofNat 8) = src := by
  rw [List.map_map]
  exact List.map_id'' (fun c => by simp) src

/-- from the root, over the codes that are left and the padding -/
theorem decodeLoop_codes {src dst : List (BitVec 8)} {pad : ℕ} (hpad : pad < 8)
    (hroot : AtRoot s dst (src.flatMap codeBits ++ List.replicate pad true) offset)
    (hend : (offset + (src.flatMap codeBits).length + pad) % 8 = 0) (n : ℕ) :
    (CodesFit offset src →
      decodeLoop (n + (src.flatMap codeBits).length + pad + 1) s = some (((dst ++ src).length : ℤ), dst ++ src)) ∧
    (¬ CodesFit offset src → ∃ d, decodeLoop (n + (src.flatMap codeBits).length + pad + 1) s = some (-1, d)) := by
  rw [flatMap_codeBits] at hroot hend ⊢
  obtain ⟨hrun, hstop⟩ := decodeLoop_symbols (map_toNat_lt src) hroot (n + pad + 1)
  rw [codesFit_iff]
  rw [show n + ((src.map BitVec.toNat).flatMap symBits).length + pad + 1 =
    n + pad + 1 + ((src.map BitVec.toNat).flatMap symBits).length by omega]
  refine ⟨fun hfit => ?_, fun h => (hstop h).elim fun d hd => ⟨_, hd.1⟩⟩
  obtain ⟨s', hloop, hdst, hrest, hcurrent, hzero, hshift, hcross⟩ := hrun hfit
  rw [map_ofNat_toNat] at hdst
  obtain ⟨u, hwalk⟩ : ∃ u, s'.current.walk (List.replicate pad true) = some u := by
    rw [hcurrent]
    exact Node.walk_ones (Nat.le_of_lt_succ hpad) tree_onesInner
  have htail := decodeLoop_tail hwalk hrest hshift (by rwa [List.length_replicate]) n
  rw [List.length_replicate, hcross, hdst] at htail
  rw [hloop, htail, if_pos]
  refine ⟨?_, hzero, fun b hb => List.eq_of_mem_replicate hb⟩
  split_ifs <;> omega

/-- what `huffman_decode` makes of the output of `huffman_encode` -/
theorem huffmanDecode_huffmanEncode (src : List (BitVec 8)) :
    (CodesFit 0 src → huffmanDecode (huffmanEncode src) = some ((src.length : ℤ), src)) ∧
    (¬ CodesFit 0 src → ∃ d, huffmanDecode (huffmanEncode src) = some (-1, d)) := by
  obtain ⟨pad, hpad, hbits⟩ := bytesMsb_huffmanEncode src
  have hlen := congrArg List.length hbits
  rw [length_bytesMsb, List.length_append, List.length_replicate] at hlen
  have hrest : DecodeState.rest ⟨[], huffmanEncode src, 7, makeHuffmanTree, 0, false⟩ =
      src.flatMap codeBits ++ List.replicate pad true := by
    rw [← hbits]
    unfold DecodeState.rest
    cases huffmanEncode src <;> rfl
  have hroot : AtRoot ⟨[], huffmanEncode src, 7, makeHuffmanTree, 0, false⟩ []
      (src.flatMap codeBits ++ List.replicate pad true) 0 := ⟨rfl, hrest, rfl, rfl, rfl, rfl⟩
  have h := decodeLoop_codes hpad hroot (by omega) 0
  rwa [Nat.zero_add, ← hlen, List.nil_append] at h

/-- A string comes back from `huffman_decode` as it went into `huffman_encode` exactly if none of its codes crosses more
than three byte boundaries. -/
theorem huffman_roundtrip_iff (src : List (BitVec 8)) :
    huffmanDecode (huffmanEncode src) = some ((src.length : ℤ), src) ↔ CodesFit 0 src := by
  obtain ⟨hfit, hstop⟩ := huffmanDecode_huffmanEncode src
  refine ⟨fun h => ?_, hfit⟩
  by_contra hnot
  obtain ⟨d, hd⟩ := hstop hnot
  rw [hd] at h
  injection h with h
  have hneg := congrArg Prod.fst h
  simp only at hneg
  omega

/-- "0" and a line feed: a code of 30 bits from bit 5 -/
theorem huffman_roundtrip_fails : ¬ ∀ src, huffmanDecode (huffmanEncode src) = some ((src.length : ℤ), src) := by
  intro h
  have hfail : huffmanDecode (huffmanEncode [48#8, 10#8]) = some (-1, [48#8]) := by decide +kernel
  rw [h [48#8, 10#8]] at hfail
  exact absurd hfail (by decide)

end TrafficServer.Http2.Huffman
