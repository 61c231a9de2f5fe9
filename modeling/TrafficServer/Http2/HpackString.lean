/-
String literals of HPACK (`encode_string` and `decode_string` in `proxy/http2/HPACK.cc`).

Both have a buffer for the Huffman coder. `encode_string` takes four bytes for each byte of the string, `decode_string` two, and that is
enough (`huffmanDecode_bound`, `length_huffmanEncode_le`). The product of `decode_string` is one of 32 bits: `buffers_hold_iff`, it is twice
the length for strings below 2 GB, and for one of 2 GB there is no buffer at all (`buffer_wraps`).
-/
import TrafficServer.Http2.HuffmanDecode
import TrafficServer.Http2.HpackInteger

namespace TrafficServer.Http2.Hpack

open TrafficServer.Bits TrafficServer.Http2.Huffman

/-! ## Encoding -/

/-- `*p |= flag` -/
def orFirst (flag : BitVec 8) : List (BitVec 8) → List (BitVec 8)
  | [] => []
  | byte :: l => (byte ||| flag) :: l

@[simp] theorem length_orFirst (flag : BitVec 8) (l : List (BitVec 8)) : (orFirst flag l).length = l.length := by
  cases l <;> rfl

/-- what `encode_string` allocates for the coder; `size_t` has 64 bits -/
def encodeBuffer (valueLen : ℕ) : ℕ := valueLen * 4 % 2 ^ 64

/-- a string in a buffer of `size` bytes, always with the Huffman code -/
def encodeString (size : ℕ) (value : List (BitVec 8)) : Encoded :=
  let data := if value = [] then [] else huffmanEncode value
  let len := encodeInteger size (BitVec.ofNat 32 data.length) 7
  if len.ret = -1 then len
  else
    let p := orFirst 0x80 len.bytes
    if size - p.length < data.length then ⟨p, -1⟩ else ⟨p ++ data, (p ++ data).length⟩

/-! ## Decoding -/

/-- what `decode_string` allocates for the coder: `encoded_string_len * 2` -/
def decodeBuffer (encodedStringLen : BitVec 32) : ℕ := (encodedStringLen * 2).toNat

/-- the string in front of `buf`, and the bytes that were read -/
def decodeString (buf : List (BitVec 8)) : Decoded (List (BitVec 8)) :=
  match buf with
  | [] => .compressionError
  | byte :: _ =>
    match decodeInteger buf 7 with
    | .compressionError => .compressionError
    | .undefined => .undefined
    | .ok len encodedStringLen =>
      let p := buf.drop len
      if encodedStringLen.toNat > p.length then .compressionError
      else if byte &&& 0x80 ≠ 0 then
        match huffmanDecode (p.take encodedStringLen.toNat) with
        | none => .undefined
        | some (ret, str) =>
          -- a write behind the buffer
          if str.length > decodeBuffer encodedStringLen then .undefined
          else if ret < 0 then .compressionError
          else .ok (len + encodedStringLen.toNat) str
      else .ok (len + encodedStringLen.toNat) (p.take encodedStringLen.toNat)

/-! ## The buffers of the coder -/

/-- the coder gets along with the buffers of `encode_string` and `decode_string` for the bytes `src` -/
structure BuffersHold (src : List (BitVec 8)) : Prop where
  /-- no null pointer is followed -/
  decodes : ∃ ret dst, huffmanDecode src = some (ret, dst) ∧ dst.length ≤ 2 * src.length ∧
    dst.length ≤ decodeBuffer (BitVec.ofNat 32 src.length)
  decodeBuffer_eq : decodeBuffer (BitVec.ofNat 32 src.length) = 2 * src.length
  encodes : (huffmanEncode src).length ≤ 4 * src.length
  encodeBuffer_eq : encodeBuffer src.length = 4 * src.length

theorem decodeBuffer_eq_iff {n : ℕ} (hn : n < 2 ^ 32) : decodeBuffer (BitVec.ofNat 32 n) = 2 * n ↔ n < 2 ^ 31 := by
  have hmul : decodeBuffer (BitVec.ofNat 32 n) = n * 2 % 2 ^ 32 := by
    rw [decodeBuffer, BitVec.toNat_mul, BitVec.toNat_ofNat, Nat.mod_eq_of_lt hn]
    rfl
  rw [hmul]
  omega

/-- The buffers are large enough, and as large as they are meant to be, exactly for strings below 2 GB. -/
theorem buffers_hold_iff {src : List (BitVec 8)} (hlen : src.length < 2 ^ 32) : BuffersHold src ↔ src.length < 2 ^ 31 := by
  constructor
  · intro h
    exact (decodeBuffer_eq_iff hlen).mp h.decodeBuffer_eq
  · intro h
    have hbuffer := (decodeBuffer_eq_iff hlen).mpr h
    obtain ⟨ret, dst, hdec, hle⟩ := huffmanDecode_bound src
    refine ⟨⟨ret, dst, hdec, hle, hbuffer.symm ▸ hle⟩, hbuffer, length_huffmanEncode_le src, ?_⟩
    rw [encodeBuffer, Nat.mod_eq_of_lt (by omega), Nat.mul_comm]

theorem buffers_hold_three : BuffersHold [0xf1, 0xe3, 0xc2] := (buffers_hold_iff (by decide)).mpr (by decide)

/-! ### A string of zeros -/

theorem bytesMsb_zeros (n : ℕ) : bytesMsb (List.replicate n 0) = List.replicate (8 * n) false := by
  induction n with
  | zero => rfl
  | succ n ih =>
    rw [List.replicate_succ, bytesMsb_cons, ih, Nat.mul_succ, Nat.add_comm, List.replicate_add]
    rfl

/-- five zeros are the code of `'0'` -/
theorem flatMap_zeros (k : ℕ) : (List.replicate k 48).flatMap symBits = List.replicate (5 * k) false := by
  have hcode : symBits 48 = List.replicate 5 false := by decide
  induction k with
  | zero => rfl
  | succ k ih => rw [List.replicate_succ, List.flatMap_cons, ih, hcode, Nat.mul_succ, Nat.add_comm, List.replicate_add]

theorem symbolsFit_zeros (offset k : ℕ) : SymbolsFit offset (List.replicate k 48) := by
  have hlen : (symBits 48).length = 5 := by decide
  induction k generalizing offset with
  | zero => exact trivial
  | succ k ih =>
    rw [List.replicate_succ, SymbolsFit, hlen]
    refine ⟨?_, ih _⟩
    unfold boundaries
    split_ifs <;> omega

/-- up to four zeros lead to no leaf -/
theorem walk_zeros {r : ℕ} (hr : r < 5) : ∃ u, makeHuffmanTree.walk (List.replicate r false) = some u := by
  have h : ∀ r < 5, (makeHuffmanTree.walk (List.replicate r false)).isSome := by decide +kernel
  exact Option.isSome_iff_exists.mp (h r hr)

/-- zeros are written as they are read -/
theorem huffmanDecode_zeros (n : ℕ) :
    ∃ ret, huffmanDecode (List.replicate n 0) = some (ret, List.replicate (8 * n / 5) 0x30) := by
  have hparse : Parse (bytesMsb (List.replicate n 0)) (List.replicate (8 * n / 5) 48) (List.replicate (8 * n % 5) false) := by
    refine ⟨fun i hi => ?_, ?_, walk_zeros (Nat.mod_lt _ (by decide))⟩
    · rw [List.eq_of_mem_replicate hi]
      decide
    · rw [bytesMsb_zeros, flatMap_zeros, ← List.replicate_add, Nat.div_add_mod]
  have hdec := (huffmanDecode_parse hparse).1 (symbolsFit_zeros 0 _)
  rw [List.map_replicate] at hdec
  exact ⟨_, hdec⟩

/-- for 2 GB of zeros the buffer is empty, and more than 3 GB are written -/
theorem buffer_wraps : ¬ ∀ src : List (BitVec 8), src.length < 2 ^ 32 → BuffersHold src := by
  intro h
  have hlen : (List.replicate (2 ^ 31) (0 : BitVec 8)).length = 2 ^ 31 := List.length_replicate
  obtain ⟨ret, dst, hdec, -, hle⟩ := (h (List.replicate (2 ^ 31) 0) (by rw [hlen]; decide)).decodes
  obtain ⟨ret', hzeros⟩ := huffmanDecode_zeros (2 ^ 31)
  rw [hzeros] at hdec
  obtain ⟨-, rfl⟩ := Prod.mk.inj (Option.some.inj hdec)
  have hbuffer : decodeBuffer (BitVec.ofNat 32 (2 ^ 31)) = 0 := by decide
  rw [hlen, hbuffer, List.length_replicate] at hle
  omega

end TrafficServer.Http2.Hpack
