/-
Integers of HPACK (`encode_integer` and `decode_integer` in `proxy/http2/HPACK.cc`).

An integer has a prefix of `n` bits in its first byte. A prefix of ones means that the rest follows in groups of seven bits (RFC 7541, 5.1);
`integer` is the number that a byte string stands for, of any size.

`integer_round_trip`: what `encode_integer` writes comes back, and it stays inside its buffer; it wants one byte more than it writes if there
is more than the prefix. `decodeInteger_exact_iff`: `decode_integer` checks each group against the bits that are left for it, not the sum and
not the number of groups. The sum wraps at the top of the range (`Wraps`), and a sixth group is shifted by 35 (`SixthGroup`), which has no
defined result.
-/
import TrafficServer.Lib.Leb128

namespace TrafficServer.Http2.Hpack

open TrafficServer.Leb128

/-! ## Encoding -/

/-- what is in the buffer from `buf_start` on, and what is returned -/
structure Encoded where
  bytes : List (BitVec 8)
  ret : ℤ

/-- the loop of `encode_integer` and what is behind it; `p` is what has been written, `size` the length of the buffer -/
def encodeContinuation (size : ℕ) : ℕ → List (BitVec 8) → BitVec 32 → Encoded
  | 0, p, _ => ⟨p, -1⟩
  | fuel + 1, p, value =>
    if value ≥ 128 then
      if p.length ≥ size then ⟨p, -1⟩
      else encodeContinuation size fuel (p ++ [((value &&& 0x7f) ||| 0x80).setWidth 8]) (value >>> 7)
    else if p.length + 1 ≥ size then ⟨p, -1⟩
    else ⟨p ++ [value.setWidth 8], p.length + 1⟩

/-- `(1 << n) - 1` -/
def mask (n : ℕ) : BitVec 32 := 1#32 <<< n - 1

/-- a value of 32 bits has five groups at most -/
def encodeInteger (size : ℕ) (value : BitVec 32) (n : ℕ) : Encoded :=
  if 0 ≥ size then ⟨[], -1⟩
  else if value < mask n then ⟨[value.setWidth 8], 1⟩
  else encodeContinuation size 5 [(mask n).setWidth 8] (value - mask n)

/-! ## Decoding -/

/-- the bytes that were read and what they stand for, `HPACK_ERROR_COMPRESSION_ERROR`, or nothing that the language defines -/
inductive Decoded (α : Type) where
  | ok (len : ℕ) (a : α)
  | compressionError
  | undefined
deriving DecidableEq

def UINT32_MAX : BitVec 32 := 0xffffffff

/-- the loop of `decode_integer`, `len` bytes behind `buf_start` -/
def decodeContinuation (m : ℕ) (dst : BitVec 32) (len : ℕ) : List (BitVec 8) → Decoded (BitVec 32)
  | [] => .compressionError
  | byte :: buf =>
    let addedValue := (byte &&& 0x7f).setWidth 32
    -- there is no shift by the width of the word or more
    if m ≥ 32 then .undefined
    else if UINT32_MAX >>> m < addedValue then .compressionError
    else
      let dst := dst + addedValue <<< m
      if byte &&& 0x80 ≠ 0 then decodeContinuation (m + 7) dst (len + 1) buf else .ok (len + 1) dst

def decodeInteger (buf : List (BitVec 8)) (n : ℕ) : Decoded (BitVec 32) :=
  match buf with
  | [] => .compressionError
  | byte :: buf =>
    let dst := byte.setWidth 32 &&& mask n
    if dst = mask n then decodeContinuation 0 dst 1 buf else .ok 1 dst

/-! ## What an integer stands for -/

/-- the number in front of `buf` and the bytes that it takes -/
def integer (n : ℕ) : List (BitVec 8) → Option (ℕ × ℕ)
  | [] => none
  | byte :: buf =>
    if byte.toNat % 2 ^ n < 2 ^ n - 1 then some (byte.toNat % 2 ^ n, 1)
    else (read buf).map fun vr => (2 ^ n - 1 + vr.1, 1 + (buf.length - vr.2.length))

/-- the bytes of a number -/
def encoding (n v : ℕ) : List (BitVec 8) :=
  if v < 2 ^ n - 1 then [BitVec.ofNat 8 v] else BitVec.ofNat 8 (2 ^ n - 1) :: write (v - (2 ^ n - 1))

/-- the room that `encode_integer` asks for -/
def room (n v : ℕ) : ℕ := if v < 2 ^ n - 1 then 1 else (encoding n v).length + 1

/-! ## The encoder -/

variable {n : ℕ}

theorem toNat_mask (hn : n ≤ 8) : (mask n).toNat = 2 ^ n - 1 := by
  interval_cases n <;> rfl

theorem toNat_group (v : BitVec 32) : (((v &&& 0x7f) ||| 0x80).setWidth 8 : BitVec 8) = BitVec.ofNat 8 (v.toNat % 128 + 128) := by
  apply BitVec.eq_of_toNat_eq
  have hlow : (v &&& 0x7f).toNat = v.toNat % 128 := by
    rw [BitVec.toNat_and]
    exact Nat.and_two_pow_sub_one_eq_mod v.toNat 7
  have hor : v.toNat % 128 ||| 128 = v.toNat % 128 + 128 := by
    have h := Nat.two_pow_add_eq_or_of_lt (i := 7) (Nat.mod_lt v.toNat (Nat.two_pow_pos 7)) 1
    rw [Nat.or_comm]
    exact h.symm.trans (Nat.add_comm _ _)
  rw [BitVec.toNat_setWidth, BitVec.toNat_or, hlow, BitVec.toNat_ofNat]
  exact congrArg (· % 2 ^ 8) hor

/-- the groups go behind `p` as long as one byte more than they take is left -/
structure Appends (size : ℕ) (p g : List (BitVec 8)) (e : Encoded) : Prop where
  fits : p.length + g.length < size → e = ⟨p ++ g, ((p ++ g).length : ℕ)⟩
  fails : size ≤ p.length + g.length → e.ret = -1
  inside : p.length ≤ size → e.bytes.length ≤ size

theorem setWidth_eq_ofNat (v : BitVec 32) : (v.setWidth 8 : BitVec 8) = BitVec.ofNat 8 v.toNat := by
  apply BitVec.eq_of_toNat_eq
  rw [BitVec.toNat_setWidth, BitVec.toNat_ofNat]

theorem encodeContinuation_last {size fuel : ℕ} {p : List (BitVec 8)} {v : BitVec 32} (hv : v.toNat < 128) :
    Appends size p (write v.toNat) (encodeContinuation size (fuel + 1) p v) := by
  have hnot : ¬ v ≥ 128 := by
    rw [ge_iff_le, BitVec.le_def]
    exact Nat.not_le_of_lt hv
  rw [encodeContinuation, if_neg hnot, write_of_lt hv, setWidth_eq_ofNat]
  by_cases hroom : p.length + 1 ≥ size
  · rw [if_pos hroom]
    exact ⟨fun h => absurd hroom (Nat.not_le_of_lt h), fun _ => rfl, fun h => h⟩
  · rw [if_neg hroom]
    refine ⟨fun _ => ?_, fun h => absurd h hroom, fun _ => ?_⟩
    · rw [List.length_append, List.length_singleton]
      rfl
    · rw [List.length_append, List.length_singleton]
      exact Nat.le_of_lt (Nat.lt_of_not_le hroom)

theorem encodeContinuation_appends {size fuel : ℕ} {p : List (BitVec 8)} {v : BitVec 32} (hv : v.toNat < 128 ^ (fuel + 1)) :
    Appends size p (write v.toNat) (encodeContinuation size (fuel + 1) p v) := by
  induction fuel generalizing p v with
  | zero => exact encodeContinuation_last hv
  | succ fuel ih =>
    by_cases hlast : v.toNat < 128
    · exact encodeContinuation_last hlast
    have hge : v ≥ 128 := BitVec.le_def.mpr (Nat.le_of_not_lt hlast)
    rw [encodeContinuation, if_pos hge, write_of_ge (Nat.le_of_not_lt hlast), toNat_group]
    by_cases hroom : p.length ≥ size
    · -- the buffer is full
      rw [if_pos hroom]
      refine ⟨fun h => ?_, fun _ => rfl, fun h => h⟩
      rw [List.length_cons] at h
      omega
    · rw [if_neg hroom]
      have hshift : (v >>> 7).toNat = v.toNat / 128 := by
        rw [BitVec.toNat_ushiftRight, Nat.shiftRight_eq_div_pow]
      have hdiv : (v >>> 7).toNat < 128 ^ (fuel + 1) := by
        rw [hshift]
        apply Nat.div_lt_of_lt_mul
        rwa [pow_succ, mul_comm] at hv
      obtain ⟨hfits, hfails, hinside⟩ := ih (p := p ++ [BitVec.ofNat 8 (v.toNat % 128 + 128)]) hdiv
      rw [hshift, List.length_append, List.length_singleton] at hfits hfails
      rw [List.append_assoc, List.singleton_append] at hfits
      rw [List.length_append, List.length_singleton] at hinside
      refine ⟨fun h => hfits ?_, fun h => hfails ?_, fun _ => hinside (Nat.lt_of_not_le hroom)⟩
      · rw [List.length_cons] at h
        omega
      · rw [List.length_cons] at h
        omega

/-- what `encode_integer` writes, where it fails, and that it stays inside the buffer -/
theorem encodeInteger_eq (size : ℕ) (v : BitVec 32) (hn : n ≤ 8) :
    (room n v.toNat ≤ size → encodeInteger size v n = ⟨encoding n v.toNat, (encoding n v.toNat).length⟩) ∧
      (size < room n v.toNat → (encodeInteger size v n).ret = -1) ∧ (encodeInteger size v n).bytes.length ≤ size := by
  have hmask := toNat_mask hn
  have hlt : v < mask n ↔ v.toNat < 2 ^ n - 1 := by
    rw [BitVec.lt_def, hmask]
  unfold encodeInteger room encoding
  by_cases hsize : 0 ≥ size
  · rw [if_pos hsize]
    refine ⟨fun h => ?_, fun _ => rfl, Nat.zero_le size⟩
    split_ifs at h <;> omega
  rw [if_neg hsize]
  by_cases hv : v.toNat < 2 ^ n - 1
  · rw [if_pos (hlt.mpr hv), if_pos hv, if_pos hv, setWidth_eq_ofNat]
    exact ⟨fun _ => rfl, fun h => absurd h (by omega), Nat.lt_of_not_le hsize⟩
  · rw [if_neg (fun h => hv (hlt.mp h)), if_neg hv, if_neg hv, setWidth_eq_ofNat, hmask]
    have hsub : (v - mask n).toNat = v.toNat - (2 ^ n - 1) := by
      rw [BitVec.toNat_sub_of_le, hmask]
      rw [BitVec.le_def, hmask]
      exact Nat.le_of_not_lt hv
    have hfuel : (v - mask n).toNat < 128 ^ (4 + 1) := lt_trans (v - mask n).isLt (by decide)
    have happends : Appends size [BitVec.ofNat 8 (2 ^ n - 1)] (write (v - mask n).toNat)
        (encodeContinuation size (4 + 1) [BitVec.ofNat 8 (2 ^ n - 1)] (v - mask n)) := encodeContinuation_appends hfuel
    obtain ⟨hfits, hfails, hinside⟩ := happends
    rw [hsub, List.length_singleton] at hfits hfails
    rw [List.length_cons]
    refine ⟨fun h => hfits (by omega), fun h => hfails (by omega), hinside (Nat.lt_of_not_le hsize)⟩

/-- seven bytes are room enough -/
theorem room_le (v : BitVec 32) : room n v.toNat ≤ 7 := by
  unfold room encoding
  split_ifs with hv
  · decide
  · have hfuel : v.toNat - (2 ^ n - 1) < 128 ^ (4 + 1) := lt_of_le_of_lt (Nat.sub_le _ _) (lt_trans v.isLt (by decide))
    have hlen := length_write_le hfuel
    rw [List.length_cons]
    omega

/-! ## The decoder -/

/-- there are `k` more groups with the top bit, the last of them not too large for what is left of the word, and one behind them -/
def TooMany : ℕ → List (BitVec 8) → Prop
  | 0, l => l ≠ []
  | _ + 1, [] => False
  | k + 1, b :: l => 128 ≤ b.toNat ∧ (k = 0 → b.toNat % 128 ≤ 15) ∧ TooMany k l

/-- the prefix is full, and a sixth group is read -/
def SixthGroup (n : ℕ) : List (BitVec 8) → Prop
  | [] => False
  | byte :: buf => byte.toNat % 2 ^ n = 2 ^ n - 1 ∧ TooMany 5 buf

/-- five groups make less than `2 ^ 32`, and more with the prefix -/
def Wraps (n : ℕ) (buf : List (BitVec 8)) : Prop :=
  ∃ v len, integer n buf = some (v, len) ∧ len ≤ 6 ∧ 2 ^ 32 ≤ v ∧ v < 2 ^ 32 + (2 ^ n - 1)

theorem toNat_low (b : BitVec 8) : (b &&& 0x7f).toNat = b.toNat % 128 := by
  rw [BitVec.toNat_and]
  exact Nat.and_two_pow_sub_one_eq_mod b.toNat 7

theorem top_ne_zero (b : BitVec 8) : b &&& 0x80 ≠ 0 ↔ 128 ≤ b.toNat := by
  revert b
  decide

/-- one round, for a group that lies in the word -/
theorem decodeContinuation_cons {i : ℕ} (hi : i ≤ 4) (dst : BitVec 32) (len : ℕ) (b : BitVec 8) (l : List (BitVec 8)) :
    decodeContinuation (7 * i) dst len (b :: l) =
      if 2 ^ 32 ≤ b.toNat % 128 * 2 ^ (7 * i) then .compressionError
      else if 128 ≤ b.toNat then
        decodeContinuation (7 * (i + 1)) (dst + BitVec.ofNat 32 (b.toNat % 128 * 2 ^ (7 * i))) (len + 1) l
      else .ok (len + 1) (dst + BitVec.ofNat 32 (b.toNat % 128 * 2 ^ (7 * i))) := by
  have hadded : ((b &&& 0x7f).setWidth 32 : BitVec 32).toNat = b.toNat % 128 := by
    rw [BitVec.toNat_setWidth, toNat_low]
    exact Nat.mod_eq_of_lt (by omega)
  have hcheck : UINT32_MAX >>> (7 * i) < (b &&& 0x7f).setWidth 32 ↔ 2 ^ 32 ≤ b.toNat % 128 * 2 ^ (7 * i) := by
    rw [BitVec.lt_def, hadded, BitVec.toNat_ushiftRight, Nat.shiftRight_eq_div_pow, Nat.div_lt_iff_lt_mul (Nat.two_pow_pos _)]
    have hmax : UINT32_MAX.toNat = 2 ^ 32 - 1 := rfl
    omega
  have hshift : ((b &&& 0x7f).setWidth 32 : BitVec 32) <<< (7 * i) = BitVec.ofNat 32 (b.toNat % 128 * 2 ^ (7 * i)) := by
    apply BitVec.eq_of_toNat_eq
    rw [BitVec.toNat_shiftLeft, hadded, Nat.shiftLeft_eq, BitVec.toNat_ofNat]
  rw [decodeContinuation, if_neg (by omega)]
  dsimp only
  simp only [hcheck, hshift, top_ne_zero]
  rfl

/-- what the loop makes of the bytes `l`, behind `i` groups -/
structure LoopSpec (i : ℕ) (dst : BitVec 32) (len : ℕ) (l : List (BitVec 8)) (d : Decoded (BitVec 32)) : Prop where
  undefined_iff : d = .undefined ↔ TooMany (5 - i) l
  ok : ∀ len' dst', d = .ok len' dst' → ∃ v r, read l = some (v, r) ∧ len' + r.length = len + l.length ∧ len' ≤ len + (5 - i) ∧
    v * 2 ^ (7 * i) < 2 ^ 32 ∧ dst' = dst + BitVec.ofNat 32 (v * 2 ^ (7 * i))
  error : d = .compressionError → ∀ v r, read l = some (v, r) → 2 ^ 32 ≤ v * 2 ^ (7 * i)

/-- only the fifth group can be too large -/
theorem large_iff {i x : ℕ} (hi : i ≤ 4) (hx : x < 128) : 2 ^ 32 ≤ x * 2 ^ (7 * i) ↔ i = 4 ∧ 15 < x := by
  interval_cases i <;> omega

/-- the groups behind the first one, in their place -/
theorem group_add {i x v : ℕ} : (x + 128 * v) * 2 ^ (7 * i) = x * 2 ^ (7 * i) + v * 2 ^ (7 * (i + 1)) := by
  rw [Nat.mul_succ, pow_add]
  ring

theorem group_add_lt {i x v : ℕ} (hi : i ≤ 4) (hx : x < 128) (hlow : x * 2 ^ (7 * i) < 2 ^ 32) (hv : v * 2 ^ (7 * (i + 1)) < 2 ^ 32) :
    (x + 128 * v) * 2 ^ (7 * i) < 2 ^ 32 := by
  by_cases hfour : i = 4
  · have hzero : v = 0 := by
      have hlt : v * 2 ^ (7 * (i + 1)) < 1 * 2 ^ (7 * (i + 1)) := by
        rw [hfour] at hv ⊢
        exact lt_trans hv (by decide)
      exact Nat.lt_one_iff.mp (Nat.lt_of_mul_lt_mul_right hlt)
    rw [hzero]
    exact hlow
  · -- the groups behind are a multiple of what this one can be
    obtain ⟨k, hk⟩ : ∃ k, 32 = k + 7 * (i + 1) := ⟨32 - 7 * (i + 1), by omega⟩
    rw [hk, pow_add] at hv ⊢
    have hnext : v + 1 ≤ 2 ^ k := Nat.lt_of_mul_lt_mul_right hv
    calc (x + 128 * v) * 2 ^ (7 * i) < (128 + 128 * v) * 2 ^ (7 * i) :=
          Nat.mul_lt_mul_of_pos_right (Nat.add_lt_add_right hx _) (Nat.two_pow_pos _)
      _ = (v + 1) * 2 ^ (7 * (i + 1)) := by rw [Nat.mul_succ, pow_add]; ring
      _ ≤ 2 ^ k * 2 ^ (7 * (i + 1)) := Nat.mul_le_mul_right _ hnext

section Rounds

variable {i len : ℕ} {dst : BitVec 32} {b : BitVec 8} {l : List (BitVec 8)}

/-- the groups that are left are this one and `k` more -/
theorem exists_left (hi : i ≤ 4) : ∃ k, 5 - i = k + 1 ∧ 5 - (i + 1) = k := ⟨4 - i, by omega, by omega⟩

/-- a sixth group, for which the shift would be by 35 -/
theorem loopSpec_sixth : LoopSpec 5 dst len (b :: l) .undefined where
  undefined_iff := ⟨fun _ => List.cons_ne_nil b l, fun _ => rfl⟩
  ok := fun len' dst' h => by cases h
  error := fun h => by cases h

/-- a group that does not fit in what is left of the word -/
theorem loopSpec_large (hi : i ≤ 4) (hlarge : 2 ^ 32 ≤ b.toNat % 128 * 2 ^ (7 * i)) : LoopSpec i dst len (b :: l) .compressionError := by
  constructor
  · obtain ⟨k, hk, -⟩ := exists_left hi
    rw [hk, TooMany]
    refine ⟨nofun, fun h => ?_⟩
    have hfour := (large_iff hi (Nat.mod_lt _ (by decide))).mp hlarge
    exact absurd (h.2.1 (by omega)) (Nat.not_le_of_lt hfour.2)
  · intro len' dst' h
    cases h
  · intro _ v r hread
    exact hlarge.trans (Nat.mul_le_mul_right _ (group_le_of_read hread))

/-- a group behind which there are more -/
theorem LoopSpec.next (hi : i ≤ 4) (hb : 128 ≤ b.toNat) (hfits : b.toNat % 128 * 2 ^ (7 * i) < 2 ^ 32) {d : Decoded (BitVec 32)}
    (h : LoopSpec (i + 1) (dst + BitVec.ofNat 32 (b.toNat % 128 * 2 ^ (7 * i))) (len + 1) l d) : LoopSpec i dst len (b :: l) d := by
  obtain ⟨k, hk, hk'⟩ := exists_left hi
  have hx : b.toNat % 128 < 128 := Nat.mod_lt _ (by decide)
  obtain ⟨hund, hok, herr⟩ := h
  rw [hk'] at hund hok
  constructor
  · rw [hund, hk, TooMany]
    refine ⟨fun h => ⟨hb, fun hzero => ?_, h⟩, fun h => h.2.2⟩
    by_contra hlow
    exact absurd ((large_iff hi hx).mpr ⟨by omega, Nat.lt_of_not_le hlow⟩) (Nat.not_le_of_lt hfits)
  · intro len' dst' h
    obtain ⟨v, r, hread, hlen, hle, hlt, hdst⟩ := hok len' dst' h
    refine ⟨b.toNat % 128 + 128 * v, r, ?_, ?_, ?_, group_add_lt hi hx hfits hlt, ?_⟩
    · rw [read_of_ge hb, hread, Option.map_some]
    · rw [List.length_cons]
      omega
    · omega
    · rw [hdst, group_add, BitVec.ofNat_add, BitVec.add_assoc]
  · intro h v r hread
    rw [read_of_ge hb, Option.map_eq_some_iff] at hread
    obtain ⟨⟨v', r'⟩, hread', heq⟩ := hread
    cases heq
    rw [group_add]
    exact (herr h v' r' hread').trans (Nat.le_add_left _ _)

theorem loopSpec_last (hi : i ≤ 4) (hb : b.toNat < 128) (hfits : b.toNat % 128 * 2 ^ (7 * i) < 2 ^ 32) :
    LoopSpec i dst len (b :: l) (.ok (len + 1) (dst + BitVec.ofNat 32 (b.toNat % 128 * 2 ^ (7 * i)))) := by
  rw [Nat.mod_eq_of_lt hb] at hfits ⊢
  constructor
  · obtain ⟨k, hk, -⟩ := exists_left hi
    rw [hk, TooMany]
    exact ⟨nofun, fun h => absurd h.1 (Nat.not_le_of_lt hb)⟩
  · intro len' dst' h
    cases h
    refine ⟨b.toNat, l, read_of_lt hb l, ?_, by omega, hfits, rfl⟩
    rw [List.length_cons]
    omega
  · intro h
    cases h

end Rounds

theorem decodeContinuation_spec {i : ℕ} (hi : i ≤ 5) (dst : BitVec 32) (len : ℕ) (l : List (BitVec 8)) :
    LoopSpec i dst len l (decodeContinuation (7 * i) dst len l) := by
  induction l generalizing i dst len with
  | nil =>
    constructor
    · cases 5 - i with
      | zero => simp [TooMany, decodeContinuation]
      | succ k => simp [TooMany, decodeContinuation]
    · intro len' dst' h
      cases h
    · intro _ v r h
      cases h
  | cons b l ih =>
    rcases hi.eq_or_lt with rfl | hlt
    · rw [decodeContinuation, if_pos (by omega)]
      exact loopSpec_sixth
    · have hi4 : i ≤ 4 := Nat.le_of_lt_succ hlt
      rw [decodeContinuation_cons hi4]
      by_cases hlarge : 2 ^ 32 ≤ b.toNat % 128 * 2 ^ (7 * i)
      · rw [if_pos hlarge]
        exact loopSpec_large hi4 hlarge
      · rw [if_neg hlarge]
        by_cases hb : 128 ≤ b.toNat
        · rw [if_pos hb]
          exact (ih hlt _ _).next hi4 hb (Nat.lt_of_not_le hlarge)
        · rw [if_neg hb]
          exact loopSpec_last hi4 (Nat.lt_of_not_le hb) (Nat.lt_of_not_le hlarge)

/-! ## The decoder and the numbers -/

/-- `decode_integer` reports an error or has the number in front of `buf`, and that has 32 bits -/
def Exact (n : ℕ) (buf : List (BitVec 8)) : Prop :=
  decodeInteger buf n = .compressionError ∨
    ∃ (len : ℕ) (v : BitVec 32), decodeInteger buf n = .ok len v ∧ integer n buf = some (v.toNat, len)

theorem decodeInteger_cons (hn : n ≤ 8) (b : BitVec 8) (l : List (BitVec 8)) :
    decodeInteger (b :: l) n =
      if b.toNat % 2 ^ n < 2 ^ n - 1 then .ok 1 (BitVec.ofNat 32 (b.toNat % 2 ^ n))
      else decodeContinuation (7 * 0) (BitVec.ofNat 32 (2 ^ n - 1)) 1 l := by
  have hlow : (b.setWidth 32 &&& mask n).toNat = b.toNat % 2 ^ n := by
    rw [BitVec.toNat_and, toNat_mask hn, BitVec.toNat_setWidth, Nat.and_two_pow_sub_one_eq_mod]
    rw [Nat.mod_eq_of_lt (lt_trans b.isLt (by decide))]
  have hofNat : b.setWidth 32 &&& mask n = BitVec.ofNat 32 (b.toNat % 2 ^ n) := by
    rw [← hlow, BitVec.ofNat_toNat, BitVec.setWidth_eq]
  have hfull : b.setWidth 32 &&& mask n = mask n ↔ ¬ b.toNat % 2 ^ n < 2 ^ n - 1 := by
    rw [← BitVec.toNat_inj, hlow, toNat_mask hn]
    have := Nat.mod_lt b.toNat (Nat.two_pow_pos n)
    omega
  have hmask : mask n = BitVec.ofNat 32 (2 ^ n - 1) := by
    rw [← toNat_mask hn, BitVec.ofNat_toNat, BitVec.setWidth_eq]
  rw [decodeInteger]
  by_cases hlt : b.toNat % 2 ^ n < 2 ^ n - 1
  · rw [if_neg (fun h => hfull.mp h hlt), if_pos hlt, hofNat]
  · rw [if_pos (hfull.mpr hlt), if_neg hlt, hfull.mpr hlt, hmask]

/-- what `decode_integer` makes of `buf` -/
structure IntegerSpec (n : ℕ) (buf : List (BitVec 8)) (d : Decoded (BitVec 32)) : Prop where
  undefined_iff : d = .undefined ↔ SixthGroup n buf
  ok : ∀ len v, d = .ok len v → len ≤ 6 ∧ ∃ w, integer n buf = some (w, len) ∧ w < 2 ^ 32 + (2 ^ n - 1) ∧ v = BitVec.ofNat 32 w
  error : d = .compressionError → ∀ w len, integer n buf = some (w, len) → 2 ^ 32 + (2 ^ n - 1) ≤ w

theorem decodeInteger_spec (hn : n ≤ 8) (buf : List (BitVec 8)) : IntegerSpec n buf (decodeInteger buf n) := by
  have hpow : 2 ^ n ≤ 2 ^ 8 := Nat.pow_le_pow_right Nat.two_pos hn
  cases buf with
  | nil =>
    constructor
    · exact ⟨nofun, nofun⟩
    · intro len v h
      cases h
    · intro _ w len h
      cases h
  | cons b l =>
    rw [decodeInteger_cons hn]
    by_cases hlt : b.toNat % 2 ^ n < 2 ^ n - 1
    · -- the prefix is the number
      rw [if_pos hlt]
      constructor
      · exact ⟨nofun, fun h => absurd h.1 (Nat.ne_of_lt hlt)⟩
      · intro len v h
        cases h
        refine ⟨by decide, b.toNat % 2 ^ n, ?_, by omega, rfl⟩
        rw [integer, if_pos hlt]
      · intro h
        cases h
    · rw [if_neg hlt]
      have hfull : b.toNat % 2 ^ n = 2 ^ n - 1 := by
        have := Nat.mod_lt b.toNat (Nat.two_pow_pos n)
        omega
      obtain ⟨hund, hok, herr⟩ := decodeContinuation_spec (Nat.zero_le 5) (BitVec.ofNat 32 (2 ^ n - 1)) 1 l
      rw [Nat.mul_zero, pow_zero] at hok herr
      constructor
      · rw [hund, SixthGroup, Nat.sub_zero]
        exact ⟨fun h => ⟨hfull, h⟩, fun h => h.2⟩
      · intro len v h
        obtain ⟨w, r, hread, hlen, hle, hw, hv⟩ := hok len v h
        have hrest := (read_rest hread).2
        refine ⟨by omega, 2 ^ n - 1 + w, ?_, by omega, ?_⟩
        · rw [integer, if_neg hlt, hread, Option.map_some]
          dsimp only
          congr 2
          omega
        · rw [hv, Nat.mul_one, BitVec.ofNat_add]
      · intro h w len hint
        rw [integer, if_neg hlt, Option.map_eq_some_iff] at hint
        obtain ⟨⟨w', r⟩, hread, heq⟩ := hint
        cases heq
        have := herr h w' r hread
        dsimp only
        omega

/-! ## The results -/

/-- too many groups are more than `k` -/
theorem TooMany.length_lt {k v : ℕ} {l r : List (BitVec 8)} (h : TooMany k l) (hread : read l = some (v, r)) :
    r.length + k < l.length := by
  induction k generalizing l v with
  | zero => exact (read_rest hread).2
  | succ k ih =>
    cases l with
    | nil => exact h.elim
    | cons b l =>
      rw [read_of_ge h.1, Option.map_eq_some_iff] at hread
      obtain ⟨⟨v', r'⟩, hread', heq⟩ := hread
      cases heq
      have := ih h.2.2 hread'
      rw [List.length_cons]
      omega

/-- what is written comes back, with any bytes behind it -/
theorem decodeInteger_encoding (hn : n ≤ 8) (v : BitVec 32) (rest : List (BitVec 8)) :
    decodeInteger (encoding n v.toNat ++ rest) n = .ok (encoding n v.toNat).length v := by
  have hpos := Nat.two_pow_pos n
  have hpow : 2 ^ n ≤ 2 ^ 8 := Nat.pow_le_pow_right Nat.two_pos hn
  have hvlt := v.isLt
  have hint : integer n (encoding n v.toNat ++ rest) = some (v.toNat, (encoding n v.toNat).length) := by
    unfold encoding
    by_cases hv : v.toNat < 2 ^ n - 1
    · have hbyte : (BitVec.ofNat 8 v.toNat).toNat % 2 ^ n = v.toNat := by
        rw [BitVec.toNat_ofNat, Nat.mod_mod_of_dvd _ (Nat.pow_dvd_pow 2 hn)]
        exact Nat.mod_eq_of_lt (by omega)
      rw [if_pos hv, List.singleton_append, integer, hbyte, if_pos hv, List.length_singleton]
    · have hbyte : (BitVec.ofNat 8 (2 ^ n - 1)).toNat % 2 ^ n = 2 ^ n - 1 := by
        rw [BitVec.toNat_ofNat, Nat.mod_mod_of_dvd _ (Nat.pow_dvd_pow 2 hn)]
        exact Nat.mod_eq_of_lt (by omega)
      rw [if_neg hv, List.cons_append, integer, hbyte, if_neg (Nat.lt_irrefl _), read_write, Option.map_some]
      dsimp only
      rw [List.length_append, List.length_cons]
      congr 2
      · omega
      · omega
  obtain ⟨hund, hok, herr⟩ := decodeInteger_spec hn (encoding n v.toNat ++ rest)
  cases hdec : decodeInteger (encoding n v.toNat ++ rest) n with
  | undefined =>
    have hsixth := hund.mp hdec
    unfold encoding at hsixth
    by_cases hv : v.toNat < 2 ^ n - 1
    · rw [if_pos hv, List.singleton_append, SixthGroup, BitVec.toNat_ofNat, Nat.mod_mod_of_dvd _ (Nat.pow_dvd_pow 2 hn)] at hsixth
      have hmod : v.toNat % 2 ^ n = v.toNat := Nat.mod_eq_of_lt (by omega)
      omega
    · rw [if_neg hv, List.cons_append] at hsixth
      have hlen := hsixth.2.length_lt (read_write _ rest)
      have hfuel : v.toNat - (2 ^ n - 1) < 128 ^ (4 + 1) := lt_of_le_of_lt (Nat.sub_le _ _) (lt_trans hvlt (by decide))
      have hgroups := length_write_le hfuel
      rw [List.length_append] at hlen
      omega
  | compressionError =>
    have := herr hdec _ _ hint
    omega
  | ok len w =>
    obtain ⟨-, w', hint', -, rfl⟩ := hok len w hdec
    rw [hint] at hint'
    cases hint'
    rw [BitVec.ofNat_toNat, BitVec.setWidth_eq]

/-- Every number of 32 bits comes back from what `encode_integer` writes, which fails without room and stays inside the buffer. -/
theorem integer_round_trip (v : BitVec 32) (hn : 1 ≤ n ∧ n ≤ 8) (size : ℕ) :
    (encodeInteger size v n).bytes.length ≤ size ∧
    (room n v.toNat ≤ size → (encodeInteger size v n).ret = (encodeInteger size v n).bytes.length ∧
      ∀ rest, decodeInteger ((encodeInteger size v n).bytes ++ rest) n = .ok (encodeInteger size v n).bytes.length v) ∧
    (size < room n v.toNat → (encodeInteger size v n).ret = -1) ∧ room n v.toNat ≤ 7 := by
  obtain ⟨hfits, hfails, hinside⟩ := encodeInteger_eq size v hn.2
  refine ⟨hinside, fun hroom => ?_, hfails, room_le v⟩
  rw [hfits hroom]
  exact ⟨rfl, decodeInteger_encoding hn.2 v⟩

theorem integer_round_trip_max :
    decodeInteger ((encodeInteger 7 UINT32_MAX 5).bytes ++ [0]) 5 = .ok (encodeInteger 7 UINT32_MAX 5).bytes.length UINT32_MAX :=
  ((integer_round_trip UINT32_MAX (by decide) 7).2.1 (room_le UINT32_MAX)).2 [0]

/-- `decode_integer` is exact unless there is a sixth group or the sum of five groups and the prefix wraps. -/
theorem decodeInteger_exact_iff (hn : 1 ≤ n ∧ n ≤ 8) (buf : List (BitVec 8)) : Exact n buf ↔ ¬ SixthGroup n buf ∧ ¬ Wraps n buf := by
  obtain ⟨hund, hok, herr⟩ := decodeInteger_spec hn.2 buf
  constructor
  · intro hexact
    refine ⟨fun hsixth => ?_, fun hwraps => ?_⟩
    · -- nothing defined is returned
      rcases hexact with h | ⟨len, v, h, -⟩
      · rw [hund.mpr hsixth] at h
        cases h
      · rw [hund.mpr hsixth] at h
        cases h
    · obtain ⟨w, len, hint, -, hge, hlt⟩ := hwraps
      rcases hexact with h | ⟨len', v, h, hint'⟩
      · have := herr h w len hint
        omega
      · -- the number does not have 32 bits
        rw [hint] at hint'
        cases hint'
        exact absurd v.isLt (Nat.not_lt_of_le hge)
  · intro hnot
    cases h : decodeInteger buf n with
    | undefined => exact absurd (hund.mp h) hnot.1
    | compressionError => exact Or.inl h
    | ok len v =>
      obtain ⟨hlen, w, hint, hlt, rfl⟩ := hok len v h
      have hw : w < 2 ^ 32 := by
        by_contra hge
        exact hnot.2 ⟨w, len, hint, hlen, Nat.le_of_not_lt hge, hlt⟩
      refine Or.inr ⟨len, BitVec.ofNat 32 w, h, ?_⟩
      rw [hint, BitVec.toNat_ofNat, Nat.mod_eq_of_lt hw]

/-- 1337 behind a prefix of five bits -/
theorem decodeInteger_exact_1337 : Exact 5 [0x1f#8, 0x9a#8, 0x0a#8] := by
  have hint : integer 5 [0x1f#8, 0x9a#8, 0x0a#8] = some (1337, 3) := by decide
  refine (decodeInteger_exact_iff (by decide) _).mpr ⟨fun h => ?_, fun ⟨v, len, h, _, hge, _⟩ => ?_⟩
  · exact absurd h.2.2.2.1 (by decide)
  · rw [hint] at h
    cases h
    exact absurd hge (by decide)

/-- 127 in the prefix and `2 ^ 32 - 1` behind it -/
theorem decodeInteger_wraps : ¬ ∀ n, 1 ≤ n ∧ n ≤ 8 → ∀ buf, Exact n buf := by
  intro h
  have hdec : decodeInteger [0x7f#8, 0xff#8, 0xff#8, 0xff#8, 0xff#8, 0x0f#8] 7 = .ok 6 126 := by decide
  have hint : integer 7 [0x7f#8, 0xff#8, 0xff#8, 0xff#8, 0xff#8, 0x0f#8] = some (2 ^ 32 + 126, 6) := by decide
  rcases h 7 (by decide) [0x7f#8, 0xff#8, 0xff#8, 0xff#8, 0xff#8, 0x0f#8] with herr | ⟨len, v, hok, hv⟩
  · rw [hdec] at herr
    cases herr
  · rw [hint] at hv
    have hval := congrArg Prod.fst (Option.some.inj hv)
    have hlt := v.isLt
    dsimp only at hval
    omega

end TrafficServer.Http2.Hpack
