/-
`ats_base64_decode` (`src/tscore/ink_base64.cc`): which bytes it reads and writes.

The input and the output are buffers of `inBufferSize` and `outBufSize` bytes, and an access beyond one of them is `none`. The scan for
the end of the data does not look at `inBufferSize`, and a group of four characters is read as a whole. `decode_inside_iff` says for which
buffers neither matters.
-/
import Mathlib

namespace TrafficServer.Base64

abbrev Bytes := List UInt8

def MAX_PRINT_VAL : UInt8 := 63

def printableToSixBit : List UInt8 :=
  [64, 64, 64, 64, 64, 64, 64, 64, 64, 64, 64, 64, 64, 64, 64, 64, 64, 64, 64, 64, 64, 64, 64, 64, 64, 64, 64, 64, 64, 64, 64, 64,
   64, 64, 64, 64, 64, 64, 64, 64, 64, 64, 64, 62, 64, 62, 64, 63, 52, 53, 54, 55, 56, 57, 58, 59, 60, 61, 64, 64, 64, 64, 64, 64,
   64, 0,  1,  2,  3,  4,  5,  6,  7,  8,  9,  10, 11, 12, 13, 14, 15, 16, 17, 18, 19, 20, 21, 22, 23, 24, 25, 64, 64, 64, 64, 63,
   64, 26, 27, 28, 29, 30, 31, 32, 33, 34, 35, 36, 37, 38, 39, 40, 41, 42, 43, 44, 45, 46, 47, 48, 49, 50, 51, 64, 64, 64, 64, 64,
   64, 64, 64, 64, 64, 64, 64, 64, 64, 64, 64, 64, 64, 64, 64, 64, 64, 64, 64, 64, 64, 64, 64, 64, 64, 64, 64, 64, 64, 64, 64, 64,
   64, 64, 64, 64, 64, 64, 64, 64, 64, 64, 64, 64, 64, 64, 64, 64, 64, 64, 64, 64, 64, 64, 64, 64, 64, 64, 64, 64, 64, 64, 64, 64,
   64, 64, 64, 64, 64, 64, 64, 64, 64, 64, 64, 64, 64, 64, 64, 64, 64, 64, 64, 64, 64, 64, 64, 64, 64, 64, 64, 64, 64, 64, 64, 64,
   64, 64, 64, 64, 64, 64, 64, 64, 64, 64, 64, 64, 64, 64, 64, 64, 64, 64, 64, 64, 64, 64, 64, 64, 64, 64, 64, 64, 64, 64, 64, 64]

/-- `DECODE` -/
def sixBit (c : UInt8) : UInt8 := printableToSixBit.getD c.toNat 64

def decodable (c : UInt8) : Bool := sixBit c ≤ MAX_PRINT_VAL

/-- in a `size_t` -/
def ATS_BASE64_DECODE_DSTLEN (length : ℕ) : ℕ := (length + 3) % 2 ^ 64 / 4 * 3

/-- the scan for the end of the data, which gives `inBytes` -/
def scan : Bytes → Option ℕ
  | [] => none
  | c :: s => if decodable c then (scan s).map (· + 1) else some 0

/-- a byte that is written to the output -/
def store (out : Bytes) (i : ℕ) (c : UInt8) : Option Bytes := if i < out.length then some (out.set i c) else none

/-- the variables of the loop; pointers into the buffers are indices -/
structure State where
  inBuffer : ℕ
  buf : ℕ
  decodedBytes : ℕ
  inputBytesDecoded : ℕ
  out : Bytes

/-- a round of the loop -/
def group (input : Bytes) (s : State) : Option State := do
  let c₀ ← input[s.inBuffer]?
  let c₁ ← input[s.inBuffer + 1]?
  let out ← store s.out s.buf (sixBit c₀ <<< 2 ||| sixBit c₁ >>> 4)
  let c₂ ← input[s.inBuffer + 2]?
  let out ← store out (s.buf + 1) (sixBit c₁ <<< 4 ||| sixBit c₂ >>> 2)
  let c₃ ← input[s.inBuffer + 3]?
  let out ← store out (s.buf + 2) (sixBit c₂ <<< 6 ||| sixBit c₃)
  some ⟨s.inBuffer + 4, s.buf + 3, s.decodedBytes + 3, s.inputBytesDecoded + 4, out⟩

def groupLoop (input : Bytes) (inBytes : ℕ) : ℕ → ℕ → State → Option State
  | 0, _, _ => none
  | fuel + 1, i, s => if i < inBytes then (group input s).bind (groupLoop input inBytes fuel (i + 4)) else some s

/-- the result, the output and what is stored at `length` -/
structure Decoded where
  result : Bool
  out : Bytes
  length : Option ℕ
deriving DecidableEq

/-- the terminator behind the decoded bytes -/
def terminate (out : Bytes) (decodedBytes : ℕ) : Option Decoded := (store out decodedBytes 0).map fun out => ⟨true, out, some decodedBytes⟩

def decode (input out : Bytes) : Option Decoded :=
  if out.length < ATS_BASE64_DECODE_DSTLEN input.length then some ⟨false, out, none⟩
  else do
    let inBytes ← scan input
    let s ← groupLoop input inBytes (inBytes + 1) 0 ⟨0, 0, 0, 0, out⟩
    -- a multiple of four bytes needs no look back
    let decodedBytes ←
      if ((inBytes : ℤ) - s.inputBytesDecoded) % 4 ≠ 0 then
        input[s.inBuffer - 2]?.map fun c => if !decodable c then s.decodedBytes - 2 else s.decodedBytes - 1
      else some s.decodedBytes
    terminate s.out decodedBytes

/-! ## The loops -/

variable {input out : Bytes}

/-- how far the data goes -/
def dataLength (input : Bytes) : ℕ := (input.takeWhile decodable).length

theorem scan_eq (input : Bytes) : scan input = if dataLength input < input.length then some (dataLength input) else none := by
  induction input with
  | nil => rfl
  | cons c s ih =>
    rw [scan, ih]
    by_cases hc : decodable c = true
    · have hlen : dataLength (c :: s) = dataLength s + 1 := by simp [dataLength, hc]
      rw [if_pos hc, hlen, List.length_cons]
      split_ifs with h h' h'
      · rfl
      · omega
      · omega
      · rfl
    · have hlen : dataLength (c :: s) = 0 := by simp [dataLength, hc]
      rw [if_neg hc, hlen, if_pos (by simp)]

theorem store_some {i : ℕ} (h : i < out.length) (c : UInt8) : store out i c = some (out.set i c) := if_pos h

/-- a group is read and written as a whole -/
theorem group_some {s : State} (hin : s.inBuffer + 4 ≤ input.length) (hout : s.buf + 3 ≤ s.out.length) :
    ∃ out, out.length = s.out.length ∧
      group input s = some ⟨s.inBuffer + 4, s.buf + 3, s.decodedBytes + 3, s.inputBytesDecoded + 4, out⟩ := by
  unfold group
  rw [List.getElem?_eq_getElem (by omega), List.getElem?_eq_getElem (by omega), List.getElem?_eq_getElem (by omega),
    List.getElem?_eq_getElem (by omega)]
  simp only [Option.bind_eq_bind, Option.bind_some]
  rw [store_some (by omega), Option.bind_some, store_some (by rw [List.length_set]; omega), Option.bind_some,
    store_some (by rw [List.length_set, List.length_set]; omega), Option.bind_some]
  exact ⟨_, by rw [List.length_set, List.length_set, List.length_set], rfl⟩

theorem store_length {out' : Bytes} {i : ℕ} {c : UInt8} (h : store out i c = some out') : i < out.length ∧ out'.length = out.length := by
  unfold store at h
  split_ifs at h with hi
  refine ⟨hi, ?_⟩
  rw [← Option.some.inj h, List.length_set]

theorem group_inside {s s' : State} (h : group input s = some s') : s.inBuffer + 4 ≤ input.length ∧ s.buf + 3 ≤ s.out.length := by
  unfold group at h
  simp only [Option.bind_eq_bind, Option.bind_eq_some_iff] at h
  obtain ⟨c₀, -, c₁, -, out₁, hout₁, c₂, -, out₂, hout₂, c₃, hc₃, out₃, hout₃, -⟩ := h
  obtain ⟨-, hlen₁⟩ := store_length hout₁
  obtain ⟨-, hlen₂⟩ := store_length hout₂
  obtain ⟨hbuf, -⟩ := store_length hout₃
  obtain ⟨hin, -⟩ := List.getElem?_eq_some_iff.mp hc₃
  exact ⟨hin, by omega⟩

/-- the variables behind `j` rounds -/
structure At (j : ℕ) (out : Bytes) (s : State) : Prop where
  inBuffer : s.inBuffer = 4 * j
  buf : s.buf = 3 * j
  decodedBytes : s.decodedBytes = 3 * j
  inputBytesDecoded : s.inputBytesDecoded = 4 * j
  length : s.out.length = out.length

/-- the loop makes one round for each four bytes, the last of them perhaps not all there -/
theorem groupLoop_eq (input : Bytes) (inBytes fuel : ℕ) {j : ℕ} {s : State} (hs : At j out s) (hj : j ≤ (inBytes + 3) / 4) (hfuel : (inBytes + 3) / 4 < fuel + j)
    (hin : 4 * j ≤ input.length) (hout : 3 * j ≤ out.length) :
    if 4 * ((inBytes + 3) / 4) ≤ input.length ∧ 3 * ((inBytes + 3) / 4) ≤ out.length then
      ∃ s', groupLoop input inBytes fuel (4 * j) s = some s' ∧ At ((inBytes + 3) / 4) out s'
    else groupLoop input inBytes fuel (4 * j) s = none := by
  induction fuel generalizing j s with
  | zero => omega
  | succ fuel ih =>
    rw [groupLoop]
    by_cases hend : 4 * j < inBytes
    · rw [if_pos hend]
      by_cases hfits : s.inBuffer + 4 ≤ input.length ∧ s.buf + 3 ≤ s.out.length
      · obtain ⟨out', hlen, hgroup⟩ := group_some hfits.1 hfits.2
        have hs' : At (j + 1) out ⟨s.inBuffer + 4, s.buf + 3, s.decodedBytes + 3, s.inputBytesDecoded + 4, out'⟩ := by
          refine ⟨?_, ?_, ?_, ?_, hlen.trans hs.length⟩
          · rw [hs.inBuffer]; ring
          · rw [hs.buf]; ring
          · rw [hs.decodedBytes]; ring
          · rw [hs.inputBytesDecoded]; ring
        rw [hgroup, Option.bind_some]
        rw [hs.inBuffer, hs.buf, hs.length] at hfits
        exact ih hs' (by omega) (by omega) (by omega) (by omega)
      · have hnone : group input s = none := by
          cases hgroup : group input s with
          | none => rfl
          | some s' => exact absurd (group_inside hgroup) hfits
        rw [hs.inBuffer, hs.buf, hs.length] at hfits
        rw [hnone, Option.bind_none, if_neg (by omega)]
    · rw [if_neg hend]
      obtain rfl : j = (inBytes + 3) / 4 := by omega
      rw [if_pos ⟨hin, hout⟩]
      exact ⟨s, rfl, hs⟩

/-! ## The bounds -/

theorem terminate_ne_none (out : Bytes) (i : ℕ) : terminate out i ≠ none ↔ i < out.length := by
  unfold terminate store
  split_ifs with h
  · exact iff_of_true nofun h
  · exact iff_of_false (not_not.mpr rfl) h

/-- how many bytes are written for so much data: with the terminator, whose place is before the end of a group that is not full -/
def written (inBytes : ℕ) : ℕ := if inBytes % 4 = 0 then 3 * (inBytes / 4) + 1 else 3 * ((inBytes + 3) / 4)

/-- The function stays in its buffers exactly if it refuses the output, or the input has a byte that ends the data, with the last group of
four before the end of the input, and the output has room. -/
theorem decode_inside_iff (input out : Bytes) : decode input out ≠ none ↔
    out.length < ATS_BASE64_DECODE_DSTLEN input.length ∨
      dataLength input < input.length ∧ 4 * ((dataLength input + 3) / 4) ≤ input.length ∧ written (dataLength input) ≤ out.length := by
  unfold decode
  by_cases hrefused : out.length < ATS_BASE64_DECODE_DSTLEN input.length
  · rw [if_pos hrefused]
    exact iff_of_true nofun (Or.inl hrefused)
  · rw [if_neg hrefused, or_iff_right hrefused, scan_eq]
    generalize dataLength input = k
    by_cases hk : k < input.length
    · rw [if_pos hk, Option.bind_eq_bind, Option.bind_some]
      have hstart : At 0 out ⟨0, 0, 0, 0, out⟩ := ⟨rfl, rfl, rfl, rfl, rfl⟩
      have hloop := groupLoop_eq input k (k + 1) hstart (Nat.zero_le _) (by omega) (Nat.zero_le _) (Nat.zero_le _)
      split_ifs at hloop with hfits
      · obtain ⟨s, hs, hat⟩ := hloop
        rw [hs, Option.bind_eq_bind, Option.bind_some, hat.inBuffer, hat.decodedBytes, hat.inputBytesDecoded, written]
        by_cases hfull : k % 4 = 0
        · rw [if_neg (by omega), if_pos hfull, Option.bind_some, terminate_ne_none, hat.length]
          omega
        · rw [if_pos (by omega), if_neg hfull, List.getElem?_eq_getElem (by omega), Option.map_some, Option.bind_some, terminate_ne_none, hat.length]
          split_ifs <;> omega
      · rw [hloop]
        refine iff_of_false (by simp) fun h => hfits ⟨h.2.1, ?_⟩
        have := h.2.2
        unfold written at this
        split_ifs at this <;> omega
    · rw [if_neg hk]
      exact iff_of_false (by simp) fun h => hk h.1

example : decode [81, 85, 73, 61] [0, 0, 0] = some ⟨true, [65, 66, 0], some 2⟩ := by decide

/-- four characters that are all data: the scan goes beyond them -/
theorem scan_beyond : decode [81, 85, 74, 68] [0, 0, 0] = none := by decide

end TrafficServer.Base64
