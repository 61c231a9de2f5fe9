/-
What every accessor of a reader says of the bytes that are left for it.
-/
import Mathlib
import TrafficServer.EventSystem.IOBufferChain

namespace TrafficServer.IOBuffer

open IOBufferReader

/-- all accessors agree that `rest` is left -/
structure Sees (h : Heap) (r : IOBufferReader) (rest : Bytes) : Prop where
  readAvail : r.readAvail h = rest.length
  more : ∀ size : ℕ, r.isReadAvailMoreThan h size = decide (size < rest.length)
  index : ∀ i, r.index h i = rest[i]?
  memcpy : ∀ len offset, r.memcpy h len offset = takeLen len (rest.drop offset)
  memchr : ∀ c len offset, r.memchr h c len offset =
    match (takeLen len (rest.drop offset)).idxOf? c with
    | some p => (offset : ℤ) + p
    | none => -1
  read : ∀ len, (r.read h len).1 = rest.take len

section

variable {h : Heap} {b : MIOBuffer} {L post : List ℕ} {r : IOBufferReader} {pos : ℕ}

theorem ReaderAt.le (hr : ReaderAt h L r pos) : pos ≤ (content h L).length := by
  obtain ⟨-, -, -, -, -, -, hle⟩ := hr
  exact hle

/-- a round of `read` takes bytes of one block; the rounds together take what is wanted, or what there is -/
theorem readLoop_spec (hh : Holds h b L post) (fuel : ℕ) (hr : ReaderAt h L r pos) {n : ℕ} (hn : n < fuel) :
    (readLoop h fuel r n).1 = ((content h L).drop pos).take n ∧
      ReaderAt h L (readLoop h fuel r n).2 (pos + min n ((content h L).drop pos).length) := by
  induction fuel generalizing r pos n with
  | zero => exact absurd hn (Nat.not_lt_zero n)
  | succ fuel ih =>
    obtain ⟨hskip, hat⟩ := hr.skip hh
    rw [readLoop]
    dsimp only
    rcases hat with ⟨hb, hnil⟩ | ⟨j, t, hb, hrest, hle, hlt⟩
    · have hl : (r.skipEmptyBlocks h).blockReadAvail h = 0 := by rw [blockReadAvail, hb]
      rw [if_pos (Or.inr hl), hnil, List.take_nil, List.length_nil, Nat.min_zero]
      exact ⟨rfl, hskip⟩
    · have hl : (r.skipEmptyBlocks h).blockReadAvail h = (h.block j).data.length - (r.skipEmptyBlocks h).startOffset := by
        rw [blockReadAvail, hb]
        rfl
      by_cases hstop : n = 0 ∨ (r.skipEmptyBlocks h).blockReadAvail h = 0
      · rw [if_pos hstop]
        have htake : ((content h L).drop pos).take n = [] ∧ min n ((content h L).drop pos).length = 0 := by
          rcases hstop with rfl | h0
          · exact ⟨List.take_zero, Nat.zero_min _⟩
          · have hnil : (content h L).drop pos = [] := by
              by_contra hne
              have := hlt hne
              omega
            rw [hnil]
            exact ⟨List.take_nil, by simp⟩
        rw [htake.1, htake.2]
        exact ⟨rfl, hskip⟩
      · rw [if_neg hstop]
        obtain ⟨hn0, hl0⟩ := not_or.mp hstop
        -- the number of bytes of this round
        obtain ⟨l, hlen, hlpos, hln, hlb⟩ : ∃ l : ℕ,
            (if (n : ℤ) < (r.skipEmptyBlocks h).blockReadAvail h then n else ((r.skipEmptyBlocks h).blockReadAvail h).toNat) = l ∧
              0 < l ∧ l ≤ n ∧ l = min n ((h.block j).data.length - (r.skipEmptyBlocks h).startOffset) := by
          refine ⟨_, rfl, ?_⟩
          rw [hl] at hl0 ⊢
          split_ifs <;> omega
        have hdrop : ((h.block j).data.drop (r.skipEmptyBlocks h).startOffset).length =
            (h.block j).data.length - (r.skipEmptyBlocks h).startOffset := List.length_drop
        have hbytes : ((h.block j).data.drop (r.skipEmptyBlocks h).startOffset).take l = ((content h L).drop pos).take l := by
          rw [hrest, List.take_append_of_le_length (by omega)]
        have hll : l ≤ ((content h L).drop pos).length := by
          rw [hrest, List.length_append]
          omega
        have hlt' : pos + l ≤ (content h L).length := by
          rw [List.length_drop] at hll
          have := hr.le
          omega
        obtain ⟨hrec, hat'⟩ := ih (hskip.consume hh hlt') (n := n - l) (by omega)
        rw [hlen, hb]
        dsimp only [Option.elim_some]
        refine ⟨?_, ?_⟩
        · rw [hbytes, hrec, ← List.drop_drop, ← List.take_add]
          congr 1
          omega
        · have hpos : pos + l + min (n - l) ((content h L).drop (pos + l)).length = pos + min n ((content h L).drop pos).length := by
            rw [List.length_drop] at hll ⊢
            rw [List.length_drop]
            omega
          rw [← hpos]
          exact hat'

theorem ReaderAt.read (hr : ReaderAt h L r pos) (hh : Holds h b L post) (len : ℕ) :
    (r.read h len).1 = ((content h L).drop pos).take len ∧
      ReaderAt h L (r.read h len).2 (pos + min len ((content h L).drop pos).length) :=
  readLoop_spec hh (len + 1) hr (Nat.lt_succ_self len)

theorem ReaderAt.sees (hr : ReaderAt h L r pos) (hh : Holds h b L post) : Sees h r ((content h L).drop pos) := by
  obtain ⟨hbytes, hle⟩ := hr.bytes hh
  have hlen : ((content h L).drop pos).length = (bytesIn (h.chainBlocks r.block)).length - r.startOffset := by
    rw [← hbytes, List.length_drop]
  have hdrop : ∀ offset, (bytesIn (h.chainBlocks r.block)).drop (offset + r.startOffset) = ((content h L).drop pos).drop offset := by
    intro offset
    rw [← hbytes, List.drop_drop, Nat.add_comm]
  refine ⟨?_, ?_, ?_, ?_, ?_, fun len => (hr.read hh len).1⟩
  · rw [IOBufferReader.readAvail, sum_readAvail, hlen]
    omega
  · intro size
    rw [Bool.eq_iff_iff, decide_eq_true_iff, isReadAvailMoreThan, moreLoop_eq, hlen]
    constructor
    · rintro ⟨-, hlt⟩
      omega
    · intro hlt
      refine ⟨?_, by omega⟩
      intro hnil
      rw [hnil, bytesIn_nil, List.length_nil, Nat.zero_sub] at hlt
      exact absurd hlt (Nat.not_lt_zero size)
  · intro i
    rw [IOBufferReader.index, indexLoop_eq, ← hbytes, List.getElem?_drop, Nat.add_comm]
  · intro len offset
    rw [IOBufferReader.memcpy, memcpyLoop_eq, hdrop]
  · intro c len offset
    rw [IOBufferReader.memchr, memchrLoop_eq, hdrop]
    have hoff : ((offset + r.startOffset : ℕ) : ℤ) - r.startOffset = offset := by
      push_cast
      ring
    generalize List.idxOf? c _ = found
    cases found with
    | none => rfl
    | some p => exact congrArg (· + (p : ℤ)) hoff

end

end TrafficServer.IOBuffer
