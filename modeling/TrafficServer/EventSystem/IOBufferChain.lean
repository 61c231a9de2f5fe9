/-
The chain of blocks of a buffer, and what a reader sees of it.

`Holds` says that the blocks of a buffer are the filled blocks `L`, the last of which is the write block, and then the blocks `post` that
have room but no bytes; of the filled blocks only the first may be empty. `ReaderAt` is the place of a reader in the bytes of the buffer.
Every accessor has a lemma over an arbitrary list of blocks; `sees` puts them together.
-/
import Mathlib
import TrafficServer.EventSystem.IOBuffer

namespace TrafficServer.IOBuffer

open TrafficServer.LinkSeg

/-! ## The bytes of a list of blocks -/

/-- the bytes of the blocks `L` -/
def content (h : Heap) (L : List ℕ) : Bytes := L.flatMap fun i => (h.block i).data

@[simp] theorem content_nil (h : Heap) : content h [] = [] := rfl

@[simp] theorem content_cons (h : Heap) (i : ℕ) (L : List ℕ) : content h (i :: L) = (h.block i).data ++ content h L := by
  simp [content]

@[simp] theorem content_append (h : Heap) (L M : List ℕ) : content h (L ++ M) = content h L ++ content h M := by
  simp [content]

theorem content_congr {h h' : Heap} {L : List ℕ} (hs : ∀ i ∈ L, (h'.block i).data = (h.block i).data) : content h' L = content h L := by
  induction L with
  | nil => rfl
  | cons i L ih =>
    rw [content_cons, content_cons, hs i List.mem_cons_self, ih fun j hj => hs j (List.mem_cons_of_mem i hj)]

theorem content_empty {h : Heap} {L : List ℕ} (hs : ∀ i ∈ L, (h.block i).data = []) : content h L = [] := by
  induction L with
  | nil => rfl
  | cons i L ih => rw [content_cons, hs i List.mem_cons_self, ih fun j hj => hs j (List.mem_cons_of_mem i hj), List.nil_append]

/-! ## The loops over the blocks -/

def bytesIn (bs : List IOBufferBlock) : Bytes := bs.flatMap IOBufferBlock.data

@[simp] theorem bytesIn_nil : bytesIn [] = [] := rfl

@[simp] theorem bytesIn_cons (b : IOBufferBlock) (bs : List IOBufferBlock) : bytesIn (b :: bs) = b.data ++ bytesIn bs := by
  simp [bytesIn]

theorem bytesIn_map (h : Heap) (L : List ℕ) : bytesIn (L.map h.block) = content h L := by
  simp [bytesIn, content, List.flatMap_map]

namespace IOBufferReader

theorem sum_readAvail (bs : List IOBufferBlock) : (bs.map fun b => (b.readAvail : ℤ)).sum = (bytesIn bs).length := by
  induction bs with
  | nil => rfl
  | cons b bs ih =>
    rw [List.map_cons, List.sum_cons, ih, bytesIn_cons, List.length_append, IOBufferBlock.readAvail]
    push_cast
    rfl

theorem moreLoop_eq (size : ℤ) (bs : List IOBufferBlock) (t : ℤ) :
    moreLoop size bs t = true ↔ bs ≠ [] ∧ size < t + (bytesIn bs).length := by
  induction bs generalizing t with
  | nil => simp [moreLoop]
  | cons b bs ih =>
    rw [moreLoop, bytesIn_cons, List.length_append]
    have hb : b.readAvail = b.data.length := rfl
    split_ifs with ht
    · refine ⟨fun _ => ⟨List.cons_ne_nil b bs, ?_⟩, fun _ => rfl⟩
      push_cast
      omega
    · rw [ih]
      constructor
      · rintro ⟨-, hlt⟩
        refine ⟨List.cons_ne_nil b bs, ?_⟩
        push_cast
        omega
      · rintro ⟨-, hlt⟩
        push_cast at hlt
        refine ⟨?_, by omega⟩
        rintro rfl
        simp only [bytesIn_nil, List.length_nil, Nat.cast_zero, add_zero] at hlt
        omega

theorem indexLoop_eq (bs : List IOBufferBlock) (i : ℕ) : indexLoop bs i = (bytesIn bs)[i]? := by
  induction bs generalizing i with
  | nil => rfl
  | cons b bs ih =>
    rw [indexLoop, bytesIn_cons, IOBufferBlock.readAvail]
    split_ifs with hi
    · rw [List.getElem?_append_left hi]
    · rw [ih, List.getElem?_append_right (Nat.le_of_not_lt hi)]

/-- the first `len` bytes, or all of them if `len` is negative -/
def takeLen (len : ℤ) (s : Bytes) : Bytes := if len < 0 then s else s.take len.toNat

theorem takeLen_zero (s : Bytes) : takeLen 0 s = [] := by simp [takeLen]

theorem takeLen_nil (len : ℤ) : takeLen len [] = [] := by simp [takeLen]

/-- the bytes of one block, and the rest of the length for the others -/
theorem takeLen_append (len : ℤ) (s t : Bytes) :
    takeLen len (s ++ t) = s.take (bytesOf len s.length) ++ takeLen (len - bytesOf len s.length) t := by
  unfold takeLen bytesOf
  by_cases hneg : len < 0
  · rw [if_pos hneg, if_pos (Or.inl hneg), if_pos (by omega), List.take_length]
  · rw [if_neg hneg]
    by_cases hle : len ≥ s.length
    · have htake : s.take len.toNat = s := List.take_of_length_le (by omega)
      rw [if_pos (Or.inr hle), if_neg (by omega), List.take_length, List.take_append, htake]
      congr 2
      omega
    · rw [if_neg (by omega), if_neg (by omega), List.take_append_of_le_length (by omega)]
      have hz : (len - (len.toNat : ℤ)).toNat = 0 := by omega
      rw [hz, List.take_zero, List.append_nil]

theorem drop_block {b : IOBufferBlock} {offset : ℕ} (h : b.readAvail ≤ offset) (t : Bytes) :
    (b.data ++ t).drop offset = t.drop (offset - b.readAvail) := by
  rw [IOBufferBlock.readAvail] at h ⊢
  rw [List.drop_append, List.drop_eq_nil_of_le h, List.nil_append]

theorem memcpyLoop_eq (bs : List IOBufferBlock) (len : ℤ) (offset : ℕ) :
    memcpyLoop bs len offset = takeLen len ((bytesIn bs).drop offset) := by
  induction bs generalizing len offset with
  | nil => rw [memcpyLoop, bytesIn_nil, List.drop_nil, takeLen_nil]
  | cons b bs ih =>
    rw [memcpyLoop, bytesIn_cons]
    split_ifs with h0 hoff
    · rw [h0, takeLen_zero]
    · rw [ih, drop_block hoff]
    · have hlt : offset ≤ b.data.length := (Nat.lt_of_not_le hoff).le
      have hlen : (b.data.drop offset).length = b.readAvail - offset := List.length_drop
      dsimp only
      rw [List.drop_append_of_le_length hlt, takeLen_append, hlen, ih, List.drop_zero]

theorem idxOf?_append (c : UInt8) (s t : Bytes) : (s ++ t).idxOf? c = (s.idxOf? c).or ((t.idxOf? c).map (· + s.length)) :=
  List.findIdx?_append

theorem memchrLoop_eq (c : UInt8) (start : ℕ) (bs : List IOBufferBlock) (len : ℤ) (offset o : ℕ) :
    memchrLoop c start bs len offset o =
      match (takeLen len ((bytesIn bs).drop offset)).idxOf? c with
      | some p => (o : ℤ) - start + p
      | none => -1 := by
  induction bs generalizing len offset o with
  | nil => rw [memchrLoop, bytesIn_nil, List.drop_nil, takeLen_nil]; rfl
  | cons b bs ih =>
    rw [memchrLoop, bytesIn_cons]
    split_ifs with h0 hoff
    · rw [h0, takeLen_zero]
      rfl
    · rw [ih, drop_block hoff]
    · have hlt : offset ≤ b.data.length := (Nat.lt_of_not_le hoff).le
      have hlen : (b.data.drop offset).length = b.readAvail - offset := List.length_drop
      rw [List.drop_append_of_le_length hlt, takeLen_append, hlen]
      have hb : ((b.data.drop offset).take (bytesOf len (b.readAvail - offset))).length = bytesOf len (b.readAvail - offset) := by
        rw [List.length_take, hlen]
        unfold bytesOf
        split_ifs <;> omega
      dsimp only
      rw [idxOf?_append]
      cases hp : ((b.data.drop offset).take (bytesOf len (b.readAvail - offset))).idxOf? c with
      | some p => rfl
      | none =>
        rw [ih, List.drop_zero, hb]
        cases (takeLen (len - bytesOf len (b.readAvail - offset)) (bytesIn bs)).idxOf? c with
        | none => rfl
        | some p =>
          simp only [Option.none_or, Option.map_some]
          push_cast
          ring

end IOBufferReader

/-! ## The chain of a buffer -/

namespace Heap

theorem follow_eq {h : Heap} {o : Option ℕ} {L : List ℕ} (hl : LSeg h.next o L none) {k : ℕ} (hk : L.length ≤ k) : h.follow k o = L := by
  induction L generalizing o k with
  | nil =>
    obtain rfl : o = none := hl
    cases k <;> rfl
  | cons i L ih =>
    obtain ⟨rfl, hl⟩ := hl
    cases k with
    | zero => exact absurd hk (by simp)
    | succ k => rw [follow, ih hl (Nat.le_of_succ_le_succ hk)]

/-- a list of blocks is no longer than the heap -/
theorem length_le_fresh {h : Heap} {o : Option ℕ} {L : List ℕ} (hl : LSeg h.next o L none) (hlt : ∀ i ∈ L, i < h.fresh) :
    L.length ≤ h.fresh := by
  have hsub : L.toFinset ⊆ Finset.range h.fresh := fun i hi => Finset.mem_range.mpr (hlt i (List.mem_toFinset.mp hi))
  calc L.length = L.toFinset.card := (List.toFinset_card_of_nodup hl.nodup).symm
    _ ≤ (Finset.range h.fresh).card := Finset.card_le_card hsub
    _ = h.fresh := Finset.card_range h.fresh

theorem chain_eq {h : Heap} {o : Option ℕ} {L : List ℕ} (hl : LSeg h.next o L none) (hlt : ∀ i ∈ L, i < h.fresh) : h.chain o = L :=
  follow_eq hl (length_le_fresh hl hlt)

end Heap

/-- the filled blocks `L` up to the write block, and the blocks `post` behind it that have room only -/
structure Holds (h : Heap) (b : MIOBuffer) (L post : List ℕ) : Prop where
  link : LSeg h.next (L ++ post).head? (L ++ post) none
  lt : ∀ i ∈ L ++ post, i < h.fresh
  writer : b.writer = L.getLast?
  filled : ∀ i ∈ L.tail, (h.block i).data ≠ []
  room : ∀ i ∈ post, (h.block i).data = [] ∧ 0 < (h.block i).space
  start : L = [] → post = []
  size : bufferSizeAllocated b.sizeIndex = true

/-- the place `pos` of a reader in the bytes of the buffer -/
def ReaderAt (h : Heap) (L : List ℕ) (r : IOBufferReader) (pos : ℕ) : Prop :=
  ∃ l₁ l₂, L = l₁ ++ l₂ ∧ r.block = l₂.head? ∧ (l₂ = [] → L = []) ∧ pos = (content h l₁).length + r.startOffset ∧
    pos ≤ (content h L).length

section

variable {h : Heap} {b : MIOBuffer} {L post : List ℕ} {r : IOBufferReader} {pos : ℕ}

/-- the blocks from a block of the buffer on -/
theorem Holds.chain_suffix (hh : Holds h b L post) {l₁ l₂ : List ℕ} (hl : L = l₁ ++ l₂) (hne : l₂ = [] → L = []) :
    h.chain l₂.head? = l₂ ++ post := by
  have hlink := hh.link
  have hlt := hh.lt
  rw [hl, List.append_assoc] at hlink hlt
  obtain ⟨k, -, h2⟩ := lseg_append.1 hlink
  have hhead := h2.head
  have hpost : l₂ = [] → post = [] := fun he => hh.start (hne he)
  have hk : k = l₂.head? := by
    rw [hhead]
    cases l₂ with
    | nil => rw [hpost rfl]; rfl
    | cons i l => rfl
  rw [hk] at h2
  exact Heap.chain_eq h2 fun i hi => hlt i (List.mem_append_right _ hi)

theorem Holds.content_post (hh : Holds h b L post) : content h post = [] := content_empty fun i hi => (hh.room i hi).1

/-- what a reader sees -/
theorem ReaderAt.bytes (hr : ReaderAt h L r pos) (hh : Holds h b L post) :
    (bytesIn (h.chainBlocks r.block)).drop r.startOffset = (content h L).drop pos ∧
      r.startOffset ≤ (bytesIn (h.chainBlocks r.block)).length := by
  obtain ⟨l₁, l₂, hl, hb, hne, hpos, hle⟩ := hr
  have hbytes : bytesIn (h.chainBlocks r.block) = content h l₂ := by
    rw [hb, Heap.chainBlocks, bytesIn_map, hh.chain_suffix hl hne, content_append, hh.content_post, List.append_nil]
  rw [hl, content_append, List.length_append] at hle
  rw [hbytes, hl, content_append, hpos]
  refine ⟨?_, by omega⟩
  rw [← List.drop_drop, List.drop_left]

/-! ## The reader moves on -/

/-- skipping stops in front of a block without bytes, or where the offset is in the block -/
theorem skipLoop_spec (h : Heap) (i s : ℕ) (l : List ℕ) :
    ∃ l₁ j l₂, i :: l = l₁ ++ j :: l₂ ∧ IOBufferReader.skipLoop h i s l = ⟨some j, s - (content h l₁).length⟩ ∧
      (content h l₁).length ≤ s ∧ (∀ k ∈ (l₁ ++ [j]).tail, (h.block k).data ≠ []) ∧
      ((∃ k ∈ l₂.head?, (h.block k).data ≠ []) → s - (content h l₁).length < (h.block j).data.length) := by
  induction l generalizing i s with
  | nil => exact ⟨[], i, [], rfl, rfl, Nat.zero_le s, by simp, by simp⟩
  | cons c l ih =>
    rw [IOBufferReader.skipLoop]
    by_cases hc : (h.block c).readAvail ≠ 0 ∧ (h.block i).readAvail ≤ s
    · obtain ⟨hne, hle⟩ := hc
      rw [if_pos ⟨hne, hle⟩]
      obtain ⟨l₁, j, l₂, heq, hs, hle', hf, hstop⟩ := ih c (s - (h.block i).readAvail)
      rw [IOBufferBlock.readAvail] at hne hle hs hle' hstop
      have hlen : (content h (i :: l₁)).length = (h.block i).data.length + (content h l₁).length := by
        rw [content_cons, List.length_append]
      refine ⟨i :: l₁, j, l₂, by rw [heq]; rfl, ?_, by omega, ?_, ?_⟩
      · rw [IOBufferBlock.readAvail, hs, hlen, Nat.sub_sub]
      · -- the block behind the first one is `c`, which has bytes
        intro k hk
        simp only [List.cons_append, List.tail_cons] at hk
        cases l₁ with
        | nil =>
          obtain rfl : k = j := by simpa using hk
          obtain ⟨rfl, -⟩ := List.cons.inj heq
          exact fun he => hne (by rw [he]; rfl)
        | cons d l₁ =>
          obtain ⟨rfl, -⟩ := List.cons.inj heq
          rcases List.mem_cons.mp hk with rfl | hk
          · exact fun he => hne (by rw [he]; rfl)
          · exact hf k hk
      · rw [hlen, ← Nat.sub_sub]
        exact hstop
    · rw [if_neg hc]
      refine ⟨[], i, c :: l, rfl, rfl, Nat.zero_le s, by simp, ?_⟩
      rintro ⟨k, hk, hdata⟩
      obtain rfl : c = k := Option.some.inj hk
      rw [IOBufferBlock.readAvail, IOBufferBlock.readAvail] at hc
      have hne : (h.block c).data.length ≠ 0 := fun he => hdata (List.length_eq_zero_iff.mp he)
      have := not_and.mp hc hne
      simpa using this

/-- a block that is reached over blocks with bytes is not behind the write block -/
theorem split_before {l₁ l₂ l post : List ℕ} {j : ℕ} (heq : l ++ post = l₁ ++ j :: l₂) (hne : l ≠ [])
    (hf : ∀ k ∈ (l₁ ++ [j]).tail, (h.block k).data ≠ []) (hp : ∀ k ∈ post, (h.block k).data = []) :
    ∃ l', l = l₁ ++ j :: l' ∧ l₂ = l' ++ post := by
  rcases List.append_eq_append_iff.mp heq with ⟨m, hm, hm'⟩ | ⟨m, hm, hm'⟩
  · -- `l₁ = l ++ m`: then `j` is one of `post`
    have hj : j ∈ post := by rw [hm']; simp
    have hjt : j ∈ (l₁ ++ [j]).tail := by
      rw [hm]
      cases l with
      | nil => exact absurd rfl hne
      | cons d l => simp
    exact absurd (hp j hj) (hf j hjt)
  · cases m with
    | nil =>
      rw [List.append_nil] at hm
      rw [List.nil_append] at hm'
      have hj : j ∈ post := by rw [← hm']; simp
      have hjt : j ∈ (l₁ ++ [j]).tail := by
        rw [← hm]
        cases l with
        | nil => exact absurd rfl hne
        | cons d l => simp
      exact absurd (hp j hj) (hf j hjt)
    | cons d m =>
      obtain ⟨rfl, rfl⟩ := List.cons.inj hm'
      exact ⟨m, hm, rfl⟩

/-- the reader is in a block that holds its next byte, if there is one -/
def AtBlock (h : Heap) (r : IOBufferReader) (rest : Bytes) : Prop :=
  (r.block = none ∧ rest = []) ∨
    ∃ j t, r.block = some j ∧ rest = (h.block j).data.drop r.startOffset ++ t ∧ r.startOffset ≤ (h.block j).data.length ∧
      (rest ≠ [] → r.startOffset < (h.block j).data.length)

/-- skipping leaves the reader where it is -/
theorem ReaderAt.skip (hr : ReaderAt h L r pos) (hh : Holds h b L post) :
    ReaderAt h L (r.skipEmptyBlocks h) pos ∧ AtBlock h (r.skipEmptyBlocks h) ((content h L).drop pos) := by
  obtain ⟨l₁, l₂, hl, hb, hne, hpos, hle⟩ := id hr
  cases l₂ with
  | nil =>
    have hL := hne rfl
    have hskip : r.skipEmptyBlocks h = r := by
      rw [IOBufferReader.skipEmptyBlocks, hb]
      rfl
    rw [hskip]
    refine ⟨hr, Or.inl ⟨hb, ?_⟩⟩
    rw [hL, content_nil, List.drop_nil]
  | cons i l =>
    have hchain : h.chain (h.next i) = l ++ post := by
      have hlink := hh.link
      have hlt := hh.lt
      rw [hl, List.append_assoc, List.cons_append] at hlink hlt
      exact Heap.chain_eq hlink.suffix fun k hk => hlt k (by simp only [List.mem_append, List.mem_cons] at hk ⊢; tauto)
    obtain ⟨m₁, j, m₂, heq, hs, hsle, hf, hstop⟩ := skipLoop_spec h i r.startOffset (l ++ post)
    obtain ⟨m, hm, rfl⟩ := split_before (l := i :: l) heq (List.cons_ne_nil i l) hf fun k hk => (hh.room k hk).1
    have hskip : r.skipEmptyBlocks h = ⟨some j, r.startOffset - (content h m₁).length⟩ := by
      rw [IOBufferReader.skipEmptyBlocks, hb]
      dsimp only [List.head?_cons]
      rw [hchain, hs]
    have hL : L = (l₁ ++ m₁) ++ j :: m := by rw [hl, hm, List.append_assoc]
    have hpos' : pos = (content h (l₁ ++ m₁)).length + (r.startOffset - (content h m₁).length) := by
      rw [content_append, List.length_append]
      omega
    have hrest : (content h L).drop pos = (content h (j :: m)).drop (r.startOffset - (content h m₁).length) := by
      rw [hL, content_append, hpos', ← List.drop_drop, List.drop_left]
    rw [hskip]
    refine ⟨⟨l₁ ++ m₁, j :: m, hL, rfl, fun he => absurd he (List.cons_ne_nil j m), hpos', hle⟩, Or.inr ?_⟩
    -- the offset is in the block, or there is no byte behind it
    by_cases hin : r.startOffset - (content h m₁).length < (h.block j).data.length
    · refine ⟨j, content h m, rfl, ?_, hin.le, fun _ => hin⟩
      rw [hrest, content_cons, List.drop_append_of_le_length hin.le]
    · have hm0 : m = [] := by
        cases m with
        | nil => rfl
        | cons k m =>
          have hk : (h.block k).data ≠ [] := by
            apply hh.filled
            rw [hL]
            cases l₁ ++ m₁ <;> simp
          exact absurd (hstop ⟨k, rfl, hk⟩) hin
      have hend : r.startOffset - (content h m₁).length = (h.block j).data.length := by
        rw [hL, hm0, content_append, List.length_append, content_cons, content_nil, List.append_nil] at hle
        omega
      have hnil : (content h L).drop pos = [] := by
        rw [hrest, hm0, content_cons, content_nil, List.append_nil, hend, List.drop_length]
      refine ⟨j, [], rfl, ?_, hend.le, fun hne' => absurd hnil hne'⟩
      rw [hnil, List.append_nil, hend, List.drop_length]

theorem ReaderAt.consume (hr : ReaderAt h L r pos) (hh : Holds h b L post) {n : ℕ} (hn : pos + n ≤ (content h L).length) :
    ReaderAt h L (r.consume h n) (pos + n) := by
  obtain ⟨l₁, l₂, hl, hb, hne, hpos, hle⟩ := hr
  have hr' : ReaderAt h L { r with startOffset := r.startOffset + n } (pos + n) :=
    ⟨l₁, l₂, hl, hb, hne, by simp only [hpos, Nat.add_assoc], hn⟩
  exact (hr'.skip hh).1

end

end TrafficServer.IOBuffer
