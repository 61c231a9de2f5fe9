/-
`MIOBuffer::remove_append` (`iocore/eventsystem/IOBuffer.cc`): the blocks of a reader become those of another buffer.

The loop folds the reader's offset into the start of its first block, and appends every block with bytes. Two things go wrong:

  - where the offset leaves nothing of the first block, its negative goes into the next one, whose start moves back over bytes that are not
    the reader's;
  - a block is appended with the blocks that it is linked to, and `append_block_internal` moves the write block to the last of those with
    bytes. When the next of them is appended in its turn the link goes back, and the loop over the blocks with bytes does not end.

`_start` is a number here, as it can be moved out of the data. Whether a failed `ink_assert` aborts (`none`) is a parameter, for the two kinds of builds;
a loop that does not end is `none` for any fuel. `Separate` says of the blocks that no two with bytes are linked. The result is `removes_iff`.
-/
import Mathlib
import TrafficServer.EventSystem.IOBuffer

namespace TrafficServer.IOBuffer.RemoveAppend

open TrafficServer.LinkSeg

/-! ## Blocks -/

structure Block where
  /-- the bytes of `data` -/
  mem : Bytes
  start : ℤ
  endAt : ℕ
  bufEnd : ℕ
  next : Option ℕ

abbrev Mem := ℕ → Block

namespace Mem

variable (m : Mem)

def next (i : ℕ) : Option ℕ := (m i).next

def readAvail (i : ℕ) : ℤ := (m i).endAt - (m i).start

def writeAvail (i : ℕ) : ℕ := (m i).bufEnd - (m i).endAt

/-- from `_start` to `_end` -/
def bytes (i : ℕ) : Bytes := ((m i).mem.drop (m i).start.toNat).take (m.readAvail i).toNat

def setNext (i n : ℕ) : Mem := Function.update m i { m i with next := some n }

/-- `_start += n` -/
def advance (i : ℕ) (n : ℤ) : Mem := Function.update m i { m i with start := (m i).start + n }

end Mem

/-! ## The functions -/

/-- `while (b->read_avail())`; the write block that is left -/
def writerLoop (m : Mem) : ℕ → ℕ → ℕ → Option ℕ
  | 0, _, _ => none
  | fuel + 1, w, b =>
    if m.readAvail b ≠ 0 then
      match m.next b with
      | none => some b
      | some n => writerLoop m fuel b n
    else some w

/-- the write block moves on while it is full and the next one has bytes -/
def advanceLoop (m : Mem) : ℕ → ℕ → Option ℕ
  | 0, _ => none
  | fuel + 1, w =>
    match m.next w with
    | none => some w
    | some n => if m.writeAvail w = 0 ∧ m.readAvail n ≠ 0 then advanceLoop m fuel n else some w

def appendBlockInternal (asserts : Bool) (fuel : ℕ) (m : Mem) (b : MIOBuffer) (i : ℕ) : Option (Mem × MIOBuffer) :=
  match b.writer with
  | none => do
    let b := { b with writer := some i }.initReaders
    let w ← advanceLoop m fuel i
    some (m, { b with writer := some w })
  | some w =>
    if asserts ∧ ∃ n ∈ m.next w, m.readAvail n ≠ 0 then none
    else do
      let m := m.setNext w i
      let w ← writerLoop m fuel w i
      let w ← advanceLoop m fuel w
      some (m, { b with writer := some w })

def appendBlock (asserts : Bool) (fuel : ℕ) (m : Mem) (b : MIOBuffer) (i : ℕ) : Option (Mem × MIOBuffer) :=
  if asserts ∧ m.readAvail i = 0 then none else appendBlockInternal asserts fuel m b i

/-- what `remove_append` leaves: the reader's block is null, and so is the write block of its buffer -/
structure Removed where
  mem : Mem
  buffer : MIOBuffer
  startOffset : ℤ
  length : ℤ

/-- the loop, with the reader's block and offset and the length so far; the loops in `append_block` have their own fuel -/
def removeAppendLoop (asserts : Bool) (n : ℕ) : ℕ → Mem → MIOBuffer → Option ℕ → ℤ → ℤ → Option Removed
  | 0, _, _, _, _, _ => none
  | fuel + 1, m, b, block, startOffset, l =>
    match block with
    | none => some ⟨m, b, startOffset, l⟩
    | some i =>
      let block := m.next i
      let m := m.advance i startOffset
      if (m i).start ≥ (m i).endAt then removeAppendLoop asserts n fuel m b block (-startOffset) l
      else do
        let l := l + m.readAvail i
        let (m, b) ← appendBlock asserts n m b i
        removeAppendLoop asserts n fuel m b block 0 l

def removeAppend (asserts : Bool) (n fuel : ℕ) (m : Mem) (b : MIOBuffer) (r : IOBufferReader) : Option Removed :=
  removeAppendLoop asserts n fuel m b r.block r.startOffset 0

/-! ## What it is for -/

/-- the bytes from a pointer on -/
def Content (m : Mem) (o : Option ℕ) (s : Bytes) : Prop := ∃ l, LSeg m.next o l none ∧ s = l.flatMap m.bytes

/-- what a reader over the blocks `l` has not consumed -/
def unread (m : Mem) (l : List ℕ) (r : IOBufferReader) : Bytes := (l.flatMap m.bytes).drop r.startOffset

/-- The reader's blocks are `l`. They are not blocks of the buffer, whose blocks behind the write block have no bytes. -/
structure Apart (m : Mem) (b : MIOBuffer) (r : IOBufferReader) (l : List ℕ) : Prop where
  chain : LSeg m.next r.block l none
  inside : ∀ i ∈ l, 0 ≤ (m i).start ∧ (m i).start ≤ (m i).endAt ∧ (m i).endAt ≤ (m i).mem.length
  unused : b.writer = none → ∀ s rd, b.readers s = some rd → rd.block = none
  behind : ∀ w, b.writer = some w → ∃ post, LSeg m.next (some w) (w :: post) none ∧ ∀ i ∈ post, m.readAvail i = 0 ∧ i ∉ l
  before : ∀ w, b.writer = some w → w ∉ l ∧ ∀ s rd, b.readers s = some rd → ∃ pre, LSeg m.next rd.block pre (some w) ∧ ∀ i ∈ pre, i ≠ w ∧ i ∉ l

/-- It ends, with the number of the unread bytes, and every reader of the buffer sees them behind what it has seen before. -/
def MovesUnread (asserts : Bool) (m : Mem) (b : MIOBuffer) (r : IOBufferReader) (l : List ℕ) : Prop :=
  ∃ n fuel res, removeAppend asserts n fuel m b r = some res ∧ res.length = (unread m l r).length ∧
    ∀ s rd, b.readers s = some rd → ∃ rd', res.buffer.readers s = some rd' ∧ rd'.startOffset = rd.startOffset ∧
      ∀ t, Content m rd.block t → Content res.mem rd'.block (t ++ unread m l r)

/-- No two blocks with bytes are linked. Without assertions the first block with bytes may be, if the buffer has no write block yet and the
block has room. -/
def Separate (asserts : Bool) (m : Mem) : Bool → List ℕ → Prop
  | _, [] => True
  | fresh, i :: l =>
    if m.readAvail i = 0 then Separate asserts m fresh l
    else ((∃ n ∈ l.head?, m.readAvail n ≠ 0) → fresh ∧ asserts = false ∧ m.writeAvail i ≠ 0) ∧ Separate asserts m false l

/-- the offset is zero or in the first block, or there is no other block -/
def OffsetIn (m : Mem) (r : IOBufferReader) : List ℕ → Prop
  | [] => True
  | i :: l => r.startOffset = 0 ∨ r.startOffset < m.readAvail i ∨ l = []

/-- the blocks with the offset in the start of the first one -/
def folded (m : Mem) (r : IOBufferReader) : Mem :=
  match r.block with
  | none => m
  | some i => m.advance i r.startOffset

section

variable {asserts : Bool} {m m' : Mem} {b b' : MIOBuffer} {i j w n fuel : ℕ} {l rest : List ℕ} {o o' : Option ℕ} {t : Bytes}

/-! ## Blocks that change -/

@[simp] theorem next_advance (m : Mem) (i : ℕ) (k : ℤ) : (m.advance i k).next = m.next := by
  funext j
  unfold Mem.next Mem.advance
  by_cases hj : j = i
  · rw [hj, Function.update_self]
  · rw [Function.update_of_ne hj]

theorem advance_of_ne (hj : j ≠ i) (k : ℤ) : m.advance i k j = m j := Function.update_of_ne hj ..

theorem readAvail_advance (m : Mem) (i : ℕ) (k : ℤ) : (m.advance i k).readAvail i = m.readAvail i - k := by
  unfold Mem.readAvail Mem.advance
  rw [Function.update_self]
  dsimp only
  omega

theorem advance_zero (m : Mem) (i : ℕ) : m.advance i 0 = m := by
  unfold Mem.advance
  rw [add_zero]
  exact Function.update_eq_self i m

theorem next_setNext_self (m : Mem) (w i : ℕ) : (m.setNext w i).next w = some i := by
  unfold Mem.next Mem.setNext
  rw [Function.update_self]

theorem next_setNext_of_ne (hj : j ≠ w) : (m.setNext w i).next j = m.next j := by
  unfold Mem.next Mem.setNext
  rw [Function.update_of_ne hj]

@[simp] theorem readAvail_setNext (m : Mem) (w i : ℕ) : (m.setNext w i).readAvail = m.readAvail := by
  funext j
  unfold Mem.readAvail Mem.setNext
  by_cases hj : j = w
  · rw [hj, Function.update_self]
  · rw [Function.update_of_ne hj]

@[simp] theorem writeAvail_setNext (m : Mem) (w i : ℕ) : (m.setNext w i).writeAvail = m.writeAvail := by
  funext j
  unfold Mem.writeAvail Mem.setNext
  by_cases hj : j = w
  · rw [hj, Function.update_self]
  · rw [Function.update_of_ne hj]

@[simp] theorem bytes_setNext (m : Mem) (w i : ℕ) : (m.setNext w i).bytes = m.bytes := by
  funext j
  unfold Mem.bytes
  rw [readAvail_setNext]
  unfold Mem.setNext
  by_cases hj : j = w
  · rw [hj, Function.update_self]
  · rw [Function.update_of_ne hj]

theorem bytes_empty (h : m.readAvail i = 0) : m.bytes i = [] := by
  unfold Mem.bytes
  rw [h]
  exact List.take_zero

theorem flatMap_empty (h : ∀ i ∈ l, m.readAvail i = 0) : l.flatMap m.bytes = [] :=
  List.flatMap_eq_nil_iff.mpr fun i hi => bytes_empty (h i hi)

/-- whether a block is left out -/
theorem start_ge_iff (m : Mem) (i : ℕ) : (m i).start ≥ (m i).endAt ↔ m.readAvail i ≤ 0 := by
  unfold Mem.readAvail
  omega

/-! ## A cycle -/

/-- along links to blocks with bytes -/
def Follows (m : Mem) : ℕ → ℕ → Prop := Relation.ReflTransGen fun i j => m.next i = some j ∧ m.readAvail j ≠ 0

theorem follows_of_writerLoop (hi : m.readAvail i ≠ 0) (h : writerLoop m fuel w i = some j) : Follows m i j := by
  induction fuel generalizing w i with
  | zero => cases h
  | succ fuel ih =>
    rw [writerLoop, if_pos hi] at h
    cases hn : m.next i with
    | none =>
      rw [hn] at h
      cases h
      exact .refl
    | some k =>
      rw [hn] at h
      by_cases hk : m.readAvail k = 0
      · cases fuel with
        | zero => cases h
        | succ fuel =>
          dsimp only at h
          rw [writerLoop, if_neg (not_not.mpr hk)] at h
          cases h
          exact .refl
      · exact .head ⟨hn, hk⟩ (ih hk h)

theorem follows_of_advanceLoop (h : advanceLoop m fuel i = some j) : Follows m i j := by
  induction fuel generalizing i with
  | zero => cases h
  | succ fuel ih =>
    rw [advanceLoop] at h
    cases hn : m.next i with
    | none =>
      rw [hn] at h
      cases h
      exact .refl
    | some k =>
      rw [hn] at h
      dsimp only at h
      split_ifs at h with hk
      · exact .head ⟨hn, hk.2⟩ (ih h)
      · cases h
        exact .refl

/-- a loop over blocks with bytes whose links do not lead out of them does not end -/
theorem writerLoop_none {C : ℕ → Prop} (hC : ∀ i, C i → m.readAvail i ≠ 0 ∧ ∃ j, m.next i = some j ∧ C j) (hi : C i) : writerLoop m fuel w i = none := by
  induction fuel generalizing w i with
  | zero => rfl
  | succ fuel ih =>
    obtain ⟨hne, j, hj, hCj⟩ := hC i hi
    rw [writerLoop, if_pos hne, hj]
    exact ih hCj

/-- to a buffer without a write block -/
theorem appendBlock_first (hi : m.readAvail i ≠ 0) (hw : b.writer = none) (n : ℕ) : appendBlock asserts n m b i =
    (advanceLoop m n i).bind fun w => some (m, { ({ b with writer := some i } : MIOBuffer).initReaders with writer := some w }) := by
  unfold appendBlock appendBlockInternal
  rw [if_neg fun hc => hi hc.2, hw]
  rfl

theorem appendBlock_behind (hi : m.readAvail i ≠ 0) (hw : b.writer = some w) (n : ℕ) : appendBlock asserts n m b i =
    if asserts ∧ ∃ n ∈ m.next w, m.readAvail n ≠ 0 then none
    else (writerLoop (m.setNext w i) n w i).bind fun w' => (advanceLoop (m.setNext w i) n w').bind fun w' =>
      some (m.setNext w i, { b with writer := some w' }) := by
  unfold appendBlock appendBlockInternal
  rw [if_neg fun hc => hi hc.2, hw]
  rfl

/-- A block that the write block is reached from cannot be appended. -/
theorem appendBlock_none (hi : m.readAvail i ≠ 0) (hw : Follows m i w) (hb : b.writer = some w) : appendBlock asserts n m b i = none := by
  rw [appendBlock_behind hi hb]
  split_ifs with hassert
  · rfl
  · have hcycle : writerLoop (m.setNext w i) n w i = none := by
      refine writerLoop_none (C := fun x => m.readAvail x ≠ 0 ∧ Follows m x w) (fun x hx => ?_) ⟨hi, hw⟩
      obtain ⟨hne, hxw⟩ := hx
      rw [readAvail_setNext]
      refine ⟨hne, ?_⟩
      by_cases hxw' : x = w
      · exact ⟨i, by rw [hxw', next_setNext_self], hi, hw⟩
      · rcases Relation.ReflTransGen.cases_head hxw with heq | ⟨y, ⟨hy, hyne⟩, hyw⟩
        · exact absurd heq hxw'
        · exact ⟨y, by rw [next_setNext_of_ne hxw', hy], hyne, hyw⟩
    rw [hcycle]
    rfl

/-! ## A block is appended -/

/-- The state of the loop in front of the blocks `rest`. Behind the write block there are blocks without bytes, or such and then `rest`. -/
structure Going (asserts : Bool) (m : Mem) (b : MIOBuffer) (o : Option ℕ) (rest : List ℕ) : Prop where
  chain : LSeg m.next o rest none
  nonneg : ∀ i ∈ rest, 0 ≤ m.readAvail i
  unused : b.writer = none → ∀ s rd, b.readers s = some rd → rd.block = none
  behind : ∀ w, b.writer = some w → w ∉ rest ∧ ∃ tail, LSeg m.next (m.next w) tail none ∧
    ((∀ i ∈ tail, m.readAvail i = 0) ∨ ∃ l, tail = l ++ rest ∧ ∀ i ∈ l, m.readAvail i = 0)
  empty : asserts = true → ∀ w, b.writer = some w → ∀ n ∈ m.next w, m.readAvail n = 0

/-- the bytes from a pointer up to the end of the write block -/
def Upto (m : Mem) (writer : Option ℕ) (rest : List ℕ) (o : Option ℕ) (t : Bytes) : Prop :=
  match writer with
  | none => o = none ∧ t = []
  | some w => ∃ pre, LSeg m.next o pre (some w) ∧ (∀ i ∈ pre, i ≠ w ∧ i ∉ rest) ∧ t = (pre ++ [w]).flatMap m.bytes

/-- the readers see more bytes -/
def Adds (m : Mem) (b : MIOBuffer) (rest : List ℕ) (m' : Mem) (b' : MIOBuffer) (rest' : List ℕ) (x : Bytes) : Prop :=
  ∀ s rd, b.readers s = some rd → ∃ rd', b'.readers s = some rd' ∧ rd'.startOffset = rd.startOffset ∧
    ∀ t, Upto m b.writer rest rd.block t → Upto m' b'.writer rest' rd'.block (t ++ x)

theorem Adds.trans {m'' : Mem} {b'' : MIOBuffer} {rest' rest'' : List ℕ} {x y : Bytes} (h : Adds m b rest m' b' rest' x)
    (h' : Adds m' b' rest' m'' b'' rest'' y) : Adds m b rest m'' b'' rest'' (x ++ y) := by
  intro s rd hrd
  obtain ⟨rd', hrd', hoff', hup⟩ := h s rd hrd
  obtain ⟨rd'', hrd'', hoff'', hup'⟩ := h' s rd' hrd'
  refine ⟨rd'', hrd'', hoff''.trans hoff', fun t ht => ?_⟩
  rw [← List.append_assoc]
  exact hup' _ (hup t ht)

/-- a block without bytes is left out -/
theorem Going.skip (h : Going asserts m b o (i :: rest)) (hi : m.readAvail i = 0) :
    Going asserts m b (m.next i) rest ∧ Adds m b (i :: rest) m b rest [] := by
  refine ⟨⟨h.chain.2, fun j hj => h.nonneg j (List.mem_cons_of_mem i hj), h.unused, fun w hw => ?_, h.empty⟩, fun s rd hrd => ⟨rd, hrd, rfl, fun t ht => ?_⟩⟩
  · obtain ⟨hnot, tail, hlink, htail⟩ := h.behind w hw
    refine ⟨fun hc => hnot (List.mem_cons_of_mem i hc), tail, hlink, htail.imp_right ?_⟩
    rintro ⟨l, rfl, hl⟩
    refine ⟨l ++ [i], by rw [List.append_assoc]; rfl, fun j hj => ?_⟩
    rcases List.mem_append.mp hj with hj | hj
    · exact hl j hj
    · rwa [List.mem_singleton.mp hj]
  · rw [List.append_nil]
    unfold Upto at ht ⊢
    cases hw : b.writer with
    | none => rwa [hw] at ht
    | some w =>
      rw [hw] at ht
      obtain ⟨pre, hlink, hpre, ht⟩ := ht
      exact ⟨pre, hlink, fun j hj => ⟨(hpre j hj).1, fun hc => (hpre j hj).2 (List.mem_cons_of_mem i hc)⟩, ht⟩

/-- what `Separate` asks of the block behind one with bytes -/
def NextOk (asserts : Bool) (m : Mem) (b : MIOBuffer) (i : ℕ) (rest : List ℕ) : Prop :=
  (∃ n ∈ rest.head?, m.readAvail n ≠ 0) → b.writer.isNone ∧ asserts = false ∧ m.writeAvail i ≠ 0

/-- the one result, from some fuel on -/
def Gives {α : Type} (k : ℕ) (f : ℕ → Option α) (x : α) : Prop := ∀ n, f n = some x ∨ f n = none ∧ n < k

theorem Gives.bind {α β : Type} {k : ℕ} {f : ℕ → Option α} {g : ℕ → α → Option β} {x : α} {y : β} (h : Gives k f x) (h' : Gives k (fun n => g n x) y) :
    Gives k (fun n => (f n).bind (g n)) y := by
  intro n
  rcases h n with hx | ⟨hnone, hlt⟩
  · dsimp only
    rw [hx]
    exact h' n
  · dsimp only
    rw [hnone]
    exact Or.inr ⟨rfl, hlt⟩

/-- the write block stays at the new block -/
theorem advanceLoop_stop (h : ∀ n ∈ m.next i, m.writeAvail i = 0 → m.readAvail n = 0) : Gives 2 (fun n => advanceLoop m n i) i := by
  intro fuel
  cases fuel with
  | zero => exact Or.inr ⟨rfl, Nat.two_pos⟩
  | succ fuel =>
    left
    dsimp only
    rw [advanceLoop]
    cases hn : m.next i with
    | none => rfl
    | some n => exact if_neg fun hc => hc.2 (h n hn hc.1)

theorem writerLoop_stop (hi : m.readAvail i ≠ 0) (h : ∀ n ∈ m.next i, m.readAvail n = 0) : Gives 2 (fun n => writerLoop m n w i) i := by
  intro fuel
  cases fuel with
  | zero => exact Or.inr ⟨rfl, Nat.two_pos⟩
  | succ fuel =>
    dsimp only
    rw [writerLoop, if_pos hi]
    cases hn : m.next i with
    | none => exact Or.inl rfl
    | some n =>
      dsimp only
      cases fuel with
      | zero => exact Or.inr ⟨rfl, Nat.one_lt_two⟩
      | succ fuel =>
        rw [writerLoop, if_neg (not_not.mpr (h n hn))]
        exact Or.inl rfl

/-- a block with bytes is appended, and is the new write block -/
theorem Going.append (h : Going asserts m b o (i :: rest)) (hi : m.readAvail i ≠ 0) (hok : NextOk asserts m b i rest) :
    ∃ m' b', Gives 2 (fun n => appendBlock asserts n m b i) (m', b') ∧ Going asserts m' b' (m.next i) rest ∧ b'.writer = some i ∧
      m'.readAvail = m.readAvail ∧ m'.writeAvail = m.writeAvail ∧ m'.bytes = m.bytes ∧ Adds m b (i :: rest) m' b' rest (m.bytes i) := by
  have hnodup := List.nodup_cons.mp h.chain.nodup
  have hhead : m.next i = rest.head? := h.chain.2.head
  cases hw : b.writer with
  | none =>
    refine ⟨m, { ({ b with writer := some i } : MIOBuffer).initReaders with writer := some i }, ?_, ?_, rfl, rfl, rfl, rfl, fun s rd hrd => ?_⟩
    · rw [show (fun n => appendBlock asserts n m b i) = _ from funext fun n => appendBlock_first hi hw n]
      refine (advanceLoop_stop fun n hn hroom => ?_).bind fun n => Or.inl rfl
      by_contra hne
      rw [hhead] at hn
      exact (hok ⟨n, hn, hne⟩).2.2 hroom
    · refine ⟨h.chain.2, fun j hj => h.nonneg j (List.mem_cons_of_mem i hj), fun hn => absurd hn (Option.some_ne_none i), fun w hw' => ?_, fun hassert w hw' n hn => ?_⟩
      · obtain rfl : i = w := Option.some.inj hw'
        exact ⟨hnodup.1, rest, h.chain.2, Or.inr ⟨[], rfl, fun j hj => absurd hj List.not_mem_nil⟩⟩
      · obtain rfl : i = w := Option.some.inj hw'
        by_contra hne
        rw [hhead] at hn
        rw [(hok ⟨n, hn, hne⟩).2.1] at hassert
        cases hassert
    · have hblock := h.unused hw s rd hrd
      refine ⟨{ rd with block := some i }, ?_, rfl, fun t ht => ?_⟩
      · simp [MIOBuffer.initReaders, hrd, hblock]
      · rw [hw] at ht
        obtain ⟨-, rfl⟩ := ht
        exact ⟨[], rfl, fun j hj => absurd hj List.not_mem_nil, by simp⟩
  | some w =>
    have hnext : ∀ n ∈ m.next i, m.readAvail n = 0 := by
      intro n hn
      by_contra hne
      rw [hhead] at hn
      have hnone := (hok ⟨n, hn, hne⟩).1
      rw [hw] at hnone
      exact Bool.false_ne_true hnone
    obtain ⟨hnot, -⟩ := h.behind w hw
    have hiw : i ≠ w := fun hc => hnot (hc ▸ List.mem_cons_self)
    have hwrest : ∀ j ∈ rest, j ≠ w := fun j hj hc => hnot (hc ▸ List.mem_cons_of_mem i hj)
    have hchain : LSeg (m.setNext w i).next (m.next i) rest none := h.chain.2.congr fun j hj => next_setNext_of_ne (hwrest j hj)
    have hnexti : (m.setNext w i).next i = m.next i := next_setNext_of_ne hiw
    refine ⟨m.setNext w i, { b with writer := some i }, ?_, ?_, rfl, readAvail_setNext .., writeAvail_setNext .., bytes_setNext ..,
      fun s rd hrd => ⟨rd, hrd, rfl, fun t ht => ?_⟩⟩
    · have hno : ¬ (asserts = true ∧ ∃ n ∈ m.next w, m.readAvail n ≠ 0) := by
        rintro ⟨hassert, k, hk, hne⟩
        exact hne (h.empty hassert w hw k hk)
      have hempty : ∀ k ∈ (m.setNext w i).next i, (m.setNext w i).readAvail k = 0 := by
        rw [hnexti, readAvail_setNext]
        exact hnext
      rw [show (fun n => appendBlock asserts n m b i) = _ from funext fun n => (appendBlock_behind hi hw n).trans (if_neg hno)]
      exact (writerLoop_stop (by rwa [readAvail_setNext]) hempty).bind ((advanceLoop_stop fun k hk _ => hempty k hk).bind fun n => Or.inl rfl)
    · refine ⟨hchain, fun j hj => ?_, fun hn => absurd hn (Option.some_ne_none i), fun w' hw' => ?_, fun _ w' hw' k hk => ?_⟩
      · rw [readAvail_setNext]
        exact h.nonneg j (List.mem_cons_of_mem i hj)
      · obtain rfl : i = w' := Option.some.inj hw'
        exact ⟨hnodup.1, rest, hnexti.symm ▸ hchain, Or.inr ⟨[], rfl, fun j hj => absurd hj List.not_mem_nil⟩⟩
      · obtain rfl : i = w' := Option.some.inj hw'
        rw [hnexti] at hk
        rw [readAvail_setNext]
        exact hnext k hk
    · rw [hw] at ht
      obtain ⟨pre, hlink, hpre, rfl⟩ := ht
      refine ⟨pre ++ [w], ?_, fun j hj => ?_, ?_⟩
      · have hwhole : LSeg m.next rd.block (pre ++ [w]) (m.next w) := lseg_append.mpr ⟨some w, hlink, rfl, rfl⟩
        exact hwhole.redirect (fun j hj => next_setNext_of_ne (hpre j hj).1) (next_setNext_self m w i)
      · rcases List.mem_append.mp hj with hj | hj
        · exact ⟨fun hc => (hpre j hj).2 (hc ▸ List.mem_cons_self), fun hc => (hpre j hj).2 (List.mem_cons_of_mem i hc)⟩
        · rw [List.mem_singleton.mp hj]
          exact ⟨Ne.symm hiw, fun hc => hwrest w hc rfl⟩
      · rw [bytes_setNext]
        simp

/-! ## The loop -/

/-- the bytes of a reader, when all blocks have been taken -/
theorem Going.content (h : Going asserts m b o []) (ht : Upto m b.writer [] o' t) : Content m o' t := by
  unfold Upto at ht
  cases hw : b.writer with
  | none =>
    rw [hw] at ht
    obtain ⟨rfl, rfl⟩ := ht
    exact ⟨[], rfl, rfl⟩
  | some w =>
    rw [hw] at ht
    obtain ⟨pre, hlink, -, rfl⟩ := ht
    obtain ⟨-, tail, htail, hempty⟩ := h.behind w hw
    have hnil : tail.flatMap m.bytes = [] := by
      refine flatMap_empty ?_
      rcases hempty with hempty | ⟨l, rfl, hl⟩
      · exact hempty
      · rwa [List.append_nil]
    refine ⟨pre ++ w :: tail, lseg_append.mpr ⟨some w, hlink, rfl, htail⟩, ?_⟩
    rw [List.flatMap_append, List.flatMap_append, List.flatMap_cons, List.flatMap_cons, hnil, List.flatMap_nil]

/-- a turn of the loop at a block without bytes -/
theorem loop_skip (hi : m.readAvail i = 0) (k : ℤ) :
    removeAppendLoop asserts n (fuel + 1) m b (some i) 0 k = removeAppendLoop asserts n fuel m b (m.next i) 0 k := by
  rw [removeAppendLoop]
  dsimp only
  rw [advance_zero, if_pos ((start_ge_iff m i).mpr hi.le), neg_zero]

/-- a turn at a block with bytes -/
theorem loop_append (hi : 0 < m.readAvail i) (k : ℤ) : removeAppendLoop asserts n (fuel + 1) m b (some i) 0 k =
    (appendBlock asserts n m b i).bind fun x => removeAppendLoop asserts n fuel x.1 x.2 (m.next i) 0 (k + m.readAvail i) := by
  rw [removeAppendLoop]
  dsimp only
  rw [advance_zero, if_neg fun hc => absurd ((start_ge_iff m i).mp hc) (not_le.mpr hi)]
  rfl

/-- Two linked blocks with bytes: the first may be appended, but not the other behind it. -/
theorem Going.stuck (h : Going asserts m b o (i :: j :: rest)) (hi : m.readAvail i ≠ 0) (hj : m.readAvail j ≠ 0)
    (hnot : ¬ (b.writer.isNone ∧ asserts = false ∧ m.writeAvail i ≠ 0)) (k : ℤ) :
    removeAppendLoop asserts n fuel m b (some i) 0 k = none := by
  obtain ⟨-, hij, -⟩ := h.chain
  cases fuel with
  | zero => rfl
  | succ fuel =>
    rw [loop_append (lt_of_le_of_ne (h.nonneg i List.mem_cons_self) (Ne.symm hi)), hij]
    -- behind the first block the write block is one that the second leads to, or the assertion fails
    have hsecond : ∀ (x : Mem × MIOBuffer), appendBlock asserts n m b i = some x → x.1.readAvail = m.readAvail ∧
        ∀ n', appendBlock asserts n' x.1 x.2 j = none := by
      intro x hx
      cases hw : b.writer with
      | none =>
        rw [appendBlock_first hi hw] at hx
        obtain ⟨w', hadvance, hx⟩ := Option.bind_eq_some_iff.mp hx
        obtain rfl := Option.some.inj hx
        refine ⟨rfl, fun n' => ?_⟩
        cases n with
        | zero => cases hadvance
        | succ n =>
          rw [advanceLoop, hij] at hadvance
          dsimp only at hadvance
          split_ifs at hadvance with hfull
          · exact appendBlock_none hj (follows_of_advanceLoop hadvance) rfl
          · obtain rfl := Option.some.inj hadvance
            have hassert : asserts = true := by
              rw [hw] at hnot
              by_contra hc
              exact hnot ⟨rfl, Bool.eq_false_iff.mpr hc, fun hroom => hfull ⟨hroom, hj⟩⟩
            rw [appendBlock_behind hj rfl]
            exact if_pos ⟨hassert, j, hij, hj⟩
      | some w =>
        rw [appendBlock_behind hi hw] at hx
        split_ifs at hx
        obtain ⟨w', hwriter, hx⟩ := Option.bind_eq_some_iff.mp hx
        obtain ⟨w'', hadvance, hx⟩ := Option.bind_eq_some_iff.mp hx
        obtain rfl := Option.some.inj hx
        refine ⟨readAvail_setNext .., fun n' => ?_⟩
        obtain ⟨hnotw, -⟩ := h.behind w hw
        have hiw : i ≠ w := fun hc => hnotw (hc ▸ List.mem_cons_self)
        have hj' : (m.setNext w i).readAvail j ≠ 0 := by rwa [readAvail_setNext]
        refine appendBlock_none hj' ?_ rfl
        cases n with
        | zero => cases hwriter
        | succ n =>
          rw [writerLoop, if_pos (by rwa [readAvail_setNext]), next_setNext_of_ne hiw, hij] at hwriter
          exact (follows_of_writerLoop hj' hwriter).trans (follows_of_advanceLoop hadvance)
    cases hx : appendBlock asserts n m b i with
    | none => rfl
    | some x =>
      obtain ⟨hsame, hnone⟩ := hsecond x hx
      rw [Option.bind_some]
      cases fuel with
      | zero => rfl
      | succ fuel =>
        have hpos : 0 < x.1.readAvail j := by
          rw [hsame]
          exact lt_of_le_of_ne (h.nonneg j (List.mem_cons_of_mem i List.mem_cons_self)) (Ne.symm hj)
        rw [loop_append hpos, hnone]
        rfl

/-- what the blocks `rest` give -/
def total (m : Mem) (rest : List ℕ) : ℤ := (rest.map m.readAvail).sum

theorem separate_congr (hr : m'.readAvail = m.readAvail) (hw : m'.writeAvail = m.writeAvail) (fresh : Bool) (l : List ℕ) :
    Separate asserts m' fresh l ↔ Separate asserts m fresh l := by
  induction l generalizing fresh with
  | nil => exact Iff.rfl
  | cons i l ih =>
    rw [Separate, Separate, hr, hw]
    split_ifs
    · exact ih fresh
    · exact and_congr_right fun _ => ih false

/-- The loop at offset zero. It appends every block if they are separate, and else it does not end. -/
theorem Going.spec (h : Going asserts m b o rest) (k : ℤ) :
    (Separate asserts m b.writer.isNone rest → ∃ m' b', removeAppendLoop asserts 2 (rest.length + 1) m b o 0 k = some ⟨m', b', 0, k + total m rest⟩ ∧
      Going asserts m' b' none [] ∧ Adds m b rest m' b' [] (rest.flatMap m.bytes)) ∧
    (∀ n fuel res, removeAppendLoop asserts n fuel m b o 0 k = some res → Separate asserts m b.writer.isNone rest ∧ res.length = k + total m rest) := by
  induction rest generalizing m b o k with
  | nil =>
    obtain rfl : o = none := h.chain
    refine ⟨fun _ => ⟨m, b, ?_, h, fun s rd hrd => ⟨rd, hrd, rfl, fun t ht => ?_⟩⟩, fun n fuel res hres => ⟨trivial, ?_⟩⟩
    · rw [total, List.map_nil, List.sum_nil, add_zero]
      rfl
    · rwa [List.flatMap_nil, List.append_nil]
    · cases fuel with
      | zero => cases hres
      | succ fuel =>
        obtain rfl := Option.some.inj hres
        rw [total, List.map_nil, List.sum_nil, add_zero]
  | cons i rest ih =>
    obtain rfl := h.chain.1
    have htotal : total m (i :: rest) = m.readAvail i + total m rest := by rw [total, List.map_cons, List.sum_cons]; rfl
    by_cases hi : m.readAvail i = 0
    · obtain ⟨hgoing, hadds⟩ := h.skip hi
      obtain ⟨hpos, hneg⟩ := ih hgoing k
      rw [htotal, hi, zero_add, Separate, if_pos hi]
      refine ⟨fun hs => ?_, fun n fuel res hres => ?_⟩
      · obtain ⟨m', b', hloop, hg, ha⟩ := hpos hs
        refine ⟨m', b', ?_, hg, ?_⟩
        · rw [List.length_cons, loop_skip hi]
          exact hloop
        · rw [List.flatMap_cons, bytes_empty hi]
          exact hadds.trans ha
      · cases fuel with
        | zero => cases hres
        | succ fuel =>
          rw [loop_skip hi] at hres
          exact hneg n fuel res hres
    · have hpos : 0 < m.readAvail i := lt_of_le_of_ne (h.nonneg i List.mem_cons_self) (Ne.symm hi)
      rw [Separate, if_neg hi]
      by_cases hok : NextOk asserts m b i rest
      · obtain ⟨m', b', hgives, hgoing, hwriter, hr, hw, hbytes, hadds⟩ := h.append hi hok
        obtain ⟨hend, hneg⟩ := ih hgoing (k + m.readAvail i)
        have hfresh : b'.writer.isNone = false := by rw [hwriter]; rfl
        have htotal' : total m' rest = total m rest := by rw [total, total, hr]
        rw [hfresh, separate_congr hr hw, htotal'] at hend hneg
        rw [htotal, ← add_assoc]
        refine ⟨fun hs => ?_, fun n fuel res hres => ?_⟩
        · obtain ⟨m'', b'', hloop, hg, ha⟩ := hend hs.2
          refine ⟨m'', b'', ?_, hg, ?_⟩
          · have htwo : appendBlock asserts 2 m b i = some (m', b') := (hgives 2).resolve_right fun hc => absurd hc.2 (lt_irrefl 2)
            rw [List.length_cons, loop_append hpos, htwo]
            exact hloop
          · rw [hbytes] at ha
            rw [List.flatMap_cons]
            exact hadds.trans ha
        · cases fuel with
          | zero => cases hres
          | succ fuel =>
            rw [loop_append hpos] at hres
            rcases hgives n with hx | ⟨hnone, -⟩
            · dsimp only at hx
              rw [hx] at hres
              obtain ⟨hs, hlen⟩ := hneg n fuel res hres
              exact ⟨⟨hok, hs⟩, hlen⟩
            · dsimp only at hnone
              rw [hnone] at hres
              cases hres
      · -- the next block has bytes
        obtain ⟨⟨j, hj, hne⟩, hnot⟩ := Classical.not_imp.mp hok
        obtain ⟨rest', rfl⟩ : ∃ l, rest = j :: l := by
          cases rest with
          | nil => cases hj
          | cons c l =>
            obtain rfl := Option.some.inj hj
            exact ⟨l, rfl⟩
        refine ⟨fun hs => absurd hs.1 hok, fun n fuel res hres => ?_⟩
        rw [h.stuck hi hne hnot] at hres
        cases hres

/-! ## The whole function -/

/-- the offset in the start of the first block -/
theorem loop_fold {k : ℤ} (hk : k = 0 ∨ 0 < (m.advance i k).readAvail i) (c : ℤ) :
    removeAppendLoop asserts n fuel m b (some i) k c = removeAppendLoop asserts n fuel (m.advance i k) b (some i) 0 c := by
  rcases hk with rfl | hk
  · rw [advance_zero]
  · cases fuel with
    | zero => rfl
    | succ fuel =>
      rw [loop_append hk, removeAppendLoop]
      dsimp only
      rw [if_neg fun hc => absurd ((start_ge_iff _ i).mp hc) (not_le.mpr hk), next_advance]
      rfl

variable {r : IOBufferReader}

theorem Apart.lengths (h : Apart m b r l) (hi : i ∈ l) : 0 ≤ m.readAvail i ∧ ((m.bytes i).length : ℤ) = m.readAvail i := by
  obtain ⟨h1, h2, h3⟩ := h.inside i hi
  have hr : m.readAvail i = (m i).endAt - (m i).start := rfl
  refine ⟨by omega, ?_⟩
  unfold Mem.bytes
  rw [List.length_take, List.length_drop, hr]
  omega

theorem Apart.total_eq (h : Apart m b r l) (l' : List ℕ) (hl : ∀ i ∈ l', i ∈ l) : total m l' = (l'.flatMap m.bytes).length := by
  induction l' with
  | nil => rfl
  | cons i l' ih =>
    have hi := (h.lengths (hl i List.mem_cons_self)).2
    have htail := ih fun j hj => hl j (List.mem_cons_of_mem i hj)
    rw [total, List.map_cons, List.sum_cons, List.flatMap_cons, List.length_append]
    rw [total] at htail
    push_cast
    omega

/-- The loop may start in front of any of the reader's blocks, whatever their starts are then. -/
theorem Apart.start {m₁ : Mem} (asserts : Bool) (l₁ rest : List ℕ) (h : Apart m b r (l₁ ++ rest)) (hnext : m₁.next = m.next) (hsame : ∀ j, j ∉ l₁ ++ rest → m₁ j = m j)
    (hnonneg : ∀ i ∈ rest, 0 ≤ m₁.readAvail i) : Going asserts m₁ b rest.head? rest ∧
      ∀ s rd t, b.readers s = some rd → Content m rd.block t → Upto m₁ b.writer rest rd.block t := by
  have hread : ∀ j, j ∉ l₁ ++ rest → m₁.readAvail j = m.readAvail j := fun j hj => by
    unfold Mem.readAvail
    rw [hsame j hj]
  have hbytes : ∀ j, j ∉ l₁ ++ rest → m₁.bytes j = m.bytes j := fun j hj => by
    unfold Mem.bytes
    rw [hread j hj, hsame j hj]
  obtain ⟨k, -, hchain⟩ := lseg_append.mp h.chain
  rw [hchain.head] at hchain
  refine ⟨⟨by rw [hnext]; exact hchain, hnonneg, h.unused, fun w hw => ?_, fun _ w hw n hn => ?_⟩, fun s rd t hrd ht => ?_⟩
  · obtain ⟨post, hlink, hpost⟩ := h.behind w hw
    refine ⟨fun hc => (h.before w hw).1 (List.mem_append_right _ hc), post, by rw [hnext]; exact hlink.2, Or.inl fun j hj => ?_⟩
    rw [hread j (hpost j hj).2]
    exact (hpost j hj).1
  · obtain ⟨post, hlink, hpost⟩ := h.behind w hw
    rw [hnext, hlink.2.head] at hn
    have hin : n ∈ post := List.mem_of_head? hn
    rw [hread n (hpost n hin).2]
    exact (hpost n hin).1
  · unfold Upto
    cases hw : b.writer with
    | none =>
      have hnone := h.unused hw s rd hrd
      obtain ⟨l', hlink, rfl⟩ := ht
      rw [hnone] at hlink
      have hnil : l' = [] := hlink.unique (show LSeg m.next none [] none from rfl)
      exact ⟨hnone, by rw [hnil]; rfl⟩
    | some w =>
      obtain ⟨hwl, hreaders⟩ := h.before w hw
      obtain ⟨pre, hpre, hne⟩ := hreaders s rd hrd
      obtain ⟨post, hlink, hpost⟩ := h.behind w hw
      obtain ⟨l', hl', rfl⟩ := ht
      have hall : l' = pre ++ w :: post := hl'.unique (lseg_append.mpr ⟨some w, hpre, hlink⟩)
      refine ⟨pre, by rw [hnext]; exact hpre, fun j hj => ⟨(hne j hj).1, fun hc => (hne j hj).2 (List.mem_append_right _ hc)⟩, ?_⟩
      have hempty : post.flatMap m.bytes = [] := flatMap_empty fun j hj => (hpost j hj).1
      have hsame' : pre.flatMap m₁.bytes = pre.flatMap m.bytes := List.flatMap_congr fun j hj => hbytes j (hne j hj).2
      rw [hall, List.flatMap_append, List.flatMap_append, List.flatMap_cons, List.flatMap_cons, hempty, hsame', hbytes w hwl, List.flatMap_nil]

/-- what is left of the first block -/
theorem Apart.bytes_advance (h : Apart m b r (i :: l)) (hle : (r.startOffset : ℤ) ≤ m.readAvail i) :
    ((m.advance i r.startOffset).bytes i = (m.bytes i).drop r.startOffset) ∧
      unread m (i :: l) r = (i :: l).flatMap (m.advance i r.startOffset).bytes := by
  obtain ⟨h1, h2, h3⟩ := h.inside i List.mem_cons_self
  have hnodup := List.nodup_cons.mp h.chain.nodup
  have hfirst : (m.advance i r.startOffset).bytes i = (m.bytes i).drop r.startOffset := by
    have hstart : (m.advance i r.startOffset i).start = (m i).start + r.startOffset := by
      unfold Mem.advance
      rw [Function.update_self]
    have hmem : (m.advance i r.startOffset i).mem = (m i).mem := by
      unfold Mem.advance
      rw [Function.update_self]
    have hnat : ((m i).start + r.startOffset).toNat = (m i).start.toNat + r.startOffset := by omega
    have hlen : (m.readAvail i - r.startOffset).toNat = (m.readAvail i).toNat - r.startOffset := by omega
    unfold Mem.bytes
    rw [readAvail_advance, hstart, hmem, List.drop_take, List.drop_drop, hnat, hlen]
  refine ⟨hfirst, ?_⟩
  have hrest : l.flatMap (m.advance i r.startOffset).bytes = l.flatMap m.bytes := List.flatMap_congr fun j hj => by
    have hji : j ≠ i := fun hc => hnodup.1 (hc ▸ hj)
    unfold Mem.bytes Mem.readAvail
    rw [advance_of_ne hji]
  have hlength := (h.lengths List.mem_cons_self).2
  rw [unread, List.flatMap_cons, List.flatMap_cons, hrest, hfirst, List.drop_append_of_le_length (by omega)]

/-- The offset is zero or in the first block. -/
theorem Apart.inBlock (h : Apart m b r (i :: l)) (hin : r.startOffset = 0 ∨ r.startOffset < m.readAvail i) :
    MovesUnread asserts m b r (i :: l) ↔ Separate asserts (m.advance i r.startOffset) b.writer.isNone (i :: l) := by
  have hblock : r.block = some i := h.chain.1
  have hi := h.lengths List.mem_cons_self
  have hnodup := List.nodup_cons.mp h.chain.nodup
  have hle : (r.startOffset : ℤ) ≤ m.readAvail i := by omega
  obtain ⟨hfirst, hunread⟩ := h.bytes_advance hle
  have hother : ∀ j ∈ l, (m.advance i r.startOffset).readAvail j = m.readAvail j := fun j hj => by
    have hji : j ≠ i := fun hc => hnodup.1 (hc ▸ hj)
    unfold Mem.readAvail
    rw [advance_of_ne hji]
  have hnonneg : ∀ j ∈ i :: l, 0 ≤ (m.advance i r.startOffset).readAvail j := by
    intro j hj
    rcases List.mem_cons.mp hj with rfl | hj'
    · rw [readAvail_advance]
      omega
    · rw [hother j hj']
      exact (h.lengths hj).1
  obtain ⟨hgoing, hupto⟩ := Apart.start asserts [] (i :: l) h (next_advance m i r.startOffset)
    (fun j hj => advance_of_ne (fun hc : j = i => hj (by rw [hc]; exact List.mem_cons_self)) _) hnonneg
  have hfold : ∀ n fuel, removeAppend asserts n fuel m b r = removeAppendLoop asserts n fuel (m.advance i r.startOffset) b (some i) 0 0 := by
    intro n fuel
    rw [removeAppend, hblock]
    refine loop_fold ?_ 0
    rw [readAvail_advance]
    omega
  -- the number of the bytes
  have hcount : total (m.advance i r.startOffset) (i :: l) = (unread m (i :: l) r).length := by
    have hl := h.total_eq l fun j hj => List.mem_cons_of_mem i hj
    have hsame : total (m.advance i r.startOffset) l = total m l := congrArg List.sum (List.map_congr_left hother)
    have hcons : total (m.advance i r.startOffset) (i :: l) = (m.advance i r.startOffset).readAvail i + total (m.advance i r.startOffset) l := by
      rw [total, List.map_cons, List.sum_cons]
      rfl
    rw [hcons, hsame, readAvail_advance, hl, unread, List.length_drop, List.flatMap_cons, List.length_append]
    omega
  obtain ⟨hend, hneg⟩ := hgoing.spec 0
  constructor
  · rintro ⟨n, fuel, res, hres, -⟩
    rw [hfold] at hres
    exact (hneg n fuel res hres).1
  · intro hs
    obtain ⟨m', b', hloop, hg, ha⟩ := hend hs
    refine ⟨2, _, _, (hfold 2 _).trans hloop, ?_, fun s rd hrd => ?_⟩
    · show 0 + total (m.advance i r.startOffset) (i :: l) = _
      rw [zero_add, hcount]
    · obtain ⟨rd', hrd', hoff, hmore⟩ := ha s rd hrd
      refine ⟨rd', hrd', hoff, fun t ht => ?_⟩
      rw [hunread]
      exact hg.content (hmore t (hupto s rd t hrd ht))

/-- The offset leaves nothing of the first block. -/
theorem Apart.beyond (h : Apart m b r (i :: l)) (hpos : r.startOffset ≠ 0) (hge : m.readAvail i ≤ r.startOffset) :
    MovesUnread asserts m b r (i :: l) ↔ l = [] := by
  have hblock : r.block = some i := h.chain.1
  have hi := h.lengths List.mem_cons_self
  have hnodup := List.nodup_cons.mp h.chain.nodup
  have hadvance : ∀ j, j ∉ [i] ++ l → m.advance i r.startOffset j = m j := fun j hj =>
    advance_of_ne (fun hc : j = i => hj (by rw [hc]; exact List.mem_cons_self)) _
  have hskip : ∀ n fuel, removeAppend asserts n (fuel + 1) m b r =
      removeAppendLoop asserts n fuel (m.advance i r.startOffset) b (m.next i) (-r.startOffset) 0 := by
    intro n fuel
    rw [removeAppend, hblock, removeAppendLoop]
    dsimp only
    refine if_pos ((start_ge_iff _ i).mpr ?_)
    rw [readAvail_advance]
    omega
  constructor
  · rintro ⟨n, fuel, res, hres, hlength, -⟩
    cases l with
    | nil => rfl
    | cons j l =>
      exfalso
      have hj := h.lengths (List.mem_cons_of_mem i List.mem_cons_self)
      have hji : j ≠ i := fun hc => hnodup.1 (hc ▸ List.mem_cons_self)
      have hjl := (List.nodup_cons.mp hnodup.2).1
      have hil : ∀ k ∈ l, k ≠ i ∧ k ≠ j := fun k hk =>
        ⟨fun hc => hnodup.1 (hc ▸ List.mem_cons_of_mem j hk), fun hc => hjl (hc ▸ hk)⟩
      cases fuel with
      | zero => cases hres
      | succ fuel =>
        -- the start of the second block moves back
        obtain ⟨m₁, hm₁⟩ : ∃ m₁, m₁ = m.advance i r.startOffset := ⟨_, rfl⟩
        have hreadj : (m₁.advance j (-r.startOffset)).readAvail j = m.readAvail j + r.startOffset := by
          have hsame : m₁.readAvail j = m.readAvail j := by
            unfold Mem.readAvail
            rw [hm₁, advance_of_ne hji]
          rw [readAvail_advance, hsame]
          omega
        have hother : ∀ k ∈ l, (m₁.advance j (-r.startOffset)).readAvail k = m.readAvail k := fun k hk => by
          unfold Mem.readAvail
          rw [advance_of_ne (hil k hk).2, hm₁, advance_of_ne (hil k hk).1]
        rw [hskip, h.chain.2.1, ← hm₁, loop_fold (Or.inr (by rw [hreadj]; omega))] at hres
        have hnext : (m₁.advance j (-r.startOffset)).next = m.next := by rw [next_advance, hm₁, next_advance]
        have hgoing := (Apart.start asserts [i] (j :: l) h hnext (fun k hk => ?_) fun k hk => ?_).1
        · have hlen := ((hgoing.spec 0).2 n fuel res hres).2
          have htotal : total (m₁.advance j (-r.startOffset)) (j :: l) = m.readAvail j + r.startOffset + total m l := by
            have hl : total (m₁.advance j (-r.startOffset)) l = total m l := congrArg List.sum (List.map_congr_left hother)
            rw [← hl, ← hreadj, total, List.map_cons, List.sum_cons]
            rfl
          have hl := h.total_eq l fun k hk => List.mem_cons_of_mem i (List.mem_cons_of_mem j hk)
          rw [hlength, htotal, hl, unread, List.length_drop, List.flatMap_cons, List.flatMap_cons, List.length_append, List.length_append] at hlen
          omega
        · have hki : k ≠ i := fun hc => hk (by rw [hc]; exact List.mem_cons_self)
          have hkj : k ≠ j := fun hc => hk (by rw [hc]; exact List.mem_cons_of_mem i List.mem_cons_self)
          rw [advance_of_ne hkj, hm₁, advance_of_ne hki]
        · rcases List.mem_cons.mp hk with rfl | hk'
          · rw [hreadj]
            omega
          · rw [hother k hk']
            exact (h.lengths (List.mem_cons_of_mem i hk)).1
  · rintro rfl
    have hnone : m.next i = none := h.chain.2
    have hunread : unread m [i] r = [] := by
      rw [unread, List.flatMap_cons, List.flatMap_nil, List.append_nil]
      exact List.drop_eq_nil_of_le (by omega)
    obtain ⟨hgoing, hupto⟩ := Apart.start asserts [i] [] h (next_advance m i r.startOffset) hadvance
      fun j hj => absurd hj List.not_mem_nil
    refine ⟨0, 2, ⟨m.advance i r.startOffset, b, -r.startOffset, 0⟩, ?_, ?_, fun s rd hrd => ⟨rd, hrd, rfl, fun t ht => ?_⟩⟩
    · rw [hskip, hnone]
      rfl
    · rw [hunread]
      rfl
    · rw [hunread, List.append_nil]
      exact hgoing.content (hupto s rd t hrd ht)

/-- `remove_append` moves exactly the unread bytes if and only if the offset does not go beyond the first block while there are others, and no two blocks
with bytes are linked (but for the one pair that a build without assertions allows). -/
theorem removes_iff (h : Apart m b r l) (asserts : Bool) :
    MovesUnread asserts m b r l ↔ OffsetIn m r l ∧ Separate asserts (folded m r) b.writer.isNone l := by
  cases l with
  | nil =>
    have hblock : r.block = none := h.chain
    refine iff_of_true ⟨0, 1, ⟨m, b, r.startOffset, 0⟩, ?_, ?_, fun s rd hrd => ⟨rd, hrd, rfl, fun t ht => ?_⟩⟩ ⟨trivial, trivial⟩
    · rw [removeAppend, hblock]
      rfl
    · rw [unread, List.flatMap_nil, List.drop_nil]
      rfl
    · rwa [unread, List.flatMap_nil, List.drop_nil, List.append_nil]
  | cons i l =>
    have hfolded : folded m r = m.advance i r.startOffset := by rw [folded, h.chain.1]
    rw [hfolded]
    by_cases hin : r.startOffset = 0 ∨ r.startOffset < m.readAvail i
    · rw [h.inBlock hin]
      exact (and_iff_right (hin.imp_right Or.inl)).symm
    · obtain ⟨hpos, hge⟩ := not_or.mp hin
      rw [h.beyond hpos (not_lt.mp hge)]
      constructor
      · rintro rfl
        refine ⟨Or.inr (Or.inr rfl), ?_⟩
        rw [Separate]
        split_ifs
        · exact trivial
        · exact ⟨fun hc => absurd hc (by simp), trivial⟩
      · rintro ⟨hoffset, -⟩
        exact (hoffset.resolve_left hpos).resolve_left hge

end

/-- a buffer with the block 0; the blocks 1 to 3 are linked, and block 2 has no bytes, or two -/
def blocks (second : ℕ) : Mem
  | 0 => ⟨[1, 2, 0, 0], 0, 2, 4, none⟩
  | 1 => ⟨[3, 4, 5, 6], 0, 4, 4, some 2⟩
  | 2 => ⟨[7, 8, 0, 0], 0, second, 4, some 3⟩
  | 3 => ⟨[9, 0, 0, 0], 0, 1, 4, none⟩
  | _ => ⟨[], 0, 0, 0, none⟩

def destination : MIOBuffer := ⟨0, some 0, fun s => if s.val = 0 then some ⟨some 0, 0⟩ else none⟩

theorem blocks_apart {second : ℕ} (h : second ≤ 4) (offset : ℕ) : Apart (blocks second) destination ⟨some 1, offset⟩ [1, 2, 3] where
  chain := ⟨rfl, rfl, rfl, rfl⟩
  inside := by simpa [blocks] using h
  unused := fun hw => by cases hw
  behind := by
    intro w hw
    obtain rfl := Option.some.inj hw
    exact ⟨[], ⟨rfl, rfl⟩, by simp⟩
  before := by
    intro w hw
    obtain rfl := Option.some.inj hw
    refine ⟨by decide, fun s rd hrd => ⟨[], ?_, by simp⟩⟩
    simp only [destination] at hrd
    split_ifs at hrd
    rw [← Option.some.inj hrd]
    rfl

/-- one byte of the first block has been consumed -/
theorem removes_blocks : MovesUnread true (blocks 0) destination ⟨some 1, 1⟩ [1, 2, 3] :=
  (removes_iff (blocks_apart (by decide) 1) true).mpr ⟨Or.inr (Or.inl (by decide)), by simp [Separate, folded, blocks, Mem.readAvail, Mem.advance]⟩

/-- All of the first block has been consumed; or nothing, and the next block has bytes. -/
theorem removes_wrong : ¬ MovesUnread false (blocks 0) destination ⟨some 1, 4⟩ [1, 2, 3] ∧
    ¬ MovesUnread false (blocks 2) destination ⟨some 1, 0⟩ [1, 2, 3] := by
  constructor
  · rw [(blocks_apart (by decide) 4).beyond (by decide) (by decide)]
    exact List.cons_ne_nil _ _
  · rw [(blocks_apart (by decide) 0).inBlock (Or.inl rfl)]
    simp [Separate, blocks, Mem.readAvail, Mem.advance, destination]

end TrafficServer.IOBuffer.RemoveAppend
