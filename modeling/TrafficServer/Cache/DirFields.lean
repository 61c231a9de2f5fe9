/-
The fields of a directory entry in its five words.

A field is given by the places of its bits: the offset is in three words, and the back link of an entry on the freelist is the word of the
tag and the flags. What a getter reads and what a setter writes are these places (`testBit_get`, `bitAt_set`), so that two fields that have no
place in common do not touch each other (`get_set`).
-/
import Mathlib
import TrafficServer.Cache.Dir

namespace TrafficServer.Cache

inductive DirField where
  | offset
  | big
  | size
  | tag
  | phase
  | head
  | pinned
  | token
  | next
  | prev
deriving DecidableEq, Repr

/-- the bit `b` of the word `w` -/
def Dir.bitAt (e : Dir) (w b : ℕ) : Bool :=
  match w with
  | 0 => e.w0.getLsbD b
  | 1 => e.w1.getLsbD b
  | 2 => e.w2.getLsbD b
  | 3 => e.w3.getLsbD b
  | 4 => e.w4.getLsbD b
  | _ => false

namespace DirField

/-- the bits of a value -/
def width : DirField → ℕ
  | offset => 40
  | big => 2
  | size => 6
  | tag => DIR_TAG_WIDTH
  | phase | head | pinned | token => 1
  | next | prev => 16

def get : DirField → Dir → ℕ
  | offset, e => e.offset
  | big, e => e.big
  | size, e => e.size
  | tag, e => e.tag
  | phase, e => e.phase.toNat
  | head, e => e.head.toNat
  | pinned, e => e.pinned.toNat
  | token, e => e.token.toNat
  | next, e => e.next
  | prev, e => e.prev

/-- the setter; that of a flag takes every value but 0 as 1 -/
def set : DirField → ℕ → Dir → Dir
  | offset, v, e => e.setOffset v
  | big, v, e => e.setBig v
  | size, v, e => e.setSize v
  | tag, v, e => e.setTag v
  | phase, v, e => e.setPhase (v != 0)
  | head, v, e => e.setHead (v != 0)
  | pinned, v, e => e.setPinned (v != 0)
  | token, v, e => e.setToken (v != 0)
  | next, v, e => e.setNext v
  | prev, v, e => e.setPrev v

/-- The back link is in the word of the tag and the flags. -/
def Aliased (f g : DirField) : Prop :=
  f = g ∨ f = prev ∧ g ∈ [tag, phase, head, pinned, token] ∨ g = prev ∧ f ∈ [tag, phase, head, pinned, token]

instance (f g : DirField) : Decidable (Aliased f g) := inferInstanceAs (Decidable (_ ∨ _))

/-- the word and the place in it of the bit `i` -/
def place : DirField → ℕ → ℕ × ℕ
  | offset, i => if i < 16 then (0, i) else if i < 24 then (1, i - 16) else (4, i - 24)
  | big, i => (1, 8 + i)
  | size, i => (1, 10 + i)
  | tag, i => (2, i)
  | phase, i => (2, 12 + i)
  | head, i => (2, 13 + i)
  | pinned, i => (2, 14 + i)
  | token, i => (2, 15 + i)
  | next, i => (3, i)
  | prev, i => (2, i)

def all : List DirField := [offset, big, size, tag, phase, head, pinned, token, next, prev]

theorem mem_all (f : DirField) : f ∈ all := by
  cases f <;> decide

/-- Two bits of a field are in two places, and fields that are not aliased have no place in common. -/
theorem place_inj (f g : DirField) {i j : ℕ} (hi : i < f.width) (hj : j < g.width) (h : f.place i = g.place j) :
    Aliased f g ∧ (f = g → i = j) := by
  have hall : ∀ f ∈ all, ∀ g ∈ all, ∀ i < f.width, ∀ j < g.width, f.place i = g.place j → Aliased f g ∧ (f = g → i = j) := by
    decide +kernel
  exact hall f (mem_all f) g (mem_all g) i hi j hj h

theorem testBit_toNat (b : Bool) (i : ℕ) : b.toNat.testBit i = (decide (i < 1) && b) := by
  cases i with
  | zero => cases b <;> rfl
  | succ i => cases b <;> simp [Nat.testBit_succ]

theorem testBit_get (f : DirField) (e : Dir) (i : ℕ) :
    (f.get e).testBit i = (decide (i < f.width) && e.bitAt (f.place i).1 (f.place i).2) := by
  cases f with
  | offset =>
    change e.offset.testBit i = (decide (i < 40) && _)
    rw [Dir.offset, Nat.testBit_or, Nat.testBit_or, Nat.testBit_shiftLeft, Nat.testBit_shiftLeft, Nat.testBit_and,
      show 0xFF = 2 ^ 8 - 1 from rfl, Nat.testBit_two_pow_sub_one, BitVec.testBit_toNat, BitVec.testBit_toNat, BitVec.testBit_toNat, place]
    split_ifs with h1 h2
    · have h3 : ¬16 ≤ i := by omega
      have h4 : ¬24 ≤ i := by omega
      have h5 : i < 40 := by omega
      simp [h3, h4, h5, Dir.bitAt]
    · have h3 : 16 ≤ i := by omega
      have h4 : ¬24 ≤ i := by omega
      have h5 : i < 40 := by omega
      have h6 : i - 16 < 8 := by omega
      simp [h3, h4, h5, h6, Dir.bitAt]
    · have h3 : 16 ≤ i := by omega
      have h4 : 24 ≤ i := by omega
      have h6 : ¬i - 16 < 8 := by omega
      by_cases h5 : i < 40
      · simp [h4, h5, h6, Dir.bitAt, BitVec.getLsbD_of_ge _ i h3]
      · have h7 : 16 ≤ i - 24 := by omega
        simp [h5, h6, BitVec.getLsbD_of_ge _ i h3, BitVec.getLsbD_of_ge _ (i - 24) h7]
  | big =>
    change e.big.testBit i = (decide (i < 2) && e.w1.getLsbD (8 + i))
    rw [Dir.big, Nat.testBit_and, Nat.testBit_shiftRight, show 0x3 = 2 ^ 2 - 1 from rfl, Nat.testBit_two_pow_sub_one, BitVec.testBit_toNat,
      Bool.and_comm]
  | size =>
    change e.size.testBit i = (decide (i < 6) && e.w1.getLsbD (10 + i))
    rw [Dir.size, Nat.testBit_shiftRight, BitVec.testBit_toNat]
    by_cases hi : i < 6
    · rw [decide_eq_true hi, Bool.true_and]
    · rw [decide_eq_false hi, Bool.false_and, BitVec.getLsbD_of_ge _ _ (by omega)]
  | tag =>
    change e.tag.testBit i = (decide (i < 12) && e.w2.getLsbD i)
    rw [Dir.tag, Nat.testBit_and, show (1 <<< DIR_TAG_WIDTH) - 1 = 2 ^ 12 - 1 from rfl, Nat.testBit_two_pow_sub_one, BitVec.testBit_toNat,
      Bool.and_comm]
  | phase | head | pinned | token =>
    refine (testBit_toNat _ i).trans ?_
    by_cases hi : i < 1
    · obtain rfl := Nat.lt_one_iff.mp hi
      rfl
    · change (decide (i < 1) && _) = (decide (i < 1) && _)
      rw [decide_eq_false hi, Bool.false_and, Bool.false_and]
  | next =>
    change e.w3.toNat.testBit i = (decide (i < 16) && e.w3.getLsbD i)
    rw [BitVec.testBit_toNat]
    by_cases hi : i < 16
    · rw [decide_eq_true hi, Bool.true_and]
    · rw [decide_eq_false hi, Bool.false_and, BitVec.getLsbD_of_ge _ _ (not_lt.mp hi)]
  | prev =>
    change e.w2.toNat.testBit i = (decide (i < 16) && e.w2.getLsbD i)
    rw [BitVec.testBit_toNat]
    by_cases hi : i < 16
    · rw [decide_eq_true hi, Bool.true_and]
    · rw [decide_eq_false hi, Bool.false_and, BitVec.getLsbD_of_ge _ _ (not_lt.mp hi)]

/-! ## The words behind a setter -/

theorem setOffset_bit (e : Dir) (o : ℕ) {b : ℕ} (hb : b < 16) :
    (e.setOffset o).w1.getLsbD b = if b < 8 then o.testBit (16 + b) else e.w1.getLsbD b := by
  have hmask : ∀ b < 16, Nat.testBit 0xFF00 b = decide (8 ≤ b) := by decide
  change (BitVec.ofNat 16 _).getLsbD b = _
  rw [BitVec.getLsbD_ofNat, decide_eq_true hb, Nat.testBit_or, Nat.testBit_and, Nat.testBit_and, Nat.testBit_shiftRight, hmask b hb,
    show 0xFF = 2 ^ 8 - 1 from rfl, Nat.testBit_two_pow_sub_one, BitVec.testBit_toNat]
  by_cases h : b < 8
  · simp [h]
  · simp [h, not_lt.mp h]

theorem setBig_bit (e : Dir) (v : ℕ) {b : ℕ} (hb : b < 16) :
    (e.setBig v).w1.getLsbD b = if 8 ≤ b ∧ b < 10 then v.testBit (b - 8) else e.w1.getLsbD b := by
  have hmask : ∀ b < 16, Nat.testBit 0xFCFF b = !decide (8 ≤ b ∧ b < 10) := by decide
  change (BitVec.ofNat 16 _).getLsbD b = _
  rw [BitVec.getLsbD_ofNat, decide_eq_true hb, Nat.testBit_or, Nat.testBit_and, Nat.testBit_shiftLeft, Nat.testBit_and, hmask b hb,
    show 0x3 = 2 ^ 2 - 1 from rfl, Nat.testBit_two_pow_sub_one, BitVec.testBit_toNat]
  by_cases h : 8 ≤ b ∧ b < 10
  · have hlt : b - 8 < 2 := by omega
    simp [h, hlt]
  · have hnot : ¬(8 ≤ b ∧ b - 8 < 2) := by omega
    rw [if_neg h, decide_eq_false h]
    by_cases h8 : 8 ≤ b
    · have hlt : ¬b - 8 < 2 := fun hlt => hnot ⟨h8, hlt⟩
      simp [hlt]
    · simp [h8]

theorem setSize_bit (e : Dir) (v : ℕ) {b : ℕ} (hb : b < 16) :
    (e.setSize v).w1.getLsbD b = if 10 ≤ b then v.testBit (b - 10) else e.w1.getLsbD b := by
  change (BitVec.ofNat 16 _).getLsbD b = _
  rw [BitVec.getLsbD_ofNat, decide_eq_true hb, Nat.testBit_or, Nat.testBit_and, Nat.testBit_shiftLeft,
    show (1 <<< 10) - 1 = 2 ^ 10 - 1 from rfl, Nat.testBit_two_pow_sub_one, BitVec.testBit_toNat]
  by_cases h : 10 ≤ b
  · simp [h, not_lt.mpr h]
  · simp [h, not_le.mp h]

theorem setTag_bit (e : Dir) (t : ℕ) {b : ℕ} (hb : b < 16) :
    (e.setTag t).w2.getLsbD b = if b < 12 then t.testBit b else e.w2.getLsbD b := by
  have hmask : ∀ b < 16, Nat.testBit 0xF000 b = decide (12 ≤ b) := by decide
  change ((e.w2 &&& 0xF000#16) ||| BitVec.ofNat 16 _).getLsbD b = _
  rw [BitVec.getLsbD_or, BitVec.getLsbD_and, BitVec.getLsbD_ofNat, BitVec.getLsbD_ofNat, decide_eq_true hb, hmask b hb, Nat.testBit_and,
    show (1 <<< DIR_TAG_WIDTH) - 1 = 2 ^ 12 - 1 from rfl, Nat.testBit_two_pow_sub_one]
  by_cases h : b < 12
  · simp [h, not_le.mpr h]
  · simp [h, not_lt.mp h]

theorem setBit_bit (e : Dir) {k : ℕ} (hk : k < 16) (v : Bool) {b : ℕ} (hb : b < 16) :
    (e.setBit k v).w2.getLsbD b = if b = k then v else e.w2.getLsbD b := by
  change ((e.w2 &&& ~~~(1#16 <<< k)) ||| ((if v then 1#16 else 0#16) <<< k)).getLsbD b = _
  rw [BitVec.getLsbD_or, BitVec.getLsbD_and, BitVec.getLsbD_not, BitVec.getLsbD_shiftLeft, BitVec.getLsbD_shiftLeft, decide_eq_true hb]
  rcases lt_trichotomy b k with h | h | h
  · simp [h, h.ne]
  · subst h
    cases v <;> simp
  · have hpos : ¬b < k := not_lt.mpr h.le
    have h0 : b - k ≠ 0 := by omega
    cases v <;> simp [hpos, h.ne', h0]

/-- A setter writes the value to the places of the field. -/
theorem bitAt_set_self (f : DirField) (e : Dir) {v : ℕ} (hv : v < 2 ^ f.width) {i : ℕ} (hi : i < f.width) :
    (f.set v e).bitAt (f.place i).1 (f.place i).2 = v.testBit i := by
  have hflag : ∀ v i, v < 2 ^ 1 → i < 1 → (v != 0) = v.testBit i := by
    intro v i hv hi
    obtain rfl := Nat.lt_one_iff.mp hi
    interval_cases v <;> rfl
  cases f with
  | offset =>
    change i < 40 at hi
    rw [place]
    split_ifs with h1 h2
    · change (BitVec.ofNat 16 v).getLsbD i = _
      rw [BitVec.getLsbD_ofNat, decide_eq_true h1, Bool.true_and]
    · change (e.setOffset v).w1.getLsbD (i - 16) = _
      rw [setOffset_bit e v (by omega), if_pos (by omega), Nat.add_sub_cancel' (not_lt.mp h1)]
    · change (BitVec.ofNat 16 (v >>> 24)).getLsbD (i - 24) = _
      rw [BitVec.getLsbD_ofNat, decide_eq_true (by omega), Bool.true_and, Nat.testBit_shiftRight, Nat.add_sub_cancel' (not_lt.mp h2)]
  | big =>
    change i < 2 at hi
    change (e.setBig v).w1.getLsbD (8 + i) = _
    rw [setBig_bit e v (by omega), if_pos (by omega), Nat.add_sub_cancel_left]
  | size =>
    change i < 6 at hi
    change (e.setSize v).w1.getLsbD (10 + i) = _
    rw [setSize_bit e v (by omega), if_pos (by omega), Nat.add_sub_cancel_left]
  | tag =>
    change i < 12 at hi
    change (e.setTag v).w2.getLsbD i = _
    rw [setTag_bit e v (by omega), if_pos hi]
  | phase | head | pinned | token =>
    have hv' := hflag v i hv hi
    obtain rfl := Nat.lt_one_iff.mp hi
    exact (setBit_bit e (by decide) _ (by decide)).trans ((if_pos rfl).trans hv')
  | next =>
    change i < 16 at hi
    change (BitVec.ofNat 16 v).getLsbD i = _
    rw [BitVec.getLsbD_ofNat, decide_eq_true hi, Bool.true_and]
  | prev =>
    change i < 16 at hi
    change (BitVec.ofNat 16 v).getLsbD i = _
    rw [BitVec.getLsbD_ofNat, decide_eq_true hi, Bool.true_and]

/-- and leaves all others -/
theorem bitAt_set_other (f : DirField) (e : Dir) (v : ℕ) {w b : ℕ} (hb : b < 16) (h : ∀ i < f.width, f.place i ≠ (w, b)) :
    (f.set v e).bitAt w b = e.bitAt w b := by
  cases f with
  | offset =>
    match w with
    | 0 =>
      have := h b (by change b < 40; omega)
      rw [place, if_pos hb] at this
      exact absurd rfl this
    | 1 =>
      change (e.setOffset v).w1.getLsbD b = _
      rw [setOffset_bit e v hb, if_neg]
      · rfl
      · intro h8
        have := h (16 + b) (by change 16 + b < 40; omega)
        rw [place, if_neg (by omega), if_pos (by omega), Nat.add_sub_cancel_left] at this
        exact this rfl
    | 2 => rfl
    | 3 => rfl
    | 4 =>
      have := h (24 + b) (by change 24 + b < 40; omega)
      rw [place, if_neg (by omega), if_neg (by omega), Nat.add_sub_cancel_left] at this
      exact absurd rfl this
    | n + 5 => rfl
  | big =>
    match w with
    | 1 =>
      change (e.setBig v).w1.getLsbD b = _
      rw [setBig_bit e v hb, if_neg]
      · rfl
      · intro h8
        have := h (b - 8) (by change b - 8 < 2; omega)
        rw [place, Nat.add_sub_cancel' h8.1] at this
        exact this rfl
    | 0 | 2 | 3 | 4 | n + 5 => rfl
  | size =>
    match w with
    | 1 =>
      change (e.setSize v).w1.getLsbD b = _
      rw [setSize_bit e v hb, if_neg]
      · rfl
      · intro h10
        have := h (b - 10) (by change b - 10 < 6; omega)
        rw [place, Nat.add_sub_cancel' h10] at this
        exact this rfl
    | 0 | 2 | 3 | 4 | n + 5 => rfl
  | tag =>
    match w with
    | 2 =>
      change (e.setTag v).w2.getLsbD b = _
      rw [setTag_bit e v hb, if_neg]
      · rfl
      · intro h12
        exact h b h12 rfl
    | 0 | 1 | 3 | 4 | n + 5 => rfl
  | phase | head | pinned | token =>
    match w with
    | 2 =>
      refine (setBit_bit e (by decide) _ hb).trans ?_
      rw [if_neg]
      · rfl
      · rintro rfl
        exact h 0 Nat.one_pos rfl
    | 0 | 1 | 3 | 4 | n + 5 => rfl
  | next =>
    match w with
    | 3 => exact absurd rfl (h b hb)
    | 0 | 1 | 2 | 4 | n + 5 => rfl
  | prev =>
    match w with
    | 2 => exact absurd rfl (h b hb)
    | 0 | 1 | 3 | 4 | n + 5 => rfl

theorem place_lt (f : DirField) {i : ℕ} (hi : i < f.width) : (f.place i).2 < 16 := by
  have hall : ∀ f ∈ all, ∀ i < f.width, (f.place i).2 < 16 := by decide
  exact hall f (mem_all f) i hi

/-- A getter returns what the setter of its field has written, and the setter of a field that is not aliased does not change it. -/
theorem get_set (f g : DirField) (e : Dir) (v : ℕ) :
    (v < 2 ^ f.width → f.get (f.set v e) = v) ∧ (¬Aliased f g → g.get (f.set v e) = g.get e) := by
  constructor
  · intro hv
    apply Nat.eq_of_testBit_eq
    intro i
    rw [testBit_get]
    by_cases hi : i < f.width
    · rw [bitAt_set_self f e hv hi, decide_eq_true hi, Bool.true_and]
    · rw [decide_eq_false hi, Bool.false_and]
      exact (Nat.testBit_lt_two_pow (hv.trans_le (Nat.pow_le_pow_right two_pos (not_lt.mp hi)))).symm
  · intro ha
    apply Nat.eq_of_testBit_eq
    intro i
    rw [testBit_get, testBit_get]
    by_cases hi : i < g.width
    · rw [bitAt_set_other f e v (w := (g.place i).1) (place_lt g hi) fun j hj hp => ha (place_inj f g hj hi hp).1]
    · rw [decide_eq_false hi, Bool.false_and, Bool.false_and]

/-- the greatest offset, in an entry that has a tag -/
theorem get_set_offset : offset.get (offset.set (2 ^ 40 - 1) (tag.set 7 Dir.zero)) = 2 ^ 40 - 1 ∧
    tag.get (offset.set (2 ^ 40 - 1) (tag.set 7 Dir.zero)) = tag.get (tag.set 7 Dir.zero) :=
  ⟨(get_set offset tag (tag.set 7 Dir.zero) _).1 (by decide), (get_set offset tag (tag.set 7 Dir.zero) _).2 (by decide)⟩

end DirField

end TrafficServer.Cache
