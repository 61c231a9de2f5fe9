/-
Memory for models of code with pointers.

A `Block` is an allocation of a fixed number of cells; a cell that was never written is `none`. Reads and writes stay inside it. `Holds`
says that its first cells are the elements of a list: `Holds.read`, and `Holds.concat` for a write behind them.

A buffer is a list of pieces with sizes, and a byte offset in it is where a piece starts: `split` cuts at an offset, which is between
two parts if no piece is empty (`split_append`).
-/
import Mathlib.Tactic

namespace TrafficServer.Memory

/-! ## Allocations -/

section Block

variable {α : Type*} {n : ℕ}

structure Block (α : Type*) (n : ℕ) where
  cells : List (Option α)
  length_eq : cells.length = n

namespace Block

/-- nothing is written yet -/
def alloc (n : ℕ) : Block α n := ⟨List.replicate n none, List.length_replicate⟩

/-- `k` cells from `i` on -/
def read (b : Block α n) (i k : ℕ) : Option (List (Option α)) := if i + k ≤ n then some ((b.cells.drop i).take k) else none

/-- the cells from `i` on are replaced -/
def write (b : Block α n) (i : ℕ) (c : List (Option α)) : Option (Block α n) :=
  if h : i + c.length ≤ n then
    some ⟨b.cells.take i ++ (c ++ b.cells.drop (i + c.length)), by
      have hlen := b.length_eq
      simp only [List.length_append, List.length_take, List.length_drop]
      omega⟩
  else none

/-- the first cells -/
def Holds (b : Block α n) (l : List α) : Prop := l.map some <+: b.cells

variable {b b' : Block α n} {l m : List α} {c : List (Option α)} {i : ℕ}

theorem Holds.nil (b : Block α n) : b.Holds [] := List.nil_prefix

theorem Holds.length_le (h : b.Holds l) : l.length ≤ n := by
  have hle := List.IsPrefix.length_le h
  rwa [List.length_map, b.length_eq] at hle

/-- what is held is read -/
theorem Holds.read (h : b.Holds (l ++ m)) : b.read l.length m.length = some (m.map some) := by
  obtain ⟨rest, hrest⟩ := h
  have hle := Holds.length_le (b := b) ⟨rest, hrest⟩
  rw [List.length_append] at hle
  rw [Block.read, if_pos hle, ← hrest, List.map_append, List.append_assoc]
  simp

/-- what is read from the start, more or less than is held -/
theorem Holds.read_prefix {k : ℕ} (h : b.Holds l) (hk : k ≤ n) :
    ∃ c, b.read 0 k = some c ∧ c.length = k ∧ (l.take k).map some <+: c := by
  have hlen := b.length_eq
  refine ⟨b.cells.take k, ?_, ?_, ?_⟩
  · rw [Block.read, if_pos (by omega), List.drop_zero]
  · rw [List.length_take, hlen, Nat.min_eq_left hk]
  · rw [List.map_take]
    exact List.IsPrefix.take h k

theorem Holds.read_all (h : b.Holds l) : b.read 0 l.length = some (l.map some) := Holds.read (l := []) h

/-- a write behind what is held -/
theorem Holds.write (h : b.Holds l) (hm : l.length + m.length ≤ n) :
    ∃ b', b.write l.length (m.map some) = some b' ∧ b'.Holds (l ++ m) := by
  obtain ⟨rest, hrest⟩ := h
  refine ⟨_, dif_pos (by simpa using hm), ?_⟩
  have htake : b.cells.take l.length = l.map some := by
    rw [← hrest, List.take_left' (by simp)]
  rw [Holds, List.map_append]
  simp only [htake, ← List.append_assoc]
  exact List.prefix_append _ _

theorem exists_write (b : Block α n) (hc : c.length ≤ n) : ∃ b', b.write 0 c = some b' ∧ c <+: b'.cells := by
  refine ⟨_, dif_pos (by omega), ?_⟩
  simp

theorem write_nil (b : Block α n) (hi : i ≤ n) : b.write i [] = some b := by
  rw [Block.write, dif_pos (by rwa [List.length_nil])]
  obtain ⟨cells, hlen⟩ := b
  simp

/-- two writes, one behind the other -/
theorem write_write (b : Block α n) (i : ℕ) (c d : List (Option α)) :
    (b.write i c).bind (fun b' => b'.write (i + c.length) d) = b.write i (c ++ d) := by
  have hlen := b.length_eq
  by_cases h : i + c.length ≤ n
  · have htake : (b.cells.take i ++ c).length = i + c.length := by
      rw [List.length_append, List.length_take, hlen, Nat.min_eq_left ((Nat.le_add_right i _).trans h)]
    rw [Block.write, dif_pos h, Option.bind_some]
    by_cases hd : i + c.length + d.length ≤ n
    · have hcd : i + (c ++ d).length ≤ n := by rwa [List.length_append, ← Nat.add_assoc]
      rw [Block.write, dif_pos hd, Block.write, dif_pos hcd]
      have hdrop : (b.cells.take i ++ c ++ b.cells.drop (i + c.length)).drop (i + c.length + d.length) =
          b.cells.drop (i + c.length + d.length) := by
        rw [← List.drop_drop, List.drop_left' htake, List.drop_drop]
      simp only [← List.append_assoc, List.take_left' htake, hdrop, List.length_append, ← Nat.add_assoc]
    · have hcd : ¬ i + (c ++ d).length ≤ n := by rwa [List.length_append, ← Nat.add_assoc]
      rw [Block.write, dif_neg hd, Block.write, dif_neg hcd]
  · have hcd : ¬ i + (c ++ d).length ≤ n := by
      rw [List.length_append, ← Nat.add_assoc]
      exact fun hle => h ((Nat.le_add_right _ _).trans hle)
    rw [Block.write, dif_neg h, Option.bind_none, Block.write, dif_neg hcd]

/-- where everything is held, nothing else is there -/
theorem Holds.cells_eq (h : b.Holds l) (hl : l.length = n) : b.cells = l.map some :=
  (List.IsPrefix.eq_of_length h (by rw [List.length_map, b.length_eq, hl])).symm

/-- a write of everything -/
theorem exists_write_all (b : Block α n) (hl : l.length ≤ n) : ∃ b', b.write 0 (l.map some) = some b' ∧ b'.Holds l :=
  Holds.write (Holds.nil b) (by simpa using hl)

end Block

/-- the values of cells that were all written -/
def values {α : Type*} (c : List (Option α)) : Option (List α) := c.mapM id

@[simp] theorem values_map_some (l : List α) : values (l.map some) = some l := by
  induction l with
  | nil => rfl
  | cons a l ih =>
    simp only [values] at ih
    simp [values, ih]

end Block

/-! ## Buffers -/

section Buffer

variable {α : Type*} (size : α → ℕ)

def sizes (buf : List α) : ℕ := (buf.map size).sum

/-- the pieces before a byte offset, and those from there on -/
def split : List α → ℕ → Option (List α × List α)
  | buf, 0 => some ([], buf)
  | [], _ + 1 => none
  | p :: buf, n + 1 => if size p ≤ n + 1 then (split buf (n + 1 - size p)).map fun r => (p :: r.1, r.2) else none

/-- the pieces from a byte offset on -/
def behind (buf : List α) (n : ℕ) : Option (List α) := (split size buf n).map Prod.snd

@[simp] theorem sizes_nil : sizes size ([] : List α) = 0 := rfl

@[simp] theorem sizes_cons (p : α) (buf : List α) : sizes size (p :: buf) = size p + sizes size buf := by
  simp [sizes]

@[simp] theorem sizes_append (a b : List α) : sizes size (a ++ b) = sizes size a + sizes size b := by
  simp [sizes]

theorem split_append {a : List α} (h : ∀ p ∈ a, 0 < size p) (b : List α) : split size (a ++ b) (sizes size a) = some (a, b) := by
  induction a with
  | nil => rw [List.nil_append, sizes_nil, split]
  | cons p a ih =>
    have hp : 0 < size p := h p List.mem_cons_self
    obtain ⟨n, hn⟩ : ∃ n, sizes size (p :: a) = n + 1 := ⟨size p + sizes size a - 1, by rw [sizes_cons]; omega⟩
    have hle : size p ≤ n + 1 := by
      rw [← hn, sizes_cons]
      exact Nat.le_add_right _ _
    have hrest : n + 1 - size p = sizes size a := by
      rw [← hn, sizes_cons, Nat.add_sub_cancel_left]
    rw [hn, List.cons_append, split, if_pos hle, hrest, ih fun q hq => h q (List.mem_cons_of_mem p hq)]
    rfl

theorem behind_append {a : List α} (h : ∀ p ∈ a, 0 < size p) (b : List α) : behind size (a ++ b) (sizes size a) = some b := by
  rw [behind, split_append size h]
  rfl

end Buffer

end TrafficServer.Memory
