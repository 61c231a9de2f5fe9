/-
Printing a text piece by piece.

A printer that cannot stop inside the text prints all of it every time: it is told how much to leave out at the front (`skip`), and stops
where the buffer ends. A `Window` is the buffer with these two counters, and `put` prints a text into it. A printer `Prints` a text if it is
`put`; two printers one after the other print the one text behind the other (`Prints.andThen`). Buffers of any sizes, with what has been
printed left out each time, get the pieces of the text (`dump_flatten`).
-/
import TrafficServer.Lib.Memory

namespace TrafficServer.Windowed

open TrafficServer.Memory

variable {α : Type*} {n : ℕ} {a b text : List α}

/-- a buffer of `n` cells, of which `index` are in use, and how much of the text to leave out before the next cell -/
@[ext] structure Window (α : Type*) (n : ℕ) where
  buf : Block α n
  index : ℕ
  skip : ℕ
  index_le : index ≤ n

namespace Window

variable (w : Window α n)

/-- a new buffer -/
def fresh (n skip : ℕ) : Window α n := ⟨Block.alloc n, 0, skip, Nat.zero_le n⟩

/-- what is in the buffer, if all of it has been written -/
def printed : Option (List α) := (w.buf.read 0 w.index).bind values

/-- the part of a text that is neither left out nor too much -/
def part (text : List α) : List α := (text.drop w.skip).take (n - w.index)

theorem index_part_le (text : List α) : w.index + (w.part text).length ≤ n := by
  have hpart : (w.part text).length ≤ n - w.index := List.length_take_le _ _
  exact (Nat.add_le_add_left hpart _).trans_eq (Nat.add_sub_cancel' w.index_le)

/-- prints a text: whether it has all been printed, and the window behind it -/
def put (text : List α) : Option (Bool × Window α n) :=
  (w.buf.write w.index ((w.part text).map some)).map fun buf =>
    (decide (text.length - w.skip ≤ n - w.index), ⟨buf, w.index + (w.part text).length, w.skip - text.length, w.index_part_le text⟩)

/-- `put` is the one window with this content and these counters -/
theorem put_eq {w' : Window α n} (hbuf : w.buf.write w.index ((w.part text).map some) = some w'.buf)
    (hindex : w'.index = w.index + (w.part text).length) (hskip : w'.skip = w.skip - text.length) :
    w.put text = some (decide (text.length - w.skip ≤ n - w.index), w') := by
  obtain ⟨buf', index', skip', hle⟩ := w'
  dsimp only at hbuf hindex hskip
  subst hindex hskip
  unfold put
  rw [hbuf]
  rfl

/-- The part of the text has room. -/
theorem exists_put (text : List α) : ∃ w' : Window α n, w.put text = some (decide (text.length - w.skip ≤ n - w.index), w') ∧
    w.buf.write w.index ((w.part text).map some) = some w'.buf ∧ w'.index = w.index + (w.part text).length ∧
      w'.skip = w.skip - text.length := by
  have hle : w.index + ((w.part text).map some).length ≤ n := by
    rw [List.length_map]
    exact w.index_part_le text
  have hwrite : w.buf.write w.index ((w.part text).map some) = some _ := dif_pos hle
  exact ⟨⟨_, _, _, w.index_part_le text⟩, w.put_eq hwrite rfl rfl, hwrite, rfl, rfl⟩

/-- all of the text is left out -/
theorem part_of_le (h : text.length ≤ w.skip) : w.part text = [] := by
  unfold part
  rw [List.drop_of_length_le h, List.take_nil]

/-- the rest of the text has room -/
theorem part_of_room (h : text.length - w.skip ≤ n - w.index) : w.part text = text.drop w.skip :=
  List.take_of_length_le (by rwa [List.length_drop])

/-- Where the text is left out, the window only counts. -/
theorem put_of_le (h : text.length ≤ w.skip) : w.put text = some (true, { w with skip := w.skip - text.length }) := by
  have hpart := w.part_of_le h
  have hroom : text.length - w.skip ≤ n - w.index := Nat.sub_eq_zero_of_le h ▸ Nat.zero_le _
  have hput : w.put text = some (decide (text.length - w.skip ≤ n - w.index), { w with skip := w.skip - text.length }) :=
    w.put_eq (by rw [hpart]; exact Block.write_nil w.buf w.index_le) (by rw [hpart]; rfl) rfl
  rwa [decide_eq_true hroom] at hput

theorem put_nil : w.put [] = some (true, w) := w.put_of_le (Nat.zero_le _)

/-- Where there is room for all of a text, and nothing to leave out, it is written as it is. -/
theorem put_of_room {l : ℕ} (hskip : w.skip = 0) (hl : text.length = l) (h : l ≤ n - w.index) (hle : w.index + l ≤ n) :
    ((w.buf.write w.index (text.map some)).bind fun buf => some (true, (⟨buf, w.index + l, w.skip, hle⟩ : Window α n))) = w.put text := by
  have hroom : text.length - w.skip ≤ n - w.index := by rwa [hskip, Nat.sub_zero, hl]
  have hpart : w.part text = text := by rw [w.part_of_room hroom, hskip, List.drop_zero]
  obtain ⟨w', hput, hwrite, hindex, hskip'⟩ := w.exists_put text
  rw [hpart] at hwrite hindex
  rw [hput, hwrite, Option.bind_some, decide_eq_true hroom]
  congr 2
  exact Window.ext rfl (by rw [hindex, hl]) (by rw [hskip', hskip, Nat.zero_sub])

/-- what is left out may be cut off before -/
theorem put_drop (h : w.skip ≤ text.length) : ({ w with skip := 0 } : Window α n).put (text.drop w.skip) = w.put text := by
  obtain ⟨w', hput, hwrite, hindex, hskip⟩ := w.exists_put text
  have hskip' : w'.skip = 0 - (text.drop w.skip).length := by
    rw [hskip, Nat.sub_eq_zero_of_le h, Nat.zero_sub]
  have hput' := put_eq ({ w with skip := 0 } : Window α n) hwrite hindex hskip'
  rw [hput', hput, List.length_drop]
  rfl

/-- A text behind another one goes on where the first one ends, if that has room. -/
theorem put_append (a b : List α) : w.put (a ++ b) = (w.put a).bind fun r => if r.1 then r.2.put b else some r := by
  obtain ⟨w₁, hput, hwrite, hindex, hskip⟩ := w.exists_put a
  rw [hput, Option.bind_some]
  by_cases hroom : a.length - w.skip ≤ n - w.index
  · obtain ⟨w₂, hput', hwrite', hindex', hskip'⟩ := w₁.exists_put b
    have hlen : (w.part a).length = a.length - w.skip := by
      rw [w.part_of_room hroom, List.length_drop]
    have hpart : w.part (a ++ b) = w.part a ++ w₁.part b := by
      unfold part at hlen ⊢
      rw [List.drop_append, List.take_append, List.length_drop, hskip, hindex, part, hlen, Nat.sub_sub]
    rw [if_pos (decide_eq_true hroom), hput']
    have hboth : w.put (a ++ b) = some (decide ((a ++ b).length - w.skip ≤ n - w.index), w₂) := by
      refine w.put_eq ?_ ?_ ?_
      · rw [hpart, List.map_append, ← Block.write_write, hwrite, Option.bind_some, List.length_map, ← hindex]
        exact hwrite'
      · rw [hindex', hindex, hpart, List.length_append, Nat.add_assoc]
      · rw [hskip', hskip, List.length_append, Nat.sub_sub]
    have hiff : (a ++ b).length - w.skip ≤ n - w.index ↔ b.length - w₁.skip ≤ n - w₁.index := by
      rw [hindex, hskip, hlen, List.length_append]
      omega
    rw [hboth, decide_eq_decide.mpr hiff]
  · have hlt : w.skip < a.length := by
      by_contra hle
      exact hroom (Nat.sub_eq_zero_of_le (not_lt.mp hle) ▸ Nat.zero_le _)
    have hpart : w.part (a ++ b) = w.part a := by
      unfold part
      rw [List.drop_append_of_le_length hlt.le, List.take_append_of_le_length]
      rw [List.length_drop]
      exact (not_le.mp hroom).le
    have hroom' : ¬ (a ++ b).length - w.skip ≤ n - w.index := by
      rw [List.length_append]
      exact fun hle => hroom ((Nat.sub_le_sub_right (Nat.le_add_right _ _) _).trans hle)
    have hput' : w.put (a ++ b) = some (decide ((a ++ b).length - w.skip ≤ n - w.index), w₁) := by
      refine w.put_eq (hpart ▸ hwrite) (hpart ▸ hindex) ?_
      rw [hskip, List.length_append]
      omega
    rw [hput', decide_eq_false hroom, decide_eq_false hroom', if_neg Bool.false_ne_true]

/-- a new buffer gets the text from `skip` on, as far as it goes -/
theorem put_fresh (n skip : ℕ) (text : List α) : ∃ w : Window α n, (fresh n skip).put text = some (decide (text.length - skip ≤ n), w) ∧
    w.printed = some ((text.drop skip).take n) ∧ w.index = ((text.drop skip).take n).length := by
  obtain ⟨w, hput, hwrite, hindex, -⟩ := (fresh n skip : Window α n).exists_put text
  have hpart : (fresh n skip : Window α n).part text = (text.drop skip).take n := rfl
  rw [hpart] at hwrite hindex
  have hindex' : w.index = ((text.drop skip).take n).length := hindex.trans (Nat.zero_add _)
  refine ⟨w, hput, ?_, hindex'⟩
  obtain ⟨buf, hwrite', hholds⟩ := Block.exists_write_all (Block.alloc n) (l := (text.drop skip).take n) (List.length_take_le _ _)
  obtain rfl : w.buf = buf := Option.some.inj (hwrite.symm.trans hwrite')
  rw [printed, hindex', hholds.read_all, Option.bind_some, values_map_some]

end Window

/-! ## Printers -/

/-- a printer prints a text whatever the window is, and nothing outside the buffer -/
def Prints (f : Window α n → Option (Bool × Window α n)) (text : List α) : Prop := ∀ w, f w = w.put text

/-- one printer after the other, if the first one has printed all of its text -/
def andThen (f g : Window α n → Option (Bool × Window α n)) (w : Window α n) : Option (Bool × Window α n) :=
  (f w).bind fun r => if r.1 then g r.2 else some r

theorem Prints.andThen {f g : Window α n → Option (Bool × Window α n)} (hf : Prints f a) (hg : Prints g b) :
    Prints (andThen f g) (a ++ b) := by
  intro w
  unfold Windowed.andThen
  rw [w.put_append, hf w]
  congr 1
  funext r
  rw [hg r.2]

/-- nothing to print -/
theorem Prints.nil : Prints (fun w : Window α n => some (true, w)) [] := fun w => w.put_nil.symm

/-! ## Pieces -/

section Dump

variable (f : ∀ n, Window α n → Option (Bool × Window α n)) (sizes : ℕ → ℕ) (max : ℕ)

/-- Prints into buffers of the given sizes until all is printed. What has been printed is left out of the next buffer; it is counted in a
number of at most `max`. There is no result if the fuel ends, if a write or the count does not fit, or if what is read was not written. -/
def dump : ℕ → ℕ → ℕ → Option (List (List α))
  | 0, _, _ => none
  | fuel + 1, i, offset => do
    let (done, w) ← f (sizes i) (.fresh (sizes i) offset)
    let piece ← w.printed
    if offset + w.index ≤ max then
      if done then some [piece] else (dump fuel (i + 1) (offset + w.index)).map fun pieces => piece :: pieces
    else none

variable {f sizes max}

/-- Each buffer takes at least one more character, until the rest fits. -/
theorem dump_flatten (hf : ∀ n, Prints (f n) text) (hsizes : ∀ i, 0 < sizes i) (hmax : text.length ≤ max) {fuel : ℕ} (i : ℕ) {offset : ℕ}
    (hoffset : offset ≤ text.length) (hfuel : text.length - offset < fuel) :
    ∃ pieces, dump f sizes max fuel i offset = some pieces ∧ pieces.flatten = text.drop offset := by
  induction fuel generalizing i offset with
  | zero => exact absurd hfuel (Nat.not_lt_zero _)
  | succ fuel ih =>
    obtain ⟨w, hput, hprinted, hindex⟩ := Window.put_fresh (sizes i) offset text
    have hcount : offset + w.index ≤ text.length := by
      rw [hindex, List.length_take, List.length_drop]
      omega
    rw [dump, hf (sizes i), hput, Option.bind_eq_bind, Option.bind_some]
    dsimp only
    rw [hprinted, Option.bind_eq_bind, Option.bind_some, if_pos (hcount.trans hmax)]
    by_cases hdone : text.length - offset ≤ sizes i
    · rw [if_pos (decide_eq_true hdone)]
      refine ⟨_, rfl, ?_⟩
      rw [List.flatten_cons, List.flatten_nil, List.append_nil]
      exact List.take_of_length_le (by rwa [List.length_drop])
    · have hsize : w.index = sizes i := by
        rw [hindex, List.length_take, List.length_drop]
        exact Nat.min_eq_left (not_le.mp hdone).le
      have hpos := hsizes i
      obtain ⟨pieces, hpieces, hflatten⟩ := ih (i + 1) hcount (by omega)
      rw [if_neg (by simpa using hdone), hpieces]
      refine ⟨_, rfl, ?_⟩
      rw [List.flatten_cons, hflatten, hsize, ← List.drop_drop, List.take_append_drop]

end Dump

end TrafficServer.Windowed
