/-
The dynamic table of HPACK (`HpackDynamicTable` in `proxy/http2/HPACK.cc`).

The newest field is at index 0. A field that does not fit is made room for from the other end before it is inserted; one that is
larger than the table empties it, and a smaller maximum evicts as well. Sizes are `uint32_t`. A field is what `name_get` and
`value_get` return; a stored name has at most 16 bits of length and a value 24, so that the size of a field is exact.

`dynamic_table_law_iff`: the recorded size is that of the entries and at most the maximum, and the entries are the longest part of
the table that fits with the new field, exactly as long as no field is added whose size does not fit in 32 bits with the size of the
table. A maximum near `2 ^ 32` lets such a field in: nothing is evicted and the size is short by `2 ^ 32` (`size_wraps`).
-/
import Mathlib
import TrafficServer.Lib.Run

namespace TrafficServer.Http2.Hpack

open TrafficServer.Run

def ADDITIONAL_OCTETS : ℕ := 32

/-- a header field as `MIMEField` can have it -/
structure Field where
  name : List (BitVec 8)
  value : List (BitVec 8)
  name_lt : name.length < 2 ^ 16
  value_lt : value.length < 2 ^ 24
deriving DecidableEq

/-- the size of an entry -/
def Field.size (f : Field) : ℕ := ADDITIONAL_OCTETS + f.name.length + f.value.length

structure HpackDynamicTable where
  currentSize : ℕ
  maximumSize : ℕ
  headers : List Field

namespace HpackDynamicTable

def new (size : BitVec 32) : HpackDynamicTable := ⟨0, size.toNat, []⟩

def getHeaderField (t : HpackDynamicTable) (index : ℕ) : Option Field := t.headers[index]?

def length (t : HpackDynamicTable) : ℕ := t.headers.length

/-- the last entry leaves -/
def dropLast (t : HpackDynamicTable) (last : Field) : HpackDynamicTable :=
  { t with currentSize := (t.currentSize + (2 ^ 32 - last.size)) % 2 ^ 32, headers := t.headers.dropLast }

/-- entries leave until the size is at most `limit`; false if none is left before that -/
def evict (limit : ℕ) : ℕ → HpackDynamicTable → HpackDynamicTable × Bool
  | 0, t => (t, t.currentSize ≤ limit)
  | fuel + 1, t =>
    if t.currentSize > limit then
      match t.headers.getLast? with
      | none => (t, false)
      | some last => evict limit fuel (t.dropLast last)
    else (t, true)

def addHeaderField (t : HpackDynamicTable) (field : Field) : HpackDynamicTable :=
  if field.size > t.maximumSize then { t with headers := [], currentSize := 0 }
  else
    let t := { t with currentSize := (t.currentSize + field.size) % 2 ^ 32 }
    let t := (evict t.maximumSize (t.headers.length + 1) t).1
    { t with headers := field :: t.headers }

def updateMaximumSize (t : HpackDynamicTable) (newSize : BitVec 32) : HpackDynamicTable × Bool :=
  match evict newSize.toNat (t.headers.length + 1) t with
  | (t, true) => ({ t with maximumSize := newSize.toNat }, true)
  | (t, false) => (t, false)

end HpackDynamicTable

inductive Op where
  | add (field : Field)
  | update (newSize : BitVec 32)

def step (t : HpackDynamicTable) : Op → HpackDynamicTable
  | .add field => t.addHeaderField field
  | .update newSize => (t.updateMaximumSize newSize).1

/-! ## What fits -/

def total (l : List Field) : ℕ := (l.map Field.size).sum

/-- `p` is the longest part of the table `l`, from the newest on, that fits in `m` -/
structure IsLongest (m : ℕ) (l p : List Field) : Prop where
  prefix_of : p <+: l
  fits : total p ≤ m
  longest : ∀ q, q <+: l → total q ≤ m → q.length ≤ p.length

/-- as many fields as fit in `m` -/
def fit : ℕ → List Field → List Field
  | _, [] => []
  | m, f :: l => if f.size ≤ m then f :: fit (m - f.size) l else []

@[simp] theorem total_nil : total [] = 0 := rfl

@[simp] theorem total_cons (f : Field) (l : List Field) : total (f :: l) = f.size + total l := by
  simp [total]

@[simp] theorem total_append (l l' : List Field) : total (l ++ l') = total l + total l' := by
  simp [total]

theorem total_fit (m : ℕ) (l : List Field) : total (fit m l) ≤ m := by
  induction l generalizing m with
  | nil => exact Nat.zero_le m
  | cons f l ih =>
    rw [fit]
    by_cases hf : f.size ≤ m
    · rw [if_pos hf, total_cons]
      have := ih (m - f.size)
      omega
    · rw [if_neg hf]
      exact Nat.zero_le m

theorem fit_isPrefix (m : ℕ) (l : List Field) : fit m l <+: l := by
  induction l generalizing m with
  | nil => exact List.prefix_refl []
  | cons f l ih =>
    rw [fit]
    by_cases hf : f.size ≤ m
    · rw [if_pos hf]
      exact (List.prefix_cons_inj f).mpr (ih (m - f.size))
    · rw [if_neg hf]
      exact List.nil_prefix

theorem fit_longest (m : ℕ) (l q : List Field) (hq : q <+: l) (hfits : total q ≤ m) : q.length ≤ (fit m l).length := by
  induction l generalizing m q with
  | nil => rw [List.prefix_nil.mp hq, fit]
  | cons f l ih =>
    rcases List.prefix_cons_iff.mp hq with rfl | ⟨q', rfl, hq'⟩
    · exact Nat.zero_le _
    · rw [total_cons] at hfits
      have hf : f.size ≤ m := by omega
      rw [fit, if_pos hf, List.length_cons, List.length_cons]
      have := ih (m - f.size) q' hq' (by omega)
      omega

theorem isLongest_fit (m : ℕ) (l : List Field) : IsLongest m l (fit m l) := ⟨fit_isPrefix m l, total_fit m l, fit_longest m l⟩

/-- the oldest entry stays only if all of them do -/
theorem fit_concat (m : ℕ) (l : List Field) (f : Field) :
    fit m (l ++ [f]) = if total (l ++ [f]) ≤ m then l ++ [f] else fit m l := by
  induction l generalizing m with
  | nil => simp [fit]
  | cons g l ih =>
    rw [List.cons_append, fit, fit, total_cons]
    by_cases hg : g.size ≤ m
    · rw [if_pos hg, if_pos hg, ih]
      by_cases hall : total (l ++ [f]) ≤ m - g.size
      · rw [if_pos hall, if_pos (by omega)]
      · rw [if_neg hall, if_neg (by omega)]
    · rw [if_neg hg, if_neg hg, if_neg (by omega)]

/-! ## The eviction -/

theorem Field.size_lt (f : Field) : f.size < 2 ^ 25 := by
  have h1 := f.name_lt
  have h2 := f.value_lt
  unfold Field.size ADDITIONAL_OCTETS
  omega

/-- with the recorded size that of the entries and of a field of size `extra` that comes in -/
theorem evict_eq {limit extra : ℕ} (hextra : extra ≤ limit) (t : HpackDynamicTable) (fuel : ℕ) (hfuel : t.headers.length < fuel)
    (hsize : t.currentSize = total t.headers + extra) (hlt : t.currentSize < 2 ^ 32) :
    HpackDynamicTable.evict limit fuel t =
      ({ t with currentSize := total (fit (limit - extra) t.headers) + extra, headers := fit (limit - extra) t.headers }, true) := by
  obtain ⟨cur, max, l⟩ := t
  dsimp only at hfuel hsize hlt ⊢
  -- the entries leave from the end, and the loop sees them in this order
  induction l using List.reverseRecOn generalizing cur fuel with
  | nil =>
    obtain ⟨fuel, rfl⟩ := Nat.exists_eq_succ_of_ne_zero (Nat.ne_zero_of_lt hfuel)
    rw [HpackDynamicTable.evict, if_neg (by rw [hsize, total_nil]; simpa using hextra), fit, hsize]
  | append_singleton l f ih =>
    obtain ⟨fuel, rfl⟩ := Nat.exists_eq_succ_of_ne_zero (Nat.ne_zero_of_lt hfuel)
    rw [HpackDynamicTable.evict, fit_concat]
    dsimp only
    by_cases hover : cur > limit
    · rw [if_pos hover, List.getLast?_concat, if_neg (by omega)]
      have hf := f.size_lt
      rw [total_append, total_cons, total_nil] at hsize
      have hsub : (cur + (2 ^ 32 - f.size)) % 2 ^ 32 = total l + extra := by
        omega
      rw [List.length_append, List.length_singleton] at hfuel
      dsimp only [HpackDynamicTable.dropLast]
      rw [List.dropLast_concat, hsub]
      exact ih fuel (total l + extra) (by omega) rfl (by omega)
    · rw [if_neg hover, if_pos (by omega), hsize]

/-! ## The law of the table -/

/-- the fields that were added -/
def added : List Op → List Field
  | [] => []
  | .add f :: ops => f :: added ops
  | .update _ :: ops => added ops

/-- Eviction first in, first out, from an empty table of maximum `m₀`: what stays is the longest part that fits. -/
inductive Fifo (m₀ : ℕ) : List Op → ℕ → List Field → Prop
  | new : Fifo m₀ [] m₀ []
  | add {ops : List Op} {m : ℕ} {l l' : List Field} {f : Field} (h : Fifo m₀ ops m l) (hl : IsLongest m (f :: l) l') :
    Fifo m₀ (ops ++ [.add f]) m l'
  | update {ops : List Op} {m : ℕ} {l l' : List Field} {n : BitVec 32} (h : Fifo m₀ ops m l) (hl : IsLongest n.toNat l l') :
    Fifo m₀ (ops ++ [.update n]) n.toNat l'

/-- the table after `ops` -/
structure Law (m₀ : ℕ) (ops : List Op) (t : HpackDynamicTable) : Prop where
  size_eq : t.currentSize = total t.headers
  size_le : t.currentSize ≤ t.maximumSize
  fifo : Fifo m₀ ops t.maximumSize t.headers
  /-- the entries are the end of what was added, the newest first -/
  suffix : t.headers.reverse <:+ added ops
  newest : ∀ f, t.getHeaderField 0 = some f → (added ops).getLast? = some f

/-- the size of the table with the field fits in 32 bits, or the field is larger than the table -/
def AddOk (t : HpackDynamicTable) : Op → Prop
  | .add f => f.size ≤ t.maximumSize → t.currentSize + f.size < 2 ^ 32
  | .update _ => True

theorem added_append (ops ops' : List Op) : added (ops ++ ops') = added ops ++ added ops' := by
  induction ops with
  | nil => rfl
  | cons op ops ih =>
    cases op with
    | add f => simp [added, ih]
    | update n => simp [added, ih]

/-- the newest field, from the part of what was added that is kept -/
theorem newest_of_suffix {t : HpackDynamicTable} {l : List Field} (h : t.headers.reverse <:+ l) (f : Field)
    (hf : t.getHeaderField 0 = some f) : l.getLast? = some f := by
  obtain ⟨l', rfl⟩ := h
  have hhead : t.headers.head? = some f := by
    rw [List.head?_eq_getElem?]
    exact hf
  rw [List.getLast?_append, List.getLast?_reverse, hhead]
  rfl

theorem addHeaderField_eq {t : HpackDynamicTable} {f : Field} (hsize : t.currentSize = total t.headers)
    (hok : f.size ≤ t.maximumSize → t.currentSize + f.size < 2 ^ 32) :
    t.addHeaderField f = { t with
      currentSize := total (fit t.maximumSize (f :: t.headers)), headers := fit t.maximumSize (f :: t.headers) } := by
  unfold HpackDynamicTable.addHeaderField
  rw [fit]
  by_cases hbig : f.size > t.maximumSize
  · rw [if_pos hbig, if_neg (by omega)]
    rfl
  · have hle : f.size ≤ t.maximumSize := Nat.le_of_not_lt hbig
    have hlt := hok hle
    rw [if_neg hbig, if_pos hle, Nat.mod_eq_of_lt hlt]
    dsimp only
    rw [evict_eq (t := { t with currentSize := t.currentSize + f.size }) hle _ (Nat.lt_succ_self _) (by rw [hsize]) hlt]
    rw [total_cons, Nat.add_comm]

theorem updateMaximumSize_eq {t : HpackDynamicTable} {n : BitVec 32} (hsize : t.currentSize = total t.headers)
    (hlt : t.currentSize < 2 ^ 32) :
    t.updateMaximumSize n = (⟨total (fit n.toNat t.headers), n.toNat, fit n.toNat t.headers⟩, true) := by
  unfold HpackDynamicTable.updateMaximumSize
  rw [evict_eq (Nat.zero_le _) t _ (Nat.lt_succ_self _) hsize hlt]
  rfl

/-- the end of what was added is still the end -/
theorem suffix_of_prefix {l p : List Field} {m : List Field} (hp : p <+: l) (hl : l.reverse <:+ m) : p.reverse <:+ m :=
  (List.reverse_suffix.mpr hp).trans hl

theorem step_law {m₀ : ℕ} {ops : List Op} {t : HpackDynamicTable} {op : Op} (h : Law m₀ ops t) (hmax : t.maximumSize < 2 ^ 32)
    (hok : AddOk t op) : Law m₀ (ops ++ [op]) (step t op) ∧ (step t op).maximumSize < 2 ^ 32 := by
  have hlt : t.currentSize < 2 ^ 32 := lt_of_le_of_lt h.size_le hmax
  cases op with
  | add f =>
    have hstep : step t (.add f) = _ := addHeaderField_eq h.size_eq hok
    have hlist : (f :: t.headers).reverse <:+ added (ops ++ [.add f]) := by
      rw [added_append, List.reverse_cons]
      exact (List.suffix_append_inj_of_length_eq rfl).mpr ⟨h.suffix, rfl⟩
    have hsuffix : (fit t.maximumSize (f :: t.headers)).reverse <:+ added (ops ++ [.add f]) :=
      suffix_of_prefix (fit_isPrefix _ _) hlist
    rw [hstep]
    exact ⟨⟨rfl, total_fit _ _, h.fifo.add (isLongest_fit _ _), hsuffix, newest_of_suffix hsuffix⟩, hmax⟩
  | update n =>
    have hstep : step t (.update n) = ⟨total (fit n.toNat t.headers), n.toNat, fit n.toNat t.headers⟩ :=
      congrArg Prod.fst (updateMaximumSize_eq h.size_eq hlt)
    have hsuffix : (fit n.toNat t.headers).reverse <:+ added (ops ++ [.update n]) := by
      rw [added_append]
      exact suffix_of_prefix (fit_isPrefix _ _) (by simpa [added] using h.suffix)
    rw [hstep]
    exact ⟨⟨rfl, total_fit _ _, h.fifo.update (isLongest_fit _ _), hsuffix, newest_of_suffix hsuffix⟩, n.isLt⟩

/-- a sum of more than 32 bits is at most the maximum, and nothing leaves -/
theorem step_wraps {t : HpackDynamicTable} {op : Op} (hsize : t.currentSize = total t.headers) (hle : t.currentSize ≤ t.maximumSize)
    (hmax : t.maximumSize < 2 ^ 32) (hok : ¬ AddOk t op) : (step t op).currentSize ≠ total (step t op).headers := by
  cases op with
  | update n => exact absurd trivial hok
  | add f =>
    obtain ⟨hf, hover⟩ := Classical.not_imp.mp hok
    have hmod : (t.currentSize + f.size) % 2 ^ 32 = t.currentSize + f.size - 2 ^ 32 := by
      omega
    have hadd : step t (.add f) = { t with currentSize := (t.currentSize + f.size) % 2 ^ 32, headers := f :: t.headers } := by
      rw [step, HpackDynamicTable.addHeaderField, if_neg (by omega)]
      dsimp only
      rw [HpackDynamicTable.evict, if_neg (by dsimp only; omega)]
    rw [hadd, total_cons]
    dsimp only
    omega

theorem dynamic_table_law_iff (maximumSize : BitVec 32) (ops : List Op) :
    (∀ n, Law maximumSize.toNat (ops.take n) ((ops.take n).foldl step (.new maximumSize))) ↔
      Along step AddOk (.new maximumSize) ops := by
  have hnew : Law maximumSize.toNat [] (.new maximumSize) ∧ (HpackDynamicTable.new maximumSize).maximumSize < 2 ^ 32 :=
    ⟨⟨rfl, Nat.zero_le _, .new, List.suffix_refl [], by simp [HpackDynamicTable.getHeaderField, HpackDynamicTable.new]⟩,
      maximumSize.isLt⟩
  have hrun := along_iff_history (s := HpackDynamicTable.new maximumSize) (P := AddOk) (I := fun m t => Law maximumSize.toNat m t ∧ t.maximumSize < 2 ^ 32)
    (Q := fun m t => Law maximumSize.toNat m t) (fun m t h => h.1) (fun m t op h _ hok => step_law h.1 h.2 hok)
    (fun m t op h _ hok hlaw => step_wraps h.1.size_eq h.1.size_le h.2 hok hlaw.size_eq) (m := []) (l := ops)
    (along_of_forall (p := fun _ => True) fun _ _ => trivial) hnew
  simpa using hrun

/-! ### A table of 4 GB -/

section Long

variable {f : Field} (hsize : f.size = 2 ^ 24 + 31)
include hsize

theorem total_long (n : ℕ) : total (List.replicate n f) = n * (2 ^ 24 + 31) := by
  induction n with
  | zero => rw [List.replicate_zero, total_nil, Nat.zero_mul]
  | succ n ih => rw [List.replicate_succ, total_cons, ih, hsize, Nat.succ_mul, Nat.add_comm]

/-- up to 255 fields of 16 MB are less than 4 GB -/
theorem run_long (n : ℕ) (hn : n ≤ 255) :
    (List.replicate n (Op.add f)).foldl step (.new (BitVec.ofNat 32 (2 ^ 32 - 1))) =
      ⟨n * (2 ^ 24 + 31), 2 ^ 32 - 1, List.replicate n f⟩ := by
  induction n with
  | zero =>
    rw [List.replicate_zero, List.replicate_zero, List.foldl_nil, Nat.zero_mul]
    rfl
  | succ n ih =>
    rw [List.replicate_succ', List.foldl_append, ih (by omega), List.foldl_cons, List.foldl_nil, step,
      HpackDynamicTable.addHeaderField]
    dsimp only
    rw [if_neg (by omega), HpackDynamicTable.evict, if_neg (by dsimp only; omega)]
    dsimp only
    rw [Nat.mod_eq_of_lt (by omega), ← List.replicate_succ, hsize, Nat.succ_mul]

/-- the next one makes the recorded size small again -/
theorem run_long_wraps :
    ((List.replicate 256 (Op.add f)).foldl step (.new (BitVec.ofNat 32 (2 ^ 32 - 1)))).currentSize ≠
      total ((List.replicate 256 (Op.add f)).foldl step (.new (BitVec.ofNat 32 (2 ^ 32 - 1)))).headers := by
  have hok : ¬ AddOk ⟨255 * (2 ^ 24 + 31), 2 ^ 32 - 1, List.replicate 255 f⟩ (.add f) := by
    rw [AddOk, hsize]
    dsimp only
    omega
  rw [List.replicate_succ', List.foldl_append, run_long hsize 255 (le_refl _), List.foldl_cons, List.foldl_nil]
  exact step_wraps (total_long hsize 255).symm (by dsimp only; omega) (by dsimp only; omega) hok

end Long

theorem nil_length_lt : ([] : List (BitVec 8)).length < 2 ^ 16 := Nat.two_pow_pos 16

/-- a field with a value of `n` zeros -/
def zeroField (n : ℕ) (hn : n < 2 ^ 24) : Field := ⟨[], List.replicate n 0, nil_length_lt, List.length_replicate.trans_lt hn⟩

theorem size_zeroField (n : ℕ) (hn : n < 2 ^ 24) : (zeroField n hn).size = 32 + n := by
  rw [Field.size, zeroField, List.length_replicate]
  rfl

theorem longest_lt : 2 ^ 24 - 1 < 2 ^ 24 := Nat.sub_lt (Nat.two_pow_pos 24) Nat.one_pos

/-- a field with the longest value there is -/
def longField : Field := zeroField (2 ^ 24 - 1) longest_lt

theorem size_longField : longField.size = 2 ^ 24 + 31 := size_zeroField (2 ^ 24 - 1) longest_lt

theorem size_wraps :
    ¬ ∀ n, Law (2 ^ 32 - 1) ((List.replicate 256 (Op.add longField)).take n)
      (((List.replicate 256 (Op.add longField)).take n).foldl step (.new (BitVec.ofNat 32 (2 ^ 32 - 1)))) := by
  intro h
  have hnext := (h 256).size_eq
  rw [List.take_of_length_le (by rw [List.length_replicate])] at hnext
  exact run_long_wraps size_longField hnext

end TrafficServer.Http2.Hpack
