/-
The vector of the alternates of an object (`CacheHTTPInfoVector` in `iocore/cache/CacheHttp.cc`, `CacheArray` in
`P_CacheArray.h`).

The vector is an array of infos, each a pointer to an alternate, and a count. `remove` and `detach` close the gap with a loop of
their own. `remove` moves slot `idx + 1` to slot `idx`; `detach` moves slot `i + i` to slot `i`.

Results: `alternates_as_list`, over every run of insertions and deletions with valid indices the vector is the list that these
make of the empty one exactly if every `detach` finds in the slots it takes from what the next slots hold; `detachOk_middle`:
that is so for the second of three.
Witness: `detach_first`, the first of two.

The array is a list of the size that is allocated. A `detach` may read behind it: what is there is part of the operation.
-/
import TrafficServer.Lib.Run

namespace TrafficServer.Cache

open TrafficServer.Run

def FAST_DATA_SIZE : ℕ := 4

/-- an info; `none` is one without alternate -/
abbrev CacheHTTPInfo (P : Type) := Option P

/-- `CacheArray::operator()`: the array with a slot for `idx`; new slots have the default, an info without alternate -/
def cacheArrayGrow {P : Type} (data : List (CacheHTTPInfo P)) (idx : ℕ) : List (CacheHTTPInfo P) :=
  if idx ≥ data.length then
    let newSize := if data.length = 0 then FAST_DATA_SIZE else data.length * 2
    let newSize := if idx ≥ newSize then idx + 1 else newSize
    data ++ List.replicate (newSize - data.length) none
  else data

structure CacheHTTPInfoVector (P : Type) where
  data : List (CacheHTTPInfo P)
  xcount : ℕ

namespace CacheHTTPInfoVector

variable {P : Type}

/-- the array starts with `FAST_DATA_SIZE` slots -/
def new : CacheHTTPInfoVector P := ⟨cacheArrayGrow [] (FAST_DATA_SIZE - 1), 0⟩

/-- `insert`, without an index for `CACHE_ALT_INDEX_DEFAULT`; the index is returned -/
def insert (v : CacheHTTPInfoVector P) (info : CacheHTTPInfo P) (index : Option ℕ) : CacheHTTPInfoVector P × ℕ :=
  match index with
  | none => (⟨(cacheArrayGrow v.data v.xcount).set v.xcount info, v.xcount + 1⟩, v.xcount)
  | some index => (⟨(cacheArrayGrow v.data index).set index info, v.xcount⟩, index)

/-- a slot, or the memory behind the array -/
def slot (behind : ℕ → CacheHTTPInfo P) (data : List (CacheHTTPInfo P)) (i : ℕ) : CacheHTTPInfo P := data.getD i (behind i)

/-- the loop of `detach` from `i` on, `n` times -/
def detachLoop (behind : ℕ → CacheHTTPInfo P) : ℕ → ℕ → List (CacheHTTPInfo P) → List (CacheHTTPInfo P)
  | 0, _, data => data
  | n + 1, i, data => detachLoop behind n (i + 1) (data.set i (slot behind data (i + i)))

/-- The vector and what `r` is set to. The alternate in the slot is destroyed, which clears the slot. -/
def detach (behind : ℕ → CacheHTTPInfo P) (v : CacheHTTPInfoVector P) (idx : ℕ) : CacheHTTPInfoVector P × CacheHTTPInfo P :=
  let r := slot behind v.data idx
  let data := v.data.set idx none
  (⟨detachLoop behind (v.xcount - 1 - idx) idx data, v.xcount - 1⟩, r)

/-- the loop of `remove` from `idx` on, `n` times -/
def removeLoop (behind : ℕ → CacheHTTPInfo P) : ℕ → ℕ → List (CacheHTTPInfo P) → List (CacheHTTPInfo P)
  | 0, _, data => data
  | n + 1, idx, data => removeLoop behind n (idx + 1) (data.set idx (slot behind data (idx + 1)))

def remove (behind : ℕ → CacheHTTPInfo P) (v : CacheHTTPInfoVector P) (idx : ℕ) (destroy : Bool) : CacheHTTPInfoVector P :=
  let data := if destroy then v.data.set idx none else v.data
  ⟨removeLoop behind (v.xcount - 1 - idx) idx data, v.xcount - 1⟩

/-- what the vector stands for -/
def alternates (v : CacheHTTPInfoVector P) : List (CacheHTTPInfo P) := v.data.take v.xcount

end CacheHTTPInfoVector

open CacheHTTPInfoVector

variable {P : Type} {v : CacheHTTPInfoVector P} {behind : ℕ → CacheHTTPInfo P} {data : List (CacheHTTPInfo P)} {i j n idx : ℕ}

/-! ## Operations -/

inductive VecOp (P : Type) where
  | insert (info : CacheHTTPInfo P) (index : Option ℕ)
  | detach (idx : ℕ) (behind : ℕ → CacheHTTPInfo P)
  | remove (idx : ℕ) (destroy : Bool) (behind : ℕ → CacheHTTPInfo P)

namespace VecOp

def step (v : CacheHTTPInfoVector P) : VecOp P → CacheHTTPInfoVector P
  | .insert info index => (v.insert info index).1
  | .detach idx behind => (v.detach behind idx).1
  | .remove idx destroy behind => v.remove behind idx destroy

/-- the index is that of an alternate -/
def Valid (v : CacheHTTPInfoVector P) : VecOp P → Prop
  | .insert _ index => ∀ i, index = some i → i < v.xcount
  | .detach idx _ => idx < v.xcount
  | .remove idx _ _ => idx < v.xcount

/-- the operation on a list -/
def onList (l : List (CacheHTTPInfo P)) : VecOp P → List (CacheHTTPInfo P)
  | .insert info none => l ++ [info]
  | .insert info (some i) => l.set i info
  | .detach idx _ => l.eraseIdx idx
  | .remove idx _ _ => l.eraseIdx idx

/-- where `detach` takes slot `j` from, there is what slot `j + 1` holds; the slot of the alternate itself is empty by then -/
def DetachOk (v : CacheHTTPInfoVector P) : VecOp P → Prop
  | .detach idx behind => ∀ j, idx ≤ j → j + 1 < v.xcount → slot behind (v.data.set idx none) (j + j) = slot behind v.data (j + 1)
  | _ => True

end VecOp

/-! ## The array -/

/-- the count is within the array -/
def InArray (v : CacheHTTPInfoVector P) : Prop := v.xcount ≤ v.data.length

theorem slot_of_lt (h : i < data.length) : data[i]? = some (slot behind data i) := by
  simp [slot, h]

theorem lt_length_grow (data : List (CacheHTTPInfo P)) (idx : ℕ) : idx < (cacheArrayGrow data idx).length := by
  unfold cacheArrayGrow
  by_cases hidx : idx ≥ data.length
  · generalize (if data.length = 0 then FAST_DATA_SIZE else data.length * 2) = m
    rw [if_pos hidx, List.length_append, List.length_replicate]
    split <;> omega
  · rw [if_neg hidx]
    omega

theorem grow_prefix (data : List (CacheHTTPInfo P)) (idx : ℕ) : data <+: cacheArrayGrow data idx := by
  unfold cacheArrayGrow
  dsimp only
  split
  · exact List.prefix_append _ _
  · exact List.prefix_rfl

theorem take_grow (h : n ≤ data.length) : (cacheArrayGrow data idx).take n = data.take n := by
  obtain ⟨t, ht⟩ := grow_prefix data idx
  rw [← ht, List.take_append_of_le_length h]

theorem length_removeLoop : (removeLoop behind n idx data).length = data.length := by
  induction n generalizing idx data with
  | zero => rfl
  | succ n ih => rw [removeLoop, ih, List.length_set]

theorem length_detachLoop : (detachLoop behind n i data).length = data.length := by
  induction n generalizing i data with
  | zero => rfl
  | succ n ih => rw [detachLoop, ih, List.length_set]

/-- the loop moves `n` slots by one -/
theorem getElem?_removeLoop (h : idx + n < data.length) :
    (removeLoop behind n idx data)[j]? = if idx ≤ j ∧ j < idx + n then data[j + 1]? else data[j]? := by
  induction n generalizing idx data with
  | zero => rw [removeLoop, if_neg (by omega)]
  | succ n ih =>
    rw [removeLoop, ih (by rw [List.length_set]; omega)]
    by_cases hin : idx + 1 ≤ j ∧ j < idx + 1 + n
    · rw [if_pos hin, if_pos (by omega), List.getElem?_set_ne (by omega)]
    · rw [if_neg hin]
      by_cases hj : j = idx
      · subst hj
        rw [if_pos (by omega), List.getElem?_set_self (by omega), ← slot_of_lt (by omega)]
      · rw [if_neg (by omega), List.getElem?_set_ne (Ne.symm hj)]

/-- A slot is read by the loop before it is written, slot 0 apart, which is read when it is written. -/
theorem getElem?_detachLoop (h : i + n < data.length) :
    (detachLoop behind n i data)[j]? = if i ≤ j ∧ j < i + n then some (slot behind data (j + j)) else data[j]? := by
  induction n generalizing i data with
  | zero => rw [detachLoop, if_neg (by omega)]
  | succ n ih =>
    have hslot : i + 1 ≤ j → slot behind (data.set i (slot behind data (i + i))) (j + j) = slot behind data (j + j) := by
      intro hle
      simp [slot, List.getD_eq_getElem?_getD, List.getElem?_set_ne (by omega : i ≠ j + j)]
    rw [detachLoop, ih (by rw [List.length_set]; omega), List.getElem?_set]
    by_cases hj : j = i
    · subst hj
      rw [if_neg (by omega), if_pos rfl, if_pos (by omega), if_pos (by omega)]
    · rw [if_neg (Ne.symm hj)]
      by_cases hin : i + 1 ≤ j ∧ j < i + 1 + n
      · rw [if_pos hin, if_pos (by omega), hslot hin.1]
      · rw [if_neg hin, if_neg (by omega)]

/-! ## One operation -/

theorem getElem?_alternates (v : CacheHTTPInfoVector P) (j : ℕ) : v.alternates[j]? = if j < v.xcount then v.data[j]? else none :=
  List.getElem?_take

theorem insert_append (h : InArray v) (info : CacheHTTPInfo P) :
    InArray (v.insert info none).1 ∧ (v.insert info none).1.alternates = v.alternates ++ [info] := by
  have hlt := lt_length_grow v.data v.xcount
  constructor
  · unfold InArray CacheHTTPInfoVector.insert
    rw [List.length_set]
    exact hlt
  · change ((cacheArrayGrow v.data v.xcount).set v.xcount info).take (v.xcount + 1) = v.data.take v.xcount ++ [info]
    rw [List.take_add_one, List.getElem?_set_self hlt, List.take_set_of_le (le_refl _), take_grow h, Option.toList_some]

theorem insert_at (h : InArray v) (info : CacheHTTPInfo P) (hidx : idx < v.xcount) :
    InArray (v.insert info (some idx)).1 ∧ (v.insert info (some idx)).1.alternates = v.alternates.set idx info := by
  have hgrow : cacheArrayGrow v.data idx = v.data := if_neg (by unfold InArray at h; omega)
  unfold InArray CacheHTTPInfoVector.insert
  dsimp only
  rw [hgrow]
  exact ⟨by rw [List.length_set]; exact h, (List.take_set ..)⟩

theorem remove_alternate (h : InArray v) (hidx : idx < v.xcount) (destroy : Bool) :
    InArray (v.remove behind idx destroy) ∧ (v.remove behind idx destroy).alternates = v.alternates.eraseIdx idx := by
  unfold InArray at h
  -- the slot that `destroy` clears is written over or falls behind the count
  obtain ⟨data, hdata, hlen, hsame⟩ : ∃ data, (if destroy then v.data.set idx none else v.data) = data ∧
      data.length = v.data.length ∧ ∀ j, j ≠ idx → data[j]? = v.data[j]? := by
    cases destroy with
    | false => exact ⟨_, rfl, rfl, fun _ _ => rfl⟩
    | true => exact ⟨_, rfl, List.length_set, fun j hj => List.getElem?_set_ne (Ne.symm hj)⟩
  have hremove : v.remove behind idx destroy = ⟨removeLoop behind (v.xcount - 1 - idx) idx data, v.xcount - 1⟩ := by
    rw [← hdata]
    rfl
  rw [hremove]
  constructor
  · change v.xcount - 1 ≤ _
    rw [length_removeLoop, hlen]
    omega
  · apply List.ext_getElem?
    intro j
    rw [getElem?_alternates, List.getElem?_eraseIdx, getElem?_alternates, getElem?_alternates]
    dsimp only
    rw [getElem?_removeLoop (by omega)]
    by_cases hj : j < v.xcount - 1
    · rw [if_pos hj]
      by_cases hle : idx ≤ j
      · rw [if_pos (by omega), if_neg (by omega), if_pos (by omega), hsame _ (by omega)]
      · rw [if_neg (by omega), if_pos (by omega), if_pos (by omega), hsame _ (by omega)]
    · rw [if_neg hj, if_neg (by omega), if_neg (by omega)]

/-- a `detach` deletes the alternate exactly if what it moves is what stands in the next slots -/
theorem detach_alternate (h : InArray v) (hidx : idx < v.xcount) :
    InArray (v.detach behind idx).1 ∧
    ((v.detach behind idx).1.alternates = v.alternates.eraseIdx idx ↔ VecOp.DetachOk v (.detach idx behind)) := by
  unfold InArray at h
  have hat : ∀ j, (v.detach behind idx).1.alternates[j]? = if j < v.xcount - 1 then
      (if idx ≤ j then some (slot behind (v.data.set idx none) (j + j)) else v.data[j]?) else none := by
    intro j
    rw [getElem?_alternates]
    change (if j < v.xcount - 1 then (detachLoop behind (v.xcount - 1 - idx) idx (v.data.set idx none))[j]? else none) = _
    by_cases hj : j < v.xcount - 1
    · rw [if_pos hj, if_pos hj, getElem?_detachLoop (by rw [List.length_set]; omega)]
      by_cases hle : idx ≤ j
      · rw [if_pos (by omega), if_pos hle]
      · rw [if_neg (by omega), if_neg hle, List.getElem?_set_ne (by omega)]
    · rw [if_neg hj, if_neg hj]
  have herase : ∀ j, (v.alternates.eraseIdx idx)[j]? = if j < v.xcount - 1 then
      (if idx ≤ j then some (slot behind v.data (j + 1)) else v.data[j]?) else none := by
    intro j
    rw [List.getElem?_eraseIdx, getElem?_alternates, getElem?_alternates]
    by_cases hj : j < v.xcount - 1
    · rw [if_pos hj]
      by_cases hle : idx ≤ j
      · rw [if_pos hle, if_neg (by omega), if_pos (by omega), slot_of_lt (by omega)]
      · rw [if_neg hle, if_pos (by omega), if_pos (by omega)]
    · rw [if_neg hj, if_neg (by omega), if_neg (by omega)]
  constructor
  · change v.xcount - 1 ≤ (detachLoop behind (v.xcount - 1 - idx) idx (v.data.set idx none)).length
    rw [length_detachLoop, List.length_set]
    omega
  · constructor
    · intro heq j hle hj
      have hj' := congrArg (fun l => l[j]?) heq
      simp only [hat, herase] at hj'
      have hlt : j < v.xcount - 1 := by omega
      rw [if_pos hlt, if_pos hlt, if_pos hle, if_pos hle] at hj'
      exact Option.some.inj hj'
    · intro hok
      apply List.ext_getElem?
      intro j
      rw [hat, herase]
      by_cases hj : j < v.xcount - 1
      · rw [if_pos hj, if_pos hj]
        by_cases hle : idx ≤ j
        · rw [if_pos hle, if_pos hle, hok j hle (by omega)]
        · rw [if_neg hle, if_neg hle]
      · rw [if_neg hj, if_neg hj]

/-! ## Which deletions are right -/

/-- one slot is moved, from `1 + 1` to 1 -/
theorem detachOk_middle (h : v.xcount = 3) : VecOp.DetachOk v (.detach 1 behind) := by
  intro j hle hj
  obtain rfl : j = 1 := by omega
  simp [slot, List.getD_eq_getElem?_getD]

/-! ## Runs -/

theorem step_inArray (h : InArray v) {op : VecOp P} (hop : VecOp.Valid v op) : InArray (VecOp.step v op) := by
  cases op with
  | insert info index =>
    cases index with
    | none => exact (insert_append h info).1
    | some i => exact (insert_at h info (hop i rfl)).1
  | detach idx behind => exact (detach_alternate h hop).1
  | remove idx destroy behind => exact (remove_alternate h hop destroy).1

theorem step_alternates (h : InArray v) {op : VecOp P} (hop : VecOp.Valid v op) :
    (VecOp.step v op).alternates = VecOp.onList v.alternates op ↔ VecOp.DetachOk v op := by
  cases op with
  | insert info index =>
    cases index with
    | none => exact iff_of_true (insert_append h info).2 trivial
    | some i => exact iff_of_true (insert_at h info (hop i rfl)).2 trivial
  | detach idx behind => exact (detach_alternate h hop).2
  | remove idx destroy behind => exact iff_of_true (remove_alternate h hop destroy).2 trivial

theorem alternates_as_list (ops : List (VecOp P)) (hvalid : Along VecOp.step VecOp.Valid CacheHTTPInfoVector.new ops) :
    (∀ n, ((ops.take n).foldl VecOp.step CacheHTTPInfoVector.new).alternates = (ops.take n).foldl VecOp.onList []) ↔
      Along VecOp.step VecOp.DetachOk CacheHTTPInfoVector.new ops := by
  have hnew : InArray (CacheHTTPInfoVector.new : CacheHTTPInfoVector P) ∧
      (CacheHTTPInfoVector.new : CacheHTTPInfoVector P).alternates = ([] : List (VecOp P)).foldl VecOp.onList [] := ⟨Nat.zero_le _, rfl⟩
  have hiff := along_iff_history (I := fun m v => InArray v ∧ v.alternates = m.foldl VecOp.onList [])
    (Q := fun m v => v.alternates = m.foldl VecOp.onList []) (fun m v h => h.2) (P := VecOp.DetachOk) ?_ ?_ hvalid hnew
  · simpa using hiff
  · rintro m v op ⟨harray, heq⟩ hop hok
    refine ⟨step_inArray harray hop, ?_⟩
    rw [List.foldl_append, ← heq]
    exact (step_alternates harray hop).mpr hok
  · rintro m v op ⟨harray, heq⟩ hop hbad hlist
    rw [List.foldl_append, ← heq] at hlist
    exact hbad ((step_alternates harray hop).mp hlist)

/-- three alternates, of which the second goes with `detach` and the first with `remove` -/
def threeOps : List (VecOp ℕ) :=
  [.insert (some 10) none, .insert (some 11) none, .insert (some 12) none, .detach 1 fun _ => none, .remove 0 true fun _ => none]

theorem alternates_as_list_three :
    (threeOps.foldl VecOp.step CacheHTTPInfoVector.new).alternates = [some 12] ∧
    ∀ n, ((threeOps.take n).foldl VecOp.step CacheHTTPInfoVector.new).alternates = (threeOps.take n).foldl VecOp.onList [] := by
  refine ⟨by decide, (alternates_as_list threeOps ?_).mpr ?_⟩
  · exact ⟨nofun, nofun, nofun, (by decide : 1 < 3), (by decide : 0 < 2), trivial⟩
  · exact ⟨trivial, trivial, trivial, detachOk_middle rfl, trivial, trivial⟩

/-- **The first of two alternates is not deleted, the second one is lost.** -/
theorem detach_first : ¬ ∀ n,
    ((([.insert (some 10) none, .insert (some 11) none, .detach 0 fun _ => none] : List (VecOp ℕ)).take n).foldl VecOp.step
      CacheHTTPInfoVector.new).alternates =
    (([.insert (some 10) none, .insert (some 11) none, .detach 0 fun _ => none] : List (VecOp ℕ)).take n).foldl VecOp.onList [] := by
  intro h
  exact absurd (h 3) (by decide)

end TrafficServer.Cache
