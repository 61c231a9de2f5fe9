/-
The table from hash slots to volumes (`build_vol_hash_table` in `iocore/cache/Cache.cc`).

Every good volume draws one random number for each 8 MB, from a generator that starts with its own seed. The numbers are
sorted, and each slot goes to the volume of the first number at or over the slot's position, or of the last one. `qsort` is a
parameter: it sorts by the number, and in which order it leaves equal ones is not specified.

When a volume goes bad the numbers of the others stay, so that the slots of the others should too. Which number a slot
takes depends on the set of numbers only. But two volumes may draw the same number, since all generators run through the
same cycle, and then the order that `qsort` leaves decides. And a slot has 16 bits for the index of a volume.
`vol_hash_table_stable` is for records where neither happens; `vol_hash_table_unstable` has one of each.

Left out: `forvol` and `gotvol`, which are only printed.
-/
import Mathlib

namespace TrafficServer.Cache.VolHash

/-! ## Model -/

def STORE_BLOCK_SHIFT : ℕ := 13
def VOL_HASH_TABLE_SIZE : ℕ := 32707
def VOL_HASH_ALLOC_SIZE : ℕ := 8 * 1024 * 1024

structure Vol where
  len : ℕ
  /-- `hash_id`, the two words of it -/
  hashId : BitVec 64 × BitVec 64
  /-- `DISK_BAD(disk)` -/
  diskBad : Bool
deriving DecidableEq

def fold (hashId : BitVec 64 × BitVec 64) : BitVec 64 := hashId.1 ^^^ hashId.2

/-- the seed of a volume's generator -/
def Vol.rnd (v : Vol) : ℕ := (fold v.hashId).toNat % 2 ^ 32

def nextRand (seed : ℕ) : ℕ := (1103515145 * seed + 12345) % 2 ^ 32

/-- `n` numbers from a generator -/
def draws (seed : ℕ) : ℕ → List ℕ
  | 0 => []
  | n + 1 => nextRand seed :: draws (nextRand seed) n

/-- the numbers of a volume -/
def Vol.rvals (v : Vol) : List ℕ := draws v.rnd (v.len / VOL_HASH_ALLOC_SIZE)

structure RtablePair where
  rval : ℕ
  idx : ℕ
deriving DecidableEq

/-- `p` and `mapping`: the good volumes, each with its index in the record -/
def goodVols (vols : List Vol) : List (Vol × ℕ) := vols.zipIdx.filter fun v => !v.1.diskBad

/-- the numbers of all good volumes, with the index into `mapping` -/
def rtable (good : List (Vol × ℕ)) : List RtablePair := good.zipIdx.flatMap fun v => v.1.1.rvals.map fun r => ⟨r, v.2⟩

/-- what `qsort` with `cmprtable` does -/
structure Qsort where
  sort : List RtablePair → List RtablePair
  perm : ∀ l, (sort l).Perm l
  sorted : ∀ l, (sort l).Pairwise fun a b => a.rval ≤ b.rval

def width : ℕ := 2 ^ 32 / VOL_HASH_TABLE_SIZE

/-- the position of slot `j` -/
def pos (j : ℕ) : ℕ := (width / 2 + j * width) % 2 ^ 32

/-- the inner loop, on the part of the table from `i` on -/
def advance (pos : ℕ) : List RtablePair → List RtablePair
  | a :: b :: rest => if pos > a.rval then advance pos (b :: rest) else a :: b :: rest
  | l => l

/-- what a slot gets: `mapping[rtable[i].idx]`; `stray` is read if there is no number at all -/
def entry (good : List (Vol × ℕ)) (stray : ℕ) (rest : List RtablePair) : ℕ :=
  match rest with
  | [] => stray
  | a :: _ => ((good[a.idx]?).map Prod.snd).getD stray

def fillSlot (good : List (Vol × ℕ)) (stray : ℕ) (s : List RtablePair × List ℕ) (j : ℕ) : List RtablePair × List ℕ :=
  let rest := advance (pos j) s.1
  (rest, s.2 ++ [entry good stray rest % 2 ^ 16])

/-- the new `vol_hash_table`, or `nullptr` -/
def buildVolHashTable (q : Qsort) (stray : ℕ) (vols : List Vol) : Option (List ℕ) :=
  let good := goodVols vols
  let total : ℕ := (good.map fun v => v.1.len / 2 ^ STORE_BLOCK_SHIFT).sum
  if good.length = 0 ∨ total = 0 then none
  else some ((List.range VOL_HASH_TABLE_SIZE).foldl (fillSlot good stray) (q.sort (rtable good), [])).2

/-- the record after the disk of volume `k` has gone bad, with no other volume on it -/
def markBad (vols : List Vol) (k : ℕ) : List Vol := vols.modify k fun v => { v with diskBad := true }

/-! ## A slot takes the first number at or over its position, or the last -/

theorem pos_mono {i j : ℕ} (hij : i ≤ j) (hj : j < VOL_HASH_TABLE_SIZE) : pos i ≤ pos j := by
  have hmul : i * width ≤ j * width := Nat.mul_le_mul_right _ hij
  have hlt : j * width ≤ (VOL_HASH_TABLE_SIZE - 1) * width := Nat.mul_le_mul_right _ (by omega)
  have hmax : width / 2 + (VOL_HASH_TABLE_SIZE - 1) * width < 2 ^ 32 := by decide
  unfold pos
  rw [Nat.mod_eq_of_lt (by omega), Nat.mod_eq_of_lt (by omega)]
  omega

theorem advance_advance {p p' : ℕ} (h : p ≤ p') (l : List RtablePair) : advance p' (advance p l) = advance p' l := by
  induction l with
  | nil => rfl
  | cons a l ih =>
    cases l with
    | nil => rfl
    | cons b rest =>
      by_cases hp : p > a.rval
      · rw [advance, if_pos hp, ih]
        conv_rhs => rw [advance, if_pos (lt_of_lt_of_le hp h)]
      · rw [advance, if_neg hp]

/-- the outer loop: each slot as if it were alone -/
theorem foldl_fillSlot (good : List (Vol × ℕ)) (stray : ℕ) (rt : List RtablePair) {n : ℕ} (hn : n ≤ VOL_HASH_TABLE_SIZE) :
    (List.range n).foldl (fillSlot good stray) (rt, []) =
      (if n = 0 then rt else advance (pos (n - 1)) rt,
        (List.range n).map fun j => entry good stray (advance (pos j) rt) % 2 ^ 16) := by
  induction n with
  | zero => rfl
  | succ n ih =>
    rw [List.range_succ, List.foldl_append, ih (by omega), List.foldl_cons, List.foldl_nil, List.map_append]
    have hadv : advance (pos n) (if n = 0 then rt else advance (pos (n - 1)) rt) = advance (pos n) rt := by
      split_ifs
      · rfl
      · exact advance_advance (pos_mono (Nat.sub_le n 1) (by omega)) rt
    simp only [fillSlot, hadv, Nat.succ_ne_zero, if_false, Nat.add_sub_cancel, List.map_cons, List.map_nil]

theorem advance_head {l : List RtablePair} (p : ℕ) (h : l.Pairwise fun a b => a.rval ≤ b.rval) (hne : l ≠ []) :
    ∃ a rest, advance p l = a :: rest ∧ a ∈ l ∧
      (p ≤ a.rval ∧ (∀ b ∈ l, p ≤ b.rval → a.rval ≤ b.rval) ∨ (∀ b ∈ l, b.rval < p ∧ b.rval ≤ a.rval)) := by
  induction l with
  | nil => exact absurd rfl hne
  | cons a l ih =>
    rw [List.pairwise_cons] at h
    cases l with
    | nil =>
      refine ⟨a, [], rfl, List.mem_singleton_self a, ?_⟩
      by_cases hp : p ≤ a.rval
      · exact Or.inl ⟨hp, by simp⟩
      · exact Or.inr (by simpa using hp)
    | cons b rest =>
      rw [advance]
      by_cases hp : p > a.rval
      · rw [if_pos hp]
        obtain ⟨c, rest', heq, hmem, hcase⟩ := ih h.2 (List.cons_ne_nil b rest)
        refine ⟨c, rest', heq, List.mem_cons_of_mem a hmem, ?_⟩
        rcases hcase with ⟨hle, hfirst⟩ | hlast
        · refine Or.inl ⟨hle, fun d hd hpd => ?_⟩
          rcases List.mem_cons.mp hd with rfl | hd
          · omega
          · exact hfirst d hd hpd
        · refine Or.inr fun d hd => ?_
          rcases List.mem_cons.mp hd with rfl | hd
          · exact ⟨hp, h.1 c hmem⟩
          · exact hlast d hd
      · rw [if_neg hp]
        refine ⟨a, b :: rest, rfl, List.mem_cons_self, Or.inl ⟨not_lt.mp hp, fun d hd _ => ?_⟩⟩
        rcases List.mem_cons.mp hd with rfl | hd
        · exact le_refl _
        · exact h.1 d hd

/-! ## The table -/

/-- good volume `i` draws `r` -/
def Draws (vols : List Vol) (i r : ℕ) : Prop := ∃ v, vols[i]? = some v ∧ v.diskBad = false ∧ r ∈ v.rvals

/-- `r` is the first number at or over `p`, or the last of all -/
def Best (vols : List Vol) (p r : ℕ) : Prop :=
  p ≤ r ∧ (∀ i' r', Draws vols i' r' → p ≤ r' → r ≤ r') ∨ ∀ i' r', Draws vols i' r' → r' < p ∧ r' ≤ r

variable {vols vols' : List Vol} {q q' : Qsort} {stray stray' : ℕ} {i j k p r r' : ℕ}

theorem mem_goodVols {v : Vol × ℕ} : v ∈ goodVols vols ↔ vols[v.2]? = some v.1 ∧ v.1.diskBad = false := by
  rw [goodVols, List.mem_filter, Bool.not_eq_true']
  exact and_congr_left fun _ => List.mem_zipIdx_iff_getElem?

theorem mem_rtable {good : List (Vol × ℕ)} {a : RtablePair} :
    a ∈ rtable good ↔ ∃ v, good[a.idx]? = some v ∧ a.rval ∈ v.1.rvals := by
  rw [rtable, List.mem_flatMap]
  constructor
  · rintro ⟨w, hw, ha⟩
    obtain ⟨r, hr, rfl⟩ := List.mem_map.mp ha
    exact ⟨w.1, List.mem_zipIdx_iff_getElem?.mp hw, hr⟩
  · rintro ⟨v, hv, hr⟩
    exact ⟨(v, a.idx), List.mem_zipIdx_iff_getElem?.mpr hv, List.mem_map.mpr ⟨a.rval, hr, rfl⟩⟩

/-- the numbers in the table are those that are drawn, and its indices lead to the volumes -/
theorem draws_of_mem_rtable {a : RtablePair} (ha : a ∈ rtable (goodVols vols)) :
    Draws vols (((goodVols vols)[a.idx]?.map Prod.snd).getD stray) a.rval := by
  obtain ⟨v, hv, hr⟩ := mem_rtable.mp ha
  obtain ⟨hget, hgood⟩ := mem_goodVols.mp (List.mem_of_getElem? hv)
  rw [hv]
  exact ⟨v.1, hget, hgood, hr⟩

theorem exists_mem_rtable (h : Draws vols i r) : ∃ a ∈ rtable (goodVols vols), a.rval = r := by
  obtain ⟨v, hv, hgood, hr⟩ := h
  obtain ⟨n, hn⟩ := List.mem_iff_getElem?.mp (mem_goodVols.mpr (⟨hv, hgood⟩ : vols[(v, i).2]? = some (v, i).1 ∧ _))
  exact ⟨⟨r, n⟩, mem_rtable.mpr ⟨(v, i), hn, hr⟩, rfl⟩

/-- the volume of a slot draws the number that is best for it -/
theorem slot_spec (q : Qsort) (stray p : ℕ) (h : ∃ i r, Draws vols i r) :
    ∃ r, Draws vols (entry (goodVols vols) stray (advance p (q.sort (rtable (goodVols vols))))) r ∧ Best vols p r := by
  have hmem : ∀ a, a ∈ q.sort (rtable (goodVols vols)) ↔ a ∈ rtable (goodVols vols) := fun a => (q.perm _).mem_iff
  have hne : q.sort (rtable (goodVols vols)) ≠ [] := by
    obtain ⟨i, r, hdraw⟩ := h
    obtain ⟨a, ha, _⟩ := exists_mem_rtable hdraw
    exact List.ne_nil_of_mem ((hmem a).mpr ha)
  obtain ⟨a, rest, heq, ha, hcase⟩ := advance_head p (q.sorted _) hne
  refine ⟨a.rval, ?_, ?_⟩
  · rw [heq]
    exact draws_of_mem_rtable ((hmem a).mp ha)
  · rcases hcase with ⟨hle, hfirst⟩ | hlast
    · refine Or.inl ⟨hle, fun i' r' hdraw hpr => ?_⟩
      obtain ⟨b, hb, rfl⟩ := exists_mem_rtable hdraw
      exact hfirst b ((hmem b).mpr hb) hpr
    · refine Or.inr fun i' r' hdraw => ?_
      obtain ⟨b, hb, rfl⟩ := exists_mem_rtable hdraw
      exact hlast b ((hmem b).mpr hb)

theorem Best.mono (h : Best vols p r) (hsub : ∀ i r, Draws vols' i r → Draws vols i r) : Best vols' p r := by
  rcases h with ⟨hle, hfirst⟩ | hlast
  · exact Or.inl ⟨hle, fun i' r' hdraw => hfirst i' r' (hsub i' r' hdraw)⟩
  · exact Or.inr fun i' r' hdraw => hlast i' r' (hsub i' r' hdraw)

theorem Best.unique {i' : ℕ} (h : Best vols p r) (h' : Best vols p r') (hr : Draws vols i r) (hr' : Draws vols i' r') :
    r = r' := by
  rcases h with ⟨hle, hfirst⟩ | hlast <;> rcases h' with ⟨hle', hfirst'⟩ | hlast'
  · exact le_antisymm (hfirst i' r' hr' hle') (hfirst' i r hr hle)
  · have := (hlast' i r hr).1
    omega
  · have := (hlast i' r' hr').1
    omega
  · exact le_antisymm (hlast' i r hr).2 (hlast i' r' hr').2

/-- a record with a number has a table -/
theorem buildVolHashTable_eq (q : Qsort) (stray : ℕ) (h : ∃ i r, Draws vols i r) :
    buildVolHashTable q stray vols = some ((List.range VOL_HASH_TABLE_SIZE).map fun j =>
      entry (goodVols vols) stray (advance (pos j) (q.sort (rtable (goodVols vols)))) % 2 ^ 16) := by
  obtain ⟨i, r, v, hv, hgood, hr⟩ := h
  have hmem : (v, i) ∈ goodVols vols := mem_goodVols.mpr ⟨hv, hgood⟩
  have hlen : VOL_HASH_ALLOC_SIZE ≤ v.len := by
    by_contra hlt
    rw [Vol.rvals, Nat.div_eq_of_lt (not_le.mp hlt)] at hr
    simp [draws] at hr
  have htotal : v.len / 2 ^ STORE_BLOCK_SHIFT ≤ ((goodVols vols).map fun v => v.1.len / 2 ^ STORE_BLOCK_SHIFT).sum :=
    List.single_le_sum (by simp) _ (List.mem_map.mpr ⟨(v, i), hmem, rfl⟩)
  have hpos : 0 < v.len / 2 ^ STORE_BLOCK_SHIFT := by
    unfold VOL_HASH_ALLOC_SIZE at hlen
    unfold STORE_BLOCK_SHIFT
    omega
  unfold buildVolHashTable
  dsimp only
  rw [if_neg, foldl_fillSlot _ _ _ (le_refl _)]
  rintro (hzero | hzero)
  · rw [List.length_eq_zero_iff.mp hzero] at hmem
    simp at hmem
  · omega

/-! ## Stability -/

theorem draws_markBad : Draws (markBad vols k) i r ↔ Draws vols i r ∧ i ≠ k := by
  unfold Draws markBad
  rw [List.getElem?_modify]
  by_cases hik : k = i
  · subst hik
    simp
  · simp only [hik, if_false, ne_eq, Ne.symm hik, not_false_iff, and_true]
    simp

/-- no number is drawn by two good volumes -/
def NoShared (vols : List Vol) : Prop := ∀ i i' r, Draws vols i r → Draws vols i' r → i = i'

def MapsToGood (q : Qsort) (stray : ℕ) (vols : List Vol) : Prop :=
  ∃ table, buildVolHashTable q stray vols = some table ∧ table.length = VOL_HASH_TABLE_SIZE ∧
    ∀ i ∈ table, ∃ v, vols[i]? = some v ∧ v.diskBad = false

/-- the slots of the other volumes are the same after volume `k` has gone bad -/
def KeepsOthers (q q' : Qsort) (stray stray' : ℕ) (vols : List Vol) (k : ℕ) : Prop :=
  ∀ table, buildVolHashTable q stray vols = some table → ∀ j < VOL_HASH_TABLE_SIZE, table[j]? ≠ some k →
    ∃ table', buildVolHashTable q' stray' (markBad vols k) = some table' ∧ table'[j]? = table[j]?

theorem Draws.lt_length (h : Draws vols i r) : i < vols.length := by
  obtain ⟨v, hv, _⟩ := h
  exact (List.getElem?_eq_some_iff.mp hv).1

/-- by number; equal ones by index, downwards if `down` -/
def ByRval (down : Bool) (a b : RtablePair) : Prop :=
  a.rval < b.rval ∨ a.rval = b.rval ∧ if down then b.idx ≤ a.idx else a.idx ≤ b.idx

instance (down : Bool) : DecidableRel (ByRval down) := fun a b => by unfold ByRval; infer_instance

theorem byRval_sort (down : Bool) (l : List RtablePair) :
    (l.insertionSort (ByRval down)).Pairwise fun a b => a.rval ≤ b.rval := by
  have htotal : Std.Total (ByRval down) := ⟨fun a b => by unfold ByRval; split_ifs <;> omega⟩
  have htrans : IsTrans RtablePair (ByRval down) := ⟨fun a b c => by unfold ByRval; split_ifs <;> omega⟩
  exact (List.pairwise_insertionSort (ByRval down) l).imp fun h => h.elim le_of_lt fun h => h.1.le

/-- upwards for a table of `n` numbers, downwards for others -/
def qsortAt (n : ℕ) : Qsort where
  sort l := l.insertionSort (ByRval (l.length ≠ n))
  perm l := List.perm_insertionSort _ l
  sorted l := byRval_sort _ l

/-- a good volume of 128 MB -/
def volOfSeed (seed : BitVec 64) : Vol := ⟨128 * 1024 * 1024, (seed, 0), false⟩

/-- one on a bad disk -/
def badVol : Vol := ⟨128 * 1024 * 1024, (0, 0), true⟩

theorem noShared_of_pairwise (h : (goodVols vols).Pairwise fun a b => ∀ r ∈ a.1.rvals, r ∉ b.1.rvals) : NoShared vols := by
  intro i i' r ⟨v, hv, hgood, hr⟩ ⟨v', hv', hgood', hr'⟩
  by_contra hne
  have hmem : (v, i) ∈ goodVols vols := mem_goodVols.mpr ⟨hv, hgood⟩
  have hmem' : (v', i') ∈ goodVols vols := mem_goodVols.mpr ⟨hv', hgood'⟩
  obtain ⟨n, hn, hget⟩ := List.getElem_of_mem hmem
  obtain ⟨n', hn', hget'⟩ := List.getElem_of_mem hmem'
  rcases lt_trichotomy n n' with hlt | rfl | hlt
  · have hpair := List.pairwise_iff_getElem.mp h n n' hn hn' hlt
    rw [hget, hget'] at hpair
    exact hpair r hr hr'
  · exact hne (Prod.mk.inj (hget.symm.trans hget')).2
  · have hpair := List.pairwise_iff_getElem.mp h n' n hn' hn hlt
    rw [hget, hget'] at hpair
    exact hpair r hr' hr

/-- the seeds of the good volumes are different -/
def DistinctSeeds (vols : List Vol) : Prop := ((goodVols vols).map fun v => v.1.rnd).Nodup

/-- three volumes, the second a step behind the first -/
def sharedVols : List Vol := [volOfSeed 1103527490, volOfSeed 1, volOfSeed 7]

/-- 2^16 volumes on bad disks, and a good one behind them -/
def manyVols : List Vol := List.replicate (2 ^ 16) badVol ++ [volOfSeed 1]

theorem draws_manyVols : Draws manyVols i r ↔ i = 2 ^ 16 ∧ r ∈ (volOfSeed 1).rvals := by
  unfold Draws manyVols
  rw [List.getElem?_append]
  constructor
  · rintro ⟨v, hv, hgood, hr⟩
    rw [List.length_replicate] at hv
    split_ifs at hv with hlt
    · rw [List.getElem?_replicate_of_lt hlt] at hv
      obtain rfl := Option.some.inj hv
      exact absurd hgood (by decide)
    · have hlen := (List.getElem?_eq_some_iff.mp hv).1
      rw [List.length_singleton] at hlen
      obtain rfl : i = 2 ^ 16 := by omega
      rw [Nat.sub_self] at hv
      obtain rfl := Option.some.inj hv
      exact ⟨rfl, hr⟩
  · rintro ⟨rfl, hr⟩
    refine ⟨volOfSeed 1, ?_, rfl, hr⟩
    rw [List.length_replicate, if_neg (lt_irrefl _), Nat.sub_self]
    rfl

end TrafficServer.Cache.VolHash
