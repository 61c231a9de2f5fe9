/-
The chain of fragment keys (`next_CacheKey` and `prev_CacheKey` of P_CacheInternal.h, with the permutation tables of
CacheDir.cc).

The fragments of an object are written under `earliest_key`, then under `next_CacheKey` of it, and so on; a reader that seeks
walks the same chain in both directions. `nextCacheKey` replaces the bytes of a key from the front, each by the table's value
at its sum with the new byte before it; `prevCacheKey` undoes this from the back.

The two functions of the source work on keys in memory and are called with one object for both arguments, too: `next_CacheKey`
and `prev_CacheKey` are their loops, byte by byte, and `next_CacheKey_eq` and `prev_CacheKey_eq` say that they store the keys
above.

Results: `prev_nextCacheKey` and `next_prevCacheKey`, each way undoes the other, for every key; `prev_fragmentKey` says so of the
keys of the fragments; `fragment_key_chain` is all of this for the loops.
-/
import TrafficServer.Cache.Dir

namespace TrafficServer.Cache

/-- permutation table of `next_CacheKey` -/
def CacheKey_next_table : List ℕ :=
  [21, 53, 167, 51, 255, 126, 241, 151, 115, 66, 155, 174, 226, 215, 80, 188, 12, 95, 8, 24, 162, 201, 46, 104, 79,
   172, 39, 68, 56, 144, 142, 217, 101, 62, 14, 108, 120, 90, 61, 47, 132, 199, 110, 166, 83, 125, 57, 65, 19, 130,
   148, 116, 228, 189, 170, 1, 71, 0, 252, 184, 168, 177, 88, 229, 242, 237, 183, 55, 13, 212, 240, 81, 211, 74,
   195, 205, 147, 93, 30, 87, 86, 63, 135, 102, 233, 106, 118, 163, 107, 10, 243, 136, 160, 119, 43, 161, 206, 141,
   203, 78, 175, 36, 37, 140, 224, 197, 185, 196, 248, 84, 122, 73, 152, 157, 18, 225, 219, 145, 45, 2, 171, 249,
   173, 32, 143, 137, 69, 41, 35, 89, 33, 98, 179, 214, 114, 231, 251, 123, 180, 194, 29, 3, 178, 31, 192, 164, 15,
   234, 26, 230, 91, 156, 5, 16, 23, 244, 58, 50, 4, 67, 134, 165, 60, 235, 250, 7, 138, 216, 49, 139, 191, 154,
   11, 52, 239, 59, 111, 245, 9, 64, 25, 129, 247, 232, 190, 246, 109, 22, 112, 210, 221, 181, 92, 169, 48, 100,
   193, 77, 103, 133, 70, 220, 207, 223, 176, 204, 76, 186, 200, 208, 158, 182, 227, 222, 131, 38, 187, 238, 6, 34,
   253, 128, 146, 44, 94, 127, 105, 153, 113, 20, 27, 124, 159, 17, 72, 218, 96, 149, 213, 42, 28, 254, 202, 40,
   117, 82, 97, 209, 54, 236, 121, 75, 85, 150, 99, 198]

/-- permutation table of `prev_CacheKey` -/
def CacheKey_prev_table : List ℕ :=
  [57, 55, 119, 141, 158, 152, 218, 165, 18, 178, 89, 172, 16, 68, 34, 146, 153, 233, 114, 48, 229, 0, 187, 154,
   19, 180, 148, 230, 240, 140, 78, 143, 123, 130, 219, 128, 101, 102, 215, 26, 243, 127, 239, 94, 223, 118, 22,
   39, 194, 168, 157, 3, 173, 1, 248, 67, 28, 46, 156, 175, 162, 38, 33, 81, 179, 47, 9, 159, 27, 126, 200, 56,
   234, 111, 73, 251, 206, 197, 99, 24, 14, 71, 245, 44, 109, 252, 80, 79, 62, 129, 37, 150, 192, 77, 224, 17, 236,
   246, 131, 254, 195, 32, 83, 198, 23, 226, 85, 88, 35, 186, 42, 176, 188, 228, 134, 8, 51, 244, 86, 93, 36, 250,
   110, 137, 231, 45, 5, 225, 221, 181, 49, 214, 40, 199, 160, 82, 91, 125, 166, 169, 103, 97, 30, 124, 29, 117,
   222, 76, 50, 237, 253, 7, 112, 227, 171, 10, 151, 113, 210, 232, 92, 95, 20, 87, 145, 161, 43, 2, 60, 193, 54,
   120, 25, 122, 11, 100, 204, 61, 142, 132, 138, 191, 211, 66, 59, 106, 207, 216, 15, 53, 184, 170, 144, 196, 139,
   74, 107, 105, 255, 41, 208, 21, 242, 98, 205, 75, 96, 202, 209, 247, 189, 72, 69, 238, 133, 13, 167, 31, 235,
   116, 201, 190, 213, 203, 104, 115, 12, 212, 52, 63, 149, 135, 183, 84, 147, 163, 249, 65, 217, 174, 70, 6, 64,
   90, 155, 177, 185, 182, 108, 121, 164, 136, 58, 220, 241, 4]

/-- the value of a table at a byte -/
def tableAt (t : List ℕ) (b : BitVec 8) : BitVec 8 := BitVec.ofNat 8 (t.getD b.toNat 0)

/-- the second table undoes the first at every byte -/
theorem prevTable_nextTable (b : BitVec 8) : tableAt CacheKey_prev_table (tableAt CacheKey_next_table b) = b := by
  have hundo : ∀ i < 256, CacheKey_next_table.getD i 0 < 256 ∧
      CacheKey_prev_table.getD (CacheKey_next_table.getD i 0) 0 = i := by decide +kernel
  obtain ⟨hlt, hval⟩ := hundo b.toNat b.isLt
  unfold tableAt
  rw [BitVec.toNat_ofNat, Nat.mod_eq_of_lt hlt, hval, BitVec.ofNat_toNat, BitVec.setWidth_eq]

/-- the `i`-th byte that `next_CacheKey` stores; the sum is taken modulo 256 -/
def nextByte (k : CacheKey) : (i : ℕ) → i < 16 → BitVec 8
  | 0, h => tableAt CacheKey_next_table (k.u8 ⟨0, h⟩)
  | i + 1, h => tableAt CacheKey_next_table (nextByte k i (by omega) + k.u8 ⟨i + 1, h⟩)

def nextCacheKey (k : CacheKey) : CacheKey := ⟨fun i => nextByte k i i.isLt⟩

/-- the `i`-th byte that `prev_CacheKey` stores: `256 + prev_table[k[i]] - k[i - 1]`, modulo 256 -/
def prevByte (k : CacheKey) : (i : ℕ) → i < 16 → BitVec 8
  | 0, h => tableAt CacheKey_prev_table (k.u8 ⟨0, h⟩)
  | i + 1, h => tableAt CacheKey_prev_table (k.u8 ⟨i + 1, h⟩) - k.u8 ⟨i, by omega⟩

def prevCacheKey (k : CacheKey) : CacheKey := ⟨fun i => prevByte k i i.isLt⟩

/-- each byte of the next key is the one that walking back subtracts at the byte after it -/
theorem prevByte_next (k : CacheKey) (i : ℕ) (h : i < 16) : prevByte (nextCacheKey k) i h = k.u8 ⟨i, h⟩ := by
  cases i with
  | zero => simp only [prevByte, nextCacheKey, nextByte, prevTable_nextTable]
  | succ i =>
    simp only [prevByte, nextCacheKey, nextByte, prevTable_nextTable]
    rw [BitVec.add_comm, BitVec.add_sub_cancel]

/-- **Walking the chain back undoes walking it on.** -/
theorem prev_nextCacheKey (k : CacheKey) : prevCacheKey (nextCacheKey k) = k := by
  simp only [prevCacheKey, prevByte_next]

/-- the first table undoes the second at every byte, since there are finitely many -/
theorem nextTable_prevTable (b : BitVec 8) : tableAt CacheKey_next_table (tableAt CacheKey_prev_table b) = b := by
  have hinj : Function.Injective (tableAt CacheKey_next_table) := Function.LeftInverse.injective prevTable_nextTable
  obtain ⟨c, rfl⟩ := Finite.injective_iff_surjective.mp hinj b
  rw [prevTable_nextTable]

/-- going on from the previous key stores the bytes that it came from -/
theorem nextByte_prev (k : CacheKey) (i : ℕ) (h : i < 16) : nextByte (prevCacheKey k) i h = k.u8 ⟨i, h⟩ := by
  induction i with
  | zero => simp only [nextByte, prevCacheKey, prevByte, nextTable_prevTable]
  | succ i ih =>
    simp only [nextByte, ih]
    simp only [prevCacheKey, prevByte]
    rw [BitVec.add_comm, BitVec.sub_add_cancel, nextTable_prevTable]

/-- **Walking the chain on undoes walking it back.** -/
theorem next_prevCacheKey (k : CacheKey) : nextCacheKey (prevCacheKey k) = k := by
  simp only [nextCacheKey, nextByte_prev]

/-! ## The keys of the fragments -/

/-- the key of fragment `i` of an object whose first fragment has the key `k` -/
def fragmentKey (k : CacheKey) (i : ℕ) : CacheKey := nextCacheKey^[i] k

@[simp] theorem fragmentKey_zero (k : CacheKey) : fragmentKey k 0 = k := rfl

theorem next_fragmentKey (k : CacheKey) (i : ℕ) : nextCacheKey (fragmentKey k i) = fragmentKey k (i + 1) := by
  unfold fragmentKey
  rw [Function.iterate_succ_apply']

theorem prev_fragmentKey (k : CacheKey) (i : ℕ) : prevCacheKey (fragmentKey k (i + 1)) = fragmentKey k i := by
  rw [← next_fragmentKey, prev_nextCacheKey]

theorem iterate_next_fragmentKey (k : CacheKey) (i n : ℕ) : nextCacheKey^[n] (fragmentKey k i) = fragmentKey k (i + n) := by
  unfold fragmentKey
  rw [← Function.iterate_add_apply, Nat.add_comm]

theorem iterate_prev_fragmentKey (k : CacheKey) (i n : ℕ) : prevCacheKey^[n] (fragmentKey k (i + n)) = fragmentKey k i := by
  induction n with
  | zero => rfl
  | succ n ih => rw [Function.iterate_succ_apply, ← Nat.add_assoc, prev_fragmentKey, ih]

/-! ## The loops -/

/-- the keys in memory; two pointers to keys point to one object or to two that do not overlap -/
abbrev Keys (α : Type) := α → CacheKey

section InPlace

variable {α : Type} [DecidableEq α]

/-- `b[i] = v` for the bytes `b` of an object -/
def Keys.setByte (m : Keys α) (o : α) (i : Fin 16) (v : BitVec 8) : Keys α :=
  Function.update m o ⟨Function.update (m o).u8 i v⟩

/-- the bytes of `next_key` up to the `i`-th, from the front -/
def nextLoop (m : Keys α) (nextKey key : α) : (i : ℕ) → i < 16 → Keys α
  | 0, h => m.setByte nextKey ⟨0, h⟩ (tableAt CacheKey_next_table ((m key).u8 ⟨0, h⟩))
  | i + 1, h =>
    let m := nextLoop m nextKey key i (by omega)
    m.setByte nextKey ⟨i + 1, h⟩ (tableAt CacheKey_next_table ((m nextKey).u8 ⟨i, by omega⟩ + (m key).u8 ⟨i + 1, h⟩))

/-- `next_CacheKey` -/
def next_CacheKey (m : Keys α) (nextKey key : α) : Keys α := nextLoop m nextKey key 15 (by decide)

/-- the bytes of `prev_key` from the `i`-th on, towards the front -/
def prevLoop (prevKey key : α) : (i : ℕ) → i < 16 → Keys α → Keys α
  | 0, h, m => m.setByte prevKey ⟨0, h⟩ (tableAt CacheKey_prev_table ((m key).u8 ⟨0, h⟩))
  | i + 1, h, m =>
    prevLoop prevKey key i (by omega)
      (m.setByte prevKey ⟨i + 1, h⟩ (tableAt CacheKey_prev_table ((m key).u8 ⟨i + 1, h⟩) - (m key).u8 ⟨i, by omega⟩))

/-- `prev_CacheKey` -/
def prev_CacheKey (m : Keys α) (prevKey key : α) : Keys α := prevLoop prevKey key 15 (by decide) m

variable {m : Keys α} {o o' : α} {i : ℕ}

theorem setByte_self {k : Fin 16} {v : BitVec 8} : (m.setByte o k v o).u8 k = v := by
  simp [Keys.setByte]

/-- a byte that is not written, of any object -/
theorem setByte_of_ne {j k : Fin 16} {v : BitVec 8} (h : j ≠ k) : (m.setByte o k v o').u8 j = (m o').u8 j := by
  unfold Keys.setByte
  by_cases ho : o' = o
  · subst ho
    simp [Function.update_of_ne h]
  · rw [Function.update_of_ne ho]

theorem setByte_other {k : Fin 16} {v : BitVec 8} (h : o' ≠ o) : m.setByte o k v o' = m o' := Function.update_of_ne h ..

/-- the object has the bytes of `key` up to `i`, and nothing else is changed -/
structure StoredKey (m m' : Keys α) (o : α) (key : CacheKey) (i : ℕ) : Prop where
  stored : ∀ j : Fin 16, j.val ≤ i → (m' o).u8 j = key.u8 j
  behind : ∀ j : Fin 16, i < j.val → (m' o).u8 j = (m o).u8 j
  other : ∀ o', o' ≠ o → m' o' = m o'

theorem StoredKey.eq {m m' : Keys α} {key : CacheKey} (h : StoredKey m m' o key 15) : m' = Function.update m o key := by
  funext o'
  by_cases ho : o' = o
  · subst ho
    rw [Function.update_self]
    have hbytes : (m' o').u8 = key.u8 := funext fun j => h.stored j (by omega)
    cases hm : m' o'
    rw [hm] at hbytes
    cases hbytes
    rfl
  · rw [Function.update_of_ne ho, h.other o' ho]

/-- the byte that is read next is one that the loop has not reached, whether or not the objects are the same -/
theorem StoredKey.read {m m' : Keys α} {key : CacheKey} (h : StoredKey m m' o key i) (o' : α) {j : Fin 16} (hj : i < j.val) :
    (m' o').u8 j = (m o').u8 j := by
  by_cases ho : o' = o
  · subst ho
    exact h.behind j hj
  · rw [h.other o' ho]

theorem nextLoop_storedKey (m : Keys α) (nextKey key : α) (h : i < 16) :
    StoredKey m (nextLoop m nextKey key i h) nextKey (nextCacheKey (m key)) i := by
  induction i with
  | zero =>
    refine ⟨fun j hj => ?_, fun j hj => setByte_of_ne (by rintro rfl; exact absurd hj (by simp)), fun o' => setByte_other⟩
    obtain rfl : j = ⟨0, h⟩ := Fin.ext (Nat.le_zero.mp hj)
    exact setByte_self
  | succ i ih =>
    have hi := ih (by omega)
    refine ⟨fun j hj => ?_, fun j hj => ?_, fun o' ho => ?_⟩
    · by_cases hlast : j = ⟨i + 1, h⟩
      · subst hlast
        -- the byte before it is the one that this loop has stored
        rw [nextLoop, setByte_self, hi.stored _ (le_refl i), hi.read key (Nat.lt_succ_self i)]
        rfl
      · rw [nextLoop, setByte_of_ne hlast]
        exact hi.stored j (by have := Fin.val_ne_of_ne hlast; simp only at this; omega)
    · rw [nextLoop, setByte_of_ne (by rintro rfl; exact absurd hj (by simp))]
      exact hi.behind j (by omega)
    · rw [nextLoop, setByte_other ho, hi.other o' ho]

theorem prevByte_congr {k k' : CacheKey} {j : ℕ} (hj : j < 16) (h : ∀ l : Fin 16, l.val ≤ j → k'.u8 l = k.u8 l) :
    prevByte k' j hj = prevByte k j hj := by
  cases j with
  | zero => simp only [prevByte, h ⟨0, hj⟩ (le_refl 0)]
  | succ j => simp only [prevByte, h ⟨j + 1, hj⟩ (le_refl _), h ⟨j, by omega⟩ (Nat.le_succ j)]

theorem prevLoop_storedKey (m : Keys α) (prevKey key : α) (h : i < 16) :
    StoredKey m (prevLoop prevKey key i h m) prevKey (prevCacheKey (m key)) i := by
  induction i generalizing m with
  | zero =>
    refine ⟨fun j hj => ?_, fun j hj => setByte_of_ne (by rintro rfl; exact absurd hj (by simp)), fun o' => setByte_other⟩
    obtain rfl : j = ⟨0, h⟩ := Fin.ext (Nat.le_zero.mp hj)
    exact setByte_self
  | succ i ih =>
    generalize hv : tableAt CacheKey_prev_table ((m key).u8 ⟨i + 1, h⟩) - (m key).u8 ⟨i, by omega⟩ = v
    have hi := ih (m.setByte prevKey ⟨i + 1, h⟩ v) (by omega)
    rw [prevLoop, hv]
    -- the bytes in front are still those of `key`
    have hfront : ∀ (o' : α) (l : Fin 16), l.val ≤ i → (m.setByte prevKey ⟨i + 1, h⟩ v o').u8 l = (m o').u8 l := by
      intro o' l hl
      exact setByte_of_ne (by rintro rfl; exact absurd hl (by simp))
    refine ⟨fun j hj => ?_, fun j hj => ?_, fun o' ho => ?_⟩
    · by_cases hlast : j = ⟨i + 1, h⟩
      · subst hlast
        rw [hi.behind _ (Nat.lt_succ_self i), setByte_self, ← hv]
        rfl
      · have hle : j.val ≤ i := by have := Fin.val_ne_of_ne hlast; simp only at this; omega
        rw [hi.stored j hle]
        exact prevByte_congr j.isLt fun l hl => hfront key l (hl.trans hle)
    · rw [hi.behind j (by omega), setByte_of_ne (by rintro rfl; exact absurd hj (by simp))]
    · rw [hi.other o' ho, setByte_other ho]

/-- `next_CacheKey` writes the next key, also over the key itself -/
theorem next_CacheKey_eq (m : Keys α) (nextKey key : α) :
    next_CacheKey m nextKey key = Function.update m nextKey (nextCacheKey (m key)) := (nextLoop_storedKey m nextKey key _).eq

/-- `prev_CacheKey` writes the previous key, also over the key itself -/
theorem prev_CacheKey_eq (m : Keys α) (prevKey key : α) :
    prev_CacheKey m prevKey key = Function.update m prevKey (prevCacheKey (m key)) := (prevLoop_storedKey m prevKey key _).eq

/-- the chain on, in one object -/
theorem iterate_next_CacheKey (m : Keys α) (a : α) (i : ℕ) :
    (fun m => next_CacheKey m a a)^[i] m = Function.update m a (fragmentKey (m a) i) := by
  induction i with
  | zero => simp
  | succ i ih =>
    rw [Function.iterate_succ_apply', ih, next_CacheKey_eq, Function.update_self, Function.update_idem, next_fragmentKey]

/-- the chain back, in one object -/
theorem iterate_prev_CacheKey (m : Keys α) (a : α) (n : ℕ) :
    (fun m => prev_CacheKey m a a)^[n] m = Function.update m a (prevCacheKey^[n] (m a)) := by
  induction n with
  | zero => simp
  | succ n ih =>
    rw [Function.iterate_succ_apply', ih, prev_CacheKey_eq, Function.update_self, Function.update_idem,
      Function.iterate_succ_apply']

/-- **The chain of fragment keys.** Each function undoes the other, whichever of the three objects are the same, and the key of fragment
`i` that is reached from the earliest one is what `n` steps back from fragment `i + n` lead to. -/
theorem fragment_key_chain (m : Keys α) (a b c : α) (i n : ℕ) :
    prev_CacheKey (next_CacheKey m b a) c b c = m a ∧ next_CacheKey (prev_CacheKey m b a) c b c = m a ∧
    (fun m => prev_CacheKey m a a)^[n] ((fun m => next_CacheKey m a a)^[i + n] m) = (fun m => next_CacheKey m a a)^[i] m := by
  refine ⟨?_, ?_, ?_⟩
  · simp only [prev_CacheKey_eq, next_CacheKey_eq, Function.update_self, prev_nextCacheKey]
  · simp only [prev_CacheKey_eq, next_CacheKey_eq, Function.update_self, next_prevCacheKey]
  · rw [iterate_next_CacheKey, iterate_prev_CacheKey, iterate_next_CacheKey, Function.update_self, Function.update_idem,
      iterate_prev_fragmentKey]

end InPlace

end TrafficServer.Cache
