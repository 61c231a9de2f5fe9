/-
When the volume blocks of a disk are in order (`DiskVol`).

`create_volume` gives a volume the whole 128 MB chunks of the largest free block if no block is large enough. There may be none
in it: the volume then has a block of length 0. It takes a negative size as it is, and does not look at the ends of its
arrays. `CreateOk` leaves these calls out. With it `Inv` is kept, by restarts too, and without it `LayoutOk` is broken at
once: `layout_iff`. `zero_length_block` is a disk where it is.

The queues are described by the set of blocks they hold (`FreeOk`, `VolsOk`), so that the same lemmas serve `create_volume`,
where a block moves from one to another, and `update_header`, where they grow with the loop.
-/
import TrafficServer.Lib.Run
import TrafficServer.Cache.DiskVol

namespace TrafficServer.Cache.Disk

open TrafficServer.Run

variable {sp : Span} {s : CacheDisk} {v v' : ℕ → DiskVolBlock} {S S' : ℕ → Prop} {b n : ℕ}

/-! ## Queues and the blocks they hold -/

/-- the lengths of a queue's blocks -/
def sumLen (v : ℕ → DiskVolBlock) (queue : List ℕ) : ℕ := (queue.map fun i => (v i).len).sum

theorem sumLen_append (v : ℕ → DiskVolBlock) (l l' : List ℕ) : sumLen v (l ++ l') = sumLen v l + sumLen v l' := by
  rw [sumLen, List.map_append, List.sum_append, sumLen, sumLen]

@[simp] theorem sumLen_singleton (v : ℕ → DiskVolBlock) (b : ℕ) : sumLen v [b] = (v b).len := by simp [sumLen]

theorem sumLen_congr {l : List ℕ} (h : ∀ i ∈ l, (v' i).len = (v i).len) : sumLen v' l = sumLen v l := by
  unfold sumLen
  rw [List.map_congr_left h]

theorem sumLen_erase {l : List ℕ} (hb : b ∈ l) : sumLen v l = (v b).len + sumLen v (l.erase b) := by
  unfold sumLen
  rw [((List.perm_cons_erase hb).map fun i => (v i).len).sum_eq, List.map_cons, List.sum_cons]

/-- the free queue holds the blocks of `S` -/
structure FreeOk (v : ℕ → DiskVolBlock) (S : ℕ → Prop) (freeBlocks : DiskVol) (freeSpace : ℤ) : Prop where
  nodup : freeBlocks.dpbQueue.Nodup
  mem : ∀ i, i ∈ freeBlocks.dpbQueue ↔ S i
  size_eq : freeBlocks.size = sumLen v freeBlocks.dpbQueue
  space_eq : freeSpace = sumLen v freeBlocks.dpbQueue

/-- the volume's queue holds the blocks of `S` with its number -/
structure VolOk (v : ℕ → DiskVolBlock) (S : ℕ → Prop) (dv : DiskVol) : Prop where
  nodup : dv.dpbQueue.Nodup
  mem : ∀ i, i ∈ dv.dpbQueue ↔ S i ∧ (v i).number = dv.volNumber
  size_eq : dv.size = sumLen v dv.dpbQueue

structure VolsOk (v : ℕ → DiskVolBlock) (S : ℕ → Prop) (vols : List DiskVol) : Prop where
  vol : ∀ dv ∈ vols, VolOk v S dv
  numbers : (vols.map DiskVol.volNumber).Nodup
  covers : ∀ i, S i → ∃ dv ∈ vols, dv.volNumber = (v i).number

theorem FreeOk.congr {fb : DiskVol} {space : ℤ} (h : FreeOk v S fb space) (hS : ∀ i, S i ↔ S' i)
    (hv : ∀ i, S i → (v' i).len = (v i).len) : FreeOk v' S' fb space := by
  have hsum : sumLen v' fb.dpbQueue = sumLen v fb.dpbQueue := sumLen_congr fun i hi => hv i ((h.mem i).mp hi)
  exact ⟨h.nodup, fun i => (h.mem i).trans (hS i), by rw [hsum, h.size_eq], by rw [hsum, h.space_eq]⟩

theorem FreeOk.remove {fb : DiskVol} {space : ℤ} (h : FreeOk v S fb space) (hb : S b) :
    FreeOk v (fun i => S i ∧ i ≠ b) { fb with dpbQueue := fb.dpbQueue.erase b, size := fb.size - (v b).len }
      (space - (v b).len) := by
  have hsum := sumLen_erase (v := v) ((h.mem b).mpr hb)
  refine ⟨h.nodup.erase b, fun i => ?_, ?_, ?_⟩
  · rw [h.nodup.mem_erase_iff, h.mem i, and_comm]
  · rw [h.size_eq, hsum]
    push_cast
    ring
  · rw [h.space_eq, hsum]
    push_cast
    ring

theorem FreeOk.add {fb : DiskVol} {space n : ℤ} (h : FreeOk v S fb space) (hb : ¬ S b) :
    FreeOk v (fun i => S i ∨ i = b)
      { fb with numVolblocks := n, dpbQueue := fb.dpbQueue ++ [b], size := fb.size + (v b).len } (space + (v b).len) := by
  refine ⟨?_, fun i => ?_, ?_, ?_⟩
  · apply List.Nodup.append h.nodup (List.nodup_singleton b)
    rw [List.disjoint_singleton]
    exact fun hmem => hb ((h.mem b).mp hmem)
  · rw [List.mem_append, List.mem_singleton, h.mem i]
  · rw [h.size_eq, sumLen_append, sumLen_singleton, Nat.cast_add]
  · rw [h.space_eq, sumLen_append, sumLen_singleton, Nat.cast_add]

theorem VolOk.congr {dv : DiskVol} (h : VolOk v S dv) (hS : ∀ i, (v' i).number = dv.volNumber → (S i ↔ S' i))
    (hv : ∀ i, S i ∨ S' i → (v' i).len = (v i).len ∧ (v' i).number = (v i).number) : VolOk v' S' dv := by
  refine ⟨h.nodup, fun i => ?_, ?_⟩
  · rw [h.mem i]
    constructor
    · rintro ⟨hi, hnum⟩
      have hnum' := (hv i (Or.inl hi)).2.trans hnum
      exact ⟨(hS i hnum').mp hi, hnum'⟩
    · rintro ⟨hi, hnum⟩
      exact ⟨(hS i hnum).mpr hi, (hv i (Or.inr hi)).2.symm.trans hnum⟩
  · rw [h.size_eq, sumLen_congr fun i hi => (hv i (Or.inl ((h.mem i).mp hi).1)).1]

theorem VolsOk.congr {vols : List DiskVol} (h : VolsOk v S vols) (hS : ∀ i, S i ↔ S' i)
    (hv : ∀ i, S i → (v' i).len = (v i).len ∧ (v' i).number = (v i).number) : VolsOk v' S' vols := by
  refine ⟨fun dv hdv => ?_, h.numbers, fun i hi => ?_⟩
  · exact (h.vol dv hdv).congr (fun i _ => hS i) fun i hi => hv i (hi.elim id (hS i).mpr)
  · rw [(hv i ((hS i).mpr hi)).2]
    exact h.covers i ((hS i).mpr hi)

/-! ## A block into the queue of its volume -/

variable {vols : List DiskVol} {dv : DiskVol} {number : ℤ} {len : ℕ}

/-- the numbers are those from before, and the block's at the end if it is new -/
theorem map_volNumber_enqueueVol (number : ℤ) (b len : ℕ) (vols : List DiskVol) :
    (enqueueVol number b len vols).map DiskVol.volNumber =
      if number ∈ vols.map DiskVol.volNumber then vols.map DiskVol.volNumber else vols.map DiskVol.volNumber ++ [number] := by
  induction vols with
  | nil => rfl
  | cons dv vols ih =>
    rw [enqueueVol]
    by_cases h : dv.volNumber = number
    · simp [h]
    · rw [if_neg h, List.map_cons, ih, List.map_cons]
      by_cases hmem : number ∈ vols.map DiskVol.volNumber
      · rw [if_pos hmem, if_pos (List.mem_cons_of_mem _ hmem)]
      · rw [if_neg hmem, if_neg]
        · rfl
        · rw [List.mem_cons]
          rintro (heq | hin)
          · exact h heq.symm
          · exact hmem hin

theorem VolsOk.enqueueVol (h : VolsOk v S vols) (hb : ¬ S b) :
    VolsOk v (fun i => S i ∨ i = b) (enqueueVol (v b).number b (v b).len vols) := by
  refine ⟨?_, ?_, ?_⟩
  · have hvol := h.vol
    have hcov : (∀ dv ∈ vols, dv.volNumber ≠ (v b).number) → ∀ i, S i → (v i).number ≠ (v b).number := by
      intro hnone i hi heq
      obtain ⟨dv, hdv, hnum⟩ := h.covers i hi
      exact hnone dv hdv (hnum.trans heq)
    have hnodup := h.numbers
    clear h
    induction vols with
    | nil =>
      intro dv hdv
      rw [Disk.enqueueVol, List.mem_singleton] at hdv
      subst hdv
      refine ⟨List.nodup_singleton b, fun i => ?_, by rw [sumLen_singleton]⟩
      rw [List.mem_singleton]
      constructor
      · rintro rfl
        exact ⟨Or.inr rfl, rfl⟩
      · rintro ⟨hi | rfl, hnum⟩
        · exact absurd hnum (hcov (by simp) i hi)
        · rfl
    | cons dv' vols ih =>
      rw [List.map_cons, List.nodup_cons] at hnodup
      intro dv hdv
      rw [Disk.enqueueVol] at hdv
      by_cases hnum : dv'.volNumber = (v b).number
      · rw [if_pos hnum, List.mem_cons] at hdv
        rcases hdv with rfl | hdv
        · have hok := hvol dv' List.mem_cons_self
          refine ⟨?_, fun i => ?_, ?_⟩
          · apply List.Nodup.append hok.nodup (List.nodup_singleton b)
            rw [List.disjoint_singleton]
            exact fun hmem => hb ((hok.mem b).mp hmem).1
          · dsimp only
            rw [List.mem_append, List.mem_singleton, hok.mem i]
            constructor
            · rintro (⟨hi, hni⟩ | rfl)
              · exact ⟨Or.inl hi, hni⟩
              · exact ⟨Or.inr rfl, hnum.symm⟩
            · rintro ⟨hi | rfl, hni⟩
              · exact Or.inl ⟨hi, hni⟩
              · exact Or.inr rfl
          · dsimp only
            rw [hok.size_eq, sumLen_append, sumLen_singleton, Nat.cast_add]
        · -- another volume: the block has not its number
          have hok := hvol dv (List.mem_cons_of_mem dv' hdv)
          have hne : dv.volNumber ≠ (v b).number := by
            intro heq
            apply hnodup.1
            rw [hnum, ← heq]
            exact List.mem_map_of_mem hdv
          apply hok.congr
          · intro i hni
            constructor
            · exact Or.inl
            · rintro (hi | rfl)
              · exact hi
              · exact absurd hni.symm hne
          · exact fun i _ => ⟨rfl, rfl⟩
      · rw [if_neg hnum, List.mem_cons] at hdv
        rcases hdv with rfl | hdv
        · have hok := hvol dv List.mem_cons_self
          apply hok.congr
          · intro i hni
            constructor
            · exact Or.inl
            · rintro (hi | rfl)
              · exact hi
              · exact absurd hni.symm hnum
          · exact fun i _ => ⟨rfl, rfl⟩
        · apply ih (fun d hd => hvol d (List.mem_cons_of_mem dv' hd)) _ hnodup.2 dv hdv
          intro hnone
          apply hcov
          rw [List.forall_mem_cons]
          exact ⟨hnum, hnone⟩
  · rw [map_volNumber_enqueueVol]
    by_cases hmem : (v b).number ∈ vols.map DiskVol.volNumber
    · rw [if_pos hmem]
      exact h.numbers
    · rw [if_neg hmem]
      apply h.numbers.append (List.nodup_singleton _)
      rw [List.disjoint_singleton]
      exact hmem
  · intro i hi
    have hin : (v i).number ∈ (Disk.enqueueVol (v b).number b (v b).len vols).map DiskVol.volNumber := by
      rw [map_volNumber_enqueueVol]
      rcases hi with hi | rfl
      · obtain ⟨dv, hdv, hnum⟩ := h.covers i hi
        have hmem : (v i).number ∈ vols.map DiskVol.volNumber := List.mem_map.mpr ⟨dv, hdv, hnum⟩
        split_ifs
        · exact hmem
        · exact List.mem_append_left _ hmem
      · split_ifs with hmem
        · exact hmem
        · exact List.mem_append_right _ (List.mem_singleton_self _)
    exact List.mem_map.mp hin

/-! ## The blocks on the disk -/

def Apart (v w : DiskVolBlock) : Prop := v.stop ≤ w.offset ∨ w.stop ≤ v.offset

structure BlocksOk (sp : Span) (v : ℕ → DiskVolBlock) (n : ℕ) : Prop where
  disjoint : ∀ i < n, ∀ j < n, i ≠ j → Apart (v i) (v j)
  len_pos : ∀ i < n, 0 < (v i).len
  inside : ∀ i < n, sp.start ≤ (v i).offset ∧ ((v i).stop : ℤ) ≤ sp.start + sp.numUsableBlocks * STORE_BLOCK_SIZE

/-- blocks that are parts of blocks in order, with no overlap of two parts of one -/
theorem BlocksOk.parts {n' : ℕ} (h : BlocksOk sp v n) (f : ℕ → ℕ) (hf : ∀ i < n', f i < n)
    (hpart : ∀ i < n', (v (f i)).offset ≤ (v' i).offset ∧ (v' i).stop ≤ (v (f i)).stop) (hpos : ∀ i < n', 0 < (v' i).len)
    (hsame : ∀ i < n', ∀ j < n', i ≠ j → f i = f j → Apart (v' i) (v' j)) : BlocksOk sp v' n' := by
  refine ⟨fun i hi j hj hij => ?_, hpos, fun i hi => ?_⟩
  · by_cases heq : f i = f j
    · exact hsame i hi j hj hij heq
    · have hi' := hpart i hi
      have hj' := hpart j hj
      rcases h.disjoint (f i) (hf i hi) (f j) (hf j hj) heq with hle | hle
      · exact Or.inl (by omega)
      · exact Or.inr (by omega)
  · have hin := h.inside (f i) (hf i hi)
    have hi' := hpart i hi
    omega

/-- one block cut short, or changed in what is no matter of its place -/
theorem BlocksOk.shrink {p : DiskVolBlock} (h : BlocksOk sp v n) (hoff : p.offset = (v b).offset) (hpos : 0 < p.len)
    (hle : p.len ≤ (v b).len) : BlocksOk sp (Function.update v b p) n := by
  apply h.parts id (fun i hi => hi)
  · intro i hi
    by_cases hib : i = b
    · subst hib
      rw [Function.update_self, id, DiskVolBlock.stop, DiskVolBlock.stop, hoff]
      have := Nat.mul_le_mul_right STORE_BLOCK_SIZE hle
      omega
    · rw [Function.update_of_ne hib]
      exact ⟨le_refl _, le_refl _⟩
  · intro i hi
    by_cases hib : i = b
    · subst hib
      rwa [Function.update_self]
    · rw [Function.update_of_ne hib]
      exact h.len_pos i hi
  · intro i _ j _ hij heq
    exact absurd heq hij

/-- one block in two, the second at the end of the array -/
theorem BlocksOk.split {p q : DiskVolBlock} {k : ℕ} (h : BlocksOk sp v n) (hb : b < n) (hk : 0 < k) (hlt : k < (v b).len)
    (hp : p.offset = (v b).offset ∧ p.len = k)
    (hq : q.offset = (v b).offset + k * STORE_BLOCK_SIZE ∧ q.len = (v b).len - k) :
    BlocksOk sp (Function.update (Function.update v n q) b p) (n + 1) := by
  have hstop : p.stop = q.offset ∧ q.stop = (v b).stop := by
    rw [DiskVolBlock.stop, DiskVolBlock.stop, DiskVolBlock.stop, hp.1, hp.2, hq.1, hq.2, Nat.add_assoc, ← Nat.add_mul,
      Nat.add_sub_cancel' hlt.le]
    exact ⟨rfl, rfl⟩
  have hcases : ∀ i < n + 1, i = b ∧ Function.update (Function.update v n q) b p i = p ∨
      i = n ∧ i ≠ b ∧ Function.update (Function.update v n q) b p i = q ∨
      i < n ∧ i ≠ b ∧ Function.update (Function.update v n q) b p i = v i := by
    intro i hi
    by_cases hib : i = b
    · subst hib
      exact Or.inl ⟨rfl, Function.update_self ..⟩
    · rw [Function.update_of_ne hib]
      by_cases hin : i = n
      · subst hin
        exact Or.inr (Or.inl ⟨rfl, hib, Function.update_self ..⟩)
      · exact Or.inr (Or.inr ⟨by omega, hib, Function.update_of_ne hin ..⟩)
  have hqoff : (v b).offset ≤ q.offset := by omega
  have hpstop : p.stop ≤ (v b).stop := by
    have : q.offset ≤ q.stop := Nat.le_add_right _ _
    omega
  apply h.parts fun i => if i = n then b else i
  · intro i hi
    split_ifs <;> omega
  · intro i hi
    rcases hcases i hi with ⟨rfl, heq⟩ | ⟨rfl, _, heq⟩ | ⟨hlt, _, heq⟩
    · rw [heq, if_neg (by omega)]
      exact ⟨hp.1.ge, hpstop⟩
    · rw [heq, if_pos rfl]
      exact ⟨hqoff, hstop.2.le⟩
    · rw [heq, if_neg (by omega)]
      exact ⟨le_refl _, le_refl _⟩
  · intro i hi
    rcases hcases i hi with ⟨_, heq⟩ | ⟨_, _, heq⟩ | ⟨hlt, _, heq⟩
    · rw [heq, hp.2]
      exact hk
    · rw [heq, hq.2]
      omega
    · rw [heq]
      exact h.len_pos i hlt
  · intro i hi j hj hij hsame
    -- only the two halves come from the same block
    rcases hcases i hi with ⟨hib, hieq⟩ | ⟨hin, _, hieq⟩ | ⟨hilt, hib, hieq⟩ <;>
      rcases hcases j hj with ⟨hjb, hjeq⟩ | ⟨hjn, _, hjeq⟩ | ⟨hjlt, hjb, hjeq⟩
    · omega
    · rw [hieq, hjeq]
      exact Or.inl hstop.1.le
    · rw [if_neg (by omega), if_neg (by omega)] at hsame
      omega
    · rw [hieq, hjeq]
      exact Or.inr hstop.1.le
    · omega
    · rw [if_pos hin, if_neg (by omega)] at hsame
      omega
    · rw [if_neg (by omega), if_neg (by omega)] at hsame
      omega
    · rw [if_neg (by omega), if_pos hjn] at hsame
      omega
    · rw [if_neg (by omega), if_neg (by omega)] at hsame
      omega

/-! ## The invariant -/

structure Inv (sp : Span) (s : CacheDisk) : Prop where
  blocks : BlocksOk sp s.volInfo s.numDiskvolBlks
  free : FreeOk s.volInfo (fun i => i < s.numDiskvolBlks ∧ (s.volInfo i).free = true) s.freeBlocks s.freeSpace
  vols : VolsOk s.volInfo (fun i => i < s.numDiskvolBlks ∧ (s.volInfo i).free = false) s.diskVols
  counts : s.numUsed + s.numFree = s.numDiskvolBlks
  room : s.diskVols.length ≤ sp.diskVolsRoom
  no_overrun : s.overrun = false

/-- a queue adds up to what the header says -/
theorem sumLen_eq_total {queue : List ℕ} {p : DiskVolBlock → Bool} (hnodup : queue.Nodup)
    (hmem : ∀ i, i ∈ queue ↔ i < s.numDiskvolBlks ∧ p (s.volInfo i) = true) : sumLen s.volInfo queue = s.total p := by
  have hperm : queue.Perm (s.blocks p) := by
    apply (List.perm_ext_iff_of_nodup hnodup (List.nodup_range.filter _)).mpr
    intro i
    rw [hmem i, List.mem_filter, List.mem_range]
  exact (hperm.map fun i => (s.volInfo i).len).sum_eq

theorem Inv.layoutOk (h : Inv sp s) : LayoutOk sp s := by
  have hfree := sumLen_eq_total (p := fun v => v.free) h.free.nodup h.free.mem
  refine ⟨h.blocks.disjoint, h.blocks.len_pos, h.blocks.inside, ?_, ?_, h.counts, fun dv hdv => ?_, ?_, h.no_overrun⟩
  · rw [h.free.space_eq, hfree]
  · rw [h.free.size_eq, hfree]
  · have hok := h.vols.vol dv hdv
    rw [hok.size_eq, sumLen_eq_total hok.nodup fun i => ?_]
    rw [hok.mem i, Bool.and_eq_true, Bool.not_eq_true', decide_eq_true_eq, and_assoc]
  · exact fun i hi hused => h.vols.covers i ⟨hi, hused⟩

/-! ## `create_volume` -/

theorem u64_natCast {k : ℕ} (hk : k < 2 ^ 64) : u64 k = k := by
  unfold u64
  omega

theorem BlocksOk.lt_two_pow (h : BlocksOk sp v n) (hb : b < n) : (v b).stop < 2 ^ 63 := by
  have hin := h.inside b hb
  have := sp.area_lt
  omega

theorem enqueueVol_length :
    (enqueueVol number b len vols).length = if number ∈ vols.map DiskVol.volNumber then vols.length else vols.length + 1 := by
  have h := congrArg List.length (map_volNumber_enqueueVol number b len vols)
  rw [List.length_map] at h
  rw [h]
  split_ifs <;> simp

/-- there is a `DiskVol` for the number, or room for one -/
def VolRoom (sp : Span) (vols : List DiskVol) (number : ℤ) : Prop :=
  number ∈ vols.map DiskVol.volNumber ∨ vols.length < sp.diskVolsRoom

theorem VolRoom.enqueueVol_length_le (h : VolRoom sp vols number) (hle : vols.length ≤ sp.diskVolsRoom) :
    (enqueueVol number b len vols).length ≤ sp.diskVolsRoom := by
  rw [enqueueVol_length]
  rcases h with hmem | hlt
  · rw [if_pos hmem]
    exact hle
  · split_ifs <;> omega

theorem addToDiskVol_overrun :
    (s.addToDiskVol sp b).overrun = false ↔ s.overrun = false ∧ VolRoom sp s.diskVols (s.volInfo b).number := by
  unfold CacheDisk.addToDiskVol VolRoom
  simp only [Bool.or_eq_false_iff, Bool.and_eq_false_iff, decide_eq_false_iff_not, not_le, List.all_eq_false, List.mem_map,
    Decidable.not_not, decide_eq_true_eq, ne_eq]

/-- the split leaves something behind -/
def Splits (s : CacheDisk) (b : ℕ) (size : ℤ) : Prop := blocksPerVol ≤ u64 (s.lenOf b - size)

/-- the last step of `create_volume`: the block is out of the free queue, and not yet in that of its volume -/
theorem inv_addToDiskVol (hblocks : BlocksOk sp s.volInfo s.numDiskvolBlks)
    (hfree : FreeOk s.volInfo (fun i => i < s.numDiskvolBlks ∧ (s.volInfo i).free = true) s.freeBlocks s.freeSpace)
    (hvols : VolsOk s.volInfo (fun i => (i < s.numDiskvolBlks ∧ (s.volInfo i).free = false) ∧ i ≠ b) s.diskVols)
    (hb : b < s.numDiskvolBlks ∧ (s.volInfo b).free = false) (hcounts : s.numUsed + s.numFree = s.numDiskvolBlks)
    (hroom : s.diskVols.length ≤ sp.diskVolsRoom) (hvol : VolRoom sp s.diskVols (s.volInfo b).number)
    (hover : s.overrun = false) : Inv sp (s.addToDiskVol sp b) := by
  refine ⟨hblocks, hfree, ?_, hcounts, hvol.enqueueVol_length_le hroom, addToDiskVol_overrun.mpr ⟨hover, hvol⟩⟩
  have henq := hvols.enqueueVol (b := b) (fun h => h.2 rfl)
  apply henq.congr
  · intro i
    by_cases hib : i = b
    · subst hib
      exact ⟨fun _ => hb, fun _ => Or.inr rfl⟩
    · exact ⟨fun h => (h.resolve_right hib).1, fun h => Or.inl ⟨h, hib⟩⟩
  · exact fun i _ => ⟨rfl, rfl⟩

/-- what is left of the block is less than a volume: dropped -/
theorem Inv.allocate_whole {scheme k : ℕ} (h : Inv sp s) (hb : b ∈ s.freeBlocks.dpbQueue) (hk : 0 < k) (hle : k ≤ s.lenOf b)
    (hsplit : ¬ Splits s b k) (hvol : VolRoom sp s.diskVols number) : Inv sp (s.allocate sp b number k scheme) := by
  obtain ⟨hbn, hbfree⟩ := (h.free.mem b).mp hb
  have hstop := h.blocks.lt_two_pow hbn
  unfold DiskVolBlock.stop STORE_BLOCK_SIZE at hstop
  unfold CacheDisk.lenOf at hle
  unfold Splits CacheDisk.lenOf at hsplit
  unfold CacheDisk.allocate
  dsimp only
  rw [if_neg hsplit, u64_natCast (by omega)]
  set p : DiskVolBlock := { s.volInfo b with len := k, free := false, number := number, type := scheme } with hp
  have hpb : Function.update s.volInfo b p b = p := Function.update_self ..
  have hpi : ∀ i, i ≠ b → Function.update s.volInfo b p i = s.volInfo i := fun i hib => Function.update_of_ne hib ..
  apply inv_addToDiskVol
  · exact h.blocks.shrink rfl hk hle
  · apply (h.free.remove ⟨hbn, hbfree⟩).congr
    · intro i
      by_cases hib : i = b
      · subst hib
        simp [hp]
      · dsimp only
        rw [hpi i hib]
        exact ⟨fun hi => hi.1, fun hi => ⟨hi, hib⟩⟩
    · intro i hi
      dsimp only
      rw [hpi i hi.2]
  · apply h.vols.congr
    · intro i
      by_cases hib : i = b
      · subst hib
        simp [hbfree]
      · dsimp only
        rw [hpi i hib]
        exact ⟨fun hi => ⟨hi, hib⟩, fun hi => hi.1⟩
    · rintro i ⟨_, hused⟩
      dsimp only
      rw [hpi i (by rintro rfl; simp [hbfree] at hused)]
      exact ⟨rfl, rfl⟩
  · dsimp only
    rw [hpb]
    exact ⟨hbn, rfl⟩
  · have := h.counts
    dsimp only
    omega
  · exact h.room
  · dsimp only
    rw [hpb]
    exact hvol
  · exact h.no_overrun

/-- the rest of the block is a new free block at the end of the array -/
theorem Inv.allocate_split {scheme k : ℕ} (h : Inv sp s) (hb : b ∈ s.freeBlocks.dpbQueue) (hk : 0 < k) (hle : k ≤ s.lenOf b)
    (hsplit : Splits s b k) (hroom : s.numDiskvolBlks < sp.volInfoRoom) (hvol : VolRoom sp s.diskVols number) :
    Inv sp (s.allocate sp b number k scheme) := by
  obtain ⟨hbn, hbfree⟩ := (h.free.mem b).mp hb
  have hstop := h.blocks.lt_two_pow hbn
  unfold DiskVolBlock.stop STORE_BLOCK_SIZE at hstop
  unfold CacheDisk.lenOf at hle
  have hrest : u64 ((s.volInfo b).len - k) = (s.volInfo b).len - k := by
    unfold u64
    omega
  have hoff : u64 ((s.volInfo b).offset + k * STORE_BLOCK_SIZE) = (s.volInfo b).offset + k * STORE_BLOCK_SIZE := by
    unfold u64 STORE_BLOCK_SIZE
    omega
  unfold Splits CacheDisk.lenOf at hsplit
  have hlt : k < (s.volInfo b).len := by
    rw [hrest] at hsplit
    have : 0 < blocksPerVol := by decide
    omega
  unfold CacheDisk.allocate
  dsimp only
  rw [if_pos hsplit, u64_natCast (by omega)]
  unfold CacheDisk.splitOff
  dsimp only
  rw [hrest, hoff]
  set q : DiskVolBlock := { s.volInfo b with
    len := (s.volInfo b).len - k, offset := (s.volInfo b).offset + k * STORE_BLOCK_SIZE } with hq
  set p : DiskVolBlock := { s.volInfo b with len := k, free := false, number := number, type := scheme } with hp
  set v' := Function.update (Function.update s.volInfo s.numDiskvolBlks q) b p with hv'
  have hv'b : v' b = p := Function.update_self ..
  have hv'n : v' s.numDiskvolBlks = q := by
    rw [hv', Function.update_of_ne (by omega), Function.update_self]
  have hv'i : ∀ i, i ≠ b → i ≠ s.numDiskvolBlks → v' i = s.volInfo i := by
    intro i hib hin
    rw [hv', Function.update_of_ne hib, Function.update_of_ne hin]
  apply inv_addToDiskVol
  · exact h.blocks.split hbn hk hlt ⟨rfl, rfl⟩ ⟨rfl, rfl⟩
  · have hcong : FreeOk v' (fun i => (i < s.numDiskvolBlks ∧ (s.volInfo i).free = true) ∧ i ≠ b) _ _ :=
      (h.free.remove ⟨hbn, hbfree⟩).congr (fun i => Iff.rfl) fun i hi => by rw [hv'i i hi.2 (by omega)]
    have hadd := hcong.add (b := s.numDiskvolBlks) (n := s.freeBlocks.numVolblocks) (by omega)
    rw [hv'n] at hadd
    apply hadd.congr
    · intro i
      dsimp only
      by_cases hib : i = b
      · subst hib
        rw [hv'b]
        simp [hp, hbn.ne]
      · by_cases hin : i = s.numDiskvolBlks
        · subst hin
          simp [hv'n, hq, hbfree]
        · rw [hv'i i hib hin]
          constructor
          · rintro (⟨⟨hi, hfree⟩, _⟩ | heq)
            · exact ⟨by omega, hfree⟩
            · exact absurd heq hin
          · rintro ⟨hi, hfree⟩
            exact Or.inl ⟨⟨by omega, hfree⟩, hib⟩
    · exact fun i _ => rfl
  · apply h.vols.congr
    · intro i
      dsimp only
      by_cases hib : i = b
      · subst hib
        simp [hbfree]
      · by_cases hin : i = s.numDiskvolBlks
        · subst hin
          simp [hv'n, hq, hbfree]
        · rw [hv'i i hib hin]
          constructor
          · rintro ⟨hi, hused⟩
            exact ⟨⟨by omega, hused⟩, hib⟩
          · rintro ⟨⟨hi, hused⟩, _⟩
            exact ⟨by omega, hused⟩
    · rintro i ⟨hi, hused⟩
      dsimp only
      rw [hv'i i (by rintro rfl; simp [hbfree] at hused) (by omega)]
      exact ⟨rfl, rfl⟩
  · dsimp only
    rw [hv'b]
    exact ⟨by omega, rfl⟩
  · have := h.counts
    dsimp only
    push_cast
    omega
  · exact h.room
  · dsimp only
    rw [hv'b]
    exact hvol
  · dsimp only
    rw [h.no_overrun, Bool.false_or, decide_eq_false_iff_not, not_le]
    exact hroom

/-- the blocks that the search passes over are too small; it ends with the first that is not, or with the largest -/
theorem search_spec (f : ℕ → ℕ) (size : ℤ) (c : ℕ) (queue : List ℕ) :
    ((search f size c queue).2 = true → queue.find? (fun i => size ≤ f i) = some (search f size c queue).1) ∧
    ((search f size c queue).2 = false → (∀ i ∈ queue, (f i : ℤ) < size) ∧
      ((search f size c queue).1 = c ∨ (search f size c queue).1 ∈ queue) ∧
      ∀ i ∈ c :: queue, f i ≤ f (search f size c queue).1) := by
  induction queue generalizing c with
  | nil => simp [search]
  | cons q queue ih =>
    rw [search]
    by_cases hq : size ≤ f q
    · rw [if_pos hq]
      simp [hq]
    · rw [if_neg hq, List.find?_cons_of_neg (by simpa using hq)]
      obtain ⟨hfound, hnone⟩ := ih (if f c < f q then q else c)
      refine ⟨hfound, fun h => ?_⟩
      obtain ⟨hall, hmem, hmax⟩ := hnone h
      rw [List.forall_mem_cons] at hmax
      refine ⟨?_, ?_, ?_⟩
      · rw [List.forall_mem_cons]
        exact ⟨not_le.mp hq, hall⟩
      · rcases hmem with heq | hmem
        · rw [heq]
          split_ifs
          · exact Or.inr List.mem_cons_self
          · exact Or.inl rfl
        · exact Or.inr (List.mem_cons_of_mem q hmem)
      · have hclosest : f c ≤ f (if f c < f q then q else c) ∧ f q ≤ f (if f c < f q then q else c) := by
          split_ifs <;> omega
        rw [List.forall_mem_cons, List.forall_mem_cons]
        exact ⟨hclosest.1.trans hmax.1, hclosest.2.trans hmax.1, hmax.2⟩

/-- the size that `create_volume` looks for -/
def requested (sizeInBlocks : BitVec 64) : ℤ :=
  if sizeInBlocks.toInt ≤ maxBlocks then sizeInBlocks.toInt else maxBlocks

/-- the size is positive, a free block is large enough or has 128 MB, and the arrays have room for what is added -/
structure CreateOk (sp : Span) (s : CacheDisk) (number : ℤ) (sizeInBlocks : BitVec 64) : Prop where
  size_pos : 0 < sizeInBlocks.toInt
  fits : ∃ i ∈ s.freeBlocks.dpbQueue, requested sizeInBlocks ≤ s.lenOf i ∨ blocksPerVol ≤ s.lenOf i
  volInfo_room : ∀ i, s.freeBlocks.dpbQueue.find? (fun i => requested sizeInBlocks ≤ s.lenOf i) = some i →
    blocksPerVol ≤ s.lenOf i - requested sizeInBlocks → s.numDiskvolBlks < sp.volInfoRoom
  vol_room : VolRoom sp s.diskVols number

/-- a call with size 0 or without a free block does nothing -/
def StepOk (sp : Span) (s : CacheDisk) : Op → Prop
  | .createVolume number sizeInBlocks _ =>
    sizeInBlocks = 0 ∨ s.freeBlocks.dpbQueue = [] ∨ CreateOk sp s number sizeInBlocks
  | _ => True

/-- the two ways that `create_volume` goes on with a block -/
theorem createVolume_cases (sp : Span) (s : CacheDisk) (number : ℤ) (sizeInBlocks : BitVec 64) (scheme : ℕ) :
    (sizeInBlocks = 0 ∨ s.freeBlocks.dpbQueue = []) ∧ (s.createVolume sp number sizeInBlocks scheme).1 = s ∨
    sizeInBlocks ≠ 0 ∧
    ((∃ b, s.freeBlocks.dpbQueue.find? (fun i => requested sizeInBlocks ≤ s.lenOf i) = some b ∧
      (s.createVolume sp number sizeInBlocks scheme).1 = s.allocate sp b number (requested sizeInBlocks) scheme) ∨
    (∃ b ∈ s.freeBlocks.dpbQueue, (∀ i ∈ s.freeBlocks.dpbQueue, (s.lenOf i : ℤ) < requested sizeInBlocks) ∧
      (∀ i ∈ s.freeBlocks.dpbQueue, s.lenOf i ≤ s.lenOf b) ∧
      (s.createVolume sp number sizeInBlocks scheme).1 =
        { s with wastedSpace := s.wastedSpace + (s.lenOf b % blocksPerVol : ℕ) }.allocate sp b number
          (s.lenOf b - s.lenOf b % blocksPerVol : ℕ) scheme)) := by
  unfold CacheDisk.createVolume
  by_cases hzero : sizeInBlocks = 0
  · rw [if_pos hzero]
    exact Or.inl ⟨Or.inl hzero, rfl⟩
  · rw [if_neg hzero]
    cases hqueue : s.freeBlocks.dpbQueue with
    | nil => exact Or.inl ⟨Or.inr rfl, rfl⟩
    | cons q queue =>
      refine Or.inr ⟨hzero, ?_⟩
      obtain ⟨hfound, hnone⟩ := search_spec s.lenOf (requested sizeInBlocks) q (q :: queue)
      dsimp only
      rw [show (if sizeInBlocks.toInt ≤ maxBlocks then sizeInBlocks.toInt else (maxBlocks : ℤ)) = requested sizeInBlocks from rfl]
      generalize search s.lenOf (requested sizeInBlocks) q (q :: queue) = r at hfound hnone
      obtain ⟨b, found⟩ := r
      cases found with
      | true => exact Or.inl ⟨b, hfound rfl, rfl⟩
      | false =>
        obtain ⟨hall, hmem, hmax⟩ := hnone rfl
        have hb : b ∈ q :: queue := by
          rcases hmem with rfl | hmem
          · exact List.mem_cons_self
          · exact hmem
        exact Or.inr ⟨b, hb, hall, fun i hi => hmax i (List.mem_cons_of_mem q hi), rfl⟩

theorem requested_pos {sizeInBlocks : BitVec 64} : 0 < requested sizeInBlocks ↔ 0 < sizeInBlocks.toInt := by
  have : 0 < maxBlocks := by decide
  unfold requested
  split_ifs <;> omega

theorem Inv.createVolume {sizeInBlocks : BitVec 64} {scheme : ℕ} (h : Inv sp s) (hok : CreateOk sp s number sizeInBlocks) :
    Inv sp (s.createVolume sp number sizeInBlocks scheme).1 := by
  have hpos := requested_pos.mpr hok.size_pos
  rcases createVolume_cases sp s number sizeInBlocks scheme with ⟨_, heq⟩ | ⟨_, ⟨b, hfind, heq⟩ | ⟨b, hb, hall, hmax, heq⟩⟩
  · rw [heq]
    exact h
  · rw [heq]
    have hb := List.mem_of_find?_eq_some hfind
    have hle : requested sizeInBlocks ≤ s.lenOf b := by simpa using List.find?_some hfind
    obtain ⟨k, hk⟩ : ∃ k : ℕ, requested sizeInBlocks = k := ⟨_, (Int.toNat_of_nonneg hpos.le).symm⟩
    have hroom := hok.volInfo_room b hfind
    rw [hk] at hpos hle hroom ⊢
    by_cases hsplit : Splits s b k
    · apply h.allocate_split hb (by omega) (by omega) hsplit (hroom _) hok.vol_room
      unfold Splits u64 at hsplit
      omega
    · exact h.allocate_whole hb (by omega) (by omega) hsplit hok.vol_room
  · rw [heq]
    obtain ⟨i, hi, hfit⟩ := hok.fits
    have hlarge : blocksPerVol ≤ s.lenOf b := (hfit.resolve_left (not_le.mpr (hall i hi))).trans (hmax i hi)
    have hmod := Nat.mod_lt (s.lenOf b) (show 0 < blocksPerVol by decide)
    have hsub := Nat.sub_le (s.lenOf b) (s.lenOf b % blocksPerVol)
    have h' : Inv sp { s with wastedSpace := s.wastedSpace + (s.lenOf b % blocksPerVol : ℕ) } :=
      ⟨h.blocks, h.free, h.vols, h.counts, h.room, h.no_overrun⟩
    apply h'.allocate_whole hb (by omega) hsub _ hok.vol_room
    unfold Splits CacheDisk.lenOf u64
    unfold CacheDisk.lenOf at hmod
    dsimp only
    omega

/-! ### What goes wrong without `CreateOk` -/

theorem allocate_len (sp : Span) (s : CacheDisk) (b : ℕ) (number size : ℤ) (scheme : ℕ) :
    ((s.allocate sp b number size scheme).volInfo b).len = u64 size := by
  unfold CacheDisk.allocate CacheDisk.addToDiskVol
  dsimp only
  rw [Function.update_self]

theorem le_allocate_numDiskvolBlks (sp : Span) (s : CacheDisk) (b : ℕ) (number size : ℤ) (scheme : ℕ) :
    s.numDiskvolBlks ≤ (s.allocate sp b number size scheme).numDiskvolBlks := by
  unfold CacheDisk.allocate CacheDisk.addToDiskVol CacheDisk.splitOff
  dsimp only
  by_cases hsplit : u64 ((s.volInfo b).len - size) ≥ blocksPerVol
  · rw [if_pos hsplit]
    exact Nat.le_succ _
  · rw [if_neg hsplit]

theorem allocate_overrun {size : ℤ} {scheme : ℕ} (h : (s.allocate sp b number size scheme).overrun = false) :
    (Splits s b size → s.numDiskvolBlks < sp.volInfoRoom) ∧ VolRoom sp s.diskVols number := by
  unfold CacheDisk.allocate at h
  dsimp only at h
  rw [addToDiskVol_overrun] at h
  dsimp only at h
  rw [Function.update_self] at h
  unfold Splits CacheDisk.lenOf
  by_cases hsplit : u64 ((s.volInfo b).len - size) ≥ blocksPerVol
  · rw [if_pos hsplit] at h
    unfold CacheDisk.splitOff at h
    dsimp only at h
    rw [Bool.or_eq_false_iff, decide_eq_false_iff_not, not_le] at h
    exact ⟨fun _ => h.1.2, h.2⟩
  · rw [if_neg hsplit] at h
    exact ⟨fun h' => absurd h' hsplit, h.2⟩

/-- a block in the area is not 2^63 long -/
theorem LayoutOk.u64_lt {size : ℤ} {scheme : ℕ} (h : LayoutOk sp (s.allocate sp b number size scheme))
    (hb : b < s.numDiskvolBlks) : 0 < u64 size ∧ u64 size < 2 ^ 63 := by
  have hb' := lt_of_lt_of_le hb (le_allocate_numDiskvolBlks sp s b number size scheme)
  have hpos := h.len_pos b hb'
  have hin := h.inside b hb'
  have harea := sp.area_lt
  unfold DiskVolBlock.stop STORE_BLOCK_SIZE at hin
  unfold STORE_BLOCK_SIZE at harea
  rw [allocate_len] at hpos hin
  omega

theorem LayoutOk.createOk {sizeInBlocks : BitVec 64} {scheme : ℕ} (h : Inv sp s)
    (hlay : LayoutOk sp (s.createVolume sp number sizeInBlocks scheme).1) :
    StepOk sp s (.createVolume number sizeInBlocks scheme) := by
  rcases createVolume_cases sp s number sizeInBlocks scheme with ⟨hnone, _⟩ | ⟨hne, ⟨b, hfind, heq⟩ | ⟨b, hb, hall, hmax, heq⟩⟩
  · exact hnone.imp_right Or.inl
  · -- the size is taken as it is: it has to be positive
    rw [heq] at hlay
    have hb := List.mem_of_find?_eq_some hfind
    have hle : requested sizeInBlocks ≤ s.lenOf b := by simpa using List.find?_some hfind
    obtain ⟨hsplit, hvol⟩ := allocate_overrun hlay.no_overrun
    have hlen := hlay.u64_lt ((h.free.mem b).mp hb).1
    have hrange : -2 ^ 63 ≤ requested sizeInBlocks := by
      have := sizeInBlocks.le_toInt
      unfold requested
      split_ifs <;> omega
    have hpos : 0 < requested sizeInBlocks := by
      unfold u64 at hlen
      omega
    refine Or.inr (Or.inr ⟨requested_pos.mp hpos, ⟨b, hb, Or.inl hle⟩, fun i hi hrest => ?_, hvol⟩)
    obtain rfl : b = i := Option.some.inj (hfind.symm.trans hi)
    have hstop := h.blocks.lt_two_pow ((h.free.mem b).mp hb).1
    apply hsplit
    unfold Splits u64
    unfold DiskVolBlock.stop STORE_BLOCK_SIZE at hstop
    unfold CacheDisk.lenOf at hrest hle ⊢
    omega
  · -- the largest block is cut to whole chunks: it has to have one
    rw [heq] at hlay
    obtain ⟨_, hvol⟩ := allocate_overrun hlay.no_overrun
    have hlen := hlay.u64_lt ((h.free.mem b).mp hb).1
    have hpos : 0 < requested sizeInBlocks := by
      have := hall b hb
      omega
    have hlarge : blocksPerVol ≤ s.lenOf b := by
      by_contra hlt
      rw [Nat.mod_eq_of_lt (not_le.mp hlt), Nat.sub_self] at hlen
      exact absurd hlen.1 (by decide)
    refine Or.inr (Or.inr ⟨requested_pos.mp hpos, ⟨b, hb, Or.inr hlarge⟩, fun i hi _ => ?_, hvol⟩)
    have hle : requested sizeInBlocks ≤ s.lenOf i := by simpa using List.find?_some hi
    have := hall i (List.mem_of_find?_eq_some hi)
    omega

/-! ## `delete_volume` -/

/-- the array after the blocks of `queue` are freed -/
def freeAll (v : ℕ → DiskVolBlock) (queue : List ℕ) (i : ℕ) : DiskVolBlock :=
  if i ∈ queue then { v i with type := CACHE_NONE_TYPE, free := true } else v i

theorem freeAll_len (v : ℕ → DiskVolBlock) (queue : List ℕ) (i : ℕ) : (freeAll v queue i).len = (v i).len := by
  unfold freeAll
  split_ifs <;> rfl

theorem freeAll_offset (v : ℕ → DiskVolBlock) (queue : List ℕ) (i : ℕ) : (freeAll v queue i).offset = (v i).offset := by
  unfold freeAll
  split_ifs <;> rfl

theorem freeAll_number (v : ℕ → DiskVolBlock) (queue : List ℕ) (i : ℕ) : (freeAll v queue i).number = (v i).number := by
  unfold freeAll
  split_ifs <;> rfl

theorem freeAll_update (v : ℕ → DiskVolBlock) (b : ℕ) (queue : List ℕ) :
    freeAll (Function.update v b { v b with type := CACHE_NONE_TYPE, free := true }) queue = freeAll v (b :: queue) := by
  funext i
  unfold freeAll
  by_cases hib : i = b
  · subst hib
    simp
  · simp [hib]

theorem foldl_freeBlock (s : CacheDisk) (queue : List ℕ) :
    queue.foldl CacheDisk.freeBlock s = { s with
      volInfo := freeAll s.volInfo queue
      freeSpace := s.freeSpace + sumLen s.volInfo queue
      numFree := s.numFree + queue.length
      numUsed := s.numUsed - queue.length
      freeBlocks := { s.freeBlocks with dpbQueue := s.freeBlocks.dpbQueue ++ queue } } := by
  induction queue generalizing s with
  | nil =>
    have hnil : freeAll s.volInfo [] = s.volInfo := rfl
    simp [hnil, sumLen]
  | cons b queue ih =>
    have hsum : sumLen (Function.update s.volInfo b { s.volInfo b with type := CACHE_NONE_TYPE, free := true }) queue =
        sumLen s.volInfo queue := by
      apply sumLen_congr
      intro i _
      by_cases hib : i = b
      · subst hib
        rw [Function.update_self]
      · rw [Function.update_of_ne hib]
    rw [List.foldl_cons, ih]
    unfold CacheDisk.freeBlock CacheDisk.lenOf
    simp only [freeAll_update, hsum, List.append_assoc, List.singleton_append, List.length_cons]
    congr 1
    · push_cast
      ring
    · push_cast
      ring
    · rw [sumLen, sumLen, List.map_cons, List.sum_cons]
      push_cast
      ring

theorem volNumber_ne_of_mem_eraseP (hnodup : (vols.map DiskVol.volNumber).Nodup)
    (hdv : dv ∈ vols.eraseP fun dv => dv.volNumber = number) : dv.volNumber ≠ number := by
  induction vols with
  | nil => simp at hdv
  | cons dv' vols ih =>
    rw [List.map_cons, List.nodup_cons] at hnodup
    by_cases hnum : dv'.volNumber = number
    · rw [List.eraseP_cons_of_pos (by simpa using hnum)] at hdv
      intro heq
      exact hnodup.1 (by rw [hnum, ← heq]; exact List.mem_map_of_mem hdv)
    · rw [List.eraseP_cons_of_neg (by simpa using hnum), List.mem_cons] at hdv
      rcases hdv with rfl | hdv
      · exact hnum
      · exact ih hnodup.2 hdv

theorem Inv.deleteVolume (h : Inv sp s) (number : ℤ) : Inv sp (s.deleteVolume number).1 := by
  unfold CacheDisk.deleteVolume
  cases hfind : s.diskVols.find? (fun dv => dv.volNumber = number) with
  | none => exact h
  | some dv =>
    dsimp only
    rw [foldl_freeBlock]
    have hdv := List.mem_of_find?_eq_some hfind
    have hnum : dv.volNumber = number := by simpa using List.find?_some hfind
    have hok := h.vols.vol dv hdv
    have hfree : ∀ i, (freeAll s.volInfo dv.dpbQueue i).free = true ↔ i ∈ dv.dpbQueue ∨ (s.volInfo i).free = true := by
      intro i
      unfold freeAll
      split_ifs with hmem
      · simp [hmem]
      · simp [hmem]
    have hsum : ∀ queue, sumLen (freeAll s.volInfo dv.dpbQueue) queue = sumLen s.volInfo queue :=
      fun queue => sumLen_congr fun i _ => freeAll_len ..
    refine ⟨?_, ?_, ?_, ?_, ?_, h.no_overrun⟩
    · apply h.blocks.parts id (fun i hi => hi)
      · intro i hi
        dsimp only
        rw [DiskVolBlock.stop, DiskVolBlock.stop, freeAll_offset, freeAll_len]
        exact ⟨le_refl _, le_refl _⟩
      · intro i hi
        dsimp only
        rw [freeAll_len]
        exact h.blocks.len_pos i hi
      · exact fun i _ j _ hij heq => absurd heq hij
    · refine ⟨?_, fun i => ?_, ?_, ?_⟩
      · apply h.free.nodup.append hok.nodup
        intro i hi hi'
        have := (h.free.mem i).mp hi
        simp [((hok.mem i).mp hi').1.2] at this
      · dsimp only
        rw [hfree, List.mem_append, h.free.mem i]
        constructor
        · rintro (⟨hi, hf⟩ | hmem)
          · exact ⟨hi, Or.inr hf⟩
          · exact ⟨((hok.mem i).mp hmem).1.1, Or.inl hmem⟩
        · rintro ⟨hi, hmem | hf⟩
          · exact Or.inr hmem
          · exact Or.inl ⟨hi, hf⟩
      · dsimp only
        rw [hsum, sumLen_append, h.free.size_eq, hok.size_eq, Nat.cast_add]
      · dsimp only
        rw [hsum, sumLen_append, h.free.space_eq, Nat.cast_add]
    · -- the other volumes keep their blocks
      refine ⟨fun dv' hdv' => ?_, ?_, ?_⟩
      · have hne := volNumber_ne_of_mem_eraseP h.vols.numbers hdv'
        apply (h.vols.vol dv' (List.mem_of_mem_eraseP hdv')).congr
        · intro i hi
          have hnot : i ∉ dv.dpbQueue := by
            intro hmem
            have hnumi := ((hok.mem i).mp hmem).2
            dsimp only at hi
            rw [freeAll_number] at hi
            exact hne (by rw [← hi, ← hnum, ← hnumi])
          dsimp only
          rw [freeAll, if_neg hnot]
        · exact fun i _ => ⟨freeAll_len .., freeAll_number ..⟩
      · exact h.vols.numbers.sublist (List.eraseP_sublist.map _)
      · rintro i ⟨hi, hused⟩
        have hnot : i ∉ dv.dpbQueue := by
          intro hmem
          simp [(hfree i).mpr (Or.inl hmem)] at hused
        dsimp only at hused ⊢
        rw [freeAll, if_neg hnot] at hused ⊢
        obtain ⟨dv', hdv', hnum'⟩ := h.vols.covers i ⟨hi, hused⟩
        refine ⟨dv', ?_, hnum'⟩
        rw [List.mem_eraseP_of_neg]
        · exact hdv'
        · intro heq
          apply hnot
          rw [hok.mem i]
          exact ⟨⟨hi, hused⟩, by rw [← hnum', hnum]; simpa using heq⟩
    · have := h.counts
      dsimp only
      omega
    · exact List.eraseP_sublist.length_le.trans h.room

/-! ## `update_header` -/

/-- the loop of `update_header` after `k` entries; `numbers` are the volume numbers in the header -/
structure PlaceInv (sp : Span) (s : CacheDisk) (numbers : List ℤ) (k : ℕ) (t : CacheDisk) : Prop where
  free : FreeOk s.volInfo (fun i => i < k ∧ (s.volInfo i).free = true) t.freeBlocks t.freeSpace
  vols : VolsOk s.volInfo (fun i => i < k ∧ (s.volInfo i).free = false) t.diskVols
  numbers_sub : ∀ dv ∈ t.diskVols, dv.volNumber ∈ numbers
  same : t.volInfo = s.volInfo ∧ t.numUsed = s.numUsed ∧ t.numFree = s.numFree ∧ t.numDiskvolBlks = s.numDiskvolBlks
  no_overrun : t.overrun = false

variable {numbers : List ℤ} {k : ℕ} {t : CacheDisk}

theorem lt_succ_and_iff {p : ℕ → Prop} (hk : p k) (i : ℕ) : (i < k ∧ p i ∨ i = k) ↔ i < k + 1 ∧ p i := by
  constructor
  · rintro (⟨hi, hp⟩ | rfl)
    · exact ⟨by omega, hp⟩
    · exact ⟨by omega, hk⟩
  · rintro ⟨hi, hp⟩
    by_cases hik : i = k
    · exact Or.inr hik
    · exact Or.inl ⟨by omega, hp⟩

theorem lt_succ_and_iff_of_not {p : ℕ → Prop} (hk : ¬ p k) (i : ℕ) : (i < k ∧ p i) ↔ i < k + 1 ∧ p i := by
  constructor
  · rintro ⟨hi, hp⟩
    exact ⟨by omega, hp⟩
  · rintro ⟨hi, hp⟩
    have hik : i ≠ k := by
      rintro rfl
      exact hk hp
    exact ⟨by omega, hp⟩

/-- the volumes found so far are among those of the header: there is an entry for each -/
theorem PlaceInv.volRoom (h : PlaceInv sp s numbers k t) (hlen : numbers.length ≤ sp.diskVolsRoom)
    (hnum : number ∈ numbers) : VolRoom sp t.diskVols number := by
  by_cases hmem : number ∈ t.diskVols.map DiskVol.volNumber
  · exact Or.inl hmem
  · right
    have hnodup : (number :: t.diskVols.map DiskVol.volNumber).Nodup := List.nodup_cons.mpr ⟨hmem, h.vols.numbers⟩
    have hsub : number :: t.diskVols.map DiskVol.volNumber ⊆ numbers := by
      rw [List.cons_subset]
      refine ⟨hnum, fun x hx => ?_⟩
      obtain ⟨dv, hdv, rfl⟩ := List.mem_map.mp hx
      exact h.numbers_sub dv hdv
    have hle := (hnodup.subperm hsub).length_le
    rw [List.length_cons, List.length_map] at hle
    omega

theorem PlaceInv.placeBlock (h : PlaceInv sp s numbers k t) (hlen : numbers.length ≤ sp.diskVolsRoom)
    (hnum : (s.volInfo k).free = false → (s.volInfo k).number ∈ numbers) :
    PlaceInv sp s numbers (k + 1) (t.placeBlock sp k) := by
  unfold CacheDisk.placeBlock
  have hv := h.same.1
  by_cases hfree : (s.volInfo k).free = true
  · rw [if_pos (by rw [hv]; exact hfree)]
    refine ⟨?_, ?_, h.numbers_sub, h.same, h.no_overrun⟩
    · have hadd := h.free.add (b := k) (n := t.freeBlocks.numVolblocks + 1) (by omega)
      unfold CacheDisk.lenOf
      rw [hv]
      exact hadd.congr (lt_succ_and_iff hfree) fun i _ => rfl
    · exact h.vols.congr (lt_succ_and_iff_of_not (by simp [hfree])) fun i _ => ⟨rfl, rfl⟩
  · have hused : (s.volInfo k).free = false := by simpa using hfree
    rw [if_neg (by rw [hv]; exact hfree)]
    have hroom := h.volRoom hlen (hnum hused)
    refine ⟨?_, ?_, ?_, h.same, ?_⟩
    · exact h.free.congr (lt_succ_and_iff_of_not hfree) fun i _ => rfl
    · have henq := h.vols.enqueueVol (b := k) (by omega)
      unfold CacheDisk.addToDiskVol
      dsimp only
      rw [hv]
      exact henq.congr (lt_succ_and_iff hused) fun i _ => ⟨rfl, rfl⟩
    · intro dv hdv
      have hmem : dv.volNumber ∈ (t.addToDiskVol sp k).diskVols.map DiskVol.volNumber := List.mem_map_of_mem hdv
      unfold CacheDisk.addToDiskVol at hmem
      dsimp only at hmem
      rw [map_volNumber_enqueueVol, hv] at hmem
      have hold : ∀ x ∈ t.diskVols.map DiskVol.volNumber, x ∈ numbers := by
        intro x hx
        obtain ⟨dv', hdv', rfl⟩ := List.mem_map.mp hx
        exact h.numbers_sub dv' hdv'
      split_ifs at hmem
      · exact hold _ hmem
      · rcases List.mem_append.mp hmem with hmem | hmem
        · exact hold _ hmem
        · rw [List.mem_singleton.mp hmem]
          exact hnum hused
    · rw [addToDiskVol_overrun, hv]
      exact ⟨h.no_overrun, hroom⟩

theorem placeInv_foldl (hlen : numbers.length ≤ sp.diskVolsRoom)
    (hnum : ∀ i < k, (s.volInfo i).free = false → (s.volInfo i).number ∈ numbers) (h : PlaceInv sp s numbers 0 t) :
    PlaceInv sp s numbers k ((List.range k).foldl (CacheDisk.placeBlock sp) t) := by
  induction k with
  | zero => exact h
  | succ k ih =>
    rw [List.range_succ, List.foldl_append, List.foldl_cons, List.foldl_nil]
    have hk := ih fun i hi => hnum i (by omega)
    exact hk.placeBlock hlen (hnum k (Nat.lt_succ_self k))

/-- `update_header` on an array in order: the queues that belong to it -/
theorem inv_updateHeader (numbers : List ℤ) (hblocks : BlocksOk sp s.volInfo s.numDiskvolBlks)
    (hcounts : s.numUsed + s.numFree = s.numDiskvolBlks) (hlen : numbers.length ≤ sp.diskVolsRoom)
    (hnum : ∀ i < s.numDiskvolBlks, (s.volInfo i).free = false → (s.volInfo i).number ∈ numbers)
    (hover : s.overrun = false) : Inv sp (s.updateHeader sp) := by
  have hstart : PlaceInv sp s numbers 0 { s with
      freeBlocks := { numVolblocks := 0, volNumber := -1, size := 0, dpbQueue := [] }, freeSpace := 0, diskVols := [] } := by
    refine ⟨⟨List.nodup_nil, fun i => ?_, rfl, rfl⟩, ⟨by simp, List.nodup_nil, ?_⟩, by simp, ⟨rfl, rfl, rfl, rfl⟩, hover⟩
    · simp
    · rintro i ⟨hi, _⟩
      omega
  have hdone := placeInv_foldl hlen hnum hstart
  unfold CacheDisk.updateHeader
  generalize (List.range s.numDiskvolBlks).foldl (CacheDisk.placeBlock sp) _ = t at hdone
  obtain ⟨hfree, hvols, hsub, ⟨hv, hused, hnfree, hn⟩, hover'⟩ := hdone
  refine ⟨?_, ?_, ?_, ?_, ?_, hover'⟩
  · rw [hv, hn]
    exact hblocks
  · rw [hv, hn]
    exact hfree
  · rw [hv, hn]
    exact hvols
  · rw [hused, hnfree, hn]
    exact hcounts
  · have hle : (t.diskVols.map DiskVol.volNumber).length ≤ numbers.length := by
      apply (hvols.numbers.subperm _).length_le
      intro x hx
      obtain ⟨dv, hdv, rfl⟩ := List.mem_map.mp hx
      exact hsub dv hdv
    rw [List.length_map] at hle
    exact hle.trans hlen

theorem Inv.reopen (h : Inv sp s) : Inv sp (s.reopen sp) := by
  unfold CacheDisk.reopen
  apply inv_updateHeader (s.diskVols.map DiskVol.volNumber)
  · exact h.blocks
  · exact h.counts
  · rw [List.length_map]
    exact h.room
  · intro i hi hused
    exact List.mem_map.mpr (h.vols.covers i ⟨hi, hused⟩)
  · exact h.no_overrun

theorem inv_deleteAllVolumes (hpos : 0 < sp.numUsableBlocks) (hover : s.overrun = false) : Inv sp (s.deleteAllVolumes sp) := by
  have harea := sp.area_lt
  have hlen : (u64 sp.numUsableBlocks : ℤ) = sp.numUsableBlocks := by
    unfold u64
    unfold STORE_BLOCK_SIZE at harea
    omega
  apply inv_updateHeader []
  · refine ⟨fun i hi j hj hij => ?_, fun i hi => ?_, fun i hi => ?_⟩
    · dsimp only at hi hj
      omega
    · obtain rfl : i = 0 := by dsimp only at hi; omega
      dsimp only
      rw [Function.update_self]
      dsimp only
      omega
    · obtain rfl : i = 0 := by dsimp only at hi; omega
      dsimp only
      rw [Function.update_self]
      unfold DiskVolBlock.stop
      dsimp only
      push_cast
      rw [hlen]
      exact ⟨le_refl _, le_refl _⟩
  · rfl
  · exact Nat.zero_le _
  · intro i hi hused
    obtain rfl : i = 0 := by dsimp only at hi; omega
    dsimp only at hused
    rw [Function.update_self] at hused
    exact absurd hused (by simp)
  · exact hover

/-! ## Runs -/

theorem step_inv {op : Op} (hpos : 0 < sp.numUsableBlocks) (h : Inv sp s) (hok : StepOk sp s op) : Inv sp (step sp s op) := by
  cases op with
  | createVolume number sizeInBlocks scheme =>
    rcases hok with hzero | hnil | hok
    · have : (s.createVolume sp number sizeInBlocks scheme).1 = s := by rw [CacheDisk.createVolume, if_pos hzero]
      rw [step, this]
      exact h
    · have : (s.createVolume sp number sizeInBlocks scheme).1 = s := by
        rw [CacheDisk.createVolume, hnil]
        split_ifs <;> rfl
      rw [step, this]
      exact h
    · exact h.createVolume hok
  | deleteVolume number => exact h.deleteVolume number
  | deleteAllVolumes => exact inv_deleteAllVolumes hpos h.no_overrun
  | reopen => exact h.reopen

theorem step_breaks {op : Op} (h : Inv sp s) (hbad : ¬ StepOk sp s op) : ¬ LayoutOk sp (step sp s op) := by
  intro hlay
  cases op with
  | createVolume number sizeInBlocks scheme => exact hbad (hlay.createOk h)
  | deleteVolume number => exact hbad trivial
  | deleteAllVolumes => exact hbad trivial
  | reopen => exact hbad trivial

/-- a cleared disk is in order exactly if it has a usable block -/
theorem usable_of_clearDisk (h : LayoutOk sp (clearDisk sp)) : 0 < sp.numUsableBlocks := by
  have hpos := h.len_pos 0 Nat.zero_lt_one
  have hin := (h.inside 0 Nat.zero_lt_one).2
  have hblock : (clearDisk sp).volInfo 0 = ⟨sp.start, u64 sp.numUsableBlocks, 0, CACHE_NONE_TYPE, true⟩ := rfl
  rw [hblock] at hpos hin
  unfold DiskVolBlock.stop STORE_BLOCK_SIZE at hin
  dsimp only at hpos hin
  omega

/-- The volume blocks of a disk are in order after every operation exactly if the disk has a usable block and every
`create_volume` meets its condition. -/
theorem layout_iff (sp : Span) (ops : List Op) :
    (∀ m, LayoutOk sp ((ops.take m).foldl (step sp) (clearDisk sp))) ↔
      0 < sp.numUsableBlocks ∧ Along (step sp) (StepOk sp) (clearDisk sp) ops := by
  by_cases hpos : 0 < sp.numUsableBlocks
  · have hC : Along (step sp) (fun _ _ => True) (clearDisk sp) ops := along_of_forall fun _ _ => trivial
    rw [along_iff (I := Inv sp) (fun s h => h.layoutOk) (fun s op h _ hok => step_inv hpos h hok)
      (fun s op h _ hbad => step_breaks h hbad) hC (inv_deleteAllVolumes hpos rfl)]
    exact (and_iff_right hpos).symm
  · exact ⟨fun h => absurd (usable_of_clearDisk (h 0)) hpos, fun h => absurd h.1 hpos⟩

/-- a disk of 10000 blocks, less than 128 MB, and a volume of 128 MB on it: its block has length 0 -/
theorem zero_length_block : ¬ ∀ (sp : Span) (ops : List Op), 0 < sp.numUsableBlocks →
    ∀ m, LayoutOk sp ((ops.take m).foldl (step sp) (clearDisk sp)) := by
  intro h
  have hlay := h (openSpan 10000 8192 (by decide)) [.createVolume 1 16384 1] (by decide) 1
  exact absurd (hlay.len_pos 0 (by decide)) (by decide)

end TrafficServer.Cache.Disk
