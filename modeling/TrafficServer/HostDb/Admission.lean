/-
What `RefCountCachePartition::put` admits, and its limits.

`put` only makes space in a partition that is full already, so an item that does not fit is stored in one that is nearly full. In a full
one `make_space_for` asks for `size + this->size` to be at most `max_size`, also where `max_size` is zero and means no limit: then no new item
is stored, whatever expires.

`Admitted` is what a put should do and `Admits` says when it does it. The loop of `make_space_for` evicts expired items and nothing else
(`Evicted`), so it fails exactly if the condition of the loop holds with only the items left that have not expired.
-/
import Mathlib
import TrafficServer.HostDb.RefCountCache
import TrafficServer.Lib.Run

namespace TrafficServer.HostDb

open TrafficServer.IndexedHeap TrafficServer.TsCore TrafficServer.Run

/-! ## Admission -/

/-- the size of a new item, with `sizeof(C)` as `objectSize` -/
def itemSize (objectSize : ℕ) (size : ℤ) : ℕ := ((size + objectSize) % 2 ^ 32).toNat

namespace Partition

/-- the item can expire, and has -/
def expired (p : Partition) (now : ℤ) (e : ℕ) : Bool := decide (0 ≤ p.expiry e) && decide (p.expiry e < now)

/-- the items that have not expired -/
def live (p : Partition) (now : ℤ) : List ℕ := p.entries.filter fun e => !p.expired now e

def liveBytes (p : Partition) (now : ℤ) : ℕ := ((p.live now).map fun e => (p.entryMeta e).size).sum

/-- without the expired items there is room for an item of that size -/
def Room (p : Partition) (now : ℤ) (size : ℕ) : Prop :=
  (0 < p.maxItems → (p.live now).length < p.maxItems) ∧ (0 < p.maxSize → p.liveBytes now + size ≤ p.maxSize)

def WithinLimits (p : Partition) : Prop := (0 < p.maxItems → p.items ≤ p.maxItems) ∧ (0 < p.maxSize → p.size ≤ p.maxSize)

/-- what a put should do -/
def Admitted (objectSize : ℕ) (p : Partition) (now : ℤ) (key : ℕ) (size expireTime : ℤ) : Prop :=
  (p.put objectSize now key size expireTime).WithinLimits ∧
    ((p.erase key (-1)).Room now (itemSize objectSize size) →
      ∃ e ∈ (p.put objectSize now key size expireTime).entries,
        (p.put objectSize now key size expireTime).entryMeta e = ⟨key, itemSize objectSize size, expireTime⟩)

/-- when it does: the item fits in a partition that is not full; a full one has a limit on its size that what has not expired keeps -/
def Admits (objectSize : ℕ) (p : Partition) (now : ℤ) (key : ℕ) (size : ℤ) : Prop :=
  let q := p.erase key (-1)
  let size := itemSize objectSize size
  if q.isFull then
    if q.maxSize = 0 then size = 0 ∨ q.maxItems ≤ (q.live now).length
    else q.liveBytes now < q.maxSize ∨
      q.liveBytes now = q.maxSize ∧ (0 < size ∨ 0 < q.maxItems ∧ q.maxItems ≤ (q.live now).length)
  else q.maxSize = 0 ∨ q.size + size ≤ q.maxSize

/-- the condition of the loop in `make_space_for` -/
def lacks (p : Partition) (size : ℕ) : Bool := p.isFull || (decide (size > 0) && decide (p.size + size > p.maxSize))

end Partition

/-- before an operation, for the puts -/
def OpAdmits (objectSize : ℕ) (p : Partition) : Op → Prop
  | .put now key size _ => p.Admits objectSize now key size
  | _ => True

variable {p q : Partition} {e : ℕ} {now : ℤ}

/-! ## Evictions -/

/-- the limits are the same, and there is no more -/
structure Shrunk (p q : Partition) : Prop where
  maxSize : q.maxSize = p.maxSize
  maxItems : q.maxItems = p.maxItems
  items : q.items ≤ p.items
  size : q.size ≤ p.size

theorem Shrunk.refl (p : Partition) : Shrunk p p := ⟨rfl, rfl, le_rfl, le_rfl⟩

theorem Shrunk.trans {r : Partition} (h : Shrunk p q) (h' : Shrunk q r) : Shrunk p r :=
  ⟨h'.maxSize.trans h.maxSize, h'.maxItems.trans h.maxItems, h'.items.trans h.items, h'.size.trans h.size⟩

theorem removeEntry_shrunk (p : Partition) (e : ℕ) : Shrunk p (p.removeEntry e) := ⟨rfl, rfl, Nat.sub_le _ _, Nat.sub_le _ _⟩

theorem erase_shrunk (p : Partition) (key : ℕ) (t : ℤ) : Shrunk p (p.erase key t) := by
  unfold Partition.erase
  cases p.itemMap.find p.key key with
  | none => exact Shrunk.refl p
  | some e =>
    dsimp only
    split_ifs
    · exact Shrunk.refl p
    · exact removeEntry_shrunk p e

/-- expired items have left -/
structure Evicted (now : ℤ) (p q : Partition) : Prop where
  inv : Inv q
  shrunk : Shrunk p q
  entryMeta : q.entryMeta = p.entryMeta
  gone : ∃ l, p.entries.Perm (l ++ q.entries) ∧ ∀ x ∈ l, p.expired now x

theorem Inv.evicted_refl (h : Inv p) : Evicted now p p := ⟨h, Shrunk.refl p, rfl, [], List.Perm.refl _, fun _ hx => absurd hx List.not_mem_nil⟩

theorem expired_congr (h : q.entryMeta = p.entryMeta) (x : ℕ) : q.expired now x = p.expired now x := by
  unfold Partition.expired Partition.expiry
  rw [h]

theorem Evicted.trans {r : Partition} (h : Evicted now p q) (h' : Evicted now q r) : Evicted now p r := by
  obtain ⟨l, hperm, hl⟩ := h.gone
  obtain ⟨l', hperm', hl'⟩ := h'.gone
  refine ⟨h'.inv, h.shrunk.trans h'.shrunk, h'.entryMeta.trans h.entryMeta, l ++ l', ?_, fun x hx => ?_⟩
  · rw [List.append_assoc]
    exact hperm.trans (hperm'.append_left l)
  · rcases List.mem_append.mp hx with hx | hx
    · exact hl x hx
    · rw [← expired_congr h.entryMeta]
      exact hl' x hx

/-- the eviction of one item -/
theorem Inv.evicted_erase (h : Inv p) (he : e ∈ p.entries) (hexpired : p.expired now e) : Evicted now p (p.erase (p.key e) (-1)) where
  inv := h.erase _ _
  shrunk := erase_shrunk p _ _
  entryMeta := (p.erase_entries_sub h _ _).2
  gone := ⟨[e], h.erase_entries he, fun x hx => by rwa [List.mem_singleton.mp hx]⟩

/-- what has not expired stays -/
theorem Evicted.live_perm (h : Evicted now p q) : (p.live now).Perm (q.live now) := by
  obtain ⟨l, hperm, hl⟩ := h.gone
  have hnil : l.filter (fun e => !p.expired now e) = [] := by
    refine List.filter_eq_nil_iff.mpr fun x hx => ?_
    rw [hl x hx]
    decide
  have hfilter := hperm.filter fun e => !p.expired now e
  rw [List.filter_append, hnil, List.nil_append] at hfilter
  unfold Partition.live
  simp only [expired_congr h.entryMeta]
  exact hfilter

theorem Evicted.liveBytes_eq (h : Evicted now p q) : q.liveBytes now = p.liveBytes now := by
  unfold Partition.liveBytes
  rw [h.entryMeta]
  exact (h.live_perm.symm.map _).sum_eq

theorem Inv.live_le (now : ℤ) (h : Inv p) : (p.live now).length ≤ p.items ∧ p.liveBytes now ≤ p.size := by
  rw [h.items, h.size]
  refine ⟨List.length_filter_le _ _, ?_⟩
  exact ((List.filter_sublist (p := fun e => !p.expired now e)).map fun e => (p.entryMeta e).size).sum_le_sum fun _ _ => Nat.zero_le _

/-- nothing that is left has expired -/
theorem live_eq (hnone : ∀ x ∈ p.entries, p.expired now x = false) : p.live now = p.entries := by
  refine List.filter_eq_self.mpr fun x hx => ?_
  rw [hnone x hx]
  rfl

/-! ## The loop -/

/-- the first item in the queue is the first to expire -/
theorem Inv.expired_none (h : Inv p) (ht : ∀ top, p.expiryQueue.v.head? = some top → ¬ p.expiry top < now) :
    ∀ x ∈ p.entries, p.expired now x = false := by
  intro x hx
  by_contra hexp
  rw [Bool.not_eq_false, Partition.expired, Bool.and_eq_true, decide_eq_true_eq, decide_eq_true_eq] at hexp
  obtain ⟨i, hi⟩ := List.mem_iff_getElem?.mp ((h.queued x).mpr ⟨hx, hexp.1⟩)
  cases hv : p.expiryQueue.v with
  | nil => simp [hv] at hi
  | cons top l =>
    have hfirst := h.ordered.first p.less_weak i
    rw [comp_some hi (show p.expiryQueue.v[0]? = some top by rw [hv]; rfl)] at hfirst
    have hle : p.expiry top ≤ p.expiry x := not_lt.mp (of_decide_eq_false hfirst)
    exact ht top (by rw [hv]; rfl) (lt_of_le_of_lt hle hexp.2)

theorem makeSpaceLoop_succ (p : Partition) (now : ℤ) (size fuel : ℕ) : p.makeSpaceLoop now size (fuel + 1) =
    if p.lacks size then
      match p.expiryQueue.v.head? with
      | none => (p, some false)
      | some top => if p.expiry top < now then Partition.makeSpaceLoop now size fuel (p.erase (p.key top) (-1)) else (p, some false)
    else (p, some true) := rfl

/-- The loop evicts expired items. It gives up with none of them left and the condition still true. -/
theorem Inv.makeSpaceLoop_spec (now : ℤ) (size fuel : ℕ) (h : Inv p) (hf : p.entries.length < fuel) :
    ∃ q b, p.makeSpaceLoop now size fuel = (q, some b) ∧ Evicted now p q ∧ q.lacks size = !b ∧
      (b = false → ∀ x ∈ q.entries, q.expired now x = false) := by
  induction fuel generalizing p with
  | zero => exact absurd hf (Nat.not_lt_zero _)
  | succ fuel ih =>
    rw [makeSpaceLoop_succ]
    by_cases hlacks : p.lacks size
    · have hstop : (∀ top, p.expiryQueue.v.head? = some top → ¬ p.expiry top < now) → Evicted now p p ∧ p.lacks size = !false ∧
          (false = false → ∀ x ∈ p.entries, p.expired now x = false) := fun ht => ⟨h.evicted_refl, hlacks, fun _ => h.expired_none ht⟩
      rw [if_pos hlacks]
      cases ht : p.expiryQueue.v.head? with
      | none => exact ⟨p, false, rfl, hstop fun top htop => by simp [ht] at htop⟩
      | some top =>
        dsimp only
        split_ifs with hlt
        · obtain ⟨htop, hexp⟩ := (h.queued top).mp (List.mem_of_head? ht)
          have hexpired : p.expired now top = true := by rw [Partition.expired, decide_eq_true hexp, decide_eq_true hlt]; rfl
          have hone := h.evicted_erase htop hexpired
          have hlen := (h.erase_entries htop).length_eq
          rw [List.length_cons] at hlen
          obtain ⟨q, b, hloop, hevicted, hrest⟩ := ih hone.inv (by omega)
          exact ⟨q, b, hloop, hone.trans hevicted, hrest⟩
        · refine ⟨p, false, rfl, hstop fun top' htop' => ?_⟩
          rw [ht] at htop'
          rwa [← Option.some.inj htop']
    · rw [if_neg hlacks]
      exact ⟨p, true, rfl, h.evicted_refl, Bool.eq_false_iff.mpr hlacks, fun hb => absurd hb (by decide)⟩

/-- the condition of the loop, with the items left that have not expired -/
def LiveLacks (p : Partition) (now : ℤ) (size : ℕ) : Prop :=
  0 < p.maxItems ∧ p.maxItems ≤ (p.live now).length ∨ 0 < p.maxSize ∧ p.maxSize ≤ p.liveBytes now ∨ 0 < size ∧ p.maxSize < p.liveBytes now + size

theorem lacks_iff (size : ℕ) : p.lacks size ↔
    0 < p.maxItems ∧ p.maxItems ≤ p.items ∨ 0 < p.maxSize ∧ p.maxSize ≤ p.size ∨ 0 < size ∧ p.maxSize < p.size + size := by
  simp [Partition.lacks, Partition.isFull, or_assoc]

/-- whether it gives up is decided by what has not expired -/
theorem Inv.makeSpaceFor_spec (now : ℤ) (size : ℕ) (h : Inv p) :
    ∃ q b, p.makeSpaceFor now size = (q, some b) ∧ Evicted now p q ∧ (b = false ↔ LiveLacks p now size) ∧ q.lacks size = !b ∧
      (b = false → q.items = (p.live now).length ∧ q.size = p.liveBytes now) := by
  have hcount : p.itemMap.count = p.entries.length := h.table.count
  obtain ⟨q, b, hloop, hq, hlacks, hnone⟩ := h.makeSpaceLoop_spec now size (p.itemMap.count + 1) (by omega)
  have hlive := hq.live_perm.length_eq
  have hbytes := hq.liveBytes_eq
  have hcounts : b = false → q.items = (p.live now).length ∧ q.size = p.liveBytes now := by
    intro hb
    have heq := live_eq (hnone hb)
    rw [hlive, ← hbytes, Partition.liveBytes, heq]
    exact ⟨hq.inv.items, hq.inv.size⟩
  refine ⟨q, b, hloop, hq, ?_, hlacks, hcounts⟩
  have hiff := lacks_iff (p := q) size
  rw [hq.shrunk.maxSize, hq.shrunk.maxItems] at hiff
  have hle := hq.inv.live_le now
  rw [hbytes, ← hlive] at hle
  cases b with
  | false =>
    obtain ⟨hitems, hsize⟩ := hcounts rfl
    rw [hitems, hsize] at hiff
    exact iff_of_true rfl (hiff.mp hlacks)
  | true =>
    have hnot : ¬ q.lacks size = true := by
      rw [hlacks]
      decide
    rw [hiff] at hnot
    refine iff_of_false (by decide) fun hl => hnot ?_
    rcases hl with ⟨h₁, h₂⟩ | ⟨h₁, h₂⟩ | ⟨h₁, h₂⟩
    · exact Or.inl ⟨h₁, h₂.trans hle.1⟩
    · exact Or.inr (Or.inl ⟨h₁, h₂.trans hle.2⟩)
    · exact Or.inr (Or.inr ⟨h₁, by omega⟩)

/-! ## A put -/

theorem store_limits (p : Partition) (m : ItemMeta) : (p.store m).maxSize = p.maxSize ∧ (p.store m).maxItems = p.maxItems := by
  unfold Partition.store
  dsimp only
  split_ifs <;> exact ⟨rfl, rfl⟩

/-- What `put` gives: the item is stored behind some evictions, or nothing is left that has expired and there is too little space. -/
theorem Inv.put_spec (h : Inv p) (objectSize : ℕ) (now : ℤ) (key : ℕ) (size expireTime : ℤ) :
    (∃ q, Evicted now (p.erase key (-1)) q ∧ p.put objectSize now key size expireTime = q.store ⟨key, itemSize objectSize size, expireTime⟩ ∧
        ((p.erase key (-1)).isFull → ¬ LiveLacks (p.erase key (-1)) now (itemSize objectSize size) ∧ q.lacks (itemSize objectSize size) = false) ∧
        (¬ (p.erase key (-1)).isFull → q = p.erase key (-1))) ∨
      (p.erase key (-1)).isFull ∧ LiveLacks (p.erase key (-1)) now (itemSize objectSize size) ∧
        Evicted now (p.erase key (-1)) (p.put objectSize now key size expireTime) ∧
        (p.put objectSize now key size expireTime).items = ((p.erase key (-1)).live now).length ∧
        (p.put objectSize now key size expireTime).size = (p.erase key (-1)).liveBytes now := by
  have herase := h.erase key (-1)
  obtain ⟨q, b, hmake, hq, hb, hlacks, hcounts⟩ := herase.makeSpaceFor_spec now (itemSize objectSize size)
  by_cases hfull : (p.erase key (-1)).isFull
  · have hput : p.put objectSize now key size expireTime = if b then q.store ⟨key, itemSize objectSize size, expireTime⟩ else q := by
      rw [itemSize] at hmake
      rw [Partition.put, if_pos hfull, hmake]
      cases b <;> rfl
    rw [hput]
    cases b with
    | true => exact Or.inl ⟨q, hq, rfl, fun _ => ⟨fun hl => absurd (hb.mpr hl) (by decide), hlacks⟩, fun hn => absurd hfull hn⟩
    | false => exact Or.inr ⟨hfull, hb.mp rfl, hq, hcounts rfl⟩
  · refine Or.inl ⟨p.erase key (-1), herase.evicted_refl, ?_, fun hf => absurd hf hfull, fun _ => rfl⟩
    rw [Partition.put, if_neg hfull]
    rfl

theorem isFull_iff : p.isFull ↔ 0 < p.maxItems ∧ p.maxItems ≤ p.items ∨ 0 < p.maxSize ∧ p.maxSize ≤ p.size := by
  simp [Partition.isFull]

/-- the limits are the same -/
theorem Inv.put_limits (h : Inv p) (objectSize : ℕ) (now : ℤ) (key : ℕ) (size expireTime : ℤ) :
    (p.put objectSize now key size expireTime).maxSize = p.maxSize ∧ (p.put objectSize now key size expireTime).maxItems = p.maxItems := by
  have herase := erase_shrunk p key (-1)
  rcases h.put_spec objectSize now key size expireTime with ⟨q, hq, hput, -⟩ | ⟨-, -, hq, -⟩
  · obtain ⟨hsize, hitems⟩ := store_limits q ⟨key, itemSize objectSize size, expireTime⟩
    have hall := herase.trans hq.shrunk
    rw [hput, hsize, hitems]
    exact ⟨hall.maxSize, hall.maxItems⟩
  · have hall := herase.trans hq.shrunk
    exact ⟨hall.maxSize, hall.maxItems⟩

/-- A put keeps the limit on the items. -/
theorem Inv.put_items (h : Inv p) (hitems : 0 < p.maxItems → p.items ≤ p.maxItems) (objectSize : ℕ) (now : ℤ) (key : ℕ) (size expireTime : ℤ) :
    0 < p.maxItems → (p.put objectSize now key size expireTime).items ≤ p.maxItems := by
  intro hpos
  have hmax := (erase_shrunk p key (-1)).maxItems
  have hle := (erase_shrunk p key (-1)).items
  have hold := hitems hpos
  rcases h.put_spec objectSize now key size expireTime with ⟨q, hq, hput, hfull, hroom⟩ | ⟨-, -, -, hcount, -⟩
  · have hlt : q.items < q.maxItems := by
      by_contra hn
      have hqfull : q.isFull := isFull_iff.mpr (Or.inl ⟨by rw [hq.shrunk.maxItems, hmax]; exact hpos, not_lt.mp hn⟩)
      by_cases hp : (p.erase key (-1)).isFull
      · have hlacks := (hfull hp).2
        rw [Partition.lacks, hqfull] at hlacks
        cases hlacks
      · exact hp (hroom hp ▸ hqfull)
    rw [hput, (store_counts q _).2.1]
    rw [hq.shrunk.maxItems, hmax] at hlt
    exact hlt
  · rw [hcount]
    exact (((h.erase key (-1)).live_le now).1.trans hle).trans hold

/-- exactly when a put does what it should -/
theorem Inv.admitted_iff (h : Inv p) (hitems : 0 < p.maxItems → p.items ≤ p.maxItems) (objectSize : ℕ) (now : ℤ) (key : ℕ)
    (size expireTime : ℤ) : p.Admitted objectSize now key size expireTime ↔ p.Admits objectSize now key size := by
  have herase := h.erase key (-1)
  obtain ⟨hputSize, hputItems⟩ := h.put_limits objectSize now key size expireTime
  obtain ⟨hmaxSize, hmaxItems, -, -⟩ := erase_shrunk p key (-1)
  have hkept := h.put_items hitems objectSize now key size expireTime
  have hfull := isFull_iff (p := p.erase key (-1))
  unfold Partition.Admitted Partition.Admits Partition.WithinLimits Partition.Room
  dsimp only
  rw [hputSize, hputItems, hmaxSize, hmaxItems]
  rw [hmaxSize, hmaxItems] at hfull
  rcases h.put_spec objectSize now key size expireTime with ⟨q, hq, hput, hwas, hroom⟩ | ⟨hwas, hlack, hq, hcount, hbytes⟩
  · -- the item is stored
    obtain ⟨-, hperm⟩ := hq.inv.store_table ⟨key, itemSize objectSize size, expireTime⟩
    have hstored : ∃ e ∈ (p.put objectSize now key size expireTime).entries,
        (p.put objectSize now key size expireTime).entryMeta e = ⟨key, itemSize objectSize size, expireTime⟩ := by
      rw [hput]
      exact ⟨q.next, hperm.mem_iff.mpr List.mem_cons_self, by rw [store_meta, Function.update_self]⟩
    rw [and_iff_left fun _ => hstored, and_iff_right hkept, hput, (store_counts q _).1]
    dsimp only
    by_cases hp : (p.erase key (-1)).isFull
    · obtain ⟨hnot, hlacks⟩ := hwas hp
      have hq' := lacks_iff (p := q) (itemSize objectSize size)
      rw [hq.shrunk.maxSize, hq.shrunk.maxItems, hmaxSize, hmaxItems] at hq'
      rw [LiveLacks, hmaxSize, hmaxItems] at hnot
      have hn := (not_congr hq').mp (Bool.eq_false_iff.mp hlacks)
      rw [if_pos hp]
      split_ifs <;> omega
    · rw [if_neg hp, hroom hp]
      omega
  · -- too little space is left
    have hgone : ¬ ∃ e ∈ (p.put objectSize now key size expireTime).entries,
        (p.put objectSize now key size expireTime).entryMeta e = ⟨key, itemSize objectSize size, expireTime⟩ := by
      rintro ⟨e, he, hm⟩
      obtain ⟨l, hperm, -⟩ := hq.gone
      refine h.erase_gone key e (hperm.mem_iff.mpr (List.mem_append_right l he)) ?_
      rw [Partition.key, ← hq.entryMeta, hm]
    rw [and_iff_right hkept, imp_iff_not hgone, hbytes, if_pos hwas]
    rw [hfull] at hwas
    rw [LiveLacks, hmaxSize, hmaxItems] at hlack
    split_ifs <;> omega

/-! ## Runs -/

theorem clearLoop_shrunk (fuel : ℕ) (p : Partition) : Shrunk p (p.clearLoop fuel) := by
  induction fuel generalizing p with
  | zero => exact Shrunk.refl p
  | succ fuel ih =>
    rw [Partition.clearLoop]
    split_ifs
    · cases p.itemMap.begin.bind (p.itemMap.findValue p.key) with
      | none => exact ih p
      | some e => exact (removeEntry_shrunk p e).trans (ih _)
    · exact Shrunk.refl p

/-- the other operations store nothing -/
theorem Inv.step_shrunk (h : Inv p) (objectSize : ℕ) {op : Op} (hop : ∀ now key size expireTime, op ≠ .put now key size expireTime) :
    Shrunk p (step objectSize p op) := by
  cases op with
  | put now key size expireTime => exact absurd rfl (hop now key size expireTime)
  | erase key t => exact erase_shrunk p key t
  | makeSpaceFor now size =>
    obtain ⟨q, b, hmake, hq, -⟩ := h.makeSpaceFor_spec now size
    rw [step, hmake]
    exact hq.shrunk
  | clear => exact clearLoop_shrunk _ p

/-- the limits that a partition has from the start, and the one on the items that it keeps -/
structure Limited (maxSize maxItems : ℕ) (p : Partition) : Prop where
  inv : Inv p
  maxSize_eq : p.maxSize = maxSize
  maxItems_eq : p.maxItems = maxItems
  items : 0 < p.maxItems → p.items ≤ p.maxItems

theorem Shrunk.limited {maxSize maxItems : ℕ} (h : Shrunk p q) (hp : Limited maxSize maxItems p) (hq : Inv q) : Limited maxSize maxItems q := by
  refine ⟨hq, h.maxSize.trans hp.maxSize_eq, h.maxItems.trans hp.maxItems_eq, fun hpos => ?_⟩
  rw [h.maxItems] at hpos ⊢
  exact h.items.trans (hp.items hpos)

theorem step_limited {maxSize maxItems : ℕ} (h : Limited maxSize maxItems p) (objectSize : ℕ) (op : Op) :
    Limited maxSize maxItems (step objectSize p op) := by
  have hinv := step_inv objectSize h.inv op
  cases op with
  | put now key size expireTime =>
    obtain ⟨hsize, hitems⟩ := h.inv.put_limits objectSize now key size expireTime
    refine ⟨hinv, hsize.trans h.maxSize_eq, hitems.trans h.maxItems_eq, ?_⟩
    rw [step, hitems]
    exact h.inv.put_items h.items objectSize now key size expireTime
  | erase key t => exact (h.inv.step_shrunk objectSize fun _ _ _ _ hn => by cases hn).limited h hinv
  | makeSpaceFor now size => exact (h.inv.step_shrunk objectSize fun _ _ _ _ hn => by cases hn).limited h hinv
  | clear => exact (h.inv.step_shrunk objectSize fun _ _ _ _ hn => by cases hn).limited h hinv

theorem run_limited {maxSize maxItems : ℕ} (h : Limited maxSize maxItems p) (objectSize : ℕ) (ops : List Op) :
    Limited maxSize maxItems (run objectSize p ops) := by
  induction ops generalizing p with
  | nil => exact h
  | cons op ops ih => exact ih (step_limited h objectSize op)

theorem init_limited (maxSize maxItems : ℕ) : Limited maxSize maxItems (Partition.init maxSize maxItems) :=
  ⟨init_inv maxSize maxItems, rfl, rfl, fun _ => Nat.zero_le _⟩

/-- a step that admits what it is given keeps both limits -/
theorem step_within {maxSize maxItems : ℕ} (h : Limited maxSize maxItems p) (hp : p.WithinLimits) {objectSize : ℕ} {op : Op}
    (hop : OpAdmits objectSize p op) : (step objectSize p op).WithinLimits := by
  have hlimited := step_limited h objectSize op
  refine ⟨hlimited.items, ?_⟩
  by_cases hput : ∃ now key size expireTime, op = .put now key size expireTime
  · obtain ⟨now, key, size, expireTime, rfl⟩ := hput
    exact ((h.inv.admitted_iff h.items objectSize now key size expireTime).mpr hop).1.2
  · push Not at hput
    have hs := h.inv.step_shrunk objectSize hput
    rw [hs.maxSize]
    exact fun hpos => hs.size.trans (hp.2 hpos)

/-- In every reachable state a put does what it should exactly if it is admitted, and in a run of such puts the limits are kept. -/
theorem put_admission (maxSize maxItems objectSize : ℕ) (ops : List Op) :
    (∀ now key size expireTime, (run objectSize (Partition.init maxSize maxItems) ops).Admitted objectSize now key size expireTime ↔
      (run objectSize (Partition.init maxSize maxItems) ops).Admits objectSize now key size) ∧
    (Along (step objectSize) (OpAdmits objectSize) (Partition.init maxSize maxItems) ops →
      (run objectSize (Partition.init maxSize maxItems) ops).WithinLimits) := by
  have hlimited := run_limited (init_limited maxSize maxItems) objectSize ops
  refine ⟨fun now key size expireTime => hlimited.inv.admitted_iff hlimited.items objectSize now key size expireTime, fun hok => ?_⟩
  have hboth := hok.inv (I := fun p => Limited maxSize maxItems p ∧ p.WithinLimits)
    (fun p op h hop => ⟨step_limited h.1 objectSize op, step_within h.1 h.2 hop⟩)
    ⟨init_limited maxSize maxItems, fun _ => Nat.zero_le _, fun _ => Nat.zero_le _⟩
  exact hboth.2

/-- An item of 150 bytes goes into an empty partition of at most 100; one with at most one item and no limit on the bytes does not store a new
item when the one that it has has expired. -/
theorem put_refused : ¬ (run 100 (Partition.init 100 0) []).Admitted 100 0 1 50 (-1) ∧
    ¬ (run 100 (Partition.init 0 1) [.put 0 1 50 5]).Admitted 100 10 2 50 (-1) := by
  constructor
  · rintro ⟨⟨-, hsize⟩, -⟩
    exact absurd (hsize (by decide)) (by decide)
  · rintro ⟨-, hstored⟩
    obtain ⟨e, he, -⟩ := hstored ⟨fun _ => by decide, fun hpos => absurd hpos (by decide)⟩
    have hempty : ((run 100 (Partition.init 0 1) [.put 0 1 50 5]).put 100 10 2 50 (-1)).entries = [] := by decide
    rw [hempty] at he
    exact List.not_mem_nil he

end TrafficServer.HostDb
