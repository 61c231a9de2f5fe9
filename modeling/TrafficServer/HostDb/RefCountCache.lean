/-
`RefCountCachePartition` (`iocore/hostdb/P_RefCountCache.h`): the map that HostDB keeps its records in.

A partition counts the bytes and the items that it stores. An item that can expire also has an entry in a queue ordered by expiry time,
with a pointer from the item to it; the heap is `PriorityQueue` (`IndexedHeap`), the map is `TSHashTable`. `put` first erases what has the
key. When the partition is full it lets `make_space_for` evict expired items from the top of the queue, and gives up if that does not
help.

An item is the address of its `RefCountCacheHashEntry`; `next` is an address that was never handed out. The queue entry of an item bears
the item's name, and `expiryEntry` says whether the item has one. The stored object itself is not modelled: no decision looks at it.

`Inv` is the invariant and `step_inv` says that every operation keeps it. The result, `partition_accounting`, is about every sequence of
operations on a new partition.
-/
import Mathlib
import TrafficServer.Lib.HeapOrder
import TrafficServer.TsCore.HashTable

namespace TrafficServer.HostDb

open TrafficServer.IndexedHeap TrafficServer.TsCore

/-! ## State -/

structure ItemMeta where
  key : ℕ
  size : ℕ
  expiryTime : ℤ

structure Partition where
  maxSize : ℕ
  maxItems : ℕ
  size : ℕ
  items : ℕ
  itemMap : HashTable ℕ
  expiryQueue : Heap ℕ
  /-- the `meta` of an item -/
  entryMeta : ℕ → ItemMeta
  /-- `expiry_entry` is not null -/
  expiryEntry : ℕ → Bool
  next : ℕ

namespace Partition

def init (maxSize maxItems : ℕ) : Partition :=
  ⟨maxSize, maxItems, 0, 0, HashTable.init, ⟨[], fun _ => 0⟩, fun _ => ⟨0, 0, -1⟩, fun _ => false, 0⟩

def key (p : Partition) (e : ℕ) : ℕ := (p.entryMeta e).key

def expiry (p : Partition) (e : ℕ) : ℤ := (p.entryMeta e).expiryTime

/-- `operator<` of the items: by expiry time -/
def less (p : Partition) (a b : ℕ) : Bool := p.expiry a < p.expiry b

/-! ## Operations -/

/-- `dealloc_entry`, of an item that is no longer in the map -/
def deallocEntry (p : Partition) (e : ℕ) : Partition :=
  { p with size := p.size - (p.entryMeta e).size
           items := p.items - 1
           expiryQueue := if p.expiryEntry e then p.expiryQueue.erase p.less e else p.expiryQueue
           expiryEntry := Function.update p.expiryEntry e false }

/-- the item at a location leaves the map and is freed -/
def removeEntry (p : Partition) (e : ℕ) : Partition :=
  { p with itemMap := p.itemMap.remove p.key e }.deallocEntry e

def erase (p : Partition) (key : ℕ) (expiryTime : ℤ) : Partition :=
  match p.itemMap.find p.key key with
  | none => p
  | some e => if expiryTime ≥ 0 ∧ p.expiry e ≠ expiryTime then p else p.removeEntry e

def isFull (p : Partition) : Bool :=
  (decide (p.maxItems > 0) && decide (p.items ≥ p.maxItems)) || (decide (p.maxSize > 0) && decide (p.size ≥ p.maxSize))

/-- the loop of `make_space_for` -/
def makeSpaceLoop (now : ℤ) (size : ℕ) : ℕ → Partition → Partition × Option Bool
  | 0, p => (p, none)
  | fuel + 1, p =>
    if p.isFull || (decide (size > 0) && decide (p.size + size > p.maxSize)) then
      match p.expiryQueue.v.head? with
      | none => (p, some false)
      | some top => if p.expiry top < now then makeSpaceLoop now size fuel (p.erase (p.key top) (-1)) else (p, some false)
    else (p, some true)

/-- each turn of the loop erases an item -/
def makeSpaceFor (p : Partition) (now : ℤ) (size : ℕ) : Partition × Option Bool :=
  makeSpaceLoop now size (p.itemMap.count + 1) p

/-- the item that `put` stores -/
def store (p : Partition) (m : ItemMeta) : Partition :=
  let val := p.next
  let p := { p with next := p.next + 1, entryMeta := Function.update p.entryMeta val m
                    expiryEntry := Function.update p.expiryEntry val false }
  let p :=
    if m.expiryTime ≥ 0 then
      { p with expiryQueue := p.expiryQueue.push p.less val, expiryEntry := Function.update p.expiryEntry val true }
    else p
  { p with itemMap := p.itemMap.insert p.key val, size := p.size + m.size, items := p.items + 1 }

/-- `put` at time `now`, with `sizeof(C)` as `objectSize`; the size of an item is an `unsigned int` -/
def put (p : Partition) (objectSize : ℕ) (now : ℤ) (key : ℕ) (size expireTime : ℤ) : Partition :=
  let size := ((size + objectSize) % 2 ^ 32).toNat
  let p := p.erase key (-1)
  let m : ItemMeta := ⟨key, size, expireTime⟩
  if p.isFull then
    match p.makeSpaceFor now size with
    | (p, some true) => p.store m
    | (p, _) => p
  else p.store m

/-- the loop of `clear` -/
def clearLoop : ℕ → Partition → Partition
  | 0, p => p
  | fuel + 1, p =>
    if p.itemMap.count > 0 then
      match p.itemMap.begin.bind (p.itemMap.findValue p.key) with
      | some e => clearLoop fuel (p.removeEntry e)
      | none => clearLoop fuel p
    else p

def clear (p : Partition) : Partition := clearLoop p.itemMap.count p

end Partition

inductive Op where
  | put (now : ℤ) (key : ℕ) (size expireTime : ℤ)
  | erase (key : ℕ) (expiryTime : ℤ)
  | makeSpaceFor (now : ℤ) (size : ℕ)
  | clear

def step (objectSize : ℕ) (p : Partition) : Op → Partition
  | .put now key size expireTime => p.put objectSize now key size expireTime
  | .erase key expiryTime => p.erase key expiryTime
  | .makeSpaceFor now size => (p.makeSpaceFor now size).1
  | .clear => p.clear

def run (objectSize : ℕ) (p : Partition) (ops : List Op) : Partition := ops.foldl (step objectSize) p

/-! ## The invariant -/

/-- the items, in the order of the hash table -/
def Partition.entries (p : Partition) : List ℕ := p.itemMap.values

/-- the bytes of the items -/
def Partition.bytes (p : Partition) : ℕ := (p.entries.map fun e => (p.entryMeta e).size).sum

structure Inv (p : Partition) : Prop where
  table : p.itemMap.Ok p.key
  size : p.size = p.bytes
  items : p.items = p.entries.length
  unique : ∀ a ∈ p.entries, ∀ b ∈ p.entries, p.key a = p.key b → a = b
  nodup : p.entries.Nodup
  expires : ∀ e ∈ p.entries, p.expiryEntry e = decide (0 ≤ p.expiry e)
  indexed : Indexed p.expiryQueue
  ordered : Ordered p.less p.expiryQueue
  queued : ∀ e, e ∈ p.expiryQueue.v ↔ e ∈ p.entries ∧ 0 ≤ p.expiry e
  old : ∀ e ∈ p.entries, e < p.next

variable {p : Partition} {e : ℕ}

theorem init_inv (maxSize maxItems : ℕ) : Inv (Partition.init maxSize maxItems) where
  table := HashTable.Ok.init _
  size := rfl
  items := rfl
  unique := fun _ ha => absurd ha List.not_mem_nil
  nodup := List.nodup_nil
  expires := fun _ he => absurd he List.not_mem_nil
  indexed := fun _ _ hx => by simp [Partition.init] at hx
  ordered := fun _ _ => comp_of_length_le (Or.inl (Nat.zero_le _))
  queued := fun _ => ⟨fun he => absurd he List.not_mem_nil, fun he => absurd he.1 List.not_mem_nil⟩
  old := fun _ he => absurd he List.not_mem_nil

theorem Partition.less_weak (p : Partition) : Weak p.less where
  asymm := by
    intro a b h
    simp only [Partition.less, decide_eq_true_eq, decide_eq_false_iff_not] at h ⊢
    exact lt_asymm h
  trans := by
    intro a b c hab hbc
    simp only [Partition.less, decide_eq_false_iff_not, not_lt] at hab hbc ⊢
    exact hbc.trans hab

/-! ## Erasing -/

/-- an item that leaves the map takes its bytes, its count and its queue entry with it -/
theorem Inv.removeEntry (h : Inv p) (he : e ∈ p.entries) :
    Inv (p.removeEntry e) ∧ p.entries.Perm (e :: (p.removeEntry e).entries) := by
  obtain ⟨hok, hperm⟩ := h.table.remove he
  have hperm : p.entries.Perm (e :: (p.removeEntry e).entries) := hperm
  have hnodup : (e :: (p.removeEntry e).entries).Nodup := hperm.nodup_iff.mp h.nodup
  have hmem : ∀ x, x ∈ (p.removeEntry e).entries ↔ x ∈ p.entries ∧ x ≠ e := by
    intro x
    rw [hperm.mem_iff, List.mem_cons]
    constructor
    · intro hx
      refine ⟨Or.inr hx, ?_⟩
      rintro rfl
      exact (List.nodup_cons.mp hnodup).1 hx
    · rintro ⟨hx, hne⟩
      exact hx.resolve_left hne
  have hbytes : p.bytes = (p.entryMeta e).size + (p.removeEntry e).bytes := by
    have := (hperm.map fun x => (p.entryMeta x).size).sum_eq
    rwa [List.map_cons, List.sum_cons] at this
  -- the queue loses the item, if it was there
  have hqueue : Indexed (p.removeEntry e).expiryQueue ∧ Ordered p.less (p.removeEntry e).expiryQueue ∧
      ∀ x, x ∈ (p.removeEntry e).expiryQueue.v ↔ x ∈ p.expiryQueue.v ∧ x ≠ e := by
    show Indexed (if p.expiryEntry e then p.expiryQueue.erase p.less e else p.expiryQueue) ∧ _
    have hentry := h.expires e he
    by_cases hexp : 0 ≤ p.expiry e
    · have heq : (p.removeEntry e).expiryQueue = p.expiryQueue.erase p.less e :=
        if_pos (hentry.trans (decide_eq_true hexp))
      rw [if_pos (hentry.trans (decide_eq_true hexp)), heq]
      obtain ⟨h1, h2, -⟩ := erase_spec p.less h.indexed e
      exact ⟨h1, erase_ordered p.less_weak h.ordered e, h2⟩
    · have hnot : ¬ p.expiryEntry e = true := by rw [hentry, decide_eq_true_eq]; exact hexp
      have heq : (p.removeEntry e).expiryQueue = p.expiryQueue := if_neg hnot
      rw [if_neg hnot, heq]
      refine ⟨h.indexed, h.ordered, fun x => ⟨fun hx => ⟨hx, ?_⟩, And.left⟩⟩
      rintro rfl
      exact hexp ((h.queued x).mp hx).2
  obtain ⟨hindexed, hordered, hqmem⟩ := hqueue
  refine ⟨⟨hok, ?_, ?_, fun a ha b hb => ?_, (List.nodup_cons.mp hnodup).2, fun x hx => ?_, hindexed, hordered, fun x => ?_,
    fun x hx => h.old x ((hmem x).mp hx).1⟩, hperm⟩
  · show p.size - (p.entryMeta e).size = _
    rw [h.size, hbytes, Nat.add_sub_cancel_left]
  · show p.items - 1 = _
    rw [h.items, hperm.length_eq, List.length_cons, Nat.add_sub_cancel]
  · exact h.unique a ((hmem a).mp ha).1 b ((hmem b).mp hb).1
  · have hx' := (hmem x).mp hx
    show Function.update p.expiryEntry e false x = _
    rw [Function.update_of_ne hx'.2]
    exact h.expires x hx'.1
  · rw [hqmem, h.queued, hmem]
    show _ ↔ _ ∧ 0 ≤ p.expiry x
    tauto

theorem Inv.erase (h : Inv p) (key : ℕ) (expiryTime : ℤ) : Inv (p.erase key expiryTime) := by
  unfold Partition.erase
  cases hf : p.itemMap.find p.key key with
  | none => exact h
  | some e =>
    dsimp only
    split_ifs
    · exact h
    · exact (h.removeEntry (h.table.find_some hf).1).1

theorem erase_none {key : ℕ} (hf : p.itemMap.find p.key key = none) : p.erase key (-1) = p := by
  unfold Partition.erase
  rw [hf]

theorem erase_some {key : ℕ} (hf : p.itemMap.find p.key key = some e) : p.erase key (-1) = p.removeEntry e := by
  unfold Partition.erase
  rw [hf]
  exact if_neg fun hn => absurd hn.1 (by decide)

/-- an unconditional erase removes the item of the key, if there is one -/
theorem Inv.erase_gone (h : Inv p) (key : ℕ) : ∀ x ∈ (p.erase key (-1)).entries, (p.erase key (-1)).key x ≠ key := by
  cases hf : p.itemMap.find p.key key with
  | none =>
    rw [erase_none hf]
    exact h.table.find_none hf
  | some e =>
    obtain ⟨he, hkey⟩ := h.table.find_some hf
    obtain ⟨-, hperm⟩ := h.removeEntry he
    rw [erase_some hf]
    intro x hx hxk
    have hxe : x = e := h.unique x (hperm.mem_iff.mpr (List.mem_cons_of_mem e hx)) e he (hxk.trans hkey.symm)
    have hnodup := hperm.nodup_iff.mp h.nodup
    rw [hxe] at hx
    exact (List.nodup_cons.mp hnodup).1 hx

/-- what a key erases is fewer items, if it has one -/
theorem Inv.erase_entries (h : Inv p) (he : e ∈ p.entries) :
    p.entries.Perm (e :: (p.erase (p.key e) (-1)).entries) := by
  cases hf : p.itemMap.find p.key (p.key e) with
  | none => exact absurd rfl (h.table.find_none hf e he)
  | some x =>
    obtain ⟨hx, hkey⟩ := h.table.find_some hf
    obtain rfl : x = e := h.unique x hx e he hkey
    rw [erase_some hf]
    exact (h.removeEntry hx).2

/-! ## Making space -/

theorem Inv.makeSpaceLoop (now : ℤ) (size fuel : ℕ) (h : Inv p) : Inv (p.makeSpaceLoop now size fuel).1 := by
  induction fuel generalizing p with
  | zero => exact h
  | succ fuel ih =>
    rw [Partition.makeSpaceLoop]
    split_ifs
    · cases p.expiryQueue.v.head? with
      | none => exact h
      | some top =>
        dsimp only
        split_ifs
        · exact ih (h.erase _ _)
        · exact h
    · exact h

/-- the loop of `make_space_for` ends: every turn but the last erases an item -/
theorem Inv.makeSpaceLoop_returns (now : ℤ) (size fuel : ℕ) (h : Inv p) (hf : p.entries.length < fuel) :
    (p.makeSpaceLoop now size fuel).2 ≠ none := by
  induction fuel generalizing p with
  | zero => omega
  | succ fuel ih =>
    rw [Partition.makeSpaceLoop]
    split_ifs
    · cases ht : p.expiryQueue.v.head? with
      | none => simp
      | some top =>
        dsimp only
        split_ifs
        · have htop : top ∈ p.entries := ((h.queued top).mp (List.mem_of_head? ht)).1
          have hlen := (h.erase_entries htop).length_eq
          rw [List.length_cons] at hlen
          exact ih (h.erase _ _) (by omega)
        · simp
    · simp

theorem Inv.makeSpaceFor_returns (now : ℤ) (size : ℕ) (h : Inv p) : (p.makeSpaceFor now size).2 ≠ none := by
  have hcount : p.itemMap.count = p.entries.length := h.table.count
  exact h.makeSpaceLoop_returns now size _ (by omega)

theorem Partition.erase_entries_sub (p : Partition) (h : Inv p) (key : ℕ) (t : ℤ) :
    (∀ x ∈ (p.erase key t).entries, x ∈ p.entries) ∧ (p.erase key t).entryMeta = p.entryMeta := by
  unfold Partition.erase
  cases hf : p.itemMap.find p.key key with
  | none => exact ⟨fun _ hx => hx, rfl⟩
  | some e =>
    dsimp only
    split_ifs
    · exact ⟨fun _ hx => hx, rfl⟩
    · exact ⟨fun x hx => (h.removeEntry (h.table.find_some hf).1).2.mem_iff.mpr (List.mem_cons_of_mem e hx), rfl⟩

/-- making space stores nothing -/
theorem Inv.makeSpaceLoop_sub (now : ℤ) (size fuel : ℕ) (h : Inv p) :
    (∀ x ∈ (p.makeSpaceLoop now size fuel).1.entries, x ∈ p.entries) ∧
      (p.makeSpaceLoop now size fuel).1.entryMeta = p.entryMeta := by
  induction fuel generalizing p with
  | zero => exact ⟨fun _ hx => hx, rfl⟩
  | succ fuel ih =>
    rw [Partition.makeSpaceLoop]
    split_ifs
    · cases p.expiryQueue.v.head? with
      | none => exact ⟨fun _ hx => hx, rfl⟩
      | some top =>
        dsimp only
        split_ifs
        · obtain ⟨hsub, hmeta⟩ := p.erase_entries_sub h (p.key top) (-1)
          obtain ⟨hsub', hmeta'⟩ := ih (h.erase (p.key top) (-1))
          exact ⟨fun x hx => hsub x (hsub' x hx), hmeta'.trans hmeta⟩
        · exact ⟨fun _ hx => hx, rfl⟩
    · exact ⟨fun _ hx => hx, rfl⟩

/-! ## Storing -/

theorem store_counts (p : Partition) (m : ItemMeta) :
    (p.store m).size = p.size + m.size ∧ (p.store m).items = p.items + 1 ∧ (p.store m).next = p.next + 1 := by
  unfold Partition.store
  dsimp only
  split_ifs <;> exact ⟨rfl, rfl, rfl⟩

theorem store_meta (p : Partition) (m : ItemMeta) : (p.store m).entryMeta = Function.update p.entryMeta p.next m := by
  unfold Partition.store
  dsimp only
  split_ifs <;> rfl

theorem Inv.store_old (h : Inv p) (m : ItemMeta) {x : ℕ} (hx : x ∈ p.entries) : (p.store m).entryMeta x = p.entryMeta x := by
  rw [store_meta, Function.update_of_ne (h.old x hx).ne]

/-- the table, with the key of the new item -/
theorem Inv.store_table (h : Inv p) (m : ItemMeta) :
    (p.store m).itemMap.Ok (p.store m).key ∧ (p.store m).entries.Perm (p.next :: p.entries) := by
  have htable : (p.store m).itemMap = p.itemMap.insert (p.store m).key p.next := by
    unfold Partition.store
    dsimp only
    split_ifs <;> rfl
  have hkeys : p.itemMap.Ok (p.store m).key := h.table.congr fun x hx => congrArg ItemMeta.key (h.store_old m hx)
  have hinsert := hkeys.insert p.next
  rwa [← htable] at hinsert

/-- a new item, whose key no item has -/
theorem Inv.store (h : Inv p) {m : ItemMeta} (hnew : ∀ x ∈ p.entries, p.key x ≠ m.key) : Inv (p.store m) := by
  obtain ⟨hok, hperm⟩ := h.store_table m
  have hold : ∀ x ∈ p.entries, (p.store m).entryMeta x = p.entryMeta x := fun x hx => h.store_old m hx
  have hmeta := store_meta p m
  obtain ⟨hsize, hitems, hnext⟩ := store_counts p m
  generalize hval : p.next = val at hperm hmeta
  have hfresh : val ∉ p.entries := fun hmem => absurd (h.old val hmem) (by omega)
  have hvalMeta : (p.store m).entryMeta val = m := by rw [hmeta, Function.update_self]
  have hmem : ∀ x, x ∈ (p.store m).entries ↔ x = val ∨ x ∈ p.entries := fun x => by rw [hperm.mem_iff, List.mem_cons]
  have hbytes : (p.store m).bytes = m.size + p.bytes := by
    have hsum := (hperm.map fun x => ((p.store m).entryMeta x).size).sum_eq
    rw [List.map_cons, List.sum_cons, hvalMeta] at hsum
    rw [Partition.bytes, hsum, Partition.bytes]
    refine congrArg (m.size + ·) (congrArg List.sum (List.map_congr_left fun x hx => ?_))
    rw [hold x hx]
  -- the queue, which is ordered by the new expiry times as it was by the old ones
  have hnotq : val ∉ p.expiryQueue.v := fun hq => hfresh ((h.queued val).mp hq).1
  have hless : ∀ a ∈ p.entries, ∀ b ∈ p.entries, (p.store m).less a b = p.less a b := by
    intro a ha b hb
    unfold Partition.less Partition.expiry
    rw [hold a ha, hold b hb]
  have hordered : Ordered (p.store m).less p.expiryQueue := by
    intro i hi
    have ho := h.ordered i hi
    have hin : ∀ {j : ℕ} {x : ℕ}, p.expiryQueue.v[j]? = some x → x ∈ p.entries := fun hx =>
      ((h.queued _).mp (List.mem_of_getElem? hx)).1
    cases ha : p.expiryQueue.v[i]? with
    | none => exact comp_of_length_le (Or.inl (List.getElem?_eq_none_iff.mp ha))
    | some a =>
      cases hb : p.expiryQueue.v[(i - 1) / 2]? with
      | none => exact comp_of_length_le (Or.inr (List.getElem?_eq_none_iff.mp hb))
      | some b =>
        rw [comp_some ha hb] at ho ⊢
        rw [hless a (hin ha) b (hin hb)]
        exact ho
  have hqueue : Indexed (p.store m).expiryQueue ∧ Ordered (p.store m).less (p.store m).expiryQueue ∧
      (∀ x, x ∈ (p.store m).expiryQueue.v ↔ x ∈ p.expiryQueue.v ∨ x = val ∧ 0 ≤ m.expiryTime) ∧
      (p.store m).expiryEntry = Function.update p.expiryEntry val (decide (0 ≤ m.expiryTime)) := by
    by_cases hexp : 0 ≤ m.expiryTime
    · have heq : (p.store m).expiryQueue = p.expiryQueue.push (p.store m).less val := by
        subst hval
        unfold Partition.store
        dsimp only
        rw [if_pos hexp]
        rfl
      have hentry : (p.store m).expiryEntry = Function.update p.expiryEntry val true := by
        subst hval
        unfold Partition.store
        dsimp only
        rw [if_pos hexp]
        exact Function.update_idem _ _ _
      obtain ⟨h1, h2, -⟩ := push_spec (p.store m).less h.indexed hnotq
      rw [heq, hentry, decide_eq_true hexp]
      exact ⟨h1, push_ordered (p.store m).less_weak hordered val, fun x => by rw [h2]; simp [hexp], rfl⟩
    · have heq : (p.store m).expiryQueue = p.expiryQueue := by
        unfold Partition.store
        dsimp only
        rw [if_neg hexp]
      have hentry : (p.store m).expiryEntry = Function.update p.expiryEntry val false := by
        subst hval
        unfold Partition.store
        dsimp only
        rw [if_neg hexp]
      rw [heq, hentry, decide_eq_false hexp]
      exact ⟨h.indexed, hordered, fun x => by simp [hexp], rfl⟩
  obtain ⟨hindexed, hordered', hqmem, hentry⟩ := hqueue
  have hexpiry : ∀ x ∈ p.entries, (p.store m).expiry x = p.expiry x := fun x hx => congrArg ItemMeta.expiryTime (hold x hx)
  have hexpiryVal : (p.store m).expiry val = m.expiryTime := congrArg ItemMeta.expiryTime hvalMeta
  have hkeyVal : (p.store m).key val = m.key := congrArg ItemMeta.key hvalMeta
  have hkeyOld : ∀ x ∈ p.entries, (p.store m).key x = p.key x := fun x hx => congrArg ItemMeta.key (hold x hx)
  refine ⟨hok, ?_, ?_, fun a ha b hb hab => ?_, ?_, fun x hx => ?_, hindexed, hordered', fun x => ?_, fun x hx => ?_⟩
  · rw [hsize, hbytes, h.size, add_comm]
  · rw [hitems, hperm.length_eq, List.length_cons, h.items]
  · rcases (hmem a).mp ha with rfl | ha <;> rcases (hmem b).mp hb with rfl | hb
    · rfl
    · rw [hkeyVal, hkeyOld b hb] at hab
      exact absurd hab.symm (hnew b hb)
    · rw [hkeyVal, hkeyOld a ha] at hab
      exact absurd hab (hnew a ha)
    · rw [hkeyOld a ha, hkeyOld b hb] at hab
      exact h.unique a ha b hb hab
  · exact hperm.nodup_iff.mpr (List.nodup_cons.mpr ⟨hfresh, h.nodup⟩)
  · rw [hentry]
    rcases (hmem x).mp hx with rfl | hx
    · rw [hexpiryVal, Function.update_self]
    · rw [hexpiry x hx, ← h.expires x hx, Function.update_of_ne]
      rintro rfl
      exact hfresh hx
  · rw [hqmem, h.queued, hmem]
    constructor
    · rintro (⟨hx, hexp⟩ | ⟨rfl, hexp⟩)
      · exact ⟨Or.inr hx, by rw [hexpiry x hx]; exact hexp⟩
      · exact ⟨Or.inl rfl, by rw [hexpiryVal]; exact hexp⟩
    · rintro ⟨rfl | hx, hexp⟩
      · exact Or.inr ⟨rfl, by rwa [hexpiryVal] at hexp⟩
      · exact Or.inl ⟨hx, by rwa [hexpiry x hx] at hexp⟩
  · rw [hnext]
    rcases (hmem x).mp hx with rfl | hx
    · omega
    · exact Nat.lt_succ_of_lt (h.old x hx)

theorem Inv.put (h : Inv p) (objectSize : ℕ) (now : ℤ) (key : ℕ) (size expireTime : ℤ) :
    Inv (p.put objectSize now key size expireTime) := by
  have herase := h.erase key (-1)
  have hgone := h.erase_gone key
  unfold Partition.put
  dsimp only
  split_ifs
  · have hinv := herase.makeSpaceLoop now ((size + objectSize) % 2 ^ 32).toNat ((p.erase key (-1)).itemMap.count + 1)
    obtain ⟨hsub, hmeta⟩ := herase.makeSpaceLoop_sub now ((size + objectSize) % 2 ^ 32).toNat ((p.erase key (-1)).itemMap.count + 1)
    unfold Partition.makeSpaceFor
    generalize (p.erase key (-1)).makeSpaceLoop now ((size + objectSize) % 2 ^ 32).toNat
      ((p.erase key (-1)).itemMap.count + 1) = res at hinv hsub hmeta ⊢
    obtain ⟨q, _ | _ | _⟩ := res
    · exact hinv
    · exact hinv
    · refine hinv.store fun x hx => ?_
      have hkey : q.key x = (p.erase key (-1)).key x := congrArg (fun m => (m x).key) hmeta
      rw [hkey]
      exact hgone x (hsub x hx)
  · exact herase.store hgone

/-! ## Clearing -/

theorem Inv.clearLoop (fuel : ℕ) (h : Inv p) : Inv (p.clearLoop fuel) := by
  induction fuel generalizing p with
  | zero => exact h
  | succ fuel ih =>
    rw [Partition.clearLoop]
    split_ifs
    · cases hb : p.itemMap.begin.bind (p.itemMap.findValue p.key) with
      | none => exact ih h
      | some e =>
        obtain ⟨x, hx, hf⟩ := Option.bind_eq_some_iff.mp hb
        have hmem : x ∈ p.entries := by
          rw [h.table.begin_eq] at hx
          exact List.mem_of_head? hx
        rw [h.table.findValue_some hmem] at hf
        obtain rfl := Option.some.inj hf
        exact ih (h.removeEntry hmem).1
    · exact h

/-- as many turns as there are items leave nothing -/
theorem Inv.clearLoop_empty (fuel : ℕ) (h : Inv p) (hf : p.entries.length ≤ fuel) : (p.clearLoop fuel).entries = [] := by
  induction fuel generalizing p with
  | zero => exact List.length_eq_zero_iff.mp (Nat.le_zero.mp hf)
  | succ fuel ih =>
    have hcount : p.itemMap.count = p.entries.length := h.table.count
    rw [Partition.clearLoop]
    split_ifs with hpos
    · rw [h.table.begin_eq]
      cases he : p.entries with
      | nil => simp [hcount, he] at hpos
      | cons x l =>
        have hmem : x ∈ p.entries := by rw [he]; exact List.mem_cons_self
        have hhead : p.itemMap.values.head? = some x := congrArg List.head? he
        have hlen := (h.removeEntry hmem).2.length_eq
        rw [List.length_cons] at hlen
        rw [hhead, Option.bind_some, h.table.findValue_some hmem]
        exact ih (h.removeEntry hmem).1 (by omega)
    · exact List.length_eq_zero_iff.mp (by omega)

theorem Inv.clear (h : Inv p) : Inv p.clear ∧ p.clear.entries = [] :=
  ⟨h.clearLoop _, h.clearLoop_empty _ h.table.count.ge⟩

/-! ## Runs -/

theorem step_inv (objectSize : ℕ) (h : Inv p) (op : Op) : Inv (step objectSize p op) := by
  cases op with
  | put now key size expireTime => exact h.put objectSize now key size expireTime
  | erase key expiryTime => exact h.erase key expiryTime
  | makeSpaceFor now size => exact h.makeSpaceLoop now size _
  | clear => exact h.clear.1

theorem run_inv (objectSize : ℕ) (h : Inv p) (ops : List Op) : Inv (run objectSize p ops) := by
  induction ops generalizing p with
  | nil => exact h
  | cons op ops ih => exact ih (step_inv objectSize h op)

/-- After any operations the counters agree with the hash table, no two items have one key, and the expiry queue has the items that can
expire, each once, none before its parent. -/
theorem partition_accounting (maxSize maxItems objectSize : ℕ) (ops : List Op) :
    let p := run objectSize (Partition.init maxSize maxItems) ops
    p.size = (p.itemMap.values.map fun e => (p.entryMeta e).size).sum ∧
    p.items = p.itemMap.count ∧ p.itemMap.count = p.itemMap.values.length ∧ p.itemMap.values.Nodup ∧
    (∀ a ∈ p.itemMap.values, ∀ b ∈ p.itemMap.values, (p.entryMeta a).key = (p.entryMeta b).key → a = b) ∧
    p.expiryQueue.v.Nodup ∧
    (∀ e, e ∈ p.expiryQueue.v ↔ e ∈ p.itemMap.values ∧ 0 ≤ (p.entryMeta e).expiryTime) ∧
    ∀ i a b, 0 < i → p.expiryQueue.v[i]? = some a → p.expiryQueue.v[(i - 1) / 2]? = some b →
      (p.entryMeta b).expiryTime ≤ (p.entryMeta a).expiryTime := by
  intro p
  have h : Inv p := run_inv objectSize (init_inv maxSize maxItems) ops
  refine ⟨h.size, h.items.trans h.table.count.symm, h.table.count, h.nodup, h.unique, h.indexed.nodup, h.queued, ?_⟩
  intro i a b hi ha hb
  have ho := h.ordered i hi
  rw [comp_some ha hb] at ho
  exact not_lt.mp (of_decide_eq_false ho)

end TrafficServer.HostDb
