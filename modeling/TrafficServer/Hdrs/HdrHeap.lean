/-
The blocks of a header heap (`HdrHeap::allocate_obj` in `proxy/hdrs/HdrHeap.cc`).

Objects are taken from the start of the free space of the first block that has room for them; if none has, a block of twice the size of the
last one is made. `allocateObj_spec`: an object lies where nothing was, and no other object comes to lie there.

The memory that is nobody's begins at an address, and a new block is taken from there.
-/
import Mathlib.Data.List.Range
import Mathlib.Tactic.Common

namespace TrafficServer.Hdrs.Heap

def HDR_PTR_SIZE : ℕ := 8
def HDR_HEAP_DEFAULT_SIZE : ℕ := 2048

/-- `sizeof(HdrHeap)` -/
def sizeofHdrHeap : ℕ := 136

/-- `ROUND`, for a power of two -/
def ROUND (x l : ℕ) : ℕ := (x + (l - 1)) / l * l

def HDR_HEAP_HDR_SIZE : ℕ := ROUND sizeofHdrHeap HDR_PTR_SIZE
def HDR_MAX_ALLOC_SIZE : ℕ := HDR_HEAP_DEFAULT_SIZE - sizeofHdrHeap

/-- a block: where its objects are, where its free space begins, and how much that is -/
structure HdrHeapBlock where
  dataStart : ℕ
  freeStart : ℕ
  freeSize : ℕ
  size : ℕ

/-- `new_HdrHeap` and `HdrHeap::init`, at an address -/
def newHdrHeap (size at_ : ℕ) : HdrHeapBlock :=
  let size := if size ≤ HDR_HEAP_DEFAULT_SIZE then HDR_HEAP_DEFAULT_SIZE else size
  ⟨at_ + HDR_HEAP_HDR_SIZE, at_ + HDR_HEAP_HDR_SIZE, size - HDR_HEAP_HDR_SIZE, size⟩

namespace HdrHeapBlock

/-- room is taken from the free space -/
def take (h : HdrHeapBlock) (nbytes : ℕ) : HdrHeapBlock := { h with freeStart := h.freeStart + nbytes, freeSize := h.freeSize - nbytes }

/-- an address in the free space -/
def Free (h : HdrHeapBlock) (a : ℕ) : Prop := h.freeStart ≤ a ∧ a < h.freeStart + h.freeSize

end HdrHeapBlock

/-- the blocks, and where the memory begins that is nobody's -/
structure HdrHeap where
  blocks : List HdrHeapBlock
  unused : ℕ

/-- the loop over the blocks -/
def allocateIn (nbytes : ℕ) : List HdrHeapBlock → ℕ → Option (ℕ × HdrHeap)
  | [], _ => none
  | h :: hs, unused =>
    if nbytes ≤ h.freeSize then some (h.freeStart, ⟨h.take nbytes :: hs, unused⟩)
    else
      match hs with
      | [] =>
        let new := newHdrHeap (h.size * 2) unused
        if nbytes ≤ new.freeSize then some (new.freeStart, ⟨[h, new.take nbytes], unused + new.size⟩) else none
      | _ :: _ => (allocateIn nbytes hs unused).map fun (p, heap) => (p, { heap with blocks := h :: heap.blocks })

/-- `HdrHeap::allocate_obj` -/
def HdrHeap.allocateObj (heap : HdrHeap) (nbytes : ℕ) : Option (ℕ × HdrHeap) :=
  let nbytes := ROUND nbytes HDR_PTR_SIZE
  if nbytes > HDR_MAX_ALLOC_SIZE then none else allocateIn nbytes heap.blocks heap.unused

namespace HdrHeap

/-- an address that no object has -/
def Free (heap : HdrHeap) (a : ℕ) : Prop := (∃ h ∈ heap.blocks, h.Free a) ∨ heap.unused ≤ a

/-- the free spaces do not overlap -/
structure Ok (heap : HdrHeap) : Prop where
  ne_nil : heap.blocks ≠ []
  large : ∀ h ∈ heap.blocks, HDR_HEAP_DEFAULT_SIZE ≤ h.size
  below : ∀ h ∈ heap.blocks, h.freeStart + h.freeSize ≤ heap.unused
  apart : heap.blocks.Pairwise fun h h' => ∀ a, ¬ (h.Free a ∧ h'.Free a)

end HdrHeap

theorem HdrHeapBlock.take_free {h : HdrHeapBlock} {nbytes a : ℕ} (hroom : nbytes ≤ h.freeSize) :
    (h.take nbytes).Free a ↔ h.Free a ∧ ¬ (h.freeStart ≤ a ∧ a < h.freeStart + nbytes) := by
  simp only [HdrHeapBlock.take, HdrHeapBlock.Free]
  omega

/-- what an allocation does: the new object was free, and is not any more -/
structure Allocated (heap : HdrHeap) (nbytes p : ℕ) (heap' : HdrHeap) : Prop where
  ok : heap'.Ok
  free : ∀ a, p ≤ a → a < p + nbytes → heap.Free a
  left : ∀ a, heap'.Free a → heap.Free a ∧ ¬ (p ≤ a ∧ a < p + nbytes)

theorem allocated_first {h : HdrHeapBlock} {hs : List HdrHeapBlock} {unused nbytes : ℕ} (hok : HdrHeap.Ok ⟨h :: hs, unused⟩)
    (hroom : nbytes ≤ h.freeSize) : Allocated ⟨h :: hs, unused⟩ nbytes h.freeStart ⟨h.take nbytes :: hs, unused⟩ := by
  obtain ⟨-, hlarge, hbelow, hapart⟩ := hok
  obtain ⟨hfirst, hrest⟩ := List.pairwise_cons.mp hapart
  have hend := hbelow h List.mem_cons_self
  refine ⟨⟨List.cons_ne_nil _ _, ?_, ?_, ?_⟩, ?_, ?_⟩
  · intro g hg
    rcases List.mem_cons.mp hg with rfl | hmem
    · exact hlarge h List.mem_cons_self
    · exact hlarge g (List.mem_cons_of_mem _ hmem)
  · intro g hg
    rcases List.mem_cons.mp hg with rfl | hmem
    · simp only [HdrHeapBlock.take] at hend ⊢
      omega
    · exact hbelow g (List.mem_cons_of_mem _ hmem)
  · refine List.pairwise_cons.mpr ⟨fun g hg a hand => ?_, hrest⟩
    exact hfirst g hg a ⟨((HdrHeapBlock.take_free hroom).mp hand.1).1, hand.2⟩
  · intro a hle hlt
    exact Or.inl ⟨h, List.mem_cons_self, hle, by omega⟩
  · intro a hfree
    rcases hfree with ⟨g, hg, hga⟩ | hunused
    · rcases List.mem_cons.mp hg with rfl | hmem
      · obtain ⟨hfree, hnot⟩ := (HdrHeapBlock.take_free hroom).mp hga
        exact ⟨Or.inl ⟨h, List.mem_cons_self, hfree⟩, hnot⟩
      · -- the other blocks are apart from this one
        refine ⟨Or.inl ⟨g, List.mem_cons_of_mem _ hmem, hga⟩, fun hand => hfirst g hmem a ⟨⟨hand.1, ?_⟩, hga⟩⟩
        omega
    · refine ⟨Or.inr hunused, fun hand => ?_⟩
      simp only at hend hunused
      omega

theorem newHdrHeap_larger {size : ℕ} (unused : ℕ) (hsize : HDR_HEAP_DEFAULT_SIZE ≤ size) :
    newHdrHeap (size * 2) unused =
      ⟨unused + HDR_HEAP_HDR_SIZE, unused + HDR_HEAP_HDR_SIZE, size * 2 - HDR_HEAP_HDR_SIZE, size * 2⟩ := by
  have hlarger : ¬ size * 2 ≤ HDR_HEAP_DEFAULT_SIZE := by
    simp only [HDR_HEAP_DEFAULT_SIZE] at hsize ⊢
    omega
  rw [newHdrHeap, if_neg hlarger]

theorem mem_pair {α : Type} {x a b : α} : x ∈ [a, b] ↔ x = a ∨ x = b := by simp

theorem allocated_new {h : HdrHeapBlock} {unused nbytes : ℕ} (hok : HdrHeap.Ok ⟨[h], unused⟩)
    (hroom : nbytes ≤ (newHdrHeap (h.size * 2) unused).freeSize) :
    Allocated ⟨[h], unused⟩ nbytes (newHdrHeap (h.size * 2) unused).freeStart
      ⟨[h, (newHdrHeap (h.size * 2) unused).take nbytes], unused + (newHdrHeap (h.size * 2) unused).size⟩ := by
  obtain ⟨-, hlarge, hbelow, -⟩ := hok
  have hsize : HDR_HEAP_DEFAULT_SIZE ≤ h.size := hlarge h List.mem_cons_self
  have hend : h.freeStart + h.freeSize ≤ unused := hbelow h List.mem_cons_self
  -- the new block begins with its header, and all of it is in the memory that was nobody's
  obtain ⟨n, hn⟩ : ∃ n, n = newHdrHeap (h.size * 2) unused := ⟨_, rfl⟩
  have hstart : n.freeStart = unused + HDR_HEAP_HDR_SIZE := by rw [hn, newHdrHeap]
  have hnsize : n.size = h.size * 2 := by rw [hn, newHdrHeap_larger unused hsize]
  have hfree : n.freeSize = h.size * 2 - HDR_HEAP_HDR_SIZE := by rw [hn, newHdrHeap_larger unused hsize]
  have hhdr : HDR_HEAP_HDR_SIZE = 136 := rfl
  rw [← hn] at hroom ⊢
  simp only [HDR_HEAP_DEFAULT_SIZE] at hsize
  refine ⟨⟨List.cons_ne_nil _ _, ?_, ?_, ?_⟩, ?_, ?_⟩
  · intro g hg
    rcases mem_pair.mp hg with rfl | rfl
    · exact hsize
    · simp only [HdrHeapBlock.take, HDR_HEAP_DEFAULT_SIZE]
      omega
  · intro g hg
    rcases mem_pair.mp hg with rfl | rfl
    · simp only
      omega
    · simp only [HdrHeapBlock.take]
      omega
  · refine List.pairwise_pair.mpr fun a hand => ?_
    have hnew := ((HdrHeapBlock.take_free hroom).mp hand.2).1.1
    have hold := hand.1.2
    omega
  · intro a hle _
    exact Or.inr (by simp only; omega)
  · intro a hfree'
    rcases hfree' with ⟨g, hg, hga⟩ | hunused
    · rcases mem_pair.mp hg with rfl | rfl
      · refine ⟨Or.inl ⟨g, List.mem_cons_self, hga⟩, fun hand => ?_⟩
        have hlt := hga.2
        omega
      · obtain ⟨hga, hnot⟩ := (HdrHeapBlock.take_free hroom).mp hga
        exact ⟨Or.inr (by have hle := hga.1; simp only; omega), hnot⟩
    · simp only at hunused
      exact ⟨Or.inr (by simp only; omega), by omega⟩

theorem allocated_rest {h : HdrHeapBlock} {hs : List HdrHeapBlock} {unused nbytes p : ℕ} {heap' : HdrHeap}
    (hok : HdrHeap.Ok ⟨h :: hs, unused⟩) (ha : Allocated ⟨hs, unused⟩ nbytes p heap') (hunused : unused ≤ heap'.unused) :
    Allocated ⟨h :: hs, unused⟩ nbytes p { heap' with blocks := h :: heap'.blocks } := by
  obtain ⟨-, hlarge, hbelow, hapart⟩ := hok
  obtain ⟨hfirst, -⟩ := List.pairwise_cons.mp hapart
  have hend : h.freeStart + h.freeSize ≤ unused := hbelow h List.mem_cons_self
  have hdisjoint : ∀ a, h.Free a → ¬ HdrHeap.Free ⟨hs, unused⟩ a := by
    intro a hfree hor
    rcases hor with ⟨g, hg, hga⟩ | hle
    · exact hfirst g hg a ⟨hfree, hga⟩
    · exact absurd (Nat.lt_of_lt_of_le hfree.2 hend) (not_lt.mpr hle)
  refine ⟨⟨List.cons_ne_nil _ _, ?_, ?_, ?_⟩, ?_, ?_⟩
  · intro g hg
    rcases List.mem_cons.mp hg with rfl | hmem
    · exact hlarge g List.mem_cons_self
    · exact ha.ok.large g hmem
  · intro g hg
    rcases List.mem_cons.mp hg with rfl | hmem
    · exact hend.trans hunused
    · exact ha.ok.below g hmem
  · exact List.pairwise_cons.mpr ⟨fun g hg a hand => hdisjoint a hand.1 (ha.left a (Or.inl ⟨g, hg, hand.2⟩)).1, ha.ok.apart⟩
  · intro a hle hlt
    rcases ha.free a hle hlt with ⟨g, hg, hga⟩ | hle'
    · exact Or.inl ⟨g, List.mem_cons_of_mem _ hg, hga⟩
    · exact Or.inr hle'
  · intro a hfree
    rcases hfree with ⟨g, hg, hga⟩ | hle
    · rcases List.mem_cons.mp hg with rfl | hmem
      · exact ⟨Or.inl ⟨g, List.mem_cons_self, hga⟩, fun hand => hdisjoint a hga (ha.free a hand.1 hand.2)⟩
      · obtain ⟨hold, hnot⟩ := ha.left a (Or.inl ⟨g, hmem, hga⟩)
        exact ⟨hold.imp_left fun ⟨b, hb, hba⟩ => ⟨b, List.mem_cons_of_mem _ hb, hba⟩, hnot⟩
    · obtain ⟨hold, hnot⟩ := ha.left a (Or.inr hle)
      exact ⟨hold.imp_left fun ⟨b, hb, hba⟩ => ⟨b, List.mem_cons_of_mem _ hb, hba⟩, hnot⟩

theorem allocateIn_spec {nbytes : ℕ} (hsmall : nbytes ≤ HDR_MAX_ALLOC_SIZE) :
    ∀ {hs : List HdrHeapBlock} {unused : ℕ}, HdrHeap.Ok ⟨hs, unused⟩ →
      ∃ p heap', allocateIn nbytes hs unused = some (p, heap') ∧ unused ≤ heap'.unused ∧ Allocated ⟨hs, unused⟩ nbytes p heap'
  | [], _, hok => absurd rfl hok.ne_nil
  | [h], unused, hok => by
    rw [allocateIn]
    dsimp only
    split_ifs with hroom hnew
    · exact ⟨_, _, rfl, le_rfl, allocated_first hok hroom⟩
    · exact ⟨_, _, rfl, Nat.le_add_right _ _, allocated_new hok hnew⟩
    · -- the new block is large enough
      exfalso
      have hsize : HDR_HEAP_DEFAULT_SIZE ≤ h.size := hok.large h List.mem_cons_self
      have hhdr : HDR_HEAP_HDR_SIZE = 136 := rfl
      rw [newHdrHeap_larger unused hsize] at hnew
      simp only [HDR_HEAP_DEFAULT_SIZE, HDR_MAX_ALLOC_SIZE, sizeofHdrHeap] at hsize hsmall hnew
      omega
  | h :: g :: hs, unused, hok => by
    rw [allocateIn]
    split_ifs with hroom
    · exact ⟨_, _, rfl, le_rfl, allocated_first hok hroom⟩
    · have hok' : HdrHeap.Ok ⟨g :: hs, unused⟩ := ⟨List.cons_ne_nil _ _, fun b hb => hok.large b (List.mem_cons_of_mem _ hb),
        fun b hb => hok.below b (List.mem_cons_of_mem _ hb), (List.pairwise_cons.mp hok.apart).2⟩
      obtain ⟨p, heap', hrest, hunused, ha⟩ := allocateIn_spec hsmall hok'
      rw [hrest]
      exact ⟨_, _, rfl, hunused, allocated_rest hok ha hunused⟩

/-- an object is put where nothing was -/
theorem allocateObj_spec {heap : HdrHeap} (hok : heap.Ok) {nbytes : ℕ} (hsmall : ROUND nbytes HDR_PTR_SIZE ≤ HDR_MAX_ALLOC_SIZE) :
    ∃ p heap', heap.allocateObj nbytes = some (p, heap') ∧ Allocated heap (ROUND nbytes HDR_PTR_SIZE) p heap' := by
  obtain ⟨p, heap', hin, -, ha⟩ := allocateIn_spec hsmall hok
  rw [HdrHeap.allocateObj, if_neg (not_lt.mpr hsmall)]
  exact ⟨p, heap', hin, ha⟩

end TrafficServer.Hdrs.Heap
