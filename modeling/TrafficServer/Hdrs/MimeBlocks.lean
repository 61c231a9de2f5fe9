/-
A header in its blocks, and the header of `MimeHdr`, whose fields are one list.

The slots in use of all blocks, one block after the other, are the list, and a pointer to a field is the place of it (`Represents`). What is
asserted of every header is all that `copyOnto` asks of its source (`represents_source`), and a copy is the same header
(`copy_represents`).
-/
import TrafficServer.Hdrs.MimeCopy
import TrafficServer.Hdrs.MimeHdrInv

namespace TrafficServer.Hdrs.MimeCopy

open Cooked Heap MimeHdr

/-- the slots in use, with their addresses -/
def fieldsOf (mem : Memory) (blocks : List ℕ) : List (ℕ × MIMEField ℕ) :=
  blocks.flatMap fun b => (List.range (mem b).freetop).map fun j => (fieldAddr b j, (mem b).fieldSlots j)

/-- where the fields are -/
def addrs (mem : Memory) (blocks : List ℕ) : List ℕ := (fieldsOf mem blocks).map Prod.fst

/-- the field in a slot is this one; the pointer of a live field is to the place that it has -/
def SameField (places : List ℕ) (g f : MIMEField ℕ) : Prop :=
  { g with nextDup := f.nextDup } = f ∧ (f.isLive = true → g.nextDup = f.nextDup.map fun k => places.getD k 0)

/-- the header that is in the blocks -/
structure Represents (mem : Memory) (blocks : List ℕ) (s : MIMEHdrImpl) (mh : MimeHdr.MIMEHdrImpl) : Prop where
  presenceBits : s.presenceBits = mh.presenceBits
  slotAccelerators : s.slotAccelerators = mh.slotAccelerators
  cookedStuff : s.cookedStuff = mh.cookedStuff
  slots : List.Forall₂ (fun p f => SameField (addrs mem blocks) p.2 f) (fieldsOf mem blocks) mh.slots

variable {mem mem' : Memory} {s : MIMEHdrImpl} {ss ds : List ℕ} {mh : MimeHdr.MIMEHdrImpl}

theorem mem_fieldsOf {blocks : List ℕ} {p : ℕ} {f : MIMEField ℕ} : (p, f) ∈ fieldsOf mem blocks ↔ FieldAt mem blocks p f := by
  simp only [fieldsOf, List.mem_flatMap, List.mem_map, List.mem_range, Prod.mk.injEq, FieldAt]
  constructor
  · rintro ⟨b, hb, j, hj, rfl, rfl⟩
    exact ⟨b, hb, j, hj, rfl, rfl⟩
  · rintro ⟨b, hb, j, hj, rfl, rfl⟩
    exact ⟨b, hb, j, hj, rfl, rfl⟩

theorem SameField.isLive {places : List ℕ} {g f : MIMEField ℕ} (h : SameField places g f) : g.isLive = f.isLive := by
  rw [← h.1]
  rfl

theorem Represents.length (h : Represents mem ss s mh) : (addrs mem ss).length = mh.slots.length := by
  rw [addrs, List.length_map]
  exact h.slots.length_eq

/-- the place of a slot of the header -/
theorem mem_addrs {places : List ℕ} {k : ℕ} (hk : k < places.length) : places.getD k 0 ∈ places := by
  rw [List.getD_eq_getElem _ _ hk]
  exact List.getElem_mem hk

/-- a duplicate of a live field is a slot of the header -/
theorem nextDup_lt (hwf : mh.WellFormed) {i k : ℕ} {f : MIMEField ℕ} (hf : mh.slots[i]? = some f) (hlive : f.isLive = true)
    (hk : f.nextDup = some k) : k < mh.slots.length := by
  rw [hwf.linked i f hf hlive] at hk
  obtain ⟨-, hat, -⟩ := (NextIndex.next_eq_some_iff (mh.bounded_atKey f.key)).mp hk
  exact mh.bounded_atKey f.key k hat

/-- what is asserted of a header makes its blocks a source -/
theorem represents_source (h : Represents mem ss s mh) (hwf : mh.WellFormed) (hlist : IsList mem (some s.firstFblock) ss)
    (htops : ∀ b ∈ ss, (mem b).freetop ≤ MIME_FIELD_BLOCK_SLOTS) (hapart : ss.Pairwise Apart) : Source mem s ss := by
  refine ⟨hlist, htops, hapart, fun b hb j hj hlive p hp => ?_⟩
  have hmem : (fieldAddr b j, (mem b).fieldSlots j) ∈ fieldsOf mem ss := mem_fieldsOf.mpr ⟨b, hb, j, hj, rfl, rfl⟩
  obtain ⟨i, hi, hget⟩ := List.mem_iff_getElem.mp hmem
  have hi' : i < mh.slots.length := h.slots.length_eq ▸ hi
  obtain ⟨hsame, hdup⟩ := (List.forall₂_iff_get.mp h.slots).2 i hi hi'
  rw [List.get_eq_getElem, List.get_eq_getElem, hget] at hsame hdup
  have hlive' : mh.slots[i].isLive = true := by
    rw [← hsame]
    exact hlive
  rw [hdup hlive'] at hp
  obtain ⟨k, hk, rfl⟩ := Option.mem_map.mp hp
  have hlt := nextDup_lt hwf (List.getElem?_eq_getElem hi') hlive' hk
  obtain ⟨⟨q, f⟩, hq, hqk⟩ := List.mem_map.mp (mem_addrs (h.length.symm ▸ hlt))
  obtain ⟨c, hc, j', hj', heq, -⟩ := mem_fieldsOf.mp hq
  exact ⟨c, hc, j', hj', hqk ▸ heq⟩

/-- the fields of a copy, where they are -/
theorem fieldsOf_copied {g : ℕ → ℕ} (hcopied : List.Forall₂ (fun b c => ((mem' c).freetop = (mem b).freetop ∧
    ∀ j < (mem b).freetop, (mem' c).fieldSlots j = moved g ((mem b).fieldSlots j)) ∧
      ∀ j < MIME_FIELD_BLOCK_SLOTS, g (fieldAddr b j) = fieldAddr c j) ss ds) :
    (∀ b ∈ ss, (mem b).freetop ≤ MIME_FIELD_BLOCK_SLOTS) → fieldsOf mem' ds = (fieldsOf mem ss).map fun p => (g p.1, moved g p.2) := by
  induction hcopied with
  | nil => exact fun _ => rfl
  | @cons b c ss ds hbc _ ih =>
    intro htops
    obtain ⟨⟨htop, hslots⟩, himage⟩ := hbc
    have hblock : (List.range (mem' c).freetop).map (fun j => (fieldAddr c j, (mem' c).fieldSlots j)) =
        ((List.range (mem b).freetop).map fun j => (fieldAddr b j, (mem b).fieldSlots j)).map fun p => (g p.1, moved g p.2) := by
      rw [List.map_map, htop]
      refine List.map_congr_left fun j hj => ?_
      have hj' := List.mem_range.mp hj
      rw [Function.comp_apply, hslots j hj', himage j (hj'.trans_le (htops b List.mem_cons_self))]
    have hrest := ih fun b' hb' => htops b' (List.mem_cons_of_mem _ hb')
    unfold fieldsOf at hrest ⊢
    rw [List.flatMap_cons, List.flatMap_cons, List.map_append, hblock, hrest]

/-- the copy of a header is the same header -/
theorem copy_represents {d d' : MIMEHdrImpl} (h : Represents mem ss s mh) (hwf : mh.WellFormed) (hsource : Source mem s ss)
    (hcopy : Copy mem mem' s d d' ss ds) : Represents mem' ds d' mh := by
  have hfields := fieldsOf_copied (image_fieldAddr hcopy.fields hsource.apart) hsource.tops
  have haddrs : addrs mem' ds = (addrs mem ss).map (image (ss.zip ds)) := by
    rw [addrs, addrs, hfields, List.map_map, List.map_map]
    rfl
  refine ⟨hcopy.presenceBits.trans h.presenceBits, hcopy.slotAccelerators.trans h.slotAccelerators, hcopy.cookedStuff.trans h.cookedStuff, ?_⟩
  rw [hfields, List.forall₂_map_left_iff]
  refine List.forall₂_iff_get.mpr ⟨h.slots.length_eq, fun i hi hi' => ?_⟩
  have hfield := (List.forall₂_iff_get.mp h.slots).2 i hi hi'
  have hlive := hfield.isLive
  refine ⟨?_, fun hl => ?_⟩
  · rw [← hfield.1, moved]
    split_ifs
    · rfl
    · rfl
  · rw [moved_nextDup (hlive.trans hl), hfield.2 hl, haddrs, Option.map_map]
    cases hk : (mh.slots.get ⟨i, hi'⟩).nextDup with
    | none => rfl
    | some k =>
      have hlt : k < (addrs mem ss).length := h.length.symm ▸ nextDup_lt hwf (List.getElem?_eq_getElem hi') hl hk
      have hlt' : k < ((addrs mem ss).map (image (ss.zip ds))).length := (List.length_map _).symm ▸ hlt
      rw [Option.map_some, Option.map_some, Function.comp_apply, List.getD_eq_getElem _ _ hlt, List.getD_eq_getElem _ _ hlt', List.getElem_map]

end TrafficServer.Hdrs.MimeCopy
