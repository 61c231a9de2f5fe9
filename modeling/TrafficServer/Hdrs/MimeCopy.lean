/-
A header is copied onto another one (`mime_hdr_copy_onto` in `proxy/hdrs/MIME.cc`).

The fields are in a list of blocks; the first block is part of the header, the others are objects of its heap. The blocks of the source are
copied as they are, to the first block of the destination and to new ones behind it, so that at first the pointers to duplicates still point
into the source. Then each of them is relocated: the two lists of blocks are gone through side by side until one is found that has the pointer,
and it is moved by as much as the block was. `copyOnto_spec` says what comes of it.

A block and a field are known by their addresses, as the relocation compares these.
-/
import TrafficServer.Hdrs.MimeHdr
import TrafficServer.Hdrs.HdrHeap
import Mathlib.Data.List.Forall2

namespace TrafficServer.Hdrs.MimeCopy

open Cooked Heap MimeHdr

def MIME_FIELD_BLOCK_SLOTS : ℕ := 16

/-- `sizeof(MIMEField)`, and where the slots of a block begin -/
def sizeofMIMEField : ℕ := 32
def fieldSlotsOffset : ℕ := 16

def sizeofMIMEFieldBlockImpl : ℕ := fieldSlotsOffset + MIME_FIELD_BLOCK_SLOTS * sizeofMIMEField

structure MIMEFieldBlockImpl where
  /-- the type is `HDR_HEAP_OBJ_EMPTY` -/
  empty : Bool
  freetop : ℕ
  next : Option ℕ
  fieldSlots : ℕ → MIMEField ℕ

structure MIMEHdrImpl where
  presenceBits : ℕ → Bool
  slotAccelerators : ℕ → ℕ
  cookedStuff : MIMECooked
  fblockListTail : ℕ
  /-- the address of `m_first_fblock` -/
  firstFblock : ℕ

/-- the blocks, by their addresses -/
abbrev Memory := ℕ → MIMEFieldBlockImpl

/-- the address of a slot -/
def fieldAddr (block i : ℕ) : ℕ := block + fieldSlotsOffset + i * sizeofMIMEField

/-- `mime_hdr_destroy_field_block_list` -/
def destroyFieldBlockList : ℕ → Option ℕ → Memory → Option Memory
  | 0, _, _ => none
  | _ + 1, none, mem => some mem
  | n + 1, some head, mem => destroyFieldBlockList n (mem head).next (Function.update mem head { mem head with empty := true })

/-- the copies of the blocks behind the first one, with `_mime_field_block_copy`; the last block of the list is returned -/
def copyBlocks : ℕ → (sFblock : Option ℕ) → (prevDFblock : ℕ) → HdrHeap → Memory → Option (ℕ × HdrHeap × Memory)
  | 0, _, _, _, _ => none
  | _ + 1, none, prev, heap, mem => some (prev, heap, mem)
  | n + 1, some s, prev, heap, mem =>
    (heap.allocateObj sizeofMIMEFieldBlockImpl).bind fun (d, heap) =>
      let mem := Function.update mem d (mem s)
      let mem := Function.update mem prev { mem prev with next := some d }
      copyBlocks n (mem s).next d heap mem

/-- `relocate`: where a pointer to a duplicate points afterwards -/
def relocate (mem : Memory) (nextDup : ℕ) : ℕ → (destBlock srcBlock : Option ℕ) → Option ℕ
  | 0, _, _ => none
  | _ + 1, _, none => some nextDup
  -- the release assertion
  | _ + 1, none, some _ => none
  | n + 1, some d, some s =>
    if fieldAddr s 0 ≤ nextDup ∧ nextDup < fieldAddr s (mem s).freetop then some (nextDup - fieldAddr s 0 + fieldAddr d 0)
    else relocate mem nextDup n (mem d).next (mem s).next

/-- the fields of one block -/
def adjustFields (fuel newList oldList newBlk : ℕ) : (left i : ℕ) → Memory → Option Memory
  | 0, _, mem => some mem
  | left + 1, i, mem =>
    let field := (mem newBlk).fieldSlots i
    match field.nextDup with
    | none => adjustFields fuel newList oldList newBlk left (i + 1) mem
    | some p =>
      if field.isLive then
        (relocate mem p fuel (some newList) (some oldList)).bind fun q =>
          adjustFields fuel newList oldList newBlk left (i + 1)
            (Function.update mem newBlk { mem newBlk with fieldSlots := Function.update (mem newBlk).fieldSlots i { field with nextDup := some q } })
      else adjustFields fuel newList oldList newBlk left (i + 1) mem

/-- `mime_hdr_field_block_list_adjust` -/
def fieldBlockListAdjust (fuel oldList newList : ℕ) : ℕ → (newBlk : Option ℕ) → Memory → Option Memory
  | 0, _, _ => none
  | _ + 1, none, mem => some mem
  | n + 1, some newBlk, mem =>
    (adjustFields fuel newList oldList newBlk (mem newBlk).freetop 0 mem).bind fun mem =>
      fieldBlockListAdjust fuel oldList newList n (mem newBlk).next mem

/-- `mime_hdr_copy_onto`; each loop over a list of blocks has the fuel -/
def copyOnto (fuel : ℕ) (s d : MIMEHdrImpl) (heap : HdrHeap) (mem : Memory) : Option (MIMEHdrImpl × HdrHeap × Memory) :=
  (match (mem d.firstFblock).next with
    | none => some mem
    | some block => destroyFieldBlockList fuel (some block) mem).bind fun mem =>
  let top := (mem s.firstFblock).freetop
  -- the header and the slots of its first block that are in use
  let d : MIMEHdrImpl := { s with firstFblock := d.firstFblock }
  let mem := Function.update mem d.firstFblock { mem s.firstFblock with
    fieldSlots := fun i => if i < top then (mem s.firstFblock).fieldSlots i else (mem d.firstFblock).fieldSlots i }
  (match (mem d.firstFblock).next with
    | none => some (d.firstFblock, heap, mem)
    | some _ => copyBlocks fuel (mem s.firstFblock).next d.firstFblock heap mem).bind fun (tail, heap, mem) =>
  (fieldBlockListAdjust fuel s.firstFblock d.firstFblock fuel (some d.firstFblock) mem).map fun mem => ({ d with fblockListTail := tail }, heap, mem)

/-! ## Lists of blocks -/

/-- the blocks of a list, in their order -/
def IsList (mem : Memory) : Option ℕ → List ℕ → Prop
  | none, [] => True
  | some a, b :: l => a = b ∧ IsList mem (mem b).next l
  | _, _ => False

/-- two blocks do not overlap -/
def Apart (a b : ℕ) : Prop := a + sizeofMIMEFieldBlockImpl ≤ b ∨ b + sizeofMIMEFieldBlockImpl ≤ a

/-- a pointer to a field in one of the blocks -/
def PointsInto (mem : Memory) (blocks : List ℕ) (p : ℕ) : Prop := ∃ b ∈ blocks, ∃ j < (mem b).freetop, p = fieldAddr b j

/-- what is asserted of the source: its blocks are apart, and the duplicates of its live fields are in them -/
structure Source (mem : Memory) (s : MIMEHdrImpl) (blocks : List ℕ) : Prop where
  list : IsList mem (some s.firstFblock) blocks
  tops : ∀ b ∈ blocks, (mem b).freetop ≤ MIME_FIELD_BLOCK_SLOTS
  apart : blocks.Pairwise Apart
  linked : ∀ b ∈ blocks, ∀ i < (mem b).freetop, ((mem b).fieldSlots i).isLive = true → ∀ p ∈ ((mem b).fieldSlots i).nextDup, PointsInto mem blocks p

/-- where a field of the source is in the copy: in the same slot of the block that is at the same place in its list -/
def image : List (ℕ × ℕ) → ℕ → ℕ
  | [], p => p
  | (s, d) :: blocks, p => if s ≤ p ∧ p < s + sizeofMIMEFieldBlockImpl then p - s + d else image blocks p

variable {mem mem' : Memory}

theorem isList_congr : ∀ {start : Option ℕ} {l : List ℕ}, (∀ b ∈ l, (mem' b).next = (mem b).next) → IsList mem start l → IsList mem' start l
  | none, [], _, _ => trivial
  | some _, b :: _, h, hlist => ⟨hlist.1, h b List.mem_cons_self ▸ isList_congr (fun c hc => h c (List.mem_cons_of_mem _ hc)) hlist.2⟩
  | none, _ :: _, _, hlist => hlist.elim
  | some _, [], _, hlist => hlist.elim

theorem fieldAddr_mem {b j : ℕ} (hj : j < MIME_FIELD_BLOCK_SLOTS) : b ≤ fieldAddr b j ∧ fieldAddr b j < b + sizeofMIMEFieldBlockImpl := by
  simp only [fieldAddr, sizeofMIMEFieldBlockImpl, sizeofMIMEField, fieldSlotsOffset, MIME_FIELD_BLOCK_SLOTS] at hj ⊢
  omega

theorem fieldAddr_le {b j : ℕ} (hj : j ≤ MIME_FIELD_BLOCK_SLOTS) : fieldAddr b j ≤ b + sizeofMIMEFieldBlockImpl := by
  simp only [fieldAddr, sizeofMIMEFieldBlockImpl, sizeofMIMEField, fieldSlotsOffset, MIME_FIELD_BLOCK_SLOTS] at hj ⊢
  omega

theorem Apart.notMem {a b p : ℕ} (h : Apart a b) (hp : b ≤ p ∧ p < b + sizeofMIMEFieldBlockImpl) : ¬ (a ≤ p ∧ p < a + sizeofMIMEFieldBlockImpl) := by
  unfold Apart at h
  omega

/-- a pointer of the source is found in one block of it, and is moved to the block beside it -/
theorem relocate_spec {p : ℕ} :
    ∀ {n : ℕ} {dest src : Option ℕ} {ds ss : List ℕ}, IsList mem dest ds → IsList mem src ss → ds.length = ss.length → ss.length < n →
      ss.Pairwise Apart → (∀ b ∈ ss, (mem b).freetop ≤ MIME_FIELD_BLOCK_SLOTS) → PointsInto mem ss p →
        relocate mem p n dest src = some (image (ss.zip ds) p) := by
  intro n
  induction n with
  | zero => exact fun _ _ _ hn => absurd hn (Nat.not_lt_zero _)
  | succ n ih =>
    intro dest src ds ss hds hss hlength hn hapart htops hp
    obtain ⟨b, hb, j, hj, rfl⟩ := hp
    cases ss with
    | nil => exact absurd hb List.not_mem_nil
    | cons s ss =>
      cases ds with
      | nil => exact absurd hlength nofun
      | cons d ds =>
        cases src with
        | none => exact hss.elim
        | some s' =>
          cases dest with
          | none => exact hds.elim
          | some d' =>
            obtain ⟨rfl, hds⟩ := hds
            obtain ⟨rfl, hss⟩ := hss
            obtain ⟨hfirst, hapart⟩ := List.pairwise_cons.mp hapart
            rw [relocate, List.zip_cons_cons, image]
            have htop := htops s' List.mem_cons_self
            have hslot : j < MIME_FIELD_BLOCK_SLOTS := Nat.lt_of_lt_of_le hj (htops b hb)
            have hend : fieldAddr s' (mem s').freetop ≤ s' + sizeofMIMEFieldBlockImpl := fieldAddr_le htop
            rcases List.mem_cons.mp hb with rfl | hmem
            · have hin : fieldAddr b 0 ≤ fieldAddr b j ∧ fieldAddr b j < fieldAddr b (mem b).freetop := by
                simp only [fieldAddr, sizeofMIMEField]
                omega
              rw [if_pos hin, if_pos (fieldAddr_mem hslot), Option.some.injEq]
              simp only [fieldAddr]
              omega
            · have himage := (hfirst b hmem).notMem (fieldAddr_mem hslot)
              have hout : ¬ (fieldAddr s' 0 ≤ fieldAddr b j ∧ fieldAddr b j < fieldAddr s' (mem s').freetop) := fun hin =>
                himage ⟨(Nat.le_add_right _ _).trans ((Nat.le_add_right _ _).trans hin.1), hin.2.trans_le hend⟩
              rw [if_neg hout, if_neg himage]
              exact ih hds hss (Nat.succ.inj hlength) (Nat.lt_of_succ_lt_succ hn) hapart (fun c hc => htops c (List.mem_cons_of_mem _ hc))
                ⟨b, hmem, j, hj, rfl⟩

/-- the blocks that are gone are marked, no other one is written -/
theorem destroyFieldBlockList_spec :
    ∀ n {start : Option ℕ} {l : List ℕ} {mem : Memory}, IsList mem start l → l.length < n →
      ∃ mem', destroyFieldBlockList n start mem = some mem' ∧ ∀ b, b ∉ l → mem' b = mem b := by
  intro n
  induction n with
  | zero => exact fun _ hn => absurd hn (Nat.not_lt_zero _)
  | succ n ih =>
    intro start l mem hlist hn
    cases l with
    | nil =>
      cases start with
      | some b => exact hlist.elim
      | none => exact ⟨mem, rfl, fun _ _ => rfl⟩
    | cons b l =>
      cases start with
      | none => exact hlist.elim
      | some b' =>
        obtain ⟨rfl, hlist⟩ := hlist
        have hnext : ∀ c, (Function.update mem b' { mem b' with empty := true } c).next = (mem c).next := by
          intro c
          by_cases hc : c = b'
          · rw [hc, Function.update_self]
          · rw [Function.update_of_ne hc]
        obtain ⟨mem', hdestroy, hframe⟩ := ih (isList_congr (fun c _ => hnext c) hlist) (Nat.lt_of_succ_lt_succ hn)
        refine ⟨mem', hdestroy, fun c hc => ?_⟩
        rw [hframe c fun hmem => hc (List.mem_cons_of_mem _ hmem)]
        have hne : c ≠ b' := fun heq => hc (heq ▸ List.mem_cons_self)
        exact Function.update_of_ne hne _ _

/-! ## The blocks are copied -/

/-- nothing of a block is free -/
def Used (heap : HdrHeap) (b : ℕ) : Prop := ∀ a, b ≤ a → a < b + sizeofMIMEFieldBlockImpl → ¬ heap.Free a

/-- all of a block is free -/
def Unused (heap : HdrHeap) (b : ℕ) : Prop := ∀ a, b ≤ a → a < b + sizeofMIMEFieldBlockImpl → heap.Free a

theorem sizeofMIMEFieldBlockImpl_pos : 0 < sizeofMIMEFieldBlockImpl := by decide

theorem Used.ne {heap : HdrHeap} {b c : ℕ} (hb : Used heap b) (hc : Unused heap c) : b ≠ c := by
  intro heq
  subst heq
  have hlt : b < b + sizeofMIMEFieldBlockImpl := Nat.lt_add_of_pos_right sizeofMIMEFieldBlockImpl_pos
  exact hb b le_rfl hlt (hc b le_rfl hlt)

theorem Used.apart {heap : HdrHeap} {b c : ℕ} (hb : Used heap b) (hc : Unused heap c) : Apart b c := by
  by_contra hnot
  rw [Apart, not_or, not_le, not_le] at hnot
  rcases Nat.le_total b c with hle | hle
  · exact hb c hle hnot.1 (hc c le_rfl (Nat.lt_add_of_pos_right sizeofMIMEFieldBlockImpl_pos))
  · exact hb b le_rfl (Nat.lt_add_of_pos_right sizeofMIMEFieldBlockImpl_pos) (hc b hle hnot.2)

theorem Apart.ne {b c : ℕ} (h : Apart b c) : b ≠ c := by
  have hpos := sizeofMIMEFieldBlockImpl_pos
  unfold Apart at h
  omega

/-- the new block and what is left of the heap -/
theorem allocate_block {heap : HdrHeap} (hok : heap.Ok) :
    ∃ d heap', heap.allocateObj sizeofMIMEFieldBlockImpl = some (d, heap') ∧ heap'.Ok ∧ Unused heap d ∧ Used heap' d ∧
      ∀ a, heap'.Free a → heap.Free a := by
  obtain ⟨d, heap', halloc, hallocated⟩ := allocateObj_spec hok (show ROUND sizeofMIMEFieldBlockImpl HDR_PTR_SIZE ≤ HDR_MAX_ALLOC_SIZE by decide)
  exact ⟨d, heap', halloc, hallocated.ok, hallocated.free, fun a hle hlt hfree => (hallocated.left a hfree).2 ⟨hle, hlt⟩,
    fun a hfree => (hallocated.left a hfree).1⟩

/-- one block after another is copied; the contents of the source are `src` -/
theorem copyBlocks_spec {src : Memory} :
    ∀ n {rs : List ℕ} {start : Option ℕ} {prev : ℕ} {heap : HdrHeap} {mem : Memory}, heap.Ok → IsList mem start rs → rs.length < n →
      (∀ r ∈ rs, mem r = src r) → (mem prev).next = start → prev ∉ rs → (∀ r ∈ rs, Used heap r) → Used heap prev →
      ∃ news tail heap' mem', copyBlocks n start prev heap mem = some (tail, heap', mem') ∧ (prev :: news).getLast? = some tail ∧
        IsList mem' (mem' prev).next news ∧
        List.Forall₂ (fun r d => (mem' d).freetop = (src r).freetop ∧ (mem' d).fieldSlots = (src r).fieldSlots) rs news ∧
        ((mem' prev).freetop = (mem prev).freetop ∧ (mem' prev).fieldSlots = (mem prev).fieldSlots) ∧
        (∀ b, b ≠ prev → b ∉ news → mem' b = mem b) ∧ (∀ d ∈ news, Unused heap d) ∧ news.Pairwise Apart := by
  intro n
  induction n with
  | zero => exact fun _ _ hn => absurd hn (Nat.not_lt_zero _)
  | succ n ih =>
    intro rs start prev heap mem hok hlist hn hsrc hnext hprev hused husedPrev
    cases rs with
    | nil =>
      cases start with
      | some r => exact hlist.elim
      | none =>
        refine ⟨[], prev, heap, mem, rfl, rfl, ?_, .nil, ⟨rfl, rfl⟩, fun _ _ _ => rfl, fun d hd => absurd hd List.not_mem_nil, .nil⟩
        rw [hnext]
        trivial
    | cons r rs =>
      cases start with
      | none => exact hlist.elim
      | some r' =>
        obtain ⟨rfl, hlist⟩ := hlist
        obtain ⟨d, heap₁, halloc, hok₁, hunused, hused₁, hless⟩ := allocate_block hok
        have hdr : ∀ b ∈ r' :: rs, b ≠ d := fun b hb => (hused b hb).ne hunused
        have hdprev : prev ≠ d := husedPrev.ne hunused
        -- the contents after the new block is written, and linked
        obtain ⟨mem₁, hmem₁⟩ : ∃ m, m = Function.update mem d (mem r') := ⟨_, rfl⟩
        obtain ⟨mem₂, hmem₂⟩ : ∃ m, m = Function.update mem₁ prev { mem₁ prev with next := some d } := ⟨_, rfl⟩
        have hkept : ∀ b, b ≠ prev → b ≠ d → mem₂ b = mem b := by
          intro b hbp hbd
          rw [hmem₂, Function.update_of_ne hbp, hmem₁, Function.update_of_ne hbd]
        have hnew : mem₂ d = mem r' := by rw [hmem₂, Function.update_of_ne hdprev.symm, hmem₁, Function.update_self]
        have hprev₂ : mem₂ prev = { mem prev with next := some d } := by
          rw [hmem₂, Function.update_self, hmem₁, Function.update_of_ne hdprev]
        have hold : ∀ b ∈ r' :: rs, mem₂ b = mem b := by
          intro b hb
          have hbp : b ≠ prev := by
            intro heq
            exact hprev (heq ▸ hb)
          exact hkept b hbp (hdr b hb)
        have hlist₂ : IsList mem₂ (mem₂ r').next rs := by
          rw [hold r' List.mem_cons_self]
          exact isList_congr (fun b hb => by rw [hold b (List.mem_cons_of_mem _ hb)]) hlist
        obtain ⟨news, tail, heap', mem', hcopy, hlast, hnews, hforall, ⟨htop, hslots⟩, hframe, hfree, hapart⟩ :=
          ih hok₁ hlist₂ (Nat.lt_of_succ_lt_succ hn)
            (fun b hb => (hold b (List.mem_cons_of_mem _ hb)).trans (hsrc b (List.mem_cons_of_mem _ hb)))
            (by rw [hnew, hold r' List.mem_cons_self]) (fun hmem => hdr d (List.mem_cons_of_mem _ hmem) rfl)
            (fun b hb a hle hlt hf => hused b (List.mem_cons_of_mem _ hb) a hle hlt (hless a hf)) hused₁
        have hfree' : ∀ x ∈ d :: news, Unused heap x := by
          intro x hx
          rcases List.mem_cons.mp hx with rfl | hmem
          · exact hunused
          · exact fun a hle hlt => hless a (hfree x hmem a hle hlt)
        have hprevNew : prev ∉ d :: news := fun hmem => husedPrev.ne (hfree' prev hmem) rfl
        have hprev' : mem' prev = mem₂ prev := hframe prev hdprev fun hmem => hprevNew (List.mem_cons_of_mem _ hmem)
        refine ⟨d :: news, tail, heap', mem', ?_, ?_, ?_, ?_, ?_, ?_, hfree', ?_⟩
        · rw [copyBlocks, halloc, Option.bind_some]
          dsimp only
          rw [← hmem₁, ← hmem₂]
          exact hcopy
        · rw [List.getLast?_cons_cons]
          exact hlast
        · rw [hprev', hprev₂]
          exact ⟨rfl, hnews⟩
        · refine .cons ⟨?_, ?_⟩ hforall
          · rw [htop, hnew, hsrc r' List.mem_cons_self]
          · rw [hslots, hnew, hsrc r' List.mem_cons_self]
        · rw [hprev', hprev₂]
          exact ⟨rfl, rfl⟩
        · intro b hbp hb
          rw [hframe b (fun heq => hb (heq ▸ List.mem_cons_self)) fun hmem => hb (List.mem_cons_of_mem _ hmem)]
          exact hkept b hbp fun heq => hb (heq ▸ List.mem_cons_self)
        · exact List.pairwise_cons.mpr ⟨fun x hx => hused₁.apart (hfree x hx), hapart⟩

/-! ## The pointers are relocated -/

/-- a live field, with its pointer moved -/
def moved (g : ℕ → ℕ) (f : MIMEField ℕ) : MIMEField ℕ := if f.isLive then { f with nextDup := f.nextDup.map g } else f

/-- the blocks are linked as before, and in each as many slots are in use -/
def SameShape (mem mem' : Memory) : Prop := ∀ b, (mem' b).next = (mem b).next ∧ (mem' b).freetop = (mem b).freetop

theorem SameShape.trans {mem'' : Memory} (h : SameShape mem mem') (h' : SameShape mem' mem'') : SameShape mem mem'' := fun b =>
  ⟨(h' b).1.trans (h b).1, (h' b).2.trans (h b).2⟩

theorem sameShape_update (mem : Memory) (b : ℕ) (slots : ℕ → MIMEField ℕ) :
    SameShape mem (Function.update mem b { mem b with fieldSlots := slots }) := by
  intro c
  by_cases hc : c = b
  · subst hc
    rw [Function.update_self]
    exact ⟨rfl, rfl⟩
  · rw [Function.update_of_ne hc]
    exact ⟨rfl, rfl⟩

section Adjust

variable {fuel newList oldList : ℕ} {g : ℕ → ℕ} {P : ℕ → Prop}

theorem adjustFields_spec (blk : ℕ) :
    ∀ left i {mem : Memory}, (∀ mem₁, SameShape mem mem₁ → ∀ p, P p → relocate mem₁ p fuel (some newList) (some oldList) = some (g p)) →
      (∀ j, i ≤ j → j < i + left → ((mem blk).fieldSlots j).isLive = true → ∀ p ∈ ((mem blk).fieldSlots j).nextDup, P p) →
      adjustFields fuel newList oldList blk left i mem = some (Function.update mem blk { mem blk with
        fieldSlots := fun j => if i ≤ j ∧ j < i + left then moved g ((mem blk).fieldSlots j) else (mem blk).fieldSlots j }) := by
  intro left
  induction left with
  | zero =>
    intro i mem _ _
    have hsame : (fun j => if i ≤ j ∧ j < i + 0 then moved g ((mem blk).fieldSlots j) else (mem blk).fieldSlots j) = (mem blk).fieldSlots := by
      funext j
      rw [if_neg (by omega)]
    rw [adjustFields, hsame, Function.update_eq_self]
  | succ left ih =>
    intro i mem hrelocate hpoints
    -- the rest of the slots, when the first one has the field that it should have
    have hrest : ∀ {mem₁ : Memory}, mem₁ = Function.update mem blk { mem blk with
        fieldSlots := Function.update (mem blk).fieldSlots i (moved g ((mem blk).fieldSlots i)) } →
        adjustFields fuel newList oldList blk left (i + 1) mem₁ = some (Function.update mem blk { mem blk with
          fieldSlots := fun j => if i ≤ j ∧ j < i + (left + 1) then moved g ((mem blk).fieldSlots j) else (mem blk).fieldSlots j }) := by
      intro mem₁ hmem₁
      have hshape : SameShape mem mem₁ := hmem₁ ▸ sameShape_update mem blk _
      have hblk : mem₁ blk = { mem blk with fieldSlots := Function.update (mem blk).fieldSlots i (moved g ((mem blk).fieldSlots i)) } := by
        rw [hmem₁, Function.update_self]
      have hslots : ∀ j, i + 1 ≤ j → (mem₁ blk).fieldSlots j = (mem blk).fieldSlots j := by
        intro j hj
        rw [hblk]
        exact Function.update_of_ne (by omega) _ _
      rw [ih (i + 1) (fun mem₂ h₂ p hp => hrelocate mem₂ (hshape.trans h₂) p hp) (fun j hle hlt => by
        rw [hslots j hle]
        exact hpoints j (by omega) (by omega)), hblk, hmem₁, Function.update_idem]
      refine congrArg (fun slots => some (Function.update mem blk { mem blk with fieldSlots := slots })) (funext fun j => ?_)
      dsimp only
      by_cases hj : j = i
      · subst hj
        rw [if_neg (by omega), if_pos (by omega), Function.update_self]
      · rw [Function.update_of_ne hj]
        exact if_congr (by omega) rfl rfl
    rw [adjustFields]
    cases hnext : ((mem blk).fieldSlots i).nextDup with
    | none =>
      refine hrest ?_
      have hmoved : moved g ((mem blk).fieldSlots i) = (mem blk).fieldSlots i := by
        unfold moved
        split_ifs
        · rw [hnext, Option.map_none, ← hnext]
        · rfl
      rw [hmoved, Function.update_eq_self, Function.update_eq_self]
    | some p =>
      dsimp only
      split_ifs with hlive
      · rw [hrelocate mem (fun b => ⟨rfl, rfl⟩) p (hpoints i le_rfl (by omega) hlive p hnext), Option.bind_some]
        refine hrest ?_
        rw [moved, if_pos hlive, hnext, Option.map_some]
      · refine hrest ?_
        rw [moved, if_neg hlive, Function.update_eq_self, Function.update_eq_self]

theorem fieldBlockListAdjust_spec :
    ∀ n {start : Option ℕ} {l : List ℕ} {mem : Memory},
      (∀ mem₁, SameShape mem mem₁ → ∀ p, P p → relocate mem₁ p fuel (some newList) (some oldList) = some (g p)) →
      IsList mem start l → l.length < n → l.Nodup →
      (∀ b ∈ l, ∀ j < (mem b).freetop, ((mem b).fieldSlots j).isLive = true → ∀ p ∈ ((mem b).fieldSlots j).nextDup, P p) →
      ∃ mem', fieldBlockListAdjust fuel oldList newList n start mem = some mem' ∧ SameShape mem mem' ∧
        (∀ b ∈ l, ∀ j < (mem b).freetop, (mem' b).fieldSlots j = moved g ((mem b).fieldSlots j)) ∧ ∀ b, b ∉ l → mem' b = mem b := by
  intro n
  induction n with
  | zero => exact fun _ _ hn => absurd hn (Nat.not_lt_zero _)
  | succ n ih =>
    intro start l mem hrelocate hlist hn hnodup hpoints
    cases l with
    | nil =>
      cases start with
      | some b => exact hlist.elim
      | none => exact ⟨mem, rfl, fun b => ⟨rfl, rfl⟩, fun b hb => absurd hb List.not_mem_nil, fun _ _ => rfl⟩
    | cons b l =>
      cases start with
      | none => exact hlist.elim
      | some b' =>
        obtain ⟨rfl, hlist⟩ := hlist
        obtain ⟨hb, hnodup⟩ := List.nodup_cons.mp hnodup
        have hfields := adjustFields_spec b' (mem b').freetop 0 hrelocate fun j _ hlt => hpoints b' List.mem_cons_self j (by omega)
        obtain ⟨mem₁, hmem₁⟩ : ∃ m, m = Function.update mem b' { mem b' with
            fieldSlots := fun j => if 0 ≤ j ∧ j < 0 + (mem b').freetop then moved g ((mem b').fieldSlots j) else (mem b').fieldSlots j } := ⟨_, rfl⟩
        have hshape : SameShape mem mem₁ := hmem₁ ▸ sameShape_update mem b' _
        have hold : ∀ c, c ≠ b' → mem₁ c = mem c := fun c hc => by rw [hmem₁, Function.update_of_ne hc]
        have hne : ∀ c ∈ l, c ≠ b' := fun c hc heq => hb (heq ▸ hc)
        have hlist₁ : IsList mem₁ (mem₁ b').next l := by
          rw [(hshape b').1]
          exact isList_congr (fun c _ => (hshape c).1) hlist
        obtain ⟨mem', hadjust, hshape', hmoved, hframe⟩ := ih (fun mem₂ h₂ p hp => hrelocate mem₂ (hshape.trans h₂) p hp) hlist₁
          (Nat.lt_of_succ_lt_succ hn) hnodup (fun c hc => by
            rw [hold c (hne c hc)]
            exact hpoints c (List.mem_cons_of_mem _ hc))
        refine ⟨mem', ?_, hshape.trans hshape', fun c hc j hj => ?_, fun c hc => ?_⟩
        · rw [fieldBlockListAdjust, hfields, Option.bind_some, ← hmem₁]
          exact hadjust
        · rcases List.mem_cons.mp hc with rfl | hmem
          · rw [hframe c hb, hmem₁, Function.update_self]
            exact if_pos ⟨Nat.zero_le j, by omega⟩
          · rw [← hold c (hne c hmem)] at hj ⊢
            exact hmoved c hmem j hj
        · rw [hframe c fun hmem => hc (List.mem_cons_of_mem _ hmem), hold c fun heq => hc (heq ▸ List.mem_cons_self)]

end Adjust

/-! ## The copy -/

/-- the field at an address -/
def FieldAt (mem : Memory) (blocks : List ℕ) (p : ℕ) (f : MIMEField ℕ) : Prop :=
  ∃ b ∈ blocks, ∃ j < (mem b).freetop, p = fieldAddr b j ∧ f = (mem b).fieldSlots j

/-- the chain of the live duplicates that begins at a pointer -/
def IsChain (mem : Memory) (blocks : List ℕ) : Option ℕ → List ℕ → Prop
  | none, [] => True
  | some p, q :: l => p = q ∧ ∃ f, FieldAt mem blocks p f ∧ f.isLive = true ∧ IsChain mem blocks f.nextDup l
  | _, _ => False

/-- each block of the one list has its copy at the same place of the other one, and the pointers in it are moved by `g` -/
def Copied (mem mem' : Memory) (g : ℕ → ℕ) : List ℕ → List ℕ → Prop :=
  List.Forall₂ fun b c => (mem' c).freetop = (mem b).freetop ∧ ∀ j < (mem b).freetop, (mem' c).fieldSlots j = moved g ((mem b).fieldSlots j)

/-- a slot of a block has its image in the block at the same place of the other list -/
theorem image_fieldAddr {R : ℕ → ℕ → Prop} {ss ds : List ℕ} (hR : List.Forall₂ R ss ds) :
    ss.Pairwise Apart → List.Forall₂ (fun b c => R b c ∧ ∀ j < MIME_FIELD_BLOCK_SLOTS, image (ss.zip ds) (fieldAddr b j) = fieldAddr c j) ss ds := by
  induction hR with
  | nil => exact fun _ => .nil
  | @cons s d ss ds hsd _ ih =>
    intro hapart
    obtain ⟨hfirst, hapart⟩ := List.pairwise_cons.mp hapart
    have hrest := List.forall₂_and_left _ _ |>.mpr ⟨hfirst, ih hapart⟩
    refine .cons ⟨hsd, fun j hj => ?_⟩ (hrest.imp fun b c h => ⟨h.2.1, fun j hj => ?_⟩)
    · have hin : s ≤ fieldAddr s j ∧ fieldAddr s j < s + sizeofMIMEFieldBlockImpl := fieldAddr_mem hj
      rw [List.zip_cons_cons, image, if_pos hin]
      simp only [fieldAddr]
      omega
    · have hout : ¬ (s ≤ fieldAddr b j ∧ fieldAddr b j < s + sizeofMIMEFieldBlockImpl) := h.1.notMem (fieldAddr_mem hj)
      rw [List.zip_cons_cons, image, if_neg hout]
      exact h.2.2 j hj

/-- each block has one beside it -/
theorem beside {R : ℕ → ℕ → Prop} {ss ds : List ℕ} (hR : List.Forall₂ R ss ds) : ∀ b ∈ ss, ∃ c ∈ ds, R b c := by
  induction hR with
  | nil => exact fun b hb => absurd hb List.not_mem_nil
  | @cons s d ss ds hsd _ ih =>
    intro b hb
    rcases List.mem_cons.mp hb with rfl | hmem
    · exact ⟨d, List.mem_cons_self, hsd⟩
    · obtain ⟨c, hc, hbc⟩ := ih b hmem
      exact ⟨c, List.mem_cons_of_mem _ hc, hbc⟩

theorem moved_isLive (g : ℕ → ℕ) (f : MIMEField ℕ) : (moved g f).isLive = f.isLive := by
  unfold moved
  split_ifs
  · rfl
  · rfl

theorem moved_nextDup {g : ℕ → ℕ} {f : MIMEField ℕ} (hlive : f.isLive = true) : (moved g f).nextDup = f.nextDup.map g := by
  rw [moved, if_pos hlive]

section Image

variable {s : MIMEHdrImpl} {ss ds : List ℕ} (hsource : Source mem s ss) (hcopied : Copied mem mem' (image (ss.zip ds)) ss ds)

include hsource hcopied

theorem fieldAt_image {p : ℕ} {f : MIMEField ℕ} (hf : FieldAt mem ss p f) :
    FieldAt mem' ds (image (ss.zip ds) p) (moved (image (ss.zip ds)) f) := by
  obtain ⟨b, hb, j, hj, rfl, rfl⟩ := hf
  obtain ⟨c, hc, ⟨htop, hslots⟩, himage⟩ := beside (image_fieldAddr hcopied hsource.apart) b hb
  exact ⟨c, hc, j, htop ▸ hj, himage j (hj.trans_le (hsource.tops b hb)), (hslots j hj).symm⟩

/-- the image of a chain is the chain of the copy -/
theorem isChain_image : ∀ {start : Option ℕ} {l : List ℕ}, IsChain mem ss start l →
    IsChain mem' ds (start.map (image (ss.zip ds))) (l.map (image (ss.zip ds)))
  | none, [], _ => trivial
  | some _, _ :: _, ⟨hp, f, hf, hlive, hrest⟩ => by
    refine ⟨congrArg _ hp, moved _ f, fieldAt_image hsource hcopied hf, (moved_isLive _ f).trans hlive, ?_⟩
    rw [moved_nextDup hlive]
    exact isChain_image hrest
  | none, _ :: _, h => h.elim
  | some _, [], h => h.elim

/-- a pointer of the copy is to a field of the copy -/
theorem linked_copy : ∀ c ∈ ds, ∀ j < (mem' c).freetop, ((mem' c).fieldSlots j).isLive = true →
    ∀ p ∈ ((mem' c).fieldSlots j).nextDup, PointsInto mem' ds p := by
  intro c hc j hj hlive p hp
  obtain ⟨b, hb, htop, hslots⟩ := beside hcopied.flip c hc
  rw [htop] at hj
  rw [hslots j hj, moved_isLive] at hlive
  rw [hslots j hj, moved_nextDup hlive] at hp
  obtain ⟨q, hq, rfl⟩ := Option.mem_map.mp hp
  obtain ⟨b', hb', j', hj', rfl⟩ := hsource.linked b hb j hj hlive q hq
  obtain ⟨c', hc', j'', hj'', heq, -⟩ := fieldAt_image hsource hcopied ⟨b', hb', j', hj', rfl, rfl⟩
  exact ⟨c', hc', j'', hj'', heq⟩

end Image

/-- what `copyOnto` makes of the destination `d`: `d'`, with the blocks `ds` -/
structure Copy (mem mem' : Memory) (s d d' : MIMEHdrImpl) (ss ds : List ℕ) : Prop where
  first : d'.firstFblock = d.firstFblock
  presenceBits : d'.presenceBits = s.presenceBits
  slotAccelerators : d'.slotAccelerators = s.slotAccelerators
  cookedStuff : d'.cookedStuff = s.cookedStuff
  tail : ds.getLast? = some d'.fblockListTail
  fields : Copied mem mem' (image (ss.zip ds)) ss ds
  chains : ∀ start l, IsChain mem ss start l → IsChain mem' ds (start.map (image (ss.zip ds))) (l.map (image (ss.zip ds)))
  /-- the pointers of the copy are to its own fields -/
  copy : Source mem' d' ds
  /-- and no block of it is one of the source -/
  apart : ∀ b ∈ ss, ∀ c ∈ ds, Apart b c
  source : ∀ b ∈ ss, mem' b = mem b

/-- a list that is empty is destroyed, and copied, in either branch -/
theorem destroyFieldBlockList_match {fuel : ℕ} (hfuel : 0 < fuel) (start : Option ℕ) (mem : Memory) :
    (match start with
      | none => some mem
      | some block => destroyFieldBlockList fuel (some block) mem) = destroyFieldBlockList fuel start mem := by
  cases start with
  | some r => rfl
  | none =>
    cases fuel with
    | zero => exact absurd hfuel (lt_irrefl 0)
    | succ n => rfl

theorem copyBlocks_match {fuel : ℕ} (hfuel : 0 < fuel) (start : Option ℕ) (prev : ℕ) (heap : HdrHeap) (mem : Memory) :
    (match start with
      | none => some (prev, heap, mem)
      | some _ => copyBlocks fuel start prev heap mem) = copyBlocks fuel start prev heap mem := by
  cases start with
  | some r => rfl
  | none =>
    cases fuel with
    | zero => exact absurd hfuel (lt_irrefl 0)
    | succ n => rfl

section CopyOnto

variable {s : MIMEHdrImpl} {D : ℕ} {ss news : List ℕ} {mem₂ : Memory}

/-- the pointers of the copied blocks are relocated -/
theorem adjust_copied {fuel : ℕ} (hsource : Source mem s ss) (hss : ∀ b ∈ ss, mem₂ b = mem b) (hlist : IsList mem₂ (some D) (D :: news))
    (hfuel : ss.length < fuel) (hnodup : (D :: news).Nodup) (hdisjoint : ∀ b ∈ ss, b ∉ D :: news)
    (hfields : List.Forall₂ (fun b c => (mem₂ c).freetop = (mem b).freetop ∧ ∀ j < (mem b).freetop, (mem₂ c).fieldSlots j = (mem b).fieldSlots j)
      ss (D :: news)) :
    ∃ mem', fieldBlockListAdjust fuel s.firstFblock D fuel (some D) mem₂ = some mem' ∧ IsList mem' (some D) (D :: news) ∧
      Copied mem mem' (image (ss.zip (D :: news))) ss (D :: news) ∧ ∀ b ∈ ss, mem' b = mem b := by
  have hlength : (D :: news).length = ss.length := hfields.length_eq.symm
  have hrelocate : ∀ mem₃, SameShape mem₂ mem₃ → ∀ p, PointsInto mem ss p →
      relocate mem₃ p fuel (some D) (some s.firstFblock) = some (image (ss.zip (D :: news)) p) := by
    intro mem₃ hshape p hp
    have hkept : ∀ b ∈ ss, (mem₃ b).next = (mem b).next ∧ (mem₃ b).freetop = (mem b).freetop := by
      intro b hb
      rw [(hshape b).1, (hshape b).2, hss b hb]
      exact ⟨rfl, rfl⟩
    refine relocate_spec (isList_congr (fun c _ => (hshape c).1) hlist) (isList_congr (fun b hb => (hkept b hb).1) hsource.list) hlength hfuel
      hsource.apart (fun b hb => ?_) ?_
    · rw [(hkept b hb).2]
      exact hsource.tops b hb
    · obtain ⟨b, hb, j, hj, rfl⟩ := hp
      exact ⟨b, hb, j, (hkept b hb).2 ▸ hj, rfl⟩
  have hpoints : ∀ c ∈ D :: news, ∀ j < (mem₂ c).freetop, ((mem₂ c).fieldSlots j).isLive = true → ∀ p ∈ ((mem₂ c).fieldSlots j).nextDup,
      PointsInto mem ss p := by
    intro c hc j hj hlive p hp
    obtain ⟨b, hb, htop, hslots⟩ := beside hfields.flip c hc
    rw [htop] at hj
    rw [hslots j hj] at hlive hp
    exact hsource.linked b hb j hj hlive p hp
  obtain ⟨mem', hadjust, hshape, hmoved, hframe⟩ := fieldBlockListAdjust_spec fuel hrelocate hlist (hlength ▸ hfuel) hnodup hpoints
  refine ⟨mem', hadjust, isList_congr (fun c _ => (hshape c).1) hlist, ?_, fun b hb => (hframe b (hdisjoint b hb)).trans (hss b hb)⟩
  refine List.forall₂_iff_get.mpr ⟨hlength.symm, fun i hi hi' => ?_⟩
  obtain ⟨htop, hslots⟩ := (List.forall₂_iff_get.mp hfields).2 i hi hi'
  refine ⟨(hshape _).2.trans htop, fun j hj => ?_⟩
  rw [hmoved _ (List.get_mem _ _) j (htop ▸ hj), hslots j hj]

/-- a header is copied onto another one: the result is a copy, and the source is as it was -/
theorem copyOnto_spec {fuel : ℕ} {d : MIMEHdrImpl} {heap : HdrHeap} {old : List ℕ} (hsource : Source mem s ss) (hok : heap.Ok)
    (hold : IsList mem (mem d.firstFblock).next old) (hdisjoint : ∀ b ∈ ss, b ∉ old) (hapart : ∀ b ∈ ss, Apart b d.firstFblock)
    (hused : ∀ b ∈ d.firstFblock :: ss, Used heap b) (hfuel : ss.length < fuel) (hfuelOld : old.length < fuel) :
    ∃ d' heap' mem' ds, copyOnto fuel s d heap mem = some (d', heap', mem') ∧ Copy mem mem' s d d' ss ds := by
  obtain ⟨D, hD⟩ : ∃ D, D = d.firstFblock := ⟨_, rfl⟩
  rw [← hD] at hold hapart hused
  -- the blocks that the destination had are destroyed
  obtain ⟨mem₀, hdestroy, hmem₀⟩ : ∃ mem₀, (match (mem D).next with
      | none => some mem
      | some block => destroyFieldBlockList fuel (some block) mem) = some mem₀ ∧ ∀ b ∈ ss, mem₀ b = mem b := by
    obtain ⟨mem₀, hdestroy, hframe⟩ := destroyFieldBlockList_spec fuel hold hfuelOld
    rw [destroyFieldBlockList_match (Nat.zero_lt_of_lt hfuel)]
    exact ⟨mem₀, hdestroy, fun b hb => hframe b (hdisjoint b hb)⟩
  -- the first block is written
  obtain ⟨mem₁, hmem₁⟩ : ∃ m, m = Function.update mem₀ D { mem₀ s.firstFblock with
      fieldSlots := fun i => if i < (mem₀ s.firstFblock).freetop then (mem₀ s.firstFblock).fieldSlots i else (mem₀ D).fieldSlots i } := ⟨_, rfl⟩
  have hss₁ : ∀ b ∈ ss, mem₁ b = mem b := by
    intro b hb
    rw [hmem₁, Function.update_of_ne (hapart b hb).ne]
    exact hmem₀ b hb
  cases ss with
  | nil => exact hsource.list.elim
  | cons S rest =>
    obtain ⟨hS, hrest⟩ := hsource.list
    obtain ⟨hfirst, -⟩ := List.pairwise_cons.mp hsource.apart
    have hS₁ : mem₁ S = mem S := hss₁ S List.mem_cons_self
    have hD₁ : mem₁ D = { mem S with
        fieldSlots := fun i => if i < (mem S).freetop then (mem S).fieldSlots i else (mem₀ D).fieldSlots i } := by
      rw [hmem₁, Function.update_self, hS, hmem₀ S List.mem_cons_self]
    have hnext : (mem₁ D).next = (mem₁ S).next := by rw [hD₁, hS₁]
    have hDrest : D ∉ rest := fun hmem => (hapart D (List.mem_cons_of_mem _ hmem)).ne rfl
    have hlist₁ : IsList mem₁ (mem₁ S).next rest := by
      rw [hS₁]
      exact isList_congr (fun b hb => by rw [hss₁ b (List.mem_cons_of_mem _ hb)]) hrest
    obtain ⟨news, tail, heap', mem₂, hcopy, hlast, hnews, hforall, ⟨htop, hslots⟩, hframe, hfree, hnewApart⟩ :=
      copyBlocks_spec fuel hok hlist₁ ((Nat.lt_succ_self _).trans hfuel) (fun b hb => hss₁ b (List.mem_cons_of_mem _ hb)) hnext hDrest
        (fun b hb => hused b (List.mem_cons_of_mem _ (List.mem_cons_of_mem _ hb))) (hused D List.mem_cons_self)
    have hDnews : ∀ c ∈ news, Apart D c := fun c hc => (hused D List.mem_cons_self).apart (hfree c hc)
    have hds : (D :: news).Pairwise Apart := List.pairwise_cons.mpr ⟨hDnews, hnewApart⟩
    have hssds : ∀ b ∈ S :: rest, ∀ c ∈ D :: news, Apart b c := by
      intro b hb c hc
      rcases List.mem_cons.mp hc with rfl | hmem
      · exact hapart b hb
      · exact (hused b (List.mem_cons_of_mem _ hb)).apart (hfree c hmem)
    have hss₂ : ∀ b ∈ S :: rest, mem₂ b = mem b := by
      intro b hb
      rw [hframe b (hapart b hb).ne fun hmem => (hssds b hb b (List.mem_cons_of_mem _ hmem)).ne rfl]
      exact hss₁ b hb
    have hfields : List.Forall₂ (fun b c => (mem₂ c).freetop = (mem b).freetop ∧ ∀ j < (mem b).freetop, (mem₂ c).fieldSlots j = (mem b).fieldSlots j)
        (S :: rest) (D :: news) := by
      refine .cons ⟨by rw [htop, hD₁], fun j hj => ?_⟩ (hforall.imp fun b c h => ⟨h.1, fun j _ => by rw [h.2]⟩)
      rw [hslots, hD₁]
      exact if_pos hj
    obtain ⟨mem', hadjust, hlist', hcopied, hsame⟩ := adjust_copied hsource hss₂ ⟨rfl, hnews⟩ hfuel
      (hds.imp fun h => h.ne) (fun b hb hmem => (hssds b hb b hmem).ne rfl) hfields
    refine ⟨{ s with firstFblock := D, fblockListTail := tail }, heap', mem', D :: news, ?_, ?_⟩
    · rw [copyOnto, ← hD, hdestroy, Option.bind_some]
      dsimp only
      rw [← hmem₁, hnext, hS, copyBlocks_match (Nat.zero_lt_of_lt hfuel), hcopy, Option.bind_some]
      dsimp only
      rw [← hS, hadjust, Option.map_some]
    · refine ⟨hD, rfl, rfl, rfl, hlast, hcopied, fun start l => isChain_image hsource hcopied, ?_, hssds, hsame⟩
      refine ⟨hlist', fun c hc => ?_, hds, linked_copy hsource hcopied⟩
      obtain ⟨b, hb, htop', -⟩ := beside hcopied.flip c hc
      rw [htop']
      exact hsource.tops b hb

end CopyOnto

/-- two blocks, with a duplicate in the second one of the field in the first one; and a header that had two blocks -/
def crossing : Memory
  | 1000 => ⟨false, 1, some 2000, fun _ => ⟨text "Via", none, some (fieldAddr 2000 0), none, false, .live, true, false⟩⟩
  | 2000 => ⟨false, 1, none, fun _ => ⟨text "Via", none, none, none, false, .live, false, false⟩⟩
  | 3000 => ⟨false, 0, some 4000, fun _ => .init⟩
  | _ => ⟨false, 0, none, fun _ => .init⟩

def crossingHdr (first tail : ℕ) : MIMEHdrImpl := ⟨fun _ => false, fun _ => 0, ⟨.init, false⟩, tail, first⟩

theorem crossing_source : Source crossing (crossingHdr 1000 2000) [1000, 2000] := by
  refine ⟨⟨rfl, rfl, trivial⟩, ?_, ?_, ?_⟩
  · decide
  · simp [Apart, sizeofMIMEFieldBlockImpl, sizeofMIMEField, fieldSlotsOffset, MIME_FIELD_BLOCK_SLOTS]
  · intro b hb i hi hlive p hp
    rcases List.mem_pair.mp hb with rfl | rfl
    · obtain rfl : fieldAddr 2000 0 = p := Option.some.inj hp
      exact ⟨2000, by simp, 0, by decide, rfl⟩
    · exact absurd hp nofun

theorem crossing_copied :
    ∃ d' heap' mem' ds, copyOnto 3 (crossingHdr 1000 2000) (crossingHdr 3000 4000) ⟨[⟨10000, 10000, 1912, 2048⟩], 20000⟩ crossing =
      some (d', heap', mem') ∧ Copy crossing mem' (crossingHdr 1000 2000) (crossingHdr 3000 4000) d' [1000, 2000] ds := by
  refine copyOnto_spec crossing_source ⟨nofun, ?_, ?_, List.pairwise_singleton _ _⟩ (show IsList crossing (some 4000) [4000] from ⟨rfl, trivial⟩)
    (by decide) ?_ ?_ (by decide) (by decide)
  · simp [HDR_HEAP_DEFAULT_SIZE]
  · simp
  · simp [Apart, sizeofMIMEFieldBlockImpl, sizeofMIMEField, fieldSlotsOffset, MIME_FIELD_BLOCK_SLOTS, crossingHdr]
  · simp only [Used, HdrHeap.Free, HdrHeapBlock.Free, sizeofMIMEFieldBlockImpl, sizeofMIMEField, fieldSlotsOffset, MIME_FIELD_BLOCK_SLOTS, crossingHdr,
      List.mem_cons, List.not_mem_nil, or_false, exists_eq_left]
    omega

end TrafficServer.Hdrs.MimeCopy
