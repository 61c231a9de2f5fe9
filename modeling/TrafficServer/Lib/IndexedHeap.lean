/-
Binary heaps whose elements know where they are.

A heap is a vector, and an index for each element that all heaps share. An element can be taken out of the middle with its index, so each
operation must leave the index of every element at its place: `Indexed`. The operations are given by what is in the vector behind them
(`push_spec`, `erase_spec`, `pop_spec`, `update_spec`), whatever the order is.
-/
import Mathlib.Data.List.Nodup
import Mathlib.Tactic

namespace TrafficServer.IndexedHeap

/-- a vector, and the places where elements say that they are -/
structure Heap (α : Type*) where
  v : List α
  index : α → ℕ

variable {α : Type*} {h : Heap α} {e x : α}

namespace Heap

section Operations

variable [DecidableEq α]

def setIndex (h : Heap α) (x : α) (i : ℕ) : Heap α := { h with index := Function.update h.index x i }

def swap (h : Heap α) (i j : ℕ) : Heap α :=
  match h.v[i]?, h.v[j]? with
  | some a, some b => ({ h with v := (h.v.set i b).set j a }.setIndex b i).setIndex a j
  | _, _ => h

variable (less : α → α → Bool)

/-- the elements at two places in order -/
def comp (h : Heap α) (i j : ℕ) : Bool :=
  match h.v[i]?, h.v[j]? with
  | some a, some b => less a b
  | _, _ => false

def bubbleUp : ℕ → Heap α → ℕ → Heap α
  | 0, h, _ => h
  | fuel + 1, h, i =>
    if i = 0 then h
    else
      let parent := (i - 1) / 2
      if h.comp less i parent then bubbleUp fuel (h.swap parent i) parent else h

def bubbleDown : ℕ → Heap α → ℕ → Heap α
  | 0, h, _ => h
  | fuel + 1, h, i =>
    let left := i * 2 + 1
    let right := i * 2 + 2
    if left ≥ h.v.length then h
    else
      let smaller := if right ≥ h.v.length then left else if h.comp less left right then left else right
      if h.comp less smaller i then bubbleDown fuel (h.swap smaller i) smaller else h

def push (h : Heap α) (e : α) : Heap α :=
  let len := h.v.length
  bubbleUp less len ({ h with v := h.v ++ [e] }.setIndex e len) len

/-- the element at a place goes to the end and off; it keeps an index -/
def cut (h : Heap α) (k i : ℕ) : Heap α :=
  let h := h.swap k (h.v.length - 1)
  let h :=
    match h.v[h.v.length - 1]? with
    | some last => h.setIndex last i
    | none => h
  { h with v := h.v.dropLast }

def pop (h : Heap α) : Heap α :=
  match h.v with
  | [] => h
  | top :: v => bubbleDown less v.length (h.cut 0 (h.index top)) 0

/-- an element that is not where it says it is does not belong to the heap -/
def erase (h : Heap α) (e : α) : Heap α :=
  let i := h.index e
  if h.v[i]? ≠ some e then h
  else if i ≠ h.v.length - 1 then
    let h := h.cut i i
    bubbleUp less i (bubbleDown less h.v.length h i) i
  else { h with v := h.v.dropLast }

/-- the element has become larger -/
def update (h : Heap α) (e : α) : Heap α := bubbleDown less h.v.length h (h.index e)

end Operations

end Heap

/-! ## Where the elements are -/

/-- each element is where it says it is -/
def Indexed (h : Heap α) : Prop := ∀ (i : ℕ) (x : α), h.v[i]? = some x → h.index x = i

theorem Indexed.nodup (hi : Indexed h) : h.v.Nodup := by
  rw [List.nodup_iff_injective_getElem]
  intro i j hij
  have hat : ∀ k : Fin h.v.length, h.index h.v[k.val] = k.val := fun k => hi k.val _ (List.getElem?_eq_getElem k.isLt)
  have hindex : h.index h.v[i.val] = h.index h.v[j.val] := congrArg h.index hij
  exact Fin.ext ((hat i).symm.trans (hindex.trans (hat j)))

/-- the same elements in some order -/
structure Rearranged (h h' : Heap α) : Prop where
  indexed : Indexed h'
  mem : ∀ x, x ∈ h'.v ↔ x ∈ h.v
  frame : ∀ x, x ∉ h.v → h'.index x = h.index x

theorem Rearranged.refl (hi : Indexed h) : Rearranged h h := ⟨hi, fun _ => Iff.rfl, fun _ _ => rfl⟩

theorem Rearranged.trans {h' h'' : Heap α} (h₁ : Rearranged h h') (h₂ : Rearranged h' h'') : Rearranged h h'' :=
  ⟨h₂.indexed, fun x => (h₂.mem x).trans (h₁.mem x), fun x hx => (h₂.frame x fun h => hx ((h₁.mem x).mp h)).trans (h₁.frame x hx)⟩

section Rearrange

variable [DecidableEq α] (less : α → α → Bool)

theorem swap_eq {i j : ℕ} {a b : α} (ha : h.v[i]? = some a) (hb : h.v[j]? = some b) :
    (∀ m, (h.swap i j).v[m]? = if m = j then some a else if m = i then some b else h.v[m]?) ∧
      ∀ x, (h.swap i j).index x = if x = a then j else if x = b then i else h.index x := by
  have hil : i < h.v.length := (List.getElem?_eq_some_iff.mp ha).1
  have hjl : j < h.v.length := (List.getElem?_eq_some_iff.mp hb).1
  refine ⟨fun m => ?_, fun x => ?_⟩
  · simp only [Heap.swap, ha, hb, Heap.setIndex]
    rw [List.getElem?_set, List.length_set, List.getElem?_set]
    by_cases hm : m = j
    · rw [if_pos hm.symm, if_pos (by omega), if_pos hm]
    · rw [if_neg (Ne.symm hm), if_neg hm]
      by_cases hm' : m = i
      · rw [if_pos hm'.symm, if_pos (by omega), if_pos hm']
      · rw [if_neg (Ne.symm hm'), if_neg hm']
  · simp only [Heap.swap, ha, hb, Heap.setIndex, Function.update_apply]

theorem swap_none {i j : ℕ} (hn : h.v[i]? = none ∨ h.v[j]? = none) : h.swap i j = h := by
  unfold Heap.swap
  rcases hn with hn | hn
  · rw [hn]
  · rw [hn]
    split <;> simp_all

theorem swap_rearranged (hi : Indexed h) (i j : ℕ) : Rearranged h (h.swap i j) := by
  cases ha : h.v[i]? with
  | none =>
    rw [swap_none (Or.inl ha)]
    exact Rearranged.refl hi
  | some a =>
    cases hb : h.v[j]? with
    | none =>
      rw [swap_none (Or.inr hb)]
      exact Rearranged.refl hi
    | some b =>
      obtain ⟨hv, hindex⟩ := swap_eq ha hb
      have hia : h.index a = i := hi i a ha
      have hib : h.index b = j := hi j b hb
      refine ⟨fun m x hx => ?_, fun x => ?_, fun x hx => ?_⟩
      · rw [hindex]
        rw [hv] at hx
        by_cases hm : m = j
        · rw [if_pos hm] at hx
          rw [if_pos (Option.some.inj hx).symm, hm]
        · rw [if_neg hm] at hx
          by_cases hm' : m = i
          · rw [if_pos hm'] at hx
            obtain rfl := Option.some.inj hx
            have hba : b ≠ a := fun heq => hm (by rw [hm', ← hib, heq, hia])
            rw [if_neg hba, if_pos rfl, hm']
          · rw [if_neg hm'] at hx
            have hxm : h.index x = m := hi m x hx
            rw [if_neg fun heq => hm' (by rw [← hxm, heq, hia]), if_neg fun heq => hm (by rw [← hxm, heq, hib]), hxm]
      · rw [List.mem_iff_getElem?, List.mem_iff_getElem?]
        constructor
        · rintro ⟨m, hm⟩
          rw [hv] at hm
          split_ifs at hm
          · exact ⟨i, ha.trans hm⟩
          · exact ⟨j, hb.trans hm⟩
          · exact ⟨m, hm⟩
        · rintro ⟨m, hm⟩
          by_cases hmi : m = i
          · exact ⟨j, by rw [hv, if_pos rfl, ← ha, ← hm, hmi]⟩
          · by_cases hmj : m = j
            · refine ⟨i, ?_⟩
              rw [hv, if_neg fun heq => hmi (hmj.trans heq.symm), if_pos rfl, ← hb, ← hm, hmj]
            · exact ⟨m, by rw [hv, if_neg hmj, if_neg hmi, hm]⟩
      · have hxa : x ≠ a := fun heq => hx (heq ▸ List.mem_of_getElem? ha)
        have hxb : x ≠ b := fun heq => hx (heq ▸ List.mem_of_getElem? hb)
        rw [hindex, if_neg hxa, if_neg hxb]

theorem bubbleUp_rearranged (fuel : ℕ) (hi : Indexed h) (i : ℕ) : Rearranged h (h.bubbleUp less fuel i) := by
  induction fuel generalizing h i with
  | zero => exact Rearranged.refl hi
  | succ fuel ih =>
    rw [Heap.bubbleUp]
    split_ifs
    · exact Rearranged.refl hi
    · have hswap := swap_rearranged hi ((i - 1) / 2) i
      dsimp only
      split_ifs
      · exact hswap.trans (ih hswap.indexed _)
      · exact Rearranged.refl hi

theorem bubbleDown_rearranged (fuel : ℕ) (hi : Indexed h) (i : ℕ) : Rearranged h (h.bubbleDown less fuel i) := by
  induction fuel generalizing h i with
  | zero => exact Rearranged.refl hi
  | succ fuel ih =>
    rw [Heap.bubbleDown]
    dsimp only
    by_cases hleft : i * 2 + 1 ≥ h.v.length
    · rw [if_pos hleft]
      exact Rearranged.refl hi
    · rw [if_neg hleft]
      generalize (if i * 2 + 2 ≥ h.v.length then i * 2 + 1 else if h.comp less (i * 2 + 1) (i * 2 + 2) then i * 2 + 1 else i * 2 + 2) = smaller
      have hswap := swap_rearranged hi smaller i
      split_ifs
      · exact hswap.trans (ih hswap.indexed _)
      · exact Rearranged.refl hi

/-! ## What the operations do -/

theorem push_spec (hi : Indexed h) (he : e ∉ h.v) :
    Indexed (h.push less e) ∧ (∀ x, x ∈ (h.push less e).v ↔ x ∈ h.v ∨ x = e) ∧
      ∀ x, x ∉ h.v → x ≠ e → (h.push less e).index x = h.index x := by
  have hend : Indexed ({ h with v := h.v ++ [e] }.setIndex e h.v.length) := by
    intro m x hx
    dsimp only [Heap.setIndex] at hx ⊢
    rw [List.getElem?_append] at hx
    by_cases hm : m < h.v.length
    · rw [if_pos hm] at hx
      have hne : x ≠ e := fun heq => he (heq ▸ List.mem_of_getElem? hx)
      rw [Function.update_of_ne hne]
      exact hi m x hx
    · rw [if_neg hm, List.getElem?_singleton] at hx
      split_ifs at hx with h0
      obtain rfl := Option.some.inj hx
      rw [Function.update_self]
      omega
  obtain ⟨hindexed, hmem, hframe⟩ := bubbleUp_rearranged less h.v.length hend h.v.length
  refine ⟨hindexed, fun x => (hmem x).trans (by simp [Heap.setIndex]), fun x hx hne => ?_⟩
  refine (hframe x (by simp [Heap.setIndex, hx, hne])).trans ?_
  exact Function.update_of_ne hne _ _

theorem cut_eq {k : ℕ} (i : ℕ) {last : α} (hk : h.v[k]? = some e) (hlast : h.v[h.v.length - 1]? = some last) :
    h.cut k i = { (h.swap k (h.v.length - 1)).setIndex e i with v := (h.swap k (h.v.length - 1)).v.dropLast } ∧
      (h.swap k (h.v.length - 1)).v.length = h.v.length := by
  have hlen : (h.swap k (h.v.length - 1)).v.length = h.v.length := by
    simp only [Heap.swap, hk, hlast, Heap.setIndex, List.length_set]
  have hend : (h.swap k (h.v.length - 1)).v[(h.swap k (h.v.length - 1)).v.length - 1]? = some e := by
    rw [hlen, (swap_eq hk hlast).1, if_pos rfl]
  refine ⟨?_, hlen⟩
  unfold Heap.cut
  dsimp only
  rw [hend]
  rfl

/-- the last element takes the place that an element leaves -/
theorem cut_at {k : ℕ} (i : ℕ) (hk : h.v[k]? = some e) : (h.cut k i).v.length = h.v.length - 1 ∧
    ∀ m < h.v.length - 1, (h.cut k i).v[m]? = if m = k then h.v[h.v.length - 1]? else h.v[m]? := by
  have hkl : k < h.v.length := (List.getElem?_eq_some_iff.mp hk).1
  obtain ⟨last, hlast⟩ : ∃ last, h.v[h.v.length - 1]? = some last := ⟨_, List.getElem?_eq_getElem (by omega)⟩
  obtain ⟨hcut, hlen⟩ := cut_eq i hk hlast
  rw [hcut]
  refine ⟨by simp [hlen], fun m hm => ?_⟩
  dsimp only
  rw [List.getElem?_dropLast, hlen, if_pos hm, (swap_eq hk hlast).1, if_neg (by omega), hlast]

/-- an element goes from its place, whatever its index says -/
theorem cut_spec {k : ℕ} (i : ℕ) (hnodup : h.v.Nodup) (hk : h.v[k]? = some e)
    (hi : ∀ m x, m ≠ k → h.v[m]? = some x → h.index x = m) :
    Indexed (h.cut k i) ∧ (∀ x, x ∈ (h.cut k i).v ↔ x ∈ h.v ∧ x ≠ e) ∧ (h.cut k i).index e = i ∧
      ∀ x, x ∉ h.v → (h.cut k i).index x = h.index x := by
  have hkl : k < h.v.length := (List.getElem?_eq_some_iff.mp hk).1
  obtain ⟨last, hlast⟩ : ∃ last, h.v[h.v.length - 1]? = some last := ⟨_, List.getElem?_eq_getElem (by omega)⟩
  have hplace : ∀ {m m' : ℕ} {x : α}, h.v[m]? = some x → h.v[m']? = some x → m = m' := fun {m m' x} hm hm' =>
    (List.getElem?_inj (List.getElem?_eq_some_iff.mp hm).1 hnodup).mp (hm.trans hm'.symm)
  obtain ⟨hv, hindex⟩ := swap_eq hk hlast
  obtain ⟨hcut, hlen⟩ := cut_eq i hk hlast
  have hat : ∀ m, (h.cut k i).v[m]? = if m < h.v.length - 1 then if m = k then some last else h.v[m]? else none := by
    intro m
    rw [hcut]
    dsimp only
    rw [List.getElem?_dropLast, hlen, hv]
    by_cases hm : m < h.v.length - 1
    · rw [if_pos hm, if_pos hm, if_neg (by omega)]
    · rw [if_neg hm, if_neg hm]
  have hcutIndex : ∀ x, (h.cut k i).index x = if x = e then i else if x = last then k else h.index x := by
    intro x
    rw [hcut]
    dsimp only [Heap.setIndex]
    rw [Function.update_apply, hindex]
    split_ifs <;> rfl
  refine ⟨fun m x hx => ?_, fun x => ?_, by rw [hcutIndex, if_pos rfl], fun x hx => ?_⟩
  · rw [hat] at hx
    split_ifs at hx with hm hmk
    · obtain rfl := Option.some.inj hx
      have hne : last ≠ e := fun heq => absurd (hplace hlast (heq ▸ hk)) (by omega)
      rw [hcutIndex, if_neg hne, if_pos rfl, hmk]
    · have hne : x ≠ e := fun heq => hmk (hplace hx (heq ▸ hk))
      have hne' : x ≠ last := fun heq => absurd (hplace hx (heq ▸ hlast)) (by omega)
      rw [hcutIndex, if_neg hne, if_neg hne', hi m x hmk hx]
  · rw [List.mem_iff_getElem?, List.mem_iff_getElem?]
    constructor
    · rintro ⟨m, hm⟩
      rw [hat] at hm
      split_ifs at hm with hlt hmk
      · obtain rfl := Option.some.inj hm
        exact ⟨⟨_, hlast⟩, fun heq => absurd (hplace hlast (heq ▸ hk)) (by omega)⟩
      · exact ⟨⟨m, hm⟩, fun heq => hmk (hplace hm (heq ▸ hk))⟩
    · rintro ⟨⟨m, hm⟩, hne⟩
      have hml : m < h.v.length := (List.getElem?_eq_some_iff.mp hm).1
      have hmk : m ≠ k := by
        rintro rfl
        exact hne (Option.some.inj (hm.symm.trans hk))
      by_cases hmlast : m = h.v.length - 1
      · refine ⟨k, ?_⟩
        rw [hat, if_pos (by omega), if_pos rfl, ← hlast, ← hm, hmlast]
      · exact ⟨m, by rw [hat, if_pos (by omega), if_neg hmk, hm]⟩
  · have hne : x ≠ e := fun heq => hx (heq ▸ List.mem_of_getElem? hk)
    have hne' : x ≠ last := fun heq => hx (heq ▸ List.mem_of_getElem? hlast)
    rw [hcutIndex, if_neg hne, if_neg hne']

theorem erase_spec (hi : Indexed h) (e : α) :
    Indexed (h.erase less e) ∧ (∀ x, x ∈ (h.erase less e).v ↔ x ∈ h.v ∧ x ≠ e) ∧
      ∀ x, x ∉ h.v → (h.erase less e).index x = h.index x := by
  unfold Heap.erase
  dsimp only
  by_cases hk : h.v[h.index e]? = some e
  · rw [if_neg (not_not.mpr hk)]
    by_cases hlast : h.index e = h.v.length - 1
    · rw [if_neg (not_not.mpr hlast)]
      have hat : ∀ m : ℕ, h.v.dropLast[m]? = if m < h.v.length - 1 then h.v[m]? else none := fun m => List.getElem?_dropLast
      refine ⟨fun m x hx => ?_, fun x => ?_, fun x _ => rfl⟩
      · dsimp only at hx
        rw [hat] at hx
        split_ifs at hx
        exact hi m x hx
      · dsimp only
        rw [List.mem_iff_getElem?, List.mem_iff_getElem?]
        constructor
        · rintro ⟨m, hm⟩
          rw [hat] at hm
          split_ifs at hm with hlt
          refine ⟨⟨m, hm⟩, fun heq => ?_⟩
          have hm' : h.index x = m := hi m x hm
          rw [heq] at hm'
          omega
        · rintro ⟨⟨m, hm⟩, hne⟩
          have hml : m < h.v.length := (List.getElem?_eq_some_iff.mp hm).1
          have hmne : m ≠ h.v.length - 1 := by
            rintro rfl
            rw [← hlast] at hm
            exact hne (Option.some.inj (hm.symm.trans hk))
          exact ⟨m, by rw [hat, if_pos (by omega), hm]⟩
    · rw [if_pos hlast]
      obtain ⟨hcut, hmem, -, hframe⟩ := cut_spec (h.index e) hi.nodup hk fun m x _ hx => hi m x hx
      have hdown := bubbleDown_rearranged less (h.cut (h.index e) (h.index e)).v.length hcut (h.index e)
      have hup := hdown.trans (bubbleUp_rearranged less (h.index e) hdown.indexed (h.index e))
      refine ⟨hup.indexed, fun x => (hup.mem x).trans (hmem x), fun x hx => ?_⟩
      exact (hup.frame x fun hc => hx ((hmem x).mp hc).1).trans (hframe x hx)
  · rw [if_pos hk]
    refine ⟨hi, fun x => ⟨fun hx => ⟨hx, ?_⟩, And.left⟩, fun x _ => rfl⟩
    rintro rfl
    obtain ⟨m, hm⟩ := List.mem_iff_getElem?.mp hx
    exact hk (by rw [hi m x hm, hm])

/-- the first element may say that it is elsewhere, and goes on saying so -/
theorem pop_spec {l : List α} (hv : h.v = e :: l) (hnodup : h.v.Nodup) (hi : ∀ m x, m ≠ 0 → h.v[m]? = some x → h.index x = m) :
    Indexed (h.pop less) ∧ (∀ x, x ∈ (h.pop less).v ↔ x ∈ l) ∧ (h.pop less).index e = h.index e ∧
      ∀ x, x ∉ h.v → (h.pop less).index x = h.index x := by
  have hpop : h.pop less = (h.cut 0 (h.index e)).bubbleDown less l.length 0 := by
    unfold Heap.pop
    rw [hv]
  obtain ⟨hcut, hmem, he, hframe⟩ := cut_spec (h.index e) hnodup (by rw [hv]; rfl) hi
  have hdown := bubbleDown_rearranged less l.length hcut 0
  have hgone : e ∉ (h.cut 0 (h.index e)).v := fun hc => ((hmem e).mp hc).2 rfl
  rw [hpop]
  refine ⟨hdown.indexed, fun x => (hdown.mem x).trans ((hmem x).trans ?_), (hdown.frame e hgone).trans he, fun x hx => ?_⟩
  · rw [hv] at hnodup ⊢
    refine ⟨fun hx => (List.mem_cons.mp hx.1).resolve_left hx.2, fun hx => ⟨List.mem_cons_of_mem e hx, ?_⟩⟩
    rintro rfl
    exact (List.nodup_cons.mp hnodup).1 hx
  · exact (hdown.frame x fun hc => hx ((hmem x).mp hc).1).trans (hframe x hx)

theorem update_spec (hi : Indexed h) (e : α) : Rearranged h (h.update less e) := bubbleDown_rearranged less h.v.length hi (h.index e)

end Rearrange

end TrafficServer.IndexedHeap
