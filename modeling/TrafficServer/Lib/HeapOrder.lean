/-
The order of a heap: no element is less than its parent.

A sift starts from a heap that is ordered but for one place. `UpOrder` allows the element there to be less than its parent, `DownOrder`
lets its children be less than it, `Except` both; in each the children are not less than the parent of the place. A swap with the parent,
or with the smaller child, moves the place and keeps the condition. The results are `push_ordered`, `erase_ordered`, `pop_ordered` and
`update_ordered`, for any relation that is asymmetric and negatively transitive. An order that has changed in one element is that of a heap
but for its place (`Ordered.exceptAt`).
-/
import TrafficServer.Lib.IndexedHeap

namespace TrafficServer.IndexedHeap

variable {α : Type*} {h : Heap α} {e : α} {less : α → α → Bool}

/-- no element is less than its parent -/
def Ordered (less : α → α → Bool) (h : Heap α) : Prop := ∀ i, 0 < i → h.comp less i ((i - 1) / 2) = false

/-- a strict order in which being incomparable is transitive -/
structure Weak (less : α → α → Bool) : Prop where
  asymm : ∀ a b, less a b = true → less b a = false
  trans : ∀ a b c, less a b = false → less b c = false → less a c = false

section Comparisons

theorem comp_some {i j : ℕ} {a b : α} (ha : h.v[i]? = some a) (hb : h.v[j]? = some b) : h.comp less i j = less a b := by
  simp [Heap.comp, ha, hb]

theorem comp_of_length_le {i j : ℕ} (hi : h.v.length ≤ i ∨ h.v.length ≤ j) : h.comp less i j = false := by
  unfold Heap.comp
  rcases hi with hi | hi
  · rw [List.getElem?_eq_none hi]
  · rw [List.getElem?_eq_none hi]
    split <;> simp_all

theorem lt_of_comp {i j : ℕ} (hc : h.comp less i j = true) : i < h.v.length ∧ j < h.v.length := by
  by_contra hn
  rw [comp_of_length_le (by omega)] at hc
  cases hc

theorem comp_congr {h' : Heap α} {i j i' j' : ℕ} (hi : h'.v[i]? = h.v[i']?) (hj : h'.v[j]? = h.v[j']?) :
    h'.comp less i j = h.comp less i' j' := by
  unfold Heap.comp
  rw [hi, hj]

variable (hw : Weak less)

include hw

theorem Weak.comp_asymm {i j : ℕ} (hc : h.comp less i j = true) : h.comp less j i = false := by
  obtain ⟨hi, hj⟩ := lt_of_comp hc
  rw [comp_some (List.getElem?_eq_getElem hi) (List.getElem?_eq_getElem hj)] at hc
  rw [comp_some (List.getElem?_eq_getElem hj) (List.getElem?_eq_getElem hi)]
  exact hw.asymm _ _ hc

theorem Weak.comp_trans {i j k : ℕ} (hj : j < h.v.length) (h₁ : h.comp less i j = false) (h₂ : h.comp less j k = false) :
    h.comp less i k = false := by
  by_cases hi : i < h.v.length
  · by_cases hk : k < h.v.length
    · rw [comp_some (List.getElem?_eq_getElem hi) (List.getElem?_eq_getElem hj)] at h₁
      rw [comp_some (List.getElem?_eq_getElem hj) (List.getElem?_eq_getElem hk)] at h₂
      rw [comp_some (List.getElem?_eq_getElem hi) (List.getElem?_eq_getElem hk)]
      exact hw.trans _ _ _ h₁ h₂
    · exact comp_of_length_le (Or.inr (not_lt.mp hk))
  · exact comp_of_length_le (Or.inl (not_lt.mp hi))

end Comparisons

/-! ## Ordered but for one place -/

/-- the children of place `k` are not less than its parent -/
def Grand (less : α → α → Bool) (h : Heap α) (k : ℕ) : Prop :=
  0 < k → ∀ c, 0 < c → (c - 1) / 2 = k → h.comp less c ((k - 1) / 2) = false

/-- the element at `k` may be less than its parent -/
structure UpOrder (less : α → α → Bool) (h : Heap α) (k : ℕ) : Prop where
  off : ∀ i, 0 < i → i ≠ k → h.comp less i ((i - 1) / 2) = false
  grand : Grand less h k

/-- the children of `k` may be less than the element there -/
structure DownOrder (less : α → α → Bool) (h : Heap α) (k : ℕ) : Prop where
  off : ∀ i, 0 < i → (i - 1) / 2 ≠ k → h.comp less i ((i - 1) / 2) = false
  grand : Grand less h k

/-- the element at `k` may be anything -/
structure Except (less : α → α → Bool) (h : Heap α) (k : ℕ) : Prop where
  off : ∀ i, 0 < i → i ≠ k → (i - 1) / 2 ≠ k → h.comp less i ((i - 1) / 2) = false
  grand : Grand less h k

theorem Ordered.upOrder (ho : Ordered less h) (hw : Weak less) (k : ℕ) : UpOrder less h k := by
  refine ⟨fun i hi _ => ho i hi, fun hk c hc hck => ?_⟩
  by_cases hkl : k < h.v.length
  · have hchild := ho c hc
    rw [hck] at hchild
    exact hw.comp_trans hkl hchild (ho k hk)
  · exact comp_of_length_le (Or.inl (by omega))

theorem Ordered.except (ho : Ordered less h) (hw : Weak less) (k : ℕ) : Except less h k :=
  ⟨fun i hi _ _ => ho i hi, (ho.upOrder hw k).grand⟩

theorem DownOrder.except {k : ℕ} (hd : DownOrder less h k) : Except less h k :=
  ⟨fun i hi _ hpar => hd.off i hi hpar, hd.grand⟩

theorem Except.downOrder {k : ℕ} (hx : Except less h k) (hup : 0 < k → h.comp less k ((k - 1) / 2) = false) : DownOrder less h k := by
  refine ⟨fun i hi hpar => ?_, hx.grand⟩
  by_cases hik : i = k
  · rw [hik]
    exact hup (hik ▸ hi)
  · exact hx.off i hi hik hpar

/-- the smaller of the two children of a place, as the sift picks it -/
theorem smaller_spec (h : Heap α) (hw : Weak less) (k : ℕ) : ∃ s, 0 < s ∧ (s - 1) / 2 = k ∧
    (if k * 2 + 2 ≥ h.v.length then k * 2 + 1 else if h.comp less (k * 2 + 1) (k * 2 + 2) then k * 2 + 1 else k * 2 + 2) = s ∧
    ∀ i, 0 < i → (i - 1) / 2 = k → h.comp less i s = false := by
  have hirr : ∀ i, h.comp less i i = false := by
    intro i
    by_contra hn
    have ht : h.comp less i i = true := by simpa using hn
    rw [hw.comp_asymm ht] at ht
    cases ht
  split_ifs with hright hcomp
  · refine ⟨k * 2 + 1, by omega, by omega, rfl, fun i hi hik => ?_⟩
    obtain rfl | rfl : i = k * 2 + 1 ∨ i = k * 2 + 2 := by omega
    · exact hirr _
    · exact comp_of_length_le (Or.inl hright)
  · refine ⟨k * 2 + 1, by omega, by omega, rfl, fun i hi hik => ?_⟩
    obtain rfl | rfl : i = k * 2 + 1 ∨ i = k * 2 + 2 := by omega
    · exact hirr _
    · exact hw.comp_asymm hcomp
  · refine ⟨k * 2 + 2, by omega, by omega, rfl, fun i hi hik => ?_⟩
    obtain rfl | rfl : i = k * 2 + 1 ∨ i = k * 2 + 2 := by omega
    · simpa using hcomp
    · exact hirr _

section Sifts

variable [DecidableEq α]

theorem swap_v {i j : ℕ} (hi : i < h.v.length) (hj : j < h.v.length) (m : ℕ) :
    (h.swap i j).v[m]? = if m = j then h.v[i]? else if m = i then h.v[j]? else h.v[m]? := by
  rw [List.getElem?_eq_getElem hi, List.getElem?_eq_getElem hj]
  exact (swap_eq (List.getElem?_eq_getElem hi) (List.getElem?_eq_getElem hj)).1 m

theorem swap_length (i j : ℕ) : (h.swap i j).v.length = h.v.length := by
  unfold Heap.swap
  split <;> simp [Heap.setIndex]

theorem UpOrder.swap (hw : Weak less) {k : ℕ} (hu : UpOrder less h k) (hk : k ≠ 0) (hc : h.comp less k ((k - 1) / 2) = true) :
    UpOrder less (h.swap ((k - 1) / 2) k) ((k - 1) / 2) := by
  obtain ⟨hkl, hpl⟩ := lt_of_comp hc
  generalize hp : (k - 1) / 2 = p at hc hpl ⊢
  have hv := fun m => swap_v hpl hkl m
  have hpk : p ≠ k := by omega
  have hback := hw.comp_asymm hc
  have hother : ∀ {m : ℕ}, m ≠ k → m ≠ p → (h.swap p k).v[m]? = h.v[m]? := fun hm hm' => by rw [hv, if_neg hm, if_neg hm']
  have hatk : (h.swap p k).v[k]? = h.v[p]? := by rw [hv, if_pos rfl]
  have hatp : (h.swap p k).v[p]? = h.v[k]? := by rw [hv, if_neg hpk, if_pos rfl]
  -- a sibling of `k` is not less than the old parent, hence not less than `k`
  have hsib : ∀ i, 0 < i → i ≠ k → (i - 1) / 2 = p → h.comp less i p = false := by
    intro i hi hik hip
    have := hu.off i hi hik
    rwa [hip] at this
  refine ⟨fun i hi hip => ?_, fun hp0 c hc0 hcp => ?_⟩
  · by_cases hik : i = k
    · subst hik
      rw [hp, comp_congr hatk hatp]
      exact hback
    · by_cases hpar : (i - 1) / 2 = k
      · rw [hpar, comp_congr (hother hik hip) hatk, ← hp]
        exact hu.grand (by omega) i hi hpar
      · by_cases hpar' : (i - 1) / 2 = p
        · rw [hpar', comp_congr (hother hik hip) hatp]
          exact hw.comp_trans hpl (hsib i hi hik hpar') hback
        · rw [comp_congr (hother hik hip) (hother hpar hpar')]
          exact hu.off i hi hik
  · have hpp : (h.swap p k).v[(p - 1) / 2]? = h.v[(p - 1) / 2]? := hother (by omega) (by omega)
    have hup : h.comp less p ((p - 1) / 2) = false := hu.off p hp0 hpk
    by_cases hck : c = k
    · rw [hck, comp_congr hatk hpp]
      exact hup
    · rw [comp_congr (hother hck (by omega)) hpp]
      exact hw.comp_trans hpl (hsib c hc0 hck hcp) hup

theorem bubbleUp_ordered (hw : Weak less) (fuel : ℕ) {k : ℕ} (hu : UpOrder less h k) (hk : k ≤ fuel) :
    Ordered less (h.bubbleUp less fuel k) := by
  induction fuel generalizing h k with
  | zero =>
    obtain rfl : k = 0 := Nat.le_zero.mp hk
    exact fun i hi => hu.off i hi (by omega)
  | succ fuel ih =>
    rw [Heap.bubbleUp]
    split_ifs with hk0
    · subst hk0
      exact fun i hi => hu.off i hi (by omega)
    · dsimp only
      split_ifs with hc
      · exact ih (hu.swap hw hk0 hc) (by omega)
      · intro i hi
        by_cases hik : i = k
        · rw [hik]
          simpa using hc
        · exact hu.off i hi hik

/-- the smaller child moves up: below it only its own children may be out of order -/
theorem Except.swap (hw : Weak less) {k s : ℕ} (hx : Except less h k) (hs : 0 < s) (hsk : (s - 1) / 2 = k)
    (hc : h.comp less s k = true) (hmin : ∀ i, 0 < i → (i - 1) / 2 = k → h.comp less i s = false) :
    DownOrder less (h.swap s k) s := by
  obtain ⟨hsl, hkl⟩ := lt_of_comp hc
  have hv := fun m => swap_v hsl hkl m
  have hne : s ≠ k := by omega
  have hback := hw.comp_asymm hc
  have hother : ∀ {m : ℕ}, m ≠ k → m ≠ s → (h.swap s k).v[m]? = h.v[m]? := fun hm hm' => by rw [hv, if_neg hm, if_neg hm']
  have hatk : (h.swap s k).v[k]? = h.v[s]? := by rw [hv, if_pos rfl]
  have hats : (h.swap s k).v[s]? = h.v[k]? := by rw [hv, if_neg hne, if_pos rfl]
  refine ⟨fun i hi his => ?_, fun _ c hc0 hcs => ?_⟩
  · by_cases hieq : i = s
    · rw [hieq, hsk, comp_congr hats hatk]
      exact hback
    · by_cases hpar : (i - 1) / 2 = k
      · rw [hpar, comp_congr (hother (by omega) hieq) hatk]
        exact hmin i hi hpar
      · by_cases hik : i = k
        · have hgrand := hx.grand (by omega) s hs hsk
          rw [hik, comp_congr hatk (hother (by omega) (by omega))]
          exact hgrand
        · rw [comp_congr (hother hik hieq) (hother hpar his)]
          exact hx.off i hi hik hpar
  · rw [hsk, comp_congr (hother (by omega) (by omega)) hatk, ← hcs]
    exact hx.off c hc0 (by omega) (by omega)

theorem bubbleDown_ordered (hw : Weak less) (fuel : ℕ) {k : ℕ} (hd : DownOrder less h k) (hf : h.v.length ≤ fuel + k) :
    Ordered less (h.bubbleDown less fuel k) := by
  induction fuel generalizing h k with
  | zero =>
    intro i hi
    rw [Heap.bubbleDown]
    by_cases hpar : (i - 1) / 2 = k
    · exact comp_of_length_le (Or.inl (by omega))
    · exact hd.off i hi hpar
  | succ fuel ih =>
    rw [Heap.bubbleDown]
    dsimp only
    by_cases hleft : k * 2 + 1 ≥ h.v.length
    · rw [if_pos hleft]
      intro i hi
      by_cases hpar : (i - 1) / 2 = k
      · exact comp_of_length_le (Or.inl (by omega))
      · exact hd.off i hi hpar
    · rw [if_neg hleft]
      obtain ⟨s, hs, hsk, heq, hmin⟩ := smaller_spec h hw k
      rw [heq]
      split_ifs with hc
      · exact ih (hd.except.swap hw hs hsk hc hmin) (by rw [swap_length]; omega)
      · intro i hi
        by_cases hpar : (i - 1) / 2 = k
        · have hsl : s < h.v.length := by
            by_contra hn
            split_ifs at heq <;> omega
          rw [hpar]
          exact hw.comp_trans hsl (hmin i hi hpar) (by simpa using hc)
        · exact hd.off i hi hpar

/-- sifting an element down leaves at most the element itself less than its parent -/
theorem bubbleDown_upOrder (hw : Weak less) (fuel : ℕ) {k : ℕ} (hx : Except less h k) (hf : h.v.length ≤ fuel + k) :
    UpOrder less (h.bubbleDown less fuel k) k := by
  cases fuel with
  | zero =>
    rw [Heap.bubbleDown]
    refine ⟨fun i hi hik => ?_, hx.grand⟩
    by_cases hpar : (i - 1) / 2 = k
    · exact comp_of_length_le (Or.inl (by omega))
    · exact hx.off i hi hik hpar
  | succ fuel =>
    rw [Heap.bubbleDown]
    dsimp only
    by_cases hleft : k * 2 + 1 ≥ h.v.length
    · rw [if_pos hleft]
      refine ⟨fun i hi hik => ?_, hx.grand⟩
      by_cases hpar : (i - 1) / 2 = k
      · exact comp_of_length_le (Or.inl (by omega))
      · exact hx.off i hi hik hpar
    · rw [if_neg hleft]
      obtain ⟨s, hs, hsk, heq, hmin⟩ := smaller_spec h hw k
      rw [heq]
      split_ifs with hc
      · have hdown := hx.swap hw hs hsk hc hmin
        exact (bubbleDown_ordered hw fuel hdown (by rw [swap_length]; omega)).upOrder hw k
      · refine ⟨fun i hi hik => ?_, hx.grand⟩
        by_cases hpar : (i - 1) / 2 = k
        · have hsl : s < h.v.length := by
            by_contra hn
            split_ifs at heq <;> omega
          rw [hpar]
          exact hw.comp_trans hsl (hmin i hi hpar) (by simpa using hc)
        · exact hx.off i hi hik hpar

/-! ## The operations -/

theorem push_ordered (hw : Weak less) (ho : Ordered less h) (e : α) : Ordered less (h.push less e) := by
  refine bubbleUp_ordered hw _ ⟨fun i hi hik => ?_, fun _ c hc hck => ?_⟩ le_rfl
  · have hat : ∀ m, m ≠ h.v.length → (h.v ++ [e])[m]? = h.v[m]? ∨ h.v.length < m := by
      intro m hm
      by_cases hlt : m < h.v.length
      · exact Or.inl (List.getElem?_append_left hlt)
      · exact Or.inr (by omega)
    rcases hat i hik with hi' | hi'
    · rcases lt_or_ge i h.v.length with hlt | hge
      · rcases hat ((i - 1) / 2) (by omega) with hp | hp
        · exact (comp_congr (h := h) hi' hp).trans (ho i hi)
        · omega
      · exact comp_of_length_le (Or.inl (by simp [Heap.setIndex]; omega))
    · exact comp_of_length_le (Or.inl (by simp [Heap.setIndex]; omega))
  · exact comp_of_length_le (Or.inl (by simp [Heap.setIndex]; omega))

/-- an element is taken out from a place where it may be anything -/
theorem Except.erase_ordered (hw : Weak less) (hk : h.v[h.index e]? = some e) (hx : Except less h (h.index e)) :
    Ordered less (h.erase less e) := by
  have hkl : h.index e < h.v.length := (List.getElem?_eq_some_iff.mp hk).1
  unfold Heap.erase
  dsimp only
  rw [if_neg (not_not.mpr hk)]
  by_cases hlast : h.index e = h.v.length - 1
  · rw [if_neg (not_not.mpr hlast)]
    intro i hi0
    by_cases hil : i < h.v.length - 1
    · have hat : ∀ m, m < h.v.length - 1 → h.v.dropLast[m]? = h.v[m]? := fun m hm => by
        rw [List.getElem?_dropLast, if_pos hm]
      exact (comp_congr (h := h) (hat i hil) (hat _ (by omega))).trans (hx.off i hi0 (by omega) (by omega))
    · exact comp_of_length_le (Or.inl (by simp; omega))
  · rw [if_pos hlast]
    obtain ⟨hlen, hcut⟩ := cut_at (h.index e) hk
    refine bubbleUp_ordered hw _ (bubbleDown_upOrder hw _ ⟨fun i hi0 hik hpar => ?_, fun hk0 c hc hck => ?_⟩ (by omega)) le_rfl
    · rcases lt_or_ge i (h.v.length - 1) with hil | hil
      · have h1 := hcut i hil
        have h2 := hcut ((i - 1) / 2) (by omega)
        rw [if_neg hik] at h1
        rw [if_neg hpar] at h2
        exact (comp_congr h1 h2).trans (hx.off i hi0 hik hpar)
      · exact comp_of_length_le (Or.inl (by omega))
    · rcases lt_or_ge c (h.v.length - 1) with hcl | hcl
      · have h1 := hcut c hcl
        have h2 := hcut ((h.index e - 1) / 2) (by omega)
        rw [if_neg (by omega)] at h1
        rw [if_neg (by omega)] at h2
        exact (comp_congr h1 h2).trans (hx.grand hk0 c hc hck)
      · exact comp_of_length_le (Or.inl (by omega))

theorem erase_ordered (hw : Weak less) (ho : Ordered less h) (e : α) : Ordered less (h.erase less e) := by
  by_cases hk : h.v[h.index e]? = some e
  · exact (ho.except hw (h.index e)).erase_ordered hw hk
  · unfold Heap.erase
    dsimp only
    rw [if_pos hk]
    exact ho

theorem pop_ordered (hw : Weak less) (ho : Ordered less h) : Ordered less (h.pop less) := by
  unfold Heap.pop
  cases hv : h.v with
  | nil => exact ho
  | cons top rest =>
    obtain ⟨hlen, hcut⟩ := cut_at (h.index top) (show h.v[0]? = some top by rw [hv]; rfl)
    have hrest : h.v.length - 1 = rest.length := by rw [hv]; rfl
    refine bubbleDown_ordered hw _ ⟨fun i hi hpar => ?_, fun hzero => absurd hzero (lt_irrefl 0)⟩ (by omega)
    rcases lt_or_ge i (h.v.length - 1) with hil | hil
    · have h1 := hcut i hil
      have h2 := hcut ((i - 1) / 2) (by omega)
      rw [if_neg (Nat.ne_of_gt hi)] at h1
      rw [if_neg hpar] at h2
      exact (comp_congr h1 h2).trans (ho i hi)
    · exact comp_of_length_le (Or.inl (by omega))

/-- an element that is not less than its parent goes down to its place -/
theorem update_ordered (hw : Weak less) (hd : DownOrder less h (h.index e)) : Ordered less (h.update less e) :=
  bubbleDown_ordered hw _ hd (Nat.le_add_right _ _)

end Sifts

/-! ## Other orders -/

theorem Ordered.congr {h' : Heap α} {less' : α → α → Bool} (ho : Ordered less h) (hv : h'.v = h.v)
    (hless : ∀ a ∈ h.v, ∀ b ∈ h.v, less' a b = less a b) : Ordered less' h' := by
  intro i hi
  have hcomp := ho i hi
  unfold Heap.comp at hcomp ⊢
  rw [hv]
  cases ha : h.v[i]? with
  | none => rfl
  | some a =>
    cases hb : h.v[(i - 1) / 2]? with
    | none => rfl
    | some b =>
      rw [ha, hb] at hcomp
      exact (hless a (List.mem_of_getElem? ha) b (List.mem_of_getElem? hb)).trans hcomp

/-- an order that differs in one element is kept but for its place -/
theorem Ordered.exceptAt {less' : α → α → Bool} (ho : Ordered less h) (hw : Weak less) (hnodup : h.v.Nodup) {k : ℕ}
    (hk : h.v[k]? = some e) (hless : ∀ a b, a ≠ e → b ≠ e → less' a b = less a b) : Except less' h k := by
  have hne : ∀ {i : ℕ} {a : α}, i ≠ k → h.v[i]? = some a → a ≠ e := by
    intro i a hik ha heq
    rw [heq] at ha
    exact hik ((List.getElem?_inj (List.getElem?_eq_some_iff.mp ha).1 hnodup).mp (ha.trans hk.symm))
  have hcomp : ∀ i j, i ≠ k → j ≠ k → h.comp less i j = false → h.comp less' i j = false := by
    intro i j hi hj hcomp
    unfold Heap.comp at hcomp ⊢
    cases ha : h.v[i]? with
    | none => rfl
    | some a =>
      cases hb : h.v[j]? with
      | none => rfl
      | some b =>
        rw [ha, hb] at hcomp
        exact (hless a b (hne hi ha) (hne hj hb)).trans hcomp
  refine ⟨fun i hi hik hpar => hcomp i _ hik hpar (ho i hi), fun hk0 c hc hck => ?_⟩
  exact hcomp c _ (by omega) (by omega) ((ho.upOrder hw k).grand hk0 c hc hck)

/-- nothing is less than the first element -/
theorem Ordered.first (ho : Ordered less h) (hw : Weak less) (i : ℕ) : h.comp less i 0 = false := by
  induction i using Nat.strong_induction_on with
  | _ i ih =>
    by_cases hil : i < h.v.length
    · by_cases hzero : i = 0
      · have hself : h.comp less 0 0 = false := by
          by_contra hcomp
          rw [Bool.not_eq_false] at hcomp
          rw [hw.comp_asymm hcomp] at hcomp
          cases hcomp
        rw [hzero]
        exact hself
      · exact hw.comp_trans (by omega) (ho i (Nat.pos_of_ne_zero hzero)) (ih _ (by omega))
    · exact comp_of_length_le (Or.inl (not_lt.mp hil))

end TrafficServer.IndexedHeap
