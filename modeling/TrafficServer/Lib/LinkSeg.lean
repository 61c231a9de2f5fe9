/-
Linked lists threaded through a table of cells, as predicates on the link functions.

`next : α → Option α` is the successor link of a cell and `none` the null link. `LSeg next o l m` says that following
`next` from the pointer `o` visits exactly the cells `l`, in order, and stops at the pointer `m`; with `m = none` it is a
whole list. `DSeg next prev p o l q m` is the same for a doubly linked list: in addition the back link of the first cell
is `p` and `q` is the back link that a cell following `l` must carry.

The lists are the abstract value. The rules are the usual ones of list segments: a segment depends only on the links of
its own cells (`LSeg.congr`), splits at any point (`lseg_append`), determines its cells (`LSeg.unique`) and, when it ends
in the null link, has no repeated cell (`LSeg.nodup`), so a whole list is never cyclic.
-/
import Mathlib.Tactic
import Mathlib.Data.List.Nodup

namespace TrafficServer.LinkSeg

variable {α : Type} {next next' prev prev' : α → Option α} {o m p q : Option α} {l l' : List α}

/-! ## Singly linked segments -/

/-- following `next` from `o` visits `l` and stops at `m` -/
def LSeg (next : α → Option α) : Option α → List α → Option α → Prop
  | o, [], m => o = m
  | o, a :: l, m => o = some a ∧ LSeg next (next a) l m

@[simp] theorem lseg_nil : LSeg next o [] m ↔ o = m := Iff.rfl

@[simp] theorem lseg_cons {a : α} : LSeg next o (a :: l) m ↔ o = some a ∧ LSeg next (next a) l m := Iff.rfl

theorem lseg_append : LSeg next o (l ++ l') m ↔ ∃ k, LSeg next o l k ∧ LSeg next k l' m := by
  induction l generalizing o with
  | nil => simp
  | cons a l ih => simp [ih, and_assoc]

/-- a segment depends only on the links of its own cells -/
theorem LSeg.congr (h : LSeg next o l m) (hn : ∀ a ∈ l, next' a = next a) : LSeg next' o l m := by
  induction l generalizing o with
  | nil => exact h
  | cons a l ih =>
    refine ⟨h.1, ?_⟩
    rw [hn a List.mem_cons_self]
    exact ih h.2 fun b hb => hn b (List.mem_cons_of_mem _ hb)

/-- the start pointer of a whole list determines its cells -/
theorem LSeg.unique (h : LSeg next o l none) (h' : LSeg next o l' none) : l = l' := by
  induction l generalizing o l' with
  | nil =>
    cases l' with
    | nil => rfl
    | cons b l' => rw [lseg_nil] at h; rw [lseg_cons, h] at h'; simp at h'
  | cons a l ih =>
    cases l' with
    | nil => rw [lseg_nil] at h'; rw [lseg_cons, h'] at h; simp at h
    | cons b l' =>
      obtain ⟨h1, h2⟩ := h
      obtain ⟨h1', h2'⟩ := h'
      obtain rfl : a = b := Option.some.inj (h1.symm.trans h1')
      rw [ih h2 h2']

/-- the suffix of a whole list from any of its cells is the list that starts there -/
theorem LSeg.suffix {a : α} {l₁ l₂ : List α} (h : LSeg next o (l₁ ++ a :: l₂) none) : LSeg next (next a) l₂ none := by
  obtain ⟨k, -, h2⟩ := lseg_append.1 h
  exact h2.2

/-- a list that ends in the null link is not cyclic -/
theorem LSeg.nodup (h : LSeg next o l none) : l.Nodup := by
  induction l generalizing o with
  | nil => exact List.nodup_nil
  | cons a l ih =>
    refine List.nodup_cons.2 ⟨fun ha => ?_, ih h.2⟩
    -- a second visit of `a` would make the list from `a` equal to a proper suffix of itself
    obtain ⟨l₁, l₂, rfl⟩ := List.append_of_mem ha
    have hs : l₁ ++ a :: l₂ = l₂ := LSeg.unique h.2 (LSeg.suffix h.2)
    have := congrArg List.length hs
    simp only [List.length_append, List.length_cons] at this
    omega

theorem LSeg.head (h : LSeg next o l none) : o = l.head? := by
  cases l with
  | nil => exact h
  | cons a l => exact h.1

/-- replacing the end pointer: the link of the last cell is redirected to `k`, everything else is kept -/
theorem LSeg.redirect {a : α} {l₁ : List α} (h : LSeg next o (l₁ ++ [a]) m) (hn : ∀ b ∈ l₁, next' b = next b)
    (ha : next' a = q) : LSeg next' o (l₁ ++ [a]) q := by
  obtain ⟨k, h1, h2, -⟩ := lseg_append.1 h
  exact lseg_append.2 ⟨k, h1.congr hn, h2, ha⟩

/-! ## Doubly linked segments -/

/-- a doubly linked segment: `p` is the back link of its first cell and `q` the one a following cell must carry -/
def DSeg (next prev : α → Option α) : Option α → Option α → List α → Option α → Option α → Prop
  | p, o, [], q, m => o = m ∧ p = q
  | p, o, a :: l, q, m => o = some a ∧ prev a = p ∧ DSeg next prev (some a) (next a) l q m

@[simp] theorem dseg_nil : DSeg next prev p o [] q m ↔ o = m ∧ p = q := Iff.rfl

@[simp] theorem dseg_cons {a : α} :
    DSeg next prev p o (a :: l) q m ↔ o = some a ∧ prev a = p ∧ DSeg next prev (some a) (next a) l q m := Iff.rfl

theorem dseg_append : DSeg next prev p o (l ++ l') q m ↔
    ∃ r k, DSeg next prev p o l r k ∧ DSeg next prev r k l' q m := by
  induction l generalizing o p with
  | nil =>
    constructor
    · intro h; exact ⟨p, o, ⟨rfl, rfl⟩, h⟩
    · rintro ⟨r, k, ⟨rfl, rfl⟩, h⟩; exact h
  | cons a l ih => simp [ih, and_assoc]

theorem DSeg.lseg (h : DSeg next prev p o l q m) : LSeg next o l m := by
  induction l generalizing o p with
  | nil => exact h.1
  | cons a l ih => exact ⟨h.1, ih h.2.2⟩

theorem DSeg.congr (h : DSeg next prev p o l q m) (hn : ∀ a ∈ l, next' a = next a) (hp : ∀ a ∈ l, prev' a = prev a) :
    DSeg next' prev' p o l q m := by
  induction l generalizing o p with
  | nil => exact h
  | cons a l ih =>
    refine ⟨h.1, (hp a List.mem_cons_self).trans h.2.1, ?_⟩
    rw [hn a List.mem_cons_self]
    exact ih h.2.2 (fun b hb => hn b (List.mem_cons_of_mem _ hb)) fun b hb => hp b (List.mem_cons_of_mem _ hb)

/-- the back link carried past a non-empty segment is its last cell -/
theorem DSeg.last {a : α} {l₁ : List α} (h : DSeg next prev p o (l₁ ++ [a]) q m) : q = some a := by
  obtain ⟨r, k, -, -, -, -, rfl⟩ := dseg_append.1 h
  rfl

/-- putting a new cell in front: its forward link is the old head, the old head's back link is the new cell -/
theorem DSeg.push {a : α} (h : DSeg next prev none o l q none) (ha : a ∉ l) (hna : next' a = o) (hpa : prev' a = none)
    (hn : ∀ b ∈ l, next' b = next b) (hhead : ∀ b, o = some b → prev' b = some a)
    (hp : ∀ b ∈ l, o ≠ some b → prev' b = prev b) : ∃ q', DSeg next' prev' none (some a) (a :: l) q' none := by
  have hnd := h.lseg.nodup
  cases l with
  | nil =>
    obtain ⟨rfl, -⟩ := h
    exact ⟨some a, rfl, hpa, hna, rfl⟩
  | cons b l =>
    obtain ⟨rfl, -, h2⟩ := h
    refine ⟨q, rfl, hpa, hna, hhead b rfl, ?_⟩
    rw [hn b List.mem_cons_self]
    have hb := (List.nodup_cons.1 hnd).1
    exact h2.congr (fun c hc => hn c (List.mem_cons_of_mem _ hc)) fun c hc =>
      hp c (List.mem_cons_of_mem _ hc) fun hbc => hb (Option.some.inj hbc ▸ hc)

/-- Unlinking a cell from a doubly linked list. The cell before `a` (or the head pointer) takes `a`'s forward link, the
cell after `a` takes `a`'s back link, and no other link of the list changes. -/
theorem DSeg.unlink [DecidableEq α] {a : α} {l₁ l₂ : List α} (h : DSeg next prev none o (l₁ ++ a :: l₂) q none)
    (hn : ∀ b ∈ l₁ ++ l₂, next' b = if prev a = some b then next a else next b)
    (hp : ∀ b ∈ l₁ ++ l₂, prev' b = if next a = some b then prev a else prev b) :
    ∃ q', DSeg next' prev' none (if prev a = none then next a else o) (l₁ ++ l₂) q' none := by
  have hnd : (l₁ ++ a :: l₂).Nodup := h.lseg.nodup
  rw [List.nodup_append] at hnd
  obtain ⟨hnd₁, hnd₂, hdis⟩ := hnd
  obtain ⟨ha₂, hnd₂⟩ := List.nodup_cons.1 hnd₂
  obtain ⟨r, k, h1, rfl, rfl, h2⟩ := dseg_append.1 h
  -- the list after `a`, with its first back link redirected
  have htail : ∃ q', DSeg next' prev' (prev a) (next a) l₂ q' none := by
    cases l₂ with
    | nil => exact ⟨prev a, h2.1, rfl⟩
    | cons c l₂ =>
      obtain ⟨hc, -, h3⟩ := h2
      have hcl := (List.nodup_cons.1 hnd₂).1
      have hnot : ∀ b ∈ c :: l₂, prev a ≠ some b := by
        intro b hb hab
        rcases List.eq_nil_or_concat' l₁ with rfl | ⟨l₀, d, rfl⟩
        · rw [dseg_nil] at h1; rw [← h1.2] at hab; simp at hab
        · rw [h1.last] at hab
          exact hdis d (by simp) b (List.mem_cons_of_mem _ hb) (Option.some.inj hab)
      refine ⟨q, hc, by rw [hp c (by simp), if_pos hc], ?_⟩
      rw [hn c (by simp), if_neg (hnot c List.mem_cons_self)]
      refine h3.congr (fun b hb => ?_) fun b hb => ?_
      · rw [hn b (by simp [hb]), if_neg (hnot b (List.mem_cons_of_mem _ hb))]
      · rw [hp b (by simp [hb]), if_neg]
        rw [hc]
        intro hcb
        exact hcl (Option.some.inj hcb ▸ hb)
  obtain ⟨q', htail⟩ := htail
  refine ⟨q', dseg_append.2 ?_⟩
  -- the back links before `a` are kept, and only the last forward link changes
  have hprev : ∀ b ∈ l₁, prev' b = prev b := by
    intro b hb
    rw [hp b (by simp [hb]), if_neg]
    intro hab
    cases l₂ with
    | nil => rw [h2.1] at hab; simp at hab
    | cons c l₂ =>
      rw [h2.1] at hab
      exact hdis b hb c (by simp) (Option.some.inj hab).symm
  rcases List.eq_nil_or_concat' l₁ with rfl | ⟨l₀, d, rfl⟩
  · obtain ⟨-, h0⟩ := h1
    rw [if_pos h0.symm]
    exact ⟨prev a, next a, ⟨rfl, h0⟩, htail⟩
  · have hd : prev a = some d := h1.last
    rw [if_neg (by rw [hd]; simp)]
    refine ⟨prev a, next a, ?_, htail⟩
    obtain ⟨r, k, h3, rfl, rfl, -, -⟩ := dseg_append.1 h1
    have hd₀ : d ∉ l₀ := by
      rw [List.nodup_append] at hnd₁
      exact fun hdl => hnd₁.2.2 d hdl d (by simp) rfl
    refine dseg_append.2 ⟨prev d, some d, h3.congr (fun b hb => ?_) fun b hb => hprev b (by simp [hb]), rfl,
      hprev d (by simp), ?_, hd.symm⟩
    · rw [hn b (by simp [hb]), if_neg]
      rw [hd]
      intro hdb
      exact hd₀ (Option.some.inj hdb ▸ hb)
    · rw [hn d (by simp), if_pos hd]

end TrafficServer.LinkSeg
