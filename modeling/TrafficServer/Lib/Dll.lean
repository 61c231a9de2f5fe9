/-
Intrusive doubly linked lists and queues: the links are fields of the cells, and a list is only a pointer to its first cell, a
queue also one to its last.

`push`, `pop`, `remove` and `insert` write the links one after the other, as code with two pointers in each cell does. A list
has no count and does not know its cells: `push` leaves the back link of the cell it is given as it is, and `remove` takes a
cell that is in no list without noticing. `IsDll` and `IsQueue` say which cells a list has, by the segments of `LinkSeg`. Each
operation has one rule: what it does to the cells, and that it leaves the links of all others alone (`Frame`).
-/
import Mathlib.Tactic
import TrafficServer.Lib.LinkSeg

namespace TrafficServer.Dll

open TrafficServer.LinkSeg

structure Links (α : Type) where
  next : α → Option α
  prev : α → Option α

structure Queue (α : Type) where
  head : Option α
  tail : Option α
deriving DecidableEq

/-- the cells from one on -/
def toList {α : Type} (k : Links α) : ℕ → Option α → List α
  | 0, _ => []
  | _ + 1, none => []
  | fuel + 1, some e => e :: toList k fuel (k.next e)

section Operations

variable {α : Type} [DecidableEq α]

namespace Links

def setNext (k : Links α) (e : α) (o : Option α) : Links α := { k with next := Function.update k.next e o }

def setPrev (k : Links α) (e : α) (o : Option α) : Links α := { k with prev := Function.update k.prev e o }

/-- a write through a pointer that may be null -/
def setNext? (k : Links α) (p o : Option α) : Links α :=
  match p with
  | none => k
  | some e => k.setNext e o

def setPrev? (k : Links α) (p o : Option α) : Links α :=
  match p with
  | none => k
  | some e => k.setPrev e o

/-- the links of a new cell -/
def clear (k : Links α) (e : α) : Links α := (k.setNext e none).setPrev e none

variable {k : Links α} {p o : Option α} {e b : α}

@[simp] theorem setNext_prev : (k.setNext e o).prev = k.prev := rfl

@[simp] theorem setPrev_next : (k.setPrev e o).next = k.next := rfl

theorem setNext_next : (k.setNext e o).next b = if b = e then o else k.next b := Function.update_apply ..

theorem setPrev_prev : (k.setPrev e o).prev b = if b = e then o else k.prev b := Function.update_apply ..

@[simp] theorem setNext?_prev : (k.setNext? p o).prev = k.prev := by
  cases p <;> rfl

@[simp] theorem setPrev?_next : (k.setPrev? p o).next = k.next := by
  cases p <;> rfl

theorem setNext?_next : (k.setNext? p o).next b = if p = some b then o else k.next b := by
  cases p with
  | none => rfl
  | some c => simp only [setNext?, setNext_next, Option.some.injEq, eq_comm]

theorem setPrev?_prev : (k.setPrev? p o).prev b = if p = some b then o else k.prev b := by
  cases p with
  | none => rfl
  | some c => simp only [setPrev?, setPrev_prev, Option.some.injEq, eq_comm]

end Links

/-! ## Operations -/

/-- the links and the head -/
def push (k : Links α) (head : Option α) (e : α) : Links α × Option α := ((k.setPrev? head (some e)).setNext e head, some e)

/-- the links, the head, and the cell that was first -/
def pop (k : Links α) : Option α → Links α × Option α × Option α
  | none => (k, none, none)
  | some e => ((k.setPrev? (k.next e) none).setNext e none, k.next e, some e)

def remove (k : Links α) (head : Option α) (e : α) : Links α × Option α :=
  if head = none then (k, none)
  else
    let head' := if head = some e then k.next e else head
    let k := k.setNext? (k.prev e) (k.next e)
    let k := k.setPrev? (k.next e) (k.prev e)
    ((k.setPrev e none).setNext e none, head')

def insert (k : Links α) (head : Option α) (e : α) : Option α → Links α × Option α
  | none => push k head e
  | some a =>
    let k := (k.setPrev e (some a)).setNext e (k.next a)
    let k := k.setNext a (some e)
    (k.setPrev? (k.next e) (some e), head)

namespace Queue

def push (k : Links α) (q : Queue α) (e : α) : Links α × Queue α :=
  let r := Dll.push k q.head e
  (r.1, ⟨r.2, if q.tail = none then r.2 else q.tail⟩)

def pop (k : Links α) (q : Queue α) : Links α × Queue α × Option α :=
  let r := Dll.pop k q.head
  (r.1, ⟨r.2.1, if r.2.1 = none then none else q.tail⟩, r.2.2)

def insert (k : Links α) (q : Queue α) (e : α) (after : Option α) : Links α × Queue α :=
  let r := Dll.insert k q.head e after
  (r.1, ⟨r.2, if q.tail = none then r.2 else if q.tail = after then some e else q.tail⟩)

def remove (k : Links α) (q : Queue α) (e : α) : Links α × Queue α :=
  let tail := if q.tail = some e then k.prev e else q.tail
  let r := Dll.remove k q.head e
  (r.1, ⟨r.2, tail⟩)

def enqueue (k : Links α) (q : Queue α) (e : α) : Links α × Queue α :=
  match q.tail with
  | some t => insert k q e (some t)
  | none => push k q e

def dequeue (k : Links α) (q : Queue α) : Links α × Queue α × Option α := pop k q

end Queue

end Operations

/-! ## The cells of a list -/

section Cells

variable {α : Type}

def IsDll (k : Links α) (head : Option α) (l : List α) : Prop := ∃ t, DSeg k.next k.prev none head l t none

def IsQueue (k : Links α) (q : Queue α) (l : List α) : Prop := DSeg k.next k.prev none q.head l q.tail none

/-- only the links of the cells of `l` change -/
def Frame (k k' : Links α) (l : List α) : Prop := ∀ b, b ∉ l → k'.next b = k.next b ∧ k'.prev b = k.prev b

/-- a cell that is in no list -/
def Detached (k : Links α) (e : α) : Prop := k.next e = none ∧ k.prev e = none

variable {k k' : Links α} {head : Option α} {q : Queue α} {e : α} {l l' l₁ l₂ : List α}

theorem IsQueue.isDll (h : IsQueue k q l) : IsDll k q.head l := ⟨q.tail, h⟩

theorem IsDll.nodup (h : IsDll k head l) : l.Nodup := by
  obtain ⟨t, ht⟩ := h
  exact ht.lseg.nodup

theorem IsDll.head_eq (h : IsDll k head l) : head = l.head? := by
  obtain ⟨t, ht⟩ := h
  exact ht.lseg.head

/-- the end of a segment is its last cell -/
theorem DSeg.end_eq {next prev : α → Option α} {p o t m : Option α} (h : DSeg next prev p o l t m) :
    t = l.getLast?.or p := by
  rcases List.eq_nil_or_concat' l with rfl | ⟨l₀, a, rfl⟩
  · exact h.2.symm
  · rw [h.last, List.getLast?_append_of_ne_nil _ (List.cons_ne_nil a [])]
    rfl

theorem IsQueue.tail_eq (h : IsQueue k q l) : q.tail = l.getLast? := by
  rw [DSeg.end_eq h, Option.or_none]

theorem isQueue_of_isDll (h : IsDll k q.head l) (htail : q.tail = l.getLast?) : IsQueue k q l := by
  obtain ⟨t, ht⟩ := h
  have hend := DSeg.end_eq ht
  rw [Option.or_none] at hend
  unfold IsQueue
  rw [htail, ← hend]
  exact ht

/-- the cell after a cell -/
theorem IsDll.next_eq (h : IsDll k head (l₁ ++ e :: l₂)) : k.next e = l₂.head? := by
  obtain ⟨t, ht⟩ := h
  obtain ⟨r, m, _, _, _, h2⟩ := dseg_append.mp ht
  exact h2.lseg.head

/-- the cell before a cell -/
theorem IsDll.prev_eq (h : IsDll k head (l₁ ++ e :: l₂)) : k.prev e = l₁.getLast? := by
  obtain ⟨t, ht⟩ := h
  obtain ⟨r, m, h1, _, hprev, _⟩ := dseg_append.mp ht
  rw [hprev, DSeg.end_eq h1, Option.or_none]

theorem toList_eq {fuel : ℕ} (h : IsDll k head (l₁ ++ l₂)) (hfuel : l₂.length < fuel) : toList k fuel l₂.head? = l₂ := by
  induction l₂ generalizing l₁ fuel with
  | nil =>
    obtain ⟨fuel, rfl⟩ : ∃ m, fuel = m + 1 := ⟨fuel - 1, by omega⟩
    rfl
  | cons e l₂ ih =>
    obtain ⟨fuel, rfl⟩ : ∃ m, fuel = m + 1 := ⟨fuel - 1, by omega⟩
    have h' : IsDll k head (l₁ ++ [e] ++ l₂) := by rwa [List.append_assoc]
    rw [List.head?_cons, toList, h.next_eq, ih h' (by simpa using hfuel)]

/-- a walk from the head meets the cells of the list -/
theorem IsDll.toList_eq {fuel : ℕ} (h : IsDll k head l) (hfuel : l.length < fuel) : toList k fuel head = l := by
  have h' : IsDll k head ([] ++ l) := h
  rw [h.head_eq, Dll.toList_eq h' hfuel]

theorem isDll_nil : IsDll k none [] := ⟨none, rfl, rfl⟩

theorem isQueue_nil : IsQueue k ⟨none, none⟩ [] := ⟨rfl, rfl⟩

theorem IsDll.frame (h : IsDll k head l) (hf : Frame k k' l') (hdis : ∀ b ∈ l, b ∉ l') : IsDll k' head l := by
  obtain ⟨t, ht⟩ := h
  exact ⟨t, ht.congr (fun b hb => (hf b (hdis b hb)).1) fun b hb => (hf b (hdis b hb)).2⟩

theorem IsQueue.frame (h : IsQueue k q l) (hf : Frame k k' l') (hdis : ∀ b ∈ l, b ∉ l') : IsQueue k' q l :=
  h.congr (fun b hb => (hf b (hdis b hb)).1) fun b hb => (hf b (hdis b hb)).2

end Cells

/-! ## Rules -/

section Clear

variable {α : Type} [DecidableEq α]

theorem Links.clear_frame (k : Links α) (e : α) : Frame k (k.clear e) [e] := by
  intro b hb
  have hne : b ≠ e := by simpa using hb
  rw [Links.clear, Links.setPrev_next, Links.setNext_next, if_neg hne, Links.setPrev_prev, if_neg hne, Links.setNext_prev]
  exact ⟨rfl, rfl⟩

theorem Links.clear_detached (k : Links α) (e : α) : Detached (k.clear e) e := by
  rw [Detached, Links.clear, Links.setPrev_next, Links.setNext_next, if_pos rfl, Links.setPrev_prev, if_pos rfl]
  exact ⟨rfl, rfl⟩

end Clear

section Rules

variable {α : Type} [DecidableEq α] {k k' : Links α} {head : Option α} {q : Queue α} {e : α} {l l₁ l₂ : List α}

theorem push_rule (h : IsDll k head l) (he : e ∉ l) (hdet : Detached k e) :
    IsDll (push k head e).1 (push k head e).2 (e :: l) ∧ Frame k (push k head e).1 (e :: l) := by
  have hhead := h.head_eq
  obtain ⟨t, ht⟩ := h
  have hne : head ≠ some e := by
    rintro rfl
    exact he (List.mem_of_head? hhead.symm)
  unfold push
  constructor
  · apply ht.push he
    · rw [Links.setNext_next, if_pos rfl]
    · rw [Links.setNext_prev, Links.setPrev?_prev, if_neg hne]
      exact hdet.2
    · intro b hb
      rw [Links.setNext_next, if_neg (fun heq : b = e => he (heq ▸ hb)), Links.setPrev?_next]
    · intro b hb
      rw [Links.setNext_prev, Links.setPrev?_prev, if_pos hb]
    · intro b _ hb
      rw [Links.setNext_prev, Links.setPrev?_prev, if_neg hb]
  · intro b hb
    rw [List.mem_cons, not_or] at hb
    rw [Links.setNext_next, if_neg hb.1, Links.setPrev?_next, Links.setNext_prev, Links.setPrev?_prev, if_neg]
    · exact ⟨rfl, rfl⟩
    · rintro rfl
      exact hb.2 (List.mem_of_head? hhead.symm)

/-- the links after `remove` -/
theorem remove_links (hhead : head ≠ none) (b : α) :
    (remove k head e).1.next b = (if b = e then none else if k.prev e = some b then k.next e else k.next b) ∧
    (remove k head e).1.prev b = (if b = e then none else if k.next e = some b then k.prev e else k.prev b) := by
  unfold remove
  rw [if_neg hhead]
  dsimp only
  simp only [Links.setNext_next, Links.setPrev_next, Links.setPrev?_next, Links.setNext?_next, Links.setNext_prev,
    Links.setPrev_prev, Links.setPrev?_prev, Links.setNext?_prev, ite_self]
  exact ⟨trivial, trivial⟩

theorem remove_rule (h : IsDll k head (l₁ ++ e :: l₂)) :
    IsDll (remove k head e).1 (remove k head e).2 (l₁ ++ l₂) ∧ Frame k (remove k head e).1 (l₁ ++ e :: l₂) ∧
      Detached (remove k head e).1 e := by
  have hnd := h.nodup
  have hnext := h.next_eq
  have hprev := h.prev_eq
  have hhead := h.head_eq
  obtain ⟨t, ht⟩ := h
  have hne : head ≠ none := by
    rw [hhead]
    simp
  have hl₁ : e ∉ l₁ := fun he => (List.nodup_append.mp hnd).2.2 e he e List.mem_cons_self rfl
  have hl₂ : e ∉ l₂ := (List.nodup_cons.mp (List.nodup_append.mp hnd).2.1).1
  have hlinks := remove_links (k := k) (e := e) hne
  refine ⟨?_, ?_, ?_⟩
  · have hb_ne : ∀ b ∈ l₁ ++ l₂, b ≠ e := by
      rintro b hb rfl
      exact (List.mem_append.mp hb).elim hl₁ hl₂
    have hunlink : ∃ t', DSeg (remove k head e).1.next (remove k head e).1.prev none
        (if k.prev e = none then k.next e else head) (l₁ ++ l₂) t' none := by
      apply ht.unlink
      · intro b hb
        rw [(hlinks b).1, if_neg (hb_ne b hb)]
      · intro b hb
        rw [(hlinks b).2, if_neg (hb_ne b hb)]
    have hhead' : (remove k head e).2 = if k.prev e = none then k.next e else head := by
      unfold remove
      rw [if_neg hne]
      dsimp only
      rw [hprev]
      cases l₁ with
      | nil =>
        rw [hhead]
        simp
      | cons a l₁ =>
        rw [if_neg, if_neg]
        · simp
        · rw [hhead]
          intro heq
          exact hl₁ (by simp at heq; simp [heq])
    rw [hhead']
    exact hunlink
  · intro b hb
    have hbe : b ≠ e := by
      rintro rfl
      exact hb (by simp)
    rw [(hlinks b).1, (hlinks b).2, if_neg hbe, if_neg hbe, if_neg, if_neg]
    · exact ⟨rfl, rfl⟩
    · rw [hnext]
      intro heq
      exact hb (List.mem_append_right _ (List.mem_cons_of_mem e (List.mem_of_head? heq)))
    · rw [hprev]
      intro heq
      exact hb (List.mem_append_left _ (List.mem_of_getLast? heq))
  · exact ⟨by rw [(hlinks e).1, if_pos rfl], by rw [(hlinks e).2, if_pos rfl]⟩

theorem pop_rule (h : IsDll k head (e :: l)) :
    (pop k head).2.2 = some e ∧ IsDll (pop k head).1 (pop k head).2.1 l ∧ Frame k (pop k head).1 (e :: l) ∧
      Detached (pop k head).1 e := by
  have hnd := List.nodup_cons.mp h.nodup
  have h : IsDll k head ([] ++ e :: l) := h
  have hnext : k.next e = l.head? := h.next_eq
  have hprev : k.prev e = none := h.prev_eq
  obtain rfl : head = some e := h.head_eq
  obtain ⟨t, ht⟩ := h
  have hlinks : ∀ b, (pop k (some e)).1.next b = (if b = e then none else k.next b) ∧
      (pop k (some e)).1.prev b = (if k.next e = some b then none else k.prev b) := by
    intro b
    unfold pop
    simp only [Links.setNext_next, Links.setPrev?_next, Links.setNext_prev, Links.setPrev?_prev]
    exact ⟨trivial, trivial⟩
  have hself : k.next e ≠ some e := by
    rw [hnext]
    exact fun heq => hnd.1 (List.mem_of_head? heq)
  refine ⟨rfl, ?_, ?_, ?_⟩
  · have hunlink : ∃ t', DSeg (pop k (some e)).1.next (pop k (some e)).1.prev none
        (if k.prev e = none then k.next e else some e) ([] ++ l) t' none := by
      apply ht.unlink
      · intro b hb
        have hbe : b ≠ e := by
          rintro rfl
          exact hnd.1 hb
        rw [(hlinks b).1, if_neg hbe, hprev, if_neg (by simp)]
      · intro b hb
        rw [(hlinks b).2, hprev]
    rw [if_pos hprev] at hunlink
    exact hunlink
  · intro b hb
    rw [List.mem_cons, not_or] at hb
    rw [(hlinks b).1, (hlinks b).2, if_neg hb.1, if_neg]
    · exact ⟨rfl, rfl⟩
    · rw [hnext]
      exact fun heq => hb.2 (List.mem_of_head? heq)
  · refine ⟨by rw [(hlinks e).1, if_pos rfl], ?_⟩
    rw [(hlinks e).2, if_neg hself, hprev]

/-! ### Queues -/

theorem queue_remove_rule (h : IsQueue k q (l₁ ++ e :: l₂)) :
    IsQueue (q.remove k e).1 (q.remove k e).2 (l₁ ++ l₂) ∧ Frame k (q.remove k e).1 (l₁ ++ e :: l₂) ∧
      Detached (q.remove k e).1 e := by
  obtain ⟨hdll, hframe, hdet⟩ := remove_rule h.isDll
  refine ⟨isQueue_of_isDll hdll ?_, hframe, hdet⟩
  have hnd := h.isDll.nodup
  have hl₂ : e ∉ l₂ := (List.nodup_cons.mp (List.nodup_append.mp hnd).2.1).1
  unfold Queue.remove
  dsimp only
  rw [h.tail_eq]
  cases l₂ with
  | nil =>
    rw [List.getLast?_append_of_ne_nil _ (List.cons_ne_nil e []), List.getLast?_singleton, if_pos rfl, h.isDll.prev_eq,
      List.append_nil]
  | cons a l₂ =>
    rw [List.getLast?_append_of_ne_nil _ (List.cons_ne_nil e _), List.getLast?_cons_cons,
      List.getLast?_append_of_ne_nil _ (List.cons_ne_nil a l₂), if_neg]
    exact fun heq => hl₂ (List.mem_of_getLast? heq)

/-- a cell that is in no list: nothing happens -/
theorem queue_remove_detached (hdet : Detached k e) (hhead : q.head ≠ some e) (htail : q.tail ≠ some e)
    (hempty : q.head = none → q.tail = none) : q.remove k e = (k, q) := by
  have hk : ((k.setPrev e none).setNext e none : Links α) = k := by
    unfold Links.setNext Links.setPrev
    dsimp only
    rw [← hdet.1, Function.update_eq_self, hdet.1, ← hdet.2, Function.update_eq_self]
  unfold Queue.remove Dll.remove
  rw [if_neg htail]
  obtain ⟨h, t⟩ := q
  dsimp only at hhead htail hempty ⊢
  by_cases hnone : h = none
  · rw [if_pos hnone, hempty hnone, hnone]
  · rw [if_neg hnone]
    dsimp only
    rw [if_neg hhead, hdet.1, hdet.2, Links.setNext?, hdet.1, Links.setPrev?]
    exact Prod.ext hk rfl

theorem queue_dequeue_rule (h : IsQueue k q (e :: l)) :
    (q.dequeue k).2.2 = some e ∧ IsQueue (q.dequeue k).1 (q.dequeue k).2.1 l ∧ Frame k (q.dequeue k).1 (e :: l) ∧
      Detached (q.dequeue k).1 e := by
  obtain ⟨hret, hdll, hframe, hdet⟩ := pop_rule h.isDll
  refine ⟨hret, isQueue_of_isDll hdll ?_, hframe, hdet⟩
  have hhead := hdll.head_eq
  unfold Queue.dequeue Queue.pop
  dsimp only
  rw [hhead, h.tail_eq]
  cases l with
  | nil => rfl
  | cons a l =>
    rw [if_neg (by simp), List.getLast?_cons_cons]

theorem queue_dequeue_nil (h : IsQueue k q []) : q.dequeue k = (k, q, none) := by
  obtain ⟨hd, tl⟩ := q
  obtain ⟨hhead, htail⟩ := h
  dsimp only at hhead htail
  subst hhead
  subst htail
  rfl

theorem queue_enqueue_rule (h : IsQueue k q l) (he : e ∉ l) (hdet : Detached k e) :
    IsQueue (q.enqueue k e).1 (q.enqueue k e).2 (l ++ [e]) ∧ Frame k (q.enqueue k e).1 (l ++ [e]) := by
  have htail := h.tail_eq
  have hnd := h.isDll.nodup
  unfold Queue.enqueue
  rcases List.eq_nil_or_concat' l with rfl | ⟨l₀, a, rfl⟩
  · -- the first cell is pushed
    rw [htail]
    obtain ⟨hdll, hframe⟩ := push_rule h.isDll he hdet
    refine ⟨isQueue_of_isDll hdll ?_, hframe⟩
    unfold Queue.push
    rw [htail]
    rfl
  · rw [List.getLast?_append_of_ne_nil _ (List.cons_ne_nil a []), List.getLast?_singleton] at htail
    rw [htail]
    dsimp only
    have hnext : k.next a = none := h.isDll.next_eq
    have hae : a ≠ e := by
      rintro rfl
      exact he (by simp)
    have hlinks : ∀ b, (q.insert k e (some a)).1.next b = (if b = a then some e else if b = e then none else k.next b) ∧
        (q.insert k e (some a)).1.prev b = (if b = e then some a else k.prev b) := by
      intro b
      have hnone : ((((k.setPrev e (some a)).setNext e (k.next a)).setNext a (some e)).next e) = none := by
        rw [Links.setNext_next, if_neg hae.symm, Links.setNext_next, if_pos rfl, hnext]
      unfold Queue.insert Dll.insert
      dsimp only
      rw [hnone, Links.setPrev?]
      simp only [Links.setNext_next, Links.setPrev_next, Links.setNext_prev, Links.setPrev_prev, hnext]
      exact ⟨trivial, trivial⟩
    have ha₀ : a ∉ l₀ := fun ha => (List.nodup_append.mp hnd).2.2 a ha a (List.mem_singleton_self a) rfl
    constructor
    · apply isQueue_of_isDll
      · refine ⟨some e, dseg_append.mpr ⟨some a, some e, ?_, rfl, ?_, ?_, rfl⟩⟩
        · obtain ⟨r, m, h1, hm, hprev, _⟩ := dseg_append.mp h
          refine dseg_append.mpr ⟨r, m, ?_, hm, ?_, ?_, rfl⟩
          · apply h1.congr
            · intro b hb
              rw [(hlinks b).1, if_neg, if_neg]
              · rintro rfl
                exact he (by simp [hb])
              · rintro rfl
                exact ha₀ hb
            · intro b hb
              rw [(hlinks b).2, if_neg]
              rintro rfl
              exact he (by simp [hb])
          · rw [(hlinks a).2, if_neg hae]
            exact hprev
          · rw [(hlinks a).1, if_pos rfl]
        · rw [(hlinks e).2, if_pos rfl]
        · rw [(hlinks e).1, if_neg hae.symm, if_pos rfl]
      · unfold Queue.insert
        dsimp only
        rw [htail, if_neg (by simp), if_pos rfl]
        simp
    · intro b hb
      have hba : b ≠ a := by
        rintro rfl
        exact hb (by simp)
      have hbe : b ≠ e := by
        rintro rfl
        exact hb (by simp)
      rw [(hlinks b).1, (hlinks b).2, if_neg hba, if_neg hbe, if_neg hbe]
      exact ⟨rfl, rfl⟩

end Rules

/-! ## Queues over the same links -/

section Family

variable {α ι : Type} [DecidableEq α] {k : Links α} {q : ι → Queue α} {L : ι → List α} {i : ι} {e : α}
  {l l₁ l₂ : List α}

/-- queues of the same cells: a cell is in at most one of them, and has null links if it is in none -/
structure Queues (k : Links α) (q : ι → Queue α) (L : ι → List α) : Prop where
  queue : ∀ i, IsQueue k (q i) (L i)
  disjoint : ∀ i j, i ≠ j → ∀ e ∈ L i, e ∉ L j
  detached : ∀ e, (∀ i, e ∉ L i) → Detached k e

theorem Queues.dequeue_nil (h : Queues k q L) (hL : L i = []) : (q i).dequeue k = (k, q i, none) := by
  have hq := h.queue i
  rw [hL] at hq
  exact queue_dequeue_nil hq

/-- a cell in no queue, with new links -/
theorem Queues.clear (h : Queues k q L) (he : ∀ i, e ∉ L i) : Queues (k.clear e) q L := by
  refine ⟨fun i => ?_, h.disjoint, fun b hb => ?_⟩
  · exact (h.queue i).frame (Links.clear_frame k e) fun b hb hbe => he i (List.mem_singleton.mp hbe ▸ hb)
  · by_cases hbe : b = e
    · subst hbe
      exact Links.clear_detached k b
    · obtain ⟨hnext, hprev⟩ := Links.clear_frame k e b (by simpa using hbe)
      obtain ⟨hn, hp⟩ := h.detached b hb
      exact ⟨hnext.trans hn, hprev.trans hp⟩

variable [DecidableEq ι]

/-- one of the queues loses cells or is joined by a cell that is in no queue -/
theorem Queues.update {k' : Links α} {q' : Queue α} (h : Queues k q L) (hq : IsQueue k' q' l) (hf : Frame k k' l₁)
    (hl₁ : ∀ b ∈ l₁, ∀ j, j ≠ i → b ∉ L j) (hl : ∀ b ∈ l, b ∈ l₁) (hsub : ∀ b ∈ L i, b ∈ l₁)
    (hdet : ∀ b ∈ l₁, b ∉ l → Detached k' b) : Queues k' (Function.update q i q') (Function.update L i l) := by
  refine ⟨fun j => ?_, fun j j' hne b hb => ?_, fun b hb => ?_⟩
  · by_cases hj : j = i
    · subst hj
      rw [Function.update_self, Function.update_self]
      exact hq
    · rw [Function.update_of_ne hj, Function.update_of_ne hj]
      exact (h.queue j).frame hf fun b hb hmem => hl₁ b hmem j hj hb
  · by_cases hj : j = i
    · subst hj
      rw [Function.update_self] at hb
      rw [Function.update_of_ne hne.symm]
      exact hl₁ b (hl b hb) j' hne.symm
    · rw [Function.update_of_ne hj] at hb
      by_cases hj' : j' = i
      · subst hj'
        rw [Function.update_self]
        exact fun hmem => hl₁ b (hl b hmem) j hj hb
      · rw [Function.update_of_ne hj']
        exact h.disjoint j j' hne b hb
  · have hi := hb i
    rw [Function.update_self] at hi
    by_cases hmem : b ∈ l₁
    · exact hdet b hmem hi
    · obtain ⟨hnext, hprev⟩ := hf b hmem
      have hold : Detached k b := by
        apply h.detached
        intro j
        by_cases hj : j = i
        · subst hj
          exact fun hb' => hmem (hsub b hb')
        · have := hb j
          rwa [Function.update_of_ne hj] at this
      exact ⟨hnext.trans hold.1, hprev.trans hold.2⟩

theorem Queues.remove (h : Queues k q L) (hL : L i = l₁ ++ e :: l₂) :
    Queues ((q i).remove k e).1 (Function.update q i ((q i).remove k e).2) (Function.update L i (l₁ ++ l₂)) := by
  have hq := h.queue i
  rw [hL] at hq
  obtain ⟨hrem, hframe, hdet⟩ := queue_remove_rule hq
  apply h.update hrem hframe
  · intro b hb j hj
    exact h.disjoint i j hj.symm b (hL ▸ hb)
  · intro b hb
    rcases List.mem_append.mp hb with hb | hb
    · exact List.mem_append_left _ hb
    · exact List.mem_append_right _ (List.mem_cons_of_mem e hb)
  · intro b hb
    exact hL ▸ hb
  · intro b hb hnot
    rcases List.mem_append.mp hb with hb | hb
    · exact absurd (List.mem_append_left _ hb) hnot
    · rcases List.mem_cons.mp hb with rfl | hb
      · exact hdet
      · exact absurd (List.mem_append_right _ hb) hnot

theorem Queues.dequeue (h : Queues k q L) (hL : L i = e :: l) :
    ((q i).dequeue k).2.2 = some e ∧
    Queues ((q i).dequeue k).1 (Function.update q i ((q i).dequeue k).2.1) (Function.update L i l) := by
  have hq := h.queue i
  rw [hL] at hq
  obtain ⟨hret, hdeq, hframe, hdet⟩ := queue_dequeue_rule hq
  refine ⟨hret, h.update hdeq hframe ?_ ?_ ?_ ?_⟩
  · intro b hb j hj
    exact h.disjoint i j hj.symm b (hL ▸ hb)
  · exact fun b hb => List.mem_cons_of_mem e hb
  · exact fun b hb => hL ▸ hb
  · intro b hb hnot
    rcases List.mem_cons.mp hb with rfl | hb
    · exact hdet
    · exact absurd hb hnot

theorem Queues.enqueue (h : Queues k q L) (he : ∀ j, e ∉ L j) :
    Queues ((q i).enqueue k e).1 (Function.update q i ((q i).enqueue k e).2) (Function.update L i (L i ++ [e])) := by
  obtain ⟨henq, hframe⟩ := queue_enqueue_rule (h.queue i) (he i) (h.detached e he)
  apply h.update henq hframe
  · intro b hb j hj
    rcases List.mem_append.mp hb with hb | hb
    · exact h.disjoint i j hj.symm b hb
    · rw [List.mem_singleton.mp hb]
      exact he j
  · exact fun b hb => hb
  · exact fun b hb => List.mem_append_left _ hb
  · exact fun b hb hnot => absurd hb hnot

end Family

end TrafficServer.Dll
