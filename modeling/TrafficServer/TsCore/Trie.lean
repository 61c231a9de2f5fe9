/-
`Trie` (`include/tscore/Trie.h`): values with a rank under keys, one node for each prefix of a key.

`Insert` refuses a key that is taken. `Search` walks down along a key and remembers the entry of least rank that it has passed, so that it
finds the best entry among the prefixes of the key (`search_none`, `search_some`).
-/
import Mathlib

namespace TrafficServer.TsCore.Trie

/-- `Node`: an occupied node has a value and a rank -/
inductive Node (α V : Type) where
  | mk (entry : Option (V × ℕ)) (children : α → Option (Node α V))

variable {α V : Type}

namespace Node

def entry : Node α V → Option (V × ℕ)
  | mk e _ => e

/-- `GetChild` -/
def getChild : Node α V → α → Option (Node α V)
  | mk _ ch => ch

/-- a node that was allocated and cleared -/
def clear : Node α V := mk none fun _ => none

def setEntry (n : Node α V) (e : V × ℕ) : Node α V := mk (some e) n.getChild

def setChild [DecidableEq α] (n : Node α V) (c : α) (child : Node α V) : Node α V :=
  mk n.entry (Function.update n.getChild c (some child))

@[simp] theorem entry_clear : (clear : Node α V).entry = none := rfl
@[simp] theorem getChild_clear (c : α) : (clear : Node α V).getChild c = none := rfl
@[simp] theorem entry_setEntry (n : Node α V) (e : V × ℕ) : (n.setEntry e).entry = some e := rfl
@[simp] theorem getChild_setEntry (n : Node α V) (e : V × ℕ) : (n.setEntry e).getChild = n.getChild := rfl

section

variable [DecidableEq α]

@[simp] theorem entry_setChild (n : Node α V) (c : α) (child : Node α V) : (n.setChild c child).entry = n.entry := rfl

theorem getChild_setChild (n : Node α V) (c d : α) (child : Node α V) :
    (n.setChild c child).getChild d = if d = c then some child else n.getChild d := by
  rw [setChild, getChild, Function.update_apply]

/-- `Insert` -/
def insert (value : V) (rank : ℕ) : List α → Node α V → Option (Node α V)
  | [], n => if n.entry.isSome then none else some (n.setEntry (value, rank))
  | c :: key, n =>
    match n.getChild c with
    | some child => (insert value rank key child).map (n.setChild c)
    | none => (insert value rank key clear).map (n.setChild c)

end

/-- the better of what was found and the entry of a node -/
def better (e found : Option (V × ℕ)) : Option (V × ℕ) :=
  match e, found with
  | some e, some f => if e.2 ≤ f.2 then some e else some f
  | some e, none => some e
  | none, f => f

/-- `Search`, where `found` is the entry of the node found so far -/
def searchFrom (found : Option (V × ℕ)) : List α → Node α V → Option (V × ℕ)
  | [], n => better n.entry found
  | c :: key, n =>
    match n.getChild c with
    | none => better n.entry found
    | some child => searchFrom (better n.entry found) key child

def search (key : List α) (n : Node α V) : Option (V × ℕ) := searchFrom none key n

/-! ## Entries -/

/-- the entry under a key -/
def at' : List α → Node α V → Option (V × ℕ)
  | [], n => n.entry
  | c :: key, n => (n.getChild c).bind (at' key)

theorem at_clear (key : List α) : at' key (clear : Node α V) = none := by
  cases key <;> rfl

theorem insert_none [DecidableEq α] {value : V} {rank : ℕ} {key : List α} {n : Node α V} :
    insert value rank key n = none ↔ (at' key n).isSome := by
  induction key generalizing n with
  | nil => simp [insert, at', Option.isSome_iff_ne_none]
  | cons c key ih =>
    rw [insert, at']
    cases hc : n.getChild c with
    | some child => simpa using ih
    | none =>
      have h := ih (n := clear)
      rw [at_clear] at h
      simpa using h

theorem insert_at [DecidableEq α] {value : V} {rank : ℕ} {key : List α} {n n' : Node α V} (h : insert value rank key n = some n')
    (key' : List α) : at' key' n' = if key' = key then some (value, rank) else at' key' n := by
  induction key generalizing n n' key' with
  | nil =>
    rw [insert] at h
    split_ifs at h
    obtain rfl := Option.some.inj h
    cases key' <;> simp [at']
  | cons c key ih =>
    -- the child that the rest of the key goes to, an empty one if there was none
    obtain ⟨child, child', hat, hins, rfl⟩ : ∃ child child' : Node α V, (∀ k, at' (c :: k) n = at' k child) ∧
        insert value rank key child = some child' ∧ n' = n.setChild c child' := by
      rw [insert] at h
      cases hc : n.getChild c with
      | some child =>
        rw [hc] at h
        obtain ⟨child', hins, rfl⟩ := Option.map_eq_some_iff.mp h
        exact ⟨child, child', fun k => by rw [at', hc]; rfl, hins, rfl⟩
      | none =>
        rw [hc] at h
        obtain ⟨child', hins, rfl⟩ := Option.map_eq_some_iff.mp h
        exact ⟨clear, child', fun k => by rw [at', hc, at_clear]; rfl, hins, rfl⟩
    cases key' with
    | nil => simp [at']
    | cons d key' =>
      rw [at', getChild_setChild]
      by_cases hd : d = c
      · subst hd
        rw [if_pos rfl, Option.bind_some, ih hins key', hat key']
        simp
      · rw [if_neg hd, if_neg (by simp [hd])]
        rfl

/-! ## The search -/

theorem better_none {e found : Option (V × ℕ)} (h : better e found = none) : e = none ∧ found = none := by
  cases e <;> cases found <;> simp [better] at h ⊢
  split_ifs at h

theorem better_some {e found : Option (V × ℕ)} {b : V × ℕ} (h : better e found = some b) :
    (e = some b ∨ found = some b) ∧ (∀ x, e = some x → b.2 ≤ x.2) ∧ ∀ x, found = some x → b.2 ≤ x.2 := by
  cases e with
  | none => exact ⟨Or.inr h, by simp, fun x hx => by rw [better, hx] at h; simp_all⟩
  | some e =>
    cases found with
    | none => simp_all [better]
    | some f =>
      simp only [better] at h
      split_ifs at h with hle
      · obtain rfl := Option.some.inj h
        exact ⟨Or.inl rfl, by simp, by simpa using hle⟩
      · obtain rfl := Option.some.inj h
        exact ⟨Or.inr rfl, by simp; omega, by simp⟩

/-- nothing is found if no prefix of the key has an entry -/
theorem searchFrom_none {found : Option (V × ℕ)} {key : List α} {n : Node α V} (h : searchFrom found key n = none) :
    found = none ∧ ∀ p, p <+: key → at' p n = none := by
  induction key generalizing found n with
  | nil =>
    rw [searchFrom] at h
    obtain ⟨he, hf⟩ := better_none h
    refine ⟨hf, ?_⟩
    intro p hp
    rw [List.prefix_nil.mp hp]
    exact he
  | cons c key ih =>
    rw [searchFrom] at h
    cases hc : n.getChild c with
    | none =>
      rw [hc] at h
      obtain ⟨he, hf⟩ := better_none h
      refine ⟨hf, ?_⟩
      intro p hp
      cases p with
      | nil => exact he
      | cons d p => rw [(List.cons_prefix_cons.mp hp).1, at', hc]; rfl
    | some child =>
      rw [hc] at h
      obtain ⟨hb, hrest⟩ := ih h
      obtain ⟨he, hf⟩ := better_none hb
      refine ⟨hf, ?_⟩
      intro p hp
      cases p with
      | nil => exact he
      | cons d p =>
        obtain ⟨rfl, hp'⟩ := List.cons_prefix_cons.mp hp
        rw [at', hc]
        exact hrest p hp'

/-- what is found is an entry of a prefix, and none has a smaller rank -/
theorem searchFrom_some {found : Option (V × ℕ)} {key : List α} {n : Node α V} {b : V × ℕ} (h : searchFrom found key n = some b) :
    (found = some b ∨ ∃ p, p <+: key ∧ at' p n = some b) ∧ (∀ x, found = some x → b.2 ≤ x.2) ∧
      ∀ p x, p <+: key → at' p n = some x → b.2 ≤ x.2 := by
  induction key generalizing found n with
  | nil =>
    rw [searchFrom] at h
    obtain ⟨hor, he, hf⟩ := better_some h
    refine ⟨?_, hf, ?_⟩
    · rcases hor with hor | hor
      · exact Or.inr ⟨[], List.nil_prefix, hor⟩
      · exact Or.inl hor
    · intro p x hp hx
      rw [List.prefix_nil.mp hp] at hx
      exact he x hx
  | cons c key ih =>
    rw [searchFrom] at h
    cases hc : n.getChild c with
    | none =>
      rw [hc] at h
      obtain ⟨hor, he, hf⟩ := better_some h
      refine ⟨?_, hf, ?_⟩
      · rcases hor with hor | hor
        · exact Or.inr ⟨[], List.nil_prefix, hor⟩
        · exact Or.inl hor
      · intro p x hp hx
        cases p with
        | nil => exact he x hx
        | cons d p => rw [(List.cons_prefix_cons.mp hp).1, at', hc] at hx; simp at hx
    | some child =>
      rw [hc] at h
      obtain ⟨hor, hbest, hall⟩ := ih h
      have hlow : (∀ x, n.entry = some x → b.2 ≤ x.2) ∧ ∀ x, found = some x → b.2 ≤ x.2 := by
        cases hb : better n.entry found with
        | none => obtain ⟨he, hf⟩ := better_none hb; simp [he, hf]
        | some y =>
          obtain ⟨-, he, hf⟩ := better_some hb
          have hy := hbest y hb
          exact ⟨fun x hx => hy.trans (he x hx), fun x hx => hy.trans (hf x hx)⟩
      refine ⟨?_, hlow.2, ?_⟩
      · rcases hor with hb | ⟨p, hp, hx⟩
        · rcases (better_some hb).1 with hb | hb
          · exact Or.inr ⟨[], List.nil_prefix, hb⟩
          · exact Or.inl hb
        · exact Or.inr ⟨c :: p, List.cons_prefix_cons.mpr ⟨rfl, hp⟩, by rw [at', hc]; exact hx⟩
      · intro p x hp hx
        cases p with
        | nil => exact hlow.1 x hx
        | cons d p =>
          obtain ⟨rfl, hp'⟩ := List.cons_prefix_cons.mp hp
          rw [at', hc] at hx
          exact hall p x hp' hx

theorem search_none {key : List α} {n : Node α V} (h : search key n = none) {p : List α} (hp : p <+: key) : at' p n = none :=
  (searchFrom_none h).2 p hp

theorem search_some {key : List α} {n : Node α V} {b : V × ℕ} (h : search key n = some b) :
    (∃ p, p <+: key ∧ at' p n = some b) ∧ ∀ p x, p <+: key → at' p n = some x → b.2 ≤ x.2 := by
  obtain ⟨hor, -, hall⟩ := searchFrom_some h
  rcases hor with hor | hor
  · simp at hor
  · exact ⟨hor, hall⟩

end Node

end TrafficServer.TsCore.Trie
