/-
`IpMap` (`src/tscore/IpMap.cc`): disjoint address spans, each with a payload.

The nodes of a map are on a list in address order and in a search tree over the same nodes. `Ip4Node` and `Ip6Node` give one template its
address type, so an address is a number below `2 ^ w`; `inc` and `dec` wrap around as `++` and `--` do (`inc6_value` and `dec6_value` say
that the ripple carry over the 16 bytes of an IPv6 address is this). The tree may have any shape with the list as its inorder walk. A walk
of the list that removes, clips and inserts nodes is a function of the part of the list that is still before it.

`look` is what a map is for: the payload of an address. `Sorted` is the invariant of the list. The result is `fill_unmark`:

  - after `fill` the addresses of the range that had no payload have the new one, and no other address changes;
  - after `unmark` exactly the addresses of the range have none, when some node starts at or below the range or no node meets it. With
    every node to the right of `min`, `lowerBound` is null and `unmark` returns without looking at the list (`unmark_none`);
  - the search in the tree finds what the list says.
-/
import Mathlib

namespace TrafficServer.TsCore

/-! ## Addresses -/

def inc (w a : ℕ) : ℕ := (a + 1) % 2 ^ w

def dec (w a : ℕ) : ℕ := (a + (2 ^ w - 1)) % 2 ^ w

/-- `Ip6Node::inc`: a ripple carry, from the last byte of the address on -/
def inc6 : List ℕ → List ℕ
  | [] => []
  | b :: bs => if (b + 1) % 256 = 0 then 0 :: inc6 bs else (b + 1) :: bs

/-- `Ip6Node::dec`: a ripple borrow -/
def dec6 : List ℕ → List ℕ
  | [] => []
  | b :: bs => if b = 0 then 255 :: dec6 bs else (b - 1) :: bs

/-- the number that bytes in this order are the digits of -/
def value6 : List ℕ → ℕ
  | [] => 0
  | b :: bs => b + 256 * value6 bs

theorem value6_lt (bs : List ℕ) (h : ∀ b ∈ bs, b < 256) : value6 bs < 2 ^ (8 * bs.length) := by
  induction bs with
  | nil => simp [value6]
  | cons b bs ih =>
    have hb := h b List.mem_cons_self
    have hbs := ih fun c hc => h c (List.mem_cons_of_mem b hc)
    have hpow : 2 ^ (8 * (b :: bs).length) = 256 * 2 ^ (8 * bs.length) := by
      rw [List.length_cons, Nat.mul_add, Nat.pow_add]
      ring
    rw [value6, hpow]
    omega

theorem inc6_value (bs : List ℕ) (h : ∀ b ∈ bs, b < 256) : value6 (inc6 bs) = inc (8 * bs.length) (value6 bs) := by
  induction bs with
  | nil => rfl
  | cons b bs ih =>
    have hb := h b List.mem_cons_self
    have hrest : ∀ c ∈ bs, c < 256 := fun c hc => h c (List.mem_cons_of_mem b hc)
    have hbs := value6_lt bs hrest
    have ih := ih hrest
    have hpow : 2 ^ (8 * (b :: bs).length) = 256 * 2 ^ (8 * bs.length) := by
      rw [List.length_cons, Nat.mul_add, Nat.pow_add]
      ring
    unfold inc at ih ⊢
    rw [hpow, inc6]
    split_ifs with hc
    · -- the byte overflows
      have h255 : b = 255 := by omega
      calc value6 (0 :: inc6 bs) = 256 * ((value6 bs + 1) % 2 ^ (8 * bs.length)) := by rw [value6, ih, Nat.zero_add]
        _ = (256 * (value6 bs + 1)) % (256 * 2 ^ (8 * bs.length)) := (Nat.mul_mod_mul_left ..).symm
        _ = (value6 (b :: bs) + 1) % (256 * 2 ^ (8 * bs.length)) := by rw [value6, h255]; congr 1; ring
    · rw [value6, value6, Nat.mod_eq_of_lt (by omega)]
      ring

theorem dec6_value (bs : List ℕ) (h : ∀ b ∈ bs, b < 256) : value6 (dec6 bs) = dec (8 * bs.length) (value6 bs) := by
  induction bs with
  | nil => rfl
  | cons b bs ih =>
    have hb := h b List.mem_cons_self
    have hrest : ∀ c ∈ bs, c < 256 := fun c hc => h c (List.mem_cons_of_mem b hc)
    have hbs := value6_lt bs hrest
    have ih := ih hrest
    have hpow : 2 ^ (8 * (b :: bs).length) = 256 * 2 ^ (8 * bs.length) := by
      rw [List.length_cons, Nat.mul_add, Nat.pow_add]
      ring
    have hpos : 0 < 2 ^ (8 * bs.length) := Nat.two_pow_pos _
    unfold dec at ih ⊢
    rw [hpow, dec6]
    generalize 2 ^ (8 * bs.length) = n at hpos hbs ih ⊢
    split_ifs with hc
    · rw [value6, value6, hc, ih]
      rcases Nat.eq_zero_or_pos (value6 bs) with h0 | h0
      · rw [h0, Nat.mod_eq_of_lt (by omega), Nat.mod_eq_of_lt (by omega)]
        omega
      · have h1 : (value6 bs + (n - 1)) % n = value6 bs - 1 := by
          rw [show value6 bs + (n - 1) = (value6 bs - 1) + n by omega, Nat.add_mod_right, Nat.mod_eq_of_lt (by omega)]
        have h2 : (0 + 256 * value6 bs + (256 * n - 1)) % (256 * n) = 256 * value6 bs - 1 := by
          rw [show 0 + 256 * value6 bs + (256 * n - 1) = (256 * value6 bs - 1) + 256 * n by omega, Nat.add_mod_right,
            Nat.mod_eq_of_lt (by omega)]
        rw [h1, h2]
        omega
    · rw [value6, value6, show b + 256 * value6 bs + (256 * n - 1) = (b - 1 + 256 * value6 bs) + 256 * n by omega,
        Nat.add_mod_right, Nat.mod_eq_of_lt (by omega)]

theorem inc_eq {w a b : ℕ} (h : a < b) (hb : b < 2 ^ w) : inc w a = a + 1 := Nat.mod_eq_of_lt (by omega)

theorem dec_eq {w a : ℕ} (h : 0 < a) (ha : a < 2 ^ w) : dec w a = a - 1 := by
  unfold dec
  rw [show a + (2 ^ w - 1) = (a - 1) + 2 ^ w by omega, Nat.add_mod_right, Nat.mod_eq_of_lt (by omega)]

/-! ## Nodes, list and tree -/

structure Node (α : Type*) where
  min : ℕ
  max : ℕ
  data : α
deriving DecidableEq

variable {α : Type*}

def Node.setMin (n : Node α) (min : ℕ) : Node α := { n with min := min }

def Node.setMax (n : Node α) (max : ℕ) : Node α := { n with max := max }

/-- the search tree of the nodes -/
inductive Tree (α : Type*) where
  | leaf
  | node (left : Tree α) (n : Node α) (right : Tree α)

def Tree.inorder : Tree α → List (Node α)
  | .leaf => []
  | .node left n right => left.inorder ++ n :: right.inorder

/-- the loop of `lowerBound`; `zret` is the best node so far -/
def Tree.lowerBoundFrom (target : ℕ) : Tree α → Option (Node α) → Option (Node α)
  | .leaf, zret => zret
  | .node left n right, zret =>
    if target < n.min then left.lowerBoundFrom target zret
    else if n.max < target then right.lowerBoundFrom target (some n) else some n

def Tree.lowerBound (t : Tree α) (target : ℕ) : Option (Node α) := t.lowerBoundFrom target none

/-- `contains`, with what it stores at `ptr` -/
def Tree.contains (x : ℕ) : Tree α → Option α
  | .leaf => none
  | .node left n right => if x < n.min then left.contains x else if n.max < x then right.contains x else some n.data

/-! ## Operations -/

section Operations

variable [DecidableEq α]

/-- the nodes before `n` and after it -/
def around (n : Node α) (l : List (Node α)) : List (Node α) × List (Node α) :=
  (l.takeWhile fun x => x ≠ n, (l.dropWhile fun x => x ≠ n).tail)

/-- The loop of `fill` on the nodes from `n` on, with the carried node `x`, which is the node before them. The result is the list from
`x` on. -/
def fillLoop (w max : ℕ) (payload : α) : Option (Node α) → ℕ → List (Node α) → List (Node α)
  | some x, _, [] => [x.setMax max]
  | none, min, [] => [⟨min, max, payload⟩]
  | some x, min, n :: rest =>
    if n.data = payload then
      -- next range is covered, so we can remove and continue
      if n.max ≤ max then fillLoop w max payload (some x) min rest
      -- overlap or adjacent with larger max: absorb and finish
      else if n.min ≤ inc w max then x.setMax n.max :: rest
      else x.setMax max :: n :: rest
    else
      if max < n.min then x.setMax max :: n :: rest
      else if max ≤ n.max then x.setMax (dec w n.min) :: n :: rest
      -- n is contained in the range, skip over it
      else x.setMax (dec w n.min) :: n :: fillLoop w max payload none (inc w n.max) rest
  | none, min, n :: rest =>
    if n.data = payload then
      -- next range is covered: use it
      if n.max ≤ max then fillLoop w max payload (some (n.setMin min)) min rest
      else if n.min ≤ inc w max then n.setMin min :: rest
      else ⟨min, max, payload⟩ :: n :: rest
    else
      if max < n.min then ⟨min, max, payload⟩ :: n :: rest
      else
        -- leading section, need node
        let y := if min < n.min then [⟨min, dec w n.min, payload⟩] else []
        y ++ n :: (if max ≤ n.max then rest else fillLoop w max payload none (inc w n.max) rest)

def fill (w : ℕ) (t : Tree α) (min max : ℕ) (payload : α) : List (Node α) :=
  match t.lowerBound min with
  | none => fillLoop w max payload none min t.inorder
  | some n =>
    let (before, after) := around n t.inorder
    if n.min < min then
      -- no overlap or adjacency
      if n.max < dec w min then before ++ n :: fillLoop w max payload none min after
      -- incoming range is covered, just discard
      else if n.max ≥ max then t.inorder
      -- different payload, clip range on left
      else if n.data ≠ payload then before ++ n :: fillLoop w max payload none (inc w n.max) after
      -- skew overlap with same payload, use node and continue
      else before ++ fillLoop w max payload (some n) min after
    else before ++ fillLoop w max payload none min (n :: after)

/-- the loop of `unmark`: the nodes of `l` start at or above `min` -/
def unmarkLoop (w max : ℕ) : List (Node α) → List (Node α)
  | [] => []
  | x :: rest =>
    if x.max ≤ max then unmarkLoop w max rest
    else if x.min ≤ max then x.setMin (inc w max) :: rest
    else x :: rest

def unmark (w : ℕ) (t : Tree α) (min max : ℕ) : List (Node α) :=
  match t.lowerBound min with
  | none => t.inorder
  | some n =>
    let (before, after) := around n t.inorder
    if n.min < min then
      if n.max ≥ min then
        -- request span is covered by existing span: split existing span
        if n.max > max then before ++ n.setMax (dec w min) :: ⟨inc w max, n.max, n.data⟩ :: after
        -- just clip overlap
        else before ++ n.setMax (dec w min) :: unmarkLoop w max after
      else before ++ n :: unmarkLoop w max after
    else before ++ unmarkLoop w max (n :: after)

end Operations

/-! ## The address map of a list -/

/-- the payload of an address -/
def look (l : List (Node α)) (a : ℕ) : Option α := (l.find? fun n => n.min ≤ a ∧ a ≤ n.max).map Node.data

/-- the spans are ranges of addresses, in order and disjoint -/
structure Sorted (w : ℕ) (l : List (Node α)) : Prop where
  range : ∀ n ∈ l, n.min ≤ n.max ∧ n.max < 2 ^ w
  disjoint : l.Pairwise fun a b => a.max < b.min

variable {w a : ℕ} {l l' : List (Node α)} {n x : Node α}

@[simp] theorem look_nil (a : ℕ) : look ([] : List (Node α)) a = none := rfl

theorem look_cons (n : Node α) (l : List (Node α)) (a : ℕ) :
    look (n :: l) a = if n.min ≤ a ∧ a ≤ n.max then some n.data else look l a := by
  unfold look
  rw [List.find?_cons]
  split_ifs with h
  · simp [h]
  · simp [h]

theorem look_append (l l' : List (Node α)) (a : ℕ) : look (l ++ l') a = (look l a).or (look l' a) := by
  unfold look
  rw [List.find?_append]
  cases l.find? fun n => n.min ≤ a ∧ a ≤ n.max <;> rfl

theorem look_eq_none (h : ∀ n ∈ l, n.min ≤ a → n.max < a) : look l a = none := by
  unfold look
  rw [Option.map_eq_none_iff, List.find?_eq_none]
  intro n hn hmem
  simp only [decide_eq_true_eq] at hmem
  have := h n hn hmem.1
  omega

theorem Sorted.nil : Sorted w ([] : List (Node α)) := ⟨fun _ hn => absurd hn List.not_mem_nil, List.Pairwise.nil⟩

theorem sorted_cons : Sorted w (n :: l) ↔ n.min ≤ n.max ∧ n.max < 2 ^ w ∧ (∀ b ∈ l, n.max < b.min) ∧ Sorted w l := by
  constructor
  · intro h
    obtain ⟨h1, h2⟩ := List.pairwise_cons.mp h.disjoint
    have hn := h.range n List.mem_cons_self
    exact ⟨hn.1, hn.2, h1, fun b hb => h.range b (List.mem_cons_of_mem n hb), h2⟩
  · rintro ⟨h1, h2, h3, h4⟩
    refine ⟨fun b hb => ?_, List.pairwise_cons.mpr ⟨h3, h4.disjoint⟩⟩
    rcases List.mem_cons.mp hb with rfl | hb
    · exact ⟨h1, h2⟩
    · exact h4.range b hb

theorem sorted_append : Sorted w (l ++ l') ↔ Sorted w l ∧ Sorted w l' ∧ ∀ n ∈ l, ∀ b ∈ l', n.max < b.min := by
  constructor
  · intro h
    obtain ⟨h1, h2, h3⟩ := List.pairwise_append.mp h.disjoint
    exact ⟨⟨fun b hb => h.range b (List.mem_append_left _ hb), h1⟩, ⟨fun b hb => h.range b (List.mem_append_right _ hb), h2⟩, h3⟩
  · rintro ⟨h1, h2, h3⟩
    refine ⟨fun b hb => ?_, List.pairwise_append.mpr ⟨h1.disjoint, h2.disjoint, h3⟩⟩
    exact (List.mem_append.mp hb).elim (h1.range b) (h2.range b)

/-- below the nodes of a list there is nothing -/
theorem look_below (h : ∀ b ∈ l, a < b.min) : look l a = none :=
  look_eq_none fun b hb hba => absurd hba (not_le.mpr (h b hb))

/-! ## The tree -/

theorem Tree.contains_eq (t : Tree α) (h : Sorted w t.inorder) (a : ℕ) : t.contains a = look t.inorder a := by
  induction t with
  | leaf => rfl
  | node left n right ihl ihr =>
    rw [Tree.inorder] at h ⊢
    obtain ⟨hleft, hnr, hbefore⟩ := sorted_append.mp h
    obtain ⟨-, -, hafter, hright⟩ := sorted_cons.mp hnr
    rw [Tree.contains, look_append, look_cons, ihl hleft, ihr hright]
    split_ifs with h1 h2 h3 h3 h3
    · omega
    · -- to the left of the node
      rw [look_below fun b hb => lt_trans h1 (lt_of_le_of_lt (by have := (sorted_cons.mp hnr).1; omega) (hafter b hb)), Option.or_none]
    · omega
    · have hnone : look left.inorder a = none := look_eq_none fun b hb _ => by
        have := hbefore b hb n List.mem_cons_self
        omega
      rw [hnone, Option.none_or]
    · have hnone : look left.inorder a = none := look_eq_none fun b hb _ => by
        have := hbefore b hb n List.mem_cons_self
        omega
      rw [hnone, Option.none_or]
    · omega

/-- `lowerBound` finds the last node that starts at or below the target -/
theorem Tree.lowerBound_eq (t : Tree α) (h : Sorted w t.inorder) (target : ℕ) :
    (t.lowerBound target = none ∧ ∀ b ∈ t.inorder, target < b.min) ∨
      ∃ n before after, t.lowerBound target = some n ∧ t.inorder = before ++ n :: after ∧ n.min ≤ target ∧
        ∀ b ∈ after, target < b.min := by
  have hfrom : ∀ (t : Tree α) (zret : Option (Node α)), Sorted w t.inorder →
      (t.lowerBoundFrom target zret = zret ∧ ∀ b ∈ t.inorder, target < b.min) ∨
        ∃ n before after, t.lowerBoundFrom target zret = some n ∧ t.inorder = before ++ n :: after ∧ n.min ≤ target ∧
          ∀ b ∈ after, target < b.min := by
    intro t
    induction t with
    | leaf => exact fun zret _ => Or.inl ⟨rfl, fun b hb => absurd hb List.not_mem_nil⟩
    | node left n right ihl ihr =>
      intro zret h
      rw [Tree.inorder] at h ⊢
      obtain ⟨hleft, hnr, -⟩ := sorted_append.mp h
      obtain ⟨hn, -, hafter, hright⟩ := sorted_cons.mp hnr
      rw [Tree.lowerBoundFrom]
      split_ifs with h1 h2
      · -- the node and what is right of it start above the target
        have hlater : ∀ b ∈ n :: right.inorder, target < b.min := by
          intro b hb
          rcases List.mem_cons.mp hb with rfl | hb
          · exact h1
          · have := hafter b hb
            omega
        rcases ihl zret hleft with ⟨heq, hall⟩ | ⟨m, before, after, heq, hin, hm, hall⟩
        · exact Or.inl ⟨heq, fun b hb => (List.mem_append.mp hb).elim (hall b) (hlater b)⟩
        · refine Or.inr ⟨m, before, after ++ n :: right.inorder, heq, by rw [hin]; simp, hm, fun b hb => ?_⟩
          exact (List.mem_append.mp hb).elim (hall b) (hlater b)
      · rcases ihr (some n) hright with ⟨heq, hall⟩ | ⟨m, before, after, heq, hin, hm, hall⟩
        · exact Or.inr ⟨n, left.inorder, right.inorder, heq, rfl, by omega, hall⟩
        · exact Or.inr ⟨m, left.inorder ++ n :: before, after, heq, by rw [hin]; simp, hm, hall⟩
      · refine Or.inr ⟨n, left.inorder, right.inorder, rfl, rfl, by omega, fun b hb => ?_⟩
        have := hafter b hb
        omega
  exact hfrom t none h

section Loops

variable [DecidableEq α] {min max : ℕ} {payload : α}

/-- a node of a sorted list is there once -/
theorem around_eq {before after : List (Node α)} (h : Sorted w (before ++ n :: after)) :
    around n (before ++ n :: after) = (before, after) := by
  obtain ⟨-, hn, hbefore⟩ := sorted_append.mp h
  have hne : ∀ b ∈ before, decide (b ≠ n) = true := by
    intro b hb
    have h1 := hbefore b hb n List.mem_cons_self
    have h2 := (h.range b (List.mem_append_left _ hb)).1
    refine decide_eq_true ?_
    rintro rfl
    omega
  unfold around
  rw [List.takeWhile_append_of_pos hne, List.dropWhile_append_of_pos hne]
  simp

/-! ## Filling -/

/-- what `fill` makes of the payload of an address -/
def filled (min max : ℕ) (payload : α) (a : ℕ) (o : Option α) : Option α :=
  o.or (if min ≤ a ∧ a ≤ max then some payload else none)

/-- what the list from the carried node on is when the loop of `fill` comes to the nodes `l` -/
structure Filling (w min max : ℕ) (payload : α) (x : Option (Node α)) (l : List (Node α)) : Prop where
  sorted : Sorted w (x.toList ++ l)
  above : ∀ b ∈ l, min ≤ b.min
  le : min ≤ max
  lt : max < 2 ^ w
  carry : ∀ n, x = some n → n.data = payload ∧ n.min ≤ min ∧ n.max ≤ max ∧ min ≤ n.max + 1

/-- where the result of the loop starts -/
def first (min : ℕ) : Option (Node α) → ℕ
  | none => min
  | some x => x.min

/-- the result of the loop -/
structure Filled (w min max : ℕ) (payload : α) (x : Option (Node α)) (l r : List (Node α)) : Prop where
  sorted : Sorted w r
  above : ∀ b ∈ r, first min x ≤ b.min
  look : ∀ a, look r a = filled min max payload a (TsCore.look (x.toList ++ l) a)

omit [DecidableEq α] in
/-- the result of the loop starts with the carried node, whose end has moved; what follows are nodes of the list -/
theorem Filling.carried {m : ℕ} (h : Filling w min max payload (some x) l) (hl : ∀ b ∈ l', m < b.min) (hs : Sorted w l')
    (hsub : ∀ b ∈ l', x.max < b.min) (hm : x.min ≤ m) (hmw : m < 2 ^ w)
    (hlook : ∀ a, TsCore.look (x.setMax m :: l') a = filled min max payload a (TsCore.look (x :: l) a)) :
    Filled w min max payload (some x) l (x.setMax m :: l') := by
  refine ⟨sorted_cons.mpr ⟨hm, hmw, hl, hs⟩, fun b hb => ?_, hlook⟩
  rcases List.mem_cons.mp hb with rfl | hb
  · exact le_rfl
  · have hx := (sorted_cons.mp h.sorted).1
    have := hsub b hb
    show x.min ≤ b.min
    omega

theorem Filling.spec {x : Option (Node α)} (h : Filling w min max payload x l) :
    Filled w min max payload x l (fillLoop w max payload x min l) := by
  induction l generalizing x min with
  | nil =>
    have hle := h.le
    have hlt := h.lt
    cases x with
    | none =>
      rw [fillLoop]
      refine ⟨sorted_cons.mpr ⟨hle, hlt, by simp, Sorted.nil⟩, by simp [first], fun a => ?_⟩
      simp only [look_cons, look_nil, filled, Option.toList_none, List.nil_append, Option.none_or]
    | some x =>
      obtain ⟨hdata, hmin, hmax, hadj⟩ := h.carry x rfl
      obtain ⟨hx, -⟩ := sorted_cons.mp h.sorted
      rw [fillLoop]
      refine h.carried (by simp) Sorted.nil (by simp) (hx.trans hmax) hlt fun a => ?_
      simp only [look_cons, look_nil, filled, Node.setMax, hdata]
      split_ifs <;> first | rfl | omega
  | cons n rest ih =>
    have hle := h.le
    have hlt := h.lt
    have hnmin := h.above n List.mem_cons_self
    have habove : ∀ b ∈ rest, min ≤ b.min := fun b hb => h.above b (List.mem_cons_of_mem n hb)
    cases x with
    | none =>
      obtain ⟨hn, hnw, hafter, hsorted⟩ := sorted_cons.mp h.sorted
      have hbelow : ∀ a, a ≤ n.max → look rest a = none := fun a ha => look_below fun b hb => lt_of_le_of_lt ha (hafter b hb)
      -- the new node stands before `n`
      have hbefore : max < n.min → Filled w min max payload none (n :: rest) (⟨min, max, payload⟩ :: n :: rest) := by
        intro hlt'
        refine ⟨sorted_cons.mpr ⟨hle, hlt, fun b hb => ?_, h.sorted⟩, fun b hb => ?_, fun a => ?_⟩
        · rcases List.mem_cons.mp hb with rfl | hb
          · exact hlt'
          · exact lt_trans hlt' (lt_of_le_of_lt hn (hafter b hb))
        · rcases List.mem_cons.mp hb with rfl | hb
          · exact le_rfl
          · exact h.above b hb
        · rcases le_or_gt a n.max with ha | ha
          · simp only [look_cons, filled, Option.toList_none, List.nil_append, hbelow a ha]
            split_ifs <;> first | rfl | omega
          · simp only [look_cons, filled, Option.toList_none, List.nil_append]
            split_ifs <;> first | rfl | omega | simp
      rw [fillLoop]
      by_cases hpay : n.data = payload
      · rw [if_pos hpay]
        split_ifs with h1 h2
        · -- `n` is used for the range
          have hf : Filling w min max payload (some (n.setMin min)) rest := by
            refine ⟨sorted_cons.mpr ⟨hnmin.trans hn, hnw, hafter, hsorted⟩, habove, hle, hlt, fun y hy => ?_⟩
            obtain rfl := Option.some.inj hy
            refine ⟨hpay, le_rfl, h1, ?_⟩
            show min ≤ n.max + 1
            omega
          obtain ⟨h3, h4, h5⟩ := ih hf
          refine ⟨h3, h4, fun a => ?_⟩
          rw [h5]
          rcases le_or_gt a n.max with ha | ha
          · simp only [look_cons, filled, Node.setMin, Option.toList_some, Option.toList_none, List.singleton_append, List.nil_append, hpay, hbelow a ha]
            split_ifs <;> first | rfl | omega
          · simp only [look_cons, filled, Node.setMin, Option.toList_some, Option.toList_none, List.singleton_append, List.nil_append, hpay]
            split_ifs <;> first | rfl | omega
        · rw [inc_eq (not_le.mp h1) hnw] at h2
          refine ⟨sorted_cons.mpr ⟨hnmin.trans hn, hnw, hafter, hsorted⟩, fun b hb => ?_, fun a => ?_⟩
          · rcases List.mem_cons.mp hb with rfl | hb
            · exact le_rfl
            · exact habove b hb
          · rcases le_or_gt a n.max with ha | ha
            · simp only [look_cons, filled, Node.setMin, Option.toList_none, List.nil_append, hpay, hbelow a ha]
              split_ifs <;> first | rfl | omega
            · simp only [look_cons, filled, Node.setMin, Option.toList_none, List.nil_append, hpay]
              split_ifs <;> first | rfl | omega | simp
        · rw [inc_eq (not_le.mp h1) hnw] at h2
          exact hbefore (by omega)
      · rw [if_neg hpay]
        by_cases h1 : max < n.min
        · rw [if_pos h1]
          exact hbefore h1
        rw [if_neg h1]
        -- a node for the leading section, and the rest behind `n`
        have htail : Filled w n.min max payload none (n :: rest)
            (n :: if max ≤ n.max then rest else fillLoop w max payload none (inc w n.max) rest) := by
          split_ifs with h2
          · refine ⟨h.sorted, fun b hb => ?_, fun a => ?_⟩
            · rcases List.mem_cons.mp hb with rfl | hb
              · exact le_rfl
              · exact hn.trans (hafter b hb).le
            · rcases le_or_gt a n.max with ha | ha
              · simp only [look_cons, filled, Option.toList_none, List.nil_append, hbelow a ha]
                split_ifs <;> first | rfl | omega
              · simp only [look_cons, filled, Option.toList_none, List.nil_append]
                split_ifs <;> first | rfl | omega | simp
          · rw [inc_eq (not_le.mp h2) hlt]
            have hf : Filling w (n.max + 1) max payload none rest :=
              ⟨hsorted, fun b hb => hafter b hb, not_le.mp h2, hlt, fun y hy => by cases hy⟩
            obtain ⟨h3, h4, h5⟩ := ih hf
            refine ⟨sorted_cons.mpr ⟨hn, hnw, fun b hb => h4 b hb, h3⟩, fun b hb => ?_, fun a => ?_⟩
            · rcases List.mem_cons.mp hb with rfl | hb
              · exact le_rfl
              · exact hn.trans (Nat.le_of_succ_le (h4 b hb))
            · rcases le_or_gt a n.max with ha | ha
              · simp only [look_cons, filled, Option.toList_none, List.nil_append, h5, hbelow a ha]
                split_ifs <;> first | rfl | omega
              · simp only [look_cons, filled, Option.toList_none, List.nil_append, h5]
                split_ifs <;> first | rfl | omega
        dsimp only
        generalize (n :: if max ≤ n.max then rest else fillLoop w max payload none (inc w n.max) rest) = tail at htail ⊢
        obtain ⟨h3, h4, h5⟩ := htail
        split_ifs with h2
        · have hdec : dec w n.min = n.min - 1 := dec_eq (by omega) (lt_of_le_of_lt hn hnw)
          rw [hdec]
          refine ⟨sorted_cons.mpr ⟨by show min ≤ n.min - 1; omega, by show n.min - 1 < 2 ^ w; omega, fun b hb => ?_, h3⟩, fun b hb => ?_,
            fun a => ?_⟩
          · have := h4 b hb
            show n.min - 1 < b.min
            simp only [first] at this
            omega
          · rcases List.mem_cons.mp hb with rfl | hb
            · exact le_rfl
            · exact h2.le.trans (h4 b hb)
          · rw [List.singleton_append, look_cons, h5]
            rcases le_or_gt a n.max with ha | ha
            · simp only [look_cons, filled, Option.toList_none, List.nil_append, hbelow a ha]
              split_ifs <;> first | rfl | omega
            · simp only [look_cons, filled, Option.toList_none, List.nil_append]
              split_ifs <;> first | rfl | omega
        · obtain rfl : min = n.min := by omega
          exact ⟨h3, h4, h5⟩
    | some x =>
      obtain ⟨hdata, hmin, hmax, hadj⟩ := h.carry x rfl
      obtain ⟨hx, hxw, hxafter, hl⟩ := sorted_cons.mp h.sorted
      obtain ⟨hn, hnw, hafter, hsorted⟩ := sorted_cons.mp hl
      have hxn := hxafter n List.mem_cons_self
      have hxrest : ∀ b ∈ rest, x.max < b.min := fun b hb => hxafter b (List.mem_cons_of_mem n hb)
      have hbelow : ∀ a, a ≤ n.max → look rest a = none := fun a ha => look_below fun b hb => lt_of_le_of_lt ha (hafter b hb)
      have hlater : ∀ {m : ℕ}, m < n.min → ∀ b ∈ n :: rest, m < b.min := by
        intro m hm b hb
        rcases List.mem_cons.mp hb with rfl | hb
        · exact hm
        · exact lt_trans hm (lt_of_le_of_lt hn (hafter b hb))
      -- the range ends before `n`
      have hends : max < n.min → Filled w min max payload (some x) (n :: rest) (x.setMax max :: n :: rest) := by
        intro hlt'
        refine h.carried (hlater hlt') hl hxafter (hx.trans hmax) hlt fun a => ?_
        rcases le_or_gt a n.max with ha | ha
        · simp only [look_cons, filled, Node.setMax, hdata, hbelow a ha]
          split_ifs <;> first | rfl | omega
        · simp only [look_cons, filled, Node.setMax, hdata]
          split_ifs <;> first | rfl | omega | simp
      rw [fillLoop]
      split_ifs with hpay h1 h2 h1 h2
      · -- `n` is removed
        have hf : Filling w min max payload (some x) rest :=
          ⟨sorted_cons.mpr ⟨hx, hxw, hxrest, hsorted⟩, habove, hle, hlt, h.carry⟩
        obtain ⟨h3, h4, h5⟩ := ih hf
        refine ⟨h3, h4, fun a => ?_⟩
        rw [h5]
        rcases le_or_gt a n.max with ha | ha
        · simp only [look_cons, filled, Option.toList_some, List.singleton_append, hdata, hpay, hbelow a ha]
          split_ifs <;> first | rfl | omega
        · simp only [look_cons, filled, Option.toList_some, List.singleton_append, hdata, hpay]
          split_ifs <;> first | rfl | omega
      · rw [inc_eq (not_le.mp h1) hnw] at h2
        refine h.carried hafter hsorted hxrest (by omega) hnw fun a => ?_
        rcases le_or_gt a n.max with ha | ha
        · simp only [look_cons, filled, Node.setMax, hdata, hpay, hbelow a ha]
          split_ifs <;> first | rfl | omega
        · simp only [look_cons, filled, Node.setMax, hdata, hpay]
          split_ifs <;> first | rfl | omega | simp
      · rw [inc_eq (not_le.mp h1) hnw] at h2
        exact hends (by omega)
      · exact hends h1
      · have hdec : dec w n.min = n.min - 1 := dec_eq (by omega) (lt_of_le_of_lt hn hnw)
        rw [hdec]
        refine h.carried (hlater (by omega)) hl hxafter (by omega) (by omega) fun a => ?_
        rcases le_or_gt a n.max with ha | ha
        · simp only [look_cons, filled, Node.setMax, hdata, hbelow a ha]
          split_ifs <;> first | rfl | omega
        · simp only [look_cons, filled, Node.setMax, hdata]
          split_ifs <;> first | rfl | omega | simp
      · -- the carried node ends before `n`, and the range goes on behind it
        have hdec : dec w n.min = n.min - 1 := dec_eq (by omega) (lt_of_le_of_lt hn hnw)
        rw [hdec, inc_eq (not_le.mp h2) hlt]
        have hf : Filling w (n.max + 1) max payload none rest :=
          ⟨hsorted, fun b hb => hafter b hb, not_le.mp h2, hlt, fun y hy => by cases hy⟩
        obtain ⟨h3, h4, h5⟩ := ih hf
        have hnext : ∀ b ∈ n :: fillLoop w max payload none (n.max + 1) rest, n.min ≤ b.min := by
          intro b hb
          rcases List.mem_cons.mp hb with rfl | hb
          · exact le_rfl
          · exact hn.trans (Nat.le_of_succ_le (h4 b hb))
        refine h.carried (fun b hb => ?_) (sorted_cons.mpr ⟨hn, hnw, fun b hb => h4 b hb, h3⟩)
          (fun b hb => lt_of_lt_of_le hxn (hnext b hb)) (by omega) (by omega) fun a => ?_
        · have := hnext b hb
          omega
        · rcases le_or_gt a n.max with ha | ha
          · simp only [look_cons, filled, Node.setMax, Option.toList_none, List.nil_append, hdata, h5, hbelow a ha]
            split_ifs <;> first | rfl | omega
          · simp only [look_cons, filled, Node.setMax, Option.toList_none, List.nil_append, hdata, h5]
            split_ifs <;> first | rfl | omega

omit [DecidableEq α] in
/-- new nodes behind those that the range leaves alone -/
theorem filled_behind {before tail r : List (Node α)} (h : Sorted w (before ++ tail)) (hr : Sorted w r)
    (hsep : ∀ n ∈ before, ∀ b ∈ r, n.max < b.min) (hlook : ∀ a, look r a = filled min max payload a (look tail a)) :
    Sorted w (before ++ r) ∧ ∀ a, look (before ++ r) a = filled min max payload a (look (before ++ tail) a) := by
  refine ⟨sorted_append.mpr ⟨(sorted_append.mp h).1, hr, hsep⟩, fun a => ?_⟩
  rw [look_append, look_append, hlook]
  exact Option.or_assoc.symm

/-- `fill` keeps the payload of every address that has one, and gives the new one to the others of the range -/
theorem fill_spec (t : Tree α) (h : Sorted w t.inorder) (hle : min ≤ max) (hlt : max < 2 ^ w) :
    Sorted w (fill w t min max payload) ∧
      ∀ a, look (fill w t min max payload) a = filled min max payload a (look t.inorder a) := by
  unfold fill
  rcases t.lowerBound_eq h min with ⟨heq, hall⟩ | ⟨n, before, after, heq, hin, hnmin, hall⟩
  · -- every node starts above the range's first address
    have hf : Filling w min max payload none t.inorder := ⟨h, fun b hb => (hall b hb).le, hle, hlt, fun y hy => by cases hy⟩
    rw [heq]
    exact ⟨hf.spec.sorted, hf.spec.look⟩
  · rw [hin] at h
    obtain ⟨-, hna, hbefore⟩ := sorted_append.mp h
    obtain ⟨hn, hnw, hafter, hsorted⟩ := sorted_cons.mp hna
    have hsep : ∀ m ∈ before, ∀ k, n.min ≤ k → m.max < k := fun m hm k hk =>
      lt_of_lt_of_le (hbefore m hm n List.mem_cons_self) hk
    have hbelow : ∀ a, a ≤ n.max → look after a = none := fun a ha => look_below fun b hb => lt_of_le_of_lt ha (hafter b hb)
    rw [heq, hin]
    dsimp only
    rw [around_eq h]
    dsimp only
    split_ifs with h1 h2 h3 h4
    · -- the node ends before the range
      rw [dec_eq (by omega) (by omega)] at h2
      have hf : Filling w min max payload none after := ⟨hsorted, fun b hb => (hall b hb).le, hle, hlt, fun y hy => by cases hy⟩
      obtain ⟨h5, h6, h7⟩ := hf.spec
      have hnr : ∀ b ∈ fillLoop w max payload none min after, n.max < b.min := fun b hb => by
        have : min ≤ b.min := h6 b hb
        omega
      refine filled_behind h (sorted_cons.mpr ⟨hn, hnw, hnr, h5⟩) (fun m hm b hb => ?_) fun a => ?_
      · refine hsep m hm b.min ?_
        rcases List.mem_cons.mp hb with rfl | hb
        · exact le_rfl
        · exact hn.trans (hnr b hb).le
      · simp only [look_cons, h7, filled, Option.toList_none, List.nil_append]
        split_ifs <;> rfl
    · -- the range is covered
      refine ⟨h, fun a => ?_⟩
      rw [look_append, look_cons, filled]
      split_ifs
      · cases look before a <;> rfl
      · rw [Option.or_none]
      · omega
      · rw [Option.or_none]
    · rw [inc_eq (not_le.mp h3) hlt]
      have hf : Filling w (n.max + 1) max payload none after :=
        ⟨hsorted, fun b hb => hafter b hb, not_le.mp h3, hlt, fun y hy => by cases hy⟩
      obtain ⟨h5, h6, h7⟩ := hf.spec
      have hnr : ∀ b ∈ fillLoop w max payload none (n.max + 1) after, n.max < b.min := fun b hb => h6 b hb
      refine filled_behind h (sorted_cons.mpr ⟨hn, hnw, hnr, h5⟩) (fun m hm b hb => ?_) fun a => ?_
      · refine hsep m hm b.min ?_
        rcases List.mem_cons.mp hb with rfl | hb
        · exact le_rfl
        · exact hn.trans (hnr b hb).le
      · rw [dec_eq (by omega) (by omega)] at h2
        simp only [look_cons, h7, filled, Option.toList_none, List.nil_append]
        split_ifs <;> first | rfl | omega
    · rw [dec_eq (by omega) (by omega)] at h2
      have hf : Filling w min max payload (some n) after := by
        refine ⟨hna, fun b hb => (hall b hb).le, hle, hlt, fun y hy => ?_⟩
        obtain rfl := Option.some.inj hy
        exact ⟨not_not.mp h4, h1.le, (not_le.mp h3).le, by omega⟩
      obtain ⟨h5, h6, h7⟩ := hf.spec
      exact filled_behind h h5 (fun m hm b hb => hsep m hm b.min (h6 b hb)) h7
    · obtain rfl : n.min = min := by omega
      have hf : Filling w n.min max payload none (n :: after) := by
        refine ⟨hna, fun b hb => ?_, hle, hlt, fun y hy => by cases hy⟩
        rcases List.mem_cons.mp hb with rfl | hb
        · exact le_rfl
        · exact (hall b hb).le
      obtain ⟨h5, h6, h7⟩ := hf.spec
      exact filled_behind h h5 (fun m hm b hb => hsep m hm b.min (h6 b hb)) h7

/-! ## Removing -/

/-- what `unmark` makes of the payload of an address -/
def cleared (min max a : ℕ) (o : Option α) : Option α := if min ≤ a ∧ a ≤ max then none else o

theorem unmarkLoop_spec (l : List (Node α)) (h : Sorted w l) (habove : ∀ b ∈ l, min ≤ b.min) :
    Sorted w (unmarkLoop w max l) ∧ (∀ lo, (∀ b ∈ l, lo < b.min) → ∀ b ∈ unmarkLoop w max l, lo < b.min) ∧
      ∀ a, look (unmarkLoop w max l) a = cleared min max a (look l a) := by
  induction l with
  | nil => exact ⟨Sorted.nil, fun lo hlo => hlo, fun a => by simp [unmarkLoop, cleared]⟩
  | cons x rest ih =>
    obtain ⟨hx, hxw, hafter, hsorted⟩ := sorted_cons.mp h
    have hxmin := habove x List.mem_cons_self
    have hbelow : ∀ a, a ≤ x.max → look rest a = none := fun a ha => look_below fun b hb => lt_of_le_of_lt ha (hafter b hb)
    rw [unmarkLoop]
    split_ifs with h1 h2
    · obtain ⟨h3, h4, h5⟩ := ih hsorted fun b hb => habove b (List.mem_cons_of_mem x hb)
      refine ⟨h3, fun lo hlo => h4 lo fun b hb => hlo b (List.mem_cons_of_mem x hb), fun a => ?_⟩
      rw [h5, look_cons]
      unfold cleared
      split_ifs <;> first | rfl | omega
    · -- the node is clipped, and what follows starts behind the range
      rw [inc_eq (not_le.mp h1) hxw]
      refine ⟨sorted_cons.mpr ⟨by show max + 1 ≤ x.max; omega, hxw, hafter, hsorted⟩, fun lo hlo b hb => ?_, fun a => ?_⟩
      · rcases List.mem_cons.mp hb with rfl | hb
        · have := hlo x List.mem_cons_self
          show lo < max + 1
          omega
        · exact hlo b (List.mem_cons_of_mem x hb)
      · rcases le_or_gt a x.max with ha | ha
        · simp only [look_cons, cleared, Node.setMin, hbelow a ha]
          split_ifs <;> first | rfl | omega
        · simp only [look_cons, cleared, Node.setMin]
          split_ifs <;> first | rfl | omega
    · refine ⟨h, fun lo hlo => hlo, fun a => ?_⟩
      rw [look_cons]
      unfold cleared
      rcases le_or_gt a x.max with ha | ha
      · rw [hbelow a ha]
        split_ifs <;> first | rfl | omega
      · split_ifs <;> first | rfl | omega

/-- `unmark` with a node to start from -/
theorem unmark_some (t : Tree α) (h : Sorted w t.inorder) (hle : min ≤ max) (hstart : ∃ b ∈ t.inorder, b.min ≤ min) :
    Sorted w (unmark w t min max) ∧ ∀ a, look (unmark w t min max) a = cleared min max a (look t.inorder a) := by
  unfold unmark
  rcases t.lowerBound_eq h min with ⟨heq, hall⟩ | ⟨n, before, after, heq, hin, hnmin, hall⟩
  · obtain ⟨b, hb, hbmin⟩ := hstart
    exact absurd hbmin (not_le.mpr (hall b hb))
  · rw [hin] at h
    obtain ⟨hsb, hna, hbefore⟩ := sorted_append.mp h
    obtain ⟨hn, hnw, hafter, hsorted⟩ := sorted_cons.mp hna
    have hbelow : ∀ a, a ≤ n.max → look after a = none := fun a ha => look_below fun b hb => lt_of_le_of_lt ha (hafter b hb)
    -- the nodes before `n` end below the range
    have hglue : ∀ {r : List (Node α)}, Sorted w r → (∀ b ∈ r, n.min ≤ b.min) →
        (∀ a, look r a = cleared min max a (look (n :: after) a)) →
        Sorted w (before ++ r) ∧ ∀ a, look (before ++ r) a = cleared min max a (look (before ++ n :: after) a) := by
      intro r hr habove hlook
      have hsep : ∀ m ∈ before, m.max < n.min := fun m hm => hbefore m hm n List.mem_cons_self
      refine ⟨sorted_append.mpr ⟨hsb, hr, fun m hm b hb => lt_of_lt_of_le (hsep m hm) (habove b hb)⟩, fun a => ?_⟩
      rw [look_append, look_append, hlook]
      unfold cleared
      split_ifs with ha
      · rw [Option.or_none]
        exact look_eq_none fun m hm _ => by have := hsep m hm; omega
      · rfl
    have hloop := @unmarkLoop_spec _ w _ min max after hsorted fun b hb => (hall b hb).le
    obtain ⟨h3, h4, h5⟩ := hloop
    rw [heq, hin]
    dsimp only
    rw [around_eq h]
    dsimp only
    split_ifs with h1 h2 h6
    · -- the node is split around the range
      rw [dec_eq (by omega) (by omega), inc_eq h6 hnw]
      refine hglue ?_ (fun b hb => ?_) fun a => ?_
      · refine sorted_cons.mpr ⟨by show n.min ≤ min - 1; omega, by show min - 1 < 2 ^ w; omega, fun b hb => ?_,
          sorted_cons.mpr ⟨h6, hnw, hafter, hsorted⟩⟩
        rcases List.mem_cons.mp hb with rfl | hb
        · show min - 1 < max + 1
          omega
        · have := hafter b hb
          show min - 1 < b.min
          omega
      · rcases List.mem_cons.mp hb with rfl | hb
        · exact le_rfl
        rcases List.mem_cons.mp hb with rfl | hb
        · show n.min ≤ max + 1
          omega
        · exact hn.trans (hafter b hb).le
      · rcases le_or_gt a n.max with ha | ha
        · simp only [look_cons, cleared, Node.setMax, hbelow a ha]
          split_ifs <;> first | rfl | omega
        · simp only [look_cons, cleared, Node.setMax]
          split_ifs <;> first | rfl | omega
    · -- the node is clipped
      rw [dec_eq (by omega) (by omega)]
      have hnr := h4 n.max hafter
      refine hglue (sorted_cons.mpr ⟨by show n.min ≤ min - 1; omega, by show min - 1 < 2 ^ w; omega, fun b hb => ?_, h3⟩)
        (fun b hb => ?_) fun a => ?_
      · have := hnr b hb
        show min - 1 < b.min
        omega
      · rcases List.mem_cons.mp hb with rfl | hb
        · exact le_rfl
        · exact hn.trans (hnr b hb).le
      · simp only [look_cons, h5, cleared, Node.setMax]
        split_ifs <;> first | rfl | omega
    · have hnr := h4 n.max hafter
      refine hglue (sorted_cons.mpr ⟨hn, hnw, hnr, h3⟩) (fun b hb => ?_) fun a => ?_
      · rcases List.mem_cons.mp hb with rfl | hb
        · exact le_rfl
        · exact hn.trans (hnr b hb).le
      · rw [look_cons, look_cons, h5]
        unfold cleared
        split_ifs <;> first | rfl | omega
    · obtain rfl : n.min = min := by omega
      have habove : ∀ b ∈ n :: after, n.min ≤ b.min := by
        intro b hb
        rcases List.mem_cons.mp hb with rfl | hb
        · exact le_rfl
        · exact (hall b hb).le
      obtain ⟨h7, h8, h9⟩ := @unmarkLoop_spec _ w _ n.min max (n :: after) hna habove
      refine hglue h7 (fun b hb => ?_) h9
      rcases Nat.eq_zero_or_pos n.min with h0 | h0
      · omega
      · have := h8 (n.min - 1) (fun b hb => by have := habove b hb; omega) b hb
        omega

/-- without a node to start from nothing happens -/
theorem unmark_none (t : Tree α) (h : Sorted w t.inorder) (hstart : ¬ ∃ b ∈ t.inorder, b.min ≤ min) :
    unmark w t min max = t.inorder := by
  unfold unmark
  rcases t.lowerBound_eq h min with ⟨heq, -⟩ | ⟨n, before, after, -, hin, hnmin, -⟩
  · rw [heq]
  · exact absurd ⟨n, by rw [hin]; simp, hnmin⟩ hstart

/-- Filling adds exactly the free addresses of the range. Unmarking removes exactly those of the range when some node starts at or below
it, or no node meets it. Both leave the nodes in order and disjoint, and any search tree over them finds what the list says. -/
theorem fill_unmark (t tf tu : Tree α) (h : Sorted w t.inorder) (hle : min ≤ max) (hlt : max < 2 ^ w)
    (hf : tf.inorder = fill w t min max payload) (hu : tu.inorder = unmark w t min max) :
    (Sorted w tf.inorder ∧ (∀ a, tf.contains a = look tf.inorder a) ∧
      ∀ a < 2 ^ w, look tf.inorder a = (look t.inorder a).or (if min ≤ a ∧ a ≤ max then some payload else none)) ∧
    Sorted w tu.inorder ∧ (∀ a, tu.contains a = look tu.inorder a) ∧
    ((∀ a < 2 ^ w, look tu.inorder a = if min ≤ a ∧ a ≤ max then none else look t.inorder a) ↔
      (∃ b ∈ t.inorder, b.min ≤ min) ∨ ∀ b ∈ t.inorder, max < b.min) := by
  obtain ⟨h1, h2⟩ := @fill_spec _ w _ min max payload t h hle hlt
  rw [← hf] at h1 h2
  refine ⟨⟨h1, tf.contains_eq h1, fun a _ => h2 a⟩, ?_⟩
  by_cases hstart : ∃ b ∈ t.inorder, b.min ≤ min
  · obtain ⟨h3, h4⟩ := @unmark_some _ w _ min max t h hle hstart
    rw [← hu] at h3 h4
    exact ⟨h3, tu.contains_eq h3, fun _ => Or.inl hstart, fun _ a _ => h4 a⟩
  · have hsame := hu.trans (@unmark_none _ w _ min max t h hstart)
    have h3 : Sorted w tu.inorder := by rw [hsame]; exact h
    refine ⟨h3, tu.contains_eq h3, fun hall => Or.inr fun b hb => ?_, fun hcond a _ => ?_⟩
    · -- a node that starts in the range is still there
      by_contra hbmax
      have hbmin : ¬ b.min ≤ min := fun hb' => hstart ⟨b, hb, hb'⟩
      obtain ⟨hbr, hbw⟩ := h.range b hb
      have hnone := hall b.min (by omega)
      rw [hsame, if_pos ⟨by omega, by omega⟩] at hnone
      unfold look at hnone
      rw [Option.map_eq_none_iff, List.find?_eq_none] at hnone
      exact hnone b hb (decide_eq_true ⟨le_rfl, hbr⟩)
    · rw [hsame]
      split_ifs with ha
      · have hbelow := hcond.resolve_left hstart
        exact look_below fun b hb => lt_of_le_of_lt ha.2 (hbelow b hb)
      · rfl

end Loops

/-- one node for the addresses 10 to 20 -/
def single : Tree Unit := .node .leaf ⟨10, 20, ()⟩ .leaf

theorem single_sorted : Sorted 32 single.inorder := sorted_cons.mpr ⟨by decide, by decide, by simp [Tree.inorder], Sorted.nil⟩

/-- the addresses 5 to 30 are unmarked, and 15 stays -/
theorem unmark_single : Sorted 32 single.inorder ∧ unmark 32 single 5 30 = [⟨10, 20, ()⟩] ∧
    ¬ ∀ a < 2 ^ 32, look (unmark 32 single 5 30) a = if 5 ≤ a ∧ a ≤ 30 then none else look single.inorder a := by
  refine ⟨single_sorted, by decide, fun hall => ?_⟩
  have h15 := hall 15 (by decide)
  revert h15
  decide

/-- filled from 5 to 30 -/
theorem fill_unmark_single :
    let tf : Tree Unit := .node .leaf ⟨5, 30, ()⟩ .leaf
    tf.contains 7 = look tf.inorder 7 := by
  intro tf
  have hfill : tf.inorder = fill 32 single 5 30 () := by decide
  have hunmark : single.inorder = unmark 32 single 5 30 := by decide
  exact (fill_unmark single tf single single_sorted (by decide) (by decide) hfill hunmark).1.2.1 7

end TrafficServer.TsCore
