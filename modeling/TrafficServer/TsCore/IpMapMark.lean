/-
`IpMapBase::mark` (`src/tscore/IpMap.cc`): a range of addresses gets a payload, whatever it had.

The first part finds or makes the node `x` for the range. It has done everything when the range lies in one node; else the nodes from `n` on
are cleared off the range, and those that touch `x` with the same payload become part of it. That loop has no branch for a node with another
payload that starts right behind the range, and stays at it.

`Marking` is what the first part leaves for the loop, `markTurn_spec` is the loop. The result is `mark_iff`: `mark` does what it should exactly
if there is no such node, or the range is the end of a node that has the payload already.
-/
import Mathlib
import TrafficServer.Lib.Loop
import TrafficServer.TsCore.IpMap

namespace TrafficServer.TsCore

open TrafficServer.Loop

variable {α : Type*}

/-! ## The function -/

def Node.setData (n : Node α) (data : α) : Node α := { n with data := data }

section Operations

variable [DecidableEq α]

/-- The part in front of the loop: the list, when it returns, or the nodes before `x`, `x` itself, and the nodes from `n` on. -/
def markStart (w : ℕ) (t : Tree α) (min max : ℕ) (payload : α) : List (Node α) ⊕ List (Node α) × Node α × List (Node α) :=
  let maxPlus := inc w max
  match t.lowerBound min with
  | some n =>
    let (before, after) := around n t.inorder
    let min1 := dec w min
    if n.min = min then
      match before.getLast?.filter fun p => p.data = payload ∧ p.max = min1 with
      | some p => .inr (before.dropLast, p.setMax max, n :: after)
      | none =>
        -- span will be subsumed by request span so it's available for use
        if n.max ≤ max then .inr (before, (n.setMax max).setData payload, after)
        -- request is covered by existing span with the same data
        else if n.data = payload then .inl t.inorder
        -- request span is covered by existing span: clip existing
        else .inl (before ++ ⟨min, max, payload⟩ :: n.setMin maxPlus :: after)
    else if n.data = payload ∧ n.max ≥ min1 then
      if n.max ≥ max then .inl t.inorder else .inr (before, n.setMax max, after)
    else if n.max ≤ max then
      -- clip if overlap
      if n.max ≥ min then .inr (before ++ [n.setMax min1], ⟨min, max, payload⟩, after)
      else
        -- the request covers the next node, it can be reused
        match after with
        | y :: rest =>
          if y.max ≤ max then .inr (before ++ [n], ((y.setMin min).setMax max).setData payload, rest)
          else .inr (before ++ [n], ⟨min, max, payload⟩, y :: rest)
        | [] => .inr (before ++ [n], ⟨min, max, payload⟩, [])
    -- existing span covers new span but with a different payload
    else .inl (before ++ n.setMax min1 :: ⟨min, max, payload⟩ :: ⟨maxPlus, n.max, n.data⟩ :: after)
  | none =>
    match t.inorder with
    | n :: rest =>
      -- same payload with overlap, re-use
      if n.data = payload ∧ (n.max ≤ max ∨ n.min ≤ maxPlus) then
        .inr ([], if n.max < max then (n.setMin min).setMax max else n.setMin min, rest)
      else .inr ([], ⟨min, max, payload⟩, n :: rest)
    | [] => .inr ([], ⟨min, max, payload⟩, [])

/-- a turn of the loop, with `x` and the nodes from `n` on; the result is the list from `x` on -/
def markTurn (w max : ℕ) (payload : α) : Node α × List (Node α) → Node α × List (Node α) ⊕ List (Node α)
  | (x, []) => .inr [x]
  | (x, n :: rest) =>
    -- completely covered, drop span, continue
    if n.max ≤ max then .inl (x, rest)
    -- no overlap, done
    else if inc w max < n.min then .inr (x :: n :: rest)
    -- skew overlap or adj., same payload
    else if n.data = payload then .inl (x.setMax n.max, rest)
    -- skew overlap different payload
    else if n.min ≤ max then .inr (x :: n.setMin (inc w max) :: rest)
    else .inl (x, n :: rest)

/-- `mark` ends with this list -/
def Mark (w : ℕ) (t : Tree α) (min max : ℕ) (payload : α) (l : List (Node α)) : Prop :=
  match markStart w t min max payload with
  | .inl l' => l = l'
  | .inr (before, x, rest) => ∃ r, Returns (markTurn w max payload) (x, rest) r ∧ l = before ++ r

end Operations

/-- what `mark` should make of the payload of an address -/
def marked (min max : ℕ) (payload : α) (a : ℕ) (o : Option α) : Option α := if min ≤ a ∧ a ≤ max then some payload else o

variable {w a min max : ℕ} {payload : α} {l l' before rest r : List (Node α)} {n x : Node α}

/-! ## The loop -/

/-- a node that the loop stays at -/
def Blocks (max : ℕ) (payload : α) (s : Node α) : Prop := s.min = max + 1 ∧ s.data ≠ payload

/-- What the loop starts from, and keeps: `x` covers the range from where it starts, and no node to come but one behind the range meets it. -/
structure Turning (w max : ℕ) (payload : α) (x : Node α) (rest : List (Node α)) : Prop where
  sorted : Sorted w rest
  data : x.data = payload
  le : x.min ≤ max
  covers : max ≤ x.max
  lt : x.max < 2 ^ w
  above : ∀ b ∈ rest, x.min ≤ b.min
  apart : x.max = max ∨ ∀ b ∈ rest, x.max < b.min

/-- the result of the loop -/
structure Turned (w : ℕ) (x : Node α) (rest r : List (Node α)) : Prop where
  sorted : Sorted w r
  above : ∀ b ∈ r, x.min ≤ b.min
  look : ∀ a, look r a = if x.min ≤ a ∧ a ≤ x.max then some x.data else TsCore.look rest a

section Loop

variable [DecidableEq α]

omit [DecidableEq α] in
/-- `x` stands in front of what is left -/
theorem Turning.done (h : Turning w max payload x rest) (hs : Sorted w r) (hr : ∀ b ∈ r, x.max < b.min)
    (hlook : ∀ a, x.max < a → look r a = look rest a) : Turned w x rest (x :: r) := by
  have hle : x.min ≤ x.max := h.le.trans h.covers
  refine ⟨sorted_cons.mpr ⟨hle, h.lt, hr, hs⟩, fun b hb => ?_, fun a => ?_⟩
  · rcases List.mem_cons.mp hb with rfl | hb
    · exact le_rfl
    · exact hle.trans (hr b hb).le
  · rw [look_cons]
    split_ifs with ha
    · rfl
    · rcases lt_or_ge x.max a with hlt | hge
      · exact hlook a hlt
      · -- below `x` there is nothing
        have hax : a < x.min := by omega
        rw [look_below fun b hb => lt_of_le_of_lt hge (hr b hb), look_below fun b hb => lt_of_lt_of_le hax (h.above b hb)]

theorem Turning.spec (h : Turning w max payload x rest) (hfree : ∀ s ∈ rest, ¬ Blocks max payload s) :
    ∃ r, Returns (markTurn w max payload) (x, rest) r ∧ Turned w x rest r := by
  induction rest generalizing x with
  | nil => exact ⟨[x], .leave rfl, h.done Sorted.nil (by simp) fun _ _ => rfl⟩
  | cons n rest ih =>
    obtain ⟨hn, hnw, hafter, hsorted⟩ := sorted_cons.mp h.sorted
    have hle := h.le
    have hcovers := h.covers
    have hxn := h.above n List.mem_cons_self
    have habove : ∀ b ∈ rest, x.min ≤ b.min := fun b hb => h.above b (List.mem_cons_of_mem n hb)
    have hfree' : ∀ s ∈ rest, ¬ Blocks max payload s := fun s hs => hfree s (List.mem_cons_of_mem n hs)
    have hapart : x.max = max ∨ x.max < n.min := h.apart.imp_right fun hall => hall n List.mem_cons_self
    by_cases h1 : n.max ≤ max
    · -- the node is dropped
      have hnext : Turning w max payload x rest :=
        ⟨hsorted, h.data, hle, hcovers, h.lt, habove, h.apart.imp_right fun hall b hb => hall b (List.mem_cons_of_mem n hb)⟩
      obtain ⟨r, hreturns, hr⟩ := ih hnext hfree'
      refine ⟨r, .next (if_pos h1) hreturns, hr.sorted, hr.above, fun a => ?_⟩
      rw [hr.look, look_cons]
      split_ifs <;> first | rfl | omega
    · have hinc : inc w max = max + 1 := inc_eq (not_le.mp h1) hnw
      by_cases h2 : max + 1 < n.min
      · -- the node is behind the range and does not touch it
        have hlt : x.max < n.min := by omega
        refine ⟨x :: n :: rest, .leave ?_, h.done h.sorted (fun b hb => ?_) fun _ _ => rfl⟩
        · rw [markTurn, if_neg h1, hinc, if_pos h2]
        · rcases List.mem_cons.mp hb with rfl | hb
          · exact hlt
          · exact hlt.trans (lt_of_le_of_lt hn (hafter b hb))
      · by_cases h3 : n.data = payload
        · -- the node becomes a part of `x`
          have hnext : Turning w max payload (x.setMax n.max) rest :=
            ⟨hsorted, h.data, hle, (not_le.mp h1).le, hnw, habove, Or.inr hafter⟩
          obtain ⟨r, hreturns, hr⟩ := ih hnext hfree'
          refine ⟨r, .next ?_ hreturns, hr.sorted, hr.above, fun a => ?_⟩
          · rw [markTurn, if_neg h1, hinc, if_neg h2, if_pos h3]
          · rw [hr.look, look_cons]
            simp only [Node.setMax, h.data, h3]
            split_ifs <;> first | rfl | omega
        · by_cases h4 : n.min ≤ max
          · -- the node is clipped
            have hxmax : x.max = max := by omega
            have hclipped : Sorted w (n.setMin (max + 1) :: rest) := sorted_cons.mpr ⟨not_le.mp h1, hnw, hafter, hsorted⟩
            refine ⟨x :: n.setMin (max + 1) :: rest, .leave ?_, h.done hclipped (fun b hb => ?_) fun a ha => ?_⟩
            · rw [markTurn, if_neg h1, hinc, if_neg h2, if_neg h3, if_pos h4]
            · rcases List.mem_cons.mp hb with rfl | hb
              · show x.max < max + 1
                omega
              · have := hafter b hb
                omega
            · simp only [look_cons, Node.setMin]
              split_ifs <;> first | rfl | omega
          · exact absurd ⟨by omega, h3⟩ (hfree n List.mem_cons_self)

/-- At a node that blocks the loop does not end: every node in front of it is dropped. -/
theorem not_ends_of_blocks (h : Sorted w rest) {s : Node α} (hs : s ∈ rest) (hblocks : Blocks max payload s) :
    ¬ Ends (markTurn w max payload) (x, rest) := by
  refine not_ends_of_kept (P := fun st => Sorted w st.2 ∧ s ∈ st.2) ?_ ⟨h, hs⟩
  rintro ⟨x, rest⟩ ⟨h, hs⟩
  cases rest with
  | nil => exact absurd hs List.not_mem_nil
  | cons n rest =>
    obtain ⟨hn, hnw, hafter, hsorted⟩ := sorted_cons.mp h
    obtain ⟨hmin, hdata⟩ := hblocks
    rcases List.mem_cons.mp hs with rfl | hs'
    · have hinc : inc w max = max + 1 := inc_eq (by omega) hnw
      refine ⟨(x, s :: rest), ?_, h, hs⟩
      rw [markTurn, if_neg (by omega), hinc, if_neg (by omega), if_neg hdata, if_neg (by omega)]
    · have := hafter s hs'
      exact ⟨(x, rest), if_pos (by omega), hsorted, hs'⟩

end Loop

/-! ## The first part -/

/-- what the first part leaves for the loop, of the nodes `l` -/
structure Marking (w min max : ℕ) (payload : α) (l before : List (Node α)) (x : Node α) (rest : List (Node α)) : Prop where
  turning : Turning w max payload x rest
  sorted : Sorted w before
  apart : ∀ m ∈ before, m.max < x.min
  look : ∀ a, (TsCore.look before a).or (if x.min ≤ a ∧ a ≤ x.max then some payload else TsCore.look rest a) =
    marked min max payload a (TsCore.look l a)
  blocks : ∀ s, Blocks max payload s → (s ∈ l ↔ s ∈ rest)

/-- the range is the end of a node that has the payload -/
def Covered (min max : ℕ) (payload : α) (l : List (Node α)) : Prop := ∃ n ∈ l, n.min < min ∧ n.max = max ∧ n.data = payload

theorem marked_of_or (o : Option α) {o' : Option α} (h : min ≤ a → o = none) :
    o.or (marked min max payload a o') = marked min max payload a (o.or o') := by
  unfold marked
  split_ifs with ha
  · rw [h ha.1, Option.none_or]
  · rfl

/-- nodes in front that the range leaves alone -/
theorem Marking.behind {before' : List (Node α)} (h : Marking w min max payload l before' x rest) (hs : Sorted w before)
    (hle : min ≤ max) (hmin : ∀ m ∈ before, m.max < min) (happart : ∀ m ∈ before, ∀ b ∈ before', m.max < b.min)
    (hx : ∀ m ∈ before, m.max < x.min) : Marking w min max payload (before ++ l) (before ++ before') x rest := by
  refine ⟨h.turning, sorted_append.mpr ⟨hs, h.sorted, happart⟩, fun m hm => (List.mem_append.mp hm).elim (hx m) (h.apart m), fun a => ?_, fun s hblocks => ?_⟩
  · rw [look_append, look_append, Option.or_assoc, h.look]
    refine marked_of_or _ fun ha => look_eq_none fun m hm _ => ?_
    have := hmin m hm
    omega
  · rw [List.mem_append, h.blocks s hblocks]
    refine or_iff_right fun hin => ?_
    have h1 := hmin s hin
    have h2 := (hs.range s hin).1
    have h3 := hblocks.1
    omega

/-- a new node for the range, in front of all nodes -/
theorem marking_new (hs : Sorted w l) (habove : ∀ b ∈ l, min ≤ b.min) (hle : min ≤ max) (hlt : max < 2 ^ w) :
    Marking w min max payload l [] ⟨min, max, payload⟩ l where
  turning := ⟨hs, rfl, hle, le_rfl, hlt, habove, Or.inl rfl⟩
  sorted := Sorted.nil
  apart := fun _ hm => absurd hm List.not_mem_nil
  look := fun _ => rfl
  blocks := fun _ _ => Iff.rfl

/-- A node becomes the one for the range. Where that goes over the range, it has the payload and touches it. -/
theorem marking_reuse (hs : Sorted w (n :: rest)) (hle : min ≤ max) (hlt : max < 2 ^ w) {lo hi : ℕ} (hlo : lo ≤ n.min) (hhi : n.max ≤ hi)
    (hmin : lo = min ∨ lo < min ∧ n.data = payload ∧ n.min = lo ∧ min ≤ n.max + 1)
    (hmax : hi = max ∨ max < hi ∧ n.data = payload ∧ n.max = hi ∧ n.min ≤ max + 1) :
    Marking w min max payload (n :: rest) [] ⟨lo, hi, payload⟩ rest := by
  obtain ⟨hn, hnw, hafter, hsorted⟩ := sorted_cons.mp hs
  refine ⟨⟨hsorted, rfl, by show lo ≤ max; omega, by show max ≤ hi; omega, by show hi < 2 ^ w; omega, fun b hb => ?_, ?_⟩, Sorted.nil,
    fun _ hm => absurd hm List.not_mem_nil, fun a => ?_, fun s hblocks => ?_⟩
  · have := hafter b hb
    show lo ≤ b.min
    omega
  · refine hmax.imp id fun hover b hb => ?_
    have := hafter b hb
    show hi < b.min
    omega
  · rw [look_nil, Option.none_or, marked, look_cons]
    dsimp only
    by_cases hdata : n.data = payload
    · rw [hdata]
      split_ifs <;> first | rfl | omega
    · have hlo' : lo = min := hmin.resolve_right fun hover => hdata hover.2.1
      have hhi' : hi = max := hmax.resolve_right fun hover => hdata hover.2.1
      rw [hlo', hhi']
      split_ifs <;> first | rfl | omega
  · rw [List.mem_cons]
    refine or_iff_right ?_
    rintro rfl
    have h1 := hblocks.1
    rcases hmax with hmax | hmax
    · omega
    · exact hblocks.2 hmax.2.1

section Start

variable [DecidableEq α]

/-- what `mark` should do: end, with a list that is in order and has the payload in the range -/
def MarkOk (w : ℕ) (t : Tree α) (min max : ℕ) (payload : α) : Prop :=
  ∃ l, Mark w t min max payload l ∧ Sorted w l ∧ ∀ a, look l a = marked min max payload a (look t.inorder a)

/-- no node blocks, or the range is the end of a node that has the payload -/
def MarkFree (min max : ℕ) (payload : α) (l : List (Node α)) : Prop := (∀ s ∈ l, ¬ Blocks max payload s) ∨ Covered min max payload l

theorem markOk_of_inl {t : Tree α} (heq : markStart w t min max payload = .inl l) (hs : Sorted w l)
    (hlook : ∀ a, look l a = marked min max payload a (look t.inorder a)) : MarkOk w t min max payload := by
  refine ⟨l, ?_, hs, hlook⟩
  rw [Mark, heq]

theorem Marking.markOk_iff {t : Tree α} (heq : markStart w t min max payload = .inr (before, x, rest))
    (h : Marking w min max payload t.inorder before x rest) : MarkOk w t min max payload ↔ ∀ s ∈ t.inorder, ¬ Blocks max payload s := by
  constructor
  · rintro ⟨l, hmark, -⟩ s hs hblocks
    rw [Mark, heq] at hmark
    obtain ⟨r, hreturns, -⟩ := hmark
    exact not_ends_of_blocks h.turning.sorted ((h.blocks s hblocks).mp hs) hblocks hreturns.ends
  · intro hfree
    obtain ⟨r, hreturns, hr⟩ := h.turning.spec fun s hs hblocks => hfree s ((h.blocks s hblocks).mpr hs) hblocks
    refine ⟨before ++ r, ?_, ?_, fun a => ?_⟩
    · rw [Mark, heq]
      exact ⟨r, hreturns, rfl⟩
    · exact sorted_append.mpr ⟨h.sorted, hr.sorted, fun m hm b hb => lt_of_lt_of_le (h.apart m hm) (hr.above b hb)⟩
    · rw [look_append, hr.look, h.turning.data]
      exact h.look a

omit [DecidableEq α] in
/-- a node over the end of the range leaves no place for one that starts right behind it -/
theorem Sorted.not_blocks (h : Sorted w (before ++ n :: rest)) (hmin : n.min ≤ max) (hmax : max < n.max) :
    ∀ s ∈ before ++ n :: rest, ¬ Blocks max payload s := by
  rintro s hs ⟨hstart, -⟩
  obtain ⟨-, hn, hbefore⟩ := sorted_append.mp h
  obtain ⟨-, -, hafter, -⟩ := sorted_cons.mp hn
  have hrange := (h.range s hs).1
  rcases List.mem_append.mp hs with hs | hs
  · have := hbefore s hs n List.mem_cons_self
    omega
  · rcases List.mem_cons.mp hs with rfl | hs
    · omega
    · have := hafter s hs
      omega

omit [DecidableEq α] in
theorem Sorted.covered_iff (payload : α) (h : Sorted w (before ++ n :: rest)) (hle : min ≤ max) (hmin : n.min ≤ min) (hrest : ∀ b ∈ rest, min < b.min) :
    Covered min max payload (before ++ n :: rest) ↔ n.min < min ∧ n.max = max ∧ n.data = payload := by
  refine ⟨?_, fun hn => ⟨n, List.mem_append_right _ List.mem_cons_self, hn⟩⟩
  rintro ⟨m, hm, hcover⟩
  obtain ⟨-, -, hbefore⟩ := sorted_append.mp h
  rcases List.mem_append.mp hm with hm | hm
  · have := hbefore m hm n List.mem_cons_self
    omega
  · rcases List.mem_cons.mp hm with rfl | hm
    · exact hcover
    · have := hrest m hm
      omega

/-- behind the first part, with a node that starts at or below the range -/
theorem markOk_of_marking {t : Tree α} {before' : List (Node α)} (heq : markStart w t min max payload = .inr (before', x, rest))
    (h : Marking w min max payload t.inorder before' x rest) (hnot : ¬ Covered min max payload t.inorder) :
    MarkOk w t min max payload ↔ MarkFree min max payload t.inorder :=
  (h.markOk_iff heq).trans (or_iff_left hnot).symm

/-- every node starts above the range's first address -/
theorem mark_iff_none (t : Tree α) (h : Sorted w t.inorder) (hle : min ≤ max) (hlt : max < 2 ^ w) (heq : t.lowerBound min = none)
    (hall : ∀ b ∈ t.inorder, min < b.min) : MarkOk w t min max payload ↔ MarkFree min max payload t.inorder := by
  have hnot : ¬ Covered min max payload t.inorder := by
    rintro ⟨m, hm, hcover⟩
    have := hall m hm
    omega
  have hnew : Marking w min max payload t.inorder [] ⟨min, max, payload⟩ t.inorder := marking_new h (fun b hb => (hall b hb).le) hle hlt
  cases hl : t.inorder with
  | nil =>
    rw [← hl]
    refine markOk_of_marking ?_ hnew hnot
    rw [markStart, heq, hl]
  | cons n rest =>
    rw [hl] at h hall hnot hnew
    obtain ⟨hn, hnw, -⟩ := sorted_cons.mp h
    have hnmin := hall n List.mem_cons_self
    rw [← hl] at hnot hnew ⊢
    by_cases huse : n.data = payload ∧ (n.max ≤ max ∨ n.min ≤ inc w max)
    · have hhi : n.max ≤ max ∨ max < n.max ∧ n.min ≤ max + 1 := by
        rcases le_or_gt n.max max with hmax | hmax
        · exact Or.inl hmax
        · have hplus := huse.2.resolve_left (not_le.mpr hmax)
          rw [inc_eq hmax hnw] at hplus
          exact Or.inr ⟨hmax, hplus⟩
      have hreuse : Marking w min max payload t.inorder [] (if n.max < max then (n.setMin min).setMax max else n.setMin min) rest := by
        rw [hl]
        have hx : (if n.max < max then (n.setMin min).setMax max else n.setMin min) = ⟨min, if n.max < max then max else n.max, payload⟩ := by
          rw [← huse.1]
          split_ifs <;> rfl
        rw [hx]
        refine marking_reuse h hle hlt hnmin.le ?_ (Or.inl rfl) ?_
        · split_ifs <;> omega
        · split_ifs with hlt'
          · exact Or.inl rfl
          · rcases hhi with hhi | hhi
            · exact Or.inl (by omega)
            · exact Or.inr ⟨hhi.1, huse.1, rfl, hhi.2⟩
      refine markOk_of_marking ?_ hreuse hnot
      rw [markStart, heq, hl]
      dsimp only
      rw [if_pos huse]
    · refine markOk_of_marking ?_ hnew hnot
      rw [markStart, heq, hl]
      dsimp only
      rw [if_neg huse]

/-- what is known behind `lowerBound` when it finds a node -/
structure Found (w : ℕ) (t : Tree α) (min max : ℕ) (before : List (Node α)) (n : Node α) (after : List (Node α)) : Prop where
  eq : t.lowerBound min = some n
  inorder : t.inorder = before ++ n :: after
  sorted : Sorted w (before ++ n :: after)
  nmin : n.min ≤ min
  above : ∀ b ∈ after, min < b.min
  le : min ≤ max
  lt : max < 2 ^ w

variable {t : Tree α} {after : List (Node α)}

omit [DecidableEq α] in
theorem Found.before_lt (h : Found w t min max before n after) : ∀ m ∈ before, m.max < n.min := fun m hm =>
  (sorted_append.mp h.sorted).2.2 m hm n List.mem_cons_self

omit [DecidableEq α] in
theorem Found.dec_min (h : Found w t min max before n after) (hlt : n.min < min) : dec w min = min - 1 :=
  dec_eq (by omega) (lt_of_le_of_lt h.le h.lt)

/-- the nodes from `n` on become others -/
theorem Found.of_inl (h : Found w t min max before n after) (heq : markStart w t min max payload = .inl (before ++ r)) (hr : Sorted w r)
    (hstart : ∀ b ∈ r, n.min ≤ b.min) (hlook : ∀ a, look r a = marked min max payload a (look (n :: after) a))
    (hfree : MarkFree min max payload t.inorder) : MarkOk w t min max payload ↔ MarkFree min max payload t.inorder := by
  refine iff_of_true (markOk_of_inl heq ?_ fun a => ?_) hfree
  · exact sorted_append.mpr ⟨(sorted_append.mp h.sorted).1, hr, fun m hm b hb => lt_of_lt_of_le (h.before_lt m hm) (hstart b hb)⟩
  · rw [h.inorder, look_append, look_append, hlook]
    refine marked_of_or _ fun ha => look_eq_none fun m hm _ => ?_
    have h1 := h.before_lt m hm
    have h2 := h.nmin
    omega

/-- the loop is left with nodes behind `before` -/
theorem Found.of_inr (h : Found w t min max before n after) {before' : List (Node α)}
    (heq : markStart w t min max payload = .inr (before ++ before', x, rest)) (hm : Marking w min max payload (n :: after) before' x rest)
    (hbefore : ∀ b ∈ before', n.min ≤ b.min) (hx : n.min ≤ x.min) (hnot : ¬ (n.min < min ∧ n.max = max ∧ n.data = payload)) :
    MarkOk w t min max payload ↔ MarkFree min max payload t.inorder := by
  have hcovered := h.sorted.covered_iff payload h.le h.nmin h.above
  have hmin := h.nmin
  have hbehind := hm.behind (sorted_append.mp h.sorted).1 h.le (fun m hm => lt_of_lt_of_le (h.before_lt m hm) hmin)
    (fun m hm b hb => lt_of_lt_of_le (h.before_lt m hm) (hbefore b hb)) fun m hm => lt_of_lt_of_le (h.before_lt m hm) hx
  rw [← h.inorder] at hbehind hcovered
  exact markOk_of_marking heq hbehind (hcovered.not.mpr hnot)

/-- a request that a node with the payload covers -/
theorem Found.of_covered (h : Found w t min max before n after) (heq : markStart w t min max payload = .inl t.inorder) (hdata : n.data = payload)
    (hmax : max ≤ n.max) (hfree : MarkFree min max payload t.inorder) : MarkOk w t min max payload ↔ MarkFree min max payload t.inorder := by
  obtain ⟨-, hna, -⟩ := sorted_append.mp h.sorted
  obtain ⟨-, -, hafter, -⟩ := sorted_cons.mp hna
  have hmin := h.nmin
  rw [h.inorder] at heq
  refine h.of_inl heq hna (fun b hb => ?_) (fun a => ?_) hfree
  · rcases List.mem_cons.mp hb with rfl | hb
    · exact le_rfl
    · have := h.above b hb
      omega
  · rw [marked, look_cons, hdata]
    split_ifs <;> first | rfl | omega

omit [DecidableEq α] in
/-- no node blocks, as the range ends in the node -/
theorem Found.free (h : Found w t min max before n after) (hmax : max < n.max) : MarkFree min max payload t.inorder := by
  rw [h.inorder]
  exact Or.inl (h.sorted.not_blocks (h.nmin.trans h.le) hmax)

/-- the node starts with the range -/
theorem Found.same (h : Found w t min max before n after) (hmin : n.min = min) :
    MarkOk w t min max payload ↔ MarkFree min max payload t.inorder := by
  obtain ⟨hbeforeSorted, hna, -⟩ := sorted_append.mp h.sorted
  obtain ⟨hn, hnw, hafter, hsorted⟩ := sorted_cons.mp hna
  have hle := h.le
  have hlt := h.lt
  have hnot : ¬ (n.min < min ∧ n.max = max ∧ n.data = payload) := fun hc => absurd hc.1 (by omega)
  have hstart : markStart w t min max payload = match before.getLast?.filter fun p => p.data = payload ∧ p.max = dec w min with
      | some p => .inr (before.dropLast, p.setMax max, n :: after)
      | none =>
        if n.max ≤ max then .inr (before, (n.setMax max).setData payload, after)
        else if n.data = payload then .inl t.inorder
        else .inl (before ++ ⟨min, max, payload⟩ :: n.setMin (inc w max) :: after) := by
    rw [markStart, h.eq, h.inorder]
    dsimp only
    rw [around_eq h.sorted]
    exact if_pos hmin
  cases hp : before.getLast?.filter fun p => p.data = payload ∧ p.max = dec w min with
  | some p =>
    -- another span further left which is adjacent
    obtain ⟨hlast, hfilter⟩ := Option.filter_eq_some_iff.mp hp
    obtain ⟨hdata, hpmax⟩ := of_decide_eq_true hfilter
    have hbefore : before.dropLast ++ [p] = before := List.dropLast_append_getLast? p hlast
    rw [hp] at hstart
    dsimp only at hstart
    obtain ⟨before', hbefore'⟩ : ∃ b, b = before.dropLast := ⟨_, rfl⟩
    rw [← hbefore'] at hstart hbefore
    have hall : before' ++ p :: n :: after = before ++ n :: after := by rw [← hbefore, List.append_assoc]; rfl
    have hpn := h.before_lt p (hbefore ▸ List.mem_append_right _ List.mem_cons_self)
    have hs := h.sorted
    rw [← hall] at hs
    obtain ⟨hbs, hps, hbp⟩ := sorted_append.mp hs
    have hpmin := (sorted_cons.mp hps).1
    have hdec : dec w min = min - 1 := dec_eq (by omega) (lt_of_le_of_lt hle hlt)
    have hreuse : Marking w min max payload (p :: n :: after) [] ⟨p.min, max, payload⟩ (n :: after) :=
      marking_reuse hps hle hlt le_rfl (by omega) (Or.inr ⟨by omega, hdata, rfl, by omega⟩) (Or.inl rfl)
    have hbehind := hreuse.behind hbs hle (fun m hm => (hbp m hm p List.mem_cons_self).trans_le (by omega)) (by simp)
      fun m hm => hbp m hm p List.mem_cons_self
    have hx : p.setMax max = ⟨p.min, max, payload⟩ := by rw [← hdata]; rfl
    rw [hall, ← h.inorder, List.append_nil] at hbehind
    rw [hx] at hstart
    have hcovered := h.sorted.covered_iff payload hle h.nmin h.above
    rw [← h.inorder] at hcovered
    exact markOk_of_marking hstart hbehind (hcovered.not.mpr hnot)
  | none =>
    rw [hp] at hstart
    dsimp only at hstart
    split_ifs at hstart with h1 h2
    · have hreuse : Marking w min max payload (n :: after) [] ⟨min, max, payload⟩ after :=
        marking_reuse hna hle hlt hmin.ge h1 (Or.inl rfl) (Or.inl rfl)
      have hx : (n.setMax max).setData payload = ⟨min, max, payload⟩ := by rw [← hmin]; rfl
      rw [hx] at hstart
      exact h.of_inr (by rwa [List.append_nil]) hreuse (by simp) hmin.le hnot
    · exact h.of_covered hstart h2 (not_le.mp h1).le (h.free (not_le.mp h1))
    · rw [inc_eq (not_le.mp h1) hnw] at hstart
      have htail : Sorted w (n.setMin (max + 1) :: after) := sorted_cons.mpr ⟨not_le.mp h1, hnw, hafter, hsorted⟩
      refine h.of_inl hstart (sorted_cons.mpr ⟨hle, hlt, fun b hb => ?_, htail⟩) (fun b hb => ?_) (fun a => ?_) (h.free (not_le.mp h1))
      · rcases List.mem_cons.mp hb with rfl | hb
        · exact Nat.lt_succ_self max
        · have := hafter b hb
          show max < b.min
          omega
      · rcases List.mem_cons.mp hb with rfl | hb
        · exact hmin.le
        · rcases List.mem_cons.mp hb with rfl | hb
          · show n.min ≤ max + 1
            omega
          · have := hafter b hb
            omega
      · simp only [look_cons, Node.setMin, marked]
        split_ifs <;> first | rfl | omega

/-- the node starts before the range, has the payload and touches it -/
theorem Found.touching (h : Found w t min max before n after) (hmin : n.min < min) (hdata : n.data = payload) (hmax : n.max ≥ dec w min) :
    MarkOk w t min max payload ↔ MarkFree min max payload t.inorder := by
  have hna := (sorted_append.mp h.sorted).2.1
  have hstart : markStart w t min max payload = if n.max ≥ max then .inl t.inorder else .inr (before, n.setMax max, after) := by
    rw [markStart, h.eq, h.inorder]
    dsimp only
    rw [around_eq h.sorted]
    dsimp only
    rw [if_neg hmin.ne, if_pos ⟨hdata, hmax⟩]
  rw [h.dec_min hmin] at hmax
  split_ifs at hstart with h1
  · refine h.of_covered hstart hdata h1 ?_
    rcases lt_or_eq_of_le h1 with hlt | heq
    · exact h.free hlt
    · rw [h.inorder]
      exact Or.inr ⟨n, List.mem_append_right _ List.mem_cons_self, hmin, heq.symm, hdata⟩
  · have hreuse : Marking w min max payload (n :: after) [] ⟨n.min, max, payload⟩ after :=
      marking_reuse hna h.le h.lt le_rfl (not_le.mp h1).le (Or.inr ⟨hmin, hdata, rfl, by omega⟩) (Or.inl rfl)
    have hx : n.setMax max = ⟨n.min, max, payload⟩ := by rw [← hdata]; rfl
    rw [hx] at hstart
    exact h.of_inr (by rwa [List.append_nil]) hreuse (by simp) le_rfl fun hc => h1 hc.2.1.ge

/-- the node ends in the range, with another payload -/
theorem Found.clipped (h : Found w t min max before n after) (hmin : n.min < min) (hother : ¬ (n.data = payload ∧ n.max ≥ dec w min))
    (hmax : n.max ≤ max) (hover : n.max ≥ min) : MarkOk w t min max payload ↔ MarkFree min max payload t.inorder := by
  obtain ⟨-, hna, -⟩ := sorted_append.mp h.sorted
  obtain ⟨hn, hnw, hafter, hsorted⟩ := sorted_cons.mp hna
  have hle := h.le
  have hdec := h.dec_min hmin
  have hstart : markStart w t min max payload = .inr (before ++ [n.setMax (min - 1)], ⟨min, max, payload⟩, after) := by
    rw [markStart, h.eq, h.inorder]
    dsimp only
    rw [around_eq h.sorted]
    dsimp only
    rw [if_neg hmin.ne, if_neg hother, if_pos hmax, if_pos hover, hdec]
  have hnew : Marking w min max payload after [] ⟨min, max, payload⟩ after := marking_new hsorted (fun b hb => (h.above b hb).le) hle h.lt
  have hclip : Marking w min max payload (n :: after) [n.setMax (min - 1)] ⟨min, max, payload⟩ after := by
    refine ⟨hnew.turning, sorted_cons.mpr ⟨?_, ?_, by simp, Sorted.nil⟩, fun m hm => ?_, fun a => ?_, fun s hblocks => ?_⟩
    · show n.min ≤ min - 1
      omega
    · show min - 1 < 2 ^ w
      omega
    · rw [List.mem_singleton.mp hm]
      show min - 1 < min
      omega
    · simp only [look_cons, look_nil, Node.setMax, marked]
      split_ifs <;> first | rfl | omega
    · rw [List.mem_cons]
      refine or_iff_right ?_
      rintro rfl
      have := hblocks.1
      omega
  refine h.of_inr hstart hclip (fun b hb => ?_) hmin.le fun hc => hother ⟨hc.2.2, by omega⟩
  rw [List.mem_singleton.mp hb]
  exact le_rfl

/-- the node ends before the range -/
theorem Found.disjoint (h : Found w t min max before n after) (hother : ¬ (n.data = payload ∧ n.max ≥ dec w min)) (hmax : n.max < min) :
    MarkOk w t min max payload ↔ MarkFree min max payload t.inorder := by
  obtain ⟨-, hna, -⟩ := sorted_append.mp h.sorted
  obtain ⟨hn, hnw, -, hsorted⟩ := sorted_cons.mp hna
  have hle := h.le
  have hmin : n.min < min := lt_of_le_of_lt hn hmax
  have hnot : ¬ (n.min < min ∧ n.max = max ∧ n.data = payload) := fun hc => absurd hc.2.1 (by omega)
  have hself : ∀ b ∈ [n], n.min ≤ b.min := fun b hb => by rw [List.mem_singleton.mp hb]
  have hbehind : ∀ {rest : List (Node α)}, Marking w min max payload after [] ⟨min, max, payload⟩ rest →
      Marking w min max payload (n :: after) [n] ⟨min, max, payload⟩ rest := by
    intro rest hm
    have hone : Sorted w [n] := sorted_cons.mpr ⟨hn, hnw, by simp, Sorted.nil⟩
    refine hm.behind hone hle (fun m hm => ?_) (by simp) fun m hm => ?_
    · rwa [List.mem_singleton.mp hm]
    · rwa [List.mem_singleton.mp hm]
  have hnew := hbehind (marking_new hsorted (fun b hb => (h.above b hb).le) hle h.lt)
  cases after with
  | nil =>
    refine h.of_inr ?_ hnew hself hmin.le hnot
    rw [markStart, h.eq, h.inorder]
    dsimp only
    rw [around_eq h.sorted]
    dsimp only
    rw [if_neg hmin.ne, if_neg hother, if_pos (hmax.le.trans hle), if_neg (not_le.mpr hmax)]
  | cons y rest =>
    have hstart : markStart w t min max payload = if y.max ≤ max then .inr (before ++ [n], ⟨min, max, payload⟩, rest)
        else .inr (before ++ [n], ⟨min, max, payload⟩, y :: rest) := by
      rw [markStart, h.eq, h.inorder]
      dsimp only
      rw [around_eq h.sorted]
      dsimp only
      rw [if_neg hmin.ne, if_neg hother, if_pos (hmax.le.trans hle), if_neg (not_le.mpr hmax)]
      rfl
    split_ifs at hstart with h1
    · -- the request covers the next node
      have hreuse : Marking w min max payload (y :: rest) [] ⟨min, max, payload⟩ rest :=
        marking_reuse hsorted hle h.lt (h.above y List.mem_cons_self).le h1 (Or.inl rfl) (Or.inl rfl)
      exact h.of_inr hstart (hbehind hreuse) hself hmin.le hnot
    · exact h.of_inr hstart hnew hself hmin.le hnot

/-- the node covers the range, with another payload -/
theorem Found.split (h : Found w t min max before n after) (hmin : n.min < min) (hother : ¬ (n.data = payload ∧ n.max ≥ dec w min))
    (hmax : max < n.max) : MarkOk w t min max payload ↔ MarkFree min max payload t.inorder := by
  obtain ⟨-, hna, -⟩ := sorted_append.mp h.sorted
  obtain ⟨hn, hnw, hafter, hsorted⟩ := sorted_cons.mp hna
  have hle := h.le
  have hlt := h.lt
  have hstart : markStart w t min max payload =
      .inl (before ++ n.setMax (min - 1) :: ⟨min, max, payload⟩ :: ⟨max + 1, n.max, n.data⟩ :: after) := by
    rw [markStart, h.eq, h.inorder]
    dsimp only
    rw [around_eq h.sorted]
    dsimp only
    rw [if_neg hmin.ne, if_neg hother, if_neg (not_le.mpr hmax), h.dec_min hmin, inc_eq hmax hnw]
  have hright : Sorted w (⟨max + 1, n.max, n.data⟩ :: after) := sorted_cons.mpr ⟨hmax, hnw, hafter, hsorted⟩
  have hlater : ∀ b ∈ (⟨max + 1, n.max, n.data⟩ :: after : List (Node α)), max < b.min := by
    intro b hb
    rcases List.mem_cons.mp hb with rfl | hb
    · exact Nat.lt_succ_self max
    · exact hmax.trans (hafter b hb)
  have hmiddle : Sorted w (⟨min, max, payload⟩ :: ⟨max + 1, n.max, n.data⟩ :: after) := sorted_cons.mpr ⟨hle, hlt, hlater, hright⟩
  have hfrom : ∀ b ∈ (⟨min, max, payload⟩ :: ⟨max + 1, n.max, n.data⟩ :: after : List (Node α)), min ≤ b.min := by
    intro b hb
    rcases List.mem_cons.mp hb with rfl | hb
    · exact le_rfl
    · exact hle.trans (hlater b hb).le
  refine h.of_inl hstart (sorted_cons.mpr ⟨?_, ?_, fun b hb => ?_, hmiddle⟩) (fun b hb => ?_) (fun a => ?_) (h.free hmax)
  · show n.min ≤ min - 1
    omega
  · show min - 1 < 2 ^ w
    omega
  · have := hfrom b hb
    show min - 1 < b.min
    omega
  · rcases List.mem_cons.mp hb with rfl | hb
    · exact le_rfl
    · exact hmin.le.trans (hfrom b hb)
  · simp only [look_cons, Node.setMax, marked]
    split_ifs <;> first | rfl | omega

theorem mark_iff (t : Tree α) (h : Sorted w t.inorder) (hle : min ≤ max) (hlt : max < 2 ^ w) :
    MarkOk w t min max payload ↔ MarkFree min max payload t.inorder := by
  rcases t.lowerBound_eq h min with ⟨heq, hall⟩ | ⟨n, before, after, heq, hin, hnmin, hall⟩
  · exact mark_iff_none t h hle hlt heq hall
  · have hfound : Found w t min max before n after := ⟨heq, hin, hin ▸ h, hnmin, hall, hle, hlt⟩
    rcases lt_or_eq_of_le hnmin with hmin | hmin
    · by_cases hother : n.data = payload ∧ n.max ≥ dec w min
      · exact hfound.touching hmin hother.1 hother.2
      · rcases le_or_gt n.max max with hmax | hmax
        · rcases le_or_gt min n.max with hover | hbefore
          · exact hfound.clipped hmin hother hmax hover
          · exact hfound.disjoint hother hbefore
        · exact hfound.split hmin hother hmax
    · exact hfound.same hmin

/-- `mark` ends, with the payload in the range and the list in order, exactly if no node with another payload starts right behind the range, or
the range is the end of a node that has the payload. -/
theorem mark_ends_iff (t : Tree α) (h : Sorted w t.inorder) (hle : min ≤ max) (hlt : max < 2 ^ w) :
    (∃ l, Mark w t min max payload l ∧ Sorted w l ∧ ∀ a, look l a = if min ≤ a ∧ a ≤ max then some payload else look t.inorder a) ↔
      (∀ s ∈ t.inorder, s.min = max + 1 → s.data = payload) ∨ ∃ n ∈ t.inorder, n.min < min ∧ n.max = max ∧ n.data = payload := by
  refine (mark_iff t h hle hlt).trans (or_congr_left (forall₂_congr fun s _ => ?_))
  rw [Blocks, not_and, not_not]

end Start

/-- between two spans with other payloads, which are clipped -/
theorem mark_between : ∃ l, Mark 32 (.node .leaf ⟨10, 20, 0⟩ (.node .leaf ⟨30, 40, 1⟩ .leaf)) 15 35 2 l ∧ Sorted 32 l ∧
    ∀ a, look l a = if 15 ≤ a ∧ a ≤ 35 then some 2 else look [⟨10, 20, 0⟩, ⟨30, 40, 1⟩] a :=
  (mark_ends_iff (.node .leaf ⟨10, 20, 0⟩ (.node .leaf ⟨30, 40, 1⟩ .leaf)) ⟨by decide, by decide⟩ (by decide) (by decide)).mpr
    (Or.inl (by decide))

/-- The range 5 to 9, in front of a span from 10 on with another payload: the loop stays at that span. -/
theorem mark_touching : ¬ ∃ l, Mark 32 (.node .leaf ⟨10, 20, 0⟩ .leaf) 5 9 1 l := by
  rintro ⟨l, r, hreturns, -⟩
  exact not_ends_of_blocks (sorted_cons.mpr ⟨by decide, by decide, by simp, Sorted.nil⟩) List.mem_cons_self ⟨rfl, by decide⟩ hreturns.ends

end TrafficServer.TsCore
