/-
`ATSConsistentHash` (`src/tscore/ConsistentHash.cc`): the parent that a URL is sent to.

Each node is on the ring several times, at hashes of its name with a number in front. The ring is a `std::map` and so a list in the order
of the positions, and an iterator is an index into it. A position that is taken stays with the node that is there.

A lookup goes clockwise from the hash of the URL, wraps around once and returns the first node that is available. `clockwise` is the
ring as it is seen from a hash, `lookup_available_spec` is the result.
-/
import Mathlib
import TrafficServer.Hdrs.HdrToken

namespace TrafficServer.ConsistentHash

open TrafficServer.Hdrs

abbrev Bytes := List UInt8

/-- `NodeMap`; a node is the address of an `ATSConsistentHashNode` -/
abbrev NodeMap := List (UInt64 × ℕ)

/-- `std::map::insert` -/
def mapInsert (position : UInt64) (node : ℕ) : NodeMap → NodeMap
  | [] => [(position, node)]
  | (position', node') :: l =>
    if position < position' then (position, node) :: (position', node') :: l
    else if position = position' then (position', node') :: l
    else (position', node') :: mapInsert position node l

/-- `std::map::lower_bound` -/
def lowerBound (ring : NodeMap) (h : UInt64) : ℕ := (ring.takeWhile fun p => p.1 < h).length

/-- `numstr`, printed with `%d-` -/
def numstr (i : ℕ) : Bytes := text (toString i ++ "-")

/-- the loop of `insert` from `i` on -/
def insertLoop (hash : Bytes → UInt64) (node : ℕ) (name : Bytes) (i : ℕ) : ℕ → NodeMap → NodeMap
  | 0, ring => ring
  | k + 1, ring => insertLoop hash node name (i + 1) k (mapInsert (hash (numstr i ++ name)) node ring)

/-- `insert`; the node comes to be on the ring `(int)roundf(replicas * weight)` times, or not at all if this is negative -/
def insert (hash : Bytes → UInt64) (ring : NodeMap) (node : ℕ) (name : Bytes) (times : ℤ) : NodeMap :=
  insertLoop hash node name 0 times.toNat ring

/-- what `lookup_available` returns, and what it leaves in `*i` and `*w` -/
structure Found where
  node : Option ℕ
  iter : ℕ
  wrapped : Bool

/-- the loop of `lookup_available`; `none` if the end of the map is followed, or there are more rounds than `fuel` -/
def availableLoop (ring : NodeMap) (available : ℕ → Bool) : ℕ → ℕ → Bool → Option Found
  | 0, _, _ => none
  | fuel + 1, iter, wrapped =>
    match ring[iter]? with
    | none => none
    | some (_, node) =>
      if available node then some ⟨some node, iter, wrapped⟩
      else
        let iter := iter + 1
        if !wrapped ∧ iter = ring.length then availableLoop ring available fuel 0 true
        else if wrapped ∧ iter = ring.length then some ⟨none, iter, wrapped⟩
        else availableLoop ring available fuel iter wrapped

/-- `lookup_available` of a URL -/
def lookupAvailable (hash : Bytes → UInt64) (ring : NodeMap) (available : ℕ → Bool) (url : Bytes) (wrapped : Bool) : Option Found :=
  let iter := lowerBound ring (hash url)
  if iter = ring.length then availableLoop ring available (2 * ring.length + 1) 0 true
  else availableLoop ring available (2 * ring.length + 1) iter wrapped

/-- a ring on which nodes with their names have been put, so many times each -/
def build (hash : Bytes → UInt64) (nodes : List (ℕ × Bytes × ℤ)) : NodeMap :=
  nodes.foldl (fun ring n => insert hash ring n.1 n.2.1 n.2.2) []

/-! ## The ring -/

def Sorted (ring : NodeMap) : Prop := ring.Pairwise fun p q => p.1 < q.1

theorem mem_mapInsert {position : UInt64} {node : ℕ} {ring : NodeMap} {p : UInt64 × ℕ} (h : p ∈ mapInsert position node ring) :
    p = (position, node) ∨ p ∈ ring := by
  induction ring with
  | nil => exact Or.inl (List.mem_singleton.mp h)
  | cons q ring ih =>
    rw [mapInsert] at h
    split_ifs at h
    · exact List.mem_cons.mp h
    · exact Or.inr h
    · rcases List.mem_cons.mp h with rfl | hmem
      · exact Or.inr List.mem_cons_self
      · exact (ih hmem).imp id (List.mem_cons_of_mem _)

theorem Sorted.mapInsert {ring : NodeMap} (h : Sorted ring) (position : UInt64) (node : ℕ) : Sorted (mapInsert position node ring) := by
  induction ring with
  | nil => exact List.pairwise_singleton _ _
  | cons q ring ih =>
    obtain ⟨hfirst, hrest⟩ := List.pairwise_cons.mp h
    rw [ConsistentHash.mapInsert]
    split_ifs with hlt heq
    · refine List.pairwise_cons.mpr ⟨fun p hp => ?_, h⟩
      rcases List.mem_cons.mp hp with rfl | hmem
      · exact hlt
      · exact UInt64.lt_trans hlt (hfirst p hmem)
    · exact h
    · refine List.pairwise_cons.mpr ⟨fun p hp => ?_, ih hrest⟩
      rcases mem_mapInsert hp with rfl | hmem
      · exact UInt64.lt_of_le_of_ne (UInt64.not_lt.mp hlt) (Ne.symm heq)
      · exact hfirst p hmem

theorem Sorted.insertLoop {ring : NodeMap} (h : Sorted ring) (hash : Bytes → UInt64) (node : ℕ) (name : Bytes) (i k : ℕ) :
    Sorted (insertLoop hash node name i k ring) := by
  induction k generalizing ring i with
  | zero => exact h
  | succ k ih => exact ih (h.mapInsert _ _) _

theorem build_sorted (hash : Bytes → UInt64) (nodes : List (ℕ × Bytes × ℤ)) : Sorted (build hash nodes) := by
  induction nodes using List.reverseRecOn with
  | nil => exact List.Pairwise.nil
  | append_singleton nodes n ih =>
    rw [build, List.foldl_append]
    exact Sorted.insertLoop ih _ _ _ _ _

/-- the positions from a hash on, clockwise and once around -/
def clockwise (ring : NodeMap) (h : UInt64) : NodeMap := (ring.filter fun p => h ≤ p.1) ++ ring.filter fun p => p.1 < h

/-- the node of the first position, clockwise from a hash, that is available -/
def firstAvailable (ring : NodeMap) (available : ℕ → Bool) (h : UInt64) : Option ℕ :=
  ((clockwise ring h).find? fun p => available p.2).map Prod.snd

theorem mem_clockwise {ring : NodeMap} {h : UInt64} {p : UInt64 × ℕ} : p ∈ clockwise ring h ↔ p ∈ ring := by
  rw [clockwise, List.mem_append, List.mem_filter, List.mem_filter, ← and_or_left, decide_eq_true_eq, decide_eq_true_eq]
  exact and_iff_left (UInt64.le_or_lt h p.1)

/-- in a sorted ring the positions below the hash come first -/
theorem Sorted.split {ring : NodeMap} (hs : Sorted ring) (h : UInt64) :
    ring.filter (fun p => p.1 < h) = ring.take (lowerBound ring h) ∧ ring.filter (fun p => h ≤ p.1) = ring.drop (lowerBound ring h) := by
  induction ring with
  | nil => exact ⟨rfl, rfl⟩
  | cons q ring ih =>
    obtain ⟨hfirst, hrest⟩ := List.pairwise_cons.mp hs
    obtain ⟨hbelow, habove⟩ := ih hrest
    by_cases hlt : q.1 < h
    · have hbound : lowerBound (q :: ring) h = lowerBound ring h + 1 := by simp [lowerBound, hlt]
      rw [hbound, List.take_succ_cons, List.drop_succ_cons, ← hbelow, ← habove]
      simp [hlt]
    · have hbound : lowerBound (q :: ring) h = 0 := by simp [lowerBound, hlt]
      have hall : ∀ p ∈ q :: ring, h ≤ p.1 := by
        intro p hp
        rcases List.mem_cons.mp hp with rfl | hmem
        · exact UInt64.not_lt.mp hlt
        · exact UInt64.le_trans (UInt64.not_lt.mp hlt) (UInt64.le_of_lt (hfirst p hmem))
      rw [hbound, List.take_zero, List.drop_zero]
      refine ⟨List.filter_eq_nil_iff.mpr fun p hp => ?_, List.filter_eq_self.mpr fun p hp => decide_eq_true (hall p hp)⟩
      simpa using hall p hp

theorem lowerBound_le (ring : NodeMap) (h : UInt64) : lowerBound ring h ≤ ring.length :=
  (List.takeWhile_prefix _).length_le

/-! ## The lookup -/

variable {ring : NodeMap} {available : ℕ → Bool}

theorem find_available {p : UInt64 × ℕ} (h : available p.2 = true) (l : NodeMap) : (p :: l).find? (fun p => available p.2) = some p :=
  List.find?_cons_of_pos h

theorem find_unavailable {p : UInt64 × ℕ} (h : ¬ available p.2 = true) (l : NodeMap) :
    (p :: l).find? (fun p => available p.2) = l.find? fun p => available p.2 :=
  List.find?_cons_of_neg h

/-- behind the wrap the loop finds the first node that is available, up to the end of the map -/
theorem availableLoop_wrapped (available : ℕ → Bool) (fuel : ℕ) {iter : ℕ} (hiter : iter < ring.length) (hfuel : ring.length < fuel + iter) :
    ∃ r, availableLoop ring available fuel iter true = some r ∧ r.node = ((ring.drop iter).find? fun p => available p.2).map Prod.snd := by
  induction fuel generalizing iter with
  | zero => omega
  | succ fuel ih =>
    rw [availableLoop, List.getElem?_eq_getElem hiter, List.drop_eq_getElem_cons hiter]
    dsimp only
    by_cases havailable : available ring[iter].2 = true
    · rw [if_pos havailable, find_available havailable]
      exact ⟨_, rfl, rfl⟩
    · rw [if_neg havailable, if_neg (by simp), find_unavailable havailable]
      split_ifs with hend
      · refine ⟨_, rfl, ?_⟩
        rw [hend.2, List.drop_length]
        rfl
      · have hne : iter + 1 ≠ ring.length := fun heq => hend ⟨rfl, heq⟩
        exact ih (by omega) (by omega)

/-- before the wrap it goes to the end of the map and then around -/
theorem availableLoop_unwrapped (available : ℕ → Bool) (fuel : ℕ) {iter : ℕ} (hiter : iter < ring.length) (hfuel : 2 * ring.length < fuel + iter) :
    ∃ r, availableLoop ring available fuel iter false = some r ∧
      r.node = (((ring.drop iter).find? fun p => available p.2).or (ring.find? fun p => available p.2)).map Prod.snd := by
  induction fuel generalizing iter with
  | zero => omega
  | succ fuel ih =>
    rw [availableLoop, List.getElem?_eq_getElem hiter, List.drop_eq_getElem_cons hiter]
    dsimp only
    by_cases havailable : available ring[iter].2 = true
    · rw [if_pos havailable, find_available havailable]
      exact ⟨_, rfl, rfl⟩
    · rw [if_neg havailable, find_unavailable havailable]
      by_cases hend : iter + 1 = ring.length
      · rw [if_pos ⟨by simp, hend⟩, hend, List.drop_length, List.find?_nil, Option.none_or]
        exact availableLoop_wrapped available fuel (Nat.zero_lt_of_lt hiter) (by omega)
      · rw [if_neg fun h => hend h.2, if_neg (by simp)]
        exact ih (by omega) (by omega)

theorem lookupAvailable_eq (hs : Sorted ring) (hne : ring ≠ []) (hash : Bytes → UInt64) (available : ℕ → Bool) (url : Bytes) :
    ∃ r, lookupAvailable hash ring available url false = some r ∧ r.node = firstAvailable ring available (hash url) := by
  have hpos : 0 < ring.length := List.length_pos_of_ne_nil hne
  have hle := lowerBound_le ring (hash url)
  obtain ⟨hbelow, habove⟩ := hs.split (hash url)
  rw [lookupAvailable, firstAvailable, clockwise, hbelow, habove]
  split_ifs with hend
  · obtain ⟨r, hr, hnode⟩ := availableLoop_wrapped available (2 * ring.length + 1) hpos (by omega)
    refine ⟨r, hr, ?_⟩
    rw [hnode, hend, List.drop_length, List.take_length, List.drop_zero, List.nil_append]
  · obtain ⟨r, hr, hnode⟩ := availableLoop_unwrapped available (2 * ring.length + 1) (lt_of_le_of_ne hle hend) (by omega)
    refine ⟨r, hr, ?_⟩
    -- what is behind the hash is tried again after the wrap, and not available
    have hagain : ring.find? (fun p => available p.2) = ((ring.take (lowerBound ring (hash url))).find? fun p => available p.2).or
        ((ring.drop (lowerBound ring (hash url))).find? fun p => available p.2) := by
      rw [← List.find?_append, List.take_append_drop]
    rw [hnode, hagain, List.find?_append]
    congr 1
    cases (ring.drop (lowerBound ring (hash url))).find? fun p => available p.2 with
    | none => simp
    | some p => simp

/-! ## The node that is found -/

theorem firstAvailable_eq_none (h : UInt64) : firstAvailable ring available h = none ↔ ∀ p ∈ ring, available p.2 = false := by
  rw [firstAvailable, Option.map_eq_none_iff, List.find?_eq_none]
  simp only [mem_clockwise, Bool.not_eq_true]

/-- a node that is not the one that is found may as well not be available -/
theorem firstAvailable_update {h : UInt64} {node : ℕ} (hne : firstAvailable ring available h ≠ some node) :
    firstAvailable ring (Function.update available node false) h = firstAvailable ring available h := by
  unfold firstAvailable at hne ⊢
  generalize clockwise ring h = l at hne ⊢
  induction l with
  | nil => rfl
  | cons p l ih =>
    by_cases havailable : available p.2 = true
    · rw [find_available havailable] at hne ⊢
      have hp : p.2 ≠ node := fun heq => hne (congrArg some heq)
      have hstill : Function.update available node false p.2 = true := by rwa [Function.update_of_ne hp]
      rw [find_available hstill]
    · rw [find_unavailable havailable] at hne ⊢
      have hstill : ¬ Function.update available node false p.2 = true := by simp [Function.update_apply, havailable]
      rw [find_unavailable hstill]
      exact ih hne

/-- A lookup returns the first node clockwise that is available. A node that becomes unavailable changes the result for its URLs only. -/
theorem lookup_available_spec (hash : Bytes → UInt64) (nodes : List (ℕ × Bytes × ℤ)) (hne : build hash nodes ≠ []) (available : ℕ → Bool)
    (url : Bytes) : ∃ r, lookupAvailable hash (build hash nodes) available url false = some r ∧
      r.node = firstAvailable (build hash nodes) available (hash url) ∧ (r.node = none ↔ ∀ p ∈ build hash nodes, available p.2 = false) ∧
      ∀ node, ∃ r', lookupAvailable hash (build hash nodes) (Function.update available node false) url false = some r' ∧
        (r'.node ≠ r.node → r.node = some node) := by
  have hs := build_sorted hash nodes
  obtain ⟨r, hr, hnode⟩ := lookupAvailable_eq hs hne hash available url
  refine ⟨r, hr, hnode, hnode ▸ firstAvailable_eq_none (hash url), fun node => ?_⟩
  obtain ⟨r', hr', hnode'⟩ := lookupAvailable_eq hs hne hash (Function.update available node false) url
  refine ⟨r', hr', fun hchanged => ?_⟩
  by_contra hother
  rw [hnode] at hchanged hother
  exact hchanged (hnode'.trans (firstAvailable_update hother))

/-- two nodes, and a hash that puts `0-a` and `1-a` on the same position -/
theorem lookup_available_two : ∃ r,
    lookupAvailable (fun s => s.length.toUInt64) (build (fun s => s.length.toUInt64) [(1, [97], 2), (2, [98, 98], 1)]) (fun n => n = 2) [120] false =
      some r ∧ r.node = some 2 := by
  obtain ⟨r, hr, hnode, -⟩ := lookup_available_spec (fun s => s.length.toUInt64) [(1, [97], 2), (2, [98, 98], 1)] (by decide) (fun n => n = 2) [120]
  exact ⟨r, hr, hnode.trans (by decide)⟩

end TrafficServer.ConsistentHash
