/-
The structure below a branch of `HostLookup` as labels are inserted: an array of eight, and with the ninth label a hash table.

`hostArray` is the array that all the labels are in, whatever their number; the tree has the same branches under the same labels
(`below_growth`). The array interprets a label that begins with `!`, the hash table has it as a key like others. So a lookup that asks
for negated labels finds the same in both structures, for all labels, exactly if no label begins with `!` (`find_grown_iff`).
-/
import Mathlib
import TrafficServer.TsCore.HostLookup

namespace TrafficServer.HostLookup

abbrev bang : UInt8 := 33

/-! ## One array for all labels -/

/-- `Insert` of a label that is not there, into an array that is never full -/
def arrayInsert (fresh : ℕ) (els : List (Bytes × ℕ)) (label : Bytes) : List (Bytes × ℕ) :=
  if label ∈ els.map Prod.fst then els else els ++ [(label, fresh + els.length)]

/-- the array with all labels; `InsertBranch` allocates the branches one after the other -/
def hostArray (fresh : ℕ) (labels : List Bytes) : List (Bytes × ℕ) := labels.foldl (arrayInsert fresh) []

/-- insertion of labels below the branch `cur`, as `TableInsert` does it -/
def Table.insertBelow {α : Type} (t : Table α) (cur : ℕ) (labels : List Bytes) : Table α := labels.foldl (fun t l => (t.descend cur l).1) t

/-- the branch under a key -/
def keyed (els : List (Bytes × ℕ)) (label : Bytes) : Option ℕ := (els.find? fun e => e.1 == label).map Prod.snd

variable {els : List (Bytes × ℕ)} {label : Bytes} {fresh : ℕ}

theorem keyed_eq_none : keyed els label = none ↔ label ∉ els.map Prod.fst := by
  rw [keyed, Option.map_eq_none_iff, List.find?_eq_none]
  constructor
  · intro h hmem
    obtain ⟨e, he, rfl⟩ := List.mem_map.mp hmem
    exact h e he (beq_self_eq_true e.1)
  · intro h e he heq
    exact h (List.mem_map.mpr ⟨e, he, eq_of_beq heq⟩)

theorem arrayLookup_false (label : Bytes) (els : List (Bytes × ℕ)) (r : Option ℕ) : arrayLookup false label els r = (keyed els label).or r := by
  induction els generalizing r with
  | nil => rfl
  | cons e els ih =>
    obtain ⟨key, v⟩ := e
    rw [arrayLookup, if_neg fun h => Bool.false_ne_true h.1]
    split_ifs with hkey
    · simp [keyed, hkey]
    · rw [ih]
      simp [keyed, hkey]

theorem keyed_append (els els' : List (Bytes × ℕ)) (label : Bytes) : keyed (els ++ els') label = (keyed els label).or (keyed els' label) := by
  unfold keyed
  rw [List.find?_append]
  cases els.find? fun e => e.1 == label <;> rfl

theorem hostArray_snoc (fresh : ℕ) (labels : List Bytes) (label : Bytes) :
    hostArray fresh (labels ++ [label]) = arrayInsert fresh (hostArray fresh labels) label := by
  rw [hostArray, List.foldl_append]
  rfl

/-- the keys of the array are the labels, each once -/
theorem hostArray_keys (fresh : ℕ) (labels : List Bytes) :
    ((hostArray fresh labels).map Prod.fst).Nodup ∧ ∀ l, l ∈ (hostArray fresh labels).map Prod.fst ↔ l ∈ labels := by
  induction labels using List.reverseRecOn with
  | nil => exact ⟨List.nodup_nil, fun _ => Iff.rfl⟩
  | append_singleton labels label ih =>
    obtain ⟨hnodup, hmem⟩ := ih
    rw [hostArray_snoc, arrayInsert]
    split_ifs with hlabel
    · refine ⟨hnodup, fun l => ?_⟩
      rw [hmem, List.mem_append, List.mem_singleton]
      refine ⟨Or.inl, fun h => h.elim id fun heq => ?_⟩
      rw [heq]
      exact (hmem label).mp hlabel
    · rw [List.map_append]
      refine ⟨List.nodup_append.mpr ⟨hnodup, List.nodup_singleton label, fun a ha b hb heq => ?_⟩, fun l => ?_⟩
      · rw [heq, List.mem_singleton.mp hb] at ha
        exact hlabel ha
      · rw [List.mem_append, List.mem_append, hmem]
        rfl

theorem hostArray_length (fresh : ℕ) (labels : List Bytes) : (hostArray fresh labels).length = labels.toFinset.card := by
  obtain ⟨hnodup, hmem⟩ := hostArray_keys fresh labels
  rw [← List.length_map Prod.fst, ← List.toFinset_card_of_nodup hnodup]
  congr 1
  ext l
  rw [List.mem_toFinset, List.mem_toFinset, hmem]

/-! ## What is below the branch -/

/-- the structure that holds the elements of the array: the array as long as it has room for them -/
def Holds (els : List (Bytes × ℕ)) : NextLevel → Prop
  | .terminal => els = []
  | .array els' => els' = els ∧ els.length ≤ HOST_ARRAY_MAX
  | .hash table => HOST_ARRAY_MAX < els.length ∧ ∀ label, table label = keyed els label
  | .index _ => False

theorem Holds.find {next : NextLevel} (h : Holds els next) (label : Bytes) : next.find false label = keyed els label := by
  cases next with
  | terminal =>
    obtain rfl : els = [] := h
    rfl
  | array els' =>
    obtain ⟨rfl, -⟩ := h
    rw [NextLevel.find, arrayLookup_false, Option.or_none]
  | hash table => exact h.2 label
  | index ci => exact h.elim

theorem Holds.insert {next : NextLevel} (h : Holds els next) (hnext : next ≠ .terminal) (hnodup : (els.map Prod.fst).Nodup)
    (hnew : label ∉ els.map Prod.fst) (v : ℕ) : Holds (els ++ [(label, v)]) (next.insert label v) := by
  have hlength : (els ++ [(label, v)]).length = els.length + 1 := List.length_append
  have hkeyed : ∀ l, keyed (els ++ [(label, v)]) l = if l = label then some v else keyed els l := by
    intro l
    rw [keyed_append]
    split_ifs with hl
    · rw [hl, keyed_eq_none.mpr hnew]
      simp [keyed]
    · simp [keyed, Ne.symm hl]
  cases next with
  | terminal => exact absurd rfl hnext
  | index ci => exact h.elim
  | hash table =>
    refine ⟨by rw [hlength]; exact Nat.lt_succ_of_lt h.1, fun l => ?_⟩
    rw [hkeyed, Function.update_apply, h.2]
  | array els' =>
    obtain ⟨rfl, hfull⟩ := h
    rw [NextLevel.insert]
    split_ifs with hmax
    · refine ⟨by rw [hlength]; exact Nat.lt_succ_of_le hmax, fun l => ?_⟩
      rw [tableOfArray_eq hnodup, hkeyed, ← keyed]
      split_ifs with hl
      · rw [hl, keyed_eq_none.mpr hnew, Function.update_self]
        rfl
      · rw [Function.update_of_ne hl, Option.or_none]
    · exact ⟨rfl, by rw [hlength]; exact Nat.lt_of_not_le hmax⟩

section Below

variable {α : Type} {t t' : Table α} {cur : ℕ}

/-- the branch `cur` has what the array has -/
structure BelowIs (t : Table α) (cur : ℕ) (els : List (Bytes × ℕ)) (fresh : ℕ) : Prop where
  holds : Holds els (t.branch cur).next
  level : (t.branch cur).level ≠ 0
  allocated : t.fresh = fresh + els.length
  old : cur < fresh

theorem descend_growth (h : BelowIs t cur els fresh) (hnodup : (els.map Prod.fst).Nodup) (label : Bytes) :
    BelowIs (t.descend cur label).1 cur (arrayInsert fresh els label) fresh := by
  have hcur : cur ≠ t.fresh := by
    have hold := h.old
    have hfresh := h.allocated
    omega
  -- a branch is inserted for a new label
  have hbranch : ∀ next : NextLevel, next ≠ .terminal → Holds els next → label ∉ els.map Prod.fst →
      BelowIs (t.insertBranch cur next label).1 cur (els ++ [(label, fresh + els.length)]) fresh := by
    intro next hnext hholds hnew
    have hat : (t.insertBranch cur next label).1.branch cur = { t.branch cur with next := next.insert label t.fresh } := by
      simp only [Table.insertBranch, Table.setBranch, Function.update_of_ne hcur, Function.update_self]
    refine ⟨?_, ?_, ?_, h.old⟩
    · rw [hat, ← h.allocated]
      exact hholds.insert hnext hnodup hnew t.fresh
    · rw [hat]
      exact h.level
    · rw [List.length_append, ← Nat.add_assoc, ← h.allocated]
      rfl
  have hfind := h.holds.find label
  unfold Table.descend arrayInsert
  cases hnext : (t.branch cur).next with
  | terminal =>
    have hels : els = [] := by simpa only [hnext, Holds] using h.holds
    have hnew : label ∉ els.map Prod.fst := by
      rw [hels]
      exact List.not_mem_nil
    rw [if_neg hnew]
    dsimp only
    rw [Table.newLevel, if_neg h.level]
    exact hbranch _ nofun ⟨hels.symm, by rw [hels]; exact Nat.zero_le _⟩ hnew
  | index ci => exact (hnext ▸ h.holds).elim
  | array els' =>
    rw [hnext] at hfind
    dsimp only
    rw [hfind]
    split_ifs with hlabel
    · cases hk : keyed els label with
      | none => exact absurd hlabel (keyed_eq_none.mp hk)
      | some i => exact h
    · rw [keyed_eq_none.mpr hlabel]
      exact hbranch _ nofun (hnext ▸ h.holds) hlabel
  | hash table =>
    rw [hnext] at hfind
    dsimp only
    rw [hfind]
    split_ifs with hlabel
    · cases hk : keyed els label with
      | none => exact absurd hlabel (keyed_eq_none.mp hk)
      | some i => exact h
    · rw [keyed_eq_none.mpr hlabel]
      exact hbranch _ nofun (hnext ▸ h.holds) hlabel

/-- the branches that are inserted below a branch are those of the array -/
theorem below_growth (hnext : (t.branch cur).next = .terminal) (hlevel : (t.branch cur).level ≠ 0) (hcur : cur < t.fresh) (labels : List Bytes) :
    BelowIs (t.insertBelow cur labels) cur (hostArray t.fresh labels) t.fresh := by
  induction labels using List.reverseRecOn with
  | nil => exact ⟨hnext ▸ rfl, hlevel, rfl, hcur⟩
  | append_singleton labels label ih =>
    have hrun : t.insertBelow cur (labels ++ [label]) = ((t.insertBelow cur labels).descend cur label).1 := by
      rw [Table.insertBelow, List.foldl_append]
      rfl
    rw [hrun, hostArray_snoc]
    exact descend_growth ih (hostArray_keys t.fresh labels).1 label

end Below

/-! ## Negated labels -/

/-- a negated label that is not `!` alone matches some label that is not in the array -/
theorem arrayLookup_unknown (hlabel : label ∉ els.map Prod.fst) (hrest : ∀ e ∈ els, e.1.tail ≠ label) (r : Option ℕ)
    (h : r.isSome = true ∨ ∃ e ∈ els, e.1.head? = some bang ∧ e.1.tail ≠ []) : (arrayLookup true label els r).isSome = true := by
  induction els generalizing r with
  | nil =>
    rcases h with h | ⟨e, he, -⟩
    · exact h
    · exact absurd he List.not_mem_nil
  | cons e els ih =>
    obtain ⟨key, v⟩ := e
    rw [List.map_cons, List.mem_cons, not_or] at hlabel
    obtain ⟨htail, hrest⟩ := List.forall_mem_cons.mp hrest
    rw [arrayLookup]
    by_cases hbang : key.head? = some bang
    · rw [if_pos ⟨rfl, hbang⟩]
      by_cases hempty : key.tail = []
      · rw [if_pos hempty]
        refine ih hlabel.2 hrest r (h.imp id ?_)
        rintro ⟨e, he, hneg⟩
        rcases List.mem_cons.mp he with rfl | he
        · exact absurd hempty hneg.2
        · exact ⟨e, he, hneg⟩
      · rw [if_neg hempty, if_pos htail]
        exact ih hlabel.2 hrest _ (Or.inl rfl)
    · rw [if_neg fun hn => hbang hn.2, if_neg fun heq => hlabel.1 heq.symm]
      refine ih hlabel.2 hrest r (h.imp id ?_)
      rintro ⟨e, he, hneg⟩
      rcases List.mem_cons.mp he with rfl | he
      · exact absurd hneg.1 hbang
      · exact ⟨e, he, hneg⟩

/-- `!` alone is passed over -/
theorem arrayLookup_bang (h : ∀ e ∈ els, e.1.head? = some bang → e.1.tail = []) (r : Option ℕ) : arrayLookup true [bang] els r = r := by
  induction els with
  | nil => rfl
  | cons e els ih =>
    obtain ⟨key, v⟩ := e
    obtain ⟨hkey, hrest⟩ := List.forall_mem_cons.mp h
    rw [arrayLookup]
    by_cases hbang : key.head? = some bang
    · rw [if_pos ⟨rfl, hbang⟩, if_pos (hkey hbang)]
      exact ih hrest
    · have hne : key ≠ [bang] := fun heq => hbang (by rw [heq]; rfl)
      rw [if_neg fun hn => hbang hn.2, if_neg hne]
      exact ih hrest

/-- the array finds its keys and nothing else exactly if none of them begins with `!` -/
theorem arrayLookup_keyed_iff : (∀ label, keyed els label = arrayLookup true label els none) ↔ ∀ l ∈ els.map Prod.fst, l.head? ≠ some bang := by
  constructor
  · intro h
    by_contra hsome
    push Not at hsome
    obtain ⟨l, hl, hbang⟩ := hsome
    by_cases hrest : ∀ e ∈ els, e.1.head? = some bang → e.1.tail = []
    · -- the label is `!`
      obtain ⟨e, he, rfl⟩ := List.mem_map.mp hl
      have heq : e.1 = [bang] := by
        rw [← List.cons_head?_tail hbang, hrest e he hbang]
      have hnone : keyed els [bang] = none := (h [bang]).trans (arrayLookup_bang hrest none)
      exact keyed_eq_none.mp hnone (heq ▸ hl)
    · push Not at hrest
      obtain ⟨e, he, hneg⟩ := hrest
      obtain ⟨label, hfresh⟩ := Infinite.exists_notMem_finset (els.map Prod.fst ++ els.map fun e => e.1.tail).toFinset
      rw [List.mem_toFinset, List.mem_append, not_or] at hfresh
      have hsome := arrayLookup_unknown hfresh.1 (fun e he heq => hfresh.2 (List.mem_map.mpr ⟨e, he, heq⟩)) none (Or.inr ⟨e, he, hneg⟩)
      rw [← h label, keyed_eq_none.mpr hfresh.1] at hsome
      cases hsome
  · intro h label
    have hkeys : ∀ e ∈ els, e.1.head? ≠ some bang := fun e he => h e.1 (List.mem_map.mpr ⟨e, he, rfl⟩)
    rw [arrayLookup_eq true label hkeys, Option.or_none]
    rfl

/-- What is found below a branch is what the array with all labels has, exactly if the labels fit into an array or none begins with `!`. -/
theorem find_grown_iff {α : Type} {t : Table α} {cur : ℕ} (hnext : (t.branch cur).next = .terminal) (hlevel : (t.branch cur).level ≠ 0)
    (hcur : cur < t.fresh) (labels : List Bytes) :
    (∀ label, ((t.insertBelow cur labels).branch cur).next.find true label = arrayLookup true label (hostArray t.fresh labels) none) ↔
      labels.toFinset.card ≤ HOST_ARRAY_MAX ∨ ∀ l ∈ labels, l.head? ≠ some bang := by
  have hholds := (below_growth hnext hlevel hcur labels).holds
  have hkeys : (∀ l ∈ labels, l.head? ≠ some bang) ↔ ∀ l ∈ (hostArray t.fresh labels).map Prod.fst, l.head? ≠ some bang := by
    simp only [(hostArray_keys t.fresh labels).2]
  rw [hkeys, ← hostArray_length t.fresh labels]
  generalize hostArray t.fresh labels = els at hholds ⊢
  cases hat : ((t.insertBelow cur labels).branch cur).next with
  | terminal =>
    have hels : els = [] := by simpa only [hat, Holds] using hholds
    refine iff_of_true (fun label => ?_) (Or.inl ?_)
    · rw [hels]
      rfl
    · rw [hels]
      exact Nat.zero_le _
  | index ci => exact (hat ▸ hholds).elim
  | array els' =>
    rw [hat] at hholds
    obtain ⟨rfl, hfull⟩ := hholds
    exact iff_of_true (fun label => rfl) (Or.inl hfull)
  | hash table =>
    rw [hat] at hholds
    obtain ⟨hfull, htable⟩ := hholds
    rw [or_iff_right (not_le_of_gt hfull), ← arrayLookup_keyed_iff]
    exact forall_congr' fun label => by rw [NextLevel.find, htable]

/-- labels below the branch of `com`: the first is a negated one -/
def negated (n : ℕ) : List Bytes := [33, 97] :: (List.range n).map fun i => [98, 48 + i.toUInt8]

def underCom : Table Unit := (Table.new.newLevel 0 [99, 111, 109]).1

theorem find_grown_eight : ((underCom.insertBelow 1 (negated 7)).branch 1).next.find true [99] =
    arrayLookup true [99] (hostArray 2 (negated 7)) none :=
  (find_grown_iff (by rfl) (by decide) (by decide) (negated 7)).mpr (Or.inl (by decide)) [99]

/-- with the ninth label nothing is found under a label that the negated one matches -/
theorem find_grown_nine : ((underCom.insertBelow 1 (negated 7)).branch 1).next.find true [99] = some 2 ∧
    ((underCom.insertBelow 1 (negated 8)).branch 1).next.find true [99] = none ∧
    arrayLookup true [99] (hostArray 2 (negated 8)) none = some 2 := by
  decide

end TrafficServer.HostLookup
