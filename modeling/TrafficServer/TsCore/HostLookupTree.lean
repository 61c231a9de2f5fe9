/-
The tree of a `HostLookup` table.

Every branch stands for the labels on the way to it from the root, the last label of a name first, and what a branch finds under a label is the
branch of these labels with one more (`Stored.child`). An entry is in the branch of its last three labels, in the order in which the entries were
made (`Stored.leaves`). Making a new entry keeps this (`Stored.newEntry`), whatever structure the branches of a level are in.
-/
import Mathlib
import TrafficServer.TsCore.HostLookupNames

namespace TrafficServer.HostLookup

open TrafficServer.Labels

/-! ## The next level of a branch -/

namespace NextLevel

/-- The keys of an array are different and none of them is a negated one. -/
def Ok : NextLevel → Prop
  | terminal => True
  | hash _ => True
  | index ci => ci.Ok
  | array els => (els.map Prod.fst).Nodup ∧ ∀ e ∈ els, e.1.head? ≠ some 33

theorem Ok.find_eq {next : NextLevel} (h : next.Ok) (b : Bool) (l : Bytes) : next.find b l = next.find false l := by
  cases next with
  | terminal => rfl
  | hash table => rfl
  | index ci => rfl
  | array els => rw [find, find, arrayLookup_eq b l h.2, arrayLookup_eq false l h.2]

/-- a label that the table can have as a key -/
structure Key (l : Bytes) : Prop where
  lower : Lower l
  ne : l ≠ []
  head : l.head? ≠ some 33

theorem find_array {els : List (Bytes × ℕ)} (h : (array els).Ok) (l : Bytes) :
    (array els).find false l = (els.find? fun e => e.1 == l).map Prod.snd := by
  rw [find, arrayLookup_eq false l h.2, Option.or_none]

/-- a new key in a level that is there -/
theorem Ok.insert {next : NextLevel} (h : next.Ok) (hnext : next ≠ terminal) {l : Bytes} (hl : Key l) (hnone : next.find false l = none)
    (v : ℕ) : (next.insert l v).Ok ∧ ∀ k, Lower k → (next.insert l v).find false k = if k = l then some v else next.find false k := by
  cases next with
  | terminal => exact absurd rfl hnext
  | hash table =>
    refine ⟨trivial, fun k _ => ?_⟩
    rw [NextLevel.insert, find, find, Function.update_apply]
  | index ci =>
    exact ⟨CharIndex.Ok.insert h hl.lower hl.ne hnone v, fun k hk => CharIndex.lookup_insert h hl.lower hl.ne v hk⟩
  | array els =>
    rw [find_array h, Option.map_eq_none_iff] at hnone
    rw [NextLevel.insert]
    split_ifs with hfull
    · -- all elements move into a hash table
      refine ⟨trivial, fun k _ => ?_⟩
      rw [find, tableOfArray_eq h.1, find_array h]
      split_ifs with hk
      · rw [hk, hnone, Function.update_self]
        rfl
      · rw [Function.update_of_ne hk, Option.or_none]
    · have hnew : l ∉ els.map Prod.fst := by
        intro hm
        obtain ⟨e, he, rfl⟩ := List.mem_map.mp hm
        simpa using List.find?_eq_none.mp hnone e he
      have hok : (array (els ++ [(l, v)])).Ok := by
        refine ⟨?_, fun e he => ?_⟩
        · rw [List.map_append]
          refine List.nodup_append.mpr ⟨h.1, List.nodup_singleton l, fun a ha b hb he => ?_⟩
          rw [he, List.mem_singleton.mp hb] at ha
          exact hnew ha
        · rcases List.mem_append.mp he with he | he
          · exact h.2 e he
          · rw [List.mem_singleton.mp he]
            exact hl.head
      refine ⟨hok, fun k _ => ?_⟩
      rw [find_array hok, find_array h, List.find?_append]
      split_ifs with hk
      · rw [hk, hnone]
        simp
      · simp [Ne.symm hk]

end NextLevel

open NextLevel (Key)

/-! ## The branches -/

variable {α : Type}

namespace Table

/-- what the branch `i` finds under a label -/
def child (t : Table α) (i : ℕ) (l : Bytes) : Option ℕ := (t.branch i).next.find false l

/-- the labels to each branch -/
structure Tree (t : Table α) (path : ℕ → List Bytes) : Prop where
  root : 0 < t.fresh ∧ path 0 = []
  inj : ∀ i < t.fresh, ∀ j < t.fresh, path i = path j → i = j
  parent : ∀ j < t.fresh, ∀ p l, path j = p ++ [l] → ∃ i < t.fresh, path i = p
  key : ∀ i < t.fresh, ∀ l ∈ path i, Key l
  level : ∀ i < t.fresh, (t.branch i).level = (path i).length
  depth : ∀ i < t.fresh, (path i).length ≤ HOST_TABLE_DEPTH
  ok : ∀ i < t.fresh, (t.branch i).next.Ok
  child : ∀ i < t.fresh, ∀ l j, Lower l → (t.child i l = some j ↔ j < t.fresh ∧ path j = path i ++ [l])

/-- only branches without leaves have been added -/
structure Grown (t : Table α) (path : ℕ → List Bytes) (t' : Table α) (path' : ℕ → List Bytes) : Prop where
  fresh : t.fresh ≤ t'.fresh
  path : ∀ i < t.fresh, path' i = path i
  leafIndexs : ∀ i < t.fresh, (t'.branch i).leafIndexs = (t.branch i).leafIndexs
  none : ∀ i < t'.fresh, t.fresh ≤ i → (t'.branch i).leafIndexs = []
  leafArray : t'.leafArray = t.leafArray

variable {t t' t'' : Table α} {path path' path'' : ℕ → List Bytes}

theorem Grown.refl (t : Table α) (path : ℕ → List Bytes) : Grown t path t path where
  fresh := le_refl _
  path _ _ := rfl
  leafIndexs _ _ := rfl
  none _ h h' := absurd h (not_lt.mpr h')
  leafArray := rfl

theorem Grown.trans (h : Grown t path t' path') (h' : Grown t' path' t'' path'') : Grown t path t'' path'' where
  fresh := h.fresh.trans h'.fresh
  path i hi := (h'.path i (hi.trans_le h.fresh)).trans (h.path i hi)
  leafIndexs i hi := (h'.leafIndexs i (hi.trans_le h.fresh)).trans (h.leafIndexs i hi)
  none i hi hge := by
    by_cases hlt : i < t'.fresh
    · rw [h'.leafIndexs i hlt, h.none i hlt hge]
    · exact h'.none i hi (not_lt.mp hlt)
  leafArray := h'.leafArray.trans h.leafArray

/-- A table has the root. -/
theorem tree_new : Tree (new : Table α) fun _ => [] where
  root := ⟨Nat.one_pos, rfl⟩
  inj i hi j hj _ := (Nat.lt_one_iff.mp hi).trans (Nat.lt_one_iff.mp hj).symm
  parent j _ p l h := by simp at h
  key i _ l h := by simp at h
  level _ _ := rfl
  depth _ _ := Nat.zero_le _
  ok _ _ := trivial
  child i _ l j _ := by
    constructor
    · intro h
      exact absurd h (Option.some_ne_none j).symm
    · intro h
      simp at h

theorem insertBranch_new (t : Table α) (cur : ℕ) (next : NextLevel) (l : Bytes) :
    (t.insertBranch cur next l).1.branch t.fresh = ⟨(t.branch cur).level + 1, .terminal, []⟩ := Function.update_self _ _ _

theorem insertBranch_self (t : Table α) {cur : ℕ} (hcur : cur < t.fresh) (next : NextLevel) (l : Bytes) :
    (t.insertBranch cur next l).1.branch cur = { t.branch cur with next := next.insert l t.fresh } := by
  rw [insertBranch, setBranch, setBranch]
  dsimp only
  rw [Function.update_of_ne hcur.ne, Function.update_self]

theorem insertBranch_other (t : Table α) {cur i : ℕ} (hi : i < t.fresh) (hne : i ≠ cur) (next : NextLevel) (l : Bytes) :
    (t.insertBranch cur next l).1.branch i = t.branch i := by
  rw [insertBranch, setBranch, setBranch]
  dsimp only
  rw [Function.update_of_ne hi.ne, Function.update_of_ne hne]

/-- the labels with those of the new branch -/
abbrev addPath (t : Table α) (path : ℕ → List Bytes) (cur : ℕ) (l : Bytes) : ℕ → List Bytes :=
  Function.update path t.fresh (path cur ++ [l])

theorem addPath_old (t : Table α) (path : ℕ → List Bytes) (cur : ℕ) (l : Bytes) {i : ℕ} (hi : i < t.fresh) : t.addPath path cur l i = path i :=
  Function.update_of_ne hi.ne _ _

theorem addPath_new (t : Table α) (path : ℕ → List Bytes) (cur : ℕ) (l : Bytes) : t.addPath path cur l t.fresh = path cur ++ [l] :=
  Function.update_self _ _ _

theorem grown_insertBranch (t : Table α) (path : ℕ → List Bytes) {cur : ℕ} (hcur : cur < t.fresh) (next : NextLevel) (l : Bytes) :
    Grown t path (t.insertBranch cur next l).1 (t.addPath path cur l) where
  fresh := Nat.le_succ _
  path i hi := t.addPath_old path cur l hi
  leafIndexs i hi := by
    by_cases hc : i = cur
    · rw [hc, insertBranch_self t hcur]
    · rw [insertBranch_other t hi hc]
  none i hi hge := by
    obtain rfl : i = t.fresh := le_antisymm (Nat.lt_succ_iff.mp hi) hge
    rw [insertBranch_new]
  leafArray := rfl

/-- a new branch under a label that the branch `cur` does not have -/
theorem Tree.insertBranch (h : Tree t path) {cur : ℕ} (hcur : cur < t.fresh) {l : Bytes} (hl : Key l) {next : NextLevel} (hok : next.Ok)
    (hnext : next ≠ .terminal) (hsame : ∀ k, next.find false k = t.child cur k) (hnone : t.child cur l = none)
    (hdepth : (path cur).length < HOST_TABLE_DEPTH) : Tree (t.insertBranch cur next l).1 (t.addPath path cur l) := by
  obtain ⟨hok', hfind⟩ := hok.insert hnext hl ((hsame l).trans hnone) t.fresh
  have hold : ∀ i < t.fresh, t.addPath path cur l i = path i := fun i hi => t.addPath_old path cur l hi
  have hnew := t.addPath_new path cur l
  have hlt : ∀ i, i < t.fresh + 1 ↔ i < t.fresh ∨ i = t.fresh := fun i => Nat.lt_succ_iff_lt_or_eq
  -- no branch has had these labels
  have hfree : ∀ i < t.fresh, path i ≠ path cur ++ [l] := by
    intro i hi he
    have := (h.child cur hcur l i hl.lower).mpr ⟨hi, he⟩
    rw [hnone] at this
    exact absurd this (Option.some_ne_none i).symm
  have hchild : ∀ i < t.fresh, ∀ k, Lower k → (t.insertBranch cur next l).1.child i k =
      if i = cur ∧ k = l then some t.fresh else t.child i k := by
    intro i hi k hk
    by_cases hc : i = cur
    · rw [hc, Table.child, insertBranch_self t hcur]
      refine (hfind k hk).trans ?_
      simp only [hsame, true_and]
    · rw [if_neg fun hn => hc hn.1, Table.child, insertBranch_other t hi hc]
      rfl
  refine ⟨⟨Nat.succ_pos _, (hold 0 h.root.1).trans h.root.2⟩, ?_, ?_, ?_, ?_, ?_, ?_, ?_⟩
  · intro i hi j hj he
    rcases (hlt i).mp hi with hi | rfl <;> rcases (hlt j).mp hj with hj | rfl
    · rw [hold i hi, hold j hj] at he
      exact h.inj i hi j hj he
    · rw [hold i hi, hnew] at he
      exact absurd he (hfree i hi)
    · rw [hold j hj, hnew] at he
      exact absurd he.symm (hfree j hj)
    · rfl
  · intro j hj p m he
    rcases (hlt j).mp hj with hj | rfl
    · rw [hold j hj] at he
      obtain ⟨i, hi, hp⟩ := h.parent j hj p m he
      exact ⟨i, Nat.lt_succ_of_lt hi, (hold i hi).trans hp⟩
    · rw [hnew] at he
      exact ⟨cur, Nat.lt_succ_of_lt hcur, (hold cur hcur).trans (List.append_inj_left' he rfl)⟩
  · intro i hi m hm
    rcases (hlt i).mp hi with hi | rfl
    · rw [hold i hi] at hm
      exact h.key i hi m hm
    · rw [hnew] at hm
      rcases List.mem_append.mp hm with hm | hm
      · exact h.key cur hcur m hm
      · rw [List.mem_singleton.mp hm]
        exact hl
  · intro i hi
    rcases (hlt i).mp hi with hi | rfl
    · rw [hold i hi, ← h.level i hi]
      by_cases hc : i = cur
      · rw [hc, insertBranch_self t hcur]
      · rw [insertBranch_other t hi hc]
    · rw [hnew, insertBranch_new, List.length_append, List.length_singleton, h.level cur hcur]
  · intro i hi
    rcases (hlt i).mp hi with hi | rfl
    · rw [hold i hi]
      exact h.depth i hi
    · rw [hnew, List.length_append, List.length_singleton]
      exact hdepth
  · intro i hi
    rcases (hlt i).mp hi with hi | rfl
    · by_cases hc : i = cur
      · rw [hc, insertBranch_self t hcur]
        exact hok'
      · rw [insertBranch_other t hi hc]
        exact h.ok i hi
    · rw [insertBranch_new]
      trivial
  · intro i hi k j hk
    rcases (hlt i).mp hi with hi | rfl
    · rw [hchild i hi k hk, hold i hi]
      by_cases hc : i = cur ∧ k = l
      · obtain ⟨rfl, rfl⟩ := hc
        rw [if_pos ⟨rfl, rfl⟩, Option.some_inj]
        constructor
        · intro he
          rw [← he]
          exact ⟨Nat.lt_succ_self _, hnew⟩
        · intro ⟨hj, he⟩
          rcases (hlt j).mp hj with hj | hj
          · rw [hold j hj] at he
            exact absurd he (hfree j hj)
          · exact hj.symm
      · rw [if_neg hc, h.child i hi k j hk]
        constructor
        · intro ⟨hj, he⟩
          exact ⟨Nat.lt_succ_of_lt hj, (hold j hj).trans he⟩
        · intro ⟨hj, he⟩
          rcases (hlt j).mp hj with hj | rfl
          · rw [hold j hj] at he
            exact ⟨hj, he⟩
          · rw [hnew] at he
            obtain ⟨hp, hk'⟩ := List.append_inj' he rfl
            exact absurd ⟨h.inj i hi cur hcur hp.symm, (List.cons.inj hk').1.symm⟩ hc
    · -- the new branch has no lower levels
      rw [Table.child, insertBranch_new, hnew]
      constructor
      · intro hn
        exact absurd hn (Option.some_ne_none j).symm
      · intro ⟨hj, he⟩
        exfalso
        rcases (hlt j).mp hj with hj | rfl
        · rw [hold j hj] at he
          obtain ⟨i, hi, hp⟩ := h.parent j hj (path cur ++ [l]) k he
          exact hfree i hi hp
        · rw [hnew] at he
          simp at he

/-- A round of the loop of `TableInsert` ends in the branch with one more label. -/
theorem Tree.descend (h : Tree t path) {cur : ℕ} (hcur : cur < t.fresh) (hdepth : (path cur).length < HOST_TABLE_DEPTH) {l : Bytes} (hl : Key l) :
    ∃ path', Tree (t.descend cur l).1 path' ∧ Grown t path (t.descend cur l).1 path' ∧ (t.descend cur l).2 < (t.descend cur l).1.fresh ∧
      path' (t.descend cur l).2 = path cur ++ [l] := by
  have hnewBranch : ∀ next : NextLevel, next.Ok → next ≠ .terminal → (∀ k, next.find false k = t.child cur k) → t.child cur l = none →
      ∃ path', Tree (t.insertBranch cur next l).1 path' ∧ Grown t path (t.insertBranch cur next l).1 path' ∧
        (t.insertBranch cur next l).2 < (t.insertBranch cur next l).1.fresh ∧ path' (t.insertBranch cur next l).2 = path cur ++ [l] :=
    fun next hok hnext hsame hnone =>
      ⟨t.addPath path cur l, h.insertBranch hcur hl hok hnext hsame hnone hdepth, grown_insertBranch t path hcur next l, Nat.lt_succ_self _,
        t.addPath_new path cur l⟩
  by_cases hterm : (t.branch cur).next = .terminal
  · have hd : t.descend cur l = t.newLevel cur l := by
      rw [Table.descend, hterm]
    have hchild : ∀ k, t.child cur k = none := by
      intro k
      rw [Table.child, hterm]
      rfl
    rw [hd, newLevel]
    split_ifs
    · refine hnewBranch _ CharIndex.ok_new (by simp) (fun k => ?_) (hchild l)
      rw [hchild]
      cases k with
      | nil => rfl
      | cons c k =>
        rcases CharIndexEl.lookup_new none (c :: k) with hn | hn <;> exact hn
    · exact hnewBranch _ ⟨List.nodup_nil, by simp⟩ (by simp) (fun k => (hchild k).symm) (hchild l)
  · have hd : t.descend cur l = (t.child cur l).elim (t.insertBranch cur (t.branch cur).next l) fun i => (t, i) := by
      rw [Table.descend, Table.child]
      cases hn : (t.branch cur).next with
      | terminal => exact absurd hn hterm
      | hash table =>
        dsimp only
        cases NextLevel.find false l (.hash table) <;> rfl
      | index ci =>
        dsimp only
        cases NextLevel.find false l (.index ci) <;> rfl
      | array els =>
        dsimp only
        cases NextLevel.find false l (.array els) <;> rfl
    rw [hd]
    cases hc : t.child cur l with
    | none => exact hnewBranch _ (h.ok cur hcur) hterm (fun k => rfl) hc
    | some i =>
      obtain ⟨hi, hp⟩ := (h.child cur hcur l i hl.lower).mp hc
      exact ⟨path, h, Grown.refl t path, hi, hp⟩

/-- The loop of `TableInsert` ends in the branch of the first labels of `toks`. -/
theorem Tree.insertLoop {toks : List Bytes} (hkey : ∀ l ∈ toks, Key l) (k : ℕ) {i cur : ℕ} (h : Tree t path) (hcur : cur < t.fresh)
    (hpath : path cur = toks.take i) (hi : i ≤ toks.length) (hk : i + k ≤ HOST_TABLE_DEPTH) :
    ∃ path', Tree (Table.insertLoop toks k i t cur).1 path' ∧ Grown t path (Table.insertLoop toks k i t cur).1 path' ∧
      (Table.insertLoop toks k i t cur).2 < (Table.insertLoop toks k i t cur).1.fresh ∧
      path' (Table.insertLoop toks k i t cur).2 = toks.take (i + k) := by
  induction k generalizing t path i cur with
  | zero => exact ⟨path, h, Grown.refl t path, hcur, hpath⟩
  | succ k ih =>
    have hlevel : (t.branch cur).level = i := by
      rw [h.level cur hcur, hpath, List.length_take, Nat.min_eq_left hi]
    rw [Table.insertLoop, hlevel]
    by_cases hend : toks.length = i
    · rw [if_pos hend]
      refine ⟨path, h, Grown.refl t path, hcur, hpath.trans ?_⟩
      rw [List.take_of_length_le hend.le, List.take_of_length_le (hend.le.trans (Nat.le_add_right _ _))]
    · have hlt : i < toks.length := lt_of_le_of_ne hi (Ne.symm hend)
      have htok : toks.getD i [] = toks[i] := List.getD_eq_getElem _ _ hlt
      rw [if_neg hend, htok]
      obtain ⟨path₁, h₁, hg₁, hcur₁, hp₁⟩ := h.descend hcur (by rw [← h.level cur hcur, hlevel]; omega) (hkey toks[i] (List.getElem_mem hlt))
      rw [hpath, List.take_append_getElem] at hp₁
      obtain ⟨path₂, h₂, hg₂, hcur₂, hp₂⟩ := ih h₁ hcur₁ hp₁ hlt (by omega)
      rw [Nat.add_right_comm] at hp₂
      exact ⟨path₂, h₂, hg₁.trans hg₂, hcur₂, hp₂⟩

/-- the leaves of a branch are no matter of the tree -/
theorem Tree.congr (h : Tree t path) (hfresh : t'.fresh = t.fresh) (hlevel : ∀ i, (t'.branch i).level = (t.branch i).level)
    (hnext : ∀ i, (t'.branch i).next = (t.branch i).next) : Tree t' path where
  root := by rw [hfresh]; exact h.root
  inj := by rw [hfresh]; exact h.inj
  parent := by rw [hfresh]; exact h.parent
  key := by rw [hfresh]; exact h.key
  level i hi := by rw [hlevel]; exact h.level i (hfresh ▸ hi)
  depth := by rw [hfresh]; exact h.depth
  ok i hi := by rw [hnext]; exact h.ok i (hfresh ▸ hi)
  child i hi l j hl := by
    rw [Table.child, hnext, hfresh]
    exact h.child i (hfresh ▸ hi) l j hl

end Table

/-! ## The entries -/

/-- a host or domain entry of labels without `!` -/
structure Entry (α : Type) where
  labels : List Bytes
  domainRecord : Bool
  opaqueData : α
  ne : labels ≠ []
  good : Good dot labels
  plain : ∀ l ∈ labels, 33 ∉ l

namespace Entry

/-- the labels of the branch of the entry -/
def place (e : Entry α) : List Bytes := (lowers e.labels).reverse.take HOST_TABLE_DEPTH

def leaf (e : Entry α) : HostLeaf α := ⟨Table.leafType e.domainRecord e.labels.length, name e.labels, e.opaqueData⟩

theorem key (e : Entry α) : ∀ l ∈ (lowers e.labels).reverse, Key l := by
  intro l hl
  obtain ⟨m, hm, rfl⟩ := List.mem_map.mp (List.mem_reverse.mp hl)
  refine ⟨lower_lower m, by simpa using (e.good m hm).1, fun hh => ?_⟩
  obtain ⟨c, hc, he⟩ := List.mem_map.mp (List.mem_of_mem_head? hh)
  exact e.plain m hm (toLower_eq_bang.mp he ▸ hc)

end Entry

namespace Table

variable {t t' : Table α} {path : ℕ → List Bytes} {es : List (Entry α)}

/-- the entry with its name -/
def add (t : Table α) (e : Entry α) : Table α := t.newEntry (name e.labels) e.domainRecord e.opaqueData

def build (es : List (Entry α)) : Table α := es.foldl add new

/-- The table has the entries `es`. -/
structure Stored (t : Table α) (path : ℕ → List Bytes) (es : List (Entry α)) : Prop where
  tree : Tree t path
  leafArray : t.leafArray = es.map Entry.leaf
  bound : ∀ i < t.fresh, ∀ n ∈ (t.branch i).leafIndexs, n < t.leafArray.length
  leaves : ∀ i < t.fresh, (t.branch i).leafIndexs.filterMap (t.leafArray[·]?) = (es.filter (·.place = path i)).map Entry.leaf
  present : ∀ e ∈ es, ∃ i < t.fresh, path i = e.place

theorem stored_new : Stored (new : Table α) (fun _ => []) [] where
  tree := tree_new
  leafArray := rfl
  bound i _ n h := by simp [new] at h
  leaves i _ := rfl
  present e h := by simp at h

/-- more branches -/
theorem Stored.grow (h : Stored t path es) (ht : Tree t' path') (hg : Grown t path t' path') : Stored t' path' es where
  tree := ht
  leafArray := hg.leafArray.trans h.leafArray
  bound i hi n hn := by
    by_cases hlt : i < t.fresh
    · rw [hg.leafIndexs i hlt] at hn
      rw [hg.leafArray]
      exact h.bound i hlt n hn
    · rw [hg.none i hi (not_lt.mp hlt)] at hn
      simp at hn
  leaves i hi := by
    by_cases hlt : i < t.fresh
    · rw [hg.leafIndexs i hlt, hg.leafArray, hg.path i hlt]
      exact h.leaves i hlt
    · -- no entry is in a new branch
      have hnone : es.filter (·.place = path' i) = [] := by
        rw [List.filter_eq_nil_iff]
        intro e he hp
        obtain ⟨j, hj, hpj⟩ := h.present e he
        have hjlt := hj.trans_le hg.fresh
        have hpath : path' i = path' j := (of_decide_eq_true hp).symm.trans (hpj.symm.trans (hg.path j hj).symm)
        rw [ht.inj i hi j hjlt hpath] at hlt
        exact hlt hj
      rw [hnone, hg.none i hi (not_lt.mp hlt)]
      rfl
  present e he := by
    obtain ⟨j, hj, hp⟩ := h.present e he
    exact ⟨j, hj.trans_le hg.fresh, (hg.path j hj).trans hp⟩

/-- a new leaf in the branch of the entry -/
theorem Stored.addLeaf (h : Stored t path es) {cur : ℕ} (hcur : cur < t.fresh) {e : Entry α} (hp : path cur = e.place) :
    Stored { t.setBranch cur { t.branch cur with leafIndexs := (t.branch cur).leafIndexs ++ [t.leafArray.length] } with
      leafArray := t.leafArray ++ [e.leaf] } path (es ++ [e]) := by
  have hself : ∀ b, (t.setBranch cur b).branch cur = b := fun b => Function.update_self _ _ _
  have hother : ∀ b i, i ≠ cur → (t.setBranch cur b).branch i = t.branch i := fun b i hi => Function.update_of_ne hi _ _
  have hold : ∀ i < t.fresh, (t.branch i).leafIndexs.filterMap ((t.leafArray ++ [e.leaf])[·]?) =
      (t.branch i).leafIndexs.filterMap (t.leafArray[·]?) := by
    intro i hi
    refine List.filterMap_congr fun n hn => ?_
    exact List.getElem?_append_left (h.bound i hi n hn)
  refine ⟨h.tree.congr rfl (fun i => ?_) fun i => ?_, ?_, fun i hi n hn => ?_, fun i hi => ?_, fun e' he' => ?_⟩
  · by_cases hi : i = cur
    · rw [hi]
      refine (congrArg HostBranch.level (hself _)).trans ?_
      rfl
    · exact congrArg HostBranch.level (hother _ i hi)
  · by_cases hi : i = cur
    · rw [hi]
      refine (congrArg HostBranch.next (hself _)).trans ?_
      rfl
    · exact congrArg HostBranch.next (hother _ i hi)
  · rw [List.map_append, ← h.leafArray]
    rfl
  · change n < (t.leafArray ++ [e.leaf]).length
    rw [List.length_append, List.length_singleton]
    by_cases hc : i = cur
    · subst hc
      rw [hself] at hn
      rcases List.mem_append.mp hn with hn | hn
      · exact Nat.lt_succ_of_lt (h.bound i hi n hn)
      · rw [List.mem_singleton.mp hn]
        exact Nat.lt_succ_self _
    · rw [hother _ i hc] at hn
      exact Nat.lt_succ_of_lt (h.bound i hi n hn)
  · rw [List.filter_append, List.map_append, ← h.leaves i hi, ← hold i hi]
    by_cases hc : i = cur
    · subst hc
      rw [hself, List.filterMap_append]
      simp [hp]
    · have hne : e.place ≠ path i := fun he => hc (h.tree.inj i hi cur hcur (he.symm.trans hp.symm))
      rw [hother _ i hc]
      simp [hne]
  · rcases List.mem_append.mp he' with he' | he'
    · exact h.present e' he'
    · rw [List.mem_singleton.mp he']
      exact ⟨cur, hcur, hp⟩

theorem Stored.add (h : Stored t path es) (e : Entry α) : ∃ path', Stored (t.add e) path' (es ++ [e]) := by
  have htoks : tokenize ((name e.labels).map toLower) [] = lowers e.labels := by
    change tokenize (lower (name e.labels)) [] = _
    rw [lower_name]
    exact tokenize_name (good_lowers e.good)
  obtain ⟨path', ht, hg, hcur, hp⟩ := h.tree.insertLoop e.key HOST_TABLE_DEPTH h.tree.root.1 (show path 0 = List.take 0 _ from h.tree.root.2) (Nat.zero_le _)
    (Nat.zero_add _).le
  have hstored := (h.grow ht hg).addLeaf hcur (hp.trans (by rw [Nat.zero_add]; rfl))
  refine ⟨path', ?_⟩
  rw [Table.add, newEntry, htoks, List.length_map]
  rw [hg.leafArray] at hstored
  exact hstored

/-- A table that has been built has its entries. -/
theorem stored_build (es : List (Entry α)) : ∃ path, Stored (build es) path es := by
  induction es using List.reverseRecOn with
  | nil => exact ⟨_, stored_new⟩
  | append_singleton es e ih =>
    obtain ⟨path, h⟩ := ih
    rw [build, List.foldl_append]
    exact h.add e

end Table

end TrafficServer.HostLookup
