/-
What `MatchFirst` and `MatchNext` return, one call after the other.

A state of the search stands for the results that are still to come (`remaining`): those of the leaves behind the current one, and those of the
branches below. A call returns the first of them and leaves the others (`At.matchLoop`), so that the calls return all results from the root on
(`matchCall_eq`), which are the entries that match the name (`results_perm`).
-/
import Mathlib
import TrafficServer.TsCore.HostLookupTree

namespace TrafficServer.HostLookup

open TrafficServer.Labels

variable {α : Type}

namespace Table

/-- the data of the leaves that match -/
def hits (t : Table α) (host : Bytes) (done : Bool) (idx : List ℕ) : List α :=
  ((idx.filterMap (t.leafArray[·]?)).filter (leafMatches host done)).map HostLeaf.opaqueData

/-- the results below the branch `i`, with the labels that are left -/
def below (t : Table α) (host : Bytes) : List Bytes → ℕ → List α
  | [], _ => []
  | l :: r, i => (t.child i l).elim [] fun j => t.hits host r.isEmpty (t.branch j).leafIndexs ++ t.below host r j

/-- the results that are still to come -/
def remaining (t : Table α) (s : State) (r : List Bytes) : List α :=
  t.hits s.hostname r.isEmpty ((t.branch s.cur).leafIndexs.drop (s.arrayIndex + 1).toNat) ++ t.below s.hostname r s.cur

variable {t : Table α} {path : ℕ → List Bytes} {host : Bytes} {q r : List Bytes} {s : State}

theorem hits_cons (t : Table α) (host : Bytes) (done : Bool) (n : ℕ) (idx : List ℕ) :
    t.hits host done (n :: idx) =
      match t.leafArray[n]? with
      | none => t.hits host done idx
      | some leaf => if leafMatches host done leaf then leaf.opaqueData :: t.hits host done idx else t.hits host done idx := by
  rw [hits, List.filterMap_cons]
  cases t.leafArray[n]? with
  | none => rfl
  | some leaf =>
    dsimp only
    rw [List.filter_cons]
    split_ifs <;> rfl

/-- `MatchArray` finds the first leaf that matches, and the others are behind it. -/
theorem matchArray_eq (t : Table α) (host : Bytes) (done : Bool) (idx : List ℕ) (i : ℕ) :
    (t.matchArray host done idx i).1 = (t.hits host done idx).head? ∧ i ≤ (t.matchArray host done idx i).2 ∧
      t.hits host done (idx.drop ((t.matchArray host done idx i).2 + 1 - i)) = (t.hits host done idx).tail := by
  induction idx generalizing i with
  | nil => exact ⟨rfl, le_refl _, by rw [List.drop_nil]; rfl⟩
  | cons n idx ih =>
    have hnext : t.hits host done ((n :: idx).drop ((t.matchArray host done idx (i + 1)).2 + 1 - i)) = (t.hits host done idx).tail := by
      obtain ⟨-, hle, htail⟩ := ih (i + 1)
      rw [show (t.matchArray host done idx (i + 1)).2 + 1 - i = (t.matchArray host done idx (i + 1)).2 + 1 - (i + 1) + 1 by omega,
        List.drop_succ_cons]
      exact htail
    have hskip := ih (i + 1)
    rw [hits_cons, matchArray]
    cases t.leafArray[n]? with
    | none => exact ⟨hskip.1, (Nat.le_succ i).trans hskip.2.1, hnext⟩
    | some leaf =>
      dsimp only
      split_ifs with hm
      · refine ⟨rfl, le_refl _, ?_⟩
        rw [Nat.add_sub_cancel_left]
        rfl
      · exact ⟨hskip.1, (Nat.le_succ i).trans hskip.2.1, hnext⟩

/-- where `host_copy_next` is when the labels `r` are left -/
def Next (s : State) : List Bytes → Prop
  | [] => s.hostCopyNext = none
  | l :: r => ∃ p, s.hostCopyNext = some p ∧ AtLabel s.hostCopy p r.reverse l

/-- The search for the labels `q`, from the last one on, is at a branch and the labels `r` are left. -/
structure At (t : Table α) (path : ℕ → List Bytes) (host : Bytes) (q : List Bytes) (s : State) (r : List Bytes) : Prop where
  hostname : s.hostname = host
  cur : s.cur < t.fresh
  labels : path s.cur ++ r = q
  level : s.tableLevel = (path s.cur).length
  next : Next s r

theorem Next.isNone (h : Next s r) : s.hostCopyNext.isNone = r.isEmpty := by
  cases r with
  | nil => rw [show s.hostCopyNext = none from h]; rfl
  | cons l r =>
    obtain ⟨p, hp, -⟩ := h
    rw [hp]
    rfl

/-- one level down -/
theorem Next.down {l : Bytes} {p : ℕ} (hat : AtLabel s.hostCopy p r.reverse l) (hg : Good dot r) (cur : ℕ) :
    Next (State.down s cur p) r := by
  cases r with
  | nil =>
    rw [State.down, if_pos (AtLabel.zero hat)]
    exact rfl
  | cons m r =>
    rw [List.reverse_cons] at hat
    have hg' : Good dot (r.reverse ++ [m]) := by
      intro k hk
      refine hg k ?_
      rwa [← List.reverse_cons, List.mem_reverse] at hk
    obtain ⟨hp, hat'⟩ := hat.down hg'
    rw [State.down, if_neg hp]
    exact ⟨_, rfl, hat'⟩

theorem State.down_cur (s : State) (cur p : ℕ) : (State.down s cur p).cur = cur := by
  rw [State.down]
  split_ifs <;> rfl

theorem State.down_rest (s : State) (cur p : ℕ) : (State.down s cur p).hostname = s.hostname ∧ (State.down s cur p).arrayIndex = -1 ∧
    (State.down s cur p).tableLevel = s.tableLevel + 1 := by
  rw [State.down]
  split_ifs <;> exact ⟨rfl, rfl, rfl⟩

/-- what `MatchArray` returns for the branch of the state -/
def here (t : Table α) (s : State) : Option α × ℕ :=
  t.matchArray s.hostname s.hostCopyNext.isNone ((t.branch s.cur).leafIndexs.drop (s.arrayIndex + 1).toNat) (s.arrayIndex + 1).toNat

/-- the state behind the leaf -/
abbrev State.moved (s : State) (i : ℕ) : State := { s with arrayIndex := i }

/-! The rounds of the loop of `MatchNext` -/

theorem matchLoop_hit (fuel : ℕ) (hlevel : s.tableLevel ≤ HOST_TABLE_DEPTH) {d : α} (h : (t.here s).1 = some d) :
    t.matchLoop (fuel + 1) s = (some d, State.moved s (t.here s).2) := by
  unfold here at h ⊢
  rw [matchLoop, if_pos hlevel]
  dsimp only
  rw [h]

theorem matchLoop_last (fuel : ℕ) (hlevel : s.tableLevel ≤ HOST_TABLE_DEPTH) (h : (t.here s).1 = none) (hn : s.hostCopyNext = none) :
    t.matchLoop (fuel + 1) s = (none, State.moved s (t.here s).2) := by
  unfold here at h ⊢
  rw [matchLoop, if_pos hlevel]
  dsimp only [State.moved]
  rw [h, hn]

theorem matchLoop_none (fuel : ℕ) (hlevel : s.tableLevel ≤ HOST_TABLE_DEPTH) (h : (t.here s).1 = none) {p : ℕ} (hp : s.hostCopyNext = some p)
    (hfind : (t.branch s.cur).next.find true (token s.hostCopy p) = none) :
    t.matchLoop (fuel + 1) s = (none, State.moved s (t.here s).2) := by
  unfold here at h ⊢
  rw [matchLoop, if_pos hlevel]
  dsimp only [State.moved]
  rw [h, hp]
  dsimp only
  rw [hfind]

theorem matchLoop_down (fuel : ℕ) (hlevel : s.tableLevel ≤ HOST_TABLE_DEPTH) (h : (t.here s).1 = none) {p : ℕ} (hp : s.hostCopyNext = some p)
    {cur : ℕ} (hfind : (t.branch s.cur).next.find true (token s.hostCopy p) = some cur) :
    t.matchLoop (fuel + 1) s = t.matchLoop fuel (State.down (State.moved s (t.here s).2) cur p) := by
  unfold here at h ⊢
  rw [matchLoop, if_pos hlevel]
  dsimp only [State.moved]
  rw [h, hp]
  dsimp only
  rw [hfind]

/-- A call returns the first result to come and leaves the others. -/
theorem At.matchLoop (ht : Tree t path) (hgood : Good dot q.tail) (hlower : ∀ l ∈ q, Lower l) (hnull : ∀ l ∈ q, 0 ∉ l) (fuel : ℕ)
    (h : At t path host q s r) (hfuel : HOST_TABLE_DEPTH < fuel + s.tableLevel) :
    (t.matchLoop fuel s).1 = (t.remaining s r).head? ∧
      ∃ r', At t path host q (t.matchLoop fuel s).2 r' ∧ t.remaining (t.matchLoop fuel s).2 r' = (t.remaining s r).tail := by
  induction fuel generalizing s r with
  | zero =>
    have hdepth := ht.depth s.cur h.cur
    rw [← h.level] at hdepth
    omega
  | succ fuel ih =>
    have hdepth := ht.depth s.cur h.cur
    rw [← h.level] at hdepth
    -- the search stays at the branch
    have hstay : At t path host q (State.moved s (t.here s).2) r := ⟨h.hostname, h.cur, h.labels, h.level, by cases r <;> exact h.next⟩
    obtain ⟨hhead, hle, htail⟩ := t.matchArray_eq s.hostname s.hostCopyNext.isNone
      ((t.branch s.cur).leafIndexs.drop (s.arrayIndex + 1).toNat) (s.arrayIndex + 1).toNat
    change (t.here s).1 = _ at hhead
    change _ ≤ (t.here s).2 at hle
    change t.hits _ _ (List.drop ((t.here s).2 + 1 - _) _) = _ at htail
    rw [List.drop_drop, show (s.arrayIndex + 1).toNat + ((t.here s).2 + 1 - (s.arrayIndex + 1).toNat) = (t.here s).2 + 1 by omega] at htail
    rw [h.next.isNone] at hhead htail
    have hrest : t.remaining (State.moved s (t.here s).2) r =
        (t.hits s.hostname r.isEmpty ((t.branch s.cur).leafIndexs.drop (s.arrayIndex + 1).toNat)).tail ++ t.below s.hostname r s.cur := by
      rw [← htail]
      rfl
    rw [remaining]
    cases hhits : t.hits s.hostname r.isEmpty ((t.branch s.cur).leafIndexs.drop (s.arrayIndex + 1).toNat) with
    | cons d found =>
      rw [hhits] at hhead hrest
      rw [matchLoop_hit fuel hdepth hhead]
      exact ⟨rfl, r, hstay, hrest⟩
    | nil =>
      rw [hhits] at hhead hrest
      cases r with
      | nil =>
        rw [matchLoop_last fuel hdepth hhead h.next]
        exact ⟨rfl, [], hstay, hrest⟩
      | cons l r =>
        obtain ⟨p, hp, hat⟩ := h.next
        have hmem : l ∈ q := by
          rw [← h.labels]
          simp
        have hfind : (t.branch s.cur).next.find true (token s.hostCopy p) = t.child s.cur l := by
          rw [hat.token (hnull l hmem), (ht.ok s.cur h.cur).find_eq]
          rfl
        rw [List.nil_append, below]
        cases hchild : t.child s.cur l with
        | none =>
          rw [matchLoop_none fuel hdepth hhead hp (hfind.trans hchild)]
          refine ⟨rfl, l :: r, hstay, ?_⟩
          rw [hrest, below, hchild]
          rfl
        | some cur =>
          obtain ⟨hcur, hpath⟩ := (ht.child s.cur h.cur l cur (hlower l hmem)).mp hchild
          rw [matchLoop_down fuel hdepth hhead hp (hfind.trans hchild)]
          have hdcur := State.down_cur (State.moved s (t.here s).2) cur p
          obtain ⟨hdhost, hdindex, hdlevel⟩ := State.down_rest (State.moved s (t.here s).2) cur p
          have hlabels : path cur ++ r = q := by
            rw [hpath, List.append_assoc, List.singleton_append]
            exact h.labels
          have hdown : At t path host q (State.down (State.moved s (t.here s).2) cur p) r := by
            refine ⟨hdhost.trans h.hostname, by rw [hdcur]; exact hcur, by rw [hdcur]; exact hlabels, ?_, ?_⟩
            · rw [hdcur, hpath, hdlevel, List.length_append, List.length_singleton, ← h.level]
            · refine Next.down hat (fun k hk => hgood k ?_) cur
              rw [← h.labels]
              cases path s.cur with
              | nil => exact hk
              | cons m p => exact List.mem_append_right p (List.mem_cons_of_mem l hk)
          have hall : t.remaining (State.down (State.moved s (t.here s).2) cur p) r =
              t.hits s.hostname r.isEmpty (t.branch cur).leafIndexs ++ t.below s.hostname r cur := by
            rw [remaining, hdcur, hdindex, hdhost]
            rfl
          have hrun := ih hdown (by rw [hdlevel]; change _ < fuel + (s.tableLevel + 1); omega)
          rw [hall] at hrun
          exact hrun

theorem At.matchNext (ht : Tree t path) (hgood : Good dot q.tail) (hlower : ∀ l ∈ q, Lower l) (hnull : ∀ l ∈ q, 0 ∉ l) (h : At t path host q s r) :
    (t.matchNext s).1 = (t.remaining s r).head? ∧
      ∃ r', At t path host q (t.matchNext s).2 r' ∧ t.remaining (t.matchNext s).2 r' = (t.remaining s r).tail := by
  rw [Table.matchNext]
  by_cases hlen : t.leafArray.length ≤ 0
  · -- there are no entries
    have hnil : t.leafArray = [] := List.length_eq_zero_iff.mp (Nat.le_zero.mp hlen)
    have hhits : ∀ host done idx, t.hits host done idx = [] := by
      intro host done idx
      have hnone : idx.filterMap (t.leafArray[·]?) = [] := by
        rw [List.filterMap_eq_nil_iff]
        intro n _
        rw [hnil]
        rfl
      rw [hits, hnone]
      rfl
    have hbelow : ∀ (r : List Bytes) (i : ℕ), t.below s.hostname r i = [] := by
      intro r
      induction r with
      | nil => exact fun _ => rfl
      | cons l r ih =>
        intro i
        rw [below]
        cases t.child i l with
        | none => rfl
        | some j => exact (congrArg₂ (· ++ ·) (hhits _ _ _) (ih j)).trans rfl
    have hremaining : t.remaining s r = [] := by
      rw [remaining, hhits, hbelow]
      rfl
    rw [if_pos hlen, hremaining]
    exact ⟨rfl, r, h, hremaining⟩
  · rw [if_neg hlen]
    exact h.matchLoop ht hgood hlower hnull (HOST_TABLE_DEPTH + 1) (Nat.lt_of_lt_of_le (Nat.lt_succ_self _) (Nat.le_add_right _ _))

/-- The calls return the results one after the other. -/
theorem matchCall_eq (ht : Tree t path) (hgood : Good dot q.tail) (hlower : ∀ l ∈ q, Lower l) (hnull : ∀ l ∈ q, 0 ∉ l)
    (h : At t path host q (State.init host) q) (k : ℕ) :
    (t.matchCall host k).1 = (t.remaining (State.init host) q)[k]? ∧
      ∃ r', At t path host q (t.matchCall host k).2 r' ∧ t.remaining (t.matchCall host k).2 r' = (t.remaining (State.init host) q).drop (k + 1) := by
  induction k with
  | zero =>
    obtain ⟨hret, r', hat, hrest⟩ := h.matchNext ht hgood hlower hnull
    exact ⟨hret.trans List.head?_eq_getElem?, r', hat, hrest.trans List.drop_one.symm⟩
  | succ k ih =>
    obtain ⟨-, r, hat, hrest⟩ := ih
    obtain ⟨hret, r', hat', hrest'⟩ := hat.matchNext ht hgood hlower hnull
    rw [hrest, List.head?_drop] at hret
    rw [hrest, List.tail_drop] at hrest'
    exact ⟨hret, r', hat', hrest'⟩

end Table

/-! ## The results -/

open Table

theorem prefix_cons {β : Type} {p x r : List β} {l : β} (hp : p <+: x) (hx : x <+: p ++ l :: r) (hne : x ≠ p) : p ++ [l] <+: x := by
  obtain ⟨y, rfl⟩ := hp
  rw [List.prefix_append_right_inj] at hx
  cases y with
  | nil => exact absurd (List.append_nil p) hne
  | cons m y =>
    obtain ⟨rfl, -⟩ := List.cons_prefix_cons.mp hx
    rw [List.prefix_append_right_inj]
    exact ⟨y, rfl⟩

namespace Table

variable {t : Table α} {path : ℕ → List Bytes} {es : List (Entry α)}

/-- the branches on the way to a branch -/
theorem Tree.ancestor (h : Tree t path) {j : ℕ} (hj : j < t.fresh) {p : List Bytes} (hp : p <+: path j) : ∃ i < t.fresh, path i = p := by
  obtain ⟨s, hs⟩ := hp
  induction s using List.reverseRecOn generalizing j with
  | nil => exact ⟨j, hj, by rw [← hs, List.append_nil]⟩
  | append_singleton s l ih =>
    obtain ⟨i, hi, hpi⟩ := h.parent j hj (p ++ s) l (by rw [← hs, List.append_assoc])
    exact ih hi hpi.symm

/-- the leaves of a branch that match are entries -/
theorem Stored.hits (h : Stored t path es) (host : Bytes) (done : Bool) {i : ℕ} (hi : i < t.fresh) :
    t.hits host done (t.branch i).leafIndexs =
      (es.filter fun e => e.place = path i ∧ leafMatches host done e.leaf).map Entry.opaqueData := by
  rw [Table.hits, h.leaves i hi, List.filter_map, List.filter_filter, List.map_map]
  refine congrArg₂ List.map rfl (List.filter_congr fun e _ => ?_)
  rw [Bool.decide_and, Bool.decide_eq_true, Bool.and_comm]
  rfl

/-- The results of a branch and of those below are entries, each of them once. -/
theorem Stored.results (h : Stored t path es) (host : Bytes) (r : List Bytes) (hlower : ∀ l ∈ r, Lower l) {i : ℕ} (hi : i < t.fresh) :
    (t.hits host r.isEmpty (t.branch i).leafIndexs ++ t.below host r i).Perm
      ((es.filter fun e => path i <+: e.place ∧ e.place <+: path i ++ r ∧ leafMatches host (e.place = path i ++ r) e.leaf).map
        Entry.opaqueData) := by
  induction r generalizing i with
  | nil =>
    rw [below, List.append_nil, List.append_nil, h.hits host _ hi]
    refine List.Perm.of_eq (congrArg _ (List.filter_congr fun e _ => ?_))
    rw [decide_eq_decide]
    constructor
    · intro ⟨he, hm⟩
      exact ⟨he ▸ List.prefix_refl _, he ▸ List.prefix_refl _, by rw [decide_eq_true he]; exact hm⟩
    · intro ⟨h1, h2, hm⟩
      have he : e.place = path i := h2.eq_of_length_le h1.length_le
      exact ⟨he, by rwa [decide_eq_true he] at hm⟩
  | cons l r ih =>
    have hne : ∀ e : Entry α, e.place = path i → e.place ≠ path i ++ l :: r := by
      intro e he hc
      rw [he] at hc
      simp at hc
    -- the entries of the branch itself, and the others
    refine List.Perm.trans ?_ ((List.filter_append_perm (fun e => e.place = path i) _).map Entry.opaqueData)
    rw [List.map_append, List.filter_filter, List.filter_filter]
    refine List.Perm.append ?_ ?_
    · rw [h.hits host _ hi]
      refine List.Perm.of_eq (congrArg _ (List.filter_congr fun e _ => ?_))
      rw [← Bool.decide_and, decide_eq_decide]
      constructor
      · intro ⟨he, hm⟩
        exact ⟨he, he ▸ List.prefix_refl _, he ▸ List.prefix_append _ _, by rw [decide_eq_false (hne e he)]; exact hm⟩
      · rintro ⟨he, -, -, hm⟩
        exact ⟨he, by rwa [decide_eq_false (hne e he)] at hm⟩
    · rw [below]
      have hchild := h.tree.child i hi l
      cases hc : t.child i l with
      | some j =>
        obtain ⟨hj, hpath⟩ := (hchild j (hlower l List.mem_cons_self)).mp hc
        refine (ih (fun m hm => hlower m (List.mem_cons_of_mem l hm)) hj).trans ?_
        refine List.Perm.of_eq (congrArg _ (List.filter_congr fun e _ => ?_))
        have hassoc : path j ++ r = path i ++ l :: r := by
          rw [hpath, List.append_assoc, List.singleton_append]
        rw [← decide_not, ← Bool.decide_and, decide_eq_decide, hassoc]
        constructor
        · rintro ⟨h1, h2, hm⟩
          have hij : path i <+: path j := hpath ▸ List.prefix_append _ _
          refine ⟨fun he => ?_, hij.trans h1, h2, hm⟩
          rw [he, hpath] at h1
          simpa using h1.length_le
        · rintro ⟨he, h1, h2, hm⟩
          exact ⟨hpath ▸ prefix_cons h1 h2 he, h2, hm⟩
      | none =>
        have hnone : (es.filter fun e => !decide (e.place = path i) &&
            decide (path i <+: e.place ∧ e.place <+: path i ++ l :: r ∧ leafMatches host (e.place = path i ++ l :: r) e.leaf)) = [] := by
          rw [List.filter_eq_nil_iff]
          intro e he hm
          rw [← decide_not, ← Bool.decide_and, decide_eq_true_eq] at hm
          obtain ⟨hm, h1, h2, -⟩ := hm
          obtain ⟨k, hk, hpk⟩ := h.present e he
          obtain ⟨j, hj, hpj⟩ := h.tree.ancestor hk (hpk ▸ prefix_cons h1 h2 hm)
          have := (hchild j (hlower l List.mem_cons_self)).mpr ⟨hj, hpj⟩
          rw [hc] at this
          exact Option.some_ne_none j this.symm
        rw [hnone]
        rfl

end Table

/-- the entry matches the name -/
def Entry.matches (host : Bytes) (e : Entry α) : Bool :=
  if e.domainRecord then domaincmp host (name e.labels) else hostcmp host (name e.labels) == 0

/-- A leaf that the search compares or accepts is an entry that matches. -/
theorem Entry.matches_iff {ls : List Bytes} (hg : Good dot ls) (e : Entry α) :
    (e.place <+: (lowers ls).reverse ∧ leafMatches (name ls) (e.place = (lowers ls).reverse) e.leaf) ↔ e.matches (name ls) = true := by
  have hhost := hostcmp_name hg e.good e.ne
  have hdomain := domaincmp_name hg e.good e.ne
  have hplace : lowers e.labels <:+ lowers ls → e.place <+: (lowers ls).reverse := fun h =>
    (List.take_prefix _ _).trans (List.reverse_prefix.mpr h)
  have hshort : ¬e.labels.length > HOST_TABLE_DEPTH → e.place = (lowers e.labels).reverse := fun h =>
    List.take_of_length_le (by rw [List.length_reverse, List.length_map]; exact not_lt.mp h)
  rw [Entry.leaf, leafMatches, leafType, Entry.matches]
  by_cases hd : e.domainRecord = true
  · rw [if_pos hd, if_pos hd]
    by_cases hlen : e.labels.length > HOST_TABLE_DEPTH
    · rw [if_pos hlen]
      exact ⟨fun h => h.2, fun h => ⟨hplace (hdomain.mp h), h⟩⟩
    · rw [if_neg hlen, hdomain, hshort hlen, List.reverse_prefix]
      exact ⟨fun h => h.1, fun h => ⟨h, rfl⟩⟩
  · rw [if_neg hd, if_neg hd, beq_iff_eq, hhost]
    by_cases hlen : e.labels.length > HOST_TABLE_DEPTH
    · rw [if_pos hlen]
      dsimp only
      rw [beq_iff_eq, hhost]
      exact ⟨fun h => h.2, fun h => ⟨hplace (h ▸ List.suffix_refl _), h⟩⟩
    · rw [if_neg hlen, hshort hlen]
      dsimp only
      rw [decide_eq_true_eq, List.reverse_inj]
      exact ⟨fun h => h.2.symm, fun h => ⟨h ▸ List.prefix_refl _, h.symm⟩⟩

namespace Table

variable {t : Table α} {path : ℕ → List Bytes} {es : List (Entry α)}

/-- the labels that `MatchFirst` walks along; there is one label in the empty name -/
def walked (ls : List Bytes) : List Bytes := if ls = [] then [[]] else (lowers ls).reverse

theorem walked_mem {ls : List Bytes} {l : Bytes} (h : l ∈ walked ls) : l = [] ∨ ∃ m ∈ ls, l = lower m := by
  rw [walked] at h
  split_ifs at h
  · exact Or.inl (List.mem_singleton.mp h)
  · obtain ⟨m, hm, rfl⟩ := List.mem_map.mp (List.mem_reverse.mp h)
    exact Or.inr ⟨m, hm, rfl⟩

theorem walked_lower {ls : List Bytes} {l : Bytes} (h : l ∈ walked ls) : Lower l := by
  rcases walked_mem h with rfl | ⟨m, -, rfl⟩
  · exact fun c hc => absurd hc List.not_mem_nil
  · exact lower_lower m

/-- `MatchFirst` starts at the root. -/
theorem at_init (ht : Tree t path) {ls : List Bytes} (hg : Good dot ls) : At t path (name ls) (walked ls) (State.init (name ls)) (walked ls) := by
  refine ⟨rfl, ht.root.1, by rw [State.init, ht.root.2, List.nil_append], by rw [State.init, ht.root.2]; rfl, ?_⟩
  rcases List.eq_nil_or_concat' ls with rfl | ⟨ls, l, rfl⟩
  · exact ⟨0, rfl, [], rfl, Or.inl rfl, rfl⟩
  · have hw : walked (ls ++ [l]) = lower l :: (lowers ls).reverse := by
      rw [walked, if_neg (by simp), lowers, List.map_append, List.reverse_append]
      rfl
    rw [hw]
    refine ⟨_, rfl, ?_⟩
    rw [List.reverse_reverse]
    exact init_atLabel hg

/-- The results from the root on are the entries that match. -/
theorem Stored.remaining_init (h : Stored t path es) {ls : List Bytes} (hg : Good dot ls) :
    (t.remaining (State.init (name ls)) (walked ls)).Perm ((es.filter (·.matches (name ls))).map Entry.opaqueData) := by
  refine (h.results (name ls) (walked ls) (fun l hl => walked_lower hl) h.tree.root.1).trans ?_
  refine List.Perm.of_eq (congrArg _ (List.filter_congr fun e he => ?_))
  rw [h.tree.root.2, List.nil_append, Bool.eq_iff_iff, decide_eq_true_eq, ← e.matches_iff hg]
  by_cases hls : ls = []
  · -- no entry is without labels
    subst hls
    obtain ⟨l, ks, hks⟩ := List.exists_cons_of_ne_nil (show e.place ≠ [] by
      intro hnil
      rw [Entry.place, List.take_eq_nil_iff] at hnil
      simp [HOST_TABLE_DEPTH, e.ne] at hnil)
    have hl : NextLevel.Key l := e.key l (List.mem_of_mem_take (show l ∈ e.place by rw [hks]; simp))
    rw [hks]
    constructor
    · rintro ⟨-, hp, -⟩
      exact absurd (List.cons_prefix_cons.mp hp).1 hl.ne
    · rintro ⟨hp, -⟩
      simp at hp
  · rw [walked, if_neg hls]
    exact ⟨fun hm => hm.2, fun hm => ⟨List.nil_prefix, hm⟩⟩

/-- `MatchFirst` and the calls of `MatchNext` behind it return the entries that match the name, each of them once, and fail from then on. -/
theorem host_lookup (es : List (Entry α)) {ls : List Bytes} (hg : Good dot ls) (hnull : ∀ l ∈ ls, 0 ∉ l) :
    ∃ rs : List α, rs.Perm ((es.filter (·.matches (name ls))).map Entry.opaqueData) ∧
      ∀ k, ((build es).matchCall (name ls) k).1 = rs[k]? := by
  obtain ⟨path, h⟩ := stored_build es
  have hgood : Good dot (walked ls).tail := by
    intro l hl
    rw [walked] at hl
    split_ifs at hl
    · simp at hl
    · exact good_lowers hg l (List.mem_reverse.mp (List.mem_of_mem_tail hl))
  have hnull' : ∀ l ∈ walked ls, 0 ∉ l := by
    intro l hl
    rcases walked_mem hl with rfl | ⟨m, hm, rfl⟩
    · exact List.not_mem_nil
    · intro hc
      obtain ⟨c, hc, he⟩ := List.mem_map.mp hc
      exact hnull m hm (toLower_eq_null.mp he ▸ hc)
  exact ⟨_, h.remaining_init hg, fun k => (matchCall_eq h.tree hgood (fun l hl => walked_lower hl) hnull' (at_init h.tree hg) k).1⟩

/-- the domain `c` and the hosts `a.c` and `d.b.a.c` -/
def exampleEntries : List (Entry ℕ) :=
  [⟨[[99]], true, 1, by simp, by unfold Good; decide, by decide⟩,
    ⟨[[97], [99]], false, 2, by simp, by unfold Good; decide, by decide⟩,
    ⟨[[100], [98], [97], [99]], false, 3, by simp, by unfold Good; decide, by decide⟩]

theorem host_lookup_example : ∃ rs : List ℕ, rs.Perm [1, 2] ∧ ∀ k, ((build exampleEntries).matchCall (name [[97], [99]]) k).1 = rs[k]? := by
  obtain ⟨rs, hrs, hcall⟩ := @host_lookup ℕ exampleEntries [[97], [99]] (by unfold Good; decide) (by decide)
  exact ⟨rs, hrs.trans (List.Perm.of_eq (by decide)), hcall⟩

end Table

end TrafficServer.HostLookup
