/-
The remap rules of one mapping store (`proxy/http/remap`: `UrlRewrite.cc`, `UrlMappingPathIndex.cc`).

`InsertMapping` gives a rule the number of the rules so far as its rank. A rule with an expression for its host goes to a list; any other
goes to a hash table under its host, there to the trie of its scheme and port, and there under its path, which must be free.

`_mappingLookup` takes the best rule of the hash table and then scans the list, but not beyond the rank that it has. `Rep` says what the two
hold after a sequence of rules; `mappingLookup_first` says that together they find the first rule that matches.
-/
import Mathlib
import TrafficServer.Hdrs.HdrToken
import TrafficServer.TsCore.Trie

namespace TrafficServer.Http.Remap

open TrafficServer.Hdrs TrafficServer.TsCore

/-! ## URLs -/

def URL_WKSIDX_HTTP : ℕ := hdrtokenStrs.idxOf "http"

def URL_WKSIDX_HTTPS : ℕ := hdrtokenStrs.idxOf "https"

/-- what remapping reads of a URL; `port` is what `port_get` returns -/
structure Url where
  /-- `m_scheme_wks_idx`, -1 if the scheme is not a well-known string -/
  schemeWksIdx : Option ℕ
  /-- `m_ptr_scheme` -/
  ptrScheme : List UInt8
  port : ℤ
  path : List UInt8

/-- `url_scheme_get` -/
def Url.schemeGet (u : Url) : List UInt8 :=
  match u.schemeWksIdx with
  | some i => hdrtokenIndexToWks i
  | none => u.ptrScheme

/-- `tolower` -/
def tolower (c : UInt8) : UInt8 := if 65 ≤ c ∧ c ≤ 90 then c + 32 else c

/-- a string ends at its first null -/
def cstr (s : List UInt8) : List UInt8 := s.takeWhile (· != 0)

/-- `strncmp` finds no difference -/
def strncmpEq : ℕ → List UInt8 → List UInt8 → Bool
  | 0, _, _ => true
  | n + 1, a :: as, b :: bs => a == b && (a == 0 || strncmpEq n as bs)
  | _ + 1, _, _ => false

/-! ## The store -/

/-- `url_mapping` -/
structure UrlMapping where
  fromURL : Url
  rank : ℕ

/-- `RegexMapping`: the expression is compiled from the host of the rule -/
structure RegexMapping where
  urlMap : UrlMapping
  regularExpression : List UInt8 → Bool

/-- `UrlMappingPathIndex`: a trie for each scheme and port, in the order of the keys -/
abbrev UrlMappingPathIndex := List ((ℕ × ℤ) × Trie.Node UInt8 UrlMapping)

namespace UrlMappingPathIndex

/-- `UrlMappingTrieKey::operator<` -/
def keyLt (k k' : ℕ × ℤ) : Bool := if k.1 = k'.1 then k.2 < k'.2 else k.1 < k'.1

def find (k : ℕ × ℤ) : UrlMappingPathIndex → Option (Trie.Node UInt8 UrlMapping)
  | [] => none
  | (k', t) :: ix => if k = k' then some t else find k ix

/-- the trie of a key, in place of the one that was there -/
def set (k : ℕ × ℤ) (t : Trie.Node UInt8 UrlMapping) : UrlMappingPathIndex → UrlMappingPathIndex
  | [] => [(k, t)]
  | (k', t') :: ix =>
    if k = k' then (k, t) :: ix
    else if keyLt k k' then (k, t) :: (k', t') :: ix
    else (k', t') :: set k t ix

/-- the scheme index of `_GetTrie`: guessed from the port if there is none -/
def schemeIdx (url : Url) (port : ℤ) : ℕ :=
  match url.schemeWksIdx with
  | some i => i
  | none => if port = 80 then URL_WKSIDX_HTTP else URL_WKSIDX_HTTPS

/-- `_GetTrie`; without a search it is the first trie -/
def getTrie (ix : UrlMappingPathIndex) (url : Url) (port : ℤ) (search : Bool) : Option (Trie.Node UInt8 UrlMapping) :=
  if search then ix.find (schemeIdx url port, port) else ix.head?.map Prod.snd

def Insert (ix : UrlMappingPathIndex) (mapping : UrlMapping) : Option UrlMappingPathIndex :=
  let port := mapping.fromURL.port
  let trie := (getTrie ix mapping.fromURL port true).getD Trie.Node.clear
  (trie.insert mapping mapping.rank mapping.fromURL.path).map (ix.set (schemeIdx mapping.fromURL port, port))

def Search (ix : UrlMappingPathIndex) (requestUrl : Url) (requestPort : ℤ) (normalSearch : Bool) : Option UrlMapping :=
  (getTrie ix requestUrl requestPort normalSearch).bind fun trie => (trie.search requestUrl.path).map Prod.fst

end UrlMappingPathIndex

/-- `MappingsStore` with the counter of its rules -/
structure MappingsStore where
  hashLookup : List UInt8 → Option UrlMappingPathIndex
  regexList : List RegexMapping
  count : ℕ

/-- a rule as `InsertMapping` gets it -/
structure Rule where
  fromURL : Url
  /-- `src_host`, in lower case -/
  srcHost : List UInt8
  /-- the expression of a regex rule -/
  expression : Option (List UInt8 → Bool)

namespace MappingsStore

def empty : MappingsStore := ⟨fun _ => none, [], 0⟩

/-- `TableInsert`; what refuses the mapping was there before and has not changed -/
def tableInsert (hashLookup : List UInt8 → Option UrlMappingPathIndex) (mapping : UrlMapping) (srcHost : List UInt8) :
    Option (List UInt8 → Option UrlMappingPathIndex) :=
  (((hashLookup srcHost).getD []).Insert mapping).map fun ix => Function.update hashLookup srcHost (some ix)

/-- `_addToStore`: whether the rule was accepted, and the store -/
def addToStore (store : MappingsStore) (rule : Rule) : Bool × MappingsStore :=
  let newMapping : UrlMapping := ⟨rule.fromURL, store.count⟩
  match rule.expression with
  | some e => (true, { store with regexList := store.regexList ++ [⟨newMapping, e⟩], count := store.count + 1 })
  | none =>
    match tableInsert store.hashLookup newMapping rule.srcHost with
    | some hashLookup => (true, { store with hashLookup := hashLookup, count := store.count + 1 })
    | none => (false, store)

/-- `InsertMapping` for each rule -/
def insertMappings (rules : List Rule) : MappingsStore := rules.foldl (fun store rule => (store.addToStore rule).2) empty

end MappingsStore

/-! ## The lookup -/

def tableLookup (hashLookup : List UInt8 → Option UrlMappingPathIndex) (requestUrl : Url) (requestPort : ℤ) (requestHost : List UInt8) :
    Option UrlMapping :=
  -- the key is a null-terminated string
  (hashLookup (cstr requestHost)).bind fun ix => ix.Search requestUrl requestPort (requestHost.length != 0)

/-- the tests of `_regexMappingLookup` on one mapping of the list -/
def regexMatches (requestScheme : List UInt8) (requestUrl : Url) (requestPort : ℤ) (requestHost : List UInt8) (m : RegexMapping) : Bool :=
  let regMapScheme := m.urlMap.fromURL.schemeGet
  let regMapPath := m.urlMap.fromURL.path
  (requestScheme.length == regMapScheme.length && strncmpEq requestScheme.length requestScheme regMapScheme) &&
    m.urlMap.fromURL.port == requestPort &&
    (regMapPath.length ≤ requestUrl.path.length && strncmpEq regMapPath.length regMapPath requestUrl.path) &&
    m.regularExpression requestHost

/-- the loop over the list; no ceiling is `INT_MAX` -/
def regexLoop (requestScheme : List UInt8) (requestUrl : Url) (requestPort : ℤ) (requestHost : List UInt8) (rankCeiling : Option ℕ) :
    List RegexMapping → Option UrlMapping
  | [] => none
  | m :: list =>
    if rankCeiling.any (m.urlMap.rank > ·) then none
    else if regexMatches requestScheme requestUrl requestPort requestHost m then some m.urlMap
    else regexLoop requestScheme requestUrl requestPort requestHost rankCeiling list

/-- the scheme of a request; if it is empty it is guessed from the port -/
def requestScheme (requestUrl : Url) (requestPort : ℤ) : List UInt8 :=
  if requestUrl.schemeGet.length = 0 then hdrtokenIndexToWks (if requestPort = 80 then URL_WKSIDX_HTTP else URL_WKSIDX_HTTPS)
  else requestUrl.schemeGet

def regexMappingLookup (regexList : List RegexMapping) (requestUrl : Url) (requestPort : ℤ) (requestHost : List UInt8)
    (rankCeiling : Option ℕ) : Option UrlMapping :=
  regexLoop (requestScheme requestUrl requestPort) requestUrl requestPort requestHost rankCeiling regexList

/-- `_mappingLookup`, with `maxHostNameLen` for `TS_MAX_HOST_NAME_LEN` -/
def mappingLookup (maxHostNameLen : ℕ) (store : MappingsStore) (requestUrl : Url) (requestPort : ℤ) (requestHost : List UInt8) :
    Option UrlMapping :=
  if requestHost.length ≥ maxHostNameLen then none
  else
    let requestHostLower := requestHost.map tolower
    let mapping := tableLookup store.hashLookup requestUrl requestPort requestHostLower
    match regexMappingLookup store.regexList requestUrl requestPort requestHostLower (mapping.map UrlMapping.rank) with
    | some m => some m
    | none => mapping

/-! ## The rules that are accepted -/

/-- scheme and port of a rule, as its trie has them -/
def Rule.key (rule : Rule) : ℕ × ℤ := (UrlMappingPathIndex.schemeIdx rule.fromURL rule.fromURL.port, rule.fromURL.port)

/-- two rules without an expression that have the same place -/
def Rule.duplicate (rule rule' : Rule) : Bool :=
  rule.expression.isNone && rule'.expression.isNone && rule.srcHost == rule'.srcHost && rule.key == rule'.key &&
    rule.fromURL.path == rule'.fromURL.path

/-- a duplicate of an accepted rule is rejected -/
def accept (accepted : List Rule) (rule : Rule) : List Rule :=
  if accepted.any rule.duplicate then accepted else accepted ++ [rule]

def acceptedRules (rules : List Rule) : List Rule := rules.foldl accept []

theorem duplicate_iff {rule rule' : Rule} : rule.duplicate rule' = true ↔
    rule.expression = none ∧ rule'.expression = none ∧ rule.srcHost = rule'.srcHost ∧ rule.key = rule'.key ∧
      rule.fromURL.path = rule'.fromURL.path := by
  simp [Rule.duplicate, and_assoc]

/-! ## What the table holds -/

namespace UrlMappingPathIndex

theorem find_set (k k' : ℕ × ℤ) (t : Trie.Node UInt8 UrlMapping) (ix : UrlMappingPathIndex) :
    (ix.set k t).find k' = if k' = k then some t else ix.find k' := by
  induction ix with
  | nil => simp [set, find]
  | cons a ix ih =>
    obtain ⟨ka, ta⟩ := a
    simp only [set]
    by_cases hk : k = ka
    · subst hk
      rw [if_pos rfl]
      by_cases hk' : k' = k <;> simp [find, hk']
    · rw [if_neg hk]
      by_cases hlt : keyLt k ka
      · rw [if_pos hlt]
        by_cases hk' : k' = k <;> simp [find, hk']
      · rw [if_neg hlt]
        by_cases hka : k' = ka
        · subst hka
          simp [find, Ne.symm hk]
        · simp [find, hka, ih]

/-- the entry for a scheme and port, and a path -/
def entry (ix : UrlMappingPathIndex) (k : ℕ × ℤ) (path : List UInt8) : Option (UrlMapping × ℕ) :=
  (ix.find k).bind (Trie.Node.at' path)

/-- the trie that `Insert` takes has the entries of the index -/
theorem at_getD (ix : UrlMappingPathIndex) (k : ℕ × ℤ) (path : List UInt8) :
    Trie.Node.at' path ((ix.find k).getD Trie.Node.clear) = ix.entry k path := by
  rw [entry]
  cases ix.find k with
  | none => exact Trie.Node.at_clear path
  | some t => rfl

theorem insert_none {ix : UrlMappingPathIndex} {m : UrlMapping} :
    ix.Insert m = none ↔ (ix.entry (schemeIdx m.fromURL m.fromURL.port, m.fromURL.port) m.fromURL.path).isSome := by
  rw [← at_getD, ← @Trie.Node.insert_none _ _ _ m m.rank]
  simp [Insert, getTrie]

theorem insert_some {ix ix' : UrlMappingPathIndex} {m : UrlMapping} (h : ix.Insert m = some ix') (k : ℕ × ℤ) (path : List UInt8) :
    ix'.entry k path =
      if k = (schemeIdx m.fromURL m.fromURL.port, m.fromURL.port) ∧ path = m.fromURL.path then some (m, m.rank)
      else ix.entry k path := by
  obtain ⟨t, ht, rfl⟩ := Option.map_eq_some_iff.mp h
  rw [entry, find_set]
  by_cases hk : k = (schemeIdx m.fromURL m.fromURL.port, m.fromURL.port)
  · subst hk
    rw [if_pos rfl, Option.bind_some, Trie.Node.insert_at ht path]
    simp only [getTrie, if_true, at_getD, true_and]
  · rw [if_neg hk, if_neg (fun hc => hk hc.1)]
    rfl

end UrlMappingPathIndex

namespace MappingsStore

def entry (hashLookup : List UInt8 → Option UrlMappingPathIndex) (host : List UInt8) (k : ℕ × ℤ) (path : List UInt8) :
    Option (UrlMapping × ℕ) :=
  ((hashLookup host).getD []).entry k path

theorem tableInsert_none {hashLookup : List UInt8 → Option UrlMappingPathIndex} {m : UrlMapping} {host : List UInt8} :
    tableInsert hashLookup m host = none ↔
      (entry hashLookup host (UrlMappingPathIndex.schemeIdx m.fromURL m.fromURL.port, m.fromURL.port) m.fromURL.path).isSome := by
  rw [entry, ← UrlMappingPathIndex.insert_none]
  simp [tableInsert]

theorem tableInsert_some {hashLookup hashLookup' : List UInt8 → Option UrlMappingPathIndex} {m : UrlMapping} {host : List UInt8}
    (h : tableInsert hashLookup m host = some hashLookup') (host' : List UInt8) (k : ℕ × ℤ) (path : List UInt8) :
    entry hashLookup' host' k path =
      if host' = host ∧ k = (UrlMappingPathIndex.schemeIdx m.fromURL m.fromURL.port, m.fromURL.port) ∧ path = m.fromURL.path
      then some (m, m.rank) else entry hashLookup host' k path := by
  obtain ⟨ix, hix, rfl⟩ := Option.map_eq_some_iff.mp h
  rw [entry, Function.update_apply]
  by_cases hh : host' = host
  · subst hh
    rw [if_pos rfl, Option.getD_some, UrlMappingPathIndex.insert_some hix]
    simp only [true_and]
    rfl
  · rw [if_neg hh, if_neg (fun hc => hh hc.1)]
    rfl

/-- The store after the rules `acc`: the rank of a rule is its place, the table has the rules without an expression and the list the others,
in order. -/
structure Rep (store : MappingsStore) (acc : List Rule) : Prop where
  count : store.count = acc.length
  hash : ∀ host k path m i, entry store.hashLookup host k path = some (m, i) ↔
    ∃ r, acc[i]? = some r ∧ r.expression = none ∧ m = ⟨r.fromURL, i⟩ ∧ r.srcHost = host ∧ r.key = k ∧ r.fromURL.path = path
  regex : ∀ m, m ∈ store.regexList ↔
    ∃ i r, acc[i]? = some r ∧ r.expression = some m.regularExpression ∧ m.urlMap = ⟨r.fromURL, i⟩
  sorted : store.regexList.Pairwise fun m m' => m.urlMap.rank < m'.urlMap.rank

theorem rep_empty : Rep empty [] :=
  ⟨rfl, by simp [entry, empty, UrlMappingPathIndex.entry, UrlMappingPathIndex.find], by simp [empty], by simp [empty]⟩

theorem Rep.isSome_iff {store : MappingsStore} {acc : List Rule} (h : Rep store acc) {rule : Rule} (he : rule.expression = none) :
    (entry store.hashLookup rule.srcHost rule.key rule.fromURL.path).isSome ↔ acc.any rule.duplicate = true := by
  rw [Option.isSome_iff_exists, List.any_eq_true]
  constructor
  · rintro ⟨⟨m, i⟩, hm⟩
    obtain ⟨r, hr, hre, -, hh, hk, hp⟩ := (h.hash _ _ _ m i).mp hm
    exact ⟨r, List.mem_of_getElem? hr, duplicate_iff.mpr ⟨he, hre, hh.symm, hk.symm, hp.symm⟩⟩
  · rintro ⟨r, hr, hd⟩
    obtain ⟨-, hre, hh, hk, hp⟩ := duplicate_iff.mp hd
    obtain ⟨i, hi⟩ := List.getElem?_of_mem hr
    exact ⟨_, (h.hash _ _ _ _ i).mpr ⟨r, hi, hre, rfl, hh.symm, hk.symm, hp.symm⟩⟩

theorem getElem?_snoc {α : Type} (l : List α) (a : α) (i : ℕ) (b : α) :
    (l ++ [a])[i]? = some b ↔ l[i]? = some b ∨ i = l.length ∧ b = a := by
  rcases lt_trichotomy i l.length with hi | hi | hi
  · rw [List.getElem?_append_left hi]
    simp [hi.ne]
  · subst hi
    simp [eq_comm]
  · rw [List.getElem?_eq_none (by simp; omega), List.getElem?_eq_none (by omega)]
    simp [hi.ne']

/-- a regex rule is never refused -/
theorem addToStore_regex {store : MappingsStore} {acc : List Rule} (h : Rep store acc) {rule : Rule} {e : List UInt8 → Bool}
    (he : rule.expression = some e) : Rep (store.addToStore rule).2 (acc ++ [rule]) ∧ (store.addToStore rule).1 = true := by
  have hadd : store.addToStore rule =
      (true, { store with regexList := store.regexList ++ [⟨⟨rule.fromURL, store.count⟩, e⟩], count := store.count + 1 }) := by
    simp only [addToStore, he]
  rw [hadd]
  refine ⟨⟨?_, ?_, ?_, ?_⟩, rfl⟩
  · simp [h.count]
  · intro host k path m i
    rw [h.hash]
    refine exists_congr fun r => ?_
    rw [getElem?_snoc]
    constructor
    · exact fun ⟨hr, hx⟩ => ⟨Or.inl hr, hx⟩
    · rintro ⟨hr | ⟨-, rfl⟩, hx⟩
      · exact ⟨hr, hx⟩
      · simp [he] at hx
  · intro m
    simp only [List.mem_append, List.mem_singleton, h.regex, getElem?_snoc]
    constructor
    · rintro (⟨i, r, hr, hx⟩ | rfl)
      · exact ⟨i, r, Or.inl hr, hx⟩
      · exact ⟨acc.length, rule, Or.inr ⟨rfl, rfl⟩, he, by rw [h.count]⟩
    · rintro ⟨i, r, hr | ⟨rfl, rfl⟩, hx, hm⟩
      · exact Or.inl ⟨i, r, hr, hx, hm⟩
      · obtain ⟨u, x⟩ := m
        obtain rfl := Option.some.inj (he.symm.trans hx)
        simp only at hm
        exact Or.inr (by rw [hm, h.count])
  · refine List.pairwise_append.mpr ⟨h.sorted, by simp, ?_⟩
    intro m hm m' hm'
    obtain ⟨i, r, hr, -, hu⟩ := (h.regex m).mp hm
    rw [List.mem_singleton.mp hm', hu, h.count]
    exact (List.getElem?_eq_some_iff.mp hr).1

/-- a rule without an expression is accepted if its place is free -/
theorem addToStore_hash {store : MappingsStore} {acc : List Rule} (h : Rep store acc) {rule : Rule} (he : rule.expression = none)
    (hd : acc.any rule.duplicate = false) : Rep (store.addToStore rule).2 (acc ++ [rule]) ∧ (store.addToStore rule).1 = true := by
  have hfree : tableInsert store.hashLookup ⟨rule.fromURL, store.count⟩ rule.srcHost ≠ none := by
    intro ht
    rw [(h.isSome_iff he).mp (tableInsert_none.mp ht)] at hd
    simp at hd
  obtain ⟨hashLookup, ht⟩ := Option.ne_none_iff_exists'.mp hfree
  have hadd : store.addToStore rule = (true, { store with hashLookup := hashLookup, count := store.count + 1 }) := by
    simp only [addToStore, he, ht]
  have hent : ∀ host k path, entry hashLookup host k path =
      if host = rule.srcHost ∧ k = rule.key ∧ path = rule.fromURL.path then some (⟨rule.fromURL, store.count⟩, store.count)
      else entry store.hashLookup host k path := tableInsert_some ht
  rw [hadd]
  refine ⟨⟨?_, ?_, ?_, h.sorted⟩, rfl⟩
  · simp [h.count]
  · intro host k path m i
    simp only [hent, getElem?_snoc]
    by_cases hplace : host = rule.srcHost ∧ k = rule.key ∧ path = rule.fromURL.path
    · rw [if_pos hplace]
      obtain ⟨rfl, rfl, rfl⟩ := hplace
      constructor
      · intro hs
        obtain ⟨rfl, rfl⟩ := Prod.mk.inj (Option.some.inj hs)
        exact ⟨rule, Or.inr ⟨h.count, rfl⟩, he, rfl, rfl, rfl, rfl⟩
      · rintro ⟨r, hr | ⟨rfl, rfl⟩, hre, rfl, hh, hk, hp⟩
        · have hany : acc.any rule.duplicate = true :=
            List.any_eq_true.mpr ⟨r, List.mem_of_getElem? hr, duplicate_iff.mpr ⟨he, hre, hh.symm, hk.symm, hp.symm⟩⟩
          simp [hd] at hany
        · rw [h.count]
    · rw [if_neg hplace, h.hash]
      refine exists_congr fun r => ?_
      constructor
      · exact fun ⟨hr, hx⟩ => ⟨Or.inl hr, hx⟩
      · rintro ⟨hr | ⟨-, rfl⟩, hx⟩
        · exact ⟨hr, hx⟩
        · exact absurd ⟨hx.2.2.1.symm, hx.2.2.2.1.symm, hx.2.2.2.2.symm⟩ hplace
  · intro m
    rw [h.regex]
    refine exists_congr fun i => exists_congr fun r => ?_
    rw [getElem?_snoc]
    constructor
    · exact fun ⟨hr, hx⟩ => ⟨Or.inl hr, hx⟩
    · rintro ⟨hr | ⟨-, rfl⟩, hx⟩
      · exact ⟨hr, hx⟩
      · simp [he] at hx

/-- one rule -/
theorem addToStore_rep {store : MappingsStore} {acc : List Rule} (h : Rep store acc) (rule : Rule) :
    Rep (store.addToStore rule).2 (accept acc rule) ∧ (store.addToStore rule).1 = !acc.any rule.duplicate := by
  unfold accept
  cases hd : acc.any rule.duplicate with
  | true =>
    obtain ⟨r, -, hr⟩ := List.any_eq_true.mp hd
    have he := (duplicate_iff.mp hr).1
    have ht : tableInsert store.hashLookup ⟨rule.fromURL, store.count⟩ rule.srcHost = none :=
      tableInsert_none.mpr ((h.isSome_iff he).mpr hd)
    have hadd : store.addToStore rule = (false, store) := by simp only [addToStore, he, ht]
    rw [hadd]
    exact ⟨h, rfl⟩
  | false =>
    cases he : rule.expression with
    | some e => exact addToStore_regex h he
    | none => exact addToStore_hash h he hd

/-- any sequence of rules -/
theorem insertMappings_rep (rules : List Rule) : Rep (insertMappings rules) (acceptedRules rules) := by
  have run : ∀ (rules : List Rule) (store : MappingsStore) (acc : List Rule), Rep store acc →
      Rep (rules.foldl (fun store rule => (store.addToStore rule).2) store) (rules.foldl accept acc) := by
    intro rules
    induction rules with
    | nil => exact fun _ _ h => h
    | cons rule rules ih => exact fun store acc h => ih _ _ (addToStore_rep h rule).1
  exact run rules empty [] rep_empty

end MappingsStore

/-! ## What is looked up -/

/-- A rule of `remap.config`: its scheme is one of the well-known ones, its path is part of a null-terminated line. -/
structure Rule.Configured (rule : Rule) : Prop where
  scheme : ∃ i < hdrtokenStrs.length, rule.fromURL.schemeWksIdx = some i
  path : 0 ∉ rule.fromURL.path

/-- the scheme of a request is a well-known string, or empty -/
structure Url.Known (url : Url) : Prop where
  wks : ∀ i, url.schemeWksIdx = some i → i < hdrtokenStrs.length
  other : url.schemeWksIdx = none → url.ptrScheme = []

/-- a rule matches a request with these scheme, port and path, and this host in lower case -/
def Rule.matches (scheme : List UInt8) (port : ℤ) (path host : List UInt8) (rule : Rule) : Bool :=
  (match rule.expression with
    | none => rule.srcHost == cstr host
    | some e => e host) &&
    rule.fromURL.schemeGet == scheme && rule.fromURL.port == port && rule.fromURL.path.isPrefixOf path

/-- the first rule that matches, with its place -/
def firstMatch (rules : List Rule) (p : Rule → Bool) : Option UrlMapping :=
  (rules.findIdx? p).bind fun i => rules[i]?.map fun rule => ⟨rule.fromURL, i⟩

theorem strncmpEq_isPrefixOf {a : List UInt8} (h : 0 ∉ a) (b : List UInt8) : strncmpEq a.length a b = a.isPrefixOf b := by
  induction a generalizing b with
  | nil => simp [strncmpEq]
  | cons x a ih =>
    have hx : x ≠ 0 := fun he => h (by simp [he])
    cases b with
    | nil => rfl
    | cons y b =>
      have h0 : (x == 0) = false := beq_eq_false_iff_ne.mpr hx
      rw [List.length_cons, strncmpEq, ih (fun hm => h (List.mem_cons_of_mem x hm)) b, h0, Bool.false_or]
      rfl

theorem strncmpEq_eq {a : List UInt8} (h : 0 ∉ a) (b : List UInt8) :
    (a.length == b.length && strncmpEq a.length a b) = (b == a) := by
  rw [strncmpEq_isPrefixOf h, Bool.eq_iff_iff]
  simp only [Bool.and_eq_true, beq_iff_eq, List.isPrefixOf_iff_prefix]
  constructor
  · exact fun ⟨hl, hp⟩ => (hp.eq_of_length hl).symm
  · rintro rfl
    exact ⟨rfl, List.prefix_refl _⟩

theorem prefix_eq {a : List UInt8} (h : 0 ∉ a) (b : List UInt8) :
    (decide (a.length ≤ b.length) && strncmpEq a.length a b) = a.isPrefixOf b := by
  rw [strncmpEq_isPrefixOf h, Bool.eq_iff_iff]
  simp only [Bool.and_eq_true, decide_eq_true_eq, List.isPrefixOf_iff_prefix]
  exact ⟨fun hp => hp.2, fun hp => ⟨hp.length_le, hp⟩⟩

section Lookup

variable {url : Url} {port : ℤ}

theorem schemeIdx_lt (hu : url.Known) : UrlMappingPathIndex.schemeIdx url port < hdrtokenStrs.length := by
  have hw : URL_WKSIDX_HTTP < hdrtokenStrs.length ∧ URL_WKSIDX_HTTPS < hdrtokenStrs.length := by decide +kernel
  unfold UrlMappingPathIndex.schemeIdx
  cases hs : url.schemeWksIdx with
  | some i => exact hu.wks i hs
  | none =>
    by_cases hp : port = 80
    · rw [if_pos hp]
      exact hw.1
    · rw [if_neg hp]
      exact hw.2

/-- the two lookups see the same scheme -/
theorem requestScheme_eq (hu : url.Known) : requestScheme url port = hdrtokenIndexToWks (UrlMappingPathIndex.schemeIdx url port) := by
  unfold requestScheme UrlMappingPathIndex.schemeIdx Url.schemeGet
  cases hs : url.schemeWksIdx with
  | none => simp only [hu.other hs, List.length_nil, if_true]
  | some i =>
    have hlen : (hdrtokenIndexToWks i).length ≠ 0 := by
      have hall : ∀ s ∈ hdrtokenStrs, (text s).length ≠ 0 := by decide +kernel
      have hi := hu.wks i hs
      have hget : hdrtokenStrs.getD i "" = hdrtokenStrs[i] := by simp [hi]
      rw [hdrtokenIndexToWks, hget]
      exact hall _ (List.getElem_mem hi)
    simp only [if_neg hlen]

theorem Rule.Configured.key_iff {rule : Rule} (h : rule.Configured) (hu : url.Known) :
    rule.key = (UrlMappingPathIndex.schemeIdx url port, port) ↔
      rule.fromURL.schemeGet = requestScheme url port ∧ rule.fromURL.port = port := by
  obtain ⟨i, hi, hs⟩ := h.scheme
  have hidx : UrlMappingPathIndex.schemeIdx rule.fromURL rule.fromURL.port = i := by
    simp only [UrlMappingPathIndex.schemeIdx, hs]
  have hget : rule.fromURL.schemeGet = hdrtokenIndexToWks i := by
    simp only [Url.schemeGet, hs]
  rw [Rule.key, hidx, requestScheme_eq hu, hget, Prod.mk.injEq]
  refine and_congr_left fun _ => ⟨fun he => by rw [he], hdrtokenIndexToWks_inj hi (schemeIdx_lt hu)⟩

theorem matches_iff {scheme path host : List UInt8} {rule : Rule} :
    rule.matches scheme port path host = true ↔
      (match rule.expression with
        | none => rule.srcHost = cstr host
        | some e => e host = true) ∧ rule.fromURL.schemeGet = scheme ∧ rule.fromURL.port = port ∧ rule.fromURL.path <+: path := by
  rw [Rule.matches]
  cases rule.expression <;> simp [and_assoc]

variable {store : MappingsStore} {acc : List Rule} {host : List UInt8}

theorem tableLookup_eq (hh : host ≠ []) : tableLookup store.hashLookup url port host =
    ((((store.hashLookup (cstr host)).getD []).find (UrlMappingPathIndex.schemeIdx url port, port)).bind fun t =>
      (t.search url.path).map Prod.fst) := by
  have hlen : (host.length != 0) = true := by simp [hh]
  unfold tableLookup
  rw [hlen]
  cases store.hashLookup (cstr host) <;> rfl

/-- a rule of the table that matches is an entry under a prefix of the path -/
theorem entry_of_matches (h : MappingsStore.Rep store acc) (hu : url.Known) {i : ℕ} {rule : Rule} (hr : acc[i]? = some rule)
    (hc : rule.Configured) (he : rule.expression = none)
    (hm : rule.matches (requestScheme url port) port url.path host = true) :
    rule.fromURL.path <+: url.path ∧
      MappingsStore.entry store.hashLookup (cstr host) (UrlMappingPathIndex.schemeIdx url port, port) rule.fromURL.path =
        some (⟨rule.fromURL, i⟩, i) := by
  obtain ⟨hhost, hs, hp, hpath⟩ := matches_iff.mp hm
  rw [he] at hhost
  exact ⟨hpath, (h.hash _ _ _ _ _).mpr ⟨rule, hr, he, rfl, hhost, (hc.key_iff hu).mpr ⟨hs, hp⟩, rfl⟩⟩

theorem tableLookup_none (h : MappingsStore.Rep store acc) (hc : ∀ rule ∈ acc, rule.Configured) (hu : url.Known) (hh : host ≠ [])
    (hl : tableLookup store.hashLookup url port host = none) {rule : Rule} (hr : rule ∈ acc) (he : rule.expression = none) :
    rule.matches (requestScheme url port) port url.path host = false := by
  by_contra hm
  obtain ⟨i, hi⟩ := List.getElem?_of_mem hr
  obtain ⟨hp, hent⟩ := entry_of_matches h hu hi (hc rule hr) he (Bool.eq_true_of_not_eq_false hm)
  rw [MappingsStore.entry, UrlMappingPathIndex.entry, Option.bind_eq_some_iff] at hent
  obtain ⟨t, ht, hat⟩ := hent
  rw [tableLookup_eq hh, ht, Option.bind_some, Option.map_eq_none_iff] at hl
  rw [Trie.Node.search_none hl hp] at hat
  simp at hat

/-- what the table finds is the best of its rules -/
theorem tableLookup_some (h : MappingsStore.Rep store acc) (hc : ∀ rule ∈ acc, rule.Configured) (hu : url.Known) (hh : host ≠ [])
    {m : UrlMapping} (hl : tableLookup store.hashLookup url port host = some m) :
    (∃ rule, acc[m.rank]? = some rule ∧ m.fromURL = rule.fromURL ∧ rule.matches (requestScheme url port) port url.path host = true) ∧
      ∀ j rule, acc[j]? = some rule → rule.expression = none → rule.matches (requestScheme url port) port url.path host = true →
        m.rank ≤ j := by
  rw [tableLookup_eq hh, Option.bind_eq_some_iff] at hl
  obtain ⟨t, ht, hs⟩ := hl
  obtain ⟨⟨m', i⟩, hfound, rfl⟩ := Option.map_eq_some_iff.mp hs
  obtain ⟨⟨p, hp, hat⟩, hbest⟩ := Trie.Node.search_some hfound
  have hent : ∀ q, MappingsStore.entry store.hashLookup (cstr host) (UrlMappingPathIndex.schemeIdx url port, port) q =
      Trie.Node.at' q t := by
    intro q
    rw [MappingsStore.entry, UrlMappingPathIndex.entry, ht, Option.bind_some]
  obtain ⟨rule, hr, he, rfl, hhost, hk, rfl⟩ := (h.hash _ _ _ _ _).mp ((hent p).trans hat)
  obtain ⟨hsch, hport⟩ := ((hc rule (List.mem_of_getElem? hr)).key_iff hu).mp hk
  refine ⟨⟨rule, hr, rfl, matches_iff.mpr ⟨by rw [he]; exact hhost, hsch, hport, hp⟩⟩, ?_⟩
  intro j rule' hj he' hm
  obtain ⟨hp', hent'⟩ := entry_of_matches h hu hj (hc rule' (List.mem_of_getElem? hj)) he' hm
  exact hbest _ _ hp' ((hent _).symm.trans hent')

/-- the loop over a list in the order of the ranks -/
theorem regexLoop_spec (url : Url) (port : ℤ) (host : List UInt8) (scheme : List UInt8) (ceiling : Option ℕ) {list : List RegexMapping}
    (hs : list.Pairwise fun m m' => m.urlMap.rank < m'.urlMap.rank) :
    match regexLoop scheme url port host ceiling list with
    | none => ∀ m ∈ list, (∀ c, ceiling = some c → m.urlMap.rank ≤ c) → regexMatches scheme url port host m = false
    | some u => ∃ m ∈ list, m.urlMap = u ∧ regexMatches scheme url port host m = true ∧ (∀ c, ceiling = some c → u.rank ≤ c) ∧
        ∀ m' ∈ list, regexMatches scheme url port host m' = true → u.rank ≤ m'.urlMap.rank := by
  induction list with
  | nil => simp [regexLoop]
  | cons m list ih =>
    obtain ⟨hlt, hs⟩ := List.pairwise_cons.mp hs
    have ih := ih hs
    rw [regexLoop]
    by_cases hc : ceiling.any (m.urlMap.rank > ·) = true
    · rw [if_pos hc]
      -- the ranks only go up from here
      obtain ⟨c, rfl⟩ : ∃ c, ceiling = some c := Option.ne_none_iff_exists'.mp (by rintro rfl; simp at hc)
      intro m' hm' hle
      have h1 := hle c rfl
      have h2 : c < m.urlMap.rank := by simpa using hc
      rcases List.mem_cons.mp hm' with rfl | hm'
      · omega
      · have := hlt m' hm'
        omega
    · have hle : ∀ c, ceiling = some c → m.urlMap.rank ≤ c := by
        rintro c rfl
        simpa using hc
      rw [if_neg hc]
      by_cases hm : regexMatches scheme url port host m = true
      · rw [if_pos hm]
        refine ⟨m, List.mem_cons_self, rfl, hm, hle, ?_⟩
        intro m' hm' _
        rcases List.mem_cons.mp hm' with rfl | hm'
        · exact le_refl _
        · exact (hlt m' hm').le
      · rw [if_neg hm]
        cases hl : regexLoop scheme url port host ceiling list with
        | none =>
          rw [hl] at ih
          intro m' hm' hc'
          rcases List.mem_cons.mp hm' with rfl | hm'
          · exact Bool.eq_false_of_not_eq_true hm
          · exact ih m' hm' hc'
        | some u =>
          rw [hl] at ih
          obtain ⟨m₀, hm₀, hu₀, hmat, hcl, hbest⟩ := ih
          refine ⟨m₀, List.mem_cons_of_mem m hm₀, hu₀, hmat, hcl, ?_⟩
          intro m' hm' hmat'
          rcases List.mem_cons.mp hm' with rfl | hm'
          · exact absurd hmat' hm
          · exact hbest m' hm' hmat'

theorem regexMatches_eq (hu : url.Known) {rule : Rule} (hc : rule.Configured) {e : List UInt8 → Bool} (he : rule.expression = some e)
    (i : ℕ) : regexMatches (requestScheme url port) url port host ⟨⟨rule.fromURL, i⟩, e⟩ =
      rule.matches (requestScheme url port) port url.path host := by
  have hnull : 0 ∉ requestScheme url port := by
    rw [requestScheme_eq hu]
    exact hdrtokenIndexToWks_null _
  simp only [regexMatches, strncmpEq_eq hnull, prefix_eq hc.path, Rule.matches, he]
  cases e host <;> simp

theorem firstMatch_eq {p : Rule → Bool} {i : ℕ} {rule : Rule} (hi : acc[i]? = some rule) (hp : p rule = true)
    (hbest : ∀ j rule', acc[j]? = some rule' → p rule' = true → i ≤ j) : firstMatch acc p = some ⟨rule.fromURL, i⟩ := by
  have hidx : acc.findIdx? p = some i := by
    obtain ⟨hlt, hget⟩ := List.getElem?_eq_some_iff.mp hi
    refine List.findIdx?_eq_some_iff_getElem.mpr ⟨hlt, by rw [hget]; exact hp, ?_⟩
    intro j hj hpj
    have := hbest j _ (List.getElem?_eq_getElem (hj.trans hlt)) hpj
    omega
  simp [firstMatch, hidx, hi]

theorem firstMatch_none {p : Rule → Bool} (h : ∀ rule ∈ acc, p rule = false) : firstMatch acc p = none := by
  have hidx : acc.findIdx? p = none := List.findIdx?_eq_none_iff.mpr h
  simp [firstMatch, hidx]

/-- the table and the list together find the first rule that matches -/
theorem Rep.lookup_first (h : MappingsStore.Rep store acc) (hc : ∀ rule ∈ acc, rule.Configured) (hu : url.Known) (hh : host ≠ []) :
    (match regexMappingLookup store.regexList url port host ((tableLookup store.hashLookup url port host).map UrlMapping.rank) with
      | some m => some m
      | none => tableLookup store.hashLookup url port host) =
    firstMatch acc (Rule.matches (requestScheme url port) port url.path host) := by
  have hspec := regexLoop_spec url port host (requestScheme url port) ((tableLookup store.hashLookup url port host).map UrlMapping.rank)
    h.sorted
  -- a regex rule is in the list, and its tests are those of the rule
  have hlist : ∀ i rule e, acc[i]? = some rule → rule.expression = some e → (⟨⟨rule.fromURL, i⟩, e⟩ : RegexMapping) ∈ store.regexList :=
    fun i rule e hi he => (h.regex _).mpr ⟨i, rule, hi, he, rfl⟩
  rw [regexMappingLookup]
  cases hl : regexLoop (requestScheme url port) url port host ((tableLookup store.hashLookup url port host).map UrlMapping.rank)
      store.regexList with
  | some u =>
    rw [hl] at hspec
    obtain ⟨m, hm, rfl, hmat, hceil, hbest⟩ := hspec
    obtain ⟨i, rule, hi, he, hmu⟩ := (h.regex m).mp hm
    obtain ⟨u, e⟩ := m
    simp only at hmu he hceil hbest ⊢
    subst hmu
    have hrule := hc rule (List.mem_of_getElem? hi)
    rw [regexMatches_eq hu hrule he] at hmat
    refine (firstMatch_eq hi hmat ?_).symm
    intro j rule' hj hmat'
    cases he' : rule'.expression with
    | some e' =>
      have hb := hbest _ (hlist j rule' e' hj he')
      rw [regexMatches_eq hu (hc rule' (List.mem_of_getElem? hj)) he'] at hb
      exact hb hmat'
    | none =>
      cases ht : tableLookup store.hashLookup url port host with
      | none =>
        have hno := tableLookup_none h hc hu hh ht (List.mem_of_getElem? hj) he'
        rw [hmat'] at hno
        exact Bool.noConfusion hno
      | some m => exact (hceil m.rank (by rw [ht]; rfl)).trans ((tableLookup_some h hc hu hh ht).2 j rule' hj he' hmat')
  | none =>
    rw [hl] at hspec
    cases ht : tableLookup store.hashLookup url port host with
    | none =>
      refine (firstMatch_none ?_).symm
      intro rule hr
      cases he : rule.expression with
      | none => exact tableLookup_none h hc hu hh ht hr he
      | some e =>
        obtain ⟨i, hi⟩ := List.getElem?_of_mem hr
        have hno := hspec _ (hlist i rule e hi he) (by simp [ht])
        rw [regexMatches_eq hu (hc rule hr) he] at hno
        exact hno
    | some m =>
      obtain ⟨⟨rule, hi, hfrom, hmat⟩, hbest⟩ := tableLookup_some h hc hu hh ht
      have hm : m = ⟨rule.fromURL, m.rank⟩ := by rw [← hfrom]
      rw [hm]
      refine (firstMatch_eq hi hmat ?_).symm
      intro j rule' hj hmat'
      cases he' : rule'.expression with
      | none => exact hbest j rule' hj he' hmat'
      | some e' =>
        by_contra hlt
        have hno := hspec _ (hlist j rule' e' hj he') (by
          intro c hcc
          rw [ht] at hcc
          obtain rfl := Option.some.inj hcc
          exact (Nat.lt_of_not_le hlt).le)
        rw [regexMatches_eq hu (hc rule' (List.mem_of_getElem? hj)) he', hmat'] at hno
        exact Bool.noConfusion hno

end Lookup

theorem acceptedRules_subset {rules : List Rule} {rule : Rule} (h : rule ∈ acceptedRules rules) : rule ∈ rules := by
  have run : ∀ (rules acc : List Rule), ∀ r ∈ rules.foldl accept acc, r ∈ acc ∨ r ∈ rules := by
    intro rules
    induction rules with
    | nil => exact fun acc r hr => Or.inl hr
    | cons a rules ih =>
      intro acc r hr
      rcases ih (accept acc a) r hr with hr | hr
      · rw [accept] at hr
        split_ifs at hr
        · exact Or.inl hr
        · rcases List.mem_append.mp hr with hr | hr
          · exact Or.inl hr
          · exact Or.inr (by simp [List.mem_singleton.mp hr])
      · exact Or.inr (List.mem_cons_of_mem a hr)
  exact (run rules [] rule h).resolve_left (by simp)

/-- For a host that is not empty the lookup finds the first accepted rule that matches, and nothing if the host is too long; a rule is
accepted unless it duplicates one. -/
theorem mappingLookup_first (maxHostNameLen : ℕ) (rules : List Rule) (url : Url) (port : ℤ) (host : List UInt8)
    (hc : ∀ rule ∈ rules, rule.Configured) (hu : url.Known) (hh : host ≠ []) :
    (mappingLookup maxHostNameLen (MappingsStore.insertMappings rules) url port host =
      if host.length ≥ maxHostNameLen then none
      else firstMatch (acceptedRules rules) (Rule.matches (requestScheme url port) port url.path (host.map tolower))) ∧
    ∀ rule, ((MappingsStore.insertMappings rules).addToStore rule).1 = !(acceptedRules rules).any rule.duplicate := by
  have hrep := MappingsStore.insertMappings_rep rules
  refine ⟨?_, fun rule => (MappingsStore.addToStore_rep hrep rule).2⟩
  rw [mappingLookup]
  by_cases hlen : host.length ≥ maxHostNameLen
  · rw [if_pos hlen, if_pos hlen]
  · rw [if_neg hlen, if_neg hlen]
    exact Rep.lookup_first hrep (fun rule hr => hc rule (acceptedRules_subset hr)) hu (by simpa using hh)

/-- a rule for a host, and one whose expression accepts every host -/
def twoRules : List Rule :=
  [⟨⟨some URL_WKSIDX_HTTP, [], 80, text "a"⟩, text "h", none⟩, ⟨⟨some URL_WKSIDX_HTTP, [], 80, []⟩, text ".", some fun _ => true⟩]

theorem mappingLookup_first_two :
    (mappingLookup 256 (MappingsStore.insertMappings twoRules) ⟨some URL_WKSIDX_HTTP, [], 80, text "ab"⟩ 80 (text "H")).map
      UrlMapping.rank = some 0 := by
  have hc : ∀ rule ∈ twoRules, rule.Configured := by
    have hw : URL_WKSIDX_HTTP < hdrtokenStrs.length := by decide +kernel
    intro rule hr
    simp only [twoRules, List.mem_cons, List.not_mem_nil, or_false] at hr
    rcases hr with rfl | rfl
    · exact ⟨⟨_, hw, rfl⟩, by decide⟩
    · exact ⟨⟨_, hw, rfl⟩, by decide⟩
  have hu : (⟨some URL_WKSIDX_HTTP, [], 80, text "ab"⟩ : Url).Known := by
    refine ⟨?_, by simp⟩
    intro i hi
    obtain rfl := Option.some.inj hi
    decide +kernel
  rw [(mappingLookup_first 256 twoRules ⟨some URL_WKSIDX_HTTP, [], 80, text "ab"⟩ 80 (text "H") hc hu (by decide)).1]
  decide +kernel

/-- A request without a scheme matches the rule for `http` on port 80; a host of 256 bytes matches nothing. -/
theorem lookup_not_literal :
    (mappingLookup 256 (MappingsStore.insertMappings twoRules) ⟨none, [], 0, text "ab"⟩ 80 (text "h")).map UrlMapping.rank = some 0 ∧
      firstMatch (acceptedRules twoRules) (Rule.matches [] 80 (text "ab") (text "h")) = none ∧
      mappingLookup 256 (MappingsStore.insertMappings twoRules) ⟨some URL_WKSIDX_HTTP, [], 80, []⟩ 80 (List.replicate 256 104) = none ∧
      (firstMatch (acceptedRules twoRules) (Rule.matches (text "http") 80 [] (List.replicate 256 104))).map UrlMapping.rank = some 1 := by
  refine ⟨by decide +kernel, ?_, ?_, by decide +kernel⟩
  · exact Option.isNone_iff_eq_none.mp (by decide +kernel)
  · exact Option.isNone_iff_eq_none.mp (by decide +kernel)

end TrafficServer.Http.Remap
