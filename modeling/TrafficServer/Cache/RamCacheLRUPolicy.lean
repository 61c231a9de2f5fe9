/-
The LRU memory cache against the LRU policy.

`policy` is what the cache is for: a list of entries, the least recently used first, with the uses and evictions of `LruPolicy`.
Without the seen filter the queue of the cache is that list after every run of `get` and `put`, and a `get` hits exactly what is in
it (`lru_refinement`).

What `put` reports is weaker: it returns 1 also for a block that it drops at once because it does not fit alone, and for an entry
that is there with another block, which it keeps. `put_result_iff` has the exact condition, for every state and with the filter, too.
Witness: `put_too_large`, a block larger than the cache.
-/
import TrafficServer.Cache.RamCacheLRUInv

namespace TrafficServer.Cache.LRU

open TrafficServer.Dll TrafficServer.Run

/-- the entries of the queue, the least recently used first -/
def RamCacheLRU.residents (s : RamCacheLRU) : List Entry := (Dll.toList s.lruLink (s.nextEntry + 1) s.lru.head).map s.entry

/-- what a user of the cache calls -/
inductive Call where
  | get (key : CacheKey) (auxkey1 auxkey2 : ℕ)
  | put (entry : Entry)

def Call.op : Call → Op
  | .get key auxkey1 auxkey2 => .get key auxkey1 auxkey2
  | .put entry => .put entry

/-- the keys of `entry` -/
def Entry.same (entry : Entry) : Entry → Bool := RamCacheLRU.keysEqual entry.key entry.auxkey1 entry.auxkey2

/-- the LRU policy with so many bytes -/
def policy (cap : ℤ) (l : List Entry) : Call → List Entry
  | .get key auxkey1 auxkey2 => LruPolicy.touch (RamCacheLRU.keysEqual key auxkey1 auxkey2) l
  | .put entry =>
    if l.any entry.same then LruPolicy.touch entry.same l
    -- an entry of the key with other auxiliary keys gives way
    else LruPolicy.evict Entry.cost cap (l.filter (fun x => x.key ≠ entry.key) ++ [entry])

variable {c : Cfg} {s s' : RamCacheLRU} {L : List ℕ} {B : ℕ → List ℕ} {entry : Entry} {cap : ℤ} {l : List Entry}

theorem Rep.residents_eq (h : Rep s L B) : s.residents = L.map s.entry := by
  rw [RamCacheLRU.residents, h.lru.isDll.toList_eq (Nat.lt_succ_of_le h.lru_length)]

theorem entry_cost_pos (x : Entry) : 0 < x.cost := by
  unfold Entry.cost ENTRY_OVERHEAD
  omega

theorem same_iff {x : Entry} : entry.same x ↔ x.key = entry.key ∧ x.auxkey1 = entry.auxkey1 ∧ x.auxkey2 = entry.auxkey2 :=
  decide_eq_true_iff

/-! ## The simulation -/

/-- the queue is the list of the policy -/
structure Simulates (cap : ℤ) (s : RamCacheLRU) (l : List Entry) : Prop where
  rep : ∃ L B, Rep s L B ∧ l = L.map s.entry
  max_eq : s.maxBytes = cap
  off : cap = 0 → l = []

/-- a cache without bytes has no entries, and the policy drops what comes in -/
theorem policy_off (call : Call) : policy 0 [] call = [] := by
  cases call with
  | get key auxkey1 auxkey2 => rfl
  | put entry => simp [policy, LruPolicy.evict, entry_cost_pos]

theorem touch_hit {l₁ l₂ : List ℕ} {e : ℕ} (h : Rep s (l₁ ++ e :: l₂) B) (he : entry.same (s.entry e)) :
    LruPolicy.touch entry.same ((l₁ ++ e :: l₂).map s.entry) = (l₁ ++ l₂ ++ [e]).map s.entry := by
  have hnot : e ∉ l₁ ++ l₂ := (List.nodup_middle.mp h.lru.isDll.nodup |> List.nodup_cons.mp).1
  have hl₁ : ∀ x ∈ l₁, ¬ entry.same (s.entry x) := by
    intro x hx hsame
    have heq : x = e := h.unique x (List.mem_append_left _ hx) e (by simp) ((same_iff.mp hsame).1.trans (same_iff.mp he).1.symm)
    exact hnot (heq ▸ List.mem_append_left _ hx)
  rw [← LruPolicy.map_touch (p := fun x => entry.same (s.entry x)) (fun _ _ => rfl), LruPolicy.touch_eq hl₁ he]

theorem Simulates.put (hseen : c.useSeenFilter = false) (h : Simulates cap s l) (entry : Entry) :
    Simulates cap (s.put c entry).1 (policy cap l (.put entry)) := by
  obtain ⟨L, B, hrep, rfl⟩ := h.rep
  obtain ⟨hmax, hdone⟩ := hrep.put (c := c) entry
  have hoff : cap = 0 → policy cap (L.map s.entry) (.put entry) = [] := by
    rintro rfl
    rw [h.off rfl, policy_off]
  generalize (s.put c entry).1 = s', (s.put c entry).2 = b at hmax hdone
  refine ⟨?_, hmax.trans h.max_eq, hoff⟩
  cases hdone with
  | refused hrefused hrep' hentry =>
    -- without the filter only a cache that is off refuses
    have hzero : s.maxBytes = 0 := hrefused.resolve_right (by simp [RamCacheLRU.filter, hseen])
    refine ⟨_, _, hrep', ?_⟩
    rw [hentry, hoff (h.max_eq.symm.trans hzero), h.off (h.max_eq.symm.trans hzero)]
  | @hit l₁ l₂ e _ _ hL hkeys hrep' hentry =>
    subst hL
    refine ⟨_, _, hrep', ?_⟩
    have hany : ((l₁ ++ e :: l₂).map s.entry).any entry.same := by
      rw [List.any_map, List.any_eq_true]
      exact ⟨e, by simp, hkeys⟩
    rw [policy, if_pos hany, touch_hit hrep hkeys, hentry]
  | stored _ hnone hrep' hmap =>
    refine ⟨_, _, hrep', ?_⟩
    have hany : ¬ (L.map s.entry).any entry.same := by
      rw [List.any_map, List.any_eq_true]
      rintro ⟨x, hx, hsame⟩
      exact hnone x hx hsame
    rw [policy, if_neg hany, hmap, h.max_eq]

theorem Simulates.get (h : Simulates cap s l) (key : CacheKey) (auxkey1 auxkey2 : ℕ) :
    Simulates cap (s.get key auxkey1 auxkey2).1 (policy cap l (.get key auxkey1 auxkey2)) ∧
    (s.get key auxkey1 auxkey2).2 = (l.find? (RamCacheLRU.keysEqual key auxkey1 auxkey2)).map Entry.data := by
  obtain ⟨L, B, hrep, rfl⟩ := h.rep
  by_cases hmax : s.maxBytes = 0
  · have hcap : cap = 0 := h.max_eq.symm.trans hmax
    subst hcap
    have hnil := h.off rfl
    rw [RamCacheLRU.get, if_pos hmax, hnil, policy_off]
    exact ⟨⟨⟨L, B, hrep, hnil.symm⟩, hmax, fun _ => rfl⟩, rfl⟩
  · obtain ⟨hrep', hentry, hret⟩ := hrep.get key auxkey1 auxkey2 hmax
    refine ⟨⟨⟨_, _, hrep', ?_⟩, ?_, fun h0 => absurd (h.max_eq.trans h0) hmax⟩, ?_⟩
    · rw [hentry, LruPolicy.map_touch (q := RamCacheLRU.keysEqual key auxkey1 auxkey2) fun _ _ => rfl]
      rfl
    · rw [(get_fields s key auxkey1 auxkey2).1]
      exact h.max_eq
    · rw [hret, List.find?_map, Option.map_map]
      rfl

theorem Simulates.step (hseen : c.useSeenFilter = false) (h : Simulates cap s l) (call : Call) :
    Simulates cap (step c s call.op) (policy cap l call) := by
  cases call with
  | get key auxkey1 auxkey2 => exact (h.get key auxkey1 auxkey2).1
  | put entry => exact h.put hseen entry

theorem Simulates.run (hseen : c.useSeenFilter = false) (calls : List Call) (h : Simulates cap s l) :
    Simulates cap ((calls.map Call.op).foldl (LRU.step c) s) (calls.foldl (policy cap) l) := by
  induction calls generalizing s l with
  | nil => exact h
  | cons call calls ih => exact ih (h.step hseen call)

theorem simulates_init (c : Cfg) (entry0 : Entry) (abytes : ℤ) : Simulates abytes ((newRamCacheLRU entry0).init c abytes) [] := by
  obtain ⟨B, hrep⟩ := (rep_new entry0).init (c := c) abytes
  exact ⟨⟨[], B, hrep, rfl⟩, (init_fields (c := c) _ abytes).1, fun _ => rfl⟩

/-- **The cache is the LRU policy.** After every run of `get` and `put` without the seen filter the queue is the list of the policy, and a
`get` hits what is in it. -/
theorem lru_refinement (c : Cfg) (hseen : c.useSeenFilter = false) (entry0 : Entry) (abytes : ℤ) (calls : List Call) :
    ((calls.map Call.op).foldl (step c) ((newRamCacheLRU entry0).init c abytes)).residents = calls.foldl (policy abytes) [] ∧
    ∀ key auxkey1 auxkey2, (((calls.map Call.op).foldl (step c) ((newRamCacheLRU entry0).init c abytes)).get key auxkey1 auxkey2).2 =
      ((calls.foldl (policy abytes) []).find? (RamCacheLRU.keysEqual key auxkey1 auxkey2)).map Entry.data := by
  have hsim := (simulates_init c entry0 abytes).run hseen calls
  obtain ⟨L, B, hrep, hL⟩ := hsim.rep
  exact ⟨hrep.residents_eq.trans hL.symm, fun key auxkey1 auxkey2 => (hsim.get key auxkey1 auxkey2).2⟩

/-- three objects for a cache of 1000 bytes, the first of which is used again before the third comes -/
def threeCalls : List Call :=
  [.put ⟨⟨fun _ => 0⟩, 0, 0, ⟨0, 300⟩⟩, .put ⟨⟨fun _ => 1⟩, 0, 0, ⟨1, 300⟩⟩, .get ⟨fun _ => 0⟩ 0 0, .put ⟨⟨fun _ => 2⟩, 0, 0, ⟨2, 300⟩⟩]

theorem lru_refinement_three :
    smallCfg.useSeenFilter = false ∧ (threeCalls.foldl (policy 1000) []).map (fun x => x.data.id) = [0, 2] ∧
    ((threeCalls.map Call.op).foldl (step smallCfg) ((newRamCacheLRU smallEntry).init smallCfg 1000)).residents =
      threeCalls.foldl (policy 1000) [] :=
  ⟨rfl, by decide +kernel, (lru_refinement smallCfg rfl smallEntry 1000 threeCalls).1⟩

/-! ## What `put` returns -/

/-- the entry can be read back: no other block is kept for its keys, and it fits alone -/
def ReadBack (s : RamCacheLRU) (entry : Entry) : Prop :=
  (∃ x ∈ s.residents, entry.same x ∧ x.data = entry.data) ∨ ((∀ x ∈ s.residents, ¬ entry.same x) ∧ entry.cost ≤ s.maxBytes)

theorem PutDone.get (h : Rep s L B) {b : Bool} (hdone : PutDone c s L entry s' b) (hmax : s'.maxBytes = s.maxBytes) (hb : b = true) :
    (s'.get entry.key entry.auxkey1 entry.auxkey2).2 = some entry.data ↔ ReadBack s entry := by
  cases hdone with
  | refused => cases hb
  | @hit l₁ l₂ e _ hgo hL hkeys hrep' hentry =>
    subst hL
    have hmax' : s'.maxBytes ≠ 0 := fun h0 => hgo (Or.inl (hmax.symm.trans h0))
    have honly : ∀ x ∈ l₁ ++ e :: l₂, entry.same (s.entry x) → x = e := fun x hx hsame =>
      h.unique x hx e (by simp) ((same_iff.mp hsame).1.trans (same_iff.mp hkeys).1.symm)
    have hfound : (l₁ ++ l₂ ++ [e]).find? (fun x => RamCacheLRU.keysEqual entry.key entry.auxkey1 entry.auxkey2 (s'.entry x)) = some e := by
      rw [List.find?_append, List.find?_eq_none.mpr, Option.none_or, List.find?_cons_of_pos (by rw [hentry]; exact hkeys)]
      intro x hx hsame
      rw [hentry] at hsame
      have hnot : e ∉ l₁ ++ l₂ := (List.nodup_middle.mp h.lru.isDll.nodup |> List.nodup_cons.mp).1
      exact hnot (honly x ((List.Sublist.append_left (List.sublist_cons_self e l₂) l₁).subset hx) hsame ▸ hx)
    rw [(hrep'.get _ _ _ hmax').2.2, hfound, Option.map_some, Option.some.injEq, hentry, ReadBack, h.residents_eq]
    constructor
    · exact fun hdata => Or.inl ⟨s.entry e, List.mem_map_of_mem (by simp), hkeys, hdata⟩
    · rintro (⟨y, hy, hsame, hdata⟩ | ⟨hnone, _⟩)
      · obtain ⟨x, hx, rfl⟩ := List.mem_map.mp hy
        rw [← honly x hx hsame]
        exact hdata
      · exact absurd hkeys (hnone _ (List.mem_map_of_mem (by simp)))
  | @stored L' _ hgo hnone hrep' hmap =>
    have hmax' : s'.maxBytes ≠ 0 := fun h0 => hgo (Or.inl (hmax.symm.trans h0))
    have hresidents : ∀ x ∈ s.residents, ¬ entry.same x := by
      rw [h.residents_eq]
      intro y hy hsame
      obtain ⟨x, hx, rfl⟩ := List.mem_map.mp hy
      exact hnone x hx hsame
    have hback : ReadBack s entry ↔ entry.cost ≤ s.maxBytes := by
      rw [ReadBack, and_iff_right hresidents]
      exact or_iff_right fun ⟨x, hx, hsame, _⟩ => hresidents x hx hsame
    have hget : (s'.get entry.key entry.auxkey1 entry.auxkey2).2 = ((L'.map s'.entry).find? entry.same).map Entry.data := by
      rw [(hrep'.get _ _ _ hmax').2.2, List.find?_map, Option.map_map]
      rfl
    rw [hget, hmap, hback]
    constructor
    · intro hfound
      by_contra hlarge
      rw [LruPolicy.evict_concat_of_lt (fun x => (entry_cost_pos x).le) (not_le.mp hlarge)] at hfound
      exact absurd hfound (by simp)
    · intro hfits
      -- what is left ends with the new entry, and no other one has its key
      obtain ⟨l', hsuf, hevict⟩ :=
        LruPolicy.evict_concat_of_le Entry.cost ((L.map s.entry).filter fun x => x.key ≠ entry.key) hfits
      have hother : ∀ x ∈ l', ¬ entry.same x := fun x hx hsame =>
        absurd (same_iff.mp hsame).1 (of_decide_eq_true (List.mem_filter.mp (hsuf.subset hx)).2)
      rw [hevict, List.find?_append, List.find?_eq_none.mpr hother, Option.none_or,
        List.find?_cons_of_pos (same_iff.mpr ⟨rfl, rfl, rfl⟩)]
      rfl

/-- **What `put` returns.** It can be relied on exactly if nothing is put in or the entry can be read back. -/
theorem put_result_iff (c : Cfg) (entry0 : Entry) (ops : List Op) (entry : Entry) :
    let s := ops.foldl (step c) (newRamCacheLRU entry0)
    let r := s.put c entry
    ((r.2 = true → (r.1.get entry.key entry.auxkey1 entry.auxkey2).2 = some entry.data) ∧
      (r.2 = false → ∀ x, x.key ≠ entry.key → (x ∈ r.1.residents ↔ x ∈ s.residents))) ↔
    Refused c s entry.key ∨ ReadBack s entry := by
  intro s r
  obtain ⟨L, B, hrep⟩ : ∃ L B, Rep s L B := run_rep c entry0 ops
  obtain ⟨hmax, hdone⟩ := hrep.put (c := c) entry
  change r.1.maxBytes = s.maxBytes at hmax
  change PutDone c s L entry r.1 r.2 at hdone
  cases hb : r.2 with
  | true =>
    have hgo : ¬ Refused c s entry.key := by
      rw [hb] at hdone
      cases hdone <;> assumption
    rw [or_iff_right hgo, ← hdone.get hrep hmax hb]
    exact ⟨fun h => h.1 rfl, fun h => ⟨fun _ => h, nofun⟩⟩
  | false =>
    rw [hb] at hdone
    cases hdone with
    | refused hrefused hrep' hentry =>
      refine iff_of_true ⟨nofun, fun _ x _ => ?_⟩ (Or.inl hrefused)
      rw [hrep'.residents_eq, hrep.residents_eq, hentry]

/-- **A block that is larger than the cache is reported as stored, and is not there.** -/
theorem put_too_large :
    ¬ ∀ (c : Cfg) (entry0 : Entry) (ops : List Op) (entry : Entry),
      (((ops.foldl (step c) (newRamCacheLRU entry0)).put c entry).2 = true →
        (((ops.foldl (step c) (newRamCacheLRU entry0)).put c entry).1.get entry.key entry.auxkey1 entry.auxkey2).2 = some entry.data) := by
  intro h
  exact absurd (h smallCfg smallEntry [.init 100] smallEntry (by decide +kernel)) (by decide +kernel)

end TrafficServer.Cache.LRU
