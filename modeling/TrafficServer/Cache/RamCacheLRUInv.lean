/-
The representation of the LRU memory cache (`RamCacheLRU`).

`Rep` says which entries the queue and the chains hold, and that they are the same. Every operation keeps it, from any state
and with any table size, so that `objects` and `bytes` are right after every run (`ram_cache_lru_rep`). The bound on `bytes`
needs more: `init` may be called again with a size below what the cache holds, and nothing is dropped before the next entry
is put in (`shrunk_by_init`).

An entry that is dropped has left the queue before it leaves its chain, so the set of entries in the table (`HashOk`) is not
always that of the queue.
-/
import TrafficServer.Lib.Run
import TrafficServer.Lib.LruPolicy
import TrafficServer.Cache.RamCacheLRU

namespace TrafficServer.Cache.LRU

open TrafficServer.Dll TrafficServer.HashChain TrafficServer.Run

/-! ## The representation -/

/-- the chain that an entry belongs to -/
def RamCacheLRU.hashIndex (s : RamCacheLRU) (e : ℕ) : ℕ := hashOf s.nbuckets (s.entry e).key

/-- the queue holds `L`, chain `b` holds `B b`, they have the same entries, one for each key, and the counts are right -/
structure Rep (s : RamCacheLRU) (L : List ℕ) (B : ℕ → List ℕ) : Prop where
  lru : IsQueue s.lruLink s.lru L
  table : HashOk s.hashLink s.bucket s.nbuckets s.hashIndex (fun e => e ∈ L) B
  lt_next : ∀ e ∈ L, e < s.nextEntry
  unique : ∀ e ∈ L, ∀ e' ∈ L, (s.entry e).key = (s.entry e').key → e = e'
  objects_eq : s.objects = L.length
  bytes_eq : s.bytes = (L.map s.cost).sum
  nbuckets_pos : s.maxBytes ≠ 0 → 0 < s.nbuckets

variable {c : Cfg} {s : RamCacheLRU} {e : ℕ} {L l₁ l₂ m₁ m₂ : List ℕ} {B : ℕ → List ℕ} {key : CacheKey}

/-- what `Rep` reads besides the lists is the same -/
structure SameFrame (s s' : RamCacheLRU) : Prop where
  entry_eq : s'.entry = s.entry
  nbuckets_eq : s'.nbuckets = s.nbuckets
  next_eq : s'.nextEntry = s.nextEntry
  max_eq : s'.maxBytes = s.maxBytes

theorem SameFrame.refl (s : RamCacheLRU) : SameFrame s s := ⟨rfl, rfl, rfl, rfl⟩

theorem SameFrame.trans {s₁ s₂ s₃ : RamCacheLRU} (h : SameFrame s₁ s₂) (h' : SameFrame s₂ s₃) : SameFrame s₁ s₃ :=
  ⟨h'.entry_eq.trans h.entry_eq, h'.nbuckets_eq.trans h.nbuckets_eq, h'.next_eq.trans h.next_eq, h'.max_eq.trans h.max_eq⟩

theorem length_le_of_lt {l : List ℕ} {n : ℕ} (hnd : l.Nodup) (hlt : ∀ x ∈ l, x < n) : l.length ≤ n := by
  have h := (hnd.subperm fun x hx => List.mem_range.mpr (hlt x hx)).length_le
  rwa [List.length_range] at h

theorem Rep.chain_length (h : Rep s L B) {b : ℕ} (hb : b < s.nbuckets) : (B b).length ≤ s.nextEntry :=
  length_le_of_lt (h.table.chain b hb).nodup fun x hx => h.lt_next x ((h.table.mem x).mpr ⟨b, hb, hx⟩)

theorem Rep.lru_length (h : Rep s L B) : L.length ≤ s.nextEntry := length_le_of_lt h.lru.isDll.nodup h.lt_next

theorem Rep.touch (h : Rep s (l₁ ++ e :: l₂) B) : Rep (s.touch e) (l₁ ++ l₂ ++ [e]) B := by
  obtain ⟨hrem, _, hdet⟩ := queue_remove_rule h.lru
  have hnd := h.lru.isDll.nodup
  have hnot : e ∉ l₁ ++ l₂ := (List.nodup_middle.mp hnd |> List.nodup_cons.mp).1
  obtain ⟨henq, _⟩ := queue_enqueue_rule hrem hnot hdet
  have hperm : (l₁ ++ l₂ ++ [e]).Perm (l₁ ++ e :: l₂) :=
    (List.perm_append_singleton e (l₁ ++ l₂)).trans List.perm_middle.symm
  refine ⟨henq, ?_, ?_, ?_, ?_, ?_, h.nbuckets_pos⟩
  · exact h.table.congr (fun x => hperm.mem_iff.symm) fun _ _ => rfl
  · exact fun x hx => h.lt_next x (hperm.mem_iff.mp hx)
  · exact fun x hx x' hx' => h.unique x (hperm.mem_iff.mp hx) x' (hperm.mem_iff.mp hx')
  · rw [hperm.length_eq]
    exact h.objects_eq
  · exact h.bytes_eq.trans ((hperm.map s.cost).sum_eq).symm

/-! ## `remove` -/

theorem remove_sameFrame (s : RamCacheLRU) (e : ℕ) : SameFrame s (s.remove e).1 := ⟨rfl, rfl, rfl, rfl⟩

/-- an entry that is in its chain, whether or not it is still in the queue -/
theorem rep_remove (hlru : IsQueue (s.lru.remove s.lruLink e).1 (s.lru.remove s.lruLink e).2 (l₁ ++ l₂))
    (htable : HashOk s.hashLink s.bucket s.nbuckets s.hashIndex (fun x => x ∈ l₁ ++ e :: l₂) B)
    (hnot : e ∉ l₁ ++ l₂) (hB : B (s.hashIndex e) = m₁ ++ e :: m₂) (hlt : ∀ x ∈ l₁ ++ e :: l₂, x < s.nextEntry)
    (hunique : ∀ x ∈ l₁ ++ e :: l₂, ∀ x' ∈ l₁ ++ e :: l₂, (s.entry x).key = (s.entry x').key → x = x')
    (hobjects : s.objects = (l₁ ++ e :: l₂).length) (hbytes : s.bytes = ((l₁ ++ e :: l₂).map s.cost).sum)
    (hpos : s.maxBytes ≠ 0 → 0 < s.nbuckets) :
    Rep (s.remove e).1 (l₁ ++ l₂) (Function.update B (s.hashIndex e) (m₁ ++ m₂)) := by
  have hsub : ∀ x ∈ l₁ ++ l₂, x ∈ l₁ ++ e :: l₂ := by
    intro x hx
    rcases List.mem_append.mp hx with hx | hx
    · exact List.mem_append_left _ hx
    · exact List.mem_append_right _ (List.mem_cons_of_mem e hx)
  refine ⟨hlru, ?_, fun x hx => hlt x (hsub x hx), fun x hx x' hx' => hunique x (hsub x hx) x' (hsub x' hx'), ?_, ?_, hpos⟩
  · have hrem := htable.remove (e := e) (by simp) hB
    apply hrem.congr
    · intro x
      constructor
      · rintro ⟨hx, hne⟩
        rcases List.mem_append.mp hx with hx | hx
        · exact List.mem_append_left _ hx
        · exact List.mem_append_right _ ((List.mem_cons.mp hx).resolve_left hne)
      · intro hx
        refine ⟨hsub x hx, ?_⟩
        rintro rfl
        exact hnot hx
    · exact fun _ _ => rfl
  · unfold RamCacheLRU.remove
    dsimp only
    rw [hobjects]
    simp
    omega
  · unfold RamCacheLRU.remove
    dsimp only
    rw [hbytes, List.map_append, List.map_cons, List.sum_append, List.sum_cons]
    change _ = ((l₁ ++ l₂).map s.cost).sum
    rw [List.map_append, List.sum_append]
    ring

theorem Rep.remove (h : Rep s (l₁ ++ e :: l₂) B) (hB : B (s.hashIndex e) = m₁ ++ e :: m₂) :
    Rep (s.remove e).1 (l₁ ++ l₂) (Function.update B (s.hashIndex e) (m₁ ++ m₂)) := by
  obtain ⟨hrem, _, _⟩ := queue_remove_rule h.lru
  have hnot : e ∉ l₁ ++ l₂ := (List.nodup_middle.mp h.lru.isDll.nodup |> List.nodup_cons.mp).1
  exact rep_remove hrem h.table hnot hB h.lt_next h.unique h.objects_eq h.bytes_eq h.nbuckets_pos

/-! ## Making room -/

/-- entries go from the head until the bytes fit, or none is left -/
theorem Rep.evict {fuel : ℕ} (h : Rep s L B) (hfuel : L.length < fuel) :
    ∃ B', Rep (RamCacheLRU.evict fuel s) (LruPolicy.evict s.cost s.maxBytes L) B' ∧ SameFrame s (RamCacheLRU.evict fuel s) := by
  have hsum : s.bytes > s.maxBytes ↔ s.maxBytes < (L.map s.cost).sum := by rw [h.bytes_eq]
  induction L generalizing s B fuel with
  | nil =>
    obtain ⟨fuel, rfl⟩ : ∃ m, fuel = m + 1 := ⟨fuel - 1, by omega⟩
    rw [RamCacheLRU.evict]
    by_cases hgt : s.bytes > s.maxBytes
    · -- nothing to drop: the size is negative
      rw [if_pos hgt]
      dsimp only
      rw [queue_dequeue_nil h.lru]
      exact ⟨B, h, SameFrame.refl s⟩
    · rw [if_neg hgt]
      exact ⟨B, h, SameFrame.refl s⟩
  | cons e L ih =>
    obtain ⟨fuel, rfl⟩ : ∃ m, fuel = m + 1 := ⟨fuel - 1, by omega⟩
    rw [RamCacheLRU.evict, LruPolicy.evict]
    by_cases hgt : s.bytes > s.maxBytes
    · rw [if_pos hgt, if_pos (hsum.mp hgt)]
      obtain ⟨hret, hq, _, hdet⟩ := queue_dequeue_rule h.lru
      dsimp only
      rw [hret]
      dsimp only
      have hnot : e ∉ L := (List.nodup_cons.mp h.lru.isDll.nodup).1
      generalize s.lru.dequeue s.lruLink = r at hret hq hdet ⊢
      set t : RamCacheLRU := { s with lruLink := r.1, lru := r.2.1 } with ht
      -- the entry has left the queue: `remove` finds no links there
      have hnoop : t.lru.remove t.lruLink e = (t.lruLink, t.lru) := by
        apply queue_remove_detached hdet
        · rw [ht]
          dsimp only
          rw [hq.isDll.head_eq]
          exact fun heq => hnot (List.mem_of_head? heq)
        · rw [ht]
          dsimp only
          rw [hq.tail_eq]
          exact fun heq => hnot (List.mem_of_getLast? heq)
        · rw [ht]
          dsimp only
          rw [hq.isDll.head_eq, hq.tail_eq]
          cases L with
          | nil => exact fun _ => rfl
          | cons a L => simp
      obtain ⟨m₁, m₂, hB⟩ := List.append_of_mem (h.table.mem_chain List.mem_cons_self).2
      have hlru : IsQueue (t.lru.remove t.lruLink e).1 (t.lru.remove t.lruLink e).2 ([] ++ L) := by
        rw [hnoop]
        exact hq
      have hrep : Rep (t.remove e).1 ([] ++ L) (Function.update B (t.hashIndex e) (m₁ ++ m₂)) :=
        rep_remove hlru h.table hnot hB h.lt_next h.unique h.objects_eq h.bytes_eq h.nbuckets_pos
      obtain ⟨B', hrep', hsame⟩ := ih hrep (by simp at hfuel; omega) (by rw [hrep.bytes_eq]; rfl)
      have hst : SameFrame s (t.remove e).1 := ⟨rfl, rfl, rfl, rfl⟩
      exact ⟨B', hrep', hst.trans hsame⟩
    · rw [if_neg hgt, if_neg fun hlt => hgt (hsum.mpr hlt)]
      exact ⟨_, h, SameFrame.refl s⟩

/-! ## The walk of `put` -/

/-- Behind the entries `m₁` of the chain: the walk finds the entry of the keys and moves it to the end, or there is none, and an entry
of the key with other auxiliary keys is dropped on the way. -/
theorem Rep.putWalk (auxkey1 auxkey2 : ℕ) {fuel : ℕ} (h : Rep s L B) (hpos : 0 < s.nbuckets)
    (hB : B (hashOf s.nbuckets key) = m₁ ++ m₂) (hm₁ : ∀ x ∈ m₁, (s.entry x).key ≠ key) (hfuel : m₂.length < fuel) :
    let r := RamCacheLRU.putWalk key auxkey1 auxkey2 fuel s m₂.head?
    SameFrame s r.1 ∧
    (r.2 = true → ∃ l₁ e l₂, L = l₁ ++ e :: l₂ ∧ RamCacheLRU.keysEqual key auxkey1 auxkey2 (s.entry e) ∧ Rep r.1 (l₁ ++ l₂ ++ [e]) B) ∧
    (r.2 = false → (∀ x ∈ L, ¬ RamCacheLRU.keysEqual key auxkey1 auxkey2 (s.entry x)) ∧
      ∃ B', Rep r.1 (L.filter fun x => (s.entry x).key ≠ key) B') := by
  have hb : hashOf s.nbuckets key < s.nbuckets := Nat.mod_lt _ hpos
  induction m₂ generalizing s L B m₁ fuel with
  | nil =>
    obtain ⟨fuel, rfl⟩ : ∃ m, fuel = m + 1 := ⟨fuel - 1, by omega⟩
    have hnone : ∀ x ∈ L, (s.entry x).key ≠ key := by
      intro x hx hkey
      have hmem := (h.table.mem_chain hx).2
      rw [RamCacheLRU.hashIndex, hkey, hB, List.append_nil] at hmem
      exact hm₁ x hmem hkey
    refine ⟨SameFrame.refl s, nofun, fun _ => ⟨fun x hx heq => hnone x hx (of_decide_eq_true heq).1, B, ?_⟩⟩
    rw [List.filter_eq_self.mpr fun x hx => decide_eq_true (hnone x hx)]
    exact h
  | cons e m₂ ih =>
    obtain ⟨fuel, rfl⟩ : ∃ m, fuel = m + 1 := ⟨fuel - 1, by omega⟩
    have hfuel' : m₂.length < fuel := by simpa using hfuel
    have he : e ∈ L := (h.table.mem e).mpr ⟨_, hb, by rw [hB]; simp⟩
    have hdll := h.table.chain _ hb
    rw [hB] at hdll
    have hnext : s.hashLink.next e = m₂.head? := hdll.next_eq
    rw [List.head?_cons, RamCacheLRU.putWalk]
    by_cases hkey : (s.entry e).key = key
    · rw [if_pos hkey]
      obtain ⟨l₁, l₂, rfl⟩ := List.append_of_mem he
      by_cases haux : (s.entry e).auxkey1 = auxkey1 ∧ (s.entry e).auxkey2 = auxkey2
      · rw [if_pos haux]
        exact ⟨⟨rfl, rfl, rfl, rfl⟩, fun _ => ⟨l₁, e, l₂, rfl, decide_eq_true ⟨hkey, haux⟩, h.touch⟩, nofun⟩
      · rw [if_neg haux]
        have hidx : s.hashIndex e = hashOf s.nbuckets key := by rw [RamCacheLRU.hashIndex, hkey]
        have hrep := h.remove (hidx ▸ hB)
        have hret : (s.remove e).2 = m₂.head? := hnext
        dsimp only
        rw [hret]
        have hB' : Function.update B (s.hashIndex e) (m₁ ++ m₂) (hashOf (s.remove e).1.nbuckets key) = m₁ ++ m₂ := by
          rw [hidx]
          exact Function.update_self ..
        -- no other entry has the key
        have hne : e ∉ l₁ ++ l₂ := (List.nodup_middle.mp h.lru.isDll.nodup |> List.nodup_cons.mp).1
        have hother : ∀ x ∈ l₁ ++ l₂, (s.entry x).key ≠ key := by
          intro x hx hxkey
          have hmem : x ∈ l₁ ++ e :: l₂ := (List.Sublist.append_left (List.sublist_cons_self e l₂) l₁).subset hx
          exact hne (h.unique x hmem e he (hxkey.trans hkey.symm) ▸ hx)
        obtain ⟨hsame, hhit, hmiss⟩ := ih hrep hpos hB' hm₁ hfuel' hb
        refine ⟨(remove_sameFrame s e).trans hsame, fun hr => ?_, fun hr => ?_⟩
        · obtain ⟨k₁, x, k₂, hL, hx, _⟩ := hhit hr
          exact absurd (of_decide_eq_true hx).1 (hother x (by rw [hL]; simp))
        · obtain ⟨_, B', hrep'⟩ := hmiss hr
          refine ⟨fun x hx heq => ?_, B', ?_⟩
          · rcases List.mem_append.mp hx with hx | hx
            · exact hother x (List.mem_append_left _ hx) (of_decide_eq_true heq).1
            · rcases List.mem_cons.mp hx with rfl | hx
              · exact haux (of_decide_eq_true heq).2
              · exact hother x (List.mem_append_right _ hx) (of_decide_eq_true heq).1
          · rw [List.filter_append, List.filter_cons_of_neg (by simpa using hkey), ← List.filter_append]
            exact hrep'
    · rw [if_neg hkey, hnext]
      have hB' : B (hashOf s.nbuckets key) = (m₁ ++ [e]) ++ m₂ := by
        rw [hB, List.append_assoc]
        rfl
      apply ih h hpos hB' _ hfuel' hb
      intro x hx
      rcases List.mem_append.mp hx with hx | hx
      · exact hm₁ x hx
      · rw [List.mem_singleton.mp hx]
        exact hkey

/-! ## A new entry -/

theorem Rep.insertEntry {entry : Entry} (h : Rep s L B) (hpos : 0 < s.nbuckets) (hkey : ∀ x ∈ L, (s.entry x).key ≠ entry.key) :
    ∃ B', Rep (s.insertEntry entry) (L ++ [s.nextEntry]) B' := by
  have hnot : s.nextEntry ∉ L := fun hmem => absurd (h.lt_next _ hmem) (lt_irrefl _)
  have hne : ∀ x ∈ L, x ≠ s.nextEntry := fun x hx heq => hnot (heq ▸ hx)
  have hentry : ∀ x ∈ L, (s.insertEntry entry).entry x = s.entry x := fun x hx => Function.update_of_ne (hne x hx) _ _
  have hself : (s.insertEntry entry).entry s.nextEntry = entry := Function.update_self ..
  have hclear : ∀ x ∈ L, x ∉ [s.nextEntry] := fun x hx => by simpa using hne x hx
  have hqueue : IsQueue (s.lruLink.clear s.nextEntry) s.lru L := h.lru.frame (Links.clear_frame _ _) hclear
  have htable : HashOk (s.hashLink.clear s.nextEntry) s.bucket s.nbuckets (s.insertEntry entry).hashIndex (fun x => x ∈ L) B := by
    apply (h.table.frame fun x hx => Links.clear_frame _ _ x (hclear x hx)).congr fun _ => Iff.rfl
    intro x hx
    rw [RamCacheLRU.hashIndex, hentry x hx]
    rfl
  have hidx : (s.insertEntry entry).hashIndex s.nextEntry = hashOf s.nbuckets entry.key := by
    rw [RamCacheLRU.hashIndex, hself]
    rfl
  have hpush := (htable.push hnot (Links.clear_detached _ _) (hidx ▸ Nat.mod_lt _ hpos)).1
  rw [hidx] at hpush
  refine ⟨_, (queue_enqueue_rule hqueue hnot (Links.clear_detached _ _)).1, hpush.congr ?_ fun _ _ => rfl, ?_, ?_, ?_, ?_, fun _ => hpos⟩
  · intro x
    rw [List.mem_append, List.mem_singleton]
  · intro x hx
    rcases List.mem_append.mp hx with hx | hx
    · exact (h.lt_next x hx).trans (Nat.lt_succ_self _)
    · rw [List.mem_singleton.mp hx]
      exact Nat.lt_succ_self _
  · intro x hx x' hx' heq
    rcases List.mem_append.mp hx with hx | hx <;> rcases List.mem_append.mp hx' with hx' | hx'
    · rw [hentry x hx, hentry x' hx'] at heq
      exact h.unique x hx x' hx' heq
    · rw [List.mem_singleton.mp hx', hself, hentry x hx] at heq
      exact absurd heq (hkey x hx)
    · rw [List.mem_singleton.mp hx, hself, hentry x' hx'] at heq
      exact absurd heq.symm (hkey x' hx')
    · rw [List.mem_singleton.mp hx, List.mem_singleton.mp hx']
  · rw [List.length_append, List.length_singleton, Nat.cast_add, ← h.objects_eq]
    rfl
  · have hcost : ∀ x ∈ L, (s.insertEntry entry).cost x = s.cost x := by
      intro x hx
      rw [RamCacheLRU.cost, hentry x hx]
      rfl
    have hnew : (s.insertEntry entry).cost s.nextEntry = ((ENTRY_OVERHEAD + entry.data.blockSize : ℕ) : ℤ) := by
      rw [RamCacheLRU.cost, hself, Nat.cast_add]
    rw [List.map_append, List.sum_append, List.map_congr_left hcost, List.map_singleton, List.sum_singleton, hnew,
      ← h.bytes_eq]
    rfl

/-! ## The operations -/

theorem bucketSize_pos (c : Cfg) (i : ℕ) : 0 < bucketSize c i := by
  have hpos : ∀ x ∈ bucketSizes, 0 < x := by decide
  rw [bucketSize, List.getD_eq_getElem?_getD]
  cases hi : bucketSizes[i]? with
  | none => exact (c.stray i).pos
  | some x => exact hpos x (List.mem_of_getElem? hi)

theorem Rep.resize (h : Rep s L B) (m : ℤ) (i : ℕ) :
    ∃ B', Rep ({ s with maxBytes := m, ibuckets := i }.resizeHashtable c) L B' := by
  have hpos := bucketSize_pos c i
  have hlt : ∀ e, hashOf (bucketSize c i) (s.entry e).key < bucketSize c i := fun e => Nat.mod_lt _ hpos
  obtain ⟨B', htable⟩ := rehash_rule hlt h.table fun b hb => Nat.lt_succ_of_le (h.chain_length hb)
  exact ⟨B', h.lru, htable, h.lt_next, h.unique, h.objects_eq, h.bytes_eq, fun _ => hpos⟩

theorem Rep.init (h : Rep s L B) (abytes : ℤ) : ∃ B', Rep (s.init c abytes) L B' := by
  unfold RamCacheLRU.init
  dsimp only
  by_cases h0 : abytes = 0
  · rw [if_pos h0]
    exact ⟨B, h.lru, h.table, h.lt_next, h.unique, h.objects_eq, h.bytes_eq, fun hne => absurd h0 hne⟩
  · rw [if_neg h0]
    exact h.resize abytes s.ibuckets

/-- the entry of the keys is found where it is in the queue -/
theorem Rep.find_eq (h : Rep s L B) (hmax : s.maxBytes ≠ 0) (key : CacheKey) (auxkey1 auxkey2 : ℕ) :
    s.find (RamCacheLRU.keysEqual key auxkey1 auxkey2) (s.chain key) = L.find? fun x => RamCacheLRU.keysEqual key auxkey1 auxkey2 (s.entry x) := by
  have hb : hashOf s.nbuckets key < s.nbuckets := Nat.mod_lt _ (h.nbuckets_pos hmax)
  rw [RamCacheLRU.find, RamCacheLRU.chain, h.table.find_eq hb (Nat.lt_succ_of_le (h.chain_length hb))]
  cases hL : L.find? fun x => RamCacheLRU.keysEqual key auxkey1 auxkey2 (s.entry x) with
  | none =>
    rw [List.find?_eq_none] at hL ⊢
    exact fun x hx => hL x ((h.table.mem x).mpr ⟨_, hb, hx⟩)
  | some e =>
    have he := List.mem_of_find?_eq_some hL
    have hkeys := List.find?_some hL
    cases hB : (B (hashOf s.nbuckets key)).find? fun x => RamCacheLRU.keysEqual key auxkey1 auxkey2 (s.entry x) with
    | none =>
      have hmem := (h.table.mem_chain he).2
      rw [RamCacheLRU.hashIndex, (of_decide_eq_true hkeys).1] at hmem
      exact absurd hkeys (List.find?_eq_none.mp hB e hmem)
    | some e' =>
      have he' : e' ∈ L := (h.table.mem e').mpr ⟨_, hb, List.mem_of_find?_eq_some hB⟩
      have hkeys' := List.find?_some hB
      rw [h.unique e' he' e he ((of_decide_eq_true hkeys').1.trans (of_decide_eq_true hkeys).1.symm)]

/-- a hit moves the entry to the end -/
theorem Rep.get (h : Rep s L B) (key : CacheKey) (auxkey1 auxkey2 : ℕ) (hmax : s.maxBytes ≠ 0) :
    Rep (s.get key auxkey1 auxkey2).1 (LruPolicy.touch (fun x => RamCacheLRU.keysEqual key auxkey1 auxkey2 (s.entry x)) L) B ∧
    (s.get key auxkey1 auxkey2).1.entry = s.entry ∧ (s.get key auxkey1 auxkey2).2 =
      (L.find? fun x => RamCacheLRU.keysEqual key auxkey1 auxkey2 (s.entry x)).map fun x => (s.entry x).data := by
  rw [RamCacheLRU.get, if_neg hmax, h.find_eq hmax]
  cases hL : L.find? fun x => RamCacheLRU.keysEqual key auxkey1 auxkey2 (s.entry x) with
  | none =>
    refine ⟨?_, rfl, rfl⟩
    rw [LruPolicy.touch, hL, List.eraseP_of_forall_not (List.find?_eq_none.mp hL), Option.toList_none, List.append_nil]
    exact h
  | some e =>
    obtain ⟨hkeys, l₁, l₂, rfl, hl₁⟩ := List.find?_eq_some_iff_append.mp hL
    refine ⟨?_, rfl, rfl⟩
    rw [LruPolicy.touch_eq (p := fun x => RamCacheLRU.keysEqual key auxkey1 auxkey2 (s.entry x)) (by simpa using hl₁) hkeys]
    exact h.touch

theorem Rep.get_rep (h : Rep s L B) (key : CacheKey) (auxkey1 auxkey2 : ℕ) :
    ∃ L', Rep (s.get key auxkey1 auxkey2).1 L' B := by
  by_cases hmax : s.maxBytes = 0
  · rw [RamCacheLRU.get, if_pos hmax]
    exact ⟨L, h⟩
  · exact ⟨_, (h.get key auxkey1 auxkey2 hmax).1⟩

theorem Rep.fixup (h : Rep s L B) (key : CacheKey) (old1 old2 new1 new2 : ℕ) :
    Rep (s.fixup key old1 old2 new1 new2).1 L B := by
  unfold RamCacheLRU.fixup
  by_cases hmax : s.maxBytes = 0
  · rw [if_pos hmax]
    exact h
  · rw [if_neg hmax]
    cases s.find (RamCacheLRU.keysEqual key old1 old2) (s.chain key) with
    | none => exact h
    | some e =>
      dsimp only
      generalize hnew : Function.update s.entry e { s.entry e with auxkey1 := new1, auxkey2 := new2 } = entry'
      -- the key and the data stay
      have hsame : ∀ x, (entry' x).key = (s.entry x).key ∧ (entry' x).data = (s.entry x).data := by
        intro x
        rw [← hnew, Function.update_apply]
        by_cases hx : x = e
        · rw [if_pos hx, hx]
          exact ⟨rfl, rfl⟩
        · rw [if_neg hx]
          exact ⟨rfl, rfl⟩
      refine ⟨h.lru, ?_, h.lt_next, fun x hx x' hx' heq => ?_, h.objects_eq, ?_, h.nbuckets_pos⟩
      · apply h.table.congr fun _ => Iff.rfl
        intro x _
        rw [RamCacheLRU.hashIndex, (hsame x).1]
        rfl
      · rw [(hsame x).1, (hsame x').1] at heq
        exact h.unique x hx x' hx' heq
      · apply h.bytes_eq.trans
        apply congrArg List.sum
        apply List.map_congr_left
        intro x _
        rw [RamCacheLRU.cost, RamCacheLRU.cost, (hsame x).2]

/-- no entry is put in: the cache is off, or the seen filter keeps the key out -/
def Refused (c : Cfg) (s : RamCacheLRU) (key : CacheKey) : Prop := s.maxBytes = 0 ∨ (s.filter c key).2 = false

instance decidableRefused (c : Cfg) (s : RamCacheLRU) (key : CacheKey) : Decidable (Refused c s key) :=
  inferInstanceAs (Decidable (_ ∨ _))

/-- what an entry counts for -/
def Entry.cost (x : Entry) : ℤ := ENTRY_OVERHEAD + x.data.blockSize

/-- the three ends of `put` -/
inductive PutDone (c : Cfg) (s : RamCacheLRU) (L : List ℕ) (entry : Entry) (s' : RamCacheLRU) : Bool → Prop
  | refused {B' : ℕ → List ℕ} : Refused c s entry.key → Rep s' L B' → s'.entry = s.entry → PutDone c s L entry s' false
  | hit {l₁ l₂ : List ℕ} {e : ℕ} {B' : ℕ → List ℕ} : ¬ Refused c s entry.key → L = l₁ ++ e :: l₂ →
      RamCacheLRU.keysEqual entry.key entry.auxkey1 entry.auxkey2 (s.entry e) → Rep s' (l₁ ++ l₂ ++ [e]) B' → s'.entry = s.entry →
      PutDone c s L entry s' true
  | stored {L' : List ℕ} {B' : ℕ → List ℕ} : ¬ Refused c s entry.key →
      (∀ x ∈ L, ¬ RamCacheLRU.keysEqual entry.key entry.auxkey1 entry.auxkey2 (s.entry x)) → Rep s' L' B' →
      L'.map s'.entry = LruPolicy.evict Entry.cost s.maxBytes ((L.map s.entry).filter (fun x => x.key ≠ entry.key) ++ [entry]) →
      PutDone c s L entry s' true

theorem Rep.put (h : Rep s L B) (entry : Entry) :
    (s.put c entry).1.maxBytes = s.maxBytes ∧ PutDone c s L entry (s.put c entry).1 (s.put c entry).2 := by
  unfold RamCacheLRU.put
  by_cases hmax : s.maxBytes = 0
  · rw [if_pos hmax]
    exact ⟨rfl, .refused (Or.inl hmax) h rfl⟩
  · rw [if_neg hmax]
    have hfilter : ∃ seen, (s.filter c entry.key).1 = { s with seen := seen } := by
      unfold RamCacheLRU.filter
      by_cases hc : c.useSeenFilter
      · rw [if_pos hc]
        exact ⟨_, rfl⟩
      · rw [if_neg hc]
        exact ⟨s.seen, rfl⟩
    have hrefused : Refused c s entry.key ↔ (s.filter c entry.key).2 = false := or_iff_right hmax
    obtain ⟨seen, hseen⟩ := hfilter
    generalize s.filter c entry.key = r at hseen hrefused ⊢
    obtain ⟨s₁, ok⟩ := r
    obtain rfl : s₁ = { s with seen := seen } := hseen
    have h₁ : Rep { s with seen := seen } L B :=
      ⟨h.lru, h.table, h.lt_next, h.unique, h.objects_eq, h.bytes_eq, h.nbuckets_pos⟩
    cases ok with
    | false => exact ⟨rfl, .refused (hrefused.mpr rfl) h₁ rfl⟩
    | true =>
      have hgo : ¬ Refused c s entry.key := fun hr => absurd (hrefused.mp hr) (by simp)
      dsimp only
      have hpos := h.nbuckets_pos hmax
      have hb : hashOf s.nbuckets entry.key < s.nbuckets := Nat.mod_lt _ hpos
      have hhead : RamCacheLRU.chain { s with seen := seen } entry.key = (B (hashOf s.nbuckets entry.key)).head? :=
        (h.table.chain _ hb).head_eq
      obtain ⟨hsame₂, hhit, hmiss⟩ := h₁.putWalk entry.auxkey1 entry.auxkey2 hpos
        (List.nil_append _).symm (by simp) (Nat.lt_succ_of_le (h.chain_length hb))
      rw [hhead]
      generalize RamCacheLRU.putWalk entry.key entry.auxkey1 entry.auxkey2 (s.nextEntry + 1) { s with seen := seen }
        (B (hashOf s.nbuckets entry.key)).head? = w at hsame₂ hhit hmiss ⊢
      obtain ⟨s₂, found⟩ := w
      cases found with
      | true =>
        obtain ⟨l₁, e, l₂, hL, hkeys, hrep⟩ := hhit rfl
        exact ⟨hsame₂.max_eq, .hit hgo hL hkeys hrep hsame₂.entry_eq⟩
      | false =>
        obtain ⟨hnone, B₂, h₂⟩ := hmiss rfl
        dsimp only at h₂ hsame₂ ⊢
        have hentry₂ : s₂.entry = s.entry := hsame₂.entry_eq
        have hkey : ∀ x ∈ L.filter fun x => (s.entry x).key ≠ entry.key, (s₂.entry x).key ≠ entry.key := by
          rw [hentry₂]
          exact fun x hx => of_decide_eq_true (List.mem_filter.mp hx).2
        have hpos₂ : 0 < s₂.nbuckets := by
          rw [hsame₂.nbuckets_eq]
          exact hpos
        obtain ⟨B₃, h₃⟩ := h₂.insertEntry hpos₂ hkey
        obtain ⟨B₄, h₄, hsame₄⟩ := h₃.evict (Nat.lt_succ_of_le h₃.lru_length)
        have hmax₃ : (s₂.insertEntry entry).maxBytes = s.maxBytes := hsame₂.max_eq
        have hmap : (LruPolicy.evict (s₂.insertEntry entry).cost (s₂.insertEntry entry).maxBytes
            ((L.filter fun x => (s.entry x).key ≠ entry.key) ++ [s₂.nextEntry])).map (s₂.insertEntry entry).entry =
            LruPolicy.evict Entry.cost s.maxBytes ((L.map s.entry).filter (fun x => x.key ≠ entry.key) ++ [entry]) := by
          rw [LruPolicy.map_evict (s₂.insertEntry entry).cost Entry.cost (fun _ _ => rfl), hmax₃, List.map_append, List.map_singleton]
          congr 2
          · rw [List.filter_map]
            apply List.map_congr_left
            intro x hx
            have hne : x ≠ s₂.nextEntry := fun heq => absurd (h₂.lt_next x hx) (by rw [heq]; exact lt_irrefl _)
            rw [← hentry₂]
            exact Function.update_of_ne hne _ _
          · exact congrArg (fun x => [x]) (Function.update_self ..)
        rw [← hsame₄.entry_eq] at hmap
        have hmax₄ := hsame₄.max_eq.trans hmax₃
        generalize RamCacheLRU.evict ((s₂.insertEntry entry).nextEntry + 1) (s₂.insertEntry entry) = s₄ at h₄ hmax₄ hmap ⊢
        by_cases hobj : s₄.objects > s₄.nbuckets
        · rw [if_pos hobj]
          obtain ⟨B₅, h₅⟩ := h₄.resize (c := c) s₄.maxBytes (s₄.ibuckets + 1)
          exact ⟨hmax₄, .stored hgo hnone h₅ hmap⟩
        · rw [if_neg hobj]
          exact ⟨hmax₄, .stored hgo hnone h₄ hmap⟩

theorem sum_cost (s : RamCacheLRU) (L : List ℕ) : (L.map s.cost).sum = ((L.map s.entry).map Entry.cost).sum := by
  rw [List.map_map]
  rfl

/-- after a `put` the bytes fit, unless nothing was put in -/
theorem Rep.put_fits (h : Rep s L B) (entry : Entry) :
    (∃ L' B', Rep (s.put c entry).1 L' B') ∧
    (0 ≤ s.maxBytes → s.bytes ≤ s.maxBytes → (s.put c entry).1.bytes ≤ s.maxBytes) := by
  obtain ⟨_, hdone⟩ := h.put (c := c) entry
  generalize (s.put c entry).1 = s', (s.put c entry).2 = b at hdone
  cases hdone with
  | refused _ hrep hentry =>
    refine ⟨⟨_, _, hrep⟩, fun _ hle => ?_⟩
    rw [hrep.bytes_eq, sum_cost, hentry, ← sum_cost, ← h.bytes_eq]
    exact hle
  | @hit l₁ l₂ e _ _ hL _ hrep hentry =>
    refine ⟨⟨_, _, hrep⟩, fun _ hle => ?_⟩
    have hperm : (l₁ ++ l₂ ++ [e]).Perm L :=
      hL ▸ (List.perm_append_singleton e (l₁ ++ l₂)).trans List.perm_middle.symm
    rw [hrep.bytes_eq, sum_cost, hentry, ← sum_cost, (hperm.map s.cost).sum_eq, ← h.bytes_eq]
    exact hle
  | stored _ _ hrep hmap =>
    refine ⟨⟨_, _, hrep⟩, fun h0 _ => ?_⟩
    rw [hrep.bytes_eq, sum_cost, hmap]
    exact LruPolicy.evict_fits h0 _

/-! ## Runs -/

theorem rep_new (entry0 : Entry) : Rep (newRamCacheLRU entry0) [] fun _ => [] := by
  refine ⟨isQueue_nil, ?_, by simp, by simp, rfl, rfl, fun h => absurd rfl h⟩
  exact (hashOk_empty _ 0 _).congr (by simp) fun _ _ => rfl

theorem step_rep (h : Rep s L B) (op : Op) : ∃ L' B', Rep (step c s op) L' B' := by
  cases op with
  | init abytes =>
    obtain ⟨B', h'⟩ := h.init (c := c) abytes
    exact ⟨L, B', h'⟩
  | get key auxkey1 auxkey2 =>
    obtain ⟨L', h'⟩ := h.get_rep key auxkey1 auxkey2
    exact ⟨L', B, h'⟩
  | put entry => exact (h.put_fits (c := c) entry).1
  | fixup key old1 old2 new1 new2 => exact ⟨L, B, h.fixup key old1 old2 new1 new2⟩

theorem run_rep (c : Cfg) (entry0 : Entry) (ops : List Op) : ∃ L B, Rep (ops.foldl (step c) (newRamCacheLRU entry0)) L B := by
  apply Along.inv (P := fun _ _ => True) (I := fun s => ∃ L B, Rep s L B) _ ⟨_, _, rep_new entry0⟩
    (along_of_forall (p := fun _ => True) (by simp))
  rintro s op ⟨L, B, h⟩ _
  exact step_rep h op

/-- the bytes fit -/
structure Fits (s : RamCacheLRU) : Prop where
  max_nonneg : 0 ≤ s.maxBytes
  le_max : s.bytes ≤ s.maxBytes

/-- a size is set that is not below what the cache holds -/
def InitOk (s : RamCacheLRU) : Op → Prop
  | .init abytes => 0 ≤ abytes ∧ s.bytes ≤ abytes
  | _ => True

theorem get_fields (s : RamCacheLRU) (key : CacheKey) (auxkey1 auxkey2 : ℕ) :
    (s.get key auxkey1 auxkey2).1.maxBytes = s.maxBytes ∧ (s.get key auxkey1 auxkey2).1.bytes = s.bytes := by
  unfold RamCacheLRU.get
  by_cases hmax : s.maxBytes = 0
  · rw [if_pos hmax]
    exact ⟨rfl, rfl⟩
  · rw [if_neg hmax]
    cases s.find (RamCacheLRU.keysEqual key auxkey1 auxkey2) (s.chain key) with
    | none => exact ⟨rfl, rfl⟩
    | some e => exact ⟨rfl, rfl⟩

theorem fixup_fields (s : RamCacheLRU) (key : CacheKey) (old1 old2 new1 new2 : ℕ) :
    (s.fixup key old1 old2 new1 new2).1.maxBytes = s.maxBytes ∧ (s.fixup key old1 old2 new1 new2).1.bytes = s.bytes := by
  unfold RamCacheLRU.fixup
  by_cases hmax : s.maxBytes = 0
  · rw [if_pos hmax]
    exact ⟨rfl, rfl⟩
  · rw [if_neg hmax]
    cases s.find (RamCacheLRU.keysEqual key old1 old2) (s.chain key) with
    | none => exact ⟨rfl, rfl⟩
    | some e => exact ⟨rfl, rfl⟩

theorem init_fields (s : RamCacheLRU) (abytes : ℤ) : (s.init c abytes).maxBytes = abytes ∧ (s.init c abytes).bytes = s.bytes := by
  unfold RamCacheLRU.init
  dsimp only
  by_cases h0 : abytes = 0
  · rw [if_pos h0]
    exact ⟨rfl, rfl⟩
  · rw [if_neg h0]
    exact ⟨rfl, rfl⟩

theorem step_fits (h : Rep s L B) (hfits : Fits s) (op : Op) (hok : InitOk s op) : Fits (step c s op) := by
  cases op with
  | init abytes =>
    obtain ⟨hm, hbytes⟩ := init_fields (c := c) s abytes
    exact ⟨hm.symm ▸ hok.1, by rw [step, hm, hbytes]; exact hok.2⟩
  | get key auxkey1 auxkey2 =>
    obtain ⟨hm, hbytes⟩ := get_fields s key auxkey1 auxkey2
    exact ⟨hm.symm ▸ hfits.max_nonneg, by rw [step, hm, hbytes]; exact hfits.le_max⟩
  | put entry =>
    have hm := (h.put (c := c) entry).1
    have hle := (h.put_fits (c := c) entry).2
    exact ⟨hm.symm ▸ hfits.max_nonneg, by rw [step, hm]; exact hle hfits.max_nonneg hfits.le_max⟩
  | fixup key old1 old2 new1 new2 =>
    obtain ⟨hm, hbytes⟩ := fixup_fields s key old1 old2 new1 new2
    exact ⟨hm.symm ▸ hfits.max_nonneg, by rw [step, hm, hbytes]; exact hfits.le_max⟩

/-- the queue and the table hold the same entries after every run, and the counts are right; the bytes fit while no size is set
below them -/
theorem ram_cache_lru_rep (c : Cfg) (entry0 : Entry) (ops : List Op) :
    (∃ L B, Rep (ops.foldl (step c) (newRamCacheLRU entry0)) L B) ∧
    (Along (step c) InitOk (newRamCacheLRU entry0) ops →
      (ops.foldl (step c) (newRamCacheLRU entry0)).bytes ≤ (ops.foldl (step c) (newRamCacheLRU entry0)).maxBytes) := by
  have hnew : ∃ L B, Rep (newRamCacheLRU entry0) L B := ⟨_, _, rep_new entry0⟩
  refine ⟨run_rep c entry0 ops, fun hok => ?_⟩
  have hinv : ∀ s op, ((∃ L B, Rep s L B) ∧ Fits s) → InitOk s op → (∃ L B, Rep (step c s op) L B) ∧ Fits (step c s op) := by
    rintro s op ⟨⟨L, B, h⟩, hfits⟩ hop
    exact ⟨step_rep h op, step_fits h hfits op hop⟩
  exact (hok.inv hinv ⟨hnew, ⟨le_refl _, le_refl _⟩⟩).2.le_max

/-- an object of 500 bytes -/
def smallEntry : Entry := ⟨⟨fun _ => 0⟩, 0, 0, ⟨0, 500⟩⟩

def smallCfg : Cfg := ⟨false, fun _ => ⟨1, Nat.one_pos⟩⟩

/-- two calls that set a size and one object between them -/
def growOps : List Op := [.init 1000, .put smallEntry, .init 2000]

theorem growOps_ok : Along (step smallCfg) InitOk (newRamCacheLRU smallEntry) growOps := by
  refine ⟨⟨by decide, by decide⟩, trivial, ⟨by decide, ?_⟩, trivial⟩
  decide +kernel

theorem ram_cache_lru_rep_grow :
    (growOps.foldl (step smallCfg) (newRamCacheLRU smallEntry)).bytes = 628 ∧
    (growOps.foldl (step smallCfg) (newRamCacheLRU smallEntry)).bytes ≤
      (growOps.foldl (step smallCfg) (newRamCacheLRU smallEntry)).maxBytes :=
  ⟨by decide +kernel, (ram_cache_lru_rep smallCfg smallEntry growOps).2 growOps_ok⟩

/-- `init` does not drop what no longer fits -/
theorem shrunk_by_init :
    ¬ ([Op.init 1000, .put smallEntry, .init 100].foldl (step smallCfg) (newRamCacheLRU smallEntry)).bytes ≤
      ([Op.init 1000, .put smallEntry, .init 100].foldl (step smallCfg) (newRamCacheLRU smallEntry)).maxBytes := by
  decide +kernel

end TrafficServer.Cache.LRU
