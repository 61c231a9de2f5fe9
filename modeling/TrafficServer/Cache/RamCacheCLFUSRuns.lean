/-
Runs of the CLFUS memory cache.

Every call keeps `Rep`, for every `Q` that survives what the call does to an entry (`StepClosed`, `step_rep`). Two results. In
every reachable state the lists, the chains, the counts and the cursor are as `check_accounting` has them, and `bytes` is the sum of
the sizes and the overheads if no object is within an overhead of 4 GB (`clfus_accounting`); an object that is, counts a few bytes
when it comes and its size when it is put again (`accounting_fails`). And `bytes` stays below `max_bytes` as long as no `put` makes
use of the room that its tests find and that the overhead takes (`clfus_memory_bound`, `memory_bound_fails`).
-/
import TrafficServer.Cache.RamCacheCLFUSPut

namespace TrafficServer.Cache.CLFUS

open TrafficServer.Dll TrafficServer.HashChain TrafficServer.Run

variable {V : Type} {c : Cfg V} {Q : Entry → Prop} {s : RamCacheCLFUS V} {M H W : List ℕ} {o : Option ℕ} {B : ℕ → List ℕ}
  {base : ℤ} {e : ℕ}

/-! ## What is known of entries in memory -/

/-- the bytes that the codec is given -/
def Entry.object (x : Entry) : List (BitVec 8) := (x.data.elim [] Data.bytes).take x.len

/-- `Q` survives the hits and what the compression pass does to an entry in memory -/
structure ClosedPass (c : Cfg V) (Q : Entry → Prop) : Prop where
  hits : IgnoresHits Q
  started : ∀ x, Q x → x.compressed = 0 → Q { x with compressedLen := x.size }
  failed : ∀ x, Q x → Q { x with incompressible := true }
  shrunk : ∀ x out n, Q x → x.compressed = 0 → c.available c.compress = true → c.encode c.compress x.object = some out →
    out.length < x.len → out.length ≤ x.size →
    Q { x with compressed := c.compress, compressedLen := out.length, size := out.length, data := some ⟨n, out.length, out⟩ }
  copied : ∀ x n, Q x → x.compressed = 0 → c.available c.compress = true → x.len ≤ x.size →
    Q { x with compressed := 0, size := x.len, data := some ⟨n, x.len, x.object⟩ }

/-- what `get` makes of a compressed entry that is not copied -/
def Entry.unpacked (x : Entry) (n : ℕ) (out : List (BitVec 8)) : Entry :=
  { x with size := x.compressedLen, compressed := 0, data := some ⟨n, x.len, out⟩ }

/-- `Q` survives all that `get` and the compression pass do to an entry in memory -/
structure Closed (c : Cfg V) (Q : Entry → Prop) : Prop extends ClosedPass c Q where
  decompressed : ∀ x out n, Q x → x.compressed ≠ 0 → c.decompress x = some out → Q (x.unpacked n out)

/-- `get` finds a compressed entry in memory that it decompresses in place -/
def Unpacks (c : Cfg V) (x : Entry) : Prop := x.compressed ≠ 0 ∧ x.copy = false ∧ c.decompress x ≠ none

/-! ## `get` -/

theorem Rep.lookup_mem (h : Rep Q s M H [] none B base) (hmax : s.maxBytes ≠ 0) {key : CacheKey} {auxkey1 auxkey2 : ℕ}
    (hfind : s.lookup key auxkey1 auxkey2 = some e) :
    (e ∈ M ∨ e ∈ H) ∧ RamCacheCLFUS.keysEqual key auxkey1 auxkey2 (s.entry e) = true := by
  have hb : hashOf s.nbuckets key < s.nbuckets := Nat.mod_lt _ (h.nbuckets_pos hmax)
  rw [RamCacheCLFUS.lookup, RamCacheCLFUS.chain, h.table.find_eq hb (Nat.lt_succ_of_le (h.chain_length hb))] at hfind
  have hheld : Held M H [] none e := (h.table.mem e).mpr ⟨_, hb, List.mem_of_find?_eq_some hfind⟩
  exact ⟨by simpa [Held] using hheld, by simpa using List.find?_some hfind⟩

/-- what a hit returns, from the entry -/
def GetData (c : Cfg V) (x : Entry) (d : Data) : Prop :=
  (x.compressed = 0 ∧ ∃ d', x.data = some d' ∧ (if x.copy then d.bytes = d'.bytes.take x.len else d = d')) ∨
  (x.compressed ≠ 0 ∧ c.decompress x = some d.bytes)

/-- decompressing does not look at the hits -/
theorem decompress_hits (x : Entry) (n : ℕ) : c.decompress { x with hits := n } = c.decompress x := rfl

theorem Rep.setNextData (h : Rep Q s M H W o B base) (n : ℕ) : Rep Q { s with nextData := n } M H W o B base :=
  ⟨h.queues, h.table, h.out, h.lt_next, h.fresh, h.unique, h.objects_eq, h.history_eq, h.bytes_eq, h.memory, h.history, h.cursor,
    h.nbuckets_pos⟩

/-- `lru[0].remove(e); lru[0].enqueue(e)`, if the entry is worth it -/
theorem Rep.touch_if (h : Rep Q s M H W o B base) (he : e ∈ M) (b : Bool) {t : RamCacheCLFUS V}
    (ht : (if b = true then (s.lruRemove .memory e).enqueue .memory e else s) = t) :
    (∃ M', M'.Perm M ∧ Rep Q t M' H W o B base) ∧ t.entry = s.entry ∧ t.bytes = s.bytes ∧ t.maxBytes = s.maxBytes := by
  cases b with
  | false => exact ht ▸ ⟨⟨M, List.Perm.refl M, h⟩, rfl, rfl, rfl⟩
  | true =>
    obtain ⟨m₁, m₂, rfl⟩ := List.append_of_mem he
    have hperm : (m₁ ++ m₂ ++ [e]).Perm (m₁ ++ e :: m₂) :=
      (List.perm_append_singleton e (m₁ ++ m₂)).trans List.perm_middle.symm
    exact ht ▸ ⟨⟨_, hperm, h.touch⟩, rfl, rfl, rfl⟩

/-- a hit; what `Q` says of a decompressed entry is needed only if there is one -/
theorem Rep.getHit (hhits : IgnoresHits Q) (h : Rep Q s M H [] none B base) (he : e ∈ M)
    (hin : Unpacks c (s.entry e) →
      ∀ x out n, Q x → x.compressed ≠ 0 → c.decompress x = some out → Q (x.unpacked n out)) :
    (∃ M' H' B' base', Rep Q (s.getHit c e).1 M' H' [] none B' base' ∧ (Small Q → base' = base)) ∧
    (s.getHit c e).1.maxBytes = s.maxBytes ∧
    ((s.getHit c e).1.bytes ≤ s.bytes ∨
      (s.getHit c e).1.bytes = s.bytes + (((s.entry e).compressedLen : ℤ) - (s.entry e).size) ∧ (s.entry e).compressed ≠ 0) ∧
    ∀ n d, (s.getHit c e).2 = some (n, d) → GetData c (s.entry e) d := by
  unfold RamCacheCLFUS.getHit
  dsimp only
  generalize ht : (if c.lt s.averageValue (s.value c e) = true then (s.lruRemove .memory e).enqueue .memory e else s) = t
  obtain ⟨⟨M₁, hperm, hrep⟩, hentry, hbytes, hmax⟩ := h.touch_if he _ ht
  have he₁ : e ∈ M₁ := hperm.mem_iff.mpr he
  obtain ⟨hlru, hdata, hQe⟩ := h.memory e (Or.inl he)
  have hQt : Q { t.entry e with hits := (t.entry e).hits + 1 } := by
    rw [hentry]
    exact hhits _ _ hQe
  have hhit := hrep.modify_memory_size (f := fun x => { x with hits := x.hits + 1 }) he₁ (fun _ => rfl) rfl rfl rfl hQt
  set u := t.modify e fun x => { x with hits := x.hits + 1 } with hu
  have hself : u.entry e = { s.entry e with hits := (s.entry e).hits + 1 } := by
    rw [hu, modify_entry_self, hentry]
  have hubytes : u.bytes = s.bytes := hbytes
  have humax : u.maxBytes = s.maxBytes := hmax
  have hQu : Q (u.entry e) := (hhit.memory e (Or.inl he₁)).2.2
  clear_value u
  by_cases hcomp : (u.entry e).compressed = 0
  · rw [if_pos hcomp]
    have hcomp' : (s.entry e).compressed = 0 := by rwa [hself] at hcomp
    cases hd : (u.entry e).data with
    | none => exact absurd hd (hhit.memory e (Or.inl he₁)).2.1
    | some d₀ =>
      have hd' : (s.entry e).data = some d₀ := by rwa [hself] at hd
      dsimp only
      by_cases hcopy : (u.entry e).copy = true
      · rw [if_pos hcopy]
        have hcopy' : (s.entry e).copy = true := by rwa [hself] at hcopy
        refine ⟨⟨M₁, H, B, base, hhit.setNextData _, fun _ => rfl⟩, humax, Or.inl hubytes.le, fun n d hret => ?_⟩
        obtain ⟨_, rfl⟩ := Prod.mk.inj (Option.some.inj hret)
        refine Or.inl ⟨hcomp', d₀, hd', ?_⟩
        rw [if_pos hcopy', hself]
      · rw [if_neg hcopy]
        have hcopy' : ¬ (s.entry e).copy = true := by rwa [hself] at hcopy
        refine ⟨⟨M₁, H, B, base, hhit, fun _ => rfl⟩, humax, Or.inl hubytes.le, fun n d hret => ?_⟩
        obtain ⟨_, rfl⟩ := Prod.mk.inj (Option.some.inj hret)
        refine Or.inl ⟨hcomp', d₀, hd', ?_⟩
        rw [if_neg hcopy']
  · rw [if_neg hcomp]
    have hcomp' : (s.entry e).compressed ≠ 0 := by rwa [hself] at hcomp
    have hdec : c.decompress (u.entry e) = c.decompress (s.entry e) := by rw [hself, decompress_hits]
    cases hout : c.decompress (u.entry e) with
    | none =>
      -- the entry cannot be read and is dropped
      obtain ⟨b₁, b₂, hB⟩ := List.append_of_mem (hhit.table.mem_chain (Or.inl he₁)).2
      obtain ⟨M', H', hfree, hle⟩ := hhit.destroy (Or.inl he₁) hB
      refine ⟨⟨M', H', _, base, hfree, fun _ => rfl⟩, (destroy_fields u e).1.trans humax, Or.inl (hle.trans hubytes.le), ?_⟩
      exact fun n d hret => absurd hret (by simp)
    | some out =>
      rw [hdec] at hout
      dsimp only
      by_cases hcopy : (u.entry e).copy = true
      · rw [if_pos hcopy]
        refine ⟨⟨M₁, H, B, base, hhit.setNextData _, fun _ => rfl⟩, humax, Or.inl hubytes.le, fun n d hret => ?_⟩
        obtain ⟨_, rfl⟩ := Prod.mk.inj (Option.some.inj hret)
        exact Or.inr ⟨hcomp', hout⟩
      · rw [if_neg hcopy]
        have hunpacks : Unpacks c (s.entry e) := by
          rw [hself] at hcopy
          exact ⟨hcomp', Bool.eq_false_iff.mpr hcopy, by simp [hout]⟩
        have hQn := hin hunpacks _ _ u.nextData hQu hcomp (hdec.trans hout)
        have hnew := hhit.modify_memory (f := fun x => { x with
          size := x.compressedLen, compressed := 0, data := some ⟨u.nextData, (u.entry e).len, out⟩ }) he₁ (fun _ => rfl)
          (hhit.memory e (Or.inl he₁)).1 (by simp) hQn (u.bytes + (((u.entry e).compressedLen : ℤ) - (u.entry e).size))
          (u.nextData + 1)
        refine ⟨⟨M₁, H, B, _, hnew, fun hsmall => ?_⟩, humax, Or.inr ⟨?_, hcomp'⟩, fun n d hret => ?_⟩
        · rw [add_sub_cancel_left]
          exact base_eq_of_small (hsmall _ hQn) (hsmall _ hQu) base
        · change u.bytes + (((u.entry e).compressedLen : ℤ) - (u.entry e).size) = _
          rw [hubytes, hself]
        · obtain ⟨_, rfl⟩ := Prod.mk.inj (Option.some.inj hret)
          exact Or.inr ⟨hcomp', hout⟩

theorem Rep.get_of (hhits : IgnoresHits Q) (h : Rep Q s M H [] none B base) (key : CacheKey) (auxkey1 auxkey2 : ℕ)
    (hin : s.maxBytes ≠ 0 → ∀ e, s.lookup key auxkey1 auxkey2 = some e → (s.entry e).lru = false → Unpacks c (s.entry e) →
      ∀ x out n, Q x → x.compressed ≠ 0 → c.decompress x = some out → Q (x.unpacked n out)) :
    (∃ M' H' B' base', Rep Q (s.get c key auxkey1 auxkey2).1 M' H' [] none B' base' ∧ (Small Q → base' = base)) ∧
    (s.get c key auxkey1 auxkey2).1.maxBytes = s.maxBytes ∧
    ((s.get c key auxkey1 auxkey2).1.bytes ≤ s.bytes ∨ ∃ e ∈ M, (s.entry e).compressed ≠ 0 ∧
      (s.get c key auxkey1 auxkey2).1.bytes = s.bytes + (((s.entry e).compressedLen : ℤ) - (s.entry e).size)) ∧
    ∀ n d, (s.get c key auxkey1 auxkey2).2 = some (n, d) →
      ∃ e ∈ M, RamCacheCLFUS.keysEqual key auxkey1 auxkey2 (s.entry e) = true ∧ GetData c (s.entry e) d := by
  have hsame : ∃ M' H' B' base', Rep Q s M' H' [] none B' base' ∧ (Small Q → base' = base) :=
    ⟨M, H, B, base, h, fun _ => rfl⟩
  unfold RamCacheCLFUS.get
  by_cases hmax : s.maxBytes = 0
  · rw [if_pos hmax]
    exact ⟨hsame, rfl, Or.inl (le_refl _), fun n d hret => absurd hret (by simp)⟩
  · rw [if_neg hmax]
    cases hfind : s.lookup key auxkey1 auxkey2 with
    | none => exact ⟨hsame, rfl, Or.inl (le_refl _), fun n d hret => absurd hret (by simp)⟩
    | some e =>
      dsimp only
      obtain ⟨hmem, hkeys⟩ := h.lookup_mem hmax hfind
      obtain ⟨hmove, _⟩ := h.moveCompressed e
      obtain ⟨n, cur, heq⟩ := moveCompressed_eq s e
      rw [heq] at hmove ⊢
      dsimp only
      by_cases hlru : (s.entry e).lru = true
      · rw [if_pos hlru]
        exact ⟨⟨M, H, B, base, hmove, fun _ => rfl⟩, rfl, Or.inl (le_refl _), fun n d hret => absurd hret (by simp)⟩
      · rw [if_neg hlru]
        have he : e ∈ M := by
          rcases hmem with he | he
          · exact he
          · exact absurd (h.history e (Or.inl he)).1 hlru
        obtain ⟨hrep, hm, hbytes, hret⟩ := hmove.getHit hhits he (hin hmax e hfind (Bool.eq_false_iff.mpr hlru))
        refine ⟨hrep, hm, hbytes.imp_right fun hb => ⟨e, he, hb.2, hb.1⟩, fun n d hnd => ⟨e, he, hkeys, hret n d hnd⟩⟩

theorem Rep.get (hc : Closed c Q) (h : Rep Q s M H [] none B base) (key : CacheKey) (auxkey1 auxkey2 : ℕ) :
    (∃ M' H' B' base', Rep Q (s.get c key auxkey1 auxkey2).1 M' H' [] none B' base' ∧ (Small Q → base' = base)) ∧
    (s.get c key auxkey1 auxkey2).1.maxBytes = s.maxBytes ∧
    ((s.get c key auxkey1 auxkey2).1.bytes ≤ s.bytes ∨ ∃ e ∈ M, (s.entry e).compressed ≠ 0 ∧
      (s.get c key auxkey1 auxkey2).1.bytes = s.bytes + (((s.entry e).compressedLen : ℤ) - (s.entry e).size)) ∧
    ∀ n d, (s.get c key auxkey1 auxkey2).2 = some (n, d) →
      ∃ e ∈ M, RamCacheCLFUS.keysEqual key auxkey1 auxkey2 (s.entry e) = true ∧ GetData c (s.entry e) d :=
  h.get_of hc.hits key auxkey1 auxkey2 fun _ _ _ _ _ => hc.decompressed

theorem Rep.fixup (hQ : ∀ x a b, Q x → Q { x with auxkey1 := a, auxkey2 := b }) (h : Rep Q s M H [] none B base) (key : CacheKey)
    (old1 old2 new1 new2 : ℕ) : Rep Q (s.fixup key old1 old2 new1 new2).1 M H [] none B base := by
  unfold RamCacheCLFUS.fixup
  by_cases hmax : s.maxBytes = 0
  · rw [if_pos hmax]
    exact h
  · rw [if_neg hmax]
    cases hfind : s.lookup key old1 old2 with
    | none => exact h
    | some e =>
      rcases (h.lookup_mem hmax hfind).1 with he | he
      · exact h.modify_memory_size (f := fun x => { x with auxkey1 := new1, auxkey2 := new2 }) he (fun _ => rfl) rfl rfl rfl
          (hQ _ _ _ (h.memory e (Or.inl he)).2.2)
      · exact h.modify_history (f := fun x => { x with auxkey1 := new1, auxkey2 := new2 }) he fun _ => ⟨rfl, rfl, rfl⟩

theorem Rep.init (h : Rep Q s M H [] none B base) (abytes : ℤ) : ∃ B', Rep Q (s.init c abytes) M H [] none B' base := by
  unfold RamCacheCLFUS.init
  dsimp only
  by_cases h0 : abytes = 0
  · rw [if_pos h0]
    exact ⟨B, h.queues, h.table, h.out, h.lt_next, h.fresh, h.unique, h.objects_eq, h.history_eq, h.bytes_eq, h.memory, h.history,
      h.cursor, fun hne => absurd h0 hne⟩
  · rw [if_neg h0]
    obtain ⟨B', htable⟩ := resize_table (c := c) (s := { s with maxBytes := abytes }) h.table h.lt_next
    exact ⟨B', h.queues, htable, h.out, h.lt_next, h.fresh, h.unique, h.objects_eq, h.history_eq, h.bytes_eq, h.memory, h.history,
      h.cursor, fun _ => bucketSize_pos c _⟩

/-! ## The compression pass -/

/-- the queues and the cursor are as they were -/
structure SameQueues (s s' : RamCacheCLFUS V) : Prop where
  link_eq : s'.lruLink = s.lruLink
  lru_eq : s'.lru = s.lru
  cursor_eq : s'.compressed = s.compressed
  max_eq : s'.maxBytes = s.maxBytes

theorem SameQueues.refl (s : RamCacheCLFUS V) : SameQueues s s := ⟨rfl, rfl, rfl, rfl⟩

/-- what a step of the pass on an entry keeps -/
def PassOk (Q : Entry → Prop) (M H : List ℕ) (B : ℕ → List ℕ) (base : ℤ) (s s' : RamCacheCLFUS V) : Prop :=
  (∃ base', Rep Q s' M H [] none B base' ∧ (Small Q → base' = base)) ∧ SameQueues s s' ∧ s'.bytes ≤ s.bytes

theorem Rep.passOk (h : Rep Q s M H [] none B base) : PassOk Q M H B base s s :=
  ⟨⟨base, h, fun _ => rfl⟩, SameQueues.refl s, le_refl _⟩

theorem Rep.compressFailed (hc : ClosedPass c Q) (h : Rep Q s M H [] none B base) (he : e ∈ M) :
    PassOk Q M H B base s (s.compressFailed e) :=
  ⟨⟨base, h.modify_memory_size he (fun _ => rfl) rfl rfl rfl (hc.failed _ (h.memory e (Or.inl he)).2.2), fun _ => rfl⟩,
    ⟨rfl, rfl, rfl, rfl⟩, le_refl _⟩

/-- Whatever the codec has made: `Q` has to hold of the entries that may come out. -/
theorem Rep.compressDone_of (out : List (BitVec 8)) (h : Rep Q s M H [] none B base) (he : e ∈ M)
    (hfailed : ∀ x, Q x → Q { x with incompressible := true })
    (hshrunk : ∀ b n, Q { s.entry e with incompressible := b } → out.length < (s.entry e).len → out.length ≤ (s.entry e).size →
      Q { s.entry e with
      incompressible := b, compressed := c.compress, compressedLen := out.length, size := out.length,
      data := some ⟨n, out.length, out⟩ })
    (hcopied : ∀ b n, Q { s.entry e with incompressible := b } → (s.entry e).len ≤ (s.entry e).size → Q { s.entry e with
      incompressible := b, compressed := 0, size := (s.entry e).len, data := some ⟨n, (s.entry e).len, (s.entry e).object⟩ }) :
    PassOk Q M H B base s (s.compressDone c e out) := by
  unfold RamCacheCLFUS.compressDone
  dsimp only
  -- the flag for too little compression
  generalize ht : (if 10 * out.length > 9 * (s.entry e).len then s.modify e fun x => { x with incompressible := true } else s) = t
  have hflag : ∃ b, t.entry e = { s.entry e with incompressible := b } ∧ Rep Q t M H [] none B base ∧ SameQueues s t ∧
      t.bytes = s.bytes := by
    by_cases hl : 10 * out.length > 9 * (s.entry e).len
    · rw [if_pos hl] at ht
      refine ⟨true, ?_, ?_, ht ▸ ⟨rfl, rfl, rfl, rfl⟩, ht ▸ rfl⟩
      · rw [← ht]
        exact modify_entry_self _ _ _
      · rw [← ht]
        exact h.modify_memory_size he (fun _ => rfl) rfl rfl rfl (hfailed _ (h.memory e (Or.inl he)).2.2)
    · rw [if_neg hl] at ht
      subst ht
      exact ⟨(s.entry e).incompressible, rfl, h, SameQueues.refl s, rfl⟩
  obtain ⟨b, hentry, hrep, hsame, hbytes⟩ := hflag
  have hQt := (hrep.memory e (Or.inl he)).2.2
  have hlru := (hrep.memory e (Or.inl he)).1
  have hlen : (t.entry e).len = (s.entry e).len := by rw [hentry]
  have hsizes : (t.entry e).size = (s.entry e).size := by rw [hentry]
  by_cases hshrink : 5 * out.length > 4 * (t.entry e).size
  · rw [if_pos hshrink]
    have hfail := hrep.modify_memory_size (f := fun x => { x with incompressible := true }) he (fun _ => rfl) rfl rfl rfl (hfailed _ hQt)
    exact ⟨⟨base, hfail, fun _ => rfl⟩, ⟨hsame.link_eq, hsame.lru_eq, hsame.cursor_eq, hsame.max_eq⟩, hbytes.le⟩
  · rw [if_neg hshrink]
    by_cases hless : out.length < (t.entry e).len
    · rw [if_pos hless]
      have hsize : out.length ≤ (t.entry e).size := by omega
      have hQn : Q { t.entry e with
          compressed := c.compress, compressedLen := out.length, size := out.length,
          data := some ⟨t.nextData, out.length, out⟩ } := by
        rw [hentry]
        exact hshrunk b _ (hentry ▸ hQt) (hlen ▸ hless) (hsizes ▸ hsize)
      have hnew := hrep.modify_memory (f := fun x => { x with
        compressed := c.compress, compressedLen := out.length, size := out.length,
        data := some ⟨t.nextData, out.length, out⟩ }) he (fun _ => rfl) hlru (by simp) hQn
        (t.bytes + ((out.length : ℤ) - (t.entry e).size)) (t.nextData + 1)
      refine ⟨⟨_, hnew, fun hsmall => ?_⟩, ⟨hsame.link_eq, hsame.lru_eq, hsame.cursor_eq, hsame.max_eq⟩, ?_⟩
      · rw [add_sub_cancel_left]
        exact base_eq_of_small (hsmall _ hQn) (hsmall _ hQt) base
      · change t.bytes + ((out.length : ℤ) - (t.entry e).size) ≤ s.bytes
        rw [hbytes]
        omega
    · rw [if_neg hless]
      have hsize : (t.entry e).len ≤ (t.entry e).size := by omega
      have hQn : Q { t.entry e with
          compressed := 0, size := (t.entry e).len, data := some ⟨t.nextData, (t.entry e).len, (t.entry e).object⟩ } := by
        rw [hentry]
        exact hcopied b _ (hentry ▸ hQt) (hlen ▸ hsizes ▸ hsize)
      have hnew := hrep.modify_memory (f := fun x => { x with
        compressed := 0, size := x.len, data := some ⟨t.nextData, x.len, (x.data.elim [] Data.bytes).take x.len⟩ }) he
        (fun _ => rfl) hlru (by simp) hQn (t.bytes + (((t.entry e).len : ℤ) - (t.entry e).size)) (t.nextData + 1)
      refine ⟨⟨_, hnew, fun hsmall => ?_⟩, ⟨hsame.link_eq, hsame.lru_eq, hsame.cursor_eq, hsame.max_eq⟩, ?_⟩
      · rw [add_sub_cancel_left]
        exact base_eq_of_small (hsmall _ hQn) (hsmall _ hQt) base
      · change t.bytes + (((t.entry e).len : ℤ) - (t.entry e).size) ≤ s.bytes
        rw [hbytes]
        omega

theorem Rep.compressDone (hc : ClosedPass c Q) (h : Rep Q s M H [] none B base) (he : e ∈ M) (hcomp : (s.entry e).compressed = 0)
    (havail : c.available c.compress = true) {out : List (BitVec 8)} (hout : c.encode c.compress (s.entry e).object = some out) :
    PassOk Q M H B base s (s.compressDone c e out) := by
  refine h.compressDone_of _ he hc.failed (fun b n hQ hless hsize => ?_) fun b n hQ hsize => ?_
  · exact hc.shrunk { s.entry e with incompressible := b } out n hQ hcomp havail hout hless hsize
  · exact hc.copied { s.entry e with incompressible := b } n hQ hcomp havail hsize

theorem Rep.compressEntry (hc : ClosedPass c Q) (h : Rep Q s M H [] none B base) (he : e ∈ M) :
    PassOk Q M H B base s (s.compressEntry c e) := by
  unfold RamCacheCLFUS.compressEntry
  by_cases htried : (s.entry e).tried = true
  · rw [if_pos htried]
    exact h.passOk
  · rw [if_neg htried]
    have hskip : (s.entry e).compressed = 0 := by
      by_contra hne
      exact htried (by simp [Entry.tried, hne])
    dsimp only
    have hstart := h.modify_memory_size (f := fun x => { x with compressedLen := x.size }) he (fun _ => rfl) rfl rfl rfl
      (hc.started _ (h.memory e (Or.inl he)).2.2 hskip)
    have hself := modify_entry_self s e fun x => { x with compressedLen := x.size }
    generalize ht : (s.modify e fun x => { x with compressedLen := x.size }) = t at hstart hself ⊢
    have hsame : SameQueues s t ∧ t.bytes = s.bytes := ht ▸ ⟨⟨rfl, rfl, rfl, rfl⟩, rfl⟩
    have hcomp : (t.entry e).compressed = 0 := by rw [hself]; exact hskip
    have hlift : ∀ u, PassOk Q M H B base t u → PassOk Q M H B base s u := by
      rintro u ⟨hrep, hq, hle⟩
      exact ⟨hrep, ⟨hq.link_eq.trans hsame.1.link_eq, hq.lru_eq.trans hsame.1.lru_eq, hq.cursor_eq.trans hsame.1.cursor_eq,
        hq.max_eq.trans hsame.1.max_eq⟩, hle.trans hsame.2.le⟩
    by_cases havail : c.available c.compress = true
    · rw [if_pos havail]
      cases hout : RamCacheCLFUS.encoded c (t.entry e) with
      | none => exact hlift _ (hstart.compressFailed hc he)
      | some out =>
        dsimp only
        have hout' : c.encode c.compress (t.entry e).object = some out := by
          unfold RamCacheCLFUS.encoded at hout
          by_cases hshort : c.compress = CACHE_COMPRESSION_FASTLZ ∧ (t.entry e).len < 16
          · rw [if_pos hshort] at hout
            exact absurd hout (by simp)
          · rw [if_neg hshort] at hout
            exact hout
        generalize find t.hashLink _ _ _ = ee
        by_cases hee : ee = some e
        · rw [if_pos hee]
          exact hlift _ (hstart.compressDone hc he hcomp havail hout')
        · rw [if_neg hee]
          exact hlift _ hstart.passOk
    · rw [if_neg havail]
      exact hlift _ hstart.passOk

theorem Rep.setCursor (h : Rep Q s M H W o B base) (cur : Option ℕ) (hcur : ∀ e, cur = some e → e ∈ M) (n : ℤ) :
    Rep Q { s with compressed := cur, ncompressed := n } M H W o B base :=
  ⟨h.queues, h.table, h.out, h.lt_next, h.fresh, h.unique, h.objects_eq, h.history_eq, h.bytes_eq, h.memory, h.history, hcur,
    h.nbuckets_pos⟩

theorem Rep.compressLoop (hc : ClosedPass c Q) {target : ℤ → Bool} {fuel n : ℕ} (h : Rep Q s M H [] none B base) :
    (∃ base', Rep Q (RamCacheCLFUS.compressLoop c target fuel n s) M H [] none B base' ∧ (Small Q → base' = base)) ∧
    (RamCacheCLFUS.compressLoop c target fuel n s).maxBytes = s.maxBytes ∧
    (RamCacheCLFUS.compressLoop c target fuel n s).bytes ≤ s.bytes := by
  have hdone : (∃ base', Rep Q s M H [] none B base' ∧ (Small Q → base' = base)) ∧ s.maxBytes = s.maxBytes ∧ s.bytes ≤ s.bytes :=
    ⟨⟨base, h, fun _ => rfl⟩, rfl, le_refl _⟩
  induction fuel generalizing s n base with
  | zero => exact hdone
  | succ fuel ih =>
    rw [RamCacheCLFUS.compressLoop]
    cases hcur : s.compressed with
    | none => exact hdone
    | some e =>
      dsimp only
      by_cases htarget : target s.ncompressed = true
      · rw [if_pos htarget]
        have he : e ∈ M := h.cursor e hcur
        by_cases hstop : (s.entry e).tried = false ∧ n = 0
        · rw [if_pos hstop]
          exact hdone
        · rw [if_neg hstop]
          obtain ⟨⟨base₁, hrep, hbase⟩, hsame, hle⟩ := h.compressEntry hc he
          generalize s.compressEntry c e = t at hrep hsame hle ⊢
          cases hnext : t.lruLink.next e with
          | none => exact ⟨⟨base₁, hrep, hbase⟩, hsame.max_eq, hle⟩
          | some next =>
            dsimp only
            have hmem : next ∈ M := by
              obtain ⟨m₁, m₂, rfl⟩ := List.append_of_mem he
              have hhead : t.lruLink.next e = m₂.head? := (hrep.queues.queue .memory).isDll.next_eq
              exact List.mem_append_right _ (List.mem_cons_of_mem e (List.mem_of_head? (hhead ▸ hnext)))
            have hcursor := hrep.setCursor (some next) (fun x hx => Option.some.inj hx ▸ hmem) (t.ncompressed + 1)
            obtain ⟨⟨base₂, hrep₂, hbase₂⟩, hmax₂, hle₂⟩ := ih hcursor ⟨⟨base₁, hcursor, fun _ => rfl⟩, rfl, le_refl _⟩
            exact ⟨⟨base₂, hrep₂, fun hs => (hbase₂ hs).trans (hbase hs)⟩, hmax₂.trans hsame.max_eq, hle₂.trans hle⟩
      · rw [if_neg htarget]
        exact hdone

theorem Rep.compressEntries (hc : ClosedPass c Q) (h : Rep Q s M H [] none B base) (n : ℕ) :
    (∃ base', Rep Q (s.compressEntries c n) M H [] none B base' ∧ (Small Q → base' = base)) ∧
    (s.compressEntries c n).maxBytes = s.maxBytes ∧ (s.compressEntries c n).bytes ≤ s.bytes := by
  unfold RamCacheCLFUS.compressEntries
  by_cases h0 : c.compress = 0
  · rw [if_pos h0]
    exact ⟨⟨base, h, fun _ => rfl⟩, rfl, le_refl _⟩
  · rw [if_neg h0]
    dsimp only
    by_cases hcur : s.compressed = none
    · rw [if_pos hcur]
      have hhead : (s.lru .memory).head = M.head? := (h.queues.queue .memory).isDll.head_eq
      have hstart := h.setCursor (s.lru .memory).head (fun x hx => List.mem_of_head? (hhead ▸ hx)) 0
      exact hstart.compressLoop hc
    · rw [if_neg hcur]
      exact h.compressLoop hc

/-! ## Steps -/

/-- what `Q` needs to survive every step: also `fixup`, and the `put` -/
structure StepClosed (c : Cfg V) (Q : Entry → Prop) (op : Op) : Prop where
  closed : Closed c Q
  fixed : ∀ x a b, Q x → Q { x with auxkey1 := a, auxkey2 := b }
  filled : ∀ p d x, op = .put p → p.Kept d → p.Names x → Q (p.fill d x)
  refilled : ∀ p d x, op = .put p → p.Kept d → p.Names x → Q x → Q (p.refill d x)

theorem put_off {p : Put} (hmax : s.maxBytes = 0) : (s.put c p).1 = s := by
  unfold RamCacheCLFUS.put
  rw [if_pos hmax]

theorem step_rep {op : Op} (hc : StepClosed c Q op) (h : Rep Q s M H [] none B base) :
    ∃ M' H' B' base', Rep Q (step c s op) M' H' [] none B' base' ∧ (Small Q → base' = base) := by
  cases op with
  | init abytes =>
    obtain ⟨B', hrep⟩ := h.init (c := c) abytes
    exact ⟨M, H, B', base, hrep, fun _ => rfl⟩
  | get key auxkey1 auxkey2 => exact (h.get hc.closed key auxkey1 auxkey2).1
  | put p =>
    by_cases hmax : s.maxBytes = 0
    · rw [step, put_off hmax]
      exact ⟨M, H, B, base, h, fun _ => rfl⟩
    · obtain ⟨_, _, _, M', H', B', base', _, _, hrep, hbase, _⟩ := h.put (c := c) (p := p) hc.closed.hits hmax
        (fun d x => hc.filled p d x rfl) (fun d x => hc.refilled p d x rfl)
      exact ⟨M', H', B', base', hrep, hbase⟩
  | fixup key old1 old2 new1 new2 => exact ⟨M, H, B, base, h.fixup hc.fixed key old1 old2 new1 new2, fun _ => rfl⟩
  | compress doAtMost =>
    obtain ⟨⟨base', hrep, hbase⟩, _⟩ := h.compressEntries hc.closed.toClosedPass doAtMost
    exact ⟨M, H, B, base', hrep, hbase⟩

theorem rep_new (Q : Entry → Prop) (c : Cfg V) (raw : ℕ → Entry) :
    Rep Q (newRamCacheCLFUS c raw) [] [] [] none (fun _ => []) 0 where
  queues := by
    refine ⟨fun i => ?_, fun i j _ e he => ?_, fun e _ => ⟨rfl, rfl⟩⟩
    · cases i <;> exact isQueue_nil
    · cases i <;> exact absurd he (by simp [lists])
  table := (hashOk_empty _ 0 _).congr (by simp [Held]) fun _ _ => rfl
  out := by simp
  lt_next := by simp [Held]
  fresh := fun _ _ => rfl
  unique := by simp [Held]
  objects_eq := rfl
  history_eq := rfl
  bytes_eq := rfl
  memory := by simp
  history := by simp
  cursor := by simp [newRamCacheCLFUS]
  nbuckets_pos := fun h => absurd rfl h

/-- a compressed entry counts its compressed length -/
def Counted (x : Entry) : Prop := x.compressed ≠ 0 → x.compressedLen = x.size

/-- sizes only become smaller until the entry is put again -/
theorem closed_counted {P : ℕ → Prop} (hP : ∀ n m, n ≤ m → P m → P n) : Closed c fun x => P x.size ∧ Counted x where
  hits _ _ h := h
  decompressed x out n h hcomp _ := by
    refine ⟨?_, fun hne => absurd rfl hne⟩
    change P x.compressedLen
    rw [h.2 hcomp]
    exact h.1
  started x h hcomp := ⟨h.1, fun _ => rfl⟩
  failed _ h := h
  shrunk x out n h _ _ _ _ hle := ⟨hP _ _ hle h.1, fun _ => rfl⟩
  copied x n h _ _ hle := ⟨hP _ _ hle h.1, fun hne => absurd rfl hne⟩

theorem stepClosed_counted {P : ℕ → Prop} (hP : ∀ n m, n ≤ m → P m → P n) {op : Op} (hput : ∀ p, op = .put p → P p.size) :
    StepClosed c (fun x => P x.size ∧ Counted x) op where
  closed := closed_counted hP
  fixed _ _ _ h := h
  filled p _ _ hop _ _ := ⟨hput p hop, fun hne => absurd rfl hne⟩
  refilled p _ _ hop _ _ _ := ⟨hput p hop, fun hne => absurd rfl hne⟩

/-! ## Accounting -/

/-- the law of `check_accounting`, without the bytes: `M` is `lru[0]` and `H` is `lru[1]` -/
structure Law (s : RamCacheCLFUS V) (M H : List ℕ) : Prop where
  lru0 : IsQueue s.lruLink (s.lru .memory) M
  lru1 : IsQueue s.lruLink (s.lru .history) H
  objects_eq : s.objects = M.length
  history_eq : s.history = H.length
  no_data : ∀ e ∈ H, (s.entry e).data = none
  disjoint : ∀ e ∈ M, e ∉ H
  flag_memory : ∀ e ∈ M, (s.entry e).lru = false
  flag_history : ∀ e ∈ H, (s.entry e).lru = true
  bucket : ∃ B, HashOk s.hashLink s.bucket s.nbuckets s.hashIndex (fun e => e ∈ M ∨ e ∈ H) B
  unique : ∀ e e', e ∈ M ∨ e ∈ H → e' ∈ M ∨ e' ∈ H → (s.entry e).key = (s.entry e').key → e = e'
  cursor : ∀ e, s.compressed = some e → e ∈ M

theorem held_iff {x : ℕ} : Held M H [] none x ↔ x ∈ M ∨ x ∈ H := by
  simp [Held]

theorem Rep.law (h : Rep Q s M H [] none B base) : Law s M H where
  lru0 := h.queues.queue .memory
  lru1 := h.queues.queue .history
  objects_eq := by
    rw [h.objects_eq]
    simp
  history_eq := by
    rw [h.history_eq]
    simp
  no_data e he := (h.history e (Or.inl he)).2
  disjoint e he := h.not_memory_history he
  flag_memory e he := (h.memory e (Or.inl he)).1
  flag_history e he := (h.history e (Or.inl he)).1
  bucket := ⟨B, h.table.congr (fun _ => held_iff) fun _ _ => rfl⟩
  unique e e' he he' := h.unique e e' (held_iff.mpr he) (held_iff.mpr he')
  cursor := h.cursor

/-- the size and the overhead of an object fit in 32 bits -/
def SizeOk : Op → Prop
  | .put p => p.size + ENTRY_OVERHEAD < 2 ^ 32
  | _ => True

/-- `Rep` after every run, with an upper bound of the sizes -/
theorem run_rep {P : ℕ → Prop} (hP : ∀ n m, n ≤ m → P m → P n) (c : Cfg V) (raw : ℕ → Entry) (ops : List Op)
    (hops : ∀ op ∈ ops, ∀ p, op = .put p → P p.size) :
    ∃ M H B base, Rep (fun x => P x.size ∧ Counted x) (ops.foldl (step c) (newRamCacheCLFUS c raw)) M H [] none B base ∧
      (Small (fun x => P x.size ∧ Counted x) → base = 0) := by
  have hstep : ∀ s op, (∃ M H B base, Rep (fun x => P x.size ∧ Counted x) s M H [] none B base ∧
      (Small (fun x => P x.size ∧ Counted x) → base = 0)) → (∀ p, op = .put p → P p.size) →
      ∃ M H B base, Rep (fun x => P x.size ∧ Counted x) (step c s op) M H [] none B base ∧
        (Small (fun x => P x.size ∧ Counted x) → base = 0) := by
    rintro s op ⟨M, H, B, base, hrep, hbase⟩ hop
    obtain ⟨M', H', B', base', hrep', hbase'⟩ := step_rep (c := c) (stepClosed_counted hP hop) hrep
    exact ⟨M', H', B', base', hrep', fun hs => (hbase' hs).trans (hbase hs)⟩
  exact (along_of_forall hops).inv hstep ⟨[], [], _, 0, rep_new _ c raw, fun _ => rfl⟩

theorem clfus_accounting (c : Cfg V) (raw : ℕ → Entry) (ops : List Op) :
    ∃ M H, Law (ops.foldl (step c) (newRamCacheCLFUS c raw)) M H ∧
      ((∀ op ∈ ops, SizeOk op) → (ops.foldl (step c) (newRamCacheCLFUS c raw)).bytes =
        (M.map fun e => (((ops.foldl (step c) (newRamCacheCLFUS c raw)).entry e).size + ENTRY_OVERHEAD : ℤ)).sum) := by
  by_cases hops : ∀ op ∈ ops, SizeOk op
  · obtain ⟨M, H, B, base, hrep, hbase⟩ := run_rep (P := fun n => n + ENTRY_OVERHEAD < 2 ^ 32)
      (fun n m hle hm => lt_of_le_of_lt (Nat.add_le_add_right hle _) hm) c raw ops fun op hop p hp => by
        have := hops op hop
        rw [hp] at this
        exact this
    refine ⟨M, H, hrep.law, fun _ => ?_⟩
    rw [hrep.bytes_eq, hbase fun x hx => hx.1, zero_add]
    apply congrArg List.sum
    apply List.map_congr_left
    intro e he
    rw [RamCacheCLFUS.cost, withOverhead_of_lt (hrep.memory e (Or.inl he)).2.2.1, Nat.cast_add]
  · obtain ⟨M, H, B, base, hrep, _⟩ := run_rep (P := fun _ => True) (fun _ _ _ _ => trivial) c raw ops fun _ _ _ _ => trivial
    exact ⟨M, H, hrep.law, fun h => absurd h hops⟩

/-! ### A size near `2 ^ 32` -/

/-- exact arithmetic for the values -/
def exactCfg (compress : ℕ) (encode : ℕ → List (BitVec 8) → Option (List (BitVec 8)))
    (decode : ℕ → List (BitVec 8) → ℕ → Option (List (BitVec 8))) : Cfg ℚ where
  useSeenFilter := false
  compress := compress
  hasZlib := true
  hasLzma := false
  value := fun hits size => (hits + 1) / (size + 256)
  lt := fun a b => decide (a < b)
  add := fun a b => a + b
  zero := 0
  average := fun v a => (v + a * 99) / 100
  target := fun objects ncompressed => decide (ncompressed < objects)
  encode := encode
  decode := decode
  stray := fun _ => 1

def plainCfg : Cfg ℚ := exactCfg 0 (fun _ _ => none) fun _ _ _ => none

def rawEntry : Entry := ⟨⟨fun _ => 0⟩, 0, 0, 0, 0, 0, 0, 0, false, false, false, none⟩

theorem two_lt_word : 2 < 2 ^ 32 := by decide

/-- an object of two bytes in a buffer of this size -/
def blockPut (blockSize : ℕ) : Put := ⟨⟨fun _ => 0⟩, 0, 0, ⟨0, blockSize, [1, 2]⟩, 2, false, le_refl 2, two_lt_word⟩

/-- a run whose sizes are small -/
def smallOps : List Op := [.init 1000, .put (blockPut 128), .put (blockPut 256), .get ⟨fun _ => 0⟩ 0 0]

theorem clfus_accounting_small :
    (∀ op ∈ smallOps, SizeOk op) ∧
    ∃ M H, Law (smallOps.foldl (step plainCfg) (newRamCacheCLFUS plainCfg fun _ => rawEntry)) M H ∧
      (smallOps.foldl (step plainCfg) (newRamCacheCLFUS plainCfg fun _ => rawEntry)).bytes = (M.map fun e =>
        (((smallOps.foldl (step plainCfg) (newRamCacheCLFUS plainCfg fun _ => rawEntry)).entry e).size + ENTRY_OVERHEAD : ℤ)).sum := by
  have hops : ∀ op ∈ smallOps, SizeOk op := by
    intro op hop
    simp only [smallOps, List.mem_cons, List.not_mem_nil, or_false] at hop
    rcases hop with rfl | rfl | rfl | rfl
    · exact trivial
    · show (blockPut 128).size + ENTRY_OVERHEAD < 2 ^ 32
      decide
    · show (blockPut 256).size + ENTRY_OVERHEAD < 2 ^ 32
      decide
    · exact trivial
  obtain ⟨M, H, hlaw, hbytes⟩ := clfus_accounting plainCfg (fun _ => rawEntry) smallOps
  exact ⟨hops, M, H, hlaw, hbytes hops⟩

/-- a buffer of almost 4 GB, and the same object again in a buffer of 128 bytes -/
def wrapRun : RamCacheCLFUS ℚ :=
  [Op.init (2 ^ 33), .put (blockPut (2 ^ 32 - 1)), .put (blockPut 128)].foldl (step plainCfg) (newRamCacheCLFUS plainCfg fun _ => rawEntry)

theorem wrapRun_bytes : wrapRun.bytes = 255 + (128 - (2 ^ 32 - 1)) ∧ (wrapRun.lru .memory).head = some 0 ∧
    wrapRun.lruLink.next 0 = none ∧ (wrapRun.entry 0).size = 128 := by
  decide

theorem accounting_fails :
    ¬ ∃ M, IsQueue wrapRun.lruLink (wrapRun.lru .memory) M ∧
      wrapRun.bytes = (M.map fun e => ((wrapRun.entry e).size + ENTRY_OVERHEAD : ℤ)).sum := by
  rintro ⟨M, hqueue, hbytes⟩
  obtain ⟨h1, h2, h3, h4⟩ := wrapRun_bytes
  have hhead := hqueue.isDll.head_eq
  rw [h2] at hhead
  obtain ⟨M', rfl⟩ : ∃ M', M = 0 :: M' := List.head?_eq_some_iff.mp hhead.symm
  have hdll : IsDll wrapRun.lruLink (wrapRun.lru .memory).head ([] ++ 0 :: M') := hqueue.isDll
  have hnext := hdll.next_eq
  rw [h3] at hnext
  obtain rfl : M' = [] := List.head?_eq_none_iff.mp hnext.symm
  rw [h1, List.map_singleton, List.sum_singleton, h4] at hbytes
  exact absurd hbytes (by decide)

/-! ## The bound on the bytes -/

/-- the entries of `lru[0]` -/
def RamCacheCLFUS.memoryList (s : RamCacheCLFUS V) : List ℕ := toList s.lruLink (s.nextEntry + 1) (s.lru .memory).head

theorem Rep.memoryList_eq (h : Rep Q s M H W o B base) : s.memoryList = M :=
  (h.queues.queue .memory).isDll.toList_eq (Nat.lt_succ_of_le h.memory_length)

/-- The entries `D` leave and the entry of the `put` comes: if the test without the overheads lets it in, it fits with them. -/
def FitsWithout (p : Put) (s : RamCacheCLFUS V) (D : List ℕ) : Prop :=
  s.bytes - (D.map s.cost).sum + p.size ≤ s.maxBytes + ENTRY_OVERHEAD →
    s.bytes - (D.map s.cost).sum + withOverhead p.size ≤ s.maxBytes

/-- A `put` that keeps the bound, from the state behind its walk on. An entry in memory does not outgrow the free bytes; one that
comes back from the history fits, whatever leaves for it; and a new one that goes to memory fits with its overhead. -/
def PutRoomOk (c : Cfg V) (p : Put) : RamCacheCLFUS V × Option ℕ → Prop
  | (s, some e) =>
    if (s.entry e).lru then
      c.lt (c.value ((s.entry e).hits + 1) (s.entry e).size) s.averageValue = true ∨ ∀ D, D.Subperm s.memoryList → FitsWithout p s D
    else s.bytes + ((p.size : ℤ) - (s.entry e).size) ≤ s.maxBytes
  | (s, none) => ((s.lru .memory).head = none ∨ (s.lru .history).head = none) → s.bytes + p.size ≤ s.maxBytes →
      s.bytes + withOverhead p.size ≤ s.maxBytes

def RoomOk (c : Cfg V) (s : RamCacheCLFUS V) : Op → Prop
  | .put p => s.maxBytes = 0 ∨ PutRoomOk c p (p.walk s)
  | _ => True

theorem put_le {p : Put} {op : Op} (hop : op = .put p) (hc : StepClosed c Q op) (h : Rep Q s M H [] none B base)
    (hmax : s.maxBytes ≠ 0) (hle : s.bytes ≤ s.maxBytes) (hok : PutRoomOk c p (p.walk s)) :
    (s.put c p).1.bytes ≤ s.maxBytes := by
  obtain ⟨M₁, H₁, B₁, _, _, _, _, hwalk, hle₁, _, _, hm₁, _, _, hbytes⟩ := h.put (c := c) (p := p) hc.closed.hits hmax
    (fun d x => hc.filled p d x hop) (fun d x => hc.refilled p d x hop)
  generalize p.walk s = r at hwalk hle₁ hm₁ hbytes hok
  obtain ⟨s₁, found⟩ := r
  dsimp only at hwalk hle₁ hm₁
  rw [← hm₁]
  rcases hbytes with hbytes | ⟨e, hfound, hlru, hbytes⟩ | ⟨hback, D, hD, hbytes, hroom, hnone⟩
  · rw [hbytes, hm₁]
    exact hle₁.trans hle
  · dsimp only at hfound hlru hbytes
    subst hfound
    rw [PutRoomOk, if_neg (by rw [hlru]; exact Bool.false_ne_true)] at hok
    rw [hbytes]
    exact hok
  · dsimp only at hback hbytes hroom hnone
    rw [hbytes]
    cases found with
    | some e =>
      obtain ⟨hlru, hvalue⟩ := hback e rfl
      rw [PutRoomOk, if_pos hlru, hvalue] at hok
      rcases hok with hok | hok
      · exact absurd hok (by simp)
      · exact hok D (hwalk.memoryList_eq.symm ▸ hD) hroom
    | none =>
      obtain ⟨rfl, hempty, hroom'⟩ := hnone rfl
      have hmem : (s₁.lru .memory).head = M₁.head? := (hwalk.queues.queue .memory).isDll.head_eq
      have hhist : (s₁.lru .history).head = H₁.head? := (hwalk.queues.queue .history).isDll.head_eq
      have hheads : (s₁.lru .memory).head = none ∨ (s₁.lru .history).head = none := by
        rw [hmem, hhist]
        exact hempty.imp (fun h => by rw [h]; rfl) fun h => by rw [h]; rfl
      rw [List.map_nil, List.sum_nil, sub_zero]
      exact hok hheads hroom'

/-- `init` is not called again -/
def NotInit : Op → Prop
  | .init _ => False
  | _ => True

theorem put_max {p : Put} {op : Op} (hop : op = .put p) (hc : StepClosed c Q op) (h : Rep Q s M H [] none B base) :
    (s.put c p).1.maxBytes = s.maxBytes := by
  by_cases hmax : s.maxBytes = 0
  · rw [put_off hmax]
  · obtain ⟨_, _, _, _, _, _, _, _, _, _, _, _, hm, _⟩ := h.put (c := c) (p := p) hc.closed.hits hmax
      (fun d x => hc.filled p d x hop) (fun d x => hc.refilled p d x hop)
    exact hm

theorem fixup_fields (s : RamCacheCLFUS V) (key : CacheKey) (old1 old2 new1 new2 : ℕ) :
    (s.fixup key old1 old2 new1 new2).1.maxBytes = s.maxBytes ∧ (s.fixup key old1 old2 new1 new2).1.bytes = s.bytes := by
  unfold RamCacheCLFUS.fixup
  by_cases hmax : s.maxBytes = 0
  · rw [if_pos hmax]
    exact ⟨rfl, rfl⟩
  · rw [if_neg hmax]
    cases s.lookup key old1 old2 with
    | none => exact ⟨rfl, rfl⟩
    | some e => exact ⟨rfl, rfl⟩

theorem Rep.mono {Q' : Entry → Prop} (h : Rep Q s M H W o B base) (hQ : ∀ x, Q x → Q' x) : Rep Q' s M H W o B base :=
  ⟨h.queues, h.table, h.out, h.lt_next, h.fresh, h.unique, h.objects_eq, h.history_eq, h.bytes_eq,
    fun x hx => ⟨(h.memory x hx).1, (h.memory x hx).2.1, hQ _ (h.memory x hx).2.2⟩, h.history, h.cursor, h.nbuckets_pos⟩

theorem stepClosed_true (op : Op) : StepClosed c (fun _ => True) op where
  closed := ⟨⟨fun _ _ _ => trivial, fun _ _ _ => trivial, fun _ _ => trivial, fun _ _ _ _ _ _ _ _ _ => trivial,
    fun _ _ _ _ _ _ => trivial⟩, fun _ _ _ _ _ _ => trivial⟩
  fixed _ _ _ _ := trivial
  filled _ _ _ _ _ _ := trivial
  refilled _ _ _ _ _ _ _ := trivial

theorem step_max {op : Op} (h : Rep Q s M H [] none B base) (hinit : NotInit op) : (step c s op).maxBytes = s.maxBytes := by
  have hall : Rep (fun _ => True) s M H [] none B base := h.mono fun _ _ => trivial
  have hc : StepClosed c (fun _ => True) op := stepClosed_true op
  cases op with
  | init abytes => exact absurd hinit id
  | get key auxkey1 auxkey2 => exact (hall.get hc.closed key auxkey1 auxkey2).2.1
  | put p => exact put_max rfl hc hall
  | fixup key old1 old2 new1 new2 => exact (fixup_fields s key old1 old2 new1 new2).1
  | compress doAtMost => exact (hall.compressEntries hc.closed.toClosedPass doAtMost).2.1

/-- the bytes stay below the size -/
theorem step_le {op : Op} (h : Rep (fun x => True ∧ Counted x) s M H [] none B base) (hinit : NotInit op) (hok : RoomOk c s op)
    (hle : s.bytes ≤ s.maxBytes) : (step c s op).bytes ≤ s.maxBytes := by
  have hc : StepClosed c (fun x => True ∧ Counted x) op :=
    stepClosed_counted (P := fun _ => True) (fun _ _ _ _ => trivial) fun _ _ => trivial
  cases op with
  | init abytes => exact absurd hinit id
  | get key auxkey1 auxkey2 =>
    obtain ⟨_, _, hbytes, _⟩ := h.get hc.closed key auxkey1 auxkey2
    rcases hbytes with hbytes | ⟨e, he, hcomp, hbytes⟩
    · exact hbytes.trans hle
    · -- a compressed entry counts its compressed length already
      have hsame := (h.memory e (Or.inl he)).2.2.2 hcomp
      rw [step, hbytes, hsame, sub_self, add_zero]
      exact hle
  | put p =>
    by_cases hmax : s.maxBytes = 0
    · rw [step, put_off hmax]
      exact hle
    · exact put_le rfl hc h hmax hle (hok.resolve_left hmax)
  | fixup key old1 old2 new1 new2 => exact (fixup_fields s key old1 old2 new1 new2).2.le.trans hle
  | compress doAtMost => exact (h.compressEntries hc.closed.toClosedPass doAtMost).2.2.trans hle

/-- the cache behind the first call -/
def initialized (c : Cfg V) (raw : ℕ → Entry) (maxBytes : ℕ) : RamCacheCLFUS V := (newRamCacheCLFUS c raw).init c maxBytes

theorem initialized_fields (c : Cfg V) (raw : ℕ → Entry) (maxBytes : ℕ) :
    (initialized c raw maxBytes).maxBytes = maxBytes ∧ (initialized c raw maxBytes).bytes = 0 := by
  unfold initialized RamCacheCLFUS.init
  dsimp only
  by_cases h0 : (maxBytes : ℤ) = 0
  · rw [if_pos h0]
    exact ⟨rfl, rfl⟩
  · rw [if_neg h0]
    exact ⟨rfl, rfl⟩

theorem clfus_memory_bound (c : Cfg V) (raw : ℕ → Entry) (maxBytes : ℕ) (ops : List Op) (hinit : ∀ op ∈ ops, NotInit op)
    (hok : Along (step c) (RoomOk c) (initialized c raw maxBytes) ops) :
    (ops.foldl (step c) (initialized c raw maxBytes)).bytes ≤ maxBytes := by
  obtain ⟨hm, hbytes⟩ := initialized_fields c raw maxBytes
  obtain ⟨B, hrep⟩ := (rep_new (fun x => True ∧ Counted x) c raw).init (c := c) maxBytes
  have hstep : ∀ s op, ((∃ M H B base, Rep (fun x => True ∧ Counted x) s M H [] none B base) ∧ s.maxBytes = maxBytes ∧
      s.bytes ≤ maxBytes) → (RoomOk c s op ∧ NotInit op) →
      (∃ M H B base, Rep (fun x => True ∧ Counted x) (step c s op) M H [] none B base) ∧ (step c s op).maxBytes = maxBytes ∧
      (step c s op).bytes ≤ maxBytes := by
    rintro s op ⟨⟨M, H, B, base, hrep⟩, hmax, hle⟩ ⟨hroom, hnot⟩
    have hc : StepClosed c (fun x => True ∧ Counted x) op :=
      stepClosed_counted (P := fun _ => True) (fun _ _ _ _ => trivial) fun _ _ => trivial
    obtain ⟨M', H', B', base', hrep', _⟩ := step_rep hc hrep
    have hmax' : (step c s op).maxBytes = s.maxBytes := step_max hrep hnot
    have hle' : (step c s op).bytes ≤ s.maxBytes := step_le hrep hnot hroom (hmax.symm ▸ hle)
    exact ⟨⟨M', H', B', base', hrep'⟩, hmax'.trans hmax, hmax ▸ hle'⟩
  have hstart : (∃ M H B base, Rep (fun x => True ∧ Counted x) (initialized c raw maxBytes) M H [] none B base) ∧
      (initialized c raw maxBytes).maxBytes = maxBytes ∧ (initialized c raw maxBytes).bytes ≤ maxBytes :=
    ⟨⟨_, _, B, _, hrep⟩, hm, by rw [hbytes]; exact Int.natCast_nonneg _⟩
  exact ((hok.and (along_of_forall hinit)).inv hstep hstart).2.2

theorem putRoomOk_of_miss {p : Put} {r : RamCacheCLFUS V × Option ℕ} (h : r.2 = none)
    (hle : r.1.bytes + withOverhead p.size ≤ r.1.maxBytes) : PutRoomOk c p r := by
  obtain ⟨s, o⟩ := r
  obtain rfl : o = none := h
  exact fun _ _ => hle

theorem putRoomOk_of_hit {p : Put} {r : RamCacheCLFUS V × Option ℕ} (h : r.2 = some e) (hlru : (r.1.entry e).lru = false)
    (hle : r.1.bytes + ((p.size : ℤ) - (r.1.entry e).size) ≤ r.1.maxBytes) : PutRoomOk c p r := by
  obtain ⟨s, o⟩ := r
  obtain rfl : o = some e := h
  rw [PutRoomOk, if_neg (by rw [hlru]; exact Bool.false_ne_true)]
  exact hle

def boundOps : List Op := [.put (blockPut 128), .put (blockPut 256), .get ⟨fun _ => 0⟩ 0 0]

theorem boundOps_ok : Along (step plainCfg) (RoomOk plainCfg) (initialized plainCfg (fun _ => rawEntry) 1000) boundOps := by
  refine ⟨Or.inr (putRoomOk_of_miss ?_ ?_), Or.inr (putRoomOk_of_hit (e := 0) ?_ ?_ ?_), trivial, trivial⟩
  · decide
  · decide
  · decide
  · decide
  · decide

theorem clfus_memory_bound_small :
    (boundOps.foldl (step plainCfg) (initialized plainCfg (fun _ => rawEntry) 1000)).bytes = 512 ∧
    (boundOps.foldl (step plainCfg) (initialized plainCfg (fun _ => rawEntry) 1000)).bytes ≤ (1000 : ℕ) := by
  refine ⟨by decide +kernel, clfus_memory_bound plainCfg (fun _ => rawEntry) 1000 boundOps ?_ boundOps_ok⟩
  intro op hop
  simp only [boundOps, List.mem_cons, List.not_mem_nil, or_false] at hop
  rcases hop with rfl | rfl | rfl <;> exact trivial

/-- the room test of the first object leaves out its overhead -/
theorem memory_bound_fails :
    ¬ ([Op.put (blockPut 900)].foldl (step plainCfg) (initialized plainCfg (fun _ => rawEntry) 1000)).bytes ≤ (1000 : ℕ) := by
  decide +kernel

end TrafficServer.Cache.CLFUS
