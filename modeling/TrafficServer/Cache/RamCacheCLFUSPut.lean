/-
`put` of the CLFUS memory cache.

The search for room (`makeRoom`) moves entries between memory, the victims and the history and never loses one: whatever way it
ends, the entries in memory and the victims are those it began with. So `base` stays, and with it the accounting of `bytes`.
The loop ends because every turn takes a victim or one of the second chances.
-/
import TrafficServer.Cache.RamCacheCLFUSInv

namespace TrafficServer.Cache.CLFUS

open TrafficServer.Dll TrafficServer.HashChain

variable {V : Type} {c : Cfg V} {Q : Entry → Prop} {s : RamCacheCLFUS V} {M H W : List ℕ} {o : Option ℕ} {B : ℕ → List ℕ}
  {base : ℤ} {e : ℕ}

/-! ## Loops over the victims -/

theorem requeue_quiet (s : RamCacheCLFUS V) (e : ℕ) : Quiet s (s.requeue e) := by
  have hquiet : Quiet s (s.modify e fun x => { x with hits := REQUEUE_HITS x.hits }) := modify_quiet rfl fun _ => ⟨rfl, rfl, rfl, rfl⟩
  exact ⟨rfl, rfl, hquiet.size_eq, hquiet.key_eq, hquiet.aux_eq⟩

theorem victimize_quiet (s : RamCacheCLFUS V) (e : ℕ) : Quiet s (s.victimize e) := by
  have hquiet : Quiet s (s.modify e fun x => { x with data := none, lru := true }) := modify_quiet rfl fun _ => ⟨rfl, rfl, rfl, rfl⟩
  exact ⟨rfl, rfl, hquiet.size_eq, hquiet.key_eq, hquiet.aux_eq⟩

theorem dequeue_quiet {t : RamCacheCLFUS V} {i : Lru} {r : Option ℕ} (h : s.dequeue i = (t, r)) : Quiet s t := by
  obtain rfl : (s.dequeue i).1 = t := congrArg Prod.fst h
  exact ⟨rfl, rfl, fun _ => rfl, fun _ => rfl, fun _ => ⟨rfl, rfl⟩⟩

/-- all victims go back to memory -/
theorem Rep.requeueVictims {fuel : ℕ} (hQ : IgnoresHits Q) (h : Rep Q s M H W o B base) (hfuel : W.length < fuel) :
    Rep Q (RamCacheCLFUS.requeueVictims fuel s) (M ++ W) H [] o B base ∧ Quiet s (RamCacheCLFUS.requeueVictims fuel s) := by
  induction W generalizing s M fuel with
  | nil =>
    obtain ⟨fuel, rfl⟩ : ∃ m, fuel = m + 1 := ⟨fuel - 1, by omega⟩
    rw [RamCacheCLFUS.requeueVictims, dequeue_nil h.queues rfl, List.append_nil]
    exact ⟨h, Quiet.refl s⟩
  | cons e W ih =>
    obtain ⟨fuel, rfl⟩ : ∃ m, fuel = m + 1 := ⟨fuel - 1, by omega⟩
    obtain ⟨t, heq, _, _, _, hrep⟩ := h.requeue hQ
    rw [RamCacheCLFUS.requeueVictims, heq]
    dsimp only
    obtain ⟨hdone, hquiet⟩ := ih hrep (by simpa using hfuel)
    rw [List.append_assoc] at hdone
    exact ⟨hdone, ((dequeue_quiet heq).trans (requeue_quiet t e)).trans hquiet⟩

theorem withOverhead_le (size : ℕ) : withOverhead size ≤ size + ENTRY_OVERHEAD := Nat.mod_le _ _

/-- The victims there is room for go back to memory, the others to the history. The test leaves out the overhead of the entry that
goes back. -/
theorem Rep.insertVictims (size : ℕ) {fuel : ℕ} (hQ : IgnoresHits Q) (h : Rep Q s M H W o B base) (hfuel : W.length < fuel) :
    ∃ K D, (K ++ D).Perm W ∧ Rep Q (RamCacheCLFUS.insertVictims size fuel s) (M ++ K) (H ++ D) [] o B base ∧
      Quiet s (RamCacheCLFUS.insertVictims size fuel s) ∧
      (s.bytes + size ≤ s.maxBytes + ENTRY_OVERHEAD →
        (RamCacheCLFUS.insertVictims size fuel s).bytes + size ≤ s.maxBytes + ENTRY_OVERHEAD) := by
  induction W generalizing s M H fuel with
  | nil =>
    obtain ⟨fuel, rfl⟩ : ∃ m, fuel = m + 1 := ⟨fuel - 1, by omega⟩
    rw [RamCacheCLFUS.insertVictims, dequeue_nil h.queues rfl]
    refine ⟨[], [], List.Perm.refl _, ?_, Quiet.refl s, id⟩
    rw [List.append_nil, List.append_nil]
    exact h
  | cons e W ih =>
    obtain ⟨fuel, rfl⟩ : ∃ m, fuel = m + 1 := ⟨fuel - 1, by omega⟩
    have hfuel' : W.length < fuel := by simpa using hfuel
    rw [RamCacheCLFUS.insertVictims]
    obtain ⟨t, heq, hbytes, hmax, hentry, hrep⟩ := h.requeue hQ
    rw [heq]
    dsimp only
    by_cases hroom : t.bytes + size + (t.entry e).size ≤ t.maxBytes
    · rw [if_pos hroom]
      obtain ⟨K, D, hperm, hdone, hquiet, hle⟩ := ih hrep hfuel'
      refine ⟨e :: K, D, List.Perm.cons e hperm, ?_, ((dequeue_quiet heq).trans (requeue_quiet t e)).trans hquiet, fun _ => ?_⟩
      · rw [List.append_assoc] at hdone
        exact hdone
      · have hnew : (t.requeue e).bytes = t.bytes + withOverhead (t.entry e).size := rfl
        have hle' := withOverhead_le (t.entry e).size
        have hmax' : (t.requeue e).maxBytes = s.maxBytes := hmax
        rw [hmax', hnew] at hle
        exact hle (by omega)
    · rw [if_neg hroom]
      obtain ⟨t', heq', hbytes', hmax', _, hrep'⟩ := h.victimize
      obtain rfl : t = t' := congrArg Prod.fst (heq.symm.trans heq')
      obtain ⟨K, D, hperm, hdone, hquiet, hle⟩ := ih hrep' hfuel'
      refine ⟨K, e :: D, List.perm_middle.trans (List.Perm.cons e hperm), ?_,
        ((dequeue_quiet heq).trans (victimize_quiet t e)).trans hquiet, fun hs => ?_⟩
      · rw [List.append_assoc] at hdone
        exact hdone
      · have hnew : (t.victimize e).bytes = s.bytes := hbytes
        have hmax' : (t.victimize e).maxBytes = s.maxBytes := hmax
        rw [hmax', hnew] at hle
        exact hle hs

/-! ## The search for room -/

/-- How the search ends: the entries of memory and the victims are still the same, and there is room, or the new entry belongs to
the history, or everything is back where it was. Without an entry of the history it makes room only in an empty memory. -/
def RoomSpec (Q : Entry → Prop) (size : ℕ) (s : RamCacheCLFUS V) (M H W : List ℕ) (o : Option ℕ) (base : ℤ)
    (s' : RamCacheCLFUS V) : RamCacheCLFUS.Room → Prop
  | .insert => s'.bytes + size ≤ s.maxBytes ∧ ∃ M' H' W' B', (M' ++ W').Perm (M ++ W) ∧ H' ⊆ H ∧ Rep Q s' M' H' W' o B' base ∧
      (o = none → M = [] ∧ M' = [] ∧ W' = W)
  | .history => o = none ∧ ∃ M' H' W' B', (M' ++ W').Perm (M ++ W) ∧ H' ⊆ H ∧ Rep Q s' M' H' W' none B' base
  | .refused => ∃ M' H' B', M'.Perm (M ++ W) ∧ Rep Q s' M' H' [] none B' base

theorem RoomSpec.of_perm {size : ℕ} {s₁ s₂ s' : RamCacheCLFUS V} {M₁ M₂ H₁ H₂ W₁ W₂ : List ℕ} {r : RamCacheCLFUS.Room}
    (h : RoomSpec Q size s₂ M₂ H₂ W₂ o base s' r) (hperm : (M₂ ++ W₂).Perm (M₁ ++ W₁)) (hsub : H₂ ⊆ H₁)
    (hmax : s₂.maxBytes = s₁.maxBytes) (hnone : o = none → M₂ ≠ []) : RoomSpec Q size s₁ M₁ H₁ W₁ o base s' r := by
  cases r with
  | insert =>
    obtain ⟨hle, M', H', W', B', hp, hs, hrep, hempty⟩ := h
    refine ⟨hmax ▸ hle, M', H', W', B', hp.trans hperm, List.Subset.trans hs hsub, hrep, fun ho => ?_⟩
    exact absurd (hempty ho).1 (hnone ho)
  | history =>
    obtain ⟨ho, M', H', W', B', hp, hs, hrep⟩ := h
    exact ⟨ho, M', H', W', B', hp.trans hperm, List.Subset.trans hs hsub, hrep⟩
  | refused =>
    obtain ⟨M', H', B', hp, hrep⟩ := h
    exact ⟨M', H', B', hp.trans hperm, hrep⟩

theorem Rep.makeRoom (size : ℕ) {fuel : ℕ} (limit : ℤ) (v : V) (hQ : IgnoresHits Q) (h : Rep Q s M H W o B base)
    (hfuel : M.length + limit.toNat < fuel) :
    Quiet s (RamCacheCLFUS.makeRoom c size o fuel limit v s).1 ∧
    RoomSpec Q size s M H W o base (RamCacheCLFUS.makeRoom c size o fuel limit v s).1
      (RamCacheCLFUS.makeRoom c size o fuel limit v s).2 := by
  induction fuel generalizing s M H W B limit v with
  | zero => omega
  | succ fuel ih =>
    rw [RamCacheCLFUS.makeRoom]
    cases M with
    | nil =>
      rw [dequeue_nil h.queues rfl]
      dsimp only
      by_cases hroom : s.bytes + size ≤ s.maxBytes
      · rw [if_pos hroom]
        exact ⟨Quiet.refl s, hroom, [], H, W, B, List.Perm.refl _, List.Subset.refl _, h, fun _ => ⟨rfl, rfl, rfl⟩⟩
      · -- no victim
        rw [if_neg hroom]
        have hback : ∃ H', Rep Q (o.elim s (s.enqueue .history)) [] H' W none B base ∧ Quiet s (o.elim s (s.enqueue .history)) := by
          cases o with
          | none => exact ⟨H, h, Quiet.refl s⟩
          | some e => exact ⟨H ++ [e], h.put_back, rfl, rfl, fun _ => rfl, fun _ => rfl, fun _ => ⟨rfl, rfl⟩⟩
        obtain ⟨H', hrep, hquiet⟩ := hback
        obtain ⟨hdone, hquiet'⟩ := hrep.requeueVictims hQ (Nat.lt_succ_of_le hrep.victims_length)
        exact ⟨hquiet.trans hquiet', [] ++ W, H', B, List.Perm.refl _, hdone⟩
    | cons e M =>
      obtain ⟨t, heq, hentry, havg, hchance⟩ := h.second_chance (c.average (s.value c e) s.averageValue)
      have hvalue : t.value c e = s.value c e := by
        rw [RamCacheCLFUS.value, hentry]
        rfl
      have hquiet₀ : Quiet s t := dequeue_quiet heq
      rw [heq]
      dsimp only
      rw [hvalue, havg]
      set u : RamCacheCLFUS V := { t with averageValue := c.average (s.value c e) s.averageValue } with hu
      have hquiet₁ : Quiet s u := ⟨hquiet₀.max_eq, hquiet₀.next_eq, hquiet₀.size_eq, hquiet₀.key_eq, hquiet₀.aux_eq⟩
      generalize hab : c.lt u.averageValue (u.value c e) = above
      by_cases hsecond : above = true ∧ limit > 0
      · -- a second chance
        rw [if_pos hsecond]
        have hquiet₂ : Quiet s (u.enqueue .memory e) :=
          ⟨hquiet₁.max_eq, hquiet₁.next_eq, hquiet₁.size_eq, hquiet₁.key_eq, hquiet₁.aux_eq⟩
        have hlen : (M ++ [e]).length = M.length + 1 := by simp
        obtain ⟨hquiet₃, hspec⟩ := ih (limit - 1) v hchance (by rw [hlen]; simp at hfuel; omega)
        refine ⟨hquiet₂.trans hquiet₃, hspec.of_perm ?_ (List.Subset.refl _) hquiet₂.max_eq fun _ => by simp⟩
        exact (List.perm_append_singleton e M).append_right W
      · rw [if_neg hsecond]
        obtain ⟨t', heq', _, _, hvict, _, hsame, hsizes⟩ := h.takeVictim (c.average (s.value c e) s.averageValue)
        obtain rfl : t = t' := congrArg Prod.fst (heq.symm.trans heq')
        rw [← hu] at hvict hsame hsizes
        have hquiet₂ : Quiet s (u.takeVictim e) := by
          refine ⟨hsame.max_eq, hsame.next_eq, fun x => ?_, hsame.key_eq, fun x => ?_⟩
          · rw [hsizes]
          · rw [hsizes]
            exact ⟨rfl, rfl⟩
        obtain ⟨H₂, B₂, hsub, htick, hquiet₃⟩ := hvict.tick
        have hquiet₄ := hquiet₂.trans hquiet₃
        have hperm : (M ++ (W ++ [e])).Perm (e :: M ++ W) := by
          rw [← List.append_assoc]
          exact List.perm_append_singleton e (M ++ W)
        generalize c.add v (RamCacheCLFUS.value c (u.takeVictim e) e) = v'
        generalize (u.takeVictim e).tick = w at htick hquiet₄
        cases o with
        | none => exact ⟨hquiet₄, rfl, M, H₂, W ++ [e], B₂, hperm, hsub, htick⟩
        | some e₀ =>
          dsimp only
          by_cases hworth : w.bytes + (w.entry e).size + size > w.maxBytes ∧ c.lt (w.value c e₀) v' = true
          · -- the victims are worth more
            rw [if_pos hworth]
            obtain ⟨hdone, hquiet₅⟩ := htick.requeueVictims hQ (Nat.lt_succ_of_le htick.victims_length)
            have hquiet₆ := hquiet₄.trans hquiet₅
            refine ⟨⟨hquiet₆.max_eq, hquiet₆.next_eq, hquiet₆.size_eq, hquiet₆.key_eq, hquiet₆.aux_eq⟩, ?_⟩
            exact ⟨M ++ (W ++ [e]), H₂ ++ [e₀], B₂, hperm, hdone.put_back⟩
          · rw [if_neg hworth]
            by_cases hroom : w.bytes + size ≤ w.maxBytes
            · rw [if_pos hroom]
              exact ⟨hquiet₄, hquiet₄.max_eq ▸ hroom, M, H₂, W ++ [e], B₂, hperm, hsub, htick, fun ho => absurd ho (by simp)⟩
            · rw [if_neg hroom]
              have hlimit : (if above = true then limit - 1 else limit).toNat ≤ limit.toNat := by
                by_cases ha : above = true
                · rw [if_pos ha]
                  omega
                · rw [if_neg ha]
              obtain ⟨hquiet₅, hspec⟩ := ih (if above = true then limit - 1 else limit) v' htick (by simp at hfuel; omega)
              exact ⟨hquiet₄.trans hquiet₅, hspec.of_perm hperm hsub hquiet₄.max_eq fun ho => absurd ho (by simp)⟩

/-! ## The entry comes to memory or to the history -/

/-- the buffer that an entry keeps: the caller's, or a copy of the object -/
def Put.Kept (p : Put) (d : Data) : Prop :=
  if p.copy then d.bytes = p.data.bytes.take p.len ∧ d.blockSize = p.len else d = p.data

/-- an entry that is put into memory -/
def Put.fill (p : Put) (d : Data) (x : Entry) : Entry :=
  { x with compressed := 0, incompressible := false, lru := false, copy := p.copy, data := some d, size := p.size, len := p.len }

/-- the key and the auxiliary keys are those of the `put` -/
def Put.Names (p : Put) (x : Entry) : Prop := x.key = p.key ∧ x.auxkey1 = p.auxkey1 ∧ x.auxkey2 = p.auxkey2

theorem keep_eq (s : RamCacheCLFUS V) (p : Put) : ∃ n d, s.keep p = ({ s with nextData := n }, d) ∧ p.Kept d := by
  unfold RamCacheCLFUS.keep Put.Kept
  by_cases hcopy : p.copy = true
  · rw [if_pos hcopy]
    refine ⟨_, _, rfl, ?_⟩
    rw [if_pos hcopy]
    exact ⟨rfl, rfl⟩
  · rw [if_neg hcopy]
    refine ⟨s.nextData, _, rfl, ?_⟩
    rw [if_neg hcopy]

theorem insertEntry_eq (s : RamCacheCLFUS V) (e : ℕ) (p : Put) :
    ∃ n d, p.Kept d ∧ s.insertEntry e p =
      RamCacheCLFUS.enqueue { s.modify e (p.fill d) with
        nextData := n, bytes := s.bytes + withOverhead p.size, objects := s.objects + 1 } .memory e := by
  obtain ⟨n, d, heq, hkept⟩ := keep_eq s p
  refine ⟨n, d, hkept, ?_⟩
  unfold RamCacheCLFUS.insertEntry
  dsimp only
  rw [heq]
  rfl

/-- an entry of the history comes back to memory -/
theorem Rep.insertEntry {p : Put} (h : Rep Q s M H [] (some e) B base)
    (hQ : ∀ d, p.Kept d → Q (p.fill d (s.entry e))) :
    Rep Q ({ s with history := s.history - 1 }.insertEntry e p) (M ++ [e]) H [] none B base ∧
    ({ s with history := s.history - 1 }.insertEntry e p).bytes = s.bytes + withOverhead p.size ∧
    ∃ d, p.Kept d ∧ ({ s with history := s.history - 1 }.insertEntry e p).entry e = p.fill d (s.entry e) := by
  obtain ⟨n, d, hkept, heq⟩ := insertEntry_eq { s with history := s.history - 1 } e p
  have hnot := h.out e rfl
  rw [heq]
  set t := ({ s with history := s.history - 1 } : RamCacheCLFUS V).modify e (p.fill d) with ht
  have hself : t.entry e = p.fill d (s.entry e) := modify_entry_self _ e _
  have hother : ∀ x, x ≠ e → t.entry x = s.entry x := fun x hx => modify_entry_of_ne _ _ hx
  have hkey : ∀ x, (t.entry x).key = (s.entry x).key := modify_field ht Entry.key fun _ => rfl
  obtain ⟨k, q, heq', hq⟩ := enqueue_eq
    (s := { t with nextData := n, bytes := s.bytes + withOverhead p.size, objects := s.objects + 1 }) (i := .memory) h.queues hnot
  rw [update_lists_memory] at hq
  refine ⟨?_, rfl, d, hkept, hself⟩
  change Rep Q (RamCacheCLFUS.enqueue { t with nextData := n, bytes := s.bytes + withOverhead p.size, objects := s.objects + 1 }
    .memory e) (M ++ [e]) H [] none B base
  rw [heq']
  refine h.relist ⟨rfl, rfl, rfl, rfl, rfl, hkey⟩ hq ?_ (by simp) ?_ ?_ ?_ ?_ ?_ ?_ ?_
  · intro x
    simp only [Held, List.mem_append, List.mem_singleton, List.not_mem_nil, Option.some.injEq, reduceCtorEq, or_false, false_or,
      eq_comm (a := e)]
    tauto
  · intro x hx
    have hne : x ≠ e := by
      rintro rfl
      exact absurd (h.lt_next x (Or.inr (Or.inr (Or.inr rfl)))) (not_lt.mpr hx)
    change (t.entry x).data = none
    rw [hother x hne]
    exact h.fresh x hx
  · change s.objects + 1 = _
    rw [h.objects_eq]
    simp
  · change s.history - 1 = _
    rw [h.history_eq]
    simp
  · change s.bytes + withOverhead p.size = base + ((M ++ [e]).map t.cost).sum
    have hcost : M.map t.cost = M.map s.cost := by
      apply List.map_congr_left
      intro x hx
      rw [RamCacheCLFUS.cost, hother x fun hxe => hnot.1 (hxe ▸ hx)]
      rfl
    have hcost' : t.cost e = withOverhead p.size := by
      rw [RamCacheCLFUS.cost, hself]
      rfl
    rw [List.map_append, List.sum_append, hcost, List.map_singleton, List.sum_singleton, hcost', h.bytes_eq]
    ring
  · intro x hx
    change (t.entry x).lru = false ∧ (t.entry x).data ≠ none ∧ Q (t.entry x)
    by_cases hxe : x = e
    · rw [hxe, hself]
      exact ⟨rfl, by simp [Put.fill], hQ d hkept⟩
    · rw [hother x hxe]
      apply h.memory x
      simp only [List.mem_append, List.mem_singleton, List.not_mem_nil, or_false] at hx
      exact Or.inl (hx.resolve_right hxe)
  · intro x hx
    have hmem : x ∈ H := by simpa using hx
    have hne : x ≠ e := by
      rintro rfl
      exact hnot.2.1 hmem
    change (t.entry x).lru = true ∧ (t.entry x).data = none
    rw [hother x hne]
    exact h.history x (Or.inl hmem)
  · exact fun x hx => List.mem_append_left _ (h.cursor x hx)

theorem bucketSize_pos (c : Cfg V) (i : ℕ) : 0 < c.bucketSize i := by
  have hpos : ∀ x ∈ bucketSizes, 0 < x := by decide
  rw [Cfg.bucketSize, List.getD_eq_getElem?_getD]
  cases hi : bucketSizes[i]? with
  | none => exact (c.stray i).pos
  | some x => exact hpos x (List.mem_of_getElem? hi)

/-- the table after `resize_hashtable` -/
theorem resize_table {P : ℕ → Prop} (h : HashOk s.hashLink s.bucket s.nbuckets s.hashIndex P B) (hlt : ∀ x, P x → x < s.nextEntry) :
    ∃ B', HashOk (s.resizeHashtable c).hashLink (s.resizeHashtable c).bucket (s.resizeHashtable c).nbuckets
      (s.resizeHashtable c).hashIndex P B' := by
  have hidx : ∀ e, hashOf (c.bucketSize s.ibuckets) (s.entry e).key < c.bucketSize s.ibuckets := fun e =>
    Nat.mod_lt _ (bucketSize_pos c _)
  apply rehash_rule hidx h
  intro b hb
  apply Nat.lt_succ_of_le
  exact length_le_of_lt (h.chain b hb).nodup fun x hx => hlt x ((h.mem x).mpr ⟨b, hb, hx⟩)

section NewEntry

variable {p : Put}

theorem newEntry_entry (s : RamCacheCLFUS V) (p : Put) :
    (s.newEntry p).entry = Function.update s.entry s.nextEntry
      { s.entry s.nextEntry with key := p.key, auxkey1 := p.auxkey1, auxkey2 := p.auxkey2, hits := 1 } := rfl

theorem newEntry_entry_of_ne {x : ℕ} (hx : x ≠ s.nextEntry) : (s.newEntry p).entry x = s.entry x := by
  rw [newEntry_entry, Function.update_of_ne hx]

theorem newEntry_entry_self :
    (s.newEntry p).entry s.nextEntry =
      { s.entry s.nextEntry with key := p.key, auxkey1 := p.auxkey1, auxkey2 := p.auxkey2, hits := 1 } := by
  rw [newEntry_entry, Function.update_self]

theorem Rep.next_not_held (h : Rep Q s M H W o B base) : ¬ Held M H W o s.nextEntry := fun hx =>
  absurd (h.lt_next _ hx) (lt_irrefl _)

/-- a new entry is in its chain and in no queue -/
theorem Rep.newEntry (h : Rep Q s M H W o B base) (hpos : 0 < s.nbuckets) :
    Queues (s.newEntry p).lruLink (s.newEntry p).lru (lists M H W) ∧
    ∃ B', HashOk (s.newEntry p).hashLink (s.newEntry p).bucket (s.newEntry p).nbuckets (s.newEntry p).hashIndex
      (fun x => Held M H W o x ∨ x = s.nextEntry) B' := by
  have hnot := h.next_not_held
  have hout : ∀ i, s.nextEntry ∉ lists M H W i := by
    rw [forall_not_mem_lists]
    exact ⟨fun hm => hnot (Or.inl hm), fun hm => hnot (Or.inr (Or.inl hm)), fun hm => hnot (Or.inr (Or.inr (Or.inl hm)))⟩
  refine ⟨h.queues.clear hout, ?_⟩
  have hne : ∀ x, Held M H W o x → x ≠ s.nextEntry := fun x hx heq => hnot (heq ▸ hx)
  have hidx : (s.newEntry p).hashIndex s.nextEntry = hashOf s.nbuckets p.key := by
    rw [RamCacheCLFUS.hashIndex, newEntry_entry_self]
    rfl
  have htable : HashOk (s.hashLink.clear s.nextEntry) s.bucket s.nbuckets (s.newEntry p).hashIndex (Held M H W o) B := by
    apply (h.table.frame fun x hx => Links.clear_frame _ _ x (by simpa using hne x hx)).congr fun _ => Iff.rfl
    intro x hx
    rw [RamCacheCLFUS.hashIndex, newEntry_entry_of_ne (hne x hx)]
    rfl
  have hpush := (htable.push hnot (Links.clear_detached _ _) (hidx ▸ Nat.mod_lt _ hpos)).1
  exact ⟨_, hpush⟩

/-- A state with one entry more than the last, the one at `nextEntry`. -/
theorem Rep.admit {s' : RamCacheCLFUS V} {M' H' : List ℕ} {B' : ℕ → List ℕ} (h : Rep Q s M H [] none B base)
    (hkey : ∀ x, Held M H [] none x → (s.entry x).key ≠ p.key)
    (htable : HashOk s'.hashLink s'.bucket s'.nbuckets s'.hashIndex (fun x => Held M H [] none x ∨ x = s.nextEntry) B')
    (hqueues : Queues s'.lruLink s'.lru (lists M' H' [])) (hheld : ∀ x, Held M' H' [] none x ↔ Held M H [] none x ∨ x = s.nextEntry)
    (hnext : s'.nextEntry = s.nextEntry + 1) (hother : ∀ x, x ≠ s.nextEntry → s'.entry x = s.entry x)
    (hself : (s'.entry s.nextEntry).key = p.key)
    (hobjects : s'.objects = M'.length) (hhistory : s'.history = H'.length) (hbytes : s'.bytes = base + (M'.map s'.cost).sum)
    (hmem : ∀ x ∈ M', (s'.entry x).lru = false ∧ (s'.entry x).data ≠ none ∧ Q (s'.entry x))
    (hhist : ∀ x ∈ H', (s'.entry x).lru = true ∧ (s'.entry x).data = none) (hcursor : ∀ e, s'.compressed = some e → e ∈ M')
    (hpos : 0 < s'.nbuckets) : Rep Q s' M' H' [] none B' base where
  queues := hqueues
  table := htable.congr (fun x => (hheld x).symm) fun _ _ => rfl
  out := by simp
  lt_next := by
    intro x hx
    rw [hnext]
    rcases (hheld x).mp hx with hx | rfl
    · exact Nat.lt_succ_of_lt (h.lt_next x hx)
    · exact Nat.lt_succ_self _
  fresh := by
    intro x hx
    rw [hnext] at hx
    rw [hother x (by omega)]
    exact h.fresh x (by omega)
  unique := by
    have hne : ∀ x, Held M H [] none x → x ≠ s.nextEntry := fun x hx heq => h.next_not_held (heq ▸ hx)
    intro x y hx hy heq
    rcases (hheld x).mp hx with hx | rfl <;> rcases (hheld y).mp hy with hy | rfl
    · rw [hother x (hne x hx), hother y (hne y hy)] at heq
      exact h.unique x y hx hy heq
    · rw [hother x (hne x hx), hself] at heq
      exact absurd heq (hkey x hx)
    · rw [hother y (hne y hy), hself] at heq
      exact absurd heq.symm (hkey y hy)
    · rfl
  objects_eq := by
    rw [hobjects]
    simp
  history_eq := by
    rw [hhistory]
    simp
  bytes_eq := hbytes
  memory := fun x hx => hmem x (by simpa using hx)
  history := fun x hx => hhist x (by simpa using hx)
  cursor := hcursor
  nbuckets_pos := fun _ => hpos

/-- `Linsert` of a new entry, behind the victims -/
theorem Rep.insertNew (h : Rep Q s M H [] none B base) (hpos : 0 < s.nbuckets)
    (hkey : ∀ x, Held M H [] none x → (s.entry x).key ≠ p.key)
    (hQ : ∀ d x, p.Kept d → p.Names x → Q (p.fill d x)) {t : RamCacheCLFUS V}
    (ht : t = s.newEntry p ∨ t = { s.newEntry p with ibuckets := s.ibuckets + 1 }.resizeHashtable c) :
    (∃ B', Rep Q (t.insertEntry s.nextEntry p) (M ++ [s.nextEntry]) H [] none B' base) ∧
    (t.insertEntry s.nextEntry p).bytes = s.bytes + withOverhead p.size ∧
    ∃ d x, p.Kept d ∧ p.Names x ∧ (t.insertEntry s.nextEntry p).entry s.nextEntry = p.fill d x := by
  obtain ⟨hqueues, B₁, htable⟩ := h.newEntry (p := p) hpos
  have hfields : t.lruLink = (s.newEntry p).lruLink ∧ t.lru = s.lru ∧ t.entry = (s.newEntry p).entry ∧
      t.nextEntry = s.nextEntry + 1 ∧ t.objects = s.objects ∧ t.history = s.history ∧ t.bytes = s.bytes ∧
      t.compressed = s.compressed ∧ 0 < t.nbuckets := by
    rcases ht with rfl | rfl
    · exact ⟨rfl, rfl, rfl, rfl, rfl, rfl, rfl, rfl, hpos⟩
    · exact ⟨rfl, rfl, rfl, rfl, rfl, rfl, rfl, rfl, bucketSize_pos c _⟩
  have htable' : ∃ B', HashOk t.hashLink t.bucket t.nbuckets t.hashIndex (fun x => Held M H [] none x ∨ x = s.nextEntry) B' := by
    rcases ht with rfl | rfl
    · exact ⟨B₁, htable⟩
    · apply resize_table (s := { s.newEntry p with ibuckets := s.ibuckets + 1 }) htable
      rintro x (hx | rfl)
      · exact Nat.lt_succ_of_lt (h.lt_next x hx)
      · exact Nat.lt_succ_self _
  obtain ⟨hlink, hlru, hentry, hnext, hobjects, hhistory, hbytes, hcursor, hpos'⟩ := hfields
  obtain ⟨B', htable'⟩ := htable'
  obtain ⟨n, d, hkept, heq⟩ := insertEntry_eq t s.nextEntry p
  set u := t.modify s.nextEntry (p.fill d) with hu
  have hself : u.entry s.nextEntry = p.fill d (t.entry s.nextEntry) := modify_entry_self _ _ _
  have hother : ∀ x, x ≠ s.nextEntry → u.entry x = s.entry x := by
    intro x hx
    rw [hu, modify_entry_of_ne _ _ hx, hentry, newEntry_entry_of_ne hx]
  have hnames : p.Names (t.entry s.nextEntry) := by
    rw [hentry, newEntry_entry_self]
    exact ⟨rfl, rfl, rfl⟩
  have hnot := h.next_not_held
  have hout : s.nextEntry ∉ M ∧ s.nextEntry ∉ H ∧ s.nextEntry ∉ [] :=
    ⟨fun hm => hnot (Or.inl hm), fun hm => hnot (Or.inr (Or.inl hm)), by simp⟩
  have hq₀ : Queues u.lruLink u.lru (lists M H []) := by
    change Queues t.lruLink t.lru (lists M H [])
    rw [hlink, hlru]
    exact hqueues
  obtain ⟨k, q, heq', hq⟩ := enqueue_eq
    (s := { u with nextData := n, bytes := t.bytes + withOverhead p.size, objects := t.objects + 1 }) (i := .memory) hq₀ hout
  rw [update_lists_memory] at hq
  rw [heq, heq']
  refine ⟨⟨B', h.admit hkey ?_ hq ?_ hnext hother ?_ ?_ ?_ ?_ ?_ ?_ ?_ hpos'⟩, congrArg (· + _) hbytes, d, _, hkept, hnames, hself⟩
  · apply htable'.congr fun _ => Iff.rfl
    intro x _
    change hashOf t.nbuckets (u.entry x).key = hashOf t.nbuckets (t.entry x).key
    rw [modify_field hu Entry.key fun _ => rfl]
  · intro x
    simp only [Held, List.mem_append, List.mem_singleton, List.not_mem_nil, reduceCtorEq, or_false]
    tauto
  · change (u.entry s.nextEntry).key = p.key
    rw [hself]
    exact hnames.1
  · change t.objects + 1 = _
    rw [hobjects, h.objects_eq]
    simp
  · change t.history = _
    rw [hhistory, h.history_eq]
    simp
  · change t.bytes + withOverhead p.size = base + ((M ++ [s.nextEntry]).map u.cost).sum
    have hcost : M.map u.cost = M.map s.cost := by
      apply List.map_congr_left
      intro x hx
      rw [RamCacheCLFUS.cost, hother x fun hxe => hout.1 (hxe ▸ hx)]
      rfl
    have hcost' : u.cost s.nextEntry = withOverhead p.size := by
      rw [RamCacheCLFUS.cost, hself]
      rfl
    rw [List.map_append, List.sum_append, hcost, List.map_singleton, List.sum_singleton, hcost', hbytes, h.bytes_eq]
    ring
  · intro x hx
    change (u.entry x).lru = false ∧ (u.entry x).data ≠ none ∧ Q (u.entry x)
    rw [List.mem_append, List.mem_singleton] at hx
    rcases hx with hx | rfl
    · rw [hother x fun hxe => hout.1 (hxe ▸ hx)]
      exact h.memory x (Or.inl hx)
    · rw [hself]
      exact ⟨rfl, by simp [Put.fill], hQ d _ hkept hnames⟩
  · intro x hx
    change (u.entry x).lru = true ∧ (u.entry x).data = none
    rw [hother x fun hxe => hout.2.1 (hxe ▸ hx)]
    exact h.history x (Or.inl hx)
  · intro x hx
    have hx' : s.compressed = some x := hcursor ▸ hx
    exact List.mem_append_left _ (h.cursor x hx')

/-- a new entry of the history -/
theorem Rep.newHistory (h : Rep Q s M H [] none B base) (hpos : 0 < s.nbuckets)
    (hkey : ∀ x, Held M H [] none x → (s.entry x).key ≠ p.key) {f : Entry → Entry}
    (hf : ∀ x, (f x).key = x.key ∧ (f x).lru = true ∧ (f x).data = x.data) :
    (∃ B', Rep Q { ((s.newEntry p).modify s.nextEntry f).enqueue .history s.nextEntry with history := s.history + 1 } M
      (H ++ [s.nextEntry]) [] none B' base) ∧
    (((s.newEntry p).modify s.nextEntry f).entry s.nextEntry).key = p.key := by
  obtain ⟨hqueues, B', htable⟩ := h.newEntry (p := p) hpos
  set u := (s.newEntry p).modify s.nextEntry f with hu
  have hself : u.entry s.nextEntry = f ((s.newEntry p).entry s.nextEntry) := modify_entry_self _ _ _
  have hother : ∀ x, x ≠ s.nextEntry → u.entry x = s.entry x := by
    intro x hx
    rw [hu, modify_entry_of_ne _ _ hx, newEntry_entry_of_ne hx]
  have hnot := h.next_not_held
  have hout : s.nextEntry ∉ M ∧ s.nextEntry ∉ H ∧ s.nextEntry ∉ [] :=
    ⟨fun hm => hnot (Or.inl hm), fun hm => hnot (Or.inr (Or.inl hm)), by simp⟩
  obtain ⟨k, q, heq', hq⟩ := enqueue_eq (s := u) (i := .history) hqueues hout
  rw [update_lists_history] at hq
  have hname : (u.entry s.nextEntry).key = p.key := by
    rw [hself, (hf _).1, newEntry_entry_self]
  rw [heq']
  refine ⟨⟨B', h.admit hkey ?_ hq ?_ rfl hother hname ?_ ?_ ?_ ?_ ?_ h.cursor hpos⟩, hname⟩
  · apply htable.congr fun _ => Iff.rfl
    intro x _
    change hashOf s.nbuckets (u.entry x).key = hashOf s.nbuckets ((s.newEntry p).entry x).key
    rw [modify_field hu Entry.key fun y => (hf y).1]
  · intro x
    simp only [Held, List.mem_append, List.mem_singleton, List.not_mem_nil, reduceCtorEq, or_false]
    tauto
  · change s.objects = _
    rw [h.objects_eq]
    simp
  · change s.history + 1 = _
    rw [h.history_eq]
    simp
  · change s.bytes = base + (M.map u.cost).sum
    have hcost : M.map u.cost = M.map s.cost := by
      apply List.map_congr_left
      intro x hx
      rw [RamCacheCLFUS.cost, hother x fun hxe => hout.1 (hxe ▸ hx)]
      rfl
    rw [hcost]
    exact h.bytes_eq
  · intro x hx
    change (u.entry x).lru = false ∧ (u.entry x).data ≠ none ∧ Q (u.entry x)
    rw [hother x fun hxe => hout.1 (hxe ▸ hx)]
    exact h.memory x (Or.inl hx)
  · intro x hx
    change (u.entry x).lru = true ∧ (u.entry x).data = none
    rw [List.mem_append, List.mem_singleton] at hx
    rcases hx with hx | rfl
    · rw [hother x fun hxe => hout.2.1 (hxe ▸ hx)]
      exact h.history x (Or.inl hx)
    · rw [hself, (hf _).2.2, newEntry_entry_self]
      exact ⟨(hf _).2.1, h.fresh _ (le_refl _)⟩

/-- `Lhistory` -/
theorem Rep.insertHistory (hhits : IgnoresHits Q) (h : Rep Q s M H W none B base) (hmax : s.maxBytes ≠ 0)
    (hkey : ∀ x, Held M H W none x → (s.entry x).key ≠ p.key) :
    ∃ e H' B', Rep Q (s.insertHistory p) (M ++ W) H' [] none B' base ∧ e ∈ H' ∧ ((s.insertHistory p).entry e).key = p.key ∧
      (s.insertHistory p).maxBytes = s.maxBytes ∧ (s.insertHistory p).bytes = base + ((M ++ W).map s.cost).sum := by
  obtain ⟨hback, hquiet⟩ := h.requeueVictims hhits (Nat.lt_succ_of_le h.victims_length)
  unfold RamCacheCLFUS.insertHistory
  dsimp only
  generalize RamCacheCLFUS.requeueVictims (s.nextEntry + 1) s = r at hback hquiet ⊢
  have hkey' : ∀ x, Held (M ++ W) H [] none x → (r.entry x).key ≠ p.key := by
    intro x hx
    rw [hquiet.key_eq]
    apply hkey x
    simp only [Held, List.mem_append, List.not_mem_nil] at hx ⊢
    tauto
  have hpos : 0 < r.nbuckets := hback.nbuckets_pos (hquiet.max_eq ▸ hmax)
  have hbytes : r.bytes = base + ((M ++ W).map s.cost).sum := by
    rw [← map_cost_congr hquiet.size_eq]
    exact hback.bytes_eq
  obtain ⟨⟨B', hrep⟩, hname⟩ := hback.newHistory hpos hkey' (f := fun x =>
    { x with size := p.data.blockSize % 2 ^ 32, compressed := 0, incompressible := false, lru := true, copy := false })
    fun _ => ⟨rfl, rfl, rfl⟩
  exact ⟨r.nextEntry, _, B', hrep, by simp, hname, hquiet.max_eq, hbytes⟩

theorem insertEntry_max (s : RamCacheCLFUS V) (e : ℕ) (p : Put) : (s.insertEntry e p).maxBytes = s.maxBytes := by
  obtain ⟨n, d, _, heq⟩ := insertEntry_eq s e p
  rw [heq]
  rfl

/-- `Linsert`: the victims `K` stay in memory, the others go to the history -/
theorem Rep.insert (hhits : IgnoresHits Q) (h : Rep Q s M H W o B base) (hmax : s.maxBytes ≠ 0)
    (hout : ∀ e, o = some e → p.Names (s.entry e)) (hnone : o = none → ∀ x, Held M H W none x → (s.entry x).key ≠ p.key)
    (hQ : ∀ d x, p.Kept d → p.Names x → Q (p.fill d x)) (hroom : s.bytes + p.size ≤ s.maxBytes) :
    ∃ K D e H' B', (K ++ D).Perm W ∧ Rep Q (s.insert c o p) (M ++ K ++ [e]) H' [] none B' base ∧
      (∃ d x, p.Kept d ∧ p.Names x ∧ (s.insert c o p).entry e = p.fill d x) ∧
      (s.insert c o p).maxBytes = s.maxBytes ∧
      (s.insert c o p).bytes = base + ((M ++ K).map s.cost).sum + withOverhead p.size ∧
      base + ((M ++ K).map s.cost).sum + p.size ≤ s.maxBytes + ENTRY_OVERHEAD := by
  obtain ⟨K, D, hperm, hrep, hquiet, hle⟩ := h.insertVictims p.size hhits (Nat.lt_succ_of_le h.victims_length)
  have hle := hle (by omega)
  unfold RamCacheCLFUS.insert
  dsimp only
  generalize RamCacheCLFUS.insertVictims p.size (s.nextEntry + 1) s = r at hrep hquiet hle ⊢
  have hbytes : r.bytes = base + ((M ++ K).map s.cost).sum := by
    rw [← map_cost_congr hquiet.size_eq]
    exact hrep.bytes_eq
  cases o with
  | some e =>
    have hnames : p.Names (r.entry e) := by
      obtain ⟨h1, h2, h3⟩ := hout e rfl
      exact ⟨(hquiet.key_eq e).trans h1, (hquiet.aux_eq e).1.trans h2, (hquiet.aux_eq e).2.trans h3⟩
    obtain ⟨hdone, hnew, d, hkept, hentry⟩ := hrep.insertEntry (p := p) fun d hd => hQ d _ hd hnames
    exact ⟨K, D, e, H ++ D, B, hperm, hdone, ⟨d, _, hkept, hnames, hentry⟩, (insertEntry_max _ e p).trans hquiet.max_eq,
      hbytes ▸ hnew, hbytes ▸ hle⟩
  | none =>
    have hpos : 0 < r.nbuckets := hrep.nbuckets_pos (hquiet.max_eq ▸ hmax)
    have hkey : ∀ x, Held (M ++ K) (H ++ D) [] none x → (r.entry x).key ≠ p.key := by
      intro x hx
      rw [hquiet.key_eq]
      apply hnone rfl x
      have hW : x ∈ W ↔ x ∈ K ∨ x ∈ D := by rw [← hperm.mem_iff, List.mem_append]
      simp only [Held, List.mem_append, List.not_mem_nil, hW] at hx ⊢
      tauto
    dsimp only
    generalize ht : (if (r.newEntry p).objects > (r.newEntry p).nbuckets then
      RamCacheCLFUS.resizeHashtable c { r.newEntry p with ibuckets := (r.newEntry p).ibuckets + 1 } else r.newEntry p) = t
    have hcases : t = r.newEntry p ∨ t = { r.newEntry p with ibuckets := r.ibuckets + 1 }.resizeHashtable c := by
      by_cases hobj : (r.newEntry p).objects > (r.newEntry p).nbuckets
      · rw [if_pos hobj] at ht
        exact Or.inr ht.symm
      · rw [if_neg hobj] at ht
        exact Or.inl ht.symm
    have htmax : t.maxBytes = r.maxBytes := by
      rcases hcases with rfl | rfl
      · rfl
      · rfl
    obtain ⟨⟨B', hdone⟩, hnew, hentry⟩ := hrep.insertNew (c := c) hpos hkey hQ hcases
    exact ⟨K, D, r.nextEntry, H ++ D, B', hperm, hdone, hentry, (insertEntry_max _ _ p).trans (htmax.trans hquiet.max_eq),
      hbytes ▸ hnew, hbytes ▸ hle⟩

end NewEntry

/-! ## Changes of an entry in place -/

/-- an entry in memory with new contents -/
theorem Rep.modify_memory {f : Entry → Entry} (h : Rep Q s M H W o B base) (he : e ∈ M) (hkey : ∀ x, (f x).key = x.key)
    (hlru : (f (s.entry e)).lru = false) (hdata : (f (s.entry e)).data ≠ none) (hQ : Q (f (s.entry e))) (b : ℤ) (n : ℕ) :
    Rep Q { s.modify e f with bytes := b, nextData := n } M H W o B
      (base + (b - s.bytes) - ((withOverhead (f (s.entry e)).size : ℤ) - withOverhead (s.entry e).size)) := by
  have hself : (s.modify e f).entry e = f (s.entry e) := modify_entry_self s e f
  have hother : ∀ x, x ≠ e → (s.modify e f).entry x = s.entry x := fun x hx => modify_entry_of_ne s f hx
  have hne : ∀ x, x ∈ H ∨ o = some x → x ≠ e := by
    rintro x hx rfl
    exact hx.elim (h.not_memory_history he) fun hx => (h.out x hx).1 he
  refine h.relist ⟨rfl, rfl, rfl, rfl, rfl, modify_field rfl Entry.key hkey⟩ h.queues (fun _ => Iff.rfl) h.out ?_ h.objects_eq
    h.history_eq ?_ ?_ ?_ h.cursor
  · intro x hx
    have hxe : x ≠ e := by
      rintro rfl
      exact absurd (h.lt_next x (Or.inl he)) (not_lt.mpr hx)
    change ((s.modify e f).entry x).data = none
    rw [hother x hxe]
    exact h.fresh x hx
  · obtain ⟨m₁, m₂, rfl⟩ := List.append_of_mem he
    have hnot : e ∉ m₁ ++ m₂ := (List.nodup_cons.mp (List.nodup_middle.mp h.nodup_memory)).1
    have hcost : (m₁ ++ m₂).map (s.modify e f).cost = (m₁ ++ m₂).map s.cost := by
      apply List.map_congr_left
      intro x hx
      rw [RamCacheCLFUS.cost, hother x fun hxe => hnot (hxe ▸ hx)]
      rfl
    have hcost' : (s.modify e f).cost e = withOverhead (f (s.entry e)).size := by
      rw [RamCacheCLFUS.cost, hself]
    have hold := h.bytes_eq
    rw [sum_cost_middle] at hold
    change b = _ + ((m₁ ++ e :: m₂).map (s.modify e f).cost).sum
    rw [sum_cost_middle, hcost, hcost', hold, RamCacheCLFUS.cost]
    ring
  · intro x hx
    change ((s.modify e f).entry x).lru = false ∧ ((s.modify e f).entry x).data ≠ none ∧ Q ((s.modify e f).entry x)
    by_cases hxe : x = e
    · rw [hxe, hself]
      exact ⟨hlru, hdata, hQ⟩
    · rw [hother x hxe]
      exact h.memory x hx
  · intro x hx
    change ((s.modify e f).entry x).lru = true ∧ ((s.modify e f).entry x).data = none
    rw [hother x (hne x hx)]
    exact h.history x hx

/-- a field of no size: the bytes and `base` stay -/
theorem Rep.modify_memory_size {f : Entry → Entry} (h : Rep Q s M H W o B base) (he : e ∈ M) (hkey : ∀ x, (f x).key = x.key)
    (hsize : (f (s.entry e)).size = (s.entry e).size) (hlru : (f (s.entry e)).lru = (s.entry e).lru)
    (hdata : (f (s.entry e)).data = (s.entry e).data) (hQ : Q (f (s.entry e))) : Rep Q (s.modify e f) M H W o B base := by
  obtain ⟨hl, hd, _⟩ := h.memory e (Or.inl he)
  have hrep := h.modify_memory he hkey (hlru.trans hl) (by rw [hdata]; exact hd) hQ s.bytes s.nextData
  rw [hsize, sub_self, sub_self, add_zero, sub_zero] at hrep
  exact hrep

/-- an entry of the history: anything but the key, the flag and the data may change -/
theorem Rep.modify_history {f : Entry → Entry} (h : Rep Q s M H W o B base) (he : e ∈ H)
    (hf : ∀ x, (f x).key = x.key ∧ (f x).lru = x.lru ∧ (f x).data = x.data) : Rep Q (s.modify e f) M H W o B base := by
  have hother : ∀ x, x ≠ e → (s.modify e f).entry x = s.entry x := fun x hx => modify_entry_of_ne s f hx
  have hlru : ∀ x, ((s.modify e f).entry x).lru = (s.entry x).lru := modify_field rfl Entry.lru fun y => (hf y).2.1
  have hdata : ∀ x, ((s.modify e f).entry x).data = (s.entry x).data := modify_field rfl Entry.data fun y => (hf y).2.2
  have hne : ∀ x, x ∈ M ∨ x ∈ W → x ≠ e := by
    rintro x hx rfl
    exact hx.elim (fun hm => h.not_memory_history hm he) (h.not_history_victims he)
  refine h.relist ⟨rfl, rfl, rfl, rfl, rfl, modify_field rfl Entry.key fun y => (hf y).1⟩ h.queues (fun _ => Iff.rfl) h.out ?_
    h.objects_eq h.history_eq ?_ ?_ ?_ h.cursor
  · intro x hx
    rw [hdata]
    exact h.fresh x hx
  · have hcost : M.map (s.modify e f).cost = M.map s.cost := by
      apply List.map_congr_left
      intro x hx
      rw [RamCacheCLFUS.cost, hother x (hne x (Or.inl hx))]
      rfl
    rw [hcost]
    exact h.bytes_eq
  · intro x hx
    rw [hother x (hne x hx)]
    exact h.memory x hx
  · intro x hx
    rw [hlru, hdata]
    exact h.history x hx

/-! ## `put` -/

/-- an entry in memory that is put again: the length is not changed -/
def Put.refill (p : Put) (d : Data) (x : Entry) : Entry :=
  { x with size := p.size, data := some d, copy := p.copy, compressed := 0 }

theorem Rep.putHit {p : Put} (h : Rep Q s M H W o B base) (he : e ∈ M) (hQ : ∀ d, p.Kept d → Q (p.refill d (s.entry e))) :
    (∃ M', M'.Perm M ∧ Rep Q (s.putHit e p) M' H W o B
      (base + ((p.size : ℤ) - (s.entry e).size) - ((withOverhead p.size : ℤ) - withOverhead (s.entry e).size))) ∧
    (s.putHit e p).maxBytes = s.maxBytes ∧ (s.putHit e p).bytes = s.bytes + ((p.size : ℤ) - (s.entry e).size) ∧
    ∃ d, p.Kept d ∧ (s.putHit e p).entry e = p.refill d (s.entry e) := by
  obtain ⟨m₁, m₂, rfl⟩ := List.append_of_mem he
  obtain ⟨hmove, _⟩ := h.moveCompressed e
  have htouch := hmove.touch
  obtain ⟨i, cur, heq⟩ := moveCompressed_eq s e
  have hperm : (m₁ ++ m₂ ++ [e]).Perm (m₁ ++ e :: m₂) :=
    (List.perm_append_singleton e (m₁ ++ m₂)).trans List.perm_middle.symm
  rw [heq] at htouch
  unfold RamCacheCLFUS.putHit
  dsimp only
  rw [heq]
  have hentry : ((RamCacheCLFUS.lruRemove { s with ncompressed := i, compressed := cur } .memory e).enqueue .memory e).entry =
    s.entry := rfl
  have hbytes : ((RamCacheCLFUS.lruRemove { s with ncompressed := i, compressed := cur } .memory e).enqueue .memory e).bytes =
    s.bytes := rfl
  have hmax : ((RamCacheCLFUS.lruRemove { s with ncompressed := i, compressed := cur } .memory e).enqueue .memory e).maxBytes =
    s.maxBytes := rfl
  generalize (RamCacheCLFUS.lruRemove { s with ncompressed := i, compressed := cur } .memory e).enqueue .memory e = t
    at htouch hentry hbytes hmax ⊢
  obtain ⟨n, d, hkeep, hkept⟩ := keep_eq { t with bytes := t.bytes + ((p.size : ℤ) - (t.entry e).size) } p
  rw [hkeep]
  have hlru := (h.memory e (Or.inl he)).1
  have hmem : e ∈ m₁ ++ m₂ ++ [e] := by simp
  have hrep := htouch.modify_memory (f := p.refill d) hmem (fun _ => rfl) (by rw [hentry]; exact hlru) (by simp [Put.refill])
    (by rw [hentry]; exact hQ d hkept) (t.bytes + ((p.size : ℤ) - (t.entry e).size)) n
  have hbase : base + (t.bytes + ((p.size : ℤ) - (t.entry e).size) - t.bytes) -
      ((withOverhead (p.refill d (t.entry e)).size : ℤ) - withOverhead (t.entry e).size) =
      base + ((p.size : ℤ) - (s.entry e).size) - ((withOverhead p.size : ℤ) - withOverhead (s.entry e).size) := by
    rw [hentry, add_sub_cancel_left]
    rfl
  rw [hbase] at hrep
  refine ⟨⟨_, hperm, hrep⟩, hmax, ?_, d, hkept, ?_⟩
  · change t.bytes + ((p.size : ℤ) - (t.entry e).size) = _
    rw [hbytes, hentry]
  · rw [← hentry]
    exact modify_entry_self _ e _

/-- what `destroy` leaves alone -/
theorem destroy_fields (s : RamCacheCLFUS V) (e : ℕ) :
    (s.destroy e).1.maxBytes = s.maxBytes ∧ (s.destroy e).1.nbuckets = s.nbuckets ∧
    (∀ x, ((s.destroy e).1.entry x).key = (s.entry x).key) ∧ (s.destroy e).1.nextEntry = s.nextEntry := by
  obtain ⟨n, cur, heq⟩ := moveCompressed_eq s e
  unfold RamCacheCLFUS.destroy
  dsimp only
  rw [heq]
  by_cases hlru : (s.entry e).lru = true
  · rw [if_pos hlru]
    exact ⟨rfl, rfl, fun _ => rfl, rfl⟩
  · rw [if_neg hlru]
    have hkey : ∀ x, ((s.modify e fun x => { x with data := none }).entry x).key = (s.entry x).key :=
      modify_field rfl Entry.key fun _ => rfl
    exact ⟨rfl, rfl, hkey, rfl⟩

theorem cost_nonneg (s : RamCacheCLFUS V) (e : ℕ) : 0 ≤ s.cost e := Int.natCast_nonneg _

/-- `destroy` of an entry in one of the two queues -/
theorem Rep.destroy {b₁ b₂ : List ℕ} (h : Rep Q s M H [] none B base) (he : Held M H [] none e)
    (hB : B (s.hashIndex e) = b₁ ++ e :: b₂) :
    ∃ M' H', Rep Q (s.destroy e).1 M' H' [] none (Function.update B (s.hashIndex e) (b₁ ++ b₂)) base ∧
      (s.destroy e).1.bytes ≤ s.bytes := by
  have hcases : e ∈ M ∨ e ∈ H := by simpa [Held] using he
  rcases hcases with he | he
  · obtain ⟨m₁, m₂, rfl⟩ := List.append_of_mem he
    obtain ⟨hrep, hbytes⟩ := h.destroy_memory hB
    exact ⟨_, _, hrep, hbytes.le.trans (sub_le_self _ (cost_nonneg s e))⟩
  · obtain ⟨l₁, l₂, rfl⟩ := List.append_of_mem he
    obtain ⟨hrep, hbytes⟩ := h.destroy_history hB
    exact ⟨_, _, hrep, hbytes.le⟩

/-- what the walk of `put` finds -/
def WalkSpec (p : Put) (s : RamCacheCLFUS V) (M H : List ℕ) : Option ℕ → Prop
  | some e => (e ∈ M ∨ e ∈ H) ∧ p.Names (s.entry e)
  | none => ∀ x, Held M H [] none x → (s.entry x).key ≠ p.key

theorem Rep.putWalk {p : Put} {m₁ m₂ : List ℕ} {fuel : ℕ} (h : Rep Q s M H [] none B base) (hpos : 0 < s.nbuckets)
    (hB : B (hashOf s.nbuckets p.key) = m₁ ++ m₂) (hm₁ : ∀ x ∈ m₁, (s.entry x).key ≠ p.key) (hfuel : m₂.length < fuel) :
    ∃ M' H' B', Rep Q (RamCacheCLFUS.putWalk p fuel s m₂.head?).1 M' H' [] none B' base ∧
      (RamCacheCLFUS.putWalk p fuel s m₂.head?).1.maxBytes = s.maxBytes ∧
      (RamCacheCLFUS.putWalk p fuel s m₂.head?).1.bytes ≤ s.bytes ∧
      WalkSpec p (RamCacheCLFUS.putWalk p fuel s m₂.head?).1 M' H' (RamCacheCLFUS.putWalk p fuel s m₂.head?).2 := by
  induction m₂ generalizing s M H B m₁ fuel with
  | nil =>
    obtain ⟨fuel, rfl⟩ : ∃ m, fuel = m + 1 := ⟨fuel - 1, by omega⟩
    refine ⟨M, H, B, h, rfl, le_refl _, fun x hx hkey => ?_⟩
    have hmem := (h.table.mem_chain hx).2
    rw [RamCacheCLFUS.hashIndex] at hmem
    change x ∈ B (hashOf s.nbuckets (s.entry x).key) at hmem
    have hkey' : (s.entry x).key = p.key := hkey
    rw [hkey', hB, List.append_nil] at hmem
    exact hm₁ x hmem hkey'
  | cons e m₂ ih =>
    obtain ⟨fuel, rfl⟩ : ∃ m, fuel = m + 1 := ⟨fuel - 1, by omega⟩
    have hfuel' : m₂.length < fuel := by simpa using hfuel
    have hb : hashOf s.nbuckets p.key < s.nbuckets := Nat.mod_lt _ hpos
    have he : Held M H [] none e := (h.table.mem e).mpr ⟨_, hb, by rw [hB]; simp⟩
    have hdll := h.table.chain _ hb
    rw [hB] at hdll
    have hnext : s.hashLink.next e = m₂.head? := hdll.next_eq
    rw [List.head?_cons, RamCacheCLFUS.putWalk]
    by_cases hkey : (s.entry e).key = p.key
    · rw [if_pos hkey]
      by_cases haux : (s.entry e).auxkey1 = p.auxkey1 ∧ (s.entry e).auxkey2 = p.auxkey2
      · rw [if_pos haux]
        exact ⟨M, H, B, h, rfl, le_refl _, by simpa [Held] using he, hkey, haux⟩
      · rw [if_neg haux]
        have hidx : s.hashIndex e = hashOf s.nbuckets p.key := by rw [RamCacheCLFUS.hashIndex, hkey]
        obtain ⟨M₁, H₁, hrep, hle⟩ := h.destroy he (hidx ▸ hB)
        obtain ⟨hmax, hnb, hkeys, _⟩ := destroy_fields s e
        have hret : (s.destroy e).2 = m₂.head? := hnext
        dsimp only
        rw [hret]
        have hB' : Function.update B (s.hashIndex e) (m₁ ++ m₂) (hashOf (s.destroy e).1.nbuckets p.key) = m₁ ++ m₂ := by
          rw [hnb, hidx]
          exact Function.update_self ..
        have hm₁' : ∀ x ∈ m₁, ((s.destroy e).1.entry x).key ≠ p.key := by
          intro x hx
          rw [hkeys]
          exact hm₁ x hx
        obtain ⟨M', H', B', hdone, hmax', hle', hspec⟩ := ih hrep (hnb ▸ hpos) hB' hm₁' hfuel'
        exact ⟨M', H', B', hdone, hmax'.trans hmax, hle'.trans hle, hspec⟩
    · rw [if_neg hkey, hnext]
      have hB' : B (hashOf s.nbuckets p.key) = (m₁ ++ [e]) ++ m₂ := by
        rw [hB, List.append_assoc]
        rfl
      apply ih h hpos hB' _ hfuel'
      intro x hx
      rcases List.mem_append.mp hx with hx | hx
      · exact hm₁ x hx
      · rw [List.mem_singleton.mp hx]
        exact hkey

/-- what `put` may do to the bytes if it puts the entry into memory: `D` leaves, and the room tests left out the overheads -/
def Inserted (p : Put) (s s' : RamCacheCLFUS V) (M H : List ℕ) (o : Option ℕ) : Prop :=
  ∃ D, D.Subperm M ∧ s'.bytes = s.bytes - (D.map s.cost).sum + withOverhead p.size ∧
    s.bytes - (D.map s.cost).sum + p.size ≤ s.maxBytes + ENTRY_OVERHEAD ∧
    (o = none → D = [] ∧ (M = [] ∨ H = []) ∧ s.bytes + p.size ≤ s.maxBytes)

theorem Rep.inserted {p : Put} {M' H₀ K D W' : List ℕ} {s' : RamCacheCLFUS V} (h : Rep Q s M H [] o B base)
    (hM : (M' ++ W').Perm M) (hW : (K ++ D).Perm W')
    (hbytes : s'.bytes = base + ((M' ++ K).map s.cost).sum + withOverhead p.size)
    (hle : base + ((M' ++ K).map s.cost).sum + p.size ≤ s.maxBytes + ENTRY_OVERHEAD)
    (hnone : o = none → D = [] ∧ (M = [] ∨ H₀ = []) ∧ s.bytes + p.size ≤ s.maxBytes) : Inserted p s s' M H₀ o := by
  have hperm : (M' ++ K ++ D).Perm M := by
    rw [List.append_assoc]
    exact (hW.append_left M').trans hM
  have hsum : base + ((M' ++ K).map s.cost).sum = s.bytes - (D.map s.cost).sum := by
    have hsplit : ((M' ++ K ++ D).map s.cost).sum = ((M' ++ K).map s.cost).sum + (D.map s.cost).sum := by
      rw [List.map_append, List.sum_append]
    rw [h.bytes_eq, ← (hperm.map s.cost).sum_eq, hsplit]
    ring
  refine ⟨D, ?_, by rw [hbytes, hsum], by rw [← hsum]; exact hle, hnone⟩
  exact (List.sublist_append_right (M' ++ K) D).subperm.trans hperm.subperm

theorem filter_eq (s : RamCacheCLFUS V) (o : Option ℕ) (key : CacheKey) :
    ∃ seen b, s.filter c o key = ({ s with seen := seen }, b) ∧ (b = false → o = none) := by
  unfold RamCacheCLFUS.filter
  by_cases hf : o = none ∧ c.useSeenFilter = true
  · rw [if_pos hf]
    exact ⟨_, _, rfl, fun _ => hf.1⟩
  · rw [if_neg hf]
    exact ⟨s.seen, true, rfl, fun h => absurd h (by simp)⟩

/-- no entry in memory has the key of an entry outside -/
theorem Rep.key_ne {p : Put} (h : Rep Q s M H W o B base) (hout : ∀ e, o = some e → p.Names (s.entry e))
    (hnone : o = none → ∀ x, Held M H W none x → (s.entry x).key ≠ p.key) : ∀ x ∈ M, (s.entry x).key ≠ p.key := by
  intro x hx hkey
  cases o with
  | none => exact hnone rfl x (Or.inl hx) hkey
  | some e =>
    have heq := h.unique x e (Or.inl hx) (Or.inr (Or.inr (Or.inr rfl))) (hkey.trans (hout e rfl).1.symm)
    exact (h.out e rfl).1 (heq ▸ hx)

/-- the search for room brings no new key -/
theorem Quiet.keys_ne {p : Put} {t : RamCacheCLFUS V} {M' H' W' : List ℕ} (hquiet : Quiet s t) (hperm : (M' ++ W').Perm M)
    (hsub : H' ⊆ H) (hnone : ∀ x, Held M H [] none x → (s.entry x).key ≠ p.key) :
    ∀ x, Held M' H' W' none x → (t.entry x).key ≠ p.key := by
  intro x hx
  rw [hquiet.key_eq]
  apply hnone x
  have hM : x ∈ M ↔ x ∈ M' ∨ x ∈ W' := by rw [← hperm.mem_iff, List.mem_append]
  have hH : x ∈ H' → x ∈ H := fun hx => hsub hx
  simp only [Held, List.not_mem_nil, hM] at hx ⊢
  tauto

/-- the entry that was inserted is the one of the key -/
theorem Rep.fill_of_key {p : Put} (h : Rep Q s (M ++ [e]) H W o B base)
    (hfill : ∃ d x, p.Kept d ∧ p.Names x ∧ s.entry e = p.fill d x) :
    ∀ x ∈ M ++ [e], (s.entry x).key = p.key → ∃ d y, p.Kept d ∧ p.Names y ∧ s.entry x = p.fill d y := by
  intro x hx hkey
  obtain ⟨d, y, hkept, hnames, heq⟩ := hfill
  have hkeye : (s.entry e).key = p.key := by
    rw [heq]
    exact hnames.1
  obtain rfl := h.unique x e (Or.inl hx) (Or.inl (by simp)) (hkey.trans hkeye.symm)
  exact ⟨d, y, hkept, hnames, heq⟩

/-- `put` of what is not in memory: the entry comes to memory, or memory holds what it held -/
theorem Rep.putMiss {p : Put} (hhits : IgnoresHits Q) (h : Rep Q s M H [] o B base) (hmax : s.maxBytes ≠ 0)
    (hout : ∀ e, o = some e → p.Names (s.entry e)) (hnone : o = none → ∀ x, Held M H [] none x → (s.entry x).key ≠ p.key)
    (hQ : ∀ d x, p.Kept d → p.Names x → Q (p.fill d x)) :
    ∃ M' H' B', Rep Q (s.putMiss c o p).1 M' H' [] none B' base ∧ (s.putMiss c o p).1.maxBytes = s.maxBytes ∧
      (∀ x ∈ M', ((s.putMiss c o p).1.entry x).key = p.key →
        ∃ d y, p.Kept d ∧ p.Names y ∧ (s.putMiss c o p).1.entry x = p.fill d y) ∧
      ((s.putMiss c o p).1.bytes = s.bytes ∨ Inserted p s (s.putMiss c o p).1 M H o) := by
  have hM := h.key_ne hout hnone
  unfold RamCacheCLFUS.putMiss
  by_cases hfirst : (s.lru .history).head = none ∧ s.bytes + p.size ≤ s.maxBytes
  · -- initial fill
    rw [if_pos hfirst]
    have hH : H = [] := by
      have hhead := (h.queues.queue .history).isDll.head_eq
      rw [hfirst.1] at hhead
      exact List.head?_eq_none_iff.mp hhead.symm
    obtain ⟨K, D, e, H', B', hperm, hrep, hfill, hm, hbytes, hle⟩ := h.insert (c := c) hhits hmax hout hnone hQ hfirst.2
    refine ⟨_, H', B', hrep, hm, hrep.fill_of_key hfill, Or.inr (h.inserted ?_ hperm hbytes hle fun _ => ?_)⟩
    · rw [List.append_nil]
    · exact ⟨(List.append_eq_nil_iff.mp hperm.eq_nil).2, Or.inr hH, hfirst.2⟩
  · rw [if_neg hfirst]
    obtain ⟨seen, b, hfilter, hb⟩ := filter_eq (c := c) s o p.key
    rw [hfilter]
    have hseen : Rep Q { s with seen := seen } M H [] o B base := ⟨h.queues, h.table, h.out, h.lt_next, h.fresh, h.unique,
      h.objects_eq, h.history_eq, h.bytes_eq, h.memory, h.history, h.cursor, h.nbuckets_pos⟩
    cases b with
    | false =>
      obtain rfl := hb rfl
      exact ⟨M, H, B, hseen, rfl, fun x hx hkey => absurd hkey (hM x hx), Or.inl rfl⟩
    | true =>
      dsimp only
      have hfuel : M.length + REQUEUE_LIMIT.toNat < s.nextEntry + REQUEUE_LIMIT.toNat + 1 := by
        have := h.memory_length
        omega
      obtain ⟨hquiet, hspec⟩ := hseen.makeRoom (c := c) p.size REQUEUE_LIMIT c.zero hhits hfuel
      generalize RamCacheCLFUS.makeRoom c p.size o (s.nextEntry + REQUEUE_LIMIT.toNat + 1) REQUEUE_LIMIT c.zero
        { s with seen := seen } = r at hquiet hspec ⊢
      obtain ⟨t, room⟩ := r
      have hquiet' : Quiet s t := ⟨hquiet.max_eq, hquiet.next_eq, hquiet.size_eq, hquiet.key_eq, hquiet.aux_eq⟩
      cases room with
      | insert =>
        obtain ⟨hroom, M', H', W', B', hperm, hsub, hrep, hempty⟩ := hspec
        rw [List.append_nil] at hperm
        have hout' : ∀ e, o = some e → p.Names (t.entry e) := by
          intro e he
          obtain ⟨h1, h2, h3⟩ := hout e he
          exact ⟨(hquiet'.key_eq e).trans h1, (hquiet'.aux_eq e).1.trans h2, (hquiet'.aux_eq e).2.trans h3⟩
        have hnone' := fun ho => hquiet'.keys_ne hperm hsub (hnone ho)
        obtain ⟨K, D, e, H₂, B₂, hperm₂, hdone, hfill, hm, hbytes, hle⟩ := hrep.insert (c := c) hhits (hquiet'.max_eq ▸ hmax)
          hout' hnone' hQ (by rw [hquiet'.max_eq]; exact hroom)
        refine ⟨_, H₂, B₂, hdone, hm.trans hquiet'.max_eq, hdone.fill_of_key hfill, Or.inr ?_⟩
        rw [map_cost_congr hquiet'.size_eq] at hbytes hle
        rw [hquiet'.max_eq] at hle
        refine h.inserted hperm hperm₂ hbytes hle fun ho => ?_
        obtain ⟨rfl, rfl, rfl⟩ := hempty ho
        have hbytes' : t.bytes = s.bytes := hrep.bytes_eq.trans h.bytes_eq.symm
        exact ⟨(List.append_eq_nil_iff.mp hperm₂.eq_nil).2, Or.inl rfl, hbytes' ▸ hroom⟩
      | history =>
        obtain ⟨rfl, M', H', W', B', hperm, hsub, hrep⟩ := hspec
        rw [List.append_nil] at hperm
        obtain ⟨e, H₂, B₂, hdone, he, hname, hm, hbytes⟩ := hrep.insertHistory hhits (hquiet'.max_eq ▸ hmax)
          (hquiet'.keys_ne hperm hsub (hnone rfl))
        refine ⟨_, H₂, B₂, hdone, hm.trans hquiet'.max_eq, fun x hx hkey => ?_, Or.inl ?_⟩
        · have hxe := hdone.unique x e (Or.inl hx) (Or.inr (Or.inl he)) (hkey.trans hname.symm)
          exact absurd (hxe ▸ he) (hdone.not_memory_history hx)
        · rw [map_cost_congr hquiet'.size_eq, (hperm.map s.cost).sum_eq, ← h.bytes_eq] at hbytes
          exact hbytes
      | refused =>
        obtain ⟨M', H', B', hperm, hrep⟩ := hspec
        rw [List.append_nil] at hperm
        refine ⟨M', H', B', hrep, hquiet'.max_eq, fun x hx hkey => ?_, Or.inl ?_⟩
        · rw [hquiet'.key_eq] at hkey
          exact absurd hkey (hM x (hperm.mem_iff.mp hx))
        · have hb := hrep.bytes_eq
          rw [map_cost_congr hquiet'.size_eq, (hperm.map s.cost).sum_eq, ← h.bytes_eq] at hb
          exact hb

/-- the first part of `put`: entries of the key with other auxiliary keys are gone, and the entry if there is one -/
def Put.walk (p : Put) (s : RamCacheCLFUS V) : RamCacheCLFUS V × Option ℕ :=
  RamCacheCLFUS.putWalk p (s.nextEntry + 1) s (s.chain p.key)

/-- what `put` does to the bytes, from the state behind the walk on -/
def PutBytes (c : Cfg V) (p : Put) (r : RamCacheCLFUS V × Option ℕ) (s' : RamCacheCLFUS V) (M H : List ℕ) : Prop :=
  s'.bytes = r.1.bytes ∨
  (∃ e, r.2 = some e ∧ (r.1.entry e).lru = false ∧ s'.bytes = r.1.bytes + ((p.size : ℤ) - (r.1.entry e).size)) ∨
  ((∀ e, r.2 = some e → (r.1.entry e).lru = true ∧
      c.lt (c.value ((r.1.entry e).hits + 1) (r.1.entry e).size) r.1.averageValue = false) ∧ Inserted p r.1 s' M H r.2)

/-- an entry of the key of a `put`, in memory behind it -/
def PutEntry (p : Put) (r : RamCacheCLFUS V × Option ℕ) (x : Entry) : Prop :=
  ∃ d y, p.Kept d ∧ p.Names y ∧ (x = p.fill d y ∨
    x = p.refill d y ∧ ∃ e, r.2 = some e ∧ (r.1.entry e).lru = false ∧ y.len = (r.1.entry e).len)

/-- the sizes of the entries with data leave room for the overhead -/
def Small (Q : Entry → Prop) : Prop := ∀ x, Q x → x.size + ENTRY_OVERHEAD < 2 ^ 32

theorem withOverhead_of_lt {size : ℕ} (h : size + ENTRY_OVERHEAD < 2 ^ 32) : withOverhead size = size + ENTRY_OVERHEAD :=
  Nat.mod_eq_of_lt h

/-- a size is changed and the bytes with it: `base` stays if both sizes are small -/
theorem base_eq_of_small {n m : ℕ} (hn : n + ENTRY_OVERHEAD < 2 ^ 32) (hm : m + ENTRY_OVERHEAD < 2 ^ 32) (base : ℤ) :
    base + ((n : ℤ) - m) - ((withOverhead n : ℤ) - withOverhead m) = base := by
  rw [withOverhead_of_lt hn, withOverhead_of_lt hm, Nat.cast_add, Nat.cast_add]
  ring

theorem Rep.put {p : Put} (hhits : IgnoresHits Q) (h : Rep Q s M H [] none B base) (hmax : s.maxBytes ≠ 0)
    (hfill : ∀ d x, p.Kept d → p.Names x → Q (p.fill d x)) (hrefill : ∀ d x, p.Kept d → p.Names x → Q x → Q (p.refill d x)) :
    ∃ M₁ H₁ B₁ M' H' B' base', Rep Q (p.walk s).1 M₁ H₁ [] none B₁ base ∧ (p.walk s).1.bytes ≤ s.bytes ∧
      Rep Q (s.put c p).1 M' H' [] none B' base' ∧ (Small Q → base' = base) ∧ (p.walk s).1.maxBytes = s.maxBytes ∧
      (s.put c p).1.maxBytes = s.maxBytes ∧
      (∀ x ∈ M', ((s.put c p).1.entry x).key = p.key → PutEntry p (p.walk s) ((s.put c p).1.entry x)) ∧
      PutBytes c p (p.walk s) (s.put c p).1 M₁ H₁ := by
  have hpos := h.nbuckets_pos hmax
  have hb : hashOf s.nbuckets p.key < s.nbuckets := Nat.mod_lt _ hpos
  have hhead : s.chain p.key = (B (hashOf s.nbuckets p.key)).head? := (h.table.chain _ hb).head_eq
  obtain ⟨M₁, H₁, B₁, hwalk, hm, hle, hspec⟩ := h.putWalk (p := p) hpos (List.nil_append _).symm (by simp)
    (Nat.lt_succ_of_le (h.chain_length hb))
  unfold RamCacheCLFUS.put
  rw [if_neg hmax]
  unfold Put.walk
  rw [← hhead] at hwalk hm hle hspec
  generalize RamCacheCLFUS.putWalk p (s.nextEntry + 1) s (s.chain p.key) = r at hwalk hm hle hspec ⊢
  obtain ⟨s₁, found⟩ := r
  dsimp only at hwalk hm hle hspec ⊢
  have hmax₁ : s₁.maxBytes ≠ 0 := hm ▸ hmax
  cases found with
  | none =>
    obtain ⟨M', H', B', hrep, hm', hkey, hbytes⟩ := hwalk.putMiss (c := c) hhits hmax₁ (by simp) (fun _ => hspec) hfill
    refine ⟨M₁, H₁, B₁, M', H', B', base, hwalk, hle, hrep, fun _ => rfl, hm, hm'.trans hm, fun x hx hk => ?_, ?_⟩
    · obtain ⟨d, y, hkept, hnames, heq⟩ := hkey x hx hk
      exact ⟨d, y, hkept, hnames, Or.inl heq⟩
    · rcases hbytes with hbytes | hbytes
      · exact Or.inl hbytes
      · exact Or.inr (Or.inr ⟨by simp, hbytes⟩)
  | some e =>
    obtain ⟨hmem, hnames⟩ := hspec
    dsimp only
    set t := s₁.modify e fun x => { x with hits := x.hits + 1 } with ht
    have hself : t.entry e = { s₁.entry e with hits := (s₁.entry e).hits + 1 } := modify_entry_self _ _ _
    have hnames' : p.Names (t.entry e) := by
      rw [hself]
      exact hnames
    by_cases hlru : (t.entry e).lru = true
    · -- an entry of the history
      rw [if_pos hlru]
      have hlru₁ : (s₁.entry e).lru = true := by rwa [hself] at hlru
      have he : e ∈ H₁ := by
        rcases hmem with he | he
        · exact absurd ((hwalk.memory e (Or.inl he)).1.symm.trans hlru₁) (by simp)
        · exact he
      have hhit := hwalk.modify_history (f := fun x => { x with hits := x.hits + 1 }) he fun _ => ⟨rfl, rfl, rfl⟩
      rw [← ht] at hhit
      obtain ⟨l₁, l₂, rfl⟩ := List.append_of_mem he
      have htake := hhit.take_out
      have hvalue : (t.lruRemove .history e).value c e = c.value ((s₁.entry e).hits + 1) (s₁.entry e).size := by
        change c.value (t.entry e).hits (t.entry e).size = _
        rw [hself]
      have hsize : ∀ x, (t.entry x).size = (s₁.entry x).size := modify_field ht Entry.size fun _ => rfl
      rw [hvalue]
      by_cases hbelow : c.lt (c.value ((s₁.entry e).hits + 1) (s₁.entry e).size) (t.lruRemove .history e).averageValue = true
      · rw [if_pos hbelow]
        refine ⟨M₁, _, B₁, M₁, _, B₁, base, hwalk, hle, htake.put_back, fun _ => rfl, hm, hm, fun x hx hk => ?_, Or.inl rfl⟩
        have hback := htake.put_back
        have hxe := hback.unique x e (Or.inl hx) (Or.inr (Or.inl (by simp))) (hk.trans hnames'.1.symm)
        exact absurd (hxe ▸ hx) fun hm => hwalk.not_memory_history hm he
      · rw [if_neg hbelow]
        have hout : ∀ e', some e = some e' → p.Names ((t.lruRemove .history e).entry e') := by
          rintro e' he'
          obtain rfl := Option.some.inj he'
          exact hnames'
        obtain ⟨M', H', B', hrep, hm', hkey, hbytes⟩ := htake.putMiss (c := c) hhits hmax₁ hout (by simp) hfill
        refine ⟨M₁, _, B₁, M', H', B', base, hwalk, hle, hrep, fun _ => rfl, hm, hm'.trans hm, fun x hx hk => ?_, ?_⟩
        · obtain ⟨d, y, hkept, hn, heq⟩ := hkey x hx hk
          exact ⟨d, y, hkept, hn, Or.inl heq⟩
        · rcases hbytes with hbytes | ⟨D, hD, h1, h2, _⟩
          · exact Or.inl hbytes
          · have hcost : D.map (t.lruRemove .history e).cost = D.map s₁.cost := map_cost_congr hsize D
            rw [hcost] at h1 h2
            refine Or.inr (Or.inr ⟨fun e' he' => ?_, D, hD, h1, h2, by simp⟩)
            obtain rfl := Option.some.inj he'
            exact ⟨hlru₁, Bool.eq_false_iff.mpr hbelow⟩
    · -- an entry in memory
      rw [if_neg hlru]
      have hlru₁ : (s₁.entry e).lru = false := by
        rw [hself] at hlru
        simpa using hlru
      have he : e ∈ M₁ := by
        rcases hmem with he | he
        · exact he
        · exact absurd ((hwalk.history e (Or.inl he)).1.symm.trans hlru₁) (by simp)
      have hQe := (hwalk.memory e (Or.inl he)).2.2
      have hhit := hwalk.modify_memory_size (f := fun x => { x with hits := x.hits + 1 }) he (fun _ => rfl) rfl rfl rfl
        (hhits _ _ hQe)
      rw [← ht] at hhit
      have hQt : Q (t.entry e) := by
        rw [hself]
        exact hhits _ _ hQe
      obtain ⟨⟨M', hperm, hrep⟩, hm', hbytes, d, hkept, hentry⟩ := hhit.putHit (p := p) he fun d hd =>
        hrefill d _ hd hnames' hQt
      have hsize : (t.entry e).size = (s₁.entry e).size := by rw [hself]
      refine ⟨M₁, H₁, B₁, M', H₁, B₁, _, hwalk, hle, hrep, fun hsmall => ?_, hm, hm'.trans hm, fun x hx hk => ?_, ?_⟩
      · exact base_eq_of_small (hsmall _ (hrefill d _ hkept hnames' hQt)) (hsmall _ hQt) base
      · have hkeye : ((t.putHit e p).entry e).key = p.key := by
          rw [hentry]
          exact hnames'.1
        obtain rfl := hrep.unique x e (Or.inl hx) (Or.inl (hperm.mem_iff.mpr he)) (hk.trans hkeye.symm)
        refine ⟨d, t.entry x, hkept, hnames', Or.inr ⟨hentry, x, rfl, hlru₁, ?_⟩⟩
        rw [hself]
      · refine Or.inr (Or.inl ⟨e, rfl, hlru₁, ?_⟩)
        rw [hbytes, hsize]
        rfl

end TrafficServer.Cache.CLFUS
