/-
The representation of the CLFUS memory cache (`RamCacheCLFUS`).

`Rep` has the three queues as lists: `M` in memory, `H` in the history, `W` the victims of a `put` that is under way, and `o` the
entry it has taken from the history. Every move of an entry between them is one lemma here. `bytes` is the cost of `M` up to `base`,
the offset that a wrapped sum or a loop over the victims leaves; what else is known of the entries is the parameter `Q`.
-/
import TrafficServer.Lib.Run
import TrafficServer.Cache.RamCacheCLFUS

namespace TrafficServer.Cache.CLFUS

open TrafficServer.Dll TrafficServer.HashChain TrafficServer.Run

/-! ## The representation -/

def lists (M H W : List ℕ) : Lru → List ℕ
  | .memory => M
  | .history => H
  | .victims => W

section Lists

variable {M H W l : List ℕ}

@[simp] theorem update_lists_memory : Function.update (lists M H W) .memory l = lists l H W := by
  funext i
  cases i <;> rfl

@[simp] theorem update_lists_history : Function.update (lists M H W) .history l = lists M l W := by
  funext i
  cases i <;> rfl

@[simp] theorem update_lists_victims : Function.update (lists M H W) .victims l = lists M H l := by
  funext i
  cases i <;> rfl

theorem forall_not_mem_lists {e : ℕ} : (∀ i, e ∉ lists M H W i) ↔ e ∉ M ∧ e ∉ H ∧ e ∉ W := by
  constructor
  · exact fun h => ⟨h .memory, h .history, h .victims⟩
  · rintro ⟨hM, hH, hW⟩ i
    cases i
    · exact hM
    · exact hH
    · exact hW

end Lists

/-- in one of the queues, or taken out of the history by a `put` that is under way -/
def Held (M H W : List ℕ) (o : Option ℕ) (x : ℕ) : Prop := x ∈ M ∨ x ∈ H ∨ x ∈ W ∨ o = some x

variable {V : Type}

namespace RamCacheCLFUS

/-- the chain that an entry belongs to -/
def hashIndex (s : RamCacheCLFUS V) (e : ℕ) : ℕ := hashOf s.nbuckets (s.entry e).key

/-- what an entry in memory counts for -/
def cost (s : RamCacheCLFUS V) (e : ℕ) : ℤ := withOverhead (s.entry e).size

end RamCacheCLFUS

/-- The queues hold `M`, `H` and `W`, the chains the same entries, one for each key, and the counts are right, `bytes` up to
`base`. `Q` is what else is known of the entries with data. -/
structure Rep (Q : Entry → Prop) (s : RamCacheCLFUS V) (M H W : List ℕ) (o : Option ℕ) (B : ℕ → List ℕ) (base : ℤ) : Prop where
  queues : Queues s.lruLink s.lru (lists M H W)
  table : HashOk s.hashLink s.bucket s.nbuckets s.hashIndex (Held M H W o) B
  out : ∀ e, o = some e → e ∉ M ∧ e ∉ H ∧ e ∉ W
  lt_next : ∀ x, Held M H W o x → x < s.nextEntry
  fresh : ∀ x, s.nextEntry ≤ x → (s.entry x).data = none
  unique : ∀ x y, Held M H W o x → Held M H W o y → (s.entry x).key = (s.entry y).key → x = y
  objects_eq : s.objects = M.length + W.length
  history_eq : s.history = H.length + o.elim 0 fun _ => 1
  bytes_eq : s.bytes = base + (M.map s.cost).sum
  memory : ∀ x, x ∈ M ∨ x ∈ W → (s.entry x).lru = false ∧ (s.entry x).data ≠ none ∧ Q (s.entry x)
  history : ∀ x, x ∈ H ∨ o = some x → (s.entry x).lru = true ∧ (s.entry x).data = none
  cursor : ∀ e, s.compressed = some e → e ∈ M
  nbuckets_pos : s.maxBytes ≠ 0 → 0 < s.nbuckets

variable {c : Cfg V} {Q : Entry → Prop} {s s' : RamCacheCLFUS V} {M H W M' H' W' l l₁ l₂ m₁ m₂ : List ℕ} {o o' : Option ℕ}
  {B : ℕ → List ℕ} {base base' : ℤ} {e : ℕ} {key : CacheKey}

/-- the table and the keys are the same -/
structure SameTable (s s' : RamCacheCLFUS V) : Prop where
  hashLink_eq : s'.hashLink = s.hashLink
  bucket_eq : s'.bucket = s.bucket
  nbuckets_eq : s'.nbuckets = s.nbuckets
  next_eq : s'.nextEntry = s.nextEntry
  max_eq : s'.maxBytes = s.maxBytes
  key_eq : ∀ x, (s'.entry x).key = (s.entry x).key

/-- entries move between the queues, and none comes or goes -/
theorem Rep.relist (h : Rep Q s M H W o B base) (hs : SameTable s s') (hqueues : Queues s'.lruLink s'.lru (lists M' H' W'))
    (hheld : ∀ x, Held M' H' W' o' x ↔ Held M H W o x) (hout : ∀ e, o' = some e → e ∉ M' ∧ e ∉ H' ∧ e ∉ W')
    (hfresh : ∀ x, s.nextEntry ≤ x → (s'.entry x).data = none)
    (hobjects : s'.objects = M'.length + W'.length) (hhistory : s'.history = H'.length + o'.elim 0 fun _ => 1)
    (hbytes : s'.bytes = base' + (M'.map s'.cost).sum)
    (hmem : ∀ x, x ∈ M' ∨ x ∈ W' → (s'.entry x).lru = false ∧ (s'.entry x).data ≠ none ∧ Q (s'.entry x))
    (hhist : ∀ x, x ∈ H' ∨ o' = some x → (s'.entry x).lru = true ∧ (s'.entry x).data = none)
    (hcursor : ∀ e, s'.compressed = some e → e ∈ M') : Rep Q s' M' H' W' o' B base' where
  queues := hqueues
  table := by
    rw [hs.hashLink_eq, hs.bucket_eq, hs.nbuckets_eq]
    apply h.table.congr (fun x => (hheld x).symm)
    intro x _
    rw [RamCacheCLFUS.hashIndex, hs.key_eq, hs.nbuckets_eq]
    rfl
  out := hout
  lt_next := by
    rw [hs.next_eq]
    exact fun x hx => h.lt_next x ((hheld x).mp hx)
  fresh := by
    rw [hs.next_eq]
    exact hfresh
  unique := by
    intro x y hx hy hkey
    rw [hs.key_eq, hs.key_eq] at hkey
    exact h.unique x y ((hheld x).mp hx) ((hheld y).mp hy) hkey
  objects_eq := hobjects
  history_eq := hhistory
  bytes_eq := hbytes
  memory := hmem
  history := hhist
  cursor := hcursor
  nbuckets_pos := by
    rw [hs.max_eq, hs.nbuckets_eq]
    exact h.nbuckets_pos

theorem Rep.nodup_memory (h : Rep Q s M H W o B base) : M.Nodup := (h.queues.queue .memory).isDll.nodup

theorem Rep.nodup_history (h : Rep Q s M H W o B base) : H.Nodup := (h.queues.queue .history).isDll.nodup

theorem Rep.nodup_victims (h : Rep Q s M H W o B base) : W.Nodup := (h.queues.queue .victims).isDll.nodup

theorem Rep.not_memory_history (h : Rep Q s M H W o B base) (he : e ∈ M) : e ∉ H :=
  h.queues.disjoint .memory .history (by decide) e he

theorem Rep.not_memory_victims (h : Rep Q s M H W o B base) (he : e ∈ M) : e ∉ W :=
  h.queues.disjoint .memory .victims (by decide) e he

theorem Rep.not_history_victims (h : Rep Q s M H W o B base) (he : e ∈ H) : e ∉ W :=
  h.queues.disjoint .history .victims (by decide) e he

theorem length_le_of_lt {l : List ℕ} {n : ℕ} (hnd : l.Nodup) (hlt : ∀ x ∈ l, x < n) : l.length ≤ n := by
  have h := (hnd.subperm fun x hx => List.mem_range.mpr (hlt x hx)).length_le
  rwa [List.length_range] at h

theorem Rep.chain_length (h : Rep Q s M H W o B base) {b : ℕ} (hb : b < s.nbuckets) : (B b).length ≤ s.nextEntry :=
  length_le_of_lt (h.table.chain b hb).nodup fun x hx => h.lt_next x ((h.table.mem x).mpr ⟨b, hb, hx⟩)

theorem Rep.memory_length (h : Rep Q s M H W o B base) : M.length ≤ s.nextEntry :=
  length_le_of_lt h.nodup_memory fun x hx => h.lt_next x (Or.inl hx)

theorem Rep.victims_length (h : Rep Q s M H W o B base) : W.length ≤ s.nextEntry :=
  length_le_of_lt h.nodup_victims fun x hx => h.lt_next x (Or.inr (Or.inr (Or.inl hx)))

/-! ## Moves within and between the queues -/

theorem dequeue_nil {i : Lru} (h : Queues s.lruLink s.lru (lists M H W)) (hL : lists M H W i = []) :
    s.dequeue i = (s, none) := by
  unfold RamCacheCLFUS.dequeue
  dsimp only
  rw [h.dequeue_nil hL, Function.update_eq_self]

/-- `lru[0].remove(e); lru[0].enqueue(e)` -/
theorem Rep.touch (h : Rep Q s (m₁ ++ e :: m₂) H W o B base) :
    Rep Q ((s.lruRemove .memory e).enqueue .memory e) (m₁ ++ m₂ ++ [e]) H W o B base := by
  have hperm : (m₁ ++ m₂ ++ [e]).Perm (m₁ ++ e :: m₂) :=
    (List.perm_append_singleton e (m₁ ++ m₂)).trans List.perm_middle.symm
  have he : e ∈ m₁ ++ e :: m₂ := by simp
  have hnot : e ∉ m₁ ++ m₂ := (List.nodup_cons.mp (List.nodup_middle.mp h.nodup_memory)).1
  have hrem := h.queues.remove (i := .memory) rfl
  rw [update_lists_memory] at hrem
  have hout := forall_not_mem_lists.mpr ⟨hnot, h.not_memory_history he, h.not_memory_victims he⟩
  have henq := hrem.enqueue (i := .memory) hout
  rw [update_lists_memory] at henq
  refine h.relist ⟨rfl, rfl, rfl, rfl, rfl, fun _ => rfl⟩ henq ?_ ?_ h.fresh ?_ h.history_eq ?_ ?_ h.history ?_
  · intro x
    rw [Held, Held, hperm.mem_iff]
  · intro x hx
    rw [hperm.mem_iff]
    exact h.out x hx
  · rw [hperm.length_eq]
    exact h.objects_eq
  · exact h.bytes_eq.trans (congrArg _ (hperm.map s.cost).sum_eq.symm)
  · intro x hx
    rw [hperm.mem_iff] at hx
    exact h.memory x hx
  · intro x hx
    rw [hperm.mem_iff]
    exact h.cursor x hx

/-- the cursor leaves the entry, for one next to it -/
theorem Rep.moveCompressed (h : Rep Q s M H W o B base) (e : ℕ) :
    Rep Q (s.moveCompressed e) M H W o B base ∧ (s.moveCompressed e).compressed ≠ some e := by
  unfold RamCacheCLFUS.moveCompressed
  by_cases hcur : s.compressed = some e
  · rw [if_pos hcur]
    have he := h.cursor e hcur
    obtain ⟨m₁, m₂, rfl⟩ := List.append_of_mem he
    have hnot : e ∉ m₁ ++ m₂ := (List.nodup_cons.mp (List.nodup_middle.mp h.nodup_memory)).1
    rw [List.mem_append, not_or] at hnot
    have hnext : s.lruLink.next e = m₂.head? := (h.queues.queue .memory).isDll.next_eq
    have hprev : s.lruLink.prev e = m₁.getLast? := (h.queues.queue .memory).isDll.prev_eq
    cases hn : s.lruLink.next e with
    | some n =>
      have hmem : n ∈ m₂ := List.mem_of_head? (hnext ▸ hn)
      refine ⟨⟨h.queues, h.table, h.out, h.lt_next, h.fresh, h.unique, h.objects_eq, h.history_eq, h.bytes_eq, h.memory,
        h.history, ?_, h.nbuckets_pos⟩, ?_⟩
      · intro x hx
        rw [← Option.some.inj hx]
        exact List.mem_append_right _ (List.mem_cons_of_mem e hmem)
      · intro heq
        exact hnot.2 (Option.some.inj heq ▸ hmem)
    | none =>
      refine ⟨⟨h.queues, h.table, h.out, h.lt_next, h.fresh, h.unique, h.objects_eq, h.history_eq, h.bytes_eq, h.memory,
        h.history, ?_, h.nbuckets_pos⟩, ?_⟩
      · intro x hx
        exact List.mem_append_left _ (List.mem_of_getLast? (hprev ▸ hx))
      · intro heq
        exact hnot.1 (List.mem_of_getLast? (hprev ▸ heq))
  · rw [if_neg hcur]
    exact ⟨h, hcur⟩

/-! ## An entry is freed -/

/-- an entry that has left its queue leaves its chain -/
theorem Rep.free {b₁ b₂ : List ℕ} (h : Rep Q s M H W o B base) (hs : SameTable s s') (he : Held M H W o e)
    (hB : B (s.hashIndex e) = b₁ ++ e :: b₂) (hqueues : Queues s'.lruLink s'.lru (lists M' H' W'))
    (hheld : ∀ x, Held M' H' W' o x ↔ Held M H W o x ∧ x ≠ e) (hout : ∀ e, o = some e → e ∉ M' ∧ e ∉ H' ∧ e ∉ W')
    (hfresh : ∀ x, s.nextEntry ≤ x → (s'.entry x).data = none)
    (hobjects : s'.objects = M'.length + W'.length) (hhistory : s'.history = H'.length + o.elim 0 fun _ => 1)
    (hbytes : s'.bytes = base + (M'.map s'.cost).sum)
    (hmem : ∀ x, x ∈ M' ∨ x ∈ W' → (s'.entry x).lru = false ∧ (s'.entry x).data ≠ none ∧ Q (s'.entry x))
    (hhist : ∀ x, x ∈ H' ∨ o = some x → (s'.entry x).lru = true ∧ (s'.entry x).data = none)
    (hcursor : ∀ e, s'.compressed = some e → e ∈ M') :
    Rep Q (s'.bucketRemove e) M' H' W' o (Function.update B (s.hashIndex e) (b₁ ++ b₂)) base where
  queues := hqueues
  table := by
    have hidx : hashOf s'.nbuckets (s'.entry e).key = s.hashIndex e := by
      rw [hs.key_eq, hs.nbuckets_eq]
      rfl
    unfold RamCacheCLFUS.bucketRemove
    dsimp only
    rw [hidx, hs.hashLink_eq, hs.bucket_eq, hs.nbuckets_eq]
    apply (h.table.remove he hB).congr fun x => (hheld x).symm
    intro x _
    rw [RamCacheCLFUS.hashIndex]
    dsimp only
    rw [hs.key_eq]
    rfl
  out := hout
  lt_next := by
    intro x hx
    have hlt := h.lt_next x ((hheld x).mp hx).1
    rw [← hs.next_eq] at hlt
    exact hlt
  fresh := by
    intro x hx
    apply hfresh x
    rw [← hs.next_eq]
    exact hx
  unique := by
    intro x y hx hy hkey
    apply h.unique x y ((hheld x).mp hx).1 ((hheld y).mp hy).1
    rw [← hs.key_eq x, ← hs.key_eq y]
    exact hkey
  objects_eq := hobjects
  history_eq := hhistory
  bytes_eq := hbytes
  memory := hmem
  history := hhist
  cursor := hcursor
  nbuckets_pos := by
    intro hmax
    have hpos := h.nbuckets_pos (hs.max_eq ▸ hmax)
    rw [← hs.nbuckets_eq] at hpos
    exact hpos

theorem mem_middle_iff {l₁ l₂ : List ℕ} (hnd : (l₁ ++ e :: l₂).Nodup) (x : ℕ) :
    x ∈ l₁ ++ l₂ ↔ x ∈ l₁ ++ e :: l₂ ∧ x ≠ e := by
  have hnot : e ∉ l₁ ++ l₂ := (List.nodup_cons.mp (List.nodup_middle.mp hnd)).1
  have hperm : (l₁ ++ e :: l₂).Perm (e :: (l₁ ++ l₂)) := List.perm_middle
  rw [hperm.mem_iff, List.mem_cons]
  constructor
  · intro hx
    refine ⟨Or.inr hx, ?_⟩
    rintro rfl
    exact hnot hx
  · rintro ⟨hx, hne⟩
    exact hx.resolve_left hne

theorem moveCompressed_eq (s : RamCacheCLFUS V) (e : ℕ) :
    ∃ n cur, s.moveCompressed e = { s with ncompressed := n, compressed := cur } := by
  unfold RamCacheCLFUS.moveCompressed
  by_cases hcur : s.compressed = some e
  · rw [if_pos hcur]
    cases s.lruLink.next e with
    | some n => exact ⟨s.ncompressed, some n, rfl⟩
    | none => exact ⟨s.ncompressed - 1, s.lruLink.prev e, rfl⟩
  · rw [if_neg hcur]
    exact ⟨s.ncompressed, s.compressed, rfl⟩

theorem modify_entry_self (s : RamCacheCLFUS V) (e : ℕ) (f : Entry → Entry) : (s.modify e f).entry e = f (s.entry e) :=
  Function.update_self ..

theorem modify_entry_of_ne (s : RamCacheCLFUS V) {e x : ℕ} (f : Entry → Entry) (hne : x ≠ e) :
    (s.modify e f).entry x = s.entry x :=
  Function.update_of_ne hne ..

/-- a field that `f` leaves alone -/
theorem modify_field {α : Type} {f : Entry → Entry} (hs : s' = s.modify e f) (p : Entry → α) (hf : ∀ y, p (f y) = p y) (x : ℕ) :
    p (s'.entry x) = p (s.entry x) := by
  rw [hs]
  by_cases hx : x = e
  · rw [hx, modify_entry_self, hf]
  · rw [modify_entry_of_ne s f hx]

theorem map_cost_congr {s s' : RamCacheCLFUS V} (h : ∀ x, (s'.entry x).size = (s.entry x).size) (l : List ℕ) :
    l.map s'.cost = l.map s.cost := by
  apply List.map_congr_left
  intro x _
  rw [RamCacheCLFUS.cost, RamCacheCLFUS.cost, h x]

theorem sum_cost_middle (s : RamCacheCLFUS V) (e : ℕ) (l₁ l₂ : List ℕ) :
    ((l₁ ++ e :: l₂).map s.cost).sum = ((l₁ ++ l₂).map s.cost).sum + s.cost e := by
  rw [List.map_append, List.map_cons, List.sum_append, List.sum_cons, List.map_append, List.sum_append]
  ring

/-- `destroy` of an entry in memory -/
theorem Rep.destroy_memory {b₁ b₂ : List ℕ} (h : Rep Q s (m₁ ++ e :: m₂) H W o B base)
    (hB : B (s.hashIndex e) = b₁ ++ e :: b₂) :
    Rep Q (s.destroy e).1 (m₁ ++ m₂) H W o (Function.update B (s.hashIndex e) (b₁ ++ b₂)) base ∧
    (s.destroy e).1.bytes = s.bytes - s.cost e := by
  have he : e ∈ m₁ ++ e :: m₂ := by simp
  have hmid := mem_middle_iff h.nodup_memory
  have hflag : (s.entry e).lru = false := (h.memory e (Or.inl he)).1
  obtain ⟨ht, hcur⟩ := h.moveCompressed e
  obtain ⟨n, cur, heq⟩ := moveCompressed_eq s e
  unfold RamCacheCLFUS.destroy
  dsimp only
  rw [heq] at ht hcur ⊢
  dsimp only at hcur ⊢
  rw [if_neg (by rw [hflag]; exact Bool.false_ne_true)]
  have hrem := h.queues.remove (i := .memory) rfl
  rw [update_lists_memory] at hrem
  refine ⟨ht.free ⟨rfl, rfl, rfl, rfl, rfl, ?_⟩ (Or.inl he) hB hrem ?_ ?_ ?_ ?_ h.history_eq ?_ ?_ ?_ ?_, rfl⟩
  · exact modify_field rfl Entry.key fun _ => rfl
  · intro x
    rw [Held, Held, hmid x]
    constructor
    · rintro (⟨hx, hne⟩ | hx)
      · exact ⟨Or.inl hx, hne⟩
      · refine ⟨Or.inr hx, ?_⟩
        rintro rfl
        rcases hx with hx | hx | hx
        · exact h.not_memory_history he hx
        · exact h.not_memory_victims he hx
        · exact (h.out x hx).1 he
    · rintro ⟨hx | hx, hne⟩
      · exact Or.inl ⟨hx, hne⟩
      · exact Or.inr hx
  · intro x hx
    exact ⟨fun hmem => (h.out x hx).1 ((hmid x).mp hmem).1, (h.out x hx).2⟩
  · intro x hx
    by_cases hxe : x = e
    · rw [hxe, modify_entry_self]
    · rw [modify_entry_of_ne _ _ hxe]
      exact h.fresh x hx
  · change s.objects - 1 = _
    rw [h.objects_eq]
    simp
    ring
  · change s.bytes - s.cost e = _
    rw [h.bytes_eq, sum_cost_middle]
    have hsize : ∀ x, ((s.modify e fun x => { x with data := none }).entry x).size = (s.entry x).size :=
      modify_field rfl Entry.size fun _ => rfl
    have hsum := congrArg List.sum (map_cost_congr hsize (m₁ ++ m₂))
    rw [add_sub_assoc, add_sub_cancel_right, ← hsum]
    rfl
  · intro x hx
    have hold : x ∈ m₁ ++ e :: m₂ ∨ x ∈ W := hx.imp_left fun hx => ((hmid x).mp hx).1
    have hne : x ≠ e := by
      rintro rfl
      exact hx.elim (fun hx => ((hmid x).mp hx).2 rfl) (h.not_memory_victims he)
    rw [modify_entry_of_ne _ _ hne]
    exact h.memory x hold
  · intro x hx
    have hne : x ≠ e := by
      rintro rfl
      exact hx.elim (h.not_memory_history he) fun hx => (h.out x hx).1 he
    rw [modify_entry_of_ne _ _ hne]
    exact h.history x hx
  · intro x hx
    refine (hmid x).mpr ⟨ht.cursor x hx, ?_⟩
    rintro rfl
    exact hcur hx

/-- `destroy` of an entry of the history -/
theorem Rep.destroy_history {b₁ b₂ : List ℕ} (h : Rep Q s M (l₁ ++ e :: l₂) W o B base)
    (hB : B (s.hashIndex e) = b₁ ++ e :: b₂) :
    Rep Q (s.destroy e).1 M (l₁ ++ l₂) W o (Function.update B (s.hashIndex e) (b₁ ++ b₂)) base ∧
    (s.destroy e).1.bytes = s.bytes := by
  have he : e ∈ l₁ ++ e :: l₂ := by simp
  have hmid := mem_middle_iff h.nodup_history
  have hflag : (s.entry e).lru = true := (h.history e (Or.inl he)).1
  obtain ⟨ht, _⟩ := h.moveCompressed e
  obtain ⟨n, cur, heq⟩ := moveCompressed_eq s e
  unfold RamCacheCLFUS.destroy
  dsimp only
  rw [heq] at ht ⊢
  dsimp only
  rw [if_pos hflag]
  have hrem := h.queues.remove (i := .history) rfl
  rw [update_lists_history] at hrem
  refine ⟨ht.free ⟨rfl, rfl, rfl, rfl, rfl, fun _ => rfl⟩ (Or.inr (Or.inl he)) hB hrem ?_ ?_ h.fresh h.objects_eq ?_ h.bytes_eq
    h.memory ?_ ht.cursor, rfl⟩
  · intro x
    rw [Held, Held, hmid x]
    constructor
    · rintro (hx | ⟨hx, hne⟩ | hx | hx)
      · exact ⟨Or.inl hx, fun heq => h.not_memory_history (heq ▸ hx) he⟩
      · exact ⟨Or.inr (Or.inl hx), hne⟩
      · exact ⟨Or.inr (Or.inr (Or.inl hx)), fun heq => h.not_history_victims he (heq ▸ hx)⟩
      · exact ⟨Or.inr (Or.inr (Or.inr hx)), fun heq => (h.out x hx).2.1 (heq ▸ he)⟩
    · rintro ⟨hx | hx | hx, hne⟩
      · exact Or.inl hx
      · exact Or.inr (Or.inl ⟨hx, hne⟩)
      · exact Or.inr (Or.inr hx)
  · intro x hx
    exact ⟨(h.out x hx).1, fun hmem => (h.out x hx).2.1 ((hmid x).mp hmem).1, (h.out x hx).2.2⟩
  · change s.history - 1 = _
    rw [h.history_eq]
    simp
    ring
  · intro x hx
    exact h.history x (hx.imp_left fun hx => ((hmid x).mp hx).1)

/-! ## Moves of `put` -/

theorem dequeue_cons {i : Lru} (h : Queues s.lruLink s.lru (lists M H W)) (hL : lists M H W i = e :: l) :
    ∃ k q, s.dequeue i = ({ s with lruLink := k, lru := q }, some e) ∧ Queues k q (Function.update (lists M H W) i l) := by
  obtain ⟨hret, hq⟩ := h.dequeue hL
  refine ⟨_, _, ?_, hq⟩
  unfold RamCacheCLFUS.dequeue
  rw [← hret]

theorem enqueue_eq {i : Lru} (h : Queues s.lruLink s.lru (lists M H W)) (he : e ∉ M ∧ e ∉ H ∧ e ∉ W) :
    ∃ k q, s.enqueue i e = { s with lruLink := k, lru := q } ∧
      Queues k q (Function.update (lists M H W) i (lists M H W i ++ [e])) :=
  ⟨_, _, rfl, h.enqueue (forall_not_mem_lists.mpr he)⟩

/-- an entry of the history is taken out -/
theorem Rep.take_out (h : Rep Q s M (l₁ ++ e :: l₂) W none B base) :
    Rep Q (s.lruRemove .history e) M (l₁ ++ l₂) W (some e) B base := by
  have he : e ∈ l₁ ++ e :: l₂ := by simp
  have hmid := mem_middle_iff h.nodup_history
  have hrem := h.queues.remove (i := .history) rfl
  rw [update_lists_history] at hrem
  refine h.relist ⟨rfl, rfl, rfl, rfl, rfl, fun _ => rfl⟩ hrem ?_ ?_ h.fresh h.objects_eq ?_ h.bytes_eq h.memory ?_ h.cursor
  · intro x
    simp only [Held, hmid x, Option.some.injEq, reduceCtorEq, or_false]
    by_cases hx : x = e
    · subst hx
      simp [he]
    · simp [hx, Ne.symm hx]
  · intro x hx
    obtain rfl := Option.some.inj hx
    exact ⟨fun hm => h.not_memory_history hm he, fun hm => ((hmid e).mp hm).2 rfl, h.not_history_victims he⟩
  · change s.history = _
    rw [h.history_eq]
    simp
    ring
  · rintro x (hx | hx)
    · exact h.history x (Or.inl ((hmid x).mp hx).1)
    · obtain rfl := Option.some.inj hx
      exact h.history e (Or.inl he)

/-- it goes back to the history -/
theorem Rep.put_back (h : Rep Q s M H W (some e) B base) : Rep Q (s.enqueue .history e) M (H ++ [e]) W none B base := by
  obtain ⟨k, q, heq, hq⟩ := enqueue_eq (i := .history) h.queues (h.out e rfl)
  rw [update_lists_history] at hq
  rw [heq]
  refine h.relist ⟨rfl, rfl, rfl, rfl, rfl, fun _ => rfl⟩ hq ?_ (by simp) h.fresh h.objects_eq ?_ h.bytes_eq h.memory ?_ h.cursor
  · intro x
    simp only [Held, List.mem_append, List.mem_singleton, Option.some.injEq, reduceCtorEq, or_false, eq_comm (a := e)]
    tauto
  · change s.history = _
    rw [h.history_eq]
    simp
  · intro x hx
    rw [List.mem_append, List.mem_singleton] at hx
    apply h.history x
    rcases hx with (hx | rfl) | hx
    · exact Or.inl hx
    · exact Or.inr rfl
    · exact absurd hx (by simp)

/-- a second chance: the first entry in memory becomes the last -/
theorem Rep.second_chance (h : Rep Q s (e :: M) H W o B base) (a : V) :
    ∃ t, s.dequeue .memory = (t, some e) ∧ t.entry = s.entry ∧ t.averageValue = s.averageValue ∧
      Rep Q ({ t with averageValue := a }.enqueue .memory e) (M ++ [e]) H W o B base := by
  obtain ⟨k, q, heq, hq⟩ := dequeue_cons (i := .memory) h.queues rfl
  rw [update_lists_memory] at hq
  refine ⟨_, heq, rfl, rfl, ?_⟩
  have he : e ∈ e :: M := List.mem_cons_self
  have hnot : e ∉ M ∧ e ∉ H ∧ e ∉ W :=
    ⟨(List.nodup_cons.mp h.nodup_memory).1, h.not_memory_history he, h.not_memory_victims he⟩
  have hperm : (M ++ [e]).Perm (e :: M) := List.perm_append_singleton e M
  obtain ⟨k', q', heq', hq'⟩ := enqueue_eq (s := { s with lruLink := k, lru := q, averageValue := a }) (i := .memory) hq hnot
  rw [update_lists_memory] at hq'
  rw [heq']
  refine h.relist ⟨rfl, rfl, rfl, rfl, rfl, fun _ => rfl⟩ hq' ?_ ?_ h.fresh ?_ h.history_eq ?_ ?_ h.history ?_
  · intro x
    rw [Held, Held, hperm.mem_iff]
  · intro x hx
    rw [hperm.mem_iff]
    exact h.out x hx
  · rw [hperm.length_eq]
    exact h.objects_eq
  · exact h.bytes_eq.trans (congrArg _ (hperm.map s.cost).sum_eq.symm)
  · intro x hx
    rw [hperm.mem_iff] at hx
    exact h.memory x hx
  · intro x hx
    rw [hperm.mem_iff]
    exact h.cursor x hx

theorem takeVictim_eq (s : RamCacheCLFUS V) (e : ℕ) :
    ∃ n cur, s.takeVictim e =
      { { s with bytes := s.bytes - withOverhead (s.entry e).size }.enqueue .victims e with ncompressed := n, compressed := cur } ∧
      ∀ x, cur = some x → s.compressed = some x ∧ x ≠ e := by
  unfold RamCacheCLFUS.takeVictim
  dsimp only
  have ht : ({ s with bytes := s.bytes - withOverhead (s.entry e).size }.enqueue .victims e).compressed = s.compressed := rfl
  generalize { s with bytes := s.bytes - withOverhead (s.entry e).size }.enqueue .victims e = t at ht
  by_cases hcur : t.compressed = some e
  · rw [if_pos hcur]
    exact ⟨_, none, rfl, by simp⟩
  · rw [if_neg hcur]
    refine ⟨_, t.compressed, rfl, fun x hx => ⟨ht ▸ hx, ?_⟩⟩
    rintro rfl
    exact hcur hx

/-- the first entry in memory becomes a victim -/
theorem Rep.takeVictim (h : Rep Q s (e :: M) H W o B base) (a : V) :
    ∃ t, s.dequeue .memory = (t, some e) ∧ t.entry = s.entry ∧ t.averageValue = s.averageValue ∧
      Rep Q ({ t with averageValue := a }.takeVictim e) M H (W ++ [e]) o B base ∧
      ({ t with averageValue := a }.takeVictim e).bytes = s.bytes - s.cost e ∧
      SameTable s ({ t with averageValue := a }.takeVictim e) ∧
      ({ t with averageValue := a }.takeVictim e).entry = s.entry := by
  obtain ⟨k, q, heq, hq⟩ := dequeue_cons (i := .memory) h.queues rfl
  rw [update_lists_memory] at hq
  refine ⟨_, heq, rfl, rfl, ?_⟩
  have he : e ∈ e :: M := List.mem_cons_self
  have hnot : e ∉ M ∧ e ∉ H ∧ e ∉ W :=
    ⟨(List.nodup_cons.mp h.nodup_memory).1, h.not_memory_history he, h.not_memory_victims he⟩
  obtain ⟨k', q', heq', hq'⟩ := enqueue_eq
    (s := { s with lruLink := k, lru := q, averageValue := a, bytes := s.bytes - withOverhead (s.entry e).size }) (i := .victims)
    hq hnot
  rw [update_lists_victims] at hq'
  obtain ⟨n, cur, hvict, hcur⟩ := takeVictim_eq { s with lruLink := k, lru := q, averageValue := a } e
  have hcurM : ∀ x, cur = some x → x ∈ M := by
    intro x hx
    obtain ⟨hold, hne⟩ := hcur x hx
    exact (List.mem_cons.mp (h.cursor x hold)).resolve_left hne
  rw [hvict]
  dsimp only at heq' ⊢
  rw [heq']
  refine ⟨?_, rfl, ⟨rfl, rfl, rfl, rfl, rfl, fun _ => rfl⟩, rfl⟩
  refine h.relist ⟨rfl, rfl, rfl, rfl, rfl, fun _ => rfl⟩ hq' ?_ ?_ h.fresh ?_ h.history_eq ?_ ?_ h.history hcurM
  · intro x
    simp only [Held, List.mem_cons, List.mem_append, List.not_mem_nil, or_false]
    tauto
  · intro x hx
    obtain ⟨hM, hH, hW⟩ := h.out x hx
    rw [List.mem_cons, not_or] at hM
    refine ⟨hM.2, hH, ?_⟩
    rw [List.mem_append, List.mem_singleton, not_or]
    exact ⟨hW, hM.1⟩
  · change s.objects = _
    rw [h.objects_eq]
    simp
    ring
  · change s.bytes - s.cost e = base + (M.map s.cost).sum
    rw [h.bytes_eq, List.map_cons, List.sum_cons]
    ring
  · intro x hx
    apply h.memory x
    rw [List.mem_append, List.mem_singleton] at hx
    rw [List.mem_cons]
    tauto

/-- what is known of an entry does not depend on its hits -/
def IgnoresHits (Q : Entry → Prop) : Prop := ∀ x n, Q x → Q { x with hits := n }

/-- the first victim goes back to memory -/
theorem Rep.requeue (hQ : IgnoresHits Q) (h : Rep Q s M H (e :: W) o B base) :
    ∃ t, s.dequeue .victims = (t, some e) ∧ t.bytes = s.bytes ∧ t.maxBytes = s.maxBytes ∧ t.entry = s.entry ∧
      Rep Q (t.requeue e) (M ++ [e]) H W o B base := by
  obtain ⟨k, q, heq, hq⟩ := dequeue_cons (i := .victims) h.queues rfl
  rw [update_lists_victims] at hq
  refine ⟨_, heq, rfl, rfl, rfl, ?_⟩
  have he : e ∈ e :: W := List.mem_cons_self
  have hnot : e ∉ M ∧ e ∉ H ∧ e ∉ W :=
    ⟨fun hm => h.not_memory_victims hm he, fun hm => h.not_history_victims hm he, (List.nodup_cons.mp h.nodup_victims).1⟩
  set t : RamCacheCLFUS V := { s with
    lruLink := k, lru := q, bytes := s.bytes + withOverhead (s.entry e).size } with ht
  set u := t.modify e fun x => { x with hits := REQUEUE_HITS x.hits } with hu
  have hkey : ∀ x, (u.entry x).key = (s.entry x).key := modify_field hu Entry.key fun _ => rfl
  have hsize : ∀ x, (u.entry x).size = (s.entry x).size := modify_field hu Entry.size fun _ => rfl
  have hlru : ∀ x, (u.entry x).lru = (s.entry x).lru := modify_field hu Entry.lru fun _ => rfl
  have hdata : ∀ x, (u.entry x).data = (s.entry x).data := modify_field hu Entry.data fun _ => rfl
  have hknown : ∀ x, Q (s.entry x) → Q (u.entry x) := by
    intro x hx
    by_cases hxe : x = e
    · rw [hxe, hu, modify_entry_self]
      exact hQ _ _ (hxe ▸ hx)
    · rw [hu, modify_entry_of_ne t _ hxe]
      exact hx
  obtain ⟨k', q', heq', hq'⟩ := enqueue_eq (s := u) (i := .memory) hq hnot
  rw [update_lists_memory] at hq'
  change Rep Q (u.enqueue .memory e) (M ++ [e]) H W o B base
  rw [heq']
  refine h.relist ⟨rfl, rfl, rfl, rfl, rfl, hkey⟩ hq' ?_ ?_ ?_ ?_ h.history_eq ?_ ?_
    ?_ ?_
  · intro x
    simp only [Held, List.mem_cons, List.mem_append, List.not_mem_nil, or_false]
    tauto
  · intro x hx
    obtain ⟨hM, hH, hW⟩ := h.out x hx
    rw [List.mem_cons, not_or] at hW
    refine ⟨?_, hH, hW.2⟩
    rw [List.mem_append, List.mem_singleton, not_or]
    exact ⟨hM, hW.1⟩
  · intro x hx
    rw [hdata x]
    exact h.fresh x hx
  · change s.objects = _
    rw [h.objects_eq]
    simp
    ring
  · change s.bytes + s.cost e = base + ((M ++ [e]).map u.cost).sum
    rw [map_cost_congr hsize, h.bytes_eq, List.map_append, List.sum_append, List.map_singleton, List.sum_singleton]
    ring
  · intro x hx
    rw [List.mem_append, List.mem_singleton] at hx
    have hold : x ∈ M ∨ x ∈ e :: W := by
      rw [List.mem_cons]
      tauto
    obtain ⟨h1, h2, h3⟩ := h.memory x hold
    exact ⟨(hlru x).trans h1, fun heq => h2 ((hdata x).symm.trans heq), hknown x h3⟩
  · intro x hx
    obtain ⟨h1, h2⟩ := h.history x hx
    exact ⟨(hlru x).trans h1, (hdata x).trans h2⟩
  · exact fun x hx => List.mem_append_left _ (h.cursor x hx)

/-- the first victim goes to the history -/
theorem Rep.victimize (h : Rep Q s M H (e :: W) o B base) :
    ∃ t, s.dequeue .victims = (t, some e) ∧ t.bytes = s.bytes ∧ t.maxBytes = s.maxBytes ∧ t.entry = s.entry ∧
      Rep Q (t.victimize e) M (H ++ [e]) W o B base := by
  obtain ⟨k, q, heq, hq⟩ := dequeue_cons (i := .victims) h.queues rfl
  rw [update_lists_victims] at hq
  refine ⟨_, heq, rfl, rfl, rfl, ?_⟩
  have he : e ∈ e :: W := List.mem_cons_self
  have hnot : e ∉ M ∧ e ∉ H ∧ e ∉ W :=
    ⟨fun hm => h.not_memory_victims hm he, fun hm => h.not_history_victims hm he, (List.nodup_cons.mp h.nodup_victims).1⟩
  set t : RamCacheCLFUS V := { s with lruLink := k, lru := q, objects := s.objects - 1 } with ht
  set u := t.modify e fun x => { x with data := none, lru := true } with hu
  have hself : u.entry e = { s.entry e with data := none, lru := true } := modify_entry_self t e _
  have hother : ∀ x, x ≠ e → u.entry x = s.entry x := fun x hx => modify_entry_of_ne t _ hx
  have hkey : ∀ x, (u.entry x).key = (s.entry x).key := modify_field hu Entry.key fun _ => rfl
  have hsize : ∀ x, (u.entry x).size = (s.entry x).size := modify_field hu Entry.size fun _ => rfl
  obtain ⟨k', q', heq', hq'⟩ := enqueue_eq (s := u) (i := .history) hq hnot
  rw [update_lists_history] at hq'
  change Rep Q { u.enqueue .history e with history := s.history + 1 } M (H ++ [e]) W o B base
  rw [heq']
  refine h.relist ⟨rfl, rfl, rfl, rfl, rfl, hkey⟩ hq' ?_ ?_ ?_ ?_ ?_ ?_ ?_ ?_
    h.cursor
  · intro x
    simp only [Held, List.mem_cons, List.mem_append, List.not_mem_nil, or_false]
    tauto
  · intro x hx
    obtain ⟨hM, hH, hW⟩ := h.out x hx
    rw [List.mem_cons, not_or] at hW
    refine ⟨hM, ?_, hW.2⟩
    rw [List.mem_append, List.mem_singleton, not_or]
    exact ⟨hH, hW.1⟩
  · intro x hx
    by_cases hxe : x = e
    · rw [hxe, hself]
    · rw [hother x hxe]
      exact h.fresh x hx
  · change s.objects - 1 = _
    rw [h.objects_eq]
    simp
    ring
  · change s.history + 1 = _
    rw [h.history_eq]
    simp
    ring
  · change s.bytes = base + (M.map u.cost).sum
    rw [map_cost_congr hsize]
    exact h.bytes_eq
  · intro x hx
    have hne : x ≠ e := by
      rintro rfl
      exact hx.elim hnot.1 hnot.2.2
    rw [hother x hne]
    exact h.memory x (hx.imp_right (List.mem_cons_of_mem e))
  · intro x hx
    by_cases hxe : x = e
    · rw [hxe, hself]
      exact ⟨rfl, rfl⟩
    · rw [hother x hxe]
      apply h.history x
      rw [List.mem_append, List.mem_singleton] at hx
      tauto

/-! ### The clock of the history -/

/-- nothing that identifies an entry changes, and no size -/
structure Quiet (s s' : RamCacheCLFUS V) : Prop where
  max_eq : s'.maxBytes = s.maxBytes
  next_eq : s'.nextEntry = s.nextEntry
  size_eq : ∀ x, (s'.entry x).size = (s.entry x).size
  key_eq : ∀ x, (s'.entry x).key = (s.entry x).key
  aux_eq : ∀ x, (s'.entry x).auxkey1 = (s.entry x).auxkey1 ∧ (s'.entry x).auxkey2 = (s.entry x).auxkey2

theorem Quiet.refl (s : RamCacheCLFUS V) : Quiet s s := ⟨rfl, rfl, fun _ => rfl, fun _ => rfl, fun _ => ⟨rfl, rfl⟩⟩

theorem Quiet.trans {s₁ s₂ s₃ : RamCacheCLFUS V} (h : Quiet s₁ s₂) (h' : Quiet s₂ s₃) : Quiet s₁ s₃ :=
  ⟨h'.max_eq.trans h.max_eq, h'.next_eq.trans h.next_eq, fun x => (h'.size_eq x).trans (h.size_eq x),
    fun x => (h'.key_eq x).trans (h.key_eq x),
    fun x => ⟨(h'.aux_eq x).1.trans (h.aux_eq x).1, (h'.aux_eq x).2.trans (h.aux_eq x).2⟩⟩

theorem modify_quiet {f : Entry → Entry} (hs : s' = s.modify e f)
    (hf : ∀ x, (f x).size = x.size ∧ (f x).key = x.key ∧ (f x).auxkey1 = x.auxkey1 ∧ (f x).auxkey2 = x.auxkey2) : Quiet s s' where
  max_eq := by rw [hs]; rfl
  next_eq := by rw [hs]; rfl
  size_eq := modify_field hs Entry.size fun y => (hf y).1
  key_eq := modify_field hs Entry.key fun y => (hf y).2.1
  aux_eq x := ⟨modify_field hs Entry.auxkey1 (fun y => (hf y).2.2.1) x, modify_field hs Entry.auxkey2 (fun y => (hf y).2.2.2) x⟩

/-- the first entry of the history has left the queue and is freed -/
theorem Rep.freeHistory (h : Rep Q s M (e :: H) W o B base) (hs : SameTable s s')
    (hq : Queues s'.lruLink s'.lru (lists M H W)) (hother : ∀ x, x ≠ e → s'.entry x = s.entry x)
    (hdata : (s'.entry e).data = none) (hsize : ∀ x, (s'.entry x).size = (s.entry x).size) (hobjects : s'.objects = s.objects)
    (hhistory : s'.history = s.history) (hbytes : s'.bytes = s.bytes) (hcursor : s'.compressed = s.compressed) :
    ∃ B', Rep Q (s'.freeHistory e) M H W o B' base := by
  have he : e ∈ e :: H := List.mem_cons_self
  have hheld : Held M (e :: H) W o e := Or.inr (Or.inl he)
  have hnot : e ∉ H := (List.nodup_cons.mp h.nodup_history).1
  obtain ⟨b₁, b₂, hB⟩ := List.append_of_mem (h.table.mem_chain hheld).2
  set t := s'.modify e fun x => { x with lru := false } with ht
  have htother : ∀ x, x ≠ e → t.entry x = s.entry x := fun x hx => (modify_entry_of_ne s' _ hx).trans (hother x hx)
  have htsize : ∀ x, (t.entry x).size = (s.entry x).size := fun x =>
    (modify_field ht Entry.size (fun _ => rfl) x).trans (hsize x)
  have hkey : ∀ x, (t.entry x).key = (s.entry x).key := fun x =>
    (modify_field ht Entry.key (fun _ => rfl) x).trans (hs.key_eq x)
  have hneM : ∀ x, x ∈ M ∨ x ∈ W → x ≠ e := by
    rintro x hx rfl
    exact hx.elim (fun hm => h.not_memory_history hm he) (h.not_history_victims he)
  refine ⟨Function.update B (s.hashIndex e) (b₁ ++ b₂), ?_⟩
  change Rep Q (RamCacheCLFUS.bucketRemove { t with history := s'.history - 1 } e) M H W o _ base
  refine h.free ⟨hs.hashLink_eq, hs.bucket_eq, hs.nbuckets_eq, hs.next_eq, hs.max_eq, hkey⟩ hheld hB hq ?_ ?_ ?_ ?_ ?_ ?_ ?_ ?_ ?_
  · intro x
    rw [Held, Held, List.mem_cons]
    constructor
    · intro hx
      refine ⟨by tauto, ?_⟩
      rintro rfl
      rcases hx with hx | hx | hx | hx
      · exact hneM x (Or.inl hx) rfl
      · exact hnot hx
      · exact hneM x (Or.inr hx) rfl
      · exact (h.out x hx).2.1 he
    · tauto
  · intro x hx
    exact ⟨(h.out x hx).1, fun hm => (h.out x hx).2.1 (List.mem_cons_of_mem e hm), (h.out x hx).2.2⟩
  · intro x hx
    by_cases hxe : x = e
    · rw [hxe]
      exact (modify_field ht Entry.data (fun _ => rfl) e).trans hdata
    · change (t.entry x).data = none
      rw [htother x hxe]
      exact h.fresh x hx
  · exact hobjects.trans h.objects_eq
  · change s'.history - 1 = _
    rw [hhistory, h.history_eq]
    simp
    ring
  · change s'.bytes = base + (M.map t.cost).sum
    rw [map_cost_congr htsize, hbytes]
    exact h.bytes_eq
  · intro x hx
    change (t.entry x).lru = false ∧ (t.entry x).data ≠ none ∧ Q (t.entry x)
    rw [htother x (hneM x hx)]
    exact h.memory x hx
  · intro x hx
    have hne : x ≠ e := by
      rintro rfl
      exact hx.elim hnot fun hx => (h.out x hx).2.1 he
    change (t.entry x).lru = true ∧ (t.entry x).data = none
    rw [htother x hne]
    exact h.history x (hx.imp_left (List.mem_cons_of_mem e))
  · intro x hx
    exact h.cursor x (hcursor ▸ hx)

theorem freeHistory_quiet (s : RamCacheCLFUS V) (e : ℕ) : Quiet s (s.freeHistory e) := by
  have hquiet : Quiet s (s.modify e fun x => { x with lru := false }) := modify_quiet rfl fun _ => ⟨rfl, rfl, rfl, rfl⟩
  exact ⟨rfl, rfl, hquiet.size_eq, hquiet.key_eq, hquiet.aux_eq⟩

/-- the first entry of the history, with other hits, becomes the last -/
theorem Rep.cycleHistory (h : Rep Q s M (e :: H) W o B base) (hs : SameTable s s')
    (hq : Queues s'.lruLink s'.lru (lists M H W)) (hother : ∀ x, x ≠ e → s'.entry x = s.entry x)
    (hlru : (s'.entry e).lru = true) (hdata : (s'.entry e).data = none) (hsize : ∀ x, (s'.entry x).size = (s.entry x).size)
    (hobjects : s'.objects = s.objects) (hhistory : s'.history = s.history) (hbytes : s'.bytes = s.bytes)
    (hcursor : s'.compressed = s.compressed) : Rep Q (s'.enqueue .history e) M (H ++ [e]) W o B base := by
  have he : e ∈ e :: H := List.mem_cons_self
  have hnot : e ∉ M ∧ e ∉ H ∧ e ∉ W :=
    ⟨fun hm => h.not_memory_history hm he, (List.nodup_cons.mp h.nodup_history).1, h.not_history_victims he⟩
  have hperm : (H ++ [e]).Perm (e :: H) := List.perm_append_singleton e H
  obtain ⟨k, q, heq, hq'⟩ := enqueue_eq (i := .history) hq hnot
  rw [update_lists_history] at hq'
  rw [heq]
  refine h.relist ⟨hs.hashLink_eq, hs.bucket_eq, hs.nbuckets_eq, hs.next_eq, hs.max_eq, hs.key_eq⟩ hq' ?_ ?_ ?_
    (hobjects.trans h.objects_eq) ?_ ?_ ?_ ?_ ?_
  · intro x
    rw [Held, Held, hperm.mem_iff]
  · intro x hx
    rw [hperm.mem_iff]
    exact h.out x hx
  · intro x hx
    by_cases hxe : x = e
    · rw [hxe]
      exact hdata
    · change (s'.entry x).data = none
      rw [hother x hxe]
      exact h.fresh x hx
  · rw [hperm.length_eq]
    exact hhistory.trans h.history_eq
  · change s'.bytes = base + (M.map s'.cost).sum
    rw [map_cost_congr hsize, hbytes]
    exact h.bytes_eq
  · intro x hx
    have hne : x ≠ e := by
      rintro rfl
      exact hx.elim hnot.1 hnot.2.2
    change (s'.entry x).lru = false ∧ (s'.entry x).data ≠ none ∧ Q (s'.entry x)
    rw [hother x hne]
    exact h.memory x hx
  · intro x hx
    by_cases hxe : x = e
    · rw [hxe]
      exact ⟨hlru, hdata⟩
    · rw [hperm.mem_iff] at hx
      change (s'.entry x).lru = true ∧ (s'.entry x).data = none
      rw [hother x hxe]
      exact h.history x hx
  · intro x hx
    exact h.cursor x (hcursor ▸ hx)

theorem Rep.tick (h : Rep Q s M H W o B base) : ∃ H' B', H' ⊆ H ∧ Rep Q s.tick M H' W o B' base ∧ Quiet s s.tick := by
  unfold RamCacheCLFUS.tick
  cases H with
  | nil =>
    rw [dequeue_nil h.queues rfl]
    exact ⟨[], B, List.Subset.refl _, h, Quiet.refl s⟩
  | cons e H =>
    obtain ⟨k, q, heq, hq⟩ := dequeue_cons (i := .history) h.queues rfl
    rw [update_lists_history] at hq
    rw [heq]
    dsimp only
    obtain ⟨hlru, hdata⟩ := h.history e (Or.inl List.mem_cons_self)
    set t : RamCacheCLFUS V := { s with lruLink := k, lru := q } with ht
    set t₁ := t.modify e fun x => { x with hits := x.hits / 2 } with ht₁
    have hquiet₀ : Quiet s t := ⟨rfl, rfl, fun _ => rfl, fun _ => rfl, fun _ => ⟨rfl, rfl⟩⟩
    have hquiet₁ : Quiet s t₁ := hquiet₀.trans (modify_quiet ht₁ fun _ => ⟨rfl, rfl, rfl, rfl⟩)
    have hlru₁ : (t₁.entry e).lru = true := (modify_field ht₁ Entry.lru (fun _ => rfl) e).trans hlru
    have hdata₁ : (t₁.entry e).data = none := (modify_field ht₁ Entry.data (fun _ => rfl) e).trans hdata
    have hother₁ : ∀ x, x ≠ e → t₁.entry x = s.entry x := fun x hx => modify_entry_of_ne t _ hx
    by_cases hzero : (t₁.entry e).hits = 0
    · rw [if_pos hzero]
      have hsame : SameTable s t₁ := ⟨rfl, rfl, rfl, rfl, rfl, hquiet₁.key_eq⟩
      obtain ⟨B', hfree⟩ := h.freeHistory hsame hq hother₁ hdata₁ hquiet₁.size_eq rfl rfl rfl rfl
      exact ⟨H, B', List.subset_cons_self e H, hfree, hquiet₁.trans (freeHistory_quiet t₁ e)⟩
    · rw [if_neg hzero]
      set t₂ := t₁.modify e fun x => { x with hits := REQUEUE_HITS x.hits } with ht₂
      have hquiet₂ : Quiet s t₂ := hquiet₁.trans (modify_quiet ht₂ fun _ => ⟨rfl, rfl, rfl, rfl⟩)
      have hother₂ : ∀ x, x ≠ e → t₂.entry x = s.entry x := fun x hx => (modify_entry_of_ne t₁ _ hx).trans (hother₁ x hx)
      have hlru₂ : (t₂.entry e).lru = true := (modify_field ht₂ Entry.lru (fun _ => rfl) e).trans hlru₁
      have hdata₂ : (t₂.entry e).data = none := (modify_field ht₂ Entry.data (fun _ => rfl) e).trans hdata₁
      have hsame : SameTable s t₂ := ⟨rfl, rfl, rfl, rfl, rfl, hquiet₂.key_eq⟩
      have hrep := h.cycleHistory hsame hq hother₂ hlru₂ hdata₂ hquiet₂.size_eq rfl rfl rfl rfl
      have hquiet₃ : Quiet s (t₂.enqueue .history e) :=
        ⟨hquiet₂.max_eq, hquiet₂.next_eq, hquiet₂.size_eq, hquiet₂.key_eq, hquiet₂.aux_eq⟩
      have hsub : H ++ [e] ⊆ e :: H := (List.perm_append_singleton e H).subset
      generalize t₂.enqueue .history e = u at hrep hquiet₃ ⊢
      by_cases hle : u.history ≤ u.objects + HISTORY_HYSTERIA
      · rw [if_pos hle]
        exact ⟨H ++ [e], B, hsub, hrep, hquiet₃⟩
      · rw [if_neg hle]
        obtain ⟨e', H', hH⟩ : ∃ e' H', H ++ [e] = e' :: H' := List.exists_cons_of_ne_nil (by simp)
        rw [hH] at hrep hsub
        obtain ⟨k', q', heq', hq'⟩ := dequeue_cons (i := .history) hrep.queues rfl
        rw [update_lists_history] at hq'
        rw [heq']
        dsimp only
        have hdata' := (hrep.history e' (Or.inl List.mem_cons_self)).2
        have hsame' : SameTable u { u with lruLink := k', lru := q' } := ⟨rfl, rfl, rfl, rfl, rfl, fun _ => rfl⟩
        obtain ⟨B', hfree⟩ := hrep.freeHistory hsame' hq' (fun _ _ => rfl) hdata' (fun _ => rfl) rfl rfl rfl rfl
        have hquiet₄ : Quiet u { u with lruLink := k', lru := q' } := ⟨rfl, rfl, fun _ => rfl, fun _ => rfl, fun _ => ⟨rfl, rfl⟩⟩
        exact ⟨H', B', List.Subset.trans (List.subset_cons_self e' H') hsub, hfree, (hquiet₃.trans hquiet₄).trans (freeHistory_quiet _ e')⟩

end TrafficServer.Cache.CLFUS
