/-
Hash tables of intrusive chains: an array of lists of `Dll` with the cells of all of them linked by the same fields.

`HashOk` says which cells the table holds, `P`, and that each is in the chain of its hash. Removing a cell from its chain and
pushing a new one keep it, and a walk along a chain finds the first cell it looks for. `rehash` is how a table is replaced by
one of another size in place: the cells are popped from the old chains and pushed to the new ones, with the same links.
-/
import Mathlib.Tactic
import TrafficServer.Lib.Dll

namespace TrafficServer.HashChain

open TrafficServer.Dll

section Operations

variable {α : Type}

/-- the first cell of a chain that `p` holds of -/
def find (k : Links α) (p : α → Bool) : ℕ → Option α → Option α
  | 0, _ => none
  | _ + 1, none => none
  | fuel + 1, some e => if p e then some e else find k p fuel (k.next e)

variable [DecidableEq α]

/-- one old chain into the new table -/
def drain (hash : α → ℕ) : ℕ → Links α → Option α → (ℕ → Option α) → Links α × (ℕ → Option α)
  | 0, k, _, newBucket => (k, newBucket)
  | fuel + 1, k, head, newBucket =>
    match pop k head with
    | (k, _, none) => (k, newBucket)
    | (k, head, some e) =>
      let r := push k (newBucket (hash e)) e
      drain hash fuel r.1 head (Function.update newBucket (hash e) r.2)

/-- the `n` old chains into an empty table; `fuel` bounds the length of a chain -/
def rehash (hash : α → ℕ) (fuel n : ℕ) (k : Links α) (bucket : ℕ → Option α) : Links α × (ℕ → Option α) :=
  (List.range n).foldl (fun r i => drain hash fuel r.1 (bucket i) r.2) (k, fun _ => none)

end Operations

/-! ## The cells of a table -/

variable {α : Type}

/-- the chains hold the entries of `P`, each in the one of its hash -/
structure HashOk (k : Links α) (bucket : ℕ → Option α) (n : ℕ) (hash : α → ℕ) (P : α → Prop) (B : ℕ → List α) : Prop where
  chain : ∀ b < n, IsDll k (bucket b) (B b)
  place : ∀ b < n, ∀ e ∈ B b, hash e = b
  mem : ∀ e, P e ↔ ∃ b < n, e ∈ B b

variable {k k' : Links α} {bucket : ℕ → Option α} {n : ℕ} {e : α} {hash hash' : α → ℕ} {P P' : α → Prop} {B : ℕ → List α}
  {m₁ m₂ : List α}

theorem HashOk.mem_chain (h : HashOk k bucket n hash P B) (he : P e) : hash e < n ∧ e ∈ B (hash e) := by
  obtain ⟨b, hb, hmem⟩ := (h.mem e).mp he
  rw [h.place b hb e hmem]
  exact ⟨hb, hmem⟩

theorem HashOk.congr (h : HashOk k bucket n hash P B) (hP : ∀ x, P x ↔ P' x)
    (hhash : ∀ x, P x → hash' x = hash x) : HashOk k bucket n hash' P' B := by
  refine ⟨h.chain, fun b hb x hx => ?_, fun x => (hP x).symm.trans (h.mem x)⟩
  rw [hhash x ((h.mem x).mpr ⟨b, hb, hx⟩)]
  exact h.place b hb x hx

theorem HashOk.frame (h : HashOk k bucket n hash P B) (hf : ∀ x, P x → k'.next x = k.next x ∧ k'.prev x = k.prev x) :
    HashOk k' bucket n hash P B := by
  refine ⟨fun b hb => ?_, h.place, h.mem⟩
  obtain ⟨t, ht⟩ := h.chain b hb
  exact ⟨t, ht.congr (fun x hx => (hf x ((h.mem x).mpr ⟨b, hb, hx⟩)).1) fun x hx => (hf x ((h.mem x).mpr ⟨b, hb, hx⟩)).2⟩

theorem hashOk_empty (k : Links α) (n : ℕ) (hash : α → ℕ) : HashOk k (fun _ => none) n hash (fun _ => False) fun _ => [] :=
  ⟨fun _ _ => isDll_nil, by simp, by simp⟩

/-! ### Walks -/

/-- the walk along a chain finds the first cell it looks for -/
theorem find_eq {head : Option α} {p : α → Bool} {fuel : ℕ} (hdll : IsDll k head (m₁ ++ m₂)) (hfuel : m₂.length < fuel) :
    find k p fuel m₂.head? = m₂.find? p := by
  induction m₂ generalizing m₁ fuel with
  | nil =>
    obtain ⟨fuel, rfl⟩ : ∃ m, fuel = m + 1 := ⟨fuel - 1, by omega⟩
    rfl
  | cons e m₂ ih =>
    obtain ⟨fuel, rfl⟩ : ∃ m, fuel = m + 1 := ⟨fuel - 1, by omega⟩
    rw [List.head?_cons, find, List.find?_cons, hdll.next_eq]
    have hdll' : IsDll k head (m₁ ++ [e] ++ m₂) := by rwa [List.append_assoc]
    cases hp : p e with
    | true => rfl
    | false =>
      rw [if_neg Bool.false_ne_true, ih hdll' (by simp at hfuel; omega)]

/-- a walk along chain `b` -/
theorem HashOk.find_eq (h : HashOk k bucket n hash P B) {b fuel : ℕ} (hb : b < n) (hfuel : (B b).length < fuel) (p : α → Bool) :
    find k p fuel (bucket b) = (B b).find? p := by
  have hdll : IsDll k (bucket b) ([] ++ B b) := h.chain b hb
  have hhead : bucket b = (B b).head? := hdll.head_eq
  rw [hhead, HashChain.find_eq hdll hfuel]

/-! ## Rules -/

variable [DecidableEq α]

theorem HashOk.remove (h : HashOk k bucket n hash P B) (he : P e) (hB : B (hash e) = m₁ ++ e :: m₂) :
    HashOk (Dll.remove k (bucket (hash e)) e).1 (Function.update bucket (hash e) (Dll.remove k (bucket (hash e)) e).2) n hash
      (fun x => P x ∧ x ≠ e) (Function.update B (hash e) (m₁ ++ m₂)) := by
  have hlt := (h.mem_chain he).1
  have hdll := h.chain (hash e) hlt
  rw [hB] at hdll
  obtain ⟨hrem, hframe, _⟩ := remove_rule hdll
  have hnd := hdll.nodup
  have hmem : ∀ x, x ∈ m₁ ++ m₂ ↔ x ∈ m₁ ++ e :: m₂ ∧ x ≠ e := by
    intro x
    have hl₁ : e ∉ m₁ := fun hm => (List.nodup_append.mp hnd).2.2 e hm e List.mem_cons_self rfl
    have hl₂ : e ∉ m₂ := (List.nodup_cons.mp (List.nodup_append.mp hnd).2.1).1
    constructor
    · intro hx
      refine ⟨?_, ?_⟩
      · rcases List.mem_append.mp hx with hx | hx
        · exact List.mem_append_left _ hx
        · exact List.mem_append_right _ (List.mem_cons_of_mem e hx)
      · rintro rfl
        exact (List.mem_append.mp hx).elim hl₁ hl₂
    · rintro ⟨hx, hne⟩
      rcases List.mem_append.mp hx with hx | hx
      · exact List.mem_append_left _ hx
      · exact List.mem_append_right _ ((List.mem_cons.mp hx).resolve_left hne)
  have hother : ∀ b < n, b ≠ hash e → ∀ x ∈ B b, x ∉ m₁ ++ e :: m₂ := by
    intro b hb hbne x hx hx'
    rw [← hB] at hx'
    exact hbne ((h.place b hb x hx).symm.trans (h.place _ hlt x hx'))
  refine ⟨fun b hb => ?_, fun b hb x hx => ?_, fun x => ?_⟩
  · by_cases hbe : b = hash e
    · subst hbe
      rw [Function.update_self, Function.update_self]
      exact hrem
    · rw [Function.update_of_ne hbe, Function.update_of_ne hbe]
      exact (h.chain b hb).frame hframe (hother b hb hbe)
  · by_cases hbe : b = hash e
    · subst hbe
      rw [Function.update_self] at hx
      apply h.place _ hb
      rw [hB]
      exact ((hmem x).mp hx).1
    · rw [Function.update_of_ne hbe] at hx
      exact h.place b hb x hx
  · rw [h.mem x]
    constructor
    · rintro ⟨⟨b, hb, hx⟩, hne⟩
      refine ⟨b, hb, ?_⟩
      by_cases hbe : b = hash e
      · subst hbe
        rw [Function.update_self, hmem]
        rw [hB] at hx
        exact ⟨hx, hne⟩
      · rw [Function.update_of_ne hbe]
        exact hx
    · rintro ⟨b, hb, hx⟩
      by_cases hbe : b = hash e
      · subst hbe
        rw [Function.update_self, hmem, ← hB] at hx
        exact ⟨⟨_, hb, hx.1⟩, hx.2⟩
      · rw [Function.update_of_ne hbe] at hx
        refine ⟨⟨b, hb, hx⟩, ?_⟩
        rintro rfl
        exact hbe (h.place b hb x hx).symm

theorem HashOk.push (h : HashOk k bucket n hash P B) (he : ¬ P e) (hdet : Detached k e) (hlt : hash e < n) :
    HashOk (push k (bucket (hash e)) e).1 (Function.update bucket (hash e) (push k (bucket (hash e)) e).2) n hash
      (fun x => P x ∨ x = e) (Function.update B (hash e) (e :: B (hash e))) ∧
    ∀ x, ¬ P x → x ≠ e → (push k (bucket (hash e)) e).1.next x = k.next x ∧ (push k (bucket (hash e)) e).1.prev x = k.prev x := by
  have hnot : ∀ b < n, e ∉ B b := fun b hb hmem => he ((h.mem e).mpr ⟨b, hb, hmem⟩)
  obtain ⟨hpush, hframe⟩ := push_rule (h.chain _ hlt) (hnot _ hlt) hdet
  refine ⟨⟨fun b hb => ?_, fun b hb x hx => ?_, fun x => ?_⟩, fun x hx hne => ?_⟩
  · by_cases hbe : b = hash e
    · subst hbe
      rw [Function.update_self, Function.update_self]
      exact hpush
    · rw [Function.update_of_ne hbe, Function.update_of_ne hbe]
      apply (h.chain b hb).frame hframe
      intro x hx hx'
      rcases List.mem_cons.mp hx' with rfl | hx'
      · exact hnot b hb hx
      · exact hbe ((h.place b hb x hx).symm.trans (h.place _ hlt x hx'))
  · by_cases hbe : b = hash e
    · subst hbe
      rw [Function.update_self] at hx
      rcases List.mem_cons.mp hx with rfl | hx
      · rfl
      · exact h.place _ hb x hx
    · rw [Function.update_of_ne hbe] at hx
      exact h.place b hb x hx
  · rw [h.mem x]
    constructor
    · rintro (⟨b, hb, hx⟩ | rfl)
      · refine ⟨b, hb, ?_⟩
        by_cases hbe : b = hash e
        · subst hbe
          rw [Function.update_self]
          exact List.mem_cons_of_mem _ hx
        · rw [Function.update_of_ne hbe]
          exact hx
      · exact ⟨hash x, hlt, by rw [Function.update_self]; exact List.mem_cons_self⟩
    · rintro ⟨b, hb, hx⟩
      by_cases hbe : b = hash e
      · subst hbe
        rw [Function.update_self] at hx
        rcases List.mem_cons.mp hx with rfl | hx
        · exact Or.inr rfl
        · exact Or.inl ⟨_, hb, hx⟩
      · rw [Function.update_of_ne hbe] at hx
        exact Or.inl ⟨b, hb, hx⟩
  · apply hframe
    rw [List.mem_cons, not_or]
    exact ⟨hne, fun hmem => hx ((h.mem x).mpr ⟨_, hlt, hmem⟩)⟩

/-! ### Rebuilding the table -/

section Resize

variable {newBucket : ℕ → Option α} {head : Option α} {l : List α}

/-- one old chain goes over to the new table; links outside the two are left alone -/
theorem drain_spec {fuel : ℕ} (hn : ∀ e, hash e < n) (hnew : HashOk k newBucket n hash P B)
    (hdll : IsDll k head l) (hdis : ∀ e ∈ l, ¬ P e) (hfuel : l.length < fuel) :
    ∃ B', HashOk (drain hash fuel k head newBucket).1 (drain hash fuel k head newBucket).2 n
        hash (fun x => P x ∨ x ∈ l) B' ∧
      ∀ x, ¬ P x → x ∉ l → (drain hash fuel k head newBucket).1.next x = k.next x ∧
        (drain hash fuel k head newBucket).1.prev x = k.prev x := by
  induction l generalizing k head newBucket P B fuel with
  | nil =>
    obtain ⟨fuel, rfl⟩ : ∃ m, fuel = m + 1 := ⟨fuel - 1, by omega⟩
    obtain rfl : head = none := hdll.head_eq
    exact ⟨B, hnew.congr (by simp) fun _ _ => rfl, fun _ _ _ => ⟨rfl, rfl⟩⟩
  | cons e l ih =>
    obtain ⟨fuel, rfl⟩ : ∃ m, fuel = m + 1 := ⟨fuel - 1, by omega⟩
    have hnd := List.nodup_cons.mp hdll.nodup
    obtain ⟨hret, hrest, hframe, hdet⟩ := pop_rule hdll
    rw [drain]
    generalize pop k head = r at hret hrest hframe hdet
    obtain ⟨k₁, head₁, ret⟩ := r
    obtain rfl : ret = some e := hret
    dsimp only at hrest hframe hdet ⊢
    have hnew₁ : HashOk k₁ newBucket n hash P B :=
      hnew.frame fun x hx => hframe x fun hmem => hdis x hmem hx
    obtain ⟨hpush, hkeep⟩ := hnew₁.push (hdis e List.mem_cons_self) hdet (hn e)
    have hrest' : IsDll (push k₁ (newBucket (hash e)) e).1 head₁ l := by
      obtain ⟨t, ht⟩ := hrest
      have hx : ∀ x ∈ l, ¬ P x ∧ x ≠ e := fun x hx =>
        ⟨hdis x (List.mem_cons_of_mem e hx), fun heq => hnd.1 (heq ▸ hx)⟩
      exact ⟨t, ht.congr (fun x hm => (hkeep x (hx x hm).1 (hx x hm).2).1) fun x hm => (hkeep x (hx x hm).1 (hx x hm).2).2⟩
    obtain ⟨B', hdone, hkeep'⟩ := ih hpush hrest'
      (fun x hx hor => hor.elim (hdis x (List.mem_cons_of_mem e hx)) fun heq => hnd.1 (heq ▸ hx)) (by simp at hfuel; omega)
    refine ⟨B', hdone.congr (fun x => ?_) fun _ _ => rfl, fun x hP hx => ?_⟩
    · rw [List.mem_cons, or_assoc]
    · rw [List.mem_cons, not_or] at hx
      obtain ⟨h1, h2⟩ := hkeep' x (not_or.mpr ⟨hP, hx.1⟩) hx.2
      obtain ⟨h3, h4⟩ := hkeep x hP hx.1
      obtain ⟨h5, h6⟩ := hframe x (by rw [List.mem_cons, not_or]; exact hx)
      exact ⟨h1.trans (h3.trans h5), h2.trans (h4.trans h6)⟩

/-- the first `i` chains have gone over, the others are as they were -/
theorem foldl_drain_spec {fuel m i : ℕ} (hn : ∀ e, hash e < n) (hold : HashOk k bucket m hash' P B)
    (hfuel : ∀ b < m, (B b).length < fuel) (hi : i ≤ m) :
    let r := (List.range i).foldl (fun r i => drain hash fuel r.1 (bucket i) r.2) (k, fun _ => none)
    ∃ B', HashOk r.1 r.2 n hash (fun x => ∃ b < i, x ∈ B b) B' ∧
      ∀ x, (∀ b < i, x ∉ B b) → r.1.next x = k.next x ∧ r.1.prev x = k.prev x := by
  induction i with
  | zero =>
    exact ⟨fun _ => [], (hashOk_empty k n _).congr (by simp) fun _ _ => rfl, fun _ _ => ⟨rfl, rfl⟩⟩
  | succ i ih =>
    obtain ⟨B₁, hnew, hkeep⟩ := ih (by omega)
    rw [List.range_succ, List.foldl_append, List.foldl_cons, List.foldl_nil]
    generalize (List.range i).foldl (fun r i => drain hash fuel r.1 (bucket i) r.2) (k, fun _ => none) = r
      at hnew hkeep ⊢
    have hdis : ∀ e ∈ B i, ¬ ∃ b < i, e ∈ B b := by
      rintro e he ⟨b, hb, hmem⟩
      have h1 := hold.place b (by omega) e hmem
      have h2 := hold.place i (by omega) e he
      omega
    have hdll : IsDll r.1 (bucket i) (B i) := by
      obtain ⟨t, ht⟩ := hold.chain i (by omega)
      have hx : ∀ x ∈ B i, ∀ b < i, x ∉ B b := fun x hx b hb hmem => hdis x hx ⟨b, hb, hmem⟩
      exact ⟨t, ht.congr (fun x hm => (hkeep x (hx x hm)).1) fun x hm => (hkeep x (hx x hm)).2⟩
    obtain ⟨B', hdone, hkeep'⟩ := drain_spec hn hnew hdll hdis (hfuel i (by omega))
    refine ⟨B', hdone.congr (fun x => ?_) fun _ _ => rfl, fun x hx => ?_⟩
    · constructor
      · rintro (⟨b, hb, hmem⟩ | hmem)
        · exact ⟨b, by omega, hmem⟩
        · exact ⟨i, by omega, hmem⟩
      · rintro ⟨b, hb, hmem⟩
        by_cases hbi : b = i
        · subst hbi
          exact Or.inr hmem
        · exact Or.inl ⟨b, by omega, hmem⟩
    · obtain ⟨h1, h2⟩ := hkeep' x (by rintro ⟨b, hb, hmem⟩; exact hx b (by omega) hmem) (hx i (by omega))
      obtain ⟨h3, h4⟩ := hkeep x fun b hb => hx b (by omega)
      exact ⟨h1.trans h3, h2.trans h4⟩

/-- the new table holds the cells of the old one, whatever the two sizes and hashes -/
theorem rehash_rule {fuel m : ℕ} (hn : ∀ e, hash e < n) (hold : HashOk k bucket m hash' P B)
    (hfuel : ∀ b < m, (B b).length < fuel) :
    ∃ B', HashOk (rehash hash fuel m k bucket).1 (rehash hash fuel m k bucket).2 n hash P B' := by
  obtain ⟨B', hnew, _⟩ := foldl_drain_spec hn hold hfuel (le_refl m)
  exact ⟨B', hnew.congr (fun x => (hold.mem x).symm) fun _ _ => rfl⟩

end Resize

end TrafficServer.HashChain
