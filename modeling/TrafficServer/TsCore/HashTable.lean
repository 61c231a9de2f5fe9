/-
`TSHashTable` (`include/tscore/Map.h`): chains of values in an array of buckets, the non-empty buckets on a list of their own.

The array grows when the average chain is longer than `DEFAULT_EXPANSION_LIMIT`: `expand` inserts every value again into an array of the
next size of `prime2`. `values` is what an iterator visits, bucket by bucket. `Ok` is the invariant, and the operations are described by
`values` up to a permutation: `insert_spec`, `remove_spec`, `find_some` and `find_none`. The policy is `AVERAGE`, the default, so
`m_mixed_p` is never read and is left out; a bucket's `m_count` is the length of its chain.
-/
import Mathlib

namespace TrafficServer.TsCore

def prime2 : List ℕ :=
  [1, 3, 7, 13, 31, 61, 127, 251, 509, 1021, 2039, 4093, 8191, 16381, 32749, 65521, 131071, 262139, 524287, 1048573, 2097143, 4194301,
    8388593, 16777213, 33554393, 67108859, 134217689, 268435399, 536870909]

def DEFAULT_EXPANSION_LIMIT : ℕ := 4

/-- the size of an array that has been expanded up to index `i` -/
def arraySize (i : ℕ) : ℕ := prime2.getD i 536870909

structure HashTable (α : Type*) where
  i : ℕ
  count : ℕ
  chain : ℕ → List α
  nonEmpty : List ℕ

namespace HashTable

variable {α : Type*}

/-- a new table has seven buckets -/
def init : HashTable α := ⟨2, 0, fun _ => [], []⟩

def size (t : HashTable α) : ℕ := arraySize t.i

/-- the values in the order of an iterator -/
def values (t : HashTable α) : List α := t.nonEmpty.flatMap t.chain

def begin (t : HashTable α) : Option α := t.nonEmpty.head?.bind fun b => (t.chain b).head?

variable (key : α → ℕ)

def find (t : HashTable α) (k : ℕ) : Option α := (t.chain (k % t.size)).find? fun v => key v = k

/-- the part of `insert` before the expansion -/
def link (t : HashTable α) (v : α) : HashTable α :=
  let b := key v % t.size
  { t with chain := Function.update t.chain b (v :: t.chain b), count := t.count + 1,
           nonEmpty := if (t.chain b).isEmpty then b :: t.nonEmpty else t.nonEmpty }

def expand (t : HashTable α) : HashTable α := t.values.foldl (link key) ⟨t.i + 1, 0, fun _ => [], []⟩

def insert (t : HashTable α) (v : α) : HashTable α :=
  let t := t.link key v
  if t.count / t.size > DEFAULT_EXPANSION_LIMIT then t.expand key else t

variable [DecidableEq α]

/-- `find(Value *)`: is the value in the chain of its key -/
def findValue (t : HashTable α) (v : α) : Option α := if v ∈ t.chain (key v % t.size) then some v else none

/-- `remove` at the location of a value -/
def remove (t : HashTable α) (v : α) : HashTable α :=
  let b := key v % t.size
  let chain := (t.chain b).erase v
  { t with chain := Function.update t.chain b chain, count := t.count - 1,
           nonEmpty := if chain.isEmpty then t.nonEmpty.erase b else t.nonEmpty }

end HashTable

/-! ## The invariant -/

/-- each value is in the chain of its key, and the list of non-empty buckets is right -/
structure HashTable.Ok {α : Type*} (key : α → ℕ) (t : HashTable α) : Prop where
  place : ∀ b, ∀ v ∈ t.chain b, key v % t.size = b
  nonEmpty : ∀ b, b ∈ t.nonEmpty ↔ t.chain b ≠ []
  nodup : t.nonEmpty.Nodup
  count : t.count = t.values.length

namespace HashTable.Ok

variable {α : Type*} {key key' : α → ℕ} {t : HashTable α} {v : α}

theorem mem_values (h : t.Ok key) : v ∈ t.values ↔ v ∈ t.chain (key v % t.size) := by
  unfold HashTable.values
  rw [List.mem_flatMap]
  constructor
  · rintro ⟨b, -, hv⟩
    rwa [h.place b v hv]
  · intro hv
    exact ⟨_, (h.nonEmpty _).mpr (List.ne_nil_of_mem hv), hv⟩

theorem init (key : α → ℕ) : (HashTable.init : HashTable α).Ok key :=
  ⟨fun _ _ hv => absurd hv List.not_mem_nil, fun _ => by simp [HashTable.init], List.nodup_nil, rfl⟩

/-- only the keys of the values matter -/
theorem congr (h : t.Ok key) (hk : ∀ v ∈ t.values, key' v = key v) : t.Ok key' := by
  refine ⟨fun b v hv => ?_, h.nonEmpty, h.nodup, h.count⟩
  have hmem : v ∈ t.values := List.mem_flatMap.mpr ⟨b, (h.nonEmpty b).mpr (List.ne_nil_of_mem hv), hv⟩
  rw [hk v hmem]
  exact h.place b v hv

theorem find_some {k : ℕ} (h : t.Ok key) (hf : t.find key k = some v) : v ∈ t.values ∧ key v = k := by
  have hkey : key v = k := by simpa using List.find?_some hf
  refine ⟨h.mem_values.mpr ?_, hkey⟩
  rw [hkey]
  exact List.mem_of_find?_eq_some hf

theorem find_none {k : ℕ} (h : t.Ok key) (hf : t.find key k = none) : ∀ v ∈ t.values, key v ≠ k := by
  intro v hv hk
  have hmem := h.mem_values.mp hv
  rw [hk] at hmem
  have := List.find?_eq_none.mp hf v hmem
  simp [hk] at this

/-- the values of two bucket lists that differ in one bucket -/
theorem flatMap_update {l : List ℕ} {f : ℕ → List α} {b : ℕ} (hb : b ∈ l) (hl : l.Nodup) (x : List α) :
    (l.flatMap (Function.update f b x)).Perm (x ++ (l.erase b).flatMap f) := by
  have hperm : (l.flatMap (Function.update f b x)).Perm ((b :: l.erase b).flatMap (Function.update f b x)) :=
    (List.perm_cons_erase hb).flatMap_right _
  have hrest : (l.erase b).flatMap (Function.update f b x) = (l.erase b).flatMap f := by
    refine List.flatMap_congr fun c hc => ?_
    exact Function.update_of_ne (fun heq => hl.not_mem_erase (heq ▸ hc)) _ _
  rwa [List.flatMap_cons, Function.update_self, hrest] at hperm

theorem link (h : t.Ok key) (v : α) : (t.link key v).Ok key ∧ (t.link key v).values.Perm (v :: t.values) := by
  generalize hb : key v % t.size = b
  have hlink : t.link key v =
      { t with chain := Function.update t.chain b (v :: t.chain b), count := t.count + 1,
               nonEmpty := if (t.chain b).isEmpty then b :: t.nonEmpty else t.nonEmpty } := by
    simp only [HashTable.link, hb]
  have hmem : ∀ c, c ∈ (t.link key v).nonEmpty ↔ c = b ∨ c ∈ t.nonEmpty := by
    intro c
    rw [hlink]
    dsimp only
    split_ifs with he
    · exact List.mem_cons
    · refine ⟨Or.inr, fun hc => hc.elim (fun heq => ?_) id⟩
      rw [heq, h.nonEmpty]
      simpa using he
  have hperm : (t.link key v).values.Perm (v :: t.values) := by
    rw [hlink]
    unfold HashTable.values
    dsimp only
    by_cases he : t.chain b = []
    · have hnot : b ∉ t.nonEmpty := fun hmem => (h.nonEmpty b).mp hmem he
      have hrest : t.nonEmpty.flatMap (Function.update t.chain b (v :: t.chain b)) = t.nonEmpty.flatMap t.chain := by
        refine List.flatMap_congr fun c hc => Function.update_of_ne ?_ _ _
        rintro rfl
        exact hnot hc
      rw [if_pos (by simp [he]), List.flatMap_cons, Function.update_self, hrest, he]
      exact List.Perm.refl _
    · have hin : b ∈ t.nonEmpty := (h.nonEmpty b).mpr he
      rw [if_neg (by simpa using he)]
      refine (flatMap_update hin h.nodup _).trans ?_
      exact List.Perm.cons v (((List.perm_cons_erase hin).flatMap_right t.chain).symm)
  refine ⟨⟨fun c w hw => ?_, fun c => ?_, ?_, ?_⟩, hperm⟩
  · rw [hlink] at hw ⊢
    dsimp only at hw
    rw [Function.update_apply] at hw
    split_ifs at hw with hc
    · rcases List.mem_cons.mp hw with rfl | hw
      · exact hb.trans hc.symm
      · rw [hc]
        exact h.place b w hw
    · exact h.place c w hw
  · rw [hmem, hlink]
    dsimp only
    rw [Function.update_apply]
    split_ifs with hc
    · simp [hc]
    · simp [hc, h.nonEmpty c]
  · rw [hlink]
    dsimp only
    split_ifs with he
    · refine List.nodup_cons.mpr ⟨fun hmem => (h.nonEmpty b).mp hmem (by simpa using he), h.nodup⟩
    · exact h.nodup
  · have hlen := hperm.length_eq
    rw [hlen, hlink]
    simp [h.count]

theorem expand (key : α → ℕ) (t : HashTable α) : (t.expand key).Ok key ∧ (t.expand key).values.Perm t.values := by
  have hfold : ∀ (l : List α) (u : HashTable α), u.Ok key →
      (l.foldl (HashTable.link key) u).Ok key ∧ (l.foldl (HashTable.link key) u).values.Perm (l ++ u.values) := by
    intro l
    induction l with
    | nil => exact fun u hu => ⟨hu, List.Perm.refl _⟩
    | cons v l ih =>
      intro u hu
      obtain ⟨hok, hperm⟩ := hu.link v
      obtain ⟨hok', hperm'⟩ := ih _ hok
      refine ⟨hok', hperm'.trans ?_⟩
      exact (hperm.append_left l).trans List.perm_middle
  have hempty : (⟨t.i + 1, 0, fun _ => [], []⟩ : HashTable α).Ok key :=
    ⟨fun _ _ hv => absurd hv List.not_mem_nil, fun _ => by simp, List.nodup_nil, rfl⟩
  obtain ⟨hok, hperm⟩ := hfold t.values _ hempty
  have hnil : (⟨t.i + 1, 0, fun _ => [], []⟩ : HashTable α).values = [] := rfl
  rw [hnil, List.append_nil] at hperm
  exact ⟨hok, hperm⟩

theorem insert (h : t.Ok key) (v : α) : (t.insert key v).Ok key ∧ (t.insert key v).values.Perm (v :: t.values) := by
  obtain ⟨hok, hperm⟩ := h.link v
  unfold HashTable.insert
  dsimp only
  split_ifs
  · obtain ⟨hok', hperm'⟩ := expand key (t.link key v)
    exact ⟨hok', hperm'.trans hperm⟩
  · exact ⟨hok, hperm⟩

theorem begin_eq (h : t.Ok key) : t.begin = t.values.head? := by
  unfold HashTable.begin HashTable.values
  cases hn : t.nonEmpty with
  | nil => rfl
  | cons b l =>
    have hne : t.chain b ≠ [] := (h.nonEmpty b).mp (by rw [hn]; exact List.mem_cons_self)
    rw [List.flatMap_cons, List.head?_append_of_ne_nil _ hne]
    rfl

variable [DecidableEq α]

theorem findValue_some (h : t.Ok key) (hv : v ∈ t.values) : t.findValue key v = some v := if_pos (h.mem_values.mp hv)

theorem remove (h : t.Ok key) (hv : v ∈ t.values) :
    (t.remove key v).Ok key ∧ t.values.Perm (v :: (t.remove key v).values) := by
  have hchain := h.mem_values.mp hv
  generalize hb : key v % t.size = b at hchain
  have hin : b ∈ t.nonEmpty := (h.nonEmpty b).mpr (List.ne_nil_of_mem hchain)
  have hremove : t.remove key v =
      { t with chain := Function.update t.chain b ((t.chain b).erase v), count := t.count - 1,
               nonEmpty := if ((t.chain b).erase v).isEmpty then t.nonEmpty.erase b else t.nonEmpty } := by
    simp only [HashTable.remove, hb]
  have hmem : ∀ c, c ∈ (t.remove key v).nonEmpty ↔ if c = b then (t.chain b).erase v ≠ [] else c ∈ t.nonEmpty := by
    intro c
    rw [hremove]
    dsimp only
    by_cases he : (t.chain b).erase v = []
    · rw [if_pos (by simp [he]), h.nodup.mem_erase_iff]
      split_ifs with hc <;> simp [hc, he]
    · rw [if_neg (by simpa using he)]
      split_ifs with hc
      · simp [hc, hin, he]
      · exact Iff.rfl
  have hperm : t.values.Perm (v :: (t.remove key v).values) := by
    have hold : t.values.Perm (t.chain b ++ (t.nonEmpty.erase b).flatMap t.chain) := by
      have := flatMap_update (f := t.chain) hin h.nodup (t.chain b)
      rwa [Function.update_eq_self] at this
    have hnew : (t.remove key v).values.Perm ((t.chain b).erase v ++ (t.nonEmpty.erase b).flatMap t.chain) := by
      rw [hremove]
      unfold HashTable.values
      dsimp only
      by_cases he : (t.chain b).erase v = []
      · have hrest : (t.nonEmpty.erase b).flatMap (Function.update t.chain b ((t.chain b).erase v)) =
            (t.nonEmpty.erase b).flatMap t.chain := by
          refine List.flatMap_congr fun c hc => ?_
          exact Function.update_of_ne (fun heq => h.nodup.not_mem_erase (heq ▸ hc)) _ _
        rw [if_pos (by simp [he]), hrest, he]
        exact List.Perm.refl _
      · rw [if_neg (by simpa using he)]
        exact flatMap_update hin h.nodup _
    have hcons : (t.chain b ++ (t.nonEmpty.erase b).flatMap t.chain).Perm
        (v :: ((t.chain b).erase v ++ (t.nonEmpty.erase b).flatMap t.chain)) :=
      (List.perm_cons_erase hchain).append_right _
    exact hold.trans (hcons.trans (List.Perm.cons v hnew.symm))
  refine ⟨⟨fun c w hw => ?_, fun c => ?_, ?_, ?_⟩, hperm⟩
  · rw [hremove] at hw ⊢
    dsimp only at hw
    rw [Function.update_apply] at hw
    split_ifs at hw with hc
    · rw [hc]
      exact h.place b w (List.mem_of_mem_erase hw)
    · exact h.place c w hw
  · rw [hmem, hremove]
    dsimp only
    rw [Function.update_apply]
    split_ifs with hc
    · exact Iff.rfl
    · exact h.nonEmpty c
  · rw [hremove]
    dsimp only
    split_ifs
    · exact h.nodup.erase b
    · exact h.nodup
  · have hlen := hperm.length_eq
    have hcount : (t.remove key v).count = t.count - 1 := by rw [hremove]
    rw [hcount, h.count, hlen, List.length_cons]
    omega

end HashTable.Ok

end TrafficServer.TsCore
