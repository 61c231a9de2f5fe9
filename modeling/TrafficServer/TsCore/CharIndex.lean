/-
`charIndex` and `hostArray` (`src/tscore/HostLookup.cc`): the two small maps from a label to a branch, and the hash table that takes over from
an array that is full.

A level of a `charIndex` has a slot for each legal character, which holds the branch of a key that ends there and the next level. A key with
another character goes into a hash table as a whole. The keys are in lower case; the table of the characters tells those apart
(`asciiToTable_inj`), so that inserting a key changes what is found under this key only (`CharIndex.lookup_insert`).
-/
import Mathlib

namespace TrafficServer.HostLookup

abbrev Bytes := List UInt8

/-- `asciiToTable`: `-`, digits, letters in both cases, `_`, and 255 for all others -/
def asciiToTable (c : UInt8) : ℕ :=
  if c = 45 then 0
  else if 48 ≤ c ∧ c ≤ 57 then c.toNat - 47
  else if 65 ≤ c ∧ c ≤ 90 then c.toNat - 54
  else if 97 ≤ c ∧ c ≤ 122 then c.toNat - 86
  else if c = 95 then 37
  else 255

/-- `ink_tolower`, and `tolower` in the C locale -/
def toLower (c : UInt8) : UInt8 := if 65 ≤ c ∧ c ≤ 90 then c + 32 else c

/-- without letters in upper case -/
def Lower (s : Bytes) : Prop := ∀ c ∈ s, toLower c = c

/-- the branch of a key that ends at a character, and the level behind it -/
inductive CharIndexEl where
  | mk (branch : ℕ → Option ℕ) (next : ℕ → Option CharIndexEl)

namespace CharIndexEl

def branch : CharIndexEl → ℕ → Option ℕ
  | mk b _ => b

def next : CharIndexEl → ℕ → Option CharIndexEl
  | mk _ n => n

def new : CharIndexEl := mk (fun _ => none) fun _ => none

def setBranch (el : CharIndexEl) (i v : ℕ) : CharIndexEl := mk (Function.update el.branch i (some v)) el.next

def setNext (el : CharIndexEl) (i : ℕ) (n : CharIndexEl) : CharIndexEl := mk el.branch (Function.update el.next i (some n))

/-- the loop of `Insert`; it says whether the key goes into the hash table -/
def insert (v : ℕ) : Bytes → CharIndexEl → CharIndexEl × Bool
  | [], el => (el, false)
  | c :: s, el =>
    if asciiToTable c = 255 then (el, true)
    else if s = [] then (el.setBranch (asciiToTable c) v, false)
    else
      let r := insert v s ((el.next (asciiToTable c)).getD new)
      (el.setNext (asciiToTable c) r.1, r.2)

/-- the loop of `Lookup`; `illegal` is what the hash table has under the key -/
def lookup (illegal : Option ℕ) : Bytes → CharIndexEl → Option ℕ
  | [], _ => none
  | c :: s, el =>
    if asciiToTable c = 255 then illegal
    else if s = [] then el.branch (asciiToTable c)
    else
      match el.next (asciiToTable c) with
      | none => none
      | some el => lookup illegal s el

end CharIndexEl

structure CharIndex where
  root : CharIndexEl
  illegalKey : Bytes → Option ℕ

namespace CharIndex

def new : CharIndex := ⟨CharIndexEl.new, fun _ => none⟩

def insert (ci : CharIndex) (key : Bytes) (v : ℕ) : CharIndex :=
  let r := ci.root.insert v key
  ⟨r.1, if r.2 then Function.update ci.illegalKey key (some v) else ci.illegalKey⟩

def lookup (ci : CharIndex) (key : Bytes) : Option ℕ := ci.root.lookup (ci.illegalKey key) key

end CharIndex

/-! ## The characters -/

/-- the character of an index -/
def ofTable (i : ℕ) : UInt8 := if i = 0 then 45 else if i ≤ 10 then (i + 47).toUInt8 else if i ≤ 36 then (i + 86).toUInt8 else 95

theorem ofTable_asciiToTable {c : UInt8} : toLower c = c → asciiToTable c ≠ 255 → ofTable (asciiToTable c) = c := by
  revert c
  decide +kernel

theorem asciiToTable_inj {c d : UInt8} (hc : toLower c = c) (hd : toLower d = d) (hl : asciiToTable c ≠ 255)
    (h : asciiToTable c = asciiToTable d) : c = d := by
  rw [← ofTable_asciiToTable hc hl, h, ofTable_asciiToTable hd (h ▸ hl)]

theorem Lower.tail {c : UInt8} {s : Bytes} (h : Lower (c :: s)) : toLower c = c ∧ Lower s :=
  ⟨h c List.mem_cons_self, fun d hd => h d (List.mem_cons_of_mem c hd)⟩

/-! ## `charIndex` -/

namespace CharIndexEl

theorem lookup_new (illegal : Option ℕ) (s : Bytes) : lookup illegal s new = none ∨ lookup illegal s new = illegal := by
  cases s with
  | nil => exact Or.inl rfl
  | cons c s =>
    rw [lookup]
    split_ifs
    · exact Or.inr rfl
    · exact Or.inl rfl
    · exact Or.inl rfl

/-- the key itself -/
theorem lookup_insert_self (v : ℕ) {key : Bytes} (hk : key ≠ []) (el : CharIndexEl) (illegal : Option ℕ)
    (hi : (insert v key el).2 = true → illegal = some v) : lookup illegal key (insert v key el).1 = some v := by
  induction key generalizing el with
  | nil => exact absurd rfl hk
  | cons c s ih =>
    rw [insert] at hi ⊢
    rw [lookup]
    by_cases hc : asciiToTable c = 255
    · rw [if_pos hc] at hi ⊢
      exact hi rfl
    · rw [if_neg hc] at hi ⊢
      rw [if_neg hc]
      by_cases hs : s = []
      · rw [if_pos hs, if_pos hs]
        exact Function.update_self _ _ _
      · rw [if_neg hs] at hi ⊢
        rw [if_neg hs]
        have hnext : ((el.setNext (asciiToTable c) (insert v s ((el.next (asciiToTable c)).getD new)).1).next (asciiToTable c)) =
            some (insert v s ((el.next (asciiToTable c)).getD new)).1 := Function.update_self _ _ _
        simp only [hnext]
        exact ih hs _ hi

/-- Another key is found as before, except that the way to the hash table may have been opened. -/
theorem lookup_insert_of_ne (v : ℕ) {key k : Bytes} (hk : Lower key) (hk' : Lower k) (hne : k ≠ key) (el : CharIndexEl) (illegal : Option ℕ) :
    lookup illegal k (insert v key el).1 = lookup illegal k el ∨
      lookup illegal k el = none ∧ lookup illegal k (insert v key el).1 = illegal := by
  induction key generalizing el k with
  | nil => exact Or.inl rfl
  | cons c s ih =>
    rw [insert]
    by_cases hc : asciiToTable c = 255
    · rw [if_pos hc]
      exact Or.inl rfl
    · rw [if_neg hc]
      cases k with
      | nil =>
        split_ifs
        · exact Or.inl rfl
        · exact Or.inl rfl
      | cons d t =>
        rw [lookup, lookup]
        by_cases hd : asciiToTable d = 255
        · rw [if_pos hd, if_pos hd]
          exact Or.inl rfl
        · rw [if_neg hd, if_neg hd]
          by_cases hcd : d = c
          · subst hcd
            have hts : t ≠ s := fun he => hne (by rw [he])
            by_cases hs : s = []
            · rw [if_pos hs]
              by_cases ht : t = []
              · exact absurd (ht.trans hs.symm) hts
              · rw [if_neg ht, if_neg ht]
                exact Or.inl rfl
            · rw [if_neg hs]
              by_cases ht : t = []
              · rw [if_pos ht, if_pos ht]
                exact Or.inl rfl
              · rw [if_neg ht, if_neg ht]
                have hnext : ((el.setNext (asciiToTable d) (insert v s ((el.next (asciiToTable d)).getD new)).1).next (asciiToTable d)) =
                    some (insert v s ((el.next (asciiToTable d)).getD new)).1 := Function.update_self _ _ _
                simp only [hnext]
                cases hn : el.next (asciiToTable d) with
                | some m => exact ih hk.tail.2 hk'.tail.2 hts m
                | none =>
                  -- the level is new
                  rcases ih hk.tail.2 hk'.tail.2 hts new with h | ⟨-, h⟩
                  · rcases lookup_new illegal t with h0 | h0
                    · exact Or.inl (h.trans h0)
                    · exact Or.inr ⟨rfl, h.trans h0⟩
                  · exact Or.inr ⟨rfl, h⟩
          · -- the slots are two
            have hidx : asciiToTable d ≠ asciiToTable c := fun he => hcd (asciiToTable_inj hk'.tail.1 hk.tail.1 hd he)
            by_cases hs : s = []
            · rw [if_pos hs]
              have hb : (el.setBranch (asciiToTable c) v).branch (asciiToTable d) = el.branch (asciiToTable d) :=
                Function.update_of_ne hidx _ _
              rw [hb]
              exact Or.inl rfl
            · rw [if_neg hs]
              have hn : (el.setNext (asciiToTable c) (insert v s ((el.next (asciiToTable c)).getD new)).1).next (asciiToTable d) =
                  el.next (asciiToTable d) := Function.update_of_ne hidx _ _
              simp only [hn]
              exact Or.inl rfl

end CharIndexEl

namespace CharIndex

/-- a key of the hash table is found -/
def Ok (ci : CharIndex) : Prop := ∀ k, Lower k → ci.illegalKey k ≠ none → ci.lookup k = ci.illegalKey k

theorem ok_new : Ok new := fun _ _ h => absurd rfl h

theorem lookup_insert {ci : CharIndex} (h : ci.Ok) {key : Bytes} (hk : Lower key) (hne : key ≠ []) (v : ℕ) {k : Bytes} (hl : Lower k) :
    (ci.insert key v).lookup k = if k = key then some v else ci.lookup k := by
  split_ifs with he
  · subst he
    refine CharIndexEl.lookup_insert_self v hne ci.root _ fun hi => ?_
    simp only [insert, hi, if_true, Function.update_self]
  · have hillegal : (ci.insert key v).illegalKey k = ci.illegalKey k := by
      unfold insert
      dsimp only
      split_ifs
      · exact Function.update_of_ne he _ _
      · rfl
    rw [lookup, hillegal, lookup]
    rcases CharIndexEl.lookup_insert_of_ne v hk hl he ci.root (ci.illegalKey k) with h1 | ⟨h1, h2⟩
    · exact h1
    · -- it would have been found before
      have hnone : ci.illegalKey k = none := by
        by_contra hn
        exact hn ((h k hl hn).symm.trans h1)
      exact h2.trans (hnone.trans h1.symm)

theorem illegalKey_insert (ci : CharIndex) (key : Bytes) (v : ℕ) (k : Bytes) :
    (ci.insert key v).illegalKey k = ci.illegalKey k ∨ k = key ∧ (ci.insert key v).illegalKey k = some v := by
  unfold insert
  dsimp only
  split_ifs with hi
  · rw [Function.update_apply]
    split_ifs with he
    · exact Or.inr ⟨he, rfl⟩
    · exact Or.inl rfl
  · exact Or.inl rfl

theorem Ok.insert {ci : CharIndex} (h : ci.Ok) {key : Bytes} (hk : Lower key) (hne : key ≠ []) (hfree : ci.lookup key = none) (v : ℕ) :
    (ci.insert key v).Ok := by
  intro k hl hn
  rw [lookup_insert h hk hne v hl]
  rcases illegalKey_insert ci key v k with hi | ⟨he, hi⟩
  · have hk' : k ≠ key := by
      rintro rfl
      rw [hi, ← h k hl (hi ▸ hn)] at hn
      exact hn hfree
    rw [if_neg hk', hi, h k hl (hi ▸ hn)]
  · rw [if_pos he, hi]

end CharIndex

/-! ## `hostArray` -/

def HOST_ARRAY_MAX : ℕ := 8

/-- the loop of `Lookup`; a key that starts with `!` stands for all other labels -/
def arrayLookup (notProcess : Bool) (label : Bytes) : List (Bytes × ℕ) → Option ℕ → Option ℕ
  | [], r => r
  | (key, v) :: l, r =>
    if notProcess ∧ key.head? = some 33 then
      if key.tail = [] then arrayLookup notProcess label l r
      else if key.tail ≠ label then arrayLookup notProcess label l (some v)
      else arrayLookup notProcess label l r
    else if key = label then some v
    else arrayLookup notProcess label l r

theorem arrayLookup_eq (notProcess : Bool) (label : Bytes) {l : List (Bytes × ℕ)} (h : ∀ e ∈ l, e.1.head? ≠ some 33) (r : Option ℕ) :
    arrayLookup notProcess label l r = ((l.find? fun e => e.1 == label).map Prod.snd).or r := by
  induction l generalizing r with
  | nil => rfl
  | cons e l ih =>
    obtain ⟨key, v⟩ := e
    have hkey := h (key, v) List.mem_cons_self
    rw [arrayLookup, if_neg fun hn => hkey hn.2]
    split_ifs with he
    · simp [he]
    · rw [ih fun e hm => h e (List.mem_cons_of_mem _ hm)]
      simp [he]

/-- putting all elements into a hash table, one after the other -/
def tableOfArray (ht : Bytes → Option ℕ) (l : List (Bytes × ℕ)) : Bytes → Option ℕ :=
  l.foldl (fun ht e => Function.update ht e.1 (some e.2)) ht

theorem tableOfArray_eq {l : List (Bytes × ℕ)} (hnd : (l.map Prod.fst).Nodup) (ht : Bytes → Option ℕ) (k : Bytes) :
    tableOfArray ht l k = ((l.find? fun e => e.1 == k).map Prod.snd).or (ht k) := by
  induction l generalizing ht with
  | nil => rfl
  | cons e l ih =>
    obtain ⟨hn, hnd⟩ := List.nodup_cons.mp hnd
    rw [tableOfArray, List.foldl_cons]
    refine (ih hnd _).trans ?_
    by_cases he : e.1 = k
    · have hfind : (l.find? fun e => e.1 == k) = none := by
        rw [List.find?_eq_none]
        intro e' he' hk
        rw [← he, beq_iff_eq] at hk
        exact hn (List.mem_map.mpr ⟨e', he', hk⟩)
      simp [hfind, he]
    · rw [Function.update_of_ne (Ne.symm he)]
      simp [he]

end TrafficServer.HostLookup
