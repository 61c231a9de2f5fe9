/-
Host names as lists of labels: what `hostcmp`, `domaincmp`, the tokenizer and the walk of `host_copy_next` do with a name of labels that are
not empty and have no period.
-/
import Mathlib
import TrafficServer.Lib.Labels
import TrafficServer.TsCore.HostLookup

namespace TrafficServer.HostLookup

open TrafficServer.Labels

/-- the name of the labels `ls` -/
abbrev name (ls : List Bytes) : Bytes := [dot].intercalate ls

/-- in lower case -/
abbrev lower (s : Bytes) : Bytes := s.map toLower

abbrev lowers (ls : List Bytes) : List Bytes := ls.map lower

variable {ls ms : List Bytes}

theorem toLower_eq_dot {c : UInt8} : toLower c = dot ↔ c = dot := by
  unfold toLower dot
  grind

theorem toLower_toLower {c : UInt8} : toLower (toLower c) = toLower c := by
  unfold toLower
  grind

theorem toLower_eq_bang {c : UInt8} : toLower c = 33 ↔ c = 33 := by
  unfold toLower
  grind

theorem toLower_eq_null {c : UInt8} : toLower c = 0 ↔ c = 0 := by
  unfold toLower
  grind

theorem lower_lower (s : Bytes) : Lower (lower s) := by
  intro c hc
  obtain ⟨d, -, rfl⟩ := List.mem_map.mp hc
  exact toLower_toLower

theorem dot_lower {s : Bytes} : dot ∈ lower s ↔ dot ∈ s := by
  constructor
  · intro h
    obtain ⟨c, hc, he⟩ := List.mem_map.mp h
    rwa [← toLower_eq_dot.mp he]
  · intro h
    exact List.mem_map.mpr ⟨dot, h, rfl⟩

theorem good_lowers (h : Good dot ls) : Good dot (lowers ls) := by
  intro l hl
  obtain ⟨m, hm, rfl⟩ := List.mem_map.mp hl
  exact ⟨by simpa using (h m hm).1, fun hd => (h m hm).2 (dot_lower.mp hd)⟩

theorem lower_name (ls : List Bytes) : lower (name ls) = name (lowers ls) := intercalate_map toLower ls

theorem name_getLast (h : Good dot ls) : (name ls).getLast? ≠ some dot := by
  rcases List.eq_nil_or_concat' ls with rfl | ⟨ls, l, rfl⟩
  · simp
  · obtain ⟨hne, hd⟩ := h l (by simp)
    have hlast : (name (ls ++ [l])).getLast? = l.getLast? := by
      by_cases hls : ls = []
      · rw [hls, List.nil_append, name, List.intercalate_singleton]
      · rw [name, intercalate_concat hls, List.getLast?_append_of_ne_nil _ (List.cons_ne_nil dot l), List.getLast?_cons]
        obtain ⟨c, hc⟩ := Option.ne_none_iff_exists'.mp fun hn => hne (List.getLast?_eq_none_iff.mp hn)
        rw [hc]
        rfl
    rw [hlast]
    exact fun he => hd (List.mem_of_getLast? he)

theorem name_head (h : Good dot ls) : (name ls).head? ≠ some dot := by
  cases ls with
  | nil => simp
  | cons l ls =>
    obtain ⟨hne, hd⟩ := h l List.mem_cons_self
    obtain ⟨c, s, rfl⟩ := List.exists_cons_of_ne_nil hne
    have hhead : (name ((c :: s) :: ls)).head? = some c := by
      by_cases hls : ls = []
      · rw [hls, name, List.intercalate_singleton]
        rfl
      · rw [name, intercalate_cons hls]
        rfl
    rw [hhead]
    intro he
    exact hd (by rw [Option.some.inj he]; simp)

/-! ## Comparing -/

theorem signed_inj {c d : UInt8} (h : signed c = signed d) : c = d := by
  have hc := c.toNat_lt
  have hd := d.toNat_lt
  unfold signed at h
  apply UInt8.toNat_inj.mp
  split_ifs at h with h1 h2 h2 <;> rw [UInt8.lt_iff_toNat_lt] at h1 h2 <;> simp at h1 h2 <;> omega

/-- equal up to case and a dot at the end of one of them -/
theorem hostcmp_zero (a b : Bytes) :
    hostcmp a b = 0 ↔ lower a = lower b ∨ lower a ++ [dot] = lower b ∨ lower a = lower b ++ [dot] := by
  induction a generalizing b with
  | nil =>
    cases b with
    | nil => simp [hostcmp]
    | cons c₂ s₂ =>
      have hpos : c₂ = dot → 0 < signed (toLower c₂) := by
        rintro rfl
        decide
      have hiff : hostcmp [] (c₂ :: s₂) = 0 ↔ c₂ = dot ∧ s₂ = [] := by
        rw [hostcmp]
        split_ifs with h1 h2
        · exact iff_of_true rfl h2
        · exact iff_of_false (by decide) h2
        · exact iff_of_false (by decide) fun h2 => h1 (hpos h2.1)
      rw [hiff]
      constructor
      · rintro ⟨rfl, rfl⟩
        exact Or.inr (Or.inl rfl)
      · rintro (h | h | h)
        · simp at h
        · obtain ⟨h1, h2⟩ := List.cons.inj h
          exact ⟨toLower_eq_dot.mp h1.symm, List.map_eq_nil_iff.mp h2.symm⟩
        · simp at h
  | cons c₁ s₁ ih =>
    cases b with
    | nil =>
      have hpos : c₁ = dot → ¬signed (toLower c₁) < 0 := by
        rintro rfl
        decide
      have hiff : hostcmp (c₁ :: s₁) [] = 0 ↔ c₁ = dot ∧ s₁ = [] := by
        rw [hostcmp]
        split_ifs with h1 h2
        · exact iff_of_false (by decide) fun h2 => hpos h2.1 h1
        · exact iff_of_true rfl h2
        · exact iff_of_false (by decide) h2
      rw [hiff]
      simp [toLower_eq_dot]
    | cons c₂ s₂ =>
      rw [hostcmp]
      by_cases hc : toLower c₁ = toLower c₂
      · rw [hc, if_neg (lt_irrefl _), if_neg (lt_irrefl _), ih]
        simp [hc]
      · have hne : signed (toLower c₁) ≠ signed (toLower c₂) := fun he => hc (signed_inj he)
        have hright : ¬(lower (c₁ :: s₁) = lower (c₂ :: s₂) ∨ lower (c₁ :: s₁) ++ [dot] = lower (c₂ :: s₂) ∨
            lower (c₁ :: s₁) = lower (c₂ :: s₂) ++ [dot]) := by
          simp [hc]
        split_ifs with h1 h2
        · exact iff_of_false (by decide) hright
        · exact iff_of_false (by decide) hright
        · omega

/-- a host entry matches the same labels -/
theorem hostcmp_name (hl : Good dot ls) (hm : Good dot ms) (hms : ms ≠ []) :
    hostcmp (name ls) (name ms) = 0 ↔ lowers ls = lowers ms := by
  have hend : ∀ {ks : List Bytes} {s : Bytes}, Good dot ks → lower (name ks) ≠ s ++ [dot] := by
    intro ks s hk he
    have := name_getLast (good_lowers hk)
    rw [← lower_name, he, List.getLast?_concat] at this
    exact this rfl
  rw [hostcmp_zero]
  constructor
  · rintro (h | h | h)
    · rw [lower_name, lower_name] at h
      by_cases hls : ls = []
      · rw [hls] at h
        exact absurd h.symm (intercalate_ne_nil (good_lowers hm) (by simpa using hms))
      · exact intercalate_inj (good_lowers hl) (good_lowers hm) (by simpa using hls) (by simpa using hms) h
    · exact absurd h.symm (hend hm)
    · exact absurd h (hend hl)
  · intro h
    rw [lower_name, lower_name, h]
    exact Or.inl rfl

theorem domaincmpLoop_iff (first : UInt8) (ds hs : Bytes) :
    domaincmpLoop first ds hs = true ↔
      (∃ rest, lower hs = lower ds ++ rest ∧ (rest = [] ∨ first = dot ∨ rest.head? = some dot)) ∨ lower ds = lower hs ++ [dot] := by
  induction ds generalizing hs with
  | nil =>
    cases hs with
    | nil => simp [domaincmpLoop]
    | cons h hs => simp [domaincmpLoop, toLower_eq_dot]
  | cons d ds ih =>
    cases hs with
    | nil => simp [domaincmpLoop, toLower_eq_dot]
    | cons h hs =>
      rw [domaincmpLoop]
      by_cases hd : toLower d = toLower h
      · rw [if_neg (not_not.mpr hd), ih]
        simp [hd]
      · rw [if_pos hd]
        simp [hd, Ne.symm hd]

/-- a domain entry matches the names that end in its labels -/
theorem domaincmp_name (hl : Good dot ls) (hm : Good dot ms) (hms : ms ≠ []) :
    domaincmp (name ls) (name ms) = true ↔ lowers ms <:+ lowers ls := by
  have hne := intercalate_ne_nil hm hms
  have hdrop : ∀ {ks : List Bytes}, Good dot ks → dropDot (name ks).reverse = (name ks).reverse := by
    intro ks hk
    rw [dropDot, if_neg]
    rw [List.head?_reverse]
    exact name_getLast hk
  have hfirst : ∀ c s, name ms = c :: s → c ≠ dot := by
    rintro c s hcs rfl
    have := name_head hm
    rw [hcs] at this
    exact this rfl
  have hgl := good_lowers hl
  have hgm := good_lowers hm
  have hms' : lowers ms ≠ [] := by simpa using hms
  obtain ⟨c, s, hcs⟩ := List.exists_cons_of_ne_nil hne
  have hcmp : ∀ d, d = c :: s → domaincmp (name ls) d =
      if name ls = [] then false else domaincmpLoop c (dropDot d.reverse) (dropDot (name ls).reverse) := by
    rintro d rfl
    rfl
  rw [hcmp _ hcs, hdrop hm, hdrop hl]
  by_cases hls : ls = []
  · subst hls
    rw [if_pos (show name [] = [] from rfl)]
    simpa using hms
  · have hls' : lowers ls ≠ [] := by simpa using hls
    rw [if_neg (intercalate_ne_nil hl hls), domaincmpLoop_iff, lower, lower, List.map_reverse, List.map_reverse]
    change (∃ rest, (lower (name ls)).reverse = (lower (name ms)).reverse ++ rest ∧ _) ∨
      (lower (name ms)).reverse = (lower (name ls)).reverse ++ [dot] ↔ _
    rw [lower_name, lower_name]
    constructor
    · rintro (⟨rest, hrest, hend⟩ | h)
      · have hrev : name (lowers ls) = rest.reverse ++ name (lowers ms) := by
          have := congrArg List.reverse hrest
          rwa [List.reverse_reverse, List.reverse_append, List.reverse_reverse] at this
        rcases hend with rfl | he | he
        · rw [List.reverse_nil, List.nil_append] at hrev
          rw [intercalate_inj hgl hgm hls' hms' hrev]
        · exact absurd he (hfirst c s hcs)
        · cases rest with
          | nil => simp at he
          | cons d rest =>
            obtain rfl : d = dot := Option.some.inj he
            rw [List.reverse_cons, List.append_assoc, List.singleton_append] at hrev
            obtain ⟨ks, -, hks⟩ := intercalate_suffix hgl hgm hms' hrev
            rw [hks]
            exact List.suffix_append ks _
      · have hrev := congrArg List.reverse h
        rw [List.reverse_reverse, List.reverse_append, List.reverse_reverse] at hrev
        have := name_head hgm
        rw [hrev] at this
        exact absurd rfl this
    · rintro ⟨ks, hks⟩
      refine Or.inl ?_
      by_cases hk : ks = []
      · rw [hk, List.nil_append] at hks
        exact ⟨[], by rw [hks, List.append_nil], Or.inl rfl⟩
      · refine ⟨dot :: (name ks).reverse, ?_, Or.inr (Or.inr rfl)⟩
        rw [← hks, name, intercalate_append hk hms']
        simp

/-! ## Tokens -/

theorem tokenize_label {l : Bytes} (hl : dot ∉ l) (s tok : Bytes) : Table.tokenize (l ++ s) tok = Table.tokenize s (tok ++ l) := by
  induction l generalizing tok with
  | nil => rw [List.nil_append, List.append_nil]
  | cons c l ih =>
    have hc : c ≠ dot := fun he => hl (by rw [he]; simp)
    rw [List.cons_append, Table.tokenize, if_neg hc, ih fun hm => hl (List.mem_cons_of_mem c hm), List.append_assoc,
      List.singleton_append]

theorem tokenize_name (h : Good dot ls) : Table.tokenize (name ls) [] = ls := by
  induction ls with
  | nil => rfl
  | cons l ls ih =>
    obtain ⟨hne, hd⟩ := h l List.mem_cons_self
    by_cases hls : ls = []
    · have hone := tokenize_label hd [] []
      rw [List.append_nil, List.nil_append] at hone
      rw [hls, name, List.intercalate_singleton, hone, Table.tokenize, if_neg hne]
    · rw [name, intercalate_cons hls, tokenize_label hd, List.nil_append, Table.tokenize, if_pos rfl, if_neg hne, ih h.tail]

/-! ## The walk of `host_copy_next` -/

/-- the labels in front of another one -/
def front (ks : List Bytes) : Bytes := ks.flatMap (· ++ [dot])

theorem front_concat (ks : List Bytes) (m : Bytes) : front (ks ++ [m]) = front ks ++ m ++ [dot] := by
  simp [front]

theorem name_concat (ks : List Bytes) (l : Bytes) : name (ks ++ [l]) = front ks ++ l := by
  induction ks with
  | nil => rw [List.nil_append, name, List.intercalate_singleton]; rfl
  | cons k ks ih =>
    rw [List.cons_append, name, intercalate_cons (by simp)]
    change k ++ dot :: name (ks ++ [l]) = _
    rw [ih]
    simp [front]

/-- `p` is at the label `l` behind the labels `ks`, and the text ends behind it -/
def AtLabel (copy : Bytes) (p : ℕ) (ks : List Bytes) (l : Bytes) : Prop :=
  ∃ rest, copy = front ks ++ l ++ rest ∧ (rest = [] ∨ rest.head? = some 0) ∧ p = (front ks).length

theorem AtLabel.token {copy : Bytes} {p : ℕ} {ks : List Bytes} {l : Bytes} (h : AtLabel copy p ks l) (h0 : 0 ∉ l) :
    Table.token copy p = l := by
  obtain ⟨rest, rfl, hrest, rfl⟩ := h
  have hl : ∀ c ∈ l, (c != 0) = true := fun c hc => bne_iff_ne.mpr fun he => h0 (he ▸ hc)
  rw [Table.token, List.append_assoc, List.drop_left, List.takeWhile_append_of_pos hl]
  cases rest with
  | nil => simp
  | cons c rest =>
    obtain rfl : c = 0 := Option.some.inj (hrest.resolve_left (List.cons_ne_nil c rest))
    simp

theorem AtLabel.zero {copy : Bytes} {p : ℕ} {l : Bytes} (h : AtLabel copy p [] l) : p = 0 := by
  obtain ⟨rest, -, -, hp⟩ := h
  exact hp

/-- back over a label, to the period in front of it or to the start -/
theorem backUp_label {a m t : Bytes} (ha : a = [] ∨ ∃ a' c, a = a' ++ [c, dot]) (hm : dot ∉ m) {k : ℕ} (hk : k < m.length) :
    Table.backUp (a ++ m ++ t) (a.length + k) = a.length := by
  have hat : ∀ i, i < m.length → (a ++ m ++ t)[a.length + i]? ≠ some dot := by
    intro i hi he
    rw [List.append_assoc, List.getElem?_append_right (Nat.le_add_right _ _), Nat.add_sub_cancel_left, List.getElem?_append_left hi] at he
    exact hm (List.mem_of_getElem? he)
  induction k with
  | zero =>
    rcases ha with rfl | ⟨a', c, rfl⟩
    · rfl
    · have hlen : (a' ++ [c, dot]).length = a'.length + 1 + 1 := by simp
      have h0 := hat 0 hk
      rw [hlen, Nat.add_zero] at h0 ⊢
      rw [Table.backUp, if_neg h0, Table.backUp, if_pos]
      simp
  | succ k ih =>
    have hk1 := hat (k + 1) hk
    rw [← Nat.add_assoc] at hk1 ⊢
    rw [Table.backUp, if_neg hk1]
    exact ih (Nat.lt_of_succ_lt hk)

/-- one step of the walk -/
theorem AtLabel.down {copy : Bytes} {p : ℕ} {ks : List Bytes} {m l : Bytes} (h : AtLabel copy p (ks ++ [m]) l) (hg : Good dot (ks ++ [m])) :
    p ≠ 0 ∧ AtLabel (copy.set (p - 1) 0) (Table.backUp (copy.set (p - 1) 0) (p - 2)) ks m := by
  obtain ⟨rest, rfl, -, rfl⟩ := h
  obtain ⟨hne, hd⟩ := hg m (by simp)
  have hpos := List.length_pos_iff.mpr hne
  have hlen : (front (ks ++ [m])).length = (front ks ++ m).length + 1 := by
    rw [front_concat, List.length_append, List.length_singleton]
  have hset : (front (ks ++ [m]) ++ l ++ rest).set ((front (ks ++ [m])).length - 1) 0 = front ks ++ m ++ (0 :: (l ++ rest)) := by
    rw [hlen, Nat.add_sub_cancel, front_concat]
    simp
  have hfront : front ks = [] ∨ ∃ a' c, front ks = a' ++ [c, dot] := by
    rcases List.eq_nil_or_concat' ks with rfl | ⟨ks, k, rfl⟩
    · exact Or.inl rfl
    · obtain ⟨s, c, hs⟩ := (List.eq_nil_or_concat' k).resolve_left (hg k (by simp)).1
      refine Or.inr ⟨front ks ++ s, c, ?_⟩
      rw [front_concat, hs]
      simp
  refine ⟨by rw [hlen]; exact Nat.succ_ne_zero _, ?_⟩
  rw [hset]
  refine ⟨0 :: (l ++ rest), rfl, Or.inr rfl, ?_⟩
  have hp : (front (ks ++ [m])).length - 2 = (front ks).length + (m.length - 1) := by
    rw [hlen, List.length_append]
    omega
  rw [hp]
  exact backUp_label hfront hd (by omega)

theorem front_lowers (ks : List Bytes) : lower (front ks) = front (lowers ks) := by
  induction ks with
  | nil => rfl
  | cons k ks ih =>
    have hf : ∀ l ls, front (l :: ls) = l ++ dot :: front ls := by
      intro l ls
      simp [front]
    rw [hf, lower, List.map_append, List.map_cons]
    change lower k ++ dot :: lower (front ks) = front (lower k :: lowers ks)
    rw [hf, ih]

/-- `MatchFirst` starts at the last label -/
theorem init_atLabel {ks : List Bytes} {l : Bytes} (hg : Good dot (ks ++ [l])) :
    AtLabel (lower (name (ks ++ [l]))) (Table.lastLabel (name (ks ++ [l]))) (lowers ks) (lower l) := by
  have hd := (hg l (by simp)).2
  have hl : ∀ c ∈ l.reverse, (c != dot) = true := fun c hc => bne_iff_ne.mpr fun he => hd (he ▸ List.mem_reverse.mp hc)
  have hstop : (front ks).reverse.takeWhile (· != dot) = [] := by
    rcases List.eq_nil_or_concat' ks with rfl | ⟨ks, k, rfl⟩
    · rfl
    · rw [front_concat]
      simp
  have hp : Table.lastLabel (name (ks ++ [l])) = (front ks).length := by
    rw [Table.lastLabel, name_concat, List.reverse_append, List.takeWhile_append_of_pos hl, hstop]
    simp
  refine ⟨[], ?_, Or.inl rfl, ?_⟩
  · rw [List.append_nil, name_concat, lower, List.map_append]
    change lower (front ks) ++ lower l = _
    rw [front_lowers]
  · rw [hp, ← front_lowers, lower, List.length_map]

end TrafficServer.HostLookup
