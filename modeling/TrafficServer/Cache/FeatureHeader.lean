/-
Where the cache finds the extra features of a response (`CacheVC::openWriteCloseDir`).

The header of a response comes from the origin, and it may lack the feature header, have it with too short a value, or have
something else in it. The code does not look: it takes the first place of `webcachesim::mime_field`, whatever that belongs to,
or a place near the start if there is none, and cuts out four bytes a feature.

`features_total`: the decoding completes, and reads numbers from the value of the feature header only, exactly if there is nothing
to decode or the first place of the text is the feature header and each group of four bytes of its value starts with a number.
Everything else is an exception, which nobody catches, or a number from some other text (`no_feature_header`).
-/
import TrafficServer.Cache.ExtraFeatures

namespace TrafficServer.Cache.ExtraFeatures

open TrafficServer.Hex

variable {resp s g w pat : Bytes} {start n k pos : ℕ}

/-! ## The feature header -/

def isEol (b : BitVec 8) : Bool := b = 0x0d || b = 0x0a

/-- The text is at the start of a line of the header, of which the response has the lines from the reason phrase on: behind the end
of a line, and not behind an empty line. -/
structure FeatureLine (resp : Bytes) (start : ℕ) : Prop where
  field : mimeField <+: resp.drop start
  line : ∃ i, start = i + 1 ∧ resp[i]? = some 0x0a
  inHeader : ∀ i, i + 1 < start → resp[i]? = some 0x0a →
    resp[i + 1]? ≠ some 0x0a ∧ ¬ (resp[i + 1]? = some 0x0d ∧ resp[i + 2]? = some 0x0a)

/-- up to the end of the line -/
def headerValue (resp : Bytes) (start : ℕ) : Bytes := (resp.drop (start + mimeField.length)).takeWhile fun b => !isEol b

/-- in the value of the first such line -/
def InValue (resp : Bytes) (p : ℕ) : Prop :=
  ∃ start, FeatureLine resp start ∧ (∀ q < start, ¬ FeatureLine resp q) ∧ start + mimeField.length ≤ p ∧
    p < start + mimeField.length + (headerValue resp start).length

/-! ## What is read -/

/-- where the features are read from -/
def firstFeature (resp : Bytes) : ℕ :=
  match find mimeField resp with
  | some i => i + mimeField.length
  | none => mimeField.length - 1

/-- behind the blanks and the sign -/
def unsigned (s : Bytes) : Bytes := (dropSign (s.dropWhile isspace)).2

/-- behind the number -/
def behind (s : Bytes) : Bytes := (dropMark (unsigned s)).dropWhile fun b => (value b).isSome

/-- how much of the text `stoi` makes its number of -/
def numberLength (s : Bytes) : ℕ := s.length - (behind s).length

/-- the text of a feature -/
def group (resp : Bytes) (pos j : ℕ) : Bytes := (resp.drop (pos + 4 * j)).take 4

/-- the features are decoded, from the value of the feature header -/
structure Decodes (n : ℕ) (resp : Bytes) : Prop where
  completes : ∃ l, openWriteCloseDir n resp = .ok l
  inside : ∀ j < n, ∀ q < numberLength (group resp (firstFeature resp) j), InValue resp (firstFeature resp + 4 * j + q)

/-- a digit behind blanks and a sign -/
def StartsNumber (s : Bytes) : Prop := ∃ b t, unsigned s = b :: t ∧ (value b).isSome = true

/-- the first place of the text is the feature header, and its value has enough numbers in the right places -/
def Readable (n : ℕ) (resp : Bytes) : Prop :=
  ∃ start, find mimeField resp = some start ∧ FeatureLine resp start ∧ ∀ j < n, StartsNumber (group (headerValue resp start) 0 j)

/-! ## Numbers -/

theorem fold_lt {l : Bytes} (acc : ℕ) (h : ∀ b ∈ l, (value b).isSome = true) : fold acc l < (acc + 1) * 16 ^ l.length := by
  induction l generalizing acc with
  | nil => simp [fold]
  | cons b l ih =>
    obtain ⟨v, hv⟩ := Option.isSome_iff_exists.mp (h b List.mem_cons_self)
    have hlt := value_lt hv
    calc fold acc (b :: l) = fold (acc * 16 + v) l := by rw [fold, hv, Option.getD_some]
      _ < (acc * 16 + v + 1) * 16 ^ l.length := ih _ fun a ha => h a (List.mem_cons_of_mem b ha)
      _ ≤ ((acc + 1) * 16) * 16 ^ l.length := Nat.mul_le_mul_right _ (by omega)
      _ = (acc + 1) * 16 ^ (b :: l).length := by rw [List.length_cons, pow_succ]; ring

/-- a mark is dropped before a digit only -/
theorem dropMark_cases (s : Bytes) : dropMark s = s ∨ ∃ a x b t, s = a :: x :: b :: t ∧ dropMark s = b :: t ∧ a = 0x30 ∧
    (x = 0x78 ∨ x = 0x58) ∧ (value b).isSome = true := by
  match s with
  | [] => exact Or.inl rfl
  | [_] => exact Or.inl rfl
  | [_, _] => exact Or.inl rfl
  | a :: x :: b :: t =>
    by_cases h : a = 0x30 ∧ (x = 0x78 ∨ x = 0x58) ∧ (value b).isSome = true
    · exact Or.inr ⟨a, x, b, t, rfl, if_pos h, h.1, h.2.1, h.2.2⟩
    · exact Or.inl (if_neg h)

theorem dropSign_suffix (s : Bytes) : (dropSign s).2 <:+ s := by
  cases s with
  | nil => exact List.suffix_refl []
  | cons b t =>
    rw [dropSign]
    split_ifs
    · exact List.suffix_cons b t
    · exact List.suffix_cons b t
    · exact List.suffix_refl _

theorem dropMark_suffix (s : Bytes) : dropMark s <:+ s := by
  rcases dropMark_cases s with h | ⟨a, x, b, t, rfl, h, _⟩
  · exact h.symm ▸ List.suffix_refl s
  · exact h.symm ▸ ⟨[a, x], rfl⟩

theorem unsigned_suffix (s : Bytes) : unsigned s <:+ s := (dropSign_suffix _).trans (List.dropWhile_suffix _)

/-- the digits start where the number does -/
theorem digits_ne_nil_iff (s : Bytes) :
    (dropMark s).takeWhile (fun b => (value b).isSome) ≠ [] ↔ ∃ b t, s = b :: t ∧ (value b).isSome = true := by
  have hhead : ∀ u : Bytes, u.takeWhile (fun b => (value b).isSome) ≠ [] ↔ ∃ b t, u = b :: t ∧ (value b).isSome = true := by
    intro u
    cases u with
    | nil => simp
    | cons b t => by_cases hb : (value b).isSome = true <;> simp [hb]
  rcases dropMark_cases s with h | ⟨a, x, b, t, rfl, h, rfl, _, hb⟩
  · rw [h]
    exact hhead s
  · rw [h, hhead]
    exact iff_of_true ⟨b, t, rfl, hb⟩ ⟨_, _, rfl, by decide⟩

/-- four bytes are no number too large -/
theorem stoi16_ok_iff (hlen : s.length ≤ 4) : (∃ v, stoi16 s = .ok v) ↔ StartsNumber s := by
  have hdigits := digits_ne_nil_iff (unsigned s)
  set ds := (dropMark (unsigned s)).takeWhile fun b => (value b).isSome with hds
  have hstoi : stoi16 s = if ds = [] then .error .invalidArgument else
      let v : ℤ := if (dropSign (s.dropWhile isspace)).1 = true then -(fold 0 ds : ℤ) else fold 0 ds
      if v < -2 ^ 31 ∨ 2 ^ 31 ≤ v then .error .outOfRange else .ok v := rfl
  constructor
  · rintro ⟨v, hv⟩
    refine hdigits.mp fun hnil => ?_
    rw [hstoi, if_pos hnil] at hv
    exact absurd hv (by simp)
  · intro hstart
    have hne : ds ≠ [] := hdigits.mpr hstart
    have hsub : ds.length ≤ 4 := by
      calc ds.length ≤ (dropMark (unsigned s)).length := (List.takeWhile_prefix _).length_le
        _ ≤ s.length := ((dropMark_suffix _).trans (unsigned_suffix s)).length_le
        _ ≤ 4 := hlen
    have hfold : fold 0 ds < 16 ^ 4 := by
      calc fold 0 ds < (0 + 1) * 16 ^ ds.length := fold_lt 0 fun b hb => List.mem_takeWhile_imp (p := fun b => (value b).isSome) hb
        _ = 16 ^ ds.length := by rw [Nat.zero_add, Nat.one_mul]
        _ ≤ 16 ^ 4 := Nat.pow_le_pow_right (by decide) hsub
    rw [hstoi, if_neg hne]
    dsimp only
    rw [if_neg]
    · exact ⟨_, rfl⟩
    · split_ifs <;> omega

/-- the number has a byte at least -/
theorem behind_lt (h : StartsNumber s) : (behind s).length < (unsigned s).length := by
  obtain ⟨b, t, hb, hvalue⟩ := h
  have hne : (dropMark (unsigned s)).takeWhile (fun b => (value b).isSome) ≠ [] := (digits_ne_nil_iff _).mpr ⟨b, t, hb, hvalue⟩
  calc (behind s).length < (dropMark (unsigned s)).length := by
        have hsplit := congrArg List.length (List.takeWhile_append_dropWhile (p := fun b => (value b).isSome) (l := dropMark (unsigned s)))
        have hpos := List.length_pos_of_ne_nil hne
        rw [List.length_append] at hsplit
        rw [behind]
        omega
    _ ≤ (unsigned s).length := (dropMark_suffix _).length_le

theorem numberLength_pos (h : StartsNumber s) : 0 < numberLength s := by
  have h1 := behind_lt h
  have h2 := (unsigned_suffix s).length_le
  rw [numberLength]
  omega

/-! ### Text behind the value -/

theorem dropWhile_append_of_ne_nil {p : BitVec 8 → Bool} (h : g.dropWhile p ≠ []) : (g ++ w).dropWhile p = g.dropWhile p ++ w := by
  rw [List.dropWhile_append, if_neg (by simpa using h)]

theorem dropSign_append (h : g ≠ []) : (dropSign (g ++ w)).2 = (dropSign g).2 ++ w := by
  cases g with
  | nil => exact absurd rfl h
  | cons b g =>
    rw [List.cons_append, dropSign, dropSign]
    split_ifs <;> rfl

theorem unsigned_append (h : unsigned g ≠ []) : unsigned (g ++ w) = unsigned g ++ w := by
  have hblank : g.dropWhile isspace ≠ [] := fun hnil => h (by rw [unsigned, hnil]; rfl)
  rw [unsigned, dropWhile_append_of_ne_nil hblank, dropSign_append hblank, unsigned]

theorem length_unsigned_append_le (h : unsigned g = []) : (unsigned (g ++ w)).length ≤ w.length := by
  by_cases hblank : g.dropWhile isspace = []
  · have hdrop : (g ++ w).dropWhile isspace = w.dropWhile isspace :=
      List.dropWhile_append_of_pos fun b hb => List.dropWhile_eq_nil_iff.mp hblank b hb
    rw [unsigned, hdrop]
    exact ((dropSign_suffix _).trans (List.dropWhile_suffix _)).length_le
  · rw [unsigned, dropWhile_append_of_ne_nil hblank, dropSign_append hblank, ← unsigned, h, List.nil_append]

/-- a number that ends within `g` starts there -/
theorem startsNumber_of_append (h : StartsNumber (g ++ w)) (hlen : numberLength (g ++ w) ≤ g.length) : StartsNumber g := by
  have hlt := behind_lt h
  obtain ⟨b, t, hb, hvalue⟩ := h
  cases hu : unsigned g with
  | nil =>
    have hle := length_unsigned_append_le (w := w) hu
    rw [numberLength, List.length_append] at hlen
    omega
  | cons a u =>
    rw [unsigned_append (by simp [hu]), hu, List.cons_append] at hb
    obtain ⟨rfl, _⟩ := List.cons.inj hb
    exact ⟨a, u, hu, hvalue⟩

theorem suffix_dropWhile_append {p : BitVec 8 → Bool} (u : Bytes) (hw : ∀ b ∈ w.head?, p b = false) : w <:+ (u ++ w).dropWhile p := by
  induction u with
  | nil =>
    cases w with
    | nil => exact List.nil_suffix
    | cons b w =>
      rw [List.nil_append, List.dropWhile_cons_of_neg (by simp [hw b rfl])]
  | cons b u ih =>
    rw [List.cons_append]
    by_cases hb : p b = true
    · rwa [List.dropWhile_cons_of_pos hb]
    · rw [List.dropWhile_cons_of_neg hb]
      exact List.suffix_append (b :: u) w

theorem isEol_plain : ∀ b, isEol b = true → (value b).isSome = false ∧ b ≠ 0x30 ∧ b ≠ 0x78 ∧ b ≠ 0x58 := by
  decide

theorem dropMark_append (u : Bytes) (hw : ∀ b ∈ w.head?, isEol b = true) : ∃ u', dropMark (u ++ w) = u' ++ w := by
  rcases dropMark_cases (u ++ w) with h | ⟨a, x, c, t, hsplit, h, ha, hx, hc⟩
  · exact ⟨u, h⟩
  · match u, hsplit with
    | [], hsplit =>
      obtain rfl : w = a :: x :: c :: t := hsplit
      exact absurd ha (isEol_plain a (hw a rfl)).2.1
    | [_], hsplit =>
      obtain rfl : w = x :: c :: t := (List.cons.inj hsplit).2
      have hplain := isEol_plain x (hw x rfl)
      exact absurd hx (not_or.mpr hplain.2.2)
    | [_, _], hsplit =>
      obtain rfl : w = c :: t := (List.cons.inj (List.cons.inj hsplit).2).2
      exact absurd hc (by simp [(isEol_plain c (hw c rfl)).1])
    | _ :: _ :: d :: u, hsplit =>
      obtain ⟨rfl, rfl⟩ := List.cons.inj (List.cons.inj (List.cons.inj hsplit).2).2
      exact ⟨d :: u, h⟩

/-- no number goes on behind the end of the line -/
theorem numberLength_append_le (u : StartsNumber g) (hw : ∀ b ∈ w.head?, isEol b = true) :
    StartsNumber (g ++ w) ∧ numberLength (g ++ w) ≤ g.length := by
  obtain ⟨b, t, hb, hvalue⟩ := u
  have happ : unsigned (g ++ w) = unsigned g ++ w := unsigned_append (by simp [hb])
  refine ⟨⟨b, t ++ w, by rw [happ, hb, List.cons_append], hvalue⟩, ?_⟩
  obtain ⟨u', hu'⟩ := dropMark_append (unsigned g) hw
  have hsuffix : w <:+ behind (g ++ w) := by
    rw [behind, happ, hu']
    exact suffix_dropWhile_append u' fun b hb => (isEol_plain b (hw b hb)).1
  have hle := hsuffix.length_le
  rw [numberLength, List.length_append]
  omega

/-! ## The features -/

/-- one more feature -/
theorem readFeatures_succ_ok_iff (resp : Bytes) (k pos : ℕ) :
    (∃ l, readFeatures resp (k + 1) pos = .ok l) ↔
      StartsNumber (group resp pos 0) ∧ ∃ l, readFeatures resp k (pos + 4) = .ok l := by
  rw [← stoi16_ok_iff (by rw [group]; exact List.length_take_le _ _)]
  by_cases hpos : pos > resp.length
  · -- behind the end: `substr` throws, and there is no number in an empty text
    have hnil : group resp pos 0 = [] := by simp [group, hpos.le]
    rw [readFeatures, substr, if_pos hpos, hnil]
    refine iff_of_false ?_ ?_
    · rintro ⟨l, hl⟩
      exact absurd hl (by simp [bind, Except.bind])
    · rintro ⟨⟨v, hv⟩, _⟩
      exact absurd hv (by simp [stoi16, dropSign, dropMark])
  · have hsub : substr resp pos 4 = .ok (group resp pos 0) := by
      rw [substr, if_neg hpos, group, Nat.mul_zero, Nat.add_zero]
    rw [readFeatures, hsub]
    simp only [bind, Except.bind, pure, Except.pure]
    cases hv : stoi16 (group resp pos 0) <;> cases hrest : readFeatures resp k (pos + 4) <;> simp

theorem group_succ (resp : Bytes) (pos j : ℕ) : group resp pos (j + 1) = group resp (pos + 4) j := by
  have hpos : pos + 4 * (j + 1) = pos + 4 + 4 * j := by ring
  rw [group, group, hpos]

theorem readFeatures_ok_iff (resp : Bytes) (k pos : ℕ) :
    (∃ l, readFeatures resp k pos = .ok l) ↔ ∀ j < k, StartsNumber (group resp pos j) := by
  induction k generalizing pos with
  | zero => simp [readFeatures]
  | succ k ih =>
    rw [readFeatures_succ_ok_iff, ih]
    constructor
    · rintro ⟨hzero, hrest⟩ j hj
      cases j with
      | zero => exact hzero
      | succ j => exact group_succ resp pos j ▸ hrest j (Nat.lt_of_succ_lt_succ hj)
    · intro hall
      exact ⟨hall 0 (Nat.succ_pos k), fun j hj => group_succ resp pos j ▸ hall (j + 1) (Nat.succ_lt_succ hj)⟩

theorem find_first (h : find pat s = some start) : pat <+: s.drop start ∧ ∀ q < start, ¬ pat <+: s.drop q := by
  induction s generalizing start with
  | nil =>
    rw [find] at h
    split_ifs at h with hpat
    obtain rfl := Option.some.inj h
    exact ⟨by simp [hpat], fun q hq => absurd hq (Nat.not_lt_zero q)⟩
  | cons b s ih =>
    rw [find] at h
    by_cases hpre : pat <+: b :: s
    · rw [if_pos hpre] at h
      obtain rfl := Option.some.inj h
      exact ⟨hpre, fun q hq => absurd hq (Nat.not_lt_zero q)⟩
    · rw [if_neg hpre] at h
      obtain ⟨i, hi, rfl⟩ := Option.map_eq_some_iff.mp h
      obtain ⟨hat, hbefore⟩ := ih hi
      refine ⟨hat, fun q hq => ?_⟩
      cases q with
      | zero => exact hpre
      | succ q => exact hbefore q (Nat.lt_of_succ_lt_succ hq)

/-- what is behind the value: nothing, or the end of the line -/
theorem drop_value (resp : Bytes) (start : ℕ) :
    ∃ w, resp.drop (start + mimeField.length) = headerValue resp start ++ w ∧ ∀ b ∈ w.head?, isEol b = true := by
  refine ⟨(resp.drop (start + mimeField.length)).dropWhile fun b => !isEol b, List.takeWhile_append_dropWhile.symm, fun b hb => ?_⟩
  have hstop := List.head?_dropWhile_not (fun b => !isEol b) (resp.drop (start + mimeField.length))
  rw [Option.mem_def.mp hb] at hstop
  simpa using hstop

/-- a group is in the value and then in what is behind it -/
theorem group_split {v : Bytes} {j : ℕ} (hdrop : resp.drop pos = v ++ w) (hj : 4 * j ≤ v.length) :
    group resp pos j = group v 0 j ++ w.take (4 - (v.length - 4 * j)) := by
  rw [group, ← List.drop_drop, hdrop, List.drop_append_of_le_length hj, List.take_append, List.length_drop, group, Nat.zero_add]

theorem length_group_le (resp : Bytes) (pos j : ℕ) : (group resp pos j).length ≤ 4 := List.length_take_le _ _

theorem StartsNumber.length_pos (h : StartsNumber s) : 0 < s.length :=
  lt_of_lt_of_le (numberLength_pos h) (Nat.sub_le _ _)

theorem length_group (v : Bytes) (j : ℕ) : (group v 0 j).length = min 4 (v.length - 4 * j) := by
  simp [group]

theorem readable_of_decodes {n : ℕ} {resp : Bytes} (hn : n ≠ 0) (h : Decodes n resp) : Readable n resp := by
  obtain ⟨hok, hinside⟩ := h
  have hgroups := (readFeatures_ok_iff resp n (firstFeature resp)).mp hok
  -- the first byte of the first feature is in the value, so that the first place of the text is the feature header
  obtain ⟨start, hline, hnone, hle, _⟩ :=
    hinside 0 (Nat.pos_of_ne_zero hn) 0 (numberLength_pos (hgroups 0 (Nat.pos_of_ne_zero hn)))
  have hlt : start < resp.length := lt_length_of_occurs (by decide) hline.field
  obtain ⟨i, hfind, _⟩ := find_of_mem hlt.le hline.field
  have hbase : firstFeature resp = i + mimeField.length := by rw [firstFeature, hfind]
  have hile : i ≤ start := not_lt.mp fun hlt => (find_first hfind).2 start hlt hline.field
  obtain rfl : i = start := by omega
  refine ⟨i, hfind, hline, fun j hj => ?_⟩
  -- the last byte of each number is in the value, too
  have hnumber := hgroups j hj
  obtain ⟨start', hline', hnone', _, hend⟩ := hinside j hj (numberLength (group resp (firstFeature resp) j) - 1)
    (Nat.sub_lt (numberLength_pos hnumber) Nat.one_pos)
  obtain rfl : start' = i :=
    le_antisymm (not_lt.mp fun h => hnone' i h hline) (not_lt.mp fun h => hnone start' h hline')
  obtain ⟨w, hdrop, _⟩ := drop_value resp start'
  have hpos := numberLength_pos hnumber
  have hfour : numberLength (group resp (firstFeature resp) j) ≤ 4 := (Nat.sub_le _ _).trans (length_group_le _ _ _)
  rw [hbase] at hnumber hpos hfour hend
  rw [group_split hdrop (by omega)] at hnumber hpos hfour hend
  refine startsNumber_of_append hnumber ?_
  rw [length_group]
  omega

/-- a number at the start of a group of the value is the one that is read, and ends in the value -/
theorem startsNumber_of_value {resp : Bytes} {start j : ℕ} (hbase : firstFeature resp = start + mimeField.length)
    (h : StartsNumber (group (headerValue resp start) 0 j)) :
    StartsNumber (group resp (firstFeature resp) j) ∧
      numberLength (group resp (firstFeature resp) j) ≤ (group (headerValue resp start) 0 j).length := by
  obtain ⟨w, hdrop, heol⟩ := drop_value resp start
  have hpos := h.length_pos
  rw [length_group] at hpos
  rw [hbase, group_split hdrop (by omega)]
  refine numberLength_append_le h fun b hb => heol b ?_
  cases w with
  | nil => simp at hb
  | cons a w => cases hm : 4 - ((headerValue resp start).length - 4 * j) <;> simp_all

theorem decodes_of_readable {n : ℕ} {resp : Bytes} (h : Readable n resp) : Decodes n resp := by
  obtain ⟨start, hfind, hline, hread⟩ := h
  have hbase : firstFeature resp = start + mimeField.length := by rw [firstFeature, hfind]
  refine ⟨(readFeatures_ok_iff _ _ _).mpr fun j hj => (startsNumber_of_value hbase (hread j hj)).1, fun j hj q hq => ?_⟩
  have hle := (startsNumber_of_value hbase (hread j hj)).2
  rw [length_group] at hle
  refine ⟨start, hline, fun r hr hearlier => (find_first hfind).2 r hr hearlier.field, ?_, ?_⟩
  · rw [hbase]
    omega
  · rw [hbase]
    omega

/-- **Decoding.** -/
theorem features_total (n : ℕ) (resp : Bytes) : Decodes n resp ↔ n = 0 ∨ Readable n resp := by
  constructor
  · intro h
    exact or_iff_not_imp_left.mpr fun hn => readable_of_decodes hn h
  · rintro (rfl | h)
    · exact ⟨⟨[], rfl⟩, fun j hj => absurd hj (Nat.not_lt_zero j)⟩
    · exact decodes_of_readable h

/-- a response that has no features: the text read is that of another field, and no number -/
theorem no_feature_header : ¬ ∀ n resp, Decodes n resp := by
  intro h
  obtain ⟨l, hl⟩ := (h 1 (ascii "OK\r\nContent-length: 5\r\n\r\n")).completes
  have herror : openWriteCloseDir 1 (ascii "OK\r\nContent-length: 5\r\n\r\n") = .error .invalidArgument := by decide +kernel
  rw [herror] at hl
  exact absurd hl (by simp)

/-- and here it is a number from the date -/
example : openWriteCloseDir 1 (ascii "OK\r\nAge: 1234\r\nDate: 1\r\n\r\n") = .ok [0xda] := by decide +kernel

end TrafficServer.Cache.ExtraFeatures
