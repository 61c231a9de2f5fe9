/-
The extra features of an object, from the origin to the cache (`origin.cpp`, `CacheVC::openWriteCloseDir`).

The origin writes each 16-bit feature of an object as four hexadecimal digits behind `X-extra-fields: `. When the object is written the
cache looks for this text in the response header, cuts out four bytes for each feature that is configured, and reads them as a number.

`extra_features_round_trip`: for a header in which the text occurs once, the cache gets the list that the origin has written exactly if it is
configured for that many features.

The header is what the origin sends with anything before and behind it. `webcachesim::mime_field` is the text that the origin writes.
-/
import Mathlib.Data.List.TakeWhile
import TrafficServer.Lib.Hex

namespace TrafficServer.Cache.ExtraFeatures

open TrafficServer.Hex

abbrev Bytes := List (BitVec 8)

/-! ## The origin -/

/-- `webcachesim::mime_field` -/
def mimeField : Bytes := ascii "X-extra-fields: "

/-- `%04x` -/
def format04x (v : BitVec 16) : Bytes := List.leftpad 4 (digit 0) (digits v.toNat)

/-- the header of an object -/
def serverThread (csize : ℤ) (extraFeatures : List (BitVec 16)) : Bytes :=
  ascii "Content-length: " ++ ascii (toString csize) ++ ascii "\r\nContent-type: application/octet-stream\r\n" ++
    (if extraFeatures.length ≠ 0 then mimeField ++ extraFeatures.flatMap format04x else []) ++ ascii "\r\n\r\n"

/-! ## The cache -/

/-- exceptions of the standard library -/
inductive StdException where
  | outOfRange
  | invalidArgument
deriving DecidableEq

/-- `std::string::find`, `none` for `npos` -/
def find (pat : Bytes) : Bytes → Option ℕ
  | [] => if pat = [] then some 0 else none
  | b :: s => if pat <+: b :: s then some 0 else (find pat s).map (· + 1)

def substr (s : Bytes) (pos len : ℕ) : Except StdException Bytes :=
  if pos > s.length then .error .outOfRange else .ok ((s.drop pos).take len)

def isspace (b : BitVec 8) : Bool := b = 0x20 || (9 ≤ b.toNat && b.toNat ≤ 13)

/-- a sign, and what is behind it -/
def dropSign : Bytes → Bool × Bytes
  | [] => (false, [])
  | b :: s => if b = 0x2d then (true, s) else if b = 0x2b then (false, s) else (false, b :: s)

/-- `0x` before a digit is skipped -/
def dropMark : Bytes → Bytes
  | a :: x :: b :: s => if a = 0x30 ∧ (x = 0x78 ∨ x = 0x58) ∧ (value b).isSome then b :: s else a :: x :: b :: s
  | s => s

/-- `std::stoi` with base 16 -/
def stoi16 (s : Bytes) : Except StdException ℤ :=
  let (negative, s) := dropSign (s.dropWhile isspace)
  let ds := (dropMark s).takeWhile fun b => (value b).isSome
  if ds = [] then .error .invalidArgument
  else
    let v : ℤ := if negative then -(fold 0 ds : ℤ) else fold 0 ds
    if v < -2 ^ 31 ∨ 2 ^ 31 ≤ v then .error .outOfRange else .ok v

/-- the loop over the features: `k` of them from the one at `pos` on -/
def readFeatures (resp : Bytes) : ℕ → ℕ → Except StdException (List (BitVec 16))
  | 0, _ => .ok []
  | k + 1, pos => do
    let sub ← substr resp pos 4
    let v ← stoi16 sub
    let rest ← readFeatures resp k (pos + 4)
    pure (BitVec.ofInt 16 v :: rest)

/-- what `openWriteCloseDir` admits the object with; `npos + mime_field.size()` wraps around -/
def openWriteCloseDir (nExtraFields : ℕ) (resp : Bytes) : Except StdException (List (BitVec 16)) :=
  readFeatures resp nExtraFields
    (match find mimeField resp with
    | some i => i + mimeField.length
    | none => mimeField.length - 1)

/-! ## The number of a feature -/

theorem length_format04x (v : BitVec 16) : (format04x v).length = 4 := by
  have hle : (digits v.toNat).length ≤ 4 := length_digits_le (by decide) v.isLt
  rw [format04x, List.leftpad, List.length_append, List.length_replicate]
  omega

theorem mem_format04x {v : BitVec 16} {b : BitVec 8} (h : b ∈ format04x v) : ∃ d, d < 16 ∧ b = digit d := by
  rcases List.mem_append.mp h with h | h
  · exact ⟨0, by decide, (List.mem_replicate.mp h).2⟩
  · exact mem_digits h

/-- a digit is not the start of anything else in a number -/
theorem digit_plain {d : ℕ} (h : d < 16) : isspace (digit d) = false ∧ digit d ≠ 0x2d ∧ digit d ≠ 0x2b ∧ digit d ≠ 0x78 ∧ digit d ≠ 0x58 := by
  revert d
  decide

/-- a number of digits only -/
theorem stoi16_digits {s : Bytes} (hne : s ≠ []) (hs : ∀ b ∈ s, ∃ d, d < 16 ∧ b = digit d) (hlt : fold 0 s < 2 ^ 31) :
    stoi16 s = .ok (fold 0 s) := by
  have hdigit : ∀ b ∈ s, isspace b = false ∧ b ≠ 0x2d ∧ b ≠ 0x2b ∧ b ≠ 0x78 ∧ b ≠ 0x58 := by
    intro b hb
    obtain ⟨d, hd, rfl⟩ := hs b hb
    exact digit_plain hd
  have hspace : s.dropWhile isspace = s := by
    cases s with
    | nil => rfl
    | cons b s => rw [List.dropWhile_cons_of_neg (by simp [(hdigit b List.mem_cons_self).1])]
  have hsign : dropSign s = (false, s) := by
    cases s with
    | nil => rfl
    | cons b s =>
      obtain ⟨_, h1, h2, _⟩ := hdigit b List.mem_cons_self
      rw [dropSign, if_neg h1, if_neg h2]
  have hmark : dropMark s = s := by
    match s, hdigit with
    | [], _ => rfl
    | [_], _ => rfl
    | [_, _], _ => rfl
    | a :: x :: b :: s, hdigit =>
      obtain ⟨_, _, _, h1, h2⟩ := hdigit x (by simp)
      rw [dropMark, if_neg fun h => h.2.1.elim h1 h2]
  have hall : s.takeWhile (fun b => (value b).isSome) = s := by
    rw [List.takeWhile_eq_self_iff]
    intro b hb
    obtain ⟨d, hd, rfl⟩ := hs b hb
    rw [value_digit hd]
    rfl
  unfold stoi16
  rw [hspace, hsign]
  dsimp only
  rw [hmark, hall, if_neg hne, if_neg Bool.false_ne_true, if_neg (by omega)]

theorem stoi16_format04x (v : BitVec 16) : stoi16 (format04x v) = .ok v.toNat := by
  have hfold : fold 0 (format04x v) = v.toNat := fold_leftpad 4 v.toNat
  have hne : format04x v ≠ [] := by
    intro hnil
    have := length_format04x v
    rw [hnil] at this
    exact absurd this (by decide)
  have hlt := v.isLt
  rw [stoi16_digits hne (fun b hb => mem_format04x hb) (by rw [hfold]; omega), hfold]

/-! ## The list -/

/-- the features that start at `pos` are read -/
theorem readFeatures_flatMap (resp : Bytes) (features : List (BitVec 16)) (tail : Bytes) (pos : ℕ)
    (h : resp.drop pos = features.flatMap format04x ++ tail) : readFeatures resp features.length pos = .ok features := by
  induction features generalizing pos with
  | nil => rfl
  | cons v features ih =>
    rw [List.flatMap_cons, List.append_assoc] at h
    have hle : ¬ pos > resp.length := by
      intro hgt
      rw [List.drop_eq_nil_of_le hgt.le] at h
      have hlen := congrArg List.length h
      rw [List.length_append, length_format04x, List.length_nil] at hlen
      omega
    have hsub : substr resp pos 4 = .ok (format04x v) := by
      rw [substr, if_neg hle, h, ← length_format04x v, List.take_left]
    have hrest : resp.drop (pos + 4) = features.flatMap format04x ++ tail := by
      rw [← List.drop_drop, h, ← length_format04x v, List.drop_left]
    rw [List.length_cons, readFeatures, hsub]
    simp only [bind, Except.bind, pure, Except.pure, stoi16_format04x, ih (pos + 4) hrest]
    rw [BitVec.ofInt_natCast, BitVec.ofNat_toNat, BitVec.setWidth_eq]

theorem length_readFeatures {resp : Bytes} {k pos : ℕ} {l : List (BitVec 16)} (h : readFeatures resp k pos = .ok l) : l.length = k := by
  induction k generalizing pos l with
  | zero =>
    obtain rfl := Except.ok.inj h
    rfl
  | succ k ih =>
    rw [readFeatures] at h
    simp only [bind, Except.bind, pure, Except.pure] at h
    split at h
    · exact absurd h (by simp)
    · split at h
      · exact absurd h (by simp)
      · split at h
        · exact absurd h (by simp)
        · rename_i rest hrest
          obtain rfl := Except.ok.inj h
          rw [List.length_cons, ih hrest]

/-- a place where the pattern is has a first one -/
theorem find_of_mem {pat s : Bytes} {p : ℕ} (hp : p ≤ s.length) (h : pat <+: s.drop p) : ∃ q, find pat s = some q ∧ pat <+: s.drop q := by
  induction s generalizing p with
  | nil =>
    rw [List.drop_nil] at h
    exact ⟨0, if_pos (List.prefix_nil.mp h), h⟩
  | cons b s ih =>
    rw [find]
    by_cases hfirst : pat <+: b :: s
    · rw [if_pos hfirst]
      exact ⟨0, rfl, hfirst⟩
    · rw [if_neg hfirst]
      cases p with
      | zero => exact absurd h hfirst
      | succ p =>
        obtain ⟨q, hq, hpre⟩ := ih (Nat.le_of_succ_le_succ hp) h
        exact ⟨q + 1, by rw [hq]; rfl, hpre⟩

theorem extra_features_round_trip (csize : ℤ) (features : List (BitVec 16)) (before behind : Bytes) (nExtraFields : ℕ)
    (honce : ∀ p q, mimeField <+: (before ++ serverThread csize features ++ behind).drop p →
      mimeField <+: (before ++ serverThread csize features ++ behind).drop q → p = q) :
    openWriteCloseDir nExtraFields (before ++ serverThread csize features ++ behind) = .ok features ↔ nExtraFields = features.length := by
  constructor
  · exact fun h => (length_readFeatures h).symm
  rintro rfl
  unfold openWriteCloseDir
  by_cases hlen : features.length ≠ 0
  · -- the place where the origin has written the text
    obtain ⟨start, hstart⟩ : ∃ start, before ++ serverThread csize features ++ behind =
        start ++ (mimeField ++ (features.flatMap format04x ++ (ascii "\r\n\r\n" ++ behind))) := by
      refine ⟨before ++ ascii "Content-length: " ++ ascii (toString csize) ++ ascii "\r\nContent-type: application/octet-stream\r\n", ?_⟩
      rw [serverThread, if_pos hlen]
      simp only [List.append_assoc]
    rw [hstart] at honce ⊢
    have hat : mimeField <+: (start ++ (mimeField ++ (features.flatMap format04x ++ (ascii "\r\n\r\n" ++ behind)))).drop start.length := by
      rw [List.drop_left]
      exact List.prefix_append _ _
    obtain ⟨q, hfind, hq⟩ := find_of_mem (by simp) hat
    obtain rfl := honce _ _ hat hq
    rw [hfind]
    refine readFeatures_flatMap _ features (ascii "\r\n\r\n" ++ behind) _ ?_
    rw [← List.drop_drop, List.drop_left, List.drop_left]
  · obtain rfl : features = [] := List.length_eq_zero_iff.mp (not_not.mp hlen)
    rfl

theorem lt_length_of_occurs {pat s : Bytes} (hne : pat ≠ []) {p : ℕ} (h : pat <+: s.drop p) : p < s.length := by
  by_contra hge
  rw [List.drop_eq_nil_of_le (not_lt.mp hge)] at h
  exact hne (List.prefix_nil.mp h)

/-- a response with two features -/
theorem two_features : openWriteCloseDir 2 (ascii "OK\r\n" ++ serverThread 7 [0xa1, 0xffff] ++ ascii "body") = .ok [0xa1, 0xffff] := by
  refine (extra_features_round_trip 7 [0xa1, 0xffff] (ascii "OK\r\n") (ascii "body") 2 fun p q hp hq => ?_).mpr rfl
  have hplace : ∀ p < (ascii "OK\r\n" ++ serverThread 7 [0xa1, 0xffff] ++ ascii "body").length,
      mimeField <+: (ascii "OK\r\n" ++ serverThread 7 [0xa1, 0xffff] ++ ascii "body").drop p → p = 63 := by decide +kernel
  rw [hplace p (lt_length_of_occurs (by decide) hp) hp, hplace q (lt_length_of_occurs (by decide) hq) hq]

end TrafficServer.Cache.ExtraFeatures
