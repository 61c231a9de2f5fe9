/-
Numbers in header fields (`mime_parse_int`, `mime_parse_uint`, `mime_parse_int64` and `mime_parse_integer` in `proxy/hdrs/MIME.cc`).

A text that begins with a digit is added up; behind blanks and a sign the digits are subtracted, so that the most negative number comes out.
All of them go round at the bounds of their type, and say nothing of it: what they return is the number modulo 2³² or 2⁶⁴
(`mimeParseSigned_numeral`, `mimeParseUint_numeral`, `mimeParseInteger_numeral`).

`mime_parse_exact_iff`: they return the number if the type has it, and another number of the type otherwise.
-/
import TrafficServer.Hdrs.HttpLine

namespace TrafficServer.Hdrs.MimeNumber

open HttpParse

abbrev CHAR_MINUS : UInt8 := 45

/-! ## The functions -/

section Digits

variable {w : ℕ}

/-- `num = (num * 10) + (*buf++ - '0')` for the digits in front -/
def addDigits (num : BitVec w) (s : Bytes) : BitVec w :=
  (s.takeWhile isDigit).foldl (fun num c => num * 10 + BitVec.ofNat w (c.toNat - 48)) num

/-- `num = (num * 10) - (*buf++ - '0')` for the digits in front -/
def subDigits (num : BitVec w) (s : Bytes) : BitVec w :=
  (s.takeWhile isDigit).foldl (fun num c => num * 10 - BitVec.ofNat w (c.toNat - 48)) num

end Digits

/-- `mime_parse_int` and `mime_parse_int64`, which are of 32 and 64 bits -/
def mimeParseSigned (w : ℕ) : Bytes → BitVec w
  | [] => 0
  | c :: t =>
    if isDigit c then addDigits (BitVec.ofNat w (c.toNat - 48)) t
    else
      let s := (c :: t).dropWhile isSpace
      let negative := s.head? = some CHAR_MINUS
      let num := subDigits 0 (if negative then s.tail else s)
      if negative then num else -num

def mimeParseInt (s : Bytes) : ℤ := (mimeParseSigned 32 s).toInt

def mimeParseInt64 (s : Bytes) : ℤ := (mimeParseSigned 64 s).toInt

def mimeParseUint : Bytes → ℕ
  | [] => 0
  | c :: t =>
    if isDigit c then (addDigits (BitVec.ofNat 32 (c.toNat - 48)) t).toNat
    else (addDigits (0 : BitVec 32) ((c :: t).dropWhile isSpace)).toNat

/-- the integer, and the text behind it -/
def mimeParseInteger (s : Bytes) : Option (ℤ × Bytes) :=
  match s.dropWhile fun c => c ≠ 0 && !isDigit c && c ≠ CHAR_MINUS with
  | [] => none
  | c :: t =>
    if c = 0 then none
    else
      let negative := c = CHAR_MINUS
      let s := if negative then t else c :: t
      let val := addDigits (0 : BitVec 32) s
      some ((if negative then -val else val).toInt, s.dropWhile isDigit)

/-! ## Numbers as they are written -/

/-- decimal digits behind optional blanks and a sign; the text has an end, or a byte that is no digit -/
structure Numeral where
  blanks : Bytes
  minus : Bool
  digits : Bytes
  behind : Bytes
  blanks_space : ∀ c ∈ blanks, isSpace c = true
  digits_digit : ∀ c ∈ digits, isDigit c = true
  digits_ne : digits ≠ []
  behind_head : ∀ c ∈ behind.head?, isDigit c = false

namespace Numeral

variable (n : Numeral)

def bytes : Bytes := n.blanks ++ ((if n.minus then [CHAR_MINUS] else []) ++ (n.digits ++ n.behind))

/-- the number, however long it is -/
def value : ℤ := if n.minus then -(number n.digits) else number n.digits

end Numeral

/-- the exact value if the type has it, and otherwise none of the type's values -/
def Exact (lo hi value result : ℤ) : Prop :=
  (lo ≤ value ∧ value < hi → result = value) ∧ (¬ (lo ≤ value ∧ value < hi) → ¬ (lo ≤ result ∧ result < hi))

instance (lo hi value result : ℤ) : Decidable (Exact lo hi value result) := inferInstanceAs (Decidable ((_ → _) ∧ (_ → _)))

/-! ## The sum of the digits -/

section Digits

variable {w : ℕ}

theorem foldl_add (l : Bytes) (acc : ℕ) :
    l.foldl (fun num c => num * 10 + BitVec.ofNat w (c.toNat - 48)) (BitVec.ofNat w acc) =
      BitVec.ofNat w (l.foldl (fun n c => n * 10 + (c.toNat - 48)) acc) := by
  induction l generalizing acc with
  | nil => rfl
  | cons c l ih =>
    have hstep : BitVec.ofNat w acc * 10 + BitVec.ofNat w (c.toNat - 48) = BitVec.ofNat w (acc * 10 + (c.toNat - 48)) := by
      rw [BitVec.ofNat_add, BitVec.ofNat_mul]
      rfl
    rw [List.foldl_cons, List.foldl_cons, hstep]
    exact ih _

/-- subtracting comes to the sum with the other sign -/
theorem foldl_sub (l : Bytes) (num : BitVec w) :
    l.foldl (fun num c => num * 10 - BitVec.ofNat w (c.toNat - 48)) (-num) =
      -l.foldl (fun num c => num * 10 + BitVec.ofNat w (c.toNat - 48)) num := by
  induction l generalizing num with
  | nil => rfl
  | cons c l ih =>
    have hstep : -num * 10 - BitVec.ofNat w (c.toNat - 48) = -(num * 10 + BitVec.ofNat w (c.toNat - 48)) := by ring
    rw [List.foldl_cons, List.foldl_cons, hstep]
    exact ih _

theorem addDigits_zero (s : Bytes) : addDigits (0 : BitVec w) s = BitVec.ofNat w (number s) := foldl_add _ 0

theorem subDigits_zero (s : Bytes) : subDigits (0 : BitVec w) s = -BitVec.ofNat w (number s) := by
  have h := foldl_sub (s.takeWhile isDigit) (0 : BitVec w)
  rw [neg_zero] at h
  rw [← addDigits_zero]
  exact h

/-- the first digit may start the sum -/
theorem addDigits_cons {c : UInt8} (h : isDigit c = true) (s : Bytes) :
    addDigits (BitVec.ofNat w (c.toNat - 48)) s = BitVec.ofNat w (number (c :: s)) := by
  rw [number, List.takeWhile_cons_of_pos h, List.foldl_cons, Nat.zero_mul, Nat.zero_add]
  exact foldl_add _ _

end Digits

/-! ## What the functions come to -/

theorem isSpace_plain (c : UInt8) (h : isSpace c = true) : isDigit c = false ∧ c ≠ 0 ∧ c ≠ CHAR_MINUS := by
  simp only [isSpace, isWslfcr, isWs, Bool.or_eq_true, beq_iff_eq] at h
  rcases h with ((((rfl | rfl) | rfl) | rfl) | rfl) | rfl <;> decide

theorem minus_plain : isDigit CHAR_MINUS = false ∧ isSpace CHAR_MINUS = false ∧ CHAR_MINUS ≠ 0 := by decide

namespace Numeral

variable (n : Numeral)

theorem takeWhile_digits : (n.digits ++ n.behind).takeWhile isDigit = n.digits := by
  have hbehind : n.behind.takeWhile isDigit = [] := by
    cases hb : n.behind with
    | nil => rfl
    | cons c s => exact List.takeWhile_cons_of_neg (by simp [n.behind_head c (by simp [hb])])
  rw [List.takeWhile_append_of_pos n.digits_digit, hbehind, List.append_nil]

theorem dropWhile_digits : (n.digits ++ n.behind).dropWhile isDigit = n.behind := by
  have h : n.digits ++ (n.digits ++ n.behind).dropWhile isDigit = n.digits ++ n.behind := by
    conv_rhs => rw [← List.takeWhile_append_dropWhile (p := isDigit) (l := n.digits ++ n.behind), takeWhile_digits]
  exact List.append_cancel_left h

theorem number_digits : number (n.digits ++ n.behind) = number n.digits := by
  rw [number, number, takeWhile_digits, List.takeWhile_eq_self_iff.mpr n.digits_digit]

/-- the first byte behind the blanks is the sign or a digit -/
theorem text_cases : ∃ c t, (if n.minus then [CHAR_MINUS] else []) ++ (n.digits ++ n.behind) = c :: t ∧ isSpace c = false ∧
    (n.minus = true ∧ c = CHAR_MINUS ∧ t = n.digits ++ n.behind ∨
      n.minus = false ∧ isDigit c = true ∧ c :: t = n.digits ++ n.behind) := by
  cases hm : n.minus with
  | true => exact ⟨CHAR_MINUS, n.digits ++ n.behind, rfl, minus_plain.2.1, Or.inl ⟨rfl, rfl, rfl⟩⟩
  | false =>
    obtain ⟨c, t, hd⟩ := List.exists_cons_of_ne_nil n.digits_ne
    have hdigit : isDigit c = true := n.digits_digit c (by simp [hd])
    refine ⟨c, t ++ n.behind, ?_, (isDigit_plain c hdigit).1, Or.inr ⟨rfl, hdigit, ?_⟩⟩
    · simp [hd]
    · simp [hd]

theorem dropWhile_bytes {p : UInt8 → Bool} (hp : ∀ c, isSpace c = true → p c = true) {c : UInt8} {t : Bytes}
    (ht : (if n.minus then [CHAR_MINUS] else []) ++ (n.digits ++ n.behind) = c :: t) (hc : p c = false) :
    n.bytes.dropWhile p = c :: t := by
  rw [bytes, ht, List.dropWhile_append_of_pos fun b hb => hp b (n.blanks_space b hb), List.dropWhile_cons_of_neg (by simp [hc])]

theorem ofInt_value (w : ℕ) :
    BitVec.ofInt w n.value = if n.minus then -BitVec.ofNat w (number n.digits) else BitVec.ofNat w (number n.digits) := by
  rw [value]
  cases n.minus with
  | true => simp [BitVec.ofInt_neg]
  | false => simp

end Numeral

/-- behind blanks or a sign a text does not begin with a digit -/
theorem bytes_digit {n : Numeral} {c : UInt8} {t : Bytes} (h : n.bytes = c :: t) (hc : isDigit c = true) :
    n.minus = false ∧ c :: t = n.digits ++ n.behind := by
  obtain ⟨c', t', ht, -, hcases⟩ := n.text_cases
  rw [Numeral.bytes, ht] at h
  cases hb : n.blanks with
  | nil =>
    rw [hb, List.nil_append] at h
    obtain ⟨rfl, rfl⟩ := List.cons.inj h
    rcases hcases with ⟨-, rfl, -⟩ | ⟨hm, -, hd⟩
    · exact absurd (hc.symm.trans minus_plain.1) (by decide)
    · exact ⟨hm, hd⟩
  | cons b blanks =>
    rw [hb, List.cons_append] at h
    obtain ⟨rfl, -⟩ := List.cons.inj h
    exact absurd (hc.symm.trans (isSpace_plain b (n.blanks_space b (by simp [hb]))).1) (by decide)

theorem mimeParseSigned_numeral (w : ℕ) (n : Numeral) : mimeParseSigned w n.bytes = BitVec.ofInt w n.value := by
  obtain ⟨c', t', ht, hspace, hcases⟩ := n.text_cases
  have hdrop : n.bytes.dropWhile isSpace = c' :: t' := n.dropWhile_bytes (fun _ h => h) ht hspace
  have hsub : subDigits (0 : BitVec w) (n.digits ++ n.behind) = -BitVec.ofNat w (number n.digits) := by
    rw [subDigits_zero, n.number_digits]
  rw [n.ofInt_value]
  cases hbytes : n.bytes with
  | nil => simp [hbytes] at hdrop
  | cons c t =>
    rw [mimeParseSigned, ← hbytes, hdrop]
    by_cases hc : isDigit c = true
    · obtain ⟨hm, hd⟩ := bytes_digit hbytes hc
      rw [if_pos hc, addDigits_cons hc, hd, n.number_digits, if_neg (by simp [hm])]
    · rw [if_neg hc]
      rcases hcases with ⟨hm, rfl, rfl⟩ | ⟨hm, hdigit, hd⟩
      · simp only [List.head?_cons, List.tail_cons, if_true, hm, hsub]
      · have hplus : c' ≠ CHAR_MINUS := by
          rintro rfl
          exact absurd (hdigit.symm.trans minus_plain.1) (by decide)
        rw [← hd] at hsub
        simp only [List.head?_cons, Option.some.injEq, hplus, if_false, hsub, neg_neg, hm, Bool.false_eq_true]

theorem mimeParseUint_numeral (n : Numeral) : mimeParseUint n.bytes = if n.minus then 0 else number n.digits % 2 ^ 32 := by
  obtain ⟨c', t', ht, hspace, hcases⟩ := n.text_cases
  have hdrop : n.bytes.dropWhile isSpace = c' :: t' := n.dropWhile_bytes (fun _ h => h) ht hspace
  cases hbytes : n.bytes with
  | nil => simp [hbytes] at hdrop
  | cons c t =>
    rw [mimeParseUint, ← hbytes, hdrop]
    by_cases hc : isDigit c = true
    · obtain ⟨hm, hd⟩ := bytes_digit hbytes hc
      rw [if_pos hc, addDigits_cons hc, hd, n.number_digits, if_neg (by simp [hm]), BitVec.toNat_ofNat]
    · rw [if_neg hc, addDigits_zero, BitVec.toNat_ofNat]
      rcases hcases with ⟨hm, rfl, rfl⟩ | ⟨hm, hdigit, hd⟩
      · rw [if_pos hm, number, List.takeWhile_cons_of_neg (by simp [minus_plain.1])]
        rfl
      · rw [if_neg (by simp [hm]), hd, n.number_digits]

/-- the same number for the callers that go on behind it -/
theorem mimeParseInteger_numeral (n : Numeral) : mimeParseInteger n.bytes = some ((BitVec.ofInt 32 n.value).toInt, n.behind) := by
  let p : UInt8 → Bool := fun c => c ≠ 0 && !isDigit c && c ≠ CHAR_MINUS
  have hp : ∀ c, isSpace c = true → p c = true := by
    intro c hc
    obtain ⟨hdigit, hzero, hminus⟩ := isSpace_plain c hc
    simp [p, hdigit, hzero, hminus]
  have hdigit_ne : ∀ c, isDigit c = true → p c = false ∧ c ≠ 0 ∧ c ≠ CHAR_MINUS := by
    intro c hc
    exact ⟨by simp [p, hc], isDigit_ne hc (by decide), isDigit_ne hc (by decide)⟩
  have hadd : addDigits (0 : BitVec 32) (n.digits ++ n.behind) = BitVec.ofNat 32 (number n.digits) := by
    rw [addDigits_zero, n.number_digits]
  obtain ⟨c, t, ht, -, hcases⟩ := n.text_cases
  rw [n.ofInt_value]
  rcases hcases with ⟨hm, rfl, rfl⟩ | ⟨hm, hdigit, hd⟩
  · have hdrop : n.bytes.dropWhile p = CHAR_MINUS :: (n.digits ++ n.behind) := n.dropWhile_bytes hp ht (by decide)
    simp only [mimeParseInteger]
    rw [hdrop]
    simp only [minus_plain.2.2, if_false, if_true, hadd, hm, n.dropWhile_digits]
  · obtain ⟨hpc, hzero, hplus⟩ := hdigit_ne c hdigit
    have hdrop : n.bytes.dropWhile p = c :: t := n.dropWhile_bytes hp ht hpc
    simp only [mimeParseInteger]
    rw [hdrop]
    simp only [hzero, hplus, if_false, hd, hadd, hm, n.dropWhile_digits, Bool.false_eq_true]

/-! ## Exactness -/

theorem exact_iff {lo hi value result : ℤ} (hresult : lo ≤ result ∧ result < hi) (h : lo ≤ value ∧ value < hi → result = value) :
    Exact lo hi value result ↔ lo ≤ value ∧ value < hi := by
  constructor
  · intro hexact
    by_contra hout
    exact hexact.2 hout hresult
  · intro hin
    exact ⟨h, fun hout => absurd hin hout⟩

theorem toInt_exact_iff {w : ℕ} (hw : 0 < w) (v : ℤ) :
    Exact (-2 ^ (w - 1)) (2 ^ (w - 1)) v (BitVec.ofInt w v).toInt ↔ -2 ^ (w - 1) ≤ v ∧ v < 2 ^ (w - 1) := by
  apply exact_iff ⟨BitVec.le_toInt _, BitVec.toInt_lt⟩
  intro h
  exact BitVec.toInt_ofInt_eq_self hw h.1 h.2

/-- **Exact numbers.** Each function returns the number that is written, and no other one in its place, exactly if its type has the number. -/
theorem mime_parse_exact_iff (n : Numeral) :
    (Exact (-2 ^ 31) (2 ^ 31) n.value (mimeParseInt n.bytes) ↔ -2 ^ 31 ≤ n.value ∧ n.value < 2 ^ 31) ∧
      (Exact 0 (2 ^ 32) n.value (mimeParseUint n.bytes) ↔ 0 ≤ n.value ∧ n.value < 2 ^ 32) ∧
      (Exact (-2 ^ 63) (2 ^ 63) n.value (mimeParseInt64 n.bytes) ↔ -2 ^ 63 ≤ n.value ∧ n.value < 2 ^ 63) := by
  refine ⟨?_, ?_, ?_⟩
  · rw [mimeParseInt, mimeParseSigned_numeral]
    exact toInt_exact_iff (w := 32) (by decide) n.value
  · rw [mimeParseUint_numeral, Numeral.value]
    cases n.minus with
    | true =>
      apply exact_iff ⟨le_refl _, by decide⟩
      intro h
      simp only [if_true] at h ⊢
      omega
    | false =>
      have hbound : number n.digits % 2 ^ 32 < 2 ^ 32 := Nat.mod_lt _ (by decide)
      apply exact_iff ⟨Int.natCast_nonneg _, by exact_mod_cast hbound⟩
      intro h
      have hlt : number n.digits < 2 ^ 32 := by
        simp only [Bool.false_eq_true, if_false] at h
        exact_mod_cast h.2
      exact congrArg Nat.cast (Nat.mod_eq_of_lt hlt)
  · rw [mimeParseInt64, mimeParseSigned_numeral]
    exact toInt_exact_iff (w := 64) (by decide) n.value

/-- 2⁶⁴ + 1 is taken for 1 by all of them -/
theorem mime_parse_wraps : ∃ n : Numeral, n.bytes = text "18446744073709551617" ∧ n.value = 2 ^ 64 + 1 ∧
    mimeParseInt n.bytes = 1 ∧ mimeParseUint n.bytes = 1 ∧ mimeParseInt64 n.bytes = 1 ∧
    ¬ Exact (-2 ^ 31) (2 ^ 31) n.value (mimeParseInt n.bytes) ∧ ¬ Exact 0 (2 ^ 32) n.value (mimeParseUint n.bytes) ∧
    ¬ Exact (-2 ^ 63) (2 ^ 63) n.value (mimeParseInt64 n.bytes) := by
  refine ⟨⟨[], false, text "18446744073709551617", [], by simp, by decide +kernel, by decide +kernel, by simp⟩, ?_⟩
  decide +kernel

end TrafficServer.Hdrs.MimeNumber
