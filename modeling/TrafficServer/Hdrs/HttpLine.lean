/-
The first line of a message, for the parsers in `proxy/hdrs/HTTP.cc`.

The scanner (`mime_scanner_get` in `proxy/hdrs/MIME.cc`) gives the parsers a line when it has one, whatever pieces the input comes
in. A line ends with its only LF and has no NUL (`Line`, `mimeScannerGet_line`). The parsers go through it with several classes
of white space (`ParseRules`), which are not the same.
-/
import Mathlib
import TrafficServer.Hdrs.HdrToken

namespace TrafficServer.Hdrs.HttpParse

abbrev Bytes := List UInt8

abbrev CHAR_HT : UInt8 := 9
abbrev CHAR_LF : UInt8 := 10
abbrev CHAR_VT : UInt8 := 11
abbrev CHAR_NP : UInt8 := 12
abbrev CHAR_CR : UInt8 := 13
abbrev CHAR_SP : UInt8 := 32

/-! ## `ParseRules` -/

def isDigit (c : UInt8) : Bool := 48 ≤ c && c ≤ 57

/-- SP, HT -/
def isWs (c : UInt8) : Bool := c == CHAR_SP || c == CHAR_HT

/-- SP, HT, LF, CR -/
def isWslfcr (c : UInt8) : Bool := isWs c || c == CHAR_LF || c == CHAR_CR

/-- SP, HT, VT, NP, CR, LF -/
def isSpace (c : UInt8) : Bool := isWslfcr c || c == CHAR_VT || c == CHAR_NP

def isCrlf (c : UInt8) : Bool := c == CHAR_CR || c == CHAR_LF

/-- printable, and no special -/
def isToken (c : UInt8) : Bool := 32 ≤ c && c < 127 && !(text "()<>@,;:\\\"/[]?=\x7b\x7d \t").contains c

/-- the number of the digits in front -/
def number (s : Bytes) : ℕ := (s.takeWhile isDigit).foldl (fun n c => n * 10 + (c.toNat - 48)) 0

/-- either case -/
def isLetter (upper c : UInt8) : Bool := c == upper || c == upper + 32

/-- the text behind `HTTP/` -/
def skipHttp : Bytes → Option Bytes
  | c₀ :: c₁ :: c₂ :: c₃ :: c₄ :: s =>
    if isLetter 72 c₀ && isLetter 84 c₁ && isLetter 84 c₂ && isLetter 80 c₃ && c₄ == 47 then some s else none
  | _ => none

def HTTP_VERSION (a b : ℕ) : ℕ := a % 2 ^ 16 * 2 ^ 16 + b % 2 ^ 16

/-- `http_parse_version` -/
def httpParseVersion (s : Bytes) : ℕ :=
  if s.length < 8 then HTTP_VERSION 0 9
  else
    match skipHttp s with
    | none => HTTP_VERSION 0 9
    | some s =>
      let t := s.dropWhile isDigit
      HTTP_VERSION (number s) (number (if t.head? = some 46 then t.tail else t))

theorem isSpace_of_isWs (c : UInt8) (h : isWs c = true) : isSpace c = true := by
  simp [isSpace, isWslfcr, h]

theorem isSpace_of_isCrlf (c : UInt8) (h : isCrlf c = true) : isSpace c = true := by
  simp only [isCrlf, Bool.or_eq_true, beq_iff_eq] at h
  rcases h with rfl | rfl <;> decide

theorem isDigit_iff (c : UInt8) : isDigit c = true ↔ 48 ≤ c.toNat ∧ c.toNat ≤ 57 := by
  simp [isDigit, UInt8.le_iff_toNat_le]

theorem isDigit_ne {c k : UInt8} (h : isDigit c = true) (hk : k.toNat < 48) : c ≠ k := by
  rintro rfl
  have hbounds := (isDigit_iff c).mp h
  omega

/-- a digit is neither a blank nor a period, and nothing else is a digit -/
theorem isDigit_plain (c : UInt8) (h : isDigit c = true) : isSpace c = false ∧ isWs c = false ∧ c ≠ 46 ∧ c.toNat - 48 < 10 := by
  have hbounds := (isDigit_iff c).mp h
  have hne : ∀ k : UInt8, k.toNat < 48 → c ≠ k := fun k hk => isDigit_ne h hk
  have hws : isWs c = false := by simp [isWs, hne CHAR_SP (by decide), hne CHAR_HT (by decide)]
  have hspace : isSpace c = false := by
    simp [isSpace, isWslfcr, hws, hne CHAR_LF (by decide), hne CHAR_CR (by decide), hne CHAR_VT (by decide), hne CHAR_NP (by decide)]
  exact ⟨hspace, hws, hne 46 (by decide), by omega⟩

theorem HTTP_VERSION_inj {a b c d : ℕ} (ha : a < 2 ^ 16) (hb : b < 2 ^ 16) (hc : c < 2 ^ 16) (hd : d < 2 ^ 16) :
    HTTP_VERSION a b = HTTP_VERSION c d ↔ a = c ∧ b = d := by
  simp only [HTTP_VERSION, Nat.mod_eq_of_lt ha, Nat.mod_eq_of_lt hb, Nat.mod_eq_of_lt hc, Nat.mod_eq_of_lt hd]
  omega

/-- a version of one digit and one digit -/
theorem httpParseVersion_digits {h t t' p major minor : UInt8} (hhttp : isLetter 72 h && isLetter 84 t && isLetter 84 t' && isLetter 80 p)
    (hmajor : isDigit major = true) (hminor : isDigit minor = true) :
    httpParseVersion [h, t, t', p, 47, major, 46, minor] = HTTP_VERSION (major.toNat - 48) (minor.toNat - 48) := by
  have hperiod : isDigit 46 = false := by decide
  simp only [httpParseVersion, skipHttp, hhttp]
  simp [number, hmajor, hminor, hperiod]

theorem HTTP_VERSION_0_9_iff {major minor : UInt8} (hmajor : isDigit major = true) (hminor : isDigit minor = true) :
    HTTP_VERSION (major.toNat - 48) (minor.toNat - 48) = HTTP_VERSION 0 9 ↔ major = 48 ∧ minor = 57 := by
  have hdigit : ∀ c : UInt8, isDigit c = true → (c.toNat - 48 = 0 ↔ c = 48) ∧ (c.toNat - 48 = 9 ↔ c = 57) := by
    intro c hc
    have hbounds := (isDigit_iff c).mp hc
    simp only [← UInt8.toNat_inj, UInt8.reduceToNat]
    omega
  have h1 := (isDigit_plain _ hmajor).2.2.2
  have h2 := (isDigit_plain _ hminor).2.2.2
  rw [HTTP_VERSION_inj (by omega) (by omega) (by decide) (by decide), (hdigit _ hmajor).1, (hdigit _ hminor).2]

/-! ## White space at the end -/

section Trim

variable {α : Type*} {p q : α → Bool} {l m : List α}

theorem rdropWhile_append_of_ne_nil (h : m.rdropWhile p ≠ []) : (l ++ m).rdropWhile p = l ++ m.rdropWhile p := by
  have hne : (m.reverse.dropWhile p).isEmpty = false := by
    simpa [List.rdropWhile] using h
  simp only [List.rdropWhile, List.reverse_append, List.dropWhile_append, hne]
  simp

theorem rdropWhile_cons_of_neg {a : α} (h : p a = false) : (a :: l).rdropWhile p = a :: l.rdropWhile p := by
  by_cases hl : l.rdropWhile p = []
  · have hall : ∀ x ∈ l.reverse, p x = true := by
      simpa using List.rdropWhile_eq_nil_iff.mp hl
    rw [hl, List.rdropWhile, List.reverse_cons, List.dropWhile_append_of_pos hall]
    simp [h]
  · exact rdropWhile_append_of_ne_nil (l := [a]) hl

/-- trimming less before trimming more makes no difference -/
theorem rdropWhile_rdropWhile (h : ∀ a, p a = true → q a = true) : (l.rdropWhile p).rdropWhile q = l.rdropWhile q := by
  induction l using List.reverseRecOn with
  | nil => rfl
  | append_singleton l a ih =>
    by_cases ha : p a = true
    · rw [List.rdropWhile_concat_pos _ _ _ ha, List.rdropWhile_concat_pos _ _ _ (h a ha), ih]
    · rw [List.rdropWhile_concat_neg _ _ _ ha]

theorem rdropWhile_eq_self_iff_getLast : l.rdropWhile p = l ↔ ∀ a ∈ l.getLast?, p a = false := by
  rw [List.rdropWhile_eq_self_iff]
  cases l using List.reverseRecOn with
  | nil => simp
  | append_singleton l a => simp

end Trim

/-! ## Lines -/

structure Line where
  text : Bytes
  no_lf : CHAR_LF ∉ text
  no_nul : 0 ∉ text

/-- what the parser sees, from `line_start` to `end` -/
def Line.bytes (line : Line) : Bytes := line.text ++ [CHAR_LF]

/-! ## The scanner -/

/-- `MIMEParseState` -/
inductive MIMEParseState where
  | before
  | foundCr
  | inside
  | after
deriving DecidableEq

structure MIMEScanner where
  /-- what came before -/
  line : Bytes
  state : MIMEParseState

inductive ParseResult where
  | error
  | done
  | ok
  | cont
deriving DecidableEq

/-- what the loop has found: the scanner, the result, and how many bytes it went over -/
structure Scan where
  scanner : MIMEScanner
  result : ParseResult
  size : ℕ

namespace MIMEScanner

/-- `mime_scanner_append` -/
def append (S : MIMEScanner) (data : Bytes) : MIMEScanner := { S with line := S.line ++ data }

/-- `MIME_PARSE_INSIDE`, for lines -/
def scanInside (S : MIMEScanner) (input : Bytes) (size : ℕ) : Scan :=
  if CHAR_LF ∈ input then ⟨{ S with state := .before }, .ok, size + input.idxOf CHAR_LF + 1⟩
  else ⟨{ S with state := .inside }, .cont, size + input.length⟩

/-- `MIME_PARSE_FOUND_CR` -/
def scanFoundCr (S : MIMEScanner) (input : Bytes) (size : ℕ) : Scan :=
  match input with
  | [] => ⟨{ S with state := .foundCr }, .cont, size⟩
  | c :: _ => if c = CHAR_LF then ⟨{ S with state := .foundCr }, .done, size + 1⟩ else (S.append [CHAR_CR]).scanInside input size

/-- `MIME_PARSE_BEFORE` -/
def scanBefore (S : MIMEScanner) (input : Bytes) : Scan :=
  match input with
  | [] => ⟨S, .cont, 0⟩
  | c :: rest =>
    if c = CHAR_CR then
      match rest with
      | d :: _ => if d = CHAR_LF then ⟨S, .done, 2⟩ else S.scanFoundCr rest 1
      | [] => S.scanFoundCr rest 1
    else if c = CHAR_LF then ⟨S, .done, 1⟩
    else S.scanInside input 0

/-- the loop -/
def scan (S : MIMEScanner) (input : Bytes) : Scan :=
  match S.state with
  | .before => S.scanBefore input
  | .foundCr => S.scanFoundCr input 0
  | .inside => S.scanInside input 0
  -- not for lines
  | .after => ⟨S, .cont, 0⟩

/-- the end of the input, or of what there is of it -/
def runOut (r : Scan) (data : Bytes) (eof : Bool) : Scan :=
  if r.result ≠ .cont then r
  else if eof then
    if data = [] ∧ r.scanner.state ≠ .inside then { r with scanner := { r.scanner with state := .before }, result := .done }
    else { r with result := .error }
  else r

/-- `mime_scanner_get` for a line: the result, the line if there is one, and the scanner -/
def mimeScannerGet (S : MIMEScanner) (input : Bytes) (eof : Bool) : ParseResult × Bytes × MIMEScanner :=
  let r := S.scan input
  let data := input.take r.size
  let r := runOut r data eof
  let S := r.scanner
  -- inside a line the data is kept; where something was kept it is added to it
  let S := if r.result = .cont ∧ S.state = .inside then S.append data else if S.line ≠ [] then S.append data else S
  let output := if S.line ≠ [] then S.line else data
  let S := if r.result = .cont then S else { S with line := [] }
  if r.result ≠ .error ∧ 0 ∈ data then (.error, output, S) else (r.result, output, S)

/-! ### What it gives -/

/-- what was kept belongs to one line -/
structure Ok (S : MIMEScanner) : Prop where
  no_lf : CHAR_LF ∉ S.line
  no_nul : 0 ∉ S.line
  state_ne : S.state ≠ .after

/-- what the loop does to `input`, of which it has gone over the first `size` bytes before -/
structure Spec (S : MIMEScanner) (input : Bytes) (r : Scan) : Prop where
  line : r.scanner.line = S.line ∨ r.scanner.line = S.line ++ [CHAR_CR]
  state_ne : r.scanner.state ≠ .after
  ok : r.result = .ok → ∃ x, input.take r.size = x ++ [CHAR_LF] ∧ CHAR_LF ∉ x
  cont : r.result = .cont → CHAR_LF ∉ input.take r.size

variable {S : MIMEScanner} {input pre : Bytes}

theorem scanInside_line (S : MIMEScanner) (input : Bytes) (size : ℕ) : (S.scanInside input size).scanner.line = S.line := by
  unfold scanInside
  split_ifs <;> rfl

theorem scanInside_spec (S : MIMEScanner) (input : Bytes) (hpre : CHAR_LF ∉ pre) :
    Spec S (pre ++ input) (S.scanInside input pre.length) := by
  unfold scanInside
  by_cases hlf : CHAR_LF ∈ input
  · rw [if_pos hlf]
    obtain ⟨x, y, rfl, hx⟩ := List.eq_append_cons_of_mem hlf
    have hidx : (x ++ CHAR_LF :: y).idxOf CHAR_LF = x.length := by
      rw [List.idxOf_append_of_notMem hx, List.idxOf_cons_self, Nat.add_zero]
    refine ⟨Or.inl rfl, by simp, fun _ => ⟨pre ++ x, ?_, by simp [hpre, hx]⟩, fun h => absurd h (by simp)⟩
    have hsplit : pre ++ (x ++ CHAR_LF :: y) = (pre ++ x ++ [CHAR_LF]) ++ y := by simp
    have hlen : pre.length + (x ++ CHAR_LF :: y).idxOf CHAR_LF + 1 = (pre ++ x ++ [CHAR_LF]).length := by
      rw [hidx]
      simp [Nat.add_assoc]
    simp only [hlen]
    rw [hsplit, List.take_left]
  · rw [if_neg hlf]
    refine ⟨Or.inl rfl, by simp, fun h => absurd h (by simp), fun _ => ?_⟩
    rw [← List.length_append, List.take_length]
    simp [hpre, hlf]

theorem scanFoundCr_spec (S : MIMEScanner) (input : Bytes) (hpre : CHAR_LF ∉ pre) :
    Spec S (pre ++ input) (S.scanFoundCr input pre.length) := by
  cases input with
  | nil =>
    refine ⟨Or.inl rfl, by simp [scanFoundCr], fun h => absurd h (by simp [scanFoundCr]), fun _ => ?_⟩
    simpa [scanFoundCr] using hpre
  | cons c rest =>
    unfold scanFoundCr
    dsimp only
    by_cases hc : c = CHAR_LF
    · rw [if_pos hc]
      exact ⟨Or.inl rfl, by simp, fun h => absurd h (by simp), fun h => absurd h (by simp)⟩
    · rw [if_neg hc]
      obtain ⟨_, hstate, hok, hcont⟩ := scanInside_spec (S.append [CHAR_CR]) (c :: rest) hpre
      exact ⟨Or.inr (scanInside_line _ _ _), hstate, hok, hcont⟩

theorem scan_spec (hS : S.Ok) (input : Bytes) : Spec S input (S.scan input) := by
  have hnil : CHAR_LF ∉ ([] : Bytes) := List.not_mem_nil
  unfold scan
  cases hstate : S.state with
  | before =>
    dsimp only
    unfold scanBefore
    match input with
    | [] => exact ⟨Or.inl rfl, hS.state_ne, fun h => absurd h (by simp), fun _ => by simp⟩
    | c :: rest =>
      dsimp only
      by_cases hcr : c = CHAR_CR
      · rw [if_pos hcr]
        have hpre : CHAR_LF ∉ [c] := by
          rw [hcr]
          decide
        match rest with
        | [] => exact scanFoundCr_spec S [] hpre
        | d :: rest =>
          dsimp only
          by_cases hlf : d = CHAR_LF
          · rw [if_pos hlf]
            exact ⟨Or.inl rfl, hS.state_ne, fun h => absurd h (by simp), fun h => absurd h (by simp)⟩
          · rw [if_neg hlf]
            exact scanFoundCr_spec S (d :: rest) hpre
      · rw [if_neg hcr]
        by_cases hlf : c = CHAR_LF
        · rw [if_pos hlf]
          exact ⟨Or.inl rfl, hS.state_ne, fun h => absurd h (by simp), fun h => absurd h (by simp)⟩
        · rw [if_neg hlf]
          exact scanInside_spec S (c :: rest) hnil
  | foundCr => exact scanFoundCr_spec S input hnil
  | inside => exact scanInside_spec S input hnil
  | after => exact absurd hstate hS.state_ne

theorem runOut_spec (r : Scan) (data : Bytes) (eof : Bool) :
    (runOut r data eof).scanner.line = r.scanner.line ∧ ((runOut r data eof).result = .ok → r.result = .ok) ∧
    ((runOut r data eof).result = .cont → runOut r data eof = r) := by
  unfold runOut
  split_ifs with h1 h2 h3
  · exact ⟨rfl, id, fun _ => rfl⟩
  · exact ⟨rfl, by simp, by simp⟩
  · exact ⟨rfl, by simp, by simp⟩
  · exact ⟨rfl, id, fun _ => rfl⟩

/-- a line is found, or the scanner goes on with what it keeps -/
theorem mimeScannerGet_line (hS : S.Ok) (input : Bytes) (eof : Bool) :
    ((S.mimeScannerGet input eof).1 = .ok → ∃ line : Line, (S.mimeScannerGet input eof).2.1 = line.bytes) ∧
    ((S.mimeScannerGet input eof).1 = .cont → (S.mimeScannerGet input eof).2.2.Ok) := by
  obtain ⟨hline, hstate, hok, hcont⟩ := scan_spec hS input
  obtain ⟨hrunLine, hrunOk, hrunCont⟩ := runOut_spec (S.scan input) (input.take (S.scan input).size) eof
  have hkept : CHAR_LF ∉ (S.scan input).scanner.line ∧ 0 ∉ (S.scan input).scanner.line := by
    have h1 := hS.no_lf
    have h2 := hS.no_nul
    rcases hline with h | h <;> rw [h] <;> simp [h1, h2, CHAR_LF, CHAR_CR]
  rw [← hrunLine] at hkept
  unfold mimeScannerGet
  dsimp only
  set data := input.take (S.scan input).size with hdata
  set r := runOut (S.scan input) data eof with hr
  by_cases hnul : r.result ≠ .error ∧ 0 ∈ data
  · rw [if_pos hnul]
    exact ⟨by simp, by simp⟩
  · rw [if_neg hnul]
    constructor
    · intro (hres : r.result = .ok)
      obtain ⟨x, hx, hlf⟩ := hok (hrunOk hres)
      have hzero : 0 ∉ data := fun h => hnul ⟨by simp [hres], h⟩
      rw [hx] at hzero
      have hx0 : 0 ∉ x := fun h => hzero (List.mem_append_left _ h)
      have hne : ¬ (r.result = .cont ∧ r.scanner.state = .inside) := by simp [hres]
      rw [if_neg hne, hx]
      by_cases hkeep : r.scanner.line ≠ []
      · refine ⟨⟨r.scanner.line ++ x, by simp [hkept.1, hlf], by simp [hkept.2, hx0]⟩, ?_⟩
        simp [if_pos hkeep, append, Line.bytes]
      · exact ⟨⟨x, hlf, hx0⟩, by simp [if_neg hkeep, Line.bytes]⟩
    · intro (hres : r.result = .cont)
      have hsame := hrunCont hres
      have hdataLf : CHAR_LF ∉ data := hcont (hsame ▸ hres)
      have hzero : 0 ∉ data := fun h => hnul ⟨by simp [hres], h⟩
      have hstate' : r.scanner.state ≠ .after := hsame ▸ hstate
      have hadd : (r.scanner.append data).Ok := ⟨by simp [append, hkept.1, hdataLf], by simp [append, hkept.2, hzero], hstate'⟩
      change MIMEScanner.Ok (if r.result = .cont then _ else _)
      rw [if_pos hres]
      split_ifs
      · exact hadd
      · exact hadd
      · exact ⟨hkept.1, hkept.2, hstate'⟩

end MIMEScanner

end TrafficServer.Hdrs.HttpParse
