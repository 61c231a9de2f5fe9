/-
The status line (`http_parser_parse_resp` in `proxy/hdrs/HTTP.cc`).

A line that looks as it should at some fixed places is taken apart at fixed places (`parseRespFast`); every other one goes
through the general parser (`parseRespSlow`), a machine with a place in the line. A label of the machine is a function of the text from
`cur` to `end`, and `GETNEXT` goes to its label where that text ends.

`resp_fast_slow`: for a line that passes the test of the first, the second does the same exactly if the version is not 0.9, the
byte behind the three digits of the status, which the test leaves out, is a blank, and no blank stands at the end of the reason.
-/
import TrafficServer.Hdrs.HttpLine

namespace TrafficServer.Hdrs.HttpParse

/-- what becomes of a line -/
inductive RespLine where
  /-- no HTTP; the line is given back -/
  | eoh
  | error
  /-- what is stored before the fields are parsed -/
  | stored (version : ℕ) (status : Option (BitVec 16)) (reason : Option Bytes)
deriving DecidableEq

/-! ## The fast path -/

/-- `cur[i]` -/
def cur (line : Bytes) (i : ℕ) : UInt8 := line.getD i 0

def respFast (line : Bytes) : Bool :=
  16 ≤ line.length && cur line 0 == 72 && cur line 1 == 84 && cur line 2 == 84 && cur line 3 == 80 && cur line 4 == 47 &&
    cur line 6 == 46 && cur line 8 == 32 && isDigit (cur line 5) && isDigit (cur line 7) && isDigit (cur line 9) &&
    isDigit (cur line 10) && isDigit (cur line 11) && !isSpace (cur line 13)

/-- the white space at the end goes, the first byte stays -/
def trimReason : Bytes → Bytes
  | [] => []
  | c :: s => c :: s.rdropWhile isSpace

def digitAt (line : Bytes) (i : ℕ) : ℕ := (cur line i).toNat - 48

def parseRespFast (line : Bytes) : RespLine :=
  .stored (HTTP_VERSION (digitAt line 5) (digitAt line 7))
    (some (BitVec.ofNat 16 (digitAt line 9 * 100 + digitAt line 10 * 10 + digitAt line 11)))
    (some (trimReason (line.drop 13).dropLast))

/-! ## The general parser -/

/-- `parse_version2`: from behind the period on -/
def parseVersion2 : Bytes → Option Bytes
  | [] => none
  | c :: s => if isDigit c then parseVersion2 s else if c = 46 then some s else none

/-- `parse_version3`: from `version_end` on, where a blank is and something behind it -/
def parseVersion3 : Bytes → Option Bytes
  | [] => none
  | c :: s => if isDigit c then parseVersion3 s else if isWs c && s ≠ [] then some (c :: s) else none

/-- `parse_status1`: from `status_start` on -/
def parseStatus1 : Bytes → Option Bytes
  | [] => none
  | c :: s => if isWs c then parseStatus1 s else some (c :: s)

/-- `parse_status2`: the text up to `status_end`, and what is behind the blank there -/
def parseStatus2 (status : Bytes) : Bytes → Bytes × Option Bytes
  | [] => (status, none)
  | c :: s =>
    if isDigit c then if s = [] then (status, none) else parseStatus2 (status ++ [c]) s
    else if isWs c then (status, if s = [] then none else some s)
    else (status, none)

/-- `parse_reason1`: a blank is before `reason_start`, so that `reason_end` is not before it -/
def parseReason1 : Bytes → Option Bytes
  | [] => none
  | c :: s => if isWs c then parseReason1 s else some ((c :: s).rdropWhile isCrlf)

/-- `http_parse_status`, in an `int16_t` -/
def httpParseStatus (s : Bytes) : BitVec 16 := BitVec.ofNat 16 (number (s.dropWhile isSpace))

/-- from `parse_status1` on: the status and the reason -/
def parseStatus (s : Bytes) : Option (BitVec 16) × Option Bytes :=
  match parseStatus1 s with
  | none => (none, none)
  | some s =>
    let r := parseStatus2 [] s
    (some (httpParseStatus r.1), r.2.bind parseReason1)

def parseRespSlow (line : Bytes) : RespLine :=
  match (skipHttp line).bind fun s => (parseVersion2 s).bind parseVersion3 with
  | none => .eoh
  | some rest =>
    let version := httpParseVersion (line.take (line.length - rest.length))
    if version = HTTP_VERSION 0 9 then .error
    else .stored version (parseStatus rest.tail).1 (parseStatus rest.tail).2

def parseResp (line : Bytes) : RespLine := if respFast line then parseRespFast line else parseRespSlow line

/-! ## A line for the fast path -/

/-- its bytes -/
structure FastResp where
  major : UInt8
  minor : UInt8
  s₁ : UInt8
  s₂ : UInt8
  s₃ : UInt8
  /-- the byte that is not looked at -/
  gap : UInt8
  first : UInt8
  rest : Bytes
  digits : isDigit major = true ∧ isDigit minor = true ∧ isDigit s₁ = true ∧ isDigit s₂ = true ∧ isDigit s₃ = true
  first_space : isSpace first = false

namespace FastResp

variable (f : FastResp)

def bytes : Bytes :=
  72 :: 84 :: 84 :: 80 :: 47 :: f.major :: 46 :: f.minor :: 32 :: f.s₁ :: f.s₂ :: f.s₃ :: f.gap :: f.first :: f.rest

theorem exists_of_respFast {line : Bytes} (h : respFast line = true) : ∃ f : FastResp, line = f.bytes := by
  simp only [respFast, Bool.and_eq_true, decide_eq_true_eq, beq_iff_eq, Bool.not_eq_true'] at h
  obtain ⟨⟨⟨⟨⟨⟨⟨⟨⟨⟨⟨⟨⟨hlen, h0⟩, h1⟩, h2⟩, h3⟩, h4⟩, h6⟩, h8⟩, h5⟩, h7⟩, h9⟩, h10⟩, h11⟩, h13⟩ := h
  rcases line with _ | ⟨c0, _ | ⟨c1, _ | ⟨c2, _ | ⟨c3, _ | ⟨c4, _ | ⟨c5, _ | ⟨c6, _ | ⟨c7, _ | ⟨c8, _ | ⟨c9, _ | ⟨c10, _ | ⟨c11,
    _ | ⟨c12, _ | ⟨c13, rest⟩⟩⟩⟩⟩⟩⟩⟩⟩⟩⟩⟩⟩⟩
  case cons.cons.cons.cons.cons.cons.cons.cons.cons.cons.cons.cons.cons.cons =>
    obtain rfl : c0 = 72 := h0
    obtain rfl : c1 = 84 := h1
    obtain rfl : c2 = 84 := h2
    obtain rfl : c3 = 80 := h3
    obtain rfl : c4 = 47 := h4
    obtain rfl : c6 = 46 := h6
    obtain rfl : c8 = 32 := h8
    exact ⟨⟨c5, c7, c9, c10, c11, c12, c13, rest, ⟨h5, h7, h9, h10, h11⟩, h13⟩, rfl⟩
  all_goals simp at hlen

/-- the text that both reasons come from -/
def tail : Bytes := f.first :: f.rest

/-- the version of the fast path -/
def version : ℕ := HTTP_VERSION (f.major.toNat - 48) (f.minor.toNat - 48)

def status : BitVec 16 := BitVec.ofNat 16 ((f.s₁.toNat - 48) * 100 + (f.s₂.toNat - 48) * 10 + (f.s₃.toNat - 48))

theorem parseRespFast_eq : parseRespFast f.bytes = .stored f.version (some f.status) (some (trimReason f.tail.dropLast)) :=
  rfl

/-- both paths find the same version -/
theorem parseRespSlow_eq :
    parseRespSlow f.bytes = if f.version = HTTP_VERSION 0 9 then .error else
      .stored f.version (parseStatus (f.s₁ :: f.s₂ :: f.s₃ :: f.gap :: f.tail)).1
        (parseStatus (f.s₁ :: f.s₂ :: f.s₃ :: f.gap :: f.tail)).2 := by
  obtain ⟨hmajor, hminor, _⟩ := f.digits
  set rest := f.s₁ :: f.s₂ :: f.s₃ :: f.gap :: f.tail with hrest
  have hperiod : isDigit 46 = false := by decide
  have hblank : isDigit 32 = false ∧ isWs 32 = true := by decide
  have hskip : skipHttp f.bytes = some (f.major :: 46 :: f.minor :: 32 :: rest) := rfl
  have hversion2 : parseVersion2 (f.major :: 46 :: f.minor :: 32 :: rest) = some (f.minor :: 32 :: rest) := by
    simp [parseVersion2, hmajor, hperiod]
  have hversion3 : parseVersion3 (f.minor :: 32 :: rest) = some (32 :: rest) := by
    simp [parseVersion3, hminor, hblank, hrest]
  have htext : f.bytes.take (f.bytes.length - (32 :: rest).length) = [72, 84, 84, 80, 47, f.major, 46, f.minor] := by
    have hlen : f.bytes.length - (32 :: rest).length = 8 := by
      simp [bytes, hrest, tail]
    rw [hlen]
    rfl
  have hparse : httpParseVersion [72, 84, 84, 80, 47, f.major, 46, f.minor] = f.version :=
    httpParseVersion_digits (by decide) hmajor hminor
  simp only [parseRespSlow, hskip, Option.bind_some, hversion2, hversion3, htext, hparse, List.tail_cons]

theorem version_eq_iff : f.version = HTTP_VERSION 0 9 ↔ f.major = 48 ∧ f.minor = 57 :=
  HTTP_VERSION_0_9_iff f.digits.1 f.digits.2.1

end FastResp

/-! ## The status and the reason of the general parser -/

variable {status s t : Bytes}

/-- what is behind the status is a proper part of the text -/
theorem parseStatus2_rest (h : (parseStatus2 status s).2 = some t) : ∃ x, x ≠ [] ∧ s = x ++ t := by
  induction s generalizing status with
  | nil => exact absurd h (by simp [parseStatus2])
  | cons c s ih =>
    rw [parseStatus2] at h
    split_ifs at h with hdigit hnil hws hnil
    · obtain ⟨x, _, rfl⟩ := ih h
      exact ⟨c :: x, by simp, rfl⟩
    · obtain rfl : s = t := Option.some.inj h
      exact ⟨[c], by simp, rfl⟩

theorem parseReason1_rest {reason : Bytes} (h : parseReason1 t = some reason) : ∃ x u, t = x ++ u ∧ reason = u.rdropWhile isCrlf := by
  induction t with
  | nil => exact absurd h (by simp [parseReason1])
  | cons c t ih =>
    rw [parseReason1] at h
    split_ifs at h with hws
    · obtain ⟨x, u, rfl, hu⟩ := ih h
      exact ⟨c :: x, u, rfl, hu⟩
    · exact ⟨[], c :: t, rfl, (Option.some.inj h).symm⟩

/-- a reason that starts later is another one -/
theorem reason_ne {reason : Bytes} (hne : s.rdropWhile isSpace ≠ []) (h : ((parseStatus2 status s).2.bind parseReason1) = some reason) :
    reason ≠ s.rdropWhile isSpace := by
  obtain ⟨t, ht, hreason⟩ := Option.bind_eq_some_iff.mp h
  obtain ⟨x, hx, rfl⟩ := parseStatus2_rest ht
  obtain ⟨y, u, rfl, rfl⟩ := parseReason1_rest hreason
  intro heq
  -- trimmed, both are the text behind `x ++ y`, and the whole text
  have htrim : u.rdropWhile isSpace = (x ++ (y ++ u)).rdropWhile isSpace := by
    calc u.rdropWhile isSpace = (u.rdropWhile isCrlf).rdropWhile isSpace := (rdropWhile_rdropWhile isSpace_of_isCrlf).symm
      _ = ((x ++ (y ++ u)).rdropWhile isSpace).rdropWhile isSpace := by rw [heq]
      _ = (x ++ (y ++ u)).rdropWhile isSpace := List.rdropWhile_idempotent _ _
  have hu : u.rdropWhile isSpace ≠ [] := htrim ▸ hne
  rw [← List.append_assoc, rdropWhile_append_of_ne_nil hu] at htrim
  have hlen := congrArg List.length htrim
  have hpos := List.length_pos_of_ne_nil hx
  simp only [List.length_append] at hlen
  omega

namespace FastResp

variable (f : FastResp)

/-- the general parser comes to the byte behind the three digits -/
theorem parseStatus_eq :
    parseStatus (f.s₁ :: f.s₂ :: f.s₃ :: f.gap :: f.tail) =
      (some (httpParseStatus (parseStatus2 [f.s₁, f.s₂, f.s₃] (f.gap :: f.tail)).1),
        (parseStatus2 [f.s₁, f.s₂, f.s₃] (f.gap :: f.tail)).2.bind parseReason1) := by
  obtain ⟨_, _, h1, h2, h3⟩ := f.digits
  have hws := (isDigit_plain _ h1).2.1
  simp [parseStatus, parseStatus1, parseStatus2, h1, h2, h3, hws]

theorem httpParseStatus_eq : httpParseStatus [f.s₁, f.s₂, f.s₃] = f.status := by
  obtain ⟨_, _, h1, h2, h3⟩ := f.digits
  have hspace := (isDigit_plain _ h1).1
  simp only [httpParseStatus, number, status, List.dropWhile_cons_of_neg (by simp [hspace] : ¬ isSpace f.s₁ = true),
    List.takeWhile_cons_of_pos h1, List.takeWhile_cons_of_pos h2, List.takeWhile_cons_of_pos h3, List.takeWhile_nil,
    List.foldl_cons, List.foldl_nil]
  apply congrArg
  ring

theorem first_ws : isWs f.first = false := by
  by_contra h
  have hspace := isSpace_of_isWs f.first (by simpa using h)
  rw [f.first_space] at hspace
  exact absurd hspace (by decide)

theorem tail_trim_ne_nil : f.tail.rdropWhile isSpace ≠ [] := by
  rw [tail, rdropWhile_cons_of_neg f.first_space]
  simp

theorem trimReason_eq {l : Bytes} (h : f.tail = l ++ [CHAR_LF]) : trimReason f.tail.dropLast = f.tail.rdropWhile isSpace := by
  have hlf : isSpace CHAR_LF = true := by decide
  cases l with
  | nil =>
    have hfirst : f.first = CHAR_LF := (List.cons.inj h).1
    exact absurd (f.first_space.symm.trans (hfirst ▸ hlf)) (by decide)
  | cons c l =>
    obtain ⟨hc, _⟩ := List.cons.inj h
    rw [h, List.dropLast_concat, List.rdropWhile_concat_pos _ _ _ hlf, ← hc, rdropWhile_cons_of_neg f.first_space]
    rfl

/-- the reason of the general parser, behind a blank -/
theorem reason_eq (hgap : isWs f.gap = true) :
    parseStatus2 [f.s₁, f.s₂, f.s₃] (f.gap :: f.tail) = ([f.s₁, f.s₂, f.s₃], some f.tail) ∧
      parseReason1 f.tail = some (f.tail.rdropWhile isCrlf) := by
  have hdigit : isDigit f.gap = false := by
    by_contra h
    exact absurd ((isDigit_plain f.gap (by simpa using h)).2.1.symm.trans hgap) (by decide)
  refine ⟨?_, ?_⟩
  · simp [parseStatus2, hdigit, hgap, tail]
  · simp [parseReason1, tail, f.first_ws]

/-- behind anything else there is no reason, or one that starts later -/
theorem reason_other (hgap : isWs f.gap = false) :
    (parseStatus2 [f.s₁, f.s₂, f.s₃] (f.gap :: f.tail)).2.bind parseReason1 ≠ some (f.tail.rdropWhile isSpace) := by
  by_cases hdigit : isDigit f.gap = true
  · intro h
    have hnext : parseStatus2 [f.s₁, f.s₂, f.s₃] (f.gap :: f.tail) = parseStatus2 [f.s₁, f.s₂, f.s₃, f.gap] f.tail := by
      simp [parseStatus2, hdigit, tail]
    rw [hnext] at h
    exact reason_ne f.tail_trim_ne_nil h rfl
  · simp [parseStatus2, hdigit, hgap]

end FastResp

/-- what the line ends with, the end of the line apart -/
theorem getLast_trim (f : FastResp) :
    (f.bytes.rdropWhile isCrlf).getLast? = (f.tail.rdropWhile isCrlf).getLast? := by
  have hne : f.tail.rdropWhile isCrlf ≠ [] := by
    intro hnil
    apply f.tail_trim_ne_nil
    rw [← rdropWhile_rdropWhile isSpace_of_isCrlf, hnil]
    rfl
  have hsplit : f.bytes = [72, 84, 84, 80, 47, f.major, 46, f.minor, 32, f.s₁, f.s₂, f.s₃, f.gap] ++ f.tail := rfl
  rw [hsplit, rdropWhile_append_of_ne_nil hne, List.getLast?_append_of_ne_nil _ hne]

theorem resp_fast_slow (line : Line) (h : respFast line.bytes = true) :
    parseRespFast line.bytes = parseRespSlow line.bytes ↔
      ¬ (cur line.bytes 5 = 48 ∧ cur line.bytes 7 = 57) ∧ isWs (cur line.bytes 12) = true ∧
        ∀ c ∈ (line.bytes.rdropWhile isCrlf).getLast?, isSpace c = false := by
  obtain ⟨f, hf⟩ := FastResp.exists_of_respFast h
  obtain ⟨l, hl⟩ : ∃ l, f.tail = l ++ [CHAR_LF] := by
    have hlast : f.tail.getLast? = some CHAR_LF := by
      have hline := congrArg List.getLast? hf
      rw [Line.bytes, List.getLast?_concat] at hline
      exact hline.symm
    exact ⟨_, (List.dropLast_append_getLast? _ hlast).symm⟩
  rw [hf, getLast_trim]
  have hmajor : cur f.bytes 5 = f.major := rfl
  have hminor : cur f.bytes 7 = f.minor := rfl
  have hgap : cur f.bytes 12 = f.gap := rfl
  rw [hmajor, hminor, hgap, ← f.version_eq_iff, f.parseRespFast_eq, f.parseRespSlow_eq, f.trimReason_eq hl, f.parseStatus_eq]
  by_cases hversion : f.version = HTTP_VERSION 0 9
  · simp [hversion]
  · rw [if_neg hversion]
    by_cases hws : isWs f.gap = true
    · obtain ⟨hstatus, hreason⟩ := f.reason_eq hws
      have htrim : (f.tail.rdropWhile isCrlf).rdropWhile isSpace = f.tail.rdropWhile isSpace := rdropWhile_rdropWhile isSpace_of_isCrlf
      rw [hstatus, Option.bind_some, hreason, f.httpParseStatus_eq, ← rdropWhile_eq_self_iff_getLast, htrim]
      simp [hversion, hws]
    · have hother := f.reason_other (by simpa using hws)
      refine iff_of_false (fun heq => hother ?_) fun hcond => hws hcond.2.1
      exact (RespLine.stored.inj heq).2.2.symm

def okLine : Line := ⟨text "HTTP/1.1 200 OK\r", by decide, by decide⟩

theorem resp_fast_slow_ok :
    respFast okLine.bytes = true ∧ parseRespFast okLine.bytes = parseRespSlow okLine.bytes := by
  refine ⟨by decide +kernel, (resp_fast_slow okLine (by decide +kernel)).mpr ⟨by decide +kernel, by decide +kernel, ?_⟩⟩
  decide +kernel

/-- five digits: the first three are the status of the fast path, and the last starts its reason -/
def longStatusLine : Line := ⟨text "HTTP/1.1 20045 OK\r", by decide, by decide⟩

theorem resp_long_status :
    ¬ ∀ line : Line, respFast line.bytes = true → parseRespFast line.bytes = parseRespSlow line.bytes := by
  intro h
  have hfast : parseRespFast longStatusLine.bytes = .stored (HTTP_VERSION 1 1) (some 200) (some (text "5 OK")) := by decide +kernel
  have hslow : parseRespSlow longStatusLine.bytes = .stored (HTTP_VERSION 1 1) (some 20045) (some (text "OK")) := by decide +kernel
  have heq := h longStatusLine (by decide +kernel)
  rw [hfast, hslow] at heq
  exact absurd heq (by decide +kernel)

end TrafficServer.Hdrs.HttpParse
