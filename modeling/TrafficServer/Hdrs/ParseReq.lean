/-
The request line (`http_parser_parse_req` in `proxy/hdrs/HTTP.cc`).

A line with `GET` at one end and a version at the other is taken apart at fixed places (`parseReqFast`); every other one goes through
the general parser (`parseReqSlow`), which reads the method from the front, the version from the back, and takes what is between
them for the URL. Both store the method, have the URL parsed, and store the version; then the fields are parsed and the header is
validated, which does not depend on the line.

`req_fast_slow`: for a line that passes the test of the first, the second does the same exactly if the byte behind `GET` is a blank, the
one before the version is a blank or a CR (or `url_parse` does not mind it), and the version is not 0.9 (or the URL is refused).

`url_parse` is a parameter here: what it leaves in the URL, and whether it has accepted the text.
-/
import TrafficServer.Hdrs.HttpLine
import TrafficServer.Hdrs.UrlParse

namespace TrafficServer.Hdrs.HttpParse

variable {U : Type*}

/-- what is stored, and the result -/
structure ReqLine (U : Type*) where
  /-- the index of a well-known string, and the text -/
  method : Option (Option ℕ × Bytes)
  url : Option U
  version : Option ℕ
  result : ParseResult
deriving DecidableEq

/-! ## The fast path -/

/-- `cur[i]` -/
def fromStart (line : Bytes) (i : ℕ) : UInt8 := line.getD i 0

/-- `end[-i]` -/
def fromEnd (line : Bytes) (i : ℕ) : UInt8 := line.getD (line.length - i) 0

def reqFast (line : Bytes) : Bool :=
  16 ≤ line.length && fromStart line 0 == 71 && fromStart line 1 == 69 && fromStart line 2 == 84 &&
    fromEnd line 10 == 72 && fromEnd line 9 == 84 && fromEnd line 8 == 84 && fromEnd line 7 == 80 && fromEnd line 6 == 47 &&
    fromEnd line 4 == 46 && fromEnd line 2 == CHAR_CR && fromEnd line 1 == CHAR_LF &&
    isDigit (fromEnd line 5) && isDigit (fromEnd line 3) &&
    isSpace (fromStart line 3) && !isSpace (fromStart line 4) && !isSpace (fromEnd line 12) && isSpace (fromEnd line 11) &&
    4 < line.length - 11

/-- from `cur[4]` to `end[-11]` -/
def urlText (line : Bytes) : Bytes := (line.take (line.length - 11)).drop 4

def fastVersion (line : Bytes) : ℕ := HTTP_VERSION ((fromEnd line 5).toNat - 48) ((fromEnd line 3).toNat - 48)

/-- `HTTP_METHOD_GET` -/
def getMethod : Option ℕ × Bytes := (some (hdrtokenStrs.idxOf "GET"), text "GET")

/-- `rest` is the result of the fields and of the validation -/
def parseReqFast (urlParse : Bytes → U × Bool) (rest : ParseResult) (line : Bytes) : ReqLine U :=
  let version := fastVersion line
  let r := urlParse (urlText line)
  if r.2 then ⟨some getMethod, some r.1, some version, if version = HTTP_VERSION 0 9 then .error else rest⟩
  else ⟨some getMethod, some r.1, none, .error⟩

/-! ## The general parser -/

/-- `parse_method1`: the text from `method_start` on -/
def parseMethod1 : Bytes → Option Bytes
  | [] => none
  | c :: s => if isWs c then parseMethod1 s else if isToken c then some (c :: s) else none

/-- `parse_method2`: the method, which ends at a blank -/
def parseMethod2 (method : Bytes) : Bytes → Option Bytes
  | [] => none
  | c :: s => if isWs c then some method else if isToken c then parseMethod2 (method ++ [c]) s else none

/-- `parse_version1`: the bytes from the one before `version_end` back to the start -/
def parseVersionEnd (line : Bytes) : Bytes :=
  let back := line.reverse
  let back := if back.head? = some CHAR_LF then back.tail else back
  let back := if back.head? = some CHAR_CR then back.tail else back
  back.dropWhile isWs

/-- digits up to a byte, going back -/
def digitsBack (stop : UInt8) : Bytes → Option Bytes
  | [] => none
  | c :: s => if isDigit c then digitsBack stop s else if c = stop then some s else none

/-- `parse_version4`: `version_start` -/
def parseVersion4 : Bytes → Option ℕ
  | c₀ :: c₁ :: c₂ :: c₃ :: s => if isLetter 80 c₀ && isLetter 84 c₁ && isLetter 84 c₂ && isLetter 72 c₃ then some s.length else none
  | _ => none

/-- `parse_version2` and `parse_version3` before it -/
def parseVersionStart (back : Bytes) : Option ℕ := ((digitsBack 46 back).bind (digitsBack 47)).bind parseVersion4

/-- `parse_url`: from `url_start` to `url_end` -/
def parseUrl (line : Bytes) (methodEnd : ℕ) (versionStart : Option ℕ) : Bytes :=
  let urlStart := methodEnd + 1 + ((line.drop (methodEnd + 1)).takeWhile isWs).length
  let urlEnd := ((line.take (versionStart.getD line.length)).rdropWhile isWslfcr).length
  (line.take urlEnd).drop urlStart

/-- an error before anything is stored -/
def noMethod : ReqLine U := ⟨none, none, none, .error⟩

/-- `done`, with a method -/
def parseDone (urlParse : Bytes → U × Bool) (rest : ParseResult) (method url : Bytes) (version : Option Bytes) : ReqLine U :=
  let r := urlParse url
  let stored : ReqLine U := ⟨some (hdrtokenTokenize method, method), some r.1, none, .error⟩
  if r.2 then
    match version with
    | none => stored
    | some text =>
      if httpParseVersion text = HTTP_VERSION 0 9 then stored
      else { stored with version := some (httpParseVersion text), result := rest }
  else stored

/-- none if another line is read, for an empty one -/
def parseReqSlow (urlParse : Bytes → U × Bool) (rest : ParseResult) (line : Bytes) : Option (ReqLine U) :=
  let s := if line.head? = some CHAR_CR then line.tail else line
  if s.head? = some CHAR_LF then none
  else
    match parseMethod1 s with
    | none => some noMethod
    | some s =>
      match parseMethod2 (s.take 1) (s.drop 1) with
      | none => some noMethod
      | some method =>
        let back := parseVersionEnd line
        let versionStart := parseVersionStart back
        let url := parseUrl line (line.length - s.length + method.length) versionStart
        some (parseDone urlParse rest method url (versionStart.map fun i => (line.take back.length).drop i))

def parseReq (urlParse : Bytes → U × Bool) (rest : ParseResult) (line : Bytes) : Option (ReqLine U) :=
  if reqFast line then some (parseReqFast urlParse rest line) else parseReqSlow urlParse rest line

theorem isWslfcr_of_isSpace (c : UInt8) (h : isSpace c = false) : isWslfcr c = false := by
  simp only [isSpace, Bool.or_eq_false_iff] at h
  exact h.1.1

theorem isToken_of_isSpace (c : UInt8) (h : isSpace c = true) : isToken c = false := by
  simp only [isSpace, isWslfcr, isWs, Bool.or_eq_true, beq_iff_eq] at h
  rcases h with ((((rfl | rfl) | rfl) | rfl) | rfl) | rfl <;> decide

/-! ## A line for the fast path -/

/-- its bytes -/
structure FastReq where
  /-- the byte behind `GET` -/
  gap : UInt8
  url : Bytes
  /-- the byte before the version -/
  before : UInt8
  major : UInt8
  minor : UInt8
  gap_space : isSpace gap = true
  before_space : isSpace before = true
  digits : isDigit major = true ∧ isDigit minor = true
  url_ne : url ≠ []
  url_head : ∀ c ∈ url.head?, isSpace c = false
  url_last : ∀ c ∈ url.getLast?, isSpace c = false

namespace FastReq

variable (f : FastReq)

def versionText : Bytes := [72, 84, 84, 80, 47, f.major, 46, f.minor]

/-- the line up to the version -/
def front : Bytes := 71 :: 69 :: 84 :: f.gap :: (f.url ++ [f.before])

def bytes : Bytes := f.front ++ (f.versionText ++ [CHAR_CR, CHAR_LF])

theorem fromEnd_append {front back : Bytes} {i : ℕ} (h : i ≤ back.length) : fromEnd (front ++ back) i = fromEnd back i := by
  have hindex : (front ++ back).length - i - front.length = back.length - i := by
    simp only [List.length_append]
    omega
  rw [fromEnd, List.getD_append_right _ _ _ _ (by simp only [List.length_append]; omega), hindex, fromEnd]

theorem exists_of_reqFast {line : Bytes} (h : reqFast line = true) : ∃ f : FastReq, line = f.bytes := by
  simp only [reqFast, Bool.and_eq_true, decide_eq_true_eq, beq_iff_eq, Bool.not_eq_true'] at h
  obtain ⟨⟨⟨⟨⟨⟨⟨⟨⟨⟨⟨⟨⟨⟨⟨⟨⟨⟨hlen, h0⟩, h1⟩, h2⟩, e10⟩, e9⟩, e8⟩, e7⟩, e6⟩, e4⟩, e2⟩, e1⟩, e5⟩, e3⟩, h3⟩, h4⟩, e12⟩, e11⟩, hurl⟩ := h
  obtain ⟨front, back, rfl, hback⟩ : ∃ front back, line = front ++ back ∧ back.length = 11 :=
    ⟨line.take (line.length - 11), line.drop (line.length - 11), (List.take_append_drop _ _).symm, by simp; omega⟩
  rw [fromEnd_append (by omega)] at e10 e9 e8 e7 e6 e4 e2 e1 e5 e3 e11
  have hfront : 4 < front.length := by simpa [hback] using hurl
  rcases back with _ | ⟨b11, _ | ⟨b10, _ | ⟨b9, _ | ⟨b8, _ | ⟨b7, _ | ⟨b6, _ | ⟨b5, _ | ⟨b4, _ | ⟨b3, _ | ⟨b2, _ | ⟨b1,
    _ | ⟨_, _⟩⟩⟩⟩⟩⟩⟩⟩⟩⟩⟩⟩
  case cons.cons.cons.cons.cons.cons.cons.cons.cons.cons.cons.nil =>
    rcases front with _ | ⟨c0, _ | ⟨c1, _ | ⟨c2, _ | ⟨c3, url⟩⟩⟩⟩
    case cons.cons.cons.cons =>
      obtain rfl : c0 = 71 := h0
      obtain rfl : c1 = 69 := h1
      obtain rfl : c2 = 84 := h2
      obtain rfl : b10 = 72 := e10
      obtain rfl : b9 = 84 := e9
      obtain rfl : b8 = 84 := e8
      obtain rfl : b7 = 80 := e7
      obtain rfl : b6 = 47 := e6
      obtain rfl : b4 = 46 := e4
      obtain rfl : b2 = CHAR_CR := e2
      obtain rfl : b1 = CHAR_LF := e1
      have hurl : url ≠ [] := by
        rintro rfl
        simp at hfront
      have hhead : ∀ c ∈ url.head?, isSpace c = false := by
        cases url with
        | nil => simp
        | cons c url => simpa [fromStart] using h4
      have hlast : ∀ c ∈ url.getLast?, isSpace c = false := by
        intro c hc
        obtain ⟨u, rfl⟩ : ∃ u, url = u ++ [c] := ⟨_, (List.dropLast_append_getLast? _ hc).symm⟩
        simpa [fromEnd] using e12
      exact ⟨⟨c3, url, b11, b5, b3, h3, e11, ⟨e5, e3⟩, hurl, hhead, hlast⟩, by simp [bytes, front, versionText]⟩
    all_goals simp at hfront
  all_goals simp at hback

/-- cut where the URL ends -/
theorem bytes_eq : f.bytes = (71 :: 69 :: 84 :: f.gap :: f.url) ++ (f.before :: (f.versionText ++ [CHAR_CR, CHAR_LF])) := by
  simp [bytes, front]

theorem fromEnd_bytes :
    fromEnd f.bytes 11 = f.before ∧ fromEnd f.bytes 5 = f.major ∧ fromEnd f.bytes 3 = f.minor := by
  rw [bytes_eq, fromEnd_append (by simp [versionText]), fromEnd_append (by simp [versionText]), fromEnd_append (by simp [versionText])]
  exact ⟨rfl, rfl, rfl⟩

/-- the version of both -/
def version : ℕ := HTTP_VERSION (f.major.toNat - 48) (f.minor.toNat - 48)

/-! ### The fast path -/

theorem urlText_eq : urlText f.bytes = f.url := by
  have hlen : f.bytes.length - 11 = (71 :: 69 :: 84 :: f.gap :: f.url).length := by
    simp [bytes, front, versionText]
  rw [urlText, hlen, bytes_eq, List.take_left]
  rfl

theorem fastVersion_eq : fastVersion f.bytes = f.version := by
  obtain ⟨_, hmajor, hminor⟩ := f.fromEnd_bytes
  rw [fastVersion, hmajor, hminor, version]

/-! ### The general parser -/

variable (urlParse : Bytes → U × Bool) (rest : ParseResult)

theorem exists_bytes : ∃ t, f.bytes = 71 :: 69 :: 84 :: f.gap :: t := ⟨_, rfl⟩

theorem parseMethod1_eq : parseMethod1 f.bytes = some f.bytes := by
  obtain ⟨t, ht⟩ := f.exists_bytes
  have hletter : isWs 71 = false ∧ isToken 71 = true := by decide
  simp [ht, parseMethod1, hletter]

/-- the method ends behind `GET`, at a blank or at nothing a method may have -/
theorem parseMethod2_eq : parseMethod2 (f.bytes.take 1) (f.bytes.drop 1) = if isWs f.gap then some (text "GET") else none := by
  obtain ⟨t, ht⟩ := f.exists_bytes
  have he : isWs 69 = false ∧ isToken 69 = true := by decide
  have ht' : isWs 84 = false ∧ isToken 84 = true := by decide
  have hgap : isToken f.gap = false := isToken_of_isSpace _ f.gap_space
  simp only [ht, List.take_succ_cons, List.take_zero, List.drop_succ_cons, List.drop_zero, parseMethod2, he, ht', hgap]
  rfl

/-- what the version is read from, backwards -/
theorem parseVersionEnd_eq :
    parseVersionEnd f.bytes = f.minor :: 46 :: f.major :: 47 :: 80 :: 84 :: 84 :: 72 :: f.front.reverse := by
  have hminor : isWs f.minor = false := (isDigit_plain _ f.digits.2).2.1
  have hreverse : f.bytes.reverse =
      CHAR_LF :: CHAR_CR :: f.minor :: 46 :: f.major :: 47 :: 80 :: 84 :: 84 :: 72 :: f.front.reverse := by
    simp [bytes, versionText]
  simp [parseVersionEnd, hreverse, hminor]

theorem parseVersionStart_eq : parseVersionStart (parseVersionEnd f.bytes) = some f.front.length := by
  obtain ⟨hmajor, hminor⟩ := f.digits
  have hperiod : isDigit 46 = false := by decide
  have hslash : isDigit 47 = false := by decide
  rw [parseVersionEnd_eq]
  simp [parseVersionStart, digitsBack, parseVersion4, hmajor, hminor, hperiod, hslash, isLetter]

/-- the URL of the general parser: a VT or an NP before the version is part of it -/
def urlEnd : Bytes := if isWslfcr f.before then f.url else f.url ++ [f.before]

/-- it ends behind a byte that is no white space, or behind the one before the version -/
theorem urlEnd_trim : (f.url ++ [f.before]).rdropWhile isWslfcr = f.urlEnd := by
  have hurl : f.url.rdropWhile isWslfcr = f.url :=
    rdropWhile_eq_self_iff_getLast.mpr fun c hc => isWslfcr_of_isSpace c (f.url_last c hc)
  rw [urlEnd]
  by_cases hbefore : isWslfcr f.before = true
  · rw [if_pos hbefore, List.rdropWhile_concat_pos _ _ _ hbefore, hurl]
  · rw [if_neg hbefore, List.rdropWhile_concat_neg _ _ _ hbefore]

theorem urlEnd_ne : f.urlEnd ≠ [] := by
  have hne := f.url_ne
  unfold urlEnd
  split_ifs <;> simp [hne]

theorem parseUrl_eq : parseUrl f.bytes 3 (some f.front.length) = f.urlEnd := by
  have hstart : ((f.bytes.drop (3 + 1)).takeWhile isWs).length = 0 := by
    obtain ⟨c, url, hurl⟩ := List.exists_cons_of_ne_nil f.url_ne
    have hc : isWs c = false := by
      by_contra h
      have hspace := f.url_head c (by simp [hurl])
      exact absurd (isSpace_of_isWs c (by simpa using h)) (by simp [hspace])
    simp [bytes, front, hurl, hc]
  have hend : ((f.bytes.take f.front.length).rdropWhile isWslfcr) = [71, 69, 84, f.gap] ++ f.urlEnd := by
    have hsplit : f.front = [71, 69, 84, f.gap] ++ (f.url ++ [f.before]) := rfl
    have hne : (f.url ++ [f.before]).rdropWhile isWslfcr ≠ [] := by
      rw [urlEnd_trim]
      exact f.urlEnd_ne
    rw [bytes, List.take_left, hsplit, rdropWhile_append_of_ne_nil hne, urlEnd_trim]
  have hprefix : [71, 69, 84, f.gap] ++ f.urlEnd <+: f.bytes := by
    rw [← hend]
    exact (List.rdropWhile_prefix _ _).trans (List.take_prefix _ _)
  rw [parseUrl, hstart, Option.getD_some, hend, ← List.prefix_iff_eq_take.mp hprefix]
  rfl

theorem parseReqSlow_eq :
    parseReqSlow urlParse rest f.bytes =
      some (if isWs f.gap then parseDone urlParse rest (text "GET") f.urlEnd (some f.versionText) else noMethod) := by
  have hstart : f.bytes.head? ≠ some CHAR_CR ∧ f.bytes.head? ≠ some CHAR_LF := by
    obtain ⟨t, ht⟩ := f.exists_bytes
    rw [ht, List.head?_cons]
    decide
  simp only [parseReqSlow, if_neg hstart.1, if_neg hstart.2, parseMethod1_eq, parseMethod2_eq, parseVersionStart_eq]
  by_cases hws : isWs f.gap = true
  · have hback : f.bytes.take (parseVersionEnd f.bytes).length = f.front ++ f.versionText := by
      have hlen : (parseVersionEnd f.bytes).length = (f.front ++ f.versionText).length := by
        simp [parseVersionEnd_eq, versionText]
      rw [hlen, bytes, ← List.append_assoc, List.take_left]
    have hmethod : (text "GET").length = 3 := by decide
    simp [hws, hback, hmethod, f.parseUrl_eq]
  · simp [hws]

/-! ### Both -/

theorem httpParseVersion_eq : httpParseVersion f.versionText = f.version :=
  httpParseVersion_digits (by decide) f.digits.1 f.digits.2

theorem version_eq_iff : f.version = HTTP_VERSION 0 9 ↔ f.major = 48 ∧ f.minor = 57 :=
  HTTP_VERSION_0_9_iff f.digits.1 f.digits.2

theorem getMethod_eq : (hdrtokenTokenize (text "GET"), text "GET") = getMethod := by decide +kernel

/-- the same method and version, and two texts for the URL -/
theorem parseReqFast_eq_parseDone_iff (url : Bytes) :
    parseReqFast urlParse rest f.bytes = parseDone urlParse rest (text "GET") url (some f.versionText) ↔
      ((urlParse f.url).1 = (urlParse url).1 ∧ ((urlParse f.url).2 = (urlParse url).2 ∨ f.version = HTTP_VERSION 0 9)) ∧
        (f.version ≠ HTTP_VERSION 0 9 ∨ (urlParse f.url).2 = false) := by
  simp only [parseReqFast, parseDone, f.urlText_eq, f.fastVersion_eq, f.httpParseVersion_eq, getMethod_eq]
  by_cases hversion : f.version = HTTP_VERSION 0 9
  · cases hfast : (urlParse f.url).2 <;> cases hslow : (urlParse url).2 <;> simp [hversion]
  · cases hfast : (urlParse f.url).2 <;> cases hslow : (urlParse url).2 <;> simp [hversion]

end FastReq

/-- `url_parse` makes the same of both; where the version is 0.9 and the texts are the same URL, being refused makes no difference -/
def SameUrl (urlParse : Bytes → U × Bool) (line : Bytes) : Prop :=
  let r := urlParse (urlText line)
  let r' := urlParse (urlText line ++ [fromEnd line 11])
  r.1 = r'.1 ∧ (r.2 = r'.2 ∨ fastVersion line = HTTP_VERSION 0 9)

theorem req_fast_slow (urlParse : Bytes → U × Bool) (rest : ParseResult) (line : Bytes) (h : reqFast line = true) :
    some (parseReqFast urlParse rest line) = parseReqSlow urlParse rest line ↔
      isWs (fromStart line 3) = true ∧ (isWslfcr (fromEnd line 11) = true ∨ SameUrl urlParse line) ∧
        (¬ (fromEnd line 5 = 48 ∧ fromEnd line 3 = 57) ∨ (urlParse (urlText line)).2 = false) := by
  obtain ⟨f, rfl⟩ := FastReq.exists_of_reqFast h
  obtain ⟨hbefore, hmajor, hminor⟩ := f.fromEnd_bytes
  have hgap : fromStart f.bytes 3 = f.gap := rfl
  simp only [SameUrl, f.parseReqSlow_eq, f.urlText_eq, f.fastVersion_eq, hbefore, hmajor, hminor, hgap, ← f.version_eq_iff]
  by_cases hws : isWs f.gap = true
  · rw [if_pos hws, Option.some_inj, f.parseReqFast_eq_parseDone_iff]
    by_cases hend : isWslfcr f.before = true
    · simp [FastReq.urlEnd, hws, hend]
    · simp [FastReq.urlEnd, hws, hend, and_assoc]
  · rw [if_neg hws]
    refine iff_of_false (fun heq => ?_) fun hcond => hws hcond.1
    have hmethod := congrArg ReqLine.method (Option.some.inj heq)
    exact absurd hmethod (by unfold parseReqFast; dsimp only; split_ifs <;> simp [noMethod])

/-- `url_parse`, for a text that it takes -/
def urlOf (s : Bytes) : UrlParse.URLImpl × Bool :=
  ((UrlParse.urlParse false s).getD UrlParse.URLImpl.null, (UrlParse.urlParse false s).isSome)

def getLine : Line := ⟨text "GET /index.html HTTP/1.1\r", by decide, by decide⟩

theorem req_fast_slow_get :
    reqFast getLine.bytes = true ∧ some (parseReqFast urlOf .done getLine.bytes) = parseReqSlow urlOf .done getLine.bytes :=
  ⟨by decide +kernel,
    (req_fast_slow urlOf .done getLine.bytes (by decide +kernel)).mpr
      ⟨by decide +kernel, Or.inl (by decide +kernel), Or.inl (by decide +kernel)⟩⟩

/-- a VT behind `GET`, which no method may have in it -/
def vtLine : Line := ⟨text "GET\x0b/index.html HTTP/1.1\r", by decide, by decide⟩

theorem req_vt_after_get :
    ¬ ∀ line : Line, reqFast line.bytes = true → some (parseReqFast urlOf .done line.bytes) = parseReqSlow urlOf .done line.bytes := by
  intro h
  have hslow : parseReqSlow urlOf .done vtLine.bytes = some noMethod := by decide +kernel
  have hfast : (parseReqFast urlOf .done vtLine.bytes).result = .done := by decide +kernel
  have heq := h vtLine (by decide +kernel)
  rw [hslow] at heq
  rw [Option.some.inj heq] at hfast
  exact absurd hfast (by decide)

end TrafficServer.Hdrs.HttpParse
