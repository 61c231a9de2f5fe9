/-
The URL parser and printer (`url_parse`, `url_print` in `proxy/hdrs/URL.cc`).

`url_parse_internet` reads the authority in one pass. It counts colons, remembers the last one and an open bracket, and decides between user,
password, host and port when it sees an `@` and at the end. The printer puts brackets around a host with a colon among its first five bytes,
and leaves out a port that is 0 and the port of an empty host.
-/
import Mathlib
import TrafficServer.Hdrs.HdrToken

namespace TrafficServer.Hdrs.UrlParse

abbrev Bytes := List UInt8

abbrev colon : UInt8 := 58
abbrev slash : UInt8 := 47
abbrev commat : UInt8 := 64
abbrev lbrack : UInt8 := 91
abbrev rbrack : UInt8 := 93
abbrev semi : UInt8 := 59
abbrev quest : UInt8 := 63
abbrev sharp : UInt8 := 35

/-! ## Characters -/

def isDigit (c : UInt8) : Bool := 48 ≤ c && c ≤ 57

def isAlnum (c : UInt8) : Bool := isDigit c || (65 ≤ c && c ≤ 90) || (97 ≤ c && c ≤ 122)

/-- `is_host_char` -/
def isHostChar (c : UInt8) : Bool := isAlnum c || (text "-.[]_:~%").contains c

/-- `ParseRules::is_uri` -/
def isUri (c : UInt8) : Bool := isAlnum c || (text ":/?#[]@!$&'()*+,;=-._~%").contains c

/-! ## The URL -/

/-- `URLImpl`; a string that is not there is empty -/
structure URLImpl where
  scheme : Bytes
  schemeWksIdx : Option ℕ
  user : Bytes
  password : Bytes
  host : Bytes
  port : Bytes
  /-- `m_port` -/
  portNumber : ℕ
  path : Bytes
  params : Bytes
  query : Bytes
  fragment : Bytes
deriving DecidableEq

namespace URLImpl

def null : URLImpl := ⟨[], none, [], [], [], [], 0, [], [], [], []⟩

def UINT16_MAX : ℕ := 65535

/-- `mime_str_u16_set`, with its assertion -/
def mimeStrU16Set (s : Bytes) : Option Bytes := if s.length < UINT16_MAX then some s else none

def schemeSet (url : URLImpl) (idx : Option ℕ) (s : Bytes) : Option URLImpl :=
  (mimeStrU16Set s).map fun s => { url with scheme := s, schemeWksIdx := idx }

def userSet (url : URLImpl) (s : Bytes) : Option URLImpl := (mimeStrU16Set s).map fun s => { url with user := s }
def passwordSet (url : URLImpl) (s : Bytes) : Option URLImpl := (mimeStrU16Set s).map fun s => { url with password := s }
def hostSet (url : URLImpl) (s : Bytes) : Option URLImpl := (mimeStrU16Set s).map fun s => { url with host := s }
def pathSet (url : URLImpl) (s : Bytes) : Option URLImpl := (mimeStrU16Set s).map fun s => { url with path := s }
def paramsSet (url : URLImpl) (s : Bytes) : Option URLImpl := (mimeStrU16Set s).map fun s => { url with params := s }
def querySet (url : URLImpl) (s : Bytes) : Option URLImpl := (mimeStrU16Set s).map fun s => { url with query := s }
def fragmentSet (url : URLImpl) (s : Bytes) : Option URLImpl := (mimeStrU16Set s).map fun s => { url with fragment := s }

/-- the number of the digits in front, in a `uint16_t` -/
def portValue (s : Bytes) : ℕ := (s.takeWhile isDigit).foldl (fun m c => (m * 10 + (c.toNat - 48)) % 65536) 0

def portSet (url : URLImpl) (s : Bytes) : Option URLImpl :=
  (mimeStrU16Set s).map fun s => { url with port := s, portNumber := portValue s }

end URLImpl

/-! ## The parser -/

/-- `url_parse_scheme`: the text from the end of the scheme on -/
def parseScheme (url : URLImpl) (s : Bytes) : Option (URLImpl × Bytes) :=
  let cur := s.dropWhile (· == 32)
  match cur with
  | [] => none
  | c :: _ =>
    if (text "http:").isPrefixOf cur then
      (url.schemeSet (some (hdrtokenStrs.idxOf "http")) (cur.take 4)).map fun url => (url, cur.drop 4)
    else if c ≠ slash then
      -- a user with a password has a colon, too, but then no slash behind it
      match cur.dropWhile (· != colon) with
      | [] => some (url, cur)
      | c :: rest =>
        let scheme := cur.takeWhile (· != colon)
        let idx := hdrtokenTokenize scheme
        if idx.any (fun i => 0 < i && isSchemeIdx i) || rest.isEmpty || rest.head? == some slash then
          (url.schemeSet idx scheme).map fun url => (url, c :: rest)
        else some (url, cur)
    else some (url, cur)

def MAX_COLON : ℕ := 8

/-- The variables of the loop of `url_parse_internet`. A pointer is kept as the bytes from it up to `cur`. -/
structure Auth where
  /-- from `base` -/
  field : Bytes
  bracket : Option Bytes
  nColon : ℕ
  /-- `last_colon`, counted from `base` -/
  lastColon : Option ℕ
  user : Bytes
  passw : Bytes
  host : Bytes

namespace Auth

def init : Auth := ⟨[], none, 0, none, [], [], []⟩

def push (a : Auth) (c : UInt8) : Auth := { a with field := a.field ++ [c], bracket := a.bracket.map (· ++ [c]) }

/-- track colons, fail if too many -/
def pushColon (a : Auth) : Option Auth :=
  if a.nColon + 1 > MAX_COLON then none
  else some { a.push colon with nColon := a.nColon + 1, lastColon := some a.field.length }

/-- user or password marker -/
def pushAt (a : Auth) : Option Auth :=
  if a.user ≠ [] ∨ a.nColon > 1 then none
  else
    let a' := { a with field := [], bracket := a.bracket.map (· ++ [commat]) }
    if a.nColon ≠ 0 then
      let l := a.lastColon.getD 0
      some { a' with user := a.field.take l, passw := a.field.drop (l + 1), nColon := 0, lastColon := none }
    else some { a' with user := a.field }

/-- address open: must be the first byte of its field -/
def pushOpen (a : Auth) : Option Auth :=
  if a.bracket.isSome ∨ a.field ≠ [] then none else some { a with field := [lbrack], bracket := some [lbrack] }

/-- address close: the host, brackets included -/
def pushClose (a : Auth) : Option Auth :=
  match a.bracket with
  | none => none
  | some b => if a.nColon ≥ MAX_COLON then none else some { a.push rbrack with host := b ++ [rbrack] }

end Auth

/-- the loop of `url_parse_internet`; it stops at a slash -/
def scan : Bytes → Auth → Option (Auth × Bytes)
  | [], a => some (a, [])
  | c :: s, a =>
    if c = rbrack then
      match a.pushClose with
      | none => none
      | some a =>
        match s with
        | [] => some ({ a with lastColon := none }, [])
        | d :: s' =>
          if d = slash then some ({ a with lastColon := none }, d :: s')
          else if d ≠ colon then none
          else
            -- no more than one colon may follow
            match { a with nColon := MAX_COLON - 1 }.pushColon with
            | none => none
            | some a => scan s' a
    else if c = colon then
      match a.pushColon with
      | none => none
      | some a => scan s a
    else if c = commat then
      match a.pushAt with
      | none => none
      | some a => scan s a
    else if c = lbrack then
      match a.pushOpen with
      | none => none
      | some a => scan s a
    else if c = slash then some (a, c :: s)
    else scan s (a.push c)

/-- what is skipped before the authority; there must be something behind it -/
def skipSlashes (s : Bytes) : Option Bytes :=
  if 3 < s.length ∧ s.take 3 = [colon, slash, slash] then some (s.drop 3)
  else
    match s with
    | [] => some []
    | c :: s₁ =>
      if c ≠ colon then some (c :: s₁)
      else
        match s₁ with
        | [] => none
        | c :: s₂ =>
          if c ≠ slash then some (c :: s₂)
          else
            match s₂ with
            | [] => none
            | c :: s₃ => if c ≠ slash then some (c :: s₃) else if s₃ = [] then none else some s₃

/-- the host and the place of the colon of the port; without brackets one or eight colons mean a port -/
def Auth.hostPort (a : Auth) : Bytes × Option ℕ :=
  if a.host = [] then
    if a.nColon = 1 ∨ a.nColon = MAX_COLON then (a.field.take (a.lastColon.getD 0), a.lastColon) else (a.field, none)
  else (a.host, a.lastColon)

def setUser (url : URLImpl) (a : Auth) : Option URLImpl :=
  if a.user = [] then some url
  else (url.userSet a.user).bind fun url => if a.passw = [] then some url else url.passwordSet a.passw

def setHost (url : URLImpl) (host : Bytes) : Option URLImpl :=
  if host = [] then some url else if host.all isHostChar then url.hostSet host else none

def setPort (url : URLImpl) (a : Auth) (lastColon : Option ℕ) : Option URLImpl :=
  match lastColon with
  | none => some url
  | some l => if a.field.drop (l + 1) = [] then none else url.portSet (a.field.drop (l + 1))

/-- `url_parse_internet`. Behind the end of the text there is no slash. -/
def parseInternet (url : URLImpl) (s : Bytes) : Option (URLImpl × Bytes) := do
  let s ← skipSlashes s
  let (a, rest) ← scan s Auth.init
  let url ← setUser url a
  let url ← setHost url a.hostPort.1
  let url ← setPort url a a.hostPort.2
  some (url, if rest.head? = some slash then rest.tail else rest)

def isPathByte (c : UInt8) : Bool := c != semi && c != quest && c != sharp
def isParamsByte (c : UInt8) : Bool := c != quest && c != sharp
def isQueryByte (c : UInt8) : Bool := c != sharp

/-- a part of the URL that starts with a byte `mark` and goes on while the bytes are `ok` -/
def part (mark : UInt8) (ok : UInt8 → Bool) (s : Bytes) : Option Bytes × Bytes :=
  match s with
  | [] => (none, [])
  | c :: s => if c = mark then (some (s.takeWhile ok), s.dropWhile ok) else (none, c :: s)

/-- the rest of `url_parse_http` -/
def parsePath (url : URLImpl) (s : Bytes) : Option URLImpl := do
  if s = [] then some url
  else
    let url ← url.pathSet (s.takeWhile isPathByte)
    let (params, s) := part semi isParamsByte (s.dropWhile isPathByte)
    let url ← params.elim (some url) url.paramsSet
    let (query, s) := part quest isQueryByte s
    let url ← query.elim (some url) url.querySet
    let (fragment, _) := part sharp (fun _ => true) s
    fragment.elim (some url) url.fragmentSet

def parseHttp (url : URLImpl) (s : Bytes) : Option URLImpl := (parseInternet url s).bind fun (url, s) => parsePath url s

/-- `url_parse` into a new URL -/
def urlParse (strictUriParsing : Bool) (s : Bytes) : Option URLImpl :=
  if strictUriParsing && !s.all isUri then none
  else (parseScheme URLImpl.null s).bind fun (url, s) => parseHttp url s

/-! ## The printer -/

/-- brackets are forced for a host with a colon among its first five bytes -/
def bracketP (host : Bytes) : Bool := host.head? != some lbrack && (host.take 5).contains colon

def printHost (host : Bytes) : Bytes := if bracketP host then lbrack :: host ++ [rbrack] else host

/-- `url_print` into a buffer that is large enough -/
def urlPrint (url : URLImpl) : Bytes :=
  (if url.scheme = [] then [] else url.scheme ++ [colon, slash, slash]) ++
    (if url.user = [] then [] else url.user ++ (if url.password = [] then [] else colon :: url.password) ++ [commat]) ++
    (if url.host = [] then []
      else printHost url.host ++ (if url.port ≠ [] ∧ url.portNumber ≠ 0 then colon :: url.port else [])) ++
    slash :: url.path ++
    (if url.params = [] then [] else semi :: url.params) ++
    (if url.query = [] then [] else quest :: url.query) ++
    (if url.fragment = [] then [] else sharp :: url.fragment)

end TrafficServer.Hdrs.UrlParse
