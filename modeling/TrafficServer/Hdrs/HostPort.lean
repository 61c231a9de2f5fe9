/-
The port of a request (`url_port_set` in `proxy/hdrs/URL.cc`; `validate_hdr_host` and `HTTPHdr::_fill_target_cache` in `proxy/hdrs/HTTP.cc`).

It is in the authority of the URL, or in the Host field. The parser of the URL keeps the port in 16 bits. A Host field is looked at twice: it is
checked with `ats_ip_parse`, which has a port behind a closed bracket or behind the only colon, and it is read with `get_host_port_values`, which
has one behind a closed bracket or behind the first colon.

`port_agreement_iff` says of which texts `host:digits` the URL has the value of the digits, and the Host field, if it passes the check, the port of
the URL.
-/
import TrafficServer.Hdrs.UrlFixedPoint

namespace TrafficServer.Hdrs.HostPort

open UrlParse

/-! ## The Host field -/

/-- `ParseRules::is_ws` -/
def isWs (c : UInt8) : Bool := c == 32 || c == 9

/-- `ats_ip_parse`: the address, the port and the rest. Behind the end of the text there is no colon. -/
def atsIpParse (str : Bytes) : Bytes × Bytes × Bytes :=
  let src := str.dropWhile isWs
  let (addr, colonP, src) :=
    if src.head? = some lbrack then
      let addr := src.tail.takeWhile (· != rbrack)
      let src := (src.tail.dropWhile (· != rbrack)).tail
      if src.head? = some colon then (addr, true, src.tail) else (addr, false, src)
    -- exactly one colon
    else if src.count colon = 1 then (src.takeWhile (· != colon), true, (src.dropWhile (· != colon)).tail)
    else (src, false, [])
  if colonP then
    if src.takeWhile isDigit = [] then (addr, [], colon :: src) else (addr, src.takeWhile isDigit, src.dropWhile isDigit)
  else (addr, [], src)

/-- the number of some digits, as `ink_atoi` has it for five of them at most -/
def decimal (digits : Bytes) : ℕ := digits.foldl (fun n c => n * 10 + (c.toNat - 48)) 0

/-- `validate_hdr_host`, for the Host fields of a header -/
def validateHdrHost : List Bytes → Bool
  | [] => true
  | [host] =>
    let (addr, port, rest) := atsIpParse host
    addr ≠ [] && (port = [] || port.length ≤ 5 && 0 < decimal port && decimal port < 65536) && addr.all isHostChar && rest.all isWs
  | _ :: _ :: _ => false

/-- `get_host_port_values`: the host and the port, if the field has a value -/
def getHostPortValues (b : Bytes) : Option (Bytes × Bytes) :=
  if b = [] then none
  else if b.head? = some lbrack then
    match b.dropWhile (· != rbrack) with
    | _ :: c :: port => if c = colon then some (b.takeWhile (· != rbrack) ++ [rbrack], port) else some (b, [])
    | _ => some (b, [])
  else
    match b.dropWhile (· != colon) with
    | [] => some (b, [])
    | _ :: port => some (b.takeWhile (· != colon), port)

/-! ## The target of a request -/

/-- `m_url_type` -/
inductive URLType where
  | none | http | https
deriving DecidableEq

def urlCanonicalizePort (type : URLType) (port : ℤ) : ℤ :=
  if port = 0 then
    match type with
    | .http => 80
    | .https => 443
    | .none => 0
  else port

/-- the loop over the port of the Host field, with an `int` that wraps around -/
def mimePort (port : Bytes) : ℤ := (port.takeWhile isDigit).foldl (fun m c => (m * 10 + ((c.toNat - 48 : ℕ) : ℤ)).bmod 4294967296) 0

/-- the members of `HTTPHdr` that are filled -/
structure TargetCache where
  targetInUrl : Bool
  portInHeader : Bool
  /-- the host of the Host field -/
  hostMime : Option Bytes
  port : ℤ
deriving DecidableEq

/-- `_fill_target_cache`; `port` is what `m_port` was -/
def fillTargetCache (type : URLType) (url : URLImpl) (hosts : List Bytes) (port : ℤ) : TargetCache :=
  if url.host ≠ [] then ⟨true, url.portNumber ≠ 0, none, urlCanonicalizePort type url.portNumber⟩
  else
    match hosts.head?.bind getHostPortValues with
    | none => ⟨false, false, none, port⟩
    | some (host, portText) => ⟨false, mimePort portText ≠ 0, some host, urlCanonicalizePort type (mimePort portText)⟩

/-! ## Numbers -/

/-- in 16 bits the number is reduced -/
theorem portValue_digits {digits : Bytes} (h : ∀ c ∈ digits, isDigit c = true) : URLImpl.portValue digits = decimal digits % 65536 := by
  have hfold : ∀ (ds : Bytes) (m n : ℕ), m = n % 65536 →
      ds.foldl (fun m c => (m * 10 + (c.toNat - 48)) % 65536) m = ds.foldl (fun n c => n * 10 + (c.toNat - 48)) n % 65536 := by
    intro ds
    induction ds with
    | nil => exact fun _ _ h => h
    | cons d ds ih =>
      intro m n hm
      rw [List.foldl_cons, List.foldl_cons]
      apply ih
      omega
  rw [URLImpl.portValue, List.takeWhile_eq_self_iff.mpr h, decimal]
  exact hfold digits 0 0 (Nat.zero_mod _).symm

/-- in an `int` it wraps around -/
theorem mimePort_eq (port : Bytes) : mimePort port = (decimal (port.takeWhile isDigit) : ℤ).bmod 4294967296 := by
  have hfold : ∀ (ds : Bytes) (m : ℤ) (n : ℕ), m = (n : ℤ).bmod 4294967296 →
      ds.foldl (fun m c => (m * 10 + ((c.toNat - 48 : ℕ) : ℤ)).bmod 4294967296) m =
        ((ds.foldl (fun n c => n * 10 + (c.toNat - 48)) n : ℕ) : ℤ).bmod 4294967296 := by
    intro ds
    induction ds with
    | nil => exact fun _ _ h => h
    | cons d ds ih =>
      intro m n hm
      rw [List.foldl_cons, List.foldl_cons]
      apply ih
      rw [hm, Nat.cast_add, Nat.cast_mul, ← Int.bmod_add_bmod, Int.bmod_mul_bmod, Int.bmod_add_bmod]
      rfl
  rw [mimePort, decimal]
  exact hfold _ 0 0 Int.zero_bmod.symm

/-- a port that fits in 16 bits fits in an `int` -/
theorem bmod_small {n : ℕ} (h : n < 65536) : (n : ℤ).bmod 4294967296 = n := by
  apply Int.bmod_eq_of_le
  · omega
  · omega

/-! ## What the checks and the reader find -/

theorem isHostChar_isWs {c : UInt8} (h : isHostChar c = true) : isWs c = false := by
  by_contra hws
  rw [Bool.not_eq_false, isWs, Bool.or_eq_true, beq_iff_eq, beq_iff_eq] at hws
  rcases hws with rfl | rfl
  · exact absurd h (by decide)
  · exact absurd h (by decide)

theorem isDigit_isHostChar {c : UInt8} (h : isDigit c = true) : isHostChar c = true := by
  rw [isHostChar, isAlnum, h]
  rfl

theorem isDigit_ne {c d : UInt8} (h : isDigit c = true) (hd : isDigit d = false) : c ≠ d := by
  rintro rfl
  exact Bool.false_ne_true (hd.symm.trans h)

theorem head_ne {host digits : Bytes} (h : host.head? ≠ some lbrack) : (host ++ colon :: digits).head? ≠ some lbrack := by
  cases host with
  | nil => exact fun heq => absurd (Option.some.inj heq) (by decide)
  | cons c host => exact h

section Authority

variable {host digits : Bytes} (hdigits : ∀ c ∈ digits, isDigit c = true)

include hdigits

theorem colon_digits : colon ∉ digits := fun hmem => isDigit_ne (hdigits _ hmem) (by decide) rfl

theorem rbrack_digits : rbrack ∉ digits := fun hmem => isDigit_ne (hdigits _ hmem) (by decide) rfl

omit hdigits in
/-- the text has no space in front -/
theorem dropWhile_isWs (hchars : host.all isHostChar = true) : (host ++ colon :: digits).dropWhile isWs = host ++ colon :: digits := by
  cases host with
  | nil => rfl
  | cons c host =>
    have hc : isWs c = false := isHostChar_isWs (List.all_eq_true.mp hchars c List.mem_cons_self)
    rw [List.cons_append, List.dropWhile_cons, hc]
    rfl

/-- a port that is all digits -/
theorem digits_split : digits.takeWhile isDigit = digits ∧ digits.dropWhile isDigit = [] :=
  ⟨List.takeWhile_eq_self_iff.mpr hdigits, List.dropWhile_eq_nil_iff.mpr hdigits⟩

/-- brackets: the port is behind them for both -/
theorem closed_host {x : Bytes} (hx : rbrack ∉ x) (hne : digits ≠ []) :
    atsIpParse (lbrack :: (x ++ [rbrack]) ++ colon :: digits) = (x, digits, []) ∧
      getHostPortValues (lbrack :: (x ++ [rbrack]) ++ colon :: digits) = some (lbrack :: (x ++ [rbrack]), digits) := by
  have hstop : ∀ c ∈ x, (c != rbrack) = true := fun c hc => bne_iff_ne.mpr fun heq => hx (heq ▸ hc)
  have hshape : lbrack :: (x ++ [rbrack]) ++ colon :: digits = lbrack :: (x ++ rbrack :: colon :: digits) := by simp
  obtain ⟨htake, hdrop⟩ := takeWhile_stop hstop (s := rbrack :: colon :: digits) (fun c hc => by rw [← Option.some.inj hc]; rfl)
  obtain ⟨hport, hrest⟩ := digits_split hdigits
  rw [hshape]
  constructor
  · have hws : (lbrack :: (x ++ rbrack :: colon :: digits)).dropWhile isWs = lbrack :: (x ++ rbrack :: colon :: digits) := rfl
    simp only [atsIpParse, hws, List.head?_cons, if_true, List.tail_cons, htake, hdrop, hport, hrest, if_neg hne]
  · have hopen : (lbrack != rbrack) = true := rfl
    simp only [getHostPortValues, List.head?_cons, List.cons_ne_nil, if_false, if_true, List.dropWhile_cons, List.takeWhile_cons, hopen, hdrop,
      htake, List.cons_append]

/-- a host without a colon: the port is behind the colon for both -/
theorem plain_host (hhost : colon ∉ host) (hopen : host.head? ≠ some lbrack) (hchars : host.all isHostChar = true) (hne : digits ≠ []) :
    atsIpParse (host ++ colon :: digits) = (host, digits, []) ∧ getHostPortValues (host ++ colon :: digits) = some (host, digits) := by
  have hstop : ∀ c ∈ host, (c != colon) = true := fun c hc => bne_iff_ne.mpr fun heq => hhost (heq ▸ hc)
  obtain ⟨htake, hdrop⟩ := takeWhile_stop hstop (s := colon :: digits) (fun c hc => by rw [← Option.some.inj hc]; rfl)
  obtain ⟨hport, hrest⟩ := digits_split hdigits
  have hhead : (host ++ colon :: digits).head? ≠ some lbrack := head_ne hopen
  have hcount : (host ++ colon :: digits).count colon = 1 := by
    rw [List.count_append, List.count_cons_self, List.count_eq_zero.mpr hhost, List.count_eq_zero.mpr (colon_digits hdigits)]
  have hnil : host ++ colon :: digits ≠ [] := List.append_ne_nil_of_right_ne_nil _ (List.cons_ne_nil _ _)
  constructor
  · simp only [atsIpParse, dropWhile_isWs hchars, if_neg hhead, if_pos hcount, htake, hdrop, List.tail_cons, if_true, hport, hrest, if_neg hne]
  · simp only [getHostPortValues, if_neg hnil, if_neg hhead, hdrop, htake]

/-- an open bracket: there is no port for either -/
theorem open_host {y : Bytes} (hy : rbrack ∉ y) :
    atsIpParse (lbrack :: y ++ colon :: digits) = (y ++ colon :: digits, [], []) ∧
      getHostPortValues (lbrack :: y ++ colon :: digits) = some (lbrack :: y ++ colon :: digits, []) := by
  have hstop : ∀ c ∈ y ++ colon :: digits, (c != rbrack) = true := by
    intro c hc
    rcases List.mem_append.mp hc with hmem | hmem
    · exact bne_iff_ne.mpr fun heq => hy (heq ▸ hmem)
    · rcases List.mem_cons.mp hmem with rfl | hdigit
      · rfl
      · exact bne_iff_ne.mpr fun heq => rbrack_digits hdigits (heq ▸ hdigit)
  have htake : (y ++ colon :: digits).takeWhile (· != rbrack) = y ++ colon :: digits := List.takeWhile_eq_self_iff.mpr hstop
  have hdrop : (y ++ colon :: digits).dropWhile (· != rbrack) = [] := List.dropWhile_eq_nil_iff.mpr hstop
  rw [List.cons_append]
  constructor
  · have hws : (lbrack :: (y ++ colon :: digits)).dropWhile isWs = lbrack :: (y ++ colon :: digits) := rfl
    simp only [atsIpParse, hws, List.head?_cons, if_true, List.tail_cons, htake, hdrop, List.tail_nil, List.head?_nil]
    rfl
  · have hopen : (lbrack != rbrack) = true := rfl
    simp only [getHostPortValues, List.head?_cons, List.cons_ne_nil, if_false, if_true, List.dropWhile_cons, hopen, hdrop]

omit hdigits in
/-- a host with a colon: the check finds no port, the reader one behind the first colon -/
theorem colons_host (hhost : colon ∈ host) (hopen : host.head? ≠ some lbrack) (hchars : host.all isHostChar = true) :
    atsIpParse (host ++ colon :: digits) = (host ++ colon :: digits, [], []) ∧
      ∃ first port, getHostPortValues (host ++ colon :: digits) = some (first, port) ∧
        port.takeWhile isDigit = (host.dropWhile (· != colon)).tail.takeWhile isDigit := by
  have hhead : (host ++ colon :: digits).head? ≠ some lbrack := head_ne hopen
  have hcount : (host ++ colon :: digits).count colon ≠ 1 := by
    have hpos := List.count_pos_iff.mpr hhost
    rw [List.count_append, List.count_cons_self]
    omega
  have hnil : host ++ colon :: digits ≠ [] := List.append_ne_nil_of_right_ne_nil _ (List.cons_ne_nil _ _)
  constructor
  · simp only [atsIpParse, dropWhile_isWs hchars, if_neg hhead, if_neg hcount]
    rfl
  · obtain ⟨w, hw⟩ : ∃ w, host.dropWhile (· != colon) = colon :: w := by
      cases hdrop : host.dropWhile (· != colon) with
      | nil => exact absurd (List.dropWhile_eq_nil_iff.mp hdrop colon hhost) (by decide)
      | cons c w =>
        have hc := List.head?_dropWhile_not (· != colon) host
        rw [hdrop] at hc
        obtain rfl : c = colon := by simpa using hc
        exact ⟨w, rfl⟩
    have hdrop : (host ++ colon :: digits).dropWhile (· != colon) = colon :: (w ++ colon :: digits) := by
      rw [List.dropWhile_append, hw]
      rfl
    refine ⟨(host ++ colon :: digits).takeWhile (· != colon), w ++ colon :: digits, by simp only [getHostPortValues, if_neg hnil, if_neg hhead, hdrop], ?_⟩
    have hstop : (colon :: digits).takeWhile isDigit = [] := rfl
    rw [hw, List.tail_cons, List.takeWhile_append, hstop, List.append_nil]
    split_ifs with hall
    · exact (List.takeWhile_sublist isDigit).eq_of_length hall |>.symm
    · rfl

end Authority

/-! ## The URL -/

/-- the parser takes the last colon of an authority for that of the port: the host is in brackets, or has none or seven colons -/
def Taken (host : Bytes) : Prop := rbrack ∈ host ∨ host.count colon = 0 ∨ host.count colon = 7

/-- the last colon of a text -/
theorem lastColon_inj {u u' v v' : Bytes} (h : u ++ colon :: v = u' ++ colon :: v') (hv : colon ∉ v) (hv' : colon ∉ v') : u = u' ∧ v = v' := by
  rcases List.append_eq_append_iff.mp h with ⟨as, hu, heq⟩ | ⟨as, hu, heq⟩
  · cases as with
    | nil => exact ⟨by rw [hu, List.append_nil], (List.cons.inj heq).2⟩
    | cons a as =>
      obtain ⟨-, hrest⟩ := List.cons.inj heq
      exact absurd (hrest ▸ List.mem_append_right as List.mem_cons_self) hv
  · cases as with
    | nil => exact ⟨by rw [hu, List.append_nil], (List.cons.inj heq).2.symm⟩
    | cons a as =>
      obtain ⟨-, hrest⟩ := List.cons.inj heq
      exact absurd (hrest ▸ List.mem_append_right as List.mem_cons_self) hv'

theorem hostField_eq {s : Bytes} (hat : commat ∉ s) : hostField s = s := by
  have hall : ∀ c ∈ s.reverse, (c != commat) = true := fun c hc => bne_iff_ne.mpr fun heq => hat (heq ▸ List.mem_reverse.mp hc)
  rw [hostField, List.takeWhile_eq_self_iff.mpr hall, List.reverse_reverse]

section Parsed

variable {host digits : Bytes} {url : URLImpl} (h : ReadAuthority (host ++ colon :: digits) url) (hat : commat ∉ host)
  (hdigits : ∀ c ∈ digits, isDigit c = true) (hne : digits ≠ [])

include h hat hdigits hne

/-- host and digits as the parser has found them, or all of it as the host -/
theorem parsed_hostPort :
    (Taken host ∧ url.host = host ∧ url.port = digits) ∨ (¬ Taken host ∧ url.host = host ++ colon :: digits ∧ url.port = []) := by
  have hatAll : commat ∉ host ++ colon :: digits := by
    intro hmem
    rcases List.mem_append.mp hmem with hhost | hrest
    · exact hat hhost
    · rcases List.mem_cons.mp hrest with heq | hdigit
      · exact absurd heq (by decide)
      · exact isDigit_ne (hdigits _ hdigit) (by decide) rfl
  have hcount : (host ++ colon :: digits).count colon = host.count colon + 1 := by
    rw [List.count_append, List.count_cons_self, List.count_eq_zero.mpr (colon_digits hdigits)]
  have hfield := h.field
  rw [hostField_eq hatAll] at hfield
  have hshape := h.shape.host
  by_cases hport : url.port = []
  · rw [if_pos hport, List.append_nil] at hfield
    refine .inr ⟨?_, hfield.symm, hport⟩
    rw [← hfield, hport] at hshape
    cases hshape with
    | none hnil => exact absurd hnil (List.append_ne_nil_of_right_ne_nil _ (List.cons_ne_nil _ _))
    | single _ bytes _ few all _ =>
      rw [hcount] at few all
      rintro (hclose | hzero | hseven)
      · exact (bytes _ (List.mem_append_left _ hclose)).1 rfl
      · exact all rfl (by rw [hzero])
      · omega
    | closed x hx _ _ =>
      exfalso
      have hlast : (host ++ colon :: digits).getLast? = some rbrack := by
        rw [hx, ← List.cons_append]
        exact List.getLast?_concat
      rw [List.getLast?_append_of_ne_nil _ (List.cons_ne_nil _ _), List.getLast?_cons, Option.some.injEq] at hlast
      obtain ⟨d, hd⟩ := List.getLast?_isSome.mpr hne |> Option.isSome_iff_exists.mp
      rw [hd, Option.getD_some] at hlast
      exact rbrack_digits hdigits (hlast ▸ List.mem_of_getLast? hd)
  · rw [if_neg hport] at hfield
    obtain ⟨hhost, hdig⟩ := lastColon_inj hfield (colon_digits hdigits) fun hmem => (h.shape.port _ hmem).colon rfl
    refine .inl ⟨?_, hhost.symm, hdig.symm⟩
    rw [← hhost] at hshape
    cases hshape with
    | none hnil => exact .inr (.inl (by rw [hnil, List.count_nil]))
    | single _ _ _ _ _ split => exact .inr (split hport)
    | closed x hx _ _ =>
      rw [hx]
      exact .inl (List.mem_cons_of_mem _ (List.mem_append_right _ List.mem_cons_self))

theorem host_chars : host.all isHostChar = true := by
  have hall := h.accepted.hostChars
  rcases parsed_hostPort h hat hdigits hne with ⟨-, hhost, -⟩ | ⟨-, hhost, -⟩
  · rwa [hhost] at hall
  · rw [hhost, List.all_append, Bool.and_eq_true] at hall
    exact hall.1

/-- a bracket that is closed is around the host -/
theorem closed_shape (hclose : rbrack ∈ host) : ∃ x, host = lbrack :: (x ++ [rbrack]) ∧ rbrack ∉ x := by
  have hshape := h.shape.host
  rcases parsed_hostPort h hat hdigits hne with ⟨-, hhost, -⟩ | ⟨htaken, -, -⟩
  · rw [hhost] at hshape
    cases hshape with
    | none hnil => exact absurd (hnil ▸ hclose) List.not_mem_nil
    | single _ bytes _ _ _ _ => exact absurd rfl (bytes _ hclose).1
    | closed x hx bytes _ => exact ⟨x, hx, fun hmem => (bytes _ hmem).close rfl⟩
  · exact absurd (.inl hclose) htaken

end Parsed

/-! ## Agreement -/

/-- The URL has the value of the digits; and in another request, whose URL has no host, the Host field gives this port if it passes the check. -/
structure PortAgreement (type : URLType) (url : URLImpl) (authority digits : Bytes) : Prop where
  value : url.portNumber = decimal digits
  host : ∀ url' : URLImpl, url'.host = [] → ∀ port, validateHdrHost [authority] = true → (fillTargetCache type url' [authority] port).port = url.portNumber

/-- the number that the Host field has before its last colon: none in an open bracket, else that behind the first colon -/
def fieldNumber (host : Bytes) : ℤ :=
  if host.head? = some lbrack then 0 else (decimal ((host.dropWhile (· != colon)).tail.takeWhile isDigit) : ℤ).bmod 4294967296

/-- The value fits in 16 bits, it is the port of the URL or is 0, and where the Host field has its port in another place the same number is
there. -/
structure Agreeing (type : URLType) (host digits : Bytes) : Prop where
  range : decimal digits < 65536
  taken : ¬ Taken host → decimal digits = 0
  single : rbrack ∉ host → host.head? = some lbrack ∨ colon ∈ host → urlCanonicalizePort type (fieldNumber host) = decimal digits

theorem fill_hosts (type : URLType) {url : URLImpl} (hurl : url.host = []) {authority host portText : Bytes}
    (hvalues : getHostPortValues authority = some (host, portText)) (port : ℤ) :
    (fillTargetCache type url [authority] port).port = urlCanonicalizePort type (mimePort portText) := by
  simp only [fillTargetCache, hurl, ne_eq, not_true_eq_false, if_false, List.head?_cons, Option.bind_some, hvalues]

/-- an address without a port passes -/
theorem validate_address {authority addr : Bytes} (hparse : atsIpParse authority = (addr, [], [])) (hne : addr ≠ [])
    (hchars : addr.all isHostChar = true) : validateHdrHost [authority] = true := by
  simp [validateHdrHost, hparse, hne, hchars]

/-- a port that passes is not 0 -/
theorem validate_port {authority addr digits : Bytes} (hparse : atsIpParse authority = (addr, digits, [])) (hne : digits ≠ [])
    (hvalid : validateHdrHost [authority] = true) : 0 < decimal digits := by
  simp only [validateHdrHost, hparse, Bool.and_eq_true, Bool.or_eq_true, decide_eq_true_eq, hne, false_or] at hvalid
  exact hvalid.1.1.2.1.2

section Agree

variable {host digits : Bytes} {url : URLImpl} (h : ReadAuthority (host ++ colon :: digits) url) (hat : commat ∉ host)
  (hdigits : ∀ c ∈ digits, isDigit c = true) (hne : digits ≠ [])

include h hat hdigits hne

theorem value_iff : url.portNumber = decimal digits ↔ decimal digits < 65536 ∧ (¬ Taken host → decimal digits = 0) := by
  rw [h.shape.portNumber]
  rcases parsed_hostPort h hat hdigits hne with ⟨htaken, -, hport⟩ | ⟨htaken, -, hport⟩
  · rw [hport, portValue_digits hdigits]
    exact ⟨fun heq => ⟨by omega, fun hnot => absurd htaken hnot⟩, fun hsmall => Nat.mod_eq_of_lt hsmall.1⟩
  · rw [hport]
    have hzero : URLImpl.portValue [] = 0 := rfl
    rw [hzero]
    exact ⟨fun heq => ⟨by omega, fun _ => heq.symm⟩, fun hsmall => (hsmall.2 htaken).symm⟩

omit h hat in
/-- where both have the port in the same place, the Host field gives the value -/
theorem agree_same (type : URLType) (hsmall : decimal digits < 65536) {addr first : Bytes}
    (hparse : atsIpParse (host ++ colon :: digits) = (addr, digits, []))
    (hvalues : getHostPortValues (host ++ colon :: digits) = some (first, digits)) (url' : URLImpl) (hurl : url'.host = []) (port : ℤ)
    (hvalid : validateHdrHost [host ++ colon :: digits] = true) :
    (fillTargetCache type url' [host ++ colon :: digits] port).port = decimal digits := by
  have hpos := validate_port hparse hne hvalid
  rw [fill_hosts type hurl hvalues, mimePort_eq, (digits_split hdigits).1, bmod_small hsmall]
  exact if_neg (by omega)

/-- where the Host field has its port in another place, it passes the check -/
theorem agree_other (type : URLType) (hclose : rbrack ∉ host) (hother : host.head? = some lbrack ∨ colon ∈ host) (url' : URLImpl)
    (hurl : url'.host = []) (port : ℤ) :
    validateHdrHost [host ++ colon :: digits] = true ∧
      (fillTargetCache type url' [host ++ colon :: digits] port).port = urlCanonicalizePort type (fieldNumber host) := by
  have hchars := host_chars h hat hdigits hne
  have hall : (host ++ colon :: digits).all isHostChar = true := by
    rw [List.all_append, hchars, Bool.true_and, List.all_cons]
    exact List.all_eq_true.mpr fun c hc => isDigit_isHostChar (hdigits c hc)
  have hnil : ∀ u : Bytes, u ++ colon :: digits ≠ [] := fun u => List.append_ne_nil_of_right_ne_nil u (List.cons_ne_nil _ _)
  by_cases hopen : host.head? = some lbrack
  · cases host with
    | nil => exact absurd hopen nofun
    | cons c y =>
      obtain rfl : c = lbrack := Option.some.inj hopen
      obtain ⟨hparse, hvalues⟩ := open_host hdigits fun hmem => hclose (List.mem_cons_of_mem _ hmem)
      have hy : (y ++ colon :: digits).all isHostChar = true := by
        rw [List.cons_append, List.all_cons, Bool.and_eq_true] at hall
        exact hall.2
      refine ⟨validate_address hparse (hnil y) hy, ?_⟩
      rw [fill_hosts type hurl hvalues, fieldNumber, if_pos hopen]
      rfl
  · obtain ⟨hparse, first, portText, hvalues, htake⟩ : atsIpParse (host ++ colon :: digits) = _ ∧ _ := colons_host (hother.resolve_left hopen) hopen hchars
    refine ⟨validate_address hparse (hnil host) hall, ?_⟩
    rw [fill_hosts type hurl hvalues, mimePort_eq, htake, fieldNumber, if_neg hopen]

theorem agreement_iff (type : URLType) : PortAgreement type url (host ++ colon :: digits) digits ↔ Agreeing type host digits := by
  constructor
  · rintro ⟨hvalue, hhost⟩
    obtain ⟨hsmall, htaken⟩ := (value_iff h hat hdigits hne).mp hvalue
    refine ⟨hsmall, htaken, fun hclose hother => ?_⟩
    obtain ⟨hvalid, hport⟩ := agree_other h hat hdigits hne type hclose hother URLImpl.null rfl 0
    rw [← hport, hhost URLImpl.null rfl 0 hvalid, hvalue]
  · rintro ⟨hsmall, htaken, hsingle⟩
    have hvalue := (value_iff h hat hdigits hne).mpr ⟨hsmall, htaken⟩
    refine ⟨hvalue, fun url' hurl port hvalid => ?_⟩
    rw [hvalue]
    by_cases hclose : rbrack ∈ host
    · obtain ⟨x, rfl, hx⟩ := closed_shape h hat hdigits hne hclose
      obtain ⟨hparse, hvalues⟩ := closed_host hdigits hx hne
      exact agree_same hdigits hne type hsmall hparse hvalues url' hurl port hvalid
    · by_cases hother : host.head? = some lbrack ∨ colon ∈ host
      · rw [(agree_other h hat hdigits hne type hclose hother url' hurl port).2]
        exact hsingle hclose hother
      · obtain ⟨hopen, hcolon⟩ := not_or.mp hother
        obtain ⟨hparse, hvalues⟩ := plain_host hdigits hcolon hopen (host_chars h hat hdigits hne) hne
        exact agree_same hdigits hne type hsmall hparse hvalues url' hurl port hvalid

end Agree

/-- the authority of a text is what is before the slash -/
theorem authority_unique {authority seen tail rest : Bytes} (h : authority ++ tail = seen ++ rest) (ha : slash ∉ authority) (hs : slash ∉ seen)
    (htail : tail = [] ∨ tail.head? = some slash) (hrest : rest = [] ∨ rest.head? = some slash) : seen = authority := by
  have htake : ∀ {u v : Bytes}, slash ∉ u → (v = [] ∨ v.head? = some slash) → (u ++ v).takeWhile (· != slash) = u := by
    intro u v hu hv
    refine (takeWhile_stop (fun c hc => bne_iff_ne.mpr ?_) fun c hc => ?_).1
    · rintro rfl
      exact hu hc
    rcases hv with rfl | hv
    · exact absurd hc nofun
    · obtain rfl := Option.some.inj (hv.symm.trans hc)
      rfl
  rw [← htake hs hrest, ← h, htake ha htail]

/-- the ports agree if and only if the text is as it should be -/
theorem port_agreement_iff (type : URLType) {url₀ url : URLImpl} {s host digits tail rest : Bytes}
    (h₀ : url₀.user = [] ∧ url₀.password = [] ∧ url₀.host = [] ∧ url₀.port = [] ∧ url₀.portNumber = 0)
    (hs : afterSlashes s = (host ++ colon :: digits) ++ tail) (htail : tail = [] ∨ tail.head? = some slash)
    (hslash : slash ∉ host) (hat : commat ∉ host) (hdigits : ∀ c ∈ digits, isDigit c = true) (hne : digits ≠ [])
    (h : parseInternet url₀ s = some (url, rest)) :
    PortAgreement type url (host ++ colon :: digits) digits ↔ Agreeing type host digits := by
  obtain ⟨seen, ⟨rest', hseen, hrest', -⟩, hns, hread, -⟩ := parseInternet_some h₀ h
  have hslashAll : slash ∉ host ++ colon :: digits := by
    intro hmem
    rcases List.mem_append.mp hmem with hhost | hcons
    · exact hslash hhost
    · rcases List.mem_cons.mp hcons with heq | hdigit
      · exact absurd heq (by decide)
      · exact isDigit_ne (hdigits _ hdigit) (by decide) rfl
  obtain rfl := authority_unique (hs.symm.trans hseen) hslashAll hns htail hrest'
  exact agreement_iff hread hat hdigits hne type

theorem port_eighty : ∃ url, parseInternet URLImpl.null (text "://a:80/") = some (url, []) ∧ PortAgreement .http url (text "a" ++ colon :: text "80") (text "80") := by
  have hparse : parseInternet URLImpl.null (text "://a:80/") = some ({ URLImpl.null with host := text "a", port := text "80", portNumber := 80 }, []) := by
    decide +kernel
  have hs : afterSlashes (text "://a:80/") = (text "a" ++ colon :: text "80") ++ [slash] := by decide +kernel
  refine ⟨_, hparse, (port_agreement_iff .http ⟨rfl, rfl, rfl, rfl, rfl⟩ hs (.inr rfl) ?_ ?_ ?_ ?_ hparse).mpr ⟨?_, fun hnot => ?_, ?_⟩⟩
  · decide +kernel
  · decide +kernel
  · decide +kernel
  · decide +kernel
  · decide +kernel
  · exact absurd (.inr (.inl (by decide +kernel))) hnot
  · decide +kernel

/-- The port 65616 of `a:65616` becomes 80. -/
theorem port_reduced : ∃ url, parseInternet URLImpl.null (text "://a:65616/") = some (url, []) ∧ url.portNumber = 80 ∧
    ¬ PortAgreement .http url (text "a" ++ colon :: text "65616") (text "65616") := by
  refine ⟨{ URLImpl.null with host := text "a", port := text "65616", portNumber := 80 }, by decide +kernel, rfl, fun h => ?_⟩
  exact absurd h.value (by decide +kernel)

end TrafficServer.Hdrs.HostPort
