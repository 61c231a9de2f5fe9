/-
What the URL parser reads (`url_parse`, `url_parse_http` and `url_parse_internet` in `proxy/hdrs/URL.cc`).

A parser gets the bytes up to `end`; from `end` on there is other memory. The loops look whether there is a byte before they read it. But the
byte at the start of the text is read without looking, and so is the byte behind the authority: where that goes to the end of the text it is the
byte at `end`. If that is a slash the start is moved behind `end`, and the byte behind the slash is read and becomes the path.

`bounded_iff`: the result does not depend on the memory behind the text, and nothing of it is read, exactly if the text is not empty and its
authority does not end with it, or is refused. Without a slash at `end` the functions are those of `UrlParse` (`urlParseIn_eq`).
-/
import TrafficServer.Hdrs.UrlParse

namespace TrafficServer.Hdrs.UrlParse

/-! ## The functions with memory behind the text -/

/-- `cur`: the bytes before `end`, or how many bytes it is behind `end` -/
structure Cur where
  rest : Bytes
  behind : ℕ
deriving DecidableEq

/-- what a parser leaves: whether it has succeeded, the URL, `*start`, and whether a byte from `end` on has been read -/
structure Outcome where
  done : Bool
  url : URLImpl
  start : Cur
  readEnd : Bool
deriving DecidableEq

section Parsers

-- the bytes from `end` on
variable (memory : ℕ → UInt8)

def failed (url : URLImpl) (s : Bytes) : Option Outcome := some ⟨false, url, ⟨s, 0⟩, false⟩

/-- the slash behind the authority; it is looked for at `end`, too -/
def afterAuthority (url : URLImpl) (rest : Bytes) : Outcome :=
  match rest with
  | [] => ⟨true, url, ⟨[], if memory 0 = slash then 1 else 0⟩, true⟩
  | c :: s => ⟨true, url, ⟨if c = slash then s else c :: s, 0⟩, false⟩

/-- the port, and what is behind it; `s` is the text from `*start` on -/
def pickUpPort (url : URLImpl) (s : Bytes) (a : Auth) (rest : Bytes) : Option Outcome :=
  if (a.hostPort.2.any fun l => a.field.drop (l + 1) = []) = true then failed url s
  else (setPort url a a.hostPort.2).map fun url => afterAuthority memory url rest

/-- what is done behind the loop of `url_parse_internet` -/
def pickUp (url : URLImpl) (s : Bytes) (a : Auth) (rest : Bytes) : Option Outcome :=
  (setUser url a).bind fun url =>
    if a.hostPort.1 ≠ [] ∧ a.hostPort.1.all isHostChar = false then failed url s
    else (setHost url a.hostPort.1).bind fun url => pickUpPort memory url s a rest

/-- `url_parse_internet` -/
def parseInternetIn (url : URLImpl) (s : Bytes) : Option Outcome :=
  match s with
  | [] => if memory 0 = colon then some ⟨false, url, ⟨[], 0⟩, true⟩ else some (afterAuthority memory url [])
  | c :: s =>
    match skipSlashes (c :: s) with
    | none => failed url (c :: s)
    | some base =>
      match scan base Auth.init with
      | none => failed url (c :: s)
      | some (a, rest) => pickUp memory url (c :: s) a rest

/-- `url_parse_http` -/
def parseHttpIn (url : URLImpl) (s : Bytes) : Option Outcome :=
  (parseInternetIn memory url s).bind fun o =>
    if o.done = false then some o
    else
      match o.start.behind with
      | 0 => (parsePath o.url o.start.rest).map fun url => { o with url := url, start := ⟨[], 0⟩ }
      -- the first byte of the path is read before `end` is looked at
      | k + 1 => (parsePath o.url [memory (k + 1)]).map fun url => { o with url := url, start := ⟨[], k + 2⟩, readEnd := true }

/-- `url_parse` -/
def urlParseIn (strictUriParsing : Bool) (url : URLImpl) (s : Bytes) : Option Outcome :=
  if strictUriParsing && !s.all isUri then failed url s
  else
    match s with
    | [] => some ⟨false, url, ⟨[], 0⟩, true⟩
    | c :: s =>
      if (c :: s).dropWhile (· == 32) = [] then failed url (c :: s)
      else (parseScheme url (c :: s)).bind fun (url, s) => parseHttpIn memory url s

end Parsers

/-- Memory behind the text does not matter, the start is moved to `end` at most, and no byte from there on is read. -/
structure Bounded (parse : (ℕ → UInt8) → Option Outcome) : Prop where
  same : ∀ memory memory', parse memory = parse memory'
  start_le : ∀ memory, ∀ o ∈ parse memory, o.start.behind = 0
  within : ∀ memory, ∀ o ∈ parse memory, o.readEnd = false

/-! ## Where the end of the text is looked at -/

/-- the setters behind the loop -/
def setAuthority (url : URLImpl) (a : Auth) : Option URLImpl :=
  ((setUser url a).bind fun url => setHost url a.hostPort.1).bind fun url => setPort url a a.hostPort.2

/-- the authority goes to the end of the text, and is not refused -/
def EndsInAuthority (url : URLImpl) (s : Bytes) : Prop :=
  ∃ base a, skipSlashes s = some base ∧ scan base Auth.init = some (a, []) ∧
    (setAuthority url a).isSome

/-- what `url_parse_internet` reads of `end` -/
def AtEnd (url : URLImpl) (s : Bytes) : Prop := s = [] ∨ EndsInAuthority url s

/-- the parser of the whole URL comes to an authority at the end of the text, or there is no text -/
def UrlAtEnd (strictUriParsing : Bool) (url : URLImpl) (s : Bytes) : Prop :=
  ¬ (strictUriParsing && !s.all isUri) ∧ (s = [] ∨ ∃ r, parseScheme url s = some r ∧ AtEnd r.1 r.2)

theorem bounded_const {parse : (ℕ → UInt8) → Option Outcome} {o : Option Outcome} (h : ∀ memory, parse memory = o)
    (ho : ∀ o' ∈ o, o'.start.behind = 0 ∧ o'.readEnd = false) : Bounded parse := by
  refine ⟨fun memory memory' => (h memory).trans (h memory').symm, fun memory o' ho' => ?_, fun memory o' ho' => ?_⟩
  · exact (ho o' (h memory ▸ ho')).1
  · exact (ho o' (h memory ▸ ho')).2

theorem not_bounded {parse : (ℕ → UInt8) → Option Outcome} (memory : ℕ → UInt8) {o : Outcome} (h : parse memory = some o)
    (ho : o.readEnd = true) : ¬ Bounded parse := by
  intro hbounded
  exact Bool.false_ne_true ((hbounded.within memory o h).symm.trans ho)

/-- what a parser that has succeeded gives -/
def parsed (o : Option Outcome) : Option (URLImpl × Bytes) := o.bind fun o => if o.done then some (o.url, o.start.rest) else none

@[simp] theorem parsed_failed (url : URLImpl) (s : Bytes) : parsed (failed url s) = none := rfl

/-- an outcome, or none, that has nothing to do with the memory behind the text -/
def Inside (o : Option Outcome) : Prop := ∀ o' ∈ o, o'.start.behind = 0 ∧ o'.readEnd = false

theorem failed_inside (url : URLImpl) (s : Bytes) : Inside (failed url s) := by
  intro o ho
  obtain rfl := Option.some.inj ho
  exact ⟨rfl, rfl⟩

theorem none_inside : Inside none := fun _ ho => absurd ho (by simp)

/-- what is picked up is the URL that the setters leave, or nothing is read behind the authority -/
theorem pickUpPort_cases (url : URLImpl) (s : Bytes) (a : Auth) (rest : Bytes) :
    (∃ url', setPort url a a.hostPort.2 = some url' ∧ ∀ memory, pickUpPort memory url s a rest = some (afterAuthority memory url' rest)) ∨
      setPort url a a.hostPort.2 = none ∧ ∃ o, Inside o ∧ parsed o = none ∧ ∀ memory, pickUpPort memory url s a rest = o := by
  by_cases hempty : (a.hostPort.2.any fun l => a.field.drop (l + 1) = []) = true
  · have hnone : setPort url a a.hostPort.2 = none := by
      cases hl : a.hostPort.2 with
      | none => simp [hl] at hempty
      | some l =>
        rw [hl] at hempty
        exact if_pos (by simpa using hempty)
    exact Or.inr ⟨hnone, failed url s, failed_inside url s, rfl, fun memory => if_pos hempty⟩
  · have heq : ∀ memory, pickUpPort memory url s a rest = (setPort url a a.hostPort.2).map fun url => afterAuthority memory url rest :=
      fun memory => if_neg hempty
    cases hport : setPort url a a.hostPort.2 with
    | none => exact Or.inr ⟨rfl, none, none_inside, rfl, fun memory => by rw [heq, hport]; rfl⟩
    | some url' => exact Or.inl ⟨url', rfl, fun memory => by rw [heq, hport]; rfl⟩

theorem pickUp_cases (url : URLImpl) (s : Bytes) (a : Auth) (rest : Bytes) :
    (∃ url', setAuthority url a = some url' ∧ ∀ memory, pickUp memory url s a rest = some (afterAuthority memory url' rest)) ∨
      setAuthority url a = none ∧ ∃ o, Inside o ∧ parsed o = none ∧ ∀ memory, pickUp memory url s a rest = o := by
  unfold pickUp setAuthority
  cases huser : setUser url a with
  | none => exact Or.inr ⟨rfl, none, none_inside, rfl, fun _ => rfl⟩
  | some url₁ =>
    rw [Option.bind_some]
    by_cases hbad : a.hostPort.1 ≠ [] ∧ a.hostPort.1.all isHostChar = false
    · have hnone : setHost url₁ a.hostPort.1 = none := by
        rw [setHost, if_neg hbad.1, if_neg (Bool.eq_false_iff.mp hbad.2)]
      rw [hnone]
      exact Or.inr ⟨rfl, failed url₁ s, failed_inside url₁ s, rfl, fun memory => if_pos hbad⟩
    · cases hhost : setHost url₁ a.hostPort.1 with
      | none => exact Or.inr ⟨rfl, none, none_inside, rfl, fun memory => (if_neg hbad).trans (by rw [hhost]; rfl)⟩
      | some url₂ =>
        have heq : ∀ memory, ((some url₁).bind fun url =>
            if a.hostPort.1 ≠ [] ∧ a.hostPort.1.all isHostChar = false then failed url s
            else (setHost url a.hostPort.1).bind fun url => pickUpPort memory url s a rest) = pickUpPort memory url₂ s a rest :=
          fun memory => (if_neg hbad).trans (by rw [hhost]; rfl)
        simp only [heq]
        exact pickUpPort_cases url₂ s a rest

/-! ## `url_parse_internet` -/

/-- where the end is not looked at -/
theorem parseInternetIn_inside {url : URLImpl} {s : Bytes} (h : ¬ AtEnd url s) :
    ∃ o, Inside o ∧ ∀ memory, parseInternetIn memory url s = o := by
  cases s with
  | nil => exact absurd (Or.inl rfl) h
  | cons c s =>
    cases hbase : skipSlashes (c :: s) with
    | none => exact ⟨_, failed_inside url (c :: s), fun memory => by rw [parseInternetIn, hbase]⟩
    | some base =>
      cases hscan : scan base Auth.init with
      | none => exact ⟨_, failed_inside url (c :: s), fun memory => by simp only [parseInternetIn, hbase, hscan]⟩
      | some r =>
        obtain ⟨a, rest⟩ := r
        have heq : ∀ memory, parseInternetIn memory url (c :: s) = pickUp memory url (c :: s) a rest :=
          fun memory => by simp only [parseInternetIn, hbase, hscan]
        rcases pickUp_cases url (c :: s) a rest with ⟨url', hset, hpick⟩ | ⟨-, o, ho, -, hpick⟩
        · cases rest with
          | nil => exact absurd (Or.inr ⟨base, a, hbase, hscan, by rw [hset]; rfl⟩) h
          | cons d rest =>
            refine ⟨some ⟨true, url', ⟨if d = slash then rest else d :: rest, 0⟩, false⟩, ?_, fun memory => (heq memory).trans (hpick memory)⟩
            intro o' ho'
            obtain rfl := Option.some.inj ho'
            exact ⟨rfl, rfl⟩
        · exact ⟨o, ho, fun memory => (heq memory).trans (hpick memory)⟩

/-- where the end is looked at, and there is no slash, and no colon that would be the first byte -/
theorem parseInternetIn_atEnd {url : URLImpl} {s : Bytes} (h : AtEnd url s) (memory : ℕ → UInt8) (hcolon : s = [] → memory 0 ≠ colon)
    (hslash : memory 0 ≠ slash) : ∃ url', parseInternetIn memory url s = some ⟨true, url', ⟨[], 0⟩, true⟩ := by
  have hafter : ∀ url', afterAuthority memory url' [] = ⟨true, url', ⟨[], 0⟩, true⟩ := fun url' => by simp only [afterAuthority, if_neg hslash]
  rcases h with rfl | ⟨base, a, hbase, hscan, hset⟩
  · exact ⟨url, by rw [parseInternetIn, if_neg (hcolon rfl), hafter]⟩
  · cases s with
    | nil => exact ⟨url, by rw [parseInternetIn, if_neg (hcolon rfl), hafter]⟩
    | cons c s =>
      rcases pickUp_cases url (c :: s) a [] with ⟨url', -, hpick⟩ | ⟨hnone, -⟩
      · refine ⟨url', ?_⟩
        simp only [parseInternetIn, hbase, hscan]
        rw [hpick, hafter]
      · rw [hnone] at hset
        exact absurd hset (by simp)

theorem parseInternetIn_bounded_iff (url : URLImpl) (s : Bytes) : Bounded (fun memory => parseInternetIn memory url s) ↔ ¬ AtEnd url s := by
  constructor
  · intro h hend
    obtain ⟨url', heq⟩ := parseInternetIn_atEnd hend (fun _ => 0) (fun _ => by decide) (by decide)
    exact not_bounded _ heq rfl h
  · intro h
    obtain ⟨o, ho, heq⟩ := parseInternetIn_inside h
    exact bounded_const heq ho

/-! ## `url_parse_http` -/

theorem parseHttpIn_inside {url : URLImpl} {s : Bytes} (h : ¬ AtEnd url s) : ∃ o, Inside o ∧ ∀ memory, parseHttpIn memory url s = o := by
  obtain ⟨o, ho, heq⟩ := parseInternetIn_inside h
  cases o with
  | none => exact ⟨none, none_inside, fun memory => by rw [parseHttpIn, heq]; rfl⟩
  | some o =>
    obtain ⟨hbehind, hread⟩ := ho o rfl
    by_cases hdone : o.done = false
    · exact ⟨some o, ho, fun memory => by rw [parseHttpIn, heq, Option.bind_some, if_pos hdone]⟩
    · refine ⟨(parsePath o.url o.start.rest).map fun url => { o with url := url, start := ⟨[], 0⟩ }, ?_, fun memory => ?_⟩
      · intro o' ho'
        obtain ⟨url', -, rfl⟩ := Option.map_eq_some_iff.mp ho'
        exact ⟨rfl, hread⟩
      · rw [parseHttpIn, heq, Option.bind_some, if_neg hdone, hbehind]

theorem parseHttpIn_atEnd {url : URLImpl} {s : Bytes} (h : AtEnd url s) (memory : ℕ → UInt8) (hcolon : s = [] → memory 0 ≠ colon)
    (hslash : memory 0 ≠ slash) : ∃ url', parseHttpIn memory url s = some ⟨true, url', ⟨[], 0⟩, true⟩ := by
  obtain ⟨url', heq⟩ := parseInternetIn_atEnd h memory hcolon hslash
  exact ⟨url', by rw [parseHttpIn, heq]; rfl⟩

theorem parseHttpIn_bounded_iff (url : URLImpl) (s : Bytes) : Bounded (fun memory => parseHttpIn memory url s) ↔ ¬ AtEnd url s := by
  constructor
  · intro h hend
    obtain ⟨url', heq⟩ := parseHttpIn_atEnd hend (fun _ => 0) (fun _ => by decide) (by decide)
    exact not_bounded _ heq rfl h
  · intro h
    obtain ⟨o, ho, heq⟩ := parseHttpIn_inside h
    exact bounded_const heq ho

/-! ## `url_parse` -/

theorem parseScheme_blank {url : URLImpl} {s : Bytes} (h : s.dropWhile (· == 32) = []) : parseScheme url s = none := by
  rw [parseScheme, h]

/-- behind the scheme the text is that of `url_parse_http` -/
theorem urlParseIn_cons {strict : Bool} (url : URLImpl) {c : UInt8} {s : Bytes} (hstrict : ¬ (strict && !(c :: s).all isUri) = true) (memory : ℕ → UInt8) :
    urlParseIn memory strict url (c :: s) =
      if (c :: s).dropWhile (· == 32) = [] then failed url (c :: s)
      else (parseScheme url (c :: s)).bind fun r => parseHttpIn memory r.1 r.2 := by
  rw [urlParseIn, if_neg hstrict]

theorem urlParseIn_bounded_iff (strict : Bool) (url : URLImpl) (s : Bytes) :
    Bounded (fun memory => urlParseIn memory strict url s) ↔ ¬ UrlAtEnd strict url s := by
  by_cases hstrict : (strict && !s.all isUri) = true
  · exact iff_of_true (bounded_const (fun memory => if_pos hstrict) (failed_inside url s)) fun h => h.1 hstrict
  · cases s with
    | nil =>
      refine iff_of_false (not_bounded (fun _ => 0) (if_neg hstrict) rfl) ?_
      exact not_not.mpr ⟨hstrict, Or.inl rfl⟩
    | cons c s =>
      have hin := urlParseIn_cons url hstrict
      by_cases hblank : (c :: s).dropWhile (· == 32) = []
      · refine iff_of_true (bounded_const (fun memory => (hin memory).trans (if_pos hblank)) (failed_inside url (c :: s))) ?_
        rintro ⟨-, h | ⟨r, hr, -⟩⟩
        · exact List.cons_ne_nil c s h
        · rw [parseScheme_blank hblank] at hr
          cases hr
      · have hhttp : ∀ memory, urlParseIn memory strict url (c :: s) = (parseScheme url (c :: s)).bind fun r => parseHttpIn memory r.1 r.2 :=
          fun memory => (hin memory).trans (if_neg hblank)
        cases hscheme : parseScheme url (c :: s) with
        | none =>
          refine iff_of_true (bounded_const (fun memory => (hhttp memory).trans (by rw [hscheme]; rfl)) none_inside) ?_
          rintro ⟨-, h | ⟨r, hr, -⟩⟩
          · exact List.cons_ne_nil c s h
          · rw [hscheme] at hr
            cases hr
        | some r =>
          have heq : (fun memory => urlParseIn memory strict url (c :: s)) = fun memory => parseHttpIn memory r.1 r.2 :=
            funext fun memory => (hhttp memory).trans (by rw [hscheme]; rfl)
          rw [heq, parseHttpIn_bounded_iff]
          refine not_congr ⟨fun h => ⟨hstrict, Or.inr ⟨r, hscheme, h⟩⟩, ?_⟩
          rintro ⟨-, h | ⟨r', hr', h⟩⟩
          · exact absurd h (List.cons_ne_nil c s)
          · obtain rfl := Option.some.inj (hscheme.symm.trans hr')
            exact h

/-! ## Without a slash at the end -/

theorem parsed_afterAuthority (memory : ℕ → UInt8) (url : URLImpl) (rest : Bytes) :
    parsed (some (afterAuthority memory url rest)) = some (url, if rest.head? = some slash then rest.tail else rest) := by
  cases rest with
  | nil => rfl
  | cons c s =>
    by_cases hc : c = slash
    · simp [afterAuthority, parsed, hc]
    · simp [afterAuthority, parsed, hc]

theorem parsed_pickUp (memory : ℕ → UInt8) (url : URLImpl) (s : Bytes) (a : Auth) (rest : Bytes) :
    parsed (pickUp memory url s a rest) = (setAuthority url a).map fun url => (url, if rest.head? = some slash then rest.tail else rest) := by
  rcases pickUp_cases url s a rest with ⟨url', hset, hpick⟩ | ⟨hnone, o, -, ho, hpick⟩
  · rw [hpick, hset, parsed_afterAuthority, Option.map_some]
  · rw [hpick, ho, hnone, Option.map_none]

theorem parseInternet_eq (url : URLImpl) (s : Bytes) :
    parseInternet url s = (skipSlashes s).bind fun base => (scan base Auth.init).bind fun r =>
      (setAuthority url r.1).map fun url => (url, if r.2.head? = some slash then r.2.tail else r.2) := by
  simp only [parseInternet, setAuthority, Option.bind_eq_bind, Option.map_eq_bind, Option.bind_assoc]
  rfl

theorem parseInternetIn_eq (memory : ℕ → UInt8) {s : Bytes} (hs : s ≠ []) (url : URLImpl) :
    parsed (parseInternetIn memory url s) = parseInternet url s := by
  rw [parseInternet_eq]
  cases s with
  | nil => exact absurd rfl hs
  | cons c s =>
    cases hbase : skipSlashes (c :: s) with
    | none => simp only [parseInternetIn, hbase, parsed_failed, Option.bind_none]
    | some base =>
      cases hscan : scan base Auth.init with
      | none => simp only [parseInternetIn, hbase, hscan, parsed_failed, Option.bind_some, Option.bind_none]
      | some r => simp only [parseInternetIn, hbase, hscan, parsed_pickUp, Option.bind_some]

theorem parseInternetIn_behind {memory : ℕ → UInt8} (hslash : memory 0 ≠ slash) {s : Bytes} (hs : s ≠ []) {url : URLImpl} {o : Outcome}
    (ho : parseInternetIn memory url s = some o) : o.start.behind = 0 := by
  by_cases h : AtEnd url s
  · obtain ⟨url', heq⟩ := parseInternetIn_atEnd h memory (fun hnil => absurd hnil hs) hslash
    rw [← Option.some.inj (heq.symm.trans ho)]
  · obtain ⟨o', ho', heq⟩ := parseInternetIn_inside h
    exact (ho' o ((heq memory).symm.trans ho)).1

theorem parseHttpIn_eq {memory : ℕ → UInt8} (hslash : memory 0 ≠ slash) {s : Bytes} (hs : s ≠ []) (url : URLImpl) :
    (parsed (parseHttpIn memory url s)).map Prod.fst = parseHttp url s := by
  rw [parseHttp, ← parseInternetIn_eq memory hs, parseHttpIn]
  cases ho : parseInternetIn memory url s with
  | none => rfl
  | some o =>
    cases hdone : o.done with
    | false => simp [parsed, hdone]
    | true => simp [parsed, hdone, parseInternetIn_behind hslash hs ho, Option.map_bind, Option.bind_map]

/-- behind the scheme there is a colon, or it is the text itself -/
theorem parseScheme_ne_nil {url : URLImpl} {s : Bytes} {r : URLImpl × Bytes} (h : parseScheme url s = some r) : r.2 ≠ [] := by
  unfold parseScheme at h
  dsimp only at h
  split at h
  · cases h
  · rename_i c cs hcur
    rw [hcur] at h
    split at h
    · rename_i hhttp
      obtain ⟨url', -, rfl⟩ := Option.map_eq_some_iff.mp h
      have hlen : (text "http:").length ≤ (c :: cs).length := (List.isPrefixOf_iff_prefix.mp hhttp).length_le
      have h5 : (text "http:").length = 5 := by decide
      intro hnil
      have := List.drop_eq_nil_iff.mp hnil
      omega
    · split at h
      · split at h
        · obtain rfl := Option.some.inj h
          exact List.cons_ne_nil c cs
        · split at h
          · obtain ⟨url', -, rfl⟩ := Option.map_eq_some_iff.mp h
            exact List.cons_ne_nil _ _
          · obtain rfl := Option.some.inj h
            exact List.cons_ne_nil c cs
      · obtain rfl := Option.some.inj h
        exact List.cons_ne_nil c cs

/-- Without a slash at `end` a text that is not empty is read as `urlParse` reads it. -/
theorem urlParseIn_eq {memory : ℕ → UInt8} (hslash : memory 0 ≠ slash) {s : Bytes} (hs : s ≠ []) (strict : Bool) :
    (parsed (urlParseIn memory strict URLImpl.null s)).map Prod.fst = urlParse strict s := by
  unfold urlParse
  by_cases hstrict : (strict && !s.all isUri) = true
  · have hrefused : urlParseIn memory strict URLImpl.null s = failed URLImpl.null s := if_pos hstrict
    rw [if_pos hstrict, hrefused, parsed_failed, Option.map_none]
  · rw [if_neg hstrict]
    cases s with
    | nil => exact absurd rfl hs
    | cons c s =>
      rw [urlParseIn_cons _ hstrict]
      by_cases hblank : (c :: s).dropWhile (· == 32) = []
      · rw [if_pos hblank, parseScheme_blank hblank, parsed_failed, Option.map_none, Option.bind_none]
      · rw [if_neg hblank]
        cases hscheme : parseScheme URLImpl.null (c :: s) with
        | none => rfl
        | some r =>
          rw [Option.bind_some, Option.bind_some]
          exact parseHttpIn_eq hslash (parseScheme_ne_nil hscheme) r.1

theorem urlParseIn_eq_authority : (parsed (urlParseIn (fun _ => 0) false URLImpl.null (text "http://a"))).map Prod.fst =
    urlParse false (text "http://a") :=
  urlParseIn_eq (show (fun _ : ℕ => (0 : UInt8)) 0 ≠ slash by decide) (by decide) false

/-! ## The three parsers -/

/-- The text `http://a` ends with its authority: with `/x` behind it the path is `x`, and the start is behind the end. -/
theorem end_is_read : ¬ ∀ strict url s, Bounded (fun memory => urlParseIn memory strict url s) := by
  intro h
  have hsame := (h false URLImpl.null (text "http://a")).same (fun k => if k = 0 then slash else 120) (fun _ => 0)
  revert hsame
  decide +kernel

/-- The parsers keep to the text exactly if the end is not looked at behind the authority. -/
theorem bounded_iff (strict : Bool) (url : URLImpl) (s : Bytes) :
    (Bounded (fun memory => urlParseIn memory strict url s) ↔ ¬ UrlAtEnd strict url s) ∧
      (Bounded (fun memory => parseHttpIn memory url s) ↔ ¬ AtEnd url s) ∧
      (Bounded (fun memory => parseInternetIn memory url s) ↔ ¬ AtEnd url s) :=
  ⟨urlParseIn_bounded_iff strict url s, parseHttpIn_bounded_iff url s, parseInternetIn_bounded_iff url s⟩

end TrafficServer.Hdrs.UrlParse
