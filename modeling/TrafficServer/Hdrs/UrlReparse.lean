/-
What the parser of a URL makes of the text of the printer.

`Shape` says which bytes the parts of a parsed URL can have. For a URL of this shape the loop of `url_parse_internet` reads user, password,
host and port back out of the printed authority (`scan_printed`), unless the user starts with an open bracket and the printer puts brackets
around the host: the loop takes one open bracket only.
-/
import Mathlib
import TrafficServer.Hdrs.UrlParse

namespace TrafficServer.Hdrs.UrlParse

/-! ## Runs of bytes -/

/-- a byte that the loop passes over -/
structure Ordinary (c : UInt8) : Prop where
  close : c ≠ rbrack
  colon : c ≠ colon
  commat : c ≠ commat
  op : c ≠ lbrack
  slash : c ≠ slash

/-- an ordinary byte or a colon -/
structure Plain (c : UInt8) : Prop where
  close : c ≠ rbrack
  commat : c ≠ commat
  op : c ≠ lbrack
  slash : c ≠ slash

theorem Ordinary.plain {c : UInt8} (h : Ordinary c) : Plain c := ⟨h.close, h.commat, h.op, h.slash⟩

theorem scan_push {c : UInt8} (h : Ordinary c) (s : Bytes) (a : Auth) : scan (c :: s) a = scan s (a.push c) := by
  rw [scan, if_neg h.close, if_neg h.colon, if_neg h.commat, if_neg h.op, if_neg h.slash]

theorem scan_colon {a : Auth} (h : a.nColon < MAX_COLON) (s : Bytes) :
    scan (colon :: s) a = scan s { a.push colon with nColon := a.nColon + 1, lastColon := some a.field.length } := by
  have hp : a.pushColon = some { a.push colon with nColon := a.nColon + 1, lastColon := some a.field.length } := by
    rw [Auth.pushColon, if_neg (by omega)]
  rw [scan, if_neg (by decide), if_pos rfl, hp]

/-- `a'` is `a` after it has passed over `w` -/
structure Passed (a : Auth) (w : Bytes) (a' : Auth) : Prop where
  field : a'.field = a.field ++ w
  bracket : a'.bracket = a.bracket.map (· ++ w)
  nColon : a'.nColon = a.nColon + w.count colon
  lastColon : colon ∉ w → a'.lastColon = a.lastColon
  user : a'.user = a.user
  passw : a'.passw = a.passw
  host : a'.host = a.host

theorem Passed.refl (a : Auth) : Passed a [] a := by
  refine ⟨by simp, ?_, by simp, fun _ => rfl, rfl, rfl, rfl⟩
  cases a.bracket <;> simp

theorem Passed.cons {a b a' : Auth} {c : UInt8} {w : Bytes} (h : Passed b w a') (hf : b.field = a.field ++ [c])
    (hb : b.bracket = a.bracket.map (· ++ [c])) (hn : b.nColon = a.nColon + [c].count colon)
    (hl : c ≠ colon → b.lastColon = a.lastColon) (hu : b.user = a.user) (hp : b.passw = a.passw) (hh : b.host = a.host) :
    Passed a (c :: w) a' := by
  refine ⟨by rw [h.field, hf]; simp, ?_, ?_, ?_, by rw [h.user, hu], by rw [h.passw, hp], by rw [h.host, hh]⟩
  · rw [h.bracket, hb]
    cases a.bracket <;> simp
  · rw [h.nColon, hn, List.count_cons (l := w), List.count_singleton]
    omega
  · intro hc
    obtain ⟨h1, h2⟩ := not_or.mp (fun hx => hc (List.mem_cons.mpr hx))
    rw [h.lastColon h2, hl (Ne.symm h1)]

/-- plain bytes with at most eight colons in all -/
theorem scan_plain {w : Bytes} (hw : ∀ c ∈ w, Plain c) (s : Bytes) {a : Auth} (hn : a.nColon + w.count colon ≤ MAX_COLON) :
    ∃ a', scan (w ++ s) a = scan s a' ∧ Passed a w a' := by
  induction w generalizing a with
  | nil => exact ⟨a, rfl, Passed.refl a⟩
  | cons c w ih =>
    have hc := hw c List.mem_cons_self
    have hw' : ∀ c ∈ w, Plain c := fun d hd => hw d (List.mem_cons_of_mem c hd)
    rw [List.count_cons] at hn
    by_cases he : c = colon
    · subst he
      simp only [BEq.rfl, if_true] at hn
      obtain ⟨a', hs, hp⟩ := ih hw' (a := { a.push colon with nColon := a.nColon + 1, lastColon := some a.field.length }) (by
        simp only
        omega)
      refine ⟨a', ?_, hp.cons rfl rfl (by simp) (fun hx => absurd rfl hx) rfl rfl rfl⟩
      rw [List.cons_append, scan_colon (by omega), hs]
    · have hb : (c == colon) = false := beq_eq_false_iff_ne.mpr he
      rw [hb] at hn
      obtain ⟨a', hs, hp⟩ := ih hw' (a := a.push c) (by simp only [Auth.push]; simpa using hn)
      refine ⟨a', ?_, hp.cons rfl rfl (by rw [List.count_singleton, hb]; rfl) (fun _ => rfl) rfl rfl rfl⟩
      rw [List.cons_append, scan_push ⟨hc.close, he, hc.commat, hc.op, hc.slash⟩, hs]

theorem scan_ordinary {w : Bytes} (hw : ∀ c ∈ w, Ordinary c) (s : Bytes) (a : Auth) (hn : a.nColon ≤ MAX_COLON) :
    ∃ a', scan (w ++ s) a = scan s a' ∧ Passed a w a' ∧ a'.nColon = a.nColon := by
  have hcount : w.count colon = 0 := List.count_eq_zero.mpr fun hm => (hw _ hm).colon rfl
  obtain ⟨a', hs, hp⟩ := scan_plain (fun c hc => (hw c hc).plain) s (a := a) (by omega)
  exact ⟨a', hs, hp, by rw [hp.nColon, hcount, Nat.add_zero]⟩

theorem scan_open {a : Auth} (hb : a.bracket = none) (hf : a.field = []) (s : Bytes) :
    scan (lbrack :: s) a = scan s { a with field := [lbrack], bracket := some [lbrack] } := by
  have hp : a.pushOpen = some { a with field := [lbrack], bracket := some [lbrack] } := by
    rw [Auth.pushOpen, if_neg (by simp [hb, hf])]
  rw [scan, if_neg (by decide), if_neg (by decide), if_neg (by decide), if_pos rfl, hp]

/-- a second open bracket is an error -/
theorem scan_open_none {a : Auth} {b : Bytes} (hb : a.bracket = some b) (s : Bytes) : scan (lbrack :: s) a = none := by
  have hp : a.pushOpen = none := by
    rw [Auth.pushOpen, if_pos (by simp [hb])]
  rw [scan, if_neg (by decide), if_neg (by decide), if_neg (by decide), if_pos rfl, hp]

theorem scan_at {a a' : Auth} (h : a.pushAt = some a') (s : Bytes) : scan (commat :: s) a = scan s a' := by
  rw [scan, if_neg (by decide), if_neg (by decide), if_pos rfl, h]

theorem scan_slash (s : Bytes) (a : Auth) : scan (slash :: s) a = some (a, slash :: s) := by
  rw [scan, if_neg (by decide), if_neg (by decide), if_neg (by decide), if_neg (by decide), if_pos rfl]

/-! ## The shape of a parsed URL -/

/-- host and port, as the parser tells them apart -/
inductive HostShape (host port : Bytes) : Prop where
  | none (h : host = [])
  /-- no closed brackets: the number of colons decides -/
  | single (ne : host ≠ []) (bytes : ∀ c ∈ host, c ≠ rbrack ∧ c ≠ commat ∧ c ≠ slash) (op : lbrack ∉ host.tail)
      (few : host.count colon ≤ 7) (all : port = [] → host.count colon ≠ 1) (split : port ≠ [] → host.count colon = 0 ∨ host.count colon = 7)
  | closed (x : Bytes) (h : host = lbrack :: (x ++ [rbrack])) (bytes : ∀ c ∈ x, Plain c) (few : x.count colon ≤ 7)

structure Shape (url : URLImpl) : Prop where
  user : ∀ c ∈ url.user, c ≠ rbrack ∧ c ≠ colon ∧ c ≠ commat ∧ c ≠ slash
  userOpen : lbrack ∉ url.user.tail
  passw : ∀ c ∈ url.password, Ordinary c
  passwUser : url.user = [] → url.password = []
  port : ∀ c ∈ url.port, Ordinary c
  portNumber : url.portNumber = URLImpl.portValue url.port
  host : HostShape url.host url.port
  oneOpen : url.user.head? = some lbrack → url.host.head? ≠ some lbrack

/-- the printed user and password -/
def printUser (url : URLImpl) : Bytes :=
  if url.user = [] then [] else url.user ++ (if url.password = [] then [] else colon :: url.password) ++ [commat]

/-- the printer leaves the port out -/
def portDropped (url : URLImpl) : Prop := url.host = [] ∨ url.port = [] ∨ url.portNumber = 0

instance (url : URLImpl) : Decidable (portDropped url) := inferInstanceAs (Decidable (_ ∨ _ ∨ _))

/-- the printed port -/
def printPort (url : URLImpl) : Bytes := if portDropped url then [] else colon :: url.port

/-- the printed host and port -/
def printHostPort (url : URLImpl) : Bytes := (if url.host = [] then [] else printHost url.host) ++ printPort url

theorem Shape.user_plain {url : URLImpl} (h : Shape url) {c : UInt8} {u : Bytes} (hu : url.user = c :: u) :
    (c = lbrack ∨ Ordinary c) ∧ ∀ d ∈ u, Ordinary d := by
  have hb := h.user
  have ho := h.userOpen
  rw [hu] at hb ho
  constructor
  · obtain ⟨h1, h2, h3, h4⟩ := hb c List.mem_cons_self
    by_cases hc : c = lbrack
    · exact Or.inl hc
    · exact Or.inr ⟨h1, h2, h3, hc, h4⟩
  · intro d hd
    obtain ⟨h1, h2, h3, h4⟩ := hb d (List.mem_cons_of_mem c hd)
    exact ⟨h1, h2, h3, fun he => ho (he ▸ hd), h4⟩

/-- the state after user and password: the host begins -/
structure AtHost (url : URLImpl) (a : Auth) : Prop where
  field : a.field = []
  nColon : a.nColon = 0
  lastColon : a.lastColon = none
  user : a.user = url.user
  passw : a.passw = url.password
  host : a.host = []
  bracket : a.bracket = none ↔ url.user.head? ≠ some lbrack

/-- the user field, with or without a bracket in front -/
theorem scan_user_field {url : URLImpl} (h : Shape url) (hne : url.user ≠ []) (s : Bytes) :
    ∃ a, scan (url.user ++ s) Auth.init = scan s a ∧ a.field = url.user ∧ a.nColon = 0 ∧ a.lastColon = none ∧ a.user = [] ∧
      a.passw = [] ∧ a.host = [] ∧ (a.bracket = none ↔ url.user.head? ≠ some lbrack) := by
  obtain ⟨c, u, hu⟩ := List.exists_cons_of_ne_nil hne
  obtain ⟨hc, hrest⟩ := h.user_plain hu
  rw [hu]
  rcases hc with rfl | hc
  · obtain ⟨a, hs, hp, hn⟩ := scan_ordinary hrest s { Auth.init with field := [lbrack], bracket := some [lbrack] } (by decide)
    refine ⟨a, ?_, by simpa using hp.field, hn, hp.lastColon (fun hm => (hrest _ hm).colon rfl), hp.user, hp.passw, hp.host, ?_⟩
    · rw [List.cons_append, scan_open rfl rfl, hs]
    · simp [hp.bracket]
  · have hall : ∀ d ∈ c :: u, Ordinary d := List.forall_mem_cons.mpr ⟨hc, hrest⟩
    obtain ⟨a, hs, hp, hn⟩ := scan_ordinary hall s Auth.init (by decide)
    refine ⟨a, hs, hp.field, hn, hp.lastColon (fun hm => (hall _ hm).colon rfl), hp.user, hp.passw, hp.host, ?_⟩
    simp [hp.bracket, Auth.init, hc.op]

theorem scan_printUser {url : URLImpl} (h : Shape url) (s : Bytes) :
    ∃ a, scan (printUser url ++ s) Auth.init = scan s a ∧ AtHost url a := by
  unfold printUser
  by_cases hne : url.user = []
  · rw [if_pos hne]
    exact ⟨Auth.init, rfl, rfl, rfl, rfl, hne.symm, (h.passwUser hne).symm, rfl, by simp [Auth.init, hne]⟩
  · rw [if_neg hne]
    by_cases hpw : url.password = []
    · rw [if_pos hpw]
      obtain ⟨a, hs, hf, hn, hl, hu, hp, hh, hb⟩ := scan_user_field h hne (commat :: s)
      have hat : a.pushAt = some { a with field := [], bracket := a.bracket.map (· ++ [commat]), user := a.field } := by
        rw [Auth.pushAt, if_neg (by simp [hu, hn])]
        simp [hn]
      refine ⟨{ a with field := [], bracket := a.bracket.map (· ++ [commat]), user := a.field }, ?_, rfl, hn, hl, hf, ?_, hh, ?_⟩
      · rw [List.append_nil, List.append_assoc, List.singleton_append, hs, scan_at hat]
      · exact hp.trans hpw.symm
      · simpa using hb
    · rw [if_neg hpw]
      obtain ⟨a, hs, hf, hn, hl, hu, hp, hh, hb⟩ := scan_user_field h hne (colon :: (url.password ++ commat :: s))
      obtain ⟨a', hs', hpass, hn'⟩ := scan_ordinary h.passw (commat :: s)
        { a.push colon with nColon := a.nColon + 1, lastColon := some a.field.length } (by simp [hn, MAX_COLON])
      have hf' : a'.field = url.user ++ colon :: url.password := by
        rw [hpass.field]
        simp [Auth.push, hf]
      have hl' : a'.lastColon = some url.user.length := by
        rw [hpass.lastColon (fun hm => (h.passw _ hm).colon rfl)]
        simp [hf]
      have hn1 : a'.nColon = 1 := by
        rw [hn']
        simp [hn]
      have hat : ∃ a'', a'.pushAt = some a'' ∧ AtHost url a'' := by
        refine ⟨{ a' with
          field := [], bracket := a'.bracket.map (· ++ [commat]), user := url.user, passw := url.password, nColon := 0
          lastColon := none }, ?_, rfl, rfl, rfl, rfl, rfl, hpass.host.trans hh, ?_⟩
        · have hu' : a'.user = [] := hpass.user.trans hu
          rw [Auth.pushAt, if_neg (by simp [hu', hn1])]
          simp [hn1, hl', hf']
        · simp only [Option.map_eq_none_iff, hpass.bracket, Auth.push]
          exact hb
      obtain ⟨a'', hat, hhost⟩ := hat
      refine ⟨a'', ?_, hhost⟩
      rw [List.append_assoc, List.append_assoc, List.cons_append, List.singleton_append, hs, scan_colon (by simp [hn, MAX_COLON]), hs',
        scan_at hat]

/-! ## The printed host and port -/

/-- what the end of the loop has to have found -/
structure Found (url : URLImpl) (a : Auth) (host : Bytes) : Prop where
  user : a.user = url.user
  passw : a.passw = url.password
  host : a.hostPort.1 = host
  port : match a.hostPort.2 with
    | none => portDropped url
    | some l => ¬portDropped url ∧ a.field.drop (l + 1) = url.port

/-- the port behind a host without closed brackets -/
theorem scan_single {url : URLImpl} (h : Shape url) {a : Auth} {host : Bytes} (hf : a.field = host)
    (hu : a.user = url.user) (hp : a.passw = url.password) (hh : a.host = [])
    (hall : portDropped url → a.nColon ≠ 1 ∧ a.nColon ≤ 7) (hsplit : ¬portDropped url → a.nColon = 0 ∨ a.nColon = 7) (s : Bytes) :
    ∃ a', scan (printPort url ++ slash :: s) a = some (a', slash :: s) ∧ Found url a' host := by
  unfold printPort
  by_cases hd : portDropped url
  · obtain ⟨h1, h7⟩ := hall hd
    have hhp : a.hostPort = (host, none) := by
      rw [Auth.hostPort, if_pos hh, if_neg (by simp only [MAX_COLON]; omega), hf]
    rw [if_pos hd]
    exact ⟨a, scan_slash s a, hu, hp, by rw [hhp], by rw [hhp]; exact hd⟩
  · have hn := hsplit hd
    rw [if_neg hd, List.cons_append, scan_colon (by simp only [MAX_COLON]; omega)]
    obtain ⟨a', hs, hpass, hn'⟩ := scan_ordinary h.port (slash :: s)
      { a.push colon with nColon := a.nColon + 1, lastColon := some a.field.length } (by simp only [MAX_COLON]; omega)
    have hf' : a'.field = host ++ colon :: url.port := by
      rw [hpass.field]
      simp [Auth.push, hf]
    have hl' : a'.lastColon = some host.length := by
      rw [hpass.lastColon (fun hm => (h.port _ hm).colon rfl)]
      simp [hf]
    have hhp : a'.hostPort = (host, some host.length) := by
      rw [Auth.hostPort, if_pos (hpass.host.trans hh), if_pos (by rw [hn']; simp only [MAX_COLON]; omega), hl', hf']
      simp
    refine ⟨a', by rw [hs, scan_slash], hpass.user.trans hu, hpass.passw.trans hp, by rw [hhp], ?_⟩
    rw [hhp]
    exact ⟨hd, by simp [hf']⟩

/-- a host in brackets and the port behind it -/
theorem scan_closed {url : URLImpl} (h : Shape url) {a : Auth} (ha : AtHost url a) (hb : url.user.head? ≠ some lbrack) {x : Bytes}
    (hx : ∀ c ∈ x, Plain c) (hn : x.count colon ≤ 7) (s : Bytes) :
    ∃ a', scan (lbrack :: (x ++ rbrack :: (printPort url ++ slash :: s))) a = some (a', slash :: s) ∧
      Found url a' (lbrack :: (x ++ [rbrack])) := by
  obtain ⟨b, hs, hp⟩ := scan_plain hx (rbrack :: (printPort url ++ slash :: s))
    (a := { a with field := [lbrack], bracket := some [lbrack] }) (by simp only [ha.nColon, MAX_COLON]; omega)
  have hbf : b.field = lbrack :: x := hp.field
  have hbn : b.nColon = x.count colon := by
    rw [hp.nColon]
    simp [ha.nColon]
  have hclose : b.pushClose = some { b.push rbrack with host := lbrack :: (x ++ [rbrack]) } := by
    have hbb : b.bracket = some (lbrack :: x) := hp.bracket
    rw [Auth.pushClose, hbb]
    simp only [hbn, if_neg (show ¬x.count colon ≥ MAX_COLON by simp only [MAX_COLON]; omega)]
    rfl
  have hu : b.user = url.user := hp.user.trans ha.user
  have hw : b.passw = url.password := hp.passw.trans ha.passw
  rw [scan_open (ha.bracket.mpr hb) ha.field, hs, scan, if_pos rfl, hclose]
  unfold printPort
  by_cases hd : portDropped url
  · simp only [if_pos hd, List.nil_append, if_true]
    refine ⟨_, rfl, hu, hw, ?_, ?_⟩
    · simp [Auth.hostPort]
    · simp [Auth.hostPort, hd]
  · simp only [if_neg hd, List.cons_append, show (colon = slash) = False by decide, if_false, ne_eq, not_true_eq_false]
    have hpc : ({ { b.push rbrack with host := lbrack :: (x ++ [rbrack]) } with nColon := MAX_COLON - 1 } : Auth).pushColon =
        some { { b.push rbrack with host := lbrack :: (x ++ [rbrack]) }.push colon with
          nColon := MAX_COLON, lastColon := some (lbrack :: (x ++ [rbrack])).length } := by
      simp [Auth.pushColon, MAX_COLON, Auth.push, hbf]
    rw [hpc]
    obtain ⟨a', hs', hpass, -⟩ := scan_ordinary h.port (slash :: s)
      { { b.push rbrack with host := lbrack :: (x ++ [rbrack]) }.push colon with
        nColon := MAX_COLON, lastColon := some (lbrack :: (x ++ [rbrack])).length } (by simp [MAX_COLON])
    have hhost : a'.host = lbrack :: (x ++ [rbrack]) := hpass.host
    have hl' : a'.lastColon = some (lbrack :: (x ++ [rbrack])).length := hpass.lastColon (fun hm => (h.port _ hm).colon rfl)
    have hf' : a'.field = (lbrack :: (x ++ [rbrack])) ++ colon :: url.port := by
      rw [hpass.field]
      simp [Auth.push, hbf]
    have hhp : a'.hostPort = (lbrack :: (x ++ [rbrack]), some (lbrack :: (x ++ [rbrack])).length) := by
      rw [Auth.hostPort, if_neg (by rw [hhost]; simp), hhost, hl']
    refine ⟨a', hs'.trans (scan_slash s a'), hpass.user.trans hu, hpass.passw.trans hw, by rw [hhp], ?_⟩
    rw [hhp]
    exact ⟨hd, by simp [hf']⟩

theorem scan_printed {url : URLImpl} (h : Shape url) (hb : ¬(url.user.head? = some lbrack ∧ bracketP url.host = true)) (s : Bytes) :
    ∃ a, scan (printUser url ++ (printHostPort url ++ slash :: s)) Auth.init = some (a, slash :: s) ∧
      Found url a (if url.host = [] then [] else printHost url.host) := by
  obtain ⟨a, hs, ha⟩ := scan_printUser h (printHostPort url ++ slash :: s)
  rw [hs]
  unfold printHostPort
  cases h.host with
  | none he =>
    have hd : portDropped url := Or.inl he
    have hhp : a.hostPort = ([], none) := by
      rw [Auth.hostPort, if_pos ha.host, if_neg (by simp [ha.nColon, MAX_COLON]), ha.field]
    rw [if_pos he, printPort, if_pos hd]
    exact ⟨a, scan_slash s a, ha.user, ha.passw, by rw [hhp], by rw [hhp]; exact hd⟩
  | single ne bytes op few all split =>
    rw [if_neg ne, printHost]
    cases hp : bracketP url.host with
    | true =>
      -- the printer adds the brackets
      have hhead : url.host.head? ≠ some lbrack := by
        intro he
        simp [bracketP, he] at hp
      have hplain : ∀ c ∈ url.host, Plain c := by
        intro c hc
        obtain ⟨h1, h2, h3⟩ := bytes c hc
        refine ⟨h1, h2, ?_, h3⟩
        rintro rfl
        obtain ⟨d, l, hl⟩ := List.exists_cons_of_ne_nil ne
        rw [hl] at hc op hhead
        rcases List.mem_cons.mp hc with rfl | hc
        · exact hhead rfl
        · exact op hc
      have hu : url.user.head? ≠ some lbrack := fun he => hb ⟨he, hp⟩
      obtain ⟨a', hs', hf⟩ := scan_closed h ha hu hplain few s
      refine ⟨a', ?_, by simpa using hf⟩
      simpa using hs'
    | false =>
      obtain ⟨d, l, hl⟩ := List.exists_cons_of_ne_nil ne
      -- the host as it is, with or without an open bracket
      obtain ⟨a', hs', hf, hn, hu, hw, hh⟩ : ∃ a', scan (url.host ++ (printPort url ++ slash :: s)) a =
          scan (printPort url ++ slash :: s) a' ∧ a'.field = url.host ∧ a'.nColon = url.host.count colon ∧ a'.user = url.user ∧
          a'.passw = url.password ∧ a'.host = [] := by
        have hrest : ∀ c ∈ l, Plain c := by
          intro c hc
          obtain ⟨h1, h2, h3⟩ := bytes c (by rw [hl]; exact List.mem_cons_of_mem d hc)
          refine ⟨h1, h2, ?_, h3⟩
          rintro rfl
          rw [hl] at op
          exact op hc
        by_cases hd : d = lbrack
        · subst hd
          have hbr : a.bracket = none := ha.bracket.mpr fun he => h.oneOpen he (by rw [hl]; rfl)
          have hc : l.count colon = url.host.count colon := by
            rw [hl, List.count_cons_of_ne (by decide)]
          obtain ⟨a', hs', hp⟩ := scan_plain hrest (printPort url ++ slash :: s)
            (a := { a with field := [lbrack], bracket := some [lbrack] }) (by simp only [ha.nColon, MAX_COLON]; omega)
          refine ⟨a', ?_, by rw [hp.field, hl]; rfl, by rw [hp.nColon, hc, ha.nColon, Nat.zero_add], hp.user.trans ha.user,
            hp.passw.trans ha.passw, hp.host.trans ha.host⟩
          rw [hl, List.cons_append, scan_open hbr ha.field, hs']
        · have hplain : ∀ c ∈ url.host, Plain c := by
            rw [hl]
            obtain ⟨h1, h2, h3⟩ := bytes d (by simp [hl])
            exact List.forall_mem_cons.mpr ⟨⟨h1, h2, hd, h3⟩, hrest⟩
          obtain ⟨a', hs', hp⟩ := scan_plain hplain (printPort url ++ slash :: s) (a := a) (by simp only [ha.nColon, MAX_COLON]; omega)
          exact ⟨a', hs', by rw [hp.field, ha.field, List.nil_append], by rw [hp.nColon, ha.nColon, Nat.zero_add],
            hp.user.trans ha.user, hp.passw.trans ha.passw, hp.host.trans ha.host⟩
      have hall : portDropped url → a'.nColon ≠ 1 ∧ a'.nColon ≤ 7 := by
        intro hd
        rw [hn]
        refine ⟨?_, few⟩
        by_cases hport : url.port = []
        · exact all hport
        · have := split hport
          omega
      have hsplit : ¬portDropped url → a'.nColon = 0 ∨ a'.nColon = 7 := by
        intro hd
        rw [hn]
        exact split fun hport => hd (Or.inr (Or.inl hport))
      obtain ⟨a'', hs'', hfound⟩ := scan_single h hf hu hw hh hall hsplit s
      refine ⟨a'', ?_, by simpa using hfound⟩
      simpa [hs'] using hs''
  | closed x hx bytes few =>
    have ne : url.host ≠ [] := by simp [hx]
    have hp : bracketP url.host = false := by simp [bracketP, hx]
    have hu : url.user.head? ≠ some lbrack := fun he => h.oneOpen he (by simp [hx])
    obtain ⟨a', hs', hf⟩ := scan_closed h ha hu bytes few s
    rw [if_neg ne, printHost, hp, hx]
    refine ⟨a', ?_, by simpa using hf⟩
    simpa using hs'

/-- the two brackets: one in front of the user, one that the printer adds -/
theorem scan_printed_none {url : URLImpl} (h : Shape url) (hu : url.user.head? = some lbrack) (hb : bracketP url.host = true) (s : Bytes) :
    scan (printUser url ++ (printHostPort url ++ slash :: s)) Auth.init = none := by
  obtain ⟨a, hs, ha⟩ := scan_printUser h (printHostPort url ++ slash :: s)
  have ne : url.host ≠ [] := by
    intro he
    simp [bracketP, he] at hb
  obtain ⟨b, hbr⟩ : ∃ b, a.bracket = some b := Option.ne_none_iff_exists'.mp fun he => ha.bracket.mp he hu
  rw [hs, printHostPort, if_neg ne, printHost, hb]
  simpa using scan_open_none hbr _

/-! ## The parts behind the authority -/

theorem takeWhile_stop {ok : UInt8 → Bool} {w s : Bytes} (hw : ∀ c ∈ w, ok c = true) (hs : ∀ c, s.head? = some c → ok c = false) :
    (w ++ s).takeWhile ok = w ∧ (w ++ s).dropWhile ok = s := by
  induction w with
  | nil =>
    cases s with
    | nil => exact ⟨rfl, rfl⟩
    | cons c s =>
      have hc := hs c rfl
      simp [hc]
  | cons c w ih =>
    have hc := hw c List.mem_cons_self
    obtain ⟨h1, h2⟩ := ih fun d hd => hw d (List.mem_cons_of_mem c hd)
    simp [hc, h1, h2]

/-- a part with its mark, if it is not empty -/
def printPart (mark : UInt8) (s : Bytes) : Bytes := if s = [] then [] else mark :: s

theorem part_printPart {mark : UInt8} {ok : UInt8 → Bool} {w s : Bytes} (hw : ∀ c ∈ w, ok c = true)
    (hs : ∀ c, s.head? = some c → ok c = false ∧ c ≠ mark) :
    part mark ok (printPart mark w ++ s) = (if w = [] then none else some w, s) := by
  unfold printPart
  by_cases he : w = []
  · rw [if_pos he, if_pos he, List.nil_append]
    cases s with
    | nil => rfl
    | cons c s => simp only [part, if_neg (hs c rfl).2]
  · obtain ⟨h1, h2⟩ := takeWhile_stop hw fun c hc => (hs c hc).1
    rw [if_neg he, if_neg he, List.cons_append]
    simp only [part, if_true, h1, h2]

theorem printPart_head {mark c : UInt8} {w s : Bytes} (h : (printPart mark w ++ s).head? = some c) : c = mark ∨ s.head? = some c := by
  unfold printPart at h
  split_ifs at h
  · exact Or.inr h
  · exact Or.inl (Option.some.inj h).symm

/-- the bytes that the parts behind the authority can have, and their lengths -/
structure PathShape (url : URLImpl) : Prop where
  path : ∀ c ∈ url.path, isPathByte c = true
  params : ∀ c ∈ url.params, isParamsByte c = true
  query : ∀ c ∈ url.query, isQueryByte c = true
  pathFits : url.path.length < URLImpl.UINT16_MAX
  paramsFits : url.params.length < URLImpl.UINT16_MAX
  queryFits : url.query.length < URLImpl.UINT16_MAX
  fragmentFits : url.fragment.length < URLImpl.UINT16_MAX

/-- the printed parts behind the authority -/
def printPath (url : URLImpl) : Bytes :=
  url.path ++ (printPart semi url.params ++ (printPart quest url.query ++ (printPart sharp url.fragment ++ [])))

theorem parsePath_printed {url url₀ : URLImpl} (h : PathShape url) (h₀ : url₀.path = [] ∧ url₀.params = [] ∧ url₀.query = [] ∧
    url₀.fragment = []) :
    parsePath url₀ (printPath url) =
      some { url₀ with path := url.path, params := url.params, query := url.query, fragment := url.fragment } := by
  have hfragment : ∀ c, (printPart sharp url.fragment ++ []).head? = some c → c = sharp := by
    intro c hc
    exact (printPart_head hc).resolve_right (by simp)
  have hquery : ∀ c, (printPart quest url.query ++ (printPart sharp url.fragment ++ [])).head? = some c → c = quest ∨ c = sharp :=
    fun c hc => (printPart_head hc).imp id (hfragment c)
  have hparams : ∀ c, (printPart semi url.params ++ (printPart quest url.query ++ (printPart sharp url.fragment ++ []))).head? = some c →
      c = semi ∨ c = quest ∨ c = sharp := fun c hc => (printPart_head hc).imp id (hquery c)
  have hp := takeWhile_stop h.path fun c hc => by rcases hparams c hc with rfl | rfl | rfl <;> decide
  have hps := @part_printPart semi _ _ _ h.params fun c hc => by rcases hquery c hc with rfl | rfl <;> decide
  have hqs := @part_printPart quest _ _ _ h.query fun c hc => by rw [hfragment c hc]; decide
  have hfs := @part_printPart sharp (fun _ => true) url.fragment [] (fun _ _ => rfl) (by simp)
  by_cases hnil : printPath url = []
  · have hall : url.path = [] ∧ url.params = [] ∧ url.query = [] ∧ url.fragment = [] := by
      unfold printPath printPart at hnil
      refine ⟨?_, ?_, ?_, ?_⟩ <;> by_contra hne <;> simp [hne] at hnil
    rw [parsePath, if_pos hnil, hall.1, hall.2.1, hall.2.2.1, hall.2.2.2]
    obtain ⟨h1, h2, h3, h4⟩ := h₀
    cases url₀
    simp_all
  · rw [parsePath, if_neg hnil]
    unfold printPath
    rw [hp.1, hp.2]
    obtain ⟨h1, h2, h3, h4⟩ := h₀
    simp only [URLImpl.pathSet, URLImpl.mimeStrU16Set, if_pos h.pathFits, Option.map_some, Option.bind_eq_bind, Option.bind_some, hps, hqs,
      hfs]
    have hset : ∀ (w : Bytes), w.length < URLImpl.UINT16_MAX → URLImpl.mimeStrU16Set w = some w := fun w hw => if_pos hw
    by_cases e1 : url.params = [] <;> by_cases e2 : url.query = [] <;> by_cases e3 : url.fragment = [] <;>
      simp [e1, e2, e3, h2, h3, h4, URLImpl.paramsSet, URLImpl.querySet, URLImpl.fragmentSet, hset _ h.paramsFits, hset _ h.queryFits,
        hset _ h.fragmentFits]

/-! ## The whole text -/

structure SchemeShape (url : URLImpl) : Prop where
  ne : url.scheme ≠ []
  space : url.scheme.head? ≠ some 32
  slash : url.scheme.head? ≠ some slash
  colon : colon ∉ url.scheme
  idx : url.schemeWksIdx = if url.scheme = text "http" then some (hdrtokenStrs.idxOf "http") else hdrtokenTokenize url.scheme
  fits : url.scheme.length < URLImpl.UINT16_MAX

/-- what the setters and the host check of the authority accept -/
structure Accepted (url : URLImpl) : Prop where
  user : url.user.length < URLImpl.UINT16_MAX
  password : url.password.length < URLImpl.UINT16_MAX
  hostChars : url.host.all isHostChar = true
  host : url.host.length < URLImpl.UINT16_MAX
  port : url.port.length < URLImpl.UINT16_MAX

theorem parseScheme_printed {url : URLImpl} (h : SchemeShape url) (s : Bytes) :
    parseScheme URLImpl.null (url.scheme ++ colon :: slash :: s) =
      some ({ URLImpl.null with scheme := url.scheme, schemeWksIdx := url.schemeWksIdx }, colon :: slash :: s) := by
  obtain ⟨c, w, hw⟩ := List.exists_cons_of_ne_nil h.ne
  have hsp : c ≠ 32 := fun he => h.space (by rw [hw, he]; rfl)
  have hsl : c ≠ slash := fun he => h.slash (by rw [hw, he]; rfl)
  have hcolon : ∀ d ∈ url.scheme, (d != colon) = true := fun d hd => bne_iff_ne.mpr fun he => h.colon (he ▸ hd)
  have hcur : (url.scheme ++ colon :: slash :: s).dropWhile (· == 32) = url.scheme ++ colon :: slash :: s := by
    rw [hw, List.cons_append, List.dropWhile_cons_of_neg (by simpa using hsp)]
  obtain ⟨htake, hdrop⟩ := @takeWhile_stop (· != colon) url.scheme (colon :: slash :: s) hcolon (by simp)
  have hset : ∀ idx, URLImpl.null.schemeSet idx url.scheme = some { URLImpl.null with scheme := url.scheme, schemeWksIdx := idx } :=
    fun idx => by rw [URLImpl.schemeSet, URLImpl.mimeStrU16Set, if_pos h.fits]; rfl
  rw [parseScheme, hcur]
  -- the first five bytes are `http:` exactly for that scheme
  by_cases hhttp : url.scheme = text "http"
  · have hpre : (text "http:").isPrefixOf (url.scheme ++ colon :: slash :: s) = true := by
      rw [hhttp]
      rfl
    have h4 : (url.scheme ++ colon :: slash :: s).take 4 = url.scheme ∧ (url.scheme ++ colon :: slash :: s).drop 4 = colon :: slash :: s := by
      rw [hhttp]
      exact ⟨rfl, rfl⟩
    rw [hw, List.cons_append] at hpre h4 ⊢
    simp only [hpre, if_true, h4.1, h4.2, ← hw]
    rw [hset, h.idx, if_pos hhttp]
    rfl
  · have hpre : (text "http:").isPrefixOf (url.scheme ++ colon :: slash :: s) = false := by
      rw [← Bool.not_eq_true, List.isPrefixOf_iff_prefix]
      rintro ⟨t, ht⟩
      apply hhttp
      have := congrArg (List.takeWhile (· != colon)) ht
      rw [htake] at this
      exact this.symm
    have hc : ∀ l : Bytes, url.scheme ++ colon :: slash :: s = c :: l → ∀ {α : Type} (x y : α), (if c ≠ slash then x else y) = x :=
      fun _ _ _ _ _ => if_pos hsl
    rw [hw, List.cons_append] at hpre hdrop htake ⊢
    simp only [hpre, Bool.false_eq_true, if_false, hdrop, htake, ← hw]
    rw [if_pos hsl]
    simp only [List.head?_cons, BEq.rfl, Bool.or_true, if_true]
    rw [hset, h.idx, if_neg hhttp]
    rfl

theorem skipSlashes_printed {s : Bytes} (h : s ≠ []) : skipSlashes (colon :: slash :: slash :: s) = some s := by
  have hlen : 3 < (colon :: slash :: slash :: s).length := by
    have := List.length_pos_iff.mpr h
    simp only [List.length_cons]
    omega
  rw [skipSlashes, if_pos ⟨hlen, rfl⟩]
  rfl

theorem urlPrint_eq {url : URLImpl} (h : url.scheme ≠ []) :
    urlPrint url =
      url.scheme ++ colon :: slash :: (slash :: (printUser url ++ (printHostPort url ++ slash :: printPath url))) := by
  have hport : (if url.host = [] then []
      else printHost url.host ++ (if url.port ≠ [] ∧ url.portNumber ≠ 0 then colon :: url.port else [])) = printHostPort url := by
    unfold printHostPort printPort portDropped
    by_cases h1 : url.host = [] <;> by_cases h2 : url.port = [] <;> by_cases h3 : url.portNumber = 0 <;> simp [h1, h2, h3]
  rw [urlPrint, hport, if_neg h]
  simp [printUser, printPath, printPart]

/-- the host and the port that are read back -/
def reparsed (url : URLImpl) : URLImpl :=
  { url with
    host := if url.host = [] then [] else printHost url.host
    port := if portDropped url then [] else url.port
    portNumber := if portDropped url then 0 else url.portNumber }

theorem printHost_chars {host : Bytes} (h : host.all isHostChar = true) : (printHost host).all isHostChar = true := by
  have hb : isHostChar lbrack = true ∧ isHostChar rbrack = true := by decide
  unfold printHost
  split_ifs
  · simp only [List.all_cons, List.all_append, List.all_nil, hb, h]
    rfl
  · exact h

theorem parseInternet_printed {url : URLImpl} (h : Shape url) (ha : Accepted url)
    (hb : ¬(url.user.head? = some lbrack ∧ bracketP url.host = true)) (hl : (printHost url.host).length < URLImpl.UINT16_MAX)
    (url₀ : URLImpl) (h₀ : url₀.user = [] ∧ url₀.password = [] ∧ url₀.host = [] ∧ url₀.port = [] ∧ url₀.portNumber = 0) (s : Bytes) :
    parseInternet url₀ (colon :: slash :: (slash :: (printUser url ++ (printHostPort url ++ slash :: s)))) =
      some ({ url₀ with user := url.user, password := url.password, host := (reparsed url).host, port := (reparsed url).port
                        portNumber := (reparsed url).portNumber }, s) := by
  obtain ⟨a, hs, hf⟩ := scan_printed h hb s
  have hset : ∀ (w : Bytes), w.length < URLImpl.UINT16_MAX → URLImpl.mimeStrU16Set w = some w := fun w hw => if_pos hw
  obtain ⟨hu₀, hp₀, hh₀, hpt₀, hn₀⟩ := h₀
  have huser : setUser url₀ a = some { url₀ with user := url.user, password := url.password } := by
    rw [setUser, hf.user, hf.passw]
    by_cases hu : url.user = []
    · have hw : ({ url₀ with user := [], password := [] } : URLImpl) = url₀ := by
        cases url₀
        simp_all
      rw [if_pos hu, hu, h.passwUser hu, hw]
    · rw [if_neg hu]
      simp only [URLImpl.userSet, hset _ ha.user, Option.map_some, Option.bind_some]
      by_cases hp : url.password = []
      · rw [if_pos hp, hp, ← hp₀]
      · simp only [if_neg hp, URLImpl.passwordSet, hset _ ha.password, Option.map_some]
  have hhost : ∀ u : URLImpl, u.host = [] → setHost u a.hostPort.1 = some { u with host := (reparsed url).host } := by
    intro u hu
    rw [hf.host, setHost]
    by_cases he : url.host = []
    · simp only [he, if_true, reparsed, ← hu]
    · have hne : printHost url.host ≠ [] := by
        unfold printHost
        split_ifs <;> simp [he]
      simp only [reparsed, if_neg he, if_neg hne, printHost_chars ha.hostChars, if_true, URLImpl.hostSet, hset _ hl, Option.map_some]
  have hport : ∀ u : URLImpl, u.port = [] → u.portNumber = 0 →
      setPort u a a.hostPort.2 = some { u with port := (reparsed url).port, portNumber := (reparsed url).portNumber } := by
    intro u hu hn
    have hp := hf.port
    cases hl : a.hostPort.2 with
    | none =>
      rw [hl] at hp
      simp only [setPort, reparsed, if_pos hp, ← hu, ← hn]
    | some l =>
      rw [hl] at hp
      obtain ⟨hd, hdrop⟩ := hp
      have hne : url.port ≠ [] := fun he => hd (Or.inr (Or.inl he))
      simp only [setPort, reparsed, if_neg hd, hdrop, if_neg hne, URLImpl.portSet, hset _ ha.port, Option.map_some, h.portNumber]
  rw [parseInternet, skipSlashes_printed (by simp)]
  simp only [Option.bind_eq_bind, Option.bind_some, hs, huser]
  rw [hhost { url₀ with user := url.user, password := url.password } hh₀, Option.bind_some]
  rw [hport { url₀ with user := url.user, password := url.password, host := (reparsed url).host } hpt₀ hn₀]
  rfl

/-- a URL of the right shape is read back from its text, unless two brackets open or the host gets too long -/
theorem urlParse_printed {url : URLImpl} (hsch : SchemeShape url) (h : Shape url) (hp : PathShape url) (ha : Accepted url)
    (hb : ¬(url.user.head? = some lbrack ∧ bracketP url.host = true)) (hl : (printHost url.host).length < URLImpl.UINT16_MAX)
    {strict : Bool} (hstrict : strict = true → (urlPrint url).all isUri = true) :
    urlParse strict (urlPrint url) = some (reparsed url) := by
  have huri : (strict && !(urlPrint url).all isUri) = false := by
    cases strict with
    | false => rfl
    | true => simp [hstrict rfl]
  have hi := parseInternet_printed h ha hb hl { URLImpl.null with scheme := url.scheme, schemeWksIdx := url.schemeWksIdx }
    ⟨rfl, rfl, rfl, rfl, rfl⟩ (printPath url)
  rw [urlParse, huri, if_neg Bool.false_ne_true, urlPrint_eq hsch.ne, parseScheme_printed hsch, Option.bind_some]
  simp only [parseHttp, hi, Option.bind_some]
  rw [parsePath_printed hp ⟨rfl, rfl, rfl, rfl⟩]
  rfl

/-- the text is printed again -/
theorem urlPrint_reparsed (url : URLImpl) : urlPrint (reparsed url) = urlPrint url := by
  have hbr : bracketP (printHost url.host) = false := by
    unfold printHost
    cases hb : bracketP url.host with
    | true => simp [bracketP]
    | false => simpa using hb
  have hpp : printHost (printHost url.host) = printHost url.host := by
    rw [printHost, if_neg (by simp [hbr])]
  have hne : url.host ≠ [] → printHost url.host ≠ [] := by
    intro h
    unfold printHost
    split_ifs <;> simp [h]
  unfold urlPrint reparsed portDropped
  by_cases h1 : url.host = []
  · simp [h1]
  · by_cases h2 : url.port = [] <;> by_cases h3 : url.portNumber = 0 <;> simp [h1, h2, h3, hne h1, hpp]

end TrafficServer.Hdrs.UrlParse
