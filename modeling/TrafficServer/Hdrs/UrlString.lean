/-
The text of a URL (`url_length_get`, `url_print` and the functions that return the text in `proxy/hdrs/URL.cc`).

A text is printed into a buffer of the length that was computed before, and cut off where that ends. The two functions go over the same parts,
but the length has one byte instead of three behind the scheme `file`, which is printed like any other, and no brackets, which are printed
around some hosts.

`whole_iff`: the length is that of the text, and the whole text is returned, exactly if the scheme is not `file` and no brackets are added.

The text that was returned last is kept with its length in 16 bits. An allocation is the list of its bytes, `none` where nothing was written.
-/
import TrafficServer.Hdrs.MimePrint
import TrafficServer.Hdrs.UrlParse

namespace TrafficServer.Hdrs.UrlParse

open TrafficServer.Memory TrafficServer.Windowed TrafficServer.Hdrs.Mime

variable {n : ℕ}

/-! ## The length -/

/-- `URL_WKSIDX_FILE` -/
def wksidxFile : ℕ := hdrtokenStrs.idxOf "file"

def urlLengthGet (url : URLImpl) : ℕ :=
  (if url.scheme = [] then 0 else if url.schemeWksIdx = some wksidxFile then url.scheme.length + 1 else url.scheme.length + 3) +
    (if url.user = [] then 0 else url.user.length + 1 + (if url.password = [] then 0 else url.password.length + 1)) +
    (if url.host = [] then 0 else url.host.length + (if url.port ≠ [] ∧ url.portNumber ≠ 0 then url.port.length + 1 else 0)) +
    (url.path.length + 1) +
    (if url.params = [] then 0 else url.params.length + 1) +
    (if url.query = [] then 0 else url.query.length + 1) +
    (if url.fragment = [] then 0 else url.fragment.length + 1)

/-! ## The printer -/

/-- a part that is printed on a condition -/
def printIf (c : Prop) [Decidable c] (f : Window UInt8 n → Option (Bool × Window UInt8 n)) : Window UInt8 n → Option (Bool × Window UInt8 n) :=
  if c then f else fun w => some (true, w)

/-- a part with the byte before it -/
def printMarked (mark : UInt8) (s : Bytes) : Window UInt8 n → Option (Bool × Window UInt8 n) :=
  printIf (s ≠ []) (andThen (mimeMemPrint [mark]) (mimeMemPrint s))

def printUserTo (url : URLImpl) : Window UInt8 n → Option (Bool × Window UInt8 n) :=
  printIf (url.user ≠ []) (andThen (mimeMemPrint url.user) (andThen (printMarked colon url.password) (mimeMemPrint [commat])))

def printHostTo (url : URLImpl) : Window UInt8 n → Option (Bool × Window UInt8 n) :=
  printIf (url.host ≠ [])
    (andThen (printIf (bracketP url.host = true) (mimeMemPrint [lbrack]))
      (andThen (mimeMemPrint url.host)
        (andThen (printIf (bracketP url.host = true) (mimeMemPrint [rbrack]))
          (printIf (url.port ≠ [] ∧ url.portNumber ≠ 0) (andThen (mimeMemPrint [colon]) (mimeMemPrint url.port))))))

/-- `url_print` -/
def urlPrintTo (url : URLImpl) : Window UInt8 n → Option (Bool × Window UInt8 n) :=
  andThen (printIf (url.scheme ≠ []) (andThen (mimeMemPrint url.scheme) (mimeMemPrint [colon, slash, slash])))
    (andThen (printUserTo url)
      (andThen (printHostTo url)
        (andThen (mimeMemPrint [slash])
          (andThen (printIf (url.path ≠ []) (mimeMemPrint url.path))
            (andThen (printMarked semi url.params) (andThen (printMarked quest url.query) (printMarked sharp url.fragment)))))))

theorem printIf_prints {c : Prop} [Decidable c] {f : Window UInt8 n → Option (Bool × Window UInt8 n)} {t : Bytes} (hf : Prints f t) :
    Prints (printIf c f) (if c then t else []) := by
  unfold printIf
  split_ifs
  · exact hf
  · exact Prints.nil

theorem printMarked_prints (mark : UInt8) (s : Bytes) : Prints (printMarked (n := n) mark s) (if s = [] then [] else mark :: s) := by
  have h : Prints (printMarked (n := n) mark s) (if s ≠ [] then [mark] ++ s else []) :=
    printIf_prints ((mimeMemPrint_prints [mark]).andThen (mimeMemPrint_prints s))
  rwa [ite_not] at h

theorem printUserTo_prints (url : URLImpl) : Prints (printUserTo (n := n) url)
    (if url.user = [] then [] else url.user ++ (if url.password = [] then [] else colon :: url.password) ++ [commat]) := by
  have h : Prints (printUserTo (n := n) url)
      (if url.user ≠ [] then url.user ++ ((if url.password = [] then [] else colon :: url.password) ++ [commat]) else []) :=
    printIf_prints ((mimeMemPrint_prints _).andThen ((printMarked_prints colon url.password).andThen (mimeMemPrint_prints _)))
  rwa [ite_not, ← List.append_assoc] at h

theorem printHostTo_prints (url : URLImpl) : Prints (printHostTo (n := n) url)
    (if url.host = [] then []
      else printHost url.host ++ (if url.port ≠ [] ∧ url.portNumber ≠ 0 then colon :: url.port else [])) := by
  have h : Prints (printHostTo (n := n) url)
      (if url.host ≠ [] then (if bracketP url.host = true then [lbrack] else []) ++ (url.host ++ ((if bracketP url.host = true then [rbrack] else []) ++
        (if url.port ≠ [] ∧ url.portNumber ≠ 0 then [colon] ++ url.port else []))) else []) :=
    printIf_prints ((printIf_prints (mimeMemPrint_prints _)).andThen ((mimeMemPrint_prints _).andThen
      ((printIf_prints (mimeMemPrint_prints _)).andThen (printIf_prints ((mimeMemPrint_prints _).andThen (mimeMemPrint_prints _))))))
  have hhost : printHost url.host = (if bracketP url.host = true then [lbrack] else []) ++ (url.host ++
      (if bracketP url.host = true then [rbrack] else [])) := by
    unfold printHost
    split_ifs
    · rfl
    · simp
  rw [hhost]
  rwa [ite_not, ← List.append_assoc url.host, ← List.append_assoc] at h

/-- `url_print` prints the text -/
theorem urlPrintTo_prints (url : URLImpl) : Prints (urlPrintTo (n := n) url) (urlPrint url) := by
  have hscheme : Prints (printIf (n := n) (url.scheme ≠ []) (andThen (mimeMemPrint url.scheme) (mimeMemPrint [colon, slash, slash])))
      (if url.scheme = [] then [] else url.scheme ++ [colon, slash, slash]) := by
    have h := printIf_prints (c := url.scheme ≠ []) ((mimeMemPrint_prints (n := n) url.scheme).andThen (mimeMemPrint_prints [colon, slash, slash]))
    rwa [ite_not] at h
  have hpath : Prints (printIf (n := n) (url.path ≠ []) (mimeMemPrint url.path)) url.path := by
    have hsame : (if url.path ≠ [] then url.path else []) = url.path := by
      by_cases hnil : url.path = []
      · simp [hnil]
      · exact if_pos hnil
    have h := printIf_prints (c := url.path ≠ []) (mimeMemPrint_prints (n := n) url.path)
    rwa [hsame] at h
  have htext := hscheme.andThen ((printUserTo_prints url).andThen ((printHostTo_prints url).andThen ((mimeMemPrint_prints [slash]).andThen
    (hpath.andThen ((printMarked_prints semi url.params).andThen ((printMarked_prints quest url.query).andThen
      (printMarked_prints sharp url.fragment)))))))
  rw [urlPrint]
  simp only [List.append_assoc, List.cons_append, List.nil_append] at htext ⊢
  exact htext

/-! ## The functions that return the text -/

/-- a string as it lies in its allocation -/
abbrev Str := List (Option UInt8)

/-- an allocation of `len + 1` bytes, with what `url_print` leaves in the first `len` and a NUL behind them -/
def printBuf (url : URLImpl) (len : ℕ) : Option Str :=
  (urlPrintTo url (Window.fresh len 0)).map fun r => r.2.buf.cells ++ [some 0]

/-- `URLImpl` with the text that was returned last -/
structure Url where
  impl : URLImpl
  /-- `m_ptr_printed_string` -/
  printedString : Option Str
  /-- `m_len_printed_string` -/
  lenPrintedString : BitVec 16
  /-- `m_clean` -/
  clean : Bool

namespace Url

variable (url : Url)

/-- `url_called_set` -/
def calledSet : Url := { url with clean := url.printedString.isNone }

/-- `url_string_get_ref`: the text and its length -/
def stringGetRef : Option (Url × Str × ℕ) :=
  match url.printedString, url.clean with
  | some s, true => some (url, s, url.lenPrintedString.toNat)
  | _, _ =>
    let len := urlLengthGet url.impl
    (printBuf url.impl len).map fun buf =>
      ({ url with clean := true, lenPrintedString := BitVec.ofNat 16 len, printedString := some buf }, buf, len)

/-- `url_string_get`, with a heap -/
def stringGet : Option (Url × Str × ℕ) :=
  let len := urlLengthGet url.impl
  (printBuf url.impl len).map fun buf =>
    ({ url with clean := true, lenPrintedString := BitVec.ofNat 16 len, printedString := some (buf.take len ++ [some 0]) }, buf, len)

/-- `url_string_get_buf`: what is written to the start of a buffer that has room, and the length -/
def stringGetBuf (dstbufSize : ℕ) : Option (Str × ℕ) :=
  if dstbufSize > 0 then
    let len := urlLengthGet url.impl
    let len := if len ≥ dstbufSize then dstbufSize - 1 else len
    (printBuf url.impl len).map fun buf => (buf, len)
  else none

end Url

/-- a string that is this text, with a NUL behind it, and its length -/
def IsText (t : Bytes) (s : Str) (len : ℕ) : Prop := len = t.length ∧ t.map some ++ [some 0] <+: s

/-- the length is computed right, and the functions return the whole text -/
structure Whole (url : Url) : Prop where
  length : urlLengthGet url.impl = (urlPrint url.impl).length
  ref : ∃ r, url.stringGetRef = some r ∧ IsText (urlPrint url.impl) r.2.1 r.2.2
  get : ∃ r, url.stringGet = some r ∧ IsText (urlPrint url.impl) r.2.1 r.2.2
  buf : ∀ dstbufSize, (urlPrint url.impl).length < dstbufSize →
    ∃ r, url.stringGetBuf dstbufSize = some r ∧ IsText (urlPrint url.impl) r.1 r.2

/-! ## When the length is right -/

theorem printHost_length_eq (host : Bytes) : (printHost host).length = host.length + if bracketP host = true then 2 else 0 := by
  unfold printHost
  split_ifs
  · simp
  · rfl

/-- what is missing in the computed length -/
theorem length_urlPrint (url : URLImpl) : (urlPrint url).length = urlLengthGet url +
    ((if url.scheme ≠ [] ∧ url.schemeWksIdx = some wksidxFile then 2 else 0) + if bracketP url.host = true then 2 else 0) := by
  have hscheme : (if url.scheme = [] then [] else url.scheme ++ [colon, slash, slash]).length =
      (if url.scheme = [] then 0 else if url.schemeWksIdx = some wksidxFile then url.scheme.length + 1 else url.scheme.length + 3) +
        if url.scheme ≠ [] ∧ url.schemeWksIdx = some wksidxFile then 2 else 0 := by
    by_cases hnil : url.scheme = []
    · simp [hnil]
    · by_cases hfile : url.schemeWksIdx = some wksidxFile
      · simp [hnil, hfile]
      · simp [hnil, hfile]
  have huser : (if url.user = [] then [] else url.user ++ (if url.password = [] then [] else colon :: url.password) ++ [commat]).length =
      if url.user = [] then 0 else url.user.length + 1 + (if url.password = [] then 0 else url.password.length + 1) := by
    split_ifs
    · rfl
    · simp
    · simp
      omega
  have hport : (if url.port ≠ [] ∧ url.portNumber ≠ 0 then colon :: url.port else []).length =
      if url.port ≠ [] ∧ url.portNumber ≠ 0 then url.port.length + 1 else 0 := by
    split_ifs
    · rfl
    · rfl
  have hhost : (if url.host = [] then []
        else printHost url.host ++ (if url.port ≠ [] ∧ url.portNumber ≠ 0 then colon :: url.port else [])).length =
      (if url.host = [] then 0 else url.host.length + (if url.port ≠ [] ∧ url.portNumber ≠ 0 then url.port.length + 1 else 0)) +
        if bracketP url.host = true then 2 else 0 := by
    by_cases hnil : url.host = []
    · simp [hnil, bracketP]
    · rw [if_neg hnil, if_neg hnil, List.length_append, printHost_length_eq, hport]
      omega
  have hpart : ∀ (mark : UInt8) (s : Bytes), (if s = [] then [] else mark :: s).length = if s = [] then 0 else s.length + 1 := by
    intro mark s
    split_ifs
    · rfl
    · rfl
  unfold urlPrint urlLengthGet
  simp only [List.length_append, List.length_cons, hscheme, huser, hhost, hpart]
  omega

/-- no `file`, and no brackets -/
def Measured (url : URLImpl) : Prop := ¬ (url.scheme ≠ [] ∧ url.schemeWksIdx = some wksidxFile) ∧ bracketP url.host = false

theorem length_eq_iff (url : URLImpl) : urlLengthGet url = (urlPrint url).length ↔ Measured url := by
  have hlength := length_urlPrint url
  unfold Measured
  rw [← Bool.not_eq_true]
  constructor
  · intro h
    split_ifs at hlength with hfile hbracket
    · omega
    · omega
    · omega
    · exact ⟨hfile, ‹_›⟩
  · intro ⟨hfile, hbracket⟩
    rw [if_neg hfile, if_neg hbracket] at hlength
    exact hlength.symm

/-- a buffer of the length of the text has the text -/
theorem printBuf_eq (url : URLImpl) : printBuf url (urlPrint url).length = some ((urlPrint url).map some ++ [some 0]) := by
  obtain ⟨w, hput, hwrite, -⟩ := (Window.fresh (urlPrint url).length 0).exists_put (urlPrint url)
  have hpart : (Window.fresh (urlPrint url).length 0).part (urlPrint url) = urlPrint url := by
    rw [Window.part_of_room]
    · rfl
    · exact le_refl _
  rw [hpart] at hwrite
  obtain ⟨buf, hwrite', hholds⟩ := Block.exists_write_all (Block.alloc (urlPrint url).length) (le_refl (urlPrint url).length)
  obtain rfl : w.buf = buf := Option.some.inj (hwrite.symm.trans hwrite')
  rw [printBuf, urlPrintTo_prints url, hput, Option.map_some, hholds.cells_eq rfl]

theorem isText_buf (t : Bytes) (s : Str) : IsText t (t.map some ++ some 0 :: s) t.length :=
  ⟨rfl, by simp⟩

/-- the text that is kept is not returned -/
theorem Url.stringGetRef_dirty {url : Url} (h : url.printedString = none ∨ url.clean = false) :
    url.stringGetRef = (printBuf url.impl (urlLengthGet url.impl)).map fun buf =>
      ({ url with clean := true, lenPrintedString := BitVec.ofNat 16 (urlLengthGet url.impl), printedString := some buf }, buf,
        urlLengthGet url.impl) := by
  unfold Url.stringGetRef
  rcases h with h | h
  · rw [h]
  · rw [h]
    cases url.printedString with
    | none => rfl
    | some s => rfl

/-- **The length of a URL.** The length is that of the printed text, and every function returns the whole text, exactly if the scheme is
not `file` and no brackets are printed around the host. -/
theorem whole_iff {url : Url} (h : url.printedString = none ∨ url.clean = false) : Whole url ↔ Measured url.impl := by
  rw [← length_eq_iff]
  constructor
  · exact fun hwhole => hwhole.length
  · intro hlength
    have hbuf := printBuf_eq url.impl
    refine ⟨hlength, ?_, ?_, fun dstbufSize hroom => ?_⟩
    · refine ⟨_, by rw [Url.stringGetRef_dirty h, hlength, hbuf, Option.map_some], ?_⟩
      exact isText_buf _ []
    · refine ⟨_, by rw [Url.stringGet, hlength, hbuf, Option.map_some], ?_⟩
      exact isText_buf _ []
    · have hpos : dstbufSize > 0 := Nat.zero_lt_of_lt hroom
      have hfits : ¬ urlLengthGet url.impl ≥ dstbufSize := not_le.mpr (hlength ▸ hroom)
      rw [Url.stringGetBuf, if_pos hpos]
      dsimp only
      rw [if_neg hfits, hlength, hbuf, Option.map_some]
      exact ⟨_, rfl, isText_buf _ []⟩

/-- the text has not been asked for yet -/
def Url.new (impl : URLImpl) : Url := ⟨impl, none, 0, true⟩

/-- `http://u@a:80/b?c` -/
def plainUrl : URLImpl :=
  { URLImpl.null with
    scheme := text "http", schemeWksIdx := some (hdrtokenStrs.idxOf "http"), user := text "u", host := text "a", port := text "80",
    portNumber := 80, path := text "b", query := text "c" }

theorem whole_plain : Whole (Url.new plainUrl) := (whole_iff (Or.inl rfl)).mpr ⟨by decide +kernel, by decide⟩

def fileUrl : URLImpl :=
  { URLImpl.null with scheme := text "file", schemeWksIdx := some wksidxFile, path := text "etc/passwd" }

def colonUrl : URLImpl :=
  { URLImpl.null with scheme := text "http", schemeWksIdx := some (hdrtokenStrs.idxOf "http"), host := text "1:2:3", path := text "x" }

/-- A URL of a file loses its last two bytes, and so does one with a host that is printed in brackets. -/
theorem url_cut_off :
    (urlParse false (text "file:///etc/passwd") = some fileUrl ∧ ¬ Whole (Url.new fileUrl) ∧
      urlPrint fileUrl = text "file:///etc/passwd" ∧ urlLengthGet fileUrl = (text "file:///etc/pass").length) ∧
    urlParse false (text "http://1:2:3/x") = some colonUrl ∧ ¬ Whole (Url.new colonUrl) ∧
      urlPrint colonUrl = text "http://[1:2:3]/x" ∧ urlLengthGet colonUrl = (text "http://[1:2:3]").length := by
  have hcut : ∀ url : URLImpl, urlLengthGet url ≠ (urlPrint url).length → ¬ Whole (Url.new url) := fun url hne hwhole => hne hwhole.length
  exact ⟨⟨by decide +kernel, hcut _ (by decide +kernel), by decide +kernel, by decide +kernel⟩, by decide +kernel,
    hcut _ (by decide +kernel), by decide +kernel, by decide +kernel⟩

end TrafficServer.Hdrs.UrlParse
