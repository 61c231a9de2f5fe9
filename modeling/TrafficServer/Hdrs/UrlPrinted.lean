/-
The text of a URL that is kept (`url_called_set` and `url_string_get_ref` in `proxy/hdrs/URL.cc`, `UrlPrintHack` in `proxy/hdrs/HTTP.cc`).

A URL keeps the text that was printed last, and `m_clean` says whether it is still right. The setters clear it. But a request that has its
target in the Host field lends host and port of it to its URL for the time of a call, without a setter; so the text that is kept may be that of
the URL with them, or without them. And when the strings of a heap are moved, only the bytes of the text are, not the NUL behind them.

`coherent_run`: in a run of setters, copies, changes of the Host field, moved heaps and calls each call returns the text that the URL has then,
if no call is one that goes wrong (`Allowed`).

A URL is known by a number; 0 is the URL of the request. A field is known by the number of its slot. A heap that is moved within a call is taken
to be moved before it.
-/
import TrafficServer.Hdrs.UrlString
import TrafficServer.Hdrs.HostPort

namespace TrafficServer.Hdrs.UrlPrinted

open UrlParse HostPort

/-! ## The setters -/

inductive Component where
  | scheme (idx : Option ℕ) (s : Bytes)
  | user (s : Bytes)
  | password (s : Bytes)
  | host (s : Bytes)
  | port (s : Bytes)
  /-- `url_port_set` with a number -/
  | portNumber (n : ℕ)
  | path (s : Bytes)
  | params (s : Bytes)
  | query (s : Bytes)
  | fragment (s : Bytes)

/-- `%d` and `ink_fast_itoa` -/
def itoa (n : ℤ) : Bytes := text (toString n)

def Component.set (url : URLImpl) : Component → Option URLImpl
  | scheme idx s => url.schemeSet idx s
  | user s => url.userSet s
  | password s => url.passwordSet s
  | host s => url.hostSet s
  | port s => url.portSet s
  | portNumber n => some { url with port := if 0 < n then itoa n else [], portNumber := n % 65536 }
  | path s => url.pathSet s
  | params s => url.paramsSet s
  | query s => url.querySet s
  | fragment s => url.fragmentSet s

/-! ## The text that is kept -/

/-- `url_clear_string_ref` -/
def clearStringRef (url : Url) : Url :=
  if url.printedString.isSome then { url with lenPrintedString := 0, printedString := none, clean := true } else url

/-- `URLImpl::move_strings`: so many bytes are allocated and copied as the length of the text says -/
def moveStrings (url : Url) : Url := { url with printedString := url.printedString.map fun s => s.take url.lenPrintedString.toNat }

/-- the path and what is behind it (`url_copy_onto_as_server_url`) -/
def asServerUrl (s : URLImpl) : URLImpl := { URLImpl.null with path := s.path, params := s.params, query := s.query, fragment := s.fragment }

/-! ## What the Host field lends -/

/-- `m_host_modified_p` and `m_port_modified_p`, with the values -/
structure Borrowed where
  host : Option Bytes
  port : Option ℤ
deriving DecidableEq

namespace Borrowed

def none : Borrowed := ⟨.none, .none⟩

/-- the constructor of `UrlPrintHack` -/
def apply (b : Borrowed) (url : URLImpl) : URLImpl :=
  let url := match b.host with
    | .some host => { url with host := host }
    | .none => url
  match b.port with
  | .some port => { url with port := itoa port, portNumber := (port % 65536).toNat }
  | .none => url

/-- the destructor -/
def restore (b : Borrowed) (url : URLImpl) : URLImpl :=
  let url := if b.port.isSome then { url with port := [], portNumber := 0 } else url
  if b.host.isSome then { url with host := [] } else url

end Borrowed

/-! ## Runs -/

structure State where
  urls : ℕ → Url
  /-- the value of each slot -/
  fieldValue : ℕ → Bytes
  /-- the slot that has the Host field -/
  hostField : Option ℕ
  /-- `m_target_cached` -/
  targetCached : Bool
  target : TargetCache
  /-- the slot of `m_host_mime` -/
  hostMime : ℕ

inductive Op where
  | set (u : ℕ) (c : Component)
  /-- `url_copy_onto` -/
  | copy (s d : ℕ)
  /-- `url_copy_onto_as_server_url` -/
  | copyAsServer (s d : ℕ)
  | hostSet (slot : ℕ) (value : Bytes)
  | hostDelete
  | markTargetDirty
  /-- the strings of a heap are moved: those of its URLs -/
  | coalesce (inHeap : ℕ → Bool)
  /-- `URL::string_get_ref` -/
  | stringGetRef (u : ℕ)
  /-- `HTTPHdr::url_string_get_ref` -/
  | urlStringGetRef

section Step

-- `m_url_type`, and the bytes behind the value of a field
variable (type : URLImpl → URLType) (behind : ℕ → ℕ → UInt8)

namespace State

def setUrl (s : State) (u : ℕ) (url : Url) : State := { s with urls := Function.update s.urls u url }

/-- `_fill_target_cache` -/
def fillTargetCache (s : State) : State :=
  { s with
    targetCached := true
    target := HostPort.fillTargetCache (type (s.urls 0).impl) (s.urls 0).impl (s.hostField.toList.map s.fieldValue) s.target.port
    hostMime := s.hostField.getD 0 }

/-- `_test_and_fill_target_cache` -/
def testAndFillTargetCache (s : State) : State := if s.targetCached then s else s.fillTargetCache type

/-- what `UrlPrintHack` takes from the target; the host is read from the slot, with the length of the target -/
def borrowed (s : State) : Borrowed where
  host := if s.target.targetInUrl then none
    else (s.target.hostMime.filter (· ≠ [])).map fun host =>
      (s.fieldValue s.hostMime ++ (List.range host.length).map (behind s.hostMime)).take host.length
  port := if (s.urls 0).impl.portNumber = 0 ∧ s.target.portInHeader then some s.target.port else none

end State

/-- the next state, and the text and the length that are returned -/
def step (s : State) : Op → Option (State × Option (Str × ℕ))
  | .set u c => (c.set (s.urls u).impl).map fun impl => (s.setUrl u { (s.urls u).calledSet with impl := impl }, none)
  | .copy a b => some (s.setUrl b (s.urls a), none)
  | .copyAsServer a b => some (s.setUrl b { clearStringRef (s.urls b) with impl := asServerUrl (s.urls a).impl }, none)
  | .hostSet slot value => some ({ s with fieldValue := Function.update s.fieldValue slot value, hostField := some slot }, none)
  | .hostDelete => some ({ s with hostField := none }, none)
  | .markTargetDirty => some ({ s with targetCached := false }, none)
  | .coalesce inHeap => some ({ s with urls := fun u => if inHeap u then moveStrings (s.urls u) else s.urls u }, none)
  | .stringGetRef u => (s.urls u).stringGetRef.map fun (url, str, len) => (s.setUrl u url, some (str, len))
  | .urlStringGetRef =>
    let s := s.testAndFillTargetCache type
    let b := s.borrowed behind
    let url := { s.urls 0 with impl := b.apply (s.urls 0).impl }
    url.stringGetRef.map fun (url, str, len) => (s.setUrl 0 { url with impl := b.restore url.impl }, some (str, len))

/-- what the Host field lends now -/
def State.due (s : State) : Borrowed := (s.fillTargetCache type).borrowed behind

/-- the text that a call is to return -/
def State.asked (s : State) : Op → Option Bytes
  | .stringGetRef u => some (urlPrint (s.urls u).impl)
  | .urlStringGetRef => some (urlPrint ((s.due type behind).apply (s.urls 0).impl))
  | _ => none

/-- a call returns the text, with a NUL behind it -/
def Answered (s : State) (op : Op) : Prop :=
  ∀ t ∈ s.asked type behind op, ∃ s' str len, step type behind s op = some (s', some (str, len)) ∧ IsText t str len

/-- each call of a run does -/
def Coherent : State → List Op → Prop
  | _, [] => True
  | s, op :: ops => Answered type behind s op ∧ ∀ r ∈ step type behind s op, Coherent r.1 ops

/-! ## The runs that are right -/

/-- the text that is kept is returned -/
def kept (url : Url) : Bool := url.printedString.isSome && url.clean

/-- what has been: of the text that each URL keeps, what was borrowed when it was printed, and whether its heap has been moved since -/
structure History where
  borrowed : ℕ → Borrowed
  moved : ℕ → Bool

def History.init : History := ⟨fun _ => .none, fun _ => false⟩

/-- a text is printed -/
def History.print (h : History) (u : ℕ) (b : Borrowed) : History := ⟨Function.update h.borrowed u b, Function.update h.moved u false⟩

def History.next (h : History) (s : State) : Op → History
  | .copy a b => ⟨Function.update h.borrowed b (h.borrowed a), Function.update h.moved b (h.moved a)⟩
  | .coalesce inHeap => { h with moved := fun u => h.moved u || inHeap u }
  | .stringGetRef u => if kept (s.urls u) then h else h.print u .none
  | .urlStringGetRef => if kept (s.urls 0) then h else h.print 0 ((s.testAndFillTargetCache type).borrowed behind)
  | _ => h

/-- a call with `b` borrowed: the text that is kept was printed with the same, has not been moved, and its length has 16 bits; or the length of
the text is computed right -/
def Printable (h : History) (u : ℕ) (url : Url) (b : Borrowed) : Prop :=
  if kept url then h.borrowed u = b ∧ h.moved u = false ∧ (urlPrint (b.apply url.impl)).length < 65536 else Measured (b.apply url.impl)

/-- what may be done: a call with a text that is kept only as above, and one for the request only if its target is that of the Host field -/
def Allowed (h : History) (s : State) : Op → Prop
  | .stringGetRef u => Printable h u (s.urls u) .none
  | .urlStringGetRef =>
    (s.testAndFillTargetCache type).borrowed behind = s.due type behind ∧ Printable h 0 (s.urls 0) (s.due type behind)
  | _ => True

def AllowedRun : History → State → List Op → Prop
  | _, _, [] => True
  | h, s, op :: ops => Allowed type behind h s op ∧ ∀ r ∈ step type behind s op, AllowedRun (h.next type behind s op) r.1 ops

end Step

/-! ## What a URL keeps -/

/-- the text that is kept is that of the URL with `b` borrowed; the NUL is behind it unless it has been moved -/
def Shows (b : Borrowed) (moved : Bool) (url : Url) : Prop :=
  ∀ str, url.printedString = some str → url.clean = true →
    url.lenPrintedString.toNat = (urlPrint (b.apply url.impl)).length % 65536 ∧
      (moved = false → (urlPrint (b.apply url.impl)).map some ++ [some 0] <+: str)

theorem shows_none {b : Borrowed} {moved : Bool} {url : Url} (h : url.printedString = none) : Shows b moved url := by
  intro str hstr
  rw [h] at hstr
  exact absurd hstr nofun

/-- a setter has been called -/
theorem shows_calledSet (b : Borrowed) (moved : Bool) (url : Url) (impl : URLImpl) : Shows b moved { url.calledSet with impl := impl } := by
  intro str hstr hclean
  have hprinted : url.printedString = some str := hstr
  have hdirty : url.printedString.isNone = true := hclean
  rw [hprinted] at hdirty
  exact absurd hdirty Bool.false_ne_true

theorem clearStringRef_printedString (url : Url) : (clearStringRef url).printedString = none := by
  unfold clearStringRef
  split_ifs with h
  · rfl
  · exact Option.not_isSome_iff_eq_none.mp h

theorem shows_moveStrings {b : Borrowed} {moved : Bool} {url : Url} (h : Shows b moved url) : Shows b true (moveStrings url) := by
  intro str hstr hclean
  obtain ⟨str', hstr', rfl⟩ := Option.map_eq_some_iff.mp hstr
  exact ⟨(h str' hstr' hclean).1, nofun⟩

theorem kept_false {url : Url} (h : kept url = false) : url.printedString = none ∨ url.clean = false := by
  rw [kept, Bool.and_eq_false_iff] at h
  exact h.imp_left Option.isSome_eq_false_iff.mp |>.imp_left Option.isNone_iff_eq_none.mp

/-- the destructor takes back what the constructor has set, and no more -/
theorem Borrowed.apply_restore (b : Borrowed) (url : URLImpl) : b.apply (b.restore (b.apply url)) = b.apply url := by
  cases b with
  | mk host port =>
    cases host with
    | none =>
      cases port with
      | none => rfl
      | some port => rfl
    | some host =>
      cases port with
      | none => rfl
      | some port => rfl

/-- A call with `b` borrowed returns the text that the URL has with it, and keeps it. -/
theorem stringGetRef_spec {h : History} {u : ℕ} {url : Url} {b : Borrowed} (hshows : Shows (h.borrowed u) (h.moved u) url)
    (hprintable : Printable h u url b) :
    ∃ url' str len, ({ url with impl := b.apply url.impl } : Url).stringGetRef = some (url', str, len) ∧ IsText (urlPrint (b.apply url.impl)) str len ∧
      Shows b false { url' with impl := b.restore url'.impl } := by
  unfold Printable at hprintable
  by_cases hkept : kept url = true
  · rw [if_pos hkept] at hprintable
    obtain ⟨hborrowed, hmoved, hlength⟩ := hprintable
    rw [hborrowed, hmoved] at hshows
    rw [kept, Bool.and_eq_true] at hkept
    obtain ⟨str, hstr⟩ := Option.isSome_iff_exists.mp hkept.1
    obtain ⟨hlen, htext⟩ := hshows str hstr hkept.2
    refine ⟨{ url with impl := b.apply url.impl }, str, url.lenPrintedString.toNat, ?_, ⟨?_, htext rfl⟩, ?_⟩
    · simp only [Url.stringGetRef, hstr, hkept.2]
    · rw [hlen, Nat.mod_eq_of_lt hlength]
    · intro str' hstr' hclean
      dsimp only
      rw [b.apply_restore]
      exact hshows str' hstr' hclean
  · rw [if_neg hkept] at hprintable
    have hlen := (length_eq_iff (b.apply url.impl)).mpr hprintable
    have hdirty := kept_false (Bool.not_eq_true _ ▸ hkept)
    have hbuf := printBuf_eq (b.apply url.impl)
    refine ⟨_, _, _, by rw [Url.stringGetRef_dirty (by exact hdirty), hlen, hbuf, Option.map_some], isText_buf _ [], ?_⟩
    intro str hstr hclean
    dsimp only
    rw [b.apply_restore]
    obtain rfl := Option.some.inj hstr
    refine ⟨?_, fun _ => List.prefix_rfl⟩
    exact BitVec.toNat_ofNat _ _

/-! ## One step -/

section Run

variable {type : URLImpl → URLType} {behind : ℕ → ℕ → UInt8} {h : History} {s : State}

def Inv (h : History) (s : State) : Prop := ∀ u, Shows (h.borrowed u) (h.moved u) (s.urls u)

theorem inv_setUrl (hinv : Inv h s) {u : ℕ} {url : Url} (hurl : Shows (h.borrowed u) (h.moved u) url) : Inv h (s.setUrl u url) := by
  intro v
  unfold State.setUrl
  dsimp only
  by_cases hv : v = u
  · subst hv
    rw [Function.update_self]
    exact hurl
  · rw [Function.update_of_ne hv]
    exact hinv v

theorem inv_update (hinv : Inv h s) {u : ℕ} {url : Url} {b : Borrowed} {moved : Bool} (hurl : Shows b moved url) :
    Inv ⟨Function.update h.borrowed u b, Function.update h.moved u moved⟩ (s.setUrl u url) := by
  intro v
  unfold State.setUrl
  dsimp only
  by_cases hv : v = u
  · subst hv
    rw [Function.update_self, Function.update_self, Function.update_self]
    exact hurl
  · rw [Function.update_of_ne hv, Function.update_of_ne hv, Function.update_of_ne hv]
    exact hinv v

/-- a call has kept a text, or has printed one -/
theorem inv_printed (hinv : Inv h s) {u : ℕ} {url : Url} {b : Borrowed} (hprintable : Printable h u (s.urls u) b) (hurl : Shows b false url) :
    Inv (if kept (s.urls u) then h else h.print u b) (s.setUrl u url) := by
  unfold Printable at hprintable
  split_ifs at hprintable ⊢ with hkept
  · obtain ⟨hborrowed, hmoved, -⟩ := hprintable
    apply inv_setUrl hinv
    rw [hborrowed, hmoved]
    exact hurl
  · exact inv_update hinv hurl

theorem testAndFill_urls (s : State) : (s.testAndFillTargetCache type).urls = s.urls := by
  unfold State.testAndFillTargetCache
  split_ifs
  · rfl
  · rfl

/-- the call for the request -/
theorem urlStringGetRef_spec (hinv : Inv h s) (hallowed : Allowed type behind h s .urlStringGetRef) :
    ∃ url str len, step type behind s .urlStringGetRef = some ((s.testAndFillTargetCache type).setUrl 0 url, some (str, len)) ∧
      IsText (urlPrint ((s.due type behind).apply (s.urls 0).impl)) str len ∧ Shows (s.due type behind) false url := by
  obtain ⟨hfresh, hprintable⟩ := hallowed
  obtain ⟨url, str, len, hget, htext, hshows⟩ := stringGetRef_spec (hinv 0) hprintable
  refine ⟨_, str, len, ?_, htext, hshows⟩
  rw [step]
  dsimp only
  rw [testAndFill_urls, hfresh, hget, Option.map_some]

theorem answered (hinv : Inv h s) {op : Op} (hallowed : Allowed type behind h s op) : Answered type behind s op := by
  intro t ht
  cases op with
  | stringGetRef u =>
    obtain rfl := Option.some.inj ht
    obtain ⟨url, str, len, hget, htext, -⟩ := stringGetRef_spec (hinv u) hallowed
    refine ⟨s.setUrl u url, str, len, ?_, htext⟩
    rw [step]
    exact congrArg (Option.map _) hget
  | urlStringGetRef =>
    obtain rfl := Option.some.inj ht
    obtain ⟨url, str, len, hstep, htext, -⟩ := urlStringGetRef_spec hinv hallowed
    exact ⟨_, str, len, hstep, htext⟩
  | set u c => exact absurd ht nofun
  | copy a b => exact absurd ht nofun
  | copyAsServer a b => exact absurd ht nofun
  | hostSet slot value => exact absurd ht nofun
  | hostDelete => exact absurd ht nofun
  | markTargetDirty => exact absurd ht nofun
  | coalesce inHeap => exact absurd ht nofun

theorem inv_step (hinv : Inv h s) {op : Op} (hallowed : Allowed type behind h s op) {r : State × Option (Str × ℕ)}
    (hr : step type behind s op = some r) : Inv (h.next type behind s op) r.1 := by
  cases op with
  | set u c =>
    obtain ⟨impl, -, rfl⟩ := Option.map_eq_some_iff.mp hr
    exact inv_setUrl hinv (shows_calledSet _ _ _ _)
  | copy a b =>
    obtain rfl := Option.some.inj hr
    exact inv_update hinv (hinv a)
  | copyAsServer a b =>
    obtain rfl := Option.some.inj hr
    exact inv_setUrl hinv (shows_none (clearStringRef_printedString _))
  | hostSet slot value =>
    obtain rfl := Option.some.inj hr
    exact hinv
  | hostDelete =>
    obtain rfl := Option.some.inj hr
    exact hinv
  | markTargetDirty =>
    obtain rfl := Option.some.inj hr
    exact hinv
  | coalesce inHeap =>
    obtain rfl := Option.some.inj hr
    intro u
    change Shows (h.borrowed u) (h.moved u || inHeap u) (if inHeap u then moveStrings (s.urls u) else s.urls u)
    split_ifs with hin
    · rw [hin, Bool.or_true]
      exact shows_moveStrings (hinv u)
    · rw [Bool.eq_false_iff.mpr hin, Bool.or_false]
      exact hinv u
  | stringGetRef u =>
    obtain ⟨url, str, len, hget, -, hshows⟩ := stringGetRef_spec (hinv u) hallowed
    have hstep : step type behind s (.stringGetRef u) = some (s.setUrl u url, some (str, len)) := by
      rw [step]
      exact congrArg (Option.map _) hget
    obtain rfl := Option.some.inj (hstep.symm.trans hr)
    exact inv_printed hinv hallowed hshows
  | urlStringGetRef =>
    obtain ⟨url, str, len, hstep, -, hshows⟩ := urlStringGetRef_spec hinv hallowed
    obtain rfl := Option.some.inj (hstep.symm.trans hr)
    have hnext := inv_printed hinv hallowed.2 hshows
    rw [History.next, hallowed.1]
    intro u
    have hu := hnext u
    unfold State.setUrl at hu ⊢
    rw [testAndFill_urls]
    exact hu

/-! ## Runs -/

theorem coherent_of_inv : ∀ (ops : List Op) {h : History} {s : State}, Inv h s → AllowedRun type behind h s ops → Coherent type behind s ops
  | [], _, _, _, _ => trivial
  | _ :: ops, _, _, hinv, ⟨hallowed, hrest⟩ =>
    ⟨answered hinv hallowed, fun r hr => coherent_of_inv ops (inv_step hinv hallowed hr) (hrest r hr)⟩

/-- A run that starts with URLs that keep no text, and in which each call is as it should be, is coherent. -/
theorem coherent_run (hnew : ∀ u, (s.urls u).printedString = none) {ops : List Op} (hops : AllowedRun type behind .init s ops) :
    Coherent type behind s ops :=
  coherent_of_inv ops (fun u => shows_none (hnew u)) hops

end Run

/-- a request for `/`, with the host `a` -/
def request : State := ⟨fun _ => Url.new URLImpl.null, fun _ => text "a", some 0, false, ⟨false, false, none, 0⟩, 0⟩

theorem request_coherent : Coherent (fun _ => .http) (fun _ _ => 0) request [.set 0 (.path [120]), .urlStringGetRef] := by
  refine coherent_run (fun _ => rfl) ⟨trivial, fun r hr => ⟨?_, fun _ _ => trivial⟩⟩
  obtain rfl := Option.some.inj hr
  refine ⟨rfl, ?_⟩
  rw [Printable, if_neg (by decide)]
  exact ⟨by decide +kernel, by decide +kernel⟩

/-- The text of the request is `a/`, and so is the text of its URL then, which is `/`. -/
theorem borrowed_returned : ¬ Coherent (fun _ => .http) (fun _ _ => 0) request [.urlStringGetRef, .stringGetRef 0] := by
  rintro ⟨-, h⟩
  have hrun : ((step (fun _ => .http) (fun _ _ => 0) request .urlStringGetRef).bind fun r =>
      (step (fun _ => .http) (fun _ _ => 0) r.1 (.stringGetRef 0)).map fun r' =>
        (r'.2, r.1.asked (fun _ => .http) (fun _ _ => 0) (.stringGetRef 0))) =
      some (some ((text "a/").map some ++ [some 0], 2), some (text "/")) := by decide +kernel
  obtain ⟨r, hr, hsecond⟩ := Option.bind_eq_some_iff.mp hrun
  obtain ⟨r', hr', heq⟩ := Option.map_eq_some_iff.mp hsecond
  obtain ⟨hreturned, hasked⟩ := Prod.mk.inj heq
  obtain ⟨s', str, len, hstep, htext⟩ := (h r hr).1 _ hasked
  obtain rfl := Option.some.inj (hr'.symm.trans hstep)
  obtain ⟨-, rfl⟩ := Prod.mk.inj (Option.some.inj hreturned)
  exact absurd htext.1 (by decide +kernel)

end TrafficServer.Hdrs.UrlPrinted
