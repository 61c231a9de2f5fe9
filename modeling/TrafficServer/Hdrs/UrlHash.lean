/-
The bytes of a URL that its cache key is made of (`url_CryptoHash_get_general`, `unescape_str` in `proxy/hdrs/URL.cc`).

The parts of a URL are written into a buffer of 512 bytes, with each escape `%HH` replaced by its byte, and the buffer is hashed when it is
full. The unescaper is called again behind that: it has a state for what it has read of an escape, but `unescape_str` first copies bytes up
to the next `%` without a look at the state. An escape at the end of a part stays in the state, too.

`cache_key_canonical`: the digest gets the canonical text of a URL, its port and its generation exactly if no part ends inside an escape, no
`%` of an incomplete escape (one digit, then neither a digit nor `%`) is the last byte of a buffer, outside the scheme and the host, and
these two have no escape of an upper-case letter. `truncated_escape` is a path that ends in `%4`.

`emitted` is what the two loops write for one part, whichever way the buffers fall (`component_emitted`).
-/
import Mathlib.Data.List.TakeWhile
import TrafficServer.Lib.Hex

namespace TrafficServer.Hdrs.UrlHash

open TrafficServer.Hex

abbrev Bytes := List (BitVec 8)

abbrev pct : BitVec 8 := 0x25

/-! ## Unescaping -/

/-- `ParseRules::is_hex` -/
def isHex (b : BitVec 8) : Bool := (value b).isSome

def inkTolower (b : BitVec 8) : BitVec 8 := if 0x41 ≤ b.toNat ∧ b.toNat ≤ 0x5a then b + 0x20 else b

/-- the byte of two digits -/
def hexByte (a b : BitVec 8) : BitVec 8 := BitVec.ofNat 8 ((value a).getD 0 * 16 + (value b).getD 0)

/-- the state between two bytes: nothing open, behind `%`, behind `%` and a digit, or with that digit still to be written -/
inductive EscapeState where
  | text
  | percent
  | digit
  | second
deriving DecidableEq

/-- a part of a URL that is read: the bytes before `str`, last first, and those from `str` on -/
structure Cursor where
  back : Bytes
  str : Bytes
  state : EscapeState

/-- `unescape_str` writes bytes as they are, `unescape_str_tolower` in lower case -/
def fold (lower : Bool) (b : BitVec 8) : BitVec 8 := if lower then inkTolower b else b

/-- one iteration of the loop: what it writes -/
def unescapeStep (lower : Bool) (c : Cursor) : Option (BitVec 8) × Cursor :=
  match c.str with
  | [] => (none, c)
  | b :: str =>
    match c.state with
    | .text =>
      if b = pct then (none, ⟨b :: c.back, str, .percent⟩) else (some (fold lower b), ⟨b :: c.back, str, .text⟩)
    | .percent =>
      if isHex b then (none, ⟨b :: c.back, str, .digit⟩) else (some (fold lower (c.back.getD 0 0)), { c with state := .text })
    | .digit =>
      if isHex b then (some (hexByte (c.back.getD 0 0) b), ⟨b :: c.back, str, .text⟩)
      else (some (fold lower (c.back.getD 1 0)), { c with state := .second })
    | .second => (some (fold lower (c.back.getD 0 0)), { c with state := .text })

/-- the loop, while there are bytes and room in the buffer -/
def unescapeLoop (lower : Bool) : ℕ → ℕ → Cursor → Bytes × Cursor
  | 0, _, c => ([], c)
  | fuel + 1, room, c =>
    if c.str = [] ∨ room = 0 then ([], c)
    else
      match unescapeStep lower c with
      | (none, c') => unescapeLoop lower fuel room c'
      | (some b, c') =>
        let (out, c'') := unescapeLoop lower fuel (room - 1) c'
        (b :: out, c'')

/-- iterations that the loop needs at most -/
def Cursor.work (c : Cursor) : ℕ :=
  4 * c.str.length + match c.state with
    | .text => 0
    | .percent => 1
    | .second => 1
    | .digit => 2

/-- what is copied before the loop -/
def copyUntilPercent (room : ℕ) (str : Bytes) : Bytes := (str.take room).takeWhile (· != pct)

def unescapeStr (room : ℕ) (c : Cursor) : Bytes × Cursor :=
  let copied := copyUntilPercent room c.str
  let c' : Cursor := ⟨copied.reverse ++ c.back, c.str.drop copied.length, c.state⟩
  if copied.length = min c.str.length room then (copied, c')
  else
    let (out, c'') := unescapeLoop false c'.work (room - copied.length) c'
    (copied ++ out, c'')

def unescapeStrTolower (room : ℕ) (c : Cursor) : Bytes × Cursor := unescapeLoop true c.work room c

/-! ## The digest -/

def BUFSIZE : ℕ := 512

/-- what `ctx` has got, and the buffer -/
structure Digest where
  hashed : Bytes
  buffer : Bytes

/-- bytes are written, and a full buffer is hashed -/
def Digest.write (d : Digest) (out : Bytes) : Digest :=
  if (d.buffer ++ out).length = BUFSIZE then ⟨d.hashed ++ (d.buffer ++ out), []⟩ else { d with buffer := d.buffer ++ out }

/-- the loop over one part -/
def component (lower : Bool) : ℕ → Digest → Cursor → Digest
  | 0, d, _ => d
  | fuel + 1, d, c =>
    if c.str = [] then d
    else
      let room := BUFSIZE - d.buffer.length
      let (out, c') := if lower then unescapeStrTolower room c else unescapeStr room c
      component lower fuel (d.write out) c'

/-- the parts of a URL; one that is not there is empty -/
structure URLImpl where
  scheme : Bytes
  user : Bytes
  password : Bytes
  host : Bytes
  path : Bytes
  params : Bytes
  query : Bytes
  /-- `m_url_type` is HTTP, HTTPS or none of them -/
  https : Option Bool
  port : BitVec 16

def urlCanonicalizePort (https : Option Bool) (port : BitVec 16) : BitVec 16 :=
  if port = 0 then
    match https with
    | some false => 80
    | some true => 443
    | none => port
  else port

/-- the bytes of a number in memory, least first -/
def memory (n : ℕ) {w : ℕ} (x : BitVec w) : Bytes := (List.range n).map fun i => BitVec.ofNat 8 (x.toNat / 256 ^ i)

/-- `strs`, and whether a part is folded to lower case -/
def URLImpl.strs (url : URLImpl) : List (Bool × Bytes) :=
  [(true, url.scheme), (false, ascii "://"), (false, url.user), (false, ascii ":"), (false, url.password), (false, ascii "@"),
    (true, url.host), (false, ascii "/"), (false, url.path), (false, ascii ";"), (false, url.params), (false, ascii "?"), (false, url.query)]

/-- the port and the generation, which is left out if it is -1 -/
def URLImpl.tail (url : URLImpl) (generation : BitVec 64) : Bytes :=
  memory 2 (urlCanonicalizePort url.https url.port) ++ if generation = -1 then [] else memory 8 generation

/-- all that `url_CryptoHash_get_general` gives to the digest -/
def urlCryptoHashGetGeneral (url : URLImpl) (generation : BitVec 64) : Bytes :=
  let d := url.strs.foldl (fun d p => component p.1 (Cursor.work ⟨[], p.2, .text⟩) d ⟨[], p.2, .text⟩) ⟨[], []⟩
  d.hashed ++ d.buffer ++ url.tail generation

/-! ## The canonical text -/

/-- each complete escape is replaced by its byte -/
def unescape : Bytes → Bytes
  | [] => []
  | [c] => [c]
  | [c, a] => [c, a]
  | c :: a :: b :: s => if c = pct ∧ isHex a ∧ isHex b then hexByte a b :: unescape s else c :: unescape (a :: b :: s)

def canonicalPart (lower : Bool) (s : Bytes) : Bytes := (unescape s).map (fold lower)

def canonicalText (parts : List (Bool × Bytes)) : Bytes := parts.flatMap fun p => canonicalPart p.1 p.2

/-! ## What is written for a part -/

/-- The bytes of a part from position `n` of the text on. Behind a full buffer `last` is the byte before `str` of a copy in the state
`second`: it is written before the next `%`. -/
def emitted (lower : Bool) : ℕ → Option (BitVec 8) → Bytes → Bytes
  | _, _, [] => []
  | n, some last, c :: s =>
    if c = pct then last :: emitted lower (n + 1) none (c :: s) else c :: emitted lower (n + 1) (some c) s
  | _, none, [c] => if c = pct then [] else [fold lower c]
  | n, none, [c, a] => if c = pct ∧ isHex a then [] else fold lower c :: emitted lower (n + 1) none [a]
  | n, none, c :: a :: b :: s =>
    if c ≠ pct ∨ isHex a = false then fold lower c :: emitted lower (n + 1) none (a :: b :: s)
    else if isHex b then hexByte a b :: emitted lower (n + 1) none s
    else if lower = false ∧ (n + 1) % BUFSIZE = 0 then fold lower c :: emitted lower (n + 1) (some a) (b :: s)
    else fold lower c :: fold lower a :: emitted lower (n + 2) none (b :: s)
termination_by _ last s => 2 * s.length + if last.isSome then 1 else 0

variable {lower : Bool}

theorem emitted_nil (n : ℕ) (last : Option (BitVec 8)) : emitted lower n last [] = [] := by
  rw [emitted]

theorem emitted_stuck (n : ℕ) (last : BitVec 8) (s : Bytes) :
    emitted lower n (some last) (pct :: s) = last :: emitted lower (n + 1) none (pct :: s) := by
  rw [emitted, if_pos rfl]

theorem emitted_stuck_copy (n : ℕ) (last : BitVec 8) {c : BitVec 8} (h : c ≠ pct) (s : Bytes) :
    emitted lower n (some last) (c :: s) = c :: emitted lower (n + 1) (some c) s := by
  rw [emitted, if_neg h]

theorem emitted_text (n : ℕ) {c : BitVec 8} (h : c ≠ pct) (s : Bytes) :
    emitted lower n none (c :: s) = fold lower c :: emitted lower (n + 1) none s := by
  match s with
  | [] =>
    conv_lhs => rw [emitted]
    rw [if_neg h, emitted_nil]
  | [a] =>
    conv_lhs => rw [emitted]
    rw [if_neg fun hc => h hc.1]
  | a :: b :: s =>
    conv_lhs => rw [emitted]
    rw [if_pos (Or.inl h)]

theorem emitted_percent_end (n : ℕ) : emitted lower n none [pct] = [] := by
  rw [emitted, if_pos rfl]

theorem emitted_percent (n : ℕ) {a : BitVec 8} (h : isHex a = false) (s : Bytes) :
    emitted lower n none (pct :: a :: s) = fold lower pct :: emitted lower (n + 1) none (a :: s) := by
  match s with
  | [] =>
    conv_lhs => rw [emitted]
    rw [if_neg (by simp [h])]
  | b :: s =>
    conv_lhs => rw [emitted]
    rw [if_pos (Or.inr h)]

theorem emitted_digit_end (n : ℕ) {a : BitVec 8} (h : isHex a = true) : emitted lower n none [pct, a] = [] := by
  rw [emitted, if_pos ⟨rfl, h⟩]

theorem emitted_escape (n : ℕ) {a b : BitVec 8} (ha : isHex a = true) (hb : isHex b = true) (s : Bytes) :
    emitted lower n none (pct :: a :: b :: s) = hexByte a b :: emitted lower (n + 1) none s := by
  conv_lhs => rw [emitted]
  rw [if_neg (by simp [ha]), if_pos hb]

theorem emitted_cut (n : ℕ) {a b : BitVec 8} (ha : isHex a = true) (hb : isHex b = false) (h : lower = false ∧ (n + 1) % BUFSIZE = 0)
    (s : Bytes) : emitted lower n none (pct :: a :: b :: s) = fold lower pct :: emitted lower (n + 1) (some a) (b :: s) := by
  conv_lhs => rw [emitted]
  rw [if_neg (by simp [ha]), if_neg (by simp [hb]), if_pos h]

theorem emitted_digit (n : ℕ) {a b : BitVec 8} (ha : isHex a = true) (hb : isHex b = false) (h : ¬ (lower = false ∧ (n + 1) % BUFSIZE = 0))
    (s : Bytes) : emitted lower n none (pct :: a :: b :: s) = fold lower pct :: fold lower a :: emitted lower (n + 2) none (b :: s) := by
  conv_lhs => rw [emitted]
  rw [if_neg (by simp [ha]), if_neg (by simp [hb]), if_neg h]

/-- What is still written from a cursor on, at position `n`. Between two calls of `unescape_str` the state `second` is `stuck`. -/
def future (lower stuck : Bool) (n : ℕ) (c : Cursor) : Bytes :=
  match c.state with
  | .text => emitted lower n none c.str
  | .percent => emitted lower n none (pct :: c.str)
  | .digit => emitted lower n none (pct :: c.back.getD 0 0 :: c.str)
  | .second =>
    if lower = false ∧ stuck then emitted lower n (some (c.back.getD 0 0)) c.str
    else fold lower (c.back.getD 0 0) :: emitted lower (n + 1) none c.str

/-- the bytes before the cursor that the state knows -/
def Cursor.Wf (c : Cursor) : Prop :=
  match c.state with
  | .text => True
  | .percent => c.back.getD 0 0 = pct
  | .digit => c.back.getD 1 0 = pct ∧ isHex (c.back.getD 0 0) = true
  | .second => True

/-- what one iteration does to the bytes that are still to be written -/
structure Step (lower : Bool) (room n : ℕ) (c : Cursor) (r : Option (BitVec 8) × Cursor) : Prop where
  wf : r.2.Wf
  second : r.2.state = .second → r.2.str ≠ []
  work : r.2.work < c.work
  closed : r.1.isSome → r.2.state = .text ∨ r.2.state = .second
  future : match r.1 with
    | none => future lower false n c = future lower false n r.2
    | some b => UrlHash.future lower false n c = b :: UrlHash.future lower (room = 1) (n + 1) r.2

theorem unescapeStep_spec {room n : ℕ} {c : Cursor} (hstr : c.str ≠ []) (hwf : c.Wf) (hroom : room ≤ BUFSIZE) (hpos : 0 < room)
    (hn : (n + room) % BUFSIZE = 0) : Step lower room n c (unescapeStep lower c) := by
  have hfull : (n + 1) % BUFSIZE = 0 ↔ room = 1 := by
    unfold BUFSIZE at *
    omega
  obtain ⟨back, str, state⟩ := c
  cases str with
  | nil => exact absurd rfl hstr
  | cons b str =>
    cases state with
    | text =>
      by_cases hb : b = pct
      · subst hb
        unfold unescapeStep
        dsimp only
        rw [if_pos rfl]
        exact ⟨rfl, by simp, by simp [Cursor.work]; omega, by simp, rfl⟩
      · unfold unescapeStep
        dsimp only
        rw [if_neg hb]
        exact ⟨trivial, by simp, by simp [Cursor.work], by simp, emitted_text n hb str⟩
    | percent =>
      by_cases hb : isHex b = true
      · unfold unescapeStep
        dsimp only
        rw [if_pos hb]
        exact ⟨⟨hwf, hb⟩, by simp, by simp [Cursor.work]; omega, by simp, rfl⟩
      · unfold unescapeStep
        dsimp only
        rw [if_neg hb]
        have hwf' : back.getD 0 0 = pct := hwf
        refine ⟨trivial, by simp, by simp [Cursor.work], by simp, ?_⟩
        dsimp only
        rw [hwf']
        exact emitted_percent n (by simpa using hb) str
    | digit =>
      obtain ⟨hpct, hhex⟩ : back.getD 1 0 = pct ∧ isHex (back.getD 0 0) = true := hwf
      by_cases hb : isHex b = true
      · unfold unescapeStep
        dsimp only
        rw [if_pos hb]
        exact ⟨trivial, by simp, by simp [Cursor.work]; omega, by simp, emitted_escape n hhex hb str⟩
      · unfold unescapeStep
        dsimp only
        rw [if_neg hb]
        refine ⟨trivial, by simp, by simp [Cursor.work], by simp, ?_⟩
        dsimp only [future]
        rw [hpct]
        by_cases hcut : lower = false ∧ (n + 1) % BUFSIZE = 0
        · rw [emitted_cut n hhex (by simpa using hb) hcut str, if_pos ⟨hcut.1, by simpa using hfull.mp hcut.2⟩]
        · have hno : ¬ (lower = false ∧ decide (room = 1) = true) := fun h => hcut ⟨h.1, hfull.mpr (by simpa using h.2)⟩
          rw [emitted_digit n hhex (by simpa using hb) hcut str, if_neg hno]
    | second =>
      rw [unescapeStep]
      refine ⟨trivial, by simp, by simp [Cursor.work], by simp, ?_⟩
      dsimp only [future]
      rw [if_neg (by simp)]

theorem unescapeStep_work_le (lower : Bool) (c : Cursor) : (unescapeStep lower c).2.work ≤ c.work := by
  obtain ⟨back, str, state⟩ := c
  unfold unescapeStep
  cases str with
  | nil => exact le_refl _
  | cons b str =>
    cases state <;> dsimp only <;> first | split_ifs | skip
    all_goals
      simp only [Cursor.work, List.length_cons]
      omega

theorem unescapeLoop_work_le (fuel room : ℕ) (c : Cursor) : (unescapeLoop lower fuel room c).2.work ≤ c.work := by
  induction fuel generalizing room c with
  | zero => exact le_refl _
  | succ fuel ih =>
    rw [unescapeLoop]
    split_ifs
    · exact le_refl _
    · have hstep := unescapeStep_work_le lower c
      generalize unescapeStep lower c = r at hstep ⊢
      obtain ⟨ob, c'⟩ := r
      cases ob with
      | none => exact (ih room c').trans hstep
      | some b => exact (ih (room - 1) c').trans hstep

/-- what a call of an unescaper does: it stops at the end of the part or of the buffer -/
structure Call (lower stuck : Bool) (room n : ℕ) (c : Cursor) (r : Bytes × Cursor) : Prop where
  wf : r.2.Wf
  length_le : r.1.length ≤ room
  stops : r.2.str = [] ∨ r.1.length = room
  work : c.str ≠ [] → 0 < room → r.2.work < c.work
  closed : r.2.str ≠ [] → r.2.state = .text ∨ r.2.state = .second
  second : lower = true → r.2.state = .second → r.2.str ≠ []
  future : future lower stuck n c = r.1 ++ UrlHash.future lower true (n + r.1.length) r.2

theorem future_stuck {n : ℕ} {c : Cursor} (h : c.state ≠ .second ∨ lower = true) (stuck stuck' : Bool) :
    future lower stuck n c = future lower stuck' n c := by
  unfold future
  cases hstate : c.state with
  | second =>
    have hlower : lower = true := h.resolve_left (not_not.mpr hstate)
    simp [hlower]
  | _ => rfl

theorem unescapeLoop_spec {fuel room n : ℕ} {c : Cursor} (hfuel : c.work ≤ fuel) (hwf : c.Wf)
    (hsecond : c.state = .second → c.str ≠ []) (hroom : room ≤ BUFSIZE) (hn : (n + room) % BUFSIZE = 0)
    (hclosed : room = 0 → c.state = .text ∨ c.state = .second) :
    Call lower (room = 0) room n c (unescapeLoop lower fuel room c) := by
  induction fuel generalizing room n c with
  | zero =>
    have hstr : c.str = [] := by
      unfold Cursor.work at hfuel
      exact List.length_eq_zero_iff.mp (by omega)
    have hstate : c.state ≠ .second := fun h => hsecond h hstr
    exact ⟨hwf, Nat.zero_le _, Or.inl hstr, fun h => absurd hstr h, fun h => absurd hstr h, fun _ h => absurd h hstate,
      future_stuck (Or.inl hstate) _ _⟩
  | succ fuel ih =>
    rw [unescapeLoop]
    by_cases hstop : c.str = [] ∨ room = 0
    · rw [if_pos hstop]
      refine ⟨hwf, Nat.zero_le _, hstop.imp id Eq.symm, fun h h0 => absurd hstop (by simp [h]; omega), fun h => ?_,
        fun _ h => hsecond h, ?_⟩
      · exact hclosed (hstop.resolve_left h)
      · rcases hstop with hstr | h0
        · exact future_stuck (Or.inl fun h => hsecond h hstr) _ _
        · simp [h0]
    · rw [if_neg hstop]
      obtain ⟨hstr, h0⟩ := not_or.mp hstop
      have hstep : Step lower room n c (unescapeStep lower c) := unescapeStep_spec hstr hwf hroom (Nat.pos_of_ne_zero h0) hn
      generalize unescapeStep lower c = r at hstep ⊢
      obtain ⟨ob, c'⟩ := r
      obtain ⟨hwf', hsecond', hwork, hclosed', hfuture⟩ := hstep
      dsimp only at hwf' hsecond' hwork hclosed' hfuture
      cases ob with
      | none =>
        have hcall : Call lower (room = 0) room n c' (unescapeLoop lower fuel room c') :=
          ih (by omega) hwf' hsecond' hroom hn (fun h => absurd h h0)
        refine ⟨hcall.wf, hcall.length_le, hcall.stops, fun _ hpos => ?_, hcall.closed, hcall.second, ?_⟩
        · by_cases hstr' : c'.str = []
          · refine lt_of_le_of_lt ?_ hwork
            exact unescapeLoop_work_le fuel room c'
          · exact (hcall.work hstr' hpos).trans hwork
        · rw [decide_eq_false h0] at hcall ⊢
          exact hfuture.trans hcall.future
      | some b =>
        have hcall : Call lower (room - 1 = 0) (room - 1) (n + 1) c' (unescapeLoop lower fuel (room - 1) c') :=
          ih (by omega) hwf' hsecond' (by omega) (by rw [← hn]; congr 1; omega) (fun _ => hclosed' rfl)
        dsimp only
        refine ⟨hcall.wf, ?_, ?_, fun _ _ => ?_, hcall.closed, hcall.second, ?_⟩
        · have := hcall.length_le
          rw [List.length_cons]
          omega
        · rcases hcall.stops with h | h
          · exact Or.inl h
          · right
            rw [List.length_cons, h]
            omega
        · exact lt_of_le_of_lt (unescapeLoop_work_le fuel (room - 1) c') hwork
        · have heq : decide (room = 1) = decide (room - 1 = 0) := decide_eq_decide.mpr (by omega)
          rw [decide_eq_false h0, hfuture, heq, hcall.future, List.length_cons]
          simp only [List.cons_append]
          congr 3
          omega

/-! ### The copy before the loop -/

theorem takeWhile_split (p : BitVec 8 → Bool) (l : Bytes) :
    ∃ r, l = l.takeWhile p ++ r ∧ (r = [] ∨ ∃ x r', r = x :: r' ∧ p x = false) := by
  induction l with
  | nil => exact ⟨[], rfl, Or.inl rfl⟩
  | cons b l ih =>
    by_cases hb : p b = true
    · obtain ⟨r, hl, hr⟩ := ih
      refine ⟨r, ?_, hr⟩
      rw [List.takeWhile_cons_of_pos hb, List.cons_append, ← hl]
    · refine ⟨b :: l, ?_, Or.inr ⟨b, l, rfl, by simpa using hb⟩⟩
      rw [List.takeWhile_cons_of_neg hb, List.nil_append]

/-- the copy stops at a `%`, at the end of the part or at the end of the buffer -/
theorem copyUntilPercent_spec (room : ℕ) (str : Bytes) : ∃ rest, str = copyUntilPercent room str ++ rest ∧
    (∀ b ∈ copyUntilPercent room str, b ≠ pct) ∧ (copyUntilPercent room str).length ≤ min str.length room ∧
    ((copyUntilPercent room str).length ≠ min str.length room → ∃ r, rest = pct :: r) := by
  obtain ⟨r, hl, hr⟩ := takeWhile_split (· != pct) (str.take room)
  change str.take room = copyUntilPercent room str ++ r at hl
  have hlen : (copyUntilPercent room str).length + r.length = min str.length room := by
    have := congrArg List.length hl
    rw [List.length_append, List.length_take] at this
    omega
  refine ⟨r ++ str.drop room, ?_, fun b hb => ?_, by omega, fun hne => ?_⟩
  · rw [← List.append_assoc, ← hl, List.take_append_drop]
  · simpa using List.mem_takeWhile_imp hb
  · rcases hr with rfl | ⟨x, r', rfl, hx⟩
    · exact absurd (by simpa using hlen) hne
    · obtain rfl : x = pct := by simpa using hx
      exact ⟨r' ++ str.drop room, rfl⟩

theorem emitted_copy (n : ℕ) {l : Bytes} (h : ∀ b ∈ l, b ≠ pct) (s : Bytes) :
    emitted false n none (l ++ s) = l ++ emitted false (n + l.length) none s := by
  induction l generalizing n with
  | nil => rfl
  | cons b l ih =>
    rw [List.cons_append, emitted_text n (h b List.mem_cons_self), ih (n + 1) fun c hc => h c (List.mem_cons_of_mem b hc),
      List.length_cons]
    simp only [fold, List.cons_append, Bool.false_eq_true, if_false]
    congr 3
    omega

theorem emitted_stuck_copies (n : ℕ) {l : Bytes} (h : ∀ b ∈ l, b ≠ pct) (back s : Bytes) :
    emitted false n (some (back.getD 0 0)) (l ++ s) =
      l ++ emitted false (n + l.length) (some ((l.reverse ++ back).getD 0 0)) s := by
  induction l generalizing n back with
  | nil => rfl
  | cons b l ih =>
    have hrest := ih (n + 1) (fun c hc => h c (List.mem_cons_of_mem b hc)) (b :: back)
    rw [List.getD_cons_zero] at hrest
    rw [List.cons_append, emitted_stuck_copy n _ (h b List.mem_cons_self), hrest, List.length_cons, List.reverse_cons,
      List.append_assoc, List.singleton_append]
    simp only [List.cons_append]
    congr 3
    omega

theorem future_copy (n : ℕ) {c : Cursor} (hstate : c.state = .text ∨ c.state = .second) {l rest : Bytes} (hstr : c.str = l ++ rest)
    (hl : ∀ b ∈ l, b ≠ pct) :
    future false true n c = l ++ future false true (n + l.length) ⟨l.reverse ++ c.back, rest, c.state⟩ := by
  unfold future
  rcases hstate with h | h
  · rw [h, hstr]
    exact emitted_copy n hl rest
  · rw [h, hstr]
    simp only [and_self, if_true]
    exact emitted_stuck_copies n hl c.back rest

theorem unescapeStr_spec {room n : ℕ} {c : Cursor} (hstr : c.str ≠ []) (hroom : room ≤ BUFSIZE) (hpos : 0 < room)
    (hn : (n + room) % BUFSIZE = 0) (hstate : c.state = .text ∨ c.state = .second) : Call false true room n c (unescapeStr room c) := by
  obtain ⟨rest, hsplit, hcopied, hle, hpct⟩ := copyUntilPercent_spec room c.str
  unfold unescapeStr
  generalize copyUntilPercent room c.str = l at hsplit hcopied hle hpct ⊢
  have hdrop : c.str.drop l.length = rest := by rw [hsplit, List.drop_left]
  have hlen : c.str.length = l.length + rest.length := by rw [hsplit, List.length_append]
  have hfuture := future_copy n hstate hsplit hcopied
  have hstrlen : 0 < c.str.length := List.length_pos_of_ne_nil hstr
  dsimp only
  rw [hdrop]
  have hwf' : (⟨l.reverse ++ c.back, rest, c.state⟩ : Cursor).Wf := by
    unfold Cursor.Wf
    rcases hstate with h | h <;> simp [h]
  have hwork : (⟨l.reverse ++ c.back, rest, c.state⟩ : Cursor).work + 4 * l.length = c.work := by
    unfold Cursor.work
    dsimp only
    omega
  by_cases hfull : l.length = min c.str.length room
  · rw [if_pos hfull]
    refine ⟨hwf', ?_, ?_, fun _ _ => ?_, fun _ => hstate, fun h => absurd h Bool.false_ne_true, hfuture⟩
    · dsimp only
      omega
    · by_cases hroomle : c.str.length ≤ room
      · left
        dsimp only
        exact List.length_eq_zero_iff.mp (by omega)
      · right
        dsimp only
        omega
    · dsimp only
      omega
  · rw [if_neg hfull]
    obtain ⟨r, hrest⟩ := hpct hfull
    have hne : rest ≠ [] := by rw [hrest]; exact List.cons_ne_nil _ _
    have hcall : Call false (room - l.length = 0) (room - l.length) (n + l.length) ⟨l.reverse ++ c.back, rest, c.state⟩
        (unescapeLoop false (⟨l.reverse ++ c.back, rest, c.state⟩ : Cursor).work (room - l.length) ⟨l.reverse ++ c.back, rest, c.state⟩) :=
      unescapeLoop_spec (le_refl _) hwf' (fun _ => hne) (by omega) (by rw [← hn]; congr 1; omega) (fun _ => hstate)
    rw [decide_eq_false (by omega)] at hcall
    generalize unescapeLoop false _ _ _ = q at hcall ⊢
    -- before a `%` the state `second` goes on
    have hgo : future false true (n + l.length) ⟨l.reverse ++ c.back, rest, c.state⟩ =
        future false false (n + l.length) ⟨l.reverse ++ c.back, rest, c.state⟩ := by
      unfold future
      rcases hstate with h | h
      · rw [h]
      · rw [h, hrest]
        simp only [and_self, if_true, Bool.false_eq_true, and_false, if_false]
        exact emitted_stuck _ _ r
    have hlenle := hcall.length_le
    refine ⟨hcall.wf, ?_, ?_, fun _ _ => ?_, hcall.closed, hcall.second, ?_⟩
    · rw [List.length_append]
      omega
    · rcases hcall.stops with h | h
      · exact Or.inl h
      · right
        rw [List.length_append]
        omega
    · have := hcall.work hne (by omega)
      dsimp only at this ⊢
      omega
    · rw [hfuture, hgo, hcall.future, List.length_append]
      dsimp only
      rw [List.append_assoc, Nat.add_assoc]

/-! ### A part of the URL -/

structure Digest.Wf (d : Digest) : Prop where
  hashed : d.hashed.length % BUFSIZE = 0
  buffer : d.buffer.length < BUFSIZE

/-- all bytes so far -/
def Digest.text (d : Digest) : Bytes := d.hashed ++ d.buffer

theorem write_spec {d : Digest} (h : d.Wf) {out : Bytes} (hout : out.length ≤ BUFSIZE - d.buffer.length) :
    (d.write out).Wf ∧ (d.write out).text = d.text ++ out := by
  have hb := h.buffer
  have hh := h.hashed
  unfold Digest.write Digest.text
  by_cases hfull : (d.buffer ++ out).length = BUFSIZE
  · rw [if_pos hfull]
    refine ⟨⟨?_, (Nat.zero_le _).trans_lt hb⟩, ?_⟩
    · dsimp only
      rw [List.length_append, hfull, Nat.add_mod_right, hh]
    · simp only [List.append_nil, List.append_assoc]
  · rw [if_neg hfull]
    refine ⟨⟨hh, ?_⟩, ?_⟩
    · dsimp only
      rw [List.length_append] at hfull ⊢
      omega
    · simp only [List.append_assoc]

theorem future_nil {n : ℕ} {c : Cursor} (hwf : c.Wf) (hsecond : lower = true → c.state = .second → c.str ≠ []) (h : c.str = []) :
    future lower true n c = [] := by
  unfold Cursor.Wf at hwf
  unfold future
  cases hstate : c.state with
  | text => rw [h, emitted_nil]
  | percent => rw [h, emitted_percent_end]
  | digit =>
    rw [hstate] at hwf
    rw [h, emitted_digit_end n hwf.2]
  | second =>
    cases hlower : lower with
    | true => exact absurd h (hsecond hlower hstate)
    | false =>
      simp only [and_self, if_true]
      rw [h, emitted_nil]

theorem call_spec {room n : ℕ} {c : Cursor} (hstr : c.str ≠ []) (hwf : c.Wf) (hroom : room ≤ BUFSIZE) (hpos : 0 < room)
    (hn : (n + room) % BUFSIZE = 0) (hstate : c.state = .text ∨ c.state = .second) :
    Call lower true room n c (if lower then unescapeStrTolower room c else unescapeStr room c) := by
  cases lower with
  | false =>
    rw [if_neg Bool.false_ne_true]
    exact unescapeStr_spec hstr hroom hpos hn hstate
  | true =>
    rw [if_pos rfl]
    have hcall : Call true (room = 0) room n c (unescapeStrTolower room c) :=
      unescapeLoop_spec (le_refl _) hwf (fun _ => hstr) hroom hn (fun _ => hstate)
    exact ⟨hcall.wf, hcall.length_le, hcall.stops, hcall.work, hcall.closed, hcall.second,
      (future_stuck (Or.inr rfl) _ _).trans hcall.future⟩

theorem component_spec {fuel : ℕ} {d : Digest} {c : Cursor} (hfuel : c.work ≤ fuel) (hd : d.Wf) (hwf : c.Wf)
    (hclosed : c.str ≠ [] → c.state = .text ∨ c.state = .second) (hsecond : lower = true → c.state = .second → c.str ≠ []) :
    (component lower fuel d c).Wf ∧ (component lower fuel d c).text = d.text ++ future lower true d.text.length c := by
  have hnil : c.str = [] → d.Wf ∧ d.text = d.text ++ future lower true d.text.length c := by
    intro hstr
    rw [future_nil hwf hsecond hstr, List.append_nil]
    exact ⟨hd, rfl⟩
  induction fuel generalizing d c with
  | zero =>
    refine hnil (List.length_eq_zero_iff.mp ?_)
    unfold Cursor.work at hfuel
    omega
  | succ fuel ih =>
    rw [component]
    by_cases hstr : c.str = []
    · rw [if_pos hstr]
      exact hnil hstr
    · rw [if_neg hstr]
      have hb := hd.buffer
      have hh := hd.hashed
      have hcall : Call lower true (BUFSIZE - d.buffer.length) d.text.length c
          (if lower then unescapeStrTolower (BUFSIZE - d.buffer.length) c else unescapeStr (BUFSIZE - d.buffer.length) c) := by
        refine call_spec hstr hwf (Nat.sub_le _ _) (by omega) ?_ (hclosed hstr)
        rw [Digest.text, List.length_append]
        unfold BUFSIZE at *
        omega
      dsimp only
      generalize (if lower = true then unescapeStrTolower (BUFSIZE - d.buffer.length) c else
        unescapeStr (BUFSIZE - d.buffer.length) c) = r at hcall ⊢
      obtain ⟨out, c'⟩ := r
      obtain ⟨hd', htext⟩ := write_spec hd hcall.length_le
      have hwork := hcall.work hstr (by omega)
      dsimp only at hd' htext hwork ⊢
      obtain ⟨hwf'', htext''⟩ := ih (d := d.write out) (c := c') (by omega) hd' hcall.wf hcall.closed hcall.second fun hstr' => by
        rw [future_nil hcall.wf hcall.second hstr', List.append_nil]
        exact ⟨hd', rfl⟩
      refine ⟨hwf'', ?_⟩
      rw [htext'', htext, hcall.future, List.length_append, List.append_assoc]

/-- the two loops write `emitted`, from the position where the part starts -/
theorem component_emitted (lower : Bool) {d : Digest} (hd : d.Wf) (s : Bytes) :
    (component lower (Cursor.work ⟨[], s, .text⟩) d ⟨[], s, .text⟩).Wf ∧
      (component lower (Cursor.work ⟨[], s, .text⟩) d ⟨[], s, .text⟩).text = d.text ++ emitted lower d.text.length none s :=
  component_spec (le_refl _) hd trivial (fun _ => Or.inl rfl) (fun _ h => absurd h (by simp))

/-! ## Against the canonical text -/

/-- what may follow a `%` at position `m` of the canonical text -/
def Fine (lower : Bool) (m : ℕ) : Bytes → Prop
  | [] => False
  | [x] => isHex x = false
  | x :: z :: _ => isHex x = true →
    (isHex z = true → lower = true → inkTolower (hexByte x z) = hexByte x z) ∧
    (isHex z = false → lower = false → z ≠ pct → (m + 1) % BUFSIZE ≠ 0)

/-- every `%` of a part that starts at position `n` of the canonical text is fine -/
def Clean (lower : Bool) (n : ℕ) (s : Bytes) : Prop :=
  ∀ u y, s = u ++ pct :: y → Fine lower (n + (canonicalPart lower u).length) y

/-- the two texts have a first place where they differ, or the first one ends before a `%` of the second -/
def Bad (l l' : Bytes) : Prop :=
  (∃ p a b r r', l = p ++ a :: r ∧ l' = p ++ b :: r' ∧ a ≠ b) ∨ ∃ r, l' = l ++ pct :: r

theorem Bad.ne {l l' : Bytes} (h : Bad l l') : l ≠ l' := by
  rintro rfl
  rcases h with ⟨p, a, b, r, r', h1, h2, hne⟩ | ⟨r, h⟩
  · rw [h1] at h2
    exact hne (List.cons.inj (List.append_cancel_left h2)).1
  · have := congrArg List.length h
    rw [List.length_append, List.length_cons] at this
    omega

theorem Bad.append_left {l l' : Bytes} (h : Bad l l') (w : Bytes) : Bad (w ++ l) (w ++ l') := by
  rcases h with ⟨p, a, b, r, r', rfl, rfl, hne⟩ | ⟨r, rfl⟩
  · exact Or.inl ⟨w ++ p, a, b, r, r', by rw [List.append_assoc], by rw [List.append_assoc], hne⟩
  · exact Or.inr ⟨r, by rw [List.append_assoc]⟩

/-- behind it comes something that does not start with `%` -/
theorem Bad.append_right {l l' : Bytes} (h : Bad l l') {b : BitVec 8} (hb : b ≠ pct) (t t' : Bytes) : Bad (l ++ b :: t) (l' ++ t') := by
  rcases h with ⟨p, a, b', r, r', rfl, rfl, hne⟩ | ⟨r, rfl⟩
  · exact Or.inl ⟨p, a, b', r ++ b :: t, r' ++ t', by simp, by simp, hne⟩
  · exact Or.inl ⟨l, b, pct, t, r ++ t', by simp, by simp, hb⟩

/-! ### One part -/

theorem unescape_text {c : BitVec 8} (h : c ≠ pct) (s : Bytes) : unescape (c :: s) = c :: unescape s := by
  match s with
  | [] => rfl
  | [a] => rfl
  | a :: b :: s =>
    conv_lhs => rw [unescape]
    rw [if_neg fun hc => h hc.1]

theorem unescape_percent {a : BitVec 8} (h : isHex a = false) (s : Bytes) : unescape (pct :: a :: s) = pct :: unescape (a :: s) := by
  match s with
  | [] => rfl
  | b :: s =>
    conv_lhs => rw [unescape]
    rw [if_neg (by simp [h])]

theorem unescape_escape {a b : BitVec 8} (ha : isHex a = true) (hb : isHex b = true) (s : Bytes) :
    unescape (pct :: a :: b :: s) = hexByte a b :: unescape s := by
  rw [unescape, if_pos ⟨rfl, ha, hb⟩]

theorem ne_pct_of_hex {a : BitVec 8} (h : isHex a = true) : a ≠ pct := by
  rintro rfl
  exact absurd h (by decide)

theorem unescape_digit {a b : BitVec 8} (ha : isHex a = true) (hb : isHex b = false) (s : Bytes) :
    unescape (pct :: a :: b :: s) = pct :: a :: unescape (b :: s) := by
  rw [← unescape_text (ne_pct_of_hex ha)]
  conv_lhs => rw [unescape]
  rw [if_neg (by simp [hb])]

theorem fold_pct : fold lower pct = pct := by
  cases lower <;> decide

/-- the condition of a part, from its first bytes and the others -/
theorem clean_append {n k : ℕ} {c : BitVec 8} {w t : Bytes} (hw : ∀ b ∈ w, b ≠ pct)
    (hpos : ∀ u y, t = u ++ pct :: y → (canonicalPart lower (c :: (w ++ u))).length = k + (canonicalPart lower u).length) :
    Clean lower n (c :: (w ++ t)) ↔ (c = pct → Fine lower n (w ++ t)) ∧ Clean lower (n + k) t := by
  constructor
  · intro h
    refine ⟨fun hc => ?_, fun u y hu => ?_⟩
    · have := h [] (w ++ t) (by rw [hc]; rfl)
      exact this
    · have := h (c :: (w ++ u)) y (by rw [hu]; simp)
      rw [hpos u y hu, ← Nat.add_assoc] at this
      exact this
  · rintro ⟨hfirst, hrest⟩ u y hu
    cases u with
    | nil =>
      obtain ⟨hc, hy⟩ := List.cons.inj hu
      rw [← hy]
      exact hfirst hc
    | cons c' u =>
      obtain ⟨rfl, htail⟩ := List.cons.inj (hu.trans (List.cons_append ..))
      -- the `%` is behind `w`
      obtain ⟨u', rfl, ht⟩ : ∃ u', u = w ++ u' ∧ t = u' ++ pct :: y := by
        rcases List.append_eq_append_iff.mp htail with ⟨u', hu', ht⟩ | ⟨w', hw', hy⟩
        · exact ⟨u', hu', ht⟩
        · cases w' with
          | nil => exact ⟨[], by rw [hw']; simp, hy.symm⟩
          | cons b w' =>
            obtain ⟨rfl, _⟩ := List.cons.inj hy
            exact absurd rfl (hw pct (by rw [hw']; simp))
      rw [hpos u' y ht, ← Nat.add_assoc]
      exact hrest u' y ht

/-- a part comes out as its canonical text if every `%` is fine, and differs from it otherwise -/
theorem part_cases (lower : Bool) (n : ℕ) (s : Bytes) :
    (Clean lower n s ∧ emitted lower n none s = canonicalPart lower s) ∨
      (¬ Clean lower n s ∧ Bad (emitted lower n none s) (canonicalPart lower s)) := by
  induction hlen : s.length using Nat.strong_induction_on generalizing n s with
  | _ len ih =>
    subst hlen
    -- the first bytes come out alike, and the rest as `ih` says
    have hgo : ∀ (k : ℕ) (w t : Bytes), t.length < s.length → emitted lower n none s = w ++ emitted lower (n + k) none t →
        canonicalPart lower s = w ++ canonicalPart lower t → (Clean lower n s ↔ Clean lower (n + k) t) →
        (Clean lower n s ∧ emitted lower n none s = canonicalPart lower s) ∨
          (¬ Clean lower n s ∧ Bad (emitted lower n none s) (canonicalPart lower s)) := by
      intro k w t hlt hemitted hcanonical hclean
      rw [hemitted, hcanonical, hclean]
      rcases ih t.length hlt (n + k) t rfl with ⟨hc, heq⟩ | ⟨hc, hbad⟩
      · exact Or.inl ⟨hc, by rw [heq]⟩
      · exact Or.inr ⟨hc, hbad.append_left w⟩
    match s with
    | [] => exact Or.inl ⟨fun u y hu => absurd hu (by simp), emitted_nil n none⟩
    | c :: s =>
      by_cases hc : c = pct
      · subst hc
        match s with
        | [] =>
          refine Or.inr ⟨fun h => h [] [] rfl, Or.inr ⟨[], ?_⟩⟩
          rw [emitted_percent_end, canonicalPart, unescape, List.map_singleton, fold_pct]
          rfl
        | a :: s =>
          by_cases ha : isHex a = false
          · refine hgo 1 [pct] (a :: s) (by simp) ?_ ?_ ?_
            · rw [emitted_percent n ha, fold_pct]
              rfl
            · rw [canonicalPart, unescape_percent ha, List.map_cons, fold_pct]
              rfl
            · refine (clean_append (w := []) (by simp) fun u y hu => ?_).trans (and_iff_right fun _ => ?_)
              · cases u with
                | nil => rfl
                | cons a' u =>
                  obtain ⟨rfl, _⟩ := List.cons.inj hu
                  rw [List.nil_append, canonicalPart, unescape_percent ha, List.map_cons, List.length_cons, Nat.add_comm]
                  rfl
              · cases s with
                | nil => exact ha
                | cons b s => exact fun hhex => absurd (ha.symm.trans hhex) Bool.false_ne_true
          · have ha : isHex a = true := by simpa using ha
            match s with
            | [] =>
              refine Or.inr ⟨fun h => ?_, Or.inr ⟨[fold lower a], ?_⟩⟩
              · exact absurd (ha.symm.trans (h [] [a] rfl)) (by simp)
              · rw [emitted_digit_end n ha, canonicalPart, unescape]
                simp only [List.map_cons, List.map_nil, fold_pct, List.nil_append]
            | b :: s =>
              by_cases hb : isHex b = true
              · by_cases hupper : lower = true ∧ inkTolower (hexByte a b) ≠ hexByte a b
                · refine Or.inr ⟨fun h => hupper.2 ((h [] (a :: b :: s) rfl ha).1 hb hupper.1), Or.inl ⟨[], hexByte a b,
                    inkTolower (hexByte a b), emitted lower (n + 1) none s, canonicalPart lower s, ?_, ?_, hupper.2.symm⟩⟩
                  · rw [emitted_escape n ha hb]
                    rfl
                  · rw [canonicalPart, unescape_escape ha hb, List.map_cons, fold, if_pos hupper.1]
                    rfl
                · have hfold : fold lower (hexByte a b) = hexByte a b := by
                    unfold fold
                    split_ifs with hl
                    · by_contra hne
                      exact hupper ⟨hl, hne⟩
                    · rfl
                  refine hgo 1 [hexByte a b] s (by simp; omega) ?_ ?_ ?_
                  · rw [emitted_escape n ha hb]
                    rfl
                  · rw [canonicalPart, unescape_escape ha hb, List.map_cons, hfold]
                    rfl
                  · refine (clean_append (w := [a, b]) (t := s) ?_ fun u y hu => ?_).trans (and_iff_right fun _ _ => ⟨fun _ hl => ?_, ?_⟩)
                    · intro c hc
                      rcases List.mem_cons.mp hc with rfl | hc
                      · exact ne_pct_of_hex ha
                      · exact List.mem_singleton.mp hc ▸ ne_pct_of_hex hb
                    · rw [List.cons_append, List.cons_append, List.nil_append, canonicalPart, unescape_escape ha hb, List.map_cons,
                        List.length_cons, Nat.add_comm]
                      rfl
                    · rw [fold, if_pos hl] at hfold
                      exact hfold
                    · exact fun hno => absurd (hno.symm.trans hb) Bool.false_ne_true
              · have hb : isHex b = false := by simpa using hb
                have hcanonical : ∀ u, canonicalPart lower (pct :: a :: b :: u) = [pct, fold lower a] ++ canonicalPart lower (b :: u) := by
                  intro u
                  rw [canonicalPart, unescape_digit ha hb, List.map_cons, List.map_cons, fold_pct]
                  rfl
                have hclean : (lower = false → b ≠ pct → (n + 1) % BUFSIZE ≠ 0) →
                    (Clean lower n (pct :: a :: b :: s) ↔ Clean lower (n + 2) (b :: s)) := by
                  intro hfine
                  refine (clean_append (w := [a]) (t := b :: s) ?_ fun u y hu => ?_).trans
                    (and_iff_right fun _ _ => ⟨fun hhex => ?_, fun _ => hfine⟩)
                  · intro c hc
                    exact List.mem_singleton.mp hc ▸ ne_pct_of_hex ha
                  · cases u with
                    | nil => rfl
                    | cons b' u =>
                      obtain ⟨rfl, _⟩ := List.cons.inj hu
                      rw [List.cons_append, List.nil_append, hcanonical, List.length_append]
                      rfl
                  · exact absurd (hb.symm.trans hhex) Bool.false_ne_true
                by_cases hcut : lower = false ∧ (n + 1) % BUFSIZE = 0
                · obtain ⟨rfl, hfull⟩ := hcut
                  by_cases hp : b = pct
                  · -- the next `%` brings the digit
                    refine hgo 2 [pct, a] (b :: s) (by simp) ?_ (hcanonical s) (hclean fun _ hne => absurd hp hne)
                    rw [emitted_cut n ha hb ⟨rfl, hfull⟩, hp, emitted_stuck]
                    rfl
                  · -- the digit is missing behind the full buffer
                    refine Or.inr ⟨fun h => (h [] (a :: b :: s) rfl ha).2 hb rfl hp hfull, Or.inl ⟨[pct], b, a,
                      emitted false (n + 1 + 1) (some b) s, canonicalPart false (b :: s), ?_, hcanonical s, ?_⟩⟩
                    · rw [emitted_cut n ha hb ⟨rfl, hfull⟩, emitted_stuck_copy _ _ hp]
                      rfl
                    · rintro rfl
                      exact absurd (hb.symm.trans ha) Bool.false_ne_true
                · refine hgo 2 [pct, fold lower a] (b :: s) (by simp) ?_ (hcanonical s) (hclean fun hl _ hfull => hcut ⟨hl, hfull⟩)
                  rw [emitted_digit n ha hb hcut, fold_pct]
                  rfl
      · refine hgo 1 [fold lower c] s (by simp) ?_ ?_ ?_
        · rw [emitted_text n hc]
          rfl
        · rw [canonicalPart, unescape_text hc]
          rfl
        · refine (clean_append (w := []) (by simp) fun u y hu => ?_).trans (and_iff_right fun h => absurd h hc)
          rw [List.nil_append, canonicalPart, unescape_text hc, List.map_cons, List.length_cons, Nat.add_comm]
          rfl

/-! ### All parts -/

/-- the parts from position `n` on, as they are written -/
def writtenText : ℕ → List (Bool × Bytes) → Bytes
  | _, [] => []
  | n, (l, s) :: parts => emitted l n none s ++ writtenText (n + (emitted l n none s).length) parts

/-- all parts are clean, at their positions in the canonical text -/
def CleanParts : ℕ → List (Bool × Bytes) → Prop
  | _, [] => True
  | n, (l, s) :: parts => Clean l n s ∧ CleanParts (n + (canonicalPart l s).length) parts

/-- between two parts is one that starts without `%`, and has none -/
def Separated : List (Bool × Bytes) → Prop
  | [] => True
  | [_] => True
  | _ :: (l, s) :: parts => l = false ∧ s ≠ [] ∧ (∀ b ∈ s, b ≠ pct) ∧ Separated parts

theorem canonicalPart_plain {s : Bytes} (h : ∀ b ∈ s, b ≠ pct) : canonicalPart false s = s := by
  induction s with
  | nil => rfl
  | cons b s ih =>
    rw [canonicalPart, unescape_text (h b List.mem_cons_self), List.map_cons]
    congr 1
    exact ih fun c hc => h c (List.mem_cons_of_mem b hc)

theorem emitted_plain (n : ℕ) {s : Bytes} (h : ∀ b ∈ s, b ≠ pct) : emitted false n none s = s := by
  have := emitted_copy n h []
  rwa [List.append_nil, emitted_nil, List.append_nil] at this

theorem clean_plain (n : ℕ) {s : Bytes} (h : ∀ b ∈ s, b ≠ pct) : Clean false n s := by
  intro u y hu
  exact absurd rfl (h pct (by rw [hu]; simp))

theorem parts_cases (n : ℕ) (parts : List (Bool × Bytes)) (h : Separated parts) :
    (CleanParts n parts ∧ writtenText n parts = canonicalText parts) ∨
      (¬ CleanParts n parts ∧ Bad (writtenText n parts) (canonicalText parts)) := by
  induction parts using Separated.induct generalizing n with
  | case1 => exact Or.inl ⟨trivial, rfl⟩
  | case2 p =>
    obtain ⟨l, s⟩ := p
    simp only [CleanParts, and_true, writtenText, canonicalText, List.flatMap_cons, List.flatMap_nil, List.append_nil]
    exact part_cases l n s
  | case3 p l sep parts ih =>
    obtain ⟨l₀, s⟩ := p
    obtain ⟨rfl, hne, hsep, hrest⟩ := h
    simp only [CleanParts, writtenText, canonicalText, List.flatMap_cons, canonicalPart_plain hsep, emitted_plain _ hsep]
    rcases part_cases l₀ n s with ⟨hclean, heq⟩ | ⟨hclean, hbad⟩
    · rw [heq]
      rcases ih (n + (canonicalPart l₀ s).length + sep.length) hrest with ⟨hparts, htext⟩ | ⟨hparts, hbad⟩
      · exact Or.inl ⟨⟨hclean, clean_plain _ hsep, hparts⟩, by rw [htext]; rfl⟩
      · exact Or.inr ⟨fun h => hparts h.2.2, (hbad.append_left sep).append_left _⟩
    · obtain ⟨b, sep', rfl⟩ := List.exists_cons_of_ne_nil hne
      exact Or.inr ⟨fun h => hclean h.1, hbad.append_right (hsep b List.mem_cons_self) _ _⟩

theorem foldl_component {d : Digest} (hd : d.Wf) (parts : List (Bool × Bytes)) :
    (parts.foldl (fun d p => component p.1 (Cursor.work ⟨[], p.2, .text⟩) d ⟨[], p.2, .text⟩) d).text =
      d.text ++ writtenText d.text.length parts := by
  induction parts generalizing d with
  | nil => exact (List.append_nil _).symm
  | cons p parts ih =>
    obtain ⟨hd', htext⟩ := component_emitted p.1 hd p.2
    rw [List.foldl_cons, ih hd', htext, List.length_append, List.append_assoc]
    rfl

theorem strs_separated (url : URLImpl) : Separated url.strs := by
  unfold URLImpl.strs
  simp only [Separated]
  decide

theorem cache_key_canonical (url : URLImpl) (generation : BitVec 64) :
    urlCryptoHashGetGeneral url generation = canonicalText url.strs ++ url.tail generation ↔ CleanParts 0 url.strs := by
  have hwritten : urlCryptoHashGetGeneral url generation = writtenText 0 url.strs ++ url.tail generation := by
    have := foldl_component (d := ⟨[], []⟩) ⟨rfl, by decide⟩ url.strs
    rw [urlCryptoHashGetGeneral]
    exact congrArg (· ++ url.tail generation) this
  rw [hwritten, List.append_cancel_right_eq]
  rcases parts_cases 0 url.strs (strs_separated url) with ⟨hclean, heq⟩ | ⟨hclean, hbad⟩
  · exact iff_of_true heq hclean
  · exact iff_of_false hbad.ne hclean

/-- `http://h/%4`: the escape that is not complete is missing -/
theorem truncated_escape : ∃ url : URLImpl, url.path = [pct, 0x34] ∧
    urlCryptoHashGetGeneral url (-1) ≠ canonicalText url.strs ++ url.tail (-1) := by
  refine ⟨⟨ascii "http", [], [], ascii "h", [pct, 0x34], [], [], some false, 0⟩, rfl, ?_⟩
  decide

end TrafficServer.Hdrs.UrlHash
