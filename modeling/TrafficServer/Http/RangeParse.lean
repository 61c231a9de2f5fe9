/-
The ranges of a request (`HttpSM::parse_range_and_compare` in `proxy/http/HttpSM.cc`).

The field is a comma list with `bytes=` in front. A range is `first-last`, `first-` or `-length`, and there may be blanks around the
numbers. The loop clips each range to the object, drops those outside, and stops at the first one that is no range or not behind the one
before. A number is an `int64_t`. The loop that reads it looks whether it has become smaller, and takes that for an overflow; but a number
can go past 2^64 to one that is not smaller.

Three more things are not as the comment above the function has them. `-0` is a range that does not overlap the object, and is taken for
none at all; so is a number that is too large, and an empty element of the list.

`range_contract_iff`: the contract holds exactly if no number that is come to slips through, and a field whose ranges are all outside has
none of the three.
-/
import TrafficServer.Hdrs.HdrCsvIter
import TrafficServer.Http.RangeTransform

namespace TrafficServer.Http.RangeParse

open Hdrs.HttpParse Hdrs.HdrCsv
open Range (RangeRecord)

abbrev dash : UInt8 := 45

def INT64_MAX : ℤ := 2 ^ 63 - 1

/-- the value of an `int64_t` -/
def int64 (i : ℤ) : ℤ := i.bmod (2 ^ 64)

inductive RangeSetup where
  | RANGE_NONE | RANGE_REQUESTED | RANGE_NOT_SATISFIABLE | RANGE_NOT_HANDLED
deriving DecidableEq

/-! ## The function -/

/-- The loop over the digits of a number; it gives the number and what is behind it. -/
def number (n : ℤ) : Bytes → Option (ℤ × Bytes)
  | [] => some (n, [])
  | c :: s =>
    if isDigit c then
      let new := int64 (n * 10 + (c.toNat - 48))
      if new < n then none else number new s
    else some (n, c :: s)

/-- what is made of one range -/
inductive Spec where
  | failed
  | notSatisfy
  | range (start stop : ℤ)
deriving DecidableEq

section Loop

-- how a number is read: `number 0`
variable (read : Bytes → Option (ℤ × Bytes))

/-- a number with blanks around it: -1 if there is none, and `none` if there is something else -/
def numberOrBlank (s : Bytes) : Option ℤ :=
  match s.dropWhile isWs with
  | [] => some (-1)
  | c :: s =>
    match read (c :: s) with
    | none => none
    | some (n, s) => if s.dropWhile isWs ≠ [] ∨ n < 0 then none else some n

/-- what is done with one value of the list -/
def parseSpec (contentLength : ℤ) (value : Bytes) : Spec :=
  match value.dropWhile (· != dash) with
  | [] => .failed
  | _ :: behind =>
    match numberOrBlank read (value.takeWhile (· != dash)) with
    | none => .failed
    | some start =>
      match behind.dropWhile isWs with
      | [] =>
        if start < 0 then .failed
        else if start ≥ contentLength then .notSatisfy
        else if start > contentLength - 1 then .failed
        else .range start (contentLength - 1)
      | _ :: _ =>
        match numberOrBlank read behind with
        | none => .failed
        | some stop =>
          if start < 0 then
            let stop := if stop ≥ contentLength then contentLength else stop
            let start := contentLength - stop
            let stop := contentLength - 1
            let stop := if stop ≥ contentLength then contentLength - 1 else stop
            if start > stop then .failed else .range start stop
          else if start ≥ contentLength ∧ start ≤ stop then .notSatisfy
          else
            let stop := if stop ≥ contentLength then contentLength - 1 else stop
            if start > stop then .failed else .range start stop

/-- the ranges that are stored, or why there are none -/
def loop (contentLength : ℤ) (ranges : List RangeRecord) (notSatisfy : Bool) : List Bytes → RangeSetup × List RangeRecord
  | [] =>
    if ranges ≠ [] then (.RANGE_REQUESTED, ranges)
    else if notSatisfy then (.RANGE_NOT_SATISFIABLE, [])
    else (.RANGE_NONE, [])
  | value :: values =>
    match parseSpec read contentLength value with
    | .failed => (.RANGE_NONE, [])
    | .notSatisfy => loop contentLength ranges true values
    | .range start stop =>
      if ranges.getLast?.any fun r => start ≤ r.stop then (.RANGE_NOT_HANDLED, [])
      else loop contentLength (ranges ++ [⟨start, stop, -1⟩]) notSatisfy values

end Loop

def bytesUnit : Bytes := Hdrs.text "bytes="

structure HttpSM where
  /-- `parse_range_done` -/
  parseRangeDone : Bool
  /-- `t_state.range_setup` -/
  rangeSetup : RangeSetup
  ranges : Option (List RangeRecord)
  numRangeFields : ℤ
  rangeInCache : Bool

/-- `parse_range_and_compare`, for a field and its duplicates. `cached` says of the end of a range whether it is in the cache already. -/
def parseRangeAndCompare (cached : ℤ → Bool) (sm : HttpSM) (field : Option Bytes) (dups : List (Option Bytes)) (contentLength : ℤ) : HttpSM :=
  if contentLength ≤ 0 then sm
  else if contentLength = INT64_MAX then { sm with rangeSetup := .RANGE_NOT_HANDLED }
  else if sm.parseRangeDone then sm
  else
    let sm := { sm with parseRangeDone := true }
    match csvValues comma true field dups with
    | [] => sm
    | value :: values =>
      if bytesUnit.isPrefixOf value then
        match loop (number 0) contentLength [] false (value.drop bytesUnit.length :: values) with
        | (.RANGE_REQUESTED, ranges) =>
          { sm with
            rangeSetup := .RANGE_REQUESTED, ranges := some ranges, numRangeFields := ranges.length,
            rangeInCache := ranges.all fun r => cached r.stop }
        | (setup, _) => { sm with rangeSetup := setup, numRangeFields := -1, rangeInCache := false }
      else sm

/-! ## The numbers that are come to -/

section Asked

variable (read : Bytes → Option (ℤ × Bytes))

def asked (s : Bytes) : List Bytes := if s.dropWhile isWs = [] then [] else [s.dropWhile isWs]

def specAsked (value : Bytes) : List Bytes :=
  match value.dropWhile (· != dash) with
  | [] => []
  | _ :: behind =>
    asked (value.takeWhile (· != dash)) ++
      if (numberOrBlank read (value.takeWhile (· != dash))).isSome then asked behind else []

/-- the texts at which the loop begins to read a number -/
def loopAsked (contentLength : ℤ) (ranges : List RangeRecord) : List Bytes → List Bytes
  | [] => []
  | value :: values =>
    specAsked read value ++
      match parseSpec read contentLength value with
      | .failed => []
      | .notSatisfy => loopAsked contentLength ranges values
      | .range start stop =>
        if ranges.getLast?.any fun r => start ≤ r.stop then []
        else loopAsked contentLength (ranges ++ [⟨start, stop, -1⟩]) values

end Asked

/-- the number that the digits say; there is none from 2^63 on -/
def exactNumber (s : Bytes) : Option (ℤ × Bytes) :=
  if (Hdrs.HttpParse.number s : ℤ) ≤ INT64_MAX then some (Hdrs.HttpParse.number s, s.dropWhile isDigit) else none

/-- a number is accepted that the digits do not say -/
def Slips (s : Bytes) : Prop := ∃ r, number 0 s = some r ∧ r.1 ≠ Hdrs.HttpParse.number s

/-! ## Numbers -/

/-- the number behind `n` -/
def digitsValue (n : ℕ) (s : Bytes) : ℕ := (s.takeWhile isDigit).foldl (fun n c => n * 10 + (c.toNat - 48)) n

theorem le_digitsValue (n : ℕ) (s : Bytes) : n ≤ digitsValue n s := by
  unfold digitsValue
  induction s.takeWhile isDigit generalizing n with
  | nil => exact le_refl n
  | cons c s ih =>
    rw [List.foldl_cons]
    exact le_trans (by omega) (ih _)

theorem digitsValue_cons {c : UInt8} (h : isDigit c = true) (n : ℕ) (s : Bytes) :
    digitsValue n (c :: s) = digitsValue (n * 10 + (c.toNat - 48)) s := by
  rw [digitsValue, List.takeWhile_cons_of_pos h, List.foldl_cons, digitsValue]

theorem int64_of_le {i : ℤ} (h0 : 0 ≤ i) (h : i ≤ INT64_MAX) : int64 i = i := by
  unfold INT64_MAX at h
  rw [int64, Int.bmod_eq_of_le] <;> omega

theorem int64_le (i : ℤ) : int64 i ≤ INT64_MAX := by
  have h := Int.bmod_lt (x := i) (m := 2 ^ 64) (by norm_num)
  unfold int64 INT64_MAX
  omega

/-- the next number, as long as there is one -/
theorem next_eq {c : UInt8} (h : isDigit c = true) (n : ℕ) : ((n : ℤ) * 10 + (c.toNat - 48)) = ((n * 10 + (c.toNat - 48) : ℕ) : ℤ) := by
  have hc : 48 ≤ c.toNat := by
    have := (Bool.and_eq_true_iff.mp h).1
    simpa [UInt8.le_iff_toNat_le] using this
  push_cast [hc]
  ring

/-- a number that the type has is read as it is -/
theorem number_of_le (s : Bytes) (n : ℕ) (h : (digitsValue n s : ℤ) ≤ INT64_MAX) :
    number n s = some ((digitsValue n s : ℤ), s.dropWhile isDigit) := by
  induction s generalizing n with
  | nil => rfl
  | cons c s ih =>
    by_cases hc : isDigit c = true
    · rw [digitsValue_cons hc] at h ⊢
      have hnext : int64 (n * 10 + (c.toNat - 48)) = ((n * 10 + (c.toNat - 48) : ℕ) : ℤ) := by
        rw [next_eq hc]
        refine int64_of_le (Nat.cast_nonneg _) (le_trans ?_ h)
        exact_mod_cast le_digitsValue _ s
      have hmono : ¬ (((n * 10 + (c.toNat - 48) : ℕ) : ℤ) < n) := by push_cast; omega
      rw [number, if_pos hc, hnext, List.dropWhile_cons_of_pos hc]
      dsimp only
      rw [if_neg hmono, ih _ h]
    · have hstop : digitsValue n (c :: s) = n := by
        rw [digitsValue, List.takeWhile_cons_of_neg hc]
        rfl
      rw [number, if_neg hc, List.dropWhile_cons_of_neg hc, hstop]

/-- whatever is read is a number of the type -/
theorem number_le (s : Bytes) {n : ℤ} (hn : n ≤ INT64_MAX) {r : ℤ × Bytes} (h : number n s = some r) :
    r.1 ≤ INT64_MAX := by
  induction s generalizing n with
  | nil =>
    obtain rfl := Option.some.inj h
    exact hn
  | cons c s ih =>
    rw [number] at h
    dsimp only at h
    split_ifs at h with hc hless
    · exact ih (int64_le _) h
    · obtain rfl := Option.some.inj h
      exact hn

/-- A number slips through exactly if it is not read as it is. -/
theorem not_slips_iff (s : Bytes) : ¬ Slips s ↔ number 0 s = exactNumber s := by
  have hvalue : digitsValue 0 s = Hdrs.HttpParse.number s := rfl
  unfold Slips exactNumber
  by_cases h : (Hdrs.HttpParse.number s : ℤ) ≤ INT64_MAX
  · have hread := number_of_le s 0 (hvalue ▸ h)
    rw [hvalue, Nat.cast_zero] at hread
    rw [if_pos h, hread]
    simp
  · rw [if_neg h]
    constructor
    · intro hslips
      by_contra hsome
      obtain ⟨r, hr⟩ := Option.ne_none_iff_exists'.mp hsome
      refine hslips ⟨r, hr, fun heq => h ?_⟩
      rw [← heq]
      exact number_le s (by decide) hr
    · rintro hnone ⟨r, hr, -⟩
      rw [hnone] at hr
      cases hr

/-! ## Two ways to read a number -/

section Congr

variable {read read' : Bytes → Option (ℤ × Bytes)}

theorem numberOrBlank_congr {s : Bytes} (h : ∀ d ∈ asked s, read d = read' d) : numberOrBlank read s = numberOrBlank read' s := by
  unfold numberOrBlank
  unfold asked at h
  split
  · rfl
  · rename_i c s' hs
    rw [hs, if_neg (List.cons_ne_nil c s')] at h
    rw [h _ List.mem_cons_self]

/-- if they agree on the numbers that are come to, they make the same of a range, and the same numbers are come to -/
theorem parseSpec_congr (contentLength : ℤ) {value : Bytes} (h : ∀ d ∈ specAsked read value, read d = read' d) :
    parseSpec read contentLength value = parseSpec read' contentLength value ∧ specAsked read value = specAsked read' value := by
  unfold specAsked at h
  unfold parseSpec specAsked
  split
  · exact ⟨rfl, rfl⟩
  · rename_i behind hdash
    rw [hdash] at h
    have hbefore : numberOrBlank read (value.takeWhile (· != dash)) = numberOrBlank read' (value.takeWhile (· != dash)) :=
      numberOrBlank_congr fun d hd => h d (List.mem_append_left _ hd)
    rw [← hbefore]
    refine ⟨?_, rfl⟩
    cases hstart : numberOrBlank read (value.takeWhile (· != dash)) with
    | none => rfl
    | some start =>
      have hbehind : numberOrBlank read behind = numberOrBlank read' behind := by
        refine numberOrBlank_congr fun d hd => h d (List.mem_append_right _ ?_)
        rw [hstart]
        exact hd
      simp only [hbehind]

theorem loop_congr {contentLength : ℤ} {values : List Bytes} (ranges : List RangeRecord) (notSatisfy : Bool)
    (h : ∀ d ∈ loopAsked read contentLength ranges values, read d = read' d) :
    loop read contentLength ranges notSatisfy values = loop read' contentLength ranges notSatisfy values ∧
      loopAsked read contentLength ranges values = loopAsked read' contentLength ranges values := by
  induction values generalizing ranges notSatisfy with
  | nil => exact ⟨rfl, rfl⟩
  | cons value values ih =>
    rw [loopAsked] at h
    obtain ⟨hspec, hasked⟩ := parseSpec_congr contentLength fun d hd => h d (List.mem_append_left _ hd)
    rw [loop, loop, loopAsked, loopAsked, ← hspec, ← hasked]
    cases hparse : parseSpec read contentLength value with
    | failed => exact ⟨rfl, rfl⟩
    | notSatisfy =>
      obtain ⟨hloop, hrest⟩ := ih ranges true fun d hd => h d (List.mem_append_right _ (by rw [hparse]; exact hd))
      exact ⟨hloop, by rw [hrest]⟩
    | range start stop =>
      dsimp only
      split_ifs with hhandled
      · exact ⟨rfl, rfl⟩
      · obtain ⟨hloop, hrest⟩ := ih (ranges ++ [⟨start, stop, -1⟩]) notSatisfy fun d hd =>
          h d (List.mem_append_right _ (by rw [hparse]; dsimp only; rw [if_neg hhandled]; exact hd))
        exact ⟨hloop, by rw [hrest]⟩

end Congr

/-- What is come to does not slip through when the code reads exactly if it does not when the numbers are exact. -/
theorem asked_iff (contentLength : ℤ) (values : List Bytes) :
    (∀ d ∈ loopAsked (number 0) contentLength [] values, ¬ Slips d) ↔ ∀ d ∈ loopAsked exactNumber contentLength [] values, ¬ Slips d := by
  constructor
  · intro h
    have hagree : ∀ d ∈ loopAsked (number 0) contentLength [] values, number 0 d = exactNumber d := fun d hd => (not_slips_iff d).mp (h d hd)
    rwa [← (loop_congr [] false hagree).2]
  · intro h
    have hagree : ∀ d ∈ loopAsked exactNumber contentLength [] values, exactNumber d = number 0 d := fun d hd => ((not_slips_iff d).mp (h d hd)).symm
    rwa [← (loop_congr [] false hagree).2]

/-! ## What is asked for -/

/-- `first-`, `first-last` and `-length` -/
inductive RangeSpec where
  | fromByte (first : ℕ)
  | bytes (first last : ℕ) (le : first ≤ last)
  | suffix (length : ℕ)
deriving DecidableEq

namespace RangeSpec

/-- blanks around the numbers are allowed -/
def parse (value : Bytes) : Option RangeSpec :=
  match value.dropWhile (· != dash) with
  | [] => none
  | _ :: behind =>
    let first := trim (value.takeWhile (· != dash))
    let last := trim behind
    if first.all isDigit && last.all isDigit then
      let n := Hdrs.HttpParse.number first
      let m := Hdrs.HttpParse.number last
      if first = [] then if last = [] then none else some (suffix m)
      else if last = [] then some (fromByte n)
      else if h : n ≤ m then some (bytes n m h)
      else none
    else none

/-- the part of the object that is asked for -/
def clip (contentLength : ℤ) : RangeSpec → Option RangeRecord
  | fromByte first => if first < contentLength then some ⟨first, contentLength - 1, -1⟩ else none
  | bytes first last _ => if first < contentLength then some ⟨first, min last (contentLength - 1), -1⟩ else none
  | suffix length => if length = 0 then none else some ⟨contentLength - min (length : ℤ) contentLength, contentLength - 1, -1⟩

/-- the numbers are those of the type, and it is not `-0` -/
def Fits : RangeSpec → Prop
  | fromByte first => (first : ℤ) ≤ INT64_MAX
  | bytes first last _ => (first : ℤ) ≤ INT64_MAX ∧ (last : ℤ) ≤ INT64_MAX
  | suffix length => 0 < length ∧ (length : ℤ) ≤ INT64_MAX

instance : DecidablePred Fits
  | fromByte first => inferInstanceAs (Decidable ((first : ℤ) ≤ INT64_MAX))
  | bytes first last _ => inferInstanceAs (Decidable ((first : ℤ) ≤ INT64_MAX ∧ (last : ℤ) ≤ INT64_MAX))
  | suffix length => inferInstanceAs (Decidable (0 < length ∧ (length : ℤ) ≤ INT64_MAX))

end RangeSpec

/-- what the code makes of a range whose numbers it reads as they are -/
def specResult (contentLength : ℤ) (spec : RangeSpec) : Spec :=
  if spec.Fits then
    match spec.clip contentLength with
    | none => .notSatisfy
    | some r => .range r.start r.stop
  else .failed

/-! ## The ranges of the code with exact numbers -/

theorem trim_eq_nil_iff (s : Bytes) : trim s = [] ↔ s.dropWhile isWs = [] := by
  rw [trim, List.rdropWhile_eq_nil_iff]
  constructor
  · intro h
    cases hs : s.dropWhile isWs with
    | nil => rfl
    | cons c cs =>
      have hhead : (s.dropWhile isWs).head (by rw [hs]; exact List.cons_ne_nil c cs) = c := by simp [hs]
      have hc := List.head_dropWhile_not isWs (by rw [hs]; exact List.cons_ne_nil c cs : s.dropWhile isWs ≠ [])
      rw [hhead] at hc
      exact absurd (h c (by rw [hs]; exact List.mem_cons_self)) (Bool.eq_false_iff.mp hc)
  · intro h
    rw [h]
    exact fun x hx => absurd hx List.not_mem_nil

/-- the blanks in front, the text without blanks around it, and the blanks behind -/
theorem trim_spec (s : Bytes) : ∃ w, s.dropWhile isWs = trim s ++ w ∧ ∀ c ∈ w, isWs c = true :=
  ⟨(s.dropWhile isWs).rtakeWhile isWs, List.rdropWhile_append_rtakeWhile.symm, fun _ hc => List.mem_rtakeWhile_imp hc⟩

theorem isDigit_of_isWs {c : UInt8} (h : isWs c = true) : isDigit c = false := by
  have hc : c = CHAR_SP ∨ c = CHAR_HT := by simpa [isWs, or_iff_not_imp_left] using h
  rcases hc with rfl | rfl
  · rfl
  · rfl

theorem digits_of_blank {w : Bytes} (h : ∀ c ∈ w, isWs c = true) : w.takeWhile isDigit = [] ∧ w.dropWhile isDigit = w := by
  cases w with
  | nil => exact ⟨rfl, rfl⟩
  | cons c w =>
    have hc := isDigit_of_isWs (h c List.mem_cons_self)
    exact ⟨List.takeWhile_cons_of_neg (Bool.eq_false_iff.mp hc), List.dropWhile_cons_of_neg (Bool.eq_false_iff.mp hc)⟩

/-- behind the digits there is something else that is no blank -/
theorem dropWhile_trim_ne {s : Bytes} (hnil : trim s ≠ []) (hdigits : ¬ (trim s).all isDigit = true) (w : Bytes) :
    ((trim s ++ w).dropWhile isDigit).dropWhile isWs ≠ [] := by
  have hne : (trim s).dropWhile isDigit ≠ [] := fun h => hdigits (List.all_eq_true.mpr (List.dropWhile_eq_nil_iff.mp h))
  have hlast : ¬ isWs ((trim s).getLast hnil) = true := List.rdropWhile_last_not isWs _ hnil
  have hmem : (trim s).getLast hnil ∈ (trim s).dropWhile isDigit := by
    have hsplit := List.takeWhile_append_dropWhile (p := isDigit) (l := trim s)
    have heq : (trim s).getLast hnil = ((trim s).dropWhile isDigit).getLast hne := by
      rw [← List.getLast_append_of_ne_nil (by rw [hsplit]; exact hnil) hne]
      congr 1
      exact hsplit.symm
    rw [heq]
    exact List.getLast_mem hne
  intro hall
  have happend : (trim s ++ w).dropWhile isDigit = (trim s).dropWhile isDigit ++ w := by
    rw [List.dropWhile_append, List.isEmpty_eq_false_iff.mpr hne]
    rfl
  rw [happend, List.dropWhile_eq_nil_iff] at hall
  exact hlast (hall _ (List.mem_append_left w hmem))

theorem numberOrBlank_exact (s : Bytes) :
    numberOrBlank exactNumber s =
      if (trim s).all isDigit then
        if trim s = [] then some (-1)
        else if (Hdrs.HttpParse.number (trim s) : ℤ) ≤ INT64_MAX then some (Hdrs.HttpParse.number (trim s) : ℤ) else none
      else none := by
  obtain ⟨w, hw, hblank⟩ := trim_spec s
  by_cases hnil : trim s = []
  · rw [numberOrBlank, (trim_eq_nil_iff s).mp hnil, hnil]
    rfl
  · have hcons : s.dropWhile isWs ≠ [] := fun h => hnil ((trim_eq_nil_iff s).mpr h)
    have hread : numberOrBlank exactNumber s =
        match exactNumber (trim s ++ w) with
        | none => none
        | some (n, s) => if s.dropWhile isWs ≠ [] ∨ n < 0 then none else some n := by
      rw [numberOrBlank, ← hw]
      cases hs : s.dropWhile isWs with
      | nil => exact absurd hs hcons
      | cons c cs => rfl
    rw [hread, if_neg hnil]
    by_cases hdigits : (trim s).all isDigit = true
    · have hall : ∀ c ∈ trim s, isDigit c = true := List.all_eq_true.mp hdigits
      obtain ⟨htake, hdrop⟩ := digits_of_blank hblank
      have hnumber : Hdrs.HttpParse.number (trim s ++ w) = Hdrs.HttpParse.number (trim s) := by
        rw [Hdrs.HttpParse.number, Hdrs.HttpParse.number, List.takeWhile_append_of_pos hall, htake, List.append_nil,
          List.takeWhile_eq_self_iff.mpr hall]
      have hw' : w.dropWhile isWs = [] := List.dropWhile_eq_nil_iff.mpr hblank
      rw [if_pos hdigits, exactNumber, hnumber, List.dropWhile_append_of_pos hall, hdrop]
      split_ifs with hle
      · simp [hw']
      · rfl
    · have hrest : ((trim s ++ w).dropWhile isDigit).dropWhile isWs ≠ [] := dropWhile_trim_ne hnil hdigits w
      rw [if_neg hdigits, exactNumber]
      split_ifs with hle
      · exact if_pos (Or.inl hrest)
      · rfl

/-- a suffix is clipped to the object, and `-0` fails -/
theorem specResult_suffix {contentLength : ℤ} (hpos : 0 < contentLength) {n : ℕ} (h : (n : ℤ) ≤ INT64_MAX) :
    specResult contentLength (.suffix n) =
      if contentLength - (if (n : ℤ) ≥ contentLength then contentLength else n) > contentLength - 1 then .failed
      else .range (contentLength - (if (n : ℤ) ≥ contentLength then contentLength else n)) (contentLength - 1) := by
  have hmin : min (n : ℤ) contentLength = if (n : ℤ) ≥ contentLength then contentLength else n := by
    rw [min_def]
    split_ifs <;> omega
  rw [← hmin, specResult]
  by_cases hn : n = 0
  · have hzero : ¬ (RangeSpec.suffix n).Fits := fun hfits => absurd hn hfits.1.ne'
    rw [if_neg hzero, if_pos (by omega)]
  · have hfits : (RangeSpec.suffix n).Fits := ⟨Nat.pos_of_ne_zero hn, h⟩
    rw [if_pos hfits, RangeSpec.clip, if_neg hn, if_neg (by omega)]

theorem specResult_bytes {contentLength : ℤ} {n m : ℕ} (hn : (n : ℤ) ≤ INT64_MAX) (hm : (m : ℤ) ≤ INT64_MAX) (hle : n ≤ m) :
    specResult contentLength (.bytes n m hle) =
      if (n : ℤ) ≥ contentLength then .notSatisfy else .range n (if (m : ℤ) ≥ contentLength then contentLength - 1 else m) := by
  have hmin : (n : ℤ) < contentLength → min (m : ℤ) (contentLength - 1) = if (m : ℤ) ≥ contentLength then contentLength - 1 else m := by
    intro _
    rw [min_def]
    split_ifs <;> omega
  have hfits : (RangeSpec.bytes n m hle).Fits := ⟨hn, hm⟩
  rw [specResult, if_pos hfits, RangeSpec.clip]
  by_cases hlt : (n : ℤ) < contentLength
  · rw [if_pos hlt, if_neg (not_le.mpr hlt), ← hmin hlt]
  · rw [if_neg hlt, if_pos (not_lt.mp hlt)]

theorem specResult_fromByte {contentLength : ℤ} {n : ℕ} (hn : (n : ℤ) ≤ INT64_MAX) :
    specResult contentLength (.fromByte n) = if (n : ℤ) ≥ contentLength then .notSatisfy else .range n (contentLength - 1) := by
  have hfits : (RangeSpec.fromByte n).Fits := hn
  rw [specResult, if_pos hfits, RangeSpec.clip]
  by_cases hlt : (n : ℤ) < contentLength
  · rw [if_pos hlt, if_neg (not_le.mpr hlt)]
  · rw [if_neg hlt, if_pos (not_lt.mp hlt)]

theorem parseSpec_exact {contentLength : ℤ} (hpos : 0 < contentLength) (value : Bytes) :
    parseSpec exactNumber contentLength value =
      match RangeSpec.parse value with
      | none => .failed
      | some spec => specResult contentLength spec := by
  unfold parseSpec RangeSpec.parse
  cases hdash : value.dropWhile (· != dash) with
  | nil => rfl
  | cons d behind =>
    dsimp only
    rw [numberOrBlank_exact, numberOrBlank_exact]
    generalize hfirst : trim (value.takeWhile (· != dash)) = first
    have hblank : behind.dropWhile isWs = [] ↔ trim behind = [] := (trim_eq_nil_iff behind).symm
    generalize hlast : trim behind = last at *
    generalize hn : Hdrs.HttpParse.number first = n
    generalize hm : Hdrs.HttpParse.number last = m
    by_cases hfirstDigits : first.all isDigit = true
    · rw [if_pos hfirstDigits, hfirstDigits, Bool.true_and]
      cases hbehind : behind.dropWhile isWs with
      | nil =>
        have hlastNil : last = [] := hblank.mp hbehind
        rw [if_pos hlastNil, hlastNil]
        by_cases hfirstNil : first = []
        · rw [if_pos hfirstNil, if_pos hfirstNil]
          rfl
        · rw [if_neg hfirstNil, if_neg hfirstNil]
          change (match (if (n : ℤ) ≤ INT64_MAX then some (n : ℤ) else none) with | none => Spec.failed | some start => _) =
            specResult contentLength (.fromByte n)
          by_cases hn' : (n : ℤ) ≤ INT64_MAX
          · rw [if_pos hn', specResult_fromByte hn']
            dsimp only
            rw [if_neg (by omega : ¬ (n : ℤ) < 0)]
            split_ifs
            · rfl
            · omega
            · rfl
          · rw [if_neg hn', specResult, if_neg (show ¬ (RangeSpec.fromByte n).Fits from hn')]
      | cons c cs =>
        have hlastNil : last ≠ [] := fun h => List.cons_ne_nil c cs (hbehind.symm.trans (hblank.mpr h))
        rw [if_neg hlastNil]
        by_cases hlastDigits : last.all isDigit = true
        · rw [if_pos hlastDigits, if_pos hlastDigits]
          by_cases hfirstNil : first = []
          · rw [if_pos hfirstNil, if_pos hfirstNil]
            by_cases hm' : (m : ℤ) ≤ INT64_MAX
            · rw [if_neg hlastNil, if_pos hm']
              dsimp only
              rw [specResult_suffix hpos hm', if_pos (by decide : (-1 : ℤ) < 0), if_neg (by omega : ¬ contentLength - 1 ≥ contentLength)]
            · rw [if_neg hlastNil, if_neg hm']
              dsimp only
              rw [specResult, if_neg (show ¬ (RangeSpec.suffix m).Fits from fun h => hm' h.2)]
          · rw [if_neg hfirstNil, if_neg hfirstNil, if_neg hlastNil]
            have hcast : n ≤ m ↔ (n : ℤ) ≤ m := Nat.cast_le.symm
            have hunfit : ¬ ((n : ℤ) ≤ INT64_MAX ∧ (m : ℤ) ≤ INT64_MAX) →
                (match (if h : n ≤ m then some (RangeSpec.bytes n m h) else none) with
                  | none => Spec.failed
                  | some spec => specResult contentLength spec) = .failed := by
              intro hover
              by_cases hle : n ≤ m
              · rw [dif_pos hle]
                exact if_neg (show ¬ (RangeSpec.bytes n m hle).Fits from hover)
              · rw [dif_neg hle]
            by_cases hn' : (n : ℤ) ≤ INT64_MAX
            · by_cases hm' : (m : ℤ) ≤ INT64_MAX
              · rw [if_pos hn', if_pos hm']
                dsimp only
                rw [if_neg (by omega : ¬ (n : ℤ) < 0)]
                by_cases hle : n ≤ m
                · rw [dif_pos hle]
                  dsimp only
                  rw [specResult_bytes hn' hm' hle]
                  split_ifs <;> first | rfl | omega
                · rw [dif_neg hle]
                  dsimp only
                  split_ifs <;> first | rfl | omega
              · rw [hunfit fun h => hm' h.2, if_pos hn', if_neg hm']
            · rw [hunfit fun h => hn' h.1, if_neg hn']
        · rw [if_neg hlastDigits, if_neg hlastDigits]
          split <;> rfl
    · rw [if_neg hfirstDigits, Bool.eq_false_iff.mpr hfirstDigits]
      rfl

/-! ## The loop with exact numbers -/

/-- ranges of the object, each behind the one before -/
structure Ordered (contentLength : ℤ) (ranges : List RangeRecord) : Prop where
  inside : ∀ r ∈ ranges, 0 ≤ r.start ∧ r.start ≤ r.stop ∧ r.stop < contentLength
  behind : ranges.Pairwise fun r r' => r.stop < r'.start

theorem clip_inside {contentLength : ℤ} (hpos : 0 < contentLength) {spec : RangeSpec} {r : RangeRecord} (h : spec.clip contentLength = some r) :
    0 ≤ r.start ∧ r.start ≤ r.stop ∧ r.stop < contentLength := by
  cases spec with
  | fromByte first =>
    rw [RangeSpec.clip] at h
    split_ifs at h with hlt
    obtain rfl := Option.some.inj h
    dsimp only
    omega
  | bytes first last le =>
    rw [RangeSpec.clip] at h
    split_ifs at h with hlt
    obtain rfl := Option.some.inj h
    dsimp only
    omega
  | suffix length =>
    rw [RangeSpec.clip] at h
    split_ifs at h with hzero
    obtain rfl := Option.some.inj h
    dsimp only
    omega

theorem clip_doneByte {contentLength : ℤ} {spec : RangeSpec} {r : RangeRecord} (h : spec.clip contentLength = some r) : r.doneByte = -1 := by
  cases spec <;> rw [RangeSpec.clip] at h <;> split_ifs at h <;> obtain rfl := Option.some.inj h <;> rfl

/-- a range behind the last one is behind all of them -/
theorem Ordered.push {contentLength : ℤ} {ranges : List RangeRecord} (h : Ordered contentLength ranges) {r : RangeRecord}
    (hr : 0 ≤ r.start ∧ r.start ≤ r.stop ∧ r.stop < contentLength) (hlast : ¬ ranges.getLast?.any (fun r' => r.start ≤ r'.stop) = true) :
    Ordered contentLength (ranges ++ [r]) := by
  refine ⟨fun r' hr' => ?_, List.pairwise_append.mpr ⟨h.behind, List.pairwise_singleton _ r, fun a ha b hb => ?_⟩⟩
  · rcases List.mem_append.mp hr' with hr' | hr'
    · exact h.inside r' hr'
    · rwa [List.mem_singleton.mp hr']
  · rw [List.mem_singleton.mp hb]
    cases hget : ranges.getLast? with
    | none =>
      rw [List.getLast?_eq_none_iff.mp hget] at ha
      exact absurd ha List.not_mem_nil
    | some last =>
      have hbehind : last.stop < r.start := by simpa [hget] using hlast
      obtain ⟨front, rfl⟩ := List.getLast?_eq_some_iff.mp hget
      rcases List.mem_append.mp ha with ha | ha
      · have hfront := (List.pairwise_append.mp h.behind).2.2 a ha last (List.mem_singleton_self last)
        have hin := (h.inside last (List.mem_append_right _ (List.mem_singleton_self last))).2.1
        exact (hfront.trans_le hin).trans hbehind
      · rwa [List.mem_singleton.mp ha]

theorem specResult_range_iff {contentLength : ℤ} {spec : RangeSpec} {start stop : ℤ} :
    specResult contentLength spec = .range start stop ↔ spec.Fits ∧ spec.clip contentLength = some ⟨start, stop, -1⟩ := by
  unfold specResult
  by_cases hfits : spec.Fits
  · rw [if_pos hfits]
    cases hclip : spec.clip contentLength with
    | none => simp
    | some r =>
      have hdone := clip_doneByte hclip
      obtain ⟨start', stop', done⟩ := r
      obtain rfl : done = -1 := hdone
      simp [hfits]
  · rw [if_neg hfits]
    simp [hfits]

theorem specResult_notSatisfy_iff {contentLength : ℤ} {spec : RangeSpec} :
    specResult contentLength spec = .notSatisfy ↔ spec.Fits ∧ spec.clip contentLength = none := by
  unfold specResult
  by_cases hfits : spec.Fits
  · rw [if_pos hfits]
    cases spec.clip contentLength with
    | none => simp [hfits]
    | some r => simp
  · rw [if_neg hfits]
    simp [hfits]

theorem parseSpec_range {contentLength : ℤ} (hpos : 0 < contentLength) {value : Bytes} {start stop : ℤ}
    (h : parseSpec exactNumber contentLength value = .range start stop) :
    ∃ spec, RangeSpec.parse value = some spec ∧ spec.clip contentLength = some ⟨start, stop, -1⟩ := by
  rw [parseSpec_exact hpos] at h
  cases hspec : RangeSpec.parse value with
  | none =>
    rw [hspec] at h
    cases h
  | some spec =>
    rw [hspec] at h
    exact ⟨spec, rfl, (specResult_range_iff.mp h).2⟩

theorem parseSpec_notSatisfy_iff {contentLength : ℤ} (hpos : 0 < contentLength) {value : Bytes} :
    parseSpec exactNumber contentLength value = .notSatisfy ↔
      ∃ spec, RangeSpec.parse value = some spec ∧ spec.Fits ∧ spec.clip contentLength = none := by
  rw [parseSpec_exact hpos]
  cases RangeSpec.parse value with
  | none => simp
  | some spec => simp [specResult_notSatisfy_iff]

theorem mapM_cons_eq_some {value : Bytes} {values : List Bytes} {specs : List RangeSpec} :
    (value :: values).mapM RangeSpec.parse = some specs ↔
      ∃ spec rest, RangeSpec.parse value = some spec ∧ values.mapM RangeSpec.parse = some rest ∧ specs = spec :: rest := by
  rw [List.mapM_cons]
  simp only [Option.bind_eq_bind, Option.bind_eq_some_iff, Option.pure_def, Option.some.injEq]
  constructor
  · rintro ⟨spec, hspec, rest, hrest, rfl⟩
    exact ⟨spec, rest, hspec, hrest, rfl⟩
  · rintro ⟨spec, rest, hspec, hrest, rfl⟩
    exact ⟨spec, hspec, rest, hrest, rfl⟩

theorem loop_requested {contentLength : ℤ} (hpos : 0 < contentLength) {values : List Bytes} {ranges rs : List RangeRecord} {notSatisfy : Bool}
    (hranges : Ordered contentLength ranges) (h : loop exactNumber contentLength ranges notSatisfy values = (.RANGE_REQUESTED, rs)) :
    ∃ specs, values.mapM RangeSpec.parse = some specs ∧ rs = ranges ++ specs.filterMap (RangeSpec.clip contentLength) ∧
      Ordered contentLength rs := by
  induction values generalizing ranges notSatisfy with
  | nil =>
    rw [loop] at h
    split_ifs at h with hne
    · obtain rfl := congrArg Prod.snd h
      exact ⟨[], rfl, by simp, hranges⟩
    · cases h
    · cases h
  | cons value values ih =>
    rw [loop] at h
    cases hspec : parseSpec exactNumber contentLength value with
    | failed =>
      rw [hspec] at h
      cases h
    | notSatisfy =>
      rw [hspec] at h
      obtain ⟨spec, hparse, -, hclip⟩ := (parseSpec_notSatisfy_iff hpos).mp hspec
      obtain ⟨specs, hspecs, hrs, hordered⟩ := ih hranges h
      refine ⟨spec :: specs, mapM_cons_eq_some.mpr ⟨spec, specs, hparse, hspecs, rfl⟩, ?_, hordered⟩
      rw [hrs, List.filterMap_cons_none hclip]
    | range start stop =>
      rw [hspec] at h
      dsimp only at h
      split_ifs at h with hlast
      · cases h
      · obtain ⟨spec, hparse, hclip⟩ := parseSpec_range hpos hspec
        obtain ⟨specs, hspecs, hrs, hordered⟩ := ih (hranges.push (clip_inside hpos hclip) hlast) h
        refine ⟨spec :: specs, mapM_cons_eq_some.mpr ⟨spec, specs, hparse, hspecs, rfl⟩, ?_, hordered⟩
        rw [hrs, List.filterMap_cons_some hclip, List.append_assoc, List.singleton_append]

theorem loop_notSatisfiable_iff {contentLength : ℤ} (hpos : 0 < contentLength) (values : List Bytes) (ranges : List RangeRecord)
    (notSatisfy : Bool) :
    (loop exactNumber contentLength ranges notSatisfy values).1 = .RANGE_NOT_SATISFIABLE ↔
      ranges = [] ∧ (notSatisfy = true ∨ values ≠ []) ∧
        ∃ specs, values.mapM RangeSpec.parse = some specs ∧ ∀ spec ∈ specs, spec.Fits ∧ spec.clip contentLength = none := by
  induction values generalizing ranges notSatisfy with
  | nil =>
    rw [loop]
    split_ifs with hne hflag
    · simp [hne]
    · simp [not_not.mp hne, hflag]
    · simp [hflag]
  | cons value values ih =>
    rw [loop]
    cases hspec : parseSpec exactNumber contentLength value with
    | failed =>
      refine iff_of_false (by simp) ?_
      rintro ⟨-, -, specs, hspecs, hall⟩
      obtain ⟨spec, rest, hparse, -, rfl⟩ := mapM_cons_eq_some.mp hspecs
      have hsat := (parseSpec_notSatisfy_iff hpos).mpr ⟨spec, hparse, hall spec List.mem_cons_self⟩
      rw [hspec] at hsat
      cases hsat
    | notSatisfy =>
      obtain ⟨spec, hparse, hspec⟩ := (parseSpec_notSatisfy_iff hpos).mp hspec
      dsimp only
      rw [ih]
      refine and_congr_right fun _ => ?_
      constructor
      · rintro ⟨-, specs, hspecs, hall⟩
        exact ⟨Or.inr (List.cons_ne_nil value values), spec :: specs, mapM_cons_eq_some.mpr ⟨spec, specs, hparse, hspecs, rfl⟩,
          List.forall_mem_cons.mpr ⟨hspec, hall⟩⟩
      · rintro ⟨-, specs, hspecs, hall⟩
        obtain ⟨spec', rest, -, hrest, rfl⟩ := mapM_cons_eq_some.mp hspecs
        exact ⟨Or.inl rfl, rest, hrest, (List.forall_mem_cons.mp hall).2⟩
    | range start stop =>
      obtain ⟨spec, hparse, hclip⟩ := parseSpec_range hpos hspec
      refine iff_of_false ?_ ?_
      · dsimp only
        split_ifs
        · simp
        · rw [ih]
          simp
      · rintro ⟨-, -, specs, hspecs, hall⟩
        obtain ⟨spec', rest, hparse', -, rfl⟩ := mapM_cons_eq_some.mp hspecs
        obtain rfl := Option.some.inj (hparse.symm.trans hparse')
        rw [(hall spec List.mem_cons_self).2] at hclip
        cases hclip

/-! ## The contract -/

/-- the values of the list, without the unit in front -/
def rangeValues (field : Option Bytes) (dups : List (Option Bytes)) : Option (List Bytes) :=
  match csvValues comma true field dups with
  | [] => none
  | value :: values => if bytesUnit.isPrefixOf value then some (value.drop bytesUnit.length :: values) else none

/-- the ranges that are asked for, if every one is valid; empty values of the list are none -/
def RangeSpec.parseAll (values : List Bytes) : Option (List RangeSpec) :=
  if values.filter (· ≠ []) = [] then none else (values.filter (· ≠ [])).mapM RangeSpec.parse

/-- What is written above the function, for the values of the field and what the function leaves. -/
structure Contract (values : Option (List Bytes)) (contentLength : ℤ) (sm : HttpSM) : Prop where
  requested : sm.rangeSetup = .RANGE_REQUESTED → ∃ specs, values.bind RangeSpec.parseAll = some specs ∧
    sm.ranges = some (specs.filterMap (RangeSpec.clip contentLength)) ∧
    Ordered contentLength (specs.filterMap (RangeSpec.clip contentLength))
  notSatisfiable : sm.rangeSetup = .RANGE_NOT_SATISFIABLE ↔
    ∃ specs, values.bind RangeSpec.parseAll = some specs ∧ ∀ spec ∈ specs, spec.clip contentLength = none
  exact : ∀ vs ∈ values, ∀ d ∈ loopAsked (number 0) contentLength [] vs, ¬ Slips d

/-- no number that is come to slips through, and if all ranges are outside there is no `-0`, no number from 2^63 on and no empty value -/
structure Plain (values : Option (List Bytes)) (contentLength : ℤ) : Prop where
  noSlip : ∀ vs ∈ values, ∀ d ∈ loopAsked exactNumber contentLength [] vs, ¬ Slips d
  fits : ∀ vs ∈ values, ∀ specs ∈ RangeSpec.parseAll vs, (∀ spec ∈ specs, spec.clip contentLength = none) →
    [] ∉ vs ∧ ∀ spec ∈ specs, spec.Fits

/-- the state before the function is called for the first time -/
structure Fresh (sm : HttpSM) : Prop where
  notDone : sm.parseRangeDone = false
  setup : sm.rangeSetup = .RANGE_NONE
  noRanges : sm.ranges = none

theorem parseAll_of_not_mem {values : List Bytes} (hne : values ≠ []) (h : [] ∉ values) :
    RangeSpec.parseAll values = values.mapM RangeSpec.parse := by
  have hfilter : values.filter (· ≠ []) = values :=
    List.filter_eq_self.mpr fun v hv => decide_eq_true fun hnil => h (hnil ▸ hv)
  rw [RangeSpec.parseAll, hfilter, if_neg hne]

theorem not_mem_of_mapM {values : List Bytes} {specs : List RangeSpec} (h : values.mapM RangeSpec.parse = some specs) : [] ∉ values := by
  induction values generalizing specs with
  | nil => exact List.not_mem_nil
  | cons value values ih =>
    obtain ⟨spec, rest, hspec, hrest, -⟩ := mapM_cons_eq_some.mp h
    rintro (_ | ⟨_, hmem⟩)
    · cases hspec
    · exact ih hrest hmem

/-- what the function leaves of the result of its loop -/
theorem parseRangeAndCompare_eq (cached : ℤ → Bool) {sm : HttpSM} (hsm : Fresh sm) (field : Option Bytes) (dups : List (Option Bytes))
    {contentLength : ℤ} (hpos : 0 < contentLength) (hmax : contentLength < INT64_MAX) :
    match rangeValues field dups with
    | none => (parseRangeAndCompare cached sm field dups contentLength).rangeSetup = .RANGE_NONE
    | some values =>
      (parseRangeAndCompare cached sm field dups contentLength).rangeSetup = (loop (number 0) contentLength [] false values).1 ∧
        ((loop (number 0) contentLength [] false values).1 = .RANGE_REQUESTED →
          (parseRangeAndCompare cached sm field dups contentLength).ranges = some (loop (number 0) contentLength [] false values).2) := by
  unfold rangeValues parseRangeAndCompare
  rw [if_neg (not_le.mpr hpos), if_neg hmax.ne, hsm.notDone]
  cases csvValues comma true field dups with
  | nil => exact hsm.setup
  | cons value values =>
    by_cases hunit : bytesUnit.isPrefixOf value = true
    · simp only [hunit, if_true]
      rcases loop (number 0) contentLength [] false (value.drop bytesUnit.length :: values) with ⟨setup, ranges⟩
      cases setup <;> simp
    · simp only [hunit]
      exact hsm.setup

theorem rangeValues_ne_nil {field : Option Bytes} {dups : List (Option Bytes)} {values : List Bytes}
    (h : rangeValues field dups = some values) : values ≠ [] := by
  unfold rangeValues at h
  split at h
  · cases h
  · split_ifs at h
    obtain rfl := Option.some.inj h
    exact List.cons_ne_nil _ _

/-- with exact numbers the loop finds all ranges outside exactly if it is so, and each fits -/
theorem loop_outside_iff {contentLength : ℤ} (hpos : 0 < contentLength) {values : List Bytes} (hne : values ≠ []) :
    (loop exactNumber contentLength [] false values).1 = .RANGE_NOT_SATISFIABLE ↔
      ∃ specs, RangeSpec.parseAll values = some specs ∧ (∀ spec ∈ specs, spec.clip contentLength = none) ∧
        [] ∉ values ∧ ∀ spec ∈ specs, spec.Fits := by
  rw [loop_notSatisfiable_iff hpos]
  constructor
  · rintro ⟨-, -, specs, hspecs, hall⟩
    have hmem := not_mem_of_mapM hspecs
    exact ⟨specs, (parseAll_of_not_mem hne hmem).trans hspecs, fun spec h => (hall spec h).2, hmem, fun spec h => (hall spec h).1⟩
  · rintro ⟨specs, hspecs, houtside, hmem, hfits⟩
    refine ⟨rfl, Or.inr hne, specs, (parseAll_of_not_mem hne hmem).symm.trans hspecs, fun spec h => ⟨hfits spec h, houtside spec h⟩⟩

/-- **The contract of the ranges.** -/
theorem range_contract_iff (cached : ℤ → Bool) {sm : HttpSM} (hsm : Fresh sm) (field : Option Bytes) (dups : List (Option Bytes))
    {contentLength : ℤ} (hpos : 0 < contentLength) (hmax : contentLength < INT64_MAX) :
    Contract (rangeValues field dups) contentLength (parseRangeAndCompare cached sm field dups contentLength) ↔
      Plain (rangeValues field dups) contentLength := by
  have hrun := parseRangeAndCompare_eq cached hsm field dups hpos hmax
  generalize parseRangeAndCompare cached sm field dups contentLength = sm' at hrun ⊢
  cases hvalues : rangeValues field dups with
  | none =>
    rw [hvalues] at hrun
    have hnone : ∀ {p : List Bytes → Prop}, ∀ vs ∈ (none : Option (List Bytes)), p vs := fun vs hvs => absurd hvs (Option.not_mem_none vs)
    refine iff_of_true ⟨fun h => ?_, ?_, hnone⟩ ⟨hnone, hnone⟩
    · rw [hrun] at h
      cases h
    · rw [hrun]
      simp
  | some values =>
    rw [hvalues] at hrun
    obtain ⟨hsetup, hranges⟩ := hrun
    have houtside := loop_outside_iff hpos (rangeValues_ne_nil hvalues)
    -- without a slip the loop is the one with exact numbers
    have hexact : (∀ d ∈ loopAsked exactNumber contentLength [] values, ¬ Slips d) →
        loop exactNumber contentLength [] false values = loop (number 0) contentLength [] false values := fun h =>
      (loop_congr [] false fun d hd => ((not_slips_iff d).mp (h d hd)).symm).1
    constructor
    · intro hcontract
      have hslip := (asked_iff contentLength values).mp (hcontract.exact values rfl)
      refine ⟨fun vs hvs => ?_, fun vs hvs specs hspecs hall => ?_⟩
      · obtain rfl := Option.some.inj hvs
        exact hslip
      · obtain rfl := Option.some.inj hvs
        have hsat := hcontract.notSatisfiable.mpr ⟨specs, hspecs, hall⟩
        rw [hsetup, ← hexact hslip] at hsat
        obtain ⟨specs', hspecs', -, hmem, hfits⟩ := houtside.mp hsat
        obtain rfl := Option.some.inj (hspecs'.symm.trans hspecs)
        exact ⟨hmem, hfits⟩
    · intro hplain
      have hslip := hplain.noSlip values rfl
      rw [← hexact hslip] at hsetup hranges
      refine ⟨fun h => ?_, ?_, fun vs hvs => ?_⟩
      · have hloop : loop exactNumber contentLength [] false values =
            (.RANGE_REQUESTED, (loop exactNumber contentLength [] false values).2) := Prod.ext (hsetup.symm.trans h) rfl
        obtain ⟨specs, hspecs, hrs, hordered⟩ := loop_requested hpos ⟨fun r hr => absurd hr List.not_mem_nil, List.Pairwise.nil⟩ hloop
        rw [List.nil_append] at hrs
        refine ⟨specs, ?_, ?_, hrs ▸ hordered⟩
        · exact (parseAll_of_not_mem (rangeValues_ne_nil hvalues) (not_mem_of_mapM hspecs)).trans hspecs
        · rw [hranges (hsetup.symm.trans h), hrs]
      · rw [hsetup, houtside]
        constructor
        · rintro ⟨specs, hspecs, hall, -⟩
          exact ⟨specs, hspecs, hall⟩
        · rintro ⟨specs, hspecs, hall⟩
          obtain ⟨hmem, hfits⟩ := hplain.fits values rfl specs hspecs hall
          exact ⟨specs, hspecs, hall, hmem, hfits⟩
      · obtain rfl := Option.some.inj hvs
        exact (asked_iff contentLength values).mpr hslip

/-- a state machine that has just been made -/
def HttpSM.new : HttpSM := ⟨false, .RANGE_NONE, none, 0, false⟩

theorem fresh_new : Fresh HttpSM.new := ⟨rfl, rfl, rfl⟩

/-- of ten bytes those up to the fifth, and from the ninth on -/
theorem contract_two : Contract (rangeValues (some (Hdrs.text "bytes=0-4, 8-")) []) 10
    (parseRangeAndCompare (fun _ => true) HttpSM.new (some (Hdrs.text "bytes=0-4, 8-")) [] 10) := by
  refine (range_contract_iff _ fresh_new _ _ (by decide) (by decide)).mpr ⟨fun vs hvs d hd => (not_slips_iff d).mpr ?_, by decide +kernel⟩
  revert vs d
  decide +kernel

/-- `-0` is outside and is taken for no range. And 21000000000000000000 is read as 2553255926290448384, which is in an object that is large enough. -/
theorem contract_broken :
    (¬ Contract (rangeValues (some (Hdrs.text "bytes=-0")) []) 10
      (parseRangeAndCompare (fun _ => true) HttpSM.new (some (Hdrs.text "bytes=-0")) [] 10)) ∧
    ¬ Contract (rangeValues (some (Hdrs.text "bytes=21000000000000000000-")) []) 3000000000000000000
      (parseRangeAndCompare (fun _ => true) HttpSM.new (some (Hdrs.text "bytes=21000000000000000000-")) [] 3000000000000000000) := by
  constructor
  · intro h
    have hsat := h.notSatisfiable.mpr ⟨[.suffix 0], by decide +kernel, by decide +kernel⟩
    revert hsat
    decide +kernel
  · intro h
    have hsat := h.notSatisfiable.mpr ⟨[.fromByte 21000000000000000000], by decide +kernel, by decide +kernel⟩
    revert hsat
    decide +kernel

end TrafficServer.Http.RangeParse
