/-
The values of a field that is a list (`HdrCsvIter` in `proxy/hdrs/HdrUtils.cc`).

A value is what is between two commas, without the blanks around it, and in quotes a comma is none. The iterator goes through a field and
then through its duplicates. `find_csv` looks for the next value. Where it has found no byte of one it goes on to the next duplicate: it
takes an empty value for the end of the field. So what is behind an empty value is lost, unless the field is the last one. And a first
field without a value is taken for the end of everything.

`csv_complete_iff`: without quotes every value that is not empty is returned exactly if nothing but empty values is behind an empty one, in
every field but the last, and the first field has a value (or there is nothing to return).
-/
import TrafficServer.Hdrs.HttpLine

namespace TrafficServer.Hdrs.HdrCsv

open HttpParse

abbrev comma : UInt8 := 44
abbrev dquote : UInt8 := 34
abbrev backslash : UInt8 := 92

/-! ## The iterator -/

/-- `*cur > ','` for a `char`, which has a sign -/
def isAbove (c : UInt8) : Bool := comma < c && c < 128

/-- The labels `parse_value` and `parse_value_quote` (`quoted`). `prev` is `cur[-1]`, `seen` what is from `csv_start` up to `cur`, and `data`
what is from `csv_start` to `last_data`. It gives `data` and what is behind `m_csv_end`. -/
def parseValue (separator : UInt8) : Bytes → (quoted : Bool) → (prev : UInt8) → (seen : Bytes) → (data : Option Bytes) → Option Bytes × Bytes
  | [], _, _, _, data => (data, [])
  | c :: s, false, _, seen, data =>
    if separator = comma ∧ s ≠ [] ∧ isAbove c then parseValue separator s false c (seen ++ [c]) (some (seen ++ [c]))
    else if c = separator then (data, s)
    -- a quote before any text is skipped
    else if c = dquote then parseValue separator s true c (if seen = [] then [] else seen ++ [c]) data
    else parseValue separator s false c (seen ++ [c]) (if isWs c then data else some (seen ++ [c]))
  | c :: s, true, prev, seen, data =>
    if c = dquote ∧ prev ≠ backslash then parseValue separator s false c (seen ++ [c]) data
    else parseValue separator s true c (seen ++ [c]) (some (seen ++ [c]))

structure HdrCsvIter where
  /-- the value at `m_csv_start` of the length `m_csv_len`, if that is no null pointer -/
  value : Option Bytes
  /-- what is behind `m_csv_end` -/
  rest : Bytes
  /-- the values of the duplicates that come behind `m_cur_field`; a null pointer is `none` -/
  dups : List (Option Bytes)
deriving DecidableEq

/-- `find_csv`; `s` is what is from `m_csv_start` on -/
def findCsv (separator : UInt8) (followDups : Bool) (dups : List (Option Bytes)) (s : Bytes) : HdrCsvIter :=
  let cur := s.dropWhile isWs
  match parseValue separator cur false 0 [] none with
  | (some data, rest) => ⟨some data, rest, dups⟩
  | (none, rest) =>
    match followDups, dups with
    | true, d :: dups => findCsv separator followDups dups (d.getD [])
    | _, _ => ⟨if cur = [] then none else some [], rest, dups⟩
termination_by structural dups

/-- `get_first`, for a field and its duplicates -/
def getFirst (separator : UInt8) (followDups : Bool) (field : Option Bytes) (dups : List (Option Bytes)) : HdrCsvIter :=
  match field with
  | none => ⟨none, [], dups⟩
  | some s => findCsv separator followDups dups s

def getNext (separator : UInt8) (followDups : Bool) (it : HdrCsvIter) : HdrCsvIter :=
  match it.value with
  | none => it
  | some _ => findCsv separator followDups it.dups it.rest

/-- what is returned by `get_first` and then by `get_next`, up to the null pointer -/
inductive Returns (separator : UInt8) (followDups : Bool) : HdrCsvIter → List Bytes → Prop where
  | null {it : HdrCsvIter} : it.value = none → Returns separator followDups it []
  | value {it : HdrCsvIter} {t : Bytes} {ts : List Bytes} :
      it.value = some t → Returns separator followDups (getNext separator followDups it) ts → Returns separator followDups it (t :: ts)

/-- the values that a loop with the iterator goes through -/
def collect (separator : UInt8) (followDups : Bool) : ℕ → HdrCsvIter → List Bytes
  | 0, _ => []
  | n + 1, it =>
    match it.value with
    | none => []
    | some t => t :: collect separator followDups n (getNext separator followDups it)

/-- the bytes and the duplicates that are left -/
def HdrCsvIter.left (rest : Bytes) (dups : List (Option Bytes)) : ℕ := rest.length + (dups.map fun d => (d.getD []).length + 1).sum

def csvValues (separator : UInt8) (followDups : Bool) (field : Option Bytes) (dups : List (Option Bytes)) : List Bytes :=
  collect separator followDups (HdrCsvIter.left (field.getD []) dups + 1) (getFirst separator followDups field dups)

/-! ## The loops end -/

theorem Returns.unique {separator : UInt8} {followDups : Bool} {it : HdrCsvIter} {ts us : List Bytes} (hts : Returns separator followDups it ts)
    (hus : Returns separator followDups it us) : ts = us := by
  induction hts generalizing us with
  | null hnull =>
    cases hus with
    | null _ => rfl
    | value hvalue _ =>
      rw [hnull] at hvalue
      cases hvalue
  | value hvalue _ ih =>
    cases hus with
    | null hnull =>
      rw [hnull] at hvalue
      cases hvalue
    | value hvalue' hrest =>
      rw [hvalue] at hvalue'
      cases hvalue'
      rw [ih hrest]

theorem parseValue_rest_length (separator : UInt8) (s : Bytes) (quoted : Bool) (prev : UInt8) (seen : Bytes) (data : Option Bytes) :
    (parseValue separator s quoted prev seen data).2.length ≤ s.length - 1 := by
  induction s generalizing quoted prev seen data with
  | nil => cases quoted <;> exact le_refl 0
  | cons c s ih =>
    have hnext : ∀ quoted prev seen data, (parseValue separator s quoted prev seen data).2.length ≤ (c :: s).length - 1 :=
      fun quoted prev seen data => (ih quoted prev seen data).trans (Nat.sub_le _ _)
    cases quoted with
    | false =>
      rw [parseValue]
      split_ifs
      · exact hnext _ _ _ _
      · exact le_refl _
      · exact hnext _ _ _ _
      · exact hnext _ _ _ _
      · exact hnext _ _ _ _
      · exact hnext _ _ _ _
    | true =>
      rw [parseValue]
      split_ifs
      · exact hnext _ _ _ _
      · exact hnext _ _ _ _

/-- the first value from `m_csv_start` on -/
def firstValue (separator : UInt8) (s : Bytes) : Option Bytes × Bytes := parseValue separator (s.dropWhile isWs) false 0 [] none

theorem findCsv_found {separator : UInt8} (followDups : Bool) (dups : List (Option Bytes)) {s data : Bytes}
    (h : (firstValue separator s).1 = some data) :
    findCsv separator followDups dups s = ⟨some data, (firstValue separator s).2, dups⟩ := by
  rw [firstValue] at *
  cases dups <;> rw [findCsv] <;> split <;> simp_all

theorem findCsv_next {separator : UInt8} (d : Option Bytes) (dups : List (Option Bytes)) {s : Bytes}
    (h : (firstValue separator s).1 = none) : findCsv separator true (d :: dups) s = findCsv separator true dups (d.getD []) := by
  rw [firstValue] at h
  rw [findCsv]
  split
  · simp_all
  · rfl

theorem findCsv_last {separator : UInt8} {followDups : Bool} {dups : List (Option Bytes)} {s : Bytes}
    (h : (firstValue separator s).1 = none) (hlast : followDups = false ∨ dups = []) :
    findCsv separator followDups dups s =
      ⟨if s.dropWhile isWs = [] then none else some [], (firstValue separator s).2, dups⟩ := by
  rw [firstValue] at *
  rcases hlast with rfl | rfl
  · cases dups <;> rw [findCsv] <;> split <;> simp_all
  · cases followDups <;> rw [findCsv] <;> split <;> simp_all

theorem firstValue_rest_lt {separator : UInt8} {s : Bytes} (h : s.dropWhile isWs ≠ []) : (firstValue separator s).2.length < s.length := by
  have hrest : (firstValue separator s).2.length ≤ (s.dropWhile isWs).length - 1 := parseValue_rest_length ..
  have hdrop := (List.dropWhile_suffix (l := s) isWs).length_le
  have hpos := List.length_pos_of_ne_nil h
  omega

theorem firstValue_nil {separator : UInt8} {s : Bytes} (h : s.dropWhile isWs = []) : firstValue separator s = (none, []) := by
  rw [firstValue, h, parseValue]

/-- every value that is found uses up some of what is left -/
theorem findCsv_left {separator : UInt8} {followDups : Bool} {dups : List (Option Bytes)} {s : Bytes} {t : Bytes}
    (h : (findCsv separator followDups dups s).value = some t) :
    HdrCsvIter.left (findCsv separator followDups dups s).rest (findCsv separator followDups dups s).dups < HdrCsvIter.left s dups := by
  -- a value of this field
  have hthis : ∀ {dups : List (Option Bytes)} {s : Bytes}, s.dropWhile isWs ≠ [] →
      HdrCsvIter.left (firstValue separator s).2 dups < HdrCsvIter.left s dups := fun hcur =>
    Nat.add_lt_add_right (firstValue_rest_lt hcur) _
  cases hfirst : (firstValue separator s).1 with
  | some data =>
    rw [findCsv_found followDups dups hfirst]
    refine hthis fun hcur => ?_
    rw [firstValue_nil hcur] at hfirst
    cases hfirst
  | none =>
    by_cases hlast : followDups = false ∨ dups = []
    · rw [findCsv_last hfirst hlast] at h ⊢
      refine hthis fun hcur => ?_
      rw [hcur] at h
      cases h
    · cases dups with
      | nil => exact absurd (Or.inr rfl) hlast
      | cons d dups =>
        obtain rfl : followDups = true := Bool.eq_true_of_not_eq_false fun hfalse => hlast (Or.inl hfalse)
        rw [findCsv_next d dups hfirst] at h ⊢
        calc _ < HdrCsvIter.left (d.getD []) dups := findCsv_left h
          _ ≤ HdrCsvIter.left s (d :: dups) := by simp only [HdrCsvIter.left, List.map_cons, List.sum_cons]; omega

theorem returns_collect {separator : UInt8} {followDups : Bool} (n : ℕ) {it : HdrCsvIter} (h : HdrCsvIter.left it.rest it.dups < n) :
    Returns separator followDups it (collect separator followDups n it) := by
  induction n generalizing it with
  | zero => exact absurd h (Nat.not_lt_zero _)
  | succ n ih =>
    rw [collect]
    split
    · exact Returns.null ‹_›
    · rename_i t hvalue
      refine Returns.value hvalue ?_
      cases hnext : (getNext separator followDups it).value with
      | none =>
        cases n with
        | zero => exact Returns.null hnext
        | succ n =>
          rw [collect, hnext]
          exact Returns.null hnext
      | some u =>
        have hget : getNext separator followDups it = findCsv separator followDups it.dups it.rest := by rw [getNext, hvalue]
        rw [hget] at hnext
        refine ih ?_
        rw [hget]
        exact (findCsv_left hnext).trans_le (Nat.le_of_lt_succ h)

theorem returns_csvValues (separator : UInt8) (followDups : Bool) (field : Option Bytes) (dups : List (Option Bytes)) :
    Returns separator followDups (getFirst separator followDups field dups) (csvValues separator followDups field dups) := by
  unfold csvValues
  cases hvalue : (getFirst separator followDups field dups).value with
  | none =>
    rw [collect, hvalue]
    exact Returns.null hvalue
  | some t =>
    cases field with
    | none => cases hvalue
    | some s => exact returns_collect _ ((findCsv_left hvalue).trans (Nat.lt_succ_self _))

/-! ## Without quotes -/

def trim (s : Bytes) : Bytes := (s.dropWhile isWs).rdropWhile isWs

/-- the values of a list, without the blanks around them -/
def listValues (separator : UInt8) (s : Bytes) : List Bytes := (s.splitOn separator).map trim

theorem rdropWhile_cons (c : UInt8) (s : Bytes) :
    (c :: s).rdropWhile isWs = if s.rdropWhile isWs = [] then (if isWs c then [] else [c]) else c :: s.rdropWhile isWs := by
  simp only [List.rdropWhile, List.reverse_cons, List.dropWhile_append, List.reverse_eq_nil_iff, List.isEmpty_iff]
  split_ifs with hnil hc
  · simp [hc]
  · simp [hc]
  · simp

theorem isWs_of_isAbove {c : UInt8} (h : isAbove c = true) : isWs c = false := by
  by_contra hws
  have hc : c = CHAR_SP ∨ c = CHAR_HT := by simpa [isWs, or_iff_not_imp_left] using hws
  rcases hc with rfl | rfl
  · exact absurd h (by decide)
  · exact absurd h (by decide)

/-- The text up to the separator, without the blanks at its end, and what is behind the separator. -/
theorem parseValue_plain {separator : UInt8} (hws : isWs separator = false) {s : Bytes} (hquote : dquote ∉ s) (prev : UInt8) (seen : Bytes)
    (data : Option Bytes) :
    parseValue separator s false prev seen data =
      (if (s.takeWhile (· != separator)).rdropWhile isWs = [] then data
        else some (seen ++ (s.takeWhile (· != separator)).rdropWhile isWs), (s.dropWhile (· != separator)).tail) := by
  induction s generalizing prev seen data with
  | nil => rfl
  | cons c s ih =>
    obtain ⟨hc, hs⟩ := not_or.mp (List.mem_cons.not.mp hquote)
    by_cases hsep : c = separator
    · subst hsep
      have habove : ¬ (c = comma ∧ s ≠ [] ∧ isAbove c = true) := by
        rintro ⟨rfl, -, habove⟩
        exact absurd habove (by decide)
      rw [parseValue, if_neg habove, if_pos rfl]
      simp
    · have hstep : parseValue separator (c :: s) false prev seen data =
          parseValue separator s false c (seen ++ [c]) (if isWs c then data else some (seen ++ [c])) := by
        by_cases habove : separator = comma ∧ s ≠ [] ∧ isAbove c = true
        · rw [parseValue, if_pos habove, if_neg (Bool.eq_false_iff.mp (isWs_of_isAbove habove.2.2))]
        · rw [parseValue, if_neg habove, if_neg hsep, if_neg (Ne.symm hc)]
      rw [hstep, ih hs, List.takeWhile_cons_of_pos (by simpa using hsep), List.dropWhile_cons_of_pos (by simpa using hsep), rdropWhile_cons]
      split_ifs <;> simp_all

/-- the blanks in front have no separator -/
theorem dropWhile_isWs {separator : UInt8} (hws : isWs separator = false) (s : Bytes) :
    (s.dropWhile isWs).takeWhile (· != separator) = (s.takeWhile (· != separator)).dropWhile isWs ∧
      (s.dropWhile isWs).dropWhile (· != separator) = s.dropWhile (· != separator) := by
  induction s with
  | nil => exact ⟨rfl, rfl⟩
  | cons c s ih =>
    by_cases hc : isWs c = true
    · have hsep : (c != separator) = true := by
        rw [bne_iff_ne]
        rintro rfl
        exact Bool.false_ne_true (hws.symm.trans hc)
      simpa only [List.dropWhile_cons, List.takeWhile_cons, hc, hsep, if_true] using ih
    · by_cases hsep : (c != separator) = true
      · simp [hc, hsep]
      · simp [hc, hsep]

theorem firstValue_plain {separator : UInt8} (hws : isWs separator = false) {s : Bytes} (hquote : dquote ∉ s) :
    firstValue separator s =
      (if trim (s.takeWhile (· != separator)) = [] then none else some (trim (s.takeWhile (· != separator))),
        (s.dropWhile (· != separator)).tail) := by
  have hdrop : dquote ∉ s.dropWhile isWs := fun hmem => hquote ((List.dropWhile_suffix (l := s) isWs).subset hmem)
  obtain ⟨htake, hrest⟩ := dropWhile_isWs hws s
  rw [firstValue, parseValue_plain hws hdrop, htake, hrest]
  rfl

theorem splitOn_eq (separator : UInt8) (s : Bytes) :
    s.splitOn separator = s.takeWhile (· != separator) ::
      if s.dropWhile (· != separator) = [] then [] else (s.dropWhile (· != separator)).tail.splitOn separator := by
  induction s with
  | nil => rfl
  | cons c s ih =>
    rw [List.splitOn_cons_eq_if_modifyHead]
    by_cases hsep : c = separator
    · simp [hsep]
    · simp only [beq_iff_eq, hsep, if_false, List.takeWhile_cons, List.dropWhile_cons, bne_iff_ne, ne_eq, not_false_eq_true, if_true]
      rw [ih, List.modifyHead_cons]

/-- the first value, and those behind the separator -/
theorem listValues_eq (separator : UInt8) (s : Bytes) :
    listValues separator s = trim (s.takeWhile (· != separator)) ::
      if s.dropWhile (· != separator) = [] then [] else listValues separator (s.dropWhile (· != separator)).tail := by
  rw [listValues, splitOn_eq, List.map_cons, apply_ite (List.map trim)]
  rfl

/-! ## What is returned -/

/-- the values that are not empty -/
def filled (separator : UInt8) (s : Bytes) : List Bytes := (listValues separator s).filter (· ≠ [])

/-- of a field that is not the last one only what is in front of the first empty value -/
def kept (separator : UInt8) (s : Bytes) : List (Option Bytes) → List Bytes
  | [] => filled separator s
  | d :: dups => (listValues separator s).takeWhile (· ≠ []) ++ kept separator (d.getD []) dups

@[simp] theorem listValues_nil (separator : UInt8) : listValues separator [] = [[]] := by
  rw [listValues, List.splitOn_nil]
  rfl

/-- what is behind the first separator -/
def behind (separator : UInt8) (s : Bytes) : Bytes := (s.dropWhile (· != separator)).tail

theorem behind_length_lt {separator : UInt8} {s : Bytes} (h : s ≠ []) : (behind separator s).length < s.length := by
  have hdrop := (List.dropWhile_suffix (l := s) (· != separator)).length_le
  have hpos := List.length_pos_of_ne_nil h
  rw [behind, List.length_tail]
  omega

theorem not_mem_behind {separator : UInt8} {s : Bytes} (h : dquote ∉ s) : dquote ∉ behind separator s := fun hmem =>
  h ((List.dropWhile_suffix (l := s) (· != separator)).subset (List.mem_of_mem_tail hmem))

theorem filled_eq (separator : UInt8) (s : Bytes) :
    filled separator s = (if trim (s.takeWhile (· != separator)) = [] then [] else [trim (s.takeWhile (· != separator))]) ++
      filled separator (behind separator s) := by
  unfold filled behind
  rw [listValues_eq]
  split_ifs with hdrop hfirst hfirst
  · simp [hdrop, hfirst]
  · simp [hdrop, hfirst]
  · simp [hfirst]
  · simp [hfirst]

theorem takeWhile_listValues (separator : UInt8) (s : Bytes) :
    (listValues separator s).takeWhile (· ≠ []) =
      if trim (s.takeWhile (· != separator)) = [] then []
      else trim (s.takeWhile (· != separator)) :: (listValues separator (behind separator s)).takeWhile (· ≠ []) := by
  rw [behind, listValues_eq]
  split_ifs with hdrop hfirst hfirst
  · simp [hfirst]
  · simp [hdrop, hfirst]
  · simp [hfirst]
  · simp [hfirst]

theorem kept_of_ne {separator : UInt8} {s : Bytes} (h : trim (s.takeWhile (· != separator)) ≠ []) (dups : List (Option Bytes)) :
    kept separator s dups = trim (s.takeWhile (· != separator)) :: kept separator (behind separator s) dups := by
  cases dups with
  | nil => rw [kept, kept, filled_eq, if_neg h, List.singleton_append]
  | cons d dups => rw [kept, kept, takeWhile_listValues, if_neg h, List.cons_append]

theorem filled_blank {separator : UInt8} (hws : isWs separator = false) {s : Bytes} (h : s.dropWhile isWs = []) :
    filled separator s = [] := by
  have hsep : separator ∉ s := fun hmem => Bool.false_ne_true (hws.symm.trans (List.dropWhile_eq_nil_iff.mp h separator hmem))
  rw [filled, listValues, List.splitOn_eq_singleton hsep, List.map_singleton, trim, h]
  rfl

/-- The values that are returned and are not empty are those that are kept. -/
def ReturnsKept (separator : UInt8) (dups : List (Option Bytes)) (s : Bytes) : Prop :=
  ∃ ts, Returns separator true (findCsv separator true dups s) ts ∧ ts.filter (· ≠ []) = kept separator s dups

theorem returnsKept_of_ne {separator : UInt8} (hws : isWs separator = false) {dups : List (Option Bytes)} {s : Bytes} (hs : dquote ∉ s)
    (htrim : trim (s.takeWhile (· != separator)) ≠ []) (h : ReturnsKept separator dups (behind separator s)) : ReturnsKept separator dups s := by
  obtain ⟨ts, hts, hfilter⟩ := h
  have hfirst : firstValue separator s = (some (trim (s.takeWhile (· != separator))), behind separator s) := by
    rw [firstValue_plain hws hs, if_neg htrim]
    rfl
  have hfind := findCsv_found true dups (congrArg Prod.fst hfirst)
  rw [hfirst] at hfind
  refine ⟨trim (s.takeWhile (· != separator)) :: ts, ?_, ?_⟩
  · rw [hfind]
    exact Returns.value rfl hts
  · rw [kept_of_ne htrim, ← hfilter, List.filter_cons_of_pos (by simpa using htrim)]

/-- an empty value is returned in the last field -/
theorem returnsKept_nil_of_eq {separator : UInt8} (hws : isWs separator = false) {s : Bytes} (hs : dquote ∉ s)
    (htrim : trim (s.takeWhile (· != separator)) = []) (h : s ≠ [] → ReturnsKept separator [] (behind separator s)) :
    ReturnsKept separator [] s := by
  have hfirst : firstValue separator s = (none, behind separator s) := by
    rw [firstValue_plain hws hs, if_pos htrim]
    rfl
  have hfind := findCsv_last (congrArg Prod.fst hfirst) (Or.inr rfl : true = false ∨ ([] : List (Option Bytes)) = [])
  have hfilled : filled separator s = filled separator (behind separator s) := by rw [filled_eq, if_pos htrim, List.nil_append]
  by_cases hblank : s.dropWhile isWs = []
  · refine ⟨[], ?_, ?_⟩
    · rw [hfind, if_pos hblank]
      exact Returns.null rfl
    · exact (filled_blank hws hblank).symm
  · obtain ⟨ts, hts, hfilter⟩ := h fun hnil => hblank (by rw [hnil]; rfl)
    refine ⟨[] :: ts, ?_, ?_⟩
    · rw [hfind, if_neg hblank, hfirst]
      exact Returns.value rfl hts
    · rw [List.filter_cons_of_neg (by simp), hfilter]
      exact hfilled.symm

/-- behind an empty value in another field comes the next field -/
theorem returnsKept_cons_of_eq {separator : UInt8} (hws : isWs separator = false) {d : Option Bytes} {dups : List (Option Bytes)} {s : Bytes}
    (hs : dquote ∉ s) (htrim : trim (s.takeWhile (· != separator)) = []) (h : ReturnsKept separator dups (d.getD [])) :
    ReturnsKept separator (d :: dups) s := by
  have hfirst : (firstValue separator s).1 = none := by rw [firstValue_plain hws hs, if_pos htrim]
  unfold ReturnsKept
  rw [findCsv_next d dups hfirst, kept, takeWhile_listValues, if_pos htrim, List.nil_append]
  exact h

theorem returns_kept {separator : UInt8} (hws : isWs separator = false) (dups : List (Option Bytes)) {s : Bytes}
    (hs : dquote ∉ s) (hdups : ∀ d ∈ dups, dquote ∉ d.getD []) : ReturnsKept separator dups s := by
  -- over the duplicates, and over the values of each
  induction dups generalizing s with
  | nil =>
    induction hlength : s.length using Nat.strong_induction_on generalizing s with
    | _ n ih =>
      have hnext : s ≠ [] → ReturnsKept separator [] (behind separator s) := fun hne =>
        ih _ (hlength ▸ behind_length_lt hne) (not_mem_behind hs) rfl
      by_cases htrim : trim (s.takeWhile (· != separator)) = []
      · exact returnsKept_nil_of_eq hws hs htrim hnext
      · exact returnsKept_of_ne hws hs htrim (hnext fun hnil => htrim (by rw [hnil]; rfl))
  | cons d dups ihDups =>
    have hd := ihDups (hdups d List.mem_cons_self) fun d' hd' => hdups d' (List.mem_cons_of_mem d hd')
    induction hlength : s.length using Nat.strong_induction_on generalizing s with
    | _ n ih =>
      by_cases htrim : trim (s.takeWhile (· != separator)) = []
      · exact returnsKept_cons_of_eq hws hs htrim hd
      · have hne : s ≠ [] := fun hnil => htrim (by rw [hnil]; rfl)
        exact returnsKept_of_ne hws hs htrim (ih _ (hlength ▸ behind_length_lt hne) (not_mem_behind hs) rfl)

/-! ## What is lost -/

/-- nothing but empty values behind an empty one -/
def EmptyAtEnd (separator : UInt8) (s : Bytes) : Prop := ∀ v ∈ (listValues separator s).dropWhile (· ≠ []), v = []

theorem filled_split (separator : UInt8) (s : Bytes) :
    filled separator s =
      (listValues separator s).takeWhile (· ≠ []) ++ ((listValues separator s).dropWhile (· ≠ [])).filter (· ≠ []) := by
  have htake : ((listValues separator s).takeWhile (· ≠ [])).filter (· ≠ []) = (listValues separator s).takeWhile (· ≠ []) :=
    List.filter_eq_self.mpr fun v => List.mem_takeWhile_imp
  calc filled separator s
      = ((listValues separator s).takeWhile (· ≠ []) ++ (listValues separator s).dropWhile (· ≠ [])).filter (· ≠ []) := by
        rw [List.takeWhile_append_dropWhile, filled]
    _ = _ := by rw [List.filter_append, htake]

theorem takeWhile_eq_filled_iff (separator : UInt8) (s : Bytes) :
    (listValues separator s).takeWhile (· ≠ []) = filled separator s ↔ EmptyAtEnd separator s := by
  rw [filled_split, List.self_eq_append_right, List.filter_eq_nil_iff]
  simp [EmptyAtEnd]

/-- every value of a field and its duplicates that is not empty -/
def allFilled (separator : UInt8) (s : Bytes) (dups : List (Option Bytes)) : List Bytes :=
  filled separator s ++ dups.flatMap fun d => filled separator (d.getD [])

theorem allFilled_cons (separator : UInt8) (s : Bytes) (d : Option Bytes) (dups : List (Option Bytes)) :
    allFilled separator s (d :: dups) = filled separator s ++ allFilled separator (d.getD []) dups := by
  rw [allFilled, allFilled, List.flatMap_cons]

theorem kept_sublist (separator : UInt8) (s : Bytes) (dups : List (Option Bytes)) :
    (kept separator s dups).Sublist (allFilled separator s dups) := by
  induction dups generalizing s with
  | nil => rw [kept, allFilled, List.flatMap_nil, List.append_nil]
  | cons d dups ih =>
    rw [kept, allFilled_cons, filled_split]
    exact (List.sublist_append_left _ _).append (ih (d.getD []))

theorem kept_eq_iff (separator : UInt8) (s : Bytes) (dups : List (Option Bytes)) :
    kept separator s dups = allFilled separator s dups ↔
      ∀ s' ∈ (s :: dups.map fun d => d.getD []).dropLast, EmptyAtEnd separator s' := by
  induction dups generalizing s with
  | nil => simp [kept, allFilled]
  | cons d dups ih =>
    rw [List.map_cons, List.dropLast_cons_cons, List.forall_mem_cons, ← ih, ← takeWhile_eq_filled_iff, kept, allFilled_cons]
    constructor
    · intro h
      rw [filled_split, List.append_assoc, List.append_cancel_left_eq] at h
      have hsub := (kept_sublist separator (d.getD []) dups).length_le
      have hlost : ((listValues separator s).dropWhile (· ≠ [])).filter (· ≠ []) = [] := by
        have hlength := congrArg List.length h
        rw [List.length_append] at hlength
        exact List.eq_nil_of_length_eq_zero (by omega)
      rw [hlost, List.nil_append] at h
      exact ⟨by rw [filled_split, hlost, List.append_nil], h⟩
    · intro ⟨hfield, hdups⟩
      rw [hfield, hdups]

/-! ## The iterator of a comma list -/

/-- Every value that is not empty is returned, in order, each once; and the null pointer comes. -/
def Complete (field : Option Bytes) (dups : List (Option Bytes)) : Prop :=
  ∃ ts, Returns comma true (getFirst comma true field dups) ts ∧ ts.filter (· ≠ []) = allFilled comma (field.getD []) dups

/-- there is nothing behind what the iterator takes for the end, of a field or of everything -/
def NothingBehindEnd (field : Option Bytes) (dups : List (Option Bytes)) : Prop :=
  match field with
  | none => allFilled comma [] dups = []
  | some s => ∀ s' ∈ (s :: dups.map fun d => d.getD []).dropLast, EmptyAtEnd comma s'

instance (separator : UInt8) (s : Bytes) : Decidable (EmptyAtEnd separator s) :=
  inferInstanceAs (Decidable (∀ v ∈ (listValues separator s).dropWhile (· ≠ []), v = []))

instance (field : Option Bytes) (dups : List (Option Bytes)) : Decidable (NothingBehindEnd field dups) :=
  match field with
  | none => inferInstanceAs (Decidable (allFilled comma [] dups = []))
  | some s => inferInstanceAs (Decidable (∀ s' ∈ (s :: dups.map fun d => d.getD []).dropLast, EmptyAtEnd comma s'))

/-- **The values of a comma list.** Without quotes the iterator returns every value exactly if nothing is behind what it takes for an end. -/
theorem csv_complete_iff {field : Option Bytes} {dups : List (Option Bytes)} (hquote : ∀ d ∈ field :: dups, dquote ∉ d.getD []) :
    Complete field dups ↔ NothingBehindEnd field dups := by
  obtain ⟨hfield, hdups⟩ := List.forall_mem_cons.mp hquote
  cases field with
  | none =>
    constructor
    · intro ⟨ts, hts, hfilter⟩
      obtain rfl := hts.unique (Returns.null rfl)
      exact hfilter.symm
    · intro hnone
      exact ⟨[], Returns.null rfl, hnone.symm⟩
  | some s =>
    obtain ⟨ts, hts, hfilter⟩ := returns_kept (by decide : isWs comma = false) dups hfield hdups
    constructor
    · intro ⟨us, hus, hall⟩
      obtain rfl := hts.unique hus
      exact (kept_eq_iff comma s dups).mp (hfilter.symm.trans hall)
    · intro hend
      exact ⟨ts, hts, hfilter.trans ((kept_eq_iff comma s dups).mpr hend)⟩

/-- in `max-age=1,,` and `no-store` there is nothing behind the empty values -/
theorem complete_two : Complete (some (text "max-age=1,,")) [some (text "no-store")] :=
  (csv_complete_iff (by decide +kernel)).mpr (by decide +kernel)

/-- Behind the empty value of the first field `no-store` is lost, and behind a first field without a value. -/
theorem value_lost :
    ¬ Complete (some (text "public,,no-store")) [some (text "max-age=1")] ∧ ¬ Complete none [some (text "no-store")] := by
  have hlost : ∀ field dups, (csvValues comma true field dups).filter (· ≠ []) ≠ allFilled comma (field.getD []) dups → ¬ Complete field dups := by
    intro field dups hne ⟨ts, hts, hall⟩
    rw [hts.unique (returns_csvValues comma true field dups)] at hall
    exact hne hall
  exact ⟨hlost _ _ (by decide +kernel), hlost _ _ (by decide +kernel)⟩

end TrafficServer.Hdrs.HdrCsv
