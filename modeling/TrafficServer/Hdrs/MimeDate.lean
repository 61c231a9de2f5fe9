/-
Dates in header fields (`mime_format_date` and `mime_parse_date` in `proxy/hdrs/MIME.cc`).

A day is turned into month, day and year by `mime_days_since_epoch_to_mdy_slowcase`, or by a table of the days around the start of the
server, which was filled with it. Years begin with March there: the days before a year are counted by a formula (`marchDays`), and the year is
guessed and refined. The parser looks for one of four forms and counts the days by the same formula.

`date_round_trip`: a time up to the end of 2037 that is printed and parsed is the same again, whenever the server was started.

The names of days and months are looked up by an automaton of a regular expression library if they are not three letters of the usual case;
it is a parameter. An `int` has the values it needs for these years.
-/
import TrafficServer.Hdrs.MimeNumber

namespace TrafficServer.Hdrs.MimeDate

open HttpParse MimeNumber

/-! ## Days -/

def DAYS_OFFSET : ℤ := 25508

/-- the month of a day of a year that begins with March, from 1 on -/
def months : List ℤ :=
  List.replicate 32 2 ++ List.replicate 30 3 ++ List.replicate 31 4 ++ List.replicate 30 5 ++ List.replicate 31 6 ++ List.replicate 31 7 ++
    List.replicate 30 8 ++ List.replicate 31 9 ++ List.replicate 30 10 ++ List.replicate 31 11 ++ List.replicate 31 0 ++ List.replicate 29 1

/-- the days of such a year before a month, less one -/
def days : List ℤ := [305, 336, -1, 30, 60, 91, 121, 152, 183, 213, 244, 274]

/-- the days of the years before one that begins with March -/
def marchDays (year : ℤ) : ℤ := year * 365 + year.tdiv 4 - year.tdiv 100 + (year.tdiv 100 + 3).tdiv 4

/-- `MDY` -/
structure Mdy where
  m : ℤ
  d : ℤ
  y : ℤ
deriving DecidableEq

/-- the loop that refines the guess: the year, and the days before the last one -/
def refineYear (mday : ℤ) : ℕ → ℤ → ℤ → ℤ × ℤ
  | 0, year, d => (year, d)
  | fuel + 1, year, d =>
    let dp := marchDays year - DAYS_OFFSET - 1
    if dp < mday then refineYear mday fuel (year + 1) dp else (year, d)

/-- none of the three is set for a bad date -/
def mimeDaysSinceEpochToMdySlowcase (daysSinceJan1_1970 : BitVec 32) : Option Mdy :=
  let mday := daysSinceJan1_1970.toInt
  let year := mday.tdiv 365 + 69
  let d := marchDays year - DAYS_OFFSET - 1
  let (year, d) := refineYear mday ((mday - d).toNat + 1) year d
  let d := mday - d
  if d < 0 ∨ 366 < d then none
  else
    let month := months.getD d.toNat 0
    let year := if month > 1 then year - 1 else year
    some ⟨month, d - days.getD month.toNat 0 - 1, year + 1900⟩

/-! ## The table -/

/-- a table of days that begins with `firstDay` -/
structure LookupTable where
  entries : List Mdy
  firstDay : BitVec 32
  lastDay : BitVec 32

/-- an entry has two bytes and a short -/
def Mdy.store (x : Mdy) : Mdy := ⟨x.m % 2 ^ 8, x.d % 2 ^ 8, x.y % 2 ^ 16⟩

/-- the loop that fills the table from day `first` on; behind a bad date the variables are those of the day before -/
def fillTable : ℕ → BitVec 32 → Mdy → List Mdy
  | 0, _, _ => []
  | n + 1, first, x =>
    let x := (mimeDaysSinceEpochToMdySlowcase first).getD x
    x.store :: fillTable n (first + 1) x

def mimeInitDateFormatTable (nowSecs : ℤ) : LookupTable :=
  let nowDays := BitVec.ofInt 32 (nowSecs.tdiv (60 * 60 * 24))
  let firstDays := nowDays - 366
  let lastDays := nowDays + 366
  let numDays := lastDays - firstDays + 1
  ⟨fillTable numDays.toInt.toNat firstDays ⟨0, 0, 0⟩, firstDays, lastDays⟩

def mimeDaysSinceEpochToMdy (table : LookupTable) (daysSinceJan1_1970 : BitVec 32) : Option Mdy :=
  if table.firstDay ≤ daysSinceJan1_1970 ∧ daysSinceJan1_1970 ≤ table.lastDay then
    table.entries[(daysSinceJan1_1970 - table.firstDay).toInt.toNat]?
  else mimeDaysSinceEpochToMdySlowcase daysSinceJan1_1970

/-! ## Printing -/

def daystrs : List Bytes := [text "Sun", text "Mon", text "Tue", text "Wed", text "Thu", text "Fri", text "Sat"]

def monthstrs : List Bytes :=
  [text "Jan", text "Feb", text "Mar", text "Apr", text "May", text "Jun", text "Jul", text "Aug", text "Sep", text "Oct", text "Nov",
    text "Dec"]

/-- `n + '0'` -/
def digitChar (n : ℤ) : UInt8 := UInt8.ofNat (n + 48).toNat

/-- the numbers up to 99 in two digits -/
def digitstrs : List Bytes := (List.range 100).map fun n => [digitChar (n / 10), digitChar (n % 10)]

/-- a byte of a string in a list of strings -/
def byteOf (strs : List Bytes) (i : ℤ) (j : ℕ) : UInt8 := (strs.getD i.toNat []).getD j 0

/-- the year in four digits -/
def yearDigits (year : ℤ) : Bytes :=
  if 2000 ≤ year ∧ year ≤ 2009 then [50, 48, 48, digitChar (year - 2000)]
  else if 1990 ≤ year ∧ year ≤ 1999 then [49, 57, 57, digitChar (year - 1990)]
  else
    [digitChar (((year.tdiv 10).tdiv 10).tdiv 10 |>.tmod 10), digitChar (((year.tdiv 10).tdiv 10).tmod 10), digitChar ((year.tdiv 10).tmod 10),
      digitChar (year.tmod 10)]

/-- the buffer up to the NUL; the values are ready -/
def dateText (wday hour min sec : ℤ) (x : Mdy) : Bytes :=
  [byteOf daystrs wday 0, byteOf daystrs wday 1, byteOf daystrs wday 2, 44, 32] ++
    [byteOf digitstrs x.d 0, byteOf digitstrs x.d 1, 32] ++
    [byteOf monthstrs x.m 0, byteOf monthstrs x.m 1, byteOf monthstrs x.m 2] ++
    [32, (yearDigits x.y).getD 0 0, (yearDigits x.y).getD 1 0, (yearDigits x.y).getD 2 0, (yearDigits x.y).getD 3 0, 32] ++
    [byteOf digitstrs hour 0, byteOf digitstrs hour 1, 58] ++ [byteOf digitstrs min 0, byteOf digitstrs min 1, 58] ++
    [byteOf digitstrs sec 0, byteOf digitstrs sec 1, 32] ++ [71, 77, 84]

/-- for times from 1970 on -/
def mimeFormatDate (table : LookupTable) (value : ℕ) : Bytes :=
  let sec := value % 60
  let value := value / 60
  let min := value % 60
  let value := value / 60
  let hour := value % 24
  let value := value / 24
  let wday := (4 + value) % 7
  let x := (mimeDaysSinceEpochToMdy table (BitVec.ofNat 32 value)).getD ⟨0, 0, 0⟩
  dateText wday hour min sec x

/-! ## Parsing -/

/-- what is read of `struct tm` -/
structure Tm where
  sec : ℤ
  min : ℤ
  hour : ℤ
  mday : ℤ
  mon : ℤ
  year : ℤ
deriving DecidableEq

def isAlpha (c : UInt8) : Bool := 65 ≤ c && c ≤ 90 || 97 ≤ c && c ≤ 122

/-- `buf[i]`, which has a sign -/
def charAt (buf : Bytes) (i : ℕ) : ℤ := (buf.getD i 0).toInt8.toInt

/-- `(buf[i] << 16) | (buf[i + 1] << 8) | buf[i + 2]` -/
def threeChars (buf : Bytes) (i : ℕ) : ℕ :=
  ((BitVec.ofInt 32 (charAt buf i) <<< 16) ||| (BitVec.ofInt 32 (charAt buf (i + 1)) <<< 8) ||| BitVec.ofInt 32 (charAt buf (i + 2))).toNat

/-- the binary search for the day of the week -/
def wdayOf (threeCharWday : ℕ) : ℤ :=
  if threeCharWday ≤ 0x53756E then
    if threeCharWday = 0x467269 then 5
    else if threeCharWday = 0x4D6F6E then 1
    else if threeCharWday = 0x536174 then 6
    else if threeCharWday = 0x53756E then 0
    else -1
  else
    if threeCharWday = 0x546875 then 4
    else if threeCharWday = 0x547565 then 2
    else if threeCharWday = 0x576564 then 3
    else -1

/-- the binary search for the month -/
def monOf (threeCharMon : ℕ) : ℤ :=
  if threeCharMon ≤ 0x4A756C then
    if threeCharMon ≤ 0x446563 then
      if threeCharMon = 0x417072 then 3
      else if threeCharMon = 0x417567 then 7
      else if threeCharMon = 0x446563 then 11
      else -1
    else
      if threeCharMon = 0x466562 then 1
      else if threeCharMon = 0x4A616E then 0
      else if threeCharMon = 0x4A756C then 6
      else -1
  else
    if threeCharMon ≤ 0x4D6179 then
      if threeCharMon = 0x4A756E then 5
      else if threeCharMon = 0x4D6172 then 2
      else if threeCharMon = 0x4D6179 then 4
      else -1
    else
      if threeCharMon = 0x4E6F76 then 10
      else if threeCharMon = 0x4F6374 then 9
      else if threeCharMon = 0x536570 then 8
      else -1

/-- two digits -/
def twoDigits (buf : Bytes) (i : ℕ) : ℤ := (charAt buf i - 48) * 10 + (charAt buf (i + 1) - 48)

section Parsing

-- `day_names_dfa->match` and `month_names_dfa->match`
variable (dayNamesDfa monthNamesDfa : Bytes → ℤ)

def mimeParseRfc822DateFastcase (buf : Bytes) : Option Tm :=
  let wday := wdayOf (threeChars buf 0)
  let wday := if wday < 0 then dayNamesDfa buf else wday
  if wday < 0 then none
  else
    let mon := monOf (threeChars buf 8)
    let mon := if mon < 0 then monthNamesDfa buf else mon
    if mon < 0 then none
    else
      let year := (charAt buf 12 - 48) * 1000 + (charAt buf 13 - 48) * 100 + (charAt buf 14 - 48) * 10 + (charAt buf 15 - 48) - 1900
      if charAt buf 19 ≠ 58 ∨ charAt buf 22 ≠ 58 then none
      else some ⟨twoDigits buf 23, twoDigits buf 20, twoDigits buf 17, twoDigits buf 5, mon, year⟩

/-- `mime_parse_day` and `mime_parse_month`, which differ in the automaton: the number of the name, and the text behind it -/
def mimeParseName (namesDfa : Bytes → ℤ) (buf : Bytes) : Option (ℤ × Bytes) :=
  let buf := buf.dropWhile fun c => c ≠ 0 && !isAlpha c
  let name := buf.takeWhile isAlpha
  if namesDfa name < 0 then none else some (namesDfa name, buf.drop name.length)

def mimeParseDay (buf : Bytes) : Option (ℤ × Bytes) := mimeParseName dayNamesDfa buf

def mimeParseMonth (buf : Bytes) : Option (ℤ × Bytes) := mimeParseName monthNamesDfa buf

def mimeParseMday (buf : Bytes) : Option (ℤ × Bytes) := mimeParseInteger buf

def mimeParseYear (buf : Bytes) : Option (ℤ × Bytes) :=
  match buf.dropWhile fun c => c ≠ 0 && !isDigit c with
  | [] => none
  | c :: t =>
    if c = 0 then none
    else
      let val := (addDigits (0 : BitVec 32) (c :: t)).toInt
      some (if val ≥ 1900 then val - 1900 else if val < 70 then val + 100 else val, (c :: t).dropWhile isDigit)

/-- the hour, the minute and the second, and the text behind them -/
def mimeParseTime (buf : Bytes) : Option ((ℤ × ℤ × ℤ) × Bytes) := do
  let (hour, buf) ← mimeParseInteger buf
  let (min, buf) ← mimeParseInteger buf
  let (sec, buf) ← mimeParseInteger buf
  return ((hour, min, sec), buf)

/-- the day of the month first -/
def parseMdayFirst (buf : Bytes) : Option Tm := do
  let (mday, buf) ← mimeParseMday buf
  let (mon, buf) ← mimeParseMonth monthNamesDfa buf
  let (year, buf) ← mimeParseYear buf
  let ((hour, min, sec), _) ← mimeParseTime buf
  return ⟨sec, min, hour, mday, mon, year⟩

/-- the form of `asctime` behind the day of the week -/
def parseAsctime (buf : Bytes) : Option Tm := do
  let (mon, buf) ← mimeParseMonth monthNamesDfa buf
  let (mday, buf) ← mimeParseMday buf
  let ((hour, min, sec), buf) ← mimeParseTime buf
  let (year, _) ← mimeParseYear buf
  return ⟨sec, min, hour, mday, mon, year⟩

/-- the four forms -/
def parseTm (buf : Bytes) : Option Tm :=
  if buf.head?.any isDigit then parseMdayFirst monthNamesDfa buf
  else if buf.length ≥ 29 ∧ buf.getD 3 0 = 44 then mimeParseRfc822DateFastcase dayNamesDfa monthNamesDfa buf
  else do
    let (_, buf) ← mimeParseDay dayNamesDfa buf
    let buf := buf.dropWhile isWs
    if buf.head?.any fun c => c = 44 || isDigit c then parseMdayFirst monthNamesDfa buf else parseAsctime monthNamesDfa buf

/-- the time in seconds -/
def Tm.time (tp : Tm) : ℤ :=
  if tp.year > 137 then 2 ^ 31 - 1
  else if tp.year < 70 then 0
  else
    let mday := tp.mday + days.getD tp.mon.toNat 0
    let year := if tp.mon < 2 then tp.year - 1 else tp.year
    let mday := mday + marchDays year - DAYS_OFFSET
    (((mday * 24 + tp.hour) * 60 + tp.min) * 60 + tp.sec).bmod (2 ^ 32)

def mimeParseDate (buf : Bytes) : ℤ :=
  match parseTm dayNamesDfa monthNamesDfa (buf.dropWhile isWs) with
  | none => 0
  | some tp => tp.time

end Parsing

/-! ## Years -/

theorem marchDays_eq {year : ℤ} (h : 0 ≤ year) : marchDays year = year * 365 + year / 4 - year / 100 + (year / 100 + 3) / 4 := by
  have hcentury : 0 ≤ year / 100 + 3 := by omega
  rw [marchDays, Int.tdiv_eq_ediv_of_nonneg h, Int.tdiv_eq_ediv_of_nonneg h, Int.tdiv_eq_ediv_of_nonneg hcentury]

/-- a year has 365 or 366 days -/
theorem marchDays_succ {year : ℤ} (h : 0 ≤ year) :
    marchDays year + 365 ≤ marchDays (year + 1) ∧ marchDays (year + 1) ≤ marchDays year + 366 := by
  rw [marchDays_eq h, marchDays_eq (by omega)]
  omega

/-- the loop ends with the year in which the day lies -/
theorem refineYear_spec {mday year d : ℤ} {fuel : ℕ} (hyear : 0 < year) (hd : d = marchDays (year - 1) - DAYS_OFFSET - 1) (hlt : d < mday)
    (hfuel : mday - d ≤ 365 * fuel) :
    ∃ y, year ≤ y ∧ refineYear mday fuel year d = (y, marchDays (y - 1) - DAYS_OFFSET - 1) ∧
      marchDays (y - 1) - DAYS_OFFSET - 1 < mday ∧ mday ≤ marchDays y - DAYS_OFFSET - 1 := by
  induction fuel generalizing year d with
  | zero => exact absurd hfuel (by push_cast; omega)
  | succ fuel ih =>
    have hstep := (@marchDays_succ (year - 1) (by omega)).1
    rw [sub_add_cancel] at hstep
    rw [refineYear]
    by_cases hgo : marchDays year - DAYS_OFFSET - 1 < mday
    · have hdp : marchDays year - DAYS_OFFSET - 1 = marchDays (year + 1 - 1) - DAYS_OFFSET - 1 := by rw [add_sub_cancel_right]
      obtain ⟨y, hle, hrun, hbounds⟩ := ih (by omega) hdp hgo (by push_cast at hfuel; omega)
      rw [if_pos hgo, hrun]
      exact ⟨y, by omega, rfl, hbounds⟩
    · rw [if_neg hgo]
      exact ⟨year, le_refl _, by rw [hd], hd ▸ hlt, not_lt.mp hgo⟩

/-- the months of a year that begins with March; January begins with day 307 -/
theorem months_zipIdx : ∀ p ∈ months.zipIdx, 1 ≤ p.2 → (0 ≤ p.1 ∧ p.1 < 12) ∧
    (1 ≤ (p.2 : ℤ) - days.getD p.1.toNat 0 - 1 ∧ (p.2 : ℤ) - days.getD p.1.toNat 0 - 1 ≤ 31) ∧ (p.1 > 1 ↔ p.2 < 307) := by
  decide +kernel

theorem months_spec {i : ℕ} (hi : i < 367) (hpos : 1 ≤ i) : (0 ≤ months.getD i 0 ∧ months.getD i 0 < 12) ∧
    (1 ≤ (i : ℤ) - days.getD (months.getD i 0).toNat 0 - 1 ∧ (i : ℤ) - days.getD (months.getD i 0).toNat 0 - 1 ≤ 31) ∧
    (months.getD i 0 > 1 ↔ i < 307) := by
  have hlength : i < months.length := by
    simp only [months, List.length_append, List.length_replicate]
    exact hi
  have hget : months[i]? = some (months.getD i 0) := by
    rw [List.getD_eq_getElem _ _ hlength]
    exact List.getElem?_eq_getElem hlength
  apply months_zipIdx (months.getD i 0, i) _ hpos
  exact List.mem_zipIdx_iff_getElem?.mpr hget

/-- a date that can be printed and is counted to its day -/
structure IsDate (x : Mdy) (mday : ℤ) : Prop where
  month : 0 ≤ x.m ∧ x.m < 12
  day : 1 ≤ x.d ∧ x.d ≤ 31
  year : 1970 ≤ x.y ∧ x.y ≤ 2037
  count : x.d + days.getD x.m.toNat 0 + marchDays (if x.m < 2 then x.y - 1900 - 1 else x.y - 1900) - DAYS_OFFSET = mday

/-- a day up to the end of 2037 -/
theorem slowcase_spec {n : ℕ} (hn : n < 24837) :
    ∃ x, mimeDaysSinceEpochToMdySlowcase (BitVec.ofNat 32 n) = some x ∧ IsDate x n := by
  have hmday : (BitVec.ofNat 32 n).toInt = n := by
    rw [BitVec.toInt_eq_toNat_of_lt] <;> rw [BitVec.toNat_ofNat] <;> omega
  obtain ⟨year, hyear⟩ : ∃ year, year = (n : ℤ).tdiv 365 + 69 := ⟨_, rfl⟩
  have hyear' : year = n / 365 + 69 := by rw [hyear, Int.tdiv_eq_ediv_of_nonneg (Int.natCast_nonneg n)]
  have hguess : marchDays year - DAYS_OFFSET - 1 < n := by
    rw [marchDays_eq (by omega), DAYS_OFFSET]
    omega
  have hstart : marchDays year - DAYS_OFFSET - 1 = marchDays (year + 1 - 1) - DAYS_OFFSET - 1 := by rw [add_sub_cancel_right]
  have hfuel : (n : ℤ) - (marchDays year - DAYS_OFFSET - 1) ≤ 365 * ((n - (marchDays year - DAYS_OFFSET - 1)).toNat : ℕ) := by omega
  obtain ⟨y, hle, hrun, hbefore, hbehind⟩ := refineYear_spec (by omega) hstart hguess hfuel
  have hlength := (@marchDays_succ (y - 1) (by omega)).2
  rw [sub_add_cancel] at hlength
  -- the day of the year that begins with March
  obtain ⟨i, hi⟩ : ∃ i : ℕ, (n : ℤ) - (marchDays (y - 1) - DAYS_OFFSET - 1) = i := Int.eq_ofNat_of_zero_le (by omega)
  have hpos : 1 ≤ i := by omega
  have hle366 : i ≤ 366 := by omega
  obtain ⟨hmonth, hday, hjanuary⟩ := months_spec (Nat.lt_succ_of_le hle366) hpos
  have hslow : mimeDaysSinceEpochToMdySlowcase (BitVec.ofNat 32 n) =
      some ⟨months.getD i 0, i - days.getD (months.getD i 0).toNat 0 - 1, (if months.getD i 0 > 1 then y - 1 else y) + 1900⟩ := by
    have hbad : ¬ ((i : ℤ) < 0 ∨ 366 < (i : ℤ)) := by omega
    rw [mimeDaysSinceEpochToMdySlowcase, hmday, ← hyear]
    simp only [refineYear, if_pos hguess, hrun, hi, if_neg hbad, Int.toNat_natCast]
  have hday1 : marchDays (y - 1) = n - i + DAYS_OFFSET + 1 := by omega
  refine ⟨_, hslow, hmonth, hday, ?_, ?_⟩
  · have hcount := @marchDays_eq (y - 1) (by omega)
    rw [hday1, DAYS_OFFSET] at hcount
    dsimp only
    have hupper : y ≤ 138 := by omega
    by_cases hm : months.getD i 0 > 1
    · -- of the year from March 1969 on only January and February are left
      have hne : y ≠ 70 := by
        rintro rfl
        omega
      rw [if_pos hm]
      omega
    · -- January of 2038 is too late
      have hne : y ≠ 138 := by
        rintro rfl
        omega
      rw [if_neg hm]
      omega
  · dsimp only
    by_cases hm : months.getD i 0 > 1
    · rw [if_pos hm, if_neg (by omega), show y - 1 + 1900 - 1900 = y - 1 by ring, hday1]
      ring
    · rw [if_neg hm, if_pos (by omega), show y + 1900 - 1900 - 1 = y - 1 by ring, hday1]
      ring

theorem IsDate.store {x : Mdy} {mday : ℤ} (h : IsDate x mday) : x.store = x := by
  obtain ⟨hm, hd, hy, -⟩ := h
  have hmonth : x.m % 2 ^ 8 = x.m := Int.emod_eq_of_lt hm.1 (by omega)
  have hday : x.d % 2 ^ 8 = x.d := Int.emod_eq_of_lt (by omega) (by omega)
  have hyear : x.y % 2 ^ 16 = x.y := Int.emod_eq_of_lt (by omega) (by omega)
  rw [Mdy.store, hmonth, hday, hyear]

/-! ## The table has what the slow case gives -/

theorem fillTable_getElem {n i : ℕ} {first : BitVec 32} {x x₀ : Mdy} (hi : i < n)
    (h : mimeDaysSinceEpochToMdySlowcase (first + BitVec.ofNat 32 i) = some x) : (fillTable n first x₀)[i]? = some x.store := by
  induction n generalizing i first x₀ with
  | zero => exact absurd hi (Nat.not_lt_zero i)
  | succ n ih =>
    rw [fillTable]
    cases i with
    | zero =>
      have hfirst : first + BitVec.ofNat 32 0 = first := BitVec.add_zero first
      rw [hfirst] at h
      simp only [List.getElem?_cons_zero, h, Option.getD_some]
    | succ i =>
      have hnext : first + 1 + BitVec.ofNat 32 i = first + BitVec.ofNat 32 (i + 1) := by
        rw [BitVec.ofNat_add, BitVec.add_assoc, BitVec.add_comm (BitVec.ofNat 32 i)]
        rfl
      rw [List.getElem?_cons_succ]
      exact ih (Nat.lt_of_succ_lt_succ hi) (hnext.symm ▸ h)

/-- whichever days the table has -/
theorem mimeDaysSinceEpochToMdy_eq (nowSecs : ℤ) {day : BitVec 32} {x : Mdy} (h : mimeDaysSinceEpochToMdySlowcase day = some x)
    (hx : x.store = x) : mimeDaysSinceEpochToMdy (mimeInitDateFormatTable nowSecs) day = some x := by
  rw [mimeDaysSinceEpochToMdy]
  by_cases hin : (mimeInitDateFormatTable nowSecs).firstDay ≤ day ∧ day ≤ (mimeInitDateFormatTable nowSecs).lastDay
  · rw [if_pos hin]
    obtain ⟨now, hnow⟩ : ∃ now, now = BitVec.ofInt 32 (nowSecs.tdiv (60 * 60 * 24)) := ⟨_, rfl⟩
    have hcount : (now + 366 - (now - 366) + 1).toInt.toNat = 733 := by
      have hring : now + 366 - (now - 366) + 1 = 733 := by ring
      rw [hring]
      rfl
    simp only [mimeInitDateFormatTable, ← hnow, hcount] at hin ⊢
    obtain ⟨hfirst, hlast⟩ := hin
    have hwindow : now + 366 = now - 366 + 732 := by ring
    rw [hwindow] at hlast
    generalize now - 366 = first at *
    have hoff : (day - first).toNat = day.toNat - first.toNat := BitVec.toNat_sub_of_le hfirst
    have hlt : day.toNat - first.toNat < 733 := by
      rw [BitVec.le_def] at hfirst hlast
      rw [BitVec.toNat_add] at hlast
      have hword : (732 : BitVec 32).toNat = 732 := rfl
      have := first.isLt
      omega
    have hint : (day - first).toInt.toNat = day.toNat - first.toNat := by
      rw [BitVec.toInt_eq_toNat_of_lt (by omega), hoff, Int.toNat_natCast]
    have hday : first + BitVec.ofNat 32 (day.toNat - first.toNat) = day := by
      rw [← hoff, BitVec.ofNat_toNat, BitVec.setWidth_eq]
      ring
    rw [hint, fillTable_getElem hlt (hday.symm ▸ h), hx]
  · rw [if_neg hin, h]

/-! ## What is printed is parsed -/

theorem daystrs_spec : ∀ w : ℕ, w < 7 → isWs (byteOf daystrs w 0) = false ∧ isDigit (byteOf daystrs w 0) = false ∧
    0 ≤ wdayOf (threeChars [byteOf daystrs w 0, byteOf daystrs w 1, byteOf daystrs w 2] 0) := by
  decide

theorem monthstrs_spec : ∀ m : ℕ, m < 12 →
    monOf (threeChars [byteOf monthstrs m 0, byteOf monthstrs m 1, byteOf monthstrs m 2] 0) = m := by
  decide

theorem digitstrs_spec : ∀ n : ℕ, n < 100 → twoDigits [byteOf digitstrs n 0, byteOf digitstrs n 1] 0 = n := by
  decide

theorem yearDigits_spec : ∀ k : ℕ, k < 68 → (charAt (yearDigits (1970 + k)) 0 - 48) * 1000 + (charAt (yearDigits (1970 + k)) 1 - 48) * 100 +
    (charAt (yearDigits (1970 + k)) 2 - 48) * 10 + (charAt (yearDigits (1970 + k)) 3 - 48) = 1970 + k := by
  decide

section RoundTrip

variable (dayNamesDfa monthNamesDfa : Bytes → ℤ)

/-- the automata are not needed -/
theorem fastcase_dateText {w hour min sec : ℕ} {x : Mdy} {n : ℤ} (hw : w < 7) (hhour : hour < 100) (hmin : min < 100) (hsec : sec < 100)
    (hx : IsDate x n) :
    mimeParseRfc822DateFastcase dayNamesDfa monthNamesDfa (dateText w hour min sec x) = some ⟨sec, min, hour, x.d, x.m, x.y - 1900⟩ := by
  obtain ⟨hm, hd, hy, -⟩ := hx
  obtain ⟨m, hm'⟩ : ∃ m : ℕ, x.m = m := Int.eq_ofNat_of_zero_le hm.1
  obtain ⟨d, hd'⟩ : ∃ d : ℕ, x.d = d := Int.eq_ofNat_of_zero_le (by omega)
  obtain ⟨k, hy'⟩ : ∃ k : ℕ, x.y = 1970 + k := ⟨(x.y - 1970).toNat, by omega⟩
  have hwday : ¬ wdayOf (threeChars (dateText w hour min sec x) 0) < 0 := not_lt.mpr (daystrs_spec w hw).2.2
  have hmon : monOf (threeChars (dateText w hour min sec x) 8) = x.m := by
    calc monOf (threeChars (dateText w hour min sec x) 8)
        = monOf (threeChars [byteOf monthstrs x.m 0, byteOf monthstrs x.m 1, byteOf monthstrs x.m 2] 0) := rfl
      _ = x.m := by
        rw [hm']
        exact monthstrs_spec m (by omega)
  have hmday : twoDigits (dateText w hour min sec x) 5 = x.d := by
    calc twoDigits (dateText w hour min sec x) 5
        = twoDigits [byteOf digitstrs x.d 0, byteOf digitstrs x.d 1] 0 := rfl
      _ = x.d := by
        rw [hd']
        exact digitstrs_spec d (by omega)
  have hyear : (charAt (dateText w hour min sec x) 12 - 48) * 1000 + (charAt (dateText w hour min sec x) 13 - 48) * 100 +
      (charAt (dateText w hour min sec x) 14 - 48) * 10 + (charAt (dateText w hour min sec x) 15 - 48) = x.y := by
    rw [hy', ← yearDigits_spec k (by omega), ← hy']
    rfl
  have hhour' : twoDigits (dateText w hour min sec x) 17 = hour := digitstrs_spec hour hhour
  have hmin' : twoDigits (dateText w hour min sec x) 20 = min := digitstrs_spec min hmin
  have hsec' : twoDigits (dateText w hour min sec x) 23 = sec := digitstrs_spec sec hsec
  have hcolons : ¬ (charAt (dateText w hour min sec x) 19 ≠ 58 ∨ charAt (dateText w hour min sec x) 22 ≠ 58) := by
    intro h
    exact h.elim (fun h19 => h19 rfl) fun h22 => h22 rfl
  simp only [mimeParseRfc822DateFastcase, if_neg hwday, hmon, if_neg (not_lt.mpr hm.1), if_neg hcolons, hmday, hhour', hmin', hsec', hyear]

theorem mimeParseDate_dateText {w hour min sec : ℕ} {x : Mdy} {n : ℤ} (hw : w < 7) (hhour : hour < 100) (hmin : min < 100)
    (hsec : sec < 100) (hx : IsDate x n) :
    mimeParseDate dayNamesDfa monthNamesDfa (dateText w hour min sec x) = Tm.time ⟨sec, min, hour, x.d, x.m, x.y - 1900⟩ := by
  obtain ⟨hws, hdigit, -⟩ := daystrs_spec w hw
  have hhead : dateText w hour min sec x = byteOf daystrs w 0 :: (dateText w hour min sec x).tail := rfl
  have hdrop : (dateText w hour min sec x).dropWhile isWs = dateText w hour min sec x := by
    rw [hhead]
    exact List.dropWhile_cons_of_neg (by simp [hws])
  have hfirst : (dateText w hour min sec x).head?.any isDigit = false := hdigit
  have hform : (dateText w hour min sec x).length ≥ 29 ∧ (dateText w hour min sec x).getD 3 0 = 44 := ⟨le_refl 29, rfl⟩
  rw [mimeParseDate, hdrop, parseTm, hfirst, if_neg (by decide), if_pos hform,
    fastcase_dateText dayNamesDfa monthNamesDfa hw hhour hmin hsec hx]

/-- the seconds of a day that is counted right -/
theorem time_eq {x : Mdy} {day hour min sec : ℕ} (hx : IsDate x day) (ht : ((day * 24 + hour) * 60 + min) * 60 + sec < 2 ^ 31) :
    Tm.time ⟨sec, min, hour, x.d, x.m, x.y - 1900⟩ = ((day * 24 + hour) * 60 + min) * 60 + sec := by
  have hlate : ¬ (x.y - 1900 > 137) := by
    have := hx.year.2
    omega
  have hearly : ¬ (x.y - 1900 < 70) := by
    have := hx.year.1
    omega
  rw [Tm.time]
  simp only [if_neg hlate, if_neg hearly, hx.count]
  exact Int.bmod_eq_of_le_mul_two (by push_cast; omega) (by push_cast; omega)

/-- **Date round trip.** A time up to the end of 2037 is printed and parsed, whenever the server was started. -/
theorem date_round_trip (nowSecs : ℤ) {t : ℕ} (ht : t < 2145916800) :
    mimeParseDate dayNamesDfa monthNamesDfa (mimeFormatDate (mimeInitDateFormatTable nowSecs) t) = t := by
  have hday : t / 60 / 60 / 24 < 24837 := by omega
  obtain ⟨x, hslow, hx⟩ := slowcase_spec hday
  rw [mimeFormatDate]
  simp only [mimeDaysSinceEpochToMdy_eq nowSecs hslow hx.store, Option.getD_some]
  have hweek : (4 + t / 60 / 60 / 24) % 7 < 7 := Nat.mod_lt _ (by decide)
  have hhour : t / 60 / 60 % 24 < 100 := by omega
  have hmin : t / 60 % 60 < 100 := by omega
  have hsec : t % 60 < 100 := by omega
  have hsum : ((t / 60 / 60 / 24 * 24 + t / 60 / 60 % 24) * 60 + t / 60 % 60) * 60 + t % 60 = t := by omega
  rw [mimeParseDate_dateText dayNamesDfa monthNamesDfa hweek hhour hmin hsec hx, time_eq hx (by omega)]
  exact_mod_cast hsum

end RoundTrip

/-- a date of the tests -/
theorem date_1994 : mimeFormatDate (mimeInitDateFormatTable 0) 784111777 = text "Sun, 06 Nov 1994 08:49:37 GMT" ∧
    mimeParseDate (fun _ => -1) (fun _ => -1) (mimeFormatDate (mimeInitDateFormatTable 0) 784111777) = (784111777 : ℕ) :=
  ⟨by decide +kernel, date_round_trip (fun _ => -1) (fun _ => -1) 0 (by decide)⟩

end TrafficServer.Hdrs.MimeDate
