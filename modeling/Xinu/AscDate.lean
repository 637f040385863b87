/-
# Printing a date (`ascdate.c`, `date.h`)

`ascdate` takes years, months and days off a count of seconds, and computes the day of the week by a
formula.  Then it adds the hour of daylight saving time.  When that leads into the next day, the day
and the month are corrected, but the day of the week, the year and February 29 are not.

So the date is right if and only if it is not the last hour of a day (in standard time) to which
daylight saving time applies (`ascdate_right_iff`).

The specification is the calendar of the library, in which a date and its day number determine
each other.  So the code's loops are compared with the date of an instant, the formula for the
weekday with the day number modulo 7, and the test for daylight saving time with the two Sundays
it is about.
-/
import Xinu.IntegerFormat
import Xinu.Lib.Calendar

namespace Xinu

open Gregorian Numerals

/-! ## 1. The code

The local variables of `ascdate` are a record, so that what it computes before the hour of
daylight saving time and what that hour changes can be told apart. -/

abbrev SECPERDY : Nat := 86400
abbrev SECPERHR : Nat := 3600
abbrev SECPERMN : Nat := 60

/-- `Date.dt_daylight`. -/
inductive DateDst
  | DATE_DST_OFF
  | DATE_DST_ON
  | DATE_DST_AUTO
  deriving DecidableEq

def dt_msize (month : Nat) : Nat := [31, 28, 31, 30, 31, 30, 31, 31, 30, 31, 30, 31].getD month 0

def dt_mnam : List (List Char) :=
  [['J', 'a', 'n'], ['F', 'e', 'b'], ['M', 'a', 'r'], ['A', 'p', 'r'], ['M', 'a', 'y'],
    ['J', 'u', 'n'], ['J', 'u', 'l'], ['A', 'u', 'g'], ['S', 'e', 'p'], ['O', 'c', 't'],
    ['N', 'o', 'v'], ['D', 'e', 'c']]

def dt_dnam : List (List Char) :=
  [['S', 'u', 'n'], ['M', 'o', 'n'], ['T', 'u', 'e'], ['W', 'e', 'd'], ['T', 'h', 'u'],
    ['F', 'r', 'i'], ['S', 'a', 't']]

/-- The names of the months; behind them in memory are those of the days. -/
def monthName (month : Nat) : List UInt8 := ((dt_mnam ++ dt_dnam).getD month []).map ch

def dayName (dayofweek : Nat) : List UInt8 := (dt_dnam.getD dayofweek []).map ch

/-- `zones` and `dzones` at `TIMEZONE-5`. -/
def zoneName (dst : Bool) : List UInt8 :=
  (if dst then ['E', 'D', 'T'] else ['E', 'S', 'T']).map ch

/-- The macro of `date.h`. -/
def isleap (x : Nat) : Prop := x % 4 = 0

instance (x : Nat) : Decidable (isleap x) := inferInstanceAs (Decidable (_ = _))

/-- The local variables that hold the parts of the date. -/
structure DateParts where
  year : Nat
  month : Nat
  day : Nat
  hour : Nat
  minute : Nat
  second : Nat
  dayofweek : Nat
  jan1 : Nat

/-- The loop over the years; a `uint32` has fewer seconds than 137 of them. -/
def passYears (now : Nat) : Nat × Nat :=
  passed (fun year => (if isleap year then 366 else 365) * SECPERDY) 137 1970 now

/-- The loop over the months. -/
def passMonths (year now : Nat) : Nat × Nat :=
  passed (fun month => dt_msize month * SECPERDY +
    if month = 1 ∧ isleap year then SECPERDY else 0) 12 0 now

/-- `ascdate` up to daylight saving time. -/
def dateParts (now : Nat) : DateParts :=
  let years := passYears now
  let year := years.1
  let now := years.2
  let days := now / SECPERDY
  let months := passMonths year now
  let now := months.2
  let day := now / SECPERDY + 1
  let now := now % SECPERDY
  let hour := now / SECPERHR
  let now := now % SECPERHR
  let minute := now / SECPERMN
  let second := now % SECPERMN
  let leapyrs := (year - 1969) / 4
  let shift := 4 + (year - 1970) + leapyrs
  ⟨year, months.1, day, hour, minute, second, (shift + days) % 7, shift % 7⟩

/-- Whether daylight saving time is on. -/
def isDst (dt_daylight : DateDst) (c : DateParts) : Bool :=
  match dt_daylight with
  | .DATE_DST_OFF => false
  | .DATE_DST_ON => true
  | .DATE_DST_AUTO =>
    let mar1 := (c.jan1 + dt_msize 0 + dt_msize 1 + if isleap c.year then 1 else 0) % 7
    let marss := if mar1 = 0 then 8 else 15 - mar1
    let nov1 := (c.jan1 + ((List.range 10).map dt_msize).sum + if isleap c.year then 1 else 0) % 7
    let novfs := if nov1 = 0 then 1 else 8 - nov1
    if c.month = 11 ∨ c.month = 0 ∨ c.month = 1 then false
    else if c.month > 2 ∧ c.month < 10 then true
    else if c.month = 2 then c.day > marss ∨ (c.day = marss ∧ c.hour ≥ 2)
    else ¬ (c.day > novfs ∨ (c.day = novfs ∧ c.hour ≥ 1))

/-- Move ahead one hour. -/
def DateParts.ahead (c : DateParts) : DateParts :=
  let hour := c.hour + 1
  if hour > 23 then
    let day := c.day + 1
    if day > dt_msize c.month then { c with hour := 0, day := 1, month := c.month + 1 }
    else { c with hour := 0, day := day }
  else { c with hour := hour }

/-- `"%3s  %3s %2d  %2d:%02d:%02d %s %d"`. -/
def dateFormat : List UInt8 :=
  ['%', '3', 's', ' ', ' ', '%', '3', 's', ' ', '%', '2', 'd', ' ', ' ', '%', '2', 'd', ':',
    '%', '0', '2', 'd', ':', '%', '0', '2', 'd', ' ', '%', 's', ' ', '%', 'd'].map ch

/-- `ascdate.c`: what it prints to `str`. -/
def ascdate (dt_daylight : DateDst) (now : Nat) : Option (List UInt8) :=
  let c := dateParts now
  let dst := isDst dt_daylight c
  let c := if dst then c.ahead else c
  fdoprnt dateFormat [.str (some (dayName c.dayofweek)), .str (some (monthName c.month)),
    .word (BitVec.ofNat 32 c.day), .word (BitVec.ofNat 32 c.hour), .word (BitVec.ofNat 32 c.minute),
    .word (BitVec.ofNat 32 c.second), .str (some (zoneName dst)), .word (BitVec.ofNat 32 c.year)]

/-! ## 2. What is printed

The format has fixed widths, and the numbers in it are small.  So what `sprintf` writes is the
text of the date, whatever the date is. -/

def padLeft (width : Nat) (fill : UInt8) (s : List UInt8) : List UInt8 :=
  List.replicate (width - s.length) fill ++ s

/-- A number in decimal. -/
def decimalText (n : Nat) : List UInt8 := (numeral 10 n).map Conv.d.digit

/-- The text of a date and a time. -/
def dateText (weekday month : List UInt8) (day hour minute second : Nat) (zone : List UInt8)
    (year : Nat) : List UInt8 :=
  padLeft 3 (ch ' ') weekday ++ [ch ' ', ch ' '] ++ padLeft 3 (ch ' ') month ++ [ch ' '] ++
    padLeft 2 (ch ' ') (decimalText day) ++ [ch ' ', ch ' '] ++
    padLeft 2 (ch ' ') (decimalText hour) ++ [ch ':'] ++
    padLeft 2 (ch '0') (decimalText minute) ++ [ch ':'] ++
    padLeft 2 (ch '0') (decimalText second) ++ [ch ' '] ++ zone ++ [ch ' '] ++ decimalText year

variable {n : Nat} {fmt : List UInt8} {ap : List Arg} {s : List UInt8} {v : Nat}

/-- A decimal that is not negative. -/
theorem Fdoprnt.convert_nat (hv : v < 2 ^ 31) (fld : Field) :
    Fdoprnt.convert (ch 'd') fld (.word (BitVec.ofNat 32 v) :: ap) =
      some (⟨decimalText v, false, fld.fill, fld.fmax⟩, ap) := by
  have hint : (BitVec.ofNat 32 v).toInt = v := by
    rw [BitVec.toInt_eq_toNat_bmod, BitVec.toNat_ofNat, Nat.mod_eq_of_lt (by omega)]
    exact Int.bmod_eq_of_le (by omega) (by omega)
  have hdigits : Conv.d.digits (BitVec.ofNat 32 v) = decimalText v := by
    rw [Conv.digits, Conv.magnitude, if_pos rfl, hint, decimalText]
    rfl
  have hstring : inString (decimalText v) = some (decimalText v) := by
    rw [← hdigits, inString_digits, if_pos ((Conv.d.digits_fit_iff _).mpr (by simp))]
  have hprt : Fdoprnt.prtl10 v = decimalText v := Fdoprnt.prtl10_eq (by omega)
  rw [Fdoprnt.convert, if_pos rfl]
  simp only [argWord, Option.bind_eq_bind, Option.bind_some, hint]
  rw [if_neg (by omega), hprt, hstring]
  simp

/-- A character that is written as it is. -/
theorem format_plain {c : UInt8} (hc : c ≠ ch '%') :
    format Fdoprnt.convert (n + 1) (c :: fmt) ap =
      (format Fdoprnt.convert n fmt ap).map (c :: ·) := by
  rw [format, if_pos hc]

/-- A string, in a width of at most 80. -/
theorem putField_string (w : Nat) (hw : w ≤ 80) (s : List UInt8) :
    putField false w ⟨s, false, ch ' ', 0⟩ = padLeft w (ch ' ') s := by
  have h := putField_eq false false w s [] false rfl
  simp only [Bool.false_eq_true, if_false] at h
  rw [h, padding, MAXSTR, if_neg (by omega)]
  simp [padLeft]

/-- A number with zeros in front. -/
theorem putField_zeros (w : Nat) (hw : w ≤ 80) (s : List UInt8) :
    putField false w ⟨s, false, ch '0', 0⟩ = padLeft w (ch '0') s := by
  have h := putField_eq false true w s [] false rfl
  simp only [if_true] at h
  rw [h, padding, MAXSTR, if_neg (by omega)]
  simp [padLeft]

/-- A conversion with a width, and with zeros or blanks in front. -/
theorem field_width (zero : Bool) {ds : List UInt8} {f : UInt8}
    (hds : ∀ c ∈ ds, ch '0' ≤ c ∧ c ≤ ch '9') (h0 : ds.head? ≠ some (ch '0'))
    (hf : ¬ (ch '0' ≤ f ∧ f ≤ ch '9'))
    (hmark : f ≠ ch '-' ∧ f ≠ ch '*' ∧ f ≠ ch '.' ∧ f ≠ ch '%') :
    let rest := (if zero then [ch '0'] else []) ++ (ds ++ f :: fmt)
    rest.head? ≠ some (ch '%') ∧ field rest ap =
      some (⟨false, if zero then ch '0' else ch ' ', (number ds 0).1, 0⟩, f :: fmt, ap) := by
  intro rest
  have hdigit : ∀ c, (ch '0' ≤ c ∧ c ≤ ch '9') → c ≠ ch '-' ∧ c ≠ ch '*' ∧ c ≠ ch '%' := by
    rintro c hc
    refine ⟨?_, ?_, ?_⟩ <;> rintro rfl <;> exact absurd hc (by decide)
  -- what the text after the flags starts with
  have hhead : ∀ c, (ds ++ f :: fmt).head? = some c →
      c ≠ ch '-' ∧ c ≠ ch '*' ∧ c ≠ ch '%' ∧ c ≠ ch '0' := by
    intro c hc
    cases ds with
    | nil =>
      obtain rfl : f = c := Option.some.inj hc
      refine ⟨hmark.1, hmark.2.1, hmark.2.2.2, ?_⟩
      rintro rfl
      exact hf (by decide)
    | cons d ds =>
      obtain rfl : d = c := Option.some.inj hc
      obtain ⟨h1, h2, h3⟩ := hdigit d (hds d List.mem_cons_self)
      exact ⟨h1, h2, h3, fun h => h0 (congrArg some h)⟩
  have hrest : ∀ c, rest.head? = some c → c ≠ ch '-' ∧ c ≠ ch '%' := by
    intro c hc
    cases zero with
    | false => exact ⟨(hhead c hc).1, (hhead c hc).2.2.1⟩
    | true =>
      obtain rfl : ch '0' = c := Option.some.inj hc
      decide
  have hminus : skip (ch '-') rest = (false, rest) := skip_of_ne fun h => (hrest _ h).1 rfl
  have hzero : skip (ch '0') rest = (zero, ds ++ f :: fmt) :=
    skip_flag zero fun h => (hhead _ h).2.2.2 rfl
  have hsize : size (ds ++ f :: fmt) ap = some ((number ds 0).1, f :: fmt, ap) := by
    rw [size, if_neg fun h => (hhead _ h).2.1 rfl, number_append hds hf]
  have hpoint : skip (ch '.') (f :: fmt) = (false, f :: fmt) :=
    skip_of_ne fun h => hmark.2.2.1 (Option.some.inj h)
  refine ⟨fun h => (hrest _ h).2 rfl, ?_⟩
  rw [field, hminus]
  simp only [hzero, hsize, Option.bind_eq_bind, Option.bind_some, hpoint]
  rfl

/-- What is written for it. -/
theorem format_width (zero : Bool) {ds : List UInt8} {f : UInt8} {cv : Converted}
    {ap' : List Arg} (hds : ∀ c ∈ ds, ch '0' ≤ c ∧ c ≤ ch '9') (h0 : ds.head? ≠ some (ch '0'))
    (hf : ¬ (ch '0' ≤ f ∧ f ≤ ch '9'))
    (hmark : f ≠ ch '-' ∧ f ≠ ch '*' ∧ f ≠ ch '.' ∧ f ≠ ch '%')
    (hcv : Fdoprnt.convert f ⟨false, if zero then ch '0' else ch ' ', (number ds 0).1, 0⟩ ap =
      some (cv, ap')) :
    format Fdoprnt.convert (n + 1)
        (ch '%' :: ((if zero then [ch '0'] else []) ++ (ds ++ f :: fmt))) ap =
      (format Fdoprnt.convert n fmt ap').map (putField false (number ds 0).1 cv ++ ·) := by
  obtain ⟨hpercent, hfield⟩ := @field_width fmt ap zero ds f hds h0 hf hmark
  rw [format, if_neg (by simp), if_neg hpercent, hfield]
  simp only [Option.bind_eq_bind, Option.bind_some, hcv]

/-- The number a width is read as. -/
theorem number_width {ds : List UInt8} {w : Nat} (h : (number ds 0).1 = w) (hw : w ≤ 80)
    (zero : Bool) (s : List UInt8) :
    putField false (number ds 0).1 ⟨s, false, if zero then ch '0' else ch ' ', 0⟩ =
      padLeft w (if zero then ch '0' else ch ' ') s := by
  rw [h]
  cases zero
  · exact putField_string w hw s
  · exact putField_zeros w hw s

theorem format_3s :
    format Fdoprnt.convert (n + 1) (ch '%' :: ch '3' :: ch 's' :: fmt) (.str (some s) :: ap) =
      (format Fdoprnt.convert n fmt ap).map (padLeft 3 (ch ' ') s ++ ·) := by
  have h := @format_width n fmt (.str (some s) :: ap) false [ch '3'] (ch 's')
    ⟨s, false, if false then ch '0' else ch ' ', 0⟩ ap (List.forall_mem_singleton.mpr (by decide))
    (by decide) (by decide) (by decide) rfl
  rw [number_width (w := 3) (by decide) (by decide) false] at h
  exact h

theorem format_s :
    format Fdoprnt.convert (n + 1) (ch '%' :: ch 's' :: fmt) (.str (some s) :: ap) =
      (format Fdoprnt.convert n fmt ap).map (s ++ ·) := by
  have h := @format_width n fmt (.str (some s) :: ap) false [] (ch 's')
    ⟨s, false, if false then ch '0' else ch ' ', 0⟩ ap (List.forall_mem_nil _) (by decide)
    (by decide) (by decide) rfl
  rw [number_width (w := 0) (by decide) (by decide) false] at h
  simpa [padLeft] using h

theorem format_2d (hv : v < 2 ^ 31) :
    format Fdoprnt.convert (n + 1) (ch '%' :: ch '2' :: ch 'd' :: fmt)
        (.word (BitVec.ofNat 32 v) :: ap) =
      (format Fdoprnt.convert n fmt ap).map (padLeft 2 (ch ' ') (decimalText v) ++ ·) := by
  have h := @format_width n fmt _ false [ch '2'] (ch 'd') _ ap
    (List.forall_mem_singleton.mpr (by decide)) (by decide) (by decide) (by decide)
    (Fdoprnt.convert_nat hv _)
  rw [number_width (w := 2) (by decide) (by decide) false] at h
  exact h

theorem format_02d (hv : v < 2 ^ 31) :
    format Fdoprnt.convert (n + 1) (ch '%' :: ch '0' :: ch '2' :: ch 'd' :: fmt)
        (.word (BitVec.ofNat 32 v) :: ap) =
      (format Fdoprnt.convert n fmt ap).map (padLeft 2 (ch '0') (decimalText v) ++ ·) := by
  have h := @format_width n fmt _ true [ch '2'] (ch 'd') _ ap
    (List.forall_mem_singleton.mpr (by decide)) (by decide) (by decide) (by decide)
    (Fdoprnt.convert_nat hv _)
  rw [number_width (w := 2) (by decide) (by decide) true] at h
  exact h

theorem format_d (hv : v < 2 ^ 31) :
    format Fdoprnt.convert (n + 1) (ch '%' :: ch 'd' :: fmt) (.word (BitVec.ofNat 32 v) :: ap) =
      (format Fdoprnt.convert n fmt ap).map (decimalText v ++ ·) := by
  have h := @format_width n fmt _ false [] (ch 'd') _ ap (List.forall_mem_nil _)
    (by decide) (by decide) (by decide) (Fdoprnt.convert_nat hv _)
  rw [number_width (w := 0) (by decide) (by decide) false] at h
  simpa [padLeft] using h

/-- **What `sprintf` writes** for the format of a date. -/
theorem fdoprnt_date (weekday month zone : List UInt8) {day hour minute second year : Nat}
    (hday : day < 2 ^ 31) (hhour : hour < 2 ^ 31) (hminute : minute < 2 ^ 31)
    (hsecond : second < 2 ^ 31) (hyear : year < 2 ^ 31) :
    fdoprnt dateFormat [.str (some weekday), .str (some month), .word (BitVec.ofNat 32 day),
      .word (BitVec.ofNat 32 hour), .word (BitVec.ofNat 32 minute), .word (BitVec.ofNat 32 second),
      .str (some zone), .word (BitVec.ofNat 32 year)] =
    some (dateText weekday month day hour minute second zone year) := by
  have hblank : ch ' ' ≠ ch '%' := by decide
  have hcolon : ch ':' ≠ ch '%' := by decide
  rw [fdoprnt, show dateFormat.length + 1 = 34 by decide, dateFormat]
  simp only [List.map_cons, List.map_nil]
  rw [format_3s, format_plain hblank, format_plain hblank, format_3s, format_plain hblank,
    format_2d hday, format_plain hblank, format_plain hblank, format_2d hhour,
    format_plain hcolon, format_02d hminute, format_plain hcolon, format_02d hsecond,
    format_plain hblank, format_s, format_plain hblank, format_d hyear, format]
  simp [dateText]

/-! ## 3. The parts of the date

Before 2100 every fourth year is a leap year, as the macro says.  The loops take off the days of
the years and months that have passed. -/

/-- January 1, 1970. -/
abbrev EPOCH : Nat := 1970

/-- It was a Thursday. -/
abbrev EPOCHDY : Nat := 4

variable {now year : Nat}

theorem isleap_iff (h : EPOCH ≤ year) (h' : year < 2100) : isleap year ↔ IsLeap year := by
  simp only [isleap, IsLeap, EPOCH] at *
  omega

/-- The days before a year: one more for every leap year. -/
theorem daysBeforeYear_eq (h : EPOCH ≤ year) (h' : year ≤ 2100) :
    daysBeforeYear EPOCH year = 365 * (year - EPOCH) + (year - 1969) / 4 := by
  induction year, h using Nat.le_induction with
  | base => rfl
  | succ y hy ih =>
    rw [daysBeforeYear_succ hy, ih (by omega), yearDays]
    have hleap := isleap_iff hy (by omega)
    simp only [isleap, EPOCH] at *
    by_cases hl : IsLeap y
    · rw [if_pos hl]
      have := hleap.mpr hl
      omega
    · rw [if_neg hl]
      have := mt hleap.mp hl
      omega

/-- The second counts before 2100. -/
def Before2100 (now : Nat) : Prop := now < daysBeforeYear EPOCH 2100 * SECPERDY

/-- **The year**, and the seconds in it. -/
theorem passYears_spec (h : Before2100 now) :
    (EPOCH ≤ (passYears now).1 ∧ (passYears now).1 < 2100) ∧
      daysBeforeYear EPOCH (passYears now).1 * SECPERDY + (passYears now).2 = now ∧
      (passYears now).2 < yearDays (passYears now).1 * SECPERDY := by
  have hsize : ∀ y, EPOCH ≤ y → y < 2100 →
      (if isleap y then 366 else 365) * SECPERDY = yearDays y * SECPERDY := fun y h1 h2 => by
    simp only [isleap_iff h1 h2, yearDays]
  have hsum : ∀ y ≤ 2100, ∑ i ∈ Finset.Ico EPOCH y, (if isleap i then 366 else 365) * SECPERDY =
      daysBeforeYear EPOCH y * SECPERDY := fun y hy => by
    rw [daysBeforeYear, Finset.sum_mul]
    refine Finset.sum_congr rfl fun i hi => ?_
    have := Finset.mem_Ico.mp hi
    exact hsize i this.1 (by omega)
  obtain ⟨hyear, hpassed, hrest⟩ := passed_spec (k := EPOCH) (n := 137) (e := 2100) (r := now)
    (by decide) (lt_of_lt_of_eq h (hsum 2100 le_rfl).symm)
  refine ⟨hyear, ?_, ?_⟩
  · rw [hsum _ (by omega)] at hpassed
    exact hpassed
  · rw [hsize _ hyear.1 hyear.2] at hrest
    exact hrest

/-- **The month**, and the seconds in it. -/
theorem passMonths_spec (h : EPOCH ≤ year) (h' : year < 2100)
    (hnow : now < yearDays year * SECPERDY) :
    (passMonths year now).1 < 12 ∧
      daysBeforeMonth year (passMonths year now).1 * SECPERDY + (passMonths year now).2 = now ∧
      (passMonths year now).2 < monthDays year (passMonths year now).1 * SECPERDY := by
  have hsize : ∀ m < 12, (dt_msize m * SECPERDY +
      if m = 1 ∧ isleap year then SECPERDY else 0) = monthDays year m * SECPERDY := by
    intro m hm
    simp only [isleap_iff h h', monthDays]
    by_cases hl : IsLeap year <;> interval_cases m <;> simp [hl, dt_msize, SECPERDY]
  have hsum : ∀ m ≤ 12, ∑ i ∈ Finset.Ico 0 m, (dt_msize i * SECPERDY +
      if i = 1 ∧ isleap year then SECPERDY else 0) = daysBeforeMonth year m * SECPERDY := by
    intro m hm
    rw [daysBeforeMonth, Finset.sum_mul]
    refine Finset.sum_congr rfl fun i hi => hsize i ?_
    have := Finset.mem_Ico.mp hi
    omega
  rw [← daysBeforeMonth_year, ← hsum 12 le_rfl] at hnow
  obtain ⟨hmonth, hpassed, hrest⟩ := passed_spec (n := 12) (by decide) hnow
  refine ⟨hmonth.2, ?_, ?_⟩
  · rw [hsum _ (by omega)] at hpassed
    exact hpassed
  · rw [hsize _ hmonth.2] at hrest
    exact hrest

/-- **The parts are those of the instant**: a date with the number of the day, its day of the week,
the day of the week of January 1, and the time of the day. -/
structure PartsOf (now : Nat) (c : DateParts) : Prop where
  year : EPOCH ≤ c.year ∧ c.year < 2100
  valid : c.month < 12 ∧ 1 ≤ c.day ∧ c.day ≤ monthDays c.year c.month
  number : daysBeforeYear EPOCH c.year + daysBeforeMonth c.year c.month + (c.day - 1) =
    now / SECPERDY
  hour : c.hour = now % SECPERDY / SECPERHR
  minute : c.minute = now % SECPERHR / SECPERMN
  second : c.second = now % SECPERMN
  dayofweek : c.dayofweek = weekday EPOCHDY (now / SECPERDY)
  jan1 : c.jan1 = weekday EPOCHDY (daysBeforeYear EPOCH c.year)

theorem dateParts_spec (h : Before2100 now) : PartsOf now (dateParts now) := by
  obtain ⟨hyear, hnow, hin⟩ := passYears_spec h
  obtain ⟨hmonth, hnow', hin'⟩ := passMonths_spec hyear.1 hyear.2 hin
  have hdays := daysBeforeYear_eq hyear.1 hyear.2.le
  simp only [EPOCH, SECPERDY] at *
  refine ⟨hyear, ⟨hmonth, ?_, ?_⟩, ?_, ?_, ?_, ?_, ?_, ?_⟩
  all_goals
    simp only [dateParts, weekday, SECPERDY, SECPERHR, SECPERMN, EPOCHDY, EPOCH]
    omega

/-! ## 4. Daylight saving time

The code computes the days of the second Sunday of March and of the first Sunday of November from
the weekday of the current day, and compares month, day and hour with them. -/

/-- The date is a Sunday. -/
def IsSunday (d : Date) : Prop := weekday EPOCHDY (d.number EPOCH) = 0

/-- From 2:00 on the second Sunday of March to 1:00 (2:00 daylight saving time) on the first Sunday
of November. -/
def DstAuto (now : Nat) : Prop :=
  ∃ start stop : Date, (EPOCH ≤ start.year ∧ stop.year = start.year) ∧
    (start.month = 2 ∧ 8 ≤ start.day ∧ start.day ≤ 14 ∧ IsSunday start) ∧
    (stop.month = 10 ∧ 1 ≤ stop.day ∧ stop.day ≤ 7 ∧ IsSunday stop) ∧
    start.number EPOCH * SECPERDY + 2 * SECPERHR ≤ now ∧
    now < stop.number EPOCH * SECPERDY + SECPERHR

/-- Daylight saving time applies. -/
def DstApplies (dt_daylight : DateDst) (now : Nat) : Prop :=
  match dt_daylight with
  | .DATE_DST_OFF => False
  | .DATE_DST_ON => True
  | .DATE_DST_AUTO => DstAuto now

variable {c : DateParts}

/-- The days of the second Sunday of March and of the first Sunday of November. -/
def marSunday (c : DateParts) : Nat :=
  let mar1 := (c.jan1 + 59 + if IsLeap c.year then 1 else 0) % 7
  if mar1 = 0 then 8 else 15 - mar1

def novSunday (c : DateParts) : Nat :=
  let nov1 := (c.jan1 + 304 + if IsLeap c.year then 1 else 0) % 7
  if nov1 = 0 then 1 else 8 - nov1

/-- A day of March is the second Sunday if it is the one that is computed. -/
theorem marSunday_iff (hc : PartsOf now c) {d : Date} (hyear : d.year = c.year)
    (hmonth : d.month = 2) (hday : 8 ≤ d.day ∧ d.day ≤ 14) :
    IsSunday d ↔ d.day = marSunday c := by
  have hjan := hc.jan1
  have hbefore := daysBeforeMonth_eq c.year (m := 2) (by decide)
  rw [IsSunday, Date.number, marSunday, hyear, hmonth, hbefore]
  simp only [weekday] at *
  by_cases hl : IsLeap c.year
  · simp only [hl, and_true, le_refl, if_true, List.getD_cons_succ, List.getD_cons_zero]
    split_ifs <;> omega
  · simp only [hl, and_false, if_false, List.getD_cons_succ, List.getD_cons_zero]
    split_ifs <;> omega

theorem novSunday_iff (hc : PartsOf now c) {d : Date} (hyear : d.year = c.year)
    (hmonth : d.month = 10) (hday : 1 ≤ d.day ∧ d.day ≤ 7) :
    IsSunday d ↔ d.day = novSunday c := by
  have hjan := hc.jan1
  have hbefore := daysBeforeMonth_eq c.year (m := 10) (by decide)
  rw [IsSunday, Date.number, novSunday, hyear, hmonth, hbefore]
  simp only [weekday] at *
  by_cases hl : IsLeap c.year
  · simp only [hl, and_true, show 2 ≤ 10 by decide, if_true, List.getD_cons_succ,
      List.getD_cons_zero]
    split_ifs <;> omega
  · simp only [hl, and_false, if_false, List.getD_cons_succ, List.getD_cons_zero]
    split_ifs <;> omega

/-- The code's test, by the two days. -/
theorem isDst_auto (hc : PartsOf now c) : isDst .DATE_DST_AUTO c = true ↔
    (2 < c.month ∧ c.month < 10) ∨
      (c.month = 2 ∧ (marSunday c < c.day ∨ (c.day = marSunday c ∧ 2 ≤ c.hour))) ∨
      (c.month = 10 ∧ ¬ (novSunday c < c.day ∨ (c.day = novSunday c ∧ 1 ≤ c.hour))) := by
  have hvalid := hc.valid
  have hleap := isleap_iff hc.year.1 hc.year.2
  have hmar : dt_msize 0 + dt_msize 1 = 59 := rfl
  have hnov : ((List.range 10).map dt_msize).sum = 304 := rfl
  simp only [isDst, marSunday, novSunday, hleap, Nat.add_assoc c.jan1, hmar, hnov]
  by_cases h1 : c.month = 11 ∨ c.month = 0 ∨ c.month = 1
  · rw [if_pos h1]
    simp only [Bool.false_eq_true, false_iff]
    omega
  rw [if_neg h1]
  by_cases h2 : c.month > 2 ∧ c.month < 10
  · rw [if_pos h2]
    simp only [true_iff]
    omega
  rw [if_neg h2]
  by_cases h3 : c.month = 2
  · rw [if_pos h3, decide_eq_true_iff]
    omega
  · rw [if_neg h3, decide_eq_true_iff]
    omega

theorem marSunday_bounds (c : DateParts) : 8 ≤ marSunday c ∧ marSunday c ≤ 14 := by
  simp only [marSunday]
  split_ifs <;> omega

theorem novSunday_bounds (c : DateParts) : 1 ≤ novSunday c ∧ novSunday c ≤ 7 := by
  simp only [novSunday]
  split_ifs <;> omega

/-- **The time between the two days**, month by month. -/
theorem isDst_window (hc : PartsOf now c) : isDst .DATE_DST_AUTO c = true ↔
    (daysBeforeYear EPOCH c.year + daysBeforeMonth c.year 2 + (marSunday c - 1)) * SECPERDY +
        2 * SECPERHR ≤ now ∧
      now < (daysBeforeYear EPOCH c.year + daysBeforeMonth c.year 10 + (novSunday c - 1)) *
        SECPERDY + SECPERHR := by
  have hnumber := hc.number
  have hhour := hc.hour
  obtain ⟨hm, hd1, hd⟩ := hc.valid
  have hmar := marSunday_bounds c
  have hnov := novSunday_bounds c
  have hnext := daysBeforeMonth_succ c.year c.month
  have hafter2 : daysBeforeMonth c.year 3 = daysBeforeMonth c.year 2 + 31 :=
    daysBeforeMonth_succ c.year 2
  have hafter10 : daysBeforeMonth c.year 11 = daysBeforeMonth c.year 10 + 30 :=
    daysBeforeMonth_succ c.year 10
  have h3 := daysBeforeMonth_mono c.year (show 3 ≤ 10 by decide)
  rw [isDst_auto hc]
  simp only [SECPERDY, SECPERHR] at *
  rcases Nat.lt_or_ge c.month 2 with hlt | hge
  · -- January and February
    have := daysBeforeMonth_mono c.year (show c.month + 1 ≤ 2 from hlt)
    omega
  rcases hge.eq_or_lt with heq | hgt
  · -- March
    rw [← heq] at hnumber hd
    have h31 : monthDays c.year 2 = 31 := rfl
    omega
  rcases Nat.lt_or_ge c.month 10 with hlt | hge
  · have h1 := daysBeforeMonth_mono c.year (show 3 ≤ c.month from hgt)
    have h2 := daysBeforeMonth_mono c.year (show c.month + 1 ≤ 10 from hlt)
    omega
  rcases hge.eq_or_lt with heq | hgt
  · -- November
    rw [← heq] at hnumber
    omega
  · have := daysBeforeMonth_mono c.year (show 11 ≤ c.month from hgt)
    omega

/-- **The code applies daylight saving time** when it should. -/
theorem isDst_iff (hc : PartsOf now c) (dt_daylight : DateDst) :
    isDst dt_daylight c = true ↔ DstApplies dt_daylight now := by
  cases dt_daylight with
  | DATE_DST_OFF => exact iff_of_false Bool.false_ne_true id
  | DATE_DST_ON => exact iff_of_true rfl trivial
  | DATE_DST_AUTO =>
    have hmar := marSunday_bounds c
    have hnov := novSunday_bounds c
    rw [isDst_window hc]
    constructor
    · rintro ⟨h1, h2⟩
      have hstart : marSunday c ≤ monthDays c.year 2 := le_trans hmar.2 (by decide : 14 ≤ 31)
      have hstop : novSunday c ≤ monthDays c.year 10 := le_trans hnov.2 (by decide : 7 ≤ 30)
      let start : Date := ⟨c.year, 2, marSunday c, by decide, by omega, hstart⟩
      let stop : Date := ⟨c.year, 10, novSunday c, by decide, hnov.1, hstop⟩
      exact ⟨start, stop, ⟨hc.year.1, rfl⟩,
        ⟨rfl, hmar.1, hmar.2, (marSunday_iff hc (d := start) rfl rfl hmar).mpr rfl⟩,
        ⟨rfl, hnov.1, hnov.2, (novSunday_iff hc (d := stop) rfl rfl hnov).mpr rfl⟩, h1, h2⟩
    · rintro ⟨start, stop, ⟨hepoch, hyears⟩, ⟨hm2, h8, h14, hsun2⟩, ⟨hm10, h1, h7, hsun10⟩,
        hafter, hbefore⟩
      -- the two days are in the year of the instant
      have hyear : start.year = c.year := by
        have hb2 := start.number_bounds hepoch
        have hb10 := stop.number_bounds (hyears ▸ hepoch)
        have hnumber := hc.number
        have hnow := daysBeforeYear_succ hc.year.1
        obtain ⟨hm, hd1, hd⟩ := hc.valid
        have hmonth := daysBeforeMonth_mono c.year (show c.month + 1 ≤ 12 from hm)
        rw [daysBeforeMonth_succ, daysBeforeMonth_year] at hmonth
        rw [hyears] at hb10
        simp only [SECPERDY, SECPERHR] at *
        by_contra hne
        rcases Nat.lt_or_gt_of_ne hne with hlt | hgt
        · have := @daysBeforeYear_mono EPOCH _ _ (show start.year + 1 ≤ c.year from hlt)
          omega
        · have := @daysBeforeYear_mono EPOCH _ _ (show c.year + 1 ≤ start.year from hgt)
          omega
      have hday2 := (marSunday_iff hc hyear hm2 ⟨h8, h14⟩).mp hsun2
      have hday10 := (novSunday_iff hc (hyears.trans hyear) hm10 ⟨h1, h7⟩).mp hsun10
      rw [Date.number, hyear, hm2, hday2] at hafter
      rw [Date.number, hyears.trans hyear, hm10, hday10] at hbefore
      exact ⟨hafter, hbefore⟩

/-! ## 5. The date that is printed

One hour later is the same day with the next hour, unless the hour is the last one. -/

/-- **What is wanted**: the date and the time of the instant, an hour later exactly when daylight
saving time applies, are printed. -/
def AscdateRight (dt_daylight : DateDst) (now : Nat) : Prop :=
  ∃ (dst : Bool) (d : Date), (dst = true ↔ DstApplies dt_daylight now) ∧ EPOCH ≤ d.year ∧
    let instant := now + if dst then SECPERHR else 0
    d.number EPOCH = instant / SECPERDY ∧
    ascdate dt_daylight now = some (dateText (dayName (weekday EPOCHDY (instant / SECPERDY)))
      (monthName d.month) d.day (instant % SECPERDY / SECPERHR) (instant % SECPERHR / SECPERMN)
      (instant % SECPERMN) (zoneName dst) d.year)

/-- The parts, written out. -/
theorem ascdate_eq (dt_daylight : DateDst) (h : Before2100 now) :
    let dst := isDst dt_daylight (dateParts now)
    let c := if dst then (dateParts now).ahead else dateParts now
    ascdate dt_daylight now = some (dateText (dayName c.dayofweek) (monthName c.month) c.day c.hour
      c.minute c.second (zoneName dst) c.year) := by
  intro dst c
  have hc := dateParts_spec h
  obtain ⟨hyear, hvalid⟩ := And.intro hc.year hc.valid
  have hhour := hc.hour
  have hminute := hc.minute
  have hsecond := hc.second
  have h31 : monthDays (dateParts now).year (dateParts now).month ≤ 31 := by
    rw [monthDays]
    split_ifs <;> decide
  have hbound : c.day < 2 ^ 31 ∧ c.hour < 2 ^ 31 ∧ c.minute < 2 ^ 31 ∧ c.second < 2 ^ 31 ∧
      c.year < 2 ^ 31 := by
    simp only [SECPERDY, SECPERHR, SECPERMN] at hhour hminute hsecond
    simp only [c, DateParts.ahead]
    split_ifs <;> refine ⟨?_, ?_, ?_, ?_, ?_⟩ <;> try dsimp only
    all_goals omega
  exact fdoprnt_date _ _ _ hbound.1 hbound.2.1 hbound.2.2.1 hbound.2.2.2.1 hbound.2.2.2.2

/-- The names of the days are different. -/
theorem dayName_take {k : Nat} (hk : k < 7) (rest : List UInt8) :
    (padLeft 3 (ch ' ') (dayName k) ++ rest).take 3 = dayName k := by
  have hall : ∀ k < 7, padLeft 3 (ch ' ') (dayName k) = dayName k ∧ (dayName k).length = 3 := by
    decide
  rw [(hall k hk).1, List.take_append_of_le_length (hall k hk).2.ge,
    List.take_of_length_le (hall k hk).2.le]

theorem dayName_inj {j k : Nat} (hj : j < 7) (hk : k < 7) (h : dayName j = dayName k) : j = k := by
  have hall : ∀ j < 7, ∀ k < 7, dayName j = dayName k → j = k := by decide
  exact hall j hj k hk h

/-- A text starts with the day of the week. -/
theorem dateText_weekday {j k : Nat} (hj : j < 7) (hk : k < 7) {mn mn' zone zone' : List UInt8}
    {d h m s y d' h' m' s' y' : Nat}
    (heq : dateText (dayName j) mn d h m s zone y = dateText (dayName k) mn' d' h' m' s' zone' y') :
    j = k := by
  refine dayName_inj hj hk ?_
  have htake := congrArg (List.take 3) heq
  simp only [dateText, List.append_assoc] at htake
  rwa [dayName_take hj, dayName_take hk] at htake

/-- In the last hour of a day the day of the week that is printed is the one of that day. -/
theorem ascdate_last_hour {dt_daylight : DateDst} (h : Before2100 now)
    (hon : DstApplies dt_daylight now) (h23 : now % SECPERDY / SECPERHR = 23) :
    ¬ AscdateRight dt_daylight now := by
  have hc := dateParts_spec h
  have htext := ascdate_eq dt_daylight h
  simp only at htext
  rw [(isDst_iff hc dt_daylight).mpr hon, if_pos rfl] at htext
  rintro ⟨dst, d, hdst, -, -, hprinted⟩
  obtain rfl : dst = true := hdst.mpr hon
  have hweekday : (dateParts now).ahead.dayofweek = (dateParts now).dayofweek := by
    simp only [DateParts.ahead]
    split_ifs <;> rfl
  rw [htext, hweekday, hc.dayofweek] at hprinted
  have hsame := dateText_weekday (Nat.mod_lt _ (by decide)) (Nat.mod_lt _ (by decide))
    (Option.some.inj hprinted)
  simp only [if_true, SECPERDY, SECPERHR] at hsame h23
  omega

/-- Without daylight saving time it is the date of the instant. -/
theorem ascdate_standard {dt_daylight : DateDst} (h : Before2100 now)
    (hoff : ¬ DstApplies dt_daylight now) : AscdateRight dt_daylight now := by
  have hc := dateParts_spec h
  have htext := ascdate_eq dt_daylight h
  have hdst : isDst dt_daylight (dateParts now) = false :=
    Bool.eq_false_iff.mpr fun hon => hoff ((isDst_iff hc dt_daylight).mp hon)
  simp only at htext
  rw [hdst, if_neg Bool.false_ne_true, hc.dayofweek, hc.hour, hc.minute, hc.second] at htext
  exact ⟨false, ⟨_, _, _, hc.valid⟩, iff_of_false Bool.false_ne_true hoff, hc.year.1, hc.number,
    htext⟩

/-- With it, earlier in the day, the hour is the next one of the same day. -/
theorem ascdate_ahead {dt_daylight : DateDst} (h : Before2100 now)
    (hon : DstApplies dt_daylight now) (hne : now % SECPERDY / SECPERHR ≠ 23) :
    AscdateRight dt_daylight now := by
  have hc := dateParts_spec h
  have htext := ascdate_eq dt_daylight h
  have hhour := hc.hour
  have hahead : (dateParts now).ahead =
      { dateParts now with hour := now % SECPERDY / SECPERHR + 1 } := by
    have h23 : ¬ (dateParts now).hour + 1 > 23 := by
      simp only [SECPERDY, SECPERHR] at hhour hne
      omega
    simp only [DateParts.ahead]
    rw [if_neg h23, hhour]
  have hday : (now + SECPERHR) / SECPERDY = now / SECPERDY := by
    simp only [SECPERDY, SECPERHR] at *
    omega
  have hhours : (now + SECPERHR) % SECPERDY / SECPERHR = now % SECPERDY / SECPERHR + 1 := by
    simp only [SECPERDY, SECPERHR] at *
    omega
  have hrest : (now + SECPERHR) % SECPERHR = now % SECPERHR ∧
      (now + SECPERHR) % SECPERMN = now % SECPERMN := by
    simp only [SECPERHR, SECPERMN]
    omega
  simp only at htext
  rw [(isDst_iff hc dt_daylight).mpr hon, if_pos rfl, hahead] at htext
  simp only [hc.dayofweek, hc.minute, hc.second] at htext
  refine ⟨true, ⟨_, _, _, hc.valid⟩, iff_of_true rfl hon, hc.year.1, ?_⟩
  simp only [if_true]
  rw [hday, hhours, hrest.1, hrest.2]
  exact ⟨hc.number, htext⟩

/-- **The exact condition**: before 2100 the date is right if and only if it is not the last hour of
a day to which daylight saving time applies. -/
theorem ascdate_right_iff (dt_daylight : DateDst) (now : Nat) (h : Before2100 now) :
    AscdateRight dt_daylight now ↔
      ¬ (DstApplies dt_daylight now ∧ now % SECPERDY / SECPERHR = 23) := by
  constructor
  · rintro hright ⟨hon, h23⟩
    exact ascdate_last_hour h hon h23 hright
  · intro hnot
    by_cases hon : DstApplies dt_daylight now
    · exact ascdate_ahead h hon fun h23 => hnot ⟨hon, h23⟩
    · exact ascdate_standard h hon

/-- July 1, 2020, 22:30 Eastern Standard Time, which is half past eleven by daylight saving time. -/
theorem ascdate_right_iff_evening :
    DstApplies .DATE_DST_AUTO 1593642600 ∧ AscdateRight .DATE_DST_AUTO 1593642600 := by
  have h : Before2100 1593642600 := by
    rw [Before2100]
    decide +kernel
  have hon : isDst .DATE_DST_AUTO (dateParts 1593642600) = true := by decide +kernel
  refine ⟨(isDst_iff (dateParts_spec h) _).mp hon, ?_⟩
  exact (ascdate_right_iff .DATE_DST_AUTO 1593642600 h).mpr fun hlast => absurd hlast.2 (by decide)

/-- July 1, 2020, 23:30 Eastern Standard Time is half past midnight of Thursday, July 2; it is
printed as a Wednesday. -/
theorem ascdate_wednesday :
    ascdate .DATE_DST_AUTO 1593646200 = some (dateText (dayName 3) (monthName 6) 2 0 30 0
      (zoneName true) 2020) ∧ ¬ AscdateRight .DATE_DST_AUTO 1593646200 := by
  have h : Before2100 1593646200 := by
    rw [Before2100]
    decide +kernel
  have hon : isDst .DATE_DST_AUTO (dateParts 1593646200) = true := by decide +kernel
  refine ⟨?_, ascdate_last_hour h ((isDst_iff (dateParts_spec h) _).mp hon) (by decide)⟩
  have htext := ascdate_eq .DATE_DST_AUTO h
  simp only at htext
  rw [hon, if_pos rfl] at htext
  exact htext

end Xinu
