import Fxp.Session
import Mathlib

/-!
# Dates of expiry

The days of the Gregorian calendar are counted year by year and month by month, from the first day of the year 1 on.
The closed formula of `civilDays` counts the same days, and `expiryInstant` accepts the texts of dates and nothing
else.
-/

namespace Fxp

def Leap (year : Nat) : Prop := year % 4 = 0 ∧ (year % 100 ≠ 0 ∨ year % 400 = 0)

instance (year : Nat) : Decidable (Leap year) := inferInstanceAs (Decidable (_ ∧ _))

def monthLength (year : Nat) : Nat → Nat
  | 2 => if Leap year then 29 else 28
  | 4 | 6 | 9 | 11 => 30
  | _ => 31

/-- A date of the Gregorian calendar with four digits for the year. -/
structure CivilDate where
  year : Nat
  month : Nat
  day : Nat
  year_pos : 1 ≤ year
  year_le : year ≤ 9999
  month_pos : 1 ≤ month
  month_le : month ≤ 12
  day_pos : 1 ≤ day
  day_le : day ≤ monthLength year month

/-- The days of the years `1` to `n`. -/
def yearDays : Nat → Nat
  | 0 => 0
  | n + 1 => yearDays n + if Leap (n + 1) then 366 else 365

/-- The days of the months `1` to `n` of a year. -/
def monthDays (year : Nat) : Nat → Nat
  | 0 => 0
  | n + 1 => monthDays year n + monthLength year (n + 1)

def digit (n : Nat) : UInt8 := .ofNat (48 + n % 10)

namespace CivilDate

/-- The number of days from the first day of the year `1`. -/
def ordinal (d : CivilDate) : Nat := yearDays (d.year - 1) + monthDays d.year (d.month - 1) + (d.day - 1)

def epoch : CivilDate := ⟨1970, 1, 1, by decide, by decide, by decide, by decide, by decide, by decide⟩

/-- The number of days from 1970-01-01, negative before it. -/
def days (d : CivilDate) : Int := d.ordinal - epoch.ordinal

def text (d : CivilDate) : List UInt8 :=
  [digit (d.year / 1000), digit (d.year / 100), digit (d.year / 10), digit d.year, 45,
    digit (d.month / 10), digit d.month, 45, digit (d.day / 10), digit d.day]

def Before (d d' : CivilDate) : Prop :=
  d.year < d'.year ∨ d.year = d'.year ∧ (d.month < d'.month ∨ d.month = d'.month ∧ d.day < d'.day)

def Next (d d' : CivilDate) : Prop :=
  if d.day < monthLength d.year d.month then d'.year = d.year ∧ d'.month = d.month ∧ d'.day = d.day + 1
  else if d.month < 12 then d'.year = d.year ∧ d'.month = d.month + 1 ∧ d'.day = 1
  else d'.year = d.year + 1 ∧ d'.month = 1 ∧ d'.day = 1

end CivilDate

private theorem yearDays_eq (n : Nat) : yearDays n + n / 100 = 365 * n + n / 4 + n / 400 := by
  induction n with
  | zero => rfl
  | succ =>
    rw [yearDays]
    split
    · rename_i hleap
      unfold Leap at hleap
      omega
    · rename_i hleap
      unfold Leap at hleap
      omega

private theorem yearDays_step {year : Nat} (h : 1 ≤ year) :
    yearDays year = yearDays (year - 1) + if Leap year then 366 else 365 := by
  obtain ⟨_, rfl⟩ := Nat.exists_eq_add_of_le' h
  rfl

private theorem monthDays_step (year : Nat) {month : Nat} (h : 1 ≤ month) :
    monthDays year month = monthDays year (month - 1) + monthLength year month := by
  obtain ⟨_, rfl⟩ := Nat.exists_eq_add_of_le' h
  rfl

private theorem monthDays_year (year : Nat) : monthDays year 12 = if Leap year then 366 else 365 := by
  simp only [monthDays, monthLength]
  split <;> rfl

/-- The formula for the days before a month, in a year that begins with March. -/
theorem monthDays_eq (year : Nat) {month : Nat} (hpos : 1 ≤ month) (hle : month ≤ 12) : monthDays year (month - 1) =
    if month ≤ 2 then (153 * (month + 9) + 2) / 5 - 306
    else (153 * (month - 3) + 2) / 5 + 59 + if Leap year then 1 else 0 := by
  by_cases hleap : Leap year <;> interval_cases month <;> simp [monthDays, monthLength, hleap]

private theorem yearDays_mono : Monotone yearDays := monotone_nat_of_le_succ fun _ => Nat.le_add_right ..

private theorem monthDays_mono (year : Nat) : Monotone (monthDays year) :=
  monotone_nat_of_le_succ fun _ => Nat.le_add_right ..

namespace CivilDate

variable {d d' : CivilDate}

private theorem civilDays_eq (d : CivilDate) : civilDays d.year d.month d.day = d.days := by
  have hyear := d.year_pos
  have hmonth := d.month_pos
  have hday := d.day_pos
  have hepoch : epoch.ordinal = 719162 := by
    have := yearDays_eq 1969
    rw [ordinal, show epoch.year - 1 = 1969 from rfl, show epoch.month - 1 = 0 from rfl,
      show epoch.day - 1 = 0 from rfl, monthDays]
    omega
  have hbefore := yearDays_eq (d.year - 1)
  have hyears := yearDays_eq d.year
  rw [yearDays_step hyear] at hyears
  rw [days, hepoch, ordinal, monthDays_eq d.year hmonth d.month_le]
  unfold civilDays
  by_cases hspring : 2 < d.month
  · -- the leap day of the year is counted
    simp only [show (2 : Int) < d.month by omega, show ¬ (d.month : Int) ≤ 2 by omega, show ¬ d.month ≤ 2 by omega,
      if_true, if_false]
    split at hyears <;> simp only [*, if_true, if_false] <;> omega
  · simp only [show ¬ (2 : Int) < d.month by omega, show (d.month : Int) ≤ 2 by omega, show d.month ≤ 2 by omega,
      if_true, if_false]
    omega

private theorem ordinal_lt (d : CivilDate) : d.ordinal < yearDays (d.year - 1) + monthDays d.year d.month := by
  have hlast := d.day_le
  have hday := d.day_pos
  rw [ordinal, monthDays_step d.year d.month_pos]
  omega

private theorem ordinal_lt_year (d : CivilDate) : d.ordinal < yearDays d.year := by
  have hlt := d.ordinal_lt
  have hmonths := monthDays_mono d.year d.month_le
  rw [monthDays_year] at hmonths
  rw [yearDays_step d.year_pos]
  omega

private theorem days_lt (h : d.Before d') : d.days < d'.days := by
  have hday := d.day_pos
  have hordinal : d.ordinal < d'.ordinal := by
    rcases h with hyear | ⟨hyear, hmonth | ⟨hmonth, _⟩⟩
    · calc d.ordinal < yearDays d.year := d.ordinal_lt_year
        _ ≤ yearDays (d'.year - 1) := yearDays_mono (by omega)
        _ ≤ d'.ordinal := by unfold ordinal; omega
    · calc d.ordinal < yearDays (d.year - 1) + monthDays d.year d.month := d.ordinal_lt
        _ ≤ yearDays (d.year - 1) + monthDays d.year (d'.month - 1) :=
          Nat.add_le_add_left (monthDays_mono _ (by omega)) _
        _ ≤ d'.ordinal := by unfold ordinal; rw [hyear]; omega
    · unfold ordinal
      rw [hyear, hmonth]
      omega
  unfold days
  omega

private theorem days_next (h : d.Next d') : d'.days = d.days + 1 := by
  have hday := d.day_pos
  have hlast := d.day_le
  have hmonth := monthDays_step d.year d.month_pos
  have hordinal : d'.ordinal = d.ordinal + 1 := by
    unfold Next at h
    unfold ordinal
    split at h
    · obtain ⟨h₁, h₂, h₃⟩ := h
      rw [h₁, h₂, h₃]
      omega
    split at h
    · obtain ⟨h₁, h₂, h₃⟩ := h
      rw [h₁, h₂, h₃, Nat.add_sub_cancel, hmonth]
      omega
    obtain ⟨h₁, h₂, h₃⟩ := h
    have hdecember : d.month = 12 := Nat.le_antisymm d.month_le (by omega)
    rw [h₁, h₂, h₃, Nat.add_sub_cancel, yearDays_step d.year_pos, ← monthDays_year, ← hdecember, hmonth, Nat.sub_self,
      monthDays]
    omega
  unfold days
  omega

private theorem digit_toNat (n : Nat) : (digit n).toNat = 48 + n % 10 := by
  rw [digit, UInt8.toNat_ofNat']
  omega

private theorem isAsciiDigit_iff {c} : isAsciiDigit c = true ↔ 48 ≤ c.toNat ∧ c.toNat ≤ 57 := by
  simp only [isAsciiDigit, Bool.and_eq_true, decide_eq_true_eq]

private theorem eq_digit {c} {n : Nat} (h : c.toNat = 48 + n % 10) : c = digit n :=
  UInt8.toNat_inj.mp (h.trans (digit_toNat n).symm)

private theorem daysOfMonth_eq (year month : Nat) : daysOfMonth year month =
    if 1 ≤ month ∧ month ≤ 12 then some (monthLength year month : Int) else none := by
  have hleap : ((year : Int) % 4 = 0 ∧ ((year : Int) % 100 ≠ 0 ∨ (year : Int) % 400 = 0)) ↔ Leap year := by
    unfold Leap
    omega
  unfold daysOfMonth
  simp only [hleap]
  by_cases hmonth : 1 ≤ month ∧ month ≤ 12
  · rw [if_pos hmonth]
    obtain ⟨_, _⟩ := hmonth
    interval_cases month <;> simp [monthLength]
  · rw [if_neg hmonth, if_neg (by omega), if_neg (by omega), if_neg (by omega)]

private theorem exists_bytes {bytes : List UInt8} (h : bytes.length = 10) :
    ∃ a b c d x e f y g i, bytes = [a, b, c, d, x, e, f, y, g, i] := by
  match bytes, h with
  | [a, b, c, d, x, e, f, y, g, i], _ => exact ⟨a, b, c, d, x, e, f, y, g, i, rfl⟩

private theorem exists_date {date} {t : Int} (h : expiryInstant date = .ok t) :
    ∃ d : CivilDate, date.toUTF8.toList = d.text ∧ t = 86400 * (d.days + 1) := by
  unfold expiryInstant at h
  generalize date.toUTF8.toList = bytes at h ⊢
  dsimp only at h
  split at h
  · cases h
  rename_i hform
  rw [not_or, not_or, not_or, not_not, not_not, not_not] at hform
  obtain ⟨hlen, h4, h7, hdigits⟩ := hform
  obtain ⟨a, b, c, d, _, e, f, _, g, i, rfl⟩ := exists_bytes hlen
  cases h4
  cases h7
  simp only [List.take, List.drop, List.cons_append, List.nil_append, List.all_cons, List.all_nil, Bool.and_true,
    Bool.not_eq_true, Bool.not_eq_false', Bool.and_eq_true, isAsciiDigit_iff] at hdigits
  -- the numbers that the digits stand for
  obtain ⟨year, hyear⟩ : ∃ n, n = (((a.toNat - 48) * 10 + (b.toNat - 48)) * 10 + (c.toNat - 48)) * 10 +
    (d.toNat - 48) := ⟨_, rfl⟩
  obtain ⟨month, hmonth⟩ : ∃ n, n = (e.toNat - 48) * 10 + (f.toNat - 48) := ⟨_, rfl⟩
  obtain ⟨day, hday⟩ : ∃ n, n = (g.toNat - 48) * 10 + (i.toNat - 48) := ⟨_, rfl⟩
  have hy : parseDigits [a, b, c, d] = year := by simp [parseDigits, hyear]
  have hm : parseDigits [e, f] = month := by simp [parseDigits, hmonth]
  have hd : parseDigits [g, i] = day := by simp [parseDigits, hday]
  simp only [List.take, List.drop, hy, hm, hd, daysOfMonth_eq] at h
  split at h
  · cases h
  rename_i hlength
  obtain ⟨hvalid, hlength⟩ := Option.ite_none_right_eq_some.mp hlength
  cases hlength
  split at h
  · cases h
  refine ⟨⟨year, month, day, by omega, by omega, hvalid.1, hvalid.2, by omega, by omega⟩, ?_, ?_⟩
  · simp only [text, List.cons.injEq, and_true, true_and]
    exact ⟨eq_digit (by omega), eq_digit (by omega), eq_digit (by omega), eq_digit (by omega), eq_digit (by omega),
      eq_digit (by omega), eq_digit (by omega), eq_digit (by omega)⟩
  · rw [← civilDays_eq, Int.mul_comm]
    exact (Except.ok.inj h).symm

private theorem expiryInstant_text {date} (d : CivilDate) (h : date.toUTF8.toList = d.text) :
    expiryInstant date = .ok (86400 * (d.days + 1)) := by
  have hlength : monthLength d.year d.month ≤ 31 := by
    unfold monthLength
    split <;> (try split) <;> omega
  obtain ⟨_, _⟩ := And.intro d.year_pos d.year_le
  obtain ⟨_, _⟩ := And.intro d.day_pos d.day_le
  have hmonths := d.month_le
  have hy : parseDigits [digit (d.year / 1000), digit (d.year / 100), digit (d.year / 10), digit d.year] = d.year := by
    simp only [parseDigits, List.foldl, digit_toNat]
    omega
  have hm : parseDigits [digit (d.month / 10), digit d.month] = d.month := by
    simp only [parseDigits, List.foldl, digit_toNat]
    omega
  have hd : parseDigits [digit (d.day / 10), digit d.day] = d.day := by
    simp only [parseDigits, List.foldl, digit_toNat]
    omega
  have hdigit : ∀ n, isAsciiDigit (digit n) = true := fun n => by
    rw [isAsciiDigit_iff, digit_toNat]
    omega
  unfold expiryInstant
  rw [h, if_neg (by simp [text, hdigit])]
  simp only [text, List.take, List.drop, hy, hm, hd, daysOfMonth_eq, if_pos (And.intro d.month_pos hmonths)]
  rw [if_neg (by omega), civilDays_eq, Int.mul_comm]

end CivilDate

open CivilDate

/-- An expiry date is accepted exactly if it is the text of a date, and stands for the end of that day: it grows by
the length of a day from one date to the next. -/
theorem expiry_dates :
    (∀ date t, expiryInstant date = .ok t ↔ ∃ d : CivilDate, date.toUTF8.toList = d.text ∧ t = 86400 * (d.days + 1)) ∧
    epoch.days = 0 ∧
    ∀ (d d' : CivilDate) (date date' : String), date.toUTF8.toList = d.text → date'.toUTF8.toList = d'.text →
      ∃ t t', expiryInstant date = .ok t ∧ expiryInstant date' = .ok t' ∧ (d.Before d' → t < t') ∧
        (d.Next d' → t' = t + 86400) := by
  refine ⟨fun date t => ⟨exists_date, ?_⟩, Int.sub_self _, fun d d' date date' hdate hdate' => ?_⟩
  · rintro ⟨d, hdate, ht⟩
    rw [expiryInstant_text d hdate, ht]
  refine ⟨_, _, expiryInstant_text d hdate, expiryInstant_text d' hdate', fun h => ?_, fun h => ?_⟩
  · have := days_lt h
    omega
  · rw [days_next h]
    omega

end Fxp
