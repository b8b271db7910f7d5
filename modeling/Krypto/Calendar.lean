import Mathlib.Algebra.BigOperators.Intervals
import Mathlib.Algebra.Order.BigOperators.Group.Finset
import Mathlib.Order.Interval.Finset.Nat
import Mathlib.Tactic.IntervalCases
import Mathlib.Tactic.Ring

/-! The Gregorian calendar, before its first day as after it: which dates there
are, and how many days or seconds lie between a date and the first of 1970. -/

namespace Krypto.Calendar
open Finset

def Leap (y : ℤ) : Prop := y % 4 = 0 ∧ (y % 100 = 0 → y % 400 = 0)

instance : DecidablePred Leap := fun y => inferInstanceAs (Decidable (y % 4 = 0 ∧ _))

def monthLength (y : ℤ) (month : ℕ) : ℕ :=
  if month = 2 then
    if Leap y then 29 else 28
  else if month = 4 ∨ month = 6 ∨ month = 9 ∨ month = 11 then
    30
  else
    31

def yearLength (y : ℤ) : ℤ := ∑ m ∈ Ico 1 13, (monthLength y m : ℤ)

structure Date where
  year : ℤ
  month : ℕ
  day : ℕ
  one_le_month : 1 ≤ month
  month_le : month ≤ 12
  one_le_day : 1 ≤ day
  day_le : day ≤ monthLength year month

structure DateTime where
  date : Date
  hour : ℕ
  minute : ℕ
  second : ℕ
  hour_lt : hour < 24
  minute_lt : minute < 60
  second_lt : second < 60

/-- The days from the first of 1970 to the first of the year; below zero before it. -/
def yearStart (y : ℤ) : ℤ :=
  ∑ k ∈ range (y - 1970).toNat, yearLength (1970 + k) - ∑ k ∈ range (1970 - y).toNat, yearLength (y + k)

def monthStart (y : ℤ) (month : ℕ) : ℤ := ∑ m ∈ Ico 1 month, (monthLength y m : ℤ)

def Date.days (d : Date) : ℤ := yearStart d.year + monthStart d.year d.month + (d.day - 1)

def DateTime.seconds (t : DateTime) : ℤ :=
  t.date.days * 86400 + t.hour * 3600 + t.minute * 60 + t.second

/-! ### Years that begin in March -/

section March

theorem yearLength_eq (y : ℤ) : yearLength y = if Leap y then 366 else 365 := by
  have hmonth : monthLength y = fun m => if m = 2 then if Leap y then 29 else 28
      else if m = 4 ∨ m = 6 ∨ m = 9 ∨ m = 11 then 30 else 31 := rfl
  rw [yearLength, hmonth]
  split_ifs
  · decide
  · decide

theorem yearStart_succ (y : ℤ) : yearStart (y + 1) = yearStart y + yearLength y := by
  unfold yearStart
  rcases le_or_gt 1970 y with hle | hlt
  · have hfront : (y + 1 - 1970).toNat = (y - 1970).toNat + 1 := by omega
    have hlast : (1970 : ℤ) + (y - 1970).toNat = y := by omega
    have hbelow : (1970 - y).toNat = 0 := by omega
    have hbelow' : (1970 - (y + 1)).toNat = 0 := by omega
    rw [hfront, sum_range_succ, hlast, hbelow, hbelow', sum_range_zero, sum_range_zero]
    ring
  · have hback : (1970 - y).toNat = (1970 - (y + 1)).toNat + 1 := by omega
    have hshift (k : ℕ) : y + ((k + 1 : ℕ) : ℤ) = y + 1 + k := by
      push_cast
      ring
    have habove : (y - 1970).toNat = 0 := by omega
    have habove' : (y + 1 - 1970).toNat = 0 := by omega
    rw [hback, sum_range_succ', habove, habove', sum_range_zero]
    simp only [hshift, Nat.cast_zero, add_zero]
    ring

/-- The years in closed form: four hundred of them come to 146097 days. -/
theorem yearStart_eq (y : ℤ) :
    yearStart y = 365 * (y - 1970) + (y - 1) / 4 - (y - 1) / 100 + (y - 1) / 400 - 477 := by
  have hstep (k : ℤ) : yearStart (k + 1) = yearStart k + if Leap k then 366 else 365 := by
    rw [yearStart_succ, yearLength_eq]
  have hleap (k : ℤ) : (365 * (k + 1 - 1970) + (k + 1 - 1) / 4 - (k + 1 - 1) / 100 + (k + 1 - 1) / 400 - 477) =
      365 * (k - 1970) + (k - 1) / 4 - (k - 1) / 100 + (k - 1) / 400 - 477 +
        if Leap k then 366 else 365 := by
    unfold Leap
    split_ifs
    all_goals omega
  induction y using Int.inductionOn' (b := 1970) with
  | zero => decide
  | succ k hk ih => rw [hstep, ih, hleap]
  | pred k hk ih =>
    have hk := hstep (k - 1)
    have hl := hleap (k - 1)
    rw [sub_add_cancel] at hk hl
    omega

def marchMonth (month : ℕ) : ℤ := if month ≤ 2 then month + 9 else month - 3

def marchYear (y : ℤ) (month : ℕ) : ℤ := if month ≤ 2 then y - 1 else y

def marchStart (y : ℤ) : ℤ := 365 * y + y / 4 - y / 100 + y / 400

theorem monthStart_eq (y : ℤ) {month : ℕ} (h1 : 1 ≤ month) (h12 : month ≤ 12) :
    monthStart y month = (153 * marchMonth month + 2) / 5 +
      if month ≤ 2 then -306 else if Leap y then 60 else 59 := by
  have hmonth : monthLength y = fun m => if m = 2 then if Leap y then 29 else 28
      else if m = 4 ∨ m = 6 ∨ m = 9 ∨ m = 11 then 30 else 31 := rfl
  rw [monthStart, hmonth]
  unfold marchMonth
  split_ifs
  all_goals interval_cases month
  all_goals decide

theorem Date.days_eq (d : Date) : d.days + 719468 =
    marchStart (marchYear d.year d.month) + (153 * marchMonth d.month + 2) / 5 + (d.day - 1) := by
  have hmonth := monthStart_eq d.year d.one_le_month d.month_le
  rw [days, yearStart_eq, hmonth]
  unfold marchStart marchYear Leap
  split_ifs
  all_goals omega

/-- A year from March to March ends with the February of the next. -/
theorem marchStart_succ (y : ℤ) :
    marchStart (y + 1) = marchStart y + if Leap (y + 1) then 366 else 365 := by
  unfold marchStart Leap
  split_ifs
  all_goals omega

theorem marchStart_mono {y y' : ℤ} (h : y ≤ y') : marchStart y ≤ marchStart y' := by
  unfold marchStart
  omega

theorem add_marchStart_le (y : ℤ) : marchStart y + 365 ≤ marchStart (y + 1) := by
  rw [marchStart_succ]
  split_ifs
  all_goals omega

end March

/-! ### A date and the day it is -/

section Days

def Date.dayOfYear (d : Date) : ℤ := (153 * marchMonth d.month + 2) / 5 + (d.day - 1)

theorem Date.days_eq_march (d : Date) :
    d.days + 719468 = marchStart (marchYear d.year d.month) + d.dayOfYear := by
  rw [d.days_eq, dayOfYear, add_assoc]

/-- A month is what lies between the starts of two; February is what the year has left. -/
theorem monthLength_eq (y : ℤ) {month : ℕ} (h1 : 1 ≤ month) (h12 : month ≤ 12) :
    (monthLength y month : ℤ) = if month = 2 then marchStart y - marchStart (y - 1) - 337
      else (153 * (marchMonth month + 1) + 2) / 5 - (153 * marchMonth month + 2) / 5 := by
  by_cases hfeb : month = 2
  · have hyear := marchStart_succ (y - 1)
    rw [sub_add_cancel] at hyear
    rw [hyear, hfeb, monthLength, if_pos rfl, if_pos rfl]
    split_ifs
    all_goals omega
  · rw [monthLength, if_neg hfeb, if_neg hfeb]
    unfold marchMonth
    interval_cases month
    all_goals first | contradiction | decide

theorem Date.dayOfYear_lt (d : Date) : 0 ≤ d.dayOfYear ∧
    d.dayOfYear < marchStart (marchYear d.year d.month + 1) - marchStart (marchYear d.year d.month) := by
  obtain ⟨year, month, day, h1, h12, hday, hle⟩ := d
  have hlength := monthLength_eq year h1 h12
  unfold dayOfYear marchYear
  unfold marchMonth at hlength ⊢
  dsimp only
  by_cases hfeb : month = 2
  · subst hfeb
    simp at hlength ⊢
    omega
  · have hyear := add_marchStart_le (if month ≤ 2 then year - 1 else year)
    rw [if_neg hfeb] at hlength
    split_ifs at hlength hyear ⊢
    all_goals omega

theorem Date.marchMonth_eq (d : Date) : (5 * d.dayOfYear + 2) / 153 = marchMonth d.month := by
  obtain ⟨year, month, day, h1, h12, hday, hle⟩ := d
  have hmax : monthLength year 2 ≤ 29 := by
    unfold monthLength
    split_ifs
    all_goals omega
  unfold dayOfYear marchMonth
  dsimp only
  interval_cases month
  all_goals simp [monthLength] at hle hmax ⊢
  all_goals omega

theorem marchMonth_inj {m m' : ℕ} (h1 : 1 ≤ m) (h12 : m ≤ 12) (h1' : 1 ≤ m') (h12' : m' ≤ 12)
    (h : marchMonth m = marchMonth m') : m = m' := by
  unfold marchMonth at h
  split_ifs at h
  all_goals omega

theorem Date.days_injective : Function.Injective Date.days := by
  intro d d' h
  have hd := d.days_eq_march
  have hd' := d'.days_eq_march
  obtain ⟨hpos, hlt⟩ := d.dayOfYear_lt
  obtain ⟨hpos', hlt'⟩ := d'.dayOfYear_lt
  have hyear : marchYear d.year d.month = marchYear d'.year d'.month := by
    rcases lt_trichotomy (marchYear d.year d.month) (marchYear d'.year d'.month) with hlow | heq | hhigh
    · have hmono := marchStart_mono (Int.add_one_le_of_lt hlow)
      omega
    · exact heq
    · have hmono := marchStart_mono (Int.add_one_le_of_lt hhigh)
      omega
  have hday : d.dayOfYear = d'.dayOfYear := by
    rw [hyear] at hd
    omega
  have hmonth : d.month = d'.month := by
    apply marchMonth_inj d.one_le_month d.month_le d'.one_le_month d'.month_le
    rw [← d.marchMonth_eq, ← d'.marchMonth_eq, hday]
  obtain ⟨year, month, day⟩ := d
  obtain ⟨year', month', day'⟩ := d'
  dsimp only at hmonth hyear
  subst hmonth
  obtain rfl : year = year' := by
    unfold marchYear at hyear
    split_ifs at hyear
    all_goals omega
  obtain rfl : day = day' := by
    unfold dayOfYear at hday
    dsimp only at hday
    omega
  rfl

theorem Date.year_of_days {d : Date} (h : 0 ≤ d.days) : 1970 ≤ d.year := by
  by_contra hyear
  have hdays := d.days_eq_march
  have hlt := d.dayOfYear_lt.2
  have hmonth := d.marchMonth_eq
  have h1969 : marchStart 1969 = 719162 := by decide
  unfold marchYear at hdays hlt
  unfold marchMonth at hmonth
  have hmonthle := d.month_le
  split_ifs at hdays hlt hmonth
  · have hmono := marchStart_mono (by omega : d.year - 1 + 1 ≤ 1969)
    omega
  · have hmono := marchStart_mono (by omega : d.year ≤ 1969)
    omega

def monthOf (mp : ℤ) : ℕ := (if mp < 10 then mp + 3 else mp - 9).toNat

theorem monthOf_spec {mp : ℤ} (h0 : 0 ≤ mp) (h11 : mp ≤ 11) :
    1 ≤ monthOf mp ∧ monthOf mp ≤ 12 ∧ marchMonth (monthOf mp) = mp ∧ (monthOf mp = 2 ↔ mp = 11) := by
  unfold monthOf marchMonth
  interval_cases mp
  all_goals decide

theorem month_bounds {y doy : ℤ} (hpos : 0 ≤ doy) (hlt : doy < marchStart (y + 1) - marchStart y) :
    0 ≤ (5 * doy + 2) / 153 ∧ (5 * doy + 2) / 153 ≤ 11 := by
  rw [marchStart_succ] at hlt
  split_ifs at hlt
  all_goals omega

def Date.ofMarch (y doy : ℤ) (hpos : 0 ≤ doy) (hlt : doy < marchStart (y + 1) - marchStart y) : Date where
  year := y + if monthOf ((5 * doy + 2) / 153) ≤ 2 then 1 else 0
  month := monthOf ((5 * doy + 2) / 153)
  day := (doy - (153 * ((5 * doy + 2) / 153) + 2) / 5 + 1).toNat
  one_le_month := (monthOf_spec (month_bounds hpos hlt).1 (month_bounds hpos hlt).2).1
  month_le := (monthOf_spec (month_bounds hpos hlt).1 (month_bounds hpos hlt).2).2.1
  one_le_day := by omega
  day_le := by
    obtain ⟨h0, h11⟩ := month_bounds hpos hlt
    obtain ⟨h1, h12, hmonth, hfeb⟩ := monthOf_spec h0 h11
    have hlength := monthLength_eq
      (y + if monthOf ((5 * doy + 2) / 153) ≤ 2 then 1 else 0) h1 h12
    rw [hmonth] at hlength
    rw [Int.toNat_le, hlength]
    split_ifs with htwo
    · have hlast := hfeb.mp htwo
      rw [add_sub_cancel_right, hlast]
      omega
    all_goals omega

theorem Date.days_ofMarch {y doy : ℤ} (hpos : 0 ≤ doy) (hlt : doy < marchStart (y + 1) - marchStart y) :
    (ofMarch y doy hpos hlt).days = marchStart y + doy - 719468 := by
  obtain ⟨h0, h11⟩ := month_bounds hpos hlt
  obtain ⟨h1, h12, hmonth, hfeb⟩ := monthOf_spec h0 h11
  have hdays := (ofMarch y doy hpos hlt).days_eq
  have hyear : marchYear (ofMarch y doy hpos hlt).year (ofMarch y doy hpos hlt).month = y := by
    unfold marchYear ofMarch
    dsimp only
    split_ifs
    all_goals omega
  have hplace : marchMonth (ofMarch y doy hpos hlt).month = (5 * doy + 2) / 153 := hmonth
  have hday : ((ofMarch y doy hpos hlt).day : ℤ) = doy - (153 * ((5 * doy + 2) / 153) + 2) / 5 + 1 := by
    unfold ofMarch
    dsimp only
    omega
  rw [hyear, hplace, hday] at hdays
  omega

theorem DateTime.seconds_injective : Function.Injective DateTime.seconds := by
  intro t t' h
  have hday : t.date.days = t'.date.days := by
    have hbounds := t.hour_lt
    have hbounds' := t'.hour_lt
    have hminute := t.minute_lt
    have hminute' := t'.minute_lt
    have hsecond := t.second_lt
    have hsecond' := t'.second_lt
    unfold seconds at h
    omega
  have hdate := Date.days_injective hday
  obtain ⟨date, hour, minute, second, hhour, hminute, hsecond⟩ := t
  obtain ⟨date', hour', minute', second', hhour', hminute', hsecond'⟩ := t'
  dsimp only at hdate
  subst hdate
  unfold seconds at h
  dsimp only at h
  obtain ⟨rfl, rfl, rfl⟩ : hour = hour' ∧ minute = minute' ∧ second = second' := by omega
  rfl

end Days

end Krypto.Calendar
