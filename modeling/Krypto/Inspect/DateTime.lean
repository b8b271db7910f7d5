import Krypto.Calendar
import Krypto.Inspect.Formats

/-! `date_time` prints the date and time of the Gregorian calendar that lies the
given number of seconds after the start of 1970. -/

namespace Krypto.Inspect.Formats
open Effect Calendar

/-! ### The year of the era -/

section Era

def yearOfEra (doe : ℤ) : ℤ := (doe - doe / 1460 + doe / 36524 - doe / 146096) / 365

/-- A day of an era as centuries, four-year cycles, years and days. Only the last year of a cycle has
a day 365, and a century's last cycle only where the century is the last. -/
structure Place (doe c q a t : ℤ) : Prop where
  sum : doe = 36524 * c + 1461 * q + 365 * a + t
  century : 0 ≤ c ∧ c ≤ 3
  cycle : 0 ≤ q ∧ q ≤ 24
  year : 0 ≤ a ∧ a ≤ 3
  day : 0 ≤ t ∧ t ≤ 365
  leap : t = 365 → a = 3 ∧ (q = 24 → c = 3)

theorem exists_place {doe : ℤ} (h0 : 0 ≤ doe) (hlt : doe < 146097) : ∃ c q a t, Place doe c q a t := by
  obtain ⟨c, r, hc, hr, hdoe, hlast⟩ : ∃ c r : ℤ, (0 ≤ c ∧ c ≤ 3) ∧ (0 ≤ r ∧ r ≤ 36524) ∧
      doe = 36524 * c + r ∧ (r = 36524 → c = 3) := by
    by_cases hlast : doe = 146096
    · exact ⟨3, 36524, by omega⟩
    · exact ⟨doe / 36524, doe % 36524, by omega⟩
  by_cases hend : r % 1461 = 1460
  · exact ⟨c, r / 1461, 3, 365, by omega, hc, by omega, by omega, by omega, by omega⟩
  · exact ⟨c, r / 1461, r % 1461 / 365, r % 1461 % 365, by omega, hc, by omega, by omega, by omega,
      by omega⟩

theorem Place.yearOfEra_eq {doe c q a t : ℤ} (h : Place doe c q a t) :
    yearOfEra doe = 100 * c + 4 * q + a := by
  obtain ⟨hsum, hc, hq, ha, ht, hleap⟩ := h
  have hcentury : doe / 36524 - doe / 146096 = c := by
    by_cases hlast : doe = 146096
    · omega
    · have hrest : 1461 * q + 365 * a + t < 36524 := by
        by_cases ht365 : t = 365
        · have hthree := hleap ht365
          omega
        · omega
      omega
  -- a cycle has a day more than 1460, so the quotient may be one too large, near its end
  have hcycle : doe / 1460 = 25 * c + q ∧ t ≠ 365 ∨
      doe / 1460 = 25 * c + q + 1 ∧ 1364 ≤ 365 * a + t := by omega
  unfold yearOfEra
  omega

theorem Place.marchStart_eq {doe c q a t : ℤ} (h : Place doe c q a t) :
    marchStart (100 * c + 4 * q + a) = doe - t := by
  obtain ⟨hsum, hc, hq, ha, ht, hleap⟩ := h
  have hfour : (100 * c + 4 * q + a) / 4 = 25 * c + q := by omega
  have hhundred : (100 * c + 4 * q + a) / 100 = c := by omega
  have hera : (100 * c + 4 * q + a) / 400 = 0 := by omega
  rw [marchStart, hfour, hhundred, hera]
  omega

theorem yearOfEra_spec {doe : ℤ} (h0 : 0 ≤ doe) (hlt : doe < 146097) :
    0 ≤ yearOfEra doe ∧ yearOfEra doe ≤ 399 ∧ marchStart (yearOfEra doe) ≤ doe ∧
      doe < marchStart (yearOfEra doe + 1) := by
  obtain ⟨c, q, a, t, hplace⟩ := exists_place h0 hlt
  have hstart := hplace.marchStart_eq
  rw [hplace.yearOfEra_eq, marchStart_succ, hstart]
  obtain ⟨hsum, hc, hq, ha, ht, hleap⟩ := hplace
  have hlast : t = 365 → Leap (100 * c + 4 * q + a + 1) := by
    intro h
    obtain ⟨rfl, hcentury⟩ := hleap h
    unfold Leap
    omega
  split_ifs with hyear
  · omega
  · have hne : t ≠ 365 := fun h => hyear (hlast h)
    omega

end Era

/-! ### The date -/

section Civil

def printed (t : DateTime) : Str :=
  Str.padded 4 t.date.year.toNat ++ ['-'] ++ Str.padded 2 t.date.month ++ ['-'] ++
    Str.padded 2 t.date.day ++ [' '] ++ Str.padded 2 t.hour ++ [':'] ++ Str.padded 2 t.minute ++
    [':'] ++ Str.padded 2 t.second ++ " UTC".toList

theorem marchStart_era {yoe : ℤ} (era : ℤ) (h0 : 0 ≤ yoe) (hle : yoe ≤ 399) :
    marchStart (yoe + era * 400) = 365 * yoe + yoe / 4 - yoe / 100 + era * 146097 ∧
      marchStart (yoe + era * 400 + 1) = marchStart (yoe + 1) + era * 146097 := by
  unfold marchStart
  omega

structure Steps (days z era doe yoe doy mp month : ℤ) : Prop where
  hz : z = days + 719468
  hera : era = z / 146097
  hdoe : doe = z - era * 146097
  hyoe : yoe = yearOfEra doe
  hdoy : doy = doe - (365 * yoe + yoe / 4 - yoe / 100)
  hmp : mp = (5 * doy + 2) / 153
  hmonth : month = if mp < 10 then mp + 3 else mp - 9

theorem exists_date {days z era doe yoe doy mp month : ℤ} (h0 : 0 ≤ days)
    (h : Steps days z era doe yoe doy mp month) :
    ∃ d : Date, d.days = days ∧ (d.day : ℤ) = doy - (153 * mp + 2) / 5 + 1 ∧ (d.month : ℤ) = month ∧
      d.year = yoe + era * 400 + (if month ≤ 2 then 1 else 0) ∧ 1970 ≤ d.year := by
  obtain ⟨hz, hera, hdoe, hyoe, hdoy, hmp, hmonth⟩ := h
  have hdoe0 : 0 ≤ doe := by omega
  have hdoelt : doe < 146097 := by omega
  obtain ⟨hyoe0, hyoele, hstart, hend⟩ := yearOfEra_spec hdoe0 hdoelt
  rw [← hyoe] at hyoe0 hyoele hstart hend
  -- years counted from March: the leap day is the last one of its year
  obtain ⟨hyear, hnext⟩ := marchStart_era era hyoe0 hyoele
  have hstart' : marchStart yoe = 365 * yoe + yoe / 4 - yoe / 100 := by
    unfold marchStart
    omega
  have hpos : 0 ≤ doy := by omega
  have hlt : doy < marchStart (yoe + era * 400 + 1) - marchStart (yoe + era * 400) := by omega
  obtain ⟨hmp0, hmp11⟩ := month_bounds hpos hlt
  rw [← hmp] at hmp0 hmp11
  have hdays := Date.days_ofMarch hpos hlt
  have hmonthnat : ((Date.ofMarch (yoe + era * 400) doy hpos hlt).month : ℤ) = month := by
    unfold Date.ofMarch monthOf
    dsimp only
    rw [← hmp, ← hmonth]
    have h1 : 0 ≤ month := by
      rw [hmonth]
      split_ifs
      all_goals omega
    omega
  refine ⟨Date.ofMarch (yoe + era * 400) doy hpos hlt, by omega, ?_, hmonthnat, ?_, ?_⟩
  · unfold Date.ofMarch
    dsimp only
    rw [← hmp]
    omega
  · rw [← hmonthnat]
    unfold Date.ofMarch
    dsimp only
    norm_cast
  · exact Date.year_of_days (by omega)

theorem dateTime_eq {seconds : ℕ} {z era doe yoe doy mp month : ℤ}
    (h : Steps (seconds / 86400 : ℕ) z era doe yoe doy mp month) :
    dateTime seconds = Str.padded 4 (yoe + era * 400 + (if month ≤ 2 then 1 else 0)).toNat ++ ['-'] ++
      Str.padded 2 month.toNat ++ ['-'] ++ Str.padded 2 (doy - (153 * mp + 2) / 5 + 1).toNat ++ [' '] ++
      Str.padded 2 (seconds % 86400 / 3600) ++ [':'] ++ Str.padded 2 (seconds % 86400 % 3600 / 60) ++
      [':'] ++ Str.padded 2 (seconds % 86400 % 60) ++ " UTC".toList := by
  obtain ⟨hz, hera, hdoe, hyoe, hdoy, hmp, hmonth⟩ := h
  unfold yearOfEra at hyoe
  unfold dateTime
  dsimp only
  rw [← hz, ← hera, ← hdoe, ← hyoe, ← hdoy, ← hmp, ← hmonth]

theorem exists_steps (days : ℤ) :
    ∃ z era doe yoe doy mp month, Steps days z era doe yoe doy mp month :=
  ⟨_, _, _, _, _, _, _, rfl, rfl, rfl, rfl, rfl, rfl, rfl⟩

theorem exists_dateTime (seconds : ℕ) :
    ∃ t : DateTime, t.seconds = seconds ∧ dateTime seconds = printed t ∧ 1970 ≤ t.date.year := by
  obtain ⟨z, era, doe, yoe, doy, mp, month, hsteps⟩ := exists_steps (seconds / 86400 : ℕ)
  obtain ⟨d, hd, hday, hmonth, hyear, h1970⟩ := exists_date (Int.natCast_nonneg _) hsteps
  refine ⟨⟨d, seconds % 86400 / 3600, seconds % 86400 % 3600 / 60, seconds % 86400 % 60, by omega,
    by omega, by omega⟩, ?_, ?_, h1970⟩
  · rw [DateTime.seconds, hd]
    dsimp only
    omega
  · rw [dateTime_eq hsteps, ← hyear, ← hmonth, ← hday, Int.toNat_natCast, Int.toNat_natCast, printed]

end Civil

/-! ### The same in machine integers -/

namespace Checked
variable {ε : Type}

def i64 (z : ℤ) : Outcome ε ℤ := if -2 ^ 63 ≤ z ∧ z < 2 ^ 63 then .ok z else .panic

/-- `date_time`, with a panic where an `i64` overflows; `/` on `i64` rounds to zero. -/
def dateTime (seconds : UInt64) : Outcome ε Str := do
  let days := (seconds / 86400).toInt64.toInt
  let rem := seconds % 86400
  let z ← i64 (days + 719468)
  let era := z / 146097
  let doe ← i64 (z - (← i64 (era * 146097)))
  let yoe ← i64 (doe - doe.tdiv 1460)
  let yoe ← i64 (yoe + doe.tdiv 36524)
  let yoe ← i64 (yoe - doe.tdiv 146096)
  let yoe := yoe.tdiv 365
  let doy ← i64 ((← i64 (365 * yoe)) + yoe.tdiv 4)
  let doy ← i64 (doe - (← i64 (doy - yoe.tdiv 100)))
  let mp ← i64 ((← i64 (5 * doy)) + 2)
  let mp := mp.tdiv 153
  let day ← i64 ((← i64 (153 * mp)) + 2)
  let day ← i64 ((← i64 (doy - day.tdiv 5)) + 1)
  let month ← i64 (if mp < 10 then mp + 3 else mp - 9)
  let year ← i64 (yoe + (← i64 (era * 400)))
  let year ← i64 (year + (if month ≤ 2 then 1 else 0))
  pure (Str.padded 4 year.toNat ++ ['-'] ++ Str.padded 2 month.toNat ++ ['-'] ++
    Str.padded 2 day.toNat ++ [' '] ++ Str.padded 2 (rem / 3600).toNat ++ [':'] ++
    Str.padded 2 (rem % 3600 / 60).toNat ++ [':'] ++ Str.padded 2 (rem % 60).toNat ++ " UTC".toList)

end Checked

section Machine
variable {ε : Type}

theorem i64_of {z : ℤ} (h0 : -2 ^ 63 ≤ z) (hlt : z < 2 ^ 63) : (Checked.i64 z : Outcome ε ℤ) = .ok z :=
  if_pos ⟨h0, hlt⟩

theorem days_toInt (seconds : UInt64) :
    (seconds / 86400).toInt64.toInt = (seconds.toNat / 86400 : ℕ) := by
  have hlt := seconds.toNat_lt
  have hdiv : (seconds / 86400).toNat = seconds.toNat / 86400 := UInt64.toNat_div seconds 86400
  have hsmall : 2 * (seconds / 86400).toBitVec.toNat < 2 ^ 64 := by
    rw [UInt64.toNat_toBitVec, hdiv]
    omega
  rw [Int64.toInt, UInt64.toBitVec_toInt64, BitVec.toInt_eq_toNat_of_lt hsmall, UInt64.toNat_toBitVec,
    hdiv]

structure Bounds (z era doe yoe doy mp month : ℤ) : Prop where
  hz : 0 ≤ z ∧ z < 2 ^ 50
  hera : 0 ≤ era ∧ era < 2 ^ 40
  hdoe : 0 ≤ doe ∧ doe < 146097
  hyoe : 0 ≤ yoe ∧ yoe ≤ 399
  hdoy : 0 ≤ doy ∧ doy ≤ 365
  hmp : 0 ≤ mp ∧ mp ≤ 11
  hmonth : 1 ≤ month ∧ month ≤ 12

theorem Steps.bounds {days z era doe yoe doy mp month : ℤ} (h0 : 0 ≤ days) (hlt : days < 2 ^ 49)
    (h : Steps days z era doe yoe doy mp month) : Bounds z era doe yoe doy mp month := by
  obtain ⟨hz, hera, hdoe, hyoe, hdoy, hmp, hmonth⟩ := h
  have hdoe0 : 0 ≤ doe := by omega
  have hdoelt : doe < 146097 := by omega
  obtain ⟨hyoe0, hyoele, hstart, hend⟩ := yearOfEra_spec hdoe0 hdoelt
  rw [← hyoe] at hyoe0 hyoele hstart hend
  have hstart' : marchStart yoe = 365 * yoe + yoe / 4 - yoe / 100 := by
    unfold marchStart
    omega
  have hend' : marchStart (yoe + 1) ≤ marchStart yoe + 366 := by
    rw [marchStart_succ]
    split_ifs
    all_goals omega
  have hdoybounds : 0 ≤ doy ∧ doy ≤ 365 := by omega
  refine ⟨by omega, by omega, by omega, ⟨hyoe0, hyoele⟩, hdoybounds, by omega, ?_⟩
  rw [hmonth]
  split_ifs
  all_goals omega

theorem checked_dateTime (seconds : UInt64) :
    (Checked.dateTime seconds : Outcome ε Str) = .ok (dateTime seconds.toNat) := by
  have hlt := seconds.toNat_lt
  obtain ⟨z, era, doe, yoe, doy, mp, month, hsteps⟩ := exists_steps (seconds.toNat / 86400 : ℕ)
  obtain ⟨hzb, herab, hdoeb, hyoeb, hdoyb, hmpb, hmonthb⟩ :=
    hsteps.bounds (Int.natCast_nonneg _) (by omega)
  rw [dateTime_eq hsteps]
  obtain ⟨hz, hera, hdoe, hyoe, hdoy, hmp, hmonth⟩ := hsteps
  unfold yearOfEra at hyoe
  unfold Checked.dateTime
  rw [days_toInt]
  dsimp only
  rw [i64_of (by omega) (by omega), Outcome.ok_bind, ← hz, ← hera, i64_of (by omega) (by omega),
    Outcome.ok_bind, ← hdoe, i64_of (by omega) (by omega), Outcome.ok_bind]
  simp only [Int.tdiv_eq_ediv_of_nonneg hdoeb.1]
  rw [i64_of (by omega) (by omega), Outcome.ok_bind, i64_of (by omega) (by omega), Outcome.ok_bind,
    i64_of (by omega) (by omega), Outcome.ok_bind, Int.tdiv_eq_ediv_of_nonneg (by omega), ← hyoe]
  simp only [Int.tdiv_eq_ediv_of_nonneg hyoeb.1]
  rw [i64_of (by omega) (by omega), Outcome.ok_bind, i64_of (by omega) (by omega), Outcome.ok_bind,
    i64_of (by omega) (by omega), Outcome.ok_bind, ← hdoy, i64_of (by omega) (by omega),
    Outcome.ok_bind, i64_of (by omega) (by omega), Outcome.ok_bind, i64_of (by omega) (by omega),
    Outcome.ok_bind, Int.tdiv_eq_ediv_of_nonneg (by omega), ← hmp]
  rw [i64_of (by omega) (by omega), Outcome.ok_bind, i64_of (by omega) (by omega), Outcome.ok_bind,
    Int.tdiv_eq_ediv_of_nonneg (by omega), i64_of (by omega) (by omega), Outcome.ok_bind,
    i64_of (by omega) (by omega), Outcome.ok_bind]
  have hleap : 0 ≤ (if month ≤ 2 then 1 else 0 : ℤ) ∧ (if month ≤ 2 then 1 else 0 : ℤ) ≤ 1 := by
    split_ifs
    all_goals decide
  rw [← hmonth, i64_of (by omega) (by omega), Outcome.ok_bind, i64_of (by omega) (by omega),
    Outcome.ok_bind, i64_of (by omega) (by omega), Outcome.ok_bind, i64_of (by omega) (by omega),
    Outcome.ok_bind, Outcome.pure_eq]
  simp only [UInt64.toNat_div, UInt64.toNat_mod, UInt64.reduceToNat]

end Machine

/-! ### What is printed says which date it is -/

section Printed

theorem isDigit_of_mem_padded {width n : ℕ} {c : Char} (h : c ∈ Str.padded width n) : c.isDigit := by
  obtain hzero | hdecimal := List.mem_append.mp h
  · rw [List.eq_of_mem_replicate hzero]
    decide
  · exact Str.isDigit_of_mem_decimal hdecimal

theorem padded_injective (width : ℕ) : Function.Injective (Str.padded width) := by
  intro m n h
  have hvalue := congrArg (fun digits => Nat.ofDigitChars 10 digits 0) h
  simpa [Str.padded, Str.decimal, Nat.ofDigitChars_append, Nat.ofDigitChars_replicate_zero] using hvalue

/-- Numbers are read back up to what separates them. -/
theorem padded_append_inj {width m n : ℕ} {sep : Char} {rest rest' : Str} (hsep : sep.isDigit = false)
    (h : Str.padded width m ++ sep :: rest = Str.padded width n ++ sep :: rest') : m = n ∧ rest = rest' := by
  have hdigits (k : ℕ) (back : Str) :
      (Str.padded width k ++ sep :: back).takeWhile Char.isDigit = Str.padded width k := by
    rw [List.takeWhile_append_of_pos fun c hc => isDigit_of_mem_padded hc,
      List.takeWhile_cons_of_neg (by simp [hsep]), List.append_nil]
  have hsame : Str.padded width m = Str.padded width n := by
    rw [← hdigits m rest, h, hdigits]
  rw [hsame] at h
  exact ⟨padded_injective width hsame, (List.cons.inj (List.append_cancel_left h)).2⟩

theorem printed_inj {t t' : DateTime} (h0 : 0 ≤ t.date.year) (h0' : 0 ≤ t'.date.year)
    (h : printed t = printed t') : t = t' := by
  have hutc : " UTC".toList = ' ' :: "UTC".toList := rfl
  simp only [printed, hutc, List.append_assoc, List.singleton_append] at h
  obtain ⟨hyear, h⟩ := padded_append_inj rfl h
  obtain ⟨hmonth, h⟩ := padded_append_inj rfl h
  obtain ⟨hday, h⟩ := padded_append_inj rfl h
  obtain ⟨hhour, h⟩ := padded_append_inj rfl h
  obtain ⟨hminute, h⟩ := padded_append_inj rfl h
  obtain ⟨hsecond, -⟩ := padded_append_inj rfl h
  obtain ⟨⟨year, month, day, _, _, _, _⟩, hour, minute, second, _, _, _⟩ := t
  obtain ⟨⟨year', month', day', _, _, _, _⟩, hour', minute', second', _, _, _⟩ := t'
  dsimp only at *
  obtain rfl : year = year' := by omega
  subst hmonth hday hhour hminute hsecond
  rfl

/-- `date_time` against the calendar: what it prints is a date and time, the one that many seconds
after the first of 1970, and nothing overflows on the way. -/
theorem date_time_gregorian (seconds : UInt64) :
    (∃ t : DateTime, t.seconds = seconds.toNat ∧ dateTime seconds.toNat = printed t ∧
      1970 ≤ t.date.year ∧ (∀ t' : DateTime, t'.seconds = seconds.toNat → t' = t) ∧
      ∀ t' : DateTime, 0 ≤ t'.date.year → dateTime seconds.toNat = printed t' → t' = t) ∧
    (Checked.dateTime seconds : Outcome Error Str) = .ok (dateTime seconds.toNat) := by
  obtain ⟨t, hseconds, hprinted, h1970⟩ := exists_dateTime seconds.toNat
  refine ⟨⟨t, hseconds, hprinted, h1970, ?_, ?_⟩, checked_dateTime seconds⟩
  · intro t' h
    exact DateTime.seconds_injective (h.trans hseconds.symm)
  · intro t' h0 h
    exact printed_inj h0 (by omega) (h.symm.trans hprinted)

end Printed

end Krypto.Inspect.Formats
