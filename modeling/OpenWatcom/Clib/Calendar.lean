import OpenWatcom.Lib.Gregorian

/-! # Calendar time

Breaking down a time into a date (`brktime`) and making a time from one (`localMktime`, `mktime`), for targets where
`int` and `long` have 32 bits and `time_t` is unsigned. -/

namespace OpenWatcom.Clib.Calendar

open Gregorian

/-- `struct tm`. -/
structure Tm where
  sec : ℤ
  min : ℤ
  hour : ℤ
  mday : ℤ
  mon : ℤ
  year : ℤ
  wday : ℤ
  yday : ℤ
  isdst : ℤ
deriving DecidableEq

/-- What a signed value of 32 bits is after arithmetic. -/
def signed (x : ℤ) : ℤ := x.bmod (2 ^ 32)

/-- What an unsigned value of 32 bits is after arithmetic. -/
def unsigned (x : ℤ) : ℤ := x % 2 ^ 32

def secondsPerDay : ℤ := 24 * 60 * 60

def daysFrom1900To1970 : ℤ := 25567

/-- `__diyr`. -/
def diyr : List ℤ := [0, 31, 59, 90, 120, 151, 181, 212, 243, 273, 304, 334, 365]

/-- `__dilyr`. -/
def dilyr : List ℤ := [0, 31, 60, 91, 121, 152, 182, 213, 244, 274, 305, 335, 366]

/-- `__leapyear`. -/
def leapyear (year : ℤ) : ℤ :=
  if year % 4 ≠ 0 then 0
  else if year % 100 ≠ 0 then 1
  else if year % 400 = 0 then 1
  else 0

/-- `__DaysToJan1`. -/
def daysToJan1 (year : ℤ) : ℤ :=
  let years := unsigned (1900 + year - 1)
  let leapDays := unsigned (years / 4 - years / 100 + years / 400 - 460)
  unsigned (year * 365 + leapDays)

/-- The loop of `__brktime` that corrects the year. -/
def yearLoop (year dayOfYear : ℤ) : ℤ × ℤ :=
  if dayOfYear < 0 then
    let prev := unsigned (year - 1)
    yearLoop prev (dayOfYear + (leapyear (unsigned (prev + 1900)) + 365))
  else (year, dayOfYear)
termination_by (-dayOfYear).toNat
decreasing_by
  have hleap (y : ℤ) : 0 ≤ leapyear y := by
    unfold leapyear
    split_ifs <;> decide
  have hyear := hleap (unsigned (unsigned (year - 1) + 1900))
  omega

/-- `__brktime`. -/
def brktime (days wallclock gmtdelta : ℤ) (t : Tm) : Tm :=
  let (days, wallclock) :=
    if wallclock < 12 * 60 * 60 ∧ 0 < gmtdelta then (unsigned (days - 1), unsigned (wallclock + secondsPerDay))
    else (days, wallclock)
  let wallclock := unsigned (wallclock - gmtdelta)
  let days := unsigned (days + wallclock / secondsPerDay)
  let secs := wallclock % secondsPerDay
  let hour := secs / 3600
  let secs := secs % 3600
  let (year, dayOfYear) := yearLoop (days / 365) (signed (days - daysToJan1 (days / 365)))
  let monthStart := if leapyear (unsigned (year + 1900)) ≠ 0 then dilyr else diyr
  let month := dayOfYear / 31
  let month := if monthStart.getD (month + 1).toNat 0 ≤ dayOfYear then month + 1 else month
  { sec := secs % 60, min := secs / 60, hour := hour, mday := dayOfYear - monthStart.getD month.toNat 0 + 1,
    mon := month, year := signed year, wday := unsigned (days + 1) % 7, yday := dayOfYear, isdst := t.isdst }

/-- `SMALLEST_YEAR_VALUE`, where `int` has 32 bits. -/
def smallestYearValue : ℤ :=
  (-2 ^ 31 : ℤ).tdiv 12 + (-2 ^ 31 : ℤ).tdiv 365 + (-2 ^ 31 : ℤ).tdiv (365 * 24 * 60) +
    (-2 ^ 31 : ℤ).tdiv (365 * 24 * 60 * 60)

/-- The loop of `__local_mktime` for seconds below 0. -/
def borrowDays (days seconds : ℤ) : ℤ × ℤ :=
  if seconds < 0 then borrowDays (signed (days - 1)) (seconds + secondsPerDay) else (days, seconds)
termination_by (-seconds).toNat
decreasing_by
  unfold secondsPerDay
  omega

/-- The loop of `__local_mktime` for seconds of another day. -/
def carryDays (days seconds : ℤ) : ℤ × ℤ :=
  if secondsPerDay ≤ seconds then carryDays (signed (days + 1)) (seconds - secondsPerDay) else (days, seconds)
termination_by seconds.toNat
decreasing_by
  unfold secondsPerDay at *
  omega

/-- The days that `__local_mktime` adds up. -/
def daySum (t : Tm) (year month : ℤ) : ℤ :=
  let monthStart := if leapyear (unsigned (year + 1900)) ≠ 0 then dilyr else diyr
  year * 365 + (signed (year + 3)).tdiv 4 - (signed (year + 99)).tdiv 100 + (signed (year + 399 - 100)).tdiv 400 +
    monthStart.getD month.toNat 0 + t.mday - 1

/-- `__local_mktime`: what it returns, and the values behind `pdays` and `pseconds` when it sets them. -/
def localMktime (t : Tm) : ℤ × Option (ℤ × ℤ) :=
  let month := t.mon.tmod 12
  if t.year < smallestYearValue then (unsigned (-1), none)
  else
    let year := signed (t.year + t.mon.tdiv 12)
    let (year, month) := if month < 0 then (signed (year - 1), month + 12) else (year, month)
    if year < 0 then (unsigned (-1), none)
    else
      let days := signed (daySum t year month)
      let seconds := signed ((t.hour * 60 + t.min) * 60 + t.sec)
      let (days, seconds) := borrowDays days seconds
      let (days, seconds) := carryDays days seconds
      if days < daysFrom1900To1970 - 1 then (unsigned (-1), none)
      else (unsigned (seconds + (days - daysFrom1900To1970) * secondsPerDay), some (days, seconds))

/-- `mktime` with the timezone, the adjustment and `__isindst`, which sets `tm_isdst`; `none` when it uses `days` and
`day_seconds` that nobody set. -/
def mktime (timezone dstAdjust : ℤ) (isindst : Tm → ℤ) (t : Tm) : Option (ℤ × Tm) :=
  let (seconds, stored) := localMktime t
  stored.map fun (days, daySeconds) =>
    let t := brktime (unsigned days) (unsigned daySeconds) 0 t
    let seconds := signed (seconds + timezone)
    let t := { t with isdst := isindst t }
    let seconds := if t.isdst ≠ 0 then signed (seconds - dstAdjust) else seconds
    if 75279 ≤ days ∨ 0 ≤ seconds ∧ 75276 ≤ days ∨ seconds < 0 ∧ days ≤ daysFrom1900To1970 then (unsigned (-1), t)
    else (unsigned seconds, t)

/-! ### What they mean -/

/-- The fields of day `day` of the calendar from 1900 on, and of second `secs` of it. -/
structure Fields (day secs : ℤ) (t : Tm) : Prop where
  hour : t.hour = secs / 3600
  min : t.min = secs % 3600 / 60
  sec : t.sec = secs % 60
  mon : 0 ≤ t.mon ∧ t.mon < 12
  mday : 1 ≤ t.mday ∧ t.mday ≤ (months (leap (1900 + t.year))).getD t.mon.toNat 0
  yday : t.yday = monthStart (leap (1900 + t.year)) t.mon.toNat + t.mday - 1
  date : day = daysBefore (1900 + t.year) - daysBefore 1900 + t.yday
  wday : t.wday = (day + 1) % 7

theorem leapyear_ne_zero (y : ℤ) : leapyear y ≠ 0 ↔ leap y = true := by
  unfold leapyear leap
  simp only [Bool.and_eq_true, Bool.or_eq_true, beq_iff_eq, bne_iff_ne, ne_eq]
  split_ifs <;> omega

theorem leapyear_eq (y : ℤ) : leapyear y + 365 = yearLength y := by
  have h := leapyear_ne_zero y
  unfold yearLength
  by_cases hleap : leap y = true
  · rw [if_pos hleap]
    have hne := h.mpr hleap
    unfold leapyear at *
    split_ifs at * <;> omega
  · rw [if_neg hleap]
    have hzero : leapyear y = 0 := by
      by_contra hne
      exact hleap (h.mp hne)
    omega

/-- The table of a year. -/
theorem monthStart_getD (b : Bool) (m : ℕ) (hm : m ≤ 12) :
    (if b then dilyr else diyr).getD m 0 = monthStart b m := by
  revert m b
  decide

theorem daysToJan1_eq (year : ℤ) (h0 : 0 ≤ year) (h1 : year < 2 ^ 23) :
    daysToJan1 year = daysBefore (1900 + year) - daysBefore 1900 := by
  unfold daysToJan1 unsigned daysBefore
  have hyears : (1900 + year - 1) % 2 ^ 32 = 1900 + year - 1 :=
    Int.emod_eq_of_lt (by omega) (by norm_num at h1 ⊢; omega)
  dsimp only
  rw [hyears]
  have hleap : ((1900 + year - 1) / 4 - (1900 + year - 1) / 100 + (1900 + year - 1) / 400 - 460) % 2 ^ 32 =
      (1900 + year - 1) / 4 - (1900 + year - 1) / 100 + (1900 + year - 1) / 400 - 460 :=
    Int.emod_eq_of_lt (by omega) (by norm_num at h1 ⊢; omega)
  rw [hleap]
  norm_num at h1 ⊢
  omega

theorem yearLoop_spec (day : ℤ) {year dayOfYear : ℤ} (hday : 0 ≤ day) (h0 : 0 ≤ year) (h1 : year < 2 ^ 23)
    (hdate : day = daysBefore (1900 + year) - daysBefore 1900 + dayOfYear)
    (hshort : dayOfYear < yearLength (1900 + year)) :
    ∃ y d, yearLoop year dayOfYear = (y, d) ∧ 0 ≤ y ∧ y < 2 ^ 23 ∧ 0 ≤ d ∧ d < yearLength (1900 + y) ∧
      day = daysBefore (1900 + y) - daysBefore 1900 + d := by
  induction year, dayOfYear using yearLoop.induct with
  | case1 year dayOfYear hneg year' ih =>
      have hpos : 1 ≤ year := by
        by_contra hlt
        have hzero : year = 0 := by omega
        subst hzero
        rw [add_zero] at hdate
        omega
      have hyear : year' = year - 1 := by
        change (year - 1) % 2 ^ 32 = year - 1
        norm_num at h1 ⊢
        omega
      have hnext : unsigned (year' + 1900) = 1900 + (year - 1) := by
        rw [hyear]
        unfold unsigned
        norm_num at h1 ⊢
        omega
      have hsucc := daysBefore_succ (1900 + (year - 1))
      rw [show 1900 + (year - 1) + 1 = 1900 + year by ring] at hsucc
      rw [hnext, leapyear_eq, hyear] at ih
      obtain ⟨y, d, hloop, hrest⟩ := ih (by omega) (by omega) (by omega) (by omega)
      refine ⟨y, d, ?_, hrest⟩
      rw [yearLoop, if_pos hneg]
      change yearLoop year' _ = _
      rw [hnext, leapyear_eq, hyear, hloop]
  | case2 year dayOfYear hpos =>
      refine ⟨year, dayOfYear, ?_, h0, h1, by omega, hshort, hdate⟩
      rw [yearLoop, if_neg hpos]

/-- The month of a day of the year, as `__brktime` finds it from the table. -/
def monthOf (isLeap : Bool) (d : ℤ) : ℤ :=
  if (if isLeap then dilyr else diyr).getD (d / 31 + 1).toNat 0 ≤ d then d / 31 + 1 else d / 31

theorem monthOf_spec (isLeap : Bool) {d : ℤ} (h0 : 0 ≤ d) (h1 : d < if isLeap then 366 else 365) :
    0 ≤ monthOf isLeap d ∧ monthOf isLeap d < 12 ∧ monthStart isLeap (monthOf isLeap d).toNat ≤ d ∧
      d < monthStart isLeap (monthOf isLeap d).toNat + (months isLeap).getD (monthOf isLeap d).toNat 0 := by
  have hall : ∀ b : Bool, ∀ n : Fin 366, (n : ℤ) < (if b then 366 else 365) →
      0 ≤ monthOf b n ∧ monthOf b n < 12 ∧ monthStart b (monthOf b n).toNat ≤ n ∧
        (n : ℤ) < monthStart b (monthOf b n).toNat + (months b).getD (monthOf b n).toNat 0 := by
    decide +kernel
  have hlt : d.toNat < 366 := by
    split at h1 <;> omega
  have hd : ((⟨d.toNat, hlt⟩ : Fin 366) : ℤ) = d := Int.toNat_of_nonneg h0
  have h := hall isLeap ⟨d.toNat, hlt⟩
  rw [hd] at h
  exact h h1

/-- The table that `__brktime` and `__local_mktime` take for a year. -/
theorem table_eq {y : ℤ} (h0 : 0 ≤ y) (h1 : y < 2 ^ 31) :
    (if leapyear (unsigned (y + 1900)) ≠ 0 then dilyr else diyr) = if leap (1900 + y) then dilyr else diyr := by
  have hy : unsigned (y + 1900) = 1900 + y := by
    unfold unsigned
    norm_num at h1 ⊢
    omega
  rw [hy]
  by_cases hleap : leap (1900 + y) = true
  · rw [if_pos ((leapyear_ne_zero _).mpr hleap), if_pos hleap]
  · rw [if_neg (fun hne => hleap ((leapyear_ne_zero _).mp hne)), if_neg hleap]

/-- `__brktime` without an offset gives the fields of the instant. -/
theorem brktime_fields {days wallclock : ℤ} (hdays : 0 ≤ days) (hw : 0 ≤ wallclock) (hw' : wallclock < 2 ^ 32)
    (hlt : days + wallclock / secondsPerDay < 2 ^ 31) (t : Tm) :
    Fields (days + wallclock / secondsPerDay) (wallclock % secondsPerDay) (brktime days wallclock 0 t) ∧
      0 ≤ (brktime days wallclock 0 t).year ∧ (brktime days wallclock 0 t).year < 2 ^ 23 := by
  have hq : 0 ≤ wallclock / secondsPerDay := Int.ediv_nonneg hw (by decide)
  have hday : unsigned (days + wallclock / secondsPerDay) = days + wallclock / secondsPerDay :=
    Int.emod_eq_of_lt (by omega) (by norm_num at hlt ⊢; omega)
  have hwall : unsigned (wallclock - 0) = wallclock := by
    rw [sub_zero]
    exact Int.emod_eq_of_lt hw hw'
  have hcond : ¬ (wallclock < 12 * 60 * 60 ∧ (0 : ℤ) < 0) := fun h => lt_irrefl _ h.2
  generalize hdef : days + wallclock / secondsPerDay = day at *
  have hpos : 0 ≤ day := by omega
  have hjan := daysToJan1_eq (day / 365) (by omega) (by omega)
  have hsigned : signed (day - daysToJan1 (day / 365)) =
      day - (daysBefore (1900 + day / 365) - daysBefore 1900) := by
    rw [hjan, signed, Int.bmod_eq_of_le] <;> unfold daysBefore <;> norm_num at hlt ⊢ <;> omega
  have hbounds := yearLength_bounds (1900 + day / 365)
  obtain ⟨y, d, hloop, hy0, hy1, hd0, hd1, hdate⟩ := yearLoop_spec day hpos (by omega) (by omega)
    (show day = daysBefore (1900 + day / 365) - daysBefore 1900 +
      (day - (daysBefore (1900 + day / 365) - daysBefore 1900)) by ring) (by unfold daysBefore at *; omega)
  have hyear : signed y = y := by
    rw [signed, Int.bmod_eq_of_le] <;> norm_num at hy1 ⊢ <;> omega
  obtain ⟨hm0, hm1, hstart, hend⟩ := monthOf_spec (leap (1900 + y)) hd0 (by
    unfold yearLength at hd1
    exact hd1)
  have hentry := monthStart_getD (leap (1900 + y)) (monthOf (leap (1900 + y)) d).toNat (by omega)
  have hbrk : brktime days wallclock 0 t =
      { sec := wallclock % secondsPerDay % 3600 % 60, min := wallclock % secondsPerDay % 3600 / 60,
        hour := wallclock % secondsPerDay / 3600,
        mday := d - monthStart (leap (1900 + y)) (monthOf (leap (1900 + y)) d).toNat + 1,
        mon := monthOf (leap (1900 + y)) d, year := y, wday := unsigned (day + 1) % 7, yday := d,
        isdst := t.isdst } := by
    unfold brktime
    rw [if_neg hcond]
    dsimp only
    rw [hwall, hdef, hday, hsigned, hloop]
    dsimp only
    rw [table_eq hy0 (by omega), hyear]
    change Tm.mk _ _ _ (d - (if leap (1900 + y) = true then dilyr else diyr).getD
      (monthOf (leap (1900 + y)) d).toNat 0 + 1) (monthOf (leap (1900 + y)) d) _ _ _ _ = _
    rw [hentry]
  rw [hbrk]
  refine ⟨⟨rfl, rfl, ?_, ⟨hm0, hm1⟩, ⟨?_, ?_⟩, ?_, ?_, ?_⟩, hy0, hy1⟩
  · dsimp only
    omega
  · dsimp only
    omega
  · dsimp only
    omega
  · dsimp only
    ring
  · dsimp only
    exact hdate
  · have hnext : unsigned (day + 1) = day + 1 := Int.emod_eq_of_lt (by omega) (by norm_num at hlt ⊢; omega)
    dsimp only
    rw [hnext]

/-! ### Times from fields -/

/-- Every field is an `int`. -/
def Tm.Ints (t : Tm) : Prop :=
  ∀ x ∈ [t.sec, t.min, t.hour, t.mday, t.mon, t.year], -2 ^ 31 ≤ x ∧ x < 2 ^ 31

/-- The year with the months carried into it. -/
def Tm.carriedYear (t : Tm) : ℤ := t.year + t.mon / 12

/-- The day from 1900 on that the date fields say, whatever their size. -/
def Tm.dayNumber (t : Tm) : ℤ :=
  daysBefore (1900 + t.carriedYear) - daysBefore 1900 +
    monthStart (leap (1900 + t.carriedYear)) (t.mon % 12).toNat + t.mday - 1

/-- The seconds that the time fields say. -/
def Tm.timeOfDay (t : Tm) : ℤ := (t.hour * 60 + t.min) * 60 + t.sec

/-- The instant that adds the fields, from 1970 on. -/
def Tm.instant (t : Tm) : ℤ := (t.dayNumber - daysFrom1900To1970) * secondsPerDay + t.timeOfDay

/-- The date lies in the range of `time_t`. -/
def Tm.InRange (t : Tm) : Prop := 0 ≤ t.instant ∧ t.instant < 2 ^ 32

variable {t : Tm}

theorem signed_add_signed (x y : ℤ) : signed (signed x + y) = signed (x + y) := by
  unfold signed
  exact Int.bmod_add_bmod

theorem signed_of_lt {x : ℤ} (h0 : -2 ^ 31 ≤ x) (h1 : x < 2 ^ 31) : signed x = x := by
  rw [signed, Int.bmod_eq_of_le] <;> norm_num at h0 h1 ⊢ <;> omega

theorem borrowDays_spec (x seconds : ℤ) :
    borrowDays (signed x) seconds =
      if seconds < 0 then (signed (x + seconds / secondsPerDay), seconds % secondsPerDay)
      else (signed x, seconds) := by
  induction hn : (-seconds).toNat using Nat.strong_induction_on generalizing x seconds with
  | _ n ih =>
      rw [borrowDays]
      split
      · rename_i hneg
        have hday : secondsPerDay = 86400 := rfl
        have hprev : signed (signed x - 1) = signed (x - 1) := by
          rw [sub_eq_add_neg, signed_add_signed, ← sub_eq_add_neg]
        rw [hprev, ih _ (by omega) (x - 1) (seconds + secondsPerDay) rfl]
        split
        · rw [Int.add_emod_right, Int.add_ediv_of_dvd_right (dvd_refl _), hday]
          congr 2
          ring
        · rw [hday] at *
          congr 1
          · congr 1
            omega
          · omega
      · rfl

theorem carryDays_spec (x seconds : ℤ) (h : 0 ≤ seconds) :
    carryDays (signed x) seconds = (signed (x + seconds / secondsPerDay), seconds % secondsPerDay) := by
  have hday : secondsPerDay = 86400 := rfl
  induction hn : seconds.toNat using Nat.strong_induction_on generalizing x seconds with
  | _ n ih =>
      rw [carryDays]
      split
      · rename_i hge
        rw [signed_add_signed, ih _ (by omega) (x + 1) (seconds - secondsPerDay) (by omega) rfl, hday]
        congr 1
        · congr 1
          omega
        · omega
      · rename_i hlt
        rw [Int.ediv_eq_zero_of_lt h (not_le.mp hlt), Int.emod_eq_of_lt h (not_le.mp hlt), add_zero]

/-- The loops together split the seconds into days and the rest. -/
theorem normalise_spec (x seconds : ℤ) :
    carryDays (borrowDays (signed x) seconds).1 (borrowDays (signed x) seconds).2 =
      (signed (x + seconds / secondsPerDay), seconds % secondsPerDay) := by
  have hpos : 0 ≤ seconds % secondsPerDay := Int.emod_nonneg _ (by decide)
  have hlt : seconds % secondsPerDay < secondsPerDay := Int.emod_lt_of_pos _ (by decide)
  rw [borrowDays_spec]
  split
  · rw [carryDays_spec _ _ hpos, Int.ediv_eq_zero_of_lt hpos hlt, add_zero, Int.emod_emod]
  · rename_i hnn
    rw [carryDays_spec _ _ (not_lt.mp hnn)]

/-- The exits of `__local_mktime` that return -1. -/
def Tm.Rejected (t : Tm) : Prop :=
  t.year < smallestYearValue ∨ signed t.carriedYear < 0 ∨
    signed (daySum t (signed t.carriedYear) (t.mon % 12) + signed t.timeOfDay / secondsPerDay) <
      daysFrom1900To1970 - 1

instance (t : Tm) : Decidable t.Rejected := inferInstanceAs (Decidable (_ ∨ _ ∨ _))

/-- `__local_mktime` without its loops. -/
theorem localMktime_eq (t : Tm) :
    localMktime t =
      if t.Rejected then (unsigned (-1), none)
      else
        let days := signed (daySum t (signed t.carriedYear) (t.mon % 12) + signed t.timeOfDay / secondsPerDay)
        let seconds := signed t.timeOfDay % secondsPerDay
        (unsigned (seconds + (days - daysFrom1900To1970) * secondsPerDay), some (days, seconds)) := by
  have hcarry : (if t.mon.tmod 12 < 0 then (signed (signed (t.year + t.mon.tdiv 12) - 1), t.mon.tmod 12 + 12)
      else (signed (t.year + t.mon.tdiv 12), t.mon.tmod 12)) = (signed t.carriedYear, t.mon % 12) := by
    have htrunc : 12 * t.mon.tdiv 12 + t.mon.tmod 12 = t.mon := Int.mul_tdiv_add_tmod _ _
    have hlow : -12 < t.mon.tmod 12 := Int.lt_tmod_of_pos _ (by norm_num)
    have hhigh : t.mon.tmod 12 < 12 := Int.tmod_lt_of_pos _ (by norm_num)
    unfold Tm.carriedYear
    split
    · rw [sub_eq_add_neg, signed_add_signed]
      congr 1
      · congr 1
        omega
      · omega
    · congr 1
      · congr 1
        omega
      · omega
  unfold localMktime
  dsimp only
  rw [hcarry]
  dsimp only
  by_cases h1 : t.year < smallestYearValue
  · rw [if_pos h1, if_pos (show t.Rejected from Or.inl h1)]
  · rw [if_neg h1]
    by_cases h2 : signed t.carriedYear < 0
    · rw [if_pos h2, if_pos (show t.Rejected from Or.inr (Or.inl h2))]
    · have hn := normalise_spec (daySum t (signed t.carriedYear) (t.mon % 12)) (signed t.timeOfDay)
      unfold Tm.timeOfDay at hn
      rw [if_neg h2, hn]
      dsimp only
      by_cases h3 : signed (daySum t (signed t.carriedYear) (t.mon % 12) + signed t.timeOfDay / secondsPerDay) <
          daysFrom1900To1970 - 1
      · rw [if_pos (show t.Rejected from Or.inr (Or.inr h3))]
        exact if_pos h3
      · have hkept : ¬ t.Rejected := by
          unfold Tm.Rejected
          tauto
        rw [if_neg hkept]
        exact if_neg h3

theorem monthStart_bounds (b : Bool) {m : ℤ} (h0 : 0 ≤ m) (h1 : m < 12) :
    0 ≤ monthStart b m.toNat ∧ monthStart b m.toNat ≤ 335 := by
  have hall : ∀ b : Bool, ∀ m : Fin 12, 0 ≤ monthStart b m ∧ monthStart b m ≤ 335 := by decide
  exact hall b ⟨m.toNat, by omega⟩

/-- Fields that are ints and a date in the range keep the year small. -/
theorem carriedYear_bounds (hint : t.Ints) (hrange : t.InRange) :
    -2 ^ 23 < t.carriedYear ∧ t.carriedYear < 2 ^ 23 := by
  obtain ⟨h0, h1⟩ := hrange
  have hms := monthStart_bounds (leap (1900 + t.carriedYear)) (Int.emod_nonneg t.mon (by norm_num : (12 : ℤ) ≠ 0))
    (Int.emod_lt_of_pos t.mon (by norm_num))
  simp only [Tm.Ints, List.forall_mem_cons] at hint
  unfold Tm.instant Tm.timeOfDay Tm.dayNumber daysFrom1900To1970 secondsPerDay daysBefore at *
  norm_num at hint h0 h1 ⊢
  omega

/-- The days add up to the day number as long as the year is small. -/
theorem daySum_eq (h0 : 0 ≤ t.carriedYear) (h1 : t.carriedYear < 2 ^ 23) :
    daySum t (signed t.carriedYear) (t.mon % 12) = t.dayNumber := by
  have hs (k : ℤ) (hk : 0 ≤ k) (hk' : k < 2 ^ 10) : signed (t.carriedYear + k) = t.carriedYear + k :=
    signed_of_lt (by omega) (by norm_num at h1 hk' ⊢; omega)
  have hzero := hs 0 (by norm_num) (by norm_num)
  rw [add_zero] at hzero
  unfold daySum
  dsimp only
  rw [hzero, table_eq h0 (by norm_num at h1 ⊢; omega), hs 3 (by norm_num) (by norm_num),
    hs 99 (by norm_num) (by norm_num), show t.carriedYear + 399 - 100 = t.carriedYear + 299 by ring,
    hs 299 (by norm_num) (by norm_num),
    monthStart_getD _ _ (by omega), Int.tdiv_eq_ediv_of_nonneg (by omega), Int.tdiv_eq_ediv_of_nonneg (by omega),
    Int.tdiv_eq_ediv_of_nonneg (by omega)]
  unfold Tm.dayNumber daysBefore
  omega

/-- `mktime` returns the instant of a date in the range and leaves its fields, and for a date that `__local_mktime`
rejects it returns -1 without values that were never set. -/
def MktimeRight (timezone dstAdjust : ℤ) (isindst : Tm → ℤ) (t : Tm) : Prop :=
  (t.InRange → (localMktime t).1 = t.instant ∧
    ∃ r, mktime timezone dstAdjust isindst t = some r ∧
      Fields (daysFrom1900To1970 + t.instant / secondsPerDay) (t.instant % secondsPerDay) r.2) ∧
  ((localMktime t).2 = none → ∃ t', mktime timezone dstAdjust isindst t = some (unsigned (-1), t'))

/-- The fields that `mktime` leaves when it uses values that were set. -/
theorem mktime_fields {timezone dstAdjust : ℤ} {isindst : Tm → ℤ} {r : ℤ × Tm} {value days secs : ℤ}
    (hlocal : localMktime t = (value, some (days, secs))) (hdays : 0 ≤ days) (hdays' : days < 2 ^ 31) (hsecs : 0 ≤ secs)
    (hsecs' : secs < secondsPerDay) (hr : mktime timezone dstAdjust isindst t = some r) : Fields days secs r.2 := by
  have hu : unsigned days = days := Int.emod_eq_of_lt hdays (by norm_num at hdays' ⊢; omega)
  have hu' : unsigned secs = secs := Int.emod_eq_of_lt hsecs (by unfold secondsPerDay at hsecs'; norm_num; omega)
  have hzero : secs / secondsPerDay = 0 := Int.ediv_eq_zero_of_lt hsecs hsecs'
  have hrest : secs % secondsPerDay = secs := Int.emod_eq_of_lt hsecs hsecs'
  obtain ⟨hf, -, -⟩ := brktime_fields hdays hsecs (by unfold secondsPerDay at hsecs'; norm_num; omega)
    (by rw [hzero, add_zero]; exact hdays') t
  rw [hzero, add_zero, hrest] at hf
  unfold mktime at hr
  rw [hlocal] at hr
  simp only [Option.map_some, Option.some.injEq] at hr
  rw [hu, hu'] at hr
  subst hr
  split_ifs <;> exact ⟨hf.hour, hf.min, hf.sec, hf.mon, hf.mday, hf.yday, hf.date, hf.wday⟩

/-- Fields say one day and one second of it. -/
theorem Fields.unique {day day' secs secs' : ℤ} (h : Fields day secs t) (h' : Fields day' secs' t) :
    day = day' ∧ secs = secs' := by
  have hh := h.hour.symm.trans h'.hour
  have hm := h.min.symm.trans h'.min
  have hs := h.sec.symm.trans h'.sec
  refine ⟨h.date.trans h'.date.symm, by omega⟩

/-- Fields that are ints and a date in the range keep the day small. -/
theorem dayNumber_bounds (hint : t.Ints) (hrange : t.InRange) : -2 ^ 27 < t.dayNumber ∧ t.dayNumber < 2 ^ 27 := by
  obtain ⟨h0, h1⟩ := hrange
  simp only [Tm.Ints, List.forall_mem_cons] at hint
  unfold Tm.instant Tm.timeOfDay daysFrom1900To1970 secondsPerDay at *
  norm_num at hint h0 h1 ⊢
  omega

/-- What `__local_mktime` stores for a date in the range that it does not reject. -/
theorem localMktime_of_kept (hint : t.Ints) (hrange : t.InRange) (hkept : ¬ t.Rejected) :
    localMktime t =
      (unsigned (signed t.timeOfDay % secondsPerDay +
        (t.dayNumber + signed t.timeOfDay / secondsPerDay - daysFrom1900To1970) * secondsPerDay),
      some (t.dayNumber + signed t.timeOfDay / secondsPerDay, signed t.timeOfDay % secondsPerDay)) ∧
    daysFrom1900To1970 - 1 ≤ t.dayNumber + signed t.timeOfDay / secondsPerDay ∧
    t.dayNumber + signed t.timeOfDay / secondsPerDay < 2 ^ 31 := by
  obtain ⟨hy0, hy1⟩ := carriedYear_bounds hint hrange
  obtain ⟨hd0, hd1⟩ := dayNumber_bounds hint hrange
  have hyear : signed t.carriedYear = t.carriedYear :=
    signed_of_lt (by norm_num at hy0 ⊢; omega) (by norm_num at hy1 ⊢; omega)
  have hkept' := hkept
  unfold Tm.Rejected at hkept'
  push Not at hkept'
  obtain ⟨-, hpos, hday⟩ := hkept'
  have hsum := daySum_eq (hyear ▸ hpos) hy1
  have hs0 : -(2 ^ 31) ≤ signed t.timeOfDay := by
    have h := Int.le_bmod (x := t.timeOfDay) (m := 2 ^ 32) (by norm_num)
    unfold signed
    norm_num at h ⊢
    omega
  have hs1 : signed t.timeOfDay < 2 ^ 31 := by
    have h := Int.bmod_lt (x := t.timeOfDay) (m := 2 ^ 32) (by norm_num)
    unfold signed
    norm_num at h ⊢
    omega
  have hbounds : -2 ^ 31 < t.dayNumber + signed t.timeOfDay / secondsPerDay ∧
      t.dayNumber + signed t.timeOfDay / secondsPerDay < 2 ^ 31 := by
    unfold secondsPerDay
    norm_num at hd0 hd1 hs0 hs1 ⊢
    omega
  have hsigned : signed (t.dayNumber + signed t.timeOfDay / secondsPerDay) =
      t.dayNumber + signed t.timeOfDay / secondsPerDay := by
    have h0 := hbounds.1
    have h1 := hbounds.2
    exact signed_of_lt (by norm_num at h0 ⊢; omega) (by norm_num at h1 ⊢; omega)
  rw [hsum, hsigned] at hday
  rw [localMktime_eq, if_neg hkept, hsum, hsigned]
  exact ⟨rfl, hday, hbounds.2⟩

/-- The instant in days and seconds. -/
theorem instant_split (t : Tm) :
    daysFrom1900To1970 + t.instant / secondsPerDay = t.dayNumber + t.timeOfDay / secondsPerDay ∧
      t.instant % secondsPerDay = t.timeOfDay % secondsPerDay := by
  unfold Tm.instant secondsPerDay daysFrom1900To1970
  omega

theorem localMktime_of_fits (hint : t.Ints) (hrange : t.InRange) (hkept : ¬ t.Rejected)
    (hfits : signed t.timeOfDay = t.timeOfDay) :
    localMktime t = (t.instant, some (daysFrom1900To1970 + t.instant / secondsPerDay, t.instant % secondsPerDay)) := by
  obtain ⟨hlocal, -, -⟩ := localMktime_of_kept hint hrange hkept
  obtain ⟨hday, hsec⟩ := instant_split t
  rw [hfits, ← hday, ← hsec] at hlocal
  have hvalue : t.instant % secondsPerDay +
      (daysFrom1900To1970 + t.instant / secondsPerDay - daysFrom1900To1970) * secondsPerDay = t.instant := by
    rw [add_sub_cancel_left]
    exact Int.emod_add_ediv_mul _ _
  rw [hlocal, hvalue, unsigned, Int.emod_eq_of_lt hrange.1 hrange.2]

/-- `mktime` is right exactly when the date is not rejected and the seconds fit. -/
theorem mktimeRight_iff {timezone dstAdjust : ℤ} {isindst : Tm → ℤ} (hint : t.Ints) :
    MktimeRight timezone dstAdjust isindst t ↔
      ¬ t.Rejected ∧ (t.InRange → signed t.timeOfDay = t.timeOfDay) := by
  have hspd : 0 < secondsPerDay := by decide
  constructor
  · intro hright
    have hkept : ¬ t.Rejected := by
      intro hrej
      have hlocal := localMktime_eq t
      rw [if_pos hrej] at hlocal
      obtain ⟨t', hr⟩ := hright.2 (by rw [hlocal])
      unfold mktime at hr
      rw [hlocal] at hr
      exact absurd hr (by simp)
    refine ⟨hkept, fun hrange => ?_⟩
    obtain ⟨-, r, hr, hf⟩ := hright.1 hrange
    obtain ⟨hlocal, hlow, hhigh⟩ := localMktime_of_kept hint hrange hkept
    have hf' := mktime_fields hlocal (by unfold daysFrom1900To1970 at hlow; omega) hhigh
      (Int.emod_nonneg _ hspd.ne') (Int.emod_lt_of_pos _ hspd) hr
    obtain ⟨hday, hsec⟩ := hf'.unique hf
    obtain ⟨hday', hsec'⟩ := instant_split t
    rw [hday'] at hday
    rw [hsec'] at hsec
    unfold secondsPerDay at hday hsec
    omega
  · rintro ⟨hkept, hfits⟩
    constructor
    · intro hrange
      have hlocal := localMktime_of_fits hint hrange hkept (hfits hrange)
      have h1 := hrange.1
      have h2 := hrange.2
      have hsome : ∃ r, mktime timezone dstAdjust isindst t = some r := by
        unfold mktime
        rw [hlocal]
        exact ⟨_, rfl⟩
      obtain ⟨r, hr⟩ := hsome
      refine ⟨by rw [hlocal], r, hr, mktime_fields hlocal ?_ ?_ (Int.emod_nonneg _ hspd.ne')
        (Int.emod_lt_of_pos _ hspd) hr⟩
      · unfold daysFrom1900To1970 secondsPerDay
        omega
      · unfold daysFrom1900To1970 secondsPerDay
        norm_num at h2 ⊢
        omega
    · intro hnone
      have hlocal := localMktime_eq t
      rw [if_neg hkept] at hlocal
      rw [hlocal] at hnone
      exact absurd hnone (by simp)

/-! ### There and back -/

/-- The fields of an instant say that instant again. -/
theorem Fields.instant_eq {time : ℤ}
    (h : Fields (daysFrom1900To1970 + time / secondsPerDay) (time % secondsPerDay) t) : t.instant = time := by
  have hmon : t.mon / 12 = 0 ∧ t.mon % 12 = t.mon := by
    have hm := h.mon
    omega
  have hyear : t.carriedYear = t.year := by rw [Tm.carriedYear, hmon.1, add_zero]
  have hday : t.dayNumber = daysFrom1900To1970 + time / secondsPerDay := by
    rw [h.date, h.yday, Tm.dayNumber, hyear, hmon.2]
    ring
  have hsec : t.timeOfDay = time % secondsPerDay := by
    rw [Tm.timeOfDay, h.hour, h.min, h.sec]
    omega
  rw [Tm.instant, hday, hsec, add_sub_cancel_left]
  exact Int.ediv_mul_add_emod _ _

theorem months_le (b : Bool) {m : ℤ} (h0 : 0 ≤ m) (h1 : m < 12) : (months b).getD m.toNat 0 ≤ 31 := by
  have hall : ∀ b : Bool, ∀ m : Fin 12, (months b).getD m 0 ≤ 31 := by decide
  exact hall b ⟨m.toNat, by omega⟩

/-- A time of the range is broken down into its fields, and made from them again. -/
theorem brktime_round_trip {time : ℤ} (h0 : 0 ≤ time) (h1 : time < 2 ^ 32) (t₀ : Tm) :
    Fields (daysFrom1900To1970 + time / secondsPerDay) (time % secondsPerDay)
        (brktime daysFrom1900To1970 time 0 t₀) ∧
      (localMktime (brktime daysFrom1900To1970 time 0 t₀)).1 = time := by
  have hday : daysFrom1900To1970 + time / secondsPerDay < 2 ^ 31 := by
    unfold daysFrom1900To1970 secondsPerDay
    norm_num at h1 ⊢
    omega
  obtain ⟨hf, hy0, hy1⟩ := brktime_fields (by decide) h0 h1 hday t₀
  refine ⟨hf, ?_⟩
  generalize brktime daysFrom1900To1970 time 0 t₀ = t at hf hy0 hy1
  have hinstant := hf.instant_eq
  have hle := months_le (leap (1900 + t.year)) hf.mon.1 hf.mon.2
  have hsecs0 : 0 ≤ time % secondsPerDay := Int.emod_nonneg _ (by decide)
  have hsecs1 : time % secondsPerDay < 86400 := Int.emod_lt_of_pos _ (by decide)
  have hint : t.Ints := by
    have hm := hf.mon
    have hd := hf.mday
    simp only [Tm.Ints, List.forall_mem_cons, hf.hour, hf.min, hf.sec]
    norm_num at hy1 ⊢
    omega
  have hrange : t.InRange := by
    rw [Tm.InRange, hinstant]
    exact ⟨h0, h1⟩
  have hyear : t.carriedYear = t.year := by
    have hm := hf.mon
    unfold Tm.carriedYear
    omega
  have hsigned : signed t.carriedYear = t.carriedYear := by
    rw [hyear]
    exact signed_of_lt (by omega) (by norm_num at hy1 ⊢; omega)
  have htod : t.timeOfDay = time % secondsPerDay := by
    rw [Tm.timeOfDay, hf.hour, hf.min, hf.sec]
    omega
  have hfits : signed t.timeOfDay = t.timeOfDay := by
    rw [htod]
    exact signed_of_lt (by omega) (by norm_num; omega)
  have hkept : ¬ t.Rejected := by
    have hsum := daySum_eq (t := t) (by omega) (carriedYear_bounds hint hrange).2
    have hsplit := (instant_split t).1
    rw [hinstant] at hsplit
    have hq : 0 ≤ time / secondsPerDay := Int.ediv_nonneg h0 (by decide)
    have hdays : signed (daySum t (signed t.carriedYear) (t.mon % 12) + signed t.timeOfDay / secondsPerDay) =
        daysFrom1900To1970 + time / secondsPerDay := by
      rw [hsum, hfits, ← hsplit]
      exact signed_of_lt (by unfold daysFrom1900To1970; omega) (by norm_num at hday ⊢; omega)
    unfold Tm.Rejected
    rw [hdays, hsigned, hyear]
    have hsmall : smallestYearValue = -184844639 := by decide
    omega
  rw [localMktime_of_fits hint hrange hkept hfits, hinstant]

/-- Calendar times are right both ways, but for the dates that `__local_mktime` rejects and for seconds that do not fit
in a `long`. -/
theorem calendar_round_trip (timezone dstAdjust : ℤ) (isindst : Tm → ℤ) :
    (∀ time t₀, 0 ≤ time → time < 2 ^ 32 →
      Fields (daysFrom1900To1970 + time / secondsPerDay) (time % secondsPerDay)
          (brktime daysFrom1900To1970 time 0 t₀) ∧
        (localMktime (brktime daysFrom1900To1970 time 0 t₀)).1 = time) ∧
    ∀ t : Tm, t.Ints →
      (MktimeRight timezone dstAdjust isindst t ↔
        ¬ t.Rejected ∧ (t.InRange → signed t.timeOfDay = t.timeOfDay)) :=
  ⟨fun _ t₀ h0 h1 => brktime_round_trip h0 h1 t₀, fun _ hint => mktimeRight_iff hint⟩

/-- `mktime` of the first of January 1899. -/
theorem not_calendar_round_trip : ¬ MktimeRight 0 0 (fun _ => 0) ⟨0, 0, 0, 1, 0, -1, 0, 0, 0⟩ := by
  have hint : Tm.Ints ⟨0, 0, 0, 1, 0, -1, 0, 0, 0⟩ := by
    unfold Tm.Ints
    decide
  rw [mktimeRight_iff hint]
  exact fun h => h.1 (by decide)

end OpenWatcom.Clib.Calendar
