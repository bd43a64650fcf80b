import OpenWatcom.Clib.TzSet

/-! # Daylight-saving time

`__isindst` decides from the rule structures, without the instants at which the time changes. -/

namespace OpenWatcom.Clib.Daylight

open Gregorian Calendar TzSet

/-! ### The decision -/

/-- `__dilyr` or `__diyr`. -/
def yearTable (year : ℤ) : List ℤ := if leapyear (unsigned (year + 1900)) ≠ 0 then dilyr else diyr

/-- `diyr[month + 1] - diyr[month]`. -/
def monthDays (year month : ℤ) : ℤ := (yearTable year).getD (month + 1).toNat 0 - (yearTable year).getD month.toNat 0

/-- `time_less`. -/
def timeLess (t1 t2 : Tm) : Bool :=
  t1.hour < t2.hour ∨ t1.hour = t2.hour ∧ (t1.min < t2.min ∨ t1.min = t2.min ∧ t1.sec < t2.sec)

/-- `calc_yday`; `none` when `mktime` leaves the fields of `tmptm` as nobody set them. -/
def calcYday (z : Zone) (rule : Tm) (year : ℤ) : Option ℤ :=
  if rule.isdst = 0 then
    -- `tm_isdst` is 0, so that `mktime` takes the date as standard time
    (mktime z.timezone z.dstAdjust (·.isdst) ⟨0, 0, 0, 1, rule.mon, year, 0, 0, 0⟩).map fun r =>
      let firstWday := (rule.wday - r.2.wday + 7).tmod 7
      let nthWeek :=
        if rule.mday = 5 then
          if monthDays year rule.mon < 1 + firstWday + (rule.mday - 1) * 7 then rule.mday - 2 else rule.mday - 1
        else rule.mday - 1
      r.2.yday + firstWday + nthWeek * 7
  else if rule.isdst = 1 then some (rule.yday - 1)
  else some rule.yday

/-- `check_order`. -/
def checkOrder (z : Zone) (year : ℤ) : Option Bool :=
  if z.startDst.isdst = 0 ∧ z.endDst.isdst = 0 ∧ z.endDst.mon < z.startDst.mon then some true
  else if z.startDst.isdst = 0 ∧ z.endDst.isdst = 0 ∧ z.startDst.mon < z.endDst.mon then some false
  else
    (calcYday z z.startDst year).bind fun startDay =>
    (calcYday z z.endDst year).map fun endDay => endDay < startDay

/-- The day of the month of the weekday of the rule that is past and closest to a day. -/
def pastWeekday (mday wday : ℤ) (rule : Tm) : ℤ := mday - (wday + 7 - rule.wday).tmod 7

/-- The day of the year of a rule in the `J` form or in the `n` form. -/
def julianDay (rule : Tm) (year : ℤ) : ℤ :=
  if rule.isdst = 1 then
    (if leapyear (unsigned (year + 1900)) ≠ 0 ∧ diyr.getD 2 0 < rule.yday then rule.yday + 1 else rule.yday) - 1
  else rule.yday

/-- Whether the time is not before the start of daylight saving. -/
def startPart (t start : Tm) : Bool :=
  if start.isdst = 0 then
    if start.mon < t.mon then true
    else if t.mon = start.mon then
      let n1 := pastWeekday t.mday t.wday start
      let n2 := pastWeekday (t.mday - 1) (t.wday - 1) start
      if start.mday = 5 then
        if monthDays t.year t.mon - 7 < n1 then
          if n2 ≤ monthDays t.year t.mon - 7 then !timeLess t start else true
        else false
      else if 7 * (start.mday - 1) + 1 ≤ n1 then
        if n2 < 7 * (start.mday - 1) + 1 then !timeLess t start else true
      else false
    else false
  else if julianDay start t.year ≤ t.yday then
    if t.yday = julianDay start t.year then !timeLess t start else true
  else false

/-- Whether the time is before the end of daylight saving. -/
def endPart (t stop : Tm) : Bool :=
  if stop.isdst = 0 then
    if stop.mon < t.mon then false
    else if t.mon = stop.mon then
      let n1 := pastWeekday t.mday t.wday stop
      let n2 := pastWeekday (t.mday - 1) (t.wday - 1) stop
      if stop.mday = 5 then
        if n1 ≤ monthDays t.year t.mon - 7 then true
        else if n2 ≤ monthDays t.year t.mon - 7 then timeLess t stop else false
      else if n1 < 7 * (stop.mday - 1) + 1 then true
      else if n2 < 7 * (stop.mday - 1) + 1 then timeLess t stop else false
    else true
  else if julianDay stop t.year ≤ t.yday then
    if t.yday = julianDay stop t.year then timeLess t stop else false
  else true

/-- `__isindst`: what `tm_isdst` becomes. South of the equator the rules change places, and the answer is inverted. -/
def isindst (z : Zone) (t : Tm) : Option ℤ :=
  if 0 ≤ t.isdst then some t.isdst
  else if !z.daylight then some 0
  else
    (checkOrder z t.year).map fun south =>
      let start := if south then z.endDst else z.startDst
      let stop := if south then z.startDst else z.endDst
      let dst := if startPart t start then endPart t stop else false
      if dst = south then 0 else 1

/-! ### Days and instants of rules -/

/-- The numbers of a day are those of the grammar. -/
def DateInRange : DateText → Prop
  | .m month week day => 1 ≤ month.val ∧ month.val ≤ 12 ∧ 1 ≤ week.val ∧ week.val ≤ 5 ∧ 0 ≤ day.val ∧ day.val ≤ 6
  | .j days => 1 ≤ days.val ∧ days.val ≤ 365
  | .n days => 0 ≤ days.val ∧ days.val ≤ 365

/-- The first day of a month, counted from 1900 on. -/
def firstDay (year month : ℤ) : ℤ :=
  daysBefore (1900 + year) - daysBefore 1900 + monthStart (leap (1900 + year)) month.toNat

/-- The weekday of the first of a month, from 0 on. -/
def firstWeekday (year month : ℤ) : ℤ := (firstDay year month + 1) % 7

/-- The day of the month, from 0 on, of a weekday in a week of a month; in the fifth week, the last one. -/
def weekdayOf (first length week wday : ℤ) : ℤ :=
  let day := (wday - first) % 7 + 7 * (week - 1)
  if length ≤ day then day - 7 else day

/-- The day of a year, from 0 on, that a rule says. -/
def ruleDay (year : ℤ) : DateText → ℤ
  | .m month week day =>
    monthStart (leap (1900 + year)) (month.val - 1).toNat +
      weekdayOf (firstWeekday year (month.val - 1)) ((months (leap (1900 + year))).getD (month.val - 1).toNat 0)
        week.val day.val
  | .j days => if leap (1900 + year) ∧ 60 ≤ days.val then days.val else days.val - 1
  | .n days => days.val

/-- The same, but a year has no leap day for the `J` form. -/
def commonDay (year : ℤ) : DateText → ℤ
  | .j days => days.val - 1
  | date => ruleDay year date

/-- The time of a year lies between the start and the end, or not between the end and the start. -/
def InDaylight (start stop now : ℤ) : Prop :=
  if start ≤ stop then start ≤ now ∧ now < stop else ¬ (stop ≤ now ∧ now < start)

/-- A rule structure for a day and a time of that day, up to its end. -/
structure RuleFits (rule : Tm) (date : DateText) (time : ℤ) : Prop where
  is : RuleIs rule date time
  min : 0 ≤ rule.min ∧ rule.min < 60
  sec : 0 ≤ rule.sec ∧ rule.sec < 60
  time : 0 ≤ time ∧ time ≤ secondsPerDay

variable {z : Zone} {t rule : Tm} {date : DateText} {day secs time : ℤ}

theorem endPart_eq (t rule : Tm) : endPart t rule = !startPart t rule := by
  unfold endPart startPart
  simp only
  split_ifs <;> first | rfl | omega | simp

theorem timeLess_iff (hf : Fields day secs t) (hr : RuleFits rule date time) :
    timeLess t rule = true ↔ secs < time := by
  have h := hr.is.2
  have h1 := hr.min
  have h2 := hr.sec
  have ht1 := hf.hour
  have ht2 := hf.min
  have ht3 := hf.sec
  simp only [timeLess, decide_eq_true_eq]
  omega

theorem yearTable_eq {year : ℤ} (h0 : -1900 ≤ year) (h1 : year < 2 ^ 31) :
    (leapyear (unsigned (year + 1900)) ≠ 0 ↔ leap (1900 + year) = true) ∧
      yearTable year = if leap (1900 + year) then dilyr else diyr := by
  have hy : unsigned (year + 1900) = 1900 + year := by
    unfold unsigned
    norm_num at h1 ⊢
    omega
  have hiff := leapyear_ne_zero (1900 + year)
  refine ⟨by rw [hy]; exact hiff, ?_⟩
  unfold yearTable
  rw [hy]
  by_cases hleap : leap (1900 + year) = true
  · rw [if_pos (hiff.mpr hleap), if_pos hleap]
  · rw [if_neg (fun h => hleap (hiff.mp h)), if_neg hleap]

theorem monthStart_succ (b : Bool) {m : ℤ} (h0 : 0 ≤ m) (h1 : m < 12) :
    monthStart b (m + 1).toNat = monthStart b m.toNat + (months b).getD m.toNat 0 ∧
      28 ≤ (months b).getD m.toNat 0 ∧ (months b).getD m.toNat 0 ≤ 31 := by
  have hall : ∀ b : Bool, ∀ m : Fin 12, monthStart b (m + 1) = monthStart b m + (months b).getD m 0 ∧
      28 ≤ (months b).getD m 0 ∧ (months b).getD m 0 ≤ 31 := by decide
  have h := hall b ⟨m.toNat, by omega⟩
  rwa [show (m + 1).toNat = m.toNat + 1 by omega]

theorem monthStart_mono (b : Bool) {m m' : ℤ} (h0 : 0 ≤ m) (h : m < m') (h1 : m' < 12) :
    monthStart b m.toNat + (months b).getD m.toNat 0 ≤ monthStart b m'.toNat := by
  have hall : ∀ b : Bool, ∀ m m' : Fin 12, m < m' → monthStart b m + (months b).getD m 0 ≤ monthStart b m' := by decide
  exact hall b ⟨m.toNat, by omega⟩ ⟨m'.toNat, by omega⟩ (by simp only [Fin.mk_lt_mk]; omega)

theorem yday_bounds (hf : Fields day secs t) : 0 ≤ t.yday ∧ t.yday < yearLength (1900 + t.year) := by
  have hall : ∀ b : Bool, ∀ m : Fin 12, 0 ≤ monthStart b m ∧
      monthStart b m + (months b).getD m 0 ≤ if b then 366 else 365 := by decide
  have h := hall (leap (1900 + t.year)) ⟨t.mon.toNat, by have := hf.mon; omega⟩
  have hmday := hf.mday
  have hyday := hf.yday
  unfold yearLength
  split_ifs at h ⊢ <;> simp only at h <;> omega

theorem monthDays_eq {year month : ℤ} (h0 : -1900 ≤ year) (h1 : year < 2 ^ 31) (hm0 : 0 ≤ month) (hm1 : month < 12) :
    monthDays year month = (months (leap (1900 + year))).getD month.toNat 0 := by
  have hs := (monthStart_succ (leap (1900 + year)) hm0 hm1).1
  unfold monthDays
  rw [(yearTable_eq h0 h1).2, monthStart_getD _ _ (by omega), monthStart_getD _ _ (by omega), hs]
  ring

/-- Whether the weekday of a rule has come, and whether it had come the day before. -/
theorem pastWeekday_iff (first wday : ℤ) {length week x : ℤ} (hlen : 28 ≤ length ∧ length ≤ 31)
    (hw : 1 ≤ week ∧ week ≤ 5) (hx : 0 ≤ x ∧ x < length) :
    let limit := if week = 5 then length - 6 else 7 * (week - 1) + 1
    (limit ≤ x + 1 - ((first + x) % 7 + 7 - wday) % 7 ↔ weekdayOf first length week wday ≤ x) ∧
      (x + 1 - 1 - ((first + x) % 7 - 1 + 7 - wday) % 7 < limit ↔ x ≤ weekdayOf first length week wday) := by
  unfold weekdayOf
  simp only
  split_ifs <;> omega

theorem weekdayOf_bounds (first wday : ℤ) {length week : ℤ} (hlen : 28 ≤ length ∧ length ≤ 31)
    (hw : 1 ≤ week ∧ week ≤ 5) :
    0 ≤ weekdayOf first length week wday ∧ weekdayOf first length week wday < length := by
  unfold weekdayOf
  simp only
  split_ifs <;> omega

/-- The days decide, and the times of the day where the days are the same. -/
theorem dayPart_iff (hf : Fields day secs t) (hsecs : 0 ≤ secs ∧ secs < secondsPerDay) (hr : RuleFits rule date time)
    {d : ℤ} (before same : Prop) [Decidable before] [Decidable same] (hb : before ↔ d ≤ t.yday)
    (hs : d ≤ t.yday → (same ↔ t.yday ≤ d)) :
    (if before then if same then !timeLess t rule else true else false) = true ↔
      d * secondsPerDay + time ≤ t.yday * secondsPerDay + secs := by
  have hless : timeLess t rule = true ↔ secs < time := timeLess_iff hf hr
  have htime := hr.time
  unfold secondsPerDay at *
  by_cases hbefore : before
  · by_cases hsame : same
    · have hd : d = t.yday := le_antisymm (hb.mp hbefore) ((hs (hb.mp hbefore)).mp hsame)
      subst hd
      simp only [if_pos hbefore, if_pos hsame, Bool.not_eq_true', ← Bool.not_eq_true, hless]
      omega
    · have : d < t.yday := by
        have := mt (hs (hb.mp hbefore)).mpr hsame
        omega
      simp only [if_pos hbefore, if_neg hsame, true_iff]
      omega
  · have := mt hb.mpr hbefore
    simp only [if_neg hbefore, Bool.false_eq_true, false_iff]
    omega

theorem julianDay_j (h0 : -1900 ≤ t.year) (h1 : t.year < 2 ^ 31) {days : Numeral} (hform : rule.isdst = 1)
    (hyday : rule.yday = days.val) : julianDay rule t.year = ruleDay t.year (.j days) := by
  have hleap := (yearTable_eq h0 h1).1
  simp only [julianDay, hform, if_true, hyday, ruleDay, show diyr.getD 2 0 = 59 from rfl]
  by_cases hl : leap (1900 + t.year) = true
  · simp only [hl, hleap.mpr hl, true_and, ne_eq, not_false_eq_true]
    split_ifs <;> omega
  · simp only [hl, mt hleap.mp hl, false_and, if_false, Bool.false_eq_true]

/-- Half of the decision: the instant of a rule has come. -/
theorem startPart_iff (hf : Fields day secs t) (hsecs : 0 ≤ secs ∧ secs < secondsPerDay) (h0 : -1900 ≤ t.year)
    (h1 : t.year < 2 ^ 31) (hr : RuleFits rule date time) (hdate : DateInRange date) :
    startPart t rule = true ↔ ruleDay t.year date * secondsPerDay + time ≤ t.yday * secondsPerDay + secs := by
  have htime := hr.time
  have hday {d : ℤ} := @dayPart_iff _ _ _ _ _ _ hf hsecs hr d
  cases date with
  | j days =>
      obtain ⟨hform, hyday⟩ := hr.is.1
      have hne : rule.isdst ≠ 0 := by rw [hform]; decide
      rw [startPart, if_neg hne, julianDay_j h0 h1 hform hyday]
      exact hday _ _ Iff.rfl fun h => ⟨fun h' => h'.le, fun h' => le_antisymm h' h⟩
  | n days =>
      obtain ⟨hform, hyday⟩ := hr.is.1
      have hjulian : julianDay rule t.year = ruleDay t.year (.n days) := by
        simp [julianDay, hform, hyday, ruleDay]
      have hne : rule.isdst ≠ 0 := by rw [hform]; decide
      rw [startPart, if_neg hne, hjulian]
      exact hday _ _ Iff.rfl fun h => ⟨fun h' => h'.le, fun h' => le_antisymm h' h⟩
  | m month week wday =>
      obtain ⟨hform, hmon, hweek, hwday⟩ := hr.is.1
      obtain ⟨hm0, hm1, hw0, hw1, hd0, hd1⟩ := hdate
      have hyday := hf.yday
      have hlen := (monthStart_succ (leap (1900 + t.year)) (m := month.val - 1) (by omega) (by omega)).2
      have hwd := weekdayOf_bounds (firstWeekday t.year (month.val - 1)) wday.val hlen ⟨hw0, hw1⟩
      rw [startPart, if_pos hform, hmon]
      obtain hlt | heq | hgt := lt_trichotomy (month.val - 1) t.mon
      · have hms := monthStart_mono (leap (1900 + t.year)) (show 0 ≤ month.val - 1 by omega) hlt hf.mon.2
        have hmday := hf.mday.1
        rw [if_pos hlt]
        simp only [ruleDay, true_iff]
        unfold secondsPerDay at *
        omega
      · rw [if_neg (by omega), if_pos heq.symm, monthDays_eq h0 h1 hf.mon.1 hf.mon.2]
        have hwt : t.wday = (firstWeekday t.year (month.val - 1) + (t.mday - 1)) % 7 := by
          have hd1 := hf.wday
          have hd2 := hf.date
          unfold firstWeekday firstDay
          rw [heq]
          omega
        have hmday := hf.mday
        rw [← heq] at hmday hyday ⊢
        obtain ⟨hcome, hbefore⟩ := pastWeekday_iff (firstWeekday t.year (month.val - 1)) wday.val hlen ⟨hw0, hw1⟩
          (show 0 ≤ t.mday - 1 ∧ t.mday - 1 < _ by omega)
        rw [← hwt] at hcome hbefore
        have hwday0 : 0 ≤ t.wday ∧ t.wday < 7 := by omega
        have hn1 : pastWeekday t.mday t.wday rule = t.mday - 1 + 1 - (t.wday + 7 - wday.val) % 7 := by
          rw [pastWeekday, hwday, Int.tmod_eq_emod_of_nonneg (by omega)]
          ring
        have hn2 : pastWeekday (t.mday - 1) (t.wday - 1) rule =
            t.mday - 1 + 1 - 1 - (t.wday - 1 + 7 - wday.val) % 7 := by
          rw [pastWeekday, hwday, Int.tmod_eq_emod_of_nonneg (by omega)]
          ring
        simp only [hn1, hn2, hweek]
        by_cases h5 : week.val = 5
        · rw [if_pos h5] at hcome hbefore ⊢
          refine hday _ _ ?_ ?_ <;> simp only [ruleDay] <;> omega
        · rw [if_neg h5] at hcome hbefore ⊢
          refine hday _ _ ?_ ?_ <;> simp only [ruleDay] <;> omega
      · have hms := monthStart_mono (leap (1900 + t.year)) hf.mon.1 hgt (by omega)
        have hmday := hf.mday.2
        rw [if_neg (by omega), if_neg (by omega)]
        simp only [ruleDay, Bool.false_eq_true, false_iff]
        unfold secondsPerDay at *
        omega

/-! ### The order of the rules -/

/-- The first of a month, as `mktime` breaks it down. -/
theorem mktime_first (timezone dstAdjust : ℤ) {year month : ℤ} (h0 : 70 ≤ year) (h1 : firstDay year month < 2 ^ 31)
    (hm0 : 0 ≤ month) (hm1 : month < 12) :
    ∃ r, mktime timezone dstAdjust (·.isdst) ⟨0, 0, 0, 1, month, year, 0, 0, 0⟩ = some r ∧
      r.2.wday = firstWeekday year month ∧ r.2.yday = monthStart (leap (1900 + year)) month.toNat := by
  have hms := monthStart_bounds (leap (1900 + year)) hm0 hm1
  have hcarried : Tm.carriedYear ⟨0, 0, 0, 1, month, year, 0, 0, 0⟩ = year := by
    simp only [Tm.carriedYear]
    omega
  have hnumber : Tm.dayNumber ⟨0, 0, 0, 1, month, year, 0, 0, 0⟩ = firstDay year month := by
    rw [Tm.dayNumber, hcarried, show month % 12 = month by omega, firstDay]
    ring
  have hfirst : firstDay year month =
      daysBefore (1900 + year) - daysBefore 1900 + monthStart (leap (1900 + year)) month.toNat := rfl
  have hshort : year < 2 ^ 23 := by
    unfold daysBefore at hfirst
    norm_num at h1 ⊢
    omega
  have htime : signed (Tm.timeOfDay ⟨0, 0, 0, 1, month, year, 0, 0, 0⟩) = 0 := by
    simp only [Tm.timeOfDay]
    decide
  have hsum := daySum_eq (t := ⟨0, 0, 0, 1, month, year, 0, 0, 0⟩) (by rw [hcarried]; omega)
    (by rw [hcarried]; exact hshort)
  generalize hday : Tm.dayNumber ⟨0, 0, 0, 1, month, year, 0, 0, 0⟩ = day at *
  have hbounds : 25567 ≤ day ∧ day < 2 ^ 31 := by
    refine ⟨?_, by rw [hnumber]; exact h1⟩
    rw [hnumber, hfirst]
    unfold daysBefore
    omega
  have hsigned : signed day = day := signed_of_lt (by omega) hbounds.2
  have hkept : ¬ Tm.Rejected ⟨0, 0, 0, 1, month, year, 0, 0, 0⟩ := by
    have hsmall : ¬ year < smallestYearValue := by
      have : smallestYearValue < 0 := by decide
      omega
    have hyear : ¬ signed year < 0 := by
      rw [signed_of_lt (by omega) (by norm_num at hshort ⊢; omega)]
      omega
    unfold Tm.Rejected
    rw [hsum, htime, hcarried, Int.zero_ediv, add_zero, hsigned]
    exact not_or.mpr ⟨hsmall, not_or.mpr ⟨hyear, by unfold daysFrom1900To1970; omega⟩⟩
  have hlocal := localMktime_eq ⟨0, 0, 0, 1, month, year, 0, 0, 0⟩
  rw [if_neg hkept, hsum, htime, Int.zero_ediv, add_zero, hsigned] at hlocal
  obtain ⟨r, hmk⟩ : ∃ r, mktime timezone dstAdjust (·.isdst) ⟨0, 0, 0, 1, month, year, 0, 0, 0⟩ = some r := by
    rw [mktime, hlocal]
    exact ⟨_, rfl⟩
  have hf : Fields day 0 r.2 := mktime_fields hlocal (by omega) hbounds.2 (by decide) (by decide) hmk
  have hyday := yday_bounds hf
  have hdate := hf.date
  have hsucc := daysBefore_succ (1900 + r.2.year)
  have hsucc' := daysBefore_succ (1900 + year)
  have hlen := yearLength_bounds (1900 + year)
  have hsame : 1900 + r.2.year = 1900 + year :=
    year_unique (d := daysBefore 1900 + day) (by omega) (by omega) (by omega) (by omega)
  refine ⟨r, hmk, ?_, ?_⟩
  · rw [hf.wday, hnumber, firstWeekday]
  · rw [hsame] at hdate
    omega

/-- The date is in a month that `mktime` knows, where it has one. -/
def MonthKnown (year : ℤ) : DateText → Prop
  | .m month _ _ => 70 ≤ year ∧ firstDay year (month.val - 1) < 2 ^ 31
  | _ => True

theorem calcYday_eq (z : Zone) {year : ℤ} (hr : RuleFits rule date time) (hdate : DateInRange date)
    (hknown : MonthKnown year date) :
    calcYday z rule year = some (commonDay year date) := by
  cases date with
  | j days =>
      obtain ⟨hform, hyday⟩ := hr.is.1
      simp [calcYday, hform, hyday, commonDay]
  | n days =>
      obtain ⟨hform, hyday⟩ := hr.is.1
      simp [calcYday, hform, hyday, commonDay, ruleDay]
  | m month week wday =>
      obtain ⟨hform, hmon, hweek, hwday⟩ := hr.is.1
      obtain ⟨hm0, hm1, hw0, hw1, hd0, hd1⟩ := hdate
      obtain ⟨h0, h1⟩ := hknown
      obtain ⟨r, hmk, hrw, hry⟩ := mktime_first z.timezone z.dstAdjust h0 h1 (show 0 ≤ month.val - 1 by omega)
        (by omega)
      have hlen := (monthStart_succ (leap (1900 + year)) (m := month.val - 1) (by omega) (by omega)).2
      have hfirst : 0 ≤ firstWeekday year (month.val - 1) ∧ firstWeekday year (month.val - 1) < 7 := by
        unfold firstWeekday
        omega
      have hms := monthStart_bounds (leap (1900 + year)) (show 0 ≤ month.val - 1 by omega) (by omega)
      have hdays := monthDays_eq (show -1900 ≤ year by omega) (by unfold firstDay daysBefore at h1; omega)
        (show 0 ≤ month.val - 1 by omega) (by omega)
      rw [calcYday, if_pos hform, hmon, hmk]
      simp only [Option.map_some, Option.some.injEq, hrw, hry, hwday, hweek, hdays, commonDay, ruleDay, weekdayOf]
      rw [Int.tmod_eq_emod_of_nonneg (by omega)]
      split_ifs <;> omega

/-- Two rules whose days are compared, not their months. -/
def ComparesDays : DateText → DateText → Prop
  | .m start _ _, .m stop _ _ => start.val = stop.val
  | .m .., _ => True
  | _, .m .. => True
  | _, _ => False

theorem checkOrder_eq {year start_time stop_time : ℤ} {start stop : DateText}
    (hs : RuleFits z.startDst start start_time) (he : RuleFits z.endDst stop stop_time) (hstart : DateInRange start)
    (hstop : DateInRange stop) (hknown : ComparesDays start stop → MonthKnown year start ∧ MonthKnown year stop) :
    checkOrder z year = some (decide (commonDay year stop < commonDay year start)) := by
  have hcalc (h1 : ¬ (z.startDst.isdst = 0 ∧ z.endDst.isdst = 0 ∧ z.endDst.mon < z.startDst.mon))
      (h2 : ¬ (z.startDst.isdst = 0 ∧ z.endDst.isdst = 0 ∧ z.startDst.mon < z.endDst.mon))
      (h3 : calcYday z z.startDst year = some (commonDay year start))
      (h4 : calcYday z z.endDst year = some (commonDay year stop)) :
      checkOrder z year = some (decide (commonDay year stop < commonDay year start)) := by
    rw [checkOrder, if_neg h1, if_neg h2, h3, h4]
    rfl
  cases start with
  | m month week wday =>
      obtain ⟨hform, hmon, -, -⟩ := hs.is.1
      have hstart' := hstart
      obtain ⟨hm0, hm1, hw0, hw1, -, -⟩ := hstart
      cases stop with
      | m month' week' wday' =>
          obtain ⟨hform', hmon', -, -⟩ := he.is.1
          have hstop' := hstop
          obtain ⟨hm0', hm1', hw0', hw1', -, -⟩ := hstop
          have hlen := (monthStart_succ (leap (1900 + year)) (m := month.val - 1) (by omega) (by omega)).2
          have hlen' := (monthStart_succ (leap (1900 + year)) (m := month'.val - 1) (by omega) (by omega)).2
          have hwd := weekdayOf_bounds (firstWeekday year (month.val - 1)) wday.val hlen ⟨hw0, hw1⟩
          have hwd' := weekdayOf_bounds (firstWeekday year (month'.val - 1)) wday'.val hlen' ⟨hw0', hw1'⟩
          obtain hlt | heq | hgt := lt_trichotomy month.val month'.val
          · have hms := monthStart_mono (leap (1900 + year)) (show 0 ≤ month.val - 1 by omega)
              (show month.val - 1 < month'.val - 1 by omega) (by omega)
            have hle : ¬ commonDay year (.m month' week' wday') < commonDay year (.m month week wday) := by
              simp only [commonDay, ruleDay]
              omega
            rw [checkOrder, if_neg (by omega), if_pos (by omega), decide_eq_false hle]
          · exact hcalc (by omega) (by omega) (calcYday_eq z hs hstart' (hknown heq).1)
              (calcYday_eq z he hstop' (hknown heq).2)
          · have hms := monthStart_mono (leap (1900 + year)) (show 0 ≤ month'.val - 1 by omega)
              (show month'.val - 1 < month.val - 1 by omega) (by omega)
            have hlt : commonDay year (.m month' week' wday') < commonDay year (.m month week wday) := by
              simp only [commonDay, ruleDay]
              omega
            rw [checkOrder, if_pos (by omega), decide_eq_true hlt]
      | j days =>
          have hne : z.endDst.isdst ≠ 0 := by rw [he.is.1.1]; decide
          exact hcalc (by omega) (by omega) (calcYday_eq z hs hstart' (hknown trivial).1)
            (calcYday_eq z he hstop (hknown trivial).2)
      | n days =>
          have hne : z.endDst.isdst ≠ 0 := by rw [he.is.1.1]; decide
          exact hcalc (by omega) (by omega) (calcYday_eq z hs hstart' (hknown trivial).1)
            (calcYday_eq z he hstop (hknown trivial).2)
  | j days =>
      have hne : z.startDst.isdst ≠ 0 := by rw [hs.is.1.1]; decide
      refine hcalc (by omega) (by omega) (calcYday_eq z hs hstart trivial) (calcYday_eq z he hstop ?_)
      cases stop with
      | m month week day => exact (hknown trivial).2
      | j days => trivial
      | n days => trivial
  | n days =>
      have hne : z.startDst.isdst ≠ 0 := by rw [hs.is.1.1]; decide
      refine hcalc (by omega) (by omega) (calcYday_eq z hs hstart trivial) (calcYday_eq z he hstop ?_)
      cases stop with
      | m month week day => exact (hknown trivial).2
      | j days => trivial
      | n days => trivial

/-! ### The decision for a string -/

/-- The decision between two rule structures whose order is found right. -/
theorem isindst_iff {year_start year_stop start_time stop_time : ℤ} {start stop : DateText} (hf : Fields day secs t)
    (hsecs : 0 ≤ secs ∧ secs < secondsPerDay) (h0 : -1900 ≤ t.year) (h1 : t.year < 2 ^ 31) (hunknown : t.isdst < 0)
    (hdaylight : z.daylight = true) (hs : RuleFits z.startDst start start_time) (he : RuleFits z.endDst stop stop_time)
    (hstart : DateInRange start) (hstop : DateInRange stop)
    (hknown : ComparesDays start stop → MonthKnown t.year start ∧ MonthKnown t.year stop)
    (hys : year_start = ruleDay t.year start * secondsPerDay + start_time)
    (hye : year_stop = ruleDay t.year stop * secondsPerDay + stop_time)
    (horder : commonDay t.year stop < commonDay t.year start ↔ year_stop < year_start) :
    isindst z t = some 1 ↔ InDaylight year_start year_stop (t.yday * secondsPerDay + secs) := by
  have hfirst := startPart_iff hf hsecs h0 h1 hs hstart
  have hlast := startPart_iff hf hsecs h0 h1 he hstop
  rw [← hys] at hfirst
  rw [← hye] at hlast
  rw [isindst, if_neg (by omega), if_neg (by simp [hdaylight]), checkOrder_eq hs he hstart hstop hknown]
  unfold InDaylight
  by_cases hsouth : year_stop < year_start
  · rw [decide_eq_true (horder.mpr hsouth), if_neg (by omega)]
    simp only [Option.map_some, Option.some.injEq, if_true, endPart_eq]
    cases ha : startPart t z.startDst <;> cases hb : startPart t z.endDst <;>
      simp only [ha, hb, Bool.false_eq_true, false_iff, true_iff] at hfirst hlast <;> simp <;> omega
  · rw [decide_eq_false (mt horder.mp hsouth), if_pos (by omega)]
    simp only [Option.map_some, Option.some.injEq, Bool.false_eq_true, if_false, endPart_eq]
    cases ha : startPart t z.startDst <;> cases hb : startPart t z.endDst <;>
      simp only [ha, hb, Bool.false_eq_true, false_iff, true_iff] at hfirst hlast <;> simp <;> omega

/-- The instant of a year at which daylight time starts, in standard time. -/
def startInstant (year : ℤ) (r : RuleText) : ℤ := ruleDay year r.date * secondsPerDay + r.seconds

/-- The instant at which it ends, in standard time. -/
def stopInstant (year adjust : ℤ) (r : RuleText) : ℤ := ruleDay year r.date * secondsPerDay + r.seconds - adjust

/-- The answer for a time is whether it is in daylight time by the rules of a string. -/
def Decides (intBits : ℕ) (z : Zone) (text : TzText) (d : DaylightText) (start stop : RuleText) (t : Tm) (secs : ℤ) :
    Prop :=
  isindst (parseTz intBits z text.text).1 t = some 1 ↔
    InDaylight (startInstant t.year start) (stopInstant t.year (text.adjust d) stop) (t.yday * secondsPerDay + secs)

/-- The strings for which the decision is made from what they say, in a year: a daylight offset is given, and no times;
the end rule leaves its day neither behind nor ahead in standard time and fits whole hours; and the day that comes first
is the day that is taken to come first, of a year that `mktime` knows where it is asked for one. -/
structure Followed (intBits : ℕ) (text : TzText) (d : DaylightText) (start stop : RuleText) (year : ℤ) : Prop where
  offset : d.offset.isSome
  times : start.time = none ∧ stop.time = none
  fits : toInt intBits (text.adjust d) = text.adjust d
  whole : text.adjust d ≤ 0 ∨ 3600 ∣ text.adjust d
  sameDay : 0 ≤ 7200 - text.adjust d ∧ 7200 - text.adjust d ≤ secondsPerDay
  order : commonDay year stop.date < commonDay year start.date ↔
    stopInstant year (text.adjust d) stop < startInstant year start
  known : ComparesDays start.date stop.date → MonthKnown year start.date ∧ MonthKnown year stop.date

/-- Without a time it is two o'clock. -/
theorem parseRule_fits (r : RuleText) (tm : Tm) {u : List Char} (ht : r.time = none)
    (h : Avoids (fun c => dateGoesOn c || c = '/') u) :
    RuleFits (parseRule (r.text ++ u) tm).1 r.date 7200 ∧ (parseRule (r.text ++ u) tm).1.hour = 2 ∧
      (parseRule (r.text ++ u) tm).1.min = 0 ∧ (parseRule (r.text ++ u) tm).1.sec = 0 := by
  have hr := (parseDate_text r.date tm (h.mono fun c hc => by simp [hc])).2
  have hslash : skipChar '/' u = none :=
    skipChar_eq_none (h.mono fun c hc => by simp [of_decide_eq_true hc])
  have htext : r.text = r.date.text := by simp [RuleText.text, ht]
  have hmin : (parseRule (r.text ++ u) tm).1.min = 0 := by simp [parseRule, htext, hr, hslash]
  have hsec : (parseRule (r.text ++ u) tm).1.sec = 0 := by simp [parseRule, htext, hr, hslash]
  have hhour : (parseRule (r.text ++ u) tm).1.hour = 2 := by simp [parseRule, htext, hr, hslash]
  have his := (parseRule_text r tm ht h).1
  rw [RuleText.seconds, ht] at his
  exact ⟨⟨his, by omega, by omega, by decide⟩, hhour, hmin, hsec⟩

/-- Standard time of a rule at two o'clock fits whole hours on the same day. -/
theorem fixRule_fits {adjust : ℤ} (hr : RuleFits rule date 7200) (hmin : rule.min = 0) (hsec : rule.sec = 0)
    (hwhole : adjust ≤ 0 ∨ 3600 ∣ adjust) (hday : 0 ≤ 7200 - adjust ∧ 7200 - adjust ≤ secondsPerDay) :
    RuleFits (fixRule rule adjust) date (7200 - adjust) := by
  have hparts : (-60 < (adjust.tdiv 60).tmod 60 ∧ (adjust.tdiv 60).tmod 60 ≤ 0) ∧
      -60 < adjust.tmod 60 ∧ adjust.tmod 60 ≤ 0 := by
    obtain hneg | ⟨hours, rfl⟩ := hwhole
    · have h1 : adjust.tdiv 60 = -(-adjust / 60) := by
        rw [← Int.tdiv_eq_ediv_of_nonneg (by omega), Int.neg_tdiv, neg_neg]
      have h2 : adjust.tmod 60 = -(-adjust % 60) := by
        rw [← Int.tmod_eq_emod_of_nonneg (by omega), Int.neg_tmod, neg_neg]
      have h3 : (adjust.tdiv 60).tmod 60 = -(-adjust / 60 % 60) := by
        rw [h1, Int.neg_tmod, Int.tmod_eq_emod_of_nonneg (by omega)]
      omega
    · have h1 : (3600 * hours).tdiv 60 = 60 * hours := by
        rw [show 3600 * hours = 60 * (60 * hours) by ring, Int.mul_tdiv_cancel_left _ (by decide)]
      have h2 : (3600 * hours).tmod 60 = 0 := Int.tmod_eq_zero_of_dvd ⟨60 * hours, by ring⟩
      have h3 : (60 * hours).tmod 60 = 0 := Int.tmod_eq_zero_of_dvd ⟨hours, rfl⟩
      rw [h1, h2, h3]
      decide
  refine ⟨fixRule_is hr.is adjust, ?_, ?_, hday⟩
  · simp only [fixRule, hmin]
    omega
  · simp only [fixRule, hsec]
    omega

/-- The decision is right for the strings that are followed. -/
theorem isindst_followed (intBits : ℕ) (z : Zone) (text : TzText) (d : DaylightText) (start stop : RuleText)
    (hd : text.dst = some d) (hrules : d.rules = some (start, stop)) (hstart : DateInRange start.date)
    (hstop : DateInRange stop.date) (hf : Fields day secs t) (hsecs : 0 ≤ secs ∧ secs < secondsPerDay)
    (h0 : -1900 ≤ t.year) (h1 : t.year < 2 ^ 31) (hunknown : t.isdst < 0)
    (hfollowed : Followed intBits text d start stop t.year) : Decides intBits z text d start stop t secs := by
  obtain ⟨name, offset, dst⟩ := text
  obtain rfl : dst = some d := hd
  obtain ⟨dname, doffset, drules⟩ := d
  obtain rfl : drules = some (start, stop) := hrules
  obtain ⟨hoffset, ⟨htime1, htime2⟩, hfits, hwhole, hday, horder, hknown⟩ := hfollowed
  obtain ⟨doffset, rfl⟩ := Option.isSome_iff_exists.mp hoffset
  obtain ⟨z', hz', htimezone, -, -⟩ := parseTz_dst intBits z name offset ⟨dname, some doffset, some (start, stop)⟩
  obtain ⟨-, hs, he, -⟩ := parseDaylight_rules intBits z' dname doffset start stop htime1
  have hdaylight := (parseDaylight_kept intBits z' (DaylightText.text ⟨dname, some doffset, some (start, stop)⟩)).2
  have hadjust : z'.timezone - doffset.val = TzText.adjust
      ⟨name, offset, some ⟨dname, some doffset, some (start, stop)⟩⟩ ⟨dname, some doffset, some (start, stop)⟩ := by
    rw [htimezone]
    rfl
  rw [hadjust, hfits] at he
  have hseconds1 : start.seconds = 7200 := by rw [RuleText.seconds, htime1]
  have hseconds2 : stop.seconds = 7200 := by rw [RuleText.seconds, htime2]
  obtain ⟨hfit1, -⟩ := parseRule_fits (u := ',' :: stop.text) start z'.startDst htime1 (by simp [dateGoesOn])
  obtain ⟨hfit2, -, hmin, hsec⟩ := parseRule_fits (u := []) stop z'.endDst htime2 (by simp)
  rw [List.append_nil] at hfit2 hmin hsec
  have hfit3 := fixRule_fits hfit2 hmin hsec hwhole hday
  rw [← hs] at hfit1
  rw [← he] at hfit3
  unfold Decides
  rw [hz']
  exact isindst_iff hf hsecs h0 h1 hunknown hdaylight hfit1 hfit3 hstart hstop hknown (by rw [startInstant, hseconds1])
    (by rw [stopInstant, hseconds2]; ring) horder

instance (start stop now : ℤ) : Decidable (InDaylight start stop now) :=
  inferInstanceAs (Decidable (if start ≤ stop then start ≤ now ∧ now < stop else ¬ (stop ≤ now ∧ now < start)))

theorem zero_lt_base : 0 < 10 := by decide

theorem one_lt_base : 1 < 10 := by decide

theorem three_lt_base : 3 < 10 := by decide

theorem four_lt_base : 4 < 10 := by decide

theorem nine_lt_base : 9 < 10 := by decide

/-- A rule for the first Sunday of a month. -/
def firstSunday (month : ℕ) (h : month < 10) : RuleText :=
  ⟨.m (digit month h) (digit 1 one_lt_base) (digit 0 zero_lt_base), none⟩

theorem edt_ne_nil : "EDT".toList ≠ [] := by decide

theorem edt_isAlpha : ∀ c ∈ "EDT".toList, c.isAlpha := List.all_eq_true.1 (by decide)

/-- `EDT4,M3.1.0,M9.1.0`. -/
def easternDst : DaylightText where
  name := .plain "EDT".toList edt_ne_nil edt_isAlpha
  offset := some (.plain (.h (digit 4 four_lt_base)))
  rules := some (firstSunday 3 three_lt_base, firstSunday 9 nine_lt_base)

/-- Noon of 4 July 2024. -/
def july : Tm := ⟨0, 0, 12, 4, 6, 124, 4, 185, -1⟩

/-- `EST5EDT4,M3.1.0,M9.1.0`. -/
theorem isindst_followed_july :
    Decides 32 initialZone
      ⟨.plain "EST".toList (by decide) (List.all_eq_true.1 (by decide)), .plain (.h (digit 5 (by decide))),
        some easternDst⟩ easternDst (firstSunday 3 (by decide)) (firstSunday 9 (by decide)) july 43200 :=
  isindst_followed 32 initialZone _ _ _ _ rfl rfl ⟨by decide, by decide, by decide, by decide, by decide, by decide⟩
    ⟨by decide, by decide, by decide, by decide, by decide, by decide⟩
    (⟨by decide, by decide, by decide, by decide, by decide, by decide, by decide, by decide⟩ :
      Fields 45475 43200 july) (by decide) (by decide) (by decide) (by decide)
    ⟨by decide, by decide, by decide, by decide, by decide, by decide,
      fun h => absurd (show (3 : ℤ) = 9 from h) (by decide)⟩

theorem lhdt_ne_nil : "LHDT".toList ≠ [] := by decide

theorem lhdt_isAlpha : ∀ c ∈ "LHDT".toList, c.isAlpha := List.all_eq_true.1 (by decide)

theorem lhst_ne_nil : "LHST".toList ≠ [] := by decide

theorem lhst_isAlpha : ∀ c ∈ "LHST".toList, c.isAlpha := List.all_eq_true.1 (by decide)

theorem eleven_ne_nil : [1, 1] ≠ ([] : List ℕ) := by simp

theorem eleven_digits : Digits [1, 1] := by decide

theorem ten_ne_nil : [1, 0] ≠ ([] : List ℕ) := by simp

theorem ten_digits : Digits [1, 0] := by decide

theorem thirty_ne_nil : [3, 0] ≠ ([] : List ℕ) := by simp

theorem thirty_digits : Digits [3, 0] := by decide

/-- `LHDT-11,M9.1.0,M4.1.0`. -/
def lordHoweDst : DaylightText where
  name := .plain "LHDT".toList lhdt_ne_nil lhdt_isAlpha
  offset := some (.minus (.h ⟨[1, 1], eleven_ne_nil, eleven_digits⟩))
  rules := some (firstSunday 9 nine_lt_base, firstSunday 4 four_lt_base)

/-- `LHST-10:30LHDT-11,M9.1.0,M4.1.0`. -/
def lordHowe : TzText where
  name := .plain "LHST".toList lhst_ne_nil lhst_isAlpha
  offset := .minus (.hm ⟨[1, 0], ten_ne_nil, ten_digits⟩ ⟨[3, 0], thirty_ne_nil, thirty_digits⟩)
  dst := some lordHoweDst

/-- A quarter to two on 7 April 2024. -/
def april : Tm := ⟨0, 45, 1, 7, 3, 124, 0, 97, -1⟩

/-- Half past one in standard time is kept as half an hour before two, which no time of that hour is behind. -/
theorem not_isindst_followed :
    lordHowe.text = "LHST-10:30LHDT-11,M9.1.0,M4.1.0".toList ∧ Fields 45387 6300 april ∧
      ¬ Decides 32 initialZone lordHowe lordHoweDst (firstSunday 9 (by decide)) (firstSunday 4 (by decide)) april
        6300 :=
  ⟨by decide, ⟨by decide, by decide, by decide, by decide, by decide, by decide, by decide, by decide⟩, by
    unfold Decides
    decide⟩

end OpenWatcom.Clib.Daylight
