import Mathlib
import OpenWatcom.Lib.Decimal
import OpenWatcom.Clib.Calendar

/-! # The `TZ` variable

`__parse_tz` and the small parsers it is made of, against the strings of the POSIX grammar. A string is a list of
characters, at the end of which `*tz` is `'\0'`. The numbers of the grammar are small, so that only the difference of
two offsets may not fit an `int`.

* `parseTime_text`, `parseOffset_text`, `parseName_text`, `parseDate_text`: what each parser makes of its own text;
* `parseOS2_text`: the rules of the grammar are no OS/2 rules;
* `parseTz_denotes_iff`: the strings that are understood. -/

namespace OpenWatcom.Clib.TzSet

open Calendar

/-- `TZNAME_MAX`. -/
def tznameMax : ℕ := 128

/-- The string behind the character, where it starts with it. -/
def skipChar (c : Char) : List Char → Option (List Char)
  | [] => none
  | ch :: tz => if ch = c then some tz else none

/-- `parse_sign`. -/
def parseSign (tz : List Char) : Bool × List Char :=
  match skipChar '-' tz with
  | some tz => (true, tz)
  | none => (false, (skipChar '+' tz).getD tz)

/-- The loop of `parse_number`. -/
def numberLoop : ℤ → List Char → ℤ × List Char
  | value, [] => (value, [])
  | value, ch :: tz => if ch.isDigit then numberLoop (value * 10 + (ch.toNat - 48)) tz else (value, ch :: tz)

/-- `parse_number`. -/
def parseNumber (tz : List Char) : ℤ × List Char := numberLoop 0 tz

/-- Hours, minutes and seconds. -/
structure Hms where
  hours : ℤ
  minutes : ℤ
  seconds : ℤ

/-- `parse_time`, with what the variables hold before. -/
def parseTime (tz : List Char) (t : Hms) : Hms × List Char :=
  match skipChar ':' (parseNumber tz).2 with
  | none => ({ t with hours := (parseNumber tz).1 }, (parseNumber tz).2)
  | some tz' =>
    match skipChar ':' (parseNumber tz').2 with
    | none => ({ t with hours := (parseNumber tz).1, minutes := (parseNumber tz').1 }, (parseNumber tz').2)
    | some tz'' => (⟨(parseNumber tz).1, (parseNumber tz').1, (parseNumber tz'').1⟩, (parseNumber tz'').2)

/-- The character at which the loop of `parse_name` ends. -/
def nameEnds (quoted : Bool) (ch : Char) : Bool :=
  if quoted then ch = '>' else ch = ',' || ch = '-' || ch = '+' || ch.isDigit

/-- `parse_name`. -/
def parseName (tz : List Char) : List Char × List Char :=
  match skipChar '<' tz with
  | some tz => ((tz.takeWhile (! nameEnds true ·)).take tznameMax,
      (skipChar '>' (tz.dropWhile (! nameEnds true ·))).getD (tz.dropWhile (! nameEnds true ·)))
  | none => ((tz.takeWhile (! nameEnds false ·)).take tznameMax, tz.dropWhile (! nameEnds false ·))

/-- `parse_offset`, with the offset as it is before. -/
def parseOffset (tz : List Char) (offset : ℤ) : ℤ × List Char :=
  if (parseSign tz).2.head?.any Char.isDigit then
    let t := parseTime (parseSign tz).2 ⟨0, 0, 0⟩
    let value := t.1.seconds + (t.1.minutes + t.1.hours * 60) * 60
    (if (parseSign tz).1 then -value else value, t.2)
  else (offset, (parseSign tz).2)

/-- The first part of `parse_rule`: the day. -/
def parseDate (tz : List Char) (tm : Tm) : Tm × List Char :=
  match skipChar 'M' ((skipChar 'J' tz).getD tz) with
  | none =>
    let days := parseNumber ((skipChar 'J' tz).getD tz)
    ({ tm with isdst := if (skipChar 'J' tz).isSome then 1 else -1, yday := days.1 }, days.2)
  | some tz =>
    let mon := parseNumber tz
    match skipChar '.' mon.2 with
    | none => ({ tm with isdst := 0, mon := mon.1 - 1, yday := 0 }, mon.2)
    | some tz =>
      let week := parseNumber tz
      match skipChar '.' week.2 with
      | none => ({ tm with isdst := 0, mon := mon.1 - 1, mday := week.1, yday := 0 }, week.2)
      | some tz =>
        let day := parseNumber tz
        ({ tm with isdst := 0, mon := mon.1 - 1, mday := week.1, wday := day.1, yday := 0 }, day.2)

/-- `parse_rule`. The time is parsed from the slash on, not from behind it. -/
def parseRule (tz : List Char) (tm : Tm) : Tm × List Char :=
  let date := parseDate tz tm
  let time := if (skipChar '/' date.2).isSome then parseTime date.2 ⟨2, 0, 0⟩ else (⟨2, 0, 0⟩, date.2)
  ({ date.1 with sec := time.1.seconds, min := time.1.minutes, hour := time.1.hours }, time.2)

/-- `fix_rule`. -/
def fixRule (tm : Tm) (adjust : ℤ) : Tm :=
  { tm with
    hour := tm.hour - adjust.tdiv 3600
    min := tm.min - (adjust.tdiv 60).tmod 60
    sec := tm.sec - adjust.tmod 60 }

/-- `parse_rule_OS2`. -/
def parseRuleOS2 (tz : List Char) (tm : Tm) : Tm × List Char :=
  let month := parseNumber tz
  match skipChar ',' month.2 with
  | none => (tm, tz)
  | some tz2 =>
    if month.2 = tz then (tm, tz)
    else
      let neg := (parseSign tz2).1
      let week := parseNumber (parseSign tz2).2
      match skipChar ',' week.2 with
      | none => (tm, tz2)
      | some tz3 =>
        if week.2 = tz2 ∨ neg ∧ week.1 ≠ 1 then (tm, tz2)
        else
          let days := parseNumber tz3
          match skipChar ',' days.2 with
          | none => (tm, tz3)
          | some tz4 =>
            if days.2 = tz3 then (tm, tz3)
            else
              let tm := if (if neg then 5 else week.1) = 0 then
                  { tm with yday := days.1 + diyr.getD (month.1 - 1).toNat 0, isdst := 1 }
                else { tm with isdst := 0, mon := month.1 - 1, mday := if neg then 5 else week.1, wday := days.1 }
              let seconds := parseNumber tz4
              if seconds.2 = tz4 ∨ (skipChar ',' seconds.2).isNone then (tm, tz4)
              else (fixRule tm (-seconds.1), seconds.2)

/-- `parse_OS2`: both rules, `day_zone` and the rest of the string. -/
def parseOS2 (tz : List Char) (time1 time2 : Tm) (timezone dayZone : ℤ) : (Tm × Tm × ℤ) × List Char :=
  let zero : Tm := ⟨0, 0, 0, 0, 0, 0, 0, 0, 0⟩
  let start := parseRuleOS2 tz zero
  match skipChar ',' start.2 with
  | none => ((time1, time2, dayZone), tz)
  | some tz2 =>
    if start.2 = tz then ((time1, time2, dayZone), tz)
    else
      let stop := parseRuleOS2 tz2 zero
      match skipChar ',' stop.2 with
      | none => ((time1, time2, dayZone), tz2)
      | some tz3 =>
        if stop.2 = tz2 ∨ tz3 = [] then ((time1, time2, dayZone), tz2)
        else
          let shift := parseNumber tz3
          if shift.2 = [] then ((start.1, stop.1, timezone - shift.1), shift.2)
          else ((time1, time2, dayZone), shift.2)

/-- The variables that `__parse_tz` sets. -/
structure Zone where
  timezone : ℤ
  daylight : Bool
  dstAdjust : ℤ
  startDst : Tm
  endDst : Tm
  stzone : List Char
  dtzone : List Char

/-- A value put into an `int`. -/
def toInt (intBits : ℕ) (x : ℤ) : ℤ := x.bmod (2 ^ intBits)

/-- `__parse_tz` from the daylight name on. -/
def parseDaylight (intBits : ℕ) (z : Zone) (tz : List Char) : Zone × List Char :=
  let name := parseName tz
  let z := { z with daylight := true, dstAdjust := 60 * 60, dtzone := name.1 }
  let dayzone := z.timezone - 60 * 60
  match skipChar ',' name.2 with
  | some tz =>
    let os2 := parseOS2 tz z.startDst z.endDst z.timezone dayzone
    let z := { z with startDst := os2.1.1, endDst := os2.1.2.1 }
    if os2.2 = [] then
      let adjust := toInt intBits (z.timezone - os2.1.2.2)
      ({ z with dstAdjust := adjust, endDst := fixRule z.endDst adjust }, os2.2)
    else (z, os2.2)
  | none =>
    let offset := parseOffset name.2 dayzone
    let z := { z with dstAdjust := toInt intBits (z.timezone - offset.1) }
    match skipChar ',' offset.2 with
    | none => (z, offset.2)
    | some tz =>
      let start := parseRule tz z.startDst
      let z := { z with startDst := start.1 }
      match skipChar ',' start.2 with
      | none => (z, start.2)
      | some tz =>
        let stop := parseRule tz z.endDst
        ({ z with endDst := fixRule stop.1 z.dstAdjust }, stop.2)

/-- `__parse_tz`, with the rest of the string. -/
def parseTz (intBits : ℕ) (z : Zone) (tz : List Char) : Zone × List Char :=
  let name := parseName ((skipChar ':' tz).getD tz)
  let offset := parseOffset name.2 z.timezone
  let z := { z with daylight := false, stzone := name.1, timezone := offset.1 }
  if offset.2 = [] then ({ z with dtzone := [] }, offset.2)
  else parseDaylight intBits z offset.2

/-! ### The grammar -/

/-- Decimal digits. -/
structure Numeral where
  digits : List ℕ
  ne_nil : digits ≠ []
  lt : Digits digits

def Numeral.text (n : Numeral) : List Char := n.digits.map Nat.digitChar

def Numeral.val (n : Numeral) : ℤ := decVal n.digits

/-- `hh[:mm[:ss]]`. -/
inductive TimeText
  | h (hour : Numeral)
  | hm (hour min : Numeral)
  | hms (hour min sec : Numeral)

def TimeText.text : TimeText → List Char
  | .h hour => hour.text
  | .hm hour min => hour.text ++ ':' :: min.text
  | .hms hour min sec => hour.text ++ ':' :: (min.text ++ ':' :: sec.text)

/-- The seconds of a time. -/
def TimeText.val : TimeText → ℤ
  | .h hour => 3600 * hour.val
  | .hm hour min => 3600 * hour.val + 60 * min.val
  | .hms hour min sec => 3600 * hour.val + 60 * min.val + sec.val

/-- A time, behind a sign or not. -/
inductive OffsetText
  | plain (time : TimeText)
  | plus (time : TimeText)
  | minus (time : TimeText)

def OffsetText.text : OffsetText → List Char
  | .plain time => time.text
  | .plus time => '+' :: time.text
  | .minus time => '-' :: time.text

def OffsetText.val : OffsetText → ℤ
  | .plain time => time.val
  | .plus time => time.val
  | .minus time => -time.val

/-- Letters; or letters, digits and signs in angle brackets. -/
inductive NameText
  | plain (name : List Char) (ne_nil : name ≠ []) (alpha : ∀ c ∈ name, c.isAlpha)
  | quoted (name : List Char) (alphanum : ∀ c ∈ name, c.isAlphanum ∨ c = '+' ∨ c = '-')

def NameText.text : NameText → List Char
  | .plain name _ _ => name
  | .quoted name _ => '<' :: (name ++ ['>'])

/-- `Mm.w.d`, `Jn` and `n`. -/
inductive DateText
  | m (month week day : Numeral)
  | j (days : Numeral)
  | n (days : Numeral)

def DateText.text : DateText → List Char
  | .m month week day => 'M' :: (month.text ++ '.' :: (week.text ++ '.' :: day.text))
  | .j days => 'J' :: days.text
  | .n days => days.text

/-- A day and a time, which is two o'clock where it is not given. -/
structure RuleText where
  date : DateText
  time : Option TimeText

def RuleText.text (r : RuleText) : List Char :=
  r.date.text ++ match r.time with
    | none => []
    | some time => '/' :: time.text

def RuleText.seconds (r : RuleText) : ℤ :=
  match r.time with
  | none => 7200
  | some time => time.val

structure DaylightText where
  name : NameText
  offset : Option OffsetText
  rules : Option (RuleText × RuleText)

def DaylightText.text (d : DaylightText) : List Char :=
  d.name.text ++ ((match d.offset with
    | none => []
    | some offset => offset.text) ++ match d.rules with
    | none => []
    | some (start, stop) => ',' :: (start.text ++ ',' :: stop.text))

/-- A string of the grammar. -/
structure TzText where
  name : NameText
  offset : OffsetText
  dst : Option DaylightText

def TzText.text (t : TzText) : List Char :=
  t.name.text ++ (t.offset.text ++ match t.dst with
    | none => []
    | some dst => dst.text)

/-- How much daylight time is ahead. -/
def TzText.adjust (t : TzText) (d : DaylightText) : ℤ :=
  match d.offset with
  | none => 3600
  | some offset => t.offset.val - offset.val

/-- The rule structure holds the date. -/
def DateText.Is (tm : Tm) : DateText → Prop
  | .m month week day => tm.isdst = 0 ∧ tm.mon = month.val - 1 ∧ tm.mday = week.val ∧ tm.wday = day.val
  | .j days => tm.isdst = 1 ∧ tm.yday = days.val
  | .n days => tm.isdst = -1 ∧ tm.yday = days.val

/-- The rule structure holds the date and the time, which is in seconds. -/
def RuleIs (tm : Tm) (date : DateText) (time : ℤ) : Prop :=
  date.Is tm ∧ 3600 * tm.hour + 60 * tm.min + tm.sec = time

/-- The rules that hold where a string gives none, as the program sets them at first. -/
def defaultDates : DateText × DateText :=
  (.m ⟨[4], by simp, by decide⟩ ⟨[1], by simp, by decide⟩ ⟨[0], by simp, by decide⟩,
    .m ⟨[1, 0], by simp, by decide⟩ ⟨[5], by simp, by decide⟩ ⟨[0], by simp, by decide⟩)

/-- The rules of a string with a daylight name are in the rule structures, the end rule in standard time. -/
def RulesAre (z : Zone) (adjust : ℤ) : Option (RuleText × RuleText) → Prop
  | none => RuleIs z.startDst defaultDates.1 7200 ∧ RuleIs z.endDst defaultDates.2 3600
  | some (start, stop) =>
    RuleIs z.startDst start.date start.seconds ∧ RuleIs z.endDst stop.date (stop.seconds - adjust)

/-- The string is consumed, and the variables hold what it says. -/
def Denotes (t : TzText) (r : Zone × List Char) : Prop :=
  r.2 = [] ∧ r.1.timezone = t.offset.val ∧ (r.1.daylight ↔ t.dst.isSome) ∧
    ∀ d, t.dst = some d → r.1.dstAdjust = t.adjust d ∧ RulesAre r.1 (t.adjust d) d.rules

/-- The strings that are understood: a daylight offset that fits an `int`; without rules, only while the rule structures
are as they were at first; with rules, only behind a daylight offset and without times. -/
def Understood (intBits : ℕ) (z : Zone) (t : TzText) : Prop :=
  ∀ d, t.dst = some d → toInt intBits (t.adjust d) = t.adjust d ∧
    match d.rules with
    | none => RulesAre z (t.adjust d) none
    | some (start, stop) => d.offset.isSome ∧ start.time = none ∧ stop.time = none

/-! ### The parsers on their texts -/

section Parsers

/-- The string does not start with such a character. -/
def Avoids (p : Char → Bool) (tz : List Char) : Prop := ∀ c ∈ tz.head?, p c = false

@[simp] theorem avoids_nil (p : Char → Bool) : Avoids p [] := fun _ h => nomatch h

@[simp] theorem avoids_cons {p : Char → Bool} {c : Char} {tz : List Char} : Avoids p (c :: tz) ↔ p c = false := by
  simp [Avoids]

theorem Avoids.mono {p q : Char → Bool} {tz : List Char} (h : Avoids p tz) (hpq : ∀ c, q c → p c) : Avoids q tz := by
  intro c hc
  have := h c hc
  by_contra hq
  rw [hpq c (by simpa using hq)] at this
  exact nomatch this

@[simp] theorem skipChar_nil (c : Char) : skipChar c [] = none := rfl

@[simp] theorem skipChar_cons (c ch : Char) (tz : List Char) :
    skipChar c (ch :: tz) = if ch = c then some tz else none := rfl

theorem skipChar_eq_none {c : Char} {tz : List Char} (h : Avoids (· = c) tz) : skipChar c tz = none := by
  cases tz with
  | nil => rfl
  | cons ch tz => simpa using h

variable {u : List Char}

theorem digitChar_isDigit {d : ℕ} (h : d < 10) : (Nat.digitChar d).isDigit ∧ (Nat.digitChar d).toNat = d + 48 := by
  revert d
  decide

theorem numberLoop_text (l : List ℕ) (hl : Digits l) (h : Avoids Char.isDigit u) (value : ℤ) :
    numberLoop value (l.map Nat.digitChar ++ u) = (value * 10 ^ l.length + decVal l, u) := by
  induction l generalizing value with
  | nil =>
      cases u with
      | nil => simp [numberLoop]
      | cons c u => simp [numberLoop, show c.isDigit = false by simpa using h]
  | cons d l ih =>
      obtain ⟨hd, hn⟩ := digitChar_isDigit hl.head
      simp only [List.map_cons, List.cons_append, numberLoop, hd, if_true, ih hl.tail, hn, decVal_cons,
        List.length_cons]
      push_cast
      ring_nf

@[simp] theorem parseNumber_text (n : Numeral) (h : Avoids Char.isDigit u) :
    parseNumber (n.text ++ u) = (n.val, u) := by
  simp [parseNumber, Numeral.text, numberLoop_text n.digits n.lt h, Numeral.val]

theorem Numeral.text_cons (n : Numeral) : ∃ c tl, n.text = c :: tl ∧ c.isDigit := by
  obtain ⟨d, l, hd⟩ := List.exists_cons_of_ne_nil n.ne_nil
  refine ⟨Nat.digitChar d, l.map Nat.digitChar, by simp [Numeral.text, hd], ?_⟩
  exact (digitChar_isDigit (n.lt d (by simp [hd]))).1

/-- What a digit is not. -/
theorem isDigit_ne {c : Char} (h : c.isDigit) {x : Char} (hx : x.isDigit = false) : c ≠ x := by
  rintro rfl
  rw [h] at hx
  exact nomatch hx

theorem Numeral.avoids (n : Numeral) {p : Char → Bool} (h : ∀ c, c.isDigit → p c = false) :
    Avoids p (n.text ++ u) := by
  obtain ⟨c, tl, hc, hd⟩ := n.text_cons
  simpa [hc] using h c hd

theorem TimeText.cons (t : TimeText) : ∃ c tl, t.text = c :: tl ∧ c.isDigit := by
  cases t with
  | h hour => exact hour.text_cons
  | hm hour min =>
      obtain ⟨c, tl, hc, hd⟩ := hour.text_cons
      exact ⟨c, tl ++ ':' :: min.text, by simp [TimeText.text, hc], hd⟩
  | hms hour min sec =>
      obtain ⟨c, tl, hc, hd⟩ := hour.text_cons
      exact ⟨c, tl ++ ':' :: (min.text ++ ':' :: sec.text), by simp [TimeText.text, hc], hd⟩

/-- The characters that a time may go on with. -/
def timeGoesOn (c : Char) : Bool := c.isDigit || c = ':'

theorem parseTime_text (t : TimeText) (h : Avoids timeGoesOn u) :
    ∃ r, parseTime (t.text ++ u) ⟨0, 0, 0⟩ = (r, u) ∧ r.seconds + (r.minutes + r.hours * 60) * 60 = t.val := by
  have hdigit : Avoids Char.isDigit u := h.mono fun c hc => by simp [timeGoesOn, hc]
  have hcolon : skipChar ':' u = none :=
    skipChar_eq_none (h.mono fun c hc => by simp [timeGoesOn, of_decide_eq_true hc])
  have hc (tz : List Char) : Avoids Char.isDigit (':' :: tz) := by simp
  cases t with
  | h hour =>
      refine ⟨⟨hour.val, 0, 0⟩, by simp [parseTime, TimeText.text, parseNumber_text hour hdigit, hcolon], ?_⟩
      simp only [TimeText.val]
      ring
  | hm hour min =>
      refine ⟨⟨hour.val, min.val, 0⟩,
        by simp [parseTime, TimeText.text, hc, parseNumber_text min hdigit, hcolon], ?_⟩
      simp only [TimeText.val]
      ring
  | hms hour min sec =>
      refine ⟨⟨hour.val, min.val, sec.val⟩,
        by simp [parseTime, TimeText.text, hc, parseNumber_text sec hdigit], ?_⟩
      simp only [TimeText.val]
      ring

theorem parseSign_time (t : TimeText) : parseSign (t.text ++ u) = (false, t.text ++ u) := by
  obtain ⟨c, tl, hc, hd⟩ := t.cons
  have h1 : c ≠ '-' := isDigit_ne hd (by decide)
  have h2 : c ≠ '+' := isDigit_ne hd (by decide)
  simp [parseSign, hc, h1, h2]

theorem parseOffset_text (o : OffsetText) (h : Avoids timeGoesOn u) (offset : ℤ) :
    parseOffset (o.text ++ u) offset = (o.val, u) := by
  have htime (t : TimeText) : (t.text ++ u).head?.any Char.isDigit := by
    obtain ⟨c, tl, hc, hd⟩ := t.cons
    simpa [hc] using hd
  cases o with
  | plain t =>
      obtain ⟨r, hr, hv⟩ := parseTime_text t h
      simp only [parseOffset, OffsetText.text, parseSign_time, htime t, if_true, hr, OffsetText.val, ← hv]
      simp
  | plus t =>
      obtain ⟨r, hr, hv⟩ := parseTime_text t h
      have hs : parseSign ('+' :: t.text ++ u) = (false, t.text ++ u) := by simp [parseSign]
      simp only [parseOffset, OffsetText.text, hs, htime t, if_true, hr, OffsetText.val, ← hv]
      simp
  | minus t =>
      obtain ⟨r, hr, hv⟩ := parseTime_text t h
      have hs : parseSign ('-' :: t.text ++ u) = (true, t.text ++ u) := by simp [parseSign]
      simp only [parseOffset, OffsetText.text, hs, htime t, if_true, hr, OffsetText.val, ← hv]

theorem isAlpha_not_isDigit {c : Char} (h : c.isAlpha) : c.isDigit = false := by
  simp only [Char.isAlpha, Char.isUpper, Char.isLower, Char.isDigit, Bool.or_eq_true, Bool.and_eq_true,
    decide_eq_true_eq, Bool.and_eq_false_iff, decide_eq_false_iff_not] at h ⊢
  grind

theorem isAlpha_ne {c : Char} (h : c.isAlpha) {x : Char} (hx : x.isAlpha = false) : c ≠ x := by
  rintro rfl
  rw [h] at hx
  exact nomatch hx

/-- A name ends where a character comes that is not part of it, which for a name in brackets is the bracket. -/
theorem parseName_text (n : NameText) (h : Avoids (! nameEnds false ·) u) : (parseName (n.text ++ u)).2 = u := by
  have hdrop {q : Bool} {l tl : List Char} (hl : ∀ c ∈ l, nameEnds q c = false) (htl : Avoids (! nameEnds q ·) tl) :
      (l ++ tl).dropWhile (! nameEnds q ·) = tl := by
    rw [List.dropWhile_append_of_pos (by simpa using hl)]
    cases tl with
    | nil => rfl
    | cons c tl => simpa using htl
  cases n with
  | plain name hne halpha =>
      have hskip : skipChar '<' (name ++ u) = none := by
        obtain ⟨c, tl, rfl⟩ := List.exists_cons_of_ne_nil hne
        simpa using isAlpha_ne (halpha c (by simp)) (by decide)
      simp only [parseName, NameText.text, hskip]
      refine hdrop (fun c hc => ?_) h
      have hca := halpha c hc
      simp [nameEnds, isAlpha_not_isDigit hca, isAlpha_ne hca (show ','.isAlpha = false by decide),
        isAlpha_ne hca (show '-'.isAlpha = false by decide), isAlpha_ne hca (show '+'.isAlpha = false by decide)]
  | quoted name hname =>
      have hl : ∀ c ∈ name, nameEnds true c = false := by
        intro c hc
        simp only [nameEnds, if_true, decide_eq_false_iff_not]
        rintro rfl
        simpa using hname '>' hc
      have hd : (name ++ '>' :: u).dropWhile (! nameEnds true ·) = '>' :: u := hdrop hl (by simp [nameEnds])
      simp [parseName, NameText.text, hd]

/-- The characters that a day may go on with. -/
def dateGoesOn (c : Char) : Bool := c.isDigit || c = '.'

theorem parseDate_text (d : DateText) (tm : Tm) (h : Avoids dateGoesOn u) :
    d.Is (parseDate (d.text ++ u) tm).1 ∧ (parseDate (d.text ++ u) tm).2 = u := by
  have hdigit : Avoids Char.isDigit u := h.mono fun c hc => by simp [dateGoesOn, hc]
  have hdot (tz : List Char) : Avoids Char.isDigit ('.' :: tz) := by simp
  have hskip (n : Numeral) {x : Char} (hx : x.isDigit = false) : skipChar x (n.text ++ u) = none :=
    skipChar_eq_none (n.avoids fun c hc => by simpa using isDigit_ne hc hx)
  cases d with
  | m month week day =>
      simp [parseDate, DateText.text, DateText.Is, hdot, parseNumber_text day hdigit]
  | j days =>
      have hM := hskip days (x := 'M') (by decide)
      simp [parseDate, DateText.text, DateText.Is, hM, parseNumber_text days hdigit]
  | n days =>
      have hM := hskip days (x := 'M') (by decide)
      have hJ := hskip days (x := 'J') (by decide)
      simp [parseDate, DateText.text, DateText.Is, hM, hJ, parseNumber_text days hdigit]

@[simp] theorem DateText.is_time (d : DateText) (tm : Tm) (sec min hour : ℤ) :
    d.Is { tm with sec := sec, min := min, hour := hour } ↔ d.Is tm := by
  cases d <;> rfl

/-- A rule without a time. -/
theorem parseRule_text (r : RuleText) (tm : Tm) (ht : r.time = none) (h : Avoids (fun c => dateGoesOn c || c = '/') u) :
    RuleIs (parseRule (r.text ++ u) tm).1 r.date r.seconds ∧ (parseRule (r.text ++ u) tm).2 = u := by
  obtain ⟨hd, hr⟩ := parseDate_text r.date tm (h.mono fun c hc => by simp [hc])
  have hslash : skipChar '/' u = none :=
    skipChar_eq_none (h.mono fun c hc => by simp [of_decide_eq_true hc])
  have htext : r.text = r.date.text := by simp [RuleText.text, ht]
  simp only [parseRule, htext, hr, hslash, Option.isSome_none]
  exact ⟨⟨(DateText.is_time _ _ _ _ _).mpr hd, by simp [RuleText.seconds, ht]⟩, rfl⟩

/-- A time is not consumed. -/
theorem parseRule_slash (r : RuleText) (tm : Tm) {t : TimeText} (ht : r.time = some t) :
    (parseRule (r.text ++ u) tm).2 = '/' :: (t.text ++ u) := by
  have htext : r.text ++ u = r.date.text ++ '/' :: (t.text ++ u) := by simp [RuleText.text, ht]
  obtain ⟨-, hr⟩ := parseDate_text (u := '/' :: (t.text ++ u)) r.date tm (by simp [dateGoesOn])
  simp [parseRule, htext, hr, parseTime, parseNumber, numberLoop]

theorem tdiv_tdiv_sixty (a : ℤ) : (a.tdiv 60).tdiv 60 = a.tdiv 3600 := by
  have hpos (b : ℤ) (hb : 0 ≤ b) : (b.tdiv 60).tdiv 60 = b.tdiv 3600 := by
    rw [Int.tdiv_eq_ediv_of_nonneg hb, Int.tdiv_eq_ediv_of_nonneg (by omega), Int.tdiv_eq_ediv_of_nonneg hb]
    omega
  obtain h | h := le_total 0 a
  · exact hpos a h
  · have := hpos (-a) (by omega)
    simpa only [Int.neg_tdiv, neg_inj] using this

/-- Standard time is as far behind as the adjustment says. -/
theorem fixRule_is {tm : Tm} {d : DateText} {time : ℤ} (h : RuleIs tm d time) (adjust : ℤ) :
    RuleIs (fixRule tm adjust) d (time - adjust) := by
  refine ⟨(DateText.is_time _ _ _ _ _).mpr h.1, ?_⟩
  have h1 := Int.mul_tdiv_add_tmod adjust 60
  have h2 := Int.mul_tdiv_add_tmod (adjust.tdiv 60) 60
  have h3 := tdiv_tdiv_sixty adjust
  have h4 := h.2
  simp only [fixRule]
  omega

theorem DateText.cons (d : DateText) : ∃ c tl, d.text = c :: tl ∧ (c.isDigit ∨ c = 'M' ∨ c = 'J') := by
  cases d with
  | m month week day => exact ⟨'M', _, rfl, by simp⟩
  | j days => exact ⟨'J', _, rfl, by simp⟩
  | n days =>
      obtain ⟨c, tl, hc, hd⟩ := days.text_cons
      exact ⟨c, tl, hc, .inl hd⟩

/-- A rule starts with neither a sign nor a comma. -/
theorem DateText.cons_ne (d : DateText) : ∃ c tl, d.text = c :: tl ∧ c ≠ ',' ∧ c ≠ '-' ∧ c ≠ '+' := by
  obtain ⟨c, tl, hc, h⟩ := d.cons
  refine ⟨c, tl, hc, ?_⟩
  obtain h | rfl | rfl := h
  · exact ⟨isDigit_ne h (by decide), isDigit_ne h (by decide), isDigit_ne h (by decide)⟩
  · decide
  · decide

theorem RuleText.skip_comma (r : RuleText) : skipChar ',' (r.text ++ u) = none := by
  obtain ⟨c, tl, hc, hcomma, -, -⟩ := r.date.cons_ne
  simp [RuleText.text, hc, hcomma]

/-- The number that a rule starts with, or none, is not followed by a comma where the rule is not. -/
theorem RuleText.number_skip_comma (r : RuleText) (h : skipChar ',' u = none) (hr : Avoids Char.isDigit u) :
    skipChar ',' (parseNumber (r.text ++ u)).2 = none := by
  obtain ⟨date, time⟩ := r
  cases date with
  | m month week day => simp [RuleText.text, DateText.text, parseNumber, numberLoop]
  | j days => simp [RuleText.text, DateText.text, parseNumber, numberLoop]
  | n days =>
      cases time with
      | none => simpa [RuleText.text, DateText.text, parseNumber_text days hr] using h
      | some t => simp [RuleText.text, DateText.text]

theorem RuleText.parseSign (r : RuleText) : parseSign (r.text ++ u) = (false, r.text ++ u) := by
  obtain ⟨c, tl, hc, -, hminus, hplus⟩ := r.date.cons_ne
  simp [TzSet.parseSign, RuleText.text, hc, hminus, hplus]

/-- The first rule of the grammar is no OS/2 rule: the parser stops before it, or before the second one. -/
theorem parseRuleOS2_text (start stop : RuleText) (tm : Tm) :
    (parseRuleOS2 (start.text ++ ',' :: stop.text) tm).2 = start.text ++ ',' :: stop.text ∨
      (parseRuleOS2 (start.text ++ ',' :: stop.text) tm).2 = stop.text := by
  unfold parseRuleOS2
  simp only
  cases hm : skipChar ',' (parseNumber (start.text ++ ',' :: stop.text)).2 with
  | none => exact .inl rfl
  | some tz2 =>
      simp only
      split
      · exact .inl rfl
      · -- only the form of a day number comes here, and what follows its comma is the second rule
        have htz2 : tz2 = stop.text := by
          obtain ⟨date, time⟩ := start
          cases date with
          | m month week day => simp [RuleText.text, DateText.text, parseNumber, numberLoop] at hm
          | j days => simp [RuleText.text, DateText.text, parseNumber, numberLoop] at hm
          | n days =>
              cases time with
              | none => simpa [RuleText.text, DateText.text, eq_comm] using hm
              | some t => simp [RuleText.text, DateText.text] at hm
        subst htz2
        have hsign := RuleText.parseSign (u := []) stop
        have hnum := stop.number_skip_comma (u := []) rfl (by simp)
        simp only [List.append_nil] at hsign hnum
        rw [hsign, hnum]
        exact .inr rfl

theorem parseOS2_text (start stop : RuleText) (time1 time2 : Tm) (timezone dayZone : ℤ) :
    (parseOS2 (start.text ++ ',' :: stop.text) time1 time2 timezone dayZone).2 = start.text ++ ',' :: stop.text := by
  unfold parseOS2
  obtain h | h := parseRuleOS2_text start stop ⟨0, 0, 0, 0, 0, 0, 0, 0, 0⟩
  · simp only [h, start.skip_comma]
  · have := stop.skip_comma (u := [])
    rw [List.append_nil] at this
    simp only [h, this]

end Parsers

/-! ### Strings -/

section Strings

theorem NameText.cons (n : NameText) : ∃ c tl, n.text = c :: tl ∧ (c.isAlpha ∨ c = '<') := by
  cases n with
  | plain name hne halpha =>
      obtain ⟨c, tl, rfl⟩ := List.exists_cons_of_ne_nil hne
      exact ⟨c, tl, rfl, .inl (halpha c (by simp))⟩
  | quoted name _ => exact ⟨'<', _, rfl, .inr rfl⟩

/-- What a name does not start with. -/
theorem NameText.avoids (n : NameText) {u : List Char} {p : Char → Bool}
    (hp : ∀ c, c.isAlpha → p c = false) (hlt : p '<' = false) : Avoids p (n.text ++ u) := by
  obtain ⟨c, tl, hc, h | rfl⟩ := n.cons
  · simpa [hc] using hp c h
  · simpa [hc] using hlt

theorem NameText.skip_colon (n : NameText) (u : List Char) : skipChar ':' (n.text ++ u) = none :=
  skipChar_eq_none (n.avoids (fun c hc => by simpa using isAlpha_ne hc (by decide)) (by decide))

theorem OffsetText.cons (o : OffsetText) : ∃ c tl, o.text = c :: tl ∧ (c.isDigit ∨ c = '+' ∨ c = '-') := by
  cases o with
  | plain t =>
      obtain ⟨c, tl, hc, hd⟩ := t.cons
      exact ⟨c, tl, hc, .inl hd⟩
  | plus t => exact ⟨'+', t.text, rfl, by simp⟩
  | minus t => exact ⟨'-', t.text, rfl, by simp⟩

theorem OffsetText.name_ends (o : OffsetText) (u : List Char) : Avoids (! nameEnds false ·) (o.text ++ u) := by
  obtain ⟨c, tl, hc, h⟩ := o.cons
  simp only [hc, List.cons_append, avoids_cons, nameEnds]
  obtain h | rfl | rfl := h
  · simp [h]
  · decide
  · decide

theorem OffsetText.skip_comma (o : OffsetText) (u : List Char) : skipChar ',' (o.text ++ u) = none := by
  obtain ⟨c, tl, hc, h⟩ := o.cons
  have : c ≠ ',' := by
    obtain h | rfl | rfl := h
    · exact isDigit_ne h (by decide)
    · decide
    · decide
  simp [hc, this]

/-- The adjustment to a daylight offset. -/
def DaylightText.adjust (d : DaylightText) (timezone : ℤ) : ℤ :=
  match d.offset with
  | none => 3600
  | some offset => timezone - offset.val

/-- The rule structures, behind an offset and without times. -/
theorem parseDaylight_rules (intBits : ℕ) (z : Zone) (name : NameText) (offset : OffsetText) (start stop : RuleText)
    (hstart : start.time = none) :
    let r := parseDaylight intBits z (DaylightText.text ⟨name, some offset, some (start, stop)⟩)
    r.1.dstAdjust = toInt intBits (z.timezone - offset.val) ∧
      r.1.startDst = (parseRule (start.text ++ ',' :: stop.text) z.startDst).1 ∧
      r.1.endDst = fixRule (parseRule stop.text z.endDst).1 (toInt intBits (z.timezone - offset.val)) ∧
      r.2 = (parseRule stop.text z.endDst).2 := by
  have hname := parseName_text name (offset.name_ends (',' :: (start.text ++ ',' :: stop.text)))
  have hoffset := parseOffset_text (u := ',' :: (start.text ++ ',' :: stop.text)) offset (by simp [timeGoesOn])
  have hskip := offset.skip_comma (',' :: (start.text ++ ',' :: stop.text))
  have hs := (parseRule_text (u := ',' :: stop.text) start z.startDst hstart (by simp [dateGoesOn])).2
  simp [parseDaylight, DaylightText.text, hname, hskip, hoffset, hs]

/-- A daylight name with what follows it. -/
theorem parseDaylight_iff (intBits : ℕ) (z : Zone) (d : DaylightText) :
    ((parseDaylight intBits z d.text).2 = [] ∧ (parseDaylight intBits z d.text).1.dstAdjust = d.adjust z.timezone ∧
        RulesAre (parseDaylight intBits z d.text).1 (d.adjust z.timezone) d.rules) ↔
      toInt intBits (d.adjust z.timezone) = d.adjust z.timezone ∧
        match d.rules with
        | none => RulesAre z (d.adjust z.timezone) none
        | some (start, stop) => d.offset.isSome ∧ start.time = none ∧ stop.time = none := by
  obtain ⟨name, offset, rules⟩ := d
  match offset, rules with
  | none, none =>
      have hname : (parseName name.text).2 = [] := by simpa using parseName_text (u := []) name (by simp)
      simp [parseDaylight, DaylightText.text, DaylightText.adjust, hname, parseOffset, parseSign, RulesAre]
  | none, some (start, stop) =>
      have hname := parseName_text (u := ',' :: (start.text ++ ',' :: stop.text)) name (by simp [nameEnds])
      have hne : start.text ++ ',' :: stop.text ≠ [] := by simp
      simp [parseDaylight, DaylightText.text, hname, parseOS2_text, hne]
  | some offset, none =>
      have hname := parseName_text name (offset.name_ends [])
      have hoffset := parseOffset_text (u := []) offset (by simp)
      have hskip := offset.skip_comma []
      simp only [List.append_nil] at hname hoffset hskip
      simp [parseDaylight, DaylightText.text, DaylightText.adjust, hname, hskip, hoffset, RulesAre]
  | some offset, some (start, stop) =>
      cases hstart : start.time with
      | some t =>
          have hname := parseName_text name (offset.name_ends (',' :: (start.text ++ ',' :: stop.text)))
          have hoffset := parseOffset_text (u := ',' :: (start.text ++ ',' :: stop.text)) offset (by simp [timeGoesOn])
          have hskip := offset.skip_comma (',' :: (start.text ++ ',' :: stop.text))
          have hs := parseRule_slash (u := ',' :: stop.text) start z.startDst hstart
          simp [parseDaylight, DaylightText.text, hname, hskip, hoffset, hs, hstart]
      | none =>
          obtain ⟨hadjust, hs, he, hrest⟩ := parseDaylight_rules intBits z name offset start stop hstart
          cases hstop : stop.time with
          | some t =>
              have hs2 := parseRule_slash (u := []) stop z.endDst hstop
              rw [List.append_nil] at hs2
              simp [hrest, hs2, hstop]
          | none =>
              have hr1 := (parseRule_text (u := ',' :: stop.text) start z.startDst hstart (by simp [dateGoesOn])).1
              obtain ⟨hr2, hs2⟩ := parseRule_text (u := []) stop z.endDst hstop (by simp)
              rw [List.append_nil] at hr2 hs2
              simp only [DaylightText.adjust, hadjust, hs, he, hrest, hs2, RulesAre, hstart, hstop, Option.isSome_some,
                true_and, and_true]
              constructor
              · exact fun h => h.1
              · intro h
                refine ⟨h, hr1, ?_⟩
                rw [h]
                exact fixRule_is hr2 _

theorem parseDaylight_kept (intBits : ℕ) (z : Zone) (tz : List Char) :
    (parseDaylight intBits z tz).1.timezone = z.timezone ∧ (parseDaylight intBits z tz).1.daylight = true := by
  unfold parseDaylight
  simp only
  split
  · split <;> exact ⟨rfl, rfl⟩
  · split
    · exact ⟨rfl, rfl⟩
    · split <;> exact ⟨rfl, rfl⟩

/-- The daylight name and what follows it are parsed with the offset of standard time. -/
theorem parseTz_dst (intBits : ℕ) (z : Zone) (name : NameText) (offset : OffsetText) (d : DaylightText) :
    ∃ z' : Zone, parseTz intBits z (TzText.text ⟨name, offset, some d⟩) = parseDaylight intBits z' d.text ∧
      z'.timezone = offset.val ∧ z'.startDst = z.startDst ∧ z'.endDst = z.endDst := by
  have hcolon := name.skip_colon (offset.text ++ d.text)
  have hgoes : Avoids timeGoesOn d.text :=
    d.name.avoids (fun c hc => by
      simpa [timeGoesOn, isAlpha_not_isDigit hc] using isAlpha_ne hc (by decide)) (by decide)
  have hname := parseName_text name (offset.name_ends d.text)
  have hoffset := parseOffset_text offset hgoes z.timezone
  have hne : d.text ≠ [] := by
    obtain ⟨c, tl, hc, -⟩ := d.name.cons
    simp [DaylightText.text, hc]
  exact ⟨{ z with
    daylight := false
    stzone := (parseName (name.text ++ (offset.text ++ d.text))).1
    timezone := offset.val }, by simp [parseTz, TzText.text, hcolon, hname, hoffset, hne], rfl, rfl, rfl⟩

/-- A string denotes what the variables hold after it exactly when it is one of those that are understood. -/
theorem parseTz_denotes_iff (intBits : ℕ) (z : Zone) (t : TzText) :
    Denotes t (parseTz intBits z t.text) ↔ Understood intBits z t := by
  obtain ⟨name, offset, dst⟩ := t
  cases dst with
  | none =>
      have hname := parseName_text name (offset.name_ends [])
      have hoffset := parseOffset_text (u := []) offset (by simp) z.timezone
      have hc := name.skip_colon offset.text
      simp only [List.append_nil] at hname hoffset
      simp [Denotes, Understood, parseTz, TzText.text, hc, hname, hoffset]
  | some d =>
      obtain ⟨z', hz', htimezone, hstart, hend⟩ := parseTz_dst intBits z name offset d
      obtain ⟨htz, hday⟩ := parseDaylight_kept intBits z' d.text
      have hiff := parseDaylight_iff intBits z' d
      rw [htimezone] at hiff htz
      have hrules : RulesAre z' (d.adjust offset.val) none ↔ RulesAre z (d.adjust offset.val) none := by
        simp only [RulesAre, hstart, hend]
      have hadjust : TzText.adjust ⟨name, offset, some d⟩ d = d.adjust offset.val := rfl
      simp only [hrules] at hiff
      simp only [Denotes, Understood, hz', htz, hday, Option.isSome_some, Option.some.injEq, forall_eq', hadjust,
        true_and]
      exact hiff

/-- The variables at first. -/
def initialZone : Zone where
  timezone := 18000
  daylight := true
  dstAdjust := 3600
  startDst := ⟨0, 0, 2, 1, 3, 0, 0, 0, 0⟩
  endDst := ⟨0, 0, 1, 5, 9, 0, 0, 0, 0⟩
  stzone := "EST".toList
  dtzone := "EDT".toList

/-- A number of one digit. -/
def digit (d : ℕ) (h : d < 10) : Numeral := ⟨[d], by simp, by simpa [Digits] using h⟩

/-- `EST5EDT4,M3.2.0/2,M9.1.0/2`. -/
def easternTime : TzText where
  name := .plain "EST".toList (by decide) (List.all_eq_true.1 (by decide))
  offset := .plain (.h (digit 5 (by decide)))
  dst := some {
    name := .plain "EDT".toList (by decide) (List.all_eq_true.1 (by decide))
    offset := some (.plain (.h (digit 4 (by decide))))
    rules := some (
      ⟨.m (digit 3 (by decide)) (digit 2 (by decide)) (digit 0 (by decide)), some (.h (digit 2 (by decide)))⟩,
      ⟨.m (digit 9 (by decide)) (digit 1 (by decide)) (digit 0 (by decide)), some (.h (digit 2 (by decide)))⟩) }

/-- The parser stops at the first slash. -/
theorem not_parseTz_denotes :
    easternTime.text = "EST5EDT4,M3.2.0/2,M9.1.0/2".toList ∧
      ¬ Denotes easternTime (parseTz 32 initialZone easternTime.text) :=
  ⟨by decide, fun h => absurd h.1 (by decide)⟩

end Strings

end OpenWatcom.Clib.TzSet
