import Aeh.Py.Text

/-!
# Datetime — Python's `datetime`, `isoformat` and `fromisoformat`

A `Datetime` carries the ranges its constructor checks.  `fromisoformat` is the parser of Python 3.12:
calendar and week dates in extended and basic form, any separator character, `HH[:MM[:SS[.f…]]]` and an
offset.  `none` is its `ValueError`.
-/

namespace Aeh

/-- `datetime` without `fold`; `offset` is the `utcoffset` in microseconds, `none` for a naive value. -/
structure Datetime where
  year : ℕ
  month : ℕ
  day : ℕ
  hour : ℕ
  minute : ℕ
  second : ℕ
  microsecond : ℕ
  offset : Option ℤ
deriving DecidableEq

namespace Datetime

def isLeap (year : ℕ) : Bool := year % 4 = 0 && (year % 100 ≠ 0 || year % 400 = 0)

def daysInMonth (year month : ℕ) : ℕ :=
  match month with
  | 2 => if isLeap year then 29 else 28
  | 4 | 6 | 9 | 11 => 30
  | _ => 31

/-- The ranges the `datetime` constructor checks. -/
def Valid (d : Datetime) : Prop :=
  (1 ≤ d.year ∧ d.year ≤ 9999) ∧ (1 ≤ d.month ∧ d.month ≤ 12) ∧
  (1 ≤ d.day ∧ d.day ≤ daysInMonth d.year d.month) ∧ d.hour < 24 ∧ d.minute < 60 ∧ d.second < 60 ∧
  d.microsecond < 1000000 ∧ ∀ o ∈ d.offset, -86400000000 < o ∧ o < 86400000000

instance (d : Datetime) : Decidable d.Valid := by
  unfold Valid
  have : Decidable (∀ o ∈ d.offset, -86400000000 < o ∧ o < 86400000000) :=
    match d.offset with
    | none => isTrue (by simp)
    | some o => decidable_of_iff (-86400000000 < o ∧ o < 86400000000) (by simp)
  infer_instance

/-! ## Instants -/

/-- `_days_before_year`. -/
def daysBeforeYear (year : ℕ) : ℕ :=
  let y := year - 1
  365 * y + y / 4 - y / 100 + y / 400

/-- `_days_before_month`. -/
def daysBeforeMonth (year month : ℕ) : ℕ :=
  ((List.range (month - 1)).map fun m => daysInMonth year (m + 1)).sum

/-- Microseconds since midnight. -/
def timeOfDay (d : Datetime) : ℕ := ((d.hour * 60 + d.minute) * 60 + d.second) * 1000000 + d.microsecond

/-- The microseconds of a day. -/
def dayLength : ℕ := 86400000000

/-- The instant a value denotes, in microseconds; a naive value is read as UTC. -/
def instant (d : Datetime) : ℤ :=
  ((daysBeforeYear d.year + daysBeforeMonth d.year d.month + d.day) * dayLength + d.timeOfDay : ℕ) -
    d.offset.getD 0

/-- The day after; `none` after 9999-12-31. -/
def nextDay (d : Datetime) : Option Datetime :=
  if d.day < daysInMonth d.year d.month then some { d with day := d.day + 1 }
  else if d.month < 12 then some { d with month := d.month + 1, day := 1 }
  else if d.year < 9999 then some { d with year := d.year + 1, month := 1, day := 1 }
  else none

/-- The day before; `none` before 0001-01-01. -/
def prevDay (d : Datetime) : Option Datetime :=
  if 1 < d.day then some { d with day := d.day - 1 }
  else if 1 < d.month then some { d with month := d.month - 1, day := daysInMonth d.year (d.month - 1) }
  else if 1 < d.year then some { d with year := d.year - 1, month := 12, day := 31 }
  else none

/-- The same day at `t` microseconds after midnight, in UTC. -/
def atTime (d : Datetime) (t : ℕ) : Datetime :=
  { d with hour := t / 3600000000, minute := t / 60000000 % 60, second := t / 1000000 % 60,
           microsecond := t % 1000000, offset := some 0 }

/-- `UtcDateTime.process_bind_param`: a naive value is taken as UTC, any other goes through
`astimezone(UTC)`, whose `OverflowError` is `none`. -/
def toUtc (d : Datetime) : Option Datetime :=
  let t : ℤ := d.timeOfDay - d.offset.getD 0
  if t < 0 then d.prevDay.map fun d' => d'.atTime (t + dayLength).toNat
  else if (dayLength : ℤ) ≤ t then d.nextDay.map fun d' => d'.atTime (t - dayLength).toNat
  else some (d.atTime t.toNat)

/-! ## Rendering -/

/-- The digit character of `n % 10`. -/
def digit (n : ℕ) : CodePoint := ⟨0x30 + n % 10, by omega⟩

/-- `f"{n:0wd}"` of an `n` below `10 ^ w`. -/
def pad : ℕ → ℕ → PyStr
  | 0, _ => []
  | w + 1, n => pad w (n / 10) ++ [digit n]

/-- `+HH:MM[:SS[.ffffff]]`. -/
def formatOffset (o : ℤ) : PyStr :=
  let a := o.natAbs
  let seconds := a / 1000000
  (if o < 0 then lit "-" else lit "+") ++ pad 2 (seconds / 3600) ++ lit ":" ++ pad 2 (seconds / 60 % 60) ++
    (if seconds % 60 = 0 ∧ a % 1000000 = 0 then [] else lit ":" ++ pad 2 (seconds % 60)) ++
    (if a % 1000000 = 0 then [] else lit "." ++ pad 6 (a % 1000000))

/-- `isoformat()`. -/
def isoformat (d : Datetime) : PyStr :=
  pad 4 d.year ++ lit "-" ++ pad 2 d.month ++ lit "-" ++ pad 2 d.day ++ lit "T" ++
    pad 2 d.hour ++ lit ":" ++ pad 2 d.minute ++ lit ":" ++ pad 2 d.second ++
    (if d.microsecond = 0 then [] else lit "." ++ pad 6 d.microsecond) ++
    (match d.offset with
      | none => []
      | some o => formatOffset o)

/-! ## Parsing -/

/-- `int` of a run of ASCII digits. -/
def parseDigits (s : PyStr) : Option ℕ :=
  if s ≠ [] ∧ s.all isDigit then some (s.foldl (fun n c => 10 * n + (c.val - 0x30)) 0) else none

/-- The part `[i : j]` of a string. -/
def slice (s : PyStr) (i j : ℕ) : PyStr := (s.drop i).take (j - i)

/-- `s[i] == c`, `false` past the end. -/
def isAt (s : PyStr) (i : ℕ) (c : Char) : Bool := s[i]? = some (cp c)

/-- Exactly `k` digits at `i`. -/
def digitsAt (s : PyStr) (i k : ℕ) : Option ℕ :=
  if (slice s i (i + k)).length = k then parseDigits (slice s i (i + k)) else none

/-- `_find_isoformat_datetime_separator`. -/
def findSeparator (s : PyStr) : ℕ :=
  if s.length = 7 then 7
  else if isAt s 4 '-' then
    if isAt s 5 'W' then
      if isAt s 8 '-' then
        if (s[10]?.map isDigit).getD false then 8 else 10
      else 8
    else 10
  else if isAt s 4 'W' then
    let pos := 7 + ((s.drop 7).takeWhile isDigit).length
    if pos < 9 then pos else if pos % 2 = 0 then 7 else 8
  else 8

/-- The weekday of 1 January, Monday being 0. -/
def firstWeekday (year : ℕ) : ℕ :=
  let y := year - 1
  (365 * y + y / 4 - y / 100 + y / 400) % 7

/-- Day `n` (from 0) of the year, walking over the months from `month`. -/
def dayOfYear (year : ℕ) : List ℕ → ℕ → ℕ × ℕ × ℕ
  | [], n => (year + 1, 1, n + 1)
  | month :: rest, n =>
    if n < daysInMonth year month then (year, month, n + 1)
    else dayOfYear year rest (n - daysInMonth year month)

/-- `_isoweek_to_gregorian`. -/
def ofIsoWeek (year week day : ℕ) : Option (ℕ × ℕ × ℕ) :=
  let first := firstWeekday year
  let long := first = 3 ∨ (first = 2 ∧ isLeap year)
  if year < 1 ∨ 9999 < year ∨ week < 1 ∨ 53 < week ∨ (week = 53 ∧ ¬ long) ∨ day < 1 ∨ 7 < day then none
  else
    -- days from 1 January to the day, and how far Monday of week 1 lies before or after 1 January
    let n := (week - 1) * 7 + (day - 1)
    if first ≤ 3 then
      if n < first then some (year - 1, 12, 31 - (first - 1 - n))
      else some (dayOfYear year [1, 2, 3, 4, 5, 6, 7, 8, 9, 10, 11, 12] (n - first))
    else some (dayOfYear year [1, 2, 3, 4, 5, 6, 7, 8, 9, 10, 11, 12] (n + (7 - first)))

/-- `_parse_isoformat_date` of a string of length 7, 8 or 10. -/
def parseDate (s : PyStr) : Option (ℕ × ℕ × ℕ) := do
  let year ← digitsAt s 0 4
  let sep := isAt s 4 '-'
  let pos := if sep then 5 else 4
  if isAt s pos 'W' then
    let week ← digitsAt s (pos + 1) 2
    if s.length > pos + 3 then
      if isAt s (pos + 3) '-' ≠ sep then none
      else
        let at' := if sep then pos + 4 else pos + 3
        let day ← digitsAt s at' 1
        if s.length = at' + 1 then ofIsoWeek year week day else none
    else ofIsoWeek year week 1
  else
    let month ← digitsAt s pos 2
    if isAt s (pos + 2) '-' ≠ sep then none
    else
      let at' := if sep then pos + 3 else pos + 2
      let day ← digitsAt s at' 2
      if s.length = at' + 2 then some (year, month, day) else none

/-- The fraction after `.` or `,`: six digits count, the others must be digits. -/
def parseFraction (s : PyStr) : Option ℕ :=
  if s.all isDigit ∧ s ≠ [] then do
    let n ← parseDigits (s.take 6)
    some (n * 10 ^ (6 - min 6 s.length))
  else none

/-- What follows the components of a time: nothing or a fraction. -/
def parseRest (s : PyStr) : Option ℕ :=
  match s with
  | [] => some 0
  | c :: s => if c = cp '.' ∨ c = cp ',' then parseFraction s else none

/-- `_parse_hh_mm_ss_ff`: `HH[:?MM[:?SS[{.,}f…]]]`, in hours, minutes, seconds and microseconds. -/
def parseClock (s : PyStr) : Option (ℕ × ℕ × ℕ × ℕ) := do
  let hh ← digitsAt s 0 2
  if s.length = 2 then some (hh, 0, 0, 0)
  else
    let sep := isAt s 2 ':'
    let p := if sep then 3 else 2
    let mm ← digitsAt s p 2
    if s.length = p + 2 then some (hh, mm, 0, 0)
    else if sep ∧ ¬ isAt s (p + 2) ':' then none
    else
      let q := if sep then p + 3 else p + 2
      let ss ← digitsAt s q 2
      let us ← parseRest (s.drop (q + 2))
      some (hh, mm, ss, us)

/-- The position of the offset: the first `-`, else the first `+`, else the first `Z`. -/
def offsetStart (s : PyStr) : Option ℕ :=
  (s.findIdx? (· = cp '-')).or ((s.findIdx? (· = cp '+')).or (s.findIdx? (· = cp 'Z')))

/-- `_parse_isoformat_time`. -/
def parseTime (s : PyStr) : Option ((ℕ × ℕ × ℕ × ℕ) × Option ℤ) :=
  match offsetStart s with
  | none => do
    let t ← parseClock s
    some (t, none)
  | some i => do
    let t ← parseClock (s.take i)
    let tz := s.drop (i + 1)
    if isAt s i 'Z' then
      if tz = [] then some (t, some 0) else none
    else if tz.length = 0 ∨ tz.length = 1 ∨ tz.length = 3 then none
    else
      let (h, m, sec, us) ← parseClock tz
      let o : ℤ := ((h * 3600 + m * 60 + sec) * 1000000 + us : ℕ)
      some (t, some (if isAt s i '-' then -o else o))

/-- `datetime.fromisoformat`. -/
def fromisoformat (s : PyStr) : Option Datetime :=
  if s.length < 7 then none
  else do
    let sep := findSeparator s
    let (year, month, day) ← parseDate (s.take sep)
    let rest := s.drop (sep + 1)
    let ((hour, minute, second, us), offset) ←
      if rest = [] then some ((0, 0, 0, 0), none) else parseTime rest
    let d : Datetime := ⟨year, month, day, hour, minute, second, us, offset⟩
    if d.Valid then some d else none

example : fromisoformat (lit "2026-09-24T12:00:00Z") = some ⟨2026, 9, 24, 12, 0, 0, 0, some 0⟩ := by decide
example : fromisoformat (lit "2020-W01-1 10:05:06,25-01:30") =
    some ⟨2019, 12, 30, 10, 5, 6, 250000, some (-5400000000)⟩ := by decide

end Datetime

end Aeh
