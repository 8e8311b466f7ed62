import Mathlib.Algebra.Order.Field.Basic
import Mathlib.Algebra.Order.Field.Rat
import Mathlib.Data.Rat.Cast.Order
import Mathlib.Tactic.FieldSimp
import Mathlib.Tactic.Linarith
import Mathlib.Tactic.Positivity
import Aeh.Py.Calendar

/-!
# Rfc3339 — date and time as RFC 3339 writes them, and what `fromisoformat` makes of it

A text may have a second 60, any number of digits behind the point, and small letters `t` and `z`.
`fromisoformat` reads it unless it has a small `z` or a second 60, and keeps six digits of the fraction.
-/

namespace Aeh

/-- How RFC 3339 writes an offset: `Z`, `z` or `±hh:mm`. -/
inductive Rfc3339.Zone where
  | zulu (lower : Bool)
  | offset (west : Bool) (hour : Fin 24) (minute : Fin 60)
deriving DecidableEq

/-- An RFC 3339 date and time, by its parts. -/
structure Rfc3339 where
  year : ℕ
  month : ℕ
  day : ℕ
  hour : ℕ
  minute : ℕ
  second : ℕ
  /-- The digits behind the point; without any there is no point. -/
  fraction : PyStr
  zone : Rfc3339.Zone
  /-- `t` in place of `T`. -/
  lowerT : Bool
  date : (1 ≤ year ∧ year ≤ 9999) ∧ (1 ≤ month ∧ month ≤ 12) ∧ 1 ≤ day ∧ day ≤ Datetime.daysInMonth year month
  time : hour < 24 ∧ minute < 60 ∧ second ≤ 60
  digits : fraction.all isDigit = true

namespace Rfc3339

open Datetime

/-- The number some digits write. -/
def value (ds : PyStr) : ℕ := ds.foldl (fun n c => 10 * n + (c.val - 0x30)) 0

namespace Zone

def text : Zone → PyStr
  | zulu lower => [cp (if lower then 'z' else 'Z')]
  | offset west hour minute => cp (if west then '-' else '+') :: (pad 2 hour ++ (cp ':' :: (pad 2 minute ++ [])))

/-- The offset in microseconds. -/
def micros : Zone → ℤ
  | zulu _ => 0
  | offset west hour minute => (if west then -1 else 1 : ℤ) * ((hour * 3600 + minute * 60) * 1000000 : ℕ)

end Zone

variable (r : Rfc3339)

/-- `.` and the digits, if there are any. -/
def fractionPart : PyStr := if r.fraction = [] then [] else cp '.' :: r.fraction

/-- The text. -/
def text : PyStr :=
  pad 4 r.year ++ lit "-" ++ pad 2 r.month ++ lit "-" ++ pad 2 r.day ++ [cp (if r.lowerT then 't' else 'T')] ++
    pad 2 r.hour ++ lit ":" ++ pad 2 r.minute ++ lit ":" ++ pad 2 r.second ++ r.fractionPart ++ r.zone.text

/-- The instant the text denotes, in microseconds; its fraction may be finer than one. -/
def instant : ℚ :=
  ((daysBeforeYear r.year + daysBeforeMonth r.year r.month + r.day) * dayLength +
      ((r.hour * 60 + r.minute) * 60 + r.second) * 1000000 : ℕ) +
    (value r.fraction : ℚ) * 1000000 / 10 ^ r.fraction.length - r.zone.micros

/-- The microseconds of the first six digits. -/
def microsecond : ℕ := value (r.fraction.take 6) * 10 ^ (6 - min 6 r.fraction.length)

/-- The parts `fromisoformat` finds. -/
def toDatetime : Datetime :=
  ⟨r.year, r.month, r.day, r.hour, r.minute, r.second, r.microsecond, some r.zone.micros⟩

/-- `fromisoformat` and the column take the text: there is no small `z` and no second 60, and the instant lies within
the years of UTC values. -/
structure Readable : Prop where
  zone : r.zone ≠ .zulu true
  second : r.second < 60
  first : (minUtc.instant : ℚ) ≤ r.instant
  last : r.instant < maxUtc.instant + 1

/-- Behind the sixth digit of the fraction there are only zeros. -/
def Exact : Prop := ∀ c ∈ r.fraction.drop 6, c = cp '0'

/-! ## Digits -/

theorem foldl_value (ds : PyStr) (acc : ℕ) :
    ds.foldl (fun n c => 10 * n + (c.val - 0x30)) acc = acc * 10 ^ ds.length + value ds := by
  induction ds generalizing acc with
  | nil => simp [value]
  | cons c ds ih =>
    unfold value
    rw [List.foldl_cons, List.foldl_cons, ih, ih (10 * 0 + _), List.length_cons, pow_succ]
    ring

theorem value_cons (c : CodePoint) (ds : PyStr) : value (c :: ds) = (c.val - 0x30) * 10 ^ ds.length + value ds := by
  rw [value, List.foldl_cons, foldl_value, Nat.mul_zero, Nat.zero_add]

theorem value_append (ds es : PyStr) : value (ds ++ es) = value ds * 10 ^ es.length + value es := by
  rw [value, List.foldl_append, foldl_value]
  rfl

theorem isDigit_range {c : CodePoint} (h : isDigit c = true) : 0x30 ≤ c.val ∧ c.val ≤ 0x39 := by
  rw [isDigit, Bool.and_eq_true, decide_eq_true_eq, decide_eq_true_eq] at h
  exact h

theorem value_lt {ds : PyStr} (h : ds.all isDigit = true) : value ds < 10 ^ ds.length := by
  induction ds with
  | nil => simp [value]
  | cons c ds ih =>
    rw [List.all_cons, Bool.and_eq_true] at h
    have hc := isDigit_range h.1
    have hv : (c.val - 0x30) * 10 ^ ds.length ≤ 9 * 10 ^ ds.length := Nat.mul_le_mul_right _ (by omega)
    have := ih h.2
    rw [value_cons, List.length_cons, pow_succ]
    omega

/-- Digits write zero iff all of them are. -/
theorem value_eq_zero {ds : PyStr} (h : ds.all isDigit = true) : value ds = 0 ↔ ∀ c ∈ ds, c = cp '0' := by
  induction ds with
  | nil => simp [value]
  | cons c ds ih =>
    rw [List.all_cons, Bool.and_eq_true] at h
    have hc := isDigit_range h.1
    have hz : c.val - 0x30 = 0 ↔ c = cp '0' := by
      rw [Fin.ext_iff]
      show _ ↔ c.val = 0x30
      omega
    rw [value_cons, Nat.add_eq_zero_iff, ih h.2, Nat.mul_eq_zero, or_iff_left (by positivity), hz, List.forall_mem_cons]

theorem parseDigits_value {ds : PyStr} (h : ds.all isDigit = true) (hne : ds ≠ []) : parseDigits ds = some (value ds) :=
  if_pos ⟨hne, h⟩

variable {r}

theorem all_take (n : ℕ) : (r.fraction.take n).all isDigit = true :=
  List.all_eq_true.mpr fun c hc => List.all_eq_true.mp r.digits c (List.mem_of_mem_take hc)

theorem all_drop (n : ℕ) : (r.fraction.drop n).all isDigit = true :=
  List.all_eq_true.mpr fun c hc => List.all_eq_true.mp r.digits c (List.mem_of_mem_drop hc)

theorem microsecond_lt : r.microsecond < 1000000 := by
  have hv := value_lt (r.all_take 6)
  rw [List.length_take] at hv
  unfold microsecond
  calc value (r.fraction.take 6) * 10 ^ (6 - min 6 r.fraction.length)
      < 10 ^ min 6 r.fraction.length * 10 ^ (6 - min 6 r.fraction.length) :=
        Nat.mul_lt_mul_of_pos_right hv (by positivity)
    _ = 1000000 := by rw [← pow_add, Nat.add_sub_cancel' (min_le_left _ _)]; rfl

/-- What the fraction adds to the microseconds. -/
theorem fraction_eq : (value r.fraction : ℚ) * 1000000 / 10 ^ r.fraction.length =
    r.microsecond + (value (r.fraction.drop 6) : ℚ) / 10 ^ (r.fraction.drop 6).length := by
  by_cases hl : r.fraction.length ≤ 6
  · have hd : r.fraction.drop 6 = [] := List.drop_eq_nil_of_le hl
    have hp : (1000000 : ℚ) = 10 ^ r.fraction.length * 10 ^ (6 - r.fraction.length) := by
      rw [← pow_add, Nat.add_sub_cancel' hl]
      norm_num
    unfold microsecond
    rw [List.take_of_length_le hl, min_eq_right hl, hd, hp]
    push_cast
    have h10 : (10 : ℚ) ^ r.fraction.length ≠ 0 := by positivity
    field_simp
    simp [value]
  · have hlen : r.fraction.length = 6 + (r.fraction.drop 6).length := by rw [List.length_drop]; omega
    have hv : value r.fraction = value (r.fraction.take 6) * 10 ^ (r.fraction.drop 6).length +
        value (r.fraction.drop 6) := by rw [← value_append, List.take_append_drop]
    unfold microsecond
    rw [hv, min_eq_left (by omega), hlen, pow_add]
    push_cast
    have h10 : (10 : ℚ) ^ (r.fraction.drop 6).length ≠ 0 := by positivity
    field_simp
    ring

/-! ## Instants -/

/-- What six digits leave out is less than a microsecond. -/
theorem rest_bounds : 0 ≤ (value (r.fraction.drop 6) : ℚ) / 10 ^ (r.fraction.drop 6).length ∧
    (value (r.fraction.drop 6) : ℚ) / 10 ^ (r.fraction.drop 6).length < 1 := by
  have hlt : (value (r.fraction.drop 6) : ℚ) < 10 ^ (r.fraction.drop 6).length := by
    exact_mod_cast value_lt (r.all_drop 6)
  exact ⟨by positivity, (div_lt_one (by positivity)).mpr hlt⟩

theorem instant_eq_add : r.instant =
    r.toDatetime.instant + (value (r.fraction.drop 6) : ℚ) / 10 ^ (r.fraction.drop 6).length := by
  unfold instant Datetime.instant timeOfDay toDatetime
  rw [fraction_eq, Option.getD_some]
  push_cast
  ring

/-- **The datetime denotes the instant of the text iff the further digits are zeros.** -/
theorem instant_toDatetime : (r.toDatetime.instant : ℚ) = r.instant ↔ r.Exact := by
  rw [instant_eq_add, left_eq_add, div_eq_zero_iff, or_iff_left (by positivity), Nat.cast_eq_zero,
    value_eq_zero (r.all_drop 6)]
  rfl

/-- The microseconds are within the bounds iff the instant is. -/
theorem instant_bounds : (minUtc.instant ≤ r.toDatetime.instant ∧ r.toDatetime.instant ≤ maxUtc.instant) ↔
    (minUtc.instant : ℚ) ≤ r.instant ∧ r.instant < maxUtc.instant + 1 := by
  obtain ⟨h0, h1⟩ := r.rest_bounds
  rw [instant_eq_add]
  generalize (value (r.fraction.drop 6) : ℚ) / 10 ^ (r.fraction.drop 6).length = x at h0 h1
  constructor
  · rintro ⟨ha, hb⟩
    have ha' : (minUtc.instant : ℚ) ≤ r.toDatetime.instant := by exact_mod_cast ha
    have hb' : (r.toDatetime.instant : ℚ) ≤ maxUtc.instant := by exact_mod_cast hb
    exact ⟨by linarith, by linarith⟩
  · rintro ⟨ha, hb⟩
    have ha' : (minUtc.instant : ℚ) < r.toDatetime.instant + 1 := by linarith
    have hb' : (r.toDatetime.instant : ℚ) < maxUtc.instant + 1 := by linarith
    have ha'' : minUtc.instant < r.toDatetime.instant + 1 := by exact_mod_cast ha'
    have hb'' : r.toDatetime.instant < maxUtc.instant + 1 := by exact_mod_cast hb'
    omega

/-! ## The parser -/

theorem toDatetime_valid (hs : r.second < 60) : r.toDatetime.Valid := by
  obtain ⟨hy, hm, hd⟩ := r.date
  obtain ⟨hh, hmi, -⟩ := r.time
  refine ⟨hy, hm, hd, hh, hmi, hs, r.microsecond_lt, fun o ho => ?_⟩
  obtain rfl : r.zone.micros = o := by simpa [toDatetime] using ho
  unfold Zone.micros
  split
  · omega
  · rename_i west h m hz
    have hh := h.isLt
    have hm := m.isLt
    cases west <;> simp only [Bool.false_eq_true, if_true, if_false] <;> push_cast <;> omega

theorem text_eq : r.text = r.toDatetime.dateText ++ cp (if r.lowerT then 't' else 'T') ::
    (r.toDatetime.clockText ++ (r.fractionPart ++ r.zone.text)) := by
  simp [text, dateText, clockText, toDatetime, lit]

theorem parseRest_fractionPart : parseRest r.fractionPart = some r.microsecond := by
  unfold fractionPart microsecond
  split_ifs with h
  · rw [h]
    rfl
  · have hne : r.fraction.take 6 ≠ [] := by simpa using h
    rw [parseRest_digits r.digits h, parseDigits_value (r.all_take 6) hne]
    rfl

theorem not_mem_digits {c : CodePoint} (hc : isDigit c = false) : c ∉ r.fraction := by
  intro h
  rw [List.all_eq_true.mp r.digits c h] at hc
  cases hc

/-- No mark of an offset before the zone. -/
theorem not_mem_time {c : Char} (hc : c ∈ offsetMarks) : cp c ∉ r.toDatetime.clockText ++ r.fractionPart := by
  obtain ⟨hd, -, hdot, -⟩ := offsetMark_apart hc
  intro h
  rcases List.mem_append.mp h with h | h
  · exact not_mem_clockText hc h
  · unfold fractionPart at h
    split_ifs at h
    · cases h
    · rcases List.mem_cons.mp h with h | h
      · exact hdot h
      · exact r.not_mem_digits hd h

theorem parseClock_time : parseClock (r.toDatetime.clockText ++ r.fractionPart) =
    some (r.hour, r.minute, r.second, r.microsecond) := by
  obtain ⟨hh, hmi, hs⟩ := r.time
  rw [parseClock_clockText (d := r.toDatetime) (by simp only [toDatetime]; omega) (by simp only [toDatetime]; omega)
    (by simp only [toDatetime]; omega), parseRest_fractionPart]
  rfl

theorem parseTime_text (hz : r.zone ≠ .zulu true) :
    parseTime (r.toDatetime.clockText ++ (r.fractionPart ++ r.zone.text)) =
      some ((r.hour, r.minute, r.second, r.microsecond), some r.zone.micros) := by
  rw [← List.append_assoc]
  cases hzone : r.zone with
  | zulu lower =>
    cases lower with
    | true => exact absurd hzone hz
    | false =>
      show parseTime (_ ++ [cp 'Z']) = _
      rw [parseTime_zulu fun c hc => r.not_mem_time hc, parseClock_time]
      rfl
  | offset west h m =>
    have hh := h.isLt
    have hm := m.isLt
    show parseTime (_ ++ cp (if west then '-' else '+') :: (pad 2 h ++ (cp ':' :: (pad 2 m ++ [])))) = _
    rw [parseTime_offset (fun c hc => r.not_mem_time hc) west (by omega) (by omega), parseClock_time]
    rfl

/-- A small `z` is no part of a fraction. -/
theorem parseRest_lowerZ : parseRest (r.fractionPart ++ [cp 'z']) = none := by
  unfold fractionPart
  split_ifs with h
  · rfl
  · have hall : ¬ (r.fraction ++ [cp 'z']).all isDigit = true := by
      rw [List.all_append, Bool.and_eq_true]
      exact fun h => absurd h.2 (by decide)
    rw [List.cons_append, parseRest, if_pos (Or.inl rfl), parseFraction, if_neg fun h => hall h.1]

theorem parseTime_lowerZ (hz : r.zone = .zulu true) :
    parseTime (r.toDatetime.clockText ++ (r.fractionPart ++ r.zone.text)) = none := by
  have ht : r.zone.text = [cp 'z'] := by rw [hz]; rfl
  have hmarks : ∀ c ∈ offsetMarks, cp c ∉ r.toDatetime.clockText ++ (r.fractionPart ++ [cp 'z']) := by
    intro c hc
    have hne := (offsetMark_apart hc).2.2.2
    intro h
    rw [← List.append_assoc] at h
    rcases List.mem_append.mp h with h | h
    · exact r.not_mem_time hc h
    · exact hne (List.mem_singleton.mp h)
  obtain ⟨hh, hmi, hs⟩ := r.time
  rw [ht, parseTime_naive hmarks, parseClock_clockText (d := r.toDatetime) (by simp only [toDatetime]; omega)
    (by simp only [toDatetime]; omega) (by simp only [toDatetime]; omega), parseRest_lowerZ]
  rfl

/-- **`fromisoformat` of an RFC 3339 text.** -/
theorem fromisoformat_text : fromisoformat r.text =
    if r.zone ≠ .zulu true ∧ r.second < 60 then some r.toDatetime else none := by
  obtain ⟨hy, hm, hd⟩ := r.date
  have hdm := daysInMonth_le r.year r.month
  have hne : r.toDatetime.clockText ++ (r.fractionPart ++ r.zone.text) ≠ [] := by
    intro h
    have := congrArg List.length h
    rw [List.length_append, length_clockText, List.length_nil] at this
    omega
  rw [text_eq, fromisoformat_dateText (d := r.toDatetime) (by simp only [toDatetime]; omega)
    (by simp only [toDatetime]; omega) (by simp only [toDatetime]; omega) _ hne]
  by_cases hz : r.zone = .zulu true
  · rw [parseTime_lowerZ hz, if_neg fun h => h.1 hz]
    rfl
  · rw [parseTime_text hz, Option.bind_some]
    show (if r.toDatetime.Valid then some r.toDatetime else none) = _
    refine if_congr ⟨fun hv => ⟨hz, hv.2.2.2.2.2.1⟩, fun h => toDatetime_valid h.2⟩ rfl rfl

/-- **A text goes into the column iff it is readable**, as the instant it denotes to the microsecond. -/
theorem toUtc_text : (∃ d u, fromisoformat r.text = some d ∧ d.toUtc = some u ∧ u.instant = r.toDatetime.instant ∧
      r.Readable) ∨
    ((fromisoformat r.text = none ∨ ∃ d, fromisoformat r.text = some d ∧ d.toUtc = none) ∧ ¬ r.Readable) := by
  rw [fromisoformat_text]
  by_cases h : r.zone ≠ .zulu true ∧ r.second < 60
  · rw [if_pos h]
    rcases toUtc_cases (toDatetime_valid h.2) with ⟨u, hu, hi, hb⟩ | ⟨hu, hb⟩
    · obtain ⟨hlo, hhi⟩ := instant_bounds.mp hb
      exact Or.inl ⟨_, u, rfl, hu, hi, h.1, h.2, hlo, hhi⟩
    · refine Or.inr ⟨Or.inr ⟨_, rfl, hu⟩, fun hr => ?_⟩
      obtain ⟨hlo, hhi⟩ := instant_bounds.mpr ⟨hr.first, hr.last⟩
      omega
  · rw [if_neg h]
    exact Or.inr ⟨Or.inl rfl, fun hr => h ⟨hr.zone, hr.second⟩⟩

end Rfc3339

end Aeh
