import Mathlib.Order.Fin.Basic
import Mathlib.Order.Monotone.Basic
import Mathlib.Tactic.Ring
import Aeh.Lib.Numeral
import Aeh.Py.Isoformat
import Aeh.Py.Uuid

/-!
# Calendar — instants and texts in the order of the calendar

Both the instant of a UTC value and its text `YYYY-MM-DD HH:MM:SS` are ordered like its fields, year first.
-/

namespace Aeh

namespace Datetime

/-! ## Days -/

def yearLength (year : ℕ) : ℕ := if isLeap year then 366 else 365

theorem daysBeforeYear_succ {year : ℕ} (h : 1 ≤ year) :
    daysBeforeYear (year + 1) = daysBeforeYear year + yearLength year := by
  obtain ⟨k, rfl⟩ : ∃ k, year = k + 1 := ⟨year - 1, by omega⟩
  have h4 : (k + 1) / 4 = k / 4 + if (k + 1) % 4 = 0 then 1 else 0 := by split_ifs <;> omega
  have h100 : (k + 1) / 100 = k / 100 + if (k + 1) % 100 = 0 then 1 else 0 := by split_ifs <;> omega
  have h400 : (k + 1) / 400 = k / 400 + if (k + 1) % 400 = 0 then 1 else 0 := by split_ifs <;> omega
  have hle : k / 100 ≤ k / 4 := by omega
  simp only [daysBeforeYear, yearLength, isLeap, Nat.add_sub_cancel, h4, h100, h400, Bool.and_eq_true,
    Bool.or_eq_true, decide_eq_true_eq]
  clear h4 h100 h400
  split_ifs <;> omega

theorem daysBeforeYear_mono {a b : ℕ} (ha : 1 ≤ a) (h : a ≤ b) : daysBeforeYear a ≤ daysBeforeYear b := by
  induction b, h using Nat.le_induction with
  | base => exact le_rfl
  | succ b hab ih =>
    rw [daysBeforeYear_succ (ha.trans hab)]
    exact ih.trans (Nat.le_add_right _ _)

theorem daysBeforeMonth_succ {month : ℕ} (h : 1 ≤ month) (year : ℕ) :
    daysBeforeMonth year (month + 1) = daysBeforeMonth year month + daysInMonth year month := by
  unfold daysBeforeMonth
  obtain ⟨k, rfl⟩ : ∃ k, month = k + 1 := ⟨month - 1, by omega⟩
  rw [Nat.add_sub_cancel, Nat.add_sub_cancel, List.range_succ, List.map_append, List.sum_append]
  rfl

theorem daysBeforeMonth_mono (year : ℕ) {a b : ℕ} (ha : 1 ≤ a) (h : a ≤ b) :
    daysBeforeMonth year a ≤ daysBeforeMonth year b := by
  induction b, h using Nat.le_induction with
  | base => exact le_rfl
  | succ b hab ih =>
    rw [daysBeforeMonth_succ (ha.trans hab)]
    exact ih.trans (Nat.le_add_right _ _)

theorem daysBeforeMonth_end (year : ℕ) : daysBeforeMonth year 13 = yearLength year := by
  have h : ∀ m, daysBeforeMonth year (m + 2) = daysBeforeMonth year (m + 1) + daysInMonth year (m + 1) :=
    fun m => daysBeforeMonth_succ (by omega) year
  have h1 : daysBeforeMonth year 1 = 0 := rfl
  rw [h 11, h 10, h 9, h 8, h 7, h 6, h 5, h 4, h 3, h 2, h 1, h 0, h1]
  unfold daysInMonth yearLength
  split_ifs <;> rfl

/-- The proleptic ordinal of the date. -/
def ordinal (d : Datetime) : ℕ := daysBeforeYear d.year + daysBeforeMonth d.year d.month + d.day

/-- The dates are in order, year first. -/
def DateLt (a b : Datetime) : Prop :=
  a.year < b.year ∨ (a.year = b.year ∧ (a.month < b.month ∨ (a.month = b.month ∧ a.day < b.day)))

/-- The times of day are in order to the second. -/
def ClockLt (a b : Datetime) : Prop :=
  a.hour < b.hour ∨ (a.hour = b.hour ∧ (a.minute < b.minute ∨ (a.minute = b.minute ∧ a.second < b.second)))

def SameDate (a b : Datetime) : Prop := a.year = b.year ∧ a.month = b.month ∧ a.day = b.day

theorem ordinal_lt {a b : Datetime} (ha : a.Valid) (hb : b.Valid) (h : a.DateLt b) : a.ordinal < b.ordinal := by
  obtain ⟨hay, ham, had, -⟩ := ha
  obtain ⟨hby, hbm, hbd, -⟩ := hb
  unfold ordinal
  -- a date lies within its month, and a month within its year
  have hmonth : daysBeforeMonth a.year a.month + a.day ≤ daysBeforeMonth a.year (a.month + 1) := by
    rw [daysBeforeMonth_succ ham.1]
    omega
  rcases h with h | ⟨hy, h | ⟨hm, h⟩⟩
  · have h1 := daysBeforeMonth_mono a.year (by omega) (show a.month + 1 ≤ 13 by omega)
    have h2 := daysBeforeYear_mono (by omega) (show a.year + 1 ≤ b.year from h)
    rw [daysBeforeMonth_end] at h1
    rw [daysBeforeYear_succ hay.1] at h2
    omega
  · have h1 := daysBeforeMonth_mono a.year (by omega) (show a.month + 1 ≤ b.month from h)
    rw [← hy]
    omega
  · rw [← hy, ← hm]
    omega

theorem dateLt_trichotomy (a b : Datetime) : a.DateLt b ∨ a.SameDate b ∨ b.DateLt a := by
  unfold DateLt SameDate
  omega

theorem ordinal_lt_iff {a b : Datetime} (ha : a.Valid) (hb : b.Valid) : a.ordinal < b.ordinal ↔ a.DateLt b := by
  constructor
  · intro h
    rcases dateLt_trichotomy a b with hab | ⟨hy, hm, hd⟩ | hab
    · exact hab
    · unfold ordinal at h
      rw [hy, hm, hd] at h
      exact absurd h (lt_irrefl _)
    · exact absurd (ordinal_lt hb ha hab) (Nat.lt_asymm h)
  · exact ordinal_lt ha hb

theorem ordinal_eq_iff {a b : Datetime} (ha : a.Valid) (hb : b.Valid) : a.ordinal = b.ordinal ↔ a.SameDate b := by
  constructor
  · intro h
    rcases dateLt_trichotomy a b with hab | hab | hab
    · exact absurd (ordinal_lt ha hb hab) (by omega)
    · exact hab
    · exact absurd (ordinal_lt hb ha hab) (by omega)
  · rintro ⟨hy, hm, hd⟩
    unfold ordinal
    rw [hy, hm, hd]

/-- **UTC values of whole seconds are ordered by date and clock.** -/
theorem instant_lt_iff {a b : Datetime} (ha : a.Valid) (hb : b.Valid) (hoa : a.offset = some 0)
    (hob : b.offset = some 0) (hua : a.microsecond = 0) (hub : b.microsecond = 0) :
    a.instant < b.instant ↔ a.DateLt b ∨ (a.SameDate b ∧ a.ClockLt b) := by
  rw [← ordinal_lt_iff ha hb, ← ordinal_eq_iff ha hb]
  obtain ⟨-, -, -, hah, ham, has, -⟩ := ha
  obtain ⟨-, -, -, hbh, hbm, hbs, -⟩ := hb
  unfold instant
  rw [hoa, hob]
  simp only [Option.getD_some]
  unfold ordinal timeOfDay ClockLt dayLength
  rw [hua, hub]
  omega

/-! ## Texts -/

theorem pad_eq_numeral (w n : ℕ) : pad w n = numeral 10 digit w n := by
  induction w generalizing n with
  | zero => rfl
  | succ w ih =>
    have hd : digit (n % 10) = digit n := by
      apply Fin.ext
      rw [digit_val, digit_val, Nat.mod_mod]
    rw [pad, numeral, ih, hd]

theorem digit_lt {a b : ℕ} (ha : a < 10) (hb : b < 10) : digit a < digit b ↔ a < b := by
  rw [Fin.lt_def, digit_val, digit_val]
  omega

theorem pad_lt_pad {w m n : ℕ} (hm : m < 10 ^ w) (hn : n < 10 ^ w) : pad w m < pad w n ↔ m < n := by
  rw [pad_eq_numeral, pad_eq_numeral]
  exact numeral_lt_numeral (by omega) (fun _ _ => digit_lt) hm hn

theorem pad_inj {w m n : ℕ} (hm : m < 10 ^ w) (hn : n < 10 ^ w) : pad w m = pad w n ↔ m = n := by
  rw [pad_eq_numeral, pad_eq_numeral]
  exact ⟨numeral_inj (by omega) (fun _ _ => digit_lt) hm hn, fun h => by rw [h]⟩

/-- Three padded fields with a separator. -/
theorem fields_lt {w₁ w₂ w₃ a₁ a₂ a₃ b₁ b₂ b₃ : ℕ} (sep : CodePoint) (h₁ : a₁ < 10 ^ w₁) (h₂ : a₂ < 10 ^ w₂)
    (h₃ : a₃ < 10 ^ w₃) (h₁' : b₁ < 10 ^ w₁) (h₂' : b₂ < 10 ^ w₂) (h₃' : b₃ < 10 ^ w₃) :
    pad w₁ a₁ ++ (sep :: (pad w₂ a₂ ++ (sep :: (pad w₃ a₃ ++ [])))) <
        pad w₁ b₁ ++ (sep :: (pad w₂ b₂ ++ (sep :: (pad w₃ b₃ ++ [])))) ↔
      a₁ < b₁ ∨ (a₁ = b₁ ∧ (a₂ < b₂ ∨ (a₂ = b₂ ∧ a₃ < b₃))) := by
  simp only [append_lt_append (length_pad _ _ |>.trans (length_pad _ _).symm), cons_lt_cons_self, pad_lt_pad h₁ h₁',
    pad_lt_pad h₂ h₂', pad_lt_pad h₃ h₃', pad_inj h₁ h₁', pad_inj h₂ h₂', List.not_lt_nil, and_false, or_false]

theorem dateText_lt_iff {a b : Datetime} (ha : a.Valid) (hb : b.Valid) : a.dateText < b.dateText ↔ a.DateLt b := by
  obtain ⟨hay, ham, had, -⟩ := ha
  obtain ⟨hby, hbm, hbd, -⟩ := hb
  have h1 := daysInMonth_le a.year a.month
  have h2 := daysInMonth_le b.year b.month
  exact fields_lt (cp '-') (by omega) (by omega) (by omega) (by omega) (by omega) (by omega)

theorem dateText_eq_iff {a b : Datetime} (ha : a.Valid) (hb : b.Valid) : a.dateText = b.dateText ↔ a.SameDate b := by
  constructor
  · intro h
    have hab := mt (dateText_lt_iff ha hb).mpr (by rw [h]; exact List.lt_irrefl _)
    have hba := mt (dateText_lt_iff hb ha).mpr (by rw [h]; exact List.lt_irrefl _)
    exact (dateLt_trichotomy a b).resolve_left hab |>.resolve_right hba
  · rintro ⟨hy, hm, hd⟩
    unfold dateText
    rw [hy, hm, hd]

theorem clockText_lt_iff {a b : Datetime} (ha : a.Valid) (hb : b.Valid) : a.clockText < b.clockText ↔ a.ClockLt b := by
  obtain ⟨-, -, -, hah, ham, has, -⟩ := ha
  obtain ⟨-, -, -, hbh, hbm, hbs, -⟩ := hb
  exact fields_lt (cp ':') (by omega) (by omega) (by omega) (by omega) (by omega) (by omega)

/-- `YYYY-MM-DD HH:MM:SS`, as SQLite's `CURRENT_TIMESTAMP` writes it. -/
def secondsText (d : Datetime) : PyStr := d.dateText ++ cp ' ' :: d.clockText

theorem secondsText_lt_iff {a b : Datetime} (ha : a.Valid) (hb : b.Valid) :
    a.secondsText < b.secondsText ↔ a.DateLt b ∨ (a.SameDate b ∧ a.ClockLt b) := by
  unfold secondsText
  rw [append_lt_append (by simp), cons_lt_cons_self, dateText_lt_iff ha hb, dateText_eq_iff ha hb,
    clockText_lt_iff ha hb]

/-- **Whole seconds in UTC compare as texts the way they do as instants.** -/
theorem secondsText_lt_iff_instant {a b : Datetime} (ha : a.Valid) (hb : b.Valid) (hoa : a.offset = some 0)
    (hob : b.offset = some 0) (hua : a.microsecond = 0) (hub : b.microsecond = 0) :
    a.secondsText < b.secondsText ↔ a.instant < b.instant := by
  rw [secondsText_lt_iff ha hb, instant_lt_iff ha hb hoa hob hua hub]

/-- A UTC value is bound as it is. -/
theorem toUtc_utc {d : Datetime} (hd : d.Valid) (ho : d.offset = some 0) : d.toUtc = some d := by
  obtain ⟨-, -, -, hh, hm, hs, hus, -⟩ := hd
  cases d
  dsimp only at hh hm hs hus ho
  subst ho
  unfold toUtc timeOfDay dayLength
  simp only [Option.getD_some]
  rw [if_neg (by omega), if_neg (by omega)]
  simp only [atTime, Option.some.injEq, Datetime.mk.injEq, true_and, and_true]
  omega

/-! ## Values bound to a column -/

/-- The year, the month and the day are those of a date. -/
def ValidDate (d : Datetime) : Prop :=
  (1 ≤ d.year ∧ d.year ≤ 9999) ∧ (1 ≤ d.month ∧ d.month ≤ 12) ∧ 1 ≤ d.day ∧ d.day ≤ daysInMonth d.year d.month

theorem Valid.date {d : Datetime} (hd : d.Valid) : d.ValidDate := ⟨hd.1, hd.2.1, hd.2.2.1⟩

theorem instant_eq (d : Datetime) : d.instant = d.ordinal * dayLength + d.timeOfDay - d.offset.getD 0 := by
  unfold instant ordinal
  push_cast
  ring

theorem timeOfDay_lt {d : Datetime} (hd : d.Valid) : d.timeOfDay < dayLength := by
  obtain ⟨-, -, -, hh, hm, hs, hus, -⟩ := hd
  unfold timeOfDay dayLength
  omega

theorem le_daysInMonth (year month : ℕ) : 28 ≤ daysInMonth year month := by
  unfold daysInMonth
  split
  · split <;> omega
  all_goals omega

theorem nextDay_some {d d' : Datetime} (hd : d.ValidDate) (h : d.nextDay = some d') :
    d'.ValidDate ∧ d'.ordinal = d.ordinal + 1 := by
  obtain ⟨hy, hm, hday⟩ := hd
  unfold nextDay at h
  split_ifs at h with h1 h2 h3
  · cases h
    exact ⟨⟨hy, hm, by dsimp only; omega⟩, by unfold ordinal; dsimp only; omega⟩
  · cases h
    have := le_daysInMonth d.year (d.month + 1)
    refine ⟨⟨hy, by dsimp only; omega, by dsimp only; omega⟩, ?_⟩
    unfold ordinal
    dsimp only
    rw [daysBeforeMonth_succ hm.1]
    omega
  · cases h
    have := le_daysInMonth (d.year + 1) 1
    refine ⟨⟨by dsimp only; omega, by dsimp only; omega, by dsimp only; omega⟩, ?_⟩
    have hmonth : d.month = 12 := by omega
    have hend := daysBeforeMonth_succ (show 1 ≤ 12 by omega) d.year
    rw [daysBeforeMonth_end, ← hmonth] at hend
    have h1' : daysBeforeMonth (d.year + 1) 1 = 0 := rfl
    unfold ordinal
    dsimp only
    rw [daysBeforeYear_succ hy.1, h1']
    omega

theorem prevDay_some {d d' : Datetime} (hd : d.ValidDate) (h : d.prevDay = some d') :
    d'.ValidDate ∧ d'.ordinal + 1 = d.ordinal := by
  obtain ⟨hy, hm, hday⟩ := hd
  unfold prevDay at h
  split_ifs at h with h1 h2 h3
  · cases h
    exact ⟨⟨hy, hm, by dsimp only; omega⟩, by unfold ordinal; dsimp only; omega⟩
  · cases h
    have := le_daysInMonth d.year (d.month - 1)
    refine ⟨⟨hy, by dsimp only; omega, by dsimp only; omega⟩, ?_⟩
    have hsucc := daysBeforeMonth_succ (show 1 ≤ d.month - 1 by omega) d.year
    rw [Nat.sub_add_cancel hm.1] at hsucc
    unfold ordinal
    dsimp only
    omega
  · cases h
    have h31 : daysInMonth (d.year - 1) 12 = 31 := rfl
    refine ⟨⟨by dsimp only; omega, by dsimp only; omega, by dsimp only; omega⟩, ?_⟩
    have hyear := daysBeforeYear_succ (show 1 ≤ d.year - 1 by omega)
    rw [Nat.sub_add_cancel hy.1] at hyear
    have hend := daysBeforeMonth_succ (show 1 ≤ 12 by omega) (d.year - 1)
    rw [daysBeforeMonth_end] at hend
    have hmonth : d.month = 1 := by omega
    have h1' : daysBeforeMonth d.year 1 = 0 := rfl
    unfold ordinal
    dsimp only
    rw [hmonth, h1']
    omega

/-- The first and the last value in UTC. -/
def minUtc : Datetime := ⟨1, 1, 1, 0, 0, 0, 0, some 0⟩

def maxUtc : Datetime := ⟨9999, 12, 31, 23, 59, 59, 999999, some 0⟩

theorem prevDay_none {d : Datetime} (hd : d.ValidDate) (h : d.prevDay = none) : d.ordinal = 1 := by
  obtain ⟨hy, hm, hday⟩ := hd
  unfold prevDay at h
  split_ifs at h
  have h1 : d.year = 1 := by omega
  have h2 : d.month = 1 := by omega
  have h3 : d.day = 1 := by omega
  unfold ordinal
  rw [h1, h2, h3]
  rfl

theorem nextDay_none {d : Datetime} (hd : d.ValidDate) (h : d.nextDay = none) : d.ordinal = 3652059 := by
  obtain ⟨hy, hm, hday⟩ := hd
  unfold nextDay at h
  split_ifs at h
  have h1 : d.year = 9999 := by omega
  have h2 : d.month = 12 := by omega
  have h31 : daysInMonth 9999 12 = 31 := rfl
  have h3 : d.day = 31 := by
    rw [h1, h2] at hday
    rename_i hlast _ _
    rw [h1, h2] at hlast
    omega
  unfold ordinal
  rw [h1, h2, h3]
  decide

theorem ordinal_bounds {d : Datetime} (hd : d.ValidDate) : 1 ≤ d.ordinal ∧ d.ordinal ≤ 3652059 := by
  have hday := hd.2.2
  refine ⟨by unfold ordinal; omega, ?_⟩
  obtain ⟨hy, hm, -⟩ := hd
  have h1 := daysBeforeMonth_mono d.year (by omega) (show d.month + 1 ≤ 13 by omega)
  rw [daysBeforeMonth_end, daysBeforeMonth_succ hm.1] at h1
  have h2 := daysBeforeYear_mono (by omega) (show d.year + 1 ≤ 10000 by omega)
  rw [daysBeforeYear_succ hy.1] at h2
  have h3 : daysBeforeYear 10000 = 3652059 := rfl
  unfold ordinal
  omega

theorem timeOfDay_atTime (d : Datetime) {t : ℕ} (ht : t < dayLength) : (d.atTime t).timeOfDay = t := by
  unfold dayLength at ht
  unfold timeOfDay atTime
  dsimp only
  omega

/-- The instant at a time of a day. -/
theorem instant_atTime (d : Datetime) {t : ℕ} (ht : t < dayLength) :
    (d.atTime t).instant = d.ordinal * dayLength + t := by
  have ho : (d.atTime t).ordinal = d.ordinal := rfl
  rw [instant_eq, timeOfDay_atTime d ht, ho]
  simp [atTime]

theorem instant_minUtc : minUtc.instant = dayLength := rfl

theorem instant_maxUtc : maxUtc.instant = 3652060 * dayLength - 1 := by decide

/-- The instants of a day that there is lie between the first and the last value. -/
theorem instant_onDay {d : Datetime} (hd : d.ValidDate) {x n : ℤ} (h0 : 0 ≤ n) (hn : n < dayLength)
    (hx : x = d.ordinal * dayLength + n) :
    (d.atTime n.toNat).instant = x ∧ minUtc.instant ≤ x ∧ x ≤ maxUtc.instant := by
  obtain ⟨t, rfl⟩ := Int.eq_ofNat_of_zero_le h0
  have ht : t < dayLength := Int.ofNat_lt.mp hn
  obtain ⟨h1, h2⟩ := ordinal_bounds hd
  rw [Int.toNat_natCast, instant_atTime d ht, instant_minUtc, instant_maxUtc, hx]
  unfold dayLength at ht ⊢
  push_cast
  omega

/-- **A value in UTC denotes the same instant**, and there is one unless it lies before the first or behind the last
value in UTC. -/
theorem toUtc_cases {d : Datetime} (hd : d.Valid) :
    (∃ u, d.toUtc = some u ∧ u.instant = d.instant ∧ minUtc.instant ≤ d.instant ∧ d.instant ≤ maxUtc.instant) ∨
      (d.toUtc = none ∧ (d.instant < minUtc.instant ∨ maxUtc.instant < d.instant)) := by
  have hoff : ∀ o, d.offset.getD 0 = o → -(dayLength : ℤ) < o ∧ o < dayLength := by
    rintro o rfl
    cases ho : d.offset with
    | none => exact ⟨by decide, by decide⟩
    | some o => exact hd.2.2.2.2.2.2.2 o ho
  have hday := timeOfDay_lt hd
  have hi := instant_eq d
  generalize hob : d.offset.getD 0 = o at hi
  obtain ⟨ho1, ho2⟩ := hoff o hob
  unfold toUtc
  rw [hob]
  dsimp only
  -- the local time without the offset falls on the day before, the day after or the same day
  split_ifs with h1 h2
  · cases hp : d.prevDay with
    | none =>
      refine Or.inr ⟨rfl, Or.inl ?_⟩
      rw [hi, instant_minUtc, prevDay_none hd.date hp]
      omega
    | some d' =>
      obtain ⟨hv, hord⟩ := prevDay_some hd.date hp
      refine Or.inl ⟨_, rfl, instant_onDay hv (by omega) (by omega) ?_⟩
      rw [hi, ← hord]
      push_cast
      ring
  · cases hp : d.nextDay with
    | none =>
      refine Or.inr ⟨rfl, Or.inr ?_⟩
      rw [hi, instant_maxUtc, nextDay_none hd.date hp]
      push_cast
      omega
    | some d' =>
      obtain ⟨hv, hord⟩ := nextDay_some hd.date hp
      refine Or.inl ⟨_, rfl, instant_onDay hv (by omega) (by omega) ?_⟩
      rw [hi, hord]
      push_cast
      ring
  · refine Or.inl ⟨_, rfl, instant_onDay hd.date (by omega) (by omega) ?_⟩
    rw [hi]
    ring

end Datetime

/-! ## Ids -/

theorem Uuid.toHex_eq_numeral (w n : ℕ) : Uuid.toHex w n = numeral 16 Uuid.hexDigit w n := by
  induction w generalizing n with
  | zero => rfl
  | succ w ih =>
    have hd : Uuid.hexDigit (n % 16) = Uuid.hexDigit n := by
      unfold Uuid.hexDigit
      simp only [Nat.mod_mod]
    rw [Uuid.toHex, numeral, ih, hd]

theorem Uuid.hexDigit_lt {a b : ℕ} (ha : a < 16) (hb : b < 16) : Uuid.hexDigit a < Uuid.hexDigit b ↔ a < b := by
  rw [Fin.lt_def, Uuid.hexDigit_val, Uuid.hexDigit_val, Nat.mod_eq_of_lt ha, Nat.mod_eq_of_lt hb]
  split_ifs <;> omega

/-- Ids compare as 32 hexadecimal digits the way they do as numbers. -/
theorem Uuid.hex_lt_iff (a b : Uuid) : Uuid.toHex 32 a.val < Uuid.toHex 32 b.val ↔ a < b := by
  rw [Uuid.toHex_eq_numeral, Uuid.toHex_eq_numeral, numeral_lt_numeral (by omega) (fun _ _ => Uuid.hexDigit_lt)
    (a.isLt.trans_eq (by decide)) (b.isLt.trans_eq (by decide)), Fin.lt_def]

end Aeh
