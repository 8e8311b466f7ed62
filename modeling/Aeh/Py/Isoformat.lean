import Aeh.Py.Datetime

/-!
# Isoformat — `fromisoformat` reads what `isoformat` writes

For every valid value in UTC.  The parser looks at positions, so its pieces are stated for a text
`p ++ pad k n ++ q` at the position `p.length`.
-/

namespace Aeh

namespace Datetime

/-! ## Padded numbers -/

@[simp] theorem length_pad (w n : ℕ) : (pad w n).length = w := by
  induction w generalizing n with
  | zero => rfl
  | succ w ih => rw [pad, List.length_append, ih, List.length_singleton]

theorem digit_val (n : ℕ) : (digit n).val = 0x30 + n % 10 := rfl

theorem isDigit_digit (n : ℕ) : isDigit (digit n) = true := by
  rw [isDigit, digit_val, Bool.and_eq_true, decide_eq_true_eq, decide_eq_true_eq]
  omega

theorem isDigit_of_mem_pad {w n : ℕ} {c : CodePoint} (h : c ∈ pad w n) : isDigit c = true := by
  induction w generalizing n with
  | zero => simp [pad] at h
  | succ w ih =>
    rcases List.mem_append.mp h with h | h
    · exact ih h
    · rw [List.mem_singleton.mp h]
      exact isDigit_digit n

/-- A character that is no digit does not occur in a number. -/
theorem not_mem_pad {c : CodePoint} (hc : isDigit c = false) (w n : ℕ) : c ∉ pad w n := by
  intro h
  rw [isDigit_of_mem_pad h] at hc
  cases hc

theorem foldl_pad (w n acc : ℕ) : (pad w n).foldl (fun n c => 10 * n + (c.val - 0x30)) acc =
    acc * 10 ^ w + n % 10 ^ w := by
  induction w generalizing n acc with
  | zero => simp [pad, Nat.mod_one]
  | succ w ih =>
    have hd : (digit n).val - 0x30 = n % 10 := by rw [digit_val]; omega
    rw [pad, List.foldl_append, ih, List.foldl_cons, List.foldl_nil, hd, Nat.pow_succ, Nat.mul_comm (10 ^ w) 10,
      Nat.mod_mul, Nat.mul_add, Nat.mul_left_comm]
    omega

theorem parseDigits_pad {w n : ℕ} (hw : 0 < w) (hn : n < 10 ^ w) : parseDigits (pad w n) = some n := by
  have hne : pad w n ≠ [] := by
    intro h
    have := length_pad w n
    rw [h] at this
    simp only [List.length_nil] at this
    omega
  have hall : (pad w n).all isDigit = true := List.all_eq_true.mpr fun c hc => isDigit_of_mem_pad hc
  rw [parseDigits, if_pos ⟨hne, hall⟩, foldl_pad, Nat.zero_mul, Nat.zero_add, Nat.mod_eq_of_lt hn]

/-! ## Positions -/

theorem slice_append (p m q : PyStr) : slice (p ++ (m ++ q)) p.length (p.length + m.length) = m := by
  rw [slice, List.drop_left, Nat.add_sub_cancel_left, List.take_left]

/-- The number at a position. -/
theorem digitsAt_pad {k n i : ℕ} (p q : PyStr) (hi : p.length = i) (hk : 0 < k) (hn : n < 10 ^ k) :
    digitsAt (p ++ (pad k n ++ q)) i k = some n := by
  have hs : slice (p ++ (pad k n ++ q)) i (i + k) = pad k n := by
    have := slice_append p (pad k n) q
    rwa [length_pad, hi] at this
  rw [digitsAt, hs, if_pos (length_pad k n), parseDigits_pad hk hn]

/-- The character at a position. -/
theorem isAt_cons {i : ℕ} (p q : PyStr) (x : CodePoint) (c : Char) (hi : p.length = i) :
    isAt (p ++ x :: q) i c = decide (x = cp c) := by
  subst hi
  rw [isAt, List.getElem?_append_right le_rfl, Nat.sub_self, List.getElem?_cons_zero]
  exact decide_eq_decide.mpr Option.some_inj

/-- A number does not start with `c`. -/
theorem isAt_pad {k i : ℕ} (p q : PyStr) (n : ℕ) (c : Char) (hi : p.length = i) (hc : isDigit (cp c) = false) :
    isAt (p ++ (pad (k + 1) n ++ q)) i c = false := by
  cases h : pad (k + 1) n with
  | nil =>
    have := length_pad (k + 1) n
    rw [h] at this
    simp at this
  | cons x r =>
    rw [List.cons_append, isAt_cons p _ x c hi, decide_eq_false_iff_not]
    rintro rfl
    exact not_mem_pad hc (k + 1) n (by rw [h]; exact List.mem_cons_self ..)

/-! ## The date -/

/-- `YYYY-MM-DD`. -/
def dateText (d : Datetime) : PyStr := pad 4 d.year ++ (cp '-' :: (pad 2 d.month ++ (cp '-' :: (pad 2 d.day ++ []))))

/-- `HH:MM:SS`. -/
def clockText (d : Datetime) : PyStr :=
  pad 2 d.hour ++ (cp ':' :: (pad 2 d.minute ++ (cp ':' :: (pad 2 d.second ++ []))))

/-- `.ffffff`, unless there are no microseconds. -/
def fractionText (d : Datetime) : PyStr := if d.microsecond = 0 then [] else cp '.' :: pad 6 d.microsecond

@[simp] theorem length_dateText (d : Datetime) : d.dateText.length = 10 := by simp [dateText]

@[simp] theorem length_clockText (d : Datetime) : d.clockText.length = 8 := by simp [clockText]

theorem isoformat_utc {d : Datetime} (ho : d.offset = some 0) :
    isoformat d = d.dateText ++ (cp 'T' :: (d.clockText ++ (d.fractionText ++ lit "+00:00"))) := by
  have hf : formatOffset 0 = lit "+00:00" := by decide
  rw [isoformat, ho]
  simp only [hf, dateText, clockText, fractionText, lit, String.toList, List.append_assoc, List.append_nil]
  rfl

theorem daysInMonth_le (year month : ℕ) : daysInMonth year month ≤ 31 := by
  unfold daysInMonth
  split
  · split <;> omega
  all_goals omega

/-- The punctuation of a UTC value. -/
def punctuation : PyStr := [cp '-', cp 'T', cp ':', cp '.', cp '+']

theorem mem_isoformat {d : Datetime} (ho : d.offset = some 0) {c : CodePoint} (h : c ∈ isoformat d) :
    isDigit c = true ∨ c ∈ punctuation := by
  by_contra hn
  obtain ⟨hd, hc⟩ := not_or.mp hn
  rw [Bool.not_eq_true] at hd
  simp only [punctuation, List.mem_cons, List.not_mem_nil, or_false, not_or] at hc
  obtain ⟨h1, h2, h3, h4, h5⟩ := hc
  have hp := fun w n => not_mem_pad hd w n
  have h0 : c ≠ cp '0' := by
    rintro rfl
    exact absurd hd (by decide)
  have hz : lit "+00:00" = [cp '+', cp '0', cp '0', cp ':', cp '0', cp '0'] := rfl
  rw [isoformat_utc ho, hz] at h
  unfold dateText clockText fractionText at h
  split_ifs at h <;>
    simp only [List.mem_append, List.mem_cons, List.not_mem_nil, hp, h0, h1, h2, h3, h4, h5, or_false] at h

section Parse

variable {d : Datetime}

theorem parseDate_dateText (hy : d.year < 10000) (hm : d.month < 100) (hday : d.day < 100) :
    parseDate d.dateText = some (d.year, d.month, d.day) := by
  have h0 : digitsAt d.dateText 0 4 = some d.year := digitsAt_pad [] _ rfl (by omega) (by omega)
  have h4 : isAt d.dateText 4 '-' = true := by
    rw [dateText, isAt_cons _ _ _ _ (length_pad 4 _)]
    decide
  have h5 : isAt d.dateText 5 'W' = false := by
    have := isAt_pad (k := 1) (i := 5) (pad 4 d.year ++ [cp '-']) (cp '-' :: (pad 2 d.day ++ [])) d.month 'W'
      (by simp) (by decide)
    rwa [List.append_assoc] at this
  have h5' : digitsAt d.dateText 5 2 = some d.month := by
    have := digitsAt_pad (k := 2) (n := d.month) (i := 5) (pad 4 d.year ++ [cp '-'])
      (cp '-' :: (pad 2 d.day ++ [])) (by simp) (by omega) (by omega)
    rwa [List.append_assoc] at this
  have h7 : isAt d.dateText 7 '-' = true := by
    have := isAt_cons (pad 4 d.year ++ (cp '-' :: pad 2 d.month)) (pad 2 d.day ++ []) (cp '-') '-' (i := 7) (by simp)
    rw [List.append_assoc] at this
    exact this.trans (by decide)
  have h8 : digitsAt d.dateText 8 2 = some d.day := by
    have := digitsAt_pad (k := 2) (n := d.day) (i := 8) (pad 4 d.year ++ (cp '-' :: (pad 2 d.month ++ [cp '-']))) []
      (by simp) (by omega) (by omega)
    simpa [dateText] using this
  simp only [parseDate, h0, h4, if_true, h5, h5', h7, h8, Option.bind_eq_bind, Option.bind_some]
  simp

/-- The separator is found behind the date, whatever it is. -/
theorem findSeparator_dateText (t : CodePoint) (q : PyStr) : findSeparator (d.dateText ++ t :: q) = 10 := by
  have h4 : isAt (d.dateText ++ t :: q) 4 '-' = true := by
    rw [dateText, List.append_assoc, List.cons_append, isAt_cons _ _ _ _ (length_pad 4 _)]
    decide
  have h5 : isAt (d.dateText ++ t :: q) 5 'W' = false := by
    have := isAt_pad (k := 1) (i := 5) (pad 4 d.year ++ [cp '-'])
      (cp '-' :: (pad 2 d.day ++ []) ++ t :: q) d.month 'W' (by simp) (by decide)
    simpa [dateText] using this
  have hl : (d.dateText ++ t :: q).length ≠ 7 := by
    rw [List.length_append, length_dateText]
    omega
  simp only [findSeparator, h4, h5, hl, if_true, if_false]
  simp

/-- A text with a date in front: what follows the separator is the time. -/
theorem fromisoformat_dateText (hy : d.year < 10000) (hm : d.month < 100) (hday : d.day < 100) (t : CodePoint)
    {q : PyStr} (hq : q ≠ []) : fromisoformat (d.dateText ++ t :: q) = (parseTime q).bind fun p =>
      let d' : Datetime := ⟨d.year, d.month, d.day, p.1.1, p.1.2.1, p.1.2.2.1, p.1.2.2.2, p.2⟩
      if d'.Valid then some d' else none := by
  have hl : ¬ (d.dateText ++ t :: q).length < 7 := by
    rw [List.length_append, length_dateText]
    omega
  have htake : (d.dateText ++ t :: q).take 10 = d.dateText := by
    rw [← length_dateText d]
    exact List.take_left
  have hdrop : (d.dateText ++ t :: q).drop (10 + 1) = q := by
    rw [← length_dateText d, ← List.drop_drop, List.drop_left]
    rfl
  rw [fromisoformat, if_neg hl]
  simp only [findSeparator_dateText, htake, hdrop, parseDate_dateText hy hm hday, if_neg hq, Option.bind_eq_bind,
    Option.bind_some]

/-! ## The time -/

/-- A fraction of some digits: those beyond the sixth are read and dropped. -/
theorem parseRest_digits {ds : PyStr} (hall : ds.all isDigit = true) (hne : ds ≠ []) :
    parseRest (cp '.' :: ds) = (parseDigits (ds.take 6)).bind fun n => some (n * 10 ^ (6 - min 6 ds.length)) := by
  rw [parseRest, if_pos (Or.inl rfl), parseFraction, if_pos ⟨hall, hne⟩]
  rfl

theorem parseRest_fractionText (hd : d.Valid) : parseRest d.fractionText = some d.microsecond := by
  obtain ⟨-, -, -, -, -, -, hus, -⟩ := hd
  unfold fractionText
  split_ifs with h
  · rw [h]
    rfl
  · have hall : (pad 6 d.microsecond).all isDigit = true := List.all_eq_true.mpr fun c hc => isDigit_of_mem_pad hc
    have hne : pad 6 d.microsecond ≠ [] := by
      intro h
      have := length_pad 6 d.microsecond
      rw [h] at this
      cases this
    have ht : (pad 6 d.microsecond).take 6 = pad 6 d.microsecond := by
      rw [List.take_of_length_le (by rw [length_pad])]
    rw [parseRest_digits hall hne, ht, parseDigits_pad (by omega) (by omega), length_pad]
    simp

/-- A clock before what is, or is not, a fraction. -/
theorem parseClock_clockText (hh : d.hour < 100) (hmi : d.minute < 100) (hs : d.second < 100) (f : PyStr) :
    parseClock (d.clockText ++ f) = (parseRest f).bind fun us => some (d.hour, d.minute, d.second, us) := by
  have h0 : digitsAt (d.clockText ++ f) 0 2 = some d.hour := by
    rw [clockText, List.append_assoc]
    exact digitsAt_pad [] _ rfl (by omega) (by omega)
  have h2 : isAt (d.clockText ++ f) 2 ':' = true := by
    rw [clockText, List.append_assoc, List.cons_append, isAt_cons _ _ _ _ (length_pad 2 _)]
    decide
  have h3 : digitsAt (d.clockText ++ f) 3 2 = some d.minute := by
    have := digitsAt_pad (k := 2) (n := d.minute) (i := 3) (pad 2 d.hour ++ [cp ':'])
      (cp ':' :: (pad 2 d.second ++ []) ++ f) (by simp) (by omega) (by omega)
    simpa [clockText] using this
  have h5 : isAt (d.clockText ++ f) 5 ':' = true := by
    have := isAt_cons (pad 2 d.hour ++ (cp ':' :: pad 2 d.minute)) (pad 2 d.second ++ [] ++ f) (cp ':') ':' (i := 5)
      (by simp)
    rw [decide_eq_true rfl] at this
    simpa [clockText] using this
  have h6 : digitsAt (d.clockText ++ f) 6 2 = some d.second := by
    have := digitsAt_pad (k := 2) (n := d.second) (i := 6) (pad 2 d.hour ++ (cp ':' :: (pad 2 d.minute ++ [cp ':']))) f
      (by simp) (by omega) (by omega)
    simpa [clockText] using this
  have h8 : (d.clockText ++ f).drop 8 = f := by
    have : (d.clockText ++ f).drop d.clockText.length = f := List.drop_left
    rwa [length_clockText] at this
  have hl : (d.clockText ++ f).length = 8 + f.length := by rw [List.length_append, length_clockText]
  have hl2 : (d.clockText ++ f).length ≠ 2 := by omega
  have hl5 : (d.clockText ++ f).length ≠ 3 + 2 := by omega
  simp only [parseClock, h0, h2, h3, h5, h6, h8, if_true, if_false, hl2, hl5, Option.bind_eq_bind, Option.bind_some]
  simp

/-- The characters that start an offset. -/
def offsetMarks : List Char := ['-', '+', 'Z']

/-- A mark is no digit and no other sign of a time. -/
theorem offsetMark_apart {c : Char} (hc : c ∈ offsetMarks) :
    isDigit (cp c) = false ∧ cp c ≠ cp ':' ∧ cp c ≠ cp '.' ∧ cp c ≠ cp 'z' := by
  simp only [offsetMarks, List.mem_cons, List.not_mem_nil, or_false] at hc
  rcases hc with rfl | rfl | rfl <;> decide

/-- The first mark is where the offset starts. -/
theorem offsetStart_append {x : Char} {p q : PyStr} (hx : x ∈ offsetMarks) (hp : ∀ c ∈ offsetMarks, cp c ∉ p)
    (hq : ∀ c ∈ offsetMarks, cp c ∉ q) : offsetStart (p ++ cp x :: q) = some p.length := by
  have hnone : ∀ c ∈ offsetMarks, p.findIdx? (· = cp c) = none := by
    intro c hc
    rw [List.findIdx?_eq_none_iff]
    rintro y hy
    rw [decide_eq_false_iff_not]
    rintro rfl
    exact hp c hc hy
  have hself : (p ++ cp x :: q).findIdx? (· = cp x) = some p.length := by
    rw [List.findIdx?_append, hnone x hx, List.findIdx?_cons, decide_eq_true rfl]
    simp
  have hother : ∀ c ∈ offsetMarks, cp c ≠ cp x → (p ++ cp x :: q).findIdx? (· = cp c) = none := by
    intro c hc hne
    rw [List.findIdx?_eq_none_iff]
    intro y hy
    rw [decide_eq_false_iff_not]
    rintro rfl
    rcases List.mem_append.mp hy with h | h
    · exact hp c hc h
    · rcases List.mem_cons.mp h with h | h
      · exact hne h
      · exact hq c hc h
  unfold offsetStart
  simp only [offsetMarks, List.mem_cons, List.not_mem_nil, or_false] at hx
  rcases hx with rfl | rfl | rfl
  · rw [hself]
    rfl
  · rw [hother '-' (by decide) (by decide), hself]
    rfl
  · rw [hother '-' (by decide) (by decide), hother '+' (by decide) (by decide), hself]
    rfl

/-- Without a mark there is no offset. -/
theorem offsetStart_none {p : PyStr} (hp : ∀ c ∈ offsetMarks, cp c ∉ p) : offsetStart p = none := by
  have hnone : ∀ c ∈ offsetMarks, p.findIdx? (· = cp c) = none := by
    intro c hc
    rw [List.findIdx?_eq_none_iff]
    rintro y hy
    rw [decide_eq_false_iff_not]
    rintro rfl
    exact hp c hc hy
  unfold offsetStart
  rw [hnone '-' (by decide), hnone '+' (by decide), hnone 'Z' (by decide)]
  rfl

/-- A time with `Z`. -/
theorem parseTime_zulu {p : PyStr} (hp : ∀ c ∈ offsetMarks, cp c ∉ p) :
    parseTime (p ++ [cp 'Z']) = (parseClock p).bind fun t => some (t, some 0) := by
  have hz : isAt (p ++ [cp 'Z']) p.length 'Z' = true := by
    rw [isAt_cons _ _ _ _ rfl]
    decide
  have hdrop : (p ++ [cp 'Z']).drop (p.length + 1) = [] := by simp
  rw [parseTime, offsetStart_append (by decide) hp (by simp)]
  simp only [List.take_left, hz, hdrop, if_true, Option.bind_eq_bind]

/-- A time with an offset `±HH:MM`. -/
theorem parseTime_offset {p : PyStr} (hp : ∀ c ∈ offsetMarks, cp c ∉ p) (west : Bool) {h m : ℕ} (hh : h < 100)
    (hm : m < 100) : parseTime (p ++ cp (if west then '-' else '+') :: (pad 2 h ++ (cp ':' :: (pad 2 m ++ [])))) =
      (parseClock p).bind fun t =>
        some (t, some ((if west then -1 else 1 : ℤ) * ((h * 3600 + m * 60) * 1000000 : ℕ))) := by
  have hq : ∀ c ∈ offsetMarks, cp c ∉ pad 2 h ++ (cp ':' :: (pad 2 m ++ [])) := by
    intro c hc
    obtain ⟨hd, hcolon, -⟩ := offsetMark_apart hc
    simp only [List.mem_append, List.mem_cons, not_mem_pad hd, hcolon, List.not_mem_nil, or_self, not_false_eq_true]
  have hx : (if west then '-' else '+') ∈ offsetMarks := by cases west <;> decide
  have hlen : (pad 2 h ++ (cp ':' :: (pad 2 m ++ []))).length = 5 := by simp
  have h0 : digitsAt (pad 2 h ++ (cp ':' :: (pad 2 m ++ []))) 0 2 = some h :=
    digitsAt_pad [] _ rfl (by omega) (by omega)
  have h2 : isAt (pad 2 h ++ (cp ':' :: (pad 2 m ++ []))) 2 ':' = true := by
    rw [isAt_cons _ _ _ _ (length_pad 2 _)]
    decide
  have h3 : digitsAt (pad 2 h ++ (cp ':' :: (pad 2 m ++ []))) 3 2 = some m := by
    have := digitsAt_pad (k := 2) (n := m) (i := 3) (pad 2 h ++ [cp ':']) [] (by simp) (by omega) (by omega)
    simpa using this
  have htz : parseClock (pad 2 h ++ (cp ':' :: (pad 2 m ++ []))) = some (h, m, 0, 0) := by
    simp only [parseClock, h0, h2, h3, hlen, if_true, Option.bind_eq_bind, Option.bind_some]
    simp
  generalize hqe : pad 2 h ++ (cp ':' :: (pad 2 m ++ [])) = q at hq hlen htz
  have hdrop : (p ++ cp (if west then '-' else '+') :: q).drop (p.length + 1) = q := by
    rw [← List.drop_drop, List.drop_left]
    rfl
  have hz : isAt (p ++ cp (if west then '-' else '+') :: q) p.length 'Z' = false := by
    rw [isAt_cons _ _ _ _ rfl]
    cases west <;> decide
  have hm' : isAt (p ++ cp (if west then '-' else '+') :: q) p.length '-' = west := by
    rw [isAt_cons _ _ _ _ rfl]
    cases west <;> decide
  rw [parseTime, offsetStart_append hx hp hq]
  simp only [List.take_left, hdrop, hz, hm', htz, hlen, Option.bind_eq_bind, Option.bind_some]
  cases west <;> simp

/-- A time without an offset. -/
theorem parseTime_naive {p : PyStr} (hp : ∀ c ∈ offsetMarks, cp c ∉ p) :
    parseTime p = (parseClock p).bind fun t => some (t, none) := by
  unfold parseTime
  rw [offsetStart_none hp]
  rfl

/-- A clock has none of the marks. -/
theorem not_mem_clockText {c : Char} (hc : c ∈ offsetMarks) : cp c ∉ d.clockText := by
  obtain ⟨hd, hcolon, -⟩ := offsetMark_apart hc
  simp [clockText, not_mem_pad hd, hcolon]

theorem not_mem_fractionText {c : Char} (hc : c ∈ offsetMarks) : cp c ∉ d.fractionText := by
  obtain ⟨hd, -, hdot, -⟩ := offsetMark_apart hc
  unfold fractionText
  split_ifs
  · exact List.not_mem_nil
  · simp [not_mem_pad hd, hdot]

/-- **`fromisoformat` inverts `isoformat`** on UTC values. -/
theorem fromisoformat_isoformat (hd : d.Valid) (ho : d.offset = some 0) : fromisoformat (isoformat d) = some d := by
  have hdm := daysInMonth_le d.year d.month
  obtain ⟨hy, hm, hday, hh, hmi, hs, -⟩ := id hd
  have hz : lit "+00:00" = cp (if false then '-' else '+') :: (pad 2 0 ++ (cp ':' :: (pad 2 0 ++ []))) := rfl
  have hmarks : ∀ c ∈ offsetMarks, cp c ∉ d.clockText ++ d.fractionText := fun c hc h =>
    (List.mem_append.mp h).elim (not_mem_clockText hc) (not_mem_fractionText hc)
  have htime : parseTime (d.clockText ++ (d.fractionText ++ lit "+00:00")) =
      some ((d.hour, d.minute, d.second, d.microsecond), some 0) := by
    rw [← List.append_assoc, hz, parseTime_offset hmarks false (by omega) (by omega),
      parseClock_clockText (by omega) (by omega) (by omega), parseRest_fractionText hd]
    rfl
  have hne : d.clockText ++ (d.fractionText ++ lit "+00:00") ≠ [] := by
    intro h
    have := congrArg List.length h
    rw [List.length_append, length_clockText, List.length_nil] at this
    omega
  rw [isoformat_utc ho, fromisoformat_dateText (by omega) (by omega) (by omega) _ hne, htime]
  have he : (⟨d.year, d.month, d.day, d.hour, d.minute, d.second, d.microsecond, some 0⟩ : Datetime) = d := by
    rw [← ho]
  rw [Option.bind_some]
  dsimp only
  rw [he, if_pos hd]

end Parse

end Datetime

end Aeh
