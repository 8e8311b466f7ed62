import Aeh.Py.Text

/-!
# Bytes — `bytes`, UTF-8 and URL-safe base64

`encode` and `decode` are UTF-8 with the strict error handler.  `b64decode` is `base64.urlsafe_b64decode`,
which skips every character outside the alphabet and stops at the padding; `none` is its `binascii.Error`.
-/

namespace Aeh

abbrev Bytes := List UInt8

theorem ofNat_eq {n : ℕ} {b : UInt8} (h : n = b.toNat) : UInt8.ofNat n = b := by rw [h, UInt8.ofNat_toNat]

/-! ## UTF-8 -/

namespace Utf8

def encodeChar (c : CodePoint) : Bytes :=
  let n := c.val
  if n < 0x80 then [UInt8.ofNat n]
  else if n < 0x800 then [UInt8.ofNat (0xC0 + n / 64), UInt8.ofNat (0x80 + n % 64)]
  else if n < 0x10000 then
    [UInt8.ofNat (0xE0 + n / 4096), UInt8.ofNat (0x80 + n / 64 % 64), UInt8.ofNat (0x80 + n % 64)]
  else
    [UInt8.ofNat (0xF0 + n / 262144), UInt8.ofNat (0x80 + n / 4096 % 64), UInt8.ofNat (0x80 + n / 64 % 64),
      UInt8.ofNat (0x80 + n % 64)]

/-- `s.encode()` of a string without surrogates. -/
def encode (s : PyStr) : Bytes := s.flatMap encodeChar

/-- The code point of a decoded number. -/
def point (n : ℕ) : CodePoint := Fin.ofNat _ n

/-- `decode` inside a sequence: `need` bytes from `lo` to `hi`, then from 0x80 to 0xBF, complete `acc`. -/
def decodeFrom (need acc lo hi : ℕ) : Bytes → Option PyStr
  | [] => if need = 0 then some [] else none
  | b :: rest =>
    let n := b.toNat
    if need = 0 then
      if n < 0x80 then (decodeFrom 0 0 0 0 rest).map (point n :: ·)
      else if n < 0xC2 then none
      else if n < 0xE0 then decodeFrom 1 (n % 32) 0x80 0xBF rest
      else if n < 0xF0 then
        decodeFrom 2 (n % 16) (if n = 0xE0 then 0xA0 else 0x80) (if n = 0xED then 0x9F else 0xBF) rest
      else if n < 0xF5 then
        decodeFrom 3 (n % 8) (if n = 0xF0 then 0x90 else 0x80) (if n = 0xF4 then 0x8F else 0xBF) rest
      else none
    else if lo ≤ n ∧ n ≤ hi then
      if need = 1 then (decodeFrom 0 0 0 0 rest).map (point (acc * 64 + n % 64) :: ·)
      else decodeFrom (need - 1) (acc * 64 + n % 64) 0x80 0xBF rest
    else none

/-- `b.decode()`; `none` is its `UnicodeDecodeError`. -/
def decode (b : Bytes) : Option PyStr := decodeFrom 0 0 0 0 b

/-- U+FFFD. -/
def replacement : CodePoint := ⟨0xFFFD, by decide⟩

/-- `decodeFrom` with the error handler `replace`: a sequence that breaks off leaves one U+FFFD, and the byte that
breaks it off starts anew. -/
def replaceFrom (need acc lo hi : ℕ) : Bytes → PyStr
  | [] => if need = 0 then [] else [replacement]
  | b :: rest =>
    let n := b.toNat
    if need ≠ 0 ∧ lo ≤ n ∧ n ≤ hi then
      if need = 1 then point (acc * 64 + n % 64) :: replaceFrom 0 0 0 0 rest
      else replaceFrom (need - 1) (acc * 64 + n % 64) 0x80 0xBF rest
    else
      (if need = 0 then [] else [replacement]) ++
        if n < 0x80 then point n :: replaceFrom 0 0 0 0 rest
        else if n < 0xC2 then replacement :: replaceFrom 0 0 0 0 rest
        else if n < 0xE0 then replaceFrom 1 (n % 32) 0x80 0xBF rest
        else if n < 0xF0 then
          replaceFrom 2 (n % 16) (if n = 0xE0 then 0xA0 else 0x80) (if n = 0xED then 0x9F else 0xBF) rest
        else if n < 0xF5 then
          replaceFrom 3 (n % 8) (if n = 0xF0 then 0x90 else 0x80) (if n = 0xF4 then 0x8F else 0xBF) rest
        else replacement :: replaceFrom 0 0 0 0 rest

/-- `b.decode(errors="replace")`. -/
def decodeReplace (b : Bytes) : PyStr := replaceFrom 0 0 0 0 b

theorem encodeChar_ascii {c : CodePoint} (h : c.val < 0x80) : encodeChar c = [UInt8.ofNat c.val] := if_pos h

theorem decode_encode_ascii {s : PyStr} (h : ∀ c ∈ s, c.val < 0x80) : decode (encode s) = some s := by
  induction s with
  | nil => rfl
  | cons c s ih =>
    have hc : c.val < 0x80 := h c (List.mem_cons_self ..)
    have hs : decodeFrom 0 0 0 0 (encode s) = some s := ih fun d hd => h d (List.mem_cons_of_mem _ hd)
    have hn : (UInt8.ofNat c.val).toNat = c.val := by
      rw [UInt8.toNat_ofNat']
      omega
    have hp : point c.val = c := by
      apply Fin.ext
      show c.val % 0x110000 = c.val
      omega
    have he : encode (c :: s) = UInt8.ofNat c.val :: encode s := by
      rw [encode, List.flatMap_cons, encodeChar_ascii hc]
      rfl
    rw [he, decode, decodeFrom, hn, if_pos rfl, if_pos hc, hs, hp]
    rfl

/-- The last byte of a sequence. -/
theorem decodeFrom_last {acc lo hi : ℕ} {b : Bytes} {s : PyStr} (h : decodeFrom 1 acc lo hi b = some s) :
    ∃ x rest t, b = x :: rest ∧ (lo ≤ x.toNat ∧ x.toNat ≤ hi) ∧ decode rest = some t ∧
      s = point (acc * 64 + x.toNat % 64) :: t := by
  cases b with
  | nil => simp [decodeFrom] at h
  | cons x rest =>
    by_cases hx : lo ≤ x.toNat ∧ x.toNat ≤ hi
    · rw [decodeFrom, if_neg one_ne_zero, if_pos hx, if_pos rfl] at h
      obtain ⟨t, ht, rfl⟩ := Option.map_eq_some_iff.mp h
      exact ⟨x, rest, t, rfl, hx, ht, rfl⟩
    · rw [decodeFrom, if_neg one_ne_zero, if_neg hx] at h
      cases h

/-- A byte in the middle of a sequence. -/
theorem decodeFrom_more {k acc lo hi : ℕ} {b : Bytes} {s : PyStr} (h : decodeFrom (k + 2) acc lo hi b = some s) :
    ∃ x rest, b = x :: rest ∧ (lo ≤ x.toNat ∧ x.toNat ≤ hi) ∧
      decodeFrom (k + 1) (acc * 64 + x.toNat % 64) 0x80 0xBF rest = some s := by
  cases b with
  | nil => simp [decodeFrom] at h
  | cons x rest =>
    by_cases hx : lo ≤ x.toNat ∧ x.toNat ≤ hi
    · rw [decodeFrom, if_neg (by omega), if_pos hx, if_neg (by omega)] at h
      exact ⟨x, rest, rfl, hx, h⟩
    · rw [decodeFrom, if_neg (by omega), if_neg hx] at h
      cases h

theorem val_point {n : ℕ} (h : n < 0x110000) : (point n).val = n := Nat.mod_eq_of_lt h

theorem encodeChar_two {x y : UInt8} (hx : 0xC2 ≤ x.toNat ∧ x.toNat < 0xE0) (hy : 0x80 ≤ y.toNat ∧ y.toNat ≤ 0xBF) :
    encodeChar (point (x.toNat % 32 * 64 + y.toNat % 64)) = [x, y] := by
  have hv : (point (x.toNat % 32 * 64 + y.toNat % 64)).val = x.toNat % 32 * 64 + y.toNat % 64 := val_point (by omega)
  have h1 : 0xC0 + (x.toNat % 32 * 64 + y.toNat % 64) / 64 = x.toNat := by omega
  have h2 : 0x80 + (x.toNat % 32 * 64 + y.toNat % 64) % 64 = y.toNat := by omega
  rw [encodeChar, hv, if_neg (by omega), if_pos (by omega), ofNat_eq h1, ofNat_eq h2]

theorem encodeChar_three {x y z : UInt8} (hx : 0xE0 ≤ x.toNat ∧ x.toNat < 0xF0)
    (hy : (if x.toNat = 0xE0 then 0xA0 else 0x80) ≤ y.toNat ∧ y.toNat ≤ if x.toNat = 0xED then 0x9F else 0xBF)
    (hz : 0x80 ≤ z.toNat ∧ z.toNat ≤ 0xBF) :
    encodeChar (point ((x.toNat % 16 * 64 + y.toNat % 64) * 64 + z.toNat % 64)) = [x, y, z] := by
  have hlo : 0x80 ≤ y.toNat ∧ (x.toNat = 0xE0 → 0xA0 ≤ y.toNat) := by split_ifs at hy <;> omega
  have hhi : y.toNat ≤ 0xBF := by split_ifs at hy <;> omega
  obtain ⟨n, hn⟩ : ∃ n, (x.toNat % 16 * 64 + y.toNat % 64) * 64 + z.toNat % 64 = n := ⟨_, rfl⟩
  have h1 : 0xE0 + n / 4096 = x.toNat := by omega
  have h2 : 0x80 + n / 64 % 64 = y.toNat := by omega
  have h3 : 0x80 + n % 64 = z.toNat := by omega
  rw [hn, encodeChar, val_point (by omega), if_neg (by omega), if_neg (by omega), if_pos (by omega), ofNat_eq h1,
    ofNat_eq h2, ofNat_eq h3]

theorem encodeChar_four {x y z w : UInt8} (hx : 0xF0 ≤ x.toNat ∧ x.toNat < 0xF5)
    (hy : (if x.toNat = 0xF0 then 0x90 else 0x80) ≤ y.toNat ∧ y.toNat ≤ if x.toNat = 0xF4 then 0x8F else 0xBF)
    (hz : 0x80 ≤ z.toNat ∧ z.toNat ≤ 0xBF) (hw : 0x80 ≤ w.toNat ∧ w.toNat ≤ 0xBF) :
    encodeChar (point (((x.toNat % 8 * 64 + y.toNat % 64) * 64 + z.toNat % 64) * 64 + w.toNat % 64)) =
      [x, y, z, w] := by
  have hlo : 0x80 ≤ y.toNat ∧ (x.toNat = 0xF0 → 0x90 ≤ y.toNat) := by split_ifs at hy <;> omega
  have hhi : y.toNat ≤ 0xBF ∧ (x.toNat = 0xF4 → y.toNat ≤ 0x8F) := by split_ifs at hy <;> omega
  obtain ⟨n, hn⟩ : ∃ n, ((x.toNat % 8 * 64 + y.toNat % 64) * 64 + z.toNat % 64) * 64 + w.toNat % 64 = n := ⟨_, rfl⟩
  have h1 : 0xF0 + n / 262144 = x.toNat := by omega
  have h2 : 0x80 + n / 4096 % 64 = y.toNat := by omega
  have h3 : 0x80 + n / 64 % 64 = z.toNat := by omega
  have h4 : 0x80 + n % 64 = w.toNat := by omega
  rw [hn, encodeChar, val_point (by omega), if_neg (by omega), if_neg (by omega), if_neg (by omega), ofNat_eq h1,
    ofNat_eq h2, ofNat_eq h3, ofNat_eq h4]

/-- **What decodes is the encoding of its text.** -/
theorem encode_of_decode {b : Bytes} {s : PyStr} (h : decode b = some s) : encode s = b := by
  -- by the length: a sequence of up to four bytes comes off at once
  induction hn : b.length using Nat.strong_induction_on generalizing b s with
  | _ n ih =>
    cases b with
    | nil =>
      cases h
      rfl
    | cons x rest =>
      have tail : ∀ {r : Bytes} {t : PyStr}, decode r = some t → r.length ≤ rest.length → encode t = r := fun hr hl =>
        ih _ (by rw [← hn, List.length_cons]; omega) hr rfl
      rw [decode, decodeFrom, if_pos rfl] at h
      by_cases h1 : x.toNat < 0x80
      · rw [if_pos h1] at h
        obtain ⟨t, ht, rfl⟩ := Option.map_eq_some_iff.mp h
        rw [encode, List.flatMap_cons, encodeChar, val_point (by omega), if_pos h1, ofNat_eq rfl]
        exact congrArg (x :: ·) (tail ht le_rfl)
      rw [if_neg h1] at h
      by_cases h2 : x.toNat < 0xC2
      · rw [if_pos h2] at h
        cases h
      rw [if_neg h2] at h
      by_cases h3 : x.toNat < 0xE0
      · rw [if_pos h3] at h
        obtain ⟨y, r, t, rfl, hy, ht, rfl⟩ := decodeFrom_last h
        rw [encode, List.flatMap_cons, encodeChar_two (by omega) hy]
        exact congrArg ([x, y] ++ ·) (tail ht (by simp))
      rw [if_neg h3] at h
      by_cases h4 : x.toNat < 0xF0
      · rw [if_pos h4] at h
        obtain ⟨y, r, rfl, hy, h⟩ := decodeFrom_more (k := 0) h
        obtain ⟨z, r, t, rfl, hz, ht, rfl⟩ := decodeFrom_last h
        rw [encode, List.flatMap_cons, encodeChar_three (by omega) hy hz]
        exact congrArg ([x, y, z] ++ ·) (tail ht (by simp; omega))
      rw [if_neg h4] at h
      by_cases h5 : x.toNat < 0xF5
      · rw [if_pos h5] at h
        obtain ⟨y, r, rfl, hy, h⟩ := decodeFrom_more (k := 1) h
        obtain ⟨z, r, rfl, hz, h⟩ := decodeFrom_more (k := 0) h
        obtain ⟨w, r, t, rfl, hw, ht, rfl⟩ := decodeFrom_last h
        rw [encode, List.flatMap_cons, encodeChar_four (by omega) hy hz hw]
        exact congrArg ([x, y, z, w] ++ ·) (tail ht (by simp; omega))
      · rw [if_neg h5] at h
        cases h

theorem decode_inj {b b' : Bytes} {s : PyStr} (h : decode b = some s) (h' : decode b' = some s) : b = b' := by
  rw [← encode_of_decode h, encode_of_decode h']

/-! What is decoded with `replace`, of a text and of a text that breaks off. -/

theorem decodeFrom_ne_nil {need acc lo hi : ℕ} {b : Bytes} (h0 : need ≠ 0) : decodeFrom need acc lo hi b ≠ some [] := by
  induction b generalizing need acc lo hi with
  | nil => simp [decodeFrom, h0]
  | cons x rest ih =>
    rw [decodeFrom, if_neg h0]
    split_ifs
    · intro h
      obtain ⟨t, -, ht⟩ := Option.map_eq_some_iff.mp h
      cases ht
    · exact ih (by omega)
    · exact nofun

/-- What `replace` makes of a text that breaks off: whole characters, and U+FFFD for one that is cut in two. -/
def Breaks (read s : PyStr) : Prop :=
  ∃ s₀ s₁, s = s₀ ++ s₁ ∧ (read = s₀ ∨ (s₁ ≠ [] ∧ read = s₀ ++ [replacement]))

theorem Breaks.cons {read s : PyStr} (h : Breaks read s) (c : CodePoint) : Breaks (c :: read) (c :: s) := by
  obtain ⟨s₀, s₁, rfl, rfl | ⟨h1, rfl⟩⟩ := h
  · exact ⟨c :: read, s₁, rfl, Or.inl rfl⟩
  · exact ⟨c :: s₀, s₁, rfl, Or.inr ⟨h1, rfl⟩⟩

theorem breaks_nil {need acc lo hi : ℕ} {b : Bytes} {s : PyStr} (h : decodeFrom need acc lo hi b = some s) :
    Breaks (replaceFrom need acc lo hi []) s := by
  refine ⟨[], s, rfl, ?_⟩
  rw [replaceFrom]
  by_cases h0 : need = 0
  · exact Or.inl (if_pos h0)
  · refine Or.inr ⟨?_, if_neg h0⟩
    rintro rfl
    exact decodeFrom_ne_nil h0 h

theorem replaceFrom_take {need acc lo hi : ℕ} {b : Bytes} {s : PyStr} (h : decodeFrom need acc lo hi b = some s)
    (n : ℕ) : Breaks (replaceFrom need acc lo hi (b.take n)) s := by
  induction b generalizing need acc lo hi s n with
  | nil =>
    rw [List.take_nil]
    exact breaks_nil h
  | cons x rest ih =>
    cases n with
    | zero => exact breaks_nil h
    | succ n =>
      have char : ∀ {o : Option PyStr} {c : CodePoint} {s : PyStr}, o = decodeFrom 0 0 0 0 rest →
          o.map (c :: ·) = some s → Breaks (c :: replaceFrom 0 0 0 0 (rest.take n)) s := by
        intro o c s ho h
        obtain ⟨t, ht, rfl⟩ := Option.map_eq_some_iff.mp h
        exact (ih (ho ▸ ht) n).cons c
      rw [List.take_succ_cons, replaceFrom]
      rw [decodeFrom] at h
      by_cases h0 : need = 0
      · simp only [h0, ne_eq, not_true_eq_false, false_and, if_false, if_true, List.nil_append] at h ⊢
        split_ifs at h ⊢
        · exact char rfl h
        all_goals exact ih h n
      · rw [if_neg h0] at h
        by_cases hr : lo ≤ x.toNat ∧ x.toNat ≤ hi
        · rw [if_pos hr] at h
          rw [if_pos ⟨h0, hr⟩]
          split_ifs at h ⊢
          · exact char rfl h
          · exact ih h n
        · rw [if_neg hr] at h
          cases h

/-- **A text that breaks off is read up to the character it breaks off in.** -/
theorem decodeReplace_take {b : Bytes} {s : PyStr} (h : decode b = some s) (n : ℕ) :
    Breaks (decodeReplace (b.take n)) s := replaceFrom_take h n

theorem replaceFrom_eq {need acc lo hi : ℕ} {b : Bytes} {s : PyStr} (h : decodeFrom need acc lo hi b = some s) :
    replaceFrom need acc lo hi b = s := by
  induction b generalizing need acc lo hi s with
  | nil =>
    rw [decodeFrom] at h
    split_ifs at h with h0
    cases h
    exact if_pos h0
  | cons x rest ih =>
    have char : ∀ {c : CodePoint} {s : PyStr}, (decodeFrom 0 0 0 0 rest).map (c :: ·) = some s →
        c :: replaceFrom 0 0 0 0 rest = s := by
      intro c s h
      obtain ⟨t, ht, rfl⟩ := Option.map_eq_some_iff.mp h
      rw [ih ht]
    rw [replaceFrom]
    rw [decodeFrom] at h
    by_cases h0 : need = 0
    · simp only [h0, ne_eq, not_true_eq_false, false_and, if_false, if_true, List.nil_append] at h ⊢
      split_ifs at h ⊢
      · exact char h
      all_goals exact ih h
    · rw [if_neg h0] at h
      by_cases hr : lo ≤ x.toNat ∧ x.toNat ≤ hi
      · rw [if_pos hr] at h
        rw [if_pos ⟨h0, hr⟩]
        split_ifs at h ⊢
        · exact char h
        · exact ih h
      · rw [if_neg hr] at h
        cases h

/-- With nothing to replace, `replace` decodes like `strict`. -/
theorem decodeReplace_of_decode {b : Bytes} {s : PyStr} (h : decode b = some s) : decodeReplace b = s :=
  replaceFrom_eq h

/-- Not a surrogate, which UTF-8 does not encode. -/
def isScalar (c : CodePoint) : Bool := c.val < 0xD800 || 0xDFFF < c.val

theorem toNat_ofNat {n : ℕ} (h : n < 256) : (UInt8.ofNat n).toNat = n := by
  rw [UInt8.toNat_ofNat']
  exact Nat.mod_eq_of_lt h

theorem point_eq {n : ℕ} {c : CodePoint} (h : n = c.val) : point n = c := by
  apply Fin.ext
  show n % 0x110000 = c.val
  omega

/-- A byte that continues a sequence. -/
theorem decodeFrom_tail {k acc lo hi n : ℕ} (rest : Bytes) (hn : lo ≤ 0x80 + n ∧ 0x80 + n ≤ hi) (h : n < 64) :
    decodeFrom (k + 2) acc lo hi (UInt8.ofNat (0x80 + n) :: rest) = decodeFrom (k + 1) (acc * 64 + n) 0x80 0xBF rest := by
  rw [decodeFrom, if_neg (by omega), toNat_ofNat (by omega), if_pos hn, if_neg (by omega),
    show (0x80 + n) % 64 = n by omega]
  rfl

/-- The byte that ends it. -/
theorem decodeFrom_end {acc lo hi n : ℕ} (rest : Bytes) (hn : lo ≤ 0x80 + n ∧ 0x80 + n ≤ hi) (h : n < 64) :
    decodeFrom 1 acc lo hi (UInt8.ofNat (0x80 + n) :: rest) = (decodeFrom 0 0 0 0 rest).map (point (acc * 64 + n) :: ·) := by
  rw [decodeFrom, if_neg one_ne_zero, toNat_ofNat (by omega), if_pos hn, if_pos rfl, show (0x80 + n) % 64 = n by omega]

/-- A character is read back. -/
theorem decodeFrom_encodeChar {c : CodePoint} (h : isScalar c = true) (rest : Bytes) :
    decodeFrom 0 0 0 0 (encodeChar c ++ rest) = (decodeFrom 0 0 0 0 rest).map (c :: ·) := by
  have hc := c.isLt
  have hs : c.val < 0xD800 ∨ 0xDFFF < c.val := by simpa [isScalar] using h
  unfold encodeChar
  generalize hv : c.val = n at hc hs
  dsimp only
  by_cases h1 : n < 0x80
  · rw [if_pos h1, List.cons_append, decodeFrom, if_pos rfl, toNat_ofNat (by omega), if_pos h1, point_eq hv.symm]
    rfl
  rw [if_neg h1]
  by_cases h2 : n < 0x800
  · rw [if_pos h2, List.cons_append, decodeFrom, if_pos rfl, toNat_ofNat (by omega), if_neg (by omega), if_neg (by omega),
      if_pos (by omega), List.cons_append, decodeFrom_end _ (by omega) (by omega), point_eq (c := c) (by omega)]
    rfl
  rw [if_neg h2]
  by_cases h3 : n < 0x10000
  · rw [if_pos h3, List.cons_append, decodeFrom, if_pos rfl, toNat_ofNat (by omega), if_neg (by omega), if_neg (by omega),
      if_neg (by omega), if_pos (by omega), List.cons_append, decodeFrom_tail _ (by split_ifs <;> omega) (by omega),
      List.cons_append, decodeFrom_end _ (by omega) (by omega), point_eq (c := c) (by omega)]
    rfl
  · rw [if_neg h3, List.cons_append, decodeFrom, if_pos rfl, toNat_ofNat (by omega), if_neg (by omega), if_neg (by omega),
      if_neg (by omega), if_neg (by omega), if_pos (by omega), List.cons_append,
      decodeFrom_tail _ (by split_ifs <;> omega) (by omega), List.cons_append,
      decodeFrom_tail _ (by omega) (by omega), List.cons_append, decodeFrom_end _ (by omega) (by omega),
      point_eq (c := c) (by omega)]
    rfl

/-- **A text without surrogates is read back.** -/
theorem decode_encode {s : PyStr} (h : s.all isScalar = true) : decode (encode s) = some s := by
  induction s with
  | nil => rfl
  | cons c s ih =>
    obtain ⟨hc, hs⟩ := (Bool.and_eq_true _ _).mp (List.all_cons .. ▸ h)
    have hrest : decodeFrom 0 0 0 0 (encode s) = some s := ih hs
    rw [encode, List.flatMap_cons, decode, decodeFrom_encodeChar hc]
    show (decodeFrom 0 0 0 0 (encode s)).map _ = _
    rw [hrest]
    rfl

end Utf8

/-! ## Base64 -/

namespace Base64

/-- The URL-safe alphabet. -/
def alphabet : PyStr := lit "ABCDEFGHIJKLMNOPQRSTUVWXYZabcdefghijklmnopqrstuvwxyz0123456789-_"

def char (n : ℕ) : CodePoint := alphabet.getD n (cp '=')

/-- `base64.urlsafe_b64encode(b).decode()`. -/
def encode : Bytes → PyStr
  | [] => []
  | [a] => [char (a.toNat / 4), char (a.toNat % 4 * 16), cp '=', cp '=']
  | [a, b] => [char (a.toNat / 4), char (a.toNat % 4 * 16 + b.toNat / 16), char (b.toNat % 16 * 4), cp '=']
  | a :: b :: c :: rest =>
    char (a.toNat / 4) :: char (a.toNat % 4 * 16 + b.toNat / 16) :: char (b.toNat % 16 * 4 + c.toNat / 64) ::
      char (c.toNat % 64) :: encode rest

/-- The table of `binascii.a2b_base64` behind the translation of `-` and `_`. -/
def value (c : CodePoint) : Option ℕ :=
  let n := c.val
  if 0x41 ≤ n ∧ n ≤ 0x5A then some (n - 0x41)
  else if 0x61 ≤ n ∧ n ≤ 0x7A then some (n - 0x61 + 26)
  else if 0x30 ≤ n ∧ n ≤ 0x39 then some (n - 0x30 + 52)
  else if c = cp '+' ∨ c = cp '-' then some 62
  else if c = cp '/' ∨ c = cp '_' then some 63
  else none

/-- `binascii.a2b_base64` from the position `quad` of a quadruple on, with the bits `left` over and `pads`
padding characters seen. -/
def decodeFrom (quad left pads : ℕ) : PyStr → Option Bytes
  | [] => if quad = 0 then some [] else none
  | c :: s =>
    if c = cp '=' then
      if quad < 2 then decodeFrom quad left pads s
      else if 4 ≤ quad + (pads + 1) then some []
      else decodeFrom quad left (pads + 1) s
    else match value c with
      | none => decodeFrom quad left pads s
      | some v =>
        match quad with
        | 0 => decodeFrom 1 v 0 s
        | 1 => (decodeFrom 2 (v % 16) 0 s).map (UInt8.ofNat (left * 4 + v / 16) :: ·)
        | 2 => (decodeFrom 3 (v % 4) 0 s).map (UInt8.ofNat (left * 16 + v / 4) :: ·)
        | _ => (decodeFrom 0 0 0 s).map (UInt8.ofNat (left * 64 + v) :: ·)

/-- `base64.urlsafe_b64decode(s)`. -/
def decode (s : PyStr) : Option Bytes :=
  if s.all fun c => c.val < 0x80 then decodeFrom 0 0 0 s else none

/-- `s.rstrip("=")`. -/
def rstrip (s : PyStr) : PyStr := (s.reverse.dropWhile fun c => c = cp '=').reverse

/-- `s + "=" * (-len(s) % 4)`. -/
def repad (s : PyStr) : PyStr := s ++ List.replicate ((4 - s.length % 4) % 4) (cp '=')

theorem char_spec : ∀ n : Fin 64, value (char n) = some n.val ∧ char n ≠ cp '=' ∧ (char n).val < 0x80 := by
  decide +kernel

theorem value_char {n : ℕ} (h : n < 64) : value (char n) = some n := (char_spec ⟨n, h⟩).1

theorem char_ne_pad {n : ℕ} (h : n < 64) : char n ≠ cp '=' := (char_spec ⟨n, h⟩).2.1

theorem char_ascii {n : ℕ} (h : n < 64) : (char n).val < 0x80 := (char_spec ⟨n, h⟩).2.2

/-- One character of the alphabet. -/
theorem decodeFrom_char {n : ℕ} (h : n < 64) (quad left pads : ℕ) (s : PyStr) :
    decodeFrom quad left pads (char n :: s) =
      match quad with
      | 0 => decodeFrom 1 n 0 s
      | 1 => (decodeFrom 2 (n % 16) 0 s).map (UInt8.ofNat (left * 4 + n / 16) :: ·)
      | 2 => (decodeFrom 3 (n % 4) 0 s).map (UInt8.ofNat (left * 16 + n / 4) :: ·)
      | _ => (decodeFrom 0 0 0 s).map (UInt8.ofNat (left * 64 + n) :: ·) := by
  rw [decodeFrom, if_neg (char_ne_pad h), value_char h]

theorem decodeFrom_encode (bs : Bytes) : decodeFrom 0 0 0 (encode bs) = some bs := by
  induction bs using encode.induct with
  | case1 => rfl
  | case2 a =>
    have ha := a.toNat_lt
    have h1 : a.toNat / 4 * 4 + a.toNat % 4 * 16 / 16 = a.toNat := by omega
    rw [encode, decodeFrom_char (by omega), decodeFrom_char (by omega)]
    simp only [ofNat_eq h1]
    rfl
  | case3 a b =>
    have ha := a.toNat_lt
    have hb := b.toNat_lt
    have h1 : a.toNat / 4 * 4 + (a.toNat % 4 * 16 + b.toNat / 16) / 16 = a.toNat := by omega
    have h2 : (a.toNat % 4 * 16 + b.toNat / 16) % 16 * 16 + b.toNat % 16 * 4 / 4 = b.toNat := by omega
    rw [encode]
    simp (disch := omega) only [decodeFrom_char, ofNat_eq h1, ofNat_eq h2]
    rfl
  | case4 a b c rest ih =>
    have ha := a.toNat_lt
    have hb := b.toNat_lt
    have hc := c.toNat_lt
    have h1 : a.toNat / 4 * 4 + (a.toNat % 4 * 16 + b.toNat / 16) / 16 = a.toNat := by omega
    have h2 : (a.toNat % 4 * 16 + b.toNat / 16) % 16 * 16 + (b.toNat % 16 * 4 + c.toNat / 64) / 4 = b.toNat := by
      omega
    have h3 : (b.toNat % 16 * 4 + c.toNat / 64) % 4 * 64 + c.toNat % 64 = c.toNat := by omega
    rw [encode]
    simp (disch := omega) only [decodeFrom_char, ofNat_eq h1, ofNat_eq h2, ofNat_eq h3, ih]
    rfl

/-- The text is full quadruples: characters of the alphabet and at most two paddings. -/
theorem encode_shape (bs : Bytes) : ∃ t k, encode bs = t ++ List.replicate k (cp '=') ∧ k < 4 ∧
    (t.length + k) % 4 = 0 ∧ ∀ c ∈ t, c ≠ cp '=' ∧ c.val < 0x80 := by
  induction bs using encode.induct with
  | case1 => exact ⟨[], 0, rfl, by omega, rfl, by simp⟩
  | case2 a =>
    have ha := a.toNat_lt
    refine ⟨[_, _], 2, rfl, by omega, by simp, ?_⟩
    simp only [List.forall_mem_cons]
    refine ⟨⟨char_ne_pad (by omega), char_ascii (by omega)⟩, ⟨char_ne_pad (by omega), char_ascii (by omega)⟩, ?_⟩
    simp
  | case3 a b =>
    have ha := a.toNat_lt
    have hb := b.toNat_lt
    refine ⟨[_, _, _], 1, rfl, by omega, by simp, ?_⟩
    simp only [List.forall_mem_cons]
    refine ⟨⟨char_ne_pad (by omega), char_ascii (by omega)⟩, ⟨char_ne_pad (by omega), char_ascii (by omega)⟩,
      ⟨char_ne_pad (by omega), char_ascii (by omega)⟩, ?_⟩
    simp
  | case4 a b c rest ih =>
    have ha := a.toNat_lt
    have hb := b.toNat_lt
    have hc := c.toNat_lt
    obtain ⟨t, k, he, hk, hl, ht⟩ := ih
    refine ⟨_ :: _ :: _ :: _ :: t, k, by rw [encode, he]; rfl, hk, by simp only [List.length_cons]; omega, ?_⟩
    simp only [List.forall_mem_cons]
    exact ⟨⟨char_ne_pad (by omega), char_ascii (by omega)⟩, ⟨char_ne_pad (by omega), char_ascii (by omega)⟩,
      ⟨char_ne_pad (by omega), char_ascii (by omega)⟩, ⟨char_ne_pad (by omega), char_ascii (by omega)⟩, ht⟩

theorem rstrip_append {t : PyStr} (ht : ∀ c ∈ t, c ≠ cp '=') (k : ℕ) :
    rstrip (t ++ List.replicate k (cp '=')) = t := by
  have hp : (List.replicate k (cp '=') ++ t.reverse).dropWhile (fun c => c = cp '=') = t.reverse := by
    induction k with
    | zero =>
      cases h : t.reverse with
      | nil => rfl
      | cons c r =>
        have hc : c ∈ t := by
          rw [← List.mem_reverse, h]
          exact List.mem_cons_self ..
        simp [ht c hc]
    | succ k ih => simpa [List.replicate_succ] using ih
  rw [rstrip, List.reverse_append, List.reverse_replicate, hp, List.reverse_reverse]

/-- **Stripping and recomputing the padding loses nothing.** -/
theorem decode_repad_rstrip (bs : Bytes) : decode (repad (rstrip (encode bs))) = some bs := by
  obtain ⟨t, k, he, hk, hl, ht⟩ := encode_shape bs
  have hs : repad (rstrip (encode bs)) = encode bs := by
    rw [he, rstrip_append (fun c hc => (ht c hc).1), repad]
    congr 2
    omega
  have ha : ((encode bs).all fun c => c.val < 0x80) = true := by
    rw [List.all_eq_true, he]
    intro c hc
    rcases List.mem_append.mp hc with hc | hc
    · exact decide_eq_true (ht c hc).2
    · rw [List.eq_of_mem_replicate hc]
      decide
  rw [hs, decode, if_pos ha, decodeFrom_encode]

end Base64

end Aeh
