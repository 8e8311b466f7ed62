import Aeh.Py.Text

/-!
# Uuid — Python's `uuid.UUID`

`Uuid.str` is `str(u)`, `Uuid.parse` is `uuid.UUID(s)`, whose `ValueError` is `none`.  The parser goes
through `int(…, 16)`, which reads more than hexadecimal digits: surrounding blanks, a sign, a `0x`, single
underscores and the decimal digits of every script.
-/

namespace Aeh

abbrev Uuid := Fin (2 ^ 128)

namespace Uuid

instance neZero : NeZero (2 ^ 128) := ⟨by decide⟩

/-- The lower-case hexadecimal digit of `n % 16`. -/
def hexDigit (n : ℕ) : CodePoint :=
  if h : n % 16 < 10 then ⟨0x30 + n % 16, by omega⟩ else ⟨0x61 + (n % 16 - 10), by omega⟩

/-- `f"{n:0wx}"` of an `n` below `16 ^ w`. -/
def toHex : ℕ → ℕ → PyStr
  | 0, _ => []
  | w + 1, n => toHex w (n / 16) ++ [hexDigit n]

/-- `str(u)`: 8-4-4-4-12 hexadecimal digits. -/
def str (u : Uuid) : PyStr :=
  toHex 8 (u.val / 16 ^ 24) ++ lit "-" ++ toHex 4 (u.val / 16 ^ 20) ++ lit "-" ++ toHex 4 (u.val / 16 ^ 16) ++
    lit "-" ++ toHex 4 (u.val / 16 ^ 12) ++ lit "-" ++ toHex 12 u.val

/-- The zeros of Unicode 15's decimal digits; each block is ten consecutive code points. -/
def decimalZeros : List ℕ :=
  [0x30, 0x660, 0x6f0, 0x7c0, 0x966, 0x9e6, 0xa66, 0xae6, 0xb66, 0xbe6, 0xc66, 0xce6, 0xd66, 0xde6, 0xe50,
    0xed0, 0xf20, 0x1040, 0x1090, 0x17e0, 0x1810, 0x1946, 0x19d0, 0x1a80, 0x1a90, 0x1b50, 0x1bb0, 0x1c40,
    0x1c50, 0xa620, 0xa8d0, 0xa900, 0xa9d0, 0xa9f0, 0xaa50, 0xabf0, 0xff10, 0x104a0, 0x10d30, 0x11066,
    0x110f0, 0x11136, 0x111d0, 0x112f0, 0x11450, 0x114d0, 0x11650, 0x116c0, 0x11730, 0x118e0, 0x11950,
    0x11c50, 0x11d50, 0x11da0, 0x11f50, 0x16a60, 0x16ac0, 0x16b50, 0x1d7ce, 0x1d7d8, 0x1d7e2, 0x1d7ec,
    0x1d7f6, 0x1e140, 0x1e2f0, 0x1e4f0, 0x1e950, 0x1fbf0]

/-- `_PyUnicode_TransformDecimalAndSpaceToASCII` of one character. -/
def toAscii (c : CodePoint) : CodePoint :=
  if c.val < 128 then c
  else if isSpace c then cp ' '
  else match decimalZeros.find? fun z => z ≤ c.val ∧ c.val < z + 10 with
    | some z => Fin.ofNat _ (0x30 + (c.val - z))
    | none => cp '?'

/-- `Py_ISSPACE`. -/
def isAsciiSpace (c : CodePoint) : Bool := (0x09 ≤ c.val && c.val ≤ 0x0D) || c.val = 0x20

def hexValue (c : CodePoint) : Option ℕ :=
  if 0x30 ≤ c.val ∧ c.val ≤ 0x39 then some (c.val - 0x30)
  else if 0x61 ≤ c.val ∧ c.val ≤ 0x66 then some (c.val - 0x61 + 10)
  else if 0x41 ≤ c.val ∧ c.val ≤ 0x46 then some (c.val - 0x41 + 10)
  else none

/-- The digits of `int(…, 16)`; `digit` says that the character before was one, so that an underscore
stands only between two digits. -/
def hexDigits (digit : Bool) (n : ℕ) : PyStr → Option ℕ
  | [] => if digit then some n else none
  | c :: s =>
    if c = cp '_' then if digit then hexDigits false n s else none
    else match hexValue c with
      | some d => hexDigits true (16 * n + d) s
      | none => none

/-- The prefix `0x` with the one underscore allowed behind it. -/
def dropHexPrefix (s : PyStr) : PyStr :=
  if startsWith s (lit "0x") || startsWith s (lit "0X") then
    if (s.drop 2).head? = some (cp '_') then s.drop 3 else s.drop 2
  else s

/-- `int(s, 16)` of a string without `-`. -/
def parseHex (s : PyStr) : Option ℕ :=
  let s := (((s.map toAscii).dropWhile isAsciiSpace).reverse.dropWhile isAsciiSpace).reverse
  hexDigits false 0 (dropHexPrefix (if s.head? = some (cp '+') then s.tail else s))

/-- `s.replace(w, "")`; `skip` characters of a found `w` are still to be dropped. -/
def removeWord (w : PyStr) : ℕ → PyStr → PyStr
  | _, [] => []
  | skip + 1, _ :: s => removeWord w skip s
  | 0, c :: s => if w.isPrefixOf (c :: s) then removeWord w (w.length - 1) s else c :: removeWord w 0 s

/-- `s.strip("{}")`. -/
def stripBraces (s : PyStr) : PyStr :=
  let brace : CodePoint → Bool := fun c => c.val = 0x7b || c.val = 0x7d
  ((s.dropWhile brace).reverse.dropWhile brace).reverse

/-- `uuid.UUID(s)`. -/
def parse (s : PyStr) : Option Uuid := do
  let hex := (stripBraces (removeWord (lit "uuid:") 0 (removeWord (lit "urn:") 0 s))).filter (· ≠ cp '-')
  if hex.length ≠ 32 then none
  else
    let n ← parseHex hex
    if h : n < 2 ^ 128 then some ⟨n, h⟩ else none

/-! ## `parse` reads what `str` writes -/

@[simp] theorem length_toHex (w n : ℕ) : (toHex w n).length = w := by
  induction w generalizing n with
  | zero => rfl
  | succ w ih => rw [toHex, List.length_append, ih, List.length_singleton]

/-- A digit `hexDigit` writes. -/
def isHexDigit (c : CodePoint) : Bool := (0x30 ≤ c.val && c.val ≤ 0x39) || (0x61 ≤ c.val && c.val ≤ 0x66)

theorem hexDigit_val (n : ℕ) : (hexDigit n).val = if n % 16 < 10 then 0x30 + n % 16 else 0x61 + (n % 16 - 10) := by
  unfold hexDigit
  split_ifs <;> rfl

theorem isHexDigit_hexDigit (n : ℕ) : isHexDigit (hexDigit n) = true := by
  simp only [isHexDigit, hexDigit_val, Bool.or_eq_true, Bool.and_eq_true, decide_eq_true_eq]
  split_ifs <;> omega

theorem hexValue_hexDigit (n : ℕ) : hexValue (hexDigit n) = some (n % 16) := by
  unfold hexValue
  rw [hexDigit_val]
  split_ifs <;> (congr 1; omega)

theorem isHexDigit_of_mem {w n : ℕ} {c : CodePoint} (h : c ∈ toHex w n) : isHexDigit c = true := by
  induction w generalizing n with
  | zero => simp [toHex] at h
  | succ w ih =>
    rcases List.mem_append.mp h with h | h
    · exact ih h
    · rw [List.mem_singleton.mp h]
      exact isHexDigit_hexDigit n

/-- What is no digit does not occur in a number. -/
theorem not_mem_toHex {c : CodePoint} (hc : isHexDigit c = false) (w n : ℕ) : c ∉ toHex w n := by
  intro h
  rw [isHexDigit_of_mem h] at hc
  cases hc

theorem isHexDigit_iff {c : CodePoint} :
    isHexDigit c = true ↔ (0x30 ≤ c.val ∧ c.val ≤ 0x39) ∨ (0x61 ≤ c.val ∧ c.val ≤ 0x66) := by
  simp [isHexDigit]

theorem toHex_append (v w n : ℕ) : toHex v (n / 16 ^ w) ++ toHex w n = toHex (v + w) n := by
  induction w generalizing n with
  | zero => simp [toHex]
  | succ w ih =>
    rw [toHex, ← List.append_assoc, Nat.pow_succ, Nat.mul_comm, ← Nat.div_div_eq_div_mul, ih]
    rfl

theorem hexDigits_toHex (w n acc : ℕ) (digit : Bool) (s : PyStr) : hexDigits digit acc (toHex w n ++ s) =
    hexDigits (digit || decide (0 < w)) (acc * 16 ^ w + n % 16 ^ w) s := by
  induction w generalizing n s with
  | zero => simp [toHex, Nat.mod_one]
  | succ w ih =>
    have hu : hexDigit n ≠ cp '_' := by
      intro h
      have := isHexDigit_hexDigit n
      rw [h] at this
      exact absurd this (by decide)
    have hv : 16 * (acc * 16 ^ w + n / 16 % 16 ^ w) + n % 16 = acc * 16 ^ (w + 1) + n % 16 ^ (w + 1) := by
      rw [Nat.pow_succ, Nat.mul_comm (16 ^ w) 16, Nat.mod_mul, Nat.mul_add, Nat.mul_left_comm]
      omega
    rw [toHex, List.append_assoc, ih, List.singleton_append, hexDigits, if_neg hu, hexValue_hexDigit]
    simp only [hv]
    simp

theorem dropWhile_of_forall {p : CodePoint → Bool} {s : PyStr} (h : ∀ c ∈ s, p c = false) : s.dropWhile p = s := by
  cases s with
  | nil => rfl
  | cons c s => rw [List.dropWhile_cons_of_neg (by rw [h c (List.mem_cons_self ..)]; simp)]

/-- Nothing to strip. -/
theorem trim_of_forall {p : CodePoint → Bool} {s : PyStr} (h : ∀ c ∈ s, p c = false) :
    ((s.dropWhile p).reverse.dropWhile p).reverse = s := by
  rw [dropWhile_of_forall h, dropWhile_of_forall fun c hc => h c (List.mem_reverse.mp hc), List.reverse_reverse]

theorem removeWord_of_not_mem {c : CodePoint} (w : PyStr) {s : PyStr} (h : c ∉ s) : removeWord (c :: w) 0 s = s := by
  induction s with
  | nil => rfl
  | cons d s ih =>
    rw [List.mem_cons, not_or] at h
    obtain ⟨hd, hs⟩ := h
    have hp : ¬ (c :: w).isPrefixOf (d :: s) = true := by
      rw [List.isPrefixOf_iff_prefix]
      exact fun hp => hd (List.cons_prefix_cons.mp hp).1
    rw [removeWord, if_neg hp, ih hs]

theorem parseHex_toHex {n : ℕ} (hn : n < 2 ^ 128) : parseHex (toHex 32 n) = some n := by
  have hmap : (toHex 32 n).map toAscii = toHex 32 n := by
    refine (List.map_congr_left fun c hc => ?_).trans (List.map_id _)
    have := isHexDigit_iff.mp (isHexDigit_of_mem hc)
    exact if_pos (by omega)
  have htrim : (((toHex 32 n).dropWhile isAsciiSpace).reverse.dropWhile isAsciiSpace).reverse = toHex 32 n := by
    refine trim_of_forall fun c hc => ?_
    have := isHexDigit_iff.mp (isHexDigit_of_mem hc)
    simp only [isAsciiSpace, Bool.or_eq_false_iff, Bool.and_eq_false_iff, decide_eq_false_iff_not]
    omega
  have hsign : (toHex 32 n).head? ≠ some (cp '+') := fun h =>
    not_mem_toHex (by decide) 32 n (List.mem_of_mem_head? h)
  have hstart : ∀ p : PyStr, ∀ c ∈ p, isHexDigit c = false → startsWith (toHex 32 n) p = false := by
    intro p c hp hc
    rw [startsWith, ← Bool.not_eq_true, List.isPrefixOf_iff_prefix]
    exact fun h => not_mem_toHex hc 32 n (h.subset hp)
  have hx : dropHexPrefix (toHex 32 n) = toHex 32 n := by
    unfold dropHexPrefix
    rw [hstart (lit "0x") (cp 'x') (by decide) (by decide), hstart (lit "0X") (cp 'X') (by decide) (by decide)]
    rfl
  unfold parseHex
  simp only [hmap, htrim, if_neg hsign, hx]
  have hd := hexDigits_toHex 32 n 0 false []
  rw [List.append_nil, Nat.zero_mul, Nat.zero_add, Nat.mod_eq_of_lt (by omega)] at hd
  exact hd

theorem parse_hex {s : PyStr} {n : ℕ} (hn : n < 2 ^ 128) (hu : cp 'u' ∉ s) (hl : cp '\x7b' ∉ s) (hr : cp '\x7d' ∉ s)
    (hs : s.filter (· ≠ cp '-') = toHex 32 n) : parse s = some ⟨n, hn⟩ := by
  have hb : stripBraces s = s := by
    refine trim_of_forall fun c hc => ?_
    have h1 : c.val ≠ 0x7b := fun h => hl (by rwa [← show c = cp '\x7b' from Fin.ext h])
    have h2 : c.val ≠ 0x7d := fun h => hr (by rwa [← show c = cp '\x7d' from Fin.ext h])
    simp [h1, h2]
  have h1 : removeWord (lit "urn:") 0 s = s := removeWord_of_not_mem (lit "rn:") hu
  have h2 : removeWord (lit "uuid:") 0 s = s := removeWord_of_not_mem (lit "uid:") hu
  unfold parse
  simp only [h1, h2, hb, hs, length_toHex, parseHex_toHex hn, ne_eq, not_true_eq_false, if_false, Option.bind_eq_bind,
    Option.bind_some, dif_pos hn]

theorem mem_str {u : Uuid} {c : CodePoint} (h : c ∈ u.str) : isHexDigit c = true ∨ c = cp '-' := by
  have hdash : ∀ c, c ∈ lit "-" ↔ c = cp '-' := by simp [lit]
  simp only [str, List.mem_append, hdash] at h
  by_cases hc : c = cp '-'
  · exact Or.inr hc
  · simp only [hc, or_false] at h
    rcases h with (((h | h) | h) | h) | h <;> exact Or.inl (isHexDigit_of_mem h)

/-- **`uuid.UUID(str(u))` is `u`.** -/
theorem parse_str (u : Uuid) : parse u.str = some u := by
  have hmem : ∀ c, isHexDigit c = false → c ≠ cp '-' → c ∉ u.str := by
    intro c hc hd h
    rcases mem_str h with h | h
    · rw [hc] at h
      cases h
    · exact hd h
  have hfilter : ∀ w n, (toHex w n).filter (· ≠ cp '-') = toHex w n := by
    intro w n
    refine List.filter_eq_self.mpr fun c hc => decide_eq_true ?_
    rintro rfl
    exact not_mem_toHex (by decide) w n hc
  have hdash : (lit "-").filter (· ≠ cp '-') = [] := by decide
  refine parse_hex u.isLt (hmem _ (by decide) (by decide)) (hmem _ (by decide) (by decide))
    (hmem _ (by decide) (by decide)) ?_
  have h1 := toHex_append 8 4 (u.val / 16 ^ 20)
  have h2 := toHex_append 12 4 (u.val / 16 ^ 16)
  have h3 := toHex_append 16 4 (u.val / 16 ^ 12)
  have h4 := toHex_append 20 12 u.val
  rw [Nat.div_div_eq_div_mul, ← Nat.pow_add] at h1 h2 h3
  simp only [str, List.filter_append, hfilter, hdash, List.append_nil, h1, h2, h3, h4]

end Uuid

end Aeh
