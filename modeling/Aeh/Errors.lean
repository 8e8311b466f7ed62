import Aeh.Py.Text

/-!
# Errors — `aeh/errors.py`: the secret pattern, `scrub` and the exceptions

`Exn` also has the exceptions the code lets escape from the libraries it calls.
-/

namespace Aeh

open Re

/-- `bearer\s+` of `SECRET`, without the value. -/
def SECRET.bearer : Re CodePoint := .seq (wordI "bearer") (.many isSpace 1)

/-- `sk-[a-z0-9_-]{12,}`. -/
def SECRET.sk : Re CodePoint :=
  .seq (wordI "sk") (.seq (word "-") (.many (fun x => isLetter x || isDigit x || x = cp '_' || x = cp '-') 12))

/-- `api[_-]?key`. -/
def apiKey : Re CodePoint := .seq (wordI "api") (.seq (opt (oneOf "_-")) (wordI "key"))

/-- `(?:password|token|secret|api[_-]?key)\s*[:=]\s*`, without the value. -/
def SECRET.assignment : Re CodePoint :=
  .seq (.alt (wordI "password") (.alt (wordI "token") (.alt (wordI "secret") apiKey)))
    (.seq (.many isSpace 0) (.seq (oneOf ":=") (.many isSpace 0)))

/-- `\S+`, the value a marker introduces. -/
def SECRET.value : Re CodePoint := .many (fun x => !isSpace x) 1

/-- `SECRET`, the three alternatives in order. -/
def SECRET : Re CodePoint :=
  .alt (.seq SECRET.bearer SECRET.value) (.alt SECRET.sk (.seq SECRET.assignment SECRET.value))

/-- The text that replaces a secret. -/
def REDACTED : PyStr := lit "[REDACTED]"

/-- `scrub`. -/
def scrub (value : PyStr) (limit : ℕ) : PyStr := (SECRET.sub REDACTED value).take limit

/-- The exceptions of the modelled code. -/
inductive Exn where
  /-- `AehError`; `aehError` builds it. -/
  | aeh (status : ℕ) (code : String) (detail : PyStr)
  /-- A violated unique constraint: `IntegrityError` with SQLSTATE 23505 or `UNIQUE constraint failed`. -/
  | integrityError
  | runtimeError (message : String)
  | valueError (message : PyStr)
  | fileNotFoundError
  /-- Another `OSError`, as of a program that cannot be executed. -/
  | osError
  | keyError
  | attributeError
  /-- pydantic's `ValidationError`. -/
  | validationError
  /-- A value the database driver cannot bind (SQLAlchemy's `StatementError`, `DataError`). -/
  | statementError
deriving DecidableEq

/-- `AehError(status, code, detail)`: the detail is scrubbed to 2048 characters. -/
def aehError (status : ℕ) (code detail : String) : Exn := .aeh status code (scrub (lit detail) 2048)

theorem bind_eq_ok {α β : Type} {x : Except Exn α} {f : α → Except Exn β} {b : β} :
    (x >>= f) = .ok b ↔ ∃ a, x = .ok a ∧ f a = .ok b := by
  cases x <;> simp [bind, Except.bind]

theorem bind_eq_error {α β : Type} {x : Except Exn α} {f : α → Except Exn β} {e : Exn} :
    (x >>= f) = .error e ↔ x = .error e ∨ ∃ a, x = .ok a ∧ f a = .error e := by
  cases x <;> simp [bind, Except.bind]

/-! ## What `scrub` leaves behind -/

theorem SECRET.ne_nil {w : PyStr} (h : SECRET.Matches w) : w ≠ [] := by
  rintro rfl
  have : matchHere SECRET ([] : PyStr) = none := by decide
  exact matchHere_none.mp this [] h List.nil_prefix

theorem foldCase_space {x : CodePoint} (hx : isSpace x = true) : foldCase x = x := by
  simp only [isSpace, Bool.or_eq_true, Bool.and_eq_true, decide_eq_true_eq, beq_iff_eq] at hx
  unfold foldCase
  rw [dif_neg (by omega), if_neg (by omega), if_neg (by omega), if_neg (by omega)]

/-- Every match starts with a letter, so never with white space. -/
theorem SECRET.head {x : CodePoint} {w : PyStr} (h : SECRET.Matches (x :: w)) : isSpace x = false := by
  by_contra hx
  rw [Bool.not_eq_false] at hx
  have hf : foldCase x = x := foldCase_space hx
  have hm := mayStart_of_head h (s := [x]) ⟨w, rfl⟩
  simp [SECRET, SECRET.bearer, SECRET.sk, SECRET.assignment, apiKey, wordI, lit, mayStart, hf, ends] at hm
  rcases hm with rfl | rfl | rfl | rfl | rfl | rfl <;> exact absurd hx (by decide)

theorem inert_redacted : inert SECRET REDACTED = true := by decide

/-- A match that runs into the replacement does so in its value, which could have been any other text. -/
theorem SECRET.cross {g u t m : PyStr} (hu : u ≠ []) (hw : SECRET.Matches (g ++ u))
    (hp : u <+: REDACTED ++ t) (hm : SECRET.Matches m) : ∃ w, SECRET.Matches w ∧ w <+: g ++ m := by
  obtain ⟨c, u, rfl⟩ := List.exists_cons_of_ne_nil hu
  obtain rfl : c = cp '[' := by
    obtain ⟨v, hv⟩ := hp
    exact (List.cons.inj hv).1
  obtain ⟨x, m, rfl⟩ := List.exists_cons_of_ne_nil (SECRET.ne_nil hm)
  have hx : (!isSpace x) = true := by rw [SECRET.head hm]; rfl
  refine ⟨g ++ [x], ?_, ⟨m, by simp⟩⟩
  generalize hs : g ++ cp '[' :: u = s at hw
  cases hw with
  | left h =>
    subst hs
    exact .left (matches_tail (by decide) h hx)
  | right h =>
    cases h with
    | left h =>
      have := not_mem_of_avoids (c := cp '[') (by decide) h
      exact absurd (by rw [← hs]; simp) this
    | right h =>
      subst hs
      exact .right (.right (matches_tail (by decide) h hx))

/-- **`scrub` leaves no secret**: the pattern matches nowhere in its result, at any limit. -/
theorem not_occurs_scrub (s : PyStr) (n : ℕ) : ¬ SECRET.Occurs (scrub s n) := by
  have hsub : Subst SECRET REDACTED s (SECRET.sub REDACTED s) :=
    subst_sub (fun _ => SECRET.ne_nil) REDACTED s
  have hfree := hsub.not_occurs (fun _ => SECRET.ne_nil)
    (fun _ _ _ _ hr hb hw => not_prefix_of_inert inert_redacted hr hb hw)
    (fun _ _ _ hu hw hp _ hm => SECRET.cross hu hw hp hm)
  exact fun h => hfree (h.mono (List.take_prefix n _).isInfix)

/-- `scrub` changes nothing in a text without secrets, up to the limit. -/
theorem scrub_of_not_occurs {s : PyStr} (h : ¬ SECRET.Occurs s) (n : ℕ) : scrub s n = s.take n := by
  unfold scrub
  rw [(subst_sub (fun _ => SECRET.ne_nil) REDACTED s).eq_of_not_occurs h]

/-- A text is its own scrubbed form iff it has no secret and `scrub` does not cut it. -/
theorem scrub_eq_iff {s : PyStr} {n : ℕ} : scrub s n = s ↔ s.length ≤ n ∧ ¬ SECRET.Occurs s := by
  constructor
  · intro h
    have hno : ¬ SECRET.Occurs s := by
      have := not_occurs_scrub s n
      rwa [h] at this
    rw [scrub_of_not_occurs hno, List.take_eq_self_iff] at h
    exact ⟨h, hno⟩
  · rintro ⟨hl, hno⟩
    rw [scrub_of_not_occurs hno, List.take_of_length_le hl]

/-- A second `scrub` changes nothing. -/
theorem scrub_scrub (s : PyStr) (n : ℕ) : scrub (scrub s n) n = scrub s n := by
  rw [scrub_eq_iff]
  exact ⟨List.length_take_le n _, not_occurs_scrub s n⟩

/-- **All that `scrub` returns is clean**: it has no secret, a second `scrub` leaves it as it is, and within the
limit the texts left as they are are the ones without secrets. -/
theorem scrub_fixed (s : PyStr) (n : ℕ) : ¬ SECRET.Occurs (scrub s n) ∧ scrub (scrub s n) n = scrub s n ∧
    (s.length ≤ n → (scrub s n = s ↔ ¬ SECRET.Occurs s)) := by
  refine ⟨not_occurs_scrub s n, scrub_scrub s n, ?_⟩
  intro hl
  rw [scrub_eq_iff]
  exact and_iff_right hl

/-! A secret with a separator after it, and another marker after that. -/

namespace Separated

def text : PyStr := lit "token = abc: bearer"

theorem scrub_fixed_sample : ¬ SECRET.Occurs (scrub text 19) ∧ scrub (scrub text 19) 19 = scrub text 19 ∧
    (scrub text 19 = text ↔ ¬ SECRET.Occurs text) := by
  obtain ⟨hno, hidem, hiff⟩ := scrub_fixed text 19
  exact ⟨hno, hidem, hiff (by decide)⟩

end Separated

end Aeh
