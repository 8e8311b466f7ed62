import Aeh.Lib.Pieces
import Aeh.Redaction

/-!
# Preservation — what `redact` leaves of a document

`withoutSecrets` replaces the secrets of a document and nothing else.  `redact` cuts every string at the length it
came with, so the two agree where the secrets of a string are no shorter than what replaces them.
-/

namespace Aeh

open Re

/-! ## The document but for its secrets -/

namespace Json

mutual

/-- Every value under a sensitive key and every match of `SECRET` replaced, all else as it is. -/
def withoutSecrets : Json → Json
  | obj fields => obj (fieldsWithoutSecrets fields)
  | arr items => arr (itemsWithoutSecrets items)
  | str s => str (SECRET.sub REDACTED s)
  | null => null
  | bool b => bool b
  | int n => int n
  | float bits => float bits

def itemsWithoutSecrets : List Json → List Json
  | [] => []
  | item :: items => item.withoutSecrets :: itemsWithoutSecrets items

def fieldsWithoutSecrets : List (PyStr × Json) → List (PyStr × Json)
  | [] => []
  | (key, item) :: fields =>
    (key, if SENSITIVE_KEY.search key then str REDACTED else item.withoutSecrets) :: fieldsWithoutSecrets fields

end

/-- The strings of a document under no sensitive key. -/
inductive Shows : Json → PyStr → Prop
  | str (s : PyStr) : Shows (.str s) s
  | item {items : List Json} {item : Json} {s : PyStr} : item ∈ items → Shows item s → Shows (.arr items) s
  | field {fields : List (PyStr × Json)} {key : PyStr} {item : Json} {s : PyStr} : (key, item) ∈ fields →
      ¬ SENSITIVE_KEY.Occurs key → Shows item s → Shows (.obj fields) s

theorem shows_str {s t : PyStr} : (str s).Shows t ↔ t = s := by
  constructor
  · intro h
    cases h
    rfl
  · rintro rfl
    exact .str t

theorem shows_cons {item : Json} {items : List Json} {s : PyStr} :
    (arr (item :: items)).Shows s ↔ item.Shows s ∨ (arr items).Shows s := by
  constructor
  · intro h
    cases h with
    | item hi hs =>
      rcases List.mem_cons.mp hi with rfl | hi
      · exact Or.inl hs
      · exact Or.inr (.item hi hs)
  · rintro (h | h)
    · exact .item (List.mem_cons_self ..) h
    · cases h with
      | item hi hs => exact .item (List.mem_cons_of_mem _ hi) hs

theorem shows_cons_field {key : PyStr} {item : Json} {fields : List (PyStr × Json)} {s : PyStr} :
    (obj ((key, item) :: fields)).Shows s ↔
      (¬ SENSITIVE_KEY.Occurs key ∧ item.Shows s) ∨ (obj fields).Shows s := by
  constructor
  · intro h
    cases h with
    | field hi hk hs =>
      rcases List.mem_cons.mp hi with he | hi
      · cases he
        exact Or.inl ⟨hk, hs⟩
      · exact Or.inr (.field hi hk hs)
  · rintro (⟨hk, hs⟩ | h)
    · exact .field (List.mem_cons_self ..) hk hs
    · cases h with
      | field hi hk hs => exact .field (List.mem_cons_of_mem _ hi) hk hs

end Json

/-! ## The cut at the old length -/

/-- The secrets found in the text are together at least as long as what replaces them. -/
def Outweighs (s : PyStr) : Prop := (found SECRET s).length * REDACTED.length ≤ (found SECRET s).flatten.length

instance (s : PyStr) : Decidable (Outweighs s) := inferInstanceAs (Decidable (_ ≤ _))

theorem scrub_length_iff (s : PyStr) : scrub s (max s.length 1) = SECRET.sub REDACTED s ↔ Outweighs s := by
  have hl := length_sub (r := SECRET) (fun _ => SECRET.ne_nil) REDACTED s
  unfold scrub Outweighs
  rw [List.take_eq_self_iff]
  cases s with
  | nil => simp [sub, subFrom, found]
  | cons c s =>
    have hm : max (c :: s).length 1 = (c :: s).length := max_eq_left (by simp)
    rw [hm]
    omega

section Redact

open Json

mutual

theorem redact_eq_iff (j : Json) : redact j = j.withoutSecrets ↔ ∀ s, j.Shows s → Outweighs s := by
  have plain : ∀ j : Json, redact j = j.withoutSecrets → (∀ s, ¬ j.Shows s) →
      (redact j = j.withoutSecrets ↔ ∀ s, j.Shows s → Outweighs s) := by
    intro j hj hs
    exact ⟨fun _ s h => absurd h (hs s), fun _ => hj⟩
  match j with
  | .null => exact plain .null rfl nofun
  | .bool b => exact plain (.bool b) rfl nofun
  | .int n => exact plain (.int n) rfl nofun
  | .float bits => exact plain (.float bits) rfl nofun
  | .str s =>
    rw [redact, withoutSecrets, Json.str.injEq, scrub_length_iff]
    simp only [shows_str, forall_eq]
  | .arr items =>
    rw [redact, withoutSecrets, Json.arr.injEq]
    exact redactItems_eq_iff items
  | .obj fields =>
    rw [redact, withoutSecrets, Json.obj.injEq]
    exact redactFields_eq_iff fields

theorem redactItems_eq_iff (items : List Json) :
    redactItems items = itemsWithoutSecrets items ↔ ∀ s, (arr items).Shows s → Outweighs s := by
  match items with
  | [] =>
    refine ⟨fun _ s h => ?_, fun _ => rfl⟩
    cases h with
    | item hi _ => cases hi
  | item :: items =>
    rw [redactItems, itemsWithoutSecrets, List.cons.injEq, redact_eq_iff item, redactItems_eq_iff items]
    simp only [shows_cons, or_imp, forall_and]

theorem redactFields_eq_iff (fields : List (PyStr × Json)) :
    redactFields fields = fieldsWithoutSecrets fields ↔ ∀ s, (obj fields).Shows s → Outweighs s := by
  match fields with
  | [] =>
    refine ⟨fun _ s h => ?_, fun _ => rfl⟩
    cases h with
    | field hi _ _ => cases hi
  | (key, item) :: fields =>
    rw [redactFields, fieldsWithoutSecrets, List.cons.injEq, redactFields_eq_iff fields]
    simp only [shows_cons_field, or_imp, forall_and, Prod.mk.injEq, true_and]
    refine and_congr_left fun _ => ?_
    by_cases hk : SENSITIVE_KEY.search key = true
    · have ho : SENSITIVE_KEY.Occurs key := search_iff.mp hk
      simp [hk, ho]
    · have ho : ¬ SENSITIVE_KEY.Occurs key := fun h => hk (search_iff.mpr h)
      rw [if_neg hk, if_neg hk, redact_eq_iff item]
      simp [ho]

end

/-- **`redact` changes the secrets of a document and nothing else iff in every string it reads the secrets are
together at least as long as what replaces them.** -/
theorem redact_preserves (j : Json) : redact j = j.withoutSecrets ↔ ∀ s, j.Shows s → Outweighs s := redact_eq_iff j

end Redact

/-! A message with a short secret. -/

namespace Clipped

def event : Json := .obj [(lit "message", .str (lit "token=x in worker"))]

theorem redact_event : redact event = .obj [(lit "message", .str (lit "[REDACTED] in wor"))] := by rfl

theorem event_withoutSecrets : event.withoutSecrets = .obj [(lit "message", .str (lit "[REDACTED] in worker"))] := by
  rfl

/-- **The end of this message is lost.** -/
theorem redact_clips : redact event ≠ event.withoutSecrets := by
  rw [redact_event, event_withoutSecrets]
  intro h
  have hl : (lit "[REDACTED] in wor").length = (lit "[REDACTED] in worker").length := by
    simp only [Json.obj.injEq, List.cons.injEq, Prod.mk.injEq, Json.str.injEq] at h
    rw [h.1.2]
  exact absurd hl (by decide)

end Clipped

end Aeh
