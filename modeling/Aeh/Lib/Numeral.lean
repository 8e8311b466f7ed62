import Mathlib.Algebra.Ring.Nat
import Mathlib.Data.List.Basic
import Mathlib.Data.List.Lex
import Mathlib.Order.Lattice

/-!
# Numeral — numbers written with a fixed number of digits

`numeral base dig w n` writes the last `w` digits of `n`.  Texts of one width compare as lists the way their
numbers do; `append_lt_append` takes the comparison through a text of several fields.
-/

namespace Aeh

section Lex

variable {α : Type} [LinearOrder α]

/-- Behind parts of one length the comparison goes on only where the parts agree. -/
theorem append_lt_append {p q : List α} (h : p.length = q.length) (s t : List α) :
    p ++ s < q ++ t ↔ p < q ∨ (p = q ∧ s < t) := by
  induction p generalizing q with
  | nil =>
    obtain rfl : q = [] := List.length_eq_zero_iff.mp h.symm
    simp
  | cons a p ih =>
    cases q with
    | nil => simp at h
    | cons b q =>
      have hl : p.length = q.length := by simpa using h
      rw [List.cons_append, List.cons_append, List.cons_lt_cons_iff, List.cons_lt_cons_iff, ih hl]
      constructor
      · rintro (hab | ⟨rfl, hpq | ⟨rfl, hst⟩⟩)
        · exact Or.inl (Or.inl hab)
        · exact Or.inl (Or.inr ⟨rfl, hpq⟩)
        · exact Or.inr ⟨rfl, hst⟩
      · rintro ((hab | ⟨rfl, hpq⟩) | ⟨he, hst⟩)
        · exact Or.inl hab
        · exact Or.inr ⟨rfl, Or.inl hpq⟩
        · cases he
          exact Or.inr ⟨rfl, Or.inr ⟨rfl, hst⟩⟩

theorem cons_lt_cons_self (a : α) (s t : List α) : a :: s < a :: t ↔ s < t := by simp

theorem map_lt_map {β : Type} [LinearOrder β] {f : α → β} (hlt : ∀ a b, f a < f b ↔ a < b)
    (hinj : ∀ a b, f a = f b → a = b) {s t : List α} : s.map f < t.map f ↔ s < t := by
  induction s generalizing t with
  | nil => cases t <;> simp
  | cons a s ih =>
    cases t with
    | nil => simp
    | cons b t =>
      rw [List.map_cons, List.map_cons, List.cons_lt_cons_iff, List.cons_lt_cons_iff, hlt, ih]
      constructor
      · rintro (h | ⟨h, h'⟩)
        · exact Or.inl h
        · exact Or.inr ⟨hinj a b h, h'⟩
      · rintro (h | ⟨rfl, h'⟩)
        · exact Or.inl h
        · exact Or.inr ⟨rfl, h'⟩

theorem lt_append_cons (s : List α) (a : α) (t : List α) : s < s ++ a :: t := by
  induction s with
  | nil => simp
  | cons b s ih => simpa using ih

end Lex

section Numeral

variable {α : Type} (base : ℕ) (dig : ℕ → α)

/-- The last `w` digits of `n`. -/
def numeral : ℕ → ℕ → List α
  | 0, _ => []
  | w + 1, n => numeral w (n / base) ++ [dig (n % base)]

@[simp] theorem length_numeral (w n : ℕ) : (numeral base dig w n).length = w := by
  induction w generalizing n with
  | zero => rfl
  | succ w ih => rw [numeral, List.length_append, ih, List.length_singleton]

variable {base dig}

/-- The order of two numbers by quotient and remainder. -/
theorem lt_iff_div_mod (hb : 0 < base) (m n : ℕ) :
    m < n ↔ m / base < n / base ∨ (m / base = n / base ∧ m % base < n % base) := by
  have em := Nat.div_add_mod m base
  have en := Nat.div_add_mod n base
  have lm := Nat.mod_lt m hb
  constructor
  · intro h
    rcases Nat.lt_or_ge (m / base) (n / base) with hq | hq
    · exact Or.inl hq
    · have hq' : m / base = n / base := Nat.le_antisymm (Nat.div_le_div_right (Nat.le_of_lt h)) hq
      rw [hq'] at em
      exact Or.inr ⟨hq', by omega⟩
  · rintro (hq | ⟨hq, hr⟩)
    · have := Nat.mul_le_mul_left base (Nat.succ_le_of_lt hq)
      rw [Nat.mul_succ] at this
      omega
    · rw [hq] at em
      omega

theorem div_lt_pow {w m : ℕ} (hm : m < base ^ (w + 1)) : m / base < base ^ w := by
  rw [Nat.pow_succ, Nat.mul_comm] at hm
  exact Nat.div_lt_of_lt_mul hm

variable [LinearOrder α] (hb : 0 < base) (hdig : ∀ a b, a < base → b < base → (dig a < dig b ↔ a < b))

/-- A digit determines its value. -/
theorem dig_inj (hdig : ∀ a b, a < base → b < base → (dig a < dig b ↔ a < b)) {a b : ℕ} (ha : a < base)
    (hb : b < base) (h : dig a = dig b) : a = b := by
  rcases Nat.lt_trichotomy a b with hab | hab | hab
  · exact absurd ((hdig a b ha hb).mpr hab) (by rw [h]; exact lt_irrefl _)
  · exact hab
  · exact absurd ((hdig b a hb ha).mpr hab) (by rw [h]; exact lt_irrefl _)

include hb hdig

theorem numeral_inj {w m n : ℕ} (hm : m < base ^ w) (hn : n < base ^ w)
    (h : numeral base dig w m = numeral base dig w n) : m = n := by
  induction w generalizing m n with
  | zero =>
    rw [Nat.pow_zero] at hm hn
    omega
  | succ w ih =>
    obtain ⟨hq, hr⟩ := List.append_inj h (by simp)
    have hq' := ih (div_lt_pow hm) (div_lt_pow hn) hq
    have hr' := dig_inj hdig (Nat.mod_lt m hb) (Nat.mod_lt n hb) (List.cons.inj hr).1
    rw [← Nat.div_add_mod m base, ← Nat.div_add_mod n base, hq', hr']

/-- **Numbers of one width compare as their digits do.** -/
theorem numeral_lt_numeral {w m n : ℕ} (hm : m < base ^ w) (hn : n < base ^ w) :
    numeral base dig w m < numeral base dig w n ↔ m < n := by
  induction w generalizing m n with
  | zero =>
    rw [Nat.pow_zero] at hm hn
    obtain rfl : m = 0 := by omega
    obtain rfl : n = 0 := by omega
    simp [numeral]
  | succ w ih =>
    have hone : [dig (m % base)] < [dig (n % base)] ↔ m % base < n % base := by
      rw [List.cons_lt_cons_iff, hdig _ _ (Nat.mod_lt m hb) (Nat.mod_lt n hb)]
      simp
    have heq : numeral base dig w (m / base) = numeral base dig w (n / base) ↔ m / base = n / base :=
      ⟨numeral_inj hb hdig (div_lt_pow hm) (div_lt_pow hn), fun h => by rw [h]⟩
    rw [numeral, numeral, append_lt_append (by simp), ih (div_lt_pow hm) (div_lt_pow hn), heq, hone,
      lt_iff_div_mod hb m n]

end Numeral

end Aeh
