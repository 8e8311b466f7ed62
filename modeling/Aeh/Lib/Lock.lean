import Mathlib.Logic.Function.Basic

/-!
# Lock — parties that exclude each other by locks

Each party has one lock, which it may share with others.  `holder` is what the locks know, `holds` what the parties
do; `Locked` says that they agree, and taking a free lock or giving one back keeps it.
-/

namespace Aeh

/-- The locks know who holds them. -/
structure Locked {ι κ : Type} (lockOf : ι → κ) (holds : ι → Prop) (holder : κ → Option ι) : Prop where
  agree : ∀ i k, holder k = some i ↔ lockOf i = k ∧ holds i

namespace Locked

variable {ι κ : Type} {lockOf : ι → κ} {holds holds' : ι → Prop} {holder : κ → Option ι} {i j : ι}

/-- **Two holders of one lock are the same.** -/
theorem exclusive (h : Locked lockOf holds holder) (hi : holds i) (hj : holds j) (hk : lockOf i = lockOf j) : i = j := by
  have hi' := (h.agree i (lockOf j)).mpr ⟨hk, hi⟩
  have hj' := (h.agree j (lockOf j)).mpr ⟨rfl, hj⟩
  exact Option.some.inj (hi'.symm.trans hj')

/-- A lock that is not free has a holder. -/
theorem holder_of_taken (h : Locked lockOf holds holder) {k : κ} (hk : holder k ≠ none) : ∃ i, lockOf i = k ∧ holds i := by
  obtain ⟨i, hi⟩ := Option.ne_none_iff_exists'.mp hk
  exact ⟨i, (h.agree i k).mp hi⟩

theorem congr (h : Locked lockOf holds holder) (he : ∀ i, holds' i ↔ holds i) : Locked lockOf holds' holder :=
  ⟨fun i k => by rw [he, h.agree]⟩

variable [DecidableEq κ]

/-- A party takes its lock, which is free. -/
theorem acquire (h : Locked lockOf holds holder) (hfree : holder (lockOf i) = none) (hi : holds' i)
    (he : ∀ j, j ≠ i → (holds' j ↔ holds j)) : Locked lockOf holds' (Function.update holder (lockOf i) (some i)) where
  agree j k := by
    by_cases hk : k = lockOf i
    · subst hk
      rw [Function.update_self, Option.some.injEq]
      constructor
      · rintro rfl
        exact ⟨rfl, hi⟩
      · rintro ⟨hl, hj⟩
        by_contra hne
        have hj' := (he j (Ne.symm hne)).mp hj
        rw [(h.agree j (lockOf i)).mpr ⟨hl, hj'⟩] at hfree
        cases hfree
    · rw [Function.update_of_ne hk, h.agree]
      by_cases hj : j = i
      · subst hj
        exact ⟨fun hl => absurd hl.1.symm hk, fun hl => absurd hl.1.symm hk⟩
      · rw [he j hj]

/-- A party gives its lock back. -/
theorem release (h : Locked lockOf holds holder) (hi : holds i) (hi' : ¬ holds' i) (he : ∀ j, j ≠ i → (holds' j ↔ holds j)) :
    Locked lockOf holds' (Function.update holder (lockOf i) none) where
  agree j k := by
    by_cases hk : k = lockOf i
    · subst hk
      rw [Function.update_self]
      refine ⟨nofun, ?_⟩
      rintro ⟨hl, hj⟩
      by_cases hji : j = i
      · subst hji
        exact absurd hj hi'
      · exact absurd (h.exclusive ((he j hji).mp hj) hi hl) hji
    · rw [Function.update_of_ne hk, h.agree]
      by_cases hj : j = i
      · subst hj
        exact ⟨fun hl => absurd hl.1.symm hk, fun hl => absurd hl.1.symm hk⟩
      · rw [he j hj]

end Locked

end Aeh
