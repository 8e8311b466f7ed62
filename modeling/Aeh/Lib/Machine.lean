import Mathlib.Data.List.Basic
import Mathlib.Logic.Relation

/-!
# Machine — labelled transition systems and their recorded runs

A `Machine` has initial states and labelled steps.  A `Run` records every step it takes (the state
before, the label, the state after), so that a property of a whole run can speak about two of its
steps.  The rules: an invariant of the steps holds of every reachable state (`Reachable.invariant`),
a relation every step respects relates the ends of a run (`Run.rel`), a property no step destroys holds
of every later state (`Run.stable`), and a step that needs `¬ P` and leaves a stable `P` behind occurs
at most once (`Run.once`).
-/

namespace Aeh

/-- A labelled transition system. -/
structure Machine (σ ℓ : Type) where
  init : σ → Prop
  step : σ → ℓ → σ → Prop

/-- One recorded step. -/
structure Entry (σ ℓ : Type) where
  pre : σ
  label : ℓ
  post : σ

namespace Machine

variable {σ ℓ : Type}

/-- A run from `s`, with the steps it took in order. -/
inductive Run (M : Machine σ ℓ) (s : σ) : List (Entry σ ℓ) → σ → Prop
  | nil : Run M s [] s
  | snoc {tr : List (Entry σ ℓ)} {s₁ s₂ : σ} {l : ℓ} :
      Run M s tr s₁ → M.step s₁ l s₂ → Run M s (tr ++ [⟨s₁, l, s₂⟩]) s₂

/-- The states some run reaches from an initial state. -/
def Reachable (M : Machine σ ℓ) (s : σ) : Prop := ∃ s₀ tr, M.init s₀ ∧ M.Run s₀ tr s

variable {M : Machine σ ℓ} {s s₁ s₂ : σ} {tr tr' : List (Entry σ ℓ)}

theorem Run.one {l : ℓ} (h : M.step s l s₁) : M.Run s [⟨s, l, s₁⟩] s₁ := .snoc .nil h

theorem Run.append (h : M.Run s tr s₁) (h' : M.Run s₁ tr' s₂) : M.Run s (tr ++ tr') s₂ := by
  induction h' with
  | nil => simpa using h
  | snoc _ hs ih => rw [← List.append_assoc]; exact .snoc ih hs

theorem Run.cons {l : ℓ} (h : M.step s l s₁) (h' : M.Run s₁ tr s₂) :
    M.Run s (⟨s, l, s₁⟩ :: tr) s₂ := (Run.one h).append h'

/-- A run cut at any point of its record. -/
theorem Run.split (h : M.Run s (tr ++ tr') s₂) : ∃ m, M.Run s tr m ∧ M.Run m tr' s₂ := by
  generalize htr : tr ++ tr' = t at h
  induction h generalizing tr' with
  | nil =>
    obtain ⟨rfl, rfl⟩ := List.append_eq_nil_iff.mp htr
    exact ⟨s, .nil, .nil⟩
  | @snoc t m m' l hr hs ih =>
    rcases List.eq_nil_or_concat tr' with rfl | ⟨w, e, rfl⟩
    · rw [List.append_nil] at htr
      subst htr
      exact ⟨m', .snoc hr hs, .nil⟩
    · rw [List.concat_eq_append, ← List.append_assoc] at htr
      obtain ⟨h1, h2⟩ := List.append_inj' htr rfl
      obtain ⟨m₀, hr₀, hr₁⟩ := ih h1
      simp only [List.cons.injEq, and_true] at h2
      subst h2
      exact ⟨m₀, hr₀, by rw [List.concat_eq_append]; exact .snoc hr₁ hs⟩

theorem Run.nil_eq (h : M.Run s [] s₁) : s₁ = s := by
  generalize ht : ([] : List (Entry σ ℓ)) = t at h
  cases h with
  | nil => rfl
  | snoc => simp at ht

/-- The recorded step between two parts of a record. -/
theorem Run.at {e : Entry σ ℓ} (h : M.Run s (tr ++ e :: tr') s₂) :
    M.Run s tr e.pre ∧ M.step e.pre e.label e.post ∧ M.Run e.post tr' s₂ := by
  have h' : M.Run s ((tr ++ [e]) ++ tr') s₂ := by simpa using h
  obtain ⟨m, hm, hm'⟩ := h'.split
  generalize ht : tr ++ [e] = t at hm
  cases hm with
  | nil => simp at ht
  | snoc hr hs =>
    obtain ⟨rfl, he⟩ := List.append_inj' ht rfl
    simp only [List.cons.injEq, and_true] at he
    subst he
    exact ⟨hr, hs, hm'⟩

/-- The first step of a record. -/
theorem Run.head {e : Entry σ ℓ} (h : M.Run s (e :: tr) s₂) : e.pre = s ∧ M.step s e.label e.post ∧ M.Run e.post tr s₂ := by
  obtain ⟨hr, hs, hr'⟩ := Run.at (show M.Run s ([] ++ e :: tr) s₂ from h)
  rw [hr.nil_eq] at hs
  exact ⟨hr.nil_eq, hs, hr'⟩

theorem Run.step_of_mem {e : Entry σ ℓ} (h : M.Run s tr s₂) (he : e ∈ tr) :
    M.step e.pre e.label e.post := by
  obtain ⟨a, b, rfl⟩ := List.append_of_mem he
  exact h.at.2.1

/-! ## Invariants -/

theorem Reachable.of_init (h : M.init s) : M.Reachable s := ⟨s, [], h, .nil⟩

theorem Reachable.run (h : M.Reachable s) (hr : M.Run s tr s₁) : M.Reachable s₁ := by
  obtain ⟨s₀, tr₀, h₀, hr₀⟩ := h
  exact ⟨s₀, tr₀ ++ tr, h₀, hr₀.append hr⟩

theorem Reachable.step {l : ℓ} (h : M.Reachable s) (hs : M.step s l s₁) : M.Reachable s₁ :=
  h.run (Run.one hs)

theorem Reachable.pre_of_mem {e : Entry σ ℓ} (h : M.Reachable s) (hr : M.Run s tr s₁)
    (he : e ∈ tr) : M.Reachable e.pre := by
  obtain ⟨a, b, rfl⟩ := List.append_of_mem he
  exact h.run hr.at.1

/-- **Invariant rule**: what holds initially and is preserved by every step holds of every reachable
state. -/
theorem Reachable.invariant {I : σ → Prop} (hinit : ∀ s, M.init s → I s)
    (hstep : ∀ s l s', I s → M.step s l s' → I s') (h : M.Reachable s) : I s := by
  obtain ⟨s₀, tr, h₀, hr⟩ := h
  induction hr with
  | nil => exact hinit _ h₀
  | snoc _ hs ih => exact hstep _ _ _ ih hs

/-- **Projection rule**: a machine whose initial states and steps project into `M` projects every reachable
state into a reachable one. -/
theorem Reachable.map {τ k : Type} {N : Machine τ k} (f : τ → σ) {t : τ} (hinit : ∀ t, N.init t → M.init (f t))
    (hstep : ∀ t l t', M.Reachable (f t) → N.step t l t' → M.Reachable (f t')) (h : N.Reachable t) :
    M.Reachable (f t) :=
  h.invariant (I := fun t => M.Reachable (f t)) (fun t ht => .of_init (hinit t ht)) hstep

/-- **Relational rule**: a reflexive and transitive relation that every step from a reachable state
respects relates the two ends of a run. -/
theorem Run.rel {R : σ → σ → Prop} (hrefl : ∀ s, R s s)
    (htrans : ∀ a b c, R a b → R b c → R a c)
    (hstep : ∀ s l s', M.Reachable s → M.step s l s' → R s s')
    (h : M.Reachable s) (hr : M.Run s tr s₁) : R s s₁ := by
  induction hr with
  | nil => exact hrefl _
  | snoc hr hs ih => exact htrans _ _ _ ih (hstep _ _ _ (h.run hr) hs)

/-- **Stability rule**: a property no step from a reachable state destroys holds of every later
state. -/
theorem Run.stable {P : σ → Prop} (hstep : ∀ s l s', M.Reachable s → P s → M.step s l s' → P s')
    (h : M.Reachable s) (hp : P s) (hr : M.Run s tr s₁) : P s₁ := by
  refine Run.rel (R := fun a b => P a → P b) (fun _ => id) (fun _ _ _ h1 h2 h => h2 (h1 h)) ?_ h hr hp
  exact fun a l b ha hs hpa => hstep a l b ha hpa hs

/-- **The turning point**: what does not hold where a run starts and holds where it ends was turned true by a step of the
run, after which it holds for good. -/
theorem Run.becomes {P : σ → Prop} (hr : M.Run s tr s₁) (hn : ¬ P s) (hp : P s₁) :
    ∃ tr₁ e tr₂, tr = tr₁ ++ e :: tr₂ ∧ ¬ P e.pre ∧ P e.post ∧ ∀ e' ∈ tr₂, P e'.post := by
  induction hr with
  | nil => exact absurd hp hn
  | @snoc tr m m' l hr hs ih =>
    by_cases hm : P m
    · obtain ⟨tr₁, e, tr₂, rfl, hpre, hpost, hlater⟩ := ih hm
      refine ⟨tr₁, e, tr₂ ++ [⟨m, l, m'⟩], by simp, hpre, hpost, fun e' he' => ?_⟩
      rcases List.mem_append.mp he' with he' | he'
      · exact hlater e' he'
      · obtain rfl := List.mem_singleton.mp he'
        exact hp
    · exact ⟨tr, ⟨m, l, m'⟩, [], rfl, hm, hp, fun _ he' => absurd he' List.not_mem_nil⟩

/-- **Once**: a step that needs `¬ P` and leaves the stable `P` behind is never followed by another
such step. -/
theorem Run.once {P : σ → Prop} {E : Entry σ ℓ → Prop}
    (hstable : ∀ s l s', M.Reachable s → P s → M.step s l s' → P s')
    (hpre : ∀ e, M.Reachable e.pre → M.step e.pre e.label e.post → E e → ¬ P e.pre)
    (hpost : ∀ e, M.Reachable e.pre → M.step e.pre e.label e.post → E e → P e.post)
    (h : M.Reachable s) (hr : M.Run s tr s₁) : tr.Pairwise (fun e e' => ¬ (E e ∧ E e')) := by
  induction hr with
  | nil => exact .nil
  | @snoc tr m m' l hr hs ih =>
    rw [List.pairwise_append]
    refine ⟨ih, List.pairwise_singleton _ _, ?_⟩
    rintro e he e' he' ⟨hE, hE'⟩
    rw [List.mem_singleton] at he'
    subst he'
    obtain ⟨a, b, rfl⟩ := List.append_of_mem he
    have hpre_e := h.run hr.at.1
    have hP := hpost e hpre_e hr.at.2.1 hE
    exact hpre _ (h.run hr) hs hE' (Run.stable hstable (hpre_e.step hr.at.2.1) hP hr.at.2.2)

/-- Between two steps of a run lies a run from the first to the second. -/
theorem Run.pairwise {Q : Entry σ ℓ → Entry σ ℓ → Prop}
    (hQ : ∀ e e' t, M.Reachable e.pre → M.step e.pre e.label e.post → M.Run e.post t e'.pre →
      M.step e'.pre e'.label e'.post → Q e e')
    (h : M.Reachable s) (hr : M.Run s tr s₁) : tr.Pairwise Q := by
  induction hr with
  | nil => exact .nil
  | @snoc tr m m' l hr hs ih =>
    rw [List.pairwise_append]
    refine ⟨ih, List.pairwise_singleton _ _, ?_⟩
    intro e he e' he'
    rw [List.mem_singleton] at he'
    subst he'
    obtain ⟨a, b, rfl⟩ := List.append_of_mem he
    exact hQ e _ b (h.run hr.at.1) hr.at.2.1 hr.at.2.2 hs

end Machine

end Aeh
