import Mathlib.Data.List.Infix

/-!
# Regex — backtracking patterns and the substitution of their matches

Patterns over an arbitrary alphabet with the operators of a backtracking engine: ordered choice and
greedy runs of a character class.  `ends r s` lists what is left of `s` after each way `r` matches at its
start, in the order the engine tries them, so its head is the match the engine reports.  `Matches` is
the declarative reading (the words of the pattern) and `mem_ends` connects the two.

`sub r repl s` replaces the leftmost, non-overlapping matches from left to right.  `Subst` is the same
as a relation; `not_occurs_sub` says when the result contains no match at all.
-/

namespace Aeh

/-- A pattern: a class, a greedy run of at least `lo` members of a class, sequence and ordered choice. -/
inductive Re (α : Type) where
  | eps
  | cls (p : α → Bool)
  | many (p : α → Bool) (lo : ℕ)
  | seq (a b : Re α)
  | alt (a b : Re α)

namespace Re

variable {α : Type}

/-! ## The engine -/

/-- What is left of `s` after runs of members of `p`, the longest run first. -/
def runs (p : α → Bool) : ℕ → List α → List (List α)
  | 0, [] => [[]]
  | _ + 1, [] => []
  | 0, c :: s => (if p c then runs p 0 s else []) ++ [c :: s]
  | lo + 1, c :: s => if p c then runs p lo s else []

/-- What is left of `s` after each match at its start, in the order the engine tries them. -/
def ends : Re α → List α → List (List α)
  | eps, s => [s]
  | cls _, [] => []
  | cls p, c :: s => if p c then [s] else []
  | many p lo, s => runs p lo s
  | seq a b, s => (ends a s).flatMap (ends b)
  | alt a b, s => ends a s ++ ends b s

/-- `r.match(s)`: what is left after the match the engine reports at the start of `s`. -/
def matchHere (r : Re α) (s : List α) : Option (List α) := (ends r s).head?

/-- `r.search(s) is not None`. -/
def search (r : Re α) (s : List α) : Bool := s.tails.any fun t => (matchHere r t).isSome

/-- `sub` with `k` more characters of the last match to drop. -/
def subFrom (r : Re α) (repl : List α) : ℕ → List α → List α
  | _, [] => []
  | k + 1, _ :: s => subFrom r repl k s
  | 0, c :: s =>
    match matchHere r (c :: s) with
    | none => c :: subFrom r repl 0 s
    | some rest => repl ++ subFrom r repl (s.length - rest.length) s

/-- `r.sub(repl, s)` for a pattern that matches no empty word. -/
def sub (r : Re α) (repl s : List α) : List α := subFrom r repl 0 s

/-! ## Words of a pattern -/

/-- `w` is a word of the pattern. -/
inductive Matches : Re α → List α → Prop
  | eps : Matches .eps []
  | cls {p : α → Bool} {c : α} : p c = true → Matches (.cls p) [c]
  | many {p : α → Bool} {lo : ℕ} {w : List α} : (∀ c ∈ w, p c = true) → lo ≤ w.length →
      Matches (.many p lo) w
  | seq {a b : Re α} {u v : List α} : Matches a u → Matches b v → Matches (.seq a b) (u ++ v)
  | left {a b : Re α} {w : List α} : Matches a w → Matches (.alt a b) w
  | right {a b : Re α} {w : List α} : Matches b w → Matches (.alt a b) w

theorem mem_runs {p : α → Bool} {lo : ℕ} {s t : List α} :
    t ∈ runs p lo s ↔ ∃ w, (∀ c ∈ w, p c = true) ∧ lo ≤ w.length ∧ s = w ++ t := by
  induction s generalizing lo with
  | nil =>
    cases lo with
    | zero =>
      constructor
      · intro h
        rw [runs, List.mem_singleton] at h
        exact ⟨[], by simp, le_rfl, by simp [h]⟩
      · rintro ⟨w, -, -, h⟩
        obtain ⟨-, rfl⟩ := List.append_eq_nil_iff.mp h.symm
        simp [runs]
    | succ lo =>
      constructor
      · intro h
        simp [runs] at h
      · rintro ⟨w, -, h2, h⟩
        obtain ⟨rfl, -⟩ := List.append_eq_nil_iff.mp h.symm
        simp at h2
  | cons c s ih =>
    constructor
    · cases lo with
      | zero =>
        intro h
        rcases List.mem_append.mp h with h | h
        · split_ifs at h with hc
          · obtain ⟨w, h1, -, rfl⟩ := ih.mp h
            exact ⟨c :: w, by simpa [hc] using h1, by simp, rfl⟩
          · simp at h
        · rw [List.mem_singleton] at h
          exact ⟨[], by simp, le_rfl, by simp [h]⟩
      | succ lo =>
        intro h
        unfold runs at h
        split_ifs at h with hc
        · obtain ⟨w, h1, h2, rfl⟩ := ih.mp h
          exact ⟨c :: w, by simpa [hc] using h1, by simpa using h2, rfl⟩
        · simp at h
    · rintro ⟨w, h1, h2, h3⟩
      cases w with
      | nil =>
        obtain rfl : lo = 0 := by simpa using h2
        simp only [List.nil_append] at h3
        subst h3
        simp [runs]
      | cons d w =>
        simp only [List.cons_append, List.cons.injEq] at h3
        obtain ⟨rfl, rfl⟩ := h3
        have hc : p c = true := h1 c (by simp)
        have hw : ∀ d ∈ w, p d = true := fun d hd => h1 d (by simp [hd])
        cases lo with
        | zero =>
          refine List.mem_append_left _ ?_
          rw [if_pos hc]
          exact ih.mpr ⟨w, hw, by simp, rfl⟩
        | succ lo =>
          unfold runs
          rw [if_pos hc]
          exact ih.mpr ⟨w, hw, by simpa using h2, rfl⟩

/-- The engine finds exactly the words of the pattern. -/
theorem mem_ends {r : Re α} {s t : List α} : t ∈ ends r s ↔ ∃ w, Matches r w ∧ s = w ++ t := by
  induction r generalizing s t with
  | eps =>
    constructor
    · intro h
      rw [ends, List.mem_singleton] at h
      exact ⟨[], .eps, by simp [h]⟩
    · rintro ⟨w, hw, rfl⟩
      cases hw
      simp [ends]
  | cls p =>
    constructor
    · intro h
      cases s with
      | nil => simp [ends] at h
      | cons c s =>
        unfold ends at h
        split_ifs at h with hc
        · rw [List.mem_singleton] at h
          exact ⟨[c], .cls hc, by simp [h]⟩
        · simp at h
    · rintro ⟨w, hw, rfl⟩
      cases hw with
      | cls hc => simp [ends, hc]
  | many p lo =>
    rw [ends, mem_runs]
    constructor
    · rintro ⟨w, h1, h2, h3⟩
      exact ⟨w, .many h1 h2, h3⟩
    · rintro ⟨w, hw, h3⟩
      cases hw with
      | many h1 h2 => exact ⟨w, h1, h2, h3⟩
  | seq a b iha ihb =>
    rw [ends, List.mem_flatMap]
    constructor
    · rintro ⟨m, hm, ht⟩
      obtain ⟨u, hu, rfl⟩ := iha.mp hm
      obtain ⟨v, hv, rfl⟩ := ihb.mp ht
      exact ⟨u ++ v, .seq hu hv, by simp⟩
    · rintro ⟨w, hw, rfl⟩
      cases hw with
      | @seq _ _ u v hu hv =>
        exact ⟨v ++ t, iha.mpr ⟨u, hu, by simp⟩, ihb.mpr ⟨v, hv, rfl⟩⟩
  | alt a b iha ihb =>
    rw [ends, List.mem_append, iha, ihb]
    constructor
    · rintro (⟨w, hw, h⟩ | ⟨w, hw, h⟩)
      · exact ⟨w, .left hw, h⟩
      · exact ⟨w, .right hw, h⟩
    · rintro ⟨w, hw, h⟩
      cases hw with
      | left hw => exact Or.inl ⟨w, hw, h⟩
      | right hw => exact Or.inr ⟨w, hw, h⟩

theorem matchHere_some {r : Re α} {s t : List α} (h : matchHere r s = some t) :
    ∃ w, Matches r w ∧ s = w ++ t := mem_ends.mp (List.mem_of_mem_head? h)

theorem matchHere_none {r : Re α} {s : List α} :
    matchHere r s = none ↔ ∀ w, Matches r w → ¬ w <+: s := by
  unfold matchHere
  rw [List.head?_eq_none_iff, List.eq_nil_iff_forall_not_mem]
  constructor
  · rintro h w hw ⟨t, rfl⟩
    exact h t (mem_ends.mpr ⟨w, hw, rfl⟩)
  · intro h t ht
    obtain ⟨w, hw, rfl⟩ := mem_ends.mp ht
    exact h w hw ⟨t, rfl⟩

/-- Some part of `s` is a word of the pattern. -/
def Occurs (r : Re α) (s : List α) : Prop := ∃ w, Matches r w ∧ w <:+: s

theorem search_iff {r : Re α} {s : List α} : search r s = true ↔ Occurs r s := by
  unfold search Occurs
  rw [List.any_eq_true]
  constructor
  · rintro ⟨t, ht, h⟩
    obtain ⟨u, hu⟩ := Option.isSome_iff_exists.mp h
    obtain ⟨w, hw, rfl⟩ := matchHere_some hu
    rw [List.mem_tails] at ht
    exact ⟨w, hw, (List.prefix_append w u).isInfix.trans ht.isInfix⟩
  · rintro ⟨w, hw, a, b, rfl⟩
    refine ⟨w ++ b, ?_, ?_⟩
    · rw [List.mem_tails]
      exact ⟨a, by simp⟩
    · cases h : matchHere r (w ++ b) with
      | some t => rfl
      | none => exact absurd (List.prefix_append w b) (matchHere_none.mp h w hw)

/-- A match occurs iff one starts at some suffix. -/
theorem occurs_iff_suffix {r : Re α} {s : List α} :
    Occurs r s ↔ ∃ t, t <:+ s ∧ ∃ w, Matches r w ∧ w <+: t := by
  constructor
  · rintro ⟨w, hw, a, b, rfl⟩
    exact ⟨w ++ b, ⟨a, by simp⟩, w, hw, List.prefix_append _ _⟩
  · rintro ⟨t, ht, w, hw, hp⟩
    exact ⟨w, hw, hp.isInfix.trans ht.isInfix⟩

theorem Occurs.mono {r : Re α} {s t : List α} (h : Occurs r s) (hs : s <:+: t) : Occurs r t := by
  obtain ⟨w, hw, hi⟩ := h
  exact ⟨w, hw, hi.trans hs⟩

/-! ## Substitution -/

/-- `out` is `s` with its leftmost, non-overlapping matches replaced. -/
inductive Subst (r : Re α) (repl : List α) : List α → List α → Prop
  | nil : Subst r repl [] []
  | keep {c : α} {s out : List α} : (∀ w, Matches r w → ¬ w <+: c :: s) → Subst r repl s out →
      Subst r repl (c :: s) (c :: out)
  | hit {w s out : List α} : Matches r w → Subst r repl s out →
      Subst r repl (w ++ s) (repl ++ out)

theorem subFrom_eq_drop {r : Re α} {repl : List α} (k : ℕ) (s : List α) :
    subFrom r repl k s = subFrom r repl 0 (s.drop k) := by
  induction k generalizing s with
  | zero => rfl
  | succ k ih =>
    cases s with
    | nil => rfl
    | cons c s => exact ih s

/-- What `sub` computes, for a pattern without an empty match. -/
theorem subst_sub {r : Re α} (hne : ∀ w, Matches r w → w ≠ []) (repl s : List α) :
    Subst r repl s (sub r repl s) := by
  generalize hn : s.length = n
  induction n using Nat.strong_induction_on generalizing s with
  | _ n ih =>
    cases s with
    | nil => exact .nil
    | cons c s =>
      subst hn
      unfold sub subFrom
      cases h : matchHere r (c :: s) with
      | none => exact .keep (matchHere_none.mp h) (ih s.length (by simp) s rfl)
      | some rest =>
        obtain ⟨w, hw, hs⟩ := matchHere_some h
        obtain ⟨d, u, rfl⟩ := List.exists_cons_of_ne_nil (hne w hw)
        simp only [List.cons_append, List.cons.injEq] at hs
        obtain ⟨rfl, rfl⟩ := hs
        have hd : (u ++ rest).drop ((u ++ rest).length - rest.length) = rest := by
          rw [List.length_append, Nat.add_sub_cancel, List.drop_left]
        have hlt : rest.length < (c :: (u ++ rest)).length := by
          rw [List.length_cons, List.length_append]
          omega
        dsimp only
        rw [subFrom_eq_drop, hd]
        exact .hit hw (ih rest.length hlt rest rfl)

/-- The result keeps the text before the first match and continues with the replacement. -/
theorem Subst.shape {r : Re α} {repl s out : List α} (h : Subst r repl s out) :
    out = s ∨ ∃ g m rest out', Matches r m ∧ s = g ++ m ++ rest ∧ out = g ++ repl ++ out' := by
  induction h with
  | nil => exact Or.inl rfl
  | @keep c s out _ _ ih =>
    rcases ih with rfl | ⟨g, m, rest, out', hm, rfl, rfl⟩
    · exact Or.inl rfl
    · exact Or.inr ⟨c :: g, m, rest, out', hm, rfl, rfl⟩
  | @hit w s out hw _ _ => exact Or.inr ⟨[], w, s, out, hw, rfl, rfl⟩

/-- Where no match occurs nothing is replaced. -/
theorem Subst.eq_of_not_occurs {r : Re α} {repl s out : List α} (h : Subst r repl s out)
    (hs : ¬ Occurs r s) : out = s := by
  rcases h.shape with h | ⟨g, m, rest, out', hm, rfl, -⟩
  · exact h
  · exact absurd ⟨m, hm, g, rest, rfl⟩ hs

/-- **No match survives the substitution**, provided the pattern has no empty match, no match starts
inside the replacement, and a match that runs from ordinary text into the replacement could have run
into any match instead. -/
theorem Subst.not_occurs {r : Re α} {repl s out : List α} (hne : ∀ w, Matches r w → w ≠ [])
    (hinert : ∀ a b t w, repl = a ++ b → b ≠ [] → Matches r w → ¬ w <+: b ++ t)
    (hcross : ∀ g u t, u ≠ [] → Matches r (g ++ u) → u <+: repl ++ t →
      ∀ m, Matches r m → ∃ w, Matches r w ∧ w <+: g ++ m)
    (h : Subst r repl s out) : ¬ Occurs r out := by
  rw [occurs_iff_suffix]
  induction h with
  | nil =>
    rintro ⟨t, ht, w, hw, hp⟩
    obtain rfl := List.suffix_nil.mp ht
    exact hne w hw (List.prefix_nil.mp hp)
  | @keep c s out hno hsub ih =>
    rintro ⟨t, ht, w, hw, hp⟩
    rcases List.suffix_cons_iff.mp ht with rfl | ht
    · rcases hsub.shape with rfl | ⟨g, m, rest, out', hm, rfl, rfl⟩
      · exact hno w hw hp
      · -- `w` starts in the kept text `c :: g`: it ends there, or it runs into the replacement
        have hp' : w <+: (c :: g) ++ (repl ++ out') := by simpa using hp
        rcases List.prefix_or_prefix_of_prefix hp' (List.prefix_append _ _) with hp' | ⟨u, rfl⟩
        · exact hno w hw (hp'.trans ⟨m ++ rest, by simp⟩)
        · have hu : u <+: repl ++ out' := (List.prefix_append_right_inj _).mp hp'
          by_cases hu0 : u = []
          · subst hu0
            exact hno _ hw ⟨m ++ rest, by simp⟩
          · obtain ⟨w', hw', hp''⟩ := hcross (c :: g) u out' hu0 hw hu m hm
            exact hno w' hw' (hp''.trans ⟨rest, by simp⟩)
    · exact ih ⟨t, ht, w, hw, hp⟩
  | @hit w₀ s out _ _ ih =>
    rintro ⟨t, ⟨u, hu⟩, w, hw, hp⟩
    rcases List.append_eq_append_iff.mp hu with ⟨b, rfl, rfl⟩ | ⟨c, rfl, rfl⟩
    · by_cases hb : b = []
      · subst hb
        exact ih ⟨out, List.suffix_refl _, w, hw, by simpa using hp⟩
      · exact hinert u b out w rfl hb hw hp
    · exact ih ⟨t, List.suffix_append _ _, w, hw, hp⟩

/-! ## Checks on patterns

The two conditions of `Subst.not_occurs` can be read off a pattern by evaluation. -/

/-- No word of the pattern contains `c`. -/
def avoids (c : α) : Re α → Bool
  | eps => true
  | cls p => !p c
  | many p _ => !p c
  | seq a b => avoids c a && avoids c b
  | alt a b => avoids c a && avoids c b

theorem not_mem_of_avoids {c : α} {r : Re α} {w : List α} (h : avoids c r = true)
    (hw : Matches r w) : c ∉ w := by
  induction hw with
  | eps => simp
  | @cls p d hd =>
    intro hc
    rw [List.mem_singleton] at hc
    subst hc
    simp [avoids, hd] at h
  | many h1 _ =>
    intro hc
    simp [avoids, h1 c hc] at h
  | seq _ _ iha ihb =>
    simp only [avoids, Bool.and_eq_true] at h
    simp [iha h.1, ihb h.2]
  | left _ ih =>
    simp only [avoids, Bool.and_eq_true] at h
    exact ih h.1
  | right _ ih =>
    simp only [avoids, Bool.and_eq_true] at h
    exact ih h.2

/-- Some word of the pattern may begin with `s` (`false` excludes it). -/
def mayStart : Re α → List α → Bool
  | eps, s => s.isEmpty
  | cls _, [] => true
  | cls p, [c] => p c
  | cls _, _ => false
  | many p _, s => s.all p
  | seq a b, s => mayStart a s || (ends a s).any (mayStart b)
  | alt a b, s => mayStart a s || mayStart b s

theorem mayStart_of_head {r : Re α} {w s : List α} (hw : Matches r w) (hs : s <+: w) :
    mayStart r s = true := by
  induction hw generalizing s with
  | eps =>
    obtain rfl := List.prefix_nil.mp hs
    rfl
  | @cls p c hc =>
    match s, hs with
    | [], _ => rfl
    | [d], hs =>
      obtain ⟨t, ht⟩ := hs
      simp only [List.cons_append, List.cons.injEq] at ht
      simpa [mayStart, ht.1] using hc
    | d :: e :: s, hs => simpa using hs.length_le
  | many h1 _ =>
    rw [mayStart, List.all_eq_true]
    exact fun c hc => h1 c (hs.subset hc)
  | @seq a b u v hu _ iha ihb =>
    rw [mayStart, Bool.or_eq_true]
    rcases List.prefix_or_prefix_of_prefix hs (List.prefix_append u v) with h | ⟨t, rfl⟩
    · exact Or.inl (iha h)
    · refine Or.inr (List.any_eq_true.mpr ⟨t, mem_ends.mpr ⟨u, hu, rfl⟩, ihb ?_⟩)
      exact (List.prefix_append_right_inj u).mp hs
  | left _ ih => rw [mayStart, Bool.or_eq_true]; exact Or.inl (ih hs)
  | right _ ih => rw [mayStart, Bool.or_eq_true]; exact Or.inr (ih hs)

/-- No match starts inside the replacement, whatever follows it. -/
def inert (r : Re α) (repl : List α) : Bool :=
  repl.tails.all fun b => b.isEmpty || ((matchHere r b).isNone && !mayStart r b)

theorem not_prefix_of_inert {r : Re α} {repl a b t w : List α} (h : inert r repl = true)
    (hr : repl = a ++ b) (hb : b ≠ []) (hw : Matches r w) : ¬ w <+: b ++ t := by
  intro hp
  have hmem : b ∈ repl.tails := by rw [List.mem_tails, hr]; exact List.suffix_append a b
  have hc := List.all_eq_true.mp h b hmem
  simp only [Bool.or_eq_true, List.isEmpty_iff, hb, false_or, Bool.and_eq_true,
    Option.isNone_iff_eq_none, Bool.not_eq_true'] at hc
  rcases List.prefix_or_prefix_of_prefix hp (List.prefix_append b t) with h' | h'
  · exact matchHere_none.mp hc.1 w hw h'
  · rw [mayStart_of_head hw h'] at hc
    exact absurd hc.2 (by simp)

/-- A word of `a p+` that reaches `c` outside `a` could go on with any other member of `p`. -/
theorem matches_tail {a : Re α} {p : α → Bool} {c x : α} {g u : List α} (ha : avoids c a = true)
    (hw : Matches (.seq a (.many p 1)) (g ++ c :: u)) (hx : p x = true) :
    Matches (.seq a (.many p 1)) (g ++ [x]) := by
  generalize hs : g ++ c :: u = s at hw
  cases hw with
  | @seq _ _ v n hv hn =>
    cases hn with
    | many h1 h2 =>
      rcases List.append_eq_append_iff.mp hs with ⟨k, rfl, hk⟩ | ⟨k, rfl, rfl⟩
      · -- `c` would lie in the word of `a`
        cases k with
        | nil =>
          simp only [List.nil_append] at hk
          subst hk
          rw [List.append_nil] at hv
          exact .seq hv (.many (by simpa using hx) (by simp))
        | cons d k =>
          simp only [List.cons_append, List.cons.injEq] at hk
          obtain ⟨rfl, -⟩ := hk
          exact absurd (by simp) (not_mem_of_avoids ha hv)
      · rw [List.append_assoc]
        refine .seq hv (.many ?_ (by simp))
        intro d hd
        rcases List.mem_append.mp hd with hd | hd
        · exact h1 d (List.mem_append_left _ hd)
        · rw [List.mem_singleton] at hd
          exact hd ▸ hx

end Re

end Aeh
