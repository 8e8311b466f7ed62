import Mathlib.Algebra.BigOperators.Group.List.Basic
import Mathlib.Algebra.Ring.Nat
import Aeh.Lib.Regex

/-!
# Pieces — a text as `sub` cuts it

`pieces r s` is the text `s` as the characters `sub` keeps and the matches it replaces.  `out` of the pieces is what
`sub` returns and `src` of them is the text, so what is lost or gained is read off the matches (`weight_sub`).

A match that ends inside `x` is a match of `x` alone, whatever follows (`ends_append`).  Two texts therefore have the
same pieces up to the first one that depends on where they part: `pieces_shared` for a text that breaks off,
`pieces_snoc` for one more character behind it.
-/

namespace Aeh

namespace Re

/-- A part of a text under `sub`. -/
inductive Piece (α : Type) where
  | kept (c : α)
  | hit (w : List α)

variable {α : Type}

namespace Piece

/-- The text the piece is a part of. -/
def src : Piece α → List α
  | kept c => [c]
  | hit w => w

/-- What `sub` puts for it. -/
def out (repl : List α) : Piece α → List α
  | kept c => [c]
  | hit _ => repl

/-- The match, of a replaced piece. -/
def found : Piece α → Option (List α)
  | kept _ => none
  | hit w => some w

end Piece

/-- `pieces` with `k` more characters of the last match to drop. -/
def piecesFrom (r : Re α) : ℕ → List α → List (Piece α)
  | _, [] => []
  | k + 1, _ :: s => piecesFrom r k s
  | 0, c :: s =>
    match matchHere r (c :: s) with
    | none => .kept c :: piecesFrom r 0 s
    | some rest => .hit ((c :: s).take (s.length + 1 - rest.length)) :: piecesFrom r (s.length - rest.length) s

/-- The characters `sub` keeps and the matches it replaces, from left to right. -/
def pieces (r : Re α) (s : List α) : List (Piece α) := piecesFrom r 0 s

/-- The text of the pieces. -/
def srcs (ps : List (Piece α)) : List α := ps.flatMap Piece.src

/-- What `sub` returns for them. -/
def outs (repl : List α) (ps : List (Piece α)) : List α := ps.flatMap (Piece.out repl)

/-- The matches `r.finditer` finds. -/
def found (r : Re α) (s : List α) : List (List α) := (pieces r s).filterMap Piece.found

@[simp] theorem srcs_nil : srcs ([] : List (Piece α)) = [] := rfl

@[simp] theorem srcs_cons (p : Piece α) (ps : List (Piece α)) : srcs (p :: ps) = p.src ++ srcs ps := rfl

@[simp] theorem srcs_append (ps qs : List (Piece α)) : srcs (ps ++ qs) = srcs ps ++ srcs qs := List.flatMap_append

@[simp] theorem outs_nil (repl : List α) : outs repl ([] : List (Piece α)) = [] := rfl

@[simp] theorem outs_cons (repl : List α) (p : Piece α) (ps : List (Piece α)) :
    outs repl (p :: ps) = p.out repl ++ outs repl ps := rfl

@[simp] theorem outs_append (repl : List α) (ps qs : List (Piece α)) :
    outs repl (ps ++ qs) = outs repl ps ++ outs repl qs := List.flatMap_append

@[simp] theorem src_kept (c : α) : (Piece.kept c).src = [c] := rfl

@[simp] theorem src_hit (w : List α) : (Piece.hit w).src = w := rfl

@[simp] theorem out_kept (repl : List α) (c : α) : (Piece.kept c).out repl = [c] := rfl

@[simp] theorem out_hit (repl w : List α) : (Piece.hit w).out repl = repl := rfl

/-! ## The cut -/

section Cut

variable {r : Re α}

theorem piecesFrom_eq_drop (k : ℕ) (s : List α) : piecesFrom r k s = pieces r (s.drop k) := by
  induction k generalizing s with
  | zero => rfl
  | succ k ih =>
    cases s with
    | nil => rfl
    | cons c s => exact ih s

@[simp] theorem pieces_nil : pieces r ([] : List α) = [] := rfl

theorem pieces_kept {c : α} {s : List α} (h : matchHere r (c :: s) = none) :
    pieces r (c :: s) = .kept c :: pieces r s := by
  rw [pieces, piecesFrom, h]
  rfl

theorem pieces_hit {w s : List α} (hw : w ≠ []) (h : matchHere r (w ++ s) = some s) :
    pieces r (w ++ s) = .hit w :: pieces r s := by
  obtain ⟨c, v, rfl⟩ := List.exists_cons_of_ne_nil hw
  rw [List.cons_append] at h ⊢
  have hl : (v ++ s).length + 1 - s.length = (c :: v).length := by
    rw [List.length_append, List.length_cons]
    omega
  have hd : (v ++ s).length - s.length = v.length := by
    rw [List.length_append]
    omega
  rw [pieces, piecesFrom, h]
  dsimp only
  rw [hl, hd, piecesFrom_eq_drop, List.drop_left, ← List.cons_append, List.take_left]

/-- The scan from left to right, for a pattern without an empty match. -/
theorem scan_induction (hne : ∀ w, Matches r w → w ≠ []) {motive : List α → Prop} (nil : motive [])
    (kept : ∀ c s, matchHere r (c :: s) = none → motive s → motive (c :: s))
    (hit : ∀ w s, w ≠ [] → Matches r w → matchHere r (w ++ s) = some s → motive s → motive (w ++ s))
    (s : List α) : motive s := by
  induction hn : s.length using Nat.strong_induction_on generalizing s with
  | _ n ih =>
    subst hn
    cases s with
    | nil => exact nil
    | cons c s =>
      cases h : matchHere r (c :: s) with
      | none => exact kept c s h (ih s.length (by simp) s rfl)
      | some rest =>
        obtain ⟨w, hw, hs⟩ := matchHere_some h
        have hl : rest.length < (c :: s).length := by
          have := List.length_pos_of_ne_nil (hne w hw)
          rw [hs, List.length_append]
          omega
        rw [hs] at h ⊢
        exact hit w rest (hne w hw) hw h (ih rest.length hl rest rfl)

theorem subFrom_zero_kept {repl : List α} {c : α} {s : List α} (h : matchHere r (c :: s) = none) :
    sub r repl (c :: s) = c :: sub r repl s := by
  rw [sub, subFrom, h]
  rfl

theorem sub_hit {repl w s : List α} (hw : w ≠ []) (h : matchHere r (w ++ s) = some s) :
    sub r repl (w ++ s) = repl ++ sub r repl s := by
  obtain ⟨c, v, rfl⟩ := List.exists_cons_of_ne_nil hw
  rw [List.cons_append] at h ⊢
  have hd : (v ++ s).length - s.length = v.length := by
    rw [List.length_append]
    omega
  rw [sub, subFrom, h]
  dsimp only
  rw [hd, subFrom_eq_drop, List.drop_left]
  rfl

variable (hne : ∀ w, Matches r w → w ≠ [])
include hne

/-- The pieces make up the text. -/
theorem srcs_pieces (s : List α) : srcs (pieces r s) = s := by
  induction s using scan_induction hne with
  | nil => rfl
  | kept c s h ih => rw [pieces_kept h, srcs_cons, ih]; rfl
  | hit w s hw _ h ih => rw [pieces_hit hw h, srcs_cons, ih]; rfl

/-- **What `sub` returns, piece by piece.** -/
theorem sub_eq_outs (repl s : List α) : sub r repl s = outs repl (pieces r s) := by
  induction s using scan_induction hne with
  | nil => rfl
  | kept c s h ih => rw [pieces_kept h, subFrom_zero_kept h, outs_cons, ih]; rfl
  | hit w s hw _ h ih => rw [pieces_hit hw h, sub_hit hw h, outs_cons, ih]; rfl

theorem pieces_eq_kept {c : α} {s : List α} {ps : List (Piece α)} (h : pieces r s = .kept c :: ps) :
    ∃ t, s = c :: t ∧ matchHere r (c :: t) = none ∧ pieces r t = ps := by
  induction s using scan_induction hne with
  | nil => cases h
  | kept d s hm _ =>
    rw [pieces_kept hm] at h
    cases h
    exact ⟨s, rfl, hm, rfl⟩
  | hit w s hw _ hm _ =>
    rw [pieces_hit hw hm] at h
    cases h

theorem pieces_eq_hit {w s : List α} {ps : List (Piece α)} (h : pieces r s = .hit w :: ps) :
    ∃ t, s = w ++ t ∧ w ≠ [] ∧ Matches r w ∧ matchHere r (w ++ t) = some t ∧ pieces r t = ps := by
  induction s using scan_induction hne with
  | nil => cases h
  | kept d s hm _ =>
    rw [pieces_kept hm] at h
    cases h
  | hit w s hw hmw hm _ =>
    rw [pieces_hit hw hm] at h
    cases h
    exact ⟨s, rfl, hw, hmw, hm, rfl⟩

/-- The pieces from some point on are those of the rest of the text. -/
theorem pieces_suffix {s : List α} {ps qs : List (Piece α)} (h : pieces r s = ps ++ qs) :
    s = srcs ps ++ srcs qs ∧ pieces r (srcs qs) = qs := by
  have hs : s = srcs ps ++ srcs qs := by rw [← srcs_append, ← h, srcs_pieces hne]
  refine ⟨hs, ?_⟩
  induction ps generalizing s with
  | nil =>
    have h : pieces r s = qs := h
    rw [← h, srcs_pieces hne]
  | cons p ps ih =>
    rw [List.cons_append] at h
    have ht : ∃ t, pieces r t = ps ++ qs := by
      cases p with
      | kept c =>
        obtain ⟨t, -, -, ht⟩ := pieces_eq_kept hne h
        exact ⟨t, ht⟩
      | hit w =>
        obtain ⟨t, -, -, -, -, ht⟩ := pieces_eq_hit hne h
        exact ⟨t, ht⟩
    obtain ⟨t, ht⟩ := ht
    have hst : t = srcs ps ++ srcs qs := by rw [← srcs_append, ← ht, srcs_pieces hne]
    exact ih ht hst

/-- Every replaced piece is a match. -/
theorem matches_of_mem_pieces {w s : List α} (h : .hit w ∈ pieces r s) : Matches r w := by
  obtain ⟨ps, qs, hp⟩ := List.append_of_mem h
  obtain ⟨-, hq⟩ := pieces_suffix hne hp
  obtain ⟨t, -, -, hw, -, -⟩ := pieces_eq_hit hne hq
  exact hw

/-- What `sub` adds to a weight, the replacements, and what it takes away, the matches. -/
theorem weight_sub (weight : α → ℕ) (repl s : List α) :
    ((sub r repl s).map weight).sum + ((found r s).flatten.map weight).sum =
      (s.map weight).sum + (found r s).length * (repl.map weight).sum := by
  unfold found
  induction s using scan_induction hne with
  | nil => simp [sub, subFrom]
  | kept c s h ih =>
    rw [pieces_kept h, subFrom_zero_kept h]
    simp only [List.filterMap_cons, Piece.found, List.map_cons, List.sum_cons]
    omega
  | hit w s hw _ h ih =>
    rw [pieces_hit hw h, sub_hit hw h]
    simp only [List.filterMap_cons, Piece.found, List.flatten_cons, List.map_append, List.sum_append, List.length_cons]
    rw [Nat.add_mul]
    omega

theorem length_sub (repl s : List α) :
    (sub r repl s).length + (found r s).flatten.length = s.length + (found r s).length * repl.length := by
  have h := weight_sub hne (fun _ => 1) repl s
  simpa only [List.map_const', List.sum_replicate_nat, Nat.mul_one] using h

end Cut

/-! ## Matches that end inside a part of the text -/

theorem length_le_of_mem_ends {r : Re α} {s t : List α} (h : t ∈ ends r s) : t.length ≤ s.length := by
  obtain ⟨w, -, rfl⟩ := mem_ends.mp h
  rw [List.length_append]
  omega

theorem filter_ends_eq_nil {r : Re α} {s : List α} {n : ℕ} (h : s.length < n) :
    (ends r s).filter (fun t => n ≤ t.length) = [] := by
  rw [List.filter_eq_nil_iff]
  intro t ht
  have := length_le_of_mem_ends ht
  simp only [decide_eq_true_eq]
  omega

theorem filter_runs (p : α → Bool) (lo : ℕ) (x y : List α) :
    (runs p lo (x ++ y)).filter (fun t => y.length ≤ t.length) = (runs p lo x).map (· ++ y) := by
  have short : ∀ {s : List α} {lo : ℕ}, s.length < y.length →
      (runs p lo s).filter (fun t => y.length ≤ t.length) = [] := fun {s lo} h => filter_ends_eq_nil (r := .many p lo) h
  induction x generalizing lo with
  | nil =>
    rw [List.nil_append]
    cases y with
    | nil => cases lo <;> simp [runs]
    | cons c y =>
      cases lo with
      | zero =>
        have hr : runs p 0 (c :: y) = (if p c then runs p 0 y else []) ++ [c :: y] := rfl
        rw [hr, List.filter_append]
        split_ifs with hc
        · rw [short (by simp)]
          simp [runs]
        · simp [runs]
      | succ lo =>
        unfold runs
        split_ifs with hc
        · rw [short (by simp)]
          rfl
        · rfl
  | cons c x ih =>
    rw [List.cons_append]
    cases lo with
    | zero =>
      rw [runs, runs, List.filter_append, List.map_append]
      have hl : y.length ≤ (c :: (x ++ y)).length := by
        rw [List.length_cons, List.length_append]
        omega
      congr 1
      · split_ifs with hc
        · exact ih 0
        · rfl
      · rw [List.filter_cons_of_pos (by simpa using hl)]
        rfl
    | succ lo =>
      unfold runs
      split_ifs with hc
      · exact ih lo
      · rfl

/-- **The matches that end inside `x` are those of `x` alone**, in the same order. -/
theorem ends_append (r : Re α) (x y : List α) :
    (ends r (x ++ y)).filter (fun t => y.length ≤ t.length) = (ends r x).map (· ++ y) := by
  induction r generalizing x with
  | eps => simp [ends]
  | cls p =>
    cases x with
    | nil =>
      cases y with
      | nil => rfl
      | cons c y =>
        rw [List.nil_append]
        unfold ends
        split_ifs <;> simp
    | cons c x =>
      rw [List.cons_append]
      unfold ends
      split_ifs <;> simp
  | many p lo => exact filter_runs p lo x y
  | seq a b iha ihb =>
    have hb : ∀ t : List α, t.length < y.length → (ends b t).filter (fun t => y.length ≤ t.length) = [] :=
      fun t ht => filter_ends_eq_nil ht
    have hf : ∀ l : List (List α), (l.flatMap (ends b)).filter (fun t => y.length ≤ t.length) =
        (l.filter (fun t => y.length ≤ t.length)).flatMap
          fun t => (ends b t).filter (fun t => y.length ≤ t.length) := by
      intro l
      induction l with
      | nil => rfl
      | cons t l ih =>
        rw [List.flatMap_cons, List.filter_append, ih]
        by_cases ht : y.length ≤ t.length
        · rw [List.filter_cons_of_pos (by simpa using ht), List.flatMap_cons]
        · rw [List.filter_cons_of_neg (by simpa using ht), hb t (by omega), List.nil_append]
    rw [ends, ends, hf, iha, List.flatMap_map, List.map_flatMap]
    exact List.flatMap_congr fun t _ => ihb t
  | alt a b iha ihb => rw [ends, ends, List.filter_append, iha, ihb, List.map_append]

/-- A match that ends inside `x` is found in `x` alone. -/
theorem matchHere_of_append {r : Re α} {x y t : List α} (h : matchHere r (x ++ y) = some t)
    (ht : y.length ≤ t.length) : ∃ t', matchHere r x = some t' ∧ t = t' ++ y := by
  have hh : ((ends r (x ++ y)).filter fun t => y.length ≤ t.length).head? = some t := by
    obtain ⟨l, hl⟩ := List.head?_eq_some_iff.mp h
    rw [hl, List.filter_cons_of_pos (by simpa using ht)]
    rfl
  rw [ends_append, List.head?_map] at hh
  obtain ⟨t', h', rfl⟩ := Option.map_eq_some_iff.mp hh
  exact ⟨t', h', rfl⟩

theorem matchHere_none_of_append {r : Re α} {x y : List α} (h : matchHere r (x ++ y) = none) :
    matchHere r x = none := by
  rw [matchHere_none] at h ⊢
  exact fun w hw hp => h w hw (hp.trans (List.prefix_append x y))

section Shared

variable {r : Re α} (hne : ∀ w, Matches r w → w ≠ [])
include hne

/-- A text that breaks off behind some of its pieces keeps them. -/
theorem pieces_shared {s z : List α} {ps qs : List (Piece α)} (h : pieces r s = ps ++ qs) (hz : z <+: srcs qs) :
    pieces r (srcs ps ++ z) = ps ++ pieces r z := by
  induction ps generalizing s with
  | nil => rfl
  | cons p ps ih =>
    rw [List.cons_append] at h
    obtain ⟨z', hz'⟩ := hz
    cases p with
    | kept c =>
      obtain ⟨t, -, hm, ht⟩ := pieces_eq_kept hne h
      have htx : c :: t = (c :: (srcs ps ++ z)) ++ z' := by
        rw [(pieces_suffix hne ht).1, ← hz']
        simp
      rw [htx] at hm
      rw [srcs_cons, src_kept, List.append_assoc, List.singleton_append, pieces_kept (matchHere_none_of_append hm),
        ih ht, List.cons_append]
    | hit w =>
      obtain ⟨t, -, hw, -, hm, ht⟩ := pieces_eq_hit hne h
      have htx : t = (srcs ps ++ z) ++ z' := by
        rw [(pieces_suffix hne ht).1, ← hz']
        simp
      rw [htx, ← List.append_assoc w] at hm
      obtain ⟨t', hm', he⟩ := matchHere_of_append hm (by rw [List.length_append]; omega)
      obtain rfl := List.append_cancel_right he
      rw [srcs_cons, src_hit, List.append_assoc, pieces_hit hw hm', ih ht, List.cons_append]

/-- One more character is a piece of its own or belongs to a match that takes all from some piece on. -/
theorem pieces_snoc {f : α} (hf : ¬ Matches r [f]) (x : List α) :
    pieces r (x ++ [f]) = pieces r x ++ [.kept f] ∨
      ∃ ps qs, pieces r x = ps ++ qs ∧ qs ≠ [] ∧ pieces r (x ++ [f]) = ps ++ [.hit (srcs qs ++ [f])] := by
  have swallow : ∀ x : List α, x ≠ [] → matchHere r (x ++ [f]) = some [] →
      ∃ ps qs, pieces r x = ps ++ qs ∧ qs ≠ [] ∧ pieces r (x ++ [f]) = ps ++ [.hit (srcs qs ++ [f])] := by
    intro x hx hm
    refine ⟨[], pieces r x, rfl, ?_, ?_⟩
    · intro h
      have hs := srcs_pieces hne x
      rw [h] at hs
      exact hx hs.symm
    · have hp := pieces_hit (s := []) (by simp : x ++ [f] ≠ []) (by rwa [List.append_nil])
      rw [List.append_nil] at hp
      rw [srcs_pieces hne, hp]
      rfl
  have short : ∀ t : List α, ¬ [f].length ≤ t.length → t = [] := fun t h => by
    rw [List.length_singleton] at h
    exact List.length_eq_zero_iff.mp (by omega)
  induction x using scan_induction hne with
  | nil =>
    have hm : matchHere r [f] = none := by
      rw [matchHere_none]
      rintro w hw ⟨t, ht⟩
      cases w with
      | nil => exact hne _ hw rfl
      | cons d w =>
        simp only [List.cons_append, List.cons.injEq, List.append_eq_nil_iff] at ht
        obtain ⟨rfl, rfl, -⟩ := ht
        exact hf hw
    exact Or.inl (pieces_kept hm)
  | kept c s h ih =>
    cases hm : matchHere r (c :: s ++ [f]) with
    | none =>
      rw [List.cons_append] at hm ⊢
      rw [pieces_kept hm, pieces_kept h]
      rcases ih with ih | ⟨ps, qs, hps, hqs, ih⟩
      · exact Or.inl (by rw [ih]; rfl)
      · exact Or.inr ⟨.kept c :: ps, qs, by rw [hps]; rfl, hqs, by rw [ih]; rfl⟩
    | some t =>
      by_cases ht : [f].length ≤ t.length
      · obtain ⟨t', h', -⟩ := matchHere_of_append hm ht
        rw [h] at h'
        cases h'
      · rw [short t ht] at hm
        exact Or.inr (swallow (c :: s) (by simp) hm)
  | hit w s hw hmw h ih =>
    cases hm : matchHere r (w ++ s ++ [f]) with
    | none =>
      rw [List.append_assoc] at hm
      exact absurd (List.prefix_append w _) (matchHere_none.mp hm w hmw)
    | some t =>
      by_cases ht : [f].length ≤ t.length
      · obtain ⟨t', h', rfl⟩ := matchHere_of_append hm ht
        rw [h] at h'
        cases h'
        rw [List.append_assoc] at hm ⊢
        rw [pieces_hit hw hm, pieces_hit hw h]
        rcases ih with ih | ⟨ps, qs, hps, hqs, ih⟩
        · exact Or.inl (by rw [ih]; rfl)
        · exact Or.inr ⟨.hit w :: ps, qs, by rw [hps]; rfl, hqs, by rw [ih]; rfl⟩
      · rw [short t ht] at hm
        exact Or.inr (swallow (w ++ s) (by simp [hw]) hm)

end Shared

/-! ## Positions -/

/-- The character at the position lies in a match that is replaced. -/
def Removes (r : Re α) (s : List α) (p : ℕ) : Prop :=
  ∃ ps w qs, pieces r s = ps ++ .hit w :: qs ∧ (srcs ps).length ≤ p ∧ p < (srcs ps).length + w.length

/-- Whatever the pattern matches, from any start position, is removed. -/
def Thorough (r : Re α) (s : List α) : Prop :=
  ∀ i rest, matchHere r (s.drop i) = some rest → ∀ p, i ≤ p → p < s.length - rest.length → Removes r s p

/-- The piece a position lies in. -/
theorem piece_at (ps : List (Piece α)) {i : ℕ} (h : i < (srcs ps).length) : ∃ before q behind,
    ps = before ++ q :: behind ∧ (srcs before).length ≤ i ∧ i < (srcs before).length + q.src.length := by
  induction ps generalizing i with
  | nil => cases h
  | cons q ps ih =>
    by_cases hi : i < q.src.length
    · exact ⟨[], q, ps, rfl, Nat.zero_le i, by simpa using hi⟩
    · rw [srcs_cons, List.length_append] at h
      obtain ⟨before, q', behind, rfl, h1, h2⟩ := ih (i := i - q.src.length) (by omega)
      refine ⟨q :: before, q', behind, rfl, ?_, ?_⟩
      · rw [srcs_cons, List.length_append]
        omega
      · rw [srcs_cons, List.length_append]
        omega

/-- Where a piece begins and the character is removed, a match begins. -/
theorem Removes.hit {r : Re α} (hne : ∀ w, Matches r w → w ≠ []) {s : List α} {ps qs : List (Piece α)}
    (hp : pieces r s = ps ++ qs) (h : Removes r s (srcs ps).length) : ∃ w rest, qs = .hit w :: rest := by
  obtain ⟨ps', w, qs', hp', h1, h2⟩ := h
  have he : ps ++ qs = ps' ++ .hit w :: qs' := hp.symm.trans hp'
  rcases List.append_eq_append_iff.mp he with ⟨a, rfl, rfl⟩ | ⟨a, rfl, ha⟩
  · cases a with
    | nil => exact ⟨w, qs', rfl⟩
    | cons q a =>
      have hq : q.src ≠ [] := by
        cases q with
        | kept c => exact List.cons_ne_nil c []
        | hit v =>
          refine hne v (matches_of_mem_pieces hne (s := s) ?_)
          rw [hp]
          simp
      have := List.length_pos_of_ne_nil hq
      rw [srcs_append, srcs_cons, List.length_append, List.length_append] at h1
      omega
  · cases a with
    | nil => exact ⟨w, qs', by simpa using ha.symm⟩
    | cons q a =>
      rw [List.cons_append, List.cons.injEq] at ha
      obtain ⟨rfl, -⟩ := ha
      rw [srcs_append, srcs_cons, List.length_append, List.length_append, src_hit] at h2
      omega

/-! ## Greed -/

theorem runs_head {p : α → Bool} {lo : ℕ} {s t : List α} (h : (runs p lo s).head? = some t) :
    ∀ c ∈ t.head?, p c = false := by
  induction s generalizing lo with
  | nil =>
    cases lo with
    | zero =>
      obtain rfl : [] = t := by simpa [runs] using h
      simp
    | succ lo => simp [runs] at h
  | cons d s ih =>
    cases lo with
    | zero =>
      rw [runs] at h
      split_ifs at h with hd
      · cases hr : runs p 0 s with
        | nil =>
          have hm : s ∈ runs p 0 s := mem_runs.mpr ⟨[], by simp, le_rfl, rfl⟩
          rw [hr] at hm
          cases hm
        | cons u l =>
          rw [hr] at h
          obtain rfl : u = t := by simpa using h
          exact ih (by rw [hr]; rfl)
      · obtain rfl : d :: s = t := by simpa using h
        intro c hc
        obtain rfl : d = c := by simpa using hc
        simpa using hd
    | succ lo =>
      unfold runs at h
      split_ifs at h with hd
      · exact ih h
      · cases h

theorem matchHere_seq {a b : Re α} {s t : List α} (h : matchHere (.seq a b) s = some t) :
    ∃ u, (∃ w, Matches a w ∧ s = w ++ u) ∧ matchHere b u = some t := by
  unfold matchHere at h
  rw [ends, List.head?_flatMap] at h
  obtain ⟨u, hu, ht⟩ := List.exists_of_findSome?_eq_some h
  exact ⟨u, mem_ends.mp hu, ht⟩

theorem matchHere_alt {a b : Re α} {s t : List α} (h : matchHere (.alt a b) s = some t) :
    matchHere a s = some t ∨ matchHere b s = some t := by
  unfold matchHere at h
  rw [ends, List.head?_append] at h
  cases ha : (ends a s).head? with
  | none =>
    rw [ha] at h
    exact Or.inr h
  | some u =>
    rw [ha] at h
    exact Or.inl (by rw [matchHere, ha]; exact h)

/-- A text is a run of members of `p` and a rest that does not go on with one in one way only. -/
theorem run_unique {p : α → Bool} {a a' b b' : List α} (ha : ∀ c ∈ a, p c = true) (hb : ∀ c ∈ b.head?, p c = false)
    (ha' : ∀ c ∈ a', p c = true) (hb' : ∀ c ∈ b'.head?, p c = false) (h : a ++ b = a' ++ b') : a = a' ∧ b = b' := by
  induction a generalizing a' with
  | nil =>
    cases a' with
    | nil => exact ⟨rfl, h⟩
    | cons c a' =>
      rw [List.nil_append] at h
      have hc := hb c (by rw [h]; rfl)
      rw [ha' c (List.mem_cons_self ..)] at hc
      cases hc
  | cons c a ih =>
    cases a' with
    | nil =>
      rw [List.nil_append] at h
      have hc := hb' c (by rw [← h]; rfl)
      rw [ha c (List.mem_cons_self ..)] at hc
      cases hc
    | cons c' a' =>
      rw [List.cons_append, List.cons_append, List.cons.injEq] at h
      obtain ⟨rfl, rfl⟩ := ih (fun d hd => ha d (List.mem_cons_of_mem _ hd))
        (fun d hd => ha' d (List.mem_cons_of_mem _ hd)) h.2
      exact ⟨by rw [h.1], rfl⟩

theorem head_append {p : α → Bool} {a b : List α} (ha : ∀ c ∈ a, p c = false) (hb : ∀ c ∈ b.head?, p c = false) :
    ∀ c ∈ (a ++ b).head?, p c = false := by
  cases a with
  | nil => exact hb
  | cons c a =>
    intro d hd
    obtain rfl : c = d := by simpa using hd
    exact ha c (List.mem_cons_self ..)

/-- A run is as long as it can be. -/
theorem matchHere_many {p : α → Bool} {lo : ℕ} {s t : List α} (h : matchHere (.many p lo) s = some t) :
    ∀ c ∈ t.head?, p c = false := runs_head h

end Re

end Aeh
