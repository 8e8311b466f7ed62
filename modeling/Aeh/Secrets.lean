import Aeh.Lib.Pieces
import Aeh.Errors

/-!
# Secrets — the words of `SECRET` and the matches `scrub` misses

A word of `SECRET` is a marker and a value.  The engine takes the whole value (`matchHere_shape`), so a word that goes
on behind a match goes on in the value (`extends`), and a match that starts inside another one and ends behind it
starts with a marker the other has swallowed (`opens_of_overlap`).
-/

namespace Aeh

open Re

/-! ## Characters -/

/-- `[a-z0-9_-]` under `re.IGNORECASE`, the class of the `sk-` alternative. -/
def isKeyChar (x : CodePoint) : Bool := isLetter x || isDigit x || x = cp '_' || x = cp '-'

theorem not_space_of_isKeyChar {x : CodePoint} (hx : isKeyChar x = true) : isSpace x = false := by
  by_contra hs
  rw [Bool.not_eq_false] at hs
  have hf := foldCase_space hs
  simp only [isKeyChar, isLetter, hf, isDigit, Bool.or_eq_true, Bool.and_eq_true, decide_eq_true_eq] at hx
  simp only [isSpace, Bool.or_eq_true, Bool.and_eq_true, decide_eq_true_eq, beq_iff_eq] at hs
  have ha : (cp 'a').val = 0x61 := rfl
  have hz : (cp 'z').val = 0x7A := rfl
  rcases hx with ((hx | hx) | rfl) | rfl
  · omega
  · omega
  · exact absurd hs (by decide)
  · exact absurd hs (by decide)

/-- The characters the markers are spelled with, after folding. -/
def isMarkerChar (y : CodePoint) : Bool := (0x61 ≤ y.val && y.val ≤ 0x7A) || y = cp '_' || y = cp '-'

theorem foldCase_eq_punctuation {x y : CodePoint} (hy : y = cp '_' ∨ y = cp '-') (h : foldCase x = y) : x = y := by
  have h1 : (cp '_').val = 0x5F := rfl
  have h2 : (cp '-').val = 0x2D := rfl
  unfold foldCase at h
  split_ifs at h
  · have hv : x.val + 32 = y.val := congrArg Fin.val h
    rcases hy with rfl | rfl <;> omega
  · subst h
    exact absurd hy (by decide)
  · subst h
    exact absurd hy (by decide)
  · subst h
    exact absurd hy (by decide)
  · exact h

theorem isKeyChar_of_fold {x : CodePoint} (hx : isMarkerChar (foldCase x) = true) : isKeyChar x = true := by
  have ha : (cp 'a').val = 0x61 := rfl
  have hz : (cp 'z').val = 0x7A := rfl
  simp only [isMarkerChar, Bool.or_eq_true, Bool.and_eq_true, decide_eq_true_eq] at hx
  unfold isKeyChar isLetter
  rcases hx with (hx | hx) | hx
  · simp [ha, hz, hx]
  · simp [foldCase_eq_punctuation (Or.inl rfl) hx]
  · simp [foldCase_eq_punctuation (Or.inr rfl) hx]

/-! ## Words of the markers -/

theorem matches_fold {cs w : PyStr} :
    Matches (cs.foldr (fun c r => .seq (.cls fun x => foldCase x = c) r) .eps) w ↔ w.map foldCase = cs := by
  induction cs generalizing w with
  | nil =>
    constructor
    · intro h
      cases h
      rfl
    · intro h
      rw [List.map_eq_nil_iff.mp h]
      exact .eps
  | cons c cs ih =>
    constructor
    · intro h
      cases h with
      | seq hu hv =>
        cases hu with
        | cls hx => rw [List.map_append, ih.mp hv, ← of_decide_eq_true hx]; rfl
    · intro h
      cases w with
      | nil => cases h
      | cons x w =>
        rw [List.map_cons, List.cons.injEq] at h
        exact .seq (u := [x]) (.cls (decide_eq_true h.1)) (ih.mpr h.2)

theorem matches_wordI {s : String} {w : PyStr} : Matches (wordI s) w ↔ w.map foldCase = lit s := matches_fold

/-- The keys of `SECRET.assignment`. -/
def SECRET.key : Re CodePoint := .alt (wordI "password") (.alt (wordI "token") (.alt (wordI "secret") apiKey))

/-- What a key reads after folding. -/
def keyFolds : List PyStr :=
  [lit "password", lit "token", lit "secret", lit "apikey", lit "api_key", lit "api-key"]

theorem matches_key {w : PyStr} (h : SECRET.key.Matches w) : w.map foldCase ∈ keyFolds := by
  have hword : ∀ s, (wordI s).Matches w → lit s ∈ keyFolds → w.map foldCase ∈ keyFolds := fun s h hs => by
    rwa [matches_wordI.mp h]
  cases h with
  | left h => exact hword _ h (by decide)
  | right h =>
    cases h with
    | left h => exact hword _ h (by decide)
    | right h =>
      cases h with
      | left h => exact hword _ h (by decide)
      | right h =>
        cases h with
        | seq ha h =>
          cases h with
          | seq ho hk =>
            rw [List.map_append, List.map_append, matches_wordI.mp ha, matches_wordI.mp hk]
            cases ho with
            | left ho =>
              cases ho with
              | @cls _ c hc =>
                have hc : c = cp '_' ∨ c = cp '-' := by simpa [lit] using hc
                rcases hc with rfl | rfl <;> decide
            | right ho =>
              cases ho
              decide

theorem isKeyChar_of_mem {w : PyStr} {fold : PyStr} (hf : w.map foldCase = fold) (hm : fold.all isMarkerChar = true) :
    ∀ x ∈ w, isKeyChar x = true := fun x hx =>
  isKeyChar_of_fold (List.all_eq_true.mp hm _ (by rw [← hf]; exact List.mem_map_of_mem hx))

theorem keyFolds_all : ∀ fold ∈ keyFolds, fold.all isMarkerChar = true := by
  simp only [keyFolds, List.mem_cons, List.not_mem_nil, or_false]
  rintro fold (rfl | rfl | rfl | rfl | rfl | rfl) <;> decide

/-! ## The three kinds of words -/

namespace SECRET

/-- A word of `bearer\s+\S+`, in parts. -/
inductive Bearer : PyStr → Prop
  | mk {k sp v : PyStr} (hk : k.map foldCase = lit "bearer") (hs0 : sp ≠ []) (hs : ∀ x ∈ sp, isSpace x = true)
      (hv0 : v ≠ []) (hv : ∀ x ∈ v, isSpace x = false) : Bearer (k ++ (sp ++ v))

/-- A word of `sk-[a-z0-9_-]{12,}`. -/
inductive Sk : PyStr → Prop
  | mk {k v : PyStr} (hk : k.map foldCase = lit "sk-") (hv : ∀ x ∈ v, isKeyChar x = true) : Sk (k ++ v)

/-- A word of the third alternative. -/
inductive Assigned : PyStr → Prop
  | mk {k sp sp' v : PyStr} {c : CodePoint} (hk : SECRET.key.Matches k) (hs : ∀ x ∈ sp, isSpace x = true)
      (hc : c = cp ':' ∨ c = cp '=') (hs' : ∀ x ∈ sp', isSpace x = true) (hv0 : v ≠ [])
      (hv : ∀ x ∈ v, isSpace x = false) : Assigned (k ++ (sp ++ (c :: (sp' ++ v))))

theorem matches_value {v : PyStr} (h : SECRET.value.Matches v) : v ≠ [] ∧ ∀ x ∈ v, isSpace x = false := by
  cases h with
  | many hv hl => exact ⟨List.ne_nil_of_length_pos hl, fun x hx => by simpa using hv x hx⟩

theorem matches_bearer {w : PyStr} (h : Matches (.seq SECRET.bearer SECRET.value) w) : Bearer w := by
  cases h with
  | seq hm hv =>
    cases hm with
    | seq hk hs =>
      cases hs with
      | many hs hl =>
        obtain ⟨hv0, hv⟩ := matches_value hv
        rw [List.append_assoc]
        exact .mk (matches_wordI.mp hk) (List.ne_nil_of_length_pos hl) hs hv0 hv

theorem matches_dash {w : PyStr} (h : Matches (word "-") w) : w = lit "-" := by
  cases h with
  | seq hc he =>
    cases hc with
    | cls hc =>
      cases he
      rw [of_decide_eq_true hc]
      rfl

theorem matches_sk {w : PyStr} (h : SECRET.sk.Matches w) : Sk w := by
  cases h with
  | seq hk h =>
    cases h with
    | seq hd hv =>
      cases hv with
      | many hv hl =>
        rw [← List.append_assoc]
        refine .mk ?_ hv
        rw [List.map_append, matches_wordI.mp hk, matches_dash hd]
        decide

theorem matches_colon {w : PyStr} (h : Matches (oneOf ":=") w) : ∃ c, w = [c] ∧ (c = cp ':' ∨ c = cp '=') := by
  cases h with
  | @cls _ c hc => exact ⟨c, rfl, by simpa [lit] using hc⟩

theorem matches_assigned {w : PyStr} (h : Matches (.seq SECRET.assignment SECRET.value) w) : Assigned w := by
  cases h with
  | seq hm hv =>
    obtain ⟨hv0, hv⟩ := matches_value hv
    cases hm with
    | seq hk h =>
      cases h with
      | seq hs h =>
        cases h with
        | seq hc hs' =>
          obtain ⟨c, rfl, hc'⟩ := matches_colon hc
          cases hs with
          | many hs _ =>
            cases hs' with
            | many hs' _ =>
              simp only [List.append_assoc, List.singleton_append]
              exact .mk hk hs hc' hs' hv0 hv

theorem kinds {w : PyStr} (h : SECRET.Matches w) : Bearer w ∨ Sk w ∨ Assigned w := by
  cases h with
  | left h => exact Or.inl (matches_bearer h)
  | right h =>
    cases h with
    | left h => exact Or.inr (Or.inl (matches_sk h))
    | right h => exact Or.inr (Or.inr (matches_assigned h))

theorem nonempty : ∀ w, SECRET.Matches w → w ≠ [] := fun _ => SECRET.ne_nil

/-! ## How a word begins -/

/-- The first two characters, folded. -/
def start (w : PyStr) : PyStr := (w.map foldCase).take 2

theorem start_append {k : PyStr} (h : 2 ≤ k.length) (w : PyStr) : start (k ++ w) = start k := by
  rw [start, start, List.map_append, List.take_append_of_le_length (by rwa [List.length_map])]

theorem start_of_fold {k fold : PyStr} (h : k.map foldCase = fold) (hl : 2 ≤ fold.length) (w : PyStr) :
    start (k ++ w) = fold.take 2 := by
  have hk : 2 ≤ k.length := by rwa [← h, List.length_map] at hl
  rw [start_append hk, start, h]

theorem Bearer.start {w : PyStr} (h : Bearer w) (x : PyStr) : start (w ++ x) = lit "be" := by
  cases h with
  | mk hk _ _ _ _ => rw [List.append_assoc, start_of_fold hk (by decide)]; rfl

theorem Sk.start {w : PyStr} (h : Sk w) (x : PyStr) : start (w ++ x) = lit "sk" := by
  cases h with
  | mk hk _ => rw [List.append_assoc, start_of_fold hk (by decide)]; rfl

/-- How the keys begin. -/
def keyStarts : List PyStr := [lit "pa", lit "to", lit "se", lit "ap"]

theorem start_key {k : PyStr} (hk : SECRET.key.Matches k) (x : PyStr) : SECRET.start (k ++ x) ∈ keyStarts := by
  have h : ∀ fold ∈ keyFolds, 2 ≤ fold.length ∧ fold.take 2 ∈ keyStarts := by
    simp only [keyFolds, List.mem_cons, List.not_mem_nil, or_false]
    rintro fold (rfl | rfl | rfl | rfl | rfl | rfl) <;> decide
  rw [start_of_fold rfl (h _ (matches_key hk)).1]
  exact (h _ (matches_key hk)).2

theorem Assigned.start {w : PyStr} (h : Assigned w) (x : PyStr) : SECRET.start (w ++ x) ∈ keyStarts := by
  cases h with
  | mk hk _ _ _ _ _ =>
    rw [List.append_assoc]
    exact start_key hk _

/-! ## How a word goes on -/

theorem not_isKeyChar_space {x : CodePoint} (hx : isSpace x = true) : isKeyChar x = false := by
  by_contra h
  rw [Bool.not_eq_false] at h
  rw [not_space_of_isKeyChar h] at hx
  cases hx

theorem not_isKeyChar_colon {c : CodePoint} (hc : c = cp ':' ∨ c = cp '=') : isKeyChar c = false := by
  rcases hc with rfl | rfl <;> decide

theorem not_isSpace_colon {c : CodePoint} (hc : c = cp ':' ∨ c = cp '=') : isSpace c = false := by
  rcases hc with rfl | rfl <;> decide

theorem bearer_chars {k : PyStr} (hk : k.map foldCase = lit "bearer") : ∀ x ∈ k, isKeyChar x = true :=
  isKeyChar_of_mem hk (by decide)

theorem key_chars {k : PyStr} (hk : SECRET.key.Matches k) : ∀ x ∈ k, isKeyChar x = true :=
  isKeyChar_of_mem rfl (keyFolds_all _ (matches_key hk))

/-- A secret begins with a letter. -/
theorem head_isKeyChar {x : CodePoint} {w : PyStr} (h : SECRET.Matches (x :: w)) : isKeyChar x = true := by
  have hmark : ∀ {k t : PyStr}, k ≠ [] → (∀ y ∈ k, isKeyChar y = true) → x :: w = k ++ t → isKeyChar x = true := by
    intro k t hk0 hk hx
    obtain ⟨y, k, rfl⟩ := List.exists_cons_of_ne_nil hk0
    rw [(List.cons.inj hx).1]
    exact hk y (List.mem_cons_self ..)
  have hne : ∀ {k fold : PyStr}, k.map foldCase = fold → fold ≠ [] → k ≠ [] := by
    rintro k fold rfl hf rfl
    exact hf rfl
  generalize hx : x :: w = w' at h
  rcases kinds h with hb | hb | hb
  · cases hb with
    | mk hk _ _ _ _ => exact hmark (hne hk (by decide)) (bearer_chars hk) hx
  · cases hb with
    | mk hk _ => exact hmark (hne hk (by decide)) (isKeyChar_of_mem hk (by decide)) hx
  · cases hb with
    | mk hk _ _ _ _ _ =>
      refine hmark (hne rfl ?_) (key_chars hk) hx
      intro h0
      have := matches_key hk
      rw [h0] at this
      exact absurd this (by decide)

theorem head_value {v : PyStr} (hv0 : v ≠ []) (hv : ∀ x ∈ v, isSpace x = false) (z : PyStr) :
    ∀ x ∈ (v ++ z).head?, isSpace x = false := by
  intro x hx
  obtain ⟨y, v, rfl⟩ := List.exists_cons_of_ne_nil hv0
  obtain rfl : y = x := by simpa using hx
  exact hv y (List.mem_cons_self ..)

theorem head_spaces {sp : PyStr} (hs0 : sp ≠ []) (hs : ∀ x ∈ sp, isSpace x = true) (z : PyStr) :
    ∀ x ∈ (sp ++ z).head?, isKeyChar x = false := by
  intro x hx
  obtain ⟨y, sp, rfl⟩ := List.exists_cons_of_ne_nil hs0
  obtain rfl : y = x := by simpa using hx
  exact not_isKeyChar_space (hs y (List.mem_cons_self ..))

theorem head_colon {sp z : PyStr} {c : CodePoint} (hs : ∀ x ∈ sp, isSpace x = true) (hc : c = cp ':' ∨ c = cp '=') :
    ∀ x ∈ (sp ++ c :: z).head?, isKeyChar x = false := by
  refine head_append (fun x hx => not_isKeyChar_space (hs x hx)) fun x hx => ?_
  obtain rfl : c = x := by simpa using hx
  exact not_isKeyChar_colon hc

theorem head_not_space {c : CodePoint} (hc : c = cp ':' ∨ c = cp '=') (z : PyStr) :
    ∀ x ∈ (c :: z).head?, isSpace x = false := by
  intro x hx
  obtain rfl : c = x := by simpa using hx
  exact not_isSpace_colon hc

/-- A word that goes on behind a word of the first kind goes on in the value. -/
theorem Bearer.extends {m z : PyStr} {d : CodePoint} (hm : Bearer m) (hword : SECRET.Matches (m ++ d :: z)) :
    isSpace d = false := by
  rcases kinds hword with h | h | h
  · generalize hw : m ++ d :: z = w at h
    cases hm with
    | @mk k sp v hk hs0 hs hv0 hv =>
      cases h with
      | @mk k' sp' v' hk' hs0' hs' hv0' hv' =>
        rw [List.append_assoc, List.append_assoc] at hw
        obtain ⟨-, hw⟩ := run_unique (bearer_chars hk) (head_spaces hs0 hs _) (bearer_chars hk')
          (head_spaces hs0' hs' _) hw
        obtain ⟨-, hw⟩ := run_unique (p := isSpace) hs (head_value hv0 hv _) hs'
          (by simpa using head_value hv0' hv' []) hw
        exact hv' d (by rw [← hw]; simp)
  · have hb := hm.start (d :: z)
    have hs := h.start []
    rw [List.append_nil, hb] at hs
    exact absurd hs (by decide)
  · have hb := hm.start (d :: z)
    have hs := h.start []
    rw [List.append_nil, hb] at hs
    exact absurd hs (by decide)

theorem Sk.extends {m z : PyStr} {d : CodePoint} (hm : Sk m) (hword : SECRET.Matches (m ++ d :: z)) :
    isKeyChar d = true := by
  rcases kinds hword with h | h | h
  · have hb := hm.start (d :: z)
    have hs := h.start []
    rw [List.append_nil, hb] at hs
    exact absurd hs (by decide)
  · generalize hw : m ++ d :: z = w at h
    cases hm with
    | @mk k v hk hv =>
      cases h with
      | @mk k' v' hk' hv' =>
        have hl : k.length = k'.length := by
          have h1 := congrArg List.length hk
          have h2 := congrArg List.length hk'
          rw [List.length_map] at h1 h2
          rw [h1, h2]
        rw [List.append_assoc] at hw
        obtain ⟨-, hw⟩ := List.append_inj hw hl
        exact hv' d (by rw [← hw]; simp)
  · have hb := hm.start (d :: z)
    have hs := h.start []
    rw [List.append_nil, hb] at hs
    exact absurd hs (by decide)

theorem Assigned.extends {m z : PyStr} {d : CodePoint} (hm : Assigned m) (hword : SECRET.Matches (m ++ d :: z)) :
    isSpace d = false := by
  have ha := hm.start (d :: z)
  rcases kinds hword with h | h | h
  · have hs := h.start []
    rw [List.append_nil] at hs
    rw [hs] at ha
    exact absurd ha (by decide)
  · have hs := h.start []
    rw [List.append_nil] at hs
    rw [hs] at ha
    exact absurd ha (by decide)
  · clear ha
    generalize hw : m ++ d :: z = w at h
    cases hm with
    | @mk k sp sp₂ v c hk hs hc hs₂ hv0 hv =>
      cases h with
      | @mk k' sp' sp₂' v' c' hk' hs' hc' hs₂' hv0' hv' =>
        rw [List.append_assoc, List.append_assoc, List.cons_append] at hw
        obtain ⟨-, hw⟩ := run_unique (key_chars hk) (head_colon hs hc) (key_chars hk') (head_colon hs' hc') hw
        obtain ⟨-, hw⟩ := run_unique (p := isSpace) hs (head_not_space hc _) hs' (head_not_space hc' _) hw
        rw [List.cons.injEq, List.append_assoc] at hw
        obtain ⟨-, hw⟩ := run_unique (p := isSpace) hs₂ (head_value hv0 hv _) hs₂'
          (by simpa using head_value hv0' hv' []) hw.2
        exact hv' d (by rw [← hw]; simp)

/-- **What the engine reports**: a word whose value ends where it must. -/
theorem matchHere_shape {s rest : PyStr} (h : matchHere SECRET s = some rest) : ∃ m, s = m ++ rest ∧
    (((Bearer m ∨ Assigned m) ∧ ∀ c ∈ rest.head?, isSpace c = true) ∨
      (Sk m ∧ ∀ c ∈ rest.head?, isKeyChar c = false)) := by
  have hvalue : ∀ {a : Re CodePoint}, matchHere (.seq a SECRET.value) s = some rest →
      ∀ c ∈ rest.head?, isSpace c = true := by
    intro a h c hc
    obtain ⟨u, -, hu⟩ := matchHere_seq h
    simpa using matchHere_many hu c hc
  rcases matchHere_alt h with h | h
  · obtain ⟨m, hm, hs⟩ := matchHere_some h
    exact ⟨m, hs, Or.inl ⟨Or.inl (matches_bearer hm), hvalue h⟩⟩
  · rcases matchHere_alt h with h | h
    · obtain ⟨m, hm, hs⟩ := matchHere_some h
      obtain ⟨u, -, hu⟩ := matchHere_seq h
      obtain ⟨u', -, hu'⟩ := matchHere_seq hu
      exact ⟨m, hs, Or.inr ⟨matches_sk hm, matchHere_many hu'⟩⟩
    · obtain ⟨m, hm, hs⟩ := matchHere_some h
      exact ⟨m, hs, Or.inl ⟨Or.inr (matches_assigned hm), hvalue h⟩⟩

/-- **The engine is greedy**: at the start of what begins a word it takes all of it or nothing. -/
theorem matchHere_greedy {s z rest : PyStr} (h : matchHere SECRET s = some rest) (hz : SECRET.Matches (s ++ z)) :
    rest = [] := by
  obtain ⟨m, rfl, hm⟩ := matchHere_shape h
  cases rest with
  | nil => rfl
  | cons d rest =>
    rw [List.append_assoc, List.cons_append] at hz
    rcases hm with ⟨hm, hd⟩ | ⟨hm, hd⟩
    · have hs : isSpace d = false := by
        rcases hm with hm | hm
        · exact hm.extends hz
        · exact hm.extends hz
      rw [hd d rfl] at hs
      cases hs
    · have hk := hm.extends hz
      rw [hd d rfl] at hk
      cases hk

theorem matchHere_self {m : PyStr} (h : SECRET.Matches m) : matchHere SECRET m = some [] := by
  cases hm : matchHere SECRET m with
  | none => exact absurd List.prefix_rfl (matchHere_none.mp hm m h)
  | some rest => rw [matchHere_greedy (z := []) hm (by rwa [List.append_nil])]

end SECRET

/-- What `scrub` returns, piece by piece. -/
theorem scrub_eq_outs (s : PyStr) (n : ℕ) : scrub s n = (outs REDACTED (pieces SECRET s)).take n := by
  rw [scrub, sub_eq_outs SECRET.nonempty]

end Aeh
