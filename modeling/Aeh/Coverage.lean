import Aeh.Secrets

/-!
# Coverage — the matches `scrub` misses

Leftmost matches do not overlap.  A match that starts inside a replaced one and ends behind it is missed, and its tail
stays in the text.  That happens exactly where the replaced match ends with the beginning of another marker and what
follows completes it (`Opens`).
-/

namespace Aeh

open Re

namespace SECRET

/-! ## Markers cut in two -/

/-- `\s`. -/
def space : Re CodePoint := .cls isSpace

/-- `\s*`. -/
def spaces : Re CodePoint := .many isSpace 0

/-- `\S`. -/
def nonspace : Re CodePoint := .cls fun x => !isSpace x

/-- A marker in two parts, the second with the first character of the value. -/
def openings : List (Re CodePoint × Re CodePoint) :=
  [(wordI "bearer", .seq space (.seq spaces nonspace)),
    (key, .seq spaces (.seq (oneOf ":=") (.seq spaces nonspace))),
    (.seq key (.seq spaces (oneOf ":=")), .seq space (.seq spaces nonspace))]

/-- The text `m` ends with the first part of a marker and what follows begins with the second. -/
def Opens (m rest : PyStr) : Prop :=
  ∃ o ∈ openings, (∃ u, u <:+ m ∧ Matches o.1 u) ∧ ∃ v, v <+: rest ∧ Matches o.2 v

theorem matches_spaces {sp : PyStr} : spaces.Matches sp ↔ ∀ y ∈ sp, isSpace y = true := by
  constructor
  · intro h
    cases h with
    | many hs _ => exact hs
  · exact fun h => .many h (Nat.zero_le _)

theorem matches_nonspace {v : PyStr} (h : nonspace.Matches v) : ∃ x, v = [x] ∧ isSpace x = false := by
  cases h with
  | @cls _ x hx => exact ⟨x, rfl, by simpa using hx⟩

theorem matches_blank {v : PyStr} (h : Matches (.seq space (.seq spaces nonspace)) v) : ∃ sp x, v = sp ++ [x] ∧
    sp ≠ [] ∧ (∀ y ∈ sp, isSpace y = true) ∧ isSpace x = false := by
  cases h with
  | seq hc h =>
    cases h with
    | @seq _ _ sp _ hs hx =>
      obtain ⟨x, rfl, hx'⟩ := matches_nonspace hx
      cases hc with
      | @cls _ c hc =>
        refine ⟨c :: sp, x, rfl, List.cons_ne_nil c sp, fun y hy => ?_, hx'⟩
        rcases List.mem_cons.mp hy with rfl | hy
        · exact hc
        · exact matches_spaces.mp hs y hy

theorem blank_matches {sp v : PyStr} {x : CodePoint} (hs0 : sp ≠ []) (hs : ∀ y ∈ sp, isSpace y = true)
    (hx : isSpace x = false) (hv : v = sp ++ [x]) : Matches (.seq space (.seq spaces nonspace)) v := by
  obtain ⟨c, sp, rfl⟩ := List.exists_cons_of_ne_nil hs0
  subst hv
  refine .seq (u := [c]) (.cls (hs c (List.mem_cons_self ..))) (.seq (.many ?_ (Nat.zero_le _)) (.cls (by simp [hx])))
  exact fun y hy => hs y (List.mem_cons_of_mem _ hy)

theorem colon_matches {c : CodePoint} (hc : c = cp ':' ∨ c = cp '=') : Matches (oneOf ":=") [c] := by
  refine .cls ?_
  rcases hc with rfl | rfl <;> decide

/-- The two parts together are a secret. -/
theorem opening_word {o : Re CodePoint × Re CodePoint} (ho : o ∈ openings) {u v : PyStr} (hu : Matches o.1 u)
    (hv : Matches o.2 v) : SECRET.Matches (u ++ v) := by
  have value : ∀ {x : CodePoint}, isSpace x = false → SECRET.value.Matches [x] := fun {x} hx =>
    .many (by simpa using hx) le_rfl
  simp only [openings, List.mem_cons, List.not_mem_nil, or_false] at ho
  rcases ho with rfl | rfl | rfl
  · obtain ⟨sp, x, rfl, hs0, hs, hx⟩ := matches_blank hv
    rw [← List.append_assoc]
    exact .left (.seq (.seq hu (.many hs (List.length_pos_of_ne_nil hs0))) (value hx))
  · cases hv with
    | @seq _ _ sp _ hs h =>
      cases h with
      | seq hc h =>
        cases h with
        | seq hs' hx =>
          obtain ⟨x, rfl, hx'⟩ := matches_nonspace hx
          rw [← List.append_assoc, ← List.append_assoc, ← List.append_assoc, List.append_assoc u,
            List.append_assoc u, List.append_assoc sp]
          exact .right (.right (.seq (.seq hu (.seq hs (.seq hc hs'))) (value hx')))
  · obtain ⟨sp', x, rfl, -, hs', hx⟩ := matches_blank hv
    cases hu with
    | @seq _ _ k _ hk h =>
      cases h with
      | @seq _ _ sp _ hs hc =>
        rw [← List.append_assoc, List.append_assoc k, List.append_assoc sp]
        exact .right (.right (.seq (.seq hk (.seq hs (.seq hc (.many hs' (Nat.zero_le _))))) (value hx)))

/-- What completes a marker does not begin like a value or another marker. -/
theorem opening_tail {o : Re CodePoint × Re CodePoint} (ho : o ∈ openings) {v : PyStr} (hv : Matches o.2 v) :
    ∃ d v', v = d :: v' ∧ isKeyChar d = false := by
  have hhead : v ≠ [] ∧ ∀ d ∈ v.head?, isKeyChar d = false := by
    simp only [openings, List.mem_cons, List.not_mem_nil, or_false] at ho
    rcases ho with rfl | rfl | rfl
    · obtain ⟨sp, x, rfl, hs0, hs, -⟩ := matches_blank hv
      exact ⟨by simp, head_spaces hs0 hs _⟩
    · cases hv with
      | seq hs h =>
        cases h with
        | seq hc h =>
          obtain ⟨c, rfl, hc'⟩ := matches_colon hc
          exact ⟨by simp, head_colon (matches_spaces.mp hs) hc'⟩
    · obtain ⟨sp, x, rfl, hs0, hs, -⟩ := matches_blank hv
      exact ⟨by simp, head_spaces hs0 hs _⟩
  obtain ⟨d, v', rfl⟩ := List.exists_cons_of_ne_nil hhead.1
  exact ⟨d, v', rfl, hhead.2 d rfl⟩

/-- A secret is longer than the first part of a marker. -/
theorem not_matches_of_prefix {o : Re CodePoint × Re CodePoint} (ho : o ∈ openings) {u w : PyStr} (hu : Matches o.1 u)
    (hw : w <+: u) : ¬ SECRET.Matches w := by
  intro h
  obtain ⟨t, rfl⟩ := hw
  -- a word of key characters only is of the second kind
  have plain : (∀ x ∈ w ++ t, isKeyChar x = true) → start (w ++ t) = lit "sk" := by
    intro hall
    have hno : ∀ x ∈ w, isKeyChar x = false → False := fun x hx hf => by
      rw [hall x (List.mem_append_left _ hx)] at hf
      cases hf
    rcases kinds h with hb | hb | hb
    · cases hb with
      | @mk k sp v _ hs0 hs _ _ =>
        obtain ⟨y, sp, rfl⟩ := List.exists_cons_of_ne_nil hs0
        exact (hno y (by simp) (not_isKeyChar_space (hs y (by simp)))).elim
    · exact hb.start t
    · cases hb with
      | @mk k sp sp' v c _ _ hc _ _ _ => exact (hno c (by simp) (not_isKeyChar_colon hc)).elim
  simp only [openings, List.mem_cons, List.not_mem_nil, or_false] at ho
  rcases ho with rfl | rfl | rfl
  · have hf := matches_wordI.mp hu
    have hs := plain (bearer_chars hf)
    have hb := start_of_fold hf (by decide) []
    rw [List.append_nil, hs] at hb
    exact absurd hb (by decide)
  · have hs := plain (key_chars hu)
    have hb := start_key hu []
    rw [List.append_nil, hs] at hb
    exact absurd hb (by decide)
  · generalize hx : w ++ t = x at hu
    cases hu with
    | @seq _ _ k _ hk h' =>
      cases h' with
      | @seq _ _ sp _ hs hc =>
        obtain ⟨c, rfl, hcc⟩ := matches_colon hc
        have hb := start_key hk (sp ++ [c])
        rw [← hx] at hb
        rcases kinds h with hw | hw | hw
        · rw [hw.start t] at hb
          exact absurd hb (by decide)
        · rw [hw.start t] at hb
          exact absurd hb (by decide)
        · clear hb
          cases hw with
          | @mk k' sp₁ sp₂ v c' hk' hs₁ hc' _ hv0 _ =>
            rw [List.append_assoc, List.append_assoc, List.cons_append] at hx
            obtain ⟨-, hx⟩ := run_unique (key_chars hk') (head_colon hs₁ hc') (key_chars hk)
              (head_colon (matches_spaces.mp hs) hcc) hx
            obtain ⟨-, hx⟩ := run_unique (p := isSpace) hs₁ (head_not_space hc' _) (matches_spaces.mp hs)
              (head_not_space hcc _) hx
            simp only [List.cons.injEq, List.append_eq_nil_iff] at hx
            exact hv0 hx.2.1.2

/-! ## Overlapping matches -/

/-- The last character of a secret is none of white space. -/
theorem last_not_space {m u a : PyStr} (hm : Bearer m ∨ Assigned m) (hu : u <:+ m) (ha : a ≠ []) (has : a <:+ u) :
    ¬ ∀ x ∈ a, isSpace x = true := by
  intro hall
  have hend : ∃ g v, m = g ++ v ∧ v ≠ [] ∧ ∀ x ∈ v, isSpace x = false := by
    rcases hm with hm | hm
    · cases hm with
      | mk _ _ _ hv0 hv => exact ⟨_, _, (List.append_assoc ..).symm, hv0, hv⟩
    · cases hm with
      | @mk k sp sp' v c _ _ _ _ hv0 hv => exact ⟨k ++ (sp ++ (c :: sp')), v, by simp, hv0, hv⟩
  obtain ⟨g, v, rfl, hv0, hv⟩ := hend
  have h1 := List.getLast_mem ha
  obtain ⟨t, ht⟩ := has.trans hu
  have he : (t ++ a).getLast (by simp [ha]) = (g ++ v).getLast (by simp [hv0]) := by simp only [ht]
  rw [List.getLast_append_of_ne_nil _ ha, List.getLast_append_of_ne_nil _ hv0] at he
  have h2 := hv _ (List.getLast_mem hv0)
  rw [← he, hall _ h1] at h2
  cases h2

theorem past_run {p : CodePoint → Bool} {k t u v : PyStr} {d : CodePoint} (hk : ∀ x ∈ k, p x = true) (hd : p d = false)
    (h : u ++ d :: v = k ++ t) : ∃ a, u = k ++ a ∧ t = a ++ d :: v := by
  rcases List.append_eq_append_iff.mp h with ⟨a, rfl, ha⟩ | ⟨a, rfl, ha⟩
  · cases a with
    | nil => exact ⟨[], by simp, by simpa using ha.symm⟩
    | cons e a =>
      rw [List.cons_append, List.cons.injEq] at ha
      rw [ha.1, hk e (by simp)] at hd
      cases hd
  · exact ⟨a, rfl, ha⟩

theorem past_spaces {sp t a v : PyStr} (hs : ∀ x ∈ sp, isSpace x = true) (ha : ¬ ∀ x ∈ a, isSpace x = true)
    (h : a ++ v = sp ++ t) : ∃ b, b ≠ [] ∧ a = sp ++ b ∧ t = b ++ v := by
  rcases List.append_eq_append_iff.mp h with ⟨b, rfl, -⟩ | ⟨b, rfl, hb⟩
  · exact absurd (fun x hx => hs x (List.mem_append_left _ hx)) ha
  · refine ⟨b, ?_, rfl, hb⟩
    rintro rfl
    exact ha (by simpa using hs)

/-- What comes behind a match is no character of the class, and what of its end is none either comes before white
space. -/
theorem behind_match {m u rest : PyStr} {d : CodePoint}
    (hm : ((Bearer m ∨ Assigned m) ∧ ∀ c ∈ rest.head?, isSpace c = true) ∨
      (Sk m ∧ ∀ c ∈ rest.head?, isKeyChar c = false))
    (hu : u <:+ m) (hd : d ∈ rest.head?) :
    isKeyChar d = false ∧ ∀ x ∈ u, isKeyChar x = false → (Bearer m ∨ Assigned m) ∧ isSpace d = true := by
  rcases hm with ⟨hm, h⟩ | ⟨hm, h⟩
  · exact ⟨not_isKeyChar_space (h d hd), fun x _ _ => ⟨hm, h d hd⟩⟩
  · refine ⟨h d hd, fun x hx hf => ?_⟩
    cases hm with
    | mk hk hval =>
      rcases List.mem_append.mp (hu.subset hx) with h | h
      · rw [isKeyChar_of_mem hk (by decide) x h] at hf
        cases hf
      · rw [hval x h] at hf
        cases hf

theorem head_of_not_space {val : PyStr} (hval0 : val ≠ []) (hval : ∀ x ∈ val, isSpace x = false) :
    ∃ y t, val = y :: t ∧ isSpace y = false := by
  obtain ⟨y, t, rfl⟩ := List.exists_cons_of_ne_nil hval0
  exact ⟨y, t, rfl, hval y (List.mem_cons_self ..)⟩

section Behind

variable {m u v rest : PyStr} {d : CodePoint} (hkey : isKeyChar d = false)
  (hspace : ∀ x ∈ u, isKeyChar x = false → (Bearer m ∨ Assigned m) ∧ isSpace d = true) (hu : u <:+ m)
  (hv : d :: v <+: rest)
include hkey hspace hu hv

theorem opens_of_bearer (h : Bearer (u ++ d :: v)) : Opens m rest := by
  generalize hx : u ++ d :: v = w at h
  cases h with
  | @mk k sp val hk hs0 hs hval0 hval =>
    obtain ⟨a, rfl, ha⟩ := past_run (bearer_chars hk) hkey hx
    by_cases ha0 : a = []
    · subst ha0
      rw [List.append_nil] at hu
      obtain ⟨y, t, rfl, hy⟩ := head_of_not_space hval0 hval
      refine ⟨_, List.mem_cons_self .., ⟨k, hu, matches_wordI.mpr hk⟩, sp ++ [y], ?_, blank_matches hs0 hs hy rfl⟩
      rw [List.nil_append] at ha
      exact List.IsPrefix.trans ⟨t, by rw [← ha]; simp⟩ hv
    · -- the value starts in the match, so white space would be inside it
      obtain ⟨y, sp, rfl⟩ := List.exists_cons_of_ne_nil hs0
      obtain ⟨e, a, rfl⟩ := List.exists_cons_of_ne_nil ha0
      have hye : y = e := (List.cons.inj ha).1
      have he : isSpace e = true := hye ▸ hs y (List.mem_cons_self ..)
      obtain ⟨hm, hsp⟩ := hspace e (by simp) (not_isKeyChar_space he)
      obtain ⟨b, -, -, hb⟩ := past_spaces hs (last_not_space hm hu ha0 (List.suffix_append _ _)) ha.symm
      rw [hval d (by rw [hb]; simp)] at hsp
      cases hsp

theorem opens_of_assigned (h : Assigned (u ++ d :: v)) : Opens m rest := by
  generalize hx : u ++ d :: v = w at h
  cases h with
  | @mk k sp sp' val c hk hs hc hs' hval0 hval =>
    obtain ⟨a, rfl, ha⟩ := past_run (key_chars hk) hkey hx
    obtain ⟨y, t, rfl, hy⟩ := head_of_not_space hval0 hval
    by_cases ha0 : a = []
    · subst ha0
      rw [List.append_nil] at hu
      refine ⟨_, List.mem_cons_of_mem _ (List.mem_cons_self ..), ⟨k, hu, hk⟩, sp ++ ([c] ++ (sp' ++ [y])), ?_,
        .seq (matches_spaces.mpr hs)
          (.seq (colon_matches hc) (.seq (matches_spaces.mpr hs') (.cls (by simp [hy]))))⟩
      rw [List.nil_append] at ha
      exact List.IsPrefix.trans ⟨t, by rw [← ha]; simp⟩ hv
    · obtain ⟨e, a, rfl⟩ := List.exists_cons_of_ne_nil ha0
      have he : isKeyChar e = false := head_colon (z := sp' ++ y :: t) hs hc e (by rw [ha]; rfl)
      obtain ⟨hm, hsp⟩ := hspace e (by simp) he
      obtain ⟨b, hb0, hab, hb⟩ := past_spaces hs (last_not_space hm hu ha0 (List.suffix_append _ _)) ha.symm
      obtain ⟨c', b, rfl⟩ := List.exists_cons_of_ne_nil hb0
      rw [List.cons_append, List.cons.injEq] at hb
      obtain ⟨rfl, hb⟩ := hb
      rw [hab] at hu
      by_cases hb1 : b = []
      · subst hb1
        obtain ⟨z, sp', rfl⟩ : ∃ z s, sp' = z :: s := by
          cases sp' with
          | nil =>
            rw [List.nil_append, List.nil_append, List.cons.injEq] at hb
            rw [← hb.1, hy] at hsp
            cases hsp
          | cons z s => exact ⟨z, s, rfl⟩
        refine ⟨_, List.mem_cons_of_mem _ (List.mem_cons_of_mem _ (List.mem_cons_self ..)),
          ⟨k ++ (sp ++ [c]), hu, .seq hk (.seq (matches_spaces.mpr hs) (colon_matches hc))⟩, (z :: sp') ++ [y], ?_,
          blank_matches (List.cons_ne_nil z sp') hs' hy rfl⟩
        rw [List.nil_append] at hb
        exact List.IsPrefix.trans ⟨t, by rw [← hb]; simp⟩ hv
      · have hbs : b <:+ k ++ (sp ++ c :: b) := ⟨k ++ (sp ++ [c]), by simp⟩
        obtain ⟨b', -, -, hb'⟩ := past_spaces hs' (last_not_space hm hu hb1 hbs) hb.symm
        rw [hval d (by rw [hb']; simp)] at hsp
        cases hsp

end Behind

/-- **A secret that starts inside a match and ends behind it starts with a marker the match has swallowed.** -/
theorem opens_of_overlap {m u v rest : PyStr}
    (hm : ((Bearer m ∨ Assigned m) ∧ ∀ c ∈ rest.head?, isSpace c = true) ∨
      (Sk m ∧ ∀ c ∈ rest.head?, isKeyChar c = false))
    (hu : u <:+ m) (hv0 : v ≠ []) (hv : v <+: rest) (hw : SECRET.Matches (u ++ v)) : Opens m rest := by
  obtain ⟨d, v', rfl⟩ := List.exists_cons_of_ne_nil hv0
  have hd : d ∈ rest.head? := by
    obtain ⟨t, rfl⟩ := hv
    rfl
  obtain ⟨hkey, hspace⟩ := behind_match hm hu hd
  rcases kinds hw with h | h | h
  · exact opens_of_bearer hkey hspace hu hv h
  · generalize hx : u ++ d :: v' = w at h
    cases h with
    | @mk k val hk hval =>
      have hall : ∀ x ∈ k ++ val, isKeyChar x = true := by
        intro x hx'
        rcases List.mem_append.mp hx' with h | h
        · exact isKeyChar_of_mem hk (by decide) x h
        · exact hval x h
      rw [hall d (by rw [← hx]; simp)] at hkey
      cases hkey
  · exact opens_of_assigned hkey hspace hu hv h

end SECRET

/-! ## What is missed -/

theorem not_removes_of_tail {s : PyStr} {ps : List (Piece CodePoint)} {d : CodePoint} {t : PyStr}
    {qs : List (Piece CodePoint)} (h : pieces SECRET s = ps ++ qs) (hq : srcs qs = d :: t) (hd : isKeyChar d = false) :
    ¬ Removes SECRET s (srcs ps).length := by
  intro hr
  obtain ⟨w, rest, rfl⟩ := hr.hit SECRET.nonempty h
  have hw : SECRET.Matches w := matches_of_mem_pieces (s := s) SECRET.nonempty (by rw [h]; simp)
  obtain ⟨e, w, rfl⟩ := List.exists_cons_of_ne_nil (SECRET.ne_nil hw)
  obtain ⟨rfl, -⟩ := List.cons.inj hq
  rw [SECRET.head_isKeyChar hw] at hd
  cases hd

/-- A swallowed marker that what follows completes is missed. -/
theorem not_opens_of_thorough {s : PyStr} (h : Thorough SECRET s) {ps qs : List (Piece CodePoint)} {m : PyStr}
    (hp : pieces SECRET s = ps ++ .hit m :: qs) : ¬ SECRET.Opens m (srcs qs) := by
  have hne := SECRET.nonempty
  rintro ⟨o, ho, ⟨u, ⟨g, rfl⟩, hu⟩, v, ⟨t, ht⟩, hv⟩
  have hs := (pieces_suffix hne hp).1
  rw [srcs_cons, src_hit] at hs
  obtain ⟨d, v', rfl, hd⟩ := SECRET.opening_tail ho hv
  -- the engine's match at the start of the swallowed marker ends behind the replaced match
  have hdrop : s.drop ((srcs ps).length + g.length) = u ++ srcs qs := by
    rw [hs, ← List.append_assoc, ← List.append_assoc, List.append_assoc _ u, ← List.length_append, List.drop_left]
  have hword : SECRET.Matches (u ++ d :: v') := SECRET.opening_word ho hu hv
  cases hm : matchHere SECRET (u ++ srcs qs) with
  | none =>
    refine absurd ?_ (matchHere_none.mp hm _ hword)
    rw [← ht, ← List.append_assoc]
    exact List.prefix_append _ _
  | some rest =>
    obtain ⟨w, hw, hwr⟩ := matchHere_some hm
    have hlt : u.length < w.length := by
      by_contra hle
      have hpre : w <+: u := List.prefix_of_prefix_length_le ⟨rest, hwr.symm⟩ (List.prefix_append u _) (by omega)
      exact SECRET.not_matches_of_prefix ho hu hpre hw
    have hr := h _ rest (by rw [hdrop]; exact hm) (srcs (ps ++ [.hit (g ++ u)])).length
    rw [srcs_append, srcs_cons, src_hit, srcs_nil, List.append_nil] at hr
    have hlen : u.length + (srcs qs).length = w.length + rest.length := by
      rw [← List.length_append, hwr, List.length_append]
    have hsl : s.length = (srcs ps).length + (g.length + u.length + (srcs qs).length) := by
      rw [hs]
      simp only [List.length_append]
    have hrem := hr (by simp only [List.length_append]; omega) (by simp only [List.length_append]; omega)
    have hp' : pieces SECRET s = (ps ++ [.hit (g ++ u)]) ++ qs := by rw [hp]; simp
    have hno := not_removes_of_tail hp' (by rw [← ht]; rfl) hd
    rw [srcs_append, srcs_cons, src_hit, srcs_nil, List.append_nil] at hno
    exact hno hrem

/-- A match that is missed starts inside a replaced one and ends behind it. -/
theorem thorough_of_not_opens {s : PyStr}
    (h : ∀ ps m qs, pieces SECRET s = ps ++ .hit m :: qs → ¬ SECRET.Opens m (srcs qs)) : Thorough SECRET s := by
  have hne := SECRET.nonempty
  intro i rest hm p hip hpr
  obtain ⟨w, hw, hwr⟩ := matchHere_some hm
  have hi : i < s.length := by
    by_contra hge
    rw [List.drop_eq_nil_of_le (by omega)] at hwr
    exact SECRET.ne_nil hw (List.append_eq_nil_iff.mp hwr.symm).1
  have hsrc := srcs_pieces hne s
  obtain ⟨ps, q, qs, hp, h1, h2⟩ := piece_at (pieces SECRET s) (i := i) (by rw [hsrc]; exact hi)
  obtain ⟨hs, hsuf⟩ := pieces_suffix hne hp
  cases q with
  | kept c =>
    have hi : i = (srcs ps).length := by
      rw [src_kept, List.length_singleton] at h2
      omega
    obtain ⟨t, ht, hnone, -⟩ := pieces_eq_kept hne hsuf
    rw [hi, hs, List.drop_left, ht, hnone] at hm
    cases hm
  | hit m =>
    rw [src_hit] at h2
    obtain ⟨t, ht, -, -, hmatch, -⟩ := pieces_eq_hit hne hsuf
    have hqt : srcs qs = t := by
      rw [srcs_cons, src_hit] at ht
      exact List.append_cancel_left ht
    obtain ⟨m', hm', hshape⟩ := SECRET.matchHere_shape hmatch
    obtain rfl := List.append_cancel_right hm'
    obtain ⟨g, u, rfl, hgl⟩ : ∃ g u, m = g ++ u ∧ i = (srcs ps).length + g.length :=
      ⟨m.take (i - (srcs ps).length), m.drop (i - (srcs ps).length), (List.take_append_drop ..).symm, by
        rw [List.length_take]
        omega⟩
    have hdrop : s.drop i = u ++ srcs qs := by
      rw [hs, hgl, srcs_cons, src_hit, ← List.append_assoc, ← List.append_assoc, List.append_assoc _ u,
        ← List.length_append, List.drop_left]
    have hsl : s.length = (srcs ps).length + (g.length + u.length + (srcs qs).length) := by
      rw [hs, srcs_cons, src_hit]
      simp only [List.length_append]
    have hul : u.length + (srcs qs).length = w.length + rest.length := by
      rw [← List.length_append, ← hdrop, hwr, List.length_append]
    by_cases hle : w.length ≤ u.length
    · refine ⟨ps, g ++ u, qs, hp, by omega, ?_⟩
      rw [List.length_append]
      omega
    · have hpre : u <+: w :=
        List.prefix_of_prefix_length_le ⟨srcs qs, hdrop.symm⟩ ⟨rest, hwr.symm⟩ (by omega)
      obtain ⟨v, rfl⟩ := hpre
      rw [hdrop, List.append_assoc] at hwr
      refine absurd (SECRET.opens_of_overlap ?_ (List.suffix_append g u) ?_ ⟨rest, ?_⟩ hw) (h ps (g ++ u) qs hp)
      · rw [hqt]
        exact hshape
      · rintro rfl
        simp at hle
      · exact (List.append_cancel_left hwr).symm

/-- **The substitution removes all that `SECRET` matches from any position iff no replaced match ends with the first
part of a marker that what follows completes.** -/
theorem scrub_thorough (s : PyStr) : Thorough SECRET s ↔
    ∀ ps m qs, pieces SECRET s = ps ++ .hit m :: qs → ¬ SECRET.Opens m (srcs qs) := by
  constructor
  · intro h ps m qs hp
    exact not_opens_of_thorough h hp
  · exact thorough_of_not_opens

/-! A credential behind two markers. -/

namespace TwoMarkers

def text : PyStr := lit "password=bearer abc"

theorem pieces_text :
    pieces SECRET text = [.hit (lit "password=bearer")] ++ (lit " abc").map .kept := by rfl

/-- **The credential stays**, though `SECRET` matches `bearer abc` from the ninth character on. -/
theorem scrub_misses : SECRET.sub REDACTED text = lit "[REDACTED] abc" ∧ ¬ Thorough SECRET text := by
  refine ⟨by rfl, fun h => ?_⟩
  have hm : matchHere SECRET (text.drop 9) = some [] := by decide
  have hr : Removes SECRET text 15 := h 9 [] hm 15 (by decide) (by decide)
  exact not_removes_of_tail (d := cp ' ') pieces_text rfl (by decide) hr

end TwoMarkers

end Aeh
