import Aeh.Secrets
import Aeh.Validation

/-!
# CommandOutput — what is stored of what a validation command writes

The bytes are capped while they are read, decoded with U+FFFD for what is no UTF-8, redacted, and cut once more, by
characters this time.  So the stored text can take more bytes than the cap (`output_bounded`), and what the first cut
does to a secret or to a character is not undone (`output_prefix`).
-/

namespace Aeh

open Re

/-! ## Reading -/

/-- `captured.extend(chunk[: Limits.stream_bytes - len(captured)])`, below the cap. -/
def capture (captured chunk : Bytes) : Bytes :=
  if captured.length < Limits.streamBytes then captured ++ chunk.take (Limits.streamBytes - captured.length)
  else captured

/-- What the loop has captured of the chunks. -/
def capturedOf (chunks : List Bytes) : Bytes := chunks.foldl capture []

/-- The text the captured bytes are decoded to. -/
def readText (chunks : List Bytes) : PyStr := Utf8.decodeReplace (capturedOf chunks)

/-- The `output` of the result. -/
def outputOf (chunks : List Bytes) : PyStr := scrub (readText chunks) Limits.streamBytes

theorem foldl_capture (chunks : List Bytes) (stream : Bytes) :
    chunks.foldl capture (stream.take Limits.streamBytes) = (stream ++ chunks.flatten).take Limits.streamBytes := by
  induction chunks generalizing stream with
  | nil => simp
  | cons chunk chunks ih =>
    have hc : capture (stream.take Limits.streamBytes) chunk = (stream ++ chunk).take Limits.streamBytes := by
      unfold capture
      by_cases hl : stream.length < Limits.streamBytes
      · have ht : stream.take Limits.streamBytes = stream := List.take_of_length_le (by omega)
        rw [ht, if_pos hl, List.take_append, ht]
      · have hl' : ¬ (stream.take Limits.streamBytes).length < Limits.streamBytes := by
          rw [List.length_take]
          omega
        rw [if_neg hl', List.take_append_of_le_length (by omega)]
    rw [List.foldl_cons, hc, ih, List.append_assoc, List.flatten_cons]

/-- The cap takes the first bytes, however they come in chunks. -/
theorem capturedOf_eq (chunks : List Bytes) : capturedOf chunks = chunks.flatten.take Limits.streamBytes := by
  have h := foldl_capture chunks []
  rwa [List.take_nil, List.nil_append] at h

/-- The output of a result is that of the chunks of its process. -/
theorem entry_output (run : CommandRun) (id : Json) (chunks : List Bytes) (h : run.output = chunks.flatten) :
    (run.entry id).get? "output" = some (.str (outputOf chunks)) := by
  rw [outputOf, readText, capturedOf_eq, ← h]
  rfl

/-! ## The size of the output -/

/-- The bytes of a character in UTF-8. -/
def utf8Size (c : CodePoint) : ℕ := (Utf8.encodeChar c).length

theorem length_encode (s : PyStr) : (Utf8.encode s).length = (s.map utf8Size).sum := by
  rw [Utf8.encode, List.length_flatMap]
  rfl

theorem utf8Size_spec (c : CodePoint) : 1 ≤ utf8Size c ∧ (utf8Size c = 1 ↔ c.val < 0x80) := by
  unfold utf8Size Utf8.encodeChar
  dsimp only
  split_ifs <;> simp <;> omega

theorem length_le_sum {w : CodePoint → ℕ} (hw : ∀ c, 1 ≤ w c) (x : PyStr) : x.length ≤ (x.map w).sum := by
  induction x with
  | nil => simp
  | cons c x ih =>
    have := hw c
    rw [List.length_cons, List.map_cons, List.sum_cons]
    omega

theorem sum_le_length_iff {w : CodePoint → ℕ} (hw : ∀ c, 1 ≤ w c) (x : PyStr) :
    (x.map w).sum ≤ x.length ↔ ∀ c ∈ x, w c = 1 := by
  induction x with
  | nil => simp
  | cons c x ih =>
    have h1 := hw c
    have h2 := length_le_sum hw x
    rw [List.length_cons, List.map_cons, List.sum_cons, List.forall_mem_cons, ← ih]
    omega

/-- A text cut at `n` characters fits in `n` bytes iff all of it does or no character of the cut text takes two. -/
theorem sum_take_le_iff {w : CodePoint → ℕ} (hw : ∀ c, 1 ≤ w c) (x : PyStr) (n : ℕ) :
    ((x.take n).map w).sum ≤ n ↔ (x.map w).sum ≤ n ∨ ∀ c ∈ x.take n, w c = 1 := by
  by_cases hx : x.length ≤ n
  · rw [List.take_of_length_le hx]
    refine ⟨Or.inl, ?_⟩
    rintro (h | h)
    · exact h
    · have := (sum_le_length_iff hw x).mpr h
      omega
  · have hl : (x.take n).length = n := by
      rw [List.length_take]
      omega
    have hge := length_le_sum hw x
    have h := sum_le_length_iff hw (x.take n)
    rw [hl] at h
    rw [h]
    exact ⟨Or.inr, fun h => h.resolve_left (by omega)⟩

/-- What is kept within the first `n` characters of the result. -/
theorem forall_take_outs {repl : PyStr} {p : CodePoint → Prop} (hr : ∀ c ∈ repl, p c) (ps : List (Piece CodePoint))
    (n : ℕ) : (∀ c ∈ (outs repl ps).take n, p c) ↔
      ∀ before c behind, ps = before ++ .kept c :: behind → (outs repl before).length < n → p c := by
  constructor
  · rintro h before c behind rfl hn
    refine h c ?_
    rw [outs_append, outs_cons, out_kept, List.take_append, List.mem_append]
    refine Or.inr ?_
    obtain ⟨k, hk⟩ : ∃ k, n - (outs repl before).length = k + 1 := ⟨n - (outs repl before).length - 1, by omega⟩
    rw [hk, List.singleton_append, List.take_succ_cons]
    exact List.mem_cons_self ..
  · intro h
    induction ps generalizing n with
    | nil => simp
    | cons q ps ih =>
      intro c hc
      rw [outs_cons, List.take_append, List.mem_append] at hc
      rcases hc with hc | hc
      · cases q with
        | kept d =>
          have hn : 0 < n := by
            by_contra h0
            obtain rfl : n = 0 := by omega
            simp at hc
          obtain rfl : c = d := List.mem_singleton.mp (List.mem_of_mem_take hc)
          exact h [] c ps rfl hn
        | hit w => exact hr c (List.mem_of_mem_take hc)
      · refine ih _ (fun before d behind hp hn => ?_) c hc
        refine h (q :: before) d behind (by rw [hp]; rfl) ?_
        rw [outs_cons, List.length_append]
        omega

/-- The text of the first bytes, up to the cap. -/
def headOf (stream : Bytes) : PyStr := Utf8.decodeReplace (stream.take Limits.streamBytes)

theorem readText_eq (chunks : List Bytes) : readText chunks = headOf chunks.flatten := by
  rw [readText, capturedOf_eq, headOf]

/-- What U+FFFD and short secrets add to the first bytes of the stream is made up for by long secrets and the room
below the cap, or they have no character but ASCII outside their secrets, as far as the second cut. -/
def Fits (stream : Bytes) : Prop :=
  ((headOf stream).map utf8Size).sum + (found SECRET (headOf stream)).length * REDACTED.length ≤
      Limits.streamBytes + ((found SECRET (headOf stream)).flatten.map utf8Size).sum ∨
    ∀ before c behind, pieces SECRET (headOf stream) = before ++ .kept c :: behind →
      (outs REDACTED before).length < Limits.streamBytes → c.val < 0x80

/-- **The stored output takes at most the cap in bytes iff the stream fits.** -/
theorem output_bounded (chunks : List Bytes) :
    (Utf8.encode (outputOf chunks)).length ≤ Limits.streamBytes ↔ Fits chunks.flatten := by
  have hpos : ∀ c, 1 ≤ utf8Size c := fun c => (utf8Size_spec c).1
  have hone : ∀ c, utf8Size c = 1 ↔ c.val < 0x80 := fun c => (utf8Size_spec c).2
  have hascii : (REDACTED.all fun c => c.val < 0x80) = true := by decide
  have hrepl : ∀ c ∈ REDACTED, utf8Size c = 1 := fun c hc =>
    (hone c).mpr (of_decide_eq_true (List.all_eq_true.mp hascii c hc))
  have hw := weight_sub SECRET.nonempty utf8Size REDACTED (headOf chunks.flatten)
  have hsum : (REDACTED.map utf8Size).sum = REDACTED.length := by decide
  rw [hsum, sub_eq_outs SECRET.nonempty] at hw
  rw [length_encode, outputOf, readText_eq, scrub_eq_outs, sum_take_le_iff hpos, forall_take_outs hrepl, Fits]
  simp only [hone]
  refine or_congr_left ?_
  omega

/-! A command that writes bytes that are no UTF-8, as many as the cap. -/

namespace Binary

theorem replaceFrom_binary (n : ℕ) :
    Utf8.replaceFrom 0 0 0 0 (List.replicate n 0xFF) = List.replicate n Utf8.replacement := by
  induction n with
  | zero => rfl
  | succ n ih => rw [List.replicate_succ, List.replicate_succ, ← ih]; rfl

theorem not_occurs_replacement (n : ℕ) : ¬ SECRET.Occurs (List.replicate n Utf8.replacement) := by
  rintro ⟨w, hw, hi⟩
  obtain ⟨x, w, rfl⟩ := List.exists_cons_of_ne_nil (SECRET.ne_nil hw)
  have hx := List.eq_of_mem_replicate (hi.subset (List.mem_cons_self ..))
  rw [hx] at hw
  exact absurd (SECRET.head_isKeyChar hw) (by decide)

def chunks : List Bytes := [List.replicate Limits.streamBytes 0xFF]

theorem outputOf_chunks : outputOf chunks = List.replicate Limits.streamBytes Utf8.replacement := by
  have hf : chunks.flatten = List.replicate Limits.streamBytes 0xFF := List.append_nil _
  have ht : ∀ {α : Type} (x : α), (List.replicate Limits.streamBytes x).take Limits.streamBytes =
      List.replicate Limits.streamBytes x := fun x => List.take_of_length_le (by rw [List.length_replicate])
  rw [outputOf, readText_eq, headOf, hf, ht, Utf8.decodeReplace, replaceFrom_binary,
    scrub_of_not_occurs (not_occurs_replacement _), ht]

/-- **Three times the cap is stored.** -/
theorem output_unbounded : (Utf8.encode (outputOf chunks)).length = 98304 ∧
    ¬ (Utf8.encode (outputOf chunks)).length ≤ Limits.streamBytes := by
  have hl : (Utf8.encode (outputOf chunks)).length = 98304 := by
    have h3 : utf8Size Utf8.replacement = 3 := by decide
    rw [length_encode, outputOf_chunks, List.map_replicate, List.sum_replicate_nat, h3]
    rfl
  rw [hl]
  exact ⟨rfl, by decide⟩

end Binary

/-! ## The cut -/

/-- How the text read breaks off in the whole text: both begin with the same pieces, and
- these make up all that is stored, or all that was read, or
- what was read behind them is a secret by itself and the whole text has one there too, or
- the same with the U+FFFD of a character cut in two behind it, which is not stored or stands in the whole text too. -/
def CutSafe (whole read : PyStr) : Prop :=
  ∃ ps, ps <+: pieces SECRET read ∧ ps <+: pieces SECRET whole ∧
    (Limits.streamBytes ≤ (outs REDACTED ps).length ∨ read = srcs ps ∨
      (∃ m w, read = srcs ps ++ m ∧ SECRET.Matches m ∧ ps ++ [.hit w] <+: pieces SECRET whole) ∨
      ∃ m w, read = srcs ps ++ (m ++ [Utf8.replacement]) ∧ SECRET.Matches m ∧
        ps ++ [.hit w] <+: pieces SECRET whole ∧
        (Limits.streamBytes ≤ (outs REDACTED ps).length + REDACTED.length ∨
          ps ++ [.hit w, .kept Utf8.replacement] <+: pieces SECRET whole))

theorem prefix_at {α : Type} {a b r : List α} {x : α} {n : ℕ} (h : (a ++ x :: b).take n <+: a ++ r) :
    n ≤ a.length ∨ ∃ r', r = x :: r' := by
  by_cases hn : n ≤ a.length
  · exact Or.inl hn
  · obtain ⟨k, hk⟩ : ∃ k, n - a.length = k + 1 := ⟨n - a.length - 1, by omega⟩
    rw [List.take_append, List.take_of_length_le (by omega), hk, List.take_succ_cons,
      List.prefix_append_right_inj] at h
    obtain ⟨t, rfl⟩ := h
    exact Or.inr ⟨_, rfl⟩

theorem pieces_secret {m : PyStr} (h : SECRET.Matches m) : pieces SECRET m = [.hit m] := by
  have hm := SECRET.matchHere_self h
  have hp := pieces_hit (r := SECRET) (s := []) (SECRET.nonempty m h) (by rwa [List.append_nil])
  rwa [List.append_nil] at hp

theorem not_secret_replacement (w : PyStr) : ¬ SECRET.Matches (Utf8.replacement :: w) := by
  intro h
  have := SECRET.head_isKeyChar h
  exact absurd this (by decide)

/-- The stored text under the condition. -/
theorem CutSafe.stored {whole read : PyStr} (h : CutSafe whole read) :
    (outs REDACTED (pieces SECRET read)).take Limits.streamBytes <+: outs REDACTED (pieces SECRET whole) := by
  obtain ⟨ps, ⟨r, hr⟩, ⟨qs, hq⟩, h⟩ := h
  have hsuf := pieces_suffix SECRET.nonempty hr.symm
  have fits : ∀ {x : PyStr}, x <+: outs REDACTED (pieces SECRET whole) →
      outs REDACTED (pieces SECRET read) = x → (outs REDACTED (pieces SECRET read)).take Limits.streamBytes <+:
        outs REDACTED (pieces SECRET whole) := fun hx he => by
    rw [he]
    exact (List.take_prefix _ _).trans hx
  have long : ∀ {x y : PyStr}, x <+: outs REDACTED (pieces SECRET whole) →
      outs REDACTED (pieces SECRET read) = x ++ y → Limits.streamBytes ≤ x.length →
        (outs REDACTED (pieces SECRET read)).take Limits.streamBytes <+: outs REDACTED (pieces SECRET whole) :=
    fun {x y} hx he hl => by
      rw [he, List.take_append_of_le_length hl]
      exact (List.take_prefix _ _).trans hx
  have outs_le : ∀ {ps : List (Piece CodePoint)}, ps <+: pieces SECRET whole →
      outs REDACTED ps <+: outs REDACTED (pieces SECRET whole) := by
    rintro ps ⟨t, ht⟩
    rw [← ht, outs_append]
    exact List.prefix_append _ _
  have hps : outs REDACTED ps <+: outs REDACTED (pieces SECRET whole) := outs_le ⟨qs, hq⟩
  rcases h with h | h | ⟨m, w, h, hm, hw⟩ | ⟨m, w, h, hm, hw, hlast⟩
  · exact long hps (by rw [← hr, outs_append]) h
  · have h0 : srcs r = [] := by
      rw [hsuf.1] at h
      simpa using h
    rw [h0] at hsuf
    exact fits hps (by rw [← hr, ← hsuf.2]; simp)
  · have hrm : srcs r = m := by
      rw [hsuf.1] at h
      exact List.append_cancel_left h
    rw [hrm, pieces_secret hm] at hsuf
    exact fits (outs_le hw) (by rw [← hr, ← hsuf.2]; simp)
  · have hrm : srcs r = m ++ [Utf8.replacement] := by
      rw [hsuf.1] at h
      exact List.append_cancel_left h
    rw [hrm] at hsuf
    rcases pieces_snoc SECRET.nonempty (not_secret_replacement []) m with hp | ⟨ps', qs', hps', hqs', hp⟩
    · rw [pieces_secret hm] at hp
      rcases hlast with hl | hl
      · refine long (x := outs REDACTED (ps ++ [.hit w])) (y := [Utf8.replacement]) (outs_le hw) ?_ (by simpa using hl)
        rw [← hr, ← hsuf.2, hp]
        simp
      · exact fits (outs_le hl) (by rw [← hr, ← hsuf.2, hp]; simp)
    · rw [pieces_secret hm] at hps'
      have hp0 : ps' = [] := by
        cases ps' with
        | nil => rfl
        | cons p ps' =>
          simp only [List.cons_append, List.cons.injEq] at hps'
          exact absurd (List.append_eq_nil_iff.mp hps'.2.symm).2 hqs'
      exact fits (outs_le hw) (by rw [← hr, ← hsuf.2, hp, hp0]; simp)

section Cut

variable {whole read : PyStr} (hstored : (outs REDACTED (pieces SECRET read)).take Limits.streamBytes <+:
  outs REDACTED (pieces SECRET whole))
include hstored

/-- Where the pieces part in what is put for them, enough is stored already. -/
theorem CutSafe.of_parts {ps r qs : List (Piece CodePoint)} {x : CodePoint} {y : PyStr}
    (hr : pieces SECRET read = ps ++ r) (hq : pieces SECRET whole = ps ++ qs) (hx : outs REDACTED r = x :: y)
    (hxq : ∀ z, outs REDACTED qs ≠ x :: z) : CutSafe whole read := by
  rw [hr, hq, outs_append, outs_append, hx] at hstored
  rcases prefix_at hstored with hl | ⟨z, hz⟩
  · exact ⟨ps, ⟨r, hr.symm⟩, ⟨qs, hq.symm⟩, Or.inl hl⟩
  · exact absurd hz (hxq z)

omit hstored in
/-- What was read of a secret is no secret, or one by itself. -/
theorem pieces_head {seen z : PyStr} (h0 : seen ≠ []) (hw : SECRET.Matches (seen ++ z)) :
    (∃ x r, isKeyChar x = true ∧ pieces SECRET seen = .kept x :: r) ∨
      (SECRET.Matches seen ∧ pieces SECRET seen = [.hit seen]) := by
  cases hm : matchHere SECRET seen with
  | none =>
    obtain ⟨x, v, rfl⟩ := List.exists_cons_of_ne_nil h0
    exact Or.inl ⟨x, _, SECRET.head_isKeyChar hw, pieces_kept hm⟩
  | some rest =>
    obtain rfl := SECRET.matchHere_greedy hm hw
    obtain ⟨w, hw', hs⟩ := matchHere_some hm
    rw [List.append_nil] at hs
    subst hs
    exact Or.inr ⟨hw', pieces_secret hw'⟩

omit hstored in
theorem isKeyChar_ne_bracket {x : CodePoint} (hx : isKeyChar x = true) : x ≠ cp '[' := by
  rintro rfl
  exact absurd hx (by decide)

omit hstored in
theorem outs_hit_head (w : PyStr) (qs : List (Piece CodePoint)) {x : CodePoint} (hx : x ≠ cp '[') (z : PyStr) :
    outs REDACTED (.hit w :: qs) ≠ x :: z := fun h => hx (List.cons.inj h).1.symm

/-- What was read of a piece: nothing, no secret yet, or a secret by itself. -/
def SeenOf (q : Piece CodePoint) (seen : PyStr) : Prop :=
  seen = [] ∨ ∃ w, q = .hit w ∧
    ((∃ x r, isKeyChar x = true ∧ pieces SECRET seen = .kept x :: r) ∨
      (SECRET.Matches seen ∧ pieces SECRET seen = [.hit seen]))

omit hstored in
/-- The piece a cut goes through, or comes before. -/
theorem piece_of_cut {s t : PyStr} (ht : t ≠ []) (hw : whole = s ++ t) :
    ∃ ps q qs seen, pieces SECRET whole = ps ++ q :: qs ∧ s = srcs ps ++ seen ∧ srcs (q :: qs) = seen ++ t ∧
      pieces SECRET s = ps ++ pieces SECRET seen ∧ SeenOf q seen := by
  have hsrc := srcs_pieces SECRET.nonempty whole
  have htpos := List.length_pos_of_ne_nil ht
  obtain ⟨ps, q, qs, hq, h1, h2⟩ := piece_at (pieces SECRET whole) (i := s.length) (by
    rw [hsrc, hw, List.length_append]
    omega)
  have hws := (pieces_suffix SECRET.nonempty hq).1
  obtain ⟨seen, rfl⟩ : srcs ps <+: s := List.prefix_of_prefix_length_le ⟨_, hws.symm⟩ ⟨_, hw.symm⟩ h1
  have hrest : srcs (q :: qs) = seen ++ t := by
    rw [hws, List.append_assoc] at hw
    exact List.append_cancel_left hw
  have hs : pieces SECRET (srcs ps ++ seen) = ps ++ pieces SECRET seen :=
    pieces_shared SECRET.nonempty hq ⟨t, hrest.symm⟩
  have hlen : seen.length < q.src.length := by
    rw [List.length_append] at h2
    omega
  refine ⟨ps, q, qs, seen, hq, rfl, hrest, hs, ?_⟩
  by_cases h0 : seen = []
  · exact Or.inl h0
  · cases q with
    | kept d =>
      have := List.length_pos_of_ne_nil h0
      rw [src_kept, List.length_singleton] at hlen
      omega
    | hit w =>
      have hpre : seen <+: w ++ srcs qs := ⟨t, by rw [← hrest]; rfl⟩
      obtain ⟨z, rfl⟩ := List.prefix_of_prefix_length_le hpre (List.prefix_append w _) (Nat.le_of_lt hlen)
      have hword : SECRET.Matches (seen ++ z) :=
        matches_of_mem_pieces SECRET.nonempty (s := whole) (by rw [hq]; simp)
      exact Or.inr ⟨_, rfl, pieces_head h0 hword⟩

/-- The text was cut between two characters. -/
theorem cutSafe_of_prefix (hp : read <+: whole) : CutSafe whole read := by
  obtain ⟨t, ht⟩ := hp
  by_cases ht0 : t = []
  · obtain rfl : read = whole := by rw [← ht, ht0, List.append_nil]
    exact ⟨pieces SECRET read, List.prefix_rfl, List.prefix_rfl,
      Or.inr (Or.inl (srcs_pieces SECRET.nonempty read).symm)⟩
  · obtain ⟨ps, q, qs, seen, hq, hread, -, hr, hseen⟩ := piece_of_cut ht0 ht.symm
    rcases hseen with rfl | ⟨w, rfl, ⟨x, r, hx, hpx⟩ | ⟨hm, -⟩⟩
    · refine ⟨ps, ⟨_, hr.symm⟩, ⟨_, hq.symm⟩, Or.inr (Or.inl ?_)⟩
      rw [hread, List.append_nil]
    · rw [hpx] at hr
      exact CutSafe.of_parts hstored hr hq rfl (outs_hit_head _ _ (isKeyChar_ne_bracket hx))
    · refine ⟨ps, ⟨_, hr.symm⟩, ⟨_, hq.symm⟩, Or.inr (Or.inr (Or.inl ⟨seen, w, hread, hm, ?_⟩))⟩
      exact ⟨qs, by rw [hq]; simp⟩

/-- The text was cut inside a character, and the U+FFFD of it is a piece of its own. -/
theorem cutSafe_of_alone {ps qs : List (Piece CodePoint)} {q : Piece CodePoint} {seen t : PyStr} {c : CodePoint}
    (hc : c ≠ Utf8.replacement) (hq : pieces SECRET whole = ps ++ q :: qs) (hrest : srcs (q :: qs) = seen ++ c :: t)
    (hseen : SeenOf q seen) (hread : read = srcs ps ++ (seen ++ [Utf8.replacement]))
    (hp : pieces SECRET read = ps ++ pieces SECRET seen ++ [.kept Utf8.replacement]) : CutSafe whole read := by
  have hf : Utf8.replacement ≠ cp '[' := by decide
  rcases hseen with rfl | ⟨w, rfl, ⟨x, r, hx, hpx⟩ | ⟨hm, hpm⟩⟩
  · refine CutSafe.of_parts hstored (by simpa using hp) hq rfl ?_
    intro z hz
    rw [List.nil_append] at hrest
    cases q with
    | kept d =>
      have hdc : d = c := (List.cons.inj hrest).1
      exact hc (hdc ▸ (List.cons.inj hz).1)
    | hit w => exact outs_hit_head w qs hf z hz
  · rw [hpx, List.append_assoc, List.cons_append] at hp
    exact CutSafe.of_parts hstored hp hq rfl (outs_hit_head _ _ (isKeyChar_ne_bracket hx))
  · rw [hpm, List.append_assoc, List.singleton_append] at hp
    refine ⟨ps, ⟨_, hp.symm⟩, ⟨_, hq.symm⟩, Or.inr (Or.inr (Or.inr ⟨seen, w, hread, hm, ?_, ?_⟩))⟩
    · exact ⟨qs, by rw [hq]; simp⟩
    · rw [hp, hq] at hstored
      have hsplit : (outs REDACTED ps ++ REDACTED ++ Utf8.replacement :: []).take Limits.streamBytes <+:
          outs REDACTED ps ++ REDACTED ++ outs REDACTED qs := by simpa using hstored
      rcases prefix_at hsplit with hl | ⟨z, hz⟩
      · exact Or.inl (by rwa [List.length_append] at hl)
      · refine Or.inr ?_
        cases qs with
        | nil => cases hz
        | cons p qs =>
          cases p with
          | kept d =>
            obtain rfl : d = Utf8.replacement := (List.cons.inj hz).1
            exact ⟨qs, by rw [hq]; simp⟩
          | hit w' => exact absurd hz (outs_hit_head w' qs hf z)

/-- The text was cut inside a character, and the U+FFFD of it ends a secret. -/
theorem cutSafe_of_ending {ps qs ps₁ qs₁ : List (Piece CodePoint)} {q : Piece CodePoint} {seen : PyStr}
    (hq : pieces SECRET whole = ps ++ q :: qs) (hseen : SeenOf q seen)
    (hps₁ : ps ++ pieces SECRET seen = ps₁ ++ qs₁) (hqs₁ : qs₁ ≠ [])
    (hp : pieces SECRET read = ps₁ ++ [.hit (srcs qs₁ ++ [Utf8.replacement])]) : CutSafe whole read := by
  have hm : SECRET.Matches (srcs qs₁ ++ [Utf8.replacement]) :=
    matches_of_mem_pieces SECRET.nonempty (s := read) (by rw [hp]; simp)
  have hread : read = srcs ps₁ ++ (srcs qs₁ ++ [Utf8.replacement]) := by
    have h := srcs_pieces SECRET.nonempty read
    rw [hp] at h
    rw [← h]
    simp
  -- the secret starts before what was read of the last piece, or with it
  have inside : ∀ a, ps = ps₁ ++ a → qs₁ = a ++ pieces SECRET seen → CutSafe whole read := by
    rintro a rfl rfl
    obtain ⟨p, l, hpl⟩ : ∃ p l, a ++ q :: qs = p :: l := by
      cases a with
      | nil => exact ⟨q, qs, rfl⟩
      | cons p a => exact ⟨p, _, rfl⟩
    rw [List.append_assoc, hpl] at hq
    cases p with
    | hit w =>
      exact ⟨ps₁, ⟨_, hp.symm⟩, ⟨_, hq.symm⟩,
        Or.inr (Or.inr (Or.inl ⟨_, w, hread, hm, ⟨l, by rw [hq]; simp⟩⟩))⟩
    | kept x =>
      have hx : isKeyChar x = true := by
        cases a with
        | nil =>
          rcases hseen with rfl | ⟨w, rfl, -⟩
          · exact absurd rfl hqs₁
          · cases hpl
        | cons p a =>
          obtain ⟨rfl, -⟩ := List.cons.inj hpl
          exact SECRET.head_isKeyChar hm
      refine CutSafe.of_parts hstored hp hq rfl ?_
      intro z hz
      exact isKeyChar_ne_bracket hx (List.cons.inj hz).1
  rcases List.append_eq_append_iff.mp hps₁ with ⟨a, rfl, ha⟩ | ⟨a, ha, hb⟩
  · cases a with
    | nil => exact inside [] (by simp) (by simpa using ha.symm)
    | cons p a =>
      rcases hseen with rfl | ⟨w, rfl, ⟨x, r, hx, hpx⟩ | ⟨-, hpm⟩⟩
      · rw [pieces_nil] at ha
        cases ha
      · rw [hpx, List.cons_append, List.cons.injEq] at ha
        obtain ⟨rfl, -⟩ := ha
        rw [List.append_assoc, List.cons_append] at hp
        exact CutSafe.of_parts hstored hp hq rfl (outs_hit_head _ _ (isKeyChar_ne_bracket hx))
      · rw [hpm, List.cons_append, List.cons.injEq] at ha
        exact absurd (List.append_eq_nil_iff.mp ha.2.symm).2 hqs₁
  · exact inside a ha hb

/-- The text was cut inside a character. -/
theorem cutSafe_of_torn {s t : PyStr} {c : CodePoint} (hc : c ≠ Utf8.replacement) (hw : whole = s ++ c :: t)
    (hr : read = s ++ [Utf8.replacement]) : CutSafe whole read := by
  obtain ⟨ps, q, qs, seen, hq, hs, hrest, hpieces, hseen⟩ := piece_of_cut (List.cons_ne_nil c t) hw
  rcases pieces_snoc SECRET.nonempty (not_secret_replacement []) s with hp | ⟨ps₁, qs₁, hps₁, hqs₁, hp⟩
  · rw [← hr, hpieces] at hp
    refine cutSafe_of_alone hstored hc hq hrest hseen ?_ hp
    rw [hr, hs, List.append_assoc]
  · rw [← hr] at hp
    rw [hpieces] at hps₁
    exact cutSafe_of_ending hstored hq hseen hps₁ hqs₁ hp

end Cut

/-- **What is stored of a valid text is a prefix of the text redacted as a whole iff the cut is safe.** -/
theorem output_prefix (chunks : List Bytes) (whole : PyStr) (h : Utf8.decode chunks.flatten = some whole) :
    outputOf chunks <+: SECRET.sub REDACTED whole ↔ CutSafe whole (headOf chunks.flatten) := by
  rw [outputOf, readText_eq, scrub_eq_outs, sub_eq_outs SECRET.nonempty]
  constructor
  · intro hstored
    obtain ⟨s, t, rfl, hb | ⟨ht, hb⟩⟩ := Utf8.decodeReplace_take h Limits.streamBytes
    · exact cutSafe_of_prefix hstored ⟨t, by rw [headOf, hb]⟩
    · obtain ⟨c, t, rfl⟩ := List.exists_cons_of_ne_nil ht
      by_cases hc : c = Utf8.replacement
      · refine cutSafe_of_prefix hstored ⟨t, ?_⟩
        rw [headOf, hb, hc, List.append_assoc]
        rfl
      · exact cutSafe_of_torn hstored hc rfl hb
  · exact CutSafe.stored

/-! A stream whose cap falls inside a secret. -/

namespace CutSecret

theorem pieces_dots (n : ℕ) (s : PyStr) : outs REDACTED (pieces SECRET (List.replicate n (cp '.') ++ s)) =
    List.replicate n (cp '.') ++ outs REDACTED (pieces SECRET s) := by
  induction n with
  | zero => rfl
  | succ n ih =>
    have hm : matchHere SECRET (cp '.' :: (List.replicate n (cp '.') ++ s)) = none := by
      rw [matchHere_none]
      rintro w hw ⟨t, ht⟩
      obtain ⟨x, w, rfl⟩ := List.exists_cons_of_ne_nil (SECRET.ne_nil hw)
      obtain ⟨rfl, -⟩ := List.cons.inj ht
      exact absurd (SECRET.head_isKeyChar hw) (by decide)
    rw [List.replicate_succ, List.cons_append, pieces_kept hm, outs_cons, ih]
    rfl

/-- As many characters as leave room for 14 more below the cap. -/
def dots : PyStr := List.replicate 32754 (cp '.')

def whole : PyStr := dots ++ lit " sk-0123456789abcdef"

/-- What is read of it. -/
def head : PyStr := dots ++ lit " sk-0123456789"

def chunks : List Bytes := [Utf8.encode whole]

theorem ascii {s : PyStr} (hs : (s.all fun c => c.val < 0x80) = true) : ∀ c ∈ dots ++ s, c.val < 0x80 := by
  intro c hc
  rcases List.mem_append.mp hc with hc | hc
  · rw [List.eq_of_mem_replicate hc]
    decide
  · exact of_decide_eq_true (List.all_eq_true.mp hs c hc)

theorem decode_chunks : Utf8.decode chunks.flatten = some whole := by
  have hf : chunks.flatten = Utf8.encode whole := List.append_nil _
  rw [hf]
  exact Utf8.decode_encode_ascii (ascii (by decide))

theorem length_head : (Utf8.encode head).length = Limits.streamBytes := by
  have h1 : utf8Size (cp '.') = 1 := by decide
  have h2 : ((lit " sk-0123456789").map utf8Size).sum = 14 := by decide
  rw [length_encode, head, dots, List.map_append, List.sum_append, List.map_replicate, List.sum_replicate_nat, h1, h2]
  rfl

theorem headOf_chunks : headOf chunks.flatten = head := by
  have hf : chunks.flatten = Utf8.encode head ++ Utf8.encode (lit "abcdef") := by
    have hw : whole = head ++ lit "abcdef" := by
      rw [whole, head, List.append_assoc]
      rfl
    rw [Utf8.encode, Utf8.encode, ← List.flatMap_append, ← hw]
    exact List.append_nil _
  rw [headOf, hf, ← length_head, List.take_left]
  exact Utf8.decodeReplace_of_decode (Utf8.decode_encode_ascii (ascii (by decide)))

/-- Ten characters of the key are stored. -/
theorem outputOf_chunks : outputOf chunks = head := by
  have hp : outs REDACTED (pieces SECRET (lit " sk-0123456789")) = lit " sk-0123456789" := by decide
  have hl : head.length = Limits.streamBytes := by
    rw [head, dots, List.length_append, List.length_replicate]
    rfl
  rw [outputOf, readText_eq, headOf_chunks, scrub_eq_outs, head, dots, pieces_dots, hp]
  exact List.take_of_length_le (Nat.le_of_eq hl)

theorem sub_whole : SECRET.sub REDACTED whole = dots ++ lit " [REDACTED]" := by
  have hp : outs REDACTED (pieces SECRET (lit " sk-0123456789abcdef")) = lit " [REDACTED]" := by decide
  rw [sub_eq_outs SECRET.nonempty, whole, dots, pieces_dots, hp]

/-- **The stored text is no prefix of the redacted one.** -/
theorem output_not_prefix :
    Utf8.decode chunks.flatten = some whole ∧ ¬ outputOf chunks <+: SECRET.sub REDACTED whole := by
  refine ⟨decode_chunks, ?_⟩
  rw [outputOf_chunks, sub_whole, head, List.prefix_append_right_inj]
  decide

/-- The secret of a short stream is not stored. -/
theorem output_prefix_sample :
    outputOf [Utf8.encode (lit "password=hunter2")] <+: SECRET.sub REDACTED (lit "password=hunter2") ∧
      SECRET.sub REDACTED (lit "password=hunter2") = lit "[REDACTED]" := by
  have hread : headOf [Utf8.encode (lit "password=hunter2")].flatten = lit "password=hunter2" := by decide +kernel
  have hiff := output_prefix [Utf8.encode (lit "password=hunter2")] (lit "password=hunter2") (by decide +kernel)
  refine ⟨hiff.mpr ?_, by decide +kernel⟩
  rw [hread]
  exact ⟨pieces SECRET _, List.prefix_rfl, List.prefix_rfl, Or.inr (Or.inl (srcs_pieces SECRET.nonempty _).symm)⟩

end CutSecret

end Aeh
