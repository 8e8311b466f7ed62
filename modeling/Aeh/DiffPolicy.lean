import Mathlib.Data.List.TakeWhile
import Mathlib.Data.Set.Card
import Aeh.CheckDiff

/-!
# DiffPolicy — what `check_diff` keeps of a policy

Git compares two trees, the base commit as it is checked out and what the patch run has left.  `GitDiff` is what it
reports about them and `Workspace.Shows` how its commands print the report.  `git diff --name-only` leaves out the source
of a rename, and Git passes over special files, names with a component `.git`, the directory of a submodule, and what
attributes and settings hide: line ends, filtered content, the executable bit.
-/

namespace Aeh

/-! ## What Git reports -/

/-- What a tree holds at a path; `special` is a FIFO, a socket, a device or a repository of its own. -/
inductive Node where
  | absent
  | file (content : Bytes) (executable : Bool)
  | symlink (target : Bytes)
  | gitlink (commit : Bytes)
  | special
deriving DecidableEq

def Node.stat : Node → Stat
  | .absent => .missing
  | .file .. => .file
  | .symlink _ => .symlink
  | .gitlink _ => .other
  | .special => .other

abbrev Tree := Bytes → Node

/-- An entry of `git diff HEAD`: `source` is where a rename or a copy comes from, `lines` the added and the deleted lines, `none`
of a binary file. -/
structure Change where
  source : Option Bytes := none
  path : Bytes
  lines : Option (ℕ × ℕ)

def Change.lineCount (c : Change) : ℕ :=
  match c.lines with
  | some (added, deleted) => added + deleted
  | none => 0

/-- The report on the tree `work` over the commit `base`, which the index held before. -/
structure GitDiff (base work : Tree) where
  changes : List Change
  untracked : List Bytes
  ignored : List Bytes
  /-- The paths that differ and that no command names, with their lines. -/
  leftOut : List (Bytes × ℕ)
  left : ∀ p, p ∈ leftOut.map Prod.fst ↔
    base p ≠ work p ∧ p ∉ changes.map Change.path ++ (changes.filterMap Change.source ++ ignored)
  added : ∀ p ∈ untracked, base p = .absent
  -- the source of a copy has changed itself
  moved : ∀ c ∈ changes, ∀ s ∈ c.source, s ∈ changes.map Change.path ∨ work s = .absent
  named : ∀ p ∈ changes.map Change.path ++ (changes.filterMap Change.source ++ untracked), p ≠ [] ∧ NUL ∉ p

namespace GitDiff

variable {base work : Tree} (d : GitDiff base work)

/-- A path that differs and that `git diff --name-only` does not list. -/
def Unlisted (p : Bytes) : Prop := base p ≠ work p ∧ p ∉ d.changes.map Change.path

/-- Every path that differs is listed, and none as a rename. -/
def ListsAll : Prop := (∀ c ∈ d.changes, c.source = none) ∧ ∀ p, ¬ d.Unlisted p

/-- The added and deleted lines. -/
def lineCount : ℕ := (d.changes.map Change.lineCount).sum + (d.leftOut.map Prod.snd).sum

end GitDiff

/-! ## How it is printed -/

/-- The output of a command with `-z`. -/
def printZ (pieces : List Bytes) : Bytes := pieces.flatMap fun p => p ++ [NUL]

/-- The last digits of `n`, at most as many as the first argument says. -/
def decimalUpTo : ℕ → ℕ → Bytes
  | 0, _ => []
  | w + 1, n => if n < 10 then [UInt8.ofNat (48 + n)] else decimalUpTo w (n / 10) ++ [UInt8.ofNat (48 + n % 10)]

def decimal (n : ℕ) : Bytes := decimalUpTo (n + 1) n

namespace Change

/-- The counts with which an entry of `git diff --numstat` starts. -/
def counts (c : Change) : Bytes :=
  match c.lines with
  | some (added, deleted) => decimal added ++ TAB :: (decimal deleted ++ [TAB])
  | none => [45, TAB, 45, TAB]

/-- What `git diff --numstat -z` prints: a rename is three fields. -/
def numstat (c : Change) : List Bytes :=
  match c.source with
  | none => [c.counts ++ c.path]
  | some source => [c.counts, source, c.path]

end Change

/-- The commands that succeed print the report, and the file system is the tree. -/
structure Workspace.Shows (ws : Workspace) {base work : Tree} (d : GitDiff base work) : Prop where
  lsIgnored : ∀ b, ws.lsIgnored = .ok b → b = printZ d.ignored
  lsOthers : ∀ b, ws.lsOthers = .ok b → b = printZ d.untracked
  diffNameOnly : ∀ b, ws.diffNameOnly = .ok b → b = printZ (d.changes.map Change.path)
  diffNumstat : ∀ b, ws.diffNumstat = .ok b → b = printZ (d.changes.flatMap Change.numstat)
  stat : ∀ p name, Utf8.decode p = some name → work p ≠ .absent → ws.stat name = (work p).stat

/-- A workspace that shows a report; `stage` and `text` are what the other commands print. -/
def GitDiff.workspace {base work : Tree} (d : GitDiff base work) (stage text : Bytes) : Workspace where
  lsIgnored := .ok (printZ d.ignored)
  lsOthers := .ok (printZ d.untracked)
  addIntent _ := .ok []
  diffNameOnly := .ok (printZ (d.changes.map Change.path))
  lsStage _ := .ok stage
  diffNumstat := .ok (printZ (d.changes.flatMap Change.numstat))
  diffCheck := .ok []
  diffText := .ok text
  stat name := (work (Utf8.encode name)).stat

theorem GitDiff.workspace_shows {base work : Tree} (d : GitDiff base work) (stage text : Bytes) :
    (d.workspace stage text).Shows d where
  lsIgnored _ h := (Except.ok.inj h).symm
  lsOthers _ h := (Except.ok.inj h).symm
  diffNameOnly _ h := (Except.ok.inj h).symm
  diffNumstat _ h := (Except.ok.inj h).symm
  stat p name h _ := by
    show (work (Utf8.encode name)).stat = (work p).stat
    rw [Utf8.encode_of_decode h]

/-! ## Reading it back -/

theorem splitBytes_append {sep : UInt8} {p : Bytes} (hp : sep ∉ p) (b : Bytes) :
    splitBytes sep (p ++ sep :: b) = p :: splitBytes sep b := by
  induction p with
  | nil => simp [splitBytes]
  | cons x p ih =>
    rw [List.mem_cons, not_or] at hp
    rw [List.cons_append, splitBytes, if_neg (Ne.symm hp.1), ih hp.2]

theorem splitBytes_printZ {pieces : List Bytes} (h : ∀ p ∈ pieces, NUL ∉ p) :
    splitBytes NUL (printZ pieces) = pieces ++ [[]] := by
  induction pieces with
  | nil => rfl
  | cons p pieces ih =>
    rw [List.forall_mem_cons] at h
    have hcons : printZ (p :: pieces) = p ++ NUL :: printZ pieces := by simp [printZ]
    rw [hcons, splitBytes_append h.1, ih h.2, List.cons_append]

theorem decodeText_ok {b : Bytes} {name : PyStr} : decodeText b = .ok name ↔ Utf8.decode b = some name := by
  unfold decodeText
  cases Utf8.decode b <;> simp

theorem exists_of_forall₂ {α β : Type} {R : α → β → Prop} {as : List α} {bs : List β} (h : List.Forall₂ R as bs)
    {b : β} (hb : b ∈ bs) : ∃ a ∈ as, R a b := by
  induction h with
  | nil => cases hb
  | cons hab _ ih =>
    rcases List.mem_cons.mp hb with rfl | hb
    · exact ⟨_, List.mem_cons_self .., hab⟩
    · obtain ⟨a, ha, h⟩ := ih hb
      exact ⟨a, List.mem_cons_of_mem _ ha, h⟩

/-- **The listed paths**, decoded one by one. -/
theorem pathsOf_printZ {ps : List Bytes} {names : List PyStr} (hps : ∀ p ∈ ps, p ≠ [] ∧ NUL ∉ p)
    (h : pathsOf (printZ ps) = .ok names) : List.Forall₂ (fun p name => Utf8.decode p = some name) ps names := by
  have hfilter : ((ps ++ [[]]).filter fun p : Bytes => !p.isEmpty) = ps := by
    rw [List.filter_append, List.filter_eq_self.mpr fun p hp => by simpa using (hps p hp).1]
    simp
  rw [pathsOf, splitBytes_printZ fun p hp => (hps p hp).2, hfilter] at h
  clear hfilter hps
  induction ps generalizing names with
  | nil =>
    cases h
    exact .nil
  | cons p ps ih =>
    rw [List.mapM_cons] at h
    obtain ⟨name, hp, h⟩ := bind_eq_ok.mp h
    obtain ⟨names', hps, h⟩ := bind_eq_ok.mp h
    cases h
    exact .cons (decodeText_ok.mp hp) (ih hps)

theorem isDigitByte_ofNat {n : ℕ} (h : n < 10) :
    isDigitByte (UInt8.ofNat (48 + n)) = true ∧ (UInt8.ofNat (48 + n)).toNat - 48 = n := by
  have hn : (UInt8.ofNat (48 + n)).toNat = 48 + n := by
    rw [UInt8.toNat_ofNat']
    omega
  refine ⟨?_, by omega⟩
  simp only [isDigitByte, Bool.and_eq_true, decide_eq_true_eq, UInt8.le_iff_toNat_le, hn]
  constructor
  · show 48 ≤ 48 + n
    omega
  · show 48 + n ≤ 57
    omega

theorem decimalUpTo_digits (w n : ℕ) : ∀ x ∈ decimalUpTo w n, isDigitByte x = true := by
  induction w generalizing n with
  | zero => simp [decimalUpTo]
  | succ w ih =>
    rw [decimalUpTo]
    by_cases hn : n < 10
    · rw [if_pos hn]
      simpa using (isDigitByte_ofNat hn).1
    · rw [if_neg hn]
      intro x hx
      rcases List.mem_append.mp hx with hx | hx
      · exact ih _ x hx
      · rw [List.mem_singleton.mp hx]
        exact (isDigitByte_ofNat (Nat.mod_lt n (by decide))).1

theorem decimal_ne_nil (n : ℕ) : decimal n ≠ [] := by
  rw [decimal, decimalUpTo]
  split_ifs <;> simp

/-- The value of a text of digits. -/
theorem digitsValue_digits {b : Bytes} (hb : ∀ x ∈ b, isDigitByte x = true) (acc : ℕ) :
    digitsValue acc b = some (b.foldl (fun a x => a * 10 + (x.toNat - 48)) acc) := by
  induction b generalizing acc with
  | nil => rfl
  | cons x b ih =>
    rw [List.forall_mem_cons] at hb
    cases b with
    | nil => simp [digitsValue, hb.1]
    | cons y b =>
      have hy : y ≠ 95 := by
        rintro rfl
        exact absurd (hb.2 95 (List.mem_cons_self ..)) (by decide)
      rw [digitsValue.eq_def]
      simp only [hb.1, hy, if_true, if_false, ih hb.2]
      rfl

theorem foldl_decimalUpTo {w n : ℕ} (h : n < w) :
    (decimalUpTo w n).foldl (fun a x => a * 10 + (x.toNat - 48)) 0 = n := by
  induction w generalizing n with
  | zero => omega
  | succ w ih =>
    rw [decimalUpTo]
    by_cases hn : n < 10
    · rw [if_pos hn]
      simpa using (isDigitByte_ofNat hn).2
    · rw [if_neg hn, List.foldl_append, ih (by omega), List.foldl_cons, List.foldl_nil,
        (isDigitByte_ofNat (Nat.mod_lt n (by decide))).2]
      omega

theorem dropWhile_space {b : Bytes} (hb : ∀ x ∈ b, isDigitByte x = true) : b.dropWhile isSpaceByte = b := by
  cases b with
  | nil => rfl
  | cons x b =>
    have hx : isSpaceByte x = false := by
      have h := hb x (List.mem_cons_self ..)
      simp only [isDigitByte, Bool.and_eq_true, decide_eq_true_eq, UInt8.le_iff_toNat_le] at h
      have h1 : 48 ≤ x.toNat := h.1
      rw [isSpaceByte, Bool.or_eq_false_iff]
      constructor
      · refine decide_eq_false ?_
        rintro rfl
        exact absurd h1 (by decide)
      · rw [Bool.and_eq_false_iff]
        refine Or.inr (decide_eq_false fun hle => ?_)
        have h2 : x.toNat ≤ 13 := UInt8.le_iff_toNat_le.mp hle
        omega
    rw [List.dropWhile_cons_of_neg (by simp [hx])]

/-- `int` reads back a printed number. -/
theorem intOfBytes_decimal (n : ℕ) : intOfBytes (decimal n) = some (n : ℤ) := by
  have hd := decimalUpTo_digits (n + 1) n
  have hvalue := digitsValue_digits hd 0
  rw [foldl_decimalUpTo (Nat.lt_succ_self n)] at hvalue
  have hne := decimal_ne_nil n
  rw [intOfBytes, decimal, dropWhile_space hd, dropWhile_space fun x hx => hd x (List.mem_reverse.mp hx),
    List.reverse_reverse]
  rw [decimal] at hne
  cases hb : decimalUpTo (n + 1) n with
  | nil => exact absurd hb hne
  | cons x rest =>
    rw [hb] at hd hvalue
    have hx := hd x (List.mem_cons_self ..)
    have h1 : x ≠ 45 := by rintro rfl; exact absurd hx (by decide)
    have h2 : x ≠ 43 := by rintro rfl; exact absurd hx (by decide)
    simp only [if_neg h1, if_neg h2, hvalue]
    rfl

theorem splitBytesMax_append {sep : UInt8} {p : Bytes} (hp : sep ∉ p) (n : ℕ) (b : Bytes) :
    splitBytesMax sep (n + 1) (p ++ sep :: b) = p :: splitBytesMax sep n b := by
  have hkeep : ∀ x ∈ p, decide (x ≠ sep) = true := fun x hx => decide_eq_true fun h => hp (h ▸ hx)
  rw [splitBytesMax, List.dropWhile_append_of_pos hkeep, List.takeWhile_append_of_pos hkeep]
  simp

theorem not_mem_decimal {x : UInt8} (hx : isDigitByte x = false) (n : ℕ) : x ∉ decimal n := fun h => by
  have := decimalUpTo_digits (n + 1) n x h
  rw [hx] at this
  cases this

theorem decimal_ne_hyphen (n : ℕ) : decimal n ≠ [45] := fun h =>
  not_mem_decimal (by decide : isDigitByte 45 = false) n (by rw [h]; exact List.mem_singleton_self _)

namespace Change

variable {c : Change}

theorem counts_ne_nil (c : Change) : c.counts ≠ [] := by
  unfold counts
  cases c.lines with
  | none => simp
  | some l => simp

theorem not_mem_counts (c : Change) : NUL ∉ c.counts := by
  have hd := not_mem_decimal (by decide : isDigitByte NUL = false)
  have ht : NUL ≠ TAB := by decide
  unfold counts
  cases c.lines with
  | none => decide
  | some l => simp [hd, ht]

/-- The entry of a binary file is refused. -/
theorem lines_of_entryLines {path : Bytes} {n : ℤ} (h : entryLines (c.counts ++ path) = .ok n) : c.lines ≠ none := by
  intro hl
  have hsplit : splitBytesMax TAB 2 ([45, TAB, 45, TAB] ++ path) = [[45], [45], path] := by
    rw [show [45, TAB, 45, TAB] ++ path = [45] ++ TAB :: ([45] ++ TAB :: path) from rfl,
      splitBytesMax_append (by decide), splitBytesMax_append (by decide), splitBytesMax]
  unfold counts at h
  rw [hl] at h
  simp only [entryLines, hsplit] at h
  cases h

/-- The entry of a change that is no rename counts its lines. -/
theorem entryLines_counts {path : Bytes} {n : ℤ} (h : entryLines (c.counts ++ path) = .ok n) : n = c.lineCount := by
  have hlines := lines_of_entryLines h
  unfold counts at h
  unfold lineCount
  cases hl : c.lines with
  | none => exact absurd hl hlines
  | some l =>
    obtain ⟨a, b⟩ := l
    have ht := not_mem_decimal (by decide : isDigitByte TAB = false)
    have hsplit : splitBytesMax TAB 2 (decimal a ++ TAB :: (decimal b ++ [TAB]) ++ path) =
        [decimal a, decimal b, path] := by
      rw [show decimal a ++ TAB :: (decimal b ++ [TAB]) ++ path = decimal a ++ TAB :: (decimal b ++ TAB :: path) by simp,
        splitBytesMax_append (ht a), splitBytesMax_append (ht b), splitBytesMax]
    rw [hl] at h
    simp only [entryLines, hsplit, decimal_ne_hyphen, or_self, if_false, intOfBytes_decimal] at h
    rw [← Except.ok.inj h]
    simp

end Change

/-- Every field that is not empty has been read as an entry. -/
theorem countLines_ok {n m : ℤ} {entries : List Bytes} (h : countLines n entries = .ok m) :
    ∀ e ∈ entries, e ≠ [] → ∃ k, entryLines e = .ok k := by
  induction entries generalizing n with
  | nil => simp
  | cons e entries ih =>
    rw [countLines] at h
    rw [List.forall_mem_cons]
    by_cases he : e = []
    · subst he
      exact ⟨fun h => absurd rfl h, ih h⟩
    · rw [if_neg (by simpa using he)] at h
      obtain ⟨k, hk, h⟩ := bind_eq_ok.mp h
      exact ⟨fun _ => ⟨k, hk⟩, ih h⟩

/-- Without renames the lines are counted. -/
theorem countLines_changes {changes : List Change} (hs : ∀ c ∈ changes, c.source = none) {n m : ℤ}
    (h : countLines n (changes.flatMap Change.numstat ++ [[]]) = .ok m) :
    m = n + (changes.map Change.lineCount).sum := by
  induction changes generalizing n with
  | nil =>
    cases h
    simp
  | cons c changes ih =>
    rw [List.forall_mem_cons] at hs
    have hfields : c.numstat = [c.counts ++ c.path] := by rw [Change.numstat, hs.1]
    rw [List.flatMap_cons, hfields, List.singleton_append, List.cons_append, countLines,
      if_neg (by simp [c.counts_ne_nil])] at h
    obtain ⟨k, hk, h⟩ := bind_eq_ok.mp h
    rw [ih hs.2 h, Change.entryLines_counts hk, List.map_cons, List.sum_cons]
    push_cast
    omega

/-! ## The policy -/

/-- What a policy asks of a path that differs: it matches an allowed pattern and no denied one, is not protected, is a
regular file or deleted, and no test the base has. -/
structure Complies (policy : Json) (base work : Tree) (p : Bytes) (name : PyStr) : Prop where
  decodes : Utf8.decode p = some name
  allowed : Matched policy "allowedPaths" name
  denied : Unmatched policy "deniedPaths" name
  unprotected : isProtected name = false
  plain : work p = .absent ∨ ∃ content executable, work p = .file content executable
  tests : startsWith name (lit "tests/") = true → base p = .absent

/-- The paths that differ are no more than the policy and the limit allow. -/
def FewPaths (policy : Json) (base work : Tree) : Prop :=
  ∃ most, limitOf policy "maxChangedFiles" Limits.maxChangedFiles = .ok most ∧ ({p | base p ≠ work p}.ncard : ℤ) ≤ most

/-- So are the added and deleted lines. -/
def FewLines (policy : Json) (lines : ℕ) : Prop :=
  ∃ most, limitOf policy "maxDiffLines" Limits.maxDiffLines = .ok most ∧ (lines : ℤ) ≤ most

/-- The changes respect the policy. -/
structure Respects (policy : Json) {base work : Tree} (d : GitDiff base work) : Prop where
  paths : ∀ p, base p ≠ work p → ∃ name, Complies policy base work p name
  few : FewPaths policy base work
  lines : FewLines policy d.lineCount

theorem Node.stat_missing {n : Node} (h : n.stat = .missing) : n = .absent := by
  cases n <;> first | rfl | cases h

theorem Node.stat_file {n : Node} (h : n.stat = .file) : ∃ content executable, n = .file content executable := by
  cases n with
  | file content executable => exact ⟨content, executable, rfl⟩
  | _ => cases h

namespace GitDiff

variable {base work : Tree} {d : GitDiff base work} {ws : Workspace} {policy : Json}

theorem listed_named {p : Bytes} (h : p ∈ d.changes.map Change.path) : p ≠ [] ∧ NUL ∉ p :=
  d.named p (List.mem_append_left _ h)

theorem source_named {c : Change} (hc : c ∈ d.changes) {s : Bytes} (hs : c.source = some s) : s ≠ [] ∧ NUL ∉ s :=
  d.named s (List.mem_append_right _ (List.mem_append_left _ (List.mem_filterMap.mpr ⟨c, hc, hs⟩)))

theorem untracked_named {p : Bytes} (h : p ∈ d.untracked) : p ≠ [] ∧ NUL ∉ p :=
  d.named p (List.mem_append_right _ (List.mem_append_right _ h))

/-- No field of `git diff --numstat -z` has a NUL in it. -/
theorem not_mem_numstat {f : Bytes} (h : f ∈ d.changes.flatMap Change.numstat) : NUL ∉ f := by
  obtain ⟨c, hc, hf⟩ := List.mem_flatMap.mp h
  have hpath := (listed_named (List.mem_map_of_mem hc)).2
  unfold Change.numstat at hf
  cases hs : c.source with
  | none =>
    rw [hs] at hf
    rw [List.mem_singleton.mp hf, List.mem_append]
    exact not_or.mpr ⟨c.not_mem_counts, hpath⟩
  | some s =>
    have hsource := (source_named hc hs).2
    rw [hs] at hf
    simp only [List.mem_cons, List.not_mem_nil, or_false] at hf
    rcases hf with rfl | rfl | rfl
    · exact c.not_mem_counts
    · exact hsource
    · exact hpath

/-- A listed path that has passed the checks complies with the policy. -/
theorem complies_of_checked (hws : ws.Shows d) {untracked : List PyStr}
    (hu : List.Forall₂ (fun p name => Utf8.decode p = some name) d.untracked untracked) {p : Bytes} {name : PyStr}
    (hp : Utf8.decode p = some name) (h : NameChecked ws policy untracked name) :
    Complies policy base work p name := by
  refine ⟨hp, h.allowed, h.denied, h.unprotected, ?_, fun ht => ?_⟩
  · by_cases ha : work p = .absent
    · exact Or.inl ha
    · have hst := hws.stat p name hp ha
      rcases h.plain with hm | hf
      · exact Or.inl (Node.stat_missing (hst.symm.trans hm))
      · exact Or.inr (Node.stat_file (hst.symm.trans hf))
  · obtain ⟨q, hq, hdec⟩ := exists_of_forall₂ hu (h.tests ht)
    rw [Utf8.decode_inj hp hdec]
    exact d.added q hq

theorem listed_or_unlisted {p : Bytes} (h : base p ≠ work p) : p ∈ d.changes.map Change.path ∨ d.Unlisted p := by
  by_cases hp : p ∈ d.changes.map Change.path
  · exact Or.inl hp
  · exact Or.inr ⟨h, hp⟩

theorem ListsAll.leftOut_eq_nil (h : d.ListsAll) : d.leftOut = [] := by
  by_contra hne
  obtain ⟨e, he⟩ := List.exists_mem_of_ne_nil _ hne
  obtain ⟨hdiffers, hno⟩ := (d.left e.1).mp (List.mem_map_of_mem he)
  exact h.2 e.1 ⟨hdiffers, fun hp => hno (List.mem_append_left _ hp)⟩

theorem ignored_eq_nil (hws : ws.Shows d) (h : ws.lsIgnored = .ok []) : d.ignored = [] := by
  have hprint := hws.lsIgnored [] h
  cases hd : d.ignored with
  | nil => rfl
  | cons p ps =>
    rw [hd] at hprint
    simp [printZ] at hprint

/-- Where every path that differs is listed, they are at most as many as the list is long. -/
theorem ListsAll.ncard_le (h : d.ListsAll) : {p | base p ≠ work p}.ncard ≤ d.changes.length := by
  have hsub : {p | base p ≠ work p} ⊆ ((d.changes.map Change.path).toFinset : Set Bytes) := by
    intro p hp
    have hlisted := (listed_or_unlisted hp).resolve_right (h.2 p)
    simpa using hlisted
  have hle := Set.ncard_le_ncard hsub (Finset.finite_toSet _)
  rw [Set.ncard_coe_finset] at hle
  have hcard := List.toFinset_card_le (d.changes.map Change.path)
  rw [List.length_map] at hcard
  exact hle.trans hcard

/-- `check_diff` has read every field of `git diff --numstat -z` as an entry. -/
theorem fields_read (hws : ws.Shows d) {result : List PyStr × PyStr} (h : checkDiff ws policy = .ok result) {f : Bytes}
    (hf : f ∈ d.changes.flatMap Change.numstat) (hne : f ≠ []) : ∃ n, entryLines f = .ok n := by
  obtain ⟨-, -, -, -, raw, lines, hraw, hlines, -⟩ := checkDiff_ok h
  rw [hws.diffNumstat raw hraw, splitBytes_printZ fun _ => not_mem_numstat] at hlines
  exact countLines_ok hlines f (List.mem_append_left _ hf) hne

/-- No change that has passed is binary. -/
theorem not_binary (hws : ws.Shows d) {result : List PyStr × PyStr} (h : checkDiff ws policy = .ok result) {c : Change}
    (hc : c ∈ d.changes) : c.lines ≠ none := by
  obtain ⟨f, path, hf, he⟩ : ∃ f path, f ∈ c.numstat ∧ f = c.counts ++ path := by
    unfold Change.numstat
    cases c.source with
    | none => exact ⟨_, c.path, List.mem_singleton_self _, rfl⟩
    | some source => exact ⟨_, [], List.mem_cons_self .., (List.append_nil _).symm⟩
  have hne : f ≠ [] := by
    rw [he]
    exact fun h => c.counts_ne_nil (List.append_eq_nil_iff.mp h).1
  obtain ⟨n, hn⟩ := fields_read hws h (List.mem_flatMap.mpr ⟨c, hc, hf⟩) hne
  exact Change.lines_of_entryLines (he ▸ hn)

theorem entryLines_tab {f : Bytes} {n : ℤ} (h : entryLines f = .ok n) : TAB ∈ f := by
  by_contra ht
  have hall : (f.dropWhile fun x => decide (x ≠ TAB)) = [] :=
    List.dropWhile_eq_nil_iff.mpr fun x hx => decide_eq_true fun he => ht (he ▸ hx)
  have hsplit : splitBytesMax TAB 2 f = [f] := by rw [splitBytesMax, hall]
  rw [entryLines, hsplit] at h
  cases h

/-- **A rename is refused** unless both its names read as an entry of their own, which takes two tabs in each. -/
theorem rename_read (hws : ws.Shows d) {result : List PyStr × PyStr} (h : checkDiff ws policy = .ok result) {c : Change}
    (hc : c ∈ d.changes) {s : Bytes} (hs : c.source = some s) :
    ((∃ n, entryLines s = .ok n) ∧ ∃ n, entryLines c.path = .ok n) ∧ TAB ∈ s ∧ TAB ∈ c.path := by
  have hfields : c.numstat = [c.counts, s, c.path] := by rw [Change.numstat, hs]
  have hmem : ∀ f ∈ [c.counts, s, c.path], f ∈ d.changes.flatMap Change.numstat := fun f hf =>
    List.mem_flatMap.mpr ⟨c, hc, hfields ▸ hf⟩
  have hsource := source_named hc hs
  obtain ⟨n, hn⟩ := fields_read hws h (hmem s (by simp)) hsource.1
  obtain ⟨m, hm⟩ := fields_read hws h (hmem c.path (by simp)) (listed_named (List.mem_map_of_mem hc)).1
  exact ⟨⟨⟨n, hn⟩, m, hm⟩, entryLines_tab hn, entryLines_tab hm⟩

end GitDiff

/-- **What `check_diff` lets pass** respects the policy iff every path that differs is listed and none as a rename, or
those that are not listed comply too and the paths and the lines are within the limits. -/
theorem checkDiff_respects {base work : Tree} (d : GitDiff base work) {ws : Workspace} (hws : ws.Shows d) {policy : Json}
    {result : List PyStr × PyStr} (h : checkDiff ws policy = .ok result) :
    Respects policy d ↔ d.ListsAll ∨
      ((∀ p, d.Unlisted p → ∃ name, Complies policy base work p name) ∧ FewPaths policy base work ∧
        FewLines policy d.lineCount) := by
  obtain ⟨names, diff⟩ := result
  obtain ⟨-, ⟨others, untracked, ho, hu, -, hchecked⟩, ⟨listed, hl, hnames⟩, ⟨most, hm, hlen⟩, raw, lines, hraw,
    hlines, ⟨most', hm', hle⟩, -⟩ := checkDiff_ok h
  rw [hws.lsOthers others ho] at hu
  rw [hws.diffNameOnly listed hl] at hnames
  have hnamed := pathsOf_printZ (fun p hp => GitDiff.listed_named hp) hnames
  have huntracked := pathsOf_printZ (fun p hp => GitDiff.untracked_named hp) hu
  have hlisted : ∀ p ∈ d.changes.map Change.path, ∃ name, Complies policy base work p name := by
    intro p hp
    obtain ⟨name, hn, hdec⟩ := exists_of_forall₂ hnamed.flip hp
    exact ⟨name, GitDiff.complies_of_checked hws huntracked hdec (hchecked name hn)⟩
  constructor
  · intro hr
    exact Or.inr ⟨fun p hp => hr.paths p hp.1, hr.few, hr.lines⟩
  · rintro (hall | ⟨hunlisted, hfew, hlines'⟩)
    · refine ⟨fun p hp => ?_, ⟨most, hm, ?_⟩, most', hm', ?_⟩
      · exact hlisted p ((GitDiff.listed_or_unlisted hp).resolve_right (hall.2 p))
      · have hlength := hnamed.length_eq
        rw [List.length_map] at hlength
        have hcard := hall.ncard_le
        omega
      · rw [hws.diffNumstat raw hraw, splitBytes_printZ fun _ => GitDiff.not_mem_numstat] at hlines
        have hcount := countLines_changes hall.1 hlines
        rw [GitDiff.lineCount, hall.leftOut_eq_nil]
        simpa [hcount] using hle
    · refine ⟨fun p hp => ?_, hfew, hlines'⟩
      rcases GitDiff.listed_or_unlisted hp with hp | hp
      · exact hlisted p hp
      · exact hunlisted p hp

/-! ### A key is moved -/

namespace Moved

def key : Bytes := Utf8.encode (lit "0\t0\tkey.pem")

def script : Bytes := Utf8.encode (lit "0\t0\tkey.py")

def content : Node := .file (Utf8.encode (lit "secret")) false

def base : Tree := fun p => if p = key then content else .absent

def work : Tree := fun p => if p = script then content else .absent

def moved : GitDiff base work where
  changes := [⟨some key, script, some (0, 0)⟩]
  untracked := [script]
  ignored := []
  leftOut := []
  left p := by
    by_cases hk : p = key
    · simp [hk]
    · by_cases hs : p = script
      · simp [hs]
      · simp [base, work, hk, hs]
  added := by decide
  moved := by decide
  named := by decide

/-- Python files may change. -/
def policy : Json := .obj [(lit "allowedPaths", .arr [.str (lit "*.py")]), (lit "deniedPaths", .arr []),
  (lit "maxChangedFiles", .int 10), (lit "maxDiffLines", .int 400)]

def ws : Workspace := moved.workspace (Utf8.encode (lit "100644 e69de29bb2d1d6434b8b29ae775ad8c2e48c5391 0\tkey.py"))
  (Utf8.encode (lit "similarity index 100%\n"))

theorem passes : checkDiff ws policy = .ok ([lit "0\t0\tkey.py"], lit "similarity index 100%\n") := by rfl

/-- The path of the key differs, and no policy may allow it. -/
theorem checkDiff_not_respects : ¬ ∀ (base work : Tree) (d : GitDiff base work) (ws : Workspace) (policy : Json)
    (result : List PyStr × PyStr), ws.Shows d → checkDiff ws policy = .ok result → Respects policy d := by
  intro hall
  have hr := hall base work moved ws policy _ (moved.workspace_shows ..) passes
  obtain ⟨name, hf⟩ := hr.paths key (by decide)
  have hname : Utf8.decode key = some (lit "0\t0\tkey.pem") := by rfl
  have hu := hf.unprotected
  rw [← Option.some.inj (hname.symm.trans hf.decodes)] at hu
  exact absurd hu (by decide)

end Moved

/-! ### A module is added -/

namespace Added

def path : Bytes := Utf8.encode (lit "src/a.py")

def base : Tree := fun _ => .absent

def work : Tree := fun p => if p = path then .file (Utf8.encode (lit "x = 1\n")) false else .absent

def added : GitDiff base work where
  changes := [⟨none, path, some (1, 0)⟩]
  untracked := [path]
  ignored := []
  leftOut := []
  left p := by
    by_cases hp : p = path
    · simp [hp]
    · simp [base, work, hp]
  added := by decide
  moved := by decide
  named := by decide

theorem listsAll : added.ListsAll := by
  refine ⟨by decide, fun p hp => ?_⟩
  by_cases he : p = path
  · exact hp.2 (by simp [added, he])
  · exact hp.1 (by simp [base, work, he])

def ws : Workspace := added.workspace
  (Utf8.encode (lit "100644 e69de29bb2d1d6434b8b29ae775ad8c2e48c5391 0\tsrc/a.py")) (Utf8.encode (lit "+x = 1\n"))

/-- Nothing is left off the list. -/
theorem checkDiff_respects_sample : Respects Moved.policy added :=
  (checkDiff_respects added (added.workspace_shows ..)
    (show checkDiff ws Moved.policy = .ok ([lit "src/a.py"], lit "+x = 1\n") by rfl)).mpr (Or.inl listsAll)

end Added

end Aeh
