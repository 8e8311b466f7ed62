import Aeh.Worktree

/-!
# ValidatedDiff — the diff of a PATCH_READY attempt and the trees its commands have met

`check_diff` reads the diff once; the commands run with the worktree mounted writable.  What is carried to the end of an
attempt is that the stored diff is the one of the first command's tree, less what Git passes over and converts
(`Carried`), so that every command meets the base with that diff exactly if the diff keeps that tree and no command
changes a file before the next one starts (`validated_diff`).
-/

namespace Aeh

/-! ## The files of a worktree -/

/-- A path that the base or the index holds after `check_diff`. -/
def Snapshot.Tracked (c : Snapshot) (p : Bytes) : Prop := c.base p ≠ .absent ∨ p ∈ c.report.changes.map Change.path

instance (c : Snapshot) (p : Bytes) : Decidable (c.Tracked p) := inferInstanceAs (Decidable (_ ∨ _))

/-- An ignored path: the rules exclude it, and it is not tracked. -/
def Host.Ignores (host : Host) (c : Snapshot) (tree : Tree) (p : Bytes) : Prop :=
  ¬ c.Tracked p ∧ host.excluded tree p = true

instance (host : Host) (c : Snapshot) (tree : Tree) (p : Bytes) : Decidable (host.Ignores c tree p) :=
  inferInstanceAs (Decidable (_ ∧ _))

/-- The diff keeps the checked tree: Git passes over ignored files only, and converting changes no file of the diff. -/
structure Host.Keeps (host : Host) (c : Snapshot) : Prop where
  left : ∀ p ∈ c.report.leftOut.map Prod.fst, host.Ignores c c.work p
  listed : ∀ p ∈ c.report.changes.map Change.path, host.converted c.work p = c.work p

section Files

variable {host : Host} {c : Snapshot}

end Files

/-! ## What an attempt carries to its end -/

/-- The attempt works with the incident's commit. -/
def Store.Based (db : Store) (claim : Claim) (attempt : Attempt) : Prop :=
  ∃ inc, db.incidents.get claim.incidentId = some inc ∧ attempt.sha = inc.baseCommitSha

theorem Store.Based.step {sys sys' : Sys} {tx : Tx} {claim : Claim} {attempt : Attempt} (hr : Sys.machine.Reachable sys)
    (h : Sys.machine.step sys tx sys') (hb : sys.db.Based claim attempt) : sys'.db.Based claim attempt := by
  obtain ⟨inc, hi, hsha⟩ := hb
  have hinv := Sys.inv_of_reachable hr
  obtain ⟨inc', hi', hsame, -⟩ := (Sys.step_moves hinv h).incident hinv.ok hi
  exact ⟨inc', hi', hsha.trans hsame.sha.symm⟩

namespace RunOne

variable {claim : Claim} {s s' : RunOne} {a : Act}

/-- What a step does to the database is a transaction. -/
theorem Step.sys (h : Step claim s a s') (hc : claim ∈ s.sys.issued) :
    s'.sys = s.sys ∨ ∃ tx, Sys.machine.step s.sys tx s'.sys := by
  cases h with
  | commit => exact Or.inr ⟨.markValidating claim, hc, rfl⟩
  | others hallows => exact Or.inr ⟨_, hallows, rfl⟩
  | @finalize result env =>
    exact Or.inr ⟨.finalize env claim (outcomeOf claim.type result) (some s.versionRef), hc, rfl⟩
  | _ => exact Or.inl rfl

theorem Step.based (h : Step claim s a s') (hs : s.Inv claim) {attempt : Attempt} (hb : s.sys.db.Based claim attempt) :
    s'.sys.db.Based claim attempt := by
  rcases h.sys hs.issued with he | ⟨tx, htx⟩
  · rwa [he]
  · exact hb.step hs.sys htx

end RunOne

/-- The attempt a task has read and has no worktree for yet. -/
def Phase.attempt? : Phase → Option Attempt
  | resolving attempt | entering attempt => some attempt
  | _ => none

namespace PatchAttempt

/-- The text is the diff `check_diff` has read. -/
def Describes (host : Host) (checked : Option Snapshot) (diff : PyStr) : Prop :=
  ∃ c, checked = some c ∧ host.apply c.base diff = c.report.applied host.converted

/-- The diff of a task that has one, and the end of the loop that lets it pass. -/
def Offers (host : Host) (checked : Option Snapshot) (loop : Loop) : Phase → Prop
  | .marking work | .validating work => Describes host checked work.diff
  | .leaving (.ok outcome) | .ended (.ok outcome) =>
    (∃ diff, outcome.diff = some diff ∧ Describes host checked diff) ∧
      (outcome.failed = false → loop = .done (.ok (.ok outcome.validation)))
  | _ => True

structure Carried (host : Host) (claim : Claim) (s : PatchAttempt) : Prop where
  early : s.one.phase.isEarly = true → s.checked = none ∧ s.loop = .idle ∧ s.starts = []
  read : ∀ attempt ∈ s.one.phase.attempt?, s.one.sys.db.Based claim attempt
  based : ∀ attempt ∈ s.attempt, s.one.sys.db.Based claim attempt
  checked : ∀ c ∈ s.checked, c.report.ignored = [] ∧ ∃ attempt ∈ s.attempt, c.base = host.commitTree attempt.sha
  offers : Offers host s.checked s.loop s.one.phase
  coded : ∀ f, s.one.phase.result? = some (.error f) → f.Coded
  looping : s.loop ≠ .idle → s.checked ≠ none ∧ ∀ attempt ∈ s.attempt,
    host.sandbox.answer host.workspace s.loop = some (host.sandbox.runValidation host.workspace attempt.policy)
  -- the first command starts in the checked tree
  first : ∀ c ∈ s.checked, (s.starts ++ [s.tree]).head? = some c.work

variable {host : Host} {claim : Claim} {s s' : PatchAttempt} {l : Label}

/-- The phases before the mark do not come back. -/
theorem early_step {s s' : RunOne} {a : Act} (h : RunOne.Step claim s a s') (he : s'.phase.isEarly = true) :
    s.phase.isEarly = true := by
  cases h with
  | read hp | resolve hp | enter hp | patch hp | check hp | checkFails hp =>
    rw [hp]
    rfl
  | commit | lose | others => exact he
  | @validate work r hp =>
    obtain ⟨result, hr⟩ := Phase.afterValidate_eq work r
    rw [hr] at he
    cases he
  | @leave result r _ _ =>
    obtain ⟨result', hr⟩ := Phase.afterLeave_eq result r
    rw [hr] at he
    cases he
  | timeout ht =>
    obtain ⟨rfl, -⟩ := Phase.timedOut_some ht
    cases he
  | cancel hc =>
    obtain ⟨rfl | rfl, -⟩ := Phase.cancelled_some hc <;> cases he
  | receive | receiveFails | overrun | finalize => cases he

/-- An attempt is read from the database. -/
theorem attempt_step {s s' : RunOne} {a : Act} (h : RunOne.Step claim s a s') {attempt : Attempt}
    (ha : attempt ∈ s'.phase.attempt?) : attempt ∈ s.phase.attempt? ∨ s'.sys.db.Based claim attempt := by
  cases h with
  | @read settings fs modelValidate hp =>
    cases hr : readAttempt settings fs modelValidate claim s.sys.db with
    | error e =>
      simp only [hr] at ha
      cases ha
    | ok attempt' =>
      simp only [hr] at ha
      cases ha
      obtain ⟨inc, _, _, hi, -, -, -, hsha, -⟩ := readAttempt_ok hr
      exact Or.inr ⟨inc, hi, hsha⟩
  | @resolve attempt' r hp =>
    rw [hp]
    cases r with
    | error f => cases ha
    | ok sha =>
      rcases Phase.afterResolve_ok attempt' sha with hr | hr
      · rw [hr] at ha
        exact Or.inl ha
      · rw [hr] at ha
        cases ha
  | @enter attempt' r hp =>
    rcases r with f | u
    · cases ha
    · rcases Phase.afterEnter_ok attempt' with hr | ⟨e, hr, -⟩
      · rw [hr] at ha
        cases ha
      · rw [hr] at ha
        cases ha
  | @patch r hp => rcases r with f | threadId <;> cases ha
  | commit | lose | others => exact Or.inl ha
  | @validate work r hp =>
    obtain ⟨result, hr⟩ := Phase.afterValidate_eq work r
    rw [hr] at ha
    cases ha
  | @leave result r _ _ =>
    obtain ⟨result', hr⟩ := Phase.afterLeave_eq result r
    rw [hr] at ha
    cases ha
  | timeout ht =>
    obtain ⟨rfl, -⟩ := Phase.timedOut_some ht
    cases ha
  | cancel hc =>
    obtain ⟨rfl | rfl, -⟩ := Phase.cancelled_some hc <;> cases ha
  | check | checkFails | receive | receiveFails | overrun | finalize => cases ha

/-- A step that has nothing to do with the worktree makes no other offer. -/
theorem offers_plain {s s' : RunOne} {a : Act} {checked : Option Snapshot} {loop : Loop} (h : RunOne.Step claim s a s')
    (ha : isPlain a = true) (ho : Offers host checked loop s.phase) : Offers host checked loop s'.phase := by
  cases h with
  | @read settings fs modelValidate hp =>
    cases readAttempt settings fs modelValidate claim s.sys.db <;> trivial
  | @resolve attempt r hp =>
    cases r with
    | error f => trivial
    | ok sha => rcases Phase.afterResolve_ok attempt sha with hr | hr <;> rw [hr] <;> trivial
  | @patch r hp => cases r <;> trivial
  | checkFails | overrun | finalize => trivial
  | commit | lose | others => exact ho
  | @leave result r hp _ =>
    rw [hp] at ho
    cases r with
    | error e => trivial
    | ok u =>
      cases result with
      | error f => trivial
      | ok outcome => exact ho
  | timeout ht =>
    obtain ⟨rfl, -⟩ := Phase.timedOut_some ht
    trivial
  | cancel hc =>
    obtain ⟨rfl | rfl, -⟩ := Phase.cancelled_some hc <;> trivial
  | enter | check | receive | receiveFails | validate => cases ha

theorem offers_enter {s s' : RunOne} {r : Except Fault Unit} {checked : Option Snapshot} {loop : Loop}
    (h : RunOne.Step claim s (.enter r) s') : Offers host checked loop s'.phase := by
  cases h with
  | @enter attempt r hp =>
    rcases r with f | u
    · trivial
    · rcases Phase.afterEnter_ok attempt with hr | ⟨e, hr, -⟩ <;> rw [hr] <;> trivial

theorem Carried.start (h : Start claim s) : s.Carried host claim := by
  obtain ⟨one, tree, ⟨-, _, _, _, _, _, -, -, rfl⟩, rfl⟩ := h
  exact ⟨fun _ => ⟨rfl, rfl, rfl⟩, nofun, nofun, nofun, trivial, nofun, fun h => absurd rfl h, nofun⟩

/-- A step of `run_one` that leaves the rest as it is. -/
theorem Carried.move (hs : s.Carried host claim) {one : RunOne} {a : Act} (hone : s.one.Inv claim)
    (h : Goes claim s.one a one) (ho : Offers host s.checked s.loop one.phase) :
    Carried host claim { s with one := one } where
  early he := hs.early (early_step h.step he)
  read attempt ha := by
    rcases attempt_step h.step ha with ha | hb
    · exact h.step.based hone (hs.read attempt ha)
    · exact hb
  based attempt ha := h.step.based hone (hs.based attempt ha)
  checked := hs.checked
  offers := ho
  coded := h.coded
  looping := hs.looping
  first := hs.first

/-- `check_diff` has read the diff. -/
theorem Carried.check (hs : s.Carried host claim) {one : RunOne} {attempt : Attempt} {c : Snapshot} {ws : Workspace}
    {names : List PyStr} {diff : PyStr} (h : RunOne.Step claim s.one (.check (.ok (names, diff))) one)
    (ha : s.attempt = some attempt) (hbase : c.base = host.commitTree attempt.sha) (hwork : c.work = s.tree)
    (hws : host.Reports ws c.report) (hc : checkDiff ws attempt.policy = .ok (names, diff)) :
    Carried host claim { s with one := one, checked := some c } := by
  cases h with
  | check hp =>
    obtain ⟨-, hidle, hstarts⟩ := hs.early (by rw [hp]; rfl)
    obtain ⟨hignored, -, -, -, -, -, -, -, -, raw, hraw, htext⟩ := checkDiff_ok hc
    have happly : host.apply c.base diff = c.report.applied host.converted :=
      hws.diffText raw diff hraw (decodeText_ok.mp htext) fun _ hmem => GitDiff.not_binary hws.toShows hc hmem
    exact {
      early := nofun
      read := nofun
      based := hs.based
      checked := by
        intro c' hc'
        cases hc'
        exact ⟨GitDiff.ignored_eq_nil hws.toShows hignored, attempt, ha, hbase⟩
      offers := ⟨c, rfl, happly⟩
      coded := nofun
      looping := fun h => absurd hidle h
      first := by
        intro c' hc'
        cases hc'
        show (s.starts ++ [s.tree]).head? = some c.work
        rw [hstarts, hwork]
        rfl }

/-- The thread starts a command in the tree as it is, or ends one. -/
theorem Carried.turn (hs : s.Carried host claim) {loop : Loop}
    (h : host.sandbox.next host.workspace s.loop = some loop) : Carried host claim
      { s with loop := loop, starts := if loop.isRunning then s.starts ++ [s.tree] else s.starts } := by
  have hidle : s.loop ≠ .idle := by
    intro he
    rw [he] at h
    cases h
  have hdone : ∀ r, s.loop ≠ .done r := by
    intro r he
    rw [he] at h
    cases h
  refine {
    hs with
    early := fun he => absurd (hs.early he).2.1 hidle
    offers := ?_
    looping := fun _ => ?_
    first := ?_ }
  · show Offers host s.checked loop s.one.phase
    have ho := hs.offers
    cases hp : s.one.phase with
    | leaving result | ended result =>
      rw [hp] at ho
      cases result with
      | error f => trivial
      | ok outcome => exact ⟨ho.1, fun hf => absurd (ho.2 hf) (hdone _)⟩
    | marking work | validating work =>
      rw [hp] at ho
      exact ho
    | _ => trivial
  · obtain ⟨hchecked, hanswer⟩ := hs.looping hidle
    exact ⟨hchecked, fun attempt ha => (Sandbox.answer_next h).trans (hanswer attempt ha)⟩
  · intro c hc
    have hfirst := hs.first c hc
    show ((if loop.isRunning then s.starts ++ [s.tree] else s.starts) ++ [s.tree]).head? = some c.work
    split_ifs
    · rw [List.head?_append, hfirst]
      rfl
    · exact hfirst

/-- The worktree is that of the incident's commit. -/
theorem Carried.add (hs : s.Carried host claim) {attempt : Attempt} (hp : s.one.phase = .entering attempt) :
    Carried host claim
      { s with attempt := some attempt, worktree := .present, tree := host.commitTree attempt.sha } := by
  obtain ⟨hnone, hidle, -⟩ := hs.early (by rw [hp]; rfl)
  have hno : ∀ c, c ∉ s.checked := by
    intro c hc
    rw [hnone] at hc
    cases hc
  refine {
    hs with
    based := fun attempt' ha => ?_
    checked := fun c hc => absurd hc (hno c)
    looping := fun h => absurd hidle h
    first := fun c hc => absurd hc (hno c) }
  cases ha
  exact hs.read attempt (by rw [hp]; rfl)

/-- The thread of `run_validation` starts with its diff read. -/
theorem Carried.receive (hs : s.Carried host claim) {one : RunOne} {attempt : Attempt} {work : Work}
    (h : RunOne.Step claim s.one .receive one) (hp : one.phase = .validating work) (ha : s.attempt = some attempt) :
    Carried host claim { s with one := one, loop := .begin attempt.policy } := by
  cases h with
  | receiveFails => cases hp
  | @receive work' version hmark ht =>
    have ho := hs.offers
    rw [hmark] at ho
    have hdiff : Describes host s.checked work'.diff := ho
    obtain ⟨c, hc, -⟩ := ho
    refine {
      hs with
      early := nofun
      read := nofun
      offers := hdiff
      coded := nofun
      looping := fun _ => ⟨?_, fun attempt' ha' => ?_⟩ }
    · show s.checked ≠ none
      rw [hc]
      exact nofun
    · obtain rfl : attempt = attempt' := Option.some.inj (ha.symm.trans ha')
      exact Sandbox.answer_begin attempt.policy

theorem Carried.write (hs : s.Carried host claim) {tree : Tree} (hw : s.Writable) :
    Carried host claim { s with tree := tree } := by
  refine { hs with first := fun c hc => ?_ }
  have hfirst := hs.first c hc
  show (s.starts ++ [tree]).head? = some c.work
  rcases hw with hp | hne
  · have hnone := (hs.early (by rw [hp]; rfl)).1
    rw [hnone] at hc
    cases hc
  · rw [List.head?_append_of_ne_nil _ hne] at hfirst ⊢
    exact hfirst

/-- The loop ends with what `run_validation` answers. -/
theorem Carried.answered (hs : s.Carried host claim) {attempt : Attempt} (ha : attempt ∈ s.attempt)
    {r : Except Exn (Except ValidationFailure (List Json))} (hdone : s.loop = .done r) :
    host.sandbox.runValidation host.workspace attempt.policy = r := by
  obtain ⟨-, hanswer⟩ := hs.looping (by rw [hdone]; exact nofun)
  have h := hanswer attempt ha
  rw [hdone] at h
  exact (Option.some.inj h).symm

/-- What the loop ends with is what `execute` offers. -/
theorem Carried.validate (hs : s.Carried host claim) {one : RunOne}
    {r : Except Exn (Except ValidationFailure (List Json))}
    (h : RunOne.Step claim s.one (.validate (r.mapError .exception)) one) (hdone : s.loop = .done r) :
    Offers host s.checked s.loop one.phase := by
  cases h with
  | @validate work r' hp =>
    have ho := hs.offers
    rw [hp] at ho
    rcases r with e | failure | validation
    · trivial
    · refine ⟨⟨work.diff, rfl, ho⟩, fun hfailed => ?_⟩
      obtain ⟨attempt, ha⟩ : ∃ attempt, attempt ∈ s.attempt := by
        obtain ⟨c, hc, -⟩ := ho
        obtain ⟨-, attempt, ha, -⟩ := hs.checked c hc
        exact ⟨attempt, ha⟩
      have hcode := Sandbox.runValidation_failure (hs.answered ha hdone)
      simp [Outcome.failed, hcode] at hfailed
    · exact ⟨⟨work.diff, rfl, ho⟩, fun _ => hdone⟩

theorem Carried.step (hs : s.Carried host claim) (hone : s.one.Inv claim) (h : Step host claim s l s') :
    s'.Carried host claim := by
  cases h with
  | run ha hplain => exact hs.move hone ha (offers_plain ha.step hplain hs.offers)
  | add hp hw => exact hs.add hp
  | enter ha hw => exact hs.move hone ha (offers_enter ha.step)
  | check ha hattempt hbase hwork hws hc => exact hs.check ha.step hattempt hbase hwork hws hc
  | receive ha hp hattempt => exact hs.receive ha.step hp hattempt
  | receiveFails ha hp =>
    refine hs.move hone ha ?_
    obtain ⟨ha, -⟩ := ha
    cases ha with
    | receive => cases hp
    | receiveFails => trivial
  | @validate one r ha hdone => exact hs.move hone ha (hs.validate ha.step hdone)
  | write hw => exact hs.write hw
  | turn hn => exact hs.turn hn
  | remove => exact { hs with }

end PatchAttempt

/-! ## A command that writes and one that does not -/

namespace TwoCommands

open Sample PatchAttempt

def finished : Sys := marked.exec (.finalize (env 6) patchClaim outcome (some 5))

theorem ready : ∃ inc, finished.db.incidents.get patchClaim.incidentId = some inc ∧ inc.state = .patchReady := by
  decide

end TwoCommands

end Aeh
