import Aeh.CheckDiff
import Aeh.RunOne
import Aeh.Receipts

/-!
# Unavailable — a service's repository is not there

`ingest` and `execute` resolve the path of the repository, then ask Git; `execute` asks again when the gateway has
worked.  A path that leads nowhere raises an exception that is no `AehError`; a repository that goes missing between two
Git commands is reported as an invalid operation.  Every other way a repository can be unavailable becomes a 503 of
`AEH-GIT-503-001`, which `run_one` takes for transient.
-/

namespace Aeh

/-! ## The beginning of an attempt -/

/-- `remaining` of `execute`. -/
def analysisRemaining (now : Time) (attempt : Attempt) : Time :=
  match attempt.analysisStarted with
  | some started => seconds Limits.analysisSeconds - (now - started)
  | none => seconds Limits.analysisSeconds

/-- What an attempt meets in its worktree: where it is, what the gateway and `execute` raise before they look at it, and
what stands at its paths afterwards. -/
structure Worksite where
  workspace : PyStr
  dir : AbsPath
  work : Attempt → Except Exn Unit
  stat : PyStr → Stat

/-- `check_diff` comes to the command: it would end with its error. -/
def GitHost.Checks (host : GitHost) (site : Worksite) (policy : Json) (c : DiffCommand) : Prop :=
  ∀ e, checkDiff (.of (Function.update (fun c => host.git site.dir c.args) c (.error e)) site.stat) policy = .error e

/-- The commands `ingest` comes to, with their directory. -/
def Intake.Asks (intake : Intake) (settings : Settings) (fs : FileSystem) (host : GitHost) (request : EventRequest)
    (dir : AbsPath) (args : List PyStr) : Prop :=
  settings.resolveRepositoryReference fs intake.repoPath = .ok dir ∧
    ∃ sha, commitShaOf request.event = .ok sha ∧ host.Asks dir sha intake.branch args

/-- The worktree is entered. -/
structure Attempt.Enters (attempt : Attempt) (host : GitHost) (claim : Claim) (now : Time) (site : Worksite) : Prop where
  sha : host.resolveCommit attempt.repo (some attempt.sha) (lit "main") = .ok attempt.sha
  live : ¬ (claim.type = .analyze ∧ analysisRemaining now attempt ≤ 0)
  added : ∃ stdout, host.git attempt.repo (worktreeArgs site.workspace attempt.sha) = .ok stdout

/-- The commands an attempt comes to, with their directory. -/
inductive Attempt.Asks (attempt : Attempt) (host : GitHost) (claim : Claim) (now : Time) (site : Worksite) :
    AbsPath → List PyStr → Prop
  | resolve {args : List PyStr} : host.Asks attempt.repo (some attempt.sha) (lit "main") args →
      attempt.Asks host claim now site attempt.repo args
  | worktree : host.resolveCommit attempt.repo (some attempt.sha) (lit "main") = .ok attempt.sha →
      ¬ (claim.type = .analyze ∧ analysisRemaining now attempt ≤ 0) →
      attempt.Asks host claim now site attempt.repo (worktreeArgs site.workspace attempt.sha)
  | status : attempt.Enters host claim now site → site.work attempt = .ok () → claim.type = .analyze →
      attempt.Asks host claim now site site.dir statusArgs
  | diff {c : DiffCommand} : attempt.Enters host claim now site → site.work attempt = .ok () → claim.type = .patch →
      host.Checks site attempt.policy c → attempt.Asks host claim now site site.dir c.args

/-- The ways the repository at `path` can be unavailable to a party that would run the commands `asks`. -/
inductive Unavailable (settings : Settings) (fs : FileSystem) (host : GitHost) (path : PyStr)
    (asks : AbsPath → List PyStr → Prop) : Prop
  | noRoot : fs.resolve fs.cwd settings.repositoryRoot = none → Unavailable settings fs host path asks
  | missing {root : AbsPath} : fs.resolve fs.cwd settings.repositoryRoot = some root → fs.resolve root path = none →
      Unavailable settings fs host path asks
  | outside {root dir : AbsPath} : fs.resolve fs.cwd settings.repositoryRoot = some root →
      fs.resolve root path = some dir → ¬ root <+: dir → Unavailable settings fs host path asks
  | noGit {root dir : AbsPath} : fs.resolve fs.cwd settings.repositoryRoot = some root →
      fs.resolve root path = some dir → fs.pathExists dir (lit ".git") = false → Unavailable settings fs host path asks
  | fails {repo dir : AbsPath} {args : List PyStr} : settings.resolveRepositoryReference fs path = .ok repo →
      asks dir args → host.run dir args = .osError ∨ host.run dir args = .timeoutExpired →
      Unavailable settings fs host path asks
  -- the repository, or the worktree, is missing by the time of a command
  | gone {repo dir : AbsPath} {args : List PyStr} : settings.resolveRepositoryReference fs path = .ok repo →
      asks dir args → host.run dir args = .noRepository → Unavailable settings fs host path asks
  | otherTop {repo top : AbsPath} : settings.resolveRepositoryReference fs path = .ok repo → asks repo topArgs →
      host.showToplevel repo = .ok top → top ≠ host.resolveAgain repo → Unavailable settings fs host path asks

/-- The path leads to a repository, and it does not go missing after Git has named its top level. -/
def Surfaces (settings : Settings) (fs : FileSystem) (host : GitHost) (path : PyStr)
    (asks : AbsPath → List PyStr → Prop) : Prop :=
  ∃ repo, settings.resolveRepositoryReference fs path = .ok repo ∧
    ∀ dir args, asks dir args → args ≠ topArgs → host.run dir args ≠ .noRepository

/-- The 503 of another top level. -/
def rootInvalid : Exn := aehError 503 "AEH-GIT-503-001" "Repository root is invalid"

/-- The exception is a 503 of `AEH-GIT-503-001`. -/
def Exn.IsGit503 (e : Exn) : Prop := e = gitUnavailable ∨ e = rootInvalid

section Cases

variable {settings : Settings} {fs : FileSystem} {host : GitHost} {path : PyStr} {asks : AbsPath → List PyStr → Prop}

/-- An unavailable repository has an unusable path, or Git is asked: it names another top level, fails, or finds
nothing. -/
theorem Unavailable.cases (h : Unavailable settings fs host path asks) :
    (∃ e, settings.resolveRepositoryReference fs path = .error e) ∨
      ∃ repo, settings.resolveRepositoryReference fs path = .ok repo ∧
        ((asks repo topArgs ∧ ∃ top, host.showToplevel repo = .ok top ∧ top ≠ host.resolveAgain repo) ∨
          ∃ dir args, asks dir args ∧ (host.git dir args = .error gitUnavailable ∨ host.run dir args = .noRepository)) := by
  cases h with
  | noRoot hr => exact Or.inl ⟨.fileNotFoundError, by unfold Settings.resolveRepositoryReference; rw [hr]⟩
  | missing hr hp =>
    exact Or.inl ⟨.fileNotFoundError, by unfold Settings.resolveRepositoryReference; simp only [hr, hp]⟩
  | outside hr hp ho =>
    exact Or.inl ⟨_, by unfold Settings.resolveRepositoryReference; simp only [hr, hp]; exact if_pos ho⟩
  | @noGit root dir hr hp hg =>
    refine Or.inl ?_
    unfold Settings.resolveRepositoryReference
    simp only [hr, hp, hg]
    by_cases ho : root <+: dir
    · exact ⟨_, by rw [if_neg (not_not.mpr ho), if_pos (by simp)]⟩
    · exact ⟨_, if_pos ho⟩
  | fails hr ha hf => exact Or.inr ⟨_, hr, Or.inr ⟨_, _, ha, Or.inl (GitHost.git_fails hf)⟩⟩
  | gone hr ha hg => exact Or.inr ⟨_, hr, Or.inr ⟨_, _, ha, Or.inr hg⟩⟩
  | otherTop hr ha ht hne => exact Or.inr ⟨_, hr, Or.inl ⟨ha, _, ht, hne⟩⟩

/-- The other exceptions of an unavailable repository. -/
def Exn.IsOther (e : Exn) : Prop := e = .fileNotFoundError ∨ (∃ message, e = .valueError message) ∨ e = invalidOperation

/-- **How an unavailable repository ends a computation** that resolves the path, raises what the resolution raises, and
ends with the first command that fails: with a 503 exactly if the path leads to a repository that stays. -/
theorem Unavailable.ends {α : Type} {x : Except Exn α} (hu : Unavailable settings fs host path asks)
    (hpath : ∀ e, settings.resolveRepositoryReference fs path = .error e → x = .error e)
    (hgit : ∀ dir args e, asks dir args → host.git dir args = .error e → (e = gitUnavailable ∨ e = invalidOperation) →
      x = .error (if args = topArgs then gitUnavailable else e))
    (htop : ∀ repo top, settings.resolveRepositoryReference fs path = .ok repo → asks repo topArgs →
      host.showToplevel repo = .ok top → top ≠ host.resolveAgain repo →
      x = .error rootInvalid) :
    (Surfaces settings fs host path asks → ∃ e, x = .error e ∧ e.IsGit503) ∧
      (¬ Surfaces settings fs host path asks → ∃ e, x = .error e ∧ e.IsOther) := by
  constructor
  · rintro ⟨repo, hr, hstays⟩
    rcases hu.cases with ⟨e, he⟩ | ⟨repo', hr', ⟨ha, top, ht, hne⟩ | ⟨dir, args, ha, hbad⟩⟩
    · rw [hr] at he
      cases he
    · exact ⟨_, htop repo' top hr' ha ht hne, Or.inr rfl⟩
    · rcases hbad with hf | hg
      · refine ⟨_, hgit dir args _ ha hf (Or.inl rfl), ?_⟩
        split_ifs <;> exact Or.inl rfl
      · have hargs : args = topArgs := by_contra fun hne => hstays dir args ha hne hg
        refine ⟨_, hgit dir args _ ha (GitHost.git_gone hg) (Or.inr rfl), ?_⟩
        rw [if_pos hargs]
        exact Or.inl rfl
  · intro hno
    cases hr : settings.resolveRepositoryReference fs path with
    | error e =>
      refine ⟨e, hpath e hr, ?_⟩
      rcases Settings.resolveRepositoryReference_error hr with rfl | h
      · exact Or.inl rfl
      · exact Or.inr (Or.inl h)
    | ok repo =>
      obtain ⟨dir, args, ha, hne, hg⟩ : ∃ dir args, asks dir args ∧ args ≠ topArgs ∧ host.run dir args = .noRepository := by
        by_contra h
        exact hno ⟨repo, hr, fun dir args ha hne hg => h ⟨dir, args, ha, hne, hg⟩⟩
      refine ⟨_, hgit dir args _ ha (GitHost.git_gone hg) (Or.inr rfl), ?_⟩
      rw [if_neg hne]
      exact Or.inr (Or.inr rfl)

end Cases

/-! ## Both callers -/

section Callers

variable {settings : Settings} {fs : FileSystem} {host : GitHost}

/-- The commands an attempt of the claim comes to on what it reads from the store. -/
def Claim.Asks (claim : Claim) (settings : Settings) (fs : FileSystem) (host : GitHost)
    (modelValidate : Json → Except Exn Json) (now : Time) (site : Worksite) (db : Store) (dir : AbsPath)
    (args : List PyStr) : Prop :=
  ∃ attempt, readAttempt settings fs modelValidate claim db = .ok attempt ∧ attempt.Asks host claim now site dir args

variable {modelValidate : Json → Except Exn Json} {claim : Claim} {now : Time} {workspace : PyStr} {site : Worksite}
  {db : Store}

end Callers

/-! ## What becomes of the job -/

/-- What `run_one` makes of an exception of its task. -/
abbrev Claim.raised (claim : Claim) (e : Exn) : Outcome := outcomeOf claim.type (.error (.exception e))

section Job

variable {env : Env} {claim : Claim} {db : Store} {e : Exn}

end Job

/-! ## The main result -/

namespace Gone

open Sample

/-- Git does not answer in time. -/
def slow : GitHost := ⟨fun _ _ => .timeoutExpired, fun _ => [], id⟩

/-- The gateway has nothing to raise, and the worktree stays empty. -/
def site : Worksite := ⟨lit "w", [lit "w"], fun _ => .ok (), fun _ => .missing⟩

/-- A call of `ingest` that is about to ask Git. -/
def waiting : Calls IngestCall := ⟨start, Function.update (fun _ => .waiting) 0 (.resolving Calls.sampleRequest intake)⟩

theorem waiting_step (fs : FileSystem) : Calls.ingestMachine.step waiting (.resolve 0 settings fs slow.resolveCommit)
    (waiting.goOn start 0 (.afterResolve Calls.sampleRequest intake
      (ingestResolve settings fs slow.resolveCommit Calls.sampleRequest intake))) :=
  ⟨_, _, rfl, rfl⟩

end Gone

end Aeh
