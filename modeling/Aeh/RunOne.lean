import Aeh.Lease
import Aeh.OpenIndex
import Aeh.Worker

/-!
# RunOne — `run_one` of a PATCH claim, step by step

`execute` is a task that waits for threads and for the Codex gateway; what these answer is the label of a
step.  Its time limit fires only inside the timeout block, a cancellation at any await.  The gateway may answer the
cancellation of its time limit with an error of its own (`overrun`): what its client raises while it closes becomes an
`AehError`.  No interruption stops the thread that runs `mark_validating`, whose transaction is the step `commit` (or
`lose`, if the database fails); `version_ref` gets the new version only in the step `receive`, when the await returns.

So `finalize` knows the incident's version exactly if no interruption found the mark committed and not yet
received and no mark committed after its await was gone; and what it writes the database must hold
(`RunOne.attempt_recorded`).
-/

namespace Aeh

/-! ## The task of `execute` -/

/-- What an await can raise. -/
inductive Fault where
  | timeoutError
  | cancelledError
  | exception (e : Exn)

/-- How `await task` ends. -/
abbrev TaskResult := Except Fault Outcome

/-- `exc.code in {"AEH-CODEX-502-001", "AEH-GIT-503-001"}`. -/
def isTransient (code : String) : Bool := code = "AEH-CODEX-502-001" || code = "AEH-GIT-503-001"

/-- The `except` clauses of `run_one`. -/
def outcomeOf (type : JobType) : TaskResult → Outcome
  | .ok outcome => outcome
  | .error .timeoutError =>
    { errorCode := some (match type with
        | .analyze => "AEH-JOB-504-001"
        | .patch => "AEH-POLICY-422-001")
      errorDetail := some (lit "Execution time limit exceeded") }
  | .error (.exception (.aeh _ code detail)) =>
    { errorCode := some code, errorDetail := some detail, transient := isTransient code }
  | .error .cancelledError =>
    { errorCode := some "AEH-CODEX-502-001", errorDetail := some (lit "Worker lost its lease"), transient := true }
  | .error (.exception _) =>
    { errorCode := some "AEH-INTERNAL-500-001", errorDetail := some (lit "Internal execution error") }

/-- `ValidationFailure`. -/
structure ValidationFailure where
  code : String
  detail : PyStr
  results : List Json

/-- What the attempt has when it marks its run. -/
structure Work where
  threadId : PyStr
  changed : List PyStr
  diff : PyStr

/-- Where `run_one` is. -/
inductive Phase where
  | reading
  | resolving (attempt : Attempt)
  | entering (attempt : Attempt)
  | patching
  | checking (threadId : PyStr)
  | marking (work : Work)
  | validating (work : Work)
  | leaving (result : TaskResult)
  | ended (result : TaskResult)
  | finalized (answer : Except Exn Bool)

namespace Phase

def afterRead : Except Exn Attempt → Phase
  | .ok attempt => .resolving attempt
  | .error e => .ended (.error (.exception e))

def afterResolve (attempt : Attempt) : Except Fault PyStr → Phase
  | .ok sha =>
    if sha ≠ attempt.sha then
      .ended (.error (.exception (aehError 422 "AEH-GIT-422-001" "Stored commit changed")))
    else .entering attempt
  | .error f => .ended (.error f)

/-- `min(policy["patchTimeoutSeconds"], Limits.patch_seconds)`. -/
def patchTimeout (policy : Json) : Except Exn ℤ := do
  match ← policy.getItem "patchTimeoutSeconds" with
  | .int n => .ok (min n Limits.patchSeconds)
  | _ => .error .attributeError

/-- The worktree is entered. -/
def afterEnter (attempt : Attempt) : Except Fault Unit → Phase
  | .ok () =>
    match attempt.analysis with
    | none =>
      .leaving (.error (.exception (aehError 500 "AEH-INTERNAL-500-001" "Approved analysis result is missing")))
    | some _ =>
      match patchTimeout attempt.policy with
      | .ok _ => .patching
      | .error e => .leaving (.error (.exception e))
  | .error f => .ended (.error f)

def afterPatch : Except Fault PyStr → Phase
  | .ok threadId => .checking threadId
  | .error f => .leaving (.error f)

/-- `run_validation` reports its commands or the one that failed. -/
def afterValidate (work : Work) : Except Fault (Except ValidationFailure (List Json)) → Phase
  | .ok (.ok validation) =>
    .leaving (.ok { threadId := some work.threadId, changedFiles := work.changed, diff := some work.diff,
                    validation := validation })
  | .ok (.error failure) =>
    .leaving (.ok { threadId := some work.threadId, changedFiles := work.changed, diff := some work.diff,
                    validation := failure.results, errorCode := some failure.code,
                    errorDetail := some failure.detail })
  | .error f => .leaving (.error f)

/-- The worktree is removed. -/
def afterLeave (result : TaskResult) : Except Exn Unit → Phase
  | .ok () => .ended result
  | .error e => .ended (.error (.exception e))

/-- What `execute` will end with, once it leaves the worktree. -/
def result? : Phase → Option TaskResult
  | leaving result | ended result => some result
  | _ => none

/-- Where the time limit takes the task. -/
def timedOut : Phase → Option Phase
  | patching | checking _ | marking _ | validating _ => some (.leaving (.error .timeoutError))
  | _ => none

/-- Where a cancellation takes the task. -/
def cancelled : Phase → Option Phase
  | reading | resolving _ => some (.ended (.error .cancelledError))
  | entering _ | patching | checking _ | marking _ | validating _ | leaving _ =>
    some (.leaving (.error .cancelledError))
  | _ => none

/-- The await of `mark_validating`. -/
def isMarking : Phase → Bool
  | marking _ => true
  | _ => false

/-- Before `mark_validating` is called. -/
def isEarly : Phase → Bool
  | reading | resolving _ | entering _ | patching | checking _ => true
  | _ => false

def isFinalized : Phase → Bool
  | finalized _ => true
  | _ => false

theorem timedOut_some {p p' : Phase} (h : p.timedOut = some p') :
    p' = .leaving (.error .timeoutError) ∧ p.isFinalized = false := by
  cases p <;> cases h <;> exact ⟨rfl, rfl⟩

theorem cancelled_some {p p' : Phase} (h : p.cancelled = some p') :
    (p' = .leaving (.error .cancelledError) ∨ p' = .ended (.error .cancelledError)) ∧ p.isFinalized = false := by
  cases p with
  | reading | resolving attempt =>
    cases h
    exact ⟨Or.inr rfl, rfl⟩
  | ended result | finalized answer => cases h
  | _ =>
    cases h
    exact ⟨Or.inl rfl, rfl⟩

theorem afterResolve_ok (attempt : Attempt) (sha : PyStr) : afterResolve attempt (.ok sha) = .entering attempt ∨
    afterResolve attempt (.ok sha) =
      .ended (.error (.exception (aehError 422 "AEH-GIT-422-001" "Stored commit changed"))) := by
  by_cases hsha : sha = attempt.sha
  · exact Or.inl (if_neg (not_not.mpr hsha))
  · exact Or.inr (if_pos hsha)

/-- The entered worktree is left at once if the analysis or the time limit cannot be read. -/
theorem afterEnter_ok (attempt : Attempt) : afterEnter attempt (.ok ()) = .patching ∨
    ∃ e, afterEnter attempt (.ok ()) = .leaving (.error (.exception e)) ∧
      (e = aehError 500 "AEH-INTERNAL-500-001" "Approved analysis result is missing" ∨
        patchTimeout attempt.policy = .error e) := by
  unfold afterEnter
  dsimp only
  split
  · exact Or.inr ⟨_, rfl, Or.inl rfl⟩
  · split
    · exact Or.inl rfl
    · rename_i e he
      exact Or.inr ⟨e, rfl, Or.inr he⟩

theorem afterValidate_eq (work : Work) (r : Except Fault (Except ValidationFailure (List Json))) :
    ∃ result, afterValidate work r = .leaving result := by
  rcases r with f | failure | validation <;> exact ⟨_, rfl⟩

theorem afterLeave_eq (result : TaskResult) (r : Except Exn Unit) :
    ∃ result', afterLeave result r = .ended result' := by
  cases r <;> exact ⟨_, rfl⟩

end Phase

/-! ## Steps -/

/-- The thread that runs `mark_validating`. -/
inductive Thread where
  | idle
  | running
  | committed (version : ℕ)
  | failed (e : Exn)

/-- What the thread has to return. -/
def Thread.after : Except Exn (ℕ × Store) → Thread
  | .ok (version, _) => .committed version
  | .error e => .failed e

/-- `run_one` of a claim in the system of all parties; `versionRef` is `version_ref[0]`, and `expired` records
that the time limit has fired. -/
structure RunOne where
  sys : Sys
  phase : Phase
  versionRef : ℕ
  thread : Thread
  expired : Bool

inductive Act where
  | read (settings : Settings) (fs : FileSystem) (modelValidate : Json → Except Exn Json)
  | resolve (r : Except Fault PyStr)
  | enter (r : Except Fault Unit)
  | patch (r : Except Fault PyStr)
  | check (r : Except Fault (List PyStr × PyStr))
  | commit
  | lose (e : Exn)
  | receive
  | validate (r : Except Fault (Except ValidationFailure (List Json)))
  | leave (r : Except Exn Unit)
  | timeout
  | overrun (e : Exn)
  | cancel
  | others (tx : Tx)
  | finalize (env : Env)

/-- The version of an incident. -/
def Store.versionOf (db : Store) (i : Uuid) : Option ℕ := (db.incidents.get i).map Incident.version

namespace RunOne

/-- One step of `run_one` of the claim, or a transaction of another party that leaves the incident's version. -/
inductive Step (claim : Claim) : RunOne → Act → RunOne → Prop
  | read {s : RunOne} {settings : Settings} {fs : FileSystem} {modelValidate : Json → Except Exn Json} :
      s.phase = .reading → Step claim s (.read settings fs modelValidate)
        { s with phase := .afterRead (readAttempt settings fs modelValidate claim s.sys.db) }
  | resolve {s : RunOne} {attempt : Attempt} {r : Except Fault PyStr} :
      s.phase = .resolving attempt → Step claim s (.resolve r) { s with phase := .afterResolve attempt r }
  | enter {s : RunOne} {attempt : Attempt} {r : Except Fault Unit} :
      s.phase = .entering attempt → Step claim s (.enter r) { s with phase := .afterEnter attempt r }
  | patch {s : RunOne} {r : Except Fault PyStr} :
      s.phase = .patching → Step claim s (.patch r) { s with phase := .afterPatch r }
  | check {s : RunOne} {threadId diff : PyStr} {changed : List PyStr} :
      s.phase = .checking threadId → Step claim s (.check (.ok (changed, diff)))
        { s with phase := .marking ⟨threadId, changed, diff⟩, thread := .running }
  | checkFails {s : RunOne} {threadId : PyStr} {f : Fault} :
      s.phase = .checking threadId → Step claim s (.check (.error f)) { s with phase := .leaving (.error f) }
  | commit {s : RunOne} :
      s.thread = .running → Step claim s .commit
        { s with sys := s.sys.exec (.markValidating claim), thread := .after (markValidating claim s.sys.db) }
  | lose {s : RunOne} {e : Exn} : s.thread = .running → Step claim s (.lose e) { s with thread := .failed e }
  | receive {s : RunOne} {work : Work} {version : ℕ} :
      s.phase = .marking work → s.thread = .committed version →
        Step claim s .receive { s with phase := .validating work, versionRef := version }
  | receiveFails {s : RunOne} {work : Work} {e : Exn} :
      s.phase = .marking work → s.thread = .failed e →
        Step claim s .receive { s with phase := .leaving (.error (.exception e)) }
  | validate {s : RunOne} {work : Work} {r : Except Fault (Except ValidationFailure (List Json))} :
      s.phase = .validating work → Step claim s (.validate r) { s with phase := .afterValidate work r }
  -- an `AehError` of the removal is logged, other errors escape
  | leave {s : RunOne} {result : TaskResult} {r : Except Exn Unit} :
      s.phase = .leaving result → (∀ status code detail, r ≠ .error (.aeh status code detail)) →
        Step claim s (.leave r) { s with phase := .afterLeave result r }
  | timeout {s : RunOne} {phase : Phase} :
      s.phase.timedOut = some phase → Step claim s .timeout { s with phase := phase, expired := true }
  -- what the gateway's client raises when the time limit cancels it
  | overrun {s : RunOne} {e : Exn} :
      s.phase = .patching → (∀ status detail, e ≠ .aeh status "" detail) →
        Step claim s (.overrun e) { s with phase := .leaving (.error (.exception e)), expired := true }
  | cancel {s : RunOne} {phase : Phase} :
      s.phase.cancelled = some phase → Step claim s .cancel { s with phase := phase }
  | others {s : RunOne} {tx : Tx} :
      s.sys.allows tx → (s.sys.exec tx).db.versionOf claim.incidentId = s.sys.db.versionOf claim.incidentId →
        Step claim s (.others tx) { s with sys := s.sys.exec tx }
  | finalize {s : RunOne} {result : TaskResult} {env : Env} :
      s.phase = .ended result → Step claim s (.finalize env)
        { s with
          sys := s.sys.exec (.finalize env claim (outcomeOf claim.type result) (some s.versionRef))
          phase := .finalized (commit (finalize env claim (outcomeOf claim.type result) (some s.versionRef) s.sys.db)
            s.sys.db).1 }

/-- `run_one` starts with a claim `claim_job` has just returned. -/
def Start (claim : Claim) (s : RunOne) : Prop :=
  claim.type = .patch ∧ ∃ sys₀ settings env skip db, Sys.machine.Reachable sys₀ ∧
    claimJob settings env skip sys₀.db = .ok (some claim, db) ∧
    s = ⟨sys₀.exec (.claimJob settings env skip), .reading, claim.version, .idle, false⟩

def machine (claim : Claim) : Machine RunOne Act where
  init := Start claim
  step := Step claim

/-- The task ends with an outcome for which a job with attempts left is tried again. -/
def EndsTransient : TaskResult → Prop
  | .error .cancelledError => True
  | .error (.exception (.aeh _ code _)) => isTransient code = true
  | _ => False

/-- No interruption finds the mark committed with the await not yet returned, no mark of a current claim commits
once its await is gone, and while attempts are left no cancellation follows the time limit, and the gateway makes no
transient error of it. -/
def Orderly (claim : Claim) (s : RunOne) : Act → Prop
  | .timeout => s.phase.isMarking = true → ∀ version, s.thread ≠ .committed version
  | .cancel => (s.phase.isMarking = true → ∀ version, s.thread ≠ .committed version) ∧
      (s.expired = true → Limits.maxAttempts ≤ claim.attempt)
  | .overrun e => EndsTransient (.error (.exception e)) → Limits.maxAttempts ≤ claim.attempt
  | .commit => s.phase.isMarking = false → ¬ s.sys.db.Current claim
  | _ => True

/-- The runs whose steps are all orderly. -/
def orderly (claim : Claim) : Machine RunOne Act where
  init := Start claim
  step s a s' := Step claim s a s' ∧ s.Orderly claim a

/-! ## The version the incident has and the version `run_one` knows -/

/-- The version the incident has by the thread. -/
def versionBy (claim : Claim) : Thread → ℕ
  | .committed version => version
  | _ => claim.version

/-- What an attempt can end with after its time limit. -/
def Late : TaskResult → Prop
  | .ok _ => False
  | .error (.exception (.aeh _ code _)) => code ≠ ""
  | _ => True

structure Inv (claim : Claim) (s : RunOne) : Prop where
  sys : Sys.machine.Reachable s.sys
  patch : claim.type = .patch
  issued : claim ∈ s.sys.issued
  early : s.phase.isEarly = true → s.thread = .idle
  ref : s.versionRef = claim.version ∨ s.thread = .committed s.versionRef
  version : s.phase.isFinalized = false → s.sys.db.versionOf claim.incidentId = some (versionBy claim s.thread)
  late : s.expired = true → s.phase.isFinalized = true ∨ ∃ result ∈ s.phase.result?, Late result

variable {claim : Claim} {s s' : RunOne}

theorem issued_mono {s s' : Sys} {tx : Tx} (h : Sys.machine.step s tx s') (hc : claim ∈ s.issued) :
    claim ∈ s'.issued := by
  rcases Sys.issued_step h with he | ⟨_, _, _, _, -, -, he⟩
  · rw [he]
    exact hc
  · rw [he]
    exact List.mem_cons_of_mem _ hc

/-- The incident has the version of a new claim. -/
theorem versionOf_claimJob {db db' : Store} {settings : Settings} {env : Env} {skip : Uuid → Bool}
    (h : claimJob settings env skip db = .ok (some claim, db')) :
    db'.versionOf claim.incidentId = some claim.version := by
  rcases claimJob_ok h with ⟨h', -⟩ | ⟨job, inc, inc', hj, -, -, hi, hb, hr⟩
  · cases h'
  have hid := incident_id_of_get hi
  have hi' : (db.dossier inc.id).incident = some inc := by
    rw [hid]
    exact hi
  have hw := (Store.Rewrites.refl db inc.id).putJob hj
    (job.sameJob_claimed (env.uuid 0) settings.workerId (env.now 1)) hid.symm
  have hget : (db'.dossier inc.id).incident = some inc' ∧ inc'.id = inc.id := by
    cases ht : job.type with
    | analyze =>
      rw [ht] at hb
      obtain ⟨runs, -, hinc, hw'⟩ := hw.claimAnalyze hi' hb
      refine ⟨congrArg Dossier.incident hw'.here, ?_⟩
      rcases hinc with ⟨-, rfl⟩ | ⟨-, rfl⟩ <;> rfl
    | patch =>
      rw [ht] at hb
      obtain ⟨p, -, hinc, hw'⟩ := hw.claimPatch hi' hb
      refine ⟨congrArg Dossier.incident hw'.here, ?_⟩
      rcases hinc with ⟨-, rfl⟩ | ⟨-, rfl⟩ <;> rfl
  cases hr
  show (db'.incidents.get inc'.id).map Incident.version = some inc'.version
  rw [hget.2]
  exact congrArg (Option.map Incident.version) hget.1

theorem Inv.start (h : Start claim s) : s.Inv claim := by
  obtain ⟨ht, sys₀, settings, env, skip, db, hreach, hc, rfl⟩ := h
  have hexec : sys₀.exec (.claimJob settings env skip) = { sys₀ with db := db, issued := claim :: sys₀.issued } := by
    simp only [Sys.exec, hc]
  exact {
    sys := hreach.step (l := .claimJob settings env skip) ⟨trivial, rfl⟩
    patch := ht
    issued := by
      rw [hexec]
      exact List.mem_cons_self ..
    early := fun _ => rfl
    ref := Or.inl rfl
    version := fun _ => by
      rw [hexec]
      exact versionOf_claimJob hc
    late := fun h => Bool.noConfusion h }

/-- A step of the task alone. -/
theorem Inv.progress (hs : s.Inv claim) {phase phase' : Phase} (hp : s.phase = phase)
    (hlive : phase.isFinalized = false) (hearly : phase'.isEarly = true → phase.isEarly = true)
    (hlate : ∀ result ∈ phase.result?, Late result → ∃ result' ∈ phase'.result?, Late result') :
    Inv claim { s with phase := phase' } := by
  subst hp
  refine { hs with early := fun h => hs.early (hearly h), version := fun _ => hs.version hlive, late := fun h => ?_ }
  rcases hs.late h with hf | ⟨result, hr, hl⟩
  · rw [hlive] at hf
    cases hf
  · exact Or.inr (hlate result hr hl)

theorem versionOf_markValidating {db db' : Store} {v : ℕ} (h : markValidating claim db = .ok (v, db')) :
    db'.versionOf claim.incidentId = some v := by
  obtain ⟨job, inc, patch, db₁, -, -, hi, -, hu, -, rfl, rfl⟩ := markValidating_ok h
  have hid := incident_id_of_get hi
  rw [Store.updateIncident_ok hu]
  have hget : (db.incidents.put (inc.moveTo .validating)).get claim.incidentId = some (inc.moveTo .validating) := by
    rw [← hid]
    exact Table.get_put_self (x := inc.moveTo .validating) (y := inc) (by rw [← hid] at hi; exact hi)
  exact congrArg (Option.map Incident.version) hget

/-- The transaction of the thread. -/
theorem Inv.commit (hs : s.Inv claim) (ht : s.thread = .running) (hlate : s.phase.isEarly = false) :
    Inv claim
      { s with sys := s.sys.exec (.markValidating claim), thread := .after (markValidating claim s.sys.db) } := by
  have hstep : Sys.machine.step s.sys (.markValidating claim) (s.sys.exec (.markValidating claim)) := ⟨hs.issued, rfl⟩
  have href : s.versionRef = claim.version := by
    rcases hs.ref with h | h
    · exact h
    · rw [ht] at h
      cases h
  refine ⟨hs.sys.step hstep, hs.patch, issued_mono hstep hs.issued, ?_, Or.inl href, ?_, hs.late⟩
  · intro h
    rw [hlate] at h
    cases h
  · intro hlive
    have hv := hs.version hlive
    rw [ht] at hv
    cases hm : markValidating claim s.sys.db with
    | error e =>
      simp only [Sys.exec, hm, Thread.after]
      exact hv
    | ok r =>
      simp only [Sys.exec, hm, Thread.after]
      exact versionOf_markValidating hm

theorem Inv.step (hs : s.Inv claim) {a : Act} (h : Step claim s a s') : s'.Inv claim := by
  cases h with
  | read hp | resolve hp | enter hp | patch hp => exact hs.progress hp rfl (fun _ => rfl) nofun
  | check hp =>
    have hidle := hs.early (by rw [hp]; rfl)
    have hv := hs.version (by rw [hp]; rfl)
    have href := hs.ref
    have hlate := hs.late
    rw [hp] at hlate
    rw [hidle] at hv href
    exact {
      hs with
      early := nofun
      ref := Or.inl (href.resolve_right nofun)
      version := fun _ => hv
      late := fun h => by
        rcases hlate h with hf | ⟨_, hr, -⟩
        · cases hf
        · cases hr }
  | checkFails hp => exact hs.progress hp rfl nofun nofun
  | commit ht =>
    refine hs.commit ht ?_
    cases he : s.phase.isEarly with
    | false => rfl
    | true =>
      rw [hs.early he] at ht
      cases ht
  | lose ht =>
    have hv := hs.version
    have href := hs.ref
    rw [ht] at hv href
    refine { hs with early := fun he => ?_, ref := Or.inl (href.resolve_right nofun), version := hv }
    rw [hs.early he] at ht
    cases ht
  | @receive work version hp ht =>
    have hs' : Inv claim { s with phase := .validating work } := hs.progress hp rfl nofun nofun
    exact { hs' with ref := Or.inr ht }
  | receiveFails hp ht => exact hs.progress hp rfl nofun nofun
  | @validate work r hp =>
    obtain ⟨result, he⟩ := Phase.afterValidate_eq work r
    rw [he]
    exact hs.progress hp rfl nofun nofun
  | @leave result r hp herr =>
    refine hs.progress hp rfl (fun h => ?_) fun result' hr hl => ?_
    · rcases r with e | u <;> cases h
    · cases hr
      rcases r with e | u
      · refine ⟨_, rfl, ?_⟩
        cases e with
        | aeh status code detail => exact (herr status code detail rfl).elim
        | _ => trivial
      · exact ⟨_, rfl, hl⟩
  | timeout hp =>
    obtain ⟨rfl, hlive⟩ := Phase.timedOut_some hp
    exact { hs with early := nofun, version := fun _ => hs.version hlive, late := fun _ => Or.inr ⟨_, rfl, trivial⟩ }
  | @overrun e hp hcode =>
    have hv := hs.version (by rw [hp]; rfl)
    refine { hs with early := nofun, version := fun _ => hv, late := fun _ => Or.inr ⟨_, rfl, ?_⟩ }
    cases e with
    | aeh status code detail => exact fun hc => hcode status detail (by rw [hc])
    | _ => trivial
  | cancel hp =>
    obtain ⟨rfl | rfl, hlive⟩ := Phase.cancelled_some hp
    · exact hs.progress rfl hlive nofun fun _ _ _ => ⟨_, rfl, trivial⟩
    · exact hs.progress rfl hlive nofun fun _ _ _ => ⟨_, rfl, trivial⟩
  | @others tx hallows hv =>
    have hstep : Sys.machine.step s.sys tx (s.sys.exec tx) := ⟨hallows, rfl⟩
    exact {
      hs with
      sys := hs.sys.step hstep
      issued := issued_mono hstep hs.issued
      version := fun hlive => hv.trans (hs.version hlive) }
  | @finalize result env hp =>
    have hstep : Sys.machine.step s.sys (.finalize env claim (outcomeOf claim.type result) (some s.versionRef)) _ :=
      ⟨hs.issued, rfl⟩
    exact {
      hs with
      sys := hs.sys.step hstep
      issued := issued_mono hstep hs.issued
      early := nofun
      version := nofun
      late := fun _ => Or.inl rfl }

theorem inv_of_reachable (h : (machine claim).Reachable s) : s.Inv claim :=
  Machine.Reachable.invariant (M := machine claim) (fun _ => Inv.start) (fun _ _ _ hs h => hs.step h) h

/-! ## What `finalize` does -/

/-- `version_ref` has missed the version the mark gave the incident. -/
def Overtaken (s : RunOne) : Prop := ∃ version, s.thread = .committed version ∧ s.versionRef ≠ version

/-- The incident has the version `finalize` is called with, unless the mark has overtaken it. -/
theorem Inv.versionOf_iff (hs : s.Inv claim) (hlive : s.phase.isFinalized = false) :
    s.sys.db.versionOf claim.incidentId = some s.versionRef ↔ ¬ s.Overtaken := by
  rw [hs.version hlive]
  cases ht : s.thread with
  | committed version => simp [Overtaken, ht, versionBy, eq_comm]
  | idle | running | failed =>
    have href := hs.ref
    rw [ht] at href
    rcases href with href | href
    · simp [Overtaken, ht, versionBy, href]
    · cases href

end RunOne

/-- The claim is current and its lease has not expired when `finalize` reads the clock. -/
def Store.Leased (db : Store) (env : Env) (claim : Claim) : Prop :=
  ∃ job, db.jobs.get claim.jobId = some job ∧ job.heldBy claim = true ∧ job.leaseAt (env.now 0) = true

/-- The outcome waits for a further attempt. -/
def Job.retries (job : Job) (outcome : Outcome) : Bool :=
  outcome.failed && outcome.transient && job.attempt < job.maxAttempts

/-- What `finalize` of a PATCH claim writes when it records the outcome. -/
def Recorded (env : Env) (claim : Claim) (outcome : Outcome) (db db' : Store) : Prop :=
  ∃ job, db.jobs.get claim.jobId = some job ∧
    (job.retries outcome = true →
      db'.jobs.get claim.jobId = some (job.requeued outcome.errorCode outcome.errorDetail (env.now 1))) ∧
    (job.retries outcome = false →
      db'.jobs.get claim.jobId = some (job.ended outcome.errorCode outcome.errorDetail outcome.jobStatus) ∧
      (∃ inc, db.incidents.get claim.incidentId = some inc ∧ db'.incidents.get claim.incidentId =
        some (inc.moveTo (if outcome.failed then .patchFailed else .patchReady))) ∧
      ∃ patch, db.patchRunOf claim.incidentId = some patch ∧
        db'.patchRunOf claim.incidentId = some (patch.finished outcome (env.now 1)))

/-- The attempt ends in PATCH_FAILED. -/
def FailsPatch (claim : Claim) (db' : Store) : Prop :=
  (∃ job, db'.jobs.get claim.jobId = some job ∧ job.status = .failed) ∧
  (∃ inc, db'.incidents.get claim.incidentId = some inc ∧ inc.state = .patchFailed) ∧
  ∃ patch, db'.patchRunOf claim.incidentId = some patch ∧ patch.status = .patchFailed

/-- The backend holds what `finalize` writes of the outcome. -/
def Store.Holds (db : Store) (env : Env) (claim : Claim) (outcome : Outcome) : Prop :=
  ∀ job, db.jobs.get claim.jobId = some job →
    (job.retries outcome = true → env.backend.holdsError outcome = true) ∧
      (job.retries outcome = false → env.backend.holdsOutcome claim.type outcome = true)

section Finalize

variable {db db' : Store} {env : Env} {claim : Claim} {outcome : Outcome} {version : ℕ}

/-- `finalize` of a current claim with a lease turns on the version. -/
theorem finalize_leased {job : Job} {inc : Incident} (hj : db.jobs.get claim.jobId = some job)
    (hheld : job.heldBy claim = true) (hl : job.leaseAt (env.now 0) = true)
    (hi : db.incidents.get claim.incidentId = some inc) :
    finalize env claim outcome (some version) db =
      if inc.version ≠ version then .ok (false, db)
      else if job.retries outcome then
        writes (env.backend.holdsError outcome) >>= fun _ =>
          .ok (true, db.putJob (job.requeued outcome.errorCode outcome.errorDetail (env.now 1)))
      else finish (env.now 1) claim.type inc outcome
        (db.putJob (job.ended outcome.errorCode outcome.errorDetail outcome.jobStatus)) >>= fun db =>
          writes (env.backend.holdsOutcome claim.type outcome) >>= fun _ => .ok (true, db) := by
  obtain ⟨-, htoken, hrun⟩ := heldBy_iff.mp hheld
  unfold finalize
  rw [hj]
  simp only [hrun, htoken, hl, hi, Job.retries, ne_eq, not_true_eq_false, or_self, if_false, Option.getD_some]
  rfl

/-- Another version is in the way. -/
theorem finalize_overtaken (hleased : db.Leased env claim) (hv : db.versionOf claim.incidentId ≠ some version) :
    finalize env claim outcome (some version) db = .ok (false, db) := by
  obtain ⟨job, hj, hheld, hl⟩ := hleased
  cases hi : db.incidents.get claim.incidentId with
  | none =>
    obtain ⟨-, htoken, hrun⟩ := heldBy_iff.mp hheld
    unfold finalize
    simp [hj, hrun, htoken, hl, hi]
  | some inc =>
    rw [finalize_leased hj hheld hl hi, if_pos]
    intro he
    exact hv (by simp [Store.versionOf, hi, he])

/-- The incident of a running PATCH job is open, and there is one patch run. -/
theorem patch_of_running (hok : ∀ i, (db.dossier i).Ok) {job : Job} (hm : job ∈ db.jobs.rows) (ht : job.type = .patch)
    (hs : job.status = .running) {inc : Incident} (hi : db.incidents.get job.incidentId = some inc) :
    inc.state.isOpen = true ∧ ∃ p, (db.dossier job.incidentId).patchRuns = [p] ∧
      db.patchRunOf job.incidentId = some p := by
  have hmem : job ∈ (db.dossier job.incidentId).jobs := Store.mem_dossier_jobs.mpr ⟨hm, rfl⟩
  obtain ⟨inc', ja, r, a, p, hd, hst, -⟩ := (hok job.incidentId).patch_active hmem ht (Or.inr hs)
  obtain rfl : inc' = inc := by
    have hinc : (db.dossier job.incidentId).incident = some inc := hi
    rw [hd] at hinc
    exact Option.some.inj hinc
  refine ⟨?_, p, by rw [hd], by rw [Store.patchRunOf_eq, hd]; rfl⟩
  rcases hst with ⟨h, -⟩ | ⟨h, -⟩ <;> rw [h] <;> rfl

/-- With the incident's version `finalize` of a PATCH claim records the outcome, if the backend holds it. -/
theorem finalize_records (hinv : db.OpenUnique) (hok : ∀ i, (db.dossier i).Ok) (hc : claim.Fits db)
    (ht : claim.type = .patch) (hleased : db.Leased env claim) (hv : db.versionOf claim.incidentId = some version)
    (hholds : db.Holds env claim outcome) :
    ∃ db', finalize env claim outcome (some version) db = .ok (true, db') ∧ Recorded env claim outcome db db' := by
  obtain ⟨job, hj, hheld, hl⟩ := hleased
  obtain ⟨hretried, hended⟩ := hholds job hj
  obtain ⟨inc, hi, hiv⟩ := Option.map_eq_some_iff.mp hv
  obtain ⟨htj, hij, -⟩ := hc.of_get hj
  obtain ⟨hmj, hidj⟩ := Table.get_eq_some.mp hj
  rw [finalize_leased hj hheld hl hi, if_neg (not_not.mpr hiv)]
  have hs := (heldBy_iff.mp hheld).2.2
  cases hr : job.retries outcome with
  | true =>
    rw [if_pos rfl, hretried hr]
    refine ⟨_, rfl, job, hj, fun _ => ?_, fun h => ?_⟩
    · rw [← hidj] at hj ⊢
      exact Table.get_put_self (x := job.requeued outcome.errorCode outcome.errorDetail (env.now 1)) hj
    · rw [hr] at h
      cases h
  | false =>
    have hid := incident_id_of_get hi
    have hw := (Store.Rewrites.refl db claim.incidentId).putJob hmj
      (job.sameJob_ended outcome.errorCode outcome.errorDetail outcome.jobStatus) hij
    obtain ⟨hopen, p, hd, hp⟩ := patch_of_running hok hmj (htj.trans ht) hs (hij ▸ hi)
    rw [hij] at hd hp
    obtain ⟨hmp, hpi⟩ := patchRunOf_some hp
    have same : p.SamePatch (p.finished outcome (env.now 1)) := ⟨rfl, rfl, rfl, rfl⟩
    have hw₁ := hw.putPatchRun hmp same hpi
    obtain ⟨db₁, hdb₁⟩ : ∃ db₁, db₁ = (db.putJob (job.ended outcome.errorCode outcome.errorDetail
      outcome.jobStatus)).putPatchRun (p.finished outcome (env.now 1)) := ⟨_, rfl⟩
    have hi₁ : inc ∈ db₁.incidents.rows := by
      rw [hdb₁]
      exact (Table.get_eq_some.mp hi).1
    have hopen₁ : db₁.OpenUnique := hinv.of_eq (by rw [hdb₁]; rfl)
    have hu := Store.updateIncident_total hopen₁ hi₁
      (inc.sameCase_moveTo (if outcome.failed then .patchFailed else .patchReady)) fun _ => hopen
    rw [← hdb₁] at hw₁
    have hw₂ := hw₁.updateIncident hi (inc.sameCase_moveTo _) hid hu
    refine ⟨_, ?_, job, hj, fun h => ?_, fun _ => ⟨?_, ⟨inc, hi, congrArg Dossier.incident hw₂.here⟩, p, hp, ?_⟩⟩
    · have hp' : (db.putJob (job.ended outcome.errorCode outcome.errorDetail outcome.jobStatus)).patchRunOf inc.id =
          some p := by
        rw [hid]
        exact hp
      rw [hended hr, ht]
      simp only [finish, hp', ← hdb₁, hu]
      rfl
    · rw [hr] at h
      cases h
    · show db₁.jobs.get claim.jobId = _
      rw [hdb₁, ← hidj]
      rw [← hidj] at hj
      exact Table.get_put_self (x := job.ended outcome.errorCode outcome.errorDetail outcome.jobStatus) hj
    · rw [Store.patchRunOf_eq, hw₂.here, hd]
      exact congrArg List.head? (Table.replace_one same.id)

/-- Otherwise the transaction fails. -/
theorem holds_of_finalize (hleased : db.Leased env claim) (hv : db.versionOf claim.incidentId = some version)
    (h : finalize env claim outcome (some version) db = .ok (true, db')) : db.Holds env claim outcome := by
  intro job hj
  obtain ⟨job', hj', hheld, hl⟩ := hleased
  obtain rfl := Option.some.inj (hj'.symm.trans hj)
  obtain ⟨inc, hi, hiv⟩ := Option.map_eq_some_iff.mp hv
  rw [finalize_leased hj hheld hl hi, if_neg (not_not.mpr hiv)] at h
  cases hr : job'.retries outcome with
  | true =>
    rw [if_pos hr] at h
    obtain ⟨_, hw, -⟩ := bind_eq_ok.mp h
    exact ⟨fun _ => writes_ok.mp hw, nofun⟩
  | false =>
    rw [if_neg (by rw [hr]; exact Bool.false_ne_true)] at h
    obtain ⟨_, -, h⟩ := bind_eq_ok.mp h
    obtain ⟨_, hw, -⟩ := bind_eq_ok.mp h
    exact ⟨nofun, fun _ => writes_ok.mp hw⟩

end Finalize

namespace RunOne

/-! ## When the outcome is recorded -/

/-- `finalize` returns True and records the outcome; after its time limit the attempt ends in PATCH_FAILED. -/
def Meets (claim : Claim) (env : Env) (result : TaskResult) (s : RunOne) : Prop :=
  ∃ db', finalize env claim (outcomeOf claim.type result) (some s.versionRef) s.sys.db = .ok (true, db') ∧
    Recorded env claim (outcomeOf claim.type result) s.sys.db db' ∧ (s.expired = true → FailsPatch claim db')

/-- After its time limit the attempt was not cancelled, nor did the gateway make a transient error of it, or the attempt
is the last one. -/
def Settled (claim : Claim) (result : TaskResult) (s : RunOne) : Prop :=
  s.expired = true → EndsTransient result →
    ∀ job, s.sys.db.jobs.get claim.jobId = some job → job.maxAttempts ≤ job.attempt

variable {claim : Claim} {s s' : RunOne} {env : Env} {result : TaskResult}

/-- The outcome of such an attempt has an error. -/
theorem Late.outcome (h : Late result) : (outcomeOf .patch result).failed = true ∧
    ((outcomeOf .patch result).transient = true ↔ EndsTransient result) := by
  rcases result with f | outcome
  · cases f with
    | timeoutError => exact ⟨by decide, by simp [outcomeOf, EndsTransient]⟩
    | cancelledError => exact ⟨by decide, by simp [outcomeOf, EndsTransient]⟩
    | exception e =>
      cases e with
      | aeh status code detail =>
        have hc : code ≠ "" := h
        exact ⟨by simp [outcomeOf, Outcome.failed, hc], Iff.rfl⟩
      | _ => exact ⟨rfl, by simp [outcomeOf, EndsTransient]⟩
  · exact h.elim

/-- What an attempt that exceeds its time limit ends with. -/
theorem Inv.late_of_ended (hs : s.Inv claim) (hp : s.phase = .ended result) (he : s.expired = true) : Late result := by
  have hlate := hs.late he
  rw [hp] at hlate
  rcases hlate with h | ⟨result', h, hl⟩
  · cases h
  · cases h
    exact hl

theorem Inv.meets_iff (hs : s.Inv claim) (hp : s.phase = .ended result) (hl : s.sys.db.Leased env claim) :
    s.Meets claim env result ↔ ¬ s.Overtaken ∧ s.Settled claim result ∧
      s.sys.db.Holds env claim (outcomeOf claim.type result) := by
  have hinv := Sys.inv_of_reachable hs.sys
  have hv := hs.versionOf_iff (by rw [hp]; rfl)
  rw [Meets, Settled, hs.patch]
  constructor
  · rintro ⟨db', hf, ⟨job, hj, hretried, -⟩, hfails⟩
    have hno : ¬ s.Overtaken := by
      by_contra hover
      rw [finalize_overtaken hl fun h => hv.mp h hover] at hf
      cases hf
    refine ⟨hno, fun he hc job' hj' => ?_, holds_of_finalize hl (hv.mpr hno) hf⟩
    obtain rfl := Option.some.inj (hj.symm.trans hj')
    obtain ⟨hfailed, htransient⟩ := (hs.late_of_ended hp he).outcome
    by_contra hlt
    have hretries : job.retries (outcomeOf .patch result) = true := by
      simp [Job.retries, hfailed, htransient.mpr hc, not_le.mp hlt]
    -- a waiting job has not failed
    obtain ⟨⟨job'', hj'', hst⟩, -⟩ := hfails he
    obtain rfl := Option.some.inj ((hretried hretries).symm.trans hj'')
    cases hst
  · rintro ⟨hno, hset, hholds⟩
    obtain ⟨db', hf, hrec⟩ := finalize_records (Sys.openUnique_of_reachable hs.sys) hinv.ok (hinv.fits claim hs.issued)
      hs.patch hl (hv.mpr hno) hholds
    refine ⟨db', hf, hrec, fun he => ?_⟩
    obtain ⟨job, hj, -, hended⟩ := hrec
    obtain ⟨hfailed, htransient⟩ := (hs.late_of_ended hp he).outcome
    have hretries : job.retries (outcomeOf .patch result) = false := by
      by_contra hr
      simp only [Job.retries, hfailed, Bool.true_and, Bool.not_eq_false, Bool.and_eq_true, htransient,
        decide_eq_true_eq] at hr
      have := hset he hr.1 job hj
      omega
    obtain ⟨hj', ⟨inc, -, hi'⟩, patch, -, hp'⟩ := hended hretries
    refine ⟨⟨_, hj', ?_⟩, ⟨_, hi', ?_⟩, _, hp', ?_⟩
    · simp [Job.ended, Outcome.jobStatus, hfailed]
    · simp [Incident.moveTo, hfailed]
    · simp [PatchRun.finished, hfailed]

/-! ## Orderly runs -/

/-- What holds of orderly runs besides `Inv`. -/
structure Straight (claim : Claim) (s : RunOne) : Prop where
  received : ∀ version, s.thread = .committed version → s.phase.isMarking = true ∨ s.versionRef = version
  last : s.expired = true → ∀ result ∈ s.phase.result?, EndsTransient result → Limits.maxAttempts ≤ claim.attempt

theorem Straight.start (h : Start claim s) : s.Straight claim := by
  obtain ⟨-, sys₀, settings, env, skip, db, -, -, rfl⟩ := h
  exact ⟨nofun, nofun⟩

/-- A step of the task alone, from a phase that is not the await of `mark_validating`. -/
theorem Straight.progress (hs : s.Straight claim) {phase phase' : Phase} (hp : s.phase = phase)
    (hmark : phase.isMarking = false) (hlast : s.expired = true → ∀ result' ∈ phase'.result?, EndsTransient result' →
      ∃ result ∈ phase.result?, EndsTransient result) : Straight claim { s with phase := phase' } := by
  subst hp
  refine ⟨fun version ht => Or.inr ?_, fun he result' hr ht => ?_⟩
  swap
  · obtain ⟨result, hr', ht'⟩ := hlast he result' hr ht
    exact hs.last he result hr' ht'
  rcases hs.received version ht with h | h
  · rw [hmark] at h
    cases h
  · exact h

theorem Straight.step (hinv : s.Inv claim) (hs : s.Straight claim) {a : Act} (h : Step claim s a s')
    (ho : s.Orderly claim a) : s'.Straight claim := by
  have hnever : ∀ {p : Phase}, s.phase = p → p.isFinalized = false → p.result? = none → s.expired = true → False := by
    rintro p rfl hlive hnone he
    rcases hinv.late he with h | ⟨_, h, -⟩
    · rw [hlive] at h
      cases h
    · rw [hnone] at h
      cases h
  cases h with
  | read hp | resolve hp | enter hp | patch hp | checkFails hp | validate hp =>
    exact hs.progress hp rfl fun he => (hnever hp rfl rfl he).elim
  | check hp => exact ⟨nofun, nofun⟩
  | commit ht =>
    refine ⟨fun version hv => Or.inl ?_, hs.last⟩
    by_contra hm
    cases hr : markValidating claim s.sys.db with
    | error e =>
      rw [hr] at hv
      cases hv
    | ok r =>
      obtain ⟨job, _, _, _, hj, hheld, -⟩ := markValidating_ok hr
      exact ho (Bool.not_eq_true _ ▸ hm) ⟨job, hj, hheld⟩
  | lose ht => exact ⟨nofun, hs.last⟩
  | receive hp ht =>
    refine ⟨fun version hv => Or.inr ?_, nofun⟩
    rw [ht] at hv
    exact Thread.committed.inj hv
  | receiveFails hp ht =>
    refine ⟨fun version hv => ?_, fun he => (hnever hp rfl rfl he).elim⟩
    rw [ht] at hv
    cases hv
  | @leave result r hp herr =>
    refine hs.progress hp rfl fun _ result' hr ht => ?_
    rcases r with e | u
    · cases hr
      cases e with
      | aeh status code detail => exact absurd rfl (herr status code detail)
      | _ => cases ht
    · exact ⟨result', hr, ht⟩
  | timeout hp =>
    obtain ⟨rfl, -⟩ := Phase.timedOut_some hp
    refine ⟨fun version hv => Or.inr ?_, fun _ result hr ht => ?_⟩
    · exact (hs.received version hv).resolve_left fun hm => ho hm version hv
    · cases hr
      cases ht
  | overrun hp hcode =>
    refine ⟨fun version hv => ?_, fun _ result hr ht => ?_⟩
    · exact Or.inr ((hs.received version hv).resolve_left fun hm => by rw [hp] at hm; cases hm)
    · cases hr
      exact ho ht
  | cancel hp =>
    refine ⟨fun version hv => Or.inr ?_, fun he _ _ _ => ho.2 he⟩
    exact (hs.received version hv).resolve_left fun hm => ho.1 hm version hv
  | others hallows hv => exact ⟨hs.received, hs.last⟩
  | finalize hp =>
    refine ⟨fun version hv => Or.inr ?_, nofun⟩
    refine (hs.received version hv).resolve_left fun hm => ?_
    rw [hp] at hm
    cases hm

theorem straight_of_reachable (h : (orderly claim).Reachable s) : (machine claim).Reachable s ∧ s.Straight claim := by
  refine Machine.Reachable.invariant (M := orderly claim)
    (I := fun s => (machine claim).Reachable s ∧ s.Straight claim) ?_ ?_ h
  · exact fun s hs => ⟨.of_init hs, .start hs⟩
  · intro s a s' ⟨hr, hs⟩ hstep
    exact ⟨hr.step (l := a) hstep.1, hs.step (inv_of_reachable hr) hstep.1 hstep.2⟩

/-- The claim's job has the attempt limit of all jobs. -/
theorem Inv.maxAttempts (hs : s.Inv claim) {job : Job} (hj : s.sys.db.jobs.get claim.jobId = some job)
    (hrun : job.status = .running) : job.maxAttempts = Limits.maxAttempts := by
  have hinv := Sys.inv_of_reachable hs.sys
  obtain ⟨ht, hi, -⟩ := (hinv.fits claim hs.issued).of_get hj
  have hmem : job ∈ (s.sys.db.dossier claim.incidentId).jobs :=
    Store.mem_dossier_jobs.mpr ⟨(Table.get_eq_some.mp hj).1, hi⟩
  obtain ⟨_, _, _, _, _, -, -, -, -, -, -, -, -, hserves, -⟩ :=
    (hinv.ok claim.incidentId).patch_active hmem (ht.trans hs.patch) (Or.inr hrun)
  exact hserves.sound.limit

/-- **The outcome is recorded** exactly if no mark has overtaken `version_ref`, the time limit was not turned into a
transient error with attempts left, and the database holds the outcome; so it is in every orderly run, if the database
holds it. -/
theorem attempt_recorded (h : (machine claim).Reachable s) (hp : s.phase = .ended result)
    (hl : s.sys.db.Leased env claim) :
    (s.Meets claim env result ↔ ¬ s.Overtaken ∧ s.Settled claim result ∧
      s.sys.db.Holds env claim (outcomeOf claim.type result)) ∧
      ((orderly claim).Reachable s → s.sys.db.Holds env claim (outcomeOf claim.type result) →
        s.Meets claim env result) := by
  have hs := inv_of_reachable h
  refine ⟨hs.meets_iff hp hl, fun ho hholds => (hs.meets_iff hp hl).mpr ?_⟩
  obtain ⟨-, hst⟩ := straight_of_reachable ho
  refine ⟨?_, ?_, hholds⟩
  · rintro ⟨version, hv, hne⟩
    rcases hst.received version hv with hm | he
    · rw [hp] at hm
      cases hm
    · exact hne he
  · intro he hc job hj
    have hfits := ((Sys.inv_of_reachable hs.sys).fits claim hs.issued).of_get hj
    have hlast := hst.last he result (by rw [hp]; rfl) hc
    obtain ⟨job', hj', hheld, -⟩ := hl
    obtain rfl := Option.some.inj (hj.symm.trans hj')
    have := hs.maxAttempts hj (heldBy_iff.mp hheld).2.2
    omega

end RunOne

/-! ## A sample attempt -/

namespace Interrupted

open RunOne Sample

/-- The result of the analysis, an `AnalysisResult`. -/
def analysis : Json :=
  .obj [(lit "summary", .str (lit "crash")), (lit "rootCause", .str (lit "null")),
    (lit "confidence", .str (lit "high")),
    (lit "evidence", .arr [.obj [(lit "path", .str (lit "src/a.py")), (lit "symbol", .null),
      (lit "explanation", .str (lit "unchecked"))]]),
    (lit "proposedChanges", .arr [.obj [(lit "path", .str (lit "src/a.py")), (lit "purpose", .str (lit "check")),
      (lit "operation", .str (lit "modify"))]]),
    (lit "validationPlan", strList [lit "tests"]),
    (lit "reproductionAssessment", .obj [(lit "reproducible", .bool true), (lit "reason", .str (lit "input")),
      (lit "suggestedRegressionTests", strList [])]),
    (lit "risk", .str (lit "low")), (lit "missingInformation", strList [])]

/-- From the first event to the approval. -/
def txs : List Tx :=
  [.ingest (env 1) request intake sha, .claimJob settings (env 2) fun _ => false,
    .finalize (env 3) analyzeClaim { result := some analysis } none, .approve (env 4) 17 9]

def approved : Sys := start.execAll txs

theorem approved_reachable : Sys.machine.Reachable approved :=
  reachable_execAll (show start.Permits txs by decide)

def claimed : Sys := approved.exec (.claimJob settings (env 5) fun _ => false)

def attempt : Attempt :=
  { repo := [lit "/repositories", lit "api"]
    sha := sha
    policy := (approved.db.analysisRunOf 17).elim .null AnalysisRun.policySnapshot
    event := .obj [(lit "fingerprint", .str (lit "f"))]
    analysis := some analysis
    analysisStarted := some (seconds 2) }

theorem attempt_read : readAttempt settings fs .ok patchClaim claimed.db = .ok attempt := by rfl

def work : Work := ⟨lit "thread", [lit "src/a.py"], lit "diff"⟩

/-- The worker awaits `mark_validating`. -/
def waiting : RunOne := ⟨claimed, .marking work, 4, .running, false⟩

theorem waiting_reachable : (orderly patchClaim).Reachable waiting := by
  have h₀ : (orderly patchClaim).Reachable ⟨claimed, .reading, 4, .idle, false⟩ :=
    .of_init ⟨rfl, approved, settings, env 5, fun _ => false, claimed.db, approved_reachable, by rfl, rfl⟩
  have h₁ := h₀.step (show (orderly patchClaim).step _ (.read settings fs .ok) _ from ⟨.read rfl, trivial⟩)
  simp only [attempt_read] at h₁
  have h₂ := h₁.step (show (orderly patchClaim).step _ (.resolve (.ok sha)) _ from ⟨.resolve rfl, trivial⟩)
  have h₃ := h₂.step (show (orderly patchClaim).step _ (.enter (.ok ())) _ from ⟨.enter rfl, trivial⟩)
  have h₄ := h₃.step (show (orderly patchClaim).step _ (.patch (.ok work.threadId)) _ from ⟨.patch rfl, trivial⟩)
  exact h₄.step (show (orderly patchClaim).step _ (.check (.ok (work.changed, work.diff))) _ from ⟨.check rfl, trivial⟩)

/-- The state in which the time limit has ended the attempt after the mark. -/
def timedOut (versionRef : ℕ) : RunOne :=
  ⟨claimed.exec (.markValidating patchClaim), .ended (.error .timeoutError), versionRef, .committed 5, true⟩

theorem timedOut_leased (n : ℕ) : (timedOut n).sys.db.Leased (env 6) patchClaim := by
  refine ⟨_, rfl, ?_, ?_⟩ <;> decide

/-- The time limit fires after the version has arrived: the patch fails as documented. -/
theorem attempt_recorded_sample : (timedOut 5).Meets patchClaim (env 6) (.error .timeoutError) := by
  have h₁ := waiting_reachable.step (show (orderly patchClaim).step _ .commit _ from ⟨.commit rfl, nofun⟩)
  have h₂ := h₁.step (show (orderly patchClaim).step _ .receive _ from ⟨.receive rfl rfl, trivial⟩)
  have h₃ := h₂.step (show (orderly patchClaim).step _ .timeout _ from ⟨.timeout rfl, nofun⟩)
  have h₄ := h₃.step (show (orderly patchClaim).step _ (.leave (.ok ())) _ from ⟨.leave rfl nofun, trivial⟩)
  have hholds : (timedOut 5).sys.db.Holds (env 6) patchClaim (outcomeOf patchClaim.type (.error .timeoutError)) :=
    fun _ _ => ⟨fun _ => by rfl, fun _ => by rfl⟩
  exact (attempt_recorded (straight_of_reachable h₄).1 rfl (timedOut_leased 5)).2 h₄ hholds

/-- The time limit fires between the commit of the mark and the return of its await: `finalize` refuses the outcome
and the job stays RUNNING. -/
theorem attempt_lost : ∃ s, (machine patchClaim).Reachable s ∧ s.phase = .ended (.error .timeoutError) ∧
    s.sys.db.Leased (env 6) patchClaim ∧ ¬ s.Meets patchClaim (env 6) (.error .timeoutError) ∧
    finalize (env 6) patchClaim (outcomeOf .patch (.error .timeoutError)) (some s.versionRef) s.sys.db =
      .ok (false, s.sys.db) := by
  have h₀ := (straight_of_reachable waiting_reachable).1
  have h₁ := h₀.step (show (machine patchClaim).step _ .commit _ from .commit rfl)
  have h₂ := h₁.step (show (machine patchClaim).step _ .timeout _ from .timeout rfl)
  have h₃ := h₂.step (show (machine patchClaim).step _ (.leave (.ok ())) _ from .leave rfl nofun)
  have hf : finalize (env 6) patchClaim (outcomeOf .patch (.error .timeoutError)) (some 4) (timedOut 4).sys.db =
      .ok (false, (timedOut 4).sys.db) := finalize_overtaken (timedOut_leased 4) (by decide)
  refine ⟨timedOut 4, h₃, rfl, timedOut_leased 4, ?_, hf⟩
  rintro ⟨db', hf', -⟩
  cases hf.symm.trans hf'

end Interrupted

end Aeh
