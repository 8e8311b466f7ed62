import Mathlib.Data.List.Sort
import Aeh.Repository

/-!
# JobRepository — `aeh/job_repository.py`: claims, leases and outcomes

Each function is one write transaction.  `FOR UPDATE SKIP LOCKED` lets a query pass over rows other
sessions hold, so the rows it may see are a parameter: `skip` of `claimJob`, the selection of
`recoverExpired`.
-/

namespace Aeh

structure Claim where
  jobId : Uuid
  token : Uuid
  incidentId : Uuid
  type : JobType
  version : ℕ
  attempt : ℕ
deriving DecidableEq

structure Outcome where
  result : Option Json := none
  threadId : Option PyStr := none
  changedFiles : List PyStr := []
  diff : Option PyStr := none
  validation : List Json := []
  errorCode : Option String := none
  errorDetail : Option PyStr := none
  transient : Bool := false

/-- `bool(outcome.error_code)`. -/
def Outcome.failed (outcome : Outcome) : Bool := outcome.errorCode.any (· ≠ "")

/-- The status of a job that ended with the outcome. -/
def Outcome.jobStatus (outcome : Outcome) : JobStatus := if outcome.failed then .failed else .succeeded

/-- The pause before the next attempt: `10 if job.attempt == 1 else 60` seconds. -/
def retryDelay (attempt : ℕ) : Time := seconds (if attempt = 1 then 10 else 60)

/-- `now() - timedelta(seconds=Limits.lease_seconds)`. -/
def leaseLimit (t : Time) : Time := t - seconds Limits.leaseSeconds

/-- `db.scalar(select(AnalysisRun).where(AnalysisRun.incident_id == …))`. -/
def Store.analysisRunOf (db : Store) (incidentId : Uuid) : Option AnalysisRun :=
  db.analysisRuns.first fun r => r.incidentId = incidentId

/-- `db.scalar(select(PatchRun).where(PatchRun.incident_id == …))`. -/
def Store.patchRunOf (db : Store) (incidentId : Uuid) : Option PatchRun :=
  db.patchRuns.first fun p => p.incidentId = incidentId

/-! ## Claiming -/

/-- `order_by(Job.available_at, Job.created_at, Job.id)`. -/
def Job.before (a b : Job) : Bool :=
  a.availableAt < b.availableAt || (a.availableAt = b.availableAt &&
    (a.createdAt.instant < b.createdAt.instant || (a.createdAt.instant = b.createdAt.instant && a.id ≤ b.id)))

/-- The job `claim_job` selects at time `t`. -/
def nextJob (skip : Uuid → Bool) (t : Time) (db : Store) : Option Job :=
  ((db.jobs.select fun j => j.status = .pending && j.availableAt ≤ t && !skip j.id).insertionSort
    fun a b => a.before b).head?

/-- The row of a job claimed with `token`. -/
def Job.claimed (job : Job) (token : Uuid) (workerId : String) (t : Time) : Job :=
  { job with status := .running, claimToken := some token, lockedBy := some workerId, lockedAt := some t,
             attempt := job.attempt + 1 }

/-- The run the first claim of an ANALYZE job creates. -/
def firstRun (settings : Settings) (env : Env) (incident : Incident) (policy : ServicePolicy) : AnalysisRun :=
  { id := env.uuid 1
    incidentId := incident.id
    baseCommitSha := incident.baseCommitSha
    inputErrorEventId := incident.firstErrorEventId
    policySnapshot := settings.snapshot policy incident.repositoryPathSnapshot
    status := .running
    startedAt := some (env.now 2) }

/-- `claim_job`'s look-up of the run, which the first claim adds with the service's present policy. -/
def ensureRun (settings : Settings) (env : Env) (incident : Incident) (db : Store) : Except Exn Store :=
  match db.analysisRunOf incident.id with
  | some _ => .ok db
  | none =>
    match db.services.get incident.serviceId with
    | none => .error (.runtimeError "Analysis job service is missing")
    | some service => do
      let policy ← ServicePolicy.modelValidate settings.laxInt service.policy
      db.addAnalysisRun (firstRun settings env incident policy)

/-- The ANALYZE branch of `claim_job`. -/
def claimAnalyze (settings : Settings) (env : Env) (incident : Incident) (db : Store) :
    Except Exn (Incident × Store) := do
  let db ← ensureRun settings env incident db
  if incident.state = .received then do
    let incident := incident.moveTo .analyzing
    let db ← db.updateIncident incident
    .ok (incident, db)
  else .ok (incident, db)

/-- The patch run of a claimed PATCH job. -/
def PatchRun.started (patch : PatchRun) (t : Time) : PatchRun :=
  { patch with status := .running, startedAt := patch.startedAt.or (some t) }

/-- The PATCH branch of `claim_job`. -/
def claimPatch (env : Env) (incident : Incident) (db : Store) : Except Exn (Incident × Store) :=
  match db.patchRunOf incident.id with
  | none => .error (.runtimeError "Patch job has no approved patch run")
  | some patch =>
    if incident.state ≠ .patching ∧ incident.state ≠ .validating then
      .error (.runtimeError "Patch job has no approved patch run")
    else do
      let db := db.putPatchRun (patch.started (env.now 2))
      if incident.state = .validating then do
        let incident := incident.moveTo .patching
        let db ← db.updateIncident incident
        .ok (incident, db)
      else .ok (incident, db)

/-- The branches of `claim_job` on the type of the job. -/
def claimBranch (settings : Settings) (env : Env) (type : JobType) (incident : Incident) (db : Store) :
    Except Exn (Incident × Store) :=
  match type with
  | .analyze => claimAnalyze settings env incident db
  | .patch => claimPatch env incident db

/-- `claim_job`. -/
def claimJob (settings : Settings) (env : Env) (skip : Uuid → Bool) (db : Store) :
    Except Exn (Option Claim × Store) :=
  match nextJob skip (env.now 0) db with
  | none => .ok (none, db)
  | some job =>
    match db.incidents.get job.incidentId with
    | none => .error (.runtimeError "Job refers to a missing incident")
    | some incident => do
      let token := env.uuid 0
      let job := job.claimed token settings.workerId (env.now 1)
      let (incident, db) ← claimBranch settings env job.type incident (db.putJob job)
      .ok (some ⟨job.id, token, incident.id, job.type, incident.version, job.attempt⟩, db)

/-! ## Leases -/

/-- The claim is the job's current one. -/
def Job.heldBy (job : Job) (claim : Claim) : Bool :=
  job.id = claim.jobId && job.claimToken = some claim.token && job.status = .running

/-- `Job.locked_at > now() - timedelta(seconds=Limits.lease_seconds)`; a null is not greater. -/
def Job.leaseAt (job : Job) (t : Time) : Bool := job.lockedAt.any fun l => leaseLimit t < l

/-- The row of a job whose lease is renewed. -/
def Job.renewed (job : Job) (t : Time) : Job := { job with lockedAt := some t }

/-- `heartbeat`. -/
def heartbeat (env : Env) (claim : Claim) (db : Store) : Except Exn (Bool × Store) :=
  match db.jobs.first fun j => j.heldBy claim && j.leaseAt (env.now 0) with
  | none => .ok (false, db)
  | some job => .ok (true, db.putJob (job.renewed (env.now 1)))

/-! ## The end of an attempt -/

/-- The job without its claim, with the last error. -/
def Job.released (job : Job) (code : Option String) (detail : Option PyStr) : Job :=
  { job with claimToken := none, lockedBy := none, lockedAt := none, lastErrorCode := code,
             lastErrorDetail := detail }

/-- The row of a job that waits for its next attempt. -/
def Job.requeued (job : Job) (code : Option String) (detail : Option PyStr) (t : Time) : Job :=
  { job.released code detail with status := .pending, availableAt := t + retryDelay job.attempt }

/-- The row of a job that is over. -/
def Job.ended (job : Job) (code : Option String) (detail : Option PyStr) (status : JobStatus) : Job :=
  { job.released code detail with status := status }

/-- The error `recover_expired` records. -/
def expiredCode : Option String := some "AEH-CODEX-502-001"

def expiredDetail : Option PyStr := some (lit "Worker lease expired")

def AnalysisRun.expired (run : AnalysisRun) (t : Time) : AnalysisRun :=
  { run with status := .failed, errorCode := expiredCode, errorDetail := expiredDetail, finishedAt := some t }

def PatchRun.expired (patch : PatchRun) (t : Time) : PatchRun :=
  { patch with status := .patchFailed, errorCode := expiredCode, errorDetail := expiredDetail,
               finishedAt := some t }

/-- The body of the loop of `recover_expired`; `t` is the reading of `now()` in it. -/
def recoverOne (t : Time) (db : Store) (job : Job) : Except Exn Store :=
  match db.incidents.get job.incidentId with
  | none => .error (.runtimeError "Expired job incident is missing")
  | some incident =>
    if job.attempt < job.maxAttempts then .ok (db.putJob (job.requeued expiredCode expiredDetail t))
    else
      let db := db.putJob (job.ended expiredCode expiredDetail .failed)
      match job.type with
      | .analyze =>
        match db.analysisRunOf incident.id with
        | none => .error (.runtimeError "Expired analysis run is missing")
        | some run => (db.putAnalysisRun (run.expired t)).updateIncident (incident.moveTo .analysisFailed)
      | .patch =>
        match db.patchRunOf incident.id with
        | none => .error (.runtimeError "Expired patch run is missing")
        | some patch => (db.putPatchRun (patch.expired t)).updateIncident (incident.moveTo .patchFailed)

/-- A job `recover_expired` may select at time `t`. -/
def Job.isExpiredAt (job : Job) (t : Time) : Bool :=
  job.status = .running && job.lockedAt.any fun l => l ≤ leaseLimit t

/-- The rows of the query of `recover_expired` as the database returns them: at most 100 expired jobs in
the order of `rows`, from which jobs locked elsewhere are missing. -/
def expiredJobs (rows : List Uuid) (t : Time) (db : Store) : List Job :=
  ((rows.dedup.filterMap db.jobs.get).filter fun j => j.isExpiredAt t).take 100

/-- The loop over the selected jobs; `k` is the next reading of `now()`. -/
def recoverAll (env : Env) : ℕ → List Job → Store → Except Exn Store
  | _, [], db => .ok db
  | k, job :: jobs, db => do
    let db ← recoverOne (env.now k) db job
    recoverAll env (k + 1) jobs db

/-- `recover_expired`. -/
def recoverExpired (env : Env) (rows : List Uuid) (db : Store) : Except Exn (ℕ × Store) := do
  let jobs := expiredJobs rows (env.now 0) db
  let db ← recoverAll env 1 jobs db
  .ok (jobs.length, db)

/-! ## Outcomes -/

/-- The patch run whose changes are being validated. -/
def PatchRun.validating (patch : PatchRun) : PatchRun := { patch with status := .validating }

/-- `mark_validating`. -/
def markValidating (claim : Claim) (db : Store) : Except Exn (ℕ × Store) :=
  match db.jobs.get claim.jobId, db.incidents.get claim.incidentId with
  | some job, some incident =>
    if job.claimToken ≠ some claim.token ∨ job.status ≠ .running ∨ incident.version ≠ claim.version then
      .error (aehError 409 "AEH-POLICY-422-001" "Patch claim is no longer current")
    else do
      let incident := incident.moveTo .validating
      let db ← db.updateIncident incident
      match db.patchRunOf incident.id with
      | none => .error (aehError 409 "AEH-POLICY-422-001" "Patch run is missing")
      | some patch => .ok (incident.version, db.putPatchRun patch.validating)
  | _, _ => .error (aehError 409 "AEH-POLICY-422-001" "Patch claim is missing")

def AnalysisRun.finished (run : AnalysisRun) (outcome : Outcome) (t : Time) : AnalysisRun :=
  { run with status := if outcome.failed then .failed else .succeeded
             result := outcome.result
             codexThreadId := outcome.threadId
             errorCode := outcome.errorCode
             errorDetail := outcome.errorDetail
             finishedAt := some t }

def PatchRun.finished (patch : PatchRun) (outcome : Outcome) (t : Time) : PatchRun :=
  { patch with status := if outcome.failed then .patchFailed else .patchReady
               changedFiles := outcome.changedFiles
               diffText := outcome.diff
               validationResult := outcome.validation
               errorCode := outcome.errorCode
               errorDetail := outcome.errorDetail
               finishedAt := some t }

/-- What the terminal branch of `finalize` writes next to the job; `t` is its reading of `now()`. -/
def finish (t : Time) (type : JobType) (incident : Incident) (outcome : Outcome) (db : Store) :
    Except Exn Store :=
  match type with
  | .analyze =>
    match db.analysisRunOf incident.id with
    | none => .error (.runtimeError "Analysis run is missing during finalization")
    | some run =>
      (db.putAnalysisRun (run.finished outcome t)).updateIncident
        (incident.moveTo (if outcome.failed then .analysisFailed else .awaitingApproval))
  | .patch =>
    match db.patchRunOf incident.id with
    | none => .error (.runtimeError "Patch run is missing during finalization")
    | some patch =>
      (db.putPatchRun (patch.finished outcome t)).updateIncident
        (incident.moveTo (if outcome.failed then .patchFailed else .patchReady))

/-- Whether the backend holds the error of an outcome. -/
def Backend.holdsError (backend : Backend) (outcome : Outcome) : Bool :=
  outcome.errorCode.all (fun code => backend.holdsText (lit code)) && outcome.errorDetail.all backend.holdsText

/-- Whether it holds all that an outcome ends a job of the type with. -/
def Backend.holdsOutcome (backend : Backend) (type : JobType) (outcome : Outcome) : Bool :=
  backend.holdsError outcome &&
    match type with
    | .analyze => outcome.result.all backend.holds && outcome.threadId.all backend.holdsText
    | .patch =>
      outcome.changedFiles.all backend.holdsText && outcome.diff.all backend.holdsText &&
        backend.holdsItems outcome.validation

/-- What the database answers when values are written that it holds, or does not. -/
def writes (held : Bool) : Except Exn Unit := if held then .ok () else .error .statementError

theorem writes_ok {held : Bool} {u : Unit} : writes held = .ok u ↔ held = true := by
  cases held <;> simp [writes]

/-- `finalize`. -/
def finalize (env : Env) (claim : Claim) (outcome : Outcome) (version : Option ℕ) (db : Store) :
    Except Exn (Bool × Store) :=
  match db.jobs.get claim.jobId with
  | none => .ok (false, db)
  | some job =>
    if job.status ≠ .running ∨ job.claimToken ≠ some claim.token ∨ ¬ job.leaseAt (env.now 0) then .ok (false, db)
    else
      match db.incidents.get claim.incidentId with
      | none => .ok (false, db)
      | some incident =>
        if incident.version ≠ version.getD claim.version then .ok (false, db)
        else if outcome.failed && outcome.transient && job.attempt < job.maxAttempts then do
          writes (env.backend.holdsError outcome)
          .ok (true, db.putJob (job.requeued outcome.errorCode outcome.errorDetail (env.now 1)))
        else do
          let job := job.ended outcome.errorCode outcome.errorDetail outcome.jobStatus
          let db ← finish (env.now 1) claim.type incident outcome (db.putJob job)
          writes (env.backend.holdsOutcome claim.type outcome)
          .ok (true, db)

/-! ## What each transaction can do -/

section Cases

variable {db db₁ db' : Store} {settings : Settings} {env : Env} {incident incident' : Incident} {job : Job}
  {claim : Claim} {outcome : Outcome}

theorem nextJob_some {skip : Uuid → Bool} {t : Time} (h : nextJob skip t db = some job) :
    job ∈ db.jobs.rows ∧ job.status = .pending ∧ job.availableAt ≤ t := by
  have hm := (List.perm_insertionSort _ _).subset (List.mem_of_mem_head? h)
  obtain ⟨hr, hp⟩ := Table.mem_select.mp hm
  simp only [Bool.and_eq_true, decide_eq_true_eq] at hp
  exact ⟨hr, hp.1.1, hp.1.2⟩

theorem analysisRunOf_some {i : Uuid} {run : AnalysisRun} (h : db.analysisRunOf i = some run) :
    run ∈ db.analysisRuns.rows ∧ run.incidentId = i := by
  obtain ⟨hr, hp⟩ := Table.mem_of_first h
  exact ⟨hr, by simpa using hp⟩

theorem patchRunOf_some {i : Uuid} {patch : PatchRun} (h : db.patchRunOf i = some patch) :
    patch ∈ db.patchRuns.rows ∧ patch.incidentId = i := by
  obtain ⟨hr, hp⟩ := Table.mem_of_first h
  exact ⟨hr, by simpa using hp⟩

/-- The run is there already, or the first claim inserts it. -/
theorem ensureRun_ok (h : ensureRun settings env incident db = .ok db') :
    (db' = db ∧ ∃ run, db.analysisRunOf incident.id = some run) ∨
    (db.analysisRunOf incident.id = none ∧ ∃ policy, db.addAnalysisRun (firstRun settings env incident policy) = .ok db') := by
  unfold ensureRun at h
  split at h
  · rename_i run hr
    cases h
    exact Or.inl ⟨rfl, run, hr⟩
  · rename_i hr
    split at h
    · cases h
    · obtain ⟨policy, -, h⟩ := bind_eq_ok.mp h
      exact Or.inr ⟨hr, policy, h⟩

theorem claimAnalyze_ok (h : claimAnalyze settings env incident db = .ok (incident', db')) :
    ∃ db₁, ensureRun settings env incident db = .ok db₁ ∧
      ((incident.state = .received ∧ incident' = incident.moveTo .analyzing ∧
          db₁.updateIncident incident' = .ok db') ∨
        (incident.state ≠ .received ∧ incident' = incident ∧ db' = db₁)) := by
  obtain ⟨db₁, h₁, h⟩ := bind_eq_ok.mp h
  refine ⟨db₁, h₁, ?_⟩
  split_ifs at h with hs
  · obtain ⟨db₂, h₂, h⟩ := bind_eq_ok.mp h
    cases h
    exact Or.inl ⟨hs, rfl, h₂⟩
  · cases h
    exact Or.inr ⟨hs, rfl, rfl⟩

theorem claimPatch_ok (h : claimPatch env incident db = .ok (incident', db')) :
    ∃ patch, db.patchRunOf incident.id = some patch ∧
      ((incident.state = .validating ∧ incident' = incident.moveTo .patching ∧
          (db.putPatchRun (patch.started (env.now 2))).updateIncident incident' = .ok db') ∨
        (incident.state = .patching ∧ incident' = incident ∧
          db' = db.putPatchRun (patch.started (env.now 2)))) := by
  unfold claimPatch at h
  split at h
  · cases h
  · rename_i patch hp
    refine ⟨patch, hp, ?_⟩
    split_ifs at h with h1 h2
    · obtain ⟨db₂, h₂, h⟩ := bind_eq_ok.mp h
      cases h
      exact Or.inl ⟨h2, rfl, h₂⟩
    · cases h
      exact Or.inr ⟨by tauto, rfl, rfl⟩

/-- A claim takes a waiting job that is due and runs the branch of its type. -/
theorem claimJob_ok {skip : Uuid → Bool} {r : Option Claim} (h : claimJob settings env skip db = .ok (r, db')) :
    (r = none ∧ db' = db) ∨
    ∃ job incident incident', job ∈ db.jobs.rows ∧ job.status = .pending ∧ job.availableAt ≤ env.now 0 ∧
      db.incidents.get job.incidentId = some incident ∧
      claimBranch settings env job.type incident
        (db.putJob (job.claimed (env.uuid 0) settings.workerId (env.now 1))) = .ok (incident', db') ∧
      r = some ⟨job.id, env.uuid 0, incident'.id, job.type, incident'.version, job.attempt + 1⟩ := by
  unfold claimJob at h
  split at h
  · cases h
    exact Or.inl ⟨rfl, rfl⟩
  · rename_i job hj
    split at h
    · cases h
    · rename_i incident hi
      obtain ⟨⟨incident', db₁⟩, h₁, h⟩ := bind_eq_ok.mp h
      cases h
      obtain ⟨hm, hs, ha⟩ := nextJob_some hj
      exact Or.inr ⟨job, incident, incident', hm, hs, ha, hi, h₁, rfl⟩

theorem heldBy_iff : job.heldBy claim = true ↔
    job.id = claim.jobId ∧ job.claimToken = some claim.token ∧ job.status = .running := by
  simp [Job.heldBy, and_assoc]

theorem heartbeat_ok {r : Bool} (h : heartbeat env claim db = .ok (r, db')) :
    (r = false ∧ db' = db) ∨
    ∃ job ∈ db.jobs.rows, job.heldBy claim = true ∧ job.leaseAt (env.now 0) = true ∧ r = true ∧
      db' = db.putJob (job.renewed (env.now 1)) := by
  unfold heartbeat at h
  split at h
  · cases h
    exact Or.inl ⟨rfl, rfl⟩
  · rename_i job hj
    cases h
    obtain ⟨hm, hp⟩ := Table.mem_of_first hj
    simp only [Bool.and_eq_true] at hp
    exact Or.inr ⟨job, hm, hp.1, hp.2, rfl, rfl⟩

/-- An expired job waits for its next attempt or, after its last, ends with its run and incident. -/
theorem recoverOne_ok {t : Time} (h : recoverOne t db job = .ok db') :
    ∃ incident, db.incidents.get job.incidentId = some incident ∧
      ((job.attempt < job.maxAttempts ∧ db' = db.putJob (job.requeued expiredCode expiredDetail t)) ∨
        (¬ job.attempt < job.maxAttempts ∧ job.type = .analyze ∧ ∃ run, db.analysisRunOf incident.id = some run ∧
          ((db.putJob (job.ended expiredCode expiredDetail .failed)).putAnalysisRun
            (run.expired t)).updateIncident (incident.moveTo .analysisFailed) = .ok db') ∨
        (¬ job.attempt < job.maxAttempts ∧ job.type = .patch ∧ ∃ patch, db.patchRunOf incident.id = some patch ∧
          ((db.putJob (job.ended expiredCode expiredDetail .failed)).putPatchRun
            (patch.expired t)).updateIncident (incident.moveTo .patchFailed) = .ok db')) := by
  unfold recoverOne at h
  split at h
  · cases h
  · rename_i incident hi
    refine ⟨incident, hi, ?_⟩
    split_ifs at h with ha
    · cases h
      exact Or.inl ⟨ha, rfl⟩
    · cases ht : job.type <;> simp only [ht] at h <;> split at h <;> try cases h
      · rename_i run hr
        exact Or.inr (Or.inl ⟨ha, rfl, run, hr, h⟩)
      · rename_i patch hp
        exact Or.inr (Or.inr ⟨ha, rfl, patch, hp, h⟩)

theorem mem_expiredJobs {rows : List Uuid} {t : Time} (h : job ∈ expiredJobs rows t db) :
    job ∈ db.jobs.rows ∧ job.isExpiredAt t = true := by
  obtain ⟨hm, he⟩ := List.mem_filter.mp (List.mem_of_mem_take h)
  obtain ⟨i, -, hi⟩ := List.mem_filterMap.mp hm
  exact ⟨(Table.get_eq_some.mp hi).1, he⟩

/-- No job is selected twice. -/
theorem expiredJobs_nodup (rows : List Uuid) (t : Time) (db : Store) :
    (expiredJobs rows t db).Pairwise fun a b => a.id ≠ b.id := by
  refine List.Pairwise.sublist (List.take_sublist _ _) (List.Pairwise.filter _ ?_)
  refine List.Pairwise.filterMap db.jobs.get ?_ rows.nodup_dedup
  rintro i i' hne a ha b hb
  rw [← (Table.get_eq_some.mp ha).2, ← (Table.get_eq_some.mp hb).2] at hne
  exact hne

/-- `mark_validating` succeeds only for a current claim that knows the incident's version. -/
theorem markValidating_ok {v : ℕ} (h : markValidating claim db = .ok (v, db')) :
    ∃ job incident patch db₁, db.jobs.get claim.jobId = some job ∧ job.heldBy claim = true ∧
      db.incidents.get claim.incidentId = some incident ∧ incident.version = claim.version ∧
      db.updateIncident (incident.moveTo .validating) = .ok db₁ ∧
      db₁.patchRunOf incident.id = some patch ∧ v = incident.version + 1 ∧
      db' = db₁.putPatchRun patch.validating := by
  unfold markValidating at h
  split at h
  · rename_i job incident hj hi
    split_ifs at h with hc
    obtain ⟨db₁, h₁, h⟩ := bind_eq_ok.mp h
    split at h
    · cases h
    · rename_i patch hp
      cases h
      simp only [not_or, not_not] at hc
      exact ⟨job, incident, patch, db₁, hj, heldBy_iff.mpr ⟨(Table.get_eq_some.mp hj).2, hc.1, hc.2.1⟩, hi, hc.2.2,
        h₁, hp, rfl, rfl⟩
  · cases h

theorem finish_ok {t : Time} {type : JobType} (h : finish t type incident outcome db = .ok db') :
    (type = .analyze ∧ ∃ run, db.analysisRunOf incident.id = some run ∧
      (db.putAnalysisRun (run.finished outcome t)).updateIncident
        (incident.moveTo (if outcome.failed then .analysisFailed else .awaitingApproval)) = .ok db') ∨
    (type = .patch ∧ ∃ patch, db.patchRunOf incident.id = some patch ∧
      (db.putPatchRun (patch.finished outcome t)).updateIncident
        (incident.moveTo (if outcome.failed then .patchFailed else .patchReady)) = .ok db') := by
  unfold finish at h
  cases type <;> simp only at h <;> split at h <;> try cases h
  · rename_i run hr
    exact Or.inl ⟨rfl, run, hr, h⟩
  · rename_i patch hp
    exact Or.inr ⟨rfl, patch, hp, h⟩

/-- `finalize` acts only for a current claim with an unexpired lease that knows the incident's version. -/
theorem finalize_ok {version : Option ℕ} {r : Bool} (h : finalize env claim outcome version db = .ok (r, db')) :
    (r = false ∧ db' = db) ∨
    ∃ job incident, db.jobs.get claim.jobId = some job ∧ job.heldBy claim = true ∧
      job.leaseAt (env.now 0) = true ∧ db.incidents.get claim.incidentId = some incident ∧
      incident.version = version.getD claim.version ∧ r = true ∧
      ((outcome.failed = true ∧ job.attempt < job.maxAttempts ∧
          db' = db.putJob (job.requeued outcome.errorCode outcome.errorDetail (env.now 1))) ∨
        finish (env.now 1) claim.type incident outcome
          (db.putJob (job.ended outcome.errorCode outcome.errorDetail outcome.jobStatus)) = .ok db') := by
  unfold finalize at h
  split at h
  · cases h
    exact Or.inl ⟨rfl, rfl⟩
  · rename_i job hj
    split at h
    · cases h
      exact Or.inl ⟨rfl, rfl⟩
    · rename_i hc
      simp only [not_or, not_not] at hc
      have hheld := heldBy_iff.mpr ⟨(Table.get_eq_some.mp hj).2, hc.2.1, hc.1⟩
      split at h
      · cases h
        exact Or.inl ⟨rfl, rfl⟩
      · rename_i incident hi
        split_ifs at h with hv hr
        · cases h
          exact Or.inl ⟨rfl, rfl⟩
        · obtain ⟨-, -, h⟩ := bind_eq_ok.mp h
          cases h
          simp only [Bool.and_eq_true, decide_eq_true_eq] at hr
          exact Or.inr ⟨job, incident, hj, hheld, hc.2.2, hi, not_not.mp hv, rfl, Or.inl ⟨hr.1.1, hr.2, rfl⟩⟩
        · obtain ⟨db₁, h₁, h⟩ := bind_eq_ok.mp h
          obtain ⟨-, -, h⟩ := bind_eq_ok.mp h
          cases h
          exact Or.inr ⟨job, incident, hj, hheld, hc.2.2, hi, not_not.mp hv, rfl, Or.inr h₁⟩

/-! ### The tables a claim and a recovery write -/

theorem claimBranch_frame {type : JobType} (h : claimBranch settings env type incident db = .ok (incident', db')) :
    ∃ is rs ps, db' = { db with incidents := is, analysisRuns := rs, patchRuns := ps } := by
  cases type with
  | analyze =>
    obtain ⟨db₁, h₁, h⟩ := claimAnalyze_ok h
    obtain ⟨rs, rfl⟩ : ∃ rs, db₁ = { db with analysisRuns := rs } := by
      rcases ensureRun_ok h₁ with ⟨rfl, -⟩ | ⟨-, policy, ha⟩
      · exact ⟨_, rfl⟩
      · obtain ⟨t, -, rfl⟩ := Store.addAnalysisRun_ok ha
        exact ⟨t, rfl⟩
    rcases h with ⟨-, -, h⟩ | ⟨-, -, rfl⟩
    · obtain rfl := Store.updateIncident_ok h
      exact ⟨_, rs, _, rfl⟩
    · exact ⟨_, rs, _, rfl⟩
  | patch =>
    obtain ⟨patch, -, ⟨-, -, h⟩ | ⟨-, -, rfl⟩⟩ := claimPatch_ok h
    · obtain rfl := Store.updateIncident_ok h
      exact ⟨_, _, _, rfl⟩
    · exact ⟨_, _, _, rfl⟩

theorem recoverOne_frame {t : Time} (h : recoverOne t db job = .ok db') :
    ∃ is rs ps js, db' = { db with incidents := is, analysisRuns := rs, patchRuns := ps, jobs := js } := by
  obtain ⟨inc, -, ⟨-, rfl⟩ | ⟨-, -, run, -, h⟩ | ⟨-, -, patch, -, h⟩⟩ := recoverOne_ok h
  · exact ⟨_, _, _, _, rfl⟩
  · obtain rfl := Store.updateIncident_ok h
    exact ⟨_, _, _, _, rfl⟩
  · obtain rfl := Store.updateIncident_ok h
    exact ⟨_, _, _, _, rfl⟩

theorem recoverAll_frame {k : ℕ} {jobs : List Job} (h : recoverAll env k jobs db = .ok db') :
    ∃ is rs ps js, db' = { db with incidents := is, analysisRuns := rs, patchRuns := ps, jobs := js } := by
  induction jobs generalizing k db with
  | nil =>
    obtain rfl := Except.ok.inj h
    exact ⟨_, _, _, _, rfl⟩
  | cons job jobs ih =>
    obtain ⟨db₁, h₁, h⟩ := bind_eq_ok.mp h
    obtain ⟨is, rs, ps, js, rfl⟩ := recoverOne_frame h₁
    obtain ⟨is, rs, ps, js, rfl⟩ := ih h
    exact ⟨is, rs, ps, js, rfl⟩

end Cases

end Aeh
