import Aeh.Repository

/-!
# Service — `aeh/service.py`: intake, approval and service configuration

Responses hold the ids themselves, not their text.  `ingest` and `approve` run several transactions; each
is a function of its own here, and what happens between them is the subject of the modules on calls.
-/

namespace Aeh

/-! ## `sync_services` -/

/-- The row of a newly configured service. -/
def newService (id : Uuid) (key : PyStr) (policy : ServicePolicy) : Service :=
  { id := id
    key := key
    repositoryPath := policy.repositoryPath
    defaultBranch := policy.defaultBranch
    policy := policy.modelDump
    active := true }

/-- The row of a service with a new configuration. -/
def Service.configured (row : Service) (policy : ServicePolicy) : Service :=
  { row with repositoryPath := policy.repositoryPath
             defaultBranch := policy.defaultBranch
             policy := policy.modelDump
             active := true }

/-- The body of the loop of `sync_services`; `id` is the key of a new row. -/
def syncService (settings : Settings) (fs : FileSystem) (id : Uuid) (key : PyStr) (policy : ServicePolicy)
    (db : Store) : Except Exn Store := do
  let path := policy.repositoryPath
  let _ ← settings.repositoryPath fs policy
  match IncidentRepository.serviceByKey db key with
  | none => db.addService (newService id key policy)
  | some row => do
    let stored ← settings.resolveRepositoryReference fs row.repositoryPath
    let configured ← settings.resolveRepositoryReference fs path
    if stored ≠ configured ∧ IncidentRepository.hasOpenIncident db row.id then
      .error (.valueError (lit "Service " ++ key ++ lit " has active incidents; repository path cannot change"))
    else .ok (db.putService (row.configured policy))

/-- The loop over the configured services, which counts from `k` on. -/
def syncAll (settings : Settings) (fs : FileSystem) (env : Env) :
    ℕ → List (PyStr × ServicePolicy) → Store → Except Exn Store
  | _, [], db => .ok db
  | k, (key, policy) :: rest, db => do
    let db ← syncService settings fs (env.uuid k) key policy db
    syncAll settings fs env (k + 1) rest db

/-- `sync_services` of the policies `load_services` returns. -/
def syncServices (settings : Settings) (fs : FileSystem) (env : Env) (policies : List (PyStr × ServicePolicy))
    (db : Store) : Except Exn (Unit × Store) := do
  let db ← syncAll settings fs env 0 policies db
  .ok ((), db)

/-! ## `ingest` -/

/-- The response to an event. -/
structure Receipt where
  eventId : Uuid
  incidentId : Uuid
  status : IncidentState
  duplicate : Bool
deriving DecidableEq

/-- What `parse_event` hands to `ingest`. -/
structure EventRequest where
  event : Json
  checksum : String
  normalized : Json

/-- `_duplicate`. -/
def duplicate (db : Store) (serviceId eventId : Uuid) (checksum : String) : Except Exn (Option Receipt) :=
  match IncidentRepository.eventByIdentity db serviceId eventId with
  | none => .ok none
  | some row =>
    if row.payloadChecksum ≠ checksum then
      .error (aehError 409 "AEH-EVENT-409-001" "eventId was already used with another payload")
    else
      match IncidentRepository.incidentForEvent db row.id with
      | none => .error (aehError 500 "AEH-INTERNAL-500-001" "Event has no incident")
      | some incident => .ok (some ⟨eventId, incident.id, incident.state, true⟩)

/-- `_require_job_capacity`. -/
def requireJobCapacity (limit : ℕ) (db : Store) : Except Exn Unit :=
  if limit ≤ IncidentRepository.activeJobCount db then
    .error (aehError 503 "AEH-JOB-503-001" "Pending job limit reached")
  else .ok ()

/-- `uuid.UUID(event["eventId"])`. -/
def eventIdOf (event : Json) : Except Exn Uuid := do
  let text ← event.getStr "eventId"
  match Uuid.parse text with
  | some eventId => .ok eventId
  | none => .error (.valueError (lit "badly formed hexadecimal UUID string"))

/-- `event.get("release", {}).get("commitSha")`. -/
def commitShaOf (event : Json) : Except Exn (Option PyStr) :=
  match event.get? "release" with
  | none => .ok none
  | some (.obj fields) =>
    match (Json.obj fields).get? "commitSha" with
    | some (.str sha) => .ok (some sha)
    | some .null | none => .ok none
    | some _ => .error .attributeError
  | some _ => .error .attributeError

/-- `datetime.fromisoformat(event["occurredAt"])` as the column stores it. -/
def occurredAtOf (event : Json) : Except Exn Datetime := do
  let text ← event.getStr "occurredAt"
  match Datetime.fromisoformat text with
  | none => .error (.valueError (lit "Invalid isoformat string"))
  | some d =>
    match d.toUtc with
    | none => .error .statementError
    | some utc => .ok utc

/-- What the first part of `ingest` leaves for the rest: the service as it was read. -/
structure Intake where
  serviceId : Uuid
  repoPath : PyStr
  branch : PyStr
  eventId : Uuid
deriving DecidableEq

/-- `ingest` up to the end of its read session: the response to a replay, or the service to resolve the
commit in. -/
def ingestLookup (request : EventRequest) (db : Store) : Except Exn (Receipt ⊕ Intake) := do
  let eventId ← eventIdOf request.event
  let key ← request.event.getStr "serviceKey"
  match IncidentRepository.serviceByKey db key true with
  | none => .error (aehError 404 "AEH-EVENT-404-001" "Unknown serviceKey")
  | some service => do
    match ← duplicate db service.id eventId request.checksum with
    | some receipt => .ok (.inl receipt)
    | none => .ok (.inr ⟨service.id, service.repositoryPath, service.defaultBranch, eventId⟩)

/-- `ingest`'s call of `resolve_commit`, which is the parameter `resolveCommit`. -/
def ingestResolve (settings : Settings) (fs : FileSystem)
    (resolveCommit : AbsPath → Option PyStr → PyStr → Except Exn PyStr) (request : EventRequest)
    (intake : Intake) : Except Exn PyStr := do
  let path ← settings.resolveRepositoryReference fs intake.repoPath
  let sha ← commitShaOf request.event
  resolveCommit path sha intake.branch

def newErrorEvent (env : Env) (request : EventRequest) (serviceId eventId : Uuid) : ErrorEvent :=
  { id := env.uuid 0
    serviceId := serviceId
    eventId := eventId
    payloadChecksum := request.checksum
    normalizedPayload := request.normalized }

def newIncident (env : Env) (intake : Intake) (fingerprint sha : PyStr) (eventRow : ErrorEvent) : Incident :=
  { id := env.uuid 1
    serviceId := eventRow.serviceId
    fingerprint := fingerprint
    repositoryPathSnapshot := intake.repoPath
    baseCommitSha := sha
    firstErrorEventId := eventRow.id
    createdAt := env.dbNow }

/-- The job `f"ANALYZE:{incident.id}"`. -/
def newAnalyzeJob (env : Env) (incidentId : Uuid) : Job :=
  { id := env.uuid 2
    type := .analyze
    deduplicationKey := .analyze incidentId
    payload := { incidentId := incidentId }
    maxAttempts := Limits.maxAttempts
    availableAt := env.now 0
    createdAt := env.dbNow }

def newOccurrence (env : Env) (incidentId eventRowId : Uuid) (occurredAt : Datetime) : Occurrence :=
  { id := env.uuid 3
    incidentId := incidentId
    errorEventId := eventRowId
    occurredAt := occurredAt }

/-- `incident.occurrence_count += 1`. -/
def Incident.counted (incident : Incident) : Incident :=
  { incident with occurrenceCount := incident.occurrenceCount + 1 }

/-- The incident an event joins, or a new one with its ANALYZE job. -/
def joinIncident (env : Env) (intake : Intake) (fingerprint sha : PyStr) (eventRow : ErrorEvent) (db : Store) :
    Option Incident → Except Exn (Incident × Store)
  | some incident => do
    let db ← db.updateIncident incident.counted
    .ok (incident.counted, db)
  | none => do
    let incident := newIncident env intake fingerprint sha eventRow
    let db ← db.addIncident incident
    let db ← db.addJob (newAnalyzeJob env incident.id)
    .ok (incident, db)

/-- `_ingest_resolved`. -/
def ingestResolved (env : Env) (request : EventRequest) (intake : Intake) (sha : PyStr) (db : Store) :
    Except Exn (Receipt × Store) :=
  match IncidentRepository.serviceById db intake.serviceId with
  | none => .error (aehError 404 "AEH-EVENT-404-001" "Unknown serviceKey")
  | some service =>
    if service.active = false then .error (aehError 404 "AEH-EVENT-404-001" "Unknown serviceKey")
    else do
      match ← duplicate db service.id intake.eventId request.checksum with
      | some receipt => .ok (receipt, db)
      | none =>
        -- a changed path requires a new look at Git
        if service.repositoryPath ≠ intake.repoPath then
          .error (aehError 503 "AEH-GIT-503-001" "Repository changed during event receipt; retry")
        else do
          let fingerprint ← request.normalized.getStr "fingerprint"
          -- the query for the incident binds the fingerprint
          let _ ← (if env.backend.holdsText fingerprint then .ok () else .error Exn.statementError)
          let openIncident := IncidentRepository.openIncident db service.id fingerprint sha
          let _ ← (if openIncident.isNone then requireJobCapacity env.jobLimit db else .ok ())
          let row := newErrorEvent env request service.id intake.eventId
          let _ ← (if env.backend.holds request.normalized then .ok () else .error Exn.statementError)
          let db ← db.addErrorEvent row
          let (incident, db) ← joinIncident env intake fingerprint sha row db openIncident
          let occurredAt ← occurredAtOf request.event
          let db ← db.addOccurrence (newOccurrence env incident.id row.id occurredAt)
          .ok (⟨intake.eventId, incident.id, incident.state, false⟩, db)

/-! ## `approve` -/

/-- The response to an approval. -/
structure ApprovalReceipt where
  incidentId : Uuid
  approvalId : Uuid
  patchRunId : Uuid
  duplicate : Bool
deriving DecidableEq

def newApproval (env : Env) (incident : Incident) (run : AnalysisRun) (key : Uuid) : Approval :=
  { id := env.uuid 0
    incidentId := incident.id
    analysisRunId := run.id
    idempotencyKey := key
    baseCommitSha := incident.baseCommitSha }

def newPatchRun (env : Env) (approval : Approval) : PatchRun :=
  { id := env.uuid 1
    incidentId := approval.incidentId
    approvalId := approval.id
    baseCommitSha := approval.baseCommitSha }

/-- The job `f"PATCH:{approval.id}"`. -/
def newPatchJob (env : Env) (patch : PatchRun) : Job :=
  { id := env.uuid 2
    type := .patch
    deduplicationKey := .patch patch.approvalId
    payload := { incidentId := patch.incidentId, patchRunId := some patch.id }
    maxAttempts := Limits.maxAttempts
    availableAt := env.now 0
    createdAt := env.dbNow }

/-- The rows of a new approval: the approval, its patch run and its PATCH job. -/
def addApproved (env : Env) (incident : Incident) (run : AnalysisRun) (key : Uuid) (db : Store) :
    Except Exn Store := do
  let approval := newApproval env incident run key
  let db ← db.addApproval approval
  let patch := newPatchRun env approval
  let db ← db.addPatchRun patch
  let db ← db.addJob (newPatchJob env patch)
  db.updateIncident (incident.moveTo .patching)

/-- `_approve_once`. -/
def approveOnce (env : Env) (incidentId key : Uuid) (db : Store) : Except Exn (ApprovalReceipt × Store) :=
  match db.incidents.get incidentId with
  | none => .error (aehError 404 "AEH-EVENT-404-001" "Incident not found")
  | some incident =>
    match IncidentRepository.approvalByKey db key with
    | some existing =>
      if existing.incidentId ≠ incidentId then
        .error (aehError 409 "AEH-APPROVAL-409-001" "Idempotency-Key belongs to another incident")
      else
        match IncidentRepository.patchByApproval db existing.id with
        | none => .error (aehError 500 "AEH-INTERNAL-500-001" "Approval has no patch run")
        | some patch => .ok (⟨incident.id, existing.id, patch.id, true⟩, db)
    | none =>
      if incident.state ≠ .awaitingApproval then
        .error (aehError 409 "AEH-APPROVAL-409-001" "Incident is not awaiting approval")
      else
        match IncidentRepository.successfulAnalysis db incident.id with
        | [run] =>
          if run.policySnapshot.truthy = false ∨ run.baseCommitSha ≠ incident.baseCommitSha then
            .error (aehError 409 "AEH-APPROVAL-409-002" "Successful analysis and SHA do not match")
          else if (IncidentRepository.approvalForIncident db incident.id).isSome then
            .error (aehError 409 "AEH-APPROVAL-409-001" "Incident is already approved")
          else do
            requireJobCapacity env.jobLimit db
            let db ← addApproved env incident run key db
            .ok (⟨incident.id, env.uuid 0, env.uuid 1, false⟩, db)
        | _ => .error (aehError 409 "AEH-APPROVAL-409-002" "Successful analysis and SHA do not match")

/-- `approve` between its two tries: whether the key belongs to another incident by now. -/
def approveConflict (incidentId key : Uuid) (db : Store) : Except Exn Unit :=
  match IncidentRepository.approvalByKey db key with
  | some existing =>
    if existing.incidentId ≠ incidentId then
      .error (aehError 409 "AEH-APPROVAL-409-001" "Idempotency-Key belongs to another incident")
    else .ok ()
  | none => .ok ()

/-! ## What each transaction can do -/

section Cases

variable {db db' : Store} {env : Env} {request : EventRequest} {intake : Intake} {sha : PyStr}

theorem syncService_ok {settings : Settings} {fs : FileSystem} {id : Uuid} {key : PyStr} {policy : ServicePolicy}
    (h : syncService settings fs id key policy db = .ok db') :
    (IncidentRepository.serviceByKey db key = none ∧ db.addService (newService id key policy) = .ok db') ∨
    ∃ row stored configured, IncidentRepository.serviceByKey db key = some row ∧
      settings.resolveRepositoryReference fs row.repositoryPath = .ok stored ∧
      settings.resolveRepositoryReference fs policy.repositoryPath = .ok configured ∧
      ¬ (stored ≠ configured ∧ IncidentRepository.hasOpenIncident db row.id = true) ∧
      db' = db.putService (row.configured policy) := by
  obtain ⟨-, -, h⟩ := bind_eq_ok.mp h
  split at h
  · rename_i hr
    exact Or.inl ⟨hr, h⟩
  · rename_i row hr
    obtain ⟨stored, hs, h⟩ := bind_eq_ok.mp h
    obtain ⟨configured, hc, h⟩ := bind_eq_ok.mp h
    split_ifs at h with hm
    cases h
    exact Or.inr ⟨row, stored, configured, hr, hs, hc, hm, rfl⟩

theorem duplicate_none {serviceId eventId : Uuid} {checksum : String} :
    duplicate db serviceId eventId checksum = .ok none ↔
      IncidentRepository.eventByIdentity db serviceId eventId = none := by
  unfold duplicate
  cases IncidentRepository.eventByIdentity db serviceId eventId with
  | none => simp
  | some row =>
    by_cases hc : row.payloadChecksum = checksum
    · cases hi : IncidentRepository.incidentForEvent db row.id <;> simp [hc, hi]
    · simp [hc]

theorem duplicate_some {serviceId eventId : Uuid} {checksum : String} {receipt : Receipt}
    (h : duplicate db serviceId eventId checksum = .ok (some receipt)) :
    ∃ row incident, IncidentRepository.eventByIdentity db serviceId eventId = some row ∧
      row.payloadChecksum = checksum ∧ IncidentRepository.incidentForEvent db row.id = some incident ∧
      receipt = ⟨eventId, incident.id, incident.state, true⟩ := by
  unfold duplicate at h
  split at h
  · cases h
  · rename_i row hr
    split_ifs at h with hc
    split at h
    · cases h
    · rename_i incident hi
      cases h
      exact ⟨row, incident, hr, not_not.mp hc, hi, rfl⟩

theorem joinIncident_ok {fingerprint : PyStr} {eventRow : ErrorEvent} {o : Option Incident} {incident : Incident}
    (h : joinIncident env intake fingerprint sha eventRow db o = .ok (incident, db')) :
    (∃ joined, o = some joined ∧ incident = joined.counted ∧ db.updateIncident joined.counted = .ok db') ∨
    (o = none ∧ incident = newIncident env intake fingerprint sha eventRow ∧ ∃ db₁,
      db.addIncident incident = .ok db₁ ∧ db₁.addJob (newAnalyzeJob env incident.id) = .ok db') := by
  unfold joinIncident at h
  split at h
  · obtain ⟨db₁, h₁, h⟩ := bind_eq_ok.mp h
    cases h
    exact Or.inl ⟨_, rfl, rfl, h₁⟩
  · obtain ⟨db₁, h₁, h⟩ := bind_eq_ok.mp h
    obtain ⟨db₂, h₂, h⟩ := bind_eq_ok.mp h
    cases h
    exact Or.inr ⟨rfl, rfl, db₁, h₁, h₂⟩

/-- A receipt is a replay that changes nothing, or the event is stored with an occurrence at an open
incident or a new one. -/
theorem ingestResolved_ok {r : Receipt} (h : ingestResolved env request intake sha db = .ok (r, db')) :
    ∃ service, IncidentRepository.serviceById db intake.serviceId = some service ∧ service.active = true ∧
      ((duplicate db service.id intake.eventId request.checksum = .ok (some r) ∧ db' = db) ∨
      (duplicate db service.id intake.eventId request.checksum = .ok none ∧
        service.repositoryPath = intake.repoPath ∧
        ∃ fingerprint incident occurredAt db₁ db₂,
          request.normalized.getStr "fingerprint" = .ok fingerprint ∧
          (env.backend.holdsText fingerprint = true ∧ (IncidentRepository.openIncident db service.id fingerprint sha = none →
            requireJobCapacity env.jobLimit db = .ok ())) ∧
          db.addErrorEvent (newErrorEvent env request service.id intake.eventId) = .ok db₁ ∧
          joinIncident env intake fingerprint sha (newErrorEvent env request service.id intake.eventId) db₁
            (IncidentRepository.openIncident db service.id fingerprint sha) = .ok (incident, db₂) ∧
          db₂.addOccurrence (newOccurrence env incident.id (env.uuid 0) occurredAt) = .ok db' ∧
          r = ⟨intake.eventId, incident.id, incident.state, false⟩)) := by
  unfold ingestResolved at h
  split at h
  · cases h
  · rename_i service hs
    split at h
    · cases h
    · rename_i ha
      refine ⟨service, hs, by simpa using ha, ?_⟩
      obtain ⟨d, hd, h⟩ := bind_eq_ok.mp h
      split at h
      · cases h
        exact Or.inl ⟨hd, rfl⟩
      · split at h
        · cases h
        · rename_i hp
          obtain ⟨fingerprint, hf, h⟩ := bind_eq_ok.mp h
          obtain ⟨_, hholds, h⟩ := bind_eq_ok.mp h
          obtain ⟨_, hcap, h⟩ := bind_eq_ok.mp h
          obtain ⟨_, -, h⟩ := bind_eq_ok.mp h
          obtain ⟨db₁, h₁, h⟩ := bind_eq_ok.mp h
          obtain ⟨⟨incident, db₂⟩, h₂, h⟩ := bind_eq_ok.mp h
          obtain ⟨occurredAt, -, h⟩ := bind_eq_ok.mp h
          obtain ⟨db₃, h₃, h⟩ := bind_eq_ok.mp h
          cases h
          refine Or.inr ⟨hd, not_not.mp hp, fingerprint, incident, occurredAt, db₁, db₂, hf, ⟨?_, ?_⟩, h₁, h₂, h₃, rfl⟩
          · by_contra hno
            rw [if_neg hno] at hholds
            cases hholds
          · intro hn
            simpa [hn] using hcap

theorem addApproved_ok {incident : Incident} {run : AnalysisRun} {key : Uuid}
    (h : addApproved env incident run key db = .ok db') :
    ∃ db₁ db₂ db₃, db.addApproval (newApproval env incident run key) = .ok db₁ ∧
      db₁.addPatchRun (newPatchRun env (newApproval env incident run key)) = .ok db₂ ∧
      db₂.addJob (newPatchJob env (newPatchRun env (newApproval env incident run key))) = .ok db₃ ∧
      db₃.updateIncident (incident.moveTo .patching) = .ok db' := by
  obtain ⟨db₁, h₁, h⟩ := bind_eq_ok.mp h
  obtain ⟨db₂, h₂, h⟩ := bind_eq_ok.mp h
  obtain ⟨db₃, h₃, h⟩ := bind_eq_ok.mp h
  exact ⟨db₁, db₂, db₃, h₁, h₂, h₃, h⟩

/-- An approval is a replay that changes nothing, or an incident awaiting approval gets its approval, patch
run and PATCH job. -/
theorem approveOnce_ok {incidentId key : Uuid} {r : ApprovalReceipt}
    (h : approveOnce env incidentId key db = .ok (r, db')) :
    ∃ incident, db.incidents.get incidentId = some incident ∧
      ((∃ existing patch, IncidentRepository.approvalByKey db key = some existing ∧
          existing.incidentId = incidentId ∧ IncidentRepository.patchByApproval db existing.id = some patch ∧
          r = ⟨incident.id, existing.id, patch.id, true⟩ ∧ db' = db) ∨
      (IncidentRepository.approvalByKey db key = none ∧ incident.state = .awaitingApproval ∧
        ∃ run, IncidentRepository.successfulAnalysis db incident.id = [run] ∧ run.policySnapshot.truthy = true ∧
          run.baseCommitSha = incident.baseCommitSha ∧
          IncidentRepository.approvalForIncident db incident.id = none ∧
          requireJobCapacity env.jobLimit db = .ok () ∧ addApproved env incident run key db = .ok db' ∧
          r = ⟨incident.id, env.uuid 0, env.uuid 1, false⟩)) := by
  unfold approveOnce at h
  split at h
  · cases h
  · rename_i incident hi
    refine ⟨incident, hi, ?_⟩
    split at h
    · rename_i existing he
      split at h
      · cases h
      · rename_i hk
        split at h
        · cases h
        · rename_i patch hp
          cases h
          exact Or.inl ⟨existing, patch, he, not_not.mp hk, hp, rfl, rfl⟩
    · rename_i he
      split at h
      · cases h
      · rename_i hs
        split at h
        · rename_i run hr
          split_ifs at h with hb ha
          simp only [not_or, not_not, Bool.not_eq_false] at hb
          obtain ⟨_, hcap, h⟩ := bind_eq_ok.mp h
          obtain ⟨db₁, h₁, h⟩ := bind_eq_ok.mp h
          cases h
          exact Or.inr ⟨he, not_not.mp hs, run, hr, hb.1, hb.2, by simpa using ha, hcap, h₁, rfl⟩
        · cases h

end Cases

end Aeh
