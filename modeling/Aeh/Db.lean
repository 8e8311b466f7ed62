import Mathlib.Data.Fin.Basic
import Mathlib.Data.Int.ConditionallyCompleteOrder
import Mathlib.Order.Lattice.Nat
import Mathlib.Data.Int.Order.Basic
import Aeh.Lib.Table
import Aeh.Config
import Aeh.Py.Datetime
import Aeh.Py.Uuid

/-!
# Db — `aeh/db.py`: the tables, their constraints and transactions

A row has the columns some modelled function reads or writes.  A transaction is a function of the store
that answers with a value and a new store or with an exception; `commit` is what other sessions see of
it, the old store after an exception.  What a transaction draws from outside (the clock and fresh
UUIDs) is its `Env`.

The unique indexes are the `clash` of each insertion.  Only the index on open incidents depends on a
column that updates change, so `updateIncident` checks it again.
-/

namespace Aeh

/-- Microseconds since an epoch. -/
abbrev Time := ℤ

def seconds (n : ℕ) : Time := 1000000 * n

/-- The two supported database backends. -/
inductive Backend where
  | sqlite | postgresql
deriving DecidableEq

/-- What one transaction draws from outside: its `k`-th reading of `now()`, its `k`-th `uuid4()`, the
database's `func.now()`, the backend behind the session and `Limits.job_limit`, which tests lower. -/
structure Env where
  now : ℕ → Time
  uuid : ℕ → Uuid
  dbNow : Datetime
  backend : Backend := .postgresql
  jobLimit : ℕ := Limits.jobLimit

/-! ## Rows -/

structure Service where
  id : Uuid
  key : PyStr
  repositoryPath : PyStr
  defaultBranch : PyStr
  policy : Json
  active : Bool

structure ErrorEvent where
  id : Uuid
  serviceId : Uuid
  eventId : Uuid
  payloadChecksum : String
  normalizedPayload : Json

inductive IncidentState where
  | received | analyzing | awaitingApproval | patching | validating
  | analysisFailed | patchReady | patchFailed
deriving DecidableEq

/-- `OPEN_STATES`. -/
def IncidentState.isOpen : IncidentState → Bool
  | .received | .analyzing | .awaitingApproval | .patching | .validating => true
  | .analysisFailed | .patchReady | .patchFailed => false

structure Incident where
  id : Uuid
  serviceId : Uuid
  fingerprint : PyStr
  state : IncidentState := .received
  version : ℕ := 1
  repositoryPathSnapshot : PyStr
  baseCommitSha : PyStr
  firstErrorEventId : Uuid
  occurrenceCount : ℕ := 1
  createdAt : Datetime

structure Occurrence where
  id : Uuid
  incidentId : Uuid
  errorEventId : Uuid
  occurredAt : Datetime

/-- `incident.state = …; incident.version += 1`. -/
def Incident.moveTo (incident : Incident) (state : IncidentState) : Incident :=
  { incident with state := state, version := incident.version + 1 }

inductive RunStatus where
  | pending | running | succeeded | failed
deriving DecidableEq

structure AnalysisRun where
  id : Uuid
  incidentId : Uuid
  status : RunStatus := .pending
  baseCommitSha : PyStr
  inputErrorEventId : Uuid
  policySnapshot : Json
  codexThreadId : Option PyStr := none
  result : Option Json := none
  errorCode : Option String := none
  errorDetail : Option PyStr := none
  startedAt : Option Time := none
  finishedAt : Option Time := none

structure Approval where
  id : Uuid
  incidentId : Uuid
  analysisRunId : Uuid
  idempotencyKey : Uuid
  baseCommitSha : PyStr

inductive PatchStatus where
  | pending | running | validating | patchReady | patchFailed
deriving DecidableEq

structure PatchRun where
  id : Uuid
  incidentId : Uuid
  approvalId : Uuid
  status : PatchStatus := .pending
  baseCommitSha : PyStr
  changedFiles : List PyStr := []
  diffText : Option PyStr := none
  validationResult : List Json := []
  errorCode : Option String := none
  errorDetail : Option PyStr := none
  startedAt : Option Time := none
  finishedAt : Option Time := none

inductive JobType where
  | analyze | patch
deriving DecidableEq

inductive JobStatus where
  | pending | running | succeeded | failed
deriving DecidableEq

/-- `f"ANALYZE:{incident.id}"` or `f"PATCH:{approval.id}"`. -/
inductive DedupKey where
  | analyze (incidentId : Uuid)
  | patch (approvalId : Uuid)
deriving DecidableEq

/-- `{"version": 1, "incidentId": …[, "patchRunId": …]}`. -/
structure Payload where
  version : ℕ := 1
  incidentId : Uuid
  patchRunId : Option Uuid := none
deriving DecidableEq

structure Job where
  id : Uuid
  type : JobType
  deduplicationKey : DedupKey
  payload : Payload
  status : JobStatus := .pending
  attempt : ℕ := 0
  maxAttempts : ℕ := 3
  availableAt : Time
  lockedBy : Option String := none
  lockedAt : Option Time := none
  claimToken : Option Uuid := none
  lastErrorCode : Option String := none
  lastErrorDetail : Option PyStr := none
  createdAt : Datetime
deriving DecidableEq

/-- The incident a job is about. -/
abbrev Job.incidentId (job : Job) : Uuid := job.payload.incidentId

instance : Keyed Service Uuid := ⟨Service.id⟩
instance : Keyed ErrorEvent Uuid := ⟨ErrorEvent.id⟩
instance : Keyed Incident Uuid := ⟨Incident.id⟩
instance : Keyed Occurrence Uuid := ⟨Occurrence.id⟩
instance : Keyed AnalysisRun Uuid := ⟨AnalysisRun.id⟩
instance : Keyed Approval Uuid := ⟨Approval.id⟩
instance : Keyed PatchRun Uuid := ⟨PatchRun.id⟩
instance : Keyed Job Uuid := ⟨Job.id⟩

/-! ## The store -/

structure Store where
  services : Table Service
  errorEvents : Table ErrorEvent
  incidents : Table Incident
  occurrences : Table Occurrence
  analysisRuns : Table AnalysisRun
  approvals : Table Approval
  patchRuns : Table PatchRun
  jobs : Table Job

/-- A store holding only services. -/
def Store.ofServices (services : Table Service) : Store :=
  ⟨services, .empty, .empty, .empty, .empty, .empty, .empty, .empty⟩

/-- `uq_incidents_open_grouping`: both rows are open and share service, fingerprint and base SHA. -/
def Incident.clash (a b : Incident) : Bool :=
  a.state.isOpen && b.state.isOpen && a.serviceId = b.serviceId && a.fingerprint = b.fingerprint &&
    a.baseCommitSha = b.baseCommitSha

/-- Whether the backend's text columns hold a string: PostgreSQL's reject U+0000. -/
def Backend.holdsText (backend : Backend) (s : PyStr) : Bool :=
  backend = .sqlite || !s.contains (0 : CodePoint)

/-- Whether the driver can send a string: one with surrogates cannot be encoded. -/
def Backend.sendsText (backend : Backend) (s : PyStr) : Bool :=
  backend.holdsText s && s.all fun c => c.val < 0xD800 || 0xDFFF < c.val

mutual

/-- Whether the backend's document columns hold a value. -/
def Backend.holds (backend : Backend) : Json → Bool
  | .str s => backend.holdsText s
  | .arr items => backend.holdsItems items
  | .obj fields => backend.holdsFields fields
  | .null | .bool _ | .int _ | .float _ => true

def Backend.holdsItems (backend : Backend) : List Json → Bool
  | [] => true
  | j :: js => backend.holds j && backend.holdsItems js

def Backend.holdsFields (backend : Backend) : List (PyStr × Json) → Bool
  | [] => true
  | (k, j) :: kvs => backend.holdsText k && backend.holds j && backend.holdsFields kvs

end

def unique {α : Type} : Option α → Except Exn α
  | some a => .ok a
  | none => .error .integrityError

theorem unique_error {α : Type} {o : Option α} {e : Exn} (h : unique o = .error e) : o = none := by
  cases o <;> simp_all [unique]

theorem unique_ok {α : Type} {o : Option α} {a : α} (h : unique o = .ok a) : o = some a := by
  cases o <;> simp_all [unique]

namespace Store

def addService (db : Store) (r : Service) : Except Exn Store := do
  let t ← unique (db.services.insert (fun a b => a.key = b.key) r)
  .ok { db with services := t }

def addErrorEvent (db : Store) (r : ErrorEvent) : Except Exn Store := do
  let t ← unique (db.errorEvents.insert (fun a b => a.serviceId = b.serviceId && a.eventId = b.eventId) r)
  .ok { db with errorEvents := t }

def addIncident (db : Store) (r : Incident) : Except Exn Store := do
  let t ← unique (db.incidents.insert Incident.clash r)
  .ok { db with incidents := t }

def addOccurrence (db : Store) (r : Occurrence) : Except Exn Store := do
  let t ← unique (db.occurrences.insert (fun a b => a.errorEventId = b.errorEventId) r)
  .ok { db with occurrences := t }

def addAnalysisRun (db : Store) (r : AnalysisRun) : Except Exn Store := do
  let t ← unique (db.analysisRuns.insert (fun a b => a.incidentId = b.incidentId) r)
  .ok { db with analysisRuns := t }

def addApproval (db : Store) (r : Approval) : Except Exn Store := do
  let t ← unique (db.approvals.insert
    (fun a b => a.incidentId = b.incidentId || a.idempotencyKey = b.idempotencyKey) r)
  .ok { db with approvals := t }

def addPatchRun (db : Store) (r : PatchRun) : Except Exn Store := do
  let t ← unique (db.patchRuns.insert
    (fun a b => a.incidentId = b.incidentId || a.approvalId = b.approvalId) r)
  .ok { db with patchRuns := t }

def addJob (db : Store) (r : Job) : Except Exn Store := do
  let t ← unique (db.jobs.insert (fun a b => a.deduplicationKey = b.deduplicationKey) r)
  .ok { db with jobs := t }

def putService (db : Store) (r : Service) : Store := { db with services := db.services.put r }

def putAnalysisRun (db : Store) (r : AnalysisRun) : Store := { db with analysisRuns := db.analysisRuns.put r }

def putPatchRun (db : Store) (r : PatchRun) : Store := { db with patchRuns := db.patchRuns.put r }

def putJob (db : Store) (r : Job) : Store := { db with jobs := db.jobs.put r }

/-- An update of an incident, which the index on open incidents may refuse. -/
def updateIncident (db : Store) (r : Incident) : Except Exn Store :=
  if db.incidents.rows.any fun r' => r'.id ≠ r.id && Incident.clash r r' then .error .integrityError
  else .ok { db with incidents := db.incidents.put r }

/-! What a successful insertion leaves, table by table. -/

theorem addService_ok {db db' : Store} {r : Service} (h : db.addService r = .ok db') :
    ∃ t, db.services.insert (fun a b => a.key = b.key) r = some t ∧ db' = { db with services := t } := by
  obtain ⟨t, ht, h⟩ := bind_eq_ok.mp h
  exact ⟨t, unique_ok ht, (Except.ok.inj h).symm⟩

theorem addErrorEvent_ok {db db' : Store} {r : ErrorEvent} (h : db.addErrorEvent r = .ok db') :
    ∃ t, db.errorEvents.insert (fun a b => a.serviceId = b.serviceId && a.eventId = b.eventId) r = some t ∧
      db' = { db with errorEvents := t } := by
  obtain ⟨t, ht, h⟩ := bind_eq_ok.mp h
  exact ⟨t, unique_ok ht, (Except.ok.inj h).symm⟩

theorem addIncident_ok {db db' : Store} {r : Incident} (h : db.addIncident r = .ok db') :
    ∃ t, db.incidents.insert Incident.clash r = some t ∧ db' = { db with incidents := t } := by
  obtain ⟨t, ht, h⟩ := bind_eq_ok.mp h
  exact ⟨t, unique_ok ht, (Except.ok.inj h).symm⟩

theorem addOccurrence_ok {db db' : Store} {r : Occurrence} (h : db.addOccurrence r = .ok db') :
    ∃ t, db.occurrences.insert (fun a b => a.errorEventId = b.errorEventId) r = some t ∧
      db' = { db with occurrences := t } := by
  obtain ⟨t, ht, h⟩ := bind_eq_ok.mp h
  exact ⟨t, unique_ok ht, (Except.ok.inj h).symm⟩

theorem addAnalysisRun_ok {db db' : Store} {r : AnalysisRun} (h : db.addAnalysisRun r = .ok db') :
    ∃ t, db.analysisRuns.insert (fun a b => a.incidentId = b.incidentId) r = some t ∧
      db' = { db with analysisRuns := t } := by
  obtain ⟨t, ht, h⟩ := bind_eq_ok.mp h
  exact ⟨t, unique_ok ht, (Except.ok.inj h).symm⟩

theorem addApproval_ok {db db' : Store} {r : Approval} (h : db.addApproval r = .ok db') :
    ∃ t, db.approvals.insert
        (fun a b => a.incidentId = b.incidentId || a.idempotencyKey = b.idempotencyKey) r = some t ∧
      db' = { db with approvals := t } := by
  obtain ⟨t, ht, h⟩ := bind_eq_ok.mp h
  exact ⟨t, unique_ok ht, (Except.ok.inj h).symm⟩

theorem addPatchRun_ok {db db' : Store} {r : PatchRun} (h : db.addPatchRun r = .ok db') :
    ∃ t, db.patchRuns.insert (fun a b => a.incidentId = b.incidentId || a.approvalId = b.approvalId) r = some t ∧
      db' = { db with patchRuns := t } := by
  obtain ⟨t, ht, h⟩ := bind_eq_ok.mp h
  exact ⟨t, unique_ok ht, (Except.ok.inj h).symm⟩

theorem addJob_ok {db db' : Store} {r : Job} (h : db.addJob r = .ok db') :
    ∃ t, db.jobs.insert (fun a b => a.deduplicationKey = b.deduplicationKey) r = some t ∧
      db' = { db with jobs := t } := by
  obtain ⟨t, ht, h⟩ := bind_eq_ok.mp h
  exact ⟨t, unique_ok ht, (Except.ok.inj h).symm⟩

theorem updateIncident_ok {db db' : Store} {r : Incident} (h : db.updateIncident r = .ok db') :
    db' = { db with incidents := db.incidents.put r } := by
  unfold Store.updateIncident at h
  split_ifs at h
  exact (Except.ok.inj h).symm

end Store

/-! ## Transactions -/

/-- What other sessions see of a transaction: its answer, and its store if it answered. -/
def commit {α : Type} (r : Except Exn (α × Store)) (db : Store) : Except Exn α × Store :=
  match r with
  | .ok (a, db') => (.ok a, db')
  | .error e => (.error e, db)

end Aeh
