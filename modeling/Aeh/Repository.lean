import Aeh.Db

/-!
# Repository — `aeh/repository.py`: the queries of incident intake and approval

`db.scalar` answers with the first row of its query.
-/

namespace Aeh

namespace IncidentRepository

/-- `service_by_key`; with `active`, inactive services are not found. -/
def serviceByKey (db : Store) (key : PyStr) (active : Bool := false) : Option Service :=
  db.services.first fun s => s.key = key && (!active || s.active)

def serviceById (db : Store) (serviceId : Uuid) : Option Service :=
  db.services.first fun s => s.id = serviceId

def hasOpenIncident (db : Store) (serviceId : Uuid) : Bool :=
  (db.incidents.first fun i => i.serviceId = serviceId && i.state.isOpen).isSome

def eventByIdentity (db : Store) (serviceId eventId : Uuid) : Option ErrorEvent :=
  db.errorEvents.first fun e => e.serviceId = serviceId && e.eventId = eventId

/-- `incident_for_event`: the join with `occurrences`. -/
def incidentForEvent (db : Store) (eventRowId : Uuid) : Option Incident :=
  db.incidents.first fun i => db.occurrences.rows.any fun o => o.incidentId = i.id && o.errorEventId = eventRowId

def openIncident (db : Store) (serviceId : Uuid) (fingerprint sha : PyStr) : Option Incident :=
  db.incidents.first fun i =>
    i.serviceId = serviceId && i.fingerprint = fingerprint && i.baseCommitSha = sha && i.state.isOpen

def activeJobCount (db : Store) : ℕ :=
  (db.jobs.select fun j => j.status = .pending || j.status = .running).length

def approvalByKey (db : Store) (key : Uuid) : Option Approval :=
  db.approvals.first fun a => a.idempotencyKey = key

def approvalForIncident (db : Store) (incidentId : Uuid) : Option Approval :=
  db.approvals.first fun a => a.incidentId = incidentId

def successfulAnalysis (db : Store) (incidentId : Uuid) : List AnalysisRun :=
  db.analysisRuns.select fun r => r.incidentId = incidentId && r.status = .succeeded

def patchByApproval (db : Store) (approvalId : Uuid) : Option PatchRun :=
  db.patchRuns.first fun p => p.approvalId = approvalId

end IncidentRepository

end Aeh
