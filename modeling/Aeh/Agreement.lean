import Aeh.System

/-!
# Agreement — the incident, its jobs and its runs agree in every reachable state

`RowsAgree` states, query by query, which rows an incident has in which state.  It follows from the
invariant `Dossier.Ok` of the system.
-/

namespace Aeh

namespace Store

/-- The jobs of one type of an incident. -/
def jobsOf (db : Store) (type : JobType) (i : Uuid) : List Job :=
  db.jobs.select fun j => j.incidentId = i && j.type = type

def runsOf (db : Store) (i : Uuid) : List AnalysisRun := db.analysisRuns.select fun r => r.incidentId = i

def approvalsOf (db : Store) (i : Uuid) : List Approval := db.approvals.select fun a => a.incidentId = i

def patchRunsOf (db : Store) (i : Uuid) : List PatchRun := db.patchRuns.select fun p => p.incidentId = i

theorem jobsOf_eq (db : Store) (type : JobType) (i : Uuid) :
    db.jobsOf type i = (db.dossier i).jobs.filter fun j => j.type = type := by
  unfold jobsOf dossier Table.select
  rw [List.filter_filter]
  exact List.filter_congr fun j _ => Bool.and_comm _ _

end Store

/-- The states after an approval. -/
def IncidentState.isApproved : IncidentState → Bool
  | .patching | .validating | .patchReady | .patchFailed => true
  | .received | .analyzing | .awaitingApproval | .analysisFailed => false

/-- Which rows an incident has, by its state. -/
structure RowsAgree (db : Store) (inc : Incident) : Prop where
  analyzeJob : ∃ ja, db.jobsOf .analyze inc.id = [ja]
  received : inc.state = .received ↔ ∃ ja, db.jobsOf .analyze inc.id = [ja] ∧ ja.status = .pending ∧
    ja.attempt = 0 ∧ db.runsOf inc.id = []
  analyzing : inc.state = .analyzing ↔ ∃ ja r, db.jobsOf .analyze inc.id = [ja] ∧
    (ja.status = .pending ∨ ja.status = .running) ∧ 1 ≤ ja.attempt ∧ db.runsOf inc.id = [r] ∧ r.status = .running
  analysisFailed : inc.state = .analysisFailed ↔ ∃ ja r, db.jobsOf .analyze inc.id = [ja] ∧ ja.status = .failed ∧
    db.runsOf inc.id = [r] ∧ r.status = .failed
  analyzed : inc.state ≠ .received ∧ inc.state ≠ .analyzing ∧ inc.state ≠ .analysisFailed ↔
    ∃ ja r, db.jobsOf .analyze inc.id = [ja] ∧ ja.status = .succeeded ∧ db.runsOf inc.id = [r] ∧ r.status = .succeeded
  approved : inc.state.isApproved = true ↔ ∃ a p jp, db.approvalsOf inc.id = [a] ∧ db.patchRunsOf inc.id = [p] ∧
    db.jobsOf .patch inc.id = [jp]
  notApproved : inc.state.isApproved = false →
    db.approvalsOf inc.id = [] ∧ db.patchRunsOf inc.id = [] ∧ db.jobsOf .patch inc.id = []
  patching : inc.state = .patching ∨ inc.state = .validating ↔ ∃ jp, db.jobsOf .patch inc.id = [jp] ∧
    (jp.status = .pending ∨ jp.status = .running)
  patchReady : inc.state = .patchReady ↔ ∃ jp, db.jobsOf .patch inc.id = [jp] ∧ jp.status = .succeeded
  patchFailed : inc.state = .patchFailed ↔ ∃ jp, db.jobsOf .patch inc.id = [jp] ∧ jp.status = .failed
  validating : inc.state = .validating ↔ ∃ p, db.patchRunsOf inc.id = [p] ∧ p.status = .validating

/-- The agreement, read off the stage of the dossier. -/
theorem Dossier.Ok.rowsAgree {db : Store} {inc : Incident} (h : (db.dossier inc.id).Ok)
    (hi : db.incidents.get inc.id = some inc) : RowsAgree db inc := by
  have hruns : db.runsOf inc.id = (db.dossier inc.id).analysisRuns := rfl
  have happ : db.approvalsOf inc.id = (db.dossier inc.id).approvals := rfl
  have hpat : db.patchRunsOf inc.id = (db.dossier inc.id).patchRuns := rfl
  have hinc : (db.dossier inc.id).incident = some inc := hi
  have hja := db.jobsOf_eq .analyze inc.id
  have hjp := db.jobsOf_eq .patch inc.id
  generalize db.dossier inc.id = d at h hruns happ hpat hinc hja hjp
  cases h with
  | absent => cases hinc
  | received hs hv ha hst h0 =>
    cases hinc
    constructor <;> simp [hruns, happ, hpat, hja, hjp, ha.type, hs, hst, h0, IncidentState.isApproved]
  | analyzing hs hv ha hst h1 hr hrs =>
    cases hinc
    rcases hst with hst | hst <;> constructor <;>
      simp [hruns, happ, hpat, hja, hjp, ha.type, hs, hst, h1, hrs, IncidentState.isApproved]
  | analyzed failed hs hv ha hst hr hrs =>
    cases hinc
    cases failed <;> simp only [Bool.false_eq_true, if_false, if_true] at hs hst hrs <;> constructor <;>
      simp [hruns, happ, hpat, hja, hjp, ha.type, hs, hst, hrs, IncidentState.isApproved]
  | patching hs ha hst hr hrs hap hp hj hjs hne =>
    cases hinc
    rcases hs with ⟨hs, hps | hps, -⟩ | ⟨hs, hps, -⟩ <;> rcases hjs with hjs | hjs <;> constructor <;>
      simp [hruns, happ, hpat, hja, hjp, ha.type, hj.type, hs, hps, hst, hjs, hrs, IncidentState.isApproved]
  | patched failed hs hps hv ha hst hr hrs hap hp hj hjs hne =>
    cases hinc
    cases failed <;> simp only [Bool.false_eq_true, if_false, if_true] at hs hps hjs <;> constructor <;>
      simp [hruns, happ, hpat, hja, hjp, ha.type, hj.type, hs, hps, hst, hjs, hrs, IncidentState.isApproved]

/-- **The incident, its jobs and its runs agree** in every state the transactions of any parties reach. -/
theorem Sys.rows_agree {s : Sys} (h : Sys.machine.Reachable s) {inc : Incident} (hi : inc ∈ s.db.incidents.rows) :
    RowsAgree s.db inc :=
  ((Sys.inv_of_reachable h).ok inc.id).rowsAgree (Table.get_self hi)

theorem Sys.rows_agree_validating : ∃ inc ∈ (Sample.after 7).db.incidents.rows,
    inc.state = .validating ∧ RowsAgree (Sample.after 7).db inc := by
  have hv : IncidentState.validating ∈ (Sample.after 7).db.incidents.rows.map Incident.state := by decide
  obtain ⟨inc, hm, hs⟩ := List.mem_map.mp hv
  exact ⟨inc, hm, hs, Sys.rows_agree (Sample.reachable 7) hm⟩

end Aeh
