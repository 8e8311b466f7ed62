import Aeh.JobRepository
import Aeh.Service

/-!
# Dossier — the rows of one incident and what a transaction does to them

The lifecycle of an incident is spread over five tables.  Its `Dossier` collects the rows that name it;
`Move` lists what a transaction can do to a dossier, and `Ok` is the agreement of its rows, one
constructor for each stage of the lifecycle.  Every move keeps a dossier `Ok` (`Move.ok`); that every
transaction is a move or nothing at each dossier is proved with the system.
-/

namespace Aeh

open Table

structure Dossier where
  incident : Option Incident
  jobs : List Job
  analysisRuns : List AnalysisRun
  approvals : List Approval
  patchRuns : List PatchRun

/-- The rows of the store that name incident `i`. -/
def Store.dossier (db : Store) (i : Uuid) : Dossier where
  incident := db.incidents.get i
  jobs := db.jobs.select fun j => j.incidentId = i
  analysisRuns := db.analysisRuns.select fun r => r.incidentId = i
  approvals := db.approvals.select fun a => a.incidentId = i
  patchRuns := db.patchRuns.select fun p => p.incidentId = i

/-! ## Rows in a dossier -/

section Rows

variable {db : Store} {i : Uuid}

theorem Store.mem_dossier_jobs {j : Job} : j ∈ (db.dossier i).jobs ↔ j ∈ db.jobs.rows ∧ j.incidentId = i := by
  simp [dossier, mem_select]

theorem Store.mem_dossier_analysisRuns {r : AnalysisRun} :
    r ∈ (db.dossier i).analysisRuns ↔ r ∈ db.analysisRuns.rows ∧ r.incidentId = i := by
  simp [dossier, mem_select]

theorem Store.mem_dossier_approvals {a : Approval} :
    a ∈ (db.dossier i).approvals ↔ a ∈ db.approvals.rows ∧ a.incidentId = i := by
  simp [dossier, mem_select]

theorem Store.mem_dossier_patchRuns {p : PatchRun} :
    p ∈ (db.dossier i).patchRuns ↔ p ∈ db.patchRuns.rows ∧ p.incidentId = i := by
  simp [dossier, mem_select]

theorem Store.analysisRunOf_eq : db.analysisRunOf i = (db.dossier i).analysisRuns.head? := rfl

theorem Store.patchRunOf_eq : db.patchRunOf i = (db.dossier i).patchRuns.head? := rfl

theorem Store.analysisRunOf_eq_none : db.analysisRunOf i = none ↔ (db.dossier i).analysisRuns = [] := by
  rw [analysisRunOf_eq, List.head?_eq_none_iff]

end Rows

/-! ## Versions of one row -/

/-- Two versions of one job: the columns no transaction changes agree. -/
structure Job.SameJob (a b : Job) : Prop where
  id : b.id = a.id
  type : b.type = a.type
  key : b.deduplicationKey = a.deduplicationKey
  payload : b.payload = a.payload
  limit : b.maxAttempts = a.maxAttempts
  created : b.createdAt = a.createdAt

/-- Two versions of one analysis run: what its first claim froze. -/
structure AnalysisRun.SameRun (a b : AnalysisRun) : Prop where
  id : b.id = a.id
  incident : b.incidentId = a.incidentId
  sha : b.baseCommitSha = a.baseCommitSha
  input : b.inputErrorEventId = a.inputErrorEventId
  policy : b.policySnapshot = a.policySnapshot

/-- Two versions of one patch run. -/
structure PatchRun.SamePatch (a b : PatchRun) : Prop where
  id : b.id = a.id
  incident : b.incidentId = a.incidentId
  approval : b.approvalId = a.approvalId
  sha : b.baseCommitSha = a.baseCommitSha

/-- Two versions of one incident. -/
structure Incident.SameCase (a b : Incident) : Prop where
  id : b.id = a.id
  service : b.serviceId = a.serviceId
  fingerprint : b.fingerprint = a.fingerprint
  path : b.repositoryPathSnapshot = a.repositoryPathSnapshot
  sha : b.baseCommitSha = a.baseCommitSha
  input : b.firstErrorEventId = a.firstErrorEventId
  created : b.createdAt = a.createdAt

theorem Job.SameJob.refl (j : Job) : j.SameJob j := ⟨rfl, rfl, rfl, rfl, rfl, rfl⟩

theorem Job.SameJob.incident {a b : Job} (h : a.SameJob b) : b.incidentId = a.incidentId :=
  congrArg Payload.incidentId h.payload

theorem Job.sameJob_claimed (j : Job) (token : Uuid) (worker : String) (t : Time) :
    j.SameJob (j.claimed token worker t) := ⟨rfl, rfl, rfl, rfl, rfl, rfl⟩

theorem Job.sameJob_renewed (j : Job) (t : Time) : j.SameJob (j.renewed t) := ⟨rfl, rfl, rfl, rfl, rfl, rfl⟩

theorem Job.sameJob_requeued (j : Job) (code : Option String) (detail : Option PyStr) (t : Time) :
    j.SameJob (j.requeued code detail t) := ⟨rfl, rfl, rfl, rfl, rfl, rfl⟩

theorem Job.sameJob_ended (j : Job) (code : Option String) (detail : Option PyStr) (status : JobStatus) :
    j.SameJob (j.ended code detail status) := ⟨rfl, rfl, rfl, rfl, rfl, rfl⟩

theorem AnalysisRun.SameRun.refl (r : AnalysisRun) : r.SameRun r := ⟨rfl, rfl, rfl, rfl, rfl⟩

theorem PatchRun.SamePatch.refl (p : PatchRun) : p.SamePatch p := ⟨rfl, rfl, rfl, rfl⟩

theorem PatchRun.samePatch_started (p : PatchRun) (t : Time) : p.SamePatch (p.started t) := ⟨rfl, rfl, rfl, rfl⟩

theorem PatchRun.samePatch_validating (p : PatchRun) : p.SamePatch p.validating := ⟨rfl, rfl, rfl, rfl⟩

theorem Incident.SameCase.refl (inc : Incident) : inc.SameCase inc := ⟨rfl, rfl, rfl, rfl, rfl, rfl, rfl⟩

theorem AnalysisRun.SameRun.trans {a b c : AnalysisRun} (h : a.SameRun b) (h' : b.SameRun c) : a.SameRun c :=
  ⟨h'.id.trans h.id, h'.incident.trans h.incident, h'.sha.trans h.sha, h'.input.trans h.input,
    h'.policy.trans h.policy⟩

theorem Incident.SameCase.trans {a b c : Incident} (h : a.SameCase b) (h' : b.SameCase c) : a.SameCase c :=
  ⟨h'.id.trans h.id, h'.service.trans h.service, h'.fingerprint.trans h.fingerprint, h'.path.trans h.path,
    h'.sha.trans h.sha, h'.input.trans h.input, h'.created.trans h.created⟩

theorem Incident.sameCase_moveTo (inc : Incident) (s : IncidentState) : inc.SameCase (inc.moveTo s) :=
  ⟨rfl, rfl, rfl, rfl, rfl, rfl, rfl⟩

theorem Incident.sameCase_counted (inc : Incident) : inc.SameCase inc.counted := ⟨rfl, rfl, rfl, rfl, rfl, rfl, rfl⟩

/-- A run that ends with `status`, whatever it records about the end. -/
def AnalysisRun.EndsAs (run run' : AnalysisRun) (status : RunStatus) : Prop :=
  run' = { run with status := status
                    result := run'.result
                    codexThreadId := run'.codexThreadId
                    errorCode := run'.errorCode
                    errorDetail := run'.errorDetail
                    finishedAt := run'.finishedAt }

def PatchRun.EndsAs (patch patch' : PatchRun) (status : PatchStatus) : Prop :=
  patch' = { patch with status := status
                        changedFiles := patch'.changedFiles
                        diffText := patch'.diffText
                        validationResult := patch'.validationResult
                        errorCode := patch'.errorCode
                        errorDetail := patch'.errorDetail
                        finishedAt := patch'.finishedAt }

theorem AnalysisRun.EndsAs.same {r r' : AnalysisRun} {status : RunStatus} (h : r.EndsAs r' status) :
    r.SameRun r' := by
  unfold EndsAs at h
  rw [h]
  exact ⟨rfl, rfl, rfl, rfl, rfl⟩

theorem AnalysisRun.EndsAs.status {r r' : AnalysisRun} {status : RunStatus} (h : r.EndsAs r' status) :
    r'.status = status := by
  unfold EndsAs at h
  rw [h]

theorem PatchRun.EndsAs.same {p p' : PatchRun} {status : PatchStatus} (h : p.EndsAs p' status) :
    p.SamePatch p' := by
  unfold EndsAs at h
  rw [h]
  exact ⟨rfl, rfl, rfl, rfl⟩

theorem PatchRun.EndsAs.status {p p' : PatchRun} {status : PatchStatus} (h : p.EndsAs p' status) :
    p'.status = status := by
  unfold EndsAs at h
  rw [h]

/-! ## Updates of a dossier -/

section Updates

variable {db : Store} {i : Uuid}

theorem Store.dossier_putJob {job job' : Job} (h : job ∈ db.jobs.rows) (same : job.SameJob job') :
    (db.putJob job').dossier i = { db.dossier i with jobs := replace job' (db.dossier i).jobs } := by
  have hs : (db.jobs.put job').select (fun j => j.incidentId = i) =
      replace job' (db.jobs.select fun j => j.incidentId = i) := by
    refine select_put fun r hr hk => ?_
    rw [eq_of_key hr h (hk.trans same.id), same.incident]
  unfold dossier putJob
  rw [hs]

/-- Replacing a row of another incident changes nothing in a dossier. -/
theorem Store.dossier_putJob_ne {job job' : Job} (h : job ∈ db.jobs.rows) (same : job.SameJob job')
    (hne : i ≠ job.incidentId) : (db.putJob job').dossier i = db.dossier i := by
  rw [dossier_putJob h same, replace_of_not_mem]
  intro r hr hk
  obtain ⟨hr, hi⟩ := mem_dossier_jobs.mp hr
  exact hne (by rw [← hi, eq_of_key hr h (hk.trans same.id)])

theorem Store.dossier_putAnalysisRun {run run' : AnalysisRun} (h : run ∈ db.analysisRuns.rows)
    (same : run.SameRun run') :
    (db.putAnalysisRun run').dossier i =
      { db.dossier i with analysisRuns := replace run' (db.dossier i).analysisRuns } := by
  have hs : (db.analysisRuns.put run').select (fun r => r.incidentId = i) =
      replace run' (db.analysisRuns.select fun r => r.incidentId = i) := by
    refine select_put fun r hr hk => ?_
    rw [eq_of_key hr h (hk.trans same.id), same.incident]
  unfold dossier putAnalysisRun
  rw [hs]

theorem Store.dossier_putAnalysisRun_ne {run run' : AnalysisRun} (h : run ∈ db.analysisRuns.rows)
    (same : run.SameRun run') (hne : i ≠ run.incidentId) : (db.putAnalysisRun run').dossier i = db.dossier i := by
  rw [dossier_putAnalysisRun h same, replace_of_not_mem]
  intro r hr hk
  obtain ⟨hr, hi⟩ := mem_dossier_analysisRuns.mp hr
  exact hne (by rw [← hi, eq_of_key hr h (hk.trans same.id)])

theorem Store.dossier_putPatchRun {patch patch' : PatchRun} (h : patch ∈ db.patchRuns.rows)
    (same : patch.SamePatch patch') :
    (db.putPatchRun patch').dossier i =
      { db.dossier i with patchRuns := replace patch' (db.dossier i).patchRuns } := by
  have hs : (db.patchRuns.put patch').select (fun p => p.incidentId = i) =
      replace patch' (db.patchRuns.select fun p => p.incidentId = i) := by
    refine select_put fun r hr hk => ?_
    rw [eq_of_key hr h (hk.trans same.id), same.incident]
  unfold dossier putPatchRun
  rw [hs]

theorem Store.dossier_putPatchRun_ne {patch patch' : PatchRun} (h : patch ∈ db.patchRuns.rows)
    (same : patch.SamePatch patch') (hne : i ≠ patch.incidentId) : (db.putPatchRun patch').dossier i = db.dossier i := by
  rw [dossier_putPatchRun h same, replace_of_not_mem]
  intro r hr hk
  obtain ⟨hr, hi⟩ := mem_dossier_patchRuns.mp hr
  exact hne (by rw [← hi, eq_of_key hr h (hk.trans same.id)])

theorem Store.dossier_updateIncident {db' : Store} {inc inc' : Incident} (h : db.incidents.get i = some inc)
    (hid : inc'.id = i) (hu : db.updateIncident inc' = .ok db') :
    db'.dossier i = { db.dossier i with incident := some inc' } := by
  subst hid
  rw [updateIncident_ok hu]
  show Dossier.mk ((db.incidents.put inc').get (Keyed.key inc')) _ _ _ _ = _
  rw [get_put_self h]
  rfl

theorem Store.dossier_updateIncident_ne {db' : Store} {inc' : Incident} (hid : i ≠ inc'.id)
    (hu : db.updateIncident inc' = .ok db') : db'.dossier i = db.dossier i := by
  rw [updateIncident_ok hu]
  show Dossier.mk ((db.incidents.put inc').get i) _ _ _ _ = _
  rw [get_put_ne hid]
  rfl

theorem Store.dossier_addIncident {db' : Store} {inc : Incident} (h : db.addIncident inc = .ok db') :
    db'.dossier inc.id = { db.dossier inc.id with incident := some inc } ∧ db.incidents.get inc.id = none ∧
      ∀ i, i ≠ inc.id → db'.dossier i = db.dossier i := by
  obtain ⟨t, ht, rfl⟩ := addIncident_ok h
  refine ⟨?_, get_eq_none.mpr (insert_eq_some ht).2.1, fun i hi => ?_⟩
  · show Dossier.mk (t.get (Keyed.key inc)) _ _ _ _ = _
    rw [get_insert_self ht]
    rfl
  · show Dossier.mk (t.get i) _ _ _ _ = _
    rw [get_insert_ne ht hi]
    rfl

theorem Store.dossier_addJob {db' : Store} {job : Job} (h : db.addJob job = .ok db') :
    db'.dossier i =
      { db.dossier i with jobs := (db.dossier i).jobs ++ if job.incidentId = i then [job] else [] } := by
  obtain ⟨t, ht, rfl⟩ := addJob_ok h
  show Dossier.mk _ (t.select _) _ _ _ = _
  rw [select_insert ht]
  simp only [decide_eq_true_eq]
  rfl

theorem Store.dossier_addAnalysisRun {db' : Store} {run : AnalysisRun} (h : db.addAnalysisRun run = .ok db') :
    db'.dossier i = { db.dossier i with
      analysisRuns := (db.dossier i).analysisRuns ++ if run.incidentId = i then [run] else [] } := by
  obtain ⟨t, ht, rfl⟩ := addAnalysisRun_ok h
  show Dossier.mk _ _ (t.select _) _ _ = _
  rw [select_insert ht]
  simp only [decide_eq_true_eq]
  rfl

theorem Store.dossier_addApproval {db' : Store} {approval : Approval} (h : db.addApproval approval = .ok db') :
    db'.dossier i = { db.dossier i with
      approvals := (db.dossier i).approvals ++ if approval.incidentId = i then [approval] else [] } := by
  obtain ⟨t, ht, rfl⟩ := addApproval_ok h
  show Dossier.mk _ _ _ (t.select _) _ = _
  rw [select_insert ht]
  simp only [decide_eq_true_eq]
  rfl

theorem Store.dossier_addPatchRun {db' : Store} {patch : PatchRun} (h : db.addPatchRun patch = .ok db') :
    (db.dossier patch.incidentId).patchRuns = [] ∧ db'.dossier i = { db.dossier i with
      patchRuns := (db.dossier i).patchRuns ++ if patch.incidentId = i then [patch] else [] } := by
  obtain ⟨t, ht, rfl⟩ := addPatchRun_ok h
  refine ⟨List.filter_eq_nil_iff.mpr fun p hp => ?_, ?_⟩
  · have := (insert_eq_some ht).2.2 p hp
    simp only [Bool.or_eq_false_iff, decide_eq_false_iff_not] at this
    simpa using fun h' => this.1 h'.symm
  · show Dossier.mk _ _ _ _ (t.select _) = _
    rw [select_insert ht]
    simp only [decide_eq_true_eq]
    rfl

end Updates

/-! ## Moves -/

namespace Dossier

/-- What a transaction can do to the rows of one incident; `R` are the states from which a patch may become
ready. -/
inductive Move (R : IncidentState → Prop) : Dossier → Dossier → Prop
  /-- The first event of a group opens the incident with its ANALYZE job. -/
  | opened {d : Dossier} (env : Env) (intake : Intake) (fingerprint sha : PyStr) (row : ErrorEvent)
      (hd : d.incident = none) :
      Move R d { d with incident := some (newIncident env intake fingerprint sha row)
                        jobs := d.jobs ++ [newAnalyzeJob env (env.uuid 1)] }
  /-- A further event of the group. -/
  | counted {d : Dossier} {inc : Incident} (hi : d.incident = some inc) (ho : inc.state.isOpen = true) :
      Move R d { d with incident := some inc.counted }
  /-- A claim of the ANALYZE job; the first one freezes the policy in a new run. -/
  | claimedAnalyze {d : Dossier} {inc inc' : Incident} {j : Job} {runs : List AnalysisRun} (token : Uuid)
      (worker : String) (t : Time) (hi : d.incident = some inc) (hj : j ∈ d.jobs) (ht : j.type = .analyze)
      (hs : j.status = .pending)
      (hinc : inc.state = .received ∧ inc' = inc.moveTo .analyzing ∨ inc.state ≠ .received ∧ inc' = inc)
      (hruns : d.analysisRuns ≠ [] ∧ runs = d.analysisRuns ∨ d.analysisRuns = [] ∧
        ∃ settings env policy, runs = [firstRun settings env inc policy]) :
      Move R d { d with incident := some inc'
                        jobs := replace (j.claimed token worker t) d.jobs
                        analysisRuns := runs }
  /-- A claim of the PATCH job, which takes an incident under validation back to patching. -/
  | claimedPatch {d : Dossier} {inc inc' : Incident} {j : Job} {p : PatchRun} (token : Uuid) (worker : String)
      (t t' : Time) (hi : d.incident = some inc) (hj : j ∈ d.jobs) (ht : j.type = .patch)
      (hs : j.status = .pending) (hp : p ∈ d.patchRuns)
      (hinc : inc.state = .validating ∧ inc' = inc.moveTo .patching ∨ inc.state = .patching ∧ inc' = inc) :
      Move R d { d with incident := some inc'
                        jobs := replace (j.claimed token worker t) d.jobs
                        patchRuns := replace (p.started t') d.patchRuns }
  /-- A heartbeat. -/
  | renewed {d : Dossier} {j : Job} (t : Time) (hj : j ∈ d.jobs) (hs : j.status = .running) :
      Move R d { d with jobs := replace (j.renewed t) d.jobs }
  /-- A lost lease or a transient failure with attempts left: the incident and its runs stay. -/
  | requeued {d : Dossier} {j : Job} (code : Option String) (detail : Option PyStr) (t : Time) (hj : j ∈ d.jobs)
      (hs : j.status = .running) (ha : j.attempt < j.maxAttempts) :
      Move R d { d with jobs := replace (j.requeued code detail t) d.jobs }
  /-- The ANALYZE job ends. -/
  | endedAnalyze {d : Dossier} {inc : Incident} {j : Job} {r r' : AnalysisRun} (code : Option String)
      (detail : Option PyStr) (failed : Bool) (hi : d.incident = some inc) (hj : j ∈ d.jobs)
      (ht : j.type = .analyze) (hs : j.status = .running) (hr : r ∈ d.analysisRuns)
      (he : r.EndsAs r' (if failed then .failed else .succeeded)) :
      Move R d { d with incident := some (inc.moveTo (if failed then .analysisFailed else .awaitingApproval))
                        jobs := replace (j.ended code detail (if failed then .failed else .succeeded)) d.jobs
                        analysisRuns := replace r' d.analysisRuns }
  /-- The patch has passed the policy and its validation begins. -/
  | marked {d : Dossier} {inc : Incident} {j : Job} {p : PatchRun} (hi : d.incident = some inc) (hj : j ∈ d.jobs)
      (ht : j.type = .patch) (hs : j.status = .running) (hst : inc.state = .patching) (hp : p ∈ d.patchRuns) :
      Move R d { d with incident := some (inc.moveTo .validating)
                        patchRuns := replace p.validating d.patchRuns }
  /-- The approval of a successful analysis. -/
  | approved {d : Dossier} {inc : Incident} {r : AnalysisRun} (env : Env) (key : Uuid) (hi : d.incident = some inc)
      (hst : inc.state = .awaitingApproval) (hr : r ∈ d.analysisRuns) (hrs : r.status = .succeeded)
      (ha : d.approvals = []) (hp : d.patchRuns = []) (hj : ∀ j ∈ d.jobs, j.id ≠ env.uuid 2) :
      Move R d { d with incident := some (inc.moveTo .patching)
                        jobs := d.jobs ++ [newPatchJob env (newPatchRun env (newApproval env inc r key))]
                        approvals := [newApproval env inc r key]
                        patchRuns := [newPatchRun env (newApproval env inc r key)] }
  /-- The PATCH job ends. -/
  | endedPatch {d : Dossier} {inc : Incident} {j : Job} {p p' : PatchRun} (code : Option String)
      (detail : Option PyStr) (failed : Bool) (hi : d.incident = some inc) (hj : j ∈ d.jobs)
      (ht : j.type = .patch) (hs : j.status = .running) (hp : p ∈ d.patchRuns)
      (he : p.EndsAs p' (if failed then .patchFailed else .patchReady)) (hR : failed = false → R inc.state) :
      Move R d { d with incident := some (inc.moveTo (if failed then .patchFailed else .patchReady))
                        jobs := replace (j.ended code detail (if failed then .failed else .succeeded)) d.jobs
                        patchRuns := replace p' d.patchRuns }

/-! ## Agreement -/

end Dossier

/-- The bookkeeping of a job: its attempts stay within the limit, and it has a token and a lease exactly
while it runs. -/
structure Job.Sound (j : Job) : Prop where
  limit : j.maxAttempts = Limits.maxAttempts
  pending : j.status = .pending → j.attempt < Limits.maxAttempts
  running : j.status = .running → 1 ≤ j.attempt
  attempts : j.attempt ≤ Limits.maxAttempts
  token : j.claimToken.isSome ↔ j.status = .running
  lease : j.lockedAt.isSome ↔ j.status = .running

/-- A job that does the work of `type` for incident `i`. -/
structure Job.Serves (j : Job) (type : JobType) (key : DedupKey) (i : Uuid) : Prop where
  type : j.type = type
  key : j.deduplicationKey = key
  incident : j.incidentId = i
  sound : j.Sound

/-- A run with the commit and the input event of its incident and a policy. -/
structure AnalysisRun.Freezes (r : AnalysisRun) (inc : Incident) : Prop where
  incident : r.incidentId = inc.id
  sha : r.baseCommitSha = inc.baseCommitSha
  input : r.inputErrorEventId = inc.firstErrorEventId
  policy : r.policySnapshot.truthy = true

/-- An approval of the incident's run at the incident's commit. -/
structure Approval.Approves (a : Approval) (r : AnalysisRun) (inc : Incident) : Prop where
  incident : a.incidentId = inc.id
  run : a.analysisRunId = r.id
  sha : a.baseCommitSha = inc.baseCommitSha

structure PatchRun.Follows (p : PatchRun) (a : Approval) (inc : Incident) : Prop where
  incident : p.incidentId = inc.id
  approval : p.approvalId = a.id
  sha : p.baseCommitSha = inc.baseCommitSha

theorem AnalysisRun.Freezes.same {r : AnalysisRun} {inc inc' : Incident} (h : r.Freezes inc)
    (hs : inc.SameCase inc') : r.Freezes inc' :=
  ⟨h.incident.trans hs.id.symm, h.sha.trans hs.sha.symm, h.input.trans hs.input.symm, h.policy⟩

theorem Approval.Approves.same {a : Approval} {r : AnalysisRun} {inc inc' : Incident} (h : a.Approves r inc)
    (hs : inc.SameCase inc') : a.Approves r inc' :=
  ⟨h.incident.trans hs.id.symm, h.run, h.sha.trans hs.sha.symm⟩

theorem PatchRun.Follows.same {p : PatchRun} {a : Approval} {inc inc' : Incident} (h : p.Follows a inc)
    (hs : inc.SameCase inc') : p.Follows a inc' :=
  ⟨h.incident.trans hs.id.symm, h.approval, h.sha.trans hs.sha.symm⟩

namespace Dossier

/-- The rows of an incident agree, stage by stage. -/
inductive Ok : Dossier → Prop
  | absent : Ok ⟨none, [], [], [], []⟩
  | received {inc : Incident} {ja : Job} (hs : inc.state = .received) (hv : inc.version = 1)
      (ha : ja.Serves .analyze (.analyze inc.id) inc.id) (hst : ja.status = .pending) (h0 : ja.attempt = 0) :
      Ok ⟨some inc, [ja], [], [], []⟩
  | analyzing {inc : Incident} {ja : Job} {r : AnalysisRun} (hs : inc.state = .analyzing) (hv : inc.version = 2)
      (ha : ja.Serves .analyze (.analyze inc.id) inc.id) (hst : ja.status = .pending ∨ ja.status = .running)
      (h1 : 1 ≤ ja.attempt) (hr : r.Freezes inc) (hrs : r.status = .running) : Ok ⟨some inc, [ja], [r], [], []⟩
  | analyzed {inc : Incident} {ja : Job} {r : AnalysisRun} (failed : Bool)
      (hs : inc.state = if failed then .analysisFailed else .awaitingApproval) (hv : inc.version = 3)
      (ha : ja.Serves .analyze (.analyze inc.id) inc.id) (hst : ja.status = if failed then .failed else .succeeded)
      (hr : r.Freezes inc) (hrs : r.status = if failed then .failed else .succeeded) :
      Ok ⟨some inc, [ja], [r], [], []⟩
  | patching {inc : Incident} {ja jp : Job} {r : AnalysisRun} {a : Approval} {p : PatchRun}
      (hs : inc.state = .patching ∧ (p.status = .pending ∨ p.status = .running) ∧
          inc.version ≤ 4 + 2 * (jp.attempt - 1) ∨
        inc.state = .validating ∧ p.status = .validating ∧ 1 ≤ jp.attempt ∧ inc.version ≤ 5 + 2 * (jp.attempt - 1))
      (ha : ja.Serves .analyze (.analyze inc.id) inc.id) (hst : ja.status = .succeeded)
      (hr : r.Freezes inc) (hrs : r.status = .succeeded) (hap : a.Approves r inc) (hp : p.Follows a inc)
      (hj : jp.Serves .patch (.patch a.id) inc.id) (hjs : jp.status = .pending ∨ jp.status = .running)
      (hne : ja.id ≠ jp.id) :
      Ok ⟨some inc, [ja, jp], [r], [a], [p]⟩
  | patched {inc : Incident} {ja jp : Job} {r : AnalysisRun} {a : Approval} {p : PatchRun} (failed : Bool)
      (hs : inc.state = if failed then .patchFailed else .patchReady)
      (hps : p.status = if failed then .patchFailed else .patchReady)
      (hv : inc.version ≤ 4 + 2 * Limits.maxAttempts)
      (ha : ja.Serves .analyze (.analyze inc.id) inc.id) (hst : ja.status = .succeeded)
      (hr : r.Freezes inc) (hrs : r.status = .succeeded) (hap : a.Approves r inc) (hp : p.Follows a inc)
      (hj : jp.Serves .patch (.patch a.id) inc.id) (hjs : jp.status = if failed then .failed else .succeeded)
      (hne : ja.id ≠ jp.id) :
      Ok ⟨some inc, [ja, jp], [r], [a], [p]⟩

end Dossier

/-! ## Moves keep the agreement -/

section Jobs

variable {j : Job} {type : JobType} {key : DedupKey} {i : Uuid}

theorem Job.Sound.claimed (h : j.Sound) (hs : j.status = .pending) (token : Uuid) (worker : String) (t : Time) :
    (j.claimed token worker t).Sound :=
  ⟨h.limit, by simp [Job.claimed], by simp [Job.claimed], h.pending hs, by simp [Job.claimed], by simp [Job.claimed]⟩

theorem Job.Sound.renewed (h : j.Sound) (hs : j.status = .running) (t : Time) : (j.renewed t).Sound :=
  ⟨h.limit, h.pending, h.running, h.attempts, h.token, by simp [Job.renewed, hs]⟩

theorem Job.Sound.requeued (h : j.Sound) (ha : j.attempt < j.maxAttempts) (code : Option String)
    (detail : Option PyStr) (t : Time) : (j.requeued code detail t).Sound :=
  ⟨h.limit, fun _ => h.limit ▸ ha, by simp [Job.requeued], h.attempts, by simp [Job.requeued, Job.released],
    by simp [Job.requeued, Job.released]⟩

theorem Job.Sound.ended (h : j.Sound) (code : Option String) (detail : Option PyStr) (failed : Bool) :
    (j.ended code detail (if failed then .failed else .succeeded)).Sound := by
  cases failed <;>
    exact ⟨h.limit, by simp [Job.ended], by simp [Job.ended], h.attempts, by simp [Job.ended, Job.released],
      by simp [Job.ended, Job.released]⟩

theorem Job.Serves.claimed (h : j.Serves type key i) (hs : j.status = .pending) (token : Uuid) (worker : String)
    (t : Time) : (j.claimed token worker t).Serves type key i :=
  ⟨h.type, h.key, h.incident, h.sound.claimed hs token worker t⟩

theorem Job.Serves.renewed (h : j.Serves type key i) (hs : j.status = .running) (t : Time) :
    (j.renewed t).Serves type key i :=
  ⟨h.type, h.key, h.incident, h.sound.renewed hs t⟩

theorem Job.Serves.requeued (h : j.Serves type key i) (ha : j.attempt < j.maxAttempts) (code : Option String)
    (detail : Option PyStr) (t : Time) : (j.requeued code detail t).Serves type key i :=
  ⟨h.type, h.key, h.incident, h.sound.requeued ha code detail t⟩

theorem Job.Serves.ended (h : j.Serves type key i) (code : Option String) (detail : Option PyStr) (failed : Bool) :
    (j.ended code detail (if failed then .failed else .succeeded)).Serves type key i :=
  ⟨h.type, h.key, h.incident, h.sound.ended code detail failed⟩

theorem newAnalyzeJob_serves (env : Env) (i : Uuid) : (newAnalyzeJob env i).Serves .analyze (.analyze i) i :=
  ⟨rfl, rfl, rfl, rfl, by simp [newAnalyzeJob, Limits.maxAttempts], by simp [newAnalyzeJob], by simp [newAnalyzeJob],
    by simp [newAnalyzeJob], by simp [newAnalyzeJob]⟩

theorem newPatchJob_serves (env : Env) (p : PatchRun) :
    (newPatchJob env p).Serves .patch (.patch p.approvalId) p.incidentId :=
  ⟨rfl, rfl, rfl, rfl, by simp [newPatchJob, Limits.maxAttempts], by simp [newPatchJob], by simp [newPatchJob],
    by simp [newPatchJob], by simp [newPatchJob]⟩

end Jobs

theorem firstRun_freezes (settings : Settings) (env : Env) (inc : Incident) (policy : ServicePolicy) :
    (firstRun settings env inc policy).Freezes inc :=
  ⟨rfl, rfl, rfl, settings.snapshot_truthy policy inc.repositoryPathSnapshot⟩

theorem AnalysisRun.SameRun.freezes {r r' : AnalysisRun} {inc : Incident} (same : r.SameRun r')
    (h : r.Freezes inc) : r'.Freezes inc :=
  ⟨same.incident.trans h.incident, same.sha.trans h.sha, same.input.trans h.input, same.policy ▸ h.policy⟩

theorem PatchRun.SamePatch.follows {p p' : PatchRun} {a : Approval} {inc : Incident} (same : p.SamePatch p')
    (h : p.Follows a inc) : p'.Follows a inc :=
  ⟨same.incident.trans h.incident, same.approval.trans h.approval, same.sha.trans h.sha⟩

namespace Dossier

theorem Ok.counted {d : Dossier} {inc : Incident} (h : d.Ok) (hi : d.incident = some inc) :
    Ok { d with incident := some inc.counted } := by
  have same := inc.sameCase_counted
  cases h with
  | absent => cases hi
  | received hs hv ha hst h0 => cases hi; exact .received hs hv ha hst h0
  | analyzing hs hv ha hst h1 hr hrs => cases hi; exact .analyzing hs hv ha hst h1 (hr.same same) hrs
  | analyzed failed hs hv ha hst hr hrs => cases hi; exact .analyzed failed hs hv ha hst (hr.same same) hrs
  | patching hs ha hst hr hrs hap hp hj hjs hne =>
    cases hi
    exact .patching hs ha hst (hr.same same) hrs (hap.same same) (hp.same same) hj hjs hne
  | patched failed hs hps hv ha hst hr hrs hap hp hj hjs hne =>
    cases hi
    exact .patched failed hs hps hv ha hst (hr.same same) hrs (hap.same same) (hp.same same) hj hjs hne

/-- The unique columns of the dossiers: what an approval inserts clashes with nothing. -/
theorem Ok.keys {d : Dossier} (h : d.Ok) :
    (∀ p ∈ d.patchRuns, ∃ a ∈ d.approvals, p.approvalId = a.id) ∧
      ∀ j ∈ d.jobs, ∀ k, j.deduplicationKey = .patch k → ∃ a ∈ d.approvals, k = a.id := by
  cases h with
  | absent => simp
  | received _ _ ha | analyzing _ _ ha | analyzed _ _ _ ha => simp [ha.key]
  | patching _ ha _ _ _ _ hp hj | patched _ _ _ _ ha _ _ _ _ hp hj =>
    simp only [List.mem_cons, List.not_mem_nil, or_false, forall_eq_or_imp, forall_eq, exists_eq_left, hp.approval,
      ha.key, hj.key, DedupKey.patch.injEq, reduceCtorEq, false_imp_iff, implies_true, true_and]
    exact fun k hk => hk.symm

/-- A waiting or running ANALYZE job belongs to an incident that is not analyzed yet. -/
theorem Ok.analyze_active {d : Dossier} {j : Job} (h : d.Ok) (hj : j ∈ d.jobs) (ht : j.type = .analyze)
    (hs : j.status = .pending ∨ j.status = .running) :
    (∃ inc, d = ⟨some inc, [j], [], [], []⟩ ∧ inc.state = .received ∧ inc.version = 1 ∧
      j.Serves .analyze (.analyze inc.id) inc.id ∧ j.status = .pending ∧ j.attempt = 0) ∨
    (∃ inc r, d = ⟨some inc, [j], [r], [], []⟩ ∧ inc.state = .analyzing ∧ inc.version = 2 ∧
      j.Serves .analyze (.analyze inc.id) inc.id ∧ 1 ≤ j.attempt ∧ r.Freezes inc ∧ r.status = .running) := by
  cases h with
  | absent => simp at hj
  | received hst hv ha hp h0 =>
    obtain rfl := List.mem_singleton.mp hj
    exact Or.inl ⟨_, rfl, hst, hv, ha, hp, h0⟩
  | analyzing hst hv ha _ h1 hr hrs =>
    obtain rfl := List.mem_singleton.mp hj
    exact Or.inr ⟨_, _, rfl, hst, hv, ha, h1, hr, hrs⟩
  | analyzed failed _ _ _ hp =>
    obtain rfl := List.mem_singleton.mp hj
    cases failed <;> simp_all
  | patching _ ha hp _ _ _ _ hjp =>
    rcases List.mem_pair.mp hj with rfl | rfl
    · simp_all
    · cases hjp.type.symm.trans ht
  | patched failed _ _ _ ha hp _ _ _ _ hjp =>
    rcases List.mem_pair.mp hj with rfl | rfl
    · simp_all
    · cases hjp.type.symm.trans ht

/-- A waiting or running PATCH job belongs to an incident that is being patched or validated. -/
theorem Ok.patch_active {d : Dossier} {j : Job} (h : d.Ok) (hj : j ∈ d.jobs) (ht : j.type = .patch)
    (hs : j.status = .pending ∨ j.status = .running) :
    ∃ inc ja r a p, d = ⟨some inc, [ja, j], [r], [a], [p]⟩ ∧
      (inc.state = .patching ∧ (p.status = .pending ∨ p.status = .running) ∧
          inc.version ≤ 4 + 2 * (j.attempt - 1) ∨
        inc.state = .validating ∧ p.status = .validating ∧ 1 ≤ j.attempt ∧ inc.version ≤ 5 + 2 * (j.attempt - 1)) ∧
      ja.Serves .analyze (.analyze inc.id) inc.id ∧ ja.status = .succeeded ∧ r.Freezes inc ∧
      r.status = .succeeded ∧ a.Approves r inc ∧ p.Follows a inc ∧ j.Serves .patch (.patch a.id) inc.id ∧
      ja.id ≠ j.id := by
  cases h with
  | absent => simp at hj
  | received _ _ ha =>
    obtain rfl := List.mem_singleton.mp hj
    cases ha.type.symm.trans ht
  | analyzing _ _ ha =>
    obtain rfl := List.mem_singleton.mp hj
    cases ha.type.symm.trans ht
  | analyzed _ _ _ ha =>
    obtain rfl := List.mem_singleton.mp hj
    cases ha.type.symm.trans ht
  | patching hst ha hp hr hrs hap hpf hjp _ hne =>
    rcases List.mem_pair.mp hj with rfl | rfl
    · cases ha.type.symm.trans ht
    · exact ⟨_, _, _, _, _, rfl, hst, ha, hp, hr, hrs, hap, hpf, hjp, hne⟩
  | patched failed _ _ _ ha _ _ _ _ _ hjp hjs =>
    rcases List.mem_pair.mp hj with rfl | rfl
    · cases ha.type.symm.trans ht
    · cases failed <;> simp_all

/-- A running job may change while the incident and its runs stay, as long as it still serves. -/
theorem Ok.rejob {d : Dossier} {j j' : Job} (hd : d.Ok) (hj : j ∈ d.jobs) (hs : j.status = .running)
    (same : j.SameJob j') (hattempt : j'.attempt = j.attempt) (hs' : j'.status = .pending ∨ j'.status = .running)
    (hserves : ∀ {type key i}, j.Serves type key i → j'.Serves type key i) :
    Ok { d with jobs := replace j' d.jobs } := by
  cases ht : j.type with
  | analyze =>
    rcases hd.analyze_active hj ht (Or.inr hs) with
      ⟨inc, rfl, -, -, -, hp, -⟩ | ⟨inc, r, rfl, hst, hv, ha, h1, hr, hrs⟩
    · cases hs.symm.trans hp
    · dsimp only
      rw [replace_one same.id]
      exact .analyzing hst hv (hserves ha) hs' (hattempt ▸ h1) hr hrs
  | patch =>
    obtain ⟨inc, ja, r, a, p, rfl, hst, ha, hjs, hr, hrs, hap, hpf, hj, hne⟩ := hd.patch_active hj ht (Or.inr hs)
    dsimp only
    rw [replace_second same.id hne]
    rw [← hattempt] at hst
    exact .patching hst ha hjs hr hrs hap hpf (hserves hj) hs' (same.id ▸ hne)

/-- **Moves keep the rows of an incident in agreement.** -/
theorem Move.ok {R : IncidentState → Prop} {d d' : Dossier} (h : d.Move R d') (hd : d.Ok) : d'.Ok := by
  cases h with
  | opened env intake fingerprint sha row hn =>
    cases hd with
    | absent => exact .received rfl rfl (newAnalyzeJob_serves env _) rfl rfl
    | _ => cases hn
  | counted hi _ => exact hd.counted hi
  | @claimedAnalyze inc inc' j runs token worker t hi hj ht hs hinc hruns =>
    rcases hd.analyze_active hj ht (Or.inl hs) with
      ⟨inc, rfl, hst, hv, hserves, -, h0⟩ | ⟨inc, r, rfl, hst, hv, hserves, h1, hr, hrs⟩
    · cases hi
      obtain ⟨-, rfl⟩ : inc.state = .received ∧ inc' = inc.moveTo .analyzing := by simpa [hst] using hinc
      obtain ⟨settings, env, policy, rfl⟩ : ∃ settings env policy, runs = [firstRun settings env inc policy] := by
        simpa using hruns
      dsimp only
      rw [replace_one (j.sameJob_claimed token worker t).id]
      exact .analyzing rfl (by simp [Incident.moveTo, hv]) (hserves.claimed hs token worker t) (Or.inr rfl)
        (Nat.succ_pos _) ((firstRun_freezes settings env inc policy).same (inc.sameCase_moveTo _)) rfl
    · cases hi
      obtain rfl : inc' = inc := by simpa [hst] using hinc
      obtain rfl : runs = [r] := by simpa using hruns
      dsimp only
      rw [replace_one (j.sameJob_claimed token worker t).id]
      exact .analyzing hst hv (hserves.claimed hs token worker t) (Or.inr rfl) (Nat.succ_pos _) hr hrs
  | @claimedPatch inc inc' j p token worker t t' hi hj ht hs hp hinc =>
    obtain ⟨inc, ja, r, a, p, rfl, hst, ha, hjs, hr, hrs, hap, hpf, hserves, hne⟩ := hd.patch_active hj ht (Or.inl hs)
    cases hi
    obtain rfl := List.mem_singleton.mp hp
    dsimp only
    rw [replace_second (j.sameJob_claimed token worker t).id hne, replace_one (p.samePatch_started t').id]
    have hpf' := (p.samePatch_started t').follows hpf
    have hserves' := hserves.claimed hs token worker t
    rcases hinc with ⟨hv, rfl⟩ | ⟨hpt, rfl⟩
    · obtain ⟨-, -, h1, hver⟩ : inc.state = .validating ∧ p.status = .validating ∧ 1 ≤ j.attempt ∧
          inc.version ≤ 5 + 2 * (j.attempt - 1) := by simpa [hv] using hst
      have same := inc.sameCase_moveTo .patching
      refine .patching (Or.inl ⟨rfl, Or.inr rfl, ?_⟩) ha hjs (hr.same same) hrs (hap.same same) (hpf'.same same)
        hserves' (Or.inr rfl) hne
      simp only [Incident.moveTo, Job.claimed]
      omega
    · obtain ⟨-, -, hver⟩ : inc'.state = .patching ∧ (p.status = .pending ∨ p.status = .running) ∧
          inc'.version ≤ 4 + 2 * (j.attempt - 1) := by simpa [hpt] using hst
      refine .patching (Or.inl ⟨hpt, Or.inr rfl, ?_⟩) ha hjs hr hrs hap hpf' hserves' (Or.inr rfl) hne
      simp only [Job.claimed]
      omega
  | @renewed j t hj hs => exact hd.rejob hj hs (j.sameJob_renewed t) rfl (Or.inr hs) fun h => h.renewed hs t
  | @requeued j code detail t hj hs hlt =>
    exact hd.rejob hj hs (j.sameJob_requeued code detail t) rfl (Or.inl rfl) fun h => h.requeued hlt code detail t
  | @endedAnalyze inc j r r' code detail failed hi hj ht hs hr he =>
    rcases hd.analyze_active hj ht (Or.inr hs) with
      ⟨inc, rfl, -, -, -, hp, -⟩ | ⟨inc, r, rfl, hst, hv, hserves, h1, hf, hrs⟩
    · cases hs.symm.trans hp
    · cases hi
      obtain rfl := List.mem_singleton.mp hr
      dsimp only
      rw [replace_one (j.sameJob_ended code detail _).id, replace_one he.same.id]
      exact .analyzed failed rfl (by simp [Incident.moveTo, hv]) (hserves.ended code detail failed) rfl
        ((he.same.freezes hf).same (inc.sameCase_moveTo _)) he.status
  | @marked inc j p hi hj ht hs hst hp =>
    obtain ⟨inc, ja, r, a, p, rfl, hst', ha, hjs, hr, hrs, hap, hpf, hserves, hne⟩ :=
      hd.patch_active hj ht (Or.inr hs)
    cases hi
    obtain rfl := List.mem_singleton.mp hp
    obtain ⟨-, -, hver⟩ : inc.state = .patching ∧ (p.status = .pending ∨ p.status = .running) ∧
      inc.version ≤ 4 + 2 * (j.attempt - 1) := by simpa [hst] using hst'
    dsimp only
    rw [replace_one p.samePatch_validating.id]
    have same := inc.sameCase_moveTo .validating
    have hpf' := p.samePatch_validating.follows hpf
    refine .patching (Or.inr ⟨rfl, rfl, hserves.sound.running hs, ?_⟩) ha hjs (hr.same same) hrs (hap.same same)
      (hpf'.same same) hserves (Or.inr hs) hne
    simp only [Incident.moveTo]
    omega
  | @approved inc r env key hi hst hr hrs ha hp hj =>
    cases hd with
    | absent => cases hi
    | received hs => cases hi; cases hst.symm.trans hs
    | analyzing hs => cases hi; cases hst.symm.trans hs
    | @analyzed _ ja r failed hs hv hja hjs hf hrs' =>
      cases hi
      obtain rfl := List.mem_singleton.mp hr
      have same := inc.sameCase_moveTo .patching
      have hjs' : ja.status = .succeeded := by cases failed <;> simp_all
      refine .patching (Or.inl ⟨rfl, Or.inl rfl, ?_⟩) hja hjs' (hf.same same) hrs ⟨rfl, rfl, rfl⟩ ⟨rfl, rfl, rfl⟩
        (newPatchJob_serves env _) (Or.inl rfl) (hj ja (List.mem_singleton_self ja))
      simp [Incident.moveTo, hv]
    | patching => cases ha
    | patched => cases ha
  | @endedPatch inc j p p' code detail failed hi hj ht hs hp he _ =>
    obtain ⟨inc, ja, r, a, p, rfl, hst, ha, hjs, hr, hrs, hap, hpf, hserves, hne⟩ :=
      hd.patch_active hj ht (Or.inr hs)
    cases hi
    obtain rfl := List.mem_singleton.mp hp
    have hpf' := he.same.follows hpf
    dsimp only
    rw [replace_second (j.sameJob_ended code detail _).id hne, replace_one he.same.id]
    have same := inc.sameCase_moveTo (if failed then .patchFailed else .patchReady)
    refine .patched failed rfl he.status ?_ ha hjs (hr.same same) hrs (hap.same same) (hpf'.same same)
      (hserves.ended code detail failed) rfl hne
    have hmax := hserves.sound.attempts
    simp only [Incident.moveTo, Limits.maxAttempts] at hmax ⊢
    rcases hst with ⟨-, -, hver⟩ | ⟨-, -, -, hver⟩ <;> omega

end Dossier

/-! ## What a move does to each row -/

/-- The transitions of an incident. -/
inductive IncidentState.Next (R : IncidentState → Prop) : IncidentState → IncidentState → Prop
  | claimed : Next R .received .analyzing
  | analyzed : Next R .analyzing .awaitingApproval
  | analysisFailed : Next R .analyzing .analysisFailed
  | approved : Next R .awaitingApproval .patching
  | marked : Next R .patching .validating
  | reclaimed : Next R .validating .patching
  | patchFailed (s : IncidentState) (h : s = .patching ∨ s = .validating) : Next R s .patchFailed
  | patchReady (s : IncidentState) (h : s = .patching ∨ s = .validating) (hR : R s) : Next R s .patchReady

/-- One row after a replacement of another version of `y`. -/
theorem Table.mem_replace_same {ρ κ : Type} [Keyed ρ κ] [DecidableEq κ] {l : List ρ} {x y z : ρ} {R : ρ → ρ → Prop}
    (hn : (l.map Keyed.key).Nodup) (hy : y ∈ l) (hk : Keyed.key x = Keyed.key y) (hx : R y x) (hrefl : R z z)
    (hz : z ∈ l) : ∃ z' ∈ replace x l, R z z' := by
  by_cases hzx : Keyed.key z = Keyed.key x
  · obtain rfl : z = y := List.inj_on_of_nodup_map hn hz hy (hzx.trans hk)
    exact ⟨x, mem_replace.mpr (Or.inl ⟨rfl, z, hz, hzx⟩), hx⟩
  · exact ⟨z, mem_replace.mpr (Or.inr ⟨hz, hzx⟩), hrefl⟩

namespace Dossier

/-- No two rows of a dossier share a primary key. -/
structure Distinct (d : Dossier) : Prop where
  jobs : (d.jobs.map Keyed.key).Nodup
  analysisRuns : (d.analysisRuns.map Keyed.key).Nodup
  patchRuns : (d.patchRuns.map Keyed.key).Nodup

/-- A job stays and counts its attempts upwards; while it is over, its row does not change. -/
theorem Move.job {R : IncidentState → Prop} {d d' : Dossier} (h : d.Move R d') (hd : d.Distinct) {j : Job} (hj : j ∈ d.jobs) :
    ∃ j' ∈ d'.jobs, j.SameJob j' ∧ j.attempt ≤ j'.attempt ∧
      (j.status ≠ .pending → j.status ≠ .running → j' = j) := by
  have stays : ∃ j' ∈ d.jobs, j.SameJob j' ∧ j.attempt ≤ j'.attempt ∧
      (j.status ≠ .pending → j.status ≠ .running → j' = j) :=
    ⟨j, hj, .refl j, le_rfl, fun _ _ => rfl⟩
  have replaced : ∀ {y x : Job}, y ∈ d.jobs → y.SameJob x → y.attempt ≤ x.attempt →
      y.status = .pending ∨ y.status = .running → ∃ j' ∈ replace x d.jobs, j.SameJob j' ∧ j.attempt ≤ j'.attempt ∧
        (j.status ≠ .pending → j.status ≠ .running → j' = j) := by
    intro y x hy same ha hs
    refine mem_replace_same (R := fun a b => a.SameJob b ∧ a.attempt ≤ b.attempt ∧
      (a.status ≠ .pending → a.status ≠ .running → b = a)) hd.jobs hy same.id ⟨same, ha, ?_⟩
      ⟨.refl j, le_rfl, fun _ _ => rfl⟩ hj
    intro hp hr
    rcases hs with hs | hs
    · exact absurd hs hp
    · exact absurd hs hr
  cases h with
  | opened | approved =>
    obtain ⟨j', hj', hR⟩ := stays
    exact ⟨j', List.mem_append_left _ hj', hR⟩
  | counted | marked => exact stays
  | claimedAnalyze token worker t _ hy _ hs | claimedPatch token worker t _ _ hy _ hs =>
    exact replaced hy (Job.sameJob_claimed _ token worker t) (Nat.le_succ _) (Or.inl hs)
  | renewed t hy hs => exact replaced hy (Job.sameJob_renewed _ t) le_rfl (Or.inr hs)
  | requeued code detail t hy hs => exact replaced hy (Job.sameJob_requeued _ code detail t) le_rfl (Or.inr hs)
  | endedAnalyze code detail failed _ hy _ hs | endedPatch code detail failed _ hy _ hs =>
    exact replaced hy (Job.sameJob_ended _ code detail _) le_rfl (Or.inr hs)

/-- What an analysis run freezes stays. -/
theorem Move.analysisRun {R : IncidentState → Prop} {d d' : Dossier} (h : d.Move R d') (hd : d.Distinct) {r : AnalysisRun}
    (hr : r ∈ d.analysisRuns) : ∃ r' ∈ d'.analysisRuns, r.SameRun r' := by
  cases h with
  | claimedAnalyze _ _ _ _ _ _ _ _ hruns =>
    rcases hruns with ⟨-, rfl⟩ | ⟨hn, -⟩
    · exact ⟨r, hr, .refl r⟩
    · rw [hn] at hr
      exact (List.not_mem_nil hr).elim
  | endedAnalyze code detail failed _ _ _ _ hy he =>
    exact mem_replace_same hd.analysisRuns hy he.same.id he.same (.refl r) hr
  | _ => exact ⟨r, hr, .refl r⟩

/-- Approvals stay as they are. -/
theorem Move.approval {R : IncidentState → Prop} {d d' : Dossier} (h : d.Move R d') {a : Approval} (ha : a ∈ d.approvals) :
    a ∈ d'.approvals := by
  cases h with
  | approved _ _ _ _ _ _ hn =>
    rw [hn] at ha
    exact (List.not_mem_nil ha).elim
  | _ => exact ha

theorem Move.patchRun {R : IncidentState → Prop} {d d' : Dossier} (h : d.Move R d') (hd : d.Distinct) {p : PatchRun} (hp : p ∈ d.patchRuns) :
    ∃ p' ∈ d'.patchRuns, p.SamePatch p' := by
  cases h with
  | approved _ _ _ _ _ _ _ hn =>
    rw [hn] at hp
    exact (List.not_mem_nil hp).elim
  | claimedPatch _ _ _ t' _ _ _ _ hy _ =>
    exact mem_replace_same hd.patchRuns hy (PatchRun.samePatch_started _ t').id (PatchRun.samePatch_started _ t')
      (.refl p) hp
  | marked _ _ _ _ _ hy =>
    exact mem_replace_same hd.patchRuns hy (PatchRun.samePatch_validating _).id (PatchRun.samePatch_validating _)
      (.refl p) hp
  | endedPatch code detail failed _ _ _ _ hy he _ =>
    exact mem_replace_same hd.patchRuns hy he.same.id he.same (.refl p) hp
  | _ => exact ⟨p, hp, .refl p⟩

/-- **An incident changes its state by a transition of the lifecycle with the next version, or keeps both.** -/
theorem Move.incident {R : IncidentState → Prop} {d d' : Dossier} (h : d.Move R d') (hd : d.Ok) {inc : Incident} (hi : d.incident = some inc) :
    ∃ inc', d'.incident = some inc' ∧ inc.SameCase inc' ∧
      ((inc'.state = inc.state ∧ inc'.version = inc.version) ∨
        (inc.state.Next R inc'.state ∧ inc'.version = inc.version + 1)) := by
  have stays : ∃ inc', d.incident = some inc' ∧ inc.SameCase inc' ∧
      ((inc'.state = inc.state ∧ inc'.version = inc.version) ∨
        (inc.state.Next R inc'.state ∧ inc'.version = inc.version + 1)) :=
    ⟨inc, hi, .refl inc, Or.inl ⟨rfl, rfl⟩⟩
  have moves : ∀ {s : IncidentState}, inc.state.Next R s → ∃ inc', some (inc.moveTo s) = some inc' ∧
      inc.SameCase inc' ∧ ((inc'.state = inc.state ∧ inc'.version = inc.version) ∨
        (inc.state.Next R inc'.state ∧ inc'.version = inc.version + 1)) :=
    fun hn => ⟨_, rfl, inc.sameCase_moveTo _, Or.inr ⟨hn, rfl⟩⟩
  cases h with
  | opened _ _ _ _ _ hn => cases hn.symm.trans hi
  | counted hi' _ =>
    obtain rfl := Option.some.inj (hi.symm.trans hi')
    exact ⟨_, rfl, inc.sameCase_counted, Or.inl ⟨rfl, rfl⟩⟩
  | claimedAnalyze _ _ _ hi' _ _ _ hinc _ =>
    obtain rfl := Option.some.inj (hi.symm.trans hi')
    rcases hinc with ⟨hs, rfl⟩ | ⟨-, rfl⟩
    · exact moves (hs ▸ .claimed)
    · exact ⟨_, rfl, .refl _, Or.inl ⟨rfl, rfl⟩⟩
  | claimedPatch _ _ _ _ hi' _ _ _ _ hinc =>
    obtain rfl := Option.some.inj (hi.symm.trans hi')
    rcases hinc with ⟨hs, rfl⟩ | ⟨-, rfl⟩
    · exact moves (hs ▸ .reclaimed)
    · exact ⟨_, rfl, .refl _, Or.inl ⟨rfl, rfl⟩⟩
  | renewed | requeued => exact stays
  | endedAnalyze code detail failed hi' hj ht hs _ _ =>
    obtain rfl := Option.some.inj (hi.symm.trans hi')
    have hst : inc.state = .analyzing := by
      rcases hd.analyze_active hj ht (Or.inr hs) with ⟨_, rfl, -, -, -, hp, -⟩ | ⟨_, _, rfl, hst, -⟩
      · cases hs.symm.trans hp
      · cases hi
        exact hst
    cases failed
    · exact moves (hst ▸ .analyzed)
    · exact moves (hst ▸ .analysisFailed)
  | marked hi' _ _ _ hst _ =>
    obtain rfl := Option.some.inj (hi.symm.trans hi')
    exact moves (hst ▸ .marked)
  | approved _ _ hi' hst =>
    obtain rfl := Option.some.inj (hi.symm.trans hi')
    exact moves (hst ▸ .approved)
  | endedPatch code detail failed hi' hj ht hs _ _ hR =>
    obtain rfl := Option.some.inj (hi.symm.trans hi')
    have hst : inc.state = .patching ∨ inc.state = .validating := by
      obtain ⟨_, _, _, _, _, rfl, hst, -⟩ := hd.patch_active hj ht (Or.inr hs)
      cases hi
      exact hst.imp (·.1) (·.1)
    cases failed
    · exact moves (.patchReady _ hst (hR rfl))
    · exact moves (.patchFailed _ hst)

end Dossier

theorem Store.dossier_distinct (db : Store) (i : Uuid) : (db.dossier i).Distinct :=
  ⟨select_nodup _ _, select_nodup _ _, select_nodup _ _⟩

end Aeh
