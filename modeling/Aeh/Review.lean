import Aeh.Acceptance
import Aeh.Frozen
import Aeh.Listing
import Aeh.Redaction
import Aeh.RunStep

/-!
# Review — the answers of the read side

The responses of `aeh/service.py`, the page of `aeh/review_service.py` and the `GET` routes.  A session asks its queries
one after the other, and other sessions commit between them, so each query has a store of its own: a `View`.  An object
the session holds already is not read again; its query then shows an older store.

The reads of one incident do not fail inside (`Sys.reads_answer`): what a later query looks for is there since the first
one, and what is stored can be shown.
-/

namespace Aeh

/-- The store each query of a session sees. -/
abbrev View := ℕ → Store

/-- The queries after the first `n`. -/
def View.after (db : View) (n : ℕ) : View := fun k => db (n + k)

/-! ## `ReviewRepository` -/

namespace ReviewRepository

def incident (db : Store) (incidentId : Uuid) : Option Incident := db.incidents.get incidentId

def firstEvent (db : Store) (incident : Incident) : Option ErrorEvent := db.errorEvents.get incident.firstErrorEventId

def analysis (db : Store) (incidentId : Uuid) : Option AnalysisRun := db.analysisRunOf incidentId

def approval (db : Store) (incidentId : Uuid) : Option Approval := IncidentRepository.approvalForIncident db incidentId

def patch (db : Store) (incidentId : Uuid) : Option PatchRun := db.patchRunOf incidentId

/-- `recent_occurrences`: the occurrences joined with their events, the newest first. -/
def recentOccurrences (db : Store) (incidentId : Uuid) (limit : ℕ) : List (Occurrence × ErrorEvent) :=
  (sortDesc (fun row => toLex (row.1.occurredAt.instant, row.1.id))
    ((db.occurrences.select fun o => o.incidentId = incidentId).filterMap fun o =>
      (db.errorEvents.get o.errorEventId).map fun e => (o, e))).take limit

end ReviewRepository

/-! ## Responses -/

/-- `snapshot.get(key, default)`. -/
def Json.getD (j : Json) (key : String) (default : Json) : Json := (j.get? key).getD default

structure PolicySummary where
  allowedPaths : Json
  deniedPaths : Json
  maxChangedFiles : Json
  maxDiffLines : Json
  /-- `id` and `timeoutSeconds` of each command. -/
  validationCommands : List (Json × Json)
  model : Json

/-- The summary of one validation command. -/
def commandSummary (command : Json) : Except Exn (Json × Json) := do
  let id ← command.getItem "id"
  let timeoutSeconds ← command.getItem "timeoutSeconds"
  .ok (id, timeoutSeconds)

/-- `policy_summary`. -/
def policySummary (snapshot : Json) : Except Exn PolicySummary :=
  match snapshot, snapshot.getD "validationCommands" (.arr []) with
  | .obj _, .arr commands => do
    let validationCommands ← commands.mapM commandSummary
    .ok
      { allowedPaths := snapshot.getD "allowedPaths" (.arr [])
        deniedPaths := snapshot.getD "deniedPaths" (.arr [])
        maxChangedFiles := snapshot.getD "maxChangedFiles" (.int 10)
        maxDiffLines := snapshot.getD "maxDiffLines" (.int 400)
        validationCommands := validationCommands
        model := snapshot.getD "model" (.str []) }
  | _, _ => .error .attributeError

structure AnalysisResponse where
  id : Uuid
  incidentId : Uuid
  status : RunStatus
  baseCommitSha : PyStr
  inputEventId : Uuid
  policySummary : PolicySummary
  codexThreadId : Option PyStr
  result : Option Json
  error : Option PyStr
  startedAt : Option Time
  finishedAt : Option Time

/-- `analysis_response`. -/
def analysisResponse (db : Store) (run : AnalysisRun) : Except Exn AnalysisResponse :=
  match db.errorEvents.get run.inputErrorEventId with
  | none => .error (aehError 500 "AEH-INTERNAL-500-001" "Analysis input event is missing")
  | some inputEvent => do
    let summary ← policySummary run.policySnapshot
    .ok
      { id := run.id, incidentId := run.incidentId, status := run.status, baseCommitSha := run.baseCommitSha
        inputEventId := inputEvent.eventId, policySummary := summary, codexThreadId := run.codexThreadId
        result := run.result, error := run.errorDetail, startedAt := run.startedAt, finishedAt := run.finishedAt }

structure PatchResponse where
  id : Uuid
  incidentId : Uuid
  status : PatchStatus
  baseCommitSha : PyStr
  changedFiles : List PyStr
  diff : Option PyStr
  validation : List Json
  error : Option PyStr

/-- `patch_response`. -/
def patchResponse (run : PatchRun) : PatchResponse :=
  { id := run.id, incidentId := run.incidentId, status := run.status, baseCommitSha := run.baseCommitSha
    changedFiles := run.changedFiles, diff := run.diffText, validation := run.validationResult, error := run.errorDetail }

/-- `incident_summary` where the key of the service is not given. -/
def incidentSummaryOf (db : Store) (incident : Incident) : Except Exn IncidentSummary :=
  match IncidentRepository.serviceById db incident.serviceId with
  | none => .error (aehError 500 "AEH-INTERNAL-500-001" "Incident service is missing")
  | some service => .ok (incidentSummary (incident, service.key))

structure IncidentDetail where
  summary : IncidentSummary
  version : ℕ
  environment : Json
  baseCommitSha : PyStr
  latestAnalysis : Option AnalysisResponse
  latestPatch : Option (Uuid × PatchStatus)

/-- `incident_detail`. -/
def incidentDetail (db : View) (incident : Incident) : Except Exn IncidentDetail :=
  match ReviewRepository.firstEvent (db 0) incident with
  | none => .error (aehError 500 "AEH-INTERNAL-500-001" "Incident input event is missing")
  | some event => do
    let analysis := ReviewRepository.analysis (db 1) incident.id
    let patch := ReviewRepository.patch (db 2) incident.id
    let summary ← incidentSummaryOf (db 3) incident
    let environment ← event.normalizedPayload.getItem "environment"
    let latestAnalysis ← analysis.mapM (analysisResponse (db 4))
    .ok
      { summary := summary, version := incident.version, environment := environment
        baseCommitSha := incident.baseCommitSha, latestAnalysis := latestAnalysis
        latestPatch := patch.map fun patch => (patch.id, patch.status) }

structure OccurrenceLine where
  eventId : Uuid
  occurredAt : PyStr
  message : Json

structure DetailPage where
  incident : IncidentDetail
  firstEvent : Json
  analysis : Option AnalysisResponse
  approval : Option Uuid
  patch : Option PatchResponse
  occurrences : List OccurrenceLine

/-- `detail_page`. -/
def detailPage (db : View) (incidentId : Uuid) : Except Exn DetailPage :=
  match ReviewRepository.incident (db 0) incidentId with
  | none => .error (aehError 404 "AEH-EVENT-404-001" "Incident not found")
  | some incident =>
    match ReviewRepository.firstEvent (db 1) incident with
    | none => .error (aehError 500 "AEH-INTERNAL-500-001" "Incident input event is missing")
    | some firstEvent => do
      let analysis := ReviewRepository.analysis (db 2) incidentId
      let approval := ReviewRepository.approval (db 3) incidentId
      let patch := ReviewRepository.patch (db 4) incidentId
      let occurrences := ReviewRepository.recentOccurrences (db 5) incidentId 20
      let detail ← incidentDetail (db.after 6) incident
      let analysis ← analysis.mapM (analysisResponse (db 11))
      .ok
        { incident := detail, firstEvent := firstEvent.normalizedPayload, analysis := analysis
          approval := approval.map Approval.id, patch := patch.map patchResponse
          occurrences := occurrences.map fun row =>
            { eventId := row.2.eventId, occurredAt := utc row.1.occurredAt
              message := row.2.normalizedPayload.getD "message" (.str []) } }

/-! ## The routes -/

/-- `GET /v1/incidents/{incident_id}`. -/
def getIncident (db : View) (incidentId : Uuid) : Except Exn IncidentDetail :=
  match (db 0).incidents.get incidentId with
  | none => .error (aehError 404 "AEH-EVENT-404-001" "Incident not found")
  | some row => incidentDetail (db.after 1) row

/-- `GET /v1/incidents/{incident_id}/analysis`. -/
def getAnalysis (db : View) (incidentId : Uuid) : Except Exn AnalysisResponse :=
  match (db 0).analysisRunOf incidentId with
  | none => .error (aehError 404 "AEH-EVENT-404-001" "Analysis not found")
  | some row => analysisResponse (db 1) row

/-- `GET /v1/incidents/{incident_id}/patch`. -/
def getPatch (db : View) (incidentId : Uuid) : Except Exn PatchResponse :=
  match (db 0).patchRunOf incidentId with
  | none => .error (aehError 404 "AEH-EVENT-404-001" "Patch not found")
  | some row => .ok (patchResponse row)

/-! ## What can be shown -/

/-- What a policy shows of itself. -/
def ServicePolicy.summary (policy : ServicePolicy) (settings : Settings) : PolicySummary :=
  { allowedPaths := strList policy.allowedPaths, deniedPaths := strList policy.deniedPaths
    maxChangedFiles := .int policy.maxChangedFiles, maxDiffLines := .int policy.maxDiffLines
    validationCommands := policy.validationCommands.map fun c => (.str c.id, .int c.timeoutSeconds)
    model := .str settings.codexModel }

theorem commandSummary_modelDump (c : ValidationCommand) :
    commandSummary c.modelDump = .ok (.str c.id, .int c.timeoutSeconds) := rfl

/-- A frozen policy is shown without its defaults. -/
theorem policySummary_snapshot (settings : Settings) (policy : ServicePolicy) (path : PyStr) :
    policySummary (settings.snapshot policy path) = .ok (policy.summary settings) := by
  have hcommands : (policy.validationCommands.map ValidationCommand.modelDump).mapM commandSummary =
      .ok (policy.validationCommands.map fun c => (Json.str c.id, Json.int c.timeoutSeconds)) := by
    induction policy.validationCommands with
    | nil => rfl
    | cons c cs ih =>
      rw [List.map_cons, List.mapM_cons, commandSummary_modelDump, ih]
      rfl
  show ((policy.validationCommands.map ValidationCommand.modelDump).mapM commandSummary >>= _) = _
  rw [hcommands]
  rfl

theorem analysisResponse_ok {db : Store} {run : AnalysisRun} {e : ErrorEvent} {summary : PolicySummary}
    (he : db.errorEvents.get run.inputErrorEventId = some e) (hs : policySummary run.policySnapshot = .ok summary) :
    ∃ answer, analysisResponse db run = .ok answer ∧ answer.id = run.id ∧ answer.policySummary = summary := by
  simp only [analysisResponse, he, hs]
  exact ⟨_, rfl, rfl, rfl⟩

/-- What the answers need of a store. -/
structure Store.Shown (db : Store) : Prop where
  environment : ∀ e ∈ db.errorEvents.rows, ∃ environment, e.normalizedPayload.get? "environment" = some environment
  service : ∀ inc ∈ db.incidents.rows, ∃ s ∈ db.services.rows, s.id = inc.serviceId
  policy : ∀ r ∈ db.analysisRuns.rows, ∃ settings policy path, r.policySnapshot = Settings.snapshot settings policy path

/-- What the schema requires. -/
def Libraries.RequiresEnvironment (libs : Libraries) : Prop :=
  ∀ fields, libs.iterErrors (.obj fields) = [] → ∃ environment, (Json.obj fields).get? "environment" = some environment

/-- A stored payload has the environment of its event. -/
theorem parseEvent_environment {libs : Libraries} (hl : libs.RequiresEnvironment) {raw : Bytes}
    {idempotencyKey : Option PyStr} {request : EventRequest} (h : parseEvent libs raw idempotencyKey = .ok request) :
    ∃ environment, request.normalized.get? "environment" = some environment := by
  unfold parseEvent at h
  split_ifs at h
  obtain ⟨event, -, h⟩ := bind_eq_ok.mp h
  split at h
  · rename_i fields
    obtain ⟨_, hschema, h⟩ := bind_eq_ok.mp h
    obtain ⟨_, -, h⟩ := bind_eq_ok.mp h
    obtain ⟨fingerprint, -, h⟩ := bind_eq_ok.mp h
    obtain ⟨_, -, h⟩ := bind_eq_ok.mp h
    obtain ⟨checksum, -, h⟩ := bind_eq_ok.mp h
    cases h
    have hnone : libs.iterErrors (.obj fields) = [] := by
      unfold checkSchema firstError at hschema
      split at hschema
      · cases hschema
      · rename_i hf
        have hperm := List.perm_insertionSort (fun a b : SchemaError => a.path ≤ b.path) (libs.iterErrors (.obj fields))
        rw [List.head?_eq_none_iff.mp hf] at hperm
        exact hperm.symm.eq_nil
    obtain ⟨environment, he⟩ := hl fields hnone
    refine ⟨redactField (lit "environment") environment, ?_⟩
    show (normalizedOf fields fingerprint).get? "environment" = _
    rw [normalizedOf_get? (by decide), he]
    rfl
  · cases h

/-- The body of every event has passed `parse_event`. -/
def Tx.Accepted (libs : Libraries) : Tx → Prop
  | .ingest _ request _ _ => ∃ raw idempotencyKey, parseEvent libs raw idempotencyKey = .ok request
  | _ => True

namespace Sys

variable {libs : Libraries} {s s' : Sys} {tx : Tx}

/-- The runs in which events come from `parse_event`. -/
def accepting (libs : Libraries) : Machine Sys Tx where
  init := Start
  step s tx s' := machine.step s tx s' ∧ tx.Accepted libs

theorem reachable_of_accepting (h : (accepting libs).Reachable s) : machine.Reachable s :=
  Machine.Reachable.map (M := machine) (N := accepting libs) id (fun _ h => h) (fun _ _ _ h hs => h.step hs.1) h

/-- A run keeps the identity of what it finds. -/
theorem keeps_of_accepting (h : (accepting libs).Reachable s) {tr : List (Entry Sys Tx)}
    (hr : (accepting libs).Run s tr s') : Keeps s.db s'.db :=
  Machine.Run.rel (R := fun a b => Keeps a.db b.db) (fun a => .refl a.db) (fun _ _ _ => Keeps.trans)
    (fun _ _ _ ha hs => (step_moves (inv_of_reachable (reachable_of_accepting ha)) hs.1).keeps
      (inv_of_reachable (reachable_of_accepting ha)).ok) h hr

theorem policy_step (h : machine.step s tx s')
    (hp : ∀ r ∈ s.db.analysisRuns.rows, ∃ settings policy path, r.policySnapshot = Settings.snapshot settings policy path) :
    ∀ r ∈ s'.db.analysisRuns.rows, ∃ settings policy path, r.policySnapshot = Settings.snapshot settings policy path := by
  intro r hr
  rcases analysisRun_step h hr with hr | hw
  · exact hp r hr
  · cases hw with
    | @first settings _ _ inc _ policy => exact ⟨settings, policy, _, rfl⟩
    | @expired _ _ run _ hr₀ => exact hp run hr₀
    | @finished _ _ _ _ run hr₀ => exact hp run hr₀

theorem shown_step (hl : libs.RequiresEnvironment) (h : machine.step s tx s') (ha : tx.Accepted libs) (hs : s.db.Shown) :
    s'.db.Shown := by
  by_cases hi : ∃ env request intake sha, tx = .ingest env request intake sha
  · obtain ⟨env, request, intake, sha, rfl⟩ := hi
    rcases ingest_step h with hdb | ⟨service, hm, occ, inc', -, hr⟩
    · rw [hdb]
      exact hs
    · refine ⟨fun e he => ?_, fun inc hinc => ?_, policy_step h hs.policy⟩
      · rcases (hr.events e).mp he with he | rfl
        · exact hs.environment e he
        · obtain ⟨raw, idempotencyKey, hparse⟩ := ha
          exact parseEvent_environment hl hparse
      · rw [hr.services]
        rcases (hr.incidents inc).mp hinc with rfl | ⟨hinc, -⟩
        · exact ⟨service, hm, hr.service⟩
        · exact hs.service inc hinc
  · have hq := quiet_step h fun env request intake sha he => hi ⟨env, request, intake, sha, he⟩
    refine ⟨fun e he => hs.environment e (hq.events ▸ he), fun inc' hi' => ?_, policy_step h hs.policy⟩
    obtain ⟨inc, hi, same⟩ := hq.back inc' hi'
    obtain ⟨service, hm, hid⟩ := hs.service inc hi
    obtain ⟨service', hm', hid', -⟩ := hq.services.kept service hm
    exact ⟨service', hm', hid'.trans (hid.trans same.same.service.symm)⟩

theorem shown_of_reachable (hl : libs.RequiresEnvironment) (h : (accepting libs).Reachable s) : s.db.Shown := by
  refine Machine.Reachable.invariant (M := accepting libs) (I := fun s => s.db.Shown) ?_
    (fun _ _ _ hs hstep => shown_step hl hstep.1 hstep.2 hs) h
  rintro _ ⟨services, -, rfl⟩
  exact ⟨nofun, nofun, nofun⟩

/-- The first query sees `s`, and every query the state after some run from there. -/
def Sees (libs : Libraries) (s : Sys) (db : View) : Prop :=
  db 0 = s.db ∧ ∀ k, ∃ t tr, (accepting libs).Run s tr t ∧ db k = t.db

variable {db : View} {i : Uuid} {inc : Incident}

/-- A query finds the incident a session has seen, with its first event and its service. -/
theorem Sees.incident (hv : Sees libs s db) (hl : libs.RequiresEnvironment) (h : (accepting libs).Reachable s)
    (hi : s.db.incidents.get i = some inc) (k : ℕ) :
    (∃ e, (db k).errorEvents.get inc.firstErrorEventId = some e ∧
      ∃ environment, e.normalizedPayload.get? "environment" = some environment) ∧
    ∃ service, IncidentRepository.serviceById (db k) inc.serviceId = some service := by
  obtain ⟨t, tr, hr, hk⟩ := hv.2 k
  have ht : (accepting libs).Reachable t := Machine.Reachable.run h hr
  have hshown := shown_of_reachable hl ht
  obtain ⟨inc', hi', same⟩ := (keeps_of_accepting h hr).incident i inc hi
  have hm' := (Table.get_eq_some.mp hi').1
  rw [hk]
  constructor
  · have hgrouped := (kept_of_reachable (reachable_of_accepting ht)).grouped
    obtain ⟨o, ho, -, hfirst⟩ := hgrouped.first inc' hm'
    obtain ⟨e, he, -, -, heid, -⟩ := hgrouped.attached o ho
    refine ⟨e, Table.get_eq_some.mpr ⟨he, heid.trans (hfirst.trans same.input)⟩, hshown.environment e he⟩
  · obtain ⟨service, hs, hid⟩ := hshown.service inc' hm'
    cases hf : IncidentRepository.serviceById t.db inc.serviceId with
    | some service' => exact ⟨service', rfl⟩
    | none => exact absurd (by simp [hid, same.service]) (Table.first_eq_none.mp hf service hs)

/-- A run a session has found can be shown with its frozen policy. -/
theorem Sees.analysis (hv : Sees libs s db) (hl : libs.RequiresEnvironment) (h : (accepting libs).Reachable s)
    (hi : s.db.incidents.get i = some inc) {j : ℕ} {run : AnalysisRun} (hr : (db j).analysisRunOf i = some run) (k : ℕ) :
    ∃ answer settings policy path, analysisResponse (db k) run = .ok answer ∧ answer.id = run.id ∧
      run.policySnapshot = Settings.snapshot settings policy path ∧ answer.policySummary = policy.summary settings := by
  obtain ⟨t, tr, hrun, hj⟩ := hv.2 j
  have ht : (accepting libs).Reachable t := Machine.Reachable.run h hrun
  rw [hj] at hr
  obtain ⟨hm, hri⟩ := analysisRunOf_some hr
  obtain ⟨settings, policy, path, hsnap⟩ := (shown_of_reachable hl ht).policy run hm
  obtain ⟨inc', hi', same⟩ := (keeps_of_accepting h hrun).incident i inc hi
  obtain ⟨inc'', hi'', -, hinput⟩ := (inv_of_reachable (reachable_of_accepting ht)).pinned.runSha run hm
  rw [hri] at hi''
  obtain rfl := Option.some.inj (hi'.symm.trans hi'')
  obtain ⟨⟨e, he, -⟩, -⟩ := hv.incident hl h hi k
  rw [← same.input, ← hinput] at he
  obtain ⟨answer, ha, hid, hsum⟩ := analysisResponse_ok he (hsnap ▸ policySummary_snapshot settings policy path)
  exact ⟨answer, settings, policy, path, ha, hid, hsnap, hsum⟩

theorem Sees.latest (hv : Sees libs s db) (hl : libs.RequiresEnvironment) (h : (accepting libs).Reachable s)
    (hi : s.db.incidents.get i = some inc) (j k : ℕ) :
    ∃ latest, (ReviewRepository.analysis (db j) i).mapM (analysisResponse (db k)) = .ok latest := by
  cases hr : ReviewRepository.analysis (db j) i with
  | none => exact ⟨none, rfl⟩
  | some run =>
    obtain ⟨answer, -, -, -, ha, -⟩ := hv.analysis hl h hi hr k
    refine ⟨some answer, ?_⟩
    show (some <$> analysisResponse (db k) run) = _
    rw [ha]
    rfl

/-- The detail of an incident a session has seen. -/
theorem Sees.detail (hv : Sees libs s db) (hl : libs.RequiresEnvironment) (h : (accepting libs).Reachable s)
    (hi : s.db.incidents.get i = some inc) (n : ℕ) :
    ∃ detail, incidentDetail (db.after n) inc = .ok detail ∧ detail.summary.id = i ∧ detail.version = inc.version ∧
      detail.baseCommitSha = inc.baseCommitSha := by
  have hid : inc.id = i := incident_id_of_get hi
  obtain ⟨⟨e, he, environment, henv⟩, -⟩ := hv.incident hl h hi (n + 0)
  obtain ⟨-, service, hservice⟩ := hv.incident hl h hi (n + 3)
  obtain ⟨latest, hlatest⟩ : ∃ latest, (ReviewRepository.analysis (db.after n 1) inc.id).mapM
      (analysisResponse (db.after n 4)) = .ok latest := hid ▸ hv.latest hl h hi (n + 1) (n + 4)
  have hfirst : ReviewRepository.firstEvent (db.after n 0) inc = some e := he
  have hsummary : incidentSummaryOf (db.after n 3) inc = .ok (incidentSummary (inc, service.key)) := by
    show (match IncidentRepository.serviceById (db (n + 3)) inc.serviceId with
      | none => _
      | some service => _) = _
    rw [hservice]
  have hgetItem : e.normalizedPayload.getItem "environment" = .ok environment := by
    unfold Json.getItem
    rw [henv]
  simp only [incidentDetail, hfirst, hsummary, hgetItem, hlatest]
  exact ⟨_, rfl, hid, rfl, rfl⟩

/-- **No read of an incident fails inside**: in every reachable state and whatever the other sessions commit between the
queries, the reads of an incident, its analysis and its patch and the detail page answer 404 if their first query finds
no row and a response otherwise, never an internal error; and the policy an analysis shows is the frozen one, without its commands' arguments. -/
theorem reads_answer (hl : libs.RequiresEnvironment) (h : (accepting libs).Reachable s) (hv : Sees libs s db) (i : Uuid) :
    (s.db.incidents.get i = none →
      getIncident db i = .error (aehError 404 "AEH-EVENT-404-001" "Incident not found") ∧
      detailPage db i = .error (aehError 404 "AEH-EVENT-404-001" "Incident not found")) ∧
    (∀ inc, s.db.incidents.get i = some inc →
      (∃ detail, getIncident db i = .ok detail ∧ detail.summary.id = i ∧ detail.version = inc.version) ∧
      ∃ page, detailPage db i = .ok page ∧ page.incident.summary.id = i ∧ page.incident.version = inc.version) ∧
    (s.db.analysisRunOf i = none →
      getAnalysis db i = .error (aehError 404 "AEH-EVENT-404-001" "Analysis not found")) ∧
    (∀ run, s.db.analysisRunOf i = some run → ∃ answer settings policy path, getAnalysis db i = .ok answer ∧
      answer.id = run.id ∧ run.policySnapshot = Settings.snapshot settings policy path ∧
      answer.policySummary = policy.summary settings) ∧
    (s.db.patchRunOf i = none → getPatch db i = .error (aehError 404 "AEH-EVENT-404-001" "Patch not found")) ∧
    ∀ run, s.db.patchRunOf i = some run → getPatch db i = .ok (patchResponse run) := by
  rw [← hv.1]
  refine ⟨fun hi => ⟨?_, ?_⟩, fun inc hi => ?_, fun hr => ?_, fun run hr => ?_, fun hp => ?_, fun run hp => ?_⟩
  · simp only [getIncident, hi]
  · simp only [detailPage, ReviewRepository.incident, hi]
  · have hs : s.db.incidents.get i = some inc := hv.1 ▸ hi
    obtain ⟨detail, hd, hid, hversion, -⟩ := hv.detail hl h hs 1
    obtain ⟨detail', hd', hid', hversion', -⟩ := hv.detail hl h hs 6
    refine ⟨⟨detail, by simp only [getIncident, hi, hd], hid, hversion⟩, ?_⟩
    obtain ⟨⟨e, he, -⟩, -⟩ := hv.incident hl h hs 1
    have hfirst : ReviewRepository.firstEvent (db 1) inc = some e := he
    obtain ⟨latest, hlatest⟩ := hv.latest hl h hs 2 11
    simp only [detailPage, ReviewRepository.incident, hi, hfirst, hd', hlatest]
    exact ⟨_, rfl, hid', hversion'⟩
  · simp only [getAnalysis, hr]
  · obtain ⟨hm, hri⟩ := analysisRunOf_some (hv.1 ▸ hr)
    obtain ⟨inc, hi, -⟩ := (inv_of_reachable (reachable_of_accepting h)).pinned.runSha run hm
    rw [hri] at hi
    obtain ⟨answer, settings, policy, path, ha, hrest⟩ := hv.analysis hl h hi hr 1
    exact ⟨answer, settings, policy, path, by simp only [getAnalysis, hr, ha], hrest⟩
  · simp only [getPatch, hp]
  · simp only [getPatch, hp]

end Sys

/-! A read during which the first claim commits. -/

namespace Shown

open Sample

/-- The libraries of an event whose schema requires the environment. -/
def libs : Libraries :=
  { Early.libs Early.usual.text Early.usualSum with iterErrors := fun event =>
      if (event.get? "environment").isSome then (Early.libs Early.usual.text Early.usualSum).iterErrors event
      else [⟨[], lit "'environment' is a required property"⟩] }

theorem requiresEnvironment : libs.RequiresEnvironment := by
  intro fields h
  by_cases he : ((Json.obj fields).get? "environment").isSome
  · exact Option.isSome_iff_exists.mp he
  · cases (if_neg he).symm.trans h

def request : EventRequest := Early.request Early.usual.text Early.usualSum

theorem parsed : parseEvent libs (Early.raw Early.usual.text) (some Early.key) = .ok request := by
  have hload : loadEvent libs = loadEvent (Early.libs Early.usual.text Early.usualSum) := rfl
  have hfingerprint : fingerprintOf libs = fingerprintOf (Early.libs Early.usual.text Early.usualSum) := rfl
  have hchecksum : checksumOf libs = checksumOf (Early.libs Early.usual.text Early.usualSum) := rfl
  have hschema : checkSchema libs (.obj (Early.fields Early.usual.text)) =
      checkSchema (Early.libs Early.usual.text Early.usualSum) (.obj (Early.fields Early.usual.text)) := rfl
  have hp := Early.parsed Early.usual.text Early.usualSum (by decide +kernel)
  simp only [parseEvent, parseFields, Early.loadEvent_fields, bind, Except.bind] at hp ⊢
  rw [hload, Early.loadEvent_fields]
  simp only [hschema, hfingerprint, hchecksum]
  exact hp

def stored : Sys := start.exec (.ingest (env 1) request intake sha)

def claimed : Sys := stored.exec (.claimJob settings (env 2) fun _ => false)

theorem stored_reachable : (Sys.accepting libs).Reachable stored := by
  have h : (Sys.accepting libs).Reachable start := .of_init ⟨_, by decide, rfl⟩
  exact h.step (show (Sys.accepting libs).step _ (.ingest (env 1) request intake sha) _ from
    ⟨⟨trivial, rfl⟩, _, _, parsed⟩)

/-- The incident, and after its first query the claim. -/
def view : View
  | 0 => stored.db
  | _ => claimed.db

theorem sees : Sys.Sees libs stored view := by
  refine ⟨rfl, fun k => ?_⟩
  cases k with
  | zero => exact ⟨stored, [], .nil, rfl⟩
  | succ k =>
    exact ⟨claimed, _, .one (show (Sys.accepting libs).step _ (.claimJob settings (env 2) fun _ => false) _ from
      ⟨⟨trivial, rfl⟩, trivial⟩), rfl⟩

/-- The detail of the incident is shown. -/
theorem reads_answer_sample : ∃ detail, getIncident view 17 = .ok detail ∧ detail.summary.id = 17 := by
  have hsome : (stored.db.incidents.get 17).isSome = true := by decide +kernel
  obtain ⟨inc, hi⟩ := Option.isSome_iff_exists.mp hsome
  obtain ⟨⟨detail, hd, hid, -⟩, -⟩ := (Sys.reads_answer requiresEnvironment stored_reachable sees 17).2.1 inc hi
  exact ⟨detail, hd, hid⟩

end Shown

end Aeh
