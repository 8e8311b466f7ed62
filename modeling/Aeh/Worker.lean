import Aeh.JobRepository

/-!
# Worker — `aeh/worker.py`: what an attempt reads
-/

namespace Aeh

/-- What `execute` has read when it starts to work. -/
structure Attempt where
  repo : AbsPath
  sha : PyStr
  policy : Json
  event : Json
  analysis : Option Json
  analysisStarted : Option Time

/-- `AnalysisResult.model_validate(run.result) if run.result else None`; the validation is a parameter. -/
def storedAnalysis (modelValidate : Json → Except Exn Json) (run : AnalysisRun) : Except Exn (Option Json) :=
  match run.result with
  | none => .ok none
  | some result => if result.truthy then (modelValidate result).map some else .ok none

/-- The read session of `execute`. -/
def readAttempt (settings : Settings) (fs : FileSystem) (modelValidate : Json → Except Exn Json) (claim : Claim)
    (db : Store) : Except Exn Attempt :=
  match db.incidents.get claim.incidentId with
  | none => .error (aehError 500 "AEH-INTERNAL-500-001" "Claim incident is missing")
  | some incident => do
    let repo ← settings.resolveRepositoryReference fs incident.repositoryPathSnapshot
    match db.analysisRunOf incident.id with
    | none => .error (aehError 500 "AEH-INTERNAL-500-001" "Analysis run is missing")
    | some run =>
      match db.errorEvents.get run.inputErrorEventId with
      | none => .error (aehError 500 "AEH-INTERNAL-500-001" "Analysis input event is missing")
      | some inputEvent => do
        let analysis ← storedAnalysis modelValidate run
        .ok { repo := repo
              sha := incident.baseCommitSha
              policy := run.policySnapshot
              event := inputEvent.normalizedPayload
              analysis := analysis
              analysisStarted := run.startedAt }

/-- An attempt works with the incident's commit and the policy and input event of its run. -/
theorem readAttempt_ok {settings : Settings} {fs : FileSystem} {modelValidate : Json → Except Exn Json}
    {claim : Claim} {db : Store} {attempt : Attempt}
    (h : readAttempt settings fs modelValidate claim db = .ok attempt) :
    ∃ incident run event, db.incidents.get claim.incidentId = some incident ∧
      db.analysisRunOf incident.id = some run ∧ db.errorEvents.get run.inputErrorEventId = some event ∧
      settings.resolveRepositoryReference fs incident.repositoryPathSnapshot = .ok attempt.repo ∧
      attempt.sha = incident.baseCommitSha ∧ attempt.policy = run.policySnapshot ∧
      attempt.event = event.normalizedPayload := by
  unfold readAttempt at h
  split at h
  · cases h
  · rename_i incident hi
    obtain ⟨repo, hrepo, h⟩ := bind_eq_ok.mp h
    split at h
    · cases h
    · rename_i run hr
      split at h
      · cases h
      · rename_i event he
        obtain ⟨analysis, -, h⟩ := bind_eq_ok.mp h
        cases h
        exact ⟨incident, run, event, hi, hr, he, hrepo, rfl, rfl, rfl⟩

end Aeh
