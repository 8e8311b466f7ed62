import Aeh.Analysis
import Aeh.Grouping
import Aeh.RunStep
import Aeh.Workers

/-!
# Analyze — `run_one` of an ANALYZE claim, step by step

As in `RunOne`, what threads and the gateway answer is the label of a step.  The time limit fires only while the
gateway analyzes; a cancellation at any await.  The task touches the database only where it reads and in `finalize`,
so each `Analyst` is a state of its own, with the record of what it has done.

Its record at each point (`AnalyzePhase.Recorded`) shows what an outcome without an error rests on (`Analyzed`).
-/

namespace Aeh

/-! ## What the attempt computes -/

/-- `AnalysisResult.model_validate` of a stored result, as a document. -/
def checkAnalysis (doc : Json) : Except Exn Json := (AnalysisResult.modelValidate doc).map AnalysisResult.modelDump

/-- What is left of the 24 hours when `now()` reads `t`. -/
def Attempt.remaining (attempt : Attempt) (t : Time) : Time :=
  seconds Limits.analysisSeconds - attempt.analysisStarted.elim 0 fun started => t - started

/-- `min(policy["analysisTimeoutSeconds"], remaining)`. -/
def analysisTimeout (policy : Json) (remaining : Time) : Except Exn Time := do
  match ← policy.getItem "analysisTimeoutSeconds" with
  | .int n => .ok (min (1000000 * n) remaining)
  | _ => .error .attributeError

/-- What `execute` does with the gateway's answer. -/
def analysisOutcome (policy : Json) (result : AnalysisResult) (threadId : Option PyStr) : Except Exn Outcome := do
  let allowedPaths ← stringsOf policy "allowedPaths"
  if ¬ result.useful allowedPaths then
    .error (aehError 502 "AEH-CODEX-502-002" "Analysis has insufficient evidence or unsafe proposed paths")
  else do
    let size ← result.size
    if Limits.analysisBytes < size then
      .error (aehError 422 "AEH-POLICY-422-001" "Analysis result exceeds storage limit")
    else .ok { result := some result.modelDump, threadId := threadId }

/-- An outcome of an analysis rests on a useful result within the limit. -/
theorem analysisOutcome_ok {policy : Json} {result : AnalysisResult} {threadId : Option PyStr} {outcome : Outcome}
    (h : analysisOutcome policy result threadId = .ok outcome) :
    ∃ allowedPaths size, stringsOf policy "allowedPaths" = .ok allowedPaths ∧ result.useful allowedPaths = true ∧
      result.size = .ok size ∧ size ≤ Limits.analysisBytes ∧
      outcome = { result := some result.modelDump, threadId := threadId } := by
  obtain ⟨allowedPaths, ha, h⟩ := bind_eq_ok.mp h
  split_ifs at h with hu
  · obtain ⟨size, hs, h⟩ := bind_eq_ok.mp h
    split_ifs at h with hl
    cases h
    exact ⟨allowedPaths, size, ha, hu, hs, not_lt.mp hl, rfl⟩

/-! ## Phases -/

/-- Where `run_one` of an ANALYZE claim is. -/
inductive AnalyzePhase where
  | reading
  | resolving (attempt : Attempt)
  | entering (attempt : Attempt) (remaining : Time)
  | analyzing (attempt : Attempt) (limit : Time)
  | inspecting (attempt : Attempt) (result : AnalysisResult) (threadId : Option PyStr)
  | leaving (result : TaskResult)
  | ended (result : TaskResult)
  | finalized (answer : Except Exn Bool)

namespace AnalyzePhase

def afterRead : Except Exn Attempt → AnalyzePhase
  | .ok attempt => .resolving attempt
  | .error e => .ended (.error (.exception e))

/-- The commit is resolved; `t` is the reading of `now()`. -/
def afterResolve (attempt : Attempt) (t : Time) : Except Fault PyStr → AnalyzePhase
  | .ok sha =>
    if sha ≠ attempt.sha then
      .ended (.error (.exception (aehError 422 "AEH-GIT-422-001" "Stored commit changed")))
    else if attempt.remaining t ≤ 0 then
      .ended (.error (.exception (aehError 504 "AEH-JOB-504-001" "Analysis lifetime exceeded 24 hours")))
    else .entering attempt (attempt.remaining t)
  | .error f => .ended (.error f)

/-- The worktree is entered. -/
def afterEnter (attempt : Attempt) (remaining : Time) : Except Fault Unit → AnalyzePhase
  | .ok () =>
    match analysisTimeout attempt.policy remaining with
    | .ok limit => .analyzing attempt limit
    | .error e => .leaving (.error (.exception e))
  | .error f => .ended (.error f)

/-- `assert_clean` has answered. -/
def afterInspect (attempt : Attempt) (result : AnalysisResult) (threadId : Option PyStr) : Except Exn Unit → AnalyzePhase
  | .ok () =>
    match analysisOutcome attempt.policy result threadId with
    | .ok outcome => .leaving (.ok outcome)
    | .error e => .leaving (.error (.exception e))
  | .error e => .leaving (.error (.exception e))

/-- The worktree is removed. -/
def afterLeave (result : TaskResult) : Except Exn Unit → AnalyzePhase
  | .ok () => .ended result
  | .error e => .ended (.error (.exception e))

/-- Where a cancellation takes the task. -/
def cancelled : AnalyzePhase → Option AnalyzePhase
  | reading | resolving _ => some (.ended (.error .cancelledError))
  | entering .. | analyzing .. | inspecting .. | leaving _ => some (.leaving (.error .cancelledError))
  | _ => none

def isFinalized : AnalyzePhase → Bool
  | finalized _ => true
  | _ => false

theorem cancelled_some {p p' : AnalyzePhase} (h : p.cancelled = some p') :
    (p' = .leaving (.error .cancelledError) ∨ p' = .ended (.error .cancelledError)) ∧ p.isFinalized = false := by
  cases p with
  | reading | resolving attempt =>
    cases h
    exact ⟨Or.inr rfl, rfl⟩
  | ended result | finalized answer => cases h
  | _ =>
    cases h
    exact ⟨Or.inl rfl, rfl⟩

end AnalyzePhase

/-! ## Steps -/

/-- What an attempt at an analysis has done, with the answers it got. -/
inductive AnalyzeEvent where
  | read (attempt : Attempt)
  | resolved (t : Time)
  | entered (workspace : PyStr) (args : List PyStr)
  | analyzed (result : AnalysisResult) (threadId : Option PyStr)
  | inspected (status : Except Exn Bytes)

/-- One `run_one` of an ANALYZE claim. -/
structure Analyst where
  claim : Claim
  phase : AnalyzePhase
  record : List AnalyzeEvent

namespace Analyst

/-- `run_one` starts. -/
def start (claim : Claim) : Analyst := ⟨claim, .reading, []⟩

def next (a : Analyst) (phase : AnalyzePhase) (events : List AnalyzeEvent) : Analyst := ⟨a.claim, phase, a.record ++ events⟩

/-- One step, with the transaction it makes, if any. -/
inductive Step (db : Store) (a : Analyst) : Option Tx → Analyst → Prop
  | read {settings : Settings} {fs : FileSystem} {attempt : Attempt} :
      a.phase = .reading → readAttempt settings fs checkAnalysis a.claim db = .ok attempt →
        Step db a none (a.next (.afterRead (.ok attempt)) [.read attempt])
  | readFails {settings : Settings} {fs : FileSystem} {e : Exn} :
      a.phase = .reading → readAttempt settings fs checkAnalysis a.claim db = .error e →
        Step db a none (a.next (.afterRead (.error e)) [])
  | resolve {attempt : Attempt} {t : Time} {sha : PyStr} :
      a.phase = .resolving attempt → Step db a none (a.next (.afterResolve attempt t (.ok sha)) [.resolved t])
  | resolveFails {attempt : Attempt} {t : Time} {f : Fault} :
      a.phase = .resolving attempt → f.Coded → Step db a none (a.next (.afterResolve attempt t (.error f)) [])
  | enter {attempt : Attempt} {remaining : Time} {workspace : PyStr} :
      a.phase = .entering attempt remaining → Step db a none
        (a.next (.afterEnter attempt remaining (.ok ())) [.entered workspace (worktreeArgs workspace attempt.sha)])
  | enterFails {attempt : Attempt} {remaining : Time} {f : Fault} :
      a.phase = .entering attempt remaining → f.Coded →
        Step db a none (a.next (.afterEnter attempt remaining (.error f)) [])
  | analyze {attempt : Attempt} {limit : Time} {result : AnalysisResult} {threadId : Option PyStr} :
      a.phase = .analyzing attempt limit →
        Step db a none (a.next (.inspecting attempt result threadId) [.analyzed result threadId])
  | analyzeFails {attempt : Attempt} {limit : Time} {f : Fault} :
      a.phase = .analyzing attempt limit → f.Coded → Step db a none (a.next (.leaving (.error f)) [])
  | inspect {attempt : Attempt} {result : AnalysisResult} {threadId : Option PyStr} {status : Except Exn Bytes} :
      a.phase = .inspecting attempt result threadId → (∀ e, status = .error e → e.Coded) →
        Step db a none (a.next (.afterInspect attempt result threadId (assertClean status)) [.inspected status])
  -- an `AehError` of the removal is logged, other errors escape
  | leave {result : TaskResult} {r : Except Exn Unit} :
      a.phase = .leaving result → (∀ status code detail, r ≠ .error (.aeh status code detail)) →
        Step db a none (a.next (.afterLeave result r) [])
  | timeout {attempt : Attempt} {limit : Time} :
      a.phase = .analyzing attempt limit → Step db a none (a.next (.leaving (.error .timeoutError)) [])
  | cancel {phase : AnalyzePhase} : a.phase.cancelled = some phase → Step db a none (a.next phase [])
  | finalize {result : TaskResult} {env : Env} :
      a.phase = .ended result → Step db a
        (some (.finalize env a.claim (outcomeOf a.claim.type result) (some a.claim.version)))
        (a.next (.finalized
          (commit (Aeh.finalize env a.claim (outcomeOf a.claim.type result) (some a.claim.version) db) db).1) [])

end Analyst

/-! ## What an attempt reads -/

/-- Everything an attempt has read. -/
theorem readAttempt_eq {settings : Settings} {fs : FileSystem} {modelValidate : Json → Except Exn Json} {claim : Claim}
    {db : Store} {attempt : Attempt} (h : readAttempt settings fs modelValidate claim db = .ok attempt) :
    ∃ incident run event, db.incidents.get claim.incidentId = some incident ∧ db.analysisRunOf incident.id = some run ∧
      db.errorEvents.get run.inputErrorEventId = some event ∧ attempt.sha = incident.baseCommitSha ∧
      attempt.policy = run.policySnapshot ∧ attempt.event = event.normalizedPayload ∧
      storedAnalysis modelValidate run = .ok attempt.analysis ∧ attempt.analysisStarted = run.startedAt := by
  unfold readAttempt at h
  split at h
  · cases h
  · rename_i incident hi
    obtain ⟨repo, -, h⟩ := bind_eq_ok.mp h
    split at h
    · cases h
    · rename_i run hr
      split at h
      · cases h
      · rename_i event he
        obtain ⟨analysis, ha, h⟩ := bind_eq_ok.mp h
        cases h
        exact ⟨incident, run, event, hi, hr, he, rfl, rfl, rfl, ha, rfl⟩

/-- Everything an attempt of incident `i` works with comes from `run` and its input event. -/
structure Attempt.Reads (attempt : Attempt) (i : Uuid) (run : AnalysisRun) (db : Store) : Prop where
  mem : run ∈ db.analysisRuns.rows
  incident : run.incidentId = i
  policy : attempt.policy = run.policySnapshot
  sha : attempt.sha = run.baseCommitSha
  started : attempt.analysisStarted = run.startedAt
  event : ∃ e ∈ db.errorEvents.rows, e.id = run.inputErrorEventId ∧ attempt.event = e.normalizedPayload

theorem Attempt.reads_of_readAttempt {settings : Settings} {fs : FileSystem} {modelValidate : Json → Except Exn Json}
    {claim : Claim} {s : Sys} {attempt : Attempt} (hs : s.Inv)
    (h : readAttempt settings fs modelValidate claim s.db = .ok attempt) :
    ∃ run, attempt.Reads claim.incidentId run s.db ∧ storedAnalysis modelValidate run = .ok attempt.analysis := by
  obtain ⟨inc, run, event, hi, hr, he, hsha, hpol, hev, ha, hst⟩ := readAttempt_eq h
  obtain ⟨hm, hri⟩ := analysisRunOf_some hr
  have hid := incident_id_of_get hi
  obtain ⟨inc', hi', hsha', -⟩ := hs.pinned.runSha run hm
  rw [hri, hid] at hi'
  obtain rfl := Option.some.inj (hi.symm.trans hi')
  obtain ⟨hme, hie⟩ := Table.get_eq_some.mp he
  exact ⟨run, ⟨hm, hri.trans hid, hpol, hsha.trans hsha'.symm, hst, event, hme, hie, hev⟩, ha⟩

/-- Stored events stay. -/
theorem Sys.event_step {s s' : Sys} {tx : Tx} (h : machine.step s tx s') {e : ErrorEvent}
    (he : e ∈ s.db.errorEvents.rows) : e ∈ s'.db.errorEvents.rows := by
  by_cases hi : ∃ env request intake sha, tx = .ingest env request intake sha
  · obtain ⟨env, request, intake, sha, rfl⟩ := hi
    rcases ingest_step h with hdb | ⟨service, -, occ, inc', -, hr⟩
    · rw [hdb]
      exact he
    · exact (hr.events e).mpr (Or.inl he)
  · rw [(quiet_step h fun env request intake sha htx => hi ⟨env, request, intake, sha, htx⟩).events]
    exact he

/-- What an attempt has read stays true. -/
theorem Attempt.Reads.step {attempt : Attempt} {i : Uuid} {run : AnalysisRun} {s s' : Sys} {tx : Tx}
    (h : attempt.Reads i run s.db) (hs : s.Inv) (hstep : Sys.machine.step s tx s') :
    ∃ run', run.Later run' ∧ attempt.Reads i run' s'.db := by
  obtain ⟨run', hr', hl⟩ := Sys.later_step hs hstep h.mem
  obtain ⟨e, he, hid, hev⟩ := h.event
  exact ⟨run', hl, hr', hl.same.incident.trans h.incident, h.policy.trans hl.same.policy.symm,
    h.sha.trans hl.same.sha.symm, h.started.trans hl.started.symm, e, Sys.event_step hstep he,
    hid.trans hl.same.input.symm, hev⟩

/-! ## The record -/

/-- The record up to the entered worktree. -/
def analysisBegun (attempt : Attempt) (t : Time) (workspace : PyStr) : List AnalyzeEvent :=
  [.read attempt, .resolved t, .entered workspace (worktreeArgs workspace attempt.sha)]

/-- The record of a whole attempt that ended well: a useful result within the limits, from a worktree of the commit the
attempt read, left clean, and started within the 24 hours. -/
structure Analyzed (attempt : Attempt) (result : AnalysisResult) (threadId : Option PyStr) (record : List AnalyzeEvent) :
    Prop where
  record_eq : ∃ t workspace status, record = analysisBegun attempt t workspace ++ [.analyzed result threadId, .inspected status] ∧
    0 < attempt.remaining t ∧ assertClean status = .ok ()
  useful : ∃ allowedPaths, stringsOf attempt.policy "allowedPaths" = .ok allowedPaths ∧ result.useful allowedPaths = true
  small : ∃ size, result.size = .ok size ∧ size ≤ Limits.analysisBytes

theorem Analyzed.mem {attempt : Attempt} {result : AnalysisResult} {threadId : Option PyStr} {record : List AnalyzeEvent}
    (h : Analyzed attempt result threadId record) : .read attempt ∈ record := by
  obtain ⟨t, workspace, status, he, -⟩ := h.record_eq
  rw [he]
  simp [analysisBegun]

/-- The record at each point of `run_one`. -/
def AnalyzePhase.Recorded (record : List AnalyzeEvent) : AnalyzePhase → Prop
  | .reading => record = []
  | .resolving attempt => record = [.read attempt]
  | .entering attempt remaining => ∃ t, record = [.read attempt, .resolved t] ∧ remaining = attempt.remaining t ∧ 0 < remaining
  | .analyzing attempt _ => ∃ t workspace, record = analysisBegun attempt t workspace ∧ 0 < attempt.remaining t
  | .inspecting attempt result threadId => ∃ t workspace,
      record = analysisBegun attempt t workspace ++ [.analyzed result threadId] ∧ 0 < attempt.remaining t
  | .leaving result | .ended result => (outcomeOf .analyze result).failed = false → ∃ attempt analysis,
      Analyzed attempt analysis (outcomeOf .analyze result).threadId record ∧
        (outcomeOf .analyze result).result = some analysis.modelDump
  | .finalized _ => True

/-- An error with a code fails an attempt of either type. -/
theorem outcomeOf_failed (type : JobType) {f : Fault} (h : f.Coded) : (outcomeOf type (.error f)).failed = true := by
  cases type with
  | patch => exact failed_of_coded h
  | analyze =>
    cases f with
    | timeoutError | cancelledError => decide
    | exception e =>
      cases e with
      | aeh status code detail => simpa [outcomeOf, Outcome.failed, Fault.Coded, Exn.Coded] using h
      | _ => rfl

namespace AnalyzePhase

theorem recorded_error {record : List AnalyzeEvent} {f : Fault} (h : f.Coded) :
    (leaving (.error f)).Recorded record ∧ (ended (.error f)).Recorded record := by
  have hf := outcomeOf_failed .analyze h
  constructor <;> exact fun h => absurd (hf.symm.trans h) (by decide)

theorem recorded_exception {record : List AnalyzeEvent} {e : Exn} (h : e.Coded) :
    (leaving (.error (.exception e))).Recorded record ∧ (ended (.error (.exception e))).Recorded record :=
  recorded_error (f := .exception e) h

/-- An `AehError` of the source. -/
theorem recorded_aeh {record : List AnalyzeEvent} {status : ℕ} {code detail : String} (h : code ≠ "") :
    (leaving (.error (.exception (aehError status code detail)))).Recorded record ∧
      (ended (.error (.exception (aehError status code detail)))).Recorded record :=
  recorded_exception (e := aehError status code detail) h

end AnalyzePhase

/-! ## Errors have codes -/

theorem storedAnalysis_coded {run : AnalysisRun} {e : Exn} (h : storedAnalysis checkAnalysis run = .error e) : e.Coded := by
  unfold storedAnalysis at h
  split at h
  · cases h
  · split_ifs at h
    rename_i result _ _
    unfold checkAnalysis at h
    cases hv : AnalysisResult.modelValidate result with
    | ok r =>
      rw [hv] at h
      cases h
    | error e' =>
      rw [hv] at h
      obtain rfl : e' = e := by simpa [Except.map] using h
      rw [AnalysisResult.modelValidate_fails result e' hv]
      trivial

theorem readAttempt_coded {settings : Settings} {fs : FileSystem} {claim : Claim} {db : Store} {e : Exn}
    (h : readAttempt settings fs checkAnalysis claim db = .error e) : e.Coded := by
  have hcode : ∀ detail, (aehError 500 "AEH-INTERNAL-500-001" detail).Coded := fun _ => by
    show "AEH-INTERNAL-500-001" ≠ ""
    decide
  unfold readAttempt at h
  split at h
  · cases h
    exact hcode _
  · rcases bind_eq_error.mp h with h | ⟨repo, -, h⟩
    · rcases Settings.resolveRepositoryReference_error h with rfl | ⟨message, rfl⟩ <;> trivial
    · split at h
      · cases h
        exact hcode _
      · split at h
        · cases h
          exact hcode _
        · rcases bind_eq_error.mp h with h | ⟨analysis, -, h⟩
          · exact storedAnalysis_coded h
          · cases h

theorem getItem_coded {j : Json} {key : String} {e : Exn} (h : j.getItem key = .error e) : e.Coded := by
  unfold Json.getItem at h
  split at h
  · cases h
  · cases h
    trivial

theorem analysisTimeout_coded {policy : Json} {remaining : Time} {e : Exn}
    (h : analysisTimeout policy remaining = .error e) : e.Coded := by
  rcases bind_eq_error.mp h with h | ⟨value, -, h⟩
  · exact getItem_coded h
  · cases value with
    | int n => cases h
    | _ =>
      cases h
      trivial

theorem assertClean_coded {status : Except Exn Bytes} (hs : ∀ e, status = .error e → e.Coded) {e : Exn}
    (h : assertClean status = .error e) : e.Coded := by
  rcases bind_eq_error.mp h with h | ⟨output, -, h⟩
  · exact hs e h
  · split_ifs at h
    cases h
    show "AEH-POLICY-422-001" ≠ ""
    decide

/-- A loop fails as one of its steps does. -/
theorem mapM_coded {α β : Type} {f : α → Except Exn β} (hf : ∀ a e, f a = .error e → e.Coded) {l : List α} {e : Exn}
    (h : l.mapM f = .error e) : e.Coded := by
  induction l generalizing e with
  | nil => cases h
  | cons a l ih =>
    rw [List.mapM_cons] at h
    rcases bind_eq_error.mp h with h | ⟨b, -, h⟩
    · exact hf a e h
    · rcases bind_eq_error.mp h with h | ⟨bs, -, h⟩
      · exact ih h
      · cases h

theorem stringsOf_coded {policy : Json} {key : String} {e : Exn} (h : stringsOf policy key = .error e) : e.Coded := by
  rcases bind_eq_error.mp h with h | ⟨value, -, h⟩
  · exact getItem_coded h
  · cases value with
    | arr items =>
      refine mapM_coded (fun item e h => ?_) h
      cases item with
      | str s => cases h
      | _ =>
        cases h
        trivial
    | _ =>
      cases h
      trivial

theorem analysisOutcome_coded {policy : Json} {result : AnalysisResult} {threadId : Option PyStr} {e : Exn}
    (h : analysisOutcome policy result threadId = .error e) : e.Coded := by
  rcases bind_eq_error.mp h with h | ⟨allowedPaths, -, h⟩
  · exact stringsOf_coded h
  · split_ifs at h
    · rcases bind_eq_error.mp h with h | ⟨size, -, h⟩
      · unfold AnalysisResult.size encodeText at h
        split_ifs at h
        · cases h
        · obtain rfl : .valueError (lit "surrogates not allowed") = e := by simpa [Except.map] using h
          trivial
      · split_ifs at h
        cases h
        show "AEH-POLICY-422-001" ≠ ""
        decide
    · cases h
      show "AEH-CODEX-502-002" ≠ ""
      decide

/-! ## What one step keeps -/

namespace Analyst

structure Inv (a : Analyst) (s : Sys) : Prop where
  issued : a.claim ∈ s.issued
  analyze : a.claim.type = .analyze
  recorded : a.phase.Recorded a.record
  reads : ∀ attempt, .read attempt ∈ a.record → ∃ run, attempt.Reads a.claim.incidentId run s.db

variable {a a' : Analyst} {s s' : Sys} {tx : Option Tx}

theorem Inv.mono (h : a.Inv s) (hs : s.Inv) {tx : Tx} (hstep : Sys.machine.step s tx s') : a.Inv s' := by
  refine { h with issued := RunOne.issued_mono hstep h.issued, reads := fun attempt ha => ?_ }
  obtain ⟨run, hr⟩ := h.reads attempt ha
  obtain ⟨run', -, hr'⟩ := hr.step hs hstep
  exact ⟨run', hr'⟩

/-- The record follows the phase. -/
theorem Inv.recorded_step (ha : a.Inv s) (h : a.Step s.db tx a') : a'.phase.Recorded a'.record := by
  have hrec := ha.recorded
  cases h with
  | @read settings fs attempt hp hread =>
    rw [hp] at hrec
    obtain hrec : a.record = [] := hrec
    show a.record ++ [.read attempt] = [.read attempt]
    rw [hrec]
    rfl
  | readFails hp hread => exact (AnalyzePhase.recorded_exception (readAttempt_coded hread)).2
  | @resolve attempt t sha hp =>
    rw [hp] at hrec
    obtain hrec : a.record = [.read attempt] := hrec
    show (AnalyzePhase.afterResolve attempt t (.ok sha)).Recorded (a.record ++ [.resolved t])
    unfold AnalyzePhase.afterResolve
    dsimp only
    split_ifs with hsha hrem
    · exact (AnalyzePhase.recorded_aeh (by decide)).2
    · exact (AnalyzePhase.recorded_aeh (by decide)).2
    · exact ⟨t, by rw [hrec]; rfl, rfl, not_le.mp hrem⟩
  | resolveFails hp hf => exact (AnalyzePhase.recorded_error hf).2
  | @enter attempt remaining workspace hp =>
    rw [hp] at hrec
    obtain ⟨t, hrec, rfl, hpos⟩ := hrec
    show (AnalyzePhase.afterEnter attempt (attempt.remaining t) (.ok ())).Recorded (a.record ++ _)
    unfold AnalyzePhase.afterEnter
    dsimp only
    split
    · exact ⟨t, workspace, by rw [hrec]; rfl, hpos⟩
    · exact (AnalyzePhase.recorded_exception (analysisTimeout_coded ‹_›)).1
  | enterFails hp hf => exact (AnalyzePhase.recorded_error hf).2
  | analyze hp =>
    rw [hp] at hrec
    obtain ⟨t, workspace, hrec, hpos⟩ := hrec
    exact ⟨t, workspace, by rw [← hrec]; rfl, hpos⟩
  | analyzeFails hp hf => exact (AnalyzePhase.recorded_error hf).1
  | @inspect attempt result threadId status hp hs =>
    rw [hp] at hrec
    obtain ⟨t, workspace, hrec, hpos⟩ := hrec
    show (AnalyzePhase.afterInspect attempt result threadId (assertClean status)).Recorded (a.record ++ [.inspected status])
    cases hclean : assertClean status with
    | error e => exact (AnalyzePhase.recorded_exception (assertClean_coded hs hclean)).1
    | ok u =>
      unfold AnalyzePhase.afterInspect
      dsimp only
      split
      · rename_i outcome ho
        obtain ⟨allowedPaths, size, hpaths, huse, hsize, hle, rfl⟩ := analysisOutcome_ok ho
        intro _
        refine ⟨attempt, result, ⟨⟨t, workspace, status, ?_, hpos, hclean⟩, ⟨allowedPaths, hpaths, huse⟩, size, hsize, hle⟩, rfl⟩
        rw [hrec, List.append_assoc]
        rfl
      · exact (AnalyzePhase.recorded_exception (analysisOutcome_coded ‹_›)).1
  | @leave result r hp herr =>
    rw [hp] at hrec
    rcases r with e | u
    · refine (AnalyzePhase.recorded_exception ?_).2
      cases e with
      | aeh status code detail => exact (herr status code detail rfl).elim
      | _ => trivial
    · show (AnalyzePhase.ended result).Recorded (a.record ++ [])
      rw [List.append_nil]
      exact hrec
  | timeout hp => exact (AnalyzePhase.recorded_error (f := .timeoutError) trivial).1
  | cancel hp =>
    obtain ⟨rfl | rfl, -⟩ := AnalyzePhase.cancelled_some hp
    · exact (AnalyzePhase.recorded_error (f := .cancelledError) trivial).1
    · exact (AnalyzePhase.recorded_error (f := .cancelledError) trivial).2
  | finalize => trivial

theorem Step.claim_eq (h : a.Step s.db tx a') : a'.claim = a.claim := by cases h <;> rfl

/-- A step of the task itself keeps the invariant. -/
theorem Inv.step (ha : a.Inv s) (hs : s.Inv) (h : a.Step s.db tx a') : a'.Inv s where
  issued := h.claim_eq ▸ ha.issued
  analyze := h.claim_eq ▸ ha.analyze
  recorded := ha.recorded_step h
  reads := fun attempt hm => by
    rw [h.claim_eq]
    cases h with
    | @read _ _ attempt' hp hread =>
      rcases List.mem_append.mp hm with hm | hm
      · exact ha.reads attempt hm
      · obtain rfl : attempt = attempt' := by simpa using hm
        obtain ⟨run, hr, -⟩ := Attempt.reads_of_readAttempt hs hread
        exact ⟨run, hr⟩
    | _ => exact ha.reads attempt (by simpa [next] using hm)

/-- A finished `run_one` does not move any more. -/
theorem Step.not_finalized (h : a.Step s.db tx a') : a.phase.isFinalized = false := by
  cases h with
  | cancel hp => exact (AnalyzePhase.cancelled_some hp).2
  | read hp | readFails hp | resolve hp | resolveFails hp | enter hp | enterFails hp | analyze hp | analyzeFails hp
  | inspect hp | leave hp | timeout hp | finalize hp =>
    rw [hp]
    rfl

end Analyst

end Aeh
