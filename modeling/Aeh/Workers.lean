import Mathlib.Logic.Function.Basic
import Aeh.Frozen
import Aeh.Validation

/-!
# Workers — any number of `run_one` of PATCH claims over one database

Each `run_one` keeps the record of what it has done.  Only `run_one` marks a run and finalizes a PATCH claim; all
other transactions are free.  A patch run is PATCH_READY only by the `finalize` of a `run_one` whose record shows the
whole attempt (`Workers.ready_proven`).
-/

namespace Aeh

/-- What one attempt has done, with the answers it got. -/
inductive Event where
  | read (attempt : Attempt)
  | entered (workspace : PyStr) (args : List PyStr)
  | patched (threadId : PyStr)
  | checked (ws : Workspace) (changed : List PyStr) (diff : PyStr)
  | validated (sandbox : Sandbox) (r : Except ValidationFailure (List Json))

/-- One `run_one`. -/
structure Working where
  claim : Claim
  phase : Phase
  versionRef : ℕ
  thread : Thread
  expired : Bool
  record : List Event

/-- The `AehError`s of the source all have a code. -/
def Exn.Coded : Exn → Prop
  | .aeh _ code _ => code ≠ ""
  | _ => True

def Fault.Coded : Fault → Prop
  | .exception e => e.Coded
  | _ => True

namespace Working

/-- `run_one` starts. -/
def start (claim : Claim) : Working := ⟨claim, .reading, claim.version, .idle, false, []⟩

def view (w : Working) (sys : Sys) : RunOne := ⟨sys, w.phase, w.versionRef, w.thread, w.expired⟩

/-- After a step of `run_one` that led to `r`. -/
def next (w : Working) (r : RunOne) (events : List Event) : Working :=
  ⟨w.claim, r.phase, r.versionRef, r.thread, r.expired, w.record ++ events⟩

/-- What a step adds to the record, and that its answer is the one the modelled function gives. -/
inductive Shows (w : Working) (db : Store) : Act → List Event → Prop
  | read {settings : Settings} {fs : FileSystem} {modelValidate : Json → Except Exn Json} {attempt : Attempt} :
      readAttempt settings fs modelValidate w.claim db = .ok attempt →
        Shows w db (.read settings fs modelValidate) [.read attempt]
  | readFails {settings : Settings} {fs : FileSystem} {modelValidate : Json → Except Exn Json} {e : Exn} :
      readAttempt settings fs modelValidate w.claim db = .error e → e.Coded →
        Shows w db (.read settings fs modelValidate) []
  | resolve {sha : PyStr} : Shows w db (.resolve (.ok sha)) []
  | resolveFails {f : Fault} : f.Coded → Shows w db (.resolve (.error f)) []
  | enter {attempt : Attempt} {workspace : PyStr} : .read attempt ∈ w.record →
      Shows w db (.enter (.ok ())) [.entered workspace (worktreeArgs workspace attempt.sha)]
  | enterFails {f : Fault} : f.Coded → Shows w db (.enter (.error f)) []
  | patch {threadId : PyStr} : Shows w db (.patch (.ok threadId)) [.patched threadId]
  | patchFails {f : Fault} : f.Coded → Shows w db (.patch (.error f)) []
  | check {attempt : Attempt} {workspace : PyStr} {args : List PyStr} {ws : Workspace} {changed : List PyStr}
      {diff : PyStr} : .read attempt ∈ w.record → .entered workspace args ∈ w.record → ws.At workspace →
      checkDiff ws attempt.policy = .ok (changed, diff) →
        Shows w db (.check (.ok (changed, diff))) [.checked ws changed diff]
  | checkFails {f : Fault} : f.Coded → Shows w db (.check (.error f)) []
  | commit : Shows w db .commit []
  | lose {e : Exn} : e.Coded → Shows w db (.lose e) []
  | receive : Shows w db .receive []
  | validate {attempt : Attempt} {workspace : PyStr} {args : List PyStr} {sandbox : Sandbox}
      {r : Except ValidationFailure (List Json)} : .read attempt ∈ w.record → .entered workspace args ∈ w.record →
      sandbox.runValidation workspace attempt.policy = .ok r → Shows w db (.validate (.ok r)) [.validated sandbox r]
  | validateFails {f : Fault} : f.Coded → Shows w db (.validate (.error f)) []
  | leave : Shows w db (.leave (.ok ())) []
  | leaveFails {e : Exn} : e.Coded → Shows w db (.leave (.error e)) []
  | timeout : Shows w db .timeout []
  | overrun {e : Exn} : e.Coded → Shows w db (.overrun e) []
  | cancel : Shows w db .cancel []
  | finalize {env : Env} : Shows w db (.finalize env) []

end Working

/-- The workers, the database they share and all other parties. -/
structure Workers where
  sys : Sys
  runs : ℕ → Option Working

namespace Workers

inductive Label where
  | claim (k : ℕ) (settings : Settings) (env : Env) (skip : Uuid → Bool)
  | act (k : ℕ) (a : Act)
  | other (tx : Tx)

/-- The transactions only `run_one` of a PATCH claim makes. -/
def isPatchWork : Tx → Bool
  | .markValidating _ => true
  | .finalize _ claim _ _ => claim.type = .patch
  | _ => false

inductive Step : Workers → Label → Workers → Prop
  | claim {s : Workers} {k : ℕ} {settings : Settings} {env : Env} {skip : Uuid → Bool} {claim : Claim} {db : Store} :
      s.runs k = none → claimJob settings env skip s.sys.db = .ok (some claim, db) → claim.type = .patch →
        Step s (.claim k settings env skip)
          ⟨s.sys.exec (.claimJob settings env skip), Function.update s.runs k (some (.start claim))⟩
  | act {s : Workers} {k : ℕ} {w : Working} {a : Act} {r : RunOne} {events : List Event} :
      s.runs k = some w → RunOne.Step w.claim (w.view s.sys) a r → w.Shows s.sys.db a events →
        Step s (.act k a) ⟨r.sys, Function.update s.runs k (some (w.next r events))⟩
  | other {s : Workers} {tx : Tx} : s.sys.allows tx → isPatchWork tx = false →
        Step s (.other tx) ⟨s.sys.exec tx, s.runs⟩

def machine : Machine Workers Label where
  init s := Sys.machine.init s.sys ∧ ∀ k, s.runs k = none
  step := Step

end Workers

/-! ## Who makes a patch ready -/

section Ready

variable {s s' : Sys} {tx : Tx} {p : PatchRun}

theorem Dossier.Move.ready {d d' : Dossier} (h : d.Move (fun _ => False) d') (hp : p ∈ d'.patchRuns)
    (hr : p.status = .patchReady) : p ∈ d.patchRuns := by
  cases h with
  | claimedPatch _ _ _ t' =>
    rcases Table.mem_replace.mp hp with ⟨rfl, -⟩ | ⟨hp, -⟩
    · cases hr
    · exact hp
  | marked =>
    rcases Table.mem_replace.mp hp with ⟨rfl, -⟩ | ⟨hp, -⟩
    · cases hr
    · exact hp
  | approved =>
    obtain rfl := List.mem_singleton.mp hp
    cases hr
  | endedPatch _ _ failed _ _ _ _ _ he hR =>
    rcases Table.mem_replace.mp hp with ⟨rfl, -⟩ | ⟨hp, -⟩
    · cases failed with
      | false => exact (hR rfl).elim
      | true =>
        rw [he.status] at hr
        cases hr
    · exact hp
  | _ => exact hp

/-- **A patch run becomes ready only by a `finalize`** of a PATCH claim of its incident with an outcome that has not
failed, which writes the outcome's columns. -/
theorem Sys.ready_step (hs : s.Inv) (h : Sys.machine.step s tx s') (hp : p ∈ s'.db.patchRuns.rows)
    (hr : p.status = .patchReady) : p ∈ s.db.patchRuns.rows ∨
      ∃ env claim outcome version, ∃ patch : PatchRun, tx = .finalize env claim outcome version ∧
        claim.type = .patch ∧ outcome.failed = false ∧ patch.incidentId = claim.incidentId ∧ p = patch.finished outcome (env.now 1) := by
  by_cases hw : ∃ env claim outcome version, tx = .finalize env claim outcome version ∧ claim.type = .patch ∧
      outcome.failed = false
  · obtain ⟨env, claim, outcome, version, rfl, ht, hfail⟩ := hw
    obtain ⟨-, rfl⟩ := h
    revert hp
    refine Sys.settle_ok (P := fun db => p ∈ db.patchRuns.rows → _) Or.inl fun b db' hf hp => ?_
    rcases finalize_ok hf with ⟨-, rfl⟩ | ⟨job, inc, hj, -, -, hi, -, -, ⟨hfailed, -⟩ | hfin⟩
    · exact Or.inl hp
    · rw [hfail] at hfailed
      cases hfailed
    · rcases finish_ok hfin with ⟨ha, -⟩ | ⟨-, patch, hpatch, hu⟩
      · rw [ht] at ha
        cases ha
      · rw [Store.updateIncident_ok hu] at hp
        rcases Table.mem_put.mp (show p ∈ (s.db.patchRuns.put (patch.finished outcome (env.now 1))).rows from hp) with
          ⟨rfl, -⟩ | ⟨hp, -⟩
        · have hpi := (patchRunOf_some hpatch).2
          exact Or.inr ⟨env, claim, outcome, version, patch, rfl, ht, hfail,
            hpi.trans (incident_id_of_get hi), rfl⟩
        · exact Or.inl hp
  · have hmoves : Moves (fun _ => False) s.db s'.db :=
      Sys.step_moves_of hs h fun env claim outcome version he ht _ _ _ hf =>
        hw ⟨env, claim, outcome, version, he, ht, hf⟩
    have hm := Store.mem_dossier_patchRuns.mpr ⟨hp, rfl⟩
    rcases hmoves p.incidentId with he | hmove
    · rw [he] at hm
      exact Or.inl (Store.mem_dossier_patchRuns.mp hm).1
    · exact Or.inl (Store.mem_dossier_patchRuns.mp (hmove.ready hm hr)).1

end Ready

/-! ## The record -/

/-- The record up to the entered worktree. -/
def begun (attempt : Attempt) (workspace : PyStr) : List Event :=
  [.read attempt, .entered workspace (worktreeArgs workspace attempt.sha)]

/-- The record after a passed check. -/
def Checked (attempt : Attempt) (workspace : PyStr) (changed : List PyStr) (diff : PyStr) (record : List Event) :
    Prop :=
  ∃ threadId ws, ws.At workspace ∧ checkDiff ws attempt.policy = .ok (changed, diff) ∧
    record = begun attempt workspace ++ [.patched threadId, .checked ws changed diff]

/-- The record of a whole attempt that ended well: one policy check, then the validation, both under the policy the
attempt read, in a worktree of the commit it read. -/
def Proven (record : List Event) (changed : List PyStr) (diff : Option PyStr) (validation : List Json) : Prop :=
  ∃ attempt workspace text sandbox checked, diff = some text ∧ Checked attempt workspace changed text checked ∧
    sandbox.runValidation workspace attempt.policy = .ok (.ok validation) ∧
    record = checked ++ [.validated sandbox (.ok validation)]

/-- The record at each point of `run_one`. -/
def Phase.Recorded (record : List Event) : Phase → Prop
  | .reading => record = []
  | .resolving attempt | .entering attempt => record = [.read attempt]
  | .patching => ∃ attempt workspace, record = begun attempt workspace
  | .checking threadId => ∃ attempt workspace, record = begun attempt workspace ++ [.patched threadId]
  | .marking work | .validating work => ∃ attempt workspace, Checked attempt workspace work.changed work.diff record
  | .leaving result | .ended result => (outcomeOf .patch result).failed = false →
      Proven record (outcomeOf .patch result).changedFiles (outcomeOf .patch result).diff
        (outcomeOf .patch result).validation
  | .finalized _ => True

structure Working.Inv (w : Working) (sys : Sys) : Prop where
  issued : w.claim ∈ sys.issued
  patch : w.claim.type = .patch
  recorded : w.phase.Recorded w.record
  coded : ∀ e, w.thread = .failed e → e.Coded
  frozen : ∀ attempt, .read attempt ∈ w.record → ∃ r ∈ sys.db.analysisRuns.rows,
    r.incidentId = w.claim.incidentId ∧ attempt.policy = r.policySnapshot ∧ attempt.sha = r.baseCommitSha

/-- An error with a code fails the attempt. -/
theorem failed_of_coded {f : Fault} (h : f.Coded) : (outcomeOf .patch (.error f)).failed = true := by
  cases f with
  | timeoutError | cancelledError => decide
  | exception e =>
    cases e with
    | aeh status code detail => simpa [outcomeOf, Outcome.failed, Fault.Coded, Exn.Coded] using h
    | _ => rfl

theorem Phase.recorded_error {record : List Event} {f : Fault} (h : f.Coded) :
    (Phase.leaving (.error f)).Recorded record ∧ (Phase.ended (.error f)).Recorded record := by
  have hf := failed_of_coded h
  refine ⟨fun h => ?_, fun h => ?_⟩ <;> exact absurd (hf.symm.trans h) (by decide)

theorem Phase.recorded_aeh {record : List Event} {status : ℕ} {code detail : String} (h : code ≠ "") :
    (Phase.leaving (.error (.exception (aehError status code detail)))).Recorded record ∧
      (Phase.ended (.error (.exception (aehError status code detail)))).Recorded record :=
  recorded_error (f := .exception (aehError status code detail)) h

theorem patchTimeout_coded {policy : Json} {e : Exn} (h : Phase.patchTimeout policy = .error e) : e.Coded := by
  rcases bind_eq_error.mp h with h | ⟨value, -, h⟩
  · unfold Json.getItem at h
    split at h
    · cases h
    · cases h
      trivial
  · cases value with
    | int n => cases h
    | _ =>
      cases h
      trivial

theorem markValidating_coded {claim : Claim} {db : Store} {e : Exn} (h : markValidating claim db = .error e) :
    e.Coded := by
  have hcode : ∀ detail, (aehError 409 "AEH-POLICY-422-001" detail).Coded := fun _ => by
    show "AEH-POLICY-422-001" ≠ ""
    decide
  unfold markValidating at h
  split at h
  · split_ifs at h
    · cases h
      exact hcode _
    · rcases bind_eq_error.mp h with h | ⟨db₁, -, h⟩
      · unfold Store.updateIncident at h
        split_ifs at h
        cases h
        trivial
      · split at h
        · cases h
          exact hcode _
        · cases h
  · cases h
    exact hcode _

/-! ## What one step of `run_one` keeps -/

namespace Working

variable {w : Working} {sys sys' : Sys} {a : Act} {r : RunOne} {events : List Event}

theorem Inv.mono (h : w.Inv sys) (hi : ∀ claim ∈ sys.issued, claim ∈ sys'.issued) (hk : Keeps sys.db sys'.db) :
    w.Inv sys' := by
  refine { h with issued := hi _ h.issued, frozen := fun attempt ha => ?_ }
  obtain ⟨run, hr, hid, hp, hsha⟩ := h.frozen attempt ha
  obtain ⟨run', hr', same⟩ := hk.analysisRun run hr
  exact ⟨run', hr', same.incident.trans hid, hp.trans same.policy.symm, hsha.trans same.sha.symm⟩

/-- What `run_one` does to the database: nothing, its mark, or its `finalize` when the task has ended. -/
theorem sys_of_step (h : RunOne.Step w.claim (w.view sys) a r) (hc : w.claim ∈ sys.issued) (hs : w.Shows sys.db a events) :
    r.sys = sys ∨ Sys.machine.step sys (.markValidating w.claim) r.sys ∨
      ∃ result env, w.phase = .ended result ∧ r.phase.isFinalized = true ∧ events = [] ∧
        Sys.machine.step sys (.finalize env w.claim (outcomeOf w.claim.type result) (some w.versionRef)) r.sys := by
  cases h with
  | commit => exact Or.inr (Or.inl ⟨hc, rfl⟩)
  | @finalize result env hp =>
    cases hs
    exact Or.inr (Or.inr ⟨result, env, hp, rfl, rfl, hc, rfl⟩)
  | others => cases hs
  | _ => exact Or.inl rfl

/-- A finished `run_one` adds nothing to its record. -/
theorem next_finalized (h : RunOne.Step w.claim (w.view sys) a r) (hs : w.Shows sys.db a events)
    (hf : w.phase.isFinalized = true) : (w.next r events).phase.isFinalized = true ∧ (w.next r events).record = w.record := by
  have absurd_phase : ∀ {p : Phase}, (w.view sys).phase = p → p.isFinalized = false → False := by
    intro p hp hn
    rw [← hp] at hn
    exact absurd (hf.symm.trans hn) (by decide)
  cases h with
  | commit | lose =>
    cases hs
    exact ⟨hf, List.append_nil _⟩
  | others => cases hs
  | timeout hp => exact (absurd_phase rfl (Phase.timedOut_some hp).2).elim
  | cancel hp => exact (absurd_phase rfl (Phase.cancelled_some hp).2).elim
  | read hp | resolve hp | enter hp | patch hp | check hp | checkFails hp | receive hp | receiveFails hp | validate hp
  | leave hp | overrun hp | finalize hp => exact (absurd_phase hp rfl).elim

/-- The record follows the phase. -/
theorem Inv.recorded_next (hw : w.Inv sys) (h : RunOne.Step w.claim (w.view sys) a r) (hs : w.Shows sys.db a events) :
    r.phase.Recorded (w.record ++ events) := by
  have hrec := hw.recorded
  cases h with
  | @read settings fs modelValidate hp =>
    rw [show w.phase = .reading from hp] at hrec
    obtain hrec : w.record = [] := hrec
    show (Phase.afterRead (readAttempt settings fs modelValidate w.claim sys.db)).Recorded _
    cases hs with
    | read hread =>
      rw [hread, hrec]
      rfl
    | readFails hread he =>
      rw [hread]
      exact (Phase.recorded_error (f := .exception _) he).2
  | @resolve attempt _ hp =>
    rw [show w.phase = .resolving attempt from hp] at hrec
    cases hs with
    | @resolve sha =>
      rw [List.append_nil]
      show (Phase.afterResolve attempt (.ok sha)).Recorded _
      rcases Phase.afterResolve_ok attempt sha with he | he
      · rw [he]
        exact hrec
      · rw [he]
        exact (Phase.recorded_aeh (by decide)).2
    | resolveFails hf => exact (Phase.recorded_error hf).2
  | @enter attempt _ hp =>
    rw [show w.phase = .entering attempt from hp] at hrec
    obtain hrec : w.record = [.read attempt] := hrec
    cases hs with
    | @enter attempt' workspace hm =>
      rw [hrec, List.mem_singleton] at hm
      obtain rfl := Event.read.inj hm
      show (Phase.afterEnter attempt' (.ok ())).Recorded _
      rcases Phase.afterEnter_ok attempt' with he | ⟨e, he, rfl | hlimit⟩
      · rw [he]
        exact ⟨attempt', workspace, by rw [hrec]; rfl⟩
      · rw [he]
        exact (Phase.recorded_aeh (by decide)).1
      · rw [he]
        exact (Phase.recorded_error (f := .exception _) (patchTimeout_coded hlimit)).1
    | enterFails hf => exact (Phase.recorded_error hf).2
  | patch hp =>
    rw [show w.phase = .patching from hp] at hrec
    obtain ⟨attempt, workspace, hrec⟩ := hrec
    cases hs with
    | patch => exact ⟨attempt, workspace, by rw [hrec]⟩
    | patchFails hf => exact (Phase.recorded_error hf).1
  | @check threadId _ _ hp =>
    rw [show w.phase = .checking threadId from hp] at hrec
    obtain ⟨attempt, workspace, hrec⟩ := hrec
    cases hs with
    | @check attempt' workspace' args ws changed diff hm hm' hat hc =>
      obtain rfl : attempt' = attempt := by simpa [hrec, begun] using hm
      obtain ⟨rfl, -⟩ : workspace' = workspace ∧ args = _ := by simpa [hrec, begun] using hm'
      exact ⟨attempt', workspace', threadId, ws, hat, hc, by rw [hrec, List.append_assoc]; rfl⟩
  | @checkFails threadId _ hp =>
    cases hs with
    | checkFails hf => exact (Phase.recorded_error hf).1
  | commit | lose =>
    cases hs
    rw [List.append_nil]
    exact hrec
  | @receive work _ hp =>
    rw [show w.phase = .marking work from hp] at hrec
    cases hs
    rw [List.append_nil]
    exact hrec
  | receiveFails hp ht => exact (Phase.recorded_error (f := .exception _) (hw.coded _ ht)).1
  | @validate work _ hp =>
    rw [show w.phase = .validating work from hp] at hrec
    obtain ⟨attempt, workspace, threadId, ws, hat, hc, hrec⟩ := hrec
    cases hs with
    | @validate attempt' workspace' args sandbox r hm hm' hv =>
      obtain rfl : attempt' = attempt := by simpa [hrec, begun] using hm
      obtain ⟨rfl, -⟩ : workspace' = workspace ∧ args = _ := by simpa [hrec, begun] using hm'
      cases r with
      | ok validation =>
        intro hf
        exact ⟨attempt', workspace', work.diff, sandbox, w.record, rfl, ⟨threadId, ws, hat, hc, hrec⟩, hv, rfl⟩
      | error failure =>
        intro hf
        have hcode := Sandbox.runValidation_failure hv
        simp [outcomeOf, Outcome.failed, hcode] at hf
    | validateFails hf => exact (Phase.recorded_error hf).1
  | @leave result _ hp =>
    rw [show w.phase = .leaving result from hp] at hrec
    cases hs with
    | leave =>
      rw [List.append_nil]
      exact hrec
    | leaveFails he => exact (Phase.recorded_error (f := .exception _) he).2
  | timeout hp =>
    obtain ⟨rfl, -⟩ := Phase.timedOut_some hp
    exact (Phase.recorded_error (f := .timeoutError) trivial).1
  | overrun hp hcode =>
    cases hs with
    | overrun he => exact (Phase.recorded_error (f := .exception _) he).1
  | cancel hp =>
    obtain ⟨rfl | rfl, -⟩ := Phase.cancelled_some hp
    · exact (Phase.recorded_error (f := .cancelledError) trivial).1
    · exact (Phase.recorded_error (f := .cancelledError) trivial).2
  | others => cases hs
  | finalize => trivial

theorem Inv.coded_next (hw : w.Inv sys) (h : RunOne.Step w.claim (w.view sys) a r) (hs : w.Shows sys.db a events)
    {e : Exn} (ht : r.thread = .failed e) : e.Coded := by
  cases h with
  | check => cases ht
  | commit =>
    cases hm : markValidating w.claim sys.db with
    | error e' =>
      obtain rfl : e' = e := by simpa [view, hm, Thread.after] using ht
      exact markValidating_coded hm
    | ok p => simp [view, hm, Thread.after] at ht
  | lose =>
    cases hs with
    | lose he =>
      obtain rfl := Thread.failed.inj ht
      exact he
  | others => cases hs
  | _ => exact hw.coded e ht

/-- What an attempt reads is what its incident's run froze. -/
theorem Inv.frozen_next (hw : w.Inv sys) (hsys : sys.Inv) (hs : w.Shows sys.db a events) {attempt : Attempt}
    (ha : .read attempt ∈ w.record ++ events) : ∃ run ∈ sys.db.analysisRuns.rows,
      run.incidentId = w.claim.incidentId ∧ attempt.policy = run.policySnapshot ∧ attempt.sha = run.baseCommitSha := by
  rcases List.mem_append.mp ha with ha | ha
  · exact hw.frozen attempt ha
  · cases hs with
    | @read _ _ _ attempt' hread =>
      obtain rfl : attempt = attempt' := by simpa using ha
      obtain ⟨inc, run, event, hi, hrun, -, -, hsha, hpol, -⟩ := readAttempt_ok hread
      obtain ⟨hmr, hri⟩ := analysisRunOf_some hrun
      have hid := incident_id_of_get hi
      obtain ⟨inc', hi', hsha', -⟩ := hsys.pinned.runSha run hmr
      rw [hri, hid] at hi'
      obtain rfl := Option.some.inj (hi.symm.trans hi')
      exact ⟨run, hmr, hri.trans hid, hpol, hsha.trans hsha'.symm⟩
    | _ => simp at ha

theorem Inv.next (hw : w.Inv sys) (hsys : sys.Inv) (h : RunOne.Step w.claim (w.view sys) a r)
    (hs : w.Shows sys.db a events) : (w.next r events).Inv sys where
  issued := hw.issued
  patch := hw.patch
  recorded := hw.recorded_next h hs
  coded _ ht := hw.coded_next h hs ht
  frozen _ ha := hw.frozen_next hsys hs ha

end Working

/-! ## Reachable states -/

namespace Workers

variable {s s' : Workers}

/-- The patch run is what some finished `run_one` has proven. -/
def Backed (s : Workers) (p : PatchRun) : Prop :=
  ∃ k w, s.runs k = some w ∧ w.phase.isFinalized = true ∧ w.claim.incidentId = p.incidentId ∧
    Proven w.record p.changedFiles p.diffText p.validationResult

structure Inv (s : Workers) : Prop where
  sys : Sys.machine.Reachable s.sys
  runs : ∀ k w, s.runs k = some w → w.Inv s.sys
  ready : ∀ p ∈ s.sys.db.patchRuns.rows, p.status = .patchReady → s.Backed p

theorem keeps_step {sys sys' : Sys} {tx : Tx} (hr : Sys.machine.Reachable sys) (h : Sys.machine.step sys tx sys') :
    (∀ claim ∈ sys.issued, claim ∈ sys'.issued) ∧ Keeps sys.db sys'.db :=
  ⟨fun _ hc => RunOne.issued_mono h hc, (Sys.step_moves (Sys.inv_of_reachable hr) h).keeps (Sys.inv_of_reachable hr).ok⟩

theorem Inv.init (h : machine.init s) : s.Inv := by
  obtain ⟨hsys, hn⟩ := h
  refine ⟨.of_init hsys, fun k w hk => ?_, fun p hp => ?_⟩
  · rw [hn k] at hk
    cases hk
  · obtain ⟨services, -, he⟩ := hsys
    rw [he] at hp
    exact (List.not_mem_nil hp).elim

/-- What a finished `run_one` has proven stays so. -/
theorem Backed.update {p : PatchRun} {sys : Sys} {k : ℕ} {w' : Working} (h : s.Backed p)
    (hkeep : ∀ w, s.runs k = some w → w.phase.isFinalized = true →
      w'.phase.isFinalized = true ∧ w'.claim = w.claim ∧ w'.record = w.record) :
    Backed ⟨sys, Function.update s.runs k (some w')⟩ p := by
  obtain ⟨k', w, hk, hf, hi, hp⟩ := h
  by_cases he : k' = k
  · subst he
    obtain ⟨hf', hc, hr⟩ := hkeep w hk hf
    exact ⟨k', w', Function.update_self .., hf', by rw [hc, hi], by rw [hr]; exact hp⟩
  · exact ⟨k', w, (Function.update_of_ne he ..).trans hk, hf, hi, hp⟩

/-- A run replaced or added, every other as it was. -/
theorem Inv.update (hs : s.Inv) {sys : Sys} {k : ℕ} {w' : Working} (hw : w'.Inv sys)
    (hi : ∀ claim ∈ s.sys.issued, claim ∈ sys.issued) (hk : Keeps s.sys.db sys.db) (k' : ℕ) (w : Working)
    (h : Function.update s.runs k (some w') k' = some w) : w.Inv sys := by
  by_cases he : k' = k
  · subst he
    rw [Function.update_self] at h
    cases h
    exact hw
  · rw [Function.update_of_ne he] at h
    exact (hs.runs k' w h).mono hi hk

theorem Inv.claim (hs : s.Inv) {k : ℕ} {settings : Settings} {env : Env} {skip : Uuid → Bool} {claim : Claim}
    {db : Store} (hk : s.runs k = none) (hc : claimJob settings env skip s.sys.db = .ok (some claim, db))
    (ht : claim.type = .patch) :
    Inv ⟨s.sys.exec (.claimJob settings env skip), Function.update s.runs k (some (.start claim))⟩ := by
  have hstep : Sys.machine.step s.sys (.claimJob settings env skip) (s.sys.exec (.claimJob settings env skip)) :=
    ⟨trivial, rfl⟩
  obtain ⟨hi, hkeeps⟩ := keeps_step hs.sys hstep
  have hw : (Working.start claim).Inv (s.sys.exec (.claimJob settings env skip)) := by
    refine ⟨?_, ht, rfl, nofun, nofun⟩
    simp only [Sys.exec, hc]
    exact List.mem_cons_self ..
  refine ⟨hs.sys.step hstep, hs.update hw hi hkeeps, fun p hp hr => ?_⟩
  rcases Sys.ready_step (Sys.inv_of_reachable hs.sys) hstep hp hr with hp | ⟨_, _, _, _, _, htx, -⟩
  · refine (hs.ready p hp hr).update fun w hw => ?_
    rw [hk] at hw
    cases hw
  · cases htx

theorem Inv.act (hs : s.Inv) {k : ℕ} {w : Working} {a : Act} {r : RunOne} {events : List Event}
    (hk : s.runs k = some w) (h : RunOne.Step w.claim (w.view s.sys) a r) (hshow : w.Shows s.sys.db a events) :
    Inv ⟨r.sys, Function.update s.runs k (some (w.next r events))⟩ := by
  have hw := hs.runs k w hk
  have hsys := Sys.inv_of_reachable hs.sys
  have hnext := hw.next hsys h hshow
  have hkeep : ∀ w₀, s.runs k = some w₀ → w₀.phase.isFinalized = true →
      (w.next r events).phase.isFinalized = true ∧ (w.next r events).claim = w₀.claim ∧
        (w.next r events).record = w₀.record := by
    intro w₀ hk₀ hf
    obtain rfl := Option.some.inj (hk.symm.trans hk₀)
    obtain ⟨hf', hr⟩ := Working.next_finalized h hshow hf
    exact ⟨hf', rfl, hr⟩
  -- a transaction of `run_one` that makes no patch ready
  have quiet : ∀ tx, Sys.machine.step s.sys tx r.sys → (∀ env claim outcome version, tx = .finalize env claim outcome version →
      False) → Inv ⟨r.sys, Function.update s.runs k (some (w.next r events))⟩ := by
    intro tx hstep hno
    obtain ⟨hi, hkeeps⟩ := keeps_step hs.sys hstep
    refine ⟨hs.sys.step hstep, hs.update (hnext.mono hi hkeeps) hi hkeeps, fun p hp hr => ?_⟩
    rcases Sys.ready_step hsys hstep hp hr with hp | ⟨env, claim, outcome, version, _, htx, -⟩
    · exact (hs.ready p hp hr).update hkeep
    · exact (hno _ _ _ _ htx).elim
  rcases Working.sys_of_step h hw.issued hshow with he | hstep | ⟨result, env, hphase, hfin, rfl, hstep⟩
  · refine ⟨he ▸ hs.sys, ?_, fun p hp hr => ?_⟩
    · rw [he]
      exact hs.update hnext (fun _ h => h) (.refl _)
    · rw [he] at hp
      exact (hs.ready p hp hr).update hkeep
  · exact quiet _ hstep fun _ _ _ _ htx => Tx.noConfusion htx
  · obtain ⟨hi, hkeeps⟩ := keeps_step hs.sys hstep
    refine ⟨hs.sys.step hstep, hs.update (hnext.mono hi hkeeps) hi hkeeps, fun p hp hr => ?_⟩
    rcases Sys.ready_step hsys hstep hp hr with hp | ⟨env', claim, outcome, version, patch, htx, -, hfail, hid, rfl⟩
    · exact (hs.ready p hp hr).update hkeep
    · cases htx
      rw [hw.patch] at hfail ⊢
      have hrec := hw.recorded
      rw [hphase] at hrec
      refine ⟨k, w.next r [], Function.update_self .., hfin, hid.symm, ?_⟩
      rw [Working.next, List.append_nil]
      exact hrec hfail

theorem Inv.step {l : Label} (hs : s.Inv) (h : machine.step s l s') : s'.Inv := by
  cases h with
  | claim hk hc ht => exact hs.claim hk hc ht
  | act hk h hshow => exact hs.act hk h hshow
  | @other tx hallows hno =>
    have hstep : Sys.machine.step s.sys tx (s.sys.exec tx) := ⟨hallows, rfl⟩
    obtain ⟨hi, hkeeps⟩ := keeps_step hs.sys hstep
    refine ⟨hs.sys.step hstep, fun k w hk => (hs.runs k w hk).mono hi hkeeps, fun p hp hr => ?_⟩
    rcases Sys.ready_step (Sys.inv_of_reachable hs.sys) hstep hp hr with hp | ⟨_, claim, _, _, _, rfl, ht, -⟩
    · exact hs.ready p hp hr
    · simp [isPatchWork, ht] at hno

theorem inv_of_reachable (h : machine.Reachable s) : s.Inv :=
  h.invariant (fun _ => Inv.init) fun _ _ _ hs hstep => hs.step hstep

/-- **A ready patch is proven by one attempt**: some `run_one` read the incident's frozen policy and commit, entered a
worktree of that commit, passed `check_diff` there and ran all commands of the policy in their order with exit code 0; the
patch run has what this check and this validation returned. -/
theorem ready_proven (h : machine.Reachable s) {p : PatchRun} (hp : p ∈ s.sys.db.patchRuns.rows)
    (hr : p.status = .patchReady) :
    ∃ k w attempt workspace threadId ws diff sandbox commands,
      s.runs k = some w ∧ w.claim.incidentId = p.incidentId ∧
      w.record = [.read attempt, .entered workspace (worktreeArgs workspace attempt.sha), .patched threadId,
        .checked ws p.changedFiles diff, .validated sandbox (.ok p.validationResult)] ∧
      (∃ run ∈ s.sys.db.analysisRuns.rows, run.incidentId = p.incidentId ∧ attempt.policy = run.policySnapshot) ∧
      (∃ inc, s.sys.db.incidents.get p.incidentId = some inc ∧ attempt.sha = inc.baseCommitSha) ∧
      ws.At workspace ∧ checkDiff ws attempt.policy = .ok (p.changedFiles, diff) ∧ p.diffText = some diff ∧
      attempt.policy.getItem "validationCommands" = .ok (.arr commands) ∧
      p.validationResult.length = commands.length ∧
      ∀ n item, commands[n]? = some item → ∃ entry, p.validationResult[n]? = some entry ∧
        sandbox.Passes workspace n item entry ∧ entry.get? "id" = item.get? "id" ∧
        entry.get? "status" = some (.str (lit "PASSED")) := by
  have hs := inv_of_reachable h
  obtain ⟨k, w, hk, -, hid, attempt, workspace, diff, sandbox, checked, hdiff, ⟨threadId, ws, hat, hc, rfl⟩, hv, hrec⟩ :=
    hs.ready p hp hr
  obtain ⟨run, hrun, hi, hpol, hsha⟩ := (hs.runs k w hk).frozen attempt (by rw [hrec]; simp [begun])
  obtain ⟨inc, hinc, hsha', -⟩ := (Sys.inv_of_reachable hs.sys).pinned.runSha run hrun
  obtain ⟨commands, hcmd, hlen, hall⟩ := Sandbox.runValidation_ok hv
  refine ⟨k, w, attempt, workspace, threadId, ws, diff, sandbox, commands, hk, hid, hrec, ⟨run, hrun, hi.trans hid, hpol⟩,
    ⟨inc, by rw [← hid, ← hi]; exact hinc, hsha.trans hsha'⟩, hat, hc, hdiff, hcmd, hlen, fun n item hn => ?_⟩
  obtain ⟨entry, he, hpass⟩ := hall n item hn
  exact ⟨entry, he, hpass, hpass.reported.1, hpass.reported.2.1⟩

/-! ## A sample attempt -/

theorem reachable_others {txs : List Tx} (h : machine.Reachable s) (hp : s.sys.Permits txs)
    (hno : ∀ tx ∈ txs, isPatchWork tx = false) : machine.Reachable ⟨s.sys.execAll txs, s.runs⟩ := by
  induction txs generalizing s with
  | nil => exact h
  | cons tx txs ih =>
    rw [List.forall_mem_cons] at hno
    exact ih (h.step (show machine.step s (.other tx) _ from .other hp.1 hno.1)) hp.2 hno.2

/-- A step of the `run_one` that has just moved. -/
theorem reachable_act {sys : Sys} {runs : ℕ → Option Working} {k : ℕ} {w : Working} {a : Act} {r : RunOne}
    {events : List Event} (h : machine.Reachable ⟨sys, Function.update runs k (some w)⟩)
    (hstep : RunOne.Step w.claim (w.view sys) a r) (hshow : w.Shows sys.db a events) :
    machine.Reachable ⟨r.sys, Function.update runs k (some (w.next r events))⟩ := by
  have hs := h.step (show machine.step _ (.act k a) _ from .act (Function.update_self ..) hstep hshow)
  simpa only [Function.update_idem] using hs

end Workers

namespace Evidence

open Workers Sample Interrupted

def changed : List PyStr := [lit "src/a.py"]

/-- What Git prints in the worktree. -/
def answer : DiffCommand → Bytes
  | .diffNameOnly => Utf8.encode (lit "src/a.py") ++ [NUL]
  | .lsStage _ => Utf8.encode (lit "100644 0 src/a.py")
  | .diffNumstat =>
    Utf8.encode (lit "2") ++ TAB :: Utf8.encode (lit "1") ++ TAB :: Utf8.encode (lit "src/a.py") ++ [NUL]
  | .diffText => Utf8.encode (lit "diff")
  | _ => []

def git : GitHost where
  run _ args :=
    match ([.diffNameOnly, .lsStage (lit "src/a.py"), .diffNumstat, .diffText] : List DiffCommand).find? (·.args = args) with
    | some c => .exited 0 (answer c)
    | none => .exited 0 []
  resolvePath text := [text]
  resolveAgain path := path

def ws : Workspace := git.workspace [lit "/w"] fun _ => .file

theorem ws_at : ws.At (lit "/w") := ⟨git, fun _ => .file, rfl⟩

def sandbox : Sandbox := ⟨true, fun _ => false, fun _ _ _ => .ok ⟨false, 0, [], 7⟩⟩

theorem passes : checkDiff ws attempt.policy = .ok (changed, lit "diff") := by rfl

def validation : List Json := [(⟨false, 0, [], 7⟩ : CommandRun).entry (.str (lit "tests"))]

theorem validates : sandbox.runValidation (lit "/w") attempt.policy = .ok (.ok validation) := by rfl

def record : List Event :=
  [.read attempt, .entered (lit "/w") (worktreeArgs (lit "/w") sha), .patched (lit "thread"),
    .checked ws changed (lit "diff"), .validated sandbox (.ok validation)]

def marked : Sys := claimed.exec (.markValidating patchClaim)

def outcome : Outcome :=
  { threadId := some (lit "thread"), changedFiles := changed, diff := some (lit "diff"), validation := validation }

def finished : Sys := marked.exec (.finalize (env 6) patchClaim outcome (some 5))

/-- The one `run_one` of the sample. -/
def only (phase : Phase) (versionRef : ℕ) (thread : Thread) (n : ℕ) : ℕ → Option Working :=
  Function.update (fun _ => none) 0 (some ⟨patchClaim, phase, versionRef, thread, false, record.take n⟩)

theorem started : machine.Reachable ⟨claimed, only .reading 4 .idle 0⟩ := by
  have h : machine.Reachable ⟨start, fun _ => none⟩ := .of_init ⟨⟨_, by decide, rfl⟩, fun _ => rfl⟩
  have h₀ : machine.Reachable ⟨approved, fun _ => none⟩ :=
    reachable_others h (show start.Permits Interrupted.txs by decide) (by decide)
  have hc : claimJob settings (env 5) (fun _ => false) approved.db = .ok (some patchClaim, claimed.db) := by rfl
  exact h₀.step (show machine.step _ (.claim 0 settings (env 5) fun _ => false) _ from .claim rfl hc rfl)

theorem checkedOnce : machine.Reachable ⟨claimed, only (.marking work) 4 .running 4⟩ := by
  have h₁ : machine.Reachable ⟨claimed, only (.resolving attempt) 4 .idle 1⟩ :=
    reachable_act started (.read rfl) (.read attempt_read)
  have h₂ : machine.Reachable ⟨claimed, only (.entering attempt) 4 .idle 1⟩ :=
    reachable_act h₁ (.resolve rfl) (@Working.Shows.resolve _ _ sha)
  have h₃ : machine.Reachable ⟨claimed, only .patching 4 .idle 2⟩ :=
    reachable_act h₂ (.enter rfl) (.enter (List.mem_singleton_self _))
  have h₄ : machine.Reachable ⟨claimed, only (.checking (lit "thread")) 4 .idle 3⟩ :=
    reachable_act h₃ (.patch rfl) .patch
  exact reachable_act h₄ (.check rfl)
    (.check (List.mem_cons_self ..) (List.mem_cons_of_mem _ (List.mem_cons_self ..)) ws_at passes)

theorem ended : machine.Reachable ⟨finished, only (.finalized (.ok true)) 5 (.committed 5) 5⟩ := by
  have h₁ : machine.Reachable ⟨marked, only (.marking work) 4 (.committed 5) 4⟩ :=
    reachable_act checkedOnce (.commit rfl) .commit
  have h₂ : machine.Reachable ⟨marked, only (.validating work) 5 (.committed 5) 4⟩ :=
    reachable_act h₁ (.receive rfl rfl) .receive
  have h₃ : machine.Reachable ⟨marked, only (.leaving (.ok outcome)) 5 (.committed 5) 5⟩ :=
    reachable_act h₂ (.validate rfl) (.validate (List.mem_cons_self ..) (List.mem_cons_of_mem _ (List.mem_cons_self ..))
      validates)
  have h₄ : machine.Reachable ⟨marked, only (.ended (.ok outcome)) 5 (.committed 5) 5⟩ :=
    reachable_act h₃ (show RunOne.Step patchClaim _ (.leave (.ok ())) _ from .leave rfl nofun) .leave
  exact reachable_act h₄ (show RunOne.Step patchClaim _ (.finalize (env 6)) _ from .finalize rfl) .finalize

/-- The sample attempt makes its patch ready. -/
theorem ready_proven_sample : ∃ p ∈ finished.db.patchRuns.rows, p.status = .patchReady ∧ p.changedFiles = changed ∧
    ∃ k w, only (.finalized (.ok true)) 5 (.committed 5) 5 k = some w ∧ w.claim.incidentId = p.incidentId := by
  obtain ⟨p, hp, hr⟩ : ∃ p ∈ finished.db.patchRuns.rows, p.status = .patchReady ∧ p.changedFiles = changed := by decide
  obtain ⟨k, w, -, -, -, -, -, -, -, hk, hid, -⟩ := ready_proven ended hp hr.1
  exact ⟨p, hp, hr.1, hr.2, k, w, hk, hid⟩

end Evidence

end Aeh
