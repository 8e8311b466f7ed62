import Aeh.OpenIndex

/-!
# Lifecycle — the transitions of an incident under `run_one`

Workers that drive their claims through `run_one` finish a patch only with the version `mark_validating`
returned.  `Sys.workers` is the system with this discipline.  An incident then moves along the nine
transitions of the documented state machine, one version each, and no worker or approval step meets the
index on open incidents.
-/

namespace Aeh

/-- The documented transitions. -/
inductive Transition : IncidentState → IncidentState → Prop
  | claimed : Transition .received .analyzing
  | analyzed : Transition .analyzing .awaitingApproval
  | analysisFailed : Transition .analyzing .analysisFailed
  | approved : Transition .awaitingApproval .patching
  | marked : Transition .patching .validating
  | reclaimed : Transition .validating .patching
  | patchFailed : Transition .patching .patchFailed
  | validationFailed : Transition .validating .patchFailed
  | patchReady : Transition .validating .patchReady

theorem IncidentState.Next.transition {a b : IncidentState} (h : a.Next (· = .validating) b) : Transition a b := by
  cases h with
  | claimed => exact .claimed
  | analyzed => exact .analyzed
  | analysisFailed => exact .analysisFailed
  | approved => exact .approved
  | marked => exact .marked
  | reclaimed => exact .reclaimed
  | patchFailed _ h =>
    rcases h with rfl | rfl
    · exact .patchFailed
    · exact .validationFailed
  | patchReady _ _ hR =>
    subst hR
    exact .patchReady

theorem Transition.isOpen {a b : IncidentState} (h : Transition a b) : a.isOpen = true := by cases h <;> rfl

namespace Sys

/-- `run_one` reports a patch as a success only with the version `mark_validating` returned. -/
def Disciplined (s : Sys) : Tx → Prop
  | .finalize _ claim outcome version =>
    claim.type = .patch → outcome.failed = false → ∃ v ∈ version, (claim, v) ∈ s.marked
  | _ => True

/-- The system whose workers go through `run_one`. -/
def workers : Machine Sys Tx where
  init := Start
  step s tx s' := machine.step s tx s' ∧ s.Disciplined tx

theorem reachable_of_workers {s : Sys} (h : workers.Reachable s) : machine.Reachable s :=
  Machine.Reachable.map (M := machine) (N := workers) (fun s => s) (fun _ h => h) (fun _ _ _ h hs => h.step hs.1) h

/-! ## The versions `mark_validating` returns -/

/-- An incident still at the version a `mark_validating` returned is being validated. -/
def Marks (s : Sys) : Prop :=
  ∀ c v, (c, v) ∈ s.marked → ∃ inc, s.db.incidents.get c.incidentId = some inc ∧ v ≤ inc.version ∧
    (inc.version = v → inc.state = .validating)

/-- What a transaction adds to the marks. -/
theorem marked_step {s s' : Sys} {tx : Tx} (h : machine.step s tx s') :
    s'.marked = s.marked ∨ ∃ claim v, tx = .markValidating claim ∧ Aeh.markValidating claim s.db = .ok (v, s'.db) ∧
      s'.marked = (claim, v) :: s.marked := by
  obtain ⟨-, rfl⟩ := h
  cases tx with
  | claimJob settings env skip =>
    simp only [exec]
    split <;> exact Or.inl rfl
  | markValidating claim =>
    simp only [exec]
    split
    · rename_i v db' hm
      exact Or.inr ⟨claim, v, rfl, hm, rfl⟩
    · exact Or.inl rfl
  | _ => exact Or.inl rfl

theorem Marks.step {s s' : Sys} {tx : Tx} (hs : s.Inv) (hm : s.Marks) (h : machine.step s tx s') : s'.Marks := by
  intro c v hc
  have old : (c, v) ∈ s.marked → ∃ inc, s'.db.incidents.get c.incidentId = some inc ∧ v ≤ inc.version ∧
      (inc.version = v → inc.state = .validating) := by
    intro hc
    obtain ⟨inc, hi, hle, hv⟩ := hm c v hc
    obtain ⟨inc', hi', -, hn⟩ := (step_moves hs h).incident hs.ok hi
    refine ⟨inc', hi', ?_⟩
    rcases hn with ⟨hst, hver⟩ | ⟨-, hver⟩
    · exact ⟨by omega, fun he => by rw [hst]; exact hv (by omega)⟩
    · exact ⟨by omega, fun he => by omega⟩
  rcases marked_step h with he | ⟨claim, v', -, hmark, he⟩
  · exact old (he ▸ hc)
  · rw [he] at hc
    rcases List.mem_cons.mp hc with heq | hc
    · cases heq
      obtain ⟨job, inc, patch, db₁, -, -, hi, -, hu, -, rfl, hdb⟩ := markValidating_ok hmark
      have hid := incident_id_of_get hi
      have hget : s'.db.incidents.get c.incidentId = some (inc.moveTo .validating) := by
        rw [hdb, Store.updateIncident_ok hu, ← hid]
        exact Table.get_put_self (x := inc.moveTo .validating) (y := inc) (by rw [← hid] at hi; exact hi)
      exact ⟨_, hget, le_rfl, fun _ => rfl⟩
    · exact old hc

theorem marks_of_reachable {s : Sys} (h : machine.Reachable s) : s.Marks := by
  have hboth : s.Inv ∧ s.Marks := by
    refine h.invariant (I := fun s => s.Inv ∧ s.Marks) (fun s h₀ => ⟨.init h₀, ?_⟩)
      (fun _ _ _ hs hstep => ⟨hs.1.step hstep, hs.2.step hs.1 hstep⟩)
    obtain ⟨services, -, rfl⟩ := h₀
    exact fun _ _ hc => (List.not_mem_nil hc).elim
  exact hboth.2

/-! ## Transitions -/

/-- A step of disciplined workers makes a patch ready only where it is validated. -/
theorem workers_moves {s s' : Sys} {tx : Tx} (h : workers.Reachable s) (hs : workers.step s tx s') :
    Moves (· = .validating) s.db s'.db := by
  have hreach := reachable_of_workers h
  refine step_moves_of (inv_of_reachable hreach) hs.1 ?_
  rintro env claim outcome version rfl ht inc hi hv hf
  obtain ⟨v, rfl, hmark⟩ := hs.2 ht hf
  obtain ⟨inc', hi', -, hw⟩ := marks_of_reachable hreach claim v hmark
  obtain rfl := Option.some.inj (hi.symm.trans hi')
  exact hw hv

theorem workers_incident {s s' : Sys} {tx : Tx} (h : workers.Reachable s) (hs : workers.step s tx s') {i : Uuid}
    {inc : Incident} (hi : s.db.incidents.get i = some inc) :
    ∃ inc', s'.db.incidents.get i = some inc' ∧
      ((inc'.state = inc.state ∧ inc'.version = inc.version) ∨
        (Transition inc.state inc'.state ∧ inc'.version = inc.version + 1)) := by
  obtain ⟨inc', hi', -, hn⟩ := (workers_moves h hs).incident (inv_of_reachable (reachable_of_workers h)).ok hi
  exact ⟨inc', hi', hn.imp id fun hn => ⟨hn.1.transition, hn.2⟩⟩

end Sys

/-! ## Conflicts -/

/-- The exception a transaction ends with. -/
def raised {α : Type} : Except Exn α → Option Exn
  | .ok _ => none
  | .error e => some e

theorem raised_eq {α : Type} {x : Except Exn α} {e : Exn} : raised x = some e ↔ x = .error e := by
  cases x <;> simp [raised]

def Tx.raised (tx : Tx) (db : Store) : Option Exn :=
  match tx with
  | .ingest env request intake sha => Aeh.raised (ingestResolved env request intake sha db)
  | .approve env incidentId key => Aeh.raised (approveOnce env incidentId key db)
  | .syncServices settings fs env policies => Aeh.raised (Aeh.syncServices settings fs env policies db)
  | .claimJob settings env skip => Aeh.raised (Aeh.claimJob settings env skip db)
  | .heartbeat env claim => Aeh.raised (Aeh.heartbeat env claim db)
  | .recoverExpired env rows => Aeh.raised (Aeh.recoverExpired env rows db)
  | .markValidating claim => Aeh.raised (Aeh.markValidating claim db)
  | .finalize env claim outcome version => Aeh.raised (Aeh.finalize env claim outcome version db)

/-- The steps of workers and of approvals. -/
def Tx.isWorkOrApproval : Tx → Bool
  | .ingest .. | .syncServices .. => false
  | .approve .. | .claimJob .. | .heartbeat .. | .recoverExpired .. | .markValidating .. | .finalize .. => true

/-- A row of a table workers and approvals insert into has the primary key. -/
def Store.UsesKey (db : Store) (id : Uuid) : Prop :=
  (∃ r ∈ db.analysisRuns.rows, r.id = id) ∨ (∃ a ∈ db.approvals.rows, a.id = id) ∨
    (∃ p ∈ db.patchRuns.rows, p.id = id) ∨ ∃ j ∈ db.jobs.rows, j.id = id

section Conflicts

open Store

variable {db : Store} {settings : Settings} {env : Env}

theorem claimAnalyze_conflict {inc : Incident} (hu : db.OpenUnique) (hi : inc ∈ db.incidents.rows)
    (h : claimAnalyze settings env inc db = .error .integrityError) :
    ∃ r ∈ db.analysisRuns.rows, r.id = env.uuid 1 := by
  rcases bind_eq_error.mp h with h | ⟨db₁, h₁, h⟩
  · unfold ensureRun at h
    split at h
    · cases h
    · rename_i hn
      split at h
      · cases h
      · rcases bind_eq_error.mp h with h | ⟨policy, -, h⟩
        · cases ServicePolicy.modelValidate_fails _ _ _ h
        · rcases bind_eq_error.mp h with h | ⟨t, -, h⟩
          · rcases Table.insert_eq_none (unique_error h) with ⟨r, hr, hk⟩ | ⟨r, hr, hk⟩
            · exact ⟨r, hr, hk⟩
            · have := Table.first_eq_none.mp hn r hr
              simp only [decide_eq_true_eq] at this hk
              exact absurd hk.symm this
          · cases h
  · split_ifs at h with hs
    have he := ensureRun_incidents h₁
    have htotal := Store.updateIncident_total (hu.of_eq he) (by rw [he]; exact hi) (inc.sameCase_moveTo .analyzing)
      (fun _ => by rw [hs]; rfl)
    rcases bind_eq_error.mp h with h | ⟨db₂, -, h⟩
    · cases htotal.symm.trans h
    · cases h

theorem claimPatch_conflict {inc : Incident} (hu : db.OpenUnique) (hi : inc ∈ db.incidents.rows) :
    claimPatch env inc db ≠ .error .integrityError := by
  intro h
  unfold claimPatch at h
  split at h
  · cases h
  · rename_i patch _
    split at h
    · cases h
    · split at h
      · rename_i hs
        have hu' : (db.putPatchRun (patch.started (env.now 2))).OpenUnique := hu.of_eq rfl
        have htotal := Store.updateIncident_total hu' hi (inc.sameCase_moveTo .patching) (fun _ => by rw [hs]; rfl)
        rcases bind_eq_error.mp h with h | ⟨db₂, -, h⟩
        · cases htotal.symm.trans h
        · cases h
      · cases h

/-- A claim conflicts only where the id it draws for the run is taken. -/
theorem claimJob_conflict {skip : Uuid → Bool} (hu : db.OpenUnique)
    (h : claimJob settings env skip db = .error .integrityError) : ∃ r ∈ db.analysisRuns.rows, r.id = env.uuid 1 := by
  unfold claimJob at h
  split at h
  · cases h
  · rename_i job _
    split at h
    · cases h
    · rename_i inc hi
      have hm := (Table.get_eq_some.mp hi).1
      rcases bind_eq_error.mp h with h | ⟨_, -, h⟩
      · have hu' : (db.putJob (job.claimed (env.uuid 0) settings.workerId (env.now 1))).OpenUnique := hu.of_eq rfl
        simp only [claimBranch] at h
        split at h
        · have hrun := claimAnalyze_conflict hu' hm h
          exact hrun
        · exact absurd h (claimPatch_conflict hu' hm)
      · cases h

/-- The incident of a running job is open. -/
theorem Dossier.Ok.running_open {d : Dossier} (hd : d.Ok) {j : Job} (hj : j ∈ d.jobs) (hs : j.status = .running)
    {inc : Incident} (hi : d.incident = some inc) : inc.state.isOpen = true := by
  cases ht : j.type with
  | analyze =>
    rcases hd.analyze_active hj ht (Or.inr hs) with ⟨_, rfl, hst, -⟩ | ⟨_, _, rfl, hst, -⟩
    · cases hi
      rw [hst]
      rfl
    · cases hi
      rw [hst]
      rfl
  | patch =>
    obtain ⟨_, _, _, _, _, rfl, hst, -⟩ := hd.patch_active hj ht (Or.inr hs)
    cases hi
    rcases hst with ⟨hst, -⟩ | ⟨hst, -⟩
    · rw [hst]
      rfl
    · rw [hst]
      rfl

theorem heartbeat_conflict {claim : Claim} : heartbeat env claim db ≠ .error .integrityError := by
  intro h
  unfold heartbeat at h
  split at h <;> cases h

theorem markValidating_conflict {claim : Claim} (hu : db.OpenUnique) (hc : claim.Fits db) :
    markValidating claim db ≠ .error .integrityError := by
  intro h
  unfold markValidating at h
  split at h
  · rename_i job inc hj hi
    split at h
    · cases h
    · rename_i hcur
      obtain ⟨inc', hi', -, hw⟩ := hc.incident
      obtain rfl := Option.some.inj (hi.symm.trans hi')
      have ho : inc.state.isOpen = true := by
        rw [hw (not_not.mp fun hv => hcur (Or.inr (Or.inr hv)))]
        cases claim.type <;> rfl
      have htotal := Store.updateIncident_total hu (Table.get_eq_some.mp hi).1 (inc.sameCase_moveTo .validating)
        (fun _ => ho)
      rcases bind_eq_error.mp h with h | ⟨db₁, -, h⟩
      · cases htotal.symm.trans h
      · split at h <;> cases h
  · cases h

theorem finish_conflict {t : Time} {type : JobType} {inc : Incident} {outcome : Outcome} (hu : db.OpenUnique)
    (hi : inc ∈ db.incidents.rows) (ho : inc.state.isOpen = true) :
    finish t type inc outcome db ≠ .error .integrityError := by
  intro h
  unfold finish at h
  split at h
  · split at h
    · cases h
    · rename_i run _
      have hu' : (db.putAnalysisRun (run.finished outcome t)).OpenUnique := hu.of_eq rfl
      cases (Store.updateIncident_total hu' hi (inc.sameCase_moveTo _) fun _ => ho).symm.trans h
  · split at h
    · cases h
    · rename_i patch _
      have hu' : (db.putPatchRun (patch.finished outcome t)).OpenUnique := hu.of_eq rfl
      cases (Store.updateIncident_total hu' hi (inc.sameCase_moveTo _) fun _ => ho).symm.trans h

/-- A value the database does not hold violates no constraint. -/
theorem writes_conflict {α : Type} {held : Bool} {a : α} : (writes held >>= fun _ => .ok a) ≠ .error Exn.integrityError := by
  cases held <;> exact nofun

theorem finalize_conflict {claim : Claim} {outcome : Outcome} {version : Option ℕ} (hu : db.OpenUnique)
    (hok : ∀ i, (db.dossier i).Ok) (hc : claim.Fits db) :
    finalize env claim outcome version db ≠ .error .integrityError := by
  intro h
  unfold finalize at h
  split at h
  · cases h
  · rename_i job hj
    split at h
    · cases h
    · rename_i hcur
      split at h
      · cases h
      · rename_i inc hi
        split_ifs at h
        · exact writes_conflict h
        rcases bind_eq_error.mp h with h | ⟨_, -, h⟩
        · obtain ⟨-, hij, -⟩ := hc.of_get hj
          have hs : job.status = .running := not_not.mp fun hs => hcur (Or.inl hs)
          have hm : job ∈ (db.dossier claim.incidentId).jobs :=
            Store.mem_dossier_jobs.mpr ⟨(Table.get_eq_some.mp hj).1, hij⟩
          have ho := (hok claim.incidentId).running_open hm hs hi
          have hu' : (db.putJob (job.ended outcome.errorCode outcome.errorDetail outcome.jobStatus)).OpenUnique :=
            hu.of_eq rfl
          exact finish_conflict hu' (Table.get_eq_some.mp hi).1 ho h
        · exact writes_conflict h

theorem recoverOne_conflict {t : Time} {job : Job} (hu : db.OpenUnique) :
    recoverOne t db job ≠ .error .integrityError := by
  intro h
  unfold recoverOne at h
  split at h
  · cases h
  · rename_i inc hi
    have hm := (Table.get_eq_some.mp hi).1
    split at h
    · cases h
    · simp only at h
      split at h
      · split at h
        · cases h
        · rename_i run _
          have hu' : ((db.putJob (job.ended expiredCode expiredDetail .failed)).putAnalysisRun
            (run.expired t)).OpenUnique := hu.of_eq rfl
          cases (Store.updateIncident_total hu' hm (inc.sameCase_moveTo .analysisFailed) nofun).symm.trans h
      · split at h
        · cases h
        · rename_i patch _
          have hu' : ((db.putJob (job.ended expiredCode expiredDetail .failed)).putPatchRun
            (patch.expired t)).OpenUnique := hu.of_eq rfl
          cases (Store.updateIncident_total hu' hm (inc.sameCase_moveTo .patchFailed) nofun).symm.trans h

theorem recoverAll_conflict {k : ℕ} {jobs : List Job} (hu : db.OpenUnique) :
    recoverAll env k jobs db ≠ .error .integrityError := by
  induction jobs generalizing k db with
  | nil => exact nofun
  | cons job jobs ih =>
    intro h
    rcases bind_eq_error.mp h with h | ⟨db₁, h₁, h⟩
    · exact recoverOne_conflict hu h
    · exact ih (recoverOne_openUnique hu h₁) h

theorem recoverExpired_conflict {rows : List Uuid} (hu : db.OpenUnique) :
    recoverExpired env rows db ≠ .error .integrityError := by
  intro h
  rcases bind_eq_error.mp h with h | ⟨_, -, h⟩
  · exact recoverAll_conflict hu h
  · cases h

/-- The rows of an approval conflict only where an id drawn for them is taken. -/
theorem addApproved_conflict {inc : Incident} {run : AnalysisRun} {key : Uuid} (hu : db.OpenUnique)
    (hok : ∀ i, (db.dossier i).Ok) (hi : inc ∈ db.incidents.rows) (hs : inc.state = .awaitingApproval)
    (hkey : IncidentRepository.approvalByKey db key = none)
    (hinc : IncidentRepository.approvalForIncident db inc.id = none)
    (h : addApproved env inc run key db = .error .integrityError) : ∃ n, db.UsesKey (env.uuid n) := by
  rcases bind_eq_error.mp h with h | ⟨db₁, h₁, h⟩
  · -- the approval: its incident has none and its key is new
    rcases bind_eq_error.mp h with h | ⟨_, -, h⟩
    · rcases Table.insert_eq_none (unique_error h) with ⟨a, ha, hk⟩ | ⟨a, ha, hc⟩
      · exact ⟨0, Or.inr (Or.inl ⟨a, ha, hk⟩)⟩
      · have h1 := Table.first_eq_none.mp hinc a ha
        have h2 := Table.first_eq_none.mp hkey a ha
        simp only [decide_eq_true_eq] at h1 h2
        rcases Bool.or_eq_true_iff.mp hc with hc | hc
        · exact absurd (of_decide_eq_true hc).symm h1
        · exact absurd (of_decide_eq_true hc).symm h2
    · cases h
  obtain ⟨t₁, -, rfl⟩ := addApproval_ok h₁
  rcases bind_eq_error.mp h with h | ⟨db₂, h₂, h⟩
  · -- the patch run: every stored one has a stored approval
    rcases bind_eq_error.mp h with h | ⟨_, -, h⟩
    · rcases Table.insert_eq_none (unique_error h) with ⟨p, hp, hk⟩ | ⟨p, hp, hc⟩
      · exact ⟨1, Or.inr (Or.inr (Or.inl ⟨p, hp, hk⟩))⟩
      · obtain ⟨a, ha, hpa⟩ := (hok p.incidentId).keys.1 p (mem_dossier_patchRuns.mpr ⟨hp, rfl⟩)
        obtain ⟨ham, hai⟩ := mem_dossier_approvals.mp ha
        rcases Bool.or_eq_true_iff.mp hc with hc | hc
        · have hne := Table.first_eq_none.mp hinc a ham
          simp only [decide_eq_true_eq] at hne
          exact absurd (hai.trans (of_decide_eq_true hc).symm) hne
        · exact ⟨0, Or.inr (Or.inl ⟨a, ham, hpa.symm.trans (of_decide_eq_true hc).symm⟩)⟩
    · cases h
  obtain ⟨t₂, -, rfl⟩ := addPatchRun_ok h₂
  rcases bind_eq_error.mp h with h | ⟨db₃, h₃, h⟩
  · -- the job: its key names the new approval
    rcases bind_eq_error.mp h with h | ⟨_, -, h⟩
    · rcases Table.insert_eq_none (unique_error h) with ⟨j, hj, hk⟩ | ⟨j, hj, hc⟩
      · exact ⟨2, Or.inr (Or.inr (Or.inr ⟨j, hj, hk⟩))⟩
      · have hkj := (of_decide_eq_true hc).symm
        obtain ⟨a, ha, hja⟩ := (hok j.incidentId).keys.2 j (mem_dossier_jobs.mpr ⟨hj, rfl⟩) _ hkj
        exact ⟨0, Or.inr (Or.inl ⟨a, (mem_dossier_approvals.mp ha).1, hja.symm⟩)⟩
    · cases h
  obtain ⟨t₃, -, rfl⟩ := addJob_ok h₃
  have hu' : Store.OpenUnique { db with approvals := t₁, patchRuns := t₂, jobs := t₃ } := hu.of_eq rfl
  cases (Store.updateIncident_total hu' hi (inc.sameCase_moveTo .patching) fun _ => by rw [hs]; rfl).symm.trans h

theorem approveOnce_conflict {incidentId key : Uuid} (hu : db.OpenUnique) (hok : ∀ i, (db.dossier i).Ok)
    (h : approveOnce env incidentId key db = .error .integrityError) : ∃ n, db.UsesKey (env.uuid n) := by
  unfold approveOnce at h
  split at h
  · cases h
  · rename_i inc hi
    split at h
    · split at h
      · cases h
      · split at h <;> cases h
    · rename_i hkey
      split at h
      · cases h
      · rename_i hs
        split at h
        · split at h
          · cases h
          · split at h
            · cases h
            · rename_i hinc
              rcases bind_eq_error.mp h with h | ⟨_, -, h⟩
              · unfold requireJobCapacity at h
                split at h <;> cases h
              · rcases bind_eq_error.mp h with h | ⟨_, -, h⟩
                · exact addApproved_conflict hu hok (Table.get_eq_some.mp hi).1 (not_not.mp hs) hkey
                    (by simpa using hinc) h
                · cases h
        · cases h

end Conflicts

namespace Sys

/-- **A worker or approval step violates a unique constraint only where an id it draws is taken.** -/
theorem conflict_of_reachable {s : Sys} (h : machine.Reachable s) {tx : Tx} (ha : s.allows tx)
    (hw : tx.isWorkOrApproval = true) (hr : tx.raised s.db = some .integrityError) :
    ∃ env ∈ tx.env, ∃ n, s.db.UsesKey (env.uuid n) := by
  have hs := inv_of_reachable h
  have hu := openUnique_of_reachable h
  cases tx with
  | ingest | syncServices => cases hw
  | approve env incidentId key =>
    obtain ⟨n, hn⟩ := approveOnce_conflict hu hs.ok (raised_eq.mp hr)
    exact ⟨env, rfl, n, hn⟩
  | claimJob settings env skip => exact ⟨env, rfl, 1, Or.inl (claimJob_conflict hu (raised_eq.mp hr))⟩
  | heartbeat env claim => exact absurd (raised_eq.mp hr) heartbeat_conflict
  | recoverExpired env rows => exact absurd (raised_eq.mp hr) (recoverExpired_conflict hu)
  | markValidating claim => exact absurd (raised_eq.mp hr) (markValidating_conflict hu (hs.fits claim ha))
  | finalize env claim outcome version => exact absurd (raised_eq.mp hr) (finalize_conflict hu hs.ok (hs.fits claim ha))

/-! ## The lifecycle -/

/-- What a step does to the incidents: a transition with the next version, or neither changes; a closed incident
stays as it is. -/
def Advances (db db' : Store) : Prop :=
  ∀ i inc, db.incidents.get i = some inc → ∃ inc', db'.incidents.get i = some inc' ∧
    ((inc'.state = inc.state ∧ inc'.version = inc.version) ∨
      (Transition inc.state inc'.state ∧ inc'.version = inc.version + 1)) ∧
    (inc.state.isOpen = false → inc'.state = inc.state)

theorem workers_advances {s s' : Sys} {tx : Tx} (h : workers.Reachable s) (hs : workers.step s tx s') :
    Advances s.db s'.db := by
  intro i inc hi
  obtain ⟨inc', hi', hn⟩ := workers_incident h hs hi
  refine ⟨inc', hi', hn, fun hc => ?_⟩
  rcases hn with ⟨hst, -⟩ | ⟨ht, -⟩
  · exact hst
  · rw [ht.isOpen] at hc
    cases hc

/-- **The lifecycle**: in every run of disciplined workers each step moves each incident along one documented
transition with the next version or changes neither, closed incidents are never left, and no worker or approval
step violates a unique constraint unless an id it draws is taken. -/
theorem lifecycle {s s' : Sys} {tr : List (Entry Sys Tx)} (h : workers.Reachable s) (hr : workers.Run s tr s') :
    (∀ e ∈ tr, Advances e.pre.db e.post.db) ∧
    (∀ i inc, s.db.incidents.get i = some inc → inc.state.isOpen = false →
      ∃ inc', s'.db.incidents.get i = some inc' ∧ inc'.state = inc.state) ∧
    (∀ e ∈ tr, e.label.isWorkOrApproval = true → e.label.raised e.pre.db = some .integrityError →
      ∃ env ∈ e.label.env, ∃ n, e.pre.db.UsesKey (env.uuid n)) := by
  refine ⟨fun e he => ?_, fun i inc hi hc => ?_, fun e he hw hx => ?_⟩
  · exact workers_advances (h.pre_of_mem hr he) (hr.step_of_mem he)
  · refine Machine.Run.stable
      (P := fun s : Sys => ∃ inc', s.db.incidents.get i = some inc' ∧ inc'.state = inc.state) ?_ h ⟨inc, hi, rfl⟩ hr
    rintro s₁ tx s₂ h₁ ⟨inc₁, hi₁, hst₁⟩ hs
    obtain ⟨inc₂, hi₂, -, hc₂⟩ := workers_advances h₁ hs i inc₁ hi₁
    exact ⟨inc₂, hi₂, (hc₂ (by rw [hst₁]; exact hc)).trans hst₁⟩
  · exact conflict_of_reachable (reachable_of_workers (h.pre_of_mem hr he)) (hr.step_of_mem he).1.1 hw hx

instance (s : Sys) (tx : Tx) : Decidable (s.Disciplined tx) :=
  match tx with
  | .finalize _ claim outcome version => inferInstanceAs
      (Decidable (claim.type = .patch → outcome.failed = false → ∃ v ∈ version, (claim, v) ∈ s.marked))
  | .ingest .. | .approve .. | .syncServices .. | .claimJob .. | .heartbeat .. | .recoverExpired ..
  | .markValidating _ => .isTrue trivial

/-- The transactions follow one another in a run of disciplined workers. -/
def Obeys : Sys → List Tx → Prop
  | _, [] => True
  | s, tx :: txs => (s.allows tx ∧ s.Disciplined tx) ∧ (s.exec tx).Obeys txs

instance decidableObeys : (s : Sys) → (txs : List Tx) → Decidable (s.Obeys txs)
  | _, [] => .isTrue trivial
  | s, tx :: txs => @instDecidableAnd _ _ _ (decidableObeys (s.exec tx) txs)

theorem run_workers {s : Sys} {txs : List Tx} (hp : s.Obeys txs) : ∃ tr, workers.Run s tr (s.execAll txs) := by
  induction txs generalizing s with
  | nil => exact ⟨[], .nil⟩
  | cons tx txs ih =>
    obtain ⟨tr, hr⟩ := ih hp.2
    exact ⟨_, .cons (M := workers) (l := tx) ⟨⟨hp.1.1, rfl⟩, hp.1.2⟩ hr⟩

/-- The sample run from its start to the validated patch. -/
theorem lifecycle_sample : ∃ tr, workers.Run Sample.start tr (Sample.start.execAll Sample.txs) ∧
    ∀ e ∈ tr, Advances e.pre.db e.post.db := by
  obtain ⟨tr, hr⟩ := run_workers (show Sample.start.Obeys Sample.txs by decide)
  exact ⟨tr, hr, (lifecycle (.of_init ⟨_, by decide, rfl⟩) hr).1⟩

end Sys

end Aeh
