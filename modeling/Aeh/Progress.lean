import Aeh.Configured
import Aeh.Lifecycle

/-!
# Progress — no job stops the workers

`claim_job` and `recover_expired` raise only where a row they look for is missing, an incident is in the wrong state,
a stored policy cannot be read back or a unique constraint is violated.  In the runs of `Configured.machine` none of
this happens, but for an id drawn twice.
-/

namespace Aeh

open Store

section Errors

variable {db db' : Store} {settings : Settings} {env : Env} {e : Exn}

/-- The only exception of a constraint. -/
theorem unique_error_eq {α : Type} {o : Option α} (h : unique o = .error e) : e = .integrityError := by
  cases o <;> cases h
  rfl

theorem addAnalysisRun_error {r : AnalysisRun} (h : db.addAnalysisRun r = .error e) : e = .integrityError := by
  rcases bind_eq_error.mp h with h | ⟨t, -, h⟩
  · exact unique_error_eq h
  · cases h

theorem updateIncident_error {r : Incident} (h : db.updateIncident r = .error e) : e = .integrityError := by
  unfold updateIncident at h
  split_ifs at h
  cases h
  rfl

/-- A job has its incident. -/
theorem Dossier.Ok.incident_of_job {d : Dossier} (hd : d.Ok) {j : Job} (hj : j ∈ d.jobs) :
    ∃ inc, d.incident = some inc := by
  cases hd with
  | absent => exact (List.not_mem_nil hj).elim
  | _ => exact ⟨_, rfl⟩

/-- The ANALYZE branch of a claim. -/
theorem claimAnalyze_error {m : PyStr → Option ServicePolicy} (hk : KeepsInt settings.laxInt)
    (hn : db.Known m) {inc : Incident} (hi : inc ∈ db.incidents.rows) (h : claimAnalyze settings env inc db = .error e) :
    e = .integrityError := by
  rcases bind_eq_error.mp h with h | ⟨db₁, -, h⟩
  · unfold ensureRun at h
    split at h
    · cases h
    · obtain ⟨s, hs, hid⟩ := hn.service inc hi
      have hget : db.services.get inc.serviceId = some s := Table.get_eq_some.mpr ⟨hs, hid⟩
      obtain ⟨p, -, hp⟩ := hn.policy s hs
      simp only [hget, hp, ServicePolicy.modelValidate_modelDump hk] at h
      exact addAnalysisRun_error h
  · split_ifs at h
    rcases bind_eq_error.mp h with h | ⟨_, -, h⟩
    · exact updateIncident_error h
    · cases h

/-- The PATCH branch of a claim. -/
theorem claimPatch_error {inc : Incident} {p : PatchRun} (hp : db.patchRunOf inc.id = some p)
    (hs : inc.state = .patching ∨ inc.state = .validating) (h : claimPatch env inc db = .error e) :
    e = .integrityError := by
  unfold claimPatch at h
  rw [hp] at h
  simp only at h
  split_ifs at h with h1 h2
  · rcases hs with hs | hs
    · exact absurd hs h1.1
    · exact absurd hs h1.2
  · rcases bind_eq_error.mp h with h | ⟨_, -, h⟩
    · exact updateIncident_error h
    · cases h

/-- `claim_job` can only violate a constraint. -/
theorem claimJob_error {m : PyStr → Option ServicePolicy} (hk : KeepsInt settings.laxInt)
    (hok : ∀ i, (db.dossier i).Ok) (hn : db.Known m) {skip : Uuid → Bool}
    (h : claimJob settings env skip db = .error e) : e = .integrityError := by
  unfold claimJob at h
  split at h
  · cases h
  · rename_i job hjob
    obtain ⟨hm, hs, -⟩ := nextJob_some hjob
    have hmem : job ∈ (db.dossier job.incidentId).jobs := mem_dossier_jobs.mpr ⟨hm, rfl⟩
    obtain ⟨inc, hinc⟩ := (hok job.incidentId).incident_of_job hmem
    have hi : db.incidents.get job.incidentId = some inc := hinc
    rw [hi] at h
    rcases bind_eq_error.mp h with h | ⟨_, -, h⟩
    · cases ht : job.type with
      | analyze =>
        have h' : claimAnalyze settings env inc (db.putJob (job.claimed (env.uuid 0) settings.workerId (env.now 1))) =
            .error e := by
          rw [← h]
          show _ = claimBranch settings env job.type inc _
          rw [ht]
          rfl
        have hn' : (db.putJob (job.claimed (env.uuid 0) settings.workerId (env.now 1))).Known m :=
          ⟨hn.policy, hn.service⟩
        exact claimAnalyze_error hk hn' (Table.get_eq_some.mp hi).1 h'
      | patch =>
        have h' : claimPatch env inc (db.putJob (job.claimed (env.uuid 0) settings.workerId (env.now 1))) =
            .error e := by
          rw [← h]
          show _ = claimBranch settings env job.type inc _
          rw [ht]
          rfl
        obtain ⟨inc', ja, r, a, p, hd, hst, -⟩ := (hok job.incidentId).patch_active hmem ht (Or.inl hs)
        rw [hd] at hinc
        cases hinc
        have hid := incident_id_of_get hi
        have hp : (db.putJob (job.claimed (env.uuid 0) settings.workerId (env.now 1))).patchRunOf inc.id = some p := by
          show db.patchRunOf inc.id = some p
          rw [patchRunOf_eq, hid, hd]
          rfl
        exact claimPatch_error hp (hst.imp (·.1) (·.1)) h'
    · cases h

/-- The loop body of `recover_expired`. -/
theorem recoverOne_error {t : Time} {job : Job} (hok : (db.dossier job.incidentId).Ok) (hj : job ∈ db.jobs.rows)
    (hs : job.status = .running) (h : recoverOne t db job = .error e) : e = .integrityError := by
  have hmem : job ∈ (db.dossier job.incidentId).jobs := mem_dossier_jobs.mpr ⟨hj, rfl⟩
  obtain ⟨inc, hinc⟩ := hok.incident_of_job hmem
  have hi : db.incidents.get job.incidentId = some inc := hinc
  have hid := incident_id_of_get hi
  unfold recoverOne at h
  rw [hi] at h
  simp only at h
  split_ifs at h
  cases ht : job.type with
  | analyze =>
    rcases hok.analyze_active hmem ht (Or.inr hs) with ⟨inc', hd, -, -, -, hp, -⟩ | ⟨inc', r, hd, -⟩
    · cases hp.symm.trans hs
    · have hr : (db.putJob (job.ended expiredCode expiredDetail .failed)).analysisRunOf inc.id = some r := by
        show db.analysisRunOf inc.id = some r
        rw [analysisRunOf_eq, hid, hd]
        rfl
      simp only [ht, hr] at h
      exact updateIncident_error h
  | patch =>
    obtain ⟨inc', ja, r, a, p, hd, -⟩ := hok.patch_active hmem ht (Or.inr hs)
    have hp : (db.putJob (job.ended expiredCode expiredDetail .failed)).patchRunOf inc.id = some p := by
      show db.patchRunOf inc.id = some p
      rw [patchRunOf_eq, hid, hd]
      rfl
    simp only [ht, hp] at h
    exact updateIncident_error h

/-- The loop of `recover_expired` over running jobs of different incidents raises nothing. -/
theorem recoverAll_total {k : ℕ} {jobs : List Job} (hu : db.OpenUnique)
    (hj : ∀ job ∈ jobs, job ∈ db.jobs.rows ∧ job.status = .running ∧ (db.dossier job.incidentId).Ok)
    (hd : jobs.Pairwise fun a b => a.incidentId ≠ b.incidentId) : ∃ db', recoverAll env k jobs db = .ok db' := by
  induction jobs generalizing k db with
  | nil => exact ⟨db, rfl⟩
  | cons job jobs ih =>
    obtain ⟨hm, hs, hok⟩ := hj job List.mem_cons_self
    obtain ⟨hne, hd⟩ := List.pairwise_cons.mp hd
    cases h₁ : recoverOne (env.now k) db job with
    | error e =>
      obtain rfl := recoverOne_error hok hm hs h₁
      exact absurd h₁ (recoverOne_conflict hu)
    | ok db₁ =>
      obtain ⟨d, hw, -⟩ := recoverOne_rewrites (R := fun _ => True) hm hs h₁
      have hj' : ∀ job' ∈ jobs, job' ∈ db₁.jobs.rows ∧ job'.status = .running ∧ (db₁.dossier job'.incidentId).Ok := by
        intro job' hm'
        obtain ⟨hr, hs', hok'⟩ := hj job' (List.mem_cons_of_mem _ hm')
        have hsame := hw.elsewhere _ (hne job' hm').symm
        have hmem : job' ∈ (db₁.dossier job'.incidentId).jobs := by
          rw [hsame]
          exact mem_dossier_jobs.mpr ⟨hr, rfl⟩
        exact ⟨(mem_dossier_jobs.mp hmem).1, hs', hsame ▸ hok'⟩
      obtain ⟨db', h⟩ := @ih db₁ (k + 1) (recoverOne_openUnique hu h₁) hj' hd
      exact ⟨db', by rw [recoverAll, h₁]; exact h⟩

theorem recoverExpired_total (hu : db.OpenUnique) (hok : ∀ i, (db.dossier i).Ok) (rows : List Uuid) :
    ∃ r, recoverExpired env rows db = .ok r := by
  obtain ⟨hj, hd⟩ := expiredJobs_apart hok rows (env.now 0)
  obtain ⟨db', h⟩ : ∃ db', recoverAll env 1 (expiredJobs rows (env.now 0) db) db = .ok db' :=
    recoverAll_total hu (fun job hm => ⟨(hj job hm).1, (hj job hm).2, hok _⟩) hd
  refine ⟨((expiredJobs rows (env.now 0) db).length, db'), ?_⟩
  simp only [recoverExpired, h]
  rfl

end Errors

namespace Configured

variable {w : Configured}

/-- **The workers go on**: in every state reached from services that `sync_services` configured, `claim_job` and
`recover_expired` raise nothing, and every stored policy is read back as the one configured. -/
theorem workers_go_on (h : machine.Reachable w) :
    (∀ settings env skip, KeepsInt settings.laxInt → (∀ r ∈ w.sys.db.analysisRuns.rows, r.id ≠ env.uuid 1) →
      ∃ r, claimJob settings env skip w.sys.db = .ok r) ∧
    (∀ env rows, ∃ r, recoverExpired env rows w.sys.db = .ok r) ∧
    ∀ service ∈ w.sys.db.services.rows, ∃ policy, w.policies service.key = some policy ∧
      ∀ laxInt, KeepsInt laxInt → ServicePolicy.modelValidate laxInt service.policy = .ok policy := by
  have hreach := sys_reachable h
  have hinv := Sys.inv_of_reachable hreach
  have hu := Sys.openUnique_of_reachable hreach
  have hn := known_of_reachable h
  refine ⟨fun settings env skip hk hfresh => ?_, fun env rows => recoverExpired_total hu hinv.ok rows, fun s hs => ?_⟩
  · cases hr : claimJob settings env skip w.sys.db with
    | ok r => exact ⟨r, rfl⟩
    | error e =>
      obtain rfl := claimJob_error hk hinv.ok hn hr
      obtain ⟨r, hm, hid⟩ := claimJob_conflict hu hr
      exact absurd hid (hfresh r hm)
  · obtain ⟨policy, hp, hdump⟩ := hn.policy s hs
    exact ⟨policy, hp, fun laxInt hk => by rw [hdump]; exact ServicePolicy.modelValidate_modelDump hk policy⟩

open Sample in
/-- A configured service and the job of its first incident. -/
theorem workers_go_on_sample : ∃ w, machine.Reachable w ∧ w.sys.db.jobs.rows.length = 1 ∧
    ∃ r, claimJob settings (env 2) (fun _ => false) w.sys.db = .ok r := by
  have h₀ : machine.Reachable ⟨⟨Store.ofServices Table.empty, [], []⟩, fun _ => none⟩ := .of_init rfl
  have h₁ := h₀.step (show machine.step _ (.syncServices settings fs (env 0) [(lit "api", narrowed)])
    ⟨_, _⟩ from ⟨⟨trivial, rfl⟩, rfl⟩)
  have h₂ := h₁.step (show machine.step _ (.ingest (env 1) request { intake with serviceId := 0 } sha)
    ⟨_, _⟩ from ⟨⟨trivial, rfl⟩, rfl⟩)
  exact ⟨_, h₂, by rfl, (workers_go_on h₂).1 settings (env 2) _ (fun _ => rfl) (by decide)⟩

end Configured

end Aeh
