import Aeh.Agreement
import Aeh.Worker

/-!
# Frozen — the policy and the commit of an incident's attempts

The first claim copies the commit, the input event and the policy into the analysis run; the approval and
the patch run copy the commit again.  `Pinned` is the agreement of the copies in one state.  Over a run the
frozen columns stay (`Moves.keeps`), so that every later attempt reads what the first claim froze.
-/

namespace Aeh

/-- The copies of what an incident's first claim and its approval froze agree. -/
structure Pinned (db : Store) : Prop where
  patchJob : ∀ j ∈ db.jobs.rows, j.type = .patch → ∃ a ∈ db.approvals.rows, ∃ r ∈ db.analysisRuns.rows,
    a.incidentId = j.incidentId ∧ a.analysisRunId = r.id ∧ r.incidentId = j.incidentId ∧ r.status = .succeeded
  patchRun : ∀ p ∈ db.patchRuns.rows, ∃ a ∈ db.approvals.rows, ∃ r ∈ db.analysisRuns.rows,
    a.incidentId = p.incidentId ∧ a.analysisRunId = r.id ∧ r.incidentId = p.incidentId ∧ r.status = .succeeded
  runSha : ∀ r ∈ db.analysisRuns.rows, ∃ inc, db.incidents.get r.incidentId = some inc ∧
    r.baseCommitSha = inc.baseCommitSha ∧ r.inputErrorEventId = inc.firstErrorEventId
  approvalSha : ∀ a ∈ db.approvals.rows, ∃ inc, db.incidents.get a.incidentId = some inc ∧
    a.baseCommitSha = inc.baseCommitSha
  patchSha : ∀ p ∈ db.patchRuns.rows, ∃ inc, db.incidents.get p.incidentId = some inc ∧
    p.baseCommitSha = inc.baseCommitSha

/-- Where a dossier has a PATCH job or a patch run, its incident's successful run is approved. -/
theorem Dossier.Ok.approval {d : Dossier} (h : d.Ok)
    (hp : (∃ j ∈ d.jobs, j.type = .patch) ∨ d.patchRuns ≠ []) :
    ∃ a ∈ d.approvals, ∃ r ∈ d.analysisRuns, a.analysisRunId = r.id ∧ r.status = .succeeded := by
  cases h with
  | absent => simp at hp
  | received _ _ ha => simp [ha.type] at hp
  | analyzing _ _ ha => simp [ha.type] at hp
  | analyzed _ _ _ ha => simp [ha.type] at hp
  | patching _ _ _ _ hrs hap =>
    exact ⟨_, List.mem_singleton_self _, _, List.mem_singleton_self _, hap.run, hrs⟩
  | patched _ _ _ _ _ _ _ hrs hap =>
    exact ⟨_, List.mem_singleton_self _, _, List.mem_singleton_self _, hap.run, hrs⟩

/-- Every run, approval and patch run of a dossier has the incident's commit. -/
theorem Dossier.Ok.pinned {d : Dossier} (h : d.Ok) :
    (∀ r ∈ d.analysisRuns, ∃ inc, d.incident = some inc ∧ r.baseCommitSha = inc.baseCommitSha ∧
      r.inputErrorEventId = inc.firstErrorEventId) ∧
    (∀ a ∈ d.approvals, ∃ inc, d.incident = some inc ∧ a.baseCommitSha = inc.baseCommitSha) ∧
    ∀ p ∈ d.patchRuns, ∃ inc, d.incident = some inc ∧ p.baseCommitSha = inc.baseCommitSha := by
  cases h with
  | absent | received => simp
  | analyzing _ _ _ _ _ hr | analyzed _ _ _ _ _ hr => simp [hr.sha, hr.input]
  | patching _ _ _ hr _ hap hp | patched _ _ _ _ _ _ hr _ hap hp => simp [hr.sha, hr.input, hap.sha, hp.sha]

theorem Sys.Inv.pinned {s : Sys} (h : s.Inv) : Pinned s.db := by
  have approved : ∀ i, (∃ j ∈ (s.db.dossier i).jobs, j.type = .patch) ∨ (s.db.dossier i).patchRuns ≠ [] →
      ∃ a ∈ s.db.approvals.rows, ∃ r ∈ s.db.analysisRuns.rows,
        a.incidentId = i ∧ a.analysisRunId = r.id ∧ r.incidentId = i ∧ r.status = .succeeded := by
    intro i hp
    obtain ⟨a, ha, r, hr, hid, hs⟩ := (h.ok i).approval hp
    obtain ⟨ha, hai⟩ := Store.mem_dossier_approvals.mp ha
    obtain ⟨hr, hri⟩ := Store.mem_dossier_analysisRuns.mp hr
    exact ⟨a, ha, r, hr, hai, hid, hri, hs⟩
  constructor
  · exact fun j hj ht => approved _ (Or.inl ⟨j, Store.mem_dossier_jobs.mpr ⟨hj, rfl⟩, ht⟩)
  · exact fun p hp => approved _ (Or.inr (List.ne_nil_of_mem (Store.mem_dossier_patchRuns.mpr ⟨hp, rfl⟩)))
  · exact fun r hr => (h.ok r.incidentId).pinned.1 r (Store.mem_dossier_analysisRuns.mpr ⟨hr, rfl⟩)
  · exact fun a ha => (h.ok a.incidentId).pinned.2.1 a (Store.mem_dossier_approvals.mpr ⟨ha, rfl⟩)
  · exact fun p hp => (h.ok p.incidentId).pinned.2.2 p (Store.mem_dossier_patchRuns.mpr ⟨hp, rfl⟩)

/-! ## Over a run -/

/-- What later states keep of earlier ones: the runs with what they froze and the incidents' identity. -/
structure Keeps (db db' : Store) : Prop where
  analysisRun : ∀ r ∈ db.analysisRuns.rows, ∃ r' ∈ db'.analysisRuns.rows, r.SameRun r'
  incident : ∀ i inc, db.incidents.get i = some inc → ∃ inc', db'.incidents.get i = some inc' ∧ inc.SameCase inc'

theorem Keeps.refl (db : Store) : Keeps db db :=
  ⟨fun r hr => ⟨r, hr, .refl r⟩, fun _ inc hi => ⟨inc, hi, .refl inc⟩⟩

theorem Keeps.trans {a b c : Store} (h : Keeps a b) (h' : Keeps b c) : Keeps a c := by
  refine ⟨fun r hr => ?_, fun i inc hi => ?_⟩
  · obtain ⟨r', hr', same⟩ := h.analysisRun r hr
    obtain ⟨r'', hr'', same'⟩ := h'.analysisRun r' hr'
    exact ⟨r'', hr'', same.trans same'⟩
  · obtain ⟨inc', hi', same⟩ := h.incident i inc hi
    obtain ⟨inc'', hi'', same'⟩ := h'.incident i inc' hi'
    exact ⟨inc'', hi'', same.trans same'⟩

theorem Moves.keeps {R : IncidentState → Prop} {db db' : Store} (h : Moves R db db') (hok : ∀ i, (db.dossier i).Ok) : Keeps db db' := by
  refine ⟨fun r hr => ?_, fun i inc hi => ?_⟩
  · have hm := Store.mem_dossier_analysisRuns.mpr ⟨hr, rfl⟩
    rcases h r.incidentId with he | hmove
    · rw [← he] at hm
      exact ⟨r, (Store.mem_dossier_analysisRuns.mp hm).1, .refl r⟩
    · obtain ⟨r', hr', same⟩ := hmove.analysisRun (db.dossier_distinct _) hm
      exact ⟨r', (Store.mem_dossier_analysisRuns.mp hr').1, same⟩
  · obtain ⟨inc', hi', same, -⟩ := h.incident hok hi
    exact ⟨inc', hi', same⟩

/-- No step of a run touches what a run froze. -/
theorem Sys.keeps_of_run {s s' : Sys} {tr : List (Entry Sys Tx)} (h : Sys.machine.Reachable s)
    (hr : Sys.machine.Run s tr s') : Keeps s.db s'.db :=
  Machine.Run.rel (R := fun a b => Keeps a.db b.db) (fun a => .refl a.db) (fun _ _ _ => Keeps.trans)
    (fun _ _ _ ha hs => (Sys.step_moves (Sys.inv_of_reachable ha) hs).keeps (Sys.inv_of_reachable ha).ok) h hr

/-- An incident has at most one analysis run. -/
theorem Dossier.Ok.run_unique {d : Dossier} (h : d.Ok) {r r' : AnalysisRun} (hr : r ∈ d.analysisRuns)
    (hr' : r' ∈ d.analysisRuns) : r = r' := by
  cases h with
  | absent | received => exact (List.not_mem_nil hr).elim
  | _ => rw [List.mem_singleton.mp hr, List.mem_singleton.mp hr']

/-- **Every attempt runs under the policy and the commit its incident's first claim froze**: the copies agree
in every reachable state, and over any later run nothing changes them.  What is frozen is `Settings.snapshot` of the
policy the service has at the claim that creates the run (`AnalysisRun.Written.first`). -/
theorem Sys.frozen {s s' : Sys} {tr : List (Entry Sys Tx)} (h : Sys.machine.Reachable s)
    (hr : Sys.machine.Run s tr s') :
    Pinned s.db ∧ (∀ r ∈ s.db.analysisRuns.rows, ∃ r' ∈ s'.db.analysisRuns.rows, r.SameRun r') ∧
      ∀ r ∈ s.db.analysisRuns.rows, ∀ settings fs modelValidate claim attempt,
        claim.incidentId = r.incidentId → readAttempt settings fs modelValidate claim s'.db = .ok attempt →
        attempt.policy = r.policySnapshot ∧ attempt.sha = r.baseCommitSha ∧
          ∃ event, s'.db.errorEvents.get r.inputErrorEventId = some event ∧ attempt.event = event.normalizedPayload := by
  have hkeeps := Sys.keeps_of_run h hr
  have hinv' := Sys.inv_of_reachable (h.run hr)
  refine ⟨(Sys.inv_of_reachable h).pinned, hkeeps.analysisRun, ?_⟩
  intro r hm settings fs modelValidate claim attempt hc ha
  obtain ⟨inc, run, event, hi, hrun, he, -, hsha, hpol, hev⟩ := readAttempt_ok ha
  obtain ⟨r', hr', same⟩ := hkeeps.analysisRun r hm
  have hid := incident_id_of_get hi
  obtain ⟨hmr, hri⟩ := analysisRunOf_some hrun
  obtain rfl : run = r' := (hinv'.ok claim.incidentId).run_unique
    (Store.mem_dossier_analysisRuns.mpr ⟨hmr, hri.trans hid⟩)
    (Store.mem_dossier_analysisRuns.mpr ⟨hr', same.incident.trans hc.symm⟩)
  obtain ⟨inc', hi', hsha', -⟩ := hinv'.pinned.runSha run hmr
  rw [hri, hid] at hi'
  obtain rfl := Option.some.inj (hi.symm.trans hi')
  exact ⟨hpol.trans same.policy, by rw [hsha, ← hsha', same.sha], event, by rw [← same.input]; exact he, hev⟩

/-- The sample run changes the policy after the first claim; the patch attempt still reads the first one. -/
theorem Sys.frozen_sample : ∃ r ∈ (Sample.after 2).db.analysisRuns.rows, Pinned (Sample.after 2).db ∧
    ∃ attempt, readAttempt Sample.settings Sample.fs .ok Sample.patchClaim (Sample.start.execAll Sample.txs).db =
      .ok attempt ∧ attempt.policy = r.policySnapshot ∧ attempt.sha = r.baseCommitSha := by
  obtain ⟨tr, hrun⟩ := Sample.run_rest 2
  have hi : Sample.patchClaim.incidentId ∈ (Sample.after 2).db.analysisRuns.rows.map AnalysisRun.incidentId := by
    decide
  obtain ⟨r, hr, hc⟩ := List.mem_map.mp hi
  have hok : (readAttempt Sample.settings Sample.fs .ok Sample.patchClaim
      (Sample.start.execAll Sample.txs).db).isOk = true := by decide
  obtain ⟨hpinned, -, hattempt⟩ := Sys.frozen (Sample.reachable 2) hrun
  cases ha : readAttempt Sample.settings Sample.fs .ok Sample.patchClaim (Sample.start.execAll Sample.txs).db with
  | error e =>
    rw [ha] at hok
    cases hok
  | ok attempt =>
    obtain ⟨hp, hsha, -⟩ := hattempt r hr _ _ _ _ attempt hc.symm ha
    exact ⟨r, hr, hpinned, attempt, rfl, hp, hsha⟩

end Aeh
