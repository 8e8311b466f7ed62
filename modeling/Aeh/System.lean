import Aeh.Lib.Machine
import Aeh.Dossier

/-!
# System — the transactions of all parties over one store

A step of `Sys.machine` is one transaction of any party with any arguments it may have: workers use
claims that `claim_job` has issued.  Nothing is assumed of clocks.
Next to the store the state remembers the claims issued and the versions `mark_validating` returned.

Every transaction leaves each dossier as it is or makes one move with it (`Sys.step_moves`), so that every
dossier of a reachable store is `Ok`.
-/

namespace Aeh

/-- A transaction with its arguments and what it draws from outside. -/
inductive Tx where
  | ingest (env : Env) (request : EventRequest) (intake : Intake) (sha : PyStr)
  | approve (env : Env) (incidentId key : Uuid)
  | syncServices (settings : Settings) (fs : FileSystem) (env : Env) (policies : List (PyStr × ServicePolicy))
  | claimJob (settings : Settings) (env : Env) (skip : Uuid → Bool)
  | heartbeat (env : Env) (claim : Claim)
  | recoverExpired (env : Env) (rows : List Uuid)
  | markValidating (claim : Claim)
  | finalize (env : Env) (claim : Claim) (outcome : Outcome) (version : Option ℕ)

/-- What a transaction draws from outside. -/
def Tx.env : Tx → Option Env
  | .ingest env .. | .approve env .. | .syncServices _ _ env _ | .claimJob _ env _ | .heartbeat env ..
  | .recoverExpired env .. | .finalize env .. => some env
  | .markValidating _ => none

structure Sys where
  db : Store
  /-- The claims `claim_job` has returned. -/
  issued : List Claim := []
  /-- The versions `mark_validating` has returned, each with its claim. -/
  marked : List (Claim × ℕ) := []

/-- The store after a transaction. -/
def settle {α : Type} (r : Except Exn (α × Store)) (db : Store) : Store := (commit r db).2

namespace Sys

def exec (s : Sys) : Tx → Sys
  | .ingest env request intake sha => { s with db := settle (ingestResolved env request intake sha s.db) s.db }
  | .approve env incidentId key => { s with db := settle (approveOnce env incidentId key s.db) s.db }
  | .syncServices settings fs env policies =>
    { s with db := settle (Aeh.syncServices settings fs env policies s.db) s.db }
  | .claimJob settings env skip =>
    match Aeh.claimJob settings env skip s.db with
    | .ok (some claim, db) => { s with db := db, issued := claim :: s.issued }
    | .ok (none, db) => { s with db := db }
    | .error _ => s
  | .heartbeat env claim => { s with db := settle (Aeh.heartbeat env claim s.db) s.db }
  | .recoverExpired env rows => { s with db := settle (Aeh.recoverExpired env rows s.db) s.db }
  | .markValidating claim =>
    match Aeh.markValidating claim s.db with
    | .ok (version, db) => { s with db := db, marked := (claim, version) :: s.marked }
    | .error _ => s
  | .finalize env claim outcome version =>
    { s with db := settle (Aeh.finalize env claim outcome version s.db) s.db }

/-- The claims a party may use. -/
def allows (s : Sys) : Tx → Prop
  | .heartbeat _ claim | .markValidating claim | .finalize _ claim _ _ => claim ∈ s.issued
  | _ => True

/-- A store holding only services, with their unique keys. -/
def Start (s : Sys) : Prop :=
  ∃ services : Table Service, (services.rows.map Service.key).Nodup ∧ s = ⟨Store.ofServices services, [], []⟩

def machine : Machine Sys Tx where
  init := Start
  step s tx s' := s.allows tx ∧ s' = s.exec tx

end Sys

/-! ## Transactions as moves -/

/-- Each dossier is as it was or has made one move. -/
def Moves (R : IncidentState → Prop) (db db' : Store) : Prop :=
  ∀ i, db'.dossier i = db.dossier i ∨ (db.dossier i).Move R (db'.dossier i)

theorem Moves.refl (R : IncidentState → Prop) (db : Store) : Moves R db db := fun _ => Or.inl rfl

/-- The writes from `db` to `db'` concern incident `i` alone and leave it the dossier `d`. -/
structure Store.Rewrites (db : Store) (i : Uuid) (db' : Store) (d : Dossier) : Prop where
  here : db'.dossier i = d
  elsewhere : ∀ k, k ≠ i → db'.dossier k = db.dossier k

namespace Store.Rewrites

open Table

variable {R : IncidentState → Prop} {db db₁ db₂ : Store} {i : Uuid} {d : Dossier}

theorem refl (db : Store) (i : Uuid) : db.Rewrites i db (db.dossier i) := ⟨rfl, fun _ _ => rfl⟩

theorem moves (h : db.Rewrites i db₁ d) (hm : (db.dossier i).Move R d) : Moves R db db₁ := by
  intro k
  by_cases hk : k = i
  · subst hk
    exact Or.inr (h.here ▸ hm)
  · exact Or.inl (h.elsewhere k hk)

theorem putJob (h : db.Rewrites i db₁ d) {job job' : Job} (hj : job ∈ db₁.jobs.rows) (same : job.SameJob job')
    (hi : job.incidentId = i) : db.Rewrites i (db₁.putJob job') { d with jobs := replace job' d.jobs } := by
  subst hi
  refine ⟨?_, fun k hk => ?_⟩
  · rw [dossier_putJob hj same, h.here]
  · rw [dossier_putJob_ne hj same hk, h.elsewhere k hk]

theorem putAnalysisRun (h : db.Rewrites i db₁ d) {run run' : AnalysisRun} (hr : run ∈ db₁.analysisRuns.rows)
    (same : run.SameRun run') (hi : run.incidentId = i) :
    db.Rewrites i (db₁.putAnalysisRun run') { d with analysisRuns := replace run' d.analysisRuns } := by
  subst hi
  refine ⟨?_, fun k hk => ?_⟩
  · rw [dossier_putAnalysisRun hr same, h.here]
  · rw [dossier_putAnalysisRun_ne hr same hk, h.elsewhere k hk]

theorem putPatchRun (h : db.Rewrites i db₁ d) {patch patch' : PatchRun} (hp : patch ∈ db₁.patchRuns.rows)
    (same : patch.SamePatch patch') (hi : patch.incidentId = i) :
    db.Rewrites i (db₁.putPatchRun patch') { d with patchRuns := replace patch' d.patchRuns } := by
  subst hi
  refine ⟨?_, fun k hk => ?_⟩
  · rw [dossier_putPatchRun hp same, h.here]
  · rw [dossier_putPatchRun_ne hp same hk, h.elsewhere k hk]

theorem updateIncident (h : db.Rewrites i db₁ d) {inc inc' : Incident} (hi : d.incident = some inc)
    (same : inc.SameCase inc') (hid : inc.id = i) (hu : db₁.updateIncident inc' = .ok db₂) :
    db.Rewrites i db₂ { d with incident := some inc' } := by
  have hi' : db₁.incidents.get i = some inc := by
    rw [← hi, ← h.here]
    rfl
  have hid' := same.id.trans hid
  refine ⟨?_, fun k hk => ?_⟩
  · rw [dossier_updateIncident hi' hid' hu, h.here]
  · rw [dossier_updateIncident_ne (hid' ▸ hk) hu, h.elsewhere k hk]

theorem addIncident (h : db.Rewrites i db₁ d) {inc : Incident} (hid : inc.id = i)
    (ha : db₁.addIncident inc = .ok db₂) :
    d.incident = none ∧ db.Rewrites i db₂ { d with incident := some inc } := by
  subst hid
  obtain ⟨h1, hn, h2⟩ := dossier_addIncident ha
  refine ⟨by rw [← h.here]; exact hn, by rw [h1, h.here], fun k hk => ?_⟩
  rw [h2 k hk, h.elsewhere k hk]

theorem addJob (h : db.Rewrites i db₁ d) {job : Job} (hi : job.incidentId = i) (ha : db₁.addJob job = .ok db₂) :
    db.Rewrites i db₂ { d with jobs := d.jobs ++ [job] } := by
  refine ⟨?_, fun k hk => ?_⟩
  · rw [dossier_addJob ha, if_pos hi, h.here]
  · rw [dossier_addJob ha, if_neg (fun h' => hk (h'.symm.trans hi)), List.append_nil, ← h.elsewhere k hk]

theorem addAnalysisRun (h : db.Rewrites i db₁ d) {run : AnalysisRun} (hi : run.incidentId = i)
    (ha : db₁.addAnalysisRun run = .ok db₂) :
    db.Rewrites i db₂ { d with analysisRuns := d.analysisRuns ++ [run] } := by
  refine ⟨?_, fun k hk => ?_⟩
  · rw [dossier_addAnalysisRun ha, if_pos hi, h.here]
  · rw [dossier_addAnalysisRun ha, if_neg (fun h' => hk (h'.symm.trans hi)), List.append_nil, ← h.elsewhere k hk]

theorem addApproval (h : db.Rewrites i db₁ d) {approval : Approval} (hi : approval.incidentId = i)
    (ha : db₁.addApproval approval = .ok db₂) :
    db.Rewrites i db₂ { d with approvals := d.approvals ++ [approval] } := by
  refine ⟨?_, fun k hk => ?_⟩
  · rw [dossier_addApproval ha, if_pos hi, h.here]
  · rw [dossier_addApproval ha, if_neg (fun h' => hk (h'.symm.trans hi)), List.append_nil, ← h.elsewhere k hk]

theorem addPatchRun (h : db.Rewrites i db₁ d) {patch : PatchRun} (hi : patch.incidentId = i)
    (ha : db₁.addPatchRun patch = .ok db₂) :
    d.patchRuns = [] ∧ db.Rewrites i db₂ { d with patchRuns := d.patchRuns ++ [patch] } := by
  refine ⟨?_, ?_, fun k hk => ?_⟩
  · have := (dossier_addPatchRun ha (i := i)).1
    rwa [hi, h.here] at this
  · rw [(dossier_addPatchRun ha).2, if_pos hi, h.here]
  · rw [(dossier_addPatchRun ha).2, if_neg (fun h' => hk (h'.symm.trans hi)), List.append_nil, ← h.elsewhere k hk]

/-- A table that no dossier reads. -/
theorem of_eq (h : db.Rewrites i db₁ d) (db₂ : Store) (he : ∀ k, db₂.dossier k = db₁.dossier k) :
    db.Rewrites i db₂ d :=
  ⟨(he i).trans h.here, fun k hk => (he k).trans (h.elsewhere k hk)⟩

end Store.Rewrites

section Transactions

open Store

variable {R : IncidentState → Prop} {db db' : Store} {settings : Settings} {env : Env}

theorem incident_id_of_get {i : Uuid} {inc : Incident} (h : db.incidents.get i = some inc) : inc.id = i :=
  (Table.get_eq_some.mp h).2

/-- A heartbeat renews the lease of one running job. -/
theorem heartbeat_moves {claim : Claim} {r : Bool} (h : heartbeat env claim db = .ok (r, db')) : Moves R db db' := by
  rcases heartbeat_ok h with ⟨-, rfl⟩ | ⟨job, hj, hheld, -, -, rfl⟩
  · exact .refl R _
  · have hw := (Rewrites.refl db job.incidentId).putJob hj (job.sameJob_renewed (env.now 1)) rfl
    exact hw.moves (.renewed _ (mem_dossier_jobs.mpr ⟨hj, rfl⟩) (heldBy_iff.mp hheld).2.2)

/-- The branch of an ANALYZE job: its dossier gets a run unless it has one, and leaves RECEIVED. -/
theorem Store.Rewrites.claimAnalyze {db₁ : Store} {d : Dossier} {inc inc' : Incident}
    (hw : db.Rewrites inc.id db₁ d) (hi : d.incident = some inc)
    (h : claimAnalyze settings env inc db₁ = .ok (inc', db')) :
    ∃ runs, (d.analysisRuns ≠ [] ∧ runs = d.analysisRuns ∨ d.analysisRuns = [] ∧
        ∃ settings env policy, runs = [firstRun settings env inc policy]) ∧
      (inc.state = .received ∧ inc' = inc.moveTo .analyzing ∨ inc.state ≠ .received ∧ inc' = inc) ∧
      db.Rewrites inc.id db' { d with incident := some inc', analysisRuns := runs } := by
  obtain ⟨db₂, h₂, h⟩ := claimAnalyze_ok h
  obtain ⟨runs, hruns, hw₂⟩ : ∃ runs, (d.analysisRuns ≠ [] ∧ runs = d.analysisRuns ∨ d.analysisRuns = [] ∧
      ∃ settings env policy, runs = [firstRun settings env inc policy]) ∧
      db.Rewrites inc.id db₂ { d with analysisRuns := runs } := by
    rcases ensureRun_ok h₂ with ⟨rfl, run, hr⟩ | ⟨hn, policy, ha⟩
    · refine ⟨_, Or.inl ⟨?_, rfl⟩, hw⟩
      rw [analysisRunOf_eq, hw.here] at hr
      exact List.ne_nil_of_mem (List.mem_of_mem_head? hr)
    · rw [analysisRunOf_eq_none, hw.here] at hn
      refine ⟨_, Or.inr ⟨hn, settings, env, policy, rfl⟩, ?_⟩
      have := hw.addAnalysisRun rfl ha
      rwa [hn] at this
  refine ⟨runs, hruns, ?_⟩
  rcases h with ⟨hs, rfl, hu⟩ | ⟨hs, rfl, rfl⟩
  · exact ⟨Or.inl ⟨hs, rfl⟩, hw₂.updateIncident hi (inc.sameCase_moveTo _) rfl hu⟩
  · refine ⟨Or.inr ⟨hs, rfl⟩, ?_⟩
    have he : ({ d with incident := some inc', analysisRuns := runs } : Dossier) = { d with analysisRuns := runs } := by
      rw [← hi]
    rw [he]
    exact hw₂

/-- The branch of a PATCH job: the run starts, and an incident under validation goes back to PATCHING. -/
theorem Store.Rewrites.claimPatch {db₁ : Store} {d : Dossier} {inc inc' : Incident}
    (hw : db.Rewrites inc.id db₁ d) (hi : d.incident = some inc) (h : claimPatch env inc db₁ = .ok (inc', db')) :
    ∃ p ∈ d.patchRuns,
      (inc.state = .validating ∧ inc' = inc.moveTo .patching ∨ inc.state = .patching ∧ inc' = inc) ∧
      db.Rewrites inc.id db'
        { d with incident := some inc', patchRuns := Table.replace (p.started (env.now 2)) d.patchRuns } := by
  obtain ⟨patch, hp, h⟩ := claimPatch_ok h
  obtain ⟨hm, hpi⟩ := patchRunOf_some hp
  have hw₂ := hw.putPatchRun hm (patch.samePatch_started (env.now 2)) hpi
  refine ⟨patch, by rw [← hw.here]; exact mem_dossier_patchRuns.mpr ⟨hm, hpi⟩, ?_⟩
  rcases h with ⟨hs, rfl, hu⟩ | ⟨hs, rfl, rfl⟩
  · exact ⟨Or.inl ⟨hs, rfl⟩, hw₂.updateIncident hi (inc.sameCase_moveTo _) rfl hu⟩
  · refine ⟨Or.inr ⟨hs, rfl⟩, ?_⟩
    have he : ({ d with incident := some inc', patchRuns := Table.replace (patch.started (env.now 2)) d.patchRuns } :
        Dossier) = { d with patchRuns := Table.replace (patch.started (env.now 2)) d.patchRuns } := by
      rw [← hi]
    rw [he]
    exact hw₂

theorem claimJob_moves {skip : Uuid → Bool} {r : Option Claim} (h : claimJob settings env skip db = .ok (r, db')) :
    Moves R db db' := by
  rcases claimJob_ok h with ⟨-, rfl⟩ | ⟨job, inc, inc', hj, hs, -, hi, hb, -⟩
  · exact .refl R _
  · have hid := incident_id_of_get hi
    have hw := (Rewrites.refl db inc.id).putJob hj
      (job.sameJob_claimed (env.uuid 0) settings.workerId (env.now 1)) hid.symm
    have hi' : (db.dossier inc.id).incident = some inc := by rw [hid]; exact hi
    have hmem : job ∈ (db.dossier inc.id).jobs := mem_dossier_jobs.mpr ⟨hj, hid.symm⟩
    cases ht : job.type with
    | analyze =>
      rw [ht] at hb
      obtain ⟨runs, hruns, hinc, hw'⟩ := hw.claimAnalyze hi' hb
      exact hw'.moves (.claimedAnalyze _ _ _ hi' hmem ht hs hinc hruns)
    | patch =>
      rw [ht] at hb
      obtain ⟨p, hp, hinc, hw'⟩ := hw.claimPatch hi' hb
      exact hw'.moves (.claimedPatch _ _ _ _ hi' hmem ht hs hp hinc)

/-! ### Recovery -/

/-- What the loop body of `recover_expired` does to the dossier of its job. -/
theorem recoverOne_rewrites {t : Time} {job : Job} (hj : job ∈ db.jobs.rows) (hs : job.status = .running)
    (h : recoverOne t db job = .ok db') :
    ∃ d, db.Rewrites job.incidentId db' d ∧ (db.dossier job.incidentId).Move R d := by
  obtain ⟨inc, hi, h⟩ := recoverOne_ok h
  have hid := incident_id_of_get hi
  have hmem : job ∈ (db.dossier job.incidentId).jobs := mem_dossier_jobs.mpr ⟨hj, rfl⟩
  have hw := Rewrites.refl db job.incidentId
  have hw' := hw.putJob hj (job.sameJob_ended expiredCode expiredDetail .failed) rfl
  rcases h with ⟨ha, rfl⟩ | ⟨-, ht, run, hr, hu⟩ | ⟨-, ht, patch, hp, hu⟩
  · exact ⟨_, hw.putJob hj (job.sameJob_requeued expiredCode expiredDetail t) rfl, .requeued _ _ _ hmem hs ha⟩
  · rw [hid] at hr
    obtain ⟨hm, hri⟩ := analysisRunOf_some hr
    have he : run.EndsAs (run.expired t) .failed := rfl
    exact ⟨_, (hw'.putAnalysisRun hm he.same hri).updateIncident hi (inc.sameCase_moveTo _) hid hu,
      .endedAnalyze _ _ true hi hmem ht hs (mem_dossier_analysisRuns.mpr ⟨hm, hri⟩) he⟩
  · rw [hid] at hp
    obtain ⟨hm, hpi⟩ := patchRunOf_some hp
    have he : patch.EndsAs (patch.expired t) .patchFailed := rfl
    exact ⟨_, (hw'.putPatchRun hm he.same hpi).updateIncident hi (inc.sameCase_moveTo _) hid hu,
      .endedPatch _ _ true hi hmem ht hs (mem_dossier_patchRuns.mpr ⟨hm, hpi⟩) he fun h => (Bool.noConfusion h)⟩

/-- The loop of `recover_expired` over running jobs of different incidents makes one move with each of
these and none with any other. -/
theorem recoverAll_moves {k : ℕ} {jobs : List Job} (hj : ∀ job ∈ jobs, job ∈ db.jobs.rows ∧ job.status = .running)
    (hd : jobs.Pairwise fun a b => a.incidentId ≠ b.incidentId) (h : recoverAll env k jobs db = .ok db') (i : Uuid) :
    (i ∈ jobs.map Job.incidentId → (db.dossier i).Move R (db'.dossier i)) ∧
      (i ∉ jobs.map Job.incidentId → db'.dossier i = db.dossier i) := by
  induction jobs generalizing k db with
  | nil =>
    cases h
    exact ⟨fun hm => (List.not_mem_nil hm).elim, fun _ => rfl⟩
  | cons job jobs ih =>
    obtain ⟨db₁, h₁, h⟩ := bind_eq_ok.mp h
    obtain ⟨hm, hs⟩ := hj job List.mem_cons_self
    obtain ⟨d, hw, hmove⟩ := recoverOne_rewrites hm hs h₁
    obtain ⟨hne, hd⟩ := List.pairwise_cons.mp hd
    -- the other jobs are still there: they belong to other incidents
    have hj' : ∀ job' ∈ jobs, job' ∈ db₁.jobs.rows ∧ job'.status = .running := by
      intro job' hm'
      obtain ⟨hr, hs'⟩ := hj job' (List.mem_cons_of_mem _ hm')
      have hmem : job' ∈ (db₁.dossier job'.incidentId).jobs := by
        rw [hw.elsewhere _ (hne job' hm').symm]
        exact mem_dossier_jobs.mpr ⟨hr, rfl⟩
      exact ⟨(mem_dossier_jobs.mp hmem).1, hs'⟩
    obtain ⟨ih1, ih2⟩ := ih hj' hd h
    have hfresh : job.incidentId ∉ jobs.map Job.incidentId := by
      intro hm'
      obtain ⟨job', hm', he⟩ := List.mem_map.mp hm'
      exact hne job' hm' he.symm
    rw [List.map_cons, List.mem_cons]
    constructor
    · rintro (rfl | hi)
      · rw [ih2 hfresh, hw.here]
        exact hmove
      · have hne' : i ≠ job.incidentId := fun h' => hfresh (h' ▸ hi)
        have := ih1 hi
        rwa [hw.elsewhere i hne'] at this
    · intro hi
      obtain ⟨h1, h2⟩ := not_or.mp hi
      rw [ih2 h2, hw.elsewhere i h1]

/-- At most one job of an incident runs. -/
theorem Dossier.Ok.running_unique {d : Dossier} (hd : d.Ok) {j j' : Job} (hj : j ∈ d.jobs) (hj' : j' ∈ d.jobs)
    (hs : j.status = .running) (hs' : j'.status = .running) : j = j' := by
  have key : ∀ {a b : Job}, a ∈ d.jobs → b ∈ d.jobs → a.status = .running → b.status = .running →
      a.type = .patch → a = b := by
    intro a b ha hb hsa hsb ht
    obtain ⟨inc, ja, r, ap, p, rfl, -, -, hja, -⟩ := hd.patch_active ha ht (Or.inr hsa)
    rcases List.mem_pair.mp hb with rfl | rfl
    · cases hja.symm.trans hsb
    · rfl
  cases ht : j.type with
  | patch => exact key hj hj' hs hs' ht
  | analyze =>
    cases ht' : j'.type with
    | patch => exact (key hj' hj hs' hs ht').symm
    | analyze =>
      rcases hd.analyze_active hj ht (Or.inr hs) with ⟨inc, rfl, -⟩ | ⟨inc, r, rfl, -⟩ <;>
        exact (List.mem_singleton.mp hj').symm

/-- The jobs `recover_expired` selects run and belong to different incidents. -/
theorem expiredJobs_apart (hok : ∀ i, (db.dossier i).Ok) (rows : List Uuid) (t : Time) :
    (∀ job ∈ expiredJobs rows t db, job ∈ db.jobs.rows ∧ job.status = .running) ∧
      (expiredJobs rows t db).Pairwise fun a b => a.incidentId ≠ b.incidentId := by
  have hj : ∀ job ∈ expiredJobs rows t db, job ∈ db.jobs.rows ∧ job.status = .running := by
    intro job hm
    obtain ⟨hr, he⟩ := mem_expiredJobs hm
    simp only [Job.isExpiredAt, Bool.and_eq_true, decide_eq_true_eq] at he
    exact ⟨hr, he.1⟩
  refine ⟨hj, (expiredJobs_nodup rows t db).imp_of_mem ?_⟩
  intro a b ha hb hne hi
  obtain ⟨hra, hsa⟩ := hj a ha
  obtain ⟨hrb, hsb⟩ := hj b hb
  have := (hok a.incidentId).running_unique (mem_dossier_jobs.mpr ⟨hra, rfl⟩) (mem_dossier_jobs.mpr ⟨hrb, hi.symm⟩)
    hsa hsb
  exact hne (congrArg Job.id this)

theorem recoverExpired_moves (hok : ∀ i, (db.dossier i).Ok) {rows : List Uuid} {n : ℕ}
    (h : recoverExpired env rows db = .ok (n, db')) : Moves R db db' := by
  obtain ⟨db₁, h, h'⟩ := bind_eq_ok.mp h
  cases h'
  obtain ⟨hj, hd⟩ := expiredJobs_apart hok rows (env.now 0)
  intro i
  obtain ⟨h1, h2⟩ := recoverAll_moves hj hd h i
  by_cases hi : i ∈ (expiredJobs rows (env.now 0) db).map Job.incidentId
  · exact Or.inr (h1 hi)
  · exact Or.inl (h2 hi)

/-! ### Outcomes -/

/-- The state an incident has while an attempt of a job works on it. -/
def JobType.workingState : JobType → IncidentState
  | .analyze => .analyzing
  | .patch => .patching

/-- An issued claim names a job, its type and its incident, and the incident has left the claim's version
whenever it has left the state in which the claim found it. -/
structure Claim.Fits (c : Claim) (db : Store) : Prop where
  job : ∃ j ∈ db.jobs.rows, j.id = c.jobId ∧ j.type = c.type ∧ j.incidentId = c.incidentId ∧ c.attempt ≤ j.attempt
  incident : ∃ inc, db.incidents.get c.incidentId = some inc ∧ c.version ≤ inc.version ∧
    (inc.version = c.version → inc.state = c.type.workingState)

theorem Claim.Fits.of_get {c : Claim} {job : Job} (h : c.Fits db) (hj : db.jobs.get c.jobId = some job) :
    job.type = c.type ∧ job.incidentId = c.incidentId ∧ c.attempt ≤ job.attempt := by
  obtain ⟨j, hm, hid, ht, hi, ha⟩ := h.job
  have : db.jobs.get c.jobId = some j := Table.get_eq_some.mpr ⟨hm, hid⟩
  obtain rfl : j = job := Option.some.inj (this.symm.trans hj)
  exact ⟨ht, hi, ha⟩

/-- A running ANALYZE job has no patch run to mark. -/
theorem Dossier.Ok.type_of_patchRun {d : Dossier} (hd : d.Ok) {j : Job} (hj : j ∈ d.jobs) (hs : j.status = .running)
    {p : PatchRun} (hp : p ∈ d.patchRuns) : j.type = .patch := by
  cases ht : j.type with
  | patch => rfl
  | analyze =>
    rcases hd.analyze_active hj ht (Or.inr hs) with ⟨_, rfl, -⟩ | ⟨_, _, rfl, -⟩ <;> exact (List.not_mem_nil hp).elim

theorem markValidating_moves (hok : ∀ i, (db.dossier i).Ok) {claim : Claim} (hc : claim.Fits db) {v : ℕ}
    (h : markValidating claim db = .ok (v, db')) : Moves R db db' := by
  obtain ⟨job, inc, patch, db₁, hj, hheld, hi, hv, hu, hp, -, rfl⟩ := markValidating_ok h
  obtain ⟨htj, hij, -⟩ := hc.of_get hj
  have hid := incident_id_of_get hi
  have hw := (Rewrites.refl db claim.incidentId).updateIncident hi (inc.sameCase_moveTo _) hid hu
  rw [hid] at hp
  obtain ⟨hm, hpi⟩ := patchRunOf_some hp
  have hmp : patch ∈ (db.dossier claim.incidentId).patchRuns := by
    have : patch ∈ (db₁.dossier claim.incidentId).patchRuns := mem_dossier_patchRuns.mpr ⟨hm, hpi⟩
    rwa [hw.here] at this
  have hmj : job ∈ (db.dossier claim.incidentId).jobs := mem_dossier_jobs.mpr ⟨(Table.get_eq_some.mp hj).1, hij⟩
  have hs := (heldBy_iff.mp hheld).2.2
  have ht := (hok claim.incidentId).type_of_patchRun hmj hs hmp
  have hst : inc.state = .patching := by
    obtain ⟨inc', hi', -, hw⟩ := hc.incident
    obtain rfl := Option.some.inj (hi.symm.trans hi')
    rw [hw hv, ← htj, ht]
    rfl
  exact (hw.putPatchRun hm patch.samePatch_validating hpi).moves (.marked hi hmj ht hs hst hmp)

/-- `R` has to hold where a PATCH claim succeeds with the version it passes. -/
theorem finalize_moves {claim : Claim} (hc : claim.Fits db) {outcome : Outcome} {version : Option ℕ} {r : Bool}
    (hR : claim.type = .patch → ∀ inc, db.incidents.get claim.incidentId = some inc →
      inc.version = version.getD claim.version → outcome.failed = false → R inc.state)
    (h : finalize env claim outcome version db = .ok (r, db')) : Moves R db db' := by
  rcases finalize_ok h with ⟨-, rfl⟩ | ⟨job, inc, hj, hheld, -, hi, hv, -, h⟩
  · exact .refl R _
  · obtain ⟨htj, hij, -⟩ := hc.of_get hj
    have hid := incident_id_of_get hi
    have hm := (Table.get_eq_some.mp hj).1
    have hs := (heldBy_iff.mp hheld).2.2
    have hmem : job ∈ (db.dossier claim.incidentId).jobs := mem_dossier_jobs.mpr ⟨hm, hij⟩
    have hw := Rewrites.refl db claim.incidentId
    rcases h with ⟨-, ha, rfl⟩ | h
    · exact (hw.putJob hm (job.sameJob_requeued _ _ _) hij).moves (.requeued _ _ _ hmem hs ha)
    · have hw' := hw.putJob hm (job.sameJob_ended outcome.errorCode outcome.errorDetail outcome.jobStatus) hij
      rcases finish_ok h with ⟨ht, run, hr, hu⟩ | ⟨ht, patch, hp, hu⟩
      · rw [hid] at hr
        obtain ⟨hmr, hri⟩ := analysisRunOf_some hr
        have he : run.EndsAs (run.finished outcome (env.now 1)) (if outcome.failed then .failed else .succeeded) := rfl
        exact ((hw'.putAnalysisRun hmr he.same hri).updateIncident hi (inc.sameCase_moveTo _) hid hu).moves
          (.endedAnalyze _ _ outcome.failed hi hmem (htj.trans ht) hs (mem_dossier_analysisRuns.mpr ⟨hmr, hri⟩) he)
      · rw [hid] at hp
        obtain ⟨hmp, hpi⟩ := patchRunOf_some hp
        have he : patch.EndsAs (patch.finished outcome (env.now 1))
          (if outcome.failed then .patchFailed else .patchReady) := rfl
        exact ((hw'.putPatchRun hmp he.same hpi).updateIncident hi (inc.sameCase_moveTo _) hid hu).moves
          (.endedPatch _ _ outcome.failed hi hmem (htj.trans ht) hs (mem_dossier_patchRuns.mpr ⟨hmp, hpi⟩) he
            (hR ht inc hi hv))

/-! ### Intake, approval and configuration -/

theorem openIncident_some {serviceId : Uuid} {fingerprint sha : PyStr} {inc : Incident}
    (h : IncidentRepository.openIncident db serviceId fingerprint sha = some inc) :
    inc ∈ db.incidents.rows ∧ inc.serviceId = serviceId ∧ inc.fingerprint = fingerprint ∧
      inc.baseCommitSha = sha ∧ inc.state.isOpen = true := by
  obtain ⟨hm, hp⟩ := Table.mem_of_first h
  simp only [Bool.and_eq_true, decide_eq_true_eq] at hp
  exact ⟨hm, hp.1.1.1, hp.1.1.2, hp.1.2, hp.2⟩

theorem ingestResolved_moves {request : EventRequest} {intake : Intake} {sha : PyStr} {r : Receipt}
    (h : ingestResolved env request intake sha db = .ok (r, db')) : Moves R db db' := by
  obtain ⟨service, -, -, ⟨-, rfl⟩ | ⟨-, -, fp, inc, occurredAt, db₁, db₂, -, -, h₁, h₂, h₃, -⟩⟩ := ingestResolved_ok h
  · exact .refl R _
  · obtain ⟨t, -, rfl⟩ := addErrorEvent_ok h₁
    obtain ⟨t', -, rfl⟩ := addOccurrence_ok h₃
    rcases joinIncident_ok h₂ with ⟨joined, ho, rfl, hu⟩ | ⟨-, rfl, db₃, ha, hj⟩
    · obtain ⟨hm, -, -, -, hopen⟩ := openIncident_some ho
      have hi : (db.dossier joined.id).incident = some joined := Table.get_self hm
      have hw := ((Rewrites.refl db joined.id).of_eq { db with errorEvents := t } fun _ => rfl).updateIncident
        hi joined.sameCase_counted rfl hu
      exact (hw.of_eq { db₂ with occurrences := t' } fun _ => rfl).moves (.counted hi hopen)
    · obtain ⟨hn, hw⟩ := ((Rewrites.refl db (env.uuid 1)).of_eq { db with errorEvents := t }
        fun _ => rfl).addIncident rfl ha
      have hw' := hw.addJob rfl hj
      exact (hw'.of_eq { db₂ with occurrences := t' } fun _ => rfl).moves (.opened env intake fp sha _ hn)

theorem approveOnce_moves {incidentId key : Uuid} {r : ApprovalReceipt}
    (h : approveOnce env incidentId key db = .ok (r, db')) : Moves R db db' := by
  obtain ⟨inc, hi, ⟨-, -, -, -, -, -, rfl⟩ | ⟨-, hst, run, hr, -, -, ha, -, h, -⟩⟩ := approveOnce_ok h
  · exact .refl R _
  · have hid := incident_id_of_get hi
    obtain ⟨db₁, db₂, db₃, h₁, h₂, h₃, h₄⟩ := addApproved_ok h
    have hrun : run ∈ (db.dossier inc.id).analysisRuns ∧ run.status = .succeeded := by
      have : run ∈ IncidentRepository.successfulAnalysis db inc.id := by rw [hr]; exact List.mem_singleton_self run
      obtain ⟨hm, hp⟩ := Table.mem_select.mp this
      simp only [Bool.and_eq_true, decide_eq_true_eq] at hp
      exact ⟨mem_dossier_analysisRuns.mpr ⟨hm, hp.1⟩, hp.2⟩
    have happ : (db.dossier inc.id).approvals = [] := by
      have := Table.first_eq_none.mp ha
      exact List.filter_eq_nil_iff.mpr fun a hm => this a hm
    have hi' : (db.dossier inc.id).incident = some inc := by rw [hid]; exact hi
    have hw₁ := (Rewrites.refl db inc.id).addApproval rfl h₁
    rw [happ] at hw₁
    obtain ⟨hp, hw₂⟩ := hw₁.addPatchRun rfl h₂
    simp only at hp
    rw [hp] at hw₂
    have hw₄ := (hw₂.addJob rfl h₃).updateIncident hi' (inc.sameCase_moveTo _) rfl h₄
    refine hw₄.moves (.approved env key hi' hst hrun.1 hrun.2 happ hp fun j hj => ?_)
    obtain ⟨t, ht, -⟩ := addJob_ok h₃
    obtain ⟨t₁, -, rfl⟩ := addApproval_ok h₁
    obtain ⟨t₂, -, rfl⟩ := addPatchRun_ok h₂
    exact (Table.insert_eq_some ht).2.1 j (mem_dossier_jobs.mp hj).1

/-- `sync_services` writes services only. -/
theorem syncAll_frame {fs : FileSystem} {k : ℕ} {policies : List (PyStr × ServicePolicy)}
    (h : syncAll settings fs env k policies db = .ok db') : ∃ t, db' = { db with services := t } := by
  induction policies generalizing k db with
  | nil =>
    obtain rfl := Except.ok.inj h
    exact ⟨db.services, rfl⟩
  | cons kp rest ih =>
    obtain ⟨db₁, h₁, h⟩ := bind_eq_ok.mp h
    obtain ⟨t, rfl⟩ := ih h
    rcases syncService_ok h₁ with ⟨-, ha⟩ | ⟨row, -, -, -, -, -, -, rfl⟩
    · obtain ⟨t', -, rfl⟩ := addService_ok ha
      exact ⟨t, rfl⟩
    · exact ⟨t, rfl⟩

theorem syncServices_moves {fs : FileSystem} {policies : List (PyStr × ServicePolicy)} {u : Unit}
    (h : syncServices settings fs env policies db = .ok (u, db')) : Moves R db db' := by
  obtain ⟨db₁, h, h'⟩ := bind_eq_ok.mp h
  cases h'
  obtain ⟨t, rfl⟩ := syncAll_frame h
  exact fun _ => Or.inl rfl

end Transactions

/-! ## The invariant -/

namespace Sys

/-- Every dossier agrees and every issued claim fits the store. -/
structure Inv (s : Sys) : Prop where
  ok : ∀ i, (s.db.dossier i).Ok
  fits : ∀ c ∈ s.issued, c.Fits s.db

theorem settle_ok {α : Type} {P : Store → Prop} {r : Except Exn (α × Store)} {db : Store} (h : P db)
    (hr : ∀ a db', r = .ok (a, db') → P db') : P (settle r db) := by
  cases r with
  | error e => exact h
  | ok p => exact hr p.1 p.2 rfl

/-- **Every transaction is a move or nothing at each dossier.** -/
theorem step_moves_of {R : IncidentState → Prop} {s s' : Sys} {tx : Tx} (hs : s.Inv) (h : machine.step s tx s')
    (hR : ∀ env claim outcome version, tx = .finalize env claim outcome version → claim.type = .patch →
      ∀ inc, s.db.incidents.get claim.incidentId = some inc → inc.version = version.getD claim.version →
        outcome.failed = false → R inc.state) : Moves R s.db s'.db := by
  obtain ⟨hallows, rfl⟩ := h
  have stays := Moves.refl R s.db
  cases tx with
  | ingest env request intake sha => exact settle_ok stays fun _ _ h => ingestResolved_moves h
  | approve env incidentId key => exact settle_ok stays fun _ _ h => approveOnce_moves h
  | syncServices settings fs env policies => exact settle_ok stays fun _ _ h => syncServices_moves h
  | claimJob settings env skip =>
    simp only [exec]
    split
    · rename_i h
      exact claimJob_moves h
    · rename_i h
      exact claimJob_moves h
    · exact stays
  | heartbeat env claim => exact settle_ok stays fun _ _ h => heartbeat_moves h
  | recoverExpired env rows => exact settle_ok stays fun _ _ h => recoverExpired_moves hs.ok h
  | markValidating claim =>
    simp only [exec]
    split
    · rename_i h
      exact markValidating_moves hs.ok (hs.fits claim hallows) h
    · exact stays
  | finalize env claim outcome version =>
    exact settle_ok stays fun _ _ h => finalize_moves (hs.fits claim hallows) (hR env claim outcome version rfl) h

theorem step_moves {s s' : Sys} {tx : Tx} (hs : s.Inv) (h : machine.step s tx s') :
    Moves (fun _ => True) s.db s'.db :=
  step_moves_of hs h fun _ _ _ _ _ _ _ _ _ _ => trivial

end Sys

section Preservation

variable {R : IncidentState → Prop} {db db' : Store}

theorem Moves.ok (h : Moves R db db') (hok : ∀ i, (db.dossier i).Ok) (i : Uuid) : (db'.dossier i).Ok := by
  rcases h i with he | hm
  · rw [he]
    exact hok i
  · exact hm.ok (hok i)

theorem Moves.job (h : Moves R db db') {j : Job} (hj : j ∈ db.jobs.rows) :
    ∃ j' ∈ db'.jobs.rows, j.SameJob j' ∧ j.attempt ≤ j'.attempt ∧
      (j.status ≠ .pending → j.status ≠ .running → j' = j) := by
  have hm := Store.mem_dossier_jobs.mpr ⟨hj, rfl⟩
  rcases h j.incidentId with he | hmove
  · rw [← he] at hm
    exact ⟨j, (Store.mem_dossier_jobs.mp hm).1, .refl j, le_rfl, fun _ _ => rfl⟩
  · obtain ⟨j', hm', hR⟩ := hmove.job (db.dossier_distinct _) hm
    exact ⟨j', (Store.mem_dossier_jobs.mp hm').1, hR⟩

theorem Moves.incident (h : Moves R db db') (hok : ∀ i, (db.dossier i).Ok) {i : Uuid} {inc : Incident}
    (hi : db.incidents.get i = some inc) :
    ∃ inc', db'.incidents.get i = some inc' ∧ inc.SameCase inc' ∧
      ((inc'.state = inc.state ∧ inc'.version = inc.version) ∨
        (inc.state.Next R inc'.state ∧ inc'.version = inc.version + 1)) := by
  rcases h i with he | hm
  · have hi' : db'.incidents.get i = some inc := (congrArg Dossier.incident he).trans hi
    exact ⟨inc, hi', .refl inc, Or.inl ⟨rfl, rfl⟩⟩
  · exact hm.incident (hok i) hi

/-- A claim fits every later store. -/
theorem Claim.Fits.moves {c : Claim} (hc : c.Fits db) (h : Moves R db db') (hok : ∀ i, (db.dossier i).Ok) :
    c.Fits db' := by
  obtain ⟨j, hj, hid, ht, hi, ha⟩ := hc.job
  obtain ⟨inc, hinc, hle, hw⟩ := hc.incident
  obtain ⟨j', hj', same, ha', -⟩ := h.job hj
  obtain ⟨inc', hinc', -, hv⟩ := h.incident hok hinc
  refine ⟨⟨j', hj', same.id.trans hid, same.type.trans ht, same.incident.trans hi, ha.trans ha'⟩, inc', hinc', ?_⟩
  rcases hv with ⟨hst, hv⟩ | ⟨-, hv⟩
  · exact ⟨by omega, fun he => by rw [hst]; exact hw (by omega)⟩
  · exact ⟨by omega, fun he => by omega⟩

end Preservation

/-- The claim `claim_job` returns fits the store it leaves. -/
theorem claimJob_fits {db db' : Store} {settings : Settings} {env : Env} {skip : Uuid → Bool} {c : Claim}
    (hok : ∀ i, (db.dossier i).Ok) (h : claimJob settings env skip db = .ok (some c, db')) : c.Fits db' := by
  rcases claimJob_ok h with ⟨h', -⟩ | ⟨job, inc, inc', hj, hs, -, hi, hb, hr⟩
  · cases h'
  · have hid := incident_id_of_get hi
    have hmem : job ∈ (db.dossier inc.id).jobs := Store.mem_dossier_jobs.mpr ⟨hj, hid.symm⟩
    have hi' : (db.dossier inc.id).incident = some inc := by rw [hid]; exact hi
    have hw := (Store.Rewrites.refl db inc.id).putJob hj
      (job.sameJob_claimed (env.uuid 0) settings.workerId (env.now 1)) hid.symm
    -- the incident after the claim, and that it is in the working state
    obtain ⟨hget, hwork, hid', hjobs⟩ : db'.incidents.get inc.id = some inc' ∧ inc'.state = job.type.workingState ∧
        inc'.id = inc.id ∧ (db'.dossier inc.id).jobs = Table.replace
          (job.claimed (env.uuid 0) settings.workerId (env.now 1)) (db.dossier inc.id).jobs := by
      cases ht : job.type with
      | analyze =>
        rw [ht] at hb
        obtain ⟨runs, -, hinc, hw'⟩ := hw.claimAnalyze hi' hb
        refine ⟨congrArg Dossier.incident hw'.here, ?_, ?_, congrArg Dossier.jobs hw'.here⟩
        · rcases hinc with ⟨-, rfl⟩ | ⟨hne, rfl⟩
          · rfl
          · rcases (hok inc'.id).analyze_active hmem ht (Or.inl hs) with ⟨_, he, hst, -⟩ | ⟨_, _, he, hst, -⟩
            · rw [he] at hi'
              cases hi'
              exact absurd hst hne
            · rw [he] at hi'
              cases hi'
              exact hst
        · rcases hinc with ⟨-, rfl⟩ | ⟨-, rfl⟩ <;> rfl
      | patch =>
        rw [ht] at hb
        obtain ⟨p, -, hinc, hw'⟩ := hw.claimPatch hi' hb
        refine ⟨congrArg Dossier.incident hw'.here, ?_, ?_, congrArg Dossier.jobs hw'.here⟩
        · rcases hinc with ⟨-, rfl⟩ | ⟨hst, rfl⟩
          · rfl
          · exact hst
        · rcases hinc with ⟨-, rfl⟩ | ⟨-, rfl⟩ <;> rfl
    have hmem' : job.claimed (env.uuid 0) settings.workerId (env.now 1) ∈ (db'.dossier inc.id).jobs := by
      rw [hjobs]
      exact Table.mem_replace.mpr (Or.inl ⟨rfl, job, hmem, rfl⟩)
    cases hr
    refine ⟨⟨_, (Store.mem_dossier_jobs.mp hmem').1, rfl, rfl, ?_, le_rfl⟩, inc', ?_, le_rfl, fun _ => hwork⟩
    · exact (hid.symm.trans hid'.symm)
    · rw [hid']
      exact hget

namespace Sys

theorem Inv.init {s : Sys} (h : Start s) : s.Inv := by
  obtain ⟨services, -, rfl⟩ := h
  exact ⟨fun _ => .absent, fun _ hc => (List.not_mem_nil hc).elim⟩

/-- What a transaction adds to the issued claims. -/
theorem issued_step {s s' : Sys} {tx : Tx} (h : machine.step s tx s') :
    s'.issued = s.issued ∨ ∃ settings env skip c, tx = .claimJob settings env skip ∧
      claimJob settings env skip s.db = .ok (some c, s'.db) ∧ s'.issued = c :: s.issued := by
  obtain ⟨-, rfl⟩ := h
  cases tx with
  | claimJob settings env skip =>
    simp only [exec]
    split
    · rename_i c db' hc
      exact Or.inr ⟨settings, env, skip, c, rfl, hc, rfl⟩
    · exact Or.inl rfl
    · exact Or.inl rfl
  | markValidating claim =>
    simp only [exec]
    split <;> exact Or.inl rfl
  | _ => exact Or.inl rfl

theorem Inv.step {s s' : Sys} {tx : Tx} (hs : s.Inv) (h : machine.step s tx s') : s'.Inv := by
  have hm := step_moves hs h
  refine ⟨hm.ok hs.ok, fun c hc => ?_⟩
  rcases issued_step h with hi | ⟨settings, env, skip, c', -, hcl, hi⟩
  · rw [hi] at hc
    exact (hs.fits c hc).moves hm hs.ok
  · rw [hi] at hc
    rcases List.mem_cons.mp hc with rfl | hc
    · exact claimJob_fits hs.ok hcl
    · exact (hs.fits c hc).moves hm hs.ok

/-- **The invariant holds in every reachable state.** -/
theorem inv_of_reachable {s : Sys} (h : machine.Reachable s) : s.Inv :=
  Machine.Reachable.invariant (fun _ => Inv.init) (fun _ _ _ hs h => hs.step h) h

end Sys

namespace Sys

/-! ## Runs of given transactions -/

instance (s : Sys) (tx : Tx) : Decidable (s.allows tx) :=
  match tx with
  | .heartbeat _ claim | .markValidating claim | .finalize _ claim _ _ => inferInstanceAs (Decidable (claim ∈ s.issued))
  | .ingest .. | .approve .. | .syncServices .. | .claimJob .. | .recoverExpired .. => .isTrue trivial

def execAll (s : Sys) (txs : List Tx) : Sys := txs.foldl exec s

/-- Every transaction of the list is allowed when its turn comes. -/
def Permits : Sys → List Tx → Prop
  | _, [] => True
  | s, tx :: txs => s.allows tx ∧ (s.exec tx).Permits txs

instance decidablePermits : (s : Sys) → (txs : List Tx) → Decidable (s.Permits txs)
  | _, [] => .isTrue trivial
  | s, tx :: txs => @instDecidableAnd _ _ _ (decidablePermits (s.exec tx) txs)

theorem permits_append {s : Sys} {txs txs' : List Tx} :
    s.Permits (txs ++ txs') ↔ s.Permits txs ∧ (s.execAll txs).Permits txs' := by
  induction txs generalizing s with
  | nil => simp [Permits, execAll]
  | cons tx txs ih =>
    show s.allows tx ∧ (s.exec tx).Permits (txs ++ txs') ↔ (s.allows tx ∧ (s.exec tx).Permits txs) ∧ _
    rw [ih, and_assoc]
    rfl

theorem run_execAll {s : Sys} {txs : List Tx} (hp : s.Permits txs) : ∃ tr, machine.Run s tr (s.execAll txs) := by
  induction txs generalizing s with
  | nil => exact ⟨[], .nil⟩
  | cons tx txs ih =>
    obtain ⟨tr, hr⟩ := ih hp.2
    exact ⟨_, .cons (M := machine) (l := tx) ⟨hp.1, rfl⟩ hr⟩

end Sys

/-! ## A sample run -/

namespace Sample

def policy : Json :=
  .obj [(lit "repositoryPath", .str (lit "api")), (lit "allowedPaths", strList [lit "src/*"]),
    (lit "validationCommands", .arr [.obj [(lit "id", .str (lit "tests")), (lit "argv", strList [lit "pytest"])]])]

def service : Service := ⟨1, lit "api", lit "api", lit "main", policy, true⟩

def settings : Settings :=
  { repositoryRoot := lit "/repositories", codexModel := lit "model", workerId := "worker", cursorSecret := lit "secret",
    laxInt := fun j => match j with
      | .int n => some n
      | _ => none }

/-- The `k`-th transaction of a run: everything is read at second `k`. -/
def env (k : ℕ) : Env :=
  { now := fun _ => seconds k, uuid := fun n => Fin.ofNat _ (16 * k + n),
    dbNow := ⟨2026, 1, 1, 0, 0, k, 0, some 0⟩ }

def request : EventRequest :=
  { event := .obj [(lit "occurredAt", .str (lit "2026-01-01T00:00:00Z"))], checksum := "c",
    normalized := .obj [(lit "fingerprint", .str (lit "f"))] }

def fs : FileSystem :=
  { cwd := [], resolve := fun base reference => some (base ++ [reference]), pathExists := fun _ _ => true }

/-- A narrower policy for the same repository. -/
def narrowed : ServicePolicy :=
  { repositoryPath := lit "api", defaultBranch := lit "main", runbookPaths := [], allowedPaths := [lit "src/a.py"],
    deniedPaths := [], maxChangedFiles := 1, maxDiffLines := 10, analysisTimeoutSeconds := 60,
    patchTimeoutSeconds := 60, validationCommands := [⟨lit "tests", [lit "pytest"], 60, by decide, by decide, by decide⟩],
    repository_safe := by decide, patterns_safe := by decide, allowed_nonempty := by decide,
    changed_range := by decide, lines_range := by decide, analysis_range := by decide, patch_range := by decide,
    commands_nonempty := List.cons_ne_nil _ _ }

def intake : Intake := ⟨1, lit "api", lit "main", 7⟩

def sha : PyStr := lit "0123456789012345678901234567890123456789"

def start : Sys := { db := .ofServices ⟨[service], by decide⟩ }

def analyzeClaim : Claim := ⟨18, 32, 17, .analyze, 2, 1⟩

def patchClaim : Claim := ⟨66, 80, 17, .patch, 4, 1⟩

/-- An incident from its first event to a validated patch; the policy changes after the first claim. -/
def txs : List Tx :=
  [.ingest (env 1) request intake sha, .claimJob settings (env 2) fun _ => false,
    .syncServices settings fs (env 3) [(lit "api", narrowed)],
    .finalize (env 3) analyzeClaim { result := some .null } none, .approve (env 4) 17 9,
    .claimJob settings (env 5) fun _ => false, .markValidating patchClaim,
    .finalize (env 7) patchClaim {} (some 5)]

/-- The sample run after its first `n` transactions. -/
def after (n : ℕ) : Sys := start.execAll (txs.take n)

theorem permits (n : ℕ) : start.Permits (txs.take n) ∧ (after n).Permits (txs.drop n) := by
  have hp : start.Permits txs := by decide
  rw [← List.take_append_drop n txs] at hp
  exact Sys.permits_append.mp hp

/-- A permitted list of transactions from the start of the sample. -/
theorem reachable_execAll {txs : List Tx} (hp : start.Permits txs) : Sys.machine.Reachable (start.execAll txs) := by
  obtain ⟨tr, hr⟩ := Sys.run_execAll hp
  exact ⟨start, tr, ⟨_, by decide, rfl⟩, hr⟩

theorem reachable (n : ℕ) : Sys.machine.Reachable (after n) := reachable_execAll (permits n).1

/-- The rest of the sample run. -/
theorem run_rest (n : ℕ) : ∃ tr, Sys.machine.Run (after n) tr (start.execAll txs) := by
  obtain ⟨tr, hr⟩ := Sys.run_execAll (permits n).2
  refine ⟨tr, ?_⟩
  have he : (after n).execAll (txs.drop n) = start.execAll txs := by
    unfold after Sys.execAll
    rw [← List.foldl_append, List.take_append_drop]
  rwa [he] at hr

end Sample

end Aeh
