import Aeh.System

/-!
# RunStep — what a transaction writes as a run

A row of the analysis runs or the patch runs after a transaction was there before or is one the transaction has
written (`Sys.analysisRun_step`, `Sys.patchRun_step`): one constructor for each place of the source that writes it.
In the other direction a run stays, with what its first claim wrote, and a succeeded run does not change any more
(`Sys.later_step`).
-/

namespace Aeh

open Store

/-- The analysis runs a transaction can write. -/
inductive AnalysisRun.Written (db : Store) : Tx → AnalysisRun → Prop
  | first {settings : Settings} {env : Env} {skip : Uuid → Bool} {inc : Incident} {service : Service} {policy : ServicePolicy}
      (hi : inc ∈ db.incidents.rows) (hn : db.analysisRunOf inc.id = none) (hs : db.services.get inc.serviceId = some service)
      (hp : ServicePolicy.modelValidate settings.laxInt service.policy = .ok policy) :
      Written db (.claimJob settings env skip) (firstRun settings env inc policy)
  | expired {env : Env} {rows : List Uuid} {run : AnalysisRun} (k : ℕ) (hr : run ∈ db.analysisRuns.rows) :
      Written db (.recoverExpired env rows) (run.expired (env.now k))
  | finished {env : Env} {claim : Claim} {outcome : Outcome} {version : Option ℕ} {run : AnalysisRun}
      (hr : run ∈ db.analysisRuns.rows) (ht : claim.type = .analyze) (hi : run.incidentId = claim.incidentId) :
      Written db (.finalize env claim outcome version) (run.finished outcome (env.now 1))

/-- The patch runs a transaction can write. -/
inductive PatchRun.Written (db : Store) : Tx → PatchRun → Prop
  | created {env : Env} {incidentId key : Uuid} {inc : Incident} {run : AnalysisRun} (hr : run ∈ db.analysisRuns.rows)
      (hi : run.incidentId = inc.id) (hs : run.status = .succeeded) :
      Written db (.approve env incidentId key) (newPatchRun env (newApproval env inc run key))
  | started {settings : Settings} {env : Env} {skip : Uuid → Bool} {patch : PatchRun} (hp : patch ∈ db.patchRuns.rows) :
      Written db (.claimJob settings env skip) (patch.started (env.now 2))
  | validating {claim : Claim} {patch : PatchRun} (hp : patch ∈ db.patchRuns.rows) :
      Written db (.markValidating claim) patch.validating
  | expired {env : Env} {rows : List Uuid} {patch : PatchRun} (k : ℕ) (hp : patch ∈ db.patchRuns.rows) :
      Written db (.recoverExpired env rows) (patch.expired (env.now k))
  | finished {env : Env} {claim : Claim} {outcome : Outcome} {version : Option ℕ} {patch : PatchRun}
      (hp : patch ∈ db.patchRuns.rows) (ht : claim.type = .patch) (hi : patch.incidentId = claim.incidentId) :
      Written db (.finalize env claim outcome version) (patch.finished outcome (env.now 1))

/-! ## Recovery -/

section Steps

variable {db db₁ db' : Store} {settings : Settings} {env : Env}

/-- The runs a recovery leaves: those before it, some of them expired. -/
structure Store.Recovers (env : Env) (db db' : Store) : Prop where
  analysisRun : ∀ r ∈ db'.analysisRuns.rows, r ∈ db.analysisRuns.rows ∨
    ∃ run k, run ∈ db.analysisRuns.rows ∧ r = run.expired (env.now k)
  patchRun : ∀ p ∈ db'.patchRuns.rows, p ∈ db.patchRuns.rows ∨
    ∃ patch k, patch ∈ db.patchRuns.rows ∧ p = patch.expired (env.now k)

theorem recoverOne_recovers {k : ℕ} {job : Job} (h : recoverOne (env.now k) db job = .ok db') : db.Recovers env db' := by
  obtain ⟨inc, -, ⟨-, rfl⟩ | ⟨-, -, run, hr, hu⟩ | ⟨-, -, patch, hp, hu⟩⟩ := recoverOne_ok h
  · exact ⟨fun r hr => Or.inl hr, fun p hp => Or.inl hp⟩
  · have ha : db'.analysisRuns = db.analysisRuns.put (run.expired (env.now k)) :=
      (congrArg Store.analysisRuns (updateIncident_ok hu) :)
    have hpt : db'.patchRuns = db.patchRuns := (congrArg Store.patchRuns (updateIncident_ok hu) :)
    refine ⟨fun r hm => ?_, fun p hm => Or.inl (hpt ▸ hm)⟩
    rw [ha] at hm
    rcases Table.mem_put.mp hm with ⟨rfl, -⟩ | ⟨hm, -⟩
    · exact Or.inr ⟨run, k, (analysisRunOf_some hr).1, rfl⟩
    · exact Or.inl hm
  · have ha : db'.analysisRuns = db.analysisRuns := (congrArg Store.analysisRuns (updateIncident_ok hu) :)
    have hpt : db'.patchRuns = db.patchRuns.put (patch.expired (env.now k)) :=
      (congrArg Store.patchRuns (updateIncident_ok hu) :)
    refine ⟨fun r hm => Or.inl (ha ▸ hm), fun p hm => ?_⟩
    rw [hpt] at hm
    rcases Table.mem_put.mp hm with ⟨rfl, -⟩ | ⟨hm, -⟩
    · exact Or.inr ⟨patch, k, (patchRunOf_some hp).1, rfl⟩
    · exact Or.inl hm

/-- The loop of `recover_expired`: a run expired twice has the last time only. -/
theorem recoverAll_recovers {k : ℕ} {jobs : List Job} (h : recoverAll env k jobs db = .ok db') : db.Recovers env db' := by
  induction jobs generalizing k db with
  | nil =>
    obtain rfl := Except.ok.inj h
    exact ⟨fun r hr => Or.inl hr, fun p hp => Or.inl hp⟩
  | cons job jobs ih =>
    obtain ⟨db₁, h₁, h⟩ := bind_eq_ok.mp h
    have hone := recoverOne_recovers h₁
    have hrest := ih h
    constructor
    · intro r hr
      rcases hrest.analysisRun r hr with hr | ⟨run, i, hm, rfl⟩
      · exact hone.analysisRun r hr
      · rcases hone.analysisRun run hm with hm | ⟨run₀, _, hm₀, rfl⟩
        · exact Or.inr ⟨run, i, hm, rfl⟩
        · exact Or.inr ⟨run₀, i, hm₀, rfl⟩
    · intro p hp
      rcases hrest.patchRun p hp with hp | ⟨patch, i, hm, rfl⟩
      · exact hone.patchRun p hp
      · rcases hone.patchRun patch hm with hm | ⟨patch₀, _, hm₀, rfl⟩
        · exact Or.inr ⟨patch, i, hm, rfl⟩
        · exact Or.inr ⟨patch₀, i, hm₀, rfl⟩

/-! ## Claims and outcomes -/

/-- The first claim validates the service's present policy. -/
theorem ensureRun_first {inc : Incident} (h : ensureRun settings env inc db = .ok db')
    (hn : db.analysisRunOf inc.id = none) : ∃ service policy, db.services.get inc.serviceId = some service ∧
      ServicePolicy.modelValidate settings.laxInt service.policy = .ok policy ∧
      db.addAnalysisRun (firstRun settings env inc policy) = .ok db' := by
  unfold ensureRun at h
  rw [hn] at h
  cases hs : db.services.get inc.serviceId with
  | none =>
    rw [hs] at h
    cases h
  | some service =>
    rw [hs] at h
    obtain ⟨policy, hp, h⟩ := bind_eq_ok.mp h
    exact ⟨service, policy, rfl, hp, h⟩

theorem claimBranch_runs {type : JobType} {inc inc' : Incident} (skip : Uuid → Bool) (hi : inc ∈ db.incidents.rows)
    (h : claimBranch settings env type inc db = .ok (inc', db')) :
    (∀ r ∈ db'.analysisRuns.rows, r ∈ db.analysisRuns.rows ∨ r.Written db (.claimJob settings env skip)) ∧
      ∀ p ∈ db'.patchRuns.rows, p ∈ db.patchRuns.rows ∨ p.Written db (.claimJob settings env skip) := by
  cases type with
  | analyze =>
    obtain ⟨db₁, h₁, h⟩ := claimAnalyze_ok h
    obtain ⟨ha, hp⟩ : db'.analysisRuns = db₁.analysisRuns ∧ db'.patchRuns = db₁.patchRuns := by
      rcases h with ⟨-, -, hu⟩ | ⟨-, -, rfl⟩
      · exact ⟨(congrArg Store.analysisRuns (updateIncident_ok hu) :), (congrArg Store.patchRuns (updateIncident_ok hu) :)⟩
      · exact ⟨rfl, rfl⟩
    rw [ha, hp]
    rcases ensureRun_ok h₁ with ⟨rfl, -⟩ | ⟨hn, -⟩
    · exact ⟨fun r hr => Or.inl hr, fun p hp => Or.inl hp⟩
    · obtain ⟨service, policy, hs, hpolicy, hadd⟩ := ensureRun_first h₁ hn
      obtain ⟨t, ht, rfl⟩ := addAnalysisRun_ok hadd
      refine ⟨fun r hr => ?_, fun p hp => Or.inl hp⟩
      rcases (Table.mem_insert ht).mp hr with hr | rfl
      · exact Or.inl hr
      · exact Or.inr (.first hi hn hs hpolicy)
  | patch =>
    obtain ⟨patch, hpatch, h⟩ := claimPatch_ok h
    obtain ⟨ha, hp⟩ : db'.analysisRuns = db.analysisRuns ∧
        db'.patchRuns = db.patchRuns.put (patch.started (env.now 2)) := by
      rcases h with ⟨-, -, hu⟩ | ⟨-, -, rfl⟩
      · exact ⟨(congrArg Store.analysisRuns (updateIncident_ok hu) :), (congrArg Store.patchRuns (updateIncident_ok hu) :)⟩
      · exact ⟨rfl, rfl⟩
    rw [ha, hp]
    refine ⟨fun r hr => Or.inl hr, fun p hp => ?_⟩
    rcases Table.mem_put.mp hp with ⟨rfl, -⟩ | ⟨hp, -⟩
    · exact Or.inr (.started (patchRunOf_some hpatch).1)
    · exact Or.inl hp

theorem finish_runs {claim : Claim} (version : Option ℕ) {inc : Incident} {outcome : Outcome} (hid : inc.id = claim.incidentId)
    (h : finish (env.now 1) claim.type inc outcome db = .ok db') :
    (∀ r ∈ db'.analysisRuns.rows, r ∈ db.analysisRuns.rows ∨ r.Written db (.finalize env claim outcome version)) ∧
      ∀ p ∈ db'.patchRuns.rows, p ∈ db.patchRuns.rows ∨ p.Written db (.finalize env claim outcome version) := by
  rcases finish_ok h with ⟨ht, run, hr, hu⟩ | ⟨ht, patch, hp, hu⟩
  · have ha : db'.analysisRuns = db.analysisRuns.put (run.finished outcome (env.now 1)) :=
      (congrArg Store.analysisRuns (updateIncident_ok hu) :)
    have hpt : db'.patchRuns = db.patchRuns := (congrArg Store.patchRuns (updateIncident_ok hu) :)
    obtain ⟨hm, hri⟩ := analysisRunOf_some hr
    refine ⟨fun r hr' => ?_, fun p hp => Or.inl (hpt ▸ hp)⟩
    rw [ha] at hr'
    rcases Table.mem_put.mp hr' with ⟨rfl, -⟩ | ⟨hr', -⟩
    · exact Or.inr (.finished hm ht (hri.trans hid))
    · exact Or.inl hr'
  · have ha : db'.analysisRuns = db.analysisRuns := (congrArg Store.analysisRuns (updateIncident_ok hu) :)
    have hpt : db'.patchRuns = db.patchRuns.put (patch.finished outcome (env.now 1)) :=
      (congrArg Store.patchRuns (updateIncident_ok hu) :)
    obtain ⟨hm, hpi⟩ := patchRunOf_some hp
    refine ⟨fun r hr => Or.inl (ha ▸ hr), fun p hp' => ?_⟩
    rw [hpt] at hp'
    rcases Table.mem_put.mp hp' with ⟨rfl, -⟩ | ⟨hp', -⟩
    · exact Or.inr (.finished hm ht (hpi.trans hid))
    · exact Or.inl hp'

end Steps

/-! ## One transaction -/

namespace Sys

/-- What a step writes as runs. -/
def WritesRuns (s : Sys) (tx : Tx) (db : Store) : Prop :=
  (∀ r ∈ db.analysisRuns.rows, r ∈ s.db.analysisRuns.rows ∨ r.Written s.db tx) ∧
    ∀ p ∈ db.patchRuns.rows, p ∈ s.db.patchRuns.rows ∨ p.Written s.db tx

theorem WritesRuns.of_eq {s : Sys} {tx : Tx} {db : Store}
    (h : db.analysisRuns = s.db.analysisRuns ∧ db.patchRuns = s.db.patchRuns) : s.WritesRuns tx db :=
  ⟨fun _ hr => Or.inl (h.1 ▸ hr), fun _ hp => Or.inl (h.2 ▸ hp)⟩

theorem runs_step {s s' : Sys} {tx : Tx} (h : machine.step s tx s') : s.WritesRuns tx s'.db := by
  obtain ⟨-, rfl⟩ := h
  cases tx with
  | ingest env request intake sha =>
    refine settle_ok (P := s.WritesRuns _) (.of_eq ⟨rfl, rfl⟩) fun r db' hr => .of_eq ?_
    obtain ⟨service, -, -, ⟨-, rfl⟩ | ⟨-, -, fp, inc, occurredAt, db₁, db₂, -, -, h₁, h₂, h₃, -⟩⟩ := ingestResolved_ok hr
    · exact ⟨rfl, rfl⟩
    · obtain ⟨t, -, rfl⟩ := addErrorEvent_ok h₁
      obtain ⟨t', -, rfl⟩ := addOccurrence_ok h₃
      show db₂.analysisRuns = _ ∧ db₂.patchRuns = _
      rcases joinIncident_ok h₂ with ⟨joined, -, -, hu⟩ | ⟨-, -, db₃, ha, hj⟩
      · obtain rfl := updateIncident_ok hu
        exact ⟨rfl, rfl⟩
      · obtain ⟨t₁, -, rfl⟩ := addIncident_ok ha
        obtain ⟨t₂, -, rfl⟩ := addJob_ok hj
        exact ⟨rfl, rfl⟩
  | approve env incidentId key =>
    refine settle_ok (P := s.WritesRuns _) (.of_eq ⟨rfl, rfl⟩) fun r db' hr => ?_
    obtain ⟨inc, -, ⟨-, -, -, -, -, -, rfl⟩ | ⟨-, -, run, hrun, -, -, -, -, hr, -⟩⟩ := approveOnce_ok hr
    · exact .of_eq ⟨rfl, rfl⟩
    · obtain ⟨db₁, db₂, db₃, h₁, h₂, h₃, h₄⟩ := addApproved_ok hr
      obtain ⟨t₁, -, rfl⟩ := addApproval_ok h₁
      obtain ⟨t₂, ht₂, rfl⟩ := addPatchRun_ok h₂
      obtain ⟨t₃, -, rfl⟩ := addJob_ok h₃
      have ha : db'.analysisRuns = s.db.analysisRuns := (congrArg Store.analysisRuns (updateIncident_ok h₄) :)
      have hp : db'.patchRuns = t₂ := (congrArg Store.patchRuns (updateIncident_ok h₄) :)
      have hmem : run ∈ IncidentRepository.successfulAnalysis s.db inc.id := by
        rw [hrun]
        exact List.mem_singleton_self run
      obtain ⟨hm, hs⟩ := Table.mem_select.mp hmem
      simp only [Bool.and_eq_true, decide_eq_true_eq] at hs
      refine ⟨fun r hr => Or.inl (ha ▸ hr), fun p hm' => ?_⟩
      rw [hp] at hm'
      rcases (Table.mem_insert ht₂).mp hm' with hm' | rfl
      · exact Or.inl hm'
      · exact Or.inr (.created hm hs.1 hs.2)
  | syncServices settings fs env policies =>
    refine settle_ok (P := s.WritesRuns _) (.of_eq ⟨rfl, rfl⟩) fun r db' hr => .of_eq ?_
    obtain ⟨db₁, h, h'⟩ := bind_eq_ok.mp hr
    obtain ⟨t, rfl⟩ := syncAll_frame h
    cases h'
    exact ⟨rfl, rfl⟩
  | claimJob settings env skip =>
    have hclaim : ∀ r db', claimJob settings env skip s.db = .ok (r, db') →
        s.WritesRuns (.claimJob settings env skip) db' := by
      intro r db' hr
      rcases claimJob_ok hr with ⟨-, rfl⟩ | ⟨job, inc, inc', -, -, -, hi, hb, -⟩
      · exact .of_eq ⟨rfl, rfl⟩
      · have hm : inc ∈ (s.db.putJob (job.claimed (env.uuid 0) settings.workerId (env.now 1))).incidents.rows :=
          (Table.get_eq_some.mp hi).1
        obtain ⟨ha, hp⟩ := claimBranch_runs skip hm hb
        refine ⟨fun r hr => (ha r hr).imp id fun hw => ?_, fun p hm => (hp p hm).imp id fun hw => ?_⟩
        · cases hw with
          | first hi hn hs hpolicy => exact .first hi hn hs hpolicy
        · cases hw with
          | started hp' => exact .started hp'
    simp only [exec]
    split
    · exact hclaim _ _ ‹_›
    · exact hclaim _ _ ‹_›
    · exact .of_eq ⟨rfl, rfl⟩
  | heartbeat env claim =>
    refine settle_ok (P := s.WritesRuns _) (.of_eq ⟨rfl, rfl⟩) fun r db' hr => .of_eq ?_
    rcases heartbeat_ok hr with ⟨-, rfl⟩ | ⟨job, -, -, -, -, rfl⟩ <;> exact ⟨rfl, rfl⟩
  | recoverExpired env rows =>
    refine settle_ok (P := s.WritesRuns _) (.of_eq ⟨rfl, rfl⟩) fun r db' hr => ?_
    obtain ⟨db₁, h, h'⟩ := bind_eq_ok.mp hr
    cases h'
    have hrec := recoverAll_recovers h
    refine ⟨fun r hr => (hrec.analysisRun r hr).imp id ?_, fun p hp => (hrec.patchRun p hp).imp id ?_⟩
    · rintro ⟨run, k, hm, rfl⟩
      exact .expired k hm
    · rintro ⟨patch, k, hm, rfl⟩
      exact .expired k hm
  | markValidating claim =>
    simp only [exec]
    split
    · rename_i hm
      obtain ⟨job, inc, patch, db₁, -, -, -, -, hu, hp, -, rfl⟩ := markValidating_ok hm
      obtain rfl := updateIncident_ok hu
      refine ⟨fun r hr => Or.inl hr, fun p hm => ?_⟩
      rcases Table.mem_put.mp hm with ⟨rfl, -⟩ | ⟨hm, -⟩
      · exact Or.inr (.validating (patchRunOf_some hp).1)
      · exact Or.inl hm
    · exact .of_eq ⟨rfl, rfl⟩
  | finalize env claim outcome version =>
    refine settle_ok (P := s.WritesRuns _) (.of_eq ⟨rfl, rfl⟩) fun r db' hr => ?_
    rcases finalize_ok hr with ⟨-, rfl⟩ | ⟨job, inc, -, -, -, hi, -, -, ⟨-, -, rfl⟩ | hf⟩
    · exact .of_eq ⟨rfl, rfl⟩
    · exact .of_eq ⟨rfl, rfl⟩
    · obtain ⟨ha, hp⟩ := finish_runs version (incident_id_of_get hi) hf
      refine ⟨fun r hr => (ha r hr).imp id fun hw => ?_, fun p hm => (hp p hm).imp id fun hw => ?_⟩
      · cases hw with
        | finished hr' ht hid => exact .finished hr' ht hid
      · cases hw with
        | finished hp' ht hid => exact .finished hp' ht hid

/-- **Where an analysis run comes from.** -/
theorem analysisRun_step {s s' : Sys} {tx : Tx} (h : machine.step s tx s') {r : AnalysisRun}
    (hr : r ∈ s'.db.analysisRuns.rows) : r ∈ s.db.analysisRuns.rows ∨ r.Written s.db tx := (runs_step h).1 r hr

/-- **Where a patch run comes from.** -/
theorem patchRun_step {s s' : Sys} {tx : Tx} (h : machine.step s tx s') {p : PatchRun}
    (hp : p ∈ s'.db.patchRuns.rows) : p ∈ s.db.patchRuns.rows ∨ p.Written s.db tx := (runs_step h).2 p hp

end Sys

/-! ## What stays -/

/-- A later version of an analysis run. -/
structure AnalysisRun.Later (r r' : AnalysisRun) : Prop where
  same : r.SameRun r'
  started : r'.startedAt = r.startedAt
  succeeded : r.status = .succeeded → r' = r

theorem AnalysisRun.Later.refl (r : AnalysisRun) : r.Later r := ⟨.refl r, rfl, fun _ => rfl⟩

/-- A move leaves a later version of each analysis run. -/
theorem Dossier.Move.later {R : IncidentState → Prop} {d d' : Dossier} (h : d.Move R d') (hd : d.Ok) {r : AnalysisRun}
    (hr : r ∈ d.analysisRuns) : ∃ r' ∈ d'.analysisRuns, r.Later r' := by
  cases h with
  | claimedAnalyze _ _ _ _ _ _ _ _ hruns =>
    rcases hruns with ⟨-, rfl⟩ | ⟨hn, -⟩
    · exact ⟨r, hr, .refl r⟩
    · rw [hn] at hr
      exact (List.not_mem_nil hr).elim
  | @endedAnalyze _ _ _ r' code detail failed hi hj ht hs hy he =>
    -- the only run is the one that ends, and it was running
    rcases hd.analyze_active hj ht (Or.inr hs) with ⟨inc, rfl, -, -, -, hp, -⟩ | ⟨inc, r₁, rfl, -, -, -, -, -, hrun⟩
    · cases hp.symm.trans hs
    · obtain rfl := List.mem_singleton.mp hr
      obtain rfl := List.mem_singleton.mp hy
      dsimp only
      rw [Table.replace_one he.same.id]
      refine ⟨r', List.mem_singleton_self _, he.same, ?_, fun h => ?_⟩
      · unfold AnalysisRun.EndsAs at he
        rw [he]
      · cases h.symm.trans hrun
  | _ => exact ⟨r, hr, .refl r⟩

/-- **A step leaves a later version of each analysis run.** -/
theorem Sys.later_step {s s' : Sys} {tx : Tx} (hs : s.Inv) (h : machine.step s tx s') {r : AnalysisRun}
    (hr : r ∈ s.db.analysisRuns.rows) : ∃ r' ∈ s'.db.analysisRuns.rows, r.Later r' := by
  have hm := mem_dossier_analysisRuns.mpr ⟨hr, rfl⟩
  rcases step_moves hs h r.incidentId with he | hmove
  · rw [← he] at hm
    exact ⟨r, (mem_dossier_analysisRuns.mp hm).1, .refl r⟩
  · obtain ⟨r', hr', hl⟩ := hmove.later (hs.ok _) hm
    exact ⟨r', (mem_dossier_analysisRuns.mp hr').1, hl⟩

end Aeh
