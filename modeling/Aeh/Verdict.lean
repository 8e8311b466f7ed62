import Aeh.Frozen
import Aeh.JobStep
import Aeh.RunStep

/-!
# Verdict — how a job ends

A job that is over has been ended by one transaction: the `finalize` of the claim that held it, while its lease had not
run out, or the `recover_expired` that found it expired at its last attempt.  The same transaction has ended the run the
job worked for, with the same error, and neither has changed since (`Sys.verdicts`).
-/

namespace Aeh

/-! ## Verdicts -/

/-- The run of a job after `finalize`. -/
def finishedRun (outcome : Outcome) (t : Time) : AnalysisRun ⊕ PatchRun → AnalysisRun ⊕ PatchRun :=
  Sum.map (fun run => run.finished outcome t) fun patch => patch.finished outcome t

/-- The run of a job after `recover_expired`. -/
def expiredRun (t : Time) : AnalysisRun ⊕ PatchRun → AnalysisRun ⊕ PatchRun :=
  Sum.map (fun run => run.expired t) fun patch => patch.expired t

/-- The transactions that end a job, with the job afterwards and what they make of its run. -/
inductive Verdict (s : Sys) (j : Job) : Tx → Job → (AnalysisRun ⊕ PatchRun → AnalysisRun ⊕ PatchRun) → Prop
  | finalized {env : Env} {claim : Claim} {outcome : Outcome} {version : Option ℕ} (hc : claim ∈ s.issued)
      (hh : j.heldBy claim = true) (hl : j.leaseAt (env.now 0) = true)
      (hr : ¬ (outcome.failed = true ∧ outcome.transient = true ∧ j.attempt < j.maxAttempts)) :
      Verdict s j (.finalize env claim outcome version) (j.ended outcome.errorCode outcome.errorDetail outcome.jobStatus)
        (finishedRun outcome (env.now 1))
  | expired {env : Env} {rows : List Uuid} (k : ℕ) (he : j.isExpiredAt (env.now 0) = true)
      (ha : ¬ j.attempt < j.maxAttempts) :
      Verdict s j (.recoverExpired env rows) (j.ended expiredCode expiredDetail .failed) (expiredRun (env.now k))

/-- A job that is over and its run say the same. -/
def Job.Agrees (j : Job) : AnalysisRun ⊕ PatchRun → Prop
  | .inl r => r.errorCode = j.lastErrorCode ∧ r.errorDetail = j.lastErrorDetail ∧
      (j.status = .succeeded ∧ r.status = .succeeded ∨ j.status = .failed ∧ r.status = .failed)
  | .inr p => p.errorCode = j.lastErrorCode ∧ p.errorDetail = j.lastErrorDetail ∧
      (j.status = .succeeded ∧ p.status = .patchReady ∨ j.status = .failed ∧ p.status = .patchFailed)

theorem Verdict.same {s : Sys} {tx : Tx} {j j' : Job} {f : AnalysisRun ⊕ PatchRun → AnalysisRun ⊕ PatchRun}
    (h : Verdict s j tx j' f) : j'.type = j.type ∧ j'.incidentId = j.incidentId := by cases h <;> exact ⟨rfl, rfl⟩

/-- A verdict is the same for the job and its run. -/
theorem Verdict.agrees {s : Sys} {tx : Tx} {j j' : Job} {f : AnalysisRun ⊕ PatchRun → AnalysisRun ⊕ PatchRun}
    (h : Verdict s j tx j' f) (run : AnalysisRun ⊕ PatchRun) : j'.Agrees (f run) := by
  cases h with
  | @finalized env claim outcome =>
    have hstatus : outcome.jobStatus = if outcome.failed then .failed else .succeeded := rfl
    cases hf : outcome.failed with
    | true =>
      rw [hf] at hstatus
      rcases run with r | p
      · exact ⟨rfl, rfl, Or.inr ⟨hstatus, by simp [AnalysisRun.finished, hf]⟩⟩
      · exact ⟨rfl, rfl, Or.inr ⟨hstatus, by simp [PatchRun.finished, hf]⟩⟩
    | false =>
      rw [hf] at hstatus
      rcases run with r | p
      · exact ⟨rfl, rfl, Or.inl ⟨hstatus, by simp [AnalysisRun.finished, hf]⟩⟩
      · exact ⟨rfl, rfl, Or.inl ⟨hstatus, by simp [PatchRun.finished, hf]⟩⟩
  | expired => rcases run with r | p <;> exact ⟨rfl, rfl, Or.inr ⟨rfl, rfl⟩⟩

/-! ## The step that ends a job -/

/-- An incident has at most one patch run. -/
theorem Dossier.Ok.patch_unique {d : Dossier} (h : d.Ok) {p p' : PatchRun} (hp : p ∈ d.patchRuns)
    (hp' : p' ∈ d.patchRuns) : p = p' := by
  cases h with
  | absent | received | analyzing | analyzed => exact (List.not_mem_nil hp).elim
  | patching | patched => rw [List.mem_singleton.mp hp, List.mem_singleton.mp hp']

/-- The run of a job is not over. -/
def runIsOpen : AnalysisRun ⊕ PatchRun → Prop
  | .inl r => r.status = .running
  | .inr p => p.status = .pending ∨ p.status = .running ∨ p.status = .validating

section Runs

variable {db : Store} {j : Job}

/-- A running job has a run that is not over. -/
theorem Store.runOf_running (hd : (db.dossier j.incidentId).Ok) (hj : j ∈ db.jobs.rows) (hs : j.status = .running) :
    ∃ run, db.runOf j = some run ∧ runIsOpen run := by
  have hm := mem_dossier_jobs.mpr ⟨hj, rfl⟩
  unfold runOf
  cases ht : j.type with
  | analyze =>
    rcases hd.analyze_active hm ht (Or.inr hs) with ⟨inc, -, -, -, -, hp, -⟩ | ⟨inc, r, he, -, -, -, -, -, hrs⟩
    · cases hp.symm.trans hs
    · refine ⟨.inl r, ?_, hrs⟩
      rw [analysisRunOf_eq, he]
      rfl
  | patch =>
    obtain ⟨inc, ja, r, a, p, he, hst, -⟩ := hd.patch_active hm ht (Or.inr hs)
    refine ⟨.inr p, ?_, ?_⟩
    · rw [patchRunOf_eq, he]
      rfl
    · rcases hst with ⟨-, hp | hp, -⟩ | ⟨-, hp, -⟩
      · exact Or.inl hp
      · exact Or.inr (Or.inl hp)
      · exact Or.inr (Or.inr hp)

/-- A job that is over has a run that is over. -/
theorem Store.runOf_over (hd : (db.dossier j.incidentId).Ok) (hj : j ∈ db.jobs.rows) (ho : j.isOver = true) :
    ∃ run, db.runOf j = some run ∧ ¬ runIsOpen run := by
  have hm := mem_dossier_jobs.mpr ⟨hj, rfl⟩
  have hactive : ¬ (j.status = .pending ∨ j.status = .running) := fun hs => by
    rw [j.not_isOver hs] at ho
    cases ho
  unfold runOf
  rw [patchRunOf_eq, analysisRunOf_eq]
  generalize db.dossier j.incidentId = d at hd hm
  cases hd with
  | absent => exact (List.not_mem_nil hm).elim
  | received _ _ ha hst =>
    obtain rfl := List.mem_singleton.mp hm
    exact (hactive (Or.inl hst)).elim
  | analyzing _ _ ha hst =>
    obtain rfl := List.mem_singleton.mp hm
    exact (hactive hst).elim
  | analyzed failed _ _ ha _ _ hrs =>
    obtain rfl := List.mem_singleton.mp hm
    rw [ha.type]
    refine ⟨_, rfl, ?_⟩
    show _ ≠ RunStatus.running
    rw [hrs]
    cases failed <;> decide
  | patching _ ha _ _ hrs _ _ hp hjs =>
    rcases List.mem_pair.mp hm with rfl | rfl
    · rw [ha.type]
      refine ⟨_, rfl, ?_⟩
      show _ ≠ RunStatus.running
      rw [hrs]
      decide
    · exact (hactive hjs).elim
  | patched failed _ hps _ ha _ _ hrs _ _ hp =>
    rcases List.mem_pair.mp hm with rfl | rfl
    · rw [ha.type]
      refine ⟨_, rfl, ?_⟩
      show _ ≠ RunStatus.running
      rw [hrs]
      decide
    · rw [hp.type]
      refine ⟨_, rfl, ?_⟩
      show ¬ (_ = PatchStatus.pending ∨ _ = PatchStatus.running ∨ _ = PatchStatus.validating)
      rw [hps]
      cases failed <;> decide

end Runs

namespace Sys

variable {s s' : Sys} {tx : Tx}

/-- The analysis run of a job that has just ended. -/
theorem analysisRun_over (hs : s.Inv) (h : machine.step s tx s') {i : Uuid} {r₀ r : AnalysisRun}
    (hr₀ : s.db.analysisRunOf i = some r₀) (hopen : r₀.status = .running) (hr : s'.db.analysisRunOf i = some r)
    (hover : r.status ≠ .running) : r.Written s.db tx ∧ ∀ run ∈ s.db.analysisRuns.rows, run.incidentId = i → run = r₀ := by
  obtain ⟨hm₀, hi₀⟩ := analysisRunOf_some hr₀
  obtain ⟨hm, hi⟩ := analysisRunOf_some hr
  have unique : ∀ run ∈ s.db.analysisRuns.rows, run.incidentId = i → run = r₀ := fun run hrun hri =>
    (hs.ok i).run_unique (Store.mem_dossier_analysisRuns.mpr ⟨hrun, hri⟩) (Store.mem_dossier_analysisRuns.mpr ⟨hm₀, hi₀⟩)
  rcases analysisRun_step h hm with hm | hw
  · obtain rfl := unique r hm hi
    exact absurd hopen hover
  · exact ⟨hw, unique⟩

/-- The patch run of a job that has just ended. -/
theorem patchRun_over (hs : s.Inv) (h : machine.step s tx s') {i : Uuid} {p₀ p : PatchRun} (hp₀ : s.db.patchRunOf i = some p₀)
    (hopen : runIsOpen (.inr p₀)) (hp : s'.db.patchRunOf i = some p) (hover : ¬ runIsOpen (.inr p)) :
    p.Written s.db tx ∧ ∀ patch ∈ s.db.patchRuns.rows, patch.incidentId = i → patch = p₀ := by
  obtain ⟨hm₀, hi₀⟩ := patchRunOf_some hp₀
  obtain ⟨hm, hi⟩ := patchRunOf_some hp
  have unique : ∀ patch ∈ s.db.patchRuns.rows, patch.incidentId = i → patch = p₀ := fun patch hpatch hpi =>
    (hs.ok i).patch_unique (Store.mem_dossier_patchRuns.mpr ⟨hpatch, hpi⟩) (Store.mem_dossier_patchRuns.mpr ⟨hm₀, hi₀⟩)
  rcases patchRun_step h hm with hm | hw
  · obtain rfl := unique p hm hi
    exact absurd hopen hover
  · exact ⟨hw, unique⟩

/-- What ends a job. -/
theorem ended_step (h : machine.step s tx s') {x : Uuid} {j : Job} (hj : s'.db.jobs.get x = some j) (ho : j.isOver = true)
    (hn : ∀ j₀, s.db.jobs.get x = some j₀ → j₀.isOver = false) :
    ∃ j₀, s.db.jobs.get x = some j₀ ∧ j₀.status = .running ∧
      ((∃ env claim outcome version, tx = .finalize env claim outcome version ∧
          Verdict s j₀ tx j (finishedRun outcome (env.now 1))) ∨
        ∃ env rows, tx = .recoverExpired env rows ∧ ∀ k, Verdict s j₀ tx j (expiredRun (env.now k))) := by
  have hstep := job_step h x
  rw [hj] at hstep
  generalize hx : s.db.jobs.get x = o at hstep
  cases hstep with
  | same => cases ho.symm.trans (hn j hx)
  | created _ hs => cases ho.symm.trans (j.not_isOver (Or.inl hs))
  | claimed j₀ => cases ho
  | renewed j₀ =>
    have hsame : j₀.isOver = true := ho
    cases hsame.symm.trans (hn j₀ hx)
  | @expired env rows j₀ _ htx he hf =>
    subst htx
    rcases recover_step h x with heq | ⟨j₁, j', i, hg, hg', -, hl⟩
    · cases ho.symm.trans (hn j (heq ▸ hj))
    · obtain rfl := Option.some.inj (hx.symm.trans hg)
      obtain rfl := Option.some.inj (hj.symm.trans hg')
      have hs := he
      simp only [Job.isExpiredAt, Bool.and_eq_true, decide_eq_true_eq] at hs
      cases hl with
      | requeued => cases ho
      | failed ha => exact ⟨j₀, rfl, hs.1, Or.inr ⟨env, rows, rfl, fun k => .expired k he ha⟩⟩
  | @finished env claim outcome version j₀ _ htx hh hl hf =>
    subst htx
    obtain ⟨hissued, rfl⟩ := h
    revert hj
    refine settle_ok (P := fun db => db.jobs.get x = some j → _) (fun hj => ?_) fun r db' hr hj => ?_
    · cases ho.symm.trans (hn j hj)
    · have hne : j ≠ j₀ := fun he => by
        rw [he, hn j₀ hx] at ho
        cases ho
      obtain ⟨-, -, ⟨-, rfl⟩ | ⟨hretry, rfl⟩⟩ := finalize_changes hr hx hj hne
      · cases ho
      · exact ⟨j₀, rfl, (heldBy_iff.mp hh).2.2, Or.inl ⟨env, claim, outcome, version, rfl, .finalized hissued hh hl hretry⟩⟩

/-- **A job is ended by a verdict**: the step after which it is over. -/
theorem verdict_step (hs : s.Inv) (hs' : s'.Inv) (h : machine.step s tx s') {x : Uuid} {j : Job}
    (hj : s'.db.jobs.get x = some j) (ho : j.isOver = true) (hn : ∀ j₀, s.db.jobs.get x = some j₀ → j₀.isOver = false) :
    ∃ j₀ run₀ f, s.db.jobs.get x = some j₀ ∧ s.db.runOf j₀ = some run₀ ∧ s'.db.runOf j = some (f run₀) ∧
      Verdict s j₀ tx j f := by
  obtain ⟨j₀, hj₀, hrunning, hends⟩ := ended_step h hj ho hn
  obtain ⟨run₀, hrun₀, hopen⟩ := Store.runOf_running (hs.ok _) (Table.get_eq_some.mp hj₀).1 hrunning
  obtain ⟨run, hrun, hover⟩ := Store.runOf_over (hs'.ok _) (Table.get_eq_some.mp hj).1 ho
  have hsame : j.type = j₀.type ∧ j.incidentId = j₀.incidentId := by
    rcases hends with ⟨env, claim, outcome, version, -, hv⟩ | ⟨env, rows, -, hv⟩
    · exact hv.same
    · exact (hv 0).same
  suffices hw : ∃ f, run = f run₀ ∧ Verdict s j₀ tx j f by
    obtain ⟨f, rfl, hv⟩ := hw
    exact ⟨j₀, run₀, f, hj₀, hrun₀, hrun, hv⟩
  unfold Store.runOf at hrun₀ hrun
  rw [hsame.1, hsame.2] at hrun
  cases ht : j₀.type with
  | analyze =>
    rw [ht] at hrun₀ hrun
    obtain ⟨r₀, hr₀, rfl⟩ := Option.map_eq_some_iff.mp hrun₀
    obtain ⟨r, hr, rfl⟩ := Option.map_eq_some_iff.mp hrun
    obtain ⟨hw, unique⟩ := analysisRun_over hs h hr₀ hopen hr hover
    have hi := (analysisRunOf_some hr).2
    rcases hends with ⟨env, claim, outcome, version, rfl, hv⟩ | ⟨env, rows, rfl, hv⟩
    · cases hw with
      | finished hm =>
        obtain rfl := unique _ hm hi
        exact ⟨_, rfl, hv⟩
    · cases hw with
      | expired k hm =>
        obtain rfl := unique _ hm hi
        exact ⟨_, rfl, hv k⟩
  | patch =>
    rw [ht] at hrun₀ hrun
    obtain ⟨p₀, hp₀, rfl⟩ := Option.map_eq_some_iff.mp hrun₀
    obtain ⟨p, hp, rfl⟩ := Option.map_eq_some_iff.mp hrun
    obtain ⟨hw, unique⟩ := patchRun_over hs h hp₀ hopen hp hover
    have hi := (patchRunOf_some hp).2
    rcases hends with ⟨env, claim, outcome, version, rfl, hv⟩ | ⟨env, rows, rfl, hv⟩
    · cases hw with
      | finished hm =>
        obtain rfl := unique _ hm hi
        exact ⟨_, rfl, hv⟩
    · cases hw with
      | expired k hm =>
        obtain rfl := unique _ hm hi
        exact ⟨_, rfl, hv k⟩

/-- **A job that is over has one verdict**: before that step it was not over, its run got the same verdict, and neither has
changed since. -/
theorem verdicts {s₀ : Sys} {tr : List (Entry Sys Tx)} (h₀ : machine.init s₀) (hr : machine.Run s₀ tr s) {j : Job}
    (hj : j ∈ s.db.jobs.rows) (ho : j.isOver = true) :
    ∃ run, s.db.runOf j = some run ∧ j.Agrees run ∧ ∃ tr₁ e tr₂ j₀ run₀ f, tr = tr₁ ++ e :: tr₂ ∧
      e.pre.db.jobs.get j.id = some j₀ ∧ e.pre.db.runOf j₀ = some run₀ ∧ Verdict e.pre j₀ e.label j f ∧ run = f run₀ ∧
      (∀ e' ∈ tr₁, ∀ j', e'.post.db.jobs.get j.id = some j' → j'.isOver = false) ∧
      ∀ e' ∈ tr₂, e'.post.db.jobs.get j.id = some j ∧ e'.post.db.runOf j = some run := by
  have hstart : machine.Reachable s₀ := .of_init h₀
  obtain ⟨run, hrun, -⟩ := Store.runOf_over ((inv_of_reachable (hstart.run hr)).ok _) hj ho
  have hnew : ¬ (s₀.db.jobs.get j.id = some j ∧ s₀.db.runOf j = some run) := fun hg => by
    obtain ⟨services, -, rfl⟩ := h₀
    cases hg.1
  obtain ⟨tr₁, e, tr₂, rfl, hpre, ⟨hpost, hpostrun⟩, hlater⟩ := hr.becomes
    (P := fun s => s.db.jobs.get j.id = some j ∧ s.db.runOf j = some run) hnew ⟨Table.get_self hj, hrun⟩
  obtain ⟨hr₁, hstep, -⟩ := hr.at
  have hreach := hstart.run hr₁
  have hinv := inv_of_reachable hreach
  -- a job that was over is the same before the step
  have hopen : ∀ j₀, e.pre.db.jobs.get j.id = some j₀ → j₀.isOver = false := fun j₀ hg => by
    by_contra hover
    rw [Bool.not_eq_false] at hover
    have hkept := job_step hstep j.id
    rw [hg] at hkept
    obtain rfl := Option.some.inj (hpost.symm.trans (hkept.of_isOver hover))
    exact hpre ⟨hg, (runOf_of_isOver hinv hstep (Table.get_eq_some.mp hg).1 hover).symm.trans hpostrun⟩
  obtain ⟨j₀, run₀, f, hj₀, hrun₀, hf, hv⟩ :=
    verdict_step hinv (inv_of_reachable (hreach.step hstep)) hstep hpost ho hopen
  obtain rfl := Option.some.inj (hpostrun.symm.trans hf)
  refine ⟨_, hrun, hv.agrees run₀, tr₁, e, tr₂, j₀, run₀, f, rfl, hj₀, hrun₀, hv, rfl, fun e' he' j' hg => ?_, hlater⟩
  by_contra hover
  rw [Bool.not_eq_false] at hover
  obtain ⟨a, b, rfl⟩ := List.append_of_mem he'
  obtain ⟨ha, hs, hb⟩ := hr₁.at
  have hstays : e.pre.db.jobs.get j.id = some j' :=
    Machine.Run.stable (P := fun s => s.db.jobs.get j.id = some j')
      (fun s l s' _ hg hs => (hg ▸ job_step hs j.id).of_isOver hover) ((hstart.run ha).step hs) hg hb
  cases hover.symm.trans (hopen j' hstays)

end Sys

/-! A finished patch. -/

namespace Judged

open Sample

/-- The PATCH job of the sample run has its verdict. -/
theorem verdicts_sample : ∃ j ∈ (after 8).db.jobs.rows, j.type = .patch ∧ j.status = .succeeded ∧
    ∃ run, (after 8).db.runOf j = some run ∧ j.Agrees run := by
  obtain ⟨tr, hr⟩ := Sys.run_execAll (permits 8).1
  obtain ⟨j, hj, ht, hs⟩ : ∃ j ∈ (after 8).db.jobs.rows, j.type = .patch ∧ j.status = .succeeded := by decide
  have ho : j.isOver = true := by
    unfold Job.isOver
    rw [hs]
  obtain ⟨run, hrun, hagrees, -⟩ := Sys.verdicts ⟨_, by decide, rfl⟩ hr hj ho
  exact ⟨j, hj, ht, hs, run, hrun, hagrees⟩

end Judged

end Aeh
