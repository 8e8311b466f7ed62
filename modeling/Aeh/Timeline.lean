import Aeh.Lease
import Aeh.Review

/-!
# Timeline — when runs start and finish

`claim_job`, `finalize` and `recover_expired` write `started_at` and `finished_at` with the clock of the worker they
run on.  With one clock the times of an incident follow its course: the analysis is over before the patch starts, and
a run starts before it finishes, over retries and lost leases (`Timed.timeline_ordered`).  So does the timeline of
`detail_page`, whose queries other sessions come between.

`created_at`, which the page shows too, is a time of the database; SQLite cuts it to the second.
-/

namespace Aeh

/-! ## What starts and what ends -/

namespace Dossier

/-- A patch run has been started when its job has been claimed, and is over when it has a time of its end. -/
structure Begun (d : Dossier) : Prop where
  claimed : ∀ j ∈ d.jobs, j.type = .patch → 1 ≤ j.attempt → ∀ p ∈ d.patchRuns, p.startedAt.isSome = true
  started : ∀ p ∈ d.patchRuns, p.finishedAt.isSome = true → p.startedAt.isSome = true
  ended : ∀ p ∈ d.patchRuns, p.finishedAt.isSome = true → p.status = .patchReady ∨ p.status = .patchFailed

variable {R : IncidentState → Prop} {d d' : Dossier}

/-- A job is replaced by one that has been claimed as a PATCH job only if such a job has been before. -/
theorem Begun.replace (h : d.Begun) {inc : Option Incident} {runs : List AnalysisRun} {j' : Job}
    (hj : j'.type = .patch → 1 ≤ j'.attempt → ∃ j ∈ d.jobs, j.type = .patch ∧ 1 ≤ j.attempt) :
    Begun { d with incident := inc, analysisRuns := runs, jobs := Table.replace j' d.jobs } where
  claimed j hm ht ha p hp := by
    rcases Table.mem_replace.mp hm with ⟨rfl, -⟩ | ⟨hm, -⟩
    · obtain ⟨j₀, hj₀, ht₀, ha₀⟩ := hj ht ha
      exact h.claimed j₀ hj₀ ht₀ ha₀ p hp
    · exact h.claimed j hm ht ha p hp
  started := h.started
  ended := h.ended

/-- The only patch run is replaced by one that has been started. -/
theorem Begun.of_started {inc : Option Incident} {jobs : List Job} {runs : List AnalysisRun} {approvals : List Approval}
    {p : PatchRun} (hs : p.startedAt.isSome = true)
    (ho : p.finishedAt.isSome = true → p.status = .patchReady ∨ p.status = .patchFailed) :
    Begun ⟨inc, jobs, runs, approvals, [p]⟩ where
  claimed _ _ _ _ p' hp := by
    obtain rfl := List.mem_singleton.mp hp
    exact hs
  started p' hp _ := by
    obtain rfl := List.mem_singleton.mp hp
    exact hs
  ended p' hp := by
    obtain rfl := List.mem_singleton.mp hp
    exact ho

/-- **One move.** -/
theorem Begun.move (hb : d.Begun) (hd : d.Ok) (h : d.Move R d') : d'.Begun := by
  cases h with
  | opened env intake fingerprint sha row hn =>
    refine ⟨fun j hj ht ha p hp => ?_, hb.started, hb.ended⟩
    rcases List.mem_append.mp hj with hj | hj
    · exact hb.claimed j hj ht ha p hp
    · obtain rfl := List.mem_singleton.mp hj
      cases ht
  | counted hi ho => exact ⟨hb.claimed, hb.started, hb.ended⟩
  | claimedAnalyze token worker t hi hj ht =>
    exact hb.replace fun h _ => by cases ht.symm.trans h
  | @claimedPatch inc inc' j p token worker t t' hi hj ht hs hp hinc =>
    obtain ⟨inc, ja, r, a, p, rfl, hst, -⟩ := hd.patch_active hj ht (Or.inl hs)
    obtain rfl := List.mem_singleton.mp hp
    dsimp only
    rw [Table.replace_one (p.samePatch_started t').id]
    refine .of_started ?_ fun hf => ?_
    · unfold PatchRun.started
      cases p.startedAt <;> rfl
    · -- it was not over, so it has no time of its end
      rcases hst with ⟨-, h | h, -⟩ | ⟨-, h, -⟩ <;>
        rcases hb.ended p (List.mem_singleton_self p) hf with h' | h' <;> cases h.symm.trans h'
  | @renewed j t hj hs => exact hb.replace fun ht ha => ⟨j, hj, ht, ha⟩
  | @requeued j code detail t hj hs ha => exact hb.replace fun ht ha => ⟨j, hj, ht, ha⟩
  | endedAnalyze code detail failed hi hj ht => exact hb.replace fun h _ => by cases ht.symm.trans h
  | @marked inc j p hi hj ht hs hst hp =>
    obtain ⟨inc, ja, r, a, p, rfl, hst', -, -, -, -, -, -, hserves, -⟩ := hd.patch_active hj ht (Or.inr hs)
    obtain rfl := List.mem_singleton.mp hp
    dsimp only
    rw [Table.replace_one p.samePatch_validating.id]
    refine .of_started (hb.claimed j hj ht (hserves.sound.running hs) p (List.mem_singleton_self p)) fun hf => ?_
    rcases hst' with ⟨-, h | h, -⟩ | ⟨-, h, -⟩ <;>
      rcases hb.ended p (List.mem_singleton_self p) hf with h' | h' <;> cases h.symm.trans h'
  | @approved inc r env key hi hst hr hrs ha hp hj =>
    refine ⟨fun j hm ht hatt p _ => ?_, fun p hm => ?_, fun p hm => ?_⟩
    · rcases List.mem_append.mp hm with hm | hm
      · exact absurd hp (hd.patchRuns_ne_nil hm ht)
      · obtain rfl := List.mem_singleton.mp hm
        exact (Nat.not_succ_le_zero 0 hatt).elim
    · obtain rfl := List.mem_singleton.mp hm
      exact fun h => by cases h
    · obtain rfl := List.mem_singleton.mp hm
      exact fun h => by cases h
  | @endedPatch inc j p p' code detail failed hi hj ht hs hp he hR =>
    obtain ⟨inc, ja, r, a, p, rfl, -, -, -, -, -, -, -, hserves, -⟩ := hd.patch_active hj ht (Or.inr hs)
    obtain rfl := List.mem_singleton.mp hp
    dsimp only
    rw [Table.replace_one he.same.id]
    refine .of_started ?_ fun _ => ?_
    · have hs' : p'.startedAt = p.startedAt := by
        unfold PatchRun.EndsAs at he
        rw [he]
      rw [hs']
      exact hb.claimed j hj ht (hserves.sound.running hs) p (List.mem_singleton_self p)
    · rw [he.status]
      cases failed
      · exact Or.inl rfl
      · exact Or.inr rfl

/-- A dossier with a patch run has a successful analysis, its only one. -/
theorem Ok.analysis_of_patchRun (hd : d.Ok) {p : PatchRun} (hp : p ∈ d.patchRuns) :
    ∃ r, d.analysisRuns = [r] ∧ r.status = .succeeded := by
  cases hd with
  | absent | received | analyzing | analyzed => cases hp
  | patching _ _ _ _ hrs | patched _ _ _ _ _ _ _ hrs => exact ⟨_, rfl, hrs⟩

/-- **A run that is over stays as it is.** -/
theorem Move.run_eq (h : d.Move R d') (hd : d.Ok) {r : AnalysisRun} (hr : r ∈ d.analysisRuns) (hs : r.status ≠ .running) :
    d'.analysisRuns = d.analysisRuns := by
  cases h with
  | claimedAnalyze token worker t hi hj ht hst hinc hruns =>
    rcases hruns with ⟨-, rfl⟩ | ⟨hn, -⟩
    · rfl
    · rw [hn] at hr
      exact (List.not_mem_nil hr).elim
  | endedAnalyze code detail failed hi hj ht hst hy he =>
    rcases hd.analyze_active hj ht (Or.inr hst) with ⟨inc, rfl, -, -, -, hp, -⟩ | ⟨inc, r₁, rfl, -, -, -, -, -, hrun⟩
    · cases hp.symm.trans hst
    · obtain rfl := List.mem_singleton.mp hr
      exact absurd hrun hs
  | _ => rfl

end Dossier

/-! ## On one clock -/

/-- The times of the runs, none of them after `clock`. -/
structure Store.Chronicle (db : Store) (clock : Time) : Prop where
  analysis : ∀ r ∈ db.analysisRuns.rows, ∃ a, r.startedAt = some a ∧ a ≤ clock ∧
    ∀ f, r.finishedAt = some f → a ≤ f ∧ f ≤ clock
  analyzed : ∀ r ∈ db.analysisRuns.rows, r.finishedAt.isSome = true ↔ r.status ≠ .running
  patch : ∀ p ∈ db.patchRuns.rows, (∀ b, p.startedAt = some b → b ≤ clock) ∧
    ∀ g, p.finishedAt = some g → g ≤ clock ∧ ∀ b, p.startedAt = some b → b ≤ g
  patched : ∀ p ∈ db.patchRuns.rows, p.status = .patchReady ∨ p.status = .patchFailed → p.finishedAt.isSome = true
  after : ∀ p ∈ db.patchRuns.rows, ∀ r ∈ db.analysisRuns.rows, r.incidentId = p.incidentId →
    ∀ f b, r.finishedAt = some f → p.startedAt = some b → f ≤ b

theorem Env.Between.le {env : Env} {c c' : Time} (h : env.Between c c') (k : ℕ) : c ≤ env.now k :=
  h.1.trans (h.2.1 (Nat.zero_le k))

namespace Sys

variable {s s' : Sys} {tx : Tx} {c c' : Time}

/-- Beside a patch run, the analysis runs of its incident are those before the step. -/
theorem analysisRun_old (hs : s.Inv) (h : machine.step s tx s') {p : PatchRun} (hp : p ∈ s.db.patchRuns.rows)
    {r : AnalysisRun} (hr : r ∈ s'.db.analysisRuns.rows) (hi : r.incidentId = p.incidentId) :
    r ∈ s.db.analysisRuns.rows := by
  have hmem : r ∈ (s'.db.dossier p.incidentId).analysisRuns := Store.mem_dossier_analysisRuns.mpr ⟨hr, hi⟩
  obtain ⟨r₀, hr₀, hst⟩ := (hs.ok _).analysis_of_patchRun (Store.mem_dossier_patchRuns.mpr ⟨hp, rfl⟩)
  have hsame : (s'.db.dossier p.incidentId).analysisRuns = (s.db.dossier p.incidentId).analysisRuns := by
    rcases step_moves hs h p.incidentId with he | hmove
    · rw [he]
    · have hm₀ : r₀ ∈ (s.db.dossier p.incidentId).analysisRuns := hr₀ ▸ List.mem_singleton_self r₀
      exact hmove.run_eq (hs.ok _) hm₀ fun hrun => by cases hst.symm.trans hrun
  rw [hsame] at hmem
  exact (Store.mem_dossier_analysisRuns.mp hmem).1

theorem chronicle_analysis (h : machine.step s tx s') (hc : s.db.Chronicle c) (hle : c ≤ c')
    (hb : ∀ env ∈ tx.env, env.Between c c') {r : AnalysisRun} (hr : r ∈ s'.db.analysisRuns.rows) :
    (∃ a, r.startedAt = some a ∧ a ≤ c' ∧ ∀ f, r.finishedAt = some f → a ≤ f ∧ f ≤ c') ∧
      (r.finishedAt.isSome = true ↔ r.status ≠ .running) := by
  have ends : ∀ run ∈ s.db.analysisRuns.rows, ∀ t, c ≤ t → t ≤ c' →
      ∃ a, run.startedAt = some a ∧ a ≤ c' ∧ ∀ f, some t = some f → a ≤ f ∧ f ≤ c' := by
    intro run hm t ht ht'
    obtain ⟨a, ha, hac, -⟩ := hc.analysis run hm
    refine ⟨a, ha, hac.trans hle, fun f hf => ?_⟩
    obtain rfl := Option.some.inj hf
    exact ⟨hac.trans ht, ht'⟩
  rcases analysisRun_step h hr with hr | hw
  · obtain ⟨a, ha, hac, hf⟩ := hc.analysis r hr
    exact ⟨⟨a, ha, hac.trans hle, fun f h => ⟨(hf f h).1, (hf f h).2.trans hle⟩⟩, hc.analyzed r hr⟩
  · cases hw with
    | @first _ env =>
      exact ⟨⟨env.now 2, rfl, (hb env rfl).2.2 2, fun f hf => by cases hf⟩, by simp [firstRun]⟩
    | @expired env _ run k hm =>
      exact ⟨ends run hm _ ((hb env rfl).le k) ((hb env rfl).2.2 k), by simp [AnalysisRun.expired]⟩
    | @finished env _ outcome _ run hm =>
      refine ⟨ends run hm _ ((hb env rfl).le 1) ((hb env rfl).2.2 1), ?_⟩
      cases hf : outcome.failed <;> simp [AnalysisRun.finished, hf]

theorem chronicle_patch (h : machine.step s tx s') (hbegun : ∀ i, (s.db.dossier i).Begun) (hc : s.db.Chronicle c)
    (hle : c ≤ c') (hb : ∀ env ∈ tx.env, env.Between c c') {p : PatchRun} (hp : p ∈ s'.db.patchRuns.rows) :
    ((∀ b, p.startedAt = some b → b ≤ c') ∧
      ∀ g, p.finishedAt = some g → g ≤ c' ∧ ∀ b, p.startedAt = some b → b ≤ g) ∧
      (p.status = .patchReady ∨ p.status = .patchFailed → p.finishedAt.isSome = true) := by
  have old : ∀ patch ∈ s.db.patchRuns.rows, (∀ b, patch.startedAt = some b → b ≤ c') ∧
      ∀ g, patch.finishedAt = some g → g ≤ c' ∧ ∀ b, patch.startedAt = some b → b ≤ g := by
    intro patch hm
    obtain ⟨hs, hf⟩ := hc.patch patch hm
    exact ⟨fun b hb => (hs b hb).trans hle, fun g hg => ⟨(hf g hg).1.trans hle, (hf g hg).2⟩⟩
  have ends : ∀ patch ∈ s.db.patchRuns.rows, ∀ t, c ≤ t → t ≤ c' →
      (∀ b, patch.startedAt = some b → b ≤ c') ∧
        ∀ g, some t = some g → g ≤ c' ∧ ∀ b, patch.startedAt = some b → b ≤ g := by
    intro patch hm t ht ht'
    refine ⟨(old patch hm).1, fun g hg => ?_⟩
    obtain rfl := Option.some.inj hg
    exact ⟨ht', fun b hb => ((hc.patch patch hm).1 b hb).trans ht⟩
  rcases patchRun_step h hp with hp | hw
  · exact ⟨old p hp, hc.patched p hp⟩
  · cases hw with
    | created => exact ⟨⟨fun b h => (by cases h), fun g h => (by cases h)⟩, by simp [newPatchRun]⟩
    | @started _ env _ patch hm =>
      refine ⟨⟨fun b hstart => ?_, fun g hg => ?_⟩, by simp [PatchRun.started]⟩
      · cases ho : patch.startedAt with
        | none =>
          obtain rfl : env.now 2 = b := by simpa [PatchRun.started, ho] using hstart
          exact (hb env rfl).2.2 2
        | some b₀ =>
          obtain rfl : b₀ = b := by simpa [PatchRun.started, ho] using hstart
          exact (old patch hm).1 b₀ ho
      · have hg : patch.finishedAt = some g := hg
        have hsome := (hbegun patch.incidentId).started patch (Store.mem_dossier_patchRuns.mpr ⟨hm, rfl⟩) (by simp [hg])
        obtain ⟨b₀, ho⟩ := Option.isSome_iff_exists.mp hsome
        have hstart : (patch.started (env.now 2)).startedAt = patch.startedAt := by simp [PatchRun.started, ho]
        rw [hstart]
        exact (old patch hm).2 g hg
    | @validating _ patch hm => exact ⟨old patch hm, by simp [PatchRun.validating]⟩
    | @expired env _ patch k hm =>
      exact ⟨ends patch hm _ ((hb env rfl).le k) ((hb env rfl).2.2 k), fun _ => rfl⟩
    | @finished env _ outcome _ patch hm =>
      exact ⟨ends patch hm _ ((hb env rfl).le 1) ((hb env rfl).2.2 1), fun _ => rfl⟩

theorem chronicle_after (hs : s.Inv) (h : machine.step s tx s') (hc : s.db.Chronicle c)
    (hb : ∀ env ∈ tx.env, env.Between c c') {p : PatchRun} (hp : p ∈ s'.db.patchRuns.rows) {r : AnalysisRun}
    (hr : r ∈ s'.db.analysisRuns.rows) (hi : r.incidentId = p.incidentId) {f b : Time} (hf : r.finishedAt = some f)
    (hstart : p.startedAt = some b) : f ≤ b := by
  rcases patchRun_step h hp with hp | hw
  · exact hc.after p hp r (analysisRun_old hs h hp hr hi) hi f b hf hstart
  · cases hw with
    | created => cases hstart
    | @started _ env _ patch hm =>
      have hold := analysisRun_old hs h hm hr hi
      cases ho : patch.startedAt with
      | none =>
        -- the patch starts now, and the analysis is over since before
        obtain rfl : env.now 2 = b := by simpa [PatchRun.started, ho] using hstart
        obtain ⟨a, -, -, hfinished⟩ := hc.analysis r hold
        exact (hfinished f hf).2.trans ((hb env rfl).le 2)
      | some b₀ =>
        obtain rfl : b₀ = b := by simpa [PatchRun.started, ho] using hstart
        exact hc.after patch hm r hold hi f b₀ hf ho
    | @validating _ patch hm => exact hc.after patch hm r (analysisRun_old hs h hm hr hi) hi f b hf hstart
    | @expired _ _ patch _ hm => exact hc.after patch hm r (analysisRun_old hs h hm hr hi) hi f b hf hstart
    | @finished _ _ _ _ patch hm => exact hc.after patch hm r (analysisRun_old hs h hm hr hi) hi f b hf hstart

/-- **One transaction** writes times in order. -/
theorem chronicle_step (hs : s.Inv) (h : machine.step s tx s') (hbegun : ∀ i, (s.db.dossier i).Begun)
    (hc : s.db.Chronicle c) (hle : c ≤ c') (hb : ∀ env ∈ tx.env, env.Between c c') : s'.db.Chronicle c' where
  analysis _ hr := (chronicle_analysis h hc hle hb hr).1
  analyzed _ hr := (chronicle_analysis h hc hle hb hr).2
  patch _ hp := (chronicle_patch h hbegun hc hle hb hp).1
  patched _ hp := (chronicle_patch h hbegun hc hle hb hp).2
  after _ hp _ hr hi _ _ hf hstart := chronicle_after hs h hc hb hp hr hi hf hstart

theorem begun_step (hs : s.Inv) (h : machine.step s tx s') (hbegun : ∀ i, (s.db.dossier i).Begun) (i : Uuid) :
    (s'.db.dossier i).Begun := by
  rcases step_moves hs h i with he | hmove
  · rw [he]
    exact hbegun i
  · exact (hbegun i).move (hs.ok i) hmove

end Sys

namespace Timed

variable {t t' : Timed}

theorem chronicle_of_reachable (h : machine.Reachable t) :
    (∀ i, (t.sys.db.dossier i).Begun) ∧ t.sys.db.Chronicle t.clock := by
  refine (Machine.Reachable.invariant (M := machine) (I := fun t => Sys.machine.Reachable t.sys ∧
    (∀ i, (t.sys.db.dossier i).Begun) ∧ t.sys.db.Chronicle t.clock) ?_ ?_ h).2
  · rintro ⟨_, clock⟩ h₀
    refine ⟨reachable_sys (.of_init h₀), ?_⟩
    obtain ⟨services, -, rfl⟩ := h₀
    have none {α : Type} {x : α} {P : Prop} (h : x ∈ ([] : List α)) : P := (List.not_mem_nil h).elim
    exact ⟨fun i => ⟨fun _ h => none h, fun _ h => none h, fun _ h => none h⟩,
      ⟨fun _ h => none h, fun _ h => none h, fun _ h => none h, fun _ h => none h, fun _ h => none h⟩⟩
  · rintro t tx t' ⟨hr, hbegun, hc⟩ ⟨hs, -, hle, hb⟩
    have hinv := Sys.inv_of_reachable hr
    exact ⟨hr.step hs, Sys.begun_step hinv hs hbegun, Sys.chronicle_step hinv hs hbegun hc hle hb⟩

/-- A run that is over stays as it is. -/
theorem over_run (h : machine.Reachable t) {r : AnalysisRun} (hr : r ∈ t.sys.db.analysisRuns.rows)
    (hs : r.status ≠ .running) {tr : List (Entry Timed Tx)} (hrun : machine.Run t tr t') :
    r ∈ t'.sys.db.analysisRuns.rows := by
  refine hrun.stable (P := fun t => r ∈ t.sys.db.analysisRuns.rows) (fun a l b ha hm hstep => ?_) h hr
  have hinv := Sys.inv_of_reachable (reachable_sys ha)
  have hmem : r ∈ (a.sys.db.dossier r.incidentId).analysisRuns := Store.mem_dossier_analysisRuns.mpr ⟨hm, rfl⟩
  rcases Sys.step_moves hinv hstep.1 r.incidentId with he | hmove
  · rw [← he] at hmem
    exact (Store.mem_dossier_analysisRuns.mp hmem).1
  · rw [← hmove.run_eq (hinv.ok _) hmem hs] at hmem
    exact (Store.mem_dossier_analysisRuns.mp hmem).1

/-- The analysis of a patch run has succeeded, before the patch run started. -/
theorem ended_before (h : machine.Reachable t) {p : PatchRun} (hp : p ∈ t.sys.db.patchRuns.rows) :
    ∃ r ∈ t.sys.db.analysisRuns.rows, r.incidentId = p.incidentId ∧ r.status = .succeeded ∧
      ∃ f, r.finishedAt = some f ∧ ∀ b, p.startedAt = some b → f ≤ b := by
  obtain ⟨-, hc⟩ := chronicle_of_reachable h
  have hok := (Sys.inv_of_reachable (reachable_sys h)).ok p.incidentId
  obtain ⟨r, hr, hs⟩ := hok.analysis_of_patchRun (Store.mem_dossier_patchRuns.mpr ⟨hp, rfl⟩)
  obtain ⟨hm, hi⟩ := Store.mem_dossier_analysisRuns.mp (hr ▸ List.mem_singleton_self r)
  have hsome := (hc.analyzed r hm).mpr fun hrunning => by cases hs.symm.trans hrunning
  obtain ⟨f, hf⟩ := Option.isSome_iff_exists.mp hsome
  exact ⟨r, hm, hi, hs, f, hf, fun b hb => hc.after p hp r hm hi f b hf hb⟩

/-- A run keeps its start. -/
theorem started_run (h : machine.Reachable t) {tr : List (Entry Timed Tx)} (hrun : machine.Run t tr t') :
    ∀ r ∈ t.sys.db.analysisRuns.rows, ∃ r' ∈ t'.sys.db.analysisRuns.rows, r'.incidentId = r.incidentId ∧
      r'.startedAt = r.startedAt := by
  refine hrun.rel (R := fun a b => ∀ r ∈ a.sys.db.analysisRuns.rows, ∃ r' ∈ b.sys.db.analysisRuns.rows,
    r'.incidentId = r.incidentId ∧ r'.startedAt = r.startedAt) (fun a r hr => ⟨r, hr, rfl, rfl⟩) ?_ ?_ h
  · intro a b c hab hbc r hr
    obtain ⟨r₁, hr₁, hi₁, hs₁⟩ := hab r hr
    obtain ⟨r₂, hr₂, hi₂, hs₂⟩ := hbc r₁ hr₁
    exact ⟨r₂, hr₂, hi₂.trans hi₁, hs₂.trans hs₁⟩
  · intro a tx b ha hstep r hr
    obtain ⟨r', hr', hl⟩ := Sys.later_step (Sys.inv_of_reachable (reachable_sys ha)) hstep.1 hr
    exact ⟨r', hr', hl.same.incident, hl.started⟩

end Timed

/-! ## What the page shows -/

/-- An entry of the timeline, if there is a time. -/
def timelineEntry (label : String) (time : Option Time) : List (String × Time) := (time.map fun t => (label, t)).toList

/-- The entries of the runs in the timeline of `detail_page`. -/
def runTimes (analysis : Option AnalysisRun) (patch : Option PatchRun) : List (String × Time) :=
  timelineEntry "분석 시작" (analysis.bind AnalysisRun.startedAt) ++
    timelineEntry "분석 종료" (analysis.bind AnalysisRun.finishedAt) ++
    timelineEntry "패치 시작" (patch.bind PatchRun.startedAt) ++ timelineEntry "패치 종료" (patch.bind PatchRun.finishedAt)

theorem mem_timelineEntry {label : String} {time : Option Time} {e : String × Time} :
    e ∈ timelineEntry label time ↔ time = some e.2 ∧ e.1 = label := by
  obtain ⟨l, t⟩ := e
  cases time with
  | none => simp [timelineEntry]
  | some t' => simp [timelineEntry, and_comm, eq_comm]

theorem pairwise_timelineEntry (label : String) (time : Option Time) :
    (timelineEntry label time).Pairwise fun a b => a.2 ≤ b.2 := by
  cases time with
  | none => exact .nil
  | some t => exact List.pairwise_singleton _ _

theorem mem_runTimes {analysis : Option AnalysisRun} {patch : Option PatchRun} {e : String × Time}
    (h : e ∈ runTimes analysis patch) :
    (analysis.bind AnalysisRun.startedAt = some e.2 ∨ analysis.bind AnalysisRun.finishedAt = some e.2) ∨
      patch.bind PatchRun.startedAt = some e.2 ∨ patch.bind PatchRun.finishedAt = some e.2 := by
  unfold runTimes at h
  simp only [List.mem_append, mem_timelineEntry] at h
  rcases h with ((h | h) | h) | h
  · exact Or.inl (Or.inl h.1)
  · exact Or.inl (Or.inr h.1)
  · exact Or.inr (Or.inl h.1)
  · exact Or.inr (Or.inr h.1)

/-- The order of the entries from the order of the times. -/
theorem pairwise_runTimes {analysis : Option AnalysisRun} {patch : Option PatchRun}
    (hanalysis : ∀ a f, analysis.bind AnalysisRun.startedAt = some a → analysis.bind AnalysisRun.finishedAt = some f → a ≤ f)
    (hpatch : ∀ b g, patch.bind PatchRun.startedAt = some b → patch.bind PatchRun.finishedAt = some g → b ≤ g)
    (hafter : ∀ a b, analysis.bind AnalysisRun.startedAt = some a ∨ analysis.bind AnalysisRun.finishedAt = some a →
      patch.bind PatchRun.startedAt = some b ∨ patch.bind PatchRun.finishedAt = some b → a ≤ b) :
    (runTimes analysis patch).Pairwise fun a b => a.2 ≤ b.2 := by
  unfold runTimes
  simp only [List.pairwise_append, List.mem_append, mem_timelineEntry, pairwise_timelineEntry, true_and]
  refine ⟨⟨?_, ?_⟩, ?_⟩
  · rintro x ⟨hx, -⟩ y ⟨hy, -⟩
    exact hanalysis x.2 y.2 hx hy
  · rintro x hx y ⟨hy, -⟩
    exact hafter x.2 y.2 (hx.imp And.left And.left) (Or.inl hy)
  · rintro x (hx | ⟨hx, -⟩) y ⟨hy, -⟩
    · exact hafter x.2 y.2 (hx.imp And.left And.left) (Or.inr hy)
    · exact hpatch x.2 y.2 hx hy

namespace Timed

variable {t : Timed} {ts : ℕ → Timed} {i : Uuid}

/-- The queries of a session that starts at `t` read the states `ts`, one after the other. -/
def Reads (t : Timed) (ts : ℕ → Timed) : Prop := ts 0 = t ∧ ∀ k, ∃ tr, machine.Run (ts k) tr (ts (k + 1))

theorem Reads.run (hr : t.Reads ts) {j k : ℕ} (h : j ≤ k) : ∃ tr, machine.Run (ts j) tr (ts k) := by
  induction h with
  | refl => exact ⟨[], .nil⟩
  | step _ ih =>
    obtain ⟨tr, hrun⟩ := ih
    obtain ⟨tr', hrun'⟩ := hr.2 _
    exact ⟨tr ++ tr', hrun.append hrun'⟩

theorem Reads.reachable (hr : t.Reads ts) (h : machine.Reachable t) (k : ℕ) : machine.Reachable (ts k) := by
  obtain ⟨tr, hrun⟩ := hr.run (Nat.zero_le k)
  rw [hr.1] at hrun
  exact h.run hrun

theorem clock_run (h : machine.Reachable t) {t' : Timed} {tr : List (Entry Timed Tx)} (hrun : machine.Run t tr t') :
    t.clock ≤ t'.clock := by
  refine hrun.rel (R := fun a b : Timed => a.clock ≤ b.clock) (fun _ => le_rfl) (fun _ _ _ => le_trans) ?_ h
  rintro a tx b - ⟨-, -, hle, -⟩
  exact hle

/-- A patch run starts after the analysis that a query before has read, and that analysis was over if its end is known. -/
theorem Reads.after (hr : t.Reads ts) (h : machine.Reachable t) {j k : ℕ} (hjk : j ≤ k) {r : AnalysisRun} {p : PatchRun}
    (hm : r ∈ (ts j).sys.db.analysisRuns.rows) (hp : p ∈ (ts k).sys.db.patchRuns.rows) (hi : r.incidentId = p.incidentId)
    {a b : Time} (ha : r.startedAt = some a ∨ r.finishedAt = some a) (hb : p.startedAt = some b) : a ≤ b := by
  obtain ⟨tr, hrun⟩ := hr.run hjk
  have hj := hr.reachable h j
  have hk := hr.reachable h k
  obtain ⟨-, hc⟩ := chronicle_of_reachable hk
  have hok := (Sys.inv_of_reachable (reachable_sys hk)).ok p.incidentId
  obtain ⟨r', hrow, hri, -, f, hf, hfb⟩ := ended_before hk hp
  have hm' : r' ∈ ((ts k).sys.db.dossier p.incidentId).analysisRuns := Store.mem_dossier_analysisRuns.mpr ⟨hrow, hri⟩
  obtain ⟨a', hstarted, -, hends⟩ := hc.analysis r' hrow
  replace hfb := hfb b hb
  have only : ∀ r₁ ∈ (ts k).sys.db.analysisRuns.rows, r₁.incidentId = p.incidentId → r₁ = r' := fun r₁ h₁ hi₁ =>
    hok.run_unique (Store.mem_dossier_analysisRuns.mpr ⟨h₁, hi₁⟩) hm'
  rcases ha with ha | ha
  · obtain ⟨r₁, h₁, hi₁, hs₁⟩ := started_run hj hrun r hm
    obtain rfl := only r₁ h₁ (hi₁.trans hi)
    obtain rfl := Option.some.inj (hstarted.symm.trans (hs₁.trans ha))
    exact (hends f hf).1.trans hfb
  · have hover := ((chronicle_of_reachable hj).2.analyzed r hm).mp (by simp [ha])
    obtain rfl := only r (over_run hj hm hover hrun) hi
    obtain rfl := Option.some.inj (ha.symm.trans hf)
    exact hfb

/-- **The timeline is in order**: what `detail_page` reads as the analysis and the patch of an incident, other sessions
between its queries, started and finished in the order of the page and before its last query; a run has a time of its
end just when it is over, and then one of its start; and where there is a patch run, a successful analysis ended before it
started. -/
theorem timeline_ordered (h : machine.Reachable t) (hr : t.Reads ts) (i : Uuid) :
    (runTimes (ReviewRepository.analysis (ts 2).sys.db i) (ReviewRepository.patch (ts 4).sys.db i)).Pairwise
      (fun a b => a.2 ≤ b.2) ∧
    (∀ e ∈ runTimes (ReviewRepository.analysis (ts 2).sys.db i) (ReviewRepository.patch (ts 4).sys.db i),
      e.2 ≤ (ts 4).clock) ∧
    (∀ r, ReviewRepository.analysis (ts 2).sys.db i = some r → r.startedAt.isSome = true ∧
      (r.finishedAt.isSome = true ↔ r.status ≠ .running)) ∧
    (∀ p, ReviewRepository.patch (ts 4).sys.db i = some p → (p.finishedAt.isSome = true → p.startedAt.isSome = true) ∧
      (p.finishedAt.isSome = true ↔ p.status = .patchReady ∨ p.status = .patchFailed)) ∧
    ∀ p, ReviewRepository.patch (ts 4).sys.db i = some p → ∃ r ∈ (ts 4).sys.db.analysisRuns.rows, r.incidentId = i ∧
      r.status = .succeeded ∧ ∃ f, r.finishedAt = some f ∧ ∀ b, p.startedAt = some b → f ≤ b := by
  have h₂ := (chronicle_of_reachable (hr.reachable h 2)).2
  obtain ⟨hbegun, h₄⟩ := chronicle_of_reachable (hr.reachable h 4)
  have hclock : (ts 2).clock ≤ (ts 4).clock := by
    obtain ⟨tr, hrun⟩ := hr.run (show 2 ≤ 4 by decide)
    exact clock_run (hr.reachable h 2) hrun
  have run : ∀ r, ReviewRepository.analysis (ts 2).sys.db i = some r →
      r ∈ (ts 2).sys.db.analysisRuns.rows ∧ r.incidentId = i := fun r => analysisRunOf_some
  have patch : ∀ p, ReviewRepository.patch (ts 4).sys.db i = some p →
      p ∈ (ts 4).sys.db.patchRuns.rows ∧ p.incidentId = i := fun p => patchRunOf_some
  have begun : ∀ p, ReviewRepository.patch (ts 4).sys.db i = some p → p.finishedAt.isSome = true →
      p.startedAt.isSome = true := fun p hp =>
    (hbegun p.incidentId).started p (Store.mem_dossier_patchRuns.mpr ⟨(patch p hp).1, rfl⟩)
  have after : ∀ r p a b, ReviewRepository.analysis (ts 2).sys.db i = some r →
      ReviewRepository.patch (ts 4).sys.db i = some p → r.startedAt = some a ∨ r.finishedAt = some a →
      p.startedAt = some b → a ≤ b := fun r p a b hr' hp ha hb =>
    hr.after h (by decide) (run r hr').1 (patch p hp).1 ((run r hr').2.trans (patch p hp).2.symm) ha hb
  refine ⟨?_, ?_, fun r hr' => ?_, fun p hp => ⟨begun p hp, fun hf => ?_, h₄.patched p (patch p hp).1⟩, fun p hp => ?_⟩
  · refine pairwise_runTimes (fun a f ha hf => ?_) (fun b g hb hg => ?_) fun a b ha hb => ?_
    · obtain ⟨r, hr', ha⟩ := Option.bind_eq_some_iff.mp ha
      obtain ⟨a', ha', -, hends⟩ := h₂.analysis r (run r hr').1
      obtain rfl := Option.some.inj (ha'.symm.trans ha)
      rw [hr', Option.bind_some] at hf
      exact (hends f hf).1
    · obtain ⟨p, hp, hb⟩ := Option.bind_eq_some_iff.mp hb
      rw [hp, Option.bind_some] at hg
      exact ((h₄.patch p (patch p hp).1).2 g hg).2 b hb
    · have hpatch : ∃ p, ReviewRepository.patch (ts 4).sys.db i = some p ∧ ∃ b₀, p.startedAt = some b₀ ∧ b₀ ≤ b := by
        rcases hb with hb | hb
        · obtain ⟨p, hp, hb⟩ := Option.bind_eq_some_iff.mp hb
          exact ⟨p, hp, b, hb, le_rfl⟩
        · obtain ⟨p, hp, hb⟩ := Option.bind_eq_some_iff.mp hb
          obtain ⟨b₀, hb₀⟩ := Option.isSome_iff_exists.mp (begun p hp (by simp [hb]))
          exact ⟨p, hp, b₀, hb₀, ((h₄.patch p (patch p hp).1).2 b hb).2 b₀ hb₀⟩
      obtain ⟨p, hp, b₀, hb₀, hle⟩ := hpatch
      have hanalysis : ∃ r, ReviewRepository.analysis (ts 2).sys.db i = some r ∧
          (r.startedAt = some a ∨ r.finishedAt = some a) := by
        rcases ha with ha | ha
        · obtain ⟨r, hr', ha⟩ := Option.bind_eq_some_iff.mp ha
          exact ⟨r, hr', Or.inl ha⟩
        · obtain ⟨r, hr', ha⟩ := Option.bind_eq_some_iff.mp ha
          exact ⟨r, hr', Or.inr ha⟩
      obtain ⟨r, hr', ha⟩ := hanalysis
      exact (after r p a b₀ hr' hp ha hb₀).trans hle
  · intro e he
    rcases mem_runTimes he with (ha | ha) | hb | hb
    · obtain ⟨r, hr', ha⟩ := Option.bind_eq_some_iff.mp ha
      obtain ⟨a', ha', hle, -⟩ := h₂.analysis r (run r hr').1
      obtain rfl := Option.some.inj (ha'.symm.trans ha)
      exact hle.trans hclock
    · obtain ⟨r, hr', ha⟩ := Option.bind_eq_some_iff.mp ha
      obtain ⟨a', -, -, hends⟩ := h₂.analysis r (run r hr').1
      exact (hends _ ha).2.trans hclock
    · obtain ⟨p, hp, hb⟩ := Option.bind_eq_some_iff.mp hb
      exact (h₄.patch p (patch p hp).1).1 _ hb
    · obtain ⟨p, hp, hb⟩ := Option.bind_eq_some_iff.mp hb
      exact ((h₄.patch p (patch p hp).1).2 _ hb).1
  · obtain ⟨a, ha, -⟩ := h₂.analysis r (run r hr').1
    exact ⟨by simp [ha], h₂.analyzed r (run r hr').1⟩
  · exact (hbegun p.incidentId).ended p (Store.mem_dossier_patchRuns.mpr ⟨(patch p hp).1, rfl⟩) hf
  · obtain ⟨hm, hpi⟩ := patch p hp
    obtain ⟨r, hm', hri, hs, f, hf, hfb⟩ := ended_before (hr.reachable h 4) hm
    exact ⟨r, hm', hri.trans hpi, hs, f, hf, hfb⟩

end Timed

/-! The sample run, read while its patch is validated. -/

namespace Lapse

open Sample

/-- The clock after the first `n` transactions. -/
def clock (n : ℕ) : Time := seconds ([0, 1, 2, 3, 3, 4, 5, 6, 7].getD n 7)

def timed (n : ℕ) : Timed := ⟨after n, clock n⟩

theorem between {n k : ℕ} (h : clock n ≤ seconds k) (h' : seconds k ≤ clock (n + 1)) :
    (env k).Between (clock n) (clock (n + 1)) := ⟨h, fun _ _ _ => le_rfl, fun _ => h'⟩

theorem timed_step : ∀ n < 8, ∃ tx, Timed.machine.step (timed n) tx (timed (n + 1))
  | 0, _ => ⟨.ingest (env 1) request intake sha, ⟨trivial, rfl⟩, trivial, by decide, by
      rintro _ ⟨⟩; exact between (by decide) (by decide)⟩
  | 1, _ => ⟨.claimJob settings (env 2) fun _ => false, ⟨trivial, rfl⟩, nofun, by decide, by
      rintro _ ⟨⟩; exact between (by decide) (by decide)⟩
  | 2, _ => ⟨.syncServices settings fs (env 3) [(lit "api", narrowed)], ⟨trivial, rfl⟩, trivial, by decide, by
      rintro _ ⟨⟩; exact between (by decide) (by decide)⟩
  | 3, _ => ⟨.finalize (env 3) analyzeClaim { result := some .null } none, ⟨by decide, rfl⟩, trivial, by decide, by
      rintro _ ⟨⟩; exact between (by decide) (by decide)⟩
  | 4, _ => ⟨.approve (env 4) 17 9, ⟨trivial, rfl⟩, trivial, by decide, by
      rintro _ ⟨⟩; exact between (by decide) (by decide)⟩
  | 5, _ => ⟨.claimJob settings (env 5) fun _ => false, ⟨trivial, rfl⟩,
      show ∀ c ∈ (after 5).issued, c.token ≠ (env 5).uuid 0 by decide, by decide, by
      rintro _ ⟨⟩; exact between (by decide) (by decide)⟩
  | 6, _ => ⟨.markValidating patchClaim, ⟨by decide, rfl⟩, trivial, by decide, nofun⟩
  | 7, _ => ⟨.finalize (env 7) patchClaim {} (some 5), ⟨by decide, rfl⟩, trivial, by decide, by
      rintro _ ⟨⟩; exact between (by decide) (by decide)⟩

theorem timed_reachable : ∀ n ≤ 8, Timed.machine.Reachable (timed n)
  | 0, _ => .of_init ⟨_, by decide, rfl⟩
  | n + 1, h => by
    obtain ⟨tx, hs⟩ := timed_step n (by omega)
    exact (timed_reachable n (by omega)).step hs

/-- The states the queries see: one transaction after each, up to the last one. -/
def seen (k : ℕ) : Timed := timed (min (5 + k) 8)

theorem reads : (timed 5).Reads seen := by
  refine ⟨rfl, fun k => ?_⟩
  by_cases hk : k < 3
  · obtain ⟨tx, hs⟩ := timed_step (5 + k) (by omega)
    have h : seen k = timed (5 + k) := by
      unfold seen
      congr 1
      omega
    have h' : seen (k + 1) = timed (5 + k + 1) := by
      unfold seen
      congr 1
      omega
    rw [h, h']
    exact ⟨_, .one hs⟩
  · have h : seen (k + 1) = seen k := by
      unfold seen
      congr 1
      omega
    rw [h]
    exact ⟨[], .nil⟩

/-- The timeline of its incident. -/
theorem timeline_ordered_sample : ((runTimes (ReviewRepository.analysis (seen 2).sys.db 17)
      (ReviewRepository.patch (seen 4).sys.db 17)).map Prod.snd = [seconds 2, seconds 3, seconds 5, seconds 7]) ∧
    (runTimes (ReviewRepository.analysis (seen 2).sys.db 17) (ReviewRepository.patch (seen 4).sys.db 17)).Pairwise
      fun a b => a.2 ≤ b.2 :=
  ⟨by decide, (Timed.timeline_ordered (timed_reachable 5 (by decide)) reads 17).1⟩

end Lapse

end Aeh
