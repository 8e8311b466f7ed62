import Aeh.Analyze

/-!
# Fleet — any number of `run_one` of both kinds over one database

Only `run_one` marks a run and finalizes a claim; all other transactions are free.  Seen by the PATCH claims alone a
fleet is a state of `Workers` (`Fleet.workers_of_reachable`), so what holds there holds here.  An analysis run succeeds
only by the `finalize` of an `Analyst` whose record shows the whole attempt, and a PATCH claim reads exactly the
analysis that was approved.
-/

namespace Aeh

/-- One `run_one`. -/
inductive Member where
  | analyze (a : Analyst)
  | patch (w : Working)

/-- `run_one` of a claim starts. -/
def Member.start (claim : Claim) : Member :=
  match claim.type with
  | .analyze => .analyze (.start claim)
  | .patch => .patch (.start claim)

theorem Member.start_analyze {claim : Claim} (h : claim.type = .analyze) : start claim = analyze (.start claim) := by
  rw [start, h]

theorem Member.start_patch {claim : Claim} (h : claim.type = .patch) : start claim = patch (.start claim) := by
  rw [start, h]

def Member.working : Member → Option Working
  | analyze _ => none
  | patch w => some w

/-- The workers, the database they share and all other parties. -/
structure Fleet where
  sys : Sys
  runs : ℕ → Option Member

/-- A patch run names the approval of its incident, which names the incident's analysis run. -/
theorem Dossier.Ok.approval_of_patchRun {d : Dossier} (h : d.Ok) {p : PatchRun} (hp : p ∈ d.patchRuns) :
    ∃ a ∈ d.approvals, p.approvalId = a.id ∧ ∃ r ∈ d.analysisRuns, a.analysisRunId = r.id := by
  cases h with
  | absent | received | analyzing | analyzed => exact (List.not_mem_nil hp).elim
  | patching _ _ _ _ _ hap hpr | patched _ _ _ _ _ _ _ _ hap hpr =>
    obtain rfl := List.mem_singleton.mp hp
    exact ⟨_, List.mem_singleton_self _, hpr.approval, _, List.mem_singleton_self _, hap.run⟩

namespace Fleet

inductive Label where
  | claim (k : ℕ) (settings : Settings) (env : Env) (skip : Uuid → Bool)
  | analyze (k : ℕ)
  | patch (k : ℕ) (a : Act)
  | other (tx : Tx)

/-- The transactions only `run_one` makes. -/
def isWork : Tx → Bool
  | .markValidating _ | .finalize .. => true
  | _ => false

/-- A PATCH claim reads the stored analysis with `AnalysisResult.model_validate`. -/
def Validates : Act → Prop
  | .read _ _ modelValidate => modelValidate = checkAnalysis
  | _ => True

/-- The system after a step that makes at most one transaction. -/
def after (sys : Sys) : Option Tx → Sys
  | none => sys
  | some tx => sys.exec tx

inductive Step : Fleet → Label → Fleet → Prop
  | claim {s : Fleet} {k : ℕ} {settings : Settings} {env : Env} {skip : Uuid → Bool} {claim : Claim} {db : Store} :
      s.runs k = none → claimJob settings env skip s.sys.db = .ok (some claim, db) →
        Step s (.claim k settings env skip)
          ⟨s.sys.exec (.claimJob settings env skip), Function.update s.runs k (some (.start claim))⟩
  | analyze {s : Fleet} {k : ℕ} {a a' : Analyst} {tx : Option Tx} :
      s.runs k = some (.analyze a) → a.Step s.sys.db tx a' →
        Step s (.analyze k) ⟨after s.sys tx, Function.update s.runs k (some (.analyze a'))⟩
  | patch {s : Fleet} {k : ℕ} {w : Working} {a : Act} {r : RunOne} {events : List Event} :
      s.runs k = some (.patch w) → RunOne.Step w.claim (w.view s.sys) a r → w.Shows s.sys.db a events → Validates a →
        Step s (.patch k a) ⟨r.sys, Function.update s.runs k (some (.patch (w.next r events)))⟩
  | other {s : Fleet} {tx : Tx} : s.sys.allows tx → isWork tx = false → Step s (.other tx) ⟨s.sys.exec tx, s.runs⟩

def machine : Machine Fleet Label where
  init s := Sys.machine.init s.sys ∧ ∀ k, s.runs k = none
  step := Step

variable {s s' : Fleet}

/-! ## The PATCH claims alone -/

/-- The fleet without its analysts. -/
def workers (s : Fleet) : Workers := ⟨s.sys, (fun m => m.bind Member.working) ∘ s.runs⟩

theorem workers_runs {k : ℕ} {w : Working} : s.workers.runs k = some w ↔ s.runs k = some (.patch w) := by
  show (s.runs k).bind Member.working = some w ↔ _
  rcases s.runs k with - | a | w' <;> simp [Member.working]

theorem workers_update (s : Fleet) (sys : Sys) (k : ℕ) (m : Member) :
    workers ⟨sys, Function.update s.runs k (some m)⟩ = ⟨sys, Function.update s.workers.runs k m.working⟩ := by
  unfold workers
  rw [Function.comp_update]
  rfl

/-- A slot without a PATCH claim gets none. -/
theorem workers_update_none {sys : Sys} {k : ℕ} {a : Analyst} (hk : s.workers.runs k = none) :
    workers ⟨sys, Function.update s.runs k (some (.analyze a))⟩ = ⟨sys, s.workers.runs⟩ := by
  rw [workers_update, show Member.working (.analyze a) = s.workers.runs k from hk.symm, Function.update_eq_self]

theorem workers_analyst {k : ℕ} {a : Analyst} (hk : s.runs k = some (.analyze a)) : s.workers.runs k = none := by
  show (s.runs k).bind Member.working = none
  rw [hk]
  rfl

/-- Each step is a step of the workers or leaves them as they are. -/
theorem workers_step {l : Label} (h : machine.step s l s') (hanalysts : ∀ k a, s.runs k = some (.analyze a) →
    a.claim ∈ s.sys.issued ∧ a.claim.type = .analyze) :
    s'.workers = s.workers ∨ ∃ l', Workers.machine.step s.workers l' s'.workers := by
  cases h with
  | @claim k settings env skip claim db hk hc =>
    have hnone : s.workers.runs k = none := by
      show (s.runs k).bind Member.working = none
      rw [hk]
      rfl
    cases ht : claim.type with
    | analyze =>
      rw [Member.start_analyze ht, workers_update_none hnone]
      exact Or.inr ⟨.other (.claimJob settings env skip), .other trivial rfl⟩
    | patch =>
      rw [Member.start_patch ht, workers_update]
      exact Or.inr ⟨.claim k settings env skip, .claim hnone hc ht⟩
  | @analyze k a a' tx hk hstep =>
    rw [workers_update_none (workers_analyst hk)]
    obtain ⟨hissued, htype⟩ := hanalysts k a hk
    cases hstep with
    | @finalize result env hp =>
      refine Or.inr ⟨.other (.finalize env a.claim (outcomeOf a.claim.type result) (some a.claim.version)), ?_⟩
      exact .other hissued (by simp [Workers.isPatchWork, htype])
    | _ => exact Or.inl rfl
  | @patch k w a r events hk hstep hshow =>
    rw [workers_update]
    exact Or.inr ⟨.act k a, .act (workers_runs.mpr hk) hstep hshow⟩
  | @other tx hallows hno =>
    refine Or.inr ⟨.other tx, .other hallows ?_⟩
    cases tx <;> first | rfl | cases hno

/-! ## The invariant -/

/-- The analysis run is what some finished analyst has found. -/
def Backed (s : Fleet) (r : AnalysisRun) : Prop :=
  ∃ k a attempt result, s.runs k = some (.analyze a) ∧ a.phase.isFinalized = true ∧ a.claim.incidentId = r.incidentId ∧
    Analyzed attempt result r.codexThreadId a.record ∧ r.result = some result.modelDump

/-- A PATCH claim has read the successful run of its incident, with its result. -/
def ReadApproved (sys : Sys) (w : Working) : Prop :=
  ∀ attempt, .read attempt ∈ w.record → ∃ run, attempt.Reads w.claim.incidentId run sys.db ∧ run.status = .succeeded ∧
    storedAnalysis checkAnalysis run = .ok attempt.analysis

structure Inv (s : Fleet) : Prop where
  workers : Workers.machine.Reachable s.workers
  analysts : ∀ k a, s.runs k = some (.analyze a) → a.Inv s.sys
  succeeded : ∀ r ∈ s.sys.db.analysisRuns.rows, r.status = .succeeded → s.Backed r
  readers : ∀ k w, s.runs k = some (.patch w) → ReadApproved s.sys w

theorem Inv.sys (hs : s.Inv) : Sys.machine.Reachable s.sys := (Workers.inv_of_reachable hs.workers).sys

/-- The run of a PATCH claim's incident has succeeded. -/
theorem succeeded_of_patch {sys : Sys} (hs : sys.Inv) {claim : Claim} (hc : claim ∈ sys.issued)
    (ht : claim.type = .patch) {run : AnalysisRun} (hr : run ∈ sys.db.analysisRuns.rows)
    (hi : run.incidentId = claim.incidentId) : run.status = .succeeded := by
  obtain ⟨j, hj, -, htj, hij, -⟩ := (hs.fits claim hc).job
  obtain ⟨ap, -, r, hm, -, -, hri, hst⟩ := hs.pinned.patchJob j hj (htj.trans ht)
  have hmem : run ∈ (sys.db.dossier claim.incidentId).analysisRuns := Store.mem_dossier_analysisRuns.mpr ⟨hr, hi⟩
  have hmem' : r ∈ (sys.db.dossier claim.incidentId).analysisRuns :=
    Store.mem_dossier_analysisRuns.mpr ⟨hm, hri.trans hij⟩
  rw [(hs.ok _).run_unique hmem hmem']
  exact hst

/-- What a PATCH claim has read stays so. -/
theorem ReadApproved.step {sys sys' : Sys} {w : Working} (h : ReadApproved sys w) (hs : sys.Inv) {tx : Tx}
    (hstep : Sys.machine.step sys tx sys') : ReadApproved sys' w := by
  intro attempt ha
  obtain ⟨run, hr, hst, hread⟩ := h attempt ha
  obtain ⟨run', hl, hr'⟩ := hr.step hs hstep
  obtain rfl := hl.succeeded hst
  exact ⟨run', hr', hst, hread⟩

/-- A PATCH claim reads the successful run of its incident. -/
theorem ReadApproved.next {sys : Sys} {w : Working} (h : ReadApproved sys w) (hs : sys.Inv) (hc : w.claim ∈ sys.issued)
    (ht : w.claim.type = .patch) {a : Act} {r : RunOne} {events : List Event} (hshow : w.Shows sys.db a events)
    (hval : Validates a) : ReadApproved sys (w.next r events) := by
  intro attempt ha
  rcases List.mem_append.mp ha with ha | ha
  · exact h attempt ha
  · cases hshow with
    | @read settings fs modelValidate attempt' hread =>
      obtain rfl : attempt = attempt' := by simpa using ha
      obtain rfl : modelValidate = checkAnalysis := hval
      obtain ⟨run, hr, hstored⟩ := Attempt.reads_of_readAttempt hs hread
      exact ⟨run, hr, succeeded_of_patch hs hc ht hr.mem hr.incident, hstored⟩
    | _ => simp at ha

/-- What a finished analyst has found stays so, if no finished analyst changes. -/
theorem Backed.update {r : AnalysisRun} {sys : Sys} {k : ℕ} {m : Member} (h : s.Backed r)
    (hkeep : ∀ a, s.runs k = some (.analyze a) → a.phase.isFinalized = false) :
    Backed ⟨sys, Function.update s.runs k (some m)⟩ r := by
  obtain ⟨k', a, attempt, result, hk, hf, hrest⟩ := h
  refine ⟨k', a, attempt, result, ?_, hf, hrest⟩
  by_cases he : k' = k
  · subst he
    cases (hkeep a hk).symm.trans hf
  · exact (Function.update_of_ne he ..).trans hk

/-- **An analysis run succeeds only by a `finalize`** of an ANALYZE claim of its incident with an outcome that has not
failed. -/
theorem succeeded_step {sys sys' : Sys} {tx : Tx} (h : Sys.machine.step sys tx sys') {r : AnalysisRun}
    (hr : r ∈ sys'.db.analysisRuns.rows) (hs : r.status = .succeeded) : r ∈ sys.db.analysisRuns.rows ∨
      ∃ env claim outcome version, ∃ run : AnalysisRun, tx = .finalize env claim outcome version ∧ claim.type = .analyze ∧
        outcome.failed = false ∧ run.incidentId = claim.incidentId ∧ r = run.finished outcome (env.now 1) := by
  rcases Sys.analysisRun_step h hr with hr | hw
  · exact Or.inl hr
  · cases hw with
    | first | expired => cases hs
    | @finished env claim outcome version run hr' ht hi =>
      refine Or.inr ⟨env, claim, outcome, version, run, rfl, ht, ?_, hi, rfl⟩
      cases hf : outcome.failed with
      | false => rfl
      | true => simp [AnalysisRun.finished, hf] at hs

/-- A transaction that finalizes no ANALYZE claim. -/
theorem Inv.quiet (hs : s.Inv) {tx : Tx} {sys : Sys} (hstep : Sys.machine.step s.sys tx sys)
    (hno : ∀ env claim outcome version, tx = .finalize env claim outcome version → claim.type ≠ .analyze)
    {r : AnalysisRun} (hr : r ∈ sys.db.analysisRuns.rows) (hst : r.status = .succeeded) : s.Backed r := by
  rcases succeeded_step hstep hr hst with hr | ⟨env, claim, outcome, version, run, htx, ht, -⟩
  · exact hs.succeeded r hr hst
  · exact absurd ht (hno env claim outcome version htx)

/-- Members replaced at one place, every other as it was. -/
theorem Inv.members (hs : s.Inv) {sys : Sys} {k : ℕ} {m : Member}
    (hsys : sys = s.sys ∨ ∃ tx, Sys.machine.step s.sys tx sys) (ha : ∀ a, m = .analyze a → a.Inv sys)
    (hw : ∀ w, m = .patch w → ReadApproved sys w) :
    (∀ k' a, Function.update s.runs k (some m) k' = some (.analyze a) → a.Inv sys) ∧
      ∀ k' w, Function.update s.runs k (some m) k' = some (.patch w) → ReadApproved sys w := by
  have hinv := Sys.inv_of_reachable hs.sys
  constructor
  · intro k' a h
    by_cases he : k' = k
    · subst he
      rw [Function.update_self] at h
      exact ha a (Option.some.inj h)
    · rw [Function.update_of_ne he] at h
      rcases hsys with rfl | ⟨tx, hstep⟩
      · exact hs.analysts k' a h
      · exact (hs.analysts k' a h).mono hinv hstep
  · intro k' w h
    by_cases he : k' = k
    · subst he
      rw [Function.update_self] at h
      exact hw w (Option.some.inj h)
    · rw [Function.update_of_ne he] at h
      rcases hsys with rfl | ⟨tx, hstep⟩
      · exact hs.readers k' w h
      · exact (hs.readers k' w h).step hinv hstep

/-! ## Steps keep the invariant -/

theorem Inv.workers_next (hs : s.Inv) {l : Label} (h : machine.step s l s') : Workers.machine.Reachable s'.workers := by
  rcases workers_step h fun k a hk => ⟨(hs.analysts k a hk).issued, (hs.analysts k a hk).analyze⟩ with he | ⟨l', hstep⟩
  · rw [he]
    exact hs.workers
  · exact hs.workers.step hstep

theorem Inv.claim (hs : s.Inv) {k : ℕ} {settings : Settings} {env : Env} {skip : Uuid → Bool} {claim : Claim} {db : Store}
    (hk : s.runs k = none) (hc : claimJob settings env skip s.sys.db = .ok (some claim, db)) :
    Inv ⟨s.sys.exec (.claimJob settings env skip), Function.update s.runs k (some (.start claim))⟩ := by
  have hstep : Sys.machine.step s.sys (.claimJob settings env skip) (s.sys.exec (.claimJob settings env skip)) :=
    ⟨trivial, rfl⟩
  have hissued : claim ∈ (s.sys.exec (.claimJob settings env skip)).issued := by
    simp only [Sys.exec, hc]
    exact List.mem_cons_self ..
  obtain ⟨hanalysts, hreaders⟩ := hs.members (k := k) (m := .start claim) (Or.inr ⟨_, hstep⟩)
    (fun a ha => by
      cases ht : claim.type with
      | patch => cases ha.symm.trans (Member.start_patch ht)
      | analyze =>
        cases ha.symm.trans (Member.start_analyze ht)
        exact ⟨hissued, ht, rfl, fun _ ha => (List.not_mem_nil ha).elim⟩)
    (fun w hw => by
      cases ht : claim.type with
      | analyze => cases hw.symm.trans (Member.start_analyze ht)
      | patch =>
        cases hw.symm.trans (Member.start_patch ht)
        exact fun _ ha => (List.not_mem_nil ha).elim)
  refine ⟨hs.workers_next (.claim hk hc), hanalysts, fun r hr hst => ?_, hreaders⟩
  refine (hs.quiet hstep (fun _ _ _ _ htx => Tx.noConfusion htx) hr hst).update fun a ha => ?_
  rw [hk] at ha
  cases ha

theorem Inv.analyze (hs : s.Inv) {k : ℕ} {a a' : Analyst} {tx : Option Tx} (hk : s.runs k = some (.analyze a))
    (h : a.Step s.sys.db tx a') : Inv ⟨after s.sys tx, Function.update s.runs k (some (.analyze a'))⟩ := by
  have hinv := Sys.inv_of_reachable hs.sys
  have ha := hs.analysts k a hk
  have hnext := ha.step hinv h
  have hlive : ∀ a₀, s.runs k = some (.analyze a₀) → a₀.phase.isFinalized = false := fun a₀ hk₀ => by
    obtain rfl := Member.analyze.inj (Option.some.inj (hk.symm.trans hk₀))
    exact h.not_finalized
  have hworkers := hs.workers_next (.analyze hk h)
  have hpatch : ∀ w, Member.analyze a' = .patch w → ReadApproved (after s.sys tx) w := fun _ hw => Member.noConfusion hw
  cases tx with
  | none =>
    obtain ⟨hanalysts, hreaders⟩ := hs.members (k := k) (Or.inl rfl)
      (fun a₀ h₀ => Member.analyze.inj h₀ ▸ hnext) hpatch
    exact ⟨hworkers, hanalysts, fun r hr hst => (hs.succeeded r hr hst).update hlive, hreaders⟩
  | some tx =>
    have hstep : Sys.machine.step s.sys tx (s.sys.exec tx) := by
      refine ⟨?_, rfl⟩
      cases h
      exact ha.issued
    obtain ⟨hanalysts, hreaders⟩ := hs.members (k := k) (Or.inr ⟨tx, hstep⟩)
      (fun a₀ h₀ => Member.analyze.inj h₀ ▸ hnext.mono hinv hstep) hpatch
    refine ⟨hworkers, hanalysts, fun r hr hst => ?_, hreaders⟩
    rcases succeeded_step hstep hr hst with hr | ⟨env, claim, outcome, version, run, htx, -, hfail, hid, rfl⟩
    · exact (hs.succeeded r hr hst).update hlive
    · -- the outcome of an analyst that has ended is the one its record shows
      have hrec := ha.recorded
      cases h with
      | @finalize result env' hp =>
        cases htx
        rw [ha.analyze] at hfail ⊢
        rw [hp] at hrec
        obtain ⟨attempt, analysis, hanalyzed, hresult⟩ := hrec hfail
        refine ⟨k, _, attempt, analysis, Function.update_self .., rfl, hid.symm, ?_, hresult⟩
        rw [Analyst.next, List.append_nil]
        exact hanalyzed

theorem Inv.patch (hs : s.Inv) {k : ℕ} {w : Working} {a : Act} {r : RunOne} {events : List Event}
    (hk : s.runs k = some (.patch w)) (h : RunOne.Step w.claim (w.view s.sys) a r) (hshow : w.Shows s.sys.db a events)
    (hval : Validates a) : Inv ⟨r.sys, Function.update s.runs k (some (.patch (w.next r events)))⟩ := by
  have hinv := Sys.inv_of_reachable hs.sys
  have hw := (Workers.inv_of_reachable hs.workers).runs k w (workers_runs.mpr hk)
  have hread : ReadApproved s.sys (w.next r events) := (hs.readers k w hk).next hinv hw.issued hw.patch hshow hval
  have hlive : ∀ a₀, s.runs k = some (.analyze a₀) → a₀.phase.isFinalized = false := fun a₀ hk₀ => by
    rw [hk] at hk₀
    cases hk₀
  have hworkers := hs.workers_next (.patch hk h hshow hval)
  have hanalyze : ∀ a₀, Member.patch (w.next r events) = .analyze a₀ → a₀.Inv r.sys := fun _ h => Member.noConfusion h
  -- a transaction of the PATCH claim finalizes no ANALYZE claim
  have moved : ∀ tx, Sys.machine.step s.sys tx r.sys → (∀ env claim outcome version,
      tx = .finalize env claim outcome version → claim.type ≠ .analyze) →
      Inv ⟨r.sys, Function.update s.runs k (some (.patch (w.next r events)))⟩ := by
    intro tx hstep hno
    obtain ⟨hanalysts, hreaders⟩ := hs.members (k := k) (Or.inr ⟨tx, hstep⟩) hanalyze
      (fun w₀ h₀ => Member.patch.inj h₀ ▸ hread.step hinv hstep)
    exact ⟨hworkers, hanalysts, fun r hr hst => (hs.quiet hstep hno hr hst).update hlive, hreaders⟩
  rcases Working.sys_of_step h hw.issued hshow with he | hstep | ⟨result, env, -, -, -, hstep⟩
  · obtain ⟨hanalysts, hreaders⟩ := hs.members (k := k) (Or.inl he) hanalyze
      (fun w₀ h₀ => by rw [he]; exact Member.patch.inj h₀ ▸ hread)
    exact ⟨hworkers, hanalysts, fun r' hr hst => (hs.succeeded r' (by rw [← he]; exact hr) hst).update hlive, hreaders⟩
  · exact moved _ hstep fun _ _ _ _ htx => Tx.noConfusion htx
  · refine moved _ hstep fun _ _ _ _ htx => ?_
    cases htx
    rw [hw.patch]
    decide

theorem Inv.init (h : machine.init s) : s.Inv := by
  obtain ⟨hsys, hn⟩ := h
  have hnone : ∀ {k m}, s.runs k = some m → False := fun hk => by
    rw [hn] at hk
    cases hk
  refine ⟨.of_init ⟨hsys, fun k => ?_⟩, fun k a hk => (hnone hk).elim, fun r hr => ?_, fun k w hk => (hnone hk).elim⟩
  · show (s.runs k).bind Member.working = none
    rw [hn]
    rfl
  · obtain ⟨services, -, he⟩ := hsys
    rw [he] at hr
    exact (List.not_mem_nil hr).elim

theorem Inv.step {l : Label} (hs : s.Inv) (h : machine.step s l s') : s'.Inv := by
  cases h with
  | claim hk hc => exact hs.claim hk hc
  | analyze hk h => exact hs.analyze hk h
  | patch hk h hshow hval => exact hs.patch hk h hshow hval
  | @other tx hallows hno =>
    have hstep : Sys.machine.step s.sys tx (s.sys.exec tx) := ⟨hallows, rfl⟩
    have hinv := Sys.inv_of_reachable hs.sys
    refine ⟨hs.workers_next (.other hallows hno), fun k a hk => (hs.analysts k a hk).mono hinv hstep, fun r hr hst => ?_,
      fun k w hk => (hs.readers k w hk).step hinv hstep⟩
    refine hs.quiet hstep (fun env claim outcome version htx => ?_) hr hst
    rw [htx] at hno
    cases hno

/-- **The invariant of a fleet.** -/
theorem inv_of_reachable (h : machine.Reachable s) : s.Inv :=
  h.invariant (fun _ => Inv.init) fun _ _ _ hs hstep => hs.step hstep

/-! ## What a fleet guarantees -/

/-- The analysis of a run: useful under the run's policy and stored as it is read back. -/
structure Stores (r : AnalysisRun) (result : AnalysisResult) : Prop where
  stored : r.result = some result.modelDump
  useful : ∃ allowedPaths, stringsOf r.policySnapshot "allowedPaths" = .ok allowedPaths ∧
    result.confidence ≠ .low ∧ result.evidence ≠ [] ∧ result.proposedChanges ≠ [] ∧
    ∀ change ∈ result.proposedChanges, ∃ pattern ∈ allowedPaths, fnmatchcase change.path pattern = true
  small : ∃ size, result.size = .ok size ∧ size ≤ Limits.analysisBytes

/-- The run of an attempt is the only one of its incident. -/
theorem Inv.reads (hs : s.Inv) {r : AnalysisRun} (hr : r ∈ s.sys.db.analysisRuns.rows) {k : ℕ} {a : Analyst}
    (hk : s.runs k = some (.analyze a)) (hi : a.claim.incidentId = r.incidentId) {attempt : Attempt}
    (ha : .read attempt ∈ a.record) : attempt.Reads r.incidentId r s.sys.db := by
  obtain ⟨run, hread⟩ := (hs.analysts k a hk).reads attempt ha
  rw [hi] at hread
  have hinv := Sys.inv_of_reachable hs.sys
  obtain rfl := (hinv.ok r.incidentId).run_unique (Store.mem_dossier_analysisRuns.mpr ⟨hread.mem, hread.incident⟩)
    (Store.mem_dossier_analysisRuns.mpr ⟨hr, rfl⟩)
  exact hread

/-- The result of a run that some analyst has found. -/
theorem Inv.stores (hs : s.Inv) {r : AnalysisRun} (hr : r ∈ s.sys.db.analysisRuns.rows) (hst : r.status = .succeeded) :
    ∃ k a attempt result, s.runs k = some (.analyze a) ∧ a.claim.incidentId = r.incidentId ∧
      Analyzed attempt result r.codexThreadId a.record ∧ attempt.Reads r.incidentId r s.sys.db ∧ Stores r result := by
  obtain ⟨k, a, attempt, result, hk, -, hi, han, hres⟩ := hs.succeeded r hr hst
  have hread := hs.reads hr hk hi han.mem
  obtain ⟨allowedPaths, hpaths, huse⟩ := han.useful
  rw [hread.policy] at hpaths
  exact ⟨k, a, attempt, result, hk, hi, han, hread, hres, ⟨allowedPaths, hpaths, AnalysisResult.useful_iff.mp huse⟩,
    han.small⟩

/-- **A successful analysis is found by one attempt**: some `run_one` read the incident's frozen policy, commit and
first event less than 24 hours after the first claim, entered a worktree of that commit, got the stored result from the
gateway and found the worktree clean; the result is useful under that policy, within the size limit, and read back as
it was. -/
theorem succeeded_proven (h : machine.Reachable s) {r : AnalysisRun} (hr : r ∈ s.sys.db.analysisRuns.rows)
    (hst : r.status = .succeeded) :
    ∃ k a attempt result t workspace status, s.runs k = some (.analyze a) ∧ a.claim.incidentId = r.incidentId ∧
      a.record = [.read attempt, .resolved t, .entered workspace (worktreeArgs workspace r.baseCommitSha),
        .analyzed result r.codexThreadId, .inspected status] ∧
      attempt.policy = r.policySnapshot ∧ attempt.sha = r.baseCommitSha ∧
      (∃ e ∈ s.sys.db.errorEvents.rows, e.id = r.inputErrorEventId ∧ attempt.event = e.normalizedPayload) ∧
      (∀ started, r.startedAt = some started → t < started + seconds Limits.analysisSeconds) ∧
      assertClean status = .ok () ∧ Stores r result ∧ AnalysisResult.modelValidate result.modelDump = .ok result := by
  obtain ⟨k, a, attempt, result, hk, hi, han, hread, hstores⟩ := (inv_of_reachable h).stores hr hst
  obtain ⟨t, workspace, status, hrec, hpos, hclean⟩ := han.record_eq
  rw [analysisBegun, hread.sha] at hrec
  refine ⟨k, a, attempt, result, t, workspace, status, hk, hi, hrec, hread.policy, hread.sha, hread.event, ?_, hclean,
    hstores, result.modelValidate_modelDump⟩
  intro started hstarted
  rw [Attempt.remaining, hread.started, hstarted] at hpos
  have hlt : t - started < seconds Limits.analysisSeconds := sub_pos.mp hpos
  exact sub_lt_iff_lt_add'.mp hlt

/-- What a stored useful result is read back as. -/
theorem Stores.storedAnalysis {r : AnalysisRun} {result : AnalysisResult} (h : Stores r result) :
    storedAnalysis checkAnalysis r = .ok (some result.modelDump) := by
  unfold Aeh.storedAnalysis checkAnalysis
  simp [h.stored, result.modelDump_truthy, result.modelValidate_modelDump, Except.map]

/-- What a PATCH claim of an incident works from. -/
structure Approved (s : Fleet) (inc : Incident) (event : ErrorEvent) (run : AnalysisRun) (result : AnalysisResult) :
    Prop where
  incident : s.sys.db.incidents.get inc.id = some inc
  analyzed : run ∈ s.sys.db.analysisRuns.rows
  runIncident : run.incidentId = inc.id
  succeeded : run.status = .succeeded
  received : event ∈ s.sys.db.errorEvents.rows
  first : event.id = inc.firstErrorEventId
  input : event.id = run.inputErrorEventId
  sha : run.baseCommitSha = inc.baseCommitSha
  stores : Stores run result

/-- A PATCH claim has a successful analysis of its incident. -/
theorem Inv.approved (hs : s.Inv) {claim : Claim} (hc : claim ∈ s.sys.issued) (ht : claim.type = .patch) :
    ∃ inc event run result, inc.id = claim.incidentId ∧ s.Approved inc event run result := by
  have hinv := Sys.inv_of_reachable hs.sys
  obtain ⟨j, hj, -, htj, hij, -⟩ := (hinv.fits claim hc).job
  obtain ⟨ap, -, run, hrun, -, -, hri, hst⟩ := hinv.pinned.patchJob j hj (htj.trans ht)
  obtain ⟨inc, hinc, hsha, hinput⟩ := hinv.pinned.runSha run hrun
  have hid := incident_id_of_get hinc
  obtain ⟨k, a, attempt, result, -, -, -, hread, hstores⟩ := hs.stores hrun hst
  obtain ⟨event, hev, hevid, -⟩ := hread.event
  rw [← hid] at hinc
  exact ⟨inc, event, run, result, hid.trans (hri.trans hij), hinc, hrun, hid.symm, hst, hev, hevid.trans hinput, hevid,
    hsha, hstores⟩

variable {inc : Incident} {event : ErrorEvent} {run : AnalysisRun} {result : AnalysisResult}

/-- The incident has no other run. -/
theorem Approved.run_eq (h : s.Approved inc event run result) (hs : s.Inv) {run' : AnalysisRun}
    (hr : run' ∈ s.sys.db.analysisRuns.rows) (hi : run'.incidentId = inc.id) : run' = run :=
  ((Sys.inv_of_reachable hs.sys).ok inc.id).run_unique (Store.mem_dossier_analysisRuns.mpr ⟨hr, hi⟩)
    (Store.mem_dossier_analysisRuns.mpr ⟨h.analyzed, h.runIncident⟩)

/-- Every attempt of the incident has its commit, its first event and the run's policy. -/
theorem Approved.reads (h : s.Approved inc event run result) (hs : s.Inv) {attempt : Attempt} {run' : AnalysisRun}
    (hread : attempt.Reads inc.id run' s.sys.db) :
    attempt.policy = run.policySnapshot ∧ attempt.sha = inc.baseCommitSha ∧ attempt.event = event.normalizedPayload := by
  obtain rfl := h.run_eq hs hread.mem hread.incident
  obtain ⟨e, he, heid, heq⟩ := hread.event
  obtain rfl := Table.eq_of_key he h.received (heid.trans h.input.symm)
  exact ⟨hread.policy, hread.sha.trans h.sha, heq⟩

/-- What a PATCH claim of the incident has read. -/
theorem Approved.reader (h : s.Approved inc event run result) (hs : s.Inv) {k : ℕ} {w : Working}
    (hk : s.runs k = some (.patch w)) (hi : w.claim.incidentId = inc.id) {attempt : Attempt}
    (ha : .read attempt ∈ w.record) :
    attempt.analysis = some result.modelDump ∧ attempt.policy = run.policySnapshot ∧
      attempt.sha = inc.baseCommitSha ∧ attempt.event = event.normalizedPayload := by
  obtain ⟨run', hread, -, hstored⟩ := hs.readers k w hk attempt ha
  rw [hi] at hread
  refine ⟨?_, h.reads hs hread⟩
  obtain rfl := h.run_eq hs hread.mem hread.incident
  rw [h.stores.storedAnalysis] at hstored
  exact (Except.ok.inj hstored).symm

/-- What is stored is read back, so a run stores one result. -/
theorem Stores.result_eq {r : AnalysisRun} {result' : AnalysisResult} (h : Stores r result) (h' : Stores r result') :
    result = result' := by
  have he : result.modelDump = result'.modelDump := Option.some.inj (h.stored.symm.trans h'.stored)
  have hr := result.modelValidate_modelDump
  rw [he, result'.modelValidate_modelDump] at hr
  exact (Except.ok.inj hr).symm

/-- **A patch attempt works from the approved analysis**: whenever a PATCH claim reads, it gets its incident's commit,
first event and frozen policy and the stored result of its successful analysis, useful under that policy; only the path
of the repository can fail to resolve. -/
theorem patch_reads (h : machine.Reachable s) {claim : Claim} (hc : claim ∈ s.sys.issued) (ht : claim.type = .patch) :
    ∃ inc event run result, inc.id = claim.incidentId ∧ s.Approved inc event run result ∧
      (∀ settings fs, readAttempt settings fs checkAnalysis claim s.sys.db =
        (settings.resolveRepositoryReference fs inc.repositoryPathSnapshot).map fun repo =>
          { repo := repo, sha := inc.baseCommitSha, policy := run.policySnapshot, event := event.normalizedPayload,
            analysis := some result.modelDump, analysisStarted := run.startedAt }) ∧
      ∀ k w attempt, s.runs k = some (.patch w) → w.claim.incidentId = claim.incidentId → .read attempt ∈ w.record →
        attempt.analysis = some result.modelDump ∧ attempt.policy = run.policySnapshot ∧
          attempt.sha = inc.baseCommitSha ∧ attempt.event = event.normalizedPayload := by
  have hs := inv_of_reachable h
  obtain ⟨inc, event, run, result, hid, happ⟩ := hs.approved hc ht
  refine ⟨inc, event, run, result, hid, happ, fun settings fs => ?_,
    fun k w attempt hk hi ha => happ.reader hs hk (hi.trans hid.symm) ha⟩
  have hof : s.sys.db.analysisRunOf inc.id = some run := by
    cases hof : s.sys.db.analysisRunOf inc.id with
    | none =>
      have hm := Store.mem_dossier_analysisRuns.mpr ⟨happ.analyzed, happ.runIncident⟩
      rw [Store.analysisRunOf_eq_none.mp hof] at hm
      exact (List.not_mem_nil hm).elim
    | some run' =>
      obtain ⟨hm, hi⟩ := analysisRunOf_some hof
      rw [happ.run_eq hs hm hi]
  have hget : s.sys.db.errorEvents.get run.inputErrorEventId = some event :=
    Table.get_eq_some.mpr ⟨happ.received, happ.input⟩
  have hinc : s.sys.db.incidents.get claim.incidentId = some inc := hid ▸ happ.incident
  simp only [readAttempt, hinc, hof, hget, happ.stores.storedAnalysis]
  cases settings.resolveRepositoryReference fs inc.repositoryPathSnapshot <;> rfl

/-- **From the event to the patch**: behind a ready patch run stand one approval, the successful analysis it approves
with the attempt that found its result, and one patch attempt that read exactly this result and whose check and
validation returned what the patch run stores; both attempts worked at the incident's commit, from its first event and
under the policy frozen in the analysis run. -/
theorem ready_chain (h : machine.Reachable s) {p : PatchRun} (hp : p ∈ s.sys.db.patchRuns.rows)
    (hr : p.status = .patchReady) :
    ∃ inc event run approval result diff, inc.id = p.incidentId ∧ s.Approved inc event run result ∧
      (approval ∈ s.sys.db.approvals.rows ∧ approval.incidentId = inc.id ∧ approval.analysisRunId = run.id ∧
        p.approvalId = approval.id) ∧
      (∃ k a attempt, s.runs k = some (.analyze a) ∧ a.claim.incidentId = inc.id ∧
        Analyzed attempt result run.codexThreadId a.record ∧ attempt.policy = run.policySnapshot ∧
        attempt.sha = inc.baseCommitSha ∧ attempt.event = event.normalizedPayload) ∧
      ∃ k w attempt workspace threadId ws sandbox, s.runs k = some (.patch w) ∧ w.claim.incidentId = inc.id ∧
        w.record = [.read attempt, .entered workspace (worktreeArgs workspace inc.baseCommitSha), .patched threadId,
          .checked ws p.changedFiles diff, .validated sandbox (.ok p.validationResult)] ∧
        (attempt.analysis = some result.modelDump ∧ attempt.policy = run.policySnapshot ∧
          attempt.sha = inc.baseCommitSha ∧ attempt.event = event.normalizedPayload) ∧
        ws.At workspace ∧ checkDiff ws run.policySnapshot = .ok (p.changedFiles, diff) ∧ p.diffText = some diff ∧
        sandbox.runValidation workspace run.policySnapshot = .ok (.ok p.validationResult) := by
  have hs := inv_of_reachable h
  have hinv := Sys.inv_of_reachable hs.sys
  have hworkers := Workers.inv_of_reachable hs.workers
  obtain ⟨k', w, hk', -, hwi, attempt', workspace, diff, sandbox, checked, hdiff, ⟨threadId, ws, hat, hcheck, rfl⟩, hval, hrec⟩ :=
    hworkers.ready p hp hr
  have hw := hworkers.runs k' w hk'
  obtain ⟨inc, event, run, result, hid, happ⟩ := hs.approved hw.issued hw.patch
  have hpi : p.incidentId = inc.id := hwi.symm.trans hid.symm
  have hread : Event.read attempt' ∈ w.record := by
    rw [hrec]
    simp [begun]
  obtain ⟨hanalysis, hpolicy, hsha, hevent⟩ := happ.reader hs (workers_runs.mp hk') hid.symm hread
  obtain ⟨k, a, attempt, result', hk, hai, han, hreads, hstores⟩ := hs.stores happ.analyzed happ.succeeded
  obtain rfl := hstores.result_eq happ.stores
  rw [happ.runIncident] at hreads hai
  have hmp := Store.mem_dossier_patchRuns.mpr ⟨hp, hpi⟩
  obtain ⟨approval, hap, hpa, run', hrun', hapr⟩ := (hinv.ok inc.id).approval_of_patchRun hmp
  obtain ⟨hrun', hri'⟩ := Store.mem_dossier_analysisRuns.mp hrun'
  obtain ⟨hap, hapi⟩ := Store.mem_dossier_approvals.mp hap
  obtain rfl := happ.run_eq hs hrun' hri'
  rw [hpolicy] at hcheck hval
  rw [begun, hsha] at hrec
  exact ⟨inc, event, run', approval, result', diff, hpi.symm, happ, ⟨hap, hapi, hapr, hpa⟩,
    ⟨k, a, attempt, hk, hai, han, happ.reads hs hreads⟩,
    k', w, attempt', workspace, threadId, ws, sandbox, workers_runs.mp hk', hid.symm, hrec,
    ⟨hanalysis, hpolicy, hsha, hevent⟩, hat, hcheck, hdiff, hval⟩

/-- A step of the analyst that has just moved. -/
theorem reachable_analyze {sys : Sys} {runs : ℕ → Option Member} {k : ℕ} {a a' : Analyst} {tx : Option Tx}
    (h : machine.Reachable ⟨sys, Function.update runs k (some (.analyze a))⟩) (hstep : a.Step sys.db tx a') :
    machine.Reachable ⟨after sys tx, Function.update runs k (some (.analyze a'))⟩ := by
  have hs := h.step (show machine.step _ (.analyze k) _ from .analyze (Function.update_self ..) hstep)
  simpa only [Function.update_idem] using hs

/-- A step of the PATCH claim that has just moved. -/
theorem reachable_patch {sys : Sys} {runs : ℕ → Option Member} {k : ℕ} {w : Working} {a : Act} {r : RunOne}
    {events : List Event} (h : machine.Reachable ⟨sys, Function.update runs k (some (.patch w))⟩)
    (hstep : RunOne.Step w.claim (w.view sys) a r) (hshow : w.Shows sys.db a events) (hval : Validates a) :
    machine.Reachable ⟨r.sys, Function.update runs k (some (.patch (w.next r events)))⟩ := by
  have hs := h.step (show machine.step _ (.patch k a) _ from .patch (Function.update_self ..) hstep hshow hval)
  simpa only [Function.update_idem] using hs

end Fleet

/-! ## A whole incident -/

namespace Chain

open Fleet Sample

def service : Service := { Sample.service with policy := narrowed.modelDump }

def origin : Sys := { db := .ofServices ⟨[service], by decide⟩ }

def analysis : AnalysisResult :=
  { summary := lit "crash", rootCause := lit "null", confidence := .high
    evidence := [⟨lit "src/a.py", none, lit "unchecked"⟩]
    proposedChanges := [⟨lit "src/a.py", lit "check", .modify⟩], validationPlan := [lit "tests"]
    reproductionAssessment := ⟨true, lit "input", []⟩, risk := .low, missingInformation := [] }

def claimed : Sys := origin.execAll [.ingest (env 1) request intake sha, .claimJob settings (env 2) fun _ => false]

def attempt : Attempt :=
  { repo := [lit "/repositories", lit "api"]
    sha := sha
    policy := (claimed.db.analysisRunOf 17).elim .null AnalysisRun.policySnapshot
    event := .obj [(lit "fingerprint", .str (lit "f"))]
    analysis := none
    analysisStarted := some (seconds 2) }

def found : List AnalyzeEvent :=
  [.read attempt, .resolved (seconds 2), .entered (lit "/w") (worktreeArgs (lit "/w") sha),
    .analyzed analysis (some (lit "found")), .inspected (.ok [])]

def analyzedOutcome : Outcome := { result := some analysis.modelDump, threadId := some (lit "found") }

/-- The analyst of the sample. -/
def analyst (phase : AnalyzePhase) (n : ℕ) : Analyst := ⟨analyzeClaim, phase, found.take n⟩

def runs (m : Member) : ℕ → Option Member := Function.update (fun _ => none) 0 (some m)

def analyzed : Sys := claimed.exec (.finalize (env 3) analyzeClaim analyzedOutcome (some 2))

theorem started : machine.Reachable ⟨claimed, runs (.analyze (analyst .reading 0))⟩ := by
  have h : machine.Reachable ⟨origin, fun _ => none⟩ := .of_init ⟨⟨_, by decide, rfl⟩, fun _ => rfl⟩
  have h₀ := h.step (show machine.step _ (.other (.ingest (env 1) request intake sha)) _ from
    .other (by decide) rfl)
  exact h₀.step (show machine.step _ (.claim 0 settings (env 2) fun _ => false) _ from
    @Step.claim _ _ _ _ _ analyzeClaim claimed.db rfl rfl)

theorem analysis_small : (match analysis.size with
    | .ok size => decide (size ≤ Limits.analysisBytes)
    | .error _ => false) = true := by decide +kernel

theorem outcome_found : analysisOutcome attempt.policy analysis (some (lit "found")) = .ok analyzedOutcome := by
  have hpaths : stringsOf attempt.policy "allowedPaths" = .ok [lit "src/a.py"] := by rfl
  have huse : analysis.useful [lit "src/a.py"] = true := by rfl
  have hsmall := analysis_small
  cases hs : analysis.size with
  | error e =>
    rw [hs] at hsmall
    cases hsmall
  | ok size =>
    rw [hs] at hsmall
    have hle : ¬ Limits.analysisBytes < size := not_lt.mpr (of_decide_eq_true hsmall)
    simp only [analysisOutcome, hpaths, hs, bind, Except.bind, huse, not_true_eq_false, if_false, hle]
    rfl

theorem inspects : AnalyzePhase.afterInspect attempt analysis (some (lit "found")) (assertClean (.ok [])) =
    .leaving (.ok analyzedOutcome) := by
  have hclean : assertClean (.ok []) = .ok () := by rfl
  simp only [hclean, AnalyzePhase.afterInspect, outcome_found]

theorem found_reachable : machine.Reachable ⟨analyzed, runs (.analyze (analyst (.finalized (.ok true)) 5))⟩ := by
  have h₁ : machine.Reachable ⟨claimed, runs (.analyze (analyst (.resolving attempt) 1))⟩ :=
    reachable_analyze started (@Analyst.Step.read _ _ settings fs attempt rfl rfl)
  have h₂ : machine.Reachable ⟨claimed, runs (.analyze (analyst (.entering attempt (seconds 86400)) 2))⟩ :=
    reachable_analyze h₁ (@Analyst.Step.resolve _ _ _ (seconds 2) sha rfl)
  have h₃ : machine.Reachable ⟨claimed, runs (.analyze (analyst (.analyzing attempt (seconds 60)) 3))⟩ :=
    reachable_analyze h₂ (.enter rfl)
  have h₄ : machine.Reachable
      ⟨claimed, runs (.analyze (analyst (.inspecting attempt analysis (some (lit "found"))) 4))⟩ :=
    reachable_analyze h₃ (.analyze rfl)
  have h₅ : machine.Reachable ⟨claimed, runs (.analyze (analyst (.leaving (.ok analyzedOutcome)) 5))⟩ := by
    have h := reachable_analyze h₄ (@Analyst.Step.inspect _ _ _ _ _ (.ok []) rfl nofun)
    rw [inspects] at h
    exact h
  have h₆ : machine.Reachable ⟨claimed, runs (.analyze (analyst (.ended (.ok analyzedOutcome)) 5))⟩ :=
    reachable_analyze h₅ (@Analyst.Step.leave _ _ _ (.ok ()) rfl nofun)
  exact reachable_analyze h₆ (@Analyst.Step.finalize _ _ _ (env 3) rfl)

def approvedSys : Sys := analyzed.exec (.approve (env 4) 17 9)

def patching : Sys := approvedSys.exec (.claimJob settings (env 5) fun _ => false)

def patchAttempt : Attempt := { attempt with analysis := some analysis.modelDump }

def record : List Event :=
  [.read patchAttempt, .entered (lit "/w") (worktreeArgs (lit "/w") sha), .patched (lit "thread"),
    .checked Evidence.ws Evidence.changed (lit "diff"), .validated Evidence.sandbox (.ok Evidence.validation)]

def both (w : Working) : ℕ → Option Member :=
  Function.update (runs (.analyze (analyst (.finalized (.ok true)) 5))) 1 (some (.patch w))

def patcher (phase : Phase) (versionRef : ℕ) (thread : Thread) (n : ℕ) : Working :=
  ⟨patchClaim, phase, versionRef, thread, false, record.take n⟩

def marked : Sys := patching.exec (.markValidating patchClaim)

def patched : Sys := marked.exec (.finalize (env 6) patchClaim Evidence.outcome (some 5))

theorem passes : checkDiff Evidence.ws patchAttempt.policy = .ok (Evidence.changed, lit "diff") := by rfl

theorem validates : Evidence.sandbox.runValidation (lit "/w") patchAttempt.policy = .ok (.ok Evidence.validation) := by
  rfl

theorem patch_started : machine.Reachable ⟨patching, both (patcher .reading 4 .idle 0)⟩ := by
  have h := found_reachable.step (show machine.step _ (.other (.approve (env 4) 17 9)) _ from .other trivial rfl)
  exact h.step (show machine.step _ (.claim 1 settings (env 5) fun _ => false) _ from
    @Step.claim _ _ _ _ _ patchClaim patching.db rfl rfl)

theorem patched_reachable : machine.Reachable ⟨patched, both (patcher (.finalized (.ok true)) 5 (.committed 5) 5)⟩ := by
  have h₁ : machine.Reachable ⟨patching, both (patcher (.resolving patchAttempt) 4 .idle 1)⟩ :=
    reachable_patch patch_started (.read rfl) (@Working.Shows.read _ _ settings fs checkAnalysis patchAttempt rfl) rfl
  have h₂ : machine.Reachable ⟨patching, both (patcher (.entering patchAttempt) 4 .idle 1)⟩ :=
    reachable_patch h₁ (.resolve rfl) (@Working.Shows.resolve _ _ sha) trivial
  have h₃ : machine.Reachable ⟨patching, both (patcher .patching 4 .idle 2)⟩ :=
    reachable_patch h₂ (.enter rfl) (.enter (List.mem_singleton_self _)) trivial
  have h₄ : machine.Reachable ⟨patching, both (patcher (.checking (lit "thread")) 4 .idle 3)⟩ :=
    reachable_patch h₃ (.patch rfl) .patch trivial
  have h₅ : machine.Reachable ⟨patching, both (patcher (.marking Interrupted.work) 4 .running 4)⟩ :=
    reachable_patch h₄ (.check rfl)
      (.check (List.mem_cons_self ..) (List.mem_cons_of_mem _ (List.mem_cons_self ..)) Evidence.ws_at passes) trivial
  have h₆ : machine.Reachable ⟨marked, both (patcher (.marking Interrupted.work) 4 (.committed 5) 4)⟩ :=
    reachable_patch h₅ (.commit rfl) .commit trivial
  have h₇ : machine.Reachable ⟨marked, both (patcher (.validating Interrupted.work) 5 (.committed 5) 4)⟩ :=
    reachable_patch h₆ (.receive rfl rfl) .receive trivial
  have h₈ : machine.Reachable ⟨marked, both (patcher (.leaving (.ok Evidence.outcome)) 5 (.committed 5) 5)⟩ :=
    reachable_patch h₇ (.validate rfl)
      (.validate (List.mem_cons_self ..) (List.mem_cons_of_mem _ (List.mem_cons_self ..)) validates) trivial
  have h₉ : machine.Reachable ⟨marked, both (patcher (.ended (.ok Evidence.outcome)) 5 (.committed 5) 5)⟩ :=
    reachable_patch h₈ (show RunOne.Step patchClaim _ (.leave (.ok ())) _ from .leave rfl nofun) .leave trivial
  exact reachable_patch h₉ (show RunOne.Step patchClaim _ (.finalize (env 6)) _ from .finalize rfl) .finalize trivial

/-- The sample analysis is found by its one attempt. -/
theorem succeeded_proven_sample : ∃ r ∈ analyzed.db.analysisRuns.rows, r.status = .succeeded ∧ ∃ result,
    Stores r result ∧ AnalysisResult.modelValidate result.modelDump = .ok result := by
  obtain ⟨r, hr, hst⟩ : ∃ r ∈ analyzed.db.analysisRuns.rows, r.status = .succeeded := by decide
  obtain ⟨-, -, -, result, -, -, -, -, -, -, -, -, -, -, -, hstores, hround⟩ := succeeded_proven found_reachable hr hst
  exact ⟨r, hr, hst, result, hstores, hround⟩

/-- The sample's PATCH claim reads the sample analysis. -/
theorem patch_reads_sample : ∃ inc event run result, Approved ⟨patched, both (patcher (.finalized (.ok true)) 5
    (.committed 5) 5)⟩ inc event run result ∧ patchAttempt.analysis = some result.modelDump := by
  have hissued : patchClaim ∈ patched.issued := by decide
  obtain ⟨inc, event, run, result, -, happ, -, hread⟩ := patch_reads patched_reachable hissued rfl
  exact ⟨inc, event, run, result, happ, (hread 1 _ patchAttempt rfl rfl (List.mem_cons_self ..)).1⟩

/-- The sample patch rests on its approval, its analysis and the two attempts. -/
theorem ready_chain_sample : ∃ p ∈ patched.db.patchRuns.rows, p.status = .patchReady ∧ ∃ approval ∈ patched.db.approvals.rows,
    p.approvalId = approval.id := by
  obtain ⟨p, hp, hst⟩ : ∃ p ∈ patched.db.patchRuns.rows, p.status = .patchReady := by decide
  obtain ⟨-, -, -, approval, -, -, -, -, ⟨hap, -, -, hpa⟩, -⟩ := ready_chain patched_reachable hp hst
  exact ⟨p, hp, hst, approval, hap, hpa⟩

end Chain

end Aeh
