import Aeh.System

/-!
# JobStep — what a transaction does to one job

`Sys.JobsStep` lists what a transaction makes of the table of jobs, with one case analysis over the transactions
(`Sys.jobs_step`), and `Job.Step` what becomes of one row (`Sys.job_step`).  A job that is over stays as it is, and so
does the run it worked for.
-/

namespace Aeh

/-! ## What a transaction does to a job -/

/-- A job that has lost its claim: it waits again or is over. -/
inductive Job.Freed (j : Job) : Job → Prop
  | requeued (code : Option String) (detail : Option PyStr) (t : Time) : Freed j (j.requeued code detail t)
  | ended (code : Option String) (detail : Option PyStr) (failed : Bool) :
      Freed j (j.ended code detail (if failed then .failed else .succeeded))

theorem Job.Freed.id {j j' : Job} (h : j.Freed j') : j'.id = j.id := by cases h <;> rfl

theorem Job.Freed.token {j j' : Job} (h : j.Freed j') : j'.claimToken = none := by cases h <;> rfl

theorem Job.Freed.not_running {j j' : Job} (h : j.Freed j') : j'.status ≠ .running := by
  cases h with
  | requeued => simp [Job.requeued]
  | ended code detail failed => cases failed <;> simp [Job.ended]

theorem Job.freed_ended (j : Job) (outcome : Outcome) :
    j.Freed (j.ended outcome.errorCode outcome.errorDetail outcome.jobStatus) :=
  .ended outcome.errorCode outcome.errorDetail outcome.failed

/-- The job after a recovery at time `t`: it waits for its next attempt or has failed. -/
inductive Job.Lapsed (j : Job) (t : Time) : Job → Prop
  | requeued (ha : j.attempt < j.maxAttempts) : Lapsed j t (j.requeued expiredCode expiredDetail t)
  | failed (ha : ¬ j.attempt < j.maxAttempts) : Lapsed j t (j.ended expiredCode expiredDetail .failed)

theorem Job.Lapsed.freed {j j' : Job} {t : Time} (h : j.Lapsed t j') : j.Freed j' := by
  cases h with
  | requeued => exact .requeued _ _ _
  | failed => exact .ended _ _ true

/-- What a transaction can do to the row of one job. -/
inductive Job.Step (tx : Tx) : Option Job → Option Job → Prop
  | same (o : Option Job) : Step tx o o
  | created (j : Job) (hs : j.status = .pending) : Step tx none (some j)
  | claimed {settings : Settings} {env : Env} {skip : Uuid → Bool} (j : Job) (htx : tx = .claimJob settings env skip)
      (hs : j.status = .pending) :
      Step tx (some j) (some (j.claimed (env.uuid 0) settings.workerId (env.now 1)))
  | renewed {env : Env} {claim : Claim} (j : Job) (htx : tx = .heartbeat env claim) (hh : j.heldBy claim = true)
      (hl : j.leaseAt (env.now 0) = true) : Step tx (some j) (some (j.renewed (env.now 1)))
  | expired {env : Env} {rows : List Uuid} (j j' : Job) (htx : tx = .recoverExpired env rows)
      (he : j.isExpiredAt (env.now 0) = true) (hf : j.Freed j') : Step tx (some j) (some j')
  | finished {env : Env} {claim : Claim} {outcome : Outcome} {version : Option ℕ} (j j' : Job)
      (htx : tx = .finalize env claim outcome version) (hh : j.heldBy claim = true)
      (hl : j.leaseAt (env.now 0) = true) (hf : j.Freed j') : Step tx (some j) (some j')

/-- What `ingest` and `approve` draw when they add a job. -/
def Tx.addsJob : Tx → Option Env
  | .ingest env .. | .approve env .. => some env
  | _ => none

section Steps

open Table

variable {db db' : Store} {settings : Settings} {env : Env}

/-- One replaced job, every other as it was. -/
theorem Job.Step.put {tx : Tx} {j j' : Job} (hs : Job.Step tx (some j) (some j')) (hj : j ∈ db.jobs.rows)
    (hid : j'.id = j.id) (x : Uuid) : Job.Step tx (db.jobs.get x) ((db.jobs.put j').get x) := by
  by_cases hx : x = Keyed.key j'
  · have hg : db.jobs.get (Keyed.key j') = some j := get_eq_some.mpr ⟨hj, hid.symm⟩
    rw [hx, hg, get_put_self hg]
    exact hs
  · rw [get_put_ne hx]
    exact .same _

theorem Job.Step.add {tx : Tx} {j : Job} (hs : j.status = .pending) (ha : db.addJob j = .ok db') (x : Uuid) :
    Job.Step tx (db.jobs.get x) (db'.jobs.get x) := by
  obtain ⟨t, ht, rfl⟩ := Store.addJob_ok ha
  show Job.Step tx (db.jobs.get x) (t.get x)
  by_cases hx : x = Keyed.key j
  · have hn : db.jobs.get (Keyed.key j) = none := get_eq_none.mpr (insert_eq_some ht).2.1
    rw [hx, hn, get_insert_self ht]
    exact .created j hs
  · rw [get_insert_ne ht hx]
    exact .same _

theorem claimBranch_jobs {type : JobType} {inc inc' : Incident}
    (h : claimBranch settings env type inc db = .ok (inc', db')) : db'.jobs = db.jobs := by
  obtain ⟨is, rs, ps, rfl⟩ := claimBranch_frame h
  rfl

theorem finish_jobs {t : Time} {type : JobType} {inc : Incident} {outcome : Outcome}
    (h : finish t type inc outcome db = .ok db') : db'.jobs = db.jobs := by
  rcases finish_ok h with ⟨-, run, -, h⟩ | ⟨-, patch, -, h⟩
  · obtain rfl := Store.updateIncident_ok h
    rfl
  · obtain rfl := Store.updateIncident_ok h
    rfl

/-- What `finalize` makes of the row of a job, where it changes it. -/
theorem finalize_changes {claim : Claim} {outcome : Outcome} {version : Option ℕ} {r : Bool}
    (h : finalize env claim outcome version db = .ok (r, db')) {x : Uuid} {j j' : Job} (hj : db.jobs.get x = some j)
    (hj' : db'.jobs.get x = some j') (hne : j' ≠ j) :
    j.heldBy claim = true ∧ j.leaseAt (env.now 0) = true ∧
      ((outcome.failed = true ∧ outcome.transient = true ∧ j.attempt < j.maxAttempts) ∧
          j' = j.requeued outcome.errorCode outcome.errorDetail (env.now 1) ∨
        ¬ (outcome.failed = true ∧ outcome.transient = true ∧ j.attempt < j.maxAttempts) ∧
          j' = j.ended outcome.errorCode outcome.errorDetail outcome.jobStatus) := by
  have hsame : db'.jobs.get x ≠ db.jobs.get x := fun he => hne (Option.some.inj (hj'.symm.trans (he.trans hj)))
  -- the job of the claim is the one that changes
  have changed : ∀ job job₁ : Job, db.jobs.get claim.jobId = some job → job₁.id = job.id → db'.jobs = db.jobs.put job₁ →
      job = j ∧ j' = job₁ := fun job job₁ hjob hid hput => by
    by_cases hx : x = Keyed.key job₁
    · have hxc : x = claim.jobId := hx.trans (hid.trans (Table.get_eq_some.mp hjob).2)
      rw [← hxc, hj] at hjob
      rw [hput, hx, Table.get_put_self (hx ▸ hj)] at hj'
      exact ⟨(Option.some.inj hjob).symm, (Option.some.inj hj').symm⟩
    · rw [hput, Table.get_put_ne hx] at hsame
      exact absurd rfl hsame
  unfold finalize at h
  split at h
  · cases h
    exact absurd rfl hsame
  · rename_i job hjob
    split at h
    · cases h
      exact absurd rfl hsame
    · rename_i hc
      simp only [not_or, not_not] at hc
      have hheld : job.heldBy claim = true := heldBy_iff.mpr ⟨(Table.get_eq_some.mp hjob).2, hc.2.1, hc.1⟩
      split at h
      · cases h
        exact absurd rfl hsame
      · split_ifs at h with hv hr
        · cases h
          exact absurd rfl hsame
        · obtain ⟨-, -, h⟩ := bind_eq_ok.mp h
          cases h
          obtain ⟨rfl, rfl⟩ := changed job (job.requeued _ _ _) hjob rfl rfl
          simp only [Bool.and_eq_true, decide_eq_true_eq, and_assoc] at hr
          exact ⟨hheld, hc.2.2, Or.inl ⟨hr, rfl⟩⟩
        · obtain ⟨db₁, h₁, h⟩ := bind_eq_ok.mp h
          obtain ⟨-, -, h⟩ := bind_eq_ok.mp h
          cases h
          obtain ⟨rfl, rfl⟩ := changed job (job.ended _ _ _) hjob rfl (finish_jobs h₁)
          simp only [Bool.and_eq_true, decide_eq_true_eq, and_assoc] at hr
          exact ⟨hheld, hc.2.2, Or.inr ⟨hr, rfl⟩⟩

theorem recoverOne_jobs {t : Time} {job : Job} (h : recoverOne t db job = .ok db') :
    ∃ job', job.Lapsed t job' ∧ db'.jobs = db.jobs.put job' := by
  obtain ⟨inc, -, ⟨ha, rfl⟩ | ⟨ha, -, run, -, h⟩ | ⟨ha, -, patch, -, h⟩⟩ := recoverOne_ok h
  · exact ⟨_, .requeued ha, rfl⟩
  · obtain rfl := Store.updateIncident_ok h
    exact ⟨_, .failed ha, rfl⟩
  · obtain rfl := Store.updateIncident_ok h
    exact ⟨_, .failed ha, rfl⟩

/-- The loop of `recover_expired` lets each selected job lapse, at a reading of its own, and touches no other. -/
theorem recoverAll_get {k : ℕ} {jobs : List Job} (hj : ∀ j ∈ jobs, j ∈ db.jobs.rows)
    (hd : jobs.Pairwise fun a b => a.id ≠ b.id) (h : recoverAll env k jobs db = .ok db') :
    (∀ x, (∀ j ∈ jobs, x ≠ j.id) → db'.jobs.get x = db.jobs.get x) ∧
      ∀ j ∈ jobs, ∃ j' i, db'.jobs.get j.id = some j' ∧ j.Lapsed (env.now i) j' := by
  induction jobs generalizing k db with
  | nil =>
    obtain rfl := Except.ok.inj h
    exact ⟨fun _ _ => rfl, fun _ hm => (List.not_mem_nil hm).elim⟩
  | cons job jobs ih =>
    obtain ⟨db₁, h₁, h⟩ := bind_eq_ok.mp h
    obtain ⟨job', hl, he⟩ := recoverOne_jobs h₁
    have hid := hl.freed.id
    obtain ⟨hne, hd⟩ := List.pairwise_cons.mp hd
    have hg : db.jobs.get job'.id = some job := by
      rw [hid]
      exact get_self (hj job List.mem_cons_self)
    have hj' : ∀ j ∈ jobs, j ∈ db₁.jobs.rows := by
      intro j hm
      rw [he]
      exact mem_put.mpr (Or.inr ⟨hj j (List.mem_cons_of_mem _ hm), fun hk => hne j hm (hid.symm.trans hk.symm)⟩)
    obtain ⟨hsame, hlapsed⟩ := ih hj' hd h
    refine ⟨fun x hx => ?_, List.forall_mem_cons.mpr ⟨?_, hlapsed⟩⟩
    · rw [List.forall_mem_cons] at hx
      rw [hsame x hx.2, he]
      exact get_put_ne fun hk => hx.1 (hk.trans hid)
    · -- the first job is not selected again
      refine ⟨job', k, ?_, hl⟩
      rw [hsame job.id hne, he, ← hid]
      exact get_put_self hg

/-- `recover_expired` lets the selected jobs lapse and touches no other. -/
theorem recoverExpired_get {rows : List Uuid} {n : ℕ} (h : recoverExpired env rows db = .ok (n, db')) :
    (∀ x, (∀ j ∈ expiredJobs rows (env.now 0) db, x ≠ j.id) → db'.jobs.get x = db.jobs.get x) ∧
      ∀ j ∈ expiredJobs rows (env.now 0) db, ∃ j' i, db'.jobs.get j.id = some j' ∧ j.Lapsed (env.now i) j' := by
  obtain ⟨db₁, hall, h'⟩ := bind_eq_ok.mp h
  cases h'
  exact recoverAll_get (fun j hj => (mem_expiredJobs hj).1) (expiredJobs_nodup rows _ _) hall

end Steps

namespace Sys

/-- A claim is issued with the job it takes, or nothing happens. -/
theorem claim_step {s s' : Sys} {settings : Settings} {env : Env} {skip : Uuid → Bool}
    (h : machine.step s (.claimJob settings env skip) s') :
    s' = s ∨ ∃ job c, job ∈ s.db.jobs.rows ∧ job.status = .pending ∧ job.availableAt ≤ env.now 0 ∧ c.jobId = job.id ∧
      c.token = env.uuid 0 ∧ c.attempt = job.attempt + 1 ∧ s'.issued = c :: s.issued ∧
      s'.db.jobs = s.db.jobs.put (job.claimed (env.uuid 0) settings.workerId (env.now 1)) := by
  obtain ⟨-, rfl⟩ := h
  simp only [exec]
  split
  · rename_i c db' hc
    rcases claimJob_ok hc with ⟨h, -⟩ | ⟨job, inc, inc', hj, hs, hav, -, hb, hr⟩
    · cases h
    · cases hr
      exact Or.inr ⟨job, _, hj, hs, hav, rfl, rfl, rfl, rfl, claimBranch_jobs hb⟩
  · rename_i db' hc
    rcases claimJob_ok hc with ⟨-, rfl⟩ | ⟨job, inc, inc', hj, hs, -, -, hb, hr⟩
    · exact Or.inl rfl
    · cases hr
  · exact Or.inl rfl

/-- A recovery leaves a job as it is or lets it lapse, at a reading after the one that finds it expired. -/
theorem recover_step {s s' : Sys} {env : Env} {rows : List Uuid} (h : machine.step s (.recoverExpired env rows) s')
    (x : Uuid) : s'.db.jobs.get x = s.db.jobs.get x ∨ ∃ j j' i, s.db.jobs.get x = some j ∧
      s'.db.jobs.get x = some j' ∧ j.isExpiredAt (env.now 0) = true ∧ j.Lapsed (env.now i) j' := by
  obtain ⟨-, rfl⟩ := h
  refine settle_ok (P := fun db => db.jobs.get x = s.db.jobs.get x ∨ ∃ j j' i, s.db.jobs.get x = some j ∧
    db.jobs.get x = some j' ∧ j.isExpiredAt (env.now 0) = true ∧ j.Lapsed (env.now i) j') (Or.inl rfl) fun r db' hr => ?_
  obtain ⟨hsame, hlapsed⟩ := recoverExpired_get hr
  by_cases hx : ∃ j ∈ expiredJobs rows (env.now 0) s.db, x = j.id
  · obtain ⟨j, hj, rfl⟩ := hx
    obtain ⟨j', i, hg, hl⟩ := hlapsed j hj
    exact Or.inr ⟨j, j', i, Table.get_self (mem_expiredJobs hj).1, hg, (mem_expiredJobs hj).2, hl⟩
  · push Not at hx
    exact Or.inl (hsame x hx)

/-- What a transaction makes of the table of jobs. -/
inductive JobsStep (db : Store) : Tx → Table Job → Prop
  | same (tx : Tx) : JobsStep db tx db.jobs
  | added {tx : Tx} {env : Env} {job : Job} {db₁ db₂ : Store} (ha : db₁.addJob job = .ok db₂) (hjobs : db₁.jobs = db.jobs)
      (htx : tx.addsJob = some env) (hid : job.id = env.uuid 2) (hs : job.status = .pending)
      (hcap : requireJobCapacity env.jobLimit db = .ok ()) : JobsStep db tx db₂.jobs
  | put {tx : Tx} {job job' : Job} (hs : Job.Step tx (some job) (some job')) (hj : job ∈ db.jobs.rows)
      (hid : job'.id = job.id) : JobsStep db tx (db.jobs.put job')
  | lapsed {env : Env} {rows : List Uuid} {t : Table Job} (h : ∀ x, t.get x = db.jobs.get x ∨ ∃ j j' i,
      db.jobs.get x = some j ∧ t.get x = some j' ∧ j.isExpiredAt (env.now 0) = true ∧ j.Lapsed (env.now i) j') :
      JobsStep db (.recoverExpired env rows) t

/-- **The job table over a step**: one case for each transaction. -/
theorem jobs_step {s s' : Sys} {tx : Tx} (h : machine.step s tx s') : JobsStep s.db tx s'.db.jobs := by
  cases tx with
  | claimJob settings env skip =>
    rcases claim_step h with rfl | ⟨job, c, hj, hs, -, -, -, -, -, he⟩
    · exact .same _
    · rw [he]
      exact .put (.claimed job rfl hs) hj rfl
  | ingest env request intake sha =>
    obtain ⟨-, rfl⟩ := h
    refine settle_ok (P := fun db => JobsStep s.db _ db.jobs) (.same _) fun r db' hr => ?_
    obtain ⟨service, -, -, ⟨-, rfl⟩ | ⟨-, -, fp, inc, occurredAt, db₁, db₂, -, ⟨-, hcap⟩, h₁, h₂, h₃, -⟩⟩ :=
      ingestResolved_ok hr
    · exact .same _
    · obtain ⟨t, -, rfl⟩ := Store.addErrorEvent_ok h₁
      obtain ⟨t', -, rfl⟩ := Store.addOccurrence_ok h₃
      show JobsStep s.db _ db₂.jobs
      rcases joinIncident_ok h₂ with ⟨joined, -, -, hu⟩ | ⟨ho, -, db₃, ha, hj⟩
      · obtain rfl := Store.updateIncident_ok hu
        exact .same _
      · obtain ⟨t'', -, rfl⟩ := Store.addIncident_ok ha
        exact .added hj rfl rfl rfl rfl (hcap ho)
  | approve env incidentId key =>
    obtain ⟨-, rfl⟩ := h
    refine settle_ok (P := fun db => JobsStep s.db _ db.jobs) (.same _) fun r db' hr => ?_
    obtain ⟨inc, -, ⟨-, -, -, -, -, -, rfl⟩ | ⟨-, -, run, -, -, -, -, hcap, hr, -⟩⟩ := approveOnce_ok hr
    · exact .same _
    · obtain ⟨db₁, db₂, db₃, h₁, h₂, h₃, h₄⟩ := addApproved_ok hr
      obtain ⟨t₁, -, rfl⟩ := Store.addApproval_ok h₁
      obtain ⟨t₂, -, rfl⟩ := Store.addPatchRun_ok h₂
      obtain rfl := Store.updateIncident_ok h₄
      show JobsStep s.db _ db₃.jobs
      exact .added h₃ rfl rfl rfl rfl hcap
  | syncServices settings fs env policies =>
    obtain ⟨-, rfl⟩ := h
    refine settle_ok (P := fun db => JobsStep s.db _ db.jobs) (.same _) fun r db' hr => ?_
    obtain ⟨db₁, h, h'⟩ := bind_eq_ok.mp hr
    obtain ⟨t, rfl⟩ := syncAll_frame h
    cases h'
    exact .same _
  | heartbeat env claim =>
    obtain ⟨-, rfl⟩ := h
    refine settle_ok (P := fun db => JobsStep s.db _ db.jobs) (.same _) fun r db' hr => ?_
    rcases heartbeat_ok hr with ⟨-, rfl⟩ | ⟨job, hj, hh, hl, -, rfl⟩
    · exact .same _
    · exact .put (.renewed job rfl hh hl) hj rfl
  | recoverExpired env rows => exact .lapsed fun x => recover_step h x
  | markValidating claim =>
    obtain ⟨-, rfl⟩ := h
    simp only [exec]
    split
    · rename_i hm
      obtain ⟨job, inc, patch, db₁, -, -, -, -, hu, -, -, rfl⟩ := markValidating_ok hm
      show JobsStep _ _ db₁.jobs
      rw [Store.updateIncident_ok hu]
      exact .same _
    · exact .same _
  | finalize env claim outcome version =>
    obtain ⟨-, rfl⟩ := h
    refine settle_ok (P := fun db => JobsStep s.db _ db.jobs) (.same _) fun r db' hr => ?_
    rcases finalize_ok hr with ⟨-, rfl⟩ | ⟨job, inc, hj, hh, hl, -, -, -, ⟨-, -, rfl⟩ | hf⟩
    · exact .same _
    · exact .put (.finished job _ rfl hh hl (.requeued _ _ _)) (Table.get_eq_some.mp hj).1 rfl
    · rw [finish_jobs hf]
      exact .put (.finished job _ rfl hh hl (job.freed_ended outcome)) (Table.get_eq_some.mp hj).1 rfl

/-- What a step does to one job. -/
theorem job_step {s s' : Sys} {tx : Tx} (h : machine.step s tx s') (x : Uuid) :
    Job.Step tx (s.db.jobs.get x) (s'.db.jobs.get x) := by
  have hstep := jobs_step h
  generalize s'.db.jobs = t at hstep
  cases hstep with
  | same => exact .same _
  | added ha hjobs _ _ hs _ => exact hjobs ▸ Job.Step.add hs ha x
  | put hs hj hid => exact hs.put hj hid x
  | lapsed h =>
    rcases h x with he | ⟨j, j', i, hg, hg', hexp, hl⟩
    · rw [he]
      exact .same _
    · rw [hg, hg']
      exact .expired j j' rfl hexp hl.freed

end Sys

/-! ## Jobs that are over -/

/-- `SUCCEEDED` or `FAILED`. -/
def Job.isOver (j : Job) : Bool :=
  match j.status with
  | .succeeded | .failed => true
  | .pending | .running => false

/-- The run a job works for. -/
def Store.runOf (db : Store) (j : Job) : Option (AnalysisRun ⊕ PatchRun) :=
  match j.type with
  | .analyze => (db.analysisRunOf j.incidentId).map .inl
  | .patch => (db.patchRunOf j.incidentId).map .inr

theorem Job.not_isOver {j : Job} (hs : j.status = .pending ∨ j.status = .running) : j.isOver = false := by
  unfold isOver
  rcases hs with hs | hs <;> rw [hs]

/-- A job that is over stays as it is. -/
theorem Job.Step.of_isOver {tx : Tx} {j : Job} {o : Option Job} (h : Job.Step tx (some j) o) (hj : j.isOver = true) :
    o = some j := by
  have absurd_of : j.status = .pending ∨ j.status = .running → o = some j := fun hs => by
    rw [j.not_isOver hs] at hj
    cases hj
  cases h with
  | same => rfl
  | claimed _ _ hs => exact absurd_of (Or.inl hs)
  | renewed _ _ hh => exact absurd_of (Or.inr (heldBy_iff.mp hh).2.2)
  | expired _ _ _ he =>
    simp only [Job.isExpiredAt, Bool.and_eq_true, decide_eq_true_eq] at he
    exact absurd_of (Or.inr he.1)
  | finished _ _ _ hh => exact absurd_of (Or.inr (heldBy_iff.mp hh).2.2)

namespace Dossier

/-- A waiting or running job is the only one of its type. -/
theorem Ok.eq_of_active {d : Dossier} (hd : d.Ok) {j j' : Job} (hj : j ∈ d.jobs)
    (hs : j.status = .pending ∨ j.status = .running) (hj' : j' ∈ d.jobs) (ht : j'.type = j.type) : j' = j := by
  cases hty : j.type with
  | analyze =>
    rcases hd.analyze_active hj hty hs with ⟨_, rfl, -⟩ | ⟨_, _, rfl, -⟩ <;> exact List.mem_singleton.mp hj'
  | patch =>
    obtain ⟨_, ja, _, _, _, rfl, -, hja, -⟩ := hd.patch_active hj hty hs
    rcases List.mem_pair.mp hj' with rfl | rfl
    · cases (hja.type.symm.trans ht).trans hty
    · rfl

/-- A PATCH job has its patch run. -/
theorem Ok.patchRuns_ne_nil {d : Dossier} (hd : d.Ok) {j : Job} (hj : j ∈ d.jobs) (ht : j.type = .patch) :
    d.patchRuns ≠ [] := by
  cases hd with
  | absent => exact (List.not_mem_nil hj).elim
  | received _ _ ha | analyzing _ _ ha | analyzed _ _ _ ha =>
    obtain rfl := List.mem_singleton.mp hj
    cases ha.type.symm.trans ht
  | patching | patched => exact List.cons_ne_nil _ _

/-- A move leaves the run of a job that is over as it is. -/
theorem Move.run_of_isOver {R : IncidentState → Prop} {d d' : Dossier} (h : d.Move R d') (hd : d.Ok) {j : Job}
    (hj : j ∈ d.jobs) (ho : j.isOver = true) :
    (j.type = .analyze → d'.analysisRuns = d.analysisRuns) ∧ (j.type = .patch → d'.patchRuns = d.patchRuns) := by
  -- no job of the same type waits or runs
  have other : ∀ {j'}, j' ∈ d.jobs → j'.status = .pending ∨ j'.status = .running → j.type ≠ j'.type := by
    intro j' hj' hs ht
    obtain rfl := hd.eq_of_active hj' hs hj ht
    rw [j.not_isOver hs] at ho
    cases ho
  cases h with
  | claimedAnalyze _ _ _ _ hj' ht hs => exact ⟨fun h => absurd (h.trans ht.symm) (other hj' (Or.inl hs)), fun _ => rfl⟩
  | endedAnalyze _ _ _ _ hj' ht hs => exact ⟨fun h => absurd (h.trans ht.symm) (other hj' (Or.inr hs)), fun _ => rfl⟩
  | claimedPatch _ _ _ _ _ hj' ht hs => exact ⟨fun _ => rfl, fun h => absurd (h.trans ht.symm) (other hj' (Or.inl hs))⟩
  | marked _ hj' ht hs => exact ⟨fun _ => rfl, fun h => absurd (h.trans ht.symm) (other hj' (Or.inr hs))⟩
  | endedPatch _ _ _ _ hj' ht hs => exact ⟨fun _ => rfl, fun h => absurd (h.trans ht.symm) (other hj' (Or.inr hs))⟩
  | approved _ _ _ _ _ _ _ hp => exact ⟨fun _ => rfl, fun h => absurd hp (hd.patchRuns_ne_nil hj h)⟩
  | opened | counted | renewed | requeued => exact ⟨fun _ => rfl, fun _ => rfl⟩

end Dossier

namespace Sys

theorem runOf_of_isOver {s s' : Sys} {tx : Tx} (hs : s.Inv) (h : machine.step s tx s') {j : Job}
    (hj : j ∈ s.db.jobs.rows) (ho : j.isOver = true) : s'.db.runOf j = s.db.runOf j := by
  have hm := Store.mem_dossier_jobs.mpr ⟨hj, rfl⟩
  have hruns : (j.type = .analyze → (s'.db.dossier j.incidentId).analysisRuns =
      (s.db.dossier j.incidentId).analysisRuns) ∧
      (j.type = .patch → (s'.db.dossier j.incidentId).patchRuns = (s.db.dossier j.incidentId).patchRuns) := by
    rcases step_moves hs h j.incidentId with he | hmove
    · rw [he]
      exact ⟨fun _ => rfl, fun _ => rfl⟩
    · exact hmove.run_of_isOver (hs.ok _) hm ho
  unfold Store.runOf
  cases ht : j.type with
  | analyze =>
    show (s'.db.analysisRunOf _).map _ = (s.db.analysisRunOf _).map _
    rw [Store.analysisRunOf_eq, Store.analysisRunOf_eq, hruns.1 ht]
  | patch =>
    show (s'.db.patchRunOf _).map _ = (s.db.patchRunOf _).map _
    rw [Store.patchRunOf_eq, Store.patchRunOf_eq, hruns.2 ht]

end Sys

end Aeh
