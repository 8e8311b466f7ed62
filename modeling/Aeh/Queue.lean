import Aeh.Attempts
import Aeh.Lease
import Aeh.Progress

/-!
# Queue — the order and the end of the waiting

A job waits from the moment it is added or loses its claim.  Later rows wait later (`Sys.waiting_step`), so on one
clock a waiting job is passed only by the jobs that waited before it (`Timed.passed_by`).  Each claim and each end of
a claim uses up a part of the attempts a job has (`Job.spent`), so the turns that find a job are bounded by the number
of jobs (`Configured.busy_turns`), whatever becomes of the attempts.  A turn is made when every waiting job is available
and every lease has run out, and the next one at least a lease later; nothing is said of the polls of `worker_loop` in
between, which may find a job that is not due and use up nothing.
-/

namespace Aeh

/-! ## Jobs that start to wait -/

section Created

variable {db db' : Store} {env : Env} {x : Uuid} {j : Job}

theorem addJob_created {job : Job} (h : db.addJob job = .ok db') (hn : db.jobs.get x = none)
    (hj : db'.jobs.get x = some j) : j = job := by
  obtain ⟨t, ht, rfl⟩ := Store.addJob_ok h
  have hj : t.get x = some j := hj
  by_cases hx : x = Keyed.key job
  · rw [hx, Table.get_insert_self ht] at hj
    exact (Option.some.inj hj).symm
  · rw [Table.get_insert_ne ht hx, hn] at hj
    cases hj

theorem ingestResolved_created {request : EventRequest} {intake : Intake} {sha : PyStr} {r : Receipt}
    (h : ingestResolved env request intake sha db = .ok (r, db')) (hn : db.jobs.get x = none)
    (hj : db'.jobs.get x = some j) : j.availableAt = env.now 0 ∧ j.attempt = 0 := by
  obtain ⟨service, -, -, ⟨-, rfl⟩ | ⟨-, -, fp, inc, occurredAt, db₁, db₂, -, -, h₁, h₂, h₃, -⟩⟩ := ingestResolved_ok h
  · cases hn.symm.trans hj
  · obtain ⟨t, -, rfl⟩ := Store.addErrorEvent_ok h₁
    obtain ⟨t', -, rfl⟩ := Store.addOccurrence_ok h₃
    have hj : db₂.jobs.get x = some j := hj
    rcases joinIncident_ok h₂ with ⟨joined, -, -, hu⟩ | ⟨ho, -, db₃, ha, hadd⟩
    · rw [Store.updateIncident_ok hu] at hj
      cases hn.symm.trans hj
    · obtain ⟨t'', -, rfl⟩ := Store.addIncident_ok ha
      obtain rfl := addJob_created hadd hn hj
      exact ⟨rfl, rfl⟩

theorem approveOnce_created {incidentId key : Uuid} {r : ApprovalReceipt}
    (h : approveOnce env incidentId key db = .ok (r, db')) (hn : db.jobs.get x = none)
    (hj : db'.jobs.get x = some j) : j.availableAt = env.now 0 ∧ j.attempt = 0 := by
  obtain ⟨inc, -, ⟨-, -, -, -, -, -, rfl⟩ | ⟨-, -, run, -, -, -, -, -, hadd, -⟩⟩ := approveOnce_ok h
  · cases hn.symm.trans hj
  · obtain ⟨db₁, db₂, db₃, h₁, h₂, h₃, h₄⟩ := addApproved_ok hadd
    obtain ⟨t₁, -, rfl⟩ := Store.addApproval_ok h₁
    obtain ⟨t₂, -, rfl⟩ := Store.addPatchRun_ok h₂
    rw [Store.updateIncident_ok h₄] at hj
    obtain rfl := addJob_created h₃ hn hj
    exact ⟨rfl, rfl⟩

end Created

theorem retryDelay_range (n : ℕ) : 0 ≤ retryDelay n ∧ retryDelay n ≤ seconds 60 := by
  unfold retryDelay
  split <;> decide

namespace Sys

variable {s s' : Sys} {tx : Tx} {x : Uuid} {j : Job}

/-- A new job is available at once. -/
theorem created_step (h : machine.step s tx s') (hn : s.db.jobs.get x = none) (hj : s'.db.jobs.get x = some j) :
    ∃ env ∈ tx.env, j.availableAt = env.now 0 ∧ j.attempt = 0 := by
  by_cases ha : ∃ env, tx.addsJob = some env
  · obtain ⟨-, rfl⟩ := h
    -- nothing is added by a transaction that fails
    have lost : s.db.jobs.get x = some j → False := fun he => nomatch hn.symm.trans he
    cases tx with
    | ingest env request intake sha =>
      refine ⟨env, rfl, ?_⟩
      revert hj
      exact settle_ok (P := fun db => db.jobs.get x = some j → _) (fun hj => (lost hj).elim) fun _ _ h hj =>
        ingestResolved_created h hn hj
    | approve env incidentId key =>
      refine ⟨env, rfl, ?_⟩
      revert hj
      exact settle_ok (P := fun db => db.jobs.get x = some j → _) (fun hj => (lost hj).elim) fun _ _ h hj =>
        approveOnce_created h hn hj
    | _ =>
      obtain ⟨env, ha⟩ := ha
      cases ha
  · have hstep := jobs_step h
    generalize s'.db.jobs = t at hstep hj
    cases hstep with
    | same => cases hn.symm.trans hj
    | added _ _ htx => exact absurd ⟨_, htx⟩ ha
    | put hs hm hid =>
      rename_i job job'
      by_cases hx : x = Keyed.key job'
      · have hg : s.db.jobs.get x = some job := Table.get_eq_some.mpr ⟨hm, hid.symm.trans hx.symm⟩
        cases hn.symm.trans hg
      · rw [Table.get_put_ne hx] at hj
        cases hn.symm.trans hj
    | lapsed h =>
      rcases h x with he | ⟨j₀, j', i, hg, -⟩
      · rw [he] at hj
        cases hn.symm.trans hj
      · cases hn.symm.trans hg

/-- **When a row starts to wait**: it waited before, or it is available from a reading of the transaction's clock on,
or at most a minute later. -/
theorem waiting_step (h : machine.step s tx s') (hj : s'.db.jobs.get x = some j) (hs : j.status = .pending) :
    s.db.jobs.get x = some j ∨
      ∃ env ∈ tx.env, ∃ k, env.now k ≤ j.availableAt ∧ j.availableAt ≤ env.now k + seconds 60 := by
  have delay : ∀ (n : ℕ) (t : Time), t ≤ t + retryDelay n ∧ t + retryDelay n ≤ t + seconds 60 := fun n t =>
    ⟨le_add_of_nonneg_right (retryDelay_range n).1, Int.add_le_add_left (retryDelay_range n).2 t⟩
  have hstep := job_step h x
  rw [hj] at hstep
  generalize ho : s.db.jobs.get x = o at hstep
  cases hstep with
  | same => exact Or.inl rfl
  | created =>
    obtain ⟨env, he, hav, -⟩ := created_step h ho hj
    exact Or.inr ⟨env, he, 0, hav.ge, hav.le.trans (le_add_of_nonneg_right (by decide))⟩
  | claimed => cases hs
  | renewed j₀ _ hh => cases (heldBy_iff.mp hh).2.2.symm.trans hs
  | expired j₀ j' htx hexp hf =>
    subst htx
    rcases recover_step h x with he | ⟨j₁, j₂, i, hg, hg', -, hl⟩
    · rw [hj, ho] at he
      exact Or.inl he.symm
    · obtain rfl := Option.some.inj (hj.symm.trans hg')
      cases hl with
      | requeued => exact Or.inr ⟨_, rfl, i, delay _ _⟩
      | failed => cases hs
  | @finished env claim outcome version j₀ j' htx hh hl hf =>
    subst htx
    obtain ⟨-, rfl⟩ := h
    refine Or.inr ⟨env, rfl, 1, ?_⟩
    revert hj
    have hne : j ≠ j₀ := fun he => by
      rw [he] at hs
      cases (heldBy_iff.mp hh).2.2.symm.trans hs
    refine settle_ok (P := fun db => db.jobs.get x = some j → _) (fun hj => ?_) fun r db' hr hj => ?_
    · exact absurd (Option.some.inj (hj.symm.trans ho)) hne
    · obtain ⟨-, -, ⟨-, rfl⟩ | ⟨-, rfl⟩⟩ := finalize_changes hr ho hj hne
      · exact delay _ _
      · have hend : outcome.jobStatus = .pending := hs
        unfold Outcome.jobStatus at hend
        split at hend <;> cases hend

end Sys

/-! ## First come, first served -/

section Order

variable {a b c : Job}

theorem Job.before_iff : a.before b = true ↔ a.availableAt < b.availableAt ∨ a.availableAt = b.availableAt ∧
    (a.createdAt.instant < b.createdAt.instant ∨ a.createdAt.instant = b.createdAt.instant ∧ a.id ≤ b.id) := by
  simp [before]

theorem Job.before_total (a b : Job) : a.before b = true ∨ b.before a = true := by
  rw [before_iff, before_iff]
  rcases lt_trichotomy a.availableAt b.availableAt with h | h | h
  · exact Or.inl (Or.inl h)
  · rcases lt_trichotomy a.createdAt.instant b.createdAt.instant with h' | h' | h'
    · exact Or.inl (Or.inr ⟨h, Or.inl h'⟩)
    · exact (le_total a.id b.id).imp (fun hid => Or.inr ⟨h, Or.inr ⟨h', hid⟩⟩)
        fun hid => Or.inr ⟨h.symm, Or.inr ⟨h'.symm, hid⟩⟩
    · exact Or.inr (Or.inr ⟨h.symm, Or.inl h'⟩)
  · exact Or.inr (Or.inl h)

theorem Job.before_trans (h : a.before b = true) (h' : b.before c = true) : a.before c = true := by
  rw [before_iff] at h h' ⊢
  rcases h with h | ⟨h, hc⟩
  · rcases h' with h' | ⟨h', -⟩
    · exact Or.inl (h.trans h')
    · exact Or.inl (h.trans_eq h')
  · rcases h' with h' | ⟨h', hc'⟩
    · exact Or.inl (h.trans_lt h')
    · refine Or.inr ⟨h.trans h', ?_⟩
      rcases hc with hc | ⟨hc, hid⟩
      · rcases hc' with hc' | ⟨hc', -⟩
        · exact Or.inl (hc.trans hc')
        · exact Or.inl (hc.trans_eq hc')
      · rcases hc' with hc' | ⟨hc', hid'⟩
        · exact Or.inl (hc.trans_lt hc')
        · exact Or.inr ⟨hc.trans hc', hid.trans hid'⟩

theorem Job.availableAt_le_of_before (h : a.before b = true) : a.availableAt ≤ b.availableAt := by
  rcases before_iff.mp h with h | ⟨h, -⟩
  · exact h.le
  · exact h.le

/-- A job that waits and may be seen is not passed over for nothing. -/
theorem nextJob_isSome {skip : Uuid → Bool} {t : Time} {db : Store} (hb : b ∈ db.jobs.rows) (hs : b.status = .pending)
    (hav : b.availableAt ≤ t) (hskip : skip b.id = false) : nextJob skip t db ≠ none := by
  intro hn
  have hmem : b ∈ db.jobs.select fun j => j.status = .pending && j.availableAt ≤ t && !skip j.id :=
    Table.mem_select.mpr ⟨hb, by simp [hs, hav, hskip]⟩
  have hsort := (List.perm_insertionSort (fun a b : Job => a.before b) _).mem_iff.mpr hmem
  rw [List.head?_eq_none_iff.mp hn] at hsort
  exact (List.not_mem_nil hsort).elim

/-- `claim_job` takes no job while one it may see waits before it. -/
theorem nextJob_before {skip : Uuid → Bool} {t : Time} {db : Store} (h : nextJob skip t db = some a)
    (hb : b ∈ db.jobs.rows) (hs : b.status = .pending) (hav : b.availableAt ≤ t) (hskip : skip b.id = false) :
    a.before b = true := by
  unfold nextJob at h
  set l := db.jobs.select fun j => j.status = .pending && j.availableAt ≤ t && !skip j.id with hl
  have hmem : b ∈ l := Table.mem_select.mpr ⟨hb, by simp [hs, hav, hskip]⟩
  have hsorted : (l.insertionSort fun a b => a.before b).Pairwise fun a b => a.before b = true := by
    have : IsTrans Job fun a b => a.before b = true := ⟨fun _ _ _ => Job.before_trans⟩
    have : Std.Total fun a b : Job => a.before b = true := ⟨Job.before_total⟩
    exact List.pairwise_insertionSort _ _
  have hmem' : b ∈ l.insertionSort fun a b => a.before b := (List.perm_insertionSort _ _).mem_iff.mpr hmem
  cases hsort : l.insertionSort fun a b => a.before b with
  | nil =>
    rw [hsort] at hmem'
    exact (List.not_mem_nil hmem').elim
  | cons first rest =>
    rw [hsort] at h hmem' hsorted
    obtain rfl := Option.some.inj h
    rcases List.mem_cons.mp hmem' with rfl | hrest
    · exact (Job.before_total b b).elim id id
    · exact (List.pairwise_cons.mp hsorted).1 b hrest

end Order

/-- The jobs that wait before job `j`. -/
def Store.ahead (db : Store) (j : Job) : List Job :=
  db.jobs.select fun y => y.status = .pending && y.before j && y.id ≠ j.id

/-- A `claim_job` that may see the waiting job `j` takes another one. -/
def Timed.Passes (j : Job) (e : Entry Timed Tx) : Prop :=
  e.pre.sys.db.jobs.get j.id = some j ∧ ∃ settings env skip c, e.label = .claimJob settings env skip ∧
    skip j.id = false ∧ e.post.sys.issued = c :: e.pre.sys.issued ∧ c.jobId ≠ j.id

/-- The job of the newest claim. -/
def Timed.taken (e : Entry Timed Tx) : Option Uuid := e.post.sys.issued.head?.map Claim.jobId

/-- A claim takes the next job. -/
theorem claimJob_next {settings : Settings} {env : Env} {skip : Uuid → Bool} {db db' : Store} {c : Claim}
    (h : claimJob settings env skip db = .ok (some c, db')) :
    ∃ y, nextJob skip (env.now 0) db = some y ∧ c.jobId = y.id ∧
      db'.jobs = db.jobs.put (y.claimed (env.uuid 0) settings.workerId (env.now 1)) := by
  unfold claimJob at h
  split at h
  · cases h
  · rename_i y hy
    split at h
    · cases h
    · obtain ⟨r, hb, h⟩ := bind_eq_ok.mp h
      cases h
      exact ⟨y, hy, rfl, claimBranch_jobs hb⟩

/-- No claim is refused where a job is next. -/
theorem claimJob_none {settings : Settings} {env : Env} {skip : Uuid → Bool} {db db' : Store}
    (h : claimJob settings env skip db = .ok (none, db')) : nextJob skip (env.now 0) db = none := by
  unfold claimJob at h
  split at h
  · assumption
  · split at h
    · cases h
    · obtain ⟨r, -, h⟩ := bind_eq_ok.mp h
      cases h

/-- What a claim takes, and what it leaves in its place. -/
theorem Sys.taken_step {s s' : Sys} {settings : Settings} {env : Env} {skip : Uuid → Bool} {c : Claim}
    (h : machine.step s (.claimJob settings env skip) s') (hc : s'.issued = c :: s.issued) :
    ∃ y, nextJob skip (env.now 0) s.db = some y ∧ c.jobId = y.id ∧
      ∃ y', s'.db.jobs.get y.id = some y' ∧ y'.status = .running := by
  obtain ⟨-, rfl⟩ := h
  have hne : s.issued ≠ c :: s.issued := (List.cons_ne_self c s.issued).symm
  simp only [exec] at hc ⊢
  split at hc
  · rename_i c' db' hclaim
    obtain rfl : c' = c := (List.cons.inj hc).1
    obtain ⟨y, hy, hid, hjobs⟩ := claimJob_next hclaim
    refine ⟨y, hy, hid, y.claimed (env.uuid 0) settings.workerId (env.now 1), ?_, rfl⟩
    have hg : s.db.jobs.get (y.claimed (env.uuid 0) settings.workerId (env.now 1)).id = some y :=
      Table.get_self (nextJob_some hy).1
    show db'.jobs.get _ = _
    rw [hjobs]
    exact Table.get_put_self hg
  · exact absurd hc hne
  · exact absurd hc hne

namespace Timed

variable {t t' : Timed} {tr : List (Entry Timed Tx)} {j : Job}

/-- Rows that start to wait in a run wait from then on. -/
theorem waiting_run (h : machine.Reachable t) (hr : machine.Run t tr t') :
    t.clock ≤ t'.clock ∧ ∀ x y, t'.sys.db.jobs.get x = some y → y.status = .pending →
      t.sys.db.jobs.get x = some y ∨ t.clock ≤ y.availableAt := by
  refine Machine.Run.rel (R := fun a b : Timed => a.clock ≤ b.clock ∧ ∀ x y, b.sys.db.jobs.get x = some y →
    y.status = .pending → a.sys.db.jobs.get x = some y ∨ a.clock ≤ y.availableAt) (fun a => ?_) ?_ ?_ h hr
  · exact ⟨le_rfl, fun _ _ hy _ => Or.inl hy⟩
  · rintro a b c ⟨hab, hrow⟩ ⟨hbc, hrow'⟩
    refine ⟨hab.trans hbc, fun x y hy hs => ?_⟩
    rcases hrow' x y hy hs with hy | hle
    · exact hrow x y hy hs
    · exact Or.inr (hab.trans hle)
  · rintro a tx b - ⟨hstep, -, hclock, hbetween⟩
    refine ⟨hclock, fun x y hy hs => ?_⟩
    rcases Sys.waiting_step hstep hy hs with hy | ⟨env, he, k, hle, -⟩
    · exact Or.inl hy
    · obtain ⟨hfrom, hmono, -⟩ := hbetween env he
      exact Or.inr (hfrom.trans ((hmono (Nat.zero_le k)).trans hle))

/-- The job that passes `j` waits before it. -/
theorem Passes.ahead {e : Entry Timed Tx} (hp : Passes j e) (hs : machine.step e.pre e.label e.post)
    (hj : j.status = .pending) (hav : j.availableAt < e.pre.clock) :
    ∃ y ∈ e.pre.sys.db.ahead j, taken e = some y.id ∧
      ∃ y', e.post.sys.db.jobs.get y.id = some y' ∧ y'.status = .running := by
  obtain ⟨hget, settings, env, skip, c, hlabel, hskip, hissued, hne⟩ := hp
  rw [hlabel] at hs
  obtain ⟨hstep, -, -, hbetween⟩ := hs
  obtain ⟨y, hy, hid, hafter⟩ := Sys.taken_step hstep hissued
  obtain ⟨hm, hys, -⟩ := nextJob_some hy
  have hvisible : j.availableAt ≤ env.now 0 := hav.le.trans (hbetween env rfl).1
  have hbefore := nextJob_before hy (Table.get_eq_some.mp hget).1 hj hvisible hskip
  refine ⟨y, Table.mem_select.mpr ⟨hm, ?_⟩, ?_, hafter⟩
  · simp [hys, hbefore, ← hid, hne]
  · simp [taken, hissued, hid]

theorem mem_ahead {db : Store} {y : Job} :
    y ∈ db.ahead j ↔ db.jobs.get y.id = some y ∧ y.status = .pending ∧ y.before j = true ∧ y.id ≠ j.id := by
  unfold Store.ahead
  rw [Table.mem_select]
  simp only [Bool.and_eq_true, decide_eq_true_eq, and_assoc]
  constructor
  · rintro ⟨hm, h⟩
    exact ⟨Table.get_self hm, h⟩
  · rintro ⟨hg, h⟩
    exact ⟨(Table.get_eq_some.mp hg).1, h⟩

/-- **First come, first served**: on one clock, the claims that pass a waiting job, one that was available before, take
different jobs, all of which waited before it from the start.  So no more claims pass it than jobs waited before it,
whatever is added or fails meanwhile. -/
theorem passed_by (h : machine.Reachable t) (hs : j.status = .pending) (hav : j.availableAt < t.clock)
    (hr : machine.Run t tr t') {es : List (Entry Timed Tx)} (hsub : es.Sublist tr) (hes : ∀ e ∈ es, Passes j e) :
    (es.map taken).Nodup ∧ (∀ e ∈ es, ∃ y ∈ t.sys.db.ahead j, taken e = some y.id) ∧
      es.length ≤ (t.sys.db.ahead j).length := by
  -- the clock at each step of the run
  have at_step : ∀ e ∈ tr, machine.Reachable e.pre ∧ machine.step e.pre e.label e.post ∧ j.availableAt < e.pre.clock ∧
      ∀ x y, e.pre.sys.db.jobs.get x = some y → y.status = .pending →
        t.sys.db.jobs.get x = some y ∨ t.clock ≤ y.availableAt := by
    intro e he
    obtain ⟨tr₁, tr₂, rfl⟩ := List.append_of_mem he
    obtain ⟨hr₁, hstep, -⟩ := hr.at
    obtain ⟨hclock, hrow⟩ := waiting_run h hr₁
    exact ⟨h.run hr₁, hstep, hav.trans_le hclock, hrow⟩
  have hahead : ∀ e ∈ es, ∃ y ∈ t.sys.db.ahead j, taken e = some y.id := by
    intro e he
    obtain ⟨-, hstep, hlt, hrow⟩ := at_step e (hsub.subset he)
    obtain ⟨y, hy, htaken, -⟩ := (hes e he).ahead hstep hs hlt
    obtain ⟨hg, hys, hbefore, hne⟩ := mem_ahead.mp hy
    rcases hrow y.id y hg hys with hg | hle
    · exact ⟨y, mem_ahead.mpr ⟨hg, hys, hbefore, hne⟩, htaken⟩
    · exact absurd hav (not_lt.mpr (hle.trans (Job.availableAt_le_of_before hbefore)))
  -- a job that has been taken waits again only behind `j`
  have hapart : tr.Pairwise fun e e' => j.availableAt < e.pre.clock → Passes j e → Passes j e' → taken e ≠ taken e' := by
    refine Machine.Run.pairwise (fun e e' rest hreach hstep hrest hstep' hlt hp hp' heq => ?_) h hr
    obtain ⟨y, hy, htaken, y₁, hy₁, hrunning⟩ := hp.ahead hstep hs hlt
    have hpost := hreach.step hstep
    obtain ⟨hclock, hrow⟩ := waiting_run hpost hrest
    have hlt₁ : j.availableAt < e.post.clock := hlt.trans_le hstep.2.2.1
    obtain ⟨y', hy', htaken', -⟩ := hp'.ahead hstep' hs (hlt₁.trans_le hclock)
    have hid : y'.id = y.id := Option.some.inj (htaken'.symm.trans (heq.symm.trans htaken))
    obtain ⟨hg', hys', hbefore', -⟩ := mem_ahead.mp hy'
    rcases hrow y'.id y' hg' hys' with hg | hle
    · rw [hid, hy₁] at hg
      cases hrunning.symm.trans (Option.some.inj hg ▸ hys')
    · exact absurd hlt₁ (not_lt.mpr (hle.trans (Job.availableAt_le_of_before hbefore')))
  have hdiff : (es.map taken).Nodup := by
    refine List.pairwise_map.mpr ((hapart.sublist hsub).imp_of_mem fun he he' hne => ?_)
    exact hne (at_step _ (hsub.subset he)).2.2.1 (hes _ he) (hes _ he')
  refine ⟨hdiff, hahead, ?_⟩
  have hsubset : es.map taken ⊆ (t.sys.db.ahead j).map fun y => some y.id := by
    intro x hx
    obtain ⟨e, he, rfl⟩ := List.mem_map.mp hx
    obtain ⟨y, hy, htaken⟩ := hahead e he
    exact List.mem_map.mpr ⟨y, hy, htaken.symm⟩
  simpa using (hdiff.subperm hsubset).length_le

end Timed

/-! ## The end of the queue -/

/-- What a job has used up: each claim and each lost claim counts one, and a job that is over has used up all. -/
def Job.spent (j : Job) : ℕ :=
  match j.status with
  | .pending => 2 * j.attempt
  | .running => 2 * j.attempt - 1
  | .succeeded | .failed => 2 * Limits.maxAttempts

def Store.spent (db : Store) : ℕ := db.jobs.total Job.spent

section Spent

variable {j j' : Job}

theorem Job.spent_pending (hs : j.status = .pending) : j.spent = 2 * j.attempt := by simp [spent, hs]

theorem Job.spent_running (hs : j.status = .running) : j.spent = 2 * j.attempt - 1 := by simp [spent, hs]

theorem Job.spent_over (h : j.isOver = true) : j.spent = 2 * Limits.maxAttempts := by
  unfold isOver at h
  unfold spent
  cases hs : j.status <;> simp_all

/-- Only a job that is over has used up all. -/
theorem Job.Sound.spent_lt (h : j.Sound) (hn : j.isOver = false) : j.spent < 2 * Limits.maxAttempts := by
  have hle := h.attempts
  unfold Job.isOver at hn
  cases hs : j.status with
  | pending =>
    have hlt := h.pending hs
    rw [j.spent_pending hs]
    omega
  | running =>
    have hpos := h.running hs
    rw [j.spent_running hs]
    omega
  | succeeded | failed => simp [hs] at hn

theorem Job.Sound.spent_le (h : j.Sound) : j.spent ≤ 2 * Limits.maxAttempts := by
  cases ho : j.isOver with
  | true => exact (j.spent_over ho).le
  | false => exact (h.spent_lt ho).le

theorem Job.spent_claimed (hs : j.status = .pending) (token : Uuid) (worker : String) (t : Time) :
    j.spent < (j.claimed token worker t).spent := by
  rw [j.spent_pending hs, Job.spent_running rfl]
  show 2 * j.attempt < 2 * (j.attempt + 1) - 1
  omega

theorem Job.Freed.spent_lt (h : j.Freed j') (hs : j.status = .running) (hj : j.Sound) : j.spent < j'.spent := by
  have hpos := hj.running hs
  have hlt := hj.spent_lt (j.not_isOver (Or.inr hs))
  cases h with
  | requeued code detail t =>
    rw [j.spent_running hs, Job.spent_pending rfl]
    show 2 * j.attempt - 1 < 2 * j.attempt
    omega
  | ended code detail failed =>
    rw [Job.spent_over (j := j.ended _ _ _) (by cases failed <;> rfl)]
    exact hlt

end Spent

namespace Sys

variable {s s' : Sys} {tx : Tx}

theorem Inv.sound (hs : s.Inv) {j : Job} (hj : j ∈ s.db.jobs.rows) : j.Sound :=
  (hs.ok j.incidentId).sound (Store.mem_dossier_jobs.mpr ⟨hj, rfl⟩)

/-- No step gives anything back. -/
theorem spent_step (hs : s.Inv) (h : machine.step s tx s') (x : Uuid) :
    s.db.jobs.share Job.spent x ≤ s'.db.jobs.share Job.spent x := by
  have hstep := job_step h x
  unfold Table.share
  generalize ho : s.db.jobs.get x = o at hstep
  generalize s'.db.jobs.get x = o' at hstep
  have hsound : ∀ j, o = some j → j.Sound := fun j hj => hs.sound (Table.get_eq_some.mp (ho.trans hj)).1
  cases hstep with
  | same => exact le_rfl
  | created => exact Nat.zero_le _
  | claimed j _ hp => exact (j.spent_claimed hp _ _ _).le
  | renewed j => exact le_rfl
  | expired j j' _ he hf =>
    have hrun : j.status = .running := by
      simp only [Job.isExpiredAt, Bool.and_eq_true, decide_eq_true_eq] at he
      exact he.1
    exact (hf.spent_lt hrun (hsound j rfl)).le
  | finished j j' _ hh _ hf => exact (hf.spent_lt (heldBy_iff.mp hh).2.2 (hsound j rfl)).le

theorem spent_step_le (hs : s.Inv) (h : machine.step s tx s') : s.db.spent ≤ s'.db.spent :=
  Table.total_le (spent_step hs h)

/-- A job that has moved on. -/
theorem spent_step_lt (hs : s.Inv) (h : machine.step s tx s') {j j' : Job} (hj : s.db.jobs.get j.id = some j)
    (hj' : s'.db.jobs.get j.id = some j') (hlt : j.spent < j'.spent) : s.db.spent < s'.db.spent := by
  obtain ⟨hm', hid⟩ := Table.get_eq_some.mp hj'
  refine Table.total_lt (spent_step hs h) hm' ?_
  rw [hid]
  unfold Table.share
  rw [hj]
  exact hlt

/-- What all jobs together can use up. -/
theorem Inv.spent_le (hs : s.Inv) : s.db.spent ≤ 2 * Limits.maxAttempts * s.db.jobs.rows.length ∧
    (s.db.spent = 2 * Limits.maxAttempts * s.db.jobs.rows.length ↔ ∀ j ∈ s.db.jobs.rows, j.isOver = true) := by
  have hall : ∀ l : List Job, (∀ j ∈ l, j.Sound) → (l.map Job.spent).sum ≤ 2 * Limits.maxAttempts * l.length ∧
      ((l.map Job.spent).sum = 2 * Limits.maxAttempts * l.length ↔ ∀ j ∈ l, j.isOver = true) := by
    intro l hl
    induction l with
    | nil => exact ⟨le_rfl, by simp⟩
    | cons j l ih =>
      rw [List.forall_mem_cons] at hl ⊢
      obtain ⟨hle, hiff⟩ := ih hl.2
      have hj := hl.1.spent_le
      rw [List.map_cons, List.sum_cons, List.length_cons, Nat.mul_succ]
      refine ⟨by omega, fun h => ⟨?_, hiff.mp (by omega)⟩, fun h => ?_⟩
      · by_contra hn
        have hlt := hl.1.spent_lt (by simpa using hn)
        omega
      · rw [hiff.mpr h.2, j.spent_over h.1]
        omega
  exact hall _ fun j hj => hs.sound hj

end Sys

/-- At time `t` every waiting job is available and no lease runs. -/
def Store.Due (db : Store) (t : Time) : Prop :=
  ∀ j ∈ db.jobs.rows, (j.status = .pending → j.availableAt ≤ t) ∧ (j.status = .running → j.isExpiredAt t = true)

instance (db : Store) (t : Time) : Decidable (db.Due t) :=
  inferInstanceAs (Decidable (∀ j ∈ db.jobs.rows,
    (j.status = .pending → j.availableAt ≤ t) ∧ (j.status = .running → j.isExpiredAt t = true)))

/-- The clock of the transaction shows a time from `t` to a lease before `u`. -/
def Tx.Within (t u : Time) (tx : Tx) : Prop := ∀ env ∈ tx.env, ∀ k, t ≤ env.now k ∧ env.now k ≤ leaseLimit u

theorem Job.isExpiredAt_iff {j : Job} {t : Time} :
    j.isExpiredAt t = true ↔ j.status = .running ∧ ∃ l, j.lockedAt = some l ∧ l ≤ leaseLimit t := by
  unfold isExpiredAt
  cases j.lockedAt <;> simp

theorem Job.isExpiredAt_mono {j : Job} {t u : Time} (h : j.isExpiredAt t = true) (htu : t ≤ u) :
    j.isExpiredAt u = true := by
  obtain ⟨hs, l, hl, hle⟩ := isExpiredAt_iff.mp h
  exact isExpiredAt_iff.mpr ⟨hs, l, hl, hle.trans (Int.sub_le_sub_right htu _)⟩

theorem Store.Due.mono {db : Store} {t u : Time} (h : db.Due t) (htu : t ≤ u) : db.Due u := fun j hj =>
  ⟨fun hs => ((h j hj).1 hs).trans htu, fun hs => Job.isExpiredAt_mono ((h j hj).2 hs) htu⟩

/-- What is written a lease before `u` is due at `u`. -/
theorem Store.Due.step {s s' : Sys} {tx : Tx} {t u : Time} (hd : s.db.Due u) (h : Sys.machine.step s tx s')
    (hw : tx.Within t u) : s'.db.Due u := by
  intro j hj
  have hget : s'.db.jobs.get j.id = some j := Table.get_self hj
  constructor
  · intro hs
    rcases Sys.waiting_step h hget hs with hold | ⟨env, he, k, -, hle⟩
    · exact (hd j (Table.get_eq_some.mp hold).1).1 hs
    · have hlimit : leaseLimit u + seconds 60 ≤ u := by
        have hlease : seconds 60 ≤ seconds Limits.leaseSeconds := by decide
        calc leaseLimit u + seconds 60 ≤ leaseLimit u + seconds Limits.leaseSeconds := Int.add_le_add_left hlease _
          _ = u := sub_add_cancel u _
      exact hle.trans ((Int.add_le_add_right (hw env he k).2 _).trans hlimit)
  · intro hs
    have hstep := Sys.job_step h j.id
    rw [hget] at hstep
    generalize ho : s.db.jobs.get j.id = o at hstep
    cases hstep with
    | same => exact (hd j (Table.get_eq_some.mp ho).1).2 hs
    | created _ hp => cases hp.symm.trans hs
    | @claimed settings env skip j₀ htx =>
      exact Job.isExpiredAt_iff.mpr ⟨rfl, env.now 1, rfl, (hw env (by rw [htx]; rfl) 1).2⟩
    | @renewed env claim j₀ htx =>
      exact Job.isExpiredAt_iff.mpr ⟨hs, env.now 1, rfl, (hw env (by rw [htx]; rfl) 1).2⟩
    | expired _ _ _ _ hf => exact absurd hs hf.not_running
    | finished _ _ _ _ _ hf => exact absurd hs hf.not_running

/-- A recovery that sees every row frees an expired job. -/
theorem Sys.recover_progress {s s' : Sys} {env : Env} {rows : List Uuid} (hr : machine.Reachable s)
    (h : machine.step s (.recoverExpired env rows) s') (hall : ∀ j ∈ s.db.jobs.rows, j.id ∈ rows) {j : Job}
    (hj : j ∈ s.db.jobs.rows) (he : j.isExpiredAt (env.now 0) = true) : s.db.spent < s'.db.spent := by
  have hs := inv_of_reachable hr
  have hmem : j ∈ (rows.dedup.filterMap s.db.jobs.get).filter fun j => j.isExpiredAt (env.now 0) :=
    List.mem_filter.mpr ⟨List.mem_filterMap.mpr ⟨j.id, List.mem_dedup.mpr (hall j hj), Table.get_self hj⟩, he⟩
  obtain ⟨j₁, hj₁⟩ : ∃ j₁, j₁ ∈ expiredJobs rows (env.now 0) s.db := by
    unfold expiredJobs
    cases hl : (rows.dedup.filterMap s.db.jobs.get).filter fun j => j.isExpiredAt (env.now 0) with
    | nil =>
      rw [hl] at hmem
      exact (List.not_mem_nil hmem).elim
    | cons j₁ rest => exact ⟨j₁, by simp⟩
  obtain ⟨hm₁, he₁⟩ := mem_expiredJobs hj₁
  obtain ⟨⟨n, db'⟩, hok⟩ : ∃ r, recoverExpired env rows s.db = .ok r :=
    recoverExpired_total (openUnique_of_reachable hr) hs.ok rows
  obtain ⟨-, hlapsed⟩ := recoverExpired_get hok
  obtain ⟨j', i, hg, hl⟩ := hlapsed j₁ hj₁
  obtain ⟨-, rfl⟩ := id h
  have hdb : (s.exec (.recoverExpired env rows)).db = db' := by
    show settle _ _ = _
    rw [hok]
    rfl
  rw [← hdb] at hg
  exact spent_step_lt hs h (Table.get_self hm₁) hg
    (hl.freed.spent_lt (Job.isExpiredAt_iff.mp he₁).1 (hs.sound hm₁))

namespace Configured

variable {w w' w₁ w₂ : Configured} {t u : Time} {n : ℕ} {tr : List (Entry Configured Tx)}

/-- A claim that sees every row takes a job that waits. -/
theorem claim_progress {settings : Settings} {env : Env} (hr : machine.Reachable w)
    (h : machine.step w (.claimJob settings env fun _ => false) w') (hk : KeepsInt settings.laxInt)
    (hfresh : ∀ r ∈ w.sys.db.analysisRuns.rows, r.id ≠ env.uuid 1) {j : Job} (hj : j ∈ w.sys.db.jobs.rows)
    (hs : j.status = .pending) (hav : j.availableAt ≤ env.now 0) : w.sys.db.spent < w'.sys.db.spent := by
  have hreach := sys_reachable hr
  have hinv := Sys.inv_of_reachable hreach
  obtain ⟨hstep, -⟩ := h
  cases hclaim : claimJob settings env (fun _ => false) w.sys.db with
  | error e =>
    obtain rfl := claimJob_error hk hinv.ok (known_of_reachable hr) hclaim
    obtain ⟨r, hm, hid⟩ := claimJob_conflict (Sys.openUnique_of_reachable hreach) hclaim
    exact absurd hid (hfresh r hm)
  | ok r =>
    obtain ⟨_ | c, db'⟩ := r
    · exact absurd (claimJob_none hclaim) (nextJob_isSome hj hs hav rfl)
    · obtain ⟨y, hy, -, hjobs⟩ := claimJob_next hclaim
      obtain ⟨hm, hys, -⟩ := nextJob_some hy
      have hg : w.sys.db.jobs.get (y.claimed (env.uuid 0) settings.workerId (env.now 1)).id = some y := Table.get_self hm
      refine Sys.spent_step_lt hinv hstep hg ?_ (y.spent_claimed hys (env.uuid 0) settings.workerId (env.now 1))
      obtain ⟨-, he⟩ := hstep
      rw [he]
      simp only [Sys.exec, hclaim, hjobs]
      exact Table.get_put_self hg

/-- From time `t` to a lease before `u` all parties do what they do; a worker begins with `recover_expired` and
`claim_job`, which see all rows.  The lease before `u` is a pause: what was claimed or requeued has run out or is
available again at `u`. -/
inductive Turn (t u : Time) : Configured → Configured → Prop
  | intro {w w₁ w₂ w' : Configured} {settings : Settings} {env env' : Env} {rows : List Uuid}
      {tr : List (Entry Configured Tx)} : machine.step w (.recoverExpired env rows) w₁ →
      (∀ j ∈ w.sys.db.jobs.rows, j.id ∈ rows) → machine.step w₁ (.claimJob settings env' fun _ => false) w₂ →
      KeepsInt settings.laxInt → (∀ r ∈ w₁.sys.db.analysisRuns.rows, r.id ≠ env'.uuid 1) → machine.Run w₂ tr w' →
      (Tx.recoverExpired env rows).Within t u → (Tx.claimJob settings env' fun _ => false).Within t u →
      (∀ e ∈ tr, e.label.Within t u) → Turn t u w w'

/-- Turns from time `t` on, of which `n` begin while some job is not over. -/
inductive Turns : Time → ℕ → Configured → Configured → Prop
  | nil {t : Time} {w : Configured} : Turns t 0 w w
  | busy {t u : Time} {n : ℕ} {w w₁ w' : Configured} : Turn t u w w₁ → (∃ j ∈ w.sys.db.jobs.rows, j.isOver = false) →
      Turns u n w₁ w' → Turns t (n + 1) w w'
  | idle {t u : Time} {n : ℕ} {w w₁ w' : Configured} : Turn t u w w₁ → (∀ j ∈ w.sys.db.jobs.rows, j.isOver = true) →
      Turns u n w₁ w' → Turns t n w w'

theorem spent_run (h : machine.Reachable w) (hr : machine.Run w tr w') : w.sys.db.spent ≤ w'.sys.db.spent :=
  Machine.Run.rel (R := fun a b : Configured => a.sys.db.spent ≤ b.sys.db.spent) (fun _ => le_rfl)
    (fun _ _ _ => Nat.le_trans) (fun _ _ _ ha hs => Sys.spent_step_le (Sys.inv_of_reachable (sys_reachable ha)) hs.1) h hr

/-- A turn ends in a reachable state in which all is due. -/
theorem Turn.due (ht : Turn t u w w') (h : machine.Reachable w) (hd : w.sys.db.Due t) :
    machine.Reachable w' ∧ w'.sys.db.Due u := by
  obtain ⟨hrec, -, hclaim, -, -, hrun, hin, hin', hins⟩ := ht
  have htu : t ≤ u := by
    obtain ⟨hle, hle'⟩ := hin _ rfl 0
    exact hle.trans (hle'.trans (sub_le_self u (by decide)))
  have hd₂ := ((hd.mono htu).step hrec.1 hin).step hclaim.1 hin'
  refine ⟨((h.step hrec).step hclaim).run hrun, ?_⟩
  induction hrun with
  | nil => exact hd₂
  | snoc hr hs ih =>
    have hlast := hins _ (List.mem_append_right _ (List.mem_singleton_self _))
    exact (ih fun e he => hins e (List.mem_append_left _ he)).step hs.1 hlast

theorem Turn.spent_le (ht : Turn t u w w') (h : machine.Reachable w) : w.sys.db.spent ≤ w'.sys.db.spent := by
  obtain ⟨hrec, -, hclaim, -, -, hrun, -⟩ := ht
  exact spent_run h (.cons hrec (.cons hclaim hrun))

/-- **A turn that finds a job that is not over uses something up.** -/
theorem Turn.spent_lt (ht : Turn t u w w') (h : machine.Reachable w) (hd : w.sys.db.Due t)
    (hb : ∃ j ∈ w.sys.db.jobs.rows, j.isOver = false) : w.sys.db.spent < w'.sys.db.spent := by
  rcases ht with @⟨w₁, w₂, _, settings, env, env', rows, tr, hrec, hall, hclaim, hk, hfresh, hrun, hin, hin', -⟩
  have h₁ := h.step hrec
  by_cases hrunning : ∃ j ∈ w.sys.db.jobs.rows, j.status = .running
  · obtain ⟨j, hj, hs⟩ := hrunning
    have he := Job.isExpiredAt_mono ((hd j hj).2 hs) (hin _ rfl 0).1
    exact (Sys.recover_progress (sys_reachable h) hrec.1 hall hj he).trans_le (spent_run h₁ (.cons hclaim hrun))
  · -- nothing runs, so the recovery leaves every job as it is
    push Not at hrunning
    obtain ⟨j, hj, ho⟩ := hb
    have hs : j.status = .pending := by
      have hn := hrunning j hj
      unfold Job.isOver at ho
      cases hst : j.status <;> simp_all
    have hj₁ : j ∈ w₁.sys.db.jobs.rows := by
      rcases Sys.recover_step hrec.1 j.id with he | ⟨j₀, j', i, hg, -, hexp, -⟩
      · exact (Table.get_eq_some.mp (he.trans (Table.get_self hj))).1
      · exact absurd (Job.isExpiredAt_iff.mp hexp).1 (hrunning j₀ (Table.get_eq_some.mp hg).1)
    have hav := ((hd j hj).1 hs).trans (hin' _ rfl 0).1
    have hlt := claim_progress h₁ hclaim hk hfresh hj₁ hs hav
    exact (spent_run h (.one hrec)).trans_lt (hlt.trans_le (spent_run (h₁.step hclaim) hrun))

/-- **The queue empties**: turns that are made when all is due and a lease apart use up what the jobs have if they find a
job that is not over, a claim and its end each one part of it.  So there are at most six such turns for each job,
whatever the attempts do, and when all is used up every job is over. -/
theorem busy_turns (h : machine.Reachable w) (hd : w.sys.db.Due t) (ht : Turns t n w w') :
    n + w.sys.db.spent ≤ w'.sys.db.spent ∧ w'.sys.db.spent ≤ 2 * Limits.maxAttempts * w'.sys.db.jobs.rows.length ∧
      (w'.sys.db.spent = 2 * Limits.maxAttempts * w'.sys.db.jobs.rows.length ↔
        ∀ j ∈ w'.sys.db.jobs.rows, j.isOver = true) := by
  induction ht with
  | nil =>
    have hle := (Sys.inv_of_reachable (sys_reachable h)).spent_le
    exact ⟨by omega, hle⟩
  | busy hturn hb hrest ih =>
    have hlt := hturn.spent_lt h hd hb
    obtain ⟨hr, hdue⟩ := hturn.due h hd
    obtain ⟨hn, hmax⟩ := ih hr hdue
    exact ⟨by omega, hmax⟩
  | idle hturn hover hrest ih =>
    have hle := hturn.spent_le h
    obtain ⟨hr, hdue⟩ := hturn.due h hd
    obtain ⟨hn, hmax⟩ := ih hr hdue
    exact ⟨by omega, hmax⟩

end Configured

/-! ## Two jobs -/

namespace Waiting

open Sample

def first : Sys := start.exec (.ingest (env 1) request intake sha)

/-- A second incident, of another commit. -/
def both : Sys := first.exec (.ingest (env 2) request { intake with eventId := 8 } (lit "1123456789012345678901234567890123456789"))

def last : Job := newAnalyzeJob (env 2) 33

def claimed : Sys := both.exec (.claimJob settings (env 4) fun _ => false)

theorem both_reachable : Timed.machine.Reachable ⟨both, seconds 3⟩ := by
  have between : ∀ {k m n : ℕ}, seconds m ≤ seconds k → seconds k ≤ seconds n → (env k).Between (seconds m) (seconds n) :=
    fun h h' => ⟨h, fun _ _ _ => le_rfl, fun _ => h'⟩
  have h₀ : Timed.machine.Reachable ⟨start, seconds 0⟩ := .of_init ⟨_, by decide, rfl⟩
  have h₁ := h₀.step (show Timed.machine.step _ (.ingest (env 1) request intake sha) ⟨first, seconds 1⟩ from
    ⟨⟨trivial, rfl⟩, trivial, by decide, by rintro _ ⟨⟩; exact between (by decide) (by decide)⟩)
  exact h₁.step (show Timed.machine.step _ (.ingest (env 2) request _ _) ⟨both, seconds 3⟩ from
    ⟨⟨trivial, rfl⟩, trivial, by decide, by rintro _ ⟨⟩; exact between (by decide) (by decide)⟩)

/-- The first job is claimed before the second one. -/
theorem passed_by_sample : ∃ e, Timed.Passes last e ∧ (both.db.ahead last).length = 1 ∧
    [e].length ≤ (both.db.ahead last).length := by
  have hstep : Timed.machine.step ⟨both, seconds 3⟩ (.claimJob settings (env 4) fun _ => false) ⟨claimed, seconds 4⟩ :=
    ⟨⟨trivial, rfl⟩, nofun, by decide, by rintro _ ⟨⟩; exact ⟨by decide, fun _ _ _ => le_rfl, fun _ => le_rfl⟩⟩
  have hpass : Timed.Passes last ⟨⟨both, seconds 3⟩, .claimJob settings (env 4) fun _ => false, ⟨claimed, seconds 4⟩⟩ :=
    ⟨by rfl, _, _, _, ⟨18, 64, 17, .analyze, 2, 1⟩, rfl, rfl, by rfl, by decide⟩
  obtain ⟨-, -, hle⟩ := Timed.passed_by both_reachable rfl (by decide) (.one hstep) (List.Sublist.refl _)
    (List.forall_mem_singleton.mpr hpass)
  exact ⟨_, hpass, by decide, hle⟩

/-- A configured service and the job of its first incident. -/
def fresh : Configured :=
  let configured := Sys.exec ⟨Store.ofServices Table.empty, [], []⟩ (.syncServices settings fs (env 0) [(lit "api", narrowed)])
  ⟨configured.exec (.ingest (env 1) request { intake with serviceId := 0 } sha),
    Function.update (fun _ => none) (lit "api") (some narrowed)⟩

theorem fresh_reachable : Configured.machine.Reachable fresh := by
  have h₀ : Configured.machine.Reachable ⟨⟨Store.ofServices Table.empty, [], []⟩, fun _ => none⟩ := .of_init rfl
  have h₁ := h₀.step (show Configured.machine.step _ (.syncServices settings fs (env 0) [(lit "api", narrowed)])
    ⟨_, _⟩ from ⟨⟨trivial, rfl⟩, rfl⟩)
  exact h₁.step (show Configured.machine.step _ (.ingest (env 1) request { intake with serviceId := 0 } sha)
    fresh from ⟨⟨trivial, rfl⟩, rfl⟩)

/-- A turn takes the job. -/
theorem busy_turns_sample : ∃ w', Configured.Turns (seconds 2) 1 fresh w' ∧ 1 + fresh.sys.db.spent ≤ w'.sys.db.spent := by
  have within : ∀ {k : ℕ} {tx : Tx}, tx.env = some (env k) → seconds 2 ≤ seconds k ∧ seconds k ≤ leaseLimit (seconds 200) →
      tx.Within (seconds 2) (seconds 200) := by
    intro k tx htx h env' he n
    rw [htx] at he
    cases he
    exact h
  have hrec : Configured.machine.step fresh (.recoverExpired (env 2) [18])
      ⟨fresh.sys.exec (.recoverExpired (env 2) [18]), fresh.policies⟩ := ⟨⟨trivial, rfl⟩, rfl⟩
  have hclaim : Configured.machine.step ⟨fresh.sys.exec (.recoverExpired (env 2) [18]), fresh.policies⟩
      (.claimJob settings (env 3) fun _ => false)
      ⟨(fresh.sys.exec (.recoverExpired (env 2) [18])).exec (.claimJob settings (env 3) fun _ => false), fresh.policies⟩ :=
    ⟨⟨trivial, rfl⟩, rfl⟩
  have hturn := Configured.Turn.intro hrec (by decide) hclaim (fun _ => rfl) (by decide) .nil (within rfl (by decide))
    (within rfl (by decide)) (List.forall_mem_nil _)
  have hturns := Configured.Turns.busy hturn (by decide) .nil
  exact ⟨_, hturns, (Configured.busy_turns fresh_reachable (by decide) hturns).1⟩

end Waiting

end Aeh
