import Aeh.JobStep

/-!
# Lease — one owner for each job

The workers share one clock and draw fresh claim tokens: `Timed.machine`.  From what a transaction can do to a
job follow who owns a running job (`Sys.Owned`), that calls with a claim that is not current or whose lease
is over change nothing, that a job ends once and for all, and that a worker which renews its lease in time
is never taken for dead.
-/

namespace Aeh

/-! ## The owner of a job -/

/-- The claim is current: its job runs with its token. -/
def Store.Current (db : Store) (c : Claim) : Prop := ∃ j, db.jobs.get c.jobId = some j ∧ j.heldBy c = true

instance (db : Store) (c : Claim) : Decidable (db.Current c) :=
  inferInstanceAs (Decidable (∃ j ∈ db.jobs.get c.jobId, j.heldBy c = true))

/-- The claim a transaction is called with. -/
def Tx.claim : Tx → Option Claim
  | .heartbeat _ claim | .markValidating claim | .finalize _ claim _ _ => some claim
  | .ingest .. | .approve .. | .syncServices .. | .claimJob .. | .recoverExpired .. => none

/-- The newest claim of a job. -/
def Sys.latestClaim (s : Sys) (jobId : Uuid) : Option Claim := s.issued.find? fun c => c.jobId = jobId

namespace Sys

/-- **A call with a claim that is not current changes nothing.** -/
theorem stale_step {s s' : Sys} {tx : Tx} (h : machine.step s tx s') {c : Claim} (hc : tx.claim = some c)
    (hn : ¬ s.db.Current c) : s'.db = s.db := by
  obtain ⟨-, rfl⟩ := h
  have none_holds : ∀ {j}, j ∈ s.db.jobs.rows → j.heldBy c = true → False := fun hj hh =>
    hn ⟨_, Table.get_eq_some.mpr ⟨hj, (heldBy_iff.mp hh).1⟩, hh⟩
  cases tx with
  | heartbeat env claim =>
    cases hc
    refine settle_ok (P := fun db => db = s.db) rfl fun r db' hr => ?_
    rcases heartbeat_ok hr with ⟨-, he⟩ | ⟨job, hj, hh, -⟩
    · exact he
    · exact (none_holds hj hh).elim
  | markValidating claim =>
    cases hc
    simp only [exec]
    split
    · rename_i hm
      obtain ⟨job, inc, patch, db₁, hj, hh, -⟩ := markValidating_ok hm
      exact (none_holds (Table.get_eq_some.mp hj).1 hh).elim
    · rfl
  | finalize env claim outcome version =>
    cases hc
    refine settle_ok (P := fun db => db = s.db) rfl fun r db' hr => ?_
    rcases finalize_ok hr with ⟨-, he⟩ | ⟨job, inc, hj, hh, -⟩
    · exact he
    · exact (none_holds (Table.get_eq_some.mp hj).1 hh).elim
  | ingest | approve | syncServices | claimJob | recoverExpired => cases hc

theorem leaseAt_of_old {j : Job} {l t : Time} (hl : j.lockedAt = some l)
    (ho : l + seconds Limits.leaseSeconds ≤ t) : j.leaseAt t = false := by
  unfold Job.leaseAt
  rw [hl, Option.any_some, decide_eq_false_iff_not, not_lt]
  exact Int.le_sub_right_of_add_le ho

/-- **A heartbeat or an outcome that comes after the lease changes nothing.** -/
theorem late_step {s s' : Sys} {tx : Tx} (h : machine.step s tx s') {env : Env} {c : Claim}
    (htx : tx = .heartbeat env c ∨ ∃ outcome version, tx = .finalize env c outcome version) {j : Job} {l : Time}
    (hj : s.db.jobs.get c.jobId = some j) (hl : j.lockedAt = some l)
    (ho : l + seconds Limits.leaseSeconds ≤ env.now 0) : s'.db = s.db := by
  obtain ⟨-, rfl⟩ := h
  have hover := leaseAt_of_old hl ho
  rcases htx with rfl | ⟨outcome, version, rfl⟩
  · refine settle_ok (P := fun db => db = s.db) rfl fun r db' hr => ?_
    rcases heartbeat_ok hr with ⟨-, he⟩ | ⟨job, hm, hh, hlease, -⟩
    · exact he
    · have hg : s.db.jobs.get c.jobId = some job := Table.get_eq_some.mpr ⟨hm, (heldBy_iff.mp hh).1⟩
      obtain rfl := Option.some.inj (hj.symm.trans hg)
      cases hover.symm.trans hlease
  · refine settle_ok (P := fun db => db = s.db) rfl fun r db' hr => ?_
    rcases finalize_ok hr with ⟨-, he⟩ | ⟨job, inc, hg, -, hlease, -⟩
    · exact he
    · obtain rfl := Option.some.inj (hj.symm.trans hg)
      cases hover.symm.trans hlease

/-- A claim is issued with a token no claim had before. -/
def Fresh (s : Sys) : Tx → Prop
  | .claimJob _ env _ => ∀ c ∈ s.issued, c.token ≠ env.uuid 0
  | _ => True

/-- Claims differ in their tokens, and a running job has the token of its newest claim. -/
structure Owned (s : Sys) : Prop where
  distinct : (s.issued.map Claim.token).Nodup
  latest : ∀ x j, s.db.jobs.get x = some j → j.status = .running →
    ∃ c, s.latestClaim x = some c ∧ j.claimToken = some c.token

/-- A claim that a transaction uses has been issued. -/
theorem issued_of_claim {s s' : Sys} {tx : Tx} (h : machine.step s tx s') {c : Claim} (hc : tx.claim = some c) :
    c ∈ s.issued := by
  obtain ⟨hallows, -⟩ := h
  cases tx <;> cases hc <;> exact hallows

/-- A job has one holder. -/
theorem Owned.holder_unique {s : Sys} (ho : s.Owned) {j : Job} {c c' : Claim} (hc : c ∈ s.issued) (hc' : c' ∈ s.issued)
    (hh : j.heldBy c = true) (hh' : j.heldBy c' = true) : c = c' := by
  have htok : c.token = c'.token := Option.some.inj ((heldBy_iff.mp hh).2.1.symm.trans (heldBy_iff.mp hh').2.1)
  exact List.inj_on_of_nodup_map ho.distinct hc hc' htok

theorem Owned.init {s : Sys} (h : Start s) : s.Owned := by
  obtain ⟨services, -, rfl⟩ := h
  exact ⟨List.nodup_nil, fun _ _ hj _ => (List.not_mem_nil (Table.get_eq_some.mp hj).1).elim⟩

theorem issued_of_not_claim {s s' : Sys} {tx : Tx} (h : machine.step s tx s')
    (hn : ∀ settings env skip, tx ≠ .claimJob settings env skip) : s'.issued = s.issued := by
  rcases issued_step h with he | ⟨settings, env, skip, c, rfl, -⟩
  · exact he
  · exact absurd rfl (hn settings env skip)

/-- A step that issues no claim keeps the owners. -/
theorem Owned.of_issued {s s' : Sys} {tx : Tx} (ho : s.Owned) (h : machine.step s tx s')
    (hn : ∀ settings env skip, tx ≠ .claimJob settings env skip) : s'.Owned := by
  have hi := issued_of_not_claim h hn
  refine ⟨hi ▸ ho.distinct, fun x j' hj' hs => ?_⟩
  have hstep := job_step h x
  rw [hj'] at hstep
  unfold latestClaim
  rw [hi]
  generalize hj : s.db.jobs.get x = o at hstep
  cases hstep with
  | same => exact ho.latest x j' hj hs
  | created _ hp => cases hp.symm.trans hs
  | claimed j htx => exact absurd htx (hn _ _ _)
  | renewed j _ hh => exact ho.latest x j hj (heldBy_iff.mp hh).2.2
  | expired j _ _ _ hf => exact absurd hs hf.not_running
  | finished j _ _ _ _ hf => exact absurd hs hf.not_running

theorem Owned.step {s s' : Sys} {tx : Tx} (ho : s.Owned) (h : machine.step s tx s') (hf : s.Fresh tx) : s'.Owned := by
  cases tx with
  | claimJob settings env skip =>
    rcases claim_step h with rfl | ⟨job, c, hj, hs, -, hid, htok, -, hi, hjobs⟩
    · exact ho
    · refine ⟨?_, fun x j' hj' hs' => ?_⟩
      · rw [hi, List.map_cons, List.nodup_cons]
        refine ⟨fun hm => ?_, ho.distinct⟩
        obtain ⟨c', hc', he⟩ := List.mem_map.mp hm
        exact hf c' hc' (he.trans htok)
      · unfold latestClaim
        rw [hi]
        rw [hjobs] at hj'
        by_cases hx : x = job.id
        · have hg : s.db.jobs.get job.id = some job := Table.get_self hj
          have hput : (s.db.jobs.put (job.claimed (env.uuid 0) settings.workerId (env.now 1))).get job.id = some _ :=
            Table.get_put_self (x := job.claimed (env.uuid 0) settings.workerId (env.now 1)) hg
          rw [hx, hput] at hj'
          cases hj'
          refine ⟨c, ?_, congrArg some htok.symm⟩
          rw [List.find?_cons_of_pos]
          simpa [hid] using hx.symm
        · have hput : (s.db.jobs.put (job.claimed (env.uuid 0) settings.workerId (env.now 1))).get x =
              s.db.jobs.get x := Table.get_put_ne hx
          rw [hput] at hj'
          rw [List.find?_cons_of_neg]
          · exact ho.latest x j' hj' hs'
          · simpa [hid] using fun he : job.id = x => hx he.symm
  | _ => exact ho.of_issued h nofun

/-- The current claim of a job is its newest one. -/
theorem Owned.latest_of_current {s : Sys} (ho : s.Owned) {c : Claim} (hc : c ∈ s.issued) (hcur : s.db.Current c) :
    s.latestClaim c.jobId = some c := by
  obtain ⟨j, hj, hh⟩ := hcur
  obtain ⟨-, htok, hs⟩ := heldBy_iff.mp hh
  obtain ⟨c', hc', htok'⟩ := ho.latest _ j hj hs
  have he : c'.token = c.token := Option.some.inj (htok'.symm.trans htok)
  have hm : c' ∈ s.issued := List.mem_of_find?_eq_some hc'
  rw [hc', List.inj_on_of_nodup_map ho.distinct hm hc he]

/-- A claim that has been lost is lost for good. -/
theorem Owned.not_current_step {s s' : Sys} {tx : Tx} (h : machine.step s tx s') (hf : s.Fresh tx)
    {c : Claim} (hc : c ∈ s.issued) (hn : ¬ s.db.Current c) : ¬ s'.db.Current c := by
  rintro ⟨j', hj', hh'⟩
  obtain ⟨hid, htok, hs⟩ := heldBy_iff.mp hh'
  have hstep := job_step h c.jobId
  rw [hj'] at hstep
  generalize hj : s.db.jobs.get c.jobId = o at hstep
  cases hstep with
  | same => exact hn ⟨j', hj, hh'⟩
  | created _ hp => cases hp.symm.trans hs
  | claimed j htx =>
    subst htx
    exact hf c hc (Option.some.inj htok).symm
  | renewed j _ hh =>
    exact hn ⟨j, hj, heldBy_iff.mpr ⟨hid, htok, hs⟩⟩
  | expired j _ _ _ hfr => exact hfr.not_running hs
  | finished j _ _ _ _ hfr => exact hfr.not_running hs

end Sys

/-! ## Workers on one clock -/

/-- The system and the time its transactions have reached. -/
structure Timed where
  sys : Sys
  clock : Time

/-- The readings of a transaction on a clock that goes from `c` to `c'`. -/
def Env.Between (env : Env) (c c' : Time) : Prop := c ≤ env.now 0 ∧ Monotone env.now ∧ ∀ k, env.now k ≤ c'

/-- A step of a run makes job `x` over. -/
def Timed.Ends (x : Uuid) (e : Entry Timed Tx) : Prop :=
  (∀ j, e.pre.sys.db.jobs.get x = some j → j.isOver = false) ∧ ∃ j, e.post.sys.db.jobs.get x = some j ∧ j.isOver = true

/-- From the renewal at `l` on, the heartbeats with `c` in the run renew its lease at gaps shorter than the lease,
the last one less than a lease before the end of the run. -/
def Timed.Renewed (c : Claim) : Time → List (Entry Timed Tx) → Time → Prop
  | l, [], t => t < l + seconds Limits.leaseSeconds
  | l, e :: tr, t =>
    match e.label with
    | .heartbeat env c' =>
      if c' = c then env.now 1 < l + seconds Limits.leaseSeconds ∧ Renewed c (env.now 1) tr t else Renewed c l tr t
    | _ => Renewed c l tr t

namespace Timed

def machine : Machine Timed Tx where
  init t := Sys.Start t.sys
  step t tx t' := Sys.machine.step t.sys tx t'.sys ∧ t.sys.Fresh tx ∧ t.clock ≤ t'.clock ∧
    ∀ env ∈ tx.env, env.Between t.clock t'.clock

variable {t t' : Timed} {tr : List (Entry Timed Tx)}

theorem reachable_sys (h : machine.Reachable t) : Sys.machine.Reachable t.sys :=
  Machine.Reachable.map (M := Sys.machine) (N := machine) Timed.sys (fun _ h => h) (fun _ _ _ h hs => h.step hs.1) h

theorem owned_of_reachable (h : machine.Reachable t) : t.sys.Owned :=
  h.invariant (I := fun t => t.sys.Owned) (fun _ h₀ => .init h₀) fun _ _ _ ho hs => ho.step hs.1 hs.2.1

theorem inv_of_reachable (h : machine.Reachable t) : t.sys.Inv := Sys.inv_of_reachable (reachable_sys h)

/-- A job that is over stays as it is, with its run. -/
theorem over_of_run (h : machine.Reachable t) (hr : machine.Run t tr t') {x : Uuid} {j : Job}
    (hj : t.sys.db.jobs.get x = some j) (ho : j.isOver = true) :
    t'.sys.db.jobs.get x = some j ∧ t'.sys.db.runOf j = t.sys.db.runOf j := by
  refine Machine.Run.stable (P := fun u : Timed => u.sys.db.jobs.get x = some j ∧
    u.sys.db.runOf j = t.sys.db.runOf j) ?_ h ⟨hj, rfl⟩ hr
  rintro u tx u' hu ⟨hj, hrun⟩ hs
  have hstep := Sys.job_step hs.1 x
  rw [hj] at hstep
  exact ⟨hstep.of_isOver ho,
    (Sys.runOf_of_isOver (inv_of_reachable hu) hs.1 (Table.get_eq_some.mp hj).1 ho).trans hrun⟩

/-- At most one step of a run makes a job over. -/
theorem ends_once (h : machine.Reachable t) (hr : machine.Run t tr t') (x : Uuid) :
    tr.Pairwise fun e e' => ¬ (Ends x e ∧ Ends x e') := by
  refine Machine.Run.once (P := fun u : Timed => ∃ j, u.sys.db.jobs.get x = some j ∧ j.isOver = true) ?_ ?_ ?_ h hr
  · rintro u tx u' hu ⟨j, hj, ho⟩ hs
    exact ⟨j, (over_of_run hu (Machine.Run.one hs) hj ho).1, ho⟩
  · rintro e - - he ⟨j, hj, ho⟩
    rw [he.1 j hj] at ho
    cases ho
  · intro e _ _ he
    exact he.2

/-- A job becomes over by the recovery of its expired lease or by an outcome of its newest claim. -/
theorem ends_by (h : machine.Reachable t) {tx : Tx} (hs : machine.step t tx t') {x : Uuid} (he : Ends x ⟨t, tx, t'⟩) :
    (∃ env rows, tx = .recoverExpired env rows) ∨ ∃ env c outcome version, tx = .finalize env c outcome version ∧
      c.jobId = x ∧ t.sys.latestClaim x = some c := by
  obtain ⟨hpre, j', hj', ho⟩ := he
  have hstep := Sys.job_step hs.1 x
  rw [hj'] at hstep
  generalize hj : t.sys.db.jobs.get x = o at hstep
  cases hstep with
  | same => cases (hpre j' hj).symm.trans ho
  | created _ hp => cases (j'.not_isOver (Or.inl hp)).symm.trans ho
  | claimed j => cases (Job.not_isOver (Or.inr rfl)).symm.trans ho
  | renewed j _ hh => cases (Job.not_isOver (Or.inr (heldBy_iff.mp hh).2.2)).symm.trans ho
  | @expired env rows j _ htx => exact Or.inl ⟨env, rows, htx⟩
  | @finished env c outcome version j _ htx hh =>
    have hid : c.jobId = x := (heldBy_iff.mp hh).1.symm.trans (Table.get_eq_some.mp hj).2
    have hc : c ∈ t.sys.issued := Sys.issued_of_claim hs.1 (by rw [htx]; rfl)
    subst hid
    exact Or.inr ⟨env, c, outcome, version, htx, rfl, (owned_of_reachable h).latest_of_current hc ⟨j, hj, hh⟩⟩

/-! ### Renewals in time -/

theorem Renewed.clock_lt {c : Claim} (hr : machine.Run t tr t') {l : Time} (h : Renewed c l tr t'.clock) :
    t.clock < l + seconds Limits.leaseSeconds := by
  induction tr generalizing t l with
  | nil =>
    rw [hr.nil_eq] at h
    exact h
  | cons e tr ih =>
    obtain ⟨rfl, hs, hr₁⟩ := hr.head
    have rest : ∀ {l}, Renewed c l tr t'.clock → e.pre.clock < l + seconds Limits.leaseSeconds :=
      fun h => lt_of_le_of_lt hs.2.2.1 (ih hr₁ h)
    unfold Renewed at h
    split at h
    · rename_i env c' hl
      split at h
      · obtain ⟨h0, hmono, -⟩ := hs.2.2.2 env (by rw [hl]; rfl)
        exact lt_of_le_of_lt (h0.trans (hmono (Nat.zero_le 1))) h.1
      · exact rest h
    · exact rest h

/-- Before its lease is over a current claim renews it. -/
theorem heartbeat_renews {db : Store} {env : Env} {c : Claim} {j : Job} (hj : db.jobs.get c.jobId = some j)
    (hh : j.heldBy c = true) (hl : j.leaseAt (env.now 0) = true) :
    heartbeat env c db = .ok (true, db.putJob (j.renewed (env.now 1))) := by
  obtain ⟨hm, hid⟩ := Table.get_eq_some.mp hj
  have hfirst : (db.jobs.first fun j => j.heldBy c && j.leaseAt (env.now 0)) = some j := by
    refine Table.first_eq_of_unique hm (by rw [hh, hl]; rfl) fun y hy hp => ?_
    have hy' := (heldBy_iff.mp (Bool.and_eq_true_iff.mp hp).1).1
    exact Table.eq_of_key hy hm (hy'.trans hid.symm)
  unfold heartbeat
  rw [hfirst]

/-- A heartbeat in time sets the lease of the job if the claim still holds it. -/
theorem lease_of_heartbeat {c : Claim} {env : Env} (hs : machine.step t (.heartbeat env c) t') {l : Time}
    (hc : c ∈ t.sys.issued) (hl : ∀ j, t.sys.db.jobs.get c.jobId = some j → j.heldBy c = true → j.lockedAt = some l)
    (hgap : env.now 1 < l + seconds Limits.leaseSeconds) :
    ∀ j, t'.sys.db.jobs.get c.jobId = some j → j.heldBy c = true → j.lockedAt = some (env.now 1) := by
  intro j' hj' hh'
  by_cases hcur : t.sys.db.Current c
  · obtain ⟨j, hj, hh⟩ := hcur
    obtain ⟨-, hmono, -⟩ := hs.2.2.2 env rfl
    have hlease : j.leaseAt (env.now 0) = true := by
      unfold Job.leaseAt
      rw [hl j hj hh, Option.any_some, decide_eq_true_eq]
      exact Int.sub_right_lt_of_lt_add (lt_of_le_of_lt (hmono (Nat.zero_le 1)) hgap)
    have hdb : t'.sys.db = t.sys.db.putJob (j.renewed (env.now 1)) := by
      rw [hs.1.2]
      show settle (heartbeat env c t.sys.db) t.sys.db = _
      rw [heartbeat_renews hj hh hlease]
      rfl
    have hid := (Table.get_eq_some.mp hj).2
    have hget : (t.sys.db.jobs.put (j.renewed (env.now 1))).get j.id = some (j.renewed (env.now 1)) :=
      Table.get_put_self (x := j.renewed (env.now 1)) (hid.symm ▸ hj)
    rw [hdb] at hj'
    obtain rfl := Option.some.inj (hget.symm.trans (hid.symm ▸ hj'))
    rfl
  · exact absurd ⟨j', hj', hh'⟩ (Sys.Owned.not_current_step hs.1 hs.2.1 hc hcur)

/-- Any other step leaves the lease of a claim as it is while the claim holds the job. -/
theorem lease_of_step {tx : Tx} {c : Claim} (ho : t.sys.Owned) (hs : machine.step t tx t') {l : Time}
    (hc : c ∈ t.sys.issued) (hl : ∀ j, t.sys.db.jobs.get c.jobId = some j → j.heldBy c = true → j.lockedAt = some l)
    (hne : ∀ env, tx ≠ .heartbeat env c) :
    ∀ j, t'.sys.db.jobs.get c.jobId = some j → j.heldBy c = true → j.lockedAt = some l := by
  intro j' hj' hh'
  obtain ⟨-, htok, hrun⟩ := heldBy_iff.mp hh'
  by_cases hcur : t.sys.db.Current c
  · obtain ⟨j, hj, hh⟩ := hcur
    have hstep := Sys.job_step hs.1 c.jobId
    rw [hj, hj'] at hstep
    cases hstep with
    | same => exact hl _ hj hh
    | claimed _ _ hp => cases hp.symm.trans (heldBy_iff.mp hh).2.2
    | @renewed env c' _ htx hh₁ =>
      -- the claim of the heartbeat has the same token
      have hc' : c' ∈ t.sys.issued := Sys.issued_of_claim hs.1 (by rw [htx]; rfl)
      obtain rfl := ho.holder_unique hc' hc hh₁ hh
      exact absurd htx (hne env)
    | expired _ _ _ _ hf => exact absurd hrun hf.not_running
    | finished _ _ _ _ _ hf => exact absurd hrun hf.not_running
  · exact absurd ⟨j', hj', hh'⟩ (Sys.Owned.not_current_step hs.1 hs.2.1 hc hcur)

/-- A recovery that comes less than a lease after the last renewal passes over the job. -/
theorem recover_passes {env : Env} {rows : List Uuid} {c : Claim} (hs : machine.step t (.recoverExpired env rows) t')
    {l : Time} (hl : ∀ j, t.sys.db.jobs.get c.jobId = some j → j.heldBy c = true → j.lockedAt = some l)
    (hclock : t'.clock < l + seconds Limits.leaseSeconds) (hcur : t.sys.db.Current c) :
    t'.sys.db.jobs.get c.jobId = t.sys.db.jobs.get c.jobId := by
  obtain ⟨j, hj, hh⟩ := hcur
  have hstep := Sys.job_step hs.1 c.jobId
  rw [hj] at hstep ⊢
  generalize t'.sys.db.jobs.get c.jobId = o at hstep
  cases hstep with
  | same => rfl
  | claimed _ htx | renewed _ htx | finished _ _ htx => cases htx
  | expired _ _ htx he =>
    cases htx
    obtain ⟨-, -, hle⟩ := hs.2.2.2 env rfl
    simp only [Job.isExpiredAt, hl j hj hh, Option.any_some, Bool.and_eq_true, decide_eq_true_eq] at he
    have hold : l + seconds Limits.leaseSeconds ≤ env.now 0 := Int.add_le_of_le_sub_right he.2
    exact absurd (lt_of_le_of_lt (hold.trans (hle 0)) hclock) (lt_irrefl _)

/-- **A claim renewed in time is never recovered.** -/
theorem Renewed.not_recovered {c : Claim} (h : machine.Reachable t) (hr : machine.Run t tr t') (hc : c ∈ t.sys.issued)
    {l : Time} (hl : ∀ j, t.sys.db.jobs.get c.jobId = some j → j.heldBy c = true → j.lockedAt = some l)
    (hren : Renewed c l tr t'.clock) : ∀ e ∈ tr, (∃ env rows, e.label = .recoverExpired env rows) →
      e.pre.sys.db.Current c → e.post.sys.db.jobs.get c.jobId = e.pre.sys.db.jobs.get c.jobId := by
  induction tr generalizing t l with
  | nil => exact fun _ he => (List.not_mem_nil he).elim
  | cons e tr ih =>
    obtain ⟨rfl, hs, hr₁⟩ := hr.head
    obtain ⟨pre, label, post⟩ := e
    have hc₁ : c ∈ post.sys.issued := by
      rcases Sys.issued_step hs.1 with hi | ⟨_, _, _, _, -, -, hi⟩
      · exact hi ▸ hc
      · exact hi ▸ List.mem_cons_of_mem _ hc
    -- unless the step is a heartbeat with the claim, its renewal stays the last one
    have other : (∀ env, label ≠ .heartbeat env c) → Renewed c l tr t'.clock →
        ∀ e ∈ (⟨pre, label, post⟩ :: tr : List (Entry Timed Tx)), (∃ env rows, e.label = .recoverExpired env rows) →
          e.pre.sys.db.Current c → e.post.sys.db.jobs.get c.jobId = e.pre.sys.db.jobs.get c.jobId := by
      intro hne hren e he
      rcases List.mem_cons.mp he with rfl | he
      · rintro ⟨env, rows, rfl⟩ hcur
        exact recover_passes hs hl (hren.clock_lt hr₁) hcur
      · exact ih (h.step hs) hr₁ hc₁ (lease_of_step (owned_of_reachable h) hs hc hl hne) hren e he
    unfold Renewed at hren
    split at hren
    · rename_i env c' heq
      obtain rfl : label = .heartbeat env c' := heq
      split at hren
      · rename_i hcc
        subst hcc
        intro e he
        rcases List.mem_cons.mp he with rfl | he
        · rintro ⟨_, _, h⟩
          cases h
        · exact ih (h.step hs) hr₁ hc₁ (lease_of_heartbeat hs hc hl hren.1) hren.2 e he
      · rename_i hcc
        exact other (fun env h => hcc (Tx.heartbeat.inj h).2) hren
    · rename_i hno
      exact other (fun env h => hno env c h) hren

/-- **Claims, leases and the end of a job**, in every run of workers on one clock with fresh tokens: at most one
issued claim of a job is current; calls with a claim that is not current, and heartbeats and outcomes that come
when the lease is over, change nothing; a job becomes over at most once, by the recovery of its lease or an
outcome of its newest claim, and stays as it is with its run from then on; a claim renewed in time is never
recovered. -/
theorem leases (h : machine.Reachable t) (hr : machine.Run t tr t') :
    (∀ c ∈ t'.sys.issued, ∀ c' ∈ t'.sys.issued, c.jobId = c'.jobId → t'.sys.db.Current c → t'.sys.db.Current c' →
      c = c') ∧
    (∀ e ∈ tr, ∀ c, e.label.claim = some c → ¬ e.pre.sys.db.Current c → e.post.sys.db = e.pre.sys.db) ∧
    (∀ e ∈ tr, ∀ env c,
      (e.label = .heartbeat env c ∨ ∃ outcome version, e.label = .finalize env c outcome version) →
      ∀ j l, e.pre.sys.db.jobs.get c.jobId = some j → j.lockedAt = some l →
        l + seconds Limits.leaseSeconds ≤ env.now 0 → e.post.sys.db = e.pre.sys.db) ∧
    (∀ x, tr.Pairwise (fun e e' => ¬ (Ends x e ∧ Ends x e')) ∧
      (∀ e ∈ tr, Ends x e → (∃ env rows, e.label = .recoverExpired env rows) ∨
        ∃ env c outcome version, e.label = .finalize env c outcome version ∧ c.jobId = x ∧
          e.pre.sys.latestClaim x = some c) ∧
      tr.Pairwise (fun e e' => Ends x e → ∀ j, e.post.sys.db.jobs.get x = some j →
        e'.post.sys.db.jobs.get x = some j ∧ e'.post.sys.db.runOf j = e.post.sys.db.runOf j)) ∧
    (∀ c ∈ t.sys.issued, ∀ l, (∀ j, t.sys.db.jobs.get c.jobId = some j → j.heldBy c = true → j.lockedAt = some l) →
      Renewed c l tr t'.clock → ∀ e ∈ tr, (∃ env rows, e.label = .recoverExpired env rows) →
        e.pre.sys.db.Current c → e.post.sys.db.jobs.get c.jobId = e.pre.sys.db.jobs.get c.jobId) := by
  refine ⟨fun c hc c' hc' hjob hcur hcur' => ?_, fun e he c hc hn => ?_, fun e he env c htx j l hj hl ho => ?_,
    fun x => ⟨ends_once h hr x, fun e he hx => ?_, ?_⟩, fun c hc l hl hren => ?_⟩
  · have howned := owned_of_reachable (h.run hr)
    have h1 := howned.latest_of_current hc hcur
    have h2 := howned.latest_of_current hc' hcur'
    rw [hjob] at h1
    exact Option.some.inj (h1.symm.trans h2)
  · exact Sys.stale_step (hr.step_of_mem he).1 hc hn
  · exact Sys.late_step (hr.step_of_mem he).1 htx hj hl ho
  · exact ends_by (h.pre_of_mem hr he) (hr.step_of_mem he) hx
  · refine Machine.Run.pairwise (fun e e' tr' hpre hs hr' hs' => ?_) h hr
    intro hx j hj
    obtain ⟨j', hj', ho⟩ := hx.2
    obtain rfl := Option.some.inj (hj.symm.trans hj')
    exact over_of_run (hpre.step hs) (.snoc hr' hs') hj ho
  · exact hren.not_recovered h hr hc hl

theorem sample_step {s : Sys} {tx : Tx} {c k : ℕ} (ha : s.allows tx) (hf : s.Fresh tx) (hk : c ≤ k)
    (he : tx.env = some (Sample.env k)) : machine.step ⟨s, seconds c⟩ tx ⟨s.exec tx, seconds k⟩ := by
  have hck : seconds c ≤ seconds k := Int.mul_le_mul_of_nonneg_left (Int.ofNat_le.mpr hk) (by decide)
  refine ⟨⟨ha, rfl⟩, hf, hck, fun env henv => ?_⟩
  obtain rfl : Sample.env k = env := Option.some.inj (he.symm.trans henv)
  exact ⟨hck, fun _ _ _ => le_rfl, fun _ => le_rfl⟩

/-- A claim of second 2 whose lease is renewed at second 100 is not recovered at second 200. -/
theorem leases_sample : ∃ t t' tr, machine.Reachable t ∧ machine.Run t tr t' ∧ t'.clock = seconds 200 ∧
    t.sys.db.Current Sample.analyzeClaim ∧ tr.length = 2 ∧
    ∀ e ∈ tr, (∃ env rows, e.label = .recoverExpired env rows) → e.pre.sys.db.Current Sample.analyzeClaim →
      e.post.sys.db.jobs.get 18 = e.pre.sys.db.jobs.get 18 := by
  have h₁ : machine.step ⟨Sample.start, seconds 0⟩ (.ingest (Sample.env 1) Sample.request Sample.intake Sample.sha)
      ⟨Sample.after 1, seconds 1⟩ := sample_step trivial trivial (by decide) rfl
  have h₂ : machine.step ⟨Sample.after 1, seconds 1⟩ (.claimJob Sample.settings (Sample.env 2) fun _ => false)
      ⟨Sample.after 2, seconds 2⟩ := sample_step trivial (by intro c hc; exact (List.not_mem_nil hc).elim) (by decide) rfl
  have h₃ : machine.step ⟨Sample.after 2, seconds 2⟩ (.heartbeat (Sample.env 100) Sample.analyzeClaim)
      ⟨(Sample.after 2).exec (.heartbeat (Sample.env 100) Sample.analyzeClaim), seconds 100⟩ :=
    sample_step (show Sample.analyzeClaim ∈ (Sample.after 2).issued by decide) trivial (by decide) rfl
  have h₄ : machine.step ⟨(Sample.after 2).exec (.heartbeat (Sample.env 100) Sample.analyzeClaim), seconds 100⟩
      (.recoverExpired (Sample.env 200) [18]) ⟨_, seconds 200⟩ := sample_step trivial trivial (by decide) rfl
  have h : machine.Reachable ⟨Sample.after 2, seconds 2⟩ :=
    ((Machine.Reachable.of_init (M := machine) ⟨_, by decide, rfl⟩).step h₁).step h₂
  have hr := (Machine.Run.one h₃).append (Machine.Run.one h₄)
  refine ⟨_, _, _, h, hr, rfl, by decide, rfl, ?_⟩
  refine (leases h hr).2.2.2.2 Sample.analyzeClaim (by decide) (seconds 2) (by decide) ?_
  exact ⟨by decide, show seconds 200 < seconds 100 + seconds Limits.leaseSeconds by decide⟩

end Timed

end Aeh
