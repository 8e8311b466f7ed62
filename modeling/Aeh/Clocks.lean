import Mathlib.Tactic.Linarith
import Aeh.Lease
import Aeh.Progress

/-!
# Clocks — workers on hosts whose clocks differ

Every host reads its own clock, a fixed offset ahead of the database clock, and `locked_at` is compared with it.  A
claim is used on the host that got it, so that the owner's own arithmetic is right (`Hosted.Placed`); a recovery
compares the owner's clock with its own, and takes a lease too early exactly if its clock is ahead by what is left of
the lease.
-/

namespace Aeh

/-! ## Transactions of a host -/

/-- The readings of a clock that is `d` ahead. -/
def Env.ahead (env : Env) (d : Time) : Env := { env with now := fun k => env.now k + d }

/-- The transaction on a host whose clock is `d` ahead. -/
def Tx.ahead (d : Time) : Tx → Tx
  | .ingest env request intake sha => .ingest (env.ahead d) request intake sha
  | .approve env incidentId key => .approve (env.ahead d) incidentId key
  | .syncServices settings fs env policies => .syncServices settings fs (env.ahead d) policies
  | .claimJob settings env skip => .claimJob settings (env.ahead d) skip
  | .heartbeat env claim => .heartbeat (env.ahead d) claim
  | .recoverExpired env rows => .recoverExpired (env.ahead d) rows
  | .markValidating claim => .markValidating claim
  | .finalize env claim outcome version => .finalize (env.ahead d) claim outcome version

/-- When leases were last set, on the database clock, after a transaction on a host whose clock is `d` ahead. -/
def Tx.renews (d : Time) (tx : Tx) (db : Store) (renewedAt : Uuid → Time) : Uuid → Time :=
  match tx with
  | .claimJob settings env skip =>
    match Aeh.claimJob settings (env.ahead d) skip db with
    | .ok (some c, _) => Function.update renewedAt c.jobId (env.now 1)
    | _ => renewedAt
  | .heartbeat env c =>
    match Aeh.heartbeat (env.ahead d) c db with
    | .ok (true, _) => Function.update renewedAt c.jobId (env.now 1)
    | _ => renewedAt
  | _ => renewedAt

/-- The system on the database clock, the host each claim was issued on and the moment each lease was last set. -/
structure Hosted (host : Type) where
  sys : Sys
  clock : Time
  home : Claim → host
  renewedAt : Uuid → Time

namespace Hosted

variable {host : Type}

/-- A transaction on a host; the readings of `l.2` are on the database clock. -/
structure Step (offset : host → Time) (w : Hosted host) (l : host × Tx) (w' : Hosted host) : Prop where
  sys : Sys.machine.step w.sys (l.2.ahead (offset l.1)) w'.sys
  fresh : w.sys.Fresh (l.2.ahead (offset l.1))
  clock : w.clock ≤ w'.clock
  readings : ∀ env ∈ l.2.env, env.Between w.clock w'.clock
  -- a claim is used by the process that got it
  own : ∀ c, l.2.claim = some c → w.home c = l.1
  kept : ∀ c ∈ w.sys.issued, w'.home c = w.home c
  placed : ∀ c ∈ w'.sys.issued, c ∉ w.sys.issued → w'.home c = l.1
  renewals : w'.renewedAt = l.2.renews (offset l.1) w.sys.db w.renewedAt

def machine (offset : host → Time) : Machine (Hosted host) (host × Tx) where
  init w := Sys.Start w.sys
  step := Step offset

variable {offset : host → Time} {w w' : Hosted host} {l : host × Tx}

theorem reachable_sys (h : (machine offset).Reachable w) : Sys.machine.Reachable w.sys :=
  Machine.Reachable.map (M := Sys.machine) (N := machine offset) Hosted.sys (fun _ h => h)
    (fun _ _ _ h hs => h.step hs.sys) h

theorem owned_of_reachable (h : (machine offset).Reachable w) : w.sys.Owned :=
  h.invariant (I := fun w => w.sys.Owned) (fun _ h₀ => .init h₀) fun _ _ _ ho hs => ho.step hs.sys hs.fresh

/-! ## What `locked_at` holds -/

/-- A running job is locked at the moment of its last renewal, as the host of its owner reads it. -/
def Placed (offset : host → Time) (w : Hosted host) : Prop :=
  ∀ x j, w.sys.db.jobs.get x = some j → j.status = .running →
    ∃ c ∈ w.sys.issued, j.heldBy c = true ∧ j.lockedAt = some (w.renewedAt x + offset (w.home c))

/-- A job whose row and renewal stay. -/
theorem Placed.keep (hp : w.Placed offset) (hs : Step offset w l w') {x : Uuid} {j : Job}
    (hj : w.sys.db.jobs.get x = some j) (hrun : j.status = .running) (hren : w'.renewedAt x = w.renewedAt x) :
    ∃ c ∈ w'.sys.issued, j.heldBy c = true ∧ j.lockedAt = some (w'.renewedAt x + offset (w'.home c)) := by
  obtain ⟨c, hc, hheld, hlock⟩ := hp x j hj hrun
  refine ⟨c, ?_, hheld, by rw [hren, hs.kept c hc]; exact hlock⟩
  rcases Sys.issued_step hs.sys with he | ⟨_, _, _, _, -, -, he⟩
  · exact he ▸ hc
  · exact he ▸ List.mem_cons_of_mem _ hc

theorem Placed.claim {settings : Settings} {env : Env} {skip : Uuid → Bool} {h : host} (hp : w.Placed offset)
    (hs : Step offset w (h, .claimJob settings env skip) w') : w'.Placed offset := by
  have hexec : w'.sys = w.sys.exec (.claimJob settings (env.ahead (offset h)) skip) := hs.sys.2
  have hren : w'.renewedAt = Tx.renews (offset h) (.claimJob settings env skip) w.sys.db w.renewedAt := hs.renewals
  intro x j' hj' hrun
  simp only [Sys.exec, Tx.renews] at hexec hren
  split at hexec
  · rename_i c db' hc
    have hren : w'.renewedAt = Function.update w.renewedAt c.jobId (env.now 1) := by rw [hren, hc]
    rcases claimJob_ok hc with ⟨h', -⟩ | ⟨job, inc, inc', hj, -, -, -, hb, hr⟩
    · cases h'
    have hjobs : db'.jobs = w.sys.db.jobs.put (job.claimed (env.uuid 0) settings.workerId (env.now 1 + offset h)) :=
      claimBranch_jobs hb
    have hid : c.jobId = job.id := by rw [Option.some.inj hr]
    by_cases hx : x = job.id
    · have hold : w.sys.db.jobs.get job.id = some job := Table.get_self hj
      have hg : (w.sys.db.jobs.put (job.claimed (env.uuid 0) settings.workerId (env.now 1 + offset h))).get job.id =
          some _ := Table.get_put_self (x := job.claimed (env.uuid 0) settings.workerId (env.now 1 + offset h)) hold
      rw [hexec] at hj'
      have hj' : db'.jobs.get x = some j' := hj'
      rw [hjobs, hx, hg] at hj'
      cases hj'
      have hnew : c ∉ w.sys.issued := fun hm => hs.fresh c hm (by rw [Option.some.inj hr])
      have hmem : c ∈ w'.sys.issued := by
        rw [hexec]
        exact List.mem_cons_self ..
      refine ⟨c, hmem, heldBy_iff.mpr ⟨hid.symm, by rw [Option.some.inj hr]; rfl, rfl⟩, ?_⟩
      rw [hs.placed c hmem hnew, hx, hren, hid, Function.update_self]
      rfl
    · refine hp.keep hs ?_ hrun ?_
      · rw [hexec] at hj'
        have hj' : db'.jobs.get x = some j' := hj'
        rw [hjobs, Table.get_put_ne hx] at hj'
        exact hj'
      · rw [hren]
        exact Function.update_of_ne (hid ▸ hx) ..
  · rename_i db' hc
    rcases claimJob_ok hc with ⟨-, rfl⟩ | ⟨_, _, _, -, -, -, -, -, hr⟩
    · exact hp.keep hs (by rw [hexec] at hj'; exact hj') hrun (by rw [hren, hc])
    · cases hr
  · rename_i e hc
    exact hp.keep hs (by rw [hexec] at hj'; exact hj') hrun (by rw [hren, hc])

theorem Placed.heartbeat {env : Env} {c : Claim} {h : host} (hp : w.Placed offset)
    (hs : Step offset w (h, .heartbeat env c) w') : w'.Placed offset := by
  have hexec : w'.sys = w.sys.exec (.heartbeat (env.ahead (offset h)) c) := hs.sys.2
  have hren : w'.renewedAt = Tx.renews (offset h) (.heartbeat env c) w.sys.db w.renewedAt := hs.renewals
  have hissued : c ∈ w.sys.issued := hs.sys.1
  intro x j' hj' hrun
  simp only [Sys.exec, Tx.renews] at hexec hren
  rw [hexec] at hj'
  cases hr : Aeh.heartbeat (env.ahead (offset h)) c w.sys.db with
  | error e =>
    rw [hr] at hj'
    exact hp.keep hs hj' hrun (by rw [hren, hr])
  | ok r =>
    obtain ⟨r, db'⟩ := r
    rw [hr] at hj'
    have hj' : db'.jobs.get x = some j' := hj'
    rcases heartbeat_ok hr with ⟨rfl, rfl⟩ | ⟨job, hj, hheld, -, rfl, rfl⟩
    · exact hp.keep hs hj' hrun (by rw [hren, hr])
    have hren : w'.renewedAt = Function.update w.renewedAt c.jobId (env.now 1) := by rw [hren, hr]
    have hid : job.id = c.jobId := (heldBy_iff.mp hheld).1
    have hj' : (w.sys.db.jobs.put (job.renewed (env.now 1 + offset h))).get x = some j' := hj'
    by_cases hx : x = job.id
    · have hold : w.sys.db.jobs.get job.id = some job := Table.get_self hj
      have hg : (w.sys.db.jobs.put (job.renewed (env.now 1 + offset h))).get job.id = some _ :=
        Table.get_put_self (x := job.renewed (env.now 1 + offset h)) hold
      rw [hx, hg] at hj'
      cases hj'
      refine ⟨c, by rw [hexec]; exact hissued, heldBy_iff.mpr (heldBy_iff.mp hheld), ?_⟩
      rw [hs.kept c hissued, hs.own c rfl, hx, hren, hid, Function.update_self]
      rfl
    · refine hp.keep hs ?_ hrun ?_
      · rwa [Table.get_put_ne hx] at hj'
      · rw [hren]
        exact Function.update_of_ne (hid ▸ hx) ..

/-- Any other transaction. -/
theorem Placed.other (hp : w.Placed offset) (hs : Step offset w l w') (hren : w'.renewedAt = w.renewedAt)
    (hclaim : ∀ settings env skip, l.2.ahead (offset l.1) ≠ .claimJob settings env skip)
    (hbeat : ∀ env c, l.2.ahead (offset l.1) ≠ .heartbeat env c) : w'.Placed offset := by
  intro x j' hj' hrun
  have hstep := Sys.job_step hs.sys x
  rw [hj'] at hstep
  generalize hj : w.sys.db.jobs.get x = o at hstep
  cases hstep with
  | same => exact hp.keep hs hj hrun (by rw [hren])
  | created _ hp => cases hp.symm.trans hrun
  | claimed _ htx => exact absurd htx (hclaim _ _ _)
  | renewed _ htx => exact absurd htx (hbeat _ _)
  | expired _ _ _ _ hf => exact absurd hrun hf.not_running
  | finished _ _ _ _ _ hf => exact absurd hrun hf.not_running

theorem Placed.step (hp : w.Placed offset) (hs : Step offset w l w') : w'.Placed offset := by
  obtain ⟨h, tx⟩ := l
  cases tx with
  | claimJob => exact hp.claim hs
  | heartbeat => exact hp.heartbeat hs
  | _ => exact hp.other hs hs.renewals nofun nofun

/-- **What `locked_at` holds** in every reachable state. -/
theorem placed_of_reachable (h : (machine offset).Reachable w) : w.Placed offset := by
  refine h.invariant (I := Placed offset) ?_ fun _ _ _ hp hs => hp.step hs
  rintro w ⟨services, -, hw⟩ x j hj
  rw [hw] at hj
  exact (List.not_mem_nil (Table.get_eq_some.mp hj).1).elim

/-! ## Leases that are young or old on the database clock -/

/-- A recovery on a host whose clock is not ahead of the owners' clocks by what is left of their leases. -/
def Timely (offset : host → Time) (e : Entry (Hosted host) (host × Tx)) : Prop :=
  ∀ env rows, e.label.2 = .recoverExpired env rows → ∀ c ∈ e.pre.sys.issued, c.jobId ∈ rows →
    e.pre.sys.db.Current c → env.now 0 < e.pre.renewedAt c.jobId + seconds Limits.leaseSeconds →
    offset e.label.1 - offset (e.pre.home c) < e.pre.renewedAt c.jobId + seconds Limits.leaseSeconds - env.now 0

/-- A recovery leaves running jobs whose lease is young, and a heartbeat or an outcome for an old lease does
nothing. -/
structure Safe (e : Entry (Hosted host) (host × Tx)) : Prop where
  young : ∀ env rows, e.label.2 = .recoverExpired env rows → ∀ x j, e.pre.sys.db.jobs.get x = some j →
    j.status = .running → env.now 0 < e.pre.renewedAt x + seconds Limits.leaseSeconds →
    e.post.sys.db.jobs.get x = some j
  old : ∀ env c, (e.label.2 = .heartbeat env c ∨ ∃ outcome version, e.label.2 = .finalize env c outcome version) →
    e.pre.renewedAt c.jobId + seconds Limits.leaseSeconds ≤ env.now 0 → e.post.sys.db = e.pre.sys.db

/-- A job that a recovery changes is one of the rows and expired on the recovering host. -/
theorem recover_row {s s' : Sys} {env : Env} {rows : List Uuid} (h : Sys.machine.step s (.recoverExpired env rows) s')
    {x : Uuid} (hne : s'.db.jobs.get x ≠ s.db.jobs.get x) :
    x ∈ rows ∧ ∃ j, s.db.jobs.get x = some j ∧ j.isExpiredAt (env.now 0) = true := by
  obtain ⟨-, rfl⟩ := h
  revert hne
  refine Sys.settle_ok (P := fun db => db.jobs.get x ≠ s.db.jobs.get x → _) (fun hne => absurd rfl hne)
    fun n db' hr hne => ?_
  obtain ⟨j, hj, rfl⟩ : ∃ j ∈ expiredJobs rows (env.now 0) s.db, x = j.id := by
    by_contra hx
    push Not at hx
    exact hne ((recoverExpired_get hr).1 x hx)
  refine ⟨?_, j, Table.get_self (mem_expiredJobs hj).1, (mem_expiredJobs hj).2⟩
  obtain ⟨y, hy, hgy⟩ := List.mem_filterMap.mp (List.mem_of_mem_filter (List.mem_of_mem_take hj))
  rw [show j.id = y from (Table.get_eq_some.mp hgy).2]
  exact List.mem_dedup.mp hy

/-- A recovery of at most 100 rows frees every expired one. -/
theorem recover_frees {s s' : Sys} {env : Env} {rows : List Uuid} (hreach : Sys.machine.Reachable s)
    (h : Sys.machine.step s (.recoverExpired env rows) s') (hlen : rows.length ≤ 100) {x : Uuid} (hx : x ∈ rows) {j : Job}
    (hj : s.db.jobs.get x = some j) (he : j.isExpiredAt (env.now 0) = true) :
    ∃ j', s'.db.jobs.get x = some j' ∧ j'.status ≠ .running := by
  obtain ⟨-, rfl⟩ := h
  obtain ⟨⟨n, db'⟩, hr⟩ : ∃ r, recoverExpired env rows s.db = .ok r :=
    recoverExpired_total (Sys.openUnique_of_reachable hreach) (Sys.inv_of_reachable hreach).ok rows
  simp only [Sys.exec, hr, settle, commit]
  have hmem : j ∈ expiredJobs rows (env.now 0) s.db := by
    unfold expiredJobs
    have hshort : ((rows.dedup.filterMap s.db.jobs.get).filter fun j => j.isExpiredAt (env.now 0)).length ≤ 100 := by
      refine (List.length_filter_le _ _).trans ((List.length_filterMap_le _ _).trans ?_)
      exact (List.dedup_sublist rows).length_le.trans hlen
    rw [List.take_of_length_le hshort, List.mem_filter]
    exact ⟨List.mem_filterMap.mpr ⟨x, List.mem_dedup.mpr hx, hj⟩, he⟩
  obtain ⟨j', i, hj', hl⟩ := (recoverExpired_get hr).2 j hmem
  have hid : j.id = x := (Table.get_eq_some.mp hj).2
  exact ⟨j', hid ▸ hj', hl.freed.not_running⟩

/-- A running job is expired on a host exactly if its lease is over there. -/
theorem isExpiredAt_iff {j : Job} {r d t : Time} (hrun : j.status = .running) (hl : j.lockedAt = some (r + d)) :
    j.isExpiredAt t = true ↔ r + seconds Limits.leaseSeconds ≤ t - d := by
  simp only [Job.isExpiredAt, leaseLimit, hl, hrun, Option.any_some, Bool.and_eq_true, decide_eq_true_eq, true_and]
  constructor
  · intro h
    have h := of_decide_eq_true h
    linarith
  · intro h
    exact decide_eq_true (by linarith)

/-- A claim that is current holds its job, with a lease written on the host it was issued on. -/
theorem current_placed (h : (machine offset).Reachable w) {c : Claim} (hc : c ∈ w.sys.issued)
    (hcur : w.sys.db.Current c) : ∃ j, w.sys.db.jobs.get c.jobId = some j ∧ j.status = .running ∧
      j.lockedAt = some (w.renewedAt c.jobId + offset (w.home c)) := by
  obtain ⟨j, hj, hheld⟩ := hcur
  have hrun : j.status = .running := (heldBy_iff.mp hheld).2.2
  obtain ⟨c', hc', hheld', hlock⟩ := placed_of_reachable h _ j hj hrun
  obtain rfl := (owned_of_reachable h).holder_unique hc' hc hheld' hheld
  exact ⟨j, hj, hrun, hlock⟩

/-- A heartbeat or an outcome for a lease that is old on the database clock does nothing. -/
theorem old_step (h : (machine offset).Reachable w) {k : host} {tx : Tx} (hs : Step offset w (k, tx) w') {env : Env}
    {c : Claim} (htx : tx = .heartbeat env c ∨ ∃ outcome version, tx = .finalize env c outcome version)
    (hold : w.renewedAt c.jobId + seconds Limits.leaseSeconds ≤ env.now 0) : w'.sys.db = w.sys.db := by
  have hclaim : tx.claim = some c ∧ (tx.ahead (offset k)).claim = some c := by
    rcases htx with rfl | ⟨outcome, version, rfl⟩ <;> exact ⟨rfl, rfl⟩
  by_cases hcur : w.sys.db.Current c
  · have hissued : c ∈ w.sys.issued := by
      rcases htx with rfl | ⟨outcome, version, rfl⟩ <;> exact hs.sys.1
    have hahead : tx.ahead (offset k) = .heartbeat (env.ahead (offset k)) c ∨
        ∃ outcome version, tx.ahead (offset k) = .finalize (env.ahead (offset k)) c outcome version := by
      rcases htx with rfl | ⟨outcome, version, rfl⟩
      · exact Or.inl rfl
      · exact Or.inr ⟨outcome, version, rfl⟩
    obtain ⟨j, hj, -, hlock⟩ := current_placed h hissued hcur
    refine Sys.late_step hs.sys hahead hj hlock ?_
    rw [hs.own c hclaim.1]
    show w.renewedAt c.jobId + offset k + seconds Limits.leaseSeconds ≤ env.now 0 + offset k
    linarith
  · exact Sys.stale_step hs.sys hclaim.2 hcur

theorem Timely.safe (h : (machine offset).Reachable w) (hs : Step offset w l w') (ht : Timely offset ⟨w, l, w'⟩) :
    Safe (⟨w, l, w'⟩ : Entry (Hosted host) (host × Tx)) := by
  obtain ⟨k, tx⟩ := l
  constructor
  · intro env rows hl x j hj hrun hyoung
    obtain rfl : tx = .recoverExpired env rows := hl
    by_contra hne
    obtain ⟨hx, j', hj', he⟩ := recover_row hs.sys fun heq => hne (heq.trans hj)
    obtain rfl := Option.some.inj (hj.symm.trans hj')
    obtain ⟨c, hc, hheld, hlock⟩ := placed_of_reachable h x j hj hrun
    have hid : c.jobId = x := (heldBy_iff.mp hheld).1.symm.trans (Table.get_eq_some.mp hj).2
    subst hid
    have := ht env rows rfl c hc hx ⟨j, hj, hheld⟩ hyoung
    have hold := (isExpiredAt_iff hrun hlock).mp he
    simp only [Env.ahead] at hold this
    linarith
  · exact fun env c hl hold => old_step h hs hl hold

theorem Safe.timely (h : (machine offset).Reachable w) (hs : Step offset w l w')
    (hrows : ∀ env rows, l.2 = .recoverExpired env rows → rows.length ≤ 100)
    (hsafe : Safe (⟨w, l, w'⟩ : Entry (Hosted host) (host × Tx))) : Timely offset ⟨w, l, w'⟩ := by
  obtain ⟨k, tx⟩ := l
  intro env rows hl c hc hx hcur hyoung
  obtain rfl : tx = .recoverExpired env rows := hl
  obtain ⟨j, hj, hrun, hlock⟩ := current_placed h hc hcur
  have hstays := hsafe.young env rows rfl _ j hj hrun hyoung
  by_contra hlate
  have he : j.isExpiredAt ((env.ahead (offset k)).now 0) = true := by
    refine (isExpiredAt_iff hrun hlock).mpr ?_
    simp only [Env.ahead] at hlate ⊢
    linarith
  obtain ⟨j', hj', hne⟩ := recover_frees (reachable_sys h) hs.sys (hrows env rows rfl) hx hj he
  obtain rfl := Option.some.inj (hstays.symm.trans hj')
  exact hne hrun

/-- **Leases between hosts.**  In every run of workers on hosts with any clock offsets, a step whose recovering host's
clock is not ahead of the owners' by what is left of their leases recovers no young lease, renews no old one and
records no outcome for it; and a recovery of at most 100 rows does so only then.  A transaction is one moment, so no time
passes between its `now()` and what it writes. -/
theorem leases_between_hosts {tr : List (Entry (Hosted host) (host × Tx))} (h : (machine offset).Reachable w)
    (hr : (machine offset).Run w tr w') :
    (∀ e ∈ tr, Timely offset e → Safe e) ∧
      ∀ e ∈ tr, (∀ env rows, e.label.2 = .recoverExpired env rows → rows.length ≤ 100) → Safe e → Timely offset e :=
  ⟨fun _ he ht => ht.safe (h.pre_of_mem hr he) (hr.step_of_mem he),
    fun _ he hrows hs => hs.timely (h.pre_of_mem hr he) (hr.step_of_mem he) hrows⟩

end Hosted

/-! ### Two hosts -/

namespace TwoHosts

open Hosted Sample

/-- The second host is 200 seconds ahead. -/
def offset (h : Bool) : Time := if h then seconds 200 else 0

def start (k : ℕ) : Hosted Bool := ⟨after 2, seconds k, fun _ => false, fun _ => seconds 2⟩

theorem start_reachable : (machine offset).Reachable (start 2) := by
  have h₀ : (machine offset).Reachable ⟨Sample.start, seconds 0, fun _ => false, fun _ => seconds 2⟩ :=
    .of_init ⟨_, by decide, rfl⟩
  have between : ∀ k, Env.Between (env (k + 1)) (seconds k) (seconds (k + 1)) := fun k =>
    ⟨Int.mul_le_mul_of_nonneg_left (Int.ofNat_le.mpr (Nat.le_succ k)) (by decide), fun _ _ _ => le_rfl, fun _ => le_rfl⟩
  have h₁ : (machine offset).Reachable ⟨after 1, seconds 1, fun _ => false, fun _ => seconds 2⟩ := by
    refine h₀.step (l := (false, .ingest (env 1) request intake sha)) ?_
    exact {
      sys := ⟨trivial, rfl⟩, fresh := trivial, clock := by decide, own := nofun
      readings := fun e he => by obtain rfl := Option.some.inj he; exact between 0
      kept := fun _ _ => rfl, placed := fun _ _ _ => rfl, renewals := rfl }
  refine h₁.step (l := (false, .claimJob settings (env 2) fun _ => false)) ?_
  exact {
    sys := ⟨trivial, rfl⟩, fresh := by intro c hc; exact (List.not_mem_nil hc).elim, clock := by decide, own := nofun
    readings := fun e he => by obtain rfl := Option.some.inj he; exact between 1
    kept := fun _ _ => rfl, placed := fun _ _ _ => rfl
    renewals := by
      funext x
      by_cases hx : x = 18
      · rw [hx]
        rfl
      · exact (Function.update_of_ne hx ..).symm }

/-- A recovery at second `k` on host `h`. -/
theorem recovery (h : Bool) (k : ℕ) (hk : 2 ≤ k) :
    (machine offset).step (start 2) (h, .recoverExpired (env k) [18])
      ⟨(after 2).exec (.recoverExpired ((env k).ahead (offset h)) [18]), seconds k, fun _ => false, fun _ => seconds 2⟩ := by
  have hle : seconds 2 ≤ seconds k := Int.mul_le_mul_of_nonneg_left (Int.ofNat_le.mpr hk) (by decide)
  exact {
    sys := ⟨trivial, rfl⟩, fresh := trivial, clock := hle, own := nofun
    readings := fun e he => by obtain rfl := Option.some.inj he; exact ⟨hle, fun _ _ _ => le_rfl, fun _ => le_rfl⟩
    kept := fun _ _ => rfl, placed := fun _ hc hn => absurd hc hn, renewals := rfl }

/-- On the owner's host the lease of second 2 is left alone at second 121. -/
theorem leases_between_hosts_sample : ∃ w', (machine offset).step (start 2) (false, .recoverExpired (env 121) [18]) w' ∧
    (after 2).db.Current analyzeClaim ∧ w'.sys.db.jobs.get 18 = (after 2).db.jobs.get 18 := by
  have hs := recovery false 121 (by decide)
  have hsafe := (leases_between_hosts start_reachable (Machine.Run.one hs)).1 _ (List.mem_singleton_self _)
    fun env rows hl c hc _ _ _ => by
      obtain rfl : Sample.env 121 = env := (Tx.recoverExpired.inj hl).1
      show (0 : Time) - 0 < seconds 2 + seconds Limits.leaseSeconds - seconds 121
      decide
  refine ⟨_, hs, by decide, ?_⟩
  exact hsafe.young (env 121) [18] rfl 18 _ rfl rfl (by decide)

/-- The host that is ahead recovers the lease after a second. -/
theorem lease_taken_early : ∃ w', (machine offset).Reachable (start 2) ∧
    (machine offset).step (start 2) (true, .recoverExpired (env 3) [18]) w' ∧
    (start 2).renewedAt 18 = seconds 2 ∧ (start 2).sys.db.Current analyzeClaim ∧ ¬ w'.sys.db.Current analyzeClaim ∧
    ¬ Safe (⟨start 2, (true, .recoverExpired (env 3) [18]), w'⟩ : Entry (Hosted Bool) (Bool × Tx)) := by
  have hgone : ¬ ((after 2).exec (.recoverExpired ((env 3).ahead (offset true)) [18])).db.Current analyzeClaim := by decide
  refine ⟨_, start_reachable, recovery true 3 (by decide), rfl, by decide, hgone, fun hsafe => hgone ?_⟩
  exact ⟨_, hsafe.young (env 3) [18] rfl 18 _ rfl rfl (by decide), by decide⟩

end TwoHosts

end Aeh
