import Mathlib.Logic.Function.Basic
import Mathlib.Tactic.Linarith
import Aeh.Attempts
import Aeh.Lease
import Aeh.RunOne

/-!
# KeepLease — `keep_lease` of any number of `run_one` on one clock

A heartbeat is a call with a start, a transaction and a later answer, or an error at any time.  `keep_lease` counts
its deadline from the answer and looks at it only after an error, so that a call without an answer keeps the task
running for as long as it lasts.  The database gives a job to another worker when the lease and the pause before the
next attempt are over (`Live.free`), not before: what is needed is that no call and no pause lasts until then.
-/

namespace Aeh

/-! ## `keep_lease` -/

/-- Where `keep_lease` is; `answer` is what the transaction of the call has returned.  `run_one` creates the task of
`execute` before `keep_lease` reaches its first line; this start is taken to need no time, so a task that is starting does
not count as running. -/
inductive Keep where
  | starting
  | pausing (wake : Time)
  | calling (start : Time) (answer : Option Bool)
  | stopped

/-- A claim and its `run_one`; `leased` is what the claim or its last heartbeat wrote to `locked_at`. -/
structure Live where
  claim : Claim
  leased : Time
  deadline : Time
  keep : Keep

namespace Live

/-- The task of `execute` runs and is not cancelled. -/
def isRunning (w : Live) : Bool :=
  match w.keep with
  | .pausing _ | .calling .. => true
  | .starting | .stopped => false

/-- `keep_lease` starts, or a heartbeat has returned True. -/
def renewed (w : Live) (t : Time) : Live :=
  { w with deadline := t + seconds Limits.leaseSeconds, keep := .pausing (t + seconds Limits.heartbeatSeconds) }

/-- A heartbeat has returned. -/
def answered (w : Live) (t : Time) (owned : Bool) : Live :=
  if owned then w.renewed t else { w with keep := .stopped }

/-- A heartbeat has raised `SQLAlchemyError`. -/
def failed (w : Live) (t : Time) : Live :=
  if t < w.deadline then { w with keep := .pausing (t + seconds 2) } else { w with keep := .stopped }

/-- The heartbeat's transaction has returned. -/
def beaten (w : Live) (env : Env) (start : Time) (owned : Bool) : Live :=
  { w with leased := if owned then env.now 1 else w.leased, keep := .calling start (some owned) }

/-- The end of the lease and of the pause before the next attempt. -/
def free (w : Live) : Time := w.leased + seconds Limits.leaseSeconds + retryDelay w.claim.attempt

/-- The moment is before another worker can have the job, if attempts are left. -/
def InTime (w : Live) (t : Time) : Prop := w.claim.attempt < Limits.maxAttempts → t < w.free

end Live

/-- The readings of a transaction that commits at `t`. -/
def Env.By (env : Env) (t : Time) : Prop := Monotone env.now ∧ ∀ k, env.now k ≤ t

/-- The claim whose lease a transaction renews or ends. -/
def Tx.leaseClaim : Tx → Option Claim
  | .heartbeat _ claim | .finalize _ claim _ _ => some claim
  | _ => none

/-- The workers on one clock and the database they share. -/
structure Keeping where
  sys : Sys
  clock : Time
  runs : ℕ → Option Live

namespace Keeping

inductive Label where
  | claim (k : ℕ) (settings : Settings) (env : Env) (skip : Uuid → Bool)
  | begin (k : ℕ)
  | wake (k : ℕ)
  | beat (k : ℕ) (env : Env)
  | answer (k : ℕ)
  | fail (k : ℕ)
  | finish (k : ℕ)
  | tick (t : Time)
  | other (tx : Tx)

/-- The `k`-th claim is now as `w` says. -/
def put (s : Keeping) (k : ℕ) (w : Live) : Keeping := { s with runs := Function.update s.runs k (some w) }

/-- Transactions happen at an instant, and time passes between them; a pause ends when it is due. -/
inductive Step : Keeping → Label → Keeping → Prop
  | claim {s : Keeping} {k : ℕ} {settings : Settings} {env : Env} {skip : Uuid → Bool} {claim : Claim} {db : Store} :
      s.runs k = none → claimJob settings env skip s.sys.db = .ok (some claim, db) →
      s.sys.Fresh (.claimJob settings env skip) → env.By s.clock →
        Step s (.claim k settings env skip)
          (put { s with sys := s.sys.exec (.claimJob settings env skip) } k ⟨claim, env.now 1, 0, .starting⟩)
  | begin {s : Keeping} {k : ℕ} {w : Live} : s.runs k = some w → w.keep = .starting →
      Step s (.begin k) (s.put k (w.renewed s.clock))
  | wake {s : Keeping} {k : ℕ} {w : Live} {t : Time} : s.runs k = some w → w.keep = .pausing t → t ≤ s.clock →
      Step s (.wake k) (s.put k { w with keep := .calling s.clock none })
  | beat {s : Keeping} {k : ℕ} {w : Live} {start : Time} {env : Env} {owned : Bool} {db : Store} :
      s.runs k = some w → w.keep = .calling start none → start ≤ env.now 0 → env.By s.clock →
      heartbeat env w.claim s.sys.db = .ok (owned, db) →
        Step s (.beat k env)
          (put { s with sys := s.sys.exec (.heartbeat env w.claim) } k (w.beaten env start owned))
  | answer {s : Keeping} {k : ℕ} {w : Live} {start : Time} {owned : Bool} : s.runs k = some w →
      w.keep = .calling start (some owned) → Step s (.answer k) (s.put k (w.answered s.clock owned))
  | fail {s : Keeping} {k : ℕ} {w : Live} {start : Time} {answer : Option Bool} : s.runs k = some w →
      w.keep = .calling start answer → Step s (.fail k) (s.put k (w.failed s.clock))
  -- the task is done, or the process is gone
  | finish {s : Keeping} {k : ℕ} {w : Live} : s.runs k = some w →
      Step s (.finish k) (s.put k { w with keep := .stopped })
  | tick {s : Keeping} {t : Time} : s.clock ≤ t →
      (∀ k w wake, s.runs k = some w → w.keep = .pausing wake → t ≤ wake) → Step s (.tick t) { s with clock := t }
  -- a claim's lease is renewed by its `keep_lease` and ended by its `run_one`
  | other {s : Keeping} {tx : Tx} : s.sys.allows tx → s.sys.Fresh tx → (∀ env ∈ tx.env, env.By s.clock) →
      (∀ k w, s.runs k = some w → tx.leaseClaim = some w.claim → w.keep = .stopped) →
        Step s (.other tx) { s with sys := s.sys.exec tx }

def machine : Machine Keeping Label where
  init s := Sys.machine.init s.sys ∧ ∀ k, s.runs k = none
  step := Step

/-- No running task has a later claim of its job beside it that is current. -/
def Exclusive (s : Keeping) : Prop :=
  ∀ k w, s.runs k = some w → w.isRunning = true → ∀ c ∈ s.sys.issued, c.jobId = w.claim.jobId →
    w.claim.attempt < c.attempt → ¬ s.sys.db.Current c

/-- No call lasts, and no pause begins that lasts, until another worker can have the job. -/
def Prompt (s : Keeping) : Label → Prop
  | .begin k => ∀ w, s.runs k = some w → w.InTime (s.clock + seconds Limits.heartbeatSeconds)
  | .answer k => ∀ w start, s.runs k = some w → w.keep = .calling start (some true) →
      w.InTime (s.clock + seconds Limits.heartbeatSeconds)
  | .fail k => ∀ w, s.runs k = some w → s.clock < w.deadline → w.InTime (s.clock + seconds 2)
  | .tick t => ∀ k w start answer, s.runs k = some w → w.keep = .calling start answer → w.InTime t
  | _ => True

/-- The runs whose calls are all prompt. -/
def prompt : Machine Keeping Label where
  init := machine.init
  step s l s' := Step s l s' ∧ s.Prompt l

end Keeping

/-! ## What the database does with a claim -/

/-- What has become of the claim's lease: it holds; or the job waits until it is free, or is over; or the moment at which
it is free has come. -/
inductive Live.Stands (w : Live) (sys : Sys) (clock : Time) : Prop
  | held {j : Job} (hj : sys.db.jobs.get w.claim.jobId = some j) (hh : j.heldBy w.claim = true)
      (hl : j.lockedAt = some w.leased) (ha : j.attempt = w.claim.attempt)
  | freed {j : Job} (hj : sys.db.jobs.get w.claim.jobId = some j) (hn : ¬ sys.db.Current w.claim)
      (ha : j.attempt = w.claim.attempt) (hs : j.status ≠ .running) (hw : j.status = .pending → w.free ≤ j.availableAt)
  | late (hn : ¬ sys.db.Current w.claim) (hm : w.claim.attempt < Limits.maxAttempts) (hf : w.free ≤ clock)

namespace Live

variable {w : Live} {sys sys' : Sys} {clock clock' : Time}

/-- No later claim has been issued while the lease holds or the job waits. -/
theorem Stands.later (h : w.Stands sys clock) (hn : sys.Numbered) {c : Claim} (hc : c ∈ sys.issued)
    (hid : c.jobId = w.claim.jobId) (hlt : w.claim.attempt < c.attempt) :
    w.claim.attempt < Limits.maxAttempts ∧ w.free ≤ clock := by
  have hno : ∀ j, sys.db.jobs.get w.claim.jobId = some j → j.attempt = w.claim.attempt → False := by
    intro j hj ha
    have hm : c.attempt ∈ (sys.claimsOf w.claim.jobId).map Claim.attempt :=
      List.mem_map_of_mem (List.mem_reverse.mpr (List.mem_filter.mpr ⟨hc, by simpa using hid⟩))
    rw [hn _ j hj, List.mem_range'_1] at hm
    omega
  cases h with
  | held hj _ _ ha => exact (hno _ hj ha).elim
  | freed hj _ ha => exact (hno _ hj ha).elim
  | late _ hm hf => exact ⟨hm, hf⟩

theorem Stands.tick (h : w.Stands sys clock) (hc : clock ≤ clock') : w.Stands sys clock' := by
  cases h with
  | held hj hh hl ha => exact .held hj hh hl ha
  | freed hj hn ha hs hw => exact .freed hj hn ha hs hw
  | late hn hm hf => exact .late hn hm (hf.trans hc)

/-- `Stands` looks at the claim and the lease alone. -/
theorem Stands.congr {w' : Live} (h : w.Stands sys clock) (hc : w'.claim = w.claim) (hl : w'.leased = w.leased) :
    w'.Stands sys clock := by
  have hf : w'.free = w.free := by rw [free, free, hc, hl]
  cases h with
  | held hj hh hlock ha => exact .held (by rw [hc]; exact hj) (by rw [hc]; exact hh) (by rw [hl]; exact hlock) (by rw [hc]; exact ha)
  | freed hj hn ha hs hw =>
    exact .freed (by rw [hc]; exact hj) (by rw [hc]; exact hn) (by rw [hc]; exact ha) hs (by rw [hf]; exact hw)
  | late hn hm hfree => exact .late (by rw [hc]; exact hn) (by rw [hc]; exact hm) (by rw [hf]; exact hfree)

/-- An expired lease is free no earlier than the job's next attempt. -/
theorem free_le_of_lapsed {j j' : Job} {env : Env} {i : ℕ} (hm : Monotone env.now) (hl : j.lockedAt = some w.leased)
    (ha : j.attempt = w.claim.attempt) (he : j.isExpiredAt (env.now 0) = true) (h : j.Lapsed (env.now i) j')
    (hs : j'.status = .pending) : w.free ≤ j'.availableAt := by
  cases h with
  | failed => cases hs
  | requeued =>
    simp only [Job.isExpiredAt, hl, Option.any_some, Bool.and_eq_true, decide_eq_true_eq, leaseLimit] at he
    have hi : env.now 0 ≤ env.now i := hm (Nat.zero_le i)
    have hle := of_decide_eq_true he.2
    show w.leased + seconds Limits.leaseSeconds + retryDelay w.claim.attempt ≤ env.now i + retryDelay j.attempt
    rw [ha]
    linarith

/-- What any other transaction does with the claim's lease. -/
theorem Stands.step {tx : Tx} (h : w.Stands sys clock) (hsys : sys.Inv) (ho : sys.Owned) (hc : w.claim ∈ sys.issued)
    (hs : Sys.machine.step sys tx sys') (hf : sys.Fresh tx) (hread : ∀ env ∈ tx.env, env.By clock)
    (hours : ∀ c, tx.leaseClaim = some c → c ≠ w.claim) : w.Stands sys' clock := by
  have hlost : ¬ sys.db.Current w.claim → ¬ sys'.db.Current w.claim := Sys.Owned.not_current_step hs hf hc
  cases h with
  | late hn hm hfree => exact .late (hlost hn) hm hfree
  | @held j hj hh hl ha =>
    have hstep := Sys.job_step hs w.claim.jobId
    rw [hj] at hstep
    generalize hj' : sys'.db.jobs.get w.claim.jobId = o at hstep
    cases hstep with
    | same => exact .held hj' hh hl ha
    | claimed _ _ hp => cases hp.symm.trans (heldBy_iff.mp hh).2.2
    | @renewed env c _ htx hh' =>
      have hc' : c ∈ sys.issued := Sys.issued_of_claim hs (by rw [htx]; rfl)
      exact absurd (ho.holder_unique hc' hc hh' hh) (hours c (by rw [htx]; rfl))
    | @finished env c outcome version _ j' htx hh' =>
      have hc' : c ∈ sys.issued := Sys.issued_of_claim hs (by rw [htx]; rfl)
      exact absurd (ho.holder_unique hc' hc hh' hh) (hours c (by rw [htx]; rfl))
    | @expired env rows _ j' htx he hfr =>
      subst htx
      have hcur : ¬ sys'.db.Current w.claim := by
        rintro ⟨j₁, hj₁, hh₁⟩
        obtain rfl := Option.some.inj (hj'.symm.trans hj₁)
        exact hfr.not_running (heldBy_iff.mp hh₁).2.2
      rcases Sys.recover_step hs w.claim.jobId with hsame | ⟨j₀, j₁, i, hj₀, hj₁, he₀, hlapsed⟩
      · obtain rfl : j = j' := Option.some.inj (hj.symm.trans (hsame.symm.trans hj'))
        exact absurd (heldBy_iff.mp hh).2.2 hfr.not_running
      · obtain rfl := Option.some.inj (hj.symm.trans hj₀)
        obtain rfl := Option.some.inj (hj'.symm.trans hj₁)
        have ha' : j'.attempt = w.claim.attempt := by
          cases hlapsed <;> exact ha
        exact .freed hj' hcur ha' hfr.not_running
          (free_le_of_lapsed (hread env rfl).1 hl ha he₀ hlapsed)
  | @freed j hj hn ha hst hw =>
    have hstep := Sys.job_step hs w.claim.jobId
    rw [hj] at hstep
    generalize hj' : sys'.db.jobs.get w.claim.jobId = o at hstep
    cases hstep with
    | same => exact .freed hj' (hlost hn) ha hst hw
    | @claimed settings env skip _ htx hp =>
      subst htx
      have hsound : j.Sound := (hsys.ok j.incidentId).sound (Store.mem_dossier_jobs.mpr ⟨(Table.get_eq_some.mp hj).1, rfl⟩)
      have hav : j.availableAt ≤ env.now 0 := by
        rcases Sys.claim_step hs with rfl | ⟨job, c, hm, -, hav, -, -, -, -, hjobs⟩
        · cases (Option.some.inj (hj.symm.trans hj')) ▸ hp
        · by_cases hx : w.claim.jobId = job.id
          · have hself : sys.db.jobs.get job.id = some job := Table.get_self hm
            rw [hx, hself] at hj
            obtain rfl := Option.some.inj hj
            exact hav
          · have hput : (sys.db.jobs.put (job.claimed (env.uuid 0) settings.workerId (env.now 1))).get w.claim.jobId =
                sys.db.jobs.get w.claim.jobId := Table.get_put_ne hx
            rw [hjobs, hput, hj] at hj'
            have := congrArg Job.status (Option.some.inj hj')
            cases hp.symm.trans this
      exact .late (hlost hn) (ha ▸ hsound.pending hp) (((hw hp).trans hav).trans ((hread env rfl).2 0))
    | renewed _ _ hh => exact absurd (heldBy_iff.mp hh).2.2 hst
    | expired _ _ _ he =>
      simp only [Job.isExpiredAt, Bool.and_eq_true, decide_eq_true_eq] at he
      exact absurd he.1 hst
    | finished _ _ _ hh => exact absurd (heldBy_iff.mp hh).2.2 hst

/-- What the heartbeat of the claim does with its lease. -/
theorem Stands.beaten {env : Env} {start : Time} {owned : Bool} {db : Store} (h : w.Stands sys clock)
    (hb : heartbeat env w.claim sys.db = .ok (owned, db)) :
    (w.beaten env start owned).Stands (sys.exec (.heartbeat env w.claim)) clock := by
  have hdb : (sys.exec (.heartbeat env w.claim)).db = db := by
    simp only [Sys.exec, hb]
    rfl
  rcases heartbeat_ok hb with ⟨rfl, rfl⟩ | ⟨job, hm, hh, -, rfl, rfl⟩
  · have hsys : sys.exec (.heartbeat env w.claim) = sys := by
      simp only [Sys.exec, hb]
      rfl
    rw [hsys]
    exact h.congr rfl rfl
  · have hid := (heldBy_iff.mp hh).1
    have hj : sys.db.jobs.get w.claim.jobId = some job := Table.get_eq_some.mpr ⟨hm, hid⟩
    have hatt : job.attempt = w.claim.attempt := by
      cases h with
      | held hj' _ _ ha =>
        obtain rfl := Option.some.inj (hj.symm.trans hj')
        exact ha
      | freed _ hn => exact absurd ⟨job, hj, hh⟩ hn
      | late hn => exact absurd ⟨job, hj, hh⟩ hn
    have hput : (sys.db.jobs.put (job.renewed (env.now 1))).get job.id = some (job.renewed (env.now 1)) :=
      Table.get_put_self (x := job.renewed (env.now 1)) (hid.symm ▸ hj)
    refine .held (j := job.renewed (env.now 1)) ?_ (heldBy_iff.mpr (heldBy_iff.mp hh)) rfl hatt
    rw [hdb]
    show (sys.db.jobs.put (job.renewed (env.now 1))).get w.claim.jobId = _
    rw [← hid]
    exact hput

end Live

/-! ## Reachable states -/

namespace Keeping

variable {s s' : Keeping}

theorem put_cases {k k' : ℕ} {w w' : Live} (h : (s.put k w).runs k' = some w') :
    (k' = k ∧ w' = w) ∨ (k' ≠ k ∧ s.runs k' = some w') := by
  by_cases hk : k' = k
  · subst hk
    rw [show (s.put k' w).runs k' = some w from Function.update_self ..] at h
    exact Or.inl ⟨rfl, (Option.some.inj h).symm⟩
  · rw [show (s.put k w).runs k' = s.runs k' from Function.update_of_ne hk ..] at h
    exact Or.inr ⟨hk, h⟩

structure Inv (s : Keeping) : Prop where
  sys : Sys.machine.Reachable s.sys
  owned : s.sys.Owned
  issued : ∀ k w, s.runs k = some w → w.claim ∈ s.sys.issued
  distinct : ∀ k k' w w', s.runs k = some w → s.runs k' = some w' → w.claim = w'.claim → k = k'
  stands : ∀ k w, s.runs k = some w → w.keep ≠ .stopped → w.Stands s.sys s.clock

theorem Inv.init (h : machine.init s) : s.Inv := by
  obtain ⟨hsys, hn⟩ := h
  have none_runs : ∀ {k w}, s.runs k = some w → False := by
    intro k w hk
    rw [hn k] at hk
    cases hk
  exact ⟨.of_init hsys, .init hsys, fun _ _ hk => (none_runs hk).elim, fun _ _ _ _ hk => (none_runs hk).elim,
    fun _ _ hk => (none_runs hk).elim⟩

/-- A step of one `keep_lease` that touches neither the database nor the lease. -/
theorem Inv.put (hs : s.Inv) {k : ℕ} {w w' : Live} (hk : s.runs k = some w) (hc : w'.claim = w.claim)
    (hl : w'.leased = w.leased) (hstop : w.keep = .stopped → w'.keep = .stopped) : (s.put k w').Inv := by
  refine ⟨hs.sys, hs.owned, fun k' v hk' => ?_, fun k₁ k₂ v₁ v₂ h₁ h₂ he => ?_, fun k' v hk' hrun => ?_⟩
  · rcases put_cases hk' with ⟨rfl, rfl⟩ | ⟨-, hk'⟩
    · rw [hc]
      exact hs.issued k' w hk
    · exact hs.issued k' v hk'
  · rcases put_cases h₁ with ⟨hk₁, rfl⟩ | ⟨-, g₁⟩ <;> rcases put_cases h₂ with ⟨hk₂, rfl⟩ | ⟨-, g₂⟩
    · exact hk₁.trans hk₂.symm
    · exact hk₁.trans (hs.distinct k k₂ w v₂ hk g₂ (hc.symm.trans he))
    · exact (hs.distinct k₁ k v₁ w g₁ hk (he.trans hc)).trans hk₂.symm
    · exact hs.distinct k₁ k₂ v₁ v₂ g₁ g₂ he
  · rcases put_cases hk' with ⟨rfl, rfl⟩ | ⟨-, hk'⟩
    · exact (hs.stands k' w hk fun h => hrun (hstop h)).congr hc hl
    · exact hs.stands k' v hk' hrun

/-- A transaction that is not about the leases of live claims. -/
theorem Inv.stands_step (hs : s.Inv) {tx : Tx} {sys : Sys} (h : Sys.machine.step s.sys tx sys) (hf : s.sys.Fresh tx)
    (hread : ∀ env ∈ tx.env, env.By s.clock) {k : ℕ} {w : Live} (hk : s.runs k = some w)
    (hours : tx.leaseClaim = some w.claim → w.keep = .stopped) (hrun : w.keep ≠ .stopped) : w.Stands sys s.clock :=
  (hs.stands k w hk hrun).step (Sys.inv_of_reachable hs.sys) hs.owned (hs.issued k w hk) h hf hread
    fun _ hc he => hrun (hours (hc.trans (congrArg some he)))

theorem Inv.other (hs : s.Inv) {tx : Tx} (ha : s.sys.allows tx) (hf : s.sys.Fresh tx)
    (hread : ∀ env ∈ tx.env, env.By s.clock)
    (hours : ∀ k w, s.runs k = some w → tx.leaseClaim = some w.claim → w.keep = .stopped) :
    Inv { s with sys := s.sys.exec tx } := by
  have hstep : Sys.machine.step s.sys tx (s.sys.exec tx) := ⟨ha, rfl⟩
  exact ⟨hs.sys.step hstep, hs.owned.step hstep hf, fun k w hk => RunOne.issued_mono hstep (hs.issued k w hk), hs.distinct,
    fun k w hk hrun => hs.stands_step hstep hf hread hk (hours k w hk) hrun⟩

theorem Inv.claim (hs : s.Inv) {k : ℕ} {settings : Settings} {env : Env} {skip : Uuid → Bool} {c : Claim} {db : Store}
    (hc : claimJob settings env skip s.sys.db = .ok (some c, db))
    (hf : s.sys.Fresh (.claimJob settings env skip)) (hread : env.By s.clock) :
    Inv (Keeping.put { s with sys := s.sys.exec (.claimJob settings env skip) } k ⟨c, env.now 1, 0, .starting⟩) := by
  have hs' : Inv { s with sys := s.sys.exec (.claimJob settings env skip) } :=
    hs.other trivial hf (fun e he => by cases he; exact hread) nofun
  have hexec : s.sys.exec (.claimJob settings env skip) = { s.sys with db := db, issued := c :: s.sys.issued } := by
    simp only [Sys.exec, hc]
  have hnew : ∀ k' v, s.runs k' = some v → v.claim ≠ c := by
    intro k' v hv he
    rcases claimJob_ok hc with ⟨h, -⟩ | ⟨job, inc, inc', -, -, -, -, -, hr⟩
    · cases h
    · exact hf c (he ▸ hs.issued k' v hv) (by rw [Option.some.inj hr])
  refine ⟨hs'.sys, hs'.owned, fun k' v hv => ?_, fun k₁ k₂ v₁ v₂ h₁ h₂ he => ?_, fun k' v hv hrun => ?_⟩
  · rcases put_cases hv with ⟨-, rfl⟩ | ⟨-, hv⟩
    · show c ∈ (s.sys.exec (.claimJob settings env skip)).issued
      rw [hexec]
      exact List.mem_cons_self ..
    · exact hs'.issued k' v hv
  · rcases put_cases h₁ with ⟨hk₁, rfl⟩ | ⟨-, g₁⟩ <;> rcases put_cases h₂ with ⟨hk₂, rfl⟩ | ⟨-, g₂⟩
    · exact hk₁.trans hk₂.symm
    · exact absurd he.symm (hnew k₂ v₂ g₂)
    · exact absurd he (hnew k₁ v₁ g₁)
    · exact hs.distinct k₁ k₂ v₁ v₂ g₁ g₂ he
  · rcases put_cases hv with ⟨-, rfl⟩ | ⟨-, hv⟩
    · rcases claimJob_ok hc with ⟨h, -⟩ | ⟨job, inc, inc', hj, hp, -, -, hb, hr⟩
      · cases h
      · cases hr
        have hjobs : (s.sys.exec (.claimJob settings env skip)).db.jobs =
            s.sys.db.jobs.put (job.claimed (env.uuid 0) settings.workerId (env.now 1)) := by
          rw [hexec]
          exact claimBranch_jobs hb
        have hself : s.sys.db.jobs.get job.id = some job := Table.get_self hj
        have hput : (s.sys.db.jobs.put (job.claimed (env.uuid 0) settings.workerId (env.now 1))).get job.id = some _ :=
          Table.get_put_self (x := job.claimed (env.uuid 0) settings.workerId (env.now 1)) hself
        exact .held (j := job.claimed (env.uuid 0) settings.workerId (env.now 1)) (by
          show (s.sys.exec (.claimJob settings env skip)).db.jobs.get job.id = _
          rw [hjobs]
          exact hput) (heldBy_iff.mpr ⟨rfl, rfl, rfl⟩) rfl rfl
    · exact hs'.stands k' v hv hrun

theorem Inv.beat (hs : s.Inv) {k : ℕ} {w : Live} {start : Time} {env : Env} {owned : Bool} {db : Store}
    (hk : s.runs k = some w) (hkeep : w.keep = .calling start none) (hread : env.By s.clock)
    (hb : heartbeat env w.claim s.sys.db = .ok (owned, db)) :
    Inv (Keeping.put { s with sys := s.sys.exec (.heartbeat env w.claim) } k (w.beaten env start owned)) := by
  have hstep : Sys.machine.step s.sys (.heartbeat env w.claim) (s.sys.exec (.heartbeat env w.claim)) :=
    ⟨hs.issued k w hk, rfl⟩
  refine ⟨hs.sys.step hstep, hs.owned.step hstep trivial, fun k' v hv => ?_, fun k₁ k₂ v₁ v₂ h₁ h₂ he => ?_,
    fun k' v hv hrun => ?_⟩
  · rcases put_cases hv with ⟨-, rfl⟩ | ⟨-, hv⟩
    · exact RunOne.issued_mono hstep (hs.issued k w hk)
    · exact RunOne.issued_mono hstep (hs.issued k' v hv)
  · rcases put_cases h₁ with ⟨hk₁, rfl⟩ | ⟨-, g₁⟩ <;> rcases put_cases h₂ with ⟨hk₂, rfl⟩ | ⟨-, g₂⟩
    · exact hk₁.trans hk₂.symm
    · exact hk₁.trans (hs.distinct k k₂ w v₂ hk g₂ he)
    · exact (hs.distinct k₁ k v₁ w g₁ hk he).trans hk₂.symm
    · exact hs.distinct k₁ k₂ v₁ v₂ g₁ g₂ he
  · rcases put_cases hv with ⟨-, rfl⟩ | ⟨hne, hv⟩
    · exact (hs.stands k w hk (by rw [hkeep]; nofun)).beaten hb
    · refine hs.stands_step hstep trivial (fun e he => by cases he; exact hread) hv (fun hc => ?_) hrun
      exact absurd (hs.distinct k k' w v hk hv (Option.some.inj hc)).symm hne

theorem Inv.step {l : Label} (hs : s.Inv) (h : machine.step s l s') : s'.Inv := by
  cases h with
  | claim _ hc hf hread => exact hs.claim hc hf hread
  | begin hk hkeep => exact hs.put hk rfl rfl fun h => by rw [hkeep] at h; cases h
  | wake hk hkeep => exact hs.put hk rfl rfl fun h => by rw [hkeep] at h; cases h
  | beat hk hkeep _ hread hb => exact hs.beat hk hkeep hread hb
  | @answer k w start owned hk hkeep =>
    refine hs.put hk ?_ ?_ fun h => by rw [hkeep] at h; cases h
    · cases owned <;> rfl
    · cases owned <;> rfl
  | @fail k w start answer hk hkeep =>
    have hfailed : (w.failed s.clock).claim = w.claim ∧ (w.failed s.clock).leased = w.leased := by
      unfold Live.failed
      split_ifs <;> exact ⟨rfl, rfl⟩
    exact hs.put hk hfailed.1 hfailed.2 fun h => by rw [hkeep] at h; cases h
  | finish hk => exact hs.put hk rfl rfl fun _ => rfl
  | tick hc =>
    exact ⟨hs.sys, hs.owned, hs.issued, hs.distinct, fun k w hk hrun => (hs.stands k w hk hrun).tick hc⟩
  | other ha hf hread hours => exact hs.other ha hf hread hours

theorem inv_of_reachable (h : machine.Reachable s) : s.Inv :=
  h.invariant (fun _ => Inv.init) fun _ _ _ hs hstep => hs.step hstep

/-! ## Prompt runs -/

end Keeping

namespace Live

variable {w : Live} {t : Time}

/-- A running task is ahead of the moment its claim is free. -/
structure Timely (w : Live) (t : Time) : Prop where
  leased : w.leased ≤ t
  pausing : ∀ wake, w.keep = .pausing wake → t ≤ wake ∧ w.InTime wake
  calling : ∀ start answer, w.keep = .calling start answer → w.InTime t ∧ (answer = none → w.leased ≤ start)

theorem InTime.mono {t' : Time} (h : w.InTime t') (ht : t ≤ t') : w.InTime t := fun hm => lt_of_le_of_lt ht (h hm)

theorem Timely.inTime (h : w.Timely t) (hrun : w.isRunning = true) : w.InTime t := by
  unfold isRunning at hrun
  cases hk : w.keep with
  | starting | stopped =>
    rw [hk] at hrun
    cases hrun
  | pausing wake =>
    obtain ⟨hle, hin⟩ := h.pausing wake hk
    exact hin.mono hle
  | calling start answer => exact (h.calling start answer hk).1

theorem Timely.renewed (h : w.Timely t) (hin : w.InTime (t + seconds Limits.heartbeatSeconds)) : (w.renewed t).Timely t := by
  refine ⟨h.leased, fun wake hw => ?_, nofun⟩
  cases hw
  exact ⟨Int.le_add_of_nonneg_right (by decide), hin⟩

theorem Timely.failed (h : w.Timely t) (hin : t < w.deadline → w.InTime (t + seconds 2)) : (w.failed t).Timely t := by
  unfold Live.failed
  split_ifs with hd
  · refine ⟨h.leased, fun wake hw => ?_, nofun⟩
    cases hw
    exact ⟨Int.le_add_of_nonneg_right (by decide), hin hd⟩
  · exact ⟨h.leased, nofun, nofun⟩

theorem Timely.beaten {env : Env} {start : Time} {owned : Bool} (h : w.Timely t) (hk : w.keep = .calling start none)
    (hstart : start ≤ env.now 0) (hread : env.By t) : (w.beaten env start owned).Timely t := by
  obtain ⟨hin, hle⟩ := h.calling start none hk
  have hnew : w.leased ≤ env.now 1 := (hle rfl).trans (hstart.trans (hread.1 (Nat.zero_le 1)))
  refine ⟨?_, nofun, fun start' answer hk' => ?_⟩
  · cases owned
    · exact h.leased
    · exact hread.2 1
  · cases hk'
    refine ⟨fun hm => (hin hm).trans_le ?_, nofun⟩
    unfold free Live.beaten
    cases owned
    · exact le_rfl
    · show w.leased + _ + _ ≤ env.now 1 + _ + _
      linarith

end Live

namespace Keeping

theorem timely_step {l : Label} (hs : ∀ k w, s.runs k = some w → w.Timely s.clock) (h : Step s l s')
    (hp : s.Prompt l) : ∀ k w, s'.runs k = some w → w.Timely s'.clock := by
  -- one of the runs changes
  have one : ∀ {k : ℕ} {v : Live} {sys : Sys}, v.Timely s.clock →
      ∀ k' w, (Keeping.put { s with sys := sys } k v).runs k' = some w → w.Timely s.clock := by
    intro k v sys hv k' w hw
    rcases put_cases hw with ⟨-, rfl⟩ | ⟨-, hw⟩
    · exact hv
    · exact hs k' w hw
  cases h with
  | claim _ _ _ hread => exact one ⟨hread.2 1, nofun, nofun⟩
  | begin hk => exact one ((hs _ _ hk).renewed (hp _ hk))
  | @wake k w wake hk hkeep hle =>
    have ht := hs k w hk
    refine one ⟨ht.leased, nofun, fun start answer h => ?_⟩
    cases h
    exact ⟨(ht.pausing wake hkeep).2.mono (ht.pausing wake hkeep).1, fun _ => ht.leased⟩
  | beat hk hkeep hstart hread => exact one ((hs _ _ hk).beaten hkeep hstart hread)
  | @answer k w start owned hk hkeep =>
    cases owned with
    | true => exact one ((hs k w hk).renewed (hp w start hk hkeep))
    | false => exact one ⟨(hs k w hk).leased, nofun, nofun⟩
  | fail hk => exact one ((hs _ _ hk).failed (hp _ hk))
  | finish hk => exact one ⟨(hs _ _ hk).leased, nofun, nofun⟩
  | @tick t hle hwake =>
    intro k w hk
    have ht := hs k w hk
    refine ⟨ht.leased.trans hle, fun wake hkeep => ⟨hwake k w wake hk hkeep, (ht.pausing wake hkeep).2⟩, ?_⟩
    exact fun start answer hkeep => ⟨hp k w start answer hk hkeep, (ht.calling start answer hkeep).2⟩
  | other => exact hs

theorem timely_of_reachable (h : prompt.Reachable s) :
    machine.Reachable s ∧ ∀ k w, s.runs k = some w → w.Timely s.clock := by
  refine Machine.Reachable.invariant (M := prompt)
    (I := fun s => machine.Reachable s ∧ ∀ k w, s.runs k = some w → w.Timely s.clock) ?_ ?_ h
  · refine fun s h₀ => ⟨.of_init h₀, fun k w hk => ?_⟩
    rw [h₀.2 k] at hk
    cases hk
  · intro s l s' ⟨hr, ht⟩ hstep
    exact ⟨hr.step hstep.1, timely_step ht hstep.1 hstep.2⟩

/-- **Prompt calls keep a task and a later claim apart**: in every state of a run whose heartbeats are all answered
before the job is free, and whose pauses all end before it, no running task has a later claim of its job beside it. -/
theorem exclusive_of_prompt (h : prompt.Reachable s) : s.Exclusive := by
  obtain ⟨hr, ht⟩ := timely_of_reachable h
  have hs := inv_of_reachable hr
  intro k w hk hrun c hc hid hlt _
  have hstop : w.keep ≠ .stopped := by
    intro hstop
    rw [Live.isRunning, hstop] at hrun
    cases hrun
  obtain ⟨hm, hfree⟩ := (hs.stands k w hk hstop).later (Sys.numbered_of_reachable hs.sys) hc hid hlt
  exact absurd ((ht k w hk).inTime hrun hm) (not_lt.mpr hfree)

end Keeping

/-! ## Bounds on the calls -/

namespace Keeping

/-- `keep_lease` starts within `a` of the claim, an answer comes within `a` of the renewal it reports, and every call ends
within `b` of its start. -/
def Swift (a b : Time) (s : Keeping) : Label → Prop
  | .begin k => ∀ w, s.runs k = some w → s.clock ≤ w.leased + a
  | .answer k => ∀ w start, s.runs k = some w → w.keep = .calling start (some true) → s.clock ≤ w.leased + a
  | .tick t => ∀ k w start answer, s.runs k = some w → w.keep = .calling start answer → t ≤ start + b
  | _ => True

def swift (a b : Time) : Machine Keeping Label where
  init := machine.init
  step s l s' := Step s l s' ∧ s.Swift a b l

end Keeping

/-- What the bounds say of one `keep_lease`. -/
structure Live.Paced (a b : Time) (w : Live) (t : Time) : Prop where
  deadline : w.isRunning = true → w.deadline ≤ w.leased + a + seconds Limits.leaseSeconds
  pausing : ∀ wake, w.keep = .pausing wake → wake ≤ w.leased + a + seconds Limits.leaseSeconds + seconds 2
  calling : ∀ start answer, w.keep = .calling start answer → start ≤ t ∧ t ≤ start + b ∧
    start ≤ w.leased + a + seconds Limits.leaseSeconds + seconds 2

namespace Live

variable {a b t : Time} {w : Live}

theorem ten_le_retryDelay (n : ℕ) : seconds 10 ≤ retryDelay n := by
  unfold retryDelay
  split_ifs <;> decide

theorem inTime_of_le (hab : a + b + seconds 2 < seconds 10)
    (h : t ≤ w.leased + a + seconds Limits.leaseSeconds + seconds 2 + b) : w.InTime t := by
  intro _
  have hdelay := ten_le_retryDelay w.claim.attempt
  unfold free
  linarith

theorem Paced.renewed (ht : t ≤ w.leased + a) : (w.renewed t).Paced a b t := by
  refine ⟨fun _ => ?_, fun wake hw => ?_, nofun⟩
  · show t + _ ≤ w.leased + a + _
    linarith
  · cases hw
    have h30 : seconds Limits.heartbeatSeconds ≤ seconds Limits.leaseSeconds + seconds 2 := by decide
    show t + _ ≤ w.leased + a + _ + _
    linarith

theorem Paced.failed {start : Time} {answer : Option Bool} (h : w.Paced a b t) (hk : w.keep = .calling start answer) :
    (w.failed t).Paced a b t := by
  have hd := h.deadline (by rw [isRunning, hk])
  unfold Live.failed
  split_ifs with hlt
  · refine ⟨fun _ => hd, fun wake hw => ?_, nofun⟩
    cases hw
    show t + _ ≤ _
    linarith
  · exact ⟨nofun, nofun, nofun⟩

theorem Paced.beaten {env : Env} {start : Time} {owned : Bool} (h : w.Paced a b t) (hk : w.keep = .calling start none)
    (hle : w.leased ≤ env.now 1) : (w.beaten env start owned).Paced a b t := by
  obtain ⟨h₁, h₂, h₃⟩ := h.calling start none hk
  have hd := h.deadline (by rw [isRunning, hk])
  have hnew : w.leased ≤ (w.beaten env start owned).leased := by
    cases owned
    · exact le_rfl
    · exact hle
  refine ⟨fun _ => ?_, nofun, fun start' answer hk' => ?_⟩
  · show w.deadline ≤ _
    linarith
  · cases hk'
    exact ⟨h₁, h₂, by linarith⟩

end Live

namespace Keeping

variable {a b : Time}

theorem paced_step {l : Label} (hb : 0 ≤ b) (ht : ∀ k w, s.runs k = some w → w.Timely s.clock)
    (hs : ∀ k w, s.runs k = some w → w.Paced a b s.clock) (h : Step s l s') (hw : s.Swift a b l) :
    ∀ k w, s'.runs k = some w → w.Paced a b s'.clock := by
  have one : ∀ {k : ℕ} {v : Live} {sys : Sys}, v.Paced a b s.clock →
      ∀ k' w, (Keeping.put { s with sys := sys } k v).runs k' = some w → w.Paced a b s.clock := by
    intro k v sys hv k' w hw
    rcases put_cases hw with ⟨-, rfl⟩ | ⟨-, hw⟩
    · exact hv
    · exact hs k' w hw
  cases h with
  | claim => exact one ⟨nofun, nofun, nofun⟩
  | begin hk => exact one (.renewed (hw _ hk))
  | @wake k w wake hk hkeep hle =>
    have hp := hs k w hk
    refine one ⟨fun _ => hp.deadline (by rw [Live.isRunning, hkeep]), nofun, fun start answer h => ?_⟩
    cases h
    exact ⟨le_rfl, Int.le_add_of_nonneg_right hb, ((ht k w hk).pausing wake hkeep).1.trans (hp.pausing wake hkeep)⟩
  | @beat k w start env owned db hk hkeep hstart hread =>
    have hle : w.leased ≤ env.now 1 :=
      (((ht k w hk).calling start none hkeep).2 rfl).trans (hstart.trans (hread.1 (Nat.zero_le 1)))
    exact one ((hs k w hk).beaten hkeep hle)
  | @answer k w start owned hk hkeep =>
    cases owned with
    | true => exact one (.renewed (hw w start hk hkeep))
    | false => exact one ⟨nofun, nofun, nofun⟩
  | fail hk hkeep => exact one ((hs _ _ hk).failed hkeep)
  | finish hk => exact one ⟨nofun, nofun, nofun⟩
  | @tick t hle =>
    intro k w hk
    have hp := hs k w hk
    refine ⟨hp.deadline, hp.pausing, fun start answer hkeep => ?_⟩
    obtain ⟨h₁, -, h₃⟩ := hp.calling start answer hkeep
    exact ⟨h₁.trans hle, hw k w start answer hk hkeep, h₃⟩
  | other => exact hs

/-- **Calls that end within `b`, and answers and starts that come within `a`, are prompt** if both together leave two of
the ten seconds before the next attempt. -/
theorem prompt_of_swift (hb : 0 ≤ b) (hab : a + b + seconds 2 < seconds 10) (h : (swift a b).Reachable s) :
    prompt.Reachable s := by
  refine (Machine.Reachable.invariant (M := swift a b)
    (I := fun s => prompt.Reachable s ∧ ∀ k w, s.runs k = some w → w.Paced a b s.clock) ?_ ?_ h).1
  · refine fun s h₀ => ⟨.of_init h₀, fun k w hk => ?_⟩
    rw [h₀.2 k] at hk
    cases hk
  · intro s l s' ⟨hr, hp⟩ ⟨hstep, hw⟩
    have ht := (timely_of_reachable hr).2
    refine ⟨hr.step ⟨hstep, ?_⟩, paced_step hb ht hp hstep hw⟩
    have h30 : seconds Limits.heartbeatSeconds ≤ seconds Limits.leaseSeconds + seconds 2 := by decide
    cases hstep with
    | begin hk =>
      intro w hk'
      have := hw w hk'
      exact Live.inTime_of_le hab (by linarith)
    | answer hk hkeep =>
      intro w start hk' hkeep'
      have := hw w start hk' hkeep'
      exact Live.inTime_of_le hab (by linarith)
    | @fail k w start answer hk hkeep =>
      intro w' hk' hd
      obtain rfl := Option.some.inj (hk.symm.trans hk')
      have := (hp k w hk).deadline (by rw [Live.isRunning, hkeep])
      exact Live.inTime_of_le hab (by linarith)
    | @tick t hle =>
      intro k w start answer hk hkeep
      have h₃ := ((hp k w hk).calling start answer hkeep).2.2
      have := hw k w start answer hk hkeep
      exact Live.inTime_of_le hab (by linarith)
    | _ => trivial

end Keeping

/-! ## A sample run -/

namespace Hung

open Sample Keeping

theorem by_env {m n : ℕ} (h : m ≤ n) : (env m).By (seconds n) :=
  ⟨fun _ _ _ => le_rfl, fun _ => Int.mul_le_mul_of_nonneg_left (Int.ofNat_le.mpr h) (by decide)⟩

/-- The one `run_one` of the sample. -/
def one (w : Live) : ℕ → Option Live := Function.update (fun _ => none) 0 (some w)

theorem one_eq {w v : Live} {k : ℕ} (h : one w k = some v) : v = w := by
  by_cases hk : k = 0
  · subst hk
    exact (Option.some.inj h).symm
  · rw [one, Function.update_of_ne hk] at h
    cases h

/-- A step of the one `run_one`. -/
theorem reachable_put {sys sys' : Sys} {clock : Time} {w w' : Live} {l : Label} (h : prompt.Reachable ⟨sys, clock, one w⟩)
    (hs : Step ⟨sys, clock, one w⟩ l (Keeping.put ⟨sys', clock, one w⟩ 0 w')) (hp : Prompt ⟨sys, clock, one w⟩ l) :
    prompt.Reachable ⟨sys', clock, one w'⟩ := by
  have h' := h.step (show prompt.step _ l _ from ⟨hs, hp⟩)
  simpa only [Keeping.put, one, Function.update_idem] using h'

/-- The claim of second 2, before its `keep_lease` starts. -/
def claimed : Live := ⟨analyzeClaim, seconds 2, 0, .starting⟩

def pausing : Live := claimed.renewed (seconds 2)

/-- The first heartbeat begins at second 32. -/
def calling : Live := { pausing with keep := .calling (seconds 32) none }

theorem reachable_claimed : prompt.Reachable ⟨after 2, seconds 2, one claimed⟩ := by
  have h₀ : prompt.Reachable ⟨start, seconds 1, fun _ => none⟩ := .of_init ⟨⟨_, by decide, rfl⟩, fun _ => rfl⟩
  have h₁ := h₀.step (show prompt.step _ (.other (.ingest (env 1) request intake sha)) _ from
    ⟨.other trivial trivial (fun e he => by cases he; exact by_env le_rfl) nofun, trivial⟩)
  have h₂ := h₁.step (show prompt.step _ (.tick (seconds 2)) _ from ⟨.tick (by decide) nofun, nofun⟩)
  have hc : claimJob settings (env 2) (fun _ => false) (after 1).db = .ok (some analyzeClaim, (after 2).db) := by rfl
  exact h₂.step (show prompt.step _ (.claim 0 settings (env 2) fun _ => false) _ from
    ⟨.claim rfl hc nofun (by_env le_rfl), trivial⟩)

theorem reachable_calling : prompt.Reachable ⟨after 2, seconds 32, one calling⟩ := by
  have h₁ : prompt.Reachable ⟨after 2, seconds 2, one pausing⟩ := by
    refine reachable_put reachable_claimed (l := .begin 0) (.begin rfl rfl) fun w hw _ => ?_
    obtain rfl : w = claimed := one_eq (k := 0) hw
    decide
  have h₂ : prompt.Reachable ⟨after 2, seconds 32, one pausing⟩ := by
    refine h₁.step (show prompt.step _ (.tick (seconds 32)) _ from ⟨.tick (by decide) ?_, ?_⟩)
    · intro k w wake hw hk
      rw [one_eq hw] at hk
      cases hk
      decide
    · intro k w start answer hw hk
      rw [one_eq hw] at hk
      cases hk
  exact reachable_put h₂ (l := .wake 0) (.wake rfl rfl (by decide)) trivial

/-- The heartbeat renews the lease at second 32 and is answered at second 34. -/
theorem exclusive_of_prompt_sample :
    Exclusive ⟨(after 2).exec (.heartbeat (env 32) analyzeClaim), seconds 34, one (calling.beaten (env 32) (seconds 32) true)⟩ := by
  have hb : heartbeat (env 32) analyzeClaim (after 2).db =
      .ok (true, ((after 2).exec (.heartbeat (env 32) analyzeClaim)).db) := by rfl
  have h₁ : prompt.Reachable ⟨(after 2).exec (.heartbeat (env 32) analyzeClaim), seconds 32,
      one (calling.beaten (env 32) (seconds 32) true)⟩ :=
    reachable_put reachable_calling (l := .beat 0 (env 32))
      (.beat (s := ⟨after 2, seconds 32, one calling⟩) (w := calling) rfl rfl
        (show seconds 32 ≤ (env 32).now 0 from le_rfl) (by_env le_rfl) hb) trivial
  refine exclusive_of_prompt (h₁.step (show prompt.step _ (.tick (seconds 34)) _ from ⟨.tick (by decide) ?_, ?_⟩))
  · intro k w wake hw hk
    rw [one_eq hw] at hk
    cases hk
  · intro k w start answer hw hk _
    rw [one_eq hw]
    decide

/-- The first heartbeat gets no answer.  The lease ends at second 122, the pause before the next attempt at second
132, and another worker has the job while the task still runs. -/
theorem not_exclusive : ¬ ∀ s, machine.Reachable s → s.Exclusive := by
  intro hall
  have h₀ := (timely_of_reachable reachable_calling).1
  have tick : ∀ {sys : Sys} {t t' : Time}, machine.Reachable ⟨sys, t, one calling⟩ → t ≤ t' →
      machine.Reachable ⟨sys, t', one calling⟩ := fun h hle =>
    h.step (show machine.step _ (.tick _) _ from .tick hle fun k w wake hw hk => by
      rw [one_eq hw] at hk
      cases hk)
  have h₁ := (tick h₀ (show seconds 32 ≤ seconds 122 by decide)).step
    (show machine.step _ (.other (.recoverExpired (env 122) [18])) _ from
      .other trivial trivial (fun e he => by cases he; exact by_env le_rfl) nofun)
  have h₂ := (tick h₁ (show seconds 122 ≤ seconds 132 by decide)).step
    (show machine.step _ (.other (.claimJob settings (env 132) fun _ => false)) _ from
      .other trivial (show ∀ c ∈ ((after 2).exec (.recoverExpired (env 122) [18])).issued, c.token ≠ (env 132).uuid 0 by decide)
        (fun e he => by cases he; exact by_env le_rfl) nofun)
  have hlater : ∃ c ∈ (((after 2).exec (.recoverExpired (env 122) [18])).exec
      (.claimJob settings (env 132) fun _ => false)).issued, c.jobId = analyzeClaim.jobId ∧
      analyzeClaim.attempt < c.attempt ∧ Store.Current (((after 2).exec (.recoverExpired (env 122) [18])).exec
      (.claimJob settings (env 132) fun _ => false)).db c := by decide
  obtain ⟨c, hc, hid, hlt, hcur⟩ := hlater
  exact hall _ h₂ 0 calling rfl rfl c hc hid hlt hcur

end Hung

end Aeh
