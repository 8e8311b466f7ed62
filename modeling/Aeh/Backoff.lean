import Mathlib.Tactic.Linarith
import Aeh.JobStep
import Aeh.Lease

/-!
# Backoff — when a job is tried again

An attempt that has not ended its job is followed by the next one after the retry delay of its number at the earliest,
and after a lease more if no outcome of it was recorded, so that the worker may have been lost (`Timed.backoff`).
-/

namespace Aeh

/-- A step issues the claim `c`; `env` is what it draws. -/
def Timed.Claims (c : Claim) (env : Env) (e : Entry Timed Tx) : Prop :=
  ∃ settings skip, e.label = .claimJob settings env skip ∧ e.post.sys.issued = c :: e.pre.sys.issued

/-- A `finalize` for the attempt of the claim `c`. -/
def Tx.Finalizes (c : Claim) : Tx → Prop
  | .finalize _ claim _ _ => claim.jobId = c.jobId ∧ claim.token = c.token
  | _ => False

/-! ## The row of the job -/

theorem Job.isOver_ended (j : Job) (code : Option String) (detail : Option PyStr) (outcome : Outcome) :
    (j.ended code detail outcome.jobStatus).isOver = true := by
  have hstatus : (j.ended code detail outcome.jobStatus).status = outcome.jobStatus := rfl
  unfold isOver
  rw [hstatus, Outcome.jobStatus]
  cases outcome.failed <;> rfl

/-- A claim takes a job that is available. -/
theorem Sys.available_of_claimed {s s' : Sys} {settings : Settings} {env : Env} {skip : Uuid → Bool}
    (h : machine.step s (.claimJob settings env skip) s') {x : Uuid} {j j' : Job} (hj : s.db.jobs.get x = some j)
    (hj' : s'.db.jobs.get x = some j') (hne : j' ≠ j) : j.availableAt ≤ env.now 0 := by
  rcases claim_step h with rfl | ⟨job, c, hm, -, hav, -, -, -, -, hjobs⟩
  · exact absurd (Option.some.inj (hj'.symm.trans hj)) hne
  · by_cases hx : x = job.id
    · have hg : s.db.jobs.get job.id = some job := Table.get_self hm
      obtain rfl := Option.some.inj (hj.symm.trans (hx ▸ hg))
      exact hav
    · rw [hjobs, Table.get_put_ne hx, hj] at hj'
      exact absurd (Option.some.inj hj').symm hne

namespace Timed

variable {t t' : Timed} {tx : Tx} {tr : List (Entry Timed Tx)} {c : Claim} {l b : Time}

/-- The attempt of `c`, claimed at `l`, is under way, waits for the next one at `b` or later, or was the last, unless it is
`b` already. -/
def Resting (c : Claim) (l b : Time) (t : Timed) : Prop :=
  b ≤ t.clock ∨ ∃ j, t.sys.db.jobs.get c.jobId = some j ∧
    (j.heldBy c = true ∧ j.attempt = c.attempt ∧ (∃ since, j.lockedAt = some since ∧ l ≤ since) ∨
      j.status = .pending ∧ b ≤ j.availableAt ∨ j.isOver = true)

/-- One step of any party leaves the attempt at rest until `b`. -/
theorem resting_step (hs : machine.step t tx t') (hl : l ≤ t.clock)
    (hlease : b ≤ l + seconds Limits.leaseSeconds + retryDelay c.attempt)
    (hfin : tx.Finalizes c → b ≤ l + retryDelay c.attempt) (h : Resting c l b t) : Resting c l b t' := by
  obtain ⟨hstep, -, hclock, hbetween⟩ := hs
  rcases h with h | ⟨j, hj, h⟩
  · exact Or.inl (h.trans hclock)
  have hrow := Sys.job_step hstep c.jobId
  rw [hj] at hrow
  generalize ho : t'.sys.db.jobs.get c.jobId = o at hrow
  cases hrow with
  | same => exact Or.inr ⟨j, ho, h⟩
  | @claimed settings env skip _ htx hs =>
    subst htx
    have hne : j.claimed (env.uuid 0) settings.workerId (env.now 1) ≠ j := fun he => by
      have hstatus : JobStatus.running = j.status := congrArg Job.status he
      cases hstatus.trans hs
    rcases h with ⟨hh, -⟩ | ⟨-, hav⟩ | hover
    · cases hs.symm.trans (heldBy_iff.mp hh).2.2
    · -- it was available at the first reading
      have hle := Sys.available_of_claimed hstep hj ho hne
      exact Or.inl ((hav.trans hle).trans ((hbetween env rfl).2.2 0))
    · cases hover.symm.trans (j.not_isOver (Or.inl hs))
  | @renewed env claim _ htx hh _ =>
    subst htx
    have hs := (heldBy_iff.mp hh).2.2
    obtain ⟨hstart, hmono, -⟩ := hbetween env rfl
    rcases h with ⟨hc, hn, -⟩ | ⟨hp, -⟩ | hover
    · refine Or.inr ⟨_, ho, Or.inl ⟨hc, hn, env.now 1, rfl, ?_⟩⟩
      exact (hl.trans hstart).trans (hmono (Nat.zero_le 1))
    · cases hs.symm.trans hp
    · cases hover.symm.trans (j.not_isOver (Or.inr hs))
  | @expired env rows _ j' htx he _ =>
    subst htx
    obtain ⟨-, hmono, -⟩ := hbetween env rfl
    simp only [Job.isExpiredAt, Bool.and_eq_true, decide_eq_true_eq] at he
    obtain ⟨hs, hexp⟩ := he
    rcases h with ⟨hc, hn, since, hsince, hle⟩ | ⟨hp, -⟩ | hover
    · rw [hsince] at hexp
      have hlapse : since ≤ leaseLimit (env.now 0) := by simpa using hexp
      rcases Sys.recover_step hstep c.jobId with heq | ⟨j₁, j₂, i, hg, hg', -, hlapsed⟩
      · rw [hj, ho] at heq
        obtain rfl := Option.some.inj heq
        exact Or.inr ⟨_, ho, Or.inl ⟨hc, hn, since, hsince, hle⟩⟩
      · obtain rfl := Option.some.inj (hj.symm.trans hg)
        refine Or.inr ⟨j₂, hg', ?_⟩
        cases hlapsed with
        | requeued =>
          refine Or.inr (Or.inl ⟨rfl, ?_⟩)
          show b ≤ env.now i + retryDelay j.attempt
          have hi : env.now 0 ≤ env.now i := hmono (Nat.zero_le i)
          unfold leaseLimit at hlapse
          rw [hn]
          linarith
        | failed => exact Or.inr (Or.inr rfl)
    · cases hs.symm.trans hp
    · cases hover.symm.trans (j.not_isOver (Or.inr hs))
  | @finished env claim outcome version _ j' htx hh _ _ =>
    subst htx
    have hs := (heldBy_iff.mp hh).2.2
    obtain ⟨hstart, hmono, -⟩ := hbetween env rfl
    rcases h with ⟨hc, hn, hsince⟩ | ⟨hp, -⟩ | hover
    · have htoken := (heldBy_iff.mp hh).2.1.symm.trans (heldBy_iff.mp hc).2.1
      have hb := hfin ⟨(heldBy_iff.mp hh).1.symm.trans (heldBy_iff.mp hc).1, Option.some.inj htoken⟩
      have hrow : j' = j ∨ j' = j.requeued outcome.errorCode outcome.errorDetail (env.now 1) ∨ j'.isOver = true := by
        obtain ⟨-, he⟩ := hstep
        rw [he] at ho
        revert ho
        refine Sys.settle_ok (P := fun db => db.jobs.get c.jobId = some j' → _) (fun ho => ?_) fun r db' hr' ho => ?_
        · exact Or.inl (Option.some.inj (ho.symm.trans hj))
        · by_cases hne : j' = j
          · exact Or.inl hne
          · obtain ⟨-, -, ⟨-, rfl⟩ | ⟨-, rfl⟩⟩ := finalize_changes hr' hj ho hne
            · exact Or.inr (Or.inl rfl)
            · exact Or.inr (Or.inr (j.isOver_ended _ _ outcome))
      refine Or.inr ⟨j', ho, ?_⟩
      rcases hrow with rfl | rfl | hover
      · exact Or.inl ⟨hc, hn, hsince⟩
      · refine Or.inr (Or.inl ⟨rfl, ?_⟩)
        show b ≤ env.now 1 + retryDelay j.attempt
        have h1 : env.now 0 ≤ env.now 1 := hmono (Nat.zero_le 1)
        rw [hn]
        linarith
      · exact Or.inr (Or.inr hover)
    · cases hs.symm.trans hp
    · cases hover.symm.trans (j.not_isOver (Or.inr hs))

/-- A run without an outcome for the attempt, or with any if `b` leaves out the lease. -/
theorem resting_run (h : machine.Reachable t) (hr : machine.Run t tr t') (hl : l ≤ t.clock)
    (hlease : b ≤ l + seconds Limits.leaseSeconds + retryDelay c.attempt)
    (hfin : (∃ e ∈ tr, e.label.Finalizes c) → b ≤ l + retryDelay c.attempt) (hrest : Resting c l b t) :
    Resting c l b t' := by
  induction hr with
  | nil => exact hrest
  | @snoc tr m m' tx hr hs ih =>
    have hclock : t.clock ≤ m.clock := Machine.Run.rel (M := machine) (R := fun a b => a.clock ≤ b.clock)
      (fun _ => le_rfl) (fun _ _ _ => le_trans) (fun _ _ _ _ hs => hs.2.2.1) h hr
    have hm : Resting c l b m := ih fun ⟨e, he, hx⟩ => hfin ⟨e, List.mem_append_left _ he, hx⟩
    exact resting_step hs (hl.trans hclock) hlease
      (fun hx => hfin ⟨⟨m, tx, m'⟩, List.mem_append_right _ (List.mem_singleton_self _), hx⟩) hm

/-- What a claim finds and leaves. -/
theorem claims_row {e : Entry Timed Tx} {env : Env} (hs : machine.step e.pre e.label e.post) (he : Claims c env e) :
    (∃ j, e.pre.sys.db.jobs.get c.jobId = some j ∧ j.status = .pending ∧ j.availableAt ≤ env.now 0) ∧
      ∃ j, e.post.sys.db.jobs.get c.jobId = some j ∧ j.heldBy c = true ∧ j.attempt = c.attempt ∧
        j.lockedAt = some (env.now 1) := by
  obtain ⟨settings, skip, hlabel, hissued⟩ := he
  rw [hlabel] at hs
  rcases Sys.claim_step hs.1 with hsame | ⟨job, c', hm, hp, hav, hid, htoken, hattempt, hissued', hjobs⟩
  · rw [hsame] at hissued
    exact absurd hissued.symm (List.cons_ne_self c _)
  · obtain rfl : c = c' := (List.cons.inj (hissued.symm.trans hissued')).1
    have hg : e.pre.sys.db.jobs.get job.id = some job := Table.get_self hm
    have hheld : (job.claimed (env.uuid 0) settings.workerId (env.now 1)).heldBy c = true :=
      heldBy_iff.mpr ⟨hid.symm, congrArg some htoken.symm, rfl⟩
    rw [hid]
    refine ⟨⟨job, hg, hp, hav⟩, job.claimed (env.uuid 0) settings.workerId (env.now 1), ?_, hheld, hattempt.symm, rfl⟩
    rw [hjobs]
    exact Table.get_put_self hg

/-- **No attempt begins before its time**: between two claims of a job lies the retry delay of the earlier one, and a lease
more unless its outcome was brought between them. -/
theorem backoff {e e' : Entry Timed Tx} {env env' : Env} {c' : Claim} (h : machine.Reachable t)
    (hr : machine.Run t (e :: tr ++ [e']) t') (he : Claims c env e) (he' : Claims c' env' e')
    (hjob : c'.jobId = c.jobId) :
    env.now 1 + retryDelay c.attempt ≤ env'.now 0 ∧
      ((∀ e'' ∈ tr, ¬ e''.label.Finalizes c) →
        env.now 1 + seconds Limits.leaseSeconds + retryDelay c.attempt ≤ env'.now 0) := by
  obtain ⟨hrun, hs', -⟩ := hr.at
  obtain ⟨rfl, hs, hrun⟩ := hrun.head
  obtain ⟨-, j, hj, hheld, hattempt, hlocked⟩ := claims_row hs he
  obtain ⟨⟨j', hj', hpending, hav⟩, -⟩ := claims_row hs' he'
  rw [hjob] at hj'
  have hl : env.now 1 ≤ e.post.clock := by
    obtain ⟨settings, skip, hlabel, -⟩ := he
    rw [hlabel] at hs
    exact (hs.2.2.2 env rfl).2.2 1
  have hstart : e'.pre.clock ≤ env'.now 0 := by
    obtain ⟨settings, skip, hlabel, -⟩ := he'
    rw [hlabel] at hs'
    exact (hs'.2.2.2 env' rfl).1
  -- the job rests from the first claim to the second
  have waits : ∀ b, b ≤ env.now 1 + seconds Limits.leaseSeconds + retryDelay c.attempt →
      ((∃ e'' ∈ tr, e''.label.Finalizes c) → b ≤ env.now 1 + retryDelay c.attempt) → b ≤ env'.now 0 := by
    intro b hlease hfin
    have hrest := resting_run (h.step hs) hrun hl hlease hfin
      (Or.inr ⟨j, hj, Or.inl ⟨hheld, hattempt, env.now 1, hlocked, le_rfl⟩⟩)
    rcases hrest with hb | ⟨j₁, hj₁, hrest⟩
    · exact hb.trans hstart
    · obtain rfl := Option.some.inj (hj'.symm.trans hj₁)
      rcases hrest with ⟨hh, -⟩ | ⟨-, hb⟩ | hover
      · cases hpending.symm.trans (heldBy_iff.mp hh).2.2
      · exact hb.trans hav
      · cases hover.symm.trans (j'.not_isOver (Or.inl hpending))
  have hpos : 0 ≤ seconds Limits.leaseSeconds := by decide
  refine ⟨waits _ (by linarith) fun _ => le_rfl, fun hno => waits _ le_rfl ?_⟩
  rintro ⟨e'', hm, hx⟩
  exact absurd hx (hno e'' hm)

end Timed

/-! A lease that runs out, and the next attempt at the first moment it can begin. -/

namespace Retried

open Sample

def expired : Sys := (after 2).exec (.recoverExpired (env 122) [18])

def claimed : Sys := expired.exec (.claimJob settings (env 132) fun _ => false)

def first : Entry Timed Tx := ⟨⟨after 1, seconds 1⟩, .claimJob settings (env 2) fun _ => false, ⟨after 2, seconds 2⟩⟩

def second : Entry Timed Tx :=
  ⟨⟨expired, seconds 122⟩, .claimJob settings (env 132) fun _ => false, ⟨claimed, seconds 132⟩⟩

theorem backoff_sample : (env 2).now 1 + seconds Limits.leaseSeconds + retryDelay 1 ≤ (env 132).now 0 := by
  have h₁ : Timed.machine.step ⟨start, seconds 0⟩ (.ingest (env 1) request intake sha) ⟨after 1, seconds 1⟩ :=
    Timed.sample_step trivial trivial (by decide) rfl
  have h₂ : Timed.machine.step first.pre first.label first.post :=
    Timed.sample_step trivial (by intro c hc; exact (List.not_mem_nil hc).elim) (by decide) rfl
  have h₃ : Timed.machine.step ⟨after 2, seconds 2⟩ (.recoverExpired (env 122) [18]) ⟨expired, seconds 122⟩ :=
    Timed.sample_step trivial trivial (by decide) rfl
  have h₄ : Timed.machine.step second.pre second.label second.post :=
    Timed.sample_step trivial (show ∀ c ∈ expired.issued, c.token ≠ (env 132).uuid 0 by decide) (by decide) rfl
  have h : Timed.machine.Reachable first.pre :=
    (Machine.Reachable.of_init (M := Timed.machine) ⟨_, by decide, rfl⟩).step h₁
  have hr := Machine.Run.cons h₂ ((Machine.Run.one h₃).append (Machine.Run.one h₄))
  have he' : Timed.Claims ⟨18, 2112, 17, .analyze, 2, 2⟩ (env 132) second := ⟨_, _, rfl, by rfl⟩
  refine (Timed.backoff (c := analyzeClaim) h hr ⟨_, _, rfl, by rfl⟩ he' rfl).2 fun e he => ?_
  obtain rfl := List.mem_singleton.mp he
  exact id

end Retried

end Aeh
