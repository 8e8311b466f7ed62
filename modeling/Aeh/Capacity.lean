import Aeh.JobStep

/-!
# Capacity — the limit on unfinished jobs

Only a receipt that opens an incident and an approval add a job, each after `_require_job_capacity`
(`Sys.job_created`), and no transaction makes a finished job active again (`Sys.active_step`).  So a limit that
all of them use is kept.  Whether a call is refused for it depends on what the call would add.
-/

namespace Aeh

/-- The job counts against the limit. -/
def Job.isActive (j : Job) : Bool := j.status = .pending || j.status = .running

namespace Sys

open Table

variable {s s' : Sys} {tx : Tx} {x : Uuid} {j j' : Job}

/-- The only row an insertion adds. -/
theorem id_of_addJob {db db' : Store} {job : Job} (ha : db.addJob job = .ok db') (hn : db.jobs.get x = none)
    (hj : db'.jobs.get x = some j) : x = job.id := by
  obtain ⟨t, ht, rfl⟩ := Store.addJob_ok ha
  by_contra hx
  rw [show t.get x = db.jobs.get x from get_insert_ne ht hx, hn] at hj
  cases hj

/-- An update adds no row. -/
theorem get_put_none {db : Store} {job : Job} (hn : db.jobs.get x = none) : (db.jobs.put job).get x = none := by
  rw [get_eq_none] at hn ⊢
  intro r hr
  rcases mem_put.mp hr with ⟨rfl, r₀, h₀, he⟩ | ⟨hr, -⟩
  · exact he ▸ hn r₀ h₀
  · exact hn r hr

/-- A job row comes from a receipt or an approval that had capacity for it. -/
theorem job_created (h : machine.step s tx s') (hn : s.db.jobs.get x = none) (hj : s'.db.jobs.get x = some j) :
    ∃ env ∈ tx.addsJob, x = env.uuid 2 ∧ requireJobCapacity env.jobLimit s.db = .ok () := by
  have hstep := jobs_step h
  generalize s'.db.jobs = t at hj hstep
  cases hstep with
  | same => exact absurd (hn.symm.trans hj) (by simp)
  | @added _ env job db₁ db₂ ha hjobs htx hid _ hcap =>
    rw [← hjobs] at hn
    exact ⟨env, htx, (id_of_addJob ha hn hj).trans hid, hcap⟩
  | put => exact absurd ((get_put_none hn).symm.trans hj) (by simp)
  | lapsed hl =>
    rcases hl x with he | ⟨j, -, -, hg, -⟩
    · exact absurd ((he.trans hn).symm.trans hj) (by simp)
    · exact absurd (hn.symm.trans hg) (by simp)

/-- A job active after a step was active before, or the step has added it. -/
theorem active_step (h : machine.step s tx s') (hj' : s'.db.jobs.get x = some j') (ha : j'.isActive = true) :
    (∃ j, s.db.jobs.get x = some j ∧ j.isActive = true) ∨ s.db.jobs.get x = none := by
  have hstep := job_step h x
  rw [hj'] at hstep
  generalize hj : s.db.jobs.get x = o at hstep
  cases hstep with
  | same => exact Or.inl ⟨j', rfl, ha⟩
  | created => exact Or.inr rfl
  | claimed j _ hs => exact Or.inl ⟨j, rfl, by simp [Job.isActive, hs]⟩
  | renewed j _ hh => exact Or.inl ⟨j, rfl, by simp [Job.isActive, (heldBy_iff.mp hh).2.2]⟩
  | expired j _ _ he =>
    simp only [Job.isExpiredAt, Bool.and_eq_true, decide_eq_true_eq] at he
    exact Or.inl ⟨j, rfl, by simp [Job.isActive, he.1]⟩
  | finished j _ _ hh => exact Or.inl ⟨j, rfl, by simp [Job.isActive, (heldBy_iff.mp hh).2.2]⟩

end Sys

/-! ## The count -/

/-- A query answers with no more rows than one whose keys include its own. -/
theorem Table.length_select_le {ρ κ : Type} [Keyed ρ κ] (t t' : Table ρ) (p q : ρ → Bool) (extra : List κ)
    (h : ∀ r ∈ t'.rows, q r = true → (∃ r₀ ∈ t.rows, Keyed.key r₀ = Keyed.key r ∧ p r₀ = true) ∨ Keyed.key r ∈ extra) :
    (t'.select q).length ≤ (t.select p).length + extra.length := by
  have hsub : (t'.select q).map Keyed.key ⊆ (t.select p).map Keyed.key ++ extra := by
    intro k hk
    obtain ⟨r, hr, rfl⟩ := List.mem_map.mp hk
    obtain ⟨hr, hq⟩ := mem_select.mp hr
    rcases h r hr hq with ⟨r₀, h₀, he, hp⟩ | he
    · exact List.mem_append_left _ (List.mem_map.mpr ⟨r₀, mem_select.mpr ⟨h₀, hp⟩, he⟩)
    · exact List.mem_append_right _ he
  have := ((select_nodup t' q).subperm hsub).length_le
  simpa using this

theorem activeJobCount_eq (db : Store) : IncidentRepository.activeJobCount db = (db.jobs.select Job.isActive).length :=
  rfl

theorem requireJobCapacity_ok {limit : ℕ} {db : Store} :
    requireJobCapacity limit db = .ok () ↔ IncidentRepository.activeJobCount db < limit := by
  unfold requireJobCapacity
  split_ifs with h
  · simp only [false_iff]
    omega
  · simp only [true_iff]
    omega

theorem requireJobCapacity_error {limit : ℕ} {db : Store} (h : limit ≤ IncidentRepository.activeJobCount db) :
    requireJobCapacity limit db = .error (aehError 503 "AEH-JOB-503-001" "Pending job limit reached") := if_pos h

namespace Sys

variable {s s' : Sys} {tx : Tx} {limit : ℕ}

/-- One transaction keeps the number of active jobs within a limit it uses. -/
theorem count_step (h : machine.step s tx s') (hl : ∀ env ∈ tx.addsJob, env.jobLimit = limit)
    (hc : IncidentRepository.activeJobCount s.db ≤ limit) : IncidentRepository.activeJobCount s'.db ≤ limit := by
  rw [activeJobCount_eq] at *
  have hactive : ∀ j' ∈ s'.db.jobs.rows, j'.isActive = true →
      (∃ j ∈ s.db.jobs.rows, j.id = j'.id ∧ j.isActive = true) ∨ s.db.jobs.get j'.id = none := by
    intro j' hj' ha
    rcases active_step h (Table.get_self hj') ha with ⟨j, hj, ha'⟩ | hn
    · obtain ⟨hm, hid⟩ := Table.get_eq_some.mp hj
      exact Or.inl ⟨j, hm, hid, ha'⟩
    · exact Or.inr hn
  by_cases hnew : ∃ j' ∈ s'.db.jobs.rows, s.db.jobs.get j'.id = none
  · -- one job is added, and there was capacity for it
    obtain ⟨j', hj', hn⟩ := hnew
    obtain ⟨env, he, hid, hcap⟩ := job_created h hn (Table.get_self hj')
    rw [requireJobCapacity_ok, hl env he, activeJobCount_eq] at hcap
    have hle := Table.length_select_le s.db.jobs s'.db.jobs Job.isActive Job.isActive [j'.id] ?_
    · rw [List.length_singleton] at hle
      omega
    · intro r hr ha
      rcases hactive r hr ha with h' | hn'
      · exact Or.inl h'
      · obtain ⟨env', he', hid', -⟩ := job_created h hn' (Table.get_self hr)
        obtain rfl : env' = env := Option.some.inj (he'.symm.trans he)
        exact Or.inr (List.mem_singleton.mpr (hid'.trans hid.symm))
  · have hle := Table.length_select_le s.db.jobs s'.db.jobs Job.isActive Job.isActive [] ?_
    · exact hle.trans hc
    · intro r hr ha
      exact Or.inl ((hactive r hr ha).resolve_right fun hn => hnew ⟨r, hr, hn⟩)

/-- The runs whose receipts and approvals all use one limit. -/
def limited (limit : ℕ) : Machine Sys Tx where
  init := Start
  step s tx s' := machine.step s tx s' ∧ ∀ env ∈ tx.addsJob, env.jobLimit = limit

theorem count_of_reachable (h : (limited limit).Reachable s) : IncidentRepository.activeJobCount s.db ≤ limit := by
  refine Machine.Reachable.invariant (M := limited limit)
    (I := fun s => IncidentRepository.activeJobCount s.db ≤ limit) ?_ ?_ h
  · rintro _ ⟨services, -, rfl⟩
    exact Nat.zero_le _
  · intro s tx s' hc hs
    exact count_step hs.1 hs.2 hc

end Sys

/-! ## Who is refused -/

section Refusals

variable {db db' : Store} {env : Env} {request : EventRequest} {intake : Intake} {sha : PyStr}

/-- A receipt whose event is stored already or joins an open incident does not look at the limit. -/
theorem ingestResolved_limit {service : Service} {n : ℕ}
    (hs : IncidentRepository.serviceById db intake.serviceId = some service)
    (h : IncidentRepository.eventByIdentity db service.id intake.eventId ≠ none ∨
      ∃ fingerprint, request.normalized.getStr "fingerprint" = .ok fingerprint ∧
        IncidentRepository.openIncident db service.id fingerprint sha ≠ none) :
    ingestResolved { env with jobLimit := n } request intake sha db = ingestResolved env request intake sha db := by
  unfold ingestResolved
  rw [hs]
  by_cases ha : service.active = false
  · simp only [ha, if_true]
  · simp only [ha]
    cases hd : duplicate db service.id intake.eventId request.checksum with
    | error e => rfl
    | ok d =>
      cases d with
      | some receipt => rfl
      | none =>
        obtain ⟨fingerprint, hf, ho⟩ := h.resolve_left fun hne => hne (duplicate_none.mp hd)
        have hopen : (IncidentRepository.openIncident db service.id fingerprint sha).isNone = false := by
          cases he : IncidentRepository.openIncident db service.id fingerprint sha with
          | none => exact absurd he ho
          | some inc => rfl
        simp only [hf, bind, Except.bind, hopen]
        cases env.backend.holdsText fingerprint <;> rfl

/-- A receipt that would open an incident with another limit is refused for lack of capacity. -/
theorem ingestResolved_refused {n : ℕ} {r : Receipt}
    (h : ingestResolved { env with jobLimit := n } request intake sha db = .ok (r, db'))
    (hn : db.incidents.get r.incidentId = none) (hl : env.jobLimit ≤ IncidentRepository.activeJobCount db) :
    ingestResolved env request intake sha db =
      .error (aehError 503 "AEH-JOB-503-001" "Pending job limit reached") := by
  have known : ∀ inc ∈ db.incidents.rows, r.incidentId ≠ inc.id := by
    intro inc hi he
    exact Table.get_eq_none.mp hn inc hi he.symm
  obtain ⟨service, hs, ha, ⟨hd, -⟩ | ⟨hd, hp, fingerprint, inc, occurredAt, db₁, db₂, hf, ⟨hholds, -⟩, h₁, h₂, -, rfl⟩⟩ :=
    ingestResolved_ok h
  · obtain ⟨row, inc, -, -, hi, rfl⟩ := duplicate_some hd
    exact absurd rfl (known inc (Table.mem_of_first hi).1)
  · have ho : IncidentRepository.openIncident db service.id fingerprint sha = none := by
      cases ho : IncidentRepository.openIncident db service.id fingerprint sha with
      | none => rfl
      | some joined =>
        rw [ho] at h₂
        rcases joinIncident_ok h₂ with ⟨joined', he, rfl, -⟩ | ⟨he, -⟩
        · cases he
          exact absurd rfl (known joined (Table.mem_of_first ho).1)
        · cases he
    have hholds' : env.backend.holdsText fingerprint = true := hholds
    unfold ingestResolved
    rw [hs]
    simp only [ha, hd, hp, hf, hholds', ho, bind, Except.bind, requireJobCapacity_error hl]
    simp

/-- An approval that would add a PATCH job with another limit is refused for lack of capacity. -/
theorem approveOnce_refused {n : ℕ} {incidentId key : Uuid} {r : ApprovalReceipt}
    (h : approveOnce { env with jobLimit := n } incidentId key db = .ok (r, db')) (hn : r.duplicate = false)
    (hl : env.jobLimit ≤ IncidentRepository.activeJobCount db) :
    approveOnce env incidentId key db = .error (aehError 503 "AEH-JOB-503-001" "Pending job limit reached") := by
  obtain ⟨inc, hi, ⟨existing, patch, -, -, -, rfl, -⟩ | ⟨hk, hst, run, hr, hpol, hsha, ha, -⟩⟩ := approveOnce_ok h
  · cases hn
  · unfold approveOnce
    rw [hi, hk]
    simp only [hst, hr, hpol, hsha, ha, bind, Except.bind, requireJobCapacity_error hl]
    simp

end Refusals

namespace Sys

variable {s : Sys} {limit : ℕ}

/-- **The job limit**: no more than `limit` jobs are unfinished in any run that uses it; a receipt or an approval
that would add a job at the limit fails with 503 and leaves the store as it was; a receipt that adds none gives the
same answer with any limit.  A transaction is one moment: that READ COMMITTED shows its queries different rows is left
out. -/
theorem jobs_limited (h : (limited limit).Reachable s) :
    IncidentRepository.activeJobCount s.db ≤ limit ∧
    (limit ≤ IncidentRepository.activeJobCount s.db →
      (∀ env request intake sha n r db', env.jobLimit = limit →
        ingestResolved { env with jobLimit := n } request intake sha s.db = .ok (r, db') →
        s.db.incidents.get r.incidentId = none →
        ingestResolved env request intake sha s.db =
          .error (aehError 503 "AEH-JOB-503-001" "Pending job limit reached") ∧
        s.exec (.ingest env request intake sha) = s) ∧
      ∀ env incidentId key n r db', env.jobLimit = limit →
        approveOnce { env with jobLimit := n } incidentId key s.db = .ok (r, db') → r.duplicate = false →
        approveOnce env incidentId key s.db =
          .error (aehError 503 "AEH-JOB-503-001" "Pending job limit reached") ∧
        s.exec (.approve env incidentId key) = s) ∧
    ∀ env request intake sha service, IncidentRepository.serviceById s.db intake.serviceId = some service →
      (IncidentRepository.eventByIdentity s.db service.id intake.eventId ≠ none ∨
        ∃ fingerprint, request.normalized.getStr "fingerprint" = .ok fingerprint ∧
          IncidentRepository.openIncident s.db service.id fingerprint sha ≠ none) →
      ∀ n, ingestResolved { env with jobLimit := n } request intake sha s.db =
        ingestResolved env request intake sha s.db := by
  refine ⟨count_of_reachable h, fun hfull => ⟨?_, ?_⟩, fun env request intake sha service hs hd n => ?_⟩
  · intro env request intake sha n r db' hl hr hn
    have he := ingestResolved_refused hr hn (by rw [hl]; exact hfull)
    refine ⟨he, ?_⟩
    simp only [exec, he]
    rfl
  · intro env incidentId key n r db' hl hr hn
    have he := approveOnce_refused hr hn (by rw [hl]; exact hfull)
    refine ⟨he, ?_⟩
    simp only [exec, he]
    rfl
  · exact ingestResolved_limit hs hd

end Sys

namespace Full

open Sample

/-- The sample parties under a limit of one job. -/
def env (k : ℕ) : Env := { Sample.env k with jobLimit := 1 }

/-- An event of another group. -/
def other : EventRequest :=
  { request with checksum := "d", normalized := .obj [(lit "fingerprint", .str (lit "g"))] }

def busy : Sys := start.exec (.ingest (env 1) request intake sha)

/-- With one unfinished job the second incident has to wait. -/
theorem jobs_limited_sample :
    ingestResolved (env 2) other { intake with eventId := 8 } sha busy.db =
        .error (aehError 503 "AEH-JOB-503-001" "Pending job limit reached") ∧
      busy.exec (.ingest (env 2) other { intake with eventId := 8 } sha) = busy := by
  have h₀ : (Sys.limited 1).Reachable start := .of_init ⟨_, by decide, rfl⟩
  have h₁ : (Sys.limited 1).Reachable busy :=
    h₀.step (show (Sys.limited 1).step _ (.ingest (env 1) request intake sha) _ from ⟨⟨trivial, rfl⟩, by
      rintro e ⟨⟩
      rfl⟩)
  have hr : ∃ db', ingestResolved { env 2 with jobLimit := 2 } other { intake with eventId := 8 } sha busy.db =
      .ok (⟨8, 33, .received, false⟩, db') := ⟨_, rfl⟩
  obtain ⟨db', hr⟩ := hr
  exact ((Sys.jobs_limited h₁).2.1 (by decide)).1 (env 2) other { intake with eventId := 8 } sha 2 _ db' rfl hr (by decide)

end Full

end Aeh
