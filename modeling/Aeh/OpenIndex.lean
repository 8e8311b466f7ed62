import Aeh.System

/-!
# OpenIndex — the unique index on open incidents

`OpenUnique` is what `uq_incidents_open_grouping` enforces: no two open incidents share service,
fingerprint and commit.  The database checks it at every insertion and update, so it holds in every
reachable state; conversely an update that opens nothing never violates it (`updateIncident_total`).
-/

namespace Aeh

/-- No two open incidents share service, fingerprint and commit. -/
def Store.OpenUnique (db : Store) : Prop :=
  ∀ a ∈ db.incidents.rows, ∀ b ∈ db.incidents.rows, a.id ≠ b.id → a.clash b = false

theorem Incident.clash_iff {a b : Incident} : a.clash b = true ↔ a.state.isOpen = true ∧ b.state.isOpen = true ∧
    a.serviceId = b.serviceId ∧ a.fingerprint = b.fingerprint ∧ a.baseCommitSha = b.baseCommitSha := by
  simp [Incident.clash, and_assoc]

theorem Incident.clash_comm (a b : Incident) : a.clash b = b.clash a := by
  rw [Bool.eq_iff_iff, clash_iff, clash_iff]
  tauto

/-- A later version of an incident clashes with no more incidents than an earlier one, unless it reopens. -/
theorem Incident.SameCase.clash {a a' b : Incident} (same : a.SameCase a')
    (ho : a'.state.isOpen = true → a.state.isOpen = true) (h : a'.clash b = true) : a.clash b = true := by
  obtain ⟨h1, h2, h3, h4, h5⟩ := clash_iff.mp h
  exact clash_iff.mpr ⟨ho h1, h2, same.service ▸ h3, same.fingerprint ▸ h4, same.sha ▸ h5⟩

namespace Store

variable {db db₁ db' : Store}

theorem OpenUnique.of_eq (h : db.OpenUnique) (he : db'.incidents = db.incidents) : db'.OpenUnique := by
  unfold OpenUnique
  rw [he]
  exact h

theorem updateIncident_no_clash {r : Incident} (h : db.updateIncident r = .ok db') :
    ∀ b ∈ db.incidents.rows, b.id ≠ r.id → r.clash b = false := by
  unfold updateIncident at h
  split_ifs at h with hc
  intro b hb hne
  by_contra hcl
  exact hc (List.any_eq_true.mpr ⟨b, hb, by simp [hne, hcl]⟩)

/-- An update from a store with the same incidents. -/
theorem OpenUnique.updateIncident (h : db.OpenUnique) {r : Incident} (hu : db₁.updateIncident r = .ok db')
    (he : db₁.incidents = db.incidents) : db'.OpenUnique := by
  have hno := updateIncident_no_clash hu
  rw [updateIncident_ok hu]
  rw [he] at hno ⊢
  intro a ha b hb hne
  rcases Table.mem_put.mp ha with ⟨rfl, -⟩ | ⟨hma, hka⟩ <;> rcases Table.mem_put.mp hb with ⟨rfl, -⟩ | ⟨hmb, hkb⟩
  · exact absurd rfl hne
  · exact hno b hmb hkb
  · rw [Incident.clash_comm]
    exact hno a hma hka
  · exact h a hma b hmb hne

theorem OpenUnique.addIncident (h : db.OpenUnique) {r : Incident} (ha : db.addIncident r = .ok db') :
    db'.OpenUnique := by
  obtain ⟨t, ht, rfl⟩ := addIncident_ok ha
  have hno := (Table.insert_eq_some ht).2.2
  intro a hma b hmb hne
  rcases (Table.mem_insert ht).mp hma with hma | rfl <;> rcases (Table.mem_insert ht).mp hmb with hmb | rfl
  · exact h a hma b hmb hne
  · rw [Incident.clash_comm]
    exact hno a hma
  · exact hno b hmb
  · exact absurd rfl hne

/-- An update that keeps the incident's case and does not reopen it passes the index. -/
theorem updateIncident_total (h : db.OpenUnique) {inc inc' : Incident} (hi : inc ∈ db.incidents.rows)
    (same : inc.SameCase inc') (ho : inc'.state.isOpen = true → inc.state.isOpen = true) :
    db.updateIncident inc' = .ok { db with incidents := db.incidents.put inc' } := by
  unfold updateIncident
  rw [if_neg]
  intro hc
  obtain ⟨b, hb, hp⟩ := List.any_eq_true.mp hc
  simp only [ne_eq, decide_not, Bool.and_eq_true, Bool.not_eq_true', decide_eq_false_iff_not] at hp
  have hcl := same.clash ho hp.2
  rw [h inc hi b hb (fun he => hp.1 (he.symm.trans same.id.symm))] at hcl
  cases hcl

end Store

/-! ## Every transaction keeps the index -/

section Transactions

open Store

variable {db db' : Store} {settings : Settings} {env : Env}

theorem ensureRun_incidents {inc : Incident} (h : ensureRun settings env inc db = .ok db') :
    db'.incidents = db.incidents := by
  rcases ensureRun_ok h with ⟨rfl, -⟩ | ⟨-, policy, ha⟩
  · rfl
  · obtain ⟨t, -, rfl⟩ := addAnalysisRun_ok ha
    rfl

theorem claimJob_openUnique {skip : Uuid → Bool} {r : Option Claim} (hu : db.OpenUnique)
    (h : claimJob settings env skip db = .ok (r, db')) : db'.OpenUnique := by
  rcases claimJob_ok h with ⟨-, rfl⟩ | ⟨job, inc, inc', -, -, -, -, hb, -⟩
  · exact hu
  · cases ht : job.type with
    | analyze =>
      rw [ht] at hb
      obtain ⟨db₁, h₁, hb⟩ := claimAnalyze_ok hb
      have he := ensureRun_incidents h₁
      rcases hb with ⟨-, -, h₂⟩ | ⟨-, -, rfl⟩
      · exact hu.updateIncident h₂ he
      · exact hu.of_eq he
    | patch =>
      rw [ht] at hb
      obtain ⟨patch, -, ⟨-, -, h₂⟩ | ⟨-, -, rfl⟩⟩ := claimPatch_ok hb
      · exact hu.updateIncident h₂ rfl
      · exact hu.of_eq rfl

theorem recoverOne_openUnique {t : Time} {job : Job} (hu : db.OpenUnique) (h : recoverOne t db job = .ok db') :
    db'.OpenUnique := by
  obtain ⟨inc, -, ⟨-, rfl⟩ | ⟨-, -, run, -, h⟩ | ⟨-, -, patch, -, h⟩⟩ := recoverOne_ok h
  · exact hu.of_eq rfl
  · exact hu.updateIncident h rfl
  · exact hu.updateIncident h rfl

theorem recoverAll_openUnique {k : ℕ} {jobs : List Job} (hu : db.OpenUnique)
    (h : recoverAll env k jobs db = .ok db') : db'.OpenUnique := by
  induction jobs generalizing k db with
  | nil =>
    obtain rfl := Except.ok.inj h
    exact hu
  | cons job jobs ih =>
    obtain ⟨db₁, h₁, h⟩ := bind_eq_ok.mp h
    exact ih (recoverOne_openUnique hu h₁) h

theorem finish_openUnique {db₁ : Store} {t : Time} {type : JobType} {inc : Incident} {outcome : Outcome}
    (hu : db.OpenUnique) (h : finish t type inc outcome db₁ = .ok db') (he : db₁.incidents = db.incidents) :
    db'.OpenUnique := by
  rcases finish_ok h with ⟨-, run, -, h⟩ | ⟨-, patch, -, h⟩
  · exact hu.updateIncident h he
  · exact hu.updateIncident h he

theorem ingestResolved_openUnique {request : EventRequest} {intake : Intake} {sha : PyStr} {r : Receipt}
    (hu : db.OpenUnique) (h : ingestResolved env request intake sha db = .ok (r, db')) : db'.OpenUnique := by
  obtain ⟨service, -, -, ⟨-, rfl⟩ | ⟨-, -, fp, inc, occurredAt, db₁, db₂, -, -, h₁, h₂, h₃, -⟩⟩ := ingestResolved_ok h
  · exact hu
  · obtain ⟨t, -, rfl⟩ := addErrorEvent_ok h₁
    obtain ⟨t', -, rfl⟩ := addOccurrence_ok h₃
    have hu₁ : Store.OpenUnique { db with errorEvents := t } := hu.of_eq rfl
    rcases joinIncident_ok h₂ with ⟨joined, -, -, h⟩ | ⟨-, -, db₃, ha, hj⟩
    · exact (hu₁.updateIncident h rfl).of_eq rfl
    · obtain ⟨t'', -, rfl⟩ := addJob_ok hj
      exact (hu₁.addIncident ha).of_eq rfl

theorem approveOnce_openUnique {incidentId key : Uuid} {r : ApprovalReceipt} (hu : db.OpenUnique)
    (h : approveOnce env incidentId key db = .ok (r, db')) : db'.OpenUnique := by
  obtain ⟨inc, -, ⟨-, -, -, -, -, -, rfl⟩ | ⟨-, -, run, -, -, -, -, -, h, -⟩⟩ := approveOnce_ok h
  · exact hu
  · obtain ⟨db₁, db₂, db₃, h₁, h₂, h₃, h₄⟩ := addApproved_ok h
    obtain ⟨t₁, -, rfl⟩ := addApproval_ok h₁
    obtain ⟨t₂, -, rfl⟩ := addPatchRun_ok h₂
    obtain ⟨t₃, -, rfl⟩ := addJob_ok h₃
    exact hu.updateIncident h₄ rfl

end Transactions

namespace Sys

/-- The index holds after every transaction. -/
theorem openUnique_step {s s' : Sys} {tx : Tx} (hu : s.db.OpenUnique) (h : machine.step s tx s') :
    s'.db.OpenUnique := by
  obtain ⟨-, rfl⟩ := h
  cases tx with
  | ingest env request intake sha => exact settle_ok hu fun _ _ h => ingestResolved_openUnique hu h
  | approve env incidentId key => exact settle_ok hu fun _ _ h => approveOnce_openUnique hu h
  | syncServices settings fs env policies =>
    refine settle_ok hu fun _ _ h => ?_
    obtain ⟨db₁, h, h'⟩ := bind_eq_ok.mp h
    cases h'
    obtain ⟨t, rfl⟩ := syncAll_frame h
    exact hu.of_eq rfl
  | claimJob settings env skip =>
    simp only [exec]
    split
    · rename_i h
      exact claimJob_openUnique hu h
    · rename_i h
      exact claimJob_openUnique hu h
    · exact hu
  | heartbeat env claim =>
    refine settle_ok hu fun _ _ h => ?_
    rcases heartbeat_ok h with ⟨-, rfl⟩ | ⟨job, -, -, -, -, rfl⟩
    · exact hu
    · exact hu.of_eq rfl
  | recoverExpired env rows =>
    refine settle_ok hu fun _ _ h => ?_
    obtain ⟨db₁, h, h'⟩ := bind_eq_ok.mp h
    cases h'
    exact recoverAll_openUnique hu h
  | markValidating claim =>
    simp only [exec]
    split
    · rename_i h
      obtain ⟨job, inc, patch, db₁, -, -, -, -, hup, -, -, rfl⟩ := markValidating_ok h
      exact (hu.updateIncident hup rfl).of_eq rfl
    · exact hu
  | finalize env claim outcome version =>
    refine settle_ok hu fun _ _ h => ?_
    rcases finalize_ok h with ⟨-, rfl⟩ | ⟨job, inc, -, -, -, -, -, -, ⟨-, -, rfl⟩ | h⟩
    · exact hu
    · exact hu.of_eq rfl
    · exact finish_openUnique hu h rfl

/-- **The index on open incidents holds in every reachable state.** -/
theorem openUnique_of_reachable {s : Sys} (h : machine.Reachable s) : s.db.OpenUnique := by
  refine Machine.Reachable.invariant (I := fun s => s.db.OpenUnique) ?_ (fun _ _ _ hs h => openUnique_step hs h) h
  rintro _ ⟨services, -, rfl⟩ a ha
  exact (List.not_mem_nil ha).elim

end Sys

end Aeh
