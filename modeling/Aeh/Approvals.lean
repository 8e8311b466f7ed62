import Aeh.Receipts

/-!
# Approvals — calls of `approve` interleaved with everything else

A call of `approve` tries its write transaction, and once more after a violated unique constraint unless its
key belongs to another incident by then.  The constraint can be violated only by a try that has seen its key
unused (`enter`), since a try that finds the key writes nothing.
-/

namespace Aeh

/-! ## The table of approvals -/

section Transactions

open Store

variable {db db' : Store} {settings : Settings} {env : Env}

theorem ingestResolved_approvals {request : EventRequest} {intake : Intake} {sha : PyStr} {r : Receipt}
    (h : ingestResolved env request intake sha db = .ok (r, db')) : db'.approvals = db.approvals := by
  obtain ⟨service, -, -, ⟨-, rfl⟩ | ⟨-, -, fp, inc, occurredAt, db₁, db₂, -, -, h₁, h₂, h₃, -⟩⟩ := ingestResolved_ok h
  · rfl
  · obtain ⟨t, -, rfl⟩ := addErrorEvent_ok h₁
    obtain ⟨t', -, rfl⟩ := addOccurrence_ok h₃
    rcases joinIncident_ok h₂ with ⟨joined, -, -, hu⟩ | ⟨-, -, db₃, ha, hj⟩
    · obtain rfl := Store.updateIncident_ok hu
      rfl
    · obtain ⟨ti, -, rfl⟩ := addIncident_ok ha
      obtain ⟨tj, -, rfl⟩ := addJob_ok hj
      rfl

/-- An approval that is no replay inserts one row with a new key. -/
theorem approveOnce_inserts {incidentId key : Uuid} {r : ApprovalReceipt}
    (h : approveOnce env incidentId key db = .ok (r, db')) :
    db' = db ∨ ∃ a t, a.idempotencyKey = key ∧ IncidentRepository.approvalByKey db key = none ∧
      db.approvals.insert (fun a b => a.incidentId = b.incidentId || a.idempotencyKey = b.idempotencyKey) a = some t ∧
      db'.approvals = t := by
  obtain ⟨inc, -, ⟨-, -, -, -, -, -, rfl⟩ | ⟨hkey, -, run, -, -, -, -, -, h, -⟩⟩ := approveOnce_ok h
  · exact Or.inl rfl
  · obtain ⟨db₁, db₂, db₃, h₁, h₂, h₃, h₄⟩ := addApproved_ok h
    obtain ⟨t₁, ht₁, rfl⟩ := addApproval_ok h₁
    obtain ⟨t₂, -, rfl⟩ := addPatchRun_ok h₂
    obtain ⟨t₃, -, rfl⟩ := addJob_ok h₃
    obtain rfl := Store.updateIncident_ok h₄
    exact Or.inr ⟨newApproval env inc run key, t₁, rfl, hkey, ht₁, rfl⟩

end Transactions

/-- No two approvals share their key. -/
def Store.KeysDistinct (db : Store) : Prop :=
  ∀ a ∈ db.approvals.rows, ∀ b ∈ db.approvals.rows, a.idempotencyKey = b.idempotencyKey → a = b

theorem Store.KeysDistinct.of_eq {db db' : Store} (h : db.KeysDistinct) (he : db'.approvals = db.approvals) :
    db'.KeysDistinct := by
  unfold KeysDistinct
  rw [he]
  exact h

namespace Sys

/-- Only an approval writes approvals. -/
theorem approvals_step {s s' : Sys} {tx : Tx} (h : machine.step s tx s')
    (hn : ∀ env incidentId key, tx ≠ .approve env incidentId key) : s'.db.approvals = s.db.approvals := by
  obtain ⟨-, rfl⟩ := h
  cases tx with
  | approve env incidentId key => exact absurd rfl (hn env incidentId key)
  | ingest env request intake sha =>
    exact settle_ok (P := fun db => db.approvals = s.db.approvals) rfl fun _ _ h => ingestResolved_approvals h
  | syncServices settings fs env policies =>
    refine settle_ok (P := fun db => db.approvals = s.db.approvals) rfl fun _ _ h => ?_
    obtain ⟨db₁, h, h'⟩ := bind_eq_ok.mp h
    cases h'
    obtain ⟨t, rfl⟩ := syncAll_frame h
    rfl
  | claimJob settings env skip =>
    have key : ∀ {r db'}, Aeh.claimJob settings env skip s.db = .ok (r, db') → db'.approvals = s.db.approvals := by
      intro r db' h
      rcases claimJob_ok h with ⟨-, rfl⟩ | ⟨job, inc, inc', -, -, -, -, hb, -⟩
      · rfl
      · obtain ⟨is, rs, ps, rfl⟩ := claimBranch_frame hb
        rfl
    simp only [exec]
    split
    · rename_i h
      exact key h
    · rename_i h
      exact key h
    · rfl
  | heartbeat env claim =>
    refine settle_ok (P := fun db => db.approvals = s.db.approvals) rfl fun _ _ h => ?_
    rcases heartbeat_ok h with ⟨-, rfl⟩ | ⟨job, -, -, -, -, rfl⟩ <;> rfl
  | recoverExpired env rows =>
    refine settle_ok (P := fun db => db.approvals = s.db.approvals) rfl fun _ _ h => ?_
    obtain ⟨db₁, h, h'⟩ := bind_eq_ok.mp h
    cases h'
    obtain ⟨is, rs, ps, js, rfl⟩ := recoverAll_frame h
    rfl
  | markValidating claim =>
    simp only [exec]
    split
    · rename_i h
      obtain ⟨job, inc, patch, db₁, -, -, -, -, hu, -, -, rfl⟩ := markValidating_ok h
      obtain rfl := Store.updateIncident_ok hu
      rfl
    · rfl
  | finalize env claim outcome version =>
    refine settle_ok (P := fun db => db.approvals = s.db.approvals) rfl fun _ _ h => ?_
    rcases finalize_ok h with ⟨-, rfl⟩ | ⟨job, inc, -, -, -, -, -, -, ⟨-, -, rfl⟩ | h⟩
    · rfl
    · rfl
    · rcases finish_ok h with ⟨-, run, -, hu⟩ | ⟨-, patch, -, hu⟩
      · obtain rfl := Store.updateIncident_ok hu
        rfl
      · obtain rfl := Store.updateIncident_ok hu
        rfl

theorem keysDistinct_step {s s' : Sys} {tx : Tx} (hd : s.db.KeysDistinct) (h : machine.step s tx s') :
    s'.db.KeysDistinct := by
  by_cases ha : ∃ env incidentId key, tx = .approve env incidentId key
  · obtain ⟨env, incidentId, key, rfl⟩ := ha
    obtain ⟨-, rfl⟩ := h
    refine settle_ok hd fun r db' hr => ?_
    rcases approveOnce_inserts hr with rfl | ⟨a, t, -, -, ht, he⟩
    · exact hd
    · have hclash : ∀ b ∈ s.db.approvals.rows, a.idempotencyKey ≠ b.idempotencyKey := by
        intro b hb
        have hc := (Table.insert_eq_some ht).2.2 b hb
        exact of_decide_eq_false (Bool.or_eq_false_iff.mp hc).2
      unfold Store.KeysDistinct
      rw [he]
      intro b hb c hc hbc
      rcases (Table.mem_insert ht).mp hb with hb | rfl <;> rcases (Table.mem_insert ht).mp hc with hc | rfl
      · exact hd b hb c hc hbc
      · exact absurd hbc.symm (hclash b hb)
      · exact absurd hbc (hclash c hc)
      · rfl
  · exact hd.of_eq (approvals_step h fun env incidentId key he => ha ⟨env, incidentId, key, he⟩)

theorem keysDistinct_of_reachable {s : Sys} (h : machine.Reachable s) : s.db.KeysDistinct := by
  refine Machine.Reachable.invariant (I := fun s => s.db.KeysDistinct) ?_ (fun _ _ _ hs h => keysDistinct_step hs h) h
  rintro _ ⟨services, -, rfl⟩ a ha
  exact (List.not_mem_nil ha).elim

end Sys

/-! ## What a response stands for -/

/-- An approval of the incident with the key is stored, with its patch run. -/
def Store.Approved (db : Store) (incidentId key approvalId patchRunId : Uuid) : Prop :=
  ∃ a ∈ db.approvals.rows, a.incidentId = incidentId ∧ a.idempotencyKey = key ∧ a.id = approvalId ∧
    ∃ p ∈ db.patchRuns.rows, p.approvalId = a.id ∧ p.incidentId = incidentId ∧ p.id = patchRunId

section Approved

variable {db : Store} {i key : Uuid}

/-- An incident has at most one patch run and one PATCH job. -/
theorem Dossier.Ok.at_most_one {d : Dossier} (hd : d.Ok) : (∀ p ∈ d.patchRuns, ∀ q ∈ d.patchRuns, p = q) ∧
    ∀ j ∈ d.jobs, ∀ j' ∈ d.jobs, j.type = .patch → j'.type = .patch → j = j' := by
  have single : ∀ {ja : Job}, ja.type = .analyze → ∀ j ∈ [ja], ∀ j' ∈ [ja], j.type = .patch → j'.type = .patch → j = j' :=
    fun _ j hj j' hj' _ _ => (List.mem_singleton.mp hj).trans (List.mem_singleton.mp hj').symm
  have pair : ∀ {ja jp : Job}, ja.type = .analyze → ∀ j ∈ [ja, jp], ∀ j' ∈ [ja, jp],
      j.type = .patch → j'.type = .patch → j = j' := by
    intro ja jp ha j hj j' hj' ht ht'
    rcases List.mem_pair.mp hj with rfl | rfl
    · cases ha.symm.trans ht
    · rcases List.mem_pair.mp hj' with rfl | rfl
      · cases ha.symm.trans ht'
      · rfl
  cases hd with
  | absent => exact ⟨by simp, fun _ hj => (List.not_mem_nil hj).elim⟩
  | received _ _ ha | analyzing _ _ ha | analyzed _ _ _ ha => exact ⟨by simp, single ha.type⟩
  | patching _ ha | patched _ _ _ _ ha => exact ⟨by simp, pair ha.type⟩

/-- The approval of an incident comes with the incident and its patch run. -/
theorem Dossier.Ok.of_approval {d : Dossier} (hd : d.Ok) {a : Approval} (ha : a ∈ d.approvals) :
    ∃ inc p, d.incident = some inc ∧ d.approvals = [a] ∧ d.patchRuns = [p] ∧ p.approvalId = a.id := by
  cases hd with
  | absent | received | analyzing | analyzed => exact (List.not_mem_nil ha).elim
  | patching _ _ _ _ _ _ hp | patched _ _ _ _ _ _ _ _ _ hp =>
    obtain rfl := List.mem_singleton.mp ha
    exact ⟨_, _, rfl, rfl, rfl, hp.approval⟩

theorem Store.Approved.unique (hok : ∀ i, (db.dossier i).Ok) (hk : db.KeysDistinct) {x y x' y' : Uuid}
    (h : db.Approved i key x y) (h' : db.Approved i key x' y') : x = x' ∧ y = y' := by
  obtain ⟨a, ha, hai, hak, rfl, p, hp, -, hpi, rfl⟩ := h
  obtain ⟨a', ha', -, hak', rfl, p', hp', -, hpi', rfl⟩ := h'
  obtain rfl := hk a ha a' ha' (hak.trans hak'.symm)
  refine ⟨rfl, ?_⟩
  obtain ⟨_, q, -, -, hq, -⟩ := (hok i).of_approval (Store.mem_dossier_approvals.mpr ⟨ha, hai⟩)
  have hmp := Store.mem_dossier_patchRuns.mpr ⟨hp, hpi⟩
  have hmp' := Store.mem_dossier_patchRuns.mpr ⟨hp', hpi'⟩
  rw [hq] at hmp hmp'
  rw [List.mem_singleton.mp hmp, List.mem_singleton.mp hmp']

/-- **A key used for its incident is replayed**, in every state of the incident. -/
theorem approveOnce_replays (hok : ∀ i, (db.dossier i).Ok) (hk : db.KeysDistinct) (env : Env) {a : Approval}
    (ha : a ∈ db.approvals.rows) :
    ∃ r : ApprovalReceipt, r.approvalId = a.id ∧ r.duplicate = true ∧
      approveOnce env a.incidentId a.idempotencyKey db = .ok (r, db) := by
  obtain ⟨inc, p, hi, -, hp, hpa⟩ := (hok a.incidentId).of_approval (Store.mem_dossier_approvals.mpr ⟨ha, rfl⟩)
  have hkey : IncidentRepository.approvalByKey db a.idempotencyKey = some a :=
    Table.first_eq_of_unique ha (by simp) fun b hb hp => hk b hb a ha (of_decide_eq_true hp)
  have hm := Store.mem_dossier_patchRuns.mp (hp ▸ List.mem_singleton_self p)
  obtain ⟨q, hq⟩ : ∃ q, IncidentRepository.patchByApproval db a.id = some q := by
    cases hf : IncidentRepository.patchByApproval db a.id with
    | some q => exact ⟨q, rfl⟩
    | none => exact absurd (by simp [hpa]) (Table.first_eq_none.mp hf p hm.1)
  refine ⟨⟨inc.id, a.id, q.id, true⟩, rfl, rfl, ?_⟩
  unfold approveOnce
  have hi' : db.incidents.get a.incidentId = some inc := hi
  simp only [hi', hkey, ne_eq, not_true_eq_false, if_false, hq]

/-- What the write transaction answers: the approval with the key, and `duplicate` unless the key is new. -/
theorem approveOnce_answer {db' : Store} {env : Env} (hok : ∀ i, (db.dossier i).Ok) {r : ApprovalReceipt}
    (h : approveOnce env i key db = .ok (r, db')) :
    db'.Approved i key r.approvalId r.patchRunId ∧
      (r.duplicate = true ∧ db' = db ∨ r.duplicate = false ∧ IncidentRepository.approvalByKey db key = none) := by
  obtain ⟨inc, hi, ⟨a, p, ha, hai, hp, rfl, rfl⟩ | ⟨hkey, -, run, -, -, -, -, -, hadd, rfl⟩⟩ := approveOnce_ok h
  · obtain ⟨hma, hka⟩ := Table.mem_of_first ha
    obtain ⟨hmp, hpa⟩ := Table.mem_of_first hp
    have hpa := of_decide_eq_true hpa
    obtain ⟨a', ha', hpa'⟩ := (hok p.incidentId).keys.1 p (Store.mem_dossier_patchRuns.mpr ⟨hmp, rfl⟩)
    obtain ⟨hma', hai'⟩ := Store.mem_dossier_approvals.mp ha'
    obtain rfl := Table.eq_of_key hma' hma (hpa'.symm.trans hpa)
    exact ⟨⟨a', hma', hai, of_decide_eq_true hka, rfl, p, hmp, hpa, hai'.symm.trans hai, rfl⟩, Or.inl ⟨rfl, rfl⟩⟩
  · obtain ⟨db₁, db₂, db₃, h₁, h₂, h₃, h₄⟩ := addApproved_ok hadd
    obtain ⟨t₁, ht₁, rfl⟩ := Store.addApproval_ok h₁
    obtain ⟨t₂, ht₂, rfl⟩ := Store.addPatchRun_ok h₂
    obtain ⟨t₃, -, rfl⟩ := Store.addJob_ok h₃
    obtain rfl := Store.updateIncident_ok h₄
    have hid := incident_id_of_get hi
    exact ⟨⟨_, (Table.mem_insert ht₁).mpr (Or.inr rfl), hid, rfl, rfl, _, (Table.mem_insert ht₂).mpr (Or.inr rfl), rfl,
      hid, rfl⟩, Or.inr ⟨rfl, hkey⟩⟩

/-- A key of another incident is refused. -/
theorem approveOnce_foreign (hk : db.KeysDistinct) (env : Env) {a : Approval} (ha : a ∈ db.approvals.rows)
    (hne : a.incidentId ≠ i) : ∃ e, approveOnce env i a.idempotencyKey db = .error e := by
  cases hr : approveOnce env i a.idempotencyKey db with
  | error e => exact ⟨e, rfl⟩
  | ok p =>
    obtain ⟨inc, -, ⟨b, -, hb, hbi, -⟩ | ⟨hn, -⟩⟩ := approveOnce_ok (r := p.1) (by rw [hr])
    · obtain ⟨hmb, hkb⟩ := Table.mem_of_first hb
      obtain rfl := hk b hmb a ha (of_decide_eq_true hkb)
      exact absurd hbi hne
    · exact absurd (by simp) (Table.first_eq_none.mp hn a ha)

/-- An unused key is refused unless its incident is approvable. -/
theorem approveOnce_unused (env : Env) (hn : ∀ a ∈ db.approvals.rows, a.idempotencyKey ≠ key)
    (hbad : (∃ a ∈ db.approvals.rows, a.incidentId = i) ∨ ∀ inc, db.incidents.get i = some inc →
      inc.state = .awaitingApproval → ∀ run, IncidentRepository.successfulAnalysis db i = [run] →
        run.baseCommitSha ≠ inc.baseCommitSha) : ∃ e, approveOnce env i key db = .error e := by
  cases hr : approveOnce env i key db with
  | error e => exact ⟨e, rfl⟩
  | ok p =>
    obtain ⟨inc, hi, ⟨a, -, ha, -⟩ | ⟨-, hst, run, hrun, -, hsha, hno, -⟩⟩ := approveOnce_ok (r := p.1) (by rw [hr])
    · obtain ⟨hm, hka⟩ := Table.mem_of_first ha
      exact absurd (of_decide_eq_true hka) (hn a hm)
    · have hid := incident_id_of_get hi
      rcases hbad with ⟨a, ha, hai⟩ | hbad
      · exact absurd (by simp [hai, hid]) (Table.first_eq_none.mp hno a ha)
      · exact absurd hsha (hbad inc hi hst run (hid ▸ hrun))

end Approved

/-- Approvals and their patch runs are never removed. -/
theorem Sys.approved_step {s s' : Sys} {tx : Tx} (hs : s.Inv) (h : machine.step s tx s') {i key x y : Uuid}
    (ha : s.db.Approved i key x y) : s'.db.Approved i key x y := by
  obtain ⟨a, ha, hai, hak, hid, p, hp, hpa, hpi, hpid⟩ := ha
  have hma := Store.mem_dossier_approvals.mpr ⟨ha, hai⟩
  have hmp := Store.mem_dossier_patchRuns.mpr ⟨hp, hpi⟩
  rcases step_moves hs h i with he | hm
  · rw [← he] at hma hmp
    exact ⟨a, (Store.mem_dossier_approvals.mp hma).1, hai, hak, hid, p, (Store.mem_dossier_patchRuns.mp hmp).1, hpa, hpi, hpid⟩
  · obtain ⟨p', hp', same⟩ := hm.patchRun (s.db.dossier_distinct i) hmp
    exact ⟨a, (Store.mem_dossier_approvals.mp (hm.approval hma)).1, hai, hak, hid, p',
      (Store.mem_dossier_patchRuns.mp hp').1, same.approval.trans hpa, same.incident.trans hpi, same.id.trans hpid⟩

/-- An approval is never changed or removed. -/
theorem Sys.approval_step {s s' : Sys} {tx : Tx} (hs : s.Inv) (h : machine.step s tx s') {a : Approval}
    (ha : a ∈ s.db.approvals.rows) : a ∈ s'.db.approvals.rows := by
  have hm := Store.mem_dossier_approvals.mpr ⟨ha, rfl⟩
  rcases step_moves hs h a.incidentId with he | hmove
  · rw [← he] at hm
    exact (Store.mem_dossier_approvals.mp hm).1
  · exact (Store.mem_dossier_approvals.mp (hmove.approval hm)).1

/-! ## Calls -/

/-- Where a call of `approve` is. -/
inductive ApproveCall where
  | waiting
  /-- `again` is the second try; `entered` that the try has seen a state in which it writes. -/
  | trying (incidentId key : Uuid) (again entered : Bool)
  | conflicted (incidentId key : Uuid)
  | answered (incidentId key : Uuid) (answer : Except Exn ApprovalReceipt)

namespace ApproveCall

/-- `approve` after a try: a violated unique constraint is caught once. -/
def afterTry (incidentId key : Uuid) (again : Bool) : Except Exn ApprovalReceipt → ApproveCall
  | .error .integrityError =>
    if again then answered incidentId key (.error .integrityError) else conflicted incidentId key
  | answer => answered incidentId key answer

/-- `approve` after its look at the key between the tries. -/
def afterCheck (incidentId key : Uuid) : Except Exn Unit → ApproveCall
  | .ok () => trying incidentId key true false
  | .error e => answered incidentId key (.error e)

end ApproveCall

/-- The transaction writes, or fails to. -/
def approveWrites (env : Env) (incidentId key : Uuid) (db : Store) : Prop :=
  (∃ r db', approveOnce env incidentId key db = .ok (r, db') ∧ r.duplicate = false) ∨
    approveOnce env incidentId key db = .error .integrityError

/-- The steps of calls of `approve` and of the other parties. -/
inductive ApproveLabel where
  | other (tx : Tx)
  | start (k : ℕ) (incidentId key : Uuid)
  | enter (k : ℕ) (env : Env)
  | write (k : ℕ) (env : Env)
  | conflict (k : ℕ)
  | check (k : ℕ)

namespace Calls

open ApproveCall

/-- The calls of `approve` over the system. -/
def approveMachine : Machine (Calls ApproveCall) ApproveLabel where
  init w := Sys.Start w.sys ∧ ∀ k, w.call k = .waiting
  step w l w' :=
    match l with
    | .other tx => (∀ env incidentId key, tx ≠ .approve env incidentId key) ∧ Sys.machine.step w.sys tx w'.sys ∧
        w'.call = w.call
    | .start k incidentId key => w.call k = .waiting ∧ w' = w.goOn w.sys k (.trying incidentId key false false)
    | .enter k env => ∃ incidentId key again entered, w.call k = .trying incidentId key again entered ∧
        approveWrites env incidentId key w.sys.db ∧ w' = w.goOn w.sys k (.trying incidentId key again true)
    | .write k env => ∃ incidentId key again entered, w.call k = .trying incidentId key again entered ∧
        w' = w.goOn (w.sys.exec (.approve env incidentId key)) k
          (afterTry incidentId key again (commit (approveOnce env incidentId key w.sys.db) w.sys.db).1)
    | .conflict k => ∃ incidentId key again, w.call k = .trying incidentId key again true ∧
        w' = w.goOn w.sys k (afterTry incidentId key again (.error .integrityError))
    | .check k => ∃ incidentId key, w.call k = .conflicted incidentId key ∧
        w' = w.goOn w.sys k (afterCheck incidentId key (approveConflict incidentId key w.sys.db))

variable {w w' : Calls ApproveCall}

/-- The system under the calls makes one of its own steps or none. -/
theorem approve_sys_step {l : ApproveLabel} (h : approveMachine.step w l w') :
    w'.sys = w.sys ∨ ∃ tx, Sys.machine.step w.sys tx w'.sys := by
  cases l with
  | other tx => exact Or.inr ⟨tx, h.2.1⟩
  | start k i key =>
    obtain ⟨-, rfl⟩ := h
    exact Or.inl rfl
  | enter k env =>
    obtain ⟨_, _, _, _, -, -, rfl⟩ := h
    exact Or.inl rfl
  | write k env =>
    obtain ⟨i, key, _, _, -, rfl⟩ := h
    exact Or.inr ⟨.approve env i key, trivial, rfl⟩
  | conflict k =>
    obtain ⟨_, _, _, -, rfl⟩ := h
    exact Or.inl rfl
  | check k =>
    obtain ⟨_, _, -, rfl⟩ := h
    exact Or.inl rfl

theorem approve_sys_reachable (h : approveMachine.Reachable w) : Sys.machine.Reachable w.sys := by
  refine Machine.Reachable.map (M := Sys.machine) (N := approveMachine) Calls.sys (fun _ h => h.1) ?_ h
  intro w l w' hw hs
  rcases approve_sys_step hs with he | ⟨tx, hs⟩
  · exact he ▸ hw
  · exact hw.step hs

end Calls

namespace ApproveCall

/-- A call after a try is over with the answer of the try, is over without one, or has to look at the key. -/
theorem afterTry_cases (i key : Uuid) (again : Bool) (a : Except Exn ApprovalReceipt) :
    (∃ r, a = .ok r ∧ afterTry i key again a = answered i key (.ok r)) ∨
      (∃ e, afterTry i key again a = answered i key (.error e)) ∨ afterTry i key again a = conflicted i key := by
  cases a with
  | ok r => exact Or.inl ⟨r, rfl, rfl⟩
  | error e =>
    right
    unfold afterTry
    split
    · split_ifs
      · exact Or.inl ⟨_, rfl⟩
      · exact Or.inr rfl
    · exact Or.inl ⟨_, rfl⟩

theorem afterCheck_cases (i key : Uuid) (a : Except Exn Unit) :
    (∃ e, a = .error e ∧ afterCheck i key a = answered i key (.error e)) ∨
      (a = .ok () ∧ afterCheck i key a = trying i key true false) := by
  cases a with
  | error e => exact Or.inl ⟨e, rfl, rfl⟩
  | ok u => exact Or.inr ⟨rfl, rfl⟩

end ApproveCall

namespace Calls

open ApproveCall

/-- Responses are those of stored approvals, and no two say they were the first for one incident and key. -/
structure Agreed (w : Calls ApproveCall) : Prop where
  sound : ∀ k i key r, w.call k = .answered i key (.ok r) → w.sys.db.Approved i key r.approvalId r.patchRunId
  first : ∀ k k' i key r r', w.call k = .answered i key (.ok r) → w.call k' = .answered i key (.ok r') →
    r.duplicate = false → r'.duplicate = false → k = k'

variable {w w' : Calls ApproveCall}

/-- Call `k` goes on; what it answers is stored, and no other call has answered for the key if it is the first. -/
theorem Agreed.goOn (hw : w.Agreed) {s : Sys}
    (hr : ∀ i key x y, w.sys.db.Approved i key x y → s.db.Approved i key x y) {k : ℕ} {c : ApproveCall}
    (hc : ∀ i key r, c = .answered i key (.ok r) → s.db.Approved i key r.approvalId r.patchRunId ∧
      (r.duplicate = false → ∀ x y, ¬ w.sys.db.Approved i key x y)) :
    (w.goOn s k c).Agreed := by
  refine ⟨fun k' i key r h => ?_, fun k₁ k₂ i key r r' h₁ h₂ hd hd' => ?_⟩
  · change Function.update w.call k c k' = _ at h
    by_cases hk : k' = k
    · rw [hk, Function.update_self] at h
      exact (hc i key r h).1
    · rw [Function.update_of_ne hk] at h
      exact hr _ _ _ _ (hw.sound k' i key r h)
  · by_contra hne
    change Function.update w.call k c k₁ = _ at h₁
    change Function.update w.call k c k₂ = _ at h₂
    by_cases hk₁ : k₁ = k <;> by_cases hk₂ : k₂ = k
    · exact hne (hk₁.trans hk₂.symm)
    · rw [hk₁, Function.update_self] at h₁
      rw [Function.update_of_ne hk₂] at h₂
      exact (hc i key r h₁).2 hd _ _ (hw.sound k₂ i key r' h₂)
    · rw [Function.update_of_ne hk₁] at h₁
      rw [hk₂, Function.update_self] at h₂
      exact (hc i key r' h₂).2 hd' _ _ (hw.sound k₁ i key r h₁)
    · rw [Function.update_of_ne hk₁] at h₁
      rw [Function.update_of_ne hk₂] at h₂
      exact hne (hw.first k₁ k₂ i key r r' h₁ h₂ hd hd')

theorem Agreed.step {l : ApproveLabel} (hw : w.Agreed) (hs : w.sys.Inv) (h : approveMachine.step w l w') :
    w'.Agreed := by
  cases l with
  | other tx =>
    obtain ⟨-, hstep, hcall⟩ := h
    refine ⟨fun k i key r hk => ?_, fun k k' => ?_⟩
    · exact Sys.approved_step hs hstep (hw.sound k i key r (hcall ▸ hk))
    · rw [hcall]
      exact hw.first k k'
  | start k i key =>
    obtain ⟨-, rfl⟩ := h
    exact hw.goOn (fun _ _ _ _ h => h) nofun
  | enter k env =>
    obtain ⟨_, _, _, _, -, -, rfl⟩ := h
    exact hw.goOn (fun _ _ _ _ h => h) nofun
  | write k env =>
    obtain ⟨i, key, again, entered, hk, rfl⟩ := h
    have hstep : Sys.machine.step w.sys (.approve env i key) (w.sys.exec (.approve env i key)) := ⟨trivial, rfl⟩
    refine hw.goOn (fun _ _ _ _ ha => Sys.approved_step hs hstep ha) fun i' key' r hc => ?_
    rcases afterTry_cases i key again (commit (approveOnce env i key w.sys.db) w.sys.db).1 with
      ⟨r', hr', ha⟩ | ⟨e, ha⟩ | ha
    · rw [ha] at hc
      cases hc
      show (settle (approveOnce env i key w.sys.db) w.sys.db).Approved _ _ _ _ ∧ _
      unfold settle
      cases hres : approveOnce env i key w.sys.db with
      | error e =>
        rw [hres] at hr'
        cases hr'
      | ok p =>
        rw [hres] at hr'
        cases hr'
        obtain ⟨happ, hdup⟩ := approveOnce_answer hs.ok hres
        refine ⟨happ, fun hf x y hx => ?_⟩
        rcases hdup with ⟨ht, -⟩ | ⟨-, hn⟩
        · rw [hf] at ht
          cases ht
        · obtain ⟨a, hma, -, hka, -⟩ := hx
          exact absurd (by simp [hka]) (Table.first_eq_none.mp hn a hma)
    · cases ha.symm.trans hc
    · cases ha.symm.trans hc
  | conflict k =>
    obtain ⟨i, key, again, hk, rfl⟩ := h
    refine hw.goOn (fun _ _ _ _ h => h) fun i' key' r hc => ?_
    rcases afterTry_cases i key again (.error .integrityError) with ⟨_, h, -⟩ | ⟨e, h⟩ | h
    · cases h
    · cases h.symm.trans hc
    · cases h.symm.trans hc
  | check k =>
    obtain ⟨i, key, hk, rfl⟩ := h
    refine hw.goOn (fun _ _ _ _ h => h) fun i' key' r hc => ?_
    rcases afterCheck_cases i key (approveConflict i key w.sys.db) with ⟨e, -, h⟩ | ⟨-, h⟩
    · cases h.symm.trans hc
    · cases h.symm.trans hc

theorem agreed_of_reachable (h : approveMachine.Reachable w) : w.Agreed := by
  have hboth : Sys.machine.Reachable w.sys ∧ w.Agreed := by
    refine h.invariant (I := fun w => Sys.machine.Reachable w.sys ∧ w.Agreed) (fun w h₀ => ?_) fun w l w' hw hs => ?_
    · have hready : ∀ k, w.call k = .waiting := h₀.2
      refine ⟨.of_init h₀.1, fun k i key r hk => ?_, fun k k' i key r r' hk => ?_⟩
      · cases (hready k).symm.trans hk
      · cases (hready k).symm.trans hk
    · refine ⟨?_, hw.2.step (Sys.inv_of_reachable hw.1) hs⟩
      rcases approve_sys_step hs with he | ⟨tx, hs⟩
      · exact he ▸ hw.1
      · exact hw.1.step hs
  exact hboth.2

/-! ### Repeated keys -/

/-- A call that repeats the key of the approval `a` has not entered the writing part, and has not failed. -/
def Repeats (a : Approval) : ApproveCall → Prop
  | .waiting => True
  | .trying i key _ entered => i = a.incidentId → key = a.idempotencyKey → entered = false
  | .conflicted i key => ¬ (i = a.incidentId ∧ key = a.idempotencyKey)
  | .answered i key answer => i = a.incidentId → key = a.idempotencyKey →
      ∃ r, answer = .ok r ∧ r.approvalId = a.id ∧ r.duplicate = true

theorem repeats_step {l : ApproveLabel} (h : approveMachine.Reachable w) {a : Approval}
    (ha : a ∈ w.sys.db.approvals.rows) {n : ℕ} (hn : Repeats a (w.call n)) (hs : approveMachine.step w l w') :
    Repeats a (w'.call n) := by
  have hreach := approve_sys_reachable h
  have hinv := Sys.inv_of_reachable hreach
  have hkeys := Sys.keysDistinct_of_reachable hreach
  have goes : ∀ {s : Sys} {k : ℕ} {c : ApproveCall}, (n = k → Repeats a c) → Repeats a ((w.goOn s k c).call n) := by
    intro s k c hc
    show Repeats a (Function.update w.call k c n)
    by_cases hk : n = k
    · rw [hk, Function.update_self]
      exact hc hk
    · rw [Function.update_of_ne hk]
      exact hn
  cases l with
  | other tx => exact hs.2.2 ▸ hn
  | start k i key =>
    obtain ⟨-, rfl⟩ := hs
    exact goes fun _ _ _ => rfl
  | enter k env =>
    obtain ⟨i, key, again, entered, -, hwrites, rfl⟩ := hs
    refine goes fun _ hi hkey => ?_
    -- the key is used, so the try only reads
    subst hi hkey
    obtain ⟨r, -, hdup, hr⟩ := approveOnce_replays hinv.ok hkeys env ha
    rcases hwrites with ⟨r', db', hr', hf⟩ | he
    · rw [hr] at hr'
      cases hr'
      cases hdup.symm.trans hf
    · cases hr.symm.trans he
  | write k env =>
    obtain ⟨i, key, again, entered, -, rfl⟩ := hs
    refine goes fun _ => ?_
    by_cases hik : i = a.incidentId ∧ key = a.idempotencyKey
    · obtain ⟨rfl, rfl⟩ := hik
      obtain ⟨r, hid, hdup, hr⟩ := approveOnce_replays hinv.ok hkeys env ha
      rw [hr]
      exact fun _ _ => ⟨r, rfl, hid, hdup⟩
    · rcases afterTry_cases i key again (commit (approveOnce env i key w.sys.db) w.sys.db).1 with
        ⟨_, -, h⟩ | ⟨_, h⟩ | h <;> rw [h]
      · exact fun hi hkey => absurd ⟨hi, hkey⟩ hik
      · exact fun hi hkey => absurd ⟨hi, hkey⟩ hik
      · exact hik
  | conflict k =>
    obtain ⟨i, key, again, hk, rfl⟩ := hs
    refine goes fun hnk => ?_
    have hno : ¬ (i = a.incidentId ∧ key = a.idempotencyKey) := by
      rintro ⟨hi, hkey⟩
      rw [hnk, hk] at hn
      cases hn hi hkey
    rcases afterTry_cases i key again (.error .integrityError) with ⟨_, h, -⟩ | ⟨_, h⟩ | h
    · cases h
    · rw [h]
      exact fun hi hkey => absurd ⟨hi, hkey⟩ hno
    · rw [h]
      exact hno
  | check k =>
    obtain ⟨i, key, hk, rfl⟩ := hs
    refine goes fun hnk => ?_
    rw [hnk, hk] at hn
    rcases afterCheck_cases i key (approveConflict i key w.sys.db) with ⟨_, -, h⟩ | ⟨-, h⟩
    · rw [h]
      exact fun hi hkey => absurd ⟨hi, hkey⟩ hn
    · rw [h]
      exact fun _ _ => rfl

/-- A call that starts after its key was used for its incident does not fail. -/
theorem repeats_of_run {tr : List (Entry (Calls ApproveCall) ApproveLabel)} (h : approveMachine.Reachable w)
    (hr : approveMachine.Run w tr w') {a : Approval} (ha : a ∈ w.sys.db.approvals.rows) {n : ℕ}
    (hn : w.call n = .waiting) : a ∈ w'.sys.db.approvals.rows ∧ Repeats a (w'.call n) := by
  refine Machine.Run.stable (P := fun u : Calls ApproveCall => a ∈ u.sys.db.approvals.rows ∧ Repeats a (u.call n)) ?_ h
    ⟨ha, by rw [hn]; trivial⟩ hr
  rintro u l u' hu ⟨hau, hnu⟩ hs
  refine ⟨?_, repeats_step hu hau hnu hs⟩
  rcases approve_sys_step hs with he | ⟨tx, hstep⟩
  · exact he ▸ hau
  · exact Sys.approval_step (Sys.inv_of_reachable (approve_sys_reachable hu)) hstep hau

end Calls

/-- The call that makes a step. -/
def ApproveLabel.call : ApproveLabel → Option ℕ
  | .other _ => none
  | .start k .. | .enter k _ | .write k _ | .conflict k | .check k => some k

namespace Calls

open ApproveCall

variable {w w' : Calls ApproveCall}

/-- A step of a call leaves the store as it is unless the call answers with success. -/
theorem failing_step {l : ApproveLabel} (h : approveMachine.step w l w') {k : ℕ} (hl : l.call = some k)
    (hf : ∀ i key r, w'.call k ≠ .answered i key (.ok r)) : w'.sys.db = w.sys.db := by
  cases l with
  | other => cases hl
  | start =>
    obtain ⟨-, rfl⟩ := h
    rfl
  | enter =>
    obtain ⟨_, _, _, _, -, -, rfl⟩ := h
    rfl
  | write n env =>
    obtain ⟨i, key, again, entered, -, rfl⟩ := h
    obtain rfl : n = k := Option.some.inj hl
    show settle (approveOnce env i key w.sys.db) w.sys.db = w.sys.db
    unfold settle
    cases hres : approveOnce env i key w.sys.db with
    | error e => rfl
    | ok p =>
      refine absurd ?_ (hf i key p.1)
      show Function.update w.call n _ n = _
      rw [Function.update_self, hres]
      rfl
  | conflict =>
    obtain ⟨_, _, _, -, rfl⟩ := h
    rfl
  | check =>
    obtain ⟨_, _, -, rfl⟩ := h
    rfl

/-- **One approval for each incident and each key**, however calls of `approve` interleave with each other and with
workers and receipts. -/
theorem approvals {tr : List (Entry (Calls ApproveCall) ApproveLabel)} (h : approveMachine.Reachable w)
    (hr : approveMachine.Run w tr w') :
    (∀ a ∈ w'.sys.db.approvals.rows, ∀ b ∈ w'.sys.db.approvals.rows,
      a.incidentId = b.incidentId ∨ a.idempotencyKey = b.idempotencyKey → a = b) ∧
    (∀ p ∈ w'.sys.db.patchRuns.rows, ∀ q ∈ w'.sys.db.patchRuns.rows, p.incidentId = q.incidentId → p = q) ∧
    (∀ j ∈ w'.sys.db.jobs.rows, ∀ j' ∈ w'.sys.db.jobs.rows, j.type = .patch → j'.type = .patch →
      j.incidentId = j'.incidentId → j = j') ∧
    (∀ n n' i key r r', w'.call n = .answered i key (.ok r) → w'.call n' = .answered i key (.ok r') →
      r.approvalId = r'.approvalId ∧ r.patchRunId = r'.patchRunId ∧
        (r.duplicate = false → r'.duplicate = false → n = n')) ∧
    (∀ a ∈ w.sys.db.approvals.rows,
      (∀ n answer, w.call n = .waiting → w'.call n = .answered a.incidentId a.idempotencyKey answer →
        ∃ r, answer = .ok r ∧ r.approvalId = a.id) ∧
      ∀ env, ∃ r : ApprovalReceipt, r.approvalId = a.id ∧
        approveOnce env a.incidentId a.idempotencyKey w'.sys.db = .ok (r, w'.sys.db)) ∧
    (∀ a ∈ w'.sys.db.approvals.rows, ∀ i, a.incidentId ≠ i →
      (∀ env, ∃ e, approveOnce env i a.idempotencyKey w'.sys.db = .error e) ∧
      ∀ n r, w'.call n ≠ .answered i a.idempotencyKey (.ok r)) ∧
    (∀ env i key, (∀ a ∈ w'.sys.db.approvals.rows, a.idempotencyKey ≠ key) →
      ((∃ a ∈ w'.sys.db.approvals.rows, a.incidentId = i) ∨
        ¬ ∃ inc run, w'.sys.db.incidents.get i = some inc ∧ inc.state = .awaitingApproval ∧
          IncidentRepository.successfulAnalysis w'.sys.db i = [run] ∧ run.baseCommitSha = inc.baseCommitSha) →
      ∃ e, approveOnce env i key w'.sys.db = .error e) ∧
    (∀ e ∈ tr, ∀ n, e.label.call = some n → (∀ i key r, e.post.call n ≠ .answered i key (.ok r)) →
      e.post.sys.db = e.pre.sys.db) := by
  have h' := h.run hr
  have hinv := Sys.inv_of_reachable (approve_sys_reachable h')
  have hkeys := Sys.keysDistinct_of_reachable (approve_sys_reachable h')
  have hagreed := agreed_of_reachable h'
  refine ⟨fun a ha b hb hab => ?_, fun p hp q hq hpq => ?_, fun j hj j' hj' ht ht' hjj => ?_,
    fun n n' i key r r' hn hn' => ⟨?_, ?_, hagreed.first n n' i key r r' hn hn'⟩, fun a ha => ⟨fun n answer hw hn => ?_,
    fun env => ?_⟩, fun a ha i hne => ⟨fun env => approveOnce_foreign hkeys env ha hne, fun n r hn => ?_⟩,
    fun env i key hno hbad => ?_, fun e he n hl hf => failing_step (hr.step_of_mem he) hl hf⟩
  · rcases hab with hab | hab
    · obtain ⟨_, _, -, happ, -⟩ := (hinv.ok _).of_approval (Store.mem_dossier_approvals.mpr ⟨ha, rfl⟩)
      have hb' := Store.mem_dossier_approvals.mpr ⟨hb, hab.symm⟩
      rw [happ] at hb'
      exact (List.mem_singleton.mp hb').symm
    · exact hkeys a ha b hb hab
  · obtain ⟨hone, -⟩ := (hinv.ok p.incidentId).at_most_one
    exact hone p (Store.mem_dossier_patchRuns.mpr ⟨hp, rfl⟩) q (Store.mem_dossier_patchRuns.mpr ⟨hq, hpq.symm⟩)
  · obtain ⟨-, hone⟩ := (hinv.ok j.incidentId).at_most_one
    exact hone j (Store.mem_dossier_jobs.mpr ⟨hj, rfl⟩) j' (Store.mem_dossier_jobs.mpr ⟨hj', hjj.symm⟩) ht ht'
  · exact ((hagreed.sound n i key r hn).unique hinv.ok hkeys (hagreed.sound n' i key r' hn')).1
  · exact ((hagreed.sound n i key r hn).unique hinv.ok hkeys (hagreed.sound n' i key r' hn')).2
  · have hrep := (repeats_of_run h hr ha hw).2
    rw [hn] at hrep
    obtain ⟨r, hans, hid, -⟩ := hrep rfl rfl
    exact ⟨r, hans, hid⟩
  · have ha' : a ∈ w'.sys.db.approvals.rows := by
      refine Machine.Run.stable (P := fun u : Calls ApproveCall => a ∈ u.sys.db.approvals.rows) ?_ h ha hr
      intro u l u' hu hau hs
      rcases approve_sys_step hs with he | ⟨tx, hstep⟩
      · exact he ▸ hau
      · exact Sys.approval_step (Sys.inv_of_reachable (approve_sys_reachable hu)) hstep hau
    obtain ⟨r, hid, -, hrep⟩ := approveOnce_replays hinv.ok hkeys env ha'
    exact ⟨r, hid, hrep⟩
  · obtain ⟨b, hb, hbi, hbk, -⟩ := hagreed.sound n i a.idempotencyKey r hn
    obtain rfl := hkeys b hb a ha hbk
    exact hne hbi
  · refine approveOnce_unused env hno (hbad.imp id fun hbad inc hi hst run hrun hsha => ?_)
    exact hbad ⟨inc, run, hi, hst, hrun, hsha⟩

/-- A sample incident is approved by one call and the approval is repeated by another. -/
theorem approvals_sample : ∃ w r r', approveMachine.Reachable w ∧ w.call 0 = .answered 17 9 (.ok r) ∧
    w.call 1 = .answered 17 9 (.ok r') ∧ r.duplicate = false ∧ r'.duplicate = true ∧ r.approvalId = r'.approvalId := by
  let w₀ : Calls ApproveCall := ⟨Sample.start, fun _ => .waiting⟩
  have h₀ : approveMachine.Reachable w₀ := .of_init ⟨⟨_, by decide, rfl⟩, fun _ => rfl⟩
  have h₁ := h₀.step (show approveMachine.step _ (.other (.ingest (Sample.env 1) Sample.request Sample.intake Sample.sha))
    ⟨Sample.after 1, _⟩ from ⟨fun _ _ _ => nofun, ⟨trivial, rfl⟩, rfl⟩)
  have h₂ := h₁.step (show approveMachine.step _ (.other (.claimJob Sample.settings (Sample.env 2) fun _ => false))
    ⟨Sample.after 2, _⟩ from ⟨fun _ _ _ => nofun, ⟨trivial, rfl⟩, rfl⟩)
  let tx : Tx := .finalize (Sample.env 3) Sample.analyzeClaim { result := some .null } none
  have h₃ := h₂.step (show approveMachine.step _ (.other tx) ⟨(Sample.after 2).exec tx, _⟩ from
    ⟨fun _ _ _ => nofun, ⟨show Sample.analyzeClaim ∈ (Sample.after 2).issued by decide, rfl⟩, rfl⟩)
  have h₅ := h₃.step (show approveMachine.step _ (.start 0 17 9) _ from ⟨rfl, rfl⟩)
  have h₆ := h₅.step (show approveMachine.step _ (.write 0 (Sample.env 4)) _ from ⟨17, 9, false, false, rfl, rfl⟩)
  have h₇ := h₆.step (show approveMachine.step _ (.start 1 17 9) _ from ⟨rfl, rfl⟩)
  have h₈ := h₇.step (show approveMachine.step _ (.write 1 (Sample.env 5)) _ from ⟨17, 9, false, false, rfl, rfl⟩)
  refine ⟨_, ⟨17, 64, 65, false⟩, ⟨17, 64, 65, true⟩, h₈, rfl, rfl, rfl, rfl, ?_⟩
  exact ((approvals h₈ .nil).2.2.2.1 0 1 17 9 ⟨17, 64, 65, false⟩ ⟨17, 64, 65, true⟩ rfl rfl).1

end Calls

end Aeh
