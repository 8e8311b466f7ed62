import Aeh.Receipts

/-!
# Configured — services, their policies and the incidents they serve

`sync_services` is the only transaction that writes services (`Sys.services_step_eq`).  `Configured` remembers the
policy each service was last configured with: the stored document is its dump, and every incident belongs to a
service (`Configured.known_of_reachable`).
-/

namespace Aeh

/-! ## Who writes services -/

section Services

open Store

variable {db db₁ db' : Store} {settings : Settings} {env : Env}

theorem approveOnce_services {incidentId key : Uuid} {r : ApprovalReceipt}
    (h : approveOnce env incidentId key db = .ok (r, db')) : db'.services = db.services := by
  obtain ⟨inc, -, ⟨-, -, -, -, -, -, rfl⟩ | ⟨-, -, run, -, -, -, -, -, h, -⟩⟩ := approveOnce_ok h
  · rfl
  · obtain ⟨db₁, db₂, db₃, h₁, h₂, h₃, h₄⟩ := addApproved_ok h
    obtain ⟨t₁, -, rfl⟩ := addApproval_ok h₁
    obtain ⟨t₂, -, rfl⟩ := addPatchRun_ok h₂
    obtain ⟨t₃, -, rfl⟩ := addJob_ok h₃
    obtain rfl := Store.updateIncident_ok h₄
    rfl

theorem finalize_services {claim : Claim} {outcome : Outcome} {version : Option ℕ} {r : Bool}
    (h : finalize env claim outcome version db = .ok (r, db')) : db'.services = db.services := by
  rcases finalize_ok h with ⟨-, rfl⟩ | ⟨job, inc, -, -, -, -, -, -, ⟨-, -, rfl⟩ | h⟩
  · rfl
  · rfl
  · rcases finish_ok h with ⟨-, run, -, h⟩ | ⟨-, patch, -, h⟩
    · obtain rfl := Store.updateIncident_ok h
      rfl
    · obtain rfl := Store.updateIncident_ok h
      rfl

end Services

/-- The transaction is a run of `sync_services`. -/
def Tx.isSync : Tx → Bool
  | .syncServices .. => true
  | _ => false

namespace Sys

variable {s s' : Sys} {tx : Tx}

/-- **Only `sync_services` writes services.** -/
theorem services_step_eq (h : machine.step s tx s') (hn : tx.isSync = false) : s'.db.services = s.db.services := by
  cases tx with
  | ingest env request intake sha =>
    rcases ingest_step h with he | ⟨service, -, occ, inc', -, hr⟩
    · rw [he]
    · exact hr.services
  | syncServices => cases hn
  | approve env incidentId key =>
    obtain ⟨-, rfl⟩ := h
    exact settle_ok (P := fun db => db.services = s.db.services) rfl fun _ _ h => approveOnce_services h
  | claimJob settings env skip =>
    obtain ⟨-, rfl⟩ := h
    simp only [exec]
    split
    · rename_i hc
      rcases claimJob_ok hc with ⟨-, rfl⟩ | ⟨job, inc, inc', -, -, -, -, hb, -⟩
      · rfl
      · obtain ⟨is, rs, ps, rfl⟩ := claimBranch_frame hb
        rfl
    · rename_i hc
      rcases claimJob_ok hc with ⟨-, rfl⟩ | ⟨job, inc, inc', -, -, -, -, hb, -⟩
      · rfl
      · obtain ⟨is, rs, ps, rfl⟩ := claimBranch_frame hb
        rfl
    · rfl
  | heartbeat env claim =>
    obtain ⟨-, rfl⟩ := h
    refine settle_ok (P := fun db => db.services = s.db.services) rfl fun _ _ h => ?_
    rcases heartbeat_ok h with ⟨-, rfl⟩ | ⟨job, -, -, -, -, rfl⟩ <;> rfl
  | recoverExpired env rows =>
    obtain ⟨-, rfl⟩ := h
    refine settle_ok (P := fun db => db.services = s.db.services) rfl fun _ _ h => ?_
    obtain ⟨db₁, h, h'⟩ := bind_eq_ok.mp h
    cases h'
    obtain ⟨is, rs, ps, js, rfl⟩ := recoverAll_frame h
    rfl
  | markValidating claim =>
    obtain ⟨-, rfl⟩ := h
    simp only [exec]
    split
    · rename_i hm
      obtain ⟨job, inc, patch, db₁, -, -, -, -, hu, -, -, rfl⟩ := markValidating_ok hm
      obtain rfl := Store.updateIncident_ok hu
      rfl
    · rfl
  | finalize env claim outcome version =>
    obtain ⟨-, rfl⟩ := h
    exact settle_ok (P := fun db => db.services = s.db.services) rfl fun _ _ h => finalize_services h

end Sys

/-! ## What services are configured with -/

/-- The system and the policy each service key was last configured with. -/
structure Configured where
  sys : Sys
  policies : PyStr → Option ServicePolicy

/-- The policies after a configuration. -/
def configure (m : PyStr → Option ServicePolicy) (policies : List (PyStr × ServicePolicy)) :
    PyStr → Option ServicePolicy :=
  policies.foldl (fun m kp => Function.update m kp.1 (some kp.2)) m

/-- The policies after a transaction. -/
def Tx.configures (tx : Tx) (db : Store) (m : PyStr → Option ServicePolicy) : PyStr → Option ServicePolicy :=
  match tx with
  | .syncServices settings fs env policies =>
    match Aeh.syncServices settings fs env policies db with
    | .ok _ => configure m policies
    | .error _ => m
  | _ => m

/-- What the configuration guarantees. -/
structure Store.Known (db : Store) (m : PyStr → Option ServicePolicy) : Prop where
  policy : ∀ s ∈ db.services.rows, ∃ p, m s.key = some p ∧ s.policy = p.modelDump
  service : ∀ inc ∈ db.incidents.rows, ∃ s ∈ db.services.rows, s.id = inc.serviceId

section Known

variable {db db' : Store} {m : PyStr → Option ServicePolicy} {settings : Settings} {fs : FileSystem} {env : Env}

theorem syncService_policy {id : Uuid} {key : PyStr} {policy : ServicePolicy}
    (hkeys : (db.services.rows.map Service.key).Nodup)
    (hk : ∀ s ∈ db.services.rows, ∃ p, m s.key = some p ∧ s.policy = p.modelDump)
    (h : syncService settings fs id key policy db = .ok db') :
    ∀ s ∈ db'.services.rows, ∃ p, Function.update m key (some policy) s.key = some p ∧ s.policy = p.modelDump := by
  have fresh : ∀ s : Service, s.key = key → s.policy = policy.modelDump →
      ∃ p, Function.update m key (some policy) s.key = some p ∧ s.policy = p.modelDump := by
    intro s hkey hpol
    exact ⟨policy, by rw [hkey, Function.update_self], hpol⟩
  have old : ∀ s ∈ db.services.rows, s.key ≠ key →
      ∃ p, Function.update m key (some policy) s.key = some p ∧ s.policy = p.modelDump := by
    intro s hs hne
    rw [Function.update_of_ne hne]
    exact hk s hs
  rcases syncService_ok h with ⟨hn, ha⟩ | ⟨row, -, -, hr, -, -, -, rfl⟩
  · obtain ⟨t, ht, rfl⟩ := Store.addService_ok ha
    intro s hs
    rcases (Table.mem_insert ht).mp hs with hs | rfl
    · refine old s hs fun hkey => ?_
      have := Table.first_eq_none.mp hn s hs
      simp [hkey] at this
    · exact fresh _ rfl rfl
  · obtain ⟨hm, hkey⟩ := Table.mem_of_first hr
    have hkey : row.key = key := by simpa using hkey
    intro s hs
    rcases Table.mem_put.mp hs with ⟨rfl, -⟩ | ⟨hs, hne⟩
    · exact fresh _ hkey rfl
    · refine old s hs fun he => hne ?_
      have := List.inj_on_of_nodup_map hkeys hs hm (he.trans hkey.symm)
      rw [this]
      rfl

theorem syncAll_policy {k : ℕ} {policies : List (PyStr × ServicePolicy)}
    (hkeys : (db.services.rows.map Service.key).Nodup)
    (hk : ∀ s ∈ db.services.rows, ∃ p, m s.key = some p ∧ s.policy = p.modelDump)
    (h : syncAll settings fs env k policies db = .ok db') :
    ∀ s ∈ db'.services.rows, ∃ p, configure m policies s.key = some p ∧ s.policy = p.modelDump := by
  induction policies generalizing k db m with
  | nil =>
    obtain rfl := Except.ok.inj h
    exact hk
  | cons kp rest ih =>
    obtain ⟨db₁, h₁, h⟩ := bind_eq_ok.mp h
    exact ih ((syncService_kept h₁).keys hkeys) (syncService_policy hkeys hk h₁) h

/-- Incidents that come from incidents of a store belong to services still there. -/
theorem Store.Quiet.service (hq : db.Quiet db') (h : ∀ inc ∈ db.incidents.rows, ∃ s ∈ db.services.rows, s.id = inc.serviceId) :
    ∀ inc ∈ db'.incidents.rows, ∃ s ∈ db'.services.rows, s.id = inc.serviceId := by
  intro inc' hi'
  obtain ⟨inc, hi, same⟩ := hq.back inc' hi'
  obtain ⟨s, hs, hid⟩ := h inc hi
  obtain ⟨s', hs', hid', -⟩ := hq.services.kept s hs
  exact ⟨s', hs', hid'.trans (hid.trans same.1.service.symm)⟩

theorem Store.Receives.known {row : ErrorEvent} {occ : Occurrence} {inc' : Incident} (hr : db.Receives row occ inc' db')
    (hs : ∃ s ∈ db.services.rows, s.id = row.serviceId) (h : db.Known m) : db'.Known m := by
  refine ⟨hr.services ▸ h.policy, fun inc hi => ?_⟩
  rw [hr.services]
  rcases (hr.incidents inc).mp hi with rfl | ⟨hi, -⟩
  · obtain ⟨s, hs, hid⟩ := hs
    exact ⟨s, hs, hid.trans hr.service⟩
  · exact h.service inc hi

/-- One transaction. -/
theorem Store.Known.step {s s' : Sys} {tx : Tx} (hk : s.Kept) (hn : s.db.Known m) (h : Sys.machine.step s tx s') :
    s'.db.Known (tx.configures s.db m) := by
  by_cases hsync : tx.isSync = true
  · have hq := Sys.quiet_step h fun env request intake sha he => by
      rw [he] at hsync
      cases hsync
    refine ⟨?_, hq.service hn.service⟩
    obtain ⟨-, rfl⟩ := h
    cases tx with
    | syncServices settings fs env policies =>
      simp only [Sys.exec, Tx.configures]
      cases hr : Aeh.syncServices settings fs env policies s.db with
      | error e => exact hn.policy
      | ok r =>
        obtain ⟨db₁, h₁, h'⟩ := bind_eq_ok.mp hr
        cases h'
        exact syncAll_policy hk.keys hn.policy h₁
    | _ => cases hsync
  · have hsync : tx.isSync = false := by simpa using hsync
    have hm : tx.configures s.db m = m := by
      cases tx <;> first | rfl | cases hsync
    rw [hm]
    by_cases hi : ∃ env request intake sha, tx = .ingest env request intake sha
    · obtain ⟨env, request, intake, sha, rfl⟩ := hi
      rcases Sys.ingest_step h with he | ⟨service, hs, occ, inc', -, hr⟩
      · rw [he]
        exact hn
      · exact hr.known ⟨service, hs, rfl⟩ hn
    · have hq := Sys.quiet_step h fun env request intake sha he => hi ⟨env, request, intake, sha, he⟩
      refine ⟨?_, hq.service hn.service⟩
      rw [Sys.services_step_eq h hsync]
      exact hn.policy

end Known

namespace Configured

/-- The runs in which every service comes from `sync_services`. -/
def machine : Machine Configured Tx where
  init w := w = ⟨⟨Store.ofServices Table.empty, [], []⟩, fun _ => none⟩
  step w tx w' := Sys.machine.step w.sys tx w'.sys ∧ w'.policies = tx.configures w.sys.db w.policies

variable {w : Configured}

theorem sys_reachable (h : machine.Reachable w) : Sys.machine.Reachable w.sys := by
  refine Machine.Reachable.map (M := Sys.machine) (N := machine) Configured.sys ?_ (fun _ _ _ h hs => h.step hs.1) h
  rintro _ rfl
  exact ⟨Table.empty, List.nodup_nil, rfl⟩

/-- **Stored policies are dumps of the configured ones, and every incident has its service.** -/
theorem known_of_reachable (h : machine.Reachable w) : w.sys.db.Known w.policies := by
  refine (Machine.Reachable.invariant (M := machine)
    (I := fun w => Sys.machine.Reachable w.sys ∧ w.sys.db.Known w.policies) ?_ ?_ h).2
  · intro w h₀
    refine ⟨sys_reachable (.of_init h₀), ?_⟩
    obtain rfl := h₀
    exact ⟨nofun, nofun⟩
  · rintro w tx w' ⟨hr, hn⟩ ⟨hs, he⟩
    rw [he]
    exact ⟨hr.step hs, hn.step (Sys.kept_of_reachable hr) hs⟩

end Configured

end Aeh
