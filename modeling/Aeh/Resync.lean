import Aeh.Configured
import Aeh.SyncServices

/-!
# Resync — `sync_services` of the same configuration again

A service keeps what it was configured with until another configuration names it, whatever the other parties do.  So a
later `sync_services` of the same configuration on the same file system commits and changes nothing, also for services
with open incidents (`Sys.sync_services_again`).
-/

namespace Aeh

open Store

/-- No service of `policies` is given another policy. -/
def Tx.Leaves (policies : List (PyStr × ServicePolicy)) : Tx → Prop
  | .syncServices _ _ _ policies' => ∀ kp' ∈ policies', ∀ kp ∈ policies, kp'.1 = kp.1 → kp' = kp
  | _ => True

/-- The services of `policies` are configured as it says. -/
structure Store.Carries (db : Store) (policies : List (PyStr × ServicePolicy)) : Prop where
  keys : (db.services.rows.map Service.key).Nodup
  rows : ∀ kp ∈ policies, ∃ row ∈ db.services.rows, row.Carries kp

/-! ## Again -/

section Again

variable {db db' : Store} {settings : Settings} {fs : FileSystem} {env : Env} {k : ℕ} {kp : PyStr × ServicePolicy}
  {policies rest : List (PyStr × ServicePolicy)}

/-- A row that carries its policy is configured already. -/
theorem Service.Carries.configured_eq {row : Service} (h : row.Carries kp) : row.configured kp.2 = row := by
  obtain ⟨-, hpath, hbranch, hpolicy, hactive⟩ := h
  cases row
  simp only at hpath hbranch hpolicy hactive
  simp only [Service.configured, ← hpath, ← hbranch, ← hpolicy, hactive]

/-- A turn of the loop over a service that is configured as it says. -/
theorem syncService_again {id : Uuid} (hdb : db.Carries policies) (hkp : kp ∈ policies)
    (hdir : ∃ dir, settings.repositoryPath fs kp.2 = .ok dir) : syncService settings fs id kp.1 kp.2 db = .ok db := by
  obtain ⟨row, hm, hc⟩ := hdb.rows kp hkp
  obtain ⟨dir, hdir⟩ := hdir
  have hrow : IncidentRepository.serviceByKey db kp.1 = some row := (serviceByKey_eq_some hdb.keys).mpr ⟨hm, hc.key⟩
  have hdir' : settings.resolveRepositoryReference fs kp.2.repositoryPath = .ok dir := hdir
  simp only [syncService, hdir, hrow, hc.path, hdir', bind, Except.bind, ne_eq, not_true_eq_false, false_and, if_false]
  rw [hc.configured_eq, putService, Table.put_of_mem hm]

theorem syncAll_again (hdb : db.Carries policies) (hsub : ∀ kp ∈ rest, kp ∈ policies)
    (hdirs : ∀ kp ∈ rest, ∃ dir, settings.repositoryPath fs kp.2 = .ok dir) :
    syncAll settings fs env k rest db = .ok db := by
  induction rest generalizing k with
  | nil => rfl
  | cons kp rest ih =>
    rw [List.forall_mem_cons] at hsub hdirs
    unfold syncAll
    rw [syncService_again hdb hsub.1 hdirs.1]
    exact ih hsub.2 hdirs.2

/-- A loop that succeeds has resolved every configured path. -/
theorem syncAll_dirs (h : syncAll settings fs env k policies db = .ok db') :
    ∀ kp ∈ policies, ∃ dir, settings.repositoryPath fs kp.2 = .ok dir := by
  induction policies generalizing k db with
  | nil => exact fun _ hkp => absurd hkp List.not_mem_nil
  | cons kp rest ih =>
    obtain ⟨db₁, h₁, h⟩ := bind_eq_ok.mp h
    obtain ⟨dir, hdir, -⟩ := bind_eq_ok.mp h₁
    exact List.forall_mem_cons.mpr ⟨⟨dir, hdir⟩, ih h⟩

/-! ## What other configurations leave -/

/-- A turn of a loop that gives the services of `policies` no other policy. -/
theorem Store.Carries.sets {id : Uuid} (hdb : db.Carries policies) (h : db.Sets db' kp id)
    (hsame : ∀ kp' ∈ policies, kp.1 = kp'.1 → kp = kp') : db'.Carries policies := by
  refine ⟨h.keys, fun kp' hkp' => ?_⟩
  by_cases he : kp.1 = kp'.1
  · obtain rfl := hsame kp' hkp' he
    obtain ⟨row, hm, hc, -⟩ := h.configured
    exact ⟨row, hm, hc⟩
  · obtain ⟨row, hm, hc⟩ := hdb.rows kp' hkp'
    refine ⟨row, (h.others row ?_).mpr hm, hc⟩
    rw [hc.key]
    exact fun hk => he hk.symm

theorem Store.Carries.syncAll {policies' : List (PyStr × ServicePolicy)} (hdb : db.Carries policies)
    (hsame : ∀ kp' ∈ policies', ∀ kp ∈ policies, kp'.1 = kp.1 → kp' = kp)
    (h : syncAll settings fs env k policies' db = .ok db') : db'.Carries policies := by
  induction policies' generalizing k db with
  | nil =>
    obtain rfl := Except.ok.inj h
    exact hdb
  | cons kp rest ih =>
    obtain ⟨db₁, h₁, h⟩ := bind_eq_ok.mp h
    rw [List.forall_mem_cons] at hsame
    exact ih (hdb.sets (syncService_sets hdb.keys h₁) hsame.1) hsame.2 h

end Again

namespace Sys

variable {s s' : Sys} {tx : Tx} {tr : List (Entry Sys Tx)} {settings : Settings} {fs : FileSystem} {env : Env} {db : Store}
  {policies : List (PyStr × ServicePolicy)}

theorem carries_step (h : machine.step s tx s') (ht : tx.Leaves policies) (hdb : s.db.Carries policies) :
    s'.db.Carries policies := by
  cases hsync : tx.isSync with
  | false =>
    have he := services_step_eq h hsync
    exact ⟨he ▸ hdb.keys, he ▸ hdb.rows⟩
  | true =>
    cases tx with
    | syncServices settings' fs' env' policies' =>
      obtain ⟨-, rfl⟩ := h
      refine settle_ok (P := fun db => db.Carries policies) hdb fun r db' hr => ?_
      obtain ⟨db₁, hall, h'⟩ := bind_eq_ok.mp hr
      cases h'
      exact hdb.syncAll ht hall
    | _ => cases hsync

theorem carries_run (hr : machine.Run s tr s') (ht : ∀ e ∈ tr, e.label.Leaves policies) (hdb : s.db.Carries policies) :
    s'.db.Carries policies := by
  induction hr with
  | nil => exact hdb
  | @snoc tr m m' tx hr hs ih =>
    have htr := ih fun e he => ht e (List.mem_append_left _ he)
    exact carries_step hs (ht ⟨m, tx, m'⟩ (List.mem_append_right _ (List.mem_singleton_self _))) htr

/-- **A configuration that has been committed is committed again without a change**, at any later time at which no other
configuration has given its services another policy. -/
theorem sync_services_again (h : machine.Reachable s) (hk : (policies.map Prod.fst).Nodup)
    (hs : syncServices settings fs env policies s.db = .ok ((), db))
    (hr : machine.Run (s.exec (.syncServices settings fs env policies)) tr s') (ht : ∀ e ∈ tr, e.label.Leaves policies)
    (env' : Env) :
    (∀ kp ∈ policies, ∃ row ∈ s'.db.services.rows, row.Carries kp) ∧
      syncServices settings fs env' policies s'.db = .ok ((), s'.db) := by
  obtain ⟨db₁, hall, h'⟩ := bind_eq_ok.mp hs
  cases h'
  have hkeys := (kept_of_reachable h).keys
  have hsynced := syncAll_synced hkeys hk hall
  have hfirst : db.Carries policies := by
    refine ⟨hsynced.keys, fun kp hkp => ?_⟩
    obtain ⟨row, hm, hc, -⟩ := hsynced.configured kp hkp
    exact ⟨row, hm, hc⟩
  have hexec : (s.exec (.syncServices settings fs env policies)).db = db := by
    show settle (syncServices settings fs env policies s.db) s.db = db
    rw [hs]
    rfl
  have hlast := carries_run hr ht (hexec ▸ hfirst)
  refine ⟨hlast.rows, ?_⟩
  unfold syncServices
  rw [syncAll_again hlast (fun _ hkp => hkp) (syncAll_dirs hall)]
  rfl

end Sys

/-! The services once more while an incident is open. -/

namespace Restarted

open Sample

def finished : Tx := .finalize (env 3) analyzeClaim { result := some .null } none

theorem sync_services_again_sample :
    (∃ inc ∈ ((after 3).exec finished).db.incidents.rows, inc.state.isOpen = true) ∧
      syncServices settings fs (env 9) [(lit "api", narrowed)] ((after 3).exec finished).db =
        .ok ((), ((after 3).exec finished).db) := by
  have hok : (syncServices settings fs (env 3) [(lit "api", narrowed)] (after 2).db).isOk = true := by decide
  cases hs : syncServices settings fs (env 3) [(lit "api", narrowed)] (after 2).db with
  | error e =>
    rw [hs] at hok
    cases hok
  | ok r =>
    have hr : Sys.machine.Run ((after 2).exec (.syncServices settings fs (env 3) [(lit "api", narrowed)]))
        [⟨after 3, finished, (after 3).exec finished⟩] ((after 3).exec finished) :=
      Machine.Run.one (s := after 3) ⟨by decide, rfl⟩
    refine ⟨by decide, (Sys.sync_services_again (reachable 2) (by decide) hs hr (fun e he => ?_) (env 9)).2⟩
    obtain rfl := List.mem_singleton.mp he
    trivial

end Restarted

end Aeh
