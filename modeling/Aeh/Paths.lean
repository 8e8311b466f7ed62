import Aeh.Configured

/-!
# Paths — one repository for the events of an open incident

On a fixed file system a service's path and the path an open incident was received with lead to the same directory:
a receipt writes the path it finds at the service, `sync_services` moves a path only where no incident is open, and
closed incidents are never reopened.
-/

namespace Aeh

open Store

/-- An incident that a transition leaves was open. -/
theorem IncidentState.Next.isOpen {R : IncidentState → Prop} {a b : IncidentState} (h : a.Next R b) :
    a.isOpen = true := by
  cases h with
  | patchFailed s h | patchReady s h => rcases h with rfl | rfl <;> rfl
  | _ => rfl

/-- `path` and `path'` lead to the same directory. -/
def Settings.SameDirectory (settings : Settings) (fs : FileSystem) (path path' : PyStr) : Prop :=
  ∃ dir, settings.resolveRepositoryReference fs path = .ok dir ∧ settings.resolveRepositoryReference fs path' = .ok dir

/-- The transaction configures services on this file system below this root. -/
def Tx.On (settings : Settings) (fs : FileSystem) : Tx → Prop
  | .syncServices settings' fs' _ _ => settings'.repositoryRoot = settings.repositoryRoot ∧ fs' = fs
  | _ => True

/-- What the paths of services and incidents guarantee. -/
structure Store.Sited (settings : Settings) (fs : FileSystem) (db : Store) : Prop where
  resolves : ∀ s ∈ db.services.rows, ∃ dir, settings.resolveRepositoryReference fs s.repositoryPath = .ok dir
  service : ∀ inc ∈ db.incidents.rows, ∃ s ∈ db.services.rows, s.id = inc.serviceId
  paths : ∀ inc ∈ db.incidents.rows, inc.state.isOpen = true → ∀ s ∈ db.services.rows, s.id = inc.serviceId →
    settings.SameDirectory fs inc.repositoryPathSnapshot s.repositoryPath

section Steps

variable {db db' : Store} {settings : Settings} {fs : FileSystem} {env : Env}

/-- An incident after a receipt is an earlier one with one more event or has the path the service has. -/
theorem ingestResolved_paths {request : EventRequest} {intake : Intake} {sha : PyStr} {r : Receipt}
    (h : ingestResolved env request intake sha db = .ok (r, db')) {inc' : Incident} (hi' : inc' ∈ db'.incidents.rows) :
    (∃ inc ∈ db.incidents.rows, inc.SameCase inc' ∧ inc'.state = inc.state) ∨
      ∃ s ∈ db.services.rows, inc'.serviceId = s.id ∧ inc'.repositoryPathSnapshot = s.repositoryPath := by
  obtain ⟨service, hs, -, ⟨-, rfl⟩ | ⟨-, hp, fp, inc, occurredAt, db₁, db₂, -, -, h₁, h₂, h₃, -⟩⟩ := ingestResolved_ok h
  · exact Or.inl ⟨inc', hi', .refl inc', rfl⟩
  · obtain ⟨t, -, rfl⟩ := addErrorEvent_ok h₁
    obtain ⟨t', -, rfl⟩ := addOccurrence_ok h₃
    rcases joinIncident_ok h₂ with ⟨joined, ho, rfl, hu⟩ | ⟨-, rfl, db₃, ha, hj⟩
    · rw [updateIncident_ok hu] at hi'
      rcases Table.mem_put.mp hi' with ⟨rfl, -⟩ | ⟨hi, -⟩
      · exact Or.inl ⟨joined, (openIncident_some ho).1, joined.sameCase_counted, rfl⟩
      · exact Or.inl ⟨inc', hi, .refl inc', rfl⟩
    · obtain ⟨t₁, ht₁, rfl⟩ := addIncident_ok ha
      obtain ⟨t₂, -, rfl⟩ := addJob_ok hj
      rcases (Table.mem_insert ht₁).mp hi' with hi | rfl
      · exact Or.inl ⟨inc', hi, .refl inc', rfl⟩
      · exact Or.inr ⟨service, (Table.mem_of_first hs).1, rfl, hp.symm⟩

theorem Store.Sited.ingest {request : EventRequest} {intake : Intake} {sha : PyStr} {r : Receipt} (hs : db.Sited settings fs)
    (h : ingestResolved env request intake sha db = .ok (r, db')) (he : db'.services = db.services) :
    db'.Sited settings fs := by
  refine ⟨he ▸ hs.resolves, fun inc' hi' => ?_, fun inc' hi' ho s hsm hid => ?_⟩
  · rw [he]
    rcases ingestResolved_paths h hi' with ⟨inc, hi, same, -⟩ | ⟨s, hsm, hid, -⟩
    · rw [same.service]
      exact hs.service inc hi
    · exact ⟨s, hsm, hid.symm⟩
  · rw [he] at hsm
    rcases ingestResolved_paths h hi' with ⟨inc, hi, same, hst⟩ | ⟨s', hsm', hid', hp⟩
    · rw [same.path]
      exact hs.paths inc hi (hst ▸ ho) s hsm (hid.trans same.service)
    · obtain rfl := Table.eq_of_key hsm hsm' (hid.trans hid')
      obtain ⟨dir, hdir⟩ := hs.resolves s hsm
      exact ⟨dir, hp ▸ hdir, hdir⟩

theorem Store.Sited.syncService {id : Uuid} {key : PyStr} {policy : ServicePolicy} (hs : db.Sited settings fs)
    (h : syncService settings fs id key policy db = .ok db') : db'.Sited settings fs := by
  obtain ⟨dir, hdir, -⟩ := bind_eq_ok.mp h
  have hdir : settings.resolveRepositoryReference fs policy.repositoryPath = .ok dir := hdir
  rcases syncService_ok h with ⟨-, ha⟩ | ⟨row, stored, configured, hr, hstored, hconf, hno, rfl⟩
  · obtain ⟨t, ht, rfl⟩ := addService_ok ha
    refine ⟨fun s hsm => ?_, fun inc hi => ?_, fun inc hi ho s hsm hid => ?_⟩
    · rcases (Table.mem_insert ht).mp hsm with hsm | rfl
      · exact hs.resolves s hsm
      · exact ⟨dir, hdir⟩
    · obtain ⟨s, hsm, hid⟩ := hs.service inc hi
      exact ⟨s, (Table.mem_insert ht).mpr (Or.inl hsm), hid⟩
    · rcases (Table.mem_insert ht).mp hsm with hsm | rfl
      · exact hs.paths inc hi ho s hsm hid
      · obtain ⟨s, hsm, hid'⟩ := hs.service inc hi
        exact absurd (hid'.trans hid.symm) ((Table.insert_eq_some ht).2.1 s hsm)
  · obtain ⟨hm, -⟩ := Table.mem_of_first hr
    refine ⟨fun s hsm => ?_, fun inc hi => ?_, fun inc hi ho s hsm hid => ?_⟩
    · rcases Table.mem_put.mp hsm with ⟨rfl, -⟩ | ⟨hsm, -⟩
      · exact ⟨dir, hdir⟩
      · exact hs.resolves s hsm
    · obtain ⟨s, hsm, hid⟩ := hs.service inc hi
      by_cases he : s.id = row.id
      · exact ⟨row.configured policy, Table.mem_put.mpr (Or.inl ⟨rfl, s, hsm, he⟩), he.symm.trans hid⟩
      · exact ⟨s, Table.mem_put.mpr (Or.inr ⟨hsm, he⟩), hid⟩
    · rcases Table.mem_put.mp hsm with ⟨rfl, -⟩ | ⟨hsm, -⟩
      · -- the service has this open incident, so its directory is the one configured before
        have hopen : IncidentRepository.hasOpenIncident db row.id = true := by
          cases hf : IncidentRepository.hasOpenIncident db row.id with
          | true => rfl
          | false =>
            have hnone := Option.isSome_eq_false_iff.mp hf
            have := Table.first_eq_none.mp (Option.isNone_iff_eq_none.mp hnone) inc hi
            have hid : row.id = inc.serviceId := hid
            simp [hid, ho] at this
        obtain ⟨d, hd, hd'⟩ := hs.paths inc hi ho row hm hid
        have hsame : stored = configured := by
          by_contra hne
          exact hno ⟨hne, hopen⟩
        obtain rfl : d = stored := Except.ok.inj (hd'.symm.trans hstored)
        exact ⟨d, hd, by rw [hsame]; exact hconf⟩
      · exact hs.paths inc hi ho s hsm hid

theorem resolve_congr {settings' : Settings} (h : settings'.repositoryRoot = settings.repositoryRoot) (path : PyStr) :
    settings'.resolveRepositoryReference fs path = settings.resolveRepositoryReference fs path := by
  unfold Settings.resolveRepositoryReference
  rw [h]

theorem Store.Sited.congr {settings' : Settings} (h : settings'.repositoryRoot = settings.repositoryRoot)
    (hs : db.Sited settings fs) : db.Sited settings' fs := by
  have same : ∀ path path', settings.SameDirectory fs path path' → settings'.SameDirectory fs path path' := by
    rintro path path' ⟨dir, hp, hp'⟩
    exact ⟨dir, (resolve_congr h path).trans hp, (resolve_congr h path').trans hp'⟩
  refine ⟨fun s hsm => ?_, hs.service, fun inc hi ho s hsm hid => same _ _ (hs.paths inc hi ho s hsm hid)⟩
  obtain ⟨dir, hdir⟩ := hs.resolves s hsm
  exact ⟨dir, (resolve_congr h _).trans hdir⟩

theorem Store.Sited.syncAll {k : ℕ} {policies : List (PyStr × ServicePolicy)} (hs : db.Sited settings fs)
    (h : syncAll settings fs env k policies db = .ok db') : db'.Sited settings fs := by
  induction policies generalizing k db with
  | nil =>
    obtain rfl := Except.ok.inj h
    exact hs
  | cons kp rest ih =>
    obtain ⟨db₁, h₁, h⟩ := bind_eq_ok.mp h
    exact ih (hs.syncService h₁) h

/-- Incidents that have only moved on, with the services they had. -/
theorem Store.Sited.quiet (hs : db.Sited settings fs) (hq : db.Quiet db') (he : db'.services = db.services)
    (hopen : ∀ inc ∈ db.incidents.rows, ∀ inc' ∈ db'.incidents.rows, inc'.id = inc.id → inc'.state.isOpen = true →
      inc.state.isOpen = true) : db'.Sited settings fs := by
  refine ⟨he ▸ hs.resolves, hq.service hs.service, fun inc' hi' ho s hsm hid => ?_⟩
  obtain ⟨inc, hi, same, -⟩ := hq.back inc' hi'
  rw [he] at hsm
  rw [same.path]
  exact hs.paths inc hi (hopen inc hi inc' hi' same.id ho) s hsm (hid.trans same.service)

end Steps

/-! ## Where the commits of events were resolved -/

/-- The system and, for each stored event, the path its commit was resolved in. -/
structure Located where
  sys : Sys
  resolvedIn : Uuid → Option PyStr

/-- The paths after a transaction: a receipt that stores an event hands on the path it had looked up. -/
def Tx.resolves (tx : Tx) (db : Store) (resolvedIn : Uuid → Option PyStr) : Uuid → Option PyStr :=
  match tx with
  | .ingest env request intake sha =>
    match ingestResolved env request intake sha db with
    | .ok (r, _) => if r.duplicate then resolvedIn else Function.update resolvedIn (env.uuid 0) (some intake.repoPath)
    | .error _ => resolvedIn
  | _ => resolvedIn

/-- Every event was resolved in the directory its incident's snapshot leads to. -/
def Store.Located (settings : Settings) (fs : FileSystem) (db : Store) (resolvedIn : Uuid → Option PyStr) : Prop :=
  ∀ o ∈ db.occurrences.rows, ∃ path, resolvedIn o.errorEventId = some path ∧
    ∃ inc ∈ db.incidents.rows, inc.id = o.incidentId ∧ settings.SameDirectory fs path inc.repositoryPathSnapshot

section Steps

variable {db db' : Store} {settings : Settings} {fs : FileSystem} {env : Env} {resolvedIn : Uuid → Option PyStr}

/-- A receipt repeats an answer, or it stores the event at an open incident of a service that still has the path. -/
theorem ingestResolved_looks {request : EventRequest} {intake : Intake} {sha : PyStr} {r : Receipt}
    (h : ingestResolved env request intake sha db = .ok (r, db')) :
    (r.duplicate = true ∧ db' = db) ∨
      (r.duplicate = false ∧ ∃ service ∈ db.services.rows, service.repositoryPath = intake.repoPath ∧ ∃ occ inc',
        db.Receives (newErrorEvent env request service.id intake.eventId) occ inc' db' ∧
          inc'.state.isOpen = true) := by
  obtain ⟨service, hm, hid, ⟨hd, he⟩ | ⟨occ, inc', hr, rfl⟩⟩ := ingestResolved_receives h
  · obtain ⟨row, inc, -, -, -, rfl⟩ := duplicate_some hd
    exact Or.inl ⟨rfl, he⟩
  refine Or.inr ⟨rfl, service, hm, ?_, occ, inc', hr, ?_⟩
  · obtain ⟨service', hs', -, ⟨hd, -⟩ | ⟨-, hp, -⟩⟩ := ingestResolved_ok h
    · obtain ⟨row, inc, -, -, -, he⟩ := duplicate_some hd
      exact absurd (congrArg Receipt.duplicate he) Bool.false_ne_true
    · obtain ⟨hm', hid'⟩ := Table.mem_of_first hs'
      obtain rfl := Table.eq_of_key hm hm' (hid.trans (of_decide_eq_true hid').symm)
      exact hp
  · obtain ⟨service', -, -, ⟨hd, -⟩ | ⟨-, -, fp, inc, occurredAt, db₁, db₂, -, -, -, h₂, -, he⟩⟩ := ingestResolved_ok h
    · obtain ⟨row, inc, -, -, -, he⟩ := duplicate_some hd
      exact absurd (congrArg Receipt.duplicate he) Bool.false_ne_true
    · have hst : inc'.state = inc.state := congrArg Receipt.status he
      rw [hst]
      rcases joinIncident_ok h₂ with ⟨joined, ho, rfl, -⟩ | ⟨-, rfl, -⟩
      · exact (openIncident_some ho).2.2.2.2
      · rfl

theorem Store.Located.ingest {request : EventRequest} {intake : Intake} {sha : PyStr} {r : Receipt}
    (hl : db.Located settings fs resolvedIn) (h : ingestResolved env request intake sha db = .ok (r, db'))
    (hs' : db'.Sited settings fs) :
    db'.Located settings fs ((Tx.ingest env request intake sha).resolves db resolvedIn) := by
  simp only [Tx.resolves, h]
  rcases ingestResolved_looks h with ⟨hd, rfl⟩ | ⟨hd, service, hm, hp, occ, inc', hr, ho⟩
  · rw [hd]
    exact hl
  rw [hd]
  intro o hom
  rw [hr.occurrences, List.mem_append, List.mem_singleton] at hom
  rcases hom with hom | rfl
  · obtain ⟨path, hpath, inc, hi, hid, same⟩ := hl o hom
    obtain ⟨inc₁, hi₁, hcase⟩ := hr.forth hi
    refine ⟨path, ?_, inc₁, hi₁, hcase.id.trans hid, ?_⟩
    · have hne : o.errorEventId ≠ env.uuid 0 := hr.newOccurrence o hom
      simp only [Bool.false_eq_true, if_false]
      rwa [Function.update_of_ne hne]
    · rw [hcase.path]
      exact same
  · refine ⟨intake.repoPath, ?_, inc', hr.mem_incident, hr.incident.symm, ?_⟩
    · rw [hr.event]
      simp [newErrorEvent]
    · obtain ⟨dir, hinc, hsvc⟩ := hs'.paths inc' hr.mem_incident ho service (hr.services ▸ hm) hr.service
      exact ⟨dir, hp ▸ hsvc, hinc⟩

theorem Store.Located.quiet (hl : db.Located settings fs resolvedIn) (hq : db.Quiet db') :
    db'.Located settings fs resolvedIn := by
  intro o hom
  rw [hq.occurrences] at hom
  obtain ⟨path, hpath, inc, hi, hid, same⟩ := hl o hom
  obtain ⟨inc', hi', hcase, -⟩ := hq.forth inc hi
  exact ⟨path, hpath, inc', hi', hcase.id.trans hid, by rw [hcase.path]; exact same⟩

end Steps

/-! ## Runs on one file system -/

namespace Located

/-- The runs whose services come from `sync_services` on one file system below one root. -/
def machine (settings : Settings) (fs : FileSystem) : Machine Located Tx where
  init w := w = ⟨⟨Store.ofServices Table.empty, [], []⟩, fun _ => none⟩
  step w tx w' := Sys.machine.step w.sys tx w'.sys ∧ tx.On settings fs ∧
    w'.resolvedIn = tx.resolves w.sys.db w.resolvedIn

variable {settings : Settings} {fs : FileSystem} {w w' : Located}

theorem sys_reachable (h : (machine settings fs).Reachable w) : Sys.machine.Reachable w.sys := by
  refine Machine.Reachable.map (M := Sys.machine) (N := machine settings fs) Located.sys ?_
    (fun _ _ _ h hs => h.step hs.1) h
  rintro _ rfl
  exact ⟨Table.empty, List.nodup_nil, rfl⟩

/-- No transaction opens an incident again. -/
theorem open_of_open {s s' : Sys} {tx : Tx} (hs : s.Inv) (h : Sys.machine.step s tx s') {inc inc' : Incident}
    (hi : inc ∈ s.db.incidents.rows) (hi' : inc' ∈ s'.db.incidents.rows) (hid : inc'.id = inc.id)
    (ho : inc'.state.isOpen = true) : inc.state.isOpen = true := by
  obtain ⟨inc₁, hget, -, hst⟩ := (Sys.step_moves hs h).incident hs.ok (Table.get_self hi)
  obtain ⟨hi₁, hid₁⟩ := Table.get_eq_some.mp hget
  obtain rfl := Table.eq_of_key hi' hi₁ (hid.trans hid₁.symm)
  rcases hst with ⟨he, -⟩ | ⟨hn, -⟩
  · rwa [← he]
  · exact hn.isOpen

/-- One transaction. -/
theorem step_sited (hinv : w.sys.Inv) (hs : w.sys.db.Sited settings fs)
    (hl : w.sys.db.Located settings fs w.resolvedIn) {tx : Tx} (h : (machine settings fs).step w tx w') :
    w'.sys.db.Sited settings fs ∧ w'.sys.db.Located settings fs w'.resolvedIn := by
  obtain ⟨h, hon, he⟩ := h
  rw [he]
  by_cases hi : ∃ env request intake sha, tx = .ingest env request intake sha
  · obtain ⟨env, request, intake, sha, rfl⟩ := hi
    have hsvc := Sys.services_step_eq h rfl
    obtain ⟨-, hw⟩ := h
    rw [hw] at hsvc ⊢
    cases hr : ingestResolved env request intake sha w.sys.db with
    | error e => simpa [Sys.exec, settle, commit, Tx.resolves, hr] using And.intro hs hl
    | ok p =>
      obtain ⟨r, db'⟩ := p
      simp only [Sys.exec, hr, settle, commit] at hsvc ⊢
      have hs' := hs.ingest hr hsvc
      exact ⟨hs', hl.ingest hr hs'⟩
  have hq := Sys.quiet_step h fun env request intake sha he => hi ⟨env, request, intake, sha, he⟩
  have hres : tx.resolves w.sys.db w.resolvedIn = w.resolvedIn := by
    cases tx with
    | ingest env request intake sha => exact absurd ⟨env, request, intake, sha, rfl⟩ hi
    | _ => rfl
  rw [hres]
  refine ⟨?_, hl.quiet hq⟩
  cases hsync : tx.isSync with
  | false =>
    exact hs.quiet hq (Sys.services_step_eq h hsync) fun inc hi inc' hi' hid ho => open_of_open hinv h hi hi' hid ho
  | true =>
    cases tx with
    | syncServices settings' fs' env policies =>
      obtain ⟨hroot, rfl⟩ := hon
      obtain ⟨-, hw⟩ := h
      rw [hw]
      refine Sys.settle_ok (P := fun db => db.Sited settings fs') hs fun _ db' hr => ?_
      obtain ⟨db₁, h₁, h'⟩ := bind_eq_ok.mp hr
      cases h'
      exact ((hs.congr hroot).syncAll h₁).congr hroot.symm
    | _ => cases hsync

/-- What holds of paths in every reachable state. -/
theorem sited_of_reachable (h : (machine settings fs).Reachable w) :
    w.sys.db.Sited settings fs ∧ w.sys.db.Located settings fs w.resolvedIn := by
  refine (Machine.Reachable.invariant (M := machine settings fs)
    (I := fun w => Sys.machine.Reachable w.sys ∧ w.sys.db.Sited settings fs ∧
      w.sys.db.Located settings fs w.resolvedIn) ?_ ?_ h).2
  · intro w h₀
    refine ⟨sys_reachable (.of_init h₀), ?_⟩
    obtain rfl := h₀
    exact ⟨⟨nofun, nofun, nofun⟩, nofun⟩
  · rintro w tx w' ⟨hr, hs, hl⟩ hstep
    exact ⟨hr.step hstep.1, step_sited (Sys.inv_of_reachable hr) hs hl hstep⟩

/-- **One repository for each open incident.**  On a fixed file system, whatever `sync_services`, receipts, workers
and approvals do: the snapshot of an open incident leads to the directory its service's path leads to now, and the
commits of all events grouped into it were resolved in that directory. -/
theorem open_incident_repository (h : (machine settings fs).Reachable w) {inc : Incident}
    (hi : inc ∈ w.sys.db.incidents.rows) (ho : inc.state.isOpen = true) :
    ∃ service dir, w.sys.db.services.get inc.serviceId = some service ∧
      settings.resolveRepositoryReference fs inc.repositoryPathSnapshot = .ok dir ∧
      settings.resolveRepositoryReference fs service.repositoryPath = .ok dir ∧
      ∀ o ∈ w.sys.db.occurrences.rows, o.incidentId = inc.id → ∃ path, w.resolvedIn o.errorEventId = some path ∧
        settings.resolveRepositoryReference fs path = .ok dir := by
  obtain ⟨hs, hl⟩ := sited_of_reachable h
  obtain ⟨service, hm, hid⟩ := hs.service inc hi
  obtain ⟨dir, hinc, hsvc⟩ := hs.paths inc hi ho service hm hid
  refine ⟨service, dir, Table.get_eq_some.mpr ⟨hm, hid⟩, hinc, hsvc, fun o hom hoi => ?_⟩
  obtain ⟨path, hpath, inc', hi', hid', d, hd, hd'⟩ := hl o hom
  obtain rfl := Table.eq_of_key hi' hi (hid'.trans hoi)
  obtain rfl : d = dir := Except.ok.inj (hd'.symm.trans hinc)
  exact ⟨path, hpath, hd⟩

end Located

/-! ### A service that moves to an alias -/

namespace Alias

open Sample

/-- `current` leads where `api` leads. -/
def fs : FileSystem :=
  { cwd := [], pathExists := fun _ _ => true
    resolve := fun base reference => some (base ++ [if reference = lit "current" then lit "api" else reference]) }

def renamed : ServicePolicy := { narrowed with repositoryPath := lit "current", repository_safe := by decide }

/-- What `ingest` looked up before and after the move. -/
def intakes : Intake × Intake :=
  ({ intake with serviceId := 0 }, { intake with serviceId := 0, repoPath := lit "current", eventId := 8 })

/-- The incident of both events. -/
def incident : Incident :=
  (newIncident (env 1) intakes.1 (lit "f") sha (newErrorEvent (env 1) request 0 7)).counted

/-- An incident stays open while its service's path changes, and a second event joins it. -/
theorem open_incident_repository_sample : ∃ w, (Located.machine settings fs).Reachable w ∧
    incident ∈ w.sys.db.incidents.rows ∧ incident.occurrenceCount = 2 ∧
    ∃ service dir, w.sys.db.services.get incident.serviceId = some service ∧
      settings.resolveRepositoryReference fs incident.repositoryPathSnapshot = .ok dir ∧
      settings.resolveRepositoryReference fs service.repositoryPath = .ok dir := by
  have step : ∀ (w : Located) (tx : Tx), (Located.machine settings fs).Reachable w → w.sys.allows tx →
      tx.On settings fs → (Located.machine settings fs).Reachable ⟨w.sys.exec tx, tx.resolves w.sys.db w.resolvedIn⟩ :=
    fun w tx h ha hon => h.step (show (Located.machine settings fs).step w tx ⟨_, _⟩ from ⟨⟨ha, rfl⟩, hon, rfl⟩)
  have h₀ : (Located.machine settings fs).Reachable ⟨⟨Store.ofServices Table.empty, [], []⟩, fun _ => none⟩ :=
    .of_init rfl
  have h₁ := step _ (.syncServices settings fs (env 0) [(lit "api", narrowed)]) h₀ trivial ⟨rfl, rfl⟩
  have h₂ := step _ (.ingest (env 1) request intakes.1 sha) h₁ trivial trivial
  have h₃ := step _ (.syncServices settings fs (env 2) [(lit "api", renamed)]) h₂ trivial ⟨rfl, rfl⟩
  have h₄ := step _ (.ingest (env 3) request intakes.2 sha) h₃ trivial trivial
  have hi : incident ∈ _ := List.mem_singleton_self incident
  obtain ⟨service, dir, hs, hinc, hsvc, -⟩ := Located.open_incident_repository h₄ hi rfl
  exact ⟨_, h₄, hi, rfl, service, dir, hs, hinc, hsvc⟩

end Alias

end Aeh
