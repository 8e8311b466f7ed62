import Aeh.Frozen
import Aeh.Links
import Aeh.Receipts

/-!
# Browsing — following the cursors while the store changes

Between the pages other transactions receive events and move incidents on.  What a cursor is made of never changes, so
on PostgreSQL no incident is listed twice, what matches all the time is listed, and a client that has not reached the end
has seen a new incident with each item (`Sys.listing_stable`).
-/

namespace Aeh

/-- A receipt has the time of the database as the backend gives it. -/
def Tx.StampedBy (backend : Backend) : Tx → Prop
  | .ingest env .. => env.dbNow.StampedBy backend
  | _ => True

namespace Sys

/-- The runs over a database of the backend. -/
def stamping (backend : Backend) : Machine Sys Tx where
  init := Start
  step s tx s' := machine.step s tx s' ∧ tx.StampedBy backend

variable {backend : Backend} {s s' : Sys} {tx : Tx}

/-! ## What the runs keep -/

theorem ingest_stamped {env : Env} {request : EventRequest} {intake : Intake} {sha : PyStr}
    (h : machine.step s (.ingest env request intake sha) s') (he : env.dbNow.StampedBy backend) (hs : s.db.Stamped backend) :
    s'.db.Stamped backend := by
  obtain ⟨-, rfl⟩ := h
  refine settle_ok (P := fun db => db.Stamped backend) hs fun r db' hr => ?_
  obtain ⟨service, -, -, ⟨-, rfl⟩ | ⟨-, -, fingerprint, inc, occurredAt, db₁, db₂, -, -, h₁, h₂, h₃, -⟩⟩ := ingestResolved_ok hr
  · exact hs
  · obtain ⟨_, -, rfl⟩ := Store.addErrorEvent_ok h₁
    obtain ⟨_, -, rfl⟩ := Store.addOccurrence_ok h₃
    rcases joinIncident_ok h₂ with ⟨joined, ho, rfl, hu⟩ | ⟨-, rfl, db₃, ha, hj⟩
    · obtain ⟨hm, -⟩ := openIncident_some ho
      obtain rfl := Store.updateIncident_ok hu
      intro i hi
      rcases Table.mem_put.mp hi with ⟨rfl, -⟩ | ⟨hi, -⟩
      · exact hs joined hm
      · exact hs i hi
    · obtain ⟨ti, hti, rfl⟩ := Store.addIncident_ok ha
      obtain ⟨_, -, rfl⟩ := Store.addJob_ok hj
      intro i hi
      rcases (Table.mem_insert hti).mp hi with hi | rfl
      · exact hs i hi
      · exact he

theorem stamped_step (h : (stamping backend).step s tx s') (hs : s.db.Stamped backend) : s'.db.Stamped backend := by
  obtain ⟨h, ht⟩ := h
  by_cases hi : ∃ env request intake sha, tx = .ingest env request intake sha
  · obtain ⟨env, request, intake, sha, rfl⟩ := hi
    exact ingest_stamped h ht hs
  · have hq := quiet_step h fun env request intake sha he => hi ⟨env, request, intake, sha, he⟩
    intro i hi'
    obtain ⟨inc, hinc, same⟩ := hq.back i hi'
    rw [same.same.created]
    exact hs inc hinc

theorem stamped_of_reachable (h : (stamping backend).Reachable s) : s.db.Stamped backend := by
  refine Machine.Reachable.invariant (M := stamping backend) (I := fun s => s.db.Stamped backend) ?_
    (fun _ _ _ hs hstep => stamped_step hstep hs) h
  rintro _ ⟨services, -, rfl⟩
  exact nofun

theorem reachable_of_stamping (h : (stamping backend).Reachable s) : machine.Reachable s :=
  Machine.Reachable.map (M := machine) (N := stamping backend) id (fun _ h => h) (fun _ _ _ h hs => h.step hs.1) h

/-- A run keeps incidents and services. -/
theorem kept_of_stamping (h : (stamping backend).Reachable s) {tr : List (Entry Sys Tx)} (hr : (stamping backend).Run s tr s') :
    Keeps s.db s'.db ∧ ServicesKept s.db.services s'.db.services :=
  Machine.Run.rel (R := fun a b => Keeps a.db b.db ∧ ServicesKept a.db.services b.db.services)
    (fun a => ⟨.refl a.db, .refl _⟩) (fun _ _ _ ⟨h, hs⟩ ⟨h', hs'⟩ => ⟨h.trans h', hs.trans hs'⟩)
    (fun _ _ _ ha hs => ⟨(step_moves (inv_of_reachable (reachable_of_stamping ha)) hs.1).keeps
      (inv_of_reachable (reachable_of_stamping ha)).ok, services_step hs.1⟩) h hr

/-- A joined row is there later, perhaps in another state. -/
theorem joined_kept {db db' : Store} (hk : Keeps db db' ∧ ServicesKept db.services db'.services) {x : Incident × PyStr}
    (hx : x ∈ joined db) : ∃ y ∈ joined db', x.1.SameCase y.1 ∧ y.2 = x.2 := by
  obtain ⟨hm, service, hs, hkey⟩ := mem_joined hx
  obtain ⟨hsm, hsid⟩ := Table.get_eq_some.mp hs
  obtain ⟨inc', hi', same⟩ := hk.1.incident x.1.id x.1 (Table.get_eq_some.mpr ⟨hm, rfl⟩)
  obtain ⟨service', hm', hid', hkey'⟩ := hk.2.kept service hsm
  refine ⟨(inc', service'.key), List.mem_filterMap.mpr ⟨inc', (Table.get_eq_some.mp hi').1, ?_⟩, same, hkey'.trans hkey.symm⟩
  have hget : db'.services.get inc'.serviceId = some service' :=
    Table.get_eq_some.mpr ⟨hm', hid'.trans (hsid.trans same.service.symm)⟩
  rw [hget]
  rfl

/-! ## The pages -/

/-- The requests of a client find the states `ts`, one after the other. -/
def Requests (backend : Backend) (s : Sys) (ts : ℕ → Sys) : Prop :=
  ts 0 = s ∧ ∀ k, ∃ tr, (stamping backend).Run (ts k) tr (ts (k + 1))

variable {ts : ℕ → Sys}

theorem Requests.run (hr : Requests backend s ts) {j k : ℕ} (h : j ≤ k) : ∃ tr, (stamping backend).Run (ts j) tr (ts k) := by
  induction h with
  | refl => exact ⟨[], .nil⟩
  | step _ ih =>
    obtain ⟨tr, hrun⟩ := ih
    obtain ⟨tr', hrun'⟩ := hr.2 _
    exact ⟨tr ++ tr', hrun.append hrun'⟩

theorem Requests.reachable (hr : Requests backend s ts) (h : (stamping backend).Reachable s) (k : ℕ) :
    (stamping backend).Reachable (ts k) := by
  obtain ⟨tr, hrun⟩ := hr.run (Nat.zero_le k)
  rw [hr.1] at hrun
  exact h.run hrun

theorem Requests.kept (hr : Requests backend s ts) (h : (stamping backend).Reachable s) {j k : ℕ} (hjk : j ≤ k) :
    Keeps (ts j).db (ts k).db ∧ ServicesKept (ts j).db.services (ts k).db.services := by
  obtain ⟨tr, hrun⟩ := hr.run hjk
  exact kept_of_stamping (hr.reachable h j) hrun

/-- The rows of an incident have one key. -/
theorem Requests.rowKey_eq (hr : Requests backend s ts) (h : (stamping backend).Reachable s) {j k : ℕ} {x y : Incident × PyStr}
    (hx : x ∈ joined (ts j).db) (hy : y ∈ joined (ts k).db) (hi : x.1.id = y.1.id) :
    rowKey backend x = rowKey backend y := by
  have one : ∀ {j k : ℕ} {x y : Incident × PyStr}, j ≤ k → x ∈ joined (ts j).db → y ∈ joined (ts k).db → x.1.id = y.1.id →
      rowKey backend x = rowKey backend y := by
    intro j k x y hjk hx hy hi
    obtain ⟨z, hz, same, -⟩ := joined_kept (hr.kept h hjk) hx
    obtain rfl := joined_inj hz hy (same.id.trans hi)
    rw [rowKey, rowKey, same.created, same.id]
  rcases Nat.le_total j k with hjk | hkj
  · exact one hjk hx hy hi
  · exact (one hkj hy hx hi.symm).symm

end Sys

section Pages

variable (hmac : PyStr → Bytes → Bytes) (settings : Settings) (serviceKey state : Option PyStr)

variable {backend : Backend} {db : Store} {limit : ℤ}

/-- `list_incidents` is paging through the ordered rows also behind a row that has changed since. -/
theorem listIncidents_pages (hl : 1 ≤ limit ∧ limit ≤ 100) (hs : (backend.sends serviceKey && backend.sends state) = true)
    (hst : db.Stamped backend) :
    Simulates (page Exn (ordered backend db serviceKey state) (afterRow backend) limit.toNat)
      (fun c => listIncidents hmac settings backend db serviceKey state c limit)
      (fun c => ∀ x ∈ c, x.1.createdAt.StampedBy backend)
      (fun x => cursorEncode hmac settings.cursorSecret x.1) incidentSummary := by
  intro c hc
  refine ⟨_, _, rfl, ?_, ?_⟩
  · intro x hx
    split_ifs at hx
    · have hm := List.mem_of_mem_take (List.mem_of_getElem? hx)
      have ho : x ∈ ordered backend db serviceKey state := by
        cases c with
        | none => exact hm
        | some y => exact List.mem_of_mem_filter hm
      exact stamped_of_mem hst (mem_of_matching (mem_ordered.mp ho))
    · cases hx
  · show listIncidents _ _ _ _ _ _ _ _ = _
    rw [listIncidents, if_pos hl, beforeOf_stamped hc]
    show (IncidentRepository.listRows _ _ _ _ _ _ >>= _) = _
    rw [listRows_stamped hs hc]
    show Except.ok _ = _
    split_ifs <;> rfl

variable {hmac settings}

/-- The route answers like `list_incidents` where it has let the state pass. -/
theorem ControlApi.incidents_eq {q : ListQuery} (h : checkState q.state = .ok ()) (cursor : Option PyStr) :
    ControlApi.incidents hmac settings backend db { q with cursor := cursor } =
      listIncidents hmac settings backend db q.serviceKey q.state cursor q.limit := by
  unfold ControlApi.incidents
  dsimp only
  rw [h]
  rfl

end Pages

namespace Sys

variable {hmac : PyStr → Bytes → Bytes} {settings : Settings} {s : Sys} {ts : ℕ → Sys} {q : ListQuery} {n : ℕ}
  {items : List IncidentSummary} {next : Option PyStr}

/-- What the pages have shown, as rows of the states their requests found. -/
theorem visits_rows (h : (stamping .postgresql).Reachable s) (hr : Requests .postgresql s ts)
    (hv : Visits (fun k cursor => ControlApi.incidents hmac settings .postgresql (ts k).db { q with cursor := cursor }) n items
      next) :
    ∃ rows c, items = rows.map incidentSummary ∧ next = c.map (fun x => cursorEncode hmac settings.cursorSecret x.1) ∧
      Covers (rowKey .postgresql) (fun k => ordered .postgresql (ts k).db q.serviceKey q.state) q.limit.toNat n rows c ∧
      0 < n ∧ ∃ answer, ControlApi.incidents hmac settings .postgresql (ts n).db { q with cursor := next } = .ok answer := by
  obtain ⟨hn, answer, h₀⟩ := hv.first_ok
  obtain ⟨_, hcheck, hlist⟩ := bind_eq_ok.mp h₀
  obtain ⟨hl', hs', -⟩ := listIncidents_ok (q := { q with cursor := none }) hlist
  have hl : 1 ≤ q.limit ∧ q.limit ≤ 100 := hl'
  have hs : (Backend.postgresql.sends q.serviceKey && Backend.postgresql.sends q.state) = true := (Bool.and_eq_true _ _).mpr hs'
  have hpages : ∀ k, Simulates
      (page Exn (ordered .postgresql (ts k).db q.serviceKey q.state)
        (fun x y => decide (rowKey .postgresql y < rowKey .postgresql x)) q.limit.toNat)
      (fun cursor => ControlApi.incidents hmac settings .postgresql (ts k).db { q with cursor := cursor })
      (fun c => ∀ x ∈ c, x.1.createdAt.StampedBy .postgresql) (fun x => cursorEncode hmac settings.cursorSecret x.1)
      incidentSummary := by
    intro k
    have hsim := listIncidents_pages hmac settings q.serviceKey q.state hl hs
      (stamped_of_reachable (hr.reachable h k))
    rw [show afterRow .postgresql = _ from funext fun x => funext (afterRow_postgresql x)] at hsim
    rwa [show (fun cursor => ControlApi.incidents hmac settings .postgresql (ts k).db { q with cursor := cursor }) = _ from
      funext (ControlApi.incidents_eq hcheck)]
  obtain ⟨rows, c, hvisits, hc, rfl, rfl⟩ := Simulates.of_visits hpages nofun hv
  refine ⟨rows, c, rfl, rfl, hvisits.covers (by omega) fun k => ordered_strict, hn, ?_⟩
  obtain ⟨_, _, -, -, hanswer⟩ := hpages n c hc
  exact ⟨_, hanswer⟩

/-- The rows shown are rows of different incidents. -/
theorem ids_nodup (h : (stamping .postgresql).Reachable s) (hr : Requests .postgresql s ts) {rows : List (Incident × PyStr)}
    (hd : rows.Pairwise fun x y => rowKey .postgresql y < rowKey .postgresql x)
    (hm : ∀ x ∈ rows, ∃ k < n, x ∈ joined (ts k).db) : (rows.map fun x => x.1.id).Nodup := by
  refine List.pairwise_map.mpr (hd.imp_of_mem fun hx hy hlt hid => ?_)
  obtain ⟨j, -, hx⟩ := hm _ hx
  obtain ⟨k, -, hy⟩ := hm _ hy
  exact hlt.ne' (hr.rowKey_eq h hx hy hid)

/-- Without a filter for the state a row matches from then on. -/
theorem matching_kept {db db' : Store} (hk : Keeps db db' ∧ ServicesKept db.services db'.services) {serviceKey state : Option PyStr}
    (hs : given state = none) {x : Incident × PyStr} (hx : x ∈ matching db serviceKey state) :
    ∃ y ∈ matching db' serviceKey state, y.1.id = x.1.id := by
  obtain ⟨hj, hf⟩ := List.mem_filter.mp hx
  obtain ⟨y, hy, same, hkey⟩ := joined_kept hk hj
  refine ⟨y, List.mem_filter.mpr ⟨hy, ?_⟩, same.id⟩
  simp only [filtered, hs, hkey] at hf ⊢
  exact hf

/-- **A listing is stable**: while the store changes between the requests, no incident is listed twice, the items stand in
the order of the listing and each matched when its page was read; a listing that has ended holds what matched each time,
without a state filter all that was there at its start; before its end every page is full and the next request is
answered. -/
theorem listing_stable (h : (stamping .postgresql).Reachable s) (hr : Requests .postgresql s ts)
    (hv : Visits (fun k cursor => ControlApi.incidents hmac settings .postgresql (ts k).db { q with cursor := cursor }) n items
      next) :
    (items.map IncidentSummary.id).Nodup ∧
    (∃ rows : List (Incident × PyStr), items = rows.map incidentSummary ∧ rows.Pairwise (fun x y => x.1.Newer y.1) ∧
      ∀ x ∈ rows, ∃ k < n, x ∈ matching (ts k).db q.serviceKey q.state) ∧
    (next = none → ∀ i, (∀ k < n, ∃ x ∈ matching (ts k).db q.serviceKey q.state, x.1.id = i) → ∃ item ∈ items, item.id = i) ∧
    (next = none → given q.state = none → ∀ x ∈ matching s.db q.serviceKey q.state, ∃ item ∈ items, item.id = x.1.id) ∧
    (next ≠ none → items.length = n * q.limit.toNat ∧ n * q.limit.toNat ≤ (ts n).db.incidents.rows.length ∧
      ∃ answer, ControlApi.incidents hmac settings .postgresql (ts n).db { q with cursor := next } = .ok answer) := by
  obtain ⟨rows, c, rfl, rfl, hcovers, hn, hanswer⟩ := visits_rows h hr hv
  have hmatch : ∀ x ∈ rows, ∃ k < n, x ∈ matching (ts k).db q.serviceKey q.state := fun x hx => by
    obtain ⟨k, hk, hx⟩ := hcovers.listed x hx
    exact ⟨k, hk, mem_ordered.mp hx⟩
  have hjoined : ∀ x ∈ rows, ∃ k < n, x ∈ joined (ts k).db := fun x hx => by
    obtain ⟨k, hk, hx⟩ := hmatch x hx
    exact ⟨k, hk, mem_of_matching hx⟩
  have hids : (rows.map fun x => x.1.id).Nodup := ids_nodup h hr hcovers.descending hjoined
  have hall : c = none → ∀ i, (∀ k < n, ∃ x ∈ matching (ts k).db q.serviceKey q.state, x.1.id = i) →
      ∃ item ∈ rows.map incidentSummary, item.id = i := by
    rintro rfl i hi
    obtain ⟨x, hx, rfl⟩ := hi 0 hn
    -- the key of the incident is the same in each of the states
    rcases hcovers.complete (rowKey .postgresql x) fun k hk => by
      obtain ⟨y, hy, hid⟩ := hi k hk
      exact ⟨y, mem_ordered.mpr hy, hr.rowKey_eq h (mem_of_matching hy) (mem_of_matching hx) hid⟩ with ⟨y, hy, hkey⟩ | ⟨_, ⟨⟩, -⟩
    have hcell : Backend.postgresql.idCell y.1.id = Backend.postgresql.idCell x.1.id := congrArg (fun k => (ofLex k).2) hkey
    exact ⟨incidentSummary y, List.mem_map_of_mem hy, Backend.idCell_inj hcell⟩
  refine ⟨?_, ⟨rows, rfl, ?_, hmatch⟩, fun hnext => ?_, fun hnext hs x hx => ?_, fun hnext => ?_⟩
  · rw [List.map_map]
    exact hids
  · refine hcovers.descending.imp_of_mem fun hx hy hlt => (rowKey_lt_stamped ?_ ?_).mp hlt
    · obtain ⟨k, -, hx⟩ := hjoined _ hx
      exact stamped_of_mem (stamped_of_reachable (hr.reachable h k)) hx
    · obtain ⟨k, -, hy⟩ := hjoined _ hy
      exact stamped_of_mem (stamped_of_reachable (hr.reachable h k)) hy
  · exact hall (Option.map_eq_none_iff.mp hnext)
  · refine hall (Option.map_eq_none_iff.mp hnext) x.1.id fun k _ => ?_
    rw [← hr.1] at hx
    exact matching_kept (hr.kept h (Nat.zero_le k)) hs hx
  · have hfull : rows.length = n * q.limit.toNat := hcovers.full fun hc => hnext (by rw [hc]; rfl)
    refine ⟨by rw [List.length_map, hfull], ?_, hanswer⟩
    have hsub : (rows.map fun x => x.1.id) ⊆ (ts n).db.incidents.rows.map Incident.id := fun i hi => by
      obtain ⟨x, hx, rfl⟩ := List.mem_map.mp hi
      obtain ⟨k, hk, hx⟩ := hjoined x hx
      obtain ⟨y, hy, same, -⟩ := joined_kept (hr.kept h hk.le) hx
      exact List.mem_map.mpr ⟨y.1, (mem_joined hy).1, same.id⟩
    have hle := (List.subperm_of_subset hids hsub).length_le
    rwa [List.length_map, List.length_map, hfull] at hle

end Sys

/-! One page of the first incident, whose analysis then begins. -/

namespace Stable

open Sample

def stored : Sys := start.exec (.ingest (env 1) request intake sha)

def claimed : Sys := stored.exec (.claimJob settings (env 2) fun _ => false)

theorem stored_reachable : (Sys.stamping .postgresql).Reachable stored := by
  have h₀ : (Sys.stamping .postgresql).Reachable start := .of_init ⟨⟨[service], by decide⟩, by decide, rfl⟩
  exact h₀.step (show (Sys.stamping .postgresql).step start (.ingest (env 1) request intake sha) stored from
    ⟨⟨trivial, rfl⟩, by decide, rfl, fun _ => rfl⟩)

def states : ℕ → Sys
  | 0 => stored
  | _ + 1 => claimed

theorem requests : Sys.Requests .postgresql stored states := by
  refine ⟨rfl, fun k => ?_⟩
  cases k with
  | zero => exact ⟨_, .snoc .nil (show (Sys.stamping .postgresql).step stored (.claimJob settings (env 2) fun _ => false) claimed
      from ⟨⟨trivial, rfl⟩, trivial⟩)⟩
  | succ k => exact ⟨[], .nil⟩

/-- The first page is the last one. -/
theorem visits : ∃ items, Visits
    (fun k cursor => ControlApi.incidents Pages.hmac settings .postgresql (states k).db ⟨none, none, cursor, 20⟩) 1 items none := by
  have hl : (1 : ℤ) ≤ 20 ∧ (20 : ℤ) ≤ 100 := by decide
  obtain ⟨items, next, hp, -, hanswer⟩ := listIncidents_pages Pages.hmac settings none none hl rfl
    (Sys.stamped_of_reachable stored_reachable) none nofun
  have hfew : (behind (ordered .postgresql stored.db none none) (afterRow .postgresql) none).length ≤ (20 : ℤ).toNat := by
    show (ordered .postgresql stored.db none none).length ≤ _
    rw [ordered_perm.length_eq]
    decide
  obtain ⟨rfl, rfl⟩ := Prod.mk.inj (Except.ok.inj (hp.symm.trans (page_last Exn hfew)))
  exact ⟨_, .first hanswer⟩

/-- It lists the incident. -/
theorem listing_stable_sample : ∃ items, Visits
    (fun k cursor => ControlApi.incidents Pages.hmac settings .postgresql (states k).db ⟨none, none, cursor, 20⟩) 1 items none ∧
    ∃ item ∈ items, item.id = 17 := by
  obtain ⟨items, hv⟩ := visits
  obtain ⟨x, hx, hid⟩ : ∃ x ∈ matching stored.db none none, x.1.id = 17 := by decide
  obtain ⟨item, hi, he⟩ := (Sys.listing_stable (q := ⟨none, none, none, 20⟩) stored_reachable requests hv).2.2.2.1 rfl rfl x hx
  exact ⟨items, hv, item, hi, he.trans hid⟩

end Stable

end Aeh
