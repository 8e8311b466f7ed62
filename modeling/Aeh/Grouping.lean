import Aeh.OpenIndex

/-!
# Grouping — events, occurrences and the incidents that count them

`Store.Grouped` is what intake guarantees of its tables: every stored event has one occurrence, at an
incident of its service and fingerprint that counts it.  Workers, approvals and configuration leave these
tables alone up to the state of incidents (`Store.Quiet`), so that only a receipt has to be looked at.
-/

namespace Aeh

/-! ## Steps that receive no event -/

/-- A later version of an incident that has counted no event since. -/
structure Incident.SameGroup (a b : Incident) : Prop where
  same : a.SameCase b
  count : b.occurrenceCount = a.occurrenceCount

theorem Incident.SameGroup.refl (a : Incident) : a.SameGroup a := ⟨.refl a, rfl⟩

theorem Incident.SameGroup.trans {a b c : Incident} (h : a.SameGroup b) (h' : b.SameGroup c) : a.SameGroup c :=
  ⟨h.same.trans h'.same, h'.count.trans h.count⟩

theorem Incident.sameGroup_moveTo (inc : Incident) (s : IncidentState) : inc.SameGroup (inc.moveTo s) :=
  ⟨inc.sameCase_moveTo s, rfl⟩

/-- Services stay, with their keys, and the keys stay distinct. -/
structure ServicesKept (t t' : Table Service) : Prop where
  kept : ∀ s ∈ t.rows, ∃ s' ∈ t'.rows, s'.id = s.id ∧ s'.key = s.key
  keys : (t.rows.map Service.key).Nodup → (t'.rows.map Service.key).Nodup

theorem ServicesKept.refl (t : Table Service) : ServicesKept t t := ⟨fun s hs => ⟨s, hs, rfl, rfl⟩, id⟩

theorem ServicesKept.trans {t t' t'' : Table Service} (h : ServicesKept t t') (h' : ServicesKept t' t'') :
    ServicesKept t t'' := by
  refine ⟨fun s hs => ?_, fun hk => h'.keys (h.keys hk)⟩
  obtain ⟨s', hs', hid, hkey⟩ := h.kept s hs
  obtain ⟨s'', hs'', hid', hkey'⟩ := h'.kept s' hs'
  exact ⟨s'', hs'', hid'.trans hid, hkey'.trans hkey⟩

/-- No event is received from `db` to `db'`. -/
structure Store.Quiet (db db' : Store) : Prop where
  services : ServicesKept db.services db'.services
  events : db'.errorEvents = db.errorEvents
  occurrences : db'.occurrences = db.occurrences
  forth : ∀ inc ∈ db.incidents.rows, ∃ inc' ∈ db'.incidents.rows, inc.SameGroup inc'
  back : ∀ inc' ∈ db'.incidents.rows, ∃ inc ∈ db.incidents.rows, inc.SameGroup inc'

/-- The tables of intake. -/
def Store.intakeTables (db : Store) : Table Service × Table ErrorEvent × Table Incident × Table Occurrence :=
  (db.services, db.errorEvents, db.incidents, db.occurrences)

namespace Store.Quiet

variable {db db₁ db₂ : Store}

theorem refl (db : Store) : db.Quiet db :=
  ⟨.refl _, rfl, rfl, fun inc h => ⟨inc, h, .refl inc⟩, fun inc h => ⟨inc, h, .refl inc⟩⟩

theorem trans (h : db.Quiet db₁) (h' : db₁.Quiet db₂) : db.Quiet db₂ := by
  refine ⟨h.services.trans h'.services, h'.events.trans h.events, h'.occurrences.trans h.occurrences, ?_, ?_⟩
  · intro inc hi
    obtain ⟨inc₁, hi₁, h₁⟩ := h.forth inc hi
    obtain ⟨inc₂, hi₂, h₂⟩ := h'.forth inc₁ hi₁
    exact ⟨inc₂, hi₂, h₁.trans h₂⟩
  · intro inc₂ hi₂
    obtain ⟨inc₁, hi₁, h₂⟩ := h'.back inc₂ hi₂
    obtain ⟨inc, hi, h₁⟩ := h.back inc₁ hi₁
    exact ⟨inc, hi, h₁.trans h₂⟩

theorem of_eq (he : db₁.intakeTables = db.intakeTables) : db.Quiet db₁ := by
  simp only [intakeTables, Prod.mk.injEq] at he
  obtain ⟨hs, hev, hi, ho⟩ := he
  refine ⟨hs ▸ .refl _, hev, ho, ?_, ?_⟩ <;> rw [hi] <;> exact fun inc h => ⟨inc, h, .refl inc⟩

/-- An incident of a store with the same tables of intake moves on. -/
theorem moveTo {inc : Incident} {s : IncidentState} (hu : db₁.updateIncident (inc.moveTo s) = .ok db₂)
    (hi : inc ∈ db.incidents.rows) (he : db₁.intakeTables = db.intakeTables) : db.Quiet db₂ := by
  refine (of_eq he).trans ?_
  simp only [intakeTables, Prod.mk.injEq] at he
  rw [← he.2.2.1] at hi
  rw [updateIncident_ok hu]
  refine ⟨.refl _, rfl, rfl, fun a ha => ?_, fun a ha => ?_⟩
  · by_cases hk : a.id = inc.id
    · obtain rfl := Table.eq_of_key ha hi hk
      exact ⟨_, Table.mem_put.mpr (Or.inl ⟨rfl, a, ha, rfl⟩), a.sameGroup_moveTo s⟩
    · exact ⟨a, Table.mem_put.mpr (Or.inr ⟨ha, hk⟩), .refl a⟩
  · rcases Table.mem_put.mp ha with ⟨rfl, -⟩ | ⟨ha, -⟩
    · exact ⟨inc, hi, inc.sameGroup_moveTo s⟩
    · exact ⟨a, ha, .refl a⟩

end Store.Quiet

section Transactions

open Store

variable {db db' : Store} {settings : Settings} {env : Env}

theorem claimJob_quiet {skip : Uuid → Bool} {r : Option Claim} (h : claimJob settings env skip db = .ok (r, db')) :
    db.Quiet db' := by
  rcases claimJob_ok h with ⟨-, rfl⟩ | ⟨job, inc, inc', -, -, -, hi, hb, -⟩
  · exact .refl _
  · have hm := (Table.get_eq_some.mp hi).1
    cases ht : job.type with
    | analyze =>
      rw [ht] at hb
      obtain ⟨db₁, h₁, hb⟩ := claimAnalyze_ok hb
      have he : db₁.intakeTables = db.intakeTables := by
        rcases ensureRun_ok h₁ with ⟨rfl, -⟩ | ⟨-, policy, ha⟩
        · rfl
        · obtain ⟨t, -, rfl⟩ := addAnalysisRun_ok ha
          rfl
      rcases hb with ⟨-, rfl, hu⟩ | ⟨-, -, rfl⟩
      · exact .moveTo hu hm he
      · exact .of_eq he
    | patch =>
      rw [ht] at hb
      obtain ⟨patch, -, ⟨-, rfl, hu⟩ | ⟨-, -, rfl⟩⟩ := claimPatch_ok hb
      · exact .moveTo hu hm rfl
      · exact .of_eq rfl

theorem recoverOne_quiet {t : Time} {job : Job} (h : recoverOne t db job = .ok db') : db.Quiet db' := by
  obtain ⟨inc, hi, ⟨-, rfl⟩ | ⟨-, -, run, -, hu⟩ | ⟨-, -, patch, -, hu⟩⟩ := recoverOne_ok h
  · exact .of_eq rfl
  · exact .moveTo hu (Table.get_eq_some.mp hi).1 rfl
  · exact .moveTo hu (Table.get_eq_some.mp hi).1 rfl

theorem recoverAll_quiet {k : ℕ} {jobs : List Job} (h : recoverAll env k jobs db = .ok db') : db.Quiet db' := by
  induction jobs generalizing k db with
  | nil =>
    obtain rfl := Except.ok.inj h
    exact .refl _
  | cons job jobs ih =>
    obtain ⟨db₁, h₁, h⟩ := bind_eq_ok.mp h
    exact (recoverOne_quiet h₁).trans (ih h)

theorem finish_quiet {db₁ : Store} {t : Time} {type : JobType} {inc : Incident} {outcome : Outcome}
    (h : finish t type inc outcome db₁ = .ok db') (hi : inc ∈ db.incidents.rows)
    (he : db₁.intakeTables = db.intakeTables) : db.Quiet db' := by
  rcases finish_ok h with ⟨-, run, -, hu⟩ | ⟨-, patch, -, hu⟩
  · exact .moveTo hu hi he
  · exact .moveTo hu hi he

theorem approveOnce_quiet {incidentId key : Uuid} {r : ApprovalReceipt}
    (h : approveOnce env incidentId key db = .ok (r, db')) : db.Quiet db' := by
  obtain ⟨inc, hi, ⟨-, -, -, -, -, -, rfl⟩ | ⟨-, -, run, -, -, -, -, -, h, -⟩⟩ := approveOnce_ok h
  · exact .refl _
  · obtain ⟨db₁, db₂, db₃, h₁, h₂, h₃, hu⟩ := addApproved_ok h
    obtain ⟨t₁, -, rfl⟩ := addApproval_ok h₁
    obtain ⟨t₂, -, rfl⟩ := addPatchRun_ok h₂
    obtain ⟨t₃, -, rfl⟩ := addJob_ok h₃
    exact .moveTo hu (Table.get_eq_some.mp hi).1 rfl

/-- A configured service is a new row with a new key or keeps its key. -/
theorem syncService_kept {fs : FileSystem} {id : Uuid} {key : PyStr} {policy : ServicePolicy}
    (h : syncService settings fs id key policy db = .ok db') : ServicesKept db.services db'.services := by
  rcases syncService_ok h with ⟨-, ha⟩ | ⟨row, -, -, hr, -, -, -, rfl⟩
  · obtain ⟨t, ht, rfl⟩ := addService_ok ha
    refine ⟨fun s hs => ⟨s, (Table.mem_insert ht).mpr (Or.inl hs), rfl, rfl⟩, fun hk => ?_⟩
    obtain ⟨hrows, -, hclash⟩ := Table.insert_eq_some ht
    show (t.rows.map Service.key).Nodup
    rw [hrows, List.map_append, List.nodup_append]
    refine ⟨hk, List.nodup_singleton _, fun a ha b hb hab => ?_⟩
    obtain ⟨s, hs, rfl⟩ := List.mem_map.mp ha
    rw [List.map_singleton, List.mem_singleton] at hb
    exact of_decide_eq_false (hclash s hs) (hb.symm.trans hab.symm)
  · obtain ⟨hm, -⟩ := Table.mem_of_first hr
    have same : ∀ s ∈ db.services.rows, Keyed.key s = Keyed.key (row.configured policy) → s = row :=
      fun s hs hk => Table.eq_of_key hs hm hk
    refine ⟨fun s hs => ?_, fun hk => ?_⟩
    · by_cases hid : s.id = row.id
      · obtain rfl := same s hs hid
        exact ⟨_, Table.mem_put.mpr (Or.inl ⟨rfl, s, hs, rfl⟩), rfl, rfl⟩
      · exact ⟨s, Table.mem_put.mpr (Or.inr ⟨hs, hid⟩), rfl, rfl⟩
    · have hmap : (db.services.put (row.configured policy)).rows.map Service.key = db.services.rows.map Service.key := by
        rw [Table.rows_put, Table.replace, List.map_map]
        refine List.map_congr_left fun s hs => ?_
        by_cases hid : Keyed.key s = Keyed.key (row.configured policy)
        · obtain rfl := same s hs hid
          simp only [Function.comp, if_pos hid]
          rfl
        · simp only [Function.comp, if_neg hid]
      show ((db.services.put (row.configured policy)).rows.map Service.key).Nodup
      rw [hmap]
      exact hk

theorem syncAll_kept {fs : FileSystem} {k : ℕ} {policies : List (PyStr × ServicePolicy)}
    (h : syncAll settings fs env k policies db = .ok db') : ServicesKept db.services db'.services := by
  induction policies generalizing k db with
  | nil =>
    obtain rfl := Except.ok.inj h
    exact .refl _
  | cons kp rest ih =>
    obtain ⟨db₁, h₁, h⟩ := bind_eq_ok.mp h
    exact (syncService_kept h₁).trans (ih h)

end Transactions

namespace Sys

/-- **Only a receipt touches the tables of intake**, up to the states of incidents and configuration. -/
theorem quiet_step {s s' : Sys} {tx : Tx} (h : machine.step s tx s')
    (hn : ∀ env request intake sha, tx ≠ .ingest env request intake sha) : s.db.Quiet s'.db := by
  obtain ⟨-, rfl⟩ := h
  have stays := Store.Quiet.refl s.db
  cases tx with
  | ingest env request intake sha => exact absurd rfl (hn env request intake sha)
  | approve env incidentId key => exact settle_ok stays fun _ _ h => approveOnce_quiet h
  | syncServices settings fs env policies =>
    refine settle_ok stays fun _ _ h => ?_
    obtain ⟨db₁, h, h'⟩ := bind_eq_ok.mp h
    cases h'
    have hkept := syncAll_kept h
    obtain ⟨t, rfl⟩ := syncAll_frame h
    exact ⟨hkept, rfl, rfl, stays.forth, stays.back⟩
  | claimJob settings env skip =>
    simp only [exec]
    split
    · rename_i h
      exact claimJob_quiet h
    · rename_i h
      exact claimJob_quiet h
    · exact stays
  | heartbeat env claim =>
    refine settle_ok stays fun _ _ h => ?_
    rcases heartbeat_ok h with ⟨-, rfl⟩ | ⟨job, -, -, -, -, rfl⟩
    · exact stays
    · exact .of_eq rfl
  | recoverExpired env rows =>
    refine settle_ok stays fun _ _ h => ?_
    obtain ⟨db₁, h, h'⟩ := bind_eq_ok.mp h
    cases h'
    exact recoverAll_quiet h
  | markValidating claim =>
    simp only [exec]
    split
    · rename_i h
      obtain ⟨job, inc, patch, db₁, -, -, hi, -, hu, -, -, rfl⟩ := markValidating_ok h
      exact (Store.Quiet.moveTo hu (Table.get_eq_some.mp hi).1 rfl).trans (.of_eq rfl)
    · exact stays
  | finalize env claim outcome version =>
    refine settle_ok stays fun _ _ h => ?_
    rcases finalize_ok h with ⟨-, rfl⟩ | ⟨job, inc, -, -, -, hi, -, -, ⟨-, -, rfl⟩ | h⟩
    · exact stays
    · exact .of_eq rfl
    · exact finish_quiet h (Table.get_eq_some.mp hi).1 rfl

end Sys

/-! ## Steps that receive an event -/

/-- The new version of the incident that counts the event `row`: it has counted one more, or it is new. -/
def Incident.Counts (db : Store) (row : ErrorEvent) (inc' : Incident) : Prop :=
  (∃ inc ∈ db.incidents.rows, inc.SameCase inc' ∧ inc'.occurrenceCount = inc.occurrenceCount + 1) ∨
    ((∀ inc ∈ db.incidents.rows, inc.id ≠ inc'.id) ∧ inc'.occurrenceCount = 1 ∧ inc'.firstErrorEventId = row.id)

/-- From `db` to `db'` the event `row` is stored with its occurrence `occ` at the incident `inc'`. -/
structure Store.Receives (db : Store) (row : ErrorEvent) (occ : Occurrence) (inc' : Incident) (db' : Store) : Prop where
  services : db'.services = db.services
  events : ∀ e, e ∈ db'.errorEvents.rows ↔ e ∈ db.errorEvents.rows ∨ e = row
  newKey : ∀ e ∈ db.errorEvents.rows, e.id ≠ row.id
  newEvent : ∀ e ∈ db.errorEvents.rows, ¬ (e.serviceId = row.serviceId ∧ e.eventId = row.eventId)
  occurrences : db'.occurrences.rows = db.occurrences.rows ++ [occ]
  newOccurrence : ∀ o ∈ db.occurrences.rows, o.errorEventId ≠ row.id
  event : occ.errorEventId = row.id
  incident : occ.incidentId = inc'.id
  service : row.serviceId = inc'.serviceId
  fingerprint : row.normalizedPayload.getStr "fingerprint" = .ok inc'.fingerprint
  counts : inc'.Counts db row
  incidents : ∀ inc, inc ∈ db'.incidents.rows ↔ inc = inc' ∨ (inc ∈ db.incidents.rows ∧ inc.id ≠ inc'.id)

/-- A receipt is a replay that changes nothing or stores the event. -/
theorem ingestResolved_receives {db db' : Store} {env : Env} {request : EventRequest} {intake : Intake} {sha : PyStr}
    {r : Receipt} (h : ingestResolved env request intake sha db = .ok (r, db')) :
    ∃ service, service ∈ db.services.rows ∧ service.id = intake.serviceId ∧
      ((duplicate db service.id intake.eventId request.checksum = .ok (some r) ∧ db' = db) ∨
        ∃ occ inc', db.Receives (newErrorEvent env request service.id intake.eventId) occ inc' db' ∧
          r = ⟨intake.eventId, inc'.id, inc'.state, false⟩) := by
  obtain ⟨service, hs, -, h⟩ := ingestResolved_ok h
  obtain ⟨hm, hid⟩ := Table.mem_of_first hs
  refine ⟨service, hm, of_decide_eq_true hid, ?_⟩
  rcases h with h | ⟨hd, -, fp, inc', occurredAt, db₁, db₂, hfp, -, h₁, h₂, h₃, rfl⟩
  · exact Or.inl h
  obtain ⟨t, ht, rfl⟩ := Store.addErrorEvent_ok h₁
  obtain ⟨hrows, hkey, hclash⟩ := Table.insert_eq_some ht
  have hnew : ∀ e ∈ db.errorEvents.rows, ¬ (e.serviceId = service.id ∧ e.eventId = intake.eventId) := by
    rintro e he ⟨h1, h2⟩
    have hc := hclash e he
    rw [Bool.and_eq_false_iff, decide_eq_false_iff_not, decide_eq_false_iff_not] at hc
    exact hc.elim (fun h => h h1.symm) fun h => h h2.symm
  refine Or.inr ⟨newOccurrence env inc'.id (env.uuid 0) occurredAt, inc', ?_, rfl⟩
  rcases joinIncident_ok h₂ with ⟨joined, ho, rfl, hu⟩ | ⟨-, rfl, db₃, ha, hj⟩
  · obtain ⟨hmj, hsvc, hfpj, -, -⟩ := openIncident_some ho
    obtain rfl := Store.updateIncident_ok hu
    obtain ⟨t', ht', rfl⟩ := Store.addOccurrence_ok h₃
    obtain ⟨hrows', -, hclash'⟩ := Table.insert_eq_some ht'
    exact {
      services := rfl
      events := fun e => Table.mem_insert ht
      newKey := hkey
      newEvent := hnew
      occurrences := hrows'
      newOccurrence := fun o ho he => of_decide_eq_false (hclash' o ho) he.symm
      event := rfl
      incident := rfl
      service := hsvc.symm
      fingerprint := by
        show request.normalized.getStr "fingerprint" = .ok joined.fingerprint
        rw [hfp, hfpj]
      counts := Or.inl ⟨joined, hmj, joined.sameCase_counted, rfl⟩
      incidents := fun inc => by
        show inc ∈ (db.incidents.put joined.counted).rows ↔ _
        rw [Table.mem_put]
        exact or_congr_left (and_iff_left ⟨joined, hmj, rfl⟩) }
  · obtain ⟨ti, hti, rfl⟩ := Store.addIncident_ok ha
    obtain ⟨tj, -, rfl⟩ := Store.addJob_ok hj
    obtain ⟨t', ht', rfl⟩ := Store.addOccurrence_ok h₃
    obtain ⟨hrows', -, hclash'⟩ := Table.insert_eq_some ht'
    have hkeyi := (Table.insert_eq_some hti).2.1
    exact {
      services := rfl
      events := fun e => Table.mem_insert ht
      newKey := hkey
      newEvent := hnew
      occurrences := hrows'
      newOccurrence := fun o ho he => of_decide_eq_false (hclash' o ho) he.symm
      event := rfl
      incident := rfl
      service := rfl
      fingerprint := hfp
      counts := Or.inr ⟨hkeyi, rfl, rfl⟩
      incidents := fun inc => by
        show inc ∈ ti.rows ↔ _
        rw [Table.mem_insert hti]
        constructor
        · rintro (hi | hi)
          · exact Or.inr ⟨hi, hkeyi inc hi⟩
          · exact Or.inl hi
        · rintro (hi | ⟨hi, -⟩)
          · exact Or.inr hi
          · exact Or.inl hi }

/-! ## The invariant -/

/-- Events, occurrences and incidents belong together. -/
structure Store.Grouped (db : Store) : Prop where
  /-- At most one event for each service and event id. -/
  events : ∀ a ∈ db.errorEvents.rows, ∀ b ∈ db.errorEvents.rows, a.serviceId = b.serviceId → a.eventId = b.eventId → a = b
  /-- Exactly one occurrence for each event. -/
  occurs : ∀ e ∈ db.errorEvents.rows, ∃! o, o ∈ db.occurrences.rows ∧ o.errorEventId = e.id
  /-- Every occurrence is that of a stored event at an incident of its service and fingerprint. -/
  attached : ∀ o ∈ db.occurrences.rows, ∃ e ∈ db.errorEvents.rows, ∃ inc ∈ db.incidents.rows,
    e.id = o.errorEventId ∧ inc.id = o.incidentId ∧ e.serviceId = inc.serviceId ∧
      e.normalizedPayload.getStr "fingerprint" = .ok inc.fingerprint
  counted : ∀ inc ∈ db.incidents.rows,
    inc.occurrenceCount = (db.occurrences.select fun o => o.incidentId = inc.id).length
  /-- The first event of an incident is one of its events. -/
  first : ∀ inc ∈ db.incidents.rows, ∃ o ∈ db.occurrences.rows,
    o.incidentId = inc.id ∧ o.errorEventId = inc.firstErrorEventId

namespace Store

variable {db db' : Store}

theorem Grouped.quiet (h : db.Grouped) (hq : db.Quiet db') : db'.Grouped := by
  have hocc : ∀ i, db'.occurrences.select (fun o => o.incidentId = i) = db.occurrences.select fun o => o.incidentId = i :=
    fun i => by rw [hq.occurrences]
  refine ⟨?_, ?_, ?_, ?_, ?_⟩
  · rw [hq.events]
    exact h.events
  · rw [hq.events, hq.occurrences]
    exact h.occurs
  · rw [hq.events, hq.occurrences]
    intro o ho
    obtain ⟨e, he, inc, hi, h1, h2, h3, h4⟩ := h.attached o ho
    obtain ⟨inc', hi', hg⟩ := hq.forth inc hi
    exact ⟨e, he, inc', hi', h1, hg.same.id.trans h2, h3.trans hg.same.service.symm, by rw [hg.same.fingerprint, h4]⟩
  · intro inc' hi'
    obtain ⟨inc, hi, hg⟩ := hq.back inc' hi'
    rw [hocc, hg.count, hg.same.id]
    exact h.counted inc hi
  · intro inc' hi'
    obtain ⟨inc, hi, hg⟩ := hq.back inc' hi'
    obtain ⟨o, ho, h1, h2⟩ := h.first inc hi
    rw [hq.occurrences]
    exact ⟨o, ho, h1.trans hg.same.id.symm, h2.trans hg.same.input.symm⟩

namespace Receives

variable {row : ErrorEvent} {occ : Occurrence} {inc' : Incident}

theorem select_occurrences (hr : db.Receives row occ inc' db') (i : Uuid) :
    db'.occurrences.select (fun o => o.incidentId = i) =
      db.occurrences.select (fun o => o.incidentId = i) ++ if inc'.id = i then [occ] else [] := by
  unfold Table.select
  rw [hr.occurrences, List.filter_append, ← hr.incident]
  by_cases hi : occ.incidentId = i <;> simp [hi]

theorem mem_occurrences (hr : db.Receives row occ inc' db') {o : Occurrence} :
    o ∈ db'.occurrences.rows ↔ o ∈ db.occurrences.rows ∨ o = occ := by
  rw [hr.occurrences, List.mem_append, List.mem_singleton]

theorem mem_incident (hr : db.Receives row occ inc' db') : inc' ∈ db'.incidents.rows :=
  (hr.incidents inc').mpr (Or.inl rfl)

/-- An incident of the store is still there, with the same case. -/
theorem forth (hr : db.Receives row occ inc' db') {inc : Incident} (hi : inc ∈ db.incidents.rows) :
    ∃ inc₂ ∈ db'.incidents.rows, inc.SameCase inc₂ := by
  by_cases hid : inc.id = inc'.id
  · rcases hr.counts with ⟨inc₀, hi₀, same, -⟩ | ⟨hno, -⟩
    · obtain rfl := Table.eq_of_key hi hi₀ (hid.trans same.id)
      exact ⟨inc', hr.mem_incident, same⟩
    · exact absurd hid (hno inc hi)
  · exact ⟨inc, (hr.incidents inc).mpr (Or.inr ⟨hi, hid⟩), .refl inc⟩

end Receives

theorem Grouped.receives {row : ErrorEvent} {occ : Occurrence} {inc' : Incident} (h : db.Grouped)
    (hr : db.Receives row occ inc' db') : db'.Grouped := by
  refine ⟨fun a ha b hb hs he => ?_, fun e he => ?_, fun o ho => ?_, fun inc hi => ?_, fun inc hi => ?_⟩
  · rcases (hr.events a).mp ha with ha | rfl <;> rcases (hr.events b).mp hb with hb | rfl
    · exact h.events a ha b hb hs he
    · exact absurd ⟨hs, he⟩ (hr.newEvent a ha)
    · exact absurd ⟨hs.symm, he.symm⟩ (hr.newEvent b hb)
    · rfl
  · rcases (hr.events e).mp he with he | rfl
    · obtain ⟨o, ⟨ho, hoe⟩, hu⟩ := h.occurs e he
      refine ⟨o, ⟨hr.mem_occurrences.mpr (Or.inl ho), hoe⟩, ?_⟩
      rintro o' ⟨ho', hoe'⟩
      rcases hr.mem_occurrences.mp ho' with ho' | rfl
      · exact hu o' ⟨ho', hoe'⟩
      · exact absurd (hoe'.symm.trans hr.event) (hr.newKey e he)
    · refine ⟨occ, ⟨hr.mem_occurrences.mpr (Or.inr rfl), hr.event⟩, ?_⟩
      rintro o' ⟨ho', hoe'⟩
      rcases hr.mem_occurrences.mp ho' with ho' | rfl
      · exact absurd hoe' (hr.newOccurrence o' ho')
      · rfl
  · rcases hr.mem_occurrences.mp ho with ho | rfl
    · obtain ⟨e, he, inc, hi, h1, h2, h3, h4⟩ := h.attached o ho
      obtain ⟨inc₂, hi₂, same⟩ := hr.forth hi
      exact ⟨e, (hr.events e).mpr (Or.inl he), inc₂, hi₂, h1, same.id.trans h2, h3.trans same.service.symm,
        by rw [same.fingerprint, h4]⟩
    · exact ⟨row, (hr.events row).mpr (Or.inr rfl), inc', hr.mem_incident, hr.event.symm, hr.incident.symm, hr.service,
        hr.fingerprint⟩
  · rw [hr.select_occurrences]
    rcases (hr.incidents inc).mp hi with rfl | ⟨hi, hne⟩
    · rw [if_pos rfl, List.length_append]
      rcases hr.counts with ⟨inc₀, hi₀, same, hc⟩ | ⟨hno, hc, -⟩
      · rw [hc, h.counted inc₀ hi₀, same.id]
        rfl
      · have hnil : db.occurrences.select (fun o => o.incidentId = inc.id) = [] := by
          refine List.filter_eq_nil_iff.mpr fun o ho hp => ?_
          obtain ⟨-, -, inc₀, hi₀, -, h2, -⟩ := h.attached o ho
          exact hno inc₀ hi₀ (h2.trans (of_decide_eq_true hp))
        rw [hnil, hc]
        rfl
    · rw [if_neg (fun he => hne he.symm), List.append_nil]
      exact h.counted inc hi
  · rcases (hr.incidents inc).mp hi with rfl | ⟨hi, -⟩
    · rcases hr.counts with ⟨inc₀, hi₀, same, -⟩ | ⟨-, -, hf⟩
      · obtain ⟨o, ho, h1, h2⟩ := h.first inc₀ hi₀
        exact ⟨o, hr.mem_occurrences.mpr (Or.inl ho), h1.trans same.id.symm, h2.trans same.input.symm⟩
      · exact ⟨occ, hr.mem_occurrences.mpr (Or.inr rfl), hr.incident, hr.event.trans hf.symm⟩
    · obtain ⟨o, ho, h1, h2⟩ := h.first inc hi
      exact ⟨o, hr.mem_occurrences.mpr (Or.inl ho), h1, h2⟩

end Store

namespace Sys

/-- A receipt in the system. -/
theorem ingest_step {s s' : Sys} {env : Env} {request : EventRequest} {intake : Intake} {sha : PyStr}
    (h : machine.step s (.ingest env request intake sha) s') :
    s'.db = s.db ∨ ∃ service ∈ s.db.services.rows, ∃ occ inc', service.id = intake.serviceId ∧
      s.db.Receives (newErrorEvent env request service.id intake.eventId) occ inc' s'.db := by
  obtain ⟨-, rfl⟩ := h
  refine settle_ok (P := fun db => db = s.db ∨ ∃ service ∈ s.db.services.rows, ∃ occ inc',
    service.id = intake.serviceId ∧ s.db.Receives (newErrorEvent env request service.id intake.eventId) occ inc' db)
    (Or.inl rfl) fun r db' hr => ?_
  obtain ⟨service, hm, hid, ⟨-, he⟩ | ⟨occ, inc', hrec, -⟩⟩ := ingestResolved_receives hr
  · exact Or.inl he
  · exact Or.inr ⟨service, hm, occ, inc', hid, hrec⟩

/-- What the tables of intake guarantee. -/
structure Kept (s : Sys) : Prop where
  grouped : s.db.Grouped
  keys : (s.db.services.rows.map Service.key).Nodup

theorem Kept.step {s s' : Sys} {tx : Tx} (hk : s.Kept) (h : machine.step s tx s') : s'.Kept := by
  by_cases hi : ∃ env request intake sha, tx = .ingest env request intake sha
  · obtain ⟨env, request, intake, sha, rfl⟩ := hi
    rcases ingest_step h with he | ⟨service, -, occ, inc', -, hr⟩
    · exact ⟨he ▸ hk.grouped, he ▸ hk.keys⟩
    · exact ⟨hk.grouped.receives hr, hr.services ▸ hk.keys⟩
  · have hq := quiet_step h fun env request intake sha he => hi ⟨env, request, intake, sha, he⟩
    exact ⟨hk.grouped.quiet hq, hq.services.keys hk.keys⟩

/-- **Events, occurrences and incidents belong together in every reachable state.** -/
theorem kept_of_reachable {s : Sys} (h : machine.Reachable s) : s.Kept := by
  refine h.invariant (I := Kept) ?_ fun _ _ _ hk hs => hk.step hs
  rintro _ ⟨services, hk, rfl⟩
  exact ⟨⟨nofun, nofun, nofun, nofun, nofun⟩, hk⟩

end Sys

end Aeh
