import Aeh.Gitops
import Aeh.Lifecycle
import Aeh.Py.Rfc3339
import Aeh.Receipts
import Aeh.Redaction

/-!
# Acceptance — what becomes of an event that `parse_event` accepted

The schema takes the event for valid, then `ingest` reads and stores the same fields by other means.  Here a call of
`ingest` runs without a pause in a reachable state and draws ids nobody has: it stores the event unless the time of
the event cannot be read or converted, or the backend refuses a character of the document.
-/

namespace Aeh

/-! ## The call -/

/-- The tries of `ingest`, one for each environment. -/
def ingestTries (request : EventRequest) (intake : Intake) (sha : PyStr) : List Env → Store → Except Exn Receipt × Store
  | [], db => (.error (aehError 503 "AEH-JOB-503-001" "Concurrent event receipt did not settle; retry"), db)
  | env :: envs, db =>
    match commit (ingestResolved env request intake sha db) db with
    | (.error .integrityError, db) => ingestTries request intake sha envs db
    | answer => answer

section Ingest

variable (settings : Settings) (fs : FileSystem) (git : AbsPath → Option PyStr → PyStr → Except Exn PyStr)

/-- `ingest`, its three tries in the environments `env`, `env₂` and `env₃`. -/
def ingest (env env₂ env₃ : Env) (request : EventRequest) (db : Store) : Except Exn Receipt × Store :=
  match ingestLookup request db with
  | .error e => (.error e, db)
  | .ok (.inl receipt) => (.ok receipt, db)
  | .ok (.inr intake) =>
    match ingestResolve settings fs git request intake with
    | .error e => (.error e, db)
    | .ok sha => ingestTries request intake sha [env, env₂, env₃] db

end Ingest

namespace Calls

open IngestCall

/-- The tries of a call as steps of the machine. -/
theorem tries_reachable {request : EventRequest} {intake : Intake} {sha : PyStr} {k : ℕ} {env : Env} {envs : List Env}
    {w : Calls IngestCall} (h : ingestMachine.Reachable w)
    (hk : w.call k = .trying request intake sha (envs.length + 1)) :
    ∃ w', ingestMachine.Reachable w' ∧ w'.sys.db = (ingestTries request intake sha (env :: envs) w.sys.db).2 ∧
      w'.call k = .answered request (ingestTries request intake sha (env :: envs) w.sys.db).1 := by
  induction envs generalizing w env with
  | nil =>
    refine ⟨_, h.step (l := .write k env) ⟨request, intake, sha, 0, hk, rfl⟩, ?_, ?_⟩
    all_goals
      simp only [goOn, Function.update_self, Sys.exec, settle, ingestTries]
      cases ingestResolved env request intake sha w.sys.db with
      | ok p => rfl
      | error e => cases e <;> rfl
  | cons env' envs ih =>
    have hstep := h.step (show ingestMachine.step w (.write k env) _ from
      ⟨request, intake, sha, envs.length + 1, hk, rfl⟩)
    rw [ingestTries]
    cases hr : ingestResolved env request intake sha w.sys.db with
    | ok p =>
      refine ⟨_, hstep, ?_, ?_⟩
      all_goals simp only [goOn, Function.update_self, Sys.exec, settle, hr, commit, afterTry]
    | error e =>
      by_cases he : e = .integrityError
      · subst he
        obtain ⟨w', hw', hdb, hcall⟩ := @ih env' _ hstep (by
          simp only [goOn, Function.update_self, hr, commit, afterTry]
          rfl)
        simp only [goOn, Sys.exec, settle, hr, commit] at hdb hcall
        exact ⟨w', hw', hdb, hcall⟩
      · refine ⟨_, hstep, ?_, ?_⟩
        all_goals
          simp only [goOn, Function.update_self, Sys.exec, settle, hr, commit, afterTry]
          cases e <;> first | rfl | exact absurd rfl he

/-- **`ingest` is a run of the machine** in which the call is never paused. -/
theorem ingest_reachable {settings : Settings} {fs : FileSystem}
    {git : AbsPath → Option PyStr → PyStr → Except Exn PyStr} {env env₂ env₃ : Env} {request : EventRequest} {k : ℕ}
    {w : Calls IngestCall} (h : ingestMachine.Reachable w) (hk : w.call k = .waiting) :
    ∃ w', ingestMachine.Reachable w' ∧ w'.sys.db = (ingest settings fs git env env₂ env₃ request w.sys.db).2 ∧
      w'.call k = .answered request (ingest settings fs git env env₂ env₃ request w.sys.db).1 := by
  have hlook := h.step (show ingestMachine.step w (.lookup k request) _ from ⟨hk, rfl⟩)
  unfold ingest
  cases hl : ingestLookup request w.sys.db with
  | error e =>
    rw [hl] at hlook
    exact ⟨_, hlook, rfl, Function.update_self ..⟩
  | ok a =>
    rw [hl] at hlook
    cases a with
    | inl receipt => exact ⟨_, hlook, rfl, Function.update_self ..⟩
    | inr intake =>
      have hres := hlook.step (show ingestMachine.step _ (.resolve k settings fs git) _ from
        ⟨request, intake, Function.update_self .., rfl⟩)
      dsimp only
      cases hg : ingestResolve settings fs git request intake with
      | error e =>
        rw [hg] at hres
        exact ⟨_, hres, rfl, Function.update_self ..⟩
      | ok sha =>
        rw [hg] at hres
        obtain ⟨w', hw', hdb, hcall⟩ := @tries_reachable _ _ _ _ env [env₂, env₃] _ hres
          (Function.update_self ..)
        exact ⟨w', hw', hdb, hcall⟩

end Calls

/-! ## What the schema and the contract say -/

/-- The errors of the API, as the contract lists them. -/
def apiErrors : List (ℕ × String) :=
  [(400, "AEH-EVENT-400-001"), (413, "AEH-EVENT-413-001"), (404, "AEH-EVENT-404-001"), (409, "AEH-EVENT-409-001"),
    (422, "AEH-EVENT-422-001"), (409, "AEH-APPROVAL-409-001"), (409, "AEH-APPROVAL-409-002"),
    (422, "AEH-GIT-422-001"), (503, "AEH-GIT-503-001"), (503, "AEH-JOB-503-001"), (500, "AEH-INTERNAL-500-001")]

/-- The exception is an `AehError` of the contract. -/
def Exn.Documented (e : Exn) : Prop := ∃ status code detail, e = .aeh status code detail ∧ (status, code) ∈ apiErrors

theorem documented_aehError {status : ℕ} {code : String} (detail : String) (h : (status, code) ∈ apiErrors) :
    (aehError status code detail).Documented := ⟨status, code, _, rfl, h⟩

/-- What the schema asks of the fields `ingest` reads; the format check accepts RFC 3339 texts only. -/
structure Libraries.Checks (libs : Libraries) : Prop where
  serviceKey : ∀ fields, libs.iterErrors (.obj fields) = [] → ∃ key, (Json.obj fields).get? "serviceKey" = some (.str key)
  occurredAt : ∀ fields, libs.iterErrors (.obj fields) = [] →
    ∃ r : Rfc3339, (Json.obj fields).get? "occurredAt" = some (.str r.text)
  release : ∀ fields, libs.iterErrors (.obj fields) = [] → (Json.obj fields).get? "release" = none ∨
    ∃ members, (Json.obj fields).get? "release" = some (.obj members) ∧
      ((Json.obj members).get? "commitSha" = none ∨ ∃ sha, (Json.obj members).get? "commitSha" = some (.str sha))

/-- What `ingest` can rely on in a request. -/
structure EventRequest.Checked (request : EventRequest) (r : Rfc3339) : Prop where
  eventId : ∃ eventId, eventIdOf request.event = .ok eventId
  serviceKey : ∃ key, request.event.getStr "serviceKey" = .ok key
  occurredAt : request.event.getStr "occurredAt" = .ok r.text
  commitSha : ∃ sha, commitShaOf request.event = .ok sha
  fingerprint : ∃ fingerprint, request.normalized.getStr "fingerprint" = .ok fingerprint

theorem getStr_of_get? {j : Json} {key : String} {s : PyStr} (h : j.get? key = some (.str s)) : j.getStr key = .ok s := by
  unfold Json.getStr
  rw [h]

theorem commitShaOf_of_release {event : Json} (h : event.get? "release" = none ∨
    ∃ members, event.get? "release" = some (.obj members) ∧
      ((Json.obj members).get? "commitSha" = none ∨ ∃ sha, (Json.obj members).get? "commitSha" = some (.str sha))) :
    ∃ sha, commitShaOf event = .ok sha := by
  unfold commitShaOf
  rcases h with h | ⟨members, h, hs | ⟨sha, hs⟩⟩
  · exact ⟨none, by rw [h]⟩
  · exact ⟨none, by rw [h]; simp only [hs]⟩
  · exact ⟨some sha, by rw [h]; simp only [hs]⟩

/-- **What `parse_event` accepts.** -/
theorem parseEvent_checked {libs : Libraries} {raw : Bytes} {idempotencyKey : Option PyStr} {request : EventRequest}
    (hl : libs.Checks) (h : parseEvent libs raw idempotencyKey = .ok request) : ∃ r, request.Checked r := by
  unfold parseEvent at h
  split_ifs at h
  obtain ⟨event, -, h⟩ := bind_eq_ok.mp h
  split at h
  · rename_i fields
    obtain ⟨_, hschema, h⟩ := bind_eq_ok.mp h
    obtain ⟨_, hkey, h⟩ := bind_eq_ok.mp h
    obtain ⟨fingerprint, -, h⟩ := bind_eq_ok.mp h
    obtain ⟨_, -, h⟩ := bind_eq_ok.mp h
    obtain ⟨checksum, -, h⟩ := bind_eq_ok.mp h
    cases h
    have hnone : libs.iterErrors (.obj fields) = [] := by
      unfold checkSchema firstError at hschema
      split at hschema
      · cases hschema
      · rename_i hf
        have hperm := List.perm_insertionSort (fun a b : SchemaError => a.path ≤ b.path) (libs.iterErrors (.obj fields))
        rw [List.head?_eq_none_iff.mp hf] at hperm
        exact hperm.symm.eq_nil
    obtain ⟨key, hservice⟩ := hl.serviceKey fields hnone
    obtain ⟨r, hr⟩ := hl.occurredAt fields hnone
    refine ⟨r, ⟨?_, ⟨key, getStr_of_get? hservice⟩, getStr_of_get? hr, commitShaOf_of_release (hl.release fields hnone),
      fingerprint, normalizedOf_getStr⟩⟩
    unfold checkIdempotencyKey at hkey
    split at hkey
    · cases hkey
    · obtain ⟨eventId, heid, -⟩ := bind_eq_ok.mp hkey
      exact ⟨eventId, heid⟩
  · cases h

theorem occurredAtOf_text {event : Json} {text : PyStr} (h : event.getStr "occurredAt" = .ok text) :
    occurredAtOf event = match Datetime.fromisoformat text with
      | none => .error (.valueError (lit "Invalid isoformat string"))
      | some d =>
        match d.toUtc with
        | none => .error .statementError
        | some utc => .ok utc := by
  unfold occurredAtOf
  rw [h]
  rfl

/-- The time of an accepted event: it goes into the column iff it is readable. -/
theorem occurredAtOf_checked {event : Json} {r : Rfc3339} (h : event.getStr "occurredAt" = .ok r.text) :
    (r.Readable ∧ ∃ u, occurredAtOf event = .ok u ∧ u.instant = r.toDatetime.instant) ∨
      (¬ r.Readable ∧ ∃ e, occurredAtOf event = .error e ∧ ¬ e.Documented) := by
  rw [occurredAtOf_text h]
  rcases r.toUtc_text with ⟨d, u, hd, hu, hi, hr⟩ | ⟨hd | ⟨d, hd, hu⟩, hr⟩
  · simp only [hd, hu]
    exact Or.inl ⟨hr, u, rfl, hi⟩
  · simp only [hd]
    refine Or.inr ⟨hr, _, rfl, ?_⟩
    rintro ⟨_, _, _, he, -⟩
    cases he
  · simp only [hd, hu]
    refine Or.inr ⟨hr, _, rfl, ?_⟩
    rintro ⟨_, _, _, he, -⟩
    cases he

/-! ## The rows of a new event -/

/-- The ids a receipt draws are not taken. -/
structure Store.NewIds (db : Store) (env : Env) : Prop where
  event : ∀ e ∈ db.errorEvents.rows, e.id ≠ env.uuid 0
  incident : ∀ inc ∈ db.incidents.rows, inc.id ≠ env.uuid 1
  job : ∀ job ∈ db.jobs.rows, job.id ≠ env.uuid 2
  occurrence : ∀ o ∈ db.occurrences.rows, o.id ≠ env.uuid 3

/-- The event joins an open incident, or the job of a new one is within the limit. -/
def EventRequest.Fits (request : EventRequest) (env : Env) (db : Store) (service : Service) (sha : PyStr) : Prop :=
  ∀ fingerprint, request.normalized.getStr "fingerprint" = .ok fingerprint →
    IncidentRepository.openIncident db service.id fingerprint sha = none →
    IncidentRepository.activeJobCount db < env.jobLimit

/-- From `db` to `db'` the event of a receipt is stored, with an occurrence of its incident at the instant `t`. -/
def Store.Stores (db db' : Store) (serviceId : Uuid) (receipt : Receipt) (t : ℚ) : Prop :=
  ∃ e o, db'.errorEvents.rows = db.errorEvents.rows ++ [e] ∧ e.serviceId = serviceId ∧ e.eventId = receipt.eventId ∧
    db'.occurrences.rows = db.occurrences.rows ++ [o] ∧ o.errorEventId = e.id ∧ o.incidentId = receipt.incidentId ∧
    (o.occurredAt.instant : ℚ) = t

/-- The instant that is stored. -/
theorem Store.Stores.unique {db db' : Store} {serviceId : Uuid} {receipt : Receipt} {t t' : ℚ}
    (h : db.Stores db' serviceId receipt t) (h' : db.Stores db' serviceId receipt t') : t = t' := by
  obtain ⟨_, o, -, -, -, ho, -, -, rfl⟩ := h
  obtain ⟨_, o', -, -, -, ho', -, -, rfl⟩ := h'
  have := List.append_cancel_left (ho.symm.trans ho')
  simp only [List.cons.injEq, and_true] at this
  rw [this]

/-- The key `ANALYZE:…` names the incident of the job. -/
theorem Dossier.Ok.analyzeKey {d : Dossier} (h : d.Ok) {j : Job} (hj : j ∈ d.jobs) {i : Uuid}
    (hk : j.deduplicationKey = .analyze i) : ∃ inc, d.incident = some inc ∧ inc.id = i := by
  cases h with
  | absent => cases hj
  | received _ _ ha | analyzing _ _ ha | analyzed _ _ _ ha =>
    obtain rfl := List.mem_singleton.mp hj
    rw [ha.key, DedupKey.analyze.injEq] at hk
    exact ⟨_, rfl, hk⟩
  | patching _ ha _ _ _ _ _ hp | patched _ _ _ _ ha _ _ _ _ _ hp =>
    rcases List.mem_cons.mp hj with rfl | hj
    · rw [ha.key, DedupKey.analyze.injEq] at hk
      exact ⟨_, rfl, hk⟩
    · obtain rfl := List.mem_singleton.mp hj
      rw [hp.key] at hk
      cases hk

section Stored

variable {db : Store} {env : Env} {request : EventRequest} {intake : Intake} {sha : PyStr} {r : Rfc3339}
  {service : Service}

/-- An open incident counts the event, or a new one and its job are inserted. -/
theorem joinIncident_total (hu : db.OpenUnique) (hok : ∀ i, (db.dossier i).Ok) (hn : db.NewIds env)
    (fingerprint : PyStr) (row : ErrorEvent) (events : Table ErrorEvent) :
    ∃ inc db₂, joinIncident env intake fingerprint sha row { db with errorEvents := events }
        (IncidentRepository.openIncident db row.serviceId fingerprint sha) = .ok (inc, db₂) ∧
      db₂.errorEvents = events ∧ db₂.occurrences = db.occurrences := by
  cases ho : IncidentRepository.openIncident db row.serviceId fingerprint sha with
  | some joined =>
    have hu' : Store.OpenUnique { db with errorEvents := events } := hu.of_eq rfl
    have htotal := Store.updateIncident_total hu' (openIncident_some ho).1 joined.sameCase_counted id
    refine ⟨joined.counted, { db with errorEvents := events, incidents := db.incidents.put joined.counted }, ?_, rfl, rfl⟩
    show (Store.updateIncident _ _ >>= _) = _
    rw [htotal]
    rfl
  | none =>
    have hclash : ∀ inc ∈ db.incidents.rows,
        Incident.clash (newIncident env intake fingerprint sha row) inc = false := by
      intro inc hi
      have hno := Table.first_eq_none.mp ho inc hi
      by_contra hc
      rw [Bool.not_eq_false] at hc
      simp only [Incident.clash, newIncident, Bool.and_eq_true] at hc
      obtain ⟨⟨⟨⟨-, hopen⟩, hs⟩, hf⟩, hsha⟩ := hc
      rw [of_decide_eq_true hs, of_decide_eq_true hf, of_decide_eq_true hsha, hopen] at hno
      exact hno (by simp)
    obtain ⟨ti, hti⟩ := Table.insert_isSome hn.incident hclash
    -- the key of the job is new, as its incident is
    have hkey : ∀ j ∈ db.jobs.rows,
        decide ((newAnalyzeJob env (env.uuid 1)).deduplicationKey = j.deduplicationKey) = false := by
      intro j hj
      refine decide_eq_false fun hk => ?_
      obtain ⟨inc, hi, hid⟩ := (hok j.incidentId).analyzeKey (Store.mem_dossier_jobs.mpr ⟨hj, rfl⟩) hk.symm
      exact hn.incident inc (Table.get_eq_some.mp hi).1 hid
    obtain ⟨tj, htj⟩ := @Table.insert_isSome _ _ _ _ _ (newAnalyzeJob env (env.uuid 1))
      (fun a b => decide (a.deduplicationKey = b.deduplicationKey)) hn.job hkey
    refine ⟨newIncident env intake fingerprint sha row,
      { db with errorEvents := events, incidents := ti, jobs := tj }, ?_, rfl, rfl⟩
    have h₁ : Store.addIncident { db with errorEvents := events } (newIncident env intake fingerprint sha row) =
        .ok { db with errorEvents := events, incidents := ti } := by
      simp only [Store.addIncident, hti]
      rfl
    have h₂ : Store.addJob { db with errorEvents := events, incidents := ti } (newAnalyzeJob env (env.uuid 1)) =
        .ok { db with errorEvents := events, incidents := ti, jobs := tj } := by
      simp only [Store.addJob, htj]
      rfl
    show (Store.addIncident _ _ >>= _) = _
    rw [h₁]
    show (Store.addJob _ _ >>= _) = _
    erw [h₂]
    rfl

/-- The row of a new event. -/
theorem addErrorEvent_total (hn : db.NewIds env) {eventId : Uuid}
    (hnew : IncidentRepository.eventByIdentity db service.id eventId = none) :
    ∃ t, db.addErrorEvent (newErrorEvent env request service.id eventId) = .ok { db with errorEvents := t } ∧
      t.rows = db.errorEvents.rows ++ [newErrorEvent env request service.id eventId] := by
  have hclash : ∀ e ∈ db.errorEvents.rows, (decide ((newErrorEvent env request service.id eventId).serviceId = e.serviceId)
      && decide ((newErrorEvent env request service.id eventId).eventId = e.eventId)) = false := by
    intro e he
    have hno := Table.first_eq_none.mp hnew e he
    rw [Bool.and_eq_false_iff, decide_eq_false_iff_not, decide_eq_false_iff_not]
    by_contra hc
    obtain ⟨h1, h2⟩ := not_or.mp hc
    rw [not_not] at h1 h2
    exact hno (by rw [← h1, ← h2]; simp [newErrorEvent])
  obtain ⟨t, ht⟩ := @Table.insert_isSome _ _ _ _ _ (newErrorEvent env request service.id eventId)
    (fun a b => decide (a.serviceId = b.serviceId) && decide (a.eventId = b.eventId)) hn.event hclash
  refine ⟨t, ?_, (Table.insert_eq_some ht).1⟩
  simp only [Store.addErrorEvent, ht]
  rfl

/-- The occurrence of a new event. -/
theorem addOccurrence_total (hg : db.Grouped) (hn : db.NewIds env) {db₂ : Store} (ho : db₂.occurrences = db.occurrences)
    (incidentId : Uuid) (occurredAt : Datetime) :
    ∃ t, db₂.addOccurrence (newOccurrence env incidentId (env.uuid 0) occurredAt) = .ok { db₂ with occurrences := t } ∧
      t.rows = db.occurrences.rows ++ [newOccurrence env incidentId (env.uuid 0) occurredAt] := by
  have hclash : ∀ o ∈ db.occurrences.rows,
      decide ((newOccurrence env incidentId (env.uuid 0) occurredAt).errorEventId = o.errorEventId) = false := by
    intro o hm
    refine decide_eq_false fun hk => ?_
    obtain ⟨e, he, -, -, hid, -⟩ := hg.attached o hm
    exact hn.event e he (hid.trans hk.symm)
  obtain ⟨t, ht⟩ := @Table.insert_isSome _ _ _ _ _ (newOccurrence env incidentId (env.uuid 0) occurredAt)
    (fun a b => decide (a.errorEventId = b.errorEventId)) hn.occurrence hclash
  refine ⟨t, ?_, (Table.insert_eq_some ht).1⟩
  simp only [Store.addOccurrence, ho, ht]
  rfl

/-- The write transaction from the query for the incident on. -/
theorem ingestResolved_eq {fingerprint : PyStr} (hs : IncidentRepository.serviceById db intake.serviceId = some service)
    (ha : service.active = true) (hp : service.repositoryPath = intake.repoPath)
    (hnew : IncidentRepository.eventByIdentity db service.id intake.eventId = none)
    (hfp : request.normalized.getStr "fingerprint" = .ok fingerprint) :
    ingestResolved env request intake sha db = (do
      let _ ← (if env.backend.holdsText fingerprint then .ok () else .error Exn.statementError)
      let _ ← (if (IncidentRepository.openIncident db service.id fingerprint sha).isNone then
        requireJobCapacity env.jobLimit db else .ok ())
      let _ ← (if env.backend.holds request.normalized then .ok () else .error Exn.statementError)
      let db₁ ← db.addErrorEvent (newErrorEvent env request service.id intake.eventId)
      let (incident, db₂) ← joinIncident env intake fingerprint sha
        (newErrorEvent env request service.id intake.eventId) db₁
        (IncidentRepository.openIncident db service.id fingerprint sha)
      let occurredAt ← occurredAtOf request.event
      let db₃ ← db₂.addOccurrence (newOccurrence env incident.id (env.uuid 0) occurredAt)
      .ok (⟨intake.eventId, incident.id, incident.state, false⟩, db₃)) := by
  have hdup : duplicate db service.id intake.eventId request.checksum = .ok none := by
    unfold duplicate
    rw [hnew]
  unfold ingestResolved
  rw [hs]
  dsimp only
  rw [if_neg (by rw [ha]; decide), hdup]
  show (if _ then _ else _) = _
  rw [if_neg (not_not.mpr hp), hfp]
  rfl

theorem Backend.holds_of_mem {backend : Backend} {fields : List (PyStr × Json)} (h : backend.holds (.obj fields) = true)
    {key : PyStr} {v : Json} (hv : (key, v) ∈ fields) : backend.holds v = true := by
  rw [Backend.holds] at h
  induction fields with
  | nil => cases hv
  | cons kv fields ih =>
    rw [Backend.holdsFields, Bool.and_eq_true, Bool.and_eq_true] at h
    rcases List.mem_cons.mp hv with rfl | hv
    · exact h.1.2
    · exact ih h.2 hv

/-- The backend can be asked for the fingerprint. -/
def EventRequest.Queried (request : EventRequest) (backend : Backend) : Prop :=
  ∀ fingerprint, request.normalized.getStr "fingerprint" = .ok fingerprint → backend.holdsText fingerprint = true

theorem EventRequest.queried_of_holds {backend : Backend} (h : backend.holds request.normalized = true) :
    request.Queried backend := by
  intro fingerprint hfp
  unfold Json.getStr at hfp
  split at hfp
  · rename_i s hs
    cases hfp
    generalize request.normalized = j at h hs
    cases j with
    | obj fields =>
      have hv := Backend.holds_of_mem h (Json.mem_of_lookup hs)
      rwa [Backend.holds] at hv
    | _ => cases hs
  · cases hfp
  · cases hfp

/-- **The write transaction of a new event** stores it, or raises what is no `AehError`. -/
theorem ingestResolved_new (hg : db.Grouped) (hu : db.OpenUnique) (hok : ∀ i, (db.dossier i).Ok) (hn : db.NewIds env)
    (hc : request.Checked r) (hs : IncidentRepository.serviceById db intake.serviceId = some service)
    (ha : service.active = true) (hp : service.repositoryPath = intake.repoPath)
    (hnew : IncidentRepository.eventByIdentity db service.id intake.eventId = none)
    (hasked : request.Queried env.backend) (hfit : request.Fits env db service sha) :
    ((r.Readable ∧ env.backend.holds request.normalized = true) ∧ ∃ receipt db',
      ingestResolved env request intake sha db = .ok (receipt, db') ∧ receipt.duplicate = false ∧
        db.Stores db' service.id receipt r.toDatetime.instant) ∨
    (¬ (r.Readable ∧ env.backend.holds request.normalized = true) ∧ ∃ e,
      ingestResolved env request intake sha db = .error e ∧ e ≠ .integrityError ∧ ¬ e.Documented) := by
  obtain ⟨fingerprint, hfp⟩ := hc.fingerprint
  have hquery := hasked fingerprint hfp
  have hcap : (if (IncidentRepository.openIncident db service.id fingerprint sha).isNone then
      requireJobCapacity env.jobLimit db else .ok ()) = .ok () := by
    split_ifs with ho
    · have := hfit fingerprint hfp (Option.isNone_iff_eq_none.mp ho)
      unfold requireJobCapacity
      rw [if_neg (by omega)]
    · rfl
  rw [ingestResolved_eq hs ha hp hnew hfp, if_pos hquery, hcap]
  cases hh : env.backend.holds request.normalized with
  | false =>
    right
    refine ⟨fun h => absurd h.2 (by decide), .statementError, rfl, by decide, ?_⟩
    rintro ⟨_, _, _, he, -⟩
    cases he
  | true =>
    obtain ⟨events, he, hrows⟩ := @addErrorEvent_total _ _ request _ hn _ hnew
    obtain ⟨inc, db₂, hj, hev, hoc⟩ := @joinIncident_total _ _ intake sha hu hok hn fingerprint
      (newErrorEvent env request service.id intake.eventId) events
    simp only [if_true, he]
    rcases occurredAtOf_checked hc.occurredAt with ⟨hr, u, hocc, hi⟩ | ⟨hr, e, hocc, hd⟩
    · obtain ⟨occs, ha, hrows'⟩ := addOccurrence_total hg hn hoc inc.id u
      refine Or.inl ⟨⟨hr, trivial⟩, ⟨intake.eventId, inc.id, inc.state, false⟩, { db₂ with occurrences := occs }, ?_, rfl,
        newErrorEvent env request service.id intake.eventId, newOccurrence env inc.id (env.uuid 0) u, ?_, rfl, rfl, hrows',
        rfl, rfl, ?_⟩
      · show (joinIncident _ _ _ _ _ _ _ >>= _) = _
        erw [hj]
        show (occurredAtOf _ >>= _) = _
        rw [hocc]
        show (Store.addOccurrence _ _ >>= _) = _
        erw [ha]
        rfl
      · rw [← hrows, ← hev]
      · exact congrArg _ hi
    · refine Or.inr ⟨fun h => hr h.1, e, ?_, ?_, hd⟩
      · show (joinIncident _ _ _ _ _ _ _ >>= _) = _
        erw [hj]
        show (occurredAtOf _ >>= _) = _
        rw [hocc]
        rfl
      · rintro rfl
        rw [occurredAtOf_text hc.occurredAt] at hocc
        split at hocc
        · cases hocc
        · split at hocc <;> cases hocc

end Stored

/-! ## The whole call -/

/-- The service of the event is active and has no event with its id. -/
def EventRequest.NewTo (request : EventRequest) (db : Store) (service : Service) : Prop :=
  ∃ key eventId, request.event.getStr "serviceKey" = .ok key ∧ eventIdOf request.event = .ok eventId ∧
    IncidentRepository.serviceByKey db key true = some service ∧
    IncidentRepository.eventByIdentity db service.id eventId = none

section Whole

variable (settings : Settings) (fs : FileSystem) (git : AbsPath → Option PyStr → PyStr → Except Exn PyStr)

/-- Git resolves the commit of the event in the repository of the service. -/
def EventRequest.Resolves (request : EventRequest) (service : Service) (sha : PyStr) : Prop :=
  ∃ path ref, settings.resolveRepositoryReference fs service.repositoryPath = .ok path ∧
    commitShaOf request.event = .ok ref ∧ git path ref service.defaultBranch = .ok sha

/-- The service is active, the event is new, Git resolves its commit and the limit of jobs is not reached. -/
structure EventRequest.Admitted (request : EventRequest) (env : Env) (db : Store) (service : Service) (sha : PyStr) :
    Prop where
  newTo : request.NewTo db service
  resolves : request.Resolves settings fs git service sha
  capacity : IncidentRepository.activeJobCount db < env.jobLimit

/-- The repository of the service is where its path leads, and what `resolve_commit` raises there is documented. -/
def EventRequest.Reports (request : EventRequest) (service : Service) : Prop :=
  ∃ path, settings.resolveRepositoryReference fs service.repositoryPath = .ok path ∧
    ∀ ref e, commitShaOf request.event = .ok ref → git path ref service.defaultBranch = .error e → e.Documented

variable {settings fs git} {db : Store} {env env₂ env₃ : Env} {request : EventRequest} {r : Rfc3339} {service : Service}

theorem EventRequest.NewTo.unique {service' : Service} (h : request.NewTo db service) (h' : request.NewTo db service') :
    service' = service := by
  obtain ⟨key, _, hk, -, hs, -⟩ := h
  obtain ⟨key', _, hk', -, hs', -⟩ := h'
  obtain rfl := Except.ok.inj (hk.symm.trans hk')
  exact Option.some.inj (hs'.symm.trans hs)

/-- The read session: a replay or a documented error, unless the event is new to an active service. -/
theorem ingestLookup_cases (hc : request.Checked r) :
    ((∀ service, ¬ request.NewTo db service) ∧ ((∃ receipt, ingestLookup request db = .ok (.inl receipt)) ∨
      ∃ e, ingestLookup request db = .error e ∧ e.Documented)) ∨
    ∃ service eventId, request.NewTo db service ∧ service.active = true ∧
      IncidentRepository.serviceById db service.id = some service ∧
      IncidentRepository.eventByIdentity db service.id eventId = none ∧ ingestLookup request db =
        .ok (.inr ⟨service.id, service.repositoryPath, service.defaultBranch, eventId⟩) := by
  obtain ⟨eventId, heid⟩ := hc.eventId
  obtain ⟨key, hkey⟩ := hc.serviceKey
  have hnot : (∀ service, IncidentRepository.serviceByKey db key true = some service →
      IncidentRepository.eventByIdentity db service.id eventId ≠ none) → ∀ service, ¬ request.NewTo db service := by
    rintro hno service ⟨key', eventId', hkey', heid', hs, hn⟩
    obtain rfl := Except.ok.inj (hkey.symm.trans hkey')
    obtain rfl := Except.ok.inj (heid.symm.trans heid')
    exact hno service hs hn
  unfold ingestLookup
  rw [heid]
  show _ ∧ ((∃ receipt, (request.event.getStr "serviceKey" >>= _) = _) ∨
    ∃ e, (request.event.getStr "serviceKey" >>= _) = _ ∧ _) ∨
    ∃ service eventId, _ ∧ _ ∧ _ ∧ _ ∧ (request.event.getStr "serviceKey" >>= _) = _
  rw [hkey]
  simp only [bind, Except.bind]
  cases hs : IncidentRepository.serviceByKey db key true with
  | none =>
    refine Or.inl ⟨hnot fun service h => ?_, Or.inr ⟨_, rfl, documented_aehError _ (by decide)⟩⟩
    rw [hs] at h
    cases h
  | some service =>
    obtain ⟨hm, hp⟩ := Table.mem_of_first hs
    have hactive : service.active = true := by
      simp only [Bool.and_eq_true, Bool.not_true, Bool.false_or] at hp
      exact hp.2
    dsimp only
    cases hn : IncidentRepository.eventByIdentity db service.id eventId with
    | none =>
      have hdup : duplicate db service.id eventId request.checksum = .ok none := by
        unfold duplicate
        rw [hn]
      rw [hdup]
      refine Or.inr ⟨service, eventId, ⟨key, eventId, hkey, heid, hs, hn⟩, hactive, ?_, hn, rfl⟩
      exact Table.first_eq_of_unique hm (decide_eq_true rfl) fun s h hid =>
        Table.eq_of_key h hm (of_decide_eq_true hid)
    | some row =>
      refine Or.inl ⟨hnot fun service' h => ?_, ?_⟩
      · rw [hs] at h
        cases h
        rw [hn]
        exact nofun
      · unfold duplicate
        rw [hn]
        dsimp only
        split_ifs
        · exact Or.inr ⟨_, rfl, documented_aehError _ (by decide)⟩
        · cases IncidentRepository.incidentForEvent db row.id with
          | none => exact Or.inr ⟨_, rfl, documented_aehError _ (by decide)⟩
          | some inc => exact Or.inl ⟨_, rfl⟩

/-- Between the sessions: the commit, or what is raised on the way to it. -/
theorem ingestResolve_cases (hc : request.Checked r) (service : Service) (eventId : Uuid) :
    (∃ sha, request.Resolves settings fs git service sha ∧ ingestResolve settings fs git request
      ⟨service.id, service.repositoryPath, service.defaultBranch, eventId⟩ = .ok sha) ∨
    ((∀ sha, ¬ request.Resolves settings fs git service sha) ∧ ∃ e, ingestResolve settings fs git request
      ⟨service.id, service.repositoryPath, service.defaultBranch, eventId⟩ = .error e ∧
      (e.Documented ↔ request.Reports settings fs git service)) := by
  obtain ⟨ref, href⟩ := hc.commitSha
  unfold ingestResolve
  cases hp : settings.resolveRepositoryReference fs service.repositoryPath with
  | error e =>
    have hpath : ∀ path, settings.resolveRepositoryReference fs service.repositoryPath ≠ .ok path := by
      intro path h
      rw [hp] at h
      cases h
    refine Or.inr ⟨fun sha ⟨path, _, h, _⟩ => hpath path h, e, rfl, iff_of_false ?_ fun ⟨path, h, _⟩ => hpath path h⟩
    rintro ⟨_, _, _, rfl, -⟩
    rcases Settings.resolveRepositoryReference_error hp with h | ⟨_, h⟩ <;> cases h
  | ok path =>
    show (∃ sha, _ ∧ (commitShaOf request.event >>= _) = _) ∨ (_ ∧ ∃ e, (commitShaOf request.event >>= _) = _ ∧ _)
    rw [href]
    show (∃ sha, _ ∧ git path ref service.defaultBranch = _) ∨ (_ ∧ ∃ e, git path ref service.defaultBranch = _ ∧ _)
    cases hg : git path ref service.defaultBranch with
    | ok sha => exact Or.inl ⟨sha, ⟨path, ref, hp, href, hg⟩, rfl⟩
    | error e =>
      refine Or.inr ⟨?_, e, rfl, fun hd => ⟨path, hp, fun ref' e' h' hg' => ?_⟩, fun ⟨path', h, hd⟩ => ?_⟩
      · rintro sha ⟨path', ref', h, h', hg'⟩
        obtain rfl := Except.ok.inj (hp.symm.trans h)
        obtain rfl := Except.ok.inj (href.symm.trans h')
        rw [hg] at hg'
        cases hg'
      · obtain rfl := Except.ok.inj (href.symm.trans h')
        obtain rfl := Except.error.inj (hg.symm.trans hg')
        exact hd
      · obtain rfl := Except.ok.inj (hp.symm.trans h)
        exact hd ref e href hg

theorem EventRequest.Resolves.unique {sha sha' : PyStr} (h : request.Resolves settings fs git service sha)
    (h' : request.Resolves settings fs git service sha') : sha' = sha := by
  obtain ⟨path, ref, hp, href, hg⟩ := h
  obtain ⟨path', ref', hp', href', hg'⟩ := h'
  obtain rfl := Except.ok.inj (hp.symm.trans hp')
  obtain rfl := Except.ok.inj (href.symm.trans href')
  exact Except.ok.inj (hg'.symm.trans hg)

theorem EventRequest.Resolves.reports {sha : PyStr} (h : request.Resolves settings fs git service sha) :
    request.Reports settings fs git service := by
  obtain ⟨path, ref, hp, href, hg⟩ := h
  refine ⟨path, hp, fun ref' e href' he => ?_⟩
  obtain rfl := Except.ok.inj (href.symm.trans href')
  rw [hg] at he
  cases he

/-- Where Git resolves the commit as `gitops` does, what is raised is documented unless Git prints what is no UTF-8. -/
theorem EventRequest.reports_iff {host : GitHost} : request.Reports settings fs host.resolveCommit service ↔
    ∃ path, settings.resolveRepositoryReference fs service.repositoryPath = .ok path ∧
      ∀ ref, commitShaOf request.event = .ok ref → ¬ host.Garbled path ref service.defaultBranch := by
  refine exists_congr fun path => and_congr_right fun _ => ⟨fun h ref href hg => ?_, fun h ref e href he => ?_⟩
  · obtain ⟨_, _, _, hd, -⟩ := h ref _ href (GitHost.resolveCommit_garbled hg)
    cases hd
  · rcases GitHost.resolveCommit_error he with ⟨detail, rfl | rfl⟩ | hg
    · exact documented_aehError detail (by decide)
    · exact documented_aehError detail (by decide)
    · exact absurd hg (h ref href)

/-- The job of a new incident is over the limit. -/
theorem ingestResolved_full {intake : Intake} {sha : PyStr} (hs : IncidentRepository.serviceById db intake.serviceId = some service)
    (ha : service.active = true) (hp : service.repositoryPath = intake.repoPath)
    (hnew : IncidentRepository.eventByIdentity db service.id intake.eventId = none) (hasked : request.Queried env.backend)
    (hfit : ¬ request.Fits env db service sha) : ingestResolved env request intake sha db =
      .error (aehError 503 "AEH-JOB-503-001" "Pending job limit reached") := by
  unfold EventRequest.Fits at hfit
  push Not at hfit
  obtain ⟨fingerprint, hfp, ho, hfull⟩ := hfit
  have hquery := hasked fingerprint hfp
  have hcap : requireJobCapacity env.jobLimit db = .error (aehError 503 "AEH-JOB-503-001" "Pending job limit reached") :=
    if_pos hfull
  rw [ingestResolved_eq hs ha hp hnew hfp, if_pos hquery, ho, Option.isNone_none, if_pos rfl, hcap]
  rfl

/-- The fingerprint cannot be asked for. -/
theorem ingestResolved_unqueried {intake : Intake} {sha : PyStr} (hc : request.Checked r)
    (hs : IncidentRepository.serviceById db intake.serviceId = some service)
    (ha : service.active = true) (hp : service.repositoryPath = intake.repoPath)
    (hnew : IncidentRepository.eventByIdentity db service.id intake.eventId = none)
    (hasked : ¬ request.Queried env.backend) : ingestResolved env request intake sha db = .error .statementError := by
  obtain ⟨fingerprint, hfp⟩ := hc.fingerprint
  have hno : ¬ env.backend.holdsText fingerprint = true := fun h => hasked fun fingerprint' hfp' => by
    obtain rfl := Except.ok.inj (hfp.symm.trans hfp')
    exact h
  rw [ingestResolved_eq hs ha hp hnew hfp, if_neg hno]
  rfl

variable (settings fs git db env request r) in
/-- The ways a call of `ingest` ends. -/
inductive IngestEnds : Except Exn Receipt × Store → Prop
  /-- The service is not active, or the event is not new. -/
  | known {answer : Except Exn Receipt} (hno : ∀ service, ¬ request.NewTo db service)
      (hd : ∀ e, answer = .error e → e.Documented) : IngestEnds (answer, db)
  | unresolved {service : Service} {e : Exn} (hn : request.NewTo db service)
      (hr : ∀ sha, ¬ request.Resolves settings fs git service sha)
      (hd : e.Documented ↔ request.Reports settings fs git service) : IngestEnds (.error e, db)
  | full {service : Service} {sha : PyStr} {e : Exn} (hn : request.NewTo db service)
      (hr : request.Resolves settings fs git service sha) (hq : request.Queried env.backend)
      (hf : ¬ request.Fits env db service sha) (hd : e.Documented) : IngestEnds (.error e, db)
  | stored {service : Service} {sha : PyStr} {receipt : Receipt} {db' : Store} (hn : request.NewTo db service)
      (hr : request.Resolves settings fs git service sha) (hf : request.Fits env db service sha)
      (hgood : r.Readable ∧ env.backend.holds request.normalized = true) (hd : receipt.duplicate = false)
      (hs : db.Stores db' service.id receipt r.toDatetime.instant) : IngestEnds (.ok receipt, db')
  /-- Neither the schema nor the contract foresees this. -/
  | refused {service : Service} {sha : PyStr} {e : Exn} (hn : request.NewTo db service)
      (hr : request.Resolves settings fs git service sha)
      (hbad : ¬ (request.Queried env.backend ∧ (request.Fits env db service sha →
        r.Readable ∧ env.backend.holds request.normalized = true))) (hd : ¬ e.Documented) : IngestEnds (.error e, db)

/-- **How a call ends** in a store whose rows agree. -/
theorem ingest_ends (hg : db.Grouped) (hu : db.OpenUnique) (hok : ∀ i, (db.dossier i).Ok) (hn : db.NewIds env)
    (hc : request.Checked r) :
    IngestEnds settings fs git db env request r (ingest settings fs git env env₂ env₃ request db) := by
  unfold ingest
  rcases @ingestLookup_cases db _ _ hc with ⟨hno, ⟨receipt, hl⟩ | ⟨e, hl, hd⟩⟩ | ⟨service, eventId, hnew, ha, hs, hev, hl⟩
  · rw [hl]
    exact .known hno nofun
  · rw [hl]
    refine .known hno fun e' he => ?_
    cases he
    exact hd
  rw [hl]
  dsimp only
  rcases @ingestResolve_cases settings fs git _ _ hc service eventId with
    ⟨sha, hr, hres⟩ | ⟨hr, e, hres, hd⟩
  · rw [hres]
    dsimp only
    unfold ingestTries
    let intake : Intake := ⟨service.id, service.repositoryPath, service.defaultBranch, eventId⟩
    by_cases hq : request.Queried env.backend
    · by_cases hf : request.Fits env db service sha
      · rcases @ingestResolved_new _ _ _ intake _ _ _ hg hu hok
          hn hc hs ha rfl hev hq hf with ⟨hgood, receipt, db', h, hdup, hst⟩ | ⟨hbad, e, h, hne, hd⟩
        · rw [h]
          exact .stored hnew hr hf hgood hdup hst
        · rw [h]
          have hend : IngestEnds settings fs git db env request r (.error e, db) :=
            .refused hnew hr (fun hg => hbad (hg.2 hf)) hd
          cases e <;> first | exact hend | exact absurd rfl hne
      · rw [@ingestResolved_full _ _ _ _ intake _ hs ha rfl
          hev hq hf]
        exact .full hnew hr hq hf (documented_aehError _ (by decide))
    · rw [@ingestResolved_unqueried _ _ _ _ _ intake _ hc hs ha
        rfl hev hq]
      refine .refused hnew hr (fun hg => hq hg.1) ?_
      rintro ⟨_, _, _, he, -⟩
      cases he
  · rw [hres]
    exact .unresolved hnew hr hd

end Whole

/-- **What becomes of an accepted event**, in any reachable state.  A new event that is admitted is stored with its
instant iff its time is readable and exact and the backend holds the document; and every exception is documented iff
what is asked of a new event's repository, time and document is met. -/
theorem ingest_accepted {libs : Libraries} (hl : libs.Checks) {raw : Bytes} {idempotencyKey : Option PyStr}
    {request : EventRequest} (h : parseEvent libs raw idempotencyKey = .ok request) {s : Sys}
    (hs : Sys.machine.Reachable s) (settings : Settings) (fs : FileSystem)
    (git : AbsPath → Option PyStr → PyStr → Except Exn PyStr) {env : Env} (hn : s.db.NewIds env) (env₂ env₃ : Env) :
    (∃ r : Rfc3339, request.event.getStr "occurredAt" = .ok r.text) ∧
    ∀ r : Rfc3339, request.event.getStr "occurredAt" = .ok r.text →
      ((∀ service sha, request.Admitted settings fs git env s.db service sha →
          ∃ receipt db', ingest settings fs git env env₂ env₃ request s.db = (.ok receipt, db') ∧
            receipt.duplicate = false ∧ s.db.Stores db' service.id receipt r.instant) ↔
        ((∃ service sha, request.Admitted settings fs git env s.db service sha) →
          r.Readable ∧ r.Exact ∧ env.backend.holds request.normalized = true)) ∧
      ((∀ e, (ingest settings fs git env env₂ env₃ request s.db).1 = .error e → e.Documented) ↔
        ∀ service, request.NewTo s.db service → request.Reports settings fs git service ∧
          ∀ sha, request.Resolves settings fs git service sha → request.Queried env.backend ∧
            (request.Fits env s.db service sha → r.Readable ∧ env.backend.holds request.normalized = true)) := by
  obtain ⟨r₀, hc₀⟩ := parseEvent_checked hl h
  refine ⟨⟨r₀, hc₀.occurredAt⟩, fun r htime => ?_⟩
  have hc : request.Checked r := { hc₀ with occurredAt := htime }
  have hends := @ingest_ends settings fs git _ _ env₂ env₃ _ _
    (Sys.kept_of_reachable hs).grouped (Sys.openUnique_of_reachable hs) (Sys.inv_of_reachable hs).ok hn hc
  have hfits : ∀ {service sha}, request.Admitted settings fs git env s.db service sha →
      request.Fits env s.db service sha := fun ha _ _ _ => ha.capacity
  generalize ingest settings fs git env env₂ env₃ request s.db = out at hends
  cases hends with
  | known hno hd =>
    refine ⟨⟨fun _ ⟨service, _, ha⟩ => absurd ha.newTo (hno service),
      fun _ service _ ha => absurd ha.newTo (hno service)⟩, ⟨fun _ service hnew => absurd hnew (hno service), fun _ => hd⟩⟩
  | @unresolved service e hnew hr hd =>
    have hnone : ∀ service' sha, ¬ request.Admitted settings fs git env s.db service' sha := by
      intro service' sha ha
      obtain rfl := hnew.unique ha.newTo
      exact hr sha ha.resolves
    refine ⟨⟨fun _ ⟨_, _, ha⟩ => absurd ha (hnone _ _), fun _ _ _ ha => absurd ha (hnone _ _)⟩, fun hall => ?_, ?_⟩
    · intro service' hnew'
      obtain rfl := hnew.unique hnew'
      exact ⟨hd.mp (hall e rfl), fun sha h => absurd h (hr sha)⟩
    · intro hall e' he
      cases he
      exact hd.mpr (hall service hnew).1
  | @full service sha e hnew hr hq hf hd =>
    have hnone : ∀ service' sha', ¬ request.Admitted settings fs git env s.db service' sha' := by
      intro service' sha' ha
      obtain rfl := hnew.unique ha.newTo
      obtain rfl := hr.unique ha.resolves
      exact hf (hfits ha)
    refine ⟨⟨fun _ ⟨_, _, ha⟩ => absurd ha (hnone _ _), fun _ _ _ ha => absurd ha (hnone _ _)⟩, fun _ => ?_, ?_⟩
    · intro service' hnew'
      obtain rfl := hnew.unique hnew'
      refine ⟨hr.reports, fun sha' hr' => ⟨hq, fun hf' => ?_⟩⟩
      obtain rfl := hr.unique hr'
      exact absurd hf' hf
    · intro _ e' he
      cases he
      exact hd
  | @stored service sha receipt db' hnew hr hf hgood hd hst =>
    refine ⟨⟨fun hall ⟨service', sha', ha⟩ => ?_, fun hall service' sha' ha => ?_⟩, fun _ service' hnew' => ?_, fun _ => nofun⟩
    · obtain ⟨receipt', db'', he, -, hst'⟩ := hall service' sha' ha
      cases he
      obtain rfl := hnew.unique ha.newTo
      exact ⟨hgood.1, Rfc3339.instant_toDatetime.mp (hst.unique hst'), hgood.2⟩
    · obtain rfl := hnew.unique ha.newTo
      refine ⟨receipt, db', rfl, hd, ?_⟩
      rw [← Rfc3339.instant_toDatetime.mpr (hall ⟨_, _, ha⟩).2.1]
      exact hst
    · obtain rfl := hnew.unique hnew'
      exact ⟨hr.reports, fun _ _ => ⟨EventRequest.queried_of_holds hgood.2, fun _ => hgood⟩⟩
  | @refused service sha e hnew hr hbad hd =>
    refine ⟨⟨fun hall ⟨service', sha', ha⟩ => ?_, fun hall service' sha' ha => ?_⟩, fun hall => ?_, fun hall => ?_⟩
    · obtain ⟨_, _, he, -⟩ := hall service' sha' ha
      cases he
    · obtain ⟨h1, -, h2⟩ := hall ⟨service', sha', ha⟩
      exact absurd ⟨EventRequest.queried_of_holds h2, fun _ => ⟨h1, h2⟩⟩ hbad
    · exact absurd (hall e rfl) hd
    · exact absurd ((hall service hnew).2 sha hr) hbad

/-! ### An event at the beginning of the calendar -/

namespace Early

open Sample

/-- `2026-01-01T00:00:00Z`. -/
def usual : Rfc3339 := ⟨2026, 1, 1, 0, 0, 0, [], .zulu false, false, by decide, by decide, rfl⟩

/-- `0001-01-01T00:00:00+01:00`: an hour before the first instant in UTC. -/
def early : Rfc3339 := ⟨1, 1, 1, 0, 0, 0, [], .offset false 1 0, false, by decide, by decide, rfl⟩

example : usual.text = lit "2026-01-01T00:00:00Z" ∧ early.text = lit "0001-01-01T00:00:00+01:00" := by decide

def fields (t : PyStr) : List (PyStr × Json) :=
  [(lit "environment", .str (lit "test")), (lit "eventId", .str (lit "6f9619ff-8b86-4011-b42d-00c04fc964ff")),
    (lit "fingerprint", .str (lit "boom")), (lit "message", .str (lit "boom")), (lit "occurredAt", .str t),
    (lit "serviceKey", .str (lit "api")), (lit "severity", .str (lit "error")), (lit "specVersion", .str (lit "1.0")),
    (lit "title", .str (lit "boom"))]

/-- The body of the request, in canonical form already. -/
def raw (t : PyStr) : Bytes :=
  (lit ("\x7b\"environment\":\"test\",\"eventId\":\"6f9619ff-8b86-4011-b42d-00c04fc964ff\"," ++
    "\"fingerprint\":\"boom\",\"message\":\"boom\",\"occurredAt\":\"") ++ t ++
    lit ("\",\"serviceKey\":\"api\",\"severity\":\"error\",\"specVersion\":\"1.0\",\"title\":\"boom\"\x7d")).map
    fun c => UInt8.ofNat c.val

/-- What the libraries do with this body; `checksum` is that of the body. -/
def libs (t : PyStr) (checksum : String) : Libraries where
  loads hook _ := hook (fields t)
  iterErrors event :=
    if (event.getStr "occurredAt").toOption = some t ∧ (event.getStr "serviceKey").toOption = some (lit "api") ∧
      (event.get? "release").isNone then []
    else [⟨[], lit "the event is another one"⟩]
  nfc s := s
  dumps _ := some (raw t)
  sha256 _ := checksum

theorem toOption_getStr {j : Json} {key : String} {t : PyStr} (h : (j.getStr key).toOption = some t) :
    j.get? key = some (.str t) := by
  unfold Json.getStr at h
  split at h
  · rename_i s hs
    cases h
    exact hs
  · cases h
  · cases h

theorem checks (r : Rfc3339) (checksum : String) : (libs r.text checksum).Checks := by
  have hif : ∀ fields', (libs r.text checksum).iterErrors (.obj fields') = [] →
      ((Json.obj fields').getStr "occurredAt").toOption = some r.text ∧
        ((Json.obj fields').getStr "serviceKey").toOption = some (lit "api") ∧
        ((Json.obj fields').get? "release").isNone := by
    intro fields' h
    unfold libs at h
    dsimp only at h
    split_ifs at h with hc
    exact hc
  refine ⟨fun fields' h => ⟨_, toOption_getStr (hif fields' h).2.1⟩, fun fields' h => ⟨r, toOption_getStr (hif fields' h).1⟩,
    fun fields' h => Or.inl (Option.isNone_iff_eq_none.mp (hif fields' h).2.2)⟩

def key : PyStr := lit "6f9619ff-8b86-4011-b42d-00c04fc964ff"

/-- What `parse_event` returns. -/
def request (t : PyStr) (checksum : String) : EventRequest :=
  ⟨.obj (fields t), checksum, normalizedOf (fields t) (lit "boom")⟩

def usualSum : String := "2152b31228cc46cb0c270102f3dab954e0774c53bddf2f66e94be333e8238376"

def earlySum : String := "4cc71783ecd4496a9e469ef256c0f1022bc8e713e9895bbc868ae93c17a4a52f"

/-- The environment of the call, with SQLite behind it. -/
def env : Env := { Sample.env 1 with backend := .sqlite }

def git : AbsPath → Option PyStr → PyStr → Except Exn PyStr := fun _ _ _ => .ok sha

theorem newIds : start.db.NewIds env := by
  refine ⟨?_, ?_, ?_, ?_⟩ <;> exact fun _ h => (List.not_mem_nil h).elim

theorem reachable_start : Sys.machine.Reachable start := .of_init ⟨_, by decide, rfl⟩

def eventId : Uuid := ⟨0x6f9619ff8b864011b42d00c04fc964ff, by decide⟩

theorem parse_key : Uuid.parse key = some eventId := by decide +kernel

section

variable (t : PyStr) (checksum : String)

theorem eventIdOf_fields : eventIdOf (.obj (fields t)) = .ok eventId := by
  have hs : (Json.obj (fields t)).getStr "eventId" = .ok key := rfl
  unfold eventIdOf
  rw [hs]
  simp only [bind, Except.bind, parse_key]

theorem admitted : (request t checksum).Admitted settings fs git env start.db service sha :=
  ⟨⟨lit "api", eventId, rfl, eventIdOf_fields t, rfl, rfl⟩, ⟨_, none, rfl, rfl, rfl⟩, by decide⟩

theorem checkSchema_fields : checkSchema (libs t checksum) (.obj (fields t)) = .ok () := by
  have hno : (libs t checksum).iterErrors (.obj (fields t)) = [] := if_pos ⟨rfl, rfl, rfl⟩
  unfold checkSchema firstError
  rw [hno]
  rfl

theorem checkIdempotencyKey_fields : checkIdempotencyKey (some key) (.obj (fields t)) = .ok () := by
  unfold checkIdempotencyKey
  rw [Option.getD_some, parse_key]
  dsimp only
  rw [eventIdOf_fields]
  dsimp only [bind, Except.bind]
  exact if_neg (not_not.mpr rfl)

theorem fingerprintOf_fields : fingerprintOf (libs t checksum) (.obj (fields t)) = .ok (lit "boom") := by
  have hs : (Json.obj (fields t)).getStr "fingerprint" = .ok (lit "boom") := rfl
  have hb : strip (lit "boom") = lit "boom" := by decide
  unfold fingerprintOf
  rw [hs]
  dsimp only [bind, Except.bind, libs]
  rw [hb]
  exact if_neg (by decide)

theorem loadEvent_fields : loadEvent (libs t checksum) (raw t) = .ok (.obj (fields t)) := by
  have hkeys : ((fields t).map (·.1)).Nodup := by
    simp only [fields, List.map]
    decide
  have hloads : (libs t checksum).loads uniquePairs (raw t) = .ok (.obj (fields t)) := by
    show uniquePairs (fields t) = _
    exact if_pos hkeys
  unfold loadEvent
  rw [hloads]

/-- `parse_event` accepts the body. -/
theorem parsed (hlen : (raw t).length ≤ Limits.bodyBytes) :
    parseEvent (libs t checksum) (raw t) (some key) = .ok (request t checksum) := by
  have hdata : (Json.obj (fields t)).get? "reproductionData" = none := rfl
  unfold parseEvent
  rw [if_neg (Nat.not_lt.mpr hlen), loadEvent_fields]
  show parseFields _ _ _ = _
  unfold parseFields
  rw [checkSchema_fields, checkIdempotencyKey_fields, fingerprintOf_fields, hdata]
  rfl

end

theorem usual_readable : usual.Readable := by
  obtain ⟨hlo, hhi⟩ := (Rfc3339.instant_bounds (r := usual)).mp (by decide)
  exact ⟨by decide, by decide, hlo, hhi⟩

/-- The usual event is stored. -/
theorem ingest_accepted_sample : ∃ request receipt db',
    parseEvent (libs usual.text usualSum) (raw usual.text) (some key) = .ok request ∧
    ingest settings fs git env env env request start.db = (.ok receipt, db') ∧ receipt.duplicate = false ∧
    start.db.Stores db' service.id receipt usual.instant := by
  have hp := parsed usual.text usualSum (by decide +kernel)
  obtain ⟨receipt, db', h⟩ := (((ingest_accepted (checks usual usualSum) hp reachable_start settings fs git newIds env
    env).2 usual rfl).1.mpr fun _ => ⟨usual_readable, nofun, rfl⟩) service sha (admitted usual.text usualSum)
  exact ⟨_, receipt, db', hp, h⟩

/-- **The early event is accepted, and its call ends with an exception of the database driver.** -/
theorem not_accepted : parseEvent (libs early.text earlySum) (raw early.text) (some key) =
      .ok (request early.text earlySum) ∧ (libs early.text earlySum).Checks ∧ Sys.machine.Reachable start ∧
    start.db.NewIds env ∧ (request early.text earlySum).Admitted settings fs git env start.db service sha ∧
    (ingest settings fs git env env env (request early.text earlySum) start.db).1 = .error .statementError ∧
    ¬ Exn.statementError.Documented := by
  refine ⟨parsed _ _ (by decide +kernel), checks early earlySum, reachable_start, newIds, admitted _ _, ?_, ?_⟩
  · decide +kernel
  · rintro ⟨_, _, _, he, -⟩
    cases he

end Early

end Aeh
