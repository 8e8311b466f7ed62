import Mathlib.Logic.Function.Basic
import Aeh.Grouping

/-!
# Receipts — calls of `ingest` interleaved with everything else

A call of `ingest` reads (`ingestLookup`), asks Git (`ingestResolve`) and tries its write transaction up to
three times; between these steps any other call and any transaction of workers, approvals and configuration
may run.  A try may also lose against a concurrent transaction and end with a violated unique constraint.
-/

namespace Aeh

/-- The system and the calls that run over it. -/
structure Calls (γ : Type) where
  sys : Sys
  call : ℕ → γ

/-- Call `k` goes on to `c` while the system goes on to `s`. -/
def Calls.goOn {γ : Type} (w : Calls γ) (s : Sys) (k : ℕ) (c : γ) : Calls γ := ⟨s, Function.update w.call k c⟩

@[simp] theorem Calls.goOn_sys {γ : Type} (w : Calls γ) (s : Sys) (k : ℕ) (c : γ) : (w.goOn s k c).sys = s := rfl

/-- Where a call of `ingest` is. -/
inductive IngestCall where
  | waiting
  | resolving (request : EventRequest) (intake : Intake)
  /-- `left` tries are left. -/
  | trying (request : EventRequest) (intake : Intake) (sha : PyStr) (left : ℕ)
  | answered (request : EventRequest) (answer : Except Exn Receipt)

namespace IngestCall

def afterLookup (request : EventRequest) : Except Exn (Receipt ⊕ Intake) → IngestCall
  | .ok (.inl receipt) => answered request (.ok receipt)
  | .ok (.inr intake) => resolving request intake
  | .error e => answered request (.error e)

def afterResolve (request : EventRequest) (intake : Intake) : Except Exn PyStr → IngestCall
  | .ok sha => trying request intake sha 3
  | .error e => answered request (.error e)

/-- The loop of `ingest` after a try, with `left` tries left. -/
def afterTry (request : EventRequest) (intake : Intake) (sha : PyStr) (left : ℕ) : Except Exn Receipt → IngestCall
  | .error .integrityError =>
    if left = 0 then
      answered request (.error (aehError 503 "AEH-JOB-503-001" "Concurrent event receipt did not settle; retry"))
    else trying request intake sha left
  | answer => answered request answer

end IngestCall

/-- The steps of calls of `ingest` and of the other parties. -/
inductive IngestLabel where
  | other (tx : Tx)
  | lookup (k : ℕ) (request : EventRequest)
  | resolve (k : ℕ) (settings : Settings) (fs : FileSystem) (git : AbsPath → Option PyStr → PyStr → Except Exn PyStr)
  | write (k : ℕ) (env : Env)
  | conflict (k : ℕ)

namespace Calls

open IngestCall

/-- The calls of `ingest` over the system. -/
def ingestMachine : Machine (Calls IngestCall) IngestLabel where
  init w := Sys.Start w.sys ∧ ∀ k, w.call k = .waiting
  step w l w' :=
    match l with
    | .other tx => (∀ env request intake sha, tx ≠ .ingest env request intake sha) ∧
        Sys.machine.step w.sys tx w'.sys ∧ w'.call = w.call
    | .lookup k request => w.call k = .waiting ∧
        w' = w.goOn w.sys k (afterLookup request (ingestLookup request w.sys.db))
    | .resolve k settings fs git => ∃ request intake, w.call k = .resolving request intake ∧
        w' = w.goOn w.sys k (afterResolve request intake (ingestResolve settings fs git request intake))
    | .write k env => ∃ request intake sha left, w.call k = .trying request intake sha (left + 1) ∧
        w' = w.goOn (w.sys.exec (.ingest env request intake sha)) k
          (afterTry request intake sha left (commit (ingestResolved env request intake sha w.sys.db) w.sys.db).1)
    | .conflict k => ∃ request intake sha left, w.call k = .trying request intake sha (left + 1) ∧
        w' = w.goOn w.sys k (afterTry request intake sha left (.error .integrityError))

/-- The system under the calls makes one of its own steps or none. -/
theorem sys_step {w w' : Calls IngestCall} {l : IngestLabel} (h : ingestMachine.step w l w') :
    w'.sys = w.sys ∨ ∃ tx, Sys.machine.step w.sys tx w'.sys := by
  cases l with
  | other tx => exact Or.inr ⟨tx, h.2.1⟩
  | lookup k request =>
    obtain ⟨-, rfl⟩ := h
    exact Or.inl rfl
  | resolve k settings fs git =>
    obtain ⟨_, _, -, rfl⟩ := h
    exact Or.inl rfl
  | write k env =>
    obtain ⟨request, intake, sha, _, -, rfl⟩ := h
    exact Or.inr ⟨.ingest env request intake sha, trivial, rfl⟩
  | conflict k =>
    obtain ⟨_, _, _, _, -, rfl⟩ := h
    exact Or.inl rfl

theorem sys_reachable {w : Calls IngestCall} (h : ingestMachine.Reachable w) : Sys.machine.Reachable w.sys := by
  refine Machine.Reachable.map (M := Sys.machine) (N := ingestMachine) Calls.sys (fun _ h => h.1) ?_ h
  intro w l w' hw hs
  rcases sys_step hs with he | ⟨tx, hs⟩
  · exact he ▸ hw
  · exact hw.step hs

end Calls

/-! ## What a response stands for -/

/-- An event of a service is stored with its occurrence at an incident. -/
def Store.Received (db : Store) (serviceId eventId incidentId : Uuid) : Prop :=
  ∃ e ∈ db.errorEvents.rows, e.serviceId = serviceId ∧ e.eventId = eventId ∧
    ∃ o ∈ db.occurrences.rows, o.errorEventId = e.id ∧ o.incidentId = incidentId

theorem Store.Received.unique {db : Store} (hg : db.Grouped) {s e i i' : Uuid} (h : db.Received s e i)
    (h' : db.Received s e i') : i = i' := by
  obtain ⟨a, ha, rfl, rfl, o, ho, hoe, rfl⟩ := h
  obtain ⟨b, hb, hs, he, o', ho', hoe', rfl⟩ := h'
  obtain rfl := hg.events b hb a ha hs he
  obtain ⟨_, -, hu⟩ := hg.occurs b hb
  rw [hu o ⟨ho, hoe⟩, hu o' ⟨ho', hoe'⟩]

/-- Events and occurrences are never removed. -/
theorem Sys.received_step {s s' : Sys} {tx : Tx} (h : machine.step s tx s') {sid eid i : Uuid}
    (hr : s.db.Received sid eid i) : s'.db.Received sid eid i := by
  obtain ⟨e, he, hs, hid, o, ho, hoe, hoi⟩ := hr
  by_cases hi : ∃ env request intake sha, tx = .ingest env request intake sha
  · obtain ⟨env, request, intake, sha, rfl⟩ := hi
    rcases ingest_step h with hdb | ⟨service, -, occ, inc', -, hr⟩
    · rw [hdb]
      exact ⟨e, he, hs, hid, o, ho, hoe, hoi⟩
    · exact ⟨e, (hr.events e).mpr (Or.inl he), hs, hid, o, hr.mem_occurrences.mpr (Or.inl ho), hoe, hoi⟩
  · have hq := quiet_step h fun env request intake sha he => hi ⟨env, request, intake, sha, he⟩
    exact ⟨e, hq.events ▸ he, hs, hid, o, hq.occurrences ▸ ho, hoe, hoi⟩

theorem Sys.services_step {s s' : Sys} {tx : Tx} (h : machine.step s tx s') : ServicesKept s.db.services s'.db.services := by
  by_cases hi : ∃ env request intake sha, tx = .ingest env request intake sha
  · obtain ⟨env, request, intake, sha, rfl⟩ := hi
    rcases ingest_step h with hdb | ⟨service, -, occ, inc', -, hr⟩
    · rw [hdb]
      exact .refl _
    · rw [hr.services]
      exact .refl _
  · exact (quiet_step h fun env request intake sha he => hi ⟨env, request, intake, sha, he⟩).services

/-- A replay's response names the incident of the event. -/
theorem duplicate_received {db : Store} {sid eid : Uuid} {checksum : String} {r : Receipt}
    (h : duplicate db sid eid checksum = .ok (some r)) :
    r.eventId = eid ∧ r.duplicate = true ∧ db.Received sid eid r.incidentId := by
  obtain ⟨row, inc, hrow, -, hinc, rfl⟩ := duplicate_some h
  obtain ⟨hm, hp⟩ := Table.mem_of_first hrow
  obtain ⟨-, ho⟩ := Table.mem_of_first hinc
  obtain ⟨o, ho, hp'⟩ := List.any_eq_true.mp ho
  simp only [Bool.and_eq_true, decide_eq_true_eq] at hp hp'
  exact ⟨rfl, rfl, row, hm, hp.1, hp.2, o, ho, hp'.2, hp'.1⟩

/-- The service a request names, by its key. -/
def EventRequest.Names (request : EventRequest) (db : Store) (serviceId : Uuid) : Prop :=
  ∃ service ∈ db.services.rows, service.id = serviceId ∧ request.event.getStr "serviceKey" = .ok service.key

theorem EventRequest.Names.kept {request : EventRequest} {db db' : Store} {sid : Uuid} (h : request.Names db sid)
    (hk : ServicesKept db.services db'.services) : request.Names db' sid := by
  obtain ⟨s, hs, rfl, hkey⟩ := h
  obtain ⟨s', hs', hid, hkey'⟩ := hk.kept s hs
  exact ⟨s', hs', hid, by rw [hkey', hkey]⟩

/-- A key is that of one service. -/
theorem EventRequest.Names.unique {request request' : EventRequest} {db : Store}
    (hn : (db.services.rows.map Service.key).Nodup) {sid sid' : Uuid} (h : request.Names db sid)
    (h' : request'.Names db sid') (hk : request.event.getStr "serviceKey" = request'.event.getStr "serviceKey") :
    sid = sid' := by
  obtain ⟨s, hs, rfl, hkey⟩ := h
  obtain ⟨s', hs', rfl, hkey'⟩ := h'
  rw [hkey, hkey'] at hk
  rw [List.inj_on_of_nodup_map hn hs hs' (Except.ok.inj hk)]

namespace IngestCall

/-- A call on its way knows its service and event; a response is that of a stored event. -/
def Sound (db : Store) : IngestCall → Prop
  | .waiting | .answered _ (.error _) => True
  | .resolving request intake | .trying request intake _ _ =>
    request.Names db intake.serviceId ∧ eventIdOf request.event = .ok intake.eventId
  | .answered request (.ok r) => ∃ sid, request.Names db sid ∧ eventIdOf request.event = .ok r.eventId ∧
      db.Received sid r.eventId r.incidentId

theorem Sound.kept {db db' : Store} {c : IngestCall} (h : c.Sound db) (hk : ServicesKept db.services db'.services)
    (hr : ∀ sid eid i, db.Received sid eid i → db'.Received sid eid i) : c.Sound db' := by
  cases c with
  | waiting => trivial
  | resolving | trying => exact ⟨h.1.kept hk, h.2⟩
  | answered request answer =>
    cases answer with
    | error => trivial
    | ok r =>
      obtain ⟨sid, hn, he, hrec⟩ := h
      exact ⟨sid, hn.kept hk, he, hr _ _ _ hrec⟩

theorem sound_lookup {db : Store} {request : EventRequest} {r : Except Exn (Receipt ⊕ Intake)}
    (h : ingestLookup request db = r) : (afterLookup request r).Sound db := by
  cases r with
  | error e => trivial
  | ok a =>
    obtain ⟨eid, heid, h⟩ := bind_eq_ok.mp h
    obtain ⟨key, hkey, h⟩ := bind_eq_ok.mp h
    split at h
    · cases h
    · rename_i service hs
      obtain ⟨hm, hp⟩ := Table.mem_of_first hs
      simp only [Bool.and_eq_true, decide_eq_true_eq] at hp
      have hnames : request.Names db service.id := ⟨service, hm, rfl, by rw [hkey, hp.1]⟩
      obtain ⟨d, hd, h⟩ := bind_eq_ok.mp h
      split at h
      · cases h
        obtain ⟨rfl, -, hrec⟩ := duplicate_received hd
        exact ⟨service.id, hnames, heid, hrec⟩
      · cases h
        exact ⟨hnames, heid⟩

theorem sound_resolve {db : Store} {request : EventRequest} {intake : Intake} (h : (resolving request intake).Sound db)
    (answer : Except Exn PyStr) : (afterResolve request intake answer).Sound db := by
  cases answer with
  | error => trivial
  | ok sha => exact h

/-- A call after a try is over with the answer of the try, is over without one or tries again. -/
theorem afterTry_cases (request : EventRequest) (intake : Intake) (sha : PyStr) (left : ℕ)
    (answer : Except Exn Receipt) :
    (∃ r, answer = .ok r ∧ afterTry request intake sha left answer = answered request (.ok r)) ∨
      (∃ e, afterTry request intake sha left answer = answered request (.error e)) ∨
      afterTry request intake sha left answer = trying request intake sha left := by
  cases answer with
  | ok r => exact Or.inl ⟨r, rfl, rfl⟩
  | error e =>
    right
    unfold afterTry
    split
    · split_ifs
      · exact Or.inl ⟨_, rfl⟩
      · exact Or.inr rfl
    · exact Or.inl ⟨_, rfl⟩

theorem sound_try {db' : Store} {request : EventRequest} {intake : Intake} {sha : PyStr} {left n : ℕ}
    (h : (trying request intake sha n).Sound db') {answer : Except Exn Receipt}
    (hok : ∀ r, answer = .ok r → r.eventId = intake.eventId ∧ db'.Received intake.serviceId r.eventId r.incidentId) :
    (afterTry request intake sha left answer).Sound db' := by
  rcases afterTry_cases request intake sha left answer with ⟨r, hr, he⟩ | ⟨e, he⟩ | he
  · rw [he]
    obtain ⟨hid, hrec⟩ := hok r hr
    exact ⟨intake.serviceId, h.1, hid ▸ h.2, hrec⟩
  · rw [he]
    trivial
  · rw [he]
    exact h

end IngestCall

/-- What the write transaction answers: the incident of the event, and `duplicate` unless the event is new. -/
theorem ingestResolved_answer {db db' : Store} {env : Env} {request : EventRequest} {intake : Intake} {sha : PyStr}
    {r : Receipt} (h : ingestResolved env request intake sha db = .ok (r, db')) :
    r.eventId = intake.eventId ∧ db'.Received intake.serviceId r.eventId r.incidentId ∧
      (r.duplicate = false → ∀ i, ¬ db.Received intake.serviceId r.eventId i) := by
  obtain ⟨service, -, hid, ⟨hd, rfl⟩ | ⟨occ, inc', hr, rfl⟩⟩ := ingestResolved_receives h
  · obtain ⟨he, hdup, hrec⟩ := duplicate_received hd
    rw [he, ← hid]
    refine ⟨rfl, he ▸ hrec, fun hf => ?_⟩
    rw [hdup] at hf
    cases hf
  · refine ⟨rfl, ⟨_, (hr.events _).mpr (Or.inr rfl), hid, rfl, occ, hr.mem_occurrences.mpr (Or.inr rfl), hr.event,
      hr.incident⟩, ?_⟩
    rintro - i ⟨e, he, hs, heid, -⟩
    exact hr.newEvent e he ⟨hs.trans hid.symm, heid⟩

/-- What the read session answers is a replay. -/
theorem ingestLookup_answer {db : Store} {request : EventRequest} {r : Receipt}
    (h : ingestLookup request db = .ok (.inl r)) : r.duplicate = true := by
  obtain ⟨eid, -, h⟩ := bind_eq_ok.mp h
  obtain ⟨key, -, h⟩ := bind_eq_ok.mp h
  split at h
  · cases h
  · obtain ⟨d, hd, h⟩ := bind_eq_ok.mp h
    split at h
    · cases h
      exact (duplicate_received hd).2.1
    · cases h

namespace Calls

open IngestCall

/-- Every call is sound, and no two responses say they were the first for one event. -/
structure Settled (w : Calls IngestCall) : Prop where
  sound : ∀ k, (w.call k).Sound w.sys.db
  first : ∀ k k' request request' r r', w.call k = .answered request (.ok r) → w.call k' = .answered request' (.ok r') →
    request.event.getStr "serviceKey" = request'.event.getStr "serviceKey" → r.eventId = r'.eventId →
    r.duplicate = false → r'.duplicate = false → k = k'

variable {w w' : Calls IngestCall}

/-- Call `k` goes on; if it answers as the first, no other call has answered for the event. -/
theorem Settled.goOn (hw : w.Settled) {s : Sys} (hk : ServicesKept w.sys.db.services s.db.services)
    (hr : ∀ sid eid i, w.sys.db.Received sid eid i → s.db.Received sid eid i) {k : ℕ} {c : IngestCall}
    (hc : c.Sound s.db)
    (hf : ∀ request r, c = .answered request (.ok r) → r.duplicate = false → ∀ k' request' r',
      w.call k' = .answered request' (.ok r') →
      request.event.getStr "serviceKey" = request'.event.getStr "serviceKey" → r.eventId ≠ r'.eventId) :
    (w.goOn s k c).Settled := by
  refine ⟨fun k' => ?_, fun k₁ k₂ request request' r r' h₁ h₂ hkey he hd hd' => ?_⟩
  · show (Function.update w.call k c k').Sound s.db
    by_cases hkk : k' = k
    · rw [hkk, Function.update_self]
      exact hc
    · rw [Function.update_of_ne hkk]
      exact (hw.sound k').kept hk hr
  · by_contra hne
    change Function.update w.call k c k₁ = _ at h₁
    change Function.update w.call k c k₂ = _ at h₂
    by_cases hk₁ : k₁ = k <;> by_cases hk₂ : k₂ = k
    · exact hne (hk₁.trans hk₂.symm)
    · rw [hk₁, Function.update_self] at h₁
      rw [Function.update_of_ne hk₂] at h₂
      exact hf request r h₁ hd k₂ request' r' h₂ hkey he
    · rw [Function.update_of_ne hk₁] at h₁
      rw [hk₂, Function.update_self] at h₂
      exact hf request' r' h₂ hd' k₁ request r h₁ hkey.symm he.symm
    · rw [Function.update_of_ne hk₁] at h₁
      rw [Function.update_of_ne hk₂] at h₂
      exact hne (hw.first k₁ k₂ request request' r r' h₁ h₂ hkey he hd hd')

theorem Settled.write (hw : w.Settled) (hkeys : (w.sys.db.services.rows.map Service.key).Nodup) {k : ℕ} {env : Env}
    {request : EventRequest} {intake : Intake} {sha : PyStr} {left : ℕ}
    (hk : w.call k = .trying request intake sha (left + 1)) :
    (w.goOn (w.sys.exec (.ingest env request intake sha)) k
      (afterTry request intake sha left (commit (ingestResolved env request intake sha w.sys.db) w.sys.db).1)).Settled := by
  have hstep : Sys.machine.step w.sys (.ingest env request intake sha) (w.sys.exec (.ingest env request intake sha)) :=
    ⟨trivial, rfl⟩
  have hkept := Sys.services_step hstep
  have hrec : ∀ sid eid i, w.sys.db.Received sid eid i →
      (w.sys.exec (.ingest env request intake sha)).db.Received sid eid i := fun _ _ _ h => Sys.received_step hstep h
  have hsound : (trying request intake sha (left + 1)).Sound w.sys.db := hk ▸ hw.sound k
  -- the answer of a try that succeeds
  have hans : ∀ r, (commit (ingestResolved env request intake sha w.sys.db) w.sys.db).1 = .ok r →
      r.eventId = intake.eventId ∧
        (w.sys.exec (.ingest env request intake sha)).db.Received intake.serviceId r.eventId r.incidentId ∧
        (r.duplicate = false → ∀ i, ¬ w.sys.db.Received intake.serviceId r.eventId i) := by
    intro r hr
    show _ ∧ (settle (ingestResolved env request intake sha w.sys.db) w.sys.db).Received _ _ _ ∧ _
    unfold settle
    cases hres : ingestResolved env request intake sha w.sys.db with
    | error e =>
      rw [hres] at hr
      cases hr
    | ok p =>
      rw [hres] at hr
      cases hr
      exact ingestResolved_answer hres
  refine hw.goOn hkept hrec (sound_try (hsound.kept hkept hrec) fun r hr => ⟨(hans r hr).1, (hans r hr).2.1⟩) ?_
  intro request₁ r hc hd k' request' r' hk' hkey he
  rcases afterTry_cases request intake sha left
    (commit (ingestResolved env request intake sha w.sys.db) w.sys.db).1 with ⟨r₁, hr₁, ha⟩ | ⟨e, ha⟩ | ha
  · rw [ha] at hc
    cases hc
    have hother : ((answered request' (.ok r')) : IngestCall).Sound w.sys.db := hk' ▸ hw.sound k'
    obtain ⟨sid', hn', -, hrec'⟩ := hother
    obtain rfl := hsound.1.unique hkeys hn' hkey
    exact (hans r hr₁).2.2 hd r'.incidentId (he ▸ hrec')
  · rw [ha] at hc
    cases hc
  · rw [ha] at hc
    cases hc

theorem Settled.step {l : IngestLabel} (hw : w.Settled) (hkeys : (w.sys.db.services.rows.map Service.key).Nodup)
    (h : ingestMachine.step w l w') : w'.Settled := by
  cases l with
  | other tx =>
    obtain ⟨-, hs, hcall⟩ := h
    refine ⟨fun k => ?_, fun k k' => ?_⟩
    · rw [hcall]
      exact (hw.sound k).kept (Sys.services_step hs) fun _ _ _ hr => Sys.received_step hs hr
    · rw [hcall]
      exact hw.first k k'
  | lookup k request =>
    obtain ⟨-, rfl⟩ := h
    refine hw.goOn (.refl _) (fun _ _ _ h => h) (sound_lookup rfl) fun request₁ r hc hd => ?_
    cases hres : ingestLookup request w.sys.db with
    | error e =>
      rw [hres] at hc
      cases hc
    | ok a =>
      rw [hres] at hc
      cases a with
      | inl r₁ =>
        cases hc
        rw [ingestLookup_answer hres] at hd
        cases hd
      | inr intake => cases hc
  | resolve k settings fs git =>
    obtain ⟨request, intake, hk, rfl⟩ := h
    refine hw.goOn (.refl _) (fun _ _ _ h => h) (sound_resolve (hk ▸ hw.sound k) _) fun request₁ r hc => ?_
    cases hres : ingestResolve settings fs git request intake <;> rw [hres] at hc <;> cases hc
  | write k env =>
    obtain ⟨request, intake, sha, left, hk, rfl⟩ := h
    exact hw.write hkeys hk
  | conflict k =>
    obtain ⟨request, intake, sha, left, hk, rfl⟩ := h
    have hsound : (trying request intake sha (left + 1)).Sound w.sys.db := hk ▸ hw.sound k
    refine hw.goOn (.refl _) (fun _ _ _ h => h) (sound_try hsound nofun) fun request₁ r hc => ?_
    rcases afterTry_cases request intake sha left (.error .integrityError) with ⟨_, h, -⟩ | ⟨e, h⟩ | h
    · cases h
    · cases h.symm.trans hc
    · cases h.symm.trans hc

theorem settled_of_reachable (h : ingestMachine.Reachable w) : w.Settled := by
  have hboth : Sys.machine.Reachable w.sys ∧ w.Settled := by
    refine h.invariant (I := fun w => Sys.machine.Reachable w.sys ∧ w.Settled) (fun w h₀ => ?_) fun w l w' hw hs => ?_
    · have hready : ∀ k, w.call k = .waiting := h₀.2
      refine ⟨.of_init h₀.1, fun k => ?_, fun k _ _ _ _ _ hk => ?_⟩
      · rw [hready k]
        trivial
      · cases (hready k).symm.trans hk
    · refine ⟨?_, hw.2.step (Sys.kept_of_reachable hw.1).keys hs⟩
      rcases sys_step hs with he | ⟨tx, hs⟩
      · exact he ▸ hw.1
      · exact hw.1.step hs
  exact hboth.2

end Calls

/-! ## Requests for stored events -/

section Stored

variable {db : Store} {request : EventRequest} {service : Service} {eventId : Uuid} {row : ErrorEvent}

/-- The rows of a request for a stored event: its service is active, its key and id are those of the event. -/
structure EventRequest.For (request : EventRequest) (db : Store) (service : Service) (row : ErrorEvent) : Prop where
  key : request.event.getStr "serviceKey" = .ok service.key
  eventId : eventIdOf request.event = .ok row.eventId
  listed : service ∈ db.services.rows
  active : service.active = true
  stored : row ∈ db.errorEvents.rows
  same : row.serviceId = service.id

theorem EventRequest.For.serviceByKey (h : request.For db service row)
    (hn : (db.services.rows.map Service.key).Nodup) :
    IncidentRepository.serviceByKey db service.key true = some service := by
  refine Table.first_eq_of_unique h.listed (by simp [h.active]) fun s hs hp => ?_
  simp only [Bool.and_eq_true, decide_eq_true_eq] at hp
  exact List.inj_on_of_nodup_map hn hs h.listed hp.1

theorem EventRequest.For.serviceById (h : request.For db service row) :
    IncidentRepository.serviceById db service.id = some service := by
  refine Table.first_eq_of_unique h.listed (by simp) fun s hs hp => ?_
  exact Table.eq_of_key hs h.listed (of_decide_eq_true hp)

theorem EventRequest.For.eventByIdentity (h : request.For db service row) (hg : db.Grouped) :
    IncidentRepository.eventByIdentity db service.id row.eventId = some row := by
  refine Table.first_eq_of_unique h.stored (by simp [h.same]) fun e he hp => ?_
  simp only [Bool.and_eq_true, decide_eq_true_eq] at hp
  exact hg.events e he row h.stored (hp.1.trans h.same.symm) hp.2

/-- Both transactions of `ingest` answer with the look-up of the event, whatever Git has answered. -/
theorem EventRequest.For.answers (h : request.For db service row)
    (hn : (db.services.rows.map Service.key).Nodup) {a : Except Exn Receipt}
    (ha : duplicate db service.id row.eventId request.checksum = a.map some) :
    ingestLookup request db = a.map .inl ∧ ∀ env intake sha, intake.serviceId = service.id →
      intake.eventId = row.eventId → commit (ingestResolved env request intake sha db) db = (a, db) := by
  refine ⟨?_, fun env intake sha hs he => ?_⟩
  · unfold ingestLookup
    rw [h.eventId, h.key]
    simp only [bind, Except.bind, h.serviceByKey hn, ha]
    cases a <;> rfl
  · unfold ingestResolved
    rw [hs, h.serviceById]
    simp only [h.active, Bool.true_eq_false, if_false, bind, Except.bind, he, ha]
    cases a <;> rfl

/-- The incident of a stored event. -/
theorem EventRequest.For.incident (h : request.For db service row) (hg : db.Grouped) :
    ∃ inc, IncidentRepository.incidentForEvent db row.id = some inc := by
  obtain ⟨o, ⟨ho, hoe⟩, -⟩ := hg.occurs row h.stored
  obtain ⟨-, -, inc, hi, -, hoi, -⟩ := hg.attached o ho
  cases hf : IncidentRepository.incidentForEvent db row.id with
  | some inc => exact ⟨inc, rfl⟩
  | none =>
    refine absurd ?_ (Table.first_eq_none.mp hf inc hi)
    exact List.any_eq_true.mpr ⟨o, ho, by simp [hoi, hoe]⟩

end Stored

/-- An incident has exactly one ANALYZE job. -/
theorem Dossier.Ok.analyze_job {d : Dossier} (hd : d.Ok) {inc : Incident} (hi : d.incident = some inc) :
    ∃! j, j ∈ d.jobs ∧ j.type = .analyze := by
  have one : ∀ {ja : Job}, ja.type = .analyze → ∃! j, j ∈ [ja] ∧ j.type = .analyze := by
    intro ja ht
    refine ⟨ja, ⟨List.mem_singleton_self ja, ht⟩, ?_⟩
    rintro j ⟨hj, -⟩
    exact List.mem_singleton.mp hj
  have two : ∀ {ja jp : Job}, ja.type = .analyze → jp.type = .patch → ∃! j, j ∈ [ja, jp] ∧ j.type = .analyze := by
    intro ja jp ht htp
    refine ⟨ja, ⟨List.mem_cons_self, ht⟩, ?_⟩
    rintro j ⟨hj, htj⟩
    rcases List.mem_pair.mp hj with rfl | rfl
    · rfl
    · cases htp.symm.trans htj
  cases hd with
  | absent => cases hi
  | received _ _ ha | analyzing _ _ ha | analyzed _ _ _ ha => exact one ha.type
  | patching _ ha _ _ _ _ _ hj | patched _ _ _ _ ha _ _ _ _ _ hj => exact two ha.type hj.type

namespace Calls

/-- **Idempotency and grouping of intake**, however calls of `ingest` interleave with each other and with workers,
approvals and configuration. -/
theorem receipts {w : Calls IngestCall} (h : ingestMachine.Reachable w) :
    (∀ a ∈ w.sys.db.errorEvents.rows, ∀ b ∈ w.sys.db.errorEvents.rows,
      a.serviceId = b.serviceId → a.eventId = b.eventId → a = b) ∧
    (∀ e ∈ w.sys.db.errorEvents.rows, ∃! o, o ∈ w.sys.db.occurrences.rows ∧ o.errorEventId = e.id) ∧
    (∀ inc ∈ w.sys.db.incidents.rows,
      inc.occurrenceCount = (w.sys.db.occurrences.select fun o => o.incidentId = inc.id).length ∧
      (∀ o ∈ w.sys.db.occurrences.rows, o.incidentId = inc.id → ∃ e ∈ w.sys.db.errorEvents.rows,
        e.id = o.errorEventId ∧ e.serviceId = inc.serviceId ∧
          e.normalizedPayload.getStr "fingerprint" = .ok inc.fingerprint) ∧
      (∃ o ∈ w.sys.db.occurrences.rows, o.incidentId = inc.id ∧ o.errorEventId = inc.firstErrorEventId) ∧
      ∃! j, j ∈ w.sys.db.jobs.rows ∧ j.incidentId = inc.id ∧ j.type = .analyze) ∧
    (∀ a ∈ w.sys.db.incidents.rows, ∀ b ∈ w.sys.db.incidents.rows, a.state.isOpen = true → b.state.isOpen = true →
      a.serviceId = b.serviceId → a.fingerprint = b.fingerprint → a.baseCommitSha = b.baseCommitSha → a = b) ∧
    (∀ k k' request request' r r', w.call k = .answered request (.ok r) → w.call k' = .answered request' (.ok r') →
      request.event.getStr "serviceKey" = request'.event.getStr "serviceKey" → r.eventId = r'.eventId →
      r.incidentId = r'.incidentId ∧ (r.duplicate = false → r'.duplicate = false → k = k')) ∧
    (∀ request service row, request.For w.sys.db service row →
      (row.payloadChecksum ≠ request.checksum → ∃ e,
        e = aehError 409 "AEH-EVENT-409-001" "eventId was already used with another payload" ∧
        ingestLookup request w.sys.db = .error e ∧ ∀ env intake sha, intake.serviceId = service.id →
          intake.eventId = row.eventId →
          commit (ingestResolved env request intake sha w.sys.db) w.sys.db = (.error e, w.sys.db)) ∧
      (row.payloadChecksum = request.checksum → ∃ r : Receipt, r.eventId = row.eventId ∧
        ingestLookup request w.sys.db = .ok (.inl r) ∧ ∀ env intake sha, intake.serviceId = service.id →
          intake.eventId = row.eventId →
          commit (ingestResolved env request intake sha w.sys.db) w.sys.db = (.ok r, w.sys.db))) := by
  have hreach := sys_reachable h
  obtain ⟨hg, hkeys⟩ := Sys.kept_of_reachable hreach
  have hsettled := settled_of_reachable h
  refine ⟨hg.events, hg.occurs, fun inc hi => ⟨hg.counted inc hi, fun o ho hoi => ?_, hg.first inc hi, ?_⟩,
    fun a ha b hb hoa hob h1 h2 h3 => ?_, fun k k' request request' r r' hk hk' hkey he => ⟨?_, ?_⟩,
    fun request service row hf => ⟨fun hc => ?_, fun hc => ?_⟩⟩
  · obtain ⟨e, he, inc', hi', h1, h2, h3, h4⟩ := hg.attached o ho
    obtain rfl := Table.eq_of_key hi' hi (h2.trans hoi)
    exact ⟨e, he, h1, h3, h4⟩
  · have hd := (Sys.inv_of_reachable hreach).ok inc.id
    simpa [Store.mem_dossier_jobs, and_assoc] using hd.analyze_job (Table.get_self hi)
  · by_contra hne
    have hid : a.id ≠ b.id := fun hid => hne (Table.eq_of_key ha hb hid)
    have hno := Sys.openUnique_of_reachable hreach a ha b hb hid
    rw [Incident.clash_iff.mpr ⟨hoa, hob, h1, h2, h3⟩] at hno
    cases hno
  · have hs : ((.answered request (.ok r)) : IngestCall).Sound w.sys.db := hk ▸ hsettled.sound k
    have hs' : ((.answered request' (.ok r')) : IngestCall).Sound w.sys.db := hk' ▸ hsettled.sound k'
    obtain ⟨sid, hn, -, hrec⟩ := hs
    obtain ⟨sid', hn', -, hrec'⟩ := hs'
    obtain rfl := hn.unique hkeys hn' hkey
    exact hrec.unique hg (he ▸ hrec')
  · exact hsettled.first k k' request request' r r' hk hk' hkey he
  · refine ⟨_, rfl, hf.answers (a := .error _) hkeys ?_⟩
    unfold duplicate
    rw [hf.eventByIdentity hg]
    exact if_pos hc
  · obtain ⟨inc, hinc⟩ := hf.incident hg
    refine ⟨⟨row.eventId, inc.id, inc.state, true⟩, rfl, hf.answers (a := .ok _) hkeys ?_⟩
    unfold duplicate
    rw [hf.eventByIdentity hg]
    simp only [hc, ne_eq, not_true_eq_false, if_false, hinc]
    rfl

/-- The sample event as a request names it. -/
def sampleRequest : EventRequest :=
  { Sample.request with
    event := .obj [(lit "serviceKey", .str (lit "api")), (lit "eventId", .str (lit "00000000-0000-0000-0000-000000000007")),
      (lit "occurredAt", .str (lit "2026-01-01T00:00:00Z"))] }

/-- The event is received by a call whose first try conflicts; a second call replays it. -/
theorem receipts_sample : ∃ w r r', ingestMachine.Reachable w ∧ w.call 0 = .answered sampleRequest (.ok r) ∧
    w.call 1 = .answered sampleRequest (.ok r') ∧ r.duplicate = false ∧ r'.duplicate = true ∧
    r.incidentId = r'.incidentId := by
  let w₀ : Calls IngestCall := ⟨Sample.start, fun _ => .waiting⟩
  have h₀ : ingestMachine.Reachable w₀ := .of_init ⟨⟨_, by decide, rfl⟩, fun _ => rfl⟩
  have h₁ := h₀.step (show ingestMachine.step _ (.lookup 0 sampleRequest) _ from ⟨rfl, rfl⟩)
  have h₂ := h₁.step (show ingestMachine.step _ (.resolve 0 Sample.settings Sample.fs fun _ _ _ => .ok Sample.sha) _ from
    ⟨sampleRequest, Sample.intake, rfl, rfl⟩)
  have h₃ := h₂.step (show ingestMachine.step _ (.conflict 0) _ from ⟨sampleRequest, Sample.intake, Sample.sha, 2, rfl, rfl⟩)
  have h₄ := h₃.step (show ingestMachine.step _ (.write 0 (Sample.env 1)) _ from
    ⟨sampleRequest, Sample.intake, Sample.sha, 1, rfl, rfl⟩)
  have h₅ := h₄.step (show ingestMachine.step _ (.lookup 1 sampleRequest) _ from ⟨rfl, rfl⟩)
  refine ⟨_, ⟨7, 17, .received, false⟩, ⟨7, 17, .received, true⟩, h₅, rfl, rfl, rfl, rfl, ?_⟩
  exact ((receipts h₅).2.2.2.2.1 0 1 sampleRequest sampleRequest ⟨7, 17, .received, false⟩ ⟨7, 17, .received, true⟩
    rfl rfl rfl rfl).1

end Calls

end Aeh
