import Aeh.Contracts
import Aeh.Cursor
import Aeh.Lib.Keyset
import Aeh.Py.Calendar

/-!
# Listing — `list_incidents`, and what following its cursors yields

The query compares what the backend stores: SQLite compares texts, `created_at` as `CURRENT_TIMESTAMP` writes
it and a bound time with six more digits, and ids as 32 hexadecimal digits; PostgreSQL compares instants and
numbers.  So on SQLite a stored time is smaller than the same time bound, and the row of a cursor comes again.
-/

namespace Aeh

/-! ## What the backends compare -/

/-- A value of a column: a text is its characters, an instant or a number is one entry. -/
abbrev Cell := List ℤ

def textCell (s : PyStr) : Cell := s.map fun c => (c.val : ℤ)

namespace Backend

/-- A stored `created_at`. -/
def created : Backend → Datetime → Cell
  | sqlite, d => textCell d.secondsText
  | postgresql, d => [d.instant]

/-- A bound time in UTC. -/
def bound : Backend → Datetime → Cell
  | sqlite, d => textCell (d.secondsText ++ cp '.' :: Datetime.pad 6 d.microsecond)
  | postgresql, d => [d.instant]

/-- An id, stored or bound. -/
def idCell : Backend → Uuid → Cell
  | sqlite, id => textCell (Uuid.toHex 32 id.val)
  | postgresql, id => [(id.val : ℤ)]

end Backend

/-! ## `list_rows` -/

/-- The text of a state in the database. -/
def IncidentState.text : IncidentState → PyStr
  | received => lit "RECEIVED"
  | analyzing => lit "ANALYZING"
  | awaitingApproval => lit "AWAITING_APPROVAL"
  | patching => lit "PATCHING"
  | validating => lit "VALIDATING"
  | analysisFailed => lit "ANALYSIS_FAILED"
  | patchReady => lit "PATCH_READY"
  | patchFailed => lit "PATCH_FAILED"

/-- A filter that is set: the empty string is none. -/
def given (filter : Option PyStr) : Option PyStr := filter.filter fun s => s ≠ []

/-- A filter the driver can send. -/
def Backend.sends (backend : Backend) (filter : Option PyStr) : Bool := (given filter).all backend.sendsText

/-- The incidents joined with the keys of their services. -/
def joined (db : Store) : List (Incident × PyStr) :=
  db.incidents.rows.filterMap fun i => (db.services.get i.serviceId).map fun s => (i, s.key)

/-- `Service.key == service_key` and `Incident.state == state`, where they are given. -/
def filtered (serviceKey state : Option PyStr) (row : Incident × PyStr) : Bool :=
  ((given serviceKey).all fun key => row.2 = key) && ((given state).all fun s => row.1.state.text = s)

/-- The rows that match the filters. -/
def matching (db : Store) (serviceKey state : Option PyStr) : List (Incident × PyStr) :=
  (joined db).filter (filtered serviceKey state)

/-- The condition `before` adds, its time already bound. -/
def isBefore (backend : Backend) (before : Datetime × Uuid) (row : Incident × PyStr) : Bool :=
  backend.created row.1.createdAt < backend.bound before.1 ||
    (backend.created row.1.createdAt = backend.bound before.1 && backend.idCell row.1.id < backend.idCell before.2)

/-- What the rows are ordered by. -/
def rowKey (backend : Backend) (row : Incident × PyStr) : Cell ×ₗ Cell :=
  toLex (backend.created row.1.createdAt, backend.idCell row.1.id)

/-- `UtcDateTime.process_bind_param` of the time of `before`. -/
def bindBefore : Option (Datetime × Uuid) → Except Exn (Option (Datetime × Uuid))
  | none => .ok none
  | some (created, id) =>
    match created.toUtc with
    | some utc => .ok (some (utc, id))
    | none => .error .statementError

/-- `list_rows`. -/
def IncidentRepository.listRows (backend : Backend) (db : Store) (serviceKey state : Option PyStr)
    (before : Option (Datetime × Uuid)) (limit : ℕ) : Except Exn (List (Incident × PyStr)) :=
  if backend.sends serviceKey && backend.sends state then do
    let before ← bindBefore before
    let rows := (matching db serviceKey state).filter fun row => before.all fun b => isBefore backend b row
    .ok ((sortDesc (rowKey backend) rows).take limit)
  else .error .statementError

/-! ## `list_incidents` -/

structure IncidentSummary where
  id : Uuid
  serviceKey : PyStr
  state : IncidentState
  fingerprint : PyStr
  occurrenceCount : ℕ
  createdAt : PyStr

/-- `incident_summary` with the key of the service. -/
def incidentSummary (row : Incident × PyStr) : IncidentSummary :=
  { id := row.1.id
    serviceKey := row.2
    state := row.1.state
    fingerprint := row.1.fingerprint
    occurrenceCount := row.1.occurrenceCount
    createdAt := utc row.1.createdAt }

section List

variable (hmac : PyStr → Bytes → Bytes) (settings : Settings) (backend : Backend) (db : Store)
  (serviceKey state : Option PyStr)

/-- `_cursor_decode(…) if cursor else None`. -/
def beforeOf (cursor : Option PyStr) : Except Exn (Option (Datetime × Uuid)) :=
  match given cursor with
  | none => .ok none
  | some cursor => (cursorDecode hmac settings.cursorSecret cursor).map some

/-- `list_incidents`: the items and `nextCursor`. -/
def listIncidents (cursor : Option PyStr) (limit : ℤ) : Except Exn (List IncidentSummary × Option PyStr) :=
  if 1 ≤ limit ∧ limit ≤ 100 then do
    let before ← beforeOf hmac settings cursor
    let rows ← IncidentRepository.listRows backend db serviceKey state before (limit.toNat + 1)
    .ok ((rows.take limit.toNat).map incidentSummary,
      if limit.toNat < rows.length then
        rows[limit.toNat - 1]?.map fun row => cursorEncode hmac settings.cursorSecret row.1
      else none)
  else .error (aehError 400 "AEH-EVENT-400-001" "limit must be between 1 and 100")

end List

end Aeh
