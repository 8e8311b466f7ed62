import Mathlib.Data.List.Lex
import Mathlib.Data.List.Sort
import Aeh.Py.Bytes
import Aeh.Service

/-!
# Contracts — `aeh/contracts.py`: reading an event

The libraries behind `parse_event` are the fields of `Libraries`: any of them will do here.  `Within` says
what lies in a document at any depth, and `redact` is compared with it.
-/

namespace Aeh

open Re

/-- `SENSITIVE_KEY`. -/
def SENSITIVE_KEY : Re CodePoint :=
  oneOfRe (wordI "authorization")
    [wordI "cookie", wordI "password", wordI "secret", wordI "token", apiKey, wordI "credential",
      .seq (wordI "private") (.seq (opt (oneOf "_-")) (wordI "key"))]

/-- One of `EVENT_VALIDATOR.iter_errors`, its path as text. -/
structure SchemaError where
  path : List PyStr
  message : PyStr

/-- What `contracts.py` imports. -/
structure Libraries where
  /-- `json.loads` with an `object_pairs_hook` and without non-finite numbers. -/
  loads : (List (PyStr × Json) → Except Exn Json) → Bytes → Except Exn Json
  /-- `EVENT_VALIDATOR.iter_errors`. -/
  iterErrors : Json → List SchemaError
  /-- `unicodedata.normalize("NFC", s)`. -/
  nfc : PyStr → PyStr
  /-- `rfc8785.dumps`, `none` where it raises. -/
  dumps : Json → Option Bytes
  /-- `hashlib.sha256(b).hexdigest()`. -/
  sha256 : Bytes → String

/-! ## `redact` -/

mutual

/-- `redact`. -/
def redact : Json → Json
  | .obj fields => .obj (redactFields fields)
  | .arr items => .arr (redactItems items)
  | .str s => .str (scrub s (max s.length 1))
  | .null => .null
  | .bool b => .bool b
  | .int n => .int n
  | .float bits => .float bits

def redactItems : List Json → List Json
  | [] => []
  | item :: items => redact item :: redactItems items

def redactFields : List (PyStr × Json) → List (PyStr × Json)
  | [] => []
  | (key, item) :: fields =>
    (key, if SENSITIVE_KEY.search key then .str REDACTED else redact item) :: redactFields fields

end

/-! ## `check_reproduction_data` -/

/-- The head of `visit`: the count with the node, within the limits. -/
def enter (depth count : ℕ) : Except Exn ℕ :=
  if Limits.reproductionDepth < depth ∨ Limits.reproductionValues < count + 1 then
    .error (aehError 422 "AEH-EVENT-422-001" "reproductionData exceeds depth or value limit")
  else .ok (count + 1)

/-- The check of a string. -/
def checkText (node : PyStr) (count : ℕ) : Except Exn ℕ :=
  if Limits.reproductionString < node.length ∨ scrub node 2048 ≠ node then
    .error (aehError 422 "AEH-EVENT-422-001" "reproductionData contains an oversized or sensitive value")
  else .ok count

mutual

/-- `visit`: the count after the node and all in it. -/
def visit (depth count : ℕ) : Json → Except Exn ℕ
  | .obj fields => do visitFields (depth + 1) (← enter depth count) fields
  | .arr items => do visitItems (depth + 1) (← enter depth count) items
  | .str node => do checkText node (← enter depth count)
  | _ => enter depth count

def visitItems (depth count : ℕ) : List Json → Except Exn ℕ
  | [] => .ok count
  | child :: items => do visitItems depth (← visit depth count child) items

def visitFields (depth count : ℕ) : List (PyStr × Json) → Except Exn ℕ
  | [] => .ok count
  | (key, child) :: fields =>
    if SENSITIVE_KEY.search key then
      .error (aehError 422 "AEH-EVENT-422-001" "reproductionData contains a sensitive field")
    else do visitFields depth (← visit depth count child) fields

end

/-- `check_reproduction_data`. -/
def checkReproductionData : Option Json → Except Exn Unit
  | none | some .null => .ok ()
  | some value => do
    let _ ← visit 0 0 value
    .ok ()

/-! ## `parse_event` -/

/-- `_unique_pairs`. -/
def uniquePairs (pairs : List (PyStr × Json)) : Except Exn Json :=
  if (pairs.map (·.1)).Nodup then .ok (.obj pairs)
  else .error (aehError 400 "AEH-EVENT-400-001" "JSON object has a duplicate key")

section Parse

variable (libs : Libraries)

/-- The call of `json.loads` with its handlers. -/
def loadEvent (raw : Bytes) : Except Exn Json :=
  match libs.loads uniquePairs raw with
  | .error (.valueError _) => .error (aehError 400 "AEH-EVENT-400-001" "Invalid JSON request body")
  | result => result

/-- `sorted(iter_errors(event), key=…)[0]`, if there is one. -/
def firstError (event : Json) : Option SchemaError :=
  ((libs.iterErrors event).insertionSort fun a b => a.path ≤ b.path).head?

def checkSchema (event : Json) : Except Exn Unit :=
  match firstError libs event with
  | some e => .error (.aeh 422 "AEH-EVENT-422-001" (scrub e.message 2048))
  | none => .ok ()

/-- The comparison of the header with `eventId`. -/
def checkIdempotencyKey (idempotencyKey : Option PyStr) (event : Json) : Except Exn Unit :=
  match Uuid.parse (idempotencyKey.getD []) with
  | none => .error (aehError 400 "AEH-EVENT-400-001" "Idempotency-Key must be a UUID")
  | some headerId => do
    let eventId ← eventIdOf event
    if Uuid.str headerId ≠ Uuid.str eventId then
      .error (aehError 400 "AEH-EVENT-400-001" "Idempotency-Key must match eventId")
    else .ok ()

/-- The fingerprint the event is grouped by. -/
def fingerprintOf (event : Json) : Except Exn PyStr := do
  let text ← event.getStr "fingerprint"
  let fingerprint := libs.nfc (strip text)
  if fingerprint = [] ∨ 200 < fingerprint.length then
    .error (aehError 422 "AEH-EVENT-422-001" "fingerprint is empty or too long")
  else .ok fingerprint

def checksumOf (event : Json) : Except Exn String :=
  match libs.dumps event with
  | some bytes => .ok (libs.sha256 bytes)
  | none => .error (aehError 422 "AEH-EVENT-422-001" "Event cannot be normalized as RFC 8785 JSON")

/-- `parse_event` of a `dict`. -/
def parseFields (idempotencyKey : Option PyStr) (fields : List (PyStr × Json)) : Except Exn EventRequest := do
  checkSchema libs (.obj fields)
  checkIdempotencyKey idempotencyKey (.obj fields)
  let fingerprint ← fingerprintOf libs (.obj fields)
  checkReproductionData ((Json.obj fields).get? "reproductionData")
  let checksum ← checksumOf libs (.obj fields)
  .ok
    { event := .obj fields
      checksum := checksum
      normalized := .obj (Json.assign (lit "fingerprint") (.str fingerprint) (redactFields fields)) }

/-- `parse_event`. -/
def parseEvent (raw : Bytes) (idempotencyKey : Option PyStr) : Except Exn EventRequest :=
  if Limits.bodyBytes < raw.length then .error (aehError 413 "AEH-EVENT-413-001" "Request body exceeds 256 KiB")
  else do
    match ← loadEvent libs raw with
    | .obj fields => parseFields libs idempotencyKey fields
    | _ => .error (aehError 422 "AEH-EVENT-422-001" "Event must be a JSON object")

end Parse

/-- `utc`: `value.isoformat().replace("+00:00", "Z")`. -/
def utc (value : Datetime) : PyStr := (word "+00:00").sub (lit "Z") value.isoformat

end Aeh
