import Aeh.Contracts
import Aeh.Grouping

/-!
# Redaction — no secret in a stored event, but for its fingerprint

`redact` leaves no secret anywhere in the document it returns, and nothing for a second `redact` to change.
`parse_event` then writes the fingerprint of the request back into it as it came, and this is the value `ingest`
stores on the incident too.
-/

namespace Aeh

open Json

/-! ## What `redact` returns -/

theorem redactItems_eq_map (items : List Json) : redactItems items = items.map redact := by
  induction items with
  | nil => rfl
  | cons item items ih => rw [redactItems, ih, List.map_cons]

/-- The value `redact` puts under a key. -/
def redactField (key : PyStr) (item : Json) : Json :=
  if SENSITIVE_KEY.search key then .str REDACTED else redact item

theorem redactFields_eq_map (fields : List (PyStr × Json)) :
    redactFields fields = fields.map fun kv => (kv.1, redactField kv.1 kv.2) := by
  induction fields with
  | nil => rfl
  | cons kv fields ih => rw [redactFields, ih, List.map_cons, redactField]

theorem lookup_redactFields (key : PyStr) (fields : List (PyStr × Json)) :
    lookup key (redactFields fields) = (lookup key fields).map (redactField key) := by
  induction fields with
  | nil => rfl
  | cons kv fields ih =>
    obtain ⟨k, v⟩ := kv
    by_cases hk : k = key
    · subst hk
      simp [redactFields, lookup, redactField]
    · simpa [redactFields, lookup, hk] using ih

/-- The values `redact` leaves in a document. -/
inductive Clean : Json → Prop
  | redacted (j : Json) : Clean (redact j)
  | replaced : Clean (.str REDACTED)

theorem Clean.field (key : PyStr) (item : Json) : Clean (redactField key item) := by
  unfold redactField
  split_ifs
  · exact .replaced
  · exact .redacted item

theorem Clean.str {s : PyStr} (h : Clean (.str s)) : ¬ SECRET.Occurs s := by
  generalize hj : Json.str s = j at h
  cases h with
  | redacted j' =>
    cases j' <;> simp only [redact, reduceCtorEq, Json.str.injEq] at hj
    rw [hj]
    exact not_occurs_scrub _ _
  | replaced =>
    obtain rfl : s = REDACTED := by simpa using hj
    rw [← Re.search_iff]
    decide

theorem Clean.arr {items : List Json} (h : Clean (.arr items)) {v : Json} (hv : v ∈ items) : Clean v := by
  generalize hj : Json.arr items = j at h
  cases h with
  | redacted j' =>
    cases j' <;> simp only [redact, reduceCtorEq, Json.arr.injEq] at hj
    rw [hj, redactItems_eq_map] at hv
    obtain ⟨item, -, rfl⟩ := List.mem_map.mp hv
    exact .redacted item
  | replaced => simp at hj

theorem Clean.obj {fields : List (PyStr × Json)} (h : Clean (.obj fields)) {key : PyStr} {v : Json}
    (hv : (key, v) ∈ fields) : ∃ item, v = redactField key item := by
  generalize hj : Json.obj fields = j at h
  cases h with
  | redacted j' =>
    cases j' <;> simp only [redact, reduceCtorEq, Json.obj.injEq] at hj
    rw [hj, redactFields_eq_map] at hv
    obtain ⟨⟨key', item⟩, -, h⟩ := List.mem_map.mp hv
    cases h
    exact ⟨item, rfl⟩
  | replaced => simp at hj

/-! ## What is asked of a stored event -/

/-- No secret is left in the document. -/
structure Json.Redacted (j : Json) : Prop where
  /-- No string at any depth has a match of `SECRET`. -/
  strings : ∀ s, Within j (.str s) → ¬ SECRET.Occurs s
  /-- Every value under a sensitive key is replaced. -/
  keys : ∀ fields key v, Within j (.obj fields) → (key, v) ∈ fields → SENSITIVE_KEY.Occurs key → v = .str REDACTED

/-- No secret is left in what `ingest` stores of the request. -/
structure EventRequest.Redacted (request : EventRequest) : Prop where
  payload : request.normalized.Redacted
  /-- A receipt adds no incident whose fingerprint has a secret. -/
  incident : ∀ env intake sha db r db', ingestResolved env request intake sha db = .ok (r, db') →
    ∀ inc ∈ db'.incidents.rows, (∃ old ∈ db.incidents.rows, old.id = inc.id) ∨ ¬ SECRET.Occurs inc.fingerprint

/-! ## The documents `redact` leaves as they are -/

theorem redactField_sensitive {key : PyStr} (item : Json) (h : SENSITIVE_KEY.Occurs key) :
    redactField key item = .str REDACTED := if_pos (Re.search_iff.mpr h)

theorem Clean.within {j v : Json} (h : Clean j) (hv : Within j v) : Clean v := by
  induction hv with
  | self => exact h
  | item _ hm ih => exact ih.arr hm
  | field _ hm ih =>
    obtain ⟨item, rfl⟩ := ih.obj hm
    exact .field _ item

/-- `redact` leaves no secret. -/
theorem redacted_redact (j : Json) : (redact j).Redacted := by
  constructor
  · intro s hs
    exact ((Clean.redacted j).within hs).str
  · intro fields key v hw hm hk
    obtain ⟨item, rfl⟩ := ((Clean.redacted j).within hw).obj hm
    exact redactField_sensitive item hk

theorem Json.Redacted.within {j v : Json} (h : j.Redacted) (hv : Within j v) : v.Redacted :=
  ⟨fun s hs => h.strings s (hv.trans hs), fun fields key w hw => h.keys fields key w (hv.trans hw)⟩

mutual

theorem redact_of_redacted (j : Json) (h : j.Redacted) : redact j = j := by
  match j with
  | .null | .bool b | .int n | .float bits => rfl
  | .str s =>
    rw [redact, Json.str.injEq, scrub_eq_iff]
    exact ⟨le_max_left _ _, h.strings s .self⟩
  | .arr items =>
    rw [redact, Json.arr.injEq]
    exact redactItems_of_redacted items fun item hm => h.within (Within.self.item hm)
  | .obj fields =>
    rw [redact, Json.obj.injEq]
    exact redactFields_of_redacted fields fun key v hm =>
      ⟨h.keys fields key v .self hm, h.within (Within.self.field hm)⟩

theorem redactItems_of_redacted (items : List Json) (h : ∀ item ∈ items, item.Redacted) :
    redactItems items = items := by
  match items with
  | [] => rfl
  | item :: items =>
    rw [redactItems, redact_of_redacted item (h item (List.mem_cons_self ..)),
      redactItems_of_redacted items fun i hi => h i (List.mem_cons_of_mem item hi)]

theorem redactFields_of_redacted (fields : List (PyStr × Json))
    (h : ∀ key v, (key, v) ∈ fields → (SENSITIVE_KEY.Occurs key → v = .str REDACTED) ∧ v.Redacted) :
    redactFields fields = fields := by
  match fields with
  | [] => rfl
  | (key, v) :: fields =>
    obtain ⟨hk, hv⟩ := h key v (List.mem_cons_self ..)
    rw [redactFields, redactFields_of_redacted fields fun k w hm => h k w (List.mem_cons_of_mem _ hm)]
    split_ifs with hs
    · rw [hk (Re.search_iff.mp hs)]
    · rw [redact_of_redacted v hv]

end

/-- `redact` leaves as they are exactly the documents without secrets. -/
theorem redact_eq_self_iff {j : Json} : redact j = j ↔ j.Redacted := by
  constructor
  · intro h
    have := redacted_redact j
    rwa [h] at this
  · exact redact_of_redacted j

/-- A second `redact` changes nothing. -/
theorem redact_redact (j : Json) : redact (redact j) = redact j := redact_eq_self_iff.mpr (redacted_redact j)

/-! ## The fingerprint is written after `redact` -/

/-- What `parse_event` returns as `normalized`. -/
def normalizedOf (fields : List (PyStr × Json)) (fingerprint : PyStr) : Json :=
  .obj (assign (lit "fingerprint") (.str fingerprint) (redactFields fields))

section Written

variable {fields : List (PyStr × Json)} {fingerprint : PyStr}

theorem within_normalizedOf {v : Json} (h : Within (normalizedOf fields fingerprint) v) :
    v = normalizedOf fields fingerprint ∨ v = .str fingerprint ∨ Clean v := by
  induction h with
  | self => exact Or.inl rfl
  | item _ hv ih =>
    rcases ih with h | h | h
    · cases h
    · cases h
    · exact Or.inr (Or.inr (h.arr hv))
  | @field fields' key v _ hv ih =>
    rcases ih with h | h | h
    · cases h
      rcases mem_assign hv with h | h
      · cases h
        exact Or.inr (Or.inl rfl)
      · rw [redactFields_eq_map] at h
        obtain ⟨⟨key', item⟩, -, h⟩ := List.mem_map.mp h
        cases h
        exact Or.inr (Or.inr (.field key' item))
    · cases h
    · obtain ⟨item, rfl⟩ := h.obj hv
      exact Or.inr (Or.inr (.field key item))

theorem fingerprint_within : Within (normalizedOf fields fingerprint) (.str fingerprint) :=
  .field .self (mem_of_lookup (lookup_assign_self (lit "fingerprint") (.str fingerprint) (redactFields fields)))

theorem normalizedOf_getStr : (normalizedOf fields fingerprint).getStr "fingerprint" = .ok fingerprint := by
  have h : (normalizedOf fields fingerprint).get? "fingerprint" = some (.str fingerprint) :=
    lookup_assign_self (lit "fingerprint") (.str fingerprint) (redactFields fields)
  unfold getStr
  rw [h]

/-- Every other field is stored redacted. -/
theorem normalizedOf_get? {key : String} (h : lit key ≠ lit "fingerprint") :
    (normalizedOf fields fingerprint).get? key = ((Json.obj fields).get? key).map (redactField (lit key)) := by
  show lookup (lit key) (assign (lit "fingerprint") _ (redactFields fields)) = (lookup (lit key) fields).map _
  rw [lookup_assign_ne _ _ h, lookup_redactFields]

theorem fingerprint_not_sensitive : ¬ SENSITIVE_KEY.Occurs (lit "fingerprint") := by
  rw [← Re.search_iff]
  decide

theorem normalizedOf_keys {fields' : List (PyStr × Json)} {key : PyStr} {v : Json}
    (h : Within (normalizedOf fields fingerprint) (.obj fields')) (hv : (key, v) ∈ fields')
    (hk : SENSITIVE_KEY.Occurs key) : v = .str REDACTED := by
  rcases within_normalizedOf h with h | h | h
  · cases h
    rcases mem_assign hv with h | h
    · cases h
      exact absurd hk fingerprint_not_sensitive
    · rw [redactFields_eq_map] at h
      obtain ⟨⟨key', item⟩, -, h⟩ := List.mem_map.mp h
      cases h
      exact redactField_sensitive item hk
  · cases h
  · obtain ⟨item, rfl⟩ := h.obj hv
    exact redactField_sensitive item hk

/-- The payload is free of secrets iff the fingerprint is. -/
theorem normalizedOf_redacted : (normalizedOf fields fingerprint).Redacted ↔ ¬ SECRET.Occurs fingerprint := by
  constructor
  · intro h
    exact h.strings fingerprint fingerprint_within
  · intro h
    refine ⟨fun s hs => ?_, fun _ _ _ => normalizedOf_keys⟩
    rcases within_normalizedOf hs with h' | h' | h'
    · cases h'
    · cases h'
      exact h
    · exact h'.str

end Written

/-- The incident a receipt adds has the fingerprint of the normalized payload. -/
theorem ingestResolved_fingerprint {env : Env} {request : EventRequest} {intake : Intake} {sha : PyStr}
    {db db' : Store} {r : Receipt} (h : ingestResolved env request intake sha db = .ok (r, db')) {inc : Incident}
    (hi : inc ∈ db'.incidents.rows) :
    (∃ old ∈ db.incidents.rows, old.id = inc.id) ∨ request.normalized.getStr "fingerprint" = .ok inc.fingerprint := by
  obtain ⟨service, -, -, ⟨-, rfl⟩ | ⟨occ, inc', hr, -⟩⟩ := ingestResolved_receives h
  · exact Or.inl ⟨inc, hi, rfl⟩
  · rcases (hr.incidents inc).mp hi with rfl | ⟨hi, -⟩
    · exact Or.inr hr.fingerprint
    · exact Or.inl ⟨inc, hi, rfl⟩

/-! ## `parse_event` -/

section Parse

variable {libs : Libraries} {raw : Bytes} {idempotencyKey : Option PyStr} {request : EventRequest}

theorem fingerprintOf_ok {event : Json} {fingerprint : PyStr} (h : fingerprintOf libs event = .ok fingerprint) :
    ∃ s, event.get? "fingerprint" = some (.str s) ∧ fingerprint = libs.nfc (strip s) := by
  obtain ⟨s, hs, h⟩ := bind_eq_ok.mp h
  dsimp only at h
  split_ifs at h
  cases h
  refine ⟨s, ?_, rfl⟩
  unfold getStr at hs
  split at hs
  · rename_i t ht
    cases hs
    exact ht
  · cases hs
  · cases hs

/-- What `parse_event` returns for a body it accepts. -/
theorem parseEvent_ok (h : parseEvent libs raw idempotencyKey = .ok request) :
    ∃ fields s, loadEvent libs raw = .ok (.obj fields) ∧ (Json.obj fields).get? "fingerprint" = some (.str s) ∧
      request.event = .obj fields ∧ request.normalized = normalizedOf fields (libs.nfc (strip s)) ∧
      checkReproductionData (request.event.get? "reproductionData") = .ok () := by
  unfold parseEvent at h
  split_ifs at h
  obtain ⟨event, hl, h⟩ := bind_eq_ok.mp h
  split at h
  · rename_i fields
    obtain ⟨_, -, h⟩ := bind_eq_ok.mp h
    obtain ⟨_, -, h⟩ := bind_eq_ok.mp h
    obtain ⟨fingerprint, hf, h⟩ := bind_eq_ok.mp h
    obtain ⟨_, hc, h⟩ := bind_eq_ok.mp h
    obtain ⟨checksum, -, h⟩ := bind_eq_ok.mp h
    cases h
    obtain ⟨s, hs, rfl⟩ := fingerprintOf_ok hf
    exact ⟨fields, s, hl, hs, rfl, rfl, hc⟩
  · cases h

/-- **What is stored of an accepted event is free of secrets iff its fingerprint, stripped and normalized,
is.** -/
theorem parseEvent_redacted (h : parseEvent libs raw idempotencyKey = .ok request) :
    ∃ s, request.event.get? "fingerprint" = some (.str s) ∧
      (request.Redacted ↔ ¬ SECRET.Occurs (libs.nfc (strip s))) := by
  obtain ⟨fields, s, -, hs, he, hn, -⟩ := parseEvent_ok h
  refine ⟨s, by rw [he]; exact hs, ?_⟩
  constructor
  · intro hr
    have hp := hr.payload
    rw [hn] at hp
    exact normalizedOf_redacted.mp hp
  · intro hf
    refine ⟨by rw [hn]; exact normalizedOf_redacted.mpr hf, ?_⟩
    intro env intake sha db r db' hi inc hinc
    refine (ingestResolved_fingerprint hi hinc).imp id fun hfp => ?_
    rw [hn, normalizedOf_getStr] at hfp
    rw [← Except.ok.inj hfp]
    exact hf

end Parse

/-! An event the schema accepts, with a secret for its fingerprint. -/

namespace Leak

def fieldsOf (fingerprint : String) : List (PyStr × Json) :=
  [(lit "environment", .str (lit "test")), (lit "eventId", .str (lit "6f9619ff-8b86-4011-b42d-00c04fc964ff")),
    (lit "fingerprint", .str (lit fingerprint)), (lit "message", .str (lit "boom")),
    (lit "occurredAt", .str (lit "2026-01-01T00:00:00Z")), (lit "serviceKey", .str (lit "shop")),
    (lit "severity", .str (lit "error")), (lit "specVersion", .str (lit "1.0")), (lit "title", .str (lit "boom"))]

/-- The body of a request, in canonical form already. -/
def rawOf (fingerprint : String) : Bytes :=
  (lit ("\x7b\"environment\":\"test\",\"eventId\":\"6f9619ff-8b86-4011-b42d-00c04fc964ff\"," ++
    "\"fingerprint\":\"" ++ fingerprint ++ "\",\"message\":\"boom\",\"occurredAt\":\"2026-01-01T00:00:00Z\"," ++
    "\"serviceKey\":\"shop\",\"severity\":\"error\",\"specVersion\":\"1.0\",\"title\":\"boom\"\x7d")).map
    fun c => UInt8.ofNat c.val

/-- What the libraries do with this body. -/
def libsOf (fingerprint sha256 : String) : Libraries where
  loads hook _ := hook (fieldsOf fingerprint)
  iterErrors _ := []
  nfc s := s
  dumps _ := some (rawOf fingerprint)
  sha256 _ := sha256

def fields : List (PyStr × Json) := fieldsOf "password=hunter2"

def raw : Bytes := rawOf "password=hunter2"

def libs : Libraries := libsOf "password=hunter2" "023f02a48d23a76d5f88d98d5681a3de9e9a6728fc083b55f18e853818b46eb9"

/-- The libraries on a body without a secret. -/
def plain : Libraries := libsOf "boom" "748ce9cb81c861a657ff650d472857cf9832669ac7e384a05b2f500c94ccba1a"

def key : PyStr := lit "6f9619ff-8b86-4011-b42d-00c04fc964ff"

theorem exists_ok {libs : Libraries} {raw : Bytes} (h : (parseEvent libs raw (some key)).isOk = true) :
    ∃ request, parseEvent libs raw (some key) = .ok request := by
  cases hp : parseEvent libs raw (some key) with
  | ok request => exact ⟨request, rfl⟩
  | error e =>
    rw [hp] at h
    cases h

theorem accepted : ∃ request, parseEvent libs raw (some key) = .ok request := exists_ok (by decide +kernel)

theorem fingerprint_secret : SECRET.Occurs (strip (lit "password=hunter2")) := by
  rw [← Re.search_iff]
  decide

/-- What is stored of the other body is free of secrets. -/
theorem parseEvent_redacted_sample : ∃ request, parseEvent plain (rawOf "boom") (some key) = .ok request ∧
    request.Redacted := by
  obtain ⟨request, h⟩ := @exists_ok plain (rawOf "boom") (by decide +kernel)
  obtain ⟨s, hs, hiff⟩ := parseEvent_redacted h
  refine ⟨request, h, hiff.mpr ?_⟩
  obtain ⟨fields', _, hl, -, he, -, -⟩ := parseEvent_ok h
  have hf : loadEvent plain (rawOf "boom") = .ok (.obj (fieldsOf "boom")) := rfl
  rw [hf] at hl
  cases hl
  rw [he] at hs
  have hst : (Json.obj (fieldsOf "boom")).get? "fingerprint" = some (.str (lit "boom")) := rfl
  rw [hst] at hs
  cases hs
  show ¬ SECRET.Occurs (strip (lit "boom"))
  rw [← Re.search_iff]
  decide

/-- **The stored payload of this request has the secret in it.** -/
theorem parseEvent_not_redacted : ∃ request, parseEvent libs raw (some key) = .ok request ∧
    ¬ request.normalized.Redacted := by
  obtain ⟨request, h⟩ := accepted
  refine ⟨request, h, fun hr => ?_⟩
  obtain ⟨fields', s, hl, hs, -, hn, -⟩ := parseEvent_ok h
  have hf : loadEvent libs raw = .ok (.obj fields) := rfl
  rw [hf] at hl
  cases hl
  have hst : (Json.obj fields).get? "fingerprint" = some (.str (lit "password=hunter2")) := rfl
  rw [hst] at hs
  cases hs
  rw [hn, normalizedOf_redacted] at hr
  exact hr fingerprint_secret

end Leak

end Aeh
