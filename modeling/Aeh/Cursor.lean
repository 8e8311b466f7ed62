import Aeh.Py.Bytes
import Aeh.Py.Isoformat
import Aeh.Db

/-!
# Cursor — the signed cursors of `aeh/service.py`

`hmac.digest(secret.encode(), data, "sha256")` is the parameter `hmac`.  A cursor joins the time, the id and
the signature with one separator; the last one is found from the right and the first from the left, which
works because neither the signature nor the time contains it.
-/

namespace Aeh

/-! ## Splitting at one separator -/

section Split

variable {α : Type} [DecidableEq α]

/-- `s.split(sep, 1)` as a pair; `none` where there is no separator to unpack at. -/
def splitOnce (sep : α) : List α → Option (List α × List α)
  | [] => none
  | c :: s => if c = sep then some ([], s) else (splitOnce sep s).map fun (a, b) => (c :: a, b)

/-- `s.rsplit(sep, 1)` as a pair. -/
def rsplitOnce (sep : α) (s : List α) : Option (List α × List α) :=
  (splitOnce sep s.reverse).map fun (a, b) => (b.reverse, a.reverse)

theorem splitOnce_append {sep : α} {a : List α} (h : sep ∉ a) (b : List α) :
    splitOnce sep (a ++ sep :: b) = some (a, b) := by
  induction a with
  | nil => exact if_pos rfl
  | cons c a ih =>
    rw [List.mem_cons, not_or] at h
    rw [List.cons_append, splitOnce, if_neg (Ne.symm h.1), ih h.2]
    rfl

theorem splitOnce_eq_some {sep : α} {s a b : List α} : splitOnce sep s = some (a, b) ↔ s = a ++ sep :: b ∧ sep ∉ a := by
  constructor
  · intro h
    induction s generalizing a with
    | nil => cases h
    | cons c s ih =>
      unfold splitOnce at h
      by_cases hc : c = sep
      · rw [if_pos hc] at h
        cases h
        exact ⟨by rw [hc]; rfl, List.not_mem_nil⟩
      · rw [if_neg hc] at h
        obtain ⟨⟨a', b'⟩, h', he⟩ := Option.map_eq_some_iff.mp h
        cases he
        obtain ⟨rfl, ha⟩ := ih h'
        exact ⟨rfl, by simp [ha, Ne.symm hc]⟩
  · rintro ⟨rfl, ha⟩
    exact splitOnce_append ha b

theorem rsplitOnce_append {sep : α} (a : List α) {b : List α} (h : sep ∉ b) :
    rsplitOnce sep (a ++ sep :: b) = some (a, b) := by
  have hr : (a ++ sep :: b).reverse = b.reverse ++ sep :: a.reverse := by simp
  rw [rsplitOnce, hr, splitOnce_append (by rwa [List.mem_reverse])]
  simp

theorem rsplitOnce_eq_some {sep : α} {s a b : List α} :
    rsplitOnce sep s = some (a, b) ↔ s = a ++ sep :: b ∧ sep ∉ b := by
  constructor
  · intro h
    obtain ⟨⟨x, y⟩, hr, he⟩ := Option.map_eq_some_iff.mp h
    cases he
    obtain ⟨hs, hx⟩ := splitOnce_eq_some.mp hr
    exact ⟨by rw [← List.reverse_reverse s, hs]; simp, by rwa [List.mem_reverse]⟩
  · rintro ⟨rfl, hb⟩
    exact rsplitOnce_append a hb

end Split

/-! ## `_cursor_encode` and `_cursor_decode` -/

section Cursor

variable (hmac : PyStr → Bytes → Bytes) (secret : PyStr)

/-- `b.hex()`. -/
def bytesHex (b : Bytes) : PyStr := b.flatMap fun x => Uuid.toHex 2 x.toNat

/-- `hmac.digest(secret.encode(), data, "sha256")[:16].hex().encode()`. -/
def cursorTag (data : Bytes) : Bytes := Utf8.encode (bytesHex ((hmac secret data).take 16))

/-- `f"{row.created_at.isoformat()}|{row.id}"`. -/
def cursorText (created : Datetime) (id : Uuid) : PyStr := created.isoformat ++ cp '|' :: id.str

/-- `b"|"`. -/
def bar : UInt8 := 0x7C

/-- `_cursor_encode`. -/
def cursorEncode (row : Incident) : PyStr :=
  let data := Utf8.encode (cursorText row.createdAt row.id)
  Base64.rstrip (Base64.encode (data ++ bar :: cursorTag hmac secret data))

/-- The body of `_cursor_decode`; `none` is a `ValueError` or a `UnicodeError`. -/
def cursorRead (cursor : PyStr) : Option (Datetime × Uuid) := do
  let raw ← Base64.decode (Base64.repad cursor)
  let (data, signature) ← rsplitOnce bar raw
  if cursorTag hmac secret data ≠ signature then none
  else
    let text ← Utf8.decode data
    let (timestamp, rowId) ← splitOnce (cp '|') text
    let created ← Datetime.fromisoformat timestamp
    let id ← Uuid.parse rowId
    some (created, id)

/-- `_cursor_decode`. -/
def cursorDecode (cursor : PyStr) : Except Exn (Datetime × Uuid) :=
  match cursorRead hmac secret cursor with
  | some before => .ok before
  | none => .error (aehError 400 "AEH-EVENT-400-001" "Invalid cursor")

/-- The cursor spells a time and an id and carries the tag the secret gives them. -/
structure Signed (cursor : PyStr) (data : Bytes) (before : Datetime × Uuid) : Prop where
  raw : Base64.decode (Base64.repad cursor) = some (data ++ bar :: cursorTag hmac secret data)
  text : ∃ timestamp rowId, Utf8.decode data = some (timestamp ++ cp '|' :: rowId) ∧ cp '|' ∉ timestamp ∧
    Datetime.fromisoformat timestamp = some before.1 ∧ Uuid.parse rowId = some before.2

/-! ## A cursor is read back as the row it was made of -/

variable {hmac secret} {created : Datetime}

theorem bar_not_mem_isoformat (ho : created.offset = some 0) : cp '|' ∉ created.isoformat := by
  intro h
  rcases Datetime.mem_isoformat ho h with h | h
  · exact absurd h (by decide)
  · exact absurd h (by decide)

theorem cursorText_ascii (ho : created.offset = some 0) (id : Uuid) : ∀ c ∈ cursorText created id, c.val < 0x80 := by
  have hp : (Datetime.punctuation.all fun c => c.val < 0x80) = true := by decide
  intro c hc
  rcases List.mem_append.mp hc with hc | hc
  · rcases Datetime.mem_isoformat ho hc with h | h
    · simp only [isDigit, Bool.and_eq_true, decide_eq_true_eq] at h
      omega
    · exact of_decide_eq_true (List.all_eq_true.mp hp c h)
  · rcases List.mem_cons.mp hc with rfl | hc
    · decide
    · rcases Uuid.mem_str hc with h | rfl
      · have := Uuid.isHexDigit_iff.mp h
        omega
      · decide

/-- A signature is hexadecimal. -/
theorem bar_not_mem_cursorTag (data : Bytes) : bar ∉ cursorTag hmac secret data := by
  intro h
  obtain ⟨c, hc, hb⟩ := List.mem_flatMap.mp h
  obtain ⟨x, -, hx⟩ := List.mem_flatMap.mp hc
  have hr := Uuid.isHexDigit_iff.mp (Uuid.isHexDigit_of_mem hx)
  rw [Utf8.encodeChar_ascii (by omega), List.mem_singleton] at hb
  have hv := congrArg UInt8.toNat hb
  rw [UInt8.toNat_ofNat', show bar.toNat = 0x7C from rfl] at hv
  omega

theorem cursorRead_cursorEncode {row : Incident} (hd : row.createdAt.Valid) (ho : row.createdAt.offset = some 0) :
    cursorRead hmac secret (cursorEncode hmac secret row) = some (row.createdAt, row.id) := by
  have hraw : Base64.decode (Base64.repad (cursorEncode hmac secret row)) = _ := Base64.decode_repad_rstrip _
  have htext := Utf8.decode_encode_ascii (cursorText_ascii ho row.id)
  have hsplit := splitOnce_append (bar_not_mem_isoformat ho) row.id.str
  simp only [cursorRead, hraw, rsplitOnce_append _ (bar_not_mem_cursorTag _), Option.bind_eq_bind, Option.bind_some,
    ne_eq, not_true_eq_false, if_false, htext]
  rw [cursorText, hsplit]
  simp only [Option.bind_some, Datetime.fromisoformat_isoformat hd ho, Uuid.parse_str]

/-- **`_cursor_decode` inverts `_cursor_encode`.** -/
theorem cursorDecode_cursorEncode {row : Incident} (hd : row.createdAt.Valid)
    (ho : row.createdAt.offset = some 0) :
    cursorDecode hmac secret (cursorEncode hmac secret row) = .ok (row.createdAt, row.id) := by
  rw [cursorDecode, cursorRead_cursorEncode hd ho]

/-! ## What else is accepted -/

theorem cursorRead_eq_some {cursor : PyStr} {before : Datetime × Uuid} :
    cursorRead hmac secret cursor = some before ↔ ∃ data, Signed hmac secret cursor data before := by
  constructor
  · intro h
    obtain ⟨raw, hraw, hread⟩ := Option.bind_eq_some_iff.mp h
    obtain ⟨⟨data, signature⟩, hr, hbody⟩ := Option.bind_eq_some_iff.mp hread
    obtain ⟨rfl, -⟩ := rsplitOnce_eq_some.mp hr
    dsimp only at hbody
    by_cases hs : cursorTag hmac secret data = signature
    · subst hs
      rw [if_neg (not_not_intro rfl)] at hbody
      obtain ⟨text, ht, hsplit⟩ := Option.bind_eq_some_iff.mp hbody
      obtain ⟨⟨timestamp, rowId⟩, hp, hparse⟩ := Option.bind_eq_some_iff.mp hsplit
      obtain ⟨rfl, hbar⟩ := splitOnce_eq_some.mp hp
      obtain ⟨created, hc, hrow⟩ := Option.bind_eq_some_iff.mp hparse
      obtain ⟨id, hi, he⟩ := Option.bind_eq_some_iff.mp hrow
      cases he
      exact ⟨data, hraw, timestamp, rowId, ht, hbar, hc, hi⟩
    · rw [if_pos hs] at hbody
      cases hbody
  · rintro ⟨data, hraw, timestamp, rowId, ht, hbar, hc, hi⟩
    simp only [cursorRead, hraw, rsplitOnce_append _ (bar_not_mem_cursorTag data), Option.bind_eq_bind,
      Option.bind_some, ne_eq, not_true_eq_false, if_false, ht, splitOnce_append hbar, hc, hi]

/-- **A cursor of any row is read back as the row, and any other text is refused with 400 unless it spells a time
and an id with the tag of the secret.** -/
theorem cursor_faithful (hmac : PyStr → Bytes → Bytes) (secret : PyStr) :
    (∀ row : Incident, row.createdAt.Valid → row.createdAt.offset = some 0 →
      cursorDecode hmac secret (cursorEncode hmac secret row) = .ok (row.createdAt, row.id)) ∧
    ∀ cursor, cursorDecode hmac secret cursor = .error (aehError 400 "AEH-EVENT-400-001" "Invalid cursor") ∨
      ∃ before data, cursorDecode hmac secret cursor = .ok before ∧ Signed hmac secret cursor data before := by
  refine ⟨fun row hd ho => cursorDecode_cursorEncode hd ho, fun cursor => ?_⟩
  cases h : cursorRead hmac secret cursor with
  | none => exact Or.inl (by rw [cursorDecode, h])
  | some before =>
    obtain ⟨data, hs⟩ := cursorRead_eq_some.mp h
    exact Or.inr ⟨before, data, by rw [cursorDecode, h], hs⟩

end Cursor

/-! The cursor of an incident of the first microsecond of 2026. -/

namespace Cursored

def row : Incident :=
  { id := 5, serviceId := 1, fingerprint := lit "f"
    repositoryPathSnapshot := lit "api", baseCommitSha := lit "0123456789abcdef0123456789abcdef01234567"
    firstErrorEventId := 2, createdAt := ⟨2026, 1, 1, 0, 0, 0, 1, some 0⟩ }

/-- The digest of its text under the default secret. -/
def hmac (_secret : PyStr) (_data : Bytes) : Bytes :=
  [0x97, 0x73, 0xec, 0xbc, 0x46, 0xc5, 0xd3, 0xaf, 0x8a, 0x95, 0xd7, 0x72, 0xb0, 0x81, 0xf3, 0x2c,
    0xa9, 0x26, 0xd5, 0xe6, 0xc3, 0x29, 0x15, 0x28, 0xfb, 0x23, 0xf6, 0xf6, 0x61, 0x18, 0xf8, 0x95]

def secret : PyStr := lit "local-dev-cursor-secret"

theorem cursor_faithful_sample :
    cursorDecode hmac secret (cursorEncode hmac secret row) = .ok (row.createdAt, row.id) :=
  (cursor_faithful hmac secret).1 row (by decide) rfl

end Cursored

end Aeh
