import Aeh.Py.Bytes

/-!
# Url — `urllib.parse.urlencode` and `parse_qsl`

`quotePlus` writes the bytes of a text as letters, digits, `_.-~`, `+` for the space and `%XX`.  `unquote` reads a
run of ASCII characters back as bytes and decodes these; what `urlencode` has written `parseQsl` reads back.
-/

namespace Aeh

namespace Url

/-! ## Writing -/

/-- `_ALWAYS_SAFE`. -/
def alwaysSafe (b : UInt8) : Bool :=
  let n := b.toNat
  (0x30 ≤ n && n ≤ 0x39) || (0x41 ≤ n && n ≤ 0x5A) || (0x61 ≤ n && n ≤ 0x7A) || n == 0x5F || n == 0x2E || n == 0x2D ||
    n == 0x7E

/-- `chr(b)`. -/
def chr (b : UInt8) : CodePoint := Fin.ofNat _ b.toNat

/-- The digit of `%02X`. -/
def hexDigit (n : ℕ) : CodePoint := if n < 10 then Fin.ofNat _ (0x30 + n) else Fin.ofNat _ (0x41 + (n - 10))

/-- `_Quoter(safe)[b]`. -/
def quoteByte (safe : List UInt8) (b : UInt8) : PyStr :=
  if alwaysSafe b || safe.contains b then [chr b] else [cp '%', hexDigit (b.toNat / 16), hexDigit (b.toNat % 16)]

/-- `quote(s, safe)`; `none` is a `UnicodeEncodeError`. -/
def quote (safe : List UInt8) (s : PyStr) : Option PyStr :=
  if s.all Utf8.isScalar then some ((Utf8.encode s).flatMap (quoteByte safe)) else none

/-- `s.replace(a, b)` of single characters. -/
def replaceChar (a b : CodePoint) (s : PyStr) : PyStr := s.map fun c => if c = a then b else c

/-- `quote_plus(s)`. -/
def quotePlus (s : PyStr) : Option PyStr :=
  if cp ' ' ∈ s then (quote [0x20] s).map (replaceChar (cp ' ') (cp '+')) else quote [] s

/-- One entry of `urlencode`. -/
def entry (kv : PyStr × PyStr) : Option PyStr := do
  let k ← quotePlus kv.1
  let v ← quotePlus kv.2
  some (k ++ cp '=' :: v)

/-- `urlencode(query)`. -/
def urlencode (query : List (PyStr × PyStr)) : Option PyStr := (query.mapM entry).map (List.intercalate [cp '&'])

/-! ## Reading -/

def hexValue (b : UInt8) : Option ℕ :=
  let n := b.toNat
  if 0x30 ≤ n ∧ n ≤ 0x39 then some (n - 0x30)
  else if 0x41 ≤ n ∧ n ≤ 0x46 then some (n - 0x41 + 10)
  else if 0x61 ≤ n ∧ n ≤ 0x66 then some (n - 0x61 + 10)
  else none

/-- `_hextobyte`. -/
def hexToByte (h l : UInt8) : Option UInt8 := do
  let x ← hexValue h
  let y ← hexValue l
  some (UInt8.ofNat (16 * x + y))

/-- `unquote_to_bytes`: a `%` without two digits stays. -/
def unquoteToBytes : Bytes → Bytes
  | b :: h :: l :: rest =>
    match if b = 0x25 then hexToByte h l else none with
    | some x => x :: unquoteToBytes rest
    | none => b :: unquoteToBytes (h :: l :: rest)
  | bs => bs

/-- A run of ASCII characters, unquoted and decoded. -/
def unquoteRun (run : PyStr) : PyStr := Utf8.decodeReplace (unquoteToBytes (Utf8.encode run))

/-- `_generate_unquoted_parts` behind the characters `run` of an ASCII run. -/
def unquoteParts (run : PyStr) : PyStr → PyStr
  | [] => unquoteRun run
  | c :: s => if c.val < 0x80 then unquoteParts (run ++ [c]) s else unquoteRun run ++ c :: unquoteParts [] s

/-- `unquote(s, errors="replace")`. -/
def unquote (s : PyStr) : PyStr := if cp '%' ∈ s then unquoteParts [] s else s

/-- The outer parts of `s.partition(sep)`. -/
def partition (sep : CodePoint) : PyStr → PyStr × PyStr
  | [] => ([], [])
  | c :: s => if c = sep then ([], s) else ((c :: (partition sep s).1), (partition sep s).2)

/-- `_unquote(s.replace("+", " "))`. -/
def unquotePlus (s : PyStr) : PyStr := unquote (replaceChar (cp '+') (cp ' ') s)

/-- `parse_qsl(qs, keep_blank_values=True)`. -/
def parseQsl (qs : PyStr) : List (PyStr × PyStr) :=
  ((splitOn (cp '&') qs).filter fun nameValue => nameValue ≠ []).map fun nameValue =>
    let (name, value) := partition (cp '=') nameValue
    (unquotePlus name, unquotePlus value)

/-! ## Bytes -/

/-- What `quote_plus` writes for a byte. -/
def plusByte (b : UInt8) : PyStr := if b = 0x20 then [cp '+'] else quoteByte [] b

/-- What `parse_qsl` unquotes for it. -/
def spaceByte (b : UInt8) : PyStr := if b = 0x20 then [cp ' '] else quoteByte [] b

/-- A fact about each byte. -/
theorem forall_byte {P : UInt8 → Prop} (h : ∀ n : Fin 256, P (UInt8.ofNat n.val)) (b : UInt8) : P b := by
  have hb := h ⟨b.toNat, b.toNat_lt⟩
  rwa [ofNat_eq rfl] at hb

theorem replaceChar_quoteByte : ∀ b, replaceChar (cp ' ') (cp '+') (quoteByte [0x20] b) = plusByte b :=
  forall_byte (by decide +kernel)

theorem plusByte_of_ne {b : UInt8} (h : b ≠ 0x20) : plusByte b = quoteByte [] b := if_neg h

theorem replaceChar_plusByte : ∀ b, replaceChar (cp '+') (cp ' ') (plusByte b) = spaceByte b :=
  forall_byte (by decide +kernel)

/-- No separator is written for a byte. -/
theorem plusByte_clean : ∀ b, (plusByte b).all (fun c => c ≠ cp '&' && c ≠ cp '=') = true :=
  forall_byte (by decide +kernel)

theorem spaceByte_ascii : ∀ b, (spaceByte b).all (fun c => c.val < 0x80) = true := forall_byte (by decide +kernel)

/-- The byte of a digit. -/
def digitByte (n : ℕ) : UInt8 := UInt8.ofNat (hexDigit n).val

/-- A byte is written as itself, if it is no `%`, or as two digits that are read as it. -/
theorem encode_spaceByte : ∀ b, (b ≠ 0x25 ∧ Utf8.encode (spaceByte b) = [b]) ∨
    (hexToByte (digitByte (b.toNat / 16)) (digitByte (b.toNat % 16)) = some b ∧
      Utf8.encode (spaceByte b) = [0x25, digitByte (b.toNat / 16), digitByte (b.toNat % 16)]) :=
  forall_byte (by decide +kernel)

/-- A byte other than `%` stands for itself. -/
theorem unquoteToBytes_cons {b : UInt8} (hb : b ≠ 0x25) (rest : Bytes) :
    unquoteToBytes (b :: rest) = b :: unquoteToBytes rest := by
  match rest with
  | [] | [_] => rfl
  | h :: l :: rest => rw [unquoteToBytes, if_neg hb]

/-- Two digits behind a `%` stand for their byte. -/
theorem unquoteToBytes_digits {h l b : UInt8} (hx : hexToByte h l = some b) (rest : Bytes) :
    unquoteToBytes (0x25 :: h :: l :: rest) = b :: unquoteToBytes rest := by
  rw [unquoteToBytes, if_pos rfl, hx]

/-- **The bytes are read back.** -/
theorem unquoteToBytes_spaceByte (bs : Bytes) : unquoteToBytes (Utf8.encode (bs.flatMap spaceByte)) = bs := by
  induction bs with
  | nil => rfl
  | cons b bs ih =>
    rw [List.flatMap_cons, Utf8.encode, List.flatMap_append]
    show unquoteToBytes (Utf8.encode (spaceByte b) ++ Utf8.encode (bs.flatMap spaceByte)) = _
    rcases encode_spaceByte b with ⟨hb, he⟩ | ⟨hx, he⟩
    · rw [he, List.singleton_append, unquoteToBytes_cons hb, ih]
    · rw [he, List.cons_append, List.cons_append, List.cons_append, List.nil_append, unquoteToBytes_digits hx, ih]

/-! ## Texts -/

/-- A text of ASCII characters is one run. -/
theorem unquoteParts_ascii {s : PyStr} (h : ∀ c ∈ s, c.val < 0x80) (run : PyStr) :
    unquoteParts run s = unquoteRun (run ++ s) := by
  induction s generalizing run with
  | nil => rw [unquoteParts, List.append_nil]
  | cons c s ih =>
    rw [unquoteParts, if_pos (h c (List.mem_cons_self ..)), ih fun d hd => h d (List.mem_cons_of_mem _ hd),
      List.append_assoc, List.singleton_append]

/-- Without a `%` there is nothing to unquote. -/
theorem unquoteToBytes_plain {bs : Bytes} (h : 0x25 ∉ bs) : unquoteToBytes bs = bs := by
  induction bs with
  | nil => rfl
  | cons b bs ih =>
    rw [List.mem_cons, not_or] at h
    rw [unquoteToBytes_cons (Ne.symm h.1), ih h.2]

theorem mem_encode_ascii {s : PyStr} (h : ∀ c ∈ s, c.val < 0x80) {b : UInt8} :
    b ∈ Utf8.encode s ↔ ∃ c ∈ s, UInt8.ofNat c.val = b := by
  rw [Utf8.encode, List.mem_flatMap]
  refine exists_congr fun c => and_congr_right fun hc => ?_
  rw [Utf8.encodeChar_ascii (h c hc), List.mem_singleton, eq_comm]

/-- An ASCII text is one run also where there is no `%`. -/
theorem unquote_ascii {s : PyStr} (h : ∀ c ∈ s, c.val < 0x80) : unquote s = unquoteRun s := by
  unfold unquote
  by_cases hp : cp '%' ∈ s
  · rw [if_pos hp, unquoteParts_ascii h, List.nil_append]
  · have hb : (0x25 : UInt8) ∉ Utf8.encode s := by
      rw [mem_encode_ascii h]
      rintro ⟨c, hc, he⟩
      have hv := congrArg UInt8.toNat he
      rw [Utf8.toNat_ofNat (by have := h c hc; omega)] at hv
      exact hp ((Fin.ext hv : c = cp '%') ▸ hc)
    rw [if_neg hp, unquoteRun, unquoteToBytes_plain hb, Utf8.decodeReplace_of_decode (Utf8.decode_encode_ascii h)]

/-- A byte below 0x80 stands for its own character only. -/
theorem mem_encodeChar {c : CodePoint} {b : UInt8} (hb : b.toNat < 0x80) (h : b ∈ Utf8.encodeChar c) : c.val = b.toNat := by
  have hc := c.isLt
  unfold Utf8.encodeChar at h
  dsimp only at h
  split_ifs at h <;> simp only [List.mem_cons, List.not_mem_nil, or_false] at h
  · rw [h, Utf8.toNat_ofNat (by omega)]
  · rcases h with rfl | rfl <;> rw [UInt8.toNat_ofNat'] at hb <;> omega
  · rcases h with rfl | rfl | rfl <;> rw [UInt8.toNat_ofNat'] at hb <;> omega
  · rcases h with rfl | rfl | rfl | rfl <;> rw [UInt8.toNat_ofNat'] at hb <;> omega

/-- Without a space there is no byte of one. -/
theorem mem_encode_space {s : PyStr} (h : cp ' ' ∉ s) : (0x20 : UInt8) ∉ Utf8.encode s := by
  intro hb
  obtain ⟨c, hc, hb⟩ := List.mem_flatMap.mp hb
  have hv : c = cp ' ' := Fin.ext (mem_encodeChar (by decide) hb)
  exact h (hv ▸ hc)

/-- `quote_plus` by the byte. -/
theorem quotePlus_eq {s : PyStr} (h : s.all Utf8.isScalar = true) :
    quotePlus s = some ((Utf8.encode s).flatMap plusByte) := by
  unfold quotePlus quote
  rw [if_pos h, if_pos h]
  by_cases hs : cp ' ' ∈ s
  · rw [if_pos hs, Option.map_some, replaceChar, List.map_flatMap]
    exact congrArg some (List.flatMap_congr fun b _ => replaceChar_quoteByte b)
  · rw [if_neg hs]
    refine congrArg some (List.flatMap_congr fun b hb => (plusByte_of_ne ?_).symm)
    rintro rfl
    exact mem_encode_space hs hb

/-- **A text is read back.** -/
theorem unquotePlus_quoted {s : PyStr} (h : s.all Utf8.isScalar = true) :
    unquotePlus ((Utf8.encode s).flatMap plusByte) = s := by
  have hspace : replaceChar (cp '+') (cp ' ') ((Utf8.encode s).flatMap plusByte) = (Utf8.encode s).flatMap spaceByte := by
    rw [replaceChar, List.map_flatMap]
    exact List.flatMap_congr fun b _ => replaceChar_plusByte b
  have hascii : ∀ c ∈ (Utf8.encode s).flatMap spaceByte, c.val < 0x80 := fun c hc => by
    obtain ⟨b, -, hb⟩ := List.mem_flatMap.mp hc
    exact of_decide_eq_true (List.all_eq_true.mp (spaceByte_ascii b) c hb)
  rw [unquotePlus, hspace, unquote_ascii hascii, unquoteRun, unquoteToBytes_spaceByte,
    Utf8.decodeReplace_of_decode (Utf8.decode_encode h)]

/-! ## Queries -/

theorem partition_append {sep : CodePoint} {a : PyStr} (h : sep ∉ a) (b : PyStr) : partition sep (a ++ sep :: b) = (a, b) := by
  induction a with
  | nil => rw [List.nil_append, partition, if_pos rfl]
  | cons c a ih =>
    rw [List.mem_cons, not_or] at h
    rw [List.cons_append, partition, if_neg (Ne.symm h.1), ih h.2]

theorem splitOn_clean {sep : CodePoint} {a : PyStr} (h : sep ∉ a) : splitOn sep a = [a] := by
  induction a with
  | nil => rfl
  | cons c a ih =>
    rw [List.mem_cons, not_or] at h
    rw [splitOn, if_neg (Ne.symm h.1), ih h.2]

theorem splitOn_append {sep : CodePoint} {a : PyStr} (h : sep ∉ a) (s : PyStr) :
    splitOn sep (a ++ sep :: s) = a :: splitOn sep s := by
  induction a with
  | nil => rw [List.nil_append, splitOn, if_pos rfl]
  | cons c a ih =>
    rw [List.mem_cons, not_or] at h
    rw [List.cons_append, splitOn, if_neg (Ne.symm h.1), ih h.2]

/-- Splitting takes a joined text apart. -/
theorem splitOn_intercalate {sep : CodePoint} {parts : List PyStr} (hne : parts ≠ []) (h : ∀ p ∈ parts, sep ∉ p) :
    splitOn sep ([sep].intercalate parts) = parts := by
  induction parts with
  | nil => exact absurd rfl hne
  | cons p parts ih =>
    have hp := h p (List.mem_cons_self ..)
    cases parts with
    | nil => rw [List.intercalate_singleton, splitOn_clean hp]
    | cons q parts =>
      rw [List.intercalate_cons_cons, List.append_assoc, List.singleton_append, splitOn_append hp,
        ih (List.cons_ne_nil _ _) fun r hr => h r (List.mem_cons_of_mem _ hr)]

/-- What `urlencode` writes for an entry. -/
def entryText (kv : PyStr × PyStr) : PyStr :=
  (Utf8.encode kv.1).flatMap plusByte ++ cp '=' :: (Utf8.encode kv.2).flatMap plusByte

/-- No separator stands in a quoted text. -/
theorem not_mem_quoted (bs : Bytes) : cp '&' ∉ bs.flatMap plusByte ∧ cp '=' ∉ bs.flatMap plusByte := by
  refine ⟨fun h => ?_, fun h => ?_⟩ <;>
  · obtain ⟨b, -, hb⟩ := List.mem_flatMap.mp h
    simpa using List.all_eq_true.mp (plusByte_clean b) _ hb

theorem entryText_ne_nil (kv : PyStr × PyStr) : entryText kv ≠ [] := by simp [entryText]

theorem not_mem_entryText (kv : PyStr × PyStr) : cp '&' ∉ entryText kv := by
  intro h
  rcases List.mem_append.mp h with h | h
  · exact (not_mem_quoted _).1 h
  · rcases List.mem_cons.mp h with h | h
    · exact absurd h (by decide)
    · exact (not_mem_quoted _).1 h

theorem entry_eq {kv : PyStr × PyStr} (hk : kv.1.all Utf8.isScalar = true) (hv : kv.2.all Utf8.isScalar = true) :
    entry kv = some (entryText kv) := by
  rw [entry, quotePlus_eq hk, quotePlus_eq hv]
  rfl

theorem mapM_entry {query : List (PyStr × PyStr)}
    (h : ∀ kv ∈ query, kv.1.all Utf8.isScalar = true ∧ kv.2.all Utf8.isScalar = true) :
    query.mapM entry = some (query.map entryText) := by
  induction query with
  | nil => rfl
  | cons kv query ih =>
    obtain ⟨hk, hv⟩ := h kv (List.mem_cons_self ..)
    rw [List.mapM_cons, entry_eq hk hv, ih fun kv' h' => h kv' (List.mem_cons_of_mem _ h')]
    rfl

/-- One entry is read back. -/
theorem partition_entryText {kv : PyStr × PyStr} (hk : kv.1.all Utf8.isScalar = true)
    (hv : kv.2.all Utf8.isScalar = true) :
    (unquotePlus (partition (cp '=') (entryText kv)).1, unquotePlus (partition (cp '=') (entryText kv)).2) = kv := by
  rw [entryText, partition_append (not_mem_quoted _).2, unquotePlus_quoted hk, unquotePlus_quoted hv]

/-- **`parse_qsl` reads back what `urlencode` writes**, which is defined where there are no surrogates. -/
theorem parseQsl_urlencode {query : List (PyStr × PyStr)} (hne : query ≠ [])
    (h : ∀ kv ∈ query, kv.1.all Utf8.isScalar = true ∧ kv.2.all Utf8.isScalar = true) :
    ∃ qs, urlencode query = some qs ∧ parseQsl qs = query := by
  refine ⟨[cp '&'].intercalate (query.map entryText), by rw [urlencode, mapM_entry h]; rfl, ?_⟩
  have hsplit : splitOn (cp '&') ([cp '&'].intercalate (query.map entryText)) = query.map entryText := by
    refine splitOn_intercalate (by simpa using hne) fun p hp => ?_
    obtain ⟨kv, -, rfl⟩ := List.mem_map.mp hp
    exact not_mem_entryText kv
  have hall : (query.map entryText).filter (fun nameValue => nameValue ≠ []) = query.map entryText := by
    refine List.filter_eq_self.mpr fun p hp => ?_
    obtain ⟨kv, -, rfl⟩ := List.mem_map.mp hp
    exact decide_eq_true (entryText_ne_nil kv)
  rw [parseQsl, hsplit, hall, List.map_map]
  refine (List.map_congr_left fun kv hkv => ?_).trans (List.map_id query)
  exact partition_entryText (h kv hkv).1 (h kv hkv).2

end Url

end Aeh
