import Aeh.Config
import Aeh.Py.Bytes
import Aeh.Py.Fnmatch
import Aeh.Py.Uuid

/-!
# Analysis — `AnalysisResult` of `aeh/contracts.py`

The models of an analysis with `extra="forbid"`.  A value of one of these types has passed its model, and
`modelValidate` is the only way in from a document; `modelDump` is the way out, and what it writes is read back as
the same result (`AnalysisResult.modelValidate_modelDump`).

`dumps` is `json.dumps` with `ensure_ascii=False`, whose length limits what a worker stores.
-/

namespace Aeh

/-- `Limits.analysis_bytes`. -/
def Limits.analysisBytes : ℕ := 128 * 1024

structure Evidence where
  path : PyStr
  symbol : Option PyStr
  explanation : PyStr

/-- `Literal["modify", "add", "delete"]`. -/
inductive Operation where
  | modify | add | delete
deriving DecidableEq

structure ProposedChange where
  path : PyStr
  purpose : PyStr
  operation : Operation

structure ReproductionAssessment where
  reproducible : Bool
  reason : PyStr
  suggestedRegressionTests : List PyStr

/-- `Literal["low", "medium", "high"]`. -/
inductive Level where
  | low | medium | high
deriving DecidableEq

structure AnalysisResult where
  summary : PyStr
  rootCause : PyStr
  confidence : Level
  evidence : List Evidence
  proposedChanges : List ProposedChange
  validationPlan : List PyStr
  reproductionAssessment : ReproductionAssessment
  risk : Level
  missingInformation : List PyStr

def Operation.text : Operation → PyStr
  | modify => lit "modify"
  | add => lit "add"
  | delete => lit "delete"

def Level.text : Level → PyStr
  | low => lit "low"
  | medium => lit "medium"
  | high => lit "high"

/-! ## Reading a document -/

/-- `extra="forbid"`: a `dict` without other keys. -/
def noExtra (names : List String) : Json → Except Exn Unit
  | .obj fields => if fields.all fun kv => names.any fun name => kv.1 = lit name then .ok () else .error .validationError
  | _ => .error .validationError

/-- A field of type `str | None`. -/
def asOptStr : Json → Except Exn (Option PyStr)
  | .null => .ok none
  | .str s => .ok (some s)
  | _ => .error .validationError

/-- A field of a list type. -/
def asList {α : Type} (read : Json → Except Exn α) : Json → Except Exn (List α)
  | .arr items => items.mapM read
  | _ => .error .validationError

/-- A `Literal` field: one of `values`, each written as `text` writes it. -/
def asLiteral {α : Type} (text : α → PyStr) (values : List α) : Json → Except Exn α
  | .str s =>
    match values.find? fun v => text v = s with
    | some v => .ok v
    | none => .error .validationError
  | _ => .error .validationError

/-- `s.lower()` of ASCII letters. -/
def lowerAscii (s : PyStr) : PyStr :=
  s.map fun c => if (cp 'A').val ≤ c.val ∧ c.val ≤ (cp 'Z').val then Fin.ofNat _ (c.val + 32) else c

/-- pydantic's conversion to `bool`: the numbers 0 and 1 and some words. -/
def asBool : Json → Except Exn Bool
  | .bool b => .ok b
  | .int n => if n = 0 then .ok false else if n = 1 then .ok true else .error .validationError
  | .float bits =>
    if bits = 0 ∨ bits = 0x8000000000000000 then .ok false
    else if bits = 0x3FF0000000000000 then .ok true
    else .error .validationError
  | .str s =>
    if [lit "0", lit "f", lit "n", lit "no", lit "off", lit "false"].contains (lowerAscii s) then .ok false
    else if [lit "1", lit "t", lit "y", lit "yes", lit "on", lit "true"].contains (lowerAscii s) then .ok true
    else .error .validationError
  | _ => .error .validationError

def Evidence.modelValidate (doc : Json) : Except Exn Evidence := do
  noExtra ["path", "symbol", "explanation"] doc
  let path ← required (doc.get? "path") asStr
  let symbol ← required (doc.get? "symbol") asOptStr
  let explanation ← required (doc.get? "explanation") asStr
  .ok ⟨path, symbol, explanation⟩

def ProposedChange.modelValidate (doc : Json) : Except Exn ProposedChange := do
  noExtra ["path", "purpose", "operation"] doc
  let path ← required (doc.get? "path") asStr
  let purpose ← required (doc.get? "purpose") asStr
  let operation ← required (doc.get? "operation") (asLiteral Operation.text [.modify, .add, .delete])
  .ok ⟨path, purpose, operation⟩

def ReproductionAssessment.modelValidate (doc : Json) : Except Exn ReproductionAssessment := do
  noExtra ["reproducible", "reason", "suggestedRegressionTests"] doc
  let reproducible ← required (doc.get? "reproducible") asBool
  let reason ← required (doc.get? "reason") asStr
  let tests ← required (doc.get? "suggestedRegressionTests") asStrList
  .ok ⟨reproducible, reason, tests⟩

/-- The field names of `AnalysisResult`. -/
def AnalysisResult.names : List String :=
  ["summary", "rootCause", "confidence", "evidence", "proposedChanges", "validationPlan", "reproductionAssessment", "risk",
    "missingInformation"]

/-- `AnalysisResult.model_validate`. -/
def AnalysisResult.modelValidate (doc : Json) : Except Exn AnalysisResult := do
  noExtra names doc
  let summary ← required (doc.get? "summary") asStr
  let rootCause ← required (doc.get? "rootCause") asStr
  let confidence ← required (doc.get? "confidence") (asLiteral Level.text [.low, .medium, .high])
  let evidence ← required (doc.get? "evidence") (asList Evidence.modelValidate)
  let proposedChanges ← required (doc.get? "proposedChanges") (asList ProposedChange.modelValidate)
  let validationPlan ← required (doc.get? "validationPlan") asStrList
  let assessment ← required (doc.get? "reproductionAssessment") ReproductionAssessment.modelValidate
  let risk ← required (doc.get? "risk") (asLiteral Level.text [.low, .medium, .high])
  let missingInformation ← required (doc.get? "missingInformation") asStrList
  .ok ⟨summary, rootCause, confidence, evidence, proposedChanges, validationPlan, assessment, risk, missingInformation⟩

/-! Reading a document fails with a `ValidationError` only. -/

theorem noExtra_fails (names : List String) (j : Json) : Fails (noExtra names j) := by
  unfold noExtra
  split
  · split_ifs
    · exact .ok _
    · exact .error
  · exact .error

theorem asOptStr_fails (j : Json) : Fails (asOptStr j) := by
  cases j <;> first | exact .ok _ | exact .error

theorem asList_fails {α : Type} {read : Json → Except Exn α} (hr : ∀ j, Fails (read j)) (j : Json) :
    Fails (asList read j) := by
  cases j <;> first | exact .mapM hr _ | exact .error

theorem asLiteral_fails {α : Type} (text : α → PyStr) (values : List α) (j : Json) : Fails (asLiteral text values j) := by
  unfold asLiteral
  split
  · split
    · exact .ok _
    · exact .error
  · exact .error

theorem asBool_fails (j : Json) : Fails (asBool j) := by
  unfold asBool
  split <;> try split_ifs
  all_goals first | exact .ok _ | exact .error

theorem Evidence.modelValidate_fails (doc : Json) : Fails (modelValidate doc) :=
  (noExtra_fails _ _).bind fun _ => (Fails.required asStr_fails _).bind fun _ =>
    (Fails.required asOptStr_fails _).bind fun _ => (Fails.required asStr_fails _).bind fun _ => .ok _

theorem ProposedChange.modelValidate_fails (doc : Json) : Fails (modelValidate doc) :=
  (noExtra_fails _ _).bind fun _ => (Fails.required asStr_fails _).bind fun _ =>
    (Fails.required asStr_fails _).bind fun _ => (Fails.required (asLiteral_fails _ _) _).bind fun _ => .ok _

theorem ReproductionAssessment.modelValidate_fails (doc : Json) : Fails (modelValidate doc) :=
  (noExtra_fails _ _).bind fun _ => (Fails.required asBool_fails _).bind fun _ =>
    (Fails.required asStr_fails _).bind fun _ => (Fails.required asStrList_fails _).bind fun _ => .ok _

theorem AnalysisResult.modelValidate_fails (doc : Json) : Fails (modelValidate doc) :=
  (noExtra_fails _ _).bind fun _ => (Fails.required asStr_fails _).bind fun _ =>
    (Fails.required asStr_fails _).bind fun _ => (Fails.required (asLiteral_fails _ _) _).bind fun _ =>
    (Fails.required (asList_fails Evidence.modelValidate_fails) _).bind fun _ =>
    (Fails.required (asList_fails ProposedChange.modelValidate_fails) _).bind fun _ =>
    (Fails.required asStrList_fails _).bind fun _ =>
    (Fails.required ReproductionAssessment.modelValidate_fails _).bind fun _ =>
    (Fails.required (asLiteral_fails _ _) _).bind fun _ => (Fails.required asStrList_fails _).bind fun _ => .ok _

/-! ## Writing a document -/

def Evidence.modelDump (e : Evidence) : Json :=
  .obj [(lit "path", .str e.path), (lit "symbol", e.symbol.elim .null .str), (lit "explanation", .str e.explanation)]

def ProposedChange.modelDump (c : ProposedChange) : Json :=
  .obj [(lit "path", .str c.path), (lit "purpose", .str c.purpose), (lit "operation", .str c.operation.text)]

def ReproductionAssessment.modelDump (a : ReproductionAssessment) : Json :=
  .obj [(lit "reproducible", .bool a.reproducible), (lit "reason", .str a.reason),
    (lit "suggestedRegressionTests", strList a.suggestedRegressionTests)]

/-- `model_dump()`. -/
def AnalysisResult.modelDump (r : AnalysisResult) : Json :=
  .obj [(lit "summary", .str r.summary), (lit "rootCause", .str r.rootCause), (lit "confidence", .str r.confidence.text),
    (lit "evidence", .arr (r.evidence.map Evidence.modelDump)),
    (lit "proposedChanges", .arr (r.proposedChanges.map ProposedChange.modelDump)),
    (lit "validationPlan", strList r.validationPlan),
    (lit "reproductionAssessment", r.reproductionAssessment.modelDump), (lit "risk", .str r.risk.text),
    (lit "missingInformation", strList r.missingInformation)]

theorem AnalysisResult.modelDump_truthy (r : AnalysisResult) : r.modelDump.truthy = true := rfl

/-! ## What is written is read back -/

/-- The items of a list are read back one by one. -/
theorem asList_map {α : Type} {read : Json → Except Exn α} {write : α → Json} (h : ∀ a, read (write a) = .ok a)
    (as : List α) : asList read (.arr (as.map write)) = .ok as := by
  show (as.map write).mapM read = .ok as
  induction as with
  | nil => rfl
  | cons a as ih =>
    rw [List.map_cons, List.mapM_cons, ih, h]
    rfl

theorem Operation.asLiteral_text (o : Operation) :
    asLiteral Operation.text [.modify, .add, .delete] (.str o.text) = .ok o := by
  cases o <;> rfl

theorem Level.asLiteral_text (l : Level) : asLiteral Level.text [.low, .medium, .high] (.str l.text) = .ok l := by
  cases l <;> rfl

theorem Evidence.modelValidate_modelDump (e : Evidence) : modelValidate e.modelDump = .ok e := by
  obtain ⟨path, symbol, explanation⟩ := e
  cases symbol <;> rfl

theorem ProposedChange.modelValidate_modelDump (c : ProposedChange) : modelValidate c.modelDump = .ok c := by
  obtain ⟨path, purpose, operation⟩ := c
  cases operation <;> rfl

theorem ReproductionAssessment.modelValidate_modelDump (a : ReproductionAssessment) :
    modelValidate a.modelDump = .ok a := by
  have hextra : noExtra ["reproducible", "reason", "suggestedRegressionTests"] a.modelDump = .ok () := rfl
  have htests : required (a.modelDump.get? "suggestedRegressionTests") asStrList = .ok a.suggestedRegressionTests :=
    asStrList_strList _
  unfold modelValidate
  rw [hextra, htests]
  rfl

/-- **An analysis result survives its dump.** -/
theorem AnalysisResult.modelValidate_modelDump (r : AnalysisResult) : modelValidate r.modelDump = .ok r := by
  have hextra : noExtra names r.modelDump = .ok () := rfl
  have h1 : required (r.modelDump.get? "confidence") (asLiteral Level.text [.low, .medium, .high]) = .ok r.confidence :=
    r.confidence.asLiteral_text
  have h2 : required (r.modelDump.get? "evidence") (asList Evidence.modelValidate) = .ok r.evidence :=
    asList_map Evidence.modelValidate_modelDump _
  have h3 : required (r.modelDump.get? "proposedChanges") (asList ProposedChange.modelValidate) = .ok r.proposedChanges :=
    asList_map ProposedChange.modelValidate_modelDump _
  have h4 : required (r.modelDump.get? "validationPlan") asStrList = .ok r.validationPlan := asStrList_strList _
  have h5 : required (r.modelDump.get? "reproductionAssessment") ReproductionAssessment.modelValidate =
      .ok r.reproductionAssessment := r.reproductionAssessment.modelValidate_modelDump
  have h6 : required (r.modelDump.get? "risk") (asLiteral Level.text [.low, .medium, .high]) = .ok r.risk :=
    r.risk.asLiteral_text
  have h7 : required (r.modelDump.get? "missingInformation") asStrList = .ok r.missingInformation := asStrList_strList _
  unfold modelValidate
  rw [hextra, h1, h2, h3, h4, h5, h6, h7]
  rfl

/-! ## The length of its text -/

/-- What `json.dumps` writes for a character of a string. -/
def escapeChar (c : CodePoint) : PyStr :=
  let n := c.val
  if n = 0x22 then lit "\\\""
  else if n = 0x5C then lit "\\\\"
  else if n = 0x0A then lit "\\n"
  else if n = 0x0D then lit "\\r"
  else if n = 0x09 then lit "\\t"
  else if n = 0x0C then lit "\\f"
  else if n = 0x08 then lit "\\b"
  else if n < 0x20 then lit "\\u" ++ Uuid.toHex 4 n
  else [c]

def quote (s : PyStr) : PyStr := lit "\"" ++ s.flatMap escapeChar ++ lit "\""

section Dumps

variable (floatText : UInt64 → PyStr)

mutual

/-- `json.dumps(j, ensure_ascii=False)`; `floatText` writes a `float`. -/
def dumps : Json → PyStr
  | .null => lit "null"
  | .bool b => if b then lit "true" else lit "false"
  | .int n => lit (toString n)
  | .float bits => floatText bits
  | .str s => quote s
  | .arr items => lit "[" ++ dumpsItems items ++ lit "]"
  | .obj fields => lit "\x7b" ++ dumpsFields fields ++ lit "\x7d"

def dumpsItems : List Json → PyStr
  | [] => []
  | [j] => dumps j
  | j :: js => dumps j ++ lit ", " ++ dumpsItems js

def dumpsFields : List (PyStr × Json) → PyStr
  | [] => []
  | [(k, j)] => quote k ++ lit ": " ++ dumps j
  | (k, j) :: kvs => quote k ++ lit ": " ++ dumps j ++ lit ", " ++ dumpsFields kvs

end

end Dumps

theorem dumpsItems_map {α : Type} {f g : UInt64 → PyStr} {write : α → Json} (h : ∀ a, dumps f (write a) = dumps g (write a))
    (as : List α) : dumpsItems f (as.map write) = dumpsItems g (as.map write) := by
  induction as with
  | nil => rfl
  | cons a as ih =>
    cases as with
    | nil => exact h a
    | cons b as =>
      simp only [List.map_cons] at ih ⊢
      simp only [dumpsItems, h, ih]

theorem dumps_strList (f g : UInt64 → PyStr) (ss : List PyStr) : dumps f (strList ss) = dumps g (strList ss) := by
  have hstr : ∀ s : PyStr, dumps f (.str s) = dumps g (.str s) := fun s => by simp only [dumps]
  simp only [strList, dumps, dumpsItems_map hstr]

/-- The text of a result has no `float`. -/
theorem AnalysisResult.dumps_modelDump (f g : UInt64 → PyStr) (r : AnalysisResult) :
    dumps f r.modelDump = dumps g r.modelDump := by
  have hevidence : ∀ e : Evidence, dumps f e.modelDump = dumps g e.modelDump := fun e => by
    cases hs : e.symbol <;> simp [Evidence.modelDump, dumps, dumpsFields, hs]
  have hchange : ∀ c : ProposedChange, dumps f c.modelDump = dumps g c.modelDump := fun c => by
    simp [ProposedChange.modelDump, dumps, dumpsFields]
  simp [modelDump, ReproductionAssessment.modelDump, dumps, dumpsFields, dumpsItems_map hevidence,
    dumpsItems_map hchange, dumps_strList f g]

/-- `s.encode()`; a `UnicodeEncodeError` is a `ValueError`. -/
def encodeText (s : PyStr) : Except Exn Bytes :=
  if s.all fun c => c.val < 0xD800 || 0xDFFF < c.val then .ok (Utf8.encode s)
  else .error (.valueError (lit "surrogates not allowed"))

namespace AnalysisResult

/-- `len(json.dumps(result.model_dump(), ensure_ascii=False).encode())`; a result has no `float`. -/
def size (r : AnalysisResult) : Except Exn ℕ := (encodeText (dumps (fun _ => []) r.modelDump)).map List.length

/-- `useful`. -/
def useful (r : AnalysisResult) (allowedPaths : List PyStr) : Bool :=
  r.confidence ≠ .low && !r.evidence.isEmpty && !r.proposedChanges.isEmpty &&
    r.proposedChanges.all fun change => allowedPaths.any (fnmatchcase change.path)

theorem useful_iff {r : AnalysisResult} {allowedPaths : List PyStr} : r.useful allowedPaths = true ↔
    r.confidence ≠ .low ∧ r.evidence ≠ [] ∧ r.proposedChanges ≠ [] ∧
      ∀ change ∈ r.proposedChanges, ∃ pattern ∈ allowedPaths, fnmatchcase change.path pattern = true := by
  simp [useful, and_assoc]

end AnalysisResult

end Aeh
