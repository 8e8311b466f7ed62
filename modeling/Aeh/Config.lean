import Aeh.Py.Json

/-!
# Config — `aeh/config.py`: limits, service policies and settings

`ValidationCommand` and `ServicePolicy` carry what their validators enforce, so that a value of either
type has passed them; `modelValidate` is the only way in from a document.  pydantic's conversion of a
value to `int` is the parameter `laxInt`.
-/

namespace Aeh

namespace Limits

def bodyBytes : ℕ := 256 * 1024
def reproductionDepth : ℕ := 8
def reproductionValues : ℕ := 1000
def reproductionString : ℕ := 4096
def diffBytes : ℕ := 512 * 1024
def streamBytes : ℕ := 32 * 1024
def maxChangedFiles : ℕ := 10
def maxDiffLines : ℕ := 400
def analysisSeconds : ℕ := 86400
def patchSeconds : ℕ := 900
def commandSeconds : ℕ := 300
def jobLimit : ℕ := 100
def leaseSeconds : ℕ := 120
def heartbeatSeconds : ℕ := 30
def maxAttempts : ℕ := 3

end Limits

/-- `ValidationCommand.safe_argv` together with `min_length=1`. -/
def safeArgv (argv : List PyStr) : Bool :=
  !argv.any (fun arg => arg.isEmpty || arg.contains (0 : CodePoint) || arg.contains (cp '\n')) &&
  match argv with
  | [] => false
  | prog :: _ => !([lit "sh", lit "bash", lit "zsh", lit "curl", lit "wget", lit "git"].contains prog)

structure ValidationCommand where
  id : PyStr
  argv : List PyStr
  timeoutSeconds : ℕ
  id_length : 1 ≤ id.length ∧ id.length ≤ 100
  argv_safe : safeArgv argv = true
  timeout_range : 1 ≤ timeoutSeconds ∧ timeoutSeconds ≤ Limits.commandSeconds

/-- `PurePosixPath(p).parts` without the root: empty parts and `.` are dropped. -/
def pathParts (p : PyStr) : List PyStr := (splitOn (cp '/') p).filter fun w => w ≠ [] ∧ w ≠ lit "."

/-- A policy pattern `ServicePolicy.validate_paths` lets pass. -/
def safePattern (pattern : PyStr) : Bool :=
  !pattern.isEmpty && !startsWith pattern (lit "/") && !(pathParts pattern).contains (lit "..") &&
    !pattern.contains (0 : CodePoint)

/-- A `repositoryPath` `ServicePolicy.validate_paths` lets pass. -/
def safeRepositoryPath (path : PyStr) : Bool :=
  !startsWith path (lit "/") && !(pathParts path).contains (lit "..") && !path.isEmpty

structure ServicePolicy where
  repositoryPath : PyStr
  defaultBranch : PyStr
  runbookPaths : List PyStr
  allowedPaths : List PyStr
  deniedPaths : List PyStr
  maxChangedFiles : ℕ
  maxDiffLines : ℕ
  analysisTimeoutSeconds : ℕ
  patchTimeoutSeconds : ℕ
  validationCommands : List ValidationCommand
  repository_safe : safeRepositoryPath repositoryPath = true
  patterns_safe : (allowedPaths ++ deniedPaths ++ runbookPaths).all safePattern = true
  allowed_nonempty : allowedPaths ≠ []
  changed_range : 1 ≤ maxChangedFiles ∧ maxChangedFiles ≤ Limits.maxChangedFiles
  lines_range : 1 ≤ maxDiffLines ∧ maxDiffLines ≤ Limits.maxDiffLines
  analysis_range : 1 ≤ analysisTimeoutSeconds ∧ analysisTimeoutSeconds ≤ Limits.analysisSeconds
  patch_range : 1 ≤ patchTimeoutSeconds ∧ patchTimeoutSeconds ≤ Limits.patchSeconds
  commands_nonempty : validationCommands ≠ []

/-! ## Reading a document -/

section Validate

variable (laxInt : Json → Option ℤ)

/-- The value of a field under its alias or, with `populate_by_name`, its name. -/
def fieldOf (doc : Json) (byAlias byName : String) : Option Json :=
  (doc.get? byAlias).or (doc.get? byName)

def asStr : Json → Except Exn PyStr
  | .str s => .ok s
  | _ => .error .validationError

def asStrList : Json → Except Exn (List PyStr)
  | .arr items => items.mapM asStr
  | _ => .error .validationError

/-- An `int` field with `ge=1` and `le=hi`. -/
def asIntIn (hi : ℕ) (j : Json) : Except Exn { n : ℕ // 1 ≤ n ∧ n ≤ hi } :=
  match laxInt j with
  | some n =>
    if h : 1 ≤ n.toNat ∧ n.toNat ≤ hi then .ok ⟨n.toNat, h⟩ else .error .validationError
  | none => .error .validationError

/-- A field with a default. -/
def orDefault {α : Type} (field : Option Json) (read : Json → Except Exn α) (default : α) : Except Exn α :=
  match field with
  | some j => read j
  | none => .ok default

/-- A field without a default. -/
def required {α : Type} (field : Option Json) (read : Json → Except Exn α) : Except Exn α :=
  match field with
  | some j => read j
  | none => .error .validationError

def ValidationCommand.modelValidate (doc : Json) : Except Exn ValidationCommand := do
  let id ← required (doc.get? "id") asStr
  let argv ← required (doc.get? "argv") asStrList
  let timeout ← orDefault (doc.get? "timeoutSeconds") (asIntIn laxInt Limits.commandSeconds) ⟨300, by decide⟩
  if h : (1 ≤ id.length ∧ id.length ≤ 100) ∧ safeArgv argv = true then
    .ok ⟨id, argv, timeout.1, h.1, h.2, timeout.2⟩
  else .error .validationError

def asCommands : Json → Except Exn (List ValidationCommand)
  | .arr items => items.mapM (ValidationCommand.modelValidate laxInt)
  | _ => .error .validationError

/-- `ServicePolicy.model_validate` of a document. -/
def ServicePolicy.modelValidate (doc : Json) : Except Exn ServicePolicy := do
  let repositoryPath ← required (fieldOf doc "repositoryPath" "repository_path") asStr
  let defaultBranch ← orDefault (fieldOf doc "defaultBranch" "default_branch") asStr (lit "main")
  let runbookPaths ← orDefault (fieldOf doc "runbookPaths" "runbook_paths") asStrList []
  let allowedPaths ← required (fieldOf doc "allowedPaths" "allowed_paths") asStrList
  let deniedPaths ← orDefault (fieldOf doc "deniedPaths" "denied_paths") asStrList []
  let maxChangedFiles ← orDefault (fieldOf doc "maxChangedFiles" "max_changed_files")
    (asIntIn laxInt Limits.maxChangedFiles) ⟨10, by decide⟩
  let maxDiffLines ← orDefault (fieldOf doc "maxDiffLines" "max_diff_lines")
    (asIntIn laxInt Limits.maxDiffLines) ⟨400, by decide⟩
  let analysisTimeout ← orDefault (fieldOf doc "analysisTimeoutSeconds" "analysis_timeout_seconds")
    (asIntIn laxInt Limits.analysisSeconds) ⟨86400, by decide⟩
  let patchTimeout ← orDefault (fieldOf doc "patchTimeoutSeconds" "patch_timeout_seconds")
    (asIntIn laxInt Limits.patchSeconds) ⟨900, by decide⟩
  let commands ← required (fieldOf doc "validationCommands" "validation_commands") (asCommands laxInt)
  if h : safeRepositoryPath repositoryPath = true ∧
      (allowedPaths ++ deniedPaths ++ runbookPaths).all safePattern = true ∧ allowedPaths ≠ [] ∧
      commands ≠ [] then
    .ok ⟨repositoryPath, defaultBranch, runbookPaths, allowedPaths, deniedPaths, maxChangedFiles.1,
      maxDiffLines.1, analysisTimeout.1, patchTimeout.1, commands, h.1, h.2.1, h.2.2.1, maxChangedFiles.2,
      maxDiffLines.2, analysisTimeout.2, patchTimeout.2, h.2.2.2⟩
  else .error .validationError

/-! Reading a document fails with a `ValidationError` only. -/

/-- The only exception is pydantic's. -/
def Fails {α : Type} (x : Except Exn α) : Prop := ∀ e, x = .error e → e = .validationError

theorem Fails.ok {α : Type} (a : α) : Fails (.ok a : Except Exn α) := fun _ h => by cases h

theorem Fails.error {α : Type} : Fails (.error .validationError : Except Exn α) := fun _ h => by cases h; rfl

theorem Fails.bind {α β : Type} {x : Except Exn α} {f : α → Except Exn β} (hx : Fails x) (hf : ∀ a, Fails (f a)) :
    Fails (x >>= f) := by
  intro e h
  rcases bind_eq_error.mp h with h | ⟨a, -, h⟩
  · exact hx e h
  · exact hf a e h

theorem Fails.mapM {α β : Type} {f : α → Except Exn β} (hf : ∀ a, Fails (f a)) (l : List α) : Fails (l.mapM f) := by
  induction l with
  | nil => exact .ok []
  | cons a l ih =>
    rw [List.mapM_cons]
    exact (hf a).bind fun b => ih.bind fun bs => .ok (b :: bs)

theorem Fails.orDefault {α : Type} {read : Json → Except Exn α} (hr : ∀ j, Fails (read j)) (field : Option Json)
    (default : α) : Fails (orDefault field read default) := by
  cases field with
  | none => exact .ok default
  | some j => exact hr j

theorem Fails.required {α : Type} {read : Json → Except Exn α} (hr : ∀ j, Fails (read j)) (field : Option Json) :
    Fails (required field read) := by
  cases field with
  | none => exact .error
  | some j => exact hr j

theorem asStr_fails (j : Json) : Fails (asStr j) := by
  cases j <;> first | exact .ok _ | exact .error

theorem asStrList_fails (j : Json) : Fails (asStrList j) := by
  cases j <;> first | exact .mapM asStr_fails _ | exact .error

theorem asIntIn_fails (hi : ℕ) (j : Json) : Fails (asIntIn laxInt hi j) := by
  unfold asIntIn
  split
  · split_ifs
    · exact .ok _
    · exact .error
  · exact .error

theorem ValidationCommand.modelValidate_fails (doc : Json) : Fails (modelValidate laxInt doc) := by
  refine (Fails.required asStr_fails _).bind fun id => (Fails.required asStrList_fails _).bind fun argv =>
    (Fails.orDefault (asIntIn_fails laxInt _) _ _).bind fun timeout => ?_
  split_ifs
  · exact .ok _
  · exact .error

theorem asCommands_fails (j : Json) : Fails (asCommands laxInt j) := by
  cases j <;> first | exact .mapM (ValidationCommand.modelValidate_fails laxInt) _ | exact .error

theorem ServicePolicy.modelValidate_fails (doc : Json) : Fails (modelValidate laxInt doc) := by
  refine (Fails.required asStr_fails _).bind fun _ => (Fails.orDefault asStr_fails _ _).bind fun _ =>
    (Fails.orDefault asStrList_fails _ _).bind fun _ => (Fails.required asStrList_fails _).bind fun _ =>
    (Fails.orDefault asStrList_fails _ _).bind fun _ => (Fails.orDefault (asIntIn_fails laxInt _) _ _).bind fun _ =>
    (Fails.orDefault (asIntIn_fails laxInt _) _ _).bind fun _ => (Fails.orDefault (asIntIn_fails laxInt _) _ _).bind fun _ =>
    (Fails.orDefault (asIntIn_fails laxInt _) _ _).bind fun _ => (Fails.required (asCommands_fails laxInt) _).bind fun _ => ?_
  split_ifs
  · exact .ok _
  · exact .error

end Validate

/-! ## Writing a document -/

def strList (ss : List PyStr) : Json := .arr (ss.map .str)

/-- `ValidationCommand.model_dump(by_alias=True)`. -/
def ValidationCommand.modelDump (c : ValidationCommand) : Json :=
  .obj [(lit "id", .str c.id), (lit "argv", strList c.argv), (lit "timeoutSeconds", .int c.timeoutSeconds)]

/-- The items of `model_dump(by_alias=True)` after `repositoryPath` and `defaultBranch`. -/
def ServicePolicy.limitFields (p : ServicePolicy) : List (PyStr × Json) :=
  [(lit "runbookPaths", strList p.runbookPaths), (lit "allowedPaths", strList p.allowedPaths),
    (lit "deniedPaths", strList p.deniedPaths), (lit "maxChangedFiles", .int p.maxChangedFiles),
    (lit "maxDiffLines", .int p.maxDiffLines),
    (lit "analysisTimeoutSeconds", .int p.analysisTimeoutSeconds),
    (lit "patchTimeoutSeconds", .int p.patchTimeoutSeconds),
    (lit "validationCommands", .arr (p.validationCommands.map ValidationCommand.modelDump))]

/-- `ServicePolicy.model_dump(by_alias=True)`. -/
def ServicePolicy.modelDump (p : ServicePolicy) : Json :=
  .obj ((lit "repositoryPath", .str p.repositoryPath) :: (lit "defaultBranch", .str p.defaultBranch) ::
    p.limitFields)

/-! What is written can be read: the dump of a policy is a document of it. -/

section RoundTrip

variable {laxInt : Json → Option ℤ}

/-- pydantic keeps an integer. -/
def KeepsInt (laxInt : Json → Option ℤ) : Prop := ∀ n : ℤ, laxInt (.int n) = some n

/-- Strings are read back one by one. -/
theorem mapM_str {read : Json → Except Exn PyStr} (hr : ∀ s, read (.str s) = .ok s) (ss : List PyStr) :
    (ss.map Json.str).mapM read = .ok ss := by
  induction ss with
  | nil => rfl
  | cons s ss ih =>
    rw [List.map_cons, List.mapM_cons, ih, hr]
    rfl

theorem asStrList_strList (ss : List PyStr) : asStrList (strList ss) = .ok ss := mapM_str (fun _ => rfl) ss

theorem asIntIn_int (hk : KeepsInt laxInt) {hi n : ℕ} (h : 1 ≤ n ∧ n ≤ hi) :
    asIntIn laxInt hi (.int n) = .ok ⟨n, h⟩ := by
  unfold asIntIn
  rw [hk]
  simp only [Int.toNat_natCast]
  rw [dif_pos h]

theorem ValidationCommand.modelValidate_modelDump (hk : KeepsInt laxInt) (c : ValidationCommand) :
    modelValidate laxInt c.modelDump = .ok c := by
  have hid : required (c.modelDump.get? "id") asStr = .ok c.id := rfl
  have hargv : required (c.modelDump.get? "argv") asStrList = .ok c.argv := asStrList_strList c.argv
  have htime : orDefault (c.modelDump.get? "timeoutSeconds") (asIntIn laxInt Limits.commandSeconds) ⟨300, by decide⟩ =
      .ok ⟨c.timeoutSeconds, c.timeout_range⟩ := asIntIn_int hk c.timeout_range
  unfold modelValidate
  rw [hid, hargv, htime]
  exact dif_pos ⟨c.id_length, c.argv_safe⟩

theorem asCommands_modelDump (hk : KeepsInt laxInt) (cs : List ValidationCommand) :
    asCommands laxInt (.arr (cs.map ValidationCommand.modelDump)) = .ok cs := by
  show (cs.map ValidationCommand.modelDump).mapM (ValidationCommand.modelValidate laxInt) = .ok cs
  induction cs with
  | nil => rfl
  | cons c cs ih =>
    rw [List.map_cons, List.mapM_cons, ih, ValidationCommand.modelValidate_modelDump hk]
    rfl

/-- **A policy survives its dump.** -/
theorem ServicePolicy.modelValidate_modelDump (hk : KeepsInt laxInt) (p : ServicePolicy) :
    modelValidate laxInt p.modelDump = .ok p := by
  have h1 : required (fieldOf p.modelDump "repositoryPath" "repository_path") asStr = .ok p.repositoryPath := rfl
  have h2 : orDefault (fieldOf p.modelDump "defaultBranch" "default_branch") asStr (lit "main") = .ok p.defaultBranch := rfl
  have h3 : orDefault (fieldOf p.modelDump "runbookPaths" "runbook_paths") asStrList [] = .ok p.runbookPaths :=
    asStrList_strList _
  have h4 : required (fieldOf p.modelDump "allowedPaths" "allowed_paths") asStrList = .ok p.allowedPaths :=
    asStrList_strList _
  have h5 : orDefault (fieldOf p.modelDump "deniedPaths" "denied_paths") asStrList [] = .ok p.deniedPaths :=
    asStrList_strList _
  have h6 : orDefault (fieldOf p.modelDump "maxChangedFiles" "max_changed_files")
      (asIntIn laxInt Limits.maxChangedFiles) ⟨10, by decide⟩ = .ok ⟨p.maxChangedFiles, p.changed_range⟩ :=
    asIntIn_int hk _
  have h7 : orDefault (fieldOf p.modelDump "maxDiffLines" "max_diff_lines")
      (asIntIn laxInt Limits.maxDiffLines) ⟨400, by decide⟩ = .ok ⟨p.maxDiffLines, p.lines_range⟩ := asIntIn_int hk _
  have h8 : orDefault (fieldOf p.modelDump "analysisTimeoutSeconds" "analysis_timeout_seconds")
      (asIntIn laxInt Limits.analysisSeconds) ⟨86400, by decide⟩ =
      .ok ⟨p.analysisTimeoutSeconds, p.analysis_range⟩ := asIntIn_int hk _
  have h9 : orDefault (fieldOf p.modelDump "patchTimeoutSeconds" "patch_timeout_seconds")
      (asIntIn laxInt Limits.patchSeconds) ⟨900, by decide⟩ = .ok ⟨p.patchTimeoutSeconds, p.patch_range⟩ :=
    asIntIn_int hk _
  have h10 : required (fieldOf p.modelDump "validationCommands" "validation_commands") (asCommands laxInt) =
      .ok p.validationCommands := asCommands_modelDump hk _
  unfold modelValidate
  rw [h1, h2, h3, h4, h5, h6, h7, h8, h9, h10]
  exact dif_pos ⟨p.repository_safe, p.patterns_safe, p.allowed_nonempty, p.commands_nonempty⟩

end RoundTrip

/-! ## Settings -/

/-- A resolved absolute path, as its components below the root. -/
abbrev AbsPath := List PyStr

/-- What path resolution reads of a file system: `resolve base ref` is `(base / ref).resolve(strict=True)`
(`none` where a component is missing), `pathExists base ref` is `(base / ref).exists()`. -/
structure FileSystem where
  cwd : AbsPath
  resolve : AbsPath → PyStr → Option AbsPath
  pathExists : AbsPath → PyStr → Bool

structure Settings where
  repositoryRoot : PyStr
  codexModel : PyStr
  workerId : String
  cursorSecret : PyStr
  /-- pydantic's conversion of a document value to `int`. -/
  laxInt : Json → Option ℤ

namespace Settings

/-- `resolve_repository_reference`. -/
def resolveRepositoryReference (settings : Settings) (fs : FileSystem) (reference : PyStr) :
    Except Exn AbsPath :=
  match fs.resolve fs.cwd settings.repositoryRoot with
  | none => .error .fileNotFoundError
  | some root =>
    match fs.resolve root reference with
    | none => .error .fileNotFoundError
    | some path =>
      if ¬ root <+: path then .error (.valueError (lit "repository is outside REPOSITORY_ROOT"))
      else if ¬ fs.pathExists path (lit ".git") then
        .error (.valueError (lit "repository is not a Git repository"))
      else .ok path

/-- A path that does not lead to a repository raises an exception that is no `AehError`. -/
theorem resolveRepositoryReference_error {settings : Settings} {fs : FileSystem} {path : PyStr} {e : Exn}
    (h : settings.resolveRepositoryReference fs path = .error e) :
    e = .fileNotFoundError ∨ ∃ message, e = .valueError message := by
  unfold resolveRepositoryReference at h
  split at h
  · cases h
    exact Or.inl rfl
  · split at h
    · cases h
      exact Or.inl rfl
    · split_ifs at h
      · cases h
        exact Or.inr ⟨_, rfl⟩
      · cases h
        exact Or.inr ⟨_, rfl⟩

/-- `repository_path`. -/
def repositoryPath (settings : Settings) (fs : FileSystem) (policy : ServicePolicy) : Except Exn AbsPath :=
  settings.resolveRepositoryReference fs policy.repositoryPath

/-- `snapshot`. -/
def snapshot (settings : Settings) (policy : ServicePolicy) (repositoryPath : PyStr) : Json :=
  .obj (policy.limitFields ++ [(lit "repositoryPath", .str repositoryPath), (lit "model", .str settings.codexModel),
    (lit "resultSchemaVersion", .int 1), (lit "commandNetworkAccess", .bool false)])

theorem snapshot_truthy (settings : Settings) (policy : ServicePolicy) (path : PyStr) :
    (settings.snapshot policy path).truthy = true := rfl

end Settings

end Aeh
