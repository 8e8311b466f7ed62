import Aeh.Gitops
import Aeh.Py.Fnmatch

/-!
# CheckDiff — `assert_clean` and `check_diff` of `aeh/gitops.py`

What Git and the file system answer about a workspace is the parameter `Workspace`; the answers to later commands are
those after the untracked files have been added with intent.
-/

namespace Aeh

/-- What stands at a path: `other` is a directory or a special file. -/
inductive Stat where
  | missing | file | symlink | other
deriving DecidableEq

/-- The answers of a workspace to the commands of `check_diff`; the names of the fields are theirs. -/
structure Workspace where
  lsIgnored : Except Exn Bytes
  lsOthers : Except Exn Bytes
  addIntent : PyStr → Except Exn Bytes
  diffNameOnly : Except Exn Bytes
  lsStage : PyStr → Except Exn Bytes
  diffNumstat : Except Exn Bytes
  diffCheck : Except Exn Bytes
  diffText : Except Exn Bytes
  stat : PyStr → Stat

/-- The commands of `check_diff`. -/
inductive DiffCommand where
  | lsIgnored | lsOthers
  | addIntent (path : PyStr)
  | diffNameOnly
  | lsStage (name : PyStr)
  | diffNumstat | diffCheck | diffText
deriving DecidableEq

/-- What `git` is called with. -/
def DiffCommand.args : DiffCommand → List PyStr
  | lsIgnored => [lit "ls-files", lit "--others", lit "--ignored", lit "--exclude-standard", lit "-z"]
  | lsOthers => [lit "ls-files", lit "--others", lit "--exclude-standard", lit "-z"]
  | addIntent path => [lit "add", lit "-N", lit "--", path]
  | diffNameOnly => [lit "diff", lit "--name-only", lit "-z", lit "HEAD", lit "--"]
  | lsStage name => [lit "ls-files", lit "--stage", lit "--", name]
  | diffNumstat => [lit "diff", lit "--numstat", lit "-z", lit "HEAD", lit "--"]
  | diffCheck => [lit "diff", lit "--check", lit "HEAD", lit "--"]
  | diffText => [lit "diff", lit "--no-ext-diff", lit "HEAD", lit "--"]

/-- A workspace in which the commands are answered. -/
def Workspace.of (answer : DiffCommand → Except Exn Bytes) (stat : PyStr → Stat) : Workspace where
  lsIgnored := answer .lsIgnored
  lsOthers := answer .lsOthers
  addIntent path := answer (.addIntent path)
  diffNameOnly := answer .diffNameOnly
  lsStage name := answer (.lsStage name)
  diffNumstat := answer .diffNumstat
  diffCheck := answer .diffCheck
  diffText := answer .diffText
  stat := stat

/-- The workspace in the directory `dir`; `stat` is what stands at its paths. -/
def GitHost.workspace (host : GitHost) (dir : AbsPath) (stat : PyStr → Stat) : Workspace :=
  .of (fun c => host.git dir c.args) stat

/-- What Git answers in the directory at the path. -/
def Workspace.At (ws : Workspace) (path : PyStr) : Prop :=
  ∃ (host : GitHost) (stat : PyStr → Stat), ws = host.workspace (host.resolvePath path) stat

/-- The command of `assert_clean`. -/
def statusArgs : List PyStr := [lit "status", lit "--porcelain", lit "--untracked-files=all"]

/-! ## Bytes -/

def NUL : UInt8 := 0

def TAB : UInt8 := 9

/-- `b.split(sep)`. -/
def splitBytes (sep : UInt8) : Bytes → List Bytes
  | [] => [[]]
  | x :: b =>
    if x = sep then [] :: splitBytes sep b
    else match splitBytes sep b with
      | [] => [[x]]
      | w :: ws => (x :: w) :: ws

/-- `b.split(sep, n)`. -/
def splitBytesMax (sep : UInt8) : ℕ → Bytes → List Bytes
  | 0, b => [b]
  | n + 1, b =>
    match b.dropWhile fun x => x ≠ sep with
    | [] => [b]
    | _ :: rest => (b.takeWhile fun x => x ≠ sep) :: splitBytesMax sep n rest

/-- White space of `bytes`. -/
def isSpaceByte (x : UInt8) : Bool := x = 32 || (9 ≤ x && x ≤ 13)

def isDigitByte (x : UInt8) : Bool := 48 ≤ x && x ≤ 57

/-- The number a text of digits shows; a single underscore may stand between two digits. -/
def digitsValue : ℕ → Bytes → Option ℕ
  | acc, [] => some acc
  | acc, [x] => if isDigitByte x then some (acc * 10 + (x.toNat - 48)) else none
  | acc, x :: y :: rest =>
    if isDigitByte x then
      if y = 95 then
        match rest with
        | [] => none
        | z :: _ => if isDigitByte z then digitsValue (acc * 10 + (x.toNat - 48)) rest else none
      else digitsValue (acc * 10 + (x.toNat - 48)) (y :: rest)
    else none

/-- `int(b)`; `none` is its `ValueError`. -/
def intOfBytes (b : Bytes) : Option ℤ :=
  match ((b.dropWhile isSpaceByte).reverse.dropWhile isSpaceByte).reverse with
  | [] => none
  | x :: rest =>
    if x = 45 then if rest = [] then none else (digitsValue 0 rest).map fun n => -(n : ℤ)
    else if x = 43 then if rest = [] then none else (digitsValue 0 rest).map fun n => (n : ℤ)
    else (digitsValue 0 (x :: rest)).map fun n => (n : ℤ)

/-! ## The policy -/

/-- `AehError(422, "AEH-POLICY-422-001", detail)`. -/
def policyError (detail : String) : Exn := aehError 422 "AEH-POLICY-422-001" detail

/-- `policy[key]`, a list of strings. -/
def stringsOf (policy : Json) (key : String) : Except Exn (List PyStr) := do
  match ← policy.getItem key with
  | .arr items => items.mapM fun
    | .str s => .ok s
    | _ => .error .attributeError
  | _ => .error .attributeError

/-- `min(policy[key], limit)`. -/
def limitOf (policy : Json) (key : String) (limit : ℕ) : Except Exn ℤ := do
  match ← policy.getItem key with
  | .int n => .ok (min n limit)
  | _ => .error .attributeError

/-- Paths that no policy may allow. -/
def isProtected (name : PyStr) : Bool :=
  startsWith name (lit ".git/") || startsWith name (lit ".github/") || startsWith name (lit "infra/") ||
    startsWith name (lit ".env") || contains name (lit "/.env") || endsWith name (lit ".pem") || endsWith name (lit ".key")

/-! ## The checks -/

/-- `assert_clean`; `status` is what `git status` prints. -/
def assertClean (status : Except Exn Bytes) : Except Exn Unit := do
  let output ← status
  if output ≠ [] then .error (policyError "Analysis changed the repository") else .ok ()

/-- `[p.decode() for p in raw.split(b"\x00") if p]`. -/
def pathsOf (raw : Bytes) : Except Exn (List PyStr) :=
  ((splitBytes NUL raw).filter fun p => !p.isEmpty).mapM decodeText

/-- The loop over the untracked paths. -/
def addUntracked (ws : Workspace) : List PyStr → Except Exn Unit
  | [] => .ok ()
  | path :: paths => do
    if ws.stat path ≠ .file then .error (policyError "Non-regular changed file")
    else do
      let _ ← ws.addIntent path
      addUntracked ws paths

/-- The line boundaries of `str.splitlines`. -/
def isLineBreak (c : CodePoint) : Bool :=
  let n := c.val
  (0x0A ≤ n && n ≤ 0x0D) || (0x1C ≤ n && n ≤ 0x1E) || n == 0x85 || n == 0x2028 || n == 0x2029

/-- `splitlines` behind the text `line` of the current line; after a carriage return a line feed ends no line. -/
def splitlinesFrom (line : PyStr) (afterReturn : Bool) : PyStr → List PyStr
  | [] => if line.isEmpty then [] else [line]
  | c :: s =>
    if afterReturn && c = cp '\n' then splitlinesFrom [] false s
    else if isLineBreak c then line :: splitlinesFrom [] (c = cp '\r') s
    else splitlinesFrom (line ++ [c]) false s

/-- `s.splitlines()`. -/
def splitlines (s : PyStr) : List PyStr := splitlinesFrom [] false s

/-- The lines of `git ls-files --stage`, of which the modes are read: whether one is a symlink or a submodule. -/
def linksStaged (modes : PyStr) : Bool :=
  (splitlines modes).any fun line => startsWith line (lit "120000") || startsWith line (lit "160000")

/-- The body of the loop over the changed names. -/
def checkName (ws : Workspace) (policy : Json) (untracked : List PyStr) (name : PyStr) : Except Exn Unit := do
  if startsWith name (lit "/") || (pathParts name).contains (lit "..") || name.isEmpty || name.contains (cp '\n') then
    .error (policyError "Invalid changed path")
  else do
    let allowed ← stringsOf policy "allowedPaths"
    if !allowed.any (fnmatchcase name) then .error (policyError "Changed path is not allowed")
    else do
      let denied ← stringsOf policy "deniedPaths"
      if denied.any (fnmatchcase name) then .error (policyError "Changed path is denied")
      else if isProtected name then .error (policyError "Protected path was changed")
      else if startsWith name (lit "tests/") && !untracked.contains name then
        .error (policyError "Existing tests cannot be modified or deleted")
      else if ws.stat name = .symlink ∨ (ws.stat name ≠ .missing ∧ ws.stat name ≠ .file) then
        .error (policyError "Changed file is a symlink or special file")
      else do
        let raw ← ws.lsStage name
        let modes ← decodeText raw
        if linksStaged modes then .error (policyError "Symlink or submodule change is denied")
        else .ok ()

/-- The loop over the changed names. -/
def checkNames (ws : Workspace) (policy : Json) (untracked : List PyStr) : List PyStr → Except Exn Unit
  | [] => .ok ()
  | name :: names => do
    checkName ws policy untracked name
    checkNames ws policy untracked names

/-- The changed lines of one entry of `git diff --numstat -z`. -/
def entryLines (entry : Bytes) : Except Exn ℤ :=
  match splitBytesMax TAB 2 entry with
  | [added, deleted, _] =>
    if added = [45] ∨ deleted = [45] then .error (policyError "Binary change is denied")
    else match intOfBytes added, intOfBytes deleted with
      | some a, some d => .ok (a + d)
      | _, _ => .error (.valueError (lit "invalid literal for int() with base 10"))
  | _ => .error (policyError "Binary change is denied")

/-- The loop over the entries of `git diff --numstat -z`. -/
def countLines : ℤ → List Bytes → Except Exn ℤ
  | lines, [] => .ok lines
  | lines, entry :: entries => do
    if entry.isEmpty then countLines lines entries
    else do
      let n ← entryLines entry
      countLines (lines + n) entries

/-- `check_diff`. -/
def checkDiff (ws : Workspace) (policy : Json) : Except Exn (List PyStr × PyStr) := do
  let ignored ← ws.lsIgnored
  if !ignored.isEmpty then .error (policyError "Ignored files were created")
  else do
    let raw ← ws.lsOthers
    let untracked ← pathsOf raw
    addUntracked ws untracked
    let raw ← ws.diffNameOnly
    let names ← pathsOf raw
    if names.isEmpty then .error (policyError "Changed file count is invalid")
    else do
      let most ← limitOf policy "maxChangedFiles" Limits.maxChangedFiles
      if most < names.length then .error (policyError "Changed file count is invalid")
      else do
        checkNames ws policy untracked names
        let numstat ← ws.diffNumstat
        let lines ← countLines 0 (splitBytes NUL numstat)
        let most ← limitOf policy "maxDiffLines" Limits.maxDiffLines
        if most < lines then .error (policyError "Diff line limit exceeded")
        else do
          let _ ← ws.diffCheck
          let raw ← ws.diffText
          let diff ← decodeText raw
          if Limits.diffBytes < (Utf8.encode diff).length then .error (policyError "Diff size limit exceeded")
          else .ok (names, diff)

/-! ## What passes -/

/-- Some pattern of `policy[key]` matches. -/
def Matched (policy : Json) (key : String) (name : PyStr) : Prop :=
  ∃ patterns, stringsOf policy key = .ok patterns ∧ patterns.any (fnmatchcase name) = true

/-- No pattern of `policy[key]` matches. -/
def Unmatched (policy : Json) (key : String) (name : PyStr) : Prop :=
  ∃ patterns, stringsOf policy key = .ok patterns ∧ patterns.any (fnmatchcase name) = false

/-- What the loop over the changed names checks of one of them, but for the modes in the index. -/
structure NameChecked (ws : Workspace) (policy : Json) (untracked : List PyStr) (name : PyStr) : Prop where
  allowed : Matched policy "allowedPaths" name
  denied : Unmatched policy "deniedPaths" name
  unprotected : isProtected name = false
  tests : startsWith name (lit "tests/") = true → name ∈ untracked
  plain : ws.stat name = .missing ∨ ws.stat name = .file

/-- A check that raises. -/
theorem raise_eq_ok {α : Type} {c : Prop} [Decidable c] {e : Exn} {x : Except Exn α} {a : α} :
    (if c then .error e else x) = .ok a ↔ ¬ c ∧ x = .ok a := by
  by_cases hc : c <;> simp [hc]

section

variable {ws : Workspace} {policy : Json} {untracked : List PyStr}

theorem checkName_ok {name : PyStr} (h : checkName ws policy untracked name = .ok ()) :
    NameChecked ws policy untracked name := by
  obtain ⟨-, h⟩ := raise_eq_ok.mp h
  obtain ⟨allowed, ha, h⟩ := bind_eq_ok.mp h
  obtain ⟨h₁, h⟩ := raise_eq_ok.mp h
  obtain ⟨denied, hd, h⟩ := bind_eq_ok.mp h
  obtain ⟨h₂, h⟩ := raise_eq_ok.mp h
  obtain ⟨h₃, h⟩ := raise_eq_ok.mp h
  obtain ⟨h₄, h⟩ := raise_eq_ok.mp h
  obtain ⟨h₅, -⟩ := raise_eq_ok.mp h
  exact {
    allowed := ⟨allowed, ha, by simpa using h₁⟩
    denied := ⟨denied, hd, by simpa using h₂⟩
    unprotected := by simpa using h₃
    tests := fun ht => by simpa [ht] using h₄
    plain := by
      rw [not_or, not_and_not_right] at h₅
      by_cases hm : ws.stat name = .missing
      · exact Or.inl hm
      · exact Or.inr (h₅.2 hm) }

theorem checkNames_ok {names : List PyStr} (h : checkNames ws policy untracked names = .ok ()) :
    ∀ name ∈ names, NameChecked ws policy untracked name := by
  induction names with
  | nil => simp
  | cons name names ih =>
    obtain ⟨⟨⟩, h₁, h₂⟩ := bind_eq_ok.mp h
    exact List.forall_mem_cons.mpr ⟨checkName_ok h₁, ih h₂⟩

theorem addUntracked_ok {paths : List PyStr} (h : addUntracked ws paths = .ok ()) :
    ∀ path ∈ paths, ws.stat path = .file := by
  induction paths with
  | nil => simp
  | cons path paths ih =>
    obtain ⟨hs, h⟩ := raise_eq_ok.mp h
    obtain ⟨_, -, h⟩ := bind_eq_ok.mp h
    exact List.forall_mem_cons.mpr ⟨not_not.mp hs, ih h⟩

/-- **What `check_diff` has seen** when it returns. -/
theorem checkDiff_ok {names : List PyStr} {diff : PyStr} (h : checkDiff ws policy = .ok (names, diff)) :
    ws.lsIgnored = .ok [] ∧
    (∃ raw untracked, ws.lsOthers = .ok raw ∧ pathsOf raw = .ok untracked ∧ (∀ path ∈ untracked, ws.stat path = .file) ∧
      ∀ name ∈ names, NameChecked ws policy untracked name) ∧
    (∃ raw, ws.diffNameOnly = .ok raw ∧ pathsOf raw = .ok names) ∧
    (∃ most, limitOf policy "maxChangedFiles" Limits.maxChangedFiles = .ok most ∧ (names.length : ℤ) ≤ most) ∧
    ∃ raw lines, ws.diffNumstat = .ok raw ∧ countLines 0 (splitBytes NUL raw) = .ok lines ∧
      (∃ most, limitOf policy "maxDiffLines" Limits.maxDiffLines = .ok most ∧ lines ≤ most) ∧
      ∃ raw, ws.diffText = .ok raw ∧ decodeText raw = .ok diff := by
  obtain ⟨ignored, hi, h⟩ := bind_eq_ok.mp h
  obtain ⟨h₁, h⟩ := raise_eq_ok.mp h
  obtain ⟨others, ho, h⟩ := bind_eq_ok.mp h
  obtain ⟨untracked, hu, h⟩ := bind_eq_ok.mp h
  obtain ⟨⟨⟩, hadd, h⟩ := bind_eq_ok.mp h
  obtain ⟨listed, hl, h⟩ := bind_eq_ok.mp h
  obtain ⟨names', hn, h⟩ := bind_eq_ok.mp h
  obtain ⟨h₂, h⟩ := raise_eq_ok.mp h
  obtain ⟨most, hm, h⟩ := bind_eq_ok.mp h
  obtain ⟨h₃, h⟩ := raise_eq_ok.mp h
  obtain ⟨⟨⟩, hc, h⟩ := bind_eq_ok.mp h
  obtain ⟨numstat, hs, h⟩ := bind_eq_ok.mp h
  obtain ⟨lines, hlines, h⟩ := bind_eq_ok.mp h
  obtain ⟨most', hm', h⟩ := bind_eq_ok.mp h
  obtain ⟨h₄, h⟩ := raise_eq_ok.mp h
  obtain ⟨_, -, h⟩ := bind_eq_ok.mp h
  obtain ⟨text, ht, h⟩ := bind_eq_ok.mp h
  obtain ⟨diff', hd, h⟩ := bind_eq_ok.mp h
  obtain ⟨h₅, h⟩ := raise_eq_ok.mp h
  cases h
  have hempty : ignored = [] := by simpa using h₁
  exact ⟨hempty ▸ hi, ⟨others, untracked, ho, hu, addUntracked_ok hadd, checkNames_ok hc⟩, ⟨listed, hl, hn⟩,
    ⟨most, hm, not_lt.mp h₃⟩, numstat, lines, hs, hlines, ⟨most', hm', not_lt.mp h₄⟩, text, ht, hd⟩

end

end Aeh
