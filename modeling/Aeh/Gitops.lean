import Aeh.Config
import Aeh.Py.Bytes

/-!
# Gitops — `aeh/gitops.py`: running Git and resolving a commit

What a host answers, a Git process or the resolution of a path, is the parameter `GitHost`.
-/

namespace Aeh

/-- How `subprocess.run` of one Git command ends; `noRepository` is Git's exit with an error because the directory is
missing or belongs to no repository. -/
inductive GitRun where
  | osError
  | timeoutExpired
  | noRepository
  | exited (returncode : ℤ) (stdout : Bytes)
deriving DecidableEq

/-- A host as `gitops` sees it: `resolvePath` is `Path(text).resolve()`, `resolveAgain` is `repo.resolve()`. -/
structure GitHost where
  run : AbsPath → List PyStr → GitRun
  resolvePath : PyStr → AbsPath
  resolveAgain : AbsPath → AbsPath

def invalidOperation : Exn := aehError 422 "AEH-GIT-422-001" "Commit or Git operation is invalid"

def gitUnavailable : Exn := aehError 503 "AEH-GIT-503-001" "Git repository is unavailable"

/-- `bytes.decode()`; a `UnicodeDecodeError` is a `ValueError`. -/
def decodeText (b : Bytes) : Except Exn PyStr :=
  match Utf8.decode b with
  | some text => .ok text
  | none => .error (.valueError (lit "invalid start byte"))

/-- `git rev-parse --show-toplevel`. -/
def topArgs : List PyStr := [lit "rev-parse", lit "--show-toplevel"]

/-- `git rev-parse --verify` of a commit. -/
def verifyArgs (ref : PyStr) : List PyStr := [lit "rev-parse", lit "--verify", lit "--end-of-options", ref]

/-- `git worktree add`. -/
def worktreeArgs (path sha : PyStr) : List PyStr :=
  [lit "worktree", lit "add", lit "--detach", lit "--", path, sha]

theorem verifyArgs_ne_topArgs (ref : PyStr) : verifyArgs ref ≠ topArgs := fun h => by
  have := congrArg List.length h
  exact absurd this (by decide : ¬ 4 = 2)

/-- `[0-9a-f]`. -/
def isLowerHex (c : CodePoint) : Bool := isDigit c || ((cp 'a').val ≤ c.val && c.val ≤ (cp 'f').val)

/-- `[0-9a-fA-F]`. -/
def isHex (c : CodePoint) : Bool := isLowerHex c || ((cp 'A').val ≤ c.val && c.val ≤ (cp 'F').val)

/-- The class of branch names: ASCII letters, digits, `.`, `_`, `/` and the hyphen. -/
def isBranchChar (c : CodePoint) : Bool :=
  isDigit c || ((cp 'A').val ≤ c.val && c.val ≤ (cp 'Z').val) || ((cp 'a').val ≤ c.val && c.val ≤ (cp 'z').val) ||
    (lit "._/-").contains c

/-- What `resolve_commit` asks Git for. -/
def commitRef (sha : Option PyStr) (defaultBranch : PyStr) : Except Exn PyStr :=
  match sha with
  | some sha =>
    if ¬ (sha.all isHex ∧ 7 ≤ sha.length ∧ sha.length ≤ 64) then
      .error (aehError 422 "AEH-GIT-422-001" "Invalid commit SHA")
    else .ok (sha ++ lit "^\x7bcommit\x7d")
  | none =>
    if ¬ (defaultBranch.all isBranchChar ∧ defaultBranch ≠ []) ∨ contains defaultBranch (lit "..") then
      .error (aehError 503 "AEH-GIT-503-001" "Default branch is invalid")
    else .ok (lit "refs/heads/" ++ defaultBranch ++ lit "^\x7bcommit\x7d")

namespace GitHost

variable (host : GitHost)

/-- `git`. -/
def git (repo : AbsPath) (args : List PyStr) : Except Exn Bytes :=
  match host.run repo args with
  | .osError | .timeoutExpired => .error gitUnavailable
  | .noRepository => .error invalidOperation
  | .exited returncode stdout => if returncode ≠ 0 then .error invalidOperation else .ok stdout

/-- The `try` of `resolve_commit`: the top level Git names. -/
def showToplevel (repo : AbsPath) : Except Exn AbsPath :=
  match host.git repo topArgs with
  | .error (.aeh ..) => .error gitUnavailable
  | .error e => .error e
  | .ok stdout => do
    let text ← decodeText stdout
    .ok (host.resolvePath (strip text))

/-- `resolve_commit`. -/
def resolveCommit (repo : AbsPath) (sha : Option PyStr) (defaultBranch : PyStr) : Except Exn PyStr := do
  let top ← host.showToplevel repo
  if top ≠ host.resolveAgain repo then .error (aehError 503 "AEH-GIT-503-001" "Repository root is invalid")
  else do
    let ref ← commitRef sha defaultBranch
    let stdout ← host.git repo (verifyArgs ref)
    let text ← decodeText stdout
    let full := strip text
    if ¬ (full.length = 40 ∨ full.length = 64) ∨ ¬ full.all isLowerHex then
      .error (aehError 422 "AEH-GIT-422-001" "Commit SHA did not resolve uniquely")
    else .ok full

variable {host} {repo : AbsPath} {args : List PyStr} {sha : Option PyStr} {branch : PyStr}

/-- Git does not start or does not end in time. -/
theorem git_fails (h : host.run repo args = .osError ∨ host.run repo args = .timeoutExpired) :
    host.git repo args = .error gitUnavailable := by
  unfold git
  rcases h with h | h <;> rw [h]

theorem git_gone (h : host.run repo args = .noRepository) : host.git repo args = .error invalidOperation := by
  unfold git
  rw [h]

/-- Whatever keeps Git from naming the top level is reported as an unavailable repository. -/
theorem showToplevel_error {e : Exn} (h : host.git repo topArgs = .error e) (he : e = gitUnavailable ∨ e = invalidOperation) :
    host.showToplevel repo = .error gitUnavailable := by
  unfold showToplevel
  rw [h]
  rcases he with rfl | rfl <;> rfl

theorem resolveCommit_top {e : Exn} (h : host.showToplevel repo = .error e) :
    host.resolveCommit repo sha branch = .error e := by
  unfold resolveCommit
  rw [h]
  rfl

/-- The second command fails. -/
theorem resolveCommit_verify {ref : PyStr} {e : Exn} (ht : host.showToplevel repo = .ok (host.resolveAgain repo))
    (href : commitRef sha branch = .ok ref) (h : host.git repo (verifyArgs ref) = .error e) :
    host.resolveCommit repo sha branch = .error e := by
  unfold resolveCommit
  rw [ht]
  show (if _ then _ else _) = _
  rw [if_neg (by simp), href]
  show (host.git repo (verifyArgs ref) >>= _) = _
  rw [h]
  rfl

/-- The commands `resolve_commit` comes to. -/
inductive Asks (host : GitHost) (repo : AbsPath) (sha : Option PyStr) (branch : PyStr) : List PyStr → Prop
  | top : host.Asks repo sha branch topArgs
  | verify {ref : PyStr} : host.showToplevel repo = .ok (host.resolveAgain repo) → commitRef sha branch = .ok ref →
      host.Asks repo sha branch (verifyArgs ref)

/-- `resolve_commit` ends with the first command that fails. -/
theorem Asks.error {e : Exn} (ha : host.Asks repo sha branch args) (h : host.git repo args = .error e)
    (he : e = gitUnavailable ∨ e = invalidOperation) :
    host.resolveCommit repo sha branch = .error (if args = topArgs then gitUnavailable else e) := by
  cases ha with
  | top =>
    rw [if_pos rfl]
    exact resolveCommit_top (showToplevel_error h he)
  | @verify ref ht href =>
    rw [if_neg (verifyArgs_ne_topArgs ref)]
    exact resolveCommit_verify ht href h

/-- A command of `resolve_commit` prints what is no UTF-8. -/
def Garbled (host : GitHost) (repo : AbsPath) (sha : Option PyStr) (branch : PyStr) : Prop :=
  ∃ args stdout, host.Asks repo sha branch args ∧ host.git repo args = .ok stdout ∧ Utf8.decode stdout = none

theorem git_error {e : Exn} (h : host.git repo args = .error e) : e = gitUnavailable ∨ e = invalidOperation := by
  unfold git at h
  split at h
  · exact Or.inl (Except.error.inj h).symm
  · exact Or.inl (Except.error.inj h).symm
  · exact Or.inr (Except.error.inj h).symm
  · split_ifs at h
    exact Or.inr (Except.error.inj h).symm

/-- `resolve_commit` raises `AehError` or could not read what Git has printed. -/
theorem resolveCommit_error {e : Exn} (h : host.resolveCommit repo sha branch = .error e) :
    (∃ detail, e = aehError 503 "AEH-GIT-503-001" detail ∨ e = aehError 422 "AEH-GIT-422-001" detail) ∨
      host.Garbled repo sha branch := by
  have text : ∀ {args stdout}, host.Asks repo sha branch args → host.git repo args = .ok stdout → ∀ {e'},
      decodeText stdout = .error e' → host.Garbled repo sha branch := by
    intro args stdout ha hg e' hd
    refine ⟨args, stdout, ha, hg, ?_⟩
    unfold decodeText at hd
    split at hd
    · cases hd
    · assumption
  have own : ∀ {e'}, e' = gitUnavailable ∨ e' = invalidOperation →
      ∃ detail, e' = aehError 503 "AEH-GIT-503-001" detail ∨ e' = aehError 422 "AEH-GIT-422-001" detail := by
    rintro _ (rfl | rfl)
    · exact ⟨_, Or.inl rfl⟩
    · exact ⟨_, Or.inr rfl⟩
  rcases bind_eq_error.mp h with ht | ⟨top, ht, h⟩
  · unfold showToplevel at ht
    split at ht
    · obtain rfl := Except.error.inj ht
      exact Or.inl (own (Or.inl rfl))
    · rename_i hg
      obtain rfl := Except.error.inj ht
      exact Or.inl (own (git_error hg))
    · rename_i stdout hg
      rcases bind_eq_error.mp ht with hd | ⟨_, _, hd⟩
      · exact Or.inr (text .top hg hd)
      · cases hd
  · split_ifs at h with hne
    · exact Or.inl ⟨_, Or.inl (Except.error.inj h).symm⟩
    · obtain rfl := not_not.mp hne
      rcases bind_eq_error.mp h with hr | ⟨ref, href, h⟩
      · unfold commitRef at hr
        split at hr
        · split_ifs at hr
          exact Or.inl ⟨_, Or.inr (Except.error.inj hr).symm⟩
        · split_ifs at hr
          exact Or.inl ⟨_, Or.inl (Except.error.inj hr).symm⟩
      · rcases bind_eq_error.mp h with hg | ⟨stdout, hg, h⟩
        · exact Or.inl (own (git_error hg))
        · rcases bind_eq_error.mp h with hd | ⟨_, _, h⟩
          · exact Or.inr (text (.verify ht href) hg hd)
          · dsimp only at h
            split_ifs at h
            exact Or.inl ⟨_, Or.inr (Except.error.inj h).symm⟩

/-- What Git prints cannot be read. -/
theorem resolveCommit_garbled (h : host.Garbled repo sha branch) :
    host.resolveCommit repo sha branch = .error (.valueError (lit "invalid start byte")) := by
  obtain ⟨args, stdout, ha, hg, hn⟩ := h
  have hd : decodeText stdout = .error (.valueError (lit "invalid start byte")) := by
    unfold decodeText
    rw [hn]
  cases ha with
  | top =>
    refine resolveCommit_top ?_
    unfold showToplevel
    rw [hg]
    show (decodeText stdout >>= _) = _
    rw [hd]
    rfl
  | verify ht href =>
    unfold resolveCommit
    rw [ht]
    show (if _ then _ else _) = _
    rw [if_neg (by simp), href]
    show (host.git repo _ >>= _) = _
    rw [hg]
    show (decodeText stdout >>= _) = _
    rw [hd]
    rfl

end GitHost

end Aeh
