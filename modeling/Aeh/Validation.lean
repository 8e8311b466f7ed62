import Aeh.CheckDiff
import Aeh.RunOne

/-!
# Validation — `aeh/validation.py`

What the host answers, `bwrap`, the paths it binds and the processes it starts, is the parameter `Sandbox`.
-/

namespace Aeh

/-- A process from `Popen` to its end or its time limit; `output` is all it wrote. -/
structure CommandRun where
  timedOut : Bool
  returncode : ℤ
  output : Bytes
  durationMs : ℕ

namespace CommandRun

def exitCode (run : CommandRun) : Option ℤ := if run.timedOut then none else some run.returncode

def status (run : CommandRun) : String :=
  if run.timedOut then "TIMED_OUT" else if run.exitCode = some 0 then "PASSED" else "FAILED"

/-- The entry of the results. -/
def entry (run : CommandRun) (id : Json) : Json :=
  .obj [(lit "id", id), (lit "status", .str (lit run.status)),
    (lit "exitCode", match run.exitCode with
      | some n => .int n
      | none => .null),
    (lit "durationMs", .int run.durationMs),
    (lit "output", .str (scrub (Utf8.decodeReplace (run.output.take Limits.streamBytes)) Limits.streamBytes))]

end CommandRun

/-- A host as `run_validation` sees it; `popen n` is the `n`-th process of the call. -/
structure Sandbox where
  bwrap : Bool
  pathExists : PyStr → Bool
  popen : ℕ → List PyStr → ℤ → Except Exn CommandRun

namespace Sandbox

variable (sandbox : Sandbox) (workspace : PyStr)

/-- `_command`. -/
def command (argv : List PyStr) : Except Exn (List PyStr) :=
  if !sandbox.bwrap then .error (aehError 503 "AEH-CODEX-502-001" "Network-isolated validation is unavailable")
  else
    let binds := [lit "/lib64", lit "/usr/local"].filter sandbox.pathExists
    .ok (["bwrap", "--unshare-net", "--die-with-parent", "--new-session", "--ro-bind", "/usr", "/usr", "--ro-bind",
        "/bin", "/bin", "--ro-bind", "/lib", "/lib", "--proc", "/proc", "--dev", "/dev", "--tmpfs", "/tmp", "--dir",
        "/workspace", "--bind"].map lit ++ workspace ::
      ["/workspace", "--chdir", "/workspace", "--setenv", "HOME", "/tmp"].map lit ++
      binds.flatMap (fun path => [lit "--ro-bind", path, path]) ++ lit "--" :: argv)

/-- Programs no policy may register. -/
def unregistered : List PyStr := [lit "sh", lit "bash", lit "zsh", lit "curl", lit "wget", lit "git"]

/-- The body of the loop up to `Popen`: the command line and its seconds. -/
def prepare (item : Json) : Except Exn (List PyStr × ℤ) := do
  let argv ← stringsOf item "argv"
  if argv.isEmpty || argv.head?.any unregistered.contains then .error (policyError "Unregistered validation command")
  else do
    let timeout ← limitOf item "timeoutSeconds" Limits.commandSeconds
    let command ← sandbox.command workspace argv
    .ok (command, timeout)

/-- The body of the loop for the `n`-th command, from its checks to the end of its process. -/
def launch (n : ℕ) (item : Json) : Except Exn CommandRun := do
  let (command, timeout) ← sandbox.prepare workspace item
  sandbox.popen n command timeout

end Sandbox

/-- `ValidationFailure(results)`. -/
def ValidationFailure.of (results : List Json) : ValidationFailure :=
  ⟨"AEH-VALIDATION-422-001", scrub (lit "Registered validation command failed") 2048, results⟩

section Loop

variable {m : Type → Type} [Monad m] (raise : ∀ {α : Type}, Except Exn α → m α) (start : ℕ → Json → m CommandRun)

/-- The loop over the commands, with the results so far, where `start n` answers for the `n`-th process. -/
def itemLoop : List Json → List Json → m (Except ValidationFailure (List Json))
  | results, [] => pure (.ok results)
  | results, item :: items => do
    let run ← start results.length item
    let id ← raise (item.getItem "id")
    if run.status ≠ "PASSED" then pure (.error (.of (results ++ [run.entry id])))
    else itemLoop (results ++ [run.entry id]) items

/-- The body of `run_validation`. -/
def validationLoop (policy : Json) : m (Except ValidationFailure (List Json)) := do
  match ← raise (policy.getItem "validationCommands") with
  | .arr items => itemLoop raise start [] items
  | _ => raise (.error .attributeError)

end Loop

namespace Sandbox

variable (sandbox : Sandbox) (workspace : PyStr)

/-- The loop where the host answers for the processes. -/
def runItems : List Json → List Json → Except Exn (Except ValidationFailure (List Json)) :=
  itemLoop (fun x => x) (sandbox.launch workspace)

/-- `run_validation`; a `ValidationFailure` is the inner error. -/
def runValidation (policy : Json) : Except Exn (Except ValidationFailure (List Json)) :=
  validationLoop (fun x => x) (sandbox.launch workspace) policy

/-! ## What a success shows -/

/-- The `n`-th process ran the command of `item`, which `bwrap` is given last, ended with exit code 0 and is reported by
`entry`. -/
def Passes (n : ℕ) (item entry : Json) : Prop :=
  ∃ argv timeout command run id, stringsOf item "argv" = .ok argv ∧
    limitOf item "timeoutSeconds" Limits.commandSeconds = .ok timeout ∧ sandbox.command workspace argv = .ok command ∧
    ([lit "bwrap"] <+: command ∧ lit "--" :: argv <:+ command) ∧
    sandbox.popen n command timeout = .ok run ∧ run.exitCode = some 0 ∧ item.getItem "id" = .ok id ∧
    entry = run.entry id

variable {sandbox workspace}

theorem status_passed {run : CommandRun} : run.status = "PASSED" ↔ run.exitCode = some 0 := by
  unfold CommandRun.status CommandRun.exitCode
  cases run.timedOut
  · by_cases h : run.returncode = 0 <;> simp [h]
  · simp

theorem command_ok {argv command : List PyStr} (h : sandbox.command workspace argv = .ok command) :
    [lit "bwrap"] <+: command ∧ lit "--" :: argv <:+ command := by
  unfold Sandbox.command at h
  split_ifs at h
  cases h
  exact ⟨List.prefix_append _ _, List.suffix_append _ _⟩

/-- One turn of the loop. -/
theorem runItems_cons (results : List Json) (item : Json) (items : List Json) :
    sandbox.runItems workspace results (item :: items) =
      sandbox.launch workspace results.length item >>= fun run => item.getItem "id" >>= fun id =>
        if run.status ≠ "PASSED" then .ok (.error (.of (results ++ [run.entry id])))
        else sandbox.runItems workspace (results ++ [run.entry id]) items := rfl

theorem launch_ok {n : ℕ} {item id : Json} {run : CommandRun} (h : sandbox.launch workspace n item = .ok run)
    (hid : item.getItem "id" = .ok id) (hr : run.exitCode = some 0) :
    sandbox.Passes workspace n item (run.entry id) := by
  obtain ⟨⟨command, timeout⟩, hprepare, hrun⟩ := bind_eq_ok.mp h
  obtain ⟨argv, hargv, hprepare⟩ := bind_eq_ok.mp hprepare
  split_ifs at hprepare with hno
  obtain ⟨timeout', htimeout, hprepare⟩ := bind_eq_ok.mp hprepare
  obtain ⟨command', hcommand, hprepare⟩ := bind_eq_ok.mp hprepare
  cases hprepare
  exact ⟨argv, timeout, command, run, id, hargv, htimeout, hcommand, command_ok hcommand, hrun, hr, hid, rfl⟩

/-- Every entry of a success has passed, in the order of the commands. -/
theorem runItems_ok {results items all : List Json} (h : sandbox.runItems workspace results items = .ok (.ok all)) :
    ∃ new, all = results ++ new ∧ new.length = items.length ∧ ∀ n item, items[n]? = some item →
      ∃ entry, new[n]? = some entry ∧ sandbox.Passes workspace (results.length + n) item entry := by
  induction items generalizing results with
  | nil =>
    obtain rfl := Except.ok.inj (Except.ok.inj h)
    exact ⟨[], by simp, rfl, by simp⟩
  | cons item items ih =>
    rw [runItems_cons] at h
    obtain ⟨run, hrun, h⟩ := bind_eq_ok.mp h
    obtain ⟨id, hid, h⟩ := bind_eq_ok.mp h
    by_cases hs : run.status = "PASSED"
    · rw [if_neg (not_not.mpr hs)] at h
      obtain ⟨new, rfl, hlen, hall⟩ := ih h
      refine ⟨run.entry id :: new, by simp, by simp [hlen], fun n item' hn => ?_⟩
      cases n with
      | zero =>
        cases hn
        exact ⟨run.entry id, rfl, launch_ok hrun hid (status_passed.mp hs)⟩
      | succ n =>
        obtain ⟨entry', he, hp⟩ := hall n item' hn
        rw [List.length_append, List.length_singleton, Nat.add_assoc, Nat.add_comm 1] at hp
        exact ⟨entry', he, hp⟩
    · rw [if_pos hs] at h
      cases h

/-- A failure has the code of `ValidationFailure`. -/
theorem runItems_failure {results items : List Json} {failure : ValidationFailure}
    (h : sandbox.runItems workspace results items = .ok (.error failure)) : failure.code = "AEH-VALIDATION-422-001" := by
  induction items generalizing results with
  | nil => cases h
  | cons item items ih =>
    rw [runItems_cons] at h
    obtain ⟨run, -, h⟩ := bind_eq_ok.mp h
    obtain ⟨id, -, h⟩ := bind_eq_ok.mp h
    by_cases hs : run.status = "PASSED"
    · rw [if_neg (not_not.mpr hs)] at h
      exact ih h
    · rw [if_pos hs] at h
      cases h
      rfl

/-- The commands are a list, and the loop over them answers. -/
theorem runValidation_loop {policy : Json} {r : Except ValidationFailure (List Json)}
    (h : sandbox.runValidation workspace policy = .ok r) :
    ∃ items, policy.getItem "validationCommands" = .ok (.arr items) ∧ sandbox.runItems workspace [] items = .ok r := by
  obtain ⟨value, hv, h⟩ := bind_eq_ok.mp h
  cases value with
  | arr items => exact ⟨items, hv, h⟩
  | _ => cases h

theorem runValidation_failure {policy : Json} {failure : ValidationFailure}
    (h : sandbox.runValidation workspace policy = .ok (.error failure)) : failure.code = "AEH-VALIDATION-422-001" := by
  obtain ⟨items, -, h⟩ := runValidation_loop h
  exact runItems_failure h

theorem runValidation_ok {policy : Json} {all : List Json}
    (h : sandbox.runValidation workspace policy = .ok (.ok all)) :
    ∃ items, policy.getItem "validationCommands" = .ok (.arr items) ∧ all.length = items.length ∧
      ∀ n item, items[n]? = some item → ∃ entry, all[n]? = some entry ∧ sandbox.Passes workspace n item entry := by
  obtain ⟨items, hv, h⟩ := runValidation_loop h
  obtain ⟨new, rfl, hlen, hall⟩ := runItems_ok h
  refine ⟨items, hv, hlen, fun n item hn => ?_⟩
  obtain ⟨entry, he, hp⟩ := hall n item hn
  rw [List.length_nil, Nat.zero_add] at hp
  exact ⟨entry, he, hp⟩

/-- The entry of a command that passed. -/
theorem Passes.reported {n : ℕ} {item entry : Json} (h : sandbox.Passes workspace n item entry) :
    entry.get? "id" = item.get? "id" ∧ entry.get? "status" = some (.str (lit "PASSED")) ∧
      entry.get? "exitCode" = some (.int 0) := by
  obtain ⟨_, _, _, run, id, -, -, -, -, -, hr, hid, rfl⟩ := h
  have hs := status_passed.mpr hr
  refine ⟨?_, ?_, ?_⟩
  · unfold Json.getItem at hid
    cases hi : item.get? "id" with
    | none =>
      rw [hi] at hid
      cases hid
    | some v =>
      rw [hi] at hid
      cases hid
      rfl
  · rw [← hs]
    rfl
  · simp only [CommandRun.entry, hr]
    rfl

end Sandbox

end Aeh
