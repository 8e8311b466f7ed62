import Mathlib.Data.Rat.Floor
import Mathlib.Tactic.Linarith
import Aeh.CommandOutput

/-!
# CommandDeadline — `run_validation` in time

The loop that reads a process tests the deadline; `process.wait()` after it does not.  So a process is handled in time
exactly where it is killed while its output is still open, or exits by its deadline (`Process.prompt_iff`).  Nothing
catches an error of `Popen`.  A call is as promised exactly where every command it comes to is started and its process
is such a process (`run_validation_timely`).  The code itself takes no time here.
-/

namespace Aeh

/-! ## A process and the loop that reads it -/

/-- A process, in seconds from its start: what `os.read` answers and from when on, the empty answer at the end of the
output; when it exits, if it is not killed, and its code; how long it takes to be reaped once it is killed. -/
structure Process where
  reads : List (ℚ × Bytes)
  exit : Option (ℚ × ℤ)
  reap : ℚ
  reap_nonneg : 0 ≤ reap

/-- How the loop over `selector.get_map()` ends, when, and with what in `captured`. -/
inductive Reading where
  | killed (now : ℚ) (captured : Bytes)
  | ended (now : ℚ) (captured : Bytes)

def Reading.captured : Reading → Bytes
  | killed _ captured | ended _ captured => captured

/-- The loop over `selector.get_map()`. -/
def readLoop (deadline : ℚ) : ℚ → Bytes → List (ℚ × Bytes) → Reading
  | now, captured, [] => .killed (max now deadline) captured
  | now, captured, (t, chunk) :: rest =>
    if deadline - now ≤ 0 then .killed now captured
    -- nothing comes in what remains: `select` answers with no key at the deadline
    else if deadline < t then .killed deadline captured
    else if chunk = [] then .ended (max now t) captured
    else readLoop deadline (max now t) (capture captured chunk) rest

/-- A command that was started: its run, the seconds from its start to the end of `process.wait()`, and those of them
after the kill. -/
structure Handled where
  run : CommandRun
  seconds : ℚ
  reaping : ℚ

namespace Process

/-- `int((time.monotonic() - started) * 1000)`. -/
def durationMs (seconds : ℚ) : ℕ := ⌊seconds * 1000⌋.toNat

/-- The return code of a process that is killed at `now`. -/
def killedCode (process : Process) (now : ℚ) : ℤ :=
  match process.exit with
  | some (t, code) => if t ≤ now then code else -9
  | none => -9

/-- From `Popen` to the end of `process.wait()`, which is `none` where it waits forever. -/
def handle (process : Process) (timeout : ℤ) : Option Handled :=
  match readLoop timeout 0 [] process.reads with
  | .killed now captured =>
    let seconds := now + process.reap
    some ⟨⟨true, process.killedCode now, captured, durationMs seconds⟩, seconds, process.reap⟩
  | .ended now captured =>
    match process.exit with
    | none => none
    | some (t, code) => some ⟨⟨false, code, captured, durationMs (max now t)⟩, max now t, 0⟩

end Process

/-! ## What a process does by its deadline -/

/-- The output ends while the loop still reads. -/
def EndsIn (limit : ℚ) (reads : List (ℚ × Bytes)) : Prop :=
  ∃ before t rest, reads = before ++ (t, []) :: rest ∧ (∀ r ∈ before, r.1 < limit ∧ r.2 ≠ []) ∧ t ≤ limit

theorem not_endsIn_nil {limit : ℚ} : ¬ EndsIn limit [] := by
  rintro ⟨before, t, rest, h, -⟩
  cases before <;> cases h

theorem endsIn_end {limit t : ℚ} {rest : List (ℚ × Bytes)} : EndsIn limit ((t, []) :: rest) ↔ t ≤ limit := by
  constructor
  · rintro ⟨before, t', rest', h, hb, ht⟩
    cases before with
    | nil =>
      cases h
      exact ht
    | cons r before =>
      cases h
      exact absurd rfl (hb _ List.mem_cons_self).2
  · intro ht
    exact ⟨[], t, rest, rfl, nofun, ht⟩

theorem endsIn_chunk {limit t : ℚ} {chunk : Bytes} {rest : List (ℚ × Bytes)} (hc : chunk ≠ []) :
    EndsIn limit ((t, chunk) :: rest) ↔ t < limit ∧ EndsIn limit rest := by
  constructor
  · rintro ⟨before, t', rest', h, hb, ht⟩
    cases before with
    | nil =>
      cases h
      exact absurd rfl hc
    | cons r before =>
      cases h
      exact ⟨(hb _ List.mem_cons_self).1, before, t', rest', rfl, fun r hr => hb r (List.mem_cons_of_mem _ hr), ht⟩
  · rintro ⟨hlt, before, t', rest', rfl, hb, ht⟩
    refine ⟨(t, chunk) :: before, t', rest', rfl, fun r hr => ?_, ht⟩
    rcases List.mem_cons.mp hr with rfl | hr
    · exact ⟨hlt, hc⟩
    · exact hb r hr

/-- At the deadline the process is killed. -/
theorem readLoop_deadline (deadline : ℚ) (captured : Bytes) (reads : List (ℚ × Bytes)) :
    readLoop deadline deadline captured reads = .killed deadline captured := by
  cases reads with
  | nil => simp [readLoop]
  | cons r rest => simp [readLoop]

/-- **The loop** is over by the deadline; it sees the end of the output or kills the process. -/
theorem readLoop_spec {deadline now : ℚ} (hn : now < deadline) (captured : Bytes) (reads : List (ℚ × Bytes)) :
    (EndsIn deadline reads ∧ ∃ now' captured', readLoop deadline now captured reads = .ended now' captured' ∧
      now' ≤ deadline) ∨
    (¬ EndsIn deadline reads ∧ ∃ now' captured', readLoop deadline now captured reads = .killed now' captured' ∧
      now' ≤ deadline) := by
  induction reads generalizing now captured with
  | nil => exact Or.inr ⟨not_endsIn_nil, _, _, rfl, max_le hn.le le_rfl⟩
  | cons r rest ih =>
    obtain ⟨t, chunk⟩ := r
    have hrem : ¬ deadline - now ≤ 0 := by linarith
    unfold readLoop
    rw [if_neg hrem]
    by_cases ht : deadline < t
    · rw [if_pos ht]
      refine Or.inr ⟨fun he => ?_, _, _, rfl, le_rfl⟩
      by_cases hc : chunk = []
      · subst hc
        have := endsIn_end.mp he
        linarith
      · have := ((endsIn_chunk hc).mp he).1
        linarith
    rw [if_neg ht]
    have ht : t ≤ deadline := not_lt.mp ht
    by_cases hc : chunk = []
    · subst hc
      rw [if_pos rfl]
      exact Or.inl ⟨endsIn_end.mpr ht, _, _, rfl, max_le hn.le ht⟩
    rw [if_neg hc, endsIn_chunk hc]
    rcases ht.lt_or_eq with ht | rfl
    · simpa only [ht, true_and] using ih (max_lt hn ht) (capture captured chunk)
    · -- the next turn finds no time left
      have hmax : max now t = t := max_eq_right hn.le
      rw [hmax, readLoop_deadline]
      exact Or.inr ⟨fun h => lt_irrefl _ h.1, _, _, rfl, le_rfl⟩

/-- What is in `captured` are chunks of the process, in order. -/
theorem readLoop_captured (deadline now : ℚ) (captured : Bytes) (reads : List (ℚ × Bytes)) :
    ∃ chunks, chunks <+: reads.map Prod.snd ∧
      (readLoop deadline now captured reads).captured = chunks.foldl capture captured := by
  induction reads generalizing now captured with
  | nil => exact ⟨[], List.nil_prefix, rfl⟩
  | cons r rest ih =>
    obtain ⟨t, chunk⟩ := r
    unfold readLoop
    split_ifs
    · exact ⟨[], List.nil_prefix, rfl⟩
    · exact ⟨[], List.nil_prefix, rfl⟩
    · exact ⟨[], List.nil_prefix, rfl⟩
    · obtain ⟨chunks, hp, hc⟩ := ih (max now t) (capture captured chunk)
      exact ⟨chunk :: chunks, List.cons_prefix_cons.mpr ⟨rfl, hp⟩, hc⟩

namespace Process

/-- The process exits with code 0 in time. -/
def PassesBy (process : Process) (limit : ℚ) : Prop := ∃ t, process.exit = some (t, 0) ∧ t ≤ limit

/-- A process whose output ends in time exits in time. -/
def Prompt (process : Process) (limit : ℚ) : Prop :=
  EndsIn limit process.reads → ∃ t code, process.exit = some (t, code) ∧ t ≤ limit

variable {process : Process} {timeout : ℤ}

/-- A process whose output is open at the deadline is killed. -/
theorem handle_killed (ht : 0 < timeout) (h : ¬ EndsIn timeout process.reads) :
    ∃ d, process.handle timeout = some d ∧ d.run.timedOut = true ∧ d.seconds - d.reaping ≤ timeout := by
  have hpos : (0 : ℚ) < timeout := by exact_mod_cast ht
  rcases readLoop_spec hpos [] process.reads with ⟨he, -⟩ | ⟨-, now, captured, hr, hn⟩
  · exact absurd he h
  · refine ⟨_, by rw [handle, hr], rfl, ?_⟩
    show now + process.reap - process.reap ≤ timeout
    linarith

/-- A process whose output has ended is waited for, in time or not. -/
theorem handle_ended (ht : 0 < timeout) (h : EndsIn timeout process.reads) :
    (process.exit = none ∧ process.handle timeout = none) ∨
      ∃ t code d, process.exit = some (t, code) ∧ process.handle timeout = some d ∧ d.run.timedOut = false ∧
        d.run.returncode = code ∧ (d.seconds - d.reaping ≤ timeout ↔ t ≤ timeout) := by
  have hpos : (0 : ℚ) < timeout := by exact_mod_cast ht
  rcases readLoop_spec hpos [] process.reads with ⟨-, now, captured, hr, hn⟩ | ⟨hne, -⟩
  · cases hx : process.exit with
    | none => exact Or.inl ⟨rfl, by rw [handle, hr, hx]⟩
    | some x =>
      obtain ⟨t, code⟩ := x
      refine Or.inr ⟨t, code, _, rfl, by rw [handle, hr, hx], rfl, rfl, ?_⟩
      show max now t - 0 ≤ timeout ↔ t ≤ timeout
      rw [sub_zero, max_le_iff]
      exact and_iff_right hn
  · exact absurd h hne

/-- **Handled in time.** -/
theorem prompt_iff (ht : 0 < timeout) :
    process.Prompt timeout ↔ ∃ d, process.handle timeout = some d ∧ d.seconds - d.reaping ≤ timeout := by
  by_cases he : EndsIn timeout process.reads
  · rcases handle_ended ht he with ⟨hx, hd⟩ | ⟨t, code, d, hx, hd, -, -, hs⟩
    · constructor
      · intro hp
        obtain ⟨t, code, hx', -⟩ := hp he
        rw [hx] at hx'
        cases hx'
      · rintro ⟨d, hd', -⟩
        rw [hd] at hd'
        cases hd'
    · constructor
      · intro hp
        obtain ⟨t', code', hx', hle⟩ := hp he
        rw [hx] at hx'
        cases hx'
        exact ⟨d, hd, hs.mpr hle⟩
      · rintro ⟨d', hd', hle⟩ -
        rw [hd] at hd'
        cases hd'
        exact ⟨t, code, hx, hs.mp hle⟩
  · obtain ⟨d, hd, -, hs⟩ := handle_killed ht he
    exact iff_of_true (fun h => absurd h he) ⟨d, hd, hs⟩

/-- The output that is reported is that of chunks of the process. -/
theorem handle_output {d : Handled} (hd : process.handle timeout = some d) (id : Json) :
    ∃ chunks, chunks <+: process.reads.map Prod.snd ∧
      (d.run.entry id).get? "output" = some (.str (outputOf chunks)) := by
  obtain ⟨chunks, hp, hc⟩ := readLoop_captured timeout 0 [] process.reads
  have ho : d.run.output = capturedOf chunks := by
    unfold handle at hd
    cases hr : readLoop timeout 0 [] process.reads with
    | killed now captured =>
      rw [hr] at hd hc
      cases hd
      exact hc
    | ended now captured =>
      rw [hr] at hd hc
      cases hx : process.exit with
      | none =>
        simp only [hx] at hd
        cases hd
      | some x =>
        simp only [hx] at hd
        cases hd
        exact hc
  refine ⟨chunks, hp, ?_⟩
  have ht : (capturedOf chunks).take Limits.streamBytes = capturedOf chunks := by
    rw [capturedOf_eq, List.take_take, min_self]
  show some (Json.str (scrub (Utf8.decodeReplace (d.run.output.take Limits.streamBytes)) Limits.streamBytes)) = _
  rw [ho, ht]
  rfl

/-- **What a status of `PASSED` says** about a process that is handled in time. -/
theorem passed_iff (ht : 0 < timeout) (hp : process.Prompt timeout) {d : Handled}
    (hd : process.handle timeout = some d) :
    d.run.status = "PASSED" ↔ EndsIn timeout process.reads ∧ process.PassesBy timeout := by
  rw [Sandbox.status_passed]
  by_cases he : EndsIn timeout process.reads
  · rcases handle_ended ht he with ⟨-, hd'⟩ | ⟨t, code, d', hx, hd', hto, hcode, -⟩
    · rw [hd] at hd'
      cases hd'
    · rw [hd] at hd'
      cases hd'
      obtain ⟨t', code', hx', hle⟩ := hp he
      rw [hx] at hx'
      cases hx'
      simp only [CommandRun.exitCode, hto, hcode, he, true_and, PassesBy, hx, Option.some.injEq, Prod.mk.injEq]
      constructor
      · intro h0
        exact ⟨t, ⟨rfl, by simpa using h0⟩, hle⟩
      · rintro ⟨-, ⟨-, rfl⟩, -⟩
        rfl
  · obtain ⟨d', hd', hto, -⟩ := handle_killed ht he
    rw [hd] at hd'
    cases hd'
    simp [CommandRun.exitCode, hto, he]

end Process

/-! ## The call -/

/-- What a call of `run_validation` does in time: the commands it starts, `none` for one it waits for forever, and its
answer, if there is one. -/
structure Watched (α : Type) where
  started : List (Option Handled)
  answer : Option (Except Exn α)

namespace Watched

instance : Monad Watched where
  pure a := ⟨[], some (.ok a)⟩
  bind x f :=
    match x.answer with
    | some (.ok a) => ⟨x.started ++ (f a).started, (f a).answer⟩
    | some (.error e) => ⟨x.started, some (.error e)⟩
    | none => ⟨x.started, none⟩

variable {α β : Type}

/-- What takes no time. -/
def raise (x : Except Exn α) : Watched α := ⟨[], some x⟩

/-- A command that was started. -/
def wait (h : Option Handled) : Watched CommandRun := ⟨[h], h.map fun d => .ok d.run⟩

/-- An answer in time is the answer of `y`. -/
def Answers (x : Watched α) (y : Except Exn α) : Prop := ∀ r, x.answer = some r → y = r

theorem Answers.raise (x : Except Exn α) : (Watched.raise x).Answers x := fun _ h => Option.some.inj h

theorem Answers.bind {x : Watched α} {y : Except Exn α} {f : α → Watched β} {g : α → Except Exn β} (h : x.Answers y)
    (hf : ∀ a, (f a).Answers (g a)) : (x >>= f).Answers (y >>= g) := by
  intro r hr
  obtain ⟨started, answer⟩ := x
  cases answer with
  | none => cases hr
  | some x =>
    obtain rfl := h x rfl
    cases y with
    | error e => exact Option.some.inj hr
    | ok a => exact hf a r hr

end Watched

/-- **One loop, two meanings**: where the processes answer alike, so do the loops over them. -/
theorem itemLoop_answers {start : ℕ → Json → Watched CommandRun} {launch : ℕ → Json → Except Exn CommandRun}
    (h : ∀ n item, (start n item).Answers (launch n item)) (results items : List Json) :
    (itemLoop Watched.raise start results items).Answers (itemLoop (fun x => x) launch results items) := by
  induction items generalizing results with
  | nil => exact .raise _
  | cons item items ih =>
    refine (h results.length item).bind fun run => .bind (.raise _) fun id => ?_
    by_cases hs : run.status = "PASSED"
    · simp only [hs, ne_eq, not_true_eq_false, if_false]
      exact ih _
    · simp only [hs, ne_eq, not_false_eq_true, if_true]
      exact .raise _

namespace Sandbox

variable (sandbox : Sandbox) (workspace : PyStr) (spawn : ℕ → List PyStr → Except Exn Process)

/-- From the checks of the `n`-th command to the end of its process; `spawn n` is what `Popen` answers: a process, or an
error of the system, as of an argument that is too long or of a program the fixed `PATH` does not lead to. -/
def timedLaunch (n : ℕ) (item : Json) : Watched CommandRun := do
  let (command, timeout) ← Watched.raise (sandbox.prepare workspace item)
  let process ← Watched.raise (spawn n command)
  Watched.wait (process.handle timeout)

/-- The loop over the commands. -/
def timedItems : List Json → List Json → Watched (Except ValidationFailure (List Json)) :=
  itemLoop Watched.raise (sandbox.timedLaunch workspace spawn)

/-- `run_validation`. -/
def timedValidation (policy : Json) : Watched (Except ValidationFailure (List Json)) :=
  validationLoop Watched.raise (sandbox.timedLaunch workspace spawn) policy

variable {sandbox workspace spawn}

/-- **An answer in time is the answer** where the host's processes are these. -/
theorem runItems_of_timedItems {results items : List Json} {r : Except Exn (Except ValidationFailure (List Json))}
    (herror : ∀ n command timeout e, spawn n command = .error e → sandbox.popen n command timeout = .error e)
    (hs : ∀ n command timeout process d, spawn n command = .ok process → process.handle timeout = some d →
      sandbox.popen n command timeout = .ok d.run)
    (h : (sandbox.timedItems workspace spawn results items).answer = some r) :
    sandbox.runItems workspace results items = r := by
  refine itemLoop_answers (fun n item => ?_) results items r h
  refine .bind (.raise _) fun ⟨command, timeout⟩ => ?_
  intro answer ha
  cases hspawn : spawn n command with
  | error e =>
    simp only [hspawn] at ha
    exact (herror n command timeout e hspawn).trans (Option.some.inj ha)
  | ok process =>
    simp only [hspawn] at ha
    cases hd : process.handle timeout with
    | none =>
      simp only [Watched.raise, Watched.wait, bind, hd] at ha
      cases ha
    | some d =>
      simp only [Watched.raise, Watched.wait, bind, hd] at ha
      exact (hs n command timeout process d hspawn hd).trans (Option.some.inj ha)

end Sandbox

/-! ### The commands of a policy -/

/-- The seconds a command may take. -/
def ValidationCommand.timeout (c : ValidationCommand) : ℤ := min (c.timeoutSeconds : ℤ) Limits.commandSeconds

theorem ValidationCommand.timeout_pos (c : ValidationCommand) : 0 < c.timeout :=
  lt_min (by exact_mod_cast c.timeout_range.1) (by decide)

namespace Sandbox

/-- What `Popen` answers for the command `c`, with the error of `_command` before it. -/
def started (sandbox : Sandbox) (workspace : PyStr) (spawn : ℕ → List PyStr → Except Exn Process) (n : ℕ)
    (c : ValidationCommand) : Except Exn Process := do
  let command ← sandbox.command workspace c.argv
  spawn n command

variable {sandbox : Sandbox} {workspace : PyStr} {spawn : ℕ → List PyStr → Except Exn Process}

theorem stringsOf_argv (c : ValidationCommand) : stringsOf c.modelDump "argv" = .ok c.argv :=
  mapM_str (fun _ => rfl) c.argv

theorem registered (c : ValidationCommand) :
    ¬ (c.argv.isEmpty || c.argv.head?.any unregistered.contains) = true := by
  have hs := c.argv_safe
  unfold safeArgv at hs
  cases hargv : c.argv with
  | nil => simp [hargv] at hs
  | cons prog rest =>
    rw [hargv] at hs
    simp only [Bool.and_eq_true, Bool.not_eq_true'] at hs
    simpa [unregistered] using hs.2

/-- A validated command passes the checks of the loop. -/
theorem prepare_modelDump (c : ValidationCommand) :
    sandbox.prepare workspace c.modelDump = sandbox.command workspace c.argv >>= fun command => .ok (command, c.timeout) := by
  have htime : limitOf c.modelDump "timeoutSeconds" Limits.commandSeconds = .ok c.timeout := rfl
  unfold prepare
  simp only [stringsOf_argv, bind, Except.bind]
  rw [if_neg (registered c), htime]

/-- So it is started, or the error is passed on. -/
theorem timedLaunch_modelDump (n : ℕ) (c : ValidationCommand) :
    sandbox.timedLaunch workspace spawn n c.modelDump =
      match sandbox.started workspace spawn n c with
      | .error e => ⟨[], some (.error e)⟩
      | .ok process => Watched.wait (process.handle c.timeout) := by
  unfold timedLaunch started
  rw [prepare_modelDump]
  cases sandbox.command workspace c.argv with
  | error e => rfl
  | ok command =>
    show Watched.raise (spawn n command) >>= _ = match spawn n command with | .error e => _ | .ok process => _
    cases spawn n command with
    | error e => rfl
    | ok process => rfl

/-! ## What is promised -/

/-- The entry is about the command. -/
def Reports (c : ValidationCommand) (entry : Json) : Prop := entry.get? "id" = some (.str c.id)

/-- The entry reports success. -/
def HasPassed (entry : Json) : Prop := entry.get? "status" = some (.str (lit "PASSED"))

variable (sandbox workspace spawn)

/-- Each command that was started is handled in its time, but for the time to reap it, and reported `PASSED` only if its
process, from the `k`-th on, exits with code 0 in that time. -/
def InTime (k : ℕ) (commands : List ValidationCommand) (handled : List (Option Handled)) : Prop :=
  ∀ n c h, commands[n]? = some c → handled[n]? = some h →
    ∃ d process, h = some d ∧ sandbox.started workspace spawn (k + n) c = .ok process ∧
      d.seconds - d.reaping ≤ (c.timeout : ℚ) ∧ (d.run.status = "PASSED" → process.PassesBy c.timeout)

/-- The command ends its output and exits with code 0 in its time. -/
def Succeeds (n : ℕ) (c : ValidationCommand) : Prop :=
  ∃ process, sandbox.started workspace spawn n c = .ok process ∧ EndsIn c.timeout process.reads ∧
    process.PassesBy c.timeout

/-- Every command that is come to, from the `k`-th process on, is started and handled in time. -/
def AllPrompt (k : ℕ) (commands : List ValidationCommand) : Prop :=
  ∀ n c, commands[n]? = some c →
    (∀ i d, i < n → commands[i]? = some d → sandbox.Succeeds workspace spawn (k + i) d) →
    ∃ process, sandbox.started workspace spawn (k + n) c = .ok process ∧ process.Prompt c.timeout

variable {sandbox workspace spawn}

/-- The call returns with all commands passed, or raises `ValidationFailure` for the first that has not and starts
no other; `results` are those of earlier commands. -/
def Concludes (results : List Json) (commands : List ValidationCommand)
    (out : Watched (Except ValidationFailure (List Json))) : Prop :=
  (∃ new, out.answer = some (.ok (.ok (results ++ new))) ∧ out.started.length = commands.length ∧
    List.Forall₂ Reports commands new ∧ ∀ entry ∈ new, HasPassed entry) ∨
  ∃ failure new entry, out.answer = some (.ok (.error failure)) ∧ failure.results = results ++ (new ++ [entry]) ∧
    out.started.length = new.length + 1 ∧ List.Forall₂ Reports (commands.take (new.length + 1)) (new ++ [entry]) ∧
    (∀ entry ∈ new, HasPassed entry) ∧ ¬ HasPassed entry

theorem AllPrompt.cons {k : ℕ} {c : ValidationCommand} {commands : List ValidationCommand}
    (h : sandbox.AllPrompt workspace spawn k (c :: commands)) :
    (∃ process, sandbox.started workspace spawn k c = .ok process ∧ process.Prompt c.timeout) ∧
      (sandbox.Succeeds workspace spawn k c → sandbox.AllPrompt workspace spawn (k + 1) commands) := by
  refine ⟨h 0 c rfl fun i d hi => absurd hi (Nat.not_lt_zero i), fun hpass n c' hn hbefore => ?_⟩
  have hk : ∀ i, k + 1 + i = k + (i + 1) := fun i => by omega
  rw [hk]
  refine h (n + 1) c' hn fun i d hi hd => ?_
  cases i with
  | zero =>
    cases hd
    exact hpass
  | succ i =>
    rw [← hk]
    exact hbefore i d (by omega) hd

theorem entry_reports (run : CommandRun) (c : ValidationCommand) : Reports c (run.entry (.str c.id)) := rfl

theorem entry_hasPassed {run : CommandRun} {id : Json} : HasPassed (run.entry id) ↔ run.status = "PASSED" := by
  have he : (run.entry id).get? "status" = some (.str (lit run.status)) := rfl
  unfold HasPassed
  rw [he]
  constructor
  · intro h
    have h : lit run.status = lit "PASSED" := Json.str.inj (Option.some.inj h)
    unfold CommandRun.status at h ⊢
    split_ifs at h ⊢
    · exact absurd h (by decide)
    · rfl
    · exact absurd h (by decide)
  · intro h
    rw [h]

/-- What is promised of the commands after one that has passed. -/
theorem Concludes.cons {results : List Json} {c : ValidationCommand} {commands : List ValidationCommand} {entry : Json}
    {h : Option Handled} {out : Watched (Except ValidationFailure (List Json))}
    (hr : Reports c entry) (hp : HasPassed entry) (ho : Concludes (results ++ [entry]) commands out) :
    Concludes results (c :: commands) ⟨h :: out.started, out.answer⟩ := by
  have hall : ∀ {new : List Json}, (∀ e ∈ new, HasPassed e) → ∀ e ∈ entry :: new, HasPassed e := by
    intro new hn e he
    rcases List.mem_cons.mp he with rfl | he
    · exact hp
    · exact hn e he
  rcases ho with ⟨new, ha, hl, hf, hn⟩ | ⟨failure, new, last, ha, hres, hl, hf, hn, hlast⟩
  · refine Or.inl ⟨entry :: new, ?_, by simp [hl], .cons hr hf, hall hn⟩
    rw [ha, List.append_assoc, List.singleton_append]
  · refine Or.inr ⟨failure, entry :: new, last, ha, ?_, by simp [hl], .cons hr hf, hall hn, hlast⟩
    rw [hres, List.append_assoc, List.singleton_append, List.cons_append]

/-- One turn of the loop, with a validated command. -/
theorem timedItems_cons (results items : List Json) (c : ValidationCommand) :
    sandbox.timedItems workspace spawn results (c.modelDump :: items) =
      match sandbox.started workspace spawn results.length c with
      | .error e => ⟨[], some (.error e)⟩
      | .ok process =>
        match process.handle c.timeout with
        | none => ⟨[none], none⟩
        | some d =>
          if d.run.status ≠ "PASSED" then
            ⟨[some d], some (.ok (.error (.of (results ++ [d.run.entry (.str c.id)]))))⟩
          else
            let out := sandbox.timedItems workspace spawn (results ++ [d.run.entry (.str c.id)]) items
            ⟨some d :: out.started, out.answer⟩ := by
  have hturn : sandbox.timedItems workspace spawn results (c.modelDump :: items) =
      sandbox.timedLaunch workspace spawn results.length c.modelDump >>= fun run =>
        if run.status ≠ "PASSED" then pure (.error (.of (results ++ [run.entry (.str c.id)])))
        else sandbox.timedItems workspace spawn (results ++ [run.entry (.str c.id)]) items := rfl
  rw [hturn, timedLaunch_modelDump]
  cases sandbox.started workspace spawn results.length c with
  | error e => rfl
  | ok process =>
    dsimp only
    cases process.handle c.timeout with
    | none => rfl
    | some d => by_cases hs : d.run.status = "PASSED" <;> simp [Watched.wait, bind, pure, hs]

/-- **The loop keeps the promise** where every command it comes to is prompt. -/
theorem timedItems_promised {results : List Json} {commands : List ValidationCommand}
    (h : sandbox.AllPrompt workspace spawn results.length commands) :
    sandbox.InTime workspace spawn results.length commands
        (sandbox.timedItems workspace spawn results (commands.map ValidationCommand.modelDump)).started ∧
      Concludes results commands
        (sandbox.timedItems workspace spawn results (commands.map ValidationCommand.modelDump)) := by
  induction commands generalizing results with
  | nil => exact ⟨nofun, Or.inl ⟨[], by simp [timedItems, itemLoop, pure], rfl, .nil, nofun⟩⟩
  | cons c commands ih =>
    obtain ⟨⟨process, hstart, hp⟩, hrest⟩ := h.cons
    obtain ⟨d, hd, hs⟩ := (Process.prompt_iff c.timeout_pos).mp hp
    have hpass := Process.passed_iff c.timeout_pos hp hd
    rw [List.map_cons, timedItems_cons]
    simp only [hstart, hd]
    by_cases hst : d.run.status = "PASSED"
    · simp only [hst, ne_eq, not_true_eq_false, if_false]
      have hlen : (results ++ [d.run.entry (.str c.id)]).length = results.length + 1 := by simp
      obtain ⟨hin, hcon⟩ := @ih (results ++ [d.run.entry (.str c.id)])
        (hlen ▸ hrest ⟨process, hstart, hpass.mp hst⟩)
      rw [hlen] at hin
      refine ⟨fun n c' h' hc hh => ?_, hcon.cons (entry_reports _ c) (entry_hasPassed.mpr hst)⟩
      cases n with
      | zero =>
        cases hc
        cases hh
        exact ⟨d, process, rfl, hstart, hs, fun _ => (hpass.mp hst).2⟩
      | succ n =>
        obtain ⟨d', process', hd', hstart', hs'⟩ := hin n c' h' hc hh
        rw [Nat.add_assoc, Nat.add_comm 1] at hstart'
        exact ⟨d', process', hd', hstart', hs'⟩
    · simp only [hst, ne_eq, not_false_eq_true, if_true]
      refine ⟨fun n c' h' hc hh => ?_, Or.inr ⟨_, [], _, rfl, rfl, rfl, .cons (entry_reports _ c) .nil, nofun, ?_⟩⟩
      · cases n with
        | zero =>
          cases hc
          cases hh
          exact ⟨d, process, rfl, hstart, hs, fun h' => absurd h' hst⟩
        | succ n => cases hh
      · exact fun h' => hst (entry_hasPassed.mp h')

/-- A command that is come to is handled as its process is, or its error ends the call. -/
theorem timedItems_started {results : List Json} {commands : List ValidationCommand} {n : ℕ} {c : ValidationCommand}
    (hn : commands[n]? = some c)
    (hbefore : ∀ i d, i < n → commands[i]? = some d → sandbox.Succeeds workspace spawn (results.length + i) d) :
    match sandbox.started workspace spawn (results.length + n) c with
    | .error e =>
      (sandbox.timedItems workspace spawn results (commands.map ValidationCommand.modelDump)).answer = some (.error e)
    | .ok process =>
      (sandbox.timedItems workspace spawn results (commands.map ValidationCommand.modelDump)).started[n]? =
        some (process.handle c.timeout) := by
  induction commands generalizing results n with
  | nil => cases hn
  | cons c₀ commands ih =>
    rw [List.map_cons, timedItems_cons]
    cases n with
    | zero =>
      cases hn
      rw [Nat.add_zero]
      cases sandbox.started workspace spawn results.length c with
      | error e => rfl
      | ok process =>
        cases hd : process.handle c.timeout with
        | none => simp [hd]
        | some d => by_cases hst : d.run.status = "PASSED" <;> simp [hd, hst]
    | succ n =>
      obtain ⟨process, hstart, hends, t, hx, ht⟩ := hbefore 0 c₀ n.succ_pos rfl
      have hp : process.Prompt c₀.timeout := fun _ => ⟨t, 0, hx, ht⟩
      obtain ⟨d, hd, -⟩ := (Process.prompt_iff c₀.timeout_pos).mp hp
      have hst := (Process.passed_iff c₀.timeout_pos hp hd).mpr ⟨hends, t, hx, ht⟩
      rw [Nat.add_zero] at hstart
      simp only [hstart, hd, hst, ne_eq, not_true_eq_false, if_false, List.getElem?_cons_succ]
      have hlen : ∀ i, (results ++ [d.run.entry (.str c₀.id)]).length + i = results.length + (i + 1) := by
        intro i
        rw [List.length_append, List.length_singleton]
        omega
      have hrest := @ih (results ++ [d.run.entry (.str c₀.id)]) n hn fun i d' hi hd' => by
        rw [hlen]
        exact hbefore (i + 1) d' (by omega) hd'
      rwa [hlen] at hrest

/-- **`run_validation` is in time and concludes** iff every command it comes to is started and its process, where the
output ends in time, exits in time. -/
theorem run_validation_timely {policy : Json} {commands : List ValidationCommand}
    (h : policy.getItem "validationCommands" = .ok (.arr (commands.map ValidationCommand.modelDump))) :
    (sandbox.InTime workspace spawn 0 commands (sandbox.timedValidation workspace spawn policy).started ∧
      Concludes [] commands (sandbox.timedValidation workspace spawn policy)) ↔
      sandbox.AllPrompt workspace spawn 0 commands := by
  have hv : sandbox.timedValidation workspace spawn policy =
      sandbox.timedItems workspace spawn [] (commands.map ValidationCommand.modelDump) := by
    unfold timedValidation validationLoop
    rw [h]
    rfl
  rw [hv]
  constructor
  · rintro ⟨hin, hcon⟩ n c hn hbefore
    have hstart := @timedItems_started sandbox workspace spawn [] commands n c hn hbefore
    rw [List.length_nil] at hstart
    cases hs : sandbox.started workspace spawn (0 + n) c with
    | error e =>
      -- what raises neither returns nor raises `ValidationFailure`
      rw [hs] at hstart
      rcases hcon with ⟨new, ha, -⟩ | ⟨failure, new, entry, ha, -⟩ <;> cases ha.symm.trans hstart
    | ok process =>
      rw [hs] at hstart
      obtain ⟨d, process', hd, hs', hle, -⟩ := hin n c _ hn hstart
      obtain rfl := Except.ok.inj (hs.symm.trans hs')
      exact ⟨process, rfl, (Process.prompt_iff c.timeout_pos).mpr ⟨d, hd, hle⟩⟩
  · intro hall
    have hall : sandbox.AllPrompt workspace spawn ([] : List Json).length commands := hall
    exact timedItems_promised hall

end Sandbox

/-! ### A process that closes its output and goes on -/

namespace Lingering

/-- A test with a limit of one second. -/
def command : ValidationCommand :=
  ⟨lit "unit", [lit "python3", lit "-m", lit "pytest"], 1, by decide, by decide, by decide⟩

/-- The part of a policy that is read, with one command. -/
def policyOf (c : ValidationCommand) : Json := .obj [(lit "validationCommands", .arr [c.modelDump])]

def policy : Json := policyOf command

def sandbox : Sandbox := ⟨true, fun _ => false, fun _ _ _ => .error .fileNotFoundError⟩

/-- The output is closed at once; the process exits with code 0 after ten seconds. -/
def lingering : Process := ⟨[(0, [])], some (10, 0), 0, le_rfl⟩

/-- The output is closed at once; the process never exits. -/
def hanging : Process := ⟨[(0, [])], none, 0, le_rfl⟩

/-- One line of output, and the process exits with code 0. -/
def passing : Process := ⟨[(1 / 4, [0x2e]), (1 / 2, [])], some (1 / 2, 0), 0, le_rfl⟩

theorem endsIn_one : EndsIn ((1 : ℤ) : ℚ) [(0, [])] := endsIn_end.mpr (by norm_num)

theorem handle_lingering :
    ∃ d, lingering.handle 1 = some d ∧ d.run.status = "PASSED" ∧ ¬ d.seconds - d.reaping ≤ 1 := by
  rcases @Process.handle_ended lingering 1 one_pos endsIn_one with ⟨hx, -⟩ | ⟨t, code, d, hx, hd, hto, hc, hs⟩
  · cases hx
  · cases hx
    refine ⟨d, hd, ?_, fun hle => ?_⟩
    · rw [Sandbox.status_passed, CommandRun.exitCode, hto, hc]
      rfl
    · have := hs.mp (by exact_mod_cast hle)
      norm_num at this

theorem handle_hanging : hanging.handle 1 = none := by
  rcases @Process.handle_ended hanging 1 one_pos endsIn_one with ⟨-, hd⟩ | ⟨t, code, d, hx, -⟩
  · exact hd
  · cases hx

theorem timedValidation_policyOf (spawn : ℕ → List PyStr → Except Exn Process) (c : ValidationCommand) :
    sandbox.timedValidation (lit "/w") spawn (policyOf c) = sandbox.timedItems (lit "/w") spawn [] [c.modelDump] := rfl

/-- **A command passes ten seconds after its limit of one**, and one that never exits is waited for forever. -/
theorem run_validation_late :
    (∃ entry, (sandbox.timedValidation (lit "/w") (fun _ _ => .ok lingering) policy).answer = some (.ok (.ok [entry])) ∧
      Sandbox.HasPassed entry) ∧
    ¬ sandbox.InTime (lit "/w") (fun _ _ => .ok lingering) 0 [command]
      (sandbox.timedValidation (lit "/w") (fun _ _ => .ok lingering) policy).started ∧
    sandbox.timedValidation (lit "/w") (fun _ _ => .ok hanging) policy = ⟨[none], none⟩ := by
  have ht : command.timeout = 1 := rfl
  have hstart : ∀ process, sandbox.started (lit "/w") (fun _ _ => .ok process) ([] : List Json).length command = .ok process :=
    fun _ => rfl
  obtain ⟨d, hd, hst, hs⟩ := handle_lingering
  have hrun : sandbox.timedValidation (lit "/w") (fun _ _ => .ok lingering) policy =
      ⟨[some d], some (.ok (.ok [d.run.entry (.str command.id)]))⟩ := by
    rw [policy, timedValidation_policyOf, Sandbox.timedItems_cons, hstart]
    simp [ht, hd, hst, Sandbox.timedItems, itemLoop, pure]
  rw [hrun]
  refine ⟨⟨_, rfl, Sandbox.entry_hasPassed.mpr hst⟩, fun h => ?_, ?_⟩
  · obtain ⟨d', process, hd', -, hle, -⟩ := h 0 command (some d) rfl rfl
    cases hd'
    rw [ht] at hle
    exact hs (by exact_mod_cast hle)
  · rw [policy, timedValidation_policyOf, Sandbox.timedItems_cons, hstart]
    simp [ht, handle_hanging]

/-- A process that exits when its output ends is handled in time. -/
theorem run_validation_timely_sample :
    sandbox.InTime (lit "/w") (fun _ _ => .ok passing) 0 [command]
      (sandbox.timedValidation (lit "/w") (fun _ _ => .ok passing) policy).started ∧
    Sandbox.Concludes [] [command] (sandbox.timedValidation (lit "/w") (fun _ _ => .ok passing) policy) := by
  refine (Sandbox.run_validation_timely rfl).mpr fun n c hn _ => ⟨passing, rfl, fun _ => ⟨1 / 2, 0, rfl, ?_⟩⟩
  have hc : 1 ≤ c.timeout := c.timeout_pos
  have hc : (1 : ℚ) ≤ c.timeout := by exact_mod_cast hc
  linarith

end Lingering

/-! ### An argument the system does not take -/

namespace Oversized

/-- A text of letters is an argument a policy may register. -/
theorem argv_safe {n : ℕ} (hn : 0 < n) : safeArgv [lit "python3", lit "-c", List.replicate n (cp 'x')] = true := by
  have hx : ∀ y, y ≠ cp 'x' → (List.replicate n (cp 'x')).contains y = false := fun y hy => by
    rw [List.contains_replicate]
    simp [hy]
  have hne : (List.replicate n (cp 'x')).isEmpty = false := by
    rw [List.isEmpty_replicate]
    simp [hn.ne']
  unfold safeArgv
  simp only [List.any_cons, List.any_nil, hne, hx 0 (by decide), hx (cp '\n') (by decide), Bool.or_false]
  decide

theorem length_encode (n : ℕ) : (Utf8.encode (List.replicate n (cp 'x'))).length = n := by
  induction n with
  | zero => rfl
  | succ n ih =>
    have hc : Utf8.encodeChar (cp 'x') = [UInt8.ofNat (cp 'x').val] := Utf8.encodeChar_ascii (by decide)
    rw [List.replicate_succ, Utf8.encode, List.flatMap_cons, hc, List.length_append, List.length_singleton,
      ← Utf8.encode, ih, Nat.add_comm]

/-- Linux passes no argument of 131072 bytes or more to a program. -/
def argMax : ℕ := 131072

/-- `Popen` on such a system. -/
def spawn (_ : ℕ) (command : List PyStr) : Except Exn Process :=
  if command.any fun arg => argMax ≤ (Utf8.encode arg).length then .error .osError else .ok Lingering.passing

/-- A test with an argument of `n` letters. -/
def commandOf {n : ℕ} (hn : 0 < n) : ValidationCommand :=
  ⟨lit "unit", [lit "python3", lit "-c", List.replicate n (cp 'x')], 20, by decide, argv_safe hn, by decide⟩

theorem started {n : ℕ} (hn : 0 < n) (hlong : argMax ≤ n) :
    Lingering.sandbox.started (lit "/w") spawn 0 (commandOf hn) = .error .osError := by
  obtain ⟨line, hline⟩ : ∃ line, Lingering.sandbox.command (lit "/w") (commandOf hn).argv = .ok line := ⟨_, if_neg nofun⟩
  obtain ⟨before, hbefore⟩ := (Sandbox.command_ok hline).2
  have hmem : List.replicate n (cp 'x') ∈ line := by
    rw [← hbefore]
    exact List.mem_append_right _ (.tail _ (.tail _ (.tail _ (.head _))))
  have hbytes : decide (argMax ≤ (Utf8.encode (List.replicate n (cp 'x'))).length) = true := by
    rw [length_encode]
    exact decide_eq_true hlong
  rw [Sandbox.started, hline]
  exact if_pos (List.any_eq_true.mpr ⟨_, hmem, hbytes⟩)

def command : ValidationCommand := commandOf (by decide : 0 < argMax)

/-- **A registered command is not started**: the call ends with an `OSError`, neither with results nor with a
`ValidationFailure`. -/
theorem run_validation_raises :
    Lingering.sandbox.timedValidation (lit "/w") spawn (Lingering.policyOf command) = ⟨[], some (.error .osError)⟩ ∧
    ¬ Sandbox.Concludes [] [command] (Lingering.sandbox.timedValidation (lit "/w") spawn (Lingering.policyOf command)) := by
  have hrun : Lingering.sandbox.timedValidation (lit "/w") spawn (Lingering.policyOf command) =
      ⟨[], some (.error .osError)⟩ := by
    rw [Lingering.timedValidation_policyOf, Sandbox.timedItems_cons, List.length_nil, command, started _ le_rfl]
  rw [hrun]
  refine ⟨rfl, ?_⟩
  rintro (⟨new, ha, -⟩ | ⟨failure, new, entry, ha, -⟩) <;> cases ha

end Oversized

end Aeh
