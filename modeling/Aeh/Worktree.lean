import Aeh.DiffPolicy
import Aeh.Workers

/-!
# Worktree — a PATCH attempt, its worktree and the thread of `run_validation`

An interruption abandons the await of `asyncio.to_thread(run_validation, …)`, but not its thread: the loop over the
commands goes on while `isolated_worktree` removes the worktree.  So the worktree outlives every command exactly if no
interruption comes while a command runs or is still to be started (`removed_quiet`).

`git worktree add`, the loop and `git worktree remove` are steps of their own here; the gateway writes to the worktree
until it returns, and the commands, or what they leave running, from the first of them on.
-/

namespace Aeh

/-! ## The loop over the commands, turn by turn -/

/-- Where the thread of `run_validation` is. -/
inductive Loop where
  | idle
  | between (results items : List Json)
  | running (results : List Json) (item : Json) (run : CommandRun) (items : List Json)
  | done (r : Except Exn (Except ValidationFailure (List Json)))

namespace Loop

def isRunning : Loop → Bool
  | running .. => true
  | _ => false

/-- The thread starts. -/
def begin (policy : Json) : Loop :=
  match policy.getItem "validationCommands" with
  | .ok (.arr items) => between [] items
  | .ok _ => done (.error .attributeError)
  | .error e => done (.error e)

end Loop

namespace Sandbox

variable (sandbox : Sandbox) (workspace : PyStr)

/-- What the thread does next; it starts a command, or the one it waits for ends. -/
def next : Loop → Option Loop
  | .idle => none
  | .between results [] => some (.done (.ok (.ok results)))
  | .between results (item :: items) =>
    match sandbox.launch workspace results.length item with
    | .error e => some (.done (.error e))
    | .ok run => some (.running results item run items)
  | .running results item run items =>
    match item.getItem "id" with
    | .error e => some (.done (.error e))
    | .ok id =>
      if run.status ≠ "PASSED" then some (.done (.ok (.error (.of (results ++ [run.entry id])))))
      else some (.between (results ++ [run.entry id]) items)
  | .done _ => none

/-- A command runs or is to be started. -/
def isActive (loop : Loop) : Bool := loop.isRunning || (sandbox.next workspace loop).any Loop.isRunning

/-- What the loop ends with from where it is. -/
def answer : Loop → Option (Except Exn (Except ValidationFailure (List Json)))
  | .idle => none
  | .between results items => some (sandbox.runItems workspace results items)
  | .running results item run items => some do
    let id ← item.getItem "id"
    if run.status ≠ "PASSED" then .ok (.error (.of (results ++ [run.entry id])))
    else sandbox.runItems workspace (results ++ [run.entry id]) items
  | .done r => some r

variable {sandbox workspace}

/-- **One turn** of the thread leaves what `run_validation` answers as it is. -/
theorem answer_next {loop loop' : Loop} (h : sandbox.next workspace loop = some loop') :
    sandbox.answer workspace loop' = sandbox.answer workspace loop := by
  cases loop with
  | idle | done r => cases h
  | between results items =>
    cases items with
    | nil =>
      cases h
      rfl
    | cons item items =>
      simp only [answer, runItems_cons]
      cases hl : sandbox.launch workspace results.length item with
      | error e =>
        simp only [next, hl, Option.some.injEq] at h
        subst h
        rfl
      | ok run =>
        simp only [next, hl, Option.some.injEq] at h
        subst h
        simp only [bind, Except.bind]
  | running results item run items =>
    cases hid : item.getItem "id" with
    | error e =>
      simp only [next, hid, Option.some.injEq] at h
      subst h
      simp only [answer, hid]
      rfl
    | ok id =>
      simp only [next, hid] at h
      simp only [answer, hid, bind, Except.bind]
      by_cases hs : run.status = "PASSED"
      · simp only [hs, ne_eq, not_true_eq_false, if_false, Option.some.injEq] at h ⊢
        subst h
        rfl
      · simp only [hs, ne_eq, not_false_eq_true, if_true, Option.some.injEq] at h ⊢
        subst h
        rfl

theorem answer_begin (policy : Json) :
    sandbox.answer workspace (.begin policy) = some (sandbox.runValidation workspace policy) := by
  unfold Loop.begin runValidation validationLoop
  cases policy.getItem "validationCommands" with
  | error e => rfl
  | ok value => cases value <;> rfl

/-- A loop that has something to start or to wait for had it before. -/
theorem isActive_next {loop loop' : Loop} (h : sandbox.next workspace loop = some loop')
    (ha : sandbox.isActive workspace loop' = true) : sandbox.isActive workspace loop = true := by
  unfold isActive at ha ⊢
  rw [h]
  cases loop with
  | idle | done r => cases h
  | running results item run items => rfl
  | between results items =>
    cases items with
    | nil =>
      cases h
      cases ha
    | cons item items =>
      cases hl : sandbox.launch workspace results.length item with
      | error e =>
        simp only [next, hl, Option.some.injEq] at h
        subst h
        cases ha
      | ok run =>
        simp only [next, hl, Option.some.injEq] at h
        subst h
        rfl

end Sandbox

/-! ## The attempt -/

/-- What `git apply` makes of the base with the text of `git diff HEAD`: a file of the diff is what its conversions
leave of it, the source of a rename is gone, and the other files stay. -/
def GitDiff.applied {base work : Tree} (d : GitDiff base work) (converted : Tree → Tree) : Tree := fun p =>
  if p ∈ d.changes.map Change.path then converted work p
  else if p ∈ d.changes.filterMap Change.source then .absent
  else base p

/-- The tree `check_diff` has seen, and what Git reported about it. -/
structure Snapshot where
  base : Tree
  work : Tree
  report : GitDiff base work

/-- What an attempt meets: the sandbox and the path of its worktree, the tree of a commit, what `git apply` makes of a
tree and a diff, the paths the ignore rules of a tree exclude, and what the attributes and settings (line ends, filters,
the executable bit) leave of the files of a tree that Git reads and writes again. -/
structure Host where
  sandbox : Sandbox
  workspace : PyStr
  commitTree : PyStr → Tree
  apply : Tree → PyStr → Tree
  excluded : Tree → Bytes → Bool
  converted : Tree → Tree

/-- The commands print the report and a diff that `git apply` takes, which has no binary change. -/
structure Host.Reports (host : Host) (ws : Workspace) {base work : Tree} (d : GitDiff base work) : Prop extends
    ws.Shows d where
  diffText : ∀ raw text, ws.diffText = .ok raw → Utf8.decode raw = some text → (∀ c ∈ d.changes, c.lines ≠ none) →
    host.apply base text = d.applied host.converted

inductive Worktree where
  | missing
  | present
  | removed

namespace Phase

/-- Inside of `isolated_worktree`, before it is left. -/
def isInside : Phase → Bool
  | patching | checking _ | marking _ | validating _ => true
  | _ => false

def isValidating : Phase → Bool
  | validating _ => true
  | _ => false

/-- `execute` leaves its worktree, or is over. -/
def isPast : Phase → Bool
  | leaving _ | ended _ | finalized _ => true
  | _ => false

theorem not_inside_of_past {p : Phase} (h : p.isPast = true) : p.isInside = false := by
  cases p with
  | leaving | ended | finalized => rfl
  | _ => cases h

theorem inside_of_validating {p : Phase} (h : p.isValidating = true) : p.isInside = true := by
  cases p with
  | validating => rfl
  | _ => cases h

end Phase

/-- `run_one` with its worktree and the thread of `run_validation`.  `starts` records the tree at every start of a
command. -/
structure PatchAttempt where
  one : RunOne
  attempt : Option Attempt
  worktree : Worktree
  tree : Tree
  loop : Loop
  checked : Option Snapshot
  starts : List Tree

namespace PatchAttempt

inductive Label where
  | run (a : Act)
  | add
  | write (tree : Tree)
  | turn
  | remove

/-- The steps of `run_one` that have nothing to do with the worktree or the thread. -/
def isPlain : Act → Bool
  | .enter _ | .check (.ok _) | .receive | .validate _ => false
  | _ => true

/-- The gateway works, or a command has been started. -/
def Writable (s : PatchAttempt) : Prop := s.one.phase = .patching ∨ s.starts ≠ []

/-- A step of `run_one`; every `AehError` it ends with has a code. -/
structure Goes (claim : Claim) (one : RunOne) (a : Act) (one' : RunOne) : Prop where
  step : RunOne.Step claim one a one'
  coded : ∀ f, one'.phase.result? = some (.error f) → f.Coded

inductive Step (host : Host) (claim : Claim) : PatchAttempt → Label → PatchAttempt → Prop
  | run {s : PatchAttempt} {one : RunOne} {a : Act} :
      Goes claim s.one a one → isPlain a = true → Step host claim s (.run a) { s with one := one }
  | add {s : PatchAttempt} {attempt : Attempt} :
      s.one.phase = .entering attempt → s.worktree = .missing → Step host claim s .add
        { s with attempt := some attempt, worktree := .present, tree := host.commitTree attempt.sha }
  | enter {s : PatchAttempt} {one : RunOne} {r : Except Fault Unit} :
      Goes claim s.one (.enter r) one → (r = .ok () ↔ s.worktree = .present) →
        Step host claim s (.run (.enter r)) { s with one := one }
  | check {s : PatchAttempt} {one : RunOne} {attempt : Attempt} {c : Snapshot} {ws : Workspace} {names : List PyStr}
      {diff : PyStr} :
      Goes claim s.one (.check (.ok (names, diff))) one → s.attempt = some attempt →
        c.base = host.commitTree attempt.sha → c.work = s.tree → host.Reports ws c.report →
        checkDiff ws attempt.policy = .ok (names, diff) →
        Step host claim s (.run (.check (.ok (names, diff)))) { s with one := one, checked := some c }
  | receive {s : PatchAttempt} {one : RunOne} {attempt : Attempt} {work : Work} :
      Goes claim s.one .receive one → one.phase = .validating work → s.attempt = some attempt →
        Step host claim s (.run .receive) { s with one := one, loop := .begin attempt.policy }
  | receiveFails {s : PatchAttempt} {one : RunOne} :
      Goes claim s.one .receive one → one.phase.isValidating = false →
        Step host claim s (.run .receive) { s with one := one }
  | validate {s : PatchAttempt} {one : RunOne} {r : Except Exn (Except ValidationFailure (List Json))} :
      Goes claim s.one (.validate (r.mapError .exception)) one → s.loop = .done r →
        Step host claim s (.run (.validate (r.mapError .exception))) { s with one := one }
  | write {s : PatchAttempt} {tree : Tree} : s.Writable → Step host claim s (.write tree) { s with tree := tree }
  | turn {s : PatchAttempt} {loop : Loop} :
      host.sandbox.next host.workspace s.loop = some loop → Step host claim s .turn
        { s with loop := loop, starts := if loop.isRunning then s.starts ++ [s.tree] else s.starts }
  -- a second cancellation ends the task before the thread that removes the worktree
  | remove {s : PatchAttempt} :
      s.one.phase.isPast = true → s.worktree = .present →
        Step host claim s .remove { s with worktree := .removed }

def Start (claim : Claim) (s : PatchAttempt) : Prop :=
  ∃ one tree, RunOne.Start claim one ∧ s = ⟨one, none, .missing, tree, .idle, none, []⟩

def machine (host : Host) (claim : Claim) : Machine PatchAttempt Label where
  init := Start claim
  step := Step host claim

/-- No interruption comes while a command runs or is to be started. -/
def Calm (host : Host) (s : PatchAttempt) : Label → Prop
  | .run .timeout | .run .cancel => host.sandbox.isActive host.workspace s.loop = false
  | _ => True

/-- The runs whose steps are all calm. -/
def calm (host : Host) (claim : Claim) : Machine PatchAttempt Label where
  init := Start claim
  step s l s' := Step host claim s l s' ∧ s.Calm host l

variable {host : Host} {claim : Claim} {s s' : PatchAttempt} {l : Label}

/-- Each step is one of `run_one`, or none. -/
theorem Step.one (h : Step host claim s l s') :
    (∃ a, l = .run a ∧ RunOne.Step claim s.one a s'.one) ∨ s'.one = s.one := by
  cases h with
  | run h | enter h | check h | receive h | receiveFails h | validate h => exact Or.inl ⟨_, rfl, h.step⟩
  | add | write | turn | remove => exact Or.inr rfl

theorem reachable_of_calm (h : (calm host claim).Reachable s) : (machine host claim).Reachable s := by
  refine Machine.Reachable.invariant (M := calm host claim) (I := (machine host claim).Reachable) ?_ ?_ h
  · exact fun s hs => .of_init hs
  · exact fun s l s' hr hstep => hr.step (l := l) hstep.1

/-! ## The worktree outlives the commands -/

theorem past_step {s s' : RunOne} {a : Act} (h : RunOne.Step claim s a s') (hp : s.phase.isPast = true) :
    s'.phase.isPast = true := by
  cases h with
  | read hp' | resolve hp' | enter hp' | patch hp' | check hp' | checkFails hp' | receive hp' | receiveFails hp'
  | validate hp' | overrun hp' =>
    rw [hp'] at hp
    cases hp
  | commit | lose | others => exact hp
  | @leave result r _ _ => cases r <;> rfl
  | timeout ht =>
    obtain ⟨rfl, -⟩ := Phase.timedOut_some ht
    rfl
  | cancel hc =>
    obtain ⟨rfl | rfl, -⟩ := Phase.cancelled_some hc <;> rfl
  | finalize => rfl

/-- Only `enter` leads into the worktree. -/
theorem inside_step {s s' : RunOne} {a : Act} (h : RunOne.Step claim s a s') (hi : s'.phase.isInside = true) :
    s.phase.isInside = true ∨ a = .enter (.ok ()) := by
  cases h with
  | @read settings fs modelValidate hp =>
    cases hr : readAttempt settings fs modelValidate claim s.sys.db with
    | error e | ok attempt =>
      simp only [hr] at hi
      cases hi
  | @resolve attempt r hp =>
    cases r with
    | error f => cases hi
    | ok sha =>
      rcases Phase.afterResolve_ok attempt sha with hr | hr
      · rw [hr] at hi
        cases hi
      · rw [hr] at hi
        cases hi
  | @enter attempt r hp =>
    cases r with
    | error f => cases hi
    | ok u => exact Or.inr rfl
  | patch hp | check hp | checkFails hp | receive hp | receiveFails hp | validate hp =>
    rw [hp]
    exact Or.inl rfl
  | commit | lose | others => exact Or.inl hi
  | @leave result r _ _ =>
    obtain ⟨result', hr⟩ := Phase.afterLeave_eq result r
    rw [hr] at hi
    cases hi
  | timeout ht =>
    obtain ⟨rfl, -⟩ := Phase.timedOut_some ht
    cases hi
  | cancel hc =>
    obtain ⟨rfl | rfl, -⟩ := Phase.cancelled_some hc <;> cases hi
  | overrun | finalize => cases hi

/-- The await of `run_validation` is left by its answer or an interruption. -/
theorem validating_step {s s' : RunOne} {a : Act} (h : RunOne.Step claim s a s') (hv : s.phase.isValidating = true) :
    s'.phase.isValidating = true ∨ (∃ r, a = .validate r) ∨ a = .timeout ∨ a = .cancel := by
  cases h with
  | read hp | resolve hp | enter hp | patch hp | check hp | checkFails hp | receive hp | receiveFails hp | leave hp
  | overrun hp | finalize hp =>
    rw [hp] at hv
    cases hv
  | commit | lose | others => exact Or.inl hv
  | validate => exact Or.inr (Or.inl ⟨_, rfl⟩)
  | timeout => exact Or.inr (Or.inr (Or.inl rfl))
  | cancel => exact Or.inr (Or.inr (Or.inr rfl))

/-- Where the worktree is. -/
structure Placed (s : PatchAttempt) : Prop where
  inside : s.one.phase.isInside = true → s.worktree = .present
  removed : s.worktree = .removed → s.one.phase.isPast = true

theorem Placed.step (hs : s.Placed) (h : Step host claim s l s') : s'.Placed := by
  cases h with
  | @run one a ha hplain =>
    refine ⟨fun hi => ?_, fun hr => past_step ha.step (hs.removed hr)⟩
    rcases inside_step ha.step hi with hi | rfl
    · exact hs.inside hi
    · cases hplain
  | add hp hw =>
    refine ⟨fun hi => rfl, nofun⟩
  | @enter one r ha hw =>
    refine ⟨fun hi => ?_, fun hr => past_step ha.step (hs.removed hr)⟩
    rcases inside_step ha.step hi with hi | he
    · exact hs.inside hi
    · exact hw.mp (Act.enter.inj he)
  | check ha | receive ha | receiveFails ha | validate ha =>
    refine ⟨fun hi => ?_, fun hr => past_step ha.step (hs.removed hr)⟩
    rcases inside_step ha.step hi with hi | he
    · exact hs.inside hi
    · cases he
  | write | turn => exact ⟨hs.inside, hs.removed⟩
  | remove hp hw =>
    refine ⟨fun hi => ?_, fun _ => hp⟩
    have hno : s.one.phase.isInside = false := Phase.not_inside_of_past hp
    exact absurd hi (by simpa using hno)

theorem placed_of_reachable (h : (machine host claim).Reachable s) : s.Placed := by
  refine Machine.Reachable.invariant (M := machine host claim) ?_ (fun s l s' hs hstep => hs.step hstep) h
  rintro s ⟨one, tree, ⟨-, _, _, _, _, _, -, -, rfl⟩, rfl⟩
  exact ⟨nofun, nofun⟩

/-- In a calm run the thread works only while `execute` waits for it. -/
def Awaited (host : Host) (s : PatchAttempt) : Prop :=
  host.sandbox.isActive host.workspace s.loop = true → s.one.phase.isValidating = true

theorem Awaited.step (hs : s.Awaited host) (h : Step host claim s l s') (hc : s.Calm host l) : s'.Awaited host := by
  intro ha
  cases h with
  | @run one a hstep hplain =>
    rcases validating_step hstep.step (hs ha) with hv | ⟨r, rfl⟩ | hi
    · exact hv
    · cases hplain
    · have hidle : host.sandbox.isActive host.workspace s.loop = false := by
        rcases hi with rfl | rfl <;> exact hc
      exact absurd ha (by simpa using hidle)
  | enter hstep | check hstep | receiveFails hstep =>
    rcases validating_step hstep.step (hs ha) with hv | ⟨r, he⟩ | he | he
    · exact hv
    · cases he
    · cases he
    · cases he
  | receive hstep hp =>
    show Phase.isValidating _ = true
    rw [hp]
    rfl
  | validate hstep hdone =>
    -- the await returns only when the loop is over
    have hover : host.sandbox.isActive host.workspace s.loop = false := by
      rw [hdone]
      rfl
    exact absurd ha (by simpa using hover)
  | add | write | remove => exact hs ha
  | turn hn => exact hs (Sandbox.isActive_next hn ha)

theorem awaited_of_reachable (h : (calm host claim).Reachable s) : s.Awaited host := by
  refine Machine.Reachable.invariant (M := calm host claim) (I := Awaited host) ?_
    (fun s l s' hs hstep => hs.step hstep.1 hstep.2) h
  rintro s ⟨one, tree, -, rfl⟩
  exact nofun

/-- In a calm run no command runs once the worktree is gone. -/
theorem not_running_of_removed (h : (calm host claim).Reachable s) (hr : s.worktree = .removed) :
    s.loop.isRunning = false := by
  by_contra hrun
  rw [Bool.not_eq_false] at hrun
  have hv := awaited_of_reachable h (by simp [Sandbox.isActive, hrun])
  have hp := (placed_of_reachable (reachable_of_calm h)).removed hr
  have hin := Phase.inside_of_validating hv
  rw [Phase.not_inside_of_past hp] at hin
  cases hin

/-- The worktree stays removed. -/
theorem removed_step (h : Step host claim s l s') (hr : s.worktree = .removed) : s'.worktree = .removed := by
  cases h with
  | add hp hw =>
    rw [hr] at hw
    cases hw
  | remove => rfl
  | _ => exact hr

/-- After the removal a calm run starts no command. -/
theorem starts_of_removed {tr : List (Entry PatchAttempt Label)} (h : (calm host claim).Reachable s)
    (hr : s.worktree = .removed) (hrun : (calm host claim).Run s tr s') :
    s'.worktree = .removed ∧ s'.starts = s.starts := by
  refine Machine.Run.rel (M := calm host claim)
    (R := fun a b => a.worktree = .removed → b.worktree = .removed ∧ b.starts = a.starts) ?_ ?_ ?_ h hrun hr
  · intro s ha
    exact ⟨ha, rfl⟩
  · intro a b c hab hbc ha
    obtain ⟨hb, he⟩ := hab ha
    obtain ⟨hc, he'⟩ := hbc hb
    exact ⟨hc, he'.trans he⟩
  · intro a l b ha hstep hrem
    have hrem' := removed_step hstep.1 hrem
    refine ⟨hrem', ?_⟩
    have hno := not_running_of_removed (ha.step (l := l) hstep) hrem'
    obtain ⟨hstep, -⟩ := hstep
    cases hstep with
    | @turn loop hn =>
      show (if loop.isRunning then a.starts ++ [a.tree] else a.starts) = a.starts
      rw [if_neg (by simpa using hno)]
    | _ => rfl

/-- An interruption takes `execute` out of its worktree. -/
theorem past_of_interrupted {s s' : RunOne} {a : Act} (h : RunOne.Step claim s a s') (ha : a = .timeout ∨ a = .cancel)
    (hv : s.phase.isValidating = true) : s'.phase.isPast = true := by
  cases hs : s.phase with
  | validating work =>
    rcases ha with rfl | rfl
    · cases h with
      | timeout ht =>
        rw [hs] at ht
        cases ht
        rfl
    · cases h with
      | cancel hc =>
        rw [hs] at hc
        cases hc
        rfl
  | _ =>
    rw [hs] at hv
    cases hv

/-- A thread that is active runs a command at once or after its next turn. -/
theorem reaches_running (ha : host.sandbox.isActive host.workspace s.loop = true) : ∃ s' tr,
    (machine host claim).Run s tr s' ∧ s'.loop.isRunning = true ∧ s'.one = s.one ∧ s'.worktree = s.worktree := by
  by_cases hr : s.loop.isRunning = true
  · exact ⟨s, [], .nil, hr, rfl, rfl⟩
  · have hn : (host.sandbox.next host.workspace s.loop).any Loop.isRunning = true := by
      simpa [Sandbox.isActive, hr] using ha
    cases hl : host.sandbox.next host.workspace s.loop with
    | none =>
      rw [hl] at hn
      cases hn
    | some loop =>
      rw [hl] at hn
      exact ⟨_, _, .one (M := machine host claim) (l := .turn) (.turn hl), hn, rfl, rfl⟩

/-- **No command outlives the worktree**, and none is started after it, in every calm run; a step that is not calm
leads to a state in which one does.  A command is the process the code has started: what a killed one leaves behind is not
counted. -/
theorem removed_quiet (host : Host) (claim : Claim) :
    (∀ s s' tr, (calm host claim).Reachable s → s.worktree = .removed → (calm host claim).Run s tr s' →
      s'.loop.isRunning = false ∧ s'.starts = s.starts) ∧
    ∀ s l s', (calm host claim).Reachable s → Step host claim s l s' → ¬ s.Calm host l →
      ∃ s'' tr, (machine host claim).Run s' tr s'' ∧ s''.worktree = .removed ∧ s''.loop.isRunning = true := by
  constructor
  · intro s s' tr h hr hrun
    obtain ⟨hr', hst⟩ := starts_of_removed h hr hrun
    exact ⟨not_running_of_removed (h.run hrun) hr', hst⟩
  · intro s l s' h hstep hno
    have hplaced := placed_of_reachable (reachable_of_calm h)
    obtain ⟨a, rfl, hi⟩ : ∃ a, l = .run a ∧ (a = .timeout ∨ a = .cancel) := by
      cases l with
      | run a =>
        refine ⟨a, rfl, ?_⟩
        cases a <;> first | exact Or.inl rfl | exact Or.inr rfl | exact absurd trivial hno
      | _ => exact absurd trivial hno
    have ha : host.sandbox.isActive host.workspace s.loop = true := by
      rcases hi with rfl | rfl <;> simpa [Calm] using hno
    have hv := awaited_of_reachable h ha
    obtain ⟨one, hone, rfl⟩ : ∃ one, RunOne.Step claim s.one a one ∧ s' = { s with one := one } := by
      rcases hi with rfl | rfl
      · cases hstep with
        | run hone => exact ⟨_, hone.step, rfl⟩
      · cases hstep with
        | run hone => exact ⟨_, hone.step, rfl⟩
    obtain ⟨s₁, tr, hrun, hl, he, hw⟩ := @reaches_running host claim { s with one := one } ha
    have hp : s₁.one.phase.isPast = true := by
      rw [he]
      exact past_of_interrupted hone hi hv
    have hpresent : s₁.worktree = .present := by
      rw [hw]
      exact hplaced.inside (Phase.inside_of_validating hv)
    exact ⟨_, _, .snoc (M := machine host claim) (l := .remove) hrun (.remove hp hpresent), rfl, hl⟩

end PatchAttempt

/-! ## A sample attempt with two commands -/

namespace TwoCommands

open Sample PatchAttempt

/-- A formatter before the tests. -/
def policy : ServicePolicy :=
  { narrowed with
    validationCommands := [⟨lit "format", [lit "black", lit "src"], 30, by decide, by decide, by decide⟩,
      ⟨lit "unit tests", [lit "pytest", lit "tests"], 30, by decide, by decide, by decide⟩]
    commands_nonempty := List.cons_ne_nil _ _ }

/-- From the first event to the approval. -/
def txs : List Tx :=
  [.ingest (env 1) request intake sha, .syncServices settings fs (env 1) [(lit "api", policy)],
    .claimJob settings (env 2) fun _ => false,
    .finalize (env 3) analyzeClaim { result := some Interrupted.analysis } none, .approve (env 4) 17 9]

def approved : Sys := start.execAll txs

theorem approved_reachable : Sys.machine.Reachable approved :=
  reachable_execAll (show start.Permits txs by decide)

def claimed : Sys := approved.exec (.claimJob settings (env 5) fun _ => false)

def marked : Sys := claimed.exec (.markValidating patchClaim)

def attempt : Attempt :=
  { Interrupted.attempt with policy := (approved.db.analysisRunOf 17).elim .null AnalysisRun.policySnapshot }

theorem attempt_read : readAttempt settings fs .ok patchClaim claimed.db = .ok attempt := by rfl

def diffText : PyStr :=
  lit "diff --git a/src/a.py b/src/a.py\nnew file mode 100644\n--- /dev/null\n+++ b/src/a.py\n@@ -0,0 +1 @@\n+x = 1\n"

def ws : Workspace := Added.added.workspace (Utf8.encode (lit "100644 0\tsrc/a.py")) (Utf8.encode diffText)

set_option maxRecDepth 4000 in
theorem decode_diffText : Utf8.decode (Utf8.encode diffText) = some diffText := by rfl

set_option maxRecDepth 4000 in
theorem passes : checkDiff ws attempt.policy = .ok ([lit "src/a.py"], diffText) := by rfl

/-- Every command ends with exit code 0. -/
def sandbox : Sandbox := ⟨true, fun _ => false, fun _ _ _ => .ok ⟨false, 0, [], 8⟩⟩

def host : Host where
  sandbox := sandbox
  workspace := lit "/w"
  commitTree _ := Added.base
  apply base text := if text = diffText then
      fun p => if p = Added.path then .file (Utf8.encode (lit "x = 1\n")) false else base p
    else base
  excluded _ _ := false
  converted tree := tree

theorem reports : host.Reports ws Added.added where
  toShows := Added.added.workspace_shows ..
  diffText raw text hraw htext _ := by
    obtain rfl := Except.ok.inj hraw
    rw [decode_diffText] at htext
    obtain rfl := Option.some.inj htext
    funext p
    by_cases hp : p = Added.path
    · simp [host, GitDiff.applied, Added.added, Added.work, hp]
    · simp [host, GitDiff.applied, Added.added, hp]

def checked : Snapshot := ⟨Added.base, Added.work, Added.added⟩

def work : Work := ⟨lit "thread", [lit "src/a.py"], diffText⟩

/-- `execute` awaits `run_validation`. -/
def validating (tree : Tree) (loop : Loop) (starts : List Tree) : PatchAttempt :=
  ⟨⟨marked, .validating work, 5, .committed 5, false⟩, some attempt, .present, tree, loop, some checked, starts⟩

theorem validating_reachable :
    (calm host patchClaim).Reachable (validating Added.work (.begin attempt.policy) []) := by
  have h₀ : (calm host patchClaim).Reachable
      ⟨⟨claimed, .reading, 4, .idle, false⟩, none, .missing, Added.base, .idle, none, []⟩ :=
    .of_init ⟨_, _, ⟨rfl, approved, settings, env 5, fun _ => false, claimed.db, approved_reachable, by rfl, rfl⟩, rfl⟩
  have h₁ := h₀.step (show (calm host patchClaim).step _ (.run (.read settings fs .ok)) _ from
    ⟨.run ⟨.read rfl, nofun⟩ rfl, trivial⟩)
  simp only [attempt_read] at h₁
  have h₂ := h₁.step (show (calm host patchClaim).step _ (.run (.resolve (.ok sha))) _ from
    ⟨.run ⟨.resolve rfl, nofun⟩ rfl, trivial⟩)
  have h₃ := h₂.step (show (calm host patchClaim).step _ .add _ from ⟨.add rfl rfl, trivial⟩)
  have h₄ := h₃.step (show (calm host patchClaim).step _ (.run (.enter (.ok ()))) _ from
    ⟨.enter ⟨.enter rfl, nofun⟩ (iff_of_true rfl rfl), trivial⟩)
  have h₅ := h₄.step (show (calm host patchClaim).step _ (.write Added.work) _ from ⟨.write (Or.inl rfl), trivial⟩)
  have h₆ := h₅.step (show (calm host patchClaim).step _ (.run (.patch (.ok work.threadId))) _ from
    ⟨.run ⟨.patch rfl, nofun⟩ rfl, trivial⟩)
  have h₇ := h₆.step (show (calm host patchClaim).step _ (.run (.check (.ok (work.changed, work.diff)))) _ from
    ⟨.check (c := checked) ⟨.check rfl, nofun⟩ rfl rfl rfl reports passes, trivial⟩)
  have h₈ := h₇.step (show (calm host patchClaim).step _ (.run .commit) _ from ⟨.run ⟨.commit rfl, nofun⟩ rfl, trivial⟩)
  exact h₈.step (show (calm host patchClaim).step _ (.run .receive) _ from
    ⟨.receive ⟨.receive rfl rfl, nofun⟩ rfl rfl, trivial⟩)

/-- The time limit fires while the formatter runs: it goes on without the worktree, and so the tests are started. -/
theorem removed_while_running : ∃ s s' tr, (machine host patchClaim).Reachable s ∧ s.worktree = .removed ∧
    s.loop.isRunning = true ∧ (machine host patchClaim).Run s tr s' ∧ s'.starts.length = s.starts.length + 1 := by
  have h₀ := reachable_of_calm validating_reachable
  have h₁ := h₀.step (show (machine host patchClaim).step _ .turn _ from .turn rfl)
  have h₂ := h₁.step (show (machine host patchClaim).step _ (.run .timeout) _ from
    .run ⟨.timeout rfl, fun f hf => by cases hf; trivial⟩ rfl)
  have h₃ := h₂.step (show (machine host patchClaim).step _ .remove _ from .remove rfl rfl)
  exact ⟨_, _, _, h₃, rfl, rfl,
    .cons (show (machine host patchClaim).step _ .turn _ from .turn rfl)
      (.one (show (machine host patchClaim).step _ .turn _ from .turn rfl)), rfl⟩

/-- The results of both commands. -/
def results : List Json :=
  [(⟨false, 0, [], 8⟩ : CommandRun).entry (.str (lit "format")),
    (⟨false, 0, [], 8⟩ : CommandRun).entry (.str (lit "unit tests"))]

/-- The loop is over; the first command has left `tree`. -/
theorem done_reachable (tree : Tree) :
    (calm host patchClaim).Reachable (validating tree (.done (.ok (.ok results))) [Added.work, tree]) := by
  have h₁ := validating_reachable.step (show (calm host patchClaim).step _ .turn _ from ⟨.turn rfl, trivial⟩)
  have h₂ := h₁.step (show (calm host patchClaim).step _ (.write tree) _ from
    ⟨.write (Or.inr (List.cons_ne_nil _ _)), trivial⟩)
  have h₃ := h₂.step (show (calm host patchClaim).step _ .turn _ from ⟨.turn rfl, trivial⟩)
  have h₄ := h₃.step (show (calm host patchClaim).step _ .turn _ from ⟨.turn rfl, trivial⟩)
  have h₅ := h₄.step (show (calm host patchClaim).step _ .turn _ from ⟨.turn rfl, trivial⟩)
  exact h₅.step (show (calm host patchClaim).step _ .turn _ from ⟨.turn rfl, trivial⟩)

def outcome : Outcome :=
  { threadId := some (lit "thread"), changedFiles := [lit "src/a.py"], diff := some diffText, validation := results }

/-- `execute` has its outcome; `phase` is how far it is. -/
def concluded (tree : Tree) (phase : Phase) (worktree : Worktree) : PatchAttempt :=
  ⟨⟨marked, phase, 5, .committed 5, false⟩, some attempt, worktree, tree, .done (.ok (.ok results)), some checked,
    [Added.work, tree]⟩

theorem leaving_reachable (tree : Tree) :
    (calm host patchClaim).Reachable (concluded tree (.leaving (.ok outcome)) .present) :=
  (done_reachable tree).step (show (calm host patchClaim).step _ (.run (.validate (.ok (.ok results)))) _ from
    ⟨.validate (r := .ok (.ok results)) ⟨@RunOne.Step.validate _ _ work _ rfl, nofun⟩ rfl, trivial⟩)

/-- Both commands are over when the worktree is removed. -/
theorem removed_quiet_sample : (concluded Added.work (.leaving (.ok outcome)) .removed).loop.isRunning = false := by
  have h := (leaving_reachable Added.work).step
    (show (calm host patchClaim).step _ .remove _ from ⟨.remove rfl rfl, trivial⟩)
  exact ((removed_quiet host patchClaim).1 _ _ _ h rfl .nil).1

end TwoCommands

end Aeh
