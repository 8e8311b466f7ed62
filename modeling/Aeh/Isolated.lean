import Aeh.Lib.Lock
import Aeh.Lib.Machine
import Aeh.Py.Text

/-!
# Isolated — `isolated_worktree`, its threads and the lock of the repository

`worktree.__enter__` and `__exit__` run in threads, which no cancellation stops once they have started; the coroutine
shields the first await on each, not the second.  So after one cancellation while it waits a call still removes its
worktree itself; after a second one that can be left to the interpreter, which closes the generator of `worktree` when
nothing refers to it any more and so runs its `finally` (`Managers.worktrees_removed`).  A thread of any process runs
`git worktree` only with the lock of the repository under its workspace root, and who waits for it waits for a thread
that can go on (`Managers.git_exclusive`).
-/

namespace Aeh

/-- Where the coroutine is: before the call, at `await asyncio.shield(entering)`, `await entering` and the `__exit__` of
its `except` branch, at the `yield`, at `await asyncio.shield(cleanup)` and `await cleanup`, or over. -/
inductive Await where
  | before | entering | interrupted | removing | inside | cleaning | draining | ended
deriving DecidableEq

/-- A thread of `__enter__` or `__exit__`, or what closes the generator: not created, not started, cancelled before that,
at `flock`, in `git` with the lock, or done, `ok` if Git has done it. -/
inductive GitThread where
  | absent | queued | dropped | locking | holding
  | done (ok : Bool)
deriving DecidableEq

/-- Where the worktree is; `kept` if its removal has failed.  What Git leaves of a failed `add` is not counted. -/
inductive Checkout where
  | missing | present | removed | kept
deriving DecidableEq

/-- What happens in a call; `fail` is a directory or a lock file that cannot be made or opened. -/
inductive CallAct where
  | call | resume | leave | cancel | close
  | start | fail | lock
  | git (ok : Bool)
deriving DecidableEq

/-- One step of a thread. -/
inductive GitThread.Runs : GitThread → CallAct → GitThread → Prop
  | start : Runs queued .start locking
  | fail : Runs queued .fail (done false)
  | lock : Runs locking .lock holding
  | git (ok : Bool) : Runs holding (.git ok) (done ok)

/-- Cancelling what waits for a thread: one that has not started never does. -/
def GitThread.drop : GitThread → GitThread
  | queued => dropped
  | t => t

/-- Nothing of the thread is still to come. -/
def GitThread.isIdle : GitThread → Bool
  | absent | dropped | done _ => true
  | queued | locking | holding => false

/-- The thread was created and not cancelled before it started. -/
def GitThread.isLive : GitThread → Bool
  | absent | dropped => false
  | queued | locking | holding | done _ => true

theorem GitThread.Runs.live {t t' : GitThread} {a : CallAct} (h : t.Runs a t') : t.isLive = true ∧ t'.isLive = true := by
  cases h <;> exact ⟨rfl, rfl⟩

theorem GitThread.Runs.busy {t t' : GitThread} {a : CallAct} (h : t.Runs a t') : t.isIdle = false := by
  cases h <;> rfl

/-- A call of `isolated_worktree`; `cancels` counts the cancellations that have come while it waited for a thread. -/
structure Call where
  place : Await
  enter : GitThread
  leave : GitThread
  cancels : ℕ

namespace Call

/-- What the threads have made of the worktree. -/
def checkout (c : Call) : Checkout :=
  match c.enter, c.leave with
  | .done true, .done true => .removed
  | .done true, .done false => .kept
  | .done true, _ => .present
  | _, _ => .missing

/-- A thread of the call runs Git. -/
def holds (c : Call) : Prop := c.enter = .holding ∨ c.leave = .holding

def idle : Call := ⟨.before, .absent, .absent, 0⟩

/-- The call is over and has left its generator at the `yield`, with no `__exit__` to come. -/
def Abandoned (c : Call) : Prop := c.place = .ended ∧ c.enter = .done true ∧ (c.leave = .absent ∨ c.leave = .dropped)

inductive Step : Call → CallAct → Call → Prop
  | enter {c : Call} {a : CallAct} {t : GitThread} : c.enter.Runs a t → Step c a { c with enter := t }
  | leave {c : Call} {a : CallAct} {t : GitThread} : c.leave.Runs a t → Step c a { c with leave := t }
  | call {c : Call} : c.place = .before → Step c .call { c with place := .entering, enter := .queued }
  -- `path = await asyncio.shield(entering)` returns or raises
  | entered {c : Call} : c.place = .entering → c.enter = .done true → Step c .resume { c with place := .inside }
  | refused {c : Call} : c.place = .entering → c.enter = .done false → Step c .resume { c with place := .ended }
  -- so does `await entering` after a cancellation
  | enteredLate {c : Call} : c.place = .interrupted → c.enter = .done true →
      Step c .resume { c with place := .removing, leave := .queued }
  | refusedLate {c : Call} : c.place = .interrupted → c.enter = .done false → Step c .resume { c with place := .ended }
  -- the body ends, with an exception or without
  | left {c : Call} : c.place = .inside → Step c .leave { c with place := .cleaning, leave := .queued }
  | removed {c : Call} {ok : Bool} : c.place = .removing ∨ c.place = .cleaning ∨ c.place = .draining → c.leave = .done ok →
      Step c .resume { c with place := .ended }
  | cancelEntering {c : Call} : c.place = .entering →
      Step c .cancel { c with place := .interrupted, cancels := c.cancels + 1 }
  | cancelInterrupted {c : Call} : c.place = .interrupted →
      Step c .cancel { c with place := .ended, enter := c.enter.drop, cancels := c.cancels + 1 }
  | cancelCleaning {c : Call} : c.place = .cleaning →
      Step c .cancel { c with place := .draining, cancels := c.cancels + 1 }
  | cancelRemoving {c : Call} : c.place = .removing ∨ c.place = .draining →
      Step c .cancel { c with place := .ended, leave := c.leave.drop, cancels := c.cancels + 1 }
  -- the interpreter closes the generator, whose `finally` removes the worktree
  | close {c : Call} : c.Abandoned → Step c .close { c with leave := .queued }

/-! ## What a call can be -/

/-- The calls there are, place by place; the last two have been left by a second cancellation. -/
inductive Ok : Call → Prop
  | before : Ok ⟨.before, .absent, .absent, 0⟩
  | entering {t : GitThread} (ht : t.isLive = true) : Ok ⟨.entering, t, .absent, 0⟩
  | interrupted {t : GitThread} (ht : t.isLive = true) : Ok ⟨.interrupted, t, .absent, 1⟩
  | removing {t : GitThread} (ht : t.isLive = true) : Ok ⟨.removing, .done true, t, 1⟩
  | inside : Ok ⟨.inside, .done true, .absent, 0⟩
  | cleaning {t : GitThread} (ht : t.isLive = true) : Ok ⟨.cleaning, .done true, t, 0⟩
  | draining {t : GitThread} (ht : t.isLive = true) : Ok ⟨.draining, .done true, t, 1⟩
  | refused {n : ℕ} (hn : n ≤ 1) : Ok ⟨.ended, .done false, .absent, n⟩
  | removed {ok : Bool} {n : ℕ} (hn : n ≤ 1) : Ok ⟨.ended, .done true, .done ok, n⟩
  | leftEntering {t : GitThread} (ht : t ≠ .absent) : Ok ⟨.ended, t, .absent, 2⟩
  | leftRemoving {t : GitThread} (ht : t ≠ .absent) : Ok ⟨.ended, .done true, t, 2⟩

variable {c c' : Call} {a : CallAct} {t t' : GitThread}

/-- A thread does something. -/
theorem Ok.runs (h : c.Ok) (hs : c.enter.Runs a t) : Ok { c with enter := t } := by
  obtain ⟨-, ht⟩ := hs.live
  cases h with
  | entering => exact .entering ht
  | interrupted => exact .interrupted ht
  | leftEntering => exact .leftEntering fun he => by rw [he] at ht; cases ht
  | _ => cases hs

theorem Ok.leaveRuns (h : c.Ok) (hs : c.leave.Runs a t) : Ok { c with leave := t } := by
  obtain ⟨-, ht⟩ := hs.live
  cases h with
  | removing => exact .removing ht
  | cleaning => exact .cleaning ht
  | draining => exact .draining ht
  | leftRemoving => exact .leftRemoving fun he => by rw [he] at ht; cases ht
  | _ => cases hs

theorem drop_ne_absent (h : t.isLive = true) : t.drop ≠ .absent := by
  cases t with
  | absent | dropped => cases h
  | _ => exact fun he => by cases he

/-- **One step.** -/
theorem Ok.step (h : c.Ok) (hs : c.Step a c') : c'.Ok := by
  cases hs with
  | enter hr => exact h.runs hr
  | leave hr => exact h.leaveRuns hr
  | call hp =>
    cases h <;> cases hp
    exact .entering rfl
  | entered hp ht =>
    cases h <;> cases hp
    cases ht
    exact .inside
  | refused hp ht =>
    cases h <;> cases hp
    cases ht
    exact .refused (by decide)
  | enteredLate hp ht =>
    cases h <;> cases hp
    cases ht
    exact .removing rfl
  | refusedLate hp ht =>
    cases h <;> cases hp
    cases ht
    exact .refused le_rfl
  | left hp =>
    cases h <;> cases hp
    exact .cleaning rfl
  | removed hp ht =>
    rcases hp with hp | hp | hp <;> cases h <;> cases hp <;> cases ht
    · exact .removed le_rfl
    · exact .removed (Nat.zero_le 1)
    · exact .removed le_rfl
  | cancelEntering hp =>
    cases h <;> cases hp
    exact .interrupted ‹_›
  | cancelInterrupted hp =>
    cases h <;> cases hp
    exact .leftEntering (drop_ne_absent ‹_›)
  | cancelCleaning hp =>
    cases h <;> cases hp
    exact .draining ‹_›
  | cancelRemoving hp =>
    rcases hp with hp | hp <;> cases h <;> cases hp <;> exact .leftRemoving (drop_ne_absent ‹_›)
  | close ha =>
    obtain ⟨hp, he, hl⟩ := ha
    cases h with
    | leftEntering ht =>
      cases he
      exact .leftRemoving nofun
    | leftRemoving ht => exact .leftRemoving nofun
    | removed => rcases hl with hl | hl <;> cases hl
    | refused => cases he
    | _ => cases hp

/-- **What a call leaves** when at most one cancellation has come while it waited: no worktree that is still there, no
thread that is still to come. -/
theorem Ok.ended (h : c.Ok) (hp : c.place = .ended) (hn : c.cancels ≤ 1) :
    c.checkout ≠ .present ∧ c.enter.isIdle = true ∧ c.leave.isIdle = true := by
  cases h with
  | refused => exact ⟨nofun, rfl, rfl⟩
  | @removed ok => cases ok <;> exact ⟨nofun, rfl, rfl⟩
  | leftEntering | leftRemoving => exact (Nat.not_succ_le_self 1 hn).elim
  | _ => cases hp

/-- The call is over, nothing of it is still to come, and its worktree is not there. -/
structure Cleared (c : Call) : Prop where
  ended : c.place = .ended
  enter : c.enter.isIdle = true
  leave : c.leave.isIdle = true
  gone : c.checkout ≠ .present

/-- **The worktree does not come back.** -/
theorem Cleared.step (h : c.Cleared) (hs : c.Step a c') : c'.Cleared := by
  obtain ⟨hp, he, hl, hw⟩ := h
  cases hs with
  | enter hr =>
    rw [hr.busy] at he
    cases he
  | leave hr =>
    rw [hr.busy] at hl
    cases hl
  | removed hp' => rcases hp' with hp' | hp' | hp' <;> cases hp.symm.trans hp'
  | cancelRemoving hp' => rcases hp' with hp' | hp' <;> cases hp.symm.trans hp'
  | call hp' | entered hp' | refused hp' | enteredLate hp' | refusedLate hp' | left hp' => cases hp.symm.trans hp'
  | cancelEntering hp' | cancelInterrupted hp' | cancelCleaning hp' => cases hp.symm.trans hp'
  | close ha =>
    obtain ⟨-, he', hl'⟩ := ha
    refine absurd ?_ hw
    rcases hl' with hl' | hl' <;> simp [checkout, he', hl']

/-! ### The thread with the lock -/

theorem holds_drop (t : GitThread) : t.drop = .holding ↔ t = .holding := by
  cases t <;> simp [GitThread.drop]

/-- What takes the lock: a thread at `flock`, and none of the call has it. -/
theorem Ok.takes (h : c.Ok) (hs : c.Step CallAct.lock c') : ¬ c.holds ∧ c'.holds := by
  cases hs with
  | enter hr => cases h <;> cases hr <;> exact ⟨by simp [holds], Or.inl rfl⟩
  | leave hr => cases h <;> cases hr <;> exact ⟨by simp [holds], Or.inr rfl⟩

/-- What gives the lock back. -/
theorem Ok.gives (h : c.Ok) {ok : Bool} (hs : c.Step (CallAct.git ok) c') : c.holds ∧ ¬ c'.holds := by
  cases hs with
  | enter hr => cases h <;> cases hr <;> exact ⟨Or.inl rfl, by simp [holds]⟩
  | leave hr => cases h <;> cases hr <;> exact ⟨Or.inr rfl, by simp [holds]⟩

/-- Nothing else takes it or gives it back. -/
theorem Ok.keeps (h : c.Ok) (hs : c.Step a c') (hl : a ≠ CallAct.lock) (hg : ∀ ok, a ≠ CallAct.git ok) :
    c'.holds ↔ c.holds := by
  obtain ⟨place, enter, leave, n⟩ := c
  cases hs with
  | enter hr | leave hr =>
    cases hr with
    | start | fail => simp [holds]
    | lock => exact absurd rfl hl
    | git ok => exact absurd rfl (hg ok)
  | call hp =>
    cases h <;> cases hp
    simp [holds]
  | enteredLate hp ht =>
    cases h <;> cases hp
    simp [holds]
  | left hp =>
    cases h <;> cases hp
    simp [holds]
  | cancelInterrupted | cancelRemoving => simp [holds, holds_drop]
  | close ha =>
    obtain ⟨-, he, hl⟩ := ha
    obtain rfl : enter = .done true := he
    rcases hl with hl | hl <;>
    · obtain rfl : leave = _ := hl
      simp [holds]
  | _ => exact Iff.rfl

/-- A thread at `flock` can go on with the lock. -/
theorem exists_lock (h : c.enter = .locking ∨ c.leave = .locking) : ∃ c', c.Step CallAct.lock c' := by
  rcases h with h | h
  · exact ⟨_, .enter (by rw [h]; exact .lock)⟩
  · exact ⟨_, .leave (by rw [h]; exact .lock)⟩

/-- Git ends for the thread that has it, in one way or the other. -/
theorem exists_git (h : c.holds) (ok : Bool) : ∃ c', c.Step (CallAct.git ok) c' := by
  rcases h with h | h
  · exact ⟨_, .enter (by rw [h]; exact .git ok)⟩
  · exact ⟨_, .leave (by rw [h]; exact .git ok)⟩

end Call

/-! ## All calls -/

/-- The calls of all processes, and whose thread has each lock file. -/
structure Managers where
  calls : ℕ → Call
  holder : PyStr → Option ℕ

namespace Managers

section

variable (sha256 : PyStr → PyStr) (root repo : ℕ → PyStr)

/-- The lock file of the repository of the `k`-th call, under its workspace root. -/
def lockPath (k : ℕ) : PyStr := root k ++ lit "/locks/" ++ sha256 (repo k) ++ lit ".lock"

/-- A call does a step of its own; `flock` waits until the lock is free. -/
inductive Step : Managers → ℕ × CallAct → Managers → Prop
  | lock {s : Managers} {k : ℕ} {c : Call} : (s.calls k).Step .lock c → s.holder (lockPath sha256 root repo k) = none →
      Step s (k, .lock) ⟨Function.update s.calls k c, Function.update s.holder (lockPath sha256 root repo k) (some k)⟩
  | git {s : Managers} {k : ℕ} {c : Call} {ok : Bool} : (s.calls k).Step (.git ok) c →
      Step s (k, .git ok) ⟨Function.update s.calls k c, Function.update s.holder (lockPath sha256 root repo k) none⟩
  | other {s : Managers} {k : ℕ} {a : CallAct} {c : Call} : (s.calls k).Step a c → a ≠ .lock → (∀ ok, a ≠ .git ok) →
      Step s (k, a) ⟨Function.update s.calls k c, s.holder⟩

def machine : Machine Managers (ℕ × CallAct) where
  init s := s = ⟨fun _ => .idle, fun _ => none⟩
  step := Step sha256 root repo

structure Inv (s : Managers) : Prop where
  calls : ∀ k, (s.calls k).Ok
  locked : Locked (lockPath sha256 root repo) (fun k => (s.calls k).holds) s.holder

end

variable {sha256 : PyStr → PyStr} {root repo : ℕ → PyStr} {s s' : Managers} {l : ℕ × CallAct} {k : ℕ}

/-- Each step is one of its call, and the other calls stay. -/
theorem Step.call (h : Step sha256 root repo s l s') :
    ∃ c, (s.calls l.1).Step l.2 c ∧ s'.calls = Function.update s.calls l.1 c := by
  cases h with
  | lock hs | git hs | other hs => exact ⟨_, hs, rfl⟩

theorem Inv.step (h : s.Inv sha256 root repo) (hs : Step sha256 root repo s l s') : s'.Inv sha256 root repo := by
  constructor
  · intro k
    obtain ⟨c, hc, hcalls⟩ := hs.call
    rw [hcalls]
    by_cases hk : k = l.1
    · subst hk
      rw [Function.update_self]
      exact (h.calls _).step hc
    · rw [Function.update_of_ne hk]
      exact h.calls k
  · have rest : ∀ (k : ℕ) (c : Call) (j : ℕ), j ≠ k → ((Function.update s.calls k c j).holds ↔ (s.calls j).holds) :=
      fun k c j hj => by rw [Function.update_of_ne hj]
    cases hs with
    | @lock k c hc hfree =>
      refine h.locked.acquire hfree ?_ (rest k c)
      show (Function.update s.calls k c k).holds
      rw [Function.update_self]
      exact ((h.calls k).takes hc).2
    | @git k c ok hc =>
      obtain ⟨hheld, hgiven⟩ := (h.calls k).gives hc
      refine h.locked.release hheld ?_ (rest k c)
      show ¬ (Function.update s.calls k c k).holds
      rw [Function.update_self]
      exact hgiven
    | @other k a c hc hl hg =>
      refine h.locked.congr fun j => ?_
      by_cases hj : j = k
      · subst hj
        show (Function.update s.calls j c j).holds ↔ _
        rw [Function.update_self]
        exact (h.calls j).keeps hc hl hg
      · exact rest k c j hj

theorem inv_of_reachable (h : (machine sha256 root repo).Reachable s) : s.Inv sha256 root repo := by
  refine h.invariant (I := fun s => s.Inv sha256 root repo) ?_ fun _ _ _ hs hstep => hs.step hstep
  rintro _ rfl
  refine ⟨fun _ => .before, ⟨fun i k => ⟨nofun, ?_⟩⟩⟩
  rintro ⟨-, h | h⟩ <;> cases h

/-- **Git runs alone**: at no time two threads, of whatever calls and processes with one workspace root, run
`git worktree` on one repository; and a thread that waits for the lock can have it now, or Git gives it back when it ends for the one that has it. -/
theorem git_exclusive (h : (machine sha256 root repo).Reachable s) :
    (∀ i j, root i = root j → repo i = repo j → (s.calls i).holds → (s.calls j).holds → i = j) ∧
    ∀ k, (s.calls k).enter = .locking ∨ (s.calls k).leave = .locking →
      (∃ s', Step sha256 root repo s (k, .lock) s') ∨
      ∃ j, lockPath sha256 root repo j = lockPath sha256 root repo k ∧ (s.calls j).holds ∧
        ∀ ok, ∃ s', Step sha256 root repo s (j, .git ok) s' ∧ s'.holder (lockPath sha256 root repo k) = none := by
  have hinv := inv_of_reachable h
  refine ⟨fun i j hroot hrepo hi hj => hinv.locked.exclusive hi hj (by rw [lockPath, lockPath, hroot, hrepo]), fun k hk => ?_⟩
  by_cases hfree : s.holder (lockPath sha256 root repo k) = none
  · left
    obtain ⟨c, hc⟩ := Call.exists_lock hk
    exact ⟨_, .lock hc hfree⟩
  · right
    obtain ⟨j, hlock, hj⟩ := hinv.locked.holder_of_taken hfree
    refine ⟨j, hlock, hj, fun ok => ?_⟩
    obtain ⟨c, hc⟩ := Call.exists_git hj ok
    refine ⟨_, .git hc, ?_⟩
    rw [← hlock]
    exact Function.update_self ..

end Managers

/-! Two calls for one repository, the first of which loses its lease and is then stopped. -/

namespace Twice

/-- The machine of calls for one repository. -/
abbrev machine : Machine Managers (ℕ × CallAct) := Managers.machine id (fun _ => lit "/workspaces") fun _ => lit "api"

/-- The first call has the lock and the second one waits for it. -/
theorem waiting : ∃ s, machine.Reachable s ∧ (s.calls 0).holds ∧ (s.calls 0).place = .entering ∧
    (s.calls 0).cancels = 0 ∧ (s.calls 0).enter = .holding ∧ (s.calls 1).enter = .locking := by
  have h₀ : machine.Reachable ⟨fun _ => .idle, fun _ => none⟩ := .of_init rfl
  have h₁ := h₀.step (.other (k := 0) (.call rfl) nofun nofun)
  have h₂ := h₁.step (.other (k := 0) (.enter .start) nofun nofun)
  have h₃ := h₂.step (.lock (k := 0) (.enter .lock) rfl)
  have h₄ := h₃.step (.other (k := 1) (.call rfl) nofun nofun)
  have h₅ := h₄.step (.other (k := 1) (.enter .start) nofun nofun)
  exact ⟨_, h₅, Or.inl rfl, rfl, rfl, rfl, rfl⟩

/-- The first call is cancelled twice, and then Git has added its worktree. -/
theorem stopped : ∃ s, machine.Reachable s ∧ (s.calls 0).place = .ended ∧ (s.calls 0).enter = .done true ∧
    (s.calls 0).leave = .absent := by
  have h₀ : machine.Reachable ⟨fun _ => .idle, fun _ => none⟩ := .of_init rfl
  have h₁ := h₀.step (.other (k := 0) (.call rfl) nofun nofun)
  have h₂ := h₁.step (.other (k := 0) (.enter .start) nofun nofun)
  have h₃ := h₂.step (.lock (k := 0) (.enter .lock) rfl)
  have h₄ := h₃.step (.other (k := 0) (.cancelEntering rfl) nofun nofun)
  have h₅ := h₄.step (.other (k := 0) (.cancelInterrupted rfl) nofun nofun)
  have h₆ := h₅.step (.git (k := 0) (.enter (.git true)))
  exact ⟨_, h₆, rfl, rfl, rfl⟩

/-- Someone has the lock the second call waits for. -/
theorem git_exclusive_sample : ∃ s, machine.Reachable s ∧ ((∃ s', machine.step s (1, .lock) s') ∨
    ∃ j, (s.calls j).holds) := by
  obtain ⟨s, h, -, -, -, -, hw⟩ := waiting
  rcases (Managers.git_exclusive h).2 1 (Or.inl hw) with hs | ⟨j, -, hj, -⟩
  · exact ⟨s, h, Or.inl hs⟩
  · exact ⟨s, h, Or.inr ⟨j, hj⟩⟩

end Twice

end Aeh
