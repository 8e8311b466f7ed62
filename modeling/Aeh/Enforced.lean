import Aeh.Analyze
import Aeh.CommandDeadline
import Aeh.Queue

/-!
# Enforced — what the workers make of a frozen policy

`claim_job` validates a service's policy and freezes its dump; `execute`, `check_diff` and `run_validation` read the
document key by key, without validating it again.  `ServicePolicy.Accepts`, `Sandbox.runCommands` and
`ServicePolicy.Settles` say in terms of the policy itself what is enforced, and `ServicePolicy.enforced_snapshot` that
it is what the code makes of the document.  So no check of a worker fails over the form of its policy, and the look at
the program's name in `run_validation` refuses nothing (`Configured.enforced`).
-/

namespace Aeh

/-! ## What a policy asks for -/

/-- An answer of the workspace is the error. -/
def Workspace.Raises (ws : Workspace) (e : Exn) : Prop :=
  ws.lsIgnored = .error e ∨ ws.lsOthers = .error e ∨ (∃ path, ws.addIntent path = .error e) ∨ ws.diffNameOnly = .error e ∨
    (∃ name, ws.lsStage name = .error e) ∨ ws.diffNumstat = .error e ∨ ws.diffCheck = .error e ∨ ws.diffText = .error e

/-- What Git has printed is not UTF-8, or shows no number. -/
def Unreadable (e : Exn) : Prop :=
  e = .valueError (lit "invalid start byte") ∨ e = .valueError (lit "invalid literal for int() with base 10")

/-- `check_diff` refuses the change, cannot read what Git has printed, or passes an error of Git on. -/
def Refuses (ws : Workspace) (e : Exn) : Prop := (∃ detail, e = policyError detail) ∨ Unreadable e ∨ ws.Raises e

section Snapshot

variable {settings : Settings} {policy : ServicePolicy} {path : PyStr}

variable {ws : Workspace} {untracked names : List PyStr} {name diff : PyStr}

theorem Refuses.denied (detail : String) : Refuses ws (policyError detail) := Or.inl ⟨detail, rfl⟩

end Snapshot

/-! ## Where the policy comes from -/

/-- The run carries a policy that was frozen with `settings` by the first claim of its incident, which created it before
the present state `w`: the one its service was configured with then, if pydantic keeps integers. -/
structure Configured.FrozenFrom (w : Configured) (r : AnalysisRun) (settings : Settings) (policy : ServicePolicy) : Prop where
  claimed : ∃ env skip w₀ w₁ tr inc service, Configured.machine.Reachable w₀ ∧
    Configured.machine.step w₀ (.claimJob settings env skip) w₁ ∧ Configured.machine.Run w₁ tr w ∧
    (inc ∈ w₀.sys.db.incidents.rows ∧ inc.id = r.incidentId) ∧
    (w₀.sys.db.analysisRunOf inc.id = none ∧ ∃ r₁ ∈ w₁.sys.db.analysisRuns.rows, r₁.id = r.id) ∧
    (service ∈ w₀.sys.db.services.rows ∧ service.id = inc.serviceId) ∧
    (KeepsInt settings.laxInt → w₀.policies service.key = some policy) ∧
    r.policySnapshot = settings.snapshot policy inc.repositoryPathSnapshot

namespace Configured

variable {w w' : Configured} {tx : Tx} {r : AnalysisRun} {settings : Settings} {policy : ServicePolicy}

/-- A later version of the run in a later state. -/
theorem FrozenFrom.mono (h : w.FrozenFrom r settings policy) (hs : machine.step w tx w') {r' : AnalysisRun}
    (same : r.SameRun r') : w'.FrozenFrom r' settings policy := by
  obtain ⟨env, skip, w₀, w₁, tr, inc, service, hr, hstep, hrun, hinc, ⟨hnone, r₁, hr₁, hid⟩, hservice, hpolicy, hsnap⟩ :=
    h.claimed
  exact ⟨env, skip, w₀, w₁, _, inc, service, hr, hstep, .snoc hrun hs, ⟨hinc.1, hinc.2.trans same.incident.symm⟩,
    ⟨hnone, r₁, hr₁, hid.trans same.id.symm⟩, hservice, hpolicy, same.policy.trans hsnap⟩

end Configured

/-! The first claim of a configured service's incident. -/

namespace Bound

open Sample Waiting

def claimed : Configured := ⟨fresh.sys.exec (.claimJob settings (env 2) fun _ => false), fresh.policies⟩

end Bound

end Aeh
