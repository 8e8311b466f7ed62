import Aeh.Lease

/-!
# Attempts — the work on an incident is bounded

Every claim of a job carries the next attempt number (`Sys.Numbered`), and a job waits only while attempts are
left.  With the versions of `Dossier.Ok` this bounds what can ever happen to one incident.
-/

namespace Aeh

section Created

open Table

variable {R : IncidentState → Prop} {db db' : Store} {x : Uuid} {j : Job}

/-- A replacement adds no key. -/
theorem mem_replace_old {jobs : List Job} {b : Job} (hj : j ∈ replace b jobs) : ∃ j₀ ∈ jobs, j₀.id = j.id := by
  rcases mem_replace.mp hj with ⟨rfl, j₀, h₀, he⟩ | ⟨hj, -⟩
  · exact ⟨j₀, h₀, he⟩
  · exact ⟨j, hj, rfl⟩

/-- A job that a move adds has not been tried. -/
theorem Dossier.Move.created {d d' : Dossier} (h : d.Move R d') (hj : j ∈ d'.jobs)
    (hn : ∀ j₀ ∈ d.jobs, j₀.id ≠ j.id) : j.attempt = 0 := by
  have old : ∀ b, j ∈ replace b d.jobs → j.attempt = 0 := by
    intro b hb
    obtain ⟨j₀, h₀, he⟩ := mem_replace_old hb
    exact absurd he (hn j₀ h₀)
  have new : ∀ b : Job, b.attempt = 0 → j ∈ d.jobs ++ [b] → j.attempt = 0 := by
    intro b hb hm
    rcases List.mem_append.mp hm with hm | hm
    · exact absurd rfl (hn j hm)
    · rw [List.mem_singleton.mp hm]
      exact hb
  cases h with
  | opened => exact new _ rfl hj
  | approved => exact new _ rfl hj
  | counted | marked => exact absurd rfl (hn j hj)
  | claimedAnalyze | claimedPatch | renewed | requeued | endedAnalyze | endedPatch => exact old _ hj

theorem Moves.created (h : Moves R db db') (hn : db.jobs.get x = none) (hj : db'.jobs.get x = some j) :
    j.attempt = 0 := by
  obtain ⟨hm, hid⟩ := get_eq_some.mp hj
  have hmem : j ∈ (db'.dossier j.incidentId).jobs := Store.mem_dossier_jobs.mpr ⟨hm, rfl⟩
  have hold : ∀ j₀ ∈ db.jobs.rows, j₀.id ≠ j.id := by
    intro j₀ h₀ he
    exact get_eq_none.mp hn j₀ h₀ (he.trans hid)
  rcases h j.incidentId with he | hmove
  · rw [he] at hmem
    exact absurd rfl (hold j (Store.mem_dossier_jobs.mp hmem).1)
  · exact hmove.created hmem fun j₀ h₀ => hold j₀ (Store.mem_dossier_jobs.mp h₀).1

end Created

namespace Sys

/-- The claims of a job, oldest first. -/
def claimsOf (s : Sys) (x : Uuid) : List Claim := (s.issued.filter fun c => c.jobId = x).reverse

/-- The claims of a job carry the numbers of its attempts. -/
def Numbered (s : Sys) : Prop :=
  ∀ x j, s.db.jobs.get x = some j → (s.claimsOf x).map Claim.attempt = List.range' 1 j.attempt

theorem claimsOf_eq_nil {s : Sys} (hs : s.Inv) {x : Uuid} (hn : s.db.jobs.get x = none) : s.claimsOf x = [] := by
  unfold claimsOf
  rw [List.reverse_eq_nil_iff, List.filter_eq_nil_iff]
  intro c hc hx
  obtain ⟨j, hj, hid, -⟩ := (hs.fits c hc).job
  exact Table.get_eq_none.mp hn j hj (hid.trans (by simpa using hx))

theorem claimsOf_cons {s s' : Sys} {c : Claim} (hi : s'.issued = c :: s.issued) (x : Uuid) :
    s'.claimsOf x = if c.jobId = x then s.claimsOf x ++ [c] else s.claimsOf x := by
  unfold claimsOf
  rw [hi]
  split_ifs with hx
  · rw [List.filter_cons_of_pos (by simpa using hx), List.reverse_cons]
  · rw [List.filter_cons_of_neg (by simpa using hx)]

/-- A step that issues no claim. -/
theorem Numbered.of_issued {s s' : Sys} {tx : Tx} (hs : s.Inv) (hn : s.Numbered) (h : machine.step s tx s')
    (htx : ∀ settings env skip, tx ≠ .claimJob settings env skip) : s'.Numbered := by
  intro x j' hj'
  have hc : s'.claimsOf x = s.claimsOf x := by
    unfold claimsOf
    rw [issued_of_not_claim h htx]
  rw [hc]
  have hstep := job_step h x
  rw [hj'] at hstep
  generalize hj : s.db.jobs.get x = o at hstep
  cases hstep with
  | same => exact hn x j' hj
  | created =>
    rw [claimsOf_eq_nil hs hj, (step_moves hs h).created hj hj']
    rfl
  | claimed j hclaim => exact absurd hclaim (htx _ _ _)
  | renewed j => exact hn x j hj
  | expired j _ _ _ hf | finished j _ _ _ _ hf =>
    have ha : j'.attempt = j.attempt := by
      cases hf <;> rfl
    rw [ha]
    exact hn x j hj

theorem Numbered.step {s s' : Sys} {tx : Tx} (hs : s.Inv) (hn : s.Numbered) (h : machine.step s tx s') :
    s'.Numbered := by
  cases tx with
  | claimJob settings env skip =>
    rcases claim_step h with rfl | ⟨job, c, hj, -, -, hid, -, ha, hi, hjobs⟩
    · exact hn
    · intro x j' hj'
      rw [claimsOf_cons hi]
      rw [hjobs] at hj'
      have hg : s.db.jobs.get job.id = some job := Table.get_self hj
      by_cases hx : x = job.id
      · have hput : (s.db.jobs.put (job.claimed (env.uuid 0) settings.workerId (env.now 1))).get job.id = some _ :=
          Table.get_put_self (x := job.claimed (env.uuid 0) settings.workerId (env.now 1)) hg
        rw [hx, hput] at hj'
        cases hj'
        rw [if_pos (hid.trans hx.symm), List.map_append, hx, hn job.id job hg, List.map_singleton, ha]
        show _ = List.range' 1 (job.attempt + 1)
        rw [List.range'_concat, Nat.one_mul, Nat.add_comm 1]
      · have hput : (s.db.jobs.put (job.claimed (env.uuid 0) settings.workerId (env.now 1))).get x =
            s.db.jobs.get x := Table.get_put_ne hx
        rw [hput] at hj'
        rw [if_neg fun he => hx (he.symm.trans hid)]
        exact hn x j' hj'
  | _ => exact hn.of_issued hs h nofun

theorem numbered_of_reachable {s : Sys} (h : machine.Reachable s) : s.Numbered := by
  refine (Machine.Reachable.invariant (M := machine) (I := fun s => s.Inv ∧ s.Numbered) ?_ ?_ h).2
  · intro s hs
    refine ⟨.init hs, fun x j hj => ?_⟩
    obtain ⟨services, -, rfl⟩ := hs
    exact (List.not_mem_nil (Table.get_eq_some.mp hj).1).elim
  · intro s tx s' ⟨hi, hn⟩ hstep
    exact ⟨hi.step hstep, hn.step hi hstep⟩

end Sys

/-! ## Bounds -/

namespace Dossier

variable {d : Dossier}

theorem Ok.sound (h : d.Ok) {j : Job} (hj : j ∈ d.jobs) : j.Sound := by
  cases h with
  | absent => exact (List.not_mem_nil hj).elim
  | received _ _ ha | analyzing _ _ ha | analyzed _ _ _ ha =>
    rw [List.mem_singleton.mp hj]
    exact ha.sound
  | patching _ ha _ _ _ _ _ hp | patched _ _ _ _ ha _ _ _ _ _ hp =>
    rcases List.mem_pair.mp hj with rfl | rfl
    · exact ha.sound
    · exact hp.sound

theorem Ok.version_le (h : d.Ok) {inc : Incident} (hi : d.incident = some inc) :
    inc.version ≤ 4 + 2 * Limits.maxAttempts := by
  cases h with
  | absent => cases hi
  | received _ hv | analyzing _ hv | analyzed _ _ hv =>
    cases hi
    omega
  | patching hs _ _ _ _ _ _ hp =>
    cases hi
    have := hp.sound.attempts
    rcases hs with ⟨-, -, hv⟩ | ⟨-, -, h1, hv⟩ <;> omega
  | patched _ _ _ hv =>
    cases hi
    exact hv

/-- An incident has at most an ANALYZE and a PATCH job. -/
theorem Ok.jobs_le (h : d.Ok) : d.jobs.length ≤ 2 := by
  cases h <;> simp

end Dossier

/-- Members of a list that all have one of the keys `ks`. -/
theorem length_le_of_keys {α κ : Type} [DecidableEq κ] (key : α → κ) (n : ℕ) (l : List α) (ks : List κ)
    (hk : ∀ a ∈ l, key a ∈ ks) (hn : ∀ k ∈ ks, (l.filter fun a => key a = k).length ≤ n) :
    l.length ≤ ks.length * n := by
  induction ks generalizing l with
  | nil =>
    cases l with
    | nil => simp
    | cons a l => exact absurd (hk a (List.mem_cons_self ..)) (List.not_mem_nil)
  | cons k ks ih =>
    have hrest := ih (l.filter fun a => key a ≠ k) ?_ ?_
    · have hk := hn k (List.mem_cons_self ..)
      have hsplit := List.length_eq_length_filter_add (l := l) fun a => decide (key a = k)
      simp only [ne_eq, decide_not] at hrest
      rw [List.length_cons, Nat.add_mul, Nat.one_mul]
      omega
    · intro a ha
      obtain ⟨ha, hne⟩ := List.mem_filter.mp ha
      exact (List.mem_cons.mp (hk a ha)).resolve_left (by simpa using hne)
    · intro k' hk'
      refine le_trans (List.Sublist.length_le ?_) (hn k' (List.mem_cons_of_mem _ hk'))
      exact List.filter_sublist.filter _

namespace Sys

/-- **The work on an incident is bounded**: the claims of a job are its attempts 1, 2, 3, … up to its limit, a job
that waits has an attempt left, and the version of an incident and the claims for it have fixed bounds. -/
theorem attempts_bounded {s : Sys} (h : machine.Reachable s) :
    (∀ x j, s.db.jobs.get x = some j → (s.claimsOf x).length = j.attempt ∧
      (s.claimsOf x).map Claim.attempt = List.range' 1 j.attempt ∧ j.attempt ≤ j.maxAttempts ∧
      (j.status = .pending → j.attempt ≠ j.maxAttempts)) ∧
    (∀ i inc, s.db.incidents.get i = some inc → inc.version ≤ 4 + 2 * Limits.maxAttempts) ∧
    ∀ i, (s.issued.filter fun c => c.incidentId = i).length ≤ 2 * Limits.maxAttempts := by
  have hinv := inv_of_reachable h
  have hn := numbered_of_reachable h
  have hsound : ∀ x j, s.db.jobs.get x = some j → j.Sound := fun x j hj =>
    (hinv.ok j.incidentId).sound (Store.mem_dossier_jobs.mpr ⟨(Table.get_eq_some.mp hj).1, rfl⟩)
  have hlen : ∀ x j, s.db.jobs.get x = some j → (s.claimsOf x).length = j.attempt := by
    intro x j hj
    have := congrArg List.length (hn x j hj)
    rwa [List.length_map, List.length_range'] at this
  refine ⟨fun x j hj => ⟨hlen x j hj, hn x j hj, ?_, ?_⟩, fun i inc hi => (hinv.ok i).version_le hi, fun i => ?_⟩
  · have := (hsound x j hj).attempts
    rwa [(hsound x j hj).limit]
  · intro hp
    have := (hsound x j hj).pending hp
    rw [(hsound x j hj).limit]
    omega
  · -- every claim for the incident is one of its jobs, of which there are at most two
    have hle := length_le_of_keys Claim.jobId Limits.maxAttempts (s.issued.filter fun c => c.incidentId = i)
      ((s.db.dossier i).jobs.map Job.id) ?_ ?_
    · rw [List.length_map] at hle
      exact hle.trans (Nat.mul_le_mul_right _ (hinv.ok i).jobs_le)
    · intro c hc
      obtain ⟨hc, hi⟩ := List.mem_filter.mp hc
      obtain ⟨j, hj, hid, -, hji, -⟩ := (hinv.fits c hc).job
      exact List.mem_map.mpr ⟨j, Store.mem_dossier_jobs.mpr ⟨hj, hji.trans (by simpa using hi)⟩, hid⟩
    · intro k hk
      obtain ⟨j, hj, rfl⟩ := List.mem_map.mp hk
      have hg : s.db.jobs.get j.id = some j := Table.get_self (Store.mem_dossier_jobs.mp hj).1
      refine le_trans ?_ (hlen j.id j hg ▸ (hsound j.id j hg).attempts)
      unfold claimsOf
      rw [List.length_reverse]
      exact (List.filter_sublist.filter _).length_le

/-- The sample run: two claims of two jobs, the last version 6. -/
theorem attempts_bounded_sample : (Sample.after 8).claimsOf 66 = [Sample.patchClaim] ∧
    ((Sample.after 8).claimsOf 66).map Claim.attempt = List.range' 1 1 := by
  refine ⟨by decide, ?_⟩
  exact ((attempts_bounded (Sample.reachable 8)).1 66 (((Sample.after 8).db.jobs.get 66).get (by decide)) (by simp)).2.1

end Sys

end Aeh
