import Crono.RunCoupling

/-! What workers have been told. The log of grants and completions is tied to the Attempt
rows: a granted Attempt keeps its worker and never becomes queued again, so that no Attempt
is granted or completed twice and a Run is granted at most once per Attempt. -/
namespace ExecutionGrants

open RunDomain WorkflowDomain SqlTable ControlPlaneSchema RunStore WorkflowStore
open ControlPlane StoreWrites RunLifecycle RunCoupling

def GrantedRow (g : Grant) (a : AttemptRow) : Prop :=
  a.id = g.attemptId ∧ a.runId = g.runId ∧ a.workerId = some g.workerId ∧
    2 ≤ AttemptStatus.rank a.status

def GrantOf (a : AttemptRow) (g : Grant) : Prop :=
  g.attemptId = a.id ∧ g.runId = a.runId ∧ some g.workerId = a.workerId

structure GrantLog (s : State) : Prop where
  granted : ∀ g ∈ s.grants, ∃ a ∈ s.store.runAttempts, GrantedRow g a
  distinct : (s.grants.map Grant.attemptId).Nodup
  running : ∀ a ∈ s.store.runAttempts, a.status = .running → ∃ g ∈ s.grants, GrantOf a g
  completed : ∀ c ∈ s.completions, (∃ a ∈ s.store.runAttempts, a.id = c.attemptId ∧
    a.status.isTerminal = true) ∧ ∃ g ∈ s.grants, g.attemptId = c.attemptId ∧
      g.workerId = c.workerId
  completed_distinct : (s.completions.map Completion.attemptId).Nodup

theorem GrantedRow.evolves {g : Grant} {a a' : AttemptRow} (h : GrantedRow g a)
    (he : AttemptEvolves a a') : GrantedRow g a' := by
  obtain ⟨hid, hrun, hworker, hrank⟩ := h
  refine ⟨he.id.trans hid, he.run.trans hrun, ?_, hrank.trans he.progress⟩
  rw [he.worker hrank]
  exact hworker

/-- A command grants nothing, or it is a claim of a queued Attempt. -/
theorem grantedBy_cases {s : State} (h : Consistent s.store) (c : Command) :
    (grantedBy s c = [] ∧ ∀ request now, c = .claimAttempt request now →
      transact s c = s.store) ∨
    ∃ request now a runId, c = .claimAttempt request now ∧ a ∈ s.store.runAttempts ∧
      grantable request s.store a = true ∧
      grantedBy s c = [⟨request.runId, request.attemptId, request.workerId⟩] ∧
      transact s c = startRun runId now (grantAttempt request now s.store) := by
  by_cases hclaim : ∃ request now, c = .claimAttempt request now
  · obtain ⟨request, now, rfl⟩ := hclaim
    rcases h.claimAttempt_spec request now with ⟨_, hrefused⟩ |
      ⟨r, past, newest, snapshot, hholds, _, hgrant, _, _, hgranted⟩
    · left
      constructor
      · simp [grantedBy, hrefused, notClaimed]
      · intro request' now' hc
        cases hc
        simp [transact, hrefused]
    · right
      have hmem := hholds.attempt_mem (List.mem_append_right past (List.mem_singleton_self newest))
      refine ⟨request, now, newest.attempt, r.id, rfl, hmem, hgrant, ?_, ?_⟩
      · simp [grantedBy, hgranted]
      · simp [transact, hgranted]
  · left
    constructor
    · cases c with
      | claimAttempt request now => exact absurd ⟨request, now, rfl⟩ hclaim
      | _ => rfl
    · intro request now hc
      exact absurd ⟨request, now, hc⟩ hclaim

theorem completedBy_cases {s : State} (h : Consistent s.store) (c : Command) :
    completedBy s c = [] ∨
    ∃ request retryAt now a, c = .completeAttempt request retryAt now ∧
      a ∈ s.store.runAttempts ∧ leased request.attemptId request.workerId now a = true ∧
      completedBy s c = [⟨request.attemptId, request.workerId⟩] ∧
      completedAttempt request now a ∈ (transact s c).runAttempts := by
  cases c with
  | completeAttempt request retryAt now =>
    rcases h.completeAttempt_spec request retryAt now with hfailed | ⟨_, hlate⟩ |
      ⟨r, past, newest, hholds, hleased, _, hdone⟩
    · left
      simp [completedBy, hfailed]
    · left
      simp [completedBy, hlate]
    · right
      have hmem := hholds.attempt_mem (List.mem_append_right past (List.mem_singleton_self newest))
      refine ⟨request, retryAt, now, newest.attempt, rfl, hmem, hleased, ?_, ?_⟩
      · simp [completedBy, hdone]
      · simp only [transact, hdone]
        exact mem_update.mpr ⟨newest.attempt, hmem, by simp [hleased]⟩
  | _ => exact .inl rfl

/-- Every Attempt running after a command was running before or has just been granted. -/
theorem running_origin {s : State} (hs : Consistent s.store) {c : Command} (hc : Enabled s c)
    {a' : AttemptRow} (ha : a' ∈ (transact s c).runAttempts) (hrunning : a'.status = .running) :
    (∃ a ∈ s.store.runAttempts, SameLease a a') ∨ ∃ g ∈ grantedBy s c, GrantOf a' g := by
  rcases grantedBy_cases hs c with ⟨_, hclaim⟩ |
    ⟨request, now, a, runId, rfl, _, _, hgrants, htransact⟩
  · left
    rcases (transact_writes hs.keys hc).attempt_origin ha (by rw [hrunning]; rfl) with
      hpending | hentered | hsame
    · rw [hrunning] at hpending
      cases hpending
    · cases c with
      | claimAttempt request now =>
        rw [hclaim request now rfl] at ha
        exact ⟨a', ha, rfl, rfl, rfl, rfl⟩
      | markPublished =>
        rw [hrunning] at hentered
        cases hentered
      | _ => cases hentered
    · exact hsame
  · rw [htransact] at ha
    rcases update_cases ha with ⟨hmem, _⟩ | ⟨b, _, hgrant, rfl⟩
    · exact .inl ⟨a', hmem, rfl, rfl, rfl, rfl⟩
    · obtain ⟨hid, hrun, _, _⟩ := grantable_iff.mp hgrant
      right
      rw [hgrants]
      exact ⟨_, List.mem_singleton_self _, hid.symm, hrun.symm, rfl⟩

theorem initial_grantLog {s : State} (h : system.initial s) : GrantLog s := by
  obtain ⟨catalog, schedules, _, _, rfl⟩ := h
  constructor
  · intro g hg
    cases hg
  · exact List.nodup_nil
  · intro a ha
    cases ha
  · intro c hc
    cases hc
  · exact List.nodup_nil

theorem GrantLog.fresh {s : State} (hs : Consistent s.store) (h : GrantLog s)
    {request : ClaimRequest} {a : AttemptRow} (ha : a ∈ s.store.runAttempts)
    (hgrant : grantable request s.store a = true) :
    ∀ g ∈ s.grants, g.attemptId ≠ request.attemptId := by
  intro g hg hsame
  obtain ⟨b, hb, hid, _, _, hrank⟩ := h.granted g hg
  obtain ⟨hida, _, hqueued, _⟩ := grantable_iff.mp hgrant
  have hba : b = a := row_unique hs.keys.attempts hb ha (by rw [hid, hsame, hida])
  rw [hba, hqueued] at hrank
  simp [AttemptStatus.rank] at hrank

theorem GrantLog.fresh_completion {s : State} (hs : Consistent s.store) (h : GrantLog s)
    {attemptId : Uuid} {workerId : String} {now : Instant} {a : AttemptRow}
    (ha : a ∈ s.store.runAttempts) (hleased : leased attemptId workerId now a = true) :
    ∀ c ∈ s.completions, c.attemptId ≠ attemptId := by
  intro c hc hsame
  obtain ⟨⟨b, hb, hid, hterminal⟩, _⟩ := h.completed c hc
  obtain ⟨hida, _, hrunning, _⟩ := leased_iff.mp hleased
  have hba : b = a := row_unique hs.keys.attempts hb ha (by rw [hid, hsame, hida])
  rw [hba, hrunning] at hterminal
  cases hterminal

theorem GrantLog.granted_step {s : State} (hs : Consistent s.store) (h : GrantLog s) {c : Command}
    (hc : Enabled s c) :
    ∀ g ∈ s.grants ++ grantedBy s c, ∃ a ∈ (transact s c).runAttempts, GrantedRow g a := by
  intro g hg
  rcases List.mem_append.mp hg with hg | hg
  · obtain ⟨a, ha, hrow⟩ := h.granted g hg
    obtain ⟨a', ha', he⟩ := (transact_writes hs.keys hc).evolves.attempts.of_mem ha
    exact ⟨a', ha', hrow.evolves he⟩
  · rcases grantedBy_cases hs c with ⟨hnone, _⟩ |
      ⟨request, now, a, runId, rfl, ha, hgrant, hgrants, htransact⟩
    · rw [hnone] at hg
      cases hg
    · rw [hgrants, List.mem_singleton] at hg
      obtain ⟨hid, hrun, _, _⟩ := grantable_iff.mp hgrant
      refine ⟨grantedAttempt request now a, ?_, ?_⟩
      · rw [htransact]
        exact mem_update.mpr ⟨a, ha, by simp [hgrant]⟩
      · rw [hg]
        exact ⟨hid, hrun, rfl, le_rfl⟩

theorem GrantLog.distinct_step {s : State} (hs : Consistent s.store) (h : GrantLog s)
    (c : Command) : ((s.grants ++ grantedBy s c).map Grant.attemptId).Nodup := by
  rcases grantedBy_cases hs c with ⟨hnone, _⟩ |
    ⟨request, now, a, runId, rfl, ha, hgrant, hgrants, _⟩
  · rw [hnone, List.append_nil]
    exact h.distinct
  · rw [hgrants]
    exact nodup_append_key h.distinct (h.fresh hs ha hgrant)

theorem GrantLog.running_step {s : State} (hs : Consistent s.store) (h : GrantLog s) {c : Command}
    (hc : Enabled s c) :
    ∀ a ∈ (transact s c).runAttempts, a.status = .running →
      ∃ g ∈ s.grants ++ grantedBy s c, GrantOf a g := by
  intro a' ha' hrunning
  rcases running_origin hs hc ha' hrunning with ⟨a, ha, hid, hrun, hstatus, hworker⟩ | ⟨g, hg, hof⟩
  · obtain ⟨g, hg, hgid, hgrun, hgworker⟩ := h.running a ha (hstatus.trans hrunning)
    exact ⟨g, List.mem_append_left _ hg, hgid.trans hid, hgrun.trans hrun, hgworker.trans hworker⟩
  · exact ⟨g, List.mem_append_right _ hg, hof⟩

theorem GrantLog.completed_step {s : State} (hs : Consistent s.store) (h : GrantLog s)
    {c : Command} (hc : Enabled s c) :
    ∀ d ∈ s.completions ++ completedBy s c, (∃ a ∈ (transact s c).runAttempts,
      a.id = d.attemptId ∧ a.status.isTerminal = true) ∧
      ∃ g ∈ s.grants ++ grantedBy s c, g.attemptId = d.attemptId ∧ g.workerId = d.workerId := by
  intro d hd
  rcases List.mem_append.mp hd with hd | hd
  · obtain ⟨⟨a, ha, hid, hterminal⟩, g, hg, hof⟩ := h.completed d hd
    obtain ⟨a', ha', he⟩ := (transact_writes hs.keys hc).evolves.attempts.of_mem ha
    rw [he.settled hterminal] at ha'
    exact ⟨⟨a, ha', hid, hterminal⟩, g, List.mem_append_left _ hg, hof⟩
  · rcases completedBy_cases hs c with hnone |
      ⟨request, retryAt, now, a, rfl, ha, hleased, hcompleted, hmem⟩
    · rw [hnone] at hd
      cases hd
    · rw [hcompleted, List.mem_singleton] at hd
      obtain ⟨hid, hworker, hrunning, _⟩ := leased_iff.mp hleased
      obtain ⟨g, hg, hgid, _, hgworker⟩ := h.running a ha hrunning
      rw [hworker, Option.some.injEq] at hgworker
      subst hd
      exact ⟨⟨_, hmem, hid, attemptStatus_terminal request⟩, g, List.mem_append_left _ hg,
        hgid.trans hid, hgworker⟩

theorem GrantLog.completed_distinct_step {s : State} (hs : Consistent s.store) (h : GrantLog s)
    (c : Command) : ((s.completions ++ completedBy s c).map Completion.attemptId).Nodup := by
  rcases completedBy_cases hs c with hnone |
    ⟨request, retryAt, now, a, rfl, ha, hleased, hcompleted, _⟩
  · rw [hnone, List.append_nil]
    exact h.completed_distinct
  · rw [hcompleted]
    exact nodup_append_key h.completed_distinct (h.fresh_completion hs ha hleased)

theorem step_grantLog {s t : State} {c : Command} (hs : Consistent s.store) (h : GrantLog s)
    (hstep : Step s c t) : GrantLog t := by
  obtain ⟨hc, rfl⟩ := hstep
  exact ⟨h.granted_step hs hc, h.distinct_step hs c, h.running_step hs hc, h.completed_step hs hc,
    h.completed_distinct_step hs c⟩

theorem reachable_grantLog {s : State} (h : Reachable s) : GrantLog s :=
  h.invariant_of (Q := fun s => Consistent s.store)
    (fun _ hs => (reachable_invariant hs).consistent)
    (fun _ => initial_grantLog) fun _ _ _ hs hlog hstep => step_grantLog hs hlog hstep

def grantsOf (s : State) (runId : Uuid) : List Grant := s.grants.filter fun g => g.runId = runId

theorem GrantLog.grantsOf_length {s : State} (h : GrantLog s) (runId : Uuid) :
    (grantsOf s runId).length ≤ (attemptsOf s.store runId).length := by
  have hnodup : ((grantsOf s runId).map Grant.attemptId).Nodup :=
    h.distinct.sublist (List.filter_sublist.map _)
  have hsub : (grantsOf s runId).map Grant.attemptId ⊆
      (attemptsOf s.store runId).map AttemptRow.id := by
    intro x hx
    obtain ⟨g, hg, rfl⟩ := List.mem_map.mp hx
    rw [grantsOf, List.mem_filter, decide_eq_true_eq] at hg
    obtain ⟨a, ha, hid, hrun, _⟩ := h.granted g hg.1
    exact List.mem_map.mpr ⟨a, mem_attemptsOf.mpr ⟨ha, hrun.trans hg.2⟩, hid⟩
  have hlength := (List.subperm_of_subset hnodup hsub).length_le
  simpa using hlength

theorem Consistent.attemptsOf_length {s : Store} (h : Consistent s) {r : RunRow} (hr : r ∈ s.runs) :
    (attemptsOf s r.id).length ≤ r.maxAttempts ∧
      (r.executionSnapshot.idempotent = false → (attemptsOf s r.id).length ≤ 1) := by
  rcases h.run_cases hr with ⟨hattempts, _⟩ | ⟨past, newest, hholds⟩
  · simp [hattempts]
  · have hcount : (attemptsOf s r.id).length = r.attemptCount := by
      have hnumbers := congrArg List.length hholds.live.numbered
      rw [hholds.attempts]
      simpa using hnumbers
    rw [hcount]
    refine ⟨hholds.live.bounded, ?_⟩
    intro hidempotent
    by_contra hmany
    have hrepeated := hholds.live.repeated (Nat.lt_of_not_le hmany)
    rw [hidempotent] at hrepeated
    cases hrepeated

theorem Consistent.running_unique {s : Store} (h : Consistent s) {a b : AttemptRow}
    (ha : a ∈ s.runAttempts) (hb : b ∈ s.runAttempts) (hrun : a.runId = b.runId)
    (harunning : a.status = .running) (hbrunning : b.status = .running) : a = b := by
  obtain ⟨r, past, newest, hholds, rfl, hid, _⟩ := h.of_running ha harunning
  have hmem : b ∈ attemptsOf s r.id := mem_attemptsOf.mpr ⟨hb, by rw [← hrun, hid]⟩
  rw [hholds.attempts] at hmem
  obtain ⟨d, hd, rfl⟩ := List.mem_map.mp hmem
  rw [hholds.live.newest_of_open hd (by rw [hbrunning]; rfl)]

theorem completeAttempt_late {s : Store} {request : CompletionRequest} {retryAt now : Instant}
    (h : ∀ a ∈ s.runAttempts, leased request.attemptId request.workerId now a = false) :
    (completeAttempt request retryAt now s).1 ≠ .ok true ∧
      (completeAttempt request retryAt now s).2 = s := by
  have hfind : s.runAttempts.find? (leased request.attemptId request.workerId now) = none := by
    rw [List.find?_eq_none]
    intro a ha hleased
    rw [h a ha] at hleased
    cases hleased
  unfold completeAttempt
  rw [hfind]
  split
  · exact ⟨nofun, rfl⟩
  · exact ⟨nofun, rfl⟩

/-- In every reachable state no Attempt has been granted or completed twice, a Run has at most
one running Attempt and no more grants than Attempts allowed, and a completion is accepted
only from the worker the Attempt was granted to, under an unexpired lease. -/
theorem at_most_one_execution_grant {s : State} (h : Reachable s) :
    (s.grants.map Grant.attemptId).Nodup ∧
    (∀ a ∈ s.store.runAttempts, ∀ b ∈ s.store.runAttempts, a.runId = b.runId →
      a.status = .running → b.status = .running → a = b) ∧
    (∀ r ∈ s.store.runs, (grantsOf s r.id).length ≤ r.maxAttempts ∧
      (r.executionSnapshot.idempotent = false → (grantsOf s r.id).length ≤ 1)) ∧
    (s.completions.map Completion.attemptId).Nodup ∧
    (∀ c ∈ s.completions, ∃ g ∈ s.grants, g.attemptId = c.attemptId ∧ g.workerId = c.workerId) ∧
    (∀ request retryAt now, (completeAttempt request retryAt now s.store).1 = .ok true →
      (∃ a ∈ s.store.runAttempts, a.id = request.attemptId ∧ a.status = .running ∧
        ∃ expires, a.leaseExpiresAt = some expires ∧ now < expires) ∧
      ∃ g ∈ s.grants, g.attemptId = request.attemptId ∧ g.workerId = request.workerId) ∧
    ∀ request retryAt now,
      (∀ a ∈ s.store.runAttempts, a.id = request.attemptId →
        ∀ expires, a.leaseExpiresAt = some expires → expires ≤ now) →
      (completeAttempt request retryAt now s.store).1 ≠ .ok true ∧
        (completeAttempt request retryAt now s.store).2 = s.store := by
  have hs := (reachable_invariant h).consistent
  have hlog := reachable_grantLog h
  refine ⟨hlog.distinct, ?_, ?_, hlog.completed_distinct, ?_, ?_, ?_⟩
  · intro a ha b hb
    exact Consistent.running_unique hs ha hb
  · intro r hr
    have hgrants := hlog.grantsOf_length r.id
    obtain ⟨hbound, honce⟩ := Consistent.attemptsOf_length hs hr
    exact ⟨hgrants.trans hbound, fun hidempotent => hgrants.trans (honce hidempotent)⟩
  · intro c hc
    exact (hlog.completed c hc).2
  · intro request retryAt now hdone
    rcases hs.completeAttempt_spec request retryAt now with hfailed | ⟨_, hlate⟩ |
      ⟨r, past, newest, hholds, hleased, _, _⟩
    · rw [hfailed] at hdone
      cases hdone
    · rw [hlate] at hdone
      cases hdone
    · have hmem := hholds.attempt_mem (List.mem_append_right past (List.mem_singleton_self newest))
      obtain ⟨hid, hworker, hrunning, hexpires⟩ := leased_iff.mp hleased
      obtain ⟨g, hg, hgid, _, hgworker⟩ := hlog.running newest.attempt hmem hrunning
      rw [hworker, Option.some.injEq] at hgworker
      exact ⟨⟨newest.attempt, hmem, hid, hrunning, hexpires⟩, g, hg, hgid.trans hid, hgworker⟩
  · intro request retryAt now hexpired
    apply completeAttempt_late
    intro a ha
    by_contra hleased
    rw [Bool.not_eq_false] at hleased
    obtain ⟨hid, _, _, expires, hexpires, hlt⟩ := leased_iff.mp hleased
    have hle := hexpired a ha hid expires hexpires
    exact absurd hlt (not_lt.mpr hle)

theorem at_most_one_execution_grant_demo :
    (system.run demoInitial demoClaimed).grants = [⟨6, 7, "worker"⟩] ∧
      ((system.run demoInitial demoClaimed).grants.map Grant.attemptId).Nodup :=
  ⟨by decide, (at_most_one_execution_grant (demo_reachable demoClaimed_admitted)).1⟩

end ExecutionGrants
