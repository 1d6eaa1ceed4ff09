import Crono.ExecutionGrants

/-! Terminal Runs. Once a Run has ended, neither its row nor any of its Attempts changes
again, whatever commands commit; and a Run whose dispatch deadline expired has never been
granted, even when its message is still in flight. -/
namespace TerminalRuns

open RunDomain WorkflowDomain SqlTable ControlPlaneSchema RunStore WorkflowStore
open ControlPlane StoreWrites RunLifecycle RunCoupling ExecutionGrants

theorem runsOf_eq {s : Store} (h : Consistent s) {r : RunRow} (hr : r ∈ s.runs) :
    runsOf s r.id = [r] := by
  have hmem : r ∈ runsOf s r.id := mem_runsOf.mpr ⟨hr, rfl⟩
  have hcell := h.cells r.id
  generalize runsOf s r.id = runs at hmem hcell
  generalize attemptsOf s r.id = attempts at hcell
  generalize outboxOf s r.id = outbox at hcell
  cases hcell with
  | absent => cases hmem
  | inert => rw [List.mem_singleton.mp hmem]
  | live => rw [List.mem_singleton.mp hmem]

theorem run_kept {s t : State} (hs : Reachable s) (h : Execution s t) {r : RunRow}
    (hr : r ∈ s.store.runs) : ∃ r', runsOf t.store r.id = [r'] ∧ RunEvolves r r' := by
  obtain ⟨r', hr', hevolves⟩ := (execution_evolves hs h).runs.of_mem hr
  have hid : r'.id = r.id := by rw [hevolves.columns]
  have hcell := runsOf_eq (reachable_invariant (hs.execution h)).consistent hr'
  rw [hid] at hcell
  exact ⟨r', hcell, hevolves⟩

theorem attempts_terminal {s : Store} (h : Consistent s) {r : RunRow} (hr : r ∈ s.runs)
    (hterminal : r.status.isTerminal = true) :
    ∀ a ∈ attemptsOf s r.id, a.status.isTerminal = true := by
  intro a ha
  by_contra hopen
  rw [Bool.not_eq_true] at hopen
  rcases h.run_cases hr with ⟨hnone, _⟩ | ⟨past, newest, hholds⟩
  · rw [hnone] at ha
    cases ha
  · rw [hholds.attempts] at ha
    obtain ⟨d, hd, rfl⟩ := List.mem_map.mp ha
    have hnewest := hholds.live.newest_of_open hd hopen
    subst hnewest
    have hagrees := hholds.live.agrees
    unfold Agrees at hagrees
    split at hagrees <;> simp_all

theorem attemptsOf_length_eq {s : Store} (h : Consistent s) {r : RunRow} (hr : r ∈ s.runs) :
    (attemptsOf s r.id).length = r.attemptCount := by
  have hnumbers := congrArg List.length ((Consistent.coupled h).numbered r hr)
  simpa using hnumbers

theorem terminal_attempts_kept {s t : State} (hs : Reachable s) (h : Execution s t) {r : RunRow}
    (hr : r ∈ s.store.runs) (hkept : r ∈ t.store.runs) (hterminal : r.status.isTerminal = true) :
    attemptsOf t.store r.id = attemptsOf s.store r.id := by
  have hbefore := (reachable_invariant hs).consistent
  have hafter := (reachable_invariant (hs.execution h)).consistent
  have hevolves : Evolves AttemptEvolves (attemptsOf s.store r.id) (attemptsOf t.store r.id) :=
    (execution_evolves hs h).attempts.filter fun a a' he => by rw [he.run]
  apply hevolves.eq_of_length
  · rw [attemptsOf_length_eq hafter hkept, attemptsOf_length_eq hbefore hr]
  · intro a ha a' he
    exact he.settled (attempts_terminal hbefore hr hterminal a ha)

theorem expired_unclaimed {s : Store} (h : Consistent s) {r : RunRow} (hr : r ∈ s.runs)
    (hskipped : r.status = .skipped) (hreason : r.terminalReason = some misfireDeadlineExpired) :
    ∀ a ∈ attemptsOf s r.id, a.workerId = none := by
  intro a ha
  rcases h.run_cases hr with ⟨hnone, _⟩ | ⟨past, newest, hholds⟩
  · rw [hnone] at ha
    cases ha
  · have hagrees := hholds.live.agrees
    simp only [Agrees, hskipped] at hagrees
    obtain ⟨hdead, honce⟩ := hagrees.2 hreason
    have hpast : past = [] := by
      have hnumbers := congrArg List.length hholds.live.numbered
      rw [honce] at hnumbers
      simpa using hnumbers
    rw [hholds.attempts, hpast, List.nil_append, List.map_singleton, List.mem_singleton] at ha
    rw [ha]
    exact hholds.live.newest_linked.unclaimed (.inr hdead)

theorem expired_never_granted {s : State} (hs : Reachable s) {r : RunRow} (hr : r ∈ s.store.runs)
    (hskipped : r.status = .skipped) (hreason : r.terminalReason = some misfireDeadlineExpired) :
    grantsOf s r.id = [] := by
  rw [grantsOf, List.filter_eq_nil_iff]
  intro g hg hrun
  rw [decide_eq_true_eq] at hrun
  obtain ⟨a, ha, _, harun, hworker, _⟩ := (reachable_grantLog hs).granted g hg
  have hnone := expired_unclaimed (reachable_invariant hs).consistent hr hskipped hreason a
    (mem_attemptsOf.mpr ⟨ha, harun.trans hrun⟩)
  rw [hworker] at hnone
  cases hnone

/-- From any reachable state on, every Run keeps its snapshot and queue, a terminal Run keeps
its whole row and gains no Attempt, and a Run skipped because its dispatch deadline expired
is never granted. -/
theorem terminal_runs_immutable {s t : State} (hs : Reachable s) (h : Execution s t) :
    (∀ r ∈ s.store.runs, ∃ r', runsOf t.store r.id = [r'] ∧
      r'.executionSnapshot = r.executionSnapshot ∧ r'.queueId = r.queueId) ∧
    (∀ r ∈ s.store.runs, r.status.isTerminal = true →
      runsOf t.store r.id = [r] ∧ attemptsOf t.store r.id = attemptsOf s.store r.id) ∧
    ∀ r ∈ s.store.runs, r.status = .skipped → r.terminalReason = some misfireDeadlineExpired →
      grantsOf t r.id = [] := by
  have hterminal (r : RunRow) (hr : r ∈ s.store.runs) (hended : r.status.isTerminal = true) :
      runsOf t.store r.id = [r] := by
    obtain ⟨r', hrow, hevolves⟩ := run_kept hs h hr
    rwa [hevolves.settled hended] at hrow
  have hmem (r : RunRow) (hr : r ∈ s.store.runs) (hended : r.status.isTerminal = true) :
      r ∈ t.store.runs := by
    have hrow : r ∈ runsOf t.store r.id := by
      rw [hterminal r hr hended]
      exact List.mem_singleton_self r
    exact (mem_runsOf.mp hrow).1
  refine ⟨?_, ?_, ?_⟩
  · intro r hr
    obtain ⟨r', hrow, hevolves⟩ := run_kept hs h hr
    exact ⟨r', hrow, by rw [hevolves.columns], by rw [hevolves.columns]⟩
  · intro r hr hended
    exact ⟨hterminal r hr hended, terminal_attempts_kept hs h hr (hmem r hr hended) hended⟩
  · intro r hr hskipped hreason
    have hended : r.status.isTerminal = true := by rw [hskipped]; rfl
    exact expired_never_granted (hs.execution h) (hmem r hr hended) hskipped hreason

/-- A claimed schedule, and the occurrence it plans with a dispatch deadline. -/
def demoSchedule : ScheduleRow := ⟨20, 3, 2, some 4, none, .object [], true, some 0, none, 1,
  some 21, some 100⟩

def demoPlan : SchedulePlan := ⟨20, 21, [⟨0, true, 0, none, some 10⟩], none, false⟩

/-- The dispatcher publishes Run 6, its deadline expires before the acknowledgement commits,
and the repair pass skips it. -/
def demoExpired : List Command :=
  [.commitSchedulePlan demoRendering demoPlan ⟨fun _ _ => 6, fun _ _ => ⟨7, 8⟩⟩ 0,
    .claimOutbox 9 100 30 (fun _ => false) 0,
    .reconcile ⟨10, fun _ => false, fun _ => false, fun _ => false, fun _ => ⟨30, 31⟩,
      fun _ => ⟨32, 33⟩, 20, 20, 20, 20⟩]

def demoScheduled : State := ⟨emptyStore demoCatalog [demoSchedule], [], [], [], []⟩

def demoLate : List Command := [.markPublished 9 demoRecord 1 30, .claimAttempt demoClaimRequest 30]

theorem demoExpired_admitted : system.Admits demoScheduled demoExpired :=
  ⟨trivial, trivial, trivial, trivial⟩

theorem demoLate_admitted : system.Admits (system.run demoScheduled demoExpired) demoLate :=
  ⟨List.mem_singleton.mpr rfl, trivial, trivial⟩

theorem terminal_runs_immutable_demo :
    (system.run demoScheduled demoExpired).store.runs.map RunRow.status = [.skipped] ∧
      ∀ r ∈ (system.run demoScheduled demoExpired).store.runs, r.status = .skipped →
        r.terminalReason = some misfireDeadlineExpired →
        grantsOf (system.run (system.run demoScheduled demoExpired) demoLate) r.id = [] :=
  ⟨by decide, (terminal_runs_immutable
    ⟨demoScheduled, ⟨demoCatalog, [demoSchedule], by decide, by decide, rfl⟩,
      .of_admits demoExpired_admitted⟩ (.of_admits demoLate_admitted)).2.2⟩

end TerminalRuns
