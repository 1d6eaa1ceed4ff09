import Crono.WorkflowNodes

/-! The two phases of a node. Until its activation it has no Run and is pending, skipped or
cancelled; from then on it has exactly its pinned Runs, and is running or has the state its
terminal children give it. Both phases survive whatever the execution plane commits. -/
namespace WorkflowPhases

open RunDomain WorkflowDomain SqlTable ControlPlaneSchema RunStore WorkflowStore
open ControlPlane StoreWrites RequestTable WorkflowNodes
open StoredValues (rereadColumn)

/-- A Run made from a pinned execution of a node, its snapshot read in some format. -/
structure Pinned (n : WorkflowNodeRunRow) (e : WorkflowNodeExecutionRow) (r : RunRow) : Prop where
  id : r.id = e.prospectiveRunId
  request : r.requestId = some n.id
  job : r.jobId = n.jobId
  target : r.targetId = e.targetId
  queue : r.queueId = e.queueId
  attempts : r.maxAttempts = e.maxAttempts
  snapshot : ∃ F, r.executionSnapshot = rereadColumn F e.executionSnapshot

def CancellationRequested (s : Store) (workflowRunId : Uuid) : Prop :=
  ∃ w ∈ s.workflowRuns, w.id = workflowRunId ∧ w.cancellationRequested = true

structure Unlaunched (s : Store) (n : WorkflowNodeRunRow) : Prop where
  unstarted : n.startedAt = none
  executions : ∀ e ∈ s.workflowNodeExecutions, e.nodeRunId = n.id → e.runId = none
  runs : ∀ r ∈ s.runs, r.requestId ≠ some n.id
  state : n.state = .pending ∨ n.state = .skipped ∧ Skips s n.id ∨
    n.state = .cancelled ∧ CancellationRequested s n.workflowRunId

/-- The state of a launched node: running, or what its terminal children say. -/
def Aggregated (s : Store) (nodeId : Uuid) (state : WorkflowNodeState) : Prop :=
  state = .running ∨ (∀ r, Child s nodeId r → r.status.isTerminal = true) ∧
    state = completionState (childStatuses s nodeId)

structure Launched (s : Store) (n : WorkflowNodeRunRow) : Prop where
  started : n.startedAt ≠ none
  ready : Ready s n.id
  executions : ∀ e ∈ s.workflowNodeExecutions, e.nodeRunId = n.id →
    e.runId = some e.prospectiveRunId ∧ ∃ r ∈ s.runs, Pinned n e r
  runs : ∀ r ∈ s.runs, r.requestId = some n.id →
    ∃ e ∈ s.workflowNodeExecutions, e.nodeRunId = n.id ∧ Pinned n e r
  state : Aggregated s n.id n.state

/-- A completion event names a terminal Run, its node and its invocation. -/
structure EventOf (s : Store) (ev : CompletionEventRow) : Prop where
  execution : ∃ e ∈ s.workflowNodeExecutions, e.runId = some ev.runId ∧ e.nodeRunId = ev.nodeRunId
  node : ∃ n ∈ s.workflowNodeRuns, n.id = ev.nodeRunId ∧ n.workflowRunId = ev.workflowRunId
  run : ∃ r ∈ s.runs, r.id = ev.runId ∧ r.status.isTerminal = true

structure Phased (s : Store) : Prop where
  keys : KeysUnique s
  charted : Charted s
  phase : ∀ n ∈ s.workflowNodeRuns, Unlaunched s n ∨ Launched s n
  events : ∀ ev ∈ s.workflowCompletionEvents, EventOf s ev

theorem Unlaunched.of_pending {s : Store} (h : Phased s) {n : WorkflowNodeRunRow}
    (hn : n ∈ s.workflowNodeRuns) (hpending : n.state = .pending) : Unlaunched s n := by
  rcases h.phase n hn with hu | hl
  · exact hu
  · rcases hl.state with hstate | ⟨_, hstate⟩
    · rw [hpending] at hstate
      cases hstate
    · have hterminal := (completionState_terminal (childStatuses s n.id)).1
      rw [← hstate, hpending] at hterminal
      cases hterminal

theorem Launched.of_running {s : Store} (h : Phased s) {n : WorkflowNodeRunRow}
    (hn : n ∈ s.workflowNodeRuns) (hrunning : n.state = .running) : Launched s n := by
  rcases h.phase n hn with hu | hl
  · rcases hu.state with hstate | ⟨hstate, _⟩ | ⟨hstate, _⟩ <;> rw [hrunning] at hstate <;>
      cases hstate
  · exact hl

theorem Phased.not_ready {s : Store} (h : Phased s) {n : WorkflowNodeRunRow}
    (hn : n ∈ s.workflowNodeRuns) : n.state ≠ .ready := by
  intro hready
  rcases h.phase n hn with hu | hl
  · rcases hu.state with hstate | ⟨hstate, _⟩ | ⟨hstate, _⟩ <;> rw [hready] at hstate <;>
      cases hstate
  · rcases hl.state with hstate | ⟨_, hstate⟩
    · rw [hready] at hstate
      cases hstate
    · have hterminal := (completionState_terminal (childStatuses s n.id)).1
      rw [← hstate, hready] at hterminal
      cases hterminal

theorem Phased.prospective {s : Store} (h : Phased s) {e : WorkflowNodeExecutionRow}
    (he : e ∈ s.workflowNodeExecutions) {x : Uuid} (hx : e.runId = some x) :
    e.prospectiveRunId = x := by
  obtain ⟨n, hn, hid⟩ := h.charted.pinned e he
  rcases h.phase n hn with hu | hl
  · rw [hu.executions e he hid.symm] at hx
    cases hx
  · rw [(hl.executions e he hid.symm).1] at hx
    exact Option.some.inj hx

theorem Phased.execution_unique {s : Store} (h : Phased s) {e e' : WorkflowNodeExecutionRow}
    (he : e ∈ s.workflowNodeExecutions) (he' : e' ∈ s.workflowNodeExecutions) {x : Uuid}
    (hx : e.runId = some x) (hx' : e'.runId = some x) : e = e' :=
  row_unique h.keys.prospective he he' ((h.prospective he hx).trans (h.prospective he' hx').symm)

theorem Phased.event_node {s : Store} (h : Phased s) {ev : CompletionEventRow}
    (hev : ev ∈ s.workflowCompletionEvents) {nodeId : Uuid} {r : RunRow}
    (hchild : Child s nodeId r) (hrun : ev.runId = r.id) : ev.nodeRunId = nodeId := by
  obtain ⟨e, he, hx, hnode⟩ := (h.events ev hev).execution
  obtain ⟨_, e', he', hnode', hx'⟩ := hchild
  rw [hrun] at hx
  rw [← hnode, h.execution_unique he he' hx hx', hnode']

theorem Arrives.kept {s t : Store} (hk : Kept s t) {nodeId : Uuid} {c : DependencyCondition}
    {x : WorkflowNodeState} (h : Arrives s nodeId c x) (hx : x.isTerminal = true) :
    Arrives t nodeId c x := by
  obtain ⟨e, he, hto, hcondition, n, hn, hid, rfl⟩ := h
  obtain ⟨e', he', rfl⟩ := hk.evolves.edges.of_mem he
  obtain ⟨n', hn', hmoved⟩ := hk.evolves.nodeRuns.of_mem hn
  rw [hmoved.settled hx] at hn'
  exact ⟨e, he', hto, hcondition, n, hn', hid, rfl⟩

theorem Arrives.origin {s t : Store} (hc : Charted s) (hk : Kept s t) {n : WorkflowNodeRunRow}
    (hn : n ∈ s.workflowNodeRuns) {c : DependencyCondition} {x : WorkflowNodeState}
    (h : Arrives t n.id c x) :
    ∃ x₀, Arrives s n.id c x₀ ∧ (x₀.isTerminal = true → x = x₀) := by
  obtain ⟨e, he, hto, hcondition, m', hm', hid, rfl⟩ := h
  rcases hk.edges e he with he | hfresh
  · obtain ⟨⟨m, hm, hmid, _⟩, _⟩ := hc.edge_ends he
    have hmoved := hk.node hm hm' (hid.trans hmid.symm)
    refine ⟨m.state, ⟨e, he, hto, hcondition, m, hm, hmid, rfl⟩, ?_⟩
    intro hterminal
    rw [hmoved.settled hterminal]
  · exact absurd hto.symm (hfresh n hn)

theorem Ready.kept {s t : Store} (hc : Charted s) (hk : Kept s t) {n : WorkflowNodeRunRow}
    (hn : n ∈ s.workflowNodeRuns) (h : Ready s n.id) : Ready t n.id := by
  intro c x harrives
  obtain ⟨x₀, h₀, hsame⟩ := Arrives.origin hc hk hn harrives
  obtain ⟨hterminal, hmatches⟩ := h c x₀ h₀
  rw [hsame hterminal]
  exact ⟨hterminal, hmatches⟩

theorem Skips.kept {s t : Store} (hk : Kept s t) {nodeId : Uuid} (h : Skips s nodeId) :
    Skips t nodeId := by
  obtain ⟨c, x, harrives, hterminal, hmismatch⟩ := h
  exact ⟨c, x, Arrives.kept hk harrives hterminal, hterminal, hmismatch⟩

theorem CancellationRequested.kept {s t : Store} (hk : Kept s t) {workflowRunId : Uuid}
    (h : CancellationRequested s workflowRunId) : CancellationRequested t workflowRunId := by
  obtain ⟨w, hw, hid, hcancelled⟩ := h
  obtain ⟨w', hw', hmoved⟩ := hk.evolves.workflowRuns.of_mem hw
  exact ⟨w', hw', by rw [hmoved.columns]; exact hid, hmoved.cancelled hcancelled⟩

theorem Pinned.kept {n n' : WorkflowNodeRunRow} {e : WorkflowNodeExecutionRow} {r r' : RunRow}
    (h : Pinned n e r) (hn : NodeRunEvolves n n') (hr : RunEvolves r r') : Pinned n' e r' := by
  rw [hn.columns, hr.columns]
  exact ⟨h.id, h.request, h.job, h.target, h.queue, h.attempts, h.snapshot⟩

theorem Launched.execution_kept {s t : Store} {n : WorkflowNodeRunRow} (h : Launched s n)
    (hn : n ∈ s.workflowNodeRuns) (hk : Kept s t) {e : WorkflowNodeExecutionRow} :
    (e ∈ t.workflowNodeExecutions ∧ e.nodeRunId = n.id) ↔
      e ∈ s.workflowNodeExecutions ∧ e.nodeRunId = n.id := by
  constructor
  · rintro ⟨he, hnode⟩
    rcases hk.executions e he with ⟨e₀, he₀, hmoved⟩ | hfresh
    · have hnode₀ : e₀.nodeRunId = n.id := by
        rw [hmoved.columns] at hnode
        exact hnode
      have hsome : e₀.runId.isSome = true := by
        rw [(h.executions e₀ he₀ hnode₀).1]
        rfl
      rw [hmoved.settled hsome]
      exact ⟨he₀, hnode₀⟩
    · exact absurd hnode.symm (hfresh n hn)
  · rintro ⟨he, hnode⟩
    obtain ⟨e', he', hmoved⟩ := hk.evolves.executions.of_mem he
    have hsome : e.runId.isSome = true := by
      rw [(h.executions e he hnode).1]
      rfl
    rw [hmoved.settled hsome] at he'
    exact ⟨he', hnode⟩

theorem Launched.child_kept {s t : Store} {n : WorkflowNodeRunRow} (h : Launched s n)
    (hn : n ∈ s.workflowNodeRuns) (hk : Kept s t) {r' : RunRow} :
    Child t n.id r' ↔ r' ∈ t.runs ∧ ∃ r, Child s n.id r ∧ RunEvolves r r' := by
  constructor
  · rintro ⟨hr', e, he, hnode, hrun⟩
    obtain ⟨he, hnode⟩ := (h.execution_kept hn hk).mp ⟨he, hnode⟩
    obtain ⟨hlaunched, r, hr, hpinned⟩ := h.executions e he hnode
    have hid : r'.id = r.id := by
      rw [hlaunched] at hrun
      rw [hpinned.id, Option.some.inj hrun]
    obtain ⟨r₁, hr₁, hmoved⟩ := hk.evolves.runs.of_mem hr
    have hsame : r₁ = r' := row_unique hk.keys.runs hr₁ hr' (by rw [hmoved.columns]; exact hid.symm)
    subst hsame
    exact ⟨hr', r, ⟨hr, e, he, hnode, hid ▸ hrun⟩, hmoved⟩
  · rintro ⟨hr', r, ⟨_, e, he, hnode, hrun⟩, hmoved⟩
    obtain ⟨he, hnode⟩ := (h.execution_kept hn hk).mpr ⟨he, hnode⟩
    refine ⟨hr', e, he, hnode, ?_⟩
    rw [hmoved.columns]
    exact hrun

theorem Launched.settled_kept {s t : Store} {n : WorkflowNodeRunRow} (h : Launched s n)
    (hn : n ∈ s.workflowNodeRuns) (hk : Kept s t)
    (hterminal : ∀ r, Child s n.id r → r.status.isTerminal = true) :
    (∀ r, Child t n.id r → r.status.isTerminal = true) ∧
      ∀ x, x ∈ childStatuses t n.id ↔ x ∈ childStatuses s n.id := by
  have hchild (r : RunRow) : Child t n.id r ↔ Child s n.id r := by
    rw [h.child_kept hn hk]
    constructor
    · rintro ⟨_, r₀, hr₀, hmoved⟩
      rw [hmoved.settled (hterminal r₀ hr₀)]
      exact hr₀
    · intro hr
      obtain ⟨r', hr', hmoved⟩ := hk.evolves.runs.of_mem hr.1
      have hsame := hmoved.settled (hterminal r hr)
      exact ⟨hsame ▸ hr', r, hr, .refl r⟩
  refine ⟨fun r hr => hterminal r ((hchild r).mp hr), ?_⟩
  intro x
  simp only [mem_childStatuses, hchild]

theorem Aggregated.kept {s t : Store} {n : WorkflowNodeRunRow} (h : Launched s n)
    (hn : n ∈ s.workflowNodeRuns) (hk : Kept s t) : Aggregated t n.id n.state := by
  rcases h.state with hrunning | ⟨hterminal, hstate⟩
  · exact .inl hrunning
  · obtain ⟨hterminal', hsame⟩ := h.settled_kept hn hk hterminal
    exact .inr ⟨hterminal', hstate.trans (completionState_congr fun x => (hsame x).symm)⟩

/-- A launched node stays launched when no Run is added under its id. -/
theorem Launched.kept {s t : Store} {n n' : WorkflowNodeRunRow} (h : Launched s n)
    (hc : Charted s) (hk : Kept s t) (hn : n ∈ s.workflowNodeRuns) (hmoved : NodeRunEvolves n n')
    (hruns : ∀ r ∈ t.runs, r.requestId = some n.id → ∃ r₀ ∈ s.runs, RunEvolves r₀ r)
    (hstate : Aggregated t n.id n'.state) : Launched t n' := by
  have hid : n'.id = n.id := by rw [hmoved.columns]
  have hrank : 0 < WorkflowNodeState.rank n.state := by
    rcases h.state with hstate | ⟨_, hstate⟩
    · rw [hstate]
      decide
    · rw [hstate, (completionState_terminal _).2]
      decide
  refine ⟨?_, ?_, ?_, ?_, hid ▸ hstate⟩
  · rw [hmoved.started hrank]
    exact h.started
  · rw [hid]
    exact Ready.kept hc hk hn h.ready
  · intro e he hnode
    obtain ⟨he, hnode⟩ := (h.execution_kept hn hk).mp ⟨he, hid ▸ hnode⟩
    obtain ⟨hlaunched, r, hr, hpinned⟩ := h.executions e he hnode
    obtain ⟨r', hr', hrmoved⟩ := hk.evolves.runs.of_mem hr
    exact ⟨hlaunched, r', hr', hpinned.kept hmoved hrmoved⟩
  · intro r hr hrequest
    rw [hid] at hrequest
    obtain ⟨r₀, hr₀, hrmoved⟩ := hruns r hr hrequest
    have hrequest₀ : r₀.requestId = some n.id := by
      rw [hrmoved.columns] at hrequest
      exact hrequest
    obtain ⟨e, he, hnode, hpinned⟩ := h.runs r₀ hr₀ hrequest₀
    obtain ⟨he, hnode⟩ := (h.execution_kept hn hk).mpr ⟨he, hnode⟩
    exact ⟨e, he, hnode.trans hid.symm, hpinned.kept hmoved hrmoved⟩

/-- An unlaunched node stays unlaunched when neither a Run nor a launch is added under it. -/
theorem Unlaunched.kept {s t : Store} {n n' : WorkflowNodeRunRow} (h : Unlaunched s n)
    (hmoved : NodeRunEvolves n n') (hstarted : n'.startedAt = n.startedAt)
    (hexecutions : ∀ e ∈ t.workflowNodeExecutions, e.nodeRunId = n.id →
      e ∈ s.workflowNodeExecutions)
    (hruns : ∀ r ∈ t.runs, r.requestId = some n.id → ∃ r₀ ∈ s.runs, RunEvolves r₀ r)
    (hstate : n'.state = .pending ∨ n'.state = .skipped ∧ Skips t n.id ∨
      n'.state = .cancelled ∧ CancellationRequested t n.workflowRunId) : Unlaunched t n' := by
  have hid : n'.id = n.id := by rw [hmoved.columns]
  have hown : n'.workflowRunId = n.workflowRunId := by rw [hmoved.columns]
  refine ⟨hstarted.trans h.unstarted, ?_, ?_, ?_⟩
  · intro e he hnode
    rw [hid] at hnode
    exact h.executions e (hexecutions e he hnode) hnode
  · intro r hr hrequest
    rw [hid] at hrequest
    obtain ⟨r₀, hr₀, hrmoved⟩ := hruns r hr hrequest
    rw [hrmoved.columns] at hrequest
    exact h.runs r₀ hr₀ hrequest
  · rw [hid, hown]
    exact hstate

theorem Unlaunched.state_kept {s t : Store} (hk : Kept s t) {n : WorkflowNodeRunRow}
    (h : Unlaunched s n) : n.state = .pending ∨ n.state = .skipped ∧ Skips t n.id ∨
      n.state = .cancelled ∧ CancellationRequested t n.workflowRunId :=
  h.state.imp id (.imp (.imp id (Skips.kept hk)) (.imp id (CancellationRequested.kept hk)))

theorem Phased.unmoved {s t : Store} (hp : Phased s) (hk : Kept s t) {n : WorkflowNodeRunRow}
    (hn : n ∈ s.workflowNodeRuns)
    (hexecutions : ∀ e ∈ t.workflowNodeExecutions, e.nodeRunId = n.id →
      e ∈ s.workflowNodeExecutions)
    (hruns : ∀ r ∈ t.runs, r.requestId = some n.id → ∃ r₀ ∈ s.runs, RunEvolves r₀ r) :
    Unlaunched t n ∨ Launched t n := by
  rcases hp.phase n hn with hu | hl
  · exact .inl (hu.kept (.refl n) rfl hexecutions hruns (hu.state_kept hk))
  · exact .inr (hl.kept hp.charted hk hn (.refl n) hruns (Aggregated.kept hl hn hk))

theorem EventOf.kept {s t : Store} (hk : Kept s t) {ev : CompletionEventRow} (h : EventOf s ev) :
    EventOf t ev := by
  obtain ⟨e, he, hx, hnode⟩ := h.execution
  obtain ⟨n, hn, hid, hown⟩ := h.node
  obtain ⟨r, hr, hrun, hterminal⟩ := h.run
  obtain ⟨e', he', hemoved⟩ := hk.evolves.executions.of_mem he
  obtain ⟨n', hn', hnmoved⟩ := hk.evolves.nodeRuns.of_mem hn
  obtain ⟨r', hr', hrmoved⟩ := hk.evolves.runs.of_mem hr
  have hsome : e.runId.isSome = true := by
    rw [hx]
    rfl
  rw [hemoved.settled hsome] at he'
  rw [hrmoved.settled hterminal] at hr'
  refine ⟨⟨e, he', hx, hnode⟩, ⟨n', hn', ?_, ?_⟩, r, hr', hrun, hterminal⟩
  · rw [hnmoved.columns]
    exact hid
  · rw [hnmoved.columns]
    exact hown

end WorkflowPhases
