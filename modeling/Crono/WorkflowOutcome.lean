import Crono.WorkflowExecutions

/-! The outcome of an invocation as a recursion over its definition, and that every execution in
which nothing is left to do has reached it, in whatever order the children ended and the passes
ran. -/
namespace WorkflowOutcome

open RunDomain WorkflowDomain SqlTable ControlPlaneSchema RunStore WorkflowStore
open ControlPlane StoreWrites WorkflowGraph WorkflowNodes WorkflowPhases WorkflowEvents
open WorkflowMoves WorkflowProgress RankedGraph

def incomingOutcomes (edges : List WorkflowEdge) (name : String)
    (outcome : String → WorkflowNodeState) : List (DependencyCondition × WorkflowNodeState) :=
  (edges.filter fun e => e.target = name).map fun e => (e.condition, outcome e.source)

/-- A node whose incoming edges are all satisfied takes the precedence of its children's
statuses; any other node is skipped. -/
def outcomeRule (definition : WorkflowDefinition) (targets : List Uuid)
    (statuses : String → Uuid → RunStatus) (name : String)
    (outcome : String → WorkflowNodeState) : WorkflowNodeState :=
  if dependencyDecision (incomingOutcomes definition.edges name outcome) = .ready then
    completionState (targets.map (statuses name))
  else .skipped

def IsOutcome (definition : WorkflowDefinition) (targets : List Uuid)
    (statuses : String → Uuid → RunStatus) (outcome : String → WorkflowNodeState) : Prop :=
  ∀ node ∈ definition.nodes,
    outcome node.name = outcomeRule definition targets statuses node.name outcome

/-- A Workflow fails when a node failed, is unknown or was cancelled. -/
def Fails (definition : WorkflowDefinition) (outcome : String → WorkflowNodeState) : Prop :=
  ∃ node ∈ definition.nodes, outcome node.name = .failed ∨ outcome node.name = .unknown ∨
    outcome node.name = .cancelled

section Recursion

variable {definition : WorkflowDefinition} (targets : List Uuid)
  (statuses : String → Uuid → RunStatus)

theorem outcomeRule_local :
    Local (Precedes definition.edges) (outcomeRule definition targets statuses) := by
  intro name f g hsame
  have hincoming : incomingOutcomes definition.edges name f =
      incomingOutcomes definition.edges name g := by
    apply List.map_congr_left
    intro e he
    obtain ⟨he, htarget⟩ := List.mem_filter.mp he
    rw [hsame e.source ⟨e, he, rfl, of_decide_eq_true htarget⟩]
  unfold outcomeRule
  rw [hincoming]

theorem exists_outcome (h : Accepted definition) :
    ∃ outcome, IsOutcome definition targets statuses outcome := by
  have : Inhabited WorkflowNodeState := ⟨.pending⟩
  obtain ⟨outcome, houtcome⟩ := h.ranked.exists_solution (outcomeRule_local targets statuses)
  exact ⟨outcome, fun node _ => houtcome node.name⟩

variable {targets statuses}

theorem IsOutcome.unique (h : Accepted definition) {f g : String → WorkflowNodeState}
    (hf : IsOutcome definition targets statuses f) (hg : IsOutcome definition targets statuses g)
    {node : WorkflowNode} (hnode : node ∈ definition.nodes) : f node.name = g node.name := by
  refine Solves.unique (V := fun name => ∃ node ∈ definition.nodes, node.name = name) h.ranked
    (outcomeRule_local targets statuses) ?_ ?_ ?_ ⟨node, hnode, rfl⟩
  · rintro a b ⟨e, he, rfl, _⟩ _
    exact (h.edges e he).1
  · rintro name ⟨node, hnode, rfl⟩
    exact hf node hnode
  · rintro name ⟨node, hnode, rfl⟩
    exact hg node hnode

end Recursion

theorem dependencyDecision_ready {incoming : List (DependencyCondition × WorkflowNodeState)} :
    dependencyDecision incoming = .ready ↔
      ∀ p ∈ incoming, p.2.isTerminal = true ∧ p.1.matches p.2 = true := by
  have hspec := dependencyDecisionFrom_spec false incoming
  unfold dependencyDecision
  cases hdecision : dependencyDecisionFrom false incoming with
  | ready =>
    rw [hdecision] at hspec
    exact ⟨fun _ => hspec.2, fun _ => rfl⟩
  | waiting =>
    rw [hdecision] at hspec
    refine ⟨nofun, fun hall => ?_⟩
    obtain ⟨p, hp, hopen⟩ := hspec.2.resolve_left Bool.false_ne_true
    rw [(hall p hp).1] at hopen
    cases hopen
  | skipped =>
    rw [hdecision] at hspec
    refine ⟨nofun, fun hall => ?_⟩
    obtain ⟨p, hp, _, hmismatch⟩ := hspec
    rw [(hall p hp).2] at hmismatch
    cases hmismatch

/-- Nothing is left to do for an invocation: its children ended as `statuses` says, and their
events are consumed. -/
structure Quiescent (s : Store) (w : WorkflowRunRow) (statuses : String → Uuid → RunStatus) :
    Prop where
  children : ∀ n ∈ s.workflowNodeRuns, n.workflowRunId = w.id → ∀ r, Child s n.id r →
    r.status = statuses n.name r.targetId ∧ r.status.isTerminal = true
  events : ∀ ev ∈ s.workflowCompletionEvents, ev.workflowRunId ≠ w.id

def reached (s : Store) (workflowRunId : Uuid) (name : String) : WorkflowNodeState :=
  ((s.workflowNodeRuns.find? fun n => n.workflowRunId = workflowRunId && n.name = name).map
    WorkflowNodeRunRow.state).getD .pending

theorem reached_eq {s : Store} {workflowRunId : Uuid} {definition : StoredWorkflow}
    (hk : KeysUnique s) (hm : Mirrors s workflowRunId definition) {n : WorkflowNodeRunRow}
    (hn : n ∈ s.workflowNodeRuns) (hown : n.workflowRunId = workflowRunId) :
    reached s workflowRunId n.name = n.state := by
  have hfind : (s.workflowNodeRuns.find? fun m => m.workflowRunId = workflowRunId &&
      m.name = n.name) = some n := by
    refine find?_row hn fun m hmem => ?_
    rw [Bool.and_eq_true, decide_eq_true_eq, decide_eq_true_eq]
    constructor
    · rintro ⟨hmown, hname⟩
      exact row_unique hk.nodeRuns hmem hn (hm.unique m.id n.id n.name ⟨m, hmem, hmown, rfl, hname⟩
        ⟨n, hn, hown, rfl, rfl⟩)
    · rintro rfl
      exact ⟨hown, rfl⟩
  unfold reached
  rw [hfind]
  rfl

/-- The arrivals at a node are those of the recursion. -/
theorem ready_iff {s : Store} {w : WorkflowRunRow} (hp : Phased s) (hw : w ∈ s.workflowRuns)
    {n : WorkflowNodeRunRow} (hn : n ∈ s.workflowNodeRuns) (hown : n.workflowRunId = w.id) :
    dependencyDecision (incomingOutcomes w.definitionSnapshot.edges n.name (reached s w.id)) =
      .ready ↔ Ready s n.id := by
  have hm := hp.charted.mirrors w hw
  rw [dependencyDecision_ready]
  constructor
  · rintro hall c x ⟨e, he, hto, rfl, m, hmem, hfrom, rfl⟩
    obtain ⟨⟨m', hm', hmid, hmown⟩, n', hn', hnid, hnown⟩ := hp.charted.edge_ends he
    have hedge : e.workflowRunId = w.id := by
      rw [← hnown, row_unique hp.keys.nodeRuns hn' hn (hnid.trans hto), hown]
    obtain ⟨edge, hmemEdge, hfor⟩ := hm.edges e he hedge
    obtain ⟨source, hsource, hsown, hsid, hsname⟩ := hfor.source
    obtain ⟨target, htarget, _, htid, htname⟩ := hfor.target
    rw [row_unique hp.keys.nodeRuns htarget hn (htid.trans hto)] at htname
    rw [hfor.condition, row_unique hp.keys.nodeRuns hmem hsource (hfrom.trans hsid.symm),
      ← reached_eq hp.keys hm hsource hsown, hsname]
    refine hall (edge.condition, _) (List.mem_map.mpr ⟨edge, ?_, rfl⟩)
    exact List.mem_filter.mpr ⟨hmemEdge, decide_eq_true htname.symm⟩
  · intro hready p hp'
    obtain ⟨edge, hedge, rfl⟩ := List.mem_map.mp hp'
    obtain ⟨hedge, htarget⟩ := List.mem_filter.mp hedge
    obtain ⟨e, he, hfor⟩ := hm.edge edge hedge
    obtain ⟨source, hsource, hsown, hsid, hsname⟩ := hfor.source
    have hto := hm.unique _ _ _ hfor.target
      ⟨n, hn, hown, rfl, (of_decide_eq_true htarget).symm⟩
    rw [← hsname]
    simp only
    rw [reached_eq hp.keys hm hsource hsown]
    exact hready edge.condition source.state
      ⟨e, he, hto, hfor.condition, source, hsource, hsid, rfl⟩

theorem Launched.statuses {s : Store} {w : WorkflowRunRow} {targets : List Uuid}
    {statuses : String → Uuid → RunStatus} {n : WorkflowNodeRunRow} (h : Launched s n)
    (hk : KeysUnique s) (hn : n ∈ s.workflowNodeRuns) (hown : n.workflowRunId = w.id)
    (hpins : ∀ x, Pins s n.id x ↔ x ∈ targets) (hq : Quiescent s w statuses) (x : RunStatus) :
    x ∈ childStatuses s n.id ↔ x ∈ targets.map (statuses n.name) := by
  rw [mem_childStatuses, List.mem_map]
  constructor
  · rintro ⟨r, hchild, rfl⟩
    have hstatus := (hq.children n hn hown r hchild).1
    obtain ⟨hr, e, he, hnode, hrun⟩ := hchild
    obtain ⟨hlaunched, r', hr', hpinned⟩ := h.executions e he hnode
    rw [hlaunched] at hrun
    have hsame : r = r' := row_unique hk.runs hr hr' (by rw [hpinned.id, Option.some.inj hrun])
    refine ⟨r.targetId, (hpins r.targetId).mp ⟨e, he, hnode, ?_⟩, hstatus.symm⟩
    rw [hsame, hpinned.target]
  · rintro ⟨target, htarget, rfl⟩
    obtain ⟨e, he, hnode, rfl⟩ := (hpins target).mpr htarget
    obtain ⟨hlaunched, r, hr, hpinned⟩ := h.executions e he hnode
    have hchild : Child s n.id r := ⟨hr, e, he, hnode, by rw [hlaunched, hpinned.id]⟩
    refine ⟨r, hchild, ?_⟩
    rw [(hq.children n hn hown r hchild).1, hpinned.target]

theorem Quiescent.finished {s : Store} (hp : Phased s) (hs : Settled s []) {w : WorkflowRunRow}
    (hw : w ∈ s.workflowRuns) {statuses : String → Uuid → RunStatus}
    (hq : Quiescent s w statuses) : w.state ≠ .running := by
  intro hrunning
  obtain ⟨n, hn, hown, hstate⟩ := Settled.running_node hp hs hw hrunning
  obtain ⟨r, hchild, hlive⟩ := Settled.live_child hp hs hq.events hn hown hstate
  rw [(hq.children n hn hown r hchild).2] at hlive
  cases hlive

/-- The states reached follow the recursion. -/
theorem Quiescent.isOutcome {s : Store} (hp : Phased s) (hs : Settled s []) {w : WorkflowRunRow}
    (hw : w ∈ s.workflowRuns) (hflag : w.cancellationRequested = false) {targets : List Uuid}
    (hpins : ∀ n ∈ s.workflowNodeRuns, n.workflowRunId = w.id →
      ∀ x, Pins s n.id x ↔ x ∈ targets)
    {statuses : String → Uuid → RunStatus} (hq : Quiescent s w statuses) :
    IsOutcome w.definitionSnapshot.definition targets statuses (reached s w.id) := by
  have hm := hp.charted.mirrors w hw
  intro node hnode
  obtain ⟨stored, hstored, rfl⟩ := List.mem_map.mp hnode
  obtain ⟨_, n, hn, hown, _, hname⟩ := hm.nodes stored hstored
  change reached s w.id stored.name =
    outcomeRule w.definitionSnapshot.definition targets statuses stored.name (reached s w.id)
  rw [← hname, reached_eq hp.keys hm hn hown]
  have hclosed : n.state.isTerminal = true := by
    by_contra hopen
    exact hq.finished hp hs hw ((hs.running w hw).mpr
      ⟨n, hn, openNode_iff.mpr ⟨hown, by simpa using hopen⟩⟩)
  unfold outcomeRule
  have hready := ready_iff hp hw hn hown
  change dependencyDecision (incomingOutcomes w.definitionSnapshot.definition.edges n.name
    (reached s w.id)) = .ready ↔ _ at hready
  rcases hp.phase n hn with hu | hl
  · rcases hu.state with hpending | ⟨hskipped, hskips⟩ | ⟨_, v, hv, hid, hrequested⟩
    · rw [hpending] at hclosed
      cases hclosed
    · rw [if_neg, hskipped]
      rw [hready]
      intro hall
      obtain ⟨c, x, harrives, _, hmismatch⟩ := hskips
      rw [(hall c x harrives).2] at hmismatch
      cases hmismatch
    · rw [row_unique hp.keys.workflowRuns hv hw (hid.trans hown), hflag] at hrequested
      cases hrequested
  · rw [if_pos (hready.mpr hl.ready)]
    rcases hl.state with hrunning | ⟨_, hstate⟩
    · rw [hrunning] at hclosed
      cases hclosed
    · rw [hstate]
      exact completionState_congr
        (Launched.statuses hl hp.keys hn hown (hpins n hn hown) hq)

theorem Quiescent.state {s : Store} (hp : Phased s) (hs : Settled s []) {w : WorkflowRunRow}
    (hw : w ∈ s.workflowRuns) (hflag : w.cancellationRequested = false)
    {statuses : String → Uuid → RunStatus} (hq : Quiescent s w statuses) :
    (w.state = .failed ↔ Fails w.definitionSnapshot.definition (reached s w.id)) ∧
      (w.state = .failed ∨ w.state = .succeeded) := by
  have hm := hp.charted.mirrors w hw
  have hbad : (s.workflowNodeRuns.any fun n => n.workflowRunId = w.id &&
      (n.state = .failed || n.state = .unknown || n.state = .cancelled)) = true ↔
      Fails w.definitionSnapshot.definition (reached s w.id) := by
    simp only [List.any_eq_true, Bool.and_eq_true, Bool.or_eq_true, decide_eq_true_eq, or_assoc]
    constructor
    · rintro ⟨n, hn, hown, hstate⟩
      obtain ⟨stored, hstored, hname⟩ := hm.named n.id n.name ⟨n, hn, hown, rfl, rfl⟩
      refine ⟨⟨stored.name, stored.jobId⟩, List.mem_map_of_mem hstored, ?_⟩
      rw [hname, reached_eq hp.keys hm hn hown]
      exact hstate
    · rintro ⟨node, hnode, hstate⟩
      obtain ⟨stored, hstored, rfl⟩ := List.mem_map.mp hnode
      obtain ⟨_, n, hn, hown, _, hname⟩ := hm.nodes stored hstored
      rw [← hname, reached_eq hp.keys hm hn hown] at hstate
      exact ⟨n, hn, hown, hstate⟩
  rw [hs.finished w hw (hq.finished hp hs hw), ← hbad]
  unfold finalState
  rw [hflag]
  cases s.workflowNodeRuns.any fun n => n.workflowRunId = w.id &&
    (n.state = .failed || n.state = .unknown || n.state = .cancelled) <;> simp

/-- Whatever the order of completions, passes and queues was, an invocation that is not
cancelled ends with the one outcome of its definition, its Targets and its children. -/
theorem outcome_schedule_independent {s : ControlPlane.State} (hs : Reachable s)
    {w : WorkflowRunRow} (hw : w ∈ s.store.workflowRuns) (hflag : w.cancellationRequested = false) :
    ∃ targets, targets ≠ [] ∧
      (∀ n ∈ s.store.workflowNodeRuns, n.workflowRunId = w.id →
        ∀ x, Pins s.store n.id x ↔ x ∈ targets) ∧
      ∀ statuses, (∃ outcome, IsOutcome w.definitionSnapshot.definition targets statuses outcome ∧
          ∀ other, IsOutcome w.definitionSnapshot.definition targets statuses other →
            ∀ node ∈ w.definitionSnapshot.definition.nodes, other node.name = outcome node.name) ∧
        (Quiescent s.store w statuses →
          ∀ outcome, IsOutcome w.definitionSnapshot.definition targets statuses outcome →
            (∀ n ∈ s.store.workflowNodeRuns, n.workflowRunId = w.id →
              n.state = outcome n.name) ∧
            (w.state = .failed ↔ Fails w.definitionSnapshot.definition outcome) ∧
            (w.state = .failed ∨ w.state = .succeeded)) := by
  obtain ⟨hp, hsettled, _, _⟩ := reachable_orchestrated hs
  have hm := hp.charted.mirrors w hw
  have haccepted := validate_ok hm.valid
  obtain ⟨targets, hne, hpins⟩ := hm.targets
  have hpins : ∀ n ∈ s.store.workflowNodeRuns, n.workflowRunId = w.id →
      ∀ x, Pins s.store n.id x ↔ x ∈ targets := fun n hn hown =>
    hpins n.id n.name ⟨n, hn, hown, rfl, rfl⟩
  refine ⟨targets, hne, hpins, fun statuses => ⟨?_, ?_⟩⟩
  · obtain ⟨outcome, houtcome⟩ := exists_outcome targets statuses haccepted
    exact ⟨outcome, houtcome, fun other hother node hnode =>
      hother.unique haccepted houtcome hnode⟩
  intro hq outcome houtcome
  have hreached := hq.isOutcome hp hsettled hw hflag hpins
  have hsame {node : WorkflowNode} (hnode : node ∈ w.definitionSnapshot.definition.nodes) :
      reached s.store w.id node.name = outcome node.name := hreached.unique haccepted houtcome hnode
  obtain ⟨hfailed, hstate⟩ := hq.state hp hsettled hw hflag
  refine ⟨?_, hfailed.trans ?_, hstate⟩
  · intro n hn hown
    obtain ⟨stored, hstored, hname⟩ := hm.named n.id n.name ⟨n, hn, hown, rfl, rfl⟩
    rw [← reached_eq hp.keys hm hn hown, ← hname]
    have hnode : (⟨stored.name, stored.jobId⟩ : WorkflowNode) ∈
        w.definitionSnapshot.definition.nodes := List.mem_map.mpr ⟨stored, hstored, rfl⟩
    exact hsame hnode
  · unfold Fails
    constructor
    · rintro ⟨node, hnode, hbad⟩
      rw [hsame hnode] at hbad
      exact ⟨node, hnode, hbad⟩
    · rintro ⟨node, hnode, hbad⟩
      rw [← hsame hnode] at hbad
      exact ⟨node, hnode, hbad⟩

def demoNodeRecord : OutboxRecord := ⟨66, 63, 65, ⟨1⟩, ⟨66, 63, 65, 1⟩, 0⟩

/-- The Run of node `a` is dispatched and ends skipped, and one pass consumes its event. -/
def demoDryRun : List Command :=
  [demoStart, demoClaimOutbox, .markPublished 9 demoNodeRecord 1 0,
    .claimAttempt ⟨63, 65, 1, "worker"⟩ 0,
    .completeAttempt ⟨65, "worker", true, true, none, "", "", none⟩ 0 1,
    .beginPass 60, .observeNode 60 61, .commitPass .ascending ⟨demoFresh.dispatch, demoFormat⟩ 2 60]

theorem demoDryRun_admitted : system.Admits demoOrchestrator demoDryRun := by
  refine ⟨trivial, trivial, ?_, trivial, trivial, ?_, ?_, ?_, trivial⟩
  · change (9, demoNodeRecord) ∈ ControlPlane.State.issued _
    decide +kernel
  · constructor
    · decide +kernel
    · exact ⟨demoInvocation, by decide +kernel, rfl⟩
  · refine ⟨⟨60, [(63, 61)], []⟩, ?_, ?_, List.not_mem_nil⟩
    · decide +kernel
    · decide +kernel
  · refine ⟨⟨60, [(63, 61)], [(61, [.skipped])]⟩, ?_, ?_⟩
    · decide +kernel
    · decide +kernel

def demoEnded : ControlPlane.State := system.run demoOrchestrator demoDryRun

def demoEndedInvocation : WorkflowRunRow :=
  { demoInvocation with state := .succeeded, finishedAt := some 2 }

theorem demoEnded_quiescent :
    Quiescent demoEnded.store demoEndedInvocation fun _ _ => .skipped where
  children := by
    rintro n hn hown r ⟨hr, _⟩
    have hall : ∀ r ∈ demoEnded.store.runs, r.status = .skipped := by decide +kernel
    rw [hall r hr]
    exact ⟨rfl, rfl⟩
  events := by
    have hnone : demoEnded.store.workflowCompletionEvents = [] := by decide +kernel
    rw [hnone]
    exact fun ev hev => absurd hev List.not_mem_nil

/-- Node `a` is skipped by its child, node `b` because `a` did not succeed. -/
theorem outcome_schedule_independent_demo : ∃ targets,
    ∀ outcome, IsOutcome demoWorkflow.definition targets (fun _ _ => .skipped) outcome →
      ∀ n ∈ demoEnded.store.workflowNodeRuns, n.workflowRunId = 60 → n.state = outcome n.name := by
  have hw : demoEndedInvocation ∈ demoEnded.store.workflowRuns := by decide +kernel
  obtain ⟨targets, _, _, hends⟩ :=
    outcome_schedule_independent (demoOrchestrator_reachable demoDryRun_admitted) hw rfl
  exact ⟨targets, fun outcome houtcome =>
    ((hends _).2 demoEnded_quiescent outcome houtcome).1⟩

end WorkflowOutcome
