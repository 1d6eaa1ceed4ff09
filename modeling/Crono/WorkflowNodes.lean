import Crono.RequestTable
import Crono.WorkflowGraph

/-! What the rows of an invocation say: the children of a node, the states that arrive along its
incoming edges, the definition its rows mirror, and how these facts pass from one store to a
later one. -/
namespace WorkflowNodes

open RunDomain WorkflowDomain SqlTable ControlPlaneSchema RunStore WorkflowStore
open ControlPlane StoreWrites RequestTable

/-- A Run launched for a node. -/
def Child (s : Store) (nodeId : Uuid) (r : RunRow) : Prop :=
  r ∈ s.runs ∧ ∃ e ∈ s.workflowNodeExecutions, e.nodeRunId = nodeId ∧ e.runId = some r.id

theorem mem_childStatuses {s : Store} {nodeId : Uuid} {x : RunStatus} :
    x ∈ childStatuses s nodeId ↔ ∃ r, Child s nodeId r ∧ r.status = x := by
  simp only [childStatuses, List.mem_flatMap]
  constructor
  · rintro ⟨e, he, hx⟩
    split at hx
    · rename_i hnode
      obtain ⟨r, hr, rfl⟩ := List.mem_map.mp hx
      obtain ⟨hr, hrun⟩ := List.mem_filter.mp hr
      exact ⟨r, ⟨hr, e, he, hnode, (of_decide_eq_true hrun).symm⟩, rfl⟩
    · cases hx
  · rintro ⟨r, ⟨hr, e, he, hnode, hrun⟩, rfl⟩
    refine ⟨e, he, ?_⟩
    rw [if_pos hnode]
    exact List.mem_map_of_mem (List.mem_filter.mpr ⟨hr, decide_eq_true hrun.symm⟩)

theorem completionState_congr {xs ys : List RunStatus} (h : ∀ x, x ∈ xs ↔ x ∈ ys) :
    completionState xs = completionState ys := by
  have hany (p : RunStatus → Bool) : xs.any p = ys.any p := by
    rw [Bool.eq_iff_iff, List.any_eq_true, List.any_eq_true]
    constructor
    · rintro ⟨x, hx, hp⟩
      exact ⟨x, (h x).mp hx, hp⟩
    · rintro ⟨x, hx, hp⟩
      exact ⟨x, (h x).mpr hx, hp⟩
  simp only [completionState, hany]

def Arrives (s : Store) (nodeId : Uuid) (condition : DependencyCondition)
    (state : WorkflowNodeState) : Prop :=
  ∃ e ∈ s.workflowRunEdges, e.toNodeRunId = nodeId ∧ e.condition = condition ∧
    ∃ n ∈ s.workflowNodeRuns, n.id = e.fromNodeRunId ∧ n.state = state

theorem mem_incomingStates {s : Store} {nodeId : Uuid} {condition : DependencyCondition}
    {state : WorkflowNodeState} :
    (condition, state) ∈ incomingStates s nodeId ↔ Arrives s nodeId condition state := by
  simp only [incomingStates, List.mem_flatMap, List.mem_insertionSort, List.mem_filter,
    List.mem_map, decide_eq_true_eq, Prod.mk.injEq]
  constructor
  · rintro ⟨e, ⟨he, hto⟩, n, ⟨hn, hid⟩, hcondition, hstate⟩
    exact ⟨e, he, hto, hcondition, n, hn, hid, hstate⟩
  · rintro ⟨e, he, hto, hcondition, n, hn, hid, hstate⟩
    exact ⟨e, ⟨he, hto⟩, n, ⟨hn, hid⟩, hcondition, hstate⟩

/-- Every terminal predecessor satisfies its edge, and some predecessor is still open. -/
def Waits (s : Store) (nodeId : Uuid) : Prop :=
  (∀ c x, Arrives s nodeId c x → x.isTerminal = true → c.matches x = true) ∧
    ∃ c x, Arrives s nodeId c x ∧ x.isTerminal = false

def Ready (s : Store) (nodeId : Uuid) : Prop :=
  ∀ c x, Arrives s nodeId c x → x.isTerminal = true ∧ c.matches x = true

/-- Some terminal predecessor does not satisfy its edge. -/
def Skips (s : Store) (nodeId : Uuid) : Prop :=
  ∃ c x, Arrives s nodeId c x ∧ x.isTerminal = true ∧ c.matches x = false

theorem dependencyDecisionFrom_spec (waiting : Bool)
    (incoming : List (DependencyCondition × WorkflowNodeState)) :
    match dependencyDecisionFrom waiting incoming with
    | .skipped => ∃ p ∈ incoming, p.2.isTerminal = true ∧ p.1.matches p.2 = false
    | .ready => waiting = false ∧
        ∀ p ∈ incoming, p.2.isTerminal = true ∧ p.1.matches p.2 = true
    | .waiting => (∀ p ∈ incoming, p.2.isTerminal = true → p.1.matches p.2 = true) ∧
        (waiting = true ∨ ∃ p ∈ incoming, p.2.isTerminal = false) := by
  induction incoming generalizing waiting with
  | nil => cases waiting <;> simp [dependencyDecisionFrom]
  | cons p incoming ih =>
    obtain ⟨condition, state⟩ := p
    unfold dependencyDecisionFrom
    by_cases hterminal : state.isTerminal = true
    · by_cases hmatches : condition.matches state = true
      · have hrest := ih waiting
        simp only [hterminal, hmatches, Bool.not_true, Bool.false_eq_true, if_false]
        split <;> rename_i hdecision <;> rw [hdecision] at hrest <;>
          simpa [hterminal, hmatches] using hrest
      · simp [hterminal, hmatches]
    · have hrest := ih true
      simp only [hterminal, Bool.not_false, if_true]
      split <;> rename_i hdecision <;> rw [hdecision] at hrest
      · simpa [hterminal] using hrest
      · simp at hrest
      · simpa [hterminal] using hrest.1

theorem decision_cases (s : Store) (nodeId : Uuid) :
    (dependencyDecision (incomingStates s nodeId) = .waiting ∧ Waits s nodeId) ∨
    (dependencyDecision (incomingStates s nodeId) = .ready ∧ Ready s nodeId) ∨
    (dependencyDecision (incomingStates s nodeId) = .skipped ∧ Skips s nodeId) := by
  have hspec := dependencyDecisionFrom_spec false (incomingStates s nodeId)
  have hdecision : dependencyDecision (incomingStates s nodeId) =
      dependencyDecisionFrom false (incomingStates s nodeId) := rfl
  cases h : dependencyDecisionFrom false (incomingStates s nodeId) with
  | waiting =>
    rw [h] at hspec
    obtain ⟨hmatches, hopen⟩ := hspec
    refine .inl ⟨hdecision.trans h, ?_, ?_⟩
    · intro c x harrives
      exact hmatches (c, x) (mem_incomingStates.mpr harrives)
    · obtain ⟨⟨c, x⟩, hmem, hx⟩ := hopen.resolve_left Bool.false_ne_true
      exact ⟨c, x, mem_incomingStates.mp hmem, hx⟩
  | ready =>
    rw [h] at hspec
    refine .inr (.inl ⟨hdecision.trans h, ?_⟩)
    intro c x harrives
    exact hspec.2 (c, x) (mem_incomingStates.mpr harrives)
  | skipped =>
    rw [h] at hspec
    obtain ⟨⟨c, x⟩, hmem, hbad⟩ := hspec
    exact .inr (.inr ⟨hdecision.trans h, c, x, mem_incomingStates.mp hmem, hbad⟩)

theorem Waits.not_ready {s : Store} {nodeId : Uuid} (h : Waits s nodeId) : ¬ Ready s nodeId := by
  obtain ⟨_, c, x, harrives, hopen⟩ := h
  intro hready
  rw [(hready c x harrives).1] at hopen
  cases hopen

theorem Waits.not_skips {s : Store} {nodeId : Uuid} (h : Waits s nodeId) : ¬ Skips s nodeId := by
  rintro ⟨c, x, harrives, hterminal, hmismatch⟩
  rw [h.1 c x harrives hterminal] at hmismatch
  cases hmismatch

theorem decision_waiting {s : Store} {nodeId : Uuid} :
    dependencyDecision (incomingStates s nodeId) = .waiting ↔ Waits s nodeId := by
  rcases decision_cases s nodeId with ⟨hd, h⟩ | ⟨hd, h⟩ | ⟨hd, h⟩
  · exact ⟨fun _ => h, fun _ => hd⟩
  · rw [hd]
    exact ⟨nofun, fun hwaits => absurd h hwaits.not_ready⟩
  · rw [hd]
    exact ⟨nofun, fun hwaits => absurd h hwaits.not_skips⟩

def Endpoint (s : Store) (workflowRunId nodeId : Uuid) (name : String) : Prop :=
  ∃ n ∈ s.workflowNodeRuns, n.workflowRunId = workflowRunId ∧ n.id = nodeId ∧ n.name = name

def Pins (s : Store) (nodeId targetId : Uuid) : Prop :=
  ∃ e ∈ s.workflowNodeExecutions, e.nodeRunId = nodeId ∧ e.targetId = targetId

/-- An edge row and the edge of the definition it was inserted for. -/
structure EdgeFor (s : Store) (workflowRunId : Uuid) (e : WorkflowRunEdgeRow)
    (edge : WorkflowEdge) : Prop where
  owner : e.workflowRunId = workflowRunId
  condition : e.condition = edge.condition
  source : Endpoint s workflowRunId e.fromNodeRunId edge.source
  target : Endpoint s workflowRunId e.toNodeRunId edge.target

/-- The nodes and edges of an invocation are those of its definition, and every node pins the
same Targets. -/
structure Mirrors (s : Store) (workflowRunId : Uuid) (definition : StoredWorkflow) : Prop where
  valid : definition.definition.validate = .ok ()
  named : ∀ id name, Endpoint s workflowRunId id name → ∃ node ∈ definition.nodes, node.name = name
  nodes : ∀ node ∈ definition.nodes, ∃ id, Endpoint s workflowRunId id node.name
  unique : ∀ id id' name, Endpoint s workflowRunId id name → Endpoint s workflowRunId id' name →
    id = id'
  edges : ∀ e ∈ s.workflowRunEdges, e.workflowRunId = workflowRunId →
    ∃ edge ∈ definition.edges, EdgeFor s workflowRunId e edge
  edge : ∀ edge ∈ definition.edges, ∃ e ∈ s.workflowRunEdges, EdgeFor s workflowRunId e edge
  targets : ∃ targets, targets ≠ [] ∧ ∀ id name, Endpoint s workflowRunId id name →
    ∀ x, Pins s id x ↔ x ∈ targets

structure Charted (s : Store) : Prop where
  owner : ∀ n ∈ s.workflowNodeRuns, ∃ w ∈ s.workflowRuns, w.id = n.workflowRunId
  joined : ∀ e ∈ s.workflowRunEdges, ∃ w ∈ s.workflowRuns, w.id = e.workflowRunId
  pinned : ∀ e ∈ s.workflowNodeExecutions, ∃ n ∈ s.workflowNodeRuns, n.id = e.nodeRunId
  mirrors : ∀ w ∈ s.workflowRuns, Mirrors s w.id w.definitionSnapshot

theorem Charted.edge_ends {s : Store} (h : Charted s) {e : WorkflowRunEdgeRow}
    (he : e ∈ s.workflowRunEdges) :
    (∃ n ∈ s.workflowNodeRuns, n.id = e.fromNodeRunId ∧ n.workflowRunId = e.workflowRunId) ∧
      ∃ n ∈ s.workflowNodeRuns, n.id = e.toNodeRunId ∧ n.workflowRunId = e.workflowRunId := by
  obtain ⟨w, hw, hid⟩ := h.joined e he
  obtain ⟨edge, _, hedge⟩ := (h.mirrors w hw).edges e he hid.symm
  obtain ⟨n, hn, hown, hnid, _⟩ := hedge.source
  obtain ⟨m, hm, hown', hmid, _⟩ := hedge.target
  exact ⟨⟨n, hn, hnid, hown.trans hid⟩, m, hm, hmid, hown'.trans hid⟩

theorem Charted.nonempty {s : Store} (h : Charted s) {n : WorkflowNodeRunRow}
    (hn : n ∈ s.workflowNodeRuns) : ∃ e ∈ s.workflowNodeExecutions, e.nodeRunId = n.id := by
  obtain ⟨w, hw, hid⟩ := h.owner n hn
  obtain ⟨targets, hne, hpins⟩ := (h.mirrors w hw).targets
  obtain ⟨x, hx⟩ := List.exists_mem_of_ne_nil targets hne
  obtain ⟨e, he, hnode, _⟩ := (hpins n.id n.name ⟨n, hn, hid.symm, rfl, rfl⟩ x).mpr hx
  exact ⟨e, he, hnode⟩

structure Kept (s t : Store) : Prop where
  evolves : StoreEvolves s t
  keys : KeysUnique t
  edges : ∀ e ∈ t.workflowRunEdges, e ∈ s.workflowRunEdges ∨
    ∀ n ∈ s.workflowNodeRuns, n.id ≠ e.toNodeRunId
  executions : ∀ e' ∈ t.workflowNodeExecutions,
    (∃ e ∈ s.workflowNodeExecutions, NodeExecutionEvolves e e') ∨
      ∀ n ∈ s.workflowNodeRuns, n.id ≠ e'.nodeRunId

/-- A transaction that launches no invocation also adds no row to one. -/
structure Steady (s t : Store) : Prop extends Kept s t where
  workflowRuns : ∀ w' ∈ t.workflowRuns, ∃ w ∈ s.workflowRuns, WorkflowRunEvolves w w'
  nodeRuns : ∀ n' ∈ t.workflowNodeRuns, ∃ n ∈ s.workflowNodeRuns, NodeRunEvolves n n'
  sameEdges : t.workflowRunEdges = s.workflowRunEdges
  sameExecutions : ∀ e' ∈ t.workflowNodeExecutions,
    ∃ e ∈ s.workflowNodeExecutions, NodeExecutionEvolves e e'

theorem Kept.node {s t : Store} (h : Kept s t) {n n' : WorkflowNodeRunRow}
    (hn : n ∈ s.workflowNodeRuns) (hn' : n' ∈ t.workflowNodeRuns) (hid : n'.id = n.id) :
    NodeRunEvolves n n' := by
  obtain ⟨n₁, hn₁, hmoved⟩ := h.evolves.nodeRuns.of_mem hn
  have hsame : n₁ = n' :=
    row_unique h.keys.nodeRuns hn₁ hn' (by rw [hmoved.columns]; exact hid.symm)
  exact hsame ▸ hmoved

theorem Kept.trans {s t u : Store} (h : Kept s t) (k : Kept t u) : Kept s u where
  evolves := h.evolves.trans k.evolves
  keys := k.keys
  edges := by
    intro e he
    rcases k.edges e he with he | hfresh
    · exact h.edges e he
    · right
      intro n hn hid
      obtain ⟨n', hn', hmoved⟩ := h.evolves.nodeRuns.of_mem hn
      exact hfresh n' hn' (by rw [hmoved.columns]; exact hid)
  executions := by
    intro e he
    rcases k.executions e he with ⟨e₁, he₁, hmoved⟩ | hfresh
    · exact (h.executions e₁ he₁).imp
        (fun ⟨e₀, he₀, hmoved₀⟩ => ⟨e₀, he₀, hmoved₀.trans hmoved⟩)
        (fun hold n hn => by rw [hmoved.columns]; exact hold n hn)
    · right
      intro n hn hid
      obtain ⟨n', hn', hmoved⟩ := h.evolves.nodeRuns.of_mem hn
      exact hfresh n' hn' (by rw [hmoved.columns]; exact hid)

theorem Steady.of_rows {s t : Store} (hevolves : StoreEvolves s t) (hk : KeysUnique t)
    (hworkflowRuns : ∀ w' ∈ t.workflowRuns, ∃ w ∈ s.workflowRuns, WorkflowRunEvolves w w')
    (hnodeRuns : ∀ n' ∈ t.workflowNodeRuns, ∃ n ∈ s.workflowNodeRuns, NodeRunEvolves n n')
    (hedges : t.workflowRunEdges = s.workflowRunEdges)
    (hexecutions : ∀ e' ∈ t.workflowNodeExecutions,
      ∃ e ∈ s.workflowNodeExecutions, NodeExecutionEvolves e e') : Steady s t where
  evolves := hevolves
  keys := hk
  edges := fun _ he => .inl (hedges ▸ he)
  executions := fun e he => .inl (hexecutions e he)
  workflowRuns := hworkflowRuns
  nodeRuns := hnodeRuns
  sameEdges := hedges
  sameExecutions := hexecutions

theorem Steady.refl {s : Store} (hk : KeysUnique s) : Steady s s :=
  .of_rows (.refl s) hk (fun w hw => ⟨w, hw, .refl w⟩) (fun n hn => ⟨n, hn, .refl n⟩) rfl
    fun e he => ⟨e, he, .refl e⟩

theorem Steady.trans {s t u : Store} (h : Steady s t) (k : Steady t u) : Steady s u := by
  refine .of_rows (h.evolves.trans k.evolves) k.keys ?_ ?_ (k.sameEdges.trans h.sameEdges) ?_
  · intro w hw
    obtain ⟨w₁, hw₁, hmoved⟩ := k.workflowRuns w hw
    obtain ⟨w₀, hw₀, hmoved₀⟩ := h.workflowRuns w₁ hw₁
    exact ⟨w₀, hw₀, hmoved₀.trans hmoved⟩
  · intro n hn
    obtain ⟨n₁, hn₁, hmoved⟩ := k.nodeRuns n hn
    obtain ⟨n₀, hn₀, hmoved₀⟩ := h.nodeRuns n₁ hn₁
    exact ⟨n₀, hn₀, hmoved₀.trans hmoved⟩
  · intro e he
    obtain ⟨e₁, he₁, hmoved⟩ := k.sameExecutions e he
    obtain ⟨e₀, he₀, hmoved₀⟩ := h.sameExecutions e₁ he₁
    exact ⟨e₀, he₀, hmoved₀.trans hmoved⟩

theorem Write.steady {scope : Scope} {s t : Store} (h : Write scope s t)
    (hscope : scope.launching = false) (hk : KeysUnique s) : Steady s t := by
  have hs := Steady.refl hk
  have hevolves := h.evolves
  have hkeys := h.keysUnique hk
  cases h with
  | editCatalog =>
    exact .of_rows hevolves hkeys hs.workflowRuns hs.nodeRuns rfl hs.sameExecutions
  | execution h =>
    obtain ⟨hruns, hnodes, hedges, hexecutions⟩ := h.tables
    exact .of_rows hevolves hkeys (hruns ▸ hs.workflowRuns) (hnodes ▸ hs.nodeRuns) hedges
      (hexecutions ▸ hs.sameExecutions)
  | workflow h =>
    cases h with
    | insertWorkflowRun hlaunch _ => simp [hscope] at hlaunch
    | insertNodeRun hlaunch _ => simp [hscope] at hlaunch
    | insertRunEdge hlaunch _ => simp [hscope] at hlaunch
    | insertNodeExecution hlaunch _ => simp [hscope] at hlaunch
    | updateWorkflowRuns p f h =>
      refine .of_rows hevolves hkeys ?_ hs.nodeRuns rfl hs.sameExecutions
      intro w hw
      rcases update_cases hw with ⟨hmem, _⟩ | ⟨w₀, hmem, hp, rfl⟩
      · exact hs.workflowRuns w hmem
      · exact ⟨w₀, hmem, h w₀ hmem hp⟩
    | updateNodeRuns p f h =>
      refine .of_rows hevolves hkeys hs.workflowRuns ?_ rfl hs.sameExecutions
      intro n hn
      rcases update_cases hn with ⟨hmem, _⟩ | ⟨n₀, hmem, hp, rfl⟩
      · exact hs.nodeRuns n hmem
      · exact ⟨n₀, hmem, h n₀ hmem hp⟩
    | updateNodeExecutions p f h =>
      refine .of_rows hevolves hkeys hs.workflowRuns hs.nodeRuns rfl ?_
      intro e he
      rcases update_cases he with ⟨hmem, _⟩ | ⟨e₀, hmem, hp, rfl⟩
      · exact hs.sameExecutions e hmem
      · exact ⟨e₀, hmem, h e₀ hmem hp⟩
    | deleteEvents p =>
      exact .of_rows hevolves hkeys hs.workflowRuns hs.nodeRuns rfl hs.sameExecutions

theorem Writes.steady {scope : Scope} {s t : Store} (h : Writes scope s t)
    (hscope : scope.launching = false) (hk : KeysUnique s) : Steady s t := by
  induction h with
  | refl => exact .refl hk
  | tail _ hw ih => exact ih.trans (Write.steady hw hscope ih.keys)

theorem Steady.endpoint {s t : Store} (h : Steady s t) {workflowRunId id : Uuid} {name : String} :
    Endpoint t workflowRunId id name ↔ Endpoint s workflowRunId id name := by
  constructor
  · rintro ⟨n, hn, hown, hid, hname⟩
    obtain ⟨n₀, hn₀, hmoved⟩ := h.nodeRuns n hn
    rw [hmoved.columns] at hown hid hname
    exact ⟨n₀, hn₀, hown, hid, hname⟩
  · rintro ⟨n, hn, hown, hid, hname⟩
    obtain ⟨n', hn', hmoved⟩ := h.evolves.nodeRuns.of_mem hn
    refine ⟨n', hn', ?_, ?_, ?_⟩ <;> rw [hmoved.columns] <;> assumption

theorem Steady.pins {s t : Store} (h : Steady s t) {id x : Uuid} : Pins t id x ↔ Pins s id x := by
  constructor
  · rintro ⟨e, he, hnode, htarget⟩
    obtain ⟨e₀, he₀, hmoved⟩ := h.sameExecutions e he
    rw [hmoved.columns] at hnode htarget
    exact ⟨e₀, he₀, hnode, htarget⟩
  · rintro ⟨e, he, hnode, htarget⟩
    obtain ⟨e', he', hmoved⟩ := h.evolves.executions.of_mem he
    refine ⟨e', he', ?_, ?_⟩ <;> rw [hmoved.columns] <;> assumption

theorem Steady.edgeFor {s t : Store} (h : Steady s t) {workflowRunId : Uuid}
    {e : WorkflowRunEdgeRow} {edge : WorkflowEdge} (he : EdgeFor s workflowRunId e edge) :
    EdgeFor t workflowRunId e edge :=
  ⟨he.owner, he.condition, h.endpoint.mpr he.source, h.endpoint.mpr he.target⟩

theorem Steady.mirrors {s t : Store} (h : Steady s t) {workflowRunId : Uuid}
    {definition : StoredWorkflow} (hm : Mirrors s workflowRunId definition) :
    Mirrors t workflowRunId definition where
  valid := hm.valid
  named := fun id name hend => hm.named id name (h.endpoint.mp hend)
  nodes := by
    intro node hnode
    obtain ⟨id, hend⟩ := hm.nodes node hnode
    exact ⟨id, h.endpoint.mpr hend⟩
  unique := fun id id' name hend hend' =>
    hm.unique id id' name (h.endpoint.mp hend) (h.endpoint.mp hend')
  edges := by
    intro e he hown
    obtain ⟨edge, hedge, hfor⟩ := hm.edges e (h.sameEdges ▸ he) hown
    exact ⟨edge, hedge, h.edgeFor hfor⟩
  edge := by
    intro edge hedge
    obtain ⟨e, he, hfor⟩ := hm.edge edge hedge
    exact ⟨e, h.sameEdges.symm ▸ he, h.edgeFor hfor⟩
  targets := by
    obtain ⟨targets, hne, hpins⟩ := hm.targets
    refine ⟨targets, hne, ?_⟩
    intro id name hend x
    rw [h.pins]
    exact hpins id name (h.endpoint.mp hend) x

theorem Charted.steady {s t : Store} (hc : Charted s) (h : Steady s t) : Charted t where
  owner := by
    intro n hn
    obtain ⟨n₀, hn₀, hmoved⟩ := h.nodeRuns n hn
    obtain ⟨w, hw, hid⟩ := hc.owner n₀ hn₀
    obtain ⟨w', hw', hwmoved⟩ := h.evolves.workflowRuns.of_mem hw
    refine ⟨w', hw', ?_⟩
    rw [hwmoved.columns, hmoved.columns]
    exact hid
  joined := by
    intro e he
    obtain ⟨w, hw, hid⟩ := hc.joined e (h.sameEdges ▸ he)
    obtain ⟨w', hw', hwmoved⟩ := h.evolves.workflowRuns.of_mem hw
    refine ⟨w', hw', ?_⟩
    rw [hwmoved.columns]
    exact hid
  pinned := by
    intro e he
    obtain ⟨e₀, he₀, hmoved⟩ := h.sameExecutions e he
    obtain ⟨n, hn, hid⟩ := hc.pinned e₀ he₀
    obtain ⟨n', hn', hnmoved⟩ := h.evolves.nodeRuns.of_mem hn
    refine ⟨n', hn', ?_⟩
    rw [hnmoved.columns, hmoved.columns]
    exact hid
  mirrors := by
    intro w hw
    obtain ⟨w₀, hw₀, hmoved⟩ := h.workflowRuns w hw
    rw [hmoved.columns]
    exact h.mirrors (hc.mirrors w₀ hw₀)

end WorkflowNodes
