import Crono.WorkflowPasses

/-! The transaction of a launch: it inserts an invocation whose rows mirror the definition, all
nodes pending, and activates the nodes without an incoming edge. -/
namespace WorkflowLaunches

open RunDomain WorkflowDomain SqlTable ControlPlaneSchema RunStore WorkflowStore
open ControlPlane StoreWrites RequestTable WorkflowGraph WorkflowNodes WorkflowPhases
open WorkflowEvents WorkflowMoves WorkflowActivation WorkflowPasses
open ExecutionInputs (FloatFormat)
open FallibleLists

/-- A store with the rows of a new invocation, before any activation. -/
structure Prepared (s t : Store) (fresh : FreshLaunch) (definition : StoredWorkflow)
    (targets : List Uuid) : Prop where
  kept : StoreEvolves s t
  keys : KeysUnique t
  valid : definition.definition.validate = .ok ()
  run : ∃ w, w.id = fresh.workflowRunId ∧ w.definitionSnapshot = definition ∧
    w.state = .running ∧ w.cancellationRequested = false ∧ t.workflowRuns = s.workflowRuns ++ [w]
  freshRun : ∀ w ∈ s.workflowRuns, w.id ≠ fresh.workflowRunId
  nodeRuns : t.workflowNodeRuns = s.workflowNodeRuns ++ definition.nodes.map (nodeRunRow fresh)
  freshNodes : ∀ n ∈ s.workflowNodeRuns, ∀ node ∈ definition.nodes,
    n.id ≠ fresh.nodeRunId node.name
  edges : t.workflowRunEdges = s.workflowRunEdges ++ definition.edges.map (runEdgeRow fresh)
  ends : ∀ edge ∈ definition.edges, (∃ node ∈ definition.nodes, node.name = edge.source) ∧
    ∃ node ∈ definition.nodes, node.name = edge.target
  executions : ∃ requests pinned, PreparedNodes fresh targets definition.nodes requests pinned ∧
    t.workflowNodeExecutions = s.workflowNodeExecutions ++ pinned
  runs : t.runs = s.runs
  unrequested : ∀ r ∈ s.runs, ∀ node ∈ definition.nodes,
    r.requestId ≠ some (fresh.nodeRunId node.name)
  events : t.workflowCompletionEvents = s.workflowCompletionEvents

section Rows

variable {s t : Store} {fresh : FreshLaunch} {definition : StoredWorkflow} {targets : List Uuid}

theorem Prepared.node_cases (h : Prepared s t fresh definition targets) {n : WorkflowNodeRunRow}
    (hn : n ∈ t.workflowNodeRuns) :
    n ∈ s.workflowNodeRuns ∨ ∃ node ∈ definition.nodes, n = nodeRunRow fresh node := by
  rw [h.nodeRuns] at hn
  rcases List.mem_append.mp hn with hn | hn
  · exact .inl hn
  · obtain ⟨node, hnode, rfl⟩ := List.mem_map.mp hn
    exact .inr ⟨node, hnode, rfl⟩

theorem Prepared.edge_cases (h : Prepared s t fresh definition targets) {e : WorkflowRunEdgeRow}
    (he : e ∈ t.workflowRunEdges) :
    e ∈ s.workflowRunEdges ∨ ∃ edge ∈ definition.edges, e = runEdgeRow fresh edge := by
  rw [h.edges] at he
  rcases List.mem_append.mp he with he | he
  · exact .inl he
  · obtain ⟨edge, hedge, rfl⟩ := List.mem_map.mp he
    exact .inr ⟨edge, hedge, rfl⟩

theorem Prepared.execution_cases (h : Prepared s t fresh definition targets)
    {e : WorkflowNodeExecutionRow} (he : e ∈ t.workflowNodeExecutions) :
    e ∈ s.workflowNodeExecutions ∨ e.targetId ∈ targets ∧ e.runId = none ∧
      ∃ node ∈ definition.nodes, e.nodeRunId = fresh.nodeRunId node.name := by
  obtain ⟨_, pinned, hpinned, hexecutions⟩ := h.executions
  rw [hexecutions] at he
  rcases List.mem_append.mp he with he | he
  · exact .inl he
  · obtain ⟨htarget, node, hnode, hrow⟩ := hpinned.executions e he
    exact .inr ⟨htarget, hrow.unlaunched, node, hnode, hrow.node_run⟩

theorem Prepared.node_mem (h : Prepared s t fresh definition targets) {node : StoredNode}
    (hnode : node ∈ definition.nodes) : nodeRunRow fresh node ∈ t.workflowNodeRuns := by
  rw [h.nodeRuns]
  exact List.mem_append_right _ (List.mem_map_of_mem hnode)

theorem Prepared.old_node (h : Prepared s t fresh definition targets) {n : WorkflowNodeRunRow}
    (hn : n ∈ s.workflowNodeRuns) : n ∈ t.workflowNodeRuns := by
  rw [h.nodeRuns]
  exact List.mem_append_left _ hn

theorem Prepared.old_edge (h : Prepared s t fresh definition targets) {e : WorkflowRunEdgeRow}
    (he : e ∈ s.workflowRunEdges) : e ∈ t.workflowRunEdges := by
  rw [h.edges]
  exact List.mem_append_left _ he

theorem Prepared.other (h : Prepared s t fresh definition targets) (hc : Charted s)
    {n : WorkflowNodeRunRow} (hn : n ∈ s.workflowNodeRuns) :
    n.workflowRunId ≠ fresh.workflowRunId := by
  obtain ⟨w, hw, hid⟩ := hc.owner n hn
  rw [← hid]
  exact h.freshRun w hw

theorem Prepared.kept_rows (h : Prepared s t fresh definition targets) : Kept s t where
  evolves := h.kept
  keys := h.keys
  edges := by
    intro e he
    rcases h.edge_cases he with he | ⟨edge, hedge, rfl⟩
    · exact .inl he
    · obtain ⟨_, node, hnode, hname⟩ := h.ends edge hedge
      refine .inr fun n hn hid => h.freshNodes n hn node hnode ?_
      rw [hname]
      exact hid
  executions := by
    intro e he
    rcases h.execution_cases he with he | ⟨_, _, node, hnode, hrow⟩
    · exact .inl ⟨e, he, .refl e⟩
    · exact .inr fun n hn hid => h.freshNodes n hn node hnode (hid.trans hrow)

theorem Prepared.endpoint_new (h : Prepared s t fresh definition targets) (hc : Charted s)
    {id : Uuid} {name : String} : Endpoint t fresh.workflowRunId id name ↔
      id = fresh.nodeRunId name ∧ ∃ node ∈ definition.nodes, node.name = name := by
  constructor
  · rintro ⟨n, hn, hown, rfl, rfl⟩
    rcases h.node_cases hn with hn | ⟨node, hnode, rfl⟩
    · exact absurd hown (h.other hc hn)
    · exact ⟨rfl, node, hnode, rfl⟩
  · rintro ⟨rfl, node, hnode, rfl⟩
    exact ⟨nodeRunRow fresh node, h.node_mem hnode, rfl, rfl, rfl⟩

theorem Prepared.endpoint_old (h : Prepared s t fresh definition targets) {workflowRunId : Uuid}
    (hother : workflowRunId ≠ fresh.workflowRunId) {id : Uuid} {name : String} :
    Endpoint t workflowRunId id name ↔ Endpoint s workflowRunId id name := by
  constructor
  · rintro ⟨n, hn, hown, hid, hname⟩
    rcases h.node_cases hn with hn | ⟨node, _, rfl⟩
    · exact ⟨n, hn, hown, hid, hname⟩
    · exact absurd hown.symm hother
  · rintro ⟨n, hn, hrest⟩
    exact ⟨n, h.old_node hn, hrest⟩

theorem Prepared.mirrors_new (h : Prepared s t fresh definition targets) (hc : Charted s) :
    Mirrors t fresh.workflowRunId definition where
  valid := h.valid
  named := fun id name hend => ((h.endpoint_new hc).mp hend).2
  nodes := fun node hnode =>
    ⟨fresh.nodeRunId node.name, (h.endpoint_new hc).mpr ⟨rfl, node, hnode, rfl⟩⟩
  unique := by
    intro id id' name hend hend'
    rw [((h.endpoint_new hc).mp hend).1, ((h.endpoint_new hc).mp hend').1]
  edges := by
    intro e he hown
    rcases h.edge_cases he with he | ⟨edge, hedge, rfl⟩
    · obtain ⟨w, hw, hid⟩ := hc.joined e he
      exact absurd (hid.trans hown) (h.freshRun w hw)
    · obtain ⟨hsource, htarget⟩ := h.ends edge hedge
      exact ⟨edge, hedge, rfl, rfl, (h.endpoint_new hc).mpr ⟨rfl, hsource⟩,
        (h.endpoint_new hc).mpr ⟨rfl, htarget⟩⟩
  edge := by
    intro edge hedge
    obtain ⟨hsource, htarget⟩ := h.ends edge hedge
    refine ⟨runEdgeRow fresh edge, ?_, rfl, rfl, (h.endpoint_new hc).mpr ⟨rfl, hsource⟩,
      (h.endpoint_new hc).mpr ⟨rfl, htarget⟩⟩
    rw [h.edges]
    exact List.mem_append_right _ (List.mem_map_of_mem hedge)
  targets := by
    obtain ⟨_, pinned, hpinned, hexecutions⟩ := h.executions
    have hnodes : definition.nodes ≠ [] := by
      intro hnil
      apply (validate_ok h.valid).nonempty
      simp [StoredWorkflow.definition, hnil]
    obtain ⟨node, hnode⟩ := List.exists_mem_of_ne_nil _ hnodes
    refine ⟨targets, (hpinned.targets node hnode).1, ?_⟩
    intro id name hend x
    obtain ⟨rfl, node, hnode, rfl⟩ := (h.endpoint_new hc).mp hend
    constructor
    · rintro ⟨e, he, hown, rfl⟩
      rcases h.execution_cases he with he | ⟨htarget, _⟩
      · obtain ⟨n, hn, hid⟩ := hc.pinned e he
        exact absurd (hid.trans hown) (h.freshNodes n hn node hnode)
      · exact htarget
    · intro hx
      obtain ⟨e, he, hrow, htarget⟩ := (hpinned.targets node hnode).2 x hx
      refine ⟨e, ?_, hrow, htarget⟩
      rw [hexecutions]
      exact List.mem_append_right _ he

theorem Prepared.mirrors_old (h : Prepared s t fresh definition targets) {w : WorkflowRunRow}
    (hw : w ∈ s.workflowRuns) {d : StoredWorkflow} (hm : Mirrors s w.id d) :
    Mirrors t w.id d where
  valid := hm.valid
  named := fun id name hend => hm.named id name ((h.endpoint_old (h.freshRun w hw)).mp hend)
  nodes := by
    intro node hnode
    obtain ⟨id, hend⟩ := hm.nodes node hnode
    exact ⟨id, (h.endpoint_old (h.freshRun w hw)).mpr hend⟩
  unique := fun id id' name hend hend' => hm.unique id id' name
    ((h.endpoint_old (h.freshRun w hw)).mp hend) ((h.endpoint_old (h.freshRun w hw)).mp hend')
  edges := by
    intro e he hown
    rcases h.edge_cases he with he | ⟨edge, _, rfl⟩
    · obtain ⟨edge, hedge, hfor⟩ := hm.edges e he hown
      exact ⟨edge, hedge, hfor.owner, hfor.condition,
        (h.endpoint_old (h.freshRun w hw)).mpr hfor.source,
        (h.endpoint_old (h.freshRun w hw)).mpr hfor.target⟩
    · exact absurd hown.symm (h.freshRun w hw)
  edge := by
    intro edge hedge
    obtain ⟨e, he, hfor⟩ := hm.edge edge hedge
    exact ⟨e, h.old_edge he, hfor.owner, hfor.condition,
      (h.endpoint_old (h.freshRun w hw)).mpr hfor.source,
      (h.endpoint_old (h.freshRun w hw)).mpr hfor.target⟩
  targets := by
    obtain ⟨pinnedTargets, hne, hpins⟩ := hm.targets
    refine ⟨pinnedTargets, hne, ?_⟩
    intro id name hend x
    have hend := (h.endpoint_old (h.freshRun w hw)).mp hend
    rw [← hpins id name hend x]
    obtain ⟨n, hn, _, rfl, _⟩ := hend
    constructor
    · rintro ⟨e, he, hown, htarget⟩
      rcases h.execution_cases he with he | ⟨_, _, node, hnode, hrow⟩
      · exact ⟨e, he, hown, htarget⟩
      · exact absurd (hown.symm.trans hrow) (h.freshNodes n hn node hnode)
    · rintro ⟨e, he, hrest⟩
      obtain ⟨_, pinned, _, hexecutions⟩ := h.executions
      refine ⟨e, ?_, hrest⟩
      rw [hexecutions]
      exact List.mem_append_left _ he

theorem Prepared.charted (h : Prepared s t fresh definition targets) (hc : Charted s) :
    Charted t := by
  obtain ⟨w₀, hid, hsnapshot, _, _, hruns⟩ := h.run
  have hold {w : WorkflowRunRow} (hw : w ∈ s.workflowRuns) : w ∈ t.workflowRuns := by
    rw [hruns]
    exact List.mem_append_left _ hw
  have hnew : w₀ ∈ t.workflowRuns := by
    rw [hruns]
    exact List.mem_append_right _ (List.mem_singleton.mpr rfl)
  constructor
  · intro n hn
    rcases h.node_cases hn with hn | ⟨node, _, rfl⟩
    · obtain ⟨w, hw, hown⟩ := hc.owner n hn
      exact ⟨w, hold hw, hown⟩
    · exact ⟨w₀, hnew, hid⟩
  · intro e he
    rcases h.edge_cases he with he | ⟨edge, _, rfl⟩
    · obtain ⟨w, hw, hown⟩ := hc.joined e he
      exact ⟨w, hold hw, hown⟩
    · exact ⟨w₀, hnew, hid⟩
  · intro e he
    rcases h.execution_cases he with he | ⟨_, _, node, hnode, hrow⟩
    · obtain ⟨n, hn, hown⟩ := hc.pinned e he
      exact ⟨n, h.old_node hn, hown⟩
    · exact ⟨nodeRunRow fresh node, h.node_mem hnode, hrow.symm⟩
  · intro w hw
    rw [hruns] at hw
    rcases List.mem_append.mp hw with hw | hw
    · exact h.mirrors_old hw (hc.mirrors w hw)
    · rw [List.mem_singleton.mp hw, hid, hsnapshot]
      exact h.mirrors_new hc

theorem Prepared.phased (h : Prepared s t fresh definition targets) (hp : Phased s) :
    Phased t where
  keys := h.keys
  charted := h.charted hp.charted
  phase := by
    intro n hn
    rcases h.node_cases hn with hn | ⟨node, hnode, rfl⟩
    · refine hp.unmoved h.kept_rows hn ?_ fun r hr _ => ⟨r, h.runs ▸ hr, .refl r⟩
      intro e he hown
      rcases h.execution_cases he with he | ⟨_, _, node, hnode, hrow⟩
      · exact he
      · exact absurd (hown.symm.trans hrow) (h.freshNodes n hn node hnode)
    · refine .inl ⟨rfl, ?_, ?_, .inl rfl⟩
      · intro e he hown
        rcases h.execution_cases he with he | ⟨_, hnone, _⟩
        · obtain ⟨n, hn, hid⟩ := hp.charted.pinned e he
          exact absurd (hid.trans hown) (h.freshNodes n hn node hnode)
        · exact hnone
      · intro r hr
        rw [h.runs] at hr
        exact h.unrequested r hr node hnode
  events := by
    intro ev hev
    rw [h.events] at hev
    exact (hp.events ev hev).kept h.kept_rows

/-- The nodes `start` activates. -/
def rootNodes (definition : StoredWorkflow) (nodes : List StoredNode) : List StoredNode :=
  nodes.filter fun node => !definition.edges.any fun edge => edge.target = node.name

theorem mem_rootNodes {nodes : List StoredNode} {node : StoredNode} :
    node ∈ rootNodes definition nodes ↔
      node ∈ nodes ∧ ∀ edge ∈ definition.edges, edge.target ≠ node.name := by
  simp [rootNodes]

theorem Prepared.arrives_new (h : Prepared s t fresh definition targets) (hc : Charted s)
    {node : StoredNode} (hnode : node ∈ definition.nodes) {c : DependencyCondition}
    {x : WorkflowNodeState} (ha : Arrives t (fresh.nodeRunId node.name) c x) :
    x = .pending ∧ ∃ edge ∈ definition.edges, edge.target = node.name := by
  obtain ⟨e, he, hto, _, m, hm, hid, rfl⟩ := ha
  rcases h.edge_cases he with he | ⟨edge, hedge, rfl⟩
  · obtain ⟨_, k, hk, hkid, _⟩ := hc.edge_ends he
    exact absurd (hkid.trans hto) (h.freshNodes k hk node hnode)
  · obtain ⟨⟨source, hsource, hname⟩, target, htarget, htargetName⟩ := h.ends edge hedge
    constructor
    · rcases h.node_cases hm with hm | ⟨k, _, rfl⟩
      · have hfrom : m.id = fresh.nodeRunId source.name := by
          rw [hname]
          exact hid
        exact absurd hfrom (h.freshNodes m hm source hsource)
      · rfl
    · -- both names stand for the same row
      have hsame : nodeRunRow fresh target = nodeRunRow fresh node := by
        refine row_unique h.keys.nodeRuns (h.node_mem htarget) (h.node_mem hnode) ?_
        change fresh.nodeRunId target.name = fresh.nodeRunId node.name
        rw [htargetName]
        exact hto
      exact ⟨edge, hedge, htargetName.symm.trans (congrArg WorkflowNodeRunRow.name hsame)⟩

theorem Prepared.ready_root (h : Prepared s t fresh definition targets) (hc : Charted s)
    {node : StoredNode} (hroot : node ∈ rootNodes definition definition.nodes) :
    Ready t (fresh.nodeRunId node.name) := by
  obtain ⟨hnode, hnone⟩ := mem_rootNodes.mp hroot
  intro c x harrives
  obtain ⟨_, edge, hedge, htarget⟩ := h.arrives_new hc hnode harrives
  exact absurd htarget (hnone edge hedge)

theorem Prepared.waits_inner (h : Prepared s t fresh definition targets) (hc : Charted s)
    {node : StoredNode} (hnode : node ∈ definition.nodes) {edge : WorkflowEdge}
    (hedge : edge ∈ definition.edges) (htarget : edge.target = node.name) :
    Waits t (fresh.nodeRunId node.name) := by
  constructor
  · intro c x harrives hterminal
    rw [(h.arrives_new hc hnode harrives).1] at hterminal
    cases hterminal
  · obtain ⟨⟨source, hsource, hname⟩, _⟩ := h.ends edge hedge
    refine ⟨edge.condition, .pending, ⟨runEdgeRow fresh edge, ?_, ?_, rfl, nodeRunRow fresh source,
      h.node_mem hsource, ?_, rfl⟩, rfl⟩
    · rw [h.edges]
      exact List.mem_append_right _ (List.mem_map_of_mem hedge)
    · change fresh.nodeRunId edge.target = _
      rw [htarget]
    · change fresh.nodeRunId source.name = fresh.nodeRunId edge.source
      rw [hname]

theorem Prepared.underway (h : Prepared s t fresh definition targets) (hp : Phased s)
    (hs : Settled s []) : Underway t fresh.workflowRunId [] []
      ((rootNodes definition definition.nodes).map fun node => fresh.nodeRunId node.name) := by
  have hc := hp.charted
  obtain ⟨w₀, hid, _, hrunning, huncancelled, hruns⟩ := h.run
  have hworkflow {w : WorkflowRunRow} (hw : w ∈ t.workflowRuns) : w ∈ s.workflowRuns ∨ w = w₀ := by
    rw [hruns] at hw
    exact (List.mem_append.mp hw).imp id List.mem_singleton.mp
  -- the nodes of an old invocation are its old nodes
  have hnodes {n : WorkflowNodeRunRow} (hother : n.workflowRunId ≠ fresh.workflowRunId) :
      n ∈ t.workflowNodeRuns ↔ n ∈ s.workflowNodeRuns := by
    refine ⟨fun hn => ?_, h.old_node⟩
    rcases h.node_cases hn with hn | ⟨node, _, rfl⟩
    · exact hn
    · exact absurd rfl hother
  refine ⟨h.phased hp, ?_, ?_, ?_, ?_, ?_, ?_, ?_⟩
  · intro n hn hstate
    rcases h.node_cases hn with hn | ⟨node, _, rfl⟩
    · refine .inl (Woken.foreground h.kept_rows (fun r hr => h.runs.symm ▸ hr) hn
        (.of_running hp hn hstate) ?_ (hs.woken n hn hstate))
      exact fun ev hev _ _ => h.events.symm ▸ hev
    · cases hstate
  · intro n hn hstate
    rcases h.node_cases hn with hn | ⟨node, hnode, rfl⟩
    · refine .inl (Waits.unmoved hc hp.keys h.keys hn ?_ ?_ (hs.decided n hn hstate))
      · intro e hto
        refine ⟨fun he => ?_, h.old_edge⟩
        rcases h.kept_rows.edges e he with he | hfresh
        · exact he
        · exact absurd hto.symm (hfresh n hn)
      · intro m hm
        exact hnodes (hm ▸ h.other hc hn)
    · by_cases hroot : node ∈ rootNodes definition definition.nodes
      · exact .inr (List.mem_map.mpr ⟨node, hroot, rfl⟩)
      · rw [mem_rootNodes] at hroot
        push Not at hroot
        obtain ⟨edge, hedge, htarget⟩ := hroot hnode
        exact .inl (h.waits_inner hc hnode hedge htarget)
  · rintro n hn hstate ⟨w, hw, hown, hflag⟩
    rcases hworkflow hw with hw | rfl
    · rcases h.node_cases hn with hn | ⟨node, _, rfl⟩
      · exact hs.uncancelled n hn hstate ⟨w, hw, hown, hflag⟩
      · exact h.freshRun w hw hown
    · rw [huncancelled] at hflag
      cases hflag
  · rintro w hw ⟨n, hn, hopen⟩
    rcases hworkflow hw with hw | rfl
    · refine (hs.running w hw).mpr ⟨n, (hnodes ?_).mp hn, hopen⟩
      rw [(openNode_iff.mp hopen).1]
      exact h.freshRun w hw
    · exact hrunning
  · intro w hw hstate
    rcases hworkflow hw with hw | rfl
    · rw [hs.finished w hw hstate]
      symm
      apply finalState_congr
      intro n hown
      exact hnodes (hown ▸ h.freshRun w hw)
    · exact absurd hrunning hstate
  · intro w hw hother hstate
    rcases hworkflow hw with hw | rfl
    · obtain ⟨n, hn, hopen⟩ := (hs.running w hw).mp hstate
      exact ⟨n, h.old_node hn, hopen⟩
    · exact absurd hid hother
  · intro x hx
    obtain ⟨node, hnode, rfl⟩ := List.mem_map.mp hx
    exact ⟨nodeRunRow fresh node, h.node_mem (mem_rootNodes.mp hnode).1, rfl, rfl⟩

end Rows

theorem activateRoots_underway {F : FloatFormat} {fresh : FreshLaunch}
    {definition : StoredWorkflow} {now : Instant} {nodes : List StoredNode} {s t : Store}
    (hu : Underway s fresh.workflowRunId [] []
      ((rootNodes definition nodes).map fun node => fresh.nodeRunId node.name))
    (hready : ∀ node ∈ rootNodes definition nodes, Ready s (fresh.nodeRunId node.name))
    (hopen : ∀ n ∈ s.workflowNodeRuns, n.workflowRunId = fresh.workflowRunId →
      n.state.isTerminal = false)
    (h : activateRoots F fresh definition now nodes s = .ok t) :
    Underway t fresh.workflowRunId [] [] [] ∧ Foreground s t ∧
      ∀ n ∈ t.workflowNodeRuns, n.workflowRunId = fresh.workflowRunId →
        n.state.isTerminal = false := by
  induction nodes generalizing s with
  | nil =>
    cases h
    exact ⟨hu, .refl hu.phased.keys, hopen⟩
  | cons node rest ih =>
    unfold activateRoots at h
    split at h
    · rename_i hinner
      have hroots : rootNodes definition (node :: rest) = rootNodes definition rest := by
        simp [rootNodes, hinner]
      rw [hroots] at hu hready
      exact ih hu hready hopen h
    · rename_i hroot
      have hroots : rootNodes definition (node :: rest) = node :: rootNodes definition rest := by
        simp [rootNodes, hroot]
      rw [hroots] at hu hready
      obtain ⟨s₁, h₁, h₂⟩ := ok_of_bind h
      obtain ⟨hu₁, hf₁⟩ := Underway.activate hu (hready node List.mem_cons_self) h₁
      have hready₁ : ∀ k ∈ rootNodes definition rest, Ready s₁ (fresh.nodeRunId k.name) := by
        intro k hk
        have hmem : fresh.nodeRunId k.name ∈ (node :: rootNodes definition rest).map
            fun node => fresh.nodeRunId node.name :=
          List.mem_map.mpr ⟨k, List.mem_cons_of_mem _ hk, rfl⟩
        obtain ⟨n, hn, hid, _⟩ := hu.queued _ hmem
        have hk := hready k (List.mem_cons_of_mem _ hk)
        rw [← hid] at hk ⊢
        exact Ready.kept hu.phased.charted hf₁.steady.toKept hn hk
      have hopen₁ : ∀ n ∈ s₁.workflowNodeRuns, n.workflowRunId = fresh.workflowRunId →
          n.state.isTerminal = false := by
        intro n hn hown
        rcases (activate_nodes h₁).2 n hn with hn | hrunning
        · exact hopen n hn hown
        · rw [hrunning]
          rfl
      obtain ⟨hu₂, hf₂, hopen₂⟩ := ih hu₁ hready₁ hopen₁ h₂
      exact ⟨hu₂, hf₁.trans hf₂, hopen₂⟩

theorem invocation_valid {s : Store} {id : Uuid} {record : WorkflowRunRecord}
    (h : invocation s id = .ok record) :
    ∃ w ∈ s.workflowRuns, w.id = id ∧ w.definitionSnapshot.definition.validate = .ok () := by
  unfold invocation at h
  split at h
  · cases h
  rename_i w hfind
  have hid := List.find?_some hfind
  obtain ⟨_, _, h⟩ := ok_of_bind h
  obtain ⟨workflow, hrecord, h⟩ := ok_of_bind h
  exact ⟨w, List.mem_of_find?_eq_some hfind, of_decide_eq_true hid, (record_ok hrecord).1⟩

/-- A committed launch prepared its rows and activated the roots. -/
theorem startFresh_prepared {R : Rendering} {fresh : FreshLaunch} {launch : WorkflowLaunch}
    {now : Instant} {s t : Store} {answer : WorkflowRunRecord × Bool} (hk : KeysUnique s)
    (hrequested : Requested s) (h : startFresh R fresh launch now s = .ok (answer, t)) :
    ∃ definition s', Prepared s s' fresh definition launch.authorizedTargets ∧
      activateRoots R.floats fresh definition now definition.nodes s' = .ok t := by
  obtain ⟨definition, record, s₁, s₂, s₃, h₁, h₂, h₃, h₄, h₅, _⟩ := startFresh_ok h
  have hwrites₂ : Writes (.launch R.floats) s s₂ :=
    .head (.workflow (.insertWorkflowRun rfl h₁)) (prepareNodes_writes h₂)
  have hwrites : Writes (.launch R.floats) s s₃ := hwrites₂.trans (insertRunEdges_writes h₃)
  have hroots : Writes (.launch R.floats) s₃ t := activateRoots_writes rfl h₄
  have hkeys₂ := hwrites₂.keysUnique hk
  have hkeys := hwrites.keysUnique hk
  obtain ⟨hfresh, rfl⟩ := insertWorkflowRun_ok h₁
  obtain ⟨requests, pinned, rfl, hprepared⟩ := prepareNodes_ok h₂
  obtain ⟨rfl, hends⟩ := insertRunEdges_ok h₃
  refine ⟨definition, _, ?_, h₄⟩
  refine ⟨hwrites.evolves, hkeys, ?_,
    ⟨workflowRunRow fresh definition launch now, rfl, rfl, rfl, rfl, rfl⟩,
    fun w hw => (hfresh w hw).1, rfl, ?_, rfl, hends, ⟨requests, pinned, hprepared, rfl⟩, rfl, ?_,
    rfl⟩
  · -- `invocation` read the definition back and checked it
    obtain ⟨w, hw, hid, hvalid⟩ := invocation_valid h₅
    obtain ⟨w', hw', hmoved⟩ := hroots.evolves.workflowRuns.of_mem
      (List.mem_append_right s.workflowRuns (List.mem_singleton.mpr rfl) :
        workflowRunRow fresh definition launch now ∈ _)
    have hsame : w = w' := row_unique (hroots.keysUnique hkeys).workflowRuns hw hw' (by
      rw [hmoved.columns]
      exact hid)
    rw [hsame, hmoved.columns] at hvalid
    exact hvalid
  · intro n hn node hnode hid
    have hnodup := hkeys.nodeRuns
    rw [List.map_append, List.nodup_append] at hnodup
    exact hnodup.2.2 n.id (List.mem_map_of_mem hn) _
      (List.mem_map_of_mem (List.mem_map_of_mem hnode)) hid
  · intro r hr node hnode hrequest
    obtain ⟨q, hq, hid⟩ := hrequested.runs r hr _ hrequest
    have hreserved : fresh.nodeRunId node.name ∈ requests.map RunRequestRow.requestId := by
      rw [hprepared.requests]
      exact List.mem_map.mpr ⟨node, hnode, rfl⟩
    have hnodup := hkeys₂.requests
    rw [List.map_append, List.nodup_append] at hnodup
    exact hnodup.2.2 q.requestId (List.mem_map_of_mem hq) _ hreserved hid

theorem start_settled {s : Store} (hp : Phased s) (hs : Settled s []) (hrequested : Requested s)
    (R : Rendering) (fresh : FreshLaunch) (launch : WorkflowLaunch) (now : Instant) {t : Store}
    (h : (start R fresh launch now s).2 = t) :
    Phased t ∧ Settled t [] ∧ Kept s t ∧ ∀ q, PassHolds s q → PassHolds t q := by
  rcases start_cases R fresh launch now s with hsame | ⟨_, t', ht, hstart⟩
  · rw [h] at hsame
    rw [hsame]
    exact ⟨hp, hs, (Steady.refl hp.keys).toKept, fun q hq => hq⟩
  rw [h] at hstart
  subst hstart
  obtain ⟨definition, s', hprepared, hroots⟩ := startFresh_prepared hp.keys hrequested ht
  have hopen : ∀ n ∈ s'.workflowNodeRuns, n.workflowRunId = fresh.workflowRunId →
      n.state.isTerminal = false := by
    intro n hn hown
    rcases hprepared.node_cases hn with hn | ⟨node, _, rfl⟩
    · exact absurd hown (hprepared.other hp.charted hn)
    · rfl
  obtain ⟨hu, hf, hopen'⟩ := activateRoots_underway (hprepared.underway hp hs)
    (fun node hnode => hprepared.ready_root hp.charted hnode) hopen hroots
  have hkept : Kept s t := hprepared.kept_rows.trans hf.steady.toKept
  refine ⟨hu.phased, ?_, hkept, ?_⟩
  · refine ⟨?_, ?_, hu.uncancelled, ?_, hu.finished⟩
    · intro n hn hrunning
      exact (hu.woken n hn hrunning).resolve_right List.not_mem_nil
    · intro n hn hpending
      exact (hu.decided n hn hpending).resolve_right List.not_mem_nil
    · intro w hw
      refine ⟨fun hrunning => ?_, hu.running w hw⟩
      by_cases hid : w.id = fresh.workflowRunId
      · -- a new invocation has a node, and none of its nodes has ended
        obtain ⟨node, hnode⟩ := List.exists_mem_of_ne_nil definition.nodes fun hnil =>
          (validate_ok hprepared.valid).nonempty (by simp [StoredWorkflow.definition, hnil])
        obtain ⟨n, hn, hmoved⟩ := hf.steady.evolves.nodeRuns.of_mem (hprepared.node_mem hnode)
        have hown : n.workflowRunId = fresh.workflowRunId := by
          rw [hmoved.columns]
          rfl
        exact ⟨n, hn, openNode_iff.mpr ⟨hown.trans hid.symm, hopen' n hn hown⟩⟩
      · exact hu.others w hw hid hrunning
  · intro q hq
    have hq' : PassHolds s' q := by
      refine hq.kept hp hprepared.kept_rows (fun _ hev _ => hprepared.events.symm ▸ hev) ?_
      intro n hn _ hl hw
      exact Woken.foreground hprepared.kept_rows (fun r hr => hprepared.runs.symm ▸ hr) hn hl
        (fun _ hev _ _ => hprepared.events.symm ▸ hev) hw
    exact PassHolds.foreground (hprepared.phased hp) hf hq'

end WorkflowLaunches
