import Crono.WorkflowMoves

/-! Activation of a node: one Run for every pinned execution, and the node is running. -/
namespace WorkflowActivation

open RunDomain WorkflowDomain SqlTable ControlPlaneSchema RunStore WorkflowStore
open ControlPlane StoreWrites RequestTable WorkflowNodes WorkflowPhases WorkflowEvents
open WorkflowMoves
open ExecutionInputs (FloatFormat)
open FallibleLists

/-- The Run `activate` creates for a pinned execution. -/
def launchedRun (F : FloatFormat) (n : WorkflowNodeRunRow) (now : Instant)
    (e : WorkflowNodeExecutionRow) : RunRow :=
  normalRun (preparedExecution F n.id n.jobId e) none now

def launchedExecution (e : WorkflowNodeExecutionRow) : WorkflowNodeExecutionRow :=
  { e with runId := some e.prospectiveRunId }

def startedNode (now : Instant) (n : WorkflowNodeRunRow) : WorkflowNodeRunRow :=
  { n with state := .running, startedAt := some now }

structure Activates (F : FloatFormat) (s t : Store) (n : WorkflowNodeRunRow) (now : Instant) :
    Prop where
  runs : t.runs = s.runs ++ (preparedExecutions s n.id).map (launchedRun F n now)
  nodeRuns : t.workflowNodeRuns = update (fun m => m.id = n.id) (startedNode now) s.workflowNodeRuns
  executions : t.workflowNodeExecutions =
    update (fun e => e.nodeRunId = n.id) launchedExecution s.workflowNodeExecutions
  workflowRuns : t.workflowRuns = s.workflowRuns
  edges : t.workflowRunEdges = s.workflowRunEdges
  events : t.workflowCompletionEvents = s.workflowCompletionEvents

theorem createNormalRun_orchestration {ids : DispatchIds} {prepared : PreparedRun} {now : Instant}
    {s t : Store} (h : createNormalRun ids prepared now s = .ok t) :
    t.runs = s.runs ++ [normalRun prepared none now] ∧ t.workflowRuns = s.workflowRuns ∧
      t.workflowNodeRuns = s.workflowNodeRuns ∧ t.workflowRunEdges = s.workflowRunEdges ∧
      t.workflowNodeExecutions = s.workflowNodeExecutions ∧
      t.workflowCompletionEvents = s.workflowCompletionEvents := by
  obtain ⟨s₁, s₂, h₁, h₂, rfl⟩ := createNormalRun_ok h
  obtain ⟨_, _, _, _, _, rfl⟩ := insertRun_ok h₁
  obtain ⟨_, _, rfl⟩ := createAttemptAndOutbox_ok h₂
  exact ⟨rfl, rfl, rfl, rfl, rfl, rfl⟩

/-- The loop of `activate` over the executions of a node. -/
theorem launchExecutions_tables {dispatch : Launching} {nodeId jobId : Uuid}
    {now : Instant} {rows : List WorkflowNodeExecutionRow} {s t : Store}
    (h : launchExecutions dispatch nodeId jobId now rows s = .ok t) :
    t.runs = s.runs ++ rows.map (fun e =>
        normalRun (preparedExecution dispatch.floats nodeId jobId e) none now) ∧
      t.workflowNodeExecutions = update (fun e => e.nodeRunId = nodeId &&
        decide (e.targetId ∈ rows.map WorkflowNodeExecutionRow.targetId) && e.runId.isNone)
        launchedExecution s.workflowNodeExecutions ∧
      t.workflowRuns = s.workflowRuns ∧ t.workflowNodeRuns = s.workflowNodeRuns ∧
      t.workflowRunEdges = s.workflowRunEdges ∧
      t.workflowCompletionEvents = s.workflowCompletionEvents := by
  induction rows generalizing s with
  | nil =>
    cases h
    refine ⟨by simp, ?_, rfl, rfl, rfl, rfl⟩
    rw [update_of_none]
    simp
  | cons e rest ih =>
    obtain ⟨s₁, h₁, h₂⟩ := ok_of_bind h
    obtain ⟨hruns, hworkflowRuns, hnodes, hedges, hexecutions, hevents⟩ :=
      createNormalRun_orchestration h₁
    obtain ⟨hruns', hexecutions', hworkflowRuns', hnodes', hedges', hevents'⟩ := ih h₂
    refine ⟨?_, ?_, hworkflowRuns'.trans hworkflowRuns, hnodes'.trans hnodes,
      hedges'.trans hedges, hevents'.trans hevents⟩
    · rw [hruns']
      change s₁.runs ++ _ = _
      rw [hruns, List.append_assoc]
      rfl
    · rw [hexecutions']
      change update _ _ (update _ launchedExecution s₁.workflowNodeExecutions) = _
      rw [hexecutions, update_update]
      · apply update_congr
        intro row _
        congr 1
        simp only [List.map_cons, List.mem_cons, Bool.decide_or]
        cases decide (row.nodeRunId = nodeId) <;> cases decide (row.targetId = e.targetId) <;>
          cases row.runId.isNone <;> simp
      · intro row _
        simp [launchedExecution]

theorem mem_preparedExecutions {s : Store} {nodeId : Uuid} {e : WorkflowNodeExecutionRow} :
    e ∈ preparedExecutions s nodeId ↔ e ∈ s.workflowNodeExecutions ∧ e.nodeRunId = nodeId := by
  simp [preparedExecutions, List.mem_insertionSort]

theorem activatable_iff {s : Store} {nodeId : Uuid} {n : WorkflowNodeRunRow} :
    activatable s nodeId n = true ↔ n.id = nodeId ∧ (n.state = .pending ∨ n.state = .ready) ∧
      ∃ w ∈ s.workflowRuns, n.workflowRunId = w.id ∧ w.cancellationRequested = false ∧
        w.state = .running := by
  simp [activatable, and_assoc]

theorem activate_nodes {dispatch : Launching} {now : Instant} {nodeId : Uuid}
    {s t : Store} (h : activate dispatch now nodeId s = .ok t) :
    t.workflowRunEdges = s.workflowRunEdges ∧
      ∀ n ∈ t.workflowNodeRuns, n ∈ s.workflowNodeRuns ∨ n.state = .running := by
  unfold activate at h
  split at h
  · cases h
    exact ⟨rfl, fun _ hn => .inl hn⟩
  · obtain ⟨_, _, _, hnodes, hedges, _⟩ := launchExecutions_tables h
    refine ⟨hedges, fun n' hn' => ?_⟩
    rw [hnodes] at hn'
    rcases update_cases hn' with ⟨hn', _⟩ | ⟨n, _, _, rfl⟩
    · exact .inl hn'
    · exact .inr rfl

/-- `activate` does nothing, or launches a pending node of a running invocation. -/
theorem activate_cases {dispatch : Launching} {now : Instant} {nodeId : Uuid}
    {s t : Store} (hp : Phased s) (h : activate dispatch now nodeId s = .ok t) :
    (t = s ∧ ∀ n ∈ s.workflowNodeRuns, activatable s nodeId n = false) ∨
      ∃ n ∈ s.workflowNodeRuns, n.id = nodeId ∧ n.state = .pending ∧
        Activates dispatch.floats s t n now := by
  unfold activate at h
  split at h
  · rename_i hnone
    cases h
    refine .inl ⟨rfl, ?_⟩
    intro n hn
    simpa using List.find?_eq_none.mp hnone n hn
  · rename_i n hfind
    have hn := List.mem_of_find?_eq_some hfind
    have hactivatable := List.find?_some hfind
    obtain ⟨rfl, hstate, _⟩ := activatable_iff.mp hactivatable
    have hpending : n.state = .pending := hstate.resolve_right (hp.not_ready hn)
    have hu := Unlaunched.of_pending hp hn hpending
    obtain ⟨hruns, hexecutions, hworkflowRuns, hnodes, hedges, hevents⟩ :=
      launchExecutions_tables h
    refine .inr ⟨n, hn, rfl, hpending, hruns, ?_, ?_, hworkflowRuns, hedges, hevents⟩
    · rw [hnodes]
      apply update_congr
      intro m hm
      by_cases hid : m.id = n.id
      · rw [row_unique hp.keys.nodeRuns hm hn hid]
        simp [hactivatable, startedNode]
      · have hnot : activatable s n.id m = false := by
          rw [Bool.eq_false_iff]
          exact fun hm => hid (activatable_iff.mp hm).1
        simp [hnot, hid]
    · rw [hexecutions]
      apply update_congr
      intro e he
      by_cases hnode : e.nodeRunId = n.id
      · have htarget : e.targetId ∈ (preparedExecutions s n.id).map
            WorkflowNodeExecutionRow.targetId :=
          List.mem_map_of_mem (mem_preparedExecutions.mpr ⟨he, hnode⟩)
        have hnone := hu.executions e he hnode
        simp [hnode, htarget, hnone]
      · simp [hnode]

theorem Activates.moves {F : FloatFormat} {s t : Store} {n : WorkflowNodeRunRow}
    {now : Instant}
    (ha : Activates F s t n now) (hsteady : Steady s t) (hk : KeysUnique s)
    (hn : n ∈ s.workflowNodeRuns) (hpending : n.state = .pending) :
    Moves s t n (startedNode now n) where
  steady := hsteady
  mem := hn
  opened := .inl hpending
  evolves := by
    have hn' : startedNode now n ∈ t.workflowNodeRuns := by
      rw [ha.nodeRuns]
      exact mem_update.mpr ⟨n, hn, by simp⟩
    exact hsteady.toKept.node hn hn' rfl
  nodeRuns := by
    rw [ha.nodeRuns]
    exact mem_update_node hk.nodeRuns hn (fun m _ => decide_eq_true_iff) _
  executions := by
    intro e he hnode
    rw [ha.executions] at he
    rcases update_cases he with ⟨he, _⟩ | ⟨e₀, _, hsel, rfl⟩
    · exact he
    · exact absurd (of_decide_eq_true hsel) hnode
  runs := by
    intro r hr
    rw [ha.runs]
    exact List.mem_append_left _ hr
  launched := by
    intro r hr
    rw [ha.runs] at hr
    rcases List.mem_append.mp hr with hr | hr
    · exact .inl hr
    · obtain ⟨e, _, rfl⟩ := List.mem_map.mp hr
      exact .inr rfl
  workflowRuns := ha.workflowRuns
  events := ha.events

theorem Activates.execution {F : FloatFormat} {s t : Store} {n : WorkflowNodeRunRow}
    {now : Instant}
    (ha : Activates F s t n now) {e : WorkflowNodeExecutionRow} (he : e ∈ s.workflowNodeExecutions)
    (hnode : e.nodeRunId = n.id) :
    launchedExecution e ∈ t.workflowNodeExecutions ∧ launchedRun F n now e ∈ t.runs := by
  constructor
  · rw [ha.executions]
    exact mem_update.mpr ⟨e, he, by simp [hnode]⟩
  · rw [ha.runs]
    exact List.mem_append_right _
      (List.mem_map_of_mem (mem_preparedExecutions.mpr ⟨he, hnode⟩))

theorem pinned_launchedRun (F : FloatFormat) (n : WorkflowNodeRunRow) (now : Instant)
    (e : WorkflowNodeExecutionRow) :
    Pinned (startedNode now n) (launchedExecution e) (launchedRun F n now e) :=
  ⟨rfl, rfl, rfl, rfl, rfl, rfl, F, rfl⟩

theorem Activates.launched {F : FloatFormat} {s t : Store} {n : WorkflowNodeRunRow}
    {now : Instant}
    (ha : Activates F s t n now) (hsteady : Steady s t) (hp : Phased s)
    (hn : n ∈ s.workflowNodeRuns) (hpending : n.state = .pending) (hready : Ready s n.id) :
    Launched t (startedNode now n) where
  started := Option.some_ne_none now
  ready := by
    change Ready t n.id
    exact Ready.kept hp.charted hsteady.toKept hn hready
  executions := by
    intro e he hnode
    rw [ha.executions] at he
    rcases update_cases he with ⟨he, hnot⟩ | ⟨e₀, he₀, hsel, rfl⟩
    · exact absurd hnode (of_decide_eq_false hnot)
    · obtain ⟨_, hr⟩ := ha.execution he₀ (of_decide_eq_true hsel)
      exact ⟨rfl, launchedRun F n now e₀, hr, pinned_launchedRun F n now e₀⟩
  runs := by
    intro r hr hrequest
    rw [ha.runs] at hr
    rcases List.mem_append.mp hr with hr | hr
    · exact absurd hrequest ((Unlaunched.of_pending hp hn hpending).runs r hr)
    · obtain ⟨e, he, rfl⟩ := List.mem_map.mp hr
      obtain ⟨he, hnode⟩ := mem_preparedExecutions.mp he
      exact ⟨launchedExecution e, (ha.execution he hnode).1, hnode, pinned_launchedRun F n now e⟩
  state := .inl rfl

theorem Activates.woken {F : FloatFormat} {s t : Store} {n : WorkflowNodeRunRow}
    {now : Instant}
    (ha : Activates F s t n now) (hc : Charted s) (hn : n ∈ s.workflowNodeRuns) (ids : List Uuid) :
    Woken t ids n.id := by
  obtain ⟨e, he, hnode⟩ := hc.nonempty hn
  obtain ⟨he', hr⟩ := ha.execution he hnode
  exact .inl ⟨launchedRun F n now e, ⟨hr, launchedExecution e, he', hnode, rfl⟩, rfl⟩

/-- Activating the node at the head of the queue: it is launched, or it was not pending. -/
theorem Underway.activate {dispatch : Launching} {now : Instant} {nodeId : Uuid}
    {workflowRunId : Uuid} {ids rest queue : List Uuid} {s t : Store}
    (hu : Underway s workflowRunId ids rest (nodeId :: queue)) (hready : Ready s nodeId)
    (h : activate dispatch now nodeId s = .ok t) :
    Underway t workflowRunId ids rest queue ∧ Foreground s t := by
  have hsteady : Steady s t := by
    have hwrites : Writes (.activate dispatch.floats) s t := activate_writes rfl h
    exact Writes.steady hwrites rfl hu.phased.keys
  obtain ⟨m, hm, rfl, hown⟩ := hu.queued nodeId List.mem_cons_self
  rcases activate_cases hu.phased h with ⟨rfl, hnot⟩ | ⟨n, hn, hid, hpending, ha⟩
  · refine ⟨?_, .refl hu.phased.keys⟩
    refine { hu with decided := ?_, queued := fun x hx => hu.queued x (List.mem_cons_of_mem _ hx) }
    intro k hk hpending
    refine (hu.decided k hk hpending).imp id fun hmem => ?_
    rcases List.mem_cons.mp hmem with heq | hmem
    · -- a pending node of this invocation would have been activatable
      obtain ⟨w, hw, hwid⟩ := hu.phased.charted.owner k hk
      have hflag : w.cancellationRequested = false := by
        rw [Bool.eq_false_iff]
        exact fun hflag => hu.uncancelled k hk hpending ⟨w, hw, hwid, hflag⟩
      have hactivatable : activatable t m.id k = true := activatable_iff.mpr
        ⟨heq, .inl hpending, w, hw, hwid.symm, hflag,
          hu.owner_running hk (.inl hpending) hw hwid.symm⟩
      rw [hnot k hk] at hactivatable
      cases hactivatable
    · exact hmem
  · obtain rfl := row_unique hu.phased.keys.nodeRuns hn hm hid
    have hmoves := ha.moves hsteady hu.phased.keys hn hpending
    refine ⟨?_, hmoves.foreground⟩
    refine hu.moves hmoves hown (.inr (ha.launched hsteady hu.phased hn hpending hready)) nofun
      (fun _ => ha.woken hu.phased.charted hn ids) (fun _ hx _ => hx) ?_ nofun ?_
    · intro x hx hne
      exact (List.mem_cons.mp hx).resolve_left hne
    · intro x hx
      exact .inl (List.mem_cons_of_mem _ hx)

end WorkflowActivation
