import Crono.RunStore

/-! Workflow launch, activation, dependency evaluation and cancellation, one definition per
function of the adapter. A reconcile pass holds the row lock of its invocation from its first
statement to its commit, so only the completion events and the child statuses it read may be
older than the store it commits to; both are arguments. -/
namespace WorkflowStore

open RunDomain WorkflowDomain SqlTable ControlPlaneSchema RunStore
open ExecutionInputs (FloatFormat)
open StoredValues (columnInputs rereadColumn stored)
open FallibleLists

structure WorkflowLaunch where
  workflowId : Uuid
  revision : ℕ
  requestId : Uuid
  target : TargetSelection
  inputs : Value
  authorizedTargets : List Uuid
  deriving DecidableEq, Repr

/-- The identifiers drawn for the children of a node and Target, and how their pinned snapshots are
read. -/
structure Launching where
  ids : Uuid → Uuid → DispatchIds
  floats : FloatFormat

/-- The identifiers drawn by one launch. Node names are unique within a Workflow. -/
structure FreshLaunch where
  workflowRunId : Uuid
  nodeRunId : String → Uuid
  runId : String → Uuid → Uuid
  dispatch : Uuid → Uuid → DispatchIds

structure WorkflowRecord where
  id : Uuid
  namespaceId : Uuid
  revision : ℕ
  definition : WorkflowDefinition
  deriving DecidableEq, Repr

structure WorkflowChildRun where
  targetId : Uuid
  runId : Uuid
  deriving DecidableEq, Repr

structure WorkflowNodeRunRecord where
  id : Uuid
  workflowNodeId : Uuid
  name : String
  jobId : Uuid
  state : WorkflowNodeState
  runs : List WorkflowChildRun
  startedAt : Option Instant
  finishedAt : Option Instant
  deriving DecidableEq, Repr

structure WorkflowRunRecord where
  id : Uuid
  requestId : Uuid
  workflow : WorkflowRecord
  target : TargetSelection
  inputs : Value
  state : WorkflowState
  cancellationRequested : Bool
  nodes : List WorkflowNodeRunRecord
  startedAt : Option Instant
  finishedAt : Option Instant
  deriving DecidableEq, Repr

def isNameBoundary (c : Char) : Bool := c.isLower || c.isDigit

def isNameCharacter (c : Char) : Bool := isNameBoundary c || c = '-'

/-- `validate_resource_name`. -/
def validateResourceName (value : String) : Bool :=
  value.utf8ByteSize ≤ 63 && value.toList.head?.any isNameBoundary &&
    value.toList.tail.all isNameCharacter && value.toList.getLast?.any isNameBoundary

def resourceName (value : String) : Except StoreError String :=
  if validateResourceName value then .ok value else .error .internal

/-- Convert trusted persisted graph data, rejecting corruption instead of guessing. -/
def StoredWorkflow.record (w : StoredWorkflow) : Except StoreError WorkflowRecord := do
  let _ ← resourceName w.name
  let _ ← w.nodes.mapM fun n => resourceName n.name
  let _ ← w.edges.mapM fun e => do
    let _ ← resourceName e.source
    resourceName e.target
  match w.definition.validate with
  | .error _ => throw .internal
  | .ok () => return ⟨w.id, w.namespaceId, w.revision, w.definition⟩

def catalog (c : Catalog) (id : Uuid) : Except StoreError StoredWorkflow :=
  match c.workflows.find? fun w => w.id = id with
  | none => .error .notFound
  | some w => .ok w

def childRuns (s : Store) (nodeId : Uuid) : List WorkflowChildRun :=
  (((s.workflowNodeExecutions.filter fun e => e.nodeRunId = nodeId).insertionSort
    fun a b => a.targetId ≤ b.targetId).filterMap fun e => e.runId.map fun r => ⟨e.targetId, r⟩)

def nodeRecord (s : Store) (n : WorkflowNodeRunRow) : Except StoreError WorkflowNodeRunRecord := do
  let name ← resourceName n.name
  return ⟨n.id, n.workflowNodeId, name, n.jobId, n.state, childRuns s n.id, n.startedAt,
    n.finishedAt⟩

def invocation (s : Store) (id : Uuid) : Except StoreError WorkflowRunRecord :=
  match s.workflowRuns.find? fun w => w.id = id with
  | none => .error .notFound
  | some row => do
    let nodes ← ((s.workflowNodeRuns.filter fun n => n.workflowRunId = id).insertionSort
      fun a b => a.name ≤ b.name).mapM (nodeRecord s)
    let workflow ← StoredWorkflow.record row.definitionSnapshot
    let target ← targetSelection row.targetId row.targetSetId
    return ⟨row.id, row.requestId, workflow, target, row.inputs, row.state,
      row.cancellationRequested, nodes, row.startedAt, row.finishedAt⟩

/-- The guard of the update in `activate`. -/
def activatable (s : Store) (nodeId : Uuid) (n : WorkflowNodeRunRow) : Bool :=
  n.id = nodeId && (n.state = .pending || n.state = .ready) &&
    s.workflowRuns.any fun w => n.workflowRunId = w.id && !w.cancellationRequested &&
      w.state = .running

def preparedExecutions (s : Store) (nodeId : Uuid) : List WorkflowNodeExecutionRow :=
  (s.workflowNodeExecutions.filter fun e => e.nodeRunId = nodeId).insertionSort
    fun a b => a.targetId ≤ b.targetId

/-- A pinned execution as `activate` reads it: the snapshot is decoded from `jsonb`. -/
def preparedExecution (F : FloatFormat) (nodeId jobId : Uuid) (e : WorkflowNodeExecutionRow) :
    PreparedRun :=
  { id := e.prospectiveRunId, requestId := nodeId, jobId := jobId, targetId := e.targetId
    queueId := e.queueId, maxAttempts := e.maxAttempts
    snapshot := rereadColumn F e.executionSnapshot }

/-- `UPDATE .. SET run_id = prospective_run_id .. AND run_id IS NULL`. -/
def recordLaunch (nodeId targetId : Uuid) (s : Store) : Store :=
  updateNodeExecutions
    (fun e => e.nodeRunId = nodeId && e.targetId = targetId && e.runId.isNone)
    (fun e => { e with runId := some e.prospectiveRunId }) s

/-- The loop of `activate`. -/
def launchExecutions (dispatch : Launching) (nodeId jobId : Uuid) (now : Instant) :
    List WorkflowNodeExecutionRow → Store → Except StoreError Store
  | [], s => .ok s
  | execution :: rest, s => do
    let s ← createNormalRun (dispatch.ids nodeId execution.targetId)
      (preparedExecution dispatch.floats nodeId jobId execution) now s
    launchExecutions dispatch nodeId jobId now rest (recordLaunch nodeId execution.targetId s)

/-- The update of the node in `activate`. -/
def startNode (now : Instant) (nodeId : Uuid) (s : Store) : Store :=
  updateNodeRuns (activatable s nodeId)
    (fun n => { n with state := .running, startedAt := some now }) s

/-- Create a node's one normal invocation using the shared Run path. -/
def activate (dispatch : Launching) (now : Instant) (nodeId : Uuid) (s : Store) :
    Except StoreError Store :=
  match s.workflowNodeRuns.find? (activatable s nodeId) with
  | none => .ok s
  | some node =>
    launchExecutions dispatch nodeId node.jobId now (preparedExecutions s nodeId)
      (startNode now nodeId s)

structure PreparedTotals where
  count : ℕ
  bytes : ℕ

def prepareExecution (R : Rendering) (fresh : FreshLaunch) (definition : StoredWorkflow)
    (launch : WorkflowLaunch) (node : StoredNode) (targetSetInputs : Option Value)
    (execution : ExecutionRow) (bytes : ℕ) (s : Store) : Except StoreError (ℕ × Store) :=
  if execution.namespaceId ≠ definition.namespaceId then .error .invalidData
  else
    let runId := fresh.runId node.name execution.targetId
    match executionSnapshotWithInputs R runId execution targetSetInputs launch.inputs .manual
        none with
    | .error _ => .error .invalidData
    | .ok snapshot =>
      let bytes := bytes + R.snapshotBytes snapshot
      if 8 * 1024 * 1024 < bytes then .error .workflowLaunchTooLarge
      else do
        let s ← insertNodeExecution
          { nodeRunId := fresh.nodeRunId node.name, targetId := execution.targetId
            prospectiveRunId := runId, runId := none, queueId := execution.queueId
            maxAttempts := execution.maxAttempts, executionSnapshot := .execution snapshot } s
        return (bytes, s)

def prepareExecutions (R : Rendering) (fresh : FreshLaunch) (definition : StoredWorkflow)
    (launch : WorkflowLaunch) (node : StoredNode) (targetSetInputs : Option Value) :
    List ExecutionRow → ℕ → Store → Except StoreError (ℕ × Store)
  | [], bytes, s => .ok (bytes, s)
  | execution :: rest, bytes, s => do
    let (bytes, s) ← prepareExecution R fresh definition launch node targetSetInputs execution
      bytes s
    prepareExecutions R fresh definition launch node targetSetInputs rest bytes s

/-- Equality of the two `BTreeSet`s of Target ids. -/
def sameTargets (actual authorized : List Uuid) : Bool :=
  (actual.all fun t => t ∈ authorized) && authorized.all fun t => t ∈ actual

def nodeRunRow (fresh : FreshLaunch) (node : StoredNode) : WorkflowNodeRunRow :=
  { id := fresh.nodeRunId node.name, workflowRunId := fresh.workflowRunId
    workflowNodeId := node.id, name := node.name, jobId := node.jobId, state := .pending
    startedAt := none, finishedAt := none }

/-- One round of the loop of `prepare_nodes`. -/
def prepareNode (R : Rendering) (fresh : FreshLaunch) (definition : StoredWorkflow)
    (launch : WorkflowLaunch) (node : StoredNode) (totals : PreparedTotals) (s : Store) :
    Except StoreError (PreparedTotals × Store) := do
  let s ← insertNodeRun (nodeRunRow fresh node) s
  let s ← insertRunRequest ⟨fresh.nodeRunId node.name, definition.namespaceId, node.jobId,
    (selectionIds launch.target).1, (selectionIds launch.target).2, launch.inputs⟩ s
  let (executions, targetSetInputs) ← loadSelectionExecutions s.catalog node.jobId launch.target
  if !sameTargets (executions.map ExecutionRow.targetId) launch.authorizedTargets then
    throw .staleRevision
  if 4096 < totals.count + executions.length then throw .workflowLaunchTooLarge
  let (bytes, s) ← prepareExecutions R fresh definition launch node targetSetInputs executions
    totals.bytes s
  return (⟨totals.count + executions.length, bytes⟩, s)

/-- Bound and pin prepared normal executions for every authorized node and Target pair. -/
def prepareNodes (R : Rendering) (fresh : FreshLaunch) (definition : StoredWorkflow)
    (launch : WorkflowLaunch) : List StoredNode → PreparedTotals → Store → Except StoreError Store
  | [], _, s => .ok s
  | node :: rest, totals, s => do
    let (totals, s) ← prepareNode R fresh definition launch node totals s
    prepareNodes R fresh definition launch rest totals s

/-- `node_ids.get(name).ok_or(Internal)`. -/
def preparedNodeId (fresh : FreshLaunch) (definition : StoredWorkflow) (name : String) :
    Except StoreError Uuid :=
  if definition.nodes.any fun n => n.name = name then .ok (fresh.nodeRunId name)
  else .error .internal

def insertRunEdges (fresh : FreshLaunch) (definition : StoredWorkflow) :
    List WorkflowEdge → Store → Except StoreError Store
  | [], s => .ok s
  | edge :: rest, s => do
    let source ← preparedNodeId fresh definition edge.source
    let target ← preparedNodeId fresh definition edge.target
    let s ← insertRunEdge ⟨fresh.workflowRunId, source, target, edge.condition⟩ s
    insertRunEdges fresh definition rest s

def activateRoots (F : FloatFormat) (fresh : FreshLaunch) (definition : StoredWorkflow)
    (now : Instant) : List StoredNode → Store → Except StoreError Store
  | [], s => .ok s
  | node :: rest, s =>
    if definition.edges.any fun edge => edge.target = node.name then
      activateRoots F fresh definition now rest s
    else do
      let s ← activate ⟨fresh.dispatch, F⟩ now (fresh.nodeRunId node.name) s
      activateRoots F fresh definition now rest s

def workflowRunRow (fresh : FreshLaunch) (definition : StoredWorkflow) (launch : WorkflowLaunch)
    (now : Instant) : WorkflowRunRow :=
  { id := fresh.workflowRunId, requestId := launch.requestId, workflowId := launch.workflowId
    namespaceId := definition.namespaceId, definitionSnapshot := definition
    targetId := (selectionIds launch.target).1, targetSetId := (selectionIds launch.target).2
    inputs := launch.inputs, state := .running, cancellationRequested := false
    startedAt := some now, finishedAt := none }

def startFresh (R : Rendering) (fresh : FreshLaunch) (launch : WorkflowLaunch) (now : Instant)
    (s : Store) : Except StoreError ((WorkflowRunRecord × Bool) × Store) := do
  let definition ← catalog s.catalog launch.workflowId
  if definition.revision ≠ launch.revision then throw .staleRevision
  let s ← insertWorkflowRun (workflowRunRow fresh definition launch now) s
  let s ← prepareNodes R fresh definition launch definition.nodes ⟨0, 0⟩ s
  let s ← insertRunEdges fresh definition definition.edges s
  let s ← activateRoots R.floats fresh definition now definition.nodes s
  let record ← invocation s fresh.workflowRunId
  return ((record, true), s)

/-- A launch whose request id already has an invocation; its inputs are decoded from `jsonb`. -/
def replayLaunch (F : FloatFormat) (s : Store) (existing : WorkflowRunRow)
    (launch : WorkflowLaunch) : Except StoreError (WorkflowRunRecord × Bool) := do
  let record ← invocation s existing.id
  if record.workflow.id ≠ launch.workflowId || record.target ≠ launch.target ||
      !jsonInputsEqual (stored F (columnInputs record.inputs)) launch.inputs then
    throw .idempotencyConflict
  return (record, false)

/-- `start`. The advisory lock serialises launches of one request id. -/
def start (R : Rendering) (fresh : FreshLaunch) (launch : WorkflowLaunch) (now : Instant)
    (s : Store) : Outcome (WorkflowRunRecord × Bool) :=
  match s.workflowRuns.find? fun w => w.requestId = launch.requestId with
  | some existing => (replayLaunch R.floats s existing launch, s)
  | none => commit s (startFresh R fresh launch now s)

/-- The order in which a loop visits node ids; the adapter's own is the identity. -/
structure QueueOrder where
  arrange : List Uuid → List Uuid
  perm : ∀ ids, (arrange ids).Perm ids

def QueueOrder.ascending : QueueOrder := ⟨id, fun _ => .refl _⟩

/-- The child statuses `complete_node` reads. -/
def childStatuses (s : Store) (nodeId : Uuid) : List RunStatus :=
  s.workflowNodeExecutions.flatMap fun e =>
    if e.nodeRunId = nodeId then
      (s.runs.filter fun r => some r.id = e.runId).map RunRow.status
    else []

def completionState (statuses : List RunStatus) : WorkflowNodeState :=
  if statuses.any fun s => s = .unknown then .unknown
  else if statuses.any fun s => s = .failed || s = .dead then .failed
  else if statuses.any fun s => s = .cancelled then .cancelled
  else if statuses.any fun s => s = .skipped then .skipped
  else .succeeded

/-- Aggregate only this node's children; retries are nonterminal and cannot unlock edges. -/
def completeNode (statuses : List RunStatus) (now : Instant) (nodeId : Uuid) (s : Store) :
    Bool × Store :=
  if statuses.isEmpty || statuses.any fun status => !status.isTerminal then (false, s)
  else
    let running : WorkflowNodeRunRow → Bool := fun n => n.id = nodeId && n.state = .running
    (s.workflowNodeRuns.countP running = 1,
      updateNodeRuns running
        (fun n => { n with state := completionState statuses, finishedAt := some now }) s)

def outgoing (s : Store) (id : Uuid) : List Uuid :=
  ((s.workflowRunEdges.filter fun e => e.fromNodeRunId = id).map
    WorkflowRunEdgeRow.toNodeRunId).insertionSort (· ≤ ·)

/-- The loop of `reconcile` over the affected nodes, filling `downstream`. -/
def completeNodes (order : QueueOrder) (observed : Uuid → List RunStatus) (now : Instant) :
    List Uuid → List Uuid → Store → List Uuid × Store
  | [], downstream, s => (downstream, s)
  | nodeId :: rest, downstream, s =>
    let step := completeNode (observed nodeId) now nodeId s
    completeNodes order observed now rest
      (if step.1 then downstream ++ order.arrange (outgoing step.2 nodeId) else downstream) step.2

/-- The `active` column `propagate` reads for one node. -/
def nodeActive (s : Store) (id : Uuid) : Option Bool :=
  (s.workflowNodeRuns.find? fun n => n.id = id).bind fun n =>
    (s.workflowRuns.find? fun w => w.id = n.workflowRunId).map fun w =>
      n.state = .pending && !w.cancellationRequested

def incomingStates (s : Store) (id : Uuid) : List (DependencyCondition × WorkflowNodeState) :=
  ((s.workflowRunEdges.filter fun e => e.toNodeRunId = id).insertionSort
    fun a b => a.fromNodeRunId ≤ b.fromNodeRunId).flatMap fun e =>
      (s.workflowNodeRuns.filter fun n => n.id = e.fromNodeRunId).map fun n =>
        (e.condition, n.state)

def skipNode (now : Instant) (id : Uuid) (s : Store) : Store :=
  updateNodeRuns (fun n => n.id = id && n.state = .pending)
    (fun n => { n with state := .skipped, finishedAt := some now }) s

/-- Reevaluate only affected pending nodes and recursively propagate terminal skips. A node
is skipped once and then enqueues its outgoing edges, so `rounds` bounded by the queue and
the edges is never exhausted. -/
def propagate (order : QueueOrder) (dispatch : Launching) (now : Instant) :
    ℕ → List Uuid → Store → Except StoreError Store
  | _, [], s => .ok s
  | 0, _ :: _, _ => .error .internal
  | rounds + 1, id :: queue, s =>
    match nodeActive s id with
    | none => .error .internal
    | some false => propagate order dispatch now rounds queue s
    | some true =>
      match dependencyDecision (incomingStates s id) with
      | .waiting => propagate order dispatch now rounds queue s
      | .ready => do
        let s ← activate dispatch now id s
        propagate order dispatch now rounds queue s
      | .skipped =>
        let s := skipNode now id s
        propagate order dispatch now rounds (queue ++ order.arrange (outgoing s id)) s

def openNode (workflowRunId : Uuid) (n : WorkflowNodeRunRow) : Bool :=
  n.workflowRunId = workflowRunId &&
    (n.state = .pending || n.state = .ready || n.state = .running)

def finish (now : Instant) (id : Uuid) (s : Store) : Store :=
  updateWorkflowRuns
    (fun w => w.id = id && w.state = .running && !s.workflowNodeRuns.any (openNode w.id))
    (fun w => { w with
      state := if w.cancellationRequested then .cancelled
        else if s.workflowNodeRuns.any fun n => n.workflowRunId = w.id &&
          (n.state = .failed || n.state = .unknown || n.state = .cancelled) then .failed
        else .succeeded
      finishedAt := some now }) s

/-- `SELECT run_id, node_run_id .. ORDER BY node_run_id, run_id`. -/
def completionEvents (s : Store) (workflowRunId : Uuid) : List (Uuid × Uuid) :=
  ((s.workflowCompletionEvents.filter fun e => e.workflowRunId = workflowRunId).map fun e =>
    (e.runId, e.nodeRunId)).insertionSort fun a b => a.2 < b.2 ∨ (a.2 = b.2 ∧ a.1 ≤ b.1)

/-- The `affected` set; the events are already in node order. -/
def affectedNodes (events : List (Uuid × Uuid)) : List Uuid := (events.map Prod.snd).dedup

/-- One transaction of `reconcile` on a locked invocation: the events it read, and for each
affected node the child statuses `complete_node` read. -/
def reconcileInvocation (order : QueueOrder) (dispatch : Launching)
    (observed : Uuid → List RunStatus) (now : Instant) (workflowRunId : Uuid)
    (events : List (Uuid × Uuid)) (s : Store) : Outcome Unit := commit s do
  let completed := completeNodes order observed now (order.arrange (affectedNodes events)) [] s
  let s ← propagate order dispatch now
    (completed.1.length + completed.2.workflowRunEdges.length) completed.1 completed.2
  let s := finish now workflowRunId s
  return ((), { s with
    workflowCompletionEvents := s.workflowCompletionEvents.filter fun e =>
      e.runId ∉ events.map Prod.fst })

def cancelPending (now : Instant) (id : Uuid) (s : Store) : Store :=
  updateNodeRuns (fun n => n.workflowRunId = id && (n.state = .pending || n.state = .ready))
    (fun n => { n with state := .cancelled, finishedAt := some now })
    (updateWorkflowRuns (fun w => w.id = id)
      (fun w => { w with cancellationRequested := true }) s)

def cancel (now : Instant) (id : Uuid) (s : Store) : Outcome WorkflowRunRecord := commit s do
  match s.workflowRuns.find? fun w => w.id = id with
  | none => throw .notFound
  | some w =>
    let s := if w.state = .running then finish now id (cancelPending now id s) else s
    let record ← invocation s id
    return (record, s)

/-- The execution row `prepare_nodes` inserts. -/
structure PinnedExecution (fresh : FreshLaunch) (node : StoredNode)
    (row : WorkflowNodeExecutionRow) : Prop where
  node_run : row.nodeRunId = fresh.nodeRunId node.name
  unlaunched : row.runId = none
  queue : row.executionSnapshot.queueId = some row.queueId

theorem record_ok {w : StoredWorkflow} {record : WorkflowRecord}
    (h : StoredWorkflow.record w = .ok record) : w.definition.validate = .ok () ∧
      record = ⟨w.id, w.namespaceId, w.revision, w.definition⟩ := by
  unfold StoredWorkflow.record at h
  obtain ⟨_, _, h⟩ := ok_of_bind h
  obtain ⟨_, _, h⟩ := ok_of_bind h
  obtain ⟨_, _, h⟩ := ok_of_bind h
  split at h
  · cases h
  · rename_i hvalid
    exact ⟨hvalid, (Except.ok.inj h).symm⟩

theorem prepareExecution_ok {R : Rendering} {fresh : FreshLaunch} {definition : StoredWorkflow}
    {launch : WorkflowLaunch} {node : StoredNode} {setInputs : Option Value}
    {execution : ExecutionRow} {bytes bytes' : ℕ} {s t : Store}
    (h : prepareExecution R fresh definition launch node setInputs execution bytes s =
      .ok (bytes', t)) :
    ∃ row, PinnedExecution fresh node row ∧ row.targetId = execution.targetId ∧
      execution.namespaceId = definition.namespaceId ∧
      insertNodeExecution row s = .ok t := by
  simp only [prepareExecution] at h
  split at h
  · cases h
  rename_i hnamespace
  split at h
  · cases h
  rename_i snapshot hsnapshot
  split at h
  · cases h
  · obtain ⟨s₁, h₁, h⟩ := ok_of_bind h
    cases h
    refine ⟨_, ?_, rfl, not_not.mp hnamespace, h₁⟩
    exact ⟨rfl, rfl, congrArg some (executionSnapshot_queueId hsnapshot)⟩

theorem prepareExecutions_ok {R : Rendering} {fresh : FreshLaunch} {definition : StoredWorkflow}
    {launch : WorkflowLaunch} {node : StoredNode} {setInputs : Option Value}
    {executions : List ExecutionRow} {bytes bytes' : ℕ} {s t : Store}
    (h : prepareExecutions R fresh definition launch node setInputs executions bytes s =
      .ok (bytes', t)) :
    ∃ pinned, t = { s with workflowNodeExecutions := s.workflowNodeExecutions ++ pinned } ∧
      pinned.map WorkflowNodeExecutionRow.targetId = executions.map ExecutionRow.targetId ∧
      ∀ e ∈ pinned, PinnedExecution fresh node e := by
  induction executions generalizing bytes s with
  | nil =>
    cases h
    exact ⟨[], by simp, rfl, fun e he => absurd he List.not_mem_nil⟩
  | cons execution rest ih =>
    obtain ⟨⟨bytes₁, s₁⟩, h₁, h₂⟩ := ok_of_bind h
    obtain ⟨row, hrow, htarget, _, hinsert⟩ := prepareExecution_ok h₁
    obtain ⟨_, _, _, _, _, rfl⟩ := insertNodeExecution_ok hinsert
    obtain ⟨pinned, rfl, htargets, hpinned⟩ := ih h₂
    refine ⟨row :: pinned, by simp, by simp [htarget, htargets], ?_⟩
    intro e he
    rcases List.mem_cons.mp he with rfl | he
    · exact hrow
    · exact hpinned e he

theorem loadSelectionExecutions_ne_nil {c : Catalog} {jobId : Uuid} {target : TargetSelection}
    {executions : List ExecutionRow} {setInputs : Option Value}
    (h : loadSelectionExecutions c jobId target = .ok (executions, setInputs)) :
    executions ≠ [] := by
  cases target with
  | target targetId =>
    obtain ⟨execution, _, h⟩ := ok_of_bind h
    cases h
    exact List.cons_ne_nil _ _
  | targetSet targetSetId =>
    simp only [loadSelectionExecutions] at h
    split at h
    · cases h
    split at h
    · cases h
    split at h
    · cases h
    rename_i hmembers
    obtain ⟨executions', hmap, h⟩ := ok_of_bind h
    cases h
    intro hnil
    rw [hnil] at hmap
    cases hids : memberTargets c targetSetId with
    | nil => simp [hids] at hmembers
    | cons x xs =>
      rw [hids, List.mapM_cons] at hmap
      obtain ⟨_, _, hmap⟩ := ok_of_bind hmap
      obtain ⟨_, _, hmap⟩ := ok_of_bind hmap
      cases hmap

theorem sameTargets_iff {actual authorized : List Uuid} :
    sameTargets actual authorized = true ↔ ∀ x, x ∈ actual ↔ x ∈ authorized := by
  simp only [sameTargets, Bool.and_eq_true, List.all_eq_true, decide_eq_true_eq]
  constructor
  · rintro ⟨hactual, hauthorized⟩ x
    exact ⟨hactual x, hauthorized x⟩
  · intro hsame
    exact ⟨fun x => (hsame x).mp, fun x => (hsame x).mpr⟩

theorem prepareNode_ok {R : Rendering} {fresh : FreshLaunch} {definition : StoredWorkflow}
    {launch : WorkflowLaunch} {node : StoredNode} {totals totals' : PreparedTotals} {s t : Store}
    (h : prepareNode R fresh definition launch node totals s = .ok (totals', t)) :
    ∃ request executions setInputs bytes' s₁ s₂,
      insertNodeRun (nodeRunRow fresh node) s = .ok s₁ ∧
      request.requestId = fresh.nodeRunId node.name ∧ request.jobId = node.jobId ∧
      insertRunRequest request s₁ = .ok s₂ ∧
      (loadSelectionExecutions s₂.catalog node.jobId launch.target = .ok (executions, setInputs) ∧
        ∀ x, x ∈ executions.map ExecutionRow.targetId ↔ x ∈ launch.authorizedTargets) ∧
      prepareExecutions R fresh definition launch node setInputs executions totals.bytes s₂ =
        .ok (bytes', t) := by
  obtain ⟨s₁, h₁, h⟩ := ok_of_bind h
  obtain ⟨s₂, h₂, h⟩ := ok_of_bind h
  obtain ⟨⟨executions, setInputs⟩, hload, h⟩ := ok_of_bind h
  simp only at h
  split at h
  · cases h
  rename_i hsame
  split at h
  · cases h
  obtain ⟨⟨bytes', s₃⟩, h₃, h⟩ := ok_of_bind h
  cases h
  refine ⟨_, executions, setInputs, bytes', s₁, s₂, h₁, rfl, rfl, h₂, ⟨hload, ?_⟩, h₃⟩
  exact sameTargets_iff.mp (by simpa using hsame)

/-- What `prepare_nodes` inserts: the nodes, one request each, and their executions, one per
authorized Target. -/
structure PreparedNodes (fresh : FreshLaunch) (targets : List Uuid) (nodes : List StoredNode)
    (requests : List RunRequestRow) (pinned : List WorkflowNodeExecutionRow) : Prop where
  requests : requests.map RunRequestRow.requestId = nodes.map fun n => fresh.nodeRunId n.name
  executions : ∀ e ∈ pinned, e.targetId ∈ targets ∧ ∃ node ∈ nodes, PinnedExecution fresh node e
  targets : ∀ node ∈ nodes, targets ≠ [] ∧ ∀ x ∈ targets,
    ∃ e ∈ pinned, e.nodeRunId = fresh.nodeRunId node.name ∧ e.targetId = x

theorem prepareNodes_ok {R : Rendering} {fresh : FreshLaunch} {definition : StoredWorkflow}
    {launch : WorkflowLaunch} {nodes : List StoredNode} {totals : PreparedTotals} {s t : Store}
    (h : prepareNodes R fresh definition launch nodes totals s = .ok t) :
    ∃ requests pinned, t = { s with
        workflowNodeRuns := s.workflowNodeRuns ++ nodes.map (nodeRunRow fresh)
        runRequests := s.runRequests ++ requests
        workflowNodeExecutions := s.workflowNodeExecutions ++ pinned } ∧
      PreparedNodes fresh launch.authorizedTargets nodes requests pinned := by
  induction nodes generalizing totals s with
  | nil =>
    cases h
    exact ⟨[], [], by simp, rfl, fun e he => absurd he List.not_mem_nil,
      fun n hn => absurd hn List.not_mem_nil⟩
  | cons node rest ih =>
    obtain ⟨⟨totals₁, s₁⟩, h₁, h₂⟩ := ok_of_bind h
    obtain ⟨request, executions, _, _, s₂, s₃, hnode, hid, _, hrequest, ⟨hload, hsame⟩, hprepare⟩ :=
      prepareNode_ok h₁
    obtain ⟨_, _, _, rfl⟩ := insertNodeRun_ok hnode
    obtain ⟨_, rfl⟩ := insertRunRequest_ok hrequest
    obtain ⟨pinned, rfl, htargets, hpinned⟩ := prepareExecutions_ok hprepare
    obtain ⟨requests, pinned', rfl, hrest⟩ := ih h₂
    rw [← htargets] at hsame
    refine ⟨request :: requests, pinned ++ pinned', by simp, ?_, ?_, ?_⟩
    · simp [hid, hrest.requests]
    · intro e he
      rcases List.mem_append.mp he with he | he
      · exact ⟨(hsame e.targetId).mp (List.mem_map_of_mem he), node, List.mem_cons_self,
          hpinned e he⟩
      · obtain ⟨htarget, n, hn, hrow⟩ := hrest.executions e he
        exact ⟨htarget, n, List.mem_cons_of_mem node hn, hrow⟩
    · intro n hn
      rcases List.mem_cons.mp hn with rfl | hn
      · constructor
        · intro hnil
          obtain ⟨execution, hmem⟩ :=
            List.exists_mem_of_ne_nil _ (loadSelectionExecutions_ne_nil hload)
          have htarget : execution.targetId ∈ pinned.map WorkflowNodeExecutionRow.targetId :=
            htargets ▸ List.mem_map_of_mem hmem
          have hnone := (hsame _).mp htarget
          rw [hnil] at hnone
          cases hnone
        · intro x hx
          obtain ⟨e, he, rfl⟩ := List.mem_map.mp ((hsame x).mpr hx)
          exact ⟨e, List.mem_append_left _ he, (hpinned e he).node_run, rfl⟩
      · obtain ⟨hne, hall⟩ := hrest.targets n hn
        refine ⟨hne, fun x hx => ?_⟩
        obtain ⟨e, he, hrow⟩ := hall x hx
        exact ⟨e, List.mem_append_right _ he, hrow⟩

def runEdgeRow (fresh : FreshLaunch) (edge : WorkflowEdge) : WorkflowRunEdgeRow :=
  ⟨fresh.workflowRunId, fresh.nodeRunId edge.source, fresh.nodeRunId edge.target, edge.condition⟩

theorem preparedNodeId_ok {fresh : FreshLaunch} {definition : StoredWorkflow} {name : String}
    {id : Uuid} (h : preparedNodeId fresh definition name = .ok id) :
    id = fresh.nodeRunId name ∧ ∃ node ∈ definition.nodes, node.name = name := by
  unfold preparedNodeId at h
  split at h
  · rename_i hany
    refine ⟨(Except.ok.inj h).symm, ?_⟩
    simpa using hany
  · cases h

theorem insertRunEdges_ok {fresh : FreshLaunch} {definition : StoredWorkflow}
    {edges : List WorkflowEdge} {s t : Store}
    (h : insertRunEdges fresh definition edges s = .ok t) :
    t = { s with workflowRunEdges := s.workflowRunEdges ++ edges.map (runEdgeRow fresh) } ∧
      ∀ edge ∈ edges, (∃ node ∈ definition.nodes, node.name = edge.source) ∧
        ∃ node ∈ definition.nodes, node.name = edge.target := by
  induction edges generalizing s with
  | nil =>
    cases h
    exact ⟨by simp, fun e he => absurd he List.not_mem_nil⟩
  | cons edge rest ih =>
    obtain ⟨source, hsource, h⟩ := ok_of_bind h
    obtain ⟨target, htarget, h⟩ := ok_of_bind h
    obtain ⟨s₁, h₁, h₂⟩ := ok_of_bind h
    obtain ⟨rfl, hsourceNode⟩ := preparedNodeId_ok hsource
    obtain ⟨rfl, htargetNode⟩ := preparedNodeId_ok htarget
    obtain ⟨_, _, rfl⟩ := insertRunEdge_ok h₁
    obtain ⟨rfl, hrest⟩ := ih h₂
    refine ⟨by simp [runEdgeRow], ?_⟩
    intro e he
    rcases List.mem_cons.mp he with rfl | he
    · exact ⟨hsourceNode, htargetNode⟩
    · exact hrest e he

theorem startFresh_ok {R : Rendering} {fresh : FreshLaunch} {launch : WorkflowLaunch}
    {now : Instant} {s t : Store} {answer : WorkflowRunRecord × Bool}
    (h : startFresh R fresh launch now s = .ok (answer, t)) :
    ∃ definition record s₁ s₂ s₃,
      insertWorkflowRun (workflowRunRow fresh definition launch now) s = .ok s₁ ∧
      prepareNodes R fresh definition launch definition.nodes ⟨0, 0⟩ s₁ = .ok s₂ ∧
      insertRunEdges fresh definition definition.edges s₂ = .ok s₃ ∧
      activateRoots R.floats fresh definition now definition.nodes s₃ = .ok t ∧
      invocation t fresh.workflowRunId = .ok record ∧ answer = (record, true) := by
  obtain ⟨definition, _, h⟩ := ok_of_bind h
  split at h
  · cases h
  obtain ⟨s₁, h₁, h⟩ := ok_of_bind h
  obtain ⟨s₂, h₂, h⟩ := ok_of_bind h
  obtain ⟨s₃, h₃, h⟩ := ok_of_bind h
  obtain ⟨s₄, h₄, h⟩ := ok_of_bind h
  obtain ⟨record, h₅, h⟩ := ok_of_bind h
  cases h
  exact ⟨definition, record, s₁, s₂, s₃, h₁, h₂, h₃, h₄, h₅, rfl⟩

theorem start_cases (R : Rendering) (fresh : FreshLaunch) (launch : WorkflowLaunch)
    (now : Instant) (s : Store) :
    (start R fresh launch now s).2 = s ∨
      ∃ answer t, startFresh R fresh launch now s = .ok (answer, t) ∧
        (start R fresh launch now s).2 = t := by
  unfold start
  split
  · exact .inl rfl
  · rcases commit_cases s (startFresh R fresh launch now s) with ⟨a, t, hx, hc⟩ | ⟨e, _, hc⟩
    · exact .inr ⟨a, t, hx, by rw [hc]⟩
    · exact .inl (by rw [hc])

theorem reconcileInvocation_cases (order : QueueOrder) (dispatch : Launching)
    (observed : Uuid → List RunStatus) (now : Instant) (workflowRunId : Uuid)
    (events : List (Uuid × Uuid)) (s : Store) :
    (reconcileInvocation order dispatch observed now workflowRunId events s).2 = s ∨
      ∃ t, propagate order dispatch now
          ((completeNodes order observed now (order.arrange (affectedNodes events)) [] s).1.length +
            (completeNodes order observed now (order.arrange (affectedNodes events)) []
              s).2.workflowRunEdges.length)
          (completeNodes order observed now (order.arrange (affectedNodes events)) [] s).1
          (completeNodes order observed now (order.arrange (affectedNodes events)) [] s).2 =
            .ok t ∧
        (reconcileInvocation order dispatch observed now workflowRunId events s).2 =
          { finish now workflowRunId t with
            workflowCompletionEvents :=
              (finish now workflowRunId t).workflowCompletionEvents.filter fun e =>
                e.runId ∉ events.map Prod.fst } := by
  unfold reconcileInvocation
  simp only
  generalize hx : propagate order dispatch now _ _ _ = x
  cases x with
  | error e => exact .inl rfl
  | ok t => exact .inr ⟨t, rfl, rfl⟩

theorem cancel_cases (now : Instant) (id : Uuid) (s : Store) :
    (cancel now id s).2 = s ∨
      ∃ w ∈ s.workflowRuns, w.id = id ∧ w.state = .running ∧
        (cancel now id s).2 = finish now id (cancelPending now id s) := by
  unfold cancel
  split
  · exact .inl rfl
  rename_i w hw
  by_cases hrunning : w.state = .running
  · simp only [hrunning, if_true]
    rcases hinv : invocation (finish now id (cancelPending now id s)) id with e | record
    · exact .inl rfl
    · exact .inr ⟨w, List.mem_of_find?_eq_some hw, by simpa using List.find?_some hw, hrunning,
        rfl⟩
  · simp only [hrunning, if_false]
    rcases hinv : invocation s id with e | record
    · exact .inl rfl
    · exact .inl rfl

end WorkflowStore
