import Crono.FallibleLists
import Crono.SqlTable
import Crono.RunDomain
import Crono.WorkflowDomain

/-! The tables of `crono`, their constraints on insertion, and the trigger that turns a
terminal Run status into a Workflow completion event. A violated unique, foreign key or
check constraint is the store error its SQLSTATE is classified as. -/
namespace ControlPlaneSchema

open RunDomain WorkflowDomain SqlTable

structure QueueRow where
  id : Uuid
  name : String
  enabled : Bool
  deriving DecidableEq, Repr

structure JobRow where
  id : Uuid
  namespaceId : Uuid
  name : String
  executor : ExecutorKind
  queueId : Uuid
  executable : Option String
  shellCommand : Option String
  arguments : List String
  inputs : Value
  idempotent : Bool
  dryRun : Bool
  maxAttempts : ℕ
  retryInitialSeconds : ℕ
  retryMaxSeconds : ℕ
  retryMultiplier : Decimal
  retryJitter : Decimal
  deriving DecidableEq, Repr

structure TargetRow where
  id : Uuid
  namespaceId : Uuid
  name : String
  arguments : List String
  inputs : Value
  deriving DecidableEq, Repr

structure TargetSetRow where
  id : Uuid
  namespaceId : Uuid
  name : String
  inputs : Value
  deriving DecidableEq, Repr

structure TargetSetMemberRow where
  targetSetId : Uuid
  targetId : Uuid
  deriving DecidableEq, Repr

structure StoredNode where
  id : Uuid
  name : String
  jobId : Uuid
  deriving DecidableEq, Repr

/-- A catalog graph as `catalog` reads it back: one `workflows` row with its nodes and
its edges by node name. -/
structure StoredWorkflow where
  id : Uuid
  namespaceId : Uuid
  name : String
  description : Option String
  revision : ℕ
  nodes : List StoredNode
  edges : List WorkflowEdge
  deriving DecidableEq, Repr

def StoredWorkflow.definition (w : StoredWorkflow) : WorkflowDefinition :=
  ⟨w.name, w.description, w.nodes.map fun n => ⟨n.name, n.jobId⟩, w.edges⟩

structure Catalog where
  queues : List QueueRow
  jobs : List JobRow
  targets : List TargetRow
  targetSets : List TargetSetRow
  targetSetMembers : List TargetSetMemberRow
  workflows : List StoredWorkflow
  deriving DecidableEq, Repr

structure ScheduleRow where
  id : Uuid
  namespaceId : Uuid
  jobId : Uuid
  targetId : Option Uuid
  targetSetId : Option Uuid
  inputs : Value
  enabled : Bool
  nextRunAt : Option Instant
  lastRunAt : Option Instant
  revision : ℕ
  claimOwner : Option Uuid
  claimExpiresAt : Option Instant
  deriving DecidableEq, Repr

structure RunRequestRow where
  requestId : Uuid
  namespaceId : Uuid
  jobId : Uuid
  targetId : Option Uuid
  targetSetId : Option Uuid
  inputs : Value
  deriving DecidableEq, Repr

structure RunRow where
  id : Uuid
  requestId : Option Uuid
  rerunOfRunId : Option Uuid
  scheduleId : Option Uuid
  jobId : Uuid
  targetId : Uuid
  queueId : Uuid
  scheduledAt : Instant
  status : RunStatus
  executionSnapshot : SnapshotColumn
  attemptCount : ℕ
  maxAttempts : ℕ
  nextRetryAt : Option Instant
  latenessSeconds : ℕ
  terminalReason : Option String
  queuedAt : Option Instant
  startedAt : Option Instant
  completedAt : Option Instant
  deriving DecidableEq, Repr

structure AttemptRow where
  id : Uuid
  runId : Uuid
  attempt : ℕ
  status : AttemptStatus
  workerId : Option String
  startedAt : Option Instant
  heartbeatAt : Option Instant
  leaseExpiresAt : Option Instant
  completedAt : Option Instant
  exitCode : Option ℤ
  stdoutTail : Option String
  stderrTail : Option String
  outputSequence : ℕ
  error : Option String
  deriving DecidableEq, Repr

structure OutboxRow where
  id : Uuid
  runId : Uuid
  attemptId : Uuid
  subject : DispatchSubject
  payload : DispatchEnvelope
  dispatchDeadline : Option Instant
  attemptCount : ℕ
  nextAttemptAt : Instant
  claimedBy : Option Uuid
  claimExpiresAt : Option Instant
  lastError : Option String
  publishedAt : Option Instant
  cancelledAt : Option Instant
  natsStreamSequence : Option ℕ
  deriving DecidableEq, Repr

/-- `published_at IS NULL AND cancelled_at IS NULL`. -/
def OutboxRow.unsettled (o : OutboxRow) : Bool :=
  o.publishedAt.isNone && o.cancelledAt.isNone

inductive RunEventType where
  | created
  | status (s : RunStatus)
  deriving DecidableEq, Repr

structure RunEventRow where
  runId : Uuid
  eventType : RunEventType
  createdAt : Instant
  deriving DecidableEq, Repr

structure ScheduleEventRow where
  scheduleId : Uuid
  eventType : RunEventType
  scheduledAt : Instant
  runId : Uuid
  latenessSeconds : ℕ
  reason : Option String
  targetId : Uuid
  terminalReason : Option String
  deriving DecidableEq, Repr

structure WorkflowRunRow where
  id : Uuid
  requestId : Uuid
  workflowId : Uuid
  namespaceId : Uuid
  definitionSnapshot : StoredWorkflow
  targetId : Option Uuid
  targetSetId : Option Uuid
  inputs : Value
  state : WorkflowState
  cancellationRequested : Bool
  startedAt : Option Instant
  finishedAt : Option Instant
  deriving DecidableEq, Repr

structure WorkflowNodeRunRow where
  id : Uuid
  workflowRunId : Uuid
  workflowNodeId : Uuid
  name : String
  jobId : Uuid
  state : WorkflowNodeState
  startedAt : Option Instant
  finishedAt : Option Instant
  deriving DecidableEq, Repr

structure WorkflowRunEdgeRow where
  workflowRunId : Uuid
  fromNodeRunId : Uuid
  toNodeRunId : Uuid
  condition : DependencyCondition
  deriving DecidableEq, Repr

structure WorkflowNodeExecutionRow where
  nodeRunId : Uuid
  targetId : Uuid
  prospectiveRunId : Uuid
  runId : Option Uuid
  queueId : Uuid
  maxAttempts : ℕ
  executionSnapshot : SnapshotColumn
  deriving DecidableEq, Repr

structure CompletionEventRow where
  runId : Uuid
  workflowRunId : Uuid
  nodeRunId : Uuid
  createdAt : Instant
  deriving DecidableEq, Repr

structure Store where
  catalog : Catalog
  schedules : List ScheduleRow
  runRequests : List RunRequestRow
  runs : List RunRow
  runAttempts : List AttemptRow
  outbox : List OutboxRow
  runEvents : List RunEventRow
  scheduleEvents : List ScheduleEventRow
  workflowRuns : List WorkflowRunRow
  workflowNodeRuns : List WorkflowNodeRunRow
  workflowRunEdges : List WorkflowRunEdgeRow
  workflowNodeExecutions : List WorkflowNodeExecutionRow
  workflowCompletionEvents : List CompletionEventRow
  deriving DecidableEq, Repr

def emptyStore (catalog : Catalog) (schedules : List ScheduleRow) : Store :=
  ⟨catalog, schedules, [], [], [], [], [], [], [], [], [], [], []⟩

/-- What a caller sees, with the database afterwards. A rolled back transaction is an
error beside the unchanged store. -/
abbrev Outcome (α : Type) := Except StoreError α × Store

def commit {α : Type} (s : Store) : Except StoreError (α × Store) → Outcome α
  | .ok (a, t) => (.ok a, t)
  | .error e => (.error e, s)

def insertRunRequest (row : RunRequestRow) (s : Store) : Except StoreError Store :=
  if s.runRequests.any fun r => r.requestId = row.requestId then .error .conflict
  else .ok { s with runRequests := s.runRequests ++ [row] }

/-- `runs`: primary key, occurrence index, foreign keys, the attempt bounds, and the
Namespace trigger. -/
def insertRun (row : RunRow) (s : Store) : Except StoreError Store :=
  if s.runs.any fun r => r.id = row.id then .error .conflict
  else if row.scheduleId.isSome && s.runs.any fun r => r.scheduleId = row.scheduleId &&
      r.scheduledAt = row.scheduledAt && r.targetId = row.targetId then .error .conflict
  else if !(row.attemptCount ≤ row.maxAttempts && 1 ≤ row.maxAttempts &&
      row.maxAttempts ≤ 100) then .error .internal
  else if !s.catalog.queues.any fun q => q.id = row.queueId then .error .inUse
  else
    match s.catalog.jobs.find? fun j => j.id = row.jobId,
      s.catalog.targets.find? fun t => t.id = row.targetId with
    | some job, some target =>
      if job.namespaceId = target.namespaceId then .ok { s with runs := s.runs ++ [row] }
      else .error .internal
    | _, _ => .error .inUse

def insertAttempt (row : AttemptRow) (s : Store) : Except StoreError Store :=
  if s.runAttempts.any fun a => a.id = row.id || (a.runId = row.runId && a.attempt = row.attempt)
  then .error .conflict
  else if row.attempt = 0 then .error .internal
  else if !s.runs.any fun r => r.id = row.runId then .error .inUse
  else .ok { s with runAttempts := s.runAttempts ++ [row] }

def insertOutbox (row : OutboxRow) (s : Store) : Except StoreError Store :=
  if s.outbox.any fun o => o.id = row.id || o.attemptId = row.attemptId then .error .conflict
  else if !s.runs.any fun r => r.id = row.runId then .error .inUse
  else if !s.runAttempts.any fun a => a.id = row.attemptId then .error .inUse
  else .ok { s with outbox := s.outbox ++ [row] }

def insertWorkflowRun (row : WorkflowRunRow) (s : Store) : Except StoreError Store :=
  if s.workflowRuns.any fun w => w.id = row.id || w.requestId = row.requestId then .error .conflict
  else if !(row.targetId.all fun t => s.catalog.targets.any fun x => x.id = t) ||
      !(row.targetSetId.all fun t => s.catalog.targetSets.any fun x => x.id = t) then .error .inUse
  else .ok { s with workflowRuns := s.workflowRuns ++ [row] }

def insertNodeRun (row : WorkflowNodeRunRow) (s : Store) : Except StoreError Store :=
  if s.workflowNodeRuns.any fun n => n.id = row.id ||
      (n.workflowRunId = row.workflowRunId && n.workflowNodeId = row.workflowNodeId)
  then .error .conflict
  else if !(s.workflowRuns.any fun w => w.id = row.workflowRunId) ||
      !(s.catalog.jobs.any fun j => j.id = row.jobId) then .error .inUse
  else .ok { s with workflowNodeRuns := s.workflowNodeRuns ++ [row] }

/-- `workflow_run_edges`: primary key, and both endpoints belong to the invocation. -/
def insertRunEdge (row : WorkflowRunEdgeRow) (s : Store) : Except StoreError Store :=
  if s.workflowRunEdges.any fun e => e.workflowRunId = row.workflowRunId &&
      e.fromNodeRunId = row.fromNodeRunId && e.toNodeRunId = row.toNodeRunId
  then .error .conflict
  else if !(s.workflowNodeRuns.any fun n => n.workflowRunId = row.workflowRunId &&
        n.id = row.fromNodeRunId) ||
      !(s.workflowNodeRuns.any fun n => n.workflowRunId = row.workflowRunId &&
        n.id = row.toNodeRunId) then .error .inUse
  else .ok { s with workflowRunEdges := s.workflowRunEdges ++ [row] }

def insertNodeExecution (row : WorkflowNodeExecutionRow) (s : Store) : Except StoreError Store :=
  if s.workflowNodeExecutions.any fun e => (e.nodeRunId = row.nodeRunId &&
      e.targetId = row.targetId) || e.prospectiveRunId = row.prospectiveRunId
  then .error .conflict
  else if !(1 ≤ row.maxAttempts && row.maxAttempts ≤ 100) then .error .internal
  else if !(s.workflowNodeRuns.any fun n => n.id = row.nodeRunId) ||
      !(s.catalog.targets.any fun t => t.id = row.targetId) ||
      !(s.catalog.queues.any fun q => q.id = row.queueId) then .error .inUse
  else .ok { s with workflowNodeExecutions := s.workflowNodeExecutions ++ [row] }

def insertRunEvent (runId : Uuid) (eventType : RunEventType) (now : Instant) (s : Store) : Store :=
  { s with runEvents := s.runEvents ++ [⟨runId, eventType, now⟩] }

/-- `INSERT INTO workflow_completion_events .. ON CONFLICT (run_id) DO NOTHING`. -/
def enqueueEvent (events : List CompletionEventRow) (row : CompletionEventRow) :
    List CompletionEventRow :=
  if events.any fun e => e.runId = row.runId then events else events ++ [row]

/-- The rows `enqueue_workflow_completion` selects for a Run. -/
def completionRows (executions : List WorkflowNodeExecutionRow) (nodes : List WorkflowNodeRunRow)
    (runId : Uuid) (now : Instant) : List CompletionEventRow :=
  executions.flatMap fun e =>
    if e.runId = some runId then
      (nodes.filter fun n => n.id = e.nodeRunId).map fun n => ⟨runId, n.workflowRunId, n.id, now⟩
    else []

/-- `crono.enqueue_workflow_completion`, after one updated row. -/
def enqueueWorkflowCompletion (executions : List WorkflowNodeExecutionRow)
    (nodes : List WorkflowNodeRunRow) (now : Instant) (events : List CompletionEventRow)
    (old new : RunRow) : List CompletionEventRow :=
  if new.status ≠ old.status ∧ new.status.isTerminal then
    (completionRows executions nodes new.id now).foldl enqueueEvent events
  else events

/-- `UPDATE crono.runs SET f WHERE p`, with its `AFTER UPDATE OF status` trigger. -/
def updateRuns (p : RunRow → Bool) (f : RunRow → RunRow) (now : Instant) (s : Store) : Store :=
  { s with
    runs := update p f s.runs
    workflowCompletionEvents := (s.runs.filter p).foldl
      (fun events r => enqueueWorkflowCompletion s.workflowNodeExecutions s.workflowNodeRuns now
        events r (f r)) s.workflowCompletionEvents }

def updateAttempts (p : AttemptRow → Bool) (f : AttemptRow → AttemptRow) (s : Store) : Store :=
  { s with runAttempts := update p f s.runAttempts }

def updateOutbox (p : OutboxRow → Bool) (f : OutboxRow → OutboxRow) (s : Store) : Store :=
  { s with outbox := update p f s.outbox }

def updateWorkflowRuns (p : WorkflowRunRow → Bool) (f : WorkflowRunRow → WorkflowRunRow)
    (s : Store) : Store :=
  { s with workflowRuns := update p f s.workflowRuns }

def updateNodeRuns (p : WorkflowNodeRunRow → Bool) (f : WorkflowNodeRunRow → WorkflowNodeRunRow)
    (s : Store) : Store :=
  { s with workflowNodeRuns := update p f s.workflowNodeRuns }

def updateNodeExecutions (p : WorkflowNodeExecutionRow → Bool)
    (f : WorkflowNodeExecutionRow → WorkflowNodeExecutionRow) (s : Store) : Store :=
  { s with workflowNodeExecutions := update p f s.workflowNodeExecutions }

theorem commit_cases {α : Type} (s : Store) (x : Except StoreError (α × Store)) :
    (∃ a t, x = .ok (a, t) ∧ commit s x = (.ok a, t)) ∨
      (∃ e, x = .error e ∧ commit s x = (.error e, s)) := by
  cases x with
  | error e => exact .inr ⟨e, rfl, rfl⟩
  | ok r => exact .inl ⟨r.1, r.2, rfl, rfl⟩

theorem insertRunRequest_ok {row : RunRequestRow} {s t : Store}
    (h : insertRunRequest row s = .ok t) :
    (∀ r ∈ s.runRequests, r.requestId ≠ row.requestId) ∧
      t = { s with runRequests := s.runRequests ++ [row] } := by
  unfold insertRunRequest at h
  split at h
  · cases h
  · rename_i hnone
    refine ⟨?_, (Except.ok.inj h).symm⟩
    simpa using hnone

theorem insertRun_ok {row : RunRow} {s t : Store} (h : insertRun row s = .ok t) :
    (∀ r ∈ s.runs, r.id ≠ row.id) ∧ row.attemptCount ≤ row.maxAttempts ∧
      (∃ q ∈ s.catalog.queues, q.id = row.queueId) ∧
      (∃ j ∈ s.catalog.jobs, j.id = row.jobId) ∧
      (∃ x ∈ s.catalog.targets, x.id = row.targetId) ∧
      t = { s with runs := s.runs ++ [row] } := by
  unfold insertRun at h
  split at h
  · cases h
  rename_i hid
  split at h
  · cases h
  split at h
  · cases h
  rename_i hbounds
  split at h
  · cases h
  rename_i hqueue
  split at h
  · rename_i job target hjob htarget
    split at h
    · refine ⟨by simpa using hid, ?_, by simpa using hqueue, ?_, ?_, (Except.ok.inj h).symm⟩
      · simp only [Bool.not_eq_true', Bool.not_eq_false, Bool.and_eq_true,
          decide_eq_true_eq] at hbounds
        exact hbounds.1.1
      · exact ⟨job, List.mem_of_find?_eq_some hjob, by simpa using List.find?_some hjob⟩
      · exact ⟨target, List.mem_of_find?_eq_some htarget, by simpa using List.find?_some htarget⟩
    · cases h
  · cases h

theorem insertAttempt_ok {row : AttemptRow} {s t : Store} (h : insertAttempt row s = .ok t) :
    (∀ a ∈ s.runAttempts, a.id ≠ row.id) ∧
      t = { s with runAttempts := s.runAttempts ++ [row] } := by
  unfold insertAttempt at h
  split at h
  · cases h
  rename_i hid
  split at h
  · cases h
  split at h
  · cases h
  refine ⟨fun a ha he => ?_, (Except.ok.inj h).symm⟩
  apply hid
  simp only [List.any_eq_true]
  exact ⟨a, ha, by simp [he]⟩

theorem insertOutbox_ok {row : OutboxRow} {s t : Store} (h : insertOutbox row s = .ok t) :
    (∀ o ∈ s.outbox, o.id ≠ row.id ∧ o.attemptId ≠ row.attemptId) ∧
      t = { s with outbox := s.outbox ++ [row] } := by
  unfold insertOutbox at h
  split at h
  · cases h
  rename_i hid
  split at h
  · cases h
  split at h
  · cases h
  refine ⟨fun o ho => ?_, (Except.ok.inj h).symm⟩
  have hnone : ¬ (o.id = row.id ∨ o.attemptId = row.attemptId) := by
    intro he
    apply hid
    simp only [List.any_eq_true]
    exact ⟨o, ho, by simpa using he⟩
  exact not_or.mp hnone

theorem insertWorkflowRun_ok {row : WorkflowRunRow} {s t : Store}
    (h : insertWorkflowRun row s = .ok t) :
    (∀ w ∈ s.workflowRuns, w.id ≠ row.id ∧ w.requestId ≠ row.requestId) ∧
      t = { s with workflowRuns := s.workflowRuns ++ [row] } := by
  unfold insertWorkflowRun at h
  split at h
  · cases h
  rename_i hid
  split at h
  · cases h
  refine ⟨fun w hw => ?_, (Except.ok.inj h).symm⟩
  have hnone : ¬ (w.id = row.id ∨ w.requestId = row.requestId) := by
    intro he
    apply hid
    simp only [List.any_eq_true]
    exact ⟨w, hw, by simpa using he⟩
  exact not_or.mp hnone

theorem insertNodeRun_ok {row : WorkflowNodeRunRow} {s t : Store}
    (h : insertNodeRun row s = .ok t) :
    (∀ n ∈ s.workflowNodeRuns, n.id ≠ row.id) ∧
      (∃ w ∈ s.workflowRuns, w.id = row.workflowRunId) ∧
      (∃ j ∈ s.catalog.jobs, j.id = row.jobId) ∧
      t = { s with workflowNodeRuns := s.workflowNodeRuns ++ [row] } := by
  unfold insertNodeRun at h
  split at h
  · cases h
  rename_i hid
  split at h
  · cases h
  rename_i hkeys
  simp only [Bool.or_eq_true, Bool.not_eq_true', List.any_eq_false, not_or, not_forall,
    decide_eq_true_eq, not_not, exists_prop] at hkeys
  refine ⟨fun n hn he => ?_, hkeys.1, hkeys.2, (Except.ok.inj h).symm⟩
  apply hid
  simp only [List.any_eq_true]
  exact ⟨n, hn, by simp [he]⟩

theorem insertRunEdge_ok {row : WorkflowRunEdgeRow} {s t : Store}
    (h : insertRunEdge row s = .ok t) :
    (∃ n ∈ s.workflowNodeRuns, n.workflowRunId = row.workflowRunId ∧ n.id = row.fromNodeRunId) ∧
      (∃ n ∈ s.workflowNodeRuns, n.workflowRunId = row.workflowRunId ∧ n.id = row.toNodeRunId) ∧
      t = { s with workflowRunEdges := s.workflowRunEdges ++ [row] } := by
  unfold insertRunEdge at h
  split at h
  · cases h
  split at h
  · cases h
  rename_i hkeys
  simp only [Bool.or_eq_true, Bool.not_eq_true', List.any_eq_false, not_or, not_forall,
    Bool.and_eq_true, decide_eq_true_eq, not_not, exists_prop] at hkeys
  exact ⟨hkeys.1, hkeys.2, (Except.ok.inj h).symm⟩

theorem insertNodeExecution_ok {row : WorkflowNodeExecutionRow} {s t : Store}
    (h : insertNodeExecution row s = .ok t) :
    (∀ e ∈ s.workflowNodeExecutions, ¬ (e.nodeRunId = row.nodeRunId ∧ e.targetId = row.targetId) ∧
        e.prospectiveRunId ≠ row.prospectiveRunId) ∧
      (1 ≤ row.maxAttempts ∧ row.maxAttempts ≤ 100) ∧
      (∃ n ∈ s.workflowNodeRuns, n.id = row.nodeRunId) ∧
      (∃ x ∈ s.catalog.targets, x.id = row.targetId) ∧
      (∃ q ∈ s.catalog.queues, q.id = row.queueId) ∧
      t = { s with workflowNodeExecutions := s.workflowNodeExecutions ++ [row] } := by
  unfold insertNodeExecution at h
  split at h
  · cases h
  rename_i hid
  split at h
  · cases h
  rename_i hbounds
  split at h
  · cases h
  rename_i hkeys
  simp only [Bool.or_eq_true, Bool.not_eq_true', List.any_eq_false, not_or, not_forall,
    decide_eq_true_eq, not_not, exists_prop] at hkeys
  simp only [Bool.not_eq_true', Bool.not_eq_false, Bool.and_eq_true,
    decide_eq_true_eq] at hbounds
  refine ⟨fun e he => ?_, hbounds, hkeys.1.1, hkeys.1.2, hkeys.2, (Except.ok.inj h).symm⟩
  have hnone : ¬ ((e.nodeRunId = row.nodeRunId ∧ e.targetId = row.targetId) ∨
      e.prospectiveRunId = row.prospectiveRunId) := by
    intro hk
    apply hid
    simp only [List.any_eq_true]
    exact ⟨e, he, by simpa using hk⟩
  exact not_or.mp hnone

end ControlPlaneSchema
