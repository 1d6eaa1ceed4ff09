import Crono.GrantPolicy
import Crono.WorkflowStore

/-! The queries behind the application's reads: the Namespace of a resource, the catalog, and the
history of Runs and Workflow invocations under a visibility scope. Namespaces are known by their
ids. -/
namespace StoreReads

open RunDomain WorkflowDomain ControlPlaneSchema RunStore WorkflowStore
open Capabilities GrantSets GrantPolicy

def jobNamespace (c : Catalog) (jobId : Uuid) : Option Uuid :=
  (c.jobs.find? fun j => j.id = jobId).map JobRow.namespaceId

/-- `namespace_for`. -/
def namespaceFor (s : Store) : NamespaceResolver
  | .ofNamespace id => .ok (some id)
  | .job id => .ok (jobNamespace s.catalog id)
  | .target id => .ok ((s.catalog.targets.find? fun t => t.id = id).map TargetRow.namespaceId)
  | .targetSet id =>
    .ok ((s.catalog.targetSets.find? fun ts => ts.id = id).map TargetSetRow.namespaceId)
  | .schedule id => .ok ((s.schedules.find? fun row => row.id = id).map ScheduleRow.namespaceId)
  | .workflow id =>
    .ok ((s.catalog.workflows.find? fun w => w.id = id).map StoredWorkflow.namespaceId)
  | .workflowRun id =>
    .ok ((s.workflowRuns.find? fun w => w.id = id).map WorkflowRunRow.namespaceId)
  | .run id => .ok ((s.runs.find? fun r => r.id = id).bind fun r => jobNamespace s.catalog r.jobId)
  | .controlPlane | .queue _ => .error .forbidden

def getJob (s : Store) (id : Uuid) : Except StoreError JobRow :=
  match s.catalog.jobs.find? fun j => j.id = id with
  | none => .error .notFound
  | some j => if s.catalog.queues.any fun q => q.id = j.queueId then .ok j else .error .notFound

def getTarget (s : Store) (id : Uuid) : Except StoreError TargetRow :=
  match s.catalog.targets.find? fun t => t.id = id with
  | none => .error .notFound
  | some t => .ok t

def getTargetSet (s : Store) (id : Uuid) : Except StoreError TargetSetRow :=
  match s.catalog.targetSets.find? fun ts => ts.id = id with
  | none => .error .notFound
  | some ts => .ok ts

/-- `load_target_set_record`: the members by name, each of the Namespace of the set. -/
def loadTargetSetRecord (row : TargetSetRow) (s : Store) : Except StoreError (List TargetRow) :=
  let targets := ((s.catalog.targetSetMembers.filter fun m =>
    m.targetSetId = row.id).flatMap fun m =>
      s.catalog.targets.filter fun t => t.id = m.targetId).insertionSort fun a b => a.name ≤ b.name
  if targets.all fun t => t.namespaceId = row.namespaceId then .ok targets else .error .internal

def getWorkflow (s : Store) (id : Uuid) : Except StoreError WorkflowRecord := do
  let stored ← catalog s.catalog id
  StoredWorkflow.record stored

structure RunRecord where
  id : Uuid
  requestId : Option Uuid
  rerunOfRunId : Option Uuid
  scheduleId : Option Uuid
  jobId : Uuid
  targetId : Uuid
  queueId : Uuid
  status : RunStatus
  scheduledAt : Instant
  queuedAt : Option Instant
  startedAt : Option Instant
  completedAt : Option Instant
  attemptCount : ℕ
  maxAttempts : ℕ
  latenessSeconds : ℕ
  terminalReason : Option String
  jobNamespace : Uuid
  jobName : String
  targetNamespace : Uuid
  targetName : String
  targetSetName : Option String
  queueName : String
  hasExecutionSnapshot : Bool
  deriving DecidableEq, Repr

/-- `COALESCE(rr.target_set_id, s.target_set_id)`, joined with the sets. -/
def selectedTargetSet (s : Store) (r : RunRow) : Option TargetSetRow :=
  let request := s.runRequests.find? fun q => some q.requestId = r.requestId
  let schedule := s.schedules.find? fun row => some row.id = r.scheduleId
  ((request.bind RunRequestRow.targetSetId).or (schedule.bind ScheduleRow.targetSetId)).bind
    fun id => s.catalog.targetSets.find? fun ts => ts.id = id

/-- The columns of a Run joined with its Job, Target, Queue and Target Set. -/
def runRecord (s : Store) (r : RunRow) : Option RunRecord := do
  let j ← s.catalog.jobs.find? fun j => j.id = r.jobId
  let t ← s.catalog.targets.find? fun t => t.id = r.targetId
  let q ← s.catalog.queues.find? fun q => q.id = r.queueId
  return {
    id := r.id, requestId := r.requestId, rerunOfRunId := r.rerunOfRunId
    scheduleId := r.scheduleId, jobId := r.jobId, targetId := r.targetId, queueId := r.queueId
    status := r.status, scheduledAt := r.scheduledAt, queuedAt := r.queuedAt
    startedAt := r.startedAt, completedAt := r.completedAt, attemptCount := r.attemptCount
    maxAttempts := r.maxAttempts, latenessSeconds := r.latenessSeconds
    terminalReason := r.terminalReason, jobNamespace := j.namespaceId, jobName := j.name
    targetNamespace := t.namespaceId, targetName := t.name
    targetSetName := (selectedTargetSet s r).map TargetSetRow.name, queueName := q.name
    hasExecutionSnapshot :=
      match r.executionSnapshot with
      | .execution _ => true
      | .renderError _ _ => false }

def getRun (id : Uuid) (visibility : VisibilityScope) (s : Store) : Except StoreError RunRecord :=
  match visibility with
  | .none => .error .notFound
  | _ =>
    match (s.runs.find? fun r => r.id = id).bind (runRecord s) with
    | none => .error .notFound
    | some record =>
      if visibility.includes record.jobNamespace then .ok record else .error .notFound

structure RunListFilter where
  namespaceId : Option Uuid
  status : Option RunStatus
  jobId : Option Uuid
  targetId : Option Uuid
  targetSetId : Option Uuid
  deriving DecidableEq, Repr

structure Page (α : Type) where
  items : List α
  nextCursor : Option Uuid
  deriving DecidableEq, Repr

/-- `page`: one row beyond the limit says that there is a next page. -/
def page {α : Type} (rows : List α) (limit : ℕ) (cursor : α → Uuid) : Page α :=
  if limit < rows.length then ⟨rows.dropLast, rows.dropLast.getLast?.map cursor⟩
  else ⟨rows, none⟩

def RunListFilter.accepts (filter : RunListFilter) (s : Store) (r : RunRow) (record : RunRecord) :
    Bool :=
  (filter.namespaceId.all fun id => record.jobNamespace = id) &&
    (filter.status.all fun status => record.status = status) &&
    (filter.jobId.all fun id => record.jobId = id) &&
    (filter.targetId.all fun id => record.targetId = id) &&
    filter.targetSetId.all fun id => (selectedTargetSet s r).any fun ts => ts.id = id

def listedRun (visibility : VisibilityScope) (filter : RunListFilter) (before : Option Uuid)
    (s : Store) (r : RunRow) : Option RunRecord :=
  (runRecord s r).filter fun record => (before.all fun id => r.id < id) &&
    visibility.includes record.jobNamespace && filter.accepts s r record

/-- `list_runs`. The internal error that `run_from_row` gives for a stored name or counter it
cannot parse is left out here and in `get_run`. -/
def listRuns (visibility : VisibilityScope) (filter : RunListFilter) (limit : ℕ)
    (before : Option Uuid) (s : Store) : Except StoreError (Page RunRecord) :=
  match visibility with
  | .none => .ok ⟨[], none⟩
  | _ => .ok (page (((s.runs.filterMap (listedRun visibility filter before s)).insertionSort
      fun a b => b.id ≤ a.id).take (limit + 1)) limit RunRecord.id)

structure RunAttemptRecord where
  id : Uuid
  workerId : Option String
  attempt : ℕ
  status : AttemptStatus
  startedAt : Option Instant
  completedAt : Option Instant
  exitCode : Option ℤ
  stdoutTail : Option String
  stderrTail : Option String
  error : Option String
  deriving DecidableEq, Repr

def attemptRecord (a : AttemptRow) : RunAttemptRecord :=
  ⟨a.id, a.workerId, a.attempt, a.status, a.startedAt, a.completedAt, a.exitCode, a.stdoutTail,
    a.stderrTail, a.error⟩

/-- The Attempts of a Run whose Job is visible. -/
def runAttempts (id : Uuid) (visibility : VisibilityScope) (s : Store) : List RunAttemptRecord :=
  (((s.runAttempts.filter fun a => a.runId = id &&
    ((s.runs.find? fun r => r.id = id).bind fun r => jobNamespace s.catalog r.jobId).any
      visibility.includes).insertionSort fun a b =>
        b.attempt ≤ a.attempt).take 100).map attemptRecord

structure RunEventRecord where
  eventType : RunEventType
  createdAt : Instant
  deriving DecidableEq, Repr

/-- The events of a Run; their ids grow in the order of insertion. -/
def runEvents (id : Uuid) (s : Store) : List RunEventRecord :=
  (((s.runEvents.filter fun e => e.runId = id).insertionSort fun a b =>
    a.createdAt ≤ b.createdAt).take 1000).map fun e => ⟨e.eventType, e.createdAt⟩

/-- `runs_for_request`. -/
def runRecordsForRequest (s : Store) (requestId : Uuid) : List RunRecord :=
  (runsForRequest s requestId).filterMap (runRecord s)

/-- `invocation` under a visibility scope. -/
def getWorkflowRun (id : Uuid) (visibility : VisibilityScope) (s : Store) :
    Except StoreError WorkflowRunRecord :=
  match s.workflowRuns.find? fun w => w.id = id with
  | none => .error .notFound
  | some row =>
    if visibility.includes row.definitionSnapshot.namespaceId then invocation s id
    else .error .notFound

/-- `workflows::list_runs`. -/
def listWorkflowRuns (id : Uuid) (visibility : VisibilityScope) (limit : ℕ) (before : Option Uuid)
    (s : Store) : Except StoreError (Page WorkflowRunRecord) := do
  let ids := page (((s.workflowRuns.filter fun w => w.workflowId = id &&
    (before.all fun x => w.id < x) && visibility.includes w.namespaceId).map
      WorkflowRunRow.id).insertionSort (fun a b => b ≤ a) |>.take (limit + 1)) limit fun x => x
  let items ← ids.items.mapM fun x => getWorkflowRun x visibility s
  return ⟨items, ids.nextCursor⟩

def workflowRunIdForRequest (requestId : Uuid) (s : Store) : Option Uuid :=
  (s.workflowRuns.find? fun w => w.requestId = requestId).map WorkflowRunRow.id

/-- `targets`: the distinct Targets pinned by an invocation. -/
def workflowRunTargets (id : Uuid) (s : Store) : List Uuid :=
  (((s.workflowNodeExecutions.filter fun e => s.workflowNodeRuns.any fun n =>
    n.id = e.nodeRunId && n.workflowRunId = id).map
      WorkflowNodeExecutionRow.targetId).dedup).insertionSort (· ≤ ·)

end StoreReads
