import Crono.ClientPrograms
import Crono.ControlPlane
import Crono.ExecutionInputs
import Crono.StoreReads

/-! The application's operations on Runs and Workflow invocations. Every decision of the authorizer
and every query is a read of its own and every transaction a step of its own, so that other
requests commit in between. -/
namespace ApplicationCalls

open RunDomain WorkflowDomain ControlPlaneSchema RunStore WorkflowStore StoreReads
open Capabilities GrantSets GrantPolicy ExecutionInputs ClientPrograms
open StoredValues (columnInputs stored)

inductive ErrorMessage where
  | text (message : String)
  | input (e : InputError)
  deriving DecidableEq, Repr

inductive ApplicationError where
  | invalidInput (field : Option String) (message : ErrorMessage)
  | notFound
  | conflict
  | inUse
  | idempotencyConflict
  | authorization (e : AuthorizationError)
  | unavailable
  | internal
  deriving DecidableEq, Repr

def ApplicationError.invalid (field message : String) : ApplicationError :=
  .invalidInput (some field) (.text message)

def ApplicationError.invalidRequest (message : String) : ApplicationError :=
  .invalidInput none (.text message)

/-- `From<StoreError>`. -/
def ApplicationError.ofStore : StoreError → ApplicationError
  | .notFound => .notFound
  | .conflict | .staleRevision => .conflict
  | .inUse => .inUse
  | .idempotencyConflict => .idempotencyConflict
  | .queueDisabled =>
    .invalidRequest "The original Run's Queue is disabled; enable it before re-running."
  | .invalidData => .invalidRequest
      "request contains text that cannot be stored; remove NUL characters or invalid encoding"
  | .workflowLaunchTooLarge => .invalidRequest
      ("Workflow launch exceeds 4,096 child executions or 8 MiB of prepared snapshots; " ++
        "reduce the graph, Target Set, or Inputs")
  | .unavailable => .unavailable
  | .internal => .internal

/-- The transactions an operation performs. -/
inductive Transaction where
  | createRuns (R : Rendering) (requestId jobId : Uuid) (target : TargetSelection)
      (inputs : Value) (fresh : FreshRuns) (now : Instant)
  | insertRerun (F : FloatFormat) (sourceId requestId runId : Uuid) (ids : DispatchIds)
      (now : Instant)
  | startWorkflow (R : Rendering) (fresh : FreshLaunch) (launch : WorkflowLaunch) (now : Instant)
  | cancelWorkflow (now : Instant) (workflowRunId : Uuid)

def Transaction.command : Transaction → ControlPlane.Command
  | .createRuns R requestId jobId target inputs fresh now =>
    .createRuns R requestId jobId target inputs fresh now
  | .insertRerun F sourceId requestId runId ids now =>
    .insertRerun F sourceId requestId runId ids now
  | .startWorkflow R fresh launch now => .startWorkflow R fresh launch now
  | .cancelWorkflow now workflowRunId => .cancelWorkflow now workflowRunId

/-- The database after a transaction. -/
def Transaction.apply (s : Store) : Transaction → Store
  | .createRuns R requestId jobId target inputs fresh now => ControlPlane.commitRequest s
      (createRunsTransaction R requestId jobId target inputs fresh now s)
  | .insertRerun F sourceId requestId runId ids now => ControlPlane.commitRequest s
      (insertRerunTransaction F sourceId requestId runId ids now s)
  | .startWorkflow R fresh launch now => (start R fresh launch now s).2
  | .cancelWorkflow now workflowRunId => (cancel now workflowRunId s).2

theorem transact_command (s : ControlPlane.State) (tx : Transaction) :
    ControlPlane.transact s tx.command = tx.apply s.store := by
  cases tx <;> rfl

abbrev Call (α : Type) := ExceptT ApplicationError (Program Store Transaction) α

def check {α : Type} (result : Except ApplicationError α) : Call α := ExceptT.mk (.done result)

def ensure (condition : Bool) (e : ApplicationError) : Call Unit :=
  check (if condition then .ok () else .error e)

def ofStore {α : Type} (result : Except StoreError α) : Except ApplicationError α :=
  result.mapError ApplicationError.ofStore

def query {α : Type} (f : Store → Except StoreError α) : Call α :=
  ExceptT.mk (.read fun s => .done (ofStore (f s)))

def transact {α : Type} (tx : Transaction) (answer : Store → Except StoreError α) : Call α :=
  ExceptT.mk (.perform tx fun s => .done (ofStore (answer s)))

/-- `self.authorizer.authorize`. -/
def authorize (grants : GrantSet) (c : Capability) (resource : ResourceScope) : Call Unit :=
  ExceptT.mk (.read fun s => .done
    ((GrantPolicy.authorize (namespaceFor s) grants c resource).mapError .authorization))

/-- `self.authorizer.visibility`. -/
def visibility (grants : GrantSet) (c : Capability) : Call VisibilityScope :=
  check ((GrantPolicy.visibility grants c).mapError .authorization)

def authorizeEach (grants : GrantSet) (c : Capability) : List ResourceScope → Call Unit
  | [] => pure ()
  | resource :: rest => do
    authorize grants c resource
    authorizeEach grants c rest

def validateInputObject (F : FloatFormat) (inputs : Value) : Except ApplicationError Unit :=
  (validateInputs F inputs).mapError fun e => .invalidInput (some "inputs") (.input e)

def validateRenderedExecution (R : Rendering) (job : JobRow) (targetSetInputs : Option Value)
    (invocationInputs : Value) (target : TargetRow) : Except ApplicationError Unit :=
  match R.mergeInputs [job.inputs, targetSetInputs.getD (.object []), target.inputs,
      invocationInputs] with
  | .error message => .error (.invalid "inputs" message)
  | .ok merged =>
    match R.renderArguments (job.arguments ++ target.arguments) merged with
    | .error message => .error (.invalid "arguments" message)
    | .ok _ => .ok ()

def validateRenderedExecutions (R : Rendering) (job : JobRow) (targetSetInputs : Option Value)
    (invocationInputs : Value) (targets : List TargetRow) : Except ApplicationError Unit :=
  targets.forM (validateRenderedExecution R job targetSetInputs invocationInputs)

def defaultLimit : ℕ := 50

def maxLimit : ℕ := 100

def pageLimit (limit : Option ℕ) : Except ApplicationError ℕ :=
  let limit := limit.getD defaultLimit
  if limit = 0 || maxLimit < limit then
    .error (.invalid "limit" "limit must be between 1 and 100")
  else .ok limit

def visibleNamespace (scope : VisibilityScope) (id : Uuid) : Except ApplicationError Unit :=
  if scope.includes id then .ok () else .error .notFound

def getRun (grants : GrantSet) (id : Uuid) : Call RunRecord := do
  authorize grants .runRead (.run id)
  let scope ← visibility grants .runRead
  query (StoreReads.getRun id scope)

def listRunAttempts (grants : GrantSet) (id : Uuid) : Call (List RunAttemptRecord) := do
  authorize grants .runRead (.run id)
  let scope ← visibility grants .runRead
  let _ ← query (StoreReads.getRun id scope)
  query fun s => .ok (runAttempts id scope s)

def listRunEvents (grants : GrantSet) (id : Uuid) : Call (List RunEventRecord) := do
  authorize grants .runRead (.run id)
  let scope ← visibility grants .runRead
  let _ ← query (StoreReads.getRun id scope)
  query fun s => .ok (runEvents id s)

def listRuns (grants : GrantSet) (filter : RunListFilter) (limit : Option ℕ)
    (before : Option Uuid) : Call (Page RunRecord) := do
  let scope ← visibility grants .runRead
  let limit ← check (pageLimit limit)
  query (StoreReads.listRuns scope filter limit before)

/-- `execution_targets`: the Namespace of the selection, the inputs of the set, and its Targets. -/
def executionTargets (grants : GrantSet) :
    TargetSelection → Call (Uuid × Option Value × List TargetRow)
  | .target id => do
    authorize grants .targetUse (.target id)
    let target ← query fun s => getTarget s id
    return (target.namespaceId, none, [target])
  | .targetSet id => do
    authorize grants .targetSetUse (.targetSet id)
    let row ← query fun s => getTargetSet s id
    let targets ← query (loadTargetSetRecord row)
    authorizeEach grants .targetUse (targets.map fun t => .target t.id)
    return (row.namespaceId, some row.inputs, targets)

def replayRuns (requestId jobId : Uuid) (target : TargetSelection) (inputs : Value)
    (existing : RunRequestRow × Bool) : Call (List RunRecord × Bool) := do
  check (ofStore (compareRunRequest existing jobId target inputs))
  let runs ← query fun s => .ok (runRecordsForRequest s requestId)
  return (runs, false)

def createRuns (R : Rendering) (requestId jobId : Uuid) (target : TargetSelection)
    (inputs : Value) (fresh : FreshRuns) (now : Instant) : Call (List RunRecord × Bool) := do
  let existing ← query fun s => .ok (findRunRequest R.floats s requestId)
  match existing with
  | some existing => replayRuns requestId jobId target inputs existing
  | none => do
    let outcome ← transact (.createRuns R requestId jobId target inputs fresh now) fun s =>
      (createRunsTransaction R requestId jobId target inputs fresh now s).map Prod.fst
    match outcome with
    | .created => do
      let runs ← query fun s => .ok (runRecordsForRequest s requestId)
      return (runs, true)
    | .requestTaken => do
      let existing ← query fun s => .ok (findRunRequest R.floats s requestId)
      match existing with
      | none => check (.error .internal)
      | some existing => replayRuns requestId jobId target inputs existing

/-- Authorize every Run input and persist an idempotent dispatch request. -/
def createRun (R : Rendering) (grants : GrantSet) (requestId jobId : Uuid)
    (target : TargetSelection) (inputs : Value) (fresh : FreshRuns) (now : Instant) :
    Call (List RunRecord × Bool) := do
  check (validateInputObject R.floats inputs)
  authorize grants .jobExecute (.job jobId)
  let job ← query fun s => getJob s jobId
  let (selectionNamespace, targetSetInputs, targets) ← executionTargets grants target
  ensure (job.namespaceId = selectionNamespace)
    (.invalidRequest "Job and execution target must belong to the same Namespace")
  check (validateRenderedExecutions R job targetSetInputs inputs targets)
  authorize grants .runCreate (.ofNamespace job.namespaceId)
  createRuns R requestId jobId target inputs fresh now

/-- `existing_rerun`: only the Run made by this re-run request. -/
def existingRerun (F : FloatFormat) (requestId sourceId : Uuid) : Call (Option RunRecord) := do
  let existing ← query fun s => .ok (findRunRequest F s requestId)
  match existing with
  | none => return none
  | some _ => do
    let runs ← query fun s => .ok (runRecordsForRequest s requestId)
    check (match runs with
      | [run] =>
        if run.rerunOfRunId = some sourceId then .ok (some run) else .error .idempotencyConflict
      | _ => .error .idempotencyConflict)

def insertRerun (F : FloatFormat) (sourceId requestId runId : Uuid) (ids : DispatchIds)
    (now : Instant) : Call (RunRecord × Bool) := do
  let existing ← existingRerun F requestId sourceId
  match existing with
  | some run => return (run, false)
  | none => do
    let outcome ← transact (.insertRerun F sourceId requestId runId ids now) fun s =>
      (insertRerunTransaction F sourceId requestId runId ids now s).map Prod.fst
    let existing ← existingRerun F requestId sourceId
    match existing with
    | none => check (.error .internal)
    | some run => return (run, outcome = .created)

/-- Repeat exactly one authorized historical Run's snapshot. -/
def rerunRun (F : FloatFormat) (grants : GrantSet) (sourceId requestId runId : Uuid)
    (ids : DispatchIds) (now : Instant) : Call (RunRecord × Bool) := do
  let source ← getRun grants sourceId
  ensure source.status.isRepeatable
    (.invalidRequest "Only Runs with a confirmed terminal outcome can be re-run.")
  ensure source.hasExecutionSnapshot (.invalidRequest
    "This Run failed before an executable snapshot was created and cannot be re-run.")
  authorize grants .jobExecute (.job source.jobId)
  let job ← query fun s => getJob s source.jobId
  authorize grants .targetUse (.target source.targetId)
  authorize grants .runCreate (.ofNamespace job.namespaceId)
  insertRerun F source.id requestId runId ids now

def getWorkflow (grants : GrantSet) (id : Uuid) : Call WorkflowRecord := do
  authorize grants .workflowRead (.workflow id)
  let record ← query fun s => StoreReads.getWorkflow s id
  let scope ← visibility grants .workflowRead
  check (visibleNamespace scope record.namespaceId)
  return record

def getWorkflowRun (grants : GrantSet) (id : Uuid) : Call WorkflowRunRecord := do
  authorize grants .workflowRunRead (.workflowRun id)
  let scope ← visibility grants .workflowRunRead
  query (StoreReads.getWorkflowRun id scope)

def listWorkflowRuns (grants : GrantSet) (id : Uuid) (limit : Option ℕ) (before : Option Uuid) :
    Call (Page WorkflowRunRecord) := do
  authorize grants .workflowRunRead (.workflow id)
  let workflow ← query fun s => StoreReads.getWorkflow s id
  let scope ← visibility grants .workflowRunRead
  check (visibleNamespace scope workflow.namespaceId)
  let limit ← check (pageLimit limit)
  query (StoreReads.listWorkflowRuns id scope limit before)

def cancelWorkflowRun (grants : GrantSet) (id : Uuid) (now : Instant) : Call WorkflowRunRecord := do
  let record ← getWorkflowRun grants id
  authorize grants .workflowRunCancel (.workflowRun record.id)
  transact (.cancelWorkflow now record.id) fun s => (cancel now record.id s).1

/-- `for_request`. -/
def workflowRunForRequest (F : FloatFormat) (requestId : Uuid) (inputs : Value) :
    Call (Option WorkflowRunRecord) := do
  let existing ← query fun s => .ok (workflowRunIdForRequest requestId s)
  match existing with
  | none => return none
  | some id => do
    let record ← query (StoreReads.getWorkflowRun id .all)
    ensure (jsonInputsEqual (stored F (columnInputs record.inputs)) inputs) .idempotencyConflict
    return some record

/-- Authorize every historical Job and pinned Target before returning an idempotent replay. -/
def authorizeWorkflowReplay (grants : GrantSet) (run : WorkflowRunRecord) : Call Unit := do
  authorizeEach grants .jobExecute (run.nodes.map fun n => .job n.jobId)
  match run.target with
  | .targetSet id => authorize grants .targetSetUse (.targetSet id)
  | .target _ => pure ()
  let targets ← query fun s => .ok (workflowRunTargets run.id s)
  authorizeEach grants .targetUse (targets.map .target)
  authorize grants .runCreate (.ofNamespace run.workflow.namespaceId)

def validateWorkflowJobs (grants : GrantSet) (namespaceId : Uuid) (c : Capability) :
    List WorkflowNode → Call Unit
  | [] => pure ()
  | node :: rest => do
    authorize grants c (.job node.jobId)
    let job ← query fun s => getJob s node.jobId
    ensure (job.namespaceId = namespaceId)
      (.invalidRequest "every Workflow Job must belong to its Namespace")
    validateWorkflowJobs grants namespaceId c rest

def validateWorkflowNodes (R : Rendering) (targetSetInputs : Option Value) (inputs : Value)
    (targets : List TargetRow) : List WorkflowNode → Call Unit
  | [] => pure ()
  | node :: rest => do
    let job ← query fun s => getJob s node.jobId
    check (validateRenderedExecutions R job targetSetInputs inputs targets)
    validateWorkflowNodes R targetSetInputs inputs targets rest

def launchWorkflow (R : Rendering) (grants : GrantSet) (fresh : FreshLaunch)
    (launch : WorkflowLaunch) (now : Instant) : Call (WorkflowRunRecord × Bool) := do
  let (record, created) ← transact (.startWorkflow R fresh launch now) fun s =>
    (start R fresh launch now s).1
  if created then return (record, created)
  else do
    authorizeWorkflowReplay grants record
    return (record, created)

/-- Commit one authorized, idempotent invocation and create ordinary root Runs. -/
def startWorkflow (R : Rendering) (grants : GrantSet) (id requestId : Uuid)
    (target : TargetSelection) (inputs : Value) (fresh : FreshLaunch) (now : Instant) :
    Call (WorkflowRunRecord × Bool) := do
  authorize grants .workflowExecute (.workflow id)
  check (validateInputObject R.floats inputs)
  let existing ← workflowRunForRequest R.floats requestId inputs
  match existing with
  | some existing => do
    ensure (existing.workflow.id = id && existing.target = target) .idempotencyConflict
    authorizeWorkflowReplay grants existing
    return (existing, false)
  | none => do
    let workflow ← query fun s => StoreReads.getWorkflow s id
    let (namespaceId, targetSetInputs, targets) ← executionTargets grants target
    ensure (namespaceId = workflow.namespaceId)
      (.invalidRequest "Workflow and execution target must belong to the same Namespace")
    validateWorkflowJobs grants namespaceId .jobExecute workflow.definition.nodes
    validateWorkflowNodes R targetSetInputs inputs targets workflow.definition.nodes
    authorize grants .runCreate (.ofNamespace namespaceId)
    launchWorkflow R grants fresh
      ⟨id, workflow.revision, requestId, target, inputs, targets.map TargetRow.id⟩ now

end ApplicationCalls
