import Crono.TransitionSystem
import Crono.WorkflowStore

/-! The control plane as a transition system. Every committed transaction of a server, a
dispatcher, a worker request or a repair pass is one command; a Workflow reconcile pass is
its begin, its reads and its commit, so that other commands may commit in between. -/
namespace ControlPlane

open RunDomain WorkflowDomain SqlTable ControlPlaneSchema RunStore WorkflowStore
open ExecutionInputs (FloatFormat)

/-- A Workflow reconcile transaction in flight, holding the row lock of its invocation. -/
structure WorkflowPass where
  workflowRunId : Uuid
  events : List (Uuid × Uuid)
  observed : List (Uuid × List RunStatus)
  deriving DecidableEq, Repr

/-- A `claim_attempt` answered `claimed: true`. -/
structure Grant where
  runId : Uuid
  attemptId : Uuid
  workerId : String
  deriving DecidableEq, Repr

/-- A `complete_attempt` answered `true`. -/
structure Completion where
  attemptId : Uuid
  workerId : String
  deriving DecidableEq, Repr

/-- The database, the outbox records each dispatcher was handed, the passes in flight, and
what workers have been told so far. -/
structure State where
  store : Store
  issued : List (Uuid × OutboxRecord)
  passes : List WorkflowPass
  grants : List Grant
  completions : List Completion

inductive Command where
  | createRuns (R : Rendering) (requestId jobId : Uuid) (target : TargetSelection)
      (inputs : Value) (fresh : FreshRuns) (now : Instant)
  | insertRerun (F : FloatFormat) (sourceId requestId runId : Uuid) (ids : DispatchIds)
      (now : Instant)
  | commitSchedulePlan (R : Rendering) (plan : SchedulePlan) (fresh : FreshOccurrences)
      (now : Instant)
  | claimOutbox (owner : Uuid) (limit : ℕ) (leaseSeconds : ℤ) (locked : OutboxRow → Bool)
      (now : Instant)
  | markPublished (owner : Uuid) (record : OutboxRecord) (streamSequence : ℕ) (now : Instant)
  | recordPublishFailure (owner dispatchId : Uuid) (message : String) (nextAttemptAt : Instant)
  | claimAttempt (request : ClaimRequest) (now : Instant)
  | renewLease (request : LeaseRequest) (now : Instant)
  | recordAttemptOutput (request : OutputSnapshotRequest) (now : Instant)
  | completeAttempt (request : CompletionRequest) (retryAt now : Instant)
  | reconcile (pass : RepairPass)
  | startWorkflow (R : Rendering) (fresh : FreshLaunch) (launch : WorkflowLaunch) (now : Instant)
  | beginPass (workflowRunId : Uuid)
  | observeNode (workflowRunId nodeId : Uuid)
  | commitPass (order : QueueOrder) (dispatch : Launching) (now : Instant)
      (workflowRunId : Uuid)
  | abortPass (workflowRunId : Uuid)
  | cancelWorkflow (now : Instant) (workflowRunId : Uuid)
  | editCatalog (catalog : Catalog) (schedules : List ScheduleRow)

def commitRequest (s : Store) : Except StoreError (RequestCommit × Store) → Store
  | .ok (_, t) => t
  | .error _ => s

def WorkflowPass.statuses (pass : WorkflowPass) (nodeId : Uuid) : List RunStatus :=
  ((pass.observed.find? fun o => o.1 = nodeId).map Prod.snd).getD []

def State.passOn (s : State) (workflowRunId : Uuid) : Option WorkflowPass :=
  s.passes.find? fun p => p.workflowRunId = workflowRunId

def transact (s : State) : Command → Store
  | .createRuns R requestId jobId target inputs fresh now => commitRequest s.store
      (createRunsTransaction R requestId jobId target inputs fresh now s.store)
  | .insertRerun F sourceId requestId runId ids now => commitRequest s.store
      (insertRerunTransaction F sourceId requestId runId ids now s.store)
  | .commitSchedulePlan R plan fresh now => (commitSchedulePlan R plan fresh now s.store).2
  | .claimOutbox owner limit leaseSeconds locked now =>
      (claimOutbox owner limit leaseSeconds locked now s.store).2
  | .markPublished owner record streamSequence now =>
      (markPublished owner record streamSequence now s.store).2
  | .recordPublishFailure owner dispatchId message nextAttemptAt =>
      recordPublishFailure owner dispatchId message nextAttemptAt s.store
  | .claimAttempt request now => (claimAttempt request now s.store).2
  | .renewLease request now => (renewLease request now s.store).2
  | .recordAttemptOutput request now => (recordAttemptOutput request now s.store).2
  | .completeAttempt request retryAt now => (completeAttempt request retryAt now s.store).2
  | .reconcile pass => (RunStore.reconcile pass s.store).2
  | .startWorkflow R fresh launch now => (start R fresh launch now s.store).2
  | .commitPass order dispatch now workflowRunId =>
    match s.passOn workflowRunId with
    | none => s.store
    | some pass => (reconcileInvocation order dispatch pass.statuses now workflowRunId pass.events
        s.store).2
  | .cancelWorkflow now workflowRunId => (cancel now workflowRunId s.store).2
  | .editCatalog catalog schedules => { s.store with catalog := catalog, schedules := schedules }
  | .beginPass _ | .observeNode _ _ | .abortPass _ => s.store

def issuedBy (s : State) : Command → List (Uuid × OutboxRecord)
  | .claimOutbox owner limit leaseSeconds locked now =>
    (claimOutbox owner limit leaseSeconds locked now s.store).1.map fun record => (owner, record)
  | _ => []

def passesAfter (s : State) : Command → List WorkflowPass
  | .beginPass workflowRunId =>
    ⟨workflowRunId, completionEvents s.store workflowRunId, []⟩ :: s.passes
  | .observeNode workflowRunId nodeId => s.passes.map fun p =>
    if p.workflowRunId = workflowRunId then
      { p with observed := (nodeId, childStatuses s.store nodeId) :: p.observed }
    else p
  | .commitPass _ _ _ workflowRunId | .abortPass workflowRunId =>
    s.passes.filter fun p => p.workflowRunId ≠ workflowRunId
  | _ => s.passes

def grantedBy (s : State) : Command → List Grant
  | .claimAttempt request now =>
    match (claimAttempt request now s.store).1 with
    | .ok ⟨true, _, _⟩ => [⟨request.runId, request.attemptId, request.workerId⟩]
    | _ => []
  | _ => []

def completedBy (s : State) : Command → List Completion
  | .completeAttempt request retryAt now =>
    match (completeAttempt request retryAt now s.store).1 with
    | .ok true => [⟨request.attemptId, request.workerId⟩]
    | _ => []
  | _ => []

def next (s : State) (c : Command) : State where
  store := transact s c
  issued := s.issued ++ issuedBy s c
  passes := passesAfter s c
  grants := s.grants ++ grantedBy s c
  completions := s.completions ++ completedBy s c

/-- The foreign keys `ON DELETE RESTRICT` into the catalog, and the columns no edit changes. -/
structure Retains (catalog : Catalog) (s : Store) : Prop where
  job_ids : (catalog.jobs.map JobRow.id).Nodup
  target_ids : (catalog.targets.map TargetRow.id).Nodup
  queues : ∀ q ∈ s.catalog.queues,
    (∃ r ∈ s.runs, r.queueId = q.id) ∨ (∃ e ∈ s.workflowNodeExecutions, e.queueId = q.id) →
    ∃ q' ∈ catalog.queues, q'.id = q.id
  jobs : ∀ j ∈ s.catalog.jobs,
    (∃ r ∈ s.runs, r.jobId = j.id) ∨ (∃ n ∈ s.workflowNodeRuns, n.jobId = j.id) →
    ∃ j' ∈ catalog.jobs, j'.id = j.id ∧ j'.namespaceId = j.namespaceId
  targets : ∀ t ∈ s.catalog.targets,
    (∃ r ∈ s.runs, r.targetId = t.id) ∨ (∃ e ∈ s.workflowNodeExecutions, e.targetId = t.id) →
    ∃ t' ∈ catalog.targets, t'.id = t.id ∧ t'.namespaceId = t.namespaceId

/-- Dispatchers mark only records they were handed; the invocation lock excludes a second
pass and a cancellation; a pass commits after reading every affected node. -/
def Enabled (s : State) : Command → Prop
  | .markPublished owner record _ _ => (owner, record) ∈ s.issued
  | .beginPass workflowRunId => s.passOn workflowRunId = none ∧
      ∃ w ∈ s.store.workflowRuns, w.id = workflowRunId
  | .observeNode workflowRunId nodeId => ∃ pass, s.passOn workflowRunId = some pass ∧
      nodeId ∈ affectedNodes pass.events ∧ nodeId ∉ pass.observed.map Prod.fst
  | .commitPass _ _ _ workflowRunId => ∃ pass, s.passOn workflowRunId = some pass ∧
      ∀ nodeId ∈ affectedNodes pass.events, nodeId ∈ pass.observed.map Prod.fst
  | .abortPass workflowRunId => ∃ pass, s.passOn workflowRunId = some pass
  | .cancelWorkflow _ workflowRunId => s.passOn workflowRunId = none
  | .editCatalog catalog _ => Retains catalog s.store
  | _ => True

/-- A migrated database holds a catalog and no Run. -/
def initial (s : State) : Prop :=
  ∃ catalog schedules, (catalog.jobs.map JobRow.id).Nodup ∧
    (catalog.targets.map TargetRow.id).Nodup ∧
    s = ⟨emptyStore catalog schedules, [], [], [], []⟩

def system : TransitionSystem State Command where
  initial := initial
  Enabled := Enabled
  next := next

abbrev Step := system.Step
abbrev Execution := system.Execution
abbrev Reachable := system.Reachable

def demoQueue : QueueRow := ⟨1, "default", true⟩

def demoJob : JobRow :=
  { id := 2, namespaceId := 3, name := "backup", executor := .noop, queueId := 1
    executable := none, shellCommand := none, arguments := [], inputs := .object []
    idempotent := true, dryRun := false, maxAttempts := 2, retryInitialSeconds := 1
    retryMaxSeconds := 60, retryMultiplier := ⟨2, 0⟩, retryJitter := ⟨0, 0⟩ }

def demoTarget : TargetRow := ⟨4, 3, "db", [], .object []⟩

def demoCatalog : Catalog := ⟨[demoQueue], [demoJob], [demoTarget], [], [], []⟩

def demoInitial : State := ⟨emptyStore demoCatalog [], [], [], [], []⟩

/-- Every float is read as it was printed. -/
def demoFormat : FloatFormat := ⟨fun _ => [], id, id⟩

def demoRendering : Rendering :=
  ⟨fun _ => .ok (.object []), fun _ _ => .ok [], fun _ => 0, demoFormat⟩

/-- The inputs of the invocation are all there are, and floats are read as their neighbours. -/
def lastLayer : Rendering :=
  ⟨fun layers => .ok (layers.getLastD (.object [])), fun _ _ => .ok [], fun _ => 0,
    StoredValues.neighbours⟩

def demoCreate : Command :=
  .createRuns demoRendering 5 2 (.target 4) (.object []) ⟨fun _ => 6, fun _ => ⟨7, 8⟩⟩ 0

def demoClaimOutbox : Command := .claimOutbox 9 100 30 (fun _ => false) 0

def demoRecord : OutboxRecord := ⟨8, 6, 7, ⟨1⟩, ⟨8, 6, 7, 1⟩, 0⟩

def demoMarkPublished : Command := .markPublished 9 demoRecord 1 0

def demoClaimRequest : ClaimRequest := ⟨6, 7, 1, "worker"⟩

theorem demoInitial_initial : initial demoInitial :=
  ⟨demoCatalog, [], by decide, by decide, rfl⟩

theorem demo_reachable {events : List Command} (h : system.Admits demoInitial events) :
    Reachable (system.run demoInitial events) :=
  ⟨demoInitial, demoInitial_initial, .of_admits h⟩

def demoClaimed : List Command :=
  [demoCreate, demoClaimOutbox, demoMarkPublished, .claimAttempt demoClaimRequest 0]

theorem demoClaimed_admitted : system.Admits demoInitial demoClaimed :=
  ⟨trivial, trivial, List.mem_singleton.mpr rfl, trivial, trivial⟩

end ControlPlane
