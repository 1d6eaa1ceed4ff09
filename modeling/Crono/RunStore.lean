import Crono.ControlPlaneSchema
import Crono.StoredValues

/-! The PostgreSQL store of Runs, Attempts and their outbox, one definition per function of
the adapter. Every transaction is a function of the store it starts from; UUIDs drawn by
`Uuid::now_v7` and the clock read by `statement_timestamp()` are arguments. -/
namespace RunStore

open RunDomain WorkflowDomain SqlTable ControlPlaneSchema
open ExecutionInputs (FloatFormat)
open StoredValues (columnInputs columnSnapshot decodeSnapshot stored)
open FallibleLists

/-- The functions of `crono_execution` that merge inputs and render argument templates,
the encoded size of a snapshot, and how `serde_json` reads floats. Every result below holds for
all of them. -/
structure Rendering where
  mergeInputs : List Value → Except String Value
  renderArguments : List String → Value → Except String (List String)
  snapshotBytes : ExecutionSnapshot → ℕ
  floats : FloatFormat

structure ExecutionRow where
  namespaceId : Uuid
  jobId : Uuid
  targetId : Uuid
  executor : ExecutorKind
  queueId : Uuid
  queueName : String
  executable : Option String
  shellCommand : Option String
  jobArguments : List String
  targetArguments : List String
  jobInputs : Value
  targetInputs : Value
  idempotent : Bool
  dryRun : Bool
  maxAttempts : ℕ
  retryInitialSeconds : ℕ
  retryMaxSeconds : ℕ
  retryMultiplier : Decimal
  retryJitter : Decimal
  deriving DecidableEq, Repr

def loadExecutionIds (c : Catalog) (jobId targetId : Uuid) : Except StoreError ExecutionRow :=
  match c.jobs.find? fun j => j.id = jobId with
  | none => .error .notFound
  | some j =>
    match c.queues.find? fun q => q.id = j.queueId,
      c.targets.find? fun t => t.id = targetId && t.namespaceId = j.namespaceId with
    | some q, some t =>
      .ok
        { namespaceId := j.namespaceId, jobId := j.id, targetId := t.id, executor := j.executor
          queueId := j.queueId, queueName := q.name, executable := j.executable
          shellCommand := j.shellCommand, jobArguments := j.arguments
          targetArguments := t.arguments, jobInputs := j.inputs, targetInputs := t.inputs
          idempotent := j.idempotent, dryRun := j.dryRun, maxAttempts := j.maxAttempts
          retryInitialSeconds := j.retryInitialSeconds, retryMaxSeconds := j.retryMaxSeconds
          retryMultiplier := j.retryMultiplier, retryJitter := j.retryJitter }
    | _, _ => .error .notFound

/-- `ORDER BY t.name, t.id` over the members of one Target Set. -/
def targetOrder (a b : TargetRow) : Prop := a.name < b.name ∨ (a.name = b.name ∧ a.id ≤ b.id)

instance : DecidableRel targetOrder := fun a b =>
  inferInstanceAs (Decidable (a.name < b.name ∨ (a.name = b.name ∧ a.id ≤ b.id)))

def memberTargets (c : Catalog) (targetSetId : Uuid) : List Uuid :=
  (((c.targetSetMembers.filter fun m => m.targetSetId = targetSetId).flatMap fun m =>
    c.targets.filter fun t => t.id = m.targetId).insertionSort targetOrder).map TargetRow.id

def loadSelectionExecutions (c : Catalog) (jobId : Uuid) :
    TargetSelection → Except StoreError (List ExecutionRow × Option Value)
  | .target targetId => do
    let execution ← loadExecutionIds c jobId targetId
    return ([execution], none)
  | .targetSet targetSetId =>
    match c.jobs.find? fun j => j.id = jobId with
    | none => .error .notFound
    | some j =>
      match c.targetSets.find? fun ts => ts.id = targetSetId && ts.namespaceId = j.namespaceId with
      | none => .error .notFound
      | some ts => do
        let targetIds := memberTargets c targetSetId
        if targetIds.isEmpty then throw .notFound
        let executions ← targetIds.mapM (loadExecutionIds c jobId)
        return (executions, some ts.inputs)

def targetSelection : Option Uuid → Option Uuid → Except StoreError TargetSelection
  | some id, none => .ok (.target id)
  | none, some id => .ok (.targetSet id)
  | _, _ => .error .internal

def executionSnapshotWithInputs (R : Rendering) (runId : Uuid) (execution : ExecutionRow)
    (targetSetInputs : Option Value) (invocationInputs : Value) (trigger : ExecutionTrigger)
    (scheduledAt : Option Instant) : Except String ExecutionSnapshot := do
  let arguments := execution.jobArguments ++ execution.targetArguments
  let inputs ← R.mergeInputs [execution.jobInputs, targetSetInputs.getD (.object []),
    execution.targetInputs, invocationInputs]
  let renderedArguments ← R.renderArguments arguments inputs
  return {
    executor := execution.executor, executable := execution.executable
    shellCommand := execution.shellCommand, argumentTemplates := arguments
    arguments := renderedArguments, inputs := inputs, jobId := some execution.jobId
    trigger := some trigger, scheduledAt := scheduledAt, idempotencyKey := runId
    queueId := execution.queueId, queue := execution.queueName
    idempotent := execution.idempotent, dryRun := execution.dryRun
    retryInitialSeconds := execution.retryInitialSeconds
    retryMaxSeconds := execution.retryMaxSeconds
    retryMultiplier := execution.retryMultiplier, retryJitter := execution.retryJitter }

/-- Immutable values prepared by the existing input merge/rendering boundary. -/
structure PreparedRun where
  id : Uuid
  requestId : Uuid
  jobId : Uuid
  targetId : Uuid
  queueId : Uuid
  maxAttempts : ℕ
  snapshot : SnapshotColumn
  deriving DecidableEq, Repr

/-- The two identifiers `create_attempt_and_outbox` draws. -/
structure DispatchIds where
  attemptId : Uuid
  dispatchId : Uuid
  deriving DecidableEq, Repr

def newAttempt (ids : DispatchIds) (runId : Uuid) (attempt : ℕ) : AttemptRow :=
  { id := ids.attemptId, runId := runId, attempt := attempt, status := .pendingDispatch
    workerId := none, startedAt := none, heartbeatAt := none, leaseExpiresAt := none
    completedAt := none, exitCode := none, stdoutTail := none, stderrTail := none
    outputSequence := 0, error := none }

def newOutbox (ids : DispatchIds) (runId queueId : Uuid) (dispatchDeadline : Option Instant)
    (now : Instant) : OutboxRow :=
  { id := ids.dispatchId, runId := runId, attemptId := ids.attemptId, subject := ⟨queueId⟩
    payload := ⟨ids.dispatchId, runId, ids.attemptId, queueId⟩
    dispatchDeadline := dispatchDeadline, attemptCount := 0, nextAttemptAt := now
    claimedBy := none, claimExpiresAt := none, lastError := none, publishedAt := none
    cancelledAt := none, natsStreamSequence := none }

def createAttemptAndOutbox (ids : DispatchIds) (runId : Uuid) (attempt : ℕ) (queueId : Uuid)
    (dispatchDeadline : Option Instant) (now : Instant) (s : Store) : Except StoreError Store := do
  let s ← insertAttempt (newAttempt ids runId attempt) s
  insertOutbox (newOutbox ids runId queueId dispatchDeadline now) s

def normalRun (prepared : PreparedRun) (rerunOf : Option Uuid) (now : Instant) : RunRow :=
  { id := prepared.id, requestId := some prepared.requestId, rerunOfRunId := rerunOf
    scheduleId := none, jobId := prepared.jobId, targetId := prepared.targetId
    queueId := prepared.queueId, scheduledAt := now, status := .pendingDispatch
    executionSnapshot := prepared.snapshot, attemptCount := 1, maxAttempts := prepared.maxAttempts
    nextRetryAt := none, latenessSeconds := 0, terminalReason := none, queuedAt := none
    startedAt := none, completedAt := none }

/-- Persist ordinary manual/workflow Run intent, its first Attempt, and outbox atomically. -/
def createNormalRun (ids : DispatchIds) (prepared : PreparedRun) (now : Instant) (s : Store) :
    Except StoreError Store := do
  let s ← insertRun (normalRun prepared none now) s
  let s ← createAttemptAndOutbox ids prepared.id 1 prepared.queueId none now s
  return insertRunEvent prepared.id .created now s

structure FreshRuns where
  runId : Uuid → Uuid
  dispatch : Uuid → DispatchIds

/-- `find_run_request`, with its `workflow_owned` column; the inputs are decoded from `jsonb`. -/
def findRunRequest (F : FloatFormat) (s : Store) (requestId : Uuid) :
    Option (RunRequestRow × Bool) :=
  (s.runRequests.find? fun r => r.requestId = requestId).map fun r =>
    ({ r with inputs := stored F (columnInputs r.inputs) },
      s.workflowNodeRuns.any fun n => n.id = requestId)

def targetName (c : Catalog) (targetId : Uuid) : String :=
  ((c.targets.find? fun t => t.id = targetId).map TargetRow.name).getD ""

/-- `ORDER BY t.name, r.id`. -/
def runOrder (c : Catalog) (a b : RunRow) : Prop :=
  targetName c a.targetId < targetName c b.targetId ∨
    (targetName c a.targetId = targetName c b.targetId ∧ a.id ≤ b.id)

instance (c : Catalog) : DecidableRel (runOrder c) := fun a b => inferInstanceAs (Decidable
  (targetName c a.targetId < targetName c b.targetId ∨
    (targetName c a.targetId = targetName c b.targetId ∧ a.id ≤ b.id)))

/-- `runs_for_request`: the Runs of a request that join their Job, Target and Queue. -/
def runsForRequest (s : Store) (requestId : Uuid) : List RunRow :=
  (s.runs.filter fun r => r.requestId = some requestId &&
    (s.catalog.jobs.any fun j => j.id = r.jobId) &&
    (s.catalog.targets.any fun t => t.id = r.targetId) &&
    (s.catalog.queues.any fun q => q.id = r.queueId)).insertionSort (runOrder s.catalog)

def compareRunRequest (existing : RunRequestRow × Bool) (jobId : Uuid) (target : TargetSelection)
    (inputs : Value) : Except StoreError Unit :=
  if !existing.2 && existing.1.jobId = jobId && existing.1.targetId = (selectionIds target).1 &&
      existing.1.targetSetId = (selectionIds target).2 &&
      jsonInputsEqual existing.1.inputs inputs then .ok ()
  else .error .idempotencyConflict

def prepareRun (R : Rendering) (fresh : FreshRuns) (requestId : Uuid)
    (targetSetInputs : Option Value) (inputs : Value) (execution : ExecutionRow) :
    Except StoreError PreparedRun :=
  let runId := fresh.runId execution.targetId
  match executionSnapshotWithInputs R runId execution targetSetInputs inputs .manual none with
  | .ok snapshot => .ok
      { id := runId, requestId := requestId, jobId := execution.jobId
        targetId := execution.targetId, queueId := execution.queueId
        maxAttempts := execution.maxAttempts, snapshot := .execution snapshot }
  | .error _ => .error .internal

def createPreparedRuns (fresh : FreshRuns) (now : Instant) :
    List PreparedRun → Store → Except StoreError Store
  | [], s => .ok s
  | prepared :: rest, s => do
    let s ← createNormalRun (fresh.dispatch prepared.targetId) prepared now s
    createPreparedRuns fresh now rest s

/-- What the transaction of `create_runs` does when it does not fail. -/
inductive RequestCommit where
  | created
  | requestTaken
  deriving DecidableEq, Repr

/-- The transaction of `create_runs`, after its pre-check found no request. A unique
violation on `run_requests` rolls back and is reported as `requestTaken`. -/
def createRunsTransaction (R : Rendering) (requestId jobId : Uuid) (target : TargetSelection)
    (inputs : Value) (fresh : FreshRuns) (now : Instant) (s : Store) :
    Except StoreError (RequestCommit × Store) := do
  let (executions, targetSetInputs) ← loadSelectionExecutions s.catalog jobId target
  let prepared ← executions.mapM (prepareRun R fresh requestId targetSetInputs inputs)
  let namespaceId ← match executions with
    | [] => throw .notFound
    | execution :: _ => pure execution.namespaceId
  if s.runRequests.any fun r => r.requestId = requestId then
    return (.requestTaken, s)
  let s ← insertRunRequest ⟨requestId, namespaceId, jobId, (selectionIds target).1,
    (selectionIds target).2, inputs⟩ s
  let s ← createPreparedRuns fresh now prepared s
  return (.created, s)

/-- `COALESCE(rr.inputs, s.inputs, '{}')` for the source of a re-run. -/
def invocationInputs (s : Store) (source : RunRow) : Value :=
  match (s.runRequests.find? fun r => some r.requestId = source.requestId) with
  | some request => request.inputs
  | none =>
    match (s.schedules.find? fun sch => some sch.id = source.scheduleId) with
    | some schedule => schedule.inputs
    | none => .object []

/-- The snapshot of a re-run: the column of its source, decoded, under another identity and
origin. -/
def rerunSnapshot (F : FloatFormat) (runId : Uuid) (source : RunRow)
    (snapshot : ExecutionSnapshot) : ExecutionSnapshot :=
  { decodeSnapshot F (columnSnapshot snapshot) with
    idempotencyKey := runId
    jobId := some source.jobId
    queueId := source.queueId
    trigger := some .rerun
    scheduledAt := none }

/-- The transaction of `insert_rerun`. -/
def insertRerunTransaction (F : FloatFormat) (sourceId requestId runId : Uuid) (ids : DispatchIds)
    (now : Instant) (s : Store) : Except StoreError (RequestCommit × Store) :=
  match s.runs.find? fun r => r.id = sourceId with
  | none => .error .notFound
  | some source =>
    match s.catalog.jobs.find? fun j => j.id = source.jobId,
      s.catalog.queues.find? fun q => q.id = source.queueId with
    | some job, some queue =>
      if !queue.enabled then .error .queueDisabled
      else
        match source.executionSnapshot with
        | .renderError _ _ => .error .internal
        | .execution snapshot =>
          if s.runRequests.any fun r => r.requestId = requestId then .ok (.requestTaken, s)
          else do
            let s ← insertRunRequest ⟨requestId, job.namespaceId, source.jobId,
              some source.targetId, none, stored F (columnInputs (invocationInputs s source))⟩ s
            let s ← insertRun (normalRun ⟨runId, requestId, source.jobId, source.targetId,
              source.queueId, source.maxAttempts,
              .execution (rerunSnapshot F runId source snapshot)⟩ (some sourceId) now) s
            let s ← createAttemptAndOutbox ids runId 1 source.queueId none now s
            return (.created, insertRunEvent runId .created now s)
    | _, _ => .error .notFound

structure FreshOccurrences where
  runId : Instant → Uuid → Uuid
  dispatch : Instant → Uuid → DispatchIds

/-- The snapshot, status and reason an occurrence is inserted with. -/
def occurrenceRow (R : Rendering) (runId : Uuid) (occurrence : PlannedOccurrence)
    (execution : ExecutionRow) (targetSetInputs : Option Value) (scheduleInputs : Value) :
    SnapshotColumn × RunStatus × Option String :=
  match occurrence.execute, executionSnapshotWithInputs R runId execution targetSetInputs
      scheduleInputs .schedule (some occurrence.scheduledAt) with
  | true, .ok snapshot => (.execution snapshot, .pendingDispatch, none)
  | false, .ok snapshot => (.execution snapshot, .skipped, occurrence.reason)
  | _, .error message =>
    (.renderError message
      (match R.mergeInputs [execution.jobInputs, targetSetInputs.getD (.object []),
          execution.targetInputs, scheduleInputs] with
        | .ok inputs => inputs
        | .error _ => .object []),
      .failed, some ("execution template could not be rendered: " ++ message))

def occurrenceRun (runId scheduleId : Uuid) (occurrence : PlannedOccurrence)
    (execution : ExecutionRow) (row : SnapshotColumn × RunStatus × Option String)
    (now : Instant) : RunRow :=
  { id := runId, requestId := none, rerunOfRunId := none, scheduleId := some scheduleId
    jobId := execution.jobId, targetId := execution.targetId, queueId := execution.queueId
    scheduledAt := occurrence.scheduledAt, status := row.2.1, executionSnapshot := row.1
    attemptCount := if row.2.1 = .pendingDispatch then 1 else 0
    maxAttempts := execution.maxAttempts, nextRetryAt := none
    latenessSeconds := occurrence.latenessSeconds, terminalReason := row.2.2
    queuedAt := none, startedAt := none
    completedAt := if row.2.1 = .pendingDispatch then none else some now }

def dispatchOccurrence (ids : DispatchIds) (runId queueId : Uuid) (occurrence : PlannedOccurrence)
    (status : RunStatus) (now : Instant) (s : Store) : Except StoreError Store :=
  if status = .pendingDispatch then
    createAttemptAndOutbox ids runId 1 queueId occurrence.dispatchDeadline now s
  else .ok s

def recordOccurrence (runId scheduleId targetId : Uuid) (occurrence : PlannedOccurrence)
    (status : RunStatus) (terminalReason : Option String) (now : Instant) (s : Store) : Store :=
  let event : RunEventType :=
    if status = .pendingDispatch then .created
    else if status = .failed then .status .failed else .status .skipped
  let s := insertRunEvent runId event now s
  { s with scheduleEvents := s.scheduleEvents ++ [⟨scheduleId, event, occurrence.scheduledAt,
      runId, occurrence.latenessSeconds, occurrence.reason, targetId, terminalReason⟩] }

def insertScheduledOccurrence (R : Rendering) (scheduleId : Uuid) (fresh : FreshOccurrences)
    (occurrence : PlannedOccurrence) (execution : ExecutionRow) (targetSetInputs : Option Value)
    (scheduleInputs : Value) (now : Instant) (s : Store) : Except StoreError Store :=
  let runId := fresh.runId occurrence.scheduledAt execution.targetId
  let row := occurrenceRow R runId occurrence execution targetSetInputs scheduleInputs
  if s.runs.any fun r => r.scheduleId = some scheduleId &&
      r.scheduledAt = occurrence.scheduledAt && r.targetId = execution.targetId then .ok s
  else do
    let s ← insertRun (occurrenceRun runId scheduleId occurrence execution row now) s
    let s ← dispatchOccurrence (fresh.dispatch occurrence.scheduledAt execution.targetId) runId
      execution.queueId occurrence row.2.1 now s
    return recordOccurrence runId scheduleId execution.targetId occurrence row.2.1 row.2.2 now s

/-- The two nested loops of `commit_schedule_plan`, flattened in their order. -/
def insertOccurrences (R : Rendering) (scheduleId : Uuid) (fresh : FreshOccurrences)
    (targetSetInputs : Option Value) (scheduleInputs : Value) (now : Instant) :
    List (PlannedOccurrence × ExecutionRow) → Store → Except StoreError Store
  | [], s => .ok s
  | (occurrence, execution) :: rest, s => do
    let s ← insertScheduledOccurrence R scheduleId fresh occurrence execution targetSetInputs
      scheduleInputs now s
    insertOccurrences R scheduleId fresh targetSetInputs scheduleInputs now rest s

def claimedSchedule (plan : SchedulePlan) (sch : ScheduleRow) : Bool :=
  sch.id = plan.scheduleId && sch.claimOwner = some plan.owner

/-- The closing update of `commit_schedule_plan`. -/
def advanceSchedule (plan : SchedulePlan) (s : Store) : Store :=
  { s with
    schedules := update (claimedSchedule plan)
      (fun sch => { sch with
        nextRunAt := plan.nextRunAt
        lastRunAt := (plan.occurrences.getLast?.map PlannedOccurrence.scheduledAt).or sch.lastRunAt
        enabled := if plan.disable then false else sch.enabled
        claimOwner := none
        claimExpiresAt := none }) s.schedules }

/-- The occurrences of a claimed schedule, materialised for its current selection. -/
def materializePlan (R : Rendering) (plan : SchedulePlan) (fresh : FreshOccurrences)
    (now : Instant) (schedule : ScheduleRow) (s : Store) : Except StoreError Store := do
  let selection ← targetSelection schedule.targetId schedule.targetSetId
  let (executions, targetSetInputs) ← loadSelectionExecutions s.catalog schedule.jobId selection
  insertOccurrences R plan.scheduleId fresh targetSetInputs schedule.inputs now
    (plan.occurrences.flatMap fun occurrence => executions.map fun e => (occurrence, e)) s

def commitSchedulePlan (R : Rendering) (plan : SchedulePlan) (fresh : FreshOccurrences)
    (now : Instant) (s : Store) : Outcome Unit :=
  match s.schedules.find? fun sch => claimedSchedule plan sch &&
      sch.claimExpiresAt.any fun expires => now < expires with
  | none => (.error .conflict, s)
  | some schedule =>
    match materializePlan R plan fresh now schedule s with
    | .error e => (.error e, s)
    | .ok t =>
      if t.schedules.countP (claimedSchedule plan) = 1 then (.ok (), advanceSchedule plan t)
      else (.error .conflict, s)

def outboxOrder (a b : OutboxRow) : Prop :=
  a.nextAttemptAt < b.nextAttemptAt ∨ (a.nextAttemptAt = b.nextAttemptAt ∧ a.id ≤ b.id)

instance : DecidableRel outboxOrder := fun a b => inferInstanceAs (Decidable
  (a.nextAttemptAt < b.nextAttemptAt ∨ (a.nextAttemptAt = b.nextAttemptAt ∧ a.id ≤ b.id)))

/-- The filter of `claim_outbox`. -/
def claimable (now : Instant) (o : OutboxRow) : Bool :=
  o.unsettled && o.nextAttemptAt ≤ now && (o.dispatchDeadline.all fun d => now ≤ d) &&
    o.claimExpiresAt.all fun e => e < now

def outboxRecord (o : OutboxRow) : OutboxRecord :=
  ⟨o.id, o.runId, o.attemptId, o.subject, o.payload, o.attemptCount⟩

def claimOutbox (owner : Uuid) (limit : ℕ) (leaseSeconds : ℤ) (locked : OutboxRow → Bool)
    (now : Instant) (s : Store) : List OutboxRecord × Store :=
  let candidates := selectBatch (claimable now) locked outboxOrder limit s.outbox
  (candidates.map outboxRecord,
    updateOutbox (fun o => candidates.any fun c => c.id = o.id)
      (fun o => { o with
        claimedBy := some owner
        claimExpiresAt := some (now + seconds leaseSeconds) }) s)

/-- The guard of the first update of `mark_published`. -/
def ownedDispatch (owner : Uuid) (record : OutboxRecord) (o : OutboxRow) : Bool :=
  o.id = record.id && o.runId = record.runId && o.claimedBy = some owner && o.publishedAt.isNone

-- The three updates of `mark_published`: the outbox row, its Attempt and its Run.

def publishedDispatch (streamSequence : ℕ) (now : Instant) (o : OutboxRow) : OutboxRow :=
  { o with
    publishedAt := some now
    natsStreamSequence := some streamSequence
    claimedBy := none
    claimExpiresAt := none
    lastError := none }

def queuedAttempt (a : AttemptRow) : AttemptRow := { a with status := .queued }

def queuedRow (now : Instant) (r : RunRow) : RunRow :=
  { r with status := .queued, queuedAt := some now }

def settleDispatch (owner : Uuid) (record : OutboxRecord) (streamSequence : ℕ) (now : Instant)
    (s : Store) : Store :=
  updateOutbox (ownedDispatch owner record) (publishedDispatch streamSequence now) s

def enqueueAttempt (attemptId : Uuid) (s : Store) : Store :=
  updateAttempts (fun a => a.id = attemptId && a.status = .pendingDispatch) queuedAttempt s

def enqueueRun (runId : Uuid) (now : Instant) (s : Store) : Store :=
  updateRuns (fun r => r.id = runId && r.status = .pendingDispatch) (queuedRow now) now s

def publishDispatch (owner : Uuid) (record : OutboxRecord) (streamSequence : ℕ) (now : Instant)
    (s : Store) : Store :=
  insertRunEvent record.runId (.status .queued) now
    (enqueueRun record.runId now
      (enqueueAttempt record.attemptId (settleDispatch owner record streamSequence now s)))

def markPublished (owner : Uuid) (record : OutboxRecord) (streamSequence : ℕ) (now : Instant)
    (s : Store) : Outcome Unit :=
  if 2 ^ 63 ≤ streamSequence then (.error .internal, s)
  else if s.outbox.countP (ownedDispatch owner record) ≠ 1 then (.error .conflict, s)
  else (.ok (), publishDispatch owner record streamSequence now s)

/-- `bounded_error`: at most 1024 characters. -/
def boundedError (value : String) : String := String.ofList (value.toList.take 1024)

def recordPublishFailure (owner dispatchId : Uuid) (message : String) (nextAttemptAt : Instant)
    (s : Store) : Store :=
  updateOutbox (fun o => o.id = dispatchId && o.claimedBy = some owner && o.publishedAt.isNone)
    (fun o => { o with
      attemptCount := o.attemptCount + 1
      lastError := some (boundedError message)
      nextAttemptAt := nextAttemptAt
      claimedBy := none
      claimExpiresAt := none }) s

def notClaimed : ClaimResponse := ⟨false, 60, none⟩

/-- The guard of the first update of `claim_attempt`. -/
def grantable (request : ClaimRequest) (s : Store) (a : AttemptRow) : Bool :=
  a.id = request.attemptId && a.runId = request.runId && a.status = .queued &&
    s.runs.any fun r => r.id = a.runId && r.queueId = request.queueId

def grantedAttempt (request : ClaimRequest) (now : Instant) (a : AttemptRow) : AttemptRow :=
  { a with
    status := .running
    workerId := some request.workerId
    startedAt := some now
    heartbeatAt := some now
    leaseExpiresAt := some (now + seconds 60) }

def startedRow (now : Instant) (r : RunRow) : RunRow :=
  { r with status := .running, startedAt := r.startedAt.or (some now) }

/-- The update of the Attempt in `claim_attempt`. -/
def grantAttempt (request : ClaimRequest) (now : Instant) (s : Store) : Store :=
  updateAttempts (grantable request s) (grantedAttempt request now) s

def queuedRun (runId : Uuid) (r : RunRow) : Bool := r.id = runId && r.status = .queued

/-- The update of the Run in `claim_attempt`, with its event. -/
def startRun (runId : Uuid) (now : Instant) (s : Store) : Store :=
  insertRunEvent runId (.status .running) now
    (updateRuns (queuedRun runId) (startedRow now) now s)

/-- `claim_attempt`. The snapshot is decoded after the commit. -/
def claimAttempt (request : ClaimRequest) (now : Instant) (s : Store) : Outcome ClaimResponse :=
  match s.runAttempts.find? (grantable request s) with
  | none => (.ok notClaimed, s)
  | some attempt =>
    match s.runs.find? (queuedRun attempt.runId) with
    | none => (.error .conflict, s)
    | some run =>
      let t := startRun attempt.runId now (grantAttempt request now s)
      match run.executionSnapshot with
      | .execution snapshot => (.ok ⟨true, 60, some snapshot⟩, t)
      | .renderError _ _ => (.error .internal, t)

def leased (attemptId : Uuid) (workerId : String) (now : Instant) (a : AttemptRow) : Bool :=
  a.id = attemptId && a.workerId = some workerId && a.status = .running &&
    a.leaseExpiresAt.any fun expires => now < expires

def renewLease (request : LeaseRequest) (now : Instant) (s : Store) : Bool × Store :=
  let held := leased request.attemptId request.workerId now
  (s.runAttempts.countP held = 1,
    updateAttempts held (fun a => { a with
      heartbeatAt := some now
      leaseExpiresAt := some (now + seconds 60) }) s)

def recordAttemptOutput (request : OutputSnapshotRequest) (now : Instant) (s : Store) :
    Outcome Bool :=
  if 2 ^ 63 ≤ request.sequence then (.error .internal, s)
  else
    let held : AttemptRow → Bool := fun a =>
      leased request.attemptId request.workerId now a && a.outputSequence < request.sequence
    (.ok (s.runAttempts.countP held = 1),
      updateAttempts held (fun a => { a with
        stdoutTail := some request.stdoutTail
        stderrTail := some request.stderrTail
        outputSequence := request.sequence }) s)

/-- The longest suffix, on a character boundary, of at most `limit` UTF-8 bytes. -/
def suffixWithin (limit : ℕ) : List Char → List Char
  | [] => []
  | c :: cs =>
    if ((c :: cs).map Char.utf8Size).sum ≤ limit then c :: cs else suffixWithin limit cs

def boundedTail (value : String) : String := String.ofList (suffixWithin 65536 value.toList)

def CompletionRequest.attemptStatus (request : CompletionRequest) : AttemptStatus :=
  if request.skipped then .skipped else if request.succeeded then .succeeded else .failed

/-- `should_retry` for a Run row. -/
def shouldRetry (request : CompletionRequest) (run : RunRow) : Bool :=
  !request.succeeded && !request.skipped && run.executionSnapshot.idempotent &&
    run.attemptCount < run.maxAttempts

def completionStatus (request : CompletionRequest) (run : RunRow) : RunStatus :=
  if request.skipped then .skipped
  else if request.succeeded then .succeeded
  else if shouldRetry request run then .retryWait
  else .failed

def completedAttempt (request : CompletionRequest) (now : Instant) (a : AttemptRow) : AttemptRow :=
  { a with
    status := CompletionRequest.attemptStatus request
    completedAt := some now
    leaseExpiresAt := none
    exitCode := request.exitCode
    stdoutTail := some (boundedTail request.stdoutTail)
    stderrTail := some (boundedTail request.stderrTail)
    error := request.error.map boundedError }

def completedRow (request : CompletionRequest) (run : RunRow) (retryAt now : Instant) (r : RunRow) :
    RunRow :=
  { r with
    status := completionStatus request run
    completedAt := if completionStatus request run = .retryWait then none else some now
    nextRetryAt := if shouldRetry request run then some retryAt else none
    terminalReason := if request.skipped then some "dry run"
      else request.error.map boundedError }

/-- The update of the Attempt in `complete_attempt`. -/
def completeLease (request : CompletionRequest) (now : Instant) (s : Store) : Store :=
  updateAttempts (leased request.attemptId request.workerId now) (completedAttempt request now) s

/-- The update of the Run in `complete_attempt`, with its event. -/
def completeRun (request : CompletionRequest) (run : RunRow) (retryAt now : Instant) (s : Store) :
    Store :=
  insertRunEvent run.id (.status (completionStatus request run)) now
    (updateRuns (fun r => r.id = run.id && r.status = .running)
      (completedRow request run retryAt now) now s)

/-- `complete_attempt`. The retry instant is computed in floating point, so it is an
argument; a snapshot without retry columns fails to decode and rolls back. -/
def completeAttempt (request : CompletionRequest) (retryAt now : Instant) (s : Store) :
    Outcome Bool :=
  if request.skipped && !request.succeeded then (.error .internal, s)
  else
    match s.runAttempts.find? (leased request.attemptId request.workerId now) with
    | none => (.ok false, s)
    | some attempt =>
      match s.runs.find? fun r => r.id = attempt.runId with
      | none => (.error .internal, s)
      | some run =>
        match run.executionSnapshot with
        | .renderError _ _ => (.error .internal, s)
        | .execution _ =>
          (.ok true, completeRun request run retryAt now (completeLease request now s))

def misfireDeadlineExpired : String := "misfire dispatch deadline expired"

def deadlineOrder (a b : OutboxRow) : Prop :=
  a.dispatchDeadline.getD 0 < b.dispatchDeadline.getD 0 ∨
    (a.dispatchDeadline.getD 0 = b.dispatchDeadline.getD 0 ∧ a.id ≤ b.id)

instance : DecidableRel deadlineOrder := fun a b => inferInstanceAs (Decidable
  (a.dispatchDeadline.getD 0 < b.dispatchDeadline.getD 0 ∨
    (a.dispatchDeadline.getD 0 = b.dispatchDeadline.getD 0 ∧ a.id ≤ b.id)))

-- The three updates of an expired dispatch: the outbox row, its Attempt and its Run.

def cancelledDispatch (now : Instant) (o : OutboxRow) : OutboxRow :=
  { o with
    cancelledAt := some now
    claimedBy := none
    claimExpiresAt := none
    lastError := some misfireDeadlineExpired }

def deadAttempt (now : Instant) (a : AttemptRow) : AttemptRow :=
  { a with
    status := .dead
    completedAt := some now
    error := some misfireDeadlineExpired }

def skippedRow (now : Instant) (r : RunRow) : RunRow :=
  { r with
    status := .skipped
    completedAt := some now
    terminalReason := some misfireDeadlineExpired }

def cancelDispatch (dispatchId : Uuid) (now : Instant) (s : Store) : Store :=
  updateOutbox (fun o => o.id = dispatchId && o.unsettled) (cancelledDispatch now) s

def killAttempt (attemptId : Uuid) (now : Instant) (s : Store) : Store :=
  updateAttempts (fun a => a.id = attemptId && a.status = .pendingDispatch) (deadAttempt now) s

def skipRun (runId : Uuid) (now : Instant) (s : Store) : Store :=
  updateRuns (fun r => r.id = runId && r.status = .pendingDispatch) (skippedRow now) now s

/-- The body of the loop of `reconcile_expired_dispatches`. -/
def expireDispatch (now : Instant) (s : Store) (row : OutboxRow) : Store :=
  insertRunEvent row.runId (.status .skipped) now
    (skipRun row.runId now (killAttempt row.attemptId now (cancelDispatch row.id now s)))

def expiredDispatches (limit : ℕ) (locked : OutboxRow → Bool) (now : Instant) (s : Store) :
    List OutboxRow :=
  selectBatch (fun o => o.unsettled && o.dispatchDeadline.any fun d => d < now) locked
    deadlineOrder limit s.outbox

def reconcileExpiredDispatches (limit : ℕ) (locked : OutboxRow → Bool) (now : Instant)
    (s : Store) : Store :=
  (expiredDispatches limit locked now s).foldl (expireDispatch now) s

/-- `runs_attempt_bounds`, re-checked by an update of `attempt_count`. -/
def checkAttemptBounds (s : Store) : Except StoreError Store :=
  if s.runs.all fun r => r.attemptCount ≤ r.maxAttempts then .ok s else .error .internal

def retryOrder (a b : RunRow) : Prop :=
  a.nextRetryAt.getD 0 < b.nextRetryAt.getD 0 ∨
    (a.nextRetryAt.getD 0 = b.nextRetryAt.getD 0 ∧ a.id ≤ b.id)

instance : DecidableRel retryOrder := fun a b => inferInstanceAs (Decidable
  (a.nextRetryAt.getD 0 < b.nextRetryAt.getD 0 ∨
    (a.nextRetryAt.getD 0 = b.nextRetryAt.getD 0 ∧ a.id ≤ b.id)))

def rescheduledRow (attempt : ℕ) (r : RunRow) : RunRow :=
  { r with
    status := .pendingDispatch
    attemptCount := attempt
    nextRetryAt := none
    startedAt := none }

/-- Put a Run whose current status is `status` back to dispatch. -/
def rescheduleRun (runId : Uuid) (status : RunStatus) (attempt : ℕ) (now : Instant) (s : Store) :
    Store :=
  updateRuns (fun r => r.id = runId && r.status = status) (rescheduledRow attempt) now s

/-- Open the next Attempt of a Run whose current status is `status`. -/
def reopenRun (fresh : Uuid → DispatchIds) (now : Instant) (status : RunStatus) (runId : Uuid)
    (attemptCount : ℕ) (queueId : Uuid) (s : Store) : Except StoreError Store := do
  let s ← checkAttemptBounds (rescheduleRun runId status (attemptCount + 1) now s)
  createAttemptAndOutbox (fresh runId) runId (attemptCount + 1) queueId none now s

/-- The body of the loop of `reconcile_due_retries`. -/
def reopenDueRetry (fresh : Uuid → DispatchIds) (now : Instant) (s : Store) (row : RunRow) :
    Except StoreError Store :=
  match row.executionSnapshot.queueId with
  | none => .error .internal
  | some queueId => reopenRun fresh now .retryWait row.id row.attemptCount queueId s

def dueRetries (limit : ℕ) (locked : RunRow → Bool) (now : Instant) (s : Store) : List RunRow :=
  selectBatch (fun r => r.status = .retryWait && r.nextRetryAt.any fun t => t ≤ now) locked
    retryOrder limit s.runs

def reconcileDueRetries (limit : ℕ) (locked : RunRow → Bool) (fresh : Uuid → DispatchIds)
    (now : Instant) (s : Store) : Except StoreError Store :=
  (dueRetries limit locked now s).foldlM (reopenDueRetry fresh now) s

def leaseOrder (a b : AttemptRow × RunRow) : Prop :=
  a.1.leaseExpiresAt.getD 0 < b.1.leaseExpiresAt.getD 0 ∨
    (a.1.leaseExpiresAt.getD 0 = b.1.leaseExpiresAt.getD 0 ∧ a.1.id ≤ b.1.id)

instance : DecidableRel leaseOrder := fun a b => inferInstanceAs (Decidable
  (a.1.leaseExpiresAt.getD 0 < b.1.leaseExpiresAt.getD 0 ∨
    (a.1.leaseExpiresAt.getD 0 = b.1.leaseExpiresAt.getD 0 ∧ a.1.id ≤ b.1.id)))

/-- `run_attempts a JOIN runs r ON r.id = a.run_id`. -/
def attemptJoinRun (s : Store) : List (AttemptRow × RunRow) :=
  s.runAttempts.flatMap fun a => (s.runs.filter fun r => r.id = a.runId).map fun r => (a, r)

def endedAttempt (retry : Bool) (now : Instant) (a : AttemptRow) : AttemptRow :=
  { a with
    status := if retry then .failed else .unknown
    completedAt := some now
    leaseExpiresAt := none
    error := some "worker lease expired" }

def endLease (attemptId : Uuid) (retry : Bool) (now : Instant) (s : Store) : Store :=
  updateAttempts (fun a => a.id = attemptId && a.status = .running) (endedAttempt retry now) s

/-- A Run that may not be retried after its lease ran out. -/
def abandonedRow (now : Instant) (r : RunRow) : RunRow :=
  { r with
    status := .unknown
    terminalReason := some "worker lease expired after an ambiguous execution"
    completedAt := some now }

def abandonRun (runId : Uuid) (now : Instant) (s : Store) : Store :=
  updateRuns (fun r => r.id = runId && r.status = .running) (abandonedRow now) now s

/-- `idempotent && attempt_count < max_attempts`. -/
def retryable (r : RunRow) : Bool :=
  r.executionSnapshot.idempotent && r.attemptCount < r.maxAttempts

/-- The body of the loop of `reconcile_expired_leases`. -/
def expireLease (fresh : Uuid → DispatchIds) (now : Instant) (s : Store)
    (row : AttemptRow × RunRow) : Except StoreError Store :=
  match row.2.executionSnapshot.queueId with
  | none => .error .internal
  | some queueId =>
    if retryable row.2 then
      reopenRun fresh now .running row.2.id row.2.attemptCount queueId
        (endLease row.1.id true now s)
    else .ok (abandonRun row.2.id now (endLease row.1.id false now s))

def expiredLeases (limit : ℕ) (locked : AttemptRow × RunRow → Bool) (now : Instant)
    (s : Store) : List (AttemptRow × RunRow) :=
  selectBatch (fun row => row.1.status = .running && row.1.leaseExpiresAt.any fun e => e < now)
    locked leaseOrder limit (attemptJoinRun s)

def reconcileExpiredLeases (limit : ℕ) (locked : AttemptRow × RunRow → Bool)
    (fresh : Uuid → DispatchIds) (now : Instant) (s : Store) : Except StoreError Store :=
  (expiredLeases limit locked now s).foldlM (expireLease fresh now) s

def releaseOutboxClaims (now : Instant) (s : Store) : Store :=
  updateOutbox (fun o => o.unsettled && o.claimExpiresAt.any fun e => e < now)
    (fun o => { o with claimedBy := none, claimExpiresAt := none }) s

/-- One bounded repair pass: what other transactions hold locked, the identifiers drawn for
new Attempts, and the clock of each statement group. -/
structure RepairPass where
  limit : ℕ
  lockedOutbox : OutboxRow → Bool
  lockedRuns : RunRow → Bool
  lockedLeases : AttemptRow × RunRow → Bool
  freshRetries : Uuid → DispatchIds
  freshLeases : Uuid → DispatchIds
  dispatchesAt : Instant
  retriesAt : Instant
  leasesAt : Instant
  releasesAt : Instant

/-- The execution transaction of `reconcile`. -/
def reconcile (pass : RepairPass) (s : Store) : Outcome Unit := commit s do
  let s := reconcileExpiredDispatches pass.limit pass.lockedOutbox pass.dispatchesAt s
  let s ← reconcileDueRetries pass.limit pass.lockedRuns pass.freshRetries pass.retriesAt s
  let s ← reconcileExpiredLeases pass.limit pass.lockedLeases pass.freshLeases pass.leasesAt s
  return ((), releaseOutboxClaims pass.releasesAt s)

theorem createAttemptAndOutbox_ok {ids : DispatchIds} {runId queueId : Uuid} {attempt : ℕ}
    {deadline : Option Instant} {now : Instant} {s t : Store}
    (h : createAttemptAndOutbox ids runId attempt queueId deadline now s = .ok t) :
    (∀ a ∈ s.runAttempts, a.id ≠ ids.attemptId) ∧
      (∀ o ∈ s.outbox, o.id ≠ ids.dispatchId ∧ o.attemptId ≠ ids.attemptId) ∧
      t = { s with
        runAttempts := s.runAttempts ++ [newAttempt ids runId attempt]
        outbox := s.outbox ++ [newOutbox ids runId queueId deadline now] } := by
  obtain ⟨s₁, h₁, h₂⟩ := ok_of_bind h
  obtain ⟨ha, rfl⟩ := insertAttempt_ok h₁
  obtain ⟨ho, rfl⟩ := insertOutbox_ok h₂
  exact ⟨ha, ho, rfl⟩

theorem createNormalRun_ok {ids : DispatchIds} {prepared : PreparedRun} {now : Instant}
    {s t : Store} (h : createNormalRun ids prepared now s = .ok t) :
    ∃ s₁ s₂, insertRun (normalRun prepared none now) s = .ok s₁ ∧
      createAttemptAndOutbox ids prepared.id 1 prepared.queueId none now s₁ = .ok s₂ ∧
      t = insertRunEvent prepared.id .created now s₂ := by
  obtain ⟨s₁, h₁, h⟩ := ok_of_bind h
  obtain ⟨s₂, h₂, h⟩ := ok_of_bind h
  exact ⟨s₁, s₂, h₁, h₂, (Except.ok.inj h).symm⟩

/-- A committed `create_runs` either found its request taken or reserved it first. -/
theorem createRunsTransaction_ok {R : Rendering} {requestId jobId : Uuid}
    {target : TargetSelection} {inputs : Value} {fresh : FreshRuns} {now : Instant}
    {s t : Store} {c : RequestCommit}
    (h : createRunsTransaction R requestId jobId target inputs fresh now s = .ok (c, t)) :
    (c = .requestTaken ∧ t = s ∧ ∃ r ∈ s.runRequests, r.requestId = requestId) ∨
      (c = .created ∧ ∃ executions setInputs prepared namespaceId s₁,
        loadSelectionExecutions s.catalog jobId target = .ok (executions, setInputs) ∧
        executions.mapM (prepareRun R fresh requestId setInputs inputs) = .ok prepared ∧
        insertRunRequest ⟨requestId, namespaceId, jobId, (selectionIds target).1,
          (selectionIds target).2, inputs⟩ s = .ok s₁ ∧
        createPreparedRuns fresh now prepared s₁ = .ok t) := by
  obtain ⟨⟨executions, setInputs⟩, hload, h⟩ := ok_of_bind h
  obtain ⟨prepared, hprepared, h⟩ := ok_of_bind h
  cases executions with
  | nil => cases h
  | cons execution rest =>
    simp only [pure_bind] at h
    split at h
    · rename_i htaken
      cases h
      simp only [List.any_eq_true, decide_eq_true_eq] at htaken
      exact .inl ⟨rfl, rfl, htaken⟩
    · obtain ⟨s₁, h₁, h⟩ := ok_of_bind h
      obtain ⟨s₂, h₂, h⟩ := ok_of_bind h
      cases h
      exact .inr ⟨rfl, _, _, _, _, s₁, hload, hprepared, h₁, h₂⟩

theorem insertRerunTransaction_ok {F : FloatFormat} {sourceId requestId runId : Uuid}
    {ids : DispatchIds} {now : Instant} {s t : Store} {c : RequestCommit}
    (h : insertRerunTransaction F sourceId requestId runId ids now s = .ok (c, t)) :
    (c = .requestTaken ∧ t = s ∧ ∃ r ∈ s.runRequests, r.requestId = requestId) ∨
      (c = .created ∧
        ∃ (source : RunRow) (snapshot : ExecutionSnapshot) (job : JobRow) (s₁ s₂ s₃ : Store),
        s.runs.find? (fun r => r.id = sourceId) = some source ∧
        source.executionSnapshot = .execution snapshot ∧
        insertRunRequest ⟨requestId, job.namespaceId, source.jobId, some source.targetId, none,
          stored F (columnInputs (invocationInputs s source))⟩ s = .ok s₁ ∧
        insertRun (normalRun ⟨runId, requestId, source.jobId, source.targetId, source.queueId,
          source.maxAttempts, .execution (rerunSnapshot F runId source snapshot)⟩ (some sourceId)
          now) s₁ = .ok s₂ ∧
        createAttemptAndOutbox ids runId 1 source.queueId none now s₂ = .ok s₃ ∧
        t = insertRunEvent runId .created now s₃) := by
  unfold insertRerunTransaction at h
  split at h
  · cases h
  rename_i source hsource
  split at h
  · rename_i job queue _ _
    split at h
    · cases h
    split at h
    · cases h
    rename_i snapshot hsnapshot
    split at h
    · rename_i htaken
      cases h
      simp only [List.any_eq_true, decide_eq_true_eq] at htaken
      exact .inl ⟨rfl, rfl, htaken⟩
    · obtain ⟨s₁, h₁, h⟩ := ok_of_bind h
      obtain ⟨s₂, h₂, h⟩ := ok_of_bind h
      obtain ⟨s₃, h₃, h⟩ := ok_of_bind h
      cases h
      exact .inr ⟨rfl, source, snapshot, job, s₁, s₂, s₃, hsource, hsnapshot, h₁, h₂, h₃, rfl⟩
  · cases h

/-- An occurrence is already recorded, inserted terminal, or inserted with its dispatch. -/
theorem insertScheduledOccurrence_ok {R : Rendering} {scheduleId : Uuid}
    {fresh : FreshOccurrences} {occurrence : PlannedOccurrence} {execution : ExecutionRow}
    {setInputs : Option Value} {inputs : Value} {now : Instant} {s t : Store}
    (h : insertScheduledOccurrence R scheduleId fresh occurrence execution setInputs inputs now s =
      .ok t) :
    let runId := fresh.runId occurrence.scheduledAt execution.targetId
    let row := occurrenceRow R runId occurrence execution setInputs inputs
    t = s ∨ ∃ s₁ s₂,
      insertRun (occurrenceRun runId scheduleId occurrence execution row now) s = .ok s₁ ∧
      dispatchOccurrence (fresh.dispatch occurrence.scheduledAt execution.targetId) runId
        execution.queueId occurrence row.2.1 now s₁ = .ok s₂ ∧
      t = recordOccurrence runId scheduleId execution.targetId occurrence row.2.1 row.2.2 now
        s₂ := by
  intro runId row
  unfold insertScheduledOccurrence at h
  split at h
  · exact .inl (Except.ok.inj h).symm
  · obtain ⟨s₁, h₁, h⟩ := ok_of_bind h
    obtain ⟨s₂, h₂, h⟩ := ok_of_bind h
    exact .inr ⟨s₁, s₂, h₁, h₂, (Except.ok.inj h).symm⟩

theorem occurrenceRow_cases (R : Rendering) (runId : Uuid) (occurrence : PlannedOccurrence)
    (execution : ExecutionRow) (setInputs : Option Value) (inputs : Value) :
    let row := occurrenceRow R runId occurrence execution setInputs inputs
    (row.2.1 = .pendingDispatch ∧ ∃ snapshot, row.1 = .execution snapshot ∧
      executionSnapshotWithInputs R runId execution setInputs inputs .schedule
        (some occurrence.scheduledAt) = .ok snapshot) ∨
    row.2.1.isTerminal = true := by
  intro row
  simp only [row, occurrenceRow]
  split
  · rename_i snapshot _ hsnapshot
    exact .inl ⟨rfl, snapshot, rfl, hsnapshot⟩
  · exact .inr rfl
  · exact .inr rfl

theorem commitSchedulePlan_cases (R : Rendering) (plan : SchedulePlan) (fresh : FreshOccurrences)
    (now : Instant) (s : Store) :
    (commitSchedulePlan R plan fresh now s).2 = s ∨
      ∃ setInputs inputs rows t,
        insertOccurrences R plan.scheduleId fresh setInputs inputs now rows s = .ok t ∧
        (commitSchedulePlan R plan fresh now s).2 = advanceSchedule plan t := by
  unfold commitSchedulePlan
  split
  · exact .inl rfl
  rename_i schedule _
  split
  · exact .inl rfl
  rename_i t ht
  split
  · obtain ⟨selection, _, ht⟩ := ok_of_bind ht
    obtain ⟨⟨executions, setInputs⟩, _, ht⟩ := ok_of_bind ht
    exact .inr ⟨setInputs, _, _, t, ht, rfl⟩
  · exact .inl rfl

theorem reopenRun_ok {fresh : Uuid → DispatchIds} {now : Instant} {status : RunStatus}
    {runId queueId : Uuid} {attemptCount : ℕ} {s t : Store}
    (h : reopenRun fresh now status runId attemptCount queueId s = .ok t) :
    createAttemptAndOutbox (fresh runId) runId (attemptCount + 1) queueId none now
      (rescheduleRun runId status (attemptCount + 1) now s) = .ok t := by
  obtain ⟨s₁, h₁, h₂⟩ := ok_of_bind h
  unfold checkAttemptBounds at h₁
  split at h₁
  · cases h₁
    exact h₂
  · cases h₁

theorem executionSnapshot_queueId {R : Rendering} {runId : Uuid} {execution : ExecutionRow}
    {setInputs : Option Value} {inputs : Value} {trigger : ExecutionTrigger}
    {scheduledAt : Option Instant} {snapshot : ExecutionSnapshot}
    (h : executionSnapshotWithInputs R runId execution setInputs inputs trigger scheduledAt =
      .ok snapshot) : snapshot.queueId = execution.queueId := by
  obtain ⟨inputs', _, h⟩ := ok_of_bind h
  obtain ⟨arguments, _, h⟩ := ok_of_bind h
  cases h
  rfl

theorem prepareRun_ok {R : Rendering} {fresh : FreshRuns} {requestId : Uuid}
    {setInputs : Option Value} {inputs : Value} {execution : ExecutionRow} {prepared : PreparedRun}
    (h : prepareRun R fresh requestId setInputs inputs execution = .ok prepared) :
    prepared.requestId = requestId ∧ ∃ snapshot, prepared.snapshot = .execution snapshot ∧
      snapshot.queueId = prepared.queueId := by
  simp only [prepareRun] at h
  split at h
  · rename_i snapshot hsnapshot
    cases h
    exact ⟨rfl, snapshot, rfl, executionSnapshot_queueId hsnapshot⟩
  · cases h

end RunStore
