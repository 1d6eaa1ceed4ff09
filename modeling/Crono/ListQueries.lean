import Crono.ApplicationCalls
import Crono.KeysetPages
import Crono.SchedulePlanner
import Crono.UuidText

/-! The list operations: the pages of named resources and of the history of Runs and invocations,
and the checks of limit and cursor before them. A request reads one state of the database. -/
namespace ListQueries

open RunDomain WorkflowDomain ControlPlaneSchema RunStore WorkflowStore SchedulePlanner
open Capabilities GrantSets GrantPolicy ApplicationCalls

structure NamespaceRow where
  id : Uuid
  name : String
  deriving DecidableEq, Repr

/-- The columns of `crono.schedules` besides those its planner writes. -/
structure ScheduleColumns where
  row : ScheduleRow
  name : String
  config : ScheduleConfig
  deriving DecidableEq, Repr

structure WorkerDiagnostics where
  hostname : String
  os : String
  architecture : String
  defaultShellPath : String
  defaultShellPresent : Bool
  dryRun : Bool
  lang : Option String
  lcAll : Option String
  tz : Option String
  deriving DecidableEq, Repr

/-- `crono.worker_presence`. -/
structure WorkerPresenceRow where
  workerId : String
  queueId : Uuid
  concurrency : ℕ
  version : String
  diagnostics : Option WorkerDiagnostics
  startedAt : Instant
  lastSeenAt : Instant
  deriving DecidableEq, Repr

structure Database where
  store : Store
  namespaces : List NamespaceRow
  schedules : List ScheduleColumns
  workers : List WorkerPresenceRow

structure Page (α : Type) where
  items : List α
  nextCursor : Option String
  deriving DecidableEq, Repr

def emptyPage {α : Type} : Page α := ⟨[], none⟩

def page {ρ α : Type} (rows : List ρ) (limit : ℕ) (mapper : ρ → Except StoreError α)
    (cursor : α → String) : Except StoreError (Page α) := do
  let hasMore := limit < rows.length
  let items ← (if hasMore then rows.dropLast else rows).mapM mapper
  return ⟨items, if hasMore then items.getLast?.map cursor else none⟩

/-- The collation of the database: texts compare by their weights, and only equal texts weigh
the same. -/
structure Collation (κ : Type) where
  weight : String → κ
  injective : Function.Injective weight

section Names

variable {κ : Type} [LinearOrder κ] (C : Collation κ)

/-- `WHERE $1 IS NULL OR name > $1 ORDER BY name LIMIT $2`. -/
def named {ρ : Type} (name : ρ → String) (rows : List ρ) (limit : ℕ) (after : Option String) :
    List ρ :=
  ((rows.filter fun r => after.all fun cursor => C.weight cursor < C.weight (name r)).insertionSort
    fun a b => C.weight (name a) ≤ C.weight (name b)).take limit

def namespaceFromRow (row : NamespaceRow) : Except StoreError NamespaceRow := do
  let _ ← resourceName row.name
  return row

def listNamespaces (visibility : VisibilityScope) (limit : ℕ) (after : Option String)
    (db : Database) : Except StoreError (Page NamespaceRow) :=
  match visibility with
  | .none => .ok emptyPage
  | _ => page (named C NamespaceRow.name (db.namespaces.filter fun n => visibility.includes n.id)
      (limit + 1) after) limit namespaceFromRow NamespaceRow.name

def queueFromRow (row : QueueRow) : Except StoreError QueueRow := do
  let _ ← resourceName row.name
  return row

def listQueues (limit : ℕ) (after : Option String) (db : Database) :
    Except StoreError (Page QueueRow) :=
  page (named C QueueRow.name db.store.catalog.queues (limit + 1) after) limit queueFromRow
    QueueRow.name

def ofNamespace {ρ τ : Type} (namespaceId : Uuid) (visibility : VisibilityScope)
    (owner : ρ → Uuid) (join : ρ → Option τ) (rows : List ρ) : List τ :=
  (rows.filter fun r => owner r = namespaceId && visibility.includes namespaceId).filterMap join

def namespaceName (db : Database) (id : Uuid) : Option String :=
  (db.namespaces.find? fun n => n.id = id).map NamespaceRow.name

def queueName (db : Database) (id : Uuid) : Option String :=
  (db.store.catalog.queues.find? fun q => q.id = id).map QueueRow.name

structure JobRecord where
  job : JobRow
  namespaceName : String
  queueName : String
  deriving DecidableEq, Repr

def joinedJob (db : Database) (j : JobRow) : Option JobRecord := do
  let namespaceName ← namespaceName db j.namespaceId
  let queueName ← queueName db j.queueId
  return ⟨j, namespaceName, queueName⟩

def jobFromRow (row : JobRecord) : Except StoreError JobRecord := do
  if 2 ^ 16 ≤ row.job.maxAttempts then throw .internal
  let _ ← resourceName row.namespaceName
  let _ ← resourceName row.queueName
  let _ ← resourceName row.job.name
  return row

def listJobs (namespaceId : Uuid) (visibility : VisibilityScope) (limit : ℕ)
    (after : Option String) (db : Database) : Except StoreError (Page JobRecord) :=
  match visibility with
  | .none => .ok emptyPage
  | _ => page (named C (fun row => row.job.name) (ofNamespace namespaceId visibility
      JobRow.namespaceId (joinedJob db) db.store.catalog.jobs) (limit + 1) after) limit jobFromRow
      fun record => record.job.name

structure TargetRecord where
  target : TargetRow
  namespaceName : String
  deriving DecidableEq, Repr

def joinedTarget (db : Database) (t : TargetRow) : Option TargetRecord := do
  let namespaceName ← namespaceName db t.namespaceId
  return ⟨t, namespaceName⟩

def targetFromRow (row : TargetRecord) : Except StoreError TargetRecord := do
  let _ ← resourceName row.namespaceName
  let _ ← resourceName row.target.name
  return row

def listTargets (namespaceId : Uuid) (visibility : VisibilityScope) (limit : ℕ)
    (after : Option String) (db : Database) : Except StoreError (Page TargetRecord) :=
  match visibility with
  | .none => .ok emptyPage
  | _ => page (named C (fun row => row.target.name) (ofNamespace namespaceId visibility
      TargetRow.namespaceId (joinedTarget db) db.store.catalog.targets) (limit + 1) after) limit
      targetFromRow fun record => record.target.name

structure ScheduleRecord where
  schedule : ScheduleColumns
  namespaceName : String
  jobName : String
  targetName : Option String
  deriving DecidableEq, Repr

/-- `COALESCE(t.name, ts.name)` over the two left joins. -/
def scheduleTargetName (db : Database) (row : ScheduleRow) : Option String :=
  ((row.targetId.bind fun id => (db.store.catalog.targets.find? fun t => t.id = id).map
    TargetRow.name)).or
  (row.targetSetId.bind fun id => (db.store.catalog.targetSets.find? fun ts => ts.id = id).map
    TargetSetRow.name)

def joinedSchedule (db : Database) (s : ScheduleColumns) : Option ScheduleRecord := do
  let namespaceName ← namespaceName db s.row.namespaceId
  let job ← db.store.catalog.jobs.find? fun j => j.id = s.row.jobId
  return ⟨s, namespaceName, job.name, scheduleTargetName db s.row⟩

def scheduleFromRow (row : ScheduleRecord) : Except StoreError ScheduleRecord := do
  let _ ← resourceName row.schedule.name
  let _ ← targetSelection row.schedule.row.targetId row.schedule.row.targetSetId
  if 2 ^ 16 ≤ row.schedule.config.maxCatchupRuns then throw .internal
  let _ ← resourceName row.namespaceName
  let _ ← resourceName row.jobName
  let _ ← resourceName (row.targetName.getD "unknown")
  return row

def listSchedules (namespaceId : Uuid) (visibility : VisibilityScope) (limit : ℕ)
    (after : Option String) (db : Database) : Except StoreError (Page ScheduleRecord) :=
  match visibility with
  | .none => .ok emptyPage
  | _ => page (named C (fun row => row.schedule.name) (ofNamespace namespaceId visibility
      (fun s => s.row.namespaceId) (joinedSchedule db) db.schedules) (limit + 1) after) limit
      scheduleFromRow fun record => record.schedule.name

structure TargetSetRecord where
  targetSet : TargetSetRow
  namespaceName : String
  targets : List TargetRow
  deriving DecidableEq, Repr

def joinedTargetSet (db : Database) (ts : TargetSetRow) : Option (TargetSetRow × String) := do
  let namespaceName ← namespaceName db ts.namespaceId
  return (ts, namespaceName)

/-- `load_target_set_record`, with the names of the set, its members and its Namespace. -/
def loadTargetSetRecord (db : Database) (row : TargetSetRow × String) :
    Except StoreError TargetSetRecord := do
  let _ ← resourceName row.1.name
  let targets ← StoreReads.loadTargetSetRecord row.1 db.store
  let _ ← targets.mapM fun t => resourceName t.name
  let _ ← resourceName row.2
  return ⟨row.1, row.2, targets⟩

/-- The rows are taken up to the limit, and the cursor is read off the last record. -/
def listTargetSets (namespaceId : Uuid) (visibility : VisibilityScope) (limit : ℕ)
    (after : Option String) (db : Database) : Except StoreError (Page TargetSetRecord) :=
  match visibility with
  | .none => .ok emptyPage
  | _ => do
    let rows := named C (fun row => row.1.name) (ofNamespace namespaceId visibility
      TargetSetRow.namespaceId (joinedTargetSet db) db.store.catalog.targetSets) (limit + 1) after
    let hasMore := limit < rows.length
    let records ← (rows.take limit).mapM (loadTargetSetRecord db)
    return ⟨records, if hasMore then records.getLast?.map fun r => r.targetSet.name else none⟩

structure WorkerRecord where
  worker : WorkerPresenceRow
  queue : String
  activeExecutions : ℕ
  deriving DecidableEq, Repr

def activeExecutions (db : Database) (now : Instant) (workerId : String) : ℕ :=
  db.store.runAttempts.countP fun a => a.workerId = some workerId && a.status = .running &&
    a.leaseExpiresAt.any fun e => now < e

def joinedWorker (db : Database) (now : Instant) (w : WorkerPresenceRow) :
    Option WorkerRecord := do
  let queue ← queueName db w.queueId
  return ⟨w, queue, activeExecutions db now w.workerId⟩

def workerFromRow (row : WorkerRecord) : Except StoreError WorkerRecord :=
  if 2 ^ 16 ≤ row.worker.concurrency then .error .internal else .ok row

def listWorkers (limit : ℕ) (after : Option String) (now : Instant) (db : Database) :
    Except StoreError (Page WorkerRecord) :=
  page (named C (fun row => row.worker.workerId) (db.workers.filterMap (joinedWorker db now))
    (limit + 1) after) limit workerFromRow fun record => record.worker.workerId

def workflowRows (namespaceId : Uuid) (db : Database) : List (Uuid × String) :=
  (db.store.catalog.workflows.filter fun w => w.namespaceId = namespaceId).map
    fun w => (w.id, w.name)

def loadWorkflow (db : Database) (row : Uuid × String) : Except StoreError WorkflowRecord := do
  let stored ← catalog db.store.catalog row.1
  StoredWorkflow.record stored

/-- The cursor is read off the rows, before the definitions are loaded. -/
def listWorkflows (namespaceId : Uuid) (visibility : VisibilityScope) (limit : ℕ)
    (after : Option String) (db : Database) : Except StoreError (Page WorkflowRecord) :=
  if visibility.includes namespaceId = false then .ok emptyPage
  else do
    let fetched := named C Prod.snd (workflowRows namespaceId db) (limit + 1) after
    let more := limit < fetched.length
    let ids := if more then fetched.dropLast else fetched
    let cursor := if more then ids.getLast?.map Prod.snd else none
    let items ← ids.mapM (loadWorkflow db)
    return ⟨items, cursor⟩

end Names

inductive ListOperation where
  | namespaces
  | queues
  | jobs (namespaceId : Uuid)
  | targets (namespaceId : Uuid)
  | targetSets (namespaceId : Uuid)
  | schedules (namespaceId : Uuid)
  | workers
  | workflows (namespaceId : Uuid)
  | runs (filter : StoreReads.RunListFilter)
  | workflowRuns (workflowId : Uuid)
  deriving DecidableEq, Repr

/-- What a request finds: the caller's visibility, the clock and the database. -/
structure Moment where
  visibility : VisibilityScope
  now : Instant
  database : Database

inductive ItemId where
  | uuid (id : Uuid)
  | worker (id : String)
  deriving DecidableEq, Repr

/-- An item as a traversal sees it: its identity, and the cursor that would follow it. -/
structure Entry where
  id : ItemId
  cursor : String
  deriving DecidableEq, Repr

def uuidText (id : Uuid) : String := String.ofList (UuidText.hyphenated id)

def idEntry (id : Uuid) : Entry := ⟨.uuid id, uuidText id⟩

def workerEntry (workerId : String) : Entry := ⟨.worker workerId, workerId⟩

inductive RequestError where
  | application (e : ApplicationError)
  /-- The query string was rejected. -/
  | query
  deriving DecidableEq, Repr

def pageCursor (after : Option String) : Except ApplicationError (Option String) :=
  match after with
  | some cursor =>
    if validateResourceName cursor then .ok (some cursor)
    else .error (.invalid "after" "after must be a cursor returned by a previous page")
  | none => .ok none

/-- The query parameter `before`. -/
def parseBefore (before : Option String) : Except RequestError (Option Uuid) :=
  match before with
  | some text =>
    match UuidText.parseStr text.toList with
    | some id => .ok (some id)
    | none => .error .query
  | none => .ok none

/-- The page as a traversal sees it. -/
def answer {α : Type} (entry : α → Entry) (result : Except StoreError (Page α)) :
    Except RequestError (Page Entry) :=
  match result with
  | .ok p => .ok ⟨p.items.map entry, p.nextCursor⟩
  | .error e => .error (.application (.ofStore e))

def byName {α : Type} (entry : α → Entry) (cursor : Option String)
    (list : Option String → Except StoreError (Page α)) : Except RequestError (Page Entry) :=
  match pageCursor cursor with
  | .error e => .error (.application e)
  | .ok after => answer entry (list after)

def byId {α : Type} (id : α → Uuid) (cursor : Option String)
    (list : Option Uuid → Except StoreError (StoreReads.Page α)) :
    Except RequestError (Page Entry) :=
  match parseBefore cursor with
  | .error e => .error e
  | .ok before => answer (fun a => idEntry (id a))
      ((list before).map fun p => ⟨p.items, p.nextCursor.map uuidText⟩)

variable {κ : Type} [LinearOrder κ] (C : Collation κ)

def ListOperation.list (op : ListOperation) (limit : ℕ) (cursor : Option String) (m : Moment) :
    Except RequestError (Page Entry) :=
  match op with
  | .namespaces => byName (fun n => ⟨.uuid n.id, n.name⟩) cursor fun after =>
      listNamespaces C m.visibility limit after m.database
  | .queues => byName (fun q => ⟨.uuid q.id, q.name⟩) cursor fun after =>
      listQueues C limit after m.database
  | .jobs namespaceId => byName (fun r => ⟨.uuid r.job.id, r.job.name⟩) cursor fun after =>
      listJobs C namespaceId m.visibility limit after m.database
  | .targets namespaceId => byName (fun r => ⟨.uuid r.target.id, r.target.name⟩) cursor fun after =>
      listTargets C namespaceId m.visibility limit after m.database
  | .targetSets namespaceId =>
    byName (fun r => ⟨.uuid r.targetSet.id, r.targetSet.name⟩) cursor fun after =>
      listTargetSets C namespaceId m.visibility limit after m.database
  | .schedules namespaceId =>
    byName (fun r => ⟨.uuid r.schedule.row.id, r.schedule.name⟩) cursor fun after =>
      listSchedules C namespaceId m.visibility limit after m.database
  | .workers => byName (fun r => workerEntry r.worker.workerId) cursor fun after =>
      listWorkers C limit after m.now m.database
  | .workflows namespaceId => byName (fun r => ⟨.uuid r.id, r.definition.name⟩) cursor fun after =>
      listWorkflows C namespaceId m.visibility limit after m.database
  | .runs filter => byId StoreReads.RunRecord.id cursor fun before =>
      StoreReads.listRuns m.visibility filter limit before m.database.store
  | .workflowRuns workflowId => byId WorkflowRunRecord.id cursor fun before =>
      StoreReads.listWorkflowRuns workflowId m.visibility limit before m.database.store

def ListOperation.request (op : ListOperation) (limit : Option ℕ) (cursor : Option String)
    (m : Moment) : Except RequestError (Page Entry) :=
  match pageLimit limit with
  | .error e => .error (.application e)
  | .ok limit => op.list C limit cursor m

/-- A client that follows the cursors through the moments of its requests, until a page has none or
a request fails. -/
def ListOperation.walk (op : ListOperation) (limit : Option ℕ) :
    Option String → List Moment → List (Moment × Page Entry)
  | _, [] => []
  | cursor, m :: rest =>
    match op.request C limit cursor m with
    | .error _ => []
    | .ok p => (m, p) :: p.nextCursor.elim [] fun next => op.walk limit (some next) rest

end ListQueries
