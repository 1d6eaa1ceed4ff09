import Crono.CatalogEdits
import Crono.ListTraversals
import Crono.ScheduleStore
import Crono.WorkerControl

/-! The statements on Namespaces, Queues, Jobs, Targets, Target Sets, Schedules and Workflows with
the constraints the schema puts on them, beside the messages of the workers and the statements of
the servers. Each statement that is committed is an edit of the catalog, and keeps the Queues that
are in use. -/
namespace ResourceTables

open RunDomain WorkflowDomain SqlTable ControlPlaneSchema RunStore WorkflowStore SchedulePlanner
open Capabilities ScheduleStore
open CatalogEdits (Edit saved editedCatalog editedSchedules editedGraphs)
open WorkflowCatalog (Graphs FreshGraph definitions)
open ListQueries (NamespaceRow)
open WorkerControl (Server Decoders)
open FallibleLists

/-- The columns of `crono.queues` that executions do not read. -/
structure QueueSettings where
  id : Uuid
  description : Option String
  system : Bool
  deriving DecidableEq, Repr

/-- The columns of `crono.schedules` that its planner does not write. -/
structure ScheduleSettings where
  id : Uuid
  name : String
  config : ScheduleConfig
  deriving DecidableEq, Repr

mutual
def valueTexts : Value → List String
  | .null | .bool _ | .number _ => []
  | .string text => [text]
  | .array items => itemTexts items
  | .object fields => fieldTexts fields

def itemTexts : List Value → List String
  | [] => []
  | item :: rest => valueTexts item ++ itemTexts rest

def fieldTexts : List (String × Value) → List String
  | [] => []
  | (key, value) :: rest => key :: valueTexts value ++ fieldTexts rest
end

/-- Neither `text` nor `jsonb` stores a NUL. -/
def storable (texts : List String) : Bool := texts.all fun t => !t.toList.contains (Char.ofNat 0)

/-- `n <= d`, without a fraction. -/
def atLeast (n : ℤ) (d : Decimal) : Bool :=
  n * 10 ^ (-d.exponent).toNat ≤ d.mantissa * 10 ^ d.exponent.toNat

/-- `d <= n`. -/
def atMost (n : ℤ) (d : Decimal) : Bool :=
  d.mantissa * 10 ^ d.exponent.toNat ≤ n * 10 ^ (-d.exponent).toNat

def defaultName : String := "default"

/-- The checks of `crono.queues`. -/
def queueAdmissible (row : QueueRow) (q : QueueSettings) : Bool :=
  validateResourceName row.name && (q.description.all fun d => d.length ≤ 500) &&
    (!q.system || row.enabled) && decide (row.name = defaultName) == q.system

/-- `executable LIKE '/%'`; a check on a missing value passes. -/
def absolutePath (path : Option String) : Bool := path.all fun p => p.toList.head? = some '/'

/-- `jobs_process_configuration`. -/
def jobProcess (row : JobRow) : Bool :=
  match row.executor with
  | .noop => row.executable.isNone && row.shellCommand.isNone
  | .process => absolutePath row.executable && row.shellCommand.isNone
  | .shell => absolutePath row.executable &&
      row.shellCommand.any fun c => 1 ≤ c.utf8ByteSize && c.utf8ByteSize ≤ 65536

/-- `jobs_retry_valid`. -/
def jobRetry (row : JobRow) : Bool :=
  1 ≤ row.maxAttempts && row.maxAttempts ≤ 100 && 1 ≤ row.retryInitialSeconds &&
    row.retryInitialSeconds ≤ 86400 && row.retryInitialSeconds ≤ row.retryMaxSeconds &&
    row.retryMaxSeconds ≤ 86400 && atLeast 1 row.retryMultiplier &&
    atLeast 0 row.retryJitter && atMost 1 row.retryJitter

/-- The checks of `crono.jobs`. -/
def jobAdmissible (row : JobRow) : Bool :=
  validateResourceName row.name && jobProcess row && ExecutionInputs.isObject row.inputs &&
    jobRetry row

def jobTexts (row : JobRow) : List String :=
  row.executable.toList ++ row.shellCommand.toList ++ row.arguments ++ valueTexts row.inputs

/-- The checks of `crono.targets`. -/
def targetAdmissible (row : TargetRow) : Bool :=
  validateResourceName row.name && ExecutionInputs.isObject row.inputs

def targetTexts (row : TargetRow) : List String := row.arguments ++ valueTexts row.inputs

/-- The checks of `crono.target_sets`. -/
def targetSetAdmissible (name : String) (inputs : Value) : Bool :=
  validateResourceName name && ExecutionInputs.isObject inputs

/-- `schedules_misfire_grace_valid`; the column is a PostgreSQL `integer`. -/
def misfireAdmissible (config : ScheduleConfig) : Bool :=
  match config.misfirePolicy with
  | .gracePeriod => config.misfireGraceSeconds.all fun n => n < 2 ^ 31
  | .runLate | .skip => config.misfireGraceSeconds.isNone

/-- `schedules_catchup_bounds`. -/
def catchupAdmissible (config : ScheduleConfig) : Bool :=
  1 ≤ config.maxCatchupRuns && config.maxCatchupRuns ≤ 1000 &&
    60 ≤ config.maxCatchupAgeSeconds && config.maxCatchupAgeSeconds ≤ 31536000

/-- `schedules_target_selection`. -/
def selectsOne (row : ScheduleRow) : Bool := row.targetId.isSome != row.targetSetId.isSome

/-- The checks of `crono.schedules`; the timing has the shape of `schedules_shape` by its type. -/
def scheduleAdmissible (row : ScheduleRow) (c : ScheduleSettings) : Bool :=
  selectsOne row && ExecutionInputs.isObject row.inputs && validateResourceName c.name &&
    misfireAdmissible c.config && catchupAdmissible c.config && 0 < row.revision

def scheduleTexts (row : ScheduleRow) (config : ScheduleConfig) : List String :=
  valueTexts row.inputs ++ match config.timing with
    | .cron expression timezone => [expression, timezone]
    | .once _ => []

/-- The server with the tables it administers. The rows that its transactions read and write are
those of the control plane. -/
structure Deployment where
  server : Server
  graphs : Graphs
  namespaces : List NamespaceRow
  queues : List QueueSettings
  schedules : List ScheduleSettings

abbrev Deployment.store (s : Deployment) : Store := s.server.control.store

structure Tables where
  namespaces : List NamespaceRow
  queues : List QueueSettings
  catalog : Catalog
  scheduleRows : List ScheduleRow
  schedules : List ScheduleSettings
  graphs : Graphs

def Deployment.tables (s : Deployment) : Tables :=
  ⟨s.namespaces, s.queues, s.store.catalog, s.store.schedules, s.schedules, s.graphs⟩

def Tables.withQueues (t : Tables) (rows : List QueueRow) (queues : List QueueSettings) : Tables :=
  { t with queues := queues, catalog := { t.catalog with queues := rows } }

def Tables.withCatalog (t : Tables) (result : Except StoreError Catalog) :
    Except StoreError Tables :=
  result.map fun catalog => { t with catalog := catalog }

def Tables.withGraphs (t : Tables) (graphs : Graphs) : Tables :=
  { t with graphs := graphs, catalog := { t.catalog with workflows := definitions graphs } }

def hasNamespace (namespaces : List NamespaceRow) (id : Uuid) : Bool :=
  namespaces.any fun n => n.id = id

def createNamespace (row : NamespaceRow) (s : Deployment) : Except StoreError Tables :=
  if !validateResourceName row.name then .error .internal
  else if s.namespaces.any fun n => n.id = row.id || n.name = row.name then .error .conflict
  else .ok { s.tables with namespaces := s.namespaces ++ [row] }

/-- The foreign keys into `crono.namespaces`. -/
def namespaceReferenced (id : Uuid) (s : Deployment) : Bool :=
  (s.store.catalog.jobs.any fun j => j.namespaceId = id) ||
    (s.store.catalog.targets.any fun t => t.namespaceId = id) ||
    (s.store.catalog.targetSets.any fun ts => ts.namespaceId = id) ||
    (s.store.schedules.any fun row => row.namespaceId = id) ||
    (s.store.runRequests.any fun q => q.namespaceId = id) ||
    (s.graphs.workflows.any fun w => w.namespaceId = id) ||
    s.store.workflowRuns.any fun w => w.namespaceId = id

def deleteNamespace (id : Uuid) (s : Deployment) : Except StoreError Tables :=
  if !hasNamespace s.namespaces id then .error .notFound
  else if namespaceReferenced id s then .error .inUse
  else .ok { s.tables with namespaces := s.namespaces.filter fun n => n.id ≠ id }

def createQueue (id : Uuid) (name : String) (description : Option String) (s : Deployment) :
    Except StoreError Tables :=
  let row : QueueRow := ⟨id, name, true⟩
  let q : QueueSettings := ⟨id, description, false⟩
  if !storable description.toList then .error .invalidData
  else if !queueAdmissible row q then .error .internal
  else if s.store.catalog.queues.any fun x => x.id = id || x.name = name then .error .conflict
  else .ok (s.tables.withQueues (s.store.catalog.queues ++ [row]) (s.queues ++ [q]))

def updateQueue (id : Uuid) (name : String) (description : Option String) (enabled : Bool)
    (s : Deployment) : Except StoreError Tables :=
  if !storable description.toList then .error .invalidData
  else
    match s.queues.find? fun q => q.id = id with
    | none => .error .notFound
    | some q =>
      if !queueAdmissible ⟨id, name, enabled⟩ { q with description := description } then
        .error .internal
      else if s.store.catalog.queues.any fun x => x.id ≠ id && x.name = name then .error .conflict
      else .ok (s.tables.withQueues
        (update (fun x => x.id = id) (fun x => ⟨x.id, name, enabled⟩) s.store.catalog.queues)
        (update (fun x => x.id = id) (fun x => { x with description := description }) s.queues))

/-- The foreign keys into `crono.queues`. -/
def queueReferenced (id : Uuid) (s : Deployment) : Bool :=
  (s.store.catalog.jobs.any fun j => j.queueId = id) ||
    (s.store.runs.any fun r => r.queueId = id) ||
    (s.server.presence.any fun row => row.queueId = id) ||
    s.store.workflowNodeExecutions.any fun e => e.queueId = id

def deleteQueue (id : Uuid) (s : Deployment) : Except StoreError Tables :=
  if !s.queues.any fun q => q.id = id then .error .notFound
  else if queueReferenced id s then .error .inUse
  else .ok (s.tables.withQueues (s.store.catalog.queues.filter fun q => q.id ≠ id)
    (s.queues.filter fun q => q.id ≠ id))

def createJob (row : JobRow) (s : Deployment) : Except StoreError Tables :=
  if !storable (jobTexts row) then .error .invalidData
  else if !hasNamespace s.namespaces row.namespaceId ||
      !(s.store.catalog.queues.any fun q => q.id = row.queueId && q.enabled) then .error .notFound
  else if !jobAdmissible row then .error .internal
  else s.tables.withCatalog (CatalogEdits.createJob row s.store.catalog)

/-- A check fails after the Job and its Queue are found, and before the index is asked. -/
def updateJob (id : Uuid) (row : JobRow) (s : Deployment) : Except StoreError Tables :=
  if !storable (jobTexts row) then .error .invalidData
  else
    match CatalogEdits.updateJob id row s.store.catalog with
    | .error .notFound => .error .notFound
    | result => if !jobAdmissible row then .error .internal else s.tables.withCatalog result

def createTarget (row : TargetRow) (s : Deployment) : Except StoreError Tables :=
  if !storable (targetTexts row) then .error .invalidData
  else if !hasNamespace s.namespaces row.namespaceId then .error .notFound
  else if !targetAdmissible row then .error .internal
  else s.tables.withCatalog (CatalogEdits.createTarget row s.store.catalog)

/-- `crono.protect_default_target_name`. -/
def renamesDefault (namespaces : List NamespaceRow) (old : TargetRow) (name : String) : Bool :=
  old.name = defaultName && name ≠ old.name &&
    namespaces.any fun n => n.id = old.namespaceId && n.name = defaultName

def updateTarget (id : Uuid) (row : TargetRow) (s : Deployment) : Except StoreError Tables :=
  if !storable (targetTexts row) then .error .invalidData
  else
    match s.store.catalog.targets.find? fun t => t.id = id with
    | none => .error .notFound
    | some old =>
      if renamesDefault s.namespaces old row.name || !targetAdmissible row then .error .internal
      else s.tables.withCatalog (CatalogEdits.updateTarget id row s.store.catalog)

def deleteTarget (id : Uuid) (s : Deployment) : Except StoreError Tables :=
  s.tables.withCatalog (CatalogEdits.deleteTarget id s.store)

/-- `create_target_set`, for ids that the application has validated. -/
def createTargetSet (row : TargetSetRow) (targetIds : List Uuid) (s : Deployment) :
    Except StoreError Tables :=
  if !storable (valueTexts row.inputs) then .error .invalidData
  else if !hasNamespace s.namespaces row.namespaceId then .error .notFound
  else if !targetSetAdmissible row.name row.inputs then .error .internal
  else s.tables.withCatalog (CatalogEdits.createTargetSet row targetIds s.store.catalog)

def updateTargetSet (id : Uuid) (name : String) (inputs : Value) (targetIds : List Uuid)
    (s : Deployment) : Except StoreError Tables :=
  if !storable (valueTexts inputs) then .error .invalidData
  else if !s.store.catalog.targetSets.any fun ts => ts.id = id then .error .notFound
  else if !targetSetAdmissible name inputs then .error .internal
  else s.tables.withCatalog
    (CatalogEdits.updateTargetSet id name inputs targetIds s.store.catalog)

structure NewSchedule where
  namespaceId : Uuid
  name : String
  jobId : Uuid
  target : TargetSelection
  inputs : Value
  config : ScheduleConfig
  nextRunAt : Instant
  deriving DecidableEq

def newScheduleRow (id : Uuid) (new : NewSchedule) : ScheduleRow :=
  ⟨id, new.namespaceId, new.jobId, (selectionIds new.target).1, (selectionIds new.target).2,
    new.inputs, true, some new.nextRunAt, none, 1, none, none⟩

def scheduleNamed (s : Deployment) (namespaceId : Uuid) (name : String) : Bool :=
  s.store.schedules.any fun row => row.namespaceId = namespaceId &&
    s.schedules.any fun c => c.id = row.id && c.name = name

/-- The foreign keys of `crono.schedules`. -/
def scheduleRefers (s : Deployment) (new : NewSchedule) : Bool :=
  hasNamespace s.namespaces new.namespaceId &&
    (s.store.catalog.jobs.any fun j => j.id = new.jobId) &&
    match new.target with
    | .target id => s.store.catalog.targets.any fun t => t.id = id
    | .targetSet id => s.store.catalog.targetSets.any fun ts => ts.id = id

/-- `crono.enforce_schedule_namespace_match`. -/
def scheduleNamespaceMatch (c : Catalog) (new : NewSchedule) : Bool :=
  (c.jobs.any fun j => j.id = new.jobId && j.namespaceId = new.namespaceId) &&
    match new.target with
    | .target id => c.targets.any fun t => t.id = id && t.namespaceId = new.namespaceId
    | .targetSet id => c.targetSets.any fun ts => ts.id = id && ts.namespaceId = new.namespaceId

def createSchedule (id : Uuid) (new : NewSchedule) (s : Deployment) : Except StoreError Tables :=
  let row := newScheduleRow id new
  let c : ScheduleSettings := ⟨id, new.name, new.config⟩
  if !storable (scheduleTexts row new.config) then .error .invalidData
  else if !scheduleAdmissible row c then .error .internal
  else if (s.store.schedules.any fun x => x.id = id) || scheduleNamed s new.namespaceId new.name
  then .error .conflict
  else if !scheduleRefers s new then .error .inUse
  else if !scheduleNamespaceMatch s.store.catalog new then .error .internal
  else .ok { s.tables with
    scheduleRows := s.store.schedules ++ [row], schedules := s.schedules ++ [c] }

def setScheduleEnabled (id : Uuid) (revision : ℕ) (enabled : Bool) (nextRunAt : Option Instant)
    (s : Deployment) : Except StoreError Tables :=
  let (answer, t) := ScheduleStore.setScheduleEnabled id revision enabled nextRunAt s.store
  answer.map fun _ => { s.tables with scheduleRows := t.schedules }

/-- `claim_due_schedules`, which an instance follows with commits of plans. -/
def claimDueSchedules (owner : Uuid) (limit : ℕ) (leaseSeconds : ℤ) (locked : ScheduleRow → Bool)
    (now : Instant) (s : Deployment) : Except StoreError Tables :=
  let (_, t) := ScheduleStore.claimDueSchedules owner limit leaseSeconds locked now s.store
  .ok { s.tables with scheduleRows := t.schedules }

/-- A Namespace that is gone is found out right after the first insertion. -/
def createWorkflow (fresh : FreshGraph) (namespaceId : Uuid) (definition : WorkflowDefinition)
    (s : Deployment) : Except StoreError Tables :=
  if hasNamespace s.namespaces namespaceId then
    match WorkflowCatalog.write s.store.catalog.jobs fresh namespaceId none definition s.graphs with
    | (.ok _, g) => .ok (s.tables.withGraphs g)
    | (.error e, _) => .error e
  else
    match definition.validate with
    | .error _ => .error .invalidData
    | .ok () =>
      match WorkflowCatalog.insertWorkflow fresh.workflowId namespaceId definition s.graphs with
      | .error e => .error e
      | .ok _ => .error .inUse

def replaceWorkflow (fresh : FreshGraph) (namespaceId id : Uuid) (revision : ℕ)
    (definition : WorkflowDefinition) (s : Deployment) : Except StoreError Tables :=
  match WorkflowCatalog.write s.store.catalog.jobs fresh namespaceId (some (id, revision))
    definition s.graphs with
  | (.ok _, g) => .ok (s.tables.withGraphs g)
  | (.error e, _) => .error e

def deleteWorkflow (id : Uuid) (s : Deployment) : Except StoreError Tables :=
  match WorkflowCatalog.delete s.store.workflowRuns id s.graphs with
  | (.ok _, g) => .ok (s.tables.withGraphs g)
  | (.error e, _) => .error e

inductive Statement where
  | createNamespace (row : NamespaceRow)
  | deleteNamespace (id : Uuid)
  | createQueue (id : Uuid) (name : String) (description : Option String)
  | updateQueue (id : Uuid) (name : String) (description : Option String) (enabled : Bool)
  | deleteQueue (id : Uuid)
  | createJob (row : JobRow)
  | updateJob (id : Uuid) (row : JobRow)
  | createTarget (row : TargetRow)
  | updateTarget (id : Uuid) (row : TargetRow)
  | deleteTarget (id : Uuid)
  | createTargetSet (row : TargetSetRow) (targetIds : List Uuid)
  | updateTargetSet (id : Uuid) (name : String) (inputs : Value) (targetIds : List Uuid)
  | createSchedule (id : Uuid) (new : NewSchedule)
  | setScheduleEnabled (id : Uuid) (revision : ℕ) (enabled : Bool) (nextRunAt : Option Instant)
  | claimDueSchedules (owner : Uuid) (limit : ℕ) (leaseSeconds : ℤ) (locked : ScheduleRow → Bool)
      (now : Instant)
  | createWorkflow (fresh : FreshGraph) (namespaceId : Uuid) (definition : WorkflowDefinition)
  | replaceWorkflow (fresh : FreshGraph) (namespaceId id : Uuid) (revision : ℕ)
      (definition : WorkflowDefinition)
  | deleteWorkflow (id : Uuid)

def Statement.perform (s : Deployment) : Statement → Except StoreError Tables
  | .createNamespace row => ResourceTables.createNamespace row s
  | .deleteNamespace id => ResourceTables.deleteNamespace id s
  | .createQueue id name description => ResourceTables.createQueue id name description s
  | .updateQueue id name description enabled =>
    ResourceTables.updateQueue id name description enabled s
  | .deleteQueue id => ResourceTables.deleteQueue id s
  | .createJob row => ResourceTables.createJob row s
  | .updateJob id row => ResourceTables.updateJob id row s
  | .createTarget row => ResourceTables.createTarget row s
  | .updateTarget id row => ResourceTables.updateTarget id row s
  | .deleteTarget id => ResourceTables.deleteTarget id s
  | .createTargetSet row targetIds => ResourceTables.createTargetSet row targetIds s
  | .updateTargetSet id name inputs targetIds =>
    ResourceTables.updateTargetSet id name inputs targetIds s
  | .createSchedule id new => ResourceTables.createSchedule id new s
  | .setScheduleEnabled id revision enabled nextRunAt =>
    ResourceTables.setScheduleEnabled id revision enabled nextRunAt s
  | .claimDueSchedules owner limit leaseSeconds locked now =>
    ResourceTables.claimDueSchedules owner limit leaseSeconds locked now s
  | .createWorkflow fresh namespaceId definition =>
    ResourceTables.createWorkflow fresh namespaceId definition s
  | .replaceWorkflow fresh namespaceId id revision definition =>
    ResourceTables.replaceWorkflow fresh namespaceId id revision definition s
  | .deleteWorkflow id => ResourceTables.deleteWorkflow id s

inductive Event where
  | statement (st : Statement)
  | server (e : WorkerControl.Event)

def Tables.edit (t : Tables) : ControlPlane.Command :=
  .editCatalog t.catalog t.scheduleRows

variable (D : Decoders)

def Deployment.commit (s : Deployment) (t : Tables) : Deployment :=
  ⟨WorkerControl.next D s.server (.server t.edit), t.graphs, t.namespaces, t.queues, t.schedules⟩

/-- A statement that fails leaves everything as it was. -/
def next (s : Deployment) : Event → Deployment
  | .statement st =>
    match st.perform s with
    | .ok t => s.commit D t
    | .error _ => s
  | .server e => { s with server := WorkerControl.next D s.server e }

def Statement.Drawn (owner : ResourceScope → Uuid) : Statement → Prop
  | .createJob row => owner (.job row.id) = row.namespaceId
  | .createTarget row => owner (.target row.id) = row.namespaceId
  | .createTargetSet row _ => owner (.targetSet row.id) = row.namespaceId
  | .createWorkflow fresh namespaceId _ => owner (.workflow fresh.workflowId) = namespaceId
  | _ => True

/-- Tables change through the statements above, and through messages and plans. -/
def Enabled (owner : ResourceScope → Uuid) (s : Deployment) : Event → Prop
  | .statement st => st.Drawn owner
  | .server (.server c) => CatalogEdits.editing c = false ∧
      WorkerControl.Enabled s.server (.server c)
  | .server e => WorkerControl.Enabled s.server e

structure Starter where
  namespaceId : Uuid
  queueId : Uuid
  targetId : Uuid
  deriving DecidableEq, Repr

def Starter.namespaceRow (i : Starter) : NamespaceRow := ⟨i.namespaceId, defaultName⟩

def Starter.queueRow (i : Starter) : QueueRow := ⟨i.queueId, defaultName, true⟩

def Starter.queue (i : Starter) : QueueSettings := ⟨i.queueId, some "Default worker queue", true⟩

def Starter.target (i : Starter) : TargetRow :=
  ⟨i.targetId, i.namespaceId, defaultName, [], .object []⟩

def Starter.catalog (i : Starter) : Catalog := ⟨[i.queueRow], [], [i.target], [], [], []⟩

/-- `01_crono.sql` and `02_workflows.sql` on an empty database. -/
def migrated (i : Starter) : Deployment where
  server := ⟨⟨emptyStore i.catalog [], [], [], [], []⟩, [], [], [], []⟩
  graphs := ⟨[], [], []⟩
  namespaces := [i.namespaceRow]
  queues := [i.queue]
  schedules := []

def initial (owner : ResourceScope → Uuid) (i : Starter) (s : Deployment) : Prop :=
  owner (.target i.targetId) = i.namespaceId ∧ s = migrated i

def system (owner : ResourceScope → Uuid) (i : Starter) : TransitionSystem Deployment Event where
  initial := initial owner i
  Enabled := Enabled owner
  next := next D

variable {D} {owner : ResourceScope → Uuid} {i : Starter} {s : Deployment} {t : Tables}

def Deployment.edited (s : Deployment) : CatalogEdits.State := ⟨s.server.control, s.graphs⟩

/-- The edit that a statement is once it has written `t`. -/
def Statement.edit (t : Tables) : Statement → Edit
  | .createNamespace _ | .deleteNamespace _ | .createSchedule _ _ | .setScheduleEnabled _ _ _ _
  | .claimDueSchedules _ _ _ _ _ => .schedules t.scheduleRows
  | .createQueue _ _ _ | .updateQueue _ _ _ _ | .deleteQueue _ => .queues t.catalog.queues
  | .createJob row => .createJob row
  | .updateJob id row => .updateJob id row
  | .createTarget row => .createTarget row
  | .updateTarget id row => .updateTarget id row
  | .deleteTarget id => .deleteTarget id
  | .createTargetSet row targetIds => .createTargetSet row targetIds
  | .updateTargetSet id name inputs targetIds => .updateTargetSet id name inputs targetIds
  | .createWorkflow fresh namespaceId definition => .createWorkflow fresh namespaceId definition
  | .replaceWorkflow fresh namespaceId id revision definition =>
    .replaceWorkflow fresh namespaceId id revision definition
  | .deleteWorkflow id => .deleteWorkflow id

/-- The tables are those the edit leaves behind, with every Queue in use. -/
structure Commits (s : Deployment) (e : Edit) (t : Tables) : Prop where
  catalog : t.catalog = editedCatalog s.edited e
  scheduleRows : t.scheduleRows = editedSchedules s.edited e
  graphs : t.graphs = editedGraphs s.edited e
  queues : ∀ q ∈ s.store.catalog.queues, queueReferenced q.id s = true →
    ∃ q' ∈ t.catalog.queues, q'.id = q.id

theorem Commits.of_queues {e : Edit} (hcatalog : t.catalog = editedCatalog s.edited e)
    (hrows : t.scheduleRows = editedSchedules s.edited e)
    (hgraphs : t.graphs = editedGraphs s.edited e)
    (hqueues : t.catalog.queues = s.store.catalog.queues) : Commits s e t :=
  ⟨hcatalog, hrows, hgraphs, fun q hq _ => ⟨q, hqueues ▸ hq, rfl⟩⟩

theorem withQueues_commits {rows : List QueueRow} {queues : List QueueSettings}
    (hkept : ∀ q ∈ s.store.catalog.queues, queueReferenced q.id s = true →
      ∃ q' ∈ rows, q'.id = q.id) : Commits s (.queues rows) (s.tables.withQueues rows queues) :=
  ⟨rfl, rfl, rfl, hkept⟩

theorem withCatalog_ok {result : Except StoreError Catalog}
    (h : s.tables.withCatalog result = .ok t) :
    ∃ c, result = .ok c ∧ t = { s.tables with catalog := c } := by
  cases result with
  | error => cases h
  | ok c =>
    cases h
    exact ⟨c, rfl, rfl⟩

theorem saved_queues {c : Catalog} {result : Except StoreError Catalog}
    (h : ∀ c', result = .ok c' → c'.queues = c.queues) : (saved c result).queues = c.queues := by
  cases result with
  | error => rfl
  | ok c' => exact h c' rfl

theorem editedCatalog_queues (s : CatalogEdits.State) {e : Edit}
    (h : ∀ queues, e ≠ .queues queues) :
    (editedCatalog s e).queues = s.store.catalog.queues := by
  cases e with
  | queues queues => exact absurd rfl (h queues)
  | schedules schedules => rfl
  | createJob row =>
    refine saved_queues fun c hc => ?_
    rw [(CatalogEdits.createJob_ok hc).2]
  | updateJob id row =>
    refine saved_queues fun c hc => ?_
    rw [CatalogEdits.updateJob_ok hc]
  | createTarget row =>
    refine saved_queues fun c hc => ?_
    rw [(CatalogEdits.createTarget_ok hc).2]
  | updateTarget id row =>
    refine saved_queues fun c hc => ?_
    rw [CatalogEdits.updateTarget_ok hc]
  | deleteTarget id =>
    refine saved_queues fun c hc => ?_
    rw [(CatalogEdits.deleteTarget_ok hc).2]
  | createTargetSet row targetIds =>
    refine saved_queues fun c hc => ?_
    obtain ⟨_, rfl⟩ := CatalogEdits.insertMembers_ok (CatalogEdits.createTargetSet_ok hc).2
    rfl
  | updateTargetSet id name inputs targetIds =>
    refine saved_queues fun c hc => ?_
    obtain ⟨_, rfl⟩ := CatalogEdits.insertMembers_ok (CatalogEdits.updateTargetSet_ok hc).2
    rfl
  | createWorkflow fresh namespaceId definition => rfl
  | replaceWorkflow fresh namespaceId id revision definition => rfl
  | deleteWorkflow id => rfl

theorem withCatalog_commits {e : Edit} {result : Except StoreError Catalog}
    (h : s.tables.withCatalog result = .ok t)
    (hcatalog : editedCatalog s.edited e = saved s.store.catalog result)
    (hrows : editedSchedules s.edited e = s.store.schedules)
    (hgraphs : editedGraphs s.edited e = s.graphs) (he : ∀ queues, e ≠ .queues queues) :
    Commits s e t := by
  obtain ⟨c, rfl, rfl⟩ := withCatalog_ok h
  have hc : editedCatalog s.edited e = c := hcatalog
  have hqueues := editedCatalog_queues s.edited he
  rw [hc] at hqueues
  exact .of_queues hcatalog.symm hrows.symm hgraphs.symm hqueues

theorem createNamespace_commits {row : NamespaceRow} (h : createNamespace row s = .ok t) :
    Commits s (.schedules t.scheduleRows) t := by
  obtain ⟨_, h⟩ := of_check h
  obtain ⟨_, h⟩ := of_check h
  cases h
  exact .of_queues rfl rfl rfl rfl

theorem deleteNamespace_commits {id : Uuid} (h : deleteNamespace id s = .ok t) :
    Commits s (.schedules t.scheduleRows) t := by
  obtain ⟨_, h⟩ := of_check h
  obtain ⟨_, h⟩ := of_check h
  cases h
  exact .of_queues rfl rfl rfl rfl

theorem createQueue_commits {id : Uuid} {name : String} {description : Option String}
    (h : createQueue id name description s = .ok t) : Commits s (.queues t.catalog.queues) t := by
  obtain ⟨_, h⟩ := of_check h
  obtain ⟨_, h⟩ := of_check h
  obtain ⟨_, h⟩ := of_check h
  cases h
  exact withQueues_commits fun q hq _ => ⟨q, List.mem_append_left _ hq, rfl⟩

theorem updateQueue_commits {id : Uuid} {name : String} {description : Option String}
    {enabled : Bool} (h : updateQueue id name description enabled s = .ok t) :
    Commits s (.queues t.catalog.queues) t := by
  obtain ⟨_, h⟩ := of_check h
  split at h
  · cases h
  obtain ⟨_, h⟩ := of_check h
  obtain ⟨_, h⟩ := of_check h
  cases h
  refine withQueues_commits fun q hq _ => ⟨_, mem_update.mpr ⟨q, hq, rfl⟩, ?_⟩
  by_cases hid : q.id = id
  · simp [hid]
  · simp [hid]

theorem deleteQueue_commits {id : Uuid} (h : deleteQueue id s = .ok t) :
    Commits s (.queues t.catalog.queues) t := by
  obtain ⟨_, h⟩ := of_check h
  obtain ⟨hunused, h⟩ := of_check h
  cases h
  refine withQueues_commits fun q hq hused => ⟨q, List.mem_filter.mpr ⟨hq, ?_⟩, rfl⟩
  refine decide_eq_true fun hid => hunused ?_
  rw [← hid]
  exact hused

theorem createJob_commits {row : JobRow} (h : createJob row s = .ok t) :
    Commits s (.createJob row) t := by
  obtain ⟨_, h⟩ := of_check h
  obtain ⟨_, h⟩ := of_check h
  obtain ⟨_, h⟩ := of_check h
  exact withCatalog_commits h rfl rfl rfl nofun

theorem updateJob_commits {id : Uuid} {row : JobRow} (h : updateJob id row s = .ok t) :
    Commits s (.updateJob id row) t := by
  obtain ⟨_, h⟩ := of_check h
  split at h
  · cases h
  obtain ⟨_, h⟩ := of_check h
  exact withCatalog_commits h rfl rfl rfl nofun

theorem createTarget_commits {row : TargetRow} (h : createTarget row s = .ok t) :
    Commits s (.createTarget row) t := by
  obtain ⟨_, h⟩ := of_check h
  obtain ⟨_, h⟩ := of_check h
  obtain ⟨_, h⟩ := of_check h
  exact withCatalog_commits h rfl rfl rfl nofun

theorem updateTarget_commits {id : Uuid} {row : TargetRow} (h : updateTarget id row s = .ok t) :
    Commits s (.updateTarget id row) t := by
  obtain ⟨_, h⟩ := of_check h
  split at h
  · cases h
  obtain ⟨_, h⟩ := of_check h
  exact withCatalog_commits h rfl rfl rfl nofun

theorem createTargetSet_commits {row : TargetSetRow} {targetIds : List Uuid}
    (h : createTargetSet row targetIds s = .ok t) :
    Commits s (.createTargetSet row targetIds) t := by
  obtain ⟨_, h⟩ := of_check h
  obtain ⟨_, h⟩ := of_check h
  obtain ⟨_, h⟩ := of_check h
  exact withCatalog_commits h rfl rfl rfl nofun

theorem updateTargetSet_commits {id : Uuid} {name : String} {inputs : Value}
    {targetIds : List Uuid} (h : updateTargetSet id name inputs targetIds s = .ok t) :
    Commits s (.updateTargetSet id name inputs targetIds) t := by
  obtain ⟨_, h⟩ := of_check h
  obtain ⟨_, h⟩ := of_check h
  obtain ⟨_, h⟩ := of_check h
  exact withCatalog_commits h rfl rfl rfl nofun

theorem createSchedule_commits {id : Uuid} {new : NewSchedule}
    (h : createSchedule id new s = .ok t) : Commits s (.schedules t.scheduleRows) t := by
  obtain ⟨_, h⟩ := of_check h
  obtain ⟨_, h⟩ := of_check h
  obtain ⟨_, h⟩ := of_check h
  obtain ⟨_, h⟩ := of_check h
  obtain ⟨_, h⟩ := of_check h
  cases h
  exact .of_queues rfl rfl rfl rfl

theorem setScheduleEnabled_commits {id : Uuid} {revision : ℕ} {enabled : Bool}
    {nextRunAt : Option Instant} (h : setScheduleEnabled id revision enabled nextRunAt s = .ok t) :
    Commits s (.schedules t.scheduleRows) t := by
  unfold setScheduleEnabled at h
  generalize ScheduleStore.setScheduleEnabled id revision enabled nextRunAt s.store = outcome at h
  obtain ⟨answer, schedules⟩ := outcome
  cases answer with
  | error => cases h
  | ok row =>
    cases h
    exact .of_queues rfl rfl rfl rfl

theorem withGraphs_commits {e : Edit} {g : Graphs} (hgraphs : editedGraphs s.edited e = g)
    (hcatalog : editedCatalog s.edited e =
      { s.store.catalog with workflows := definitions (editedGraphs s.edited e) })
    (hrows : editedSchedules s.edited e = s.store.schedules) :
    Commits s e (s.tables.withGraphs g) := by
  subst hgraphs
  exact .of_queues hcatalog.symm hrows.symm rfl rfl

theorem createWorkflow_commits {fresh : FreshGraph} {namespaceId : Uuid}
    {definition : WorkflowDefinition} (h : createWorkflow fresh namespaceId definition s = .ok t) :
    Commits s (.createWorkflow fresh namespaceId definition) t := by
  unfold createWorkflow at h
  split at h
  · split at h
    · rename_i hwrite
      cases h
      exact withGraphs_commits (congrArg Prod.snd hwrite) rfl rfl
    · cases h
  · split at h
    · cases h
    · split at h
      · cases h
      · cases h

theorem replaceWorkflow_commits {fresh : FreshGraph} {namespaceId id : Uuid} {revision : ℕ}
    {definition : WorkflowDefinition}
    (h : replaceWorkflow fresh namespaceId id revision definition s = .ok t) :
    Commits s (.replaceWorkflow fresh namespaceId id revision definition) t := by
  unfold replaceWorkflow at h
  split at h
  · rename_i hwrite
    cases h
    exact withGraphs_commits (congrArg Prod.snd hwrite) rfl rfl
  · cases h

theorem deleteWorkflow_commits {id : Uuid} (h : deleteWorkflow id s = .ok t) :
    Commits s (.deleteWorkflow id) t := by
  unfold deleteWorkflow at h
  split at h
  · rename_i hdelete
    cases h
    exact withGraphs_commits (congrArg Prod.snd hdelete) rfl rfl
  · cases h

theorem perform_commits {st : Statement} (h : st.perform s = .ok t) : Commits s (st.edit t) t := by
  cases st with
  | createNamespace row => exact createNamespace_commits h
  | deleteNamespace id => exact deleteNamespace_commits h
  | createQueue id name description => exact createQueue_commits h
  | updateQueue id name description enabled => exact updateQueue_commits h
  | deleteQueue id => exact deleteQueue_commits h
  | createJob row => exact createJob_commits h
  | updateJob id row => exact updateJob_commits h
  | createTarget row => exact createTarget_commits h
  | updateTarget id row => exact updateTarget_commits h
  | deleteTarget id => exact withCatalog_commits h rfl rfl rfl nofun
  | createTargetSet row targetIds => exact createTargetSet_commits h
  | updateTargetSet id name inputs targetIds => exact updateTargetSet_commits h
  | createSchedule id new => exact createSchedule_commits h
  | setScheduleEnabled id revision enabled nextRunAt => exact setScheduleEnabled_commits h
  | claimDueSchedules owner limit leaseSeconds locked now =>
    cases h
    exact .of_queues rfl rfl rfl rfl
  | createWorkflow fresh namespaceId definition => exact createWorkflow_commits h
  | replaceWorkflow fresh namespaceId id revision definition => exact replaceWorkflow_commits h
  | deleteWorkflow id => exact deleteWorkflow_commits h

theorem Commits.next {e : Edit} (h : Commits s e t) :
    (s.commit D t).edited = CatalogEdits.next s.edited (.edit e) := by
  have hcontrol : (s.commit D t).edited =
      ⟨ControlPlane.next s.server.control (.editCatalog t.catalog t.scheduleRows), t.graphs⟩ := rfl
  rw [hcontrol, h.catalog, h.scheduleRows, h.graphs]
  rfl

theorem queueReferenced_iff {id : Uuid} : queueReferenced id s = true ↔
    (∃ j ∈ s.store.catalog.jobs, j.queueId = id) ∨ (∃ r ∈ s.store.runs, r.queueId = id) ∨
      (∃ row ∈ s.server.presence, row.queueId = id) ∨
      ∃ e ∈ s.store.workflowNodeExecutions, e.queueId = id := by
  simp [queueReferenced, or_assoc]

theorem perform_enabled {st : Statement} (h : st.perform s = .ok t) (hdrawn : st.Drawn owner) :
    CatalogEdits.Enabled owner s.edited (.edit (st.edit t)) := by
  have hqueues : ∀ q ∈ s.store.catalog.queues, (∃ r ∈ s.store.runs, r.queueId = q.id) ∨
      (∃ e ∈ s.store.workflowNodeExecutions, e.queueId = q.id) →
        ∃ q' ∈ t.catalog.queues, q'.id = q.id := by
    intro q hq hused
    refine (perform_commits h).queues q hq (queueReferenced_iff.mpr ?_)
    exact .inr (hused.imp id .inr)
  cases st with
  | createQueue id name description => exact hqueues
  | updateQueue id name description enabled => exact hqueues
  | deleteQueue id => exact hqueues
  | createJob row => exact hdrawn
  | createTarget row => exact hdrawn
  | createTargetSet row targetIds => exact hdrawn
  | createWorkflow fresh namespaceId definition => exact hdrawn
  | _ => trivial

theorem server_execution {e : WorkerControl.Event} (h : Enabled owner s (.server e)) :
    (CatalogEdits.system owner).Execution s.edited ⟨s.server.controlAfter D e, s.graphs⟩ := by
  have henabled : WorkerControl.Enabled s.server e := by
    cases e with
    | server c => exact h.2
    | _ => exact h
  have hstep (c : ControlPlane.Command) (hc : ControlPlane.Enabled s.server.control c)
      (hediting : CatalogEdits.editing c = false)
      (hafter : s.server.controlAfter D e = ControlPlane.next s.server.control c) :
      (CatalogEdits.system owner).Execution s.edited ⟨s.server.controlAfter D e, s.graphs⟩ := by
    rw [hafter]
    exact .single (e := .control c) ⟨⟨hc, hediting⟩, rfl⟩
  obtain ⟨c, hc⟩ := WorkerControl.commanded (D := D) henabled
  cases hc with
  | idle hafter =>
    rw [hafter]
    exact .refl _
  | server c he _ hcontrol hafter =>
    subst he
    exact hstep c hcontrol h.1 hafter
  | repair pass locked now _ hafter => exact hstep (.reconcile pass) trivial rfl hafter
  | request m request retryAt now _ _ hafter =>
    cases request with
    | claim r => exact hstep (.claimAttempt r now) trivial rfl hafter
    | renew r => exact hstep (.renewLease r now) trivial rfl hafter
    | complete r => exact hstep (.completeAttempt r retryAt now) trivial rfl hafter
    | output r => exact hstep (.recordAttemptOutput r now) trivial rfl hafter

/-- Every run of a deployment is one of the edits of its catalog. -/
def editsProjection (D : Decoders) (owner : ResourceScope → Uuid) (i : Starter) :
    TransitionSystem.Projection (system D owner i) (CatalogEdits.system owner) where
  map := Deployment.edited
  initial := by
    rintro s ⟨hdrawn, rfl⟩
    refine ⟨[i.queueRow], [i.target], [], List.nodup_singleton _, ?_, rfl⟩
    intro target htarget
    rw [List.mem_singleton.mp htarget]
    exact hdrawn
  step := by
    rintro s e t ⟨henabled, rfl⟩
    cases e with
    | statement st =>
      cases hperform : st.perform s with
      | error e =>
        have hsame : (system D owner i).next s (.statement st) = s := by
          simp only [system, next, hperform]
        rw [hsame]
        exact .refl _
      | ok t =>
        have hnext : (system D owner i).next s (.statement st) = s.commit D t := by
          simp only [system, next, hperform]
        rw [hnext]
        exact .single ⟨perform_enabled hperform henabled, (perform_commits hperform).next⟩
    | server e => exact server_execution henabled

/-- A committed statement is one of the control plane, and leaves the workers their Queues. -/
theorem commit_enabled {st : Statement} (hedits : (CatalogEdits.system owner).Reachable s.edited)
    (hserver : (WorkerControl.system D).Reachable s.server) (hdrawn : st.Drawn owner)
    (h : st.perform s = .ok t) : WorkerControl.Enabled s.server (.server t.edit) := by
  have hcommits := perform_commits h
  refine ⟨rfl, ?_, ?_⟩
  · have hretains := ((CatalogEdits.reachable_invariant hedits).succeeds
      (perform_enabled h hdrawn)).retains
    rw [← hcommits.catalog] at hretains
    exact hretains
  · intro row hrow
    obtain ⟨q, hq, hid⟩ :=
      (WorkerControl.reachable_presenceKept hserver).presence.queue row hrow
    obtain ⟨q', hq', hid'⟩ := hcommits.queues q hq
      (queueReferenced_iff.mpr (.inr (.inr (.inl ⟨row, hrow, hid.symm⟩))))
    exact ⟨q', hq', hid'.trans hid⟩

/-- What a deployment reaches is reached by edits of the catalog, and by its server. -/
theorem deployment_refines (h : (system D owner i).Reachable s) :
    (CatalogEdits.system owner).Reachable s.edited ∧
      (WorkerControl.system D).Reachable s.server := by
  refine ⟨(editsProjection D owner i).reachable h, ?_⟩
  refine h.invariant_of (P := fun s => (WorkerControl.system D).Reachable s.server)
    (fun s hs => (editsProjection D owner i).reachable hs) ?_ ?_
  · rintro s ⟨_, rfl⟩
    refine .initial ⟨⟨i.catalog, [], List.nodup_nil, List.nodup_singleton _, rfl⟩, rfl, rfl, rfl,
      rfl⟩
  · rintro s e t hedits hserver ⟨henabled, rfl⟩
    cases e with
    | statement st =>
      cases hperform : st.perform s with
      | error e =>
        have hsame : (system D owner i).next s (.statement st) = s := by
          simp only [system, next, hperform]
        rw [hsame]
        exact hserver
      | ok t =>
        have hnext : (system D owner i).next s (.statement st) = s.commit D t := by
          simp only [system, next, hperform]
        rw [hnext]
        have hcommit := commit_enabled hedits hserver henabled hperform
        exact hserver.tail (e := .server t.edit) ⟨hcommit, rfl⟩
    | server e =>
      refine hserver.tail (e := e) ⟨?_, rfl⟩
      cases e with
      | server c => exact henabled.2
      | _ => exact henabled

end ResourceTables
