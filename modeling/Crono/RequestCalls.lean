import Crono.RequestTable

/-! Calls of `create_runs` and `rerun_run` in flight. The pre-check, the transaction, the
second check after a unique violation and the final listing are separate steps, so that other
calls and commands commit in between. A log remembers which operation reserved each request
id and which Runs it made. -/
namespace RequestCalls

open RunDomain WorkflowDomain SqlTable ControlPlaneSchema RunStore WorkflowStore
open ControlPlane
open ExecutionInputs (FloatFormat)

inductive Call where
  | createRuns (R : Rendering) (requestId jobId : Uuid) (target : TargetSelection)
      (inputs : Value) (fresh : FreshRuns)
  | rerunRun (F : FloatFormat) (sourceId requestId runId : Uuid) (ids : DispatchIds)

def Call.floats : Call → FloatFormat
  | .createRuns R _ _ _ _ _ => R.floats
  | .rerunRun F _ _ _ _ => F

def Call.requestId : Call → Uuid
  | .createRuns _ requestId _ _ _ _ => requestId
  | .rerunRun _ _ requestId _ _ => requestId

/-- The Runs a caller is given and whether this call created them. -/
abbrev Answer := Except StoreError (List RunRow × Bool)

inductive Phase where
  | checking
  | transacting
  | rechecking (created : Bool)
  | listing (created : Bool)
  | finished (answer : Answer)

/-- `find_run_request`, and in `create_runs` the comparison with the row it found. -/
def Call.checked (call : Call) (s : Store) (missing : Phase) (created : Bool) : Phase :=
  match findRunRequest call.floats s call.requestId with
  | none => missing
  | some existing =>
    match call with
    | .createRuns _ _ jobId target inputs _ =>
      match compareRunRequest existing jobId target inputs with
      | .ok () => .listing created
      | .error e => .finished (.error e)
    | .rerunRun _ _ _ _ _ => .listing created

/-- `runs_for_request`; `existing_rerun` accepts only the one Run of this re-run. -/
def Call.listed (call : Call) (s : Store) (created : Bool) : Answer :=
  match call with
  | .createRuns _ requestId _ _ _ _ => .ok (runsForRequest s requestId, created)
  | .rerunRun _ sourceId requestId _ _ =>
    match runsForRequest s requestId with
    | [run] =>
      if run.rerunOfRunId = some sourceId then .ok ([run], created)
      else .error .idempotencyConflict
    | _ => .error .idempotencyConflict

def Call.transaction (call : Call) (now : Instant) (s : Store) :
    Except StoreError (RequestCommit × Store) :=
  match call with
  | .createRuns R requestId jobId target inputs fresh =>
    createRunsTransaction R requestId jobId target inputs fresh now s
  | .rerunRun F sourceId requestId runId ids =>
    insertRerunTransaction F sourceId requestId runId ids now s

def Call.command (call : Call) (now : Instant) : Command :=
  match call with
  | .createRuns R requestId jobId target inputs fresh =>
    .createRuns R requestId jobId target inputs fresh now
  | .rerunRun F sourceId requestId runId ids => .insertRerun F sourceId requestId runId ids now

/-- What follows the transaction: `insert_rerun` looks its Run up again. -/
def Call.committed (call : Call) : Except StoreError (RequestCommit × Store) → Phase
  | .error e => .finished (.error e)
  | .ok (.requestTaken, _) => .rechecking false
  | .ok (.created, _) =>
    match call with
    | .createRuns _ _ _ _ _ _ => .listing true
    | .rerunRun _ _ _ _ _ => .rechecking true

inductive Origin where
  | createRuns (jobId : Uuid) (target : TargetSelection) (inputs : Value)
  | rerun (sourceId : Uuid)
  | workflowNode
  deriving DecidableEq

def Call.origin : Call → Origin
  | .createRuns _ _ jobId target inputs _ => .createRuns jobId target inputs
  | .rerunRun _ sourceId _ _ _ => .rerun sourceId

/-- A reserved request id: its row, the operation that reserved it, the Runs that operation
created, and the call that made it. -/
structure Use where
  row : RunRequestRow
  origin : Origin
  runIds : List Uuid
  maker : Option ℕ

def runIdsOf (s : Store) (requestId : Uuid) : List Uuid :=
  (s.runs.filter fun r => r.requestId = some requestId).map RunRow.id

/-- The rows a transaction added to `run_requests`. -/
def addedRequests (s t : Store) : List RunRequestRow := t.runRequests.drop s.runRequests.length

def launchedUses (s t : Store) : List Use :=
  (addedRequests s t).map fun row => ⟨row, .workflowNode, [], none⟩

def Call.uses (call : Call) (i : ℕ) (s t : Store) : List Use :=
  (addedRequests s t).map fun row => ⟨row, call.origin, runIdsOf t call.requestId, some i⟩

/-- A call with the use of its id that had committed before it began. -/
structure Ticket where
  call : Call
  prior : Option Use
  phase : Phase

structure Service where
  control : ControlPlane.State
  uses : List Use
  tickets : ℕ → Option Ticket

inductive Event where
  | control (c : Command)
  | begin (i : ℕ) (call : Call)
  | advance (i : ℕ) (now : Instant)

def Service.enter (s : Service) (i : ℕ) (t : Ticket) (phase : Phase) : Service :=
  { s with tickets := Function.update s.tickets i (some { t with phase := phase }) }

def Service.advance (s : Service) (i : ℕ) (now : Instant) (t : Ticket) : Service :=
  match t.phase with
  | .checking => s.enter i t (t.call.checked s.control.store .transacting false)
  | .transacting =>
    { s with
      control := ControlPlane.next s.control (t.call.command now)
      uses := s.uses ++ t.call.uses i s.control.store (transact s.control (t.call.command now))
    }.enter i t (t.call.committed (t.call.transaction now s.control.store))
  | .rechecking created =>
    s.enter i t (t.call.checked s.control.store (.finished (.error .internal)) created)
  | .listing created => s.enter i t (.finished (t.call.listed s.control.store created))
  | .finished _ => s

def next (s : Service) : Event → Service
  | .control c =>
    { s with
      control := ControlPlane.next s.control c
      uses := s.uses ++ launchedUses s.control.store (transact s.control c) }
  | .begin i call =>
    { s with tickets := Function.update s.tickets i (some ⟨call,
        s.uses.find? fun use => use.row.requestId = call.requestId, .checking⟩) }
  | .advance i now =>
    match s.tickets i with
    | none => s
    | some t => s.advance i now t

def called : Command → Bool
  | .createRuns _ _ _ _ _ _ _ | .insertRerun _ _ _ _ _ _ => true
  | _ => false

def Enabled (s : Service) : Event → Prop
  | .control c => called c = false ∧ ControlPlane.Enabled s.control c
  | .begin i _ => s.tickets i = none
  | .advance i _ => s.tickets i ≠ none

def initial (s : Service) : Prop :=
  ControlPlane.initial s.control ∧ s.uses = [] ∧ s.tickets = fun _ => none

def system : TransitionSystem Service Event where
  initial := initial
  Enabled := Enabled
  next := next

abbrev Reachable := system.Reachable

end RequestCalls
