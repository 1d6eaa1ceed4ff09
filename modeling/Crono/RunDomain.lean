import Mathlib.Algebra.Ring.Nat
import Mathlib.Algebra.Ring.Int.Defs

/-! Values shared by every table: identifiers, instants, JSON values, statuses, the
immutable execution snapshot, and the messages exchanged with workers and dispatchers. -/
namespace RunDomain

/-- A `uuid`; only equality and order matter. -/
abbrev Uuid := ℕ

/-- A `timestamptz`, in microseconds. -/
abbrev Instant := ℤ

def seconds (n : ℤ) : Instant := 1000000 * n

/-- A decimal `mantissa * 10 ^ exponent`: an `f64` by its printed text, or a PostgreSQL
`numeric`. -/
structure Decimal where
  mantissa : ℤ
  exponent : ℤ
  deriving DecidableEq, Repr

/-- `serde_json::Number`; negative zero is the one `f64` whose text is no decimal. -/
inductive Number where
  | posInt (n : ℕ)
  | negInt (n : ℕ)
  | float (d : Decimal)
  | negZero
  deriving DecidableEq, Repr

def Number.decimal : Number → Decimal
  | .posInt n => ⟨n, 0⟩
  | .negInt n => ⟨-n, 0⟩
  | .float d => d
  | .negZero => ⟨0, -1⟩

def Decimal.sameValue (a b : Decimal) : Bool :=
  let e := min a.exponent b.exponent
  a.mantissa * 10 ^ (a.exponent - e).toNat == b.mantissa * 10 ^ (b.exponent - e).toNat

/-- `serde_json::Value`; an object lists its entries in key order. -/
inductive Value where
  | null
  | bool (b : Bool)
  | number (n : Number)
  | string (s : String)
  | array (items : List Value)
  | object (fields : List (String × Value))
  deriving Repr

mutual
def Value.decEq : (a b : Value) → Decidable (a = b)
  | .null, .null => isTrue rfl
  | .bool a, .bool b => decidable_of_iff (a = b) (by simp)
  | .number a, .number b => decidable_of_iff (a = b) (by simp)
  | .string a, .string b => decidable_of_iff (a = b) (by simp)
  | .array a, .array b =>
    match Value.decEqList a b with
    | isTrue h => isTrue (by rw [h])
    | isFalse h => isFalse (by simpa using h)
  | .object a, .object b =>
    match Value.decEqFields a b with
    | isTrue h => isTrue (by rw [h])
    | isFalse h => isFalse (by simpa using h)
  | .null, .bool _ | .null, .number _ | .null, .string _ | .null, .array _
  | .null, .object _ | .bool _, .null | .bool _, .number _ | .bool _, .string _
  | .bool _, .array _ | .bool _, .object _ | .number _, .null | .number _, .bool _
  | .number _, .string _ | .number _, .array _ | .number _, .object _ | .string _, .null
  | .string _, .bool _ | .string _, .number _ | .string _, .array _ | .string _, .object _
  | .array _, .null | .array _, .bool _ | .array _, .number _ | .array _, .string _
  | .array _, .object _ | .object _, .null | .object _, .bool _ | .object _, .number _
  | .object _, .string _ | .object _, .array _ => isFalse nofun

def Value.decEqList : (a b : List Value) → Decidable (a = b)
  | [], [] => isTrue rfl
  | x :: xs, y :: ys =>
    match Value.decEq x y, Value.decEqList xs ys with
    | isTrue h, isTrue k => isTrue (by rw [h, k])
    | isFalse h, _ => isFalse (by simp [h])
    | _, isFalse k => isFalse (by simp [k])
  | [], _ :: _ | _ :: _, [] => isFalse nofun

def Value.decEqFields : (a b : List (String × Value)) → Decidable (a = b)
  | [], [] => isTrue rfl
  | (k, x) :: xs, (l, y) :: ys =>
    match instDecidableEqString k l, Value.decEq x y, Value.decEqFields xs ys with
    | isTrue e, isTrue h, isTrue t => isTrue (by rw [e, h, t])
    | isFalse e, _, _ => isFalse (by simp [e])
    | _, isFalse h, _ => isFalse (by simp [h])
    | _, _, isFalse t => isFalse (by simp [t])
  | [], _ :: _ | _ :: _, [] => isFalse nofun
end

instance : DecidableEq Value := Value.decEq

mutual
/-- `$1::jsonb = $2::jsonb`: numbers compare by value, everything else by structure. -/
def Value.jsonbEq : Value → Value → Bool
  | .null, .null => true
  | .bool a, .bool b => a == b
  | .number a, .number b => a.decimal.sameValue b.decimal
  | .string a, .string b => a == b
  | .array a, .array b => Value.jsonbEqList a b
  | .object a, .object b => Value.jsonbEqFields a b
  | _, _ => false

def Value.jsonbEqList : List Value → List Value → Bool
  | [], [] => true
  | x :: xs, y :: ys => Value.jsonbEq x y && Value.jsonbEqList xs ys
  | _, _ => false

def Value.jsonbEqFields : List (String × Value) → List (String × Value) → Bool
  | [], [] => true
  | (k, x) :: xs, (l, y) :: ys => k == l && Value.jsonbEq x y && Value.jsonbEqFields xs ys
  | _, _ => false
end

/-- `json_inputs_equal`: equal Rust values need no round trip to PostgreSQL. -/
def jsonInputsEqual (stored incoming : Value) : Bool :=
  stored = incoming || stored.jsonbEq incoming

inductive RunStatus where
  | pendingDispatch
  | queued
  | running
  | retryWait
  | succeeded
  | failed
  | dead
  | skipped
  | cancelled
  | unknown
  deriving DecidableEq, Repr

def RunStatus.isTerminal : RunStatus → Bool
  | .succeeded | .failed | .dead | .skipped | .cancelled | .unknown => true
  | .pendingDispatch | .queued | .running | .retryWait => false

/-- Repeat only outcomes whose original execution is no longer uncertain. -/
def RunStatus.isRepeatable (status : RunStatus) : Bool :=
  status.isTerminal && status != .unknown

inductive AttemptStatus where
  | pendingDispatch
  | queued
  | running
  | succeeded
  | skipped
  | failed
  | dead
  | unknown
  deriving DecidableEq, Repr

def AttemptStatus.isTerminal : AttemptStatus → Bool
  | .succeeded | .skipped | .failed | .dead | .unknown => true
  | .pendingDispatch | .queued | .running => false

inductive ExecutorKind where
  | noop
  | process
  | shell
  deriving DecidableEq, Repr

inductive ExecutionTrigger where
  | manual
  | schedule
  | rerun
  deriving DecidableEq, Repr

/-- Immutable executable configuration returned only after a successful claim. -/
structure ExecutionSnapshot where
  executor : ExecutorKind
  executable : Option String
  shellCommand : Option String
  argumentTemplates : List String
  arguments : List String
  inputs : Value
  jobId : Option Uuid
  trigger : Option ExecutionTrigger
  scheduledAt : Option Instant
  idempotencyKey : Uuid
  queueId : Uuid
  queue : String
  idempotent : Bool
  dryRun : Bool
  retryInitialSeconds : ℕ
  retryMaxSeconds : ℕ
  retryMultiplier : Decimal
  retryJitter : Decimal
  deriving DecidableEq, Repr

/-- The `execution_snapshot` column: a rendered execution, or what a scheduled
occurrence stores when its templates could not be rendered. -/
inductive SnapshotColumn where
  | execution (snapshot : ExecutionSnapshot)
  | renderError (message : String) (inputs : Value)
  deriving DecidableEq, Repr

/-- `COALESCE((execution_snapshot->>'idempotent')::boolean, false)`. -/
def SnapshotColumn.idempotent : SnapshotColumn → Bool
  | .execution snapshot => snapshot.idempotent
  | .renderError _ _ => false

/-- `(execution_snapshot->>'queue_id')::uuid`. -/
def SnapshotColumn.queueId : SnapshotColumn → Option Uuid
  | .execution snapshot => some snapshot.queueId
  | .renderError _ _ => none

inductive TargetSelection where
  | target (id : Uuid)
  | targetSet (id : Uuid)
  deriving DecidableEq, Repr

def selectionIds : TargetSelection → Option Uuid × Option Uuid
  | .target id => (some id, none)
  | .targetSet id => (none, some id)

inductive StoreError where
  | notFound
  | conflict
  | inUse
  | idempotencyConflict
  | staleRevision
  | queueDisabled
  | invalidData
  | workflowLaunchTooLarge
  | unavailable
  | internal
  deriving DecidableEq, Repr

/-- The NATS subject `crono.dispatch.{queue_id}`. -/
structure DispatchSubject where
  queueId : Uuid
  deriving DecidableEq, Repr

/-- Minimal durable dispatch message; PostgreSQL owns all execution details. -/
structure DispatchEnvelope where
  dispatchId : Uuid
  runId : Uuid
  attemptId : Uuid
  queueId : Uuid
  deriving DecidableEq, Repr

structure OutboxRecord where
  id : Uuid
  runId : Uuid
  attemptId : Uuid
  subject : DispatchSubject
  payload : DispatchEnvelope
  attemptCount : ℕ
  deriving DecidableEq, Repr

structure ClaimRequest where
  runId : Uuid
  attemptId : Uuid
  queueId : Uuid
  workerId : String
  deriving DecidableEq, Repr

structure ClaimResponse where
  claimed : Bool
  leaseSeconds : ℕ
  execution : Option ExecutionSnapshot
  deriving DecidableEq, Repr

structure LeaseRequest where
  attemptId : Uuid
  workerId : String
  deriving DecidableEq, Repr

structure CompletionRequest where
  attemptId : Uuid
  workerId : String
  succeeded : Bool
  skipped : Bool
  exitCode : Option ℤ
  stdoutTail : String
  stderrTail : String
  error : Option String
  deriving DecidableEq, Repr

structure OutputSnapshotRequest where
  attemptId : Uuid
  workerId : String
  sequence : ℕ
  stdoutTail : String
  stderrTail : String
  deriving DecidableEq, Repr

structure PlannedOccurrence where
  scheduledAt : Instant
  execute : Bool
  latenessSeconds : ℕ
  reason : Option String
  dispatchDeadline : Option Instant
  deriving DecidableEq, Repr

structure SchedulePlan where
  scheduleId : Uuid
  owner : Uuid
  occurrences : List PlannedOccurrence
  nextRunAt : Option Instant
  disable : Bool
  deriving DecidableEq, Repr

@[simp] theorem RunStatus.isTerminal_pendingDispatch :
    RunStatus.pendingDispatch.isTerminal = false := rfl
@[simp] theorem RunStatus.isTerminal_queued : RunStatus.queued.isTerminal = false := rfl
@[simp] theorem RunStatus.isTerminal_running : RunStatus.running.isTerminal = false := rfl
@[simp] theorem RunStatus.isTerminal_retryWait : RunStatus.retryWait.isTerminal = false := rfl

@[simp] theorem AttemptStatus.isTerminal_pendingDispatch :
    AttemptStatus.pendingDispatch.isTerminal = false := rfl
@[simp] theorem AttemptStatus.isTerminal_queued : AttemptStatus.queued.isTerminal = false := rfl
@[simp] theorem AttemptStatus.isTerminal_running : AttemptStatus.running.isTerminal = false := rfl

end RunDomain
