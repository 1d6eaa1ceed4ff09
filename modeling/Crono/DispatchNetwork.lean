import Crono.RunCoupling

/-! Dispatch over a JetStream work queue. Dispatchers publish outbox records and acknowledge
them in the database, workers take deliveries, claim and settle them; publishing, marking,
claiming and acknowledging are separate steps of different processes. -/
namespace DispatchNetwork

open RunDomain WorkflowDomain SqlTable ControlPlaneSchema RunStore WorkflowStore
open ControlPlane

structure Message where
  sequence : ℕ
  subject : DispatchSubject
  envelope : DispatchEnvelope
  deriving DecidableEq, Repr

/-- The messages not acknowledged yet, and the message ids inside the duplicate window with
the sequence each was stored at. -/
structure Stream where
  messages : List Message
  lastSequence : ℕ
  recent : List (Uuid × ℕ)
  deriving DecidableEq, Repr

def Stream.empty : Stream := ⟨[], 0, []⟩

/-- Store a message under the id of its Attempt, unless the duplicate window knows the id. -/
def Stream.publish (stream : Stream) (record : OutboxRecord) : ℕ × Stream :=
  match stream.recent.find? fun entry => entry.1 = record.attemptId with
  | some entry => (entry.2, stream)
  | none =>
    (stream.lastSequence + 1,
      { messages := stream.messages ++
          [⟨stream.lastSequence + 1, record.subject, record.payload⟩]
        lastSequence := stream.lastSequence + 1
        recent := (record.attemptId, stream.lastSequence + 1) :: stream.recent })

/-- A publication stores one message, unless its id is known. -/
theorem Stream.publish_cases (stream : Stream) (record : OutboxRecord) :
    ((stream.publish record).2 = stream ∧ record.attemptId ∈ stream.recent.map Prod.fst) ∨
    (stream.publish record).2 =
      { messages := stream.messages ++
          [⟨stream.lastSequence + 1, record.subject, record.payload⟩]
        lastSequence := stream.lastSequence + 1
        recent := (record.attemptId, stream.lastSequence + 1) :: stream.recent } := by
  unfold Stream.publish
  split
  · rename_i entry hentry
    have hid : entry.1 = record.attemptId := of_decide_eq_true (List.find?_some hentry :)
    exact .inl ⟨rfl, hid ▸ List.mem_map_of_mem (List.mem_of_find?_eq_some hentry)⟩
  · exact .inr rfl

def Stream.forget (stream : Stream) (messageId : Uuid) : Stream :=
  { stream with recent := stream.recent.filter fun entry => entry.1 ≠ messageId }

def Stream.acknowledge (stream : Stream) (message : Message) : Stream :=
  { stream with messages := stream.messages.filter fun m => m ≠ message }

/-- How far `handle_message` has got with a delivery. -/
inductive Progress where
  | received
  | refused
  | executing
  | completed
  | rejected
  deriving DecidableEq, Repr

structure Delivery where
  workerId : String
  queueId : Uuid
  message : Message
  progress : Progress
  deriving DecidableEq, Repr

def Delivery.claimRequest (d : Delivery) : ClaimRequest :=
  ⟨d.message.envelope.runId, d.message.envelope.attemptId, d.queueId, d.workerId⟩

/-- The delivery after an answer to its claim; a failed claim asks for redelivery. -/
def Delivery.answered (d : Delivery) : Except StoreError ClaimResponse → List Delivery
  | .ok response =>
    if response.claimed && response.execution.isSome then [{ d with progress := .executing }]
    else [{ d with progress := .refused }]
  | .error _ => []

def Delivery.reported (d : Delivery) : Except StoreError Bool → List Delivery
  | .ok true => [{ d with progress := .completed }]
  | .ok false => [{ d with progress := .rejected }]
  | .error _ => []

theorem Delivery.answered_same {d d' : Delivery} {answer : Except StoreError ClaimResponse}
    (h : d' ∈ d.answered answer) : d'.message = d.message ∧ d'.queueId = d.queueId := by
  unfold Delivery.answered at h
  split at h
  · split at h
    · rw [List.mem_singleton.mp h]
      exact ⟨rfl, rfl⟩
    · rw [List.mem_singleton.mp h]
      exact ⟨rfl, rfl⟩
  · cases h

theorem Delivery.reported_same {d d' : Delivery} {answer : Except StoreError Bool}
    (h : d' ∈ d.reported answer) : d'.message = d.message ∧ d'.queueId = d.queueId := by
  unfold Delivery.reported at h
  split at h
  · rw [List.mem_singleton.mp h]
    exact ⟨rfl, rfl⟩
  · rw [List.mem_singleton.mp h]
    exact ⟨rfl, rfl⟩
  · cases h

/-- A delivery the worker acknowledges or terminates: refused, reported, or of another Queue. -/
def Delivery.settled (d : Delivery) : Bool :=
  match d.progress with
  | .received => d.message.envelope.queueId ≠ d.queueId
  | .executing => false
  | .refused | .completed | .rejected => true

/-- A publication JetStream confirmed to the dispatcher `owner`. -/
structure Confirmation where
  owner : Uuid
  record : OutboxRecord
  sequence : ℕ
  deriving DecidableEq, Repr

structure Network where
  control : ControlPlane.State
  stream : Stream
  confirmed : List Confirmation
  deliveries : List Delivery

inductive Event where
  | control (c : Command)
  | publish (owner : Uuid) (record : OutboxRecord)
  | publishUnconfirmed (owner : Uuid) (record : OutboxRecord)
  | markPublished (confirmation : Confirmation) (now : Instant)
  | crash (owner : Uuid)
  | leaveWindow (messageId : Uuid)
  | deliver (workerId : String) (queueId : Uuid) (message : Message)
  | claim (d : Delivery) (now : Instant)
  | claimUnanswered (d : Delivery) (now : Instant)
  | complete (d : Delivery) (request : CompletionRequest) (retryAt now : Instant)
  | completeUnanswered (d : Delivery) (request : CompletionRequest) (retryAt now : Instant)
  | redeliver (d : Delivery)
  | ack (d : Delivery)

/-- The commands that only a confirmed publication or a delivery leads to. -/
def delivered : Command → Bool
  | .markPublished _ _ _ _ | .claimAttempt _ _ | .completeAttempt _ _ _ => true
  | _ => false

def Event.command : Event → Option Command
  | .control c => some c
  | .markPublished confirmation now =>
    some (.markPublished confirmation.owner confirmation.record confirmation.sequence now)
  | .claim d now | .claimUnanswered d now => some (.claimAttempt d.claimRequest now)
  | .complete _ request retryAt now | .completeUnanswered _ request retryAt now =>
    some (.completeAttempt request retryAt now)
  | .publish _ _ | .publishUnconfirmed _ _ | .crash _ | .leaveWindow _ | .deliver _ _ _
  | .redeliver _ | .ack _ => none

def Network.controlAfter (net : Network) (e : Event) : ControlPlane.State :=
  match e.command with
  | some c => ControlPlane.next net.control c
  | none => net.control

def Network.streamAfter (net : Network) : Event → Stream
  | .publish _ record | .publishUnconfirmed _ record => (net.stream.publish record).2
  | .leaveWindow messageId => net.stream.forget messageId
  | .ack d => net.stream.acknowledge d.message
  | _ => net.stream

def Network.confirmedAfter (net : Network) : Event → List Confirmation
  | .publish owner record => ⟨owner, record, (net.stream.publish record).1⟩ :: net.confirmed
  | .crash owner => net.confirmed.filter fun confirmation => confirmation.owner ≠ owner
  | _ => net.confirmed

def Network.deliveriesAfter (net : Network) : Event → List Delivery
  | .deliver workerId queueId message => ⟨workerId, queueId, message, .received⟩ :: net.deliveries
  | .claim d now =>
    d.answered (claimAttempt d.claimRequest now net.control.store).1 ++ net.deliveries.erase d
  | .complete d request retryAt now =>
    d.reported (completeAttempt request retryAt now net.control.store).1 ++ net.deliveries.erase d
  | .claimUnanswered d _ | .completeUnanswered d _ _ _ | .redeliver d | .ack d =>
    net.deliveries.erase d
  | _ => net.deliveries

def next (net : Network) (e : Event) : Network where
  control := net.controlAfter e
  stream := net.streamAfter e
  confirmed := net.confirmedAfter e
  deliveries := net.deliveriesAfter e

def Reports (net : Network) (d : Delivery) (request : CompletionRequest) : Prop :=
  d ∈ net.deliveries ∧ d.progress = .executing ∧
    request.attemptId = d.message.envelope.attemptId ∧ request.workerId = d.workerId

/-- A worker claims a message of its own Queue that it has just received. -/
def Claims (net : Network) (d : Delivery) : Prop :=
  d ∈ net.deliveries ∧ d.progress = .received ∧ d.message.envelope.queueId = d.queueId

def Enabled (net : Network) : Event → Prop
  | .control c => delivered c = false ∧ ControlPlane.Enabled net.control c
  | .publish owner record | .publishUnconfirmed owner record =>
    (owner, record) ∈ net.control.issued
  | .markPublished confirmation _ => confirmation ∈ net.confirmed
  | .crash _ | .leaveWindow _ => True
  | .deliver _ queueId message =>
    message ∈ net.stream.messages ∧ message.subject.queueId = queueId
  | .claim d _ | .claimUnanswered d _ => Claims net d
  | .complete d request _ _ | .completeUnanswered d request _ _ => Reports net d request
  | .redeliver d => d ∈ net.deliveries
  | .ack d => d ∈ net.deliveries ∧ d.settled = true

def initial (net : Network) : Prop :=
  ControlPlane.initial net.control ∧ net.stream = .empty ∧ net.confirmed = [] ∧
    net.deliveries = []

def system : TransitionSystem Network Event where
  initial := initial
  Enabled := Enabled
  next := next

abbrev Reachable := system.Reachable

end DispatchNetwork
