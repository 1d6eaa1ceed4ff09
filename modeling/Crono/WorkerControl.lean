import Crono.CatalogEdits
import Crono.WorkerReports
import Crono.WorkerPresence

/-! Worker requests at the server. A message names a worker in its subject and again in its
payload; whoever may publish on the subject decides what the payload says. The messages of all
workers, the statements of the servers and the repair passes interleave. -/
namespace WorkerControl

open RunDomain SqlTable ControlPlaneSchema RunStore ControlPlane WorkerPresence
open LiveOutput (subjectToken subjectWorker)
open ResourceNames (controlTokens)
open OutputStorage (storeCompletion storeSnapshot)
open LiveOutput (OutputError maxOutputRequestBytes validateOutput)

structure Message where
  subject : String
  reply : Option String
  payload : List UInt8
  deriving DecidableEq

/-- What `serde_json::from_slice` makes of a payload, for every type of request. -/
structure Decoders where
  claim : List UInt8 → Option ClaimRequest
  lease : List UInt8 → Option LeaseRequest
  completion : List UInt8 → Option CompletionRequest
  output : List UInt8 → Option OutputSnapshotRequest
  heartbeat : List UInt8 → Option WorkerHeartbeatRequest

inductive ControlError where
  | decode
  | identity
  | operation
  | output (error : OutputError)
  | heartbeat (error : HeartbeatError)
  | store (error : StoreError)
  deriving DecidableEq, Repr

/-- The text of an error that the handlers raise themselves. -/
def ControlError.message (quote : Char → String) : ControlError → Option String
  | .identity => some "worker identity does not match control subject"
  | .operation => some "unsupported worker control operation"
  | .output .tooLarge => some "live output request is too large"
  | .output .invalid => some "invalid live output request"
  | .heartbeat error => some (error.message quote)
  | .decode | .output (.store _) | .store _ => none

inductive Response where
  | claim (response : ClaimResponse)
  | written (value : Bool)
  deriving DecidableEq

inductive WorkerRequest where
  | claim (request : ClaimRequest)
  | renew (request : LeaseRequest)
  | complete (request : CompletionRequest)
  | output (request : OutputSnapshotRequest)
  deriving DecidableEq

def WorkerRequest.worker : WorkerRequest → String
  | .claim request => request.workerId
  | .renew request => request.workerId
  | .complete request => request.workerId
  | .output request => request.workerId

def identified (subjectWorker : String) (request : Option WorkerRequest) :
    Except ControlError WorkerRequest :=
  match request with
  | none => .error .decode
  | some request =>
    if request.worker ≠ subjectWorker then .error .identity else .ok request

variable (D : Decoders)

/-- The operation of `handle_control`, decoded and identified. -/
def readControl (m : Message) : Except ControlError WorkerRequest :=
  let (operation, subjectWorker) := controlTokens m.subject
  if operation = "claim" then
    identified subjectWorker ((D.claim m.payload).map .claim)
  else if operation = "renew" then
    identified subjectWorker ((D.lease m.payload).map .renew)
  else if operation = "complete" then
    identified subjectWorker ((D.completion m.payload).map .complete)
  else .error .operation

/-- The request of `handle_output`, once its size and its bounds are checked. -/
def readOutput (m : Message) : Except ControlError WorkerRequest :=
  if maxOutputRequestBytes < m.payload.length then .error (.output .tooLarge)
  else
    match D.output m.payload with
    | none => .error .decode
    | some request =>
      match validateOutput request (subjectWorker m.subject) with
      | .error e => .error (.output e)
      | .ok () => .ok (.output request)

/-- The heartbeat of `handle_presence`, before the lookup of its Queue. -/
def readHeartbeat (m : Message) : Except ControlError WorkerHeartbeatRequest :=
  match D.heartbeat m.payload with
  | none => .error .decode
  | some request =>
    match validateHeartbeat request (subjectWorker m.subject) with
    | .error e => .error (.heartbeat e)
    | .ok () => .ok request

/-- The call of the store, and its answer. -/
def WorkerRequest.perform (retryAt now : Instant) (s : Store) :
    WorkerRequest → Except StoreError Response × Store
  | .claim request =>
    let (answer, t) := claimAttempt request now s
    (answer.map .claim, t)
  | .renew request =>
    let (renewed, t) := renewLease request now s
    (.ok (.written renewed), t)
  | .complete request =>
    let (answer, t) := storeCompletion request retryAt now s
    (answer.map .written, t)
  | .output request =>
    let (answer, t) := storeSnapshot request now s
    (answer.map .written, t)

/-- A message without a reply subject is dropped; an error is logged and answers nothing. -/
def handle (read : Except ControlError WorkerRequest) (m : Message) (retryAt now : Instant)
    (s : Store) : Except ControlError (Option Response) × Store :=
  match m.reply with
  | none => (.ok none, s)
  | some _ =>
    match read with
    | .error e => (.error e, s)
    | .ok request =>
      let (answer, t) := request.perform retryAt now s
      match answer with
      | .ok response => (.ok (some response), t)
      | .error e => (.error (.store e), t)

def handleControl (m : Message) (retryAt now : Instant) (s : Store) :
    Except ControlError (Option Response) × Store :=
  handle (readControl D m) m retryAt now s

def handleOutput (m : Message) (now : Instant) (s : Store) :
    Except ControlError (Option Response) × Store :=
  handle (readOutput D m) m now now s

/-- `dispatch_output`: without a permit the answer is `false` at once. -/
def dispatchOutput (m : Message) (busy : Bool) (now : Instant) (s : Store) :
    Except ControlError (Option Response) × Store :=
  if busy then (.ok (m.reply.map fun _ => .written false), s) else handleOutput D m now s

def queueFromRow (row : QueueRow) : Except StoreError QueueRow :=
  if WorkflowStore.validateResourceName row.name then .ok row else .error .internal

def getQueue (id : Uuid) (queues : List QueueRow) : Except StoreError QueueRow :=
  match queues.find? fun q => q.id = id with
  | none => .error .notFound
  | some row => queueFromRow row

def subjectTokens (subject : String) : List String :=
  (subject.toList.splitOn '.').map String.ofList

/-- A subscription gets the subjects of its tokens, `*` being any single token. -/
def subscribed (pattern : List String) (subject : String) : Bool :=
  pattern.length = (subjectTokens subject).length &&
    (pattern.zip (subjectTokens subject)).all fun (p, token) => p = "*" || p = token

/-- `CONTROL_SUBJECT`. -/
def controlPattern : List String := ["crono", "worker", "control", "*", "*"]

/-- `OUTPUT_SUBJECT`. -/
def outputPattern : List String := ["crono", "worker", "output", "*"]

/-- `PRESENCE_SUBJECT`. -/
def presencePattern : List String := ["crono", "worker", "presence", "*"]

inductive SubjectOf (workerId : String) (subject : String) : Prop where
  | control (operation : String) :
      subjectTokens subject = ["crono", "worker", "control", operation, workerId] →
        SubjectOf workerId subject
  | output : subjectTokens subject = ["crono", "worker", "output", workerId] →
      SubjectOf workerId subject
  | presence : subjectTokens subject = ["crono", "worker", "presence", workerId] →
      SubjectOf workerId subject

def WorkerRequest.command (retryAt now : Instant) : WorkerRequest → Command
  | .claim request => .claimAttempt request now
  | .renew request => .renewLease request now
  | .complete request => .completeAttempt request retryAt now
  | .output request => .recordAttemptOutput request now

/-- Texts the database refuses stop a completion or an output before it writes. -/
def WorkerRequest.written (retryAt now : Instant) (s : Store) : WorkerRequest → Bool
  | .claim _ | .renew _ => true
  | .complete request => (storeCompletion request retryAt now s).1.toOption.isSome
  | .output request => (storeSnapshot request now s).1.toOption.isSome

/-- The control plane with the presence of workers, the heartbeats whose Queue has been looked up,
every message handled so far, and what happened to the presence rows. -/
structure Server where
  control : ControlPlane.State
  presence : List PresenceRow
  checked : List WorkerHeartbeatRequest
  handled : List Message
  history : List PresenceEvent

inductive Event where
  | server (c : Command)
  | repair (pass : RepairPass) (locked : PresenceRow → Bool) (now : Instant)
  | control (m : Message) (retryAt now : Instant)
  | output (m : Message) (busy : Bool) (now : Instant)
  | presence (m : Message)
  | heartbeat (request : WorkerHeartbeatRequest) (now : Instant)

/-- The request a message makes of the store, with its instants. -/
def Event.request : Event → Option (WorkerRequest × Instant × Instant)
  | .control m retryAt now =>
    if m.reply.isSome then (readControl D m).toOption.map fun r => (r, retryAt, now) else none
  | .output m busy now =>
    if m.reply.isSome && !busy then (readOutput D m).toOption.map fun r => (r, now, now) else none
  | .server _ | .repair _ _ _ | .presence _ | .heartbeat _ _ => none

def Event.message : Event → Option Message
  | .control m _ _ | .output m _ _ | .presence m => some m
  | .server _ | .repair _ _ _ | .heartbeat _ _ => none

def lookedUp (s : Server) (m : Message) : List WorkerHeartbeatRequest :=
  match m.reply, readHeartbeat D m with
  | some _, .ok request =>
    match getQueue request.queueId s.control.store.catalog.queues with
    | .ok _ => [request]
    | .error _ => []
  | _, _ => []

def Server.controlAfter (s : Server) (e : Event) : ControlPlane.State :=
  match e with
  | .server c => ControlPlane.next s.control c
  | .repair pass _ _ => ControlPlane.next s.control (.reconcile pass)
  | e =>
    match e.request D with
    | none => s.control
    | some (request, retryAt, now) =>
      if request.written retryAt now s.control.store then
        ControlPlane.next s.control (request.command retryAt now)
      else s.control

/-- The rows a pass removes, in the transaction of its other repairs. -/
def Server.removals (s : Server) (pass : RepairPass) (locked : PresenceRow → Bool)
    (now : Instant) : List String :=
  match (RunStore.reconcile pass s.control.store).1 with
  | .ok _ => expiredWorkers pass.limit locked now s.presence
  | .error _ => []

/-- The presence rows after a heartbeat, and whether it was accepted. -/
def Server.beat (s : Server) (request : WorkerHeartbeatRequest) (now : Instant) :
    Except StoreError Unit × List PresenceRow :=
  recordWorkerHeartbeat s.control.store.catalog.queues request now s.presence

def next (s : Server) (e : Event) : Server where
  control := s.controlAfter D e
  presence := match e with
    | .repair pass locked now => removeWorkers (s.removals pass locked now) s.presence
    | .heartbeat request now => (s.beat request now).2
    | _ => s.presence
  checked := match e with
    | .presence m => s.checked ++ lookedUp D s m
    | .heartbeat request _ => s.checked.erase request
    | _ => s.checked
  handled := s.handled ++ e.message.toList
  history := s.history ++ match e with
    | .repair pass locked now => (s.removals pass locked now).map .removed
    | .heartbeat request now =>
      match (s.beat request now).1 with
      | .ok _ => [.beat request now]
      | .error _ => []
    | _ => []

/-- The commands that reach the store only through a message or a repair pass. -/
def relayed : Command → Bool
  | .claimAttempt _ _ | .renewLease _ _ | .recordAttemptOutput _ _ | .completeAttempt _ _ _
  | .reconcile _ => true
  | _ => false

/-- The foreign key of the presence rows `ON DELETE RESTRICT`. -/
def QueuesKept (presence : List PresenceRow) : Command → Prop
  | .editCatalog catalog _ => ∀ row ∈ presence, ∃ q ∈ catalog.queues, q.id = row.queueId
  | _ => True

def Enabled (s : Server) : Event → Prop
  | .server c => relayed c = false ∧ ControlPlane.Enabled s.control c ∧ QueuesKept s.presence c
  | .repair pass _ _ => ControlPlane.Enabled s.control (.reconcile pass)
  | .control m _ _ => subscribed controlPattern m.subject = true
  | .output m _ _ => subscribed outputPattern m.subject = true
  | .presence m => subscribed presencePattern m.subject = true
  | .heartbeat request _ => request ∈ s.checked

def initial (s : Server) : Prop :=
  ControlPlane.initial s.control ∧ s.presence = [] ∧ s.checked = [] ∧ s.handled = [] ∧
    s.history = []

def system : TransitionSystem Server Event where
  initial := initial
  Enabled := Enabled
  next := next D

variable {D : Decoders}

theorem subjectToken_eq (k : ℕ) (subject : String) :
    subjectToken k subject = (subjectTokens subject).getD k "" := by
  rw [subjectTokens, subjectToken, List.getD_eq_getElem?_getD, List.getD_eq_getElem?_getD,
    List.getElem?_map]
  cases (subject.toList.splitOn '.')[k]? with
  | none => rfl
  | some token => rfl

theorem subscribed_cons {p : String} {pattern tokens : List String}
    (h : ((p :: pattern).length = tokens.length &&
      ((p :: pattern).zip tokens).all fun (p, token) => p = "*" || p = token) = true) :
    ∃ token rest, tokens = token :: rest ∧ (p = "*" ∨ p = token) ∧
      (pattern.length = rest.length &&
        (pattern.zip rest).all fun (p, token) => p = "*" || p = token) = true := by
  cases tokens with
  | nil => simp at h
  | cons token rest =>
    simp only [List.length_cons, Nat.add_right_cancel_iff, List.zip_cons_cons, List.all_cons,
      Bool.and_eq_true, decide_eq_true_eq, Bool.or_eq_true] at h
    refine ⟨token, rest, rfl, h.2.1, ?_⟩
    rw [Bool.and_eq_true, decide_eq_true_eq]
    exact ⟨h.1, h.2.2⟩

theorem subscribed_control {subject : String} (h : subscribed controlPattern subject = true) :
    ∃ operation worker,
      subjectTokens subject = ["crono", "worker", "control", operation, worker] := by
  obtain ⟨_, _, ht₁, hp₁, h⟩ := subscribed_cons h
  obtain ⟨_, _, ht₂, hp₂, h⟩ := subscribed_cons h
  obtain ⟨_, _, ht₃, hp₃, h⟩ := subscribed_cons h
  obtain ⟨operation, _, ht₄, _, h⟩ := subscribed_cons h
  obtain ⟨worker, rest, ht₅, _, h⟩ := subscribed_cons h
  have hrest : rest = [] := by simpa [eq_comm] using h
  refine ⟨operation, worker, ?_⟩
  rw [ht₁, ht₂, ht₃, ht₄, ht₅, hrest, ← hp₁.resolve_left (by decide),
    ← hp₂.resolve_left (by decide), ← hp₃.resolve_left (by decide)]

theorem subscribed_single {kind subject : String} (hkind : kind ≠ "*")
    (h : subscribed ["crono", "worker", kind, "*"] subject = true) :
    ∃ worker, subjectTokens subject = ["crono", "worker", kind, worker] := by
  obtain ⟨_, _, ht₁, hp₁, h⟩ := subscribed_cons h
  obtain ⟨_, _, ht₂, hp₂, h⟩ := subscribed_cons h
  obtain ⟨_, _, ht₃, hp₃, h⟩ := subscribed_cons h
  obtain ⟨worker, rest, ht₄, _, h⟩ := subscribed_cons h
  have hrest : rest = [] := by simpa [eq_comm] using h
  refine ⟨worker, ?_⟩
  rw [ht₁, ht₂, ht₃, ht₄, hrest, ← hp₁.resolve_left (by decide),
    ← hp₂.resolve_left (by decide), ← hp₃.resolve_left hkind]

/-- A message that carries a request, published on a subject of the worker it names. -/
inductive Published (D : Decoders) (m : Message) : WorkerRequest → Prop where
  | claim (r : ClaimRequest) :
      subjectTokens m.subject = ["crono", "worker", "control", "claim", r.workerId] →
        D.claim m.payload = some r → Published D m (.claim r)
  | renew (r : LeaseRequest) :
      subjectTokens m.subject = ["crono", "worker", "control", "renew", r.workerId] →
        D.lease m.payload = some r → Published D m (.renew r)
  | complete (r : CompletionRequest) :
      subjectTokens m.subject = ["crono", "worker", "control", "complete", r.workerId] →
        D.completion m.payload = some r → Published D m (.complete r)
  | output (r : OutputSnapshotRequest) :
      subjectTokens m.subject = ["crono", "worker", "output", r.workerId] →
        D.output m.payload = some r → Published D m (.output r)

theorem Published.subjectOf {m : Message} {request : WorkerRequest}
    (h : Published D m request) : SubjectOf request.worker m.subject := by
  cases h with
  | claim r htokens => exact .control "claim" htokens
  | renew r htokens => exact .control "renew" htokens
  | complete r htokens => exact .control "complete" htokens
  | output r htokens => exact .output htokens

theorem identified_ok {subjectWorker : String} {o : Option WorkerRequest} {request : WorkerRequest}
    (h : identified subjectWorker o = .ok request) :
    o = some request ∧ request.worker = subjectWorker := by
  cases o with
  | none => cases h
  | some r =>
    simp only [identified] at h
    by_cases hworker : r.worker ≠ subjectWorker
    · rw [if_pos hworker] at h
      cases h
    · rw [if_neg hworker] at h
      cases h
      exact ⟨rfl, not_not.mp hworker⟩

theorem readControl_published {m : Message} {request : WorkerRequest}
    (hsubject : subscribed controlPattern m.subject = true)
    (h : readControl D m = .ok request) : Published D m request := by
  obtain ⟨operation, worker, htokens⟩ := subscribed_control hsubject
  have hcontrol : controlTokens m.subject = (operation, worker) := by
    rw [controlTokens, subjectToken_eq, subjectToken_eq, htokens]
    rfl
  simp only [readControl, hcontrol] at h
  split at h
  · rename_i hoperation
    obtain ⟨hdecoded, hworker⟩ := identified_ok h
    obtain ⟨r, hr, rfl⟩ := Option.map_eq_some_iff.mp hdecoded
    exact .claim r (by rw [htokens, hoperation, ← hworker, WorkerRequest.worker]) hr
  split at h
  · rename_i hoperation
    obtain ⟨hdecoded, hworker⟩ := identified_ok h
    obtain ⟨r, hr, rfl⟩ := Option.map_eq_some_iff.mp hdecoded
    exact .renew r (by rw [htokens, hoperation, ← hworker, WorkerRequest.worker]) hr
  split at h
  · rename_i hoperation
    obtain ⟨hdecoded, hworker⟩ := identified_ok h
    obtain ⟨r, hr, rfl⟩ := Option.map_eq_some_iff.mp hdecoded
    exact .complete r (by rw [htokens, hoperation, ← hworker, WorkerRequest.worker]) hr
  · cases h

theorem readOutput_published {m : Message} {request : WorkerRequest}
    (hsubject : subscribed outputPattern m.subject = true)
    (h : readOutput D m = .ok request) : Published D m request := by
  obtain ⟨worker, htokens⟩ := subscribed_single (by decide) hsubject
  have htoken : subjectWorker m.subject = worker := by
    rw [subjectWorker, subjectToken_eq, htokens]
    rfl
  unfold readOutput at h
  split at h
  · cases h
  split at h
  · cases h
  rename_i r hdecoded
  split at h
  · cases h
  rename_i hvalid
  cases h
  have hworker : r.workerId = worker := by
    rw [htoken, validateOutput] at hvalid
    by_cases hsame : r.workerId = worker
    · exact hsame
    · rw [if_pos (.inl hsame)] at hvalid
      cases hvalid
  exact .output r (by rw [htokens, hworker]) hdecoded

theorem readHeartbeat_published {m : Message} {request : WorkerHeartbeatRequest}
    (hsubject : subscribed presencePattern m.subject = true)
    (h : readHeartbeat D m = .ok request) :
    subjectTokens m.subject = ["crono", "worker", "presence", request.workerId] ∧
      D.heartbeat m.payload = some request := by
  obtain ⟨worker, htokens⟩ := subscribed_single (by decide) hsubject
  have htoken : subjectWorker m.subject = worker := by
    rw [subjectWorker, subjectToken_eq, htokens]
    rfl
  unfold readHeartbeat at h
  split at h
  · cases h
  rename_i r hdecoded
  split at h
  · cases h
  rename_i hvalid
  cases h
  have hworker : request.workerId = worker := by
    rw [htoken, validateHeartbeat] at hvalid
    by_cases hsame : request.workerId = worker
    · exact hsame
    · rw [if_pos hsame] at hvalid
      cases hvalid
  exact ⟨by rw [htokens, hworker], hdecoded⟩

/-- A request that reaches the store was published on a subject of its worker. -/
theorem Enabled.published {s : Server} {e : Event} (h : Enabled s e) {request : WorkerRequest}
    {retryAt now : Instant} (hrequest : e.request D = some (request, retryAt, now)) :
    ∃ m, e.message = some m ∧ Published D m request := by
  have hread {α β : Type} {read : Except β α} {c : Bool} {f : α → WorkerRequest × Instant × Instant}
      {out : WorkerRequest × Instant × Instant}
      (h : (if c then read.toOption.map f else none) = some out) :
      ∃ r, read = .ok r ∧ f r = out := by
    cases c with
    | false => cases h
    | true =>
      obtain ⟨r, hr, hout⟩ := Option.map_eq_some_iff.mp h
      cases read with
      | error e => cases hr
      | ok a => exact ⟨a, rfl, by cases hr; exact hout⟩
  cases e with
  | control m retryAt' now' =>
    obtain ⟨r, hr, hout⟩ := hread hrequest
    cases hout
    exact ⟨m, rfl, readControl_published h hr⟩
  | output m busy now' =>
    obtain ⟨r, hr, hout⟩ := hread hrequest
    cases hout
    exact ⟨m, rfl, readOutput_published h hr⟩
  | server c => cases hrequest
  | repair pass locked now' => cases hrequest
  | presence m => cases hrequest
  | heartbeat r now' => cases hrequest

theorem completeAttempt_error {request : CompletionRequest} {retryAt now : Instant} {s : Store}
    {e : StoreError} (h : (completeAttempt request retryAt now s).1 = .error e) :
    (completeAttempt request retryAt now s).2 = s := by
  unfold completeAttempt at h ⊢
  by_cases hskipped : (request.skipped && !request.succeeded) = true
  · rw [if_pos hskipped]
  · rw [if_neg hskipped] at h ⊢
    split
    · rfl
    split
    · rfl
    split
    · rfl
    · simp_all

theorem storeCompletion_cases (request : CompletionRequest) (retryAt now : Instant) (s : Store) :
    storeCompletion request retryAt now s = completeAttempt request retryAt now s ∨
      ∃ e, storeCompletion request retryAt now s = (.error e, s) := by
  unfold storeCompletion
  simp only
  split
  · exact .inr ⟨_, rfl⟩
  split
  · exact .inr ⟨_, rfl⟩
  rcases completeAttempt request retryAt now s with ⟨_ | written, t⟩
  · exact .inl rfl
  · cases written with
    | false => exact .inl rfl
    | true =>
      simp only
      split
      · exact .inl rfl
      · exact .inr ⟨_, rfl⟩

theorem storeCompletion_store (request : CompletionRequest) (retryAt now : Instant) (s : Store) :
    (storeCompletion request retryAt now s).2 =
      if (storeCompletion request retryAt now s).1.toOption.isSome then
        (completeAttempt request retryAt now s).2
      else s := by
  rcases storeCompletion_cases request retryAt now s with hsame | ⟨e, herror⟩
  · rw [hsame]
    cases hanswer : (completeAttempt request retryAt now s).1 with
    | error e => exact completeAttempt_error hanswer
    | ok written => rfl
  · rw [herror]
    rfl

theorem storeSnapshot_store (request : OutputSnapshotRequest) (now : Instant) (s : Store) :
    (storeSnapshot request now s).2 =
      if (storeSnapshot request now s).1.toOption.isSome then (recordAttemptOutput request now s).2
      else s := by
  rcases LiveOutput.storeSnapshot_cases request now s with hsame | ⟨e, herror⟩
  · rw [hsame]
    unfold recordAttemptOutput
    by_cases hlarge : 2 ^ 63 ≤ request.sequence
    · rw [if_pos hlarge]
      rfl
    · rw [if_neg hlarge]
      rfl
  · rw [herror]
    rfl

theorem perform_store (request : WorkerRequest) (retryAt now : Instant) (s : ControlPlane.State) :
    (request.perform retryAt now s.store).2 =
      if request.written retryAt now s.store then transact s (request.command retryAt now)
      else s.store := by
  cases request with
  | claim r => rfl
  | renew r => rfl
  | complete r => exact storeCompletion_store r retryAt now s.store
  | output r => exact storeSnapshot_store r now s.store

theorem handle_store {e : Event} {read : Except ControlError WorkerRequest} {m : Message}
    {retryAt now : Instant} {s : ControlPlane.State}
    (hrequest : e.request D =
      if m.reply.isSome then read.toOption.map fun r => (r, retryAt, now) else none) :
    (match e.request D with
      | none => s
      | some (request, retryAt, now) =>
        if request.written retryAt now s.store then
          ControlPlane.next s (request.command retryAt now)
        else s).store = (handle read m retryAt now s.store).2 := by
  rw [hrequest]
  unfold handle
  cases m.reply with
  | none => rfl
  | some reply =>
    cases read with
    | error e => rfl
    | ok request =>
      have hperform := perform_store request retryAt now s
      simp only [Option.isSome_some, if_true, Except.toOption, Option.map_some]
      generalize request.perform retryAt now s.store = outcome at hperform ⊢
      obtain ⟨answer, t⟩ := outcome
      simp only at hperform
      have hstore : (if request.written retryAt now s.store then
          ControlPlane.next s (request.command retryAt now) else s).store = t := by
        rw [hperform]
        split
        · rfl
        · rfl
      cases answer with
      | error e => exact hstore
      | ok response => exact hstore

theorem controlAfter_store (s : Server) (m : Message) (busy : Bool) (retryAt now : Instant) :
    (s.controlAfter D (.control m retryAt now)).store =
        (handleControl D m retryAt now s.control.store).2 ∧
      (s.controlAfter D (.output m busy now)).store =
        (dispatchOutput D m busy now s.control.store).2 := by
  constructor
  · exact handle_store rfl
  · cases busy with
    | true =>
      have hrequest : (Event.output m true now).request D = none := by
        simp [Event.request]
      simp only [Server.controlAfter, hrequest]
      rfl
    | false =>
      refine handle_store (e := .output m false now) ?_
      simp [Event.request]

inductive Commanded (D : Decoders) (s : Server) (e : Event) : Option Command → Prop where
  | idle : s.controlAfter D e = s.control → Commanded D s e none
  | server (c : Command) : e = .server c → relayed c = false → ControlPlane.Enabled s.control c →
      s.controlAfter D e = ControlPlane.next s.control c → Commanded D s e (some c)
  | repair (pass locked now) : e = .repair pass locked now →
      s.controlAfter D e = ControlPlane.next s.control (.reconcile pass) →
      Commanded D s e (some (.reconcile pass))
  | request (m : Message) (request : WorkerRequest) (retryAt now : Instant) :
      e.message = some m → Published D m request →
      s.controlAfter D e = ControlPlane.next s.control (request.command retryAt now) →
      Commanded D s e (some (request.command retryAt now))

theorem commanded {s : Server} {e : Event} (h : Enabled s e) : ∃ c, Commanded D s e c := by
  have hrequested (hafter : s.controlAfter D e =
      match e.request D with
      | none => s.control
      | some (request, retryAt, now) =>
        if request.written retryAt now s.control.store then
          ControlPlane.next s.control (request.command retryAt now)
        else s.control) : ∃ c, Commanded D s e c := by
    cases hrequest : e.request D with
    | none =>
      rw [hrequest] at hafter
      exact ⟨none, .idle hafter⟩
    | some out =>
      obtain ⟨request, retryAt, now⟩ := out
      obtain ⟨m, hm, hpublished⟩ := h.published hrequest
      simp only [hrequest] at hafter
      by_cases hwritten : request.written retryAt now s.control.store = true
      · rw [if_pos hwritten] at hafter
        exact ⟨_, .request m request retryAt now hm hpublished hafter⟩
      · rw [if_neg hwritten] at hafter
        exact ⟨none, .idle hafter⟩
  cases e with
  | server c => exact ⟨some c, .server c rfl h.1 h.2.1 rfl⟩
  | repair pass locked now => exact ⟨_, .repair pass locked now rfl rfl⟩
  | control m retryAt now => exact hrequested rfl
  | output m busy now => exact hrequested rfl
  | presence m => exact hrequested rfl
  | heartbeat request now => exact hrequested rfl

theorem Commanded.execution {s : Server} {e : Event} {c : Option Command}
    (h : Commanded D s e c) : ControlPlane.Execution s.control (s.controlAfter D e) := by
  cases h with
  | idle hafter =>
    rw [hafter]
    exact .refl _
  | server c _ _ henabled hafter => exact .single ⟨henabled, hafter⟩
  | repair pass locked now _ hafter => exact .single (e := .reconcile pass) ⟨trivial, hafter⟩
  | request m request retryAt now _ _ hafter =>
    refine .single (e := request.command retryAt now) ⟨?_, hafter⟩
    cases request with
    | claim r => trivial
    | renew r => trivial
    | complete r => trivial
    | output r => trivial

def projection (D : Decoders) :
    TransitionSystem.Projection (system D) ControlPlane.system where
  map := Server.control
  initial := fun _ h => h.1
  step := by
    rintro s e t ⟨henabled, rfl⟩
    obtain ⟨c, hc⟩ := commanded (D := D) henabled
    exact hc.execution

theorem control_reachable {s : Server} (h : (system D).Reachable s) :
    ControlPlane.Reachable s.control := (projection D).reachable h

/-- An edit of the catalog keeps the Queues of the workers; nothing else touches a Queue. -/
theorem queues_kept {s : Server} {e : Event} (henabled : Enabled s e) :
    (s.controlAfter D e).store.catalog = s.control.store.catalog ∨
      ∀ row ∈ s.presence, ∃ q ∈ (s.controlAfter D e).store.catalog.queues, q.id = row.queueId := by
  obtain ⟨c, hc⟩ := commanded (D := D) henabled
  cases hc with
  | idle hafter => exact .inl (by rw [hafter])
  | repair pass locked now _ hafter =>
    have hcatalog : (transact s.control (.reconcile pass)).catalog = s.control.store.catalog :=
      CatalogEdits.transact_catalog s.control rfl
    rw [hafter]
    exact .inl hcatalog
  | request m request retryAt now _ _ hafter =>
    rw [hafter]
    refine .inl (CatalogEdits.transact_catalog s.control ?_)
    cases request with
    | claim r => rfl
    | renew r => rfl
    | complete r => rfl
    | output r => rfl
  | server c he _ _ hafter =>
    rw [hafter]
    subst he
    by_cases hediting : CatalogEdits.editing c = true
    · cases c with
      | editCatalog catalog schedules => exact .inr henabled.2.2
      | _ => cases hediting
    · exact .inl (CatalogEdits.transact_catalog s.control (Bool.eq_false_of_not_eq_true hediting))

/-- Some message on the presence subject of its worker carries the heartbeat. -/
def HeartbeatOf (D : Decoders) (handled : List Message) (request : WorkerHeartbeatRequest) : Prop :=
  ∃ m ∈ handled, subjectTokens m.subject = ["crono", "worker", "presence", request.workerId] ∧
    D.heartbeat m.payload = some request

theorem HeartbeatOf.append {handled later : List Message} {request : WorkerHeartbeatRequest}
    (h : HeartbeatOf D handled request) : HeartbeatOf D (handled ++ later) request := by
  obtain ⟨m, hm, hcarries⟩ := h
  exact ⟨m, List.mem_append_left _ hm, hcarries⟩

/-- The rows of the presence table, and where the heartbeats still to be written come from. -/
structure PresenceKept (D : Decoders) (s : Server) : Prop where
  presence : Presence s.control.store.catalog.queues s.history s.presence
  checked : ∀ request ∈ s.checked, HeartbeatOf D s.handled request
  beats : ∀ request now, .beat request now ∈ s.history → HeartbeatOf D s.handled request

theorem lookedUp_published {s : Server} {m : Message} {request : WorkerHeartbeatRequest}
    (hsubject : subscribed presencePattern m.subject = true) (h : request ∈ lookedUp D s m) :
    subjectTokens m.subject = ["crono", "worker", "presence", request.workerId] ∧
      D.heartbeat m.payload = some request := by
  unfold lookedUp at h
  split at h
  · rename_i r _ hread
    split at h
    · rw [List.mem_singleton.mp h]
      exact readHeartbeat_published hsubject hread
    · cases h
  · cases h

/-- The presence rows follow the history through every event. -/
theorem next_presence {s : Server} {e : Event} (henabled : Enabled s e)
    (h : Presence s.control.store.catalog.queues s.history s.presence) :
    Presence (next D s e).control.store.catalog.queues (next D s e).history
      (next D s e).presence := by
  have hkept : Presence (s.controlAfter D e).store.catalog.queues s.history s.presence := by
    rcases queues_kept (D := D) henabled with hsame | hkept
    · rw [hsame]
      exact h
    · exact h.retain hkept
  have hidle : Presence (s.controlAfter D e).store.catalog.queues (s.history ++ []) s.presence := by
    rw [List.append_nil]
    exact hkept
  cases e with
  | server c => exact hidle
  | control m retryAt now => exact hidle
  | output m busy now => exact hidle
  | presence m => exact hidle
  | repair pass locked now => exact hkept.remove (s.removals pass locked now)
  | heartbeat request now =>
    have hnext : (next D s (.heartbeat request now)).history = s.history ++
        match (s.beat request now).1 with
        | .ok _ => [.beat request now]
        | .error _ => [] := rfl
    have hrows : (next D s (.heartbeat request now)).presence = (s.beat request now).2 := rfl
    rw [hnext, hrows]
    cases hbeat : (s.beat request now).1 with
    | error error =>
      have hsame : (s.beat request now).2 = s.presence := recordWorkerHeartbeat_error hbeat
      rw [hsame]
      exact hidle
    | ok _ => exact h.record (Prod.ext hbeat rfl)

/-- A heartbeat is written for a message on the presence subject of its worker. -/
theorem next_heartbeats {s : Server} {e : Event} (henabled : Enabled s e)
    (h : PresenceKept D s) :
    (∀ request ∈ (next D s e).checked, HeartbeatOf D (next D s e).handled request) ∧
      ∀ request now, .beat request now ∈ (next D s e).history →
        HeartbeatOf D (next D s e).handled request := by
  constructor
  · intro request hrequest
    cases e with
    | server c => exact (h.checked request hrequest).append
    | repair pass locked now => exact (h.checked request hrequest).append
    | control m retryAt now => exact (h.checked request hrequest).append
    | output m busy now => exact (h.checked request hrequest).append
    | heartbeat written now =>
      exact (h.checked request (List.mem_of_mem_erase hrequest)).append
    | presence m =>
      rcases List.mem_append.mp hrequest with hold | hnew
      · exact (h.checked request hold).append
      · exact ⟨m, List.mem_append_right _ (List.mem_singleton_self m),
          lookedUp_published henabled hnew⟩
  · intro request now hbeat
    rcases List.mem_append.mp hbeat with hold | hnew
    · exact (h.beats request now hold).append
    cases e with
    | server c => cases hnew
    | control m retryAt now' => cases hnew
    | output m busy now' => cases hnew
    | presence m => cases hnew
    | repair pass locked now' =>
      obtain ⟨_, _, hremoved⟩ := List.mem_map.mp hnew
      cases hremoved
    | heartbeat written now' =>
      simp only at hnew
      split at hnew
      · cases List.mem_singleton.mp hnew
        exact (h.checked request henabled).append
      · cases hnew

theorem reachable_presenceKept {s : Server} (h : (system D).Reachable s) : PresenceKept D s := by
  refine h.invariant ?_ ?_
  · rintro s ⟨_, hpresence, hchecked, _, hhistory⟩
    constructor
    · rw [hpresence, hhistory]
      exact presence_empty _
    · rw [hchecked]
      intro request hrequest
      cases hrequest
    · rw [hhistory]
      intro request now hbeat
      cases hbeat
  · rintro s e t hs ⟨henabled, rfl⟩
    obtain ⟨hchecked, hbeats⟩ := next_heartbeats henabled hs
    exact ⟨next_presence henabled hs.presence, hchecked, hbeats⟩

theorem records_last {history : List PresenceEvent} {row : PresenceRow} (h : Records history row) :
    ∃ request, (historyOf row.workerId history).getLast? = some (.beat request row.lastSeenAt) ∧
      row = { insertedRow request row.lastSeenAt with startedAt := row.startedAt } := by
  obtain ⟨earlier, session, last, hsplit, _, _, _, hlast, hrow⟩ := h
  refine ⟨last, ?_, hrow⟩
  rw [hsplit, List.getLast?_append, beats, List.getLast?_map, hlast]
  rfl

/-- In every reachable state a worker has a row exactly while the last thing that happened to it
is an accepted heartbeat, and one only. The row is admissible and of an existing Queue; it shows
the first and the last heartbeat of the current session, and the last one came in a message on
the presence subject of the worker. -/
theorem presence_follows_heartbeats {s : Server} (h : (system D).Reachable s) :
    (s.presence.map PresenceRow.workerId).Nodup ∧
    (∀ workerId, (∃ row ∈ s.presence, row.workerId = workerId) ↔
      ∃ request now, (historyOf workerId s.history).getLast? = some (.beat request now)) ∧
    ∀ row ∈ s.presence, row.Admissible ∧
      (∃ q ∈ s.control.store.catalog.queues, q.id = row.queueId) ∧ Records s.history row ∧
      ∃ request, HeartbeatOf D s.handled request ∧
        row = { insertedRow request row.lastSeenAt with startedAt := row.startedAt } := by
  obtain ⟨hpresence, _, hbeats⟩ := reachable_presenceKept h
  refine ⟨hpresence.workers, ?_, ?_⟩
  · intro workerId
    constructor
    · rintro ⟨row, hrow, rfl⟩
      obtain ⟨request, hlast, _⟩ := records_last (hpresence.records row hrow)
      exact ⟨request, row.lastSeenAt, hlast⟩
    · rintro ⟨request, now, hlast⟩
      exact hpresence.present workerId request now hlast
  · intro row hrow
    have hrecords := hpresence.records row hrow
    obtain ⟨request, hlast, hsays⟩ := records_last hrecords
    refine ⟨hpresence.admissible row hrow, hpresence.queue row hrow, hrecords, request, ?_, hsays⟩
    exact hbeats request row.lastSeenAt (List.mem_of_mem_filter (List.mem_of_getLast? hlast))

def ascii (text : String) : List UInt8 := text.toList.map fun c => c.toNat.toUInt8

def demoHeartbeat : WorkerHeartbeatRequest := ⟨"worker", 12, 1, 4, "0.1.0", none⟩

def demoHeartbeatPayload : List UInt8 :=
  ascii ("\x7b\"worker_id\":\"worker\",\"session_id\":\"00000000-0000-0000-0000-00000000000c\"," ++
    "\"queue_id\":\"00000000-0000-0000-0000-000000000001\",\"concurrency\":4," ++
    "\"version\":\"0.1.0\"\x7d")

def demoDecoders : Decoders where
  claim := fun _ => none
  lease := fun _ => none
  completion := fun _ => none
  output := fun _ => none
  heartbeat := fun _ => some demoHeartbeat

def demoHeartbeatMessage : Message :=
  ⟨"crono.worker.presence.worker", some "_INBOX.1", demoHeartbeatPayload⟩

def demoServer : Server := ⟨demoInitial, [], [], [], []⟩

def demoBeats : List Event :=
  [.presence demoHeartbeatMessage, .heartbeat demoHeartbeat (seconds 5),
    .presence demoHeartbeatMessage, .heartbeat demoHeartbeat (seconds 15)]

theorem demoBeats_reachable :
    (system demoDecoders).Reachable ((system demoDecoders).run demoServer demoBeats) := by
  refine ⟨demoServer, ⟨demoInitial_initial, rfl, rfl, rfl, rfl⟩, .of_admits ?_⟩
  have hsubject : subscribed presencePattern demoHeartbeatMessage.subject = true := by
    decide +kernel
  have hchecked (s : Server) (h : s.control.store.catalog = demoCatalog) :
      demoHeartbeat ∈ (next demoDecoders s (.presence demoHeartbeatMessage)).checked := by
    have hread : readHeartbeat demoDecoders demoHeartbeatMessage = .ok demoHeartbeat := by
      decide +kernel
    refine List.mem_append_right _ ?_
    simp only [lookedUp, hread, h]
    exact List.mem_singleton_self _
  exact ⟨hsubject, hchecked _ rfl, hsubject, hchecked _ rfl, trivial⟩

theorem presence_follows_heartbeats_demo :
    ((system demoDecoders).run demoServer demoBeats).presence =
        [⟨"worker", 12, 1, 4, "0.1.0", none, seconds 5, seconds 15⟩] ∧
      ∀ row ∈ ((system demoDecoders).run demoServer demoBeats).presence,
        Records ((system demoDecoders).run demoServer demoBeats).history row :=
  ⟨by decide +kernel, fun row hrow =>
    ((presence_follows_heartbeats demoBeats_reachable).2.2 row hrow).2.2.1⟩

end WorkerControl
