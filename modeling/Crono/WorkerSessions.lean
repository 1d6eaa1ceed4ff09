import Crono.ExecutionTimelines

/-! Workers over the control plane and the network of live output. A granted and answered claim
opens a session; its work is polled, its lease renewed, and its result reported before the last
event is emitted. -/
namespace WorkerSessions

open RunDomain SqlTable ControlPlaneSchema RunStore WorkflowStore ControlPlane
open ExecutionInputs (FloatFormat)
open WorkerOutput WorkerRunner ExecutionTimelines SecretRedaction
open OutputStorage (storeCompletion)
open LiveOutput (Network TimelineEvent)

structure Args where
  workerId : String
  queueId : Uuid
  dryRun : Bool
  deriving DecidableEq, Repr

/-- How far `execute_claimed` has got: the answer to the completion is `none` when it was not
confirmed. -/
inductive Stage where
  | working (work : Work)
  | finished (result : ExecutionResult)
  | reported (result : ExecutionResult) (answer : Option Bool)

def Stage.of : Work → Stage
  | .done result => .finished result
  | work => .working work

structure Session where
  envelope : DispatchEnvelope
  workerId : String
  execution : ExecutionSnapshot
  dryRun : Bool
  stage : Stage
  timeline : Timeline

def Session.attemptId (x : Session) : Uuid := x.envelope.attemptId

def Session.runId (x : Session) : Uuid := x.envelope.runId

def received (envelope : DispatchEnvelope) (execution : ExecutionSnapshot) (dryRun : Bool) :
    List ExecutionEvent :=
  [.runReceived envelope.dispatchId execution.trigger execution.scheduledAt, .runStarted dryRun]

def Session.start (args : Args) (envelope : DispatchEnvelope) (observationId : Uuid)
    (execution : ExecutionSnapshot) : Session where
  envelope := envelope
  workerId := args.workerId
  execution := execution
  dryRun := args.dryRun || execution.dryRun
  stage := .working .waiting
  timeline := (Timeline.start observationId envelope.runId envelope.attemptId execution.jobId
    args.workerId execution.queue).emitAll
      (received envelope execution (args.dryRun || execution.dryRun))

section Session

variable (F : FloatFormat) (hF : PlainNumbers F) (debug : List Char → List Char)

def Session.redactor (x : Session) : Redactor :=
  fromInputsAndArguments F hF x.execution.inputs (x.execution.arguments.map String.toList)

/-- The `CompletionRequest` of a result. -/
def Session.completion (x : Session) (result : ExecutionResult) : CompletionRequest where
  attemptId := x.attemptId
  workerId := x.workerId
  succeeded := result.succeeded
  skipped := result.skipped
  exitCode := result.exitCode
  stdoutTail := String.ofList result.stdoutTail
  stderrTail := String.ofList result.stderrTail
  error := result.error.map fun error => String.ofList ((x.redactor F hF).text error)

def emitResult (redactor : Redactor) (totalDurationMs : ℕ) (result : ExecutionResult) :
    ExecutionEvent :=
  if result.skipped then .runSkipped "dry run".toList totalDurationMs
  else if result.succeeded then .runCompleted totalDurationMs
  else .runFailed (result.failurePhase.getD .execution)
    (redactor.text (result.error.getD "execution failed".toList)) result.exitCode totalDurationMs

def lastEvent (redactor : Redactor) (totalDurationMs : ℕ) (result : ExecutionResult) :
    Option Bool → ExecutionEvent
  | some true => emitResult redactor totalDurationMs result
  | some false => .resultReportingFailed "completion lost its worker lease".toList
    result.succeeded result.skipped totalDurationMs
  | none => .resultReportingFailed "completion was not confirmed".toList
    result.succeeded result.skipped totalDurationMs

/-- What moves a session: a poll of its work, a heartbeat that failed, an answer to its
completion. -/
inductive SessionStep where
  | work (step : WorkStep)
  | abort (error : List Char)
  | answer (answer : Option Bool) (totalDurationMs : ℕ)

def Session.advance (x : Session) : SessionStep → Stage × List ExecutionEvent
  | .work step =>
    match x.stage with
    | .working work =>
      let stepped := work.step F debug (x.redactor F hF) x.execution x.dryRun step
      (.of stepped.1, stepped.2)
    | stage => (stage, [])
  | .abort error =>
    match x.stage with
    | .working _ => (.finished (.failed .execution error), [])
    | stage => (stage, [])
  | .answer answer totalDurationMs =>
    match x.stage with
    | .finished result =>
      (.reported result answer, [lastEvent (x.redactor F hF) totalDurationMs result answer])
    | stage => (stage, [])

def Session.move (step : SessionStep) (x : Session) : Session :=
  let moved := x.advance F hF debug step
  { x with stage := moved.1, timeline := x.timeline.emitAll moved.2 }

end Session

structure Deployment where
  network : Network
  sessions : List Session

inductive Exchange where
  | answered
  | failed (delivered : Bool) (error : List Char)

def Exchange.delivered : Exchange → Bool
  | .answered => true
  | .failed delivered _ => delivered

/-- The events of others, a claim by a worker, and what happens to the session of an Attempt: a
poll of its work, a heartbeat with the extension of the JetStream deadline, a completion. -/
inductive Event where
  | network (e : LiveOutput.Event)
  | claim (args : Args) (envelope : DispatchEnvelope) (observationId : Uuid) (answered : Bool)
      (now : Instant)
  | work (attemptId : Uuid) (step : WorkStep)
  | renew (attemptId : Uuid) (exchange : Exchange) (extension : Except (List Char) Unit)
      (now : Instant)
  | complete (attemptId : Uuid) (exchange : Exchange) (totalDurationMs : ℕ)
      (retryAt now : Instant)

section Deployment

variable (F : FloatFormat) (hF : PlainNumbers F) (debug : List Char → List Char)

def seen : ExecutionEvent → TimelineEvent
  | .stdout line => .stdout line
  | .stderr line => .stderr line
  | _ => .other

def emitAll (attemptId : Uuid) (events : List ExecutionEvent) (net : Network) : Network :=
  events.foldl (fun net e => LiveOutput.next F net (.emit attemptId (seen e))) net

def settleUploads (attemptId : Uuid) (stage : Stage) (net : Network) : Network :=
  match stage with
  | .working _ => net
  | .finished _ | .reported _ _ => LiveOutput.next F net (.stop attemptId)

def Deployment.find (d : Deployment) (attemptId : Uuid) : Option Session :=
  d.sessions.find? fun x => x.attemptId = attemptId

def Deployment.advance (d : Deployment) (x : Session) (step : SessionStep) : Deployment where
  network := settleUploads F x.attemptId (x.advance F hF debug step).1
    (emitAll F x.attemptId (x.advance F hF debug step).2 d.network)
  sessions := update (fun y => y.attemptId = x.attemptId) (.move F hF debug step) d.sessions

def claimRequest (args : Args) (envelope : DispatchEnvelope) : ClaimRequest :=
  ⟨envelope.runId, envelope.attemptId, args.queueId, args.workerId⟩

/-- The execution that a claim grants, where the worker can decode the answer. -/
def grantedExecution (s : Store) (request : ClaimRequest) (now : Instant) :
    Option ExecutionSnapshot :=
  match (claimAttempt request now s).1 with
  | .ok ⟨true, _, some execution⟩ => InputStorage.delivered F execution
  | _ => none

/-- `handle_message` up to the execution. A dispatch of another Queue is terminated, and an answer
that is lost, or that the worker cannot decode, is as good as none. -/
def Deployment.claim (d : Deployment) (args : Args) (envelope : DispatchEnvelope)
    (observationId : Uuid) (answered : Bool) (now : Instant) : Deployment :=
  if envelope.queueId ≠ args.queueId then d
  else
    match answered, grantedExecution F d.network.control.store (claimRequest args envelope) now with
    | true, some execution =>
      let x := Session.start args envelope observationId execution
      ⟨emitAll F envelope.attemptId (received envelope execution x.dryRun)
        (LiveOutput.next F d.network (.claim (claimRequest args envelope) true now)),
        x :: d.sessions⟩
    | _, _ =>
      { d with
        network := LiveOutput.next F d.network (.claim (claimRequest args envelope) false now) }

def leaseExpired : List Char := "worker lease expired during execution".toList

def heartbeatFailure (renewed : Bool) (extension : Except (List Char) Unit) :
    Exchange → Option (List Char)
  | .failed _ error => some error
  | .answered =>
    if !renewed then some leaseExpired
    else
      match extension with
      | .error error =>
        some ("failed to extend JetStream acknowledgement deadline: ".toList ++ error)
      | .ok () => none

def leaseRequest (x : Session) : LeaseRequest := ⟨x.attemptId, x.workerId⟩

/-- A renewal that reaches the server takes effect, whatever the worker hears of it. -/
def Deployment.renewed (d : Deployment) (x : Session) (exchange : Exchange) (now : Instant) :
    Deployment :=
  if exchange.delivered then
    { d with network := LiveOutput.next F d.network (.control (.renewLease (leaseRequest x) now)) }
  else d

/-- A heartbeat of `run_with_heartbeat`. -/
def Deployment.renew (d : Deployment) (x : Session) (exchange : Exchange)
    (extension : Except (List Char) Unit) (now : Instant) : Deployment :=
  let renewed := (renewLease (leaseRequest x) now d.network.control.store).1
  match heartbeatFailure renewed extension exchange with
  | none => d.renewed F x exchange now
  | some error => (d.renewed F x exchange now).advance F hF debug x (.abort error)

/-- The answer of the server to a completion that reaches it; an error is not answered. -/
def Deployment.accepts (d : Deployment) (request : CompletionRequest) (retryAt now : Instant) :
    Option Bool :=
  (storeCompletion request retryAt now d.network.control.store).1.toOption

def Deployment.completed (d : Deployment) (request : CompletionRequest) (exchange : Exchange)
    (retryAt now : Instant) : Deployment :=
  if exchange.delivered && (d.accepts request retryAt now).isSome then
    { d with
      network := LiveOutput.next F d.network (.control (.completeAttempt request retryAt now)) }
  else d

/-- The answer that the worker hears. -/
def Deployment.answer (d : Deployment) (request : CompletionRequest) (exchange : Exchange)
    (retryAt now : Instant) : Option Bool :=
  match exchange with
  | .answered => d.accepts request retryAt now
  | .failed _ _ => none

def Deployment.complete (d : Deployment) (x : Session) (result : ExecutionResult)
    (exchange : Exchange) (totalDurationMs : ℕ) (retryAt now : Instant) : Deployment :=
  (d.completed F (x.completion F hF result) exchange retryAt now).advance F hF debug x
    (.answer (d.answer (x.completion F hF result) exchange retryAt now) totalDurationMs)

def next (d : Deployment) : Event → Deployment
  | .network e => { d with network := LiveOutput.next F d.network e }
  | .claim args envelope observationId answered now =>
    d.claim F args envelope observationId answered now
  | .work attemptId step =>
    match d.find attemptId with
    | some x => d.advance F hF debug x (.work step)
    | none => d
  | .renew attemptId exchange extension now =>
    match d.find attemptId with
    | some x =>
      match x.stage with
      | .working _ => d.renew F hF debug x exchange extension now
      | .finished _ | .reported _ _ => d
    | none => d
  | .complete attemptId exchange totalDurationMs retryAt now =>
    match d.find attemptId with
    | some x =>
      match x.stage with
      | .finished result => d.complete F hF debug x result exchange totalDurationMs retryAt now
      | .working _ | .reported _ _ => d
    | none => d

/-- The commands that reach the store only through a session. -/
def sent : Command → Bool
  | .renewLease _ _ | .completeAttempt _ _ _ => true
  | _ => false

def caused : LiveOutput.Event → Bool
  | .claim _ _ _ | .emit _ _ | .stop _ => true
  | .control c => sent c
  | .tick _ | .answer _ _ | .deliver _ _ => false

def Enabled (d : Deployment) : Event → Prop
  | .network e => caused e = false ∧ LiveOutput.Enabled d.network e
  | .claim args _ _ _ _ => validateResourceName args.workerId = true
  | .work _ _ | .renew _ _ _ _ | .complete _ _ _ _ _ => True

def initial (d : Deployment) : Prop := LiveOutput.initial d.network ∧ d.sessions = []

def system : TransitionSystem Deployment Event where
  initial := initial
  Enabled := Enabled
  next := next F hF debug

end Deployment

section Told

variable (F : FloatFormat) (hF : PlainNumbers F)

/-- The events of a session in a stage: the first two, the trace of the execution, and a last
one once the completion has been answered. -/
inductive StageTold (redactor : Redactor) (envelope : DispatchEnvelope)
    (execution : ExecutionSnapshot) (dryRun : Bool) : Stage → List ExecutionEvent → Prop where
  | working (work trace) (hopen : ∀ result, work ≠ .done result)
      (h : Traced redactor execution dryRun work trace) :
      StageTold redactor envelope execution dryRun (.working work)
        (received envelope execution dryRun ++ trace)
  | finished (result trace) (h : Ended redactor execution dryRun result trace) :
      StageTold redactor envelope execution dryRun (.finished result)
        (received envelope execution dryRun ++ trace)
  | reported (result answer trace totalDurationMs)
      (h : Ended redactor execution dryRun result trace) :
      StageTold redactor envelope execution dryRun (.reported result answer)
        (received envelope execution dryRun ++ trace ++
          [lastEvent redactor totalDurationMs result answer])

def Session.Told (x : Session) (stage : Stage) (events : List ExecutionEvent) : Prop :=
  StageTold (x.redactor F hF) x.envelope x.execution x.dryRun stage events

structure Stamps (x : Session) : Prop where
  runId : x.timeline.runId = x.runId
  attemptId : x.timeline.attemptId = x.attemptId
  jobId : x.timeline.jobId = x.execution.jobId
  workerId : x.timeline.workerId = x.workerId
  queue : x.timeline.queue = x.execution.queue

structure Recorded (x : Session) : Prop where
  told : x.Told F hF x.stage x.timeline.events
  numbered : x.timeline.Numbered
  stamps : Stamps x

variable {F : FloatFormat} {hF : PlainNumbers F} {debug : List Char → List Char}

theorem start_recorded (args : Args) (envelope : DispatchEnvelope) (observationId : Uuid)
    (execution : ExecutionSnapshot) :
    Recorded F hF (.start args envelope observationId execution) := by
  constructor
  · exact .working .waiting [] nofun rfl
  · exact (Timeline.start_numbered _ _ _ _ _ _).emitAll _
  · exact ⟨rfl, rfl, rfl, rfl, rfl⟩

theorem Session.told_of_traced {x : Session} {work : Work} {trace : List ExecutionEvent}
    (h : Traced (x.redactor F hF) x.execution x.dryRun work trace) :
    x.Told F hF (.of work) (received x.envelope x.execution x.dryRun ++ trace) := by
  cases work with
  | waiting => exact .working .waiting trace nofun h
  | child c => exact .working (.child c) trace nofun h
  | done result => exact .finished result trace h

variable (debug) in
/-- Every step of a session adds the events that its new stage accounts for. -/
theorem Session.advance_told {x : Session} {events : List ExecutionEvent}
    (h : x.Told F hF x.stage events) (step : SessionStep) :
    x.Told F hF (x.advance F hF debug step).1 (events ++ (x.advance F hF debug step).2) := by
  have hidle : x.Told F hF x.stage (events ++ []) := by
    rw [List.append_nil]
    exact h
  cases step with
  | work step =>
    simp only [Session.advance]
    split
    · rename_i work hstage
      rw [hstage] at h
      cases h with
      | working _ trace hopen htraced =>
        rw [List.append_assoc]
        exact told_of_traced (Work.step_traced htraced step)
    · exact hidle
  | abort error =>
    simp only [Session.advance]
    split
    · rename_i work hstage
      rw [hstage] at h
      cases h with
      | working _ trace hopen htraced =>
        rw [List.append_nil]
        exact .finished _ trace (htraced.abort hopen error)
    · exact hidle
  | answer answer totalDurationMs =>
    simp only [Session.advance]
    split
    · rename_i result hstage
      rw [hstage] at h
      cases h with
      | finished _ trace hended => exact .reported result answer trace totalDurationMs hended
    · exact hidle

theorem Recorded.move {x : Session} (h : Recorded F hF x) (step : SessionStep) :
    Recorded F hF (x.move F hF debug step) := by
  constructor
  · have htold := Session.advance_told debug h.told step
    rw [← Timeline.events_emitAll] at htold
    exact htold
  · exact h.numbered.emitAll _
  · obtain ⟨nextSequence, emitted, hstamps⟩ :=
      Timeline.emitAll_stamps x.timeline (x.advance F hF debug step).2
    have htimeline : (x.move F hF debug step).timeline =
        { x.timeline with nextSequence := nextSequence, emitted := emitted } := hstamps
    constructor
    all_goals rw [htimeline]
    · exact h.stamps.runId
    · exact h.stamps.attemptId
    · exact h.stamps.jobId
    · exact h.stamps.workerId
    · exact h.stamps.queue

end Told

section Runs

variable {F : FloatFormat} {hF : PlainNumbers F} {debug : List Char → List Char}

theorem Deployment.find_mem {d : Deployment} {attemptId : Uuid} {x : Session}
    (h : d.find attemptId = some x) : x ∈ d.sessions ∧ x.attemptId = attemptId :=
  ⟨List.mem_of_find?_eq_some h, by simpa using List.find?_some h⟩

inductive SessionsStep (F : FloatFormat) (hF : PlainNumbers F) (debug : List Char → List Char)
    (d : Deployment) : List Session → Prop where
  | same : SessionsStep F hF debug d d.sessions
  | start (args envelope observationId execution) :
      SessionsStep F hF debug d (.start args envelope observationId execution :: d.sessions)
  | move (x : Session) (step : SessionStep) (hx : x ∈ d.sessions) :
      SessionsStep F hF debug d
        (update (fun y => y.attemptId = x.attemptId) (.move F hF debug step) d.sessions)

theorem claim_sessions (d : Deployment) (args : Args) (envelope : DispatchEnvelope)
    (observationId : Uuid) (answered : Bool) (now : Instant) :
    SessionsStep F hF debug d (d.claim F args envelope observationId answered now).sessions := by
  unfold Deployment.claim
  split
  · exact .same
  · simp only
    split
    · exact .start args envelope observationId _
    · exact .same

theorem renew_sessions {d : Deployment} {x : Session} (hx : x ∈ d.sessions) (exchange : Exchange)
    (extension : Except (List Char) Unit) (now : Instant) :
    SessionsStep F hF debug d (d.renew F hF debug x exchange extension now).sessions := by
  have hdelivered : (d.renewed F x exchange now).sessions = d.sessions := by
    unfold Deployment.renewed
    split
    · rfl
    · rfl
  unfold Deployment.renew
  simp only
  split
  · rw [hdelivered]
    exact .same
  · rw [Deployment.advance, hdelivered]
    exact .move x _ hx

theorem complete_sessions {d : Deployment} {x : Session} (hx : x ∈ d.sessions)
    (result : ExecutionResult) (exchange : Exchange) (totalDurationMs : ℕ)
    (retryAt now : Instant) :
    SessionsStep F hF debug d
      (d.complete F hF debug x result exchange totalDurationMs retryAt now).sessions := by
  have hcompleted : (d.completed F (x.completion F hF result) exchange retryAt now).sessions =
      d.sessions := by
    unfold Deployment.completed
    split
    · rfl
    · rfl
  rw [Deployment.complete, Deployment.advance, hcompleted]
  exact .move x _ hx

theorem next_sessions (d : Deployment) (e : Event) :
    SessionsStep F hF debug d (next F hF debug d e).sessions := by
  cases e with
  | network e => exact .same
  | claim args envelope observationId answered now =>
    exact claim_sessions d args envelope observationId answered now
  | work attemptId step =>
    simp only [next]
    split
    · rename_i x hfind
      exact .move x _ (Deployment.find_mem hfind).1
    · exact .same
  | renew attemptId exchange extension now =>
    simp only [next]
    split
    · rename_i x hfind
      split
      · exact renew_sessions (Deployment.find_mem hfind).1 exchange extension now
      · exact .same
      · exact .same
    · exact .same
  | complete attemptId exchange totalDurationMs retryAt now =>
    simp only [next]
    split
    · rename_i x hfind
      split
      · exact complete_sessions (Deployment.find_mem hfind).1 _ exchange totalDurationMs retryAt now
      · exact .same
      · exact .same
    · exact .same

theorem SessionsStep.recorded {d : Deployment} {sessions : List Session}
    (h : SessionsStep F hF debug d sessions) (hd : ∀ x ∈ d.sessions, Recorded F hF x) :
    ∀ x ∈ sessions, Recorded F hF x := by
  intro x hx
  cases h with
  | same => exact hd x hx
  | start args envelope observationId execution =>
    rcases List.mem_cons.mp hx with rfl | hx
    · exact start_recorded args envelope observationId execution
    · exact hd x hx
  | move y step hy =>
    rcases update_cases hx with ⟨hmem, _⟩ | ⟨z, hmem, _, rfl⟩
    · exact hd x hmem
    · exact (hd z hmem).move step

theorem reachable_recorded {d : Deployment} (h : (system F hF debug).Reachable d) :
    ∀ x ∈ d.sessions, Recorded F hF x := by
  refine h.invariant (P := fun d => ∀ x ∈ d.sessions, Recorded F hF x) ?_ ?_
  · rintro d ⟨_, hnone⟩ x hx
    rw [hnone] at hx
    cases hx
  · rintro d e _ hd ⟨_, rfl⟩
    exact (next_sessions d e).recorded hd

theorem lastEvent_outcome {redactor : Redactor} {execution : ExecutionSnapshot} {dryRun : Bool}
    {result : ExecutionResult} {trace : List ExecutionEvent}
    (h : Ended redactor execution dryRun result trace) (totalDurationMs : ℕ)
    (answer : Option Bool) :
    outcomeTold (lastEvent redactor totalDurationMs result answer) =
      some (result.succeeded, result.skipped) := by
  match answer with
  | none => rfl
  | some false => rfl
  | some true =>
    simp only [lastEvent, emitResult]
    rcases h.verdict with ⟨hsucceeded, _⟩ | ⟨hfailed, hexecuted, _⟩
    · rw [hsucceeded, if_pos rfl]
      by_cases hskipped : result.skipped = true
      · rw [if_pos hskipped, hskipped]
        rfl
      · rw [if_neg hskipped, Bool.eq_false_of_not_eq_true hskipped]
        rfl
    · rw [hfailed, hexecuted]
      rfl

theorem read_received (envelope : DispatchEnvelope) (execution : ExecutionSnapshot) (dryRun : Bool)
    (trace : List ExecutionEvent) :
    Position.created.read (received envelope execution dryRun ++ trace) =
      (Position.started dryRun).read trace := rfl

/-- A reader accepts the events of a session, and is at their end when the result is reported. -/
theorem Session.Told.read {x : Session} {stage : Stage} {events : List ExecutionEvent}
    (h : x.Told F hF stage events) : ∃ p, Position.created.read events = some p ∧
      (p = .ended ↔ ∃ result answer, stage = .reported result answer) := by
  have hopen {p : Position} (hverdict : p.verdict.isSome = true) : p ≠ .ended := by
    rintro rfl
    cases hverdict
  cases h with
  | working work trace _ htraced =>
    obtain ⟨p, hread, hverdict⟩ := read_traced htraced
    exact ⟨p, hread, iff_of_false (hopen hverdict) (by simp)⟩
  | finished result trace hended =>
    obtain ⟨p, hread, hverdict⟩ := read_ended hended
    exact ⟨p, hread, iff_of_false (hopen (by rw [hverdict]; rfl)) (by simp)⟩
  | reported result answer trace totalDurationMs hended =>
    obtain ⟨p, hread, hverdict⟩ := read_ended hended
    refine ⟨.ended, ?_, iff_of_true rfl ⟨result, answer, rfl⟩⟩
    rw [Position.read_append, read_received, hread, Option.bind_some, Position.read_single]
    exact Position.after_last hverdict (lastEvent_outcome hended totalDurationMs answer)

/-- In every reachable state the timeline of every session is in order, ends exactly when the
result has been reported, counts its envelopes from one, and stamps each with its session. -/
theorem timelines_in_order {d : Deployment} (h : (system F hF debug).Reachable d) {x : Session}
    (hx : x ∈ d.sessions) :
    (∃ p, Position.created.read x.timeline.events = some p ∧
      (p = .ended ↔ ∃ result answer, x.stage = .reported result answer)) ∧
    ∀ i (hi : i < x.timeline.emitted.length), x.timeline.emitted[i] =
      ⟨x.timeline.observationId, sequenceAt i, x.runId, x.attemptId, x.execution.jobId, x.workerId,
        x.execution.queue, x.timeline.emitted[i].event⟩ := by
  have hrecorded := reachable_recorded h x hx
  refine ⟨hrecorded.told.read, fun i hi => ?_⟩
  have hstamped := hrecorded.numbered.stamped i hi
  rw [Timeline.envelope, hrecorded.stamps.runId, hrecorded.stamps.attemptId,
    hrecorded.stamps.jobId, hrecorded.stamps.workerId, hrecorded.stamps.queue] at hstamped
  exact hstamped

end Runs

def demoDeployment : Deployment := ⟨⟨demoInitial, [], [], []⟩, []⟩

def demoArgs : Args := ⟨"worker", 1, false⟩

def demoClaim : Event := .claim demoArgs ⟨8, 6, 7, 1⟩ 11 true 0

def demoStart : Event := .work 7 (.start ⟨.ok (), .ok none⟩)

/-- Worker and dispatcher of the demo deployment up to the answer of the completion. -/
def demoEvents : List Event :=
  [.network (.control demoCreate), .network (.control demoClaimOutbox),
    .network (.control demoMarkPublished), demoClaim, demoStart, .complete 7 .answered 3 1 1]

abbrev demoSystem : TransitionSystem Deployment Event :=
  system RedactedContext.plainFormat RedactedContext.plainFormat_numbers id

theorem demoEvents_reachable : demoSystem.Reachable (demoSystem.run demoDeployment demoEvents) := by
  refine ⟨demoDeployment, ⟨⟨demoInitial_initial, rfl, rfl, rfl⟩, rfl⟩, .of_admits ?_⟩
  refine ⟨⟨rfl, rfl, trivial⟩, ⟨rfl, rfl, trivial⟩, ⟨rfl, rfl, List.mem_singleton.mpr rfl⟩, ?_,
    trivial, trivial, trivial⟩
  exact (by decide : validateResourceName "worker" = true)

theorem timelines_in_order_demo :
    (demoSystem.run demoDeployment demoEvents).sessions.length = 1 ∧
      ∀ x ∈ (demoSystem.run demoDeployment demoEvents).sessions, ∃ p,
        Position.created.read x.timeline.events = some p ∧
          (p = .ended ↔ ∃ result answer, x.stage = .reported result answer) :=
  ⟨by decide, fun _ hx => (timelines_in_order demoEvents_reachable hx).1⟩

end WorkerSessions
