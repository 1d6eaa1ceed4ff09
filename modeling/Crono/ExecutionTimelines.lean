import Crono.LiveOutput
import Crono.WorkerRunner

/-! The timeline of an Attempt: numbered envelopes of one observation, and the order in which a
reader may meet their events. -/
namespace ExecutionTimelines

open RunDomain WorkerOutput WorkerRunner
open LiveOutput (saturatingSucc TimelineEvent)

structure ExecutionEventEnvelope where
  observationId : Uuid
  sequence : ℕ
  runId : Uuid
  attemptId : Uuid
  jobId : Option Uuid
  workerId : String
  queue : String
  event : ExecutionEvent

/-- `ExecutionTimeline`, with the envelopes its sink has received. -/
structure Timeline where
  observationId : Uuid
  runId : Uuid
  attemptId : Uuid
  jobId : Option Uuid
  workerId : String
  queue : String
  nextSequence : ℕ
  emitted : List ExecutionEventEnvelope

def Timeline.start (observationId runId attemptId : Uuid) (jobId : Option Uuid)
    (workerId queue : String) : Timeline :=
  ⟨observationId, runId, attemptId, jobId, workerId, queue, 1, []⟩

def Timeline.envelope (t : Timeline) (event : ExecutionEvent) : ExecutionEventEnvelope :=
  ⟨t.observationId, t.nextSequence, t.runId, t.attemptId, t.jobId, t.workerId, t.queue, event⟩

def Timeline.emit (t : Timeline) (event : ExecutionEvent) : Timeline :=
  { t with
    nextSequence := saturatingSucc t.nextSequence
    emitted := t.emitted ++ [t.envelope event] }

def Timeline.emitAll (t : Timeline) (events : List ExecutionEvent) : Timeline :=
  events.foldl Timeline.emit t

def Timeline.events (t : Timeline) : List ExecutionEvent :=
  t.emitted.map ExecutionEventEnvelope.event

/-- The number of the event at position `i`. -/
def sequenceAt (i : ℕ) : ℕ := min (i + 1) (2 ^ 64 - 1)

/-- Every envelope is of this observation, and the numbers count from one. -/
structure Timeline.Numbered (t : Timeline) : Prop where
  next : t.nextSequence = sequenceAt t.emitted.length
  stamped : ∀ i (h : i < t.emitted.length), t.emitted[i] =
    { t.envelope t.emitted[i].event with sequence := sequenceAt i }

theorem Timeline.start_numbered (observationId runId attemptId : Uuid) (jobId : Option Uuid)
    (workerId queue : String) :
    (Timeline.start observationId runId attemptId jobId workerId queue).Numbered :=
  ⟨rfl, fun i h => absurd h (Nat.not_lt_zero i)⟩

theorem Timeline.Numbered.emit {t : Timeline} (h : t.Numbered) (event : ExecutionEvent) :
    (t.emit event).Numbered := by
  constructor
  · simp only [Timeline.emit, h.next, saturatingSucc, sequenceAt, List.length_append,
      List.length_singleton]
    omega
  · intro i hi
    simp only [Timeline.emit, List.length_append, List.length_singleton] at hi
    by_cases hold : i < t.emitted.length
    · simp only [Timeline.emit, List.getElem_append_left hold]
      exact h.stamped i hold
    · obtain rfl : i = t.emitted.length := by omega
      simp only [Timeline.emit, List.getElem_concat_length, Timeline.envelope, h.next]

theorem Timeline.Numbered.emitAll {t : Timeline} (h : t.Numbered) (events : List ExecutionEvent) :
    (t.emitAll events).Numbered := by
  induction events generalizing t with
  | nil => exact h
  | cons event events ih => exact ih (h.emit event)

@[simp] theorem Timeline.events_emit (t : Timeline) (event : ExecutionEvent) :
    (t.emit event).events = t.events ++ [event] := by
  simp [Timeline.emit, Timeline.events, Timeline.envelope]

@[simp] theorem Timeline.events_emitAll (t : Timeline) (events : List ExecutionEvent) :
    (t.emitAll events).events = t.events ++ events := by
  induction events generalizing t with
  | nil => simp [Timeline.emitAll]
  | cons event events ih =>
    have hcons : t.emitAll (event :: events) = (t.emit event).emitAll events := rfl
    rw [hcons, ih, Timeline.events_emit, List.append_assoc, List.singleton_append]

theorem Timeline.emitAll_stamps (t : Timeline) (events : List ExecutionEvent) :
    ∃ nextSequence emitted, t.emitAll events =
      { t with nextSequence := nextSequence, emitted := emitted } := by
  induction events generalizing t with
  | nil => exact ⟨_, _, rfl⟩
  | cons event events ih =>
    obtain ⟨nextSequence, emitted, hrest⟩ := ih (t.emit event)
    exact ⟨nextSequence, emitted, hrest⟩

inductive Position where
  | created
  | received
  | started (dryRun : Bool)
  | resolved (dryRun : Bool)
  | commanded (dryRun : Bool)
  | skipped (dryRun : Bool)
  | running
  | exited (success : Bool)
  | ended
  deriving DecidableEq, Repr

/-- What the events up to here say of the outcome: whether it succeeded, and was skipped. -/
def Position.verdict : Position → Option (Bool × Bool)
  | .started _ | .resolved _ | .commanded _ | .running => some (false, false)
  | .exited success => some (success, false)
  | .skipped dryRun => some (true, dryRun)
  | .created | .received | .ended => none

def outcomeTold : ExecutionEvent → Option (Bool × Bool)
  | .runCompleted _ => some (true, false)
  | .runSkipped _ _ => some (true, true)
  | .runFailed _ _ _ _ => some (false, false)
  | .resultReportingFailed _ executionSucceeded executionSkipped _ =>
    some (executionSucceeded, executionSkipped)
  | _ => none

/-- The order of a timeline: only a real execution starts a process, only a started process
prints and exits, and the last event says what the earlier ones have shown. -/
def Position.after (p : Position) (event : ExecutionEvent) : Option Position :=
  match p, event with
  | .created, .runReceived _ _ _ => some .received
  | .received, .runStarted dryRun => some (.started dryRun)
  | .started dryRun, .contextResolved _ => some (.resolved dryRun)
  | .resolved dryRun, .commandResolved _ _ _ _ => some (.commanded dryRun)
  | .resolved dryRun, .processSkipped _ => some (.skipped dryRun)
  | .commanded dryRun, .processSkipped _ => some (.skipped dryRun)
  | .commanded false, .processStarted _ => some .running
  | .running, .stdout _ => some .running
  | .running, .stderr _ => some .running
  | .running, .processExited exitCode _ _ => some (.exited (exitCode = some 0))
  | p, event =>
    if (outcomeTold event).isSome ∧ p.verdict = outcomeTold event then some .ended else none

def Position.read (p : Position) (events : List ExecutionEvent) : Option Position :=
  events.foldlM Position.after p

theorem Position.read_append (p : Position) (events more : List ExecutionEvent) :
    p.read (events ++ more) = (p.read events).bind fun q => q.read more :=
  List.foldlM_append

theorem Position.read_cons (p : Position) (event : ExecutionEvent) (events : List ExecutionEvent) :
    p.read (event :: events) = (p.after event).bind fun q => q.read events := rfl

theorem Position.read_single (p : Position) (event : ExecutionEvent) :
    p.read [event] = p.after event := by
  rw [Position.read_cons]
  cases p.after event with
  | none => rfl
  | some q => rfl

theorem Position.after_last {p : Position} {event : ExecutionEvent} {outcome : Bool × Bool}
    (hp : p.verdict = some outcome) (hevent : outcomeTold event = some outcome) :
    p.after event = some .ended := by
  unfold Position.after
  split
  all_goals first
    | (rw [if_pos ⟨by rw [hevent]; rfl, hp.trans hevent.symm⟩])
    | (cases hevent)

theorem Position.after_told {p q : Position} {event : ExecutionEvent} (h : p.after event = some q)
    (htold : (outcomeTold event).isSome = true) : q = .ended := by
  unfold Position.after at h
  split at h
  all_goals first
    | (cases htold)
    | (split at h
       · exact (Option.some.inj h).symm
       · cases h)

theorem Position.after_ended (event : ExecutionEvent) : Position.ended.after event = none := by
  cases event <;> rfl

theorem Position.read_told {p q : Position} {events : List ExecutionEvent}
    (h : p.read events = some q) {event : ExecutionEvent} (hmem : event ∈ events)
    (htold : (outcomeTold event).isSome = true) :
    q = .ended ∧ ∃ earlier, events = earlier ++ [event] := by
  obtain ⟨earlier, later, rfl⟩ := List.append_of_mem hmem
  rw [Position.read_append] at h
  obtain ⟨before, _, hrest⟩ := Option.bind_eq_some_iff.mp h
  rw [Position.read_cons] at hrest
  obtain ⟨after, hafter, hlater⟩ := Option.bind_eq_some_iff.mp hrest
  rw [Position.after_told hafter htold] at hlater
  cases later with
  | nil => exact ⟨(Option.some.inj hlater).symm, earlier, rfl⟩
  | cons next later =>
    rw [Position.read_cons, Position.after_ended] at hlater
    cases hlater

section Traces

variable {redactor : Redactor} {execution : ExecutionSnapshot} {dryRun : Bool}

theorem read_resolved : (Position.started dryRun).read (resolved redactor execution) =
    some (if execution.executable.isSome then .commanded dryRun else .resolved dryRun) := by
  unfold WorkerRunner.resolved
  cases execution.executable with
  | none => rfl
  | some executable => rfl

theorem read_lineEvents (lines : List (Stream × List Char)) :
    Position.running.read (lineEvents lines) = some .running := by
  induction lines with
  | nil => rfl
  | cons line lines ih =>
    obtain ⟨stream, text⟩ := line
    cases stream with
    | stdout => exact ih
    | stderr => exact ih

theorem read_launched {pid : Option ℕ} {lines : List (Stream × List Char)}
    (h : dryRun = false) (hexecutable : execution.executable.isSome) :
    (Position.started dryRun).read (launched redactor execution pid lines) = some .running := by
  rw [launched, Position.read_append, read_resolved, if_pos hexecutable, h]
  exact read_lineEvents lines

/-- The trace of an execution that is over shows its outcome. -/
theorem read_ended {result : ExecutionResult} {trace : List ExecutionEvent}
    (h : Ended redactor execution dryRun result trace) :
    ∃ p, (Position.started dryRun).read trace = some p ∧
      p.verdict = some (result.succeeded, result.skipped) := by
  cases h with
  | unresolved => exact ⟨.started dryRun, rfl, rfl⟩
  | refused =>
    refine ⟨_, read_resolved, ?_⟩
    split
    · rfl
    · rfl
  | dryRun command hdry =>
    refine ⟨.skipped true, ?_, rfl⟩
    rw [Position.read_append, read_resolved, hdry]
    by_cases hexecutable : execution.executable.isSome = true
    · rw [if_pos hexecutable]
      rfl
    · rw [if_neg hexecutable]
      rfl
  | noop hreal =>
    refine ⟨.skipped false, ?_, rfl⟩
    rw [Position.read_append, read_resolved, hreal]
    by_cases hexecutable : execution.executable.isSome = true
    · rw [if_pos hexecutable]
      rfl
    · rw [if_neg hexecutable]
      rfl
  | broken pid c lines error hreal hexecutable =>
    exact ⟨.running, read_launched hreal hexecutable, rfl⟩
  | exited pid c lines status durationMs hreal hexecutable =>
    refine ⟨.exited status.success, ?_, rfl⟩
    rw [Position.read_append, read_launched hreal hexecutable]
    rfl

theorem read_traced {work : Work} {trace : List ExecutionEvent}
    (h : Traced redactor execution dryRun work trace) :
    ∃ p, (Position.started dryRun).read trace = some p ∧ p.verdict.isSome = true := by
  cases work with
  | waiting =>
    rw [h]
    exact ⟨.started dryRun, rfl, rfl⟩
  | child c =>
    obtain ⟨hreal, hexecutable, pid, lines, _, rfl⟩ := h
    exact ⟨.running, read_launched hreal hexecutable, rfl⟩
  | done result =>
    obtain ⟨p, hread, hverdict⟩ := read_ended h
    exact ⟨p, hread, by rw [hverdict]; rfl⟩

end Traces

end ExecutionTimelines
