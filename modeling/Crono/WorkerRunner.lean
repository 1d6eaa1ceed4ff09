import Crono.InputStorage
import Crono.OutputTails
import Crono.RedactedOutput

/-! How a worker runs one execution: the checks before a process is started, the child with its
two pipes, and the events that the timeline of the Attempt receives on the way. -/
namespace WorkerRunner

open RunDomain RunStore ExecutionInputs WorkerOutput SecretRedaction
open BoundaryCuts (size size_append)

inductive ExecutionPhase where
  | context
  | command
  | spawn
  | execution
  deriving DecidableEq, Repr

inductive ExecutionEvent where
  | runReceived (dispatchId : Uuid) (trigger : Option ExecutionTrigger)
      (scheduledAt : Option Instant)
  | runStarted (dryRun : Bool)
  | contextResolved (values : Value)
  | commandResolved (executable : List Char) (shellCommand : Option (List Char))
      (template arguments : List (List Char))
  | processStarted (pid : Option ℕ)
  | stdout (line : List Char)
  | stderr (line : List Char)
  | processExited (exitCode signal : Option ℤ) (durationMs : ℕ)
  | processSkipped (reason : List Char)
  | runCompleted (totalDurationMs : ℕ)
  | runSkipped (reason : List Char) (totalDurationMs : ℕ)
  | runFailed (phase : ExecutionPhase) (error : List Char) (exitCode : Option ℤ)
      (totalDurationMs : ℕ)
  | resultReportingFailed (error : List Char) (executionSucceeded executionSkipped : Bool)
      (totalDurationMs : ℕ)

structure ExecutionResult where
  succeeded : Bool
  skipped : Bool
  exitCode : Option ℤ
  stdoutTail : List Char
  stderrTail : List Char
  error : Option (List Char)
  failurePhase : Option ExecutionPhase
  deriving DecidableEq, Repr

def ExecutionResult.failed (phase : ExecutionPhase) (error : List Char) : ExecutionResult where
  succeeded := false
  skipped := false
  exitCode := none
  stdoutTail := []
  stderrTail := []
  error := some error
  failurePhase := some phase

section Preparation

variable (F : FloatFormat) (debug : List Char → List Char) (redactor : Redactor)

def resolved (execution : ExecutionSnapshot) : List ExecutionEvent :=
  .contextResolved (RedactedContext.values redactor execution.inputs) ::
    match execution.executable with
    | none => []
    | some executable =>
      [.commandResolved (redactor.text executable.toList)
        (execution.shellCommand.map fun script => redactor.text script.toList)
        (RedactedOutput.arguments redactor (execution.argumentTemplates.map String.toList))
        (RedactedOutput.arguments redactor (execution.arguments.map String.toList))]

def absolute (executable : String) : Bool := executable.toList.head? = some '/'

/-- The command that a dry run prints; `debug` quotes a text as `{:?}` does. -/
def dryRunCommand (execution : ExecutionSnapshot) : Except (List Char) (List Char) :=
  match execution.executor with
  | .noop => .ok "no-op executor (no command)".toList
  | .process | .shell =>
    match execution.executable with
    | none => .error "process snapshot has no executable".toList
    | some executable =>
      if !absolute executable then .error "process executable is not absolute".toList
      else if execution.executor = .shell && execution.shellCommand.isNone then
        .error "shell snapshot has no script".toList
      else
        let arguments := [' '].intercalate
          ((RedactedOutput.arguments redactor (execution.arguments.map String.toList)).map debug)
        let script := (execution.shellCommand.map fun value =>
          " -c ".toList ++ debug (redactor.text value.toList) ++ " crono-job".toList).getD []
        .ok ((debug (redactor.text executable.toList) ++ script ++ [' '] ++ arguments).rdropWhile
          TextPatterns.whitespace)

/-- The longest prefix, on a character boundary, of at most `limit` UTF-8 bytes. -/
def prefixWithin : (limit : ℕ) → List Char → List Char
  | _, [] => []
  | limit, c :: cs => if c.utf8Size ≤ limit then c :: prefixWithin (limit - c.utf8Size) cs else []

def truncationMarker : List Char := "\n[command truncated]".toList

def boundedCommandPrefix (line : List Char) : List Char :=
  if size line ≤ outputLimit then line
  else prefixWithin (outputLimit - size truncationMarker) line ++ truncationMarker

def dryRunLine (command : List Char) : List Char := "DRY RUN (not executed): ".toList ++ command

def dryRunResult (command : List Char) : ExecutionResult where
  succeeded := true
  skipped := true
  exitCode := none
  stdoutTail := boundedCommandPrefix (dryRunLine command)
  stderrTail := []
  error := none
  failurePhase := none

def noopResult : ExecutionResult where
  succeeded := true
  skipped := false
  exitCode := some 0
  stdoutTail := []
  stderrTail := []
  error := none
  failurePhase := none

/-- What the machine answers while a process is started: to the input file, and to the spawn. -/
structure Launch where
  inputFile : Except (List Char) Unit
  spawn : Except (List Char) (Option ℕ)

def inputsTooLarge : List Char := "execution inputs exceed the worker limit".toList

def prepareInputFile (launch : Launch) (execution : ExecutionSnapshot) :
    Except ExecutionResult Unit :=
  if maxInputBytes < encodedLength F execution.inputs then .error (.failed .context inputsTooLarge)
  else
    match launch.inputFile with
    | .error error => .error (.failed .context error)
    | .ok () => .ok ()

/-- `execute_process` up to the spawn. -/
def spawnProcess (launch : Launch) (execution : ExecutionSnapshot) :
    Except ExecutionResult (Option ℕ) :=
  match execution.executable with
  | none => .error (.failed .command "process snapshot has no executable".toList)
  | some executable =>
    if !absolute executable then
      .error (.failed .command "process executable is not absolute".toList)
    else
      match prepareInputFile F launch execution with
      | .error result => .error result
      | .ok () =>
        if execution.executor = .shell && execution.shellCommand.isNone then
          .error (.failed .command "shell snapshot has no script".toList)
        else
          match launch.spawn with
          | .error error => .error (.failed .spawn
              ("failed to spawn executor ".toList ++ debug executable.toList ++ ": ".toList ++
                error))
          | .ok pid => .ok pid

end Preparation

/-- `ExitStatus` of a Unix process. -/
inductive WaitStatus where
  | exited (code : ℤ)
  | signalled (signal : ℤ)
  deriving DecidableEq, Repr

def WaitStatus.code : WaitStatus → Option ℤ
  | .exited code => some code
  | .signalled _ => none

def WaitStatus.signal : WaitStatus → Option ℤ
  | .exited _ => none
  | .signalled signal => some signal

def WaitStatus.success (status : WaitStatus) : Bool := status.code = some 0

structure Pipe where
  reader : Reader
  closed : Bool

def Pipe.start : Pipe := ⟨.start, false⟩

def Pipe.read (redactor : Redactor) (chunk : List UInt8) (pipe : Pipe) : Pipe :=
  if pipe.closed then pipe
  else { pipe with reader := chunk.foldl (readByte redactor) pipe.reader }

def Pipe.close (redactor : Redactor) (pipe : Pipe) : Pipe :=
  if pipe.closed then pipe else ⟨finish redactor pipe.reader, true⟩

def Pipe.added (before after : Pipe) : List (List Char) :=
  after.reader.events.drop before.reader.events.length

/-- The three futures that `execute_process` joins. -/
structure Child where
  stdout : Pipe
  stderr : Pipe
  status : Option (WaitStatus × ℕ)

def Child.start : Child := ⟨.start, .start, none⟩

def Child.pipe (child : Child) : Stream → Pipe
  | .stdout => child.stdout
  | .stderr => child.stderr

def Child.setPipe (child : Child) : Stream → Pipe → Child
  | .stdout, pipe => { child with stdout := pipe }
  | .stderr, pipe => { child with stderr := pipe }

def lineEvent : Stream → List Char → ExecutionEvent
  | .stdout, line => .stdout line
  | .stderr, line => .stderr line

def Child.exited (child : Child) (status : WaitStatus) : ExecutionResult where
  succeeded := status.success
  skipped := false
  exitCode := status.code
  stdoutTail := child.stdout.reader.tail
  stderrTail := child.stderr.reader.tail
  error := if status.success then none else some "process exited unsuccessfully".toList
  failurePhase := if status.success then none else some .execution

/-- How far `execute_snapshot` has got. -/
inductive Work where
  | waiting
  | child (child : Child)
  | done (result : ExecutionResult)

/-- What a poll of the work meets: the machine at the first poll, bytes or the end of a pipe, the
exit of the child, or an error of one of these. -/
inductive WorkStep where
  | start (launch : Launch)
  | read (stream : Stream) (chunk : List UInt8)
  | close (stream : Stream)
  | exit (status : WaitStatus) (durationMs : ℕ)
  | fail (error : List Char)

section Work

variable (F : FloatFormat) (debug : List Char → List Char) (redactor : Redactor)

/-- `execute_process` at the first poll. -/
def executeProcess (execution : ExecutionSnapshot) (launch : Launch) : Work × List ExecutionEvent :=
  match spawnProcess F debug launch execution with
  | .error result => (.done result, [])
  | .ok pid => (.child .start, [.processStarted pid])

def startWork (execution : ExecutionSnapshot) (dryRun : Bool) (launch : Launch) :
    Work × List ExecutionEvent :=
  if maxInputBytes < encodedLength F execution.inputs then
    (.done (.failed .context inputsTooLarge), [])
  else if dryRun then
    match dryRunCommand debug redactor execution with
    | .error error => (.done (.failed .command error), resolved redactor execution)
    | .ok command => (.done (dryRunResult command),
        resolved redactor execution ++ [.processSkipped "dry run".toList])
  else
    match execution.executor with
    | .noop => (.done noopResult,
        resolved redactor execution ++ [.processSkipped "no-op executor".toList])
    | .process | .shell =>
      let started := executeProcess F debug execution launch
      (started.1, resolved redactor execution ++ started.2)

/-- The join is over when both pipes are closed and the child has been waited for. -/
def Child.settle (child : Child) : Work × List ExecutionEvent :=
  match child.status with
  | some (status, durationMs) =>
    if child.stdout.closed && child.stderr.closed then
      (.done (child.exited status), [.processExited status.code status.signal durationMs])
    else (.child child, [])
  | none => (.child child, [])

def Child.drain (child : Child) (stream : Stream) (pipe : Pipe) : Work × List ExecutionEvent :=
  let settled := (child.setPipe stream pipe).settle
  (settled.1, (Pipe.added (child.pipe stream) pipe).map (lineEvent stream) ++ settled.2)

/-- One poll of `execute_snapshot`, and the events it emits. -/
def Work.step (execution : ExecutionSnapshot) (dryRun : Bool) : Work → WorkStep →
    Work × List ExecutionEvent
  | .waiting, .start launch => startWork F debug redactor execution dryRun launch
  | .child c, .read stream chunk => c.drain stream ((c.pipe stream).read redactor chunk)
  | .child c, .close stream => c.drain stream ((c.pipe stream).close redactor)
  | .child c, .exit status durationMs =>
    if c.status.isNone then { c with status := some (status, durationMs) }.settle
    else (.child c, [])
  | .child _, .fail error => (.done (.failed .execution error), [])
  | work, _ => (work, [])

end Work

variable {redactor : Redactor}

/-- The reader has read some bytes, up to their end where the pipe is closed. -/
def Pipe.Drains (redactor : Redactor) (pipe : Pipe) : Prop :=
  ∃ chunks, pipe.reader =
    if pipe.closed then readOutput redactor chunks else readChunks redactor chunks

theorem Pipe.start_drains : Pipe.start.Drains redactor := ⟨[], rfl⟩

theorem Pipe.Drains.read {pipe : Pipe} (h : pipe.Drains redactor) (chunk : List UInt8) :
    (pipe.read redactor chunk).Drains redactor := by
  unfold Pipe.read
  by_cases hclosed : pipe.closed = true
  · rw [if_pos hclosed]
    exact h
  · obtain ⟨chunks, hreader⟩ := h
    rw [if_neg hclosed] at hreader ⊢
    refine ⟨chunks ++ [chunk], ?_⟩
    rw [if_neg hclosed, hreader, readChunks, readChunks, List.foldl_append]
    rfl

theorem Pipe.Drains.close {pipe : Pipe} (h : pipe.Drains redactor) :
    (pipe.close redactor).Drains redactor := by
  unfold Pipe.close
  by_cases hclosed : pipe.closed = true
  · rw [if_pos hclosed]
    exact h
  · obtain ⟨chunks, hreader⟩ := h
    rw [if_neg hclosed] at hreader ⊢
    exact ⟨chunks, by rw [hreader]; rfl⟩

theorem emitLine_events (terminated : Bool) (r : Reader) :
    r.events <+: (emitLine redactor terminated r).events := List.prefix_append _ _

theorem readByte_events (r : Reader) (byte : UInt8) :
    r.events <+: (readByte redactor r byte).events := by
  unfold readByte
  split
  · exact emitLine_events true r
  split
  · exact List.prefix_refl _
  split
  · exact List.prefix_refl _
  · exact List.prefix_refl _

theorem read_events (r : Reader) (chunk : List UInt8) :
    r.events <+: (chunk.foldl (readByte redactor) r).events := by
  induction chunk generalizing r with
  | nil => exact List.prefix_refl _
  | cons byte chunk ih => exact (readByte_events r byte).trans (ih _)

theorem Pipe.read_added (pipe : Pipe) (chunk : List UInt8) :
    pipe.reader.events ++ pipe.added (pipe.read redactor chunk) =
      (pipe.read redactor chunk).reader.events := by
  refine (List.prefix_iff_eq_append.mp ?_)
  unfold Pipe.read
  split
  · exact List.prefix_refl _
  · exact read_events pipe.reader chunk

theorem Pipe.close_added (pipe : Pipe) :
    pipe.reader.events ++ pipe.added (pipe.close redactor) =
      (pipe.close redactor).reader.events := by
  refine (List.prefix_iff_eq_append.mp ?_)
  unfold Pipe.close finish
  split
  · exact List.prefix_refl _
  split
  · exact emitLine_events false pipe.reader
  · exact List.prefix_refl _

def lineEvents (lines : List (Stream × List Char)) : List ExecutionEvent :=
  lines.map fun line => lineEvent line.1 line.2

/-- A child that has shown `lines`: each pipe has shown what its reader has read. -/
structure Shows (redactor : Redactor) (c : Child) (lines : List (Stream × List Char)) : Prop where
  lines : ∀ stream, linesOf stream lines = (c.pipe stream).reader.events
  drains : ∀ stream, (c.pipe stream).Drains redactor

def launched (redactor : Redactor) (execution : ExecutionSnapshot) (pid : Option ℕ)
    (lines : List (Stream × List Char)) : List ExecutionEvent :=
  resolved redactor execution ++ .processStarted pid :: lineEvents lines

/-- How an execution ends, and what its timeline has received by then. -/
inductive Ended (redactor : Redactor) (execution : ExecutionSnapshot) (dryRun : Bool) :
    ExecutionResult → List ExecutionEvent → Prop where
  | unresolved (phase error) : Ended redactor execution dryRun (.failed phase error) []
  | refused (phase error) :
      Ended redactor execution dryRun (.failed phase error) (resolved redactor execution)
  | dryRun (command) (h : dryRun = true) : Ended redactor execution dryRun (dryRunResult command)
      (resolved redactor execution ++ [.processSkipped "dry run".toList])
  | noop (h : dryRun = false) : Ended redactor execution dryRun noopResult
      (resolved redactor execution ++ [.processSkipped "no-op executor".toList])
  | broken (pid c lines error) (h : dryRun = false) (hexecutable : execution.executable.isSome)
      (hshows : Shows redactor c lines) : Ended redactor execution dryRun
      (.failed .execution error) (launched redactor execution pid lines)
  | exited (pid c lines status durationMs) (h : dryRun = false)
      (hexecutable : execution.executable.isSome) (hshows : Shows redactor c lines)
      (hclosed : ∀ stream, (c.pipe stream).closed = true) :
      Ended redactor execution dryRun (c.exited status)
      (launched redactor execution pid lines ++
        [.processExited status.code status.signal durationMs])

def Traced (redactor : Redactor) (execution : ExecutionSnapshot) (dryRun : Bool) :
    Work → List ExecutionEvent → Prop
  | .waiting, trace => trace = []
  | .child c, trace => dryRun = false ∧ execution.executable.isSome ∧
      ∃ pid lines, Shows redactor c lines ∧ trace = launched redactor execution pid lines
  | .done result, trace => Ended redactor execution dryRun result trace

variable {F : FloatFormat} {debug : List Char → List Char} {execution : ExecutionSnapshot}
  {dryRun : Bool}

theorem spawnProcess_executable {launch : Launch} {pid : Option ℕ}
    (h : spawnProcess F debug launch execution = .ok pid) : execution.executable.isSome := by
  unfold spawnProcess at h
  split at h
  · cases h
  · rename_i hexecutable
    rw [hexecutable]
    rfl

theorem prepareInputFile_error {launch : Launch} {result : ExecutionResult}
    (h : prepareInputFile F launch execution = .error result) :
    ∃ phase error, result = .failed phase error := by
  unfold prepareInputFile at h
  split at h
  · cases h
    exact ⟨_, _, rfl⟩
  split at h
  · cases h
    exact ⟨_, _, rfl⟩
  · cases h

theorem spawnProcess_error {launch : Launch} {result : ExecutionResult}
    (h : spawnProcess F debug launch execution = .error result) :
    ∃ phase error, result = .failed phase error := by
  unfold spawnProcess at h
  split at h
  · cases h
    exact ⟨_, _, rfl⟩
  split at h
  · cases h
    exact ⟨_, _, rfl⟩
  split at h
  · rename_i hfile
    cases h
    exact prepareInputFile_error hfile
  split at h
  · cases h
    exact ⟨_, _, rfl⟩
  split at h
  · cases h
    exact ⟨_, _, rfl⟩
  · cases h

theorem start_shows : Shows redactor .start [] :=
  ⟨fun stream => by cases stream <;> rfl, fun stream => by cases stream <;> exact Pipe.start_drains⟩

theorem executeProcess_traced (h : dryRun = false) (launch : Launch) :
    Traced redactor execution dryRun (executeProcess F debug execution launch).1
      (resolved redactor execution ++ (executeProcess F debug execution launch).2) := by
  unfold executeProcess
  split
  · rename_i hspawn
    obtain ⟨phase, error, rfl⟩ := spawnProcess_error hspawn
    rw [List.append_nil]
    exact .refused phase error
  · rename_i pid hspawn
    exact ⟨h, spawnProcess_executable hspawn, pid, [], start_shows, rfl⟩

theorem startWork_traced (launch : Launch) :
    Traced redactor execution dryRun (startWork F debug redactor execution dryRun launch).1
      (startWork F debug redactor execution dryRun launch).2 := by
  unfold startWork
  split
  · exact .unresolved _ _
  split
  · rename_i hdry
    split
    · exact .refused _ _
    · exact .dryRun _ hdry
  · rename_i hdry
    have hreal : dryRun = false := by simpa using hdry
    split
    · exact .noop hreal
    · exact executeProcess_traced hreal launch
    · exact executeProcess_traced hreal launch

theorem linesOf_append (stream : Stream) (lines more : List (Stream × List Char)) :
    linesOf stream (lines ++ more) = linesOf stream lines ++ linesOf stream more := by
  simp [linesOf]

theorem linesOf_tagged (stream other : Stream) (lines : List (List Char)) :
    linesOf stream (lines.map fun line => (other, line)) =
      if other = stream then lines else [] := by
  by_cases hsame : other = stream
  · rw [if_pos hsame]
    induction lines with
    | nil => rfl
    | cons line lines ih => simpa [linesOf, hsame] using ih
  · rw [if_neg hsame]
    simp [linesOf, hsame]

theorem Child.pipe_setPipe (c : Child) (stream other : Stream) (pipe : Pipe) :
    (c.setPipe stream pipe).pipe other = if stream = other then pipe else c.pipe other := by
  cases stream <;> cases other <;> rfl

theorem Shows.status {c : Child} {lines : List (Stream × List Char)} (h : Shows redactor c lines)
    (status : Option (WaitStatus × ℕ)) : Shows redactor { c with status := status } lines := by
  constructor
  · intro stream
    rw [h.lines]
    cases stream <;> rfl
  · intro stream
    cases stream with
    | stdout => exact h.drains .stdout
    | stderr => exact h.drains .stderr

theorem Shows.setPipe {c : Child} {lines : List (Stream × List Char)} (h : Shows redactor c lines)
    (stream : Stream) {pipe : Pipe} (hdrains : pipe.Drains redactor)
    (hadded : (c.pipe stream).reader.events ++ (c.pipe stream).added pipe = pipe.reader.events) :
    Shows redactor (c.setPipe stream pipe)
      (lines ++ ((c.pipe stream).added pipe).map fun line => (stream, line)) := by
  constructor
  · intro other
    rw [linesOf_append, linesOf_tagged, h.lines, Child.pipe_setPipe]
    by_cases hsame : stream = other
    · rw [if_pos hsame, if_pos hsame, ← hsame, hadded]
    · rw [if_neg hsame, if_neg hsame, List.append_nil]
  · intro other
    rw [Child.pipe_setPipe]
    by_cases hsame : stream = other
    · rw [if_pos hsame]
      exact hdrains
    · rw [if_neg hsame]
      exact h.drains other

theorem Shows.settle_traced {c : Child} {lines : List (Stream × List Char)}
    (hshows : Shows redactor c lines) (pid : Option ℕ) (h : dryRun = false)
    (hexecutable : execution.executable.isSome) :
    Traced redactor execution dryRun c.settle.1
      (launched redactor execution pid lines ++ c.settle.2) := by
  unfold Child.settle
  split
  · rename_i status durationMs _
    split
    · rename_i hclosed
      rw [Bool.and_eq_true] at hclosed
      refine .exited pid c lines status durationMs h hexecutable hshows fun stream => ?_
      cases stream with
      | stdout => exact hclosed.1
      | stderr => exact hclosed.2
    · rw [List.append_nil]
      exact ⟨h, hexecutable, pid, lines, hshows, rfl⟩
  · rw [List.append_nil]
    exact ⟨h, hexecutable, pid, lines, hshows, rfl⟩

theorem Child.drain_traced {c : Child} {pid : Option ℕ} {lines : List (Stream × List Char)}
    (h : dryRun = false) (hexecutable : execution.executable.isSome)
    (hshows : Shows redactor c lines) (stream : Stream) {pipe : Pipe}
    (hdrains : pipe.Drains redactor)
    (hadded : (c.pipe stream).reader.events ++ (c.pipe stream).added pipe = pipe.reader.events) :
    Traced redactor execution dryRun (c.drain stream pipe).1
      (launched redactor execution pid lines ++ (c.drain stream pipe).2) := by
  have hsettled := (hshows.setPipe stream hdrains hadded).settle_traced pid h hexecutable
  have htrace : launched redactor execution pid
      (lines ++ ((c.pipe stream).added pipe).map fun line => (stream, line)) =
      launched redactor execution pid lines ++
        ((c.pipe stream).added pipe).map (lineEvent stream) := by
    simp [launched, lineEvents]
  rw [htrace, List.append_assoc] at hsettled
  exact hsettled

/-- Every poll keeps the account of the trace. -/
theorem Work.step_traced {work : Work} {trace : List ExecutionEvent}
    (h : Traced redactor execution dryRun work trace) (step : WorkStep) :
    Traced redactor execution dryRun (work.step F debug redactor execution dryRun step).1
      (trace ++ (work.step F debug redactor execution dryRun step).2) := by
  have hidle : Traced redactor execution dryRun work (trace ++ []) := by
    rw [List.append_nil]
    exact h
  cases work with
  | waiting =>
    cases step with
    | start launch =>
      rw [h]
      exact startWork_traced launch
    | read | close | exit | fail => exact hidle
  | child c =>
    obtain ⟨hreal, hexecutable, pid, lines, hshows, rfl⟩ := h
    cases step with
    | start launch => exact hidle
    | read stream chunk =>
      exact Child.drain_traced hreal hexecutable hshows stream
        ((hshows.drains stream).read chunk) (Pipe.read_added _ chunk)
    | close stream =>
      exact Child.drain_traced hreal hexecutable hshows stream (hshows.drains stream).close
        (Pipe.close_added _)
    | exit status durationMs =>
      simp only [Work.step]
      split
      · exact (hshows.status (some (status, durationMs))).settle_traced pid hreal hexecutable
      · exact hidle
    | fail error =>
      rw [Work.step, List.append_nil]
      exact .broken pid c lines error hreal hexecutable hshows
  | done result =>
    cases step with
    | start | read | close | exit | fail => exact hidle

theorem Traced.abort {work : Work} {trace : List ExecutionEvent}
    (h : Traced redactor execution dryRun work trace) (hopen : ∀ result, work ≠ .done result)
    (error : List Char) :
    Ended redactor execution dryRun (.failed .execution error) trace := by
  cases work with
  | waiting =>
    rw [h]
    exact .unresolved .execution error
  | child c =>
    obtain ⟨hreal, hexecutable, pid, lines, hshows, rfl⟩ := h
    exact .broken pid c lines error hreal hexecutable hshows
  | done result => exact absurd rfl (hopen result)

theorem Ended.verdict {result : ExecutionResult} {trace : List ExecutionEvent}
    (h : Ended redactor execution dryRun result trace) :
    (result.succeeded = true ∧ result.error = none ∧ result.failurePhase = none) ∨
      (result.succeeded = false ∧ result.skipped = false ∧ result.error.isSome = true ∧
        result.failurePhase.isSome = true) := by
  cases h with
  | unresolved | refused | broken => exact .inr ⟨rfl, rfl, rfl, rfl⟩
  | dryRun | noop => exact .inl ⟨rfl, rfl, rfl⟩
  | exited pid c lines status =>
    by_cases hsuccess : status.success = true
    · simp [Child.exited, hsuccess]
    · simp [Child.exited, hsuccess]

theorem prefixWithin_spec (limit : ℕ) (text : List Char) :
    prefixWithin limit text <+: text ∧ size (prefixWithin limit text) ≤ limit := by
  induction text generalizing limit with
  | nil => exact ⟨List.prefix_refl [], Nat.zero_le limit⟩
  | cons c text ih =>
    rw [prefixWithin]
    by_cases hfits : c.utf8Size ≤ limit
    · obtain ⟨hbegins, hsize⟩ := ih (limit - c.utf8Size)
      rw [if_pos hfits]
      refine ⟨(List.prefix_cons_inj c).mpr hbegins, ?_⟩
      have hcons : size (c :: prefixWithin (limit - c.utf8Size) text) =
          c.utf8Size + size (prefixWithin (limit - c.utf8Size) text) := by simp [size]
      omega
    · rw [if_neg hfits]
      exact ⟨List.nil_prefix, Nat.zero_le limit⟩

theorem size_boundedCommandPrefix (line : List Char) :
    size (boundedCommandPrefix line) ≤ outputLimit := by
  unfold boundedCommandPrefix
  split
  · assumption
  · have hmarker : size truncationMarker = 20 := by decide
    have hsize := (prefixWithin_spec (outputLimit - size truncationMarker) line).2
    rw [size_append]
    simp only [hmarker, outputLimit] at hsize ⊢
    omega

theorem Pipe.Drains.tail {pipe : Pipe} (h : pipe.Drains redactor) (hclosed : pipe.closed = true) :
    ∃ chunks : List (List UInt8), pipe.reader.events = printedLines redactor chunks.flatten ∧
      pipe.reader.tail = suffixWithin outputLimit (printedText redactor chunks.flatten) := by
  obtain ⟨chunks, hreader⟩ := h
  rw [if_pos hclosed] at hreader
  rw [hreader]
  exact ⟨chunks, readOutput_spec redactor chunks⟩

theorem Ended.tails_bounded {result : ExecutionResult} {trace : List ExecutionEvent}
    (h : Ended redactor execution dryRun result trace) :
    size result.stdoutTail ≤ outputLimit ∧ size result.stderrTail ≤ outputLimit := by
  have hempty : size [] ≤ outputLimit := Nat.zero_le _
  cases h with
  | unresolved | refused | broken | noop => exact ⟨hempty, hempty⟩
  | dryRun command =>
    simp only [dryRunResult]
    exact ⟨size_boundedCommandPrefix (dryRunLine command), hempty⟩
  | exited pid c lines status durationMs _ _ hshows hclosed =>
    obtain ⟨out, _, hout⟩ := (hshows.drains .stdout).tail (hclosed .stdout)
    obtain ⟨err, _, herr⟩ := (hshows.drains .stderr).tail (hclosed .stderr)
    have htails : (c.exited status).stdoutTail = (c.pipe .stdout).reader.tail ∧
        (c.exited status).stderrTail = (c.pipe .stderr).reader.tail := ⟨rfl, rfl⟩
    rw [htails.1, htails.2, hout, herr]
    exact ⟨size_suffixWithin _ _, size_suffixWithin _ _⟩

end WorkerRunner
