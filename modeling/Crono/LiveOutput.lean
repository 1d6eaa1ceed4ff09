import Crono.AttemptOutputs
import Crono.ExecutionGrants
import Crono.ExecutionInputs
import Crono.InputStorage
import Crono.OutputStorage
import Crono.SequencedLog
import Crono.UuidText

/-! Live output over a lossy network. Each granted execution has an uploader that numbers its
snapshots; the network may delay, drop, repeat and reorder them, and the server takes one only
under the lease and above the sequence it holds. The timelines of uploaders and messages are ghost
observations. -/
namespace LiveOutput

open RunDomain SqlTable ControlPlaneSchema RunStore WorkflowStore ControlPlane
open WorkerOutput OutputStorage ExecutionInputs AttemptOutputs SequencedLog
open BoundaryCuts (size size_append size_cons)

/-- `ExecutionEvent`, as far as the live view reads it. -/
inductive TimelineEvent where
  | stdout (line : List Char)
  | stderr (line : List Char)
  | other
  deriving DecidableEq, Repr

/-- `u64::saturating_add(1)`. -/
def saturatingSucc (n : ℕ) : ℕ := min (n + 1) (2 ^ 64 - 1)

/-- `LiveOutput`. -/
structure Live where
  revision : ℕ
  tails : Tails

def Live.start : Live := ⟨0, [], []⟩

def Live.emit (live : Live) : TimelineEvent → Live
  | .stdout line => ⟨saturatingSucc live.revision, live.tails.emit (.stdout, line)⟩
  | .stderr line => ⟨saturatingSucc live.revision, live.tails.emit (.stderr, line)⟩
  | .other => live

/-- `upload_live_output` between two ticks, and the revision of the request it waits for. -/
structure Uploader where
  attemptId : Uuid
  workerId : String
  live : Live
  acknowledgedRevision : ℕ
  sequence : ℕ
  awaiting : Option ℕ
  timeline : List TimelineEvent

def Uploader.start (attemptId : Uuid) (workerId : String) : Uploader :=
  ⟨attemptId, workerId, .start, 0, 0, none, []⟩

def Uploader.emit (event : TimelineEvent) (u : Uploader) : Uploader :=
  { u with live := u.live.emit event, timeline := u.timeline ++ [event] }

structure OutputMessage where
  subject : String
  request : OutputSnapshotRequest
  timeline : List TimelineEvent
  deriving DecidableEq

def outputSubject (workerId : String) : String := "crono.worker.output." ++ workerId

/-- The request that the next tick sends. -/
def Uploader.message (u : Uploader) : OutputMessage where
  subject := outputSubject u.workerId
  request := snapshot u.attemptId u.workerId (saturatingSucc u.sequence) u.live.tails
  timeline := u.timeline

/-- The loop is not waiting for an answer, and the output has changed. -/
def Uploader.due (u : Uploader) : Bool :=
  u.awaiting.isNone && u.live.revision ≠ u.acknowledgedRevision

def Uploader.tick (u : Uploader) : Uploader :=
  if u.due then
    { u with sequence := saturatingSucc u.sequence, awaiting := some u.live.revision }
  else u

/-- The answer `true`, or any other end of the wait. -/
def Uploader.answered (accepted : Bool) (u : Uploader) : Uploader :=
  { u with
    awaiting := none
    acknowledgedRevision :=
      if accepted then u.awaiting.getD u.acknowledgedRevision else u.acknowledgedRevision }

def maxLiveTailBytes : ℕ := 16384

/-- `MAX_OUTPUT_REQUEST_BYTES`. -/
def maxOutputRequestBytes : ℕ := 262144

/-- The object `serde_json::to_vec` writes for a request. -/
def requestValue (request : OutputSnapshotRequest) : Value :=
  .object [("attempt_id", .string (String.ofList (UuidText.hyphenated request.attemptId))),
    ("worker_id", .string request.workerId), ("sequence", .number (.posInt request.sequence)),
    ("stdout_tail", .string request.stdoutTail), ("stderr_tail", .string request.stderrTail)]

/-- `subject.split('.').nth(k)`, the empty text where there is no such token. -/
def subjectToken (k : ℕ) (subject : String) : String :=
  String.ofList ((subject.toList.splitOn '.').getD k [])

def subjectWorker (subject : String) : String := subjectToken 3 subject

inductive OutputError where
  | tooLarge
  | invalid
  | store (e : StoreError)
  deriving DecidableEq, Repr

def validateOutput (request : OutputSnapshotRequest) (worker : String) : Except OutputError Unit :=
  if request.workerId ≠ worker ∨ validateResourceName request.workerId = false ∨
      request.sequence = 0 ∨ maxLiveTailBytes < size request.stdoutTail.toList ∨
      maxLiveTailBytes < size request.stderrTail.toList then .error .invalid
  else .ok ()

/-- `handle_output` on a message that has a reply subject. -/
def handleOutput (F : FloatFormat) (m : OutputMessage) (now : Instant) (s : Store) :
    Except OutputError Bool × Store :=
  if maxOutputRequestBytes < encodedLength F (requestValue m.request) then (.error .tooLarge, s)
  else
    match validateOutput m.request (subjectWorker m.subject) with
    | .error e => (.error e, s)
    | .ok () =>
      match storeSnapshot m.request now s with
      | (.ok written, t) => (.ok written, t)
      | (.error e, t) => (.error (.store e), t)

/-- The control plane, the uploaders, every message sent so far and those answered `true`, in the
order of the answers. -/
structure Network where
  control : ControlPlane.State
  uploaders : List Uploader
  sent : List OutputMessage
  accepted : List OutputMessage

inductive Event where
  | control (c : Command)
  | claim (request : ClaimRequest) (answered : Bool) (now : Instant)
  | emit (attemptId : Uuid) (event : TimelineEvent)
  | tick (attemptId : Uuid)
  | answer (attemptId : Uuid) (accepted : Bool)
  | stop (attemptId : Uuid)
  | deliver (m : OutputMessage) (now : Instant)

variable (F : FloatFormat)

def Network.controlAfter (net : Network) : Event → ControlPlane.State
  | .control c => ControlPlane.next net.control c
  | .claim request _ now => ControlPlane.next net.control (.claimAttempt request now)
  | .deliver m now => { net.control with store := (handleOutput F m now net.control.store).2 }
  | .emit _ _ | .tick _ | .answer _ _ | .stop _ => net.control

/-- A claim that was granted and answered starts an execution with its uploader. -/
def Network.uploadersAfter (net : Network) : Event → List Uploader
  | .claim request answered now =>
    if answered && (grantedBy net.control (.claimAttempt request now)).length = 1 then
      .start request.attemptId request.workerId :: net.uploaders
    else net.uploaders
  | .emit attemptId event => update (fun u => u.attemptId = attemptId) (.emit event) net.uploaders
  | .tick attemptId => update (fun u => u.attemptId = attemptId) .tick net.uploaders
  | .answer attemptId accepted =>
    update (fun u => u.attemptId = attemptId) (.answered accepted) net.uploaders
  | .stop attemptId => net.uploaders.filter fun u => u.attemptId ≠ attemptId
  | .control _ | .deliver _ _ => net.uploaders

def Network.sentAfter (net : Network) : Event → List OutputMessage
  | .tick attemptId => net.sent ++
    (net.uploaders.filter fun u => u.attemptId = attemptId && u.due).map Uploader.message
  | _ => net.sent

def Network.acceptedAfter (net : Network) : Event → List OutputMessage
  | .deliver m now =>
    if (handleOutput F m now net.control.store).1 = .ok true then net.accepted ++ [m]
    else net.accepted
  | _ => net.accepted

def next (net : Network) (e : Event) : Network where
  control := net.controlAfter F e
  uploaders := net.uploadersAfter e
  sent := net.sentAfter e
  accepted := net.acceptedAfter F e

/-- The commands that reach the store only through a claim or a message. -/
def relayed : Command → Bool
  | .claimAttempt _ _ | .recordAttemptOutput _ _ => true
  | _ => false

/-- `execute` starts a worker only under a resource name; a worker hears `true` only of the request
it waits for. -/
def Enabled (net : Network) : Event → Prop
  | .control c => relayed c = false ∧ ControlPlane.Enabled net.control c
  | .claim request _ _ => validateResourceName request.workerId = true
  | .answer attemptId true => ∃ u ∈ net.uploaders, u.attemptId = attemptId ∧
      ∃ m ∈ net.accepted, m.request.attemptId = attemptId ∧ m.request.sequence = u.sequence
  | .deliver m _ => m ∈ net.sent
  | .answer _ false | .emit _ _ | .tick _ | .stop _ => True

def initial (net : Network) : Prop :=
  ControlPlane.initial net.control ∧ net.uploaders = [] ∧ net.sent = [] ∧ net.accepted = []

def system : TransitionSystem Network Event where
  initial := initial
  Enabled := Enabled
  next := next F

theorem next_control (net : Network) (e : Event) :
    ((system F).next net e).control = net.controlAfter F e := rfl

theorem next_accepted (net : Network) (e : Event) :
    ((system F).next net e).accepted = net.acceptedAfter F e := rfl

theorem utf8ByteSize_eq (text : String) : text.utf8ByteSize = size text.toList := by
  have h (cs : List Char) : (String.ofList cs).utf8ByteSize = size cs := by
    induction cs using List.reverseRecOn with
    | nil => rfl
    | append_singleton cs c ih =>
      rw [String.ofList_append, String.utf8ByteSize_append, ih, size_append]
      simp [size]
  rw [← h, String.ofList_toList]

theorem size_le_length (text : List Char) : size text ≤ 4 * text.length := by
  induction text with
  | nil => exact Nat.le_refl 0
  | cons c text ih =>
    have hc := c.utf8Size_le_four
    rw [size_cons, List.length_cons]
    omega

theorem escapedSize_le (c : Char) : escapedSize c ≤ 6 * c.utf8Size := by
  have hpos := c.utf8Size_pos
  unfold escapedSize
  split
  · omega
  split
  · omega
  · omega

theorem stringLength_le (text : String) : stringLength text ≤ 2 + 6 * size text.toList := by
  have hsum (cs : List Char) : (cs.map escapedSize).sum ≤ 6 * size cs := by
    induction cs with
    | nil => exact Nat.le_refl 0
    | cons c cs ih =>
      have hc := escapedSize_le c
      rw [List.map_cons, List.sum_cons, size_cons]
      omega
  have htext := hsum text.toList
  rw [stringLength]
  omega

structure Bounded (request : OutputSnapshotRequest) : Prop where
  worker : validateResourceName request.workerId = true
  positive : 0 < request.sequence
  sequence : request.sequence < 2 ^ 64
  stdout : size request.stdoutTail.toList ≤ maxLiveTailBytes
  stderr : size request.stderrTail.toList ≤ maxLiveTailBytes

theorem validateResourceName_size {name : String} (h : validateResourceName name = true) :
    size name.toList ≤ 63 := by
  simp only [validateResourceName, Bool.and_eq_true, decide_eq_true_eq] at h
  rw [← utf8ByteSize_eq]
  exact h.1.1.1

theorem Bounded.encodedLength_le {request : OutputSnapshotRequest} (h : Bounded request) :
    encodedLength F (requestValue request) ≤ maxOutputRequestBytes := by
  have hid := (stringLength_le (String.ofList (UuidText.hyphenated request.attemptId))).trans
    (Nat.add_le_add_left (Nat.mul_le_mul_left 6 (size_le_length _)) 2)
  rw [String.toList_ofList, UuidText.hyphenated_length] at hid
  have hworker := stringLength_le request.workerId
  have hname := validateResourceName_size h.worker
  have hsequence : (Nat.toDigits 10 request.sequence).length ≤ 20 :=
    (Nat.length_toDigits_le_iff (by decide) (by decide)).mpr
      (h.sequence.trans_le (by decide))
  have hstdout := stringLength_le request.stdoutTail
  have hstderr := stringLength_le request.stderrTail
  have hout := h.stdout
  have herr := h.stderr
  have hkeys : stringLength "attempt_id" = 12 ∧ stringLength "worker_id" = 11 ∧
      stringLength "sequence" = 10 ∧ stringLength "stdout_tail" = 13 ∧
      stringLength "stderr_tail" = 13 := by decide
  simp only [requestValue, encodedLength, fieldsLength, commaLength, numberText, hkeys,
    List.isEmpty_cons, List.isEmpty_nil, Bool.false_eq_true, if_false, if_true]
  unfold maxLiveTailBytes at hout herr
  unfold maxOutputRequestBytes
  omega

theorem name_character_ne_dot {c : Char} (h : isNameCharacter c = true) : c ≠ '.' := by
  rintro rfl
  exact absurd h (by decide)

theorem name_no_dot {name : String} (h : validateResourceName name = true) :
    ∀ c ∈ name.toList, c ≠ '.' := by
  simp only [validateResourceName, Bool.and_eq_true, List.all_eq_true] at h
  obtain ⟨⟨⟨_, hfirst⟩, hrest⟩, _⟩ := h
  intro c hc
  cases htext : name.toList with
  | nil =>
    rw [htext] at hc
    cases hc
  | cons first rest =>
    rw [htext] at hc hfirst hrest
    rcases List.mem_cons.mp hc with rfl | hc
    · exact name_character_ne_dot (by simpa [isNameCharacter] using Or.inl hfirst)
    · exact name_character_ne_dot (hrest c hc)

theorem outputSubject_toList (name : String) : (outputSubject name).toList =
    "crono.worker.output".toList ++ '.' :: name.toList := by
  have hdot : "crono.worker.output.".toList = "crono.worker.output".toList ++ ['.'] := by decide
  unfold outputSubject
  rw [String.toList_append, hdot, List.append_assoc, List.singleton_append]

theorem subjectWorker_outputSubject {name : String} (h : validateResourceName name = true) :
    subjectWorker (outputSubject name) = name := by
  have hsplit : ("crono.worker.output".toList ++ '.' :: name.toList).splitOn '.' =
      "crono.worker.output".toList.splitOn '.' ++ name.toList.splitOn '.' :=
    List.splitOnP_append_cons _ _ (by simp)
  have hname : name.toList.splitOn '.' = [name.toList] :=
    List.splitOnP_eq_singleton fun c hc => by simpa using name_no_dot h c hc
  have hwords : "crono.worker.output".toList.splitOn '.' =
      ["crono".toList, "worker".toList, "output".toList] := by decide +kernel
  rw [subjectWorker, subjectToken, outputSubject_toList, hsplit, hname, hwords]
  exact String.ofList_toList

theorem Bounded.validateOutput {request : OutputSnapshotRequest} (h : Bounded request) :
    validateOutput request (subjectWorker (outputSubject request.workerId)) = .ok () := by
  rw [LiveOutput.validateOutput, subjectWorker_outputSubject h.worker, if_neg]
  rintro (hworker | hname | hzero | hout | herr)
  · exact hworker rfl
  · rw [h.worker] at hname; cases hname
  · exact absurd hzero h.positive.ne'
  · exact absurd h.stdout (Nat.not_le.mpr hout)
  · exact absurd h.stderr (Nat.not_le.mpr herr)

theorem storeSnapshot_cases (request : OutputSnapshotRequest) (now : Instant) (s : Store) :
    storeSnapshot request now s = recordAttemptOutput request now s ∨
      ∃ e, storeSnapshot request now s = (.error e, s) := by
  unfold storeSnapshot
  split
  · exact .inr ⟨_, rfl⟩
  split
  · exact .inr ⟨_, rfl⟩
  rcases recordAttemptOutput request now s with ⟨_ | written, t⟩
  · exact .inl rfl
  · cases written with
    | false => exact .inl rfl
    | true =>
      simp only
      split
      · exact .inl rfl
      · exact .inr ⟨_, rfl⟩

theorem handleOutput_cases (m : OutputMessage) (now : Instant) (s : Store) :
    ((handleOutput F m now s).2 = (recordAttemptOutput m.request now s).2 ∧
      ((handleOutput F m now s).1 = .ok true ↔
        (recordAttemptOutput m.request now s).1 = .ok true)) ∨
    ((handleOutput F m now s).2 = s ∧ (handleOutput F m now s).1 ≠ .ok true) := by
  unfold handleOutput
  split
  · exact .inr ⟨rfl, nofun⟩
  split
  · exact .inr ⟨rfl, nofun⟩
  rcases storeSnapshot_cases m.request now s with hsame | ⟨e, herror⟩
  · rw [hsame]
    rcases recordAttemptOutput m.request now s with ⟨e | written, t⟩
    · exact .inl ⟨rfl, by simp⟩
    · exact .inl ⟨rfl, by simp⟩
  · rw [herror]
    exact .inr ⟨rfl, nofun⟩

theorem next_recordAttemptOutput (s : ControlPlane.State) (request : OutputSnapshotRequest)
    (now : Instant) : ControlPlane.next s (.recordAttemptOutput request now) =
      { s with store := (recordAttemptOutput request now s.store).2 } := by
  simp [ControlPlane.next, transact, issuedBy, passesAfter, grantedBy, completedBy]

theorem deliver_control (net : Network) (m : OutputMessage) (now : Instant) :
    net.controlAfter F (.deliver m now) = net.control ∨
      net.controlAfter F (.deliver m now) =
        ControlPlane.next net.control (.recordAttemptOutput m.request now) := by
  rcases handleOutput_cases F m now net.control.store with ⟨hwritten, _⟩ | ⟨hkept, _⟩
  · right
    rw [next_recordAttemptOutput, ← hwritten]
    rfl
  · left
    simp only [Network.controlAfter, hkept]

theorem control_execution {net net' : Network} {e : Event} (h : (system F).Step net e net') :
    ControlPlane.Execution net.control net'.control := by
  obtain ⟨henabled, rfl⟩ := h
  cases e with
  | control c => exact .single ⟨henabled.2, rfl⟩
  | claim request answered now => exact .single (e := .claimAttempt request now) ⟨trivial, rfl⟩
  | emit => exact .refl _
  | tick => exact .refl _
  | answer => exact .refl _
  | stop => exact .refl _
  | deliver m now =>
    change ControlPlane.Execution net.control (net.controlAfter F (.deliver m now))
    rcases deliver_control F net m now with hkept | hwritten
    · rw [hkept]
      exact .refl _
    · exact .single (e := .recordAttemptOutput m.request now) ⟨trivial, hwritten⟩

def projection : TransitionSystem.Projection (system F) ControlPlane.system where
  map := Network.control
  initial := fun _ h => h.1
  step := fun _ _ _ => control_execution F

/-- The lines of a timeline. -/
def linesShown (timeline : List TimelineEvent) : List (WorkerOutput.Stream × List Char) :=
  timeline.filterMap fun
    | .stdout line => some (.stdout, line)
    | .stderr line => some (.stderr, line)
    | .other => none

theorem liveTails_bounded (events : List (WorkerOutput.Stream × List Char)) :
    size (liveTails events).stdout ≤ maxLiveTailBytes ∧
      size (liveTails events).stderr ≤ maxLiveTailBytes := by
  obtain ⟨hout, herr⟩ := liveTails_eq events
  rw [hout, herr]
  exact ⟨size_suffixWithin _ _, size_suffixWithin _ _⟩

theorem emit_tails {live : Live} {timeline : List TimelineEvent}
    (h : live.tails = liveTails (linesShown timeline)) (event : TimelineEvent) :
    (live.emit event).tails = liveTails (linesShown (timeline ++ [event])) := by
  cases event with
  | stdout line =>
    have hlines : linesShown (timeline ++ [.stdout line]) =
        linesShown timeline ++ [(.stdout, line)] := by simp [linesShown]
    rw [hlines, liveTails_append, Live.emit, h]
  | stderr line =>
    have hlines : linesShown (timeline ++ [.stderr line]) =
        linesShown timeline ++ [(.stderr, line)] := by simp [linesShown]
    rw [hlines, liveTails_append, Live.emit, h]
  | other =>
    have hlines : linesShown (timeline ++ [.other]) = linesShown timeline := by simp [linesShown]
    rw [hlines, Live.emit, h]

theorem saturatingSucc_bounds {n : ℕ} (h : n < 2 ^ 64) :
    n ≤ saturatingSucc n ∧ 0 < saturatingSucc n ∧ saturatingSucc n < 2 ^ 64 := by
  unfold saturatingSucc
  omega

structure Built (m : OutputMessage) : Prop where
  bounded : Bounded m.request
  subject : m.subject = outputSubject m.request.workerId
  stdout : m.request.stdoutTail = String.ofList (liveTails (linesShown m.timeline)).stdout
  stderr : m.request.stderrTail = String.ofList (liveTails (linesShown m.timeline)).stderr

structure Uploads (u : Uploader) : Prop where
  named : validateResourceName u.workerId = true
  counted : u.sequence < 2 ^ 64
  shown : u.live.tails = liveTails (linesShown u.timeline)

/-- `m` was not built after `u` is. -/
def Precedes (m : OutputMessage) (u : Uploader) : Prop :=
  m.request.attemptId = u.attemptId → m.request.sequence ≤ u.sequence ∧ m.timeline <+: u.timeline

structure Ordered (net : Network) : Prop where
  uploaders : ∀ u ∈ net.uploaders, Uploads u
  started : ∀ u ∈ net.uploaders, u.attemptId ∈ net.control.grants.map Grant.attemptId
  distinct : (net.uploaders.map Uploader.attemptId).Nodup
  built : ∀ m ∈ net.sent, Built m
  granted : ∀ m ∈ net.sent, m.request.attemptId ∈ net.control.grants.map Grant.attemptId
  earlier : ∀ u ∈ net.uploaders, ∀ m ∈ net.sent, Precedes m u
  numbered : ∀ m ∈ net.sent, ∀ m' ∈ net.sent, m.request.attemptId = m'.request.attemptId →
    m.request.sequence < m'.request.sequence → m.timeline <+: m'.timeline
  accepted : ∀ m ∈ net.accepted, m ∈ net.sent

theorem Uploads.message {u : Uploader} (h : Uploads u) : Built u.message := by
  have hbounds := saturatingSucc_bounds h.counted
  have hsizes := liveTails_bounded (linesShown u.timeline)
  rw [← h.shown] at hsizes
  constructor
  · exact ⟨h.named, hbounds.2.1, hbounds.2.2, by simpa [Uploader.message, snapshot] using hsizes.1,
      by simpa [Uploader.message, snapshot] using hsizes.2⟩
  · rfl
  · rw [Uploader.message, ← h.shown]
    rfl
  · rw [Uploader.message, ← h.shown]
    rfl

theorem grants_kept (net : Network) (e : Event) {attemptId : Uuid}
    (h : attemptId ∈ net.control.grants.map Grant.attemptId) :
    attemptId ∈ (net.controlAfter F e).grants.map Grant.attemptId := by
  have hnext (c : Command) :
      attemptId ∈ (ControlPlane.next net.control c).grants.map Grant.attemptId := by
    rw [ControlPlane.next, List.map_append]
    exact List.mem_append_left _ h
  cases e with
  | control c => exact hnext c
  | claim request answered now => exact hnext (.claimAttempt request now)
  | emit => exact h
  | tick => exact h
  | answer => exact h
  | stop => exact h
  | deliver m now =>
    have hgrants : (net.controlAfter F (.deliver m now)).grants = net.control.grants := by
      simp only [Network.controlAfter]
    rw [hgrants]
    exact h

theorem grantedBy_claim {s : ControlPlane.State} {request : ClaimRequest} {now : Instant}
    (h : (grantedBy s (.claimAttempt request now)).length = 1) :
    grantedBy s (.claimAttempt request now) =
      [⟨request.runId, request.attemptId, request.workerId⟩] := by
  unfold grantedBy at h ⊢
  simp only at h ⊢
  split
  · rfl
  · rename_i hnot
    split at h
    · rename_i hgranted
      exact absurd hgranted (hnot _ _)
    · cases h

/-- An event that moves uploaders one by one and sends nothing. -/
theorem Ordered.update {net : Network} (h : Ordered net) (attemptId : Uuid)
    {f : Uploader → Uploader} (hid : ∀ u, (f u).attemptId = u.attemptId)
    (huploads : ∀ u, Uploads u → Uploads (f u))
    (hmoves : ∀ u, Uploads u → u.sequence ≤ (f u).sequence ∧ u.timeline <+: (f u).timeline) :
    Ordered { net with
      uploaders := SqlTable.update (fun u => u.attemptId = attemptId) f net.uploaders } := by
  have horigin {u' : Uploader} (hu : u' ∈ SqlTable.update
      (fun u => u.attemptId = attemptId) f net.uploaders) :
      ∃ u ∈ net.uploaders, u'.attemptId = u.attemptId ∧ (Uploads u → Uploads u') ∧
        u.sequence ≤ u'.sequence ∧ u.timeline <+: u'.timeline := by
    rcases update_cases hu with ⟨hmem, _⟩ | ⟨u, hmem, _, rfl⟩
    · exact ⟨u', hmem, rfl, id, le_rfl, List.prefix_refl _⟩
    · exact ⟨u, hmem, hid u, huploads u, hmoves u (h.uploaders u hmem)⟩
  refine { h with uploaders := ?_, started := ?_, distinct := ?_, earlier := ?_ }
  · intro u' hu
    obtain ⟨u, hmem, _, hkeeps, _⟩ := horigin hu
    exact hkeeps (h.uploaders u hmem)
  · intro u' hu
    obtain ⟨u, hmem, heq, _⟩ := horigin hu
    rw [heq]
    exact h.started u hmem
  · rw [map_update fun u _ _ => hid u]
    exact h.distinct
  · intro u' hu m hm hsame
    obtain ⟨u, hmem, heq, _, hsequence, htimeline⟩ := horigin hu
    obtain ⟨hle, hprefix⟩ := h.earlier u hmem m hm (hsame.trans heq)
    exact ⟨hle.trans hsequence, hprefix.trans htimeline⟩

theorem Ordered.start {net : Network} (h : Ordered net) {request : ClaimRequest}
    (hname : validateResourceName request.workerId = true)
    (hgranted : request.attemptId ∈ net.control.grants.map Grant.attemptId)
    (hfresh : (∀ u ∈ net.uploaders, u.attemptId ≠ request.attemptId) ∧
      ∀ m ∈ net.sent, m.request.attemptId ≠ request.attemptId) :
    Ordered { net with
      uploaders := .start request.attemptId request.workerId :: net.uploaders } := by
  refine { h with uploaders := ?_, started := ?_, distinct := ?_, earlier := ?_ }
  · intro u hu
    rcases List.mem_cons.mp hu with rfl | hu
    · exact ⟨hname, Nat.two_pow_pos 64, rfl⟩
    · exact h.uploaders u hu
  · intro u hu
    rcases List.mem_cons.mp hu with rfl | hu
    · exact hgranted
    · exact h.started u hu
  · rw [List.map_cons, List.nodup_cons]
    refine ⟨?_, h.distinct⟩
    intro hmem
    obtain ⟨u, hu, heq⟩ := List.mem_map.mp hmem
    exact hfresh.1 u hu heq
  · intro u hu m hm hsame
    rcases List.mem_cons.mp hu with rfl | hu
    · exact absurd hsame (hfresh.2 m hm)
    · exact h.earlier u hu m hm hsame

theorem Ordered.control {net : Network} (h : Ordered net) {control : ControlPlane.State}
    (hgrants : ∀ attemptId, attemptId ∈ net.control.grants.map Grant.attemptId →
      attemptId ∈ control.grants.map Grant.attemptId) : Ordered { net with control := control } :=
  { h with
    started := fun u hu => hgrants _ (h.started u hu)
    granted := fun m hm => hgrants _ (h.granted m hm) }

/-- A tick numbers the new snapshot above every earlier one of its Attempt. -/
theorem Ordered.tick {net : Network} (h : Ordered net) (attemptId : Uuid) :
    Ordered { net with
      uploaders := net.uploadersAfter (.tick attemptId)
      sent := net.sentAfter (.tick attemptId) } := by
  have hticked := h.update attemptId (f := Uploader.tick)
    (fun u => by unfold Uploader.tick; split <;> rfl)
    (fun u hu => by
      unfold Uploader.tick
      split
      · exact ⟨hu.named, (saturatingSucc_bounds hu.counted).2.2, hu.shown⟩
      · exact hu)
    (fun u hu => by
      unfold Uploader.tick
      split
      · exact ⟨(saturatingSucc_bounds hu.counted).1, List.prefix_refl _⟩
      · exact ⟨le_rfl, List.prefix_refl _⟩)
  have hsent {m : OutputMessage} (hm : m ∈ net.sentAfter (.tick attemptId)) : m ∈ net.sent ∨
      ∃ v ∈ net.uploaders, v.attemptId = attemptId ∧ v.due = true ∧ m = v.message := by
    rcases List.mem_append.mp hm with hm | hm
    · exact .inl hm
    · obtain ⟨v, hv, rfl⟩ := List.mem_map.mp hm
      simp only [List.mem_filter, Bool.and_eq_true, decide_eq_true_eq] at hv
      exact .inr ⟨v, hv.1, hv.2.1, hv.2.2, rfl⟩
  have hsame {u v : Uploader} (hu : u ∈ net.uploaders) (hv : v ∈ net.uploaders)
      (heq : u.attemptId = v.attemptId) : u = v := row_unique h.distinct hu hv heq
  have hnumber {v : Uploader} (hv : v ∈ net.uploaders) :
      v.sequence ≤ v.message.request.sequence :=
    (saturatingSucc_bounds (h.uploaders v hv).counted).1
  refine { hticked with built := ?_, granted := ?_, earlier := ?_, numbered := ?_, accepted := ?_ }
  · intro m hm
    rcases hsent hm with hm | ⟨v, hv, _, _, rfl⟩
    · exact h.built m hm
    · exact (h.uploaders v hv).message
  · intro m hm
    rcases hsent hm with hm | ⟨v, hv, _, _, rfl⟩
    · exact h.granted m hm
    · exact h.started v hv
  · intro u' hu m hm hattempt
    rcases hsent hm with hm | ⟨v, hv, hid, hdue, rfl⟩
    · exact hticked.earlier u' hu m hm hattempt
    -- the new message is the one of this uploader, which has counted it
    · rcases update_cases hu with ⟨hmem, hother⟩ | ⟨u, hmem, _, rfl⟩
      · have heq := hsame hmem hv hattempt.symm
        rw [heq, decide_eq_false_iff_not] at hother
        exact absurd hid hother
      · have htick : u.tick.attemptId = u.attemptId := by
          unfold Uploader.tick
          split <;> rfl
        have heq := hsame hmem hv (htick.symm.trans hattempt.symm)
        rw [heq, Uploader.tick, if_pos hdue]
        exact ⟨le_rfl, List.prefix_refl _⟩
  · intro m hm m' hm' hattempt hlt
    rcases hsent hm with hm | ⟨v, hv, hid, _, rfl⟩
    · rcases hsent hm' with hm' | ⟨v', hv', _, _, rfl⟩
      · exact h.numbered m hm m' hm' hattempt hlt
      · exact (h.earlier v' hv' m hm hattempt).2
    · rcases hsent hm' with hm' | ⟨v', hv', hid', _, rfl⟩
      · have hle := (h.earlier v hv m' hm' hattempt.symm).1.trans (hnumber hv)
        exact absurd hlt (Nat.not_lt.mpr hle)
      · obtain rfl := hsame hv hv' (hid.trans hid'.symm)
        exact List.prefix_refl _
  · exact fun m hm => List.mem_append_left _ (h.accepted m hm)

theorem Ordered.stop {net : Network} (h : Ordered net) (attemptId : Uuid) :
    Ordered { net with uploaders := net.uploadersAfter (.stop attemptId) } := by
  have hmem {u : Uploader} (hu : u ∈ net.uploadersAfter (.stop attemptId)) : u ∈ net.uploaders :=
    List.mem_of_mem_filter hu
  refine { h with uploaders := ?_, started := ?_, distinct := ?_, earlier := ?_ }
  · exact fun u hu => h.uploaders u (hmem hu)
  · exact fun u hu => h.started u (hmem hu)
  · exact h.distinct.sublist (List.filter_sublist.map _)
  · exact fun u hu => h.earlier u (hmem hu)

theorem Ordered.claim {net : Network} (h : Ordered net) {request : ClaimRequest}
    {answered : Bool} {now : Instant}
    (hlog : ExecutionGrants.GrantLog (net.controlAfter F (.claim request answered now)))
    (hname : validateResourceName request.workerId = true) :
    Ordered (next F net (.claim request answered now)) := by
  have hcontrol :
      Ordered { net with control := net.controlAfter F (.claim request answered now) } :=
    h.control fun _ => grants_kept F net _
  by_cases hstarts : (answered &&
      (grantedBy net.control (.claimAttempt request now)).length = 1) = true
  · have hgranted := grantedBy_claim (by simpa using (Bool.and_eq_true_iff.mp hstarts).2)
    have hgrants : (net.controlAfter F (.claim request answered now)).grants =
        net.control.grants ++ [⟨request.runId, request.attemptId, request.workerId⟩] := by
      rw [← hgranted]
      rfl
    have hnew := hlog.distinct
    rw [hgrants, List.map_append, List.nodup_append] at hnew
    have hfresh (attemptId : Uuid) (hold : attemptId ∈ net.control.grants.map Grant.attemptId) :
        attemptId ≠ request.attemptId :=
      hnew.2.2 attemptId hold request.attemptId (List.mem_singleton_self _)
    have hstarted := hcontrol.start hname (by rw [hgrants]; simp)
      ⟨fun u hu => hfresh _ (h.started u hu), fun m hm => hfresh _ (h.granted m hm)⟩
    have hnext : next F net (.claim request answered now) =
        { net with
          control := net.controlAfter F (.claim request answered now)
          uploaders := .start request.attemptId request.workerId :: net.uploaders } := by
      simp only [next, Network.uploadersAfter, if_pos hstarts]
      rfl
    rw [hnext]
    exact hstarted
  · have hnext : next F net (.claim request answered now) =
        { net with control := net.controlAfter F (.claim request answered now) } := by
      simp only [next, Network.uploadersAfter, if_neg hstarts]
      rfl
    rw [hnext]
    exact hcontrol

theorem Ordered.accept {net : Network} (h : Ordered net) {accepted : List OutputMessage}
    (haccepted : ∀ m ∈ accepted, m ∈ net.sent) : Ordered { net with accepted := accepted } :=
  { h with accepted := haccepted }

theorem mem_acceptedAfter {net : Network} {m m' : OutputMessage} {now : Instant}
    (hm : m ∈ net.sent) (haccepted : ∀ m ∈ net.accepted, m ∈ net.sent)
    (h : m' ∈ net.acceptedAfter F (.deliver m now)) : m' ∈ net.sent := by
  unfold Network.acceptedAfter at h
  simp only at h
  split at h
  · rcases List.mem_append.mp h with h | h
    · exact haccepted m' h
    · rw [List.mem_singleton.mp h]
      exact hm
  · exact haccepted m' h

theorem Uploads.emit {u : Uploader} (h : Uploads u) (event : TimelineEvent) :
    Uploads (u.emit event) := by
  have hsequence : (u.emit event).sequence = u.sequence := rfl
  exact ⟨h.named, hsequence ▸ h.counted, emit_tails h.shown event⟩

theorem Uploads.answered {u : Uploader} (h : Uploads u) (accepted : Bool) :
    Uploads (u.answered accepted) := by
  have hsequence : (u.answered accepted).sequence = u.sequence := rfl
  exact ⟨h.named, hsequence ▸ h.counted, h.shown⟩

theorem Ordered.step {net net' : Network} {e : Event} (h : Ordered net)
    (hlog : ExecutionGrants.GrantLog net'.control) (hstep : (system F).Step net e net') :
    Ordered net' := by
  obtain ⟨henabled, rfl⟩ := hstep
  cases e with
  | control c => exact h.control fun _ => grants_kept F net (.control c)
  | claim request answered now => exact h.claim F hlog henabled
  | emit attemptId event =>
    have hmoved := h.update attemptId (f := Uploader.emit event) (fun _ => rfl)
      (fun u hu => hu.emit event) fun u _ => ⟨Nat.le_refl u.sequence, List.prefix_append _ _⟩
    exact hmoved
  | tick attemptId => exact h.tick attemptId
  | answer attemptId accepted =>
    have hmoved := h.update attemptId (f := Uploader.answered accepted) (fun _ => rfl)
      (fun u hu => hu.answered accepted) fun u _ => ⟨Nat.le_refl u.sequence, List.prefix_refl _⟩
    exact hmoved
  | stop attemptId => exact h.stop attemptId
  | deliver m now =>
    have hcontrol : Ordered { net with control := net.controlAfter F (.deliver m now) } :=
      h.control fun _ => grants_kept F net (.deliver m now)
    exact hcontrol.accept fun m' => mem_acceptedAfter F henabled h.accepted

def OutputMessage.attempt (m : OutputMessage) : Uuid := m.request.attemptId

def OutputMessage.number (m : OutputMessage) : ℕ := m.request.sequence

/-- The newest accepted snapshot of an Attempt. -/
def shownBy (accepted : List OutputMessage) (attemptId : Uuid) : Option OutputMessage :=
  newest OutputMessage.attempt accepted attemptId

/-- The output columns hold the newest accepted snapshot, the tails until the Attempt ends. -/
structure Recorded (s : Store) (accepted : List OutputMessage) : Prop where
  known : ∀ m ∈ accepted, ∃ a ∈ s.runAttempts, a.id = m.attempt
  increasing : Increasing OutputMessage.attempt OutputMessage.number accepted
  sequence : ∀ a ∈ s.runAttempts,
    a.outputSequence = ((shownBy accepted a.id).map OutputMessage.number).getD 0
  tails : ∀ a ∈ s.runAttempts, a.status.isTerminal = false →
    a.stdoutTail = (shownBy accepted a.id).map (fun m => m.request.stdoutTail) ∧
      a.stderrTail = (shownBy accepted a.id).map fun m => m.request.stderrTail

theorem Recorded.transact {s : ControlPlane.State} (hs : ControlPlane.Reachable s) {c : Command}
    (hc : ControlPlane.Enabled s c) (hother : ∀ request now, c ≠ .recordAttemptOutput request now)
    {accepted : List OutputMessage} (h : Recorded s.store accepted) :
    Recorded (transact s c) accepted := by
  have ht : ControlPlane.Reachable (ControlPlane.next s c) := hs.tail ⟨hc, rfl⟩
  have hkeys : ((ControlPlane.transact s c).runAttempts.map AttemptRow.id).Nodup :=
    (StoreWrites.reachable_keysUnique ht).attempts
  have hevolves := (StoreWrites.transact_writes (StoreWrites.reachable_keysUnique hs) hc).evolves
  -- a row that is still open was open before
  have hopen {a a' : AttemptRow} (ha : a ∈ s.store.runAttempts)
      (ha' : a' ∈ (ControlPlane.transact s c).runAttempts) (hid : a'.id = a.id)
      (hlive : a'.status.isTerminal = false) : a.status.isTerminal = false := by
    by_contra hterminal
    obtain ⟨b, hb, hmoved⟩ := hevolves.attempts.of_mem ha
    have hsame : b = a' := row_unique hkeys hb ha' (hmoved.id.trans hid.symm)
    have hkept := hmoved.settled (by simpa using hterminal)
    rw [← hsame, hkept] at hlive
    exact hterminal hlive
  have horigin {a' : AttemptRow} (ha' : a' ∈ (ControlPlane.transact s c).runAttempts) :
      (∃ a ∈ s.store.runAttempts, a'.id = a.id ∧ a'.outputSequence = a.outputSequence ∧
        (a'.status.isTerminal = true ∨
          a'.stdoutTail = a.stdoutTail ∧ a'.stderrTail = a.stderrTail)) ∨
      outputOf a' = blank a'.id ∧ ∀ a ∈ s.store.runAttempts, a.id ≠ a'.id := by
    by_cases hreports : reports c = true
    · cases c with
      | completeAttempt request retryAt now =>
        obtain ⟨a, ha, hid, hsequence, hcase⟩ := completeAttempt_origin ha'
        refine .inl ⟨a, ha, hid, hsequence, ?_⟩
        rcases hcase with rfl | hterminal
        · exact .inr ⟨rfl, rfl⟩
        · exact .inl hterminal
      | recordAttemptOutput request now => exact absurd rfl (hother request now)
      | _ => cases hreports
    · rcases output_origin (by simpa using hreports) hkeys ha' with ⟨a, ha, hsame⟩ | hblank
      · simp only [outputOf, AttemptOutput.mk.injEq] at hsame
        exact .inl ⟨a, ha, hsame.1, hsame.2.2.2, .inr ⟨hsame.2.1, hsame.2.2.1⟩⟩
      · exact .inr hblank
  have hunknown {a' : AttemptRow} (hnew : ∀ a ∈ s.store.runAttempts, a.id ≠ a'.id) :
      shownBy accepted a'.id = none := by
    refine newest_eq_none fun m hm hattempt => ?_
    obtain ⟨a, ha, hid⟩ := h.known m hm
    exact hnew a ha (hid.trans hattempt)
  refine ⟨?_, h.increasing, ?_, ?_⟩
  · intro m hm
    obtain ⟨a, ha, hid⟩ := h.known m hm
    obtain ⟨b, hb, hmoved⟩ := hevolves.attempts.of_mem ha
    exact ⟨b, hb, hmoved.id.trans hid⟩
  · intro a' ha'
    rcases horigin ha' with ⟨a, ha, hid, hsequence, _⟩ | ⟨hblank, hnew⟩
    · rw [hsequence, hid]
      exact h.sequence a ha
    · rw [hunknown hnew]
      exact congrArg AttemptOutput.sequence hblank
  · intro a' ha' hlive
    rcases horigin ha' with ⟨a, ha, hid, _, hcase⟩ | ⟨hblank, hnew⟩
    · rcases hcase with hterminal | ⟨hout, herr⟩
      · rw [hterminal] at hlive
        cases hlive
      · rw [hout, herr, hid]
        exact h.tails a ha (hopen ha ha' hid hlive)
    · rw [hunknown hnew]
      exact ⟨congrArg AttemptOutput.stdoutTail hblank, congrArg AttemptOutput.stderrTail hblank⟩

theorem Recorded.accept {s : Store} (hkeys : (s.runAttempts.map AttemptRow.id).Nodup)
    {accepted : List OutputMessage} (h : Recorded s accepted) {m : OutputMessage} {now : Instant}
    (haccepted : (recordAttemptOutput m.request now s).1 = .ok true) :
    Recorded (recordAttemptOutput m.request now s).2 (accepted ++ [m]) := by
  rcases recordAttemptOutput_spec hkeys m.request now with ⟨hrefused, _⟩ | ⟨_, hrow, hstore⟩
  · exact absurd haccepted hrefused
  obtain ⟨a, ha, hheld⟩ := hrow
  have hid {b : AttemptRow} (hb : replaced m.request now b = true) : b.id = m.attempt :=
    (StoreWrites.leased_iff.mp (Bool.and_eq_true_iff.mp hb).1).1
  rw [hstore]
  refine ⟨?_, ?_, ?_, ?_⟩
  · intro m' hm'
    have hknown : ∃ b ∈ s.runAttempts, b.id = m'.attempt := by
      rcases List.mem_append.mp hm' with hm' | hm'
      · exact h.known m' hm'
      · rw [List.mem_singleton.mp hm']
        exact ⟨a, ha, hid hheld⟩
    obtain ⟨b, hb, hbid⟩ := hknown
    refine ⟨_, mem_update.mpr ⟨b, hb, rfl⟩, ?_⟩
    split
    · exact hbid
    · exact hbid
  · refine h.increasing.append fun last hlast => ?_
    have hsequence := h.sequence a ha
    have hless : a.outputSequence < m.number := of_decide_eq_true (Bool.and_eq_true_iff.mp hheld).2
    rw [hid hheld, shownBy, hlast] at hsequence
    simpa [hsequence] using hless
  · intro a' ha'
    rcases update_cases ha' with ⟨hmem, hother⟩ | ⟨b, _, hb, rfl⟩
    · have hne : m.attempt ≠ a'.id := by
        intro heq
        rw [row_unique hkeys hmem ha (heq.symm.trans (hid hheld).symm), hheld] at hother
        cases hother
      rw [shownBy, newest_append_other hne]
      exact h.sequence a' hmem
    · rw [shownBy, newest_append_self (hid hb).symm]
      rfl
  · intro a' ha' hlive
    rcases update_cases ha' with ⟨hmem, hother⟩ | ⟨b, _, hb, rfl⟩
    · have hne : m.attempt ≠ a'.id := by
        intro heq
        rw [row_unique hkeys hmem ha (heq.symm.trans (hid hheld).symm), hheld] at hother
        cases hother
      rw [shownBy, newest_append_other hne]
      exact h.tails a' hmem hlive
    · rw [shownBy, newest_append_self (hid hb).symm]
      exact ⟨rfl, rfl⟩

theorem Recorded.deliver {net : Network} (hcontrol : ControlPlane.Reachable net.control)
    (h : Recorded net.control.store net.accepted) (m : OutputMessage) (now : Instant) :
    Recorded (net.controlAfter F (.deliver m now)).store
      (net.acceptedAfter F (.deliver m now)) := by
  have hkeys := (StoreWrites.reachable_keysUnique hcontrol).attempts
  simp only [Network.controlAfter, Network.acceptedAfter]
  rcases handleOutput_cases F m now net.control.store with ⟨hstore, hanswer⟩ | ⟨hstore, hrefused⟩
  · rw [hstore]
    rcases recordAttemptOutput_spec hkeys m.request now with ⟨hrefused, hkept⟩ | ⟨haccepted, _⟩
    · rw [if_neg (mt hanswer.mp hrefused), hkept]
      exact h
    · rw [if_pos (hanswer.mpr haccepted)]
      exact h.accept hkeys haccepted
  · rw [hstore, if_neg hrefused]
    exact h

theorem Recorded.step {net net' : Network} {e : Event}
    (hcontrol : ControlPlane.Reachable net.control) (h : Recorded net.control.store net.accepted)
    (hstep : (system F).Step net e net') : Recorded net'.control.store net'.accepted := by
  obtain ⟨henabled, rfl⟩ := hstep
  cases e with
  | control c =>
    refine h.transact hcontrol henabled.2 ?_
    rintro request now rfl
    cases henabled.1
  | claim request answered now =>
    exact h.transact (c := .claimAttempt request now) hcontrol trivial fun _ _ => nofun
  | emit => exact h
  | tick => exact h
  | answer => exact h
  | stop => exact h
  | deliver m now =>
    rw [next_control, next_accepted]
    exact h.deliver F hcontrol m now

theorem reachable_ordered {net : Network} (h : (system F).Reachable net) : Ordered net := by
  refine h.invariant_of (Q := (system F).Reachable) (fun _ h => h) ?_ ?_
  · rintro net ⟨_, huploaders, hsent, haccepted⟩
    constructor
    all_goals simp [huploaders, hsent, haccepted]
  · intro net e net' hnet hordered hstep
    have hcontrol := (projection F).reachable (hnet.tail hstep)
    exact hordered.step F (ExecutionGrants.reachable_grantLog hcontrol) hstep

theorem initial_recorded {net : Network} (h : (system F).initial net) :
    Recorded net.control.store net.accepted := by
  obtain ⟨⟨catalog, schedules, _, _, hcontrol⟩, _, _, haccepted⟩ := h
  have hattempts : net.control.store.runAttempts = [] := by rw [hcontrol]; rfl
  rw [haccepted]
  exact ⟨nofun, .nil, by simp [hattempts], by simp [hattempts]⟩

theorem reachable_recorded {net : Network} (h : (system F).Reachable net) :
    Recorded net.control.store net.accepted := by
  refine h.invariant_of (P := fun net => Recorded net.control.store net.accepted)
    (Q := fun net => ControlPlane.Reachable net.control)
    (fun _ h => (projection F).reachable h) (fun _ => initial_recorded F) ?_
  intro net e net' hcontrol hrecorded hstep
  exact hrecorded.step F hcontrol hstep

theorem acceptedAfter_grows (net : Network) (e : Event) :
    net.accepted <+: net.acceptedAfter F e := by
  unfold Network.acceptedAfter
  split
  · split
    · exact List.prefix_append _ _
    · exact List.prefix_refl _
  · exact List.prefix_refl _

theorem accepted_grows {net net' : Network} (h : (system F).Execution net net') :
    net.accepted <+: net'.accepted := by
  induction h with
  | refl => exact List.prefix_refl _
  | tail _ hstep ih =>
    rw [hstep.2]
    exact ih.trans (acceptedAfter_grows F _ _)

theorem Built.accepted {m : OutputMessage} (h : Built m) :
    encodedLength F (requestValue m.request) ≤ maxOutputRequestBytes ∧
      LiveOutput.validateOutput m.request (subjectWorker m.subject) = .ok () := by
  refine ⟨h.bounded.encodedLength_le F, ?_⟩
  rw [h.subject]
  exact h.bounded.validateOutput

/-- Every other accepted snapshot of an Attempt is older than the one shown, in its number and in
the output it was built from. -/
theorem Ordered.shown_newest {net : Network} (h : Ordered net)
    (hrecorded : Recorded net.control.store net.accepted) {m : OutputMessage}
    (hm : m ∈ net.accepted) : ∃ last, shownBy net.accepted m.attempt = some last ∧
      m.number ≤ last.number ∧ m.timeline <+: last.timeline := by
  obtain ⟨last, hlast, horder⟩ := hrecorded.increasing.newest_greatest hm
  refine ⟨last, hlast, ?_⟩
  obtain ⟨hmem, hattempt⟩ := newest_mem hlast
  rcases horder with rfl | hlt
  · exact ⟨Nat.le_refl _, List.prefix_refl _⟩
  · have hprefix := h.numbered m (h.accepted m hm) last (h.accepted last hmem) hattempt.symm hlt
    exact ⟨Nat.le_of_lt hlt, hprefix⟩

/-- Whatever the network does to the snapshots and to the completion, every snapshot passes the
server's checks, stored sequence numbers only grow, an open Attempt shows its newest accepted
snapshot, and an ended one keeps what it showed. -/
theorem live_output_never_regresses {net net' : Network} (hnet : (system F).Reachable net)
    (h : (system F).Execution net net') :
    (∀ m ∈ net'.sent, encodedLength F (requestValue m.request) ≤ maxOutputRequestBytes ∧
      validateOutput m.request (subjectWorker m.subject) = .ok ()) ∧
    Increasing OutputMessage.attempt OutputMessage.number net'.accepted ∧
    (∀ a ∈ net.control.store.runAttempts, ∀ a' ∈ net'.control.store.runAttempts, a'.id = a.id →
      a.outputSequence ≤ a'.outputSequence ∧
      (a.status.isTerminal = true →
        a'.stdoutTail = a.stdoutTail ∧ a'.stderrTail = a.stderrTail)) ∧
    (∀ a ∈ net'.control.store.runAttempts, a.status = .running →
      a.outputSequence = ((shownBy net'.accepted a.id).map OutputMessage.number).getD 0 ∧
      a.stdoutTail = (shownBy net'.accepted a.id).map (fun m => m.request.stdoutTail) ∧
      a.stderrTail = (shownBy net'.accepted a.id).map fun m => m.request.stderrTail) ∧
    (∀ m ∈ net'.accepted, ∃ last, shownBy net'.accepted m.attempt = some last ∧
      m.number ≤ last.number ∧ m.timeline <+: last.timeline ∧
      last.request.stdoutTail = String.ofList (liveTails (linesShown last.timeline)).stdout ∧
      last.request.stderrTail = String.ofList (liveTails (linesShown last.timeline)).stderr) := by
  have hnet' := hnet.execution h
  have hordered := reachable_ordered F hnet'
  have hrecorded := reachable_recorded F hnet'
  have hcontrol : ControlPlane.Reachable net.control := (projection F).reachable hnet
  have hcontrol' : ControlPlane.Reachable net'.control := (projection F).reachable hnet'
  have hkeys := (StoreWrites.reachable_keysUnique hcontrol').attempts
  have hevolves := StoreWrites.execution_evolves hcontrol ((projection F).execution h)
  refine ⟨?_, hrecorded.increasing, ?_, ?_, ?_⟩
  · exact fun m hm => (hordered.built m hm).accepted F
  · intro a ha a' ha' hid
    constructor
    · rw [(reachable_recorded F hnet).sequence a ha, hrecorded.sequence a' ha', hid]
      exact hrecorded.increasing.newest_mono (accepted_grows F h) a.id
    · intro hterminal
      obtain ⟨b, hb, hmoved⟩ := hevolves.attempts.of_mem ha
      have hsame : b = a' := row_unique hkeys hb ha' (hmoved.id.trans hid.symm)
      rw [← hsame, hmoved.settled hterminal]
      exact ⟨rfl, rfl⟩
  · intro a ha hrunning
    exact ⟨hrecorded.sequence a ha, hrecorded.tails a ha (by rw [hrunning]; rfl)⟩
  · intro m hm
    obtain ⟨last, hlast, hnumber, htimeline⟩ := hordered.shown_newest hrecorded hm
    have hbuilt := hordered.built last (hordered.accepted last (newest_mem hlast).1)
    exact ⟨last, hlast, hnumber, htimeline, hbuilt.stdout, hbuilt.stderr⟩

def demoFormat : FloatFormat := InputStorage.shortest []

def demoNetwork : Network := ⟨demoInitial, [], [], []⟩

def demoStart : List Event :=
  [.control demoCreate, .control demoClaimOutbox, .control demoMarkPublished,
    .claim demoClaimRequest true 0]

def demoMessage (sequence : ℕ) (timeline : List TimelineEvent) : OutputMessage :=
  ⟨outputSubject "worker", snapshot 7 "worker" sequence (liveTails (linesShown timeline)), timeline⟩

/-- The worker gives up on its first snapshot, which arrives after the second. -/
def demoLate : List Event :=
  [.emit 7 (.stdout ['a']), .tick 7, .answer 7 false, .emit 7 (.stdout ['b']), .tick 7,
    .deliver (demoMessage 2 [.stdout ['a'], .stdout ['b']]) 1,
    .deliver (demoMessage 1 [.stdout ['a']]) 2]

def demoGranted : Network := (system demoFormat).run demoNetwork demoStart

def demoShown : Network := (system demoFormat).run demoGranted demoLate

theorem demoGranted_reachable : (system demoFormat).Reachable demoGranted := by
  have hname : validateResourceName demoClaimRequest.workerId = true := by decide
  refine ⟨demoNetwork, ⟨demoInitial_initial, rfl, rfl, rfl⟩, .of_admits ?_⟩
  exact ⟨⟨rfl, trivial⟩, ⟨rfl, trivial⟩, ⟨rfl, List.mem_singleton.mpr rfl⟩, hname, trivial⟩

theorem demoShown_execution : (system demoFormat).Execution demoGranted demoShown := by
  refine .of_admits ⟨trivial, trivial, trivial, trivial, trivial, ?_, ?_, trivial⟩
  · change demoMessage 2 _ ∈ Network.sent _
    decide +kernel
  · change demoMessage 1 _ ∈ Network.sent _
    decide +kernel

theorem late_snapshot_not_shown :
    demoShown.sent.map OutputMessage.number = [1, 2] ∧
    demoShown.accepted.map OutputMessage.number = [2] ∧
    ∀ a ∈ demoShown.control.store.runAttempts, a.status = .running →
      a.stdoutTail = (shownBy demoShown.accepted a.id).map fun m => m.request.stdoutTail := by
  refine ⟨by decide +kernel, by decide +kernel, ?_⟩
  intro a ha hrunning
  exact ((live_output_never_regresses demoFormat demoGranted_reachable
    demoShown_execution).2.2.2.1 a ha hrunning).2.1

end LiveOutput
