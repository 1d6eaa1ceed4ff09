import Crono.WorkerSessions

/-! What the sessions of workers and the rows of the control plane say of each other: a completion
is the outcome that one session has observed, a confirmed timeline ends with the stored outcome,
and live output is a tail of the timeline. -/
namespace WorkerReports

open RunDomain SqlTable ControlPlaneSchema RunStore StoreWrites RunLifecycle
open ControlPlane (State Command Grant Completion transact grantedBy completedBy)
open ExecutionInputs (FloatFormat)
open WorkerOutput WorkerRunner ExecutionTimelines SecretRedaction WorkerSessions
open OutputStorage (storeCompletion)
open ExecutionGrants (GrantLog reachable_grantLog grantsOf)
open LiveOutput (Network TimelineEvent)
open BoundaryCuts (size)

variable {F : FloatFormat} {hF : PlainNumbers F} {debug : List Char → List Char}

theorem emitAll_execution (attemptId : Uuid) (events : List ExecutionEvent) (net : Network) :
    (LiveOutput.system F).Execution net (emitAll F attemptId events net) := by
  induction events generalizing net with
  | nil => exact .refl net
  | cons event events ih =>
    exact (TransitionSystem.Execution.single (e := .emit attemptId (seen event))
      ⟨trivial, rfl⟩).trans (ih _)

theorem settleUploads_execution (attemptId : Uuid) (stage : Stage) (net : Network) :
    (LiveOutput.system F).Execution net (settleUploads F attemptId stage net) := by
  cases stage with
  | working work => exact .refl net
  | finished result => exact .single (e := .stop attemptId) ⟨trivial, rfl⟩
  | reported result answer => exact .single (e := .stop attemptId) ⟨trivial, rfl⟩

theorem advance_execution (d : Deployment) (x : Session) (step : SessionStep) :
    (LiveOutput.system F).Execution d.network (d.advance F hF debug x step).network :=
  (emitAll_execution _ _ _).trans (settleUploads_execution _ _ _)

theorem claim_execution {d : Deployment} {args : Args} {envelope : DispatchEnvelope}
    {observationId : Uuid} {answered : Bool} {now : Instant}
    (hname : WorkflowStore.validateResourceName args.workerId = true) :
    (LiveOutput.system F).Execution d.network
      (d.claim F args envelope observationId answered now).network := by
  have hclaim (heard : Bool) : (LiveOutput.system F).Execution d.network
      (LiveOutput.next F d.network (.claim (claimRequest args envelope) heard now)) :=
    .single (e := .claim (claimRequest args envelope) heard now) ⟨hname, rfl⟩
  unfold Deployment.claim
  split
  · exact .refl _
  · simp only
    split
    · exact (hclaim true).trans (emitAll_execution _ _ _)
    · exact hclaim false

theorem renew_execution (d : Deployment) (x : Session) (exchange : Exchange)
    (extension : Except (List Char) Unit) (now : Instant) :
    (LiveOutput.system F).Execution d.network
      (d.renew F hF debug x exchange extension now).network := by
  have hrenewed : (LiveOutput.system F).Execution d.network
      (d.renewed F x exchange now).network := by
    unfold Deployment.renewed
    split
    · exact .single (e := .control (.renewLease (leaseRequest x) now)) ⟨⟨rfl, trivial⟩, rfl⟩
    · exact .refl _
  unfold Deployment.renew
  simp only
  split
  · exact hrenewed
  · exact hrenewed.trans (advance_execution _ _ _)

theorem complete_execution (d : Deployment) (x : Session) (result : ExecutionResult)
    (exchange : Exchange) (totalDurationMs : ℕ) (retryAt now : Instant) :
    (LiveOutput.system F).Execution d.network
      (d.complete F hF debug x result exchange totalDurationMs retryAt now).network := by
  have hcompleted : (LiveOutput.system F).Execution d.network
      (d.completed F (x.completion F hF result) exchange retryAt now).network := by
    unfold Deployment.completed
    split
    · exact .single (e := .control (.completeAttempt (x.completion F hF result) retryAt now))
        ⟨⟨rfl, trivial⟩, rfl⟩
    · exact .refl _
  exact hcompleted.trans (advance_execution _ _ _)

theorem network_execution {d d' : Deployment} {e : Event}
    (h : (system F hF debug).Step d e d') :
    (LiveOutput.system F).Execution d.network d'.network := by
  obtain ⟨henabled, rfl⟩ := h
  cases e with
  | network e => exact .single ⟨henabled.2, rfl⟩
  | claim args envelope observationId answered now => exact claim_execution henabled
  | work attemptId step =>
    simp only [system, next]
    split
    · exact advance_execution _ _ _
    · exact .refl _
  | renew attemptId exchange extension now =>
    simp only [system, next]
    split
    · split
      · exact renew_execution _ _ _ _ _
      · exact .refl _
      · exact .refl _
    · exact .refl _
  | complete attemptId exchange totalDurationMs retryAt now =>
    simp only [system, next]
    split
    · split
      · exact complete_execution _ _ _ _ _ _ _
      · exact .refl _
      · exact .refl _
    · exact .refl _

/-- Every run of the workers is a run of the network of live output. -/
def networkProjection : TransitionSystem.Projection (system F hF debug) (LiveOutput.system F) where
  map := Deployment.network
  initial := fun _ h => h.1
  step := fun _ _ _ => network_execution

theorem control_reachable {d : Deployment} (h : (system F hF debug).Reachable d) :
    ControlPlane.Reachable d.network.control :=
  (LiveOutput.projection F).reachable (networkProjection.reachable h)

@[simp] theorem emitAll_control (attemptId : Uuid) (events : List ExecutionEvent) (net : Network) :
    (emitAll F attemptId events net).control = net.control := by
  induction events generalizing net with
  | nil => rfl
  | cons event events ih => exact ih _

@[simp] theorem settleUploads_control (attemptId : Uuid) (stage : Stage) (net : Network) :
    (settleUploads F attemptId stage net).control = net.control := by
  cases stage with
  | working work => rfl
  | finished result => rfl
  | reported result answer => rfl

@[simp] theorem advance_control (d : Deployment) (x : Session) (step : SessionStep) :
    (d.advance F hF debug x step).network.control = d.network.control := by
  simp [Deployment.advance]

def outcomeStatus (result : ExecutionResult) : AttemptStatus :=
  if result.skipped then .skipped else if result.succeeded then .succeeded else .failed

/-- The row of an Attempt that a session has completed: what the session observed. -/
structure OutcomeRow (redactor : Redactor) (result : ExecutionResult) (a : AttemptRow) : Prop where
  status : a.status = outcomeStatus result
  exitCode : a.exitCode = result.exitCode
  stdoutTail : a.stdoutTail = some (String.ofList result.stdoutTail)
  stderrTail : a.stderrTail = some (String.ofList result.stderrTail)
  error : a.error = result.error.map fun error => boundedError (String.ofList (redactor.text error))

structure Stored (redactor : Redactor) (s : State) (attemptId : Uuid) (workerId : String)
    (result : ExecutionResult) : Prop where
  completed : ⟨attemptId, workerId⟩ ∈ s.completions
  row : ∃ a ∈ s.store.runAttempts, a.id = attemptId ∧ OutcomeRow redactor result a

def Uncompleted (s : State) (attemptId : Uuid) : Prop :=
  ∀ c ∈ s.completions, c.attemptId ≠ attemptId

def SettledAt (redactor : Redactor) (s : State) (attemptId : Uuid) (workerId : String) :
    Stage → Prop
  | .reported result (some true) => Stored redactor s attemptId workerId result
  | .reported result none =>
    Stored redactor s attemptId workerId result ∨ Uncompleted s attemptId
  | .working _ | .finished _ | .reported _ (some false) => Uncompleted s attemptId

def Settled (F : FloatFormat) (hF : PlainNumbers F) (s : State) (x : Session) : Prop :=
  SettledAt (x.redactor F hF) s x.attemptId x.workerId x.stage

/-- The execution of a session is the snapshot of its Run, as it is delivered. -/
def Delivers (F : FloatFormat) (s : Store) (x : Session) : Prop :=
  ∃ r ∈ s.runs, r.id = x.runId ∧ ∃ snapshot, r.executionSnapshot = .execution snapshot ∧
    InputStorage.delivered F snapshot = some x.execution

structure Accounted (F : FloatFormat) (hF : PlainNumbers F) (s : State) (sessions : List Session) :
    Prop where
  distinct : (sessions.map Session.attemptId).Nodup
  granted : ∀ x ∈ sessions, ⟨x.runId, x.attemptId, x.workerId⟩ ∈ s.grants
  delivered : ∀ x ∈ sessions, Delivers F s.store x
  settled : ∀ x ∈ sessions, Settled F hF s x
  completed : ∀ c ∈ s.completions, ∃ x ∈ sessions, x.attemptId = c.attemptId ∧
    x.workerId = c.workerId

theorem outcomeStatus_terminal (result : ExecutionResult) :
    (outcomeStatus result).isTerminal = true := by
  unfold outcomeStatus
  split
  · rfl
  split
  · rfl
  · rfl

theorem Stored.next {s : State} (hs : ControlPlane.Reachable s) {c : Command}
    (hc : ControlPlane.Enabled s c) {redactor : Redactor} {attemptId : Uuid} {workerId : String}
    {result : ExecutionResult} (h : Stored redactor s attemptId workerId result) :
    Stored redactor (ControlPlane.next s c) attemptId workerId result := by
  refine ⟨List.mem_append_left _ h.completed, ?_⟩
  obtain ⟨a, ha, hid, hrow⟩ := h.row
  have hevolves := (transact_writes (reachable_keysUnique hs) hc).evolves
  obtain ⟨a', ha', hmoved⟩ := hevolves.attempts.of_mem ha
  rw [hmoved.settled (by rw [hrow.status]; exact outcomeStatus_terminal result)] at ha'
  exact ⟨a, ha', hid, hrow⟩

theorem SettledAt.next {s : State} (hs : ControlPlane.Reachable s) {c : Command}
    (hc : ControlPlane.Enabled s c) {redactor : Redactor} {attemptId : Uuid} {workerId : String}
    (hopen : Uncompleted s attemptId → Uncompleted (ControlPlane.next s c) attemptId)
    {stage : Stage} (h : SettledAt redactor s attemptId workerId stage) :
    SettledAt redactor (ControlPlane.next s c) attemptId workerId stage := by
  match stage, h with
  | .reported _ (some true), h => exact Stored.next hs hc h
  | .reported _ none, h => exact h.imp (Stored.next hs hc) hopen
  | .working _, h => exact hopen h
  | .finished _, h => exact hopen h
  | .reported _ (some false), h => exact hopen h

theorem Delivers.next {s : State} (hs : ControlPlane.Reachable s) {c : Command}
    (hc : ControlPlane.Enabled s c) {x : Session} (h : Delivers F s.store x) :
    Delivers F (ControlPlane.next s c).store x := by
  obtain ⟨r, hr, hid, snapshot, hsnapshot, hexecution⟩ := h
  have hevolves := (transact_writes (reachable_keysUnique hs) hc).evolves
  obtain ⟨r', hr', hmoved⟩ := hevolves.runs.of_mem hr
  refine ⟨r', hr', ?_, snapshot, ?_, hexecution⟩
  · rw [hmoved.columns, ← hid]
  · rw [hmoved.columns, ← hsnapshot]

theorem Accounted.control {s : State} (hs : ControlPlane.Reachable s) {c : Command}
    (hc : ControlPlane.Enabled s c) (hnone : completedBy s c = []) {sessions : List Session}
    (h : Accounted F hF s sessions) : Accounted F hF (ControlPlane.next s c) sessions := by
  have hcompletions : (ControlPlane.next s c).completions = s.completions := by
    rw [ControlPlane.next, hnone, List.append_nil]
  refine ⟨h.distinct, fun x hx => List.mem_append_left _ (h.granted x hx),
    fun x hx => (h.delivered x hx).next hs hc, fun x hx => (h.settled x hx).next hs hc ?_, ?_⟩
  · rw [Uncompleted, Uncompleted, hcompletions]
    exact id
  · rw [hcompletions]
    exact h.completed

/-- The session of an Attempt moves, and the control plane may complete that Attempt. -/
theorem Accounted.update {s s' : State} {sessions : List Session} (h : Accounted F hF s sessions)
    {x : Session} (hx : x ∈ sessions) {step : SessionStep} (hgrants : s.grants ⊆ s'.grants)
    (hdelivers : ∀ y, Delivers F s.store y → Delivers F s'.store y)
    (hothers : ∀ y ∈ sessions, y.attemptId ≠ x.attemptId → Settled F hF s' y)
    (hsettled : Settled F hF s' (x.move F hF debug step))
    (hcompletions : ∀ c ∈ s'.completions, c ∈ s.completions ∨ c = ⟨x.attemptId, x.workerId⟩) :
    Accounted F hF s'
      (SqlTable.update (fun y => y.attemptId = x.attemptId) (.move F hF debug step) sessions) := by
  have hcases {y' : Session} (hy : y' ∈ SqlTable.update
      (fun y => decide (y.attemptId = x.attemptId)) (.move F hF debug step) sessions) :
      (y' ∈ sessions ∧ y'.attemptId ≠ x.attemptId) ∨ y' = x.move F hF debug step := by
    rcases update_cases hy with ⟨hmem, hother⟩ | ⟨y, hmem, hsame, rfl⟩
    · exact .inl ⟨hmem, of_decide_eq_false hother⟩
    · rw [row_unique h.distinct hmem hx (of_decide_eq_true hsame)]
      exact .inr rfl
  refine ⟨?_, ?_, ?_, ?_, ?_⟩
  · have hids : (SqlTable.update (fun y => decide (y.attemptId = x.attemptId))
        (.move F hF debug step) sessions).map Session.attemptId =
        sessions.map Session.attemptId := map_update fun _ _ _ => rfl
    rw [hids]
    exact h.distinct
  · intro y hy
    rcases hcases hy with ⟨hy, _⟩ | rfl
    · exact hgrants (h.granted y hy)
    · exact hgrants (h.granted x hx)
  · intro y hy
    rcases hcases hy with ⟨hy, _⟩ | rfl
    · exact hdelivers y (h.delivered y hy)
    · exact hdelivers x (h.delivered x hx)
  · intro y hy
    rcases hcases hy with ⟨hy, hother⟩ | rfl
    · exact hothers y hy hother
    · exact hsettled
  · intro c hc
    rcases hcompletions c hc with hbefore | rfl
    · obtain ⟨y, hy, hattempt, hworker⟩ := h.completed c hbefore
      refine ⟨_, mem_update.mpr ⟨y, hy, rfl⟩, ?_⟩
      split
      · exact ⟨hattempt, hworker⟩
      · exact ⟨hattempt, hworker⟩
    · exact ⟨x.move F hF debug step, mem_update.mpr ⟨x, hx, by simp⟩, rfl, rfl⟩

/-- Moving the session of an Attempt keeps the account, when the control plane agrees with the
new stage. -/
theorem Accounted.move {s : State} {sessions : List Session} (h : Accounted F hF s sessions)
    {x : Session} (hx : x ∈ sessions) {step : SessionStep}
    (hsettled : Settled F hF s (x.move F hF debug step)) :
    Accounted F hF s (SqlTable.update (fun y => y.attemptId = x.attemptId) (.move F hF debug step)
      sessions) :=
  h.update hx (fun _ hg => hg) (fun _ hy => hy) (fun y hy _ => h.settled y hy) hsettled
    fun _ hc => .inl hc

/-- Polls and heartbeats report nothing. -/
theorem Settled.move {s : State} {x : Session} {step : SessionStep}
    (hstep : ∀ answer totalDurationMs, step ≠ .answer answer totalDurationMs)
    (h : Settled F hF s x) : Settled F hF s (x.move F hF debug step) := by
  have hunreported (stage : Stage) (hopen : Uncompleted s x.attemptId)
      (hstage : ∀ result answer, stage ≠ .reported result answer) :
      SettledAt (x.redactor F hF) s x.attemptId x.workerId stage := by
    cases stage with
    | working work => exact hopen
    | finished result => exact hopen
    | reported result answer => exact absurd rfl (hstage result answer)
  have hmove : SettledAt (x.redactor F hF) s x.attemptId x.workerId
      (x.advance F hF debug step).1 := by
    unfold Settled at h
    cases step with
    | work step =>
      simp only [Session.advance]
      split
      · rename_i work hstage
        rw [hstage] at h
        refine hunreported _ h fun result answer => ?_
        generalize (work.step F debug (x.redactor F hF) x.execution x.dryRun step).1 = after
        cases after with
        | waiting => simp [Stage.of]
        | child c => simp [Stage.of]
        | done result => simp [Stage.of]
      · exact h
    | abort error =>
      simp only [Session.advance]
      split
      · rename_i work hstage
        rw [hstage] at h
        exact h
      · exact h
    | answer answer totalDurationMs => exact absurd rfl (hstep answer totalDurationMs)
  exact hmove

theorem grantedExecution_some {s : Store} (h : Consistent s) {request : ClaimRequest}
    {now : Instant} {execution : ExecutionSnapshot}
    (hgranted : grantedExecution F s request now = some execution) :
    ∃ r ∈ s.runs, r.id = request.runId ∧ ∃ snapshot, r.executionSnapshot = .execution snapshot ∧
      InputStorage.delivered F snapshot = some execution ∧
      (claimAttempt request now s).1 = .ok ⟨true, 60, some snapshot⟩ := by
  unfold grantedExecution at hgranted
  rcases h.claimAttempt_spec request now with ⟨_, hrefused⟩ |
    ⟨r, past, newest, snapshot, hholds, _, hgrant, _, hsnapshot, hclaimed⟩
  · rw [hrefused] at hgranted
    cases hgranted
  · rw [hclaimed] at hgranted ⊢
    have hrun : r.id = request.runId := by
      rw [← hholds.live.newest_linked.attempt_run]
      exact (grantable_iff.mp hgrant).2.1
    exact ⟨r, hholds.run_mem, hrun, snapshot, hsnapshot, hgranted, rfl⟩

theorem Accounted.claim {s : State} (hs : ControlPlane.Reachable s) {sessions : List Session}
    (h : Accounted F hF s sessions) {args : Args} {envelope : DispatchEnvelope} {now : Instant}
    {execution : ExecutionSnapshot} (observationId : Uuid)
    (hgranted : grantedExecution F s.store (claimRequest args envelope) now = some execution) :
    Accounted F hF (ControlPlane.next s (.claimAttempt (claimRequest args envelope) now))
      (.start args envelope observationId execution :: sessions) := by
  have hc : ControlPlane.Enabled s (.claimAttempt (claimRequest args envelope) now) := trivial
  have hnext : ControlPlane.Reachable
      (ControlPlane.next s (.claimAttempt (claimRequest args envelope) now)) :=
    hs.tail (e := .claimAttempt (claimRequest args envelope) now) ⟨hc, rfl⟩
  have hold := h.control hs hc rfl
  have hlog := reachable_grantLog hs
  obtain ⟨r, hr, hid, snapshot, hsnapshot, hexecution, hanswer⟩ :=
    grantedExecution_some (RunCoupling.reachable_invariant hs).consistent hgranted
  have hgrants : grantedBy s (.claimAttempt (claimRequest args envelope) now) =
      [⟨envelope.runId, envelope.attemptId, args.workerId⟩] := by
    simp only [grantedBy, hanswer]
    rfl
  have hfresh : ∀ g ∈ s.grants, g.attemptId ≠ envelope.attemptId := by
    have hnodup := (reachable_grantLog hnext).distinct
    rw [ControlPlane.next, hgrants, List.map_append, List.nodup_append] at hnodup
    exact fun g hg => hnodup.2.2 g.attemptId (List.mem_map_of_mem hg) envelope.attemptId
      (List.mem_singleton_self _)
  refine ⟨?_, ?_, ?_, ?_, ?_⟩
  · rw [List.map_cons, List.nodup_cons]
    refine ⟨fun hmem => ?_, h.distinct⟩
    obtain ⟨x, hx, hsame⟩ := List.mem_map.mp hmem
    exact hfresh _ (h.granted x hx) hsame
  · intro x hx
    rcases List.mem_cons.mp hx with rfl | hx
    · rw [ControlPlane.next, hgrants]
      exact List.mem_append_right _ (List.mem_singleton_self _)
    · exact hold.granted x hx
  · intro x hx
    rcases List.mem_cons.mp hx with rfl | hx
    · exact Delivers.next hs hc ⟨r, hr, hid, snapshot, hsnapshot, hexecution⟩
    · exact hold.delivered x hx
  · intro x hx
    rcases List.mem_cons.mp hx with rfl | hx
    · intro c hcompleted
      have hbefore : c ∈ s.completions := by
        rw [ControlPlane.next] at hcompleted
        simpa [completedBy] using hcompleted
      obtain ⟨_, g, hg, hsame, _⟩ := hlog.completed c hbefore
      rw [← hsame]
      exact hfresh g hg
    · exact hold.settled x hx
  · intro c hcompleted
    obtain ⟨x, hx, hsame⟩ := hold.completed c hcompleted
    exact ⟨x, List.mem_cons_of_mem _ hx, hsame⟩

theorem storeCompletion_ok {request : CompletionRequest} {retryAt now : Instant} {s : Store}
    {accepted : Bool} (h : (storeCompletion request retryAt now s).1 = .ok accepted) :
    (completeAttempt request retryAt now s).1 = .ok accepted := by
  simp only [storeCompletion] at h
  generalize completeAttempt request retryAt now s = outcome at h ⊢
  obtain ⟨answer, t⟩ := outcome
  cases answer with
  | error e =>
    simp only at h
    split_ifs at h
  | ok written =>
    cases written with
    | false =>
      simp only at h
      split_ifs at h
      all_goals cases h
      rfl
    | true =>
      simp only at h
      split_ifs at h
      all_goals cases h
      rfl

theorem completed_row {redactor : Redactor} {result : ExecutionResult} {request : CompletionRequest}
    (hbounded : size result.stdoutTail ≤ outputLimit ∧ size result.stderrTail ≤ outputLimit)
    (hstatus : CompletionRequest.attemptStatus request = outcomeStatus result)
    (hcode : request.exitCode = result.exitCode)
    (hstdout : request.stdoutTail = String.ofList result.stdoutTail)
    (hstderr : request.stderrTail = String.ofList result.stderrTail)
    (herror : request.error = result.error.map fun error => String.ofList (redactor.text error))
    (now : Instant) (a : AttemptRow) :
    OutcomeRow redactor result (completedAttempt request now a) := by
  constructor
  · exact hstatus
  · exact hcode
  · simp only [completedAttempt, hstdout, boundedTail, String.toList_ofList]
    exact congrArg (fun tail => some (String.ofList tail)) (suffixWithin_of_size hbounded.1)
  · simp only [completedAttempt, hstderr, boundedTail, String.toList_ofList]
    exact congrArg (fun tail => some (String.ofList tail)) (suffixWithin_of_size hbounded.2)
  · simp only [completedAttempt, herror, Option.map_map]
    rfl

/-- A completion is refused and changes nothing, or it is stored as the session observed it. -/
theorem completion_cases {s : State} (hs : ControlPlane.Reachable s) {x : Session}
    {result : ExecutionResult}
    (hbounded : size result.stdoutTail ≤ outputLimit ∧ size result.stderrTail ≤ outputLimit)
    {retryAt now : Instant} {accepted : Bool}
    (h : (completeAttempt (x.completion F hF result) retryAt now s.store).1 = .ok accepted) :
    (accepted = false ∧
      completedBy s (.completeAttempt (x.completion F hF result) retryAt now) = []) ∨
    (accepted = true ∧ completedBy s (.completeAttempt (x.completion F hF result) retryAt now) =
        [⟨x.attemptId, x.workerId⟩] ∧
      Stored (x.redactor F hF)
        (ControlPlane.next s (.completeAttempt (x.completion F hF result) retryAt now))
        x.attemptId x.workerId result) := by
  have hconsistent := (RunCoupling.reachable_invariant hs).consistent
  cases accepted with
  | false =>
    refine .inl ⟨rfl, ?_⟩
    simp only [completedBy, h]
  | true =>
    have hcompleted : completedBy s (.completeAttempt (x.completion F hF result) retryAt now) =
        [⟨x.attemptId, x.workerId⟩] := by
      simp only [completedBy, h]
      rfl
    rcases ExecutionGrants.completedBy_cases hconsistent
      (.completeAttempt (x.completion F hF result) retryAt now) with hnone |
      ⟨request, retryAt', now', a, hc, ha, hleased, _, hmem⟩
    · rw [hnone] at hcompleted
      cases hcompleted
    · cases hc
      refine .inr ⟨rfl, hcompleted, ?_, _, hmem, (leased_iff.mp hleased).1, ?_⟩
      · rw [ControlPlane.next, hcompleted]
        exact List.mem_append_right _ (List.mem_singleton_self _)
      · exact completed_row hbounded rfl rfl rfl rfl rfl now a

/-- A command that completes the Attempt of a session settles that session and no other. -/
theorem Accounted.settle {s : State} (hs : ControlPlane.Reachable s) {c : Command}
    (hc : ControlPlane.Enabled s c) {sessions : List Session} (h : Accounted F hF s sessions)
    {x : Session} (hx : x ∈ sessions) (hcompleted : completedBy s c = [⟨x.attemptId, x.workerId⟩])
    {step : SessionStep}
    (hsettled : Settled F hF (ControlPlane.next s c) (x.move F hF debug step)) :
    Accounted F hF (ControlPlane.next s c)
      (SqlTable.update (fun y => y.attemptId = x.attemptId) (.move F hF debug step) sessions) := by
  have hcompletions : ∀ c' ∈ (ControlPlane.next s c).completions,
      c' ∈ s.completions ∨ c' = ⟨x.attemptId, x.workerId⟩ := by
    intro c' hmem
    rw [ControlPlane.next, hcompleted] at hmem
    simpa using hmem
  refine h.update hx (fun _ => List.mem_append_left _) (fun _ hy => hy.next hs hc) ?_ hsettled
    hcompletions
  intro y hy hother
  refine (h.settled y hy).next hs hc fun hopen c' hmem => ?_
  rcases hcompletions c' hmem with hbefore | rfl
  · exact hopen c' hbefore
  · exact hother.symm

theorem settled_answer {s : State} {x : Session} {result : ExecutionResult}
    (hstage : x.stage = .finished result) {answer : Option Bool} {totalDurationMs : ℕ}
    (h : SettledAt (x.redactor F hF) s x.attemptId x.workerId (.reported result answer)) :
    Settled F hF s (x.move F hF debug (.answer answer totalDurationMs)) := by
  have hmoved : (x.advance F hF debug (.answer answer totalDurationMs)).1 =
      .reported result answer := by
    simp only [Session.advance, hstage]
  have hsettled : SettledAt (x.redactor F hF) s x.attemptId x.workerId
      (x.advance F hF debug (.answer answer totalDurationMs)).1 := by
    rw [hmoved]
    exact h
  exact hsettled

/-- A completion that does not take effect is not confirmed. -/
theorem completed_cases (d : Deployment) (request : CompletionRequest) (exchange : Exchange)
    (retryAt now : Instant) :
    (d.completed F request exchange retryAt now = d ∧
      d.answer request exchange retryAt now = none) ∨
    ∃ accepted, (completeAttempt request retryAt now d.network.control.store).1 = .ok accepted ∧
      (d.completed F request exchange retryAt now).sessions = d.sessions ∧
      (d.completed F request exchange retryAt now).network.control =
        ControlPlane.next d.network.control (.completeAttempt request retryAt now) ∧
      (d.answer request exchange retryAt now = some accepted ∨
        d.answer request exchange retryAt now = none) := by
  by_cases hstored : (exchange.delivered && (d.accepts request retryAt now).isSome) = true
  · right
    obtain ⟨accepted, haccepted⟩ :=
      Option.isSome_iff_exists.mp (Bool.and_eq_true_iff.mp hstored).2
    refine ⟨accepted, storeCompletion_ok ?_, ?_⟩
    · unfold Deployment.accepts at haccepted
      cases hanswer : (storeCompletion request retryAt now d.network.control.store).1 with
      | error e => simp [hanswer, Except.toOption] at haccepted
      | ok written => simpa [hanswer, Except.toOption] using haccepted
    · rw [Deployment.completed, if_pos hstored]
      refine ⟨rfl, rfl, ?_⟩
      cases exchange with
      | answered => exact .inl haccepted
      | failed delivered error => exact .inr rfl
  · left
    rw [Deployment.completed, if_neg hstored]
    refine ⟨rfl, ?_⟩
    cases exchange with
    | answered => simpa [Exchange.delivered, Deployment.answer] using hstored
    | failed delivered error => rfl

theorem Accounted.complete {d : Deployment} (hs : ControlPlane.Reachable d.network.control)
    (h : Accounted F hF d.network.control d.sessions) {x : Session} (hx : x ∈ d.sessions)
    (hrecorded : Recorded F hF x) {result : ExecutionResult} (hstage : x.stage = .finished result)
    (exchange : Exchange) (totalDurationMs : ℕ) (retryAt now : Instant) :
    Accounted F hF
      (d.complete F hF debug x result exchange totalDurationMs retryAt now).network.control
      (d.complete F hF debug x result exchange totalDurationMs retryAt now).sessions := by
  have hopen : Uncompleted d.network.control x.attemptId := by
    have hsettled := h.settled x hx
    rw [Settled, hstage] at hsettled
    exact hsettled
  have hbounded : size result.stdoutTail ≤ outputLimit ∧ size result.stderrTail ≤ outputLimit := by
    have htold := hrecorded.told
    rw [hstage] at htold
    generalize x.timeline.events = events at htold
    cases htold with
    | finished _ trace hended => exact hended.tails_bounded
  have hc : ControlPlane.Enabled d.network.control
      (.completeAttempt (x.completion F hF result) retryAt now) := trivial
  rw [Deployment.complete, advance_control, Deployment.advance]
  rcases completed_cases (F := F) d (x.completion F hF result) exchange retryAt now with
    ⟨hsame, hanswer⟩ | ⟨accepted, haccepted, hsessions, hcontrol, hanswer⟩
  · rw [hsame, hanswer]
    exact h.move hx (settled_answer hstage (.inr hopen))
  · rw [hsessions, hcontrol]
    rcases completion_cases hs hbounded haccepted with ⟨rfl, hnone⟩ | ⟨rfl, hdone, hstored⟩
    · have hkept := h.control hs hc hnone
      have hstill := hkept.settled x hx
      rw [Settled, hstage] at hstill
      refine hkept.move hx (settled_answer hstage ?_)
      rcases hanswer with hanswer | hanswer
      · rw [hanswer]
        exact hstill
      · rw [hanswer]
        exact .inr hstill
    · refine h.settle hs hc hx hdone (settled_answer hstage ?_)
      rcases hanswer with hanswer | hanswer
      · rw [hanswer]
        exact hstored
      · rw [hanswer]
        exact .inl hstored

theorem completedBy_nil {s : State} {c : Command}
    (h : ∀ request retryAt now, c ≠ .completeAttempt request retryAt now) :
    completedBy s c = [] := by
  cases c with
  | completeAttempt request retryAt now => exact absurd rfl (h request retryAt now)
  | _ => rfl

theorem Accounted.network {net : Network} (hs : ControlPlane.Reachable net.control)
    {sessions : List Session} (h : Accounted F hF net.control sessions) {e : LiveOutput.Event}
    (hcaused : caused e = false) (henabled : LiveOutput.Enabled net e) :
    Accounted F hF (LiveOutput.next F net e).control sessions := by
  cases e with
  | control c =>
    refine h.control hs henabled.2 (completedBy_nil ?_)
    rintro request retryAt now rfl
    cases hcaused
  | claim request answered now => cases hcaused
  | emit attemptId event => cases hcaused
  | stop attemptId => cases hcaused
  | tick attemptId => exact h
  | answer attemptId accepted => exact h
  | deliver m now =>
    change Accounted F hF (net.controlAfter F (.deliver m now)) sessions
    rcases LiveOutput.deliver_control F net m now with hkept | hwritten
    · rw [hkept]
      exact h
    · rw [hwritten]
      exact h.control hs (c := .recordAttemptOutput m.request now) trivial rfl

theorem Accounted.opens {d : Deployment} (hs : ControlPlane.Reachable d.network.control)
    (h : Accounted F hF d.network.control d.sessions) (args : Args) (envelope : DispatchEnvelope)
    (observationId : Uuid) (answered : Bool) (now : Instant) :
    Accounted F hF (d.claim F args envelope observationId answered now).network.control
      (d.claim F args envelope observationId answered now).sessions := by
  unfold Deployment.claim
  split
  · exact h
  · simp only
    split
    · rename_i execution hgranted
      rw [emitAll_control]
      exact h.claim hs observationId hgranted
    · exact h.control hs (c := .claimAttempt (claimRequest args envelope) now) trivial rfl

theorem Accounted.advance {d : Deployment} (h : Accounted F hF d.network.control d.sessions)
    {x : Session} (hx : x ∈ d.sessions) {step : SessionStep}
    (hstep : ∀ answer totalDurationMs, step ≠ .answer answer totalDurationMs) :
    Accounted F hF (d.advance F hF debug x step).network.control
      (d.advance F hF debug x step).sessions := by
  rw [advance_control]
  exact h.move hx ((h.settled x hx).move hstep)

theorem Accounted.renew {d : Deployment} (hs : ControlPlane.Reachable d.network.control)
    (h : Accounted F hF d.network.control d.sessions) {x : Session} (hx : x ∈ d.sessions)
    (exchange : Exchange) (extension : Except (List Char) Unit) (now : Instant) :
    Accounted F hF (d.renew F hF debug x exchange extension now).network.control
      (d.renew F hF debug x exchange extension now).sessions := by
  have hrenewed : Accounted F hF (d.renewed F x exchange now).network.control
      (d.renewed F x exchange now).sessions ∧ x ∈ (d.renewed F x exchange now).sessions := by
    unfold Deployment.renewed
    split
    · exact ⟨h.control hs (c := .renewLease (leaseRequest x) now) trivial rfl, hx⟩
    · exact ⟨h, hx⟩
  unfold Deployment.renew
  simp only
  split
  · exact hrenewed.1
  · exact hrenewed.1.advance hrenewed.2 (by simp)

theorem Accounted.step {d d' : Deployment} {e : Event}
    (hs : ControlPlane.Reachable d.network.control)
    (hrecorded : ∀ x ∈ d.sessions, Recorded F hF x)
    (h : Accounted F hF d.network.control d.sessions) (hstep : (system F hF debug).Step d e d') :
    Accounted F hF d'.network.control d'.sessions := by
  obtain ⟨henabled, rfl⟩ := hstep
  cases e with
  | network e => exact h.network hs henabled.1 henabled.2
  | claim args envelope observationId answered now =>
    exact h.opens hs args envelope observationId answered now
  | work attemptId step =>
    simp only [system, next]
    split
    · rename_i x hfind
      exact h.advance (Deployment.find_mem hfind).1 (by simp)
    · exact h
  | renew attemptId exchange extension now =>
    simp only [system, next]
    split
    · rename_i x hfind
      split
      · exact h.renew hs (Deployment.find_mem hfind).1 exchange extension now
      · exact h
      · exact h
    · exact h
  | complete attemptId exchange totalDurationMs retryAt now =>
    simp only [system, next]
    split
    · rename_i x hfind
      have hx := (Deployment.find_mem hfind).1
      split
      · rename_i hstage
        exact h.complete hs hx (hrecorded x hx) hstage exchange totalDurationMs retryAt now
      · exact h
      · exact h
    · exact h

theorem initial_accounted {d : Deployment} (h : (system F hF debug).initial d) :
    Accounted F hF d.network.control d.sessions := by
  obtain ⟨⟨⟨catalog, schedules, _, _, hcontrol⟩, _⟩, hsessions⟩ := h
  have hcompletions : d.network.control.completions = [] := by rw [hcontrol]
  rw [hsessions]
  refine ⟨List.nodup_nil, ?_, ?_, ?_, ?_⟩
  · intro x hx
    cases hx
  · intro x hx
    cases hx
  · intro x hx
    cases hx
  · rw [hcompletions]
    intro c hc
    cases hc

theorem reachable_accounted {d : Deployment} (h : (system F hF debug).Reachable d) :
    Accounted F hF d.network.control d.sessions := by
  refine h.invariant_of (P := fun d => Accounted F hF d.network.control d.sessions)
    (Q := fun d => ControlPlane.Reachable d.network.control ∧ ∀ x ∈ d.sessions, Recorded F hF x)
    (fun _ h => ⟨control_reachable h, reachable_recorded h⟩) (fun _ => initial_accounted) ?_
  intro d e d' hd h hstep
  exact h.step hd.1 hd.2 hstep

def confirms : ExecutionEvent → Bool
  | .runCompleted _ | .runSkipped _ _ | .runFailed _ _ _ _ => true
  | _ => false

def Observed (F : FloatFormat) (hF : PlainNumbers F) (x : Session) (result : ExecutionResult) :
    Prop :=
  ∃ trace, received x.envelope x.execution x.dryRun ++ trace <+: x.timeline.events ∧
    Ended (x.redactor F hF) x.execution x.dryRun result trace

theorem confirms_told {event : ExecutionEvent} (h : confirms event = true) :
    (outcomeTold event).isSome = true := by
  cases event with
  | runCompleted | runSkipped | runFailed => rfl
  | _ => cases h

theorem reported_observed {x : Session} (h : Recorded F hF x) {result : ExecutionResult}
    {answer : Option Bool} (hstage : x.stage = .reported result answer) :
    Observed F hF x result ∧ ∃ earlier totalDurationMs, x.timeline.events =
      earlier ++ [lastEvent (x.redactor F hF) totalDurationMs result answer] := by
  have htold := h.told
  rw [hstage] at htold
  unfold Observed
  generalize x.timeline.events = events at htold ⊢
  cases htold with
  | reported _ _ trace totalDurationMs hended =>
    exact ⟨⟨trace, List.prefix_append _ _, hended⟩, _, totalDurationMs, rfl⟩

/-- A timeline that ends with a confirmed outcome is of a session whose completion was accepted. -/
theorem confirmed_reported {x : Session} (h : Recorded F hF x) {event : ExecutionEvent}
    (hevent : event ∈ x.timeline.events) (hconfirms : confirms event = true) :
    ∃ result totalDurationMs, x.stage = .reported result (some true) ∧
      event = emitResult (x.redactor F hF) totalDurationMs result := by
  obtain ⟨p, hread, hreported⟩ := h.told.read
  obtain ⟨hended, earlier, hearlier⟩ :=
    Position.read_told hread hevent (confirms_told hconfirms)
  obtain ⟨result, answer, hstage⟩ := hreported.mp hended
  obtain ⟨_, earlier', totalDurationMs, hlast⟩ := reported_observed h hstage
  rw [hlast] at hearlier
  obtain ⟨_, hsame⟩ := List.append_inj' hearlier rfl
  have hevent' : lastEvent (x.redactor F hF) totalDurationMs result answer = event :=
    List.singleton_inj.mp hsame
  match answer, hevent' with
  | some true, hsame => exact ⟨result, totalDurationMs, hstage, hsame.symm⟩
  | some false, hsame =>
    rw [← hsame] at hconfirms
    cases hconfirms
  | none, hsame =>
    rw [← hsame] at hconfirms
    cases hconfirms

theorem Accounted.sessions_length {s : State} {sessions : List Session}
    (h : Accounted F hF s sessions) (runId : Uuid) :
    (sessions.filter fun x => x.runId = runId).length ≤ (grantsOf s runId).length := by
  have hnodup : ((sessions.filter fun x => x.runId = runId).map Session.attemptId).Nodup :=
    h.distinct.sublist (List.filter_sublist.map _)
  have hsub : (sessions.filter fun x => x.runId = runId).map Session.attemptId ⊆
      (grantsOf s runId).map Grant.attemptId := by
    intro attemptId hmem
    obtain ⟨x, hx, rfl⟩ := List.mem_map.mp hmem
    rw [List.mem_filter, decide_eq_true_eq] at hx
    refine List.mem_map.mpr ⟨⟨x.runId, x.attemptId, x.workerId⟩, ?_, rfl⟩
    rw [grantsOf, List.mem_filter, decide_eq_true_eq]
    exact ⟨h.granted x hx.1, hx.2⟩
  have hlength := (List.subperm_of_subset hnodup hsub).length_le
  simpa using hlength

theorem Settled.reported {s : State} {x : Session} (h : Settled F hF s x)
    {result : ExecutionResult} {answer : Option Bool} (hstage : x.stage = .reported result answer)
    (hanswer : answer ≠ some false) (hcompleted : ¬ Uncompleted s x.attemptId) :
    Stored (x.redactor F hF) s x.attemptId x.workerId result := by
  rw [Settled, hstage] at h
  match answer, h with
  | some true, h => exact h
  | some false, _ => exact absurd rfl hanswer
  | none, h => exact h.resolve_right hcompleted

theorem Settled.completed {s : State} {x : Session} (h : Settled F hF s x)
    (hcompleted : ¬ Uncompleted s x.attemptId) :
    ∃ result answer, x.stage = .reported result answer ∧ answer ≠ some false := by
  unfold Settled at h
  cases hstage : x.stage with
  | working work =>
    rw [hstage] at h
    exact absurd h hcompleted
  | finished result =>
    rw [hstage] at h
    exact absurd h hcompleted
  | reported result answer =>
    refine ⟨result, answer, rfl, ?_⟩
    rintro rfl
    rw [hstage] at h
    exact hcompleted h

/-- In every reachable state an Attempt has at most one session, a Run no more sessions than
Attempts allowed, and one if it is not idempotent. Every accepted completion is what its one
session has observed, and the Attempt row holds it; a timeline that ends with a confirmed outcome
is of a session whose outcome is stored; one that was told to have lost its lease completes
nothing. -/
theorem outcomes_as_observed {d : Deployment} (h : (system F hF debug).Reachable d) :
    (d.sessions.map Session.attemptId).Nodup ∧
    (∀ r ∈ d.network.control.store.runs,
      (d.sessions.filter fun x => x.runId = r.id).length ≤ r.maxAttempts ∧
      (r.executionSnapshot.idempotent = false →
        (d.sessions.filter fun x => x.runId = r.id).length ≤ 1)) ∧
    (∀ c ∈ d.network.control.completions, ∃ x ∈ d.sessions, x.attemptId = c.attemptId ∧
      ∃ result, Observed F hF x result ∧
        Stored (x.redactor F hF) d.network.control x.attemptId c.workerId result) ∧
    ∀ x ∈ d.sessions, Delivers F d.network.control.store x ∧
      (∀ event ∈ x.timeline.events, confirms event = true → ∃ result totalDurationMs,
        event = emitResult (x.redactor F hF) totalDurationMs result ∧ Observed F hF x result ∧
          Stored (x.redactor F hF) d.network.control x.attemptId x.workerId result) ∧
      ∀ result, x.stage = .reported result (some false) →
        Uncompleted d.network.control x.attemptId := by
  have hcontrol := control_reachable h
  have haccounted := reachable_accounted h
  have hrecorded := reachable_recorded h
  refine ⟨haccounted.distinct, ?_, ?_, ?_⟩
  · intro r hr
    have hconsistent := (RunCoupling.reachable_invariant hcontrol).consistent
    have hsessions := (haccounted.sessions_length r.id).trans
      ((reachable_grantLog hcontrol).grantsOf_length r.id)
    obtain ⟨hbound, honce⟩ := ExecutionGrants.Consistent.attemptsOf_length hconsistent hr
    exact ⟨hsessions.trans hbound, fun hidempotent => hsessions.trans (honce hidempotent)⟩
  · intro c hc
    obtain ⟨x, hx, hattempt, hworker⟩ := haccounted.completed c hc
    have hsettled := haccounted.settled x hx
    have hcompleted : ¬ Uncompleted d.network.control x.attemptId :=
      fun hnone => hnone c hc hattempt.symm
    obtain ⟨result, answer, hstage, hanswer⟩ := hsettled.completed hcompleted
    refine ⟨x, hx, hattempt, result, (reported_observed (hrecorded x hx) hstage).1, ?_⟩
    rw [← hworker]
    exact hsettled.reported hstage hanswer hcompleted
  · intro x hx
    have hsettled := haccounted.settled x hx
    refine ⟨haccounted.delivered x hx, fun event hevent hconfirms => ?_, fun result hstage => ?_⟩
    · obtain ⟨result, totalDurationMs, hstage, hlast⟩ :=
        confirmed_reported (hrecorded x hx) hevent hconfirms
      rw [Settled, hstage] at hsettled
      have hobserved := (reported_observed (hrecorded x hx) hstage).1
      exact ⟨result, totalDurationMs, hlast, hobserved, hsettled⟩
    · rw [Settled, hstage] at hsettled
      exact hsettled

def seenBy (x : Session) : List TimelineEvent := x.timeline.events.map seen

/-- Every uploader sees the timeline of its session, every message a beginning of it. -/
structure Uploading (net : Network) (sessions : List Session) : Prop where
  uploaders : ∀ u ∈ net.uploaders, ∃ x ∈ sessions, x.attemptId = u.attemptId ∧
    u.timeline = seenBy x
  sent : ∀ m ∈ net.sent, ∃ x ∈ sessions, x.attemptId = m.attempt ∧ m.timeline <+: seenBy x

theorem emitAll_sent (attemptId : Uuid) (events : List ExecutionEvent) (net : Network) :
    (emitAll F attemptId events net).sent = net.sent := by
  induction events generalizing net with
  | nil => rfl
  | cons event events ih => exact ih _

theorem emitAll_uploader {attemptId : Uuid} {events : List ExecutionEvent} {net : Network}
    {u' : LiveOutput.Uploader} (h : u' ∈ (emitAll F attemptId events net).uploaders) :
    ∃ u ∈ net.uploaders, u'.attemptId = u.attemptId ∧
      u'.timeline = if u.attemptId = attemptId then u.timeline ++ events.map seen
        else u.timeline := by
  induction events generalizing net with
  | nil => exact ⟨u', h, rfl, by simp⟩
  | cons event events ih =>
    obtain ⟨u₁, hu₁, hid, htimeline⟩ := ih h
    rcases update_cases hu₁ with ⟨hmem, hother⟩ | ⟨u, hmem, hsame, rfl⟩
    · refine ⟨u₁, hmem, hid, ?_⟩
      have hne : u₁.attemptId ≠ attemptId := of_decide_eq_false hother
      rw [if_neg hne] at htimeline ⊢
      exact htimeline
    · have hid' : u.attemptId = attemptId := of_decide_eq_true hsame
      refine ⟨u, hmem, hid, ?_⟩
      have hmoved : (u.emit (seen event)).attemptId = attemptId := hid'
      rw [if_pos hmoved] at htimeline
      rw [if_pos hid', htimeline, LiveOutput.Uploader.emit, List.map_cons, List.append_assoc,
        List.singleton_append]

theorem settleUploads_uploader {attemptId : Uuid} {stage : Stage} {net : Network}
    {u : LiveOutput.Uploader} (h : u ∈ (settleUploads F attemptId stage net).uploaders) :
    u ∈ net.uploaders := by
  cases stage with
  | working work => exact h
  | finished result => exact List.mem_of_mem_filter h
  | reported result answer => exact List.mem_of_mem_filter h

theorem settleUploads_sent (attemptId : Uuid) (stage : Stage) (net : Network) :
    (settleUploads F attemptId stage net).sent = net.sent := by
  cases stage with
  | working work => rfl
  | finished result => rfl
  | reported result answer => rfl

theorem seenBy_move (x : Session) (step : SessionStep) :
    seenBy (x.move F hF debug step) = seenBy x ++ (x.advance F hF debug step).2.map seen := by
  rw [seenBy, Session.move, Timeline.events_emitAll, List.map_append]
  rfl

theorem Uploading.advance {d : Deployment} (h : Uploading d.network d.sessions)
    (hdistinct : (d.sessions.map Session.attemptId).Nodup) {x : Session} (hx : x ∈ d.sessions)
    (step : SessionStep) : Uploading (d.advance F hF debug x step).network
      (d.advance F hF debug x step).sessions := by
  -- the session of another Attempt stays, the session of this one moves
  have hmoved {y : Session} (hy : y ∈ d.sessions) :
      ∃ y' ∈ (d.advance F hF debug x step).sessions, y'.attemptId = y.attemptId ∧
        seenBy y' = if y.attemptId = x.attemptId then
          seenBy y ++ (x.advance F hF debug step).2.map seen else seenBy y := by
    by_cases hsame : y.attemptId = x.attemptId
    · rw [row_unique hdistinct hy hx hsame, if_pos rfl]
      exact ⟨x.move F hF debug step, mem_update.mpr ⟨x, hx, by simp⟩, rfl, seenBy_move x step⟩
    · rw [if_neg hsame]
      exact ⟨y, mem_update.mpr ⟨y, hy, by simp [hsame]⟩, rfl, rfl⟩
  constructor
  · intro u' hu
    obtain ⟨u, hmem, hid, htimeline⟩ := emitAll_uploader (settleUploads_uploader hu)
    obtain ⟨y, hy, hattempt, hseen⟩ := h.uploaders u hmem
    obtain ⟨y', hy', hid', hseen'⟩ := hmoved hy
    refine ⟨y', hy', hid'.trans (hattempt.trans hid.symm), ?_⟩
    rw [htimeline, hseen', hattempt, hseen]
  · intro m hm
    have hbefore : m ∈ d.network.sent := by
      rw [Deployment.advance, settleUploads_sent, emitAll_sent] at hm
      exact hm
    obtain ⟨y, hy, hattempt, hbegins⟩ := h.sent m hbefore
    obtain ⟨y', hy', hid', hseen'⟩ := hmoved hy
    refine ⟨y', hy', hid'.trans hattempt, ?_⟩
    rw [hseen']
    split
    · exact hbegins.trans (List.prefix_append _ _)
    · exact hbegins

theorem tick_same (u : LiveOutput.Uploader) :
    u.tick.attemptId = u.attemptId ∧ u.tick.timeline = u.timeline := by
  unfold LiveOutput.Uploader.tick
  split
  · exact ⟨rfl, rfl⟩
  · exact ⟨rfl, rfl⟩

/-- An event that changes no timeline and sends only what uploaders see. -/
theorem Uploading.network {net : Network} {sessions : List Session} (h : Uploading net sessions)
    {e : LiveOutput.Event} (hcaused : caused e = false) :
    Uploading (LiveOutput.next F net e) sessions := by
  have huploaders : ∀ u' ∈ net.uploadersAfter e, ∃ x ∈ sessions,
      x.attemptId = u'.attemptId ∧ u'.timeline = seenBy x := by
    intro u' hu
    cases e with
    | claim request answered now => cases hcaused
    | emit attemptId event => cases hcaused
    | stop attemptId => cases hcaused
    | control c => exact h.uploaders u' hu
    | deliver m now => exact h.uploaders u' hu
    | tick attemptId =>
      rcases update_cases hu with ⟨hmem, _⟩ | ⟨u, hmem, _, rfl⟩
      · exact h.uploaders u' hmem
      · rw [(tick_same u).1, (tick_same u).2]
        exact h.uploaders u hmem
    | answer attemptId accepted =>
      rcases update_cases hu with ⟨hmem, _⟩ | ⟨u, hmem, _, rfl⟩
      · exact h.uploaders u' hmem
      · exact h.uploaders u hmem
  have hsent : ∀ m ∈ net.sentAfter e, ∃ x ∈ sessions,
      x.attemptId = m.attempt ∧ m.timeline <+: seenBy x := by
    intro m hm
    by_cases htick : m ∈ net.sent
    · exact h.sent m htick
    · cases e with
      | tick attemptId =>
        rcases List.mem_append.mp hm with hm | hm
        · exact absurd hm htick
        · obtain ⟨u, hu, rfl⟩ := List.mem_map.mp hm
          obtain ⟨x, hx, hattempt, hseen⟩ := h.uploaders u (List.mem_of_mem_filter hu)
          refine ⟨x, hx, hattempt, ?_⟩
          rw [← hseen]
          exact List.prefix_refl _
      | claim request answered now => cases hcaused
      | emit attemptId event => cases hcaused
      | stop attemptId => cases hcaused
      | control c => exact absurd hm htick
      | deliver m' now => exact absurd hm htick
      | answer attemptId accepted => exact absurd hm htick
  exact ⟨huploaders, hsent⟩

theorem claim_uploader {net : Network} {request : ClaimRequest} {answered : Bool} {now : Instant}
    {u : LiveOutput.Uploader}
    (h : u ∈ (LiveOutput.next F net (.claim request answered now)).uploaders) :
    u ∈ net.uploaders ∨ u = .start request.attemptId request.workerId := by
  change u ∈ net.uploadersAfter (.claim request answered now) at h
  unfold Network.uploadersAfter at h
  simp only at h
  split at h
  · rcases List.mem_cons.mp h with rfl | h
    · exact .inr rfl
    · exact .inl h
  · exact .inl h

theorem Uploading.opens {d : Deployment} (h : Uploading d.network d.sessions) {args : Args}
    {envelope : DispatchEnvelope} {observationId : Uuid} {answered : Bool} {now : Instant}
    (hdistinct : ((d.claim F args envelope observationId answered now).sessions.map
      Session.attemptId).Nodup) :
    Uploading (d.claim F args envelope observationId answered now).network
      (d.claim F args envelope observationId answered now).sessions := by
  unfold Deployment.claim at hdistinct ⊢
  split
  · exact h
  · rename_i hqueue
    rw [if_neg hqueue] at hdistinct
    simp only at hdistinct ⊢
    split
    · rename_i execution hgranted
      rw [hgranted] at hdistinct
      have hfresh : ∀ x ∈ d.sessions, x.attemptId ≠ envelope.attemptId := by
        rw [List.map_cons, List.nodup_cons] at hdistinct
        exact fun x hx hsame => hdistinct.1 (List.mem_map.mpr ⟨x, hx, hsame⟩)
      constructor
      · intro u' hu
        obtain ⟨u, hmem, hid, htimeline⟩ := emitAll_uploader hu
        rcases claim_uploader hmem with hmem | rfl
        · obtain ⟨x, hx, hattempt, hseen⟩ := h.uploaders u hmem
          have hother : u.attemptId ≠ envelope.attemptId := hattempt ▸ hfresh x hx
          rw [if_neg hother] at htimeline
          exact ⟨x, List.mem_cons_of_mem _ hx, hattempt.trans hid.symm, htimeline.trans hseen⟩
        · refine ⟨_, List.mem_cons_self, hid.symm, ?_⟩
          rw [htimeline]
          exact if_pos rfl
      · intro m hm
        rw [emitAll_sent] at hm
        obtain ⟨x, hx, hattempt, hbegins⟩ := h.sent m hm
        exact ⟨x, List.mem_cons_of_mem _ hx, hattempt, hbegins⟩
    -- a claim that is not answered starts no uploader
    · exact ⟨h.uploaders, h.sent⟩

theorem Uploading.renew {d : Deployment} (h : Uploading d.network d.sessions)
    (hdistinct : (d.sessions.map Session.attemptId).Nodup) {x : Session} (hx : x ∈ d.sessions)
    (exchange : Exchange) (extension : Except (List Char) Unit) (now : Instant) :
    Uploading (d.renew F hF debug x exchange extension now).network
      (d.renew F hF debug x exchange extension now).sessions := by
  have hsessions : (d.renewed F x exchange now).sessions = d.sessions := by
    unfold Deployment.renewed
    split
    · rfl
    · rfl
  have hrenewed : Uploading (d.renewed F x exchange now).network
      (d.renewed F x exchange now).sessions := by
    unfold Deployment.renewed
    split
    · exact ⟨h.uploaders, h.sent⟩
    · exact h
  unfold Deployment.renew
  simp only
  split
  · exact hrenewed
  · rw [← hsessions] at hdistinct hx
    exact hrenewed.advance hdistinct hx _

theorem Uploading.complete {d : Deployment} (h : Uploading d.network d.sessions)
    (hdistinct : (d.sessions.map Session.attemptId).Nodup) {x : Session} (hx : x ∈ d.sessions)
    (result : ExecutionResult) (exchange : Exchange) (totalDurationMs : ℕ)
    (retryAt now : Instant) :
    Uploading (d.complete F hF debug x result exchange totalDurationMs retryAt now).network
      (d.complete F hF debug x result exchange totalDurationMs retryAt now).sessions := by
  have hsessions : (d.completed F (x.completion F hF result) exchange retryAt now).sessions =
      d.sessions := by
    unfold Deployment.completed
    split
    · rfl
    · rfl
  have hcompleted : Uploading
      (d.completed F (x.completion F hF result) exchange retryAt now).network
      (d.completed F (x.completion F hF result) exchange retryAt now).sessions := by
    unfold Deployment.completed
    split
    · exact ⟨h.uploaders, h.sent⟩
    · exact h
  rw [← hsessions] at hdistinct hx
  exact hcompleted.advance hdistinct hx _

theorem Uploading.step {d d' : Deployment} {e : Event}
    (hdistinct : (d.sessions.map Session.attemptId).Nodup)
    (hdistinct' : (d'.sessions.map Session.attemptId).Nodup) (h : Uploading d.network d.sessions)
    (hstep : (system F hF debug).Step d e d') : Uploading d'.network d'.sessions := by
  obtain ⟨henabled, rfl⟩ := hstep
  cases e with
  | network e => exact h.network henabled.1
  | claim args envelope observationId answered now => exact h.opens hdistinct'
  | work attemptId step =>
    simp only [system, next]
    split
    · rename_i x hfind
      exact h.advance hdistinct (Deployment.find_mem hfind).1 _
    · exact h
  | renew attemptId exchange extension now =>
    simp only [system, next]
    split
    · rename_i x hfind
      split
      · exact h.renew hdistinct (Deployment.find_mem hfind).1 exchange extension now
      · exact h
      · exact h
    · exact h
  | complete attemptId exchange totalDurationMs retryAt now =>
    simp only [system, next]
    split
    · rename_i x hfind
      split
      · exact h.complete hdistinct (Deployment.find_mem hfind).1 _ exchange totalDurationMs
          retryAt now
      · exact h
      · exact h
    · exact h

theorem reachable_uploading {d : Deployment} (h : (system F hF debug).Reachable d) :
    Uploading d.network d.sessions := by
  refine h.invariant_of (P := fun d => Uploading d.network d.sessions)
    (Q := (system F hF debug).Reachable) (fun _ h => h) ?_ ?_
  · rintro d ⟨⟨_, huploaders, hsent, _⟩, _⟩
    constructor
    · intro u hu
      rw [huploaders] at hu
      cases hu
    · intro m hm
      rw [hsent] at hm
      cases hm
  · intro d e d' hd h hstep
    exact h.step (reachable_accounted hd).distinct
      (reachable_accounted (hd.tail hstep)).distinct hstep

/-- The lines that some events show on a stream, as the row keeps them. -/
def liveTail (stream : Stream) (events : List ExecutionEvent) : String :=
  String.ofList (suffixWithin liveTailBytes
    (linesText (linesOf stream (LiveOutput.linesShown (events.map seen)))))

/-- The output columns of an Attempt that has not ended are empty, or the tails of the lines that
its one session had shown at some moment. -/
theorem live_output_follows_timeline {d : Deployment} (h : (system F hF debug).Reachable d)
    {a : AttemptRow} (ha : a ∈ d.network.control.store.runAttempts)
    (hopen : a.status.isTerminal = false) :
    (a.stdoutTail = none ∧ a.stderrTail = none) ∨
    ∃ x ∈ d.sessions, x.attemptId = a.id ∧ ∃ shown, shown <+: x.timeline.events ∧
      a.stdoutTail = some (liveTail .stdout shown) ∧
      a.stderrTail = some (liveTail .stderr shown) := by
  have hnetwork : (LiveOutput.system F).Reachable d.network := networkProjection.reachable h
  have hrecorded := LiveOutput.reachable_recorded F hnetwork
  have hordered := LiveOutput.reachable_ordered F hnetwork
  obtain ⟨hstdout, hstderr⟩ := hrecorded.tails a ha hopen
  cases hshown : LiveOutput.shownBy d.network.accepted a.id with
  | none =>
    rw [hshown] at hstdout hstderr
    exact .inl ⟨hstdout, hstderr⟩
  | some m =>
    obtain ⟨hmem, hattempt⟩ := SequencedLog.newest_mem hshown
    have hsent := hordered.accepted m hmem
    obtain ⟨x, hx, hid, hbegins⟩ := (reachable_uploading h).sent m hsent
    obtain ⟨shown, hbeginning, htimeline⟩ := List.prefix_map_iff.mp hbegins
    have hbuilt := hordered.built m hsent
    have htails := liveTails_eq (LiveOutput.linesShown m.timeline)
    rw [hshown, Option.map_some] at hstdout hstderr
    refine .inr ⟨x, hx, hid.trans hattempt, shown, hbeginning, ?_, ?_⟩
    · rw [hstdout, hbuilt.stdout, htails.1, htimeline]
      rfl
    · rw [hstderr, hbuilt.stderr, htails.2, htimeline]
      rfl

theorem outcomes_as_observed_demo :
    (demoSystem.run demoDeployment demoEvents).network.control.completions.length = 1 ∧
      ∀ c ∈ (demoSystem.run demoDeployment demoEvents).network.control.completions,
        ∃ x ∈ (demoSystem.run demoDeployment demoEvents).sessions, x.attemptId = c.attemptId ∧
          ∃ result, Observed RedactedContext.plainFormat RedactedContext.plainFormat_numbers
            x result ∧
            Stored (x.redactor RedactedContext.plainFormat RedactedContext.plainFormat_numbers)
              (demoSystem.run demoDeployment demoEvents).network.control x.attemptId c.workerId
              result :=
  ⟨by decide, (outcomes_as_observed demoEvents_reachable).2.2.1⟩

def demoProcess : Deployment :=
  ⟨⟨⟨emptyStore { ControlPlane.demoCatalog with
      jobs := [{ ControlPlane.demoJob with executor := .process, executable := some "/bin/date" }] }
      [], [], [], [], []⟩, [], [], []⟩, []⟩

def demoSnapshot : LiveOutput.OutputMessage :=
  ⟨"crono.worker.output.worker", ⟨7, "worker", 1, "hi\n", ""⟩,
    [.other, .other, .other, .other, .other, .stdout ['h', 'i']]⟩

/-- The worker has started a process and sends its first line, which the server stores. -/
def demoLine : List Event :=
  [.network (.control ControlPlane.demoCreate), .network (.control ControlPlane.demoClaimOutbox),
    .network (.control ControlPlane.demoMarkPublished), demoClaim, demoStart,
    .work 7 (.read .stdout [104, 105, 10]), .network (.tick 7), .network (.deliver demoSnapshot 1)]

theorem demoLine_reachable : demoSystem.Reachable (demoSystem.run demoProcess demoLine) := by
  refine ⟨demoProcess, ⟨⟨⟨_, [], ?_, by decide, rfl⟩, rfl, rfl, rfl⟩, rfl⟩, .of_admits ?_⟩
  · exact (by decide +kernel)
  · refine ⟨⟨rfl, rfl, trivial⟩, ⟨rfl, rfl, trivial⟩, ⟨rfl, rfl, List.mem_singleton.mpr rfl⟩, ?_,
      trivial, trivial, ⟨rfl, trivial⟩, ⟨rfl, ?_⟩, trivial⟩
    · exact (by decide : WorkflowStore.validateResourceName "worker" = true)
    · have hsent : demoSnapshot ∈ (demoSystem.run demoProcess (demoLine.take 7)).network.sent := by
        decide +kernel
      exact hsent

theorem live_output_follows_timeline_demo :
    ((demoSystem.run demoProcess demoLine).network.control.store.runAttempts.map fun a =>
        (a.status, a.stdoutTail)) = [(.running, some "hi\n")] ∧
      ∀ a ∈ (demoSystem.run demoProcess demoLine).network.control.store.runAttempts,
        a.status.isTerminal = false → (a.stdoutTail = none ∧ a.stderrTail = none) ∨
          ∃ x ∈ (demoSystem.run demoProcess demoLine).sessions, x.attemptId = a.id ∧
            ∃ shown, shown <+: x.timeline.events ∧
              a.stdoutTail = some (liveTail .stdout shown) ∧
              a.stderrTail = some (liveTail .stderr shown) :=
  ⟨by decide +kernel, fun _ ha hopen => live_output_follows_timeline demoLine_reachable ha hopen⟩

end WorkerReports
