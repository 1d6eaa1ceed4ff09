import Crono.ControlPlane

/-! The single-statement writes every transaction is made of. Each write says how rows may
move, so that a fact about one row, or about the primary keys, is proved once per write and
then holds of every command. -/
namespace StoreWrites

open Relation RunDomain WorkflowDomain SqlTable ControlPlaneSchema RunStore WorkflowStore
open ControlPlane
open ExecutionInputs (FloatFormat)
open StoredValues (rereadColumn)
open FallibleLists

/-- A Run keeps its pinned columns, and a terminal Run keeps every column. -/
structure RunEvolves (r r' : RunRow) : Prop where
  columns : r' = { r with
    status := r'.status
    attemptCount := r'.attemptCount
    nextRetryAt := r'.nextRetryAt
    terminalReason := r'.terminalReason
    queuedAt := r'.queuedAt
    startedAt := r'.startedAt
    completedAt := r'.completedAt }
  counted : 0 < r.attemptCount → 0 < r'.attemptCount
  settled : r.status.isTerminal = true → r' = r

def AttemptStatus.rank : AttemptStatus → ℕ
  | .pendingDispatch => 0
  | .queued => 1
  | .running => 2
  | .succeeded | .skipped | .failed | .dead | .unknown => 3

/-- An Attempt only moves forward, and keeps the worker it was granted to. -/
structure AttemptEvolves (a a' : AttemptRow) : Prop where
  id : a'.id = a.id
  run : a'.runId = a.runId
  number : a'.attempt = a.attempt
  progress : AttemptStatus.rank a.status ≤ AttemptStatus.rank a'.status
  worker : 2 ≤ AttemptStatus.rank a.status → a'.workerId = a.workerId
  settled : a.status.isTerminal = true → a' = a

structure OutboxEvolves (o o' : OutboxRow) : Prop where
  id : o'.id = o.id
  run : o'.runId = o.runId
  attempt : o'.attemptId = o.attemptId
  subject : o'.subject = o.subject
  payload : o'.payload = o.payload
  settled : o.unsettled = false → o'.unsettled = false

/-- An invocation that left `running` never changes again. -/
structure WorkflowRunEvolves (w w' : WorkflowRunRow) : Prop where
  columns : w' = { w with
    state := w'.state
    cancellationRequested := w'.cancellationRequested
    finishedAt := w'.finishedAt }
  cancelled : w.cancellationRequested = true → w'.cancellationRequested = true
  settled : w.state ≠ .running → w' = w

def WorkflowNodeState.rank : WorkflowNodeState → ℕ
  | .pending | .ready => 0
  | .running => 1
  | .succeeded | .failed | .skipped | .cancelled | .unknown => 2

structure NodeRunEvolves (n n' : WorkflowNodeRunRow) : Prop where
  columns : n' = { n with
    state := n'.state
    startedAt := n'.startedAt
    finishedAt := n'.finishedAt }
  progress : WorkflowNodeState.rank n.state ≤ WorkflowNodeState.rank n'.state
  started : 0 < WorkflowNodeState.rank n.state → n'.startedAt = n.startedAt
  settled : n.state.isTerminal = true → n' = n

/-- A pinned execution changes only by recording the Run it was pinned to. -/
structure NodeExecutionEvolves (e e' : WorkflowNodeExecutionRow) : Prop where
  columns : e' = { e with runId := e'.runId }
  launched : e'.runId = e.runId ∨ e'.runId = some e.prospectiveRunId
  settled : e.runId.isSome = true → e' = e

theorem RunEvolves.refl (r : RunRow) : RunEvolves r r := ⟨rfl, id, fun _ => rfl⟩

theorem RunEvolves.trans {r₁ r₂ r₃ : RunRow} (h : RunEvolves r₁ r₂) (k : RunEvolves r₂ r₃) :
    RunEvolves r₁ r₃ := by
  refine ⟨?_, fun hc => k.counted (h.counted hc), ?_⟩
  · rw [k.columns, h.columns]
  · intro hs
    have hr : r₂ = r₁ := h.settled hs
    subst hr
    exact k.settled hs

theorem AttemptEvolves.refl (a : AttemptRow) : AttemptEvolves a a :=
  ⟨rfl, rfl, rfl, le_rfl, fun _ => rfl, fun _ => rfl⟩

theorem AttemptEvolves.trans {a₁ a₂ a₃ : AttemptRow} (h : AttemptEvolves a₁ a₂)
    (k : AttemptEvolves a₂ a₃) : AttemptEvolves a₁ a₃ := by
  refine ⟨k.id.trans h.id, k.run.trans h.run, k.number.trans h.number,
    h.progress.trans k.progress, ?_, ?_⟩
  · intro hr
    exact (k.worker (hr.trans h.progress)).trans (h.worker hr)
  · intro hs
    have ha : a₂ = a₁ := h.settled hs
    subst ha
    exact k.settled hs

theorem OutboxEvolves.refl (o : OutboxRow) : OutboxEvolves o o :=
  ⟨rfl, rfl, rfl, rfl, rfl, fun h => h⟩

theorem OutboxEvolves.trans {o₁ o₂ o₃ : OutboxRow} (h : OutboxEvolves o₁ o₂)
    (k : OutboxEvolves o₂ o₃) : OutboxEvolves o₁ o₃ :=
  ⟨k.id.trans h.id, k.run.trans h.run, k.attempt.trans h.attempt, k.subject.trans h.subject,
    k.payload.trans h.payload, fun hs => k.settled (h.settled hs)⟩

theorem WorkflowRunEvolves.refl (w : WorkflowRunRow) : WorkflowRunEvolves w w :=
  ⟨rfl, id, fun _ => rfl⟩

theorem WorkflowRunEvolves.trans {w₁ w₂ w₃ : WorkflowRunRow} (h : WorkflowRunEvolves w₁ w₂)
    (k : WorkflowRunEvolves w₂ w₃) : WorkflowRunEvolves w₁ w₃ := by
  refine ⟨?_, fun hc => k.cancelled (h.cancelled hc), ?_⟩
  · rw [k.columns, h.columns]
  · intro hs
    have hw : w₂ = w₁ := h.settled hs
    subst hw
    exact k.settled hs

theorem NodeRunEvolves.refl (n : WorkflowNodeRunRow) : NodeRunEvolves n n :=
  ⟨rfl, le_rfl, fun _ => rfl, fun _ => rfl⟩

theorem NodeRunEvolves.trans {n₁ n₂ n₃ : WorkflowNodeRunRow} (h : NodeRunEvolves n₁ n₂)
    (k : NodeRunEvolves n₂ n₃) : NodeRunEvolves n₁ n₃ := by
  refine ⟨?_, h.progress.trans k.progress, ?_, ?_⟩
  · rw [k.columns, h.columns]
  · intro hr
    exact (k.started (hr.trans_le h.progress)).trans (h.started hr)
  · intro hs
    have hn : n₂ = n₁ := h.settled hs
    subst hn
    exact k.settled hs

theorem NodeExecutionEvolves.refl (e : WorkflowNodeExecutionRow) : NodeExecutionEvolves e e :=
  ⟨rfl, .inl rfl, fun _ => rfl⟩

theorem NodeExecutionEvolves.trans {e₁ e₂ e₃ : WorkflowNodeExecutionRow}
    (h : NodeExecutionEvolves e₁ e₂) (k : NodeExecutionEvolves e₂ e₃) :
    NodeExecutionEvolves e₁ e₃ := by
  refine ⟨?_, ?_, ?_⟩
  · rw [k.columns, h.columns]
  · have hp : e₂.prospectiveRunId = e₁.prospectiveRunId := by rw [h.columns]
    rcases k.launched with hk | hk
    · rw [hk]
      exact h.launched
    · rw [hk, hp]
      exact .inr rfl
  · intro hs
    have he : e₂ = e₁ := h.settled hs
    subst he
    exact k.settled hs

/-- What a transaction may do beside moving rows on: the live status it moves Attempts into,
the request id it creates Runs under, the format it reads pinned snapshots with when it activates
nodes, and whether it launches an invocation. -/
structure Scope where
  entry : Option AttemptStatus
  request : Option Uuid
  activating : Option FloatFormat
  launching : Bool

def Scope.plain : Scope := ⟨none, none, none, false⟩

def Scope.reserve (requestId : Uuid) : Scope := ⟨none, some requestId, none, false⟩

def Scope.enter (status : AttemptStatus) : Scope := ⟨some status, none, none, false⟩

def Scope.activate (F : FloatFormat) : Scope := ⟨none, none, some F, false⟩

def Scope.launch (F : FloatFormat) : Scope := ⟨none, none, some F, true⟩

/-- An Attempt keeps its live status and worker, or is moved into the status `entry`. -/
def Enters (entry : Option AttemptStatus) (a a' : AttemptRow) : Prop :=
  a'.status.isTerminal = false →
    (a'.status = a.status ∧ a'.workerId = a.workerId) ∨ entry = some a'.status

/-- The Run has the identifier and the snapshot that are pinned for it, the snapshot read with
`F`. -/
def PinnedAs (F : FloatFormat) (s : Store) (id : Uuid) (column : SnapshotColumn) : Prop :=
  ∃ e ∈ s.workflowNodeExecutions, e.prospectiveRunId = id ∧
    column = rereadColumn F e.executionSnapshot

structure LaunchedFor (F : FloatFormat) (s : Store) (row : RunRow) (nodeId : Uuid) : Prop where
  node : ∃ n ∈ s.workflowNodeRuns, n.id = nodeId
  origin : row.rerunOfRunId = none
  pinned : PinnedAs F s row.id row.executionSnapshot

/-- A new Run answers no request, the transaction's own, or that of a Workflow node. -/
def RunOf (scope : Scope) (s : Store) (row : RunRow) : Prop :=
  ∀ x, row.requestId = some x → scope.request = some x ∨
    ∃ F, scope.activating = some F ∧ LaunchedFor F s row x

inductive ExecutionWrite (scope : Scope) : Store → Store → Prop where
  | insertRunRequest {s t row} : scope.request = some row.requestId ∨ scope.launching = true →
      insertRunRequest row s = .ok t → ExecutionWrite scope s t
  | insertRun {s t row} : RunOf scope s row → insertRun row s = .ok t → ExecutionWrite scope s t
  | insertAttempt {s t row} : row.status = .pendingDispatch → insertAttempt row s = .ok t →
      ExecutionWrite scope s t
  | insertOutbox {s t row} : insertOutbox row s = .ok t → ExecutionWrite scope s t
  | updateRuns {s} (p f now) : (∀ r ∈ s.runs, p r = true → RunEvolves r (f r)) →
      ExecutionWrite scope s (updateRuns p f now s)
  | updateAttempts {s} (p f) : (∀ a ∈ s.runAttempts, p a = true → AttemptEvolves a (f a)) →
      (∀ a ∈ s.runAttempts, p a = true → Enters scope.entry a (f a)) →
      ExecutionWrite scope s (updateAttempts p f s)
  | updateOutbox {s} (p f) : (∀ o ∈ s.outbox, p o = true → OutboxEvolves o (f o)) →
      ExecutionWrite scope s (updateOutbox p f s)
  | record {s} (runEvents scheduleEvents schedules) : ExecutionWrite scope s
      { s with runEvents := runEvents, scheduleEvents := scheduleEvents, schedules := schedules }

inductive WorkflowWrite (scope : Scope) : Store → Store → Prop where
  | insertWorkflowRun {s t row} : scope.launching = true → insertWorkflowRun row s = .ok t →
      WorkflowWrite scope s t
  | insertNodeRun {s t row} : scope.launching = true → insertNodeRun row s = .ok t →
      WorkflowWrite scope s t
  | insertRunEdge {s t row} : scope.launching = true → insertRunEdge row s = .ok t →
      WorkflowWrite scope s t
  | insertNodeExecution {s t row} : scope.launching = true → insertNodeExecution row s = .ok t →
      WorkflowWrite scope s t
  | updateWorkflowRuns {s} (p f) :
      (∀ w ∈ s.workflowRuns, p w = true → WorkflowRunEvolves w (f w)) →
      WorkflowWrite scope s (updateWorkflowRuns p f s)
  | updateNodeRuns {s} (p f) : (∀ n ∈ s.workflowNodeRuns, p n = true → NodeRunEvolves n (f n)) →
      WorkflowWrite scope s (updateNodeRuns p f s)
  | updateNodeExecutions {s} (p f) :
      (∀ e ∈ s.workflowNodeExecutions, p e = true → NodeExecutionEvolves e (f e)) →
      WorkflowWrite scope s (updateNodeExecutions p f s)
  | deleteEvents {s} (p) : WorkflowWrite scope s
      { s with workflowCompletionEvents := s.workflowCompletionEvents.filter p }

inductive Write (scope : Scope) : Store → Store → Prop where
  | execution {s t} : ExecutionWrite scope s t → Write scope s t
  | workflow {s t} : WorkflowWrite scope s t → Write scope s t
  | editCatalog {s} (catalog schedules) : Retains catalog s →
      Write scope s { s with catalog := catalog, schedules := schedules }

abbrev ExecutionWrites (scope : Scope) := ReflTransGen (ExecutionWrite scope)

abbrev Writes (scope : Scope) := ReflTransGen (Write scope)

theorem Writes.of_execution {scope : Scope} {s t : Store} (h : ExecutionWrites scope s t) :
    Writes scope s t :=
  ReflTransGen.mono (fun _ _ => .execution) _ _ h

theorem foldl_writes {α : Type} {W : Store → Store → Prop} {f : Store → α → Store}
    (h : ∀ s a, ReflTransGen W s (f s a)) (rows : List α) (s : Store) :
    ReflTransGen W s (rows.foldl f s) := by
  induction rows generalizing s with
  | nil => exact .refl
  | cons a rows ih => exact (h s a).trans (ih (f s a))

theorem foldlM_writes {α : Type} {W : Store → Store → Prop}
    {f : Store → α → Except StoreError Store}
    (h : ∀ s a t, f s a = .ok t → ReflTransGen W s t) (rows : List α) {s t : Store}
    (ht : rows.foldlM f s = .ok t) : ReflTransGen W s t := by
  induction rows generalizing s with
  | nil =>
    cases ht
    exact .refl
  | cons a rows ih =>
    obtain ⟨s₁, h₁, h₂⟩ := ok_of_bind ht
    exact (h s a s₁ h₁).trans (ih h₂)

theorem insertRunEvent_write {scope : Scope} (runId : Uuid) (event : RunEventType)
    (now : Instant) (s : Store) : ExecutionWrite scope s (insertRunEvent runId event now s) :=
  .record _ _ _

theorem runEvolves_of_live {r r' : RunRow} (hlive : r.status.isTerminal = false)
    (hcolumns : r' = { r with
      status := r'.status
      attemptCount := r'.attemptCount
      nextRetryAt := r'.nextRetryAt
      terminalReason := r'.terminalReason
      queuedAt := r'.queuedAt
      startedAt := r'.startedAt
      completedAt := r'.completedAt })
    (hcount : 0 < r.attemptCount → 0 < r'.attemptCount) : RunEvolves r r' :=
  ⟨hcolumns, hcount, fun hs => by simp [hlive] at hs⟩

theorem createAttemptAndOutbox_writes {scope : Scope} {ids : DispatchIds} {runId queueId : Uuid}
    {attempt : ℕ} {deadline : Option Instant} {now : Instant} {s t : Store}
    (h : createAttemptAndOutbox ids runId attempt queueId deadline now s = .ok t) :
    ExecutionWrites scope s t := by
  obtain ⟨s₁, h₁, h₂⟩ := ok_of_bind h
  exact .tail (.single (.insertAttempt rfl h₁)) (.insertOutbox h₂)

theorem createNormalRun_writes {scope : Scope} {ids : DispatchIds} {prepared : PreparedRun}
    {now : Instant} {s t : Store}
    (hrequest : scope.request = some prepared.requestId ∨
      ∃ F, scope.activating = some F ∧ (∃ n ∈ s.workflowNodeRuns, n.id = prepared.requestId) ∧
        PinnedAs F s prepared.id prepared.snapshot)
    (h : createNormalRun ids prepared now s = .ok t) : ExecutionWrites scope s t := by
  obtain ⟨s₁, s₂, h₁, h₂, rfl⟩ := createNormalRun_ok h
  refine .tail (.head (.insertRun ?_ h₁) (createAttemptAndOutbox_writes h₂))
    (insertRunEvent_write _ _ _ _)
  intro x hx
  cases hx
  exact hrequest.imp id fun ⟨F, hactivating, hnode, hpinned⟩ =>
    ⟨F, hactivating, hnode, rfl, hpinned⟩

theorem createPreparedRuns_writes {scope : Scope} {fresh : FreshRuns} {now : Instant}
    {prepared : List PreparedRun} {s t : Store}
    (hrequest : ∀ p ∈ prepared, scope.request = some p.requestId)
    (h : createPreparedRuns fresh now prepared s = .ok t) : ExecutionWrites scope s t := by
  induction prepared generalizing s with
  | nil =>
    cases h
    exact .refl
  | cons p rest ih =>
    obtain ⟨s₁, h₁, h₂⟩ := ok_of_bind h
    exact (createNormalRun_writes (.inl (hrequest p List.mem_cons_self)) h₁).trans
      (ih (fun q hq => hrequest q (List.mem_cons_of_mem p hq)) h₂)

theorem createRuns_writes (R : Rendering) (requestId jobId : Uuid) (target : TargetSelection)
    (inputs : Value) (fresh : FreshRuns) (now : Instant) (s : Store) :
    ExecutionWrites (.reserve requestId) s (commitRequest s
      (createRunsTransaction R requestId jobId target inputs fresh now s)) := by
  rcases h : createRunsTransaction R requestId jobId target inputs fresh now s with e | ⟨c, t⟩
  · exact .refl
  · rcases createRunsTransaction_ok h with
      ⟨_, rfl, _⟩ | ⟨_, _, _, _, _, s₁, _, hprepared, h₁, h₂⟩
    · exact .refl
    · refine .head (.insertRunRequest (.inl rfl) h₁) (createPreparedRuns_writes ?_ h₂)
      intro p hp
      obtain ⟨_, _, hp⟩ := mapM_ok_mem hprepared hp
      rw [(prepareRun_ok hp).1]
      rfl

theorem insertRerun_writes (F : FloatFormat) (sourceId requestId runId : Uuid)
    (ids : DispatchIds) (now : Instant) (s : Store) :
    ExecutionWrites (.reserve requestId) s (commitRequest s
      (insertRerunTransaction F sourceId requestId runId ids now s)) := by
  rcases h : insertRerunTransaction F sourceId requestId runId ids now s with e | ⟨c, t⟩
  · exact .refl
  · rcases insertRerunTransaction_ok h with
      ⟨_, rfl, _⟩ | ⟨_, _, _, _, s₁, s₂, s₃, _, _, h₁, h₂, h₃, rfl⟩
    · exact .refl
    · refine .tail (.head (.insertRunRequest (.inl rfl) h₁) (.head (.insertRun ?_ h₂)
        (createAttemptAndOutbox_writes h₃))) (insertRunEvent_write _ _ _ _)
      intro x hx
      exact .inl hx

theorem insertOccurrences_writes {R : Rendering} {scheduleId : Uuid} {fresh : FreshOccurrences}
    {setInputs : Option Value} {inputs : Value} {now : Instant}
    {rows : List (PlannedOccurrence × ExecutionRow)} {s t : Store}
    (h : insertOccurrences R scheduleId fresh setInputs inputs now rows s = .ok t) :
    ExecutionWrites .plain s t := by
  induction rows generalizing s with
  | nil =>
    cases h
    exact .refl
  | cons row rest ih =>
    obtain ⟨s₁, h₁, h₂⟩ := ok_of_bind h
    refine ReflTransGen.trans ?_ (ih h₂)
    rcases insertScheduledOccurrence_ok h₁ with rfl | ⟨s₂, s₃, h₃, h₄, rfl⟩
    · exact .refl
    · have hdispatch : ExecutionWrites .plain s₂ s₃ := by
        unfold dispatchOccurrence at h₄
        split at h₄
        · exact createAttemptAndOutbox_writes h₄
        · cases h₄
          exact .refl
      exact .tail (.head (.insertRun (fun x hx => by cases hx) h₃) hdispatch) (.record _ _ _)

theorem commitSchedulePlan_writes (R : Rendering) (plan : SchedulePlan) (fresh : FreshOccurrences)
    (now : Instant) (s : Store) :
    ExecutionWrites .plain s (commitSchedulePlan R plan fresh now s).2 := by
  rcases commitSchedulePlan_cases R plan fresh now s with h | ⟨_, _, _, t, h, ht⟩
  · rw [h]
  · rw [ht]
    exact .tail (insertOccurrences_writes h) (.record _ _ _)

theorem claimOutbox_writes (owner : Uuid) (limit : ℕ) (leaseSeconds : ℤ)
    (locked : OutboxRow → Bool) (now : Instant) (s : Store) :
    ExecutionWrites .plain s (claimOutbox owner limit leaseSeconds locked now s).2 :=
  .single (.updateOutbox _ _ fun _ _ _ => ⟨rfl, rfl, rfl, rfl, rfl, fun h => h⟩)

theorem attemptEvolves_of_live {a a' : AttemptRow} (hlive : a.status.isTerminal = false)
    (hid : a'.id = a.id) (hrun : a'.runId = a.runId) (hnumber : a'.attempt = a.attempt)
    (hprogress : AttemptStatus.rank a.status ≤ AttemptStatus.rank a'.status)
    (hworker : 2 ≤ AttemptStatus.rank a.status → a'.workerId = a.workerId) : AttemptEvolves a a' :=
  ⟨hid, hrun, hnumber, hprogress, hworker, fun hs => by simp [hlive] at hs⟩

theorem settleDispatch_write {scope : Scope} (owner : Uuid) (record : OutboxRecord)
    (streamSequence : ℕ) (now : Instant) (s : Store) :
    ExecutionWrite scope s (settleDispatch owner record streamSequence now s) :=
  .updateOutbox _ _ fun _ _ _ => ⟨rfl, rfl, rfl, rfl, rfl, fun _ => rfl⟩

theorem enqueueAttempt_write (attemptId : Uuid) (s : Store) :
    ExecutionWrite (.enter .queued) s (enqueueAttempt attemptId s) := by
  refine .updateAttempts _ _ (fun a _ ha => ?_) fun a _ _ _ => .inr rfl
  simp only [Bool.and_eq_true, decide_eq_true_eq] at ha
  apply attemptEvolves_of_live <;> simp [queuedAttempt, ha.2, AttemptStatus.rank]

theorem enqueueRun_write {scope : Scope} (runId : Uuid) (now : Instant)
    (s : Store) : ExecutionWrite scope s (enqueueRun runId now s) := by
  refine .updateRuns _ _ _ fun r _ hr => ?_
  simp only [Bool.and_eq_true, decide_eq_true_eq] at hr
  exact runEvolves_of_live (by simp [hr.2]) rfl id

theorem publishDispatch_writes (owner : Uuid) (record : OutboxRecord) (streamSequence : ℕ)
    (now : Instant) (s : Store) :
    ExecutionWrites (.enter .queued) s (publishDispatch owner record streamSequence now s) :=
  .tail (.tail (.tail (.single (settleDispatch_write owner record streamSequence now s))
    (enqueueAttempt_write _ _)) (enqueueRun_write _ _ _)) (insertRunEvent_write _ _ _ _)

theorem markPublished_writes (owner : Uuid) (record : OutboxRecord) (streamSequence : ℕ)
    (now : Instant) (s : Store) :
    ExecutionWrites (.enter .queued) s (markPublished owner record streamSequence now s).2 := by
  unfold markPublished
  split
  · exact .refl
  split
  · exact .refl
  · exact publishDispatch_writes owner record streamSequence now s

theorem recordPublishFailure_writes (owner dispatchId : Uuid) (message : String)
    (nextAttemptAt : Instant) (s : Store) :
    ExecutionWrites .plain s (recordPublishFailure owner dispatchId message nextAttemptAt s) :=
  .single (.updateOutbox _ _ fun _ _ _ => ⟨rfl, rfl, rfl, rfl, rfl, fun h => h⟩)

theorem grantAttempt_write (request : ClaimRequest) (now : Instant) (s : Store) :
    ExecutionWrite (.enter .running) s (grantAttempt request now s) := by
  refine .updateAttempts _ _ (fun a _ ha => ?_) fun a _ _ _ => .inr rfl
  simp only [grantable, Bool.and_eq_true, decide_eq_true_eq] at ha
  apply attemptEvolves_of_live <;> simp [grantedAttempt, ha.1.2, AttemptStatus.rank]

theorem startRun_writes {scope : Scope} (runId : Uuid) (now : Instant)
    (s : Store) : ExecutionWrites scope s (startRun runId now s) := by
  refine .tail (.single (.updateRuns _ _ _ fun r _ hr => ?_)) (insertRunEvent_write _ _ _ _)
  simp only [queuedRun, Bool.and_eq_true, decide_eq_true_eq] at hr
  exact runEvolves_of_live (by simp [hr.2]) rfl id

theorem claimAttempt_writes (request : ClaimRequest) (now : Instant) (s : Store) :
    ExecutionWrites (.enter .running) s (claimAttempt request now s).2 := by
  have hgrant (runId : Uuid) :
      ExecutionWrites (.enter .running) s (startRun runId now (grantAttempt request now s)) :=
    .head (grantAttempt_write request now s) (startRun_writes _ _ _)
  unfold claimAttempt
  split
  · exact .refl
  split
  · exact .refl
  simp only
  split
  · exact hgrant _
  · exact hgrant _

theorem leased_iff {attemptId : Uuid} {workerId : String} {now : Instant} {a : AttemptRow} :
    leased attemptId workerId now a = true ↔ a.id = attemptId ∧ a.workerId = some workerId ∧
      a.status = .running ∧ ∃ expires, a.leaseExpiresAt = some expires ∧ now < expires := by
  simp [leased, and_assoc, Option.any_eq_true]

theorem renewLease_writes (request : LeaseRequest) (now : Instant) (s : Store) :
    ExecutionWrites .plain s (renewLease request now s).2 := by
  refine .single (.updateAttempts _ _ (fun a _ ha => ?_) fun a _ _ _ => .inl ⟨rfl, rfl⟩)
  have hrunning := (leased_iff.mp ha).2.2.1
  apply attemptEvolves_of_live <;> simp [hrunning]

theorem recordAttemptOutput_writes (request : OutputSnapshotRequest) (now : Instant) (s : Store) :
    ExecutionWrites .plain s (recordAttemptOutput request now s).2 := by
  unfold recordAttemptOutput
  split
  · exact .refl
  refine .single (.updateAttempts _ _ (fun a _ ha => ?_) fun a _ _ _ => .inl ⟨rfl, rfl⟩)
  rw [Bool.and_eq_true] at ha
  have hrunning := (leased_iff.mp ha.1).2.2.1
  apply attemptEvolves_of_live <;> simp [hrunning]

theorem enters_of_terminal {entry : Option AttemptStatus} {a a' : AttemptRow}
    (h : a'.status.isTerminal = true) : Enters entry a a' := by
  intro hlive
  simp [h] at hlive

theorem attemptStatus_terminal (request : CompletionRequest) :
    (CompletionRequest.attemptStatus request).isTerminal = true := by
  unfold CompletionRequest.attemptStatus
  split
  · rfl
  split <;> rfl

theorem rank_attemptStatus (request : CompletionRequest) :
    AttemptStatus.rank (CompletionRequest.attemptStatus request) = 3 := by
  unfold CompletionRequest.attemptStatus
  split
  · rfl
  split <;> rfl

theorem completeLease_write (request : CompletionRequest) (now : Instant) (s : Store) :
    ExecutionWrite .plain s (completeLease request now s) := by
  refine .updateAttempts _ _ (fun a _ ha => ?_) fun a _ _ =>
    enters_of_terminal (attemptStatus_terminal request)
  have hrunning := (leased_iff.mp ha).2.2.1
  apply attemptEvolves_of_live <;> simp [completedAttempt, hrunning, rank_attemptStatus]
  decide

theorem completeRun_writes (request : CompletionRequest) (run : RunRow) (retryAt now : Instant)
    (s : Store) : ExecutionWrites .plain s (completeRun request run retryAt now s) := by
  refine .tail (.single (.updateRuns _ _ _ fun r _ hr => ?_)) (insertRunEvent_write _ _ _ _)
  simp only [Bool.and_eq_true, decide_eq_true_eq] at hr
  exact runEvolves_of_live (by simp [hr.2]) rfl id

theorem completeAttempt_writes (request : CompletionRequest) (retryAt now : Instant) (s : Store) :
    ExecutionWrites .plain s (completeAttempt request retryAt now s).2 := by
  unfold completeAttempt
  split
  · exact .refl
  split
  · exact .refl
  split
  · exact .refl
  split
  · exact .refl
  · exact .head (completeLease_write request now s) (completeRun_writes _ _ _ _ _)

theorem cancelDispatch_write (dispatchId : Uuid) (now : Instant) (s : Store) :
    ExecutionWrite .plain s (cancelDispatch dispatchId now s) :=
  .updateOutbox _ _ fun _ _ _ =>
    ⟨rfl, rfl, rfl, rfl, rfl, fun _ => by simp [OutboxRow.unsettled, cancelledDispatch]⟩

theorem killAttempt_write (attemptId : Uuid) (now : Instant) (s : Store) :
    ExecutionWrite .plain s (killAttempt attemptId now s) := by
  refine .updateAttempts _ _ (fun a _ ha => ?_) fun a _ _ => enters_of_terminal rfl
  simp only [Bool.and_eq_true, decide_eq_true_eq] at ha
  apply attemptEvolves_of_live <;> simp [deadAttempt, ha.2, AttemptStatus.rank]

theorem skipRun_write (runId : Uuid) (now : Instant) (s : Store) :
    ExecutionWrite .plain s (skipRun runId now s) := by
  refine .updateRuns _ _ _ fun r _ hr => ?_
  simp only [Bool.and_eq_true, decide_eq_true_eq] at hr
  exact runEvolves_of_live (by simp [hr.2]) rfl id

theorem expireDispatch_writes (now : Instant) (s : Store) (row : OutboxRow) :
    ExecutionWrites .plain s (expireDispatch now s row) :=
  .tail (.tail (.tail (.single (cancelDispatch_write _ _ _)) (killAttempt_write _ _ _))
    (skipRun_write _ _ _)) (insertRunEvent_write _ _ _ _)

theorem rescheduleRun_write (runId : Uuid) {status : RunStatus} (attempt : ℕ) (now : Instant)
    (s : Store) (hlive : status.isTerminal = false) :
    ExecutionWrite .plain s (rescheduleRun runId status (attempt + 1) now s) := by
  refine .updateRuns _ _ _ fun r _ hr => ?_
  simp only [Bool.and_eq_true, decide_eq_true_eq] at hr
  exact runEvolves_of_live (by simp [hr.2, hlive]) rfl fun _ => Nat.succ_pos attempt

theorem reopenRun_writes {fresh : Uuid → DispatchIds} {now : Instant} {status : RunStatus}
    {runId queueId : Uuid} {attemptCount : ℕ} {s t : Store} (hlive : status.isTerminal = false)
    (h : reopenRun fresh now status runId attemptCount queueId s = .ok t) :
    ExecutionWrites .plain s t :=
  .head (rescheduleRun_write runId attemptCount now s hlive)
    (createAttemptAndOutbox_writes (reopenRun_ok h))

theorem reopenDueRetry_writes {fresh : Uuid → DispatchIds} {now : Instant} {s t : Store}
    {row : RunRow} (h : reopenDueRetry fresh now s row = .ok t) : ExecutionWrites .plain s t := by
  unfold reopenDueRetry at h
  split at h
  · cases h
  · exact reopenRun_writes rfl h

theorem endLease_write (attemptId : Uuid) (retry : Bool) (now : Instant) (s : Store) :
    ExecutionWrite .plain s (endLease attemptId retry now s) := by
  refine .updateAttempts _ _ (fun a _ ha => ?_) fun a _ _ =>
    enters_of_terminal (by cases retry <;> rfl)
  simp only [Bool.and_eq_true, decide_eq_true_eq] at ha
  cases retry <;> apply attemptEvolves_of_live <;> simp [endedAttempt, ha.2, AttemptStatus.rank]

theorem abandonRun_write (runId : Uuid) (now : Instant) (s : Store) :
    ExecutionWrite .plain s (abandonRun runId now s) := by
  refine .updateRuns _ _ _ fun r _ hr => ?_
  simp only [Bool.and_eq_true, decide_eq_true_eq] at hr
  exact runEvolves_of_live (by simp [hr.2]) rfl id

theorem expireLease_writes {fresh : Uuid → DispatchIds} {now : Instant} {s t : Store}
    {row : AttemptRow × RunRow} (h : expireLease fresh now s row = .ok t) :
    ExecutionWrites .plain s t := by
  unfold expireLease at h
  split at h
  · cases h
  split at h
  · exact .head (endLease_write _ _ _ _) (reopenRun_writes rfl h)
  · cases h
    exact .head (endLease_write _ _ _ _) (.single (abandonRun_write _ _ _))

theorem reconcile_cases (pass : RepairPass) (s : Store) :
    (RunStore.reconcile pass s).2 = s ∨
      ∃ s₁ s₂,
        reconcileDueRetries pass.limit pass.lockedRuns pass.freshRetries pass.retriesAt
          (reconcileExpiredDispatches pass.limit pass.lockedOutbox pass.dispatchesAt s) = .ok s₁ ∧
        reconcileExpiredLeases pass.limit pass.lockedLeases pass.freshLeases pass.leasesAt s₁ =
          .ok s₂ ∧
        (RunStore.reconcile pass s).2 = releaseOutboxClaims pass.releasesAt s₂ := by
  unfold RunStore.reconcile
  simp only
  rcases h₁ : reconcileDueRetries pass.limit pass.lockedRuns pass.freshRetries pass.retriesAt
      (reconcileExpiredDispatches pass.limit pass.lockedOutbox pass.dispatchesAt s) with e | s₁
  · exact .inl rfl
  rcases h₂ : reconcileExpiredLeases pass.limit pass.lockedLeases pass.freshLeases pass.leasesAt
      s₁ with e | s₂
  · left
    simp [commit, bind, Except.bind, h₂]
  · right
    exact ⟨s₁, s₂, rfl, h₂, by simp [commit, bind, Except.bind, h₂, pure, Except.pure]⟩

theorem reconcile_writes (pass : RepairPass) (s : Store) :
    ExecutionWrites .plain s (RunStore.reconcile pass s).2 := by
  rcases reconcile_cases pass s with h | ⟨s₁, s₂, h₁, h₂, h⟩
  · rw [h]
  · rw [h]
    have hdispatches : ExecutionWrites .plain s
        (reconcileExpiredDispatches pass.limit pass.lockedOutbox pass.dispatchesAt s) :=
      foldl_writes (expireDispatch_writes _) _ s
    have hretries := foldlM_writes (fun _ _ _ => reopenDueRetry_writes) _ h₁
    have hleases := foldlM_writes (fun _ _ _ => expireLease_writes) _ h₂
    exact .tail (hdispatches.trans (hretries.trans hleases))
      (.updateOutbox _ _ fun _ _ _ => ⟨rfl, rfl, rfl, rfl, rfl, fun h => h⟩)

theorem nodeRunEvolves_of_open {n n' : WorkflowNodeRunRow} (hopen : n.state.isTerminal = false)
    (hcolumns : n' = { n with
      state := n'.state
      startedAt := n'.startedAt
      finishedAt := n'.finishedAt })
    (hprogress : WorkflowNodeState.rank n.state ≤ WorkflowNodeState.rank n'.state)
    (hstarted : 0 < WorkflowNodeState.rank n.state → n'.startedAt = n.startedAt) :
    NodeRunEvolves n n' :=
  ⟨hcolumns, hprogress, hstarted, fun hs => by simp [hopen] at hs⟩

theorem recordLaunch_write {scope : Scope} (nodeId targetId : Uuid) (s : Store) :
    WorkflowWrite scope s (recordLaunch nodeId targetId s) := by
  refine .updateNodeExecutions _ _ fun e _ he => ?_
  simp only [Bool.and_eq_true, Option.isNone_iff_eq_none] at he
  exact ⟨rfl, .inr rfl, fun hs => by simp [he.2] at hs⟩

theorem startNode_write {scope : Scope} (now : Instant) (nodeId : Uuid) (s : Store) :
    WorkflowWrite scope s (startNode now nodeId s) := by
  refine .updateNodeRuns _ _ fun n _ hn => ?_
  simp only [activatable, Bool.and_eq_true, Bool.or_eq_true, decide_eq_true_eq] at hn
  apply nodeRunEvolves_of_open
  · rcases hn.1.2 with hs | hs <;> rw [hs] <;> rfl
  · rfl
  · rcases hn.1.2 with hs | hs <;> rw [hs] <;> exact Nat.zero_le _
  · intro hrank
    rcases hn.1.2 with hs | hs <;> rw [hs] at hrank <;> cases hrank

theorem createNormalRun_tables {ids : DispatchIds} {prepared : PreparedRun} {now : Instant}
    {s t : Store} (h : createNormalRun ids prepared now s = .ok t) :
    t.workflowNodeRuns = s.workflowNodeRuns ∧
      t.workflowNodeExecutions = s.workflowNodeExecutions := by
  obtain ⟨s₁, s₂, h₁, h₂, rfl⟩ := createNormalRun_ok h
  obtain ⟨_, _, _, _, _, rfl⟩ := insertRun_ok h₁
  obtain ⟨_, _, rfl⟩ := createAttemptAndOutbox_ok h₂
  exact ⟨rfl, rfl⟩

theorem recordLaunch_pinned {F : FloatFormat} {s : Store} {id : Uuid} {column : SnapshotColumn}
    (h : PinnedAs F s id column) (nodeId targetId : Uuid) :
    PinnedAs F (recordLaunch nodeId targetId s) id column := by
  obtain ⟨e, he, hid, hcolumn⟩ := h
  refine ⟨_, mem_update.mpr ⟨e, he, rfl⟩, ?_, ?_⟩
  · split
    · exact hid
    · exact hid
  · split
    · exact hcolumn
    · exact hcolumn

theorem launchExecutions_writes {scope : Scope} {dispatch : Launching}
    (hscope : scope.activating = some dispatch.floats) {nodeId jobId : Uuid} {now : Instant}
    {executions : List WorkflowNodeExecutionRow} {s t : Store}
    (hnode : ∃ n ∈ s.workflowNodeRuns, n.id = nodeId)
    (hpinned : ∀ e ∈ executions, PinnedAs dispatch.floats s e.prospectiveRunId
      (rereadColumn dispatch.floats e.executionSnapshot))
    (h : launchExecutions dispatch nodeId jobId now executions s = .ok t) : Writes scope s t := by
  induction executions generalizing s with
  | nil =>
    cases h
    exact .refl
  | cons e rest ih =>
    obtain ⟨s₁, h₁, h₂⟩ := ok_of_bind h
    obtain ⟨hnodes, hexecutions⟩ := createNormalRun_tables h₁
    have hfirst := hpinned e List.mem_cons_self
    refine (Writes.of_execution (createNormalRun_writes (.inr ⟨_, hscope, hnode, hfirst⟩)
      h₁)).trans (.head (.workflow (recordLaunch_write _ _ _)) (ih ?_ ?_ h₂))
    · rw [← hnodes] at hnode
      exact hnode
    · intro e' he'
      apply recordLaunch_pinned
      rw [PinnedAs, hexecutions]
      exact hpinned e' (List.mem_cons_of_mem e he')

theorem activate_writes {scope : Scope} {dispatch : Launching}
    (hscope : scope.activating = some dispatch.floats) {now : Instant} {nodeId : Uuid}
    {s t : Store}
    (h : activate dispatch now nodeId s = .ok t) :
    Writes scope s t := by
  unfold activate at h
  split at h
  · cases h
    exact .refl
  · rename_i node hfind
    refine .head (.workflow (startNode_write now nodeId s))
      (launchExecutions_writes hscope ?_ ?_ h)
    · have hactivatable := List.find?_some hfind
      have hid : node.id = nodeId := by
        simp only [activatable, Bool.and_eq_true, decide_eq_true_eq] at hactivatable
        exact hactivatable.1.1
      exact ⟨_, mem_update.mpr ⟨node, List.mem_of_find?_eq_some hfind, rfl⟩,
        by simp [hactivatable, hid]⟩
    · intro e he
      simp only [preparedExecutions, List.mem_insertionSort, List.mem_filter] at he
      exact ⟨e, he.1, rfl, rfl⟩

theorem prepareExecutions_writes {R : Rendering} {fresh : FreshLaunch} {definition : StoredWorkflow}
    {launch : WorkflowLaunch} {node : StoredNode} {setInputs : Option Value}
    {executions : List ExecutionRow} {bytes bytes' : ℕ} {s t : Store}
    (h : prepareExecutions R fresh definition launch node setInputs executions bytes s =
      .ok (bytes', t)) : Writes (.launch R.floats) s t := by
  induction executions generalizing bytes s with
  | nil =>
    cases h
    exact .refl
  | cons e rest ih =>
    obtain ⟨⟨bytes₁, s₁⟩, h₁, h₂⟩ := ok_of_bind h
    obtain ⟨row, hrow, _, _, h₁⟩ := prepareExecution_ok h₁
    exact .head (.workflow (.insertNodeExecution rfl h₁)) (ih h₂)

theorem prepareNodes_writes {R : Rendering} {fresh : FreshLaunch} {definition : StoredWorkflow}
    {launch : WorkflowLaunch} {nodes : List StoredNode} {totals : PreparedTotals} {s t : Store}
    (h : prepareNodes R fresh definition launch nodes totals s = .ok t) :
    Writes (.launch R.floats) s t := by
  induction nodes generalizing totals s with
  | nil =>
    cases h
    exact .refl
  | cons node rest ih =>
    obtain ⟨⟨totals₁, s₁⟩, h₁, h₂⟩ := ok_of_bind h
    obtain ⟨_, _, _, _, s₂, s₃, h₃, _, _, h₄, _, h₅⟩ := prepareNode_ok h₁
    exact .head (.workflow (.insertNodeRun rfl h₃))
      (.head (.execution (.insertRunRequest (.inr rfl) h₄))
        ((prepareExecutions_writes h₅).trans (ih h₂)))

theorem insertRunEdges_writes {F : FloatFormat} {fresh : FreshLaunch}
    {definition : StoredWorkflow} {edges : List WorkflowEdge} {s t : Store}
    (h : insertRunEdges fresh definition edges s = .ok t) : Writes (.launch F) s t := by
  induction edges generalizing s with
  | nil =>
    cases h
    exact .refl
  | cons edge rest ih =>
    obtain ⟨_, _, h⟩ := ok_of_bind h
    obtain ⟨_, _, h⟩ := ok_of_bind h
    obtain ⟨s₁, h₁, h₂⟩ := ok_of_bind h
    exact .head (.workflow (.insertRunEdge rfl h₁)) (ih h₂)

theorem activateRoots_writes {scope : Scope} {F : FloatFormat}
    (hscope : scope.activating = some F) {fresh : FreshLaunch} {definition : StoredWorkflow}
    {now : Instant} {nodes : List StoredNode} {s t : Store}
    (h : activateRoots F fresh definition now nodes s = .ok t) : Writes scope s t := by
  induction nodes generalizing s with
  | nil =>
    cases h
    exact .refl
  | cons node rest ih =>
    unfold activateRoots at h
    split at h
    · exact ih h
    · obtain ⟨s₁, h₁, h₂⟩ := ok_of_bind h
      exact (activate_writes hscope h₁).trans (ih h₂)

theorem start_writes (R : Rendering) (fresh : FreshLaunch) (launch : WorkflowLaunch)
    (now : Instant) (s : Store) : Writes (.launch R.floats) s (start R fresh launch now s).2 := by
  rcases start_cases R fresh launch now s with h | ⟨_, t, h, ht⟩
  · rw [h]
  · rw [ht]
    obtain ⟨_, _, s₁, s₂, s₃, h₁, h₂, h₃, h₄, _, _⟩ := startFresh_ok h
    exact .head (.workflow (.insertWorkflowRun rfl h₁)) ((prepareNodes_writes h₂).trans
      ((insertRunEdges_writes h₃).trans (activateRoots_writes rfl h₄)))

theorem completionState_terminal (statuses : List RunStatus) :
    (completionState statuses).isTerminal = true ∧
      WorkflowNodeState.rank (completionState statuses) = 2 := by
  unfold completionState
  repeat (first | exact ⟨rfl, rfl⟩ | split)

theorem completeNode_writes {scope : Scope} (statuses : List RunStatus) (now : Instant)
    (nodeId : Uuid) (s : Store) : Writes scope s (completeNode statuses now nodeId s).2 := by
  unfold completeNode
  split
  · exact .refl
  · refine .single (.workflow (.updateNodeRuns _ _ fun n _ hn => ?_))
    simp only [Bool.and_eq_true, decide_eq_true_eq] at hn
    apply nodeRunEvolves_of_open
    · rw [hn.2]; rfl
    · rfl
    · rw [hn.2, (completionState_terminal statuses).2]; decide
    · exact fun _ => rfl

theorem completeNodes_writes {scope : Scope} (order : QueueOrder)
    (observed : Uuid → List RunStatus) (now : Instant) (nodes downstream : List Uuid) (s : Store) :
    Writes scope s (completeNodes order observed now nodes downstream s).2 := by
  induction nodes generalizing downstream s with
  | nil => exact .refl
  | cons nodeId rest ih => exact (completeNode_writes _ _ _ s).trans (ih _ _)

theorem skipNode_write {scope : Scope} (now : Instant) (id : Uuid) (s : Store) :
    Write scope s (skipNode now id s) := by
  refine .workflow (.updateNodeRuns _ _ fun n _ hn => ?_)
  simp only [Bool.and_eq_true, decide_eq_true_eq] at hn
  apply nodeRunEvolves_of_open
  · rw [hn.2]; rfl
  · rfl
  · rw [hn.2]; exact Nat.zero_le _
  · exact fun _ => rfl

theorem propagate_writes {order : QueueOrder} {dispatch : Launching}
    {now : Instant} {rounds : ℕ} {queue : List Uuid} {s t : Store}
    (h : propagate order dispatch now rounds queue s = .ok t) :
    Writes (.activate dispatch.floats) s t := by
  induction rounds generalizing queue s with
  | zero =>
    cases queue with
    | nil =>
      cases h
      exact .refl
    | cons => cases h
  | succ rounds ih =>
    cases queue with
    | nil =>
      cases h
      exact .refl
    | cons id queue =>
      unfold propagate at h
      split at h
      · cases h
      · exact ih h
      · split at h
        · exact ih h
        · obtain ⟨s₁, h₁, h₂⟩ := ok_of_bind h
          exact (activate_writes rfl h₁).trans (ih h₂)
        · exact .head (skipNode_write now id s) (ih h)

theorem finish_write {scope : Scope} (now : Instant) (id : Uuid) (s : Store) :
    Write scope s (finish now id s) := by
  refine .workflow (.updateWorkflowRuns _ _ fun w _ hw => ?_)
  simp only [Bool.and_eq_true, decide_eq_true_eq] at hw
  exact ⟨rfl, fun hc => hc, fun hs => absurd hw.1.2 hs⟩

theorem reconcileInvocation_writes (order : QueueOrder) (dispatch : Launching)
    (observed : Uuid → List RunStatus) (now : Instant) (workflowRunId : Uuid)
    (events : List (Uuid × Uuid)) (s : Store) :
    Writes (.activate dispatch.floats) s
      (reconcileInvocation order dispatch observed now workflowRunId events s).2 := by
  rcases reconcileInvocation_cases order dispatch observed now workflowRunId events s with
    h | ⟨t, h, ht⟩
  · rw [h]
  · rw [ht]
    exact .tail (.tail ((completeNodes_writes _ _ _ _ _ s).trans (propagate_writes h))
      (finish_write now workflowRunId t)) (.workflow (.deleteEvents _))

def executionKey (e : WorkflowNodeExecutionRow) : Uuid × Uuid := (e.nodeRunId, e.targetId)

structure KeysUnique (s : Store) : Prop where
  requests : (s.runRequests.map RunRequestRow.requestId).Nodup
  runs : (s.runs.map RunRow.id).Nodup
  attempts : (s.runAttempts.map AttemptRow.id).Nodup
  outbox : (s.outbox.map OutboxRow.id).Nodup
  outbox_attempts : (s.outbox.map OutboxRow.attemptId).Nodup
  workflowRuns : (s.workflowRuns.map WorkflowRunRow.id).Nodup
  workflowRequests : (s.workflowRuns.map WorkflowRunRow.requestId).Nodup
  nodeRuns : (s.workflowNodeRuns.map WorkflowNodeRunRow.id).Nodup
  executions : (s.workflowNodeExecutions.map executionKey).Nodup
  prospective : (s.workflowNodeExecutions.map WorkflowNodeExecutionRow.prospectiveRunId).Nodup

theorem ExecutionWrite.keysUnique {scope : Scope} {s t : Store}
    (h : ExecutionWrite scope s t) (hk : KeysUnique s) :
    KeysUnique t := by
  cases h with
  | insertRunRequest _ h =>
    obtain ⟨hfresh, rfl⟩ := insertRunRequest_ok h
    exact { hk with requests := nodup_append_key hk.requests hfresh }
  | insertRun _ h =>
    obtain ⟨hfresh, _, _, _, _, rfl⟩ := insertRun_ok h
    exact { hk with runs := nodup_append_key hk.runs hfresh }
  | insertAttempt _ h =>
    obtain ⟨hfresh, rfl⟩ := insertAttempt_ok h
    exact { hk with attempts := nodup_append_key hk.attempts hfresh }
  | insertOutbox h =>
    obtain ⟨hfresh, rfl⟩ := insertOutbox_ok h
    exact { hk with
      outbox := nodup_append_key hk.outbox fun o ho => (hfresh o ho).1
      outbox_attempts := nodup_append_key hk.outbox_attempts fun o ho => (hfresh o ho).2 }
  | updateRuns p f now h =>
    have hkey : ∀ r ∈ s.runs, p r = true → (f r).id = r.id := fun r hr hp => by
      rw [(h r hr hp).columns]
    exact { hk with runs := (map_update hkey).symm ▸ hk.runs }
  | updateAttempts p f h _ =>
    have hkey : ∀ a ∈ s.runAttempts, p a = true → (f a).id = a.id := fun a ha hp => (h a ha hp).id
    exact { hk with attempts := (map_update hkey).symm ▸ hk.attempts }
  | updateOutbox p f h =>
    have hid : ∀ o ∈ s.outbox, p o = true → (f o).id = o.id := fun o ho hp => (h o ho hp).id
    have hattempt : ∀ o ∈ s.outbox, p o = true → (f o).attemptId = o.attemptId :=
      fun o ho hp => (h o ho hp).attempt
    exact { hk with
      outbox := (map_update hid).symm ▸ hk.outbox
      outbox_attempts := (map_update hattempt).symm ▸ hk.outbox_attempts }
  | record => exact { hk with }

theorem WorkflowWrite.keysUnique {scope : Scope} {s t : Store} (h : WorkflowWrite scope s t)
    (hk : KeysUnique s) :
    KeysUnique t := by
  cases h with
  | insertWorkflowRun _ h =>
    obtain ⟨hfresh, rfl⟩ := insertWorkflowRun_ok h
    exact { hk with
      workflowRuns := nodup_append_key hk.workflowRuns fun w hw => (hfresh w hw).1
      workflowRequests := nodup_append_key hk.workflowRequests fun w hw => (hfresh w hw).2 }
  | insertNodeRun _ h =>
    obtain ⟨hfresh, _, _, rfl⟩ := insertNodeRun_ok h
    exact { hk with nodeRuns := nodup_append_key hk.nodeRuns hfresh }
  | insertRunEdge _ h =>
    obtain ⟨_, _, rfl⟩ := insertRunEdge_ok h
    exact { hk with }
  | insertNodeExecution _ h =>
    obtain ⟨hfresh, _, _, _, _, rfl⟩ := insertNodeExecution_ok h
    refine { hk with
      executions := nodup_append_key hk.executions fun e he hkey => ?_
      prospective := nodup_append_key hk.prospective fun e he => (hfresh e he).2 }
    exact (hfresh e he).1 (Prod.mk.inj hkey)
  | updateWorkflowRuns p f h =>
    have hid : ∀ w ∈ s.workflowRuns, p w = true → (f w).id = w.id := fun w hw hp => by
      rw [(h w hw hp).columns]
    have hrequest : ∀ w ∈ s.workflowRuns, p w = true → (f w).requestId = w.requestId :=
      fun w hw hp => by rw [(h w hw hp).columns]
    exact { hk with
      workflowRuns := (map_update hid).symm ▸ hk.workflowRuns
      workflowRequests := (map_update hrequest).symm ▸ hk.workflowRequests }
  | updateNodeRuns p f h =>
    have hid : ∀ n ∈ s.workflowNodeRuns, p n = true → (f n).id = n.id := fun n hn hp => by
      rw [(h n hn hp).columns]
    exact { hk with nodeRuns := (map_update hid).symm ▸ hk.nodeRuns }
  | updateNodeExecutions p f h =>
    have hkey : ∀ e ∈ s.workflowNodeExecutions, p e = true →
        executionKey (f e) = executionKey e := fun e he hp => by
      rw [(h e he hp).columns]
      rfl
    have hprospective : ∀ e ∈ s.workflowNodeExecutions, p e = true →
        (f e).prospectiveRunId = e.prospectiveRunId := fun e he hp => by
      rw [(h e he hp).columns]
    exact { hk with
      executions := (map_update hkey).symm ▸ hk.executions
      prospective := (map_update hprospective).symm ▸ hk.prospective }
  | deleteEvents => exact { hk with }

theorem Write.keysUnique {scope : Scope} {s t : Store}
    (h : Write scope s t) (hk : KeysUnique s) : KeysUnique t := by
  cases h with
  | execution h => exact h.keysUnique hk
  | workflow h => exact h.keysUnique hk
  | editCatalog => exact { hk with }

theorem Writes.keysUnique {scope : Scope} {s t : Store}
    (h : Writes scope s t) (hk : KeysUnique s) : KeysUnique t := by
  induction h with
  | refl => exact hk
  | tail _ hw ih => exact hw.keysUnique ih

theorem cancelPending_writes {now : Instant} {id : Uuid} {s : Store} (hk : KeysUnique s)
    {w : WorkflowRunRow} (hw : w ∈ s.workflowRuns) (hid : w.id = id)
    (hrunning : w.state = .running) :
    Writes .plain s (cancelPending now id s) := by
  refine .tail (.single (.workflow (.updateWorkflowRuns _ _ fun w' hw' hp => ?_)))
    (.workflow (.updateNodeRuns _ _ fun n _ hn => ?_))
  · have hsame : w' = w := row_unique hk.workflowRuns hw' hw (by simpa [hid] using hp)
    subst hsame
    exact ⟨rfl, fun _ => rfl, fun hs => absurd hrunning hs⟩
  · simp only [Bool.and_eq_true, Bool.or_eq_true, decide_eq_true_eq] at hn
    apply nodeRunEvolves_of_open
    · rcases hn.2 with hs | hs <;> rw [hs] <;> rfl
    · rfl
    · rcases hn.2 with hs | hs <;> rw [hs] <;> exact Nat.zero_le _
    · exact fun _ => rfl

theorem cancel_writes (now : Instant) (id : Uuid) {s : Store} (hk : KeysUnique s) :
    Writes .plain s (cancel now id s).2 := by
  rcases cancel_cases now id s with h | ⟨w, hw, hid, hrunning, h⟩
  · rw [h]
  · rw [h]
    exact .tail (cancelPending_writes hk hw hid hrunning) (finish_write now id _)

def scopeOf : Command → Scope
  | .createRuns _ requestId _ _ _ _ _ | .insertRerun _ _ requestId _ _ _ =>
    .reserve requestId
  | .markPublished _ _ _ _ => .enter .queued
  | .claimAttempt _ _ => .enter .running
  | .commitPass _ dispatch _ _ => .activate dispatch.floats
  | .startWorkflow R _ _ _ => .launch R.floats
  | _ => .plain

theorem transact_writes {s : State} {c : Command} (hk : KeysUnique s.store)
    (hc : Enabled s c) : Writes (scopeOf c) s.store (transact s c) := by
  cases c with
  | createRuns => exact Writes.of_execution (createRuns_writes _ _ _ _ _ _ _ _)
  | insertRerun => exact Writes.of_execution (insertRerun_writes _ _ _ _ _ _ _)
  | commitSchedulePlan => exact Writes.of_execution (commitSchedulePlan_writes _ _ _ _ _)
  | claimOutbox => exact Writes.of_execution (claimOutbox_writes _ _ _ _ _ _)
  | markPublished => exact Writes.of_execution (markPublished_writes _ _ _ _ _)
  | recordPublishFailure => exact Writes.of_execution (recordPublishFailure_writes _ _ _ _ _)
  | claimAttempt => exact Writes.of_execution (claimAttempt_writes _ _ _)
  | renewLease => exact Writes.of_execution (renewLease_writes _ _ _)
  | recordAttemptOutput => exact Writes.of_execution (recordAttemptOutput_writes _ _ _)
  | completeAttempt => exact Writes.of_execution (completeAttempt_writes _ _ _ _)
  | reconcile => exact Writes.of_execution (reconcile_writes _ _)
  | startWorkflow => exact start_writes _ _ _ _ _
  | commitPass order dispatch now workflowRunId =>
    simp only [transact]
    split
    · exact .refl
    · exact reconcileInvocation_writes _ _ _ _ _ _ _
  | cancelWorkflow now workflowRunId => exact cancel_writes now workflowRunId hk
  | editCatalog catalog schedules => exact .single (.editCatalog catalog schedules hc)
  | beginPass => exact .refl
  | observeNode => exact .refl
  | abortPass => exact .refl

theorem initial_keysUnique {s : State} (h : system.initial s) : KeysUnique s.store := by
  obtain ⟨catalog, schedules, _, _, rfl⟩ := h
  constructor <;> exact List.nodup_nil

theorem reachable_keysUnique {s : State} (h : Reachable s) : KeysUnique s.store := by
  refine h.invariant (fun _ => initial_keysUnique) fun s c t hk hstep => ?_
  obtain ⟨hc, rfl⟩ := hstep
  exact (transact_writes hk hc).keysUnique hk

theorem step_writes {s t : State} {c : Command} (hs : Reachable s) (h : Step s c t) :
    Writes (scopeOf c) s.store t.store := by
  obtain ⟨hc, rfl⟩ := h
  exact transact_writes (reachable_keysUnique hs) hc

end StoreWrites
