import Crono.RunCoupling

/-! The columns written beside a status. No constraint of the schema ties them to it; every
statement that moves a Run, an Attempt or an outbox row keeps them in step. -/
namespace StampedRows

open RunDomain WorkflowDomain SqlTable ControlPlaneSchema RunStore WorkflowStore
open ControlPlane StoreWrites RunLifecycle RunCoupling
open ExecutionInputs (FloatFormat)
open FallibleLists

/-- A Run has a completion time once it ended, and a retry time while it waits for one. -/
structure StampedRun (r : RunRow) : Prop where
  completed : r.completedAt.isSome = r.status.isTerminal
  retry : r.nextRetryAt.isSome = true ↔ r.status = .retryWait
  queued : r.status = .queued → r.queuedAt.isSome = true
  started : r.status = .running → r.startedAt.isSome = true

/-- Only a running Attempt has a lease; one that no worker was granted has no output. -/
structure StampedAttempt (a : AttemptRow) : Prop where
  completed : a.completedAt.isSome = a.status.isTerminal
  leased : a.leaseExpiresAt.isSome = true ↔ a.status = .running
  granted : a.startedAt.isSome = a.workerId.isSome ∧ a.heartbeatAt.isSome = a.workerId.isSome
  started : a.status = .running → a.workerId.isSome = true
  output : a.workerId = none → a.exitCode = none ∧ a.stdoutTail = none ∧ a.stderrTail = none ∧
    a.outputSequence = 0

/-- A dispatch is published or cancelled, never both, and nobody claims a settled one. -/
structure StampedDispatch (o : OutboxRow) : Prop where
  claimed : o.claimExpiresAt.isSome = o.claimedBy.isSome
  sequence : o.natsStreamSequence.isSome = o.publishedAt.isSome
  exclusive : o.publishedAt = none ∨ o.cancelledAt = none
  settled : o.unsettled = false → o.claimedBy = none

structure Stamped (s : Store) : Prop where
  runs : ∀ r ∈ s.runs, StampedRun r
  attempts : ∀ a ∈ s.runAttempts, StampedAttempt a
  outbox : ∀ o ∈ s.outbox, StampedDispatch o

theorem Stamped.of_tables {s t : Store} (h : Stamped s) (hruns : t.runs = s.runs)
    (hattempts : t.runAttempts = s.runAttempts) (houtbox : t.outbox = s.outbox) : Stamped t :=
  ⟨hruns ▸ h.runs, hattempts ▸ h.attempts, houtbox ▸ h.outbox⟩

theorem Stamped.updateRuns {s : Store} (h : Stamped s) {p : RunRow → Bool} {f : RunRow → RunRow}
    {now : Instant} (hf : ∀ r, StampedRun r → p r = true → StampedRun (f r)) :
    Stamped (updateRuns p f now s) := by
  refine ⟨fun r hr => ?_, h.attempts, h.outbox⟩
  rcases update_cases hr with ⟨hr, _⟩ | ⟨r₀, hr₀, hp, rfl⟩
  · exact h.runs r hr
  · exact hf r₀ (h.runs r₀ hr₀) hp

theorem Stamped.updateAttempts {s : Store} (h : Stamped s) {p : AttemptRow → Bool}
    {f : AttemptRow → AttemptRow} (hf : ∀ a, StampedAttempt a → p a = true → StampedAttempt (f a)) :
    Stamped (updateAttempts p f s) := by
  refine ⟨h.runs, fun a ha => ?_, h.outbox⟩
  rcases update_cases ha with ⟨ha, _⟩ | ⟨a₀, ha₀, hp, rfl⟩
  · exact h.attempts a ha
  · exact hf a₀ (h.attempts a₀ ha₀) hp

theorem Stamped.updateOutbox {s : Store} (h : Stamped s) {p : OutboxRow → Bool}
    {f : OutboxRow → OutboxRow}
    (hf : ∀ o ∈ s.outbox, StampedDispatch o → p o = true → StampedDispatch (f o)) :
    Stamped (updateOutbox p f s) := by
  refine ⟨h.runs, h.attempts, fun o ho => ?_⟩
  rcases update_cases ho with ⟨ho, _⟩ | ⟨o₀, ho₀, hp, rfl⟩
  · exact h.outbox o ho
  · exact hf o₀ ho₀ (h.outbox o₀ ho₀) hp

theorem Stamped.insertRun {s t : Store} (h : Stamped s) {row : RunRow} (hrow : StampedRun row)
    (hinsert : insertRun row s = .ok t) : Stamped t := by
  obtain ⟨_, _, _, _, _, rfl⟩ := insertRun_ok hinsert
  refine ⟨fun r hr => ?_, h.attempts, h.outbox⟩
  rcases List.mem_append.mp hr with hr | hr
  · exact h.runs r hr
  · rw [List.mem_singleton.mp hr]
    exact hrow

theorem newAttempt_stamped (ids : DispatchIds) (runId : Uuid) (attempt : ℕ) :
    StampedAttempt (newAttempt ids runId attempt) := by
  exact ⟨rfl, by simp [newAttempt], ⟨rfl, rfl⟩, nofun, fun _ => ⟨rfl, rfl, rfl, rfl⟩⟩

theorem newOutbox_stamped (ids : DispatchIds) (runId queueId : Uuid) (deadline : Option Instant)
    (now : Instant) : StampedDispatch (newOutbox ids runId queueId deadline now) :=
  ⟨rfl, rfl, .inl rfl, fun _ => rfl⟩

theorem Stamped.createAttemptAndOutbox {s t : Store} (h : Stamped s) {ids : DispatchIds}
    {runId queueId : Uuid} {attempt : ℕ} {deadline : Option Instant} {now : Instant}
    (hcreate : createAttemptAndOutbox ids runId attempt queueId deadline now s = .ok t) :
    Stamped t := by
  obtain ⟨_, _, rfl⟩ := createAttemptAndOutbox_ok hcreate
  refine ⟨h.runs, fun a ha => ?_, fun o ho => ?_⟩
  · rcases List.mem_append.mp ha with ha | ha
    · exact h.attempts a ha
    · rw [List.mem_singleton.mp ha]
      exact newAttempt_stamped ids runId attempt
  · rcases List.mem_append.mp ho with ho | ho
    · exact h.outbox o ho
    · rw [List.mem_singleton.mp ho]
      exact newOutbox_stamped ids runId queueId deadline now

theorem insertRunEvent_stamped {s : Store} (h : Stamped s) (runId : Uuid) (event : RunEventType)
    (now : Instant) : Stamped (insertRunEvent runId event now s) := h.of_tables rfl rfl rfl

theorem foldl_stamped {α : Type} {f : Store → α → Store} (hf : ∀ s a, Stamped s → Stamped (f s a))
    (rows : List α) {s : Store} (h : Stamped s) : Stamped (rows.foldl f s) := by
  induction rows generalizing s with
  | nil => exact h
  | cons a rows ih => exact ih (hf s a h)

theorem foldlM_stamped {α : Type} {f : Store → α → Except StoreError Store}
    (hf : ∀ s a t, Stamped s → f s a = .ok t → Stamped t) {rows : List α} {s t : Store}
    (h : Stamped s) (ht : rows.foldlM f s = .ok t) : Stamped t := by
  induction rows generalizing s with
  | nil =>
    cases ht
    exact h
  | cons a rows ih =>
    obtain ⟨s₁, h₁, h₂⟩ := ok_of_bind ht
    exact ih (hf s a s₁ h h₁) h₂

theorem normalRun_stamped (prepared : PreparedRun) (rerunOf : Option Uuid) (now : Instant) :
    StampedRun (normalRun prepared rerunOf now) where
  completed := rfl
  retry := by simp [normalRun]
  queued := nofun
  started := nofun

theorem createNormalRun_stamped {ids : DispatchIds} {prepared : PreparedRun} {now : Instant}
    {s t : Store} (h : Stamped s) (hcreate : createNormalRun ids prepared now s = .ok t) :
    Stamped t := by
  obtain ⟨s₁, s₂, h₁, h₂, rfl⟩ := createNormalRun_ok hcreate
  have hinserted := h.insertRun (normalRun_stamped prepared none now) h₁
  exact insertRunEvent_stamped (hinserted.createAttemptAndOutbox h₂) _ _ _

theorem createPreparedRuns_stamped {fresh : FreshRuns} {now : Instant}
    {prepared : List PreparedRun} {s t : Store} (h : Stamped s)
    (hcreate : createPreparedRuns fresh now prepared s = .ok t) : Stamped t := by
  induction prepared generalizing s with
  | nil =>
    cases hcreate
    exact h
  | cons p rest ih =>
    obtain ⟨s₁, h₁, h₂⟩ := ok_of_bind hcreate
    exact ih (createNormalRun_stamped h h₁) h₂

theorem insertRunRequest_stamped {row : RunRequestRow} {s t : Store} (h : Stamped s)
    (hinsert : insertRunRequest row s = .ok t) : Stamped t := by
  obtain ⟨_, rfl⟩ := insertRunRequest_ok hinsert
  exact h.of_tables rfl rfl rfl

theorem createRuns_stamped {s : Store} (h : Stamped s) (R : Rendering) (requestId jobId : Uuid)
    (target : TargetSelection) (inputs : Value) (fresh : FreshRuns) (now : Instant) : Stamped
      (commitRequest s (createRunsTransaction R requestId jobId target inputs fresh now s)) := by
  rcases hc : createRunsTransaction R requestId jobId target inputs fresh now s with e | ⟨c, t⟩
  · exact h
  · rcases createRunsTransaction_ok hc with ⟨_, rfl, _⟩ | ⟨_, _, _, _, _, s₁, _, _, h₁, h₂⟩
    · exact h
    · exact createPreparedRuns_stamped (insertRunRequest_stamped h h₁) h₂

theorem insertRerun_stamped {s : Store} (h : Stamped s) (F : FloatFormat)
    (sourceId requestId runId : Uuid) (ids : DispatchIds) (now : Instant) : Stamped
      (commitRequest s (insertRerunTransaction F sourceId requestId runId ids now s)) := by
  rcases hc : insertRerunTransaction F sourceId requestId runId ids now s with e | ⟨c, t⟩
  · exact h
  · rcases insertRerunTransaction_ok hc with
      ⟨_, rfl, _⟩ | ⟨_, _, _, _, s₁, s₂, s₃, _, _, h₁, h₂, h₃, rfl⟩
    · exact h
    · have hinserted := (insertRunRequest_stamped h h₁).insertRun (normalRun_stamped _ _ _) h₂
      exact insertRunEvent_stamped (hinserted.createAttemptAndOutbox h₃) _ _ _

theorem occurrenceRow_status (R : Rendering) (runId : Uuid) (occurrence : PlannedOccurrence)
    (execution : ExecutionRow) (setInputs : Option Value) (inputs : Value) :
    let status := (occurrenceRow R runId occurrence execution setInputs inputs).2.1
    status = .pendingDispatch ∨ status = .failed ∨ status = .skipped := by
  intro status
  simp only [status, occurrenceRow]
  split
  · exact .inl rfl
  · exact .inr (.inr rfl)
  · exact .inr (.inl rfl)

theorem insertScheduledOccurrence_stamped {R : Rendering} {scheduleId : Uuid}
    {fresh : FreshOccurrences} {occurrence : PlannedOccurrence} {execution : ExecutionRow}
    {setInputs : Option Value} {inputs : Value} {now : Instant} {s t : Store} (h : Stamped s)
    (hinsert : insertScheduledOccurrence R scheduleId fresh occurrence execution setInputs inputs
      now s = .ok t) : Stamped t := by
  rcases insertScheduledOccurrence_ok hinsert with rfl | ⟨s₁, s₂, h₁, h₂, rfl⟩
  · exact h
  have hstatus := occurrenceRow_status R (fresh.runId occurrence.scheduledAt execution.targetId)
    occurrence execution setInputs inputs
  generalize occurrenceRow R (fresh.runId occurrence.scheduledAt execution.targetId) occurrence
    execution setInputs inputs = row at h₁ h₂ hstatus ⊢
  have hrow : StampedRun (occurrenceRun (fresh.runId occurrence.scheduledAt execution.targetId)
      scheduleId occurrence execution row now) := by
    rcases hstatus with hcase | hcase | hcase <;>
      constructor <;> simp [occurrenceRun, hcase, RunStatus.isTerminal]
  have hinserted := h.insertRun hrow h₁
  by_cases hpending : row.2.1 = .pendingDispatch
  · rw [dispatchOccurrence, if_pos hpending] at h₂
    exact (hinserted.createAttemptAndOutbox h₂).of_tables rfl rfl rfl
  · rw [dispatchOccurrence, if_neg hpending] at h₂
    cases h₂
    exact hinserted.of_tables rfl rfl rfl

theorem commitSchedulePlan_stamped {s : Store} (h : Stamped s) (R : Rendering)
    (plan : SchedulePlan) (fresh : FreshOccurrences) (now : Instant) :
    Stamped (commitSchedulePlan R plan fresh now s).2 := by
  rcases commitSchedulePlan_cases R plan fresh now s with hc | ⟨setInputs, inputs, rows, t, ht, hc⟩
  · rw [hc]
    exact h
  · rw [hc]
    have hrows : Stamped t := by
      clear hc
      induction rows generalizing s with
      | nil =>
        cases ht
        exact h
      | cons row rest ih =>
        obtain ⟨s₁, h₁, h₂⟩ := ok_of_bind ht
        exact ih (insertScheduledOccurrence_stamped h h₁) h₂
    exact hrows.of_tables rfl rfl rfl

/-- The update names its candidates by key, so it claims only rows it selected. -/
theorem claimOutbox_stamped {s : Store} (h : Stamped s) (hk : KeysUnique s) (owner : Uuid)
    (limit : ℕ) (leaseSeconds : ℤ) (locked : OutboxRow → Bool) (now : Instant) :
    Stamped (claimOutbox owner limit leaseSeconds locked now s).2 := by
  refine h.updateOutbox fun o ho hstamped hp => ?_
  obtain ⟨c, hc, hid⟩ := List.any_eq_true.mp hp
  obtain ⟨hmem, hclaimable⟩ := mem_selectBatch hc
  rw [decide_eq_true_eq] at hid
  have hsame : c = o := row_unique hk.outbox hmem ho hid
  rw [hsame] at hclaimable
  simp only [claimable, Bool.and_eq_true] at hclaimable
  refine ⟨rfl, hstamped.sequence, hstamped.exclusive, fun hsettled => ?_⟩
  have hopen : o.unsettled = true := hclaimable.1.1.1
  rw [show o.unsettled = false from hsettled] at hopen
  cases hopen

theorem recordPublishFailure_stamped {s : Store} (h : Stamped s) (owner dispatchId : Uuid)
    (message : String) (nextAttemptAt : Instant) :
    Stamped (recordPublishFailure owner dispatchId message nextAttemptAt s) :=
  h.updateOutbox fun _ _ hstamped _ => ⟨rfl, hstamped.sequence, hstamped.exclusive, fun _ => rfl⟩

/-- A dispatch its owner still claims is unsettled, so publishing it does not follow a
cancellation. -/
theorem settleDispatch_stamped {s : Store} (h : Stamped s) (owner : Uuid) (record : OutboxRecord)
    (streamSequence : ℕ) (now : Instant) :
    Stamped (settleDispatch owner record streamSequence now s) := by
  refine h.updateOutbox fun o _ hstamped hp => ⟨rfl, rfl, .inr ?_, fun _ => rfl⟩
  simp only [ownedDispatch, Bool.and_eq_true, decide_eq_true_eq] at hp
  by_cases hopen : o.unsettled = true
  · simp only [OutboxRow.unsettled, Bool.and_eq_true, Option.isNone_iff_eq_none] at hopen
    exact hopen.2
  · have hnone := hstamped.settled (by simpa using hopen)
    rw [hnone] at hp
    cases hp.1.2

theorem markPublished_stamped {s : Store} (h : Stamped s) (owner : Uuid) (record : OutboxRecord)
    (streamSequence : ℕ) (now : Instant) :
    Stamped (markPublished owner record streamSequence now s).2 := by
  unfold markPublished
  split
  · exact h
  split
  · exact h
  · have hattempts : Stamped (enqueueAttempt record.attemptId
        (settleDispatch owner record streamSequence now s)) := by
      refine (settleDispatch_stamped h owner record streamSequence now).updateAttempts ?_
      intro a hstamped hp
      simp only [Bool.and_eq_true, decide_eq_true_eq] at hp
      have hleased := hstamped.leased
      have hcompleted := hstamped.completed
      rw [hp.2] at hleased hcompleted
      exact ⟨hcompleted, by simpa [queuedAttempt] using hleased, hstamped.granted,
        by simp [queuedAttempt], hstamped.output⟩
    refine insertRunEvent_stamped (hattempts.updateRuns fun r hstamped hp => ?_) _ _ _
    simp only [Bool.and_eq_true, decide_eq_true_eq] at hp
    have hcompleted := hstamped.completed
    have hretry := hstamped.retry
    rw [hp.2] at hcompleted hretry
    exact ⟨hcompleted, by simpa [queuedRow] using hretry, fun _ => rfl, by simp [queuedRow]⟩

theorem claimAttempt_stamped {s : Store} (h : Stamped s) (request : ClaimRequest)
    (now : Instant) : Stamped (claimAttempt request now s).2 := by
  have hgranted : Stamped (grantAttempt request now s) := by
    refine h.updateAttempts fun a hstamped hp => ?_
    have hqueued := (grantable_iff.mp hp).2.2.1
    have hcompleted := hstamped.completed
    rw [hqueued] at hcompleted
    exact ⟨hcompleted, by simp [grantedAttempt], ⟨rfl, rfl⟩, fun _ => rfl, by simp [grantedAttempt]⟩
  have hstarted (x : Uuid) : Stamped (startRun x now (grantAttempt request now s)) := by
    refine insertRunEvent_stamped (hgranted.updateRuns fun r hstamped hp => ?_) _ _ _
    simp only [queuedRun, Bool.and_eq_true, decide_eq_true_eq] at hp
    have hcompleted := hstamped.completed
    have hretry := hstamped.retry
    rw [hp.2] at hcompleted hretry
    refine ⟨hcompleted, by simpa [startedRow] using hretry, by simp [startedRow], fun _ => ?_⟩
    cases hstart : r.startedAt <;> simp [startedRow, hstart]
  unfold claimAttempt
  split
  · exact h
  split
  · exact h
  split
  · exact hstarted _
  · exact hstarted _

theorem renewLease_stamped {s : Store} (h : Stamped s) (request : LeaseRequest) (now : Instant) :
    Stamped (renewLease request now s).2 := by
  refine h.updateAttempts fun a hstamped hp => ?_
  obtain ⟨_, hworker, hrunning, _⟩ := leased_iff.mp hp
  exact ⟨hstamped.completed, iff_of_true rfl hrunning,
    ⟨hstamped.granted.1, by rw [hworker]; rfl⟩, hstamped.started, hstamped.output⟩

theorem recordAttemptOutput_stamped {s : Store} (h : Stamped s) (request : OutputSnapshotRequest)
    (now : Instant) : Stamped (recordAttemptOutput request now s).2 := by
  unfold recordAttemptOutput
  split
  · exact h
  · refine h.updateAttempts fun a hstamped hp => ?_
    rw [Bool.and_eq_true] at hp
    obtain ⟨_, hworker, _, _⟩ := leased_iff.mp hp.1
    refine ⟨hstamped.completed, hstamped.leased, hstamped.granted, hstamped.started, ?_⟩
    intro hnone
    rw [show a.workerId = none from hnone] at hworker
    cases hworker

theorem completeAttempt_stamped {s : Store} (h : Stamped s) (request : CompletionRequest)
    (retryAt now : Instant) : Stamped (completeAttempt request retryAt now s).2 := by
  have hleases : Stamped (completeLease request now s) := by
    refine h.updateAttempts fun a hstamped hp => ?_
    obtain ⟨_, hworker, _, _⟩ := leased_iff.mp hp
    have hended := attemptStatus_terminal request
    refine ⟨hended.symm, ?_, hstamped.granted, fun hrunning => ?_, fun hnone => ?_⟩
    · refine iff_of_false Bool.false_ne_true fun hrunning => ?_
      rw [show CompletionRequest.attemptStatus request = .running from hrunning] at hended
      cases hended
    · rw [show CompletionRequest.attemptStatus request = .running from hrunning] at hended
      cases hended
    · rw [show a.workerId = none from hnone] at hworker
      cases hworker
  unfold completeAttempt
  split
  · exact h
  split
  · exact h
  split
  · exact h
  rename_i run _
  split
  · exact h
  · refine insertRunEvent_stamped (hleases.updateRuns fun r hstamped _ => ?_) _ _ _
    have hcases : (completionStatus request run = .retryWait ∧ shouldRetry request run = true) ∨
        ((completionStatus request run).isTerminal = true ∧ shouldRetry request run = false) := by
      unfold completionStatus shouldRetry
      cases request.skipped <;> cases request.succeeded <;>
        cases run.executionSnapshot.idempotent <;>
        by_cases hbound : run.attemptCount < run.maxAttempts <;>
        simp [hbound, RunStatus.isTerminal]
    rcases hcases with ⟨hretry, hshould⟩ | ⟨hended, hshould⟩
    · constructor <;> simp [completedRow, hretry, hshould]
    · have hnot : completionStatus request run ≠ .retryWait := fun hwait => by
        rw [hwait] at hended
        cases hended
      refine ⟨?_, ?_, fun hqueued => ?_, fun hrunning => ?_⟩
      · simp [completedRow, hended, hnot]
      · simp [completedRow, hshould, hnot]
      · rw [show completionStatus request run = .queued from hqueued] at hended
        cases hended
      · rw [show completionStatus request run = .running from hrunning] at hended
        cases hended

theorem expireDispatch_stamped {s : Store} (h : Stamped s) (now : Instant) (row : OutboxRow) :
    Stamped (expireDispatch now s row) := by
  have hcancelled : Stamped (cancelDispatch row.id now s) := by
    refine h.updateOutbox fun o _ hstamped hp => ?_
    simp only [OutboxRow.unsettled, Bool.and_eq_true, Option.isNone_iff_eq_none] at hp
    exact ⟨rfl, hstamped.sequence, .inl hp.2.1, fun _ => rfl⟩
  have hkilled : Stamped (killAttempt row.attemptId now (cancelDispatch row.id now s)) := by
    refine hcancelled.updateAttempts fun a hstamped hp => ?_
    simp only [Bool.and_eq_true, decide_eq_true_eq] at hp
    have hleased := hstamped.leased
    rw [hp.2] at hleased
    exact ⟨rfl, by simpa [deadAttempt] using hleased, hstamped.granted,
      by simp [deadAttempt], hstamped.output⟩
  refine insertRunEvent_stamped (hkilled.updateRuns fun r hstamped hp => ?_) _ _ _
  simp only [Bool.and_eq_true, decide_eq_true_eq] at hp
  have hretry := hstamped.retry
  rw [hp.2] at hretry
  exact ⟨rfl, by simpa [skippedRow] using hretry, by simp [skippedRow], by simp [skippedRow]⟩

theorem reopenRun_stamped {s t : Store} (h : Stamped s) {fresh : Uuid → DispatchIds}
    {now : Instant} {status : RunStatus} {runId queueId : Uuid} {attemptCount : ℕ}
    (hlive : status.isTerminal = false)
    (hreopen : reopenRun fresh now status runId attemptCount queueId s = .ok t) : Stamped t := by
  have hrescheduled : Stamped (rescheduleRun runId status (attemptCount + 1) now s) := by
    refine h.updateRuns fun r hstamped hp => ?_
    simp only [Bool.and_eq_true, decide_eq_true_eq] at hp
    have hcompleted := hstamped.completed
    rw [hp.2, hlive] at hcompleted
    exact ⟨hcompleted, by simp [rescheduledRow], nofun, nofun⟩
  exact hrescheduled.createAttemptAndOutbox (reopenRun_ok hreopen)

theorem reopenDueRetry_stamped {s t : Store} (h : Stamped s) {fresh : Uuid → DispatchIds}
    {now : Instant} {row : RunRow} (hreopen : reopenDueRetry fresh now s row = .ok t) :
    Stamped t := by
  unfold reopenDueRetry at hreopen
  split at hreopen
  · cases hreopen
  · exact reopenRun_stamped h rfl hreopen

theorem endLease_stamped {s : Store} (h : Stamped s) (attemptId : Uuid) (retry : Bool)
    (now : Instant) : Stamped (endLease attemptId retry now s) := by
  refine h.updateAttempts fun a hstamped hp => ?_
  simp only [Bool.and_eq_true, decide_eq_true_eq] at hp
  have hworker := hstamped.started hp.2
  refine ⟨?_, ?_, hstamped.granted, fun _ => hworker, fun hnone => ?_⟩
  · cases retry <;> rfl
  · cases retry <;> simp [endedAttempt]
  · rw [show a.workerId = none from hnone] at hworker
    cases hworker

theorem expireLease_stamped {s t : Store} (h : Stamped s) {fresh : Uuid → DispatchIds}
    {now : Instant} {row : AttemptRow × RunRow} (hexpire : expireLease fresh now s row = .ok t) :
    Stamped t := by
  unfold expireLease at hexpire
  split at hexpire
  · cases hexpire
  split at hexpire
  · exact reopenRun_stamped (endLease_stamped h _ _ _) rfl hexpire
  · cases hexpire
    refine (endLease_stamped h _ _ _).updateRuns fun r hstamped hp => ?_
    simp only [Bool.and_eq_true, decide_eq_true_eq] at hp
    have hretry := hstamped.retry
    rw [hp.2] at hretry
    exact ⟨rfl, by simpa [abandonedRow] using hretry, nofun, nofun⟩

theorem reconcile_stamped {s : Store} (h : Stamped s) (pass : RepairPass) :
    Stamped (RunStore.reconcile pass s).2 := by
  rcases reconcile_cases pass s with hr | ⟨s₁, s₂, h₁, h₂, hr⟩
  · rw [hr]
    exact h
  · rw [hr]
    have hexpired : Stamped
        (reconcileExpiredDispatches pass.limit pass.lockedOutbox pass.dispatchesAt s) :=
      foldl_stamped (fun _ row hs => expireDispatch_stamped hs pass.dispatchesAt row) _ h
    have hreopened := foldlM_stamped (fun _ _ _ hs => reopenDueRetry_stamped hs) hexpired h₁
    have hended := foldlM_stamped (fun _ _ _ hs => expireLease_stamped hs) hreopened h₂
    exact hended.updateOutbox fun o _ hstamped _ =>
      ⟨rfl, hstamped.sequence, hstamped.exclusive, fun _ => rfl⟩

/-- What the orchestrator does to the execution plane: it creates Runs one by one. -/
inductive Launches : Store → Store → Prop where
  | refl (s) : Launches s s
  | create {s t u ids prepared now} : Launches s t → createNormalRun ids prepared now t = .ok u →
      Launches s u
  | keep {s t u} : Launches s t → u.runs = t.runs → u.runAttempts = t.runAttempts →
      u.outbox = t.outbox → Launches s u

theorem Launches.trans {s t u : Store} (h : Launches s t) (k : Launches t u) : Launches s u := by
  induction k with
  | refl => exact h
  | create _ hcreate ih => exact .create ih hcreate
  | keep _ hruns hattempts houtbox ih => exact .keep ih hruns hattempts houtbox

theorem Launches.of_tables {s t : Store} (hruns : t.runs = s.runs)
    (hattempts : t.runAttempts = s.runAttempts) (houtbox : t.outbox = s.outbox) : Launches s t :=
  .keep (.refl s) hruns hattempts houtbox

theorem Launches.stamped {s t : Store} (h : Launches s t) (hs : Stamped s) : Stamped t := by
  induction h with
  | refl => exact hs
  | create _ hcreate ih => exact createNormalRun_stamped ih hcreate
  | keep _ hruns hattempts houtbox ih => exact ih.of_tables hruns hattempts houtbox

theorem launchExecutions_launches {dispatch : Launching} {nodeId jobId : Uuid}
    {now : Instant} {executions : List WorkflowNodeExecutionRow} {s t : Store}
    (h : launchExecutions dispatch nodeId jobId now executions s = .ok t) : Launches s t := by
  induction executions generalizing s with
  | nil =>
    cases h
    exact .refl _
  | cons e rest ih =>
    obtain ⟨s₁, h₁, h₂⟩ := ok_of_bind h
    have hcreated : Launches s s₁ := .create (.refl s) h₁
    have hrecorded : Launches s (recordLaunch nodeId e.targetId s₁) := .keep hcreated rfl rfl rfl
    exact hrecorded.trans (ih h₂)

theorem activate_launches {dispatch : Launching} {now : Instant} {nodeId : Uuid}
    {s t : Store} (h : activate dispatch now nodeId s = .ok t) : Launches s t := by
  unfold activate at h
  split at h
  · cases h
    exact .refl _
  · have hstarted : Launches s (startNode now nodeId s) := .of_tables rfl rfl rfl
    exact hstarted.trans (launchExecutions_launches h)

theorem activateRoots_launches {F : FloatFormat} {fresh : FreshLaunch}
    {definition : StoredWorkflow} {now : Instant} {nodes : List StoredNode} {s t : Store}
    (h : activateRoots F fresh definition now nodes s = .ok t) : Launches s t := by
  induction nodes generalizing s with
  | nil =>
    cases h
    exact .refl _
  | cons node rest ih =>
    unfold activateRoots at h
    split at h
    · exact ih h
    · obtain ⟨s₁, h₁, h₂⟩ := ok_of_bind h
      exact (activate_launches h₁).trans (ih h₂)

theorem start_launches (R : Rendering) (fresh : FreshLaunch) (launch : WorkflowLaunch)
    (now : Instant) (s : Store) : Launches s (start R fresh launch now s).2 := by
  rcases start_cases R fresh launch now s with hs | ⟨_, t, ht, hs⟩
  · rw [hs]
    exact .refl s
  · rw [hs]
    obtain ⟨_, _, s₁, s₂, s₃, h₁, h₂, h₃, h₄, _, _⟩ := startFresh_ok ht
    obtain ⟨_, rfl⟩ := insertWorkflowRun_ok h₁
    obtain ⟨_, _, rfl, _⟩ := prepareNodes_ok h₂
    obtain ⟨hedges, _⟩ := insertRunEdges_ok h₃
    have htables : Launches s s₃ := by
      rw [hedges]
      exact .of_tables rfl rfl rfl
    exact htables.trans (activateRoots_launches h₄)

theorem completeNodes_launches (order : QueueOrder) (observed : Uuid → List RunStatus)
    (now : Instant) (nodes downstream : List Uuid) (s : Store) :
    Launches s (completeNodes order observed now nodes downstream s).2 := by
  induction nodes generalizing downstream s with
  | nil => exact .refl s
  | cons nodeId rest ih =>
    have hnode : Launches s (completeNode (observed nodeId) now nodeId s).2 := by
      unfold completeNode
      split
      · exact .refl s
      · exact .of_tables rfl rfl rfl
    exact hnode.trans (ih _ _)

theorem propagate_launches {order : QueueOrder} {dispatch : Launching}
    {now : Instant} {rounds : ℕ} {queue : List Uuid} {s t : Store}
    (h : propagate order dispatch now rounds queue s = .ok t) : Launches s t := by
  induction rounds generalizing queue s with
  | zero =>
    cases queue with
    | nil =>
      cases h
      exact .refl _
    | cons => cases h
  | succ rounds ih =>
    cases queue with
    | nil =>
      cases h
      exact .refl _
    | cons id queue =>
      unfold propagate at h
      split at h
      · cases h
      · exact ih h
      · split at h
        · exact ih h
        · obtain ⟨s₁, h₁, h₂⟩ := ok_of_bind h
          exact (activate_launches h₁).trans (ih h₂)
        · have hskipped : Launches s (skipNode now id s) := .of_tables rfl rfl rfl
          exact hskipped.trans (ih h)

theorem reconcileInvocation_launches (order : QueueOrder) (dispatch : Launching)
    (observed : Uuid → List RunStatus) (now : Instant) (workflowRunId : Uuid)
    (events : List (Uuid × Uuid)) (s : Store) :
    Launches s (reconcileInvocation order dispatch observed now workflowRunId events s).2 := by
  rcases reconcileInvocation_cases order dispatch observed now workflowRunId events s with
    hr | ⟨t, ht, hr⟩
  · rw [hr]
    exact .refl s
  · rw [hr]
    exact ((completeNodes_launches order observed now _ _ s).trans
      (propagate_launches ht)).trans (.of_tables rfl rfl rfl)

theorem cancel_launches (now : Instant) (id : Uuid) (s : Store) :
    Launches s (cancel now id s).2 := by
  rcases cancel_cases now id s with hc | ⟨_, _, _, _, hc⟩
  · rw [hc]
    exact .refl s
  · rw [hc]
    exact .of_tables rfl rfl rfl

theorem transact_stamped {s : State} (h : Stamped s.store) (hk : KeysUnique s.store)
    (c : Command) : Stamped (transact s c) := by
  cases c with
  | createRuns => exact createRuns_stamped h _ _ _ _ _ _ _
  | insertRerun => exact insertRerun_stamped h _ _ _ _ _ _
  | commitSchedulePlan => exact commitSchedulePlan_stamped h _ _ _ _
  | claimOutbox => exact claimOutbox_stamped h hk _ _ _ _ _
  | markPublished => exact markPublished_stamped h _ _ _ _
  | recordPublishFailure => exact recordPublishFailure_stamped h _ _ _ _
  | claimAttempt => exact claimAttempt_stamped h _ _
  | renewLease => exact renewLease_stamped h _ _
  | recordAttemptOutput => exact recordAttemptOutput_stamped h _ _
  | completeAttempt => exact completeAttempt_stamped h _ _ _
  | reconcile => exact reconcile_stamped h _
  | startWorkflow => exact (start_launches _ _ _ _ _).stamped h
  | commitPass order dispatch now workflowRunId =>
    simp only [transact]
    split
    · exact h
    · exact (reconcileInvocation_launches _ _ _ _ _ _ _).stamped h
  | cancelWorkflow => exact (cancel_launches _ _ _).stamped h
  | editCatalog => exact h.of_tables rfl rfl rfl
  | beginPass => exact h
  | observeNode => exact h
  | abortPass => exact h

theorem initial_stamped {s : State} (h : system.initial s) : Stamped s.store := by
  obtain ⟨catalog, schedules, _, _, rfl⟩ := h
  refine ⟨fun r hr => ?_, fun a ha => ?_, fun o ho => ?_⟩
  · cases hr
  · cases ha
  · cases ho

theorem reachable_stamped {s : State} (h : Reachable s) : Stamped s.store := by
  refine h.invariant_of (P := fun s => Stamped s.store) (Q := Reachable) (fun _ hs => hs)
    (fun _ => initial_stamped) ?_
  rintro s c _ hs hstamped ⟨_, rfl⟩
  exact transact_stamped hstamped (reachable_keysUnique hs) c

theorem leased_newest {s : Store} (h : Stamped s) {r : RunRow} {past : List Dispatch}
    {newest : Dispatch} (hholds : Holds s r past newest) {a : AttemptRow}
    (ha : a ∈ attemptsOf s r.id) (hleased : a.leaseExpiresAt.isSome = true) :
    a = newest.attempt ∧ r.status = .running := by
  have hrunning := (h.attempts a (mem_attemptsOf.mp ha).1).leased.mp hleased
  rw [hholds.attempts] at ha
  obtain ⟨d, hd, rfl⟩ := List.mem_map.mp ha
  have hnewest := hholds.live.newest_of_open hd (by rw [hrunning]; rfl)
  subst hnewest
  exact ⟨rfl, hholds.live.status_of_running hrunning⟩

/-- In every reachable state the columns written beside a status agree with it, a Run is
running exactly when one of its Attempts holds a lease, no two of them do, and a dispatcher
claims a dispatch only while its Run is pending. -/
theorem columns_agree_with_statuses {s : State} (h : Reachable s) :
    Stamped s.store ∧ ∀ r ∈ s.store.runs,
      (r.status = .running ↔ ∃ a ∈ attemptsOf s.store r.id, a.leaseExpiresAt.isSome = true) ∧
      (∀ a ∈ attemptsOf s.store r.id, ∀ a' ∈ attemptsOf s.store r.id,
        a.leaseExpiresAt.isSome = true → a'.leaseExpiresAt.isSome = true → a = a') ∧
      ∀ o ∈ outboxOf s.store r.id, o.claimedBy.isSome = true → r.status = .pendingDispatch := by
  have hstamped := reachable_stamped h
  have hconsistent := (reachable_invariant h).consistent
  refine ⟨hstamped, fun r hr => ?_⟩
  rcases hconsistent.run_cases hr with ⟨hattempts, houtbox, _, hended⟩ | ⟨past, newest, hholds⟩
  · rw [hattempts, houtbox]
    refine ⟨iff_of_false (fun hrunning => ?_) (by simp), by simp, by simp⟩
    rw [hrunning] at hended
    cases hended
  · have hmem := hholds.attempt_mem (List.mem_append_right past (List.mem_singleton_self newest))
    refine ⟨⟨fun hrunning => ⟨newest.attempt, ?_, ?_⟩, ?_⟩, ?_, ?_⟩
    · rw [mem_attemptsOf]
      exact ⟨hmem, hholds.live.newest_linked.attempt_run⟩
    · have hagrees := hholds.live.agrees
      simp only [Agrees, hrunning] at hagrees
      exact (hstamped.attempts _ hmem).leased.mpr hagrees
    · rintro ⟨a, ha, hleased⟩
      exact (leased_newest hstamped hholds ha hleased).2
    · intro a ha a' ha' hleased hleased'
      rw [(leased_newest hstamped hholds ha hleased).1,
        (leased_newest hstamped hholds ha' hleased').1]
    · intro o ho hclaimed
      obtain ⟨ho, hrun⟩ := mem_outboxOf.mp ho
      have hopen : o.unsettled = true := by
        by_contra hsettled
        rw [(hstamped.outbox o ho).settled (by simpa using hsettled)] at hclaimed
        cases hclaimed
      obtain ⟨r', _, newest', hholds', hnewest, _, hpending⟩ := hconsistent.of_unsettled ho hopen
      have hid : r'.id = r.id := by
        rw [← hrun, ← hnewest, hholds'.live.newest_linked.outbox_run]
      rw [← row_unique hconsistent.keys.runs hholds'.run_mem hr hid]
      exact hpending

theorem columns_agree_with_statuses_demo :
    (∃ r ∈ (system.run demoInitial demoClaimed).store.runs, r.id = 6 ∧ r.status = .running) ∧
      Stamped (system.run demoInitial demoClaimed).store :=
  ⟨by decide, (columns_agree_with_statuses (demo_reachable demoClaimed_admitted)).1⟩

end StampedRows
