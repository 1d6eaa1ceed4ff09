import Crono.StampedRows

/-! What becomes of a running Attempt: only the worker that holds it writes its row, until a
repair pass finds its lease run out. -/
namespace RunningAttempts

open RunDomain SqlTable ControlPlaneSchema RunStore WorkflowStore ControlPlane StoreWrites
open ExecutionInputs (FloatFormat)
open StampedRows RunLifecycle RunCoupling
open FallibleLists

/-- The Attempts of before, and new ones that await their dispatch. -/
def Adds (s t : Store) : Prop :=
  ∃ news, t.runAttempts = s.runAttempts ++ news ∧ ∀ a ∈ news, a.status = .pendingDispatch

theorem Adds.of_eq {s t : Store} (h : t.runAttempts = s.runAttempts) : Adds s t :=
  ⟨[], by rw [h, List.append_nil], by simp⟩

theorem Adds.trans {s t u : Store} (h : Adds s t) (k : Adds t u) : Adds s u := by
  obtain ⟨news, hnews, hwaiting⟩ := h
  obtain ⟨more, hmore, hlater⟩ := k
  refine ⟨news ++ more, by rw [hmore, hnews, List.append_assoc], ?_⟩
  intro a ha
  rcases List.mem_append.mp ha with ha | ha
  · exact hwaiting a ha
  · exact hlater a ha

theorem createAttemptAndOutbox_adds {ids : DispatchIds} {runId queueId : Uuid} {attempt : ℕ}
    {deadline : Option Instant} {now : Instant} {s t : Store}
    (h : createAttemptAndOutbox ids runId attempt queueId deadline now s = .ok t) : Adds s t := by
  obtain ⟨_, _, rfl⟩ := createAttemptAndOutbox_ok h
  refine ⟨[newAttempt ids runId attempt], rfl, fun a ha => ?_⟩
  rw [List.mem_singleton.mp ha]
  rfl

theorem insertRun_adds {row : RunRow} {s t : Store} (h : insertRun row s = .ok t) : Adds s t := by
  obtain ⟨_, _, _, _, _, rfl⟩ := insertRun_ok h
  exact .of_eq rfl

theorem insertRunRequest_adds {row : RunRequestRow} {s t : Store}
    (h : insertRunRequest row s = .ok t) : Adds s t := by
  obtain ⟨_, rfl⟩ := insertRunRequest_ok h
  exact .of_eq rfl

theorem createNormalRun_adds {ids : DispatchIds} {prepared : PreparedRun} {now : Instant}
    {s t : Store} (h : createNormalRun ids prepared now s = .ok t) : Adds s t := by
  obtain ⟨s₁, s₂, h₁, h₂, rfl⟩ := createNormalRun_ok h
  exact ((insertRun_adds h₁).trans (createAttemptAndOutbox_adds h₂)).trans (.of_eq rfl)

theorem createPreparedRuns_adds {fresh : FreshRuns} {now : Instant} {prepared : List PreparedRun}
    {s t : Store} (h : createPreparedRuns fresh now prepared s = .ok t) : Adds s t := by
  induction prepared generalizing s with
  | nil =>
    cases h
    exact .of_eq rfl
  | cons p rest ih =>
    obtain ⟨s₁, h₁, h₂⟩ := ok_of_bind h
    exact (createNormalRun_adds h₁).trans (ih h₂)

theorem launches_adds {s t : Store} (h : Launches s t) : Adds s t := by
  induction h with
  | refl => exact .of_eq rfl
  | create _ hcreate ih => exact ih.trans (createNormalRun_adds hcreate)
  | keep _ _ hattempts _ ih => exact ih.trans (.of_eq hattempts)

theorem createRuns_adds (R : Rendering) (requestId jobId : Uuid) (target : TargetSelection)
    (inputs : Value) (fresh : FreshRuns) (now : Instant) (s : Store) :
    Adds s
      (commitRequest s (createRunsTransaction R requestId jobId target inputs fresh now s)) := by
  rcases hc : createRunsTransaction R requestId jobId target inputs fresh now s with e | ⟨c, t⟩
  · exact .of_eq rfl
  · rcases createRunsTransaction_ok hc with ⟨_, rfl, _⟩ | ⟨_, _, _, _, _, s₁, _, _, h₁, h₂⟩
    · exact .of_eq rfl
    · exact (insertRunRequest_adds h₁).trans (createPreparedRuns_adds h₂)

theorem insertRerun_adds (F : FloatFormat) (sourceId requestId runId : Uuid) (ids : DispatchIds)
    (now : Instant) (s : Store) :
    Adds s (commitRequest s (insertRerunTransaction F sourceId requestId runId ids now s)) := by
  rcases hc : insertRerunTransaction F sourceId requestId runId ids now s with e | ⟨c, t⟩
  · exact .of_eq rfl
  · rcases insertRerunTransaction_ok hc with
      ⟨_, rfl, _⟩ | ⟨_, _, _, _, s₁, s₂, s₃, _, _, h₁, h₂, h₃, rfl⟩
    · exact .of_eq rfl
    · have hrun := (insertRunRequest_adds h₁).trans (insertRun_adds h₂)
      exact (hrun.trans (createAttemptAndOutbox_adds h₃)).trans (.of_eq rfl)

theorem insertScheduledOccurrence_adds {R : Rendering} {scheduleId : Uuid}
    {fresh : FreshOccurrences} {occurrence : PlannedOccurrence} {execution : ExecutionRow}
    {setInputs : Option Value} {inputs : Value} {now : Instant} {s t : Store}
    (h : insertScheduledOccurrence R scheduleId fresh occurrence execution setInputs inputs now s =
      .ok t) : Adds s t := by
  rcases insertScheduledOccurrence_ok h with rfl | ⟨s₁, s₂, h₁, h₂, rfl⟩
  · exact .of_eq rfl
  have hdispatched : Adds s₁ s₂ := by
    unfold dispatchOccurrence at h₂
    split at h₂
    · exact createAttemptAndOutbox_adds h₂
    · cases h₂
      exact .of_eq rfl
  exact ((insertRun_adds h₁).trans hdispatched).trans (.of_eq rfl)

theorem commitSchedulePlan_adds (R : Rendering) (plan : SchedulePlan) (fresh : FreshOccurrences)
    (now : Instant) (s : Store) : Adds s (commitSchedulePlan R plan fresh now s).2 := by
  rcases commitSchedulePlan_cases R plan fresh now s with hc | ⟨setInputs, inputs, rows, t, ht, hc⟩
  · rw [hc]
    exact .of_eq rfl
  · rw [hc]
    have hrows : Adds s t := by
      clear hc
      induction rows generalizing s with
      | nil =>
        cases ht
        exact .of_eq rfl
      | cons row rest ih =>
        obtain ⟨s₁, h₁, h₂⟩ := ok_of_bind ht
        exact (insertScheduledOccurrence_adds h₁).trans (ih s₁ h₂)
    exact hrows.trans (.of_eq rfl)

def Leaves (s t : Store) : Prop := ∀ a ∈ s.runAttempts, a.status = .running → a ∈ t.runAttempts

theorem Adds.leaves {s t : Store} (h : Adds s t) : Leaves s t := by
  obtain ⟨news, hnews, _⟩ := h
  intro a ha _
  rw [hnews]
  exact List.mem_append_left news ha

theorem Leaves.of_eq {s t : Store} (h : t.runAttempts = s.runAttempts) : Leaves s t :=
  (Adds.of_eq h).leaves

theorem Leaves.trans {s t u : Store} (h : Leaves s t) (k : Leaves t u) : Leaves s u :=
  fun a ha hrunning => k a (h a ha hrunning) hrunning

theorem leaves_update {s : Store} {p : AttemptRow → Bool} {f : AttemptRow → AttemptRow}
    (h : ∀ a, p a = true → a.status ≠ .running) : Leaves s (updateAttempts p f s) := by
  intro a ha hrunning
  refine mem_update.mpr ⟨a, ha, ?_⟩
  rw [if_neg fun hp => h a hp hrunning]

theorem markPublished_leaves (owner : Uuid) (record : OutboxRecord) (streamSequence : ℕ)
    (now : Instant) (s : Store) : Leaves s (markPublished owner record streamSequence now s).2 := by
  unfold markPublished
  split
  · exact .of_eq rfl
  split
  · exact .of_eq rfl
  · have hqueued : Leaves (settleDispatch owner record streamSequence now s)
        (enqueueAttempt record.attemptId (settleDispatch owner record streamSequence now s)) := by
      refine leaves_update fun a hp hrunning => ?_
      simp [hrunning] at hp
    have hsettled : Leaves s (settleDispatch owner record streamSequence now s) := .of_eq rfl
    exact (hsettled.trans hqueued).trans (.of_eq rfl)

theorem claimAttempt_leaves (request : ClaimRequest) (now : Instant) (s : Store) :
    Leaves s (claimAttempt request now s).2 := by
  have hgranted (runId : Uuid) : Leaves s (startRun runId now (grantAttempt request now s)) := by
    have hgrant : Leaves s (grantAttempt request now s) := by
      refine leaves_update fun a hp hrunning => ?_
      rw [(grantable_iff.mp hp).2.2.1] at hrunning
      cases hrunning
    exact hgrant.trans (.of_eq rfl)
  unfold claimAttempt
  split
  · exact .of_eq rfl
  split
  · exact .of_eq rfl
  simp only
  split
  · exact hgranted _
  · exact hgranted _

theorem mem_update_leased {s : Store} {p : AttemptRow → Bool} {f : AttemptRow → AttemptRow}
    {workerId : String} (hp : ∀ a, p a = true → a.workerId = some workerId) {a : AttemptRow}
    (ha : a ∈ s.runAttempts) (hother : a.workerId ≠ some workerId) :
    a ∈ (updateAttempts p f s).runAttempts := by
  refine mem_update.mpr ⟨a, ha, ?_⟩
  rw [if_neg fun hheld => hother (hp a hheld)]

theorem renewLease_other (request : LeaseRequest) (now : Instant) {s : Store} {a : AttemptRow}
    (ha : a ∈ s.runAttempts) (hother : a.workerId ≠ some request.workerId) :
    a ∈ (renewLease request now s).2.runAttempts :=
  mem_update_leased (fun _ hp => (leased_iff.mp hp).2.1) ha hother

theorem recordAttemptOutput_other (request : OutputSnapshotRequest) (now : Instant) {s : Store}
    {a : AttemptRow} (ha : a ∈ s.runAttempts) (hother : a.workerId ≠ some request.workerId) :
    a ∈ (recordAttemptOutput request now s).2.runAttempts := by
  unfold recordAttemptOutput
  split
  · exact ha
  · refine mem_update_leased (fun b hp => ?_) ha hother
    exact (leased_iff.mp (Bool.and_eq_true_iff.mp hp).1).2.1

theorem completeAttempt_other (request : CompletionRequest) (retryAt now : Instant) {s : Store}
    {a : AttemptRow} (ha : a ∈ s.runAttempts) (hother : a.workerId ≠ some request.workerId) :
    a ∈ (completeAttempt request retryAt now s).2.runAttempts := by
  unfold completeAttempt
  split
  · exact ha
  split
  · exact ha
  split
  · exact ha
  split
  · exact ha
  · exact mem_update_leased (fun _ hp => (leased_iff.mp hp).2.1) ha hother

theorem expireDispatch_leaves (now : Instant) (s : Store) (row : OutboxRow) :
    Leaves s (expireDispatch now s row) := by
  have hkilled : Leaves (cancelDispatch row.id now s)
      (killAttempt row.attemptId now (cancelDispatch row.id now s)) := by
    refine leaves_update fun a hp hrunning => ?_
    simp [hrunning] at hp
  exact (Leaves.of_eq (s := s) rfl).trans (hkilled.trans (.of_eq rfl))

theorem expireDispatches_leaves (now : Instant) (rows : List OutboxRow) (s : Store) :
    Leaves s (rows.foldl (expireDispatch now) s) := by
  induction rows generalizing s with
  | nil => exact .of_eq rfl
  | cons row rest ih => exact (expireDispatch_leaves now s row).trans (ih _)

theorem reopenRun_adds {fresh : Uuid → DispatchIds} {now : Instant} {status : RunStatus}
    {runId queueId : Uuid} {attemptCount : ℕ} {s t : Store}
    (h : reopenRun fresh now status runId attemptCount queueId s = .ok t) : Adds s t := by
  have hrescheduled : Adds s (rescheduleRun runId status (attemptCount + 1) now s) := .of_eq rfl
  exact hrescheduled.trans (createAttemptAndOutbox_adds (reopenRun_ok h))

theorem reopenDueRetry_leaves {fresh : Uuid → DispatchIds} {now : Instant} {row : RunRow}
    {s t : Store} (h : reopenDueRetry fresh now s row = .ok t) : Leaves s t := by
  unfold reopenDueRetry at h
  split at h
  · cases h
  · exact (reopenRun_adds h).leaves

theorem dueRetries_leaves {fresh : Uuid → DispatchIds} {now : Instant} {rows : List RunRow}
    {s t : Store} (h : rows.foldlM (reopenDueRetry fresh now) s = .ok t) : Leaves s t := by
  induction rows generalizing s with
  | nil =>
    cases h
    exact .of_eq rfl
  | cons row rest ih =>
    obtain ⟨s₁, h₁, h₂⟩ := ok_of_bind h
    exact (reopenDueRetry_leaves h₁).trans (ih h₂)

theorem expireLease_row {fresh : Uuid → DispatchIds} {now : Instant}
    {row : AttemptRow × RunRow} {s t : Store} (h : expireLease fresh now s row = .ok t)
    {a : AttemptRow} (ha : a ∈ s.runAttempts) :
    a ∈ t.runAttempts ∨ row.1.id = a.id ∧ a.status = .running ∧
      ∃ retry, endedAttempt retry now a ∈ t.runAttempts := by
  have hlease (retry : Bool) : a ∈ (endLease row.1.id retry now s).runAttempts ∨
      row.1.id = a.id ∧ a.status = .running ∧
        endedAttempt retry now a ∈ (endLease row.1.id retry now s).runAttempts := by
    by_cases hheld : (decide (a.id = row.1.id) && decide (a.status = .running)) = true
    · rw [Bool.and_eq_true, decide_eq_true_eq, decide_eq_true_eq] at hheld
      refine .inr ⟨hheld.1.symm, hheld.2, mem_update.mpr ⟨a, ha, ?_⟩⟩
      simp [hheld]
    · exact .inl (mem_update.mpr ⟨a, ha, (if_neg hheld).symm⟩)
  unfold expireLease at h
  split at h
  · cases h
  split at h
  · obtain ⟨news, hnews, _⟩ := reopenRun_adds h
    rcases hlease true with hkept | ⟨hid, hrunning, hended⟩
    · exact .inl (by rw [hnews]; exact List.mem_append_left news hkept)
    · exact .inr ⟨hid, hrunning, true, by rw [hnews]; exact List.mem_append_left news hended⟩
  · cases h
    rcases hlease false with hkept | ⟨hid, hrunning, hended⟩
    · exact .inl hkept
    · exact .inr ⟨hid, hrunning, false, hended⟩

theorem expireLeases_settled {fresh : Uuid → DispatchIds} {now : Instant}
    {rows : List (AttemptRow × RunRow)} {s t : Store}
    (h : rows.foldlM (expireLease fresh now) s = .ok t) {a : AttemptRow} (ha : a ∈ s.runAttempts)
    (hsettled : a.status ≠ .running) : a ∈ t.runAttempts := by
  induction rows generalizing s with
  | nil =>
    cases h
    exact ha
  | cons row rest ih =>
    obtain ⟨s₁, h₁, h₂⟩ := ok_of_bind h
    rcases expireLease_row h₁ ha with hkept | ⟨_, hrunning, _⟩
    · exact ih h₂ hkept
    · exact absurd hrunning hsettled

/-- An Attempt whose lease ends stays as the loop leaves it: no later row of the loop takes it
again. -/
theorem expireLeases_row {fresh : Uuid → DispatchIds} {now : Instant}
    {rows : List (AttemptRow × RunRow)} {s t : Store}
    (h : rows.foldlM (expireLease fresh now) s = .ok t) {a : AttemptRow} (ha : a ∈ s.runAttempts) :
    a ∈ t.runAttempts ∨ (∃ row ∈ rows, row.1.id = a.id) ∧
      ∃ retry, endedAttempt retry now a ∈ t.runAttempts := by
  induction rows generalizing s with
  | nil =>
    cases h
    exact .inl ha
  | cons row rest ih =>
    obtain ⟨s₁, h₁, h₂⟩ := ok_of_bind h
    rcases expireLease_row h₁ ha with hkept | ⟨hid, _, retry, hended⟩
    · rcases ih h₂ hkept with hkept | ⟨⟨row', hrow', hid⟩, hended⟩
      · exact .inl hkept
      · exact .inr ⟨⟨row', List.mem_cons_of_mem row hrow', hid⟩, hended⟩
    · refine .inr ⟨⟨row, List.mem_cons_self, hid⟩, retry, expireLeases_settled h₂ hended ?_⟩
      cases retry <;> simp [endedAttempt]

/-- The lease has run out by `now`. -/
def Overdue (now : Instant) (a : AttemptRow) : Prop := ∃ e, a.leaseExpiresAt = some e ∧ e < now

/-- A repair pass takes a running Attempt from its worker only after its lease ran out. -/
theorem reconcile_running {s : Store} (hk : KeysUnique s) (pass : RepairPass) {a : AttemptRow}
    (ha : a ∈ s.runAttempts) (hrunning : a.status = .running) :
    a ∈ (RunStore.reconcile pass s).2.runAttempts ∨ Overdue pass.leasesAt a ∧
      ∃ retry, endedAttempt retry pass.leasesAt a ∈ (RunStore.reconcile pass s).2.runAttempts := by
  rcases reconcile_cases pass s with hr | ⟨s₁, s₂, h₁, h₂, hr⟩
  · rw [hr]
    exact .inl ha
  rw [hr]
  have hdispatches : ExecutionWrites .plain s
      (reconcileExpiredDispatches pass.limit pass.lockedOutbox pass.dispatchesAt s) :=
    foldl_writes (expireDispatch_writes _) _ s
  have hretries := foldlM_writes (fun _ _ _ => reopenDueRetry_writes) _ h₁
  have hk₁ : KeysUnique s₁ := (Writes.of_execution (hdispatches.trans hretries)).keysUnique hk
  have ha₁ : a ∈ s₁.runAttempts :=
    dueRetries_leaves h₁ a (expireDispatches_leaves _ _ s a ha hrunning) hrunning
  rcases expireLeases_row h₂ ha₁ with hkept | ⟨⟨row, hrow, hid⟩, hended⟩
  · exact .inl hkept
  · have hrows := (expiredLeases_rows hk₁).1 row hrow
    have hsame : row.1 = a := row_unique hk₁.attempts hrows.1 ha₁ hid
    have hdue := (mem_selectBatch hrow).2
    simp only [Bool.and_eq_true, decide_eq_true_eq, Option.any_eq_true] at hdue
    rw [hsame] at hdue
    exact .inr ⟨hdue.2, hended⟩

def leaseholder : Command → Option String
  | .renewLease request _ => some request.workerId
  | .recordAttemptOutput request _ => some request.workerId
  | .completeAttempt request _ _ => some request.workerId
  | _ => none

inductive Sequel (s : State) (c : Command) (a : AttemptRow) : Prop where
  | kept : a ∈ (transact s c).runAttempts → Sequel s c a
  | reported (workerId : String) : leaseholder c = some workerId → a.workerId = some workerId →
      Sequel s c a
  | ended (pass : RepairPass) (retry : Bool) : c = .reconcile pass → Overdue pass.leasesAt a →
      endedAttempt retry pass.leasesAt a ∈ (transact s c).runAttempts → Sequel s c a

theorem transact_running {s : State} (hk : KeysUnique s.store) (c : Command) {a : AttemptRow}
    (ha : a ∈ s.store.runAttempts) (hrunning : a.status = .running) : Sequel s c a := by
  have hleaves (h : Leaves s.store (transact s c)) : Sequel s c a := .kept (h a ha hrunning)
  cases c with
  | createRuns => exact hleaves (createRuns_adds _ _ _ _ _ _ _ _).leaves
  | insertRerun => exact hleaves (insertRerun_adds _ _ _ _ _ _ _).leaves
  | commitSchedulePlan => exact hleaves (commitSchedulePlan_adds _ _ _ _ _).leaves
  | markPublished => exact hleaves (markPublished_leaves _ _ _ _ _)
  | claimAttempt => exact hleaves (claimAttempt_leaves _ _ _)
  | renewLease request now =>
    by_cases hown : a.workerId = some request.workerId
    · exact .reported request.workerId rfl hown
    · exact .kept (renewLease_other request now ha hown)
  | recordAttemptOutput request now =>
    by_cases hown : a.workerId = some request.workerId
    · exact .reported request.workerId rfl hown
    · exact .kept (recordAttemptOutput_other request now ha hown)
  | completeAttempt request retryAt now =>
    by_cases hown : a.workerId = some request.workerId
    · exact .reported request.workerId rfl hown
    · exact .kept (completeAttempt_other request retryAt now ha hown)
  | reconcile pass =>
    rcases reconcile_running hk pass ha hrunning with hkept | ⟨hdue, retry, hended⟩
    · exact .kept hkept
    · exact .ended pass retry rfl hdue hended
  | startWorkflow => exact hleaves (launches_adds (start_launches _ _ _ _ _)).leaves
  | commitPass order dispatch now workflowRunId =>
    apply hleaves
    simp only [transact]
    split
    · exact .of_eq rfl
    · exact (launches_adds (reconcileInvocation_launches _ _ _ _ _ _ _)).leaves
  | cancelWorkflow => exact hleaves (launches_adds (cancel_launches _ _ _)).leaves
  | claimOutbox | recordPublishFailure | editCatalog | beginPass | observeNode | abortPass =>
    exact hleaves (.of_eq rfl)

end RunningAttempts
