import Crono.RunLifecycle

/-! The output columns of Attempts. A snapshot writes them under the lease and its sequence, a
completion writes the tails once more; every other command leaves them alone and may add Attempts
that have no output yet. -/
namespace AttemptOutputs

open Relation RunDomain WorkflowDomain SqlTable ControlPlaneSchema RunStore WorkflowStore
open ControlPlane StoreWrites
open ExecutionInputs (FloatFormat)
open FallibleLists

structure AttemptOutput where
  attemptId : Uuid
  stdoutTail : Option String
  stderrTail : Option String
  sequence : ℕ
  deriving DecidableEq, Repr

def outputOf (a : AttemptRow) : AttemptOutput :=
  ⟨a.id, a.stdoutTail, a.stderrTail, a.outputSequence⟩

def blank (attemptId : Uuid) : AttemptOutput := ⟨attemptId, none, none, 0⟩

def outputs (s : Store) : List AttemptOutput := s.runAttempts.map outputOf

inductive OutputWrite : Store → Store → Prop where
  | keep {s t} : outputs t = outputs s → OutputWrite s t
  | insert {s t} (attemptId) : outputs t = outputs s ++ [blank attemptId] → OutputWrite s t

abbrev OutputWrites := ReflTransGen OutputWrite

theorem outputs_added {s t : Store} (h : OutputWrites s t) :
    ∃ ids : List Uuid, outputs t = outputs s ++ ids.map blank := by
  induction h with
  | refl => exact ⟨[], by simp⟩
  | tail _ hwrite ih =>
    obtain ⟨ids, hids⟩ := ih
    cases hwrite with
    | keep hkeep => exact ⟨ids, hkeep.trans hids⟩
    | insert attemptId hinsert =>
      refine ⟨ids ++ [attemptId], ?_⟩
      rw [hinsert, hids, List.map_append, List.append_assoc]
      rfl

theorem outputs_of_eq {s t : Store} (h : t.runAttempts = s.runAttempts) :
    OutputWrites s t :=
  .single (.keep (by rw [outputs, outputs, h]))

theorem outputs_update {s : Store} {p : AttemptRow → Bool} {f : AttemptRow → AttemptRow}
    (h : ∀ a, outputOf (f a) = outputOf a) : OutputWrites s (updateAttempts p f s) :=
  .single (.keep (map_update fun a _ _ => h a))

theorem createAttemptAndOutbox_outputs {ids : DispatchIds} {runId queueId : Uuid} {attempt : ℕ}
    {deadline : Option Instant} {now : Instant} {s t : Store}
    (h : createAttemptAndOutbox ids runId attempt queueId deadline now s = .ok t) :
    OutputWrites s t := by
  obtain ⟨_, _, rfl⟩ := createAttemptAndOutbox_ok h
  refine .single (.insert ids.attemptId ?_)
  rw [outputs, List.map_append]
  rfl

theorem insertRunRequest_outputs {row : RunRequestRow} {s t : Store}
    (h : insertRunRequest row s = .ok t) : OutputWrites s t := by
  obtain ⟨_, rfl⟩ := insertRunRequest_ok h
  exact outputs_of_eq rfl

theorem insertRun_outputs {row : RunRow} {s t : Store} (h : insertRun row s = .ok t) :
    OutputWrites s t := by
  obtain ⟨_, _, _, _, _, rfl⟩ := insertRun_ok h
  exact outputs_of_eq rfl

theorem createNormalRun_outputs {ids : DispatchIds} {prepared : PreparedRun} {now : Instant}
    {s t : Store} (h : createNormalRun ids prepared now s = .ok t) : OutputWrites s t := by
  obtain ⟨s₁, s₂, h₁, h₂, rfl⟩ := createNormalRun_ok h
  exact ((insertRun_outputs h₁).trans (createAttemptAndOutbox_outputs h₂)).trans
    (outputs_of_eq rfl)

theorem createPreparedRuns_outputs {fresh : FreshRuns} {now : Instant}
    {prepared : List PreparedRun} {s t : Store}
    (h : createPreparedRuns fresh now prepared s = .ok t) : OutputWrites s t := by
  induction prepared generalizing s with
  | nil =>
    cases h
    exact .refl
  | cons p rest ih =>
    obtain ⟨s₁, h₁, h₂⟩ := ok_of_bind h
    exact (createNormalRun_outputs h₁).trans (ih h₂)

theorem createRuns_outputs (R : Rendering) (requestId jobId : Uuid) (target : TargetSelection)
    (inputs : Value) (fresh : FreshRuns) (now : Instant) (s : Store) : OutputWrites s
      (commitRequest s (createRunsTransaction R requestId jobId target inputs fresh now s)) := by
  rcases hc : createRunsTransaction R requestId jobId target inputs fresh now s with e | ⟨c, t⟩
  · exact .refl
  · rcases createRunsTransaction_ok hc with ⟨_, rfl, _⟩ | ⟨_, _, _, _, _, s₁, _, _, h₁, h₂⟩
    · exact .refl
    · exact (insertRunRequest_outputs h₁).trans (createPreparedRuns_outputs h₂)

theorem insertRerun_outputs (F : FloatFormat) (sourceId requestId runId : Uuid)
    (ids : DispatchIds) (now : Instant) (s : Store) : OutputWrites s
      (commitRequest s (insertRerunTransaction F sourceId requestId runId ids now s)) := by
  rcases hc : insertRerunTransaction F sourceId requestId runId ids now s with e | ⟨c, t⟩
  · exact .refl
  · rcases insertRerunTransaction_ok hc with
      ⟨_, rfl, _⟩ | ⟨_, _, _, _, s₁, s₂, s₃, _, _, h₁, h₂, h₃, rfl⟩
    · exact .refl
    · have hrun := (insertRunRequest_outputs h₁).trans (insertRun_outputs h₂)
      exact (hrun.trans (createAttemptAndOutbox_outputs h₃)).trans (outputs_of_eq rfl)

theorem insertScheduledOccurrence_outputs {R : Rendering} {scheduleId : Uuid}
    {fresh : FreshOccurrences} {occurrence : PlannedOccurrence} {execution : ExecutionRow}
    {setInputs : Option Value} {inputs : Value} {now : Instant} {s t : Store}
    (h : insertScheduledOccurrence R scheduleId fresh occurrence execution setInputs inputs now s =
      .ok t) : OutputWrites s t := by
  rcases insertScheduledOccurrence_ok h with rfl | ⟨s₁, s₂, h₁, h₂, rfl⟩
  · exact .refl
  have hdispatched : OutputWrites s₁ s₂ := by
    unfold dispatchOccurrence at h₂
    split at h₂
    · exact createAttemptAndOutbox_outputs h₂
    · cases h₂
      exact .refl
  exact ((insertRun_outputs h₁).trans hdispatched).trans (outputs_of_eq rfl)

theorem commitSchedulePlan_outputs (R : Rendering) (plan : SchedulePlan)
    (fresh : FreshOccurrences) (now : Instant) (s : Store) :
    OutputWrites s (commitSchedulePlan R plan fresh now s).2 := by
  rcases commitSchedulePlan_cases R plan fresh now s with hc | ⟨setInputs, inputs, rows, t, ht, hc⟩
  · rw [hc]
  · rw [hc]
    have hrows : OutputWrites s t := by
      clear hc
      induction rows generalizing s with
      | nil =>
        cases ht
        exact .refl
      | cons row rest ih =>
        obtain ⟨s₁, h₁, h₂⟩ := ok_of_bind ht
        exact (insertScheduledOccurrence_outputs h₁).trans (ih s₁ h₂)
    exact hrows.trans (outputs_of_eq rfl)

theorem markPublished_outputs (owner : Uuid) (record : OutboxRecord) (streamSequence : ℕ)
    (now : Instant) (s : Store) :
    OutputWrites s (markPublished owner record streamSequence now s).2 := by
  unfold markPublished
  split
  · exact .refl
  split
  · exact .refl
  · have hsettled : OutputWrites s (settleDispatch owner record streamSequence now s) :=
      outputs_of_eq rfl
    have hqueued : OutputWrites (settleDispatch owner record streamSequence now s)
        (enqueueAttempt record.attemptId (settleDispatch owner record streamSequence now s)) :=
      outputs_update fun _ => rfl
    exact (hsettled.trans hqueued).trans (outputs_of_eq rfl)

theorem claimAttempt_outputs (request : ClaimRequest) (now : Instant) (s : Store) :
    OutputWrites s (claimAttempt request now s).2 := by
  have hgranted (runId : Uuid) :
      OutputWrites s (startRun runId now (grantAttempt request now s)) := by
    have hgrant : OutputWrites s (grantAttempt request now s) := outputs_update fun _ => rfl
    exact hgrant.trans (outputs_of_eq rfl)
  unfold claimAttempt
  split
  · exact .refl
  split
  · exact .refl
  simp only
  split
  · exact hgranted _
  · exact hgranted _

theorem renewLease_outputs (request : LeaseRequest) (now : Instant) (s : Store) :
    OutputWrites s (renewLease request now s).2 :=
  outputs_update fun _ => rfl

theorem expireDispatch_outputs (now : Instant) (s : Store) (row : OutboxRow) :
    OutputWrites s (expireDispatch now s row) := by
  have hcancelled : OutputWrites s (cancelDispatch row.id now s) := outputs_of_eq rfl
  have hkilled : OutputWrites (cancelDispatch row.id now s)
      (killAttempt row.attemptId now (cancelDispatch row.id now s)) := outputs_update fun _ => rfl
  exact (hcancelled.trans hkilled).trans (outputs_of_eq rfl)

theorem reopenRun_outputs {fresh : Uuid → DispatchIds} {now : Instant} {status : RunStatus}
    {runId queueId : Uuid} {attemptCount : ℕ} {s t : Store}
    (h : reopenRun fresh now status runId attemptCount queueId s = .ok t) :
    OutputWrites s t := by
  have hrescheduled : OutputWrites s (rescheduleRun runId status (attemptCount + 1) now s) :=
    outputs_of_eq rfl
  exact hrescheduled.trans (createAttemptAndOutbox_outputs (reopenRun_ok h))

theorem reopenDueRetry_outputs {fresh : Uuid → DispatchIds} {now : Instant} {s t : Store}
    {row : RunRow} (h : reopenDueRetry fresh now s row = .ok t) : OutputWrites s t := by
  unfold reopenDueRetry at h
  split at h
  · cases h
  · exact reopenRun_outputs h

theorem expireLease_outputs {fresh : Uuid → DispatchIds} {now : Instant} {s t : Store}
    {row : AttemptRow × RunRow} (h : expireLease fresh now s row = .ok t) : OutputWrites s t := by
  have hended (retry : Bool) : OutputWrites s (endLease row.1.id retry now s) :=
    outputs_update fun _ => rfl
  unfold expireLease at h
  split at h
  · cases h
  split at h
  · exact (hended true).trans (reopenRun_outputs h)
  · cases h
    exact (hended false).trans (outputs_of_eq rfl)

theorem reconcile_outputs (pass : RepairPass) (s : Store) :
    OutputWrites s (RunStore.reconcile pass s).2 := by
  rcases reconcile_cases pass s with hr | ⟨s₁, s₂, h₁, h₂, hr⟩
  · rw [hr]
  · rw [hr]
    have hexpired : OutputWrites s
        (reconcileExpiredDispatches pass.limit pass.lockedOutbox pass.dispatchesAt s) :=
      foldl_writes (expireDispatch_outputs pass.dispatchesAt) _ s
    have hreopened := foldlM_writes (fun _ _ _ => reopenDueRetry_outputs) _ h₁
    have hended := foldlM_writes (fun _ _ _ => expireLease_outputs) _ h₂
    exact ((hexpired.trans hreopened).trans hended).trans (outputs_of_eq rfl)

theorem launchExecutions_outputs {dispatch : Launching} {nodeId jobId : Uuid}
    {now : Instant} {executions : List WorkflowNodeExecutionRow} {s t : Store}
    (h : launchExecutions dispatch nodeId jobId now executions s = .ok t) : OutputWrites s t := by
  induction executions generalizing s with
  | nil =>
    cases h
    exact .refl
  | cons e rest ih =>
    obtain ⟨s₁, h₁, h₂⟩ := ok_of_bind h
    have hlaunched : OutputWrites s₁ (recordLaunch nodeId e.targetId s₁) := outputs_of_eq rfl
    exact ((createNormalRun_outputs h₁).trans hlaunched).trans (ih h₂)

theorem activate_outputs {dispatch : Launching} {now : Instant} {nodeId : Uuid}
    {s t : Store} (h : activate dispatch now nodeId s = .ok t) : OutputWrites s t := by
  unfold activate at h
  split at h
  · cases h
    exact .refl
  · have hstarted : OutputWrites s (startNode now nodeId s) := outputs_of_eq rfl
    exact hstarted.trans (launchExecutions_outputs h)

theorem activateRoots_outputs {F : FloatFormat} {fresh : FreshLaunch}
    {definition : StoredWorkflow} {now : Instant} {nodes : List StoredNode} {s t : Store}
    (h : activateRoots F fresh definition now nodes s = .ok t) : OutputWrites s t := by
  induction nodes generalizing s with
  | nil =>
    cases h
    exact .refl
  | cons node rest ih =>
    unfold activateRoots at h
    split at h
    · exact ih h
    · obtain ⟨s₁, h₁, h₂⟩ := ok_of_bind h
      exact (activate_outputs h₁).trans (ih h₂)

theorem start_outputs (R : Rendering) (fresh : FreshLaunch) (launch : WorkflowLaunch)
    (now : Instant) (s : Store) : OutputWrites s (start R fresh launch now s).2 := by
  rcases start_cases R fresh launch now s with hs | ⟨_, t, ht, hs⟩
  · rw [hs]
  · rw [hs]
    obtain ⟨_, _, s₁, s₂, s₃, h₁, h₂, h₃, h₄, _, _⟩ := startFresh_ok ht
    obtain ⟨_, rfl⟩ := insertWorkflowRun_ok h₁
    obtain ⟨_, _, rfl, _⟩ := prepareNodes_ok h₂
    obtain ⟨hedges, _⟩ := insertRunEdges_ok h₃
    have htables : OutputWrites s s₃ := by
      rw [hedges]
      exact outputs_of_eq rfl
    exact htables.trans (activateRoots_outputs h₄)

theorem completeNodes_outputs (order : QueueOrder) (observed : Uuid → List RunStatus)
    (now : Instant) (nodes downstream : List Uuid) (s : Store) :
    OutputWrites s (completeNodes order observed now nodes downstream s).2 := by
  induction nodes generalizing downstream s with
  | nil => exact .refl
  | cons nodeId rest ih =>
    have hnode : OutputWrites s (completeNode (observed nodeId) now nodeId s).2 := by
      unfold completeNode
      split
      · exact .refl
      · exact outputs_of_eq rfl
    exact hnode.trans (ih _ _)

theorem propagate_outputs {order : QueueOrder} {dispatch : Launching}
    {now : Instant} {rounds : ℕ} {queue : List Uuid} {s t : Store}
    (h : propagate order dispatch now rounds queue s = .ok t) : OutputWrites s t := by
  induction rounds generalizing queue s with
  | zero =>
    cases queue with
    | nil =>
      cases h
      exact .refl
    | cons => cases h
  | succ rounds ih =>
    cases queue with
    | nil =>
      cases h
      exact .refl
    | cons id queue =>
      unfold propagate at h
      split at h
      · cases h
      · exact ih h
      · split at h
        · exact ih h
        · obtain ⟨s₁, h₁, h₂⟩ := ok_of_bind h
          exact (activate_outputs h₁).trans (ih h₂)
        · have hskipped : OutputWrites s (skipNode now id s) := outputs_of_eq rfl
          exact hskipped.trans (ih h)

theorem reconcileInvocation_outputs (order : QueueOrder) (dispatch : Launching)
    (observed : Uuid → List RunStatus) (now : Instant) (workflowRunId : Uuid)
    (events : List (Uuid × Uuid)) (s : Store) : OutputWrites s
      (reconcileInvocation order dispatch observed now workflowRunId events s).2 := by
  rcases reconcileInvocation_cases order dispatch observed now workflowRunId events s with
    hr | ⟨t, ht, hr⟩
  · rw [hr]
  · rw [hr]
    exact ((completeNodes_outputs order observed now _ _ s).trans
      (propagate_outputs ht)).trans (outputs_of_eq rfl)

theorem cancel_outputs (now : Instant) (id : Uuid) (s : Store) :
    OutputWrites s (cancel now id s).2 := by
  rcases cancel_cases now id s with hc | ⟨_, _, _, _, hc⟩
  · rw [hc]
  · rw [hc]
    exact outputs_of_eq rfl

def reports : Command → Bool
  | .recordAttemptOutput _ _ | .completeAttempt _ _ _ => true
  | _ => false

theorem transact_outputs (s : State) {c : Command} (hc : reports c = false) :
    OutputWrites s.store (transact s c) := by
  cases c with
  | createRuns => exact createRuns_outputs _ _ _ _ _ _ _ _
  | insertRerun => exact insertRerun_outputs _ _ _ _ _ _ _
  | commitSchedulePlan => exact commitSchedulePlan_outputs _ _ _ _ _
  | claimOutbox => exact outputs_of_eq rfl
  | markPublished => exact markPublished_outputs _ _ _ _ _
  | recordPublishFailure => exact outputs_of_eq rfl
  | claimAttempt => exact claimAttempt_outputs _ _ _
  | renewLease => exact renewLease_outputs _ _ _
  | recordAttemptOutput => cases hc
  | completeAttempt => cases hc
  | reconcile => exact reconcile_outputs _ _
  | startWorkflow => exact start_outputs _ _ _ _ _
  | commitPass =>
    simp only [transact]
    split
    · exact .refl
    · exact reconcileInvocation_outputs _ _ _ _ _ _ _
  | cancelWorkflow => exact cancel_outputs _ _ _
  | editCatalog => exact outputs_of_eq rfl
  | beginPass => exact .refl
  | observeNode => exact .refl
  | abortPass => exact .refl

/-- Where the output of an Attempt comes from when no output was written. -/
theorem output_origin {s : State} {c : Command} (hc : reports c = false)
    (hkeys : ((transact s c).runAttempts.map AttemptRow.id).Nodup) {a' : AttemptRow}
    (ha : a' ∈ (transact s c).runAttempts) :
    (∃ a ∈ s.store.runAttempts, outputOf a' = outputOf a) ∨
      outputOf a' = blank a'.id ∧ ∀ a ∈ s.store.runAttempts, a.id ≠ a'.id := by
  obtain ⟨ids, hids⟩ := outputs_added (transact_outputs s hc)
  have hmem : outputOf a' ∈ outputs s.store ++ ids.map blank := by
    rw [← hids]
    exact List.mem_map_of_mem ha
  rcases List.mem_append.mp hmem with hold | hnew
  · obtain ⟨a, ha, hsame⟩ := List.mem_map.mp hold
    exact .inl ⟨a, ha, hsame.symm⟩
  · obtain ⟨id, hid, hblank⟩ := List.mem_map.mp hnew
    have hname : id = a'.id := congrArg AttemptOutput.attemptId hblank
    refine .inr ⟨by rw [← hblank, hname], ?_⟩
    -- the ids of the later table are those of the earlier one and the new ones
    intro a ha heq
    have hnodup : (s.store.runAttempts.map AttemptRow.id ++ ids).Nodup := by
      have hall := congrArg (List.map AttemptOutput.attemptId) hids
      simp only [outputs, List.map_append, List.map_map] at hall
      have hcolumn : AttemptOutput.attemptId ∘ outputOf = AttemptRow.id := rfl
      have hnames : AttemptOutput.attemptId ∘ blank = fun attemptId => attemptId := rfl
      rw [hcolumn, hnames, List.map_id'] at hall
      rwa [hall] at hkeys
    have hdisjoint := (List.nodup_append.mp hnodup).2.2
    exact hdisjoint a.id (List.mem_map_of_mem ha) id hid (by rw [heq, hname])

/-- A completion leaves an Attempt alone or makes it terminal, and never moves its sequence. -/
theorem completeAttempt_origin {request : CompletionRequest} {retryAt now : Instant} {s : Store}
    {a' : AttemptRow} (ha : a' ∈ (completeAttempt request retryAt now s).2.runAttempts) :
    ∃ a ∈ s.runAttempts, a'.id = a.id ∧ a'.outputSequence = a.outputSequence ∧
      (a' = a ∨ a'.status.isTerminal = true) := by
  have hkept (hmem : a' ∈ s.runAttempts) : ∃ a ∈ s.runAttempts, a'.id = a.id ∧
      a'.outputSequence = a.outputSequence ∧ (a' = a ∨ a'.status.isTerminal = true) :=
    ⟨a', hmem, rfl, rfl, .inl rfl⟩
  unfold completeAttempt at ha
  split at ha
  · exact hkept ha
  split at ha
  · exact hkept ha
  split at ha
  · exact hkept ha
  split at ha
  · exact hkept ha
  · rcases update_cases ha with ⟨hmem, _⟩ | ⟨a, hmem, _, rfl⟩
    · exact hkept hmem
    · exact ⟨a, hmem, rfl, rfl, .inr (attemptStatus_terminal request)⟩

def replaced (request : OutputSnapshotRequest) (now : Instant) (a : AttemptRow) : Bool :=
  leased request.attemptId request.workerId now a && a.outputSequence < request.sequence

/-- An accepted snapshot has written its Attempt, and any other answer has written nothing. -/
theorem recordAttemptOutput_spec {s : Store} (hkeys : (s.runAttempts.map AttemptRow.id).Nodup)
    (request : OutputSnapshotRequest) (now : Instant) :
    ((recordAttemptOutput request now s).1 ≠ .ok true ∧ (recordAttemptOutput request now s).2 = s) ∨
    ((recordAttemptOutput request now s).1 = .ok true ∧
      (∃ a ∈ s.runAttempts, replaced request now a = true) ∧
      (recordAttemptOutput request now s).2 = updateAttempts (replaced request now) (fun a =>
        { a with
          stdoutTail := some request.stdoutTail
          stderrTail := some request.stderrTail
          outputSequence := request.sequence }) s) := by
  unfold recordAttemptOutput
  split
  · exact .inl ⟨nofun, rfl⟩
  by_cases hrow : ∃ a ∈ s.runAttempts, replaced request now a = true
  · obtain ⟨a, ha, hheld⟩ := hrow
    refine .inr ⟨?_, ⟨a, ha, hheld⟩, rfl⟩
    have honly : ∀ b ∈ s.runAttempts, replaced request now b = true ↔ b = a := by
      intro b hb
      refine ⟨fun hb' => ?_, fun heq => heq ▸ hheld⟩
      have hid (x : AttemptRow) (hx : replaced request now x = true) : x.id = request.attemptId :=
        (leased_iff.mp (Bool.and_eq_true_iff.mp hx).1).1
      exact row_unique hkeys hb ha ((hid b hb').trans (hid a hheld).symm)
    have hcount : s.runAttempts.countP (replaced request now) = 1 :=
      countP_row (List.Nodup.of_map _ hkeys) ha honly
    exact congrArg Except.ok (decide_eq_true hcount)
  · have hnone : ∀ a ∈ s.runAttempts, replaced request now a = false := by
      intro a ha
      by_contra hheld
      exact hrow ⟨a, ha, by simpa using hheld⟩
    have hcount : s.runAttempts.countP (replaced request now) = 0 :=
      List.countP_eq_zero.mpr fun a ha => by simp [hnone a ha]
    refine .inl ⟨?_, ?_⟩
    · intro haccepted
      have hone : s.runAttempts.countP (replaced request now) = 1 :=
        of_decide_eq_true (Except.ok.inj haccepted)
      rw [hcount] at hone
      cases hone
    · have hsame := update_of_none (f := fun a : AttemptRow => { a with
        stdoutTail := some request.stdoutTail
        stderrTail := some request.stderrTail
        outputSequence := request.sequence }) hnone
      exact congrArg (fun rows => { s with runAttempts := rows }) hsame

end AttemptOutputs
