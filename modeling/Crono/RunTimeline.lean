import Crono.ExecutionGrants

/-! The timeline of a Run. Events are written by hand beside each status update, and a
repair pass that abandons a Run writes none; along runs in which no pass does so, the
timeline names the status of every Run and counts its grants. -/
namespace RunTimeline

open RunDomain WorkflowDomain SqlTable ControlPlaneSchema RunStore WorkflowStore
open ControlPlane StoreWrites RunLifecycle RunCoupling ExecutionGrants
open ExecutionInputs (FloatFormat)
open FallibleLists

def HasEvent (s : Store) (runId : Uuid) (eventType : RunEventType) : Prop :=
  ∃ e ∈ s.runEvents, e.runId = runId ∧ e.eventType = eventType

instance (s : Store) (runId : Uuid) (eventType : RunEventType) :
    Decidable (HasEvent s runId eventType) :=
  inferInstanceAs (Decidable (∃ e ∈ s.runEvents, e.runId = runId ∧ e.eventType = eventType))

def runningEvent (x : Uuid) (e : RunEventRow) : Bool :=
  e.runId = x && e.eventType = .status .running

def runningEvents (s : Store) (x : Uuid) : ℕ := s.runEvents.countP (runningEvent x)

/-- The Attempts of a Run that a worker was granted. -/
def grantedAttempts (s : State) (x : Uuid) : List AttemptRow :=
  (attemptsOf s.store x).filter fun a => (grantsOf s x).any fun g => g.attemptId = a.id

/-- The timeline names the status of a Run, and the creation of every Run that was not
inserted terminal. -/
structure Recorded (s : Store) (r : RunRow) : Prop where
  status : r.status ≠ .pendingDispatch → HasEvent s r.id (.status r.status)
  created : r.status.isTerminal = false → HasEvent s r.id .created

def Timeline (s : Store) : Prop := ∀ r ∈ s.runs, Recorded s r

theorem HasEvent.mono {s t : Store} {x : Uuid} {event : RunEventType}
    (h : HasEvent s x event) (hsub : s.runEvents ⊆ t.runEvents) : HasEvent t x event := by
  obtain ⟨e, he, hrow⟩ := h
  exact ⟨e, hsub he, hrow⟩

theorem Recorded.mono {s t : Store} {r : RunRow} (h : Recorded s r)
    (hsub : s.runEvents ⊆ t.runEvents) : Recorded t r :=
  ⟨fun hs => (h.status hs).mono hsub, fun hs => (h.created hs).mono hsub⟩

/-- The timeline grows, counts `granted` and stays faithful. -/
structure Chronicled (granted : List Grant) (s t : Store) : Prop where
  events : s.runEvents ⊆ t.runEvents
  running : ∀ x, runningEvents t x = runningEvents s x + granted.countP fun g => g.runId = x
  timeline : Timeline s → Timeline t

theorem Chronicled.of_tables {s t : Store} (hruns : t.runs = s.runs)
    (hevents : t.runEvents = s.runEvents) : Chronicled [] s t := by
  constructor
  · rw [hevents]
    exact fun _ he => he
  · intro x
    simp [runningEvents, hevents]
  · intro h r hr
    rw [hruns] at hr
    exact (h r hr).mono (by rw [hevents]; exact fun _ he => he)

theorem Chronicled.refl (s : Store) : Chronicled [] s s := .of_tables rfl rfl

theorem Chronicled.trans {granted : List Grant} {s t u : Store} (h : Chronicled granted s t)
    (k : Chronicled [] t u) : Chronicled granted s u := by
  constructor
  · exact fun _ he => k.events (h.events he)
  · intro x
    rw [k.running x, h.running x, List.countP_nil, Nat.add_zero]
  · exact fun hs => k.timeline (h.timeline hs)

theorem runningEvents_insert (s : Store) (runId x : Uuid) (event : RunEventType) (now : Instant) :
    runningEvents (insertRunEvent runId event now s) x =
      runningEvents s x + if runId = x ∧ event = .status .running then 1 else 0 := by
  simp [runningEvents, insertRunEvent, List.countP_append, List.countP_singleton, runningEvent]

theorem runEvents_insert (s : Store) (runId : Uuid) (event : RunEventType) (now : Instant) :
    s.runEvents ⊆ (insertRunEvent runId event now s).runEvents :=
  fun _ he => List.mem_append_left _ he

theorem hasEvent_insert (s : Store) (runId : Uuid) (event : RunEventType) (now : Instant) :
    HasEvent (insertRunEvent runId event now s) runId event :=
  ⟨⟨runId, event, now⟩, List.mem_append_right _ (List.mem_singleton_self _), rfl, rfl⟩

theorem Timeline.announce {s : Store} (h : Timeline s) {p : RunRow → Bool} {f : RunRow → RunRow}
    {x : Uuid} {status : RunStatus} {now : Instant}
    (hp : ∀ r, p r = true → r.id = x ∧ r.status.isTerminal = false)
    (hf : ∀ r, p r = true → (f r).id = r.id ∧ (f r).status = status) :
    Timeline (insertRunEvent x (.status status) now (updateRuns p f now s)) := by
  intro r' hr'
  rcases update_cases hr' with ⟨hr, _⟩ | ⟨r, hr, hpr, rfl⟩
  · exact (h r' hr).mono (runEvents_insert _ _ _ _)
  · obtain ⟨hid, hlive⟩ := hp r hpr
    obtain ⟨hidf, hstatus⟩ := hf r hpr
    constructor
    · intro _
      rw [hidf, hid, hstatus]
      exact hasEvent_insert _ _ _ _
    · intro _
      rw [hidf]
      exact ((h r hr).created hlive).mono (runEvents_insert _ _ _ _)

theorem Timeline.reschedule {s : Store} (h : Timeline s) {p : RunRow → Bool}
    {f : RunRow → RunRow} {now : Instant} (hp : ∀ r, p r = true → r.status.isTerminal = false)
    (hf : ∀ r, p r = true → (f r).id = r.id ∧ (f r).status = .pendingDispatch) :
    Timeline (updateRuns p f now s) := by
  intro r' hr'
  rcases update_cases hr' with ⟨hr, _⟩ | ⟨r, hr, hpr, rfl⟩
  · exact (h r' hr).mono fun _ he => he
  · obtain ⟨hid, hstatus⟩ := hf r hpr
    constructor
    · intro hmoved
      exact absurd hstatus hmoved
    · intro _
      rw [hid]
      exact (h r hr).created (hp r hpr)

theorem Timeline.insert {s t : Store} (h : Timeline s) {row : RunRow}
    (hruns : t.runs = s.runs ++ [row]) (hsub : s.runEvents ⊆ t.runEvents)
    (hrow : Recorded t row) : Timeline t := by
  intro r hr
  rw [hruns] at hr
  rcases List.mem_append.mp hr with hr | hr
  · exact (h r hr).mono hsub
  · rw [List.mem_singleton.mp hr]
    exact hrow

theorem Chronicled.announce {s : Store} {p : RunRow → Bool} {f : RunRow → RunRow}
    {x : Uuid} {status : RunStatus} {now : Instant} (hnot : status ≠ .running)
    (hp : ∀ r, p r = true → r.id = x ∧ r.status.isTerminal = false)
    (hf : ∀ r, p r = true → (f r).id = r.id ∧ (f r).status = status) :
    Chronicled [] s (insertRunEvent x (.status status) now (updateRuns p f now s)) := by
  constructor
  · exact fun _ he => List.mem_append_left _ he
  · intro y
    rw [runningEvents_insert]
    simp [hnot, runningEvents, updateRuns]
  · exact fun h => h.announce hp hf

theorem Chronicled.create {s s₁ s₂ : Store} {row : RunRow} {ids : DispatchIds} {queueId : Uuid}
    {attempt : ℕ} {deadline : Option Instant} {now : Instant}
    (hrun : insertRun row s = .ok s₁) (hpending : row.status = .pendingDispatch)
    (hdispatch : createAttemptAndOutbox ids row.id attempt queueId deadline now s₁ = .ok s₂) :
    Chronicled [] s (insertRunEvent row.id .created now s₂) := by
  obtain ⟨_, _, _, _, _, rfl⟩ := insertRun_ok hrun
  obtain ⟨_, _, rfl⟩ := createAttemptAndOutbox_ok hdispatch
  constructor
  · exact fun _ he => List.mem_append_left _ he
  · intro x
    rw [runningEvents_insert]
    simp [runningEvents]
  · intro h
    refine h.insert rfl (fun _ he => List.mem_append_left _ he) ⟨?_, ?_⟩
    · intro hmoved
      exact absurd hpending hmoved
    · intro _
      exact hasEvent_insert _ _ _ _

theorem createNormalRun_chronicled {ids : DispatchIds} {prepared : PreparedRun} {now : Instant}
    {s t : Store} (h : createNormalRun ids prepared now s = .ok t) : Chronicled [] s t := by
  obtain ⟨s₁, s₂, h₁, h₂, rfl⟩ := createNormalRun_ok h
  exact .create h₁ rfl h₂

theorem insertRunRequest_chronicled {row : RunRequestRow} {s t : Store}
    (h : insertRunRequest row s = .ok t) : Chronicled [] s t := by
  obtain ⟨_, rfl⟩ := insertRunRequest_ok h
  exact .of_tables rfl rfl

theorem createPreparedRuns_chronicled {fresh : FreshRuns} {now : Instant}
    {prepared : List PreparedRun} {s t : Store}
    (h : createPreparedRuns fresh now prepared s = .ok t) : Chronicled [] s t := by
  induction prepared generalizing s with
  | nil =>
    cases h
    exact .refl _
  | cons p rest ih =>
    obtain ⟨s₁, h₁, h₂⟩ := ok_of_bind h
    exact (createNormalRun_chronicled h₁).trans (ih h₂)

theorem createRuns_chronicled (R : Rendering) (requestId jobId : Uuid) (target : TargetSelection)
    (inputs : Value) (fresh : FreshRuns) (now : Instant) (s : Store) : Chronicled [] s
      (commitRequest s (createRunsTransaction R requestId jobId target inputs fresh now s)) := by
  rcases hc : createRunsTransaction R requestId jobId target inputs fresh now s with e | ⟨c, t⟩
  · exact .refl s
  · rcases createRunsTransaction_ok hc with ⟨_, rfl, _⟩ | ⟨_, _, _, _, _, s₁, _, _, h₁, h₂⟩
    · exact .refl t
    · exact (insertRunRequest_chronicled h₁).trans (createPreparedRuns_chronicled h₂)

theorem insertRerun_chronicled (F : FloatFormat) (sourceId requestId runId : Uuid)
    (ids : DispatchIds) (now : Instant) (s : Store) : Chronicled [] s
      (commitRequest s (insertRerunTransaction F sourceId requestId runId ids now s)) := by
  rcases hc : insertRerunTransaction F sourceId requestId runId ids now s with e | ⟨c, t⟩
  · exact .refl s
  · rcases insertRerunTransaction_ok hc with
      ⟨_, rfl, _⟩ | ⟨_, _, _, _, s₁, s₂, s₃, _, _, h₁, h₂, h₃, rfl⟩
    · exact .refl t
    · exact (insertRunRequest_chronicled h₁).trans (.create h₂ rfl h₃)

/-- An occurrence is inserted pending with `created`, or terminal with its own status. -/
theorem insertScheduledOccurrence_chronicled {R : Rendering} {scheduleId : Uuid}
    {fresh : FreshOccurrences} {occurrence : PlannedOccurrence} {execution : ExecutionRow}
    {setInputs : Option Value} {inputs : Value} {now : Instant} {s t : Store}
    (h : insertScheduledOccurrence R scheduleId fresh occurrence execution setInputs inputs now s =
      .ok t) : Chronicled [] s t := by
  rcases insertScheduledOccurrence_ok h with rfl | ⟨s₁, s₂, h₁, h₂, rfl⟩
  · exact .refl t
  obtain ⟨row, hrow⟩ : ∃ row, row = occurrenceRow R
      (fresh.runId occurrence.scheduledAt execution.targetId) occurrence execution setInputs
      inputs := ⟨_, rfl⟩
  rw [← hrow] at h₁ h₂ ⊢
  have hcases : row.2.1 = .pendingDispatch ∨ row.2.1 = .failed ∨ row.2.1 = .skipped := by
    rw [hrow, occurrenceRow]
    split
    · exact .inl rfl
    · exact .inr (.inr rfl)
    · exact .inr (.inl rfl)
  by_cases hpending : row.2.1 = .pendingDispatch
  · rw [dispatchOccurrence, if_pos hpending] at h₂
    have hcreated := Chronicled.create h₁ hpending h₂
    refine hcreated.trans (.of_tables rfl ?_)
    simp [recordOccurrence, hpending, occurrenceRun]
  · rw [dispatchOccurrence, if_neg hpending] at h₂
    cases h₂
    obtain ⟨_, _, _, _, _, rfl⟩ := insertRun_ok h₁
    have hevent : (if row.2.1 = .pendingDispatch then RunEventType.created
        else if row.2.1 = .failed then .status .failed else .status .skipped) =
          .status row.2.1 := by
      rcases hcases with hcase | hcase | hcase
      · exact absurd hcase hpending
      · simp [hcase]
      · simp [hcase]
    have hnot : row.2.1 ≠ .running := by
      rcases hcases with hcase | hcase | hcase <;> simp [hcase]
    have hended : row.2.1.isTerminal = true := by
      rcases hcases with hcase | hcase | hcase
      · exact absurd hcase hpending
      · rw [hcase]
        rfl
      · rw [hcase]
        rfl
    simp only [recordOccurrence, hevent]
    constructor
    · exact fun _ he => List.mem_append_left _ he
    · intro x
      simp [runningEvents, insertRunEvent, List.countP_append, runningEvent, hnot]
    · intro htimeline
      refine htimeline.insert rfl (fun _ he => List.mem_append_left _ he) ⟨?_, ?_⟩
      · intro _
        exact ⟨_, List.mem_append_right _ (List.mem_singleton_self _), rfl, rfl⟩
      · intro hlive
        rw [occurrenceRun, hended] at hlive
        cases hlive

theorem commitSchedulePlan_chronicled (R : Rendering) (plan : SchedulePlan)
    (fresh : FreshOccurrences) (now : Instant) (s : Store) :
    Chronicled [] s (commitSchedulePlan R plan fresh now s).2 := by
  rcases commitSchedulePlan_cases R plan fresh now s with hc | ⟨setInputs, inputs, rows, t, ht, hc⟩
  · rw [hc]
    exact .refl s
  · rw [hc]
    have hrows : Chronicled [] s t := by
      clear hc
      induction rows generalizing s with
      | nil =>
        cases ht
        exact .refl _
      | cons row rest ih =>
        obtain ⟨s₁, h₁, h₂⟩ := ok_of_bind ht
        exact (insertScheduledOccurrence_chronicled h₁).trans (ih s₁ h₂)
    exact hrows.trans (.of_tables rfl rfl)

theorem markPublished_chronicled (owner : Uuid) (record : OutboxRecord) (streamSequence : ℕ)
    (now : Instant) (s : Store) :
    Chronicled [] s (markPublished owner record streamSequence now s).2 := by
  unfold markPublished
  split
  · exact .refl s
  split
  · exact .refl s
  · have htables : Chronicled [] s (enqueueAttempt record.attemptId
        (settleDispatch owner record streamSequence now s)) := .of_tables rfl rfl
    refine htables.trans (.announce (by simp) (fun r hp => ?_) fun r _ => ⟨rfl, rfl⟩)
    simp only [Bool.and_eq_true, decide_eq_true_eq] at hp
    exact ⟨hp.1, by rw [hp.2]; rfl⟩

theorem startRun_chronicled {s t : Store} {request : ClaimRequest} {now : Instant}
    (hruns : t.runs = s.runs) (hevents : t.runEvents = s.runEvents) :
    Chronicled [⟨request.runId, request.attemptId, request.workerId⟩] s
      (startRun request.runId now t) := by
  constructor
  · rw [← hevents]
    exact fun _ he => List.mem_append_left _ he
  · intro x
    rw [startRun, runningEvents_insert]
    simp [runningEvents, updateRuns, hevents, List.countP_singleton]
  · intro h
    have ht : Timeline t := (Chronicled.of_tables hruns hevents).timeline h
    refine ht.announce (fun r hp => ?_) fun r _ => ⟨rfl, rfl⟩
    simp only [queuedRun, Bool.and_eq_true, decide_eq_true_eq] at hp
    exact ⟨hp.1, by rw [hp.2]; rfl⟩

theorem completeAttempt_chronicled (request : CompletionRequest) (retryAt now : Instant)
    (s : Store) : Chronicled [] s (completeAttempt request retryAt now s).2 := by
  unfold completeAttempt
  split
  · exact .refl s
  split
  · exact .refl s
  split
  · exact .refl s
  rename_i run _
  split
  · exact .refl s
  · have htables : Chronicled [] s (completeLease request now s) := .of_tables rfl rfl
    have hnot : completionStatus request run ≠ .running := by
      unfold completionStatus
      split
      · simp
      split
      · simp
      split <;> simp
    refine htables.trans (.announce hnot (fun r hp => ?_) fun r _ => ⟨rfl, rfl⟩)
    simp only [Bool.and_eq_true, decide_eq_true_eq] at hp
    exact ⟨hp.1, by rw [hp.2]; rfl⟩

theorem expireDispatch_chronicled (now : Instant) (s : Store) (row : OutboxRow) :
    Chronicled [] s (expireDispatch now s row) := by
  have htables : Chronicled [] s (killAttempt row.attemptId now (cancelDispatch row.id now s)) :=
    .of_tables rfl rfl
  refine htables.trans (.announce (by simp) (fun r hp => ?_) fun r _ => ⟨rfl, rfl⟩)
  simp only [Bool.and_eq_true, decide_eq_true_eq] at hp
  exact ⟨hp.1, by rw [hp.2]; rfl⟩

theorem reopenRun_chronicled {fresh : Uuid → DispatchIds} {now : Instant} {status : RunStatus}
    {runId queueId : Uuid} {attemptCount : ℕ} {s t : Store} (hlive : status.isTerminal = false)
    (h : reopenRun fresh now status runId attemptCount queueId s = .ok t) :
    Chronicled [] s t := by
  have hreschedule : Chronicled [] s (rescheduleRun runId status (attemptCount + 1) now s) := by
    constructor
    · exact fun _ he => he
    · intro x
      simp [runningEvents, rescheduleRun, updateRuns]
    · intro htimeline
      refine htimeline.reschedule (fun r hp => ?_) fun r _ => ⟨rfl, rfl⟩
      simp only [Bool.and_eq_true, decide_eq_true_eq] at hp
      rw [hp.2]
      exact hlive
  obtain ⟨_, _, rfl⟩ := createAttemptAndOutbox_ok (reopenRun_ok h)
  exact hreschedule.trans (.of_tables rfl rfl)

theorem reopenDueRetry_chronicled {fresh : Uuid → DispatchIds} {now : Instant} {s t : Store}
    {row : RunRow} (h : reopenDueRetry fresh now s row = .ok t) : Chronicled [] s t := by
  unfold reopenDueRetry at h
  split at h
  · cases h
  · exact reopenRun_chronicled rfl h

theorem expireLease_chronicled {fresh : Uuid → DispatchIds} {now : Instant} {s t : Store}
    {row : AttemptRow × RunRow} (hretry : retryable row.2 = true)
    (h : expireLease fresh now s row = .ok t) : Chronicled [] s t := by
  unfold expireLease at h
  split at h
  · cases h
  · rw [if_pos hretry] at h
    have htables : Chronicled [] s (endLease row.1.id true now s) := .of_tables rfl rfl
    exact htables.trans (reopenRun_chronicled rfl h)

theorem foldl_chronicled {α : Type} {f : Store → α → Store}
    (h : ∀ s a, Chronicled [] s (f s a)) (rows : List α) (s : Store) :
    Chronicled [] s (rows.foldl f s) := by
  induction rows generalizing s with
  | nil => exact .refl s
  | cons a rows ih => exact (h s a).trans (ih (f s a))

theorem foldlM_chronicled {α : Type} {f : Store → α → Except StoreError Store} {rows : List α}
    (h : ∀ a ∈ rows, ∀ s t, f s a = .ok t → Chronicled [] s t) {s t : Store}
    (ht : rows.foldlM f s = .ok t) : Chronicled [] s t := by
  induction rows generalizing s with
  | nil =>
    cases ht
    exact .refl _
  | cons a rows ih =>
    obtain ⟨s₁, h₁, h₂⟩ := ok_of_bind ht
    exact (h a List.mem_cons_self s s₁ h₁).trans
      (ih (fun b hb => h b (List.mem_cons_of_mem a hb)) h₂)

-- The rows a pass selects to end their lease are those it would select before its first two
-- stages: neither touches a running Attempt or its Run.

def leaseHeld (a : AttemptRow) : Bool := a.status = .running

structure LeasesKept (s t : Store) : Prop where
  attempts : t.runAttempts.filter leaseHeld = s.runAttempts.filter leaseHeld
  runs : ∀ a ∈ s.runAttempts, a.status = .running → runsOf t a.runId = runsOf s a.runId

def LeasesRunning (s : Store) : Prop :=
  ∀ a ∈ s.runAttempts, a.status = .running → ∀ r ∈ runsOf s a.runId, r.status = .running

theorem LeasesKept.refl (s : Store) : LeasesKept s s := ⟨rfl, fun _ _ _ => rfl⟩

theorem LeasesKept.running_mem {s t : Store} (h : LeasesKept s t) {a : AttemptRow} :
    (a ∈ t.runAttempts ∧ a.status = .running) ↔ (a ∈ s.runAttempts ∧ a.status = .running) := by
  have hmem : a ∈ t.runAttempts.filter leaseHeld ↔ a ∈ s.runAttempts.filter leaseHeld := by
    rw [h.attempts]
  simpa [leaseHeld] using hmem

theorem LeasesKept.trans {s t u : Store} (h : LeasesKept s t) (k : LeasesKept t u) :
    LeasesKept s u := by
  refine ⟨k.attempts.trans h.attempts, ?_⟩
  intro a ha hrunning
  rw [k.runs a (h.running_mem.mpr ⟨ha, hrunning⟩).1 hrunning]
  exact h.runs a ha hrunning

theorem LeasesRunning.kept {s t : Store} (h : LeasesRunning s) (k : LeasesKept s t) :
    LeasesRunning t := by
  intro a ha hrunning r hr
  have hold := (k.running_mem.mp ⟨ha, hrunning⟩).1
  rw [k.runs a hold hrunning] at hr
  exact h a hold hrunning r hr

theorem LeasesKept.updateAttempts {s : Store} {p : AttemptRow → Bool}
    {f : AttemptRow → AttemptRow} (hp : ∀ a, p a = true → a.status ≠ .running)
    (hf : ∀ a, (f a).status ≠ .running) : LeasesKept s (updateAttempts p f s) := by
  refine ⟨filter_update_of_not fun a _ ha => ?_, fun _ _ _ => rfl⟩
  simp [leaseHeld, hp a ha, hf a]

theorem LeasesKept.updateRuns {s : Store} (h : LeasesRunning s) {p : RunRow → Bool}
    {f : RunRow → RunRow} {now : Instant} (hp : ∀ r, p r = true → r.status ≠ .running)
    (hf : ∀ r, (f r).id = r.id) : LeasesKept s (updateRuns p f now s) := by
  refine ⟨rfl, ?_⟩
  intro a ha hrunning
  rw [runsOf, ControlPlaneSchema.updateRuns, filter_update fun r => by rw [hf r]]
  apply update_of_none
  intro r hr
  by_contra hpr
  exact hp r (by simpa using hpr) (h a ha hrunning r hr)

theorem expireDispatch_leases {s : Store} (h : LeasesRunning s) (now : Instant)
    (row : OutboxRow) : LeasesKept s (expireDispatch now s row) := by
  have hkilled : LeasesKept s (killAttempt row.attemptId now (cancelDispatch row.id now s)) := by
    refine LeasesKept.trans (t := cancelDispatch row.id now s) ⟨rfl, fun _ _ _ => rfl⟩
      (.updateAttempts (fun a hp => ?_) fun a => by simp [deadAttempt])
    simp only [Bool.and_eq_true, decide_eq_true_eq] at hp
    simp [hp.2]
  have hskipped : LeasesKept s (skipRun row.runId now
      (killAttempt row.attemptId now (cancelDispatch row.id now s))) := by
    refine hkilled.trans (.updateRuns (h.kept hkilled) (fun r hp => ?_) fun r => rfl)
    simp only [Bool.and_eq_true, decide_eq_true_eq] at hp
    simp [hp.2]
  exact hskipped.trans ⟨rfl, fun _ _ _ => rfl⟩

theorem reopenDueRetry_leases {s t : Store} (h : LeasesRunning s) {fresh : Uuid → DispatchIds}
    {now : Instant} {row : RunRow} (hreopen : reopenDueRetry fresh now s row = .ok t) :
    LeasesKept s t := by
  unfold reopenDueRetry at hreopen
  split at hreopen
  · cases hreopen
  obtain ⟨_, _, rfl⟩ := createAttemptAndOutbox_ok (reopenRun_ok hreopen)
  have hrescheduled : LeasesKept s
      (rescheduleRun row.id .retryWait (row.attemptCount + 1) now s) := by
    refine .updateRuns h (fun r hp => ?_) fun r => rfl
    simp only [Bool.and_eq_true, decide_eq_true_eq] at hp
    simp [hp.2]
  refine hrescheduled.trans ⟨?_, fun _ _ _ => rfl⟩
  simp [List.filter_append, leaseHeld, newAttempt]

theorem foldl_leases {α : Type} {f : Store → α → Store}
    (h : ∀ s a, LeasesRunning s → LeasesKept s (f s a)) (rows : List α) {s : Store}
    (hs : LeasesRunning s) : LeasesKept s (rows.foldl f s) := by
  induction rows generalizing s with
  | nil => exact .refl s
  | cons a rows ih =>
    have hfirst := h s a hs
    exact hfirst.trans (ih (hs.kept hfirst))

theorem foldlM_leases {α : Type} {f : Store → α → Except StoreError Store}
    (h : ∀ s a t, LeasesRunning s → f s a = .ok t → LeasesKept s t) {rows : List α}
    {s t : Store} (hs : LeasesRunning s) (ht : rows.foldlM f s = .ok t) : LeasesKept s t := by
  induction rows generalizing s with
  | nil =>
    cases ht
    exact .refl _
  | cons a rows ih =>
    obtain ⟨s₁, h₁, h₂⟩ := ok_of_bind ht
    have hfirst := h s a s₁ hs h₁
    exact hfirst.trans (ih (hs.kept hfirst) h₂)

theorem attemptJoinRun_filter (s : Store) {q : AttemptRow × RunRow → Bool}
    (hq : ∀ row, q row = true → row.1.status = .running) :
    (attemptJoinRun s).filter q = (s.runAttempts.filter leaseHeld).flatMap fun a =>
      ((runsOf s a.runId).map fun r => (a, r)).filter q := by
  rw [attemptJoinRun, List.filter_flatMap]
  induction s.runAttempts with
  | nil => rfl
  | cons a attempts ih =>
    rw [List.flatMap_cons, ih, List.filter_cons]
    by_cases hrunning : a.status = .running
    · simp [leaseHeld, hrunning, runsOf]
    · have hnone : ((s.runs.filter fun r => r.id = a.runId).map fun r => (a, r)).filter q = [] := by
        rw [List.filter_eq_nil_iff]
        intro row hrow hqr
        obtain ⟨r, _, rfl⟩ := List.mem_map.mp hrow
        exact hrunning (hq _ hqr)
      rw [hnone]
      simp [leaseHeld, hrunning]

theorem LeasesKept.expiredLeases {s t : Store} (h : LeasesKept s t) (limit : ℕ)
    (locked : AttemptRow × RunRow → Bool) (now : Instant) :
    expiredLeases limit locked now t = expiredLeases limit locked now s := by
  have hrows (q : AttemptRow × RunRow → Bool)
      (hq : ∀ row, q row = true → row.1.status = .running) :
      (attemptJoinRun t).filter q = (attemptJoinRun s).filter q := by
    rw [attemptJoinRun_filter t hq, attemptJoinRun_filter s hq, h.attempts]
    apply List.flatMap_congr
    intro a ha
    obtain ⟨ha, hrunning⟩ := List.mem_filter.mp ha
    rw [h.runs a ha (by simpa [leaseHeld] using hrunning)]
  unfold RunStore.expiredLeases selectBatch
  rw [hrows]
  intro row hrow
  simp only [Bool.and_eq_true, decide_eq_true_eq] at hrow
  exact hrow.1.1

theorem Consistent.leasesRunning {s : Store} (h : Consistent s) : LeasesRunning s := by
  intro a ha hrunning r hr
  obtain ⟨r', _, _, hholds, _, hid, hstatus⟩ := h.of_running ha hrunning
  obtain ⟨hr, hrid⟩ := mem_runsOf.mp hr
  have hsame : r = r' := row_unique h.keys.runs hr hholds.run_mem (by rw [hrid, hid])
  rw [hsame]
  exact hstatus

/-- Every lease the pass ends is that of a Run that may be retried. -/
def EndsRetryable (pass : RepairPass) (s : Store) : Prop :=
  ∀ row ∈ expiredLeases pass.limit pass.lockedLeases pass.leasesAt s, retryable row.2 = true

theorem reconcile_chronicled {s : Store} (h : Consistent s) {pass : RepairPass}
    (hpass : EndsRetryable pass s) : Chronicled [] s (RunStore.reconcile pass s).2 := by
  rcases reconcile_cases pass s with hr | ⟨s₁, s₂, h₁, h₂, hr⟩
  · rw [hr]
    exact .refl s
  · rw [hr]
    have hdispatches : LeasesKept s
        (reconcileExpiredDispatches pass.limit pass.lockedOutbox pass.dispatchesAt s) :=
      foldl_leases (fun s row hs => expireDispatch_leases hs _ row) _ (Consistent.leasesRunning h)
    have hretries := foldlM_leases (fun s row t hs => reopenDueRetry_leases hs)
      ((Consistent.leasesRunning h).kept hdispatches) h₁
    have hselected := (hdispatches.trans hretries).expiredLeases pass.limit pass.lockedLeases
      pass.leasesAt
    have hexpired := foldl_chronicled (expireDispatch_chronicled pass.dispatchesAt)
      (expiredDispatches pass.limit pass.lockedOutbox pass.dispatchesAt s) s
    have hreopened := foldlM_chronicled (fun _ _ _ _ => reopenDueRetry_chronicled) h₁
    have hended : Chronicled [] s₁ s₂ := by
      refine foldlM_chronicled (fun row hrow s t => expireLease_chronicled ?_) h₂
      rw [hselected] at hrow
      exact hpass row hrow
    exact ((hexpired.trans hreopened).trans hended).trans (.of_tables rfl rfl)

theorem launchExecutions_chronicled {dispatch : Launching} {nodeId jobId : Uuid}
    {now : Instant} {executions : List WorkflowNodeExecutionRow} {s t : Store}
    (h : launchExecutions dispatch nodeId jobId now executions s = .ok t) :
    Chronicled [] s t := by
  induction executions generalizing s with
  | nil =>
    cases h
    exact .refl _
  | cons e rest ih =>
    obtain ⟨s₁, h₁, h₂⟩ := ok_of_bind h
    have hlaunched : Chronicled [] s₁ (recordLaunch nodeId e.targetId s₁) := .of_tables rfl rfl
    exact ((createNormalRun_chronicled h₁).trans hlaunched).trans (ih h₂)

theorem activate_chronicled {dispatch : Launching} {now : Instant}
    {nodeId : Uuid} {s t : Store} (h : activate dispatch now nodeId s = .ok t) :
    Chronicled [] s t := by
  unfold activate at h
  split at h
  · cases h
    exact .refl _
  · have hstarted : Chronicled [] s (startNode now nodeId s) := .of_tables rfl rfl
    exact hstarted.trans (launchExecutions_chronicled h)

theorem activateRoots_chronicled {F : FloatFormat} {fresh : FreshLaunch}
    {definition : StoredWorkflow} {now : Instant} {nodes : List StoredNode} {s t : Store}
    (h : activateRoots F fresh definition now nodes s = .ok t) : Chronicled [] s t := by
  induction nodes generalizing s with
  | nil =>
    cases h
    exact .refl _
  | cons node rest ih =>
    unfold activateRoots at h
    split at h
    · exact ih h
    · obtain ⟨s₁, h₁, h₂⟩ := ok_of_bind h
      exact (activate_chronicled h₁).trans (ih h₂)

theorem start_chronicled (R : Rendering) (fresh : FreshLaunch) (launch : WorkflowLaunch)
    (now : Instant) (s : Store) : Chronicled [] s (start R fresh launch now s).2 := by
  rcases start_cases R fresh launch now s with hs | ⟨_, t, ht, hs⟩
  · rw [hs]
    exact .refl s
  · rw [hs]
    obtain ⟨_, _, s₁, s₂, s₃, h₁, h₂, h₃, h₄, _, _⟩ := startFresh_ok ht
    obtain ⟨_, rfl⟩ := insertWorkflowRun_ok h₁
    obtain ⟨_, _, rfl, _⟩ := prepareNodes_ok h₂
    obtain ⟨hedges, _⟩ := insertRunEdges_ok h₃
    have htables : Chronicled [] s s₃ := by
      rw [hedges]
      exact .of_tables rfl rfl
    exact htables.trans (activateRoots_chronicled h₄)

theorem completeNodes_chronicled (order : QueueOrder) (observed : Uuid → List RunStatus)
    (now : Instant) (nodes downstream : List Uuid) (s : Store) :
    Chronicled [] s (completeNodes order observed now nodes downstream s).2 := by
  induction nodes generalizing downstream s with
  | nil => exact .refl s
  | cons nodeId rest ih =>
    have hnode : Chronicled [] s (completeNode (observed nodeId) now nodeId s).2 := by
      unfold completeNode
      split
      · exact .refl s
      · exact .of_tables rfl rfl
    exact hnode.trans (ih _ _)

theorem propagate_chronicled {order : QueueOrder} {dispatch : Launching}
    {now : Instant} {rounds : ℕ} {queue : List Uuid} {s t : Store}
    (h : propagate order dispatch now rounds queue s = .ok t) : Chronicled [] s t := by
  induction rounds generalizing queue s with
  | zero =>
    cases queue with
    | nil =>
      cases h
      exact .refl _
    | cons => cases h
  | succ rounds ih =>
    cases queue with
    | nil =>
      cases h
      exact .refl _
    | cons id queue =>
      unfold propagate at h
      split at h
      · cases h
      · exact ih h
      · split at h
        · exact ih h
        · obtain ⟨s₁, h₁, h₂⟩ := ok_of_bind h
          exact (activate_chronicled h₁).trans (ih h₂)
        · have hskipped : Chronicled [] s (skipNode now id s) := .of_tables rfl rfl
          exact hskipped.trans (ih h)

theorem reconcileInvocation_chronicled (order : QueueOrder)
    (dispatch : Launching) (observed : Uuid → List RunStatus) (now : Instant)
    (workflowRunId : Uuid) (events : List (Uuid × Uuid)) (s : Store) :
    Chronicled [] s
      (reconcileInvocation order dispatch observed now workflowRunId events s).2 := by
  rcases reconcileInvocation_cases order dispatch observed now workflowRunId events s with
    hr | ⟨t, ht, hr⟩
  · rw [hr]
    exact .refl s
  · rw [hr]
    exact ((completeNodes_chronicled order observed now _ _ s).trans
      (propagate_chronicled ht)).trans (.of_tables rfl rfl)

theorem cancel_chronicled (now : Instant) (id : Uuid) (s : Store) :
    Chronicled [] s (cancel now id s).2 := by
  rcases cancel_cases now id s with hc | ⟨_, _, _, _, hc⟩
  · rw [hc]
    exact .refl s
  · rw [hc]
    exact .of_tables rfl rfl

/-- The commands of a run in which no repair pass ends the lease of a Run that may not be
retried. -/
def KeepsRetryable (s : State) : Command → Prop
  | .reconcile pass => EndsRetryable pass s.store
  | _ => True

theorem claimAttempt_chronicled {s : State} (h : Consistent s.store) (request : ClaimRequest)
    (now : Instant) : Chronicled (grantedBy s (.claimAttempt request now)) s.store
      (claimAttempt request now s.store).2 := by
  rcases h.claimAttempt_spec request now with ⟨_, hrefused⟩ |
    ⟨r, past, newest, snapshot, hholds, _, hgrant, _, _, hgranted⟩
  · have hnone : grantedBy s (.claimAttempt request now) = [] := by
      simp [grantedBy, hrefused, notClaimed]
    rw [hnone, hrefused]
    exact .refl s.store
  · have hgrants : grantedBy s (.claimAttempt request now) =
        [⟨request.runId, request.attemptId, request.workerId⟩] := by
      simp [grantedBy, hgranted]
    have hrun : r.id = request.runId := by
      rw [← hholds.live.newest_linked.attempt_run]
      exact (grantable_iff.mp hgrant).2.1
    rw [hgrants, hgranted, hrun]
    exact startRun_chronicled rfl rfl

theorem transact_chronicled {s : State} (h : Consistent s.store) {c : Command}
    (hc : KeepsRetryable s c) : Chronicled (grantedBy s c) s.store (transact s c) := by
  cases c with
  | createRuns => exact createRuns_chronicled _ _ _ _ _ _ _ _
  | insertRerun => exact insertRerun_chronicled _ _ _ _ _ _ _
  | commitSchedulePlan => exact commitSchedulePlan_chronicled _ _ _ _ _
  | claimOutbox => exact .of_tables rfl rfl
  | markPublished => exact markPublished_chronicled _ _ _ _ _
  | recordPublishFailure => exact .of_tables rfl rfl
  | claimAttempt request now => exact claimAttempt_chronicled h request now
  | renewLease => exact .of_tables rfl rfl
  | recordAttemptOutput =>
    simp only [transact, recordAttemptOutput]
    split
    · exact .refl s.store
    · exact .of_tables rfl rfl
  | completeAttempt => exact completeAttempt_chronicled _ _ _ _
  | reconcile => exact reconcile_chronicled h hc
  | startWorkflow => exact start_chronicled _ _ _ _ _
  | commitPass =>
    simp only [transact]
    split
    · exact .refl s.store
    · exact reconcileInvocation_chronicled _ _ _ _ _ _ _
  | cancelWorkflow => exact cancel_chronicled _ _ _
  | editCatalog => exact .of_tables rfl rfl
  | beginPass => exact .refl s.store
  | observeNode => exact .refl s.store
  | abortPass => exact .refl s.store

structure Kept (s : State) : Prop where
  timeline : Timeline s.store
  running : ∀ x, runningEvents s.store x = (grantsOf s x).length

theorem initial_kept {s : State} (h : system.initial s) : Kept s := by
  obtain ⟨catalog, schedules, _, _, rfl⟩ := h
  constructor
  · intro r hr
    cases hr
  · intro x
    rfl

theorem step_timeline {s t : State} {c : Command} (hs : Reachable s)
    (hstep : (system.restrict KeepsRetryable).Step s c t) :
    Chronicled (grantedBy s c) s.store t.store := by
  obtain ⟨⟨_, hretryable⟩, rfl⟩ := hstep
  exact transact_chronicled (reachable_invariant hs).consistent hretryable

theorem Kept.step {s t : State} {c : Command} (h : Kept s) (hs : Reachable s)
    (hstep : (system.restrict KeepsRetryable).Step s c t) : Kept t := by
  have hchronicled := step_timeline hs hstep
  obtain ⟨_, rfl⟩ := hstep
  refine ⟨hchronicled.timeline h.timeline, ?_⟩
  intro x
  rw [hchronicled.running x, h.running x]
  simp [grantsOf, TransitionSystem.restrict, system, next, List.countP_eq_length_filter]

theorem reachable_kept {s : State} (h : (system.restrict KeepsRetryable).Reachable s) : Kept s :=
  h.invariant_of (P := Kept) (Q := Reachable) (fun _ hs => hs.of_restrict)
    (fun _ => initial_kept) fun _ _ _ hs hk hstep => hk.step hs hstep

theorem execution_events {s t : State} (hs : (system.restrict KeepsRetryable).Reachable s)
    (h : (system.restrict KeepsRetryable).Execution s t) :
    s.store.runEvents ⊆ t.store.runEvents :=
  hs.relates (R := fun s t : State => s.store.runEvents ⊆ t.store.runEvents)
    (fun _ _ he => he) (fun _ _ _ h k _ he => k (h he))
    (fun _ _ _ hs hstep => (step_timeline hs.of_restrict hstep).events) h

/-- The grants of a Run are those of its granted Attempts, each once. -/
theorem grantedAttempts_length {s : State} (hs : Reachable s) (x : Uuid) :
    (grantedAttempts s x).length = (grantsOf s x).length := by
  have hlog := reachable_grantLog hs
  have hattempts : ((grantedAttempts s x).map AttemptRow.id).Nodup :=
    (reachable_keysUnique hs).attempts.sublist
      ((List.filter_sublist.trans List.filter_sublist).map _)
  have hgrants : ((grantsOf s x).map Grant.attemptId).Nodup :=
    hlog.distinct.sublist (List.filter_sublist.map _)
  have hperm : ((grantedAttempts s x).map AttemptRow.id).Perm
      ((grantsOf s x).map Grant.attemptId) := by
    rw [List.perm_ext_iff_of_nodup hattempts hgrants]
    intro id
    constructor
    · intro hid
      obtain ⟨a, ha, rfl⟩ := List.mem_map.mp hid
      obtain ⟨_, hgranted⟩ := List.mem_filter.mp ha
      obtain ⟨g, hg, hsame⟩ := List.any_eq_true.mp hgranted
      exact List.mem_map.mpr ⟨g, hg, by simpa using hsame⟩
    · intro hid
      obtain ⟨g, hg, rfl⟩ := List.mem_map.mp hid
      obtain ⟨hmem, hrun⟩ := List.mem_filter.mp hg
      obtain ⟨a, ha, haid, harun, _⟩ := hlog.granted g hmem
      rw [decide_eq_true_eq] at hrun
      refine List.mem_map.mpr ⟨a, List.mem_filter.mpr ⟨?_, ?_⟩, haid⟩
      · exact mem_attemptsOf.mpr ⟨ha, harun.trans hrun⟩
      · exact List.any_eq_true.mpr ⟨g, hg, by simp [haid]⟩
  simpa using hperm.length_eq

/-- Along runs in which no repair pass ends the lease of a Run that may not be retried, the
timeline names the status of every Run and the creation of every Run that was ever pending,
and has one `running` event for each granted Attempt. -/
theorem run_transitions_on_timeline {earlier s : State}
    (hs : (system.restrict KeepsRetryable).Reachable earlier)
    (h : (system.restrict KeepsRetryable).Execution earlier s) :
    (∀ r ∈ s.store.runs, r.status ≠ .pendingDispatch →
      HasEvent s.store r.id (.status r.status)) ∧
    (∀ r ∈ earlier.store.runs, r.status = .pendingDispatch →
      HasEvent s.store r.id .created) ∧
    ∀ r ∈ s.store.runs, runningEvents s.store r.id = (grantedAttempts s r.id).length := by
  have hreached := hs.execution h
  refine ⟨?_, ?_, ?_⟩
  · intro r hr
    exact ((reachable_kept hreached).timeline r hr).status
  · intro r hr hpending
    have hcreated := ((reachable_kept hs).timeline r hr).created (by rw [hpending]; rfl)
    exact hcreated.mono (execution_events hs h)
  · intro r _
    rw [grantedAttempts_length hreached.of_restrict, (reachable_kept hreached).running]

def demoOnce : JobRow := { demoJob with idempotent := false }

def demoOnceInitial : State :=
  ⟨emptyStore { demoCatalog with jobs := [demoOnce] } [], [], [], [], []⟩

def demoRepair : RepairPass :=
  ⟨100, fun _ => false, fun _ => false, fun _ => false, fun _ => ⟨30, 31⟩, fun _ => ⟨32, 33⟩,
    seconds 61, seconds 61, seconds 61, seconds 61⟩

def demoLapsed : List Command := demoClaimed ++ [.reconcile demoRepair]

theorem demoLapsed_admitted : system.Admits demoOnceInitial demoLapsed :=
  ⟨trivial, trivial, List.mem_singleton.mpr rfl, trivial, trivial, trivial⟩

theorem demoLapsed_reachable : Reachable (system.run demoOnceInitial demoLapsed) :=
  ⟨demoOnceInitial, ⟨{ demoCatalog with jobs := [demoOnce] }, [], by decide, by decide, rfl⟩,
    .of_admits demoLapsed_admitted⟩

theorem abandoned_run_not_on_timeline :
    ¬ ∀ s, Reachable s → ∀ r ∈ s.store.runs, r.status = .unknown →
      HasEvent s.store r.id (.status r.status) := by
  intro h
  have hmissing : ∃ r ∈ (system.run demoOnceInitial demoLapsed).store.runs,
      r.status = .unknown ∧ ¬ HasEvent (system.run demoOnceInitial demoLapsed).store r.id
        (.status r.status) := by decide +kernel
  obtain ⟨r, hr, hunknown, hnone⟩ := hmissing
  exact hnone (h _ demoLapsed_reachable r hr hunknown)

theorem demoClaimed_retryable :
    (system.restrict KeepsRetryable).Admits demoInitial demoLapsed := by
  refine ⟨⟨trivial, trivial⟩, ⟨trivial, trivial⟩, ⟨List.mem_singleton.mpr rfl, trivial⟩,
    ⟨trivial, trivial⟩, ⟨trivial, ?_⟩, trivial⟩
  unfold KeepsRetryable EndsRetryable
  decide +kernel

theorem run_transitions_on_timeline_demo :
    runningEvents ((system.restrict KeepsRetryable).run demoInitial demoLapsed).store 6 =
      (grantedAttempts ((system.restrict KeepsRetryable).run demoInitial demoLapsed) 6).length := by
  have hrun : ∃ r ∈ ((system.restrict KeepsRetryable).run demoInitial demoLapsed).store.runs,
      r.id = 6 := by decide +kernel
  obtain ⟨r, hr, hid⟩ := hrun
  rw [← hid]
  exact (run_transitions_on_timeline ⟨demoInitial, demoInitial_initial, .refl demoInitial⟩
    (.of_admits demoClaimed_retryable)).2.2 r hr

end RunTimeline
