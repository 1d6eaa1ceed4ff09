import Crono.RunLifecycle

/-! Every command keeps Runs, Attempts and the outbox coupled: the repair loops, the
materialisation of schedules, Workflow activation, and the whole control plane. -/
namespace RunCoupling

open Relation RunDomain WorkflowDomain SqlTable ControlPlaneSchema RunStore WorkflowStore
open ControlPlane StoreWrites RunLifecycle
open ExecutionInputs (FloatFormat)
open StoredValues (rereadColumn_queueId)
open FallibleLists

theorem expireDispatch_consistent {s : Store} (h : Consistent s) {o : OutboxRow}
    (ho : o ∈ s.outbox) (hu : o.unsettled = true) (hdue : o.dispatchDeadline.isSome = true)
    (now : Instant) : Consistent (expireDispatch now s o) := by
  have hk := (Writes.of_execution (expireDispatch_writes now s o)).keysUnique h.keys
  obtain ⟨r, past, newest, hholds, rfl, hpending, hstatus⟩ := h.of_unsettled ho hu
  have hlinked := hholds.live.newest_linked
  obtain ⟨hcell, hframe⟩ := hholds.settle h
    (p := fun o' => o'.id = newest.outbox.id && o'.unsettled) (f := cancelledDispatch now)
    (fun _ => rfl) (by simp [hu])
    (fun o' ho' => by
      simp only [Bool.and_eq_true, decide_eq_true_eq] at ho'
      exact ho'.1)
    (fun o' hsettled _ => by simp [hsettled])
  refine h.advance hk hholds (focused_status (skippedRow now) (deadAttempt now) hstatus hpending
    rfl (fun _ => rfl) (fun _ => rfl)) ?_ ?_ hcell hframe ?_ rfl
  · rw [← hlinked.outbox_run]; rfl
  · rw [← hlinked.outbox_attempt]; rfl
  · have honce : r.attemptCount = 1 := by
      rw [← (Live.number_cases hholds.live).1]
      exact hlinked.deadline hdue
    refine hholds.live.advance rfl rfl ?_ ⟨rfl, fun _ => ⟨rfl, honce⟩⟩
    exact { hlinked with
      unsettled := by simp [OutboxRow.unsettled, cancelledDispatch, deadAttempt]
      claimed := fun hc => by simp [cancelledDispatch] at hc
      unclaimed := fun _ => hlinked.unclaimed (by simp [hpending, AttemptStatus.rank]) }

theorem expireDispatch_outbox {s : Store} {o o' : OutboxRow} {now : Instant} (ho : o' ∈ s.outbox)
    (hne : o'.id ≠ o.id) : o' ∈ (expireDispatch now s o).outbox :=
  mem_update_of_not ho (by simp [hne])

/-- The pair of guarded updates of one expired dispatch, along the loop. -/
def DispatchesPaired (now : Instant) : List OutboxRow → Store → Prop
  | [], _ => True
  | o :: rest, s =>
    ((∃ a ∈ s.runAttempts, a.id = o.attemptId ∧ a.status = .pendingDispatch) →
      ∃ r ∈ s.runs, r.id = o.runId ∧ r.status = .pendingDispatch) ∧
    DispatchesPaired now rest (expireDispatch now s o)

theorem expireDispatches_loop (now : Instant) {rows : List OutboxRow} {s : Store}
    (h : Consistent s) (hrows : ∀ o ∈ rows, o ∈ s.outbox ∧ o.unsettled = true ∧
      o.dispatchDeadline.isSome = true)
    (hnodup : (rows.map OutboxRow.id).Nodup) :
    Consistent (rows.foldl (expireDispatch now) s) ∧ DispatchesPaired now rows s := by
  induction rows generalizing s with
  | nil => exact ⟨h, trivial⟩
  | cons o rest ih =>
    obtain ⟨ho, hu, hdue⟩ := hrows o List.mem_cons_self
    rw [List.map_cons, List.nodup_cons] at hnodup
    have hrest : ∀ o' ∈ rest, o' ∈ (expireDispatch now s o).outbox ∧ o'.unsettled = true ∧
        o'.dispatchDeadline.isSome = true := by
      intro o' ho'
      obtain ⟨hmem, hopen⟩ := hrows o' (List.mem_cons_of_mem o ho')
      refine ⟨expireDispatch_outbox hmem fun hid => ?_, hopen⟩
      exact hnodup.1 (hid ▸ List.mem_map_of_mem ho')
    obtain ⟨hconsistent, hpaired⟩ := ih (expireDispatch_consistent h ho hu hdue now) hrest hnodup.2
    refine ⟨hconsistent, fun _ => ?_, hpaired⟩
    obtain ⟨r, past, newest, hholds, rfl, _, hstatus⟩ := h.of_unsettled ho hu
    exact ⟨r, hholds.run_mem, hholds.live.newest_linked.outbox_run.symm, hstatus⟩

theorem expiredDispatches_rows (limit : ℕ) (locked : OutboxRow → Bool) (now : Instant) {s : Store}
    (hk : KeysUnique s) :
    (∀ o ∈ expiredDispatches limit locked now s, o ∈ s.outbox ∧ o.unsettled = true ∧
      o.dispatchDeadline.isSome = true) ∧
      ((expiredDispatches limit locked now s).map OutboxRow.id).Nodup := by
  refine ⟨fun o ho => ?_, selectBatch_nodup hk.outbox⟩
  obtain ⟨hmem, hp⟩ := mem_selectBatch ho
  rw [Bool.and_eq_true, Option.any_eq_true] at hp
  obtain ⟨hu, deadline, hdeadline, _⟩ := hp
  exact ⟨hmem, hu, by simp [hdeadline]⟩

/-- The cell of a Run whose ended Attempt is followed by a fresh one. -/
theorem Consistent.reopened {s t : Store} (h : Consistent s) (hk : KeysUnique t) {r : RunRow}
    {past : List Dispatch} {newest : Dispatch} (hholds : Holds s r past newest)
    {ids : DispatchIds} {now : Instant} {ended : AttemptRow}
    (hidempotent : r.executionSnapshot.idempotent = true) (hcount : r.attemptCount < r.maxAttempts)
    (hlinked : Linked r ⟨ended, newest.outbox⟩) (hterminal : ended.status.isTerminal = true)
    (hnumber : ended.attempt = newest.attempt.attempt)
    (hruns : t.runs = update (fun r' => r'.id = r.id && r'.status = r.status)
      (rescheduledRow (r.attemptCount + 1)) s.runs)
    (hattempts : attemptsOf t r.id =
      past.map Dispatch.attempt ++ [ended, newAttempt ids r.id (r.attemptCount + 1)])
    (hframe : ∀ y, y ≠ r.id → attemptsOf t y = attemptsOf s y)
    (houtbox : t.outbox = s.outbox ++ [newOutbox ids r.id r.queueId none now])
    (hexecutions : t.workflowNodeExecutions = s.workflowNodeExecutions) : Consistent t := by
  refine h.replace (x := r.id) hk ?_ ?_ hexecutions
  · have hrun : runsOf t r.id = [rescheduledRow (r.attemptCount + 1) r] := by
      rw [runsOf, hruns]
      exact hholds.runsOf_update (fun _ => rfl) (by simp)
    have hout : outboxOf t r.id = past.map Dispatch.outbox ++ [newest.outbox] ++
        [newOutbox ids r.id r.queueId none now] := by
      rw [outboxOf, houtbox, List.filter_append]
      have hold : s.outbox.filter (fun o => o.runId = r.id) =
        past.map Dispatch.outbox ++ [newest.outbox] := hholds.outbox_kept
      rw [hold]
      simp [newOutbox]
    have hfresh : Linked (rescheduledRow (r.attemptCount + 1) r)
        ⟨newAttempt ids r.id (r.attemptCount + 1), newOutbox ids r.id r.queueId none now⟩ :=
      ⟨rfl, rfl, rfl, rfl, rfl, by simp [OutboxRow.unsettled, newOutbox, newAttempt],
        fun hc => by simp [newOutbox] at hc, fun _ => rfl, fun hc => by simp [newOutbox] at hc⟩
    have hlive : Live (rescheduledRow (r.attemptCount + 1) r) (past ++ [⟨ended, newest.outbox⟩])
        ⟨newAttempt ids r.id (r.attemptCount + 1), newOutbox ids r.id r.queueId none now⟩ :=
      hholds.live.reopen rfl hidempotent hcount hlinked hterminal hnumber hfresh rfl rfl
    rw [hrun, hattempts, hout]
    simpa using Coherent.live hlive
  · intro y hy
    refine ⟨?_, hframe y hy, ?_⟩
    · rw [runsOf, hruns]
      refine runsOf_update_ne (fun _ => rfl) (fun r' hp => ?_) hy
      simp only [Bool.and_eq_true, decide_eq_true_eq] at hp
      exact hp.1
    · rw [outboxOf, houtbox, List.filter_append]
      simp [outboxOf, newOutbox, hy.symm]

theorem reopenDueRetry_consistent {s t : Store} (h : Consistent s) {fresh : Uuid → DispatchIds}
    {now : Instant} {r : RunRow} (hr : r ∈ s.runs) (hstatus : r.status = .retryWait)
    (hreopen : reopenDueRetry fresh now s r = .ok t) : Consistent t := by
  have hk := (Writes.of_execution (reopenDueRetry_writes hreopen)).keysUnique h.keys
  rcases h.run_cases hr with ⟨_, _, _, hterminal⟩ | ⟨past, newest, hholds⟩
  · simp [hstatus] at hterminal
  have hagrees := hholds.live.agrees
  simp only [Agrees, hstatus] at hagrees
  obtain ⟨hfailed, hidempotent, hcount⟩ := hagrees
  unfold reopenDueRetry at hreopen
  rw [hholds.live.queue] at hreopen
  obtain ⟨_, _, rfl⟩ := createAttemptAndOutbox_ok (reopenRun_ok hreopen)
  refine Consistent.reopened h hk hholds hidempotent hcount hholds.live.newest_linked
    (by rw [hfailed]; rfl) rfl (by rw [hstatus]; rfl) ?_ ?_ rfl rfl
  · have hold : s.runAttempts.filter (fun a => a.runId = r.id) =
      (past ++ [newest]).map Dispatch.attempt := hholds.attempts
    simp [attemptsOf, rescheduleRun, updateRuns, hold, newAttempt]
  · intro y hy
    simp [attemptsOf, rescheduleRun, updateRuns, newAttempt, hy.symm]

theorem rescheduleRun_runs {s : Store} {r : RunRow} {x : Uuid} (status : RunStatus) (attempt : ℕ)
    (now : Instant) (hr : r ∈ s.runs) (hne : r.id ≠ x) :
    r ∈ (rescheduleRun x status attempt now s).runs :=
  mem_update_of_not hr (by simp [hne])

theorem reopenDueRetry_runs {s t : Store} {fresh : Uuid → DispatchIds} {now : Instant}
    {r r' : RunRow} (hreopen : reopenDueRetry fresh now s r = .ok t) (hr : r' ∈ s.runs)
    (hne : r'.id ≠ r.id) : r' ∈ t.runs := by
  unfold reopenDueRetry at hreopen
  split at hreopen
  · cases hreopen
  · obtain ⟨_, _, rfl⟩ := createAttemptAndOutbox_ok (reopenRun_ok hreopen)
    exact rescheduleRun_runs .retryWait (r.attemptCount + 1) now hr hne

theorem dueRetries_loop {fresh : Uuid → DispatchIds} {now : Instant} {rows : List RunRow}
    {s t : Store} (h : Consistent s) (hrows : ∀ r ∈ rows, r ∈ s.runs ∧ r.status = .retryWait)
    (hnodup : (rows.map RunRow.id).Nodup)
    (hloop : rows.foldlM (reopenDueRetry fresh now) s = .ok t) : Consistent t := by
  induction rows generalizing s with
  | nil =>
    cases hloop
    exact h
  | cons r rest ih =>
    obtain ⟨s₁, h₁, h₂⟩ := ok_of_bind hloop
    obtain ⟨hr, hstatus⟩ := hrows r List.mem_cons_self
    rw [List.map_cons, List.nodup_cons] at hnodup
    refine ih (reopenDueRetry_consistent h hr hstatus h₁) (fun r' hr' => ?_) hnodup.2 h₂
    obtain ⟨hmem, hwait⟩ := hrows r' (List.mem_cons_of_mem r hr')
    exact ⟨reopenDueRetry_runs h₁ hmem fun hid => hnodup.1 (hid ▸ List.mem_map_of_mem hr'), hwait⟩

theorem dueRetries_rows {limit : ℕ} {locked : RunRow → Bool} {now : Instant} {s : Store}
    (hk : KeysUnique s) :
    (∀ r ∈ dueRetries limit locked now s, r ∈ s.runs ∧ r.status = .retryWait) ∧
      ((dueRetries limit locked now s).map RunRow.id).Nodup := by
  refine ⟨fun r hr => ?_, selectBatch_nodup hk.runs⟩
  obtain ⟨hmem, hp⟩ := mem_selectBatch hr
  simp only [Bool.and_eq_true, decide_eq_true_eq] at hp
  exact ⟨hmem, hp.1⟩

theorem abandonLease_consistent {s : Store} (h : Consistent s) {r : RunRow}
    {past : List Dispatch} {newest : Dispatch} (hholds : Holds s r past newest)
    (hrunning : newest.attempt.status = .running) (now : Instant) :
    Consistent (abandonRun r.id now (endLease newest.attempt.id false now s)) := by
  have hk : KeysUnique (abandonRun r.id now (endLease newest.attempt.id false now s)) :=
    (abandonRun_write _ _ _).keysUnique ((endLease_write _ _ _ _).keysUnique h.keys)
  have hlinked := hholds.live.newest_linked
  have hstatus := hholds.live.status_of_running hrunning
  refine h.advance hk hholds (focused_status (abandonedRow now) (endedAttempt false now) hstatus
    hrunning rfl (fun _ => rfl) (fun _ => rfl)) rfl rfl hholds.outbox_kept (fun _ _ => rfl) ?_ rfl
  refine hholds.live.advance rfl rfl ?_ rfl
  exact { hlinked with
    unsettled := by rw [hlinked.unsettled, hrunning]; simp [endedAttempt]
    unclaimed := fun hidle => by simp [endedAttempt, AttemptStatus.rank] at hidle }

theorem endLease_attempts {s : Store} (h : Consistent s) {r : RunRow} {past : List Dispatch}
    {newest : Dispatch} (hholds : Holds s r past newest)
    (hrunning : newest.attempt.status = .running) (retry : Bool) (now : Instant) :
    attemptsOf (endLease newest.attempt.id retry now s) r.id =
        past.map Dispatch.attempt ++ [endedAttempt retry now newest.attempt] ∧
      ∀ y, y ≠ r.id → attemptsOf (endLease newest.attempt.id retry now s) y = attemptsOf s y := by
  have hrun : newest.attempt.runId = r.id := hholds.live.newest_linked.attempt_run
  have hmem := hholds.attempt_mem (List.mem_append_right past (List.mem_singleton_self newest))
  constructor
  · refine hholds.attemptsOf_update (fun _ => rfl) (by simp [hrunning]) fun b hb => ?_
    by_contra hp
    simp only [Bool.not_eq_false, Bool.and_eq_true, decide_eq_true_eq] at hp
    simp [hp.2] at hb
  · intro y hy
    refine attemptsOf_update_ne h.keys (fun _ => rfl) hmem (fun b hb => ?_) (by rw [hrun]; exact hy)
    simp only [Bool.and_eq_true, decide_eq_true_eq] at hb
    exact hb.1

theorem retryable_iff {r : RunRow} : retryable r = true ↔
    r.executionSnapshot.idempotent = true ∧ r.attemptCount < r.maxAttempts := by
  simp [retryable]

theorem expireLease_consistent {s t : Store} (h : Consistent s) {fresh : Uuid → DispatchIds}
    {now : Instant} {a : AttemptRow} {r : RunRow} (ha : a ∈ s.runAttempts) (hr : r ∈ s.runs)
    (hrun : a.runId = r.id) (hrunning : a.status = .running)
    (hexpire : expireLease fresh now s (a, r) = .ok t) : Consistent t := by
  have hk := (Writes.of_execution (expireLease_writes hexpire)).keysUnique h.keys
  obtain ⟨r', past, newest, hholds, rfl, hid, hstatus⟩ := h.of_running ha hrunning
  have hsame : r' = r := row_unique h.keys.runs hholds.run_mem hr (by rw [hid, hrun])
  subst hsame
  unfold expireLease at hexpire
  rw [hholds.live.queue] at hexpire
  simp only at hexpire
  split at hexpire
  · rename_i hretry
    obtain ⟨hidempotent, hcount⟩ := retryable_iff.mp hretry
    have hlinked := hholds.live.newest_linked
    obtain ⟨hended, hframe⟩ := endLease_attempts h hholds hrunning true now
    obtain ⟨_, _, rfl⟩ := createAttemptAndOutbox_ok (reopenRun_ok hexpire)
    refine Consistent.reopened h hk hholds hidempotent hcount
      (?_ : Linked r' ⟨endedAttempt true now newest.attempt, newest.outbox⟩) rfl rfl
      (by rw [hstatus]; rfl) ?_ ?_ rfl rfl
    · exact { hlinked with
        unsettled := by rw [hlinked.unsettled, hrunning]; simp [endedAttempt]
        unclaimed := fun hidle => by simp [endedAttempt, AttemptStatus.rank] at hidle }
    · rw [attemptsOf, List.filter_append]
      change attemptsOf (endLease newest.attempt.id true now s) r'.id ++ _ = _
      rw [hended]
      simp [newAttempt]
    · intro y hy
      rw [← hframe y hy, attemptsOf, List.filter_append]
      simp [attemptsOf, rescheduleRun, updateRuns, newAttempt, hy.symm]
  · cases hexpire
    exact abandonLease_consistent h hholds hrunning now

theorem expireLease_rows {s t : Store} {fresh : Uuid → DispatchIds} {now : Instant}
    {a : AttemptRow} {r : RunRow} (hexpire : expireLease fresh now s (a, r) = .ok t) :
    (∀ a' ∈ s.runAttempts, a'.id ≠ a.id → a' ∈ t.runAttempts) ∧
      ∀ r' ∈ s.runs, r'.id ≠ r.id → r' ∈ t.runs := by
  have hattempt (retry : Bool) : ∀ a' ∈ s.runAttempts, a'.id ≠ a.id →
      a' ∈ (endLease a.id retry now s).runAttempts :=
    fun a' ha' hne => mem_update_of_not ha' (by simp [hne])
  unfold expireLease at hexpire
  split at hexpire
  · cases hexpire
  simp only at hexpire
  split at hexpire
  · obtain ⟨_, _, rfl⟩ := createAttemptAndOutbox_ok (reopenRun_ok hexpire)
    refine ⟨fun a' ha' hne => List.mem_append_left _ (hattempt true a' ha' hne), ?_⟩
    intro r' hr' hne
    exact rescheduleRun_runs .running (r.attemptCount + 1) now hr' hne
  · cases hexpire
    exact ⟨hattempt false, fun r' hr' hne => mem_update_of_not hr' (by simp [hne])⟩

/-- The pair of guarded updates of one expired lease, along the loop. -/
def LeasesPaired (fresh : Uuid → DispatchIds) (now : Instant) :
    List (AttemptRow × RunRow) → Store → Prop
  | [], _ => True
  | row :: rest, s =>
    ((∃ a ∈ s.runAttempts, a.id = row.1.id ∧ a.status = .running) →
      ∃ r ∈ s.runs, r.id = row.2.id ∧ r.status = .running) ∧
    ∀ t, expireLease fresh now s row = .ok t → LeasesPaired fresh now rest t

def LeaseRow (s : Store) (row : AttemptRow × RunRow) : Prop :=
  row.1 ∈ s.runAttempts ∧ row.2 ∈ s.runs ∧ row.1.runId = row.2.id ∧ row.1.status = .running

theorem LeaseRow.distinct {s : Store} (h : Consistent s) {row row' : AttemptRow × RunRow}
    (hrow : LeaseRow s row) (hrow' : LeaseRow s row') (hne : row'.1.id ≠ row.1.id) :
    row'.2.id ≠ row.2.id := by
  intro hid
  obtain ⟨r, past, newest, hholds, hnewest, hrun, _⟩ := h.of_running hrow.1 hrow.2.2.2
  obtain ⟨r', past', newest', hholds', hnewest', hrun', _⟩ := h.of_running hrow'.1 hrow'.2.2.2
  have hsame : r' = r := row_unique h.keys.runs hholds'.run_mem hholds.run_mem
    (by rw [hrun, hrun', hrow.2.2.1, hrow'.2.2.1, hid])
  subst hsame
  have hmem := hholds'.attempts ▸ hholds.attempts
  have hd : row'.1 ∈ (past ++ [newest]).map Dispatch.attempt := by
    rw [← hholds.attempts, hholds'.attempts, ← hnewest']
    exact List.mem_map_of_mem (List.mem_append_right _ (List.mem_singleton_self newest'))
  obtain ⟨d, hd, hattempt⟩ := List.mem_map.mp hd
  have hopen : d = newest := hholds.live.newest_of_open hd (by
    rw [hattempt, hrow'.2.2.2]
    rfl)
  exact hne (by rw [← hattempt, hopen, hnewest])

theorem expireLeases_loop {fresh : Uuid → DispatchIds} {now : Instant}
    {rows : List (AttemptRow × RunRow)} {s : Store} (h : Consistent s)
    (hrows : ∀ row ∈ rows, LeaseRow s row) (hnodup : (rows.map fun row => row.1.id).Nodup) :
    (∀ t, rows.foldlM (expireLease fresh now) s = .ok t → Consistent t) ∧
      LeasesPaired fresh now rows s := by
  induction rows generalizing s with
  | nil =>
    refine ⟨fun t ht => ?_, trivial⟩
    cases ht
    exact h
  | cons row rest ih =>
    have hrow := hrows row List.mem_cons_self
    rw [List.map_cons, List.nodup_cons] at hnodup
    have hnext : ∀ s₁, expireLease fresh now s row = .ok s₁ →
        Consistent s₁ ∧ ∀ row' ∈ rest, LeaseRow s₁ row' := by
      intro s₁ h₁
      refine ⟨expireLease_consistent h hrow.1 hrow.2.1 hrow.2.2.1 hrow.2.2.2 h₁, ?_⟩
      intro row' hrow'
      have hold := hrows row' (List.mem_cons_of_mem row hrow')
      have hne : row'.1.id ≠ row.1.id := fun hid =>
        hnodup.1 (hid ▸ List.mem_map_of_mem (f := fun row => row.1.id) hrow')
      obtain ⟨hattempts, hruns⟩ := expireLease_rows h₁
      exact ⟨hattempts _ hold.1 hne, hruns _ hold.2.1 (hrow.distinct h hold hne), hold.2.2⟩
    refine ⟨fun t ht => ?_, fun _ => ?_, fun s₁ h₁ => ?_⟩
    · obtain ⟨s₁, h₁, h₂⟩ := ok_of_bind ht
      obtain ⟨hconsistent, hrest⟩ := hnext s₁ h₁
      exact (ih hconsistent hrest hnodup.2).1 t h₂
    · obtain ⟨r, past, newest, hholds, _, hid, hstatus⟩ := h.of_running hrow.1 hrow.2.2.2
      exact ⟨r, hholds.run_mem, by rw [hid, hrow.2.2.1], hstatus⟩
    · obtain ⟨hconsistent, hrest⟩ := hnext s₁ h₁
      exact (ih hconsistent hrest hnodup.2).2

theorem attemptJoinRun_nodup {s : Store} (hk : KeysUnique s) :
    ((attemptJoinRun s).map fun row => row.1.id).Nodup := by
  unfold attemptJoinRun
  have hattempts := hk.attempts
  generalize s.runAttempts = attempts at hattempts
  induction attempts with
  | nil => exact List.nodup_nil
  | cons a attempts ih =>
    rw [List.map_cons, List.nodup_cons] at hattempts
    rw [List.flatMap_cons, List.map_append, List.nodup_append]
    refine ⟨?_, ih hattempts.2, ?_⟩
    · have hlength : (s.runs.filter fun r => r.id = a.runId).length ≤ 1 := by
        rw [← List.countP_eq_length_filter]
        have hcount := List.nodup_iff_count_le_one.mp hk.runs a.runId
        rw [List.count, List.countP_map] at hcount
        refine le_of_eq_of_le (List.countP_congr fun r _ => ?_) hcount
        simp
      rcases hcell : s.runs.filter fun r => r.id = a.runId with _ | ⟨r, _ | ⟨r', rest⟩⟩
      · simp [hcell]
      · simp [hcell]
      · simp [hcell] at hlength
    · intro x hx y hy hxy
      simp only [List.map_map, List.mem_map, Function.comp_apply] at hx
      obtain ⟨_, _, rfl⟩ := hx
      simp only [List.mem_map, List.mem_flatMap] at hy
      obtain ⟨row, ⟨b, hb, hrow⟩, rfl⟩ := hy
      obtain ⟨_, _, rfl⟩ := hrow
      exact hattempts.1 (List.mem_map.mpr ⟨b, hb, hxy.symm⟩)

theorem expiredLeases_rows {limit : ℕ} {locked : AttemptRow × RunRow → Bool} {now : Instant}
    {s : Store} (hk : KeysUnique s) :
    (∀ row ∈ expiredLeases limit locked now s, LeaseRow s row) ∧
      ((expiredLeases limit locked now s).map fun row => row.1.id).Nodup := by
  refine ⟨fun row hrow => ?_, selectBatch_nodup (attemptJoinRun_nodup hk)⟩
  obtain ⟨hmem, hp⟩ := mem_selectBatch hrow
  simp only [attemptJoinRun, List.mem_flatMap, List.mem_map, List.mem_filter,
    decide_eq_true_eq] at hmem
  obtain ⟨a, ha, r, ⟨hr, hid⟩, rfl⟩ := hmem
  simp only [Bool.and_eq_true, decide_eq_true_eq] at hp
  exact ⟨ha, hr, hid.symm, hp.1⟩

theorem reconcile_consistent {s : Store} (h : Consistent s) (pass : RepairPass) :
    Consistent (RunStore.reconcile pass s).2 := by
  rcases reconcile_cases pass s with hr | ⟨s₁, s₂, h₁, h₂, hr⟩
  · rw [hr]
    exact h
  rw [hr]
  obtain ⟨hdispatches, hnodup⟩ :=
    expiredDispatches_rows pass.limit pass.lockedOutbox pass.dispatchesAt h.keys
  have hexpired := (expireDispatches_loop pass.dispatchesAt h hdispatches hnodup).1
  obtain ⟨hretries, hnodup⟩ := dueRetries_rows hexpired.keys
  have hretried := dueRetries_loop hexpired hretries hnodup h₁
  obtain ⟨hleases, hnodup⟩ := expiredLeases_rows hretried.keys
  have hended := (expireLeases_loop hretried hleases hnodup).1 s₂ h₂
  exact hended.touchOutbox (fun o => ⟨rfl, rfl, rfl, rfl, rfl, rfl, rfl⟩)
    (fun o _ _ hc => by simp at hc)

theorem createNormalRun_consistent {s t : Store} (h : Consistent s) {ids : DispatchIds}
    {prepared : PreparedRun} {now : Instant}
    (hqueue : prepared.snapshot.queueId = some prepared.queueId)
    (hcreate : createNormalRun ids prepared now s = .ok t) : Consistent t := by
  obtain ⟨s₁, s₂, h₁, h₂, rfl⟩ := createNormalRun_ok hcreate
  exact (h.insertLive h₁ h₂ rfl rfl hqueue).insertRunEvent _ _ _

theorem insertRunRequest_consistent {s t : Store} (h : Consistent s) {row : RunRequestRow}
    (hinsert : insertRunRequest row s = .ok t) : Consistent t := by
  have hwrite : ExecutionWrite ⟨none, some row.requestId, none, false⟩ s t :=
    .insertRunRequest (.inl rfl) hinsert
  have hk := hwrite.keysUnique h.keys
  obtain ⟨_, rfl⟩ := insertRunRequest_ok hinsert
  exact h.of_tables hk rfl rfl rfl h.executions

theorem createPreparedRuns_consistent {s t : Store} (h : Consistent s) {fresh : FreshRuns}
    {now : Instant} {prepared : List PreparedRun}
    (hqueue : ∀ p ∈ prepared, p.snapshot.queueId = some p.queueId)
    (hcreate : createPreparedRuns fresh now prepared s = .ok t) : Consistent t := by
  induction prepared generalizing s with
  | nil =>
    cases hcreate
    exact h
  | cons p rest ih =>
    obtain ⟨s₁, h₁, h₂⟩ := ok_of_bind hcreate
    exact ih (createNormalRun_consistent h (hqueue p List.mem_cons_self) h₁)
      (fun q hq => hqueue q (List.mem_cons_of_mem p hq)) h₂

theorem createRuns_consistent {s : Store} (h : Consistent s) (R : Rendering)
    (requestId jobId : Uuid) (target : TargetSelection) (inputs : Value) (fresh : FreshRuns)
    (now : Instant) : Consistent (commitRequest s
      (createRunsTransaction R requestId jobId target inputs fresh now s)) := by
  rcases hc : createRunsTransaction R requestId jobId target inputs fresh now s with e | ⟨c, t⟩
  · exact h
  · rcases createRunsTransaction_ok hc with ⟨_, rfl, _⟩ |
      ⟨_, executions, setInputs, prepared, _, s₁, _, hprepared, h₁, h₂⟩
    · exact h
    · refine createPreparedRuns_consistent (insertRunRequest_consistent h h₁) (fun p hp => ?_) h₂
      obtain ⟨_, _, hp⟩ := mapM_ok_mem hprepared hp
      obtain ⟨_, snapshot, hsnapshot, hqueue⟩ := prepareRun_ok hp
      rw [hsnapshot, ← hqueue]
      rfl

theorem insertRerun_consistent {s : Store} (h : Consistent s) (F : FloatFormat)
    (sourceId requestId runId : Uuid) (ids : DispatchIds) (now : Instant) :
    Consistent (commitRequest s
      (insertRerunTransaction F sourceId requestId runId ids now s)) := by
  rcases hc : insertRerunTransaction F sourceId requestId runId ids now s with e | ⟨c, t⟩
  · exact h
  · rcases insertRerunTransaction_ok hc with
      ⟨_, rfl, _⟩ | ⟨_, _, _, _, s₁, s₂, s₃, _, _, h₁, h₂, h₃, rfl⟩
    · exact h
    · exact ((insertRunRequest_consistent h h₁).insertLive h₂ h₃ rfl rfl rfl).insertRunEvent _ _ _

theorem insertScheduledOccurrence_consistent {s t : Store} (h : Consistent s) {R : Rendering}
    {scheduleId : Uuid} {fresh : FreshOccurrences} {occurrence : PlannedOccurrence}
    {execution : ExecutionRow} {setInputs : Option Value} {inputs : Value} {now : Instant}
    (hinsert : insertScheduledOccurrence R scheduleId fresh occurrence execution setInputs inputs
      now s = .ok t) : Consistent t := by
  rcases insertScheduledOccurrence_ok hinsert with rfl | ⟨s₁, s₂, h₁, h₂, rfl⟩
  · exact h
  have hrecord : Consistent s₂ := by
    rcases occurrenceRow_cases R (fresh.runId occurrence.scheduledAt execution.targetId) occurrence
        execution setInputs inputs with ⟨hpending, snapshot, hcolumn, hsnapshot⟩ | hterminal
    · rw [dispatchOccurrence, if_pos hpending] at h₂
      refine h.insertLive h₁ h₂ (by simp [occurrenceRun, hpending]) hpending ?_
      simp only [occurrenceRun, hcolumn]
      exact congrArg some (executionSnapshot_queueId hsnapshot)
    · have hpending : (occurrenceRow R (fresh.runId occurrence.scheduledAt execution.targetId)
          occurrence execution setInputs inputs).2.1 ≠ .pendingDispatch := by
        intro hpending
        simp [hpending] at hterminal
      rw [dispatchOccurrence, if_neg hpending] at h₂
      cases h₂
      exact h.insertInert h₁ (by simp [occurrenceRun, hpending]) hterminal
  exact hrecord.of_tables { hrecord.keys with } rfl rfl rfl hrecord.executions

theorem commitSchedulePlan_consistent {s : Store} (h : Consistent s) (R : Rendering)
    (plan : SchedulePlan) (fresh : FreshOccurrences) (now : Instant) :
    Consistent (commitSchedulePlan R plan fresh now s).2 := by
  rcases commitSchedulePlan_cases R plan fresh now s with hc | ⟨setInputs, inputs, rows, t, ht, hc⟩
  · rw [hc]
    exact h
  · rw [hc]
    have hrows : Consistent t := by
      clear hc
      induction rows generalizing s with
      | nil =>
        cases ht
        exact h
      | cons row rest ih =>
        obtain ⟨s₁, h₁, h₂⟩ := ok_of_bind ht
        exact ih (insertScheduledOccurrence_consistent h h₁) h₂
    exact hrows.of_tables { hrows.keys with } rfl rfl rfl hrows.executions

theorem claimOutbox_consistent {s : Store} (h : Consistent s) (owner : Uuid) (limit : ℕ)
    (leaseSeconds : ℤ) (locked : OutboxRow → Bool) (now : Instant) :
    Consistent (claimOutbox owner limit leaseSeconds locked now s).2 := by
  refine h.touchOutbox (fun o => ⟨rfl, rfl, rfl, rfl, rfl, rfl, rfl⟩) fun o ho hp _ => ?_
  simp only [List.any_eq_true, decide_eq_true_eq] at hp
  obtain ⟨c, hc, hid⟩ := hp
  obtain ⟨hmem, hclaimable⟩ := mem_selectBatch hc
  have hsame : c = o := row_unique h.keys.outbox hmem ho hid
  subst hsame
  simp only [claimable, Bool.and_eq_true] at hclaimable
  exact hclaimable.1.1.1

theorem recordPublishFailure_consistent {s : Store} (h : Consistent s) (owner dispatchId : Uuid)
    (message : String) (nextAttemptAt : Instant) :
    Consistent (recordPublishFailure owner dispatchId message nextAttemptAt s) :=
  h.touchOutbox (fun o => ⟨rfl, rfl, rfl, rfl, rfl, rfl, rfl⟩) (fun o _ _ hc => by simp at hc)

theorem renewLease_consistent {s : Store} (h : Consistent s) (request : LeaseRequest)
    (now : Instant) : Consistent (renewLease request now s).2 :=
  h.touchAttempts fun _ => ⟨rfl, rfl, rfl, rfl, rfl⟩

theorem recordAttemptOutput_consistent {s : Store} (h : Consistent s)
    (request : OutputSnapshotRequest) (now : Instant) :
    Consistent (recordAttemptOutput request now s).2 := by
  unfold recordAttemptOutput
  split
  · exact h
  · exact h.touchAttempts fun _ => ⟨rfl, rfl, rfl, rfl, rfl⟩

theorem WorkflowWrite.consistent {s t : Store}
    (hw : WorkflowWrite ⟨none, none, none, true⟩ s t) (h : Consistent s)
    (hexecutions : ∀ e ∈ t.workflowNodeExecutions,
      e.executionSnapshot.queueId = some e.queueId) : Consistent t := by
  have hk := hw.keysUnique h.keys
  cases hw with
  | insertWorkflowRun _ hi =>
    obtain ⟨_, rfl⟩ := insertWorkflowRun_ok hi
    exact h.of_tables hk rfl rfl rfl hexecutions
  | insertNodeRun _ hi =>
    obtain ⟨_, _, _, rfl⟩ := insertNodeRun_ok hi
    exact h.of_tables hk rfl rfl rfl hexecutions
  | insertRunEdge _ hi =>
    obtain ⟨_, _, rfl⟩ := insertRunEdge_ok hi
    exact h.of_tables hk rfl rfl rfl hexecutions
  | insertNodeExecution _ hi =>
    obtain ⟨_, _, _, _, _, rfl⟩ := insertNodeExecution_ok hi
    exact h.of_tables hk rfl rfl rfl hexecutions
  | updateWorkflowRuns => exact h.of_tables hk rfl rfl rfl hexecutions
  | updateNodeRuns => exact h.of_tables hk rfl rfl rfl hexecutions
  | updateNodeExecutions => exact h.of_tables hk rfl rfl rfl hexecutions
  | deleteEvents => exact h.of_tables hk rfl rfl rfl hexecutions

theorem updateNodeRuns_consistent {s : Store} (h : Consistent s)
    {p : WorkflowNodeRunRow → Bool} {f : WorkflowNodeRunRow → WorkflowNodeRunRow}
    (hf : ∀ n, (f n).id = n.id) : Consistent (updateNodeRuns p f s) :=
  h.of_tables { h.keys with
    nodeRuns := (map_update fun n _ _ => hf n).symm ▸ h.keys.nodeRuns } rfl rfl rfl h.executions

theorem updateWorkflowRuns_consistent {s : Store} (h : Consistent s)
    {p : WorkflowRunRow → Bool} {f : WorkflowRunRow → WorkflowRunRow}
    (hf : ∀ w, (f w).id = w.id ∧ (f w).requestId = w.requestId) :
    Consistent (updateWorkflowRuns p f s) :=
  h.of_tables { h.keys with
    workflowRuns := (map_update fun w _ _ => (hf w).1).symm ▸ h.keys.workflowRuns
    workflowRequests := (map_update fun w _ _ => (hf w).2).symm ▸ h.keys.workflowRequests }
    rfl rfl rfl h.executions

theorem startNode_consistent {s : Store} (h : Consistent s) (now : Instant) (nodeId : Uuid) :
    Consistent (startNode now nodeId s) :=
  updateNodeRuns_consistent h fun _ => rfl

theorem skipNode_consistent {s : Store} (h : Consistent s) (now : Instant) (nodeId : Uuid) :
    Consistent (skipNode now nodeId s) :=
  updateNodeRuns_consistent h fun _ => rfl

theorem cancelPending_consistent {s : Store} (h : Consistent s) (now : Instant) (id : Uuid) :
    Consistent (cancelPending now id s) := by
  have hrequested : Consistent (updateWorkflowRuns (fun w => w.id = id)
      (fun w => { w with cancellationRequested := true }) s) :=
    updateWorkflowRuns_consistent h fun _ => ⟨rfl, rfl⟩
  exact updateNodeRuns_consistent hrequested fun _ => rfl

theorem recordLaunch_consistent {s : Store} (h : Consistent s) (nodeId targetId : Uuid) :
    Consistent (recordLaunch nodeId targetId s) := by
  refine WorkflowWrite.consistent (recordLaunch_write nodeId targetId s) h fun x hx => ?_
  obtain ⟨y, hy, rfl⟩ := mem_update.mp hx
  have hold := h.executions y hy
  split <;> exact hold

theorem launchExecutions_consistent {s t : Store} (h : Consistent s)
    {dispatch : Launching} {nodeId jobId : Uuid} {now : Instant}
    {executions : List WorkflowNodeExecutionRow}
    (hqueue : ∀ e ∈ executions, e.executionSnapshot.queueId = some e.queueId)
    (hlaunch : launchExecutions dispatch nodeId jobId now executions s = .ok t) :
    Consistent t := by
  induction executions generalizing s with
  | nil =>
    cases hlaunch
    exact h
  | cons e rest ih =>
    obtain ⟨s₁, h₁, h₂⟩ := ok_of_bind hlaunch
    have hqueued : (preparedExecution dispatch.floats nodeId jobId e).snapshot.queueId =
        some e.queueId := by
      rw [preparedExecution, rereadColumn_queueId]
      exact hqueue e List.mem_cons_self
    have hrun := createNormalRun_consistent h hqueued h₁
    exact ih (recordLaunch_consistent hrun nodeId e.targetId)
      (fun x hx => hqueue x (List.mem_cons_of_mem e hx)) h₂

theorem activate_consistent {s t : Store} (h : Consistent s)
    {dispatch : Launching} {now : Instant} {nodeId : Uuid}
    (hactivate : activate dispatch now nodeId s = .ok t) : Consistent t := by
  unfold activate at hactivate
  split at hactivate
  · cases hactivate
    exact h
  · refine launchExecutions_consistent (startNode_consistent h now nodeId)
      (fun e he => ?_) hactivate
    have hmem := (List.perm_insertionSort _ _).mem_iff.mp he
    exact h.executions e (List.mem_of_mem_filter hmem)

theorem prepareExecutions_consistent {s t : Store} (h : Consistent s) {R : Rendering}
    {fresh : FreshLaunch} {definition : StoredWorkflow} {launch : WorkflowLaunch}
    {node : StoredNode} {setInputs : Option Value} {executions : List ExecutionRow}
    {bytes bytes' : ℕ} (hprepare : prepareExecutions R fresh definition launch node setInputs
      executions bytes s = .ok (bytes', t)) : Consistent t := by
  induction executions generalizing bytes s with
  | nil =>
    cases hprepare
    exact h
  | cons e rest ih =>
    obtain ⟨⟨bytes₁, s₁⟩, h₁, h₂⟩ := ok_of_bind hprepare
    obtain ⟨row, hrow, _, _, hinsert⟩ := prepareExecution_ok h₁
    refine ih (WorkflowWrite.consistent (.insertNodeExecution rfl hinsert) h ?_) h₂
    obtain ⟨_, _, _, _, _, rfl⟩ := insertNodeExecution_ok hinsert
    intro x hx
    rcases List.mem_append.mp hx with hx | hx
    · exact h.executions x hx
    · rw [List.mem_singleton.mp hx]
      exact hrow.queue

theorem prepareNodes_consistent {s t : Store} (h : Consistent s) {R : Rendering}
    {fresh : FreshLaunch} {definition : StoredWorkflow} {launch : WorkflowLaunch}
    {nodes : List StoredNode} {totals : PreparedTotals}
    (hprepare : prepareNodes R fresh definition launch nodes totals s = .ok t) :
    Consistent t := by
  induction nodes generalizing totals s with
  | nil =>
    cases hprepare
    exact h
  | cons node rest ih =>
    obtain ⟨⟨totals₁, s₁⟩, h₁, h₂⟩ := ok_of_bind hprepare
    obtain ⟨_, _, _, _, s₂, s₃, h₃, _, _, h₄, _, h₅⟩ := prepareNode_ok h₁
    have hnode : Consistent s₂ := by
      refine WorkflowWrite.consistent (.insertNodeRun rfl h₃) h ?_
      obtain ⟨_, _, _, rfl⟩ := insertNodeRun_ok h₃
      exact h.executions
    exact ih (prepareExecutions_consistent (insertRunRequest_consistent hnode h₄) h₅) h₂

theorem insertRunEdges_consistent {s t : Store} (h : Consistent s) {fresh : FreshLaunch}
    {definition : StoredWorkflow} {edges : List WorkflowEdge}
    (hedges : insertRunEdges fresh definition edges s = .ok t) : Consistent t := by
  induction edges generalizing s with
  | nil =>
    cases hedges
    exact h
  | cons edge rest ih =>
    obtain ⟨_, _, hedges⟩ := ok_of_bind hedges
    obtain ⟨_, _, hedges⟩ := ok_of_bind hedges
    obtain ⟨s₁, h₁, h₂⟩ := ok_of_bind hedges
    refine ih (WorkflowWrite.consistent (.insertRunEdge rfl h₁) h ?_) h₂
    obtain ⟨_, _, rfl⟩ := insertRunEdge_ok h₁
    exact h.executions

theorem activateRoots_consistent {s t : Store} (h : Consistent s) {F : FloatFormat}
    {fresh : FreshLaunch} {definition : StoredWorkflow} {now : Instant} {nodes : List StoredNode}
    (hroots : activateRoots F fresh definition now nodes s = .ok t) : Consistent t := by
  induction nodes generalizing s with
  | nil =>
    cases hroots
    exact h
  | cons node rest ih =>
    unfold activateRoots at hroots
    split at hroots
    · exact ih h hroots
    · obtain ⟨s₁, h₁, h₂⟩ := ok_of_bind hroots
      exact ih (activate_consistent h h₁) h₂

theorem start_consistent {s : Store} (h : Consistent s) (R : Rendering) (fresh : FreshLaunch)
    (launch : WorkflowLaunch) (now : Instant) : Consistent (start R fresh launch now s).2 := by
  rcases start_cases R fresh launch now s with hs | ⟨_, t, ht, hs⟩
  · rw [hs]
    exact h
  · rw [hs]
    obtain ⟨_, _, s₁, s₂, s₃, h₁, h₂, h₃, h₄, _, _⟩ := startFresh_ok ht
    have hrun : Consistent s₁ := by
      refine WorkflowWrite.consistent (.insertWorkflowRun rfl h₁) h ?_
      obtain ⟨_, rfl⟩ := insertWorkflowRun_ok h₁
      exact h.executions
    exact activateRoots_consistent
      (insertRunEdges_consistent (prepareNodes_consistent hrun h₂) h₃) h₄

theorem completeNodes_consistent {s : Store} (h : Consistent s) (order : QueueOrder)
    (observed : Uuid → List RunStatus) (now : Instant) (nodes downstream : List Uuid) :
    Consistent (completeNodes order observed now nodes downstream s).2 := by
  induction nodes generalizing downstream s with
  | nil => exact h
  | cons nodeId rest ih =>
    refine ih ?_ _
    unfold completeNode
    split
    · exact h
    · exact updateNodeRuns_consistent h fun _ => rfl

theorem propagate_consistent {s t : Store} (h : Consistent s) {order : QueueOrder}
    {dispatch : Launching} {now : Instant} {rounds : ℕ} {queue : List Uuid}
    (hpropagate : propagate order dispatch now rounds queue s = .ok t) : Consistent t := by
  induction rounds generalizing queue s with
  | zero =>
    cases queue with
    | nil =>
      cases hpropagate
      exact h
    | cons => cases hpropagate
  | succ rounds ih =>
    cases queue with
    | nil =>
      cases hpropagate
      exact h
    | cons id queue =>
      unfold propagate at hpropagate
      split at hpropagate
      · cases hpropagate
      · exact ih h hpropagate
      · split at hpropagate
        · exact ih h hpropagate
        · obtain ⟨s₁, h₁, h₂⟩ := ok_of_bind hpropagate
          exact ih (activate_consistent h h₁) h₂
        · exact ih (skipNode_consistent h now id) hpropagate

theorem finish_consistent {s : Store} (h : Consistent s) (now : Instant) (id : Uuid) :
    Consistent (finish now id s) :=
  updateWorkflowRuns_consistent h fun _ => ⟨rfl, rfl⟩

theorem reconcileInvocation_consistent {s : Store} (h : Consistent s) (order : QueueOrder)
    (dispatch : Launching) (observed : Uuid → List RunStatus) (now : Instant)
    (workflowRunId : Uuid) (events : List (Uuid × Uuid)) :
    Consistent (reconcileInvocation order dispatch observed now workflowRunId events s).2 := by
  rcases reconcileInvocation_cases order dispatch observed now workflowRunId events s with
    hr | ⟨t, ht, hr⟩
  · rw [hr]
    exact h
  · rw [hr]
    have hfinish := finish_consistent (propagate_consistent
      (completeNodes_consistent h order observed now _ _) ht) now workflowRunId
    exact hfinish.of_tables { hfinish.keys with } rfl rfl rfl hfinish.executions

theorem cancel_consistent {s : Store} (h : Consistent s) (now : Instant) (id : Uuid) :
    Consistent (cancel now id s).2 := by
  rcases cancel_cases now id s with hc | ⟨_, _, _, _, hc⟩
  · rw [hc]
    exact h
  · rw [hc]
    exact finish_consistent (cancelPending_consistent h now id) now id

def Names (record : OutboxRecord) (o : OutboxRow) : Prop :=
  o.id = record.id ∧ o.runId = record.runId ∧ o.attemptId = record.attemptId ∧
    o.subject = record.subject ∧ o.payload = record.payload

structure Invariant (s : State) : Prop where
  consistent : Consistent s.store
  issued : ∀ entry ∈ s.issued, ∃ o ∈ s.store.outbox, Names entry.2 o

theorem Names.evolves {record : OutboxRecord} {o o' : OutboxRow} (h : Names record o)
    (he : OutboxEvolves o o') : Names record o' :=
  ⟨he.id.trans h.1, he.run.trans h.2.1, he.attempt.trans h.2.2.1, he.subject.trans h.2.2.2.1,
    he.payload.trans h.2.2.2.2⟩

theorem issuedBy_names {s : State} {c : Command} {entry : Uuid × OutboxRecord}
    (h : entry ∈ issuedBy s c) : ∃ o ∈ s.store.outbox, Names entry.2 o := by
  unfold issuedBy at h
  split at h
  · obtain ⟨record, hrecord, rfl⟩ := List.mem_map.mp h
    obtain ⟨o, ho, rfl⟩ := List.mem_map.mp hrecord
    exact ⟨o, (mem_selectBatch ho).1, rfl, rfl, rfl, rfl, rfl⟩
  · cases h

/-- The row the first update of `mark_published` matches is the one the record names. -/
theorem Invariant.owned {s : State} (h : Invariant s) {owner : Uuid} {record : OutboxRecord}
    (hissued : (owner, record) ∈ s.issued)
    (hcount : s.store.outbox.countP (ownedDispatch owner record) = 1) :
    ∃ o ∈ s.store.outbox, ownedDispatch owner record o = true ∧ Names record o := by
  obtain ⟨o, ho, howned⟩ := List.countP_pos_iff.mp (by omega :
    0 < s.store.outbox.countP (ownedDispatch owner record))
  obtain ⟨o', ho', hnames⟩ := h.issued _ hissued
  have hid : o.id = record.id := by
    simp only [ownedDispatch, Bool.and_eq_true, decide_eq_true_eq] at howned
    exact howned.1.1.1
  have hsame : o = o' := row_unique h.consistent.keys.outbox ho ho' (by rw [hid, hnames.1])
  exact ⟨o, ho, howned, hsame ▸ hnames⟩

theorem markPublished_consistent {s : State} (h : Invariant s) {owner : Uuid}
    {record : OutboxRecord} (hissued : (owner, record) ∈ s.issued) (streamSequence : ℕ)
    (now : Instant) : Consistent (markPublished owner record streamSequence now s.store).2 := by
  unfold markPublished
  split
  · exact h.consistent
  split
  · exact h.consistent
  · rename_i hcount
    obtain ⟨o, ho, howned, hnames⟩ := h.owned hissued (not_not.mp hcount)
    exact (h.consistent.publishDispatch streamSequence now ho howned hnames.2.2.1.symm).1

theorem transact_consistent {s : State} (h : Invariant s) {c : Command} (hc : Enabled s c) :
    Consistent (transact s c) := by
  have hs := h.consistent
  cases c with
  | createRuns => exact createRuns_consistent hs _ _ _ _ _ _ _
  | insertRerun => exact insertRerun_consistent hs _ _ _ _ _ _
  | commitSchedulePlan => exact commitSchedulePlan_consistent hs _ _ _ _
  | claimOutbox => exact claimOutbox_consistent hs _ _ _ _ _
  | markPublished => exact markPublished_consistent h hc _ _
  | recordPublishFailure => exact recordPublishFailure_consistent hs _ _ _ _
  | claimAttempt request now => exact hs.claimAttempt request now
  | renewLease => exact renewLease_consistent hs _ _
  | recordAttemptOutput => exact recordAttemptOutput_consistent hs _ _
  | completeAttempt request retryAt now => exact hs.completeAttempt request retryAt now
  | reconcile => exact reconcile_consistent hs _
  | startWorkflow => exact start_consistent hs _ _ _ _
  | commitPass order dispatch now workflowRunId =>
    simp only [transact]
    split
    · exact hs
    · exact reconcileInvocation_consistent hs _ _ _ _ _ _
  | cancelWorkflow => exact cancel_consistent hs _ _
  | editCatalog => exact hs.of_tables { hs.keys with } rfl rfl rfl hs.executions
  | beginPass => exact hs
  | observeNode => exact hs
  | abortPass => exact hs

theorem initial_consistent {s : State} (h : system.initial s) : Consistent s.store where
  keys := initial_keysUnique h
  cells := by
    obtain ⟨catalog, schedules, _, _, rfl⟩ := h
    exact fun _ => .absent
  executions := by
    obtain ⟨catalog, schedules, _, _, rfl⟩ := h
    intro e he
    cases he

theorem initial_invariant {s : State} (h : system.initial s) : Invariant s where
  consistent := initial_consistent h
  issued := by
    obtain ⟨catalog, schedules, _, _, rfl⟩ := h
    intro entry he
    cases he

theorem step_invariant {s t : State} {c : Command} (h : Invariant s) (hstep : Step s c t) :
    Invariant t := by
  obtain ⟨hc, rfl⟩ := hstep
  refine ⟨transact_consistent h hc, fun entry hentry => ?_⟩
  have hold : ∃ o ∈ s.store.outbox, Names entry.2 o := by
    rcases List.mem_append.mp hentry with hentry | hentry
    · exact h.issued entry hentry
    · exact issuedBy_names hentry
  obtain ⟨o, ho, hnames⟩ := hold
  obtain ⟨o', ho', hevolves⟩ :=
    (transact_writes h.consistent.keys hc).evolves.outbox.of_mem ho
  exact ⟨o', ho', hnames.evolves hevolves⟩

theorem reachable_invariant {s : State} (h : Reachable s) : Invariant s :=
  h.invariant (fun _ => initial_invariant) fun _ _ _ => step_invariant

structure Coupled (s : Store) : Prop where
  numbered : ∀ r ∈ s.runs, (attemptsOf s r.id).map AttemptRow.attempt =
    List.range' 1 r.attemptCount
  bounded : ∀ r ∈ s.runs, r.attemptCount ≤ r.maxAttempts
  empty : ∀ r ∈ s.runs, r.attemptCount = 0 → r.status.isTerminal = true
  owned : ∀ a ∈ s.runAttempts, ∃ r ∈ s.runs, r.id = a.runId
  past : ∀ r ∈ s.runs, ∀ a ∈ attemptsOf s r.id, a.attempt ≠ r.attemptCount →
    a.status.isTerminal = true
  newest : ∀ r ∈ s.runs, ∀ a ∈ attemptsOf s r.id, a.attempt = r.attemptCount →
    (r.status = .pendingDispatch ↔ a.status = .pendingDispatch) ∧
    (r.status = .queued ↔ a.status = .queued) ∧ (r.status = .running ↔ a.status = .running)
  waiting : ∀ r ∈ s.runs, r.status = .retryWait → r.executionSnapshot.idempotent = true ∧
    r.attemptCount < r.maxAttempts ∧
    ∃ a ∈ attemptsOf s r.id, a.attempt = r.attemptCount ∧ a.status = .failed
  dispatched : ∀ a ∈ s.runAttempts, ∃ o, s.outbox.filter (fun o => o.attemptId = a.id) = [o] ∧
    (o.publishedAt = none ∧ o.cancelledAt = none ↔ a.status = .pendingDispatch)

theorem Agrees.status_iff {r : RunRow} {status : AttemptStatus} (h : Agrees r status) :
    (r.status = .pendingDispatch ↔ status = .pendingDispatch) ∧
      (r.status = .queued ↔ status = .queued) ∧ (r.status = .running ↔ status = .running) := by
  unfold Agrees at h
  cases hr : r.status <;> cases hs : status <;> simp_all [AttemptStatus.isTerminal]

theorem Consistent.outbox_of_attempt {s : Store} (h : Consistent s) {d : Dispatch}
    (hlinked : d.outbox.attemptId = d.attempt.id) (hmem : d.outbox ∈ s.outbox) :
    s.outbox.filter (fun o => o.attemptId = d.attempt.id) = [d.outbox] := by
  have hnodup := h.keys.outbox_attempts
  rw [← hlinked]
  generalize s.outbox = rows at hnodup hmem
  induction rows with
  | nil => cases hmem
  | cons o rows ih =>
    rw [List.map_cons, List.nodup_cons] at hnodup
    rcases List.mem_cons.mp hmem with heq | hmem
    · rw [← heq, List.filter_cons_of_pos (by simp), List.cons_inj_right, List.filter_eq_nil_iff]
      intro o' ho' hsame
      exact hnodup.1 (List.mem_map.mpr ⟨o', ho', by rw [← heq]; simpa using hsame⟩)
    · rw [List.filter_cons_of_neg, ih hnodup.2 hmem]
      intro hsame
      exact hnodup.1 (List.mem_map.mpr
        ⟨d.outbox, hmem, by simpa using (decide_eq_true_eq.mp hsame).symm⟩)

theorem Consistent.coupled {s : Store} (h : Consistent s) : Coupled s where
  numbered := by
    intro r hr
    rcases h.run_cases hr with ⟨hattempts, _, hcount, _⟩ | ⟨past, newest, hholds⟩
    · simp [hattempts, hcount]
    · rw [hholds.attempts, ← hholds.live.numbered, List.map_map]
      rfl
  bounded := by
    intro r hr
    rcases h.run_cases hr with ⟨_, _, hcount, _⟩ | ⟨past, newest, hholds⟩
    · omega
    · exact hholds.live.bounded
  empty := by
    intro r hr hcount
    rcases h.run_cases hr with ⟨_, _, _, hterminal⟩ | ⟨past, newest, hholds⟩
    · exact hterminal
    · have hnumbers := congrArg List.length hholds.live.numbered
      simp [hcount] at hnumbers
  owned := by
    intro a ha
    obtain ⟨r, past, newest, d, hholds, hid, _, _⟩ := h.of_attempt ha
    exact ⟨r, hholds.run_mem, hid⟩
  past := by
    intro r hr a ha hne
    rcases h.run_cases hr with ⟨hattempts, _, _, _⟩ | ⟨past, newest, hholds⟩
    · simp [hattempts] at ha
    · rw [hholds.attempts] at ha
      obtain ⟨d, hd, rfl⟩ := List.mem_map.mp ha
      rcases List.mem_append.mp hd with hd | hd
      · exact hholds.live.settled d hd
      · rw [List.mem_singleton.mp hd] at hne
        exact absurd (Live.number_cases hholds.live).1 hne
  newest := by
    intro r hr a ha heq
    rcases h.run_cases hr with ⟨hattempts, _, _, _⟩ | ⟨past, newest, hholds⟩
    · simp [hattempts] at ha
    · rw [hholds.attempts] at ha
      obtain ⟨d, hd, rfl⟩ := List.mem_map.mp ha
      rcases List.mem_append.mp hd with hd | hd
      · exact absurd heq ((Live.number_cases hholds.live).2 d hd)
      · rw [List.mem_singleton.mp hd]
        exact Agrees.status_iff hholds.live.agrees
  waiting := by
    intro r hr hwait
    rcases h.run_cases hr with ⟨_, _, _, hterminal⟩ | ⟨past, newest, hholds⟩
    · simp [hwait] at hterminal
    · have hagrees := hholds.live.agrees
      simp only [Agrees, hwait] at hagrees
      refine ⟨hagrees.2.1, hagrees.2.2, newest.attempt, ?_, (Live.number_cases hholds.live).1,
        hagrees.1⟩
      rw [hholds.attempts]
      exact List.mem_map_of_mem (List.mem_append_right _ (List.mem_singleton_self newest))
  dispatched := by
    intro a ha
    obtain ⟨r, past, newest, d, hholds, _, hd, rfl⟩ := h.of_attempt ha
    have hlinked := hholds.live.linked d hd
    refine ⟨d.outbox, Consistent.outbox_of_attempt h hlinked.outbox_attempt (hholds.outbox_mem hd),
      ?_⟩
    rw [← hlinked.unsettled]
    simp [OutboxRow.unsettled]

/-- Whenever the guarded update of an Attempt in a command matches a row, the guarded update
of its Run that follows matches one too. -/
def PairedUpdates (s : Store) : Command → Prop
  | .markPublished owner record _ _ => s.outbox.countP (ownedDispatch owner record) = 1 →
      (∃ a ∈ s.runAttempts, a.id = record.attemptId ∧ a.status = .pendingDispatch) →
      ∃ r ∈ s.runs, r.id = record.runId ∧ r.status = .pendingDispatch
  | .claimAttempt request now => (claimAttempt request now s).1 ≠ .error .conflict ∧
      ∀ a ∈ s.runAttempts, grantable request s a = true →
        ∃ r ∈ s.runs, r.id = a.runId ∧ r.status = .queued
  | .completeAttempt request _ now => ∀ a ∈ s.runAttempts,
      leased request.attemptId request.workerId now a = true →
        ∃ r ∈ s.runs, r.id = a.runId ∧ r.status = .running
  | .reconcile pass =>
      DispatchesPaired pass.dispatchesAt
        (expiredDispatches pass.limit pass.lockedOutbox pass.dispatchesAt s) s ∧
      ∀ s₁, reconcileDueRetries pass.limit pass.lockedRuns pass.freshRetries pass.retriesAt
          (reconcileExpiredDispatches pass.limit pass.lockedOutbox pass.dispatchesAt s) = .ok s₁ →
        LeasesPaired pass.freshLeases pass.leasesAt
          (expiredLeases pass.limit pass.lockedLeases pass.leasesAt s₁) s₁
  | _ => True

theorem Invariant.pairedUpdates {s : State} (h : Invariant s) {c : Command} (hc : Enabled s c) :
    PairedUpdates s.store c := by
  have hs := h.consistent
  cases c with
  | markPublished owner record streamSequence now =>
    intro hcount _
    obtain ⟨o, ho, howned, hnames⟩ := h.owned hc hcount
    obtain ⟨_, r, past, newest, hholds, _, _, hstatus, hid⟩ :=
      hs.publishDispatch streamSequence now ho howned hnames.2.2.1.symm
    exact ⟨r, hholds.run_mem, hid, hstatus⟩
  | claimAttempt request now =>
    constructor
    · rcases hs.claimAttempt_spec request now with ⟨_, hclaim⟩ | ⟨_, _, _, _, _, _, _, _, _, hclaim⟩
      · simp [hclaim]
      · simp [hclaim]
    · intro a ha hgrant
      obtain ⟨r, _, _, hholds, _, hid, hstatus⟩ := hs.of_queued ha (grantable_iff.mp hgrant).2.2.1
      exact ⟨r, hholds.run_mem, hid, hstatus⟩
  | completeAttempt request retryAt now =>
    intro a ha hleased
    obtain ⟨r, _, _, hholds, _, hid, hstatus⟩ := hs.of_running ha (leased_iff.mp hleased).2.2.1
    exact ⟨r, hholds.run_mem, hid, hstatus⟩
  | reconcile pass =>
    obtain ⟨hdispatches, hnodup⟩ :=
      expiredDispatches_rows pass.limit pass.lockedOutbox pass.dispatchesAt hs.keys
    obtain ⟨hexpired, hpaired⟩ := expireDispatches_loop pass.dispatchesAt hs hdispatches hnodup
    refine ⟨hpaired, fun s₁ h₁ => ?_⟩
    obtain ⟨hretries, hnodup⟩ := dueRetries_rows hexpired.keys
    have hretried := dueRetries_loop hexpired hretries hnodup h₁
    obtain ⟨hleases, hnodup⟩ := expiredLeases_rows hretried.keys
    exact (expireLeases_loop hretried hleases hnodup).2
  | _ => trivial

/-- In every reachable state Runs, Attempts and outbox rows are coupled, a Run without
Attempts has been terminal ever since it was inserted, and no command updates an Attempt
whose Run its next statement would miss. -/
theorem runs_attempts_outbox_coupled {s : State} (h : Reachable s) :
    Coupled s.store ∧
      (∀ earlier, Reachable earlier → Execution earlier s → ∀ r ∈ s.store.runs,
        r.attemptCount = 0 → ∀ r' ∈ earlier.store.runs, r'.id = r.id →
          r'.attemptCount = 0 ∧ r'.status.isTerminal = true) ∧
      ∀ c, Enabled s c → PairedUpdates s.store c := by
  have hs := reachable_invariant h
  refine ⟨Consistent.coupled hs.consistent, ?_, fun c hc => hs.pairedUpdates hc⟩
  intro earlier hearlier hexecution r hr hcount r' hr' hid
  have hevolves : RunEvolves r' r := (execution_evolves hearlier hexecution).runs.of_key
    (fun _ _ hxy => by rw [hxy.columns]) hs.consistent.keys.runs hr' hr hid.symm
  have hzero : r'.attemptCount = 0 := by
    by_contra hpos
    have := hevolves.counted (Nat.pos_of_ne_zero hpos)
    omega
  exact ⟨hzero, (Consistent.coupled (reachable_invariant hearlier).consistent).empty r' hr' hzero⟩

theorem runs_attempts_outbox_coupled_demo :
    (system.run demoInitial demoClaimed).store.runs.map RunRow.status = [.running] ∧
      Coupled (system.run demoInitial demoClaimed).store :=
  ⟨by decide, (runs_attempts_outbox_coupled (demo_reachable demoClaimed_admitted)).1⟩

end RunCoupling
