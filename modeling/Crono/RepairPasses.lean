import Crono.RunTimeline
import Crono.StampedRows

/-! Repair passes. The three loops of a pass update one row after another; each equals one
simultaneous update of the rows it selected, a pass with unused identifiers never fails, and
passes without obstruction work off every backlog. -/
namespace RepairPasses

open RunDomain WorkflowDomain SqlTable ControlPlaneSchema RunStore WorkflowStore
open ControlPlane StoreWrites RunLifecycle RunCoupling RunTimeline StampedRows

theorem Holds.newest_unique {s : Store} {r : RunRow} {past past' : List Dispatch}
    {newest newest' : Dispatch} (h : Holds s r past newest) (k : Holds s r past' newest') :
    newest'.outbox = newest.outbox ∧ newest'.attempt = newest.attempt := by
  have houtbox := h.outbox.symm.trans k.outbox
  have hattempts := h.attempts.symm.trans k.attempts
  rw [List.map_append, List.map_append, List.map_singleton, List.map_singleton] at houtbox hattempts
  constructor
  · exact (List.singleton_inj.mp (List.append_inj' houtbox rfl).2).symm
  · exact (List.singleton_inj.mp (List.append_inj' hattempts rfl).2).symm

theorem unsettled_unique {s : Store} (h : Consistent s) {o o' : OutboxRow} (ho : o ∈ s.outbox)
    (hu : o.unsettled = true) (ho' : o' ∈ s.outbox) (hu' : o'.unsettled = true)
    (hrun : o'.runId = o.runId) : o' = o := by
  obtain ⟨r, past, newest, hholds, rfl, _, _⟩ := h.of_unsettled ho hu
  obtain ⟨r', past', newest', hholds', rfl, _, _⟩ := h.of_unsettled ho' hu'
  have hsame : r' = r := by
    apply row_unique h.keys.runs hholds'.run_mem hholds.run_mem
    rw [← hholds'.live.newest_linked.outbox_run, ← hholds.live.newest_linked.outbox_run, hrun]
  subst hsame
  exact (Holds.newest_unique hholds hholds').1

/-- The guards of the three updates hold of the rows they name. -/
theorem expireDispatch_tables {s : Store} (h : Consistent s) {o : OutboxRow} (ho : o ∈ s.outbox)
    (hu : o.unsettled = true) (now : Instant) :
    (expireDispatch now s o).outbox =
        update (fun o' => decide (o'.id = o.id)) (cancelledDispatch now) s.outbox ∧
      (expireDispatch now s o).runs =
        update (fun r => decide (r.id = o.runId)) (skippedRow now) s.runs ∧
      (expireDispatch now s o).runAttempts =
        update (fun a => decide (a.id = o.attemptId)) (deadAttempt now) s.runAttempts := by
  obtain ⟨r, past, newest, hholds, rfl, hpending, hstatus⟩ := h.of_unsettled ho hu
  have hlinked := hholds.live.newest_linked
  have hmem := hholds.attempt_mem (List.mem_append_right past (List.mem_singleton_self newest))
  refine ⟨update_congr fun o' ho' => ?_, update_congr fun r' hr' => ?_,
    update_congr fun a ha => ?_⟩
  · by_cases hid : o'.id = newest.outbox.id
    · have hsame : o' = newest.outbox := row_unique h.keys.outbox ho' ho hid
      simp [hsame, hu]
    · simp [hid]
  · by_cases hid : r'.id = newest.outbox.runId
    · have hsame : r' = r := by
        apply row_unique h.keys.runs hr' hholds.run_mem
        rw [hid, hlinked.outbox_run]
      simp [hsame, hstatus]
    · simp [hid]
  · by_cases hid : a.id = newest.outbox.attemptId
    · have hsame : a = newest.attempt := by
        apply row_unique h.keys.attempts ha hmem
        rw [hid, hlinked.outbox_attempt]
      simp [hsame, hpending]
    · simp [hid]

structure Expiring (s : Store) (rows : List OutboxRow) : Prop where
  open_rows : ∀ o ∈ rows, o ∈ s.outbox ∧ o.unsettled = true ∧ o.dispatchDeadline.isSome = true
  distinct : (rows.map OutboxRow.id).Nodup

theorem Expiring.next {s : Store} (now : Instant) {o : OutboxRow} {rest : List OutboxRow}
    (hrows : Expiring s (o :: rest)) : Expiring (expireDispatch now s o) rest := by
  have hdistinct := hrows.distinct
  rw [List.map_cons, List.nodup_cons] at hdistinct
  refine ⟨fun o' ho' => ?_, hdistinct.2⟩
  obtain ⟨hmem, hopen⟩ := hrows.open_rows o' (List.mem_cons_of_mem o ho')
  refine ⟨expireDispatch_outbox hmem fun hid => ?_, hopen⟩
  exact hdistinct.1 (hid ▸ List.mem_map_of_mem ho')

/-- The loop of `reconcile_expired_dispatches` as three updates. -/
theorem expireDispatches_tables (now : Instant) {rows : List OutboxRow} {s : Store}
    (h : Consistent s) (hrows : Expiring s rows) :
    (rows.foldl (expireDispatch now) s).outbox =
        update (fun o => decide (o.id ∈ rows.map OutboxRow.id)) (cancelledDispatch now) s.outbox ∧
      (rows.foldl (expireDispatch now) s).runs =
        update (fun r => decide (r.id ∈ rows.map OutboxRow.runId)) (skippedRow now) s.runs ∧
      (rows.foldl (expireDispatch now) s).runAttempts =
        update (fun a => decide (a.id ∈ rows.map OutboxRow.attemptId)) (deadAttempt now)
          s.runAttempts := by
  induction rows generalizing s with
  | nil =>
    refine ⟨?_, ?_, ?_⟩ <;> exact (update_of_none fun _ _ => by simp).symm
  | cons o rest ih =>
    obtain ⟨ho, hu, hdue⟩ := hrows.open_rows o List.mem_cons_self
    have hdistinct := hrows.distinct
    rw [List.map_cons, List.nodup_cons] at hdistinct
    have hopen : ∀ o' ∈ rest, o' ∈ s.outbox ∧ o'.unsettled = true := fun o' ho' =>
      have hrow := hrows.open_rows o' (List.mem_cons_of_mem o ho')
      ⟨hrow.1, hrow.2.1⟩
    have hruns : o.runId ∉ rest.map OutboxRow.runId := by
      intro hmem
      obtain ⟨o', ho', hrun⟩ := List.mem_map.mp hmem
      have hsame := unsettled_unique h ho hu (hopen o' ho').1 (hopen o' ho').2 hrun
      exact hdistinct.1 (hsame ▸ List.mem_map_of_mem ho')
    have hattempts : o.attemptId ∉ rest.map OutboxRow.attemptId := by
      intro hmem
      obtain ⟨o', ho', hattempt⟩ := List.mem_map.mp hmem
      have hsame : o' = o := row_unique h.keys.outbox_attempts (hopen o' ho').1 ho hattempt
      exact hdistinct.1 (hsame ▸ List.mem_map_of_mem ho')
    obtain ⟨h₁, h₂, h₃⟩ := expireDispatch_tables h ho hu now
    obtain ⟨k₁, k₂, k₃⟩ := ih (expireDispatch_consistent h ho hu hdue now) (hrows.next now)
    rw [List.foldl_cons, k₁, k₂, k₃, h₁, h₂, h₃]
    exact ⟨update_keys OutboxRow.id (cancelledDispatch now) (fun _ => rfl) hdistinct.1 _,
      update_keys RunRow.id (skippedRow now) (fun _ => rfl) hruns _,
      update_keys AttemptRow.id (deadAttempt now) (fun _ => rfl) hattempts _⟩

/-- Identifiers that are distinct from each other and from those of the store. -/
structure Unused (fresh : Uuid → DispatchIds) (runs : List Uuid) (s : Store) : Prop where
  attempts : ∀ x ∈ runs, ∀ a ∈ s.runAttempts, a.id ≠ (fresh x).attemptId
  dispatches : ∀ x ∈ runs, ∀ o ∈ s.outbox, o.id ≠ (fresh x).dispatchId
  distinct : (runs.map fun x => (fresh x).attemptId).Nodup ∧
    (runs.map fun x => (fresh x).dispatchId).Nodup

def reopenedRow (r : RunRow) : RunRow := rescheduledRow (r.attemptCount + 1) r

def reopenedAttempt (fresh : Uuid → DispatchIds) (r : RunRow) : AttemptRow :=
  newAttempt (fresh r.id) r.id (r.attemptCount + 1)

def reopenedDispatch (fresh : Uuid → DispatchIds) (now : Instant) (r : RunRow) : OutboxRow :=
  newOutbox (fresh r.id) r.id r.queueId none now

theorem insertAttempt_new {row : AttemptRow} {s : Store} (hid : ∀ a ∈ s.runAttempts, a.id ≠ row.id)
    (hnumber : ∀ a ∈ s.runAttempts, a.runId = row.runId → a.attempt ≠ row.attempt)
    (hpositive : row.attempt ≠ 0) (hrun : ∃ r ∈ s.runs, r.id = row.runId) :
    insertAttempt row s = .ok { s with runAttempts := s.runAttempts ++ [row] } := by
  have hkeys : ¬ (s.runAttempts.any fun a =>
      a.id = row.id || (a.runId = row.runId && a.attempt = row.attempt)) = true := by
    simp only [List.any_eq_true, Bool.or_eq_true, Bool.and_eq_true, decide_eq_true_eq]
    rintro ⟨a, ha, hsame | ⟨hsame, hattempt⟩⟩
    · exact hid a ha hsame
    · exact hnumber a ha hsame hattempt
  have hexists : (!s.runs.any fun r => r.id = row.runId) = false := by simpa using hrun
  rw [insertAttempt, if_neg hkeys, if_neg hpositive, hexists, if_neg Bool.false_ne_true]

theorem insertOutbox_new {row : OutboxRow} {s : Store}
    (hid : ∀ o ∈ s.outbox, o.id ≠ row.id ∧ o.attemptId ≠ row.attemptId)
    (hrun : ∃ r ∈ s.runs, r.id = row.runId) (hattempt : ∃ a ∈ s.runAttempts, a.id = row.attemptId) :
    insertOutbox row s = .ok { s with outbox := s.outbox ++ [row] } := by
  have hkeys : ¬ (s.outbox.any fun o => o.id = row.id || o.attemptId = row.attemptId) = true := by
    simp only [List.any_eq_true, Bool.or_eq_true, decide_eq_true_eq]
    rintro ⟨o, ho, hsame | hsame⟩
    · exact (hid o ho).1 hsame
    · exact (hid o ho).2 hsame
  have hexists : (!s.runs.any fun r => r.id = row.runId) = false := by simpa using hrun
  have hlinked : (!s.runAttempts.any fun a => a.id = row.attemptId) = false := by
    simpa using hattempt
  rw [insertOutbox, if_neg hkeys, hexists, if_neg Bool.false_ne_true, hlinked,
    if_neg Bool.false_ne_true]

/-- A store whose Attempts may just have ended, under Runs that are still as in `s`. -/
structure Ended (s t : Store) : Prop where
  runs : t.runs = s.runs
  outbox : t.outbox = s.outbox
  numbers : t.runAttempts.map (fun a => (a.id, a.runId, a.attempt)) =
    s.runAttempts.map fun a => (a.id, a.runId, a.attempt)

theorem Ended.attempt {s t : Store} (h : Ended s t) {a : AttemptRow} (ha : a ∈ t.runAttempts) :
    ∃ a' ∈ s.runAttempts, a'.id = a.id ∧ a'.runId = a.runId ∧ a'.attempt = a.attempt := by
  have hmem : (a.id, a.runId, a.attempt) ∈
      s.runAttempts.map fun a => (a.id, a.runId, a.attempt) := by
    rw [← h.numbers]
    exact List.mem_map_of_mem ha
  obtain ⟨a', ha', hsame⟩ := List.mem_map.mp hmem
  simp only [Prod.mk.injEq] at hsame
  exact ⟨a', ha', hsame⟩

/-- Opening the next Attempt of a Run never fails with unused identifiers. -/
theorem reopenRun_new {s t : Store} (h : Consistent s) (hended : Ended s t) {r : RunRow}
    (hr : r ∈ s.runs) (hopen : r.status.isTerminal = false)
    (hbound : r.attemptCount < r.maxAttempts) {fresh : Uuid → DispatchIds}
    (hfresh : Unused fresh [r.id] s) (now : Instant) :
    reopenRun fresh now r.status r.id r.attemptCount r.queueId t = .ok
      { rescheduleRun r.id r.status (r.attemptCount + 1) now t with
        runAttempts := t.runAttempts ++ [reopenedAttempt fresh r]
        outbox := t.outbox ++ [reopenedDispatch fresh now r] } := by
  rcases h.run_cases hr with ⟨_, _, _, hterminal⟩ | ⟨past, newest, hholds⟩
  · rw [hopen] at hterminal
    cases hterminal
  have hbounds : ((rescheduleRun r.id r.status (r.attemptCount + 1) now t).runs.all fun r =>
      r.attemptCount ≤ r.maxAttempts) = true := by
    simp only [List.all_eq_true, decide_eq_true_eq]
    intro r' hr'
    rcases update_cases hr' with ⟨hr', _⟩ | ⟨r₀, hr₀, hp, rfl⟩
    · rw [hended.runs] at hr'
      exact (Consistent.coupled h).bounded r' hr'
    · simp only [Bool.and_eq_true, decide_eq_true_eq] at hp
      rw [hended.runs] at hr₀
      rw [row_unique h.keys.runs hr₀ hr hp.1]
      exact hbound
  have hrun : ∃ r' ∈ (rescheduleRun r.id r.status (r.attemptCount + 1) now t).runs,
      r'.id = r.id := by
    refine ⟨_, mem_update.mpr ⟨r, by rw [hended.runs]; exact hr, rfl⟩, ?_⟩
    split <;> rfl
  have hunused : ∀ a ∈ t.runAttempts, a.id ≠ (fresh r.id).attemptId := by
    intro a ha
    obtain ⟨a', ha', hid, _⟩ := hended.attempt ha
    rw [← hid]
    exact hfresh.attempts r.id (List.mem_singleton_self _) a' ha'
  have hnext : ∀ a ∈ t.runAttempts, a.runId = r.id → a.attempt ≠ r.attemptCount + 1 := by
    intro a ha hsame hnumber
    obtain ⟨a', ha', _, hrunId, hattempt⟩ := hended.attempt ha
    have hcell : a' ∈ attemptsOf s r.id := mem_attemptsOf.mpr ⟨ha', hrunId.trans hsame⟩
    have hmem : a'.attempt ∈ List.range' 1 r.attemptCount := by
      rw [← (Consistent.coupled h).numbered r hr]
      exact List.mem_map_of_mem hcell
    rw [List.mem_range'_1, hattempt, hnumber] at hmem
    omega
  have hattempt : insertAttempt (newAttempt (fresh r.id) r.id (r.attemptCount + 1))
      (rescheduleRun r.id r.status (r.attemptCount + 1) now t) = .ok _ :=
    insertAttempt_new hunused hnext (Nat.succ_ne_zero _) hrun
  rw [reopenRun, checkAttemptBounds, if_pos hbounds]
  simp only [Except.bind, bind, createAttemptAndOutbox, hattempt]
  refine insertOutbox_new (fun o ho => ?_) hrun ⟨_, List.mem_append_right _
    (List.mem_singleton_self _), rfl⟩
  have ho' : o ∈ s.outbox := by
    rw [← hended.outbox]
    exact ho
  refine ⟨hfresh.dispatches r.id (List.mem_singleton_self _) o ho', ?_⟩
  obtain ⟨_, past', newest', d, hholds', _, hd, rfl⟩ := h.of_outbox ho'
  rw [(hholds'.live.linked d hd).outbox_attempt]
  exact hfresh.attempts r.id (List.mem_singleton_self _) d.attempt (hholds'.attempt_mem hd)

theorem Unused.next {fresh : Uuid → DispatchIds} {x : Uuid} {rest : List Uuid} {s t : Store}
    (h : Unused fresh (x :: rest) s)
    (hattempts : ∀ a ∈ t.runAttempts, (∃ a' ∈ s.runAttempts, a'.id = a.id) ∨
      a.id = (fresh x).attemptId)
    (hdispatches : ∀ o ∈ t.outbox, o ∈ s.outbox ∨ o.id = (fresh x).dispatchId) :
    Unused fresh rest t := by
  obtain ⟨hattemptIds, hdispatchIds⟩ := h.distinct
  rw [List.map_cons, List.nodup_cons] at hattemptIds hdispatchIds
  refine ⟨fun y hy a ha hid => ?_, fun y hy o ho hid => ?_, hattemptIds.2, hdispatchIds.2⟩
  · rcases hattempts a ha with ⟨a', ha', hsame⟩ | hnew
    · exact h.attempts y (List.mem_cons_of_mem x hy) a' ha' (hsame.trans hid)
    · exact hattemptIds.1 (List.mem_map.mpr ⟨y, hy, hid.symm.trans hnew⟩)
  · rcases hdispatches o ho with hold | hnew
    · exact h.dispatches y (List.mem_cons_of_mem x hy) o hold hid
    · exact hdispatchIds.1 (List.mem_map.mpr ⟨y, hy, hid.symm.trans hnew⟩)

theorem Unused.head {fresh : Uuid → DispatchIds} {x : Uuid} {rest : List Uuid} {s : Store}
    (h : Unused fresh (x :: rest) s) : Unused fresh [x] s := by
  refine ⟨fun y hy => ?_, fun y hy => ?_, by simp, by simp⟩
  · rw [List.mem_singleton.mp hy]
    exact h.attempts x List.mem_cons_self
  · rw [List.mem_singleton.mp hy]
    exact h.dispatches x List.mem_cons_self

theorem update_row {s : Store} (hk : KeysUnique s) {r : RunRow} (hr : r ∈ s.runs)
    {f g : RunRow → RunRow} (hfg : f r = g r) :
    update (fun r' => r'.id = r.id && r'.status = r.status) f s.runs =
      update (fun r' => decide (r'.id = r.id)) g s.runs := by
  apply update_congr
  intro r' hr'
  by_cases hid : r'.id = r.id
  · rw [row_unique hk.runs hr' hr hid]
    simp [hfg]
  · simp [hid]

structure Due (s : Store) (rows : List RunRow) : Prop where
  waiting : ∀ r ∈ rows, r ∈ s.runs ∧ r.status = .retryWait
  distinct : (rows.map RunRow.id).Nodup

theorem reopenDueRetry_new {s : Store} (h : Consistent s) {r : RunRow} (hr : r ∈ s.runs)
    (hstatus : r.status = .retryWait) {fresh : Uuid → DispatchIds} (hfresh : Unused fresh [r.id] s)
    (now : Instant) : ∃ t, reopenDueRetry fresh now s r = .ok t ∧
      t.runs = update (fun r' => decide (r'.id = r.id)) reopenedRow s.runs ∧
      t.runAttempts = s.runAttempts ++ [reopenedAttempt fresh r] ∧
      t.outbox = s.outbox ++ [reopenedDispatch fresh now r] := by
  have hopen : r.status.isTerminal = false := by rw [hstatus]; rfl
  rcases h.run_cases hr with ⟨_, _, _, hterminal⟩ | ⟨past, newest, hholds⟩
  · rw [hopen] at hterminal
    cases hterminal
  have hagrees := hholds.live.agrees
  simp only [Agrees, hstatus] at hagrees
  have hreopen : reopenDueRetry fresh now s r =
      reopenRun fresh now r.status r.id r.attemptCount r.queueId s := by
    rw [reopenDueRetry, hholds.live.queue, hstatus]
  rw [reopenRun_new h ⟨rfl, rfl, rfl⟩ hr hopen hagrees.2.2 hfresh now] at hreopen
  exact ⟨_, hreopen, update_row h.keys hr rfl, rfl, rfl⟩

/-- The loop of `reconcile_due_retries` as one update and two insertions. -/
theorem dueRetries_tables (now : Instant) {fresh : Uuid → DispatchIds} {rows : List RunRow}
    {s : Store} (h : Consistent s) (hrows : Due s rows)
    (hfresh : Unused fresh (rows.map RunRow.id) s) :
    ∃ t, rows.foldlM (reopenDueRetry fresh now) s = .ok t ∧
      t.runs = update (fun r => decide (r.id ∈ rows.map RunRow.id)) reopenedRow s.runs ∧
      t.runAttempts = s.runAttempts ++ rows.map (reopenedAttempt fresh) ∧
      t.outbox = s.outbox ++ rows.map (reopenedDispatch fresh now) := by
  induction rows generalizing s with
  | nil =>
    refine ⟨s, rfl, ?_, by simp, by simp⟩
    exact (update_of_none fun _ _ => by simp).symm
  | cons r rest ih =>
    obtain ⟨hr, hstatus⟩ := hrows.waiting r List.mem_cons_self
    have hdistinct := hrows.distinct
    rw [List.map_cons, List.nodup_cons] at hdistinct
    obtain ⟨t₁, h₁, hruns, hattempts, houtbox⟩ := reopenDueRetry_new h hr hstatus hfresh.head now
    have hrest : Due t₁ rest := by
      refine ⟨fun r' hr' => ?_, hdistinct.2⟩
      obtain ⟨hmem, hwait⟩ := hrows.waiting r' (List.mem_cons_of_mem r hr')
      refine ⟨reopenDueRetry_runs h₁ hmem fun hid => ?_, hwait⟩
      exact hdistinct.1 (hid ▸ List.mem_map_of_mem hr')
    have hunused : Unused fresh (rest.map RunRow.id) t₁ := by
      refine Unused.next hfresh (fun a ha => ?_) fun o ho => ?_
      · rw [hattempts] at ha
        rcases List.mem_append.mp ha with ha | ha
        · exact .inl ⟨a, ha, rfl⟩
        · rw [List.mem_singleton.mp ha]
          exact .inr rfl
      · rw [houtbox] at ho
        rcases List.mem_append.mp ho with ho | ho
        · exact .inl ho
        · rw [List.mem_singleton.mp ho]
          exact .inr rfl
    obtain ⟨t, ht, kruns, kattempts, koutbox⟩ :=
      ih (reopenDueRetry_consistent h hr hstatus h₁) hrest hunused
    refine ⟨t, ?_, ?_, ?_, ?_⟩
    · rw [List.foldlM_cons, h₁]
      exact ht
    · rw [kruns, hruns]
      exact update_keys RunRow.id reopenedRow (fun _ => rfl) hdistinct.1 _
    · rw [kattempts, hattempts, List.append_assoc, List.map_cons]
      rfl
    · rw [koutbox, houtbox, List.append_assoc, List.map_cons]
      rfl

def lapsedRow (now : Instant) (r : RunRow) : RunRow :=
  if retryable r then reopenedRow r else abandonedRow now r

/-- The Attempt of a lapsed lease, under whether its Run is retried. -/
def lapsedAttempt (rows : List (AttemptRow × RunRow)) (now : Instant) (a : AttemptRow) :
    AttemptRow :=
  endedAttempt (rows.any fun row => row.1.id = a.id && retryable row.2) now a

def retriedRuns (rows : List (AttemptRow × RunRow)) : List RunRow :=
  (rows.map Prod.snd).filter retryable

theorem lapsedRow_id (now : Instant) (r : RunRow) : (lapsedRow now r).id = r.id := by
  unfold lapsedRow
  split <;> rfl

theorem expireLease_new {s : Store} (h : Consistent s) {a : AttemptRow} {r : RunRow}
    (hrow : LeaseRow s (a, r)) {fresh : Uuid → DispatchIds} (hfresh : Unused fresh [r.id] s)
    (now : Instant) : ∃ t, expireLease fresh now s (a, r) = .ok t ∧
      t.runs = update (fun r' => decide (r'.id = r.id)) (lapsedRow now) s.runs ∧
      t.runAttempts = update (fun a' => decide (a'.id = a.id)) (endedAttempt (retryable r) now)
        s.runAttempts ++ (retriedRuns [(a, r)]).map (reopenedAttempt fresh) ∧
      t.outbox = s.outbox ++ (retriedRuns [(a, r)]).map (reopenedDispatch fresh now) := by
  obtain ⟨ha, hr, hrun, hrunning⟩ : a ∈ s.runAttempts ∧ r ∈ s.runs ∧ a.runId = r.id ∧
    a.status = .running := hrow
  obtain ⟨r', past, newest, hholds, _, hid, hstatus⟩ := h.of_running ha hrunning
  have hsame : r' = r := row_unique h.keys.runs hholds.run_mem hr (by rw [hid, hrun])
  subst hsame
  have hended (retry : Bool) : update (fun a' => a'.id = a.id && a'.status = .running)
      (endedAttempt retry now) s.runAttempts =
      update (fun a' => decide (a'.id = a.id)) (endedAttempt retry now) s.runAttempts := by
    apply update_congr
    intro a' ha'
    by_cases hattempt : a'.id = a.id
    · rw [row_unique h.keys.attempts ha' ha hattempt]
      simp [hrunning]
    · simp [hattempt]
  by_cases hretry : retryable r' = true
  · have hnumbers : Ended s (endLease a.id true now s) := by
      refine ⟨rfl, rfl, map_update fun _ _ _ => rfl⟩
    have hexpire : expireLease fresh now s (a, r') = reopenRun fresh now r'.status r'.id
        r'.attemptCount r'.queueId (endLease a.id true now s) := by
      rw [expireLease, hholds.live.queue, hstatus]
      simp only [hretry, if_true]
    rw [reopenRun_new h hnumbers hr (by rw [hstatus]; rfl) (retryable_iff.mp hretry).2 hfresh
      now] at hexpire
    have hruns : lapsedRow now r' = reopenedRow r' := by rw [lapsedRow, if_pos hretry]
    have hretried : retriedRuns [(a, r')] = [r'] := by simp [retriedRuns, hretry]
    refine ⟨_, hexpire, update_row h.keys hr hruns.symm, ?_, ?_⟩
    · rw [hretried, hretry, ← hended true]
      rfl
    · rw [hretried]
      rfl
  · rw [Bool.not_eq_true] at hretry
    have hexpire : expireLease fresh now s (a, r') =
        .ok (abandonRun r'.id now (endLease a.id false now s)) := by
      rw [expireLease, hholds.live.queue]
      simp only [hretry, Bool.false_eq_true, if_false]
    have hruns : lapsedRow now r' = abandonedRow now r' := by
      rw [lapsedRow, hretry, if_neg Bool.false_ne_true]
    have hguard := update_row h.keys hr hruns.symm
    rw [hstatus] at hguard
    have hretried : retriedRuns [(a, r')] = [] := by simp [retriedRuns, hretry]
    refine ⟨_, hexpire, hguard, ?_, ?_⟩
    · rw [hretried, hretry, ← hended false, List.map_nil, List.append_nil]
      rfl
    · rw [hretried, List.map_nil, List.append_nil]
      rfl

structure Lapsed (s : Store) (rows : List (AttemptRow × RunRow)) : Prop where
  leased : ∀ row ∈ rows, LeaseRow s row
  distinct : (rows.map fun row => row.1.id).Nodup

theorem Lapsed.runs_distinct {s : Store} (h : Consistent s) {row : AttemptRow × RunRow}
    {rest : List (AttemptRow × RunRow)} (hrows : Lapsed s (row :: rest)) :
    row.2.id ∉ rest.map fun row => row.2.id := by
  intro hmem
  obtain ⟨row', hrow', hid⟩ := List.mem_map.mp hmem
  have hdistinct := hrows.distinct
  rw [List.map_cons, List.nodup_cons] at hdistinct
  have hne : row'.1.id ≠ row.1.id := fun hsame =>
    hdistinct.1 (hsame ▸ List.mem_map_of_mem (f := fun row => row.1.id) hrow')
  exact (hrows.leased row List.mem_cons_self).distinct h
    (hrows.leased row' (List.mem_cons_of_mem row hrow')) hne hid

theorem Lapsed.next {s t : Store} (h : Consistent s) {row : AttemptRow × RunRow}
    {rest : List (AttemptRow × RunRow)} (hrows : Lapsed s (row :: rest))
    {fresh : Uuid → DispatchIds} {now : Instant} (ht : expireLease fresh now s row = .ok t) :
    Lapsed t rest := by
  have hdistinct := hrows.distinct
  rw [List.map_cons, List.nodup_cons] at hdistinct
  refine ⟨fun row' hrow' => ?_, hdistinct.2⟩
  have hold := hrows.leased row' (List.mem_cons_of_mem row hrow')
  obtain ⟨hattempts, hruns⟩ := expireLease_rows ht
  refine ⟨hattempts _ hold.1 fun hsame => ?_, hruns _ hold.2.1 fun hsame => ?_, hold.2.2⟩
  · exact hdistinct.1 (hsame ▸ List.mem_map_of_mem (f := fun row => row.1.id) hrow')
  · refine hrows.runs_distinct h (hsame ▸ List.mem_map_of_mem (f := fun row => row.2.id) hrow')

/-- Ending one lease and then the rest ends each as the whole list says. -/
theorem lapsedAttempts_cons {row : AttemptRow × RunRow} {rest : List (AttemptRow × RunRow)}
    (hrow : row.1.id ∉ rest.map fun row => row.1.id) (now : Instant)
    (attempts : List AttemptRow) :
    update (fun a => decide (a.id ∈ rest.map fun row => row.1.id)) (lapsedAttempt rest now)
        (update (fun a => decide (a.id = row.1.id)) (endedAttempt (retryable row.2) now) attempts) =
      update (fun a => decide (a.id ∈ (row :: rest).map fun row => row.1.id))
        (lapsedAttempt (row :: rest) now) attempts := by
  have hfirst : update (fun a => decide (a.id = row.1.id)) (endedAttempt (retryable row.2) now)
      attempts = update (fun a => decide (a.id = row.1.id)) (lapsedAttempt (row :: rest) now)
        attempts := by
    apply update_congr
    intro a _
    by_cases hid : a.id = row.1.id
    · have hnone : (rest.any fun row' => row'.1.id = a.id && retryable row'.2) = false := by
        rw [List.any_eq_false]
        intro row' hrow' hsame
        simp only [Bool.and_eq_true, decide_eq_true_eq] at hsame
        exact hrow (List.mem_map.mpr ⟨row', hrow', hsame.1.trans hid⟩)
      have hended : lapsedAttempt (row :: rest) now a = endedAttempt (retryable row.2) now a := by
        rw [lapsedAttempt, List.any_cons, hnone, hid]
        simp
      rw [hended]
    · simp [hid]
  have hrest (xs : List AttemptRow) :
      update (fun a => decide (a.id ∈ rest.map fun row => row.1.id)) (lapsedAttempt rest now) xs =
        update (fun a => decide (a.id ∈ rest.map fun row => row.1.id))
          (lapsedAttempt (row :: rest) now) xs := by
    apply update_congr
    intro a _
    by_cases hmem : a.id ∈ rest.map fun row => row.1.id
    · have hne : row.1.id ≠ a.id := fun hsame => hrow (hsame ▸ hmem)
      simp [lapsedAttempt, hne]
    · simp [hmem]
  rw [hfirst, hrest, List.map_cons]
  exact update_keys AttemptRow.id (lapsedAttempt (row :: rest) now) (fun _ => rfl) hrow attempts

/-- The loop of `reconcile_expired_leases` as two updates and two insertions. -/
theorem expireLeases_tables (now : Instant) {fresh : Uuid → DispatchIds}
    {rows : List (AttemptRow × RunRow)} {s : Store} (h : Consistent s) (hrows : Lapsed s rows)
    (hfresh : Unused fresh (rows.map fun row => row.2.id) s) :
    ∃ t, rows.foldlM (expireLease fresh now) s = .ok t ∧
      t.runs = update (fun r => decide (r.id ∈ rows.map fun row => row.2.id)) (lapsedRow now)
        s.runs ∧
      t.runAttempts = update (fun a => decide (a.id ∈ rows.map fun row => row.1.id))
        (lapsedAttempt rows now) s.runAttempts ++ (retriedRuns rows).map (reopenedAttempt fresh) ∧
      t.outbox = s.outbox ++ (retriedRuns rows).map (reopenedDispatch fresh now) := by
  induction rows generalizing s with
  | nil =>
    refine ⟨s, rfl, ?_, ?_, by simp [retriedRuns]⟩
    · exact (update_of_none fun _ _ => by simp).symm
    · rw [update_of_none fun _ _ => by simp]
      simp [retriedRuns]
  | cons row rest ih =>
    have hrow := hrows.leased row List.mem_cons_self
    have hdistinct := hrows.distinct
    rw [List.map_cons, List.nodup_cons] at hdistinct
    obtain ⟨t₁, h₁, hruns, hattempts, houtbox⟩ := expireLease_new h hrow hfresh.head now
    have hretried : ∀ r ∈ retriedRuns [(row.1, row.2)], r = row.2 := by
      intro r hr
      exact List.mem_singleton.mp (List.mem_of_mem_filter hr)
    have hunused : Unused fresh (rest.map fun row => row.2.id) t₁ := by
      refine Unused.next hfresh (fun a ha => ?_) fun o ho => ?_
      · rw [hattempts] at ha
        rcases List.mem_append.mp ha with ha | ha
        · rcases update_cases ha with ⟨ha, _⟩ | ⟨a₀, ha₀, _, rfl⟩
          · exact .inl ⟨a, ha, rfl⟩
          · exact .inl ⟨a₀, ha₀, rfl⟩
        · obtain ⟨r, hr, rfl⟩ := List.mem_map.mp ha
          rw [hretried r hr]
          exact .inr rfl
      · rw [houtbox] at ho
        rcases List.mem_append.mp ho with ho | ho
        · exact .inl ho
        · obtain ⟨r, hr, rfl⟩ := List.mem_map.mp ho
          rw [hretried r hr]
          exact .inr rfl
    have hconsistent := expireLease_consistent h hrow.1 hrow.2.1 hrow.2.2.1 hrow.2.2.2 h₁
    obtain ⟨t, ht, kruns, kattempts, koutbox⟩ := ih hconsistent (hrows.next h h₁) hunused
    have hsplit : retriedRuns (row :: rest) = retriedRuns [(row.1, row.2)] ++ retriedRuns rest := by
      rw [retriedRuns, retriedRuns, retriedRuns, ← List.filter_append]
      rfl
    -- the Attempts just inserted are none of those whose lease is still to be ended
    have hnew : update (fun a => decide (a.id ∈ rest.map fun row => row.1.id))
        (lapsedAttempt rest now) ((retriedRuns [(row.1, row.2)]).map (reopenedAttempt fresh)) =
        (retriedRuns [(row.1, row.2)]).map (reopenedAttempt fresh) := by
      apply update_of_none
      intro a ha
      obtain ⟨r, hr, rfl⟩ := List.mem_map.mp ha
      rw [hretried r hr, decide_eq_false_iff_not]
      intro hmem
      obtain ⟨row', hrow', hid⟩ := List.mem_map.mp hmem
      exact hfresh.attempts row.2.id List.mem_cons_self row'.1
        (hrows.leased row' (List.mem_cons_of_mem row hrow')).1 hid
    refine ⟨t, ?_, ?_, ?_, ?_⟩
    · rw [List.foldlM_cons, h₁]
      exact ht
    · rw [kruns, hruns]
      exact update_keys RunRow.id (lapsedRow now) (lapsedRow_id now) (hrows.runs_distinct h) _
    · rw [kattempts, hattempts, update_append, hnew, lapsedAttempts_cons hdistinct.1, hsplit,
        List.map_append, List.append_assoc]
    · rw [koutbox, houtbox, hsplit, List.map_append, List.append_assoc]

def expiring (pass : RepairPass) (s : Store) : List OutboxRow :=
  expiredDispatches pass.limit pass.lockedOutbox pass.dispatchesAt s

def due (pass : RepairPass) (s : Store) : List RunRow :=
  dueRetries pass.limit pass.lockedRuns pass.retriesAt s

def lapsed (pass : RepairPass) (s : Store) : List (AttemptRow × RunRow) :=
  expiredLeases pass.limit pass.lockedLeases pass.leasesAt s

/-- What a pass makes of a Run, from the rows it selects in the store it starts from. -/
def repairedRow (pass : RepairPass) (s : Store) (r : RunRow) : RunRow :=
  if r.id ∈ (expiring pass s).map OutboxRow.runId then skippedRow pass.dispatchesAt r
  else if r.id ∈ (due pass s).map RunRow.id then reopenedRow r
  else if r.id ∈ (lapsed pass s).map fun row => row.2.id then lapsedRow pass.leasesAt r
  else r

def repairedAttempt (pass : RepairPass) (s : Store) (a : AttemptRow) : AttemptRow :=
  if a.id ∈ (expiring pass s).map OutboxRow.attemptId then deadAttempt pass.dispatchesAt a
  else if a.id ∈ (lapsed pass s).map fun row => row.1.id then
    lapsedAttempt (lapsed pass s) pass.leasesAt a
  else a

def releasedDispatch (now : Instant) (o : OutboxRow) : OutboxRow :=
  if o.unsettled && o.claimExpiresAt.any fun e => e < now then
    { o with claimedBy := none, claimExpiresAt := none }
  else o

def repairedDispatch (pass : RepairPass) (s : Store) (o : OutboxRow) : OutboxRow :=
  if o.id ∈ (expiring pass s).map OutboxRow.id then cancelledDispatch pass.dispatchesAt o
  else releasedDispatch pass.releasesAt o

def newAttempts (pass : RepairPass) (s : Store) : List AttemptRow :=
  (due pass s).map (reopenedAttempt pass.freshRetries) ++
    (retriedRuns (lapsed pass s)).map (reopenedAttempt pass.freshLeases)

def newDispatches (pass : RepairPass) (s : Store) : List OutboxRow :=
  (due pass s).map (reopenedDispatch pass.freshRetries pass.retriesAt) ++
    (retriedRuns (lapsed pass s)).map (reopenedDispatch pass.freshLeases pass.leasesAt)

structure Repaired (pass : RepairPass) (s t : Store) : Prop where
  runs : t.runs = s.runs.map (repairedRow pass s)
  attempts : t.runAttempts = s.runAttempts.map (repairedAttempt pass s) ++ newAttempts pass s
  outbox : t.outbox = s.outbox.map (repairedDispatch pass s) ++ newDispatches pass s

/-- Identifiers as `Uuid::now_v7` draws them for one pass. -/
structure FreshPass (pass : RepairPass) (s : Store) : Prop where
  retries : Unused pass.freshRetries ((due pass s).map RunRow.id) s
  leases : Unused pass.freshLeases ((lapsed pass s).map fun row => row.2.id) s
  apart : ∀ x ∈ (due pass s).map RunRow.id, ∀ y ∈ (lapsed pass s).map fun row => row.2.id,
    (pass.freshRetries x).attemptId ≠ (pass.freshLeases y).attemptId ∧
      (pass.freshRetries x).dispatchId ≠ (pass.freshLeases y).dispatchId

theorem expiring_rows (pass : RepairPass) {s : Store} (h : Consistent s) :
    Expiring s (expiring pass s) :=
  ⟨(expiredDispatches_rows _ _ _ h.keys).1, (expiredDispatches_rows _ _ _ h.keys).2⟩

theorem due_rows (pass : RepairPass) {s : Store} (h : Consistent s) : Due s (due pass s) :=
  ⟨(dueRetries_rows h.keys).1, (dueRetries_rows h.keys).2⟩

theorem lapsed_rows (pass : RepairPass) {s : Store} (h : Consistent s) :
    Lapsed s (lapsed pass s) :=
  ⟨(expiredLeases_rows h.keys).1, (expiredLeases_rows h.keys).2⟩

-- The three batches are of pending, waiting and running Runs.

theorem expiring_pending (pass : RepairPass) {s : Store} (h : Consistent s) :
    (∀ r ∈ s.runs, r.id ∈ (expiring pass s).map OutboxRow.runId → r.status = .pendingDispatch) ∧
      ∀ a ∈ s.runAttempts, a.id ∈ (expiring pass s).map OutboxRow.attemptId →
        a.status = .pendingDispatch := by
  constructor
  · intro r hr hmem
    obtain ⟨o, ho, hid⟩ := List.mem_map.mp hmem
    obtain ⟨hmem, hu, _⟩ := (expiring_rows pass h).open_rows o ho
    obtain ⟨r', past, newest, hholds, rfl, _, hpending⟩ := h.of_unsettled hmem hu
    rw [hholds.live.newest_linked.outbox_run] at hid
    rw [← row_unique h.keys.runs hholds.run_mem hr hid]
    exact hpending
  · intro a ha hmem
    obtain ⟨o, ho, hid⟩ := List.mem_map.mp hmem
    obtain ⟨hmem, hu, _⟩ := (expiring_rows pass h).open_rows o ho
    obtain ⟨r', past, newest, hholds, rfl, hpending, _⟩ := h.of_unsettled hmem hu
    rw [hholds.live.newest_linked.outbox_attempt] at hid
    have hnewest := hholds.attempt_mem
      (List.mem_append_right past (List.mem_singleton_self newest))
    rw [← row_unique h.keys.attempts hnewest ha hid]
    exact hpending

theorem due_waiting (pass : RepairPass) {s : Store} (h : Consistent s) {r : RunRow}
    (hr : r ∈ s.runs) (hmem : r.id ∈ (due pass s).map RunRow.id) : r.status = .retryWait := by
  obtain ⟨r', hr', hid⟩ := List.mem_map.mp hmem
  obtain ⟨hmem, hwait⟩ := (due_rows pass h).waiting r' hr'
  rw [← row_unique h.keys.runs hmem hr hid]
  exact hwait

theorem lapsed_running (pass : RepairPass) {s : Store} (h : Consistent s) :
    (∀ r ∈ s.runs, r.id ∈ (lapsed pass s).map (fun row => row.2.id) → r.status = .running) ∧
      ∀ a ∈ s.runAttempts, a.id ∈ (lapsed pass s).map (fun row => row.1.id) →
        a.status = .running := by
  constructor
  · intro r hr hmem
    obtain ⟨row, hrow, hid⟩ := List.mem_map.mp hmem
    obtain ⟨ha, hrun, hsame, hrunning⟩ := (lapsed_rows pass h).leased row hrow
    obtain ⟨r', _, _, hholds, _, hid', hstatus⟩ := h.of_running ha hrunning
    rw [← row_unique h.keys.runs hholds.run_mem hr (by rw [hid', hsame, hid])]
    exact hstatus
  · intro a ha hmem
    obtain ⟨row, hrow, hid⟩ := List.mem_map.mp hmem
    obtain ⟨hrow, _, _, hrunning⟩ := (lapsed_rows pass h).leased row hrow
    rw [← row_unique h.keys.attempts hrow ha hid]
    exact hrunning

theorem selectBatch_congr {α : Type} {p locked : α → Bool} {le : α → α → Prop} [DecidableRel le]
    {limit : ℕ} {rows rows' : List α}
    (h : rows'.filter (fun x => p x && !locked x) = rows.filter fun x => p x && !locked x) :
    selectBatch p locked le limit rows' = selectBatch p locked le limit rows := by
  rw [selectBatch, selectBatch, h]

theorem due_after {pass : RepairPass} {s : Store} (h : Consistent s) {t : Store}
    (ht : t.runs = update (fun r => decide (r.id ∈ (expiring pass s).map OutboxRow.runId))
      (skippedRow pass.dispatchesAt) s.runs) :
    dueRetries pass.limit pass.lockedRuns pass.retriesAt t = due pass s := by
  refine selectBatch_congr ?_
  rw [ht]
  apply filter_update_of_not
  intro r hr hmem
  have hpending := (expiring_pending pass h).1 r hr (of_decide_eq_true hmem)
  simp [hpending, skippedRow]

theorem lapsed_after {pass : RepairPass} {s s₁ : Store} (h : Consistent s)
    (h₁ : reconcileDueRetries pass.limit pass.lockedRuns pass.freshRetries pass.retriesAt
      (reconcileExpiredDispatches pass.limit pass.lockedOutbox pass.dispatchesAt s) = .ok s₁) :
    expiredLeases pass.limit pass.lockedLeases pass.leasesAt s₁ = lapsed pass s := by
  have hdispatches : LeasesKept s
      (reconcileExpiredDispatches pass.limit pass.lockedOutbox pass.dispatchesAt s) :=
    foldl_leases (fun s row hs => expireDispatch_leases hs _ row) _ (Consistent.leasesRunning h)
  have hretries := foldlM_leases (fun s row t hs => reopenDueRetry_leases hs)
    ((Consistent.leasesRunning h).kept hdispatches) h₁
  exact (hdispatches.trans hretries).expiredLeases pass.limit pass.lockedLeases pass.leasesAt

theorem repairedRow_updates {pass : RepairPass} {s : Store} (h : Consistent s) :
    update (fun r => decide (r.id ∈ (lapsed pass s).map fun row => row.2.id))
        (lapsedRow pass.leasesAt)
        (update (fun r => decide (r.id ∈ (due pass s).map RunRow.id)) reopenedRow
          (update (fun r => decide (r.id ∈ (expiring pass s).map OutboxRow.runId))
            (skippedRow pass.dispatchesAt) s.runs)) =
      s.runs.map (repairedRow pass s) := by
  rw [update, update, update, List.map_map, List.map_map]
  apply List.map_congr_left
  intro r hr
  have hexpiring := (expiring_pending pass h).1 r hr
  have hdue := due_waiting pass h hr
  have hlapsed := (lapsed_running pass h).1 r hr
  simp only [Function.comp_apply, decide_eq_true_eq, repairedRow]
  by_cases he : r.id ∈ (expiring pass s).map OutboxRow.runId
  · have hd : r.id ∉ (due pass s).map RunRow.id := fun hd => by
      cases (hexpiring he).symm.trans (hdue hd)
    have hl : r.id ∉ (lapsed pass s).map fun row => row.2.id := fun hl => by
      cases (hexpiring he).symm.trans (hlapsed hl)
    have hd' : (skippedRow pass.dispatchesAt r).id ∉ (due pass s).map RunRow.id := hd
    have hl' : (skippedRow pass.dispatchesAt r).id ∉ (lapsed pass s).map fun row => row.2.id := hl
    rw [if_pos he, if_neg hd', if_neg hl', if_pos he]
  · rw [if_neg he, if_neg he]
    by_cases hd : r.id ∈ (due pass s).map RunRow.id
    · have hl : r.id ∉ (lapsed pass s).map fun row => row.2.id := fun hl => by
        cases (hdue hd).symm.trans (hlapsed hl)
      have hl' : (reopenedRow r).id ∉ (lapsed pass s).map fun row => row.2.id := hl
      rw [if_pos hd, if_neg hl', if_pos hd]
    · rw [if_neg hd, if_neg hd]

theorem repairedAttempt_updates {pass : RepairPass} {s : Store} (h : Consistent s) :
    update (fun a => decide (a.id ∈ (lapsed pass s).map fun row => row.1.id))
        (lapsedAttempt (lapsed pass s) pass.leasesAt)
        (update (fun a => decide (a.id ∈ (expiring pass s).map OutboxRow.attemptId))
          (deadAttempt pass.dispatchesAt) s.runAttempts) =
      s.runAttempts.map (repairedAttempt pass s) := by
  rw [update, update, List.map_map]
  apply List.map_congr_left
  intro a ha
  have hexpiring := (expiring_pending pass h).2 a ha
  have hlapsed := (lapsed_running pass h).2 a ha
  simp only [Function.comp_apply, decide_eq_true_eq, repairedAttempt]
  by_cases he : a.id ∈ (expiring pass s).map OutboxRow.attemptId
  · have hl : a.id ∉ (lapsed pass s).map fun row => row.1.id := fun hl => by
      cases (hexpiring he).symm.trans (hlapsed hl)
    have hl' : (deadAttempt pass.dispatchesAt a).id ∉ (lapsed pass s).map fun row => row.1.id := hl
    rw [if_pos he, if_neg hl', if_pos he]
  · rw [if_neg he, if_neg he]

theorem released_new {fresh : Uuid → DispatchIds} (now releasesAt : Instant) (rows : List RunRow) :
    (rows.map (reopenedDispatch fresh now)).map (releasedDispatch releasesAt) =
      rows.map (reopenedDispatch fresh now) := by
  rw [List.map_map]
  apply List.map_congr_left
  intro r _
  simp [releasedDispatch, reopenedDispatch, newOutbox]

/-- A repair pass with unused identifiers never fails, and repairs all the rows it selected at
once: which rows they are, and what becomes of each, depends only on the store it starts
from. -/
theorem reconcile_simultaneous {s : State} (hs : Reachable s) {pass : RepairPass}
    (hfresh : FreshPass pass s.store) :
    (RunStore.reconcile pass s.store).1 = .ok () ∧
      Repaired pass s.store (RunStore.reconcile pass s.store).2 := by
  have h := (reachable_invariant hs).consistent
  generalize s.store = s at h hfresh
  obtain ⟨eoutbox, eruns, eattempts⟩ :=
    expireDispatches_tables pass.dispatchesAt h (expiring_rows pass h)
  have hexpired := (expireDispatches_loop pass.dispatchesAt h (expiring_rows pass h).open_rows
    (expiring_rows pass h).distinct).1
  generalize hs₁ : (expiring pass s).foldl (expireDispatch pass.dispatchesAt) s = s₁
    at eoutbox eruns eattempts hexpired
  have hdue := due_after h eruns
  have hretries : Unused pass.freshRetries ((due pass s).map RunRow.id) s₁ := by
    refine ⟨fun x hx a ha => ?_, fun x hx o ho => ?_, hfresh.retries.distinct⟩
    · rw [eattempts] at ha
      obtain ⟨a', ha', hid⟩ := update_origin AttemptRow.id ha fun _ => rfl
      rw [← hid]
      exact hfresh.retries.attempts x hx a' ha'
    · rw [eoutbox] at ho
      obtain ⟨o', ho', hid⟩ := update_origin OutboxRow.id ho fun _ => rfl
      rw [← hid]
      exact hfresh.retries.dispatches x hx o' ho'
  have hrows : Due s₁ (due pass s) := hdue ▸ due_rows pass hexpired
  obtain ⟨s₂, h₂, druns, dattempts, doutbox⟩ :=
    dueRetries_tables pass.retriesAt hexpired hrows hretries
  have hretried := dueRetries_loop hexpired hrows.waiting hrows.distinct h₂
  have hreconciled : reconcileDueRetries pass.limit pass.lockedRuns pass.freshRetries
      pass.retriesAt (reconcileExpiredDispatches pass.limit pass.lockedOutbox pass.dispatchesAt
        s) = .ok s₂ := by
    rw [← h₂, ← hdue, ← hs₁]
    rfl
  have hlapsed := lapsed_after h hreconciled
  have hleases : Unused pass.freshLeases ((lapsed pass s).map fun row => row.2.id) s₂ := by
    refine ⟨fun x hx a ha => ?_, fun x hx o ho => ?_, hfresh.leases.distinct⟩
    · rw [dattempts, eattempts] at ha
      rcases List.mem_append.mp ha with ha | ha
      · obtain ⟨a', ha', hid⟩ := update_origin AttemptRow.id ha fun _ => rfl
        rw [← hid]
        exact hfresh.leases.attempts x hx a' ha'
      · obtain ⟨r, hr, rfl⟩ := List.mem_map.mp ha
        exact (hfresh.apart r.id (List.mem_map_of_mem hr) x hx).1
    · rw [doutbox, eoutbox] at ho
      rcases List.mem_append.mp ho with ho | ho
      · obtain ⟨o', ho', hid⟩ := update_origin OutboxRow.id ho fun _ => rfl
        rw [← hid]
        exact hfresh.leases.dispatches x hx o' ho'
      · obtain ⟨r, hr, rfl⟩ := List.mem_map.mp ho
        exact (hfresh.apart r.id (List.mem_map_of_mem hr) x hx).2
  have hrows : Lapsed s₂ (lapsed pass s) := hlapsed ▸ lapsed_rows pass hretried
  obtain ⟨s₃, h₃, lruns, lattempts, loutbox⟩ :=
    expireLeases_tables pass.leasesAt hretried hrows hleases
  have hended : reconcileExpiredLeases pass.limit pass.lockedLeases pass.freshLeases
      pass.leasesAt s₂ = .ok s₃ := by
    rw [← h₃, ← hlapsed]
    rfl
  have hpass : RunStore.reconcile pass s = (.ok (), releaseOutboxClaims pass.releasesAt s₃) := by
    simp only [RunStore.reconcile, hreconciled, hended, commit, bind, Except.bind, pure,
      Except.pure]
  rw [hpass]
  refine ⟨rfl, ?_, ?_, ?_⟩
  · rw [← repairedRow_updates h, ← eruns, ← druns, ← lruns]
    rfl
  · have hnew : update (fun a => decide (a.id ∈ (lapsed pass s).map fun row => row.1.id))
        (lapsedAttempt (lapsed pass s) pass.leasesAt)
        ((due pass s).map (reopenedAttempt pass.freshRetries)) =
        (due pass s).map (reopenedAttempt pass.freshRetries) := by
      apply update_of_none
      intro a ha
      obtain ⟨r, hr, rfl⟩ := List.mem_map.mp ha
      rw [decide_eq_false_iff_not]
      intro hmem
      obtain ⟨row, hrow, hid⟩ := List.mem_map.mp hmem
      exact hfresh.retries.attempts r.id (List.mem_map_of_mem hr) row.1
        ((lapsed_rows pass h).leased row hrow).1 hid
    have hattempts : (releaseOutboxClaims pass.releasesAt s₃).runAttempts = s₃.runAttempts := rfl
    rw [hattempts, lattempts, dattempts, update_append, hnew, eattempts, repairedAttempt_updates h,
      newAttempts, List.append_assoc]
  · have hreleased : (releaseOutboxClaims pass.releasesAt s₃).outbox =
        s₃.outbox.map (releasedDispatch pass.releasesAt) := rfl
    rw [hreleased, loutbox, doutbox, eoutbox, List.map_append, List.map_append, released_new,
      released_new, newDispatches, List.append_assoc, update, List.map_map]
    congr 1
    apply List.map_congr_left
    intro o _
    simp only [Function.comp_apply, decide_eq_true_eq, repairedDispatch]
    by_cases he : o.id ∈ (expiring pass s).map OutboxRow.id
    · rw [if_pos he, if_pos he]
      simp [releasedDispatch, cancelledDispatch, OutboxRow.unsettled]
    · rw [if_neg he, if_neg he]

def dispatchOverdue (now : Instant) (o : OutboxRow) : Bool :=
  o.unsettled && o.dispatchDeadline.any fun d => d < now

def retryOverdue (now : Instant) (r : RunRow) : Bool :=
  r.status = .retryWait && r.nextRetryAt.any fun t => t ≤ now

def leaseOverdue (now : Instant) (a : AttemptRow) : Bool :=
  a.status = .running && a.leaseExpiresAt.any fun e => e < now

/-- The dispatches, retries and leases that wait for a repair pass. -/
structure Backlog where
  dispatches : ℕ
  retries : ℕ
  leases : ℕ
  deriving DecidableEq, Repr

def backlog (now : Instant) (s : Store) : Backlog :=
  ⟨s.outbox.countP (dispatchOverdue now), s.runs.countP (retryOverdue now),
    s.runAttempts.countP (leaseOverdue now)⟩

/-- What is left of a backlog after `n` rows of each kind. -/
def Backlog.less (b : Backlog) (n : ℕ) : Backlog :=
  ⟨b.dispatches - n, b.retries - n, b.leases - n⟩

structure Unobstructed (limit : ℕ) (now : Instant) (pass : RepairPass) : Prop where
  limit : pass.limit = limit
  outbox : pass.lockedOutbox = fun _ => false
  runs : pass.lockedRuns = fun _ => false
  leases : pass.lockedLeases = fun _ => false
  clock : pass.dispatchesAt = now ∧ pass.retriesAt = now ∧ pass.leasesAt = now

theorem countP_settled {α : Type} {p : α → Bool} {f : α → α} {key : α → Uuid} {ids : List Uuid}
    {rows : List α} (h : ∀ x ∈ rows, p (f x) = (decide (key x ∉ ids) && p x)) :
    (rows.map f).countP p = ((rows.filter p).filter fun x => decide (key x ∉ ids)).length := by
  rw [List.countP_map, List.filter_filter, ← List.countP_eq_length_filter]
  exact List.countP_congr fun x hx => by rw [Function.comp_apply, h x hx]

theorem countP_none {α : Type} {p : α → Bool} {rows : List α} (h : ∀ x ∈ rows, p x = false) :
    rows.countP p = 0 := by
  rw [List.countP_eq_zero]
  intro x hx
  rw [h x hx]
  exact Bool.false_ne_true

theorem Repaired.dispatches {pass : RepairPass} {s t : Store} (h : Repaired pass s t)
    (hk : KeysUnique s) {limit : ℕ} {now : Instant} (hpass : Unobstructed limit now pass) :
    t.outbox.countP (dispatchOverdue now) =
      s.outbox.countP (dispatchOverdue now) - limit := by
  have hnew : (newDispatches pass s).countP (dispatchOverdue now) = 0 := by
    apply countP_none
    intro o ho
    rcases List.mem_append.mp ho with ho | ho
    · obtain ⟨r, _, rfl⟩ := List.mem_map.mp ho
      simp [dispatchOverdue, reopenedDispatch, newOutbox]
    · obtain ⟨r, _, rfl⟩ := List.mem_map.mp ho
      simp [dispatchOverdue, reopenedDispatch, newOutbox]
  have hold : ∀ o ∈ s.outbox, dispatchOverdue now (repairedDispatch pass s o) =
      (decide (o.id ∉ (expiring pass s).map OutboxRow.id) && dispatchOverdue now o) := by
    intro o _
    rw [repairedDispatch]
    by_cases he : o.id ∈ (expiring pass s).map OutboxRow.id
    · rw [if_pos he, decide_eq_false (not_not.mpr he)]
      simp [dispatchOverdue, OutboxRow.unsettled, cancelledDispatch]
    · rw [if_neg he, decide_eq_true he, Bool.true_and, releasedDispatch]
      split <;> rfl
  rw [h.outbox, List.countP_append, hnew, Nat.add_zero, countP_settled hold]
  rw [List.countP_eq_length_filter, ← selectBatch_rest deadlineOrder hk.outbox, expiring,
    hpass.limit, hpass.outbox, hpass.clock.1]
  rfl

theorem Repaired.retries {pass : RepairPass} {s t : Store} (h : Repaired pass s t)
    (hs : Consistent s) {limit : ℕ} {now : Instant} (hpass : Unobstructed limit now pass) :
    t.runs.countP (retryOverdue now) = s.runs.countP (retryOverdue now) - limit := by
  have hold : ∀ r ∈ s.runs, retryOverdue now (repairedRow pass s r) =
      (decide (r.id ∉ (due pass s).map RunRow.id) && retryOverdue now r) := by
    intro r hr
    rw [repairedRow]
    by_cases he : r.id ∈ (expiring pass s).map OutboxRow.runId
    · have hpending := (expiring_pending pass hs).1 r hr he
      simp [he, retryOverdue, skippedRow, hpending]
    by_cases hd : r.id ∈ (due pass s).map RunRow.id
    · rw [if_neg he, if_pos hd, decide_eq_false (not_not.mpr hd)]
      simp [retryOverdue, reopenedRow, rescheduledRow]
    · rw [if_neg he, if_neg hd, decide_eq_true hd, Bool.true_and]
      split
      · rename_i hl
        have hrunning := (lapsed_running pass hs).1 r hr hl
        unfold lapsedRow
        split <;> simp [retryOverdue, reopenedRow, rescheduledRow, abandonedRow, hrunning]
      · rfl
  rw [h.runs, countP_settled hold]
  rw [List.countP_eq_length_filter, ← selectBatch_rest retryOrder hs.keys.runs, due,
    hpass.limit, hpass.runs, hpass.clock.2.1]
  rfl

theorem attemptJoinRun_attempts {s : Store} (h : Consistent s) :
    (attemptJoinRun s).map Prod.fst = s.runAttempts := by
  have hone : ∀ a ∈ s.runAttempts, ∃ r, (s.runs.filter fun r => r.id = a.runId) = [r] := by
    intro a ha
    obtain ⟨r, _, _, _, hholds, hid, _, _⟩ := h.of_attempt ha
    rw [← hid]
    exact ⟨r, hholds.runs⟩
  unfold attemptJoinRun
  generalize s.runAttempts = attempts at hone
  induction attempts with
  | nil => rfl
  | cons a attempts ih =>
    obtain ⟨r, hr⟩ := hone a List.mem_cons_self
    rw [List.flatMap_cons, hr, List.map_append,
      ih fun b hb => hone b (List.mem_cons_of_mem a hb)]
    rfl

theorem Repaired.leases {pass : RepairPass} {s t : Store} (h : Repaired pass s t)
    (hs : Consistent s) {limit : ℕ} {now : Instant} (hpass : Unobstructed limit now pass) :
    t.runAttempts.countP (leaseOverdue now) = s.runAttempts.countP (leaseOverdue now) - limit := by
  have hnew : (newAttempts pass s).countP (leaseOverdue now) = 0 := by
    apply countP_none
    intro a ha
    rcases List.mem_append.mp ha with ha | ha
    · obtain ⟨r, _, rfl⟩ := List.mem_map.mp ha
      simp [leaseOverdue, reopenedAttempt, newAttempt]
    · obtain ⟨r, _, rfl⟩ := List.mem_map.mp ha
      simp [leaseOverdue, reopenedAttempt, newAttempt]
  have hold : ∀ a ∈ s.runAttempts, leaseOverdue now (repairedAttempt pass s a) =
      (decide (a.id ∉ (lapsed pass s).map fun row => row.1.id) && leaseOverdue now a) := by
    intro a ha
    rw [repairedAttempt]
    by_cases he : a.id ∈ (expiring pass s).map OutboxRow.attemptId
    · have hpending := (expiring_pending pass hs).2 a ha he
      simp [he, leaseOverdue, deadAttempt, hpending]
    by_cases hl : a.id ∈ (lapsed pass s).map fun row => row.1.id
    · rw [if_neg he, if_pos hl, decide_eq_false (not_not.mpr hl)]
      simp only [leaseOverdue, lapsedAttempt, endedAttempt]
      split <;> simp
    · rw [if_neg he, if_neg hl, decide_eq_true hl, Bool.true_and]
  have hjoin : s.runAttempts.filter (leaseOverdue now) =
      ((attemptJoinRun s).filter fun row => leaseOverdue now row.1).map Prod.fst := by
    conv_lhs => rw [← attemptJoinRun_attempts hs]
    rw [List.filter_map]
    rfl
  rw [h.attempts, List.countP_append, hnew, Nat.add_zero, countP_settled hold,
    List.countP_eq_length_filter, hjoin, List.filter_map, List.length_map, List.length_map]
  rw [← selectBatch_rest leaseOrder (attemptJoinRun_nodup hs.keys), lapsed, hpass.limit,
    hpass.leases, hpass.clock.2.2]
  rfl

def FreshPasses : List RepairPass → State → Prop
  | [], _ => True
  | pass :: passes, s => FreshPass pass s.store ∧ FreshPasses passes (next s (.reconcile pass))

/-- Unobstructed passes of one limit take so many rows of each kind off the backlog of an
instant and never add to it, so that `⌈n / limit⌉` of them clear a backlog of `n`. -/
theorem repair_passes_drain {s : State} (hs : Reachable s) {limit : ℕ} {now : Instant}
    {passes : List RepairPass} (hpasses : ∀ pass ∈ passes, Unobstructed limit now pass)
    (hfresh : FreshPasses passes s) :
    backlog now (system.run s (passes.map Command.reconcile)).store =
      (backlog now s.store).less (passes.length * limit) := by
  induction passes generalizing s with
  | nil => simp [TransitionSystem.run, Backlog.less]
  | cons pass passes ih =>
    have hstep : Step s (.reconcile pass) (next s (.reconcile pass)) := ⟨trivial, rfl⟩
    have h := (reachable_invariant hs).consistent
    have hpass := hpasses pass List.mem_cons_self
    have hrepaired := (reconcile_simultaneous hs hfresh.1).2
    have hrest := ih (hs.tail hstep) (fun p hp => hpasses p (List.mem_cons_of_mem pass hp)) hfresh.2
    have hfirst : backlog now (next s (.reconcile pass)).store =
        (backlog now s.store).less limit := by
      simp only [backlog, Backlog.less, Backlog.mk.injEq]
      exact ⟨hrepaired.dispatches h.keys hpass, hrepaired.retries h hpass,
        hrepaired.leases h hpass⟩
    have hrun : system.run s ((pass :: passes).map Command.reconcile) =
        system.run (next s (.reconcile pass)) (passes.map Command.reconcile) := rfl
    rw [hrun, hrest, hfirst, List.length_cons]
    simp only [Backlog.less, Nat.sub_sub, Nat.succ_mul, Nat.add_comm limit]

/-- Run `x` of request `x`, with Attempt `x + 1` and dispatch `x + 2`. -/
def demoCreateRun (x : Uuid) : Command :=
  .createRuns demoRendering x 2 (.target 4) (.object [])
    ⟨fun _ => x, fun _ => ⟨x + 1, x + 2⟩⟩ 0

def demoDispatched (x : Uuid) : OutboxRecord := ⟨x + 2, x, x + 1, ⟨1⟩, ⟨x + 2, x, x + 1, 1⟩, 0⟩

def demoFailure (x : Uuid) : Command :=
  .completeAttempt ⟨x + 1, "worker", false, false, some 1, "", "", none⟩ (seconds 5) 0

def demoOccurrences : SchedulePlan :=
  ⟨40, 41, [⟨seconds 1, true, 2, none, some (seconds 10)⟩,
    ⟨seconds 2, true, 1, none, some (seconds 11)⟩], some (seconds 86400), false⟩

def demoClaimedSchedule : ScheduleRow :=
  ⟨40, 3, 2, some 4, none, .object [], true, some (seconds 1), none, 0, some 41,
    some (seconds 30)⟩

def demoScheduled : State := ⟨emptyStore demoCatalog [demoClaimedSchedule], [], [], [], []⟩

/-- Runs 50 and 60 stay with their worker, 70 and 80 fail, and the two scheduled ones wait. -/
def demoBusy : List Command :=
  [50, 60, 70, 80].map demoCreateRun ++ [.claimOutbox 9 100 30 (fun _ => false) 0] ++
    [50, 60, 70, 80].map (fun x => .markPublished 9 (demoDispatched x) 1 0) ++
    [50, 60, 70, 80].map (fun x => .claimAttempt ⟨x, x + 1, 1, "worker"⟩ 0) ++
    [70, 80].map demoFailure ++
    [.commitSchedulePlan demoRendering demoOccurrences
      ⟨fun t _ => if t = seconds 1 then 90 else 100,
        fun t _ => if t = seconds 1 then ⟨91, 92⟩ else ⟨101, 102⟩⟩ (seconds 3)]

theorem demoBusy_reachable : Reachable (system.run demoScheduled demoBusy) := by
  refine ⟨demoScheduled, ⟨demoCatalog, _, by decide, by decide, rfl⟩, .of_admits ?_⟩
  have hissued (x : Uuid) (hx : x ∈ [50, 60, 70, 80]) : (9, demoDispatched x) ∈
      (system.run demoScheduled (demoBusy.take 5)).issued := by
    revert x
    decide +kernel
  exact ⟨trivial, trivial, trivial, trivial, trivial, hissued 50 (by decide),
    hissued 60 (by decide), hissued 70 (by decide), hissued 80 (by decide), trivial, trivial,
    trivial, trivial, trivial, trivial, trivial, trivial⟩

def demoOneEach : RepairPass :=
  ⟨1, fun _ => false, fun _ => false, fun _ => false, fun x => ⟨2 * x + 100, 2 * x + 101⟩,
    fun x => ⟨2 * x + 100, 2 * x + 101⟩, seconds 61, seconds 61, seconds 61, seconds 61⟩

theorem demoOneEach_fresh : FreshPasses [demoOneEach, demoOneEach]
    (system.run demoScheduled demoBusy) := by
  refine ⟨⟨⟨?_, ?_, ?_⟩, ⟨?_, ?_, ?_⟩, ?_⟩, ⟨⟨?_, ?_, ?_⟩, ⟨?_, ?_, ?_⟩, ?_⟩, trivial⟩ <;>
    decide +kernel

theorem reconcile_simultaneous_demo :
    let s := (system.run demoScheduled demoBusy).store
    (expiring demoOneEach s).map OutboxRow.id = [92] ∧
      (due demoOneEach s).map RunRow.id = [70] ∧
      (lapsed demoOneEach s).map (fun row => row.1.id) = [51] ∧
      Repaired demoOneEach s (RunStore.reconcile demoOneEach s).2 :=
  ⟨by decide +kernel, by decide +kernel, by decide +kernel,
    (reconcile_simultaneous demoBusy_reachable demoOneEach_fresh.1).2⟩

theorem repair_passes_drain_demo :
    backlog (seconds 61) (system.run demoScheduled demoBusy).store = ⟨2, 2, 2⟩ ∧
      backlog (seconds 61) (system.run (system.run demoScheduled demoBusy)
        ([demoOneEach, demoOneEach].map Command.reconcile)).store = ⟨0, 0, 0⟩ := by
  have hbefore : backlog (seconds 61) (system.run demoScheduled demoBusy).store = ⟨2, 2, 2⟩ := by
    decide +kernel
  have hpasses : ∀ pass ∈ [demoOneEach, demoOneEach], Unobstructed 1 (seconds 61) pass := by
    intro pass hmem
    have hsame : pass = demoOneEach := by simpa using hmem
    rw [hsame]
    exact ⟨rfl, rfl, rfl, rfl, rfl, rfl, rfl⟩
  have hafter := repair_passes_drain demoBusy_reachable hpasses demoOneEach_fresh
  rw [hbefore] at hafter
  exact ⟨hbefore, hafter⟩

end RepairPasses
