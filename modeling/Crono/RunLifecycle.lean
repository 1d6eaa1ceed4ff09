import Crono.StoreHistory

/-! The coupling of a Run with its Attempts and their outbox rows. The rows of one Run form a
cell; a cell is absent, inert (inserted terminal), or live with every Attempt but the newest
terminal. Each operation changes one cell at a time and keeps it coherent. -/
namespace RunLifecycle

open RunDomain WorkflowDomain SqlTable ControlPlaneSchema RunStore WorkflowStore StoreWrites

def runsOf (s : Store) (x : Uuid) : List RunRow := s.runs.filter fun r => r.id = x

def attemptsOf (s : Store) (x : Uuid) : List AttemptRow := s.runAttempts.filter fun a => a.runId = x

def outboxOf (s : Store) (x : Uuid) : List OutboxRow := s.outbox.filter fun o => o.runId = x

structure Dispatch where
  attempt : AttemptRow
  outbox : OutboxRow

structure Linked (r : RunRow) (d : Dispatch) : Prop where
  attempt_run : d.attempt.runId = r.id
  outbox_run : d.outbox.runId = r.id
  outbox_attempt : d.outbox.attemptId = d.attempt.id
  payload : d.outbox.payload = ⟨d.outbox.id, r.id, d.attempt.id, r.queueId⟩
  subject : d.outbox.subject = ⟨r.queueId⟩
  unsettled : d.outbox.unsettled = true ↔ d.attempt.status = .pendingDispatch
  claimed : d.outbox.claimedBy.isSome = true → d.outbox.unsettled = true
  unclaimed : AttemptStatus.rank d.attempt.status < 2 ∨ d.attempt.status = .dead →
    d.attempt.workerId = none
  deadline : d.outbox.dispatchDeadline.isSome = true → d.attempt.attempt = 1

/-- The status a Run may have over the status of its newest Attempt. -/
def Agrees (r : RunRow) (status : AttemptStatus) : Prop :=
  match r.status with
  | .pendingDispatch => status = .pendingDispatch
  | .queued => status = .queued
  | .running => status = .running
  | .retryWait => status = .failed ∧ r.executionSnapshot.idempotent = true ∧
      r.attemptCount < r.maxAttempts
  | .skipped => status.isTerminal = true ∧
      (r.terminalReason = some misfireDeadlineExpired → status = .dead ∧ r.attemptCount = 1)
  | .succeeded | .failed | .dead | .cancelled | .unknown => status.isTerminal = true

structure Live (r : RunRow) (past : List Dispatch) (newest : Dispatch) : Prop where
  linked : ∀ d ∈ past ++ [newest], Linked r d
  numbered : (past ++ [newest]).map (fun d => d.attempt.attempt) = List.range' 1 r.attemptCount
  settled : ∀ d ∈ past, d.attempt.status.isTerminal = true
  agrees : Agrees r newest.attempt.status
  bounded : r.attemptCount ≤ r.maxAttempts
  repeated : 1 < r.attemptCount → r.executionSnapshot.idempotent = true
  queue : r.executionSnapshot.queueId = some r.queueId

inductive Coherent : List RunRow → List AttemptRow → List OutboxRow → Prop where
  | absent : Coherent [] [] []
  | inert {r} : r.attemptCount = 0 → r.status.isTerminal = true → Coherent [r] [] []
  | live {r past newest} : Live r past newest →
      Coherent [r] ((past ++ [newest]).map Dispatch.attempt)
        ((past ++ [newest]).map Dispatch.outbox)

structure Consistent (s : Store) : Prop where
  keys : KeysUnique s
  cells : ∀ x, Coherent (runsOf s x) (attemptsOf s x) (outboxOf s x)
  executions : ∀ e ∈ s.workflowNodeExecutions, e.executionSnapshot.queueId = some e.queueId

/-- The cell of a Run that has been dispatched. -/
structure Holds (s : Store) (r : RunRow) (past : List Dispatch) (newest : Dispatch) : Prop where
  runs : runsOf s r.id = [r]
  attempts : attemptsOf s r.id = (past ++ [newest]).map Dispatch.attempt
  outbox : outboxOf s r.id = (past ++ [newest]).map Dispatch.outbox
  live : Live r past newest

theorem mem_runsOf {s : Store} {x : Uuid} {r : RunRow} :
    r ∈ runsOf s x ↔ r ∈ s.runs ∧ r.id = x := by
  simp [runsOf]

theorem mem_attemptsOf {s : Store} {x : Uuid} {a : AttemptRow} :
    a ∈ attemptsOf s x ↔ a ∈ s.runAttempts ∧ a.runId = x := by
  simp [attemptsOf]

theorem mem_outboxOf {s : Store} {x : Uuid} {o : OutboxRow} :
    o ∈ outboxOf s x ↔ o ∈ s.outbox ∧ o.runId = x := by
  simp [outboxOf]

theorem Consistent.of_tables {s t : Store} (h : Consistent s) (hk : KeysUnique t)
    (hruns : t.runs = s.runs) (hattempts : t.runAttempts = s.runAttempts)
    (houtbox : t.outbox = s.outbox)
    (hexecutions : ∀ e ∈ t.workflowNodeExecutions,
      e.executionSnapshot.queueId = some e.queueId) : Consistent t where
  keys := hk
  cells := by
    intro x
    simpa [runsOf, attemptsOf, outboxOf, hruns, hattempts, houtbox] using h.cells x
  executions := hexecutions

theorem Holds.run_mem {s : Store} {r : RunRow} {past : List Dispatch} {newest : Dispatch}
    (h : Holds s r past newest) : r ∈ s.runs := by
  have hr : r ∈ runsOf s r.id := by rw [h.runs]; exact List.mem_singleton_self r
  exact (mem_runsOf.mp hr).1

theorem Holds.attempt_mem {s : Store} {r : RunRow} {past : List Dispatch} {newest d : Dispatch}
    (h : Holds s r past newest) (hd : d ∈ past ++ [newest]) : d.attempt ∈ s.runAttempts := by
  have ha : d.attempt ∈ attemptsOf s r.id := by
    rw [h.attempts]
    exact List.mem_map_of_mem hd
  exact (mem_attemptsOf.mp ha).1

theorem Holds.outbox_mem {s : Store} {r : RunRow} {past : List Dispatch} {newest d : Dispatch}
    (h : Holds s r past newest) (hd : d ∈ past ++ [newest]) : d.outbox ∈ s.outbox := by
  have ho : d.outbox ∈ outboxOf s r.id := by
    rw [h.outbox]
    exact List.mem_map_of_mem hd
  exact (mem_outboxOf.mp ho).1

theorem Consistent.run_cases {s : Store} (h : Consistent s) {r : RunRow} (hr : r ∈ s.runs) :
    (attemptsOf s r.id = [] ∧ outboxOf s r.id = [] ∧ r.attemptCount = 0 ∧
      r.status.isTerminal = true) ∨ ∃ past newest, Holds s r past newest := by
  have hmem : r ∈ runsOf s r.id := mem_runsOf.mpr ⟨hr, rfl⟩
  have hcell := h.cells r.id
  generalize hruns : runsOf s r.id = runs at hmem hcell
  generalize hattempts : attemptsOf s r.id = attempts at hcell
  generalize houtbox : outboxOf s r.id = outbox at hcell
  cases hcell with
  | absent => cases hmem
  | inert hcount hterminal =>
    rw [List.mem_singleton] at hmem
    subst hmem
    exact .inl ⟨rfl, rfl, hcount, hterminal⟩
  | live hlive =>
    rw [List.mem_singleton] at hmem
    subst hmem
    exact .inr ⟨_, _, hruns, hattempts, houtbox, hlive⟩

theorem Consistent.of_attempt {s : Store} (h : Consistent s) {a : AttemptRow}
    (ha : a ∈ s.runAttempts) :
    ∃ r past newest d, Holds s r past newest ∧ r.id = a.runId ∧ d ∈ past ++ [newest] ∧
      d.attempt = a := by
  have hmem : a ∈ attemptsOf s a.runId := mem_attemptsOf.mpr ⟨ha, rfl⟩
  have hcell := h.cells a.runId
  generalize hruns : runsOf s a.runId = runs at hcell
  generalize hattempts : attemptsOf s a.runId = attempts at hmem hcell
  generalize houtbox : outboxOf s a.runId = outbox at hcell
  cases hcell with
  | absent => cases hmem
  | inert => cases hmem
  | @live r past newest hlive =>
    obtain ⟨d, hd, rfl⟩ := List.mem_map.mp hmem
    have hid : d.attempt.runId = r.id := (hlive.linked d hd).attempt_run
    rw [hid] at hruns hattempts houtbox
    exact ⟨r, past, newest, d, ⟨hruns, hattempts, houtbox, hlive⟩, hid.symm, hd, rfl⟩

theorem Consistent.of_outbox {s : Store} (h : Consistent s) {o : OutboxRow}
    (ho : o ∈ s.outbox) :
    ∃ r past newest d, Holds s r past newest ∧ r.id = o.runId ∧ d ∈ past ++ [newest] ∧
      d.outbox = o := by
  have hmem : o ∈ outboxOf s o.runId := mem_outboxOf.mpr ⟨ho, rfl⟩
  have hcell := h.cells o.runId
  generalize hruns : runsOf s o.runId = runs at hcell
  generalize hattempts : attemptsOf s o.runId = attempts at hcell
  generalize houtbox : outboxOf s o.runId = outbox at hmem hcell
  cases hcell with
  | absent => cases hmem
  | inert => cases hmem
  | @live r past newest hlive =>
    obtain ⟨d, hd, rfl⟩ := List.mem_map.mp hmem
    have hid : d.outbox.runId = r.id := (hlive.linked d hd).outbox_run
    rw [hid] at hruns hattempts houtbox
    exact ⟨r, past, newest, d, ⟨hruns, hattempts, houtbox, hlive⟩, hid.symm, hd, rfl⟩

theorem Live.newest_of_open {r : RunRow} {past : List Dispatch} {newest d : Dispatch}
    (h : Live r past newest) (hd : d ∈ past ++ [newest])
    (hopen : d.attempt.status.isTerminal = false) : d = newest := by
  rcases List.mem_append.mp hd with hd | hd
  · simp [h.settled d hd] at hopen
  · exact List.mem_singleton.mp hd

theorem Live.newest_linked {r : RunRow} {past : List Dispatch} {newest : Dispatch}
    (h : Live r past newest) : Linked r newest :=
  h.linked newest (List.mem_append_right _ (List.mem_singleton_self _))

theorem Live.status_of_pending {r : RunRow} {past : List Dispatch} {newest : Dispatch}
    (h : Live r past newest) (hs : newest.attempt.status = .pendingDispatch) :
    r.status = .pendingDispatch := by
  have ha := h.agrees
  unfold Agrees at ha
  split at ha <;> simp_all [AttemptStatus.isTerminal]

theorem Live.status_of_queued {r : RunRow} {past : List Dispatch} {newest : Dispatch}
    (h : Live r past newest) (hs : newest.attempt.status = .queued) : r.status = .queued := by
  have ha := h.agrees
  unfold Agrees at ha
  split at ha <;> simp_all [AttemptStatus.isTerminal]

theorem Live.status_of_running {r : RunRow} {past : List Dispatch} {newest : Dispatch}
    (h : Live r past newest) (hs : newest.attempt.status = .running) : r.status = .running := by
  have ha := h.agrees
  unfold Agrees at ha
  split at ha <;> simp_all [AttemptStatus.isTerminal]

theorem Live.number_cases {r : RunRow} {past : List Dispatch} {newest : Dispatch}
    (h : Live r past newest) :
    newest.attempt.attempt = r.attemptCount ∧
      ∀ d ∈ past, d.attempt.attempt ≠ r.attemptCount := by
  have hlength : r.attemptCount = past.length + 1 := by
    have hcount := congrArg List.length h.numbered
    simpa using hcount.symm
  have hnumbers := h.numbered
  rw [hlength, List.range'_concat, List.map_append, List.map_singleton] at hnumbers
  obtain ⟨hpast, hnewest⟩ := List.append_inj' hnumbers rfl
  refine ⟨by simpa [hlength, Nat.add_comm] using hnewest, fun d hd heq => ?_⟩
  have hmem : d.attempt.attempt ∈ List.range' 1 past.length := by
    rw [← hpast]
    exact List.mem_map_of_mem hd
  rw [List.mem_range'_1] at hmem
  omega

theorem Consistent.of_unsettled {s : Store} (h : Consistent s) {o : OutboxRow}
    (ho : o ∈ s.outbox) (hu : o.unsettled = true) :
    ∃ r past newest, Holds s r past newest ∧ newest.outbox = o ∧
      newest.attempt.status = .pendingDispatch ∧ r.status = .pendingDispatch := by
  obtain ⟨r, past, newest, d, hholds, _, hd, rfl⟩ := h.of_outbox ho
  have hstatus := ((hholds.live.linked d hd).unsettled).mp hu
  have hnewest : d = newest := hholds.live.newest_of_open hd (by rw [hstatus]; rfl)
  subst hnewest
  exact ⟨r, past, d, hholds, rfl, hstatus, hholds.live.status_of_pending hstatus⟩

theorem Consistent.of_running {s : Store} (h : Consistent s) {a : AttemptRow}
    (ha : a ∈ s.runAttempts) (hs : a.status = .running) :
    ∃ r past newest, Holds s r past newest ∧ newest.attempt = a ∧ r.id = a.runId ∧
      r.status = .running := by
  obtain ⟨r, past, newest, d, hholds, hid, hd, rfl⟩ := h.of_attempt ha
  have hnewest : d = newest := hholds.live.newest_of_open hd (by rw [hs]; rfl)
  subst hnewest
  exact ⟨r, past, d, hholds, rfl, hid, hholds.live.status_of_running hs⟩

theorem Consistent.of_queued {s : Store} (h : Consistent s) {a : AttemptRow}
    (ha : a ∈ s.runAttempts) (hs : a.status = .queued) :
    ∃ r past newest, Holds s r past newest ∧ newest.attempt = a ∧ r.id = a.runId ∧
      r.status = .queued := by
  obtain ⟨r, past, newest, d, hholds, hid, hd, rfl⟩ := h.of_attempt ha
  have hnewest : d = newest := hholds.live.newest_of_open hd (by rw [hs]; rfl)
  subst hnewest
  exact ⟨r, past, d, hholds, rfl, hid, hholds.live.status_of_queued hs⟩

theorem Consistent.replace {s t : Store} (h : Consistent s) (hk : KeysUnique t) {x : Uuid}
    (hcell : Coherent (runsOf t x) (attemptsOf t x) (outboxOf t x))
    (hframe : ∀ y, y ≠ x → runsOf t y = runsOf s y ∧ attemptsOf t y = attemptsOf s y ∧
      outboxOf t y = outboxOf s y)
    (hexecutions : t.workflowNodeExecutions = s.workflowNodeExecutions) : Consistent t where
  keys := hk
  cells := by
    intro y
    by_cases hy : y = x
    · rw [hy]
      exact hcell
    · obtain ⟨h₁, h₂, h₃⟩ := hframe y hy
      rw [h₁, h₂, h₃]
      exact h.cells y
  executions := by
    rw [hexecutions]
    exact h.executions

theorem runsOf_update_ne {p : RunRow → Bool} {f : RunRow → RunRow} {s : Store} {x y : Uuid}
    (hf : ∀ r, (f r).id = r.id) (hp : ∀ r, p r = true → r.id = x) (hy : y ≠ x) :
    (update p f s.runs).filter (fun r => r.id = y) = runsOf s y := by
  rw [filter_update (fun r => by rw [hf r])]
  apply update_of_none
  intro r hr
  rw [List.mem_filter, decide_eq_true_eq] at hr
  by_contra hpr
  exact hy (hr.2.symm.trans (hp r (by simpa using hpr)))

theorem attemptsOf_update_ne {p : AttemptRow → Bool} {f : AttemptRow → AttemptRow} {s : Store}
    {a : AttemptRow} {y : Uuid} (hk : KeysUnique s) (hf : ∀ b, (f b).runId = b.runId)
    (ha : a ∈ s.runAttempts) (hp : ∀ b, p b = true → b.id = a.id) (hy : y ≠ a.runId) :
    (update p f s.runAttempts).filter (fun b => b.runId = y) = attemptsOf s y := by
  rw [filter_update (fun b => by rw [hf b])]
  apply update_of_none
  intro b hb
  rw [List.mem_filter, decide_eq_true_eq] at hb
  by_contra hpb
  have hab : b = a := row_unique hk.attempts hb.1 ha (hp b (by simpa using hpb))
  exact hy (by rw [← hb.2, hab])

theorem outboxOf_update_ne {p : OutboxRow → Bool} {f : OutboxRow → OutboxRow} {s : Store}
    {o : OutboxRow} {y : Uuid} (hk : KeysUnique s) (hf : ∀ b, (f b).runId = b.runId)
    (ho : o ∈ s.outbox) (hp : ∀ b, p b = true → b.id = o.id) (hy : y ≠ o.runId) :
    (update p f s.outbox).filter (fun b => b.runId = y) = outboxOf s y := by
  rw [filter_update (fun b => by rw [hf b])]
  apply update_of_none
  intro b hb
  rw [List.mem_filter, decide_eq_true_eq] at hb
  by_contra hpb
  have hob : b = o := row_unique hk.outbox hb.1 ho (hp b (by simpa using hpb))
  exact hy (by rw [← hb.2, hob])

theorem Holds.runsOf_update {p : RunRow → Bool} {f : RunRow → RunRow} {s : Store} {r : RunRow}
    {past : List Dispatch} {newest : Dispatch} (h : Holds s r past newest)
    (hf : ∀ r, (f r).id = r.id) (hp : p r = true) :
    (update p f s.runs).filter (fun r' => r'.id = r.id) = [f r] := by
  rw [filter_update (fun r => by rw [hf r])]
  have hruns : s.runs.filter (fun r' => r'.id = r.id) = [r] := h.runs
  rw [hruns, update_singleton, if_pos hp]

theorem Holds.attemptsOf_update {p : AttemptRow → Bool} {f : AttemptRow → AttemptRow} {s : Store}
    {r : RunRow} {past : List Dispatch} {newest : Dispatch} (h : Holds s r past newest)
    (hf : ∀ b, (f b).runId = b.runId) (hp : p newest.attempt = true)
    (hpast : ∀ b, b.status.isTerminal = true → p b = false) :
    (update p f s.runAttempts).filter (fun b => b.runId = r.id) =
      past.map Dispatch.attempt ++ [f newest.attempt] := by
  rw [filter_update (fun b => by rw [hf b])]
  have hattempts : s.runAttempts.filter (fun b => b.runId = r.id) =
    (past ++ [newest]).map Dispatch.attempt := h.attempts
  rw [hattempts, List.map_append, update_append, List.map_singleton, update_singleton, if_pos hp]
  congr 1
  apply update_of_none
  intro b hb
  obtain ⟨d, hd, rfl⟩ := List.mem_map.mp hb
  exact hpast _ (h.live.settled d hd)

theorem Holds.outboxOf_update {p : OutboxRow → Bool} {f : OutboxRow → OutboxRow} {s : Store}
    {r : RunRow} {past : List Dispatch} {newest : Dispatch} (h : Holds s r past newest)
    (hf : ∀ b, (f b).runId = b.runId) (hp : p newest.outbox = true)
    (hpast : ∀ b, b.unsettled = false → b.claimedBy = none → p b = false) :
    (update p f s.outbox).filter (fun b => b.runId = r.id) =
      past.map Dispatch.outbox ++ [f newest.outbox] := by
  rw [filter_update (fun b => by rw [hf b])]
  have houtbox : s.outbox.filter (fun b => b.runId = r.id) =
    (past ++ [newest]).map Dispatch.outbox := h.outbox
  rw [houtbox, List.map_append, update_append, List.map_singleton, update_singleton, if_pos hp]
  congr 1
  apply update_of_none
  intro b hb
  obtain ⟨d, hd, rfl⟩ := List.mem_map.mp hb
  have hlinked := h.live.linked d (List.mem_append_left _ hd)
  have hunsettled : d.outbox.unsettled = false := by
    by_contra hu
    have hs := hlinked.unsettled.mp (by simpa using hu)
    have hterminal := h.live.settled d hd
    simp [hs] at hterminal
  refine hpast _ hunsettled ?_
  by_contra hclaimed
  have := hlinked.claimed (by simpa [Option.isSome_iff_ne_none] using hclaimed)
  simp [hunsettled] at this

/-- The newest dispatch moves on together with its Run. -/
theorem Live.advance {r r' : RunRow} {past : List Dispatch} {newest newest' : Dispatch}
    (h : Live r past newest) (hcolumns : r' = { r with
      status := r'.status
      nextRetryAt := r'.nextRetryAt
      terminalReason := r'.terminalReason
      queuedAt := r'.queuedAt
      startedAt := r'.startedAt
      completedAt := r'.completedAt })
    (hattempt : newest'.attempt.attempt = newest.attempt.attempt)
    (hlinked : Linked r' newest') (hagrees : Agrees r' newest'.attempt.status) :
    Live r' past newest' where
  linked := by
    intro d hd
    rcases List.mem_append.mp hd with hd | hd
    · have hold := h.linked d (List.mem_append_left _ hd)
      rw [hcolumns]
      exact { hold with }
    · rw [List.mem_singleton.mp hd]
      exact hlinked
  numbered := by
    have hcount : r'.attemptCount = r.attemptCount := by rw [hcolumns]
    rw [hcount, ← h.numbered]
    simp [hattempt]
  settled := h.settled
  agrees := hagrees
  bounded := by rw [hcolumns]; exact h.bounded
  repeated := by rw [hcolumns]; exact h.repeated
  queue := by rw [hcolumns]; exact h.queue

/-- A Run goes back to dispatch with a fresh Attempt. -/
theorem Live.reopen {r r' : RunRow} {past : List Dispatch} {newest fresh : Dispatch}
    (h : Live r past newest) (hcolumns : r' = { r with
      status := .pendingDispatch
      attemptCount := r.attemptCount + 1
      nextRetryAt := none
      startedAt := none })
    (hidempotent : r.executionSnapshot.idempotent = true) (hcount : r.attemptCount < r.maxAttempts)
    {ended : Dispatch} (hended : Linked r ended)
    (hterminal : ended.attempt.status.isTerminal = true)
    (hnumber : ended.attempt.attempt = newest.attempt.attempt)
    (hfresh : Linked r' fresh) (hpending : fresh.attempt.status = .pendingDispatch)
    (hattempt : fresh.attempt.attempt = r.attemptCount + 1) :
    Live r' (past ++ [ended]) fresh where
  linked := by
    have hkeep (d : Dispatch) (hold : Linked r d) : Linked r' d := by
      rw [hcolumns]
      exact { hold with }
    intro d hd
    simp only [List.append_assoc, List.cons_append, List.nil_append, List.mem_append,
      List.mem_cons, List.not_mem_nil, or_false] at hd
    rcases hd with hd | rfl | rfl
    · exact hkeep d (h.linked d (List.mem_append_left _ hd))
    · exact hkeep d hended
    · exact hfresh
  numbered := by
    have hcount' : r'.attemptCount = r.attemptCount + 1 := by rw [hcolumns]
    have hold : (past ++ [ended]).map (fun d => d.attempt.attempt) =
        List.range' 1 r.attemptCount := by
      rw [← h.numbered]
      simp [hnumber]
    rw [hcount', List.map_append, hold, List.range'_concat]
    simp [hattempt, Nat.add_comm]
  settled := by
    intro d hd
    rcases List.mem_append.mp hd with hd | hd
    · exact h.settled d hd
    · rw [List.mem_singleton.mp hd]
      exact hterminal
  agrees := by
    rw [hcolumns]
    exact hpending
  bounded := by rw [hcolumns]; exact hcount
  repeated := by rw [hcolumns]; exact fun _ => hidempotent
  queue := by rw [hcolumns]; exact h.queue

theorem Live.touch {r : RunRow} {past : List Dispatch} {newest : Dispatch}
    (h : Live r past newest) {g : Dispatch → Dispatch}
    (hstatus : ∀ d, (g d).attempt.status = d.attempt.status)
    (hnumber : ∀ d, (g d).attempt.attempt = d.attempt.attempt)
    (hlinked : ∀ d ∈ past ++ [newest], Linked r d → Linked r (g d)) :
    Live r (past.map g) (g newest) where
  linked := by
    intro d hd
    have hd' : d ∈ (past ++ [newest]).map g := by simpa using hd
    obtain ⟨e, he, rfl⟩ := List.mem_map.mp hd'
    exact hlinked e he (h.linked e he)
  numbered := by
    rw [← h.numbered]
    simp [hnumber]
  settled := by
    intro d hd
    obtain ⟨e, he, rfl⟩ := List.mem_map.mp hd
    rw [hstatus]
    exact h.settled e he
  agrees := by
    rw [hstatus]
    exact h.agrees
  bounded := h.bounded
  repeated := h.repeated
  queue := h.queue

theorem Coherent.touch {runs : List RunRow} {attempts : List AttemptRow} {outbox : List OutboxRow}
    (h : Coherent runs attempts outbox) {f : AttemptRow → AttemptRow} {g : OutboxRow → OutboxRow}
    (hstatus : ∀ a, (f a).status = a.status) (hnumber : ∀ a, (f a).attempt = a.attempt)
    (hlinked : ∀ r d, d.outbox ∈ outbox → Linked r d → Linked r ⟨f d.attempt, g d.outbox⟩) :
    Coherent runs (attempts.map f) (outbox.map g) := by
  cases h with
  | absent => exact .absent
  | inert hcount hterminal => exact .inert hcount hterminal
  | @live r past newest hlive =>
    have htouched := hlive.touch (g := fun d => ⟨f d.attempt, g d.outbox⟩)
      (fun d => hstatus d.attempt) (fun d => hnumber d.attempt)
      (fun d hd => hlinked r d (List.mem_map_of_mem hd))
    simpa [Function.comp_def] using Coherent.live htouched

/-- A bookkeeping update of the outbox: it moves no settlement and claims no settled row. -/
theorem Consistent.touchOutbox {s : Store} (h : Consistent s) {p : OutboxRow → Bool}
    {f : OutboxRow → OutboxRow}
    (hf : ∀ o, (f o).id = o.id ∧ (f o).runId = o.runId ∧ (f o).attemptId = o.attemptId ∧
      (f o).subject = o.subject ∧ (f o).payload = o.payload ∧ (f o).unsettled = o.unsettled ∧
      (f o).dispatchDeadline = o.dispatchDeadline)
    (hclaimed : ∀ o ∈ s.outbox, p o = true → (f o).claimedBy.isSome = true →
      o.unsettled = true) : Consistent (updateOutbox p f s) where
  keys := { h.keys with
    outbox := (map_update fun o _ _ => (hf o).1).symm ▸ h.keys.outbox
    outbox_attempts := (map_update fun o _ _ => (hf o).2.2.1).symm ▸ h.keys.outbox_attempts }
  cells := by
    intro x
    have houtbox : outboxOf (updateOutbox p f s) x =
        (outboxOf s x).map fun o => if p o then f o else o := by
      unfold outboxOf updateOutbox
      rw [filter_update (fun o => by rw [(hf o).2.1])]
      rfl
    rw [houtbox]
    have hcell := (h.cells x).touch (f := id) (g := fun o => if p o then f o else o)
      (fun _ => rfl) (fun _ => rfl) ?_
    · rwa [List.map_id] at hcell
    · intro r d hmem hd
      by_cases hp : p d.outbox = true
      · obtain ⟨h₁, h₂, h₃, h₄, h₅, h₆, h₇⟩ := hf d.outbox
        simp only [hp, if_true, id]
        exact { hd with
          outbox_run := h₂ ▸ hd.outbox_run
          outbox_attempt := h₃ ▸ hd.outbox_attempt
          payload := by rw [h₁, h₅]; exact hd.payload
          subject := h₄ ▸ hd.subject
          unsettled := by rw [h₆]; exact hd.unsettled
          claimed := fun hc => by rw [h₆]; exact hclaimed d.outbox (mem_outboxOf.mp hmem).1 hp hc
          deadline := by rw [h₇]; exact hd.deadline }
      · simpa [hp] using hd
  executions := h.executions

/-- A bookkeeping update of Attempts. -/
theorem Consistent.touchAttempts {s : Store} (h : Consistent s) {p : AttemptRow → Bool}
    {f : AttemptRow → AttemptRow}
    (hf : ∀ a, (f a).id = a.id ∧ (f a).runId = a.runId ∧ (f a).attempt = a.attempt ∧
      (f a).status = a.status ∧ (f a).workerId = a.workerId) :
    Consistent (updateAttempts p f s) where
  keys := { h.keys with attempts := (map_update fun a _ _ => (hf a).1).symm ▸ h.keys.attempts }
  cells := by
    intro x
    have hattempts : attemptsOf (updateAttempts p f s) x =
        (attemptsOf s x).map fun a => if p a then f a else a := by
      unfold attemptsOf updateAttempts
      rw [filter_update (fun a => by rw [(hf a).2.1])]
      rfl
    rw [hattempts]
    have hcell := (h.cells x).touch (f := fun a => if p a then f a else a) (g := id)
      (fun a => by split <;> simp [hf a]) (fun a => by split <;> simp [hf a]) ?_
    · rwa [List.map_id] at hcell
    · intro r d _ hd
      by_cases hp : p d.attempt = true
      · obtain ⟨h₁, h₂, h₃, h₄, h₅⟩ := hf d.attempt
        simp only [hp, if_true, id]
        exact { hd with
          attempt_run := h₂ ▸ hd.attempt_run
          outbox_attempt := h₁ ▸ hd.outbox_attempt
          payload := by rw [h₁]; exact hd.payload
          unsettled := by rw [h₄]; exact hd.unsettled
          unclaimed := by rw [h₄, h₅]; exact hd.unclaimed
          deadline := by rw [h₃]; exact hd.deadline }
      · simpa [hp] using hd
  executions := h.executions

theorem Coherent.of_no_run {attempts : List AttemptRow} {outbox : List OutboxRow}
    (h : Coherent [] attempts outbox) : attempts = [] ∧ outbox = [] := by
  cases h
  exact ⟨rfl, rfl⟩

theorem Consistent.absent {s : Store} (h : Consistent s) {x : Uuid}
    (hx : ∀ r ∈ s.runs, r.id ≠ x) : runsOf s x = [] ∧ attemptsOf s x = [] ∧ outboxOf s x = [] := by
  have hruns : runsOf s x = [] := by
    rw [runsOf, List.filter_eq_nil_iff]
    intro r hr
    simpa using hx r hr
  have hcell := h.cells x
  rw [hruns] at hcell
  exact ⟨hruns, hcell.of_no_run⟩

theorem Consistent.insertInert {s t : Store} (h : Consistent s) {row : RunRow}
    (hinsert : insertRun row s = .ok t) (hcount : row.attemptCount = 0)
    (hterminal : row.status.isTerminal = true) : Consistent t := by
  have hwrite : ExecutionWrite ⟨none, row.requestId, none, false⟩ s t :=
    .insertRun (fun _ hx => .inl hx) hinsert
  have hk := hwrite.keysUnique h.keys
  obtain ⟨hfresh, _, _, _, _, rfl⟩ := insertRun_ok hinsert
  obtain ⟨hruns, hattempts, houtbox⟩ := h.absent hfresh
  refine h.replace (x := row.id) hk ?_ ?_ rfl
  · have hcell : runsOf { s with runs := s.runs ++ [row] } row.id = [row] := by
      rw [runsOf, List.filter_append]
      have hnone : s.runs.filter (fun r => r.id = row.id) = [] := hruns
      simp [hnone]
    rw [hcell]
    change Coherent [row] (attemptsOf s row.id) (outboxOf s row.id)
    rw [hattempts, houtbox]
    exact .inert hcount hterminal
  · intro y hy
    refine ⟨?_, rfl, rfl⟩
    rw [runsOf, List.filter_append]
    simp [runsOf, hy.symm]

/-- A Run inserted with its first dispatch. -/
theorem Consistent.insertLive {s s₁ t : Store} (h : Consistent s) {row : RunRow}
    {ids : DispatchIds} {deadline : Option Instant} {now : Instant}
    (hinsert : insertRun row s = .ok s₁)
    (hdispatch : createAttemptAndOutbox ids row.id 1 row.queueId deadline now s₁ = .ok t)
    (hcount : row.attemptCount = 1) (hstatus : row.status = .pendingDispatch)
    (hqueue : row.executionSnapshot.queueId = some row.queueId) : Consistent t := by
  have hwrites : ExecutionWrites ⟨none, row.requestId, none, false⟩ s t :=
    .head (.insertRun (fun _ hx => .inl hx) hinsert) (createAttemptAndOutbox_writes hdispatch)
  have hk : KeysUnique t := (Writes.of_execution hwrites).keysUnique h.keys
  obtain ⟨hfresh, hbounded, _, _, _, rfl⟩ := insertRun_ok hinsert
  obtain ⟨_, _, rfl⟩ := createAttemptAndOutbox_ok hdispatch
  obtain ⟨hruns, hattempts, houtbox⟩ := h.absent hfresh
  have hlive :
      Live row [] ⟨newAttempt ids row.id 1, newOutbox ids row.id row.queueId deadline now⟩ :=
    { linked := by
        intro d hd
        rw [List.nil_append, List.mem_singleton] at hd
        subst hd
        exact ⟨rfl, rfl, rfl, rfl, rfl, by simp [OutboxRow.unsettled, newOutbox, newAttempt],
          fun hc => by simp [newOutbox] at hc, fun _ => rfl, fun _ => rfl⟩
      numbered := by simp [hcount, newAttempt]
      settled := by simp
      agrees := by simp [Agrees, hstatus, newAttempt]
      bounded := hbounded
      repeated := by simp [hcount]
      queue := hqueue }
  refine h.replace (x := row.id) hk ?_ ?_ rfl
  · have hnone₁ : s.runs.filter (fun r => r.id = row.id) = [] := hruns
    have hnone₂ : s.runAttempts.filter (fun a => a.runId = row.id) = [] := hattempts
    have hnone₃ : s.outbox.filter (fun o => o.runId = row.id) = [] := houtbox
    have hcell := Coherent.live hlive
    simpa [runsOf, attemptsOf, outboxOf, hnone₁, hnone₂, hnone₃, newAttempt, newOutbox] using hcell
  · intro y hy
    simp [runsOf, attemptsOf, outboxOf, newAttempt, newOutbox, hy.symm]

theorem Consistent.insertRunEvent {s : Store} (h : Consistent s) (runId : Uuid)
    (event : RunEventType) (now : Instant) : Consistent (insertRunEvent runId event now s) := by
  have hwrite : ExecutionWrite .plain s (ControlPlaneSchema.insertRunEvent runId event now s) :=
    insertRunEvent_write runId event now s
  exact h.of_tables (hwrite.keysUnique h.keys) rfl rfl rfl h.executions

/-- The guards of a pair of updates that name one Run and its newest Attempt. -/
structure Focused (r : RunRow) (a : AttemptRow) (pr : RunRow → Bool) (fr : RunRow → RunRow)
    (pa : AttemptRow → Bool) (fa : AttemptRow → AttemptRow) : Prop where
  run : pr r = true
  run_only : ∀ r', pr r' = true → r'.id = r.id
  run_id : ∀ r', (fr r').id = r'.id
  attempt : pa a = true
  attempt_only : ∀ b, pa b = true → b.id = a.id
  attempt_open : ∀ b, b.status.isTerminal = true → pa b = false
  attempt_run : ∀ b, (fa b).runId = b.runId

theorem Consistent.advance {s t : Store} (h : Consistent s) (hk : KeysUnique t) {r : RunRow}
    {past : List Dispatch} {newest : Dispatch} (hholds : Holds s r past newest)
    {pr : RunRow → Bool} {fr : RunRow → RunRow} {pa : AttemptRow → Bool}
    {fa : AttemptRow → AttemptRow} (hfocus : Focused r newest.attempt pr fr pa fa)
    {outbox : OutboxRow} (hruns : t.runs = update pr fr s.runs)
    (hattempts : t.runAttempts = update pa fa s.runAttempts)
    (houtbox : outboxOf t r.id = past.map Dispatch.outbox ++ [outbox])
    (hframe : ∀ y, y ≠ r.id → outboxOf t y = outboxOf s y)
    (hlive : Live (fr r) past ⟨fa newest.attempt, outbox⟩)
    (hexecutions : t.workflowNodeExecutions = s.workflowNodeExecutions) : Consistent t := by
  have hrun : newest.attempt.runId = r.id := hholds.live.newest_linked.attempt_run
  have hmem := hholds.attempt_mem (List.mem_append_right past (List.mem_singleton_self newest))
  refine h.replace (x := r.id) hk ?_ ?_ hexecutions
  · have hr : runsOf t r.id = [fr r] := by
      rw [runsOf, hruns]
      exact hholds.runsOf_update hfocus.run_id hfocus.run
    have ha : attemptsOf t r.id = past.map Dispatch.attempt ++ [fa newest.attempt] := by
      rw [attemptsOf, hattempts]
      exact hholds.attemptsOf_update hfocus.attempt_run hfocus.attempt hfocus.attempt_open
    rw [hr, ha, houtbox]
    simpa using Coherent.live hlive
  · intro y hy
    refine ⟨?_, ?_, hframe y hy⟩
    · rw [runsOf, hruns]
      exact runsOf_update_ne hfocus.run_id hfocus.run_only hy
    · rw [attemptsOf, hattempts]
      exact attemptsOf_update_ne h.keys hfocus.attempt_run hmem hfocus.attempt_only
        (by rw [hrun]; exact hy)

theorem focused_status (fr : RunRow → RunRow) (fa : AttemptRow → AttemptRow) {r : RunRow}
    {a : AttemptRow} {runStatus : RunStatus} {attemptStatus : AttemptStatus}
    (hr : r.status = runStatus) (ha : a.status = attemptStatus)
    (hopen : attemptStatus.isTerminal = false) (hfr : ∀ r', (fr r').id = r'.id)
    (hfa : ∀ b, (fa b).runId = b.runId) :
    Focused r a (fun r' => r'.id = r.id && r'.status = runStatus) fr
      (fun b => b.id = a.id && b.status = attemptStatus) fa where
  run := by simp [hr]
  run_only := by
    intro r' hp
    simp only [Bool.and_eq_true, decide_eq_true_eq] at hp
    exact hp.1
  run_id := hfr
  attempt := by simp [ha]
  attempt_only := by
    intro b hp
    simp only [Bool.and_eq_true, decide_eq_true_eq] at hp
    exact hp.1
  attempt_open := by
    intro b hb
    by_contra hp
    simp only [Bool.not_eq_false, Bool.and_eq_true, decide_eq_true_eq] at hp
    rw [hp.2, hopen] at hb
    cases hb
  attempt_run := hfa

theorem Holds.settle {s : Store} (h : Consistent s) {r : RunRow} {past : List Dispatch}
    {newest : Dispatch} (hholds : Holds s r past newest) {p : OutboxRow → Bool}
    {f : OutboxRow → OutboxRow} (hf : ∀ o, (f o).runId = o.runId)
    (hp : p newest.outbox = true) (honly : ∀ o, p o = true → o.id = newest.outbox.id)
    (hpast : ∀ o, o.unsettled = false → o.claimedBy = none → p o = false) :
    (update p f s.outbox).filter (fun o => o.runId = r.id) =
        past.map Dispatch.outbox ++ [f newest.outbox] ∧
      ∀ y, y ≠ r.id → (update p f s.outbox).filter (fun o => o.runId = y) = outboxOf s y := by
  have hrun : newest.outbox.runId = r.id := hholds.live.newest_linked.outbox_run
  have hmem := hholds.outbox_mem (List.mem_append_right past (List.mem_singleton_self newest))
  refine ⟨hholds.outboxOf_update hf hp hpast, fun y hy => ?_⟩
  exact outboxOf_update_ne h.keys hf hmem honly (by rw [hrun]; exact hy)

theorem Holds.outbox_kept {s : Store} {r : RunRow} {past : List Dispatch} {newest : Dispatch}
    (h : Holds s r past newest) :
    outboxOf s r.id = past.map Dispatch.outbox ++ [newest.outbox] := by
  rw [h.outbox, List.map_append, List.map_singleton]

/-- `mark_published` of a dispatch its owner still holds. -/
theorem Consistent.publishDispatch {s : Store} (h : Consistent s) {owner : Uuid}
    {record : OutboxRecord} (streamSequence : ℕ) (now : Instant)
    {o : OutboxRow} (ho : o ∈ s.outbox) (howned : ownedDispatch owner record o = true)
    (hattempt : record.attemptId = o.attemptId) :
    Consistent (publishDispatch owner record streamSequence now s) ∧
      ∃ r past newest, Holds s r past newest ∧ newest.outbox = o ∧
        newest.attempt.status = .pendingDispatch ∧ r.status = .pendingDispatch ∧
        r.id = record.runId := by
  have hwrites := Writes.of_execution (publishDispatch_writes owner record streamSequence now s)
  have hk := hwrites.keysUnique h.keys
  simp only [ownedDispatch, Bool.and_eq_true, decide_eq_true_eq,
    Option.isNone_iff_eq_none] at howned
  obtain ⟨⟨⟨hid, hrun⟩, hclaimed⟩, hunpublished⟩ := howned
  obtain ⟨r₀, past₀, newest₀, d, hholds₀, _, hd, rfl⟩ := h.of_outbox ho
  have hunsettled := (hholds₀.live.linked d hd).claimed (by simp [hclaimed])
  obtain ⟨r, past, newest, hholds, hnewest, hpending, hstatus⟩ := h.of_unsettled ho hunsettled
  have hlinked := hholds.live.newest_linked
  have hrunId : r.id = record.runId := by rw [← hrun, ← hnewest, hlinked.outbox_run]
  have hattemptId : newest.attempt.id = record.attemptId := by
    rw [hattempt, ← hnewest, hlinked.outbox_attempt]
  refine ⟨?_, r, past, newest, hholds, hnewest, hpending, hstatus, hrunId⟩
  have howner : ownedDispatch owner record newest.outbox = true := by
    rw [hnewest]
    simp [ownedDispatch, hid, hrun, hclaimed, hunpublished]
  obtain ⟨hcell, hframe⟩ := hholds.settle h (p := ownedDispatch owner record)
    (f := publishedDispatch streamSequence now) (fun _ => rfl) howner
    (fun o' ho' => by
      simp only [ownedDispatch, Bool.and_eq_true, decide_eq_true_eq] at ho'
      rw [hnewest, hid, ho'.1.1.1])
    (fun o' _ hnone => by simp [ownedDispatch, hnone])
  refine h.advance hk hholds (focused_status (queuedRow now) queuedAttempt hstatus hpending rfl
    (fun _ => rfl) (fun _ => rfl)) ?_ ?_ hcell hframe ?_ rfl
  · rw [hrunId]; rfl
  · rw [hattemptId]; rfl
  · refine hholds.live.advance rfl rfl ?_ rfl
    exact { hlinked with
      unsettled := by simp [OutboxRow.unsettled, publishedDispatch, queuedAttempt]
      claimed := fun hc => by simp [publishedDispatch] at hc
      unclaimed := fun _ => hlinked.unclaimed (by simp [hpending, AttemptStatus.rank]) }

theorem execution_of_queueId {column : SnapshotColumn} {queueId : Uuid}
    (h : column.queueId = some queueId) : ∃ snapshot, column = .execution snapshot := by
  cases column with
  | execution snapshot => exact ⟨snapshot, rfl⟩
  | renderError => cases h

theorem grantable_iff {request : ClaimRequest} {s : Store} {a : AttemptRow} :
    grantable request s a = true ↔ a.id = request.attemptId ∧ a.runId = request.runId ∧
      a.status = .queued ∧ ∃ r ∈ s.runs, r.id = a.runId ∧ r.queueId = request.queueId := by
  simp [grantable, and_assoc]

/-- In a consistent store a claim is refused without a trace, or granted with the snapshot of
a queued Run; it never finds the Attempt without its Run. -/
theorem Consistent.claimAttempt_spec {s : Store} (h : Consistent s) (request : ClaimRequest)
    (now : Instant) :
    (s.runAttempts.find? (grantable request s) = none ∧
      claimAttempt request now s = (.ok notClaimed, s)) ∨
    ∃ r past newest snapshot, Holds s r past newest ∧
      s.runAttempts.find? (grantable request s) = some newest.attempt ∧
      grantable request s newest.attempt = true ∧ r.status = .queued ∧
      r.executionSnapshot = .execution snapshot ∧
      claimAttempt request now s = (.ok ⟨true, 60, some snapshot⟩,
        startRun r.id now (grantAttempt request now s)) := by
  unfold claimAttempt
  rcases hfind : s.runAttempts.find? (grantable request s) with _ | a
  · exact .inl ⟨rfl, rfl⟩
  · have hgrant := List.find?_some hfind
    have hqueued := (grantable_iff.mp hgrant).2.2.1
    obtain ⟨r, past, newest, hholds, rfl, hid, hstatus⟩ :=
      h.of_queued (List.mem_of_find?_eq_some hfind) hqueued
    obtain ⟨snapshot, hsnapshot⟩ := execution_of_queueId hholds.live.queue
    refine .inr ⟨r, past, newest, snapshot, hholds, rfl, hgrant, hstatus, hsnapshot, ?_⟩
    rcases hrun : s.runs.find? (queuedRun newest.attempt.runId) with _ | r'
    · have hnone := List.find?_eq_none.mp hrun r hholds.run_mem
      simp [queuedRun, hid, hstatus] at hnone
    · have hr' := List.find?_some hrun
      simp only [queuedRun, Bool.and_eq_true, decide_eq_true_eq] at hr'
      have hsame : r' = r := row_unique h.keys.runs (List.mem_of_find?_eq_some hrun)
        hholds.run_mem (by rw [hr'.1, hid])
      subst hsame
      simp only [hrun, hsnapshot, hid]

theorem Consistent.claimAttempt {s : Store} (h : Consistent s) (request : ClaimRequest)
    (now : Instant) : Consistent (claimAttempt request now s).2 := by
  have hk := (Writes.of_execution (claimAttempt_writes request now s)).keysUnique h.keys
  rcases h.claimAttempt_spec request now with ⟨_, hclaim⟩ |
    ⟨r, past, newest, snapshot, hholds, _, hgrant, hstatus, _, hclaim⟩
  · rw [hclaim]
    exact h
  · rw [hclaim] at hk ⊢
    have hlinked := hholds.live.newest_linked
    obtain ⟨hid, _, hqueued, _⟩ := grantable_iff.mp hgrant
    have hfocus : Focused r newest.attempt (queuedRun r.id) (startedRow now) (grantable request s)
        (grantedAttempt request now) :=
      { run := by simp [queuedRun, hstatus]
        run_only := fun r' hp => by
          simp only [queuedRun, Bool.and_eq_true, decide_eq_true_eq] at hp
          exact hp.1
        run_id := fun _ => rfl
        attempt := hgrant
        attempt_only := fun b hb => by rw [(grantable_iff.mp hb).1, hid]
        attempt_open := fun b hb => by
          by_contra hp
          have hs := (grantable_iff.mp (by simpa using hp)).2.2.1
          simp [hs] at hb
        attempt_run := fun _ => rfl }
    refine h.advance hk hholds hfocus rfl rfl hholds.outbox_kept (fun _ _ => rfl) ?_ rfl
    refine hholds.live.advance rfl rfl ?_ rfl
    exact { hlinked with
      unsettled := by rw [hlinked.unsettled, hqueued]; simp [grantedAttempt]
      unclaimed := fun hidle => by simp [grantedAttempt, AttemptStatus.rank] at hidle }

theorem attemptStatus_ne_dead (request : CompletionRequest) :
    CompletionRequest.attemptStatus request ≠ .dead := by
  unfold CompletionRequest.attemptStatus
  split
  · exact nofun
  split <;> exact nofun

theorem agrees_completion {request : CompletionRequest} {r r' : RunRow}
    (hstatus : r'.status = completionStatus request r)
    (hsnapshot : r'.executionSnapshot = r.executionSnapshot)
    (hcount : r'.attemptCount = r.attemptCount) (hmax : r'.maxAttempts = r.maxAttempts)
    (hreason : request.skipped = true → r'.terminalReason = some "dry run") :
    Agrees r' (CompletionRequest.attemptStatus request) := by
  unfold Agrees
  rw [hstatus, hsnapshot, hcount, hmax]
  unfold completionStatus CompletionRequest.attemptStatus
  by_cases hskipped : request.skipped = true
  · simp [hskipped, hreason hskipped, AttemptStatus.isTerminal, misfireDeadlineExpired]
  by_cases hsucceeded : request.succeeded = true
  · simp [hskipped, hsucceeded, AttemptStatus.isTerminal]
  by_cases hretry : shouldRetry request r = true
  · have hcolumns := hretry
    simp only [shouldRetry, Bool.and_eq_true, decide_eq_true_eq] at hcolumns
    simp [hskipped, hsucceeded, hretry, hcolumns.1.2, hcolumns.2]
  · simp [hskipped, hsucceeded, hretry, AttemptStatus.isTerminal]

theorem Consistent.completeAttempt_spec {s : Store} (h : Consistent s)
    (request : CompletionRequest) (retryAt now : Instant) :
    (completeAttempt request retryAt now s = (.error .internal, s)) ∨
    (s.runAttempts.find? (leased request.attemptId request.workerId now) = none ∧
      completeAttempt request retryAt now s = (.ok false, s)) ∨
    ∃ r past newest, Holds s r past newest ∧
      leased request.attemptId request.workerId now newest.attempt = true ∧
      r.status = .running ∧
      completeAttempt request retryAt now s = (.ok true,
        completeRun request r retryAt now (completeLease request now s)) := by
  unfold completeAttempt
  split
  · exact .inl rfl
  rcases hfind : s.runAttempts.find? (leased request.attemptId request.workerId now) with _ | a
  · exact .inr (.inl ⟨rfl, rfl⟩)
  · have hleased := List.find?_some hfind
    obtain ⟨r, past, newest, hholds, rfl, hid, hstatus⟩ :=
      h.of_running (List.mem_of_find?_eq_some hfind) (leased_iff.mp hleased).2.2.1
    obtain ⟨snapshot, hsnapshot⟩ := execution_of_queueId hholds.live.queue
    refine .inr (.inr ⟨r, past, newest, hholds, hleased, hstatus, ?_⟩)
    rcases hrun : s.runs.find? (fun r => r.id = newest.attempt.runId) with _ | r'
    · have hnone := List.find?_eq_none.mp hrun r hholds.run_mem
      simp [hid] at hnone
    · have hr' := List.find?_some hrun
      rw [decide_eq_true_eq] at hr'
      have hsame : r' = r := row_unique h.keys.runs (List.mem_of_find?_eq_some hrun)
        hholds.run_mem (by rw [hr', hid])
      subst hsame
      simp only [hrun, hsnapshot]

theorem Consistent.completeAttempt {s : Store} (h : Consistent s) (request : CompletionRequest)
    (retryAt now : Instant) : Consistent (completeAttempt request retryAt now s).2 := by
  have hk := (Writes.of_execution (completeAttempt_writes request retryAt now s)).keysUnique h.keys
  rcases h.completeAttempt_spec request retryAt now with hc | ⟨_, hc⟩ |
    ⟨r, past, newest, hholds, hleased, hstatus, hc⟩
  · rw [hc]
    exact h
  · rw [hc]
    exact h
  · rw [hc] at hk ⊢
    have hlinked := hholds.live.newest_linked
    obtain ⟨hid, _, hrunning, _⟩ := leased_iff.mp hleased
    have hfocus : Focused r newest.attempt (fun r' => r'.id = r.id && r'.status = .running)
        (completedRow request r retryAt now) (leased request.attemptId request.workerId now)
        (completedAttempt request now) :=
      { run := by simp [hstatus]
        run_only := fun r' hp => by
          simp only [Bool.and_eq_true, decide_eq_true_eq] at hp
          exact hp.1
        run_id := fun _ => rfl
        attempt := hleased
        attempt_only := fun b hb => by rw [(leased_iff.mp hb).1, hid]
        attempt_open := fun b hb => by
          by_contra hp
          have hs := (leased_iff.mp (by simpa using hp)).2.2.1
          simp [hs] at hb
        attempt_run := fun _ => rfl }
    refine h.advance hk hholds hfocus rfl rfl hholds.outbox_kept (fun _ _ => rfl) ?_ rfl
    refine hholds.live.advance rfl rfl ?_ (agrees_completion rfl rfl rfl rfl
      fun hskipped => by simp [completedRow, hskipped])
    have hsettled : ¬ newest.outbox.unsettled = true := by
      rw [hlinked.unsettled, hrunning]
      simp
    have hended : AttemptStatus.rank (CompletionRequest.attemptStatus request) = 3 ∧
        CompletionRequest.attemptStatus request ≠ .dead :=
      ⟨rank_attemptStatus request, attemptStatus_ne_dead request⟩
    refine { hlinked with unsettled := iff_of_false hsettled ?_, unclaimed := ?_ }
    · intro hpending
      have hrank := hended.1
      rw [show CompletionRequest.attemptStatus request = .pendingDispatch from hpending] at hrank
      cases hrank
    · intro hidle
      simp [completedAttempt, hended] at hidle

end RunLifecycle
