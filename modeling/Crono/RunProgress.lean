import Mathlib.Data.Fintype.EquivFin
import Crono.RepairPasses
import Crono.TerminalRuns

/-! Progress of Runs. A Run has a rank, from its spent retries and how far its newest Attempt
got; no command raises it and every change of status lowers it. From every reachable state
dispatchers, workers and repair passes can still bring every Run to its end. -/
namespace RunProgress

open RunDomain WorkflowDomain SqlTable ControlPlaneSchema RunStore WorkflowStore
open ControlPlane StoreWrites RunLifecycle RunCoupling RunTimeline StampedRows RepairPasses
open TerminalRuns TransitionSystem

/-- How many statuses a Run may still pass through before it ends or is dispatched again. -/
def stagesLeft : RunStatus → ℕ
  | .pendingDispatch => 4
  | .queued => 3
  | .running => 2
  | .retryWait => 1
  | .succeeded | .failed | .dead | .skipped | .cancelled | .unknown => 0

def stepsLeft (r : RunRow) : ℕ :=
  if r.status.isTerminal then 0 else 4 * (r.maxAttempts - r.attemptCount) + stagesLeft r.status

def statusOf (x : Uuid) (s : State) : List RunStatus := (runsOf s.store x).map RunRow.status

def stepsLeftOf (x : Uuid) (s : State) : ℕ := ((runsOf s.store x).map stepsLeft).sum

theorem stagesLeft_pos {status : RunStatus} (h : status.isTerminal = false) :
    0 < stagesLeft status := by
  cases status <;> first | exact Nat.succ_pos _ | cases h

theorem stagesLeft_le (status : RunStatus) : stagesLeft status ≤ 4 := by
  cases status <;> decide

theorem stagesLeft_injective {status status' : RunStatus} (h : status.isTerminal = false)
    (h' : status'.isTerminal = false) (heq : stagesLeft status' = stagesLeft status) :
    status' = status := by
  cases status <;> cases status' <;> simp_all [stagesLeft, RunStatus.isTerminal]

theorem Live.stages {r : RunRow} {past : List Dispatch} {newest : Dispatch}
    (h : Live r past newest) (hopen : r.status.isTerminal = false) :
    stagesLeft r.status + AttemptStatus.rank newest.attempt.status = 4 := by
  have hagrees := h.agrees
  unfold Agrees at hagrees
  split at hagrees
  case h_4 hstatus =>
    rw [hstatus, hagrees.1]
    rfl
  case h_1 hstatus | h_2 hstatus | h_3 hstatus =>
    rw [hstatus, hagrees]
    rfl
  all_goals
    rename_i hstatus
    rw [hstatus] at hopen
    cases hopen

theorem Live.numbers {r : RunRow} {past : List Dispatch} {newest d : Dispatch}
    (h : Live r past newest) (hd : d ∈ past ++ [newest]) :
    d.attempt.attempt ≤ r.attemptCount ∧ (d.attempt.attempt = r.attemptCount → d = newest) := by
  constructor
  · have hmem : d.attempt.attempt ∈ List.range' 1 r.attemptCount := by
      rw [← h.numbered]
      exact List.mem_map_of_mem hd
    rw [List.mem_range'_1] at hmem
    omega
  · intro heq
    rcases List.mem_append.mp hd with hd | hd
    · exact absurd heq (h.number_cases.2 d hd)
    · exact List.mem_singleton.mp hd

theorem Consistent.of_open {s : Store} (h : Consistent s) {r : RunRow}
    (hr : r ∈ s.runs) (hopen : r.status.isTerminal = false) :
    ∃ past newest, Holds s r past newest := by
  rcases h.run_cases hr with ⟨_, _, _, hterminal⟩ | hholds
  · rw [hopen] at hterminal
    cases hterminal
  · exact hholds

structure Advances (r r' : RunRow) : Prop where
  falls : stepsLeft r' ≤ stepsLeft r
  moves : r'.status ≠ r.status → stepsLeft r' < stepsLeft r

theorem Advances.of_terminal {r r' : RunRow} (hopen : r.status.isTerminal = false)
    (hended : r'.status.isTerminal = true) : Advances r r' := by
  have hpos : stepsLeft r' < stepsLeft r := by
    have hstages := stagesLeft_pos hopen
    rw [stepsLeft, stepsLeft, if_pos hended, hopen, if_neg Bool.false_ne_true]
    omega
  exact ⟨hpos.le, fun _ => hpos⟩

theorem Advances.of_open {r r' : RunRow} (hopen : r.status.isTerminal = false)
    (hopen' : r'.status.isTerminal = false) (hmax : r'.maxAttempts = r.maxAttempts)
    (hbounded : r'.attemptCount ≤ r'.maxAttempts) (hcount : r.attemptCount ≤ r'.attemptCount)
    (hstages : r'.attemptCount = r.attemptCount → stagesLeft r'.status ≤ stagesLeft r.status) :
    Advances r r' := by
  have hpos := stagesLeft_pos hopen
  have hfour := stagesLeft_le r'.status
  have hsteps : stepsLeft r = 4 * (r.maxAttempts - r.attemptCount) + stagesLeft r.status := by
    rw [stepsLeft, hopen, if_neg Bool.false_ne_true]
  have hsteps' : stepsLeft r' = 4 * (r'.maxAttempts - r'.attemptCount) + stagesLeft r'.status := by
    rw [stepsLeft, hopen', if_neg Bool.false_ne_true]
  by_cases hsame : r'.attemptCount = r.attemptCount
  · have hle := hstages hsame
    refine ⟨by omega, fun hmoved => ?_⟩
    have hne : stagesLeft r'.status ≠ stagesLeft r.status := fun heq =>
      hmoved (stagesLeft_injective hopen hopen' heq)
    omega
  · have hlt : stepsLeft r' < stepsLeft r := by omega
    exact ⟨hlt.le, fun _ => hlt⟩

theorem run_advances {s t : State} (hs : Reachable s) (h : Execution s t) {r : RunRow}
    (hr : r ∈ s.store.runs) :
    ∃ r', runsOf t.store r.id = [r'] ∧ RunEvolves r r' ∧ Advances r r' := by
  have hbefore := (reachable_invariant hs).consistent
  have hafter := (reachable_invariant (hs.execution h)).consistent
  obtain ⟨r', hrow, hevolves⟩ := run_kept hs h hr
  refine ⟨r', hrow, hevolves, ?_⟩
  by_cases hended : r.status.isTerminal = true
  · rw [hevolves.settled hended]
    exact ⟨le_rfl, fun hmoved => absurd rfl hmoved⟩
  rw [Bool.not_eq_true] at hended
  by_cases hended' : r'.status.isTerminal = true
  · exact .of_terminal hended hended'
  rw [Bool.not_eq_true] at hended'
  obtain ⟨past, newest, hholds⟩ := Consistent.of_open hbefore hr hended
  have hr' : r' ∈ t.store.runs := by
    have hmem : r' ∈ runsOf t.store r.id := by
      rw [hrow]
      exact List.mem_singleton_self r'
    exact (mem_runsOf.mp hmem).1
  obtain ⟨past', newest', hholds'⟩ := Consistent.of_open hafter hr' hended'
  -- the newest Attempt of before is still there, under its number
  have hmem := hholds.attempt_mem (List.mem_append_right past (List.mem_singleton_self newest))
  obtain ⟨a, ha, hmoved⟩ := (execution_evolves hs h).attempts.of_mem hmem
  have hid : r'.id = r.id := by rw [hevolves.columns]
  have harun : a.runId = r'.id := by
    rw [hmoved.run, hholds.live.newest_linked.attempt_run, hid]
  have hcell : a ∈ attemptsOf t.store r'.id := mem_attemptsOf.mpr ⟨ha, harun⟩
  rw [hholds'.attempts] at hcell
  obtain ⟨d, hd, rfl⟩ := List.mem_map.mp hcell
  have hnumber : d.attempt.attempt = r.attemptCount :=
    hmoved.number.trans hholds.live.number_cases.1
  obtain ⟨hcount, hnewest⟩ := Live.numbers hholds'.live hd
  rw [hnumber] at hcount
  refine .of_open hended hended' (by rw [hevolves.columns]) hholds'.live.bounded hcount ?_
  intro hsame
  have hd' : d = newest' := hnewest (hnumber.trans hsame.symm)
  have hbeforeStages := Live.stages hholds.live hended
  have hafterStages := Live.stages hholds'.live hended'
  have hprogress := hmoved.progress
  rw [hd'] at hprogress
  omega

theorem statusOf_run {s : State} {r : RunRow} {x : Uuid} (h : runsOf s.store x = [r]) :
    statusOf x s = [r.status] ∧ stepsLeftOf x s = stepsLeft r := by
  simp [statusOf, stepsLeftOf, h]

theorem stepsLeft_le {s : State} (hs : Reachable s) {r : RunRow} (hr : r ∈ s.store.runs) :
    stepsLeft r ≤ 4 * r.maxAttempts := by
  by_cases hended : r.status.isTerminal = true
  · rw [stepsLeft, if_pos hended]
    exact Nat.zero_le _
  rw [Bool.not_eq_true] at hended
  obtain ⟨past, newest, hholds⟩ := Consistent.of_open (reachable_invariant hs).consistent hr hended
  have hlength := congrArg List.length hholds.live.numbered
  have hbounded := hholds.live.bounded
  have hstages := stagesLeft_le r.status
  rw [List.length_map, List.length_append, List.length_singleton, List.length_range'] at hlength
  rw [stepsLeft, hended, if_neg Bool.false_ne_true]
  omega

/-- However the commands of servers, dispatchers, workers and repair passes interleave, a Run
that may be attempted `n` times changes its status at most `4 * n` times, and by then it has
ended. -/
theorem status_changes_bounded {s : State} (hs : Reachable s) {r : RunRow} (hr : r ∈ s.store.runs)
    {events : List Command} (h : system.Admits s events) :
    ∃ r', runsOf (system.run s events).store r.id = [r'] ∧
      system.changes (statusOf r.id) s events + stepsLeft r' ≤ 4 * r.maxAttempts ∧
      (stepsLeft r' = 0 ↔ r'.status.isTerminal = true) := by
  have hcell := runsOf_eq (reachable_invariant hs).consistent hr
  have hrank : system.changes (statusOf r.id) s events +
      stepsLeftOf r.id (system.run s events) ≤ stepsLeftOf r.id s := by
    refine Admits.changes_le (fun t e u ht hu => ?_) h
    obtain ⟨r₁, hr₁, hevolves₁, _⟩ := run_advances hs ht hr
    have hmem : r₁ ∈ t.store.runs := by
      have hrow : r₁ ∈ runsOf t.store r.id := by
        rw [hr₁]
        exact List.mem_singleton_self r₁
      exact (mem_runsOf.mp hrow).1
    obtain ⟨r₂, hr₂, _, hadvances⟩ := run_advances (hs.execution ht) (.single hu) hmem
    have hid : r₁.id = r.id := by rw [hevolves₁.columns]
    rw [hid] at hr₂
    obtain ⟨hstatus₁, hsteps₁⟩ := statusOf_run hr₁
    obtain ⟨hstatus₂, hsteps₂⟩ := statusOf_run hr₂
    rw [hstatus₁, hstatus₂, hsteps₁, hsteps₂]
    by_cases hsame : r₂.status = r₁.status
    · exact .inl ⟨by rw [hsame], hadvances.falls⟩
    · exact .inr (hadvances.moves hsame)
  obtain ⟨r', hrow, _, _⟩ := run_advances hs (.of_admits h) hr
  refine ⟨r', hrow, ?_, ?_⟩
  · rw [(statusOf_run hrow).2, (statusOf_run hcell).2] at hrank
    exact hrank.trans (stepsLeft_le hs hr)
  · by_cases hended : r'.status.isTerminal = true
    · simp [stepsLeft, hended]
    · rw [Bool.not_eq_true] at hended
      have hpos := stagesLeft_pos hended
      rw [stepsLeft, hended, if_neg Bool.false_ne_true]
      simp only [Bool.false_eq_true, iff_false]
      omega

theorem status_changes_bounded_demo :
    system.changes (statusOf 6) (system.run demoInitial [demoCreate]) demoClaimed.tail = 2 ∧
      ∃ r', runsOf (system.run (system.run demoInitial [demoCreate]) demoClaimed.tail).store 6 =
          [r'] ∧
        2 + stepsLeft r' ≤ 4 * 2 ∧ (stepsLeft r' = 0 ↔ r'.status.isTerminal = true) := by
  have hchanges : system.changes (statusOf 6) (system.run demoInitial [demoCreate])
      demoClaimed.tail = 2 := by decide +kernel
  have hrun : ∃ r ∈ (system.run demoInitial [demoCreate]).store.runs,
      r.id = 6 ∧ r.maxAttempts = 2 := by decide +kernel
  have hadmitted : system.Admits demoInitial ([demoCreate] ++ demoClaimed.tail) :=
    demoClaimed_admitted
  obtain ⟨hfirst, hrest⟩ := admits_append.mp hadmitted
  obtain ⟨r, hr, hid, hmax⟩ := hrun
  have hbound := status_changes_bounded (demo_reachable hfirst) hr hrest
  rw [hid, hmax, hchanges] at hbound
  exact ⟨hchanges, hbound⟩

/-- A command of a dispatcher, a worker or a repair pass at the instant `now`. -/
def ClockedAt (now : Instant) : Command → Prop
  | .claimOutbox _ _ _ _ instant | .markPublished _ _ _ instant | .claimAttempt _ instant
  | .completeAttempt _ _ instant => instant = now
  | .reconcile pass => pass.dispatchesAt = now ∧ pass.retriesAt = now ∧ pass.leasesAt = now ∧
      pass.releasesAt = now
  | _ => False

/-- Such commands can bring about `P`. -/
def Reaches (s : State) (now : Instant) (P : State → Prop) : Prop :=
  ∃ events, (∀ c ∈ events, ClockedAt now c) ∧ system.Admits s events ∧ P (system.run s events)

theorem Reaches.of_run {s : State} {now : Instant} {P : State → Prop} (events : List Command)
    (hclock : ∀ c ∈ events, ClockedAt now c) (hadmits : system.Admits s events)
    (h : P (system.run s events)) : Reaches s now P := ⟨events, hclock, hadmits, h⟩

theorem Reaches.bind {s : State} {now : Instant} {P Q : State → Prop} (h : Reaches s now P)
    (k : ∀ t, Execution s t → P t → Reaches t now Q) : Reaches s now Q := by
  obtain ⟨first, hclock, hadmits, hP⟩ := h
  obtain ⟨rest, hclock', hadmits', hQ⟩ := k _ (.of_admits hadmits) hP
  refine ⟨first ++ rest, fun c hc => ?_, admits_append.mpr ⟨hadmits, hadmits'⟩, ?_⟩
  · rcases List.mem_append.mp hc with hc | hc
    · exact hclock c hc
    · exact hclock' c hc
  · have hrun : system.run s (first ++ rest) = system.run (system.run s first) rest :=
      List.foldl_append
    rw [hrun]
    exact hQ

def RunIs (x : Uuid) (p : RunStatus → Prop) (t : State) : Prop :=
  ∃ r ∈ t.store.runs, r.id = x ∧ p r.status

def others (o o' : OutboxRow) : Bool := o'.id ≠ o.id

theorem claimOutbox_row {s : Store} (hk : KeysUnique s) {o : OutboxRow} {now : Instant}
    (ho : o ∈ s.outbox) (hdue : claimable now o = true) :
    (claimOutbox 0 1 30 (others o) now s).1 = [outboxRecord o] ∧
      ∃ o' ∈ (claimOutbox 0 1 30 (others o) now s).2.outbox,
        ownedDispatch 0 (outboxRecord o) o' = true := by
  have hbatch : selectBatch (claimable now) (others o) outboxOrder 1 s.outbox = [o] := by
    refine selectBatch_row (List.Nodup.of_map _ hk.outbox) ho hdue fun o' ho' => ?_
    rw [others, decide_eq_false_iff_not, not_not]
    exact ⟨row_unique hk.outbox ho' ho, fun hsame => by rw [hsame]⟩
  simp only [claimOutbox, hbatch]
  refine ⟨rfl, _, mem_update.mpr ⟨o, ho, rfl⟩, ?_⟩
  simp only [claimable, OutboxRow.unsettled, Bool.and_eq_true] at hdue
  simp [ownedDispatch, outboxRecord, hdue.1.1.1.1]

/-- A dispatcher that finds a due dispatch publishes it. -/
theorem publish_reaches {s : State} (hs : Reachable s) {o : OutboxRow} {now : Instant}
    (ho : o ∈ s.store.outbox) (hdue : claimable now o = true) :
    Reaches s now (RunIs o.runId (· = .queued)) := by
  have hbefore := (reachable_invariant hs).consistent
  obtain ⟨hrecords, o', ho', howned⟩ := claimOutbox_row hbefore.keys ho hdue
  have hunsettled : o.unsettled = true := by
    simp only [claimable, Bool.and_eq_true] at hdue
    exact hdue.1.1.1
  obtain ⟨r, past, newest, hholds, hnewest, _, hpending⟩ := hbefore.of_unsettled ho hunsettled
  have hid : r.id = o.runId := by
    rw [← hnewest, hholds.live.newest_linked.outbox_run]
  obtain ⟨t, ht⟩ : ∃ t, t = next s (.claimOutbox 0 1 30 (others o) now) := ⟨_, rfl⟩
  have hstore : t.store = (claimOutbox 0 1 30 (others o) now s.store).2 := by rw [ht]; rfl
  have hreached : Reachable t := hs.tail (e := .claimOutbox 0 1 30 (others o) now) ⟨trivial, ht⟩
  have hafter := (reachable_invariant hreached).consistent
  have hissued : (0, outboxRecord o) ∈ t.issued := by
    rw [ht]
    refine List.mem_append_right _ ?_
    rw [issuedBy, hrecords]
    exact List.mem_singleton_self _
  rw [← hstore] at ho'
  have hr : r ∈ t.store.runs := by
    rw [hstore]
    exact hholds.run_mem
  have hcount : t.store.outbox.countP (ownedDispatch 0 (outboxRecord o)) = 1 := by
    refine countP_row (List.Nodup.of_map _ hafter.keys.outbox) ho' fun o₁ ho₁ => ⟨?_, ?_⟩
    · intro howned₁
      simp only [ownedDispatch, Bool.and_eq_true, decide_eq_true_eq] at howned₁ howned
      exact row_unique hafter.keys.outbox ho₁ ho' (howned₁.1.1.1.trans howned.1.1.1.symm)
    · rintro rfl
      exact howned
  have hpublished : markPublished 0 (outboxRecord o) 1 now t.store =
      (.ok (), publishDispatch 0 (outboxRecord o) 1 now t.store) := by
    rw [markPublished, if_neg (by decide), if_neg (not_not.mpr hcount)]
  refine .of_run [.claimOutbox 0 1 30 (others o) now, .markPublished 0 (outboxRecord o) 1 now]
    ?_ ?_ ?_
  · intro c hc
    rcases List.mem_cons.mp hc with rfl | hc
    · rfl
    · rw [List.mem_singleton.mp hc]
      rfl
  · rw [ht] at hissued
    exact ⟨trivial, hissued, trivial⟩
  · refine ⟨queuedRow now r, ?_, hid, rfl⟩
    have hrun : (system.run s [.claimOutbox 0 1 30 (others o) now,
        .markPublished 0 (outboxRecord o) 1 now]).store =
        publishDispatch 0 (outboxRecord o) 1 now t.store := by
      change (markPublished 0 (outboxRecord o) 1 now
        (next s (.claimOutbox 0 1 30 (others o) now)).store).2 = _
      rw [← ht, hpublished]
    rw [hrun]
    refine mem_update.mpr ⟨r, hr, ?_⟩
    simp [outboxRecord, hid, hpending]

/-- A worker that asks for a queued Run is granted it. -/
theorem grant_reaches {s : State} (hs : Reachable s) {r : RunRow} (hr : r ∈ s.store.runs)
    (hqueued : r.status = .queued) (workerId : String) (now : Instant) :
    Reaches s now fun t => ∃ a ∈ t.store.runAttempts, a.runId = r.id ∧
      leased a.id workerId now a = true := by
  have h := (reachable_invariant hs).consistent
  obtain ⟨past, newest, hholds⟩ := Consistent.of_open h hr (by rw [hqueued]; rfl)
  have hagrees := hholds.live.agrees
  simp only [Agrees, hqueued] at hagrees
  have hlinked := hholds.live.newest_linked
  have hmem := hholds.attempt_mem (List.mem_append_right past (List.mem_singleton_self newest))
  obtain ⟨request, hrequest⟩ : ∃ request : ClaimRequest,
      request = ⟨r.id, newest.attempt.id, r.queueId, workerId⟩ := ⟨_, rfl⟩
  have hgrant : grantable request s.store newest.attempt = true := by
    rw [grantable_iff, hrequest]
    exact ⟨rfl, hlinked.attempt_run, hagrees, r, hr, hlinked.attempt_run.symm, rfl⟩
  refine .of_run [.claimAttempt request now] (fun c hc => ?_) ⟨trivial, trivial⟩ ?_
  · rw [List.mem_singleton.mp hc]
    rfl
  change ∃ a ∈ (claimAttempt request now s.store).2.runAttempts, _
  rcases h.claimAttempt_spec request now with ⟨hnone, _⟩ |
    ⟨_, _, _, snapshot, _, _, _, _, _, hclaim⟩
  · exact absurd hgrant (by simpa using List.find?_eq_none.mp hnone _ hmem)
  · rw [hclaim]
    refine ⟨grantedAttempt request now newest.attempt, ?_, hlinked.attempt_run, ?_⟩
    · refine mem_update.mpr ⟨newest.attempt, hmem, ?_⟩
      rw [if_pos hgrant]
    · rw [leased_iff]
      refine ⟨rfl, by rw [hrequest]; rfl, rfl, now + seconds 60, rfl, ?_⟩
      simp [seconds]

def success (attemptId : Uuid) (workerId : String) : CompletionRequest :=
  ⟨attemptId, workerId, true, false, some 0, "", "", none⟩

theorem completeAttempt_success {s : Store} (h : Consistent s) {a : AttemptRow}
    {workerId : String} {now : Instant} (ha : a ∈ s.runAttempts)
    (hleased : leased a.id workerId now a = true) (retryAt : Instant) :
    ∃ r ∈ s.runs, r.id = a.runId ∧ r.status = .running ∧
      completeAttempt (success a.id workerId) retryAt now s = (.ok true,
        completeRun (success a.id workerId) r retryAt now
          (completeLease (success a.id workerId) now s)) := by
  obtain ⟨r, past, newest, hholds, rfl, hid, hstatus⟩ :=
    h.of_running ha (leased_iff.mp hleased).2.2.1
  obtain ⟨snapshot, hsnapshot⟩ := execution_of_queueId hholds.live.queue
  have hfind : s.runAttempts.find? (leased newest.attempt.id workerId now) =
      some newest.attempt := by
    refine find?_row ha fun b hb => ⟨fun hb' => ?_, ?_⟩
    · exact row_unique h.keys.attempts hb ha (leased_iff.mp hb').1
    · rintro rfl
      exact hleased
  have hrun : s.runs.find? (fun r' => decide (r'.id = newest.attempt.runId)) = some r := by
    rw [← hid]
    exact find?_key h.keys.runs hholds.run_mem
  refine ⟨r, hholds.run_mem, hid, hstatus, ?_⟩
  simp only [completeAttempt, success, Bool.false_and, Bool.false_eq_true, if_false, hfind, hrun,
    hsnapshot]

theorem complete_reaches {s : State} (hs : Reachable s) {a : AttemptRow} {workerId : String}
    {now : Instant} (ha : a ∈ s.store.runAttempts) (hleased : leased a.id workerId now a = true) :
    Reaches s now (RunIs a.runId fun status => status.isTerminal = true) := by
  obtain ⟨r, hr, hid, hrunning, hcomplete⟩ :=
    completeAttempt_success (reachable_invariant hs).consistent ha hleased now
  refine .of_run [.completeAttempt (success a.id workerId) now now] (fun c hc => ?_)
    ⟨trivial, trivial⟩ ?_
  · rw [List.mem_singleton.mp hc]
    rfl
  change ∃ r' ∈ (completeAttempt (success a.id workerId) now now s.store).2.runs, _
  rw [hcomplete]
  refine ⟨completedRow (success a.id workerId) r now now r, ?_, hid, rfl⟩
  refine mem_update.mpr ⟨r, hr, ?_⟩
  simp [hrunning]

theorem due_reaches_end {s : State} (hs : Reachable s) {o : OutboxRow} {now : Instant}
    (ho : o ∈ s.store.outbox) (hdue : claimable now o = true) :
    Reaches s now (RunIs o.runId fun status => status.isTerminal = true) := by
  refine (publish_reaches hs ho hdue).bind fun t ht ⟨r, hr, hid, hqueued⟩ => ?_
  rw [← hid]
  have hgrant := grant_reaches (hs.execution ht) hr hqueued "worker" now
  refine hgrant.bind fun u hu ⟨a, ha, hrun, hleased⟩ => ?_
  rw [← hrun]
  exact complete_reaches ((hs.execution ht).execution hu) ha hleased

def passFor (o : OutboxRow) (a : AttemptRow) (r : RunRow) (n m : Uuid) (now : Instant) :
    RepairPass where
  limit := 1
  lockedOutbox := others o
  lockedRuns := fun r' => r'.id ≠ r.id
  lockedLeases := fun row => row.1.id ≠ a.id
  freshRetries := fun _ => ⟨n, n⟩
  freshLeases := fun _ => ⟨m, m⟩
  dispatchesAt := now
  retriesAt := now
  leasesAt := now
  releasesAt := now

theorem exists_fresh (s : Store) : ∃ n m : Uuid, n ≠ m ∧
    (∀ a ∈ s.runAttempts, a.id ≠ n ∧ a.id ≠ m) ∧ ∀ o ∈ s.outbox, o.id ≠ n ∧ o.id ≠ m := by
  obtain ⟨ids, hids⟩ : ∃ ids : List Uuid,
      ids = s.runAttempts.map AttemptRow.id ++ s.outbox.map OutboxRow.id := ⟨_, rfl⟩
  obtain ⟨n, hn⟩ := Infinite.exists_notMem_finset ids.toFinset
  obtain ⟨m, hm⟩ := Infinite.exists_notMem_finset (n :: ids).toFinset
  rw [List.mem_toFinset] at hn hm
  rw [List.mem_cons, not_or] at hm
  have hattempts (a : AttemptRow) (ha : a ∈ s.runAttempts) : a.id ∈ ids := by
    rw [hids]
    exact List.mem_append_left _ (List.mem_map_of_mem ha)
  have hdispatches (o : OutboxRow) (ho : o ∈ s.outbox) : o.id ∈ ids := by
    rw [hids]
    exact List.mem_append_right _ (List.mem_map_of_mem ho)
  refine ⟨n, m, fun hsame => hm.1 hsame.symm, fun a ha => ?_, fun o ho => ?_⟩
  · exact ⟨fun hid => hn (hid ▸ hattempts a ha), fun hid => hm.2 (hid ▸ hattempts a ha)⟩
  · exact ⟨fun hid => hn (hid ▸ hdispatches o ho), fun hid => hm.2 (hid ▸ hdispatches o ho)⟩

theorem batch_length {α : Type} {p locked : α → Bool} {le : α → α → Prop} [DecidableRel le]
    (rows : List α) : (selectBatch p locked le 1 rows).length ≤ 1 := by
  rw [selectBatch, List.length_take]
  omega

theorem nodup_constant {α β : Type} {rows : List α} (h : rows.length ≤ 1) (f : α → β) :
    (rows.map f).Nodup := by
  rcases rows with _ | ⟨x, _ | ⟨y, rest⟩⟩
  · exact List.nodup_nil
  · exact List.nodup_singleton _
  · simp at h

theorem passFor_fresh {s : Store} (o : OutboxRow) (a : AttemptRow) (r : RunRow) {n m : Uuid}
    (now : Instant) (hne : n ≠ m) (hattempts : ∀ a ∈ s.runAttempts, a.id ≠ n ∧ a.id ≠ m)
    (hdispatches : ∀ o ∈ s.outbox, o.id ≠ n ∧ o.id ≠ m) : FreshPass (passFor o a r n m now) s := by
  refine ⟨⟨fun _ _ a ha => (hattempts a ha).1, fun _ _ o ho => (hdispatches o ho).1, ?_, ?_⟩,
    ⟨fun _ _ a ha => (hattempts a ha).2, fun _ _ o ho => (hdispatches o ho).2, ?_, ?_⟩,
    fun _ _ _ _ => ⟨hne, hne⟩⟩
  all_goals
    rw [List.map_map]
    exact nodup_constant (batch_length _) _

theorem pass_reaches {s : State} (hs : Reachable s) (o : OutboxRow) (a : AttemptRow) (r : RunRow)
    (now : Instant) {P : State → Prop}
    (h : ∀ n m t, Reachable t → Repaired (passFor o a r n m now) s.store t.store →
      Reaches t now P) : Reaches s now P := by
  obtain ⟨n, m, hne, hattempts, hdispatches⟩ := exists_fresh s.store
  have hfresh := passFor_fresh o a r now hne hattempts hdispatches
  have hrepaired := (reconcile_simultaneous hs hfresh).2
  have hpass : Reaches s now fun t => t = next s (.reconcile (passFor o a r n m now)) := by
    refine .of_run [.reconcile (passFor o a r n m now)] (fun c hc => ?_) ⟨trivial, trivial⟩ rfl
    rw [List.mem_singleton.mp hc]
    exact ⟨rfl, rfl, rfl, rfl⟩
  refine hpass.bind fun t ht heq => h n m t (hs.execution ht) ?_
  rw [heq]
  exact hrepaired

theorem reopened_reaches_end {s t : State} (ht : Reachable t) {pass : RepairPass}
    (hrepaired : Repaired pass s.store t.store) {r : RunRow} {fresh : Uuid → DispatchIds}
    {now : Instant} (hnew : reopenedDispatch fresh now r ∈ newDispatches pass s.store) :
    Reaches t now (RunIs r.id fun status => status.isTerminal = true) := by
  refine due_reaches_end ht (o := reopenedDispatch fresh now r) ?_ ?_
  · rw [hrepaired.outbox]
    exact List.mem_append_right _ hnew
  · simp [claimable, reopenedDispatch, newOutbox, OutboxRow.unsettled]

theorem ended_reaches {s : State} {now : Instant} {P : State → Prop} (h : P s) : Reaches s now P :=
  .of_run [] (fun _ hc => absurd hc List.not_mem_nil) trivial h

theorem expired_reaches_end {s : State} (hs : Reachable s) {r : RunRow} {past : List Dispatch}
    {newest : Dispatch} (hholds : Holds s.store r past newest) {now : Instant}
    (hoverdue : dispatchOverdue now newest.outbox = true) :
    Reaches s now (RunIs r.id fun status => status.isTerminal = true) := by
  have h := (reachable_invariant hs).consistent
  have hmem := hholds.outbox_mem (List.mem_append_right past (List.mem_singleton_self newest))
  refine pass_reaches hs newest.outbox newest.attempt r now fun n m t _ hrepaired => ?_
  have hbatch : expiring (passFor newest.outbox newest.attempt r n m now) s.store =
      [newest.outbox] := by
    refine selectBatch_row (List.Nodup.of_map _ h.keys.outbox) hmem hoverdue fun o ho => ?_
    simp only [passFor, others, decide_eq_false_iff_not, not_not]
    exact ⟨row_unique h.keys.outbox ho hmem, fun hsame => by rw [hsame]⟩
  have hrow : repairedRow (passFor newest.outbox newest.attempt r n m now) s.store r =
      skippedRow now r := by
    rw [repairedRow, hbatch, if_pos]
    · rfl
    · simp [hholds.live.newest_linked.outbox_run]
  refine ended_reaches ⟨skippedRow now r, ?_, rfl, rfl⟩
  rw [hrepaired.runs, ← hrow]
  exact List.mem_map_of_mem hholds.run_mem

theorem waiting_reaches_end {s : State} (hs : Reachable s) {r : RunRow} {past : List Dispatch}
    {newest : Dispatch} (hholds : Holds s.store r past newest) {now : Instant}
    (hoverdue : retryOverdue now r = true) :
    Reaches s now (RunIs r.id fun status => status.isTerminal = true) := by
  have h := (reachable_invariant hs).consistent
  refine pass_reaches hs newest.outbox newest.attempt r now fun n m t ht hrepaired => ?_
  have hbatch : due (passFor newest.outbox newest.attempt r n m now) s.store = [r] := by
    refine selectBatch_row (List.Nodup.of_map _ h.keys.runs) hholds.run_mem hoverdue ?_
    intro r' hr'
    rw [passFor, decide_eq_false_iff_not, not_not]
    exact ⟨row_unique h.keys.runs hr' hholds.run_mem, fun hsame => by rw [hsame]⟩
  have hnew : reopenedDispatch (fun _ => ⟨n, n⟩) now r ∈
      newDispatches (passFor newest.outbox newest.attempt r n m now) s.store := by
    refine List.mem_append_left _ ?_
    rw [hbatch]
    exact List.mem_singleton_self _
  exact reopened_reaches_end ht hrepaired hnew

theorem lapsed_reaches_end {s : State} (hs : Reachable s) {r : RunRow} {past : List Dispatch}
    {newest : Dispatch} (hholds : Holds s.store r past newest) {now : Instant}
    (hrunning : r.status = .running) (hoverdue : leaseOverdue now newest.attempt = true) :
    Reaches s now (RunIs r.id fun status => status.isTerminal = true) := by
  have h := (reachable_invariant hs).consistent
  have hmem := hholds.attempt_mem (List.mem_append_right past (List.mem_singleton_self newest))
  have hjoined : (newest.attempt, r) ∈ attemptJoinRun s.store := by
    refine List.mem_flatMap.mpr ⟨newest.attempt, hmem, List.mem_map.mpr ⟨r, ?_, rfl⟩⟩
    rw [hholds.live.newest_linked.attempt_run]
    exact mem_runsOf.mpr ⟨hholds.run_mem, rfl⟩
  refine pass_reaches hs newest.outbox newest.attempt r now fun n m t ht hrepaired => ?_
  have hbatch : lapsed (passFor newest.outbox newest.attempt r n m now) s.store =
      [(newest.attempt, r)] := by
    refine selectBatch_row (List.Nodup.of_map _ (attemptJoinRun_nodup h.keys)) hjoined hoverdue
      fun row hrow => ?_
    rw [passFor, decide_eq_false_iff_not, not_not]
    exact ⟨row_unique (attemptJoinRun_nodup h.keys) hrow hjoined, fun hsame => by rw [hsame]⟩
  by_cases hretry : retryable r = true
  · have hretried : retriedRuns [(newest.attempt, r)] = [r] := by simp [retriedRuns, hretry]
    have hnew : reopenedDispatch (fun _ => ⟨m, m⟩) now r ∈
        newDispatches (passFor newest.outbox newest.attempt r n m now) s.store := by
      refine List.mem_append_right _ ?_
      rw [hbatch, hretried]
      exact List.mem_singleton_self _
    exact reopened_reaches_end ht hrepaired hnew
  · have hexpiring : r.id ∉ (expiring (passFor newest.outbox newest.attempt r n m now)
        s.store).map OutboxRow.runId := fun hmem => by
      cases hrunning.symm.trans ((expiring_pending _ h).1 r hholds.run_mem hmem)
    have hdue : r.id ∉ (due (passFor newest.outbox newest.attempt r n m now)
        s.store).map RunRow.id := fun hmem => by
      cases hrunning.symm.trans (due_waiting _ h hholds.run_mem hmem)
    have hrow : repairedRow (passFor newest.outbox newest.attempt r n m now) s.store r =
        abandonedRow now r := by
      have hmem : r.id ∈ [(newest.attempt, r)].map fun row => row.2.id :=
        List.mem_singleton_self _
      rw [repairedRow, if_neg hexpiring, if_neg hdue, hbatch, if_pos hmem, lapsedRow, if_neg hretry]
      rfl
    refine ended_reaches ⟨abandonedRow now r, ?_, rfl, rfl⟩
    rw [hrepaired.runs, ← hrow]
    exact List.mem_map_of_mem hholds.run_mem

/-- From some instant on, an open Run can end at any one instant. -/
theorem open_reaches_end {s : State} (hs : Reachable s) {r : RunRow} (hr : r ∈ s.store.runs)
    (hopen : r.status.isTerminal = false) :
    ∃ T : Instant, ∀ now, T ≤ now →
      Reaches s now (RunIs r.id fun status => status.isTerminal = true) := by
  have hstamped := reachable_stamped hs
  obtain ⟨past, newest, hholds⟩ := Consistent.of_open (reachable_invariant hs).consistent hr hopen
  have hattempt := hholds.attempt_mem (List.mem_append_right past (List.mem_singleton_self newest))
  have hdispatch := hholds.outbox_mem (List.mem_append_right past (List.mem_singleton_self newest))
  have hagrees := hholds.live.agrees
  cases hstatus : r.status with
  | pendingDispatch =>
    simp only [Agrees, hstatus] at hagrees
    have hunsettled := hholds.live.newest_linked.unsettled.mpr hagrees
    refine ⟨max newest.outbox.nextAttemptAt (newest.outbox.claimExpiresAt.getD 0 + 1),
      fun now hnow => ?_⟩
    by_cases hexpired : dispatchOverdue now newest.outbox = true
    · exact expired_reaches_end hs hholds hexpired
    · have hdue : claimable now newest.outbox = true := by
        simp only [dispatchOverdue, hunsettled, Bool.true_and, Bool.not_eq_true,
          Option.any_eq_false, decide_eq_false_iff_not, Int.not_lt] at hexpired
        simp only [claimable, hunsettled, Bool.true_and, Bool.and_eq_true, decide_eq_true_eq,
          Option.all_eq_true]
        refine ⟨⟨(le_max_left _ _).trans hnow, fun d hd => hexpired d hd⟩, fun e he => ?_⟩
        rw [he, Option.getD_some] at hnow
        exact Int.add_one_le_iff.mp ((le_max_right _ _).trans hnow)
      have hend := due_reaches_end hs hdispatch hdue
      rw [hholds.live.newest_linked.outbox_run] at hend
      exact hend
  | queued =>
    refine ⟨0, fun now _ => ?_⟩
    refine (grant_reaches hs hr hstatus "worker" now).bind fun t ht hgrant => ?_
    obtain ⟨a, ha, hrun, hleased⟩ := hgrant
    rw [← hrun]
    exact complete_reaches (hs.execution ht) ha hleased
  | running =>
    simp only [Agrees, hstatus] at hagrees
    obtain ⟨expires, hexpires⟩ :=
      Option.isSome_iff_exists.mp ((hstamped.attempts _ hattempt).leased.mpr hagrees)
    refine ⟨expires + 1, fun now hnow => lapsed_reaches_end hs hholds hstatus ?_⟩
    simp only [leaseOverdue, hagrees, hexpires, Option.any_some, Bool.and_eq_true,
      decide_eq_true_eq, true_and]
    exact Int.add_one_le_iff.mp hnow
  | retryWait =>
    obtain ⟨retryAt, hretryAt⟩ :=
      Option.isSome_iff_exists.mp ((hstamped.runs r hr).retry.mpr hstatus)
    refine ⟨retryAt, fun now hnow => waiting_reaches_end hs hholds ?_⟩
    simp only [retryOverdue, hstatus, hretryAt, Option.any_some, Bool.and_eq_true,
      decide_eq_true_eq, true_and]
    exact hnow
  | succeeded | failed | dead | skipped | cancelled | unknown =>
    rw [hstatus] at hopen
    cases hopen

/-- Commands of dispatchers, workers and repair passes whose clocks start at `T` and never go
back. -/
def Clocked : Instant → List Command → Prop
  | _, [] => True
  | T, c :: events => ∃ now, T ≤ now ∧ ClockedAt now c ∧ Clocked now events

theorem Clocked.of_later {T now : Instant} (h : T ≤ now) {events : List Command}
    (hevents : Clocked now events) : Clocked T events := by
  cases events with
  | nil => trivial
  | cons c events =>
    obtain ⟨later, hle, hrest⟩ := hevents
    exact ⟨later, h.trans hle, hrest⟩

theorem Clocked.append {T now : Instant} (h : T ≤ now) {first rest : List Command}
    (hfirst : ∀ c ∈ first, ClockedAt now c) (hrest : Clocked now rest) :
    Clocked T (first ++ rest) := by
  induction first generalizing T with
  | nil => exact hrest.of_later h
  | cons c first ih =>
    refine ⟨now, h, hfirst c List.mem_cons_self, ?_⟩
    exact ih le_rfl fun c' hc' => hfirst c' (List.mem_cons_of_mem c hc')

theorem run_ended_kept {s t : State} (hs : Reachable s) (h : Execution s t) {x : Uuid}
    (hended : RunIs x (fun status => status.isTerminal = true) s) :
    RunIs x (fun status => status.isTerminal = true) t := by
  obtain ⟨r, hr, rfl, hstatus⟩ := hended
  obtain ⟨r', hrow, hevolves⟩ := run_kept hs h hr
  have hmem : r' ∈ runsOf t.store r.id := by
    rw [hrow]
    exact List.mem_singleton_self r'
  rw [hevolves.settled hstatus] at hmem
  exact ⟨r, (mem_runsOf.mp hmem).1, rfl, hstatus⟩

/-- One Run after another is brought to its end; those that ended stay ended. -/
theorem runs_can_end (runs : List Uuid) {s : State} (hs : Reachable s) (T : Instant)
    (hruns : ∀ x ∈ runs, ∃ r ∈ s.store.runs, r.id = x) :
    ∃ events, Clocked T events ∧ system.Admits s events ∧
      ∀ x ∈ runs, RunIs x (fun status => status.isTerminal = true) (system.run s events) := by
  induction runs generalizing s T with
  | nil => exact ⟨[], trivial, trivial, fun _ hx => absurd hx List.not_mem_nil⟩
  | cons x runs ih =>
    obtain ⟨r, hr, rfl⟩ := hruns x List.mem_cons_self
    have hfirst : ∃ now, T ≤ now ∧
        Reaches s now (RunIs r.id fun status => status.isTerminal = true) := by
      by_cases hended : r.status.isTerminal = true
      · exact ⟨T, le_rfl, ended_reaches ⟨r, hr, rfl, hended⟩⟩
      · obtain ⟨start, hreach⟩ := open_reaches_end hs hr (by simpa using hended)
        exact ⟨max T start, le_max_left _ _, hreach _ (le_max_right _ _)⟩
    obtain ⟨now, hnow, first, hclock, hadmits, hended⟩ := hfirst
    have hexecution := Execution.of_admits hadmits
    have hkept : ∀ y ∈ runs, ∃ r' ∈ (system.run s first).store.runs, r'.id = y := by
      intro y hy
      obtain ⟨r₀, hr₀, rfl⟩ := hruns y (List.mem_cons_of_mem _ hy)
      obtain ⟨r', hr', hevolves⟩ := (execution_evolves hs hexecution).runs.of_mem hr₀
      exact ⟨r', hr', by rw [hevolves.columns]⟩
    have hreached : Reachable (system.run s first) := hs.execution hexecution
    obtain ⟨rest, hrest, hadmits', hall⟩ := ih hreached now hkept
    have hrun : system.run s (first ++ rest) = system.run (system.run s first) rest :=
      List.foldl_append
    refine ⟨first ++ rest, .append hnow hclock hrest, admits_append.mpr ⟨hadmits, hadmits'⟩, ?_⟩
    rw [hrun]
    intro y hy
    rcases List.mem_cons.mp hy with rfl | hy
    · exact run_ended_kept hreached (.of_admits hadmits') hended
    · exact hall y hy

/-- No Run can get stuck: from every reachable state, whatever is claimed, leased, overdue or
waiting, commands of dispatchers, workers and repair passes alone, from any instant on and with
clocks that never go back, can bring every Run to its end. -/
theorem every_run_can_end {s : State} (hs : Reachable s) (T : Instant) :
    ∃ events, Clocked T events ∧ system.Admits s events ∧
      ∀ r ∈ s.store.runs, ∃ r', runsOf (system.run s events).store r.id = [r'] ∧
        r'.status.isTerminal = true := by
  obtain ⟨events, hclock, hadmits, hended⟩ := runs_can_end (s.store.runs.map RunRow.id) hs T
    fun x hx => List.mem_map.mp hx
  refine ⟨events, hclock, hadmits, fun r hr => ?_⟩
  obtain ⟨r', hr', hid, hstatus⟩ := hended r.id (List.mem_map_of_mem hr)
  have hcell := runsOf_eq (reachable_invariant (hs.execution (.of_admits hadmits))).consistent hr'
  rw [hid] at hcell
  exact ⟨r', hcell, hstatus⟩

theorem every_run_can_end_demo :
    ∃ events, Clocked 100 events ∧ system.Admits (system.run demoInitial demoClaimed) events ∧
      ∀ r ∈ (system.run demoInitial demoClaimed).store.runs,
        ∃ r', runsOf (system.run (system.run demoInitial demoClaimed) events).store r.id = [r'] ∧
          r'.status.isTerminal = true :=
  every_run_can_end (demo_reachable demoClaimed_admitted) 100

end RunProgress
