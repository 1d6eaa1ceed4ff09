import Crono.ScheduleBacklog

/-! Late occurrences: where the misfire policy, the catch-up policies and the dispatch deadline
agree on what runs, and where they do not. -/
namespace ScheduleMisfires

open RunDomain ControlPlaneSchema RunStore SchedulePlanner OrderedPoints ScheduleBacklog

variable {genuine : Set Instant} {recur : Instant → Except RecurrenceError Instant}
  {schedule : Schedule} {now firstDue : Instant}

/-- The whole seconds an occurrence may be late, where there is a limit. -/
def graceSeconds (policy : MisfirePolicy) (grace : Option ℕ) : Option ℕ :=
  match policy with
  | .runLate => none
  | .skip => some 30
  | .gracePeriod => grace

theorem lateness_le_iff (scheduledAt now : Instant) (n : ℕ) :
    lateness scheduledAt now ≤ n ↔ now < scheduledAt + seconds (n + 1) := by
  have hwhole (a b : ℤ) : ((b - a) / 1000000).toNat ≤ n ↔ b < a + 1000000 * (n + 1) := by omega
  exact hwhole scheduledAt now

/-- `decide_misfire` executes an occurrence that is late by less than a second more than its
grace. -/
theorem decideMisfire_iff (policy : MisfirePolicy) (grace : Option ℕ) (scheduledAt now : Instant) :
    (∃ l, decideMisfire policy grace scheduledAt now = .execute l) ↔ policy = .runLate ∨
      ∃ n, graceSeconds policy grace = some n ∧ now < scheduledAt + seconds (n + 1) := by
  unfold decideMisfire graceSeconds
  cases policy with
  | runLate => simp
  | skip =>
    simp only [reduceCtorEq, false_or, Option.some.injEq, exists_eq_left', Nat.cast_ofNat,
      decide_eq_true_eq]
    rw [← Nat.cast_ofNat (R := ℤ), ← lateness_le_iff]
    split
    · rename_i h
      simp [h]
    · rename_i h
      simp [h]
  | gracePeriod =>
    cases grace with
    | none => simp
    | some n =>
      simp only [reduceCtorEq, false_or, Option.some.injEq, exists_eq_left', Option.any_some,
        decide_eq_true_eq]
      rw [← lateness_le_iff]
      split
      · rename_i h
        simp [h]
      · rename_i h
        simp [h]

theorem occurrence_execute (schedule : Schedule) (scheduledAt now : Instant)
    (reason : Option String) :
    (occurrence schedule scheduledAt now reason).execute = true ↔
      ∃ l, decideMisfire schedule.config.misfirePolicy schedule.config.misfireGraceSeconds
        scheduledAt now = .execute l := by
  unfold occurrence
  simp only
  split
  · rename_i l h
    simp [h]
  · rename_i l h
    simp [h]

/-- The plan is to run the first due occurrence and nothing else. -/
def RunsOnTime (schedule : Schedule) (owner : Uuid)
    (recur : Instant → Except RecurrenceError Instant) (now firstDue : Instant) : Prop :=
  ∃ p o, planCron schedule owner recur now firstDue = .ok p ∧ p.occurrences = [o] ∧
    o.scheduledAt = firstDue ∧ o.execute = true

/-- With one due occurrence, in time for its misfire policy and its age limit, the catch-up policy
makes no difference unless it is `skip`, which never runs anything. -/
theorem on_time_occurrence_runs_iff {following next : Instant} {l : ℕ} (owner : Uuid)
    (hvalid : PolicyValid schedule.config) (hdue : firstDue ≤ now)
    (hfollowing : recur firstDue = .ok following) (honly : now < following)
    (hnext : recur now = .ok next)
    (hage : now ≤ firstDue + seconds schedule.config.maxCatchupAgeSeconds)
    (hmisfire : decideMisfire schedule.config.misfirePolicy schedule.config.misfireGraceSeconds
      firstDue now = .execute l) :
    RunsOnTime schedule owner recur now firstDue ↔ schedule.config.catchupPolicy ≠ .skip := by
  have hexecute (reason : Option String) :
      (occurrence schedule firstDue now reason).execute = true :=
    (occurrence_execute schedule firstDue now reason).mpr ⟨l, hmisfire⟩
  unfold RunsOnTime planCron cronOccurrences
  cases hpolicy : schedule.config.catchupPolicy with
  | skip =>
    simp only [hnext, ne_eq, not_true_eq_false, iff_false]
    rintro ⟨p, o, hp, hentries, _, hrun⟩
    cases hp
    cases hentries
    cases hrun
  | runOnce =>
    simp only [hnext, ne_eq, reduceCtorEq, not_false_eq_true, iff_true]
    exact ⟨_, _, rfl, rfl, occurrence_scheduledAt _ _ _ _, hexecute _⟩
  | catchUp =>
    have hkept : ¬ firstDue < now - seconds schedule.config.maxCatchupAgeSeconds :=
      Int.not_lt.mpr (Int.sub_right_le_of_le_add hage)
    obtain ⟨rounds, hrounds⟩ : ∃ rounds, schedule.config.maxCatchupRuns = rounds + 1 :=
      ⟨_, (Nat.succ_pred_eq_of_pos hvalid.runs.1).symm⟩
    have hloop : catchUpLoop schedule recur now schedule.config.maxCatchupRuns firstDue [] =
        .ok (following, [occurrence schedule firstDue now none]) := by
      rw [hrounds, catchUpLoop, if_pos hdue, hfollowing]
      change catchUpLoop schedule recur now rounds following _ = _
      cases rounds with
      | zero => rfl
      | succ rounds =>
        rw [catchUpLoop, if_neg (not_le.mpr honly)]
        rfl
    have hcatchUp : catchUp schedule recur now firstDue =
        .ok (following, [occurrence schedule firstDue now none]) := by
      unfold catchUp
      simp only [if_neg hkept]
      change catchUpLoop schedule recur now schedule.config.maxCatchupRuns firstDue [] >>= _ = _
      rw [hloop]
      change (if following ≤ now then _ else _) = _
      rw [if_neg (not_le.mpr honly)]
      rfl
    simp only [hcatchUp, ne_eq, reduceCtorEq, not_false_eq_true, iff_true]
    exact ⟨_, _, rfl, rfl, occurrence_scheduledAt _ _ _ _, hexecute _⟩

/-- Every minute, at most two occurrences not older than two minutes. -/
def minuteSchedule (misfire : MisfirePolicy) (grace : Option ℕ) (catchup : CatchupPolicy) :
    Schedule :=
  ⟨40, true, some 0, ⟨.cron "* * * * *" "UTC", misfire, grace, catchup, 2, 120⟩⟩

theorem minuteSchedule_valid {misfire : MisfirePolicy} {grace : Option ℕ} {catchup : CatchupPolicy}
    (h : grace.isSome = true ↔ misfire = .gracePeriod) :
    PolicyValid (minuteSchedule misfire grace catchup).config :=
  ⟨h, show 1 ≤ 2 ∧ 2 ≤ 1000 by decide, show 60 ≤ 120 ∧ 120 ≤ 31536000 by decide⟩

/-- Half a second after the minute. -/
theorem on_time_occurrence_runs_minute :
    RunsOnTime (minuteSchedule .runLate none .runOnce) 41 everyMinute 500000 0 := by
  have hvalid : PolicyValid (minuteSchedule .runLate none .runOnce).config :=
    minuteSchedule_valid (by decide)
  have hdue : (0 : Instant) ≤ 500000 := by decide
  have hfollowing : everyMinute 0 = .ok (seconds 60) := rfl
  refine (on_time_occurrence_runs_iff 41 hvalid hdue hfollowing ?_ rfl ?_ rfl).mpr ?_
  · decide
  · decide
  · decide

/-- A Schedule whose catch-up policy is `skip` misses the occurrence it was woken up for. -/
theorem on_time_occurrence_skipped :
    ¬ ∀ (schedule : Schedule) (owner : Uuid) (recur : Instant → Except RecurrenceError Instant)
      (now firstDue following next : Instant) (l : ℕ), PolicyValid schedule.config →
      firstDue ≤ now → recur firstDue = .ok following → now < following → recur now = .ok next →
      now ≤ firstDue + seconds schedule.config.maxCatchupAgeSeconds →
      decideMisfire schedule.config.misfirePolicy schedule.config.misfireGraceSeconds
        firstDue now = .execute l → RunsOnTime schedule owner recur now firstDue := by
  intro h
  obtain ⟨p, o, hp, hentries, _, hrun⟩ := h (minuteSchedule .runLate none .skip) 41 everyMinute
    500000 0 (seconds 60) (seconds 60) 0 (minuteSchedule_valid (by decide)) (by decide) rfl
    (by decide) rfl (by decide) rfl
  cases hp
  cases hentries
  cases hrun

/-- The due occurrences that are not older than the age limit. -/
noncomputable def eligible (genuine : Set Instant) (schedule : Schedule) (now firstDue : Instant) :
    List Instant :=
  points genuine (max firstDue (oldestKept schedule now)) now

def executed (entries : List PlannedOccurrence) : List Instant :=
  (entries.filter PlannedOccurrence.execute).map PlannedOccurrence.scheduledAt

theorem executed_append (xs ys : List PlannedOccurrence) :
    executed (xs ++ ys) = executed xs ++ executed ys := by
  unfold executed
  rw [List.filter_append, List.map_append]

theorem executed_caughtUp (hmisfire : schedule.config.misfirePolicy = .runLate)
    (backlog : List Instant) : executed (caughtUp schedule now firstDue backlog) =
      backlog.take (allowance schedule now firstDue) := by
  have hage : executed (ageSummary schedule now firstDue) = [] := by
    unfold ageSummary
    split <;> rfl
  have hcount : executed (countSummary now (backlog.drop (allowance schedule now firstDue))) =
      [] := by
    cases backlog.drop (allowance schedule now firstDue) with
    | nil => rfl
    | cons cursor rest => rfl
  have hall (l : List Instant) :
      executed (l.map fun g => occurrence schedule g now none) = l := by
    induction l with
    | nil => rfl
    | cons g rest ih =>
      have hexecute : (occurrence schedule g now none).execute = true := by
        rw [occurrence_execute, decideMisfire_iff]
        exact .inl hmisfire
      unfold executed at ih ⊢
      rw [List.map_cons, List.filter_cons_of_pos hexecute, List.map_cons, ih,
        occurrence_scheduledAt]
  unfold caughtUp
  rw [executed_append, executed_append, hage, hcount, hall, List.nil_append, List.append_nil]

/-- The plan runs the oldest occurrences within the age limit, as many as the count limit
allows. -/
def FillsLimits (genuine : Set Instant) (schedule : Schedule) (owner : Uuid)
    (recur : Instant → Except RecurrenceError Instant) (now firstDue : Instant) : Prop :=
  ∃ p, planCron schedule owner recur now firstDue = .ok p ∧
    (executed p.occurrences).length =
      min schedule.config.maxCatchupRuns (eligible genuine schedule now firstDue).length ∧
    executed p.occurrences =
      (eligible genuine schedule now firstDue).take schedule.config.maxCatchupRuns

theorem take_pred_eq_take_iff {l : List Instant} {m : ℕ} (h : 1 ≤ m) :
    l.take (m - 1) = l.take m ↔ l.length < m := by
  constructor
  · intro heq
    have hlength := congrArg List.length heq
    rw [List.length_take, List.length_take] at hlength
    omega
  · intro hlt
    rw [List.take_of_length_le (by omega), List.take_of_length_le (by omega)]

/-- The summary of older occurrences uses up one of the allowed Runs, and an occurrence exactly as
old as the limit goes into it. -/
theorem catch_up_fills_limits_iff (hfollows : Follows genuine recur) (owner : Uuid)
    (hvalid : PolicyValid schedule.config) (hcatchup : schedule.config.catchupPolicy = .catchUp)
    (hmisfire : schedule.config.misfirePolicy = .runLate) (hfirst : firstDue ∈ genuine)
    (hdue : firstDue ≤ now) :
    FillsLimits genuine schedule owner recur now firstDue ↔
      oldestKept schedule now ≤ firstDue ∨ oldestKept schedule now ∉ genuine ∧
        (points genuine (oldestKept schedule now) now).length < schedule.config.maxCatchupRuns := by
  obtain ⟨entries, next, hplan, _, hlisted⟩ :=
    planCron_spec hfollows schedule hfirst hdue owner
  unfold Listed at hlisted
  rw [hcatchup] at hlisted
  obtain ⟨start, hstarts, rfl⟩ := hlisted
  have hfills : FillsLimits genuine schedule owner recur now firstDue ↔
      (points genuine start now).take (allowance schedule now firstDue) =
        (eligible genuine schedule now firstDue).take schedule.config.maxCatchupRuns := by
    unfold FillsLimits
    rw [hplan]
    constructor
    · rintro ⟨p, hp, _, htake⟩
      cases hp
      rw [← executed_caughtUp hmisfire]
      exact htake
    · intro htake
      refine ⟨_, rfl, ?_, ?_⟩
      · rw [executed_caughtUp hmisfire, htake, List.length_take]
      · rw [executed_caughtUp hmisfire]
        exact htake
  rw [hfills]
  unfold Starts at hstarts
  by_cases hold : firstDue < oldestKept schedule now
  · rw [if_pos hold] at hstarts
    have hallowance : allowance schedule now firstDue = schedule.config.maxCatchupRuns - 1 := by
      rw [allowance, ageSummary, if_pos hold, List.length_singleton]
    have hlate : ¬ oldestKept schedule now ≤ firstDue := not_le.mpr hold
    rw [eligible, max_eq_right hold.le, hallowance]
    by_cases hexact : oldestKept schedule now ∈ genuine
    · rw [points_cons hexact (oldestKept_le schedule now) hstarts]
      refine iff_of_false ?_ ?_
      · intro htake
        have hlength := congrArg List.length htake
        rw [List.length_take, List.length_take, List.length_cons] at hlength
        have hruns := hvalid.runs.1
        omega
      · rintro (hle | ⟨hnot, _⟩)
        · exact hlate hle
        · exact hnot hexact
    · rw [points_next hstarts hexact, take_pred_eq_take_iff hvalid.runs.1]
      simp only [hlate, hexact, not_false_eq_true, true_and, false_or]
  · have hallowance : allowance schedule now firstDue = schedule.config.maxCatchupRuns := by
      rw [allowance, ageSummary, if_neg hold]
      rfl
    rw [if_neg hold] at hstarts
    rw [eligible, max_eq_left (not_lt.mp hold), hallowance, hstarts]
    exact iff_of_true rfl (.inl (not_lt.mp hold))

/-- One minute of backlog, within both limits. -/
theorem catch_up_fills_limits_minute :
    FillsLimits minutes (minuteSchedule .runLate none .catchUp) 41 everyMinute (seconds 60) 0 := by
  have hvalid : PolicyValid (minuteSchedule .runLate none .catchUp).config :=
    minuteSchedule_valid (by decide)
  have hfirst : (0 : Instant) ∈ minutes := rfl
  have hdue : (0 : Instant) ≤ seconds 60 := by decide
  apply (catch_up_fills_limits_iff everyMinute_follows 41 hvalid rfl rfl hfirst hdue).mpr
  left
  decide

/-- After five minutes two Runs are allowed and three occurrences are young enough, but only one
runs. -/
theorem catch_up_misses_limits :
    ¬ ∀ (genuine : Set Instant) (schedule : Schedule) (owner : Uuid)
      (recur : Instant → Except RecurrenceError Instant) (now firstDue : Instant),
      Follows genuine recur → PolicyValid schedule.config →
      schedule.config.catchupPolicy = .catchUp → schedule.config.misfirePolicy = .runLate →
      firstDue ∈ genuine → firstDue ≤ now →
      FillsLimits genuine schedule owner recur now firstDue := by
  intro h
  obtain ⟨p, hp, hlength, _⟩ := h minutes (minuteSchedule .runLate none .catchUp) 41 everyMinute
    (seconds 300) 0 everyMinute_follows (minuteSchedule_valid (by decide)) rfl rfl rfl (by decide)
  have hplanned : (planCron (minuteSchedule .runLate none .catchUp) 41 everyMinute (seconds 300)
      0).map (fun p => (executed p.occurrences).length) = .ok 1 := by decide +kernel
  rw [hp] at hplanned
  have hone : (executed p.occurrences).length = 1 := Except.ok.inj hplanned
  rw [hone] at hlength
  have heligible : (eligible minutes (minuteSchedule .runLate none .catchUp) (seconds 300)
      0).length = 1 := by
    change 1 = min 2 _ at hlength
    omega
  obtain ⟨x, hx⟩ := List.length_eq_one_iff.mp heligible
  have hfour : seconds 240 ∈ [x] := by
    rw [← hx, eligible, mem_points]
    exact ⟨rfl, by decide, by decide⟩
  have hfive : seconds 300 ∈ [x] := by
    rw [← hx, eligible, mem_points]
    exact ⟨rfl, by decide, by decide⟩
  have hsame : seconds 240 = seconds 300 :=
    (List.mem_singleton.mp hfour).trans (List.mem_singleton.mp hfive).symm
  exact absurd hsame (by decide)

/-- The plan has one entry, and runs it exactly when some due occurrence is still in time. -/
def RunsIfEligible (genuine : Set Instant) (schedule : Schedule) (owner : Uuid)
    (recur : Instant → Except RecurrenceError Instant) (now firstDue : Instant) : Prop :=
  ∃ p o, planCron schedule owner recur now firstDue = .ok p ∧ p.occurrences = [o] ∧
    (o.execute = true ↔ ∃ g ∈ genuine, firstDue ≤ g ∧ g ≤ now ∧ ∃ l,
      decideMisfire schedule.config.misfirePolicy schedule.config.misfireGraceSeconds g now =
        .execute l)

/-- Only the first due occurrence is looked at: the newest may be in time when it is not. -/
theorem run_once_eligible_iff {newest : Instant} (hfollows : Follows genuine recur) (owner : Uuid)
    (hcatchup : schedule.config.catchupPolicy = .runOnce) (hfirst : firstDue ∈ genuine)
    (hdue : firstDue ≤ now) (hnewest : IsGreatest {g | g ∈ genuine ∧ g ≤ now} newest) :
    RunsIfEligible genuine schedule owner recur now firstDue ↔ ∀ n,
      graceSeconds schedule.config.misfirePolicy schedule.config.misfireGraceSeconds = some n →
        now < firstDue + seconds (n + 1) ∨ newest + seconds (n + 1) ≤ now := by
  obtain ⟨entries, next, hplan, _, hlisted⟩ :=
    planCron_spec hfollows schedule hfirst hdue owner
  unfold Listed at hlisted
  rw [hcatchup] at hlisted
  have hlatest : firstDue ≤ newest := hnewest.2 ⟨hfirst, hdue⟩
  have hrun : RunsIfEligible genuine schedule owner recur now firstDue ↔
      ((∃ l, decideMisfire schedule.config.misfirePolicy schedule.config.misfireGraceSeconds
        firstDue now = .execute l) ↔ ∃ g ∈ genuine, firstDue ≤ g ∧ g ≤ now ∧ ∃ l,
          decideMisfire schedule.config.misfirePolicy schedule.config.misfireGraceSeconds g now =
            .execute l) := by
    unfold RunsIfEligible
    rw [hplan, hlisted]
    constructor
    · rintro ⟨p, o, hp, hentries, hexecute⟩
      cases hp
      cases hentries
      rw [← hexecute, occurrence_execute]
    · intro hexecute
      refine ⟨_, _, rfl, rfl, ?_⟩
      rw [occurrence_execute]
      exact hexecute
  rw [hrun]
  simp only [decideMisfire_iff]
  cases hgrace : graceSeconds schedule.config.misfirePolicy schedule.config.misfireGraceSeconds with
  | none =>
    refine iff_of_true ?_ nofun
    simp only [reduceCtorEq, false_and, exists_false, or_false]
    exact ⟨fun h => ⟨firstDue, hfirst, le_rfl, hdue, h⟩, fun ⟨_, _, _, _, h⟩ => h⟩
  | some n =>
    have hlimited : schedule.config.misfirePolicy ≠ .runLate := by
      intro hlate
      rw [hlate] at hgrace
      cases hgrace
    simp only [hlimited, false_or, Option.some.injEq, exists_eq_left', forall_eq']
    constructor
    · intro heligible
      by_cases htime : now < newest + seconds (n + 1)
      · exact .inl (heligible.mpr ⟨newest, hnewest.1.1, hlatest, hnewest.1.2, htime⟩)
      · exact .inr (not_lt.mp htime)
    · intro hcondition
      constructor
      · exact fun htime => ⟨firstDue, hfirst, le_rfl, hdue, htime⟩
      · rintro ⟨g, hg, _, hnow, htime⟩
        rcases hcondition with hearly | hlate
        · exact hearly
        · have hbefore : g ≤ newest := hnewest.2 ⟨hg, hnow⟩
          have hlater : g + seconds (n + 1) ≤ now := (Int.add_le_add_right hbefore _).trans hlate
          exact absurd htime (not_lt.mpr hlater)

/-- Within the grace of the first occurrence nothing is missed. -/
theorem run_once_eligible_minute : RunsIfEligible minutes (minuteSchedule .gracePeriod (some 30)
    .runOnce) 41 everyMinute (seconds 20) 0 := by
  have hfirst : (0 : Instant) ∈ minutes := rfl
  have hdue : (0 : Instant) ≤ seconds 20 := by decide
  have hnewest : IsGreatest {g | g ∈ minutes ∧ g ≤ seconds 20} (0 : Instant) := by
    refine ⟨⟨rfl, by decide⟩, ?_⟩
    rintro g ⟨hg, hle⟩
    have hminute (g : ℤ) (h : g % 60000000 = 0) (h' : g ≤ 20000000) : g ≤ 0 := by omega
    exact hminute g hg hle
  apply (run_once_eligible_iff everyMinute_follows 41 rfl hfirst hdue hnewest).mpr
  rintro n hn
  cases hn
  left
  decide

/-- Half a minute after the second of two missed occurrences, the second would still be in time. -/
theorem run_once_misses_eligible :
    ¬ ∀ (genuine : Set Instant) (schedule : Schedule) (owner : Uuid)
      (recur : Instant → Except RecurrenceError Instant) (now firstDue : Instant),
      Follows genuine recur → PolicyValid schedule.config →
      schedule.config.catchupPolicy = .runOnce → firstDue ∈ genuine → firstDue ≤ now →
      RunsIfEligible genuine schedule owner recur now firstDue := by
  intro h
  obtain ⟨p, o, hp, hentries, hexecute⟩ := h minutes
    (minuteSchedule .gracePeriod (some 30) .runOnce) 41 everyMinute (seconds 90) 0
    everyMinute_follows (minuteSchedule_valid (by decide)) rfl rfl (by decide)
  cases hp
  cases hentries
  have htime := hexecute.mpr ⟨seconds 60, rfl, by decide, by decide, 30, by decide⟩
  exact absurd htime (by decide)

/-- What the planner executes can be dispatched at that instant, and what can still be dispatched
is executed. -/
structure Dispatchable (schedule : Schedule) (scheduledAt now : Instant) : Prop where
  deadline : ∀ reason, (occurrence schedule scheduledAt now reason).execute = true →
    ∀ d, (occurrence schedule scheduledAt now reason).dispatchDeadline = some d → now ≤ d
  outbox : ∀ reason, (occurrence schedule scheduledAt now reason).execute = true →
    ∀ ids runId queueId, claimable now (newOutbox ids runId queueId
        (occurrence schedule scheduledAt now reason).dispatchDeadline now) = true ∧
      ∀ limit locked s, newOutbox ids runId queueId
        (occurrence schedule scheduledAt now reason).dispatchDeadline now ∉
          expiredDispatches limit locked now s
  executes : ∀ d, dispatchDeadline schedule.config.misfirePolicy
    schedule.config.misfireGraceSeconds scheduledAt = some d → now ≤ d →
    ∃ l, decideMisfire schedule.config.misfirePolicy schedule.config.misfireGraceSeconds
      scheduledAt now = .execute l

theorem dispatchDeadline_eq (policy : MisfirePolicy) (grace : Option ℕ) (scheduledAt : Instant) :
    dispatchDeadline policy grace scheduledAt =
      (graceSeconds policy grace).map fun n : ℕ => scheduledAt + seconds n := by
  cases policy with
  | runLate => rfl
  | skip => rfl
  | gracePeriod => cases grace <;> rfl

theorem occurrence_deadline {scheduledAt : Instant} {reason : Option String}
    (h : (occurrence schedule scheduledAt now reason).execute = true) :
    (occurrence schedule scheduledAt now reason).dispatchDeadline =
      (graceSeconds schedule.config.misfirePolicy schedule.config.misfireGraceSeconds).map
        fun n : ℕ => scheduledAt + seconds n := by
  rw [← dispatchDeadline_eq]
  unfold occurrence at h ⊢
  simp only at h ⊢
  split
  · rfl
  · rename_i l hskip
    rw [hskip] at h
    cases h

/-- The two rules part in the last second: lateness is counted in whole seconds, the deadline is
an instant. -/
theorem dispatchable_iff (schedule : Schedule) (scheduledAt now : Instant) :
    Dispatchable schedule scheduledAt now ↔ ∀ n,
      graceSeconds schedule.config.misfirePolicy schedule.config.misfireGraceSeconds = some n →
        now ≤ scheduledAt + seconds n ∨ scheduledAt + seconds (n + 1) ≤ now := by
  have hsecond (n : ℕ) : scheduledAt + seconds n < scheduledAt + seconds (n + 1) := by
    have hlt (a : ℤ) : a + 1000000 * n < a + 1000000 * (n + 1) := by omega
    exact hlt scheduledAt
  constructor
  · intro h n hgrace
    by_cases hlate : scheduledAt + seconds (n + 1) ≤ now
    · exact .inr hlate
    · have hexecute : (occurrence schedule scheduledAt now none).execute = true := by
        rw [occurrence_execute, decideMisfire_iff]
        exact .inr ⟨n, hgrace, not_le.mp hlate⟩
      refine .inl (h.deadline none hexecute _ ?_)
      rw [occurrence_deadline hexecute, hgrace]
      rfl
  · intro h
    have hdeadline : ∀ reason, (occurrence schedule scheduledAt now reason).execute = true →
        ∀ d, (occurrence schedule scheduledAt now reason).dispatchDeadline = some d → now ≤ d := by
      intro reason hexecute d hd
      rw [occurrence_deadline hexecute] at hd
      obtain ⟨n, hgrace, rfl⟩ := Option.map_eq_some_iff.mp hd
      rcases h n hgrace with hle | hlate
      · exact hle
      · rw [occurrence_execute, decideMisfire_iff] at hexecute
        rcases hexecute with hpolicy | ⟨m, hm, htime⟩
        · rw [hpolicy] at hgrace
          cases hgrace
        · rw [hgrace] at hm
          cases hm
          exact absurd hlate (not_le.mpr htime)
    refine ⟨hdeadline, ?_, ?_⟩
    · intro reason hexecute ids runId queueId
      cases hd : (occurrence schedule scheduledAt now reason).dispatchDeadline with
      | none =>
        refine ⟨by simp [claimable, newOutbox, OutboxRow.unsettled], ?_⟩
        intro limit locked s hmem
        have hrow := List.mem_of_mem_take hmem
        rw [List.mem_insertionSort] at hrow
        simp [newOutbox] at hrow
      | some d =>
        have hle := hdeadline reason hexecute d hd
        refine ⟨by simp [claimable, newOutbox, OutboxRow.unsettled, hle], ?_⟩
        intro limit locked s hmem
        have hrow := List.mem_of_mem_take hmem
        rw [List.mem_insertionSort] at hrow
        simp [newOutbox, not_lt.mpr hle] at hrow
    · intro d hd hle
      rw [dispatchDeadline_eq] at hd
      obtain ⟨n, hgrace, rfl⟩ := Option.map_eq_some_iff.mp hd
      rw [decideMisfire_iff]
      exact .inr ⟨n, hgrace, hle.trans_lt (hsecond n)⟩

/-- Half a second into the last second an occurrence is executed after its deadline. -/
theorem executed_after_deadline :
    ¬ ∀ (schedule : Schedule) (scheduledAt now : Instant), PolicyValid schedule.config →
      Dispatchable schedule scheduledAt now := by
  intro h
  have hdispatchable := h (minuteSchedule .skip none .runOnce) 0 30500000
    (minuteSchedule_valid (by decide))
  have hle := hdispatchable.deadline none (by decide) (seconds 30) rfl
  exact absurd hle (by decide)

end ScheduleMisfires
