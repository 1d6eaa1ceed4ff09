import Crono.ControlPlaneSchema

/-! The plan of a due Schedule: which occurrences it has missed, what becomes of each of them,
and when it is due next. -/
namespace SchedulePlanner

open RunDomain ControlPlaneSchema

inductive RecurrenceError where
  | invalidExpression
  | invalidTimezone
  | outOfRange
  deriving DecidableEq, Repr

/-- `next_cron_occurrence`: expression, timezone and the instant to follow. -/
abbrev Recurrence := String → String → Instant → Except RecurrenceError Instant

inductive MisfirePolicy where
  | runLate
  | skip
  | gracePeriod
  deriving DecidableEq, Repr

inductive CatchupPolicy where
  | skip
  | runOnce
  | catchUp
  deriving DecidableEq, Repr

inductive ScheduleTiming where
  | cron (expression timezone : String)
  | once (executeAt : Instant)
  deriving DecidableEq, Repr

/-- The columns of a Schedule that are written when it is created and never again. -/
structure ScheduleConfig where
  timing : ScheduleTiming
  misfirePolicy : MisfirePolicy
  misfireGraceSeconds : Option ℕ
  catchupPolicy : CatchupPolicy
  maxCatchupRuns : ℕ
  maxCatchupAgeSeconds : ℕ
  deriving DecidableEq, Repr

/-- A Schedule as a claim returns it. -/
structure Schedule where
  id : Uuid
  enabled : Bool
  nextRunAt : Option Instant
  config : ScheduleConfig
  deriving DecidableEq, Repr

inductive MisfireDecision where
  | execute (latenessSeconds : ℕ)
  | skip (latenessSeconds : ℕ)
  deriving DecidableEq, Repr

/-- `(now - scheduled_at).whole_seconds().max(0)`. -/
def lateness (scheduledAt now : Instant) : ℕ := ((now - scheduledAt) / 1000000).toNat

/-- Decide whether a due occurrence remains eligible. -/
def decideMisfire (policy : MisfirePolicy) (graceSeconds : Option ℕ) (scheduledAt now : Instant) :
    MisfireDecision :=
  let latenessSeconds := lateness scheduledAt now
  let execute := match policy with
    | .runLate => true
    | .skip => latenessSeconds ≤ 30
    | .gracePeriod => graceSeconds.any fun grace => latenessSeconds ≤ grace
  if execute then .execute latenessSeconds else .skip latenessSeconds

def dispatchDeadline (policy : MisfirePolicy) (graceSeconds : Option ℕ) (scheduledAt : Instant) :
    Option Instant :=
  match policy with
  | .runLate => none
  | .skip => some (scheduledAt + seconds 30)
  | .gracePeriod => graceSeconds.map fun grace => scheduledAt + seconds grace

def occurrence (schedule : Schedule) (scheduledAt now : Instant) (reason : Option String) :
    PlannedOccurrence :=
  let config := schedule.config
  match decideMisfire config.misfirePolicy config.misfireGraceSeconds scheduledAt now with
  | .execute latenessSeconds => ⟨scheduledAt, true, latenessSeconds, reason,
      dispatchDeadline config.misfirePolicy config.misfireGraceSeconds scheduledAt⟩
  | .skip latenessSeconds => ⟨scheduledAt, false, latenessSeconds,
      some "misfire policy rejected the late occurrence", none⟩

def skipped (scheduledAt now : Instant) (reason : String) : PlannedOccurrence :=
  ⟨scheduledAt, false, lateness scheduledAt now, some reason, none⟩

/-- The loop of the catch-up policy, for at most `rounds` more occurrences. -/
def catchUpLoop (schedule : Schedule) (recur : Instant → Except RecurrenceError Instant)
    (now : Instant) : ℕ → Instant → List PlannedOccurrence →
    Except RecurrenceError (Instant × List PlannedOccurrence)
  | 0, cursor, occurrences => .ok (cursor, occurrences)
  | rounds + 1, cursor, occurrences =>
    if cursor ≤ now then do
      let following ← recur cursor
      catchUpLoop schedule recur now rounds following
        (occurrences ++ [occurrence schedule cursor now none])
    else .ok (cursor, occurrences)

/-- The catch-up policy: occurrences older than the window and beyond the bound are summarised
by one skipped occurrence each. -/
def catchUp (schedule : Schedule) (recur : Instant → Except RecurrenceError Instant)
    (now firstDue : Instant) : Except RecurrenceError (Instant × List PlannedOccurrence) := do
  let oldest := now - seconds schedule.config.maxCatchupAgeSeconds
  let (cursor, occurrences) ←
    if firstDue < oldest then do
      let cursor ← recur oldest
      pure (cursor, [skipped firstDue now
        "occurrences older than max_catchup_age were summarized"])
    else pure (firstDue, [])
  let (cursor, occurrences) ← catchUpLoop schedule recur now
    (schedule.config.maxCatchupRuns - occurrences.length) cursor occurrences
  if cursor ≤ now then do
    let following ← recur now
    return (following, occurrences ++ [skipped cursor now
      "occurrences exceeding max_catchup_runs were summarized"])
  else return (cursor, occurrences)

/-- When a cron Schedule is due next, and the occurrences planned until then. -/
def cronOccurrences (schedule : Schedule) (recur : Instant → Except RecurrenceError Instant)
    (now firstDue : Instant) : Except RecurrenceError (Instant × List PlannedOccurrence) :=
  match schedule.config.catchupPolicy with
  | .skip => (recur now).map fun following =>
    (following, [skipped firstDue now "catch-up policy skipped missed occurrences"])
  | .runOnce => (recur now).map fun following =>
    (following, [occurrence schedule firstDue now (some "coalesced missed occurrences")])
  | .catchUp => catchUp schedule recur now firstDue

def planCron (schedule : Schedule) (owner : Uuid)
    (recur : Instant → Except RecurrenceError Instant) (now firstDue : Instant) :
    Except RecurrenceError SchedulePlan :=
  (cronOccurrences schedule recur now firstDue).map fun (nextRunAt, occurrences) =>
    ⟨schedule.id, owner, occurrences, some nextRunAt, false⟩

def plan (recurrence : Recurrence) (schedule : Schedule) (owner : Uuid) (now : Instant) :
    Except RecurrenceError SchedulePlan :=
  match schedule.nextRunAt with
  | none => .ok ⟨schedule.id, owner, [], none, true⟩
  | some firstDue =>
    match schedule.config.timing with
    | .once _ => .ok ⟨schedule.id, owner, [occurrence schedule firstDue now none], none, true⟩
    | .cron expression timezone =>
      planCron schedule owner (recurrence expression timezone) now firstDue

theorem plan_ok {recurrence : Recurrence} {schedule : Schedule} {owner : Uuid} {now : Instant}
    {p : SchedulePlan} (h : plan recurrence schedule owner now = .ok p) :
    p.scheduleId = schedule.id ∧ p.owner = owner := by
  unfold plan at h
  split at h
  · cases h
    exact ⟨rfl, rfl⟩
  rename_i firstDue _
  split at h
  · cases h
    exact ⟨rfl, rfl⟩
  · rename_i expression timezone _
    unfold planCron at h
    cases hdue : cronOccurrences schedule (recurrence expression timezone) now firstDue with
    | error e =>
      rw [hdue] at h
      cases h
    | ok due =>
      rw [hdue] at h
      cases h
      exact ⟨rfl, rfl⟩

end SchedulePlanner
