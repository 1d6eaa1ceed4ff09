import Crono.RunStore
import Crono.SchedulePlanner

/-! The statements on `crono.schedules` besides the commit of a plan: the claim of a scheduler
instance, and the call that enables or disables a Schedule at the revision it read. -/
namespace ScheduleStore

open RunDomain SqlTable ControlPlaneSchema SchedulePlanner

def scheduleOrder (a b : ScheduleRow) : Prop :=
  a.nextRunAt.getD 0 < b.nextRunAt.getD 0 ∨
    (a.nextRunAt.getD 0 = b.nextRunAt.getD 0 ∧ a.id ≤ b.id)

instance : DecidableRel scheduleOrder := fun a b => inferInstanceAs (Decidable
  (a.nextRunAt.getD 0 < b.nextRunAt.getD 0 ∨
    (a.nextRunAt.getD 0 = b.nextRunAt.getD 0 ∧ a.id ≤ b.id)))

/-- The filter of `claim_due_schedules`. -/
def dueSchedule (now : Instant) (row : ScheduleRow) : Bool :=
  row.enabled && (row.nextRunAt.any fun t => t ≤ now) && row.claimExpiresAt.all fun e => e < now

def claimedRow (owner : Uuid) (expires : Instant) (row : ScheduleRow) : ScheduleRow :=
  { row with claimOwner := some owner, claimExpiresAt := some expires }

/-- `claim_due_schedules`: the rows it returns, as its update left them. -/
def claimDueSchedules (owner : Uuid) (limit : ℕ) (leaseSeconds : ℤ)
    (locked : ScheduleRow → Bool) (now : Instant) (s : Store) : List ScheduleRow × Store :=
  let candidates := selectBatch (dueSchedule now) locked scheduleOrder limit s.schedules
  let claimed : ScheduleRow → Bool := fun row => candidates.any fun c => c.id = row.id
  let schedules := update claimed (claimedRow owner (now + seconds leaseSeconds)) s.schedules
  (schedules.filter claimed, { s with schedules := schedules })

def scheduleEntity (config : Uuid → ScheduleConfig) (row : ScheduleRow) : Schedule :=
  ⟨row.id, row.enabled, row.nextRunAt, config row.id⟩

def enabledRow (enabled : Bool) (nextRunAt : Option Instant) (row : ScheduleRow) : ScheduleRow :=
  { row with
    enabled := enabled
    nextRunAt := nextRunAt
    revision := row.revision + 1
    claimOwner := none
    claimExpiresAt := none }

/-- The guard of `set_schedule_enabled`. -/
def atRevision (id : Uuid) (revision : ℕ) (row : ScheduleRow) : Bool :=
  row.id = id && row.revision = revision

/-- `set_schedule_enabled`. A revision outside `bigint` is no stored revision. -/
def setScheduleEnabled (id : Uuid) (revision : ℕ) (enabled : Bool) (nextRunAt : Option Instant)
    (s : Store) : Outcome ScheduleRow :=
  if 2 ^ 63 ≤ revision then (.error .staleRevision, s)
  else
    match s.schedules.find? (atRevision id revision) with
    | none => (.error .staleRevision, s)
    | some row =>
      if 2 ^ 63 ≤ revision + 1 then (.error .internal, s)
      else (.ok (enabledRow enabled nextRunAt row), { s with
        schedules := update (atRevision id revision) (enabledRow enabled nextRunAt) s.schedules })

theorem setScheduleEnabled_cases (id : Uuid) (revision : ℕ) (enabled : Bool)
    (nextRunAt : Option Instant) (s : Store) :
    (∃ e, setScheduleEnabled id revision enabled nextRunAt s = (.error e, s)) ∨
      ∃ row ∈ s.schedules, row.id = id ∧ row.revision = revision ∧
        setScheduleEnabled id revision enabled nextRunAt s =
          (.ok (enabledRow enabled nextRunAt row), { s with
            schedules := update (atRevision id revision) (enabledRow enabled nextRunAt)
              s.schedules }) := by
  unfold setScheduleEnabled
  split
  · exact .inl ⟨_, rfl⟩
  split
  · exact .inl ⟨_, rfl⟩
  rename_i row hrow
  split
  · exact .inl ⟨_, rfl⟩
  · have hguard := List.find?_some hrow
    simp only [atRevision, Bool.and_eq_true, decide_eq_true_eq] at hguard
    exact .inr ⟨row, List.mem_of_find?_eq_some hrow, hguard.1, hguard.2, rfl⟩

end ScheduleStore
