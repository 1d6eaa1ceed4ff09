import Crono.StoreHistory
import Crono.ScheduleStore

/-! Scheduler instances that share the Schedules through claims. An instance claims only when
it has handled its batch, and every other writer of a Schedule clears the claim, so that the
row behind a claim is still the row the claim read. -/
namespace ScheduleClaims

open RunDomain SqlTable ControlPlaneSchema RunStore ControlPlane StoreWrites SchedulePlanner
open ScheduleStore
open FallibleLists

/-- `runs_schedule_occurrence_unique`. -/
def OccurrencesUnique (s : Store) : Prop :=
  ∀ r ∈ s.runs, ∀ r' ∈ s.runs, r.scheduleId.isSome = true → r.scheduleId = r'.scheduleId →
    r.scheduledAt = r'.scheduledAt → r.targetId = r'.targetId → r = r'

theorem insertRun_occurrence {row : RunRow} {s t : Store} (h : insertRun row s = .ok t)
    (hscheduled : row.scheduleId.isSome = true) :
    ∀ r ∈ s.runs, ¬ (r.scheduleId = row.scheduleId ∧ r.scheduledAt = row.scheduledAt ∧
      r.targetId = row.targetId) := by
  intro r hr hsame
  unfold insertRun at h
  split at h
  · cases h
  split at h
  · cases h
  rename_i hindex
  apply hindex
  rw [hscheduled, Bool.true_and, List.any_eq_true]
  exact ⟨r, hr, by simp [hsame]⟩

theorem OccurrencesUnique.insertRun {s t : Store} (hs : OccurrencesUnique s) {row : RunRow}
    (h : insertRun row s = .ok t) : OccurrencesUnique t := by
  have hnew := insertRun_occurrence h
  obtain ⟨_, _, _, _, _, rfl⟩ := insertRun_ok h
  intro r hr r' hr' hsome hschedule hat htarget
  rcases List.mem_append.mp hr with hr | hr
  · rcases List.mem_append.mp hr' with hr' | hr'
    · exact hs r hr r' hr' hsome hschedule hat htarget
    · rw [List.mem_singleton.mp hr'] at hschedule hat htarget
      exact absurd ⟨hschedule, hat, htarget⟩ (hnew (hschedule ▸ hsome) r hr)
  · rw [List.mem_singleton.mp hr] at hsome hschedule hat htarget ⊢
    rcases List.mem_append.mp hr' with hr' | hr'
    · exact absurd ⟨hschedule.symm, hat.symm, htarget.symm⟩ (hnew hsome r' hr')
    · exact (List.mem_singleton.mp hr').symm

theorem OccurrencesUnique.updateRuns {s : Store} (hs : OccurrencesUnique s)
    {p : RunRow → Bool} {f : RunRow → RunRow} {now : Instant}
    (hf : ∀ r ∈ s.runs, p r = true → RunEvolves r (f r)) :
    OccurrencesUnique (updateRuns p f now s) := by
  have hkept {r' : RunRow} (hr' : r' ∈ update p f s.runs) :
      ∃ r ∈ s.runs, r' = (if p r then f r else r) ∧ r'.scheduleId = r.scheduleId ∧
        r'.scheduledAt = r.scheduledAt ∧ r'.targetId = r.targetId := by
    obtain ⟨r, hr, hrow⟩ := mem_update.mp hr'
    refine ⟨r, hr, hrow, ?_⟩
    rw [hrow]
    split
    · rename_i hp
      have hcolumns := (hf r hr hp).columns
      rw [hcolumns]
      exact ⟨rfl, rfl, rfl⟩
    · exact ⟨rfl, rfl, rfl⟩
  intro a ha b hb hsome hschedule hat htarget
  obtain ⟨r, hr, hrow, h₁, h₂, h₃⟩ := hkept ha
  obtain ⟨r', hr', hrow', h₁', h₂', h₃'⟩ := hkept hb
  have hsame : r = r' := by
    apply hs r hr r' hr'
    · rw [← h₁]
      exact hsome
    · rw [← h₁, ← h₁', hschedule]
    · rw [← h₂, ← h₂', hat]
    · rw [← h₃, ← h₃', htarget]
  rw [hrow, hrow', hsame]

theorem Write.occurrencesUnique {scope : Scope} {s t : Store} (h : Write scope s t)
    (hs : OccurrencesUnique s) : OccurrencesUnique t := by
  have hruns (hsame : t.runs = s.runs) : OccurrencesUnique t := by
    intro r hr r' hr'
    rw [hsame] at hr hr'
    exact hs r hr r' hr'
  cases h with
  | editCatalog => exact hruns rfl
  | workflow h => exact hruns h.runs
  | execution h =>
    cases h with
    | insertRun _ h => exact hs.insertRun h
    | updateRuns p f now hf => exact hs.updateRuns hf
    | insertRunRequest _ h =>
      obtain ⟨_, rfl⟩ := insertRunRequest_ok h
      exact hruns rfl
    | insertAttempt _ h =>
      obtain ⟨_, rfl⟩ := insertAttempt_ok h
      exact hruns rfl
    | insertOutbox h =>
      obtain ⟨_, rfl⟩ := insertOutbox_ok h
      exact hruns rfl
    | updateAttempts => exact hruns rfl
    | updateOutbox => exact hruns rfl
    | record => exact hruns rfl

theorem Writes.occurrencesUnique {scope : Scope} {s t : Store} (h : Writes scope s t)
    (hs : OccurrencesUnique s) : OccurrencesUnique t := by
  induction h with
  | refl => exact hs
  | tail _ hw ih => exact Write.occurrencesUnique hw ih

theorem reachable_occurrencesUnique {s : ControlPlane.State} (h : ControlPlane.Reachable s) :
    OccurrencesUnique s.store := by
  refine h.invariant_of (P := fun s => OccurrencesUnique s.store) (fun _ hs => hs) ?_ ?_
  · rintro s ⟨catalog, schedules, _, _, rfl⟩ r hr
    cases hr
  · intro s c t hreachable hs hstep
    exact Writes.occurrencesUnique (step_writes hreachable hstep) hs

theorem insertOccurrences_schedules {R : Rendering} {scheduleId : Uuid} {fresh : FreshOccurrences}
    {setInputs : Option Value} {inputs : Value} {now : Instant}
    {rows : List (PlannedOccurrence × ExecutionRow)} {s t : Store}
    (h : insertOccurrences R scheduleId fresh setInputs inputs now rows s = .ok t) :
    t.schedules = s.schedules := by
  induction rows generalizing s with
  | nil =>
    cases h
    rfl
  | cons row rest ih =>
    obtain ⟨s₁, h₁, h₂⟩ := ok_of_bind h
    rw [ih h₂]
    rcases insertScheduledOccurrence_ok h₁ with rfl | ⟨s₂, s₃, hrun, hdispatch, rfl⟩
    · rfl
    · obtain ⟨_, _, _, _, _, rfl⟩ := insertRun_ok hrun
      unfold dispatchOccurrence at hdispatch
      split at hdispatch
      · obtain ⟨_, _, rfl⟩ := createAttemptAndOutbox_ok hdispatch
        rfl
      · cases hdispatch
        rfl

def advancedRow (plan : SchedulePlan) (row : ScheduleRow) : ScheduleRow :=
  { row with
    nextRunAt := plan.nextRunAt
    lastRunAt := (plan.occurrences.getLast?.map PlannedOccurrence.scheduledAt).or row.lastRunAt
    enabled := if plan.disable then false else row.enabled
    claimOwner := none
    claimExpiresAt := none }

/-- A commit fails and changes nothing, or it finds the Schedule claimed by its owner, advances
it and clears the claim. -/
theorem commitSchedulePlan_spec (R : Rendering) (plan : SchedulePlan) (fresh : FreshOccurrences)
    (now : Instant) (s : Store) :
    (∃ e, commitSchedulePlan R plan fresh now s = (.error e, s)) ∨
      (commitSchedulePlan R plan fresh now s).1 = .ok () ∧
      (∃ row ∈ s.schedules, claimedSchedule plan row = true) ∧
      (commitSchedulePlan R plan fresh now s).2.schedules =
        update (claimedSchedule plan) (advancedRow plan) s.schedules := by
  unfold commitSchedulePlan
  split
  · exact .inl ⟨_, rfl⟩
  rename_i schedule hfind
  split
  · exact .inl ⟨_, rfl⟩
  rename_i t ht
  split
  · right
    obtain ⟨selection, _, ht⟩ := ok_of_bind ht
    obtain ⟨⟨executions, setInputs⟩, _, ht⟩ := ok_of_bind ht
    have hguard := List.find?_some hfind
    rw [Bool.and_eq_true] at hguard
    refine ⟨rfl, ⟨schedule, List.mem_of_find?_eq_some hfind, hguard.1⟩, ?_⟩
    rw [← insertOccurrences_schedules ht]
    rfl
  · exact .inl ⟨_, rfl⟩

/-- A scheduler process: the claimed Schedules it has not planned yet, and the plan it is about
to commit with the Schedule it was computed from. -/
structure Instance where
  owner : Uuid
  batch : List Schedule
  planned : Option (Schedule × SchedulePlan)
  deriving DecidableEq

def Instance.held (i : Instance) : List Schedule := i.batch ++ (i.planned.map Prod.fst).toList

/-- The control plane with the scheduler instances, every owner id drawn so far, and what each
claim returned. -/
structure State where
  control : ControlPlane.State
  config : Uuid → ScheduleConfig
  instances : List Instance
  owners : List Uuid
  claims : List (Uuid × Schedule)

abbrev State.store (s : State) : Store := s.control.store

inductive Command where
  | start (owner : Uuid)
  | claim (owner : Uuid) (limit : ℕ) (leaseSeconds : ℤ) (locked : ScheduleRow → Bool)
      (now : Instant) (delivered : List Schedule)
  | plan (owner : Uuid) (now : Instant)
  | commit (owner : Uuid) (R : Rendering) (fresh : FreshOccurrences) (now : Instant)
  | crash (owner : Uuid)
  | setEnabled (id : Uuid) (revision : ℕ) (enabled : Bool) (nextRunAt : Option Instant)
  | create (row : ScheduleRow)
  | control (c : ControlPlane.Command)

/-- What `claim_due_schedules` returns. -/
def returned (s : State) (owner : Uuid) (limit : ℕ) (leaseSeconds : ℤ)
    (locked : ScheduleRow → Bool) (now : Instant) : List Schedule :=
  (claimDueSchedules owner limit leaseSeconds locked now s.store).1.map (scheduleEntity s.config)

/-- A statement on `crono.schedules` alone. -/
def replaceSchedules (c : ControlPlane.State) (schedules : List ScheduleRow) :
    ControlPlane.State :=
  ControlPlane.next c (.editCatalog c.store.catalog schedules)

/-- Plan the next Schedule of the batch; a recurrence that fails drops it. -/
def planNext (recurrence : Recurrence) (now : Instant) (i : Instance) : Instance :=
  match i.batch with
  | [] => i
  | schedule :: rest =>
    match SchedulePlanner.plan recurrence schedule i.owner now with
    | .ok p => ⟨i.owner, rest, some (schedule, p)⟩
    | .error _ => ⟨i.owner, rest, none⟩

def ownedBy (owner : Uuid) (i : Instance) : Bool := i.owner = owner

def State.planOf (s : State) (owner : Uuid) : Option SchedulePlan :=
  ((s.instances.find? (ownedBy owner)).bind Instance.planned).map Prod.snd

def next (recurrence : Recurrence) (s : State) : Command → State
  | .start owner => { s with
      instances := ⟨owner, [], none⟩ :: s.instances
      owners := owner :: s.owners }
  | .claim owner limit leaseSeconds locked now delivered => { s with
      control := replaceSchedules s.control
        (claimDueSchedules owner limit leaseSeconds locked now s.store).2.schedules
      instances := update (ownedBy owner) (fun i => { i with batch := delivered }) s.instances
      claims := s.claims ++ delivered.map fun schedule => (owner, schedule) }
  | .plan owner now => { s with
      instances := update (ownedBy owner) (planNext recurrence now) s.instances }
  | .commit owner R fresh now =>
    match s.planOf owner with
    | none => s
    | some p => { s with
        control := ControlPlane.next s.control (.commitSchedulePlan R p fresh now)
        instances := update (ownedBy owner) (fun i => { i with planned := none }) s.instances }
  | .crash owner => { s with instances := s.instances.filter fun i => !ownedBy owner i }
  | .setEnabled id revision enabled nextRunAt => { s with
      control := replaceSchedules s.control
        (setScheduleEnabled id revision enabled nextRunAt s.store).2.schedules }
  | .create row => { s with
      control := replaceSchedules s.control (s.store.schedules ++ [row]) }
  | .control c => { s with control := ControlPlane.next s.control c }

/-- A process draws a new owner id, claims when its batch is done, and handles one Schedule at a
time; rows arrive in any order, or not at all. The other commands leave Schedules alone. -/
def Enabled (s : State) : Command → Prop
  | .start owner => owner ∉ s.owners
  | .claim owner limit leaseSeconds locked now delivered =>
    (∃ i ∈ s.instances, i.owner = owner ∧ i.batch = [] ∧ i.planned = none) ∧
      (delivered = [] ∨ delivered.Perm (returned s owner limit leaseSeconds locked now))
  | .plan owner _ => ∃ i ∈ s.instances, i.owner = owner ∧ i.planned = none
  | .commit owner _ _ _ => ∃ i ∈ s.instances, i.owner = owner ∧ i.planned.isSome = true
  | .create row => (∀ r ∈ s.store.schedules, r.id ≠ row.id) ∧ row.claimOwner = none
  | .control c => ControlPlane.Enabled s.control c ∧
      (ControlPlane.transact s.control c).schedules = s.store.schedules
  | .crash _ | .setEnabled _ _ _ _ => True

/-- A migrated database, no process yet; claims of older processes keep their owner ids. -/
def initial (s : State) : Prop :=
  ControlPlane.initial s.control ∧ (s.store.schedules.map ScheduleRow.id).Nodup ∧
    (∀ row ∈ s.store.schedules, ∀ owner, row.claimOwner = some owner → owner ∈ s.owners) ∧
    s.instances = [] ∧ s.claims = []

def system (recurrence : Recurrence) : TransitionSystem State Command where
  initial := initial
  Enabled := Enabled
  next := next recurrence

def CatalogKeys (s : Store) : Prop :=
  (s.catalog.jobs.map JobRow.id).Nodup ∧ (s.catalog.targets.map TargetRow.id).Nodup

theorem Writes.catalogKeys {scope : Scope} {s t : Store} (h : Writes scope s t)
    (hs : CatalogKeys s) : CatalogKeys t := by
  induction h with
  | refl => exact hs
  | tail _ hw ih =>
    rcases Write.catalog hw with hsame | ⟨hretains, _⟩
    · rw [CatalogKeys, hsame]
      exact ih
    · exact ⟨hretains.job_ids, hretains.target_ids⟩

theorem reachable_catalogKeys {s : ControlPlane.State} (h : ControlPlane.Reachable s) :
    CatalogKeys s.store := by
  refine h.invariant_of (P := fun s => CatalogKeys s.store) (fun _ hs => hs) ?_ ?_
  · rintro s ⟨catalog, schedules, hjobs, htargets, rfl⟩
    exact ⟨hjobs, htargets⟩
  · intro s c t hreachable hs hstep
    exact Writes.catalogKeys (step_writes hreachable hstep) hs

theorem retains_self {s : Store} (h : CatalogKeys s) : Retains s.catalog s where
  job_ids := h.1
  target_ids := h.2
  queues := fun q hq _ => ⟨q, hq, rfl⟩
  jobs := fun j hj _ => ⟨j, hj, rfl, rfl⟩
  targets := fun x hx _ => ⟨x, hx, rfl, rfl⟩

/-- A statement on Schedules alone is a step of the control plane. -/
theorem replaceSchedules_reachable {c : ControlPlane.State} (h : ControlPlane.Reachable c)
    (schedules : List ScheduleRow) : ControlPlane.Reachable (replaceSchedules c schedules) :=
  h.tail (e := .editCatalog c.store.catalog schedules)
    ⟨retains_self (reachable_catalogKeys h), rfl⟩

/-- While the instance holds the claim, the row is the one the claim read. -/
def Current (schedules : List ScheduleRow) (owner : Uuid) (schedule : Schedule) : Prop :=
  ∀ row ∈ schedules, row.id = schedule.id → row.claimOwner = some owner →
    row.enabled = schedule.enabled ∧ row.nextRunAt = schedule.nextRunAt

structure Invariant (recurrence : Recurrence) (s : State) : Prop where
  control : ControlPlane.Reachable s.control
  ids : (s.store.schedules.map ScheduleRow.id).Nodup
  distinct : (s.instances.map Instance.owner).Nodup
  drawn : ∀ i ∈ s.instances, i.owner ∈ s.owners
  known : ∀ row ∈ s.store.schedules, ∀ owner, row.claimOwner = some owner → owner ∈ s.owners
  claimed : ∀ i ∈ s.instances, ∀ schedule ∈ i.held, (i.owner, schedule) ∈ s.claims
  current : ∀ i ∈ s.instances, ∀ schedule ∈ i.held,
    Current s.store.schedules i.owner schedule
  planned : ∀ i ∈ s.instances, ∀ schedule p, i.planned = some (schedule, p) →
    ∃ now, SchedulePlanner.plan recurrence schedule i.owner now = .ok p

/-- A step that claims nothing: rows keep their claim or lose it, and instances hold no more
than before. -/
theorem Invariant.release {recurrence : Recurrence} {s t : State} (h : Invariant recurrence s)
    (hcontrol : ControlPlane.Reachable t.control)
    (hids : (t.store.schedules.map ScheduleRow.id).Nodup)
    (hrows : ∀ row ∈ t.store.schedules, row ∈ s.store.schedules ∨ row.claimOwner = none)
    (howners : t.owners = s.owners) (hclaims : t.claims = s.claims)
    (hdistinct : (t.instances.map Instance.owner).Nodup)
    (hheld : ∀ i ∈ t.instances, ∃ j ∈ s.instances, i.owner = j.owner ∧ i.held ⊆ j.held)
    (hplanned : ∀ i ∈ t.instances, ∀ schedule p, i.planned = some (schedule, p) →
      ∃ now, SchedulePlanner.plan recurrence schedule i.owner now = .ok p) :
    Invariant recurrence t where
  control := hcontrol
  ids := hids
  distinct := hdistinct
  drawn := by
    intro i hi
    obtain ⟨j, hj, howner, _⟩ := hheld i hi
    rw [howner, howners]
    exact h.drawn j hj
  known := by
    intro row hrow owner hclaim
    rw [howners]
    rcases hrows row hrow with hold | hnone
    · exact h.known row hold owner hclaim
    · rw [hnone] at hclaim
      cases hclaim
  claimed := by
    intro i hi schedule hschedule
    obtain ⟨j, hj, howner, hsub⟩ := hheld i hi
    rw [howner, hclaims]
    exact h.claimed j hj schedule (hsub hschedule)
  current := by
    intro i hi schedule hschedule row hrow hid hclaim
    obtain ⟨j, hj, howner, hsub⟩ := hheld i hi
    rcases hrows row hrow with hold | hnone
    · rw [howner] at hclaim
      exact h.current j hj schedule (hsub hschedule) row hold hid hclaim
    · rw [hnone] at hclaim
      cases hclaim
  planned := hplanned

theorem update_released {p : ScheduleRow → Bool} {f : ScheduleRow → ScheduleRow}
    {rows : List ScheduleRow} (hid : ∀ row, (f row).id = row.id)
    (hclear : ∀ row, (f row).claimOwner = none) :
    (update p f rows).map ScheduleRow.id = rows.map ScheduleRow.id ∧
      ∀ row ∈ update p f rows, row ∈ rows ∨ row.claimOwner = none := by
  refine ⟨map_update fun row _ _ => hid row, ?_⟩
  intro row hrow
  rcases update_cases hrow with ⟨hold, _⟩ | ⟨old, _, _, rfl⟩
  · exact .inl hold
  · exact .inr (hclear old)

theorem owners_update {p : Instance → Bool} {f : Instance → Instance} {instances : List Instance}
    (hf : ∀ i, (f i).owner = i.owner) :
    (update p f instances).map Instance.owner = instances.map Instance.owner :=
  map_update fun i _ _ => hf i

theorem planNext_owner (recurrence : Recurrence) (now : Instant) (i : Instance) :
    (planNext recurrence now i).owner = i.owner := by
  unfold planNext
  split
  · rfl
  · split <;> rfl

theorem planNext_held {recurrence : Recurrence} {now : Instant} {i : Instance} :
    (planNext recurrence now i).held ⊆ i.held := by
  unfold planNext
  split
  · exact fun _ h => h
  · rename_i schedule rest hbatch
    have hrest : rest ⊆ i.held := by
      intro x hx
      rw [Instance.held, hbatch]
      exact List.mem_append_left _ (List.mem_cons_of_mem schedule hx)
    split
    · intro x hx
      rcases List.mem_append.mp hx with hx | hx
      · exact hrest hx
      · rw [Instance.held, hbatch, List.mem_singleton.mp hx]
        exact List.mem_append_left _ List.mem_cons_self
    · intro x hx
      rcases List.mem_append.mp hx with hx | hx
      · exact hrest hx
      · exact absurd hx List.not_mem_nil

theorem planNext_planned {recurrence : Recurrence} {now : Instant} {i : Instance}
    {schedule : Schedule} {p : SchedulePlan}
    (h : (planNext recurrence now i).planned = some (schedule, p)) :
    i.planned = some (schedule, p) ∨
      SchedulePlanner.plan recurrence schedule i.owner now = .ok p := by
  unfold planNext at h
  split at h
  · exact .inl h
  split at h
  · rename_i hplan
    cases h
    exact .inr hplan
  · cases h

variable {recurrence : Recurrence} {s : State}

theorem Invariant.start (h : Invariant recurrence s) {owner : Uuid} (hfresh : owner ∉ s.owners) :
    Invariant recurrence (next recurrence s (.start owner)) where
  control := h.control
  ids := h.ids
  distinct := by
    refine List.nodup_cons.mpr ⟨?_, h.distinct⟩
    intro hmem
    obtain ⟨i, hi, howner⟩ := List.mem_map.mp hmem
    have hdrawn := h.drawn i hi
    rw [howner] at hdrawn
    exact hfresh hdrawn
  drawn := by
    intro i hi
    rcases List.mem_cons.mp hi with rfl | hi
    · exact List.mem_cons_self
    · exact List.mem_cons_of_mem owner (h.drawn i hi)
  known := fun row hrow o hclaim => List.mem_cons_of_mem owner (h.known row hrow o hclaim)
  claimed := by
    intro i hi schedule hschedule
    rcases List.mem_cons.mp hi with rfl | hi
    · exact absurd hschedule List.not_mem_nil
    · exact h.claimed i hi schedule hschedule
  current := by
    intro i hi schedule hschedule
    rcases List.mem_cons.mp hi with rfl | hi
    · exact absurd hschedule List.not_mem_nil
    · exact h.current i hi schedule hschedule
  planned := by
    intro i hi schedule p hp
    rcases List.mem_cons.mp hi with rfl | hi
    · cases hp
    · exact h.planned i hi schedule p hp

/-- A row after a claim is the row before it, or claimed by the owner with its columns kept. -/
theorem claimDueSchedules_rows {owner : Uuid} {limit : ℕ} {leaseSeconds : ℤ}
    {locked : ScheduleRow → Bool} {now : Instant} {t : Store} {row : ScheduleRow}
    (h : row ∈ (claimDueSchedules owner limit leaseSeconds locked now t).2.schedules) :
    row ∈ t.schedules ∨ row.claimOwner = some owner := by
  rcases update_cases h with ⟨hold, _⟩ | ⟨old, _, _, rfl⟩
  · exact .inl hold
  · exact .inr rfl

theorem claimDueSchedules_ids (owner : Uuid) (limit : ℕ) (leaseSeconds : ℤ)
    (locked : ScheduleRow → Bool) (now : Instant) (t : Store) :
    (claimDueSchedules owner limit leaseSeconds locked now t).2.schedules.map ScheduleRow.id =
      t.schedules.map ScheduleRow.id :=
  map_update fun _ _ _ => rfl

theorem returned_current {owner : Uuid} {limit : ℕ} {leaseSeconds : ℤ}
    {locked : ScheduleRow → Bool} {now : Instant}
    (hids : (s.store.schedules.map ScheduleRow.id).Nodup) {schedule : Schedule}
    (h : schedule ∈ returned s owner limit leaseSeconds locked now) (holder : Uuid) :
    Current (claimDueSchedules owner limit leaseSeconds locked now s.store).2.schedules holder
      schedule := by
  obtain ⟨claimed, hclaimed, rfl⟩ := List.mem_map.mp h
  intro row hrow hid _
  have hmem := (List.mem_filter.mp hclaimed).1
  have hsame : row = claimed := by
    refine row_unique ?_ hrow hmem hid
    rw [claimDueSchedules_ids]
    exact hids
  rw [hsame]
  exact ⟨rfl, rfl⟩

theorem Invariant.claim (h : Invariant recurrence s) {owner : Uuid} {limit : ℕ}
    {leaseSeconds : ℤ} {locked : ScheduleRow → Bool} {now : Instant} {delivered : List Schedule}
    (hc : Enabled s (.claim owner limit leaseSeconds locked now delivered)) :
    Invariant recurrence
      (next recurrence s (.claim owner limit leaseSeconds locked now delivered)) := by
  obtain ⟨⟨i₀, hi₀, howner₀, hbatch₀, hplanned₀⟩, hdelivered⟩ := hc
  have hreturned : ∀ schedule ∈ delivered,
      schedule ∈ returned s owner limit leaseSeconds locked now := by
    intro schedule hschedule
    rcases hdelivered with rfl | hperm
    · exact absurd hschedule List.not_mem_nil
    · exact hperm.mem_iff.mp hschedule
  -- only the claiming instance changes, and it held nothing before
  have hinstances {i : Instance} (hi : i ∈ update (ownedBy owner)
      (fun i => { i with batch := delivered }) s.instances) :
      (i ∈ s.instances ∧ i.owner ≠ owner) ∨
        i = ⟨owner, delivered, none⟩ := by
    rcases update_cases hi with ⟨hmem, hnot⟩ | ⟨j, hj, hown, rfl⟩
    · refine .inl ⟨hmem, ?_⟩
      simpa [ownedBy] using hnot
    · have hown : j.owner = owner := by simpa [ownedBy] using hown
      have hsame : j = i₀ := row_unique h.distinct hj hi₀ (by rw [hown, howner₀])
      right
      rw [hsame, howner₀, hplanned₀]
  constructor
  · exact replaceSchedules_reachable h.control _
  · have hids := claimDueSchedules_ids owner limit leaseSeconds locked now s.store
    exact hids.symm ▸ h.ids
  · have hsame : (update (ownedBy owner) (fun i => { i with batch := delivered })
        s.instances).map Instance.owner = s.instances.map Instance.owner :=
      owners_update fun _ => rfl
    exact hsame.symm ▸ h.distinct
  · intro i hi
    rcases hinstances hi with ⟨hold, _⟩ | rfl
    · exact h.drawn i hold
    · exact howner₀ ▸ h.drawn i₀ hi₀
  · intro row hrow o hclaim
    rcases claimDueSchedules_rows hrow with hold | howned
    · exact h.known row hold o hclaim
    · rw [howned, Option.some.injEq] at hclaim
      rw [← hclaim]
      exact howner₀ ▸ h.drawn i₀ hi₀
  · intro i hi schedule hschedule
    rcases hinstances hi with ⟨hold, _⟩ | rfl
    · exact List.mem_append_left _ (h.claimed i hold schedule hschedule)
    · rw [Instance.held, Option.map_none, Option.toList_none, List.append_nil] at hschedule
      exact List.mem_append_right _ (List.mem_map_of_mem hschedule)
  · intro i hi schedule hschedule
    rcases hinstances hi with ⟨hold, hother⟩ | rfl
    · intro row hrow hid hclaim
      rcases claimDueSchedules_rows hrow with hrow | howned
      · exact h.current i hold schedule hschedule row hrow hid hclaim
      · rw [howned, Option.some.injEq] at hclaim
        exact absurd hclaim.symm hother
    · rw [Instance.held, Option.map_none, Option.toList_none, List.append_nil] at hschedule
      exact returned_current h.ids (hreturned schedule hschedule) owner
  · intro i hi schedule p hp
    rcases hinstances hi with ⟨hold, _⟩ | rfl
    · exact h.planned i hold schedule p hp
    · cases hp

theorem Invariant.plan (h : Invariant recurrence s) (owner : Uuid) (now : Instant) :
    Invariant recurrence (next recurrence s (.plan owner now)) := by
  refine h.release h.control h.ids (fun row hrow => .inl hrow) rfl rfl ?_ ?_ ?_
  · exact (owners_update (planNext_owner recurrence now)).symm ▸ h.distinct
  · intro i hi
    rcases update_cases hi with ⟨hmem, _⟩ | ⟨j, hj, _, rfl⟩
    · exact ⟨i, hmem, rfl, fun _ hx => hx⟩
    · exact ⟨j, hj, planNext_owner recurrence now j, planNext_held⟩
  · intro i hi schedule p hp
    rcases update_cases hi with ⟨hmem, _⟩ | ⟨j, hj, _, rfl⟩
    · exact h.planned i hmem schedule p hp
    · rw [planNext_owner]
      rcases planNext_planned hp with hold | hnew
      · exact h.planned j hj schedule p hold
      · exact ⟨now, hnew⟩

theorem Invariant.commit (h : Invariant recurrence s) (owner : Uuid) (R : Rendering)
    (fresh : FreshOccurrences) (now : Instant) :
    Invariant recurrence (next recurrence s (.commit owner R fresh now)) := by
  simp only [next]
  split
  · exact h
  rename_i p _
  have hstore : (ControlPlane.next s.control (.commitSchedulePlan R p fresh now)).store =
      (commitSchedulePlan R p fresh now s.store).2 := rfl
  have hrows : (commitSchedulePlan R p fresh now s.store).2.schedules.map ScheduleRow.id =
        s.store.schedules.map ScheduleRow.id ∧
      ∀ row ∈ (commitSchedulePlan R p fresh now s.store).2.schedules,
        row ∈ s.store.schedules ∨ row.claimOwner = none := by
    rcases commitSchedulePlan_spec R p fresh now s.store with ⟨e, hfailed⟩ | ⟨_, _, hadvanced⟩
    · rw [hfailed]
      exact ⟨rfl, fun row hrow => .inl hrow⟩
    · rw [hadvanced]
      exact update_released (fun _ => rfl) fun _ => rfl
  refine h.release (h.control.tail (e := .commitSchedulePlan R p fresh now) ⟨trivial, rfl⟩)
    (hrows.1.symm ▸ h.ids) hrows.2 rfl rfl ?_ ?_ ?_
  · have hsame : (update (ownedBy owner) (fun i => { i with planned := none })
        s.instances).map Instance.owner = s.instances.map Instance.owner :=
      owners_update fun _ => rfl
    exact hsame.symm ▸ h.distinct
  · intro i hi
    rcases update_cases hi with ⟨hmem, _⟩ | ⟨j, hj, _, rfl⟩
    · exact ⟨i, hmem, rfl, fun _ hx => hx⟩
    · refine ⟨j, hj, rfl, ?_⟩
      intro x hx
      rw [Instance.held, Option.map_none, Option.toList_none, List.append_nil] at hx
      exact List.mem_append_left _ hx
  · intro i hi schedule q hq
    rcases update_cases hi with ⟨hmem, _⟩ | ⟨j, hj, _, rfl⟩
    · exact h.planned i hmem schedule q hq
    · cases hq

theorem Invariant.crash (h : Invariant recurrence s) (owner : Uuid) :
    Invariant recurrence (next recurrence s (.crash owner)) := by
  refine h.release h.control h.ids (fun row hrow => .inl hrow) rfl rfl ?_ ?_ ?_
  · exact h.distinct.sublist (List.filter_sublist.map _)
  · intro i hi
    exact ⟨i, (List.mem_filter.mp hi).1, rfl, fun _ hx => hx⟩
  · intro i hi
    exact h.planned i (List.mem_filter.mp hi).1

theorem Invariant.setEnabled (h : Invariant recurrence s) (id : Uuid) (revision : ℕ)
    (enabled : Bool) (nextRunAt : Option Instant) :
    Invariant recurrence (next recurrence s (.setEnabled id revision enabled nextRunAt)) := by
  have hrows : (setScheduleEnabled id revision enabled nextRunAt s.store).2.schedules.map
        ScheduleRow.id = s.store.schedules.map ScheduleRow.id ∧
      ∀ row ∈ (setScheduleEnabled id revision enabled nextRunAt s.store).2.schedules,
        row ∈ s.store.schedules ∨ row.claimOwner = none := by
    rcases setScheduleEnabled_cases id revision enabled nextRunAt s.store with
      ⟨e, hfailed⟩ | ⟨_, _, _, _, hchanged⟩
    · rw [hfailed]
      exact ⟨rfl, fun row hrow => .inl hrow⟩
    · rw [hchanged]
      exact update_released (fun _ => rfl) fun _ => rfl
  exact h.release (replaceSchedules_reachable h.control _) (hrows.1.symm ▸ h.ids) hrows.2 rfl rfl
    h.distinct (fun i hi => ⟨i, hi, rfl, fun _ hx => hx⟩) h.planned

theorem Invariant.create (h : Invariant recurrence s) {row : ScheduleRow}
    (hc : Enabled s (.create row)) : Invariant recurrence (next recurrence s (.create row)) := by
  refine h.release (replaceSchedules_reachable h.control _) (nodup_append_key h.ids hc.1) ?_ rfl rfl
    h.distinct (fun i hi => ⟨i, hi, rfl, fun _ hx => hx⟩) h.planned
  intro r hr
  rcases List.mem_append.mp hr with hr | hr
  · exact .inl hr
  · rw [List.mem_singleton.mp hr]
    exact .inr hc.2

theorem Invariant.control_step (h : Invariant recurrence s) {c : ControlPlane.Command}
    (hc : Enabled s (.control c)) : Invariant recurrence (next recurrence s (.control c)) := by
  have hschedules : (next recurrence s (.control c)).store.schedules = s.store.schedules := hc.2
  refine h.release (h.control.tail (e := c) ⟨hc.1, rfl⟩) (hschedules.symm ▸ h.ids) ?_ rfl rfl
    h.distinct (fun i hi => ⟨i, hi, rfl, fun _ hx => hx⟩) h.planned
  intro row hrow
  rw [hschedules] at hrow
  exact .inl hrow

theorem initial_invariant (h : (system recurrence).initial s) : Invariant recurrence s := by
  obtain ⟨hcontrol, hids, hknown, hinstances, _⟩ := h
  have hnone {i : Instance} (hi : i ∈ s.instances) : False := by
    rw [hinstances] at hi
    exact absurd hi List.not_mem_nil
  constructor
  · exact .initial hcontrol
  · exact hids
  · rw [hinstances]
    exact List.nodup_nil
  · exact fun i hi => (hnone hi).elim
  · exact hknown
  · exact fun i hi => (hnone hi).elim
  · exact fun i hi => (hnone hi).elim
  · exact fun i hi => (hnone hi).elim

theorem reachable_invariant (h : (system recurrence).Reachable s) : Invariant recurrence s := by
  refine h.invariant (fun s => initial_invariant) ?_
  rintro s c t hs ⟨hc, rfl⟩
  cases c with
  | start owner => exact hs.start hc
  | claim => exact hs.claim hc
  | plan owner now => exact hs.plan owner now
  | commit owner R fresh now => exact hs.commit owner R fresh now
  | crash owner => exact hs.crash owner
  | setEnabled id revision enabled nextRunAt =>
    exact hs.setEnabled id revision enabled nextRunAt
  | create => exact hs.create hc
  | control c => exact hs.control_step hc

/-- The Runs of an occurrence for one target. -/
def runsOf (s : Store) (scheduleId : Uuid) (scheduledAt : Instant) (targetId : Uuid) :
    List RunRow :=
  s.runs.filter fun r => r.scheduleId = some scheduleId && r.scheduledAt = scheduledAt &&
    r.targetId = targetId

theorem runsOf_length {s : Store} (hkeys : KeysUnique s) (hunique : OccurrencesUnique s)
    (scheduleId : Uuid) (scheduledAt : Instant) (targetId : Uuid) :
    (runsOf s scheduleId scheduledAt targetId).length ≤ 1 := by
  have hnodup : (runsOf s scheduleId scheduledAt targetId).Nodup :=
    (List.Nodup.of_map RunRow.id hkeys.runs).filter _
  rcases hruns : runsOf s scheduleId scheduledAt targetId with _ | ⟨a, _ | ⟨b, rest⟩⟩
  · exact Nat.zero_le 1
  · exact Nat.le_refl 1
  · have ha : a ∈ runsOf s scheduleId scheduledAt targetId := by simp [hruns]
    have hb : b ∈ runsOf s scheduleId scheduledAt targetId := by simp [hruns]
    simp only [runsOf, List.mem_filter, Bool.and_eq_true, decide_eq_true_eq] at ha hb
    obtain ⟨ha, ⟨hschedule, hat⟩, htarget⟩ := ha
    obtain ⟨hb, ⟨hschedule', hat'⟩, htarget'⟩ := hb
    have hsame : a = b := by
      apply hunique a ha b hb
      · rw [hschedule]
        rfl
      · rw [hschedule, hschedule']
      · rw [hat, hat']
      · rw [htarget, htarget']
    rw [hruns, hsame, List.nodup_cons] at hnodup
    exact absurd List.mem_cons_self hnodup.1

/-- The Schedule is as the claim read it, and the plan moves it and nothing else. -/
def Advances (schedule : Schedule) (p : SchedulePlan) (s t : Store) : Prop :=
  ∃ row ∈ s.schedules, row.id = schedule.id ∧ row.enabled = schedule.enabled ∧
    row.nextRunAt = schedule.nextRunAt ∧ (advancedRow p row).nextRunAt = p.nextRunAt ∧
    t.schedules = update (fun r => r.id = schedule.id) (advancedRow p) s.schedules

theorem update_claimed {rows : List ScheduleRow} (hids : (rows.map ScheduleRow.id).Nodup)
    {p : SchedulePlan} {row : ScheduleRow} (hrow : row ∈ rows)
    (hclaimed : claimedSchedule p row = true) (f : ScheduleRow → ScheduleRow) :
    update (claimedSchedule p) f rows = update (fun r => r.id = p.scheduleId) f rows := by
  simp only [claimedSchedule, Bool.and_eq_true, decide_eq_true_eq] at hclaimed
  apply update_congr
  · intro r hr
    by_cases hid : r.id = p.scheduleId
    · have hsame : r = row := row_unique hids hr hrow (hid.trans hclaimed.1.symm)
      simp [claimedSchedule, hsame, hclaimed.1, hclaimed.2]
    · simp [claimedSchedule, hid]

theorem Invariant.advances (h : Invariant recurrence s) {i : Instance} (hi : i ∈ s.instances)
    {schedule : Schedule} {p : SchedulePlan} (hplanned : i.planned = some (schedule, p))
    {R : Rendering} {fresh : FreshOccurrences} {now : Instant}
    (hok : (commitSchedulePlan R p fresh now s.store).1 = .ok ()) :
    Advances schedule p s.store (commitSchedulePlan R p fresh now s.store).2 := by
  obtain ⟨planNow, hplan⟩ := h.planned i hi schedule p hplanned
  obtain ⟨hid, howner⟩ := plan_ok hplan
  rcases commitSchedulePlan_spec R p fresh now s.store with ⟨e, hfailed⟩ | ⟨_, hfound, hmoved⟩
  · rw [hfailed] at hok
    cases hok
  obtain ⟨row, hrow, hclaimed⟩ := hfound
  have hguard := hclaimed
  simp only [claimedSchedule, Bool.and_eq_true, decide_eq_true_eq] at hguard
  have hheld : schedule ∈ i.held := by
    rw [Instance.held, hplanned]
    exact List.mem_append_right _ List.mem_cons_self
  obtain ⟨henabled, hnext⟩ := h.current i hi schedule hheld row hrow (hguard.1.trans hid)
    (howner ▸ hguard.2)
  refine ⟨row, hrow, hguard.1.trans hid, henabled, hnext, rfl, ?_⟩
  rw [hmoved, update_claimed h.ids hrow hclaimed, hid]

/-- An owner identifies its instance, so the command commits the plan of that instance. -/
theorem Invariant.commit_store (h : Invariant recurrence s) {i : Instance} (hi : i ∈ s.instances)
    {schedule : Schedule} {p : SchedulePlan} (hplanned : i.planned = some (schedule, p))
    (R : Rendering) (fresh : FreshOccurrences) (now : Instant) :
    (next recurrence s (.commit i.owner R fresh now)).store =
      (commitSchedulePlan R p fresh now s.store).2 := by
  have hfind : s.instances.find? (ownedBy i.owner) = some i := find?_key h.distinct hi
  have hplan : s.planOf i.owner = some p := by
    rw [State.planOf, hfind, Option.bind_some, hplanned]
    rfl
  simp only [next, hplan]
  rfl

/-- In every run of any number of instances, an instance plans from a Schedule one of its claims
returned. Its commit succeeds only while the Schedule is as that claim read it, and then moves it
to the plan's next run; a commit that fails changes nothing; and an occurrence has at most one Run
for each target. -/
theorem no_stale_plan_commits {recurrence : Recurrence} {s : State}
    (h : (system recurrence).Reachable s) :
    (∀ scheduleId scheduledAt targetId,
        (runsOf s.store scheduleId scheduledAt targetId).length ≤ 1) ∧
      ∀ i ∈ s.instances, ∀ schedule p, i.planned = some (schedule, p) →
        (i.owner, schedule) ∈ s.claims ∧
        (∃ now, SchedulePlanner.plan recurrence schedule i.owner now = .ok p) ∧
        ∀ R fresh now,
          let outcome := commitSchedulePlan R p fresh now s.store
          (next recurrence s (.commit i.owner R fresh now)).store = outcome.2 ∧
            (outcome.1 = .ok () → Advances schedule p s.store outcome.2) ∧
            (outcome.1 ≠ .ok () → outcome.2 = s.store) := by
  have hs := reachable_invariant h
  refine ⟨runsOf_length (reachable_keysUnique hs.control) (reachable_occurrencesUnique hs.control),
    ?_⟩
  intro i hi schedule p hplanned
  have hheld : schedule ∈ i.held := by
    rw [Instance.held, hplanned]
    exact List.mem_append_right _ List.mem_cons_self
  refine ⟨hs.claimed i hi schedule hheld, hs.planned i hi schedule p hplanned, ?_⟩
  intro R fresh now
  refine ⟨hs.commit_store hi hplanned R fresh now, hs.advances hi hplanned, ?_⟩
  intro hfailed
  rcases commitSchedulePlan_spec R p fresh now s.store with ⟨e, hsame⟩ | ⟨hok, _⟩
  · rw [hsame]
  · exact absurd hok hfailed

def demoScheduleRow : ScheduleRow :=
  ⟨40, 3, 2, some 4, none, .object [], true, some (seconds 1), none, 0, none, none⟩

def demoConfig : ScheduleConfig :=
  ⟨.cron "0 0 * * *" "UTC", .runLate, none, .runOnce, 1, 86400⟩

def demoRecurrence : Recurrence := fun _ _ after =>
  .ok (after - after % seconds 86400 + seconds 86400)

def demoState : State :=
  ⟨⟨emptyStore demoCatalog [demoScheduleRow], [], [], [], []⟩, fun _ => demoConfig, [], [], []⟩

def demoSchedule : Schedule := ⟨40, true, some (seconds 1), demoConfig⟩

/-- Instance 41 claims the Schedule at second two and plans it at second three. -/
def demoCommands : List Command :=
  [.start 41, .claim 41 100 30 (fun _ => false) (seconds 2) [demoSchedule], .plan 41 (seconds 3)]

theorem demoCommands_admitted : (system demoRecurrence).Admits demoState demoCommands := by
  refine ⟨List.not_mem_nil, ⟨?_, .inr ?_⟩, ?_, trivial⟩
  · exact ⟨⟨41, [], none⟩, List.mem_cons_self, rfl, rfl, rfl⟩
  · decide +kernel
  · exact ⟨⟨41, [demoSchedule], none⟩, by decide +kernel, rfl, rfl⟩

def demoPlanned : State := (system demoRecurrence).run demoState demoCommands

def demoPlan : SchedulePlan :=
  ⟨40, 41, [⟨seconds 1, true, 2, some "coalesced missed occurrences", none⟩],
    some (seconds 86400), false⟩

/-- Committed in time the plan creates one Run and moves the Schedule; committed after the lease
it changes nothing. -/
theorem no_stale_plan_commits_demo :
    Advances demoSchedule demoPlan demoPlanned.store
        (commitSchedulePlan demoRendering demoPlan ⟨fun _ _ => 42, fun _ _ => ⟨43, 44⟩⟩ (seconds 4)
          demoPlanned.store).2 ∧
      (commitSchedulePlan demoRendering demoPlan ⟨fun _ _ => 42, fun _ _ => ⟨43, 44⟩⟩ (seconds 60)
        demoPlanned.store).2 = demoPlanned.store := by
  have hreachable : (system demoRecurrence).Reachable demoPlanned := by
    refine ⟨demoState, ⟨⟨_, _, by decide, by decide, rfl⟩, by decide, ?_, rfl, rfl⟩,
      .of_admits demoCommands_admitted⟩
    decide
  have hcommits := (no_stale_plan_commits hreachable).2 ⟨41, [], some (demoSchedule, demoPlan)⟩
    (by decide +kernel) demoSchedule demoPlan rfl
  refine ⟨(hcommits.2.2 _ _ _).2.1 ?_, (hcommits.2.2 _ _ _).2.2 ?_⟩
  · decide +kernel
  · decide +kernel

end ScheduleClaims
