import Crono.OrderedPoints
import Crono.ScheduleClaims
import Mathlib.Data.Int.Interval

/-! The backlog of a recurring Schedule: every due occurrence is planned on its own or summarised by
an earlier one, plan after plan. -/
namespace ScheduleBacklog

open RunDomain ControlPlaneSchema SchedulePlanner OrderedPoints

variable {genuine : Set Instant} {recur : Instant → Except RecurrenceError Instant}
  {schedule : Schedule} {now firstDue : Instant}

/-- `next_cron_occurrence` answers with the least occurrence after its argument. -/
def Follows (genuine : Set Instant) (recur : Instant → Except RecurrenceError Instant) : Prop :=
  ∀ t, ∃ n, recur t = .ok n ∧ Next genuine t n

/-- `validate_schedule_policy`, and the constraints of the table. -/
structure PolicyValid (config : ScheduleConfig) : Prop where
  grace : config.misfireGraceSeconds.isSome = true ↔ config.misfirePolicy = .gracePeriod
  runs : 1 ≤ config.maxCatchupRuns ∧ config.maxCatchupRuns ≤ 1000
  age : 60 ≤ config.maxCatchupAgeSeconds ∧ config.maxCatchupAgeSeconds ≤ 31536000

/-- The oldest instant the catch-up policy still looks at. -/
def oldestKept (schedule : Schedule) (now : Instant) : Instant :=
  now - seconds schedule.config.maxCatchupAgeSeconds

theorem oldestKept_le (schedule : Schedule) (now : Instant) : oldestKept schedule now ≤ now := by
  have hage : (0 : ℤ) ≤ seconds schedule.config.maxCatchupAgeSeconds :=
    Int.mul_nonneg (by decide) (Int.natCast_nonneg _)
  exact Int.sub_le_self now hage

/-- The loop plans the first occurrences of the backlog and leaves the rest. -/
theorem catchUpLoop_spec (h : Follows genuine recur) (schedule : Schedule) (now : Instant)
    (rounds : ℕ) {cursor : Instant} (hcursor : cursor ∈ genuine)
    (occurrences : List PlannedOccurrence) :
    ∃ c, catchUpLoop schedule recur now rounds cursor occurrences =
        .ok (c, occurrences ++ ((points genuine cursor now).take rounds).map fun g =>
          occurrence schedule g now none) ∧
      c ∈ genuine ∧ points genuine c now = (points genuine cursor now).drop rounds ∧
      ∀ g ∈ genuine, cursor ≤ g → g < c → g ≤ now := by
  induction rounds generalizing cursor occurrences with
  | zero =>
    refine ⟨cursor, ?_, hcursor, rfl, ?_⟩
    · simp [catchUpLoop]
    · exact fun g _ hle hlt => absurd hle (not_le.mpr hlt)
  | succ rounds ih =>
    by_cases hdue : cursor ≤ now
    · obtain ⟨following, hrecur, hnext⟩ := h cursor
      obtain ⟨c, hloop, hc, hrest, hpast⟩ :=
        ih hnext.1.1 (occurrences ++ [occurrence schedule cursor now none])
      have hpoints := points_cons hcursor hdue hnext
      refine ⟨c, ?_, hc, ?_, ?_⟩
      · rw [catchUpLoop, if_pos hdue, hrecur]
        change catchUpLoop schedule recur now rounds following _ = _
        rw [hloop, hpoints, List.take_succ_cons, List.map_cons, List.append_assoc]
        rfl
      · rw [hrest, hpoints, List.drop_succ_cons]
      · intro g hg hle hlt
        rcases hle.eq_or_lt with rfl | hafter
        · exact hdue
        · exact hpast g hg (hnext.2 ⟨hg, hafter⟩) hlt
    · have hpoints : points genuine cursor now = [] := points_eq_nil (not_le.mp hdue)
      refine ⟨cursor, ?_, hcursor, ?_, ?_⟩
      · rw [catchUpLoop, if_neg hdue, hpoints]
        simp
      · rw [hpoints, List.drop_nil]
      · exact fun g _ hle hlt => absurd hle (not_le.mpr hlt)

def ageSummary (schedule : Schedule) (now firstDue : Instant) : List PlannedOccurrence :=
  if firstDue < oldestKept schedule now then
    [skipped firstDue now "occurrences older than max_catchup_age were summarized"]
  else []

def countSummary (now : Instant) : List Instant → List PlannedOccurrence
  | [] => []
  | cursor :: _ => [skipped cursor now "occurrences exceeding max_catchup_runs were summarized"]

def Starts (genuine : Set Instant) (schedule : Schedule) (now firstDue start : Instant) : Prop :=
  if firstDue < oldestKept schedule now then Next genuine (oldestKept schedule now) start
  else start = firstDue

def allowance (schedule : Schedule) (now firstDue : Instant) : ℕ :=
  schedule.config.maxCatchupRuns - (ageSummary schedule now firstDue).length

def caughtUp (schedule : Schedule) (now firstDue : Instant) (backlog : List Instant) :
    List PlannedOccurrence :=
  ageSummary schedule now firstDue ++
    ((backlog.take (allowance schedule now firstDue)).map fun g =>
      occurrence schedule g now none) ++
    countSummary now (backlog.drop (allowance schedule now firstDue))

/-- The end of the walk: the count summary, when it stopped early. -/
def endWalk (recur : Instant → Except RecurrenceError Instant) (now : Instant)
    (walk : Instant × List PlannedOccurrence) :
    Except RecurrenceError (Instant × List PlannedOccurrence) :=
  if walk.1 ≤ now then do
    let following ← recur now
    return (following, walk.2 ++ [skipped walk.1 now
      "occurrences exceeding max_catchup_runs were summarized"])
  else return walk

theorem catchUp_spec (h : Follows genuine recur) (schedule : Schedule)
    (hfirst : firstDue ∈ genuine) (hdue : firstDue ≤ now) :
    ∃ start next, Starts genuine schedule now firstDue start ∧ start ∈ genuine ∧
      Next genuine now next ∧
      catchUp schedule recur now firstDue =
        .ok (next, caughtUp schedule now firstDue (points genuine start now)) := by
  -- the start of the walk, with the first summary already written
  have hstart : ∃ start, Starts genuine schedule now firstDue start ∧ start ∈ genuine ∧
      (∀ g ∈ genuine, now < g → start ≤ g) ∧
      catchUp schedule recur now firstDue =
        (catchUpLoop schedule recur now (allowance schedule now firstDue) start
          (ageSummary schedule now firstDue)).bind (endWalk recur now) := by
    unfold catchUp Starts allowance ageSummary
    by_cases hold : firstDue < oldestKept schedule now
    · obtain ⟨start, hrecur, hnext⟩ := h (oldestKept schedule now)
      refine ⟨start, ?_, hnext.1.1, ?_, ?_⟩
      · rw [if_pos hold]
        exact hnext
      · exact fun g hg hlt => hnext.2 ⟨hg, (oldestKept_le schedule now).trans_lt hlt⟩
      · change (if firstDue < oldestKept schedule now then _ else _) = _
        rw [if_pos hold, if_pos hold]
        change (recur (oldestKept schedule now) >>= _) = _
        rw [hrecur]
        rfl
    · refine ⟨firstDue, ?_, hfirst, ?_, ?_⟩
      · rw [if_neg hold]
      · exact fun g _ hlt => hdue.trans hlt.le
      · change (if firstDue < oldestKept schedule now then _ else _) = _
        rw [if_neg hold, if_neg hold]
        rfl
  obtain ⟨start, hstarts, hgenuine, hahead, hcatchUp⟩ := hstart
  obtain ⟨c, hloop, hc, hrest, hpast⟩ := catchUpLoop_spec h schedule now
    (allowance schedule now firstDue) hgenuine (ageSummary schedule now firstDue)
  rw [hloop] at hcatchUp
  by_cases hleft : c ≤ now
  · obtain ⟨next, hrecur, hnext⟩ := h now
    obtain ⟨following, _, hafter⟩ := h c
    refine ⟨start, next, hstarts, hgenuine, hnext, ?_⟩
    rw [hcatchUp, caughtUp, ← hrest, points_cons hc hleft hafter]
    change (if c ≤ now then _ else _) = _
    rw [if_pos hleft, hrecur]
    rfl
  · refine ⟨start, c, hstarts, hgenuine, ⟨⟨hc, not_le.mp hleft⟩, ?_⟩, ?_⟩
    · rintro g ⟨hg, hlt⟩
      by_contra hbefore
      have hle := hpast g hg (hahead g hg hlt) (not_le.mp hbefore)
      exact absurd hlt (not_lt.mpr hle)
    · rw [hcatchUp, caughtUp, ← hrest, points_eq_nil (not_le.mp hleft), countSummary,
        List.append_nil]
      change (if c ≤ now then _ else _) = _
      rw [if_neg hleft]
      rfl

/-- The entry stands for the occurrences after it. -/
def Summarizes (config : ScheduleConfig) (o : PlannedOccurrence) : Prop :=
  config.catchupPolicy = .runOnce ∨
    o.reason ∈ [some "catch-up policy skipped missed occurrences",
      some "occurrences older than max_catchup_age were summarized",
      some "occurrences exceeding max_catchup_runs were summarized"]

/-- The entries are due occurrences before `upto` in order, and a due occurrence that is not one
of them lies between a summary and the entry after it. -/
structure Accounts (genuine : Set Instant) (config : ScheduleConfig) (firstDue upto : Instant)
    (entries : List PlannedOccurrence) : Prop where
  increasing : (entries.map PlannedOccurrence.scheduledAt).Pairwise (· < ·)
  due : ∀ o ∈ entries, o.scheduledAt ∈ genuine ∧ firstDue ≤ o.scheduledAt ∧ o.scheduledAt < upto
  covered : ∀ g ∈ genuine, firstDue ≤ g → g < upto → (∃ o ∈ entries, o.scheduledAt = g) ∨
    ∃ o ∈ entries, Summarizes config o ∧ o.scheduledAt < g ∧
      ∀ o' ∈ entries, o'.scheduledAt ≤ o.scheduledAt ∨ g < o'.scheduledAt

theorem occurrence_scheduledAt (schedule : Schedule) (scheduledAt now : Instant)
    (reason : Option String) : (occurrence schedule scheduledAt now reason).scheduledAt =
      scheduledAt := by
  unfold occurrence
  simp only
  split <;> rfl

theorem accounts_single {config : ScheduleConfig} {upto : Instant} {o : PlannedOccurrence}
    (hfirst : firstDue ∈ genuine) (hupto : firstDue < upto) (hat : o.scheduledAt = firstDue)
    (hsummary : Summarizes config o) : Accounts genuine config firstDue upto [o] where
  increasing := List.pairwise_singleton _ _
  due := by
    intro o' ho'
    rw [List.mem_singleton.mp ho', hat]
    exact ⟨hfirst, le_rfl, hupto⟩
  covered := by
    intro g _ hle _
    rcases hle.eq_or_lt with rfl | hlt
    · exact .inl ⟨o, List.mem_singleton.mpr rfl, hat⟩
    · refine .inr ⟨o, List.mem_singleton.mpr rfl, hsummary, hat ▸ hlt, ?_⟩
      intro o' ho'
      rw [List.mem_singleton.mp ho']
      exact .inl le_rfl

theorem caughtUp_instants (schedule : Schedule) (now firstDue : Instant) (backlog : List Instant) :
    (caughtUp schedule now firstDue backlog).map PlannedOccurrence.scheduledAt =
      (ageSummary schedule now firstDue).map PlannedOccurrence.scheduledAt ++
        backlog.take (allowance schedule now firstDue + 1) := by
  unfold caughtUp
  rw [List.map_append, List.map_append, List.append_assoc, List.map_map, List.take_add]
  congr 2
  · conv_rhs => rw [← List.map_id (backlog.take _)]
    apply List.map_congr_left
    exact fun g _ => occurrence_scheduledAt schedule g now none
  · cases backlog.drop (allowance schedule now firstDue) with
    | nil => rfl
    | cons cursor rest => rfl

theorem mem_caughtUp {backlog : List Instant} {o : PlannedOccurrence} :
    o ∈ caughtUp schedule now firstDue backlog ↔ o ∈ ageSummary schedule now firstDue ∨
      (∃ g ∈ backlog.take (allowance schedule now firstDue),
        occurrence schedule g now none = o) ∨
      o ∈ countSummary now (backlog.drop (allowance schedule now firstDue)) := by
  unfold caughtUp
  rw [List.mem_append, List.mem_append, List.mem_map, or_assoc]

theorem mem_ageSummary {o : PlannedOccurrence} (h : o ∈ ageSummary schedule now firstDue) :
    firstDue < oldestKept schedule now ∧ o.scheduledAt = firstDue ∧
      Summarizes schedule.config o := by
  unfold ageSummary at h
  split at h
  · rename_i hold
    rw [List.mem_singleton.mp h]
    exact ⟨hold, rfl, .inr (by simp [skipped])⟩
  · cases h

theorem Starts.le {start : Instant} (h : Starts genuine schedule now firstDue start) :
    firstDue ≤ start := by
  unfold Starts at h
  split at h
  · rename_i hold
    exact (hold.trans h.1.2).le
  · exact h.ge

theorem Starts.lt {start : Instant} (h : Starts genuine schedule now firstDue start)
    (hold : firstDue < oldestKept schedule now) : firstDue < start := by
  unfold Starts at h
  rw [if_pos hold] at h
  exact hold.trans h.1.2

/-- An entry is the summary of the older occurrences or one of the first of the backlog. -/
theorem caughtUp_instant {backlog : List Instant} {o : PlannedOccurrence}
    (h : o ∈ caughtUp schedule now firstDue backlog) :
    (firstDue < oldestKept schedule now ∧ o.scheduledAt = firstDue) ∨
      o.scheduledAt ∈ backlog.take (allowance schedule now firstDue + 1) := by
  have hmem := List.mem_map_of_mem (f := PlannedOccurrence.scheduledAt) h
  rw [caughtUp_instants, List.mem_append] at hmem
  rcases hmem with hage | htake
  · obtain ⟨o', ho', hat⟩ := List.mem_map.mp hage
    obtain ⟨hold, hfirst, _⟩ := mem_ageSummary ho'
    exact .inl ⟨hold, hat ▸ hfirst⟩
  · exact .inr htake

theorem caughtUp_listed {backlog : List Instant} {g : Instant}
    (h : g ∈ backlog.take (allowance schedule now firstDue + 1)) :
    ∃ o ∈ caughtUp schedule now firstDue backlog, o.scheduledAt = g := by
  have hmem : g ∈ (caughtUp schedule now firstDue backlog).map PlannedOccurrence.scheduledAt := by
    rw [caughtUp_instants]
    exact List.mem_append_right _ h
  exact List.mem_map.mp hmem

theorem caughtUp_older {start g : Instant} (hstarts : Starts genuine schedule now firstDue start)
    (hle : firstDue ≤ g) (hbefore : g < start)
    (hlisted : ¬ ∃ o ∈ caughtUp schedule now firstDue (points genuine start now),
      o.scheduledAt = g) :
    ∃ o ∈ caughtUp schedule now firstDue (points genuine start now), Summarizes schedule.config o ∧
      o.scheduledAt < g ∧ ∀ o' ∈ caughtUp schedule now firstDue (points genuine start now),
        o'.scheduledAt ≤ o.scheduledAt ∨ g < o'.scheduledAt := by
  have hold : firstDue < oldestKept schedule now := by
    by_contra hnot
    unfold Starts at hstarts
    rw [if_neg hnot] at hstarts
    exact absurd (hstarts ▸ hbefore) (not_lt.mpr hle)
  have hsummary : skipped firstDue now "occurrences older than max_catchup_age were summarized"
      ∈ ageSummary schedule now firstDue := by
    unfold ageSummary
    rw [if_pos hold]
    exact List.mem_singleton.mpr rfl
  have hmem : _ ∈ caughtUp schedule now firstDue (points genuine start now) :=
    mem_caughtUp.mpr (.inl hsummary)
  refine ⟨_, hmem, (mem_ageSummary hsummary).2.2, ?_, ?_⟩
  · exact hle.lt_of_ne fun h => hlisted ⟨_, hmem, h⟩
  · intro o' ho'
    rcases caughtUp_instant ho' with ⟨_, hat⟩ | htake
    · exact .inl hat.le
    · exact .inr (hbefore.trans_le (mem_points.mp (List.mem_of_mem_take htake)).2.1)

/-- What the count limit leaves out lies after the last summary. -/
theorem caughtUp_beyond {start g : Instant} (hstarts : Starts genuine schedule now firstDue start)
    (hbeyond : g ∈ (points genuine start now).drop (allowance schedule now firstDue + 1)) :
    ∃ o ∈ caughtUp schedule now firstDue (points genuine start now), Summarizes schedule.config o ∧
      o.scheduledAt < g ∧ ∀ o' ∈ caughtUp schedule now firstDue (points genuine start now),
        o'.scheduledAt ≤ o.scheduledAt ∨ g < o'.scheduledAt := by
  cases hrest : (points genuine start now).drop (allowance schedule now firstDue) with
  | nil =>
    rw [← List.drop_drop, hrest] at hbeyond
    cases hbeyond
  | cons cursor rest =>
    rw [← List.drop_drop, hrest] at hbeyond
    have hsplit : points genuine start now =
        (points genuine start now).take (allowance schedule now firstDue) ++ cursor :: rest := by
      rw [← hrest, List.take_append_drop]
    have hordered := points_increasing genuine start now
    rw [hsplit, List.pairwise_append] at hordered
    obtain ⟨_, hafter, hcross⟩ := hordered
    have hcursor : cursor ∈ points genuine start now := by
      rw [hsplit]
      exact List.mem_append_right _ List.mem_cons_self
    have hsummary : skipped cursor now "occurrences exceeding max_catchup_runs were summarized" ∈
        countSummary now ((points genuine start now).drop (allowance schedule now firstDue)) := by
      rw [hrest]
      exact List.mem_singleton.mpr rfl
    refine ⟨_, mem_caughtUp.mpr (.inr (.inr hsummary)), .inr (by simp [skipped]), ?_, ?_⟩
    · exact (List.pairwise_cons.mp hafter).1 g hbeyond
    · intro o' ho'
      left
      rcases caughtUp_instant ho' with ⟨_, hat⟩ | htake
      · rw [hat]
        exact hstarts.le.trans (mem_points.mp hcursor).2.1
      · rw [List.take_add, hrest, List.mem_append] at htake
        rcases htake with htake | htake
        · exact (hcross _ htake cursor List.mem_cons_self).le
        · exact (List.mem_singleton.mp htake).le

theorem accounts_caughtUp {start next : Instant} (hfirst : firstDue ∈ genuine)
    (hdue : firstDue ≤ now) (hnext : Next genuine now next)
    (hstarts : Starts genuine schedule now firstDue start) :
    Accounts genuine schedule.config firstDue next
      (caughtUp schedule now firstDue (points genuine start now)) := by
  constructor
  · rw [caughtUp_instants, List.pairwise_append]
    refine ⟨?_, (points_increasing genuine start now).sublist (List.take_sublist _ _), ?_⟩
    · unfold ageSummary
      split
      · exact List.pairwise_singleton _ _
      · exact List.Pairwise.nil
    · intro x hx y hy
      obtain ⟨o, ho, rfl⟩ := List.mem_map.mp hx
      obtain ⟨hold, hat, _⟩ := mem_ageSummary ho
      rw [hat]
      exact (hstarts.lt hold).trans_le (mem_points.mp (List.mem_of_mem_take hy)).2.1
  · intro o ho
    rcases caughtUp_instant ho with ⟨_, hat⟩ | htake
    · rw [hat]
      exact ⟨hfirst, le_rfl, hdue.trans_lt hnext.1.2⟩
    · obtain ⟨hg, hle, hnow⟩ := mem_points.mp (List.mem_of_mem_take htake)
      exact ⟨hg, hstarts.le.trans hle, hnow.trans_lt hnext.1.2⟩
  · intro g hg hle hbefore
    have hnow := hnext.le_of_lt hg hbefore
    by_cases hlisted : ∃ o ∈ caughtUp schedule now firstDue (points genuine start now),
        o.scheduledAt = g
    · exact .inl hlisted
    · right
      by_cases hbefore : g < start
      · exact caughtUp_older hstarts hle hbefore hlisted
      · have hbacklog : g ∈ points genuine start now :=
          mem_points.mpr ⟨hg, not_lt.mp hbefore, hnow⟩
        rw [← List.take_append_drop (allowance schedule now firstDue + 1)
          (points genuine start now), List.mem_append] at hbacklog
        rcases hbacklog with htake | hdrop
        · exact absurd (caughtUp_listed htake) hlisted
        · exact caughtUp_beyond hstarts hdrop

theorem caughtUp_length {start : Instant} (hfirst : firstDue ∈ genuine) (hdue : firstDue ≤ now)
    (hstarts : Starts genuine schedule now firstDue start)
    (hruns : 1 ≤ schedule.config.maxCatchupRuns) :
    1 ≤ (caughtUp schedule now firstDue (points genuine start now)).length ∧
      (caughtUp schedule now firstDue (points genuine start now)).length ≤
        schedule.config.maxCatchupRuns + 1 := by
  rw [← List.length_map PlannedOccurrence.scheduledAt, caughtUp_instants, List.length_append,
    List.length_map, List.length_take, allowance]
  unfold Starts at hstarts
  by_cases hold : firstDue < oldestKept schedule now
  · have hsummary : (ageSummary schedule now firstDue).length = 1 := by
      rw [ageSummary, if_pos hold, List.length_singleton]
    omega
  · have hsummary : (ageSummary schedule now firstDue).length = 0 := by
      rw [ageSummary, if_neg hold, List.length_nil]
    rw [if_neg hold] at hstarts
    have hbacklog : 0 < (points genuine start now).length := by
      apply List.length_pos_of_mem
      exact mem_points.mpr ⟨hfirst, hstarts.le, hdue⟩
    omega

def Listed (genuine : Set Instant) (schedule : Schedule) (firstDue now : Instant)
    (entries : List PlannedOccurrence) : Prop :=
  match schedule.config.catchupPolicy with
  | .skip => entries = [skipped firstDue now "catch-up policy skipped missed occurrences"]
  | .runOnce => entries = [occurrence schedule firstDue now (some "coalesced missed occurrences")]
  | .catchUp => ∃ start, Starts genuine schedule now firstDue start ∧
      entries = caughtUp schedule now firstDue (points genuine start now)

theorem planCron_spec (h : Follows genuine recur) (schedule : Schedule)
    (hfirst : firstDue ∈ genuine) (hdue : firstDue ≤ now) (owner : Uuid) :
    ∃ entries next, planCron schedule owner recur now firstDue =
        .ok ⟨schedule.id, owner, entries, some next, false⟩ ∧
      Next genuine now next ∧ Listed genuine schedule firstDue now entries := by
  unfold planCron cronOccurrences Listed
  cases hpolicy : schedule.config.catchupPolicy with
  | skip =>
    obtain ⟨next, hrecur, hnext⟩ := h now
    simp only [hrecur]
    exact ⟨_, next, rfl, hnext, rfl⟩
  | runOnce =>
    obtain ⟨next, hrecur, hnext⟩ := h now
    simp only [hrecur]
    exact ⟨_, next, rfl, hnext, rfl⟩
  | catchUp =>
    obtain ⟨start, next, hstarts, _, hnext, hcatchUp⟩ :=
      catchUp_spec h schedule hfirst hdue
    simp only [hcatchUp]
    exact ⟨_, next, rfl, hnext, start, hstarts, rfl⟩

theorem Listed.accounts {entries : List PlannedOccurrence} {next : Instant}
    (hfirst : firstDue ∈ genuine) (hdue : firstDue ≤ now) (hnext : Next genuine now next)
    (h : Listed genuine schedule firstDue now entries) :
    Accounts genuine schedule.config firstDue next entries := by
  have hbefore : firstDue < next := hdue.trans_lt hnext.1.2
  unfold Listed at h
  split at h
  · rw [h]
    exact accounts_single hfirst hbefore rfl (.inr (by simp [skipped]))
  · rename_i hpolicy
    rw [h]
    exact accounts_single hfirst hbefore (occurrence_scheduledAt _ _ _ _) (.inl hpolicy)
  · obtain ⟨start, hstarts, rfl⟩ := h
    exact accounts_caughtUp hfirst hdue hnext hstarts

theorem Listed.length {entries : List PlannedOccurrence} (hfirst : firstDue ∈ genuine)
    (hdue : firstDue ≤ now) (hruns : 1 ≤ schedule.config.maxCatchupRuns)
    (h : Listed genuine schedule firstDue now entries) :
    1 ≤ entries.length ∧ entries.length ≤ schedule.config.maxCatchupRuns + 1 := by
  unfold Listed at h
  split at h
  · rw [h, List.length_singleton]
    omega
  · rw [h, List.length_singleton]
    omega
  · obtain ⟨start, hstarts, rfl⟩ := h
    exact caughtUp_length hfirst hdue hstarts hruns

theorem Accounts.append {config : ScheduleConfig} {a b c : Instant}
    {first second : List PlannedOccurrence} (h : Accounts genuine config a b first)
    (k : Accounts genuine config b c second) (hab : a ≤ b) (hbc : b ≤ c) :
    Accounts genuine config a c (first ++ second) where
  increasing := by
    rw [List.map_append, List.pairwise_append]
    refine ⟨h.increasing, k.increasing, ?_⟩
    intro x hx y hy
    obtain ⟨o, ho, rfl⟩ := List.mem_map.mp hx
    obtain ⟨o', ho', rfl⟩ := List.mem_map.mp hy
    exact (h.due o ho).2.2.trans_le (k.due o' ho').2.1
  due := by
    intro o ho
    rcases List.mem_append.mp ho with ho | ho
    · obtain ⟨hg, hle, hlt⟩ := h.due o ho
      exact ⟨hg, hle, hlt.trans_le hbc⟩
    · obtain ⟨hg, hle, hlt⟩ := k.due o ho
      exact ⟨hg, hab.trans hle, hlt⟩
  covered := by
    intro g hg hle hlt
    by_cases hearly : g < b
    · rcases h.covered g hg hle hearly with ⟨o, ho, hat⟩ | ⟨o, ho, hsummary, hbefore, hnext⟩
      · exact .inl ⟨o, List.mem_append_left _ ho, hat⟩
      · refine .inr ⟨o, List.mem_append_left _ ho, hsummary, hbefore, ?_⟩
        intro o' ho'
        rcases List.mem_append.mp ho' with ho' | ho'
        · exact hnext o' ho'
        · exact .inr (hearly.trans_le (k.due o' ho').2.1)
    · rcases k.covered g hg (not_lt.mp hearly) hlt with
        ⟨o, ho, hat⟩ | ⟨o, ho, hsummary, hbefore, hnext⟩
      · exact .inl ⟨o, List.mem_append_right _ ho, hat⟩
      · refine .inr ⟨o, List.mem_append_right _ ho, hsummary, hbefore, ?_⟩
        intro o' ho'
        rcases List.mem_append.mp ho' with ho' | ho'
        · exact .inl ((h.due o' ho').2.2.le.trans (k.due o ho).2.1)
        · exact hnext o' ho'

/-- A Schedule is planned when it is due, and the plan is committed, again and again. -/
inductive Commits (recurrence : Recurrence) (config : Uuid → ScheduleConfig) :
    ScheduleRow → List SchedulePlan → ScheduleRow → Prop where
  | refl (row) : Commits recurrence config row [] row
  | commit {row p plans last owner now}
      (due : ∃ firstDue, row.nextRunAt = some firstDue ∧ firstDue ≤ now)
      (planned : plan recurrence (ScheduleStore.scheduleEntity config row) owner now = .ok p)
      (rest : Commits recurrence config (ScheduleClaims.advancedRow p row) plans last) :
      Commits recurrence config row (p :: plans) last

theorem Commits.accounts {recurrence : Recurrence} {config : Uuid → ScheduleConfig}
    {row last : ScheduleRow} {plans : List SchedulePlan}
    (h : Commits recurrence config row plans last) {expression timezone : String}
    (htiming : (config row.id).timing = .cron expression timezone)
    (hfollows : Follows genuine (recurrence expression timezone))
    (hnextRun : row.nextRunAt = some firstDue) (hfirst : firstDue ∈ genuine) :
    ∃ next ∈ genuine, last.nextRunAt = some next ∧ firstDue ≤ next ∧
      Accounts genuine (config row.id) firstDue next (plans.flatMap SchedulePlan.occurrences) := by
  induction h generalizing firstDue with
  | refl row =>
    refine ⟨firstDue, hfirst, hnextRun, le_rfl, List.Pairwise.nil, ?_, ?_⟩
    · exact fun o ho => absurd ho List.not_mem_nil
    · exact fun g _ hle hlt => absurd hle (not_le.mpr hlt)
  | @commit row p plans last owner now due planned rest ih =>
    obtain ⟨due', hdue', hle⟩ := due
    rw [hnextRun] at hdue'
    cases hdue'
    unfold plan at planned
    simp only [ScheduleStore.scheduleEntity, hnextRun, htiming] at planned
    obtain ⟨entries, next, hplan, hnext, hlisted⟩ := planCron_spec hfollows _ hfirst hle owner
    rw [hplan] at planned
    cases planned
    have haccounts := hlisted.accounts hfirst hle hnext
    obtain ⟨final, hfinal, hlast, hafter, hrest⟩ := ih htiming rfl hnext.1.1
    have hbefore : firstDue ≤ next := hle.trans hnext.1.2.le
    refine ⟨final, hfinal, hlast, hbefore.trans hafter, ?_⟩
    rw [List.flatMap_cons]
    exact haccounts.append hrest hbefore hafter

/-- `* * * * *` in UTC. -/
def everyMinute : Instant → Except RecurrenceError Instant := fun after =>
  .ok (after - after % seconds 60 + seconds 60)

def minutes : Set Instant := {g | g % seconds 60 = 0}

theorem minute_after (t : ℤ) : (t - t % 60000000 + 60000000) % 60000000 = 0 ∧
    t < t - t % 60000000 + 60000000 ∧
    ∀ g : ℤ, g % 60000000 = 0 → t < g → t - t % 60000000 + 60000000 ≤ g := by
  refine ⟨by omega, by omega, ?_⟩
  intro g hg hlt
  omega

theorem everyMinute_follows : Follows minutes everyMinute := by
  intro t
  obtain ⟨hminute, hafter, hleast⟩ := minute_after t
  exact ⟨_, rfl, ⟨hminute, hafter⟩, fun g hg => hleast g hg.1 hg.2⟩

/-- Every plan lists due occurrences in order, at least one and at most one more than the limit,
moves to the next occurrence after now, and leaves none that is due without an entry; and so do
all plans of a Schedule together, which never list an occurrence twice. -/
theorem due_occurrences_accounted (recurrence : Recurrence) (config : Uuid → ScheduleConfig)
    (row : ScheduleRow) {expression timezone : String}
    (htiming : (config row.id).timing = .cron expression timezone)
    (hfollows : Follows genuine (recurrence expression timezone))
    (hruns : 1 ≤ (config row.id).maxCatchupRuns) (hnextRun : row.nextRunAt = some firstDue)
    (hfirst : firstDue ∈ genuine) :
    (∀ now owner, firstDue ≤ now → ∃ p next,
      planCron (ScheduleStore.scheduleEntity config row) owner (recurrence expression timezone)
        now firstDue = .ok p ∧
      (p.occurrences.map PlannedOccurrence.scheduledAt).Pairwise (· < ·) ∧
      (∀ o ∈ p.occurrences, o.scheduledAt ∈ genuine ∧ firstDue ≤ o.scheduledAt ∧
        o.scheduledAt ≤ now) ∧
      1 ≤ p.occurrences.length ∧ p.occurrences.length ≤ (config row.id).maxCatchupRuns + 1 ∧
      p.nextRunAt = some next ∧ IsLeast {g | g ∈ genuine ∧ now < g} next ∧
      ∀ g ∈ genuine, firstDue ≤ g → g ≤ now → (∃ o ∈ p.occurrences, o.scheduledAt = g) ∨
        ∃ o ∈ p.occurrences, Summarizes (config row.id) o ∧ o.scheduledAt < g ∧ g < next ∧
          ∀ o' ∈ p.occurrences, o'.scheduledAt ≤ o.scheduledAt ∨ g < o'.scheduledAt) ∧
    ∀ plans last, Commits recurrence config row plans last → ∃ next ∈ genuine,
      last.nextRunAt = some next ∧
        Accounts genuine (config row.id) firstDue next
          (plans.flatMap SchedulePlan.occurrences) := by
  refine ⟨?_, ?_⟩
  · intro now owner hdue
    obtain ⟨entries, next, hplan, hnext, hlisted⟩ := planCron_spec hfollows
      (ScheduleStore.scheduleEntity config row) hfirst hdue owner
    have haccounts := hlisted.accounts hfirst hdue hnext
    obtain ⟨hpositive, hbounded⟩ := hlisted.length hfirst hdue hruns
    refine ⟨_, next, hplan, haccounts.increasing, ?_, hpositive, hbounded, rfl, hnext, ?_⟩
    · intro o ho
      obtain ⟨hg, hle, hlt⟩ := haccounts.due o ho
      exact ⟨hg, hle, hnext.le_of_lt hg hlt⟩
    · intro g hg hle hnow
      have hlt : g < next := hnow.trans_lt hnext.1.2
      rcases haccounts.covered g hg hle hlt with hlisted | ⟨o, ho, hsummary, hbefore, hothers⟩
      · exact .inl hlisted
      · exact .inr ⟨o, ho, hsummary, hbefore, hlt, hothers⟩
  · intro plans last hcommits
    obtain ⟨next, hnext, hlast, _, haccounts⟩ :=
      hcommits.accounts htiming hfollows hnextRun hfirst
    exact ⟨next, hnext, hlast, haccounts⟩

def minuteConfig : ScheduleConfig :=
  ⟨.cron "* * * * *" "UTC", .runLate, none, .catchUp, 2, 120⟩

def minuteRow : ScheduleRow :=
  ⟨40, 3, 2, some 4, none, .object [], true, some 0, none, 0, none, none⟩

/-- Planned after five minutes, the age limit and the count limit both leave something out. -/
theorem due_occurrences_accounted_minute :
    ∃ p next, planCron (ScheduleStore.scheduleEntity (fun _ => minuteConfig) minuteRow) 41
        everyMinute (seconds 300) 0 = .ok p ∧
      p.occurrences.length ≤ 3 ∧ IsLeast {g | g ∈ minutes ∧ seconds 300 < g} next ∧
      ∃ last ∈ minutes, (ScheduleClaims.advancedRow p minuteRow).nextRunAt = some last ∧
        Accounts minutes minuteConfig 0 last p.occurrences := by
  obtain ⟨hplans, hcommits⟩ := due_occurrences_accounted (fun _ _ => everyMinute)
    (fun _ => minuteConfig) minuteRow rfl everyMinute_follows (by decide) rfl
    (show (0 : Instant) ∈ minutes from rfl)
  obtain ⟨p, next, hplan, _, _, _, hlength, _, hnext, _⟩ := hplans (seconds 300) 41 (by decide)
  have hchain := hcommits [p] _ (.commit ⟨0, rfl, by decide⟩ hplan (.refl _))
  rw [List.flatMap_singleton] at hchain
  exact ⟨p, next, hplan, hlength, hnext, hchain⟩

end ScheduleBacklog
