import Crono.InputStorage
import Crono.RequestAnswers
import Crono.TerminalRuns

/-! Re-runs of re-runs. A re-run decodes the snapshot column of its source, patches the identity
and the origin, and encodes it again, so that the numbers of the column go through `serde_json`
at every re-run of a chain. -/
namespace RerunChains

open RunDomain WorkflowDomain SqlTable ControlPlaneSchema RunStore WorkflowStore
open ControlPlane StoreWrites RunLifecycle RunCoupling TerminalRuns
open RequestCalls RunRequests RequestAnswers
open ExecutionInputs (FloatFormat)
open StoredValues

/-- The column of `snapshot` under the identity and the origin of a re-run. -/
def repeatedColumn (runId jobId queueId : Uuid) (snapshot : ExecutionSnapshot) :
    ExecutionSnapshot :=
  { columnSnapshot snapshot with
    idempotencyKey := runId
    jobId := some jobId
    queueId := queueId
    trigger := some .rerun
    scheduledAt := none }

/-- The same Job, Target, queue and attempts, and the same snapshot in every other field. -/
structure Repeats (r r' : RunRow) : Prop where
  job : r'.jobId = r.jobId
  target : r'.targetId = r.targetId
  queue : r'.queueId = r.queueId
  maxAttempts : r'.maxAttempts = r.maxAttempts
  snapshot : ∃ v v', r.executionSnapshot = .execution v ∧ r'.executionSnapshot = .execution v' ∧
    columnSnapshot v' = repeatedColumn r'.id r.jobId r.queueId v

/-- The row of a re-run. -/
def rerunRow (F : FloatFormat) (requestId runId : Uuid) (source : RunRow)
    (snapshot : ExecutionSnapshot) (now : Instant) : RunRow :=
  normalRun ⟨runId, requestId, source.jobId, source.targetId, source.queueId, source.maxAttempts,
    .execution (rerunSnapshot F runId source snapshot)⟩ (some source.id) now

theorem rerunRow_repeats {F : FloatFormat} {source : RunRow} {snapshot : ExecutionSnapshot}
    (h : source.executionSnapshot = .execution snapshot) (requestId runId : Uuid)
    (now : Instant) :
    Repeats source (rerunRow F requestId runId source snapshot now) ↔
      Reproducible F source.executionSnapshot := by
  have hcolumn : columnSnapshot (rerunSnapshot F runId source snapshot) =
      repeatedColumn runId source.jobId source.queueId snapshot ↔
      columnSnapshot (decodeSnapshot F (columnSnapshot snapshot)) = columnSnapshot snapshot := by
    simp only [rerunSnapshot, repeatedColumn, columnSnapshot, decodeSnapshot,
      ExecutionSnapshot.mk.injEq, true_and]
  rw [columnSnapshot_decodeSnapshot] at hcolumn
  rw [h, Reproducible, snapshotNumbers]
  constructor
  · intro hrepeats
    obtain ⟨v, v', hv, hv', hsnapshot⟩ := hrepeats.snapshot
    rw [h] at hv
    cases hv
    cases hv'
    exact hcolumn.mp hsnapshot
  · intro hreads
    exact ⟨rfl, rfl, rfl, rfl, snapshot, _, h, rfl, hcolumn.mpr hreads⟩

theorem Repeats.trans {r r₁ r₂ : RunRow} (h : Repeats r r₁) (k : Repeats r₁ r₂) :
    Repeats r r₂ := by
  obtain ⟨v, v₁, hv, hv₁, h₁⟩ := h.snapshot
  obtain ⟨w, v₂, hw, hv₂, h₂⟩ := k.snapshot
  rw [hv₁] at hw
  cases hw
  refine ⟨k.job.trans h.job, k.target.trans h.target, k.queue.trans h.queue,
    k.maxAttempts.trans h.maxAttempts, v, v₂, hv, hv₂, ?_⟩
  rw [h₂, repeatedColumn, h₁, h.job, h.queue]
  rfl

theorem Repeats.kept {r r₁ r₂ : RunRow} (h : Repeats r r₁) (k : RunEvolves r₁ r₂) :
    Repeats r r₂ := by
  obtain ⟨job, target, queue, maxAttempts, snapshot⟩ := h
  rw [k.columns]
  exact ⟨job, target, queue, maxAttempts, snapshot⟩

theorem Repeats.of_source {r r₁ r₂ : RunRow} (h : RunEvolves r r₁) (k : Repeats r₁ r₂) :
    Repeats r r₂ := by
  obtain ⟨job, target, queue, maxAttempts, snapshot⟩ := k
  rw [h.columns] at job target queue maxAttempts snapshot
  exact ⟨job, target, queue, maxAttempts, snapshot⟩

theorem Repeats.reproducible {F : FloatFormat} {r r' : RunRow} (h : Repeats r r')
    (hr : Reproducible F r.executionSnapshot) : Reproducible F r'.executionSnapshot := by
  obtain ⟨v, v', hv, hv', hcolumn⟩ := h.snapshot
  rw [hv, Reproducible, snapshotNumbers] at hr
  rw [hv', Reproducible, snapshotNumbers, hcolumn]
  exact hr

/-- One request, Run, Attempt, outbox row and `created` event, and nothing else. -/
structure Added (requestId runId : Uuid) (ids : DispatchIds) (now : Instant) (s t : Store)
    (request : RunRequestRow) (run : RunRow) : Prop where
  reserved : request.requestId = requestId
  unreserved : ∀ q ∈ s.runRequests, q.requestId ≠ requestId
  identified : run.id = runId
  store : t = { s with
    runRequests := s.runRequests ++ [request]
    runs := s.runs ++ [run]
    runAttempts := s.runAttempts ++ [newAttempt ids runId 1]
    outbox := s.outbox ++ [newOutbox ids runId run.queueId none now]
    runEvents := s.runEvents ++ [⟨runId, .created, now⟩] }

/-- A committed re-run of `sourceId`. -/
def Rerun (F : FloatFormat) (sourceId requestId runId : Uuid) (ids : DispatchIds) (now : Instant)
    (s t : Store) : Prop :=
  ∃ request source snapshot, source ∈ s.runs ∧ source.id = sourceId ∧
    source.executionSnapshot = .execution snapshot ∧
    Added requestId runId ids now s t request (rerunRow F requestId runId source snapshot now)

theorem insertRerunTransaction_rerun {F : FloatFormat} {sourceId requestId runId : Uuid}
    {ids : DispatchIds} {now : Instant} {s t : Store}
    (h : insertRerunTransaction F sourceId requestId runId ids now s = .ok (.created, t)) :
    Rerun F sourceId requestId runId ids now s t := by
  rcases insertRerunTransaction_ok h with
    ⟨hc, _⟩ | ⟨_, source, snapshot, job, s₁, s₂, s₃, hsource, hsnapshot, h₁, h₂, h₃, rfl⟩
  · cases hc
  obtain ⟨hfresh, rfl⟩ := insertRunRequest_ok h₁
  obtain ⟨_, _, _, _, _, rfl⟩ := insertRun_ok h₂
  obtain ⟨_, _, rfl⟩ := createAttemptAndOutbox_ok h₃
  have hid : source.id = sourceId := of_decide_eq_true (List.find?_some hsource :)
  subst hid
  exact ⟨_, source, snapshot, List.mem_of_find?_eq_some hsource, rfl, hsnapshot, rfl, hfresh, rfl,
    rfl⟩

/-- Runs re-run from `x`, directly or through one another, newest first; other commands commit
in between. -/
inductive Reruns (F : FloatFormat) (s : State) (x : Uuid) : State → List Uuid → Prop where
  | source : Reruns F s x s []
  | wait {t u ys} : Reruns F s x t ys → Execution t u → Reruns F s x u ys
  | rerun {t ys sourceId requestId runId ids now store} : Reruns F s x t ys →
      sourceId ∈ x :: ys →
      insertRerunTransaction F sourceId requestId runId ids now t.store = .ok (.created, store) →
      Reruns F s x (ControlPlane.next t (.insertRerun F sourceId requestId runId ids now))
        (runId :: ys)

theorem rerun_step (F : FloatFormat) (s : State) (sourceId requestId runId : Uuid)
    (ids : DispatchIds) (now : Instant) :
    Execution s (ControlPlane.next s (.insertRerun F sourceId requestId runId ids now)) := by
  have hstep : Step s (.insertRerun F sourceId requestId runId ids now) _ := ⟨trivial, rfl⟩
  exact .single hstep

theorem Reruns.execution {F : FloatFormat} {s t : State} {x : Uuid} {ys : List Uuid}
    (h : Reruns F s x t ys) : Execution s t := by
  induction h with
  | source => exact .refl s
  | wait _ hlater ih => exact ih.trans hlater
  | rerun _ _ _ ih => exact ih.trans (rerun_step ..)

/-- A row of the chain that starts at `r`. -/
def Member (r r' : RunRow) : Prop := RunEvolves r r' ∨ Repeats r r'

theorem Member.reproducible {F : FloatFormat} {r r' : RunRow} (h : Member r r')
    (hr : Reproducible F r.executionSnapshot) : Reproducible F r'.executionSnapshot := by
  rcases h with hsame | hrepeats
  · rw [hsame.columns]
    exact hr
  · exact hrepeats.reproducible hr

theorem Member.repeats {r r₁ r₂ : RunRow} (h : Member r r₁) (k : Repeats r₁ r₂) :
    Repeats r r₂ := by
  rcases h with hsame | hrepeats
  · exact .of_source hsame k
  · exact hrepeats.trans k

theorem rerun_member {F : FloatFormat} {s : State} (hs : Reachable s) {r r₁ : RunRow}
    (hr : Reproducible F r.executionSnapshot) (hmember : Member r r₁) (hr₁ : r₁ ∈ s.store.runs)
    {requestId runId : Uuid} {ids : DispatchIds} {now : Instant} {t : Store}
    (h : Rerun F r₁.id requestId runId ids now s.store t) :
    ∃ r₂ ∈ t.runs, r₂.id = runId ∧ Repeats r r₂ := by
  obtain ⟨request, source, snapshot, hsource, hid, hsnapshot, hadded⟩ := h
  have hsame : source = r₁ := row_unique (reachable_keysUnique hs).runs hsource hr₁ hid
  subst hsame
  refine ⟨rerunRow F requestId runId source snapshot now, ?_, rfl, ?_⟩
  · rw [hadded.store]
    exact List.mem_append_right _ (List.mem_singleton_self _)
  · exact hmember.repeats ((rerunRow_repeats hsnapshot _ _ _).mpr (hmember.reproducible hr))

theorem kept_row {s t : State} (hs : Reachable s) (h : Execution s t) {r : RunRow}
    (hr : r ∈ s.store.runs) : ∃ r' ∈ t.store.runs, r'.id = r.id ∧ RunEvolves r r' := by
  obtain ⟨r', hrow, hevolves⟩ := run_kept hs h hr
  have hmem : r' ∈ runsOf t.store r.id := by
    rw [hrow]
    exact List.mem_singleton_self r'
  exact ⟨r', (mem_runsOf.mp hmem).1, (mem_runsOf.mp hmem).2, hevolves⟩

structure ChainHolds (r : RunRow) (ys : List Uuid) (t : State) : Prop where
  first : ∃ r' ∈ t.store.runs, r'.id = r.id ∧ RunEvolves r r'
  reruns : ∀ y ∈ ys, ∃ r' ∈ t.store.runs, r'.id = y ∧ Repeats r r'

theorem ChainHolds.member {r : RunRow} {ys : List Uuid} {t : State} (h : ChainHolds r ys t)
    {y : Uuid} (hy : y ∈ r.id :: ys) : ∃ r' ∈ t.store.runs, r'.id = y ∧ Member r r' := by
  rcases List.mem_cons.mp hy with rfl | hy
  · obtain ⟨r', hr', hid, hsame⟩ := h.first
    exact ⟨r', hr', hid, .inl hsame⟩
  · obtain ⟨r', hr', hid, hrepeats⟩ := h.reruns y hy
    exact ⟨r', hr', hid, .inr hrepeats⟩

theorem ChainHolds.kept {r : RunRow} {ys : List Uuid} {t u : State} (h : ChainHolds r ys t)
    (ht : Reachable t) (hlater : Execution t u) : ChainHolds r ys u where
  first := by
    obtain ⟨r', hr', hid, hsame⟩ := h.first
    obtain ⟨r'', hr'', hid', hevolves⟩ := kept_row ht hlater hr'
    exact ⟨r'', hr'', hid'.trans hid, hsame.trans hevolves⟩
  reruns := by
    intro y hy
    obtain ⟨r', hr', hid, hrepeats⟩ := h.reruns y hy
    obtain ⟨r'', hr'', hid', hevolves⟩ := kept_row ht hlater hr'
    exact ⟨r'', hr'', hid'.trans hid, hrepeats.kept hevolves⟩

theorem reruns_hold {F : FloatFormat} {s t : State} (hs : Reachable s) {r : RunRow}
    (hr : r ∈ s.store.runs) (hreads : Reproducible F r.executionSnapshot) {ys : List Uuid}
    (h : Reruns F s r.id t ys) : ChainHolds r ys t := by
  induction h with
  | source => exact ⟨⟨r, hr, rfl, .refl r⟩, fun _ hy => absurd hy List.not_mem_nil⟩
  | wait hbefore hlater ih => exact ih.kept (hs.execution hbefore.execution) hlater
  | @rerun t ys sourceId requestId runId ids now store hbefore hsource hcommitted ih =>
    have ht := hs.execution hbefore.execution
    have hkept := ih.kept ht (rerun_step F t sourceId requestId runId ids now)
    refine ⟨hkept.first, ?_⟩
    intro y hy
    rcases List.mem_cons.mp hy with rfl | hy
    · obtain ⟨r₁, hr₁, rfl, hmember⟩ := ih.member hsource
      have hstore : (ControlPlane.next t (.insertRerun F r₁.id requestId y ids now)).store =
          store := by
        simp only [ControlPlane.next, transact, hcommitted, commitRequest]
      rw [hstore]
      exact rerun_member ht hreads hmember hr₁ (insertRerunTransaction_rerun hcommitted)
    · exact hkept.reruns y hy

def caller : RequestCalls.Event → Option ℕ
  | .advance i _ => some i
  | .control _ | .begin _ _ => none

/-- The store before and after a step of call `i` that changed it. -/
def changedBy (i : ℕ) (s : Service) (e : RequestCalls.Event) : List (Store × Store) :=
  let t := RequestCalls.next s e
  if caller e = some i ∧ t.control.store ≠ s.control.store then
    [(s.control.store, t.control.store)]
  else []

/-- The changes that call `i` makes in a run. -/
def changes (i : ℕ) : Service → List RequestCalls.Event → List (Store × Store)
  | _, [] => []
  | s, e :: events => changedBy i s e ++ changes i (RequestCalls.next s e) events

theorem changes_concat (i : ℕ) (s : Service) (events : List RequestCalls.Event)
    (e : RequestCalls.Event) :
    changes i s (events ++ [e]) =
      changes i s events ++ changedBy i (RequestCalls.system.run s events) e := by
  induction events generalizing s with
  | nil => exact List.append_nil _
  | cons first events ih =>
    rw [List.cons_append, changes, ih, changes, List.append_assoc]
    rfl

/-- The call has committed a transaction of its own. -/
def created : Phase → Bool
  | .rechecking created | .listing created => created
  | .finished (.ok (_, created)) => created
  | .checking | .transacting | .finished (.error _) => false

def Effect (F : FloatFormat) (sourceId requestId runId : Uuid) (ids : DispatchIds)
    (committed : Bool) (changes : List (Store × Store)) : Prop :=
  match committed with
  | true => ∃ before after now, changes = [(before, after)] ∧
      Rerun F sourceId requestId runId ids now before after
  | false => changes = []

section Calls

variable {F : FloatFormat} {sourceId requestId runId : Uuid} {ids : DispatchIds} {s : Service}
  {i : ℕ} {u : Ticket}

theorem created_checked (store : Store) {missing : Phase} (h : created missing = false) :
    created ((Call.rerunRun F sourceId requestId runId ids).checked store missing false) =
      false := by
  unfold Call.checked
  split
  · exact h
  · rfl

theorem created_listed (store : Store) :
    created (.finished ((Call.rerunRun F sourceId requestId runId ids).listed store false)) =
      false := by
  unfold Call.listed
  simp only
  split
  · split
    · rfl
    · rfl
  · rfl

theorem changedBy_other {i : ℕ} {s : Service} {e : RequestCalls.Event} (h : caller e ≠ some i) :
    changedBy i s e = [] :=
  if_neg fun hchanged => h hchanged.1

theorem changedBy_same {i : ℕ} {s : Service} {e : RequestCalls.Event}
    (h : (RequestCalls.next s e).control.store = s.control.store) : changedBy i s e = [] :=
  if_neg fun hchanged => hchanged.2 h

/-- What the next step of a call does to its phase and to the store. -/
def Advances (F : FloatFormat) (sourceId requestId runId : Uuid) (ids : DispatchIds)
    (before after : Phase) (changed : List (Store × Store)) : Prop :=
  created after = created before ∧ changed = [] ∨
    created before = false ∧ Effect F sourceId requestId runId ids (created after) changed

theorem Rerun.changed {now : Instant} {before after : Store}
    (h : Rerun F sourceId requestId runId ids now before after) : after ≠ before := by
  obtain ⟨request, source, snapshot, _, _, _, hadded⟩ := h
  intro hsame
  have hruns := congrArg (fun x => x.runs.length) (hadded.store.symm.trans hsame)
  simp at hruns

theorem advances_of_enter (ht : s.tickets i = some u) {now : Instant} {before after : Phase}
    (hstep : s.advance i now u = s.enter i u after) (hcreated : created after = created before) :
    ∃ after, (s.advance i now u).tickets i = some { u with phase := after } ∧
      Advances F sourceId requestId runId ids before after (changedBy i s (.advance i now)) := by
  have hsame : changedBy i s (.advance i now) = [] := by
    apply changedBy_same
    rw [next_advance ht, hstep]
    rfl
  refine ⟨after, ?_, .inl ⟨hcreated, hsame⟩⟩
  rw [hstep]
  exact enter_self ..

/-- The step that commits the transaction of a re-run, or rolls it back. -/
theorem advances_of_transaction (hu : u.call = .rerunRun F sourceId requestId runId ids)
    (ht : s.tickets i = some u) (hp : u.phase = .transacting) (now : Instant) :
    ∃ after, (s.advance i now u).tickets i = some { u with phase := after } ∧
      Advances F sourceId requestId runId ids .transacting after
        (changedBy i s (.advance i now)) := by
  have hstore : (s.advance i now u).control.store = transact s.control (u.call.command now) := by
    simp only [Service.advance, hp]
    rfl
  have hticket : (s.advance i now u).tickets i = some { u with
      phase := u.call.committed (u.call.transaction now s.control.store) } := by
    simp only [Service.advance, hp]
    exact enter_self ..
  have hsame (h : transact s.control (u.call.command now) = s.control.store) :
      changedBy i s (.advance i now) = [] := by
    apply changedBy_same
    rw [next_advance ht, hstore, h]
  refine ⟨_, hticket, ?_⟩
  rcases transaction_cases u.call now s.control with
    ⟨hunchanged, ⟨e, herror⟩ | ⟨htaken, _⟩⟩ | hcreated
  · rw [herror]
    exact .inl ⟨rfl, hsame hunchanged⟩
  · rw [htaken]
    exact .inl ⟨rfl, hsame hunchanged⟩
  · have hrerun : Rerun F sourceId requestId runId ids now s.control.store
        (transact s.control (u.call.command now)) := by
      apply insertRerunTransaction_rerun
      rw [hu] at hcreated ⊢
      exact hcreated
    rw [hcreated, hu]
    refine .inr ⟨rfl, s.control.store, transact s.control (u.call.command now), now, ?_, hrerun⟩
    rw [changedBy, next_advance ht, hstore]
    exact if_pos ⟨rfl, hrerun.changed⟩

theorem advance_effect (hu : u.call = .rerunRun F sourceId requestId runId ids)
    (h : RequestAnswers.Holds s) (ht : s.tickets i = some u) (now : Instant) :
    ∃ after, (s.advance i now u).tickets i = some { u with phase := after } ∧
      Advances F sourceId requestId runId ids u.phase after
        (changedBy i s (.advance i now)) := by
  have hphase := (h.tickets i u ht).phase
  match hp : u.phase with
  | .checking =>
    apply advances_of_enter ht (by simp only [Service.advance, hp]; rfl)
    rw [hu]
    exact created_checked _ rfl
  | .transacting => exact advances_of_transaction hu ht hp now
  | .rechecking true =>
    rw [hp] at hphase
    obtain ⟨_, hrerun, use, huse, hmade⟩ := hphase
    apply advances_of_enter ht (by simp only [Service.advance, hp]; rfl)
    rw [checked_maker h huse hmade hrerun]
    rfl
  | .rechecking false =>
    apply advances_of_enter ht (by simp only [Service.advance, hp]; rfl)
    rw [hu]
    exact created_checked _ rfl
  | .listing true =>
    rw [hp] at hphase
    obtain ⟨_, use, huse, hmade⟩ := hphase
    obtain ⟨runs, hlisted, _⟩ := listed_same h.logged huse hmade.2.1 hmade.same true
    apply advances_of_enter ht (by simp only [Service.advance, hp]; rfl)
    rw [hlisted]
    rfl
  | .listing false =>
    apply advances_of_enter ht (by simp only [Service.advance, hp]; rfl)
    rw [hu]
    exact created_listed _
  | .finished answer =>
    have hstep : s.advance i now u = s := by simp only [Service.advance, hp]
    refine ⟨.finished answer, ?_, .inl ⟨rfl, changedBy_same ?_⟩⟩
    · rw [hstep, ht, ← hp]
    · rw [next_advance ht, hstep]

theorem Effect.advances {before after : Phase} {earlier changed : List (Store × Store)}
    (h : Effect F sourceId requestId runId ids (created before) earlier)
    (k : Advances F sourceId requestId runId ids before after changed) :
    Effect F sourceId requestId runId ids (created after) (earlier ++ changed) := by
  rcases k with ⟨hsame, rfl⟩ | ⟨hbefore, heffect⟩
  · rw [hsame, List.append_nil]
    exact h
  · rw [hbefore] at h
    rw [show earlier = [] from h]
    exact heffect

end Calls

theorem advance_other (s : Service) {i j : ℕ} (h : j ≠ i) (now : Instant) (u : Ticket) :
    (s.advance i now u).tickets j = s.tickets j := by
  unfold Service.advance
  split <;> first | rfl | exact enter_of_ne _ h _ _

theorem advance_self {s : Service} {i : ℕ} {u : Ticket} (h : s.tickets i = some u)
    (now : Instant) : ∃ phase, (s.advance i now u).tickets i = some { u with phase := phase } := by
  unfold Service.advance
  split
  · exact ⟨_, enter_self ..⟩
  · exact ⟨_, enter_self ..⟩
  · exact ⟨_, enter_self ..⟩
  · exact ⟨_, enter_self ..⟩
  · exact ⟨u.phase, h⟩

/-- What the calls of a run have changed so far. -/
structure Traced (s₀ : Service) (i : ℕ) (events : List RequestCalls.Event) (s : Service) :
    Prop where
  idle : s.tickets i = none → changes i s₀ events = []
  effect : ∀ u, s.tickets i = some u → ∀ F sourceId requestId runId ids,
    u.call = .rerunRun F sourceId requestId runId ids →
    Effect F sourceId requestId runId ids (created u.phase) (changes i s₀ events)

section Traced

variable {s₀ s : Service} {i : ℕ} {events : List RequestCalls.Event} {e : RequestCalls.Event}

theorem changes_next (hrun : RequestCalls.system.run s₀ events = s) :
    changes i s₀ (events ++ [e]) = changes i s₀ events ++ changedBy i s e := by
  rw [changes_concat, hrun]

theorem Traced.other (h : Traced s₀ i events s) (hrun : RequestCalls.system.run s₀ events = s)
    (hcaller : caller e ≠ some i) (hticket : (RequestCalls.next s e).tickets i = s.tickets i) :
    Traced s₀ i (events ++ [e]) (RequestCalls.next s e) := by
  have hchanges : changes i s₀ (events ++ [e]) = changes i s₀ events := by
    rw [changes_next hrun, changedBy_other hcaller, List.append_nil]
  constructor
  · rw [hticket, hchanges]
    exact h.idle
  · rw [hticket, hchanges]
    exact h.effect

theorem Traced.begins {call : Call} (h : Traced s₀ i events s)
    (hrun : RequestCalls.system.run s₀ events = s) (hidle : s.tickets i = none) :
    Traced s₀ i (events ++ [.begin i call]) (RequestCalls.next s (.begin i call)) := by
  have hother : changedBy i s (.begin i call) = [] := changedBy_other nofun
  have hchanges : changes i s₀ (events ++ [.begin i call]) = [] := by
    rw [changes_next hrun, hother, h.idle hidle, List.append_nil]
  constructor
  · intro _
    exact hchanges
  · intro u hu F sourceId requestId runId ids _
    rw [next_begin] at hu
    cases hu
    exact hchanges

theorem Traced.advances {u : Ticket} (h : Traced s₀ i events s)
    (hrun : RequestCalls.system.run s₀ events = s) (hs : RequestAnswers.Holds s)
    (hu : s.tickets i = some u) (now : Instant) :
    Traced s₀ i (events ++ [.advance i now]) (RequestCalls.next s (.advance i now)) := by
  obtain ⟨phase, hphase⟩ := advance_self hu now
  constructor
  · intro hnone
    rw [next_advance hu, hphase] at hnone
    cases hnone
  · intro w hw F sourceId requestId runId ids hcall
    rw [next_advance hu, hphase] at hw
    cases hw
    have hu' : u.call = .rerunRun F sourceId requestId runId ids := hcall
    obtain ⟨after, hafter, hadvances⟩ := advance_effect hu' hs hu now
    rw [hphase] at hafter
    cases hafter
    rw [changes_next hrun]
    exact (h.effect u hu F sourceId requestId runId ids hcall).advances hadvances

theorem Traced.next (h : Traced s₀ i events s) (hrun : RequestCalls.system.run s₀ events = s)
    (hs : RequestAnswers.Holds s) (he : RequestCalls.Enabled s e) :
    Traced s₀ i (events ++ [e]) (RequestCalls.next s e) := by
  cases e with
  | control c => exact h.other hrun nofun rfl
  | «begin» j call =>
    by_cases hij : i = j
    · subst hij
      exact h.begins hrun he
    · exact h.other hrun nofun (Function.update_of_ne hij _ _)
  | advance j now =>
    obtain ⟨u, hu⟩ := Option.ne_none_iff_exists'.mp he
    by_cases hij : i = j
    · subst hij
      exact h.advances hrun hs hu now
    · apply h.other hrun
      · intro hcaller
        exact hij (Option.some.inj hcaller).symm
      · rw [next_advance hu]
        exact advance_other s hij now u

end Traced

theorem admitted_traced {s₀ : Service} (h₀ : RequestCalls.initial s₀) (i : ℕ)
    {events : List RequestCalls.Event} (h : RequestCalls.system.Admits s₀ events) :
    Traced s₀ i events (RequestCalls.system.run s₀ events) := by
  have hstart : Traced s₀ i [] s₀ := by
    refine ⟨fun _ => rfl, ?_⟩
    intro u hu
    rw [h₀.2.2] at hu
    cases hu
  have hboth := h.invariant (P := fun events s =>
    RequestCalls.system.run s₀ events = s ∧ Traced s₀ i events s) ⟨rfl, hstart⟩ ?_
  · exact hboth.2
  · intro events e s hs he ⟨hrun, htraced⟩
    refine ⟨?_, htraced.next hrun (reachable_holds ⟨s₀, h₀, hs⟩) he⟩
    rw [TransitionSystem.run_concat, hrun]

/-- Every chain of re-runs repeats a Run whose snapshot column is read back as it was written,
and a committed re-run repeats its source only then. A re-run answered as created adds its rows
and changes nothing else; any other answer leaves the database unchanged. -/
theorem reruns_repeat (F : FloatFormat) :
    (∀ s, ControlPlane.Reachable s → ∀ r ∈ s.store.runs, Reproducible F r.executionSnapshot →
      ∀ t ys, Reruns F s r.id t ys → ∀ y ∈ ys,
        ∃ r', runsOf t.store y = [r'] ∧ Repeats r r') ∧
    (∀ s sourceId requestId runId ids now t,
      insertRerunTransaction F sourceId requestId runId ids now s = .ok (.created, t) →
      ∃ request r v, r ∈ s.runs ∧ r.id = sourceId ∧ r.executionSnapshot = .execution v ∧
        Added requestId runId ids now s t request (rerunRow F requestId runId r v now) ∧
        (Repeats r (rerunRow F requestId runId r v now) ↔
          Reproducible F r.executionSnapshot)) ∧
    ∀ s₀ events, RequestCalls.initial s₀ → RequestCalls.system.Admits s₀ events →
      ∀ i u answer sourceId requestId runId ids,
        (RequestCalls.system.run s₀ events).tickets i = some u →
        u.call = .rerunRun F sourceId requestId runId ids → u.phase = .finished answer →
        (∀ runs, answer = .ok (runs, true) → ∃ before after now,
          changes i s₀ events = [(before, after)] ∧
            Rerun F sourceId requestId runId ids now before after) ∧
        ((∀ runs, answer ≠ .ok (runs, true)) → changes i s₀ events = []) := by
  refine ⟨?_, ?_, ?_⟩
  · intro s hs r hr hreads t ys hreruns y hy
    obtain ⟨r', hr', rfl, hrepeats⟩ := (reruns_hold hs hr hreads hreruns).reruns y hy
    have ht := reachable_invariant (hs.execution hreruns.execution)
    exact ⟨r', runsOf_eq ht.consistent hr', hrepeats⟩
  · intro s sourceId requestId runId ids now t h
    obtain ⟨request, source, snapshot, hsource, hid, hsnapshot, hadded⟩ :=
      insertRerunTransaction_rerun h
    exact ⟨request, source, snapshot, hsource, hid, hsnapshot, hadded,
      rerunRow_repeats hsnapshot requestId runId now⟩
  · intro s₀ events h₀ h i u answer sourceId requestId runId ids hu hcall hp
    have heffect := (admitted_traced h₀ i h).effect u hu F sourceId requestId runId ids hcall
    rw [hp] at heffect
    constructor
    · rintro runs rfl
      exact heffect
    · intro hnot
      rcases answer with e | ⟨runs, _ | _⟩
      · exact heffect
      · exact heffect
      · exact absurd rfl (hnot runs)

def toleranceCommands (n : Number) : List Command :=
  [.createRuns (InputStorage.rendering neighbours (fun _ => "") (fun _ _ => .ok []) fun _ => 0)
      5 2 (.target 4) (toleranceInputs n) ⟨fun _ => 6, fun _ => ⟨7, 8⟩⟩ 0,
    demoClaimOutbox, demoMarkPublished, .claimAttempt demoClaimRequest 0,
    .completeAttempt ⟨7, "worker", true, false, some 0, "", "", none⟩ 0 1]

def toleranceFinished (n : Number) : State :=
  ControlPlane.system.run demoInitial (toleranceCommands n)

def toleranceRerun (n : Number) : State :=
  ControlPlane.next (toleranceFinished n) (.insertRerun neighbours 6 40 41 ⟨42, 43⟩ 2)

def repeatedInputs : SnapshotColumn → Value
  | .execution snapshot => columnInputs snapshot.inputs
  | .renderError _ inputs => inputs

theorem Repeats.inputs {r r' : RunRow} (h : Repeats r r') :
    repeatedInputs r'.executionSnapshot = repeatedInputs r.executionSnapshot := by
  obtain ⟨v, v', hv, hv', hcolumn⟩ := h.snapshot
  rw [hv, hv']
  exact congrArg ExecutionSnapshot.inputs hcolumn

theorem toleranceFinished_reachable {n : Number}
    (h : (9, demoRecord) ∈ (ControlPlane.system.run demoInitial
      ((toleranceCommands n).take 2)).issued) : ControlPlane.Reachable (toleranceFinished n) :=
  demo_reachable ⟨trivial, trivial, h, trivial, trivial, trivial⟩

theorem toleranceRerun_reruns {n : Number}
    (h : (insertRerunTransaction neighbours 6 40 41 ⟨42, 43⟩ 2 (toleranceFinished n).store).map
      Prod.fst = .ok .created) :
    Reruns neighbours (toleranceFinished n) 6 (toleranceRerun n) [41] := by
  rcases hcommitted : insertRerunTransaction neighbours 6 40 41 ⟨42, 43⟩ 2
    (toleranceFinished n).store with e | ⟨c, store⟩
  · rw [hcommitted] at h
    cases h
  · rw [hcommitted] at h
    cases h
    exact Reruns.source.rerun List.mem_cons_self hcommitted

/-- The input `1e-24` is parsed as the float printed `1.0000000000000001e-24`; the column of its
re-run holds the other one. -/
theorem small_float_not_repeated :
    ¬ ∀ F s, ControlPlane.Reachable s → ∀ r ∈ s.store.runs, r.status.isRepeatable = true →
      ∀ t ys, Reruns F s r.id t ys → ∀ y ∈ ys,
        ∃ r', runsOf t.store y = [r'] ∧ Repeats r r' := by
  intro h
  let small : Number := .float ⟨10000000000000001, -40⟩
  have hreachable : ControlPlane.Reachable (toleranceFinished small) :=
    toleranceFinished_reachable (by decide +kernel)
  have hrow : (toleranceFinished small).store.runs.map (fun r => (r.id, r.status,
      repeatedInputs r.executionSnapshot)) = [(6, .succeeded, toleranceInputs small)] := by
    decide +kernel
  have hagain : (runsOf (toleranceRerun small).store 41).map (fun r =>
      repeatedInputs r.executionSnapshot) = [toleranceInputs (.float ⟨1, -24⟩)] := by
    decide +kernel
  have hreruns : Reruns neighbours (toleranceFinished small) 6 (toleranceRerun small) [41] :=
    toleranceRerun_reruns (by decide +kernel)
  obtain ⟨r, hr, hcolumns⟩ := List.map_eq_singleton_iff.mp hrow
  simp only [Prod.mk.injEq] at hcolumns
  obtain ⟨hid, hstatus, hinputs⟩ := hcolumns
  have hmem : r ∈ (toleranceFinished small).store.runs := by
    rw [hr]
    exact List.mem_singleton_self r
  obtain ⟨r', hr', hrepeats⟩ := h neighbours _ hreachable r hmem (by rw [hstatus]; rfl) _ _
    (hid ▸ hreruns) 41 (List.mem_singleton_self 41)
  rw [hr', List.map_singleton, List.cons.injEq, hrepeats.inputs, hinputs] at hagain
  exact absurd hagain.1 (by decide)

/-- An integer is repeated, and the re-run of a call in flight adds its rows once. -/
theorem reruns_repeat_demo :
    (∃ r ∈ (toleranceFinished (.posInt 3)).store.runs, ∃ r',
      runsOf (toleranceRerun (.posInt 3)).store 41 = [r'] ∧ Repeats r r') ∧
    ∃ before after now, changes 1 demoService (demoAdoption.take 13) = [(before, after)] ∧
      Rerun demoFormat 6 40 41 ⟨42, 43⟩ now before after := by
  constructor
  · have hreachable : ControlPlane.Reachable (toleranceFinished (.posInt 3)) :=
      toleranceFinished_reachable (by decide +kernel)
    have hreruns : Reruns neighbours (toleranceFinished (.posInt 3)) 6
        (toleranceRerun (.posInt 3)) [41] := toleranceRerun_reruns (by decide +kernel)
    have hrow : (toleranceFinished (.posInt 3)).store.runs.map (fun r => (r.id,
        snapshotNumbers r.executionSnapshot)) = [(6, [⟨3, 0⟩, ⟨2, 0⟩, ⟨0, 0⟩])] := by
      decide +kernel
    obtain ⟨r, hr, hcolumns⟩ := List.map_eq_singleton_iff.mp hrow
    simp only [Prod.mk.injEq] at hcolumns
    obtain ⟨hid, hnumbers⟩ := hcolumns
    have hmem : r ∈ (toleranceFinished (.posInt 3)).store.runs := by
      rw [hr]
      exact List.mem_singleton_self r
    refine ⟨r, hmem, (reruns_repeat neighbours).1 _ hreachable r hmem ?_ _ _ (hid ▸ hreruns) 41
      (List.mem_singleton_self 41)⟩
    rw [Reproducible, hnumbers]
    decide
  · have hadmitted : RequestCalls.system.Admits demoService (demoAdoption.take 13) :=
      (TransitionSystem.admits_append.mp
        (List.take_append_drop 13 demoAdoption ▸ demoAdoption_admitted)).1
    have hcreated := (reruns_repeat demoFormat).2.2 demoService (demoAdoption.take 13)
      demoService_initial hadmitted 1 _ _ 6 40 41 ⟨42, 43⟩ rfl rfl rfl
    exact hcreated.1 _ rfl

end RerunChains
