import Crono.RunRequests

/-! How a call under a reserved request id is answered. An equal call is given the Runs made
before, every other call is refused. The comparison of `create_runs` does not tell a re-run
apart, so that it adopts the Run of a re-run with the same Job, Target and inputs; and it reads the
recorded inputs back from `jsonb`, where `serde_json` may read a float as another one. -/
namespace RequestAnswers

open RunDomain WorkflowDomain SqlTable ControlPlaneSchema RunStore WorkflowStore
open ControlPlane StoreWrites RequestTable RequestCalls RunRequests
open ExecutionInputs (FloatFormat)
open StoredValues

/-- The same operation with the same parameters. -/
def SameRequest : Call → Origin → Prop
  | .createRuns _ _ jobId target inputs _, .createRuns jobId' target' inputs' =>
    jobId' = jobId ∧ target' = target ∧ jsonInputsEqual inputs' inputs = true
  | .rerunRun _ sourceId _ _ _, .rerun sourceId' => sourceId' = sourceId
  | _, _ => False

/-- An equal call is given exactly the Runs of the use, as not created; every other call is
refused as a conflict. -/
def Honoured (call : Call) (use : Use) (answer : Answer) : Prop :=
  (SameRequest call use.origin → ∃ runs, answer = .ok (runs, false) ∧
    ∀ x, x ∈ runs.map RunRow.id ↔ x ∈ use.runIds) ∧
  (¬ SameRequest call use.origin → answer = .error .idempotencyConflict)

/-- The columns of the recorded row are those of the call, the inputs as they are read back. -/
def Matches : Call → Use → Prop
  | .createRuns R _ jobId target inputs _, use =>
    use.row.jobId = jobId ∧ use.row.targetId = (selectionIds target).1 ∧
      use.row.targetSetId = (selectionIds target).2 ∧
      jsonInputsEqual (stored R.floats (columnInputs use.row.inputs)) inputs = true
  | .rerunRun _ _ _ _ _, _ => False

/-- A `create_runs` under the id of a re-run, with the Job, the Target and the inputs the
re-run recorded. -/
def AdoptsRerun (call : Call) (use : Use) : Prop :=
  (∃ sourceId, use.origin = .rerun sourceId) ∧ Matches call use

/-- Inputs that are equal to the recorded ones, a number of which is read back as another; or
inputs that only what is read back of the recorded ones is equal to. -/
def Misread (F : FloatFormat) (recorded given : Value) : Prop :=
  (jsonInputsEqual recorded given = true ∧ ∃ n ∈ numbers recorded, ¬ KeepsValue F n) ∨
  (jsonInputsEqual recorded given = false ∧
    jsonInputsEqual (stored F (columnInputs recorded)) given = true)

/-- A `create_runs` under the id of another, of the same Job and selection, whose inputs are
misread. -/
def MisreadsInputs : Call → Use → Prop
  | .createRuns R _ jobId target inputs _, use =>
    ∃ recorded, use.origin = .createRuns jobId target recorded ∧ Misread R.floats recorded inputs
  | .rerunRun _ _ _ _ _, _ => False

def Mistaken (call : Call) (use : Use) : Prop := AdoptsRerun call use ∨ MisreadsInputs call use

def demoService : Service := ⟨demoInitial, [], fun _ => none⟩

def demoCreateCall (requestId runId : Uuid) (ids : DispatchIds) : Call :=
  .createRuns demoRendering requestId 2 (.target 4) (.object []) ⟨fun _ => runId, fun _ => ids⟩

/-- Run 6 is created under id 5 and succeeds; it is re-run as Run 41 under id 40; then id 40
is used for a `create_runs` of the same Job and Target. -/
def demoAdoption : List RequestCalls.Event :=
  [.begin 0 (demoCreateCall 5 6 ⟨7, 8⟩), .advance 0 0, .advance 0 0, .advance 0 0,
    .control demoClaimOutbox, .control demoMarkPublished,
    .control (.claimAttempt demoClaimRequest 0),
    .control (.completeAttempt ⟨7, "worker", true, false, some 0, "", "", none⟩ 0 1),
    .begin 1 (.rerunRun demoFormat 6 40 41 ⟨42, 43⟩), .advance 1 2, .advance 1 2, .advance 1 2,
    .advance 1 2,
    .begin 2 (demoCreateCall 40 50 ⟨51, 52⟩), .advance 2 3, .advance 2 3]

theorem demoService_initial : RequestCalls.initial demoService :=
  ⟨demoInitial_initial, rfl, rfl⟩

theorem demoAdoption_admitted : RequestCalls.system.Admits demoService demoAdoption := by
  refine ⟨rfl, nofun, nofun, nofun, ⟨rfl, trivial⟩, ⟨rfl, ?_⟩, ⟨rfl, trivial⟩, ⟨rfl, trivial⟩,
    rfl, nofun, nofun, nofun, nofun, rfl, nofun, nofun, trivial⟩
  exact List.mem_singleton.mpr rfl

def demoAdopted : Service := RequestCalls.system.run demoService demoAdoption

theorem demoAdopted_answer : ∃ t use runs, demoAdopted.tickets 2 = some t ∧ t.prior = some use ∧
    use.origin = .rerun 6 ∧ t.call = demoCreateCall 40 50 ⟨51, 52⟩ ∧
    t.phase = .finished (.ok (runs, false)) := by
  refine ⟨_, _, _, rfl, rfl, rfl, rfl, rfl⟩

def demoToleranceCall (d : Decimal) (runId : Uuid) (ids : DispatchIds) : Call :=
  .createRuns lastLayer 5 2 (.target 4) (toleranceInputs (.float d))
    ⟨fun _ => runId, fun _ => ids⟩

/-- Run 6 is created under id 5; the call is replayed, and made with the neighbouring float. -/
def demoTolerance : List RequestCalls.Event :=
  [.begin 0 (demoToleranceCall ⟨10000000000000001, -40⟩ 6 ⟨7, 8⟩), .advance 0 0, .advance 0 0,
    .advance 0 0,
    .begin 1 (demoToleranceCall ⟨10000000000000001, -40⟩ 50 ⟨51, 52⟩), .advance 1 1,
    .begin 2 (demoToleranceCall ⟨1, -24⟩ 60 ⟨61, 62⟩), .advance 2 2, .advance 2 2]

theorem demoTolerance_admitted : RequestCalls.system.Admits demoService demoTolerance := by
  exact ⟨rfl, nofun, nofun, nofun, rfl, nofun, rfl, nofun, nofun, trivial⟩

def demoMisread : Service := RequestCalls.system.run demoService demoTolerance

/-- The Run of a re-run is adopted; the replay of a call is refused; and a call with another float
is given the Run. -/
theorem request_ids_mistaken :
    (¬ ∀ s, RequestCalls.Reachable s → ∀ i t use answer, s.tickets i = some t →
      t.prior = some use → t.phase = .finished answer → Honoured t.call use answer) ∧
    RequestCalls.Reachable demoMisread ∧
    (∃ t use, demoMisread.tickets 1 = some t ∧ t.prior = some use ∧
      SameRequest t.call use.origin ∧
      t.phase = .finished (.error .idempotencyConflict)) ∧
    ∃ t use runs, demoMisread.tickets 2 = some t ∧ t.prior = some use ∧
      ¬ SameRequest t.call use.origin ∧ t.phase = .finished (.ok (runs, false)) := by
  refine ⟨?_, ⟨demoService, demoService_initial, .of_admits demoTolerance_admitted⟩, ?_, ?_⟩
  · intro h
    obtain ⟨t, use, runs, ht, hprior, horigin, hcall, hphase⟩ := demoAdopted_answer
    have hreachable : RequestCalls.Reachable demoAdopted :=
      ⟨demoService, demoService_initial, .of_admits demoAdoption_admitted⟩
    have hrefused := (h _ hreachable 2 t use _ ht hprior hphase).2
    rw [hcall, horigin] at hrefused
    cases hrefused id
  · exact ⟨_, _, rfl, rfl, ⟨rfl, rfl, by decide⟩, rfl⟩
  · refine ⟨_, _, _, rfl, rfl, ?_, rfl⟩
    rintro ⟨-, -, hinputs⟩
    exact absurd hinputs (by decide)

/-- A call that passed the comparison with the row of its id. -/
def Accepted (call : Call) (use : Use) : Prop :=
  match call with
  | .createRuns _ _ _ _ _ _ => use.origin ≠ .workflowNode ∧ Matches call use
  | .rerunRun _ _ _ _ _ => True

theorem selectionIds_injective : Function.Injective selectionIds := by
  intro x y h
  cases x <;> cases y <;> cases h <;> rfl

theorem compareRunRequest_cases (existing : RunRequestRow × Bool) (jobId : Uuid)
    (target : TargetSelection) (inputs : Value) :
    (compareRunRequest existing jobId target inputs = .ok () ∧ existing.2 = false ∧
      existing.1.jobId = jobId ∧ existing.1.targetId = (selectionIds target).1 ∧
      existing.1.targetSetId = (selectionIds target).2 ∧
      jsonInputsEqual existing.1.inputs inputs = true) ∨
    (compareRunRequest existing jobId target inputs = .error .idempotencyConflict ∧
      ¬ (existing.2 = false ∧ existing.1.jobId = jobId ∧
        existing.1.targetId = (selectionIds target).1 ∧
        existing.1.targetSetId = (selectionIds target).2 ∧
        jsonInputsEqual existing.1.inputs inputs = true)) := by
  unfold compareRunRequest
  split
  · rename_i h
    simp only [Bool.and_eq_true, Bool.not_eq_true', decide_eq_true_eq, and_assoc] at h
    exact .inl ⟨rfl, h⟩
  · rename_i h
    simp only [Bool.and_eq_true, Bool.not_eq_true', decide_eq_true_eq, and_assoc] at h
    exact .inr ⟨rfl, h⟩

theorem owned_iff {s : Store} {use : Use} (h : Describes s use) :
    (s.workflowNodeRuns.any fun n => n.id = use.row.requestId) = false ↔
      use.origin ≠ .workflowNode := by
  have hany (howned : ¬ Owned s use.row.requestId) :
      (s.workflowNodeRuns.any fun n => n.id = use.row.requestId) = false := by
    rw [List.any_eq_false]
    intro n hn hid
    exact howned ⟨n, hn, of_decide_eq_true hid⟩
  unfold Describes at h
  cases horigin : use.origin with
  | createRuns jobId target inputs =>
    rw [horigin] at h
    obtain ⟨_, _, _, _, hmade⟩ := h
    exact ⟨fun _ => Origin.noConfusion, fun _ => hany hmade.unowned⟩
  | rerun sourceId =>
    rw [horigin] at h
    exact ⟨fun _ => Origin.noConfusion, fun _ => hany h.2.unowned⟩
  | workflowNode =>
    rw [horigin] at h
    obtain ⟨⟨n, hn, hid⟩, _⟩ := h
    constructor
    · intro hnone
      exact absurd (decide_eq_true hid) (List.any_eq_false.mp hnone n hn)
    · exact fun hne => absurd rfl hne

/-- A `create_runs` is accepted as the call that made the use, unless it is mistaken for it or
for another. -/
theorem accepted_same_iff {s : Store} {use : Use} (h : Describes s use) (R : Rendering)
    (requestId jobId : Uuid) (target : TargetSelection) (inputs : Value) (fresh : FreshRuns) :
    (Accepted (.createRuns R requestId jobId target inputs fresh) use ↔
      SameRequest (.createRuns R requestId jobId target inputs fresh) use.origin) ↔
    ¬ Mistaken (.createRuns R requestId jobId target inputs fresh) use := by
  unfold Describes at h
  simp only [Accepted, Mistaken, AdoptsRerun, MisreadsInputs]
  cases horigin : use.origin with
  | createRuns jobId' target' recorded =>
    rw [horigin] at h
    obtain ⟨hjob, htarget, hset, hinputs, _⟩ := h
    have hmatches : Matches (.createRuns R requestId jobId target inputs fresh) use ↔
        jobId' = jobId ∧ target' = target ∧
          jsonInputsEqual (stored R.floats (columnInputs recorded)) inputs = true := by
      simp only [Matches, hjob, htarget, hset, hinputs]
      constructor
      · rintro ⟨hj, ht, hs, hi⟩
        exact ⟨hj, selectionIds_injective (Prod.ext ht hs), hi⟩
      · rintro ⟨hj, rfl, hi⟩
        exact ⟨hj, rfl, rfl, hi⟩
    rw [hmatches]
    by_cases hsame : jobId' = jobId ∧ target' = target
    · obtain ⟨rfl, rfl⟩ := hsame
      by_cases hequal : jsonInputsEqual recorded inputs = true
      · simp [SameRequest, Misread, hequal, jsonInputsEqual_stored hequal]
      · simp [SameRequest, Misread, hequal]
    · rw [not_and] at hsame
      simp only [SameRequest, Origin.createRuns.injEq]
      grind
  | rerun sourceId => simp [SameRequest]
  | workflowNode => simp [SameRequest]

/-- The check of a call whose id is reserved. -/
theorem checked_cases {s : ControlPlane.State} {uses : List Use} (h : Logged s uses) {use : Use}
    (huse : use ∈ uses) {call : Call} (hid : use.row.requestId = call.requestId)
    (missing : Phase) (created : Bool) :
    (call.checked s.store missing created = .listing created ∧ Accepted call use) ∨
    (call.checked s.store missing created = .finished (.error .idempotencyConflict) ∧
      ¬ Accepted call use) := by
  have hfind := h.findRunRequest huse call.floats
  rw [hid] at hfind
  cases call with
  | createRuns R requestId jobId target inputs fresh =>
    have howned := owned_iff (h.described use huse)
    rw [hid] at howned
    rcases compareRunRequest_cases ({ use.row with
        inputs := stored R.floats (columnInputs use.row.inputs) },
      s.store.workflowNodeRuns.any fun n => n.id = requestId) jobId target inputs with
      ⟨hok, hfree, hcolumns⟩ | ⟨herror, hcolumns⟩
    · refine .inl ⟨?_, howned.mp hfree, hcolumns⟩
      simp only [Call.checked, hfind]
      exact hok ▸ rfl
    · refine .inr ⟨?_, ?_⟩
      · simp only [Call.checked, hfind]
        exact herror ▸ rfl
      · rintro ⟨hnode, hmatches⟩
        exact hcolumns ⟨howned.mpr hnode, hmatches⟩
  | rerunRun =>
    refine .inl ⟨?_, trivial⟩
    simp only [Call.checked, hfind]

theorem Honoured.refused {call : Call} {use : Use} (h : ¬ SameRequest call use.origin) :
    Honoured call use (.error .idempotencyConflict) :=
  ⟨fun hsame => absurd hsame h, fun _ => rfl⟩

/-- An equal call lists the Runs of the use. -/
theorem listed_same {s : ControlPlane.State} {uses : List Use} (h : Logged s uses) {use : Use}
    (huse : use ∈ uses) {call : Call} (hid : use.row.requestId = call.requestId)
    (hsame : SameRequest call use.origin) (created : Bool) :
    ∃ runs, call.listed s.store created = .ok (runs, created) ∧
      ∀ x, x ∈ runs.map RunRow.id ↔ x ∈ use.runIds := by
  have hdescribes := h.described use huse
  unfold Describes at hdescribes
  cases call with
  | createRuns R requestId jobId target inputs fresh =>
    cases horigin : use.origin with
    | createRuns =>
      rw [horigin] at hdescribes
      obtain ⟨_, _, _, _, hmade⟩ := hdescribes
      have hids := h.listed_ids hmade
      rw [hid] at hids
      exact ⟨_, rfl, hids⟩
    | rerun =>
      rw [horigin] at hsame
      exact hsame.elim
    | workflowNode =>
      rw [horigin] at hsame
      exact hsame.elim
  | rerunRun F sourceId requestId runId ids =>
    cases horigin : use.origin with
    | rerun sourceId' =>
      rw [horigin] at hsame hdescribes
      obtain ⟨⟨x, hx⟩, hmade⟩ := hdescribes
      have hids := h.listed_ids hmade
      have hone (y : Uuid) :
          y ∈ (runsForRequest s.store use.row.requestId).map RunRow.id ↔ y = x := by
        rw [hids, hx, List.mem_singleton]
      obtain ⟨r, hr⟩ := singleton_of_ids (h.runsForRequest_nodup _) hone
      have hmem : r ∈ runsForRequest s.store use.row.requestId := by
        rw [hr]
        exact List.mem_cons_self
      obtain ⟨hmem, hrequest⟩ := h.mem_runsForRequest.mp hmem
      have hsource : r.rerunOfRunId = some sourceId := by
        rw [(hmade.only r hmem hrequest).2]
        exact congrArg some hsame
      rw [hid] at hr hids
      refine ⟨[r], ?_, hr ▸ hids⟩
      simp only [Call.listed]
      rw [show runsForRequest s.store requestId = [r] from hr]
      exact if_pos hsource
    | createRuns =>
      rw [horigin] at hsame
      exact hsame.elim
    | workflowNode =>
      rw [horigin] at hsame
      exact hsame.elim

/-- A re-run of another Run, or of no Run, is told apart by its origin. -/
theorem listed_rerun_other {s : ControlPlane.State} {uses : List Use} (h : Logged s uses)
    {use : Use} (huse : use ∈ uses) {F : FloatFormat} {sourceId requestId runId : Uuid}
    {ids : DispatchIds}
    (hid : use.row.requestId = requestId)
    (hother : ¬ SameRequest (.rerunRun F sourceId requestId runId ids) use.origin)
    (created : Bool) :
    (Call.rerunRun F sourceId requestId runId ids).listed s.store created =
      .error .idempotencyConflict := by
  have hdescribes := h.described use huse
  have horigin : ∀ r ∈ s.store.runs, r.requestId = some use.row.requestId →
      r.rerunOfRunId ≠ some sourceId := by
    intro r hr hrequest heq
    unfold Describes at hdescribes
    split at hdescribes
    · obtain ⟨_, _, _, _, hmade⟩ := hdescribes
      rw [(hmade.only r hr hrequest).2] at heq
      cases heq
    · rename_i source hsource
      rw [(hdescribes.2.only r hr hrequest).2] at heq
      rw [hsource] at hother
      exact hother (Option.some.inj heq)
    · rw [hdescribes.2 r hr hrequest] at heq
      cases heq
  rw [hid] at horigin
  simp only [Call.listed]
  split
  · rename_i run hrun
    have hmem : run ∈ runsForRequest s.store requestId := by
      rw [hrun]
      exact List.mem_cons_self
    obtain ⟨hmem, hrequest⟩ := h.mem_runsForRequest.mp hmem
    exact if_neg (horigin run hmem hrequest)
  · rfl

/-- A listing honours the use of its id, unless the call is mistaken. -/
theorem listed_honoured {s : ControlPlane.State} {uses : List Use} (h : Logged s uses) {use : Use}
    (huse : use ∈ uses) {call : Call} (hid : use.row.requestId = call.requestId)
    (haccepted : Accepted call use) :
    Honoured call use (call.listed s.store false) ↔ ¬ Mistaken call use := by
  cases call with
  | createRuns R requestId jobId target inputs fresh =>
    rw [← accepted_same_iff (h.described use huse) R requestId jobId target inputs fresh,
      iff_true_left haccepted]
    constructor
    · intro hhonoured
      by_contra hother
      cases hhonoured.2 hother
    · intro hsame
      exact ⟨fun _ => listed_same h huse hid hsame false, fun hother => absurd hsame hother⟩
  | rerunRun F sourceId requestId runId ids =>
    have hnot : ¬ Mistaken (.rerunRun F sourceId requestId runId ids) use := by
      rintro (⟨_, hmatches⟩ | hmisread)
      · exact hmatches
      · exact hmisread
    rw [iff_true_right hnot]
    by_cases hsame : SameRequest (.rerunRun F sourceId requestId runId ids) use.origin
    · exact ⟨fun _ => listed_same h huse hid hsame false, fun hother => absurd hsame hother⟩
    · have hlisted : (Call.rerunRun F sourceId requestId runId ids).listed s.store false =
          .error .idempotencyConflict := listed_rerun_other h huse hid hsame false
      rw [hlisted]
      exact Honoured.refused hsame

/-- A refusal honours the use of its id, unless the call is mistaken. -/
theorem refused_honoured {s : Store} {use : Use} (h : Describes s use) {call : Call}
    (hrefused : ¬ Accepted call use) :
    Honoured call use (.error .idempotencyConflict) ↔ ¬ Mistaken call use := by
  cases call with
  | createRuns R requestId jobId target inputs fresh =>
    rw [← accepted_same_iff h R requestId jobId target inputs fresh, iff_false_left hrefused]
    constructor
    · intro hhonoured hsame
      obtain ⟨_, hruns, _⟩ := hhonoured.1 hsame
      cases hruns
    · exact Honoured.refused
  | rerunRun => exact absurd trivial hrefused

theorem listed_not_created {call : Call} {s : Store} (runs : List RunRow) :
    call.listed s false ≠ .ok (runs, true) := by
  unfold Call.listed
  intro h
  split at h
  · cases h
  · split at h
    · split at h <;> cases h
    · cases h

def Use.MadeBy (use : Use) (i : ℕ) (call : Call) : Prop :=
  use.maker = some i ∧ use.row.requestId = call.requestId ∧ use.origin = call.origin

def Answered (uses : List Use) (call : Call) (answer : Answer) : Prop :=
  (∀ runs, answer ≠ .ok (runs, true)) ∧ ∃ use ∈ uses, use.row.requestId = call.requestId ∧
    (Honoured call use answer ↔ ¬ Mistaken call use)

def Delivered (uses : List Use) (i : ℕ) (call : Call) (answer : Answer) : Prop :=
  ∃ use ∈ uses, Use.MadeBy use i call ∧ ∃ runs, answer = .ok (runs, true) ∧
    ∀ x, x ∈ runs.map RunRow.id ↔ x ∈ use.runIds

def PhaseHolds (uses : List Use) (i : ℕ) (call : Call) (prior : Option Use) : Phase → Prop
  | .checking => True
  | .transacting => prior = none
  | .rechecking true => prior = none ∧ (∃ sourceId, call.origin = .rerun sourceId) ∧
      ∃ use ∈ uses, Use.MadeBy use i call
  | .listing true => prior = none ∧ ∃ use ∈ uses, Use.MadeBy use i call
  | .rechecking false => prior = none ∧ ∃ use ∈ uses, use.row.requestId = call.requestId
  | .listing false => ∃ use ∈ uses, use.row.requestId = call.requestId ∧ Accepted call use
  | .finished answer => Answered uses call answer ∨
      prior = none ∧ ((∃ e, answer = .error e) ∨ Delivered uses i call answer)

structure TicketHolds (uses : List Use) (i : ℕ) (t : Ticket) : Prop where
  prior : ∀ use, t.prior = some use → use ∈ uses ∧ use.row.requestId = t.call.requestId
  phase : PhaseHolds uses i t.call t.prior t.phase

structure Holds (s : Service) : Prop where
  logged : Logged s.control s.uses
  tickets : ∀ i t, s.tickets i = some t → TicketHolds s.uses i t

theorem PhaseHolds.mono {uses added : List Use} {i : ℕ} {call : Call} {prior : Option Use}
    {phase : Phase} (h : PhaseHolds uses i call prior phase) :
    PhaseHolds (uses ++ added) i call prior phase := by
  have hmem {use : Use} (huse : use ∈ uses) : use ∈ uses ++ added := List.mem_append_left _ huse
  match phase, h with
  | .checking, _ => trivial
  | .transacting, h => exact h
  | .rechecking true, ⟨hprior, hrerun, use, huse, hmade⟩ =>
    exact ⟨hprior, hrerun, use, hmem huse, hmade⟩
  | .rechecking false, ⟨hprior, use, huse, hid⟩ => exact ⟨hprior, use, hmem huse, hid⟩
  | .listing true, ⟨hprior, use, huse, hmade⟩ => exact ⟨hprior, use, hmem huse, hmade⟩
  | .listing false, ⟨use, huse, hid⟩ => exact ⟨use, hmem huse, hid⟩
  | .finished _, .inl ⟨hreplay, use, huse, hanswer⟩ =>
    exact .inl ⟨hreplay, use, hmem huse, hanswer⟩
  | .finished _, .inr ⟨hprior, .inl herror⟩ => exact .inr ⟨hprior, .inl herror⟩
  | .finished _, .inr ⟨hprior, .inr ⟨use, huse, hmade⟩⟩ =>
    exact .inr ⟨hprior, .inr ⟨use, hmem huse, hmade⟩⟩

theorem TicketHolds.mono {uses added : List Use} {i : ℕ} {t : Ticket}
    (h : TicketHolds uses i t) : TicketHolds (uses ++ added) i t where
  prior := by
    intro use huse
    obtain ⟨hmem, hid⟩ := h.prior use huse
    exact ⟨List.mem_append_left _ hmem, hid⟩
  phase := h.phase.mono

theorem enter_self (s : Service) (i : ℕ) (t : Ticket) (phase : Phase) :
    (s.enter i t phase).tickets i = some { t with phase := phase } :=
  Function.update_self _ _ _

theorem enter_of_ne (s : Service) {i j : ℕ} (h : j ≠ i) (t : Ticket) (phase : Phase) :
    (s.enter i t phase).tickets j = s.tickets j :=
  Function.update_of_ne h _ _

theorem Holds.enter {s : Service} {control : ControlPlane.State} {added : List Use} (h : Holds s)
    (hlogged : Logged control (s.uses ++ added)) {i : ℕ} {t : Ticket} (ht : s.tickets i = some t)
    {phase : Phase} (hphase : PhaseHolds (s.uses ++ added) i t.call t.prior phase) :
    Holds (Service.enter ⟨control, s.uses ++ added, s.tickets⟩ i t phase) where
  logged := hlogged
  tickets := by
    intro j u hu
    by_cases hj : j = i
    · subst hj
      rw [enter_self] at hu
      cases hu
      exact ⟨(h.tickets j t ht).mono.prior, hphase⟩
    · rw [enter_of_ne _ hj] at hu
      exact (h.tickets j u hu).mono

theorem Holds.read {s : Service} (h : Holds s) {i : ℕ} {t : Ticket} (ht : s.tickets i = some t)
    {phase : Phase} (hphase : PhaseHolds s.uses i t.call t.prior phase) :
    Holds (s.enter i t phase) := by
  have hentered : Holds (Service.enter ⟨s.control, s.uses ++ [], s.tickets⟩ i t phase) := by
    apply h.enter _ ht
    · rw [List.append_nil]
      exact hphase
    · rw [List.append_nil]
      exact h.logged
  rw [List.append_nil] at hentered
  exact hentered

theorem checked_holds {s : Service} (h : Holds s) {use : Use} (huse : use ∈ s.uses) {i : ℕ}
    {call : Call} {prior : Option Use} (hid : use.row.requestId = call.requestId)
    (missing : Phase) :
    PhaseHolds s.uses i call prior (call.checked s.control.store missing false) := by
  rcases checked_cases h.logged huse hid missing false with
    ⟨hlisting, haccepted⟩ | ⟨hconflict, hrefused⟩
  · rw [hlisting]
    exact ⟨use, huse, hid, haccepted⟩
  · rw [hconflict]
    exact .inl ⟨nofun, use, huse, hid,
      refused_honoured (h.logged.described use huse) hrefused⟩

theorem sameRequest_origin (call : Call) : SameRequest call call.origin := by
  cases call with
  | createRuns => exact ⟨rfl, rfl, by simp [jsonInputsEqual]⟩
  | rerunRun => rfl

theorem Use.MadeBy.same {use : Use} {i : ℕ} {call : Call} (h : Use.MadeBy use i call) :
    SameRequest call use.origin := by
  rw [h.2.2]
  exact sameRequest_origin call

theorem checked_maker {s : Service} (h : Holds s) {use : Use} (huse : use ∈ s.uses) {i : ℕ}
    {call : Call} (hmade : Use.MadeBy use i call)
    (hrerun : ∃ sourceId, call.origin = .rerun sourceId) (missing : Phase) :
    call.checked s.control.store missing true = .listing true := by
  rcases checked_cases h.logged huse hmade.2.1 missing true with ⟨hlisting, _⟩ | ⟨_, hrefused⟩
  · exact hlisting
  · obtain ⟨_, horigin⟩ := hrerun
    cases call with
    | createRuns => cases horigin
    | rerunRun => exact absurd trivial hrefused

theorem checked_free {s : Service} {call : Call} (h : Logged s.control s.uses)
    (hfree : ∀ use ∈ s.uses, use.row.requestId ≠ call.requestId) (missing : Phase)
    (created : Bool) : call.checked s.control.store missing created = missing := by
  have hfind : RunStore.findRunRequest call.floats s.control.store call.requestId = none := by
    rw [RunStore.findRunRequest, Option.map_eq_none_iff, List.find?_eq_none]
    intro q hq hid
    rw [← h.rows] at hq
    obtain ⟨use, huse, rfl⟩ := List.mem_map.mp hq
    exact hfree use huse (of_decide_eq_true hid)
  simp only [Call.checked, hfind]

theorem committed_holds {s : Service} (h : Holds s) (call : Call) (i : ℕ) (now : Instant) :
    PhaseHolds (s.uses ++ call.uses i s.control.store (transact s.control (call.command now)))
      i call none (call.committed (call.transaction now s.control.store)) := by
  rcases transaction_cases call now s.control with
    ⟨_, ⟨e, herror⟩ | ⟨htaken, q, hq, hid⟩⟩ | hcreated
  · rw [herror]
    exact .inr ⟨rfl, .inl ⟨e, rfl⟩⟩
  · rw [htaken]
    rw [← h.logged.rows] at hq
    obtain ⟨use, huse, rfl⟩ := List.mem_map.mp hq
    exact ⟨rfl, use, List.mem_append_left _ huse, hid⟩
  · obtain ⟨row, created, hreserves, _⟩ := transaction_created hcreated
    have hmade : ∃ use ∈ s.uses ++ call.uses i s.control.store
        (transact s.control (call.command now)), Use.MadeBy use i call := by
      rw [Call.uses, addedRequests_append hreserves.rows, List.map_singleton]
      exact ⟨_, List.mem_append_right _ (List.mem_singleton.mpr rfl), rfl, hreserves.key, rfl⟩
    rw [hcreated]
    cases call with
    | createRuns => exact ⟨rfl, hmade⟩
    | rerunRun F sourceId => exact ⟨rfl, ⟨sourceId, rfl⟩, hmade⟩

theorem Holds.advance {s : Service} (h : Holds s) {i : ℕ} {t : Ticket}
    (ht : s.tickets i = some t) (now : Instant) : Holds (s.advance i now t) := by
  have hphase := (h.tickets i t ht).phase
  unfold Service.advance
  match hp : t.phase with
  | .checking =>
    apply h.read ht
    by_cases hused : ∃ use ∈ s.uses, use.row.requestId = t.call.requestId
    · obtain ⟨use, huse, hid⟩ := hused
      exact checked_holds h huse hid .transacting
    · have hfree : ∀ use ∈ s.uses, use.row.requestId ≠ t.call.requestId :=
        fun use huse hid => hused ⟨use, huse, hid⟩
      rw [checked_free h.logged hfree]
      cases hprior : t.prior with
      | none => rfl
      | some use =>
        obtain ⟨huse, hid⟩ := (h.tickets i t ht).prior use hprior
        exact absurd hid (hfree use huse)
  | .transacting =>
    rw [hp] at hphase
    have hcommitted := committed_holds h t.call i now
    rw [← show t.prior = none from hphase] at hcommitted
    exact h.enter (h.logged.transaction t.call i now) ht hcommitted
  | .rechecking true =>
    rw [hp] at hphase
    obtain ⟨hprior, hrerun, use, huse, hmade⟩ := hphase
    apply h.read ht
    rw [checked_maker h huse hmade hrerun]
    exact ⟨hprior, use, huse, hmade⟩
  | .rechecking false =>
    rw [hp] at hphase
    obtain ⟨_, use, huse, hid⟩ := hphase
    exact h.read ht (checked_holds h huse hid _)
  | .listing true =>
    rw [hp] at hphase
    obtain ⟨hprior, use, huse, hmade⟩ := hphase
    obtain ⟨runs, hlisted, hids⟩ := listed_same h.logged huse hmade.2.1 hmade.same true
    apply h.read ht
    exact .inr ⟨hprior, .inr ⟨use, huse, hmade, runs, hlisted, hids⟩⟩
  | .listing false =>
    rw [hp] at hphase
    obtain ⟨use, huse, hid, haccepted⟩ := hphase
    apply h.read ht
    exact .inl ⟨listed_not_created, use, huse, hid, listed_honoured h.logged huse hid haccepted⟩
  | .finished _ => exact h

theorem next_advance {s : Service} {i : ℕ} {t : Ticket} (ht : s.tickets i = some t)
    (now : Instant) : RequestCalls.next s (.advance i now) = s.advance i now t := by
  simp only [RequestCalls.next, ht]

theorem next_begin (s : Service) (i : ℕ) (call : Call) :
    (RequestCalls.next s (.begin i call)).tickets i = some ⟨call,
      s.uses.find? fun use => use.row.requestId = call.requestId, .checking⟩ :=
  Function.update_self _ _ _

theorem holds_next {s : Service} (h : Holds s) {e : RequestCalls.Event}
    (he : RequestCalls.Enabled s e) : Holds (RequestCalls.next s e) := by
  cases e with
  | control c =>
    refine ⟨h.logged.control he.2 he.1, ?_⟩
    intro i t ht
    exact (h.tickets i t ht).mono
  | «begin» i call =>
    refine ⟨h.logged, ?_⟩
    intro j t ht
    by_cases hj : j = i
    · subst hj
      rw [next_begin] at ht
      cases ht
      refine ⟨?_, trivial⟩
      intro use huse
      have hid := List.find?_some (show s.uses.find? _ = some use from huse)
      exact ⟨List.mem_of_find?_eq_some huse, of_decide_eq_true hid⟩
    · simp only [RequestCalls.next, Function.update_of_ne hj] at ht
      exact h.tickets j t ht
  | advance i now =>
    obtain ⟨t, ht⟩ := Option.ne_none_iff_exists'.mp he
    rw [next_advance ht]
    exact h.advance ht now

theorem initial_holds {s : Service} (h : RequestCalls.initial s) : Holds s := by
  obtain ⟨hcontrol, huses, htickets⟩ := h
  have hreachable : ControlPlane.Reachable s.control := .initial hcontrol
  obtain ⟨catalog, schedules, _, _, hs⟩ := hcontrol
  refine ⟨⟨hreachable, ?_, ?_⟩, ?_⟩
  · rw [huses, hs]
    rfl
  · rw [huses]
    exact fun use huse => absurd huse List.not_mem_nil
  · intro i t ht
    rw [htickets] at ht
    cases ht

theorem reachable_holds {s : Service} (h : RequestCalls.Reachable s) : Holds s := by
  refine h.invariant (fun s => initial_holds) ?_
  intro s e t hs hstep
  obtain ⟨henabled, rfl⟩ := hstep
  exact holds_next hs henabled

/-- Each request id is reserved once, by the operation its row and its Runs belong to; a call
under a reserved id writes nothing and honours the use unless it is mistaken; the other
calls are answered from the use that won, and only its maker reports Runs as created. -/
structure OneRequest (s : Service) : Prop where
  rows : s.uses.map Use.row = s.control.store.runRequests
  once : (s.uses.map fun use => use.row.requestId).Nodup
  described : ∀ use ∈ s.uses, Describes s.control.store use
  known : ∀ use ∈ s.uses, ∀ i call, use.row.requestId = call.requestId →
    (RequestCalls.next s (.begin i call)).tickets i = some ⟨call, some use, .checking⟩
  unchanged : ∀ i t use now, s.tickets i = some t → t.prior = some use →
    (RequestCalls.next s (.advance i now)).control = s.control
  replayed : ∀ i t use answer, s.tickets i = some t → t.prior = some use →
    t.phase = .finished answer → (Honoured t.call use answer ↔ ¬ Mistaken t.call use)
  overtaken : ∀ i t runs, s.tickets i = some t → t.phase = .finished (.ok (runs, false)) →
    ∃ use ∈ s.uses, use.row.requestId = t.call.requestId ∧
      (Honoured t.call use (.ok (runs, false)) ↔ ¬ Mistaken t.call use)
  created : ∀ i t runs, s.tickets i = some t → t.phase = .finished (.ok (runs, true)) →
    ∃ use ∈ s.uses, use.row.requestId = t.call.requestId ∧ use.maker = some i ∧
      ∀ x, x ∈ runs.map RunRow.id ↔ x ∈ use.runIds

theorem Holds.unchanged {s : Service} (h : Holds s) {i : ℕ} {t : Ticket} {use : Use}
    (ht : s.tickets i = some t) (hprior : t.prior = some use) (now : Instant) :
    (s.advance i now t).control = s.control := by
  have hphase := (h.tickets i t ht).phase
  unfold Service.advance
  match hp : t.phase with
  | .transacting =>
    rw [hp, hprior] at hphase
    cases hphase
  | .checking | .rechecking _ | .listing _ | .finished _ => rfl

theorem Holds.replayed {s : Service} (h : Holds s) {i : ℕ} {t : Ticket} {use : Use}
    {answer : Answer} (ht : s.tickets i = some t) (hprior : t.prior = some use)
    (hp : t.phase = .finished answer) :
    Honoured t.call use answer ↔ ¬ Mistaken t.call use := by
  have hphase := (h.tickets i t ht).phase
  obtain ⟨huse, hid⟩ := (h.tickets i t ht).prior use hprior
  rw [hp] at hphase
  rcases hphase with ⟨_, other, hother, hotherId, hiff⟩ | ⟨hnone, _⟩
  · rw [h.logged.use_unique hother huse (hotherId.trans hid.symm)] at hiff
    exact hiff
  · rw [hprior] at hnone
    cases hnone

theorem request_id_identifies_one_request {s : Service} (h : RequestCalls.Reachable s) :
    OneRequest s := by
  have hholds := reachable_holds h
  have honce : (s.uses.map fun use => use.row.requestId).Nodup := by
    have hkeys := (reachable_keysUnique hholds.logged.reachable).requests
    rw [← hholds.logged.rows, List.map_map] at hkeys
    exact hkeys
  refine ⟨hholds.logged.rows, honce, hholds.logged.described, ?_, ?_, ?_, ?_, ?_⟩
  · intro use huse i call hid
    rw [next_begin]
    cases hfind : s.uses.find? fun use => use.row.requestId = call.requestId with
    | none => exact absurd (decide_eq_true hid) (List.find?_eq_none.mp hfind use huse)
    | some other =>
      have hother := List.find?_some hfind
      simp only [decide_eq_true_eq] at hother
      rw [hholds.logged.use_unique (List.mem_of_find?_eq_some hfind) huse (hother.trans hid.symm)]
  · intro i t use now ht hprior
    rw [next_advance ht]
    exact hholds.unchanged ht hprior now
  · intro i t use answer ht hprior hp
    exact hholds.replayed ht hprior hp
  · intro i t runs ht hp
    have hphase := (hholds.tickets i t ht).phase
    rw [hp] at hphase
    rcases hphase with hanswered | ⟨_, ⟨e, herror⟩ | ⟨use, huse, hmade, _, hcreated, _⟩⟩
    · exact hanswered.2
    · cases herror
    · cases hcreated
  · intro i t runs ht hp
    have hphase := (hholds.tickets i t ht).phase
    rw [hp] at hphase
    rcases hphase with ⟨hreplay, _⟩ | ⟨_, ⟨e, herror⟩ | ⟨use, huse, hmade, _, hcreated, hids⟩⟩
    · exact absurd rfl (hreplay runs)
    · cases herror
    · cases hcreated
      exact ⟨use, huse, hmade.2.1, hmade.1, hids⟩

def demoReplay : List RequestCalls.Event :=
  demoAdoption.take 13 ++
    [.begin 2 (.rerunRun demoFormat 6 40 60 ⟨61, 62⟩), .advance 2 3, .advance 2 3]

theorem demoReplay_admitted : RequestCalls.system.Admits demoService demoReplay := by
  refine ⟨rfl, nofun, nofun, nofun, ⟨rfl, trivial⟩, ⟨rfl, ?_⟩, ⟨rfl, trivial⟩, ⟨rfl, trivial⟩,
    rfl, nofun, nofun, nofun, nofun, rfl, nofun, nofun, trivial⟩
  exact List.mem_singleton.mpr rfl

theorem request_id_identifies_one_request_demo :
    ∃ t use runs, (RequestCalls.system.run demoService demoReplay).tickets 2 = some t ∧
      t.prior = some use ∧ use.runIds = [41] ∧ t.phase = .finished (.ok (runs, false)) ∧
      Honoured t.call use (.ok (runs, false)) := by
  have hreachable : RequestCalls.Reachable (RequestCalls.system.run demoService demoReplay) :=
    ⟨demoService, demoService_initial, .of_admits demoReplay_admitted⟩
  refine ⟨_, _, _, rfl, rfl, rfl, rfl, ?_⟩
  refine ((request_id_identifies_one_request hreachable).replayed 2 _ _ _ rfl rfl rfl).mpr ?_
  rintro (⟨_, hmatches⟩ | hmisread)
  · exact hmatches
  · exact hmisread

end RequestAnswers
