import Crono.RequestCalls

/-! What a request id stands for. Every row of `run_requests` is reserved by one operation, and
the Runs under its id are those this operation made, whatever commits afterwards. -/
namespace RunRequests

open RunDomain WorkflowDomain SqlTable ControlPlaneSchema RunStore WorkflowStore
open ControlPlane StoreWrites RequestTable RequestCalls
open ExecutionInputs (FloatFormat)
open StoredValues (columnInputs stored)

/-- The Runs under a request id are those of the use, with one origin. -/
structure Made (s : Store) (use : Use) (rerunOf : Option Uuid) : Prop where
  unowned : ¬ Owned s use.row.requestId
  only : ∀ r ∈ s.runs, r.requestId = some use.row.requestId →
    r.id ∈ use.runIds ∧ r.rerunOfRunId = rerunOf
  all : ∀ x ∈ use.runIds, ∃ r ∈ s.runs, r.id = x ∧ r.requestId = some use.row.requestId

def Describes (s : Store) (use : Use) : Prop :=
  match use.origin with
  | .createRuns jobId target inputs => use.row.jobId = jobId ∧
      use.row.targetId = (selectionIds target).1 ∧ use.row.targetSetId = (selectionIds target).2 ∧
      use.row.inputs = inputs ∧ Made s use none
  | .rerun sourceId => (∃ x, use.runIds = [x]) ∧ Made s use (some sourceId)
  | .workflowNode => Owned s use.row.requestId ∧
      ∀ r ∈ s.runs, r.requestId = some use.row.requestId → r.rerunOfRunId = none

structure Logged (control : ControlPlane.State) (uses : List Use) : Prop where
  reachable : ControlPlane.Reachable control
  rows : uses.map Use.row = control.store.runRequests
  described : ∀ use ∈ uses, Describes control.store use

theorem Logged.row_mem {control : ControlPlane.State} {uses : List Use} (h : Logged control uses)
    {use : Use} (hu : use ∈ uses) : use.row ∈ control.store.runRequests := by
  rw [← h.rows]
  exact List.mem_map_of_mem hu

theorem Logged.use_unique {control : ControlPlane.State} {uses : List Use}
    (h : Logged control uses) {u v : Use} (hu : u ∈ uses) (hv : v ∈ uses)
    (hid : u.row.requestId = v.row.requestId) : u = v := by
  have hkeys := (reachable_keysUnique h.reachable).requests
  rw [← h.rows, List.map_map] at hkeys
  exact row_unique hkeys hu hv hid

theorem scopeOf_request {c : Command} (h : called c = false) : (scopeOf c).request = none := by
  cases c <;> first | rfl | cases h

theorem Made.kept {scope : Scope} {s t : Store} {use : Use} {rerunOf : Option Uuid}
    (h : Made s use rerunOf) (hwrites : Writes scope s t)
    (hscope : scope.request ≠ some use.row.requestId)
    (hunowned : ¬ Owned t use.row.requestId) : Made t use rerunOf where
  unowned := hunowned
  only := by
    intro r hr hrequest
    rcases hwrites.run_origin r hr with ⟨r₀, hr₀, hmoved⟩ | hnew
    · have hcolumns := hmoved.columns
      have hbefore := h.only r₀ hr₀ (by rw [hcolumns] at hrequest; exact hrequest)
      rw [hcolumns]
      exact hbefore
    · rcases hnew _ hrequest with hown | ⟨_, _, hnode, _⟩
      · exact absurd hown hscope
      · exact absurd hnode hunowned
  all := by
    intro x hx
    obtain ⟨r, hr, hid, hrequest⟩ := h.all x hx
    obtain ⟨r', hr', hmoved⟩ := hwrites.evolves.runs.of_mem hr
    refine ⟨r', hr', ?_, ?_⟩
    · rw [hmoved.columns]
      exact hid
    · rw [hmoved.columns]
      exact hrequest

theorem Describes.kept {scope : Scope} {s t : Store} {use : Use} (h : Describes s use)
    (hwrites : Writes scope s t) (hscope : scope.request ≠ some use.row.requestId)
    (hnodes : Owned t use.row.requestId → Owned s use.row.requestId) : Describes t use := by
  unfold Describes at h ⊢
  split at h
  · obtain ⟨hjob, htarget, hset, hinputs, hmade⟩ := h
    exact ⟨hjob, htarget, hset, hinputs,
      hmade.kept hwrites hscope fun howned => hmade.unowned (hnodes howned)⟩
  · obtain ⟨hone, hmade⟩ := h
    exact ⟨hone, hmade.kept hwrites hscope fun howned => hmade.unowned (hnodes howned)⟩
  · obtain ⟨howned, hruns⟩ := h
    refine ⟨howned.kept hwrites.evolves, ?_⟩
    intro r hr hrequest
    rcases hwrites.run_origin r hr with ⟨r₀, hr₀, hmoved⟩ | hnew
    · have hcolumns := hmoved.columns
      have hbefore := hruns r₀ hr₀ (by rw [hcolumns] at hrequest; exact hrequest)
      rw [hcolumns]
      exact hbefore
    · rcases hnew _ hrequest with hown | ⟨_, _, _, hnone, _⟩
      · exact absurd hown hscope
      · exact hnone

theorem addedRequests_append {s t : Store} {added : List RunRequestRow}
    (h : t.runRequests = s.runRequests ++ added) : addedRequests s t = added := by
  simp [addedRequests, h]

/-- A command outside every call. -/
theorem Logged.control {s : ControlPlane.State} {uses : List Use} (h : Logged s uses) {c : Command}
    (hc : ControlPlane.Enabled s c) (hcalled : called c = false) :
    Logged (ControlPlane.next s c) (uses ++ launchedUses s.store (transact s c)) := by
  have hk := reachable_keysUnique h.reachable
  have hwrites := transact_writes hk hc
  have hkeys := hwrites.keysUnique hk
  have hrequest := scopeOf_request hcalled
  have hextends := transact_extends hk hc hrequest
  obtain ⟨added, hrows, howned⟩ := hextends.rows
  refine ⟨h.reachable.tail ⟨hc, rfl⟩, ?_, ?_⟩
  · rw [List.map_append, h.rows, launchedUses, addedRequests_append hrows, List.map_map]
    simp only [Function.comp_def, List.map_id']
    exact hrows.symm
  · intro use huse
    rcases List.mem_append.mp huse with huse | huse
    · refine (h.described use huse).kept hwrites (by rw [hrequest]; exact nofun) ?_
      rintro ⟨n, hn, hid⟩
      rcases hextends.nodes n hn with ⟨n₀, hn₀, hid₀⟩ | ⟨_, hfresh⟩
      · exact ⟨n₀, hn₀, hid₀.trans hid⟩
      · exact absurd hid.symm (hfresh _ (h.row_mem huse))
    · rw [launchedUses, addedRequests_append hrows] at huse
      obtain ⟨q, hq, rfl⟩ := List.mem_map.mp huse
      refine ⟨howned q hq, ?_⟩
      intro r hr hrun
      rcases hwrites.run_origin r hr with ⟨r₀, hr₀, hmoved⟩ | hnew
      · have hbefore : r₀.requestId = some q.requestId := by
          rw [hmoved.columns] at hrun
          exact hrun
        obtain ⟨q₀, hq₀, hid₀⟩ := (reachable_requested h.reachable).runs r₀ hr₀ _ hbefore
        have hnodup := hkeys.requests
        rw [hrows, List.map_append, List.nodup_append] at hnodup
        exact absurd hid₀ (hnodup.2.2 _ (List.mem_map_of_mem hq₀) _ (List.mem_map_of_mem hq))
      · rcases hnew _ hrun with hown | ⟨_, _, _, hnone, _⟩
        · rw [hrequest] at hown
          cases hown
        · exact hnone

def Call.rerunOf : Call → Option Uuid
  | .createRuns _ _ _ _ _ _ => none
  | .rerunRun _ sourceId _ _ _ => some sourceId

def Recorded (call : Call) (row : RunRequestRow) (created : List RunRow) : Prop :=
  match call with
  | .createRuns _ _ jobId target inputs _ => row.jobId = jobId ∧
      row.targetId = (selectionIds target).1 ∧ row.targetSetId = (selectionIds target).2 ∧
      row.inputs = inputs
  | .rerunRun _ _ _ _ _ => ∃ r, created = [r]

theorem transaction_created {call : Call} {now : Instant} {s t : Store}
    (h : call.transaction now s = .ok (.created, t)) :
    ∃ row created, Reserves call.requestId (Call.rerunOf call) s t row created ∧
      Recorded call row created := by
  cases call with
  | createRuns => exact createRunsTransaction_reserves h
  | rerunRun =>
    obtain ⟨row, run, hreserves⟩ := insertRerunTransaction_reserves h
    exact ⟨row, [run], hreserves, run, rfl⟩

theorem transaction_cases (call : Call) (now : Instant) (s : ControlPlane.State) :
    (transact s (call.command now) = s.store ∧
      ((∃ e, call.transaction now s.store = .error e) ∨
        call.transaction now s.store = .ok (.requestTaken, s.store) ∧
          ∃ q ∈ s.store.runRequests, q.requestId = call.requestId)) ∨
    call.transaction now s.store = .ok (.created, transact s (call.command now)) := by
  have htransact : transact s (call.command now) =
      commitRequest s.store (call.transaction now s.store) := by
    cases call <;> rfl
  rw [htransact]
  rcases hc : call.transaction now s.store with e | ⟨_ | _, t⟩
  · exact .inl ⟨rfl, .inl ⟨e, rfl⟩⟩
  · exact .inr rfl
  · have htaken : t = s.store ∧ ∃ q ∈ s.store.runRequests, q.requestId = call.requestId := by
      cases call with
      | createRuns =>
        rcases createRunsTransaction_ok hc with ⟨_, rfl, hq⟩ | ⟨hcreated, _⟩
        · exact ⟨rfl, hq⟩
        · cases hcreated
      | rerunRun =>
        rcases insertRerunTransaction_ok hc with ⟨_, rfl, hq⟩ | ⟨hcreated, _⟩
        · exact ⟨rfl, hq⟩
        · cases hcreated
    obtain ⟨rfl, hq⟩ := htaken
    exact .inl ⟨rfl, .inr ⟨rfl, hq⟩⟩

theorem Reserves.runIds {requestId : Uuid} {rerunOf : Option Uuid} {s t : Store}
    {row : RunRequestRow} {created : List RunRow}
    (h : Reserves requestId rerunOf s t row created) (hrequested : Requested s) :
    runIdsOf t requestId = created.map RunRow.id := by
  have hbefore : s.runs.filter (fun r => r.requestId = some requestId) = [] := by
    rw [List.filter_eq_nil_iff]
    intro r hr hrequest
    obtain ⟨q, hq, hid⟩ := hrequested.runs r hr _ (of_decide_eq_true hrequest)
    exact h.fresh q hq hid
  have hafter : created.filter (fun r => r.requestId = some requestId) = created := by
    rw [List.filter_eq_self]
    intro r hr
    exact decide_eq_true (h.made r hr).1
  rw [runIdsOf, h.runs, List.filter_append, hbefore, hafter, List.nil_append]

/-- The use a call logs is what its transaction wrote. -/
theorem Reserves.describes {call : Call} {s t : Store} {row : RunRequestRow}
    {created : List RunRow} (hrequested : Requested s)
    (h : Reserves call.requestId (Call.rerunOf call) s t row created)
    (hrecorded : Recorded call row created) (i : ℕ) :
    Describes t ⟨row, call.origin, runIdsOf t call.requestId, some i⟩ := by
  have hids := Reserves.runIds h hrequested
  have hmade : Made t ⟨row, call.origin, runIdsOf t call.requestId, some i⟩
      (Call.rerunOf call) := by
    rw [hids]
    refine ⟨?_, ?_, ?_⟩
    · rintro ⟨n, hn, hid⟩
      rw [h.nodes] at hn
      obtain ⟨q, hq, hqid⟩ := hrequested.nodes n hn
      exact h.fresh q hq (hqid.trans (hid.trans h.key))
    · intro r hr hrequest
      rw [h.runs] at hr
      rcases List.mem_append.mp hr with hr | hr
      · obtain ⟨q, hq, hid⟩ := hrequested.runs r hr _ hrequest
        exact absurd (hid.trans h.key) (h.fresh q hq)
      · exact ⟨List.mem_map_of_mem hr, (h.made r hr).2⟩
    · intro x hx
      obtain ⟨r, hr, rfl⟩ := List.mem_map.mp hx
      refine ⟨r, ?_, rfl, ?_⟩
      · rw [h.runs]
        exact List.mem_append_right _ hr
      · rw [(h.made r hr).1, h.key]
  cases call with
  | createRuns =>
    obtain ⟨hjob, htarget, hset, hinputs⟩ := hrecorded
    exact ⟨hjob, htarget, hset, hinputs, hmade⟩
  | rerunRun =>
    obtain ⟨r, rfl⟩ := hrecorded
    exact ⟨⟨r.id, hids⟩, hmade⟩

theorem Logged.same {s : ControlPlane.State} {uses : List Use} (h : Logged s uses) {c : Command}
    (hc : ControlPlane.Enabled s c) (hsame : transact s c = s.store) :
    Logged (ControlPlane.next s c) uses := by
  have hstore : (ControlPlane.next s c).store = s.store := hsame
  refine ⟨h.reachable.tail ⟨hc, rfl⟩, ?_, ?_⟩ <;> rw [hstore]
  · exact h.rows
  · exact h.described

theorem addedRequests_same {s t : Store} (h : t = s) : addedRequests s t = [] := by
  rw [h, addedRequests, List.drop_length]

theorem command_enabled (s : ControlPlane.State) (call : Call) (now : Instant) :
    ControlPlane.Enabled s (call.command now) := by
  cases call <;> trivial

theorem command_scope (call : Call) (now : Instant) :
    scopeOf (call.command now) = .reserve call.requestId := by
  cases call <;> rfl

theorem Logged.transaction {s : ControlPlane.State} {uses : List Use} (h : Logged s uses)
    (call : Call) (i : ℕ) (now : Instant) :
    Logged (ControlPlane.next s (call.command now))
      (uses ++ call.uses i s.store (transact s (call.command now))) := by
  have henabled := command_enabled s call now
  rcases transaction_cases call now s with ⟨hsame, _⟩ | hcreated
  · rw [Call.uses, addedRequests_same hsame, List.map_nil, List.append_nil]
    exact h.same henabled hsame
  obtain ⟨row, created, hreserves, hrecorded⟩ := transaction_created hcreated
  have hwrites := transact_writes (reachable_keysUnique h.reachable) henabled
  rw [command_scope] at hwrites
  rw [Call.uses, addedRequests_append hreserves.rows, List.map_singleton]
  refine ⟨h.reachable.tail ⟨henabled, rfl⟩, ?_, ?_⟩
  · rw [List.map_append, h.rows]
    exact hreserves.rows.symm
  · intro use huse
    rcases List.mem_append.mp huse with huse | huse
    · have hother : use.row.requestId ≠ call.requestId := hreserves.fresh _ (h.row_mem huse)
      refine (h.described use huse).kept hwrites ?_ ?_
      · intro heq
        exact hother (Option.some.inj heq).symm
      · rintro ⟨n, hn, hid⟩
        exact ⟨n, hreserves.nodes ▸ hn, hid⟩
    · rw [List.mem_singleton.mp huse]
      exact Reserves.describes (reachable_requested h.reachable) hreserves hrecorded i

theorem Logged.mem_runsForRequest {s : ControlPlane.State} {uses : List Use} (h : Logged s uses)
    {requestId : Uuid} {r : RunRow} :
    r ∈ runsForRequest s.store requestId ↔ r ∈ s.store.runs ∧ r.requestId = some requestId := by
  have hreferenced := reachable_referenced h.reachable
  simp only [runsForRequest, List.mem_insertionSort, List.mem_filter, Bool.and_eq_true,
    List.any_eq_true, decide_eq_true_eq]
  constructor
  · rintro ⟨hr, ⟨⟨hrequest, _⟩, _⟩, _⟩
    exact ⟨hr, hrequest⟩
  · rintro ⟨hr, hrequest⟩
    obtain ⟨hjob, htarget, hqueue⟩ := hreferenced r hr
    exact ⟨hr, ⟨⟨hrequest, hjob⟩, htarget⟩, hqueue⟩

theorem Logged.runsForRequest_nodup {s : ControlPlane.State} {uses : List Use}
    (h : Logged s uses) (requestId : Uuid) :
    ((runsForRequest s.store requestId).map RunRow.id).Nodup := by
  have hruns := (reachable_keysUnique h.reachable).runs
  rw [runsForRequest, ((List.perm_insertionSort _ _).map RunRow.id).nodup_iff]
  exact hruns.sublist (List.filter_sublist.map RunRow.id)

theorem Logged.listed_ids {s : ControlPlane.State} {uses : List Use} (h : Logged s uses)
    {use : Use} {rerunOf : Option Uuid} (hmade : Made s.store use rerunOf) (x : Uuid) :
    x ∈ (runsForRequest s.store use.row.requestId).map RunRow.id ↔ x ∈ use.runIds := by
  rw [List.mem_map]
  constructor
  · rintro ⟨r, hr, rfl⟩
    obtain ⟨hr, hrequest⟩ := h.mem_runsForRequest.mp hr
    exact (hmade.only r hr hrequest).1
  · intro hx
    obtain ⟨r, hr, hid, hrequest⟩ := hmade.all x hx
    exact ⟨r, h.mem_runsForRequest.mpr ⟨hr, hrequest⟩, hid⟩

theorem singleton_of_ids {rows : List RunRow} {x : Uuid} (hnodup : (rows.map RunRow.id).Nodup)
    (hids : ∀ y, y ∈ rows.map RunRow.id ↔ y = x) : ∃ r, rows = [r] := by
  cases rows with
  | nil => exact absurd ((hids x).mpr rfl) List.not_mem_nil
  | cons a rest =>
    cases rest with
    | nil => exact ⟨a, rfl⟩
    | cons b rest =>
      have ha : a.id = x := (hids a.id).mp List.mem_cons_self
      have hb : b.id = x := (hids b.id).mp (List.mem_cons_of_mem _ List.mem_cons_self)
      simp [ha, hb] at hnodup

theorem Logged.findRunRequest {s : ControlPlane.State} {uses : List Use} (h : Logged s uses)
    {use : Use} (huse : use ∈ uses) (F : FloatFormat) :
    findRunRequest F s.store use.row.requestId =
      some ({ use.row with inputs := stored F (columnInputs use.row.inputs) },
        s.store.workflowNodeRuns.any fun n => n.id = use.row.requestId) := by
  have hmem := h.row_mem huse
  have hkeys := (reachable_keysUnique h.reachable).requests
  cases hfind : s.store.runRequests.find? fun r => r.requestId = use.row.requestId with
  | none =>
    have hnone := List.find?_eq_none.mp hfind _ hmem
    simp at hnone
  | some q =>
    have hid := List.find?_some hfind
    have hq := row_unique hkeys (List.mem_of_find?_eq_some hfind) hmem (of_decide_eq_true hid)
    rw [RunStore.findRunRequest, hfind, hq]
    rfl

end RunRequests
