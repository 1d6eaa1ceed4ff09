import Crono.ApplicationCalls
import Crono.RunNamespaces

/-! Hidden history is missing history. A caller who may not read a Namespace gets from every
operation on Runs and Workflow invocations the answer it would get if the history of that
Namespace were not there, and leaves the rest of the store as it would then. -/
namespace HiddenHistory

open RunDomain WorkflowDomain SqlTable ControlPlaneSchema RunStore WorkflowStore StoreReads
open Capabilities GrantSets GrantPolicy ClientPrograms ApplicationCalls
open StoreWrites RequestTable RunNamespaces
open ExecutionInputs (FloatFormat)
open StoredValues (columnInputs stored)
open FallibleLists

section Hide

variable (N : Uuid) (s : Store)

def hiddenJob (jobId : Uuid) : Bool := jobNamespace s.catalog jobId = some N

def hiddenRun (id : Uuid) : Bool := s.runs.any fun r => r.id = id && hiddenJob N s r.jobId

def hiddenInvocation (id : Uuid) : Bool :=
  s.workflowRuns.any fun w => w.id = id && w.namespaceId = N

def hiddenNode (id : Uuid) : Bool :=
  s.workflowNodeRuns.any fun n => n.id = id && hiddenInvocation N s n.workflowRunId

/-- The store without the Workflows of the Namespace, its Runs with their requests, Attempts,
dispatches and events, and its Workflow Runs with their nodes. -/
def hide : Store where
  catalog := { s.catalog with
    workflows := s.catalog.workflows.filter fun w => w.namespaceId ≠ N }
  schedules := s.schedules
  runRequests := s.runRequests.filter fun q => !hiddenJob N s q.jobId
  runs := s.runs.filter fun r => !hiddenJob N s r.jobId
  runAttempts := s.runAttempts.filter fun a => !hiddenRun N s a.runId
  outbox := s.outbox.filter fun o => !hiddenRun N s o.runId
  runEvents := s.runEvents.filter fun e => !hiddenRun N s e.runId
  scheduleEvents := s.scheduleEvents.filter fun e => !hiddenRun N s e.runId
  workflowRuns := s.workflowRuns.filter fun w => w.namespaceId ≠ N
  workflowNodeRuns := s.workflowNodeRuns.filter fun n => !hiddenInvocation N s n.workflowRunId
  workflowRunEdges := s.workflowRunEdges.filter fun e => !hiddenInvocation N s e.workflowRunId
  workflowNodeExecutions := s.workflowNodeExecutions.filter fun e => !hiddenNode N s e.nodeRunId
  workflowCompletionEvents := s.workflowCompletionEvents.filter fun e =>
    !hiddenInvocation N s e.workflowRunId

end Hide

structure Sound (s : Store) : Prop where
  keys : KeysUnique s
  requested : Requested s
  named : RequestsNamed s
  workflows : ∀ w ∈ s.catalog.workflows, ∀ w' ∈ s.catalog.workflows, w.id = w'.id →
    w.namespaceId = w'.namespaceId

variable {N : Uuid} {s : Store}

theorem any_filter_shown {α : Type} {p q : α → Bool} {rows : List α}
    (h : ∀ x ∈ rows, q x = true → p x = true) : (rows.filter p).any q = rows.any q := by
  rw [Bool.eq_iff_iff, List.any_eq_true, List.any_eq_true]
  constructor
  · rintro ⟨x, hx, hq⟩
    exact ⟨x, (List.mem_filter.mp hx).1, hq⟩
  · rintro ⟨x, hx, hq⟩
    exact ⟨x, List.mem_filter.mpr ⟨hx, h x hx hq⟩, hq⟩

theorem filter_filter_shown {α : Type} {p q : α → Bool} {rows : List α}
    (h : ∀ x ∈ rows, q x = true → p x = true) : (rows.filter p).filter q = rows.filter q := by
  rw [List.filter_filter]
  apply List.filter_congr
  intro x hx
  cases hq : q x with
  | false => rfl
  | true => rw [h x hx hq, Bool.and_true]

theorem hiddenRun_iff (hs : Sound s) {r : RunRow} (hr : r ∈ s.runs) :
    hiddenRun N s r.id = hiddenJob N s r.jobId := by
  rw [Bool.eq_iff_iff, hiddenRun, List.any_eq_true]
  constructor
  · rintro ⟨x, hx, hhidden⟩
    rw [Bool.and_eq_true, decide_eq_true_eq] at hhidden
    rw [← row_unique hs.keys.runs hx hr hhidden.1]
    exact hhidden.2
  · exact fun h => ⟨r, hr, by simp [h]⟩

theorem hiddenInvocation_iff (hk : KeysUnique s) {w : WorkflowRunRow} (hw : w ∈ s.workflowRuns) :
    hiddenInvocation N s w.id = decide (w.namespaceId = N) := by
  rw [Bool.eq_iff_iff, hiddenInvocation, List.any_eq_true]
  constructor
  · rintro ⟨x, hx, hhidden⟩
    rw [Bool.and_eq_true, decide_eq_true_eq] at hhidden
    rw [← row_unique hk.workflowRuns hx hw hhidden.1]
    exact hhidden.2
  · exact fun h => ⟨w, hw, by simpa using h⟩

theorem hiddenNode_iff (hk : KeysUnique s) {n : WorkflowNodeRunRow} (hn : n ∈ s.workflowNodeRuns) :
    hiddenNode N s n.id = hiddenInvocation N s n.workflowRunId := by
  rw [Bool.eq_iff_iff, hiddenNode, List.any_eq_true]
  constructor
  · rintro ⟨x, hx, hhidden⟩
    rw [Bool.and_eq_true, decide_eq_true_eq] at hhidden
    rw [← row_unique hk.nodeRuns hx hn hhidden.1]
    exact hhidden.2
  · exact fun h => ⟨n, hn, by simp [h]⟩

/-- The lookup finds the same, or it finds the hidden Namespace where nothing is left. -/
def Concealed (N : Uuid) (s : Store) (resource : ResourceScope) : Prop :=
  namespaceFor (hide N s) resource = namespaceFor s resource ∨
    (namespaceFor s resource = .ok (some N) ∧ namespaceFor (hide N s) resource = .ok none)

theorem authorize_same {grants : GrantSet} {c : Capability} {resource : ResourceScope}
    (h : namespaceFor (hide N s) resource = namespaceFor s resource) :
    GrantPolicy.authorize (namespaceFor (hide N s)) grants c resource =
      GrantPolicy.authorize (namespaceFor s) grants c resource := by
  have hresource : resourceNamespace (namespaceFor (hide N s)) resource =
      resourceNamespace (namespaceFor s) resource := by
    cases resource <;> simp only [resourceNamespace, h]
  unfold GrantPolicy.authorize
  rw [hresource]

theorem authorize_concealed {grants : GrantSet} {c : Capability} {resource : ResourceScope}
    (hdenial : denial c = .notFound) (hN : (grants.visibility c).includes N = false)
    (h : Concealed N s resource) :
    GrantPolicy.authorize (namespaceFor (hide N s)) grants c resource =
      GrantPolicy.authorize (namespaceFor s) grants c resource := by
  rcases h with hlookup | ⟨hthere, hgone⟩
  · exact authorize_same hlookup
  have hdenied : grants.allowsNamespace c N = false := by
    rw [← GrantSet.visibility_includes]
    exact hN
  unfold GrantPolicy.authorize
  cases resource <;>
    simp only [resourceNamespace, hthere, hgone, hdenied, hdenial, Bool.false_eq_true, if_false]

theorem authorize_visible {grants : GrantSet} {c : Capability} {resource : ResourceScope}
    (hscope : c.definition.scope = .inNamespace) (haccepts : c.acceptsResource resource = true)
    (hN : (grants.visibility c).includes N = false)
    (h : GrantPolicy.authorize (namespaceFor s) grants c resource = .ok ()) :
    resourceNamespace (namespaceFor s) resource ≠ .ok N := by
  intro hresource
  rw [authorize_iff hscope haccepts hresource, ← GrantSet.visibility_includes, hN] at h
  cases h

theorem filter_bind_concealed {α : Type} (found : Option α) {shown : α → Bool}
    {home : α → Option Uuid} (h : ∀ x, shown x = false → home x = some N) :
    (found.filter shown).bind home = found.bind home ∨
      (found.bind home = some N ∧ (found.filter shown).bind home = none) := by
  cases found with
  | none => exact .inl rfl
  | some x =>
    cases hx : shown x with
    | false =>
      right
      rw [Option.filter_some_neg hx]
      exact ⟨h x hx, rfl⟩
    | true =>
      left
      rw [Option.filter_some_pos hx]

theorem find?_runs (hs : Sound s) (id : Uuid) :
    ((hide N s).runs.find? fun r => r.id = id) =
      (s.runs.find? fun r => r.id = id).filter fun r => !hiddenJob N s r.jobId :=
  find?_filter_unique hs.keys.runs id

theorem find?_run (hs : Sound s) {r : RunRow} (hr : r ∈ s.runs) :
    (s.runs.find? fun x => x.id = r.id) = some r :=
  find?_key hs.keys.runs hr

theorem find?_shown_run (hs : Sound s) {r : RunRow} (hr : r ∈ s.runs)
    (hshown : hiddenJob N s r.jobId = false) :
    ((hide N s).runs.find? fun x => x.id = r.id) = some r := by
  rw [find?_runs hs, find?_run hs hr]
  exact Option.filter_some_pos (by simpa using hshown)

theorem find?_workflows (hs : Sound s) (id : Uuid) :
    ((hide N s).catalog.workflows.find? fun w => w.id = id) =
      (s.catalog.workflows.find? fun w => w.id = id).filter fun w => w.namespaceId ≠ N := by
  apply find?_filter_key
  intro w hw w' hw' hid hid'
  rw [hs.workflows w hw w' hw' ((of_decide_eq_true hid).trans (of_decide_eq_true hid').symm)]

theorem find?_workflowRuns (hk : KeysUnique s) (id : Uuid) :
    ((hide N s).workflowRuns.find? fun w => w.id = id) =
      (s.workflowRuns.find? fun w => w.id = id).filter fun w => w.namespaceId ≠ N :=
  find?_filter_unique hk.workflowRuns id

theorem concealed_run (hs : Sound s) (id : Uuid) : Concealed N s (.run id) := by
  unfold Concealed
  simp only [namespaceFor, find?_runs hs, Except.ok.injEq]
  apply filter_bind_concealed
  intro r hr
  have hhidden : hiddenJob N s r.jobId = true := by simpa using hr
  exact of_decide_eq_true hhidden

theorem concealed_workflow (hs : Sound s) (id : Uuid) : Concealed N s (.workflow id) := by
  unfold Concealed
  simp only [namespaceFor, find?_workflows hs, Except.ok.injEq, Option.map_eq_bind]
  apply filter_bind_concealed
  intro w hw
  exact congrArg some (by simpa using hw)

theorem concealed_workflowRun (hs : Sound s) (id : Uuid) : Concealed N s (.workflowRun id) := by
  unfold Concealed
  simp only [namespaceFor, find?_workflowRuns hs.keys, Except.ok.injEq, Option.map_eq_bind]
  apply filter_bind_concealed
  intro w hw
  exact congrArg some (by simpa using hw)

theorem find?_request (hs : Sound s) {r : RunRow} (hr : r ∈ s.runs)
    (hshown : hiddenJob N s r.jobId = false) :
    ((hide N s).runRequests.find? fun q => some q.requestId = r.requestId) =
      s.runRequests.find? fun q => some q.requestId = r.requestId := by
  have hfilter : ((hide N s).runRequests.find? fun q => some q.requestId = r.requestId) =
      (s.runRequests.find? fun q => some q.requestId = r.requestId).filter fun q =>
        !hiddenJob N s q.jobId := by
    apply find?_filter_key
    intro q hq q' hq' hid hid'
    have hsame := (of_decide_eq_true hid).trans (of_decide_eq_true hid').symm
    rw [row_unique hs.keys.requests hq hq' (Option.some.inj hsame)]
  rw [hfilter]
  cases hfind : s.runRequests.find? fun q => some q.requestId = r.requestId with
  | none => rfl
  | some q =>
    have hid : some q.requestId = r.requestId := by simpa using List.find?_some hfind
    have hjob := hs.named r hr q (List.mem_of_find?_eq_some hfind) hid.symm
    exact Option.filter_some_pos (by simpa [← hjob] using hshown)

theorem selectedTargetSet_hide (hs : Sound s) {r : RunRow} (hr : r ∈ s.runs)
    (hshown : hiddenJob N s r.jobId = false) :
    selectedTargetSet (hide N s) r = selectedTargetSet s r := by
  unfold selectedTargetSet
  rw [find?_request hs hr hshown]
  rfl

theorem runRecord_hide (hs : Sound s) {r : RunRow} (hr : r ∈ s.runs)
    (hshown : hiddenJob N s r.jobId = false) : runRecord (hide N s) r = runRecord s r := by
  unfold runRecord
  rw [selectedTargetSet_hide hs hr hshown]
  rfl

theorem runRecord_some {r : RunRow} {record : RunRecord} (h : runRecord s r = some record) :
    record.id = r.id ∧ record.jobId = r.jobId ∧
      jobNamespace s.catalog r.jobId = some record.jobNamespace := by
  unfold runRecord at h
  simp only [Option.bind_eq_bind, Option.bind_eq_some_iff, Option.pure_def,
    Option.some.injEq] at h
  obtain ⟨j, hj, t, ht, q, hq, rfl⟩ := h
  refine ⟨rfl, rfl, ?_⟩
  unfold jobNamespace
  rw [hj]
  rfl

theorem getRun_hide (hs : Sound s) {scope : VisibilityScope} (hN : scope.includes N = false)
    (id : Uuid) : StoreReads.getRun id scope (hide N s) = StoreReads.getRun id scope s := by
  unfold StoreReads.getRun
  rw [find?_runs hs]
  cases hfind : s.runs.find? fun r => r.id = id with
  | none => rfl
  | some r =>
    have hr := List.mem_of_find?_eq_some hfind
    cases hhidden : hiddenJob N s r.jobId with
    | false =>
      rw [Option.filter_some_pos (by simpa using hhidden), Option.bind_some, Option.bind_some,
        runRecord_hide hs hr hhidden]
    | true =>
      rw [Option.filter_some_neg (by simpa using hhidden), Option.bind_none, Option.bind_some]
      cases hrecord : runRecord s r with
      | none => rfl
      | some record =>
        have hnamespace : record.jobNamespace = N := by
          have hjob := (runRecord_some hrecord).2.2
          rw [of_decide_eq_true hhidden] at hjob
          exact (Option.some.inj hjob).symm
        cases scope <;> simp [hnamespace, hN]

/-- A Run that was read is shown. -/
theorem getRun_shown {scope : VisibilityScope} (hN : scope.includes N = false)
    {id : Uuid} {record : RunRecord} (h : StoreReads.getRun id scope s = .ok record) :
    ∃ r ∈ s.runs, r.id = id ∧ record.id = id ∧ record.jobId = r.jobId ∧
      hiddenJob N s r.jobId = false := by
  have hrecord : (s.runs.find? fun r => r.id = id).bind (runRecord s) = some record ∧
      scope.includes record.jobNamespace = true := by
    unfold StoreReads.getRun at h
    split at h
    · cases h
    · split at h
      · cases h
      · rename_i found hfound
        split at h
        · rename_i hvisible
          cases h
          exact ⟨hfound, hvisible⟩
        · cases h
  obtain ⟨⟨r, hfind, hrecord⟩, hvisible⟩ := And.imp_left Option.bind_eq_some_iff.mp hrecord
  obtain ⟨hid, hjob, hnamespace⟩ := runRecord_some hrecord
  have hrow : r.id = id := by simpa using List.find?_some hfind
  refine ⟨r, List.mem_of_find?_eq_some hfind, hrow, hid.trans hrow, hjob, ?_⟩
  rw [hiddenJob, hnamespace]
  apply decide_eq_false
  intro hN'
  rw [Option.some.inj hN', hN] at hvisible
  cases hvisible

theorem runAttempts_hide (hs : Sound s) {r : RunRow} (hr : r ∈ s.runs)
    (hshown : hiddenJob N s r.jobId = false) (scope : VisibilityScope) :
    runAttempts r.id scope (hide N s) = runAttempts r.id scope s := by
  have hrun : hiddenRun N s r.id = false := (hiddenRun_iff hs hr).trans hshown
  unfold runAttempts
  rw [find?_shown_run hs hr hshown, find?_run hs hr]
  congr 3
  apply filter_filter_shown
  intro a _ ha
  rw [Bool.and_eq_true, decide_eq_true_eq] at ha
  rw [ha.1, hrun]
  rfl

theorem runEvents_hide (hs : Sound s) {r : RunRow} (hr : r ∈ s.runs)
    (hshown : hiddenJob N s r.jobId = false) : runEvents r.id (hide N s) = runEvents r.id s := by
  have hrun : hiddenRun N s r.id = false := (hiddenRun_iff hs hr).trans hshown
  unfold runEvents
  congr 3
  apply filter_filter_shown
  intro e _ he
  rw [of_decide_eq_true he, hrun]
  rfl

theorem listRuns_hide (hs : Sound s) {scope : VisibilityScope} (hN : scope.includes N = false)
    (filter : RunListFilter) (limit : ℕ) (before : Option Uuid) :
    StoreReads.listRuns scope filter limit before (hide N s) =
      StoreReads.listRuns scope filter limit before s := by
  have hrows : (hide N s).runs.filterMap (listedRun scope filter before (hide N s)) =
      s.runs.filterMap (listedRun scope filter before s) := by
    change (s.runs.filter _).filterMap _ = _
    rw [List.filterMap_filter]
    apply List.filterMap_congr
    intro r hr
    cases hhidden : hiddenJob N s r.jobId with
    | false =>
      simp only [Bool.not_false, if_true, listedRun, RunListFilter.accepts,
        runRecord_hide hs hr hhidden, selectedTargetSet_hide hs hr hhidden]
    | true =>
      simp only [Bool.not_true, Bool.false_eq_true, if_false, listedRun]
      cases hrecord : runRecord s r with
      | none => rfl
      | some record =>
        have hjob := (runRecord_some hrecord).2.2
        rw [of_decide_eq_true hhidden] at hjob
        rw [Option.filter_some_neg]
        simp [← Option.some.inj hjob, hN]
  unfold StoreReads.listRuns
  rw [hrows]

theorem getWorkflow_hide (hs : Sound s) {id : Uuid}
    (hshown : resourceNamespace (namespaceFor s) (.workflow id) ≠ .ok N) :
    StoreReads.getWorkflow (hide N s) id = StoreReads.getWorkflow s id := by
  unfold StoreReads.getWorkflow catalog
  rw [find?_workflows hs]
  cases hfind : s.catalog.workflows.find? fun w => w.id = id with
  | none => rfl
  | some w =>
    have hother : w.namespaceId ≠ N := by
      intro hN
      apply hshown
      simp only [resourceNamespace, namespaceFor, hfind, Option.map_some, hN]
    rw [Option.filter_some_pos (by simpa using hother)]

theorem childRuns_hide (hk : KeysUnique s) {n : WorkflowNodeRunRow} (hn : n ∈ s.workflowNodeRuns)
    (hshown : hiddenInvocation N s n.workflowRunId = false) :
    childRuns (hide N s) n.id = childRuns s n.id := by
  have hnode : hiddenNode N s n.id = false := (hiddenNode_iff hk hn).trans hshown
  unfold childRuns
  congr 2
  apply filter_filter_shown
  intro e _ he
  rw [of_decide_eq_true he, hnode]
  rfl

theorem find?_shown_invocation (hk : KeysUnique s) {id : Uuid}
    (hshown : hiddenInvocation N s id = false) :
    ((hide N s).workflowRuns.find? fun w => w.id = id) =
      s.workflowRuns.find? fun w => w.id = id := by
  rw [find?_workflowRuns hk]
  cases hfound : s.workflowRuns.find? fun w => w.id = id with
  | none => rfl
  | some w =>
    have hid : w.id = id := by simpa using List.find?_some hfound
    have hother := hiddenInvocation_iff (N := N) hk (List.mem_of_find?_eq_some hfound)
    rw [hid, hshown] at hother
    exact Option.filter_some_pos (by simpa using hother.symm)

theorem invocation_hide (hk : KeysUnique s) {id : Uuid} (hshown : hiddenInvocation N s id = false) :
    invocation (hide N s) id = invocation s id := by
  have hnodes : ((hide N s).workflowNodeRuns.filter fun n => n.workflowRunId = id) =
      s.workflowNodeRuns.filter fun n => n.workflowRunId = id := by
    apply filter_filter_shown
    intro n _ hn
    rw [of_decide_eq_true hn, hshown]
    rfl
  unfold invocation
  rw [find?_shown_invocation hk hshown, hnodes]
  cases s.workflowRuns.find? fun w => w.id = id with
  | none => rfl
  | some row =>
    have hrecords : ∀ n ∈ (s.workflowNodeRuns.filter fun n => n.workflowRunId = id).insertionSort
        (fun a b => a.name ≤ b.name), nodeRecord (hide N s) n = nodeRecord s n := by
      intro n hn
      have hmem := (List.perm_insertionSort _ _).mem_iff.mp hn
      rw [List.mem_filter, decide_eq_true_eq] at hmem
      unfold nodeRecord
      rw [childRuns_hide hk hmem.1 (hmem.2 ▸ hshown)]
    rw [mapM_congr hrecords]

theorem getWorkflowRun_hide (hs : Sound s) {id : Uuid}
    (hshown : hiddenInvocation N s id = false) (scope : VisibilityScope) :
    StoreReads.getWorkflowRun id scope (hide N s) = StoreReads.getWorkflowRun id scope s := by
  unfold StoreReads.getWorkflowRun
  rw [find?_shown_invocation hs.keys hshown, invocation_hide hs.keys hshown]

theorem invocation_shown (hs : Sound s) {id : Uuid}
    (h : resourceNamespace (namespaceFor s) (.workflowRun id) ≠ .ok N) :
    hiddenInvocation N s id = false := by
  rw [← Bool.not_eq_true, hiddenInvocation, List.any_eq_true]
  rintro ⟨w, hw, hhidden⟩
  rw [Bool.and_eq_true, decide_eq_true_eq, decide_eq_true_eq] at hhidden
  obtain ⟨rfl, hnamespace⟩ := hhidden
  have hfind : (s.workflowRuns.find? fun x => x.id = w.id) = some w :=
    find?_key hs.keys.workflowRuns hw
  apply h
  simp only [resourceNamespace, namespaceFor, hfind, Option.map_some, hnamespace]

theorem getWorkflowRun_id {id : Uuid} {scope : VisibilityScope} {record : WorkflowRunRecord}
    (h : StoreReads.getWorkflowRun id scope s = .ok record) : record.id = id := by
  unfold StoreReads.getWorkflowRun at h
  split at h
  · cases h
  split at h
  · unfold invocation at h
    split at h
    · cases h
    · rename_i row hfind
      obtain ⟨nodes, _, h⟩ := ok_of_bind h
      obtain ⟨workflow, _, h⟩ := ok_of_bind h
      obtain ⟨target, _, h⟩ := ok_of_bind h
      cases h
      simpa using List.find?_some hfind
  · cases h

theorem page_items_subset {α : Type} {rows : List α} {limit : ℕ} {cursor : α → Uuid} {x : α}
    (h : x ∈ (page rows limit cursor).items) : x ∈ rows := by
  unfold page at h
  split at h
  · exact List.mem_of_mem_dropLast h
  · exact h

theorem listWorkflowRuns_hide (hs : Sound s) {scope : VisibilityScope}
    (hN : scope.includes N = false) (id : Uuid) (limit : ℕ) (before : Option Uuid) :
    StoreReads.listWorkflowRuns id scope limit before (hide N s) =
      StoreReads.listWorkflowRuns id scope limit before s := by
  have hrows : ((hide N s).workflowRuns.filter fun w => w.workflowId = id &&
        (before.all fun x => w.id < x) && scope.includes w.namespaceId) =
      s.workflowRuns.filter fun w => w.workflowId = id &&
        (before.all fun x => w.id < x) && scope.includes w.namespaceId := by
    apply filter_filter_shown
    intro w _ hw
    rw [Bool.and_eq_true] at hw
    apply decide_eq_true
    intro hnamespace
    rw [hnamespace, hN] at hw
    cases hw.2
  unfold StoreReads.listWorkflowRuns
  rw [hrows]
  refine congrArg (· >>= _) (mapM_congr ?_)
  intro x hx
  have hmem := List.mem_of_mem_take (page_items_subset hx)
  obtain ⟨w, hw, rfl⟩ := List.mem_map.mp ((List.perm_insertionSort _ _).mem_iff.mp hmem)
  rw [List.mem_filter, Bool.and_eq_true] at hw
  have hother : w.namespaceId ≠ N := by
    intro hnamespace
    rw [hnamespace, hN] at hw
    exact absurd hw.2.2 (by decide)
  apply getWorkflowRun_hide hs
  rw [hiddenInvocation_iff hs.keys hw.1]
  exact decide_eq_false hother

theorem any_fresh {α : Type} {q : α → Bool} {rows : List α} (h : ∀ x ∈ rows, q x = false)
    (p : α → Bool) : rows.any q = false ∧ (rows.filter p).any q = false := by
  have hnone := List.any_eq_false.mpr fun x hx => Bool.not_eq_true _ ▸ h x hx
  exact ⟨hnone, List.any_eq_false.mpr fun x hx =>
    Bool.not_eq_true _ ▸ h x (List.mem_filter.mp hx).1⟩

theorem filter_concat {α : Type} {p : α → Bool} {x : α} (rows : List α) (h : p x = true) :
    (rows ++ [x]).filter p = rows.filter p ++ [x] := by
  rw [List.filter_append, List.filter_cons_of_pos h, List.filter_nil]

theorem insertRunRequest_hide {row : RunRequestRow}
    (hfresh : ∀ q ∈ s.runRequests, q.requestId ≠ row.requestId)
    (hshown : hiddenJob N s row.jobId = false) :
    insertRunRequest row (hide N s) = (insertRunRequest row s).map (hide N) := by
  have hfree : ∀ q ∈ s.runRequests, decide (q.requestId = row.requestId) = false :=
    fun q hq => decide_eq_false (hfresh q hq)
  obtain ⟨hs, hhide⟩ := any_fresh hfree fun q => !hiddenJob N s q.jobId
  have hrows := filter_concat (p := fun q => !hiddenJob N s q.jobId) s.runRequests
    (by simpa using hshown)
  unfold insertRunRequest
  rw [hs, if_neg Bool.false_ne_true]
  change (if ((s.runRequests.filter _).any _) then _ else _) = _
  rw [hhide, if_neg Bool.false_ne_true]
  exact congrArg (fun rows => Except.ok { hide N s with runRequests := rows }) hrows.symm

theorem hiddenRun_append {row : RunRow} (hshown : hiddenJob N s row.jobId = false) :
    hiddenRun N { s with runs := s.runs ++ [row] } = hiddenRun N s := by
  funext id
  unfold hiddenRun
  change (s.runs ++ [row]).any (fun r => r.id = id && hiddenJob N s r.jobId) = _
  simp [List.any_append, hshown]

theorem insertRun_hide {row : RunRow} (hfresh : ∀ r ∈ s.runs, r.id ≠ row.id)
    (hunscheduled : row.scheduleId = none) (hshown : hiddenJob N s row.jobId = false) :
    insertRun row (hide N s) = (insertRun row s).map (hide N) := by
  have hfree : ∀ r ∈ s.runs, decide (r.id = row.id) = false :=
    fun r hr => decide_eq_false (hfresh r hr)
  obtain ⟨hs, hhide⟩ := any_fresh hfree fun r => !hiddenJob N s r.jobId
  have hrows := filter_concat (p := fun r => !hiddenJob N s r.jobId) s.runs
    (by simpa using hshown)
  have hstore : hide N { s with runs := s.runs ++ [row] } =
      { hide N s with runs := (hide N s).runs ++ [row] } := by
    have hfields : hide N { s with runs := s.runs ++ [row] } =
        { hide N s with
          runs := (s.runs ++ [row]).filter fun r => !hiddenJob N s r.jobId
          runAttempts := s.runAttempts.filter fun a =>
            !hiddenRun N { s with runs := s.runs ++ [row] } a.runId
          outbox := s.outbox.filter fun o =>
            !hiddenRun N { s with runs := s.runs ++ [row] } o.runId
          runEvents := s.runEvents.filter fun e =>
            !hiddenRun N { s with runs := s.runs ++ [row] } e.runId
          scheduleEvents := s.scheduleEvents.filter fun e =>
            !hiddenRun N { s with runs := s.runs ++ [row] } e.runId } := rfl
    rw [hfields, hrows, hiddenRun_append hshown]
    rfl
  unfold insertRun
  rw [hs, hunscheduled, if_neg Bool.false_ne_true]
  change (if ((s.runs.filter _).any _) then _ else _) = _
  rw [hhide, if_neg Bool.false_ne_true]
  simp only [Option.isSome_none, Bool.false_and, Bool.false_eq_true, if_false]
  have hqueues : (hide N s).catalog.queues = s.catalog.queues := rfl
  have hjobs : (hide N s).catalog.jobs = s.catalog.jobs := rfl
  have htargets : (hide N s).catalog.targets = s.catalog.targets := rfl
  rw [hqueues, hjobs, htargets]
  split
  · rfl
  split
  · rfl
  cases s.catalog.jobs.find? fun j => j.id = row.jobId with
  | none => rfl
  | some job =>
    cases s.catalog.targets.find? fun t => t.id = row.targetId with
    | none => rfl
    | some target =>
      by_cases hsame : job.namespaceId = target.namespaceId
      · simp only [hsame, if_true]
        exact congrArg Except.ok hstore.symm
      · simp only [hsame, if_false]
        rfl

theorem any_run_hide {id : Uuid} (hshown : hiddenRun N s id = false) :
    ((hide N s).runs.any fun r => r.id = id) = s.runs.any fun r => r.id = id := by
  apply any_filter_shown
  intro r hr hid
  have hother := List.any_eq_false.mp hshown r hr
  simpa [of_decide_eq_true hid] using hother

theorem insertAttempt_hide {row : AttemptRow}
    (hfresh : ∀ a ∈ s.runAttempts, a.id ≠ row.id ∧ a.runId ≠ row.runId)
    (hshown : hiddenRun N s row.runId = false) :
    insertAttempt row (hide N s) = (insertAttempt row s).map (hide N) := by
  have hfree : ∀ a ∈ s.runAttempts, (decide (a.id = row.id) ||
      decide (a.runId = row.runId) && decide (a.attempt = row.attempt)) = false := by
    intro a ha
    simp [hfresh a ha]
  obtain ⟨hs, hhide⟩ := any_fresh hfree fun a => !hiddenRun N s a.runId
  have hrows := filter_concat (p := fun a => !hiddenRun N s a.runId) s.runAttempts
    (by simpa using hshown)
  unfold insertAttempt
  rw [hs, any_run_hide hshown, if_neg Bool.false_ne_true]
  change (if ((s.runAttempts.filter _).any _) then _ else _) = _
  rw [hhide, if_neg Bool.false_ne_true]
  split
  · rfl
  split
  · rfl
  exact congrArg (fun rows => Except.ok { hide N s with runAttempts := rows }) hrows.symm

theorem insertOutbox_hide {row : OutboxRow}
    (hfresh : ∀ o ∈ s.outbox, o.id ≠ row.id ∧ o.attemptId ≠ row.attemptId)
    (hshown : hiddenRun N s row.runId = false)
    (hattempt : ∀ a ∈ s.runAttempts, a.id = row.attemptId → hiddenRun N s a.runId = false) :
    insertOutbox row (hide N s) = (insertOutbox row s).map (hide N) := by
  have hfree : ∀ o ∈ s.outbox,
      (decide (o.id = row.id) || decide (o.attemptId = row.attemptId)) = false := by
    intro o ho
    simp [hfresh o ho]
  obtain ⟨hs, hhide⟩ := any_fresh hfree fun o => !hiddenRun N s o.runId
  have hrows := filter_concat (p := fun o => !hiddenRun N s o.runId) s.outbox
    (by simpa using hshown)
  have hattempts : ((hide N s).runAttempts.any fun a => a.id = row.attemptId) =
      s.runAttempts.any fun a => a.id = row.attemptId := by
    apply any_filter_shown
    intro a ha hid
    simpa using hattempt a ha (of_decide_eq_true hid)
  unfold insertOutbox
  rw [hs, any_run_hide hshown, hattempts, if_neg Bool.false_ne_true]
  change (if ((s.outbox.filter _).any _) then _ else _) = _
  rw [hhide, if_neg Bool.false_ne_true]
  split
  · rfl
  split
  · rfl
  exact congrArg (fun rows => Except.ok { hide N s with outbox := rows }) hrows.symm

theorem insertRunEvent_hide {runId : Uuid} (hshown : hiddenRun N s runId = false)
    (eventType : RunEventType) (now : Instant) :
    insertRunEvent runId eventType now (hide N s) =
      hide N (insertRunEvent runId eventType now s) := by
  have hrows := filter_concat (p := fun e => !hiddenRun N s e.runId) (x := ⟨runId, eventType, now⟩)
    s.runEvents (by simpa using hshown)
  exact congrArg (fun rows => { hide N s with runEvents := rows }) hrows.symm

theorem bind_hide {α : Type} {x : Except StoreError Store} {f : Store → Except StoreError α}
    {g : α → α} (h : ∀ t, x = .ok t → f (hide N t) = (f t).map g) :
    (x.map (hide N) >>= f) = (x >>= f).map g := by
  cases x with
  | error e => rfl
  | ok t => exact h t rfl

theorem createAttemptAndOutbox_hide {ids : DispatchIds} {runId queueId : Uuid}
    (hattempt : ∀ a ∈ s.runAttempts, a.id ≠ ids.attemptId ∧ a.runId ≠ runId)
    (hdispatch : ∀ o ∈ s.outbox, o.id ≠ ids.dispatchId ∧ o.attemptId ≠ ids.attemptId)
    (hshown : hiddenRun N s runId = false) (attempt : ℕ) (deadline : Option Instant)
    (now : Instant) :
    createAttemptAndOutbox ids runId attempt queueId deadline now (hide N s) =
      (createAttemptAndOutbox ids runId attempt queueId deadline now s).map (hide N) := by
  unfold createAttemptAndOutbox
  rw [insertAttempt_hide hattempt hshown]
  apply bind_hide
  intro t ht
  obtain ⟨_, rfl⟩ := insertAttempt_ok ht
  apply insertOutbox_hide hdispatch hshown
  intro a ha hid
  rcases List.mem_append.mp ha with hold | hnew
  · exact absurd hid (hattempt a hold).1
  · rw [List.mem_singleton.mp hnew]
    exact hshown

theorem createAttemptAndOutbox_runs {ids : DispatchIds} {runId queueId : Uuid} {attempt : ℕ}
    {deadline : Option Instant} {now : Instant} {t : Store}
    (h : createAttemptAndOutbox ids runId attempt queueId deadline now s = .ok t) :
    t.runRequests = s.runRequests ∧ t.workflowNodeRuns = s.workflowNodeRuns ∧
      hiddenRun N t = hiddenRun N s := by
  obtain ⟨u, hu, ht⟩ := ok_of_bind h
  obtain ⟨_, rfl⟩ := insertAttempt_ok hu
  obtain ⟨_, rfl⟩ := insertOutbox_ok ht
  exact ⟨rfl, rfl, rfl⟩

structure Unused (requestId runId : Uuid) (ids : DispatchIds) (s : Store) : Prop where
  request : ∀ q ∈ s.runRequests, q.requestId ≠ requestId
  run : ∀ r ∈ s.runs, r.id ≠ runId
  attempt : ∀ a ∈ s.runAttempts, a.id ≠ ids.attemptId ∧ a.runId ≠ runId
  dispatch : ∀ o ∈ s.outbox, o.id ≠ ids.dispatchId ∧ o.attemptId ≠ ids.attemptId

def insertRerunRows (ids : DispatchIds) (request : RunRequestRow) (run : RunRow) (now : Instant)
    (s : Store) : Except StoreError (RequestCommit × Store) := do
  let s ← insertRunRequest request s
  let s ← insertRun run s
  let s ← createAttemptAndOutbox ids run.id 1 run.queueId none now s
  return (.created, insertRunEvent run.id .created now s)

theorem insertRerunRows_hide {ids : DispatchIds} {request : RunRequestRow} {run : RunRow}
    (hunused : Unused request.requestId run.id ids s) (hunscheduled : run.scheduleId = none)
    (hjob : request.jobId = run.jobId) (hshown : hiddenJob N s run.jobId = false)
    (now : Instant) :
    insertRerunRows ids request run now (hide N s) =
      (insertRerunRows ids request run now s).map (Prod.map id (hide N)) := by
  unfold insertRerunRows
  rw [insertRunRequest_hide hunused.request (hjob ▸ hshown)]
  apply bind_hide
  intro s₁ hs₁
  obtain ⟨_, rfl⟩ := insertRunRequest_ok hs₁
  rw [insertRun_hide (s := { s with runRequests := s.runRequests ++ [request] }) hunused.run
    hunscheduled hshown]
  apply bind_hide
  intro s₂ hs₂
  obtain ⟨_, _, _, _, _, rfl⟩ := insertRun_ok hs₂
  have hshownRun : hiddenRun N { s with
      runRequests := s.runRequests ++ [request], runs := s.runs ++ [run] } run.id = false := by
    rw [hiddenRun_append (s := { s with runRequests := s.runRequests ++ [request] }) hshown]
    apply List.any_eq_false.mpr
    intro r hr
    simp [hunused.run r hr]
  rw [createAttemptAndOutbox_hide (s := { s with
    runRequests := s.runRequests ++ [request], runs := s.runs ++ [run] }) hunused.attempt
    hunused.dispatch hshownRun]
  apply bind_hide
  intro s₃ hs₃
  have hthere : hiddenRun N s₃ run.id = false := by
    rw [(createAttemptAndOutbox_runs hs₃).2.2]
    exact hshownRun
  rw [insertRunEvent_hide hthere]
  rfl

theorem insertRerunRows_ok {ids : DispatchIds} {request : RunRequestRow} {run : RunRow}
    {now : Instant} {outcome : RequestCommit} {t : Store}
    (h : insertRerunRows ids request run now s = .ok (outcome, t)) :
    t.catalog = s.catalog ∧ t.runRequests = s.runRequests ++ [request] ∧
      t.workflowNodeRuns = s.workflowNodeRuns := by
  obtain ⟨s₁, hs₁, h⟩ := ok_of_bind h
  obtain ⟨s₂, hs₂, h⟩ := ok_of_bind h
  obtain ⟨s₃, hs₃, h⟩ := ok_of_bind h
  obtain ⟨_, rfl⟩ := insertRunRequest_ok hs₁
  obtain ⟨_, _, _, _, _, rfl⟩ := insertRun_ok hs₂
  obtain ⟨s₄, hs₄, hs₃⟩ := ok_of_bind hs₃
  obtain ⟨_, rfl⟩ := insertAttempt_ok hs₄
  obtain ⟨_, rfl⟩ := insertOutbox_ok hs₃
  cases h
  exact ⟨rfl, rfl, rfl⟩

section Rerun

variable {F : FloatFormat} {requestId runId : Uuid} {ids : DispatchIds} {r : RunRow}
  {now : Instant}

/-- The request and the Run of a re-run, from the source and what is read beside it. -/
def rerunRows (F : FloatFormat) (jobs : List JobRow) (queues : List QueueRow) (inputs : Value)
    (r : RunRow) (requestId runId : Uuid) (now : Instant) :
    Except StoreError (RunRequestRow × RunRow) :=
  match jobs.find? fun j => j.id = r.jobId, queues.find? fun q => q.id = r.queueId with
  | some job, some queue =>
    if !queue.enabled then .error .queueDisabled
    else
      match r.executionSnapshot with
      | .renderError _ _ => .error .internal
      | .execution snapshot => .ok
          (⟨requestId, job.namespaceId, r.jobId, some r.targetId, none, inputs⟩,
            normalRun ⟨runId, requestId, r.jobId, r.targetId, r.queueId, r.maxAttempts,
              .execution (rerunSnapshot F runId r snapshot)⟩ (some r.id) now)
  | _, _ => .error .notFound

theorem rerunRows_ok {jobs : List JobRow} {queues : List QueueRow} {inputs : Value}
    {request : RunRequestRow} {run : RunRow}
    (h : rerunRows F jobs queues inputs r requestId runId now = .ok (request, run)) :
    request.requestId = requestId ∧ request.jobId = r.jobId ∧ run.id = runId ∧
      run.scheduleId = none ∧ run.jobId = r.jobId := by
  unfold rerunRows at h
  split at h
  · split at h
    · cases h
    · split at h
      · cases h
      · cases h
        exact ⟨rfl, rfl, rfl, rfl, rfl⟩
  · cases h

theorem insertRerunTransaction_eq (hfind : (s.runs.find? fun x => x.id = r.id) = some r)
    (hnew : (s.runRequests.any fun q => q.requestId = requestId) = false) :
    insertRerunTransaction F r.id requestId runId ids now s =
      (rerunRows F s.catalog.jobs s.catalog.queues
          (stored F (columnInputs (invocationInputs s r))) r requestId runId now >>=
        fun rows => insertRerunRows ids rows.1 rows.2 now s) := by
  unfold insertRerunTransaction rerunRows
  rw [hfind]
  dsimp only
  cases s.catalog.jobs.find? fun j => j.id = r.jobId with
  | none => rfl
  | some job =>
    cases s.catalog.queues.find? fun q => q.id = r.queueId with
    | none => rfl
    | some queue =>
      obtain ⟨_, _, enabled⟩ := queue
      cases r.executionSnapshot with
      | renderError message inputs => cases enabled <;> rfl
      | execution snapshot =>
        rw [hnew]
        cases enabled <;> rfl

theorem insertRerunTransaction_hide (hs : Sound s) (hr : r ∈ s.runs)
    (hshown : hiddenJob N s r.jobId = false) (hunused : Unused requestId runId ids s) :
    insertRerunTransaction F r.id requestId runId ids now (hide N s) =
      (insertRerunTransaction F r.id requestId runId ids now s).map (Prod.map id (hide N)) := by
  have hinputs : invocationInputs (hide N s) r = invocationInputs s r := by
    unfold invocationInputs
    rw [find?_request hs hr hshown]
    rfl
  have hfree : ∀ q ∈ s.runRequests, decide (q.requestId = requestId) = false :=
    fun q hq => decide_eq_false (hunused.request q hq)
  obtain ⟨hnew, hnewHide⟩ := any_fresh hfree fun q => !hiddenJob N s q.jobId
  rw [insertRerunTransaction_eq (find?_run hs hr) hnew,
    insertRerunTransaction_eq (find?_shown_run hs hr hshown) hnewHide, hinputs]
  change (rerunRows F s.catalog.jobs s.catalog.queues _ r requestId runId now >>= _) = _
  cases hrows : rerunRows F s.catalog.jobs s.catalog.queues
      (stored F (columnInputs (invocationInputs s r))) r requestId runId now with
  | error e => rfl
  | ok rows =>
    obtain ⟨hrequest, hrequestJob, hrun, hunscheduled, hjob⟩ := rerunRows_ok hrows
    apply insertRerunRows_hide
    · rw [hrequest, hrun]
      exact hunused
    · exact hunscheduled
    · rw [hrequestJob, hjob]
    · rw [hjob]
      exact hshown

theorem insertRerunTransaction_requests (hs : Sound s) (hr : r ∈ s.runs)
    (hunused : Unused requestId runId ids s) {outcome : RequestCommit} {t : Store}
    (h : insertRerunTransaction F r.id requestId runId ids now s = .ok (outcome, t)) :
    t.catalog = s.catalog ∧ t.workflowNodeRuns = s.workflowNodeRuns ∧
      ∃ q, t.runRequests = s.runRequests ++ [q] ∧ q.jobId = r.jobId := by
  have hnew : (s.runRequests.any fun q => q.requestId = requestId) = false :=
    List.any_eq_false.mpr fun q hq => by simp [hunused.request q hq]
  rw [insertRerunTransaction_eq (find?_run hs hr) hnew] at h
  obtain ⟨rows, hrows, h⟩ := ok_of_bind h
  obtain ⟨hcatalog, hrequests, hnodes⟩ := insertRerunRows_ok h
  exact ⟨hcatalog, hnodes, rows.1, hrequests, (rerunRows_ok hrows).2.1⟩

theorem findRunRequest_hide (hs : Sound s)
    (hshown : ∀ q ∈ s.runRequests, q.requestId = requestId → hiddenJob N s q.jobId = false)
    (hnode : ∀ n ∈ s.workflowNodeRuns, n.id ≠ requestId) :
    findRunRequest F (hide N s) requestId = findRunRequest F s requestId := by
  have hfilter : ((hide N s).runRequests.find? fun q => q.requestId = requestId) =
      (s.runRequests.find? fun q => q.requestId = requestId).filter fun q =>
        !hiddenJob N s q.jobId :=
    find?_filter_unique hs.keys.requests requestId
  have hfree : ∀ n ∈ s.workflowNodeRuns, decide (n.id = requestId) = false :=
    fun n hn => decide_eq_false (hnode n hn)
  obtain ⟨hnone, hnoneHide⟩ := any_fresh hfree fun n => !hiddenInvocation N s n.workflowRunId
  unfold findRunRequest
  rw [hfilter, hnone]
  change Option.map (fun r : RunRequestRow =>
    ({ r with inputs := stored F (columnInputs r.inputs) },
      (s.workflowNodeRuns.filter _).any _)) _ = _
  rw [hnoneHide]
  cases hfind : s.runRequests.find? fun q => q.requestId = requestId with
  | none => rfl
  | some q =>
    have hid : q.requestId = requestId := by simpa using List.find?_some hfind
    have hq := hshown q (List.mem_of_find?_eq_some hfind) hid
    rw [Option.filter_some_pos (by simpa using hq)]

theorem runRecordsForRequest_hide (hs : Sound s) {q : RunRequestRow} (hq : q ∈ s.runRequests)
    (hid : q.requestId = requestId) (hshown : hiddenJob N s q.jobId = false) :
    runRecordsForRequest (hide N s) requestId = runRecordsForRequest s requestId := by
  have hjob : ∀ x ∈ s.runs, x.requestId = some requestId → hiddenJob N s x.jobId = false := by
    intro x hx hrequest
    rw [hs.named x hx q hq (hid ▸ hrequest)]
    exact hshown
  have hruns : runsForRequest (hide N s) requestId = runsForRequest s requestId := by
    unfold runsForRequest
    refine congrArg (List.insertionSort (runOrder s.catalog)) (filter_filter_shown ?_)
    intro x hx hrequest
    simp only [Bool.and_eq_true, decide_eq_true_eq] at hrequest
    rw [hjob x hx hrequest.1.1.1]
    rfl
  unfold runRecordsForRequest
  rw [hruns]
  apply List.filterMap_congr
  intro x hx
  have hmem := (List.perm_insertionSort _ _).mem_iff.mp hx
  simp only [List.mem_filter, Bool.and_eq_true, decide_eq_true_eq] at hmem
  exact runRecord_hide hs hmem.1 (hjob x hmem.1 hmem.2.1.1.1)

end Rerun

section Update

variable {p : WorkflowRunRow → Bool} {f : WorkflowRunRow → WorkflowRunRow}

theorem hiddenInvocation_update (hid : ∀ w, (f w).id = w.id)
    (hnamespace : ∀ w, (f w).namespaceId = w.namespaceId) :
    hiddenInvocation N (updateWorkflowRuns p f s) = hiddenInvocation N s := by
  funext id
  unfold hiddenInvocation
  change (s.workflowRuns.map _).any _ = _
  rw [List.any_map]
  congr 1
  funext w
  by_cases hp : p w = true
  · simp [hp, hid, hnamespace]
  · simp [hp]

theorem hide_updateWorkflowRuns (hid : ∀ w, (f w).id = w.id)
    (hnamespace : ∀ w, (f w).namespaceId = w.namespaceId) :
    hide N (updateWorkflowRuns p f s) = updateWorkflowRuns p f (hide N s) := by
  have hrows : (update p f s.workflowRuns).filter (fun w => w.namespaceId ≠ N) =
      update p f (s.workflowRuns.filter fun w => w.namespaceId ≠ N) :=
    filter_update (fun w => by rw [hnamespace]) _
  have hinvocation := hiddenInvocation_update (N := N) (s := s) (p := p) hid hnamespace
  have hnode : hiddenNode N (updateWorkflowRuns p f s) = hiddenNode N s := by
    funext id
    unfold hiddenNode
    rw [hinvocation]
    rfl
  unfold hide
  rw [hinvocation, hnode]
  exact congrArg (fun rows => { hide N s with workflowRuns := rows }) hrows

end Update

theorem hide_updateNodeRuns {p : WorkflowNodeRunRow → Bool}
    {f : WorkflowNodeRunRow → WorkflowNodeRunRow} (hid : ∀ n, (f n).id = n.id)
    (howner : ∀ n, (f n).workflowRunId = n.workflowRunId) :
    hide N (updateNodeRuns p f s) = updateNodeRuns p f (hide N s) := by
  have hrows : (update p f s.workflowNodeRuns).filter
        (fun n => !hiddenInvocation N s n.workflowRunId) =
      update p f (s.workflowNodeRuns.filter fun n => !hiddenInvocation N s n.workflowRunId) :=
    filter_update (fun n => by rw [howner]) _
  have hnode : hiddenNode N (updateNodeRuns p f s) = hiddenNode N s := by
    funext id
    unfold hiddenNode
    change (s.workflowNodeRuns.map _).any _ = _
    rw [List.any_map]
    congr 1
    funext n
    by_cases hp : p n = true
    · simp [hp, hid, howner]
      rfl
    · simp [hp]
      rfl
  unfold hide
  rw [hnode]
  exact congrArg (fun rows => { hide N s with workflowNodeRuns := rows }) hrows

theorem any_node_hide {id : Uuid} (hshown : hiddenInvocation N s id = false)
    {q : WorkflowNodeRunRow → Bool} (hq : ∀ n, q n = true → n.workflowRunId = id) :
    (hide N s).workflowNodeRuns.any q = s.workflowNodeRuns.any q := by
  apply any_filter_shown
  intro n _ hn
  rw [hq n hn, hshown]
  rfl

theorem finish_hide {id : Uuid} (hshown : hiddenInvocation N s id = false) (now : Instant) :
    finish now id (hide N s) = hide N (finish now id s) := by
  unfold finish
  refine Eq.trans ?_ (hide_updateWorkflowRuns (fun _ => ?_) fun _ => ?_).symm
  rotate_left
  · rfl
  · rfl
  refine congrArg (fun rows => { hide N s with workflowRuns := rows }) (update_congr ?_)
  intro w _
  by_cases hw : w.id = id
  · have hopen : (hide N s).workflowNodeRuns.any (openNode w.id) =
        s.workflowNodeRuns.any (openNode w.id) := by
      apply any_node_hide hshown
      intro n hn
      unfold openNode at hn
      rw [Bool.and_eq_true, decide_eq_true_eq] at hn
      exact hn.1.trans hw
    have hfailed : ((hide N s).workflowNodeRuns.any fun n => n.workflowRunId = w.id &&
          (n.state = .failed || n.state = .unknown || n.state = .cancelled)) =
        s.workflowNodeRuns.any fun n => n.workflowRunId = w.id &&
          (n.state = .failed || n.state = .unknown || n.state = .cancelled) := by
      apply any_node_hide hshown
      intro n hn
      rw [Bool.and_eq_true, decide_eq_true_eq] at hn
      exact hn.1.trans hw
    rw [hopen, hfailed]
  · simp [hw]

theorem cancelPending_hide (now : Instant) (id : Uuid) :
    cancelPending now id (hide N s) = hide N (cancelPending now id s) := by
  unfold cancelPending
  rw [hide_updateNodeRuns, hide_updateWorkflowRuns]
  all_goals exact fun _ => rfl

theorem cancelPending_hidden (now : Instant) (id : Uuid) :
    hiddenInvocation N (cancelPending now id s) = hiddenInvocation N s := by
  unfold cancelPending
  exact hiddenInvocation_update (fun _ => rfl) fun _ => rfl

theorem finish_hidden (now : Instant) (id : Uuid) :
    hiddenInvocation N (finish now id s) = hiddenInvocation N s := by
  unfold finish
  apply hiddenInvocation_update
  all_goals exact fun _ => rfl

theorem cancel_hide (hk : KeysUnique s) {id : Uuid} (hshown : hiddenInvocation N s id = false)
    (now : Instant) :
    cancel now id (hide N s) = ((cancel now id s).1, hide N (cancel now id s).2) := by
  have hbody (t : Store) (ht : KeysUnique t) (hthere : hiddenInvocation N t id = false) :
      commit (hide N s) (invocation (hide N t) id >>= fun record => pure (record, hide N t)) =
        ((commit s (invocation t id >>= fun record => pure (record, t))).1,
          hide N (commit s (invocation t id >>= fun record => pure (record, t))).2) := by
    rw [invocation_hide ht hthere]
    cases invocation t id <;> rfl
  unfold cancel
  rw [find?_shown_invocation hk hshown]
  cases hfind : s.workflowRuns.find? fun w => w.id = id with
  | none => rfl
  | some w =>
    have hid : w.id = id := by simpa using List.find?_some hfind
    by_cases hrunning : w.state = .running
    · have hthere : hiddenInvocation N (finish now id (cancelPending now id s)) id = false := by
        rw [finish_hidden, cancelPending_hidden]
        exact hshown
      have hsame : finish now id (cancelPending now id (hide N s)) =
          hide N (finish now id (cancelPending now id s)) := by
        rw [cancelPending_hide, finish_hide]
        rw [cancelPending_hidden]
        exact hshown
      have hwrites : Writes .plain s (finish now id (cancelPending now id s)) :=
        .tail (cancelPending_writes hk (List.mem_of_find?_eq_some hfind) hid hrunning)
          (finish_write now id _)
      simp only [hrunning, if_true, hsame]
      exact hbody _ (hwrites.keysUnique hk) hthere
    · simp only [hrunning, if_false]
      exact hbody s hk hshown

section Calls

variable {α : Type} {grants : GrantSet}

/-- The call does not notice what is hidden; `Q` holds of what it returns and of the store
afterwards. -/
abbrev Unaware (N : Uuid) (Q : α → Store → Prop) (s : Store) (x : Call α) : Prop :=
  BlindTo Transaction.apply (hide N) Q s x

theorem check_unaware (result : Except ApplicationError α) :
    Unaware N (fun a t => t = s ∧ result = .ok a) s (check result) :=
  ⟨rfl, fun _ ha => ⟨rfl, ha⟩⟩

theorem ofStore_ok {result : Except StoreError α} {a : α} (h : ofStore result = .ok a) :
    result = .ok a := by
  cases result with
  | error e => cases h
  | ok b => exact congrArg Except.ok (Except.ok.inj h)

theorem query_unaware {f : Store → Except StoreError α} (h : f (hide N s) = f s) :
    Unaware N (fun a t => t = s ∧ f s = .ok a) s (query f) := by
  refine ⟨?_, fun _ ha => ⟨rfl, ofStore_ok ha⟩⟩
  change (ofStore (f (hide N s)), hide N s) = (ofStore (f s), hide N s)
  rw [h]

theorem transact_unaware {tx : Transaction} {answer : Store → Except StoreError α}
    (hanswer : answer (hide N s) = answer s) (hstore : tx.apply (hide N s) = hide N (tx.apply s)) :
    Unaware N (fun a t => t = tx.apply s ∧ answer s = .ok a) s (transact tx answer) := by
  refine ⟨?_, fun _ ha => ⟨rfl, ofStore_ok ha⟩⟩
  change (ofStore (answer (hide N s)), tx.apply (hide N s)) =
    (ofStore (answer s), hide N (tx.apply s))
  rw [hanswer, hstore]

theorem authorize_unaware {c : Capability} {resource : ResourceScope}
    (h : GrantPolicy.authorize (namespaceFor (hide N s)) grants c resource =
      GrantPolicy.authorize (namespaceFor s) grants c resource) :
    Unaware N (fun _ t => t = s ∧ GrantPolicy.authorize (namespaceFor s) grants c resource = .ok ())
      s (ApplicationCalls.authorize grants c resource) := by
  refine ⟨?_, ?_⟩
  · change ((GrantPolicy.authorize (namespaceFor (hide N s)) grants c resource).mapError _,
      hide N s) = ((GrantPolicy.authorize (namespaceFor s) grants c resource).mapError _, hide N s)
    rw [h]
  · intro a ha
    refine ⟨rfl, ?_⟩
    change (GrantPolicy.authorize (namespaceFor s) grants c resource).mapError _ = .ok a at ha
    cases hresult : GrantPolicy.authorize (namespaceFor s) grants c resource with
    | error e =>
      rw [hresult] at ha
      cases ha
    | ok u => rfl

theorem visibility_unaware (c : Capability) :
    Unaware N (fun scope t => t = s ∧ scope = grants.visibility c) s
      (ApplicationCalls.visibility grants c) := by
  refine (check_unaware _).mono ?_
  rintro scope t ⟨rfl, h⟩
  refine ⟨rfl, ?_⟩
  unfold GrantPolicy.visibility at h
  split at h
  · exact (Except.ok.inj h).symm
  · cases h

theorem getRun_unaware (hs : Sound s) (hN : (grants.visibility .runRead).includes N = false)
    (id : Uuid) :
    Unaware N (fun record t => t = s ∧ ∃ r ∈ s.runs, r.id = id ∧ record.id = id ∧
      record.jobId = r.jobId ∧ hiddenJob N s r.jobId = false) s
      (ApplicationCalls.getRun grants id) := by
  refine (authorize_unaware (authorize_concealed rfl hN (concealed_run hs id))).bind ?_
  rintro _ t ⟨rfl, _⟩
  refine (visibility_unaware .runRead).bind ?_
  rintro scope t ⟨rfl, rfl⟩
  refine (query_unaware (getRun_hide hs hN id)).mono ?_
  rintro record t ⟨rfl, hread⟩
  exact ⟨rfl, getRun_shown hN hread⟩

theorem shownRun_unaware (hs : Sound s) (hN : (grants.visibility .runRead).includes N = false)
    (id : Uuid) {f : VisibilityScope → Store → Except StoreError α}
    (h : ∀ r ∈ s.runs, r.id = id → hiddenJob N s r.jobId = false → ∀ scope,
      f scope (hide N s) = f scope s) :
    Unaware N (fun _ _ => True) s (do
      ApplicationCalls.authorize grants .runRead (.run id)
      let scope ← ApplicationCalls.visibility grants .runRead
      let _ ← query (StoreReads.getRun id scope)
      query (f scope)) := by
  refine (authorize_unaware (authorize_concealed rfl hN (concealed_run hs id))).bind ?_
  rintro _ t ⟨rfl, _⟩
  refine (visibility_unaware .runRead).bind ?_
  rintro scope t ⟨rfl, rfl⟩
  refine (query_unaware (getRun_hide hs hN id)).bind ?_
  rintro record t ⟨rfl, hread⟩
  obtain ⟨r, hr, hid, _, _, hshown⟩ := getRun_shown hN hread
  exact (query_unaware (h r hr hid hshown _)).mono fun _ _ _ => trivial

theorem listRunAttempts_unaware (hs : Sound s)
    (hN : (grants.visibility .runRead).includes N = false) (id : Uuid) :
    Unaware N (fun _ _ => True) s (listRunAttempts grants id) := by
  apply shownRun_unaware hs hN id
  rintro r hr rfl hshown scope
  rw [runAttempts_hide hs hr hshown]

theorem listRunEvents_unaware (hs : Sound s)
    (hN : (grants.visibility .runRead).includes N = false) (id : Uuid) :
    Unaware N (fun _ _ => True) s (listRunEvents grants id) := by
  apply shownRun_unaware hs hN id
  rintro r hr rfl hshown scope
  rw [runEvents_hide hs hr hshown]

theorem listRuns_unaware (hs : Sound s) (hN : (grants.visibility .runRead).includes N = false)
    (filter : RunListFilter) (limit : Option ℕ) (before : Option Uuid) :
    Unaware N (fun _ _ => True) s (ApplicationCalls.listRuns grants filter limit before) := by
  refine (visibility_unaware .runRead).bind ?_
  rintro scope t ⟨rfl, rfl⟩
  refine (check_unaware _).bind ?_
  rintro limit t ⟨rfl, _⟩
  exact (query_unaware (listRuns_hide hs hN filter limit before)).mono fun _ _ _ => trivial

/-- The request of a re-run is looked up where no hidden request and no node has its id. -/
theorem existingRerun_unaware (hs : Sound s) {F : FloatFormat} {requestId : Uuid}
    (hshown : ∀ q ∈ s.runRequests, q.requestId = requestId → hiddenJob N s q.jobId = false)
    (hnode : ∀ n ∈ s.workflowNodeRuns, n.id ≠ requestId) (sourceId : Uuid) :
    Unaware N (fun _ t => t = s) s (existingRerun F requestId sourceId) := by
  refine (query_unaware ?_).bind ?_
  · rw [findRunRequest_hide hs hshown hnode]
  rintro existing t ⟨rfl, hfound⟩
  cases existing with
  | none => exact (check_unaware (.ok none)).mono fun _ _ h => h.1
  | some existing =>
    obtain ⟨q, hq, _⟩ := Option.map_eq_some_iff.mp (Except.ok.inj hfound)
    have hid : q.requestId = requestId := by simpa using List.find?_some hq
    have hmem := List.mem_of_find?_eq_some hq
    refine (query_unaware ?_).bind ?_
    · rw [runRecordsForRequest_hide hs hmem hid (hshown q hmem hid)]
    rintro runs t ⟨rfl, _⟩
    exact (check_unaware _).mono fun _ _ h => h.1

section Rerun

variable {F : FloatFormat} {requestId runId : Uuid} {ids : DispatchIds} {now : Instant}

theorem insertRerun_unaware (hs : Sound s) {r : RunRow} (hr : r ∈ s.runs)
    (hshown : hiddenJob N s r.jobId = false) (hunused : Unused requestId runId ids s)
    (hafter : Sound (Transaction.apply s (.insertRerun F r.id requestId runId ids now))) :
    Unaware N (fun _ _ => True) s (insertRerun F r.id requestId runId ids now) := by
  have hnode : ∀ n ∈ s.workflowNodeRuns, n.id ≠ requestId := by
    intro n hn hid
    obtain ⟨q, hq, hname⟩ := hs.requested.nodes n hn
    exact hunused.request q hq (hname.trans hid)
  have hhide : insertRerunTransaction F r.id requestId runId ids now (hide N s) = _ :=
    insertRerunTransaction_hide hs hr hshown hunused
  refine (existingRerun_unaware hs ?_ hnode r.id).bind ?_
  · exact fun q hq hid => absurd hid (hunused.request q hq)
  rintro existing t rfl
  cases existing with
  | some run => exact (check_unaware (.ok (run, false))).mono fun _ _ _ => trivial
  | none =>
    refine (transact_unaware ?_ ?_).bind ?_
    · rw [hhide]
      cases insertRerunTransaction F r.id requestId runId ids now t <;> rfl
    · change ControlPlane.commitRequest (hide N t) _ = hide N (ControlPlane.commitRequest t _)
      rw [hhide]
      cases insertRerunTransaction F r.id requestId runId ids now t <;> rfl
    rintro outcome u ⟨rfl, hanswer⟩
    cases hcommit : insertRerunTransaction F r.id requestId runId ids now t with
    | error e =>
      rw [hcommit] at hanswer
      cases hanswer
    | ok committed =>
      have hstore : Transaction.apply t (.insertRerun F r.id requestId runId ids now) =
          committed.2 := by
        change ControlPlane.commitRequest t _ = _
        rw [hcommit]
        rfl
      rw [hstore] at hafter ⊢
      obtain ⟨hcatalog, hnodes, q, hrequests, hjob⟩ :=
        insertRerunTransaction_requests hs hr hunused hcommit
      refine (existingRerun_unaware hafter ?_ ?_ r.id).bind ?_
      · intro x hx hid
        rw [hrequests] at hx
        rcases List.mem_append.mp hx with hold | hnew
        · exact absurd hid (hunused.request x hold)
        · rw [List.mem_singleton.mp hnew, hjob, hiddenJob, hcatalog]
          exact hshown
      · rw [hnodes]
        exact hnode
      · rintro existing v rfl
        cases existing with
        | none => exact (check_unaware _).mono fun _ _ _ => trivial
        | some run =>
          exact (check_unaware (.ok (run, decide (outcome = .created)))).mono fun _ _ _ => trivial

theorem rerunRun_unaware (hs : Sound s) (hN : (grants.visibility .runRead).includes N = false)
    (hunused : Unused requestId runId ids s) (sourceId : Uuid)
    (hafter : Sound (Transaction.apply s (.insertRerun F sourceId requestId runId ids now))) :
    Unaware N (fun _ _ => True) s (rerunRun F grants sourceId requestId runId ids now) := by
  refine (getRun_unaware hs hN sourceId).bind ?_
  rintro source t ⟨rfl, r, hr, rfl, hid, hjob, hshown⟩
  refine (check_unaware _).bind ?_
  rintro _ t ⟨rfl, _⟩
  refine (check_unaware _).bind ?_
  rintro _ t ⟨rfl, _⟩
  refine (authorize_unaware (authorize_same rfl)).bind ?_
  rintro _ t ⟨rfl, _⟩
  refine (query_unaware rfl).bind ?_
  rintro job t ⟨rfl, _⟩
  refine (authorize_unaware (authorize_same rfl)).bind ?_
  rintro _ t ⟨rfl, _⟩
  refine (authorize_unaware (authorize_same rfl)).bind ?_
  rintro _ t ⟨rfl, _⟩
  rw [hid]
  exact insertRerun_unaware hs hr hshown hunused hafter

end Rerun

theorem getWorkflow_unaware (hs : Sound s)
    (hN : (grants.visibility .workflowRead).includes N = false) (id : Uuid) :
    Unaware N (fun _ _ => True) s (ApplicationCalls.getWorkflow grants id) := by
  refine (authorize_unaware (authorize_concealed rfl hN (concealed_workflow hs id))).bind ?_
  rintro _ t ⟨rfl, hgranted⟩
  have hshown := authorize_visible rfl rfl hN hgranted
  refine (query_unaware (getWorkflow_hide hs hshown)).bind ?_
  rintro record t ⟨rfl, _⟩
  refine (visibility_unaware .workflowRead).bind ?_
  rintro scope t ⟨rfl, rfl⟩
  refine (check_unaware _).bind ?_
  rintro _ t ⟨rfl, _⟩
  exact (check_unaware (.ok record)).mono fun _ _ _ => trivial

theorem getWorkflowRun_unaware (hs : Sound s)
    (hN : (grants.visibility .workflowRunRead).includes N = false) (id : Uuid) :
    Unaware N (fun record t => t = s ∧ record.id = id ∧ hiddenInvocation N s id = false) s
      (ApplicationCalls.getWorkflowRun grants id) := by
  refine (authorize_unaware (authorize_concealed rfl hN (concealed_workflowRun hs id))).bind ?_
  rintro _ t ⟨rfl, hgranted⟩
  have hshown := invocation_shown hs (authorize_visible rfl rfl hN hgranted)
  refine (visibility_unaware .workflowRunRead).bind ?_
  rintro scope t ⟨rfl, rfl⟩
  refine (query_unaware (getWorkflowRun_hide hs hshown _)).mono ?_
  rintro record t ⟨rfl, hread⟩
  exact ⟨rfl, getWorkflowRun_id hread, hshown⟩

theorem listWorkflowRuns_unaware (hs : Sound s)
    (hN : (grants.visibility .workflowRunRead).includes N = false) (id : Uuid)
    (limit : Option ℕ) (before : Option Uuid) :
    Unaware N (fun _ _ => True) s (ApplicationCalls.listWorkflowRuns grants id limit before) := by
  refine (authorize_unaware (authorize_concealed rfl hN (concealed_workflow hs id))).bind ?_
  rintro _ t ⟨rfl, hgranted⟩
  have hshown := authorize_visible rfl rfl hN hgranted
  refine (query_unaware (getWorkflow_hide hs hshown)).bind ?_
  rintro workflow t ⟨rfl, _⟩
  refine (visibility_unaware .workflowRunRead).bind ?_
  rintro scope t ⟨rfl, rfl⟩
  refine (check_unaware _).bind ?_
  rintro _ t ⟨rfl, _⟩
  refine (check_unaware _).bind ?_
  rintro limit t ⟨rfl, _⟩
  exact (query_unaware (listWorkflowRuns_hide hs hN id limit before)).mono fun _ _ _ => trivial

theorem cancelWorkflowRun_unaware (hs : Sound s)
    (hN : (grants.visibility .workflowRunRead).includes N = false) (id : Uuid) (now : Instant) :
    Unaware N (fun _ _ => True) s (cancelWorkflowRun grants id now) := by
  refine (getWorkflowRun_unaware hs hN id).bind ?_
  rintro record t ⟨rfl, rfl, hshown⟩
  have hlookup : namespaceFor (hide N t) (.workflowRun record.id) =
      namespaceFor t (.workflowRun record.id) := by
    simp only [namespaceFor, find?_shown_invocation hs.keys hshown]
  refine (authorize_unaware (authorize_same hlookup)).bind ?_
  rintro _ t ⟨rfl, _⟩
  have hcancel := cancel_hide hs.keys hshown now
  refine (transact_unaware ?_ ?_).mono fun _ _ _ => trivial
  · rw [hcancel]
  · exact congrArg Prod.snd hcancel

end Calls

inductive Operation : Type → Type 1 where
  | getRun (id : Uuid) : Operation RunRecord
  | listRunAttempts (id : Uuid) : Operation (List RunAttemptRecord)
  | listRunEvents (id : Uuid) : Operation (List RunEventRecord)
  | listRuns (filter : RunListFilter) (limit : Option ℕ) (before : Option Uuid) :
      Operation (Page RunRecord)
  | rerunRun (F : FloatFormat) (sourceId requestId runId : Uuid) (ids : DispatchIds)
      (now : Instant) :
      Operation (RunRecord × Bool)
  | getWorkflow (id : Uuid) : Operation WorkflowRecord
  | getWorkflowRun (id : Uuid) : Operation WorkflowRunRecord
  | listWorkflowRuns (id : Uuid) (limit : Option ℕ) (before : Option Uuid) :
      Operation (Page WorkflowRunRecord)
  | cancelWorkflowRun (id : Uuid) (now : Instant) : Operation WorkflowRunRecord

namespace Operation

def call (grants : GrantSet) : {α : Type} → Operation α → Call α
  | _, .getRun id => ApplicationCalls.getRun grants id
  | _, .listRunAttempts id => ApplicationCalls.listRunAttempts grants id
  | _, .listRunEvents id => ApplicationCalls.listRunEvents grants id
  | _, .listRuns filter limit before => ApplicationCalls.listRuns grants filter limit before
  | _, .rerunRun F sourceId requestId runId ids now =>
    ApplicationCalls.rerunRun F grants sourceId requestId runId ids now
  | _, .getWorkflow id => ApplicationCalls.getWorkflow grants id
  | _, .getWorkflowRun id => ApplicationCalls.getWorkflowRun grants id
  | _, .listWorkflowRuns id limit before =>
    ApplicationCalls.listWorkflowRuns grants id limit before
  | _, .cancelWorkflowRun id now => ApplicationCalls.cancelWorkflowRun grants id now

/-- The permission to read what the operation is about. -/
def reads {α : Type} : Operation α → Capability
  | .getRun _ | .listRunAttempts _ | .listRunEvents _ | .listRuns _ _ _
  | .rerunRun _ _ _ _ _ _ => .runRead
  | .getWorkflow _ => .workflowRead
  | .getWorkflowRun _ | .listWorkflowRuns _ _ _ | .cancelWorkflowRun _ _ => .workflowRunRead

/-- The request id has not been consumed, and the ids that are drawn are new. -/
def Fresh {α : Type} (s : Store) : Operation α → Prop
  | .rerunRun _ _ requestId runId ids _ => Unused requestId runId ids s
  | _ => True

/-- The operation on a store: its answer, and the store afterwards. -/
def perform {α : Type} (grants : GrantSet) (op : Operation α) (s : Store) :
    Except ApplicationError α × Store :=
  (op.call grants).run.run Transaction.apply s

end Operation

theorem sound_of_reachable {owner : ResourceScope → Uuid} {a : CatalogEdits.State}
    (h : (CatalogEdits.system owner).Reachable a) : Sound a.store := by
  have hinvariant := CatalogEdits.reachable_invariant h
  refine ⟨reachable_keysUnique hinvariant.control, reachable_requested hinvariant.control,
    reachable_requestsNamed hinvariant.control, ?_⟩
  intro w hw w' hw' hid
  rw [← hinvariant.owned.workflows w hw, ← hinvariant.owned.workflows w' hw', hid]

theorem sound_insertRerun {owner : ResourceScope → Uuid} {a : CatalogEdits.State}
    (h : (CatalogEdits.system owner).Reachable a) (F : FloatFormat)
    (sourceId requestId runId : Uuid) (ids : DispatchIds) (now : Instant) :
    Sound (Transaction.apply a.store (.insertRerun F sourceId requestId runId ids now)) := by
  let command : ControlPlane.Command := .insertRerun F sourceId requestId runId ids now
  have hstep : (CatalogEdits.system owner).Step a (.control command)
      (CatalogEdits.next a (.control command)) := ⟨⟨trivial, rfl⟩, rfl⟩
  exact sound_of_reachable (h.tail hstep)

theorem operation_blind {owner : ResourceScope → Uuid} {a : CatalogEdits.State}
    (ha : (CatalogEdits.system owner).Reachable a) {grants : GrantSet} {α : Type}
    (op : Operation α) (hN : (grants.visibility op.reads).includes N = false)
    (hfresh : op.Fresh a.store) :
    Blind Transaction.apply (hide N) (op.call grants).run a.store := by
  have hs := sound_of_reachable ha
  cases op with
  | getRun id => exact (getRun_unaware hs hN id).1
  | listRunAttempts id => exact (listRunAttempts_unaware hs hN id).1
  | listRunEvents id => exact (listRunEvents_unaware hs hN id).1
  | listRuns filter limit before => exact (listRuns_unaware hs hN filter limit before).1
  | rerunRun F sourceId requestId runId ids now =>
    exact (rerunRun_unaware hs hN hfresh sourceId (sound_insertRerun ha _ _ _ _ _ _)).1
  | getWorkflow id => exact (getWorkflow_unaware hs hN id).1
  | getWorkflowRun id => exact (getWorkflowRun_unaware hs hN id).1
  | listWorkflowRuns id limit before => exact (listWorkflowRuns_unaware hs hN id limit before).1
  | cancelWorkflowRun id now => exact (cancelWorkflowRun_unaware hs hN id now).1

/-- Stores that differ only in the history of a Namespace the caller may not read answer every
operation alike, and it changes the rest of them alike. -/
theorem hidden_history_is_missing {owner owner' : ResourceScope → Uuid} {a b : CatalogEdits.State}
    (ha : (CatalogEdits.system owner).Reachable a) (hb : (CatalogEdits.system owner').Reachable b)
    (hsame : hide N a.store = hide N b.store) {grants : GrantSet} {α : Type} (op : Operation α)
    (hN : (grants.visibility op.reads).includes N = false) (hfreshA : op.Fresh a.store)
    (hfreshB : op.Fresh b.store) :
    (op.perform grants a.store).1 = (op.perform grants b.store).1 ∧
      hide N (op.perform grants a.store).2 = hide N (op.perform grants b.store).2 :=
  (operation_blind ha op hN hfreshA).agree (operation_blind hb op hN hfreshB) hsame

def demoReaderAssignments : Assignments := insertPermission .empty (.inNamespace 9) .runRead

theorem demoReaderAssignments_entries :
    insertEntries 0 [(.inNamespace 9, [.runRead])] .empty = .ok demoReaderAssignments := by
  decide +kernel

def demoReader : GrantSet :=
  ⟨demoReaderAssignments, insertEntries_normal demoReaderAssignments_entries⟩

def demoStart : CatalogEdits.State :=
  ⟨⟨emptyStore ⟨[ControlPlane.demoQueue], [], [ControlPlane.demoTarget], [], [], []⟩ [], [], [],
    [], []⟩, ⟨[], [], []⟩⟩

def demoQuiet : CatalogEdits.State :=
  (CatalogEdits.system fun _ => 3).run demoStart [.edit (.createJob ControlPlane.demoJob)]

def demoBusy : CatalogEdits.State :=
  (CatalogEdits.system fun _ => 3).run demoStart
    [.edit (.createJob ControlPlane.demoJob), .control ControlPlane.demoCreate]

theorem demoStart_reaches {events : List CatalogEdits.Event}
    (h : (CatalogEdits.system fun _ => 3).Admits demoStart events) :
    (CatalogEdits.system fun _ => 3).Reachable
      ((CatalogEdits.system fun _ => 3).run demoStart events) :=
  ⟨demoStart, ⟨[ControlPlane.demoQueue], [ControlPlane.demoTarget], [], by decide, by decide, rfl⟩,
    .of_admits h⟩

theorem run_of_another_namespace :
    demoBusy.store.runs.map RunRow.id = [6] ∧ demoQuiet.store.runs = [] ∧
      ((Operation.getRun 6).perform demoReader demoBusy.store).1 =
        ((Operation.getRun 6).perform demoReader demoQuiet.store).1 := by
  have hbusy : (CatalogEdits.system fun _ => 3).Reachable demoBusy :=
    demoStart_reaches ⟨rfl, ⟨trivial, rfl⟩, trivial⟩
  have hquiet : (CatalogEdits.system fun _ => 3).Reachable demoQuiet :=
    demoStart_reaches ⟨rfl, trivial⟩
  have hsame : hide 3 demoBusy.store = hide 3 demoQuiet.store := by decide +kernel
  have hhidden : (demoReader.visibility .runRead).includes 3 = false := by decide +kernel
  have hanswer :=
    hidden_history_is_missing hbusy hquiet hsame (.getRun 6) hhidden trivial trivial
  exact ⟨by decide +kernel, by decide +kernel, hanswer.1⟩

end HiddenHistory
