import Crono.WorkflowCatalog
import Crono.WorkflowProgress
import Crono.ScheduleClaims

/-! Writes that carry the revision they read. Workflow definitions are replaced, created and
deleted while launches read them, and Schedules are enabled and disabled; every transaction is one
step. -/
namespace OptimisticWrites

open RunDomain WorkflowDomain SqlTable ControlPlaneSchema RunStore WorkflowStore
open ControlPlane StoreWrites RequestTable WorkflowNodes WorkflowActivation WorkflowLaunches
open WorkflowCatalog ScheduleStore
open ScheduleClaims (retains_self reachable_catalogKeys)
open WorkflowProgress (reachable_orchestrated demoFresh)
open ExecutionInputs (FloatFormat)
open FallibleLists

theorem activate_pins {dispatch : Launching} {now : Instant} {nodeId : Uuid}
    {s t : Store} (h : activate dispatch now nodeId s = .ok t) :
    t.workflowRuns = s.workflowRuns ∧ ∀ id x, Pins t id x ↔ Pins s id x := by
  unfold activate at h
  split at h
  · cases h
    exact ⟨rfl, fun _ _ => Iff.rfl⟩
  · obtain ⟨_, hexecutions, hruns, _⟩ := launchExecutions_tables h
    refine ⟨hruns, fun id x => ?_⟩
    unfold Pins
    rw [hexecutions]
    constructor
    · rintro ⟨e, he, hnode, htarget⟩
      rcases update_cases he with ⟨hold, _⟩ | ⟨old, hold, _, rfl⟩
      · exact ⟨e, hold, hnode, htarget⟩
      · exact ⟨old, hold, hnode, htarget⟩
    · rintro ⟨e, he, hnode, htarget⟩
      refine ⟨_, mem_update.mpr ⟨e, he, rfl⟩, ?_⟩
      split
      · exact ⟨hnode, htarget⟩
      · exact ⟨hnode, htarget⟩

theorem activateRoots_pins {F : FloatFormat} {fresh : FreshLaunch}
    {definition : StoredWorkflow} {now : Instant} {nodes : List StoredNode} {s t : Store}
    (h : activateRoots F fresh definition now nodes s = .ok t) :
    t.workflowRuns = s.workflowRuns ∧ ∀ id x, Pins t id x ↔ Pins s id x := by
  induction nodes generalizing s with
  | nil =>
    cases h
    exact ⟨rfl, fun _ _ => Iff.rfl⟩
  | cons node rest ih =>
    simp only [activateRoots] at h
    split at h
    · exact ih h
    · obtain ⟨s₁, h₁, h₂⟩ := ok_of_bind h
      obtain ⟨hruns₁, hpins₁⟩ := activate_pins h₁
      obtain ⟨hruns₂, hpins₂⟩ := ih h₂
      exact ⟨hruns₂.trans hruns₁, fun id x => (hpins₂ id x).trans (hpins₁ id x)⟩

theorem prepareNodes_fresh {R : Rendering} {fresh : FreshLaunch} {definition : StoredWorkflow}
    {launch : WorkflowLaunch} {nodes : List StoredNode} {totals : PreparedTotals} {s t : Store}
    (h : prepareNodes R fresh definition launch nodes totals s = .ok t) :
    ∀ n ∈ s.workflowNodeRuns, ∀ node ∈ nodes, n.id ≠ fresh.nodeRunId node.name := by
  induction nodes generalizing totals s with
  | nil => exact fun _ _ _ hnode => absurd hnode List.not_mem_nil
  | cons node rest ih =>
    obtain ⟨⟨totals₁, s₁⟩, h₁, h₂⟩ := ok_of_bind h
    obtain ⟨request, executions, _, _, s₂, s₃, hnode, _, _, hrequest, _, hprepare⟩ :=
      prepareNode_ok h₁
    obtain ⟨hunused, _, _, rfl⟩ := insertNodeRun_ok hnode
    obtain ⟨_, rfl⟩ := insertRunRequest_ok hrequest
    obtain ⟨pinned, rfl, _, _⟩ := prepareExecutions_ok hprepare
    intro n hn m hm
    rcases List.mem_cons.mp hm with rfl | hm
    · exact hunused n hn
    · exact ih h₂ n (List.mem_append_left _ hn) m hm

/-- A launch that commits the definition of the revision it carries, with the Targets it
carries. -/
def LaunchPinned (fresh : FreshLaunch) (launch : WorkflowLaunch) (s t : Store) : Prop :=
  ∃ definition ∈ s.catalog.workflows, definition.id = launch.workflowId ∧
    definition.revision = launch.revision ∧
    (∃ w ∈ t.workflowRuns, w.id = fresh.workflowRunId ∧ w.definitionSnapshot = definition) ∧
    ∀ node ∈ definition.nodes, ∀ x,
      Pins t (fresh.nodeRunId node.name) x ↔ x ∈ launch.authorizedTargets

theorem catalog_ok {c : Catalog} {id : Uuid} {definition : StoredWorkflow}
    (h : catalog c id = .ok definition) : definition ∈ c.workflows ∧ definition.id = id := by
  unfold catalog at h
  split at h
  · cases h
  · rename_i w hfind
    have hid := List.find?_some hfind
    rw [decide_eq_true_eq] at hid
    cases h
    exact ⟨List.mem_of_find?_eq_some hfind, hid⟩

theorem startFresh_pinned {R : Rendering} {fresh : FreshLaunch} {launch : WorkflowLaunch}
    {now : Instant} {s t : Store} {answer : WorkflowRunRecord × Bool} (hc : Charted s)
    (h : startFresh R fresh launch now s = .ok (answer, t)) : LaunchPinned fresh launch s t := by
  obtain ⟨definition, hread, h⟩ := ok_of_bind h
  split at h
  · cases h
  rename_i hrevision
  obtain ⟨s₁, hrun, h⟩ := ok_of_bind h
  obtain ⟨s₂, hnodes, h⟩ := ok_of_bind h
  obtain ⟨s₃, hedges, h⟩ := ok_of_bind h
  obtain ⟨s₄, hroots, h⟩ := ok_of_bind h
  obtain ⟨record, _, h⟩ := ok_of_bind h
  cases h
  obtain ⟨hmem, hid⟩ := catalog_ok hread
  obtain ⟨_, rfl⟩ := insertWorkflowRun_ok hrun
  have hfresh := prepareNodes_fresh hnodes
  obtain ⟨requests, pinned, rfl, hprepared⟩ := prepareNodes_ok hnodes
  obtain ⟨rfl, _⟩ := insertRunEdges_ok hedges
  obtain ⟨hruns, hpins⟩ := activateRoots_pins hroots
  refine ⟨definition, hmem, hid, not_ne_iff.mp hrevision, 
    ⟨workflowRunRow fresh definition launch now, ?_, rfl, rfl⟩, ?_⟩
  · rw [hruns]
    exact List.mem_append_right _ List.mem_cons_self
  · intro node hnode x
    rw [hpins]
    constructor
    · rintro ⟨e, he, hown, rfl⟩
      rcases List.mem_append.mp he with he | he
      · obtain ⟨n, hn, hnid⟩ := hc.pinned e he
        exact absurd (hnid.trans hown) (hfresh n hn node hnode)
      · exact (hprepared.executions e he).1
    · intro hx
      obtain ⟨e, he, hown, htarget⟩ := (hprepared.targets node hnode).2 x hx
      exact ⟨e, List.mem_append_right _ he, hown, htarget⟩

theorem start_of_new {R : Rendering} {fresh : FreshLaunch} {launch : WorkflowLaunch} {now : Instant}
    {s : Store} (hnew : ∀ w ∈ s.workflowRuns, w.requestId ≠ launch.requestId) :
    start R fresh launch now s = commit s (startFresh R fresh launch now s) := by
  have hnone : (s.workflowRuns.find? fun w => w.requestId = launch.requestId) = none := by
    rw [List.find?_eq_none]
    intro w hw
    simp [hnew w hw]
  rw [start, hnone]

theorem start_other_revision {R : Rendering} {fresh : FreshLaunch} {launch : WorkflowLaunch}
    {now : Instant} {s : Store} {definition : StoredWorkflow}
    (hnew : ∀ w ∈ s.workflowRuns, w.requestId ≠ launch.requestId)
    (hread : catalog s.catalog launch.workflowId = .ok definition)
    (hother : definition.revision ≠ launch.revision) :
    start R fresh launch now s = (.error .staleRevision, s) := by
  have hfailed : startFresh R fresh launch now s = .error .staleRevision := by
    unfold startFresh
    rw [hread]
    simp only [bind, Except.bind, hother, ne_eq, not_false_eq_true, if_true]
    rfl
  rw [start_of_new hnew, hfailed]
  rfl

theorem loadExecutionIds_refers {c : Catalog} {jobId targetId : Uuid} {e : ExecutionRow}
    (h : loadExecutionIds c jobId targetId = .ok e) :
    (∃ j ∈ c.jobs, j.id = jobId) ∧ ∃ t ∈ c.targets, t.id = targetId := by
  unfold loadExecutionIds at h
  split at h
  · cases h
  rename_i j hj
  split at h
  · rename_i q t _ ht
    have hjob := List.find?_some hj
    have htarget := List.find?_some ht
    simp only [Bool.and_eq_true, decide_eq_true_eq] at hjob htarget
    exact ⟨⟨j, List.mem_of_find?_eq_some hj, hjob⟩, t, List.mem_of_find?_eq_some ht, htarget.1⟩
  · cases h

/-- The Job of a node and what the launch selects are in the catalog. -/
structure Refers (c : Catalog) (jobId : Uuid) (target : TargetSelection) : Prop where
  job : ∃ j ∈ c.jobs, j.id = jobId
  selected : ∀ x ∈ (selectionIds target).1, ∃ t ∈ c.targets, t.id = x
  selectedSet : ∀ x ∈ (selectionIds target).2, ∃ ts ∈ c.targetSets, ts.id = x

theorem loadSelectionExecutions_refers {c : Catalog} {jobId : Uuid} {target : TargetSelection}
    {loaded : List ExecutionRow × Option Value}
    (h : loadSelectionExecutions c jobId target = .ok loaded) : Refers c jobId target := by
  cases target with
  | target targetId =>
    obtain ⟨e, he, _⟩ := ok_of_bind h
    obtain ⟨hjob, htarget⟩ := loadExecutionIds_refers he
    refine ⟨hjob, ?_, ?_⟩
    · intro x hx
      cases hx
      exact htarget
    · intro x hx
      cases hx
  | targetSet targetSetId =>
    simp only [loadSelectionExecutions] at h
    split at h
    · cases h
    rename_i j hj
    split at h
    · cases h
    rename_i ts hts
    have hjob := List.find?_some hj
    have hset := List.find?_some hts
    simp only [Bool.and_eq_true, decide_eq_true_eq] at hjob hset
    refine ⟨⟨j, List.mem_of_find?_eq_some hj, hjob⟩, ?_, ?_⟩
    · intro x hx
      cases hx
    · intro x hx
      cases hx
      exact ⟨ts, List.mem_of_find?_eq_some hts, hset.1⟩

/-- The ids a launch draws for its invocation and its first node are not in use. -/
structure Unused (fresh : FreshLaunch) (node : StoredNode) (s : Store) : Prop where
  invocation : ∀ w ∈ s.workflowRuns, w.id ≠ fresh.workflowRunId
  nodeRun : ∀ n ∈ s.workflowNodeRuns, n.id ≠ fresh.nodeRunId node.name
  request : ∀ q ∈ s.runRequests, q.requestId ≠ fresh.nodeRunId node.name

/-- The comparison of `prepare_nodes` with the authorized Targets. -/
def membership (c : Catalog) (jobId : Uuid) (launch : WorkflowLaunch) : Except StoreError Unit := do
  let (executions, _) ← loadSelectionExecutions c jobId launch.target
  if !sameTargets (executions.map ExecutionRow.targetId) launch.authorizedTargets then
    throw .staleRevision

theorem insertWorkflowRun_of_new {fresh : FreshLaunch} {launch : WorkflowLaunch} {s : Store}
    {jobId : Uuid} (definition : StoredWorkflow) (now : Instant)
    (hnew : ∀ w ∈ s.workflowRuns, w.requestId ≠ launch.requestId)
    (hunused : ∀ w ∈ s.workflowRuns, w.id ≠ fresh.workflowRunId)
    (hrefers : Refers s.catalog jobId launch.target) :
    insertWorkflowRun (workflowRunRow fresh definition launch now) s = .ok { s with
      workflowRuns := s.workflowRuns ++ [workflowRunRow fresh definition launch now] } := by
  unfold insertWorkflowRun
  rw [if_neg, if_neg]
  · simp only [Bool.or_eq_true, Bool.not_eq_true', not_or, Bool.not_eq_false]
    constructor
    · rw [Option.all_eq_true]
      intro x hx
      obtain ⟨t, ht, hid⟩ := hrefers.selected x hx
      exact List.any_eq_true.mpr ⟨t, ht, decide_eq_true hid⟩
    · rw [Option.all_eq_true]
      intro x hx
      obtain ⟨ts, hts, hid⟩ := hrefers.selectedSet x hx
      exact List.any_eq_true.mpr ⟨ts, hts, decide_eq_true hid⟩
  · rw [List.any_eq_true]
    rintro ⟨w, hw, htaken⟩
    simp only [Bool.or_eq_true, decide_eq_true_eq] at htaken
    rcases htaken with hid | hrequest
    · exact hunused w hw hid
    · exact hnew w hw hrequest

theorem insertRunRequest_of_new {row : RunRequestRow} {s : Store}
    (hnew : ∀ q ∈ s.runRequests, q.requestId ≠ row.requestId) :
    insertRunRequest row s = .ok { s with runRequests := s.runRequests ++ [row] } := by
  unfold insertRunRequest
  rw [if_neg]
  rw [List.any_eq_true]
  rintro ⟨q, hq, hid⟩
  exact hnew q hq (of_decide_eq_true hid)

theorem prepareNode_membership_error {R : Rendering} {fresh : FreshLaunch}
    {definition : StoredWorkflow} {launch : WorkflowLaunch} {node : StoredNode}
    {totals : PreparedTotals} {s : Store} {e : StoreError}
    (hnodes : ∀ n ∈ s.workflowNodeRuns, n.id ≠ fresh.nodeRunId node.name ∧
      n.workflowRunId ≠ fresh.workflowRunId)
    (hrequests : ∀ q ∈ s.runRequests, q.requestId ≠ fresh.nodeRunId node.name)
    (hrun : ∃ w ∈ s.workflowRuns, w.id = fresh.workflowRunId)
    (hjob : ∃ j ∈ s.catalog.jobs, j.id = node.jobId)
    (hfailed : membership s.catalog node.jobId launch = .error e) :
    prepareNode R fresh definition launch node totals s = .error e := by
  have hinsert : insertNodeRun (nodeRunRow fresh node) s = .ok { s with
      workflowNodeRuns := s.workflowNodeRuns ++ [nodeRunRow fresh node] } := by
    unfold insertNodeRun
    rw [if_neg, if_neg]
    · simp only [Bool.or_eq_true, Bool.not_eq_true', not_or, Bool.not_eq_false]
      obtain ⟨w, hw, hid⟩ := hrun
      obtain ⟨j, hj, hjid⟩ := hjob
      exact ⟨List.any_eq_true.mpr ⟨w, hw, decide_eq_true hid⟩,
        List.any_eq_true.mpr ⟨j, hj, decide_eq_true hjid⟩⟩
    · rw [List.any_eq_true]
      rintro ⟨n, hn, htaken⟩
      simp only [Bool.or_eq_true, Bool.and_eq_true, decide_eq_true_eq] at htaken
      rcases htaken with hid | ⟨hown, _⟩
      · exact (hnodes n hn).1 hid
      · exact (hnodes n hn).2 hown
  unfold prepareNode
  rw [hinsert]
  simp only [bind, Except.bind]
  rw [insertRunRequest_of_new]
  swap
  · exact hrequests
  simp only [membership, bind, Except.bind] at hfailed ⊢
  split at hfailed
  · cases hfailed
    rfl
  · split at hfailed
    · rename_i hother
      rw [if_pos hother]
      cases hfailed
      rfl
    · cases hfailed

/-- The first node of a launch decides whether its Targets are the authorized ones. -/
theorem start_membership_error {R : Rendering} {fresh : FreshLaunch} {launch : WorkflowLaunch}
    {now : Instant} {s : Store} {definition : StoredWorkflow} {node : StoredNode}
    {rest : List StoredNode} {e : StoreError} (hc : Charted s)
    (hnew : ∀ w ∈ s.workflowRuns, w.requestId ≠ launch.requestId)
    (hread : catalog s.catalog launch.workflowId = .ok definition)
    (hrevision : definition.revision = launch.revision)
    (hnodes : definition.nodes = node :: rest) (hunused : Unused fresh node s)
    (hrefers : Refers s.catalog node.jobId launch.target)
    (hfailed : membership s.catalog node.jobId launch = .error e) :
    start R fresh launch now s = (.error e, s) := by
  have hinsert := insertWorkflowRun_of_new definition now hnew hunused.invocation hrefers
  have hprepare {t : Store} (ht : t = { s with
      workflowRuns := s.workflowRuns ++ [workflowRunRow fresh definition launch now] }) :
      prepareNode R fresh definition launch node ⟨0, 0⟩ t = .error e := by
    rw [ht]
    refine prepareNode_membership_error ?_ hunused.request ?_ hrefers.job hfailed
    · intro n hn
      obtain ⟨w, hw, hid⟩ := hc.owner n hn
      refine ⟨hunused.nodeRun n hn, ?_⟩
      rw [← hid]
      exact hunused.invocation w hw
    · exact ⟨_, List.mem_append_right _ List.mem_cons_self, rfl⟩
  have hstart : startFresh R fresh launch now s = .error e := by
    unfold startFresh
    rw [hread]
    simp only [bind, Except.bind, hrevision, ne_eq, not_true_eq_false, if_false, pure, Except.pure]
    rw [hinsert]
    simp only []
    rw [hnodes, prepareNodes]
    simp only [bind, Except.bind]
    rw [hprepare rfl]
  rw [start_of_new hnew, hstart]
  rfl

theorem start_missing {R : Rendering} {fresh : FreshLaunch} {launch : WorkflowLaunch}
    {now : Instant} {s : Store} (hnew : ∀ w ∈ s.workflowRuns, w.requestId ≠ launch.requestId)
    (hmissing : ∀ d ∈ s.catalog.workflows, d.id ≠ launch.workflowId) :
    start R fresh launch now s = (.error .notFound, s) := by
  have hnone : (s.catalog.workflows.find? fun d => d.id = launch.workflowId) = none := by
    rw [List.find?_eq_none]
    intro d hd
    simp [hmissing d hd]
  have hfailed : startFresh R fresh launch now s = .error .notFound := by
    unfold startFresh catalog
    rw [hnone]
    rfl
  rw [start_of_new hnew, hfailed]
  rfl

inductive Resource where
  | workflow (id : Uuid)
  | schedule (id : Uuid)
  deriving DecidableEq, Repr

/-- The control plane with the tables of definitions, every definition committed so far, and the
revision each successful write carried. -/
structure State where
  control : ControlPlane.State
  graphs : Graphs
  history : List StoredWorkflow
  won : List (Resource × ℕ)

abbrev State.store (s : State) : Store := s.control.store

inductive Command where
  | create (fresh : FreshGraph) (namespaceId : Uuid) (definition : WorkflowDefinition)
  | replace (fresh : FreshGraph) (namespaceId id : Uuid) (revision : ℕ)
      (definition : WorkflowDefinition)
  | delete (id : Uuid)
  | setEnabled (id : Uuid) (revision : ℕ) (enabled : Bool) (nextRunAt : Option Instant)
  | control (c : ControlPlane.Command)

def publish (c : ControlPlane.State) (g : Graphs) (schedules : List ScheduleRow) :
    ControlPlane.State :=
  ControlPlane.next c
    (.editCatalog { c.store.catalog with workflows := definitions g } schedules)

def commitGraphs (s : State) (g : Graphs) : State :=
  { s with
    control := publish s.control g s.store.schedules
    graphs := g
    history := s.history ++ definitions g }

def carried {α : Type} (resource : Resource) (revision : ℕ) :
    Except StoreError α → List (Resource × ℕ)
  | .ok _ => [(resource, revision)]
  | .error _ => []

def replaceOutcome (s : State) (fresh : FreshGraph) (namespaceId id : Uuid) (revision : ℕ)
    (definition : WorkflowDefinition) : Except StoreError WorkflowRecord × Graphs :=
  write s.store.catalog.jobs fresh namespaceId (some (id, revision)) definition s.graphs

def next (s : State) : Command → State
  | .create fresh namespaceId definition =>
    commitGraphs s (write s.store.catalog.jobs fresh namespaceId none definition s.graphs).2
  | .replace fresh namespaceId id revision definition =>
    let outcome := replaceOutcome s fresh namespaceId id revision definition
    { commitGraphs s outcome.2 with
      won := s.won ++ carried (.workflow id) revision outcome.1 }
  | .delete id => commitGraphs s (WorkflowCatalog.delete s.store.workflowRuns id s.graphs).2
  | .setEnabled id revision enabled nextRunAt =>
    let outcome := setScheduleEnabled id revision enabled nextRunAt s.store
    { s with
      control := publish s.control s.graphs outcome.2.schedules
      won := s.won ++ carried (.schedule id) revision outcome.1 }
  | .control c => { s with control := ControlPlane.next s.control c }

def scheduleRevisions (schedules : List ScheduleRow) : List (Uuid × ℕ) :=
  schedules.map fun row => (row.id, row.revision)

/-- The database draws new Workflow ids. The commands of the control plane, launches among them,
write no definition and no revision; Schedules are added, never removed. -/
def Enabled (s : State) : Command → Prop
  | .create fresh _ _ => ∀ d ∈ s.history, d.id ≠ fresh.workflowId
  | .control c => ControlPlane.Enabled s.control c ∧
      (transact s.control c).catalog.workflows = s.store.catalog.workflows ∧
      ((transact s.control c).schedules.map ScheduleRow.id).Nodup ∧
      ∃ added, scheduleRevisions (transact s.control c).schedules =
        scheduleRevisions s.store.schedules ++ added
  | .replace _ _ _ _ _ | .delete _ | .setEnabled _ _ _ _ => True

/-- A migrated database holds no Workflow. -/
def initial (s : State) : Prop :=
  ControlPlane.initial s.control ∧ s.store.catalog.workflows = [] ∧
    (s.store.schedules.map ScheduleRow.id).Nodup ∧ s.graphs = ⟨[], [], []⟩ ∧ s.history = [] ∧
    s.won = []

def system : TransitionSystem State Command where
  initial := initial
  Enabled := Enabled
  next := next

theorem publish_reachable {c : ControlPlane.State} (h : ControlPlane.Reachable c) (g : Graphs)
    (schedules : List ScheduleRow) : ControlPlane.Reachable (publish c g schedules) := by
  have hretains := retains_self (reachable_catalogKeys h)
  exact h.tail (e := .editCatalog { c.store.catalog with workflows := definitions g } schedules)
    ⟨⟨hretains.job_ids, hretains.target_ids, hretains.queues, hretains.jobs, hretains.targets⟩, rfl⟩

def Superseded (history : List StoredWorkflow) (schedules : List ScheduleRow) :
    Resource × ℕ → Prop
  | (.workflow id, revision) => ∃ d ∈ history, d.id = id ∧ revision < d.revision
  | (.schedule id, revision) => ∃ row ∈ schedules, row.id = id ∧ revision < row.revision

theorem Superseded.mono {history history' : List StoredWorkflow}
    {schedules schedules' : List ScheduleRow} {entry : Resource × ℕ}
    (h : Superseded history schedules entry) (hhistory : ∀ d ∈ history, d ∈ history')
    (hschedules : ∀ row ∈ schedules, ∃ row' ∈ schedules', row'.id = row.id ∧
      row.revision ≤ row'.revision) : Superseded history' schedules' entry := by
  obtain ⟨resource, revision⟩ := entry
  cases resource with
  | workflow id =>
    obtain ⟨d, hd, hid, hpast⟩ := h
    exact ⟨d, hhistory d hd, hid, hpast⟩
  | schedule id =>
    obtain ⟨row, hrow, hid, hpast⟩ := h
    obtain ⟨row', hrow', hid', hle⟩ := hschedules row hrow
    exact ⟨row', hrow', hid'.trans hid, Nat.lt_of_lt_of_le hpast hle⟩

structure Invariant (s : State) : Prop where
  control : ControlPlane.Reachable s.control
  published : s.store.catalog.workflows = definitions s.graphs
  sound : Sound s.graphs
  scheduleIds : (s.store.schedules.map ScheduleRow.id).Nodup
  recorded : ∀ d ∈ definitions s.graphs, d ∈ s.history
  functional : ∀ d ∈ s.history, ∀ d' ∈ s.history, d.id = d'.id → d.revision = d'.revision → d = d'
  bounded : ∀ d ∈ s.history, ∀ w ∈ s.graphs.workflows, w.id = d.id → d.revision ≤ w.revision
  distinct : s.won.Nodup
  superseded : ∀ entry ∈ s.won, Superseded s.history s.store.schedules entry

/-- Definitions that were there before, or with a revision no earlier definition of their Workflow
had, keep the history a function of id and revision. -/
theorem functional_append {history added : List StoredWorkflow}
    (h : ∀ d ∈ history, ∀ d' ∈ history, d.id = d'.id → d.revision = d'.revision → d = d')
    (hadded : ∀ d ∈ added, d ∈ history ∨
      (∀ d' ∈ history, d.id = d'.id → d'.revision < d.revision) ∧
        ∀ d' ∈ added, d.id = d'.id → d = d') :
    ∀ d ∈ history ++ added, ∀ d' ∈ history ++ added, d.id = d'.id → d.revision = d'.revision →
      d = d' := by
  have hnew : ∀ d ∈ added, ∀ d' ∈ history ++ added, d.id = d'.id → d.revision = d'.revision →
      d ∈ history ∨ d = d' := by
    intro d hd d' hd' hid hrevision
    rcases hadded d hd with hold | ⟨hlater, hsame⟩
    · exact .inl hold
    · rcases List.mem_append.mp hd' with hd' | hd'
      · have := hlater d' hd' hid
        omega
      · exact .inr (hsame d' hd' hid)
  intro d hd d' hd' hid hrevision
  have hold {x y : StoredWorkflow} (hx : x ∈ history ++ added) (hy : y ∈ history ++ added)
      (hid : x.id = y.id) (hrevision : x.revision = y.revision) : x ∈ history ∨ x = y := by
    rcases List.mem_append.mp hx with hx | hx
    · exact .inl hx
    · exact hnew x hx y hy hid hrevision
  rcases hold hd hd' hid hrevision with hd | hsame
  · rcases hold hd' (List.mem_append_left _ hd) hid.symm hrevision.symm with hd' | hsame
    · exact h d hd d' hd' hid hrevision
    · exact hsame.symm
  · exact hsame

theorem definitions_unique {g : Graphs} (h : Keyed g) {d d' : StoredWorkflow}
    (hd : d ∈ definitions g) (hd' : d' ∈ definitions g) (hid : d.id = d'.id) : d = d' := by
  obtain ⟨w, hw, rfl⟩ := List.mem_map.mp hd
  obtain ⟨w', hw', rfl⟩ := List.mem_map.mp hd'
  rw [row_unique h.workflows hw hw' hid]

/-- An edit of one Workflow whose definition, if it has one, is later than all it had. -/
theorem Invariant.commitGraphs {s : State} (h : Invariant s) {id : Uuid} {t : Graphs}
    (hedits : Edits id s.graphs t)
    (hlater : ∀ w ∈ t.workflows, w.id = id → storedWorkflow t w ∈ definitions s.graphs ∨
      ∀ d ∈ s.history, d.id = id → d.revision < w.revision) :
    Invariant (commitGraphs s t) := by
  have hrows : ∀ d ∈ definitions t, d ∈ definitions s.graphs ∨
      ∀ d' ∈ s.history, d.id = d'.id → d'.revision < d.revision := by
    intro d hd
    by_cases hid : d.id = id
    · obtain ⟨w, hw, rfl⟩ := List.mem_map.mp hd
      rcases hlater w hw hid with hsame | hlater
      · exact .inl hsame
      · exact .inr fun d' hd' hown => hlater d' hd' (hown.symm.trans hid)
    · exact .inl (hedits.others d hd hid)
  constructor
  · exact publish_reachable h.control t s.store.schedules
  · rfl
  · exact hedits.sound
  · exact h.scheduleIds
  · exact fun d hd => List.mem_append_right _ hd
  · apply functional_append h.functional
    intro d hd
    rcases hrows d hd with hsame | hlater
    · exact .inl (h.recorded d hsame)
    · exact .inr ⟨hlater, fun d' hd' hid => definitions_unique hedits.sound.toKeyed hd hd' hid⟩
  · intro d hd w hw hown
    rcases List.mem_append.mp hd with hd | hd
    · rcases hrows _ (List.mem_map_of_mem hw) with hsame | hlater
      · obtain ⟨v, hv, hread⟩ := List.mem_map.mp hsame
        have hid : v.id = w.id := congrArg StoredWorkflow.id hread
        have hrevision : v.revision = w.revision := congrArg StoredWorkflow.revision hread
        rw [← hrevision]
        exact h.bounded d hd v hv (hid.trans hown)
      · exact Nat.le_of_lt (hlater d hd hown)
    · rw [definitions_unique hedits.sound.toKeyed hd (List.mem_map_of_mem hw) hown.symm]
      exact Nat.le_refl w.revision
  · exact h.distinct
  · exact fun entry hentry => (h.superseded entry hentry).mono
      (fun d hd => List.mem_append_left _ hd) fun row hrow => ⟨row, hrow, rfl, Nat.le_refl _⟩

theorem Invariant.recommit {s : State} (h : Invariant s) :
    Invariant (OptimisticWrites.commitGraphs s s.graphs) := by
  have hedits : Edits 0 s.graphs s.graphs := ⟨h.sound, fun _ hd _ => hd⟩
  exact h.commitGraphs hedits fun _ hw _ => .inl (List.mem_map_of_mem hw)

/-- A write that succeeds at a revision no earlier write has passed is the first to carry it. -/
theorem Invariant.win {s : State} (h : Invariant s) {entry : Resource × ℕ}
    (hcurrent : ¬ Superseded s.history s.store.schedules entry) : (s.won ++ [entry]).Nodup := by
  rw [← List.concat_eq_append, List.nodup_concat]
  exact ⟨fun hmem => hcurrent (h.superseded entry hmem), h.distinct⟩

theorem Invariant.create {s : State} (h : Invariant s) {fresh : FreshGraph} {namespaceId : Uuid}
    {definition : WorkflowDefinition} (hc : Enabled s (.create fresh namespaceId definition)) :
    Invariant (next s (.create fresh namespaceId definition)) := by
  simp only [next]
  rcases hwrite : write s.store.catalog.jobs fresh namespaceId none definition s.graphs with
    ⟨_ | record, t⟩
  · rw [write_error hwrite]
    exact h.recommit
  · obtain ⟨hedits, _, _⟩ := h.sound.create hwrite
    exact h.commitGraphs hedits fun w _ _ => .inr fun d hd hid => absurd hid (hc d hd)

theorem Invariant.replace {s : State} (h : Invariant s) (fresh : FreshGraph)
    (namespaceId id : Uuid) (revision : ℕ) (definition : WorkflowDefinition) :
    Invariant (next s (.replace fresh namespaceId id revision definition)) := by
  simp only [next, replaceOutcome]
  rcases hwrite : write s.store.catalog.jobs fresh namespaceId (some (id, revision)) definition
    s.graphs with ⟨_ | record, t⟩
  · rw [write_error hwrite, carried, List.append_nil]
    exact h.recommit
  obtain ⟨hedits, hreplaces⟩ := h.sound.replace hwrite
  obtain ⟨v, hv, hvid, hvrevision⟩ := hreplaces.current
  have hpast : ∀ d ∈ s.history, d.id = id → d.revision ≤ revision := by
    intro d hd hid
    rw [← hvrevision]
    exact h.bounded d hd v hv (hvid.trans hid.symm)
  have hcommit : Invariant (OptimisticWrites.commitGraphs s t) := by
    refine h.commitGraphs hedits fun w hw hid => .inr fun d hd hdid => ?_
    rw [hreplaces.next w hw hid]
    exact Nat.lt_succ_of_le (hpast d hd hdid)
  have hwritten : ∃ w ∈ t.workflows, w.id = id := by
    have hmem : id ∈ t.workflows.map WorkflowRow.id := by
      rw [hreplaces.ids]
      exact List.mem_map.mpr ⟨v, hv, hvid⟩
    exact List.mem_map.mp hmem
  obtain ⟨w, hw, hwid⟩ := hwritten
  refine { hcommit with distinct := h.win ?_, superseded := ?_ }
  · rintro ⟨d, hd, hid, hlater⟩
    have := hpast d hd hid
    omega
  · intro entry hentry
    rcases List.mem_append.mp hentry with hentry | hentry
    · exact hcommit.superseded entry hentry
    · rw [List.mem_singleton.mp hentry]
      refine ⟨storedWorkflow t w, List.mem_append_right _ (List.mem_map_of_mem hw), hwid, ?_⟩
      change revision < w.revision
      rw [hreplaces.next w hw hwid]
      exact Nat.lt_succ_self revision

theorem Invariant.delete {s : State} (h : Invariant s) (id : Uuid) :
    Invariant (next s (.delete id)) := by
  obtain ⟨hedits, hrows⟩ := h.sound.delete s.store.workflowRuns id
  exact h.commitGraphs hedits fun w hw hid => .inl (hrows _ (List.mem_map_of_mem hw))

theorem Invariant.setEnabled {s : State} (h : Invariant s) (id : Uuid) (revision : ℕ)
    (enabled : Bool) (nextRunAt : Option Instant) :
    Invariant (next s (.setEnabled id revision enabled nextRunAt)) := by
  have hpublished {schedules : List ScheduleRow} (hids : schedules.map ScheduleRow.id =
        s.store.schedules.map ScheduleRow.id)
      (hrows : ∀ row ∈ s.store.schedules, ∃ row' ∈ schedules, row'.id = row.id ∧
        row.revision ≤ row'.revision) :
      Invariant { s with control := publish s.control s.graphs schedules } := by
    refine ⟨publish_reachable h.control _ _, rfl, h.sound, ?_, h.recorded, h.functional, h.bounded,
      h.distinct, ?_⟩
    · exact hids.symm ▸ h.scheduleIds
    · exact fun entry hentry => (h.superseded entry hentry).mono (fun _ hd => hd) hrows
  simp only [next]
  rcases setScheduleEnabled_cases id revision enabled nextRunAt s.store with
    ⟨e, hfailed⟩ | ⟨row, hrow, hid, hrevision, hchanged⟩
  · rw [hfailed, carried, List.append_nil]
    exact hpublished rfl fun row hrow => ⟨row, hrow, rfl, Nat.le_refl _⟩
  rw [hchanged]
  have hmoved : enabledRow enabled nextRunAt row ∈
      update (atRevision id revision) (enabledRow enabled nextRunAt) s.store.schedules :=
    mem_update.mpr ⟨row, hrow, by simp [atRevision, hid, hrevision]⟩
  have hinvariant : Invariant { s with
      control := publish s.control s.graphs
        (update (atRevision id revision) (enabledRow enabled nextRunAt) s.store.schedules) } := by
    apply hpublished
    · exact map_update fun _ _ _ => rfl
    · intro r hr
      refine ⟨_, mem_update.mpr ⟨r, hr, rfl⟩, ?_⟩
      split
      · exact ⟨rfl, Nat.le_succ _⟩
      · exact ⟨rfl, Nat.le_refl _⟩
  refine { hinvariant with distinct := h.win ?_, superseded := ?_ }
  · rintro ⟨r, hr, hrid, hlater⟩
    rw [row_unique h.scheduleIds hr hrow (hrid.trans hid.symm)] at hlater
    omega
  · intro entry hentry
    rcases List.mem_append.mp hentry with hentry | hentry
    · exact hinvariant.superseded entry hentry
    · rw [List.mem_singleton.mp hentry]
      refine ⟨_, hmoved, hid, ?_⟩
      change revision < row.revision + 1
      omega

theorem Invariant.control_step {s : State} (h : Invariant s) {c : ControlPlane.Command}
    (hc : Enabled s (.control c)) : Invariant (next s (.control c)) := by
  obtain ⟨henabled, hworkflows, hids, added, hrevisions⟩ := hc
  refine ⟨h.control.tail (e := c) ⟨henabled, rfl⟩, hworkflows.trans h.published, h.sound, hids,
    h.recorded, h.functional, h.bounded, h.distinct, ?_⟩
  intro entry hentry
  refine (h.superseded entry hentry).mono (fun _ hd => hd) ?_
  intro row hrow
  have hmem : (row.id, row.revision) ∈ scheduleRevisions (transact s.control c).schedules := by
    rw [hrevisions]
    exact List.mem_append_left _ (List.mem_map.mpr ⟨row, hrow, rfl⟩)
  obtain ⟨row', hrow', hsame⟩ := List.mem_map.mp hmem
  obtain ⟨hid, hrevision⟩ := Prod.mk.inj hsame
  exact ⟨row', hrow', hid, Nat.le_of_eq hrevision.symm⟩

theorem initial_invariant {s : State} (h : system.initial s) : Invariant s := by
  obtain ⟨hcontrol, hworkflows, hids, hgraphs, hhistory, hwon⟩ := h
  have hnone {d : StoredWorkflow} (hd : d ∈ s.history) : False := by
    rw [hhistory] at hd
    exact absurd hd List.not_mem_nil
  constructor
  · exact .initial hcontrol
  · rw [hworkflows, hgraphs]
    rfl
  · rw [hgraphs]
    refine ⟨⟨List.nodup_nil, List.nodup_nil, ?_⟩, ?_⟩
    · exact fun e he => absurd he List.not_mem_nil
    · exact fun w hw => absurd hw List.not_mem_nil
  · exact hids
  · rw [hgraphs]
    exact fun d hd => absurd hd List.not_mem_nil
  · exact fun d hd => (hnone hd).elim
  · exact fun d hd => (hnone hd).elim
  · rw [hwon]
    exact List.nodup_nil
  · rw [hwon]
    exact fun entry hentry => absurd hentry List.not_mem_nil

theorem reachable_invariant {s : State} (h : system.Reachable s) : Invariant s := by
  refine h.invariant (fun s => initial_invariant) ?_
  rintro s c t hs ⟨hc, rfl⟩
  cases c with
  | create => exact hs.create hc
  | replace fresh namespaceId id revision definition =>
    exact hs.replace fresh namespaceId id revision definition
  | delete id => exact hs.delete id
  | setEnabled id revision enabled nextRunAt =>
    exact hs.setEnabled id revision enabled nextRunAt
  | control c => exact hs.control_step hc

def Switches (id : Uuid) (revision : ℕ) (s t : Store) : Prop :=
  (∃ row ∈ s.schedules, row.id = id ∧ row.revision = revision) ∧
    (∀ row ∈ t.schedules, row.id = id → row.revision = revision + 1) ∧
    ∀ row ∈ t.schedules, row.id ≠ id → row ∈ s.schedules

theorem setScheduleEnabled_switches {id : Uuid} {revision : ℕ} {enabled : Bool}
    {nextRunAt : Option Instant} {s : Store} (hids : (s.schedules.map ScheduleRow.id).Nodup)
    {row : ScheduleRow} (h : (setScheduleEnabled id revision enabled nextRunAt s).1 = .ok row) :
    Switches id revision s (setScheduleEnabled id revision enabled nextRunAt s).2 := by
  rcases setScheduleEnabled_cases id revision enabled nextRunAt s with
    ⟨e, hfailed⟩ | ⟨row, hrow, hid, hrevision, hchanged⟩
  · rw [hfailed] at h
    cases h
  rw [hchanged]
  refine ⟨⟨row, hrow, hid, hrevision⟩, ?_, ?_⟩
  · intro r hr hrid
    rcases update_cases hr with ⟨hold, hnot⟩ | ⟨old, hold, hguard, rfl⟩
    · rw [row_unique hids hold hrow (hrid.trans hid.symm)] at hnot
      simp [atRevision, hid, hrevision] at hnot
    · simp only [atRevision, Bool.and_eq_true, decide_eq_true_eq] at hguard
      change old.revision + 1 = revision + 1
      rw [hguard.2]
  · intro r hr hrid
    rcases update_cases hr with ⟨hold, _⟩ | ⟨old, hold, hguard, rfl⟩
    · exact hold
    · simp only [atRevision, Bool.and_eq_true, decide_eq_true_eq] at hguard
      exact absurd hguard.1 hrid

theorem start_fresh_ok {R : Rendering} {fresh : FreshLaunch} {launch : WorkflowLaunch}
    {now : Instant} {s : Store} {record : WorkflowRunRecord}
    (h : (start R fresh launch now s).1 = .ok (record, true)) :
    startFresh R fresh launch now s = .ok ((record, true), (start R fresh launch now s).2) := by
  unfold start at h ⊢
  split at h
  · obtain ⟨_, _, h⟩ := ok_of_bind h
    split at h
    · cases h
    · cases h
  · rcases commit_cases s (startFresh R fresh launch now s) with ⟨a, t, hx, hc⟩ | ⟨e, _, hc⟩
    · rw [hc] at h ⊢
      cases h
      exact hx
    · rw [hc] at h
      cases h

theorem start_error {R : Rendering} {fresh : FreshLaunch} {launch : WorkflowLaunch}
    {now : Instant} {s : Store} {e : StoreError}
    (h : (start R fresh launch now s).1 = .error e) : (start R fresh launch now s).2 = s := by
  unfold start at h ⊢
  split at h
  · rfl
  · rcases commit_cases s (startFresh R fresh launch now s) with ⟨a, t, hx, hc⟩ | ⟨e, _, hc⟩
    · rw [hc] at h
      cases h
    · rw [hc]

theorem membership_other {c : Catalog} {jobId : Uuid} {launch : WorkflowLaunch}
    {executions : List ExecutionRow} {setInputs : Option Value}
    (hload : loadSelectionExecutions c jobId launch.target = .ok (executions, setInputs))
    (hother : ¬ ∀ x, x ∈ executions.map ExecutionRow.targetId ↔ x ∈ launch.authorizedTargets) :
    membership c jobId launch = .error .staleRevision := by
  have hdiffer : sameTargets (executions.map ExecutionRow.targetId) launch.authorizedTargets =
      false := by
    rw [← Bool.not_eq_true, sameTargets_iff]
    exact hother
  simp only [membership, hload, bind, Except.bind, hdiffer]
  rfl

theorem start_target_gone {R : Rendering} {fresh : FreshLaunch} {launch : WorkflowLaunch}
    {now : Instant} {s : Store} {definition : StoredWorkflow} {x : Uuid}
    (hnew : ∀ w ∈ s.workflowRuns, w.requestId ≠ launch.requestId)
    (hunused : ∀ w ∈ s.workflowRuns, w.id ≠ fresh.workflowRunId)
    (hread : catalog s.catalog launch.workflowId = .ok definition)
    (hrevision : definition.revision = launch.revision) (htarget : launch.target = .target x)
    (hgone : ∀ t ∈ s.catalog.targets, t.id ≠ x) :
    start R fresh launch now s = (.error .inUse, s) := by
  have hinsert : insertWorkflowRun (workflowRunRow fresh definition launch now) s =
      .error .inUse := by
    unfold insertWorkflowRun
    rw [if_neg, if_pos]
    · rw [Bool.or_eq_true, Bool.not_eq_true', workflowRunRow, htarget]
      left
      change (s.catalog.targets.any fun t => t.id = x) = false
      rw [List.any_eq_false]
      intro t ht
      simp [hgone t ht]
    · rw [List.any_eq_true]
      rintro ⟨w, hw, htaken⟩
      simp only [Bool.or_eq_true, decide_eq_true_eq] at htaken
      rcases htaken with hid | hrequest
      · exact hunused w hw hid
      · exact hnew w hw hrequest
  have hfailed : startFresh R fresh launch now s = .error .inUse := by
    unfold startFresh
    rw [hread]
    simp only [bind, Except.bind, hrevision, ne_eq, not_true_eq_false, if_false, pure, Except.pure]
    rw [hinsert]
  rw [start_of_new hnew, hfailed]
  rfl

/-- What a launch of a new request finds: the definition of the revision it carries and the Targets
it carries, or an error that leaves nothing behind. -/
structure Launches (R : Rendering) (fresh : FreshLaunch) (launch : WorkflowLaunch) (now : Instant)
    (s : Store) : Prop where
  committed : ∀ record, (start R fresh launch now s).1 = .ok (record, true) →
    LaunchPinned fresh launch s (start R fresh launch now s).2
  atomic : ∀ e, (start R fresh launch now s).1 = .error e → (start R fresh launch now s).2 = s
  missing : (∀ w ∈ s.workflowRuns, w.requestId ≠ launch.requestId) →
    (∀ d ∈ s.catalog.workflows, d.id ≠ launch.workflowId) →
    (start R fresh launch now s).1 = .error .notFound
  otherRevision : (∀ w ∈ s.workflowRuns, w.requestId ≠ launch.requestId) →
    ∀ d ∈ s.catalog.workflows, d.id = launch.workflowId → d.revision ≠ launch.revision →
      (start R fresh launch now s).1 = .error .staleRevision
  otherTargets : (∀ w ∈ s.workflowRuns, w.requestId ≠ launch.requestId) →
    ∀ d ∈ s.catalog.workflows, d.id = launch.workflowId → ∀ node ∈ d.nodes.head?,
      Unused fresh node s → ∀ executions setInputs,
        loadSelectionExecutions s.catalog node.jobId launch.target = .ok (executions, setInputs) →
        (¬ ∀ x, x ∈ executions.map ExecutionRow.targetId ↔ x ∈ launch.authorizedTargets) →
        (start R fresh launch now s).1 = .error .staleRevision
  targetGone : (∀ w ∈ s.workflowRuns, w.requestId ≠ launch.requestId) →
    (∀ w ∈ s.workflowRuns, w.id ≠ fresh.workflowRunId) →
    ∀ d ∈ s.catalog.workflows, d.id = launch.workflowId → d.revision = launch.revision →
      ∀ x, launch.target = .target x → (∀ t ∈ s.catalog.targets, t.id ≠ x) →
        (start R fresh launch now s).1 = .error .inUse

theorem Invariant.catalog_eq {s : State} (h : Invariant s) {d : StoredWorkflow}
    (hd : d ∈ s.store.catalog.workflows) : catalog s.store.catalog d.id = .ok d := by
  have hfind : (s.store.catalog.workflows.find? fun w => w.id = d.id) = some d := by
    apply find?_row hd
    intro w hw
    rw [decide_eq_true_eq]
    constructor
    · intro hid
      rw [h.published] at hw hd
      exact definitions_unique h.sound.toKeyed hw hd hid
    · intro hsame
      rw [hsame]
  rw [catalog, hfind]

theorem Invariant.launches {s : State} (h : Invariant s) (R : Rendering) (fresh : FreshLaunch)
    (launch : WorkflowLaunch) (now : Instant) : Launches R fresh launch now s.store := by
  have hc : Charted s.store := (reachable_orchestrated h.control).phased.charted
  have hnodes {d : StoredWorkflow} {node : StoredNode} (hnode : node ∈ d.nodes.head?) :
      d.nodes = node :: d.nodes.tail := (List.cons_head?_tail hnode).symm
  constructor
  · intro record hok
    exact startFresh_pinned hc (start_fresh_ok hok)
  · intro e herror
    exact start_error herror
  · intro hnew hmissing
    rw [start_missing hnew hmissing]
  · intro hnew d hd hid hrevision
    rw [start_other_revision hnew (hid ▸ h.catalog_eq hd) hrevision]
  · intro hnew d hd hid node hnode hunused executions setInputs hload hother
    have hread := hid ▸ h.catalog_eq hd
    by_cases hrevision : d.revision = launch.revision
    · rw [start_membership_error hc hnew hread hrevision (hnodes hnode) hunused
        (loadSelectionExecutions_refers hload) (membership_other hload hother)]
    · rw [start_other_revision hnew hread hrevision]
  · intro hnew hunused d hd hid hrevision x htarget hgone
    rw [start_target_gone hnew hunused (hid ▸ h.catalog_eq hd) hrevision htarget hgone]

/-- In every run, every committed definition is valid and a revision of a Workflow has one
definition; a write succeeds only at the current revision and increases it by one, so no two
successful writes carry the same revision of one resource; a replacement that fails leaves nodes
and edges as they were; and a launch commits the definition and the Targets it was authorized for
or nothing. -/
theorem optimistic_writes {s : State} (h : system.Reachable s) :
    (∀ w ∈ s.graphs.workflows, (storedWorkflow s.graphs w).definition.validate = .ok ()) ∧
      ((∀ d ∈ s.store.catalog.workflows, d ∈ s.history) ∧ ∀ d ∈ s.history, ∀ d' ∈ s.history,
        d.id = d'.id → d.revision = d'.revision → d = d') ∧
      s.won.Nodup ∧
      (∀ fresh namespaceId id revision definition,
        let outcome := replaceOutcome s fresh namespaceId id revision definition
        (∀ record, outcome.1 = .ok record →
          Replaces id revision s.graphs outcome.2 ∧ Edits id s.graphs outcome.2) ∧
          ∀ e, outcome.1 = .error e → outcome.2 = s.graphs) ∧
      (∀ id revision enabled nextRunAt,
        let outcome := setScheduleEnabled id revision enabled nextRunAt s.store
        (∀ row, outcome.1 = .ok row → Switches id revision s.store outcome.2) ∧
          ∀ e, outcome.1 = .error e → outcome.2 = s.store) ∧
      ∀ R fresh launch now, Launches R fresh launch now s.store := by
  have hs := reachable_invariant h
  refine ⟨hs.sound.valid, ⟨?_, hs.functional⟩, hs.distinct, ?_, ?_, hs.launches⟩
  · intro d hd
    rw [hs.published] at hd
    exact hs.recorded d hd
  · intro fresh namespaceId id revision definition
    constructor
    · intro record hok
      have hwrite : write s.store.catalog.jobs fresh namespaceId (some (id, revision)) definition
          s.graphs = (.ok record, (replaceOutcome s fresh namespaceId id revision definition).2) :=
        Prod.ext hok rfl
      obtain ⟨hedits, hreplaces⟩ := hs.sound.replace hwrite
      exact ⟨hreplaces, hedits⟩
    · intro e herror
      exact write_error (Prod.ext herror rfl)
  · intro id revision enabled nextRunAt
    refine ⟨fun row hok => setScheduleEnabled_switches hs.scheduleIds hok, ?_⟩
    intro e herror
    rcases setScheduleEnabled_cases id revision enabled nextRunAt s.store with
      ⟨e', hfailed⟩ | ⟨row, _, _, _, hchanged⟩
    · rw [hfailed]
    · rw [hchanged] at herror
      cases herror

def demoFleet : Catalog :=
  { demoCatalog with targetSets := [⟨70, 3, "fleet", .object []⟩], targetSetMembers := [⟨70, 4⟩] }

def demoState : State := ⟨⟨emptyStore demoFleet [], [], [], [], []⟩, ⟨[], [], []⟩, [], []⟩

def demoDefinition : WorkflowDefinition :=
  ⟨"nightly", none, [⟨"a", 2⟩, ⟨"b", 2⟩], [⟨"a", "b", .success⟩]⟩

def demoGraph : FreshGraph := ⟨50, fun name => if name = "a" then 51 else 52⟩

def demoRegraph : FreshGraph := ⟨50, fun name => if name = "a" then 53 else 54⟩

def demoCommands : List Command :=
  [.create demoGraph 3 demoDefinition, .replace demoRegraph 3 50 1 demoDefinition]

def demoReplaced : State := system.run demoState demoCommands

def demoLaunch (revision : ℕ) : WorkflowLaunch := ⟨50, revision, 69, .targetSet 70, .object [], [4]⟩

theorem demoState_initial : system.initial demoState :=
  ⟨⟨_, _, by decide, by decide, rfl⟩, rfl, List.nodup_nil, rfl, rfl, rfl⟩

theorem demoReplaced_reachable : system.Reachable demoReplaced := by
  refine ⟨demoState, demoState_initial, .of_admits ⟨?_, trivial, trivial⟩⟩
  intro d hd
  cases hd

def demoReplacement : StoredWorkflow :=
  ⟨50, 3, "nightly", none, 2, [⟨53, "a", 2⟩, ⟨54, "b", 2⟩], [⟨"a", "b", .success⟩]⟩

/-- A second replacement at the same revision changes nothing, a launch at it is refused, and a
launch at the new one commits. -/
theorem optimistic_writes_demo :
    demoReplaced.won = [(.workflow 50, 1)] ∧
      (replaceOutcome demoReplaced demoGraph 3 50 1 demoDefinition).2 = demoReplaced.graphs ∧
      (start demoRendering demoFresh (demoLaunch 1) 0 demoReplaced.store).1 =
        .error .staleRevision ∧
      LaunchPinned demoFresh (demoLaunch 2) demoReplaced.store
        (start demoRendering demoFresh (demoLaunch 2) 0 demoReplaced.store).2 := by
  obtain ⟨_, _, _, hreplace, _, hlaunch⟩ := optimistic_writes demoReplaced_reachable
  refine ⟨by decide +kernel, ?_, ?_, ?_⟩
  · exact (hreplace demoGraph 3 50 1 demoDefinition).2 .staleRevision (by decide +kernel)
  · apply (hlaunch demoRendering demoFresh (demoLaunch 1) 0).otherRevision _ demoReplacement
    · decide +kernel
    · rfl
    · decide
    · decide +kernel
  · have hcreated : (start demoRendering demoFresh (demoLaunch 2) 0 demoReplaced.store).1.map
        Prod.snd = .ok true := by decide +kernel
    rcases hok : (start demoRendering demoFresh (demoLaunch 2) 0 demoReplaced.store).1 with
      e | ⟨record, created⟩
    · rw [hok] at hcreated
      cases hcreated
    · rw [hok] at hcreated
      cases hcreated
      exact (hlaunch demoRendering demoFresh (demoLaunch 2) 0).committed record hok

def demoDeleted : State := next demoReplaced (.delete 50)

theorem demoDeleted_reachable : system.Reachable demoDeleted :=
  demoReplaced_reachable.tail (e := .delete 50) ⟨trivial, rfl⟩

/-- A launch authorized for revision two that finds the Workflow deleted is answered with
`NotFound`. -/
theorem launch_of_deleted_workflow_not_found :
    ¬ ∀ s, system.Reachable s → ∀ R fresh launch now,
      (∃ d ∈ s.history, d.id = launch.workflowId ∧ d.revision = launch.revision) →
      (∀ w ∈ s.store.workflowRuns, w.requestId ≠ launch.requestId) →
      (¬ LaunchPinned fresh launch s.store (start R fresh launch now s.store).2) →
      start R fresh launch now s.store = (.error .staleRevision, s.store) := by
  intro hclaim
  have hanswer : (start demoRendering demoFresh (demoLaunch 2) 0 demoDeleted.store).1 =
      .error .notFound := by decide +kernel
  have hstale := hclaim demoDeleted demoDeleted_reachable demoRendering demoFresh (demoLaunch 2) 0
    ?_ ?_ ?_
  · rw [hstale] at hanswer
    cases hanswer
  · exact ⟨demoReplacement, by decide +kernel, rfl, rfl⟩
  · decide +kernel
  · rintro ⟨_, _, _, _, ⟨w, hw, _⟩, _⟩
    have hnone : (start demoRendering demoFresh (demoLaunch 2) 0 demoDeleted.store).2.workflowRuns
        = [] := by decide +kernel
    rw [hnone] at hw
    cases hw

end OptimisticWrites
