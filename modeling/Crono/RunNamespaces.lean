import Crono.CatalogEdits
import Crono.OptimisticWrites

/-! Namespaces of the execution history. The Job and the Target of a Run are in one Namespace, a
request names the Job of its Runs, and every node of an invocation runs a Job of the Namespace of
its Workflow, whatever has been edited since. -/
namespace RunNamespaces

open RunDomain WorkflowDomain SqlTable ControlPlaneSchema RunStore WorkflowStore
open ControlPlane StoreWrites RequestTable WorkflowNodes WorkflowPhases WorkflowLaunches
open WorkflowProgress
open ExecutionInputs (FloatFormat)
open FallibleLists

def JobIn (c : Catalog) (jobId namespaceId : Uuid) : Prop :=
  ∃ j ∈ c.jobs, j.id = jobId ∧ j.namespaceId = namespaceId

def TargetIn (c : Catalog) (targetId namespaceId : Uuid) : Prop :=
  ∃ t ∈ c.targets, t.id = targetId ∧ t.namespaceId = namespaceId

def RunsPlaced (s : Store) : Prop :=
  ∀ r ∈ s.runs, ∃ n, JobIn s.catalog r.jobId n ∧ TargetIn s.catalog r.targetId n

theorem insertRun_placed {row : RunRow} {s t : Store} (h : insertRun row s = .ok t) :
    ∃ n, JobIn s.catalog row.jobId n ∧ TargetIn s.catalog row.targetId n := by
  unfold insertRun at h
  split at h
  · cases h
  split at h
  · cases h
  split at h
  · cases h
  split at h
  · cases h
  split at h
  · rename_i job target hjob htarget
    split at h
    · rename_i hsame
      have hjobId := List.find?_some hjob
      have htargetId := List.find?_some htarget
      rw [decide_eq_true_eq] at hjobId htargetId
      exact ⟨target.namespaceId, ⟨job, List.mem_of_find?_eq_some hjob, hjobId, hsame⟩, target,
        List.mem_of_find?_eq_some htarget, htargetId, rfl⟩
    · cases h
  · cases h

theorem RunsPlaced.write {scope : Scope} {s t : Store} (hs : RunsPlaced s)
    (h : Write scope s t) : RunsPlaced t := by
  cases h with
  | editCatalog catalog schedules hretains =>
    intro r hr
    obtain ⟨n, ⟨j, hj, hjob, hjn⟩, x, hx, htarget, hxn⟩ := hs r hr
    obtain ⟨j', hj', hjid, hjn'⟩ := hretains.jobs j hj (.inl ⟨r, hr, hjob.symm⟩)
    obtain ⟨x', hx', hxid, hxn'⟩ := hretains.targets x hx (.inl ⟨r, hr, htarget.symm⟩)
    exact ⟨n, ⟨j', hj', hjid.trans hjob, hjn'.trans hjn⟩, x', hx', hxid.trans htarget,
      hxn'.trans hxn⟩
  | workflow h =>
    intro r hr
    obtain ⟨hcatalog, _, hruns, _⟩ := h.tables
    rw [hcatalog]
    exact hs r (hruns ▸ hr)
  | execution h =>
    have hcatalog := CatalogEdits.executionWrite_catalog h
    cases h with
    | insertRun _ h =>
      have hplaced := insertRun_placed h
      obtain ⟨_, _, _, _, _, rfl⟩ := insertRun_ok h
      intro r hr
      rcases List.mem_append.mp hr with hr | hr
      · exact hs r hr
      · rw [List.mem_singleton.mp hr]
        exact hplaced
    | updateRuns p f now h =>
      intro r hr
      rcases update_cases hr with ⟨hold, _⟩ | ⟨r₀, hold, hp, rfl⟩
      · exact hs r hold
      · rw [(h r₀ hold hp).columns]
        exact hs r₀ hold
    | insertRunRequest _ h =>
      obtain ⟨_, rfl⟩ := insertRunRequest_ok h
      exact hs
    | insertAttempt _ h =>
      obtain ⟨_, rfl⟩ := insertAttempt_ok h
      exact hs
    | insertOutbox h =>
      obtain ⟨_, rfl⟩ := insertOutbox_ok h
      exact hs
    | _ => exact hs

theorem RunsPlaced.writes {scope : Scope} {s t : Store} (hs : RunsPlaced s)
    (h : Writes scope s t) : RunsPlaced t := by
  induction h with
  | refl => exact hs
  | tail _ hw ih => exact ih.write hw

theorem reachable_runsPlaced {s : ControlPlane.State} (h : Reachable s) : RunsPlaced s.store := by
  refine h.invariant_of (P := fun s => RunsPlaced s.store) (fun _ hs => hs) ?_ ?_
  · rintro s ⟨catalog, schedules, _, _, rfl⟩ r hr
    exact absurd hr List.not_mem_nil
  · exact fun s c t hreachable hs hstep => hs.writes (step_writes hreachable hstep)

theorem jobIn_write {scope : Scope} {s t : Store} (h : Write scope s t) {n : WorkflowNodeRunRow}
    (hn : n ∈ s.workflowNodeRuns) {namespaceId : Uuid} (hj : JobIn s.catalog n.jobId namespaceId) :
    JobIn t.catalog n.jobId namespaceId := by
  rcases h.catalog with hcatalog | ⟨hretains, _⟩
  · rw [hcatalog]
    exact hj
  · obtain ⟨j, hj, hid, hjn⟩ := hj
    obtain ⟨j', hj', hid', hjn'⟩ := hretains.jobs j hj (.inr ⟨n, hn, hid.symm⟩)
    exact ⟨j', hj', hid'.trans hid, hjn'.trans hjn⟩

theorem jobIn_writes {scope : Scope} {s t : Store} (h : Writes scope s t) {n : WorkflowNodeRunRow}
    (hn : n ∈ s.workflowNodeRuns) {namespaceId : Uuid} (hj : JobIn s.catalog n.jobId namespaceId) :
    JobIn t.catalog n.jobId namespaceId := by
  induction h with
  | refl => exact hj
  | tail hpre hw ih =>
    obtain ⟨n', hn', hmoved⟩ := (Writes.evolves hpre).nodeRuns.of_mem hn
    have hjob : n'.jobId = n.jobId := by rw [hmoved.columns]
    rw [← hjob] at ih ⊢
    exact jobIn_write hw hn' ih

structure Placed (s : Store) : Prop where
  nodes : ∀ n ∈ s.workflowNodeRuns, ∀ w ∈ s.workflowRuns, w.id = n.workflowRunId →
    JobIn s.catalog n.jobId w.namespaceId
  requests : ∀ n ∈ s.workflowNodeRuns, ∀ q ∈ s.runRequests, q.requestId = n.id →
    q.jobId = n.jobId
  snapshots : ∀ w ∈ s.workflowRuns, w.definitionSnapshot.namespaceId = w.namespaceId

theorem Placed.steady {scope : Scope} {s t : Store} (h : Placed s) (hwrites : Writes scope s t)
    (hsteady : Steady s t) (hrequests : ∀ q ∈ t.runRequests, q ∈ s.runRequests ∨
      ∀ n ∈ s.workflowNodeRuns, n.id ≠ q.requestId) : Placed t where
  nodes := by
    intro n hn w hw hown
    obtain ⟨n₀, hn₀, hmoved⟩ := hsteady.nodeRuns n hn
    obtain ⟨w₀, hw₀, hwmoved⟩ := hsteady.workflowRuns w hw
    rw [hmoved.columns, hwmoved.columns] at hown
    rw [hmoved.columns, hwmoved.columns]
    exact jobIn_writes hwrites hn₀ (h.nodes n₀ hn₀ w₀ hw₀ hown)
  requests := by
    intro n hn q hq hid
    obtain ⟨n₀, hn₀, hmoved⟩ := hsteady.nodeRuns n hn
    rw [hmoved.columns] at hid ⊢
    rcases hrequests q hq with hold | hfresh
    · exact h.requests n₀ hn₀ q hold hid
    · exact absurd hid.symm (hfresh n₀ hn₀)
  snapshots := by
    intro w hw
    obtain ⟨w₀, hw₀, hmoved⟩ := hsteady.workflowRuns w hw
    rw [hmoved.columns]
    exact h.snapshots w₀ hw₀

theorem loadExecutionIds_job {c : Catalog} {jobId targetId : Uuid} {e : ExecutionRow}
    (h : loadExecutionIds c jobId targetId = .ok e) :
    e.jobId = jobId ∧ e.targetId = targetId ∧ JobIn c jobId e.namespaceId ∧
      TargetIn c targetId e.namespaceId := by
  unfold loadExecutionIds at h
  split at h
  · cases h
  rename_i j hj
  split at h
  · rename_i q x _ hx
    have hjob := List.find?_some hj
    have htarget := List.find?_some hx
    simp only [Bool.and_eq_true, decide_eq_true_eq] at hjob htarget
    cases h
    exact ⟨hjob, htarget.1, ⟨j, List.mem_of_find?_eq_some hj, hjob, rfl⟩, x,
      List.mem_of_find?_eq_some hx, htarget⟩
  · cases h

/-- Every execution of a selection is for the Job, in its Namespace. -/
theorem loadSelectionExecutions_job {c : Catalog} {jobId : Uuid} {target : TargetSelection}
    {executions : List ExecutionRow} {setInputs : Option Value}
    (h : loadSelectionExecutions c jobId target = .ok (executions, setInputs)) :
    ∀ e ∈ executions, e.jobId = jobId ∧ JobIn c jobId e.namespaceId ∧
      TargetIn c e.targetId e.namespaceId := by
  have hloaded {x : Uuid} {e : ExecutionRow} (he : loadExecutionIds c jobId x = .ok e) :
      e.jobId = jobId ∧ JobIn c jobId e.namespaceId ∧ TargetIn c e.targetId e.namespaceId := by
    obtain ⟨hjob, htarget, hjobIn, htargetIn⟩ := loadExecutionIds_job he
    rw [htarget]
    exact ⟨hjob, hjobIn, htargetIn⟩
  cases target with
  | target targetId =>
    obtain ⟨execution, he, h⟩ := ok_of_bind h
    cases h
    intro e hmem
    rw [List.mem_singleton.mp hmem]
    exact hloaded he
  | targetSet targetSetId =>
    simp only [loadSelectionExecutions] at h
    split at h
    · cases h
    split at h
    · cases h
    split at h
    · cases h
    obtain ⟨executions', hmap, h⟩ := ok_of_bind h
    cases h
    intro e hmem
    obtain ⟨x, _, he⟩ := mapM_ok_mem hmap hmem
    exact hloaded he

theorem prepareExecutions_namespace {R : Rendering} {fresh : FreshLaunch}
    {definition : StoredWorkflow} {launch : WorkflowLaunch} {node : StoredNode}
    {setInputs : Option Value} {executions : List ExecutionRow} {bytes bytes' : ℕ} {s t : Store}
    (h : prepareExecutions R fresh definition launch node setInputs executions bytes s =
      .ok (bytes', t)) : ∀ e ∈ executions, e.namespaceId = definition.namespaceId := by
  induction executions generalizing bytes s with
  | nil => exact fun e he => absurd he List.not_mem_nil
  | cons execution rest ih =>
    obtain ⟨⟨bytes₁, s₁⟩, h₁, h₂⟩ := ok_of_bind h
    obtain ⟨_, _, _, hnamespace, _⟩ := prepareExecution_ok h₁
    intro e he
    rcases List.mem_cons.mp he with rfl | he
    · exact hnamespace
    · exact ih h₂ e he

/-- The nodes of a launch run Jobs of the Namespace of the Workflow, and their requests name
them. -/
theorem prepareNodes_jobs {R : Rendering} {fresh : FreshLaunch} {definition : StoredWorkflow}
    {launch : WorkflowLaunch} {nodes : List StoredNode} {totals : PreparedTotals} {s t : Store}
    (h : prepareNodes R fresh definition launch nodes totals s = .ok t) :
    (∀ node ∈ nodes, JobIn s.catalog node.jobId definition.namespaceId) ∧
      ∀ q ∈ t.runRequests, q ∈ s.runRequests ∨
        ∃ node ∈ nodes, q.requestId = fresh.nodeRunId node.name ∧ q.jobId = node.jobId := by
  induction nodes generalizing totals s with
  | nil =>
    cases h
    exact ⟨fun n hn => absurd hn List.not_mem_nil, fun q hq => .inl hq⟩
  | cons node rest ih =>
    obtain ⟨⟨totals₁, s₁⟩, h₁, h₂⟩ := ok_of_bind h
    obtain ⟨request, executions, _, _, s₂, s₃, hnode, hid, hjob, hrequest, ⟨hload, _⟩, hprepare⟩ :=
      prepareNode_ok h₁
    obtain ⟨_, _, _, rfl⟩ := insertNodeRun_ok hnode
    obtain ⟨_, rfl⟩ := insertRunRequest_ok hrequest
    have hnamespace := prepareExecutions_namespace hprepare
    obtain ⟨pinned, rfl, _, _⟩ := prepareExecutions_ok hprepare
    obtain ⟨hjobs, hrequests⟩ := ih h₂
    constructor
    · intro n hn
      rcases List.mem_cons.mp hn with rfl | hn
      · obtain ⟨e, he⟩ := List.exists_mem_of_ne_nil _ (loadSelectionExecutions_ne_nil hload)
        have hplaced := (loadSelectionExecutions_job hload e he).2.1
        rw [hnamespace e he] at hplaced
        exact hplaced
      · exact hjobs n hn
    · intro q hq
      rcases hrequests q hq with hq | ⟨n, hn, hnamed⟩
      · rcases List.mem_append.mp hq with hq | hq
        · exact .inl hq
        · rw [List.mem_singleton.mp hq]
          exact .inr ⟨node, List.mem_cons_self, hid, hjob⟩
      · exact .inr ⟨n, List.mem_cons_of_mem node hn, hnamed⟩

theorem Placed.start {s : Store} (h : Placed s) (hk : KeysUnique s) (hc : Charted s)
    (R : Rendering) (fresh : FreshLaunch) (launch : WorkflowLaunch) (now : Instant) :
    Placed (start R fresh launch now s).2 := by
  rcases start_cases R fresh launch now s with hs | ⟨_, t, ht, hs⟩
  · rw [hs]
    exact h
  rw [hs]
  obtain ⟨definition, _, s₁, s₂, s₃, h₁, h₂, h₃, h₄, _, _⟩ := startFresh_ok ht
  have hwrites₂ : Writes (.launch R.floats) s s₂ :=
    .head (.workflow (.insertWorkflowRun rfl h₁)) (prepareNodes_writes h₂)
  have hwrites : Writes (.launch R.floats) s s₃ := hwrites₂.trans (insertRunEdges_writes h₃)
  have hkeys₂ := hwrites₂.keysUnique hk
  have hkeys := hwrites.keysUnique hk
  have hroots : Writes (.activate R.floats) s₃ t := activateRoots_writes rfl h₄
  obtain ⟨hjobs, hnamed⟩ := prepareNodes_jobs h₂
  have hfreshNodes := OptimisticWrites.prepareNodes_fresh h₂
  obtain ⟨hfresh, rfl⟩ := insertWorkflowRun_ok h₁
  obtain ⟨requests, pinned, rfl, hprepared⟩ := prepareNodes_ok h₂
  obtain ⟨rfl, _⟩ := insertRunEdges_ok h₃
  refine Placed.steady ⟨?_, ?_, ?_⟩ hroots (Writes.steady hroots rfl hkeys) ?_
  · intro n hn w hw hown
    rcases List.mem_append.mp hn with hn | hn
    · obtain ⟨w₀, hw₀, hid₀⟩ := hc.owner n hn
      rcases List.mem_append.mp hw with hw | hw
      · exact h.nodes n hn w hw hown
      · rw [List.mem_singleton.mp hw] at hown
        exact absurd (hid₀.trans hown.symm) (hfresh w₀ hw₀).1
    · obtain ⟨node, hnode, rfl⟩ := List.mem_map.mp hn
      rcases List.mem_append.mp hw with hw | hw
      · exact absurd hown (hfresh w hw).1
      · rw [List.mem_singleton.mp hw]
        exact hjobs node hnode
  · intro n hn q hq hid
    rcases List.mem_append.mp hn with hn | hn
    · rcases hnamed q hq with hq | ⟨node, hnode, hqid, _⟩
      · exact h.requests n hn q hq hid
      · exact absurd (hid.symm.trans hqid) (hfreshNodes n hn node hnode)
    · obtain ⟨node, hnode, rfl⟩ := List.mem_map.mp hn
      rcases hnamed q hq with hq | ⟨node', hnode', hqid, hqjob⟩
      · have hreserved : fresh.nodeRunId node.name ∈ requests.map RunRequestRow.requestId := by
          rw [hprepared.requests]
          exact List.mem_map.mpr ⟨node, hnode, rfl⟩
        have hnodup := hkeys₂.requests
        rw [List.map_append, List.nodup_append] at hnodup
        exact absurd hid (hnodup.2.2 q.requestId (List.mem_map_of_mem hq) _ hreserved)
      · have hnodup := hkeys₂.nodeRuns
        rw [List.map_append, List.nodup_append] at hnodup
        have hsame : nodeRunRow fresh node' = nodeRunRow fresh node :=
          row_unique hnodup.2.1 (List.mem_map_of_mem hnode') (List.mem_map_of_mem hnode)
            (hqid.symm.trans hid)
        rw [hqjob]
        exact congrArg WorkflowNodeRunRow.jobId hsame
  · intro w hw
    rcases List.mem_append.mp hw with hw | hw
    · exact h.snapshots w hw
    · rw [List.mem_singleton.mp hw]
      rfl
  · exact fun q hq => .inl (Writes.requests hroots rfl rfl ▸ hq)

theorem Placed.transact {s : ControlPlane.State} (h : Placed s.store) (hk : KeysUnique s.store)
    (hc : Charted s.store) (hrequested : Requested s.store) {c : Command}
    (henabled : ControlPlane.Enabled s c) : Placed (transact s c) := by
  by_cases hlaunch : (scopeOf c).launching = false
  · have hwrites := transact_writes hk henabled
    refine h.steady hwrites (Writes.steady hwrites hlaunch hk) ?_
    intro q hq
    cases hrequest : (scopeOf c).request with
    | none => exact .inl (Writes.requests hwrites hrequest hlaunch ▸ hq)
    | some requestId =>
      rcases transact_reserves hrequest with hsame | ⟨_, row, _, hreserves⟩
      · rw [hsame] at hq
        exact .inl hq
      · rw [hreserves.rows] at hq
        rcases List.mem_append.mp hq with hq | hq
        · exact .inl hq
        · right
          rw [List.mem_singleton.mp hq, hreserves.key]
          intro n hn hid
          obtain ⟨q₀, hq₀, hid₀⟩ := hrequested.nodes n hn
          exact hreserves.fresh q₀ hq₀ (hid₀.trans hid)
  · cases c with
    | startWorkflow R fresh launch now => exact h.start hk hc R fresh launch now
    | _ => exact absurd rfl hlaunch

theorem reachable_placed {s : ControlPlane.State} (h : Reachable s) : Placed s.store := by
  refine h.invariant_of (P := fun s => Placed s.store) (fun _ hs => hs) ?_ ?_
  · rintro s ⟨catalog, schedules, _, _, rfl⟩
    exact ⟨fun n hn => absurd hn List.not_mem_nil, fun n hn => absurd hn List.not_mem_nil,
      fun w hw => absurd hw List.not_mem_nil⟩
  · rintro s c t hreachable hs ⟨hc, rfl⟩
    have hp := (reachable_orchestrated hreachable).phased
    exact hs.transact hp.keys hp.charted (reachable_requested hreachable) hc

theorem node_run_job {s : ControlPlane.State} (h : Reachable s) {n : WorkflowNodeRunRow}
    (hn : n ∈ s.store.workflowNodeRuns) {r : RunRow} (hr : r ∈ s.store.runs)
    (hrequest : r.requestId = some n.id) : r.jobId = n.jobId := by
  rcases (reachable_orchestrated h).phased.phase n hn with hunlaunched | hlaunched
  · exact absurd hrequest (hunlaunched.runs r hr)
  · obtain ⟨e, _, _, hpinned⟩ := hlaunched.runs r hr hrequest
    exact hpinned.job

def RequestsNamed (s : Store) : Prop :=
  ∀ r ∈ s.runs, ∀ q ∈ s.runRequests, r.requestId = some q.requestId → r.jobId = q.jobId

theorem createRunsTransaction_jobs {R : Rendering} {requestId jobId : Uuid}
    {target : TargetSelection} {inputs : Value} {fresh : FreshRuns} {now : Instant} {s t : Store}
    {c : RequestCommit}
    (h : createRunsTransaction R requestId jobId target inputs fresh now s = .ok (c, t)) :
    ∀ r ∈ t.runs, r ∈ s.runs ∨ r.jobId = jobId ∧ ∃ namespaceId, JobIn s.catalog jobId namespaceId ∧
      TargetIn s.catalog r.targetId namespaceId := by
  rcases createRunsTransaction_ok h with
    ⟨_, rfl, _⟩ | ⟨_, executions, _, prepared, _, s₁, hload, hp, h₁, h₂⟩
  · exact fun r hr => .inl hr
  obtain ⟨_, rfl⟩ := insertRunRequest_ok h₁
  obtain ⟨hruns, _, _⟩ := createPreparedRuns_tables h₂
  intro r hr
  rw [hruns] at hr
  rcases List.mem_append.mp hr with hr | hr
  · exact .inl hr
  · right
    obtain ⟨p, hmem, rfl⟩ := List.mem_map.mp hr
    obtain ⟨e, he, hprepare⟩ := mapM_ok_mem hp hmem
    obtain ⟨hjob, hjobIn, htargetIn⟩ := loadSelectionExecutions_job hload e he
    have hrow : p.jobId = e.jobId ∧ p.targetId = e.targetId := by
      simp only [prepareRun] at hprepare
      split at hprepare
      · cases hprepare
        exact ⟨rfl, rfl⟩
      · cases hprepare
    refine ⟨hrow.1.trans hjob, e.namespaceId, hjobIn, ?_⟩
    change TargetIn s.catalog p.targetId e.namespaceId
    rw [hrow.2]
    exact htargetIn

/-- A re-run repeats the Job and the Target of its source. -/
theorem insertRerunTransaction_jobs {F : FloatFormat} {sourceId requestId runId : Uuid}
    {ids : DispatchIds} {now : Instant} {s t : Store} {c : RequestCommit}
    (h : insertRerunTransaction F sourceId requestId runId ids now s = .ok (c, t)) :
    t = s ∨ ∃ source ∈ s.runs, source.id = sourceId ∧
      (∀ r ∈ t.runs, r ∈ s.runs ∨ r.jobId = source.jobId ∧ r.targetId = source.targetId) ∧
      ∀ q ∈ t.runRequests, q ∈ s.runRequests ∨ q.jobId = source.jobId := by
  rcases insertRerunTransaction_ok h with
    ⟨_, rfl, _⟩ | ⟨_, source, _, _, s₁, s₂, s₃, hsource, _, h₁, h₂, h₃, rfl⟩
  · exact .inl rfl
  right
  have hid := List.find?_some hsource
  rw [decide_eq_true_eq] at hid
  obtain ⟨_, rfl⟩ := insertRunRequest_ok h₁
  obtain ⟨_, _, _, _, _, rfl⟩ := insertRun_ok h₂
  obtain ⟨_, _, rfl⟩ := createAttemptAndOutbox_ok h₃
  refine ⟨source, List.mem_of_find?_eq_some hsource, hid, ?_, ?_⟩
  · intro r hr
    rcases List.mem_append.mp hr with hr | hr
    · exact .inl hr
    · rw [List.mem_singleton.mp hr]
      exact .inr ⟨rfl, rfl⟩
  · intro q hq
    rcases List.mem_append.mp hq with hq | hq
    · exact .inl hq
    · rw [List.mem_singleton.mp hq]
      exact .inr rfl

/-- The Runs and the request of a reserving transaction name one Job. -/
theorem transact_jobs {s : ControlPlane.State} {c : Command} {requestId : Uuid}
    (hc : (scopeOf c).request = some requestId) :
    ∃ jobId, (∀ r ∈ (transact s c).runs, r ∈ s.store.runs ∨ r.jobId = jobId) ∧
      ∀ q ∈ (transact s c).runRequests, q ∈ s.store.runRequests ∨ q.jobId = jobId := by
  cases c with
  | createRuns R id jobId target inputs fresh now =>
    cases hc
    refine ⟨jobId, ?_⟩
    simp only [transact]
    rcases h : createRunsTransaction R requestId jobId target inputs fresh now s.store with
      e | ⟨_ | _, t⟩
    · exact ⟨fun r hr => .inl hr, fun q hq => .inl hq⟩
    · have hjobs := createRunsTransaction_jobs h
      obtain ⟨row, created, hreserves, hjob, _⟩ := createRunsTransaction_reserves h
      refine ⟨fun r hr => (hjobs r hr).imp id And.left, ?_⟩
      intro q hq
      simp only [commitRequest, hreserves.rows] at hq
      rcases List.mem_append.mp hq with hq | hq
      · exact .inl hq
      · rw [List.mem_singleton.mp hq]
        exact .inr hjob
    · rcases createRunsTransaction_ok h with ⟨_, rfl, _⟩ | ⟨hcreated, _⟩
      · exact ⟨fun r hr => .inl hr, fun q hq => .inl hq⟩
      · cases hcreated
  | insertRerun F sourceId id runId ids now =>
    cases hc
    simp only [transact]
    rcases h : insertRerunTransaction F sourceId requestId runId ids now s.store with e | ⟨_, t⟩
    · exact ⟨0, fun r hr => .inl hr, fun q hq => .inl hq⟩
    · rcases insertRerunTransaction_jobs h with rfl | ⟨source, _, _, hruns, hrequests⟩
      · exact ⟨0, fun r hr => .inl hr, fun q hq => .inl hq⟩
      · exact ⟨source.jobId, fun r hr => (hruns r hr).imp id And.left, hrequests⟩
  | _ => cases hc

theorem RequestsNamed.step {s t : ControlPlane.State} {c : Command} (h : RequestsNamed s.store)
    (hs : Reachable s) (hstep : Step s c t) : RequestsNamed t.store := by
  have ht := hs.tail hstep
  have hkeys := (reachable_keysUnique ht).requests
  have hwrites := step_writes hs hstep
  have hrequested := reachable_requested hs
  -- the request of an old Run is an old one
  have hold {r₀ r : RunRow} (hr₀ : r₀ ∈ s.store.runs) (hmoved : RunEvolves r₀ r)
      {q : RunRequestRow} (hq : q ∈ t.store.runRequests) (hid : r.requestId = some q.requestId) :
      r.jobId = q.jobId := by
    rw [hmoved.columns] at hid ⊢
    obtain ⟨q₀, hq₀, hid₀⟩ := hrequested.runs r₀ hr₀ _ hid
    obtain ⟨q₁, hq₁, rfl⟩ := (Writes.evolves hwrites).requests.of_mem hq₀
    rw [row_unique hkeys hq hq₁ hid₀.symm]
    exact h r₀ hr₀ q₀ hq₀ (hid.trans (congrArg some hid₀.symm))
  intro r hr q hq hid
  rcases hwrites.run_origin r hr with ⟨r₀, hr₀, hmoved⟩ | hnew
  · exact hold hr₀ hmoved hq hid
  rcases hnew _ hid with hown | ⟨_, _, ⟨n, hn, hnid⟩, _⟩
  · obtain ⟨_, rfl⟩ := hstep
    obtain ⟨jobId, hruns, hrequests⟩ := transact_jobs (s := s) hown
    rcases hruns r hr with hr | hjob
    · exact hold hr (.refl r) hq hid
    rcases hrequests q hq with hqold | hqjob
    · rcases transact_reserves (s := s) hown with hsame | ⟨_, _, _, hreserves⟩
      · have hrold : r ∈ (transact s c).runs := hr
        rw [hsame] at hrold
        exact hold hrold (.refl r) hq hid
      · exact absurd rfl (hreserves.fresh q hqold)
    · exact hjob.trans hqjob.symm
  · rw [node_run_job ht hn hr (hid.trans (congrArg some hnid.symm))]
    exact ((reachable_placed ht).requests n hn q hq hnid.symm).symm

theorem reachable_requestsNamed {s : ControlPlane.State} (h : Reachable s) :
    RequestsNamed s.store := by
  refine h.invariant_of (P := fun s => RequestsNamed s.store) (fun _ hs => hs) ?_ ?_
  · rintro s ⟨catalog, schedules, _, _, rfl⟩ r hr
    exact absurd hr List.not_mem_nil
  · exact fun s c t hreachable hs hstep => hs.step hreachable hstep

end RunNamespaces
