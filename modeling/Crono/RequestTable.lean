import Crono.StoreHistory

/-! The table `run_requests`. Every producer of Runs reserves its request id there in the same
transaction, so that each Run and each Workflow node finds its id reserved, and a fresh id
belongs to neither. -/
namespace RequestTable

open RunDomain WorkflowDomain SqlTable ControlPlaneSchema RunStore WorkflowStore
open ControlPlane StoreWrites
open ExecutionInputs (FloatFormat)
open FallibleLists

def Owned (s : Store) (requestId : Uuid) : Prop := ∃ n ∈ s.workflowNodeRuns, n.id = requestId

theorem Owned.kept {s t : Store} {requestId : Uuid} (h : Owned s requestId)
    (he : StoreEvolves s t) : Owned t requestId := by
  obtain ⟨n, hn, hid⟩ := h
  obtain ⟨n', hn', hmoved⟩ := he.nodeRuns.of_mem hn
  refine ⟨n', hn', ?_⟩
  rw [hmoved.columns]
  exact hid

/-- A transaction reserves ids only together with the nodes that own them. -/
structure Extends (s t : Store) : Prop where
  rows : ∃ added, t.runRequests = s.runRequests ++ added ∧ ∀ q ∈ added, Owned t q.requestId
  nodes : ∀ n ∈ t.workflowNodeRuns, (∃ n₀ ∈ s.workflowNodeRuns, n₀.id = n.id) ∨
    (∃ q ∈ t.runRequests, q.requestId = n.id) ∧ ∀ q ∈ s.runRequests, q.requestId ≠ n.id

theorem Extends.of_plain {scope : Scope} {s t : Store} (h : Writes scope s t)
    (hrequest : scope.request = none) (hlaunch : scope.launching = false) : Extends s t where
  rows := ⟨[], by rw [h.requests hrequest hlaunch, List.append_nil], nofun⟩
  nodes := by
    intro n hn
    left
    have hid : n.id ∈ s.workflowNodeRuns.map WorkflowNodeRunRow.id := by
      rw [← h.nodeIds hlaunch]
      exact List.mem_map_of_mem hn
    exact List.mem_map.mp hid

theorem Extends.trans {s t u : Store} (h : Extends s t) (k : Extends t u)
    (ht : StoreEvolves t u) : Extends s u where
  rows := by
    obtain ⟨added, hrows, howned⟩ := h.rows
    obtain ⟨added', hrows', howned'⟩ := k.rows
    refine ⟨added ++ added', by rw [hrows', hrows, List.append_assoc], ?_⟩
    intro q hq
    rcases List.mem_append.mp hq with hq | hq
    · obtain ⟨n, hn, hid⟩ := howned q hq
      obtain ⟨n', hn', hmoved⟩ := ht.nodeRuns.of_mem hn
      refine ⟨n', hn', ?_⟩
      rw [hmoved.columns]
      exact hid
    · exact howned' q hq
  nodes := by
    obtain ⟨added, hrows, _⟩ := h.rows
    obtain ⟨added', hrows', _⟩ := k.rows
    intro n hn
    rcases k.nodes n hn with ⟨n₁, hn₁, hid₁⟩ | ⟨hrow, hfresh⟩
    · rcases h.nodes n₁ hn₁ with ⟨n₀, hn₀, hid₀⟩ | ⟨⟨q, hq, hqid⟩, hfresh⟩
      · exact .inl ⟨n₀, hn₀, hid₀.trans hid₁⟩
      · refine .inr ⟨⟨q, ?_, hqid.trans hid₁⟩, hid₁ ▸ hfresh⟩
        rw [hrows']
        exact List.mem_append_left _ hq
    · refine .inr ⟨hrow, fun q hq => hfresh q ?_⟩
      rw [hrows]
      exact List.mem_append_left _ hq

/-- The nodes of a launch are inserted together with their requests. -/
theorem prepareNodes_extends {R : Rendering} {fresh : FreshLaunch} {definition : StoredWorkflow}
    {launch : WorkflowLaunch} {nodes : List StoredNode} {totals : PreparedTotals} {s t : Store}
    (hk : KeysUnique t) (h : prepareNodes R fresh definition launch nodes totals s = .ok t) :
    Extends s t := by
  obtain ⟨requests, pinned, rfl, hprepared⟩ := prepareNodes_ok h
  have hdisjoint : ∀ q ∈ s.runRequests, ∀ q' ∈ requests, q.requestId ≠ q'.requestId := by
    have hnodup := hk.requests
    rw [List.map_append, List.nodup_append] at hnodup
    intro q hq q' hq'
    exact hnodup.2.2 _ (List.mem_map_of_mem hq) _ (List.mem_map_of_mem hq')
  refine ⟨⟨requests, rfl, ?_⟩, ?_⟩
  · intro q hq
    have hid : q.requestId ∈ nodes.map fun n => fresh.nodeRunId n.name := by
      rw [← hprepared.requests]
      exact List.mem_map_of_mem hq
    obtain ⟨node, hnode, hid⟩ := List.mem_map.mp hid
    exact ⟨nodeRunRow fresh node, List.mem_append_right _ (List.mem_map_of_mem hnode), hid⟩
  · intro n hn
    rcases List.mem_append.mp hn with hn | hn
    · exact .inl ⟨n, hn, rfl⟩
    · obtain ⟨node, hnode, rfl⟩ := List.mem_map.mp hn
      have hid : fresh.nodeRunId node.name ∈ requests.map RunRequestRow.requestId := by
        rw [hprepared.requests]
        exact List.mem_map.mpr ⟨node, hnode, rfl⟩
      obtain ⟨q, hq, hid⟩ := List.mem_map.mp hid
      refine .inr ⟨⟨q, List.mem_append_right _ hq, hid⟩, ?_⟩
      intro q' hq'
      rw [show (nodeRunRow fresh node).id = q.requestId from hid.symm]
      exact hdisjoint q' hq' q hq

theorem start_extends {s : Store} (hk : KeysUnique s) (R : Rendering) (fresh : FreshLaunch)
    (launch : WorkflowLaunch) (now : Instant) : Extends s (start R fresh launch now s).2 := by
  rcases start_cases R fresh launch now s with hs | ⟨_, t, ht, hs⟩
  · rw [hs]
    have hsame : Writes .plain s s := .refl
    exact .of_plain hsame rfl rfl
  · rw [hs]
    obtain ⟨definition, _, s₁, s₂, s₃, h₁, h₂, h₃, h₄, _, _⟩ := startFresh_ok ht
    have hrun : Writes (.launch R.floats) s s₁ := .single (.workflow (.insertWorkflowRun rfl h₁))
    have hnodes := hrun.trans (prepareNodes_writes h₂)
    have hroots : Writes (.activate R.floats) s₃ t := activateRoots_writes rfl h₄
    have hprepared := prepareNodes_extends (Writes.keysUnique hnodes hk) h₂
    obtain ⟨_, rfl⟩ := insertWorkflowRun_ok h₁
    obtain ⟨hedges, _⟩ := insertRunEdges_ok h₃
    have hlaunched : Extends s s₃ := by
      rw [hedges]
      exact ⟨hprepared.rows, hprepared.nodes⟩
    exact hlaunched.trans (.of_plain hroots rfl rfl) hroots.evolves

theorem transact_extends {s : ControlPlane.State} (hk : KeysUnique s.store) {c : Command}
    (hc : ControlPlane.Enabled s c) (hrequest : (scopeOf c).request = none) :
    Extends s.store (transact s c) := by
  by_cases hlaunch : (scopeOf c).launching = false
  · exact .of_plain (transact_writes hk hc) hrequest hlaunch
  · cases c with
    | startWorkflow R fresh launch now => exact start_extends hk R fresh launch now
    | _ => exact absurd rfl hlaunch

/-- A transaction that reserved a fresh id: the row it wrote and the Runs it made. -/
structure Reserves (requestId : Uuid) (rerunOf : Option Uuid) (s t : Store) (row : RunRequestRow)
    (created : List RunRow) : Prop where
  key : row.requestId = requestId
  fresh : ∀ q ∈ s.runRequests, q.requestId ≠ requestId
  rows : t.runRequests = s.runRequests ++ [row]
  nodes : t.workflowNodeRuns = s.workflowNodeRuns
  runs : t.runs = s.runs ++ created
  made : ∀ r ∈ created, r.requestId = some requestId ∧ r.rerunOfRunId = rerunOf

theorem createNormalRun_run {ids : DispatchIds} {prepared : PreparedRun} {now : Instant}
    {s t : Store} (h : createNormalRun ids prepared now s = .ok t) :
    t.runs = s.runs ++ [normalRun prepared none now] ∧ t.runRequests = s.runRequests := by
  obtain ⟨s₁, s₂, h₁, h₂, rfl⟩ := createNormalRun_ok h
  obtain ⟨_, _, _, _, _, rfl⟩ := insertRun_ok h₁
  obtain ⟨_, _, rfl⟩ := createAttemptAndOutbox_ok h₂
  exact ⟨rfl, rfl⟩

theorem createPreparedRuns_tables {fresh : FreshRuns} {now : Instant}
    {prepared : List PreparedRun} {s t : Store}
    (h : createPreparedRuns fresh now prepared s = .ok t) :
    t.runs = s.runs ++ prepared.map (fun p => normalRun p none now) ∧
      t.runRequests = s.runRequests ∧ t.workflowNodeRuns = s.workflowNodeRuns := by
  induction prepared generalizing s with
  | nil =>
    cases h
    simp
  | cons p rest ih =>
    obtain ⟨s₁, h₁, h₂⟩ := ok_of_bind h
    obtain ⟨hruns, hrequests⟩ := createNormalRun_run h₁
    obtain ⟨hruns', hrequests', hnodes'⟩ := ih h₂
    refine ⟨?_, hrequests'.trans hrequests, hnodes'.trans (createNormalRun_tables h₁).1⟩
    rw [hruns', hruns, List.append_assoc]
    rfl

theorem createRunsTransaction_reserves {R : Rendering} {requestId jobId : Uuid}
    {target : TargetSelection} {inputs : Value} {fresh : FreshRuns} {now : Instant} {s t : Store}
    (h : createRunsTransaction R requestId jobId target inputs fresh now s = .ok (.created, t)) :
    ∃ row created, Reserves requestId none s t row created ∧ row.jobId = jobId ∧
      row.targetId = (selectionIds target).1 ∧ row.targetSetId = (selectionIds target).2 ∧
      row.inputs = inputs := by
  rcases createRunsTransaction_ok h with ⟨hc, _⟩ | ⟨_, _, _, prepared, _, s₁, _, hp, h₁, h₂⟩
  · cases hc
  obtain ⟨hfresh, rfl⟩ := insertRunRequest_ok h₁
  obtain ⟨hruns, hrows, hnodes⟩ := createPreparedRuns_tables h₂
  refine ⟨_, _, ⟨rfl, hfresh, hrows, hnodes, hruns, ?_⟩, rfl, rfl, rfl, rfl⟩
  intro r hr
  obtain ⟨p, hmem, rfl⟩ := List.mem_map.mp hr
  obtain ⟨_, _, hprepare⟩ := mapM_ok_mem hp hmem
  exact ⟨congrArg some (prepareRun_ok hprepare).1, rfl⟩

theorem insertRerunTransaction_reserves {F : FloatFormat} {sourceId requestId runId : Uuid}
    {ids : DispatchIds} {now : Instant} {s t : Store}
    (h : insertRerunTransaction F sourceId requestId runId ids now s = .ok (.created, t)) :
    ∃ row run, Reserves requestId (some sourceId) s t row [run] := by
  rcases insertRerunTransaction_ok h with
    ⟨hc, _⟩ | ⟨_, _, _, _, s₁, s₂, s₃, _, _, h₁, h₂, h₃, rfl⟩
  · cases hc
  obtain ⟨hfresh, rfl⟩ := insertRunRequest_ok h₁
  obtain ⟨_, _, _, _, _, rfl⟩ := insertRun_ok h₂
  obtain ⟨_, _, rfl⟩ := createAttemptAndOutbox_ok h₃
  refine ⟨_, _, rfl, hfresh, rfl, rfl, rfl, ?_⟩
  intro r hr
  rw [List.mem_singleton.mp hr]
  exact ⟨rfl, rfl⟩

/-- A reserving transaction that did not reserve its id changed nothing. -/
theorem transact_reserves {s : ControlPlane.State} {c : Command} {requestId : Uuid}
    (hc : (scopeOf c).request = some requestId) :
    transact s c = s.store ∨
      ∃ rerunOf row created, Reserves requestId rerunOf s.store (transact s c) row created := by
  cases c with
  | createRuns R id jobId target inputs fresh now =>
    cases hc
    simp only [transact]
    rcases h : createRunsTransaction R requestId jobId target inputs fresh now s.store with
      e | ⟨_ | _, t⟩
    · exact .inl rfl
    · obtain ⟨row, created, hreserves, _⟩ := createRunsTransaction_reserves h
      exact .inr ⟨none, row, created, hreserves⟩
    · rcases createRunsTransaction_ok h with ⟨_, rfl, _⟩ | ⟨hcreated, _⟩
      · exact .inl rfl
      · cases hcreated
  | insertRerun F sourceId id runId ids now =>
    cases hc
    simp only [transact]
    rcases h : insertRerunTransaction F sourceId requestId runId ids now s.store with
      e | ⟨_ | _, t⟩
    · exact .inl rfl
    · obtain ⟨row, run, hreserves⟩ := insertRerunTransaction_reserves h
      exact .inr ⟨some sourceId, row, [run], hreserves⟩
    · rcases insertRerunTransaction_ok h with ⟨_, rfl, _⟩ | ⟨hcreated, _⟩
      · exact .inl rfl
      · cases hcreated
  | _ => cases hc

structure Requested (s : Store) : Prop where
  nodes : ∀ n ∈ s.workflowNodeRuns, ∃ q ∈ s.runRequests, q.requestId = n.id
  runs : ∀ r ∈ s.runs, ∀ x, r.requestId = some x → ∃ q ∈ s.runRequests, q.requestId = x

theorem Requested.extends {scope : Scope} {s t : Store} (h : Requested s)
    (hwrites : Writes scope s t) (hrequest : scope.request = none) (hextends : Extends s t) :
    Requested t := by
  obtain ⟨added, hrows, _⟩ := hextends.rows
  have hmem (q : RunRequestRow) (hq : q ∈ s.runRequests) : q ∈ t.runRequests := by
    rw [hrows]
    exact List.mem_append_left _ hq
  have hnodes : ∀ n ∈ t.workflowNodeRuns, ∃ q ∈ t.runRequests, q.requestId = n.id := by
    intro n hn
    rcases hextends.nodes n hn with ⟨n₀, hn₀, hid₀⟩ | ⟨hrow, _⟩
    · obtain ⟨q, hq, hid⟩ := h.nodes n₀ hn₀
      exact ⟨q, hmem q hq, hid.trans hid₀⟩
    · exact hrow
  refine ⟨hnodes, ?_⟩
  intro r hr x hx
  rcases hwrites.run_origin r hr with ⟨r₀, hr₀, hmoved⟩ | hnew
  · rw [hmoved.columns] at hx
    obtain ⟨q, hq, hid⟩ := h.runs r₀ hr₀ x hx
    exact ⟨q, hmem q hq, hid⟩
  · rcases hnew x hx with hown | ⟨_, _, ⟨n, hn, hid⟩, _⟩
    · rw [hrequest] at hown
      cases hown
    · obtain ⟨q, hq, hqid⟩ := hnodes n hn
      exact ⟨q, hq, hqid.trans hid⟩

theorem Requested.reserves {requestId : Uuid} {rerunOf : Option Uuid} {s t : Store}
    {row : RunRequestRow} {created : List RunRow} (h : Requested s)
    (hreserves : Reserves requestId rerunOf s t row created) : Requested t := by
  have hmem (q : RunRequestRow) (hq : q ∈ s.runRequests) : q ∈ t.runRequests := by
    rw [hreserves.rows]
    exact List.mem_append_left _ hq
  refine ⟨?_, ?_⟩
  · intro n hn
    rw [hreserves.nodes] at hn
    obtain ⟨q, hq, hid⟩ := h.nodes n hn
    exact ⟨q, hmem q hq, hid⟩
  · intro r hr x hx
    rw [hreserves.runs] at hr
    rcases List.mem_append.mp hr with hr | hr
    · obtain ⟨q, hq, hid⟩ := h.runs r hr x hx
      exact ⟨q, hmem q hq, hid⟩
    · refine ⟨row, ?_, ?_⟩
      · rw [hreserves.rows]
        exact List.mem_append_right _ (List.mem_singleton.mpr rfl)
      · rw [(hreserves.made r hr).1] at hx
        rw [hreserves.key]
        exact Option.some.inj hx

theorem Requested.transact {s : ControlPlane.State} (h : Requested s.store)
    (hk : KeysUnique s.store) {c : Command} (hc : ControlPlane.Enabled s c) :
    Requested (transact s c) := by
  cases hrequest : (scopeOf c).request with
  | none => exact h.extends (transact_writes hk hc) hrequest (transact_extends hk hc hrequest)
  | some requestId =>
    rcases transact_reserves hrequest with hsame | ⟨_, _, _, hreserves⟩
    · rw [hsame]
      exact h
    · exact h.reserves hreserves

theorem reachable_requested {s : ControlPlane.State} (h : Reachable s) : Requested s.store := by
  refine h.invariant_of (P := fun s => Requested s.store) (fun s => reachable_keysUnique) ?_ ?_
  · rintro s ⟨catalog, schedules, _, _, rfl⟩
    exact ⟨fun n hn => absurd hn List.not_mem_nil, fun r hr => absurd hr List.not_mem_nil⟩
  · intro s c t hk hs hstep
    obtain ⟨hc, rfl⟩ := hstep
    exact hs.transact hk hc

end RequestTable
