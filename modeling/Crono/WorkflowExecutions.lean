import Crono.RunCoupling
import Crono.WorkflowProgress

/-! The Runs of a node along a whole execution: they are none until the node is activated, the
node is activated at most once, and then they are exactly the executions pinned at launch, their
snapshots up to the numbers that `serde_json` does not read back. -/
namespace WorkflowExecutions

open RunDomain WorkflowDomain SqlTable ControlPlaneSchema RunStore WorkflowStore
open ControlPlane StoreWrites RequestTable WorkflowNodes WorkflowPhases WorkflowProgress
open ExecutionInputs (FloatFormat)
open StoredValues

/-- A step in which a node goes from pending to running. -/
def Activation (s : ControlPlane.State) (c : Command) (t : ControlPlane.State) (nodeId : Uuid) :
    Prop :=
  Step s c t ∧ (∃ n ∈ s.store.workflowNodeRuns, n.id = nodeId ∧ n.state = .pending) ∧
    ∃ n ∈ t.store.workflowNodeRuns, n.id = nodeId ∧ n.state = .running

/-- A node that was never activated has no Run. -/
structure NeverActivated (t : Store) (n : WorkflowNodeRunRow) : Prop where
  state : n.state = .pending ∨ n.state = .skipped ∨ n.state = .cancelled
  started : n.startedAt = none
  children : ∀ r, ¬ Child t n.id r

/-- An activated node has one Run for every pinned execution, made from it, and no other. -/
structure ActivatedOnce (pins : List WorkflowNodeExecutionRow) (t : Store)
    (n : WorkflowNodeRunRow) : Prop where
  state : n.state = .running ∨ (∀ r, Child t n.id r → r.status.isTerminal = true) ∧
    n.state = completionState (childStatuses t n.id)
  launched : ∀ e ∈ pins, e.nodeRunId = n.id →
    ∃ r, Child t n.id r ∧ Pinned n e r ∧ ∀ r', Child t n.id r' → r'.targetId = e.targetId → r' = r
  pinned : ∀ r, Child t n.id r → ∃ e ∈ pins, e.nodeRunId = n.id ∧ Pinned n e r

theorem Unlaunched.neverActivated {s : Store} {n : WorkflowNodeRunRow} (h : Unlaunched s n) :
    NeverActivated s n := by
  refine ⟨h.state.imp id (.imp And.left And.left), h.unstarted, ?_⟩
  rintro r ⟨_, e, he, hnode, hrun⟩
  rw [h.executions e he hnode] at hrun
  cases hrun

theorem Pinned.earlier {n : WorkflowNodeRunRow} {e e' : WorkflowNodeExecutionRow} {r : RunRow}
    (h : Pinned n e' r) (hmoved : NodeExecutionEvolves e e') : Pinned n e r := by
  obtain ⟨hid, hrequest, hjob, htarget, hqueue, hattempts, hsnapshot⟩ := h
  rw [hmoved.columns] at hid htarget hqueue hattempts hsnapshot
  exact ⟨hid, hrequest, hjob, htarget, hqueue, hattempts, hsnapshot⟩

/-- The children of a launched node are made from the executions of any earlier store. -/
theorem Launched.activatedOnce {s t : Store} (hk : KeysUnique s) (hkept : Kept s t)
    {n n' : WorkflowNodeRunRow} (hn : n ∈ s.workflowNodeRuns) (hid : n'.id = n.id)
    (h : Launched t n') : ActivatedOnce s.workflowNodeExecutions t n' := by
  have hpinned : ∀ r, Child t n'.id r → ∃ e ∈ s.workflowNodeExecutions, e.nodeRunId = n'.id ∧
      Pinned n' e r := by
    rintro r ⟨hr, e', he', hnode, hrun⟩
    obtain ⟨hlaunched, r', hr', hpinned⟩ := h.executions e' he' hnode
    rw [hlaunched] at hrun
    have hsame : r = r' := row_unique hkept.keys.runs hr hr' (by
      rw [hpinned.id, Option.some.inj hrun])
    rw [hsame]
    rcases hkept.executions e' he' with ⟨e, he, hmoved⟩ | hfresh
    · refine ⟨e, he, ?_, Pinned.earlier hpinned hmoved⟩
      rw [hmoved.columns] at hnode
      exact hnode
    · exact absurd (hid.symm.trans hnode.symm) (hfresh n hn)
  refine ⟨h.state, ?_, hpinned⟩
  intro e he hnode
  obtain ⟨e', he', hmoved⟩ := hkept.evolves.executions.of_mem he
  have hnode' : e'.nodeRunId = n'.id := by
    rw [hmoved.columns]
    exact hnode
  obtain ⟨hlaunched, r, hr, hrow⟩ := h.executions e' he' hnode'
  have hchild : Child t n'.id r := ⟨hr, e', he', hnode', by rw [hlaunched, hrow.id]⟩
  have hrow' := Pinned.earlier hrow hmoved
  refine ⟨r, hchild, hrow', ?_⟩
  intro r' hr' htarget
  -- one execution is pinned for each Target of the node
  obtain ⟨f, hf, hfnode, hfrow⟩ := hpinned r' hr'
  have hsame : f = e := row_unique hk.executions hf he (Prod.ext (hfnode.trans hnode.symm)
    (hfrow.target.symm.trans htarget))
  refine row_unique hkept.keys.runs hr'.1 hr ?_
  rw [hfrow.id, hrow'.id, hsame]

theorem activation_once {s t u v w : ControlPlane.State} {c c' : Command} {nodeId : Uuid}
    (hs : Reachable s) (h : Execution s t) (hfirst : Activation t c u nodeId)
    (hlater : Execution u v) : ¬ Activation v c' w nodeId := by
  rintro ⟨_, ⟨n, hn, hid, hpending⟩, _⟩
  obtain ⟨hstep, _, m, hm, hmid, hrunning⟩ := hfirst
  have hmoved := (execution_kept ((hs.execution h).tail hstep) hlater).node hm hn
    (hid.trans hmid.symm)
  have hrank := hmoved.progress
  rw [hrunning, hpending] at hrank
  exact absurd hrank (by decide)

/-- The command reads pinned snapshots with `F`, if it reads any. -/
def ReadsWith (F : FloatFormat) : Command → Prop
  | .startWorkflow R _ _ _ => R.floats = F
  | .commitPass _ dispatch _ _ => dispatch.floats = F
  | _ => True

theorem ReadsWith.activating {F G : FloatFormat} {c : Command} (h : ReadsWith F c)
    (hscope : (scopeOf c).activating = some G) : G = F := by
  cases c with
  | startWorkflow R fresh launch now =>
    cases hscope
    exact h
  | commitPass order dispatch now workflowRunId =>
    cases hscope
    exact h
  | _ => cases hscope

/-- The control plane of a server whose `serde_json` reads numbers as `F` says. -/
def reading (F : FloatFormat) : TransitionSystem ControlPlane.State Command :=
  system.restrict fun _ c => ReadsWith F c

/-- A Run that was requested by a node has the snapshot pinned for it, read with `F`. -/
def Reread (F : FloatFormat) (s : Store) : Prop :=
  ∀ r ∈ s.runs, ∀ x, r.requestId = some x → Owned s x → PinnedAs F s r.id r.executionSnapshot

theorem Owned.before {s t : ControlPlane.State} {c : Command} (hs : Reachable s)
    (hstep : Step s c t) {q : RunRequestRow} (hq : q ∈ s.store.runRequests)
    (h : Owned t.store q.requestId) : Owned s.store q.requestId := by
  obtain ⟨hc, rfl⟩ := hstep
  obtain ⟨n, hn, hid⟩ := h
  cases hrequest : (scopeOf c).request with
  | none =>
    rcases (transact_extends (reachable_keysUnique hs) hc hrequest).nodes n hn with
      ⟨n₀, hn₀, hid₀⟩ | ⟨_, hfresh⟩
    · exact ⟨n₀, hn₀, hid₀.trans hid⟩
    · exact absurd hid.symm (hfresh q hq)
  | some requestId =>
    have hmem : n ∈ (transact s c).workflowNodeRuns := hn
    rcases transact_reserves (s := s) hrequest with hsame | ⟨_, _, _, hreserves⟩
    · rw [hsame] at hmem
      exact ⟨n, hmem, hid⟩
    · rw [hreserves.nodes] at hmem
      exact ⟨n, hmem, hid⟩

theorem not_owned_of_made {s t : ControlPlane.State} {c : Command} (hs : Reachable s)
    (hstep : Step s c t) {x : Uuid} (hscope : (scopeOf c).request = some x) :
    t.store = s.store ∨ ¬ Owned t.store x := by
  obtain ⟨_, rfl⟩ := hstep
  rcases transact_reserves (s := s) hscope with hsame | ⟨_, _, _, hreserves⟩
  · exact .inl hsame
  · right
    rintro ⟨n, hn, hid⟩
    have hmem : n ∈ (transact s c).workflowNodeRuns := hn
    rw [hreserves.nodes] at hmem
    obtain ⟨q, hq, hqid⟩ := (reachable_requested hs).nodes n hmem
    exact hreserves.fresh q hq (hqid.trans hid)

theorem Reread.step {F : FloatFormat} {s t : ControlPlane.State} {c : Command}
    (h : Reread F s.store) (hs : Reachable s) (hstep : Step s c t) (hreads : ReadsWith F c) :
    Reread F t.store := by
  have hwrites := step_writes hs hstep
  have hold {r₀ r : RunRow} (hr₀ : r₀ ∈ s.store.runs) (hmoved : RunEvolves r₀ r) {x : Uuid}
      (hx : r.requestId = some x) (howned : Owned t.store x) :
      PinnedAs F t.store r.id r.executionSnapshot := by
    rw [hmoved.columns] at hx ⊢
    obtain ⟨q, hq, rfl⟩ := (reachable_requested hs).runs r₀ hr₀ x hx
    exact (h r₀ hr₀ _ hx (Owned.before hs hstep hq howned)).kept (Writes.evolves hwrites)
  intro r hr x hx howned
  rcases hwrites.run_origin r hr with ⟨r₀, hr₀, hmoved⟩ | hnew
  · exact hold hr₀ hmoved hx howned
  rcases hnew x hx with hown | ⟨G, hactivating, hlaunched⟩
  · rcases not_owned_of_made hs hstep hown with hsame | hnot
    · exact hold (hsame ▸ hr) (.refl r) hx howned
    · exact absurd howned hnot
  · rw [← hreads.activating hactivating]
    exact hlaunched.pinned

theorem reading_reread {F : FloatFormat} {s : ControlPlane.State} (h : (reading F).Reachable s) :
    Reread F s.store := by
  refine h.invariant_of (P := fun s => Reread F s.store) (fun s hs => hs.of_restrict) ?_ ?_
  · rintro s ⟨catalog, schedules, _, _, rfl⟩ r hr
    exact absurd hr List.not_mem_nil
  · rintro s c t hs hreread ⟨⟨hc, hreads⟩, rfl⟩
    exact hreread.step hs ⟨hc, rfl⟩ hreads

/-- The Run has the column that was pinned for it. -/
def Carries (e : WorkflowNodeExecutionRow) (r : RunRow) : Prop :=
  ∃ v v', e.executionSnapshot = .execution v ∧ r.executionSnapshot = .execution v' ∧
    columnSnapshot v' = columnSnapshot v

theorem carries_iff {F : FloatFormat} {e : WorkflowNodeExecutionRow} {r : RunRow}
    {snapshot : ExecutionSnapshot} (h : e.executionSnapshot = .execution snapshot)
    (hr : r.executionSnapshot = rereadColumn F e.executionSnapshot) :
    Carries e r ↔ Reproducible F e.executionSnapshot := by
  rw [h] at hr
  rw [h, Reproducible, snapshotNumbers, ← columnSnapshot_decodeSnapshot]
  constructor
  · rintro ⟨v, v', hv, hv', hcolumn⟩
    cases h.symm.trans hv
    cases hr.symm.trans hv'
    exact hcolumn
  · intro hcolumn
    exact ⟨snapshot, _, h, hr, hcolumn⟩

/-- A child carries the column pinned for it exactly when each of its numbers is read back. -/
theorem child_carries {F : FloatFormat} {s t : ControlPlane.State} (hs : (reading F).Reachable s)
    (h : (reading F).Execution s t) {e : WorkflowNodeExecutionRow}
    (he : e ∈ s.store.workflowNodeExecutions) {r : RunRow} (hchild : Child t.store e.nodeRunId r)
    (htarget : r.targetId = e.targetId) : Carries e r ↔ Reproducible F e.executionSnapshot := by
  have hreachable : Reachable t := (hs.execution h).of_restrict
  have hphased := (reachable_orchestrated hreachable).phased
  obtain ⟨e', he', hmoved⟩ :=
    (execution_kept hs.of_restrict h.of_restrict).evolves.executions.of_mem he
  obtain ⟨snapshot, hsnapshot⟩ :=
    RunLifecycle.execution_of_queueId
      ((RunCoupling.reachable_invariant hs.of_restrict).consistent.executions e he)
  obtain ⟨hr, f, hf, hnode, hrun⟩ := hchild
  obtain ⟨n, hn, hid⟩ := hphased.charted.pinned f hf
  rcases hphased.phase n hn with hu | hl
  · rw [hu.executions f hf hid.symm] at hrun
    cases hrun
  obtain ⟨hlaunched, r', hr', hpinned⟩ := hl.executions f hf hid.symm
  rw [hlaunched] at hrun
  have hprospective : f.prospectiveRunId = r.id := Option.some.inj hrun
  obtain rfl := row_unique hphased.keys.runs hr' hr (hpinned.id.trans hprospective)
  -- the Target picks the execution of the node, the Run the execution it was pinned to
  have hsame : f = e' := row_unique hphased.keys.executions hf he' (by
    rw [hmoved.columns]
    exact Prod.ext hnode (hpinned.target.symm.trans htarget))
  obtain ⟨g, hg, hgid, hcolumn⟩ :=
    reading_reread (hs.execution h) r' hr n.id hpinned.request ⟨n, hn, rfl⟩
  rw [row_unique hphased.keys.prospective hg hf (hgid.trans hprospective.symm), hsame,
    hmoved.columns] at hcolumn
  exact carries_iff hsnapshot hcolumn

/-- From any reachable state on, whatever is edited, replayed or run concurrently. Only the
snapshot of a child can differ from the pinned one, by the numbers that are not read back. -/
theorem nodes_activated_once {s t : ControlPlane.State} (hs : Reachable s) (h : Execution s t)
    {n n' : WorkflowNodeRunRow} (hn : n ∈ s.store.workflowNodeRuns)
    (hn' : n' ∈ t.store.workflowNodeRuns) (hid : n'.id = n.id) :
    (∀ c u, Activation t c u n.id → ∀ v, Execution u v → ∀ c' w, ¬ Activation v c' w n.id) ∧
    (n.state.isTerminal = true → n' = n) ∧
    (NeverActivated t.store n' ∨ ActivatedOnce s.store.workflowNodeExecutions t.store n') ∧
    (n.state = .running → n'.state.isTerminal = true →
      ∀ r, Child t.store n.id r → r.status.isTerminal = true) ∧
    (∀ w ∈ t.store.workflowRuns, ∀ w' ∈ t.store.workflowRuns, w.requestId = w'.requestId →
      w = w') ∧
    ∀ F, (reading F).Reachable s → (reading F).Execution s t →
      ∀ e ∈ s.store.workflowNodeExecutions, e.nodeRunId = n.id →
      ∀ r, Child t.store n.id r → r.targetId = e.targetId →
        (Carries e r ↔ Reproducible F e.executionSnapshot) := by
  have hkept := execution_kept hs h
  have hphased := (reachable_orchestrated (hs.execution h)).phased
  have hmoved := hkept.node hn hn' hid
  refine ⟨fun c u hfirst v hlater c' w => activation_once hs h hfirst hlater, hmoved.settled, ?_,
    ?_, ?_, ?_⟩
  · rcases hphased.phase n' hn' with hu | hl
    · exact .inl (Unlaunched.neverActivated hu)
    · exact .inr (Launched.activatedOnce (reachable_keysUnique hs) hkept hn hid hl)
  · intro hrunning hterminal
    have hlaunched := Launched.of_running (reachable_orchestrated hs).phased hn hrunning
    have hstarted : n'.startedAt ≠ none := by
      rw [hmoved.started (by rw [hrunning]; decide)]
      exact hlaunched.started
    rcases hphased.phase n' hn' with hu | hl
    · exact absurd hu.unstarted hstarted
    · rw [← hid]
      rcases hl.state with hopen | ⟨hchildren, _⟩
      · rw [hopen] at hterminal
        cases hterminal
      · exact hchildren
  · intro w hw w' hw' hrequest
    exact row_unique hphased.keys.workflowRequests hw hw' hrequest
  · intro F hreading hexecution e he hnode r hchild htarget
    rw [← hnode] at hchild
    exact child_carries hreading hexecution he hchild htarget

theorem reading_reachable {F : FloatFormat} {events : List Command}
    (h : (reading F).Admits demoOrchestrator events) :
    (reading F).Reachable ((reading F).run demoOrchestrator events) :=
  ⟨demoOrchestrator, ⟨_, [], by decide, by decide, rfl⟩, .of_admits h⟩

/-- Node `a` of the launched Workflow has its one Run, with the snapshot pinned for it. -/
theorem nodes_activated_once_demo : ∃ n ∈ demoLaunched.store.workflowNodeRuns, n.name = "a" ∧
    ActivatedOnce demoLaunched.store.workflowNodeExecutions demoLaunched.store n ∧
    ∃ e ∈ demoLaunched.store.workflowNodeExecutions, ∃ r, Child demoLaunched.store n.id r ∧
      Carries e r := by
  have hreading : (reading demoFormat).Reachable demoLaunched :=
    by
    exact reading_reachable ⟨⟨trivial, rfl⟩, trivial⟩
  let n : WorkflowNodeRunRow := ⟨61, 60, 51, "a", 2, .running, some 0, none⟩
  have hn : n ∈ demoLaunched.store.workflowNodeRuns := by decide +kernel
  have honce := nodes_activated_once hreading.of_restrict (.refl _) hn hn rfl
  have hactivated : ActivatedOnce demoLaunched.store.workflowNodeExecutions
      demoLaunched.store n := by
    rcases honce.2.2.1 with hnever | hactivated
    · cases hnever.started
    · exact hactivated
  obtain ⟨e, he, hnode, hreproducible⟩ :
      ∃ e ∈ demoLaunched.store.workflowNodeExecutions, e.nodeRunId = n.id ∧
        Reproducible demoFormat e.executionSnapshot := by
    decide +kernel
  obtain ⟨r, hchild, hpinned, _⟩ := hactivated.launched e he hnode
  have hcarries := honce.2.2.2.2.2 demoFormat hreading (.refl _) e he hnode r hchild hpinned.target
  exact ⟨n, hn, rfl, hactivated, e, he, r, hchild, hcarries.mpr hreproducible⟩

/-- The launch gives a float that `serde_json` reads as its neighbour. -/
def demoToleranceStart : Command :=
  .startWorkflow lastLayer demoFresh
    { demoLaunch with inputs := toleranceInputs (.float ⟨10000000000000001, -40⟩) } 0

def demoMislaunched : ControlPlane.State := system.run demoOrchestrator [demoToleranceStart]

/-- The child is given another number than the one that was pinned. -/
theorem pinned_snapshot_not_carried :
    ¬ ∀ s : ControlPlane.State, Reachable s → ∀ e ∈ s.store.workflowNodeExecutions,
      ∀ r, Child s.store e.nodeRunId r → r.targetId = e.targetId → Carries e r := by
  intro h
  have hreading : (reading neighbours).Reachable demoMislaunched :=
    by
    exact reading_reachable ⟨⟨trivial, rfl⟩, trivial⟩
  obtain ⟨e, he, r, hr, hrun, htarget, hnumbers⟩ :
      ∃ e ∈ demoMislaunched.store.workflowNodeExecutions, ∃ r ∈ demoMislaunched.store.runs,
        e.runId = some r.id ∧ r.targetId = e.targetId ∧
          ¬ Reproducible neighbours e.executionSnapshot := by
    decide +kernel
  have hchild : Child demoMislaunched.store e.nodeRunId r := ⟨hr, e, he, rfl, hrun⟩
  have hcarries := h _ hreading.of_restrict e he r hchild htarget
  exact hnumbers ((child_carries hreading (.refl _) he hchild htarget).mp hcarries)

end WorkflowExecutions
