import Crono.WorkflowLaunches

/-! What holds of every invocation between any two transactions, for every interleaving of
launches, child completions, reconcile passes and cancellations. -/
namespace WorkflowProgress

open RunDomain WorkflowDomain SqlTable ControlPlaneSchema RunStore WorkflowStore
open ControlPlane StoreWrites RequestTable WorkflowGraph WorkflowNodes WorkflowPhases
open WorkflowEvents WorkflowMoves WorkflowPasses WorkflowLaunches
open RankedGraph

structure Orchestrated (s : ControlPlane.State) : Prop where
  phased : Phased s.store
  settled : Settled s.store []
  passes : ∀ p ∈ s.passes, PassHolds s.store p
  locked : (s.passes.map WorkflowPass.workflowRunId).Nodup

theorem initial_orchestrated {s : ControlPlane.State} (h : system.initial s) : Orchestrated s := by
  have hk := initial_keysUnique h
  obtain ⟨catalog, schedules, _, _, rfl⟩ := h
  have hnone {α : Type} {P : α → Prop} : ∀ x ∈ ([] : List α), P x :=
    fun x hx => absurd hx List.not_mem_nil
  exact ⟨⟨hk, ⟨hnone, hnone, hnone, hnone⟩, hnone, hnone⟩, ⟨hnone, hnone, hnone, hnone, hnone⟩,
    hnone, List.nodup_nil⟩

/-- The commands that neither launch, reconcile nor cancel a Workflow. -/
def InBackground : Command → Prop
  | .startWorkflow _ _ _ _ | .commitPass _ _ _ _ | .cancelWorkflow _ _ => False
  | _ => True

/-- A reserved id is fresh, so no node has it. -/
theorem reserve_background {s : ControlPlane.State} {c : Command} (hp : Phased s.store)
    (hrequested : Requested s.store) {requestId : Uuid}
    (hscope : scopeOf c = .reserve requestId)
    (hwrites : ExecutionWrites (.reserve requestId) s.store (transact s c)) :
    Background s.store (transact s c) := by
  have hrequest : (scopeOf c).request = some requestId := by
    rw [hscope]
    rfl
  rcases transact_reserves (s := s) hrequest with hsame | ⟨_, _, _, hreserves⟩
  · rw [hsame]
    exact .refl hp.keys
  · refine ExecutionWrites.background hwrites rfl rfl ?_ hp.keys hp.charted.pinned
    rintro x hx ⟨n, hn, hid⟩
    obtain ⟨q, hq, hqid⟩ := hrequested.nodes n hn
    exact hreserves.fresh q hq ((hqid.trans hid).trans (Option.some.inj hx).symm)

theorem transact_background {s : ControlPlane.State} {c : Command} (hp : Phased s.store)
    (hrequested : Requested s.store) (hc : ControlPlane.Enabled s c) (hback : InBackground c) :
    Background s.store (transact s c) := by
  have hplain {entry : Option AttemptStatus} {t : Store}
      (h : ExecutionWrites ⟨entry, none, none, false⟩ s.store t) : Background s.store t :=
    ExecutionWrites.background h rfl rfl nofun hp.keys hp.charted.pinned
  cases c with
  | createRuns => exact reserve_background hp hrequested rfl (createRuns_writes _ _ _ _ _ _ _ _)
  | insertRerun => exact reserve_background hp hrequested rfl (insertRerun_writes _ _ _ _ _ _ _)
  | commitSchedulePlan => exact hplain (commitSchedulePlan_writes _ _ _ _ _)
  | claimOutbox => exact hplain (claimOutbox_writes _ _ _ _ _ _)
  | markPublished => exact hplain (markPublished_writes _ _ _ _ _)
  | recordPublishFailure => exact hplain (recordPublishFailure_writes _ _ _ _ _)
  | claimAttempt => exact hplain (claimAttempt_writes _ _ _)
  | renewLease => exact hplain (renewLease_writes _ _ _)
  | recordAttemptOutput => exact hplain (recordAttemptOutput_writes _ _ _)
  | completeAttempt => exact hplain (completeAttempt_writes _ _ _ _)
  | reconcile => exact hplain (reconcile_writes _ _)
  | editCatalog catalog schedules =>
    have hwrite : Write .plain s.store (transact s (.editCatalog catalog schedules)) :=
      .editCatalog catalog schedules hc
    exact .of_runs (Write.steady hwrite rfl hp.keys) hp.keys rfl rfl rfl rfl rfl
  | beginPass => exact .refl hp.keys
  | observeNode => exact .refl hp.keys
  | abortPass => exact .refl hp.keys
  | startWorkflow => exact hback.elim
  | commitPass => exact hback.elim
  | cancelWorkflow => exact hback.elim

theorem passOn_mem {s : ControlPlane.State} {workflowRunId : Uuid} {p : WorkflowPass}
    (h : s.passOn workflowRunId = some p) : p ∈ s.passes ∧ p.workflowRunId = workflowRunId :=
  ⟨List.mem_of_find?_eq_some h, of_decide_eq_true (List.find?_some h :)⟩

theorem mem_completionEvents {s : Store} {workflowRunId : Uuid} {x : Uuid × Uuid} :
    x ∈ completionEvents s workflowRunId ↔ ∃ ev ∈ s.workflowCompletionEvents,
      ev.runId = x.1 ∧ ev.nodeRunId = x.2 ∧ ev.workflowRunId = workflowRunId := by
  simp only [completionEvents, List.mem_insertionSort, List.mem_map, List.mem_filter,
    decide_eq_true_eq]
  constructor
  · rintro ⟨ev, ⟨hev, hown⟩, rfl⟩
    exact ⟨ev, hev, rfl, rfl, hown⟩
  · rintro ⟨ev, hev, hrun, hnode, hown⟩
    exact ⟨ev, ⟨hev, hown⟩, Prod.ext hrun hnode⟩

theorem observed_now (s : Store) (ids : List Uuid) (nodeId : Uuid) :
    Observed s ids nodeId (childStatuses s nodeId) where
  terminal := by
    intro hterminal
    refine ⟨fun r hr => ?_, fun _ => .rfl⟩
    exact hterminal r.status (mem_childStatuses.mpr ⟨r, hr, rfl⟩)
  live := by
    intro x hx hlive
    obtain ⟨r, hr, rfl⟩ := mem_childStatuses.mp hx
    exact .inl ⟨r, hr, hlive⟩

/-- The passes after a command, when those it leaves alone still hold. -/
theorem Orchestrated.passes_after {s : ControlPlane.State} (h : Orchestrated s) {c : Command}
    (hc : ControlPlane.Enabled s c) (hback : InBackground c)
    (hkept : ∀ p ∈ s.passes, PassHolds (transact s c) p) :
    (∀ p ∈ passesAfter s c, PassHolds (transact s c) p) ∧
      ((passesAfter s c).map WorkflowPass.workflowRunId).Nodup := by
  cases c with
  | beginPass workflowRunId =>
    constructor
    · intro p hp
      rcases List.mem_cons.mp hp with rfl | hp
      · exact ⟨fun x hx => mem_completionEvents.mp hx, fun o ho => absurd ho List.not_mem_nil⟩
      · exact hkept p hp
    · refine List.nodup_cons.mpr ⟨fun hmem => ?_, h.locked⟩
      obtain ⟨p, hp, hid⟩ := List.mem_map.mp hmem
      exact List.find?_eq_none.mp hc.1 p hp (decide_eq_true hid)
  | observeNode workflowRunId nodeId =>
    obtain ⟨pass, hpass, haffected, _⟩ := hc
    obtain ⟨hmem, hid⟩ := passOn_mem hpass
    constructor
    · intro p hp
      obtain ⟨q, hq, rfl⟩ := List.mem_map.mp hp
      split
      · rename_i hown
        -- the lock of the invocation is held by one pass
        rw [row_unique h.locked hq hmem (hown.trans hid.symm)]
        refine ⟨(hkept pass hmem).events, fun o ho => ?_⟩
        rcases List.mem_cons.mp ho with rfl | ho
        · exact ⟨haffected, observed_now s.store _ nodeId⟩
        · exact (hkept pass hmem).observed o ho
      · exact hkept q hq
    · have hsame : (passesAfter s (.observeNode workflowRunId nodeId)).map
          WorkflowPass.workflowRunId = s.passes.map WorkflowPass.workflowRunId := by
        simp only [passesAfter, List.map_map]
        apply List.map_congr_left
        intro p _
        simp only [Function.comp_apply]
        split <;> rfl
      rw [hsame]
      exact h.locked
  | abortPass workflowRunId =>
    exact ⟨fun p hp => hkept p (List.mem_filter.mp hp).1,
      h.locked.sublist (List.filter_sublist.map _)⟩
  | startWorkflow => exact hback.elim
  | commitPass => exact hback.elim
  | cancelWorkflow => exact hback.elim
  | _ => exact ⟨hkept, h.locked⟩

theorem Orchestrated.step {s t : ControlPlane.State} {c : Command} (h : Orchestrated s)
    (hrequested : Requested s.store) (hstep : Step s c t) :
    Orchestrated t ∧ Kept s.store t.store := by
  obtain ⟨hc, rfl⟩ := hstep
  by_cases hback : InBackground c
  · have hb := transact_background h.phased hrequested hc hback
    obtain ⟨hpasses, hlocked⟩ := h.passes_after hc hback fun p hp =>
      (h.passes p hp).background h.phased hb
    exact ⟨⟨Phased.background h.phased hb, h.settled.background h.phased hb, hpasses, hlocked⟩,
      hb.steady.toKept⟩
  · have hsteady (hlaunch : (scopeOf c).launching = false) : Steady s.store (transact s c) :=
      Writes.steady (transact_writes h.phased.keys hc) hlaunch h.phased.keys
    cases c with
    | startWorkflow R fresh launch now =>
      obtain ⟨hp, hs, hkept, hpasses⟩ :=
        start_settled h.phased h.settled hrequested R fresh launch now rfl
      exact ⟨⟨hp, hs, fun p hp => hpasses p (h.passes p hp), h.locked⟩, hkept⟩
    | commitPass order dispatch now workflowRunId =>
      obtain ⟨pass, hpass, hread⟩ := hc
      obtain ⟨hmem, rfl⟩ := passOn_mem hpass
      have ht : transact s (.commitPass order dispatch now pass.workflowRunId) =
          (reconcileInvocation order dispatch pass.statuses now pass.workflowRunId pass.events
            s.store).2 := by
        simp only [transact, hpass]
      obtain ⟨hp, hs, hpasses⟩ := reconcileInvocation_settled h.phased h.settled
        (h.passes pass hmem) hread order dispatch now ht.symm
      refine ⟨⟨hp, hs, fun p hp => ?_, h.locked.sublist (List.filter_sublist.map _)⟩,
        (hsteady rfl).toKept⟩
      obtain ⟨hp, hother⟩ := List.mem_filter.mp hp
      exact hpasses p (h.passes p hp) (of_decide_eq_true hother)
    | cancelWorkflow now workflowRunId =>
      obtain ⟨hp, hs, hpasses⟩ := cancel_settled h.phased h.settled now workflowRunId rfl
      exact ⟨⟨hp, hs, fun p hp => hpasses p (h.passes p hp), h.locked⟩, (hsteady rfl).toKept⟩
    | _ => exact absurd trivial hback

theorem reachable_orchestrated {s : ControlPlane.State} (h : Reachable s) : Orchestrated s :=
  h.invariant_of (fun _ => reachable_requested) (fun _ => initial_orchestrated)
    fun _ _ _ hrequested hs hstep => (hs.step hrequested hstep).1

theorem step_kept {s t : ControlPlane.State} {c : Command} (hs : Reachable s) (h : Step s c t) :
    Kept s.store t.store :=
  ((reachable_orchestrated hs).step (reachable_requested hs) h).2

theorem execution_kept {s t : ControlPlane.State} (hs : Reachable s) (h : Execution s t) :
    Kept s.store t.store := by
  induction h with
  | refl => exact (Steady.refl (reachable_keysUnique hs)).toKept
  | tail hpre hstep ih => exact ih.trans (step_kept (hs.execution hpre) hstep)

theorem Mirrors.precedes {s : Store} (hk : KeysUnique s) {workflowRunId : Uuid}
    {definition : StoredWorkflow} (hm : Mirrors s workflowRunId definition)
    {e : WorkflowRunEdgeRow} (he : e ∈ s.workflowRunEdges) (hown : e.workflowRunId = workflowRunId)
    {m n : WorkflowNodeRunRow} (hmem : m ∈ s.workflowNodeRuns) (hfrom : m.id = e.fromNodeRunId)
    (hn : n ∈ s.workflowNodeRuns) (hto : n.id = e.toNodeRunId) :
    Precedes definition.edges m.name n.name := by
  obtain ⟨edge, hedge, hfor⟩ := hm.edges e he hown
  obtain ⟨m', hm', _, hid, hname⟩ := hfor.source
  obtain ⟨n', hn', _, hid', hname'⟩ := hfor.target
  refine ⟨edge, hedge, ?_, ?_⟩
  · rw [← hname, row_unique hk.nodeRuns hm' hmem (hid.trans hfrom.symm)]
  · rw [← hname', row_unique hk.nodeRuns hn' hn (hid'.trans hto.symm)]

theorem Waits.predecessor {s : Store} (hp : Phased s) {w : WorkflowRunRow}
    (hw : w ∈ s.workflowRuns) {n : WorkflowNodeRunRow} (hn : n ∈ s.workflowNodeRuns)
    (hown : n.workflowRunId = w.id) (h : Waits s n.id) :
    ∃ m ∈ s.workflowNodeRuns, m.workflowRunId = w.id ∧ m.state.isTerminal = false ∧
      Precedes w.definitionSnapshot.edges m.name n.name := by
  obtain ⟨_, c, x, ⟨e, he, hto, _, m, hm, hfrom, rfl⟩, hopen⟩ := h
  obtain ⟨⟨m', hm', hmid, hmown⟩, n', hn', hnid, hnown⟩ := hp.charted.edge_ends he
  have hedge : e.workflowRunId = w.id := by
    rw [← hnown, row_unique hp.keys.nodeRuns hn' hn (hnid.trans hto), hown]
  refine ⟨m, hm, ?_, hopen, ?_⟩
  · rw [row_unique hp.keys.nodeRuns hm hm' (hfrom.trans hmid.symm), hmown, hedge]
  · exact Mirrors.precedes hp.keys (hp.charted.mirrors w hw) he hedge hm hfrom hn hto.symm

theorem Settled.running_node {s : Store} (hp : Phased s) {ids : List Uuid} (hs : Settled s ids)
    {w : WorkflowRunRow} (hw : w ∈ s.workflowRuns) (hrunning : w.state = .running) :
    ∃ n ∈ s.workflowNodeRuns, n.workflowRunId = w.id ∧ n.state = .running := by
  obtain ⟨n, hn, hopen⟩ := (hs.running w hw).mp hrunning
  obtain ⟨hown, hopen⟩ := openNode_iff.mp hopen
  have hranked := (validate_ok (hp.charted.mirrors w hw).valid).ranked
  -- an open node all of whose predecessors are closed
  obtain ⟨name, ⟨n, hn, hown, rfl, hopen⟩, hmin⟩ := hranked.exists_minimal
    (P := fun name => ∃ n ∈ s.workflowNodeRuns, n.workflowRunId = w.id ∧ n.name = name ∧
      n.state.isTerminal = false) ⟨n, hn, hown, rfl, hopen⟩
  refine ⟨n, hn, hown, ?_⟩
  cases hstate : n.state with
  | running => rfl
  | pending =>
    obtain ⟨m, hm, hmown, hmopen, hprecedes⟩ :=
      Waits.predecessor hp hw hn hown (hs.decided n hn hstate)
    exact absurd ⟨m, hm, hmown, rfl, hmopen⟩ (hmin m.name hprecedes)
  | ready => exact absurd hstate (hp.not_ready hn)
  | _ =>
    rw [hstate] at hopen
    cases hopen

theorem finalState_terminal (s : Store) (w : WorkflowRunRow) : finalState s w = .succeeded ∨
    finalState s w = .failed ∨ finalState s w = .cancelled := by
  unfold finalState
  split
  · exact .inr (.inr rfl)
  · split
    · exact .inr (.inl rfl)
    · exact .inl rfl

theorem Settled.live_child {s : Store} (hp : Phased s) (hs : Settled s []) {w : WorkflowRunRow}
    (hevents : ∀ ev ∈ s.workflowCompletionEvents, ev.workflowRunId ≠ w.id)
    {n : WorkflowNodeRunRow} (hn : n ∈ s.workflowNodeRuns) (hown : n.workflowRunId = w.id)
    (hrunning : n.state = .running) : ∃ r, Child s n.id r ∧ r.status.isTerminal = false := by
  rcases hs.woken n hn hrunning with hlive | ⟨ev, hev, hnode, _⟩
  · exact hlive
  · obtain ⟨m, hm, hid, hmown⟩ := (hp.events ev hev).node
    refine absurd ?_ (hevents ev hev)
    rw [← hmown, row_unique hp.keys.nodeRuns hm hn (hid.trans hnode), hown]

/-- An invocation without events is finished, or waits for a live child Run. -/
theorem no_workflow_stuck {s : ControlPlane.State} (hs : Reachable s) {w : WorkflowRunRow}
    (hw : w ∈ s.store.workflowRuns)
    (hevents : ∀ ev ∈ s.store.workflowCompletionEvents, ev.workflowRunId ≠ w.id) :
    (w.state = .running →
      (∀ n ∈ s.store.workflowNodeRuns, n.workflowRunId = w.id → n.state = .running →
        ∃ r, Child s.store n.id r ∧ r.status.isTerminal = false) ∧
      (∀ n ∈ s.store.workflowNodeRuns, n.workflowRunId = w.id → n.state = .pending →
        dependencyDecision (incomingStates s.store n.id) = .waiting) ∧
      (w.cancellationRequested = true →
        ∀ n ∈ s.store.workflowNodeRuns, n.workflowRunId = w.id → n.state ≠ .pending) ∧
      ∃ n ∈ s.store.workflowNodeRuns, n.workflowRunId = w.id ∧ n.state = .running ∧
        ∃ r, Child s.store n.id r ∧ r.status.isTerminal = false) ∧
    ((∀ n ∈ s.store.workflowNodeRuns, n.workflowRunId = w.id →
        ∀ r, Child s.store n.id r → r.status.isTerminal = true) →
      w.state = .succeeded ∨ w.state = .failed ∨ w.state = .cancelled) := by
  obtain ⟨hp, hsettled, _, _⟩ := reachable_orchestrated hs
  have hlive {n : WorkflowNodeRunRow} (hn : n ∈ s.store.workflowNodeRuns)
      (hown : n.workflowRunId = w.id) (hrunning : n.state = .running) :=
    Settled.live_child hp hsettled hevents hn hown hrunning
  constructor
  · intro hrunning
    refine ⟨fun n => hlive, ?_, ?_, ?_⟩
    · intro n hn _ hpending
      exact decision_waiting.mpr (hsettled.decided n hn hpending)
    · intro hflag n hn hown hpending
      exact hsettled.uncancelled n hn hpending ⟨w, hw, hown.symm, hflag⟩
    · obtain ⟨n, hn, hown, hstate⟩ := Settled.running_node hp hsettled hw hrunning
      exact ⟨n, hn, hown, hstate, hlive hn hown hstate⟩
  · intro hterminal
    by_cases hrunning : w.state = .running
    · obtain ⟨n, hn, hown, hstate⟩ := Settled.running_node hp hsettled hw hrunning
      obtain ⟨r, hchild, hopen⟩ := hlive hn hown hstate
      rw [hterminal n hn hown r hchild] at hopen
      cases hopen
    · rw [hsettled.finished w hw hrunning]
      exact finalState_terminal s.store w

/-- Node `b` runs when node `a` succeeded. -/
def demoWorkflow : StoredWorkflow :=
  ⟨50, 3, "nightly", none, 1, [⟨51, "a", 2⟩, ⟨52, "b", 2⟩], [⟨"a", "b", .success⟩]⟩

def demoFresh : FreshLaunch :=
  ⟨60, fun name => if name = "a" then 61 else 62, fun name _ => if name = "a" then 63 else 64,
    fun node _ => if node = 61 then ⟨65, 66⟩ else ⟨67, 68⟩⟩

def demoLaunch : WorkflowLaunch := ⟨50, 1, 69, .target 4, .object [], [4]⟩

def demoStart : Command := .startWorkflow demoRendering demoFresh demoLaunch 0

def demoOrchestrator : ControlPlane.State :=
  ⟨emptyStore { demoCatalog with workflows := [demoWorkflow] } [], [], [], [], []⟩

theorem demoOrchestrator_reachable {events : List Command}
    (h : system.Admits demoOrchestrator events) : Reachable (system.run demoOrchestrator events) :=
  ⟨demoOrchestrator, ⟨_, [], by decide, by decide, rfl⟩, .of_admits h⟩

def demoLaunched : ControlPlane.State := system.run demoOrchestrator [demoStart]

def demoInvocation : WorkflowRunRow := workflowRunRow demoFresh demoWorkflow demoLaunch 0

/-- The launched Workflow waits for the one Run of node `a`. -/
theorem no_workflow_stuck_demo : ∃ w ∈ demoLaunched.store.workflowRuns, w.state = .running ∧
    ∃ n ∈ demoLaunched.store.workflowNodeRuns, n.workflowRunId = w.id ∧ n.state = .running ∧
      ∃ r, Child demoLaunched.store n.id r ∧ r.status.isTerminal = false := by
  have hw : demoInvocation ∈ demoLaunched.store.workflowRuns := by decide +kernel
  have hevents : demoLaunched.store.workflowCompletionEvents = [] := by decide +kernel
  have hreachable : Reachable demoLaunched := demoOrchestrator_reachable ⟨trivial, trivial⟩
  refine ⟨demoInvocation, hw, rfl, ?_⟩
  refine ((no_workflow_stuck hreachable hw ?_).1 rfl).2.2.2
  rw [hevents]
  exact fun ev hev => absurd hev List.not_mem_nil

end WorkflowProgress
