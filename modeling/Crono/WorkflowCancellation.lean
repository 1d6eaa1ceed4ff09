import Crono.WorkflowExecutions

/-! Cancellation of an invocation. Once the flag is set no node is pending, so nothing can be
activated any more; what runs ends by its own children, and the last end is the end of the
invocation. -/
namespace WorkflowCancellation

open RunDomain WorkflowDomain SqlTable ControlPlaneSchema RunStore WorkflowStore
open ControlPlane StoreWrites WorkflowNodes WorkflowPhases WorkflowEvents WorkflowMoves
open WorkflowPasses WorkflowProgress WorkflowExecutions

/-- What a committed cancellation means for an invocation from then on. -/
structure Cancelled (s : ControlPlane.State) (workflowRunId : Uuid) : Prop where
  outcome : ∃ w ∈ s.store.workflowRuns, w.id = workflowRunId ∧
    (w.state = .running ∨ w.state = .cancelled) ∧
    (w.state = .cancelled ↔ ∀ n ∈ s.store.workflowNodeRuns, n.workflowRunId = workflowRunId →
      n.state ≠ .running)
  quiet : ∀ c t, Step s c t → ∀ n' ∈ t.store.workflowNodeRuns, n'.workflowRunId = workflowRunId →
    n'.state = .running → ∃ n ∈ s.store.workflowNodeRuns, n.id = n'.id ∧ n.state = .running
  childless : ∀ c t, Step s c t → ∀ n ∈ t.store.workflowNodeRuns,
    n.workflowRunId = workflowRunId → ∀ r', Child t.store n.id r' →
      ∃ r, Child s.store n.id r ∧ RunEvolves r r'
  draining : ∀ n ∈ s.store.workflowNodeRuns, n.workflowRunId = workflowRunId →
    n.state = .running → ∀ t, Execution s t → ∀ n' ∈ t.store.workflowNodeRuns, n'.id = n.id →
      n'.state = .running ∨ (∀ r, Child t.store n.id r → r.status.isTerminal = true) ∧
        n'.state = completionState (childStatuses t.store n.id)
  idempotent : ∀ now, (cancel now workflowRunId s.store).2 = s.store

theorem find_workflowRun {s : Store} (hk : KeysUnique s) {w : WorkflowRunRow}
    (hw : w ∈ s.workflowRuns) : s.workflowRuns.find? (fun v => v.id = w.id) = some w :=
  find?_key hk.workflowRuns hw

theorem finish_of_open {s : Store} (hs : Settled s []) (now : Instant) (workflowRunId : Uuid) :
    finish now workflowRunId s = s := by
  have hnone : ∀ w ∈ s.workflowRuns,
      (decide (w.id = workflowRunId) && decide (w.state = .running) &&
      !s.workflowNodeRuns.any (openNode w.id)) = false := by
    intro w hw
    rw [Bool.eq_false_iff]
    intro hsel
    simp only [Bool.and_eq_true, decide_eq_true_eq, Bool.not_eq_true', ← Bool.not_eq_true,
      List.any_eq_true] at hsel
    exact hsel.2 ((hs.running w hw).mp hsel.1.2)
  unfold finish updateWorkflowRuns
  rw [update_of_none hnone]

theorem cancelPending_of_flag {s : Store} (hp : Phased s) (hs : Settled s []) {w : WorkflowRunRow}
    (hw : w ∈ s.workflowRuns) (hflag : w.cancellationRequested = true) (now : Instant) :
    cancelPending now w.id s = s := by
  have hruns : update (fun v => decide (v.id = w.id))
      (fun v => { v with cancellationRequested := true }) s.workflowRuns = s.workflowRuns := by
    have hnone : update (fun _ => false) id s.workflowRuns = s.workflowRuns :=
      update_of_none fun _ _ => rfl
    conv_rhs => rw [← hnone]
    apply update_congr
    intro v hv
    by_cases hid : v.id = w.id
    · rw [row_unique hp.keys.workflowRuns hv hw hid]
      simp [← hflag]
    · simp [hid]
  have hnodes : ∀ n ∈ s.workflowNodeRuns, (decide (n.workflowRunId = w.id) &&
      (decide (n.state = .pending) || decide (n.state = .ready))) = false := by
    intro n hn
    rw [Bool.eq_false_iff]
    intro hsel
    simp only [Bool.and_eq_true, Bool.or_eq_true, decide_eq_true_eq] at hsel
    rcases hsel.2 with hpending | hready
    · exact hs.uncancelled n hn hpending ⟨w, hw, hsel.1.symm, hflag⟩
    · exact hp.not_ready hn hready
  unfold cancelPending updateNodeRuns updateWorkflowRuns
  rw [hruns]
  simp only
  rw [update_of_none hnodes]

theorem cancel_of_finished {s : Store} (hk : KeysUnique s) {w : WorkflowRunRow}
    (hw : w ∈ s.workflowRuns) (hstate : w.state ≠ .running) (now : Instant) :
    (cancel now w.id s).2 = s := by
  rcases cancel_cases now w.id s with hsame | ⟨v, hv, hid, hrunning, _⟩
  · exact hsame
  · rw [row_unique hk.workflowRuns hv hw hid] at hrunning
    exact absurd hrunning hstate

theorem cancel_of_flag {s : Store} (hp : Phased s) (hs : Settled s []) {w : WorkflowRunRow}
    (hw : w ∈ s.workflowRuns) (hflag : w.cancellationRequested = true) (now : Instant) :
    (cancel now w.id s).2 = s := by
  rcases cancel_cases now w.id s with hsame | ⟨_, _, _, _, hcancel⟩
  · exact hsame
  · rw [hcancel, cancelPending_of_flag hp hs hw hflag now, finish_of_open hs]

theorem cancel_committed {s : Store} (hk : KeysUnique s) {w : WorkflowRunRow}
    (hw : w ∈ s.workflowRuns) (hrunning : w.state = .running) {now : Instant}
    {record : WorkflowRunRecord} (h : (cancel now w.id s).1 = .ok record) :
    CancellationRequested (cancel now w.id s).2 w.id := by
  have hflag : { w with cancellationRequested := true } ∈ (cancelPending now w.id s).workflowRuns :=
    mem_update.mpr ⟨w, hw, by simp⟩
  have hstore : (cancel now w.id s).2 = finish now w.id (cancelPending now w.id s) := by
    unfold cancel at h ⊢
    rw [find_workflowRun hk hw] at h ⊢
    simp only [hrunning, if_true] at h ⊢
    cases hinvocation : invocation (finish now w.id (cancelPending now w.id s)) w.id with
    | error e =>
      rw [hinvocation] at h
      cases h
    | ok record => rfl
  rw [hstore]
  have hfinish : Writes .plain (cancelPending now w.id s)
      (finish now w.id (cancelPending now w.id s)) := .single (finish_write now w.id _)
  obtain ⟨w', hw', hmoved⟩ := hfinish.evolves.workflowRuns.of_mem hflag
  exact ⟨w', hw', by rw [hmoved.columns], hmoved.cancelled rfl⟩

theorem node_earlier {s t : Store} (hs : Phased s) (ht : Phased t) (hkept : Kept s t)
    {w : WorkflowRunRow} (hw : w ∈ s.workflowRuns) {n' : WorkflowNodeRunRow}
    (hn' : n' ∈ t.workflowNodeRuns) (hown : n'.workflowRunId = w.id) :
    ∃ n ∈ s.workflowNodeRuns, n.id = n'.id ∧ n.workflowRunId = w.id ∧ NodeRunEvolves n n' := by
  obtain ⟨w', hw', hmoved⟩ := hkept.evolves.workflowRuns.of_mem hw
  have hid : w'.id = w.id := by rw [hmoved.columns]
  have hsnapshot : w'.definitionSnapshot = w.definitionSnapshot := by rw [hmoved.columns]
  have hmirrors := ht.charted.mirrors w' hw'
  rw [hid, hsnapshot] at hmirrors
  have hend : Endpoint t w.id n'.id n'.name := ⟨n', hn', hown, rfl, rfl⟩
  obtain ⟨node, hnode, hname⟩ := hmirrors.named _ _ hend
  obtain ⟨id, n, hn, hnown, hnid, hnname⟩ := (hs.charted.mirrors w hw).nodes node hnode
  obtain ⟨m, hm, hmmoved⟩ := hkept.evolves.nodeRuns.of_mem hn
  have hend' : Endpoint t w.id id n'.name := by
    refine ⟨m, hm, ?_, ?_, ?_⟩ <;> rw [hmmoved.columns]
    · exact hnown
    · exact hnid
    · exact hnname.trans hname
  have hsame := hmirrors.unique _ _ _ hend' hend
  exact ⟨n, hn, hnid.trans hsame, hnown, hkept.node hn hn' (hnid.trans hsame).symm⟩

theorem cancelled_of_flag {s : ControlPlane.State} (hs : Reachable s) {workflowRunId : Uuid}
    (h : CancellationRequested s.store workflowRunId) : Cancelled s workflowRunId := by
  obtain ⟨w, hw, rfl, hflag⟩ := h
  obtain ⟨hp, hsettled, _, _⟩ := reachable_orchestrated hs
  have hnot {n : WorkflowNodeRunRow} (hn : n ∈ s.store.workflowNodeRuns)
      (hown : n.workflowRunId = w.id) : n.state ≠ .pending := fun hpending =>
    hsettled.uncancelled n hn hpending ⟨w, hw, hown.symm, hflag⟩
  have hfinal (hstate : w.state ≠ .running) : w.state = .cancelled := by
    rw [hsettled.finished w hw hstate, finalState, hflag]
    rfl
  constructor
  · refine ⟨w, hw, rfl, ?_, ?_, ?_⟩
    · by_cases hstate : w.state = .running
      · exact .inl hstate
      · exact .inr (hfinal hstate)
    · intro hstate n hn hown hrunning
      have hopen : w.state = .running := (hsettled.running w hw).mpr
        ⟨n, hn, openNode_iff.mpr ⟨hown, by rw [hrunning]; rfl⟩⟩
      rw [hstate] at hopen
      cases hopen
    · intro hquiet
      apply hfinal
      intro hstate
      obtain ⟨n, hn, hown, hrunning⟩ := Settled.running_node hp hsettled hw hstate
      exact hquiet n hn hown hrunning
  · intro c t hstep n' hn' hown hrunning
    have ht := reachable_orchestrated (hs.tail hstep)
    obtain ⟨n, hn, hid, hnown, hmoved⟩ :=
      node_earlier hp ht.phased (step_kept hs hstep) hw hn' hown
    refine ⟨n, hn, hid, ?_⟩
    cases hstate : n.state with
    | running => rfl
    | pending => exact absurd hstate (hnot hn hnown)
    | ready => exact absurd hstate (hp.not_ready hn)
    | _ =>
      rw [hmoved.settled (by rw [hstate]; rfl), hstate] at hrunning
      cases hrunning
  · intro c t hstep n' hn' hown r' hchild
    have ht := (reachable_orchestrated (hs.tail hstep)).phased
    have hkept := step_kept hs hstep
    obtain ⟨n, hn, hid, hnown, hmoved⟩ := node_earlier hp ht hkept hw hn' hown
    rw [← hid] at hchild ⊢
    rcases hp.phase n hn with hu | hl
    · -- an unlaunched node of this invocation has ended, and stays as it is
      have hterminal : n.state.isTerminal = true := by
        rcases hu.state with hstate | ⟨hstate, _⟩ | ⟨hstate, _⟩
        · exact absurd hstate (hnot hn hnown)
        · rw [hstate]
          rfl
        · rw [hstate]
          rfl
      have hsame := hmoved.settled hterminal
      rcases ht.phase n' hn' with hu' | hl'
      · have hnone := (Unlaunched.neverActivated hu').children r'
        rw [hsame] at hnone
        exact absurd hchild hnone
      · have hstarted := hl'.started
        rw [hsame] at hstarted
        exact absurd hu.unstarted hstarted
    · exact ((hl.child_kept hn hkept).mp hchild).2
  · intro n hn _ hrunning t hexecution n' hn' hid
    have hl := Launched.of_running hp hn hrunning
    have hmoved := (execution_kept hs hexecution).node hn hn' hid
    rcases (reachable_orchestrated (hs.execution hexecution)).phased.phase n' hn' with hu' | hl'
    · have hstarted := hu'.unstarted
      rw [hmoved.started (by rw [hrunning]; decide)] at hstarted
      exact absurd hstarted hl.started
    · rw [← hid]
      exact hl'.state
  · intro now
    exact cancel_of_flag hp hsettled hw hflag now

/-- Cancelling a finished invocation changes nothing; after cancelling a running one nothing of
it is started, in every state of every later execution. -/
theorem cancellation_safe_and_final {s : ControlPlane.State} (hs : Reachable s)
    {w : WorkflowRunRow} (hw : w ∈ s.store.workflowRuns) (now : Instant) :
    (w.state ≠ .running → (cancel now w.id s.store).2 = s.store) ∧
    (w.state = .running → (∃ record, (cancel now w.id s.store).1 = .ok record) →
      ∀ t, Step s (.cancelWorkflow now w.id) t → ∀ u, Execution t u → Cancelled u w.id) := by
  have hk := reachable_keysUnique hs
  constructor
  · intro hstate
    exact cancel_of_finished hk hw hstate now
  · rintro hrunning ⟨record, hrecord⟩ t hstep u hexecution
    have ht := hs.tail hstep
    refine cancelled_of_flag (ht.execution hexecution) ?_
    refine CancellationRequested.kept (execution_kept ht hexecution) ?_
    obtain ⟨_, rfl⟩ := hstep
    exact cancel_committed hk hw hrunning hrecord

/-- The launched Workflow is cancelled while node `a` runs, and waits for it. -/
theorem cancellation_safe_and_final_demo :
    Cancelled (system.run demoOrchestrator [demoStart, .cancelWorkflow 1 60]) 60 := by
  have hreachable : Reachable demoLaunched := demoOrchestrator_reachable ⟨trivial, trivial⟩
  have hw : demoInvocation ∈ demoLaunched.store.workflowRuns := by decide +kernel
  have hok : (cancel 1 60 demoLaunched.store).1.toOption.isSome = true := by decide +kernel
  have hcommit : ∃ record, (cancel 1 60 demoLaunched.store).1 = .ok record := by
    cases h : (cancel 1 60 demoLaunched.store).1 with
    | error e =>
      rw [h] at hok
      cases hok
    | ok record => exact ⟨record, rfl⟩
  exact (cancellation_safe_and_final hreachable hw 1).2 rfl hcommit _ ⟨rfl, rfl⟩ _ (.refl _)

end WorkflowCancellation
