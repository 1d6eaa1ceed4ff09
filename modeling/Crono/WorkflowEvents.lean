import Crono.WorkflowPhases
import Mathlib.Data.List.Dedup

/-! Completion events. The execution plane moves Runs without looking at Workflows; the trigger
on `runs` records an event for every child that becomes terminal, so that a running node always
has a live child or an event that has not been consumed. -/
namespace WorkflowEvents

open RunDomain WorkflowDomain SqlTable ControlPlaneSchema RunStore WorkflowStore
open ControlPlane StoreWrites RequestTable WorkflowNodes WorkflowPhases

theorem mem_enqueueEvent {events : List CompletionEventRow} {row ev : CompletionEventRow} :
    ev ∈ enqueueEvent events row → ev ∈ events ∨ ev = row := by
  unfold enqueueEvent
  split
  · exact .inl
  · intro h
    rcases List.mem_append.mp h with h | h
    · exact .inl h
    · exact .inr (List.mem_singleton.mp h)

theorem enqueueEvent_subset {events : List CompletionEventRow} {row ev : CompletionEventRow}
    (h : ev ∈ events) : ev ∈ enqueueEvent events row := by
  unfold enqueueEvent
  split
  · exact h
  · exact List.mem_append_left _ h

theorem enqueueEvent_fires (events : List CompletionEventRow) (row : CompletionEventRow) :
    ∃ ev ∈ enqueueEvent events row, ev.runId = row.runId := by
  unfold enqueueEvent
  split
  · rename_i h
    obtain ⟨ev, hev, hrun⟩ := List.any_eq_true.mp h
    exact ⟨ev, hev, of_decide_eq_true hrun⟩
  · exact ⟨row, List.mem_append_right _ (List.mem_singleton.mpr rfl), rfl⟩

section Fold

variable {α : Type} {step : List CompletionEventRow → α → List CompletionEventRow}

theorem foldl_events_subset (hstep : ∀ events a ev, ev ∈ events → ev ∈ step events a)
    (rows : List α) {events : List CompletionEventRow} {ev : CompletionEventRow}
    (h : ev ∈ events) : ev ∈ rows.foldl step events := by
  induction rows generalizing events with
  | nil => exact h
  | cons a rows ih => exact ih (hstep events a ev h)

theorem foldl_events_origin (New : α → CompletionEventRow → Prop)
    (hstep : ∀ events a ev, ev ∈ step events a → ev ∈ events ∨ New a ev) (rows : List α)
    {events : List CompletionEventRow} {ev : CompletionEventRow} (h : ev ∈ rows.foldl step events) :
    ev ∈ events ∨ ∃ a ∈ rows, New a ev := by
  induction rows generalizing events with
  | nil => exact .inl h
  | cons a rows ih =>
    rcases ih h with h | ⟨b, hb, hnew⟩
    · exact (hstep events a ev h).imp id fun hnew => ⟨a, List.mem_cons_self, hnew⟩
    · exact .inr ⟨b, List.mem_cons_of_mem a hb, hnew⟩

theorem foldl_events_fires (hsubset : ∀ events a ev, ev ∈ events → ev ∈ step events a)
    {a : α} {runId : Uuid} (hfires : ∀ events, ∃ ev ∈ step events a, ev.runId = runId)
    {rows : List α} (ha : a ∈ rows) (events : List CompletionEventRow) :
    ∃ ev ∈ rows.foldl step events, ev.runId = runId := by
  induction rows generalizing events with
  | nil => cases ha
  | cons b rows ih =>
    rcases List.mem_cons.mp ha with rfl | ha
    · obtain ⟨ev, hev, hrun⟩ := hfires events
      exact ⟨ev, foldl_events_subset hsubset rows hev, hrun⟩
    · exact ih ha (step events b)

end Fold

theorem mem_completionRows {executions : List WorkflowNodeExecutionRow}
    {nodes : List WorkflowNodeRunRow} {runId : Uuid} {now : Instant} {ev : CompletionEventRow} :
    ev ∈ completionRows executions nodes runId now ↔
      ∃ e ∈ executions, e.runId = some runId ∧ ∃ n ∈ nodes, n.id = e.nodeRunId ∧
        ev = ⟨runId, n.workflowRunId, n.id, now⟩ := by
  simp only [completionRows, List.mem_flatMap]
  constructor
  · rintro ⟨e, he, hev⟩
    split at hev
    · rename_i hrun
      obtain ⟨n, hn, rfl⟩ := List.mem_map.mp hev
      obtain ⟨hn, hid⟩ := List.mem_filter.mp hn
      exact ⟨e, he, hrun, n, hn, of_decide_eq_true hid, rfl⟩
    · cases hev
  · rintro ⟨e, he, hrun, n, hn, hid, rfl⟩
    refine ⟨e, he, ?_⟩
    rw [if_pos hrun]
    exact List.mem_map.mpr ⟨n, List.mem_filter.mpr ⟨hn, decide_eq_true hid⟩, rfl⟩

theorem enqueueWorkflowCompletion_subset {executions : List WorkflowNodeExecutionRow}
    {nodes : List WorkflowNodeRunRow} {now : Instant} {events : List CompletionEventRow}
    {old new : RunRow} {ev : CompletionEventRow} (h : ev ∈ events) :
    ev ∈ enqueueWorkflowCompletion executions nodes now events old new := by
  unfold enqueueWorkflowCompletion
  split
  · exact foldl_events_subset (fun _ _ _ => enqueueEvent_subset) _ h
  · exact h

theorem updateRuns_events_subset {p : RunRow → Bool} {f : RunRow → RunRow} {now : Instant}
    {s : Store} {ev : CompletionEventRow} (h : ev ∈ s.workflowCompletionEvents) :
    ev ∈ (updateRuns p f now s).workflowCompletionEvents :=
  foldl_events_subset (fun _ _ _ => enqueueWorkflowCompletion_subset) _ h

theorem updateRuns_events_origin {p : RunRow → Bool} {f : RunRow → RunRow} {now : Instant}
    {s : Store} {ev : CompletionEventRow}
    (h : ev ∈ (updateRuns p f now s).workflowCompletionEvents) :
    ev ∈ s.workflowCompletionEvents ∨ ∃ r ∈ s.runs, p r = true ∧
      (f r).status.isTerminal = true ∧
      ev ∈ completionRows s.workflowNodeExecutions s.workflowNodeRuns (f r).id now := by
  have hstep (events : List CompletionEventRow) (r : RunRow) (ev : CompletionEventRow)
      (hev : ev ∈ enqueueWorkflowCompletion s.workflowNodeExecutions s.workflowNodeRuns now
        events r (f r)) : ev ∈ events ∨ (f r).status.isTerminal = true ∧
          ev ∈ completionRows s.workflowNodeExecutions s.workflowNodeRuns (f r).id now := by
    unfold enqueueWorkflowCompletion at hev
    split at hev
    · rename_i hterminal
      rcases foldl_events_origin (fun row ev => ev = row) (fun _ _ _ => mem_enqueueEvent) _ hev with
        hold | ⟨row, hrow, rfl⟩
      · exact .inl hold
      · exact .inr ⟨hterminal.2, hrow⟩
    · exact .inl hev
  rcases foldl_events_origin _ hstep _ h with hold | ⟨r, hr, hterminal, hrow⟩
  · exact .inl hold
  · obtain ⟨hr, hp⟩ := List.mem_filter.mp hr
    exact .inr ⟨r, hr, hp, hterminal, hrow⟩

theorem updateRuns_fires {p : RunRow → Bool} {f : RunRow → RunRow} {now : Instant} {s : Store}
    {r : RunRow} (hr : r ∈ s.runs) (hp : p r = true) (hid : (f r).id = r.id)
    (hlive : r.status.isTerminal = false) (hterminal : (f r).status.isTerminal = true)
    {e : WorkflowNodeExecutionRow} (he : e ∈ s.workflowNodeExecutions) (hrun : e.runId = some r.id)
    {n : WorkflowNodeRunRow} (hn : n ∈ s.workflowNodeRuns) (hnode : n.id = e.nodeRunId) :
    ∃ ev ∈ (updateRuns p f now s).workflowCompletionEvents, ev.runId = r.id := by
  refine foldl_events_fires (fun _ _ _ => enqueueWorkflowCompletion_subset) ?_
    (List.mem_filter.mpr ⟨hr, hp⟩) _
  intro events
  have hchanged : (f r).status ≠ r.status := by
    intro hsame
    rw [hsame, hlive] at hterminal
    cases hterminal
  unfold enqueueWorkflowCompletion
  rw [if_pos ⟨hchanged, hterminal⟩]
  have hrow : (⟨r.id, n.workflowRunId, n.id, now⟩ : CompletionEventRow) ∈
      completionRows s.workflowNodeExecutions s.workflowNodeRuns (f r).id now := by
    rw [hid]
    exact mem_completionRows.mpr ⟨e, he, hrun, n, hn, hnode, rfl⟩
  exact foldl_events_fires (fun _ _ _ => enqueueEvent_subset)
    (fun events => enqueueEvent_fires events _) hrow events

/-- What the orchestrator sees of a transaction that is not its own. -/
structure Background (s t : Store) : Prop where
  steady : Steady s t
  workflowRuns : t.workflowRuns = s.workflowRuns
  nodeRuns : t.workflowNodeRuns = s.workflowNodeRuns
  executions : t.workflowNodeExecutions = s.workflowNodeExecutions
  runs : ∀ r ∈ t.runs, (∃ r₀ ∈ s.runs, RunEvolves r₀ r) ∨
    ∀ n ∈ s.workflowNodeRuns, r.requestId ≠ some n.id
  events : ∀ ev ∈ s.workflowCompletionEvents, ev ∈ t.workflowCompletionEvents
  recorded : ∀ ev ∈ t.workflowCompletionEvents, ev ∈ s.workflowCompletionEvents ∨ EventOf t ev
  fired : ∀ r ∈ s.runs, r.status.isTerminal = false → ∀ r' ∈ t.runs, r'.id = r.id →
    r'.status.isTerminal = true → ∀ e ∈ s.workflowNodeExecutions, e.runId = some r.id →
      ∃ ev ∈ t.workflowCompletionEvents, ev.runId = r.id

theorem Background.of_runs {s t : Store} (hsteady : Steady s t) (hk : KeysUnique s)
    (hworkflowRuns : t.workflowRuns = s.workflowRuns)
    (hnodeRuns : t.workflowNodeRuns = s.workflowNodeRuns)
    (hexecutions : t.workflowNodeExecutions = s.workflowNodeExecutions) (hruns : t.runs = s.runs)
    (hevents : t.workflowCompletionEvents = s.workflowCompletionEvents) : Background s t where
  steady := hsteady
  workflowRuns := hworkflowRuns
  nodeRuns := hnodeRuns
  executions := hexecutions
  runs := fun r hr => .inl ⟨r, hruns ▸ hr, .refl r⟩
  events := fun _ hev => hevents.symm ▸ hev
  recorded := fun _ hev => .inl (hevents ▸ hev)
  fired := by
    intro r hr hlive r' hr' hid hterminal
    rw [hruns] at hr'
    rw [row_unique hk.runs hr' hr hid, hlive] at hterminal
    cases hterminal

theorem Background.refl {s : Store} (hk : KeysUnique s) : Background s s :=
  .of_runs (.refl hk) hk rfl rfl rfl rfl rfl

theorem Background.trans {s t u : Store} (h : Background s t) (k : Background t u) :
    Background s u where
  steady := h.steady.trans k.steady
  workflowRuns := k.workflowRuns.trans h.workflowRuns
  nodeRuns := k.nodeRuns.trans h.nodeRuns
  executions := k.executions.trans h.executions
  runs := by
    intro r hr
    rcases k.runs r hr with ⟨r₁, hr₁, hmoved⟩ | hother
    · rcases h.runs r₁ hr₁ with ⟨r₀, hr₀, hmoved₀⟩ | hother
      · exact .inl ⟨r₀, hr₀, hmoved₀.trans hmoved⟩
      · refine .inr fun n hn => ?_
        rw [hmoved.columns]
        exact hother n hn
    · exact .inr fun n hn => hother n (h.nodeRuns.symm ▸ hn)
  events := fun ev hev => k.events ev (h.events ev hev)
  recorded := by
    intro ev hev
    rcases k.recorded ev hev with hev | hnew
    · exact (h.recorded ev hev).imp id (EventOf.kept k.steady.toKept)
    · exact .inr hnew
  fired := by
    intro r hr hlive r' hr' hid hterminal e he hrun
    obtain ⟨r₁, hr₁, hmoved⟩ := h.steady.evolves.runs.of_mem hr
    have hid₁ : r₁.id = r.id := by rw [hmoved.columns]
    cases hlive₁ : r₁.status.isTerminal with
    | true =>
      obtain ⟨ev, hev, hevrun⟩ := h.fired r hr hlive r₁ hr₁ hid₁ hlive₁ e he hrun
      exact ⟨ev, k.events ev hev, hevrun⟩
    | false =>
      obtain ⟨ev, hev, hevrun⟩ := k.fired r₁ hr₁ hlive₁ r' hr' (hid.trans hid₁.symm) hterminal e
        (h.executions.symm ▸ he) (hid₁.symm ▸ hrun)
      exact ⟨ev, hev, hevrun.trans hid₁⟩

theorem ExecutionWrite.background {scope : Scope} {s t : Store} (h : ExecutionWrite scope s t)
    (hlaunch : scope.launching = false) (hactivate : scope.activating = none)
    (hrequest : ∀ x, scope.request = some x → ¬ Owned s x) (hk : KeysUnique s)
    (hpinned : ∀ e ∈ s.workflowNodeExecutions, ∃ n ∈ s.workflowNodeRuns, n.id = e.nodeRunId) :
    Background s t := by
  have hsteady := Write.steady (.execution h) hlaunch hk
  cases h with
  | insertRunRequest _ h =>
    obtain ⟨_, rfl⟩ := insertRunRequest_ok h
    exact .of_runs hsteady hk rfl rfl rfl rfl rfl
  | insertRun hrow h =>
    obtain ⟨hfresh, _, _, _, _, rfl⟩ := insertRun_ok h
    refine ⟨hsteady, rfl, rfl, rfl, ?_, fun _ hev => hev, fun _ hev => .inl hev, ?_⟩
    · intro r hr
      rcases List.mem_append.mp hr with hr | hr
      · exact .inl ⟨r, hr, .refl r⟩
      · refine .inr fun n hn hx => ?_
        rw [List.mem_singleton.mp hr] at hx
        rcases hrow n.id hx with hown | ⟨_, hactivating, _⟩
        · exact hrequest n.id hown ⟨n, hn, rfl⟩
        · rw [hactivate] at hactivating
          cases hactivating
    · intro r hr hlive r' hr' hid hterminal
      rcases List.mem_append.mp hr' with hr' | hr'
      · rw [row_unique hk.runs hr' hr hid, hlive] at hterminal
        cases hterminal
      · rw [List.mem_singleton.mp hr'] at hid
        exact absurd hid.symm (hfresh r hr)
  | insertAttempt _ h =>
    obtain ⟨_, rfl⟩ := insertAttempt_ok h
    exact .of_runs hsteady hk rfl rfl rfl rfl rfl
  | insertOutbox h =>
    obtain ⟨_, rfl⟩ := insertOutbox_ok h
    exact .of_runs hsteady hk rfl rfl rfl rfl rfl
  | updateAttempts p f h _ => exact .of_runs hsteady hk rfl rfl rfl rfl rfl
  | updateOutbox p f h => exact .of_runs hsteady hk rfl rfl rfl rfl rfl
  | record => exact .of_runs hsteady hk rfl rfl rfl rfl rfl
  | updateRuns p f now h =>
    have hid (r : RunRow) (hr : r ∈ s.runs) (hp : p r = true) : (f r).id = r.id := by
      rw [(h r hr hp).columns]
    refine ⟨hsteady, rfl, rfl, rfl, ?_, fun _ => updateRuns_events_subset, ?_, ?_⟩
    · intro r hr
      rcases update_cases hr with ⟨hmem, _⟩ | ⟨r₀, hmem, hp, rfl⟩
      · exact .inl ⟨r, hmem, .refl r⟩
      · exact .inl ⟨r₀, hmem, h r₀ hmem hp⟩
    · intro ev hev
      rcases updateRuns_events_origin hev with hold | ⟨r, hr, hp, hterminal, hrow⟩
      · exact .inl hold
      · obtain ⟨e, he, hrun, n, hn, hnode, rfl⟩ := mem_completionRows.mp hrow
        have hmem : f r ∈ (updateRuns p f now s).runs := mem_update.mpr ⟨r, hr, by simp [hp]⟩
        exact .inr ⟨⟨e, he, hrun, hnode.symm⟩, ⟨n, hn, rfl, rfl⟩, f r, hmem, rfl, hterminal⟩
    · intro r hr hlive r' hr' hsame hterminal e he hrun
      obtain ⟨n, hn, hnode⟩ := hpinned e he
      rcases update_cases hr' with ⟨hmem, _⟩ | ⟨r₀, hmem, hp, rfl⟩
      · rw [row_unique hk.runs hmem hr hsame, hlive] at hterminal
        cases hterminal
      · have hr₀ := row_unique hk.runs hmem hr ((hid r₀ hmem hp).symm.trans hsame)
        subst hr₀
        exact updateRuns_fires hr hp hsame hlive hterminal he hrun hn hnode

theorem ExecutionWrites.background {scope : Scope} {s t : Store} (h : ExecutionWrites scope s t)
    (hlaunch : scope.launching = false) (hactivate : scope.activating = none)
    (hrequest : ∀ x, scope.request = some x → ¬ Owned s x) (hk : KeysUnique s)
    (hpinned : ∀ e ∈ s.workflowNodeExecutions, ∃ n ∈ s.workflowNodeRuns, n.id = e.nodeRunId) :
    Background s t := by
  induction h with
  | refl => exact .refl hk
  | tail _ hw ih =>
    refine ih.trans (ExecutionWrite.background hw hlaunch hactivate ?_ ih.steady.keys ?_)
    · intro x hx
      rw [Owned, ih.nodeRuns]
      exact hrequest x hx
    · rw [ih.nodeRuns, ih.executions]
      exact hpinned

theorem Background.run_origin {s t : Store} (h : Background s t) {n : WorkflowNodeRunRow}
    (hn : n ∈ s.workflowNodeRuns) {r : RunRow} (hr : r ∈ t.runs)
    (hrequest : r.requestId = some n.id) : ∃ r₀ ∈ s.runs, RunEvolves r₀ r :=
  (h.runs r hr).resolve_right fun hother => hother n hn hrequest

theorem Phased.background {s t : Store} (hp : Phased s) (h : Background s t) : Phased t where
  keys := h.steady.keys
  charted := hp.charted.steady h.steady
  phase := by
    intro n hn
    rw [h.nodeRuns] at hn
    exact hp.unmoved h.steady.toKept hn (fun e he _ => h.executions ▸ he)
      fun r hr hrequest => h.run_origin hn hr hrequest
  events := by
    intro ev hev
    rcases h.recorded ev hev with hold | hnew
    · exact (hp.events ev hold).kept h.steady.toKept
    · exact hnew

/-- A node with a live child, or with an event beside the given ones. -/
def Woken (s : Store) (ids : List Uuid) (nodeId : Uuid) : Prop :=
  (∃ r, Child s nodeId r ∧ r.status.isTerminal = false) ∨
    ∃ ev ∈ s.workflowCompletionEvents, ev.nodeRunId = nodeId ∧ ev.runId ∉ ids

def Ended (s : Store) (ids : List Uuid) : Prop :=
  ∀ x ∈ ids, ∃ r ∈ s.runs, r.id = x ∧ r.status.isTerminal = true

theorem Woken.background {s t : Store} (hp : Phased s) (h : Background s t) {ids : List Uuid}
    (hids : Ended s ids) {n : WorkflowNodeRunRow} (hn : n ∈ s.workflowNodeRuns)
    (hl : Launched s n) (hw : Woken s ids n.id) : Woken t ids n.id := by
  rcases hw with ⟨r, hchild, hlive⟩ | ⟨ev, hev, hnode, hnot⟩
  · obtain ⟨r', hr', hmoved⟩ := h.steady.evolves.runs.of_mem hchild.1
    have hchild' : Child t n.id r' :=
      (hl.child_kept hn h.steady.toKept).mpr ⟨hr', r, hchild, hmoved⟩
    have hid : r'.id = r.id := by rw [hmoved.columns]
    cases hterminal : r'.status.isTerminal with
    | false => exact .inl ⟨r', hchild', hterminal⟩
    | true =>
      obtain ⟨hr, e, he, _, hrun⟩ := hchild
      obtain ⟨ev, hev, hevrun⟩ := h.fired r hr hlive r' hr' hid hterminal e he hrun
      refine .inr ⟨ev, hev, ?_, ?_⟩
      · exact (Phased.background hp h).event_node hev hchild' (hevrun.trans hid.symm)
      · intro hmem
        obtain ⟨r₀, hr₀, hid₀, hterminal₀⟩ := hids _ hmem
        rw [row_unique hp.keys.runs hr₀ hr (hid₀.trans hevrun), hlive] at hterminal₀
        cases hterminal₀
  · exact .inr ⟨ev, h.events ev hev, hnode, hnot⟩

theorem Woken.foreground {s t : Store} (hk : Kept s t) (hruns : ∀ r ∈ s.runs, r ∈ t.runs)
    {ids : List Uuid} {n : WorkflowNodeRunRow} (hn : n ∈ s.workflowNodeRuns) (hl : Launched s n)
    (hevents : ∀ ev ∈ s.workflowCompletionEvents, ev.nodeRunId = n.id → ev.runId ∉ ids →
      ev ∈ t.workflowCompletionEvents)
    (hw : Woken s ids n.id) : Woken t ids n.id := by
  rcases hw with ⟨r, hchild, hlive⟩ | ⟨ev, hev, hnode, hnot⟩
  · have hchild' : Child t n.id r :=
      (hl.child_kept hn hk).mpr ⟨hruns r hchild.1, r, hchild, .refl r⟩
    exact .inl ⟨r, hchild', hlive⟩
  · exact .inr ⟨ev, hevents ev hev hnode hnot, hnode, hnot⟩

/-- The state `finish` gives an invocation. -/
def finalState (s : Store) (w : WorkflowRunRow) : WorkflowState :=
  if w.cancellationRequested then .cancelled
  else if s.workflowNodeRuns.any fun n => n.workflowRunId = w.id &&
    (n.state = .failed || n.state = .unknown || n.state = .cancelled) then .failed
  else .succeeded

/-- Nothing is left to decide, and beside the given events nothing is left to notice. -/
structure Settled (s : Store) (ids : List Uuid) : Prop where
  woken : ∀ n ∈ s.workflowNodeRuns, n.state = .running → Woken s ids n.id
  decided : ∀ n ∈ s.workflowNodeRuns, n.state = .pending → Waits s n.id
  uncancelled : ∀ n ∈ s.workflowNodeRuns, n.state = .pending →
    ¬ CancellationRequested s n.workflowRunId
  running : ∀ w ∈ s.workflowRuns,
    w.state = .running ↔ ∃ n ∈ s.workflowNodeRuns, openNode w.id n = true
  finished : ∀ w ∈ s.workflowRuns, w.state ≠ .running → w.state = finalState s w

/-- What a pass read: the statuses are the node's own, or the node will be looked at again. -/
structure Observed (s : Store) (ids : List Uuid) (nodeId : Uuid) (statuses : List RunStatus) :
    Prop where
  terminal : (∀ x ∈ statuses, x.isTerminal = true) →
    (∀ r, Child s nodeId r → r.status.isTerminal = true) ∧
      ∀ x, x ∈ statuses ↔ x ∈ childStatuses s nodeId
  live : ∀ x ∈ statuses, x.isTerminal = false → Woken s ids nodeId

/-- The events a pass read are still there, and what it read of the nodes still counts. -/
structure PassHolds (s : Store) (p : WorkflowPass) : Prop where
  events : ∀ x ∈ p.events, ∃ ev ∈ s.workflowCompletionEvents,
    ev.runId = x.1 ∧ ev.nodeRunId = x.2 ∧ ev.workflowRunId = p.workflowRunId
  observed : ∀ o ∈ p.observed, o.1 ∈ affectedNodes p.events ∧
    Observed s (p.events.map Prod.fst) o.1 o.2

theorem arrives_congr {s t : Store} (hedges : t.workflowRunEdges = s.workflowRunEdges)
    (hnodes : t.workflowNodeRuns = s.workflowNodeRuns) : Arrives t = Arrives s := by
  unfold Arrives
  rw [hedges, hnodes]

theorem Settled.background {s t : Store} (hp : Phased s) (hs : Settled s []) (h : Background s t) :
    Settled t [] where
  woken := by
    intro n hn hrunning
    rw [h.nodeRuns] at hn
    exact (hs.woken n hn hrunning).background hp h (fun _ hx => absurd hx List.not_mem_nil) hn
      (.of_running hp hn hrunning)
  decided := by
    intro n hn hpending
    rw [h.nodeRuns] at hn
    have hwaits := hs.decided n hn hpending
    unfold Waits at hwaits ⊢
    rw [arrives_congr h.steady.sameEdges h.nodeRuns]
    exact hwaits
  uncancelled := by
    intro n hn
    rw [h.nodeRuns] at hn
    unfold CancellationRequested
    rw [h.workflowRuns]
    exact hs.uncancelled n hn
  running := by
    rw [h.workflowRuns, h.nodeRuns]
    exact hs.running
  finished := by
    intro w hw hstate
    rw [h.workflowRuns] at hw
    rw [hs.finished w hw hstate]
    unfold finalState
    rw [h.nodeRuns]

theorem mem_affectedNodes {events : List (Uuid × Uuid)} {nodeId : Uuid} :
    nodeId ∈ affectedNodes events ↔ ∃ x ∈ events, x.2 = nodeId := by
  rw [affectedNodes, List.mem_dedup, List.mem_map]

theorem PassHolds.ended {s : Store} (hp : Phased s) {p : WorkflowPass} (h : PassHolds s p) :
    Ended s (p.events.map Prod.fst) := by
  intro x hx
  obtain ⟨y, hy, rfl⟩ := List.mem_map.mp hx
  obtain ⟨ev, hev, hrun, _, _⟩ := h.events y hy
  obtain ⟨r, hr, hid, hterminal⟩ := (hp.events ev hev).run
  exact ⟨r, hr, hid.trans hrun, hterminal⟩

theorem PassHolds.affected {s : Store} (hp : Phased s) {p : WorkflowPass} (h : PassHolds s p)
    {nodeId : Uuid} (hnode : nodeId ∈ affectedNodes p.events) :
    ∃ n ∈ s.workflowNodeRuns, n.id = nodeId ∧ n.workflowRunId = p.workflowRunId ∧
      Launched s n := by
  obtain ⟨x, hx, rfl⟩ := mem_affectedNodes.mp hnode
  obtain ⟨ev, hev, _, hnode, hown⟩ := h.events x hx
  obtain ⟨n, hn, hid, hown'⟩ := (hp.events ev hev).node
  obtain ⟨e, he, hrun, henode⟩ := (hp.events ev hev).execution
  refine ⟨n, hn, hid.trans hnode, hown'.trans hown, ?_⟩
  rcases hp.phase n hn with hu | hl
  · rw [hu.executions e he (henode.trans hid.symm)] at hrun
    cases hrun
  · exact hl

/-- What a pass read survives a transaction that keeps its events and wakes its nodes. -/
theorem PassHolds.kept {s t : Store} (hp : Phased s) (hk : Kept s t) {p : WorkflowPass}
    (h : PassHolds s p)
    (hevents : ∀ ev ∈ s.workflowCompletionEvents, ev.workflowRunId = p.workflowRunId →
      ev ∈ t.workflowCompletionEvents)
    (hwoken : ∀ n ∈ s.workflowNodeRuns, n.workflowRunId = p.workflowRunId → Launched s n →
      Woken s (p.events.map Prod.fst) n.id → Woken t (p.events.map Prod.fst) n.id) :
    PassHolds t p where
  events := by
    intro x hx
    obtain ⟨ev, hev, hrun, hnode, hown⟩ := h.events x hx
    exact ⟨ev, hevents ev hev hown, hrun, hnode, hown⟩
  observed := by
    intro o ho
    obtain ⟨haffected, hobserved⟩ := h.observed o ho
    obtain ⟨n, hn, hid, hown, hl⟩ := h.affected hp haffected
    refine ⟨haffected, ?_, ?_⟩
    · intro hterminal
      obtain ⟨hchildren, hsame⟩ := hobserved.terminal hterminal
      rw [← hid] at hchildren hsame ⊢
      obtain ⟨hchildren', hsame'⟩ := hl.settled_kept hn hk hchildren
      exact ⟨hchildren', fun x => (hsame x).trans (hsame' x).symm⟩
    · intro x hx hlive
      have hw := hobserved.live x hx hlive
      rw [← hid] at hw ⊢
      exact hwoken n hn hown hl hw

theorem PassHolds.background {s t : Store} (hp : Phased s) (hb : Background s t)
    {p : WorkflowPass} (h : PassHolds s p) : PassHolds t p :=
  h.kept hp hb.steady.toKept (fun ev hev _ => hb.events ev hev)
    fun _ hn _ hl hw => hw.background hp hb (h.ended hp) hn hl

end WorkflowEvents
