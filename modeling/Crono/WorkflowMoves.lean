import Crono.WorkflowEvents

/-! One node of an invocation changes its state: it is activated, skipped or completed. The loops
of the orchestrator are sequences of such moves, and keep that every node that might have become
decidable is still in their queue. -/
namespace WorkflowMoves

open RunDomain WorkflowDomain SqlTable ControlPlaneSchema RunStore WorkflowStore
open ControlPlane StoreWrites RequestTable WorkflowNodes WorkflowPhases WorkflowEvents

/-- The orchestrator replaces the row `n` of an open node by `n'`. -/
structure Moves (s t : Store) (n n' : WorkflowNodeRunRow) : Prop where
  steady : Steady s t
  mem : n ∈ s.workflowNodeRuns
  opened : n.state = .pending ∨ n.state = .running
  evolves : NodeRunEvolves n n'
  nodeRuns : ∀ m, m ∈ t.workflowNodeRuns ↔ m = n' ∨ m ∈ s.workflowNodeRuns ∧ m.id ≠ n.id
  executions : ∀ e ∈ t.workflowNodeExecutions, e.nodeRunId ≠ n.id → e ∈ s.workflowNodeExecutions
  runs : ∀ r ∈ s.runs, r ∈ t.runs
  launched : ∀ r ∈ t.runs, r ∈ s.runs ∨ r.requestId = some n.id
  workflowRuns : t.workflowRuns = s.workflowRuns
  events : t.workflowCompletionEvents = s.workflowCompletionEvents

theorem mem_update_node {rows : List WorkflowNodeRunRow}
    (hk : (rows.map WorkflowNodeRunRow.id).Nodup) {n : WorkflowNodeRunRow} (hn : n ∈ rows)
    {p : WorkflowNodeRunRow → Bool} (hp : ∀ m ∈ rows, p m = true ↔ m.id = n.id)
    (f : WorkflowNodeRunRow → WorkflowNodeRunRow) (m : WorkflowNodeRunRow) :
    m ∈ update p f rows ↔ m = f n ∨ m ∈ rows ∧ m.id ≠ n.id := by
  constructor
  · intro hm
    rcases update_cases hm with ⟨hmem, hnot⟩ | ⟨m₀, hmem, hsel, rfl⟩
    · refine .inr ⟨hmem, fun hid => ?_⟩
      rw [(hp m hmem).mpr hid] at hnot
      cases hnot
    · rw [row_unique hk hmem hn ((hp m₀ hmem).mp hsel)]
      exact .inl rfl
  · rintro (rfl | ⟨hmem, hid⟩)
    · exact mem_update.mpr ⟨n, hn, by simp [(hp n hn).mpr rfl]⟩
    · have hnot : p m = false := by
        rw [Bool.eq_false_iff]
        exact fun hsel => hid ((hp m hmem).mp hsel)
      exact mem_update.mpr ⟨m, hmem, by simp [hnot]⟩

theorem Moves.id_eq {s t : Store} {n n' : WorkflowNodeRunRow} (h : Moves s t n n') :
    n'.id = n.id ∧ n'.workflowRunId = n.workflowRunId := by
  rw [h.evolves.columns]
  exact ⟨rfl, rfl⟩

theorem Phased.moves {s t : Store} (hp : Phased s) {n n' : WorkflowNodeRunRow}
    (h : Moves s t n n') (hphase : Unlaunched t n' ∨ Launched t n') : Phased t where
  keys := h.steady.keys
  charted := hp.charted.steady h.steady
  phase := by
    intro m hm
    rcases (h.nodeRuns m).mp hm with rfl | ⟨hm, hne⟩
    · exact hphase
    · refine hp.unmoved h.steady.toKept hm ?_ ?_
      · intro e he hnode
        exact h.executions e he (hnode ▸ hne)
      · intro r hr hrequest
        rcases h.launched r hr with hr | hown
        · exact ⟨r, hr, .refl r⟩
        · rw [hrequest] at hown
          exact absurd (Option.some.inj hown) hne
  events := by
    intro ev hev
    rw [h.events] at hev
    exact (hp.events ev hev).kept h.steady.toKept

/-- Moving one node leaves another waiting, unless it ends and has an edge to it. -/
theorem Waits.moves {s t : Store} {n n' : WorkflowNodeRunRow} (h : Moves s t n n') {nodeId : Uuid}
    (hw : Waits s nodeId)
    (hout : n'.state.isTerminal = true → ∀ e ∈ s.workflowRunEdges, e.fromNodeRunId = n.id →
      e.toNodeRunId ≠ nodeId) : Waits t nodeId := by
  obtain ⟨hmatches, c, x, ⟨e, he, hto, hcondition, m, hm, hid, rfl⟩, hopen⟩ := hw
  constructor
  · rintro c x ⟨e, he, hto, hcondition, m, hm, hid, rfl⟩ hterminal
    rw [h.steady.sameEdges] at he
    rcases (h.nodeRuns m).mp hm with rfl | ⟨hm, _⟩
    · exact absurd hto (hout hterminal e he (hid.symm.trans h.id_eq.1))
    · exact hmatches c m.state ⟨e, he, hto, hcondition, m, hm, hid, rfl⟩ hterminal
  · rw [← h.steady.sameEdges] at he
    by_cases hn : m.id = n.id
    · refine ⟨c, n'.state,
        ⟨e, he, hto, hcondition, n', (h.nodeRuns n').mpr (.inl rfl), ?_, rfl⟩, ?_⟩
      · rw [h.id_eq.1, ← hn, hid]
      · rw [Bool.eq_false_iff]
        intro hterminal
        exact hout hterminal e (h.steady.sameEdges ▸ he) (hid.symm.trans hn) hto
    · exact ⟨c, m.state, ⟨e, he, hto, hcondition, m, (h.nodeRuns m).mpr (.inr ⟨hm, hn⟩), hid, rfl⟩,
        hopen⟩

theorem arrives_unmoved {s t : Store} (hc : Charted s) (hk : KeysUnique s) (hk' : KeysUnique t)
    {n : WorkflowNodeRunRow} (hn : n ∈ s.workflowNodeRuns)
    (hedges : ∀ e : WorkflowRunEdgeRow, e.toNodeRunId = n.id →
      (e ∈ t.workflowRunEdges ↔ e ∈ s.workflowRunEdges))
    (hsame : ∀ m : WorkflowNodeRunRow, m.workflowRunId = n.workflowRunId →
      (m ∈ t.workflowNodeRuns ↔ m ∈ s.workflowNodeRuns))
    {c : DependencyCondition} {x : WorkflowNodeState} :
    Arrives t n.id c x ↔ Arrives s n.id c x := by
  -- the source of an edge into the node is a node of the same invocation
  have hsource {e : WorkflowRunEdgeRow} (he : e ∈ s.workflowRunEdges) (hto : e.toNodeRunId = n.id) :
      ∃ m ∈ s.workflowNodeRuns, m.id = e.fromNodeRunId ∧ m.workflowRunId = n.workflowRunId := by
    obtain ⟨⟨m, hm, hid, hown⟩, k, hkmem, hkid, hkown⟩ := hc.edge_ends he
    refine ⟨m, hm, hid, hown.trans ?_⟩
    rw [← hkown, row_unique hk.nodeRuns hkmem hn (hkid.trans hto)]
  constructor
  · rintro ⟨e, he, hto, hcondition, m', hm', hid, rfl⟩
    have he := (hedges e hto).mp he
    obtain ⟨m, hm, hmid, hown⟩ := hsource he hto
    rw [row_unique hk'.nodeRuns hm' ((hsame m hown).mpr hm) (hid.trans hmid.symm)]
    exact ⟨e, he, hto, hcondition, m, hm, hmid, rfl⟩
  · rintro ⟨e, he, hto, hcondition, m', hm', hid, rfl⟩
    obtain ⟨m, hm, hmid, hown⟩ := hsource he hto
    rw [row_unique hk.nodeRuns hm' hm (hid.trans hmid.symm)]
    exact ⟨e, (hedges e hto).mpr he, hto, hcondition, m, (hsame m hown).mpr hm, hmid, rfl⟩

theorem Waits.unmoved {s t : Store} (hc : Charted s) (hk : KeysUnique s) (hk' : KeysUnique t)
    {n : WorkflowNodeRunRow} (hn : n ∈ s.workflowNodeRuns)
    (hedges : ∀ e : WorkflowRunEdgeRow, e.toNodeRunId = n.id →
      (e ∈ t.workflowRunEdges ↔ e ∈ s.workflowRunEdges))
    (hsame : ∀ m : WorkflowNodeRunRow, m.workflowRunId = n.workflowRunId →
      (m ∈ t.workflowNodeRuns ↔ m ∈ s.workflowNodeRuns)) (h : Waits s n.id) : Waits t n.id := by
  have harrives (c : DependencyCondition) (x : WorkflowNodeState) :=
    arrives_unmoved hc hk hk' hn hedges hsame (c := c) (x := x)
  unfold Waits at h ⊢
  simp only [harrives]
  exact h

structure Foreground (s t : Store) : Prop where
  steady : Steady s t
  runs : ∀ r ∈ s.runs, r ∈ t.runs
  workflowRuns : t.workflowRuns = s.workflowRuns
  events : t.workflowCompletionEvents = s.workflowCompletionEvents

theorem Foreground.refl {s : Store} (hk : KeysUnique s) : Foreground s s :=
  ⟨.refl hk, fun _ hr => hr, rfl, rfl⟩

theorem Foreground.trans {s t u : Store} (h : Foreground s t) (k : Foreground t u) :
    Foreground s u where
  steady := h.steady.trans k.steady
  runs := fun r hr => k.runs r (h.runs r hr)
  workflowRuns := k.workflowRuns.trans h.workflowRuns
  events := k.events.trans h.events

theorem Moves.foreground {s t : Store} {n n' : WorkflowNodeRunRow} (h : Moves s t n n') :
    Foreground s t :=
  ⟨h.steady, h.runs, h.workflowRuns, h.events⟩

theorem PassHolds.foreground {s t : Store} (hp : Phased s) (hf : Foreground s t)
    {p : WorkflowPass} (h : PassHolds s p) : PassHolds t p :=
  h.kept hp hf.steady.toKept (fun _ hev _ => hf.events.symm ▸ hev)
    fun _ hn _ hl hw => Woken.foreground hf.steady.toKept hf.runs hn hl
      (fun _ hev _ _ => hf.events.symm ▸ hev) hw

theorem finalState_congr {s t : Store} {w : WorkflowRunRow}
    (h : ∀ n, n.workflowRunId = w.id → (n ∈ t.workflowNodeRuns ↔ n ∈ s.workflowNodeRuns)) :
    finalState t w = finalState s w := by
  have hany : (t.workflowNodeRuns.any fun n => n.workflowRunId = w.id &&
      (n.state = .failed || n.state = .unknown || n.state = .cancelled)) =
      s.workflowNodeRuns.any fun n => n.workflowRunId = w.id &&
        (n.state = .failed || n.state = .unknown || n.state = .cancelled) := by
    rw [Bool.eq_iff_iff, List.any_eq_true, List.any_eq_true]
    constructor
    · rintro ⟨n, hn, hbad⟩
      have hown : n.workflowRunId = w.id := by
        rw [Bool.and_eq_true] at hbad
        exact of_decide_eq_true hbad.1
      exact ⟨n, (h n hown).mp hn, hbad⟩
    · rintro ⟨n, hn, hbad⟩
      have hown : n.workflowRunId = w.id := by
        rw [Bool.and_eq_true] at hbad
        exact of_decide_eq_true hbad.1
      exact ⟨n, (h n hown).mpr hn, hbad⟩
  unfold finalState
  rw [hany]

theorem openNode_iff {workflowRunId : Uuid} {n : WorkflowNodeRunRow} :
    openNode workflowRunId n = true ↔
      n.workflowRunId = workflowRunId ∧ n.state.isTerminal = false := by
  unfold openNode
  cases n.state <;> simp [WorkflowNodeState.isTerminal]

/-- Between two moves on an invocation: `rest` are the affected nodes still to be completed,
`queue` the downstream nodes still to be decided. -/
structure Underway (s : Store) (workflowRunId : Uuid) (ids rest queue : List Uuid) : Prop where
  phased : Phased s
  woken : ∀ n ∈ s.workflowNodeRuns, n.state = .running → Woken s ids n.id ∨ n.id ∈ rest
  decided : ∀ n ∈ s.workflowNodeRuns, n.state = .pending → Waits s n.id ∨ n.id ∈ queue
  uncancelled : ∀ n ∈ s.workflowNodeRuns, n.state = .pending →
    ¬ CancellationRequested s n.workflowRunId
  running : ∀ w ∈ s.workflowRuns, (∃ n ∈ s.workflowNodeRuns, openNode w.id n = true) →
    w.state = .running
  finished : ∀ w ∈ s.workflowRuns, w.state ≠ .running → w.state = finalState s w
  others : ∀ w ∈ s.workflowRuns, w.id ≠ workflowRunId → w.state = .running →
    ∃ n ∈ s.workflowNodeRuns, openNode w.id n = true
  queued : ∀ x ∈ queue, ∃ n ∈ s.workflowNodeRuns, n.id = x ∧ n.workflowRunId = workflowRunId

theorem Settled.underway {s : Store} (hp : Phased s) (hs : Settled s []) (workflowRunId : Uuid)
    {ids rest : List Uuid} (hrest : ∀ n ∈ s.workflowNodeRuns, n.state = .running →
      Woken s ids n.id ∨ n.id ∈ rest) : Underway s workflowRunId ids rest [] where
  phased := hp
  woken := hrest
  decided := fun n hn hpending => .inl (hs.decided n hn hpending)
  uncancelled := hs.uncancelled
  running := fun w hw => (hs.running w hw).mpr
  finished := hs.finished
  others := fun w hw _ => (hs.running w hw).mp
  queued := fun _ hx => absurd hx List.not_mem_nil

theorem Underway.owner_running {s : Store} {workflowRunId : Uuid} {ids rest queue : List Uuid}
    (h : Underway s workflowRunId ids rest queue) {n : WorkflowNodeRunRow}
    (hn : n ∈ s.workflowNodeRuns) (hopen : n.state = .pending ∨ n.state = .running)
    {w : WorkflowRunRow} (hw : w ∈ s.workflowRuns) (hown : n.workflowRunId = w.id) :
    w.state = .running := by
  refine h.running w hw ⟨n, hn, openNode_iff.mpr ⟨hown, ?_⟩⟩
  rcases hopen with hstate | hstate <;> rw [hstate] <;> rfl

theorem Underway.moves {s t : Store} {workflowRunId : Uuid}
    {ids rest queue rest' queue' : List Uuid}
    (hu : Underway s workflowRunId ids rest queue) {n n' : WorkflowNodeRunRow}
    (h : Moves s t n n') (hown : n.workflowRunId = workflowRunId)
    (hphase : Unlaunched t n' ∨ Launched t n') (hnext : n'.state ≠ .pending)
    (hwoken : n'.state = .running → Woken t ids n.id)
    (hrest : ∀ x ∈ rest, x ≠ n.id → x ∈ rest')
    (hqueue : ∀ x ∈ queue, x ≠ n.id → x ∈ queue')
    (hout : n'.state.isTerminal = true → ∀ e ∈ s.workflowRunEdges, e.fromNodeRunId = n.id →
      e.toNodeRunId ∈ queue')
    (hqueued : ∀ x ∈ queue', x ∈ queue ∨ ∃ e ∈ s.workflowRunEdges, e.fromNodeRunId = n.id ∧
      e.toNodeRunId = x) : Underway t workflowRunId ids rest' queue' where
  phased := Phased.moves hu.phased h hphase
  woken := by
    intro m hm hrunning
    rcases (h.nodeRuns m).mp hm with rfl | ⟨hm, hne⟩
    · rw [h.id_eq.1]
      exact .inl (hwoken hrunning)
    · refine (hu.woken m hm hrunning).imp ?_ fun hmem => hrest m.id hmem hne
      exact Woken.foreground h.steady.toKept h.runs hm (.of_running hu.phased hm hrunning)
        fun ev hev _ _ => h.events.symm ▸ hev
  decided := by
    intro m hm hpending
    rcases (h.nodeRuns m).mp hm with rfl | ⟨hm, hne⟩
    · exact absurd hpending hnext
    · by_cases hmem : m.id ∈ queue'
      · exact .inr hmem
      · rcases hu.decided m hm hpending with hwaits | hold
        · refine .inl (Waits.moves h hwaits ?_)
          intro hterminal e he hfrom hto
          exact hmem (hto ▸ hout hterminal e he hfrom)
        · exact absurd (hqueue m.id hold hne) hmem
  uncancelled := by
    intro m hm hpending
    unfold CancellationRequested
    rw [h.workflowRuns]
    rcases (h.nodeRuns m).mp hm with rfl | ⟨hm, _⟩
    · exact absurd hpending hnext
    · exact hu.uncancelled m hm hpending
  running := by
    rintro w hw ⟨m, hm, hopen⟩
    rw [h.workflowRuns] at hw
    rcases (h.nodeRuns m).mp hm with rfl | ⟨hm, _⟩
    · refine hu.owner_running h.mem h.opened hw ?_
      rw [← h.id_eq.2]
      exact (openNode_iff.mp hopen).1
    · exact hu.running w hw ⟨m, hm, hopen⟩
  finished := by
    intro w hw hstate
    rw [h.workflowRuns] at hw
    rw [hu.finished w hw hstate]
    symm
    apply finalState_congr
    -- a finished invocation is not the one whose node moved
    have hother : n.workflowRunId ≠ w.id := fun heq =>
      hstate (hu.owner_running h.mem h.opened hw heq)
    intro m hmown
    rw [h.nodeRuns]
    constructor
    · rintro (rfl | ⟨hm, _⟩)
      · exact absurd (h.id_eq.2.symm.trans hmown) hother
      · exact hm
    · intro hm
      refine .inr ⟨hm, fun hid => hother ?_⟩
      rw [← row_unique hu.phased.keys.nodeRuns hm h.mem hid]
      exact hmown
  others := by
    intro w hw hne hstate
    rw [h.workflowRuns] at hw
    obtain ⟨m, hm, hopen⟩ := hu.others w hw hne hstate
    refine ⟨m, (h.nodeRuns m).mpr (.inr ⟨hm, fun hid => hne ?_⟩), hopen⟩
    rw [← (openNode_iff.mp hopen).1, row_unique hu.phased.keys.nodeRuns hm h.mem hid, hown]
  queued := by
    intro x hx
    have hnode : ∃ m ∈ s.workflowNodeRuns, m.id = x ∧ m.workflowRunId = workflowRunId := by
      rcases hqueued x hx with hx | ⟨e, he, hfrom, rfl⟩
      · exact hu.queued x hx
      · obtain ⟨⟨k, hk, hkid, hkown⟩, m, hm, hmid, hmown⟩ := hu.phased.charted.edge_ends he
        refine ⟨m, hm, hmid, hmown.trans ?_⟩
        rw [← hkown, row_unique hu.phased.keys.nodeRuns hk h.mem (hkid.trans hfrom), hown]
    obtain ⟨m, hm, hid, hmown⟩ := hnode
    obtain ⟨m', hm', hmoved⟩ := h.steady.evolves.nodeRuns.of_mem hm
    refine ⟨m', hm', ?_, ?_⟩ <;> rw [hmoved.columns] <;> assumption

end WorkflowMoves
