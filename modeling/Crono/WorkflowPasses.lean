import Crono.WorkflowActivation

/-! The transaction of a reconcile pass: it completes the affected nodes, propagates their
outcomes through the queue, finishes the invocation and deletes the events it read. The
transaction of a cancellation ends in the same `finish`. -/
namespace WorkflowPasses

open RunDomain WorkflowDomain SqlTable ControlPlaneSchema RunStore WorkflowStore
open ControlPlane StoreWrites RequestTable WorkflowNodes WorkflowPhases WorkflowEvents
open WorkflowMoves WorkflowActivation
open FallibleLists

def skippedNode (now : Instant) (n : WorkflowNodeRunRow) : WorkflowNodeRunRow :=
  { n with state := .skipped, finishedAt := some now }

theorem moves_of_update {s : Store} (hk : KeysUnique s) {p : WorkflowNodeRunRow → Bool}
    {f : WorkflowNodeRunRow → WorkflowNodeRunRow} (hsteady : Steady s (updateNodeRuns p f s))
    {n : WorkflowNodeRunRow} (hn : n ∈ s.workflowNodeRuns)
    (hopen : n.state = .pending ∨ n.state = .running) (hid : (f n).id = n.id)
    (hp : ∀ m ∈ s.workflowNodeRuns, p m = true ↔ m.id = n.id) :
    Moves s (updateNodeRuns p f s) n (f n) where
  steady := hsteady
  mem := hn
  opened := hopen
  evolves := by
    have hn' : f n ∈ (updateNodeRuns p f s).workflowNodeRuns :=
      (mem_update_node hk.nodeRuns hn hp f (f n)).mpr (.inl rfl)
    exact hsteady.toKept.node hn hn' hid
  nodeRuns := mem_update_node hk.nodeRuns hn hp f
  executions := fun _ he _ => he
  runs := fun _ hr => hr
  launched := fun _ hr => .inl hr
  workflowRuns := rfl
  events := rfl

theorem mem_outgoing {s : Store} {id x : Uuid} :
    x ∈ outgoing s id ↔ ∃ e ∈ s.workflowRunEdges, e.fromNodeRunId = id ∧ e.toNodeRunId = x := by
  simp [outgoing, List.mem_insertionSort, and_assoc]

theorem mem_arranged_outgoing (order : QueueOrder) {s : Store} {id x : Uuid} :
    x ∈ order.arrange (outgoing s id) ↔
      ∃ e ∈ s.workflowRunEdges, e.fromNodeRunId = id ∧ e.toNodeRunId = x := by
  rw [(order.perm _).mem_iff, mem_outgoing]

theorem Underway.ends {s t : Store} {workflowRunId : Uuid} {ids rest queue rest' queue' : List Uuid}
    (hu : Underway s workflowRunId ids rest queue) (order : QueueOrder) {n n' : WorkflowNodeRunRow}
    (h : Moves s t n n') (hown : n.workflowRunId = workflowRunId)
    (hphase : Unlaunched t n' ∨ Launched t n') (hterminal : n'.state.isTerminal = true)
    (hrest : ∀ x ∈ rest, x ≠ n.id → x ∈ rest') (hqueue : ∀ x ∈ queue, x ≠ n.id → x ∈ queue')
    (hqueued : ∀ x ∈ queue', x ∈ queue) :
    Underway t workflowRunId ids rest' (queue' ++ order.arrange (outgoing t n.id)) := by
  have hopen : n'.state ≠ .pending ∧ n'.state ≠ .running := by
    constructor <;> intro hstate <;> rw [hstate] at hterminal <;> cases hterminal
  have hedges {x : Uuid} : x ∈ order.arrange (outgoing t n.id) ↔
      ∃ e ∈ s.workflowRunEdges, e.fromNodeRunId = n.id ∧ e.toNodeRunId = x := by
    rw [mem_arranged_outgoing, h.steady.sameEdges]
  refine hu.moves h hown hphase hopen.1 (fun hrunning => absurd hrunning hopen.2) hrest ?_ ?_ ?_
  · intro x hx hne
    exact List.mem_append_left _ (hqueue x hx hne)
  · intro _ e he hfrom
    exact List.mem_append_right _ (hedges.mpr ⟨e, he, hfrom, rfl⟩)
  · intro x hx
    rcases List.mem_append.mp hx with hx | hx
    · exact .inl (hqueued x hx)
    · exact .inr (hedges.mp hx)

theorem Underway.skip {workflowRunId : Uuid} {ids rest queue : List Uuid} {s : Store}
    {n : WorkflowNodeRunRow} (hu : Underway s workflowRunId ids rest (n.id :: queue))
    (hn : n ∈ s.workflowNodeRuns) (hpending : n.state = .pending) (hskips : Skips s n.id)
    (order : QueueOrder) (now : Instant) :
    Underway (skipNode now n.id s) workflowRunId ids rest
      (queue ++ order.arrange (outgoing (skipNode now n.id s) n.id)) ∧
      Foreground s (skipNode now n.id s) := by
  have hk := hu.phased.keys
  have hwrite : Write .plain s (skipNode now n.id s) := skipNode_write now n.id s
  have hsteady : Steady s (skipNode now n.id s) := Write.steady hwrite rfl hk
  have hmoves : Moves s (skipNode now n.id s) n (skippedNode now n) := by
    refine moves_of_update hk hsteady hn (.inl hpending) rfl fun m hm => ?_
    constructor
    · intro hsel
      rw [Bool.and_eq_true] at hsel
      exact of_decide_eq_true hsel.1
    · intro hid
      rw [row_unique hk.nodeRuns hm hn hid]
      simp [hpending]
  obtain ⟨m, hm, hid, hown⟩ := hu.queued n.id List.mem_cons_self
  rw [row_unique hk.nodeRuns hm hn hid] at hown
  refine ⟨Underway.ends hu order hmoves hown ?_ rfl (fun _ hx _ => hx)
    (fun x hx hne => (List.mem_cons.mp hx).resolve_left hne)
    (fun x hx => List.mem_cons_of_mem _ hx), hmoves.foreground⟩
  have hunlaunched := Unlaunched.of_pending hu.phased hn hpending
  refine .inl (hunlaunched.kept hmoves.evolves rfl (fun e he _ => he)
    (fun r hr _ => ⟨r, hr, .refl r⟩) (.inr (.inl ⟨rfl, ?_⟩)))
  exact Skips.kept hsteady.toKept hskips

theorem Observed.woken {s : Store} (hp : Phased s) {ids : List Uuid} {n : WorkflowNodeRunRow}
    (hn : n ∈ s.workflowNodeRuns) (hl : Launched s n) {statuses : List RunStatus}
    (h : Observed s ids n.id statuses)
    (hopen : (statuses.isEmpty || statuses.any fun status => !status.isTerminal) = true) :
    Woken s ids n.id := by
  rw [Bool.or_eq_true, List.isEmpty_iff, List.any_eq_true] at hopen
  rcases hopen with rfl | ⟨x, hx, hlive⟩
  · -- a launched node has a child, so an empty answer is impossible
    obtain ⟨_, hsame⟩ := h.terminal fun x hx => absurd hx List.not_mem_nil
    obtain ⟨e, he, hnode⟩ := hp.charted.nonempty hn
    obtain ⟨hrun, r, hr, hpinned⟩ := hl.executions e he hnode
    have hchild : Child s n.id r := ⟨hr, e, he, hnode, by rw [hrun, hpinned.id]⟩
    have hmem := (hsame r.status).mpr (mem_childStatuses.mpr ⟨r, hchild, rfl⟩)
    exact absurd hmem List.not_mem_nil
  · exact h.live x hx (by simpa using hlive)

theorem Underway.drop {workflowRunId : Uuid} {ids rest queue : List Uuid} {s : Store}
    {n : WorkflowNodeRunRow} (hu : Underway s workflowRunId ids (n.id :: rest) queue)
    (hn : n ∈ s.workflowNodeRuns) (hdone : n.state = .running → Woken s ids n.id) :
    Underway s workflowRunId ids rest queue := by
  refine { hu with woken := ?_ }
  intro m hm hrunning
  rcases hu.woken m hm hrunning with hwoken | hmem
  · exact .inl hwoken
  · rcases List.mem_cons.mp hmem with heq | hmem
    · rw [row_unique hu.phased.keys.nodeRuns hm hn heq] at hrunning ⊢
      exact .inl (hdone hrunning)
    · exact .inr hmem

/-- The update of `completeNode` selects the node while it is running, and no other. -/
theorem completed_row {s : Store} (hk : KeysUnique s) {n : WorkflowNodeRunRow}
    (hn : n ∈ s.workflowNodeRuns) {m : WorkflowNodeRunRow} (hm : m ∈ s.workflowNodeRuns) :
    (decide (m.id = n.id) && decide (m.state = .running)) = true ↔ m = n ∧ n.state = .running := by
  rw [Bool.and_eq_true, decide_eq_true_eq, decide_eq_true_eq]
  constructor
  · rintro ⟨hid, hrunning⟩
    have hsame : m = n := row_unique hk.nodeRuns hm hn hid
    exact ⟨hsame, hsame ▸ hrunning⟩
  · rintro ⟨rfl, hrunning⟩
    exact ⟨rfl, hrunning⟩

theorem completeNode_idle {s : Store} (hk : KeysUnique s) {n : WorkflowNodeRunRow}
    (hn : n ∈ s.workflowNodeRuns) (hidle : n.state ≠ .running) (statuses : List RunStatus)
    (now : Instant) : completeNode statuses now n.id s = (false, s) := by
  have hnone (m : WorkflowNodeRunRow) (hm : m ∈ s.workflowNodeRuns) :
      (decide (m.id = n.id) && decide (m.state = .running)) = false := by
    rw [Bool.eq_false_iff]
    exact fun hsel => hidle ((completed_row hk hn hm).mp hsel).2
  have hcount : s.workflowNodeRuns.countP (fun m => decide (m.id = n.id) &&
      decide (m.state = .running)) = 0 := by
    rw [List.countP_eq_zero]
    intro m hm
    rw [hnone m hm]
    exact Bool.false_ne_true
  have hsame : updateNodeRuns (fun m => decide (m.id = n.id) && decide (m.state = .running))
      (fun m => { m with state := completionState statuses, finishedAt := some now }) s = s := by
    unfold updateNodeRuns
    rw [update_of_none hnone]
  unfold completeNode
  split
  · rfl
  · dsimp only
    rw [hcount, hsame]
    rfl

theorem Underway.complete {workflowRunId : Uuid} {ids rest queue : List Uuid} {s : Store}
    {n : WorkflowNodeRunRow} (hu : Underway s workflowRunId ids (n.id :: rest) queue)
    (hn : n ∈ s.workflowNodeRuns) (hown : n.workflowRunId = workflowRunId) (hl : Launched s n)
    {statuses : List RunStatus} (hobserved : Observed s ids n.id statuses) (order : QueueOrder)
    (now : Instant) {done : Bool} {t : Store}
    (hstep : completeNode statuses now n.id s = (done, t)) :
    Underway t workflowRunId ids rest
      (if done then queue ++ order.arrange (outgoing t n.id) else queue) ∧ Foreground s t := by
  have hk := hu.phased.keys
  have hsteady : Steady s t := by
    have hwrites : Writes .plain s (completeNode statuses now n.id s).2 :=
      completeNode_writes statuses now n.id s
    rw [hstep] at hwrites
    exact Writes.steady hwrites rfl hk
  by_cases hrunning : n.state = .running
  · unfold completeNode at hstep
    split at hstep
    · rename_i hopen
      obtain ⟨rfl, rfl⟩ := Prod.mk.inj hstep
      exact ⟨Underway.drop hu hn fun _ => Observed.woken hu.phased hn hl hobserved hopen, .refl hk⟩
    rename_i hended
    obtain ⟨rfl, rfl⟩ := Prod.mk.inj hstep
    have hselected (m : WorkflowNodeRunRow) (hm : m ∈ s.workflowNodeRuns) :
        (decide (m.id = n.id) && decide (m.state = .running)) = true ↔ m = n :=
      (completed_row hk hn hm).trans (and_iff_left hrunning)
    rw [countP_row (List.Nodup.of_map _ hk.nodeRuns) hn hselected, decide_eq_true rfl, if_pos rfl]
    have hmoves := moves_of_update hk hsteady hn (.inr hrunning) rfl fun m hm =>
      (hselected m hm).trans ⟨fun h => h ▸ rfl, row_unique hk.nodeRuns hm hn⟩
    refine ⟨Underway.ends hu order hmoves hown ?_ (completionState_terminal statuses).1
      (fun x hx hne => (List.mem_cons.mp hx).resolve_left hne) (fun _ hx _ => hx)
      fun _ hx => hx, hmoves.foreground⟩
    have hterminal : ∀ x ∈ statuses, x.isTerminal = true := by
      intro x hx
      by_contra hlive
      apply hended
      rw [Bool.or_eq_true, List.any_eq_true]
      exact .inr ⟨x, hx, by simpa using hlive⟩
    obtain ⟨hchildren, hsame⟩ := hobserved.terminal hterminal
    refine .inr (hl.kept hu.phased.charted hsteady.toKept hn hmoves.evolves
      (fun r hr _ => ⟨r, hr, .refl r⟩) (.inr ⟨hchildren, completionState_congr hsame⟩))
  · rw [completeNode_idle hk hn hrunning] at hstep
    obtain ⟨rfl, rfl⟩ := Prod.mk.inj hstep
    exact ⟨Underway.drop hu hn fun h => absurd h hrunning, .refl hk⟩

theorem PassHolds.observed_statuses {s : Store} {p : WorkflowPass} (h : PassHolds s p)
    {nodeId : Uuid} (hread : nodeId ∈ p.observed.map Prod.fst) :
    Observed s (p.events.map Prod.fst) nodeId (p.statuses nodeId) := by
  unfold WorkflowPass.statuses
  cases hfind : p.observed.find? fun o => o.1 = nodeId with
  | none =>
    rw [List.find?_eq_none] at hfind
    obtain ⟨o, ho, hid⟩ := List.mem_map.mp hread
    exact absurd (decide_eq_true hid) (hfind o ho)
  | some o =>
    have hid := List.find?_some hfind
    rw [← of_decide_eq_true hid]
    exact (h.observed o (List.mem_of_find?_eq_some hfind)).2

theorem completeNodes_underway {p : WorkflowPass} (order : QueueOrder) (now : Instant)
    {nodes queue : List Uuid} {s : Store} (hpass : PassHolds s p)
    (hread : ∀ x ∈ nodes, x ∈ affectedNodes p.events ∧ x ∈ p.observed.map Prod.fst)
    (hu : Underway s p.workflowRunId (p.events.map Prod.fst) nodes queue)
    {queue' : List Uuid} {t : Store}
    (h : completeNodes order p.statuses now nodes queue s = (queue', t)) :
    Underway t p.workflowRunId (p.events.map Prod.fst) [] queue' ∧ Foreground s t := by
  induction nodes generalizing queue s with
  | nil =>
    obtain ⟨rfl, rfl⟩ := Prod.mk.inj h
    exact ⟨hu, .refl hu.phased.keys⟩
  | cons nodeId rest ih =>
    obtain ⟨haffected, hobserved⟩ := hread nodeId List.mem_cons_self
    obtain ⟨n, hn, rfl, hown, hl⟩ := hpass.affected hu.phased haffected
    unfold completeNodes at h
    rcases hstep : completeNode (p.statuses n.id) now n.id s with ⟨done, s₁⟩
    rw [hstep] at h
    obtain ⟨hu₁, hf₁⟩ :=
      Underway.complete hu hn hown hl (PassHolds.observed_statuses hpass hobserved)
      order now hstep
    obtain ⟨hu', hf⟩ := ih (PassHolds.foreground hu.phased hf₁ hpass)
      (fun x hx => hread x (List.mem_cons_of_mem _ hx)) hu₁ h
    exact ⟨hu', hf₁.trans hf⟩

theorem nodeActive_eq {s : Store} (hk : KeysUnique s) {n : WorkflowNodeRunRow}
    (hn : n ∈ s.workflowNodeRuns) {w : WorkflowRunRow} (hw : w ∈ s.workflowRuns)
    (hown : w.id = n.workflowRunId) :
    nodeActive s n.id = some (decide (n.state = .pending) && !w.cancellationRequested) := by
  have hnode : s.workflowNodeRuns.find? (fun m => m.id = n.id) = some n :=
    find?_key hk.nodeRuns hn
  have hrun : s.workflowRuns.find? (fun v => v.id = n.workflowRunId) = some w := by
    rw [← hown]
    exact find?_key hk.workflowRuns hw
  rw [nodeActive, hnode, Option.bind_some, hrun, Option.map_some]

theorem Underway.pop {workflowRunId : Uuid} {ids rest queue : List Uuid} {s : Store}
    {n : WorkflowNodeRunRow} (hu : Underway s workflowRunId ids rest (n.id :: queue))
    (hn : n ∈ s.workflowNodeRuns) (hdecided : n.state = .pending → Waits s n.id) :
    Underway s workflowRunId ids rest queue := by
  refine { hu with decided := ?_, queued := fun x hx => hu.queued x (List.mem_cons_of_mem _ hx) }
  intro m hm hpending
  rcases hu.decided m hm hpending with hwaits | hmem
  · exact .inl hwaits
  · rcases List.mem_cons.mp hmem with heq | hmem
    · rw [row_unique hu.phased.keys.nodeRuns hm hn heq] at hpending ⊢
      exact .inl (hdecided hpending)
    · exact .inr hmem

/-- The loop over the queue. -/
theorem propagate_underway {order : QueueOrder} {dispatch : Launching}
    {now : Instant} {rounds : ℕ} {workflowRunId : Uuid} {ids queue : List Uuid} {s t : Store}
    (hu : Underway s workflowRunId ids [] queue)
    (h : propagate order dispatch now rounds queue s = .ok t) :
    Underway t workflowRunId ids [] [] ∧ Foreground s t := by
  induction rounds generalizing queue s with
  | zero =>
    cases queue with
    | nil =>
      cases h
      exact ⟨hu, .refl hu.phased.keys⟩
    | cons => cases h
  | succ rounds ih =>
    cases queue with
    | nil =>
      cases h
      exact ⟨hu, .refl hu.phased.keys⟩
    | cons id queue =>
      obtain ⟨n, hn, rfl, hown⟩ := hu.queued id List.mem_cons_self
      obtain ⟨w, hw, hwid⟩ := hu.phased.charted.owner n hn
      unfold propagate at h
      rw [nodeActive_eq hu.phased.keys hn hw hwid] at h
      cases hactive : decide (n.state = .pending) && !w.cancellationRequested with
      | false =>
        rw [hactive] at h
        refine ih (Underway.pop hu hn fun hpending => ?_) h
        -- the flag is set only where no node is pending
        have hflag : w.cancellationRequested = true := by simpa [hpending] using hactive
        exact absurd ⟨w, hw, hwid, hflag⟩ (hu.uncancelled n hn hpending)
      | true =>
        rw [hactive] at h
        have hpending : n.state = .pending := by
          rw [Bool.and_eq_true] at hactive
          exact of_decide_eq_true hactive.1
        rcases decision_cases s n.id with ⟨hd, hwaits⟩ | ⟨hd, hready⟩ | ⟨hd, hskips⟩
        · rw [hd] at h
          exact ih (Underway.pop hu hn fun _ => hwaits) h
        · rw [hd] at h
          obtain ⟨s₁, h₁, h₂⟩ := ok_of_bind h
          obtain ⟨hu₁, hf₁⟩ := Underway.activate hu hready h₁
          obtain ⟨hu₂, hf₂⟩ := ih hu₁ h₂
          exact ⟨hu₂, hf₁.trans hf₂⟩
        · rw [hd] at h
          obtain ⟨hu₁, hf₁⟩ := Underway.skip hu hn hpending hskips order now
          obtain ⟨hu₂, hf₂⟩ := ih hu₁ h
          exact ⟨hu₂, hf₁.trans hf₂⟩

/-- Edges whose source may still put its successors in the queue. -/
def pendingEdges (s : Store) : ℕ :=
  s.workflowRunEdges.countP fun e =>
    s.workflowNodeRuns.any fun n => n.id = e.fromNodeRunId && n.state = .pending

theorem pendingEdges_mono {s t : Store} (hedges : t.workflowRunEdges = s.workflowRunEdges)
    (hnodes : ∀ n' ∈ t.workflowNodeRuns, n'.state = .pending → n' ∈ s.workflowNodeRuns) :
    pendingEdges t ≤ pendingEdges s := by
  unfold pendingEdges
  rw [hedges]
  apply List.countP_mono_left
  intro e _ hpending
  rw [List.any_eq_true] at hpending ⊢
  obtain ⟨n, hn, hsel⟩ := hpending
  rw [Bool.and_eq_true, decide_eq_true_eq, decide_eq_true_eq] at hsel
  exact ⟨n, hnodes n hn hsel.2, by simp [hsel]⟩

theorem countP_add_le {α : Type} {p q r : α → Bool}
    (hp : ∀ x, p x = true → r x = true ∧ q x = false)
    (hq : ∀ x, q x = true → r x = true) (rows : List α) :
    rows.countP p + rows.countP q ≤ rows.countP r := by
  induction rows with
  | nil => exact Nat.le_refl 0
  | cons x rows ih =>
    simp only [List.countP_cons]
    have hpx := hp x
    have hqx := hq x
    cases hpc : p x <;> cases hqc : q x <;> cases hrc : r x <;> simp_all <;> omega

theorem pendingEdges_skip {s : Store} {n : WorkflowNodeRunRow} (hn : n ∈ s.workflowNodeRuns)
    (hpending : n.state = .pending) (now : Instant) :
    (outgoing (skipNode now n.id s) n.id).length + pendingEdges (skipNode now n.id s) ≤
      pendingEdges s := by
  have hlength : (outgoing (skipNode now n.id s) n.id).length =
      s.workflowRunEdges.countP fun e => e.fromNodeRunId = n.id := by
    rw [outgoing, List.length_insertionSort, List.length_map, List.countP_eq_length_filter]
    rfl
  rw [hlength, Nat.add_comm]
  refine countP_add_le ?_ ?_ s.workflowRunEdges
  · intro e hsource
    obtain ⟨m, hm, hsel⟩ := List.any_eq_true.mp hsource
    rw [Bool.and_eq_true, decide_eq_true_eq, decide_eq_true_eq] at hsel
    rcases update_cases hm with ⟨hm, hnot⟩ | ⟨m₀, _, _, rfl⟩
    · refine ⟨List.any_eq_true.mpr ⟨m, hm, by simp [hsel]⟩, decide_eq_false ?_⟩
      intro hfrom
      simp [hsel.1.trans hfrom, hsel.2] at hnot
    · cases hsel.2
  · intro e hfrom
    exact List.any_eq_true.mpr ⟨n, hn, by simp [of_decide_eq_true hfrom, hpending]⟩

theorem pendingEdges_activate {dispatch : Launching} {now : Instant} {nodeId : Uuid}
    {s t : Store} (h : activate dispatch now nodeId s = .ok t) :
    pendingEdges t ≤ pendingEdges s := by
  obtain ⟨hedges, hnodes⟩ := activate_nodes h
  refine pendingEdges_mono hedges fun n hn hpending =>
    (hnodes n hn).resolve_right fun hrunning => ?_
  rw [hpending] at hrunning
  cases hrunning

theorem nodeActive_true {s : Store} {id : Uuid} (h : nodeActive s id = some true) :
    ∃ n ∈ s.workflowNodeRuns, n.id = id ∧ n.state = .pending := by
  unfold nodeActive at h
  obtain ⟨n, hn, h⟩ := Option.bind_eq_some_iff.mp h
  obtain ⟨w, _, h⟩ := Option.map_eq_some_iff.mp h
  have hid := List.find?_some hn
  rw [Bool.and_eq_true, decide_eq_true_eq] at h
  exact ⟨n, List.mem_of_find?_eq_some hn, of_decide_eq_true hid, h.1⟩

theorem propagate_nil (order : QueueOrder) (dispatch : Launching) (now : Instant)
    (rounds : ℕ) (s : Store) : propagate order dispatch now rounds [] s = .ok s := by
  cases rounds <;> rfl

/-- The queue empties within its length and the edges of pending nodes, so more rounds change
nothing: the bound of the model is not what ends the loop. -/
theorem propagate_rounds (order : QueueOrder) (dispatch : Launching)
    (now : Instant) (extra : ℕ) {rounds : ℕ} {queue : List Uuid} {s : Store}
    (h : queue.length + pendingEdges s ≤ rounds) :
    propagate order dispatch now (rounds + extra) queue s =
      propagate order dispatch now rounds queue s := by
  induction rounds generalizing queue s with
  | zero =>
    cases queue with
    | nil => rw [propagate_nil, propagate_nil]
    | cons => simp at h
  | succ rounds ih =>
    cases queue with
    | nil => rw [propagate_nil, propagate_nil]
    | cons id queue =>
      rw [List.length_cons] at h
      rw [Nat.succ_add]
      unfold propagate
      split
      · rfl
      · exact ih (by omega)
      rename_i hactive
      split
      · exact ih (by omega)
      · cases hstep : activate dispatch now id s with
        | error e => rfl
        | ok s₁ =>
          have hle := pendingEdges_activate hstep
          exact ih (by omega)
      · obtain ⟨n, hn, rfl, hpending⟩ := nodeActive_true hactive
        have hle := pendingEdges_skip hn hpending now
        have hlength := (order.perm (outgoing (skipNode now n.id s) n.id)).length_eq
        apply ih
        rw [List.length_append, hlength]
        omega

theorem pass_rounds (order : QueueOrder) (dispatch : Launching) (now : Instant)
    (extra : ℕ) (queue : List Uuid) (s : Store) :
    propagate order dispatch now (queue.length + s.workflowRunEdges.length + extra) queue s =
      propagate order dispatch now (queue.length + s.workflowRunEdges.length) queue s :=
  propagate_rounds order dispatch now extra (Nat.add_le_add_left List.countP_le_length _)

theorem Phased.untouched {s t : Store} (hp : Phased s) (hsteady : Steady s t)
    (hnodes : t.workflowNodeRuns = s.workflowNodeRuns)
    (hexecutions : t.workflowNodeExecutions = s.workflowNodeExecutions) (hruns : t.runs = s.runs)
    (hevents : ∀ ev ∈ t.workflowCompletionEvents, ev ∈ s.workflowCompletionEvents) : Phased t where
  keys := hsteady.keys
  charted := hp.charted.steady hsteady
  phase := by
    intro n hn
    rw [hnodes] at hn
    exact hp.unmoved hsteady.toKept hn (fun _ he _ => hexecutions ▸ he)
      fun r hr _ => ⟨r, hruns ▸ hr, .refl r⟩
  events := fun ev hev => (hp.events ev (hevents ev hev)).kept hsteady.toKept

theorem finish_steady (now : Instant) (workflowRunId : Uuid) {s : Store} (hk : KeysUnique s) :
    Steady s (finish now workflowRunId s) := by
  have hwrite : Write .plain s (finish now workflowRunId s) := finish_write now workflowRunId s
  exact Write.steady hwrite rfl hk

/-- A row after `finish`: as it was, or final because no node is open. -/
theorem finish_cases {now : Instant} {workflowRunId : Uuid} {s : Store} {w' : WorkflowRunRow}
    (h : w' ∈ (finish now workflowRunId s).workflowRuns) :
    (w' ∈ s.workflowRuns ∧ (w'.id = workflowRunId → w'.state = .running →
      ∃ n ∈ s.workflowNodeRuns, openNode w'.id n = true)) ∨
    ∃ w ∈ s.workflowRuns, w.id = workflowRunId ∧ w.state = .running ∧
      (¬ ∃ n ∈ s.workflowNodeRuns, openNode w.id n = true) ∧
      w' = { w with state := finalState s w, finishedAt := some now } := by
  rcases update_cases h with ⟨hw, hnot⟩ | ⟨w, hw, hsel, rfl⟩
  · refine .inl ⟨hw, fun hid hrunning => ?_⟩
    rw [Bool.eq_false_iff] at hnot
    by_contra hnone
    apply hnot
    simpa [hid, hrunning] using hnone
  · simp only [Bool.and_eq_true, decide_eq_true_eq, Bool.not_eq_true', ← Bool.not_eq_true,
      List.any_eq_true] at hsel
    exact .inr ⟨w, hw, hsel.1.1, hsel.1.2, hsel.2, rfl⟩

theorem finalState_ne_running (s : Store) (w : WorkflowRunRow) : finalState s w ≠ .running := by
  unfold finalState
  split
  · nofun
  · split <;> nofun

theorem Underway.finish {s : Store} {workflowRunId : Uuid} {ids : List Uuid}
    (hu : Underway s workflowRunId ids [] []) (now : Instant) :
    Phased (finish now workflowRunId s) ∧ Settled (finish now workflowRunId s) ids := by
  constructor
  · exact Phased.untouched hu.phased (finish_steady now workflowRunId hu.phased.keys) rfl rfl rfl
      fun _ hev => hev
  constructor
  · intro n hn hrunning
    exact (hu.woken n hn hrunning).resolve_right List.not_mem_nil
  · intro n hn hpending
    exact (hu.decided n hn hpending).resolve_right List.not_mem_nil
  · rintro n hn hpending ⟨w', hw', hid, hflag⟩
    rcases finish_cases hw' with ⟨hw, _⟩ | ⟨w, hw, _, _, _, rfl⟩
    · exact hu.uncancelled n hn hpending ⟨w', hw, hid, hflag⟩
    · exact hu.uncancelled n hn hpending ⟨w, hw, hid, hflag⟩
  · intro w' hw'
    rcases finish_cases hw' with ⟨hw, hopen⟩ | ⟨w, hw, _, _, hclosed, rfl⟩
    · constructor
      · intro hrunning
        by_cases hid : w'.id = workflowRunId
        · exact hopen hid hrunning
        · exact hu.others w' hw hid hrunning
      · exact hu.running w' hw
    · constructor
      · intro hrunning
        exact absurd hrunning (finalState_ne_running s w)
      · intro hopen
        exact absurd hopen hclosed
  · intro w' hw' hstate
    rcases finish_cases hw' with ⟨hw, _⟩ | ⟨w, hw, _, _, _, rfl⟩
    · exact hu.finished w' hw hstate
    · rfl

theorem Phased.event_unique {s : Store} (hp : Phased s) {ev ev' : CompletionEventRow}
    (hev : ev ∈ s.workflowCompletionEvents) (hev' : ev' ∈ s.workflowCompletionEvents)
    (hrun : ev.runId = ev'.runId) :
    ev.nodeRunId = ev'.nodeRunId ∧ ev.workflowRunId = ev'.workflowRunId := by
  obtain ⟨⟨e, he, hx, hnode⟩, ⟨n, hn, hid, hown⟩, _⟩ := hp.events ev hev
  obtain ⟨⟨e', he', hx', hnode'⟩, ⟨n', hn', hid', hown'⟩, _⟩ := hp.events ev' hev'
  have hsame : ev.nodeRunId = ev'.nodeRunId := by
    rw [← hnode, ← hnode', hp.execution_unique he he' hx (hrun ▸ hx')]
  refine ⟨hsame, ?_⟩
  rw [← hown, ← hown', row_unique hp.keys.nodeRuns hn hn' (by rw [hid, hid', hsame])]

def consumeEvents (ids : List Uuid) (s : Store) : Store :=
  { s with workflowCompletionEvents := s.workflowCompletionEvents.filter fun e => e.runId ∉ ids }

theorem mem_consumeEvents {ids : List Uuid} {s : Store} {ev : CompletionEventRow} :
    ev ∈ (consumeEvents ids s).workflowCompletionEvents ↔
      ev ∈ s.workflowCompletionEvents ∧ ev.runId ∉ ids := by
  simp [consumeEvents]

theorem consumeEvents_steady (ids : List Uuid) {s : Store} (hk : KeysUnique s) :
    Steady s (consumeEvents ids s) := by
  have hwrite : Write .plain s (consumeEvents ids s) := .workflow (.deleteEvents _)
  exact Write.steady hwrite rfl hk

theorem Settled.consume {s : Store} {ids : List Uuid} (hs : Settled s ids) :
    Settled (consumeEvents ids s) [] where
  woken := by
    intro n hn hrunning
    rcases hs.woken n hn hrunning with hlive | ⟨ev, hev, hnode, hnot⟩
    · exact .inl hlive
    · exact .inr ⟨ev, mem_consumeEvents.mpr ⟨hev, hnot⟩, hnode, List.not_mem_nil⟩
  decided := hs.decided
  uncancelled := hs.uncancelled
  running := hs.running
  finished := hs.finished

theorem PassHolds.underway {s : Store} (hp : Phased s) (hs : Settled s []) {p : WorkflowPass}
    (h : PassHolds s p) {nodes : List Uuid} (hnodes : ∀ x ∈ affectedNodes p.events, x ∈ nodes) :
    Underway s p.workflowRunId (p.events.map Prod.fst) nodes [] := by
  refine Settled.underway hp hs p.workflowRunId fun n hn hrunning => ?_
  rcases hs.woken n hn hrunning with hlive | ⟨ev, hev, hnode, _⟩
  · exact .inl (.inl hlive)
  · by_cases hmem : ev.runId ∈ p.events.map Prod.fst
    · obtain ⟨x, hx, hrun⟩ := List.mem_map.mp hmem
      obtain ⟨ev', hev', hrun', hnode', _⟩ := h.events x hx
      have hsame := (Phased.event_unique hp hev hev' (hrun.symm.trans hrun'.symm)).1
      refine .inr (hnodes n.id (mem_affectedNodes.mpr ⟨x, hx, ?_⟩))
      rw [← hnode', ← hsame, hnode]
    · exact .inl (.inr ⟨ev, hev, hnode, hmem⟩)

theorem PassHolds.consume {s : Store} (hp : Phased s) {p q : WorkflowPass} (hpass : PassHolds s p)
    (h : PassHolds s q) (hother : q.workflowRunId ≠ p.workflowRunId) :
    PassHolds (consumeEvents (p.events.map Prod.fst) s) q := by
  have hsteady := consumeEvents_steady (p.events.map Prod.fst) hp.keys
  have hevents : ∀ ev ∈ s.workflowCompletionEvents, ev.workflowRunId = q.workflowRunId →
      ev ∈ (consumeEvents (p.events.map Prod.fst) s).workflowCompletionEvents := by
    intro ev hev hown
    refine mem_consumeEvents.mpr ⟨hev, fun hmem => hother ?_⟩
    obtain ⟨x, hx, hrun⟩ := List.mem_map.mp hmem
    obtain ⟨ev', hev', hrun', _, hown'⟩ := hpass.events x hx
    rw [← hown, ← hown', (Phased.event_unique hp hev hev' (hrun.symm.trans hrun'.symm)).2]
  refine h.kept hp hsteady.toKept hevents fun n hn hown hl hw => ?_
  refine Woken.foreground hsteady.toKept (fun _ hr => hr) hn hl (fun ev hev hnode _ => ?_) hw
  obtain ⟨m, hm, hid, hmown⟩ := (hp.events ev hev).node
  apply hevents ev hev
  rw [← hmown, row_unique hp.keys.nodeRuns hm hn (hid.trans hnode), hown]

theorem reconcileInvocation_settled {s : Store} (hp : Phased s) (hs : Settled s [])
    {p : WorkflowPass} (hpass : PassHolds s p)
    (hread : ∀ x ∈ affectedNodes p.events, x ∈ p.observed.map Prod.fst)
    (order : QueueOrder) (dispatch : Launching) (now : Instant) {t : Store}
    (h : (reconcileInvocation order dispatch p.statuses now p.workflowRunId p.events s).2 = t) :
    Phased t ∧ Settled t [] ∧
      ∀ q, PassHolds s q → q.workflowRunId ≠ p.workflowRunId → PassHolds t q := by
  rcases reconcileInvocation_cases order dispatch p.statuses now p.workflowRunId p.events s with
    hsame | ⟨s₂, hpropagate, ht⟩
  · rw [h] at hsame
    rw [hsame]
    exact ⟨hp, hs, fun q hq _ => hq⟩
  rcases hcomplete :
      completeNodes order p.statuses now (order.arrange (affectedNodes p.events)) [] s
    with ⟨queue, s₁⟩
  rw [hcomplete] at hpropagate
  have hnodes (x : Uuid) : x ∈ order.arrange (affectedNodes p.events) ↔
      x ∈ affectedNodes p.events := (order.perm _).mem_iff
  obtain ⟨hu₁, hf₁⟩ := completeNodes_underway order now hpass
    (fun x hx => ⟨(hnodes x).mp hx, hread x ((hnodes x).mp hx)⟩)
    (PassHolds.underway hp hs hpass fun x hx => (hnodes x).mpr hx) hcomplete
  obtain ⟨hu₂, hf₂⟩ := propagate_underway hu₁ hpropagate
  obtain ⟨hp₃, hs₃⟩ := Underway.finish hu₂ now
  have hsteady₃ := finish_steady now p.workflowRunId hu₂.phased.keys
  have ht : t = consumeEvents (p.events.map Prod.fst) (finish now p.workflowRunId s₂) := by
    rw [← h, ht]
    rfl
  rw [ht]
  -- the passes, across the moves and then across `finish`
  have hholds (q : WorkflowPass) (hq : PassHolds s q) :
      PassHolds (finish now p.workflowRunId s₂) q := by
    have hq₂ := PassHolds.foreground hp (hf₁.trans hf₂) hq
    exact hq₂.kept hu₂.phased hsteady₃.toKept (fun _ hev _ => hev) fun _ hn _ hl hw =>
      Woken.foreground hsteady₃.toKept (fun _ hr => hr) hn hl (fun _ hev _ _ => hev) hw
  refine ⟨?_, Settled.consume hs₃, fun q hq hother =>
    PassHolds.consume hp₃ (hholds p hpass) (hholds q hq) hother⟩
  exact Phased.untouched hp₃ (consumeEvents_steady _ hp₃.keys) rfl rfl rfl
    fun ev hev => (mem_consumeEvents.mp hev).1

theorem cancelPending_node {now : Instant} {id : Uuid} {s : Store} (hp : Phased s)
    {n' : WorkflowNodeRunRow} (h : n' ∈ (cancelPending now id s).workflowNodeRuns) :
    (n' ∈ s.workflowNodeRuns ∧ (n'.workflowRunId = id → n'.state ≠ .pending)) ∨
    ∃ n ∈ s.workflowNodeRuns, n.workflowRunId = id ∧ n.state = .pending ∧
      n' = { n with state := .cancelled, finishedAt := some now } := by
  rcases update_cases h with ⟨hn, hnot⟩ | ⟨n, hn, hsel, rfl⟩
  · refine .inl ⟨hn, fun hown hpending => ?_⟩
    simp [hown, hpending] at hnot
  · simp only [Bool.and_eq_true, Bool.or_eq_true, decide_eq_true_eq] at hsel
    exact .inr ⟨n, hn, hsel.1, hsel.2.resolve_right (hp.not_ready hn), rfl⟩

theorem cancelPending_run {now : Instant} {id : Uuid} {s : Store} {w' : WorkflowRunRow}
    (h : w' ∈ (cancelPending now id s).workflowRuns) :
    (w' ∈ s.workflowRuns ∧ w'.id ≠ id) ∨
    ∃ w ∈ s.workflowRuns, w.id = id ∧ w' = { w with cancellationRequested := true } := by
  rcases update_cases h with ⟨hw, hnot⟩ | ⟨w, hw, hsel, rfl⟩
  · exact .inl ⟨hw, of_decide_eq_false hnot⟩
  · exact .inr ⟨w, hw, of_decide_eq_true hsel, rfl⟩

theorem cancelPending_other {now : Instant} {id : Uuid} {s : Store} {n : WorkflowNodeRunRow}
    (hown : n.workflowRunId ≠ id) :
    n ∈ (cancelPending now id s).workflowNodeRuns ↔ n ∈ s.workflowNodeRuns := by
  constructor
  · intro hn
    rcases update_cases hn with ⟨hn, _⟩ | ⟨n₀, _, hsel, rfl⟩
    · exact hn
    · rw [Bool.and_eq_true, decide_eq_true_eq] at hsel
      exact absurd hsel.1 hown
  · intro hn
    exact mem_update.mpr ⟨n, hn, by simp [hown]⟩

theorem Phased.cancelPending {now : Instant} {id : Uuid} {s : Store} (hp : Phased s)
    (hsteady : Steady s (cancelPending now id s)) {w : WorkflowRunRow} (hw : w ∈ s.workflowRuns)
    (hid : w.id = id) : Phased (cancelPending now id s) where
  keys := hsteady.keys
  charted := hp.charted.steady hsteady
  phase := by
    intro n' hn'
    have hk := hsteady.toKept
    rcases cancelPending_node hp hn' with ⟨hn, _⟩ | ⟨n, hn, hown, hpending, rfl⟩
    · exact hp.unmoved hk hn (fun _ he _ => he) fun r hr _ => ⟨r, hr, .refl r⟩
    · have hflag : CancellationRequested (WorkflowStore.cancelPending now id s) n.workflowRunId :=
        ⟨{ w with cancellationRequested := true },
          mem_update.mpr ⟨w, hw, by simp [hid]⟩, hid.trans hown.symm, rfl⟩
      exact .inl ((Unlaunched.of_pending hp hn hpending).kept (hk.node hn hn' rfl) rfl
        (fun _ he _ => he) (fun r hr _ => ⟨r, hr, .refl r⟩) (.inr (.inr ⟨rfl, hflag⟩)))
  events := fun ev hev => (hp.events ev hev).kept hsteady.toKept

theorem cancelPending_underway {now : Instant} {id : Uuid} {s : Store} (hp : Phased s)
    (hs : Settled s []) {w : WorkflowRunRow} (hw : w ∈ s.workflowRuns) (hid : w.id = id)
    (hrunning : w.state = .running) : Underway (cancelPending now id s) id [] [] [] := by
  have hsteady : Steady s (WorkflowStore.cancelPending now id s) :=
    Writes.steady (cancelPending_writes hp.keys hw hid hrunning) rfl hp.keys
  have hpending {n' : WorkflowNodeRunRow}
      (hn' : n' ∈ (WorkflowStore.cancelPending now id s).workflowNodeRuns)
      (hpending : n'.state = .pending) : n' ∈ s.workflowNodeRuns ∧ n'.workflowRunId ≠ id := by
    rcases cancelPending_node hp hn' with ⟨hn, hother⟩ | ⟨n, _, _, _, rfl⟩
    · exact ⟨hn, fun hown => hother hown hpending⟩
    · cases hpending
  constructor
  · exact Phased.cancelPending hp hsteady hw hid
  · intro n' hn' hrunning
    rcases cancelPending_node hp hn' with ⟨hn, _⟩ | ⟨n, _, _, _, rfl⟩
    · exact .inl (Woken.foreground hsteady.toKept (fun _ hr => hr) hn (.of_running hp hn hrunning)
        (fun _ hev _ _ => hev) (hs.woken n' hn hrunning))
    · cases hrunning
  · intro n' hn' hopen
    obtain ⟨hn, hother⟩ := hpending hn' hopen
    refine .inl (Waits.unmoved hp.charted hp.keys hsteady.keys hn (fun _ _ => .rfl) ?_
      (hs.decided n' hn hopen))
    intro m hm
    exact cancelPending_other (hm ▸ hother)
  · rintro n' hn' hopen ⟨v', hv', hvid, hflag⟩
    obtain ⟨hn, hother⟩ := hpending hn' hopen
    rcases cancelPending_run hv' with ⟨hv, _⟩ | ⟨v, _, hvid', rfl⟩
    · exact hs.uncancelled n' hn hopen ⟨v', hv, hvid, hflag⟩
    · exact hother (hvid.symm.trans hvid')
  · rintro v' hv' ⟨n', hn', hopen⟩
    have hn : n' ∈ s.workflowNodeRuns := by
      rcases cancelPending_node hp hn' with ⟨hn, _⟩ | ⟨n, _, _, _, rfl⟩
      · exact hn
      · cases (openNode_iff.mp hopen).2
    rcases cancelPending_run hv' with ⟨hv, _⟩ | ⟨v, hv, _, rfl⟩
    · exact (hs.running v' hv).mpr ⟨n', hn, hopen⟩
    · exact (hs.running v hv).mpr ⟨n', hn, hopen⟩
  · intro v' hv' hstate
    rcases cancelPending_run hv' with ⟨hv, hother⟩ | ⟨v, hv, hvid, rfl⟩
    · rw [hs.finished v' hv hstate]
      symm
      apply finalState_congr
      intro n hown
      exact cancelPending_other (hown ▸ hother)
    · rw [row_unique hp.keys.workflowRuns hv hw (hvid.trans hid.symm)] at hstate
      exact absurd hrunning hstate
  · intro v' hv' hother hstate
    rcases cancelPending_run hv' with ⟨hv, _⟩ | ⟨v, _, hvid, rfl⟩
    · obtain ⟨n, hn, hopen⟩ := (hs.running v' hv).mp hstate
      refine ⟨n, (cancelPending_other ?_).mpr hn, hopen⟩
      rw [(openNode_iff.mp hopen).1]
      exact hother
    · exact absurd hvid hother
  · intro x hx
    exact absurd hx List.not_mem_nil

theorem cancel_settled {s : Store} (hp : Phased s) (hs : Settled s []) (now : Instant) (id : Uuid)
    {t : Store} (h : (cancel now id s).2 = t) :
    Phased t ∧ Settled t [] ∧ ∀ q, PassHolds s q → PassHolds t q := by
  have hsteady : Steady s t := by
    rw [← h]
    exact Writes.steady (cancel_writes now id hp.keys) rfl hp.keys
  rcases cancel_cases now id s with hsame | ⟨w, hw, hid, hrunning, hcancel⟩
  · rw [h] at hsame
    rw [hsame]
    exact ⟨hp, hs, fun q hq => hq⟩
  · rw [h] at hcancel
    subst hcancel
    obtain ⟨hp', hs'⟩ := Underway.finish (cancelPending_underway hp hs hw hid hrunning) now
    refine ⟨hp', hs', fun q hq => hq.kept hp hsteady.toKept (fun _ hev _ => hev) ?_⟩
    intro n hn _ hl hw
    exact Woken.foreground hsteady.toKept (fun _ hr => hr) hn hl (fun _ hev _ _ => hev) hw

end WorkflowPasses
