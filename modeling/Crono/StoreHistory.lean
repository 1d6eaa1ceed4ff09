import Crono.StoreWrites

/-! What the writes of a run add up to: rows are never lost and only move on, a live Attempt
or a Run that is new has one of few origins, and no reference into the catalog dangles. -/
namespace StoreWrites

open Relation RunDomain WorkflowDomain SqlTable ControlPlaneSchema RunStore WorkflowStore
open ControlPlane
open ExecutionInputs (FloatFormat)

structure StoreEvolves (s t : Store) : Prop where
  requests : Evolves Eq s.runRequests t.runRequests
  runs : Evolves RunEvolves s.runs t.runs
  attempts : Evolves AttemptEvolves s.runAttempts t.runAttempts
  outbox : Evolves OutboxEvolves s.outbox t.outbox
  workflowRuns : Evolves WorkflowRunEvolves s.workflowRuns t.workflowRuns
  nodeRuns : Evolves NodeRunEvolves s.workflowNodeRuns t.workflowNodeRuns
  edges : Evolves Eq s.workflowRunEdges t.workflowRunEdges
  executions : Evolves NodeExecutionEvolves s.workflowNodeExecutions t.workflowNodeExecutions

theorem StoreEvolves.of_eq {s t : Store} (hrequests : t.runRequests = s.runRequests)
    (hruns : t.runs = s.runs) (hattempts : t.runAttempts = s.runAttempts)
    (houtbox : t.outbox = s.outbox) (hworkflowRuns : t.workflowRuns = s.workflowRuns)
    (hnodeRuns : t.workflowNodeRuns = s.workflowNodeRuns)
    (hedges : t.workflowRunEdges = s.workflowRunEdges)
    (hexecutions : t.workflowNodeExecutions = s.workflowNodeExecutions) : StoreEvolves s t where
  requests := hrequests ▸ .refl (fun _ => rfl) _
  runs := hruns ▸ .refl RunEvolves.refl _
  attempts := hattempts ▸ .refl AttemptEvolves.refl _
  outbox := houtbox ▸ .refl OutboxEvolves.refl _
  workflowRuns := hworkflowRuns ▸ .refl WorkflowRunEvolves.refl _
  nodeRuns := hnodeRuns ▸ .refl NodeRunEvolves.refl _
  edges := hedges ▸ .refl (fun _ => rfl) _
  executions := hexecutions ▸ .refl NodeExecutionEvolves.refl _

theorem StoreEvolves.refl (s : Store) : StoreEvolves s s :=
  .of_eq rfl rfl rfl rfl rfl rfl rfl rfl

theorem StoreEvolves.trans {s t u : Store} (h : StoreEvolves s t) (k : StoreEvolves t u) :
    StoreEvolves s u where
  requests := h.requests.trans k.requests fun _ _ _ => Eq.trans
  runs := h.runs.trans k.runs fun _ _ _ => RunEvolves.trans
  attempts := h.attempts.trans k.attempts fun _ _ _ => AttemptEvolves.trans
  outbox := h.outbox.trans k.outbox fun _ _ _ => OutboxEvolves.trans
  workflowRuns := h.workflowRuns.trans k.workflowRuns fun _ _ _ => WorkflowRunEvolves.trans
  nodeRuns := h.nodeRuns.trans k.nodeRuns fun _ _ _ => NodeRunEvolves.trans
  edges := h.edges.trans k.edges fun _ _ _ => Eq.trans
  executions := h.executions.trans k.executions fun _ _ _ => NodeExecutionEvolves.trans

theorem ExecutionWrite.evolves {scope : Scope} {s t : Store}
    (h : ExecutionWrite scope s t) : StoreEvolves s t := by
  have hs := StoreEvolves.refl s
  cases h with
  | insertRunRequest _ h =>
    obtain ⟨_, rfl⟩ := insertRunRequest_ok h
    exact { hs with requests := .append (fun _ => rfl) _ _ }
  | insertRun _ h =>
    obtain ⟨_, _, _, _, _, rfl⟩ := insertRun_ok h
    exact { hs with runs := .append RunEvolves.refl _ _ }
  | insertAttempt _ h =>
    obtain ⟨_, rfl⟩ := insertAttempt_ok h
    exact { hs with attempts := .append AttemptEvolves.refl _ _ }
  | insertOutbox h =>
    obtain ⟨_, rfl⟩ := insertOutbox_ok h
    exact { hs with outbox := .append OutboxEvolves.refl _ _ }
  | updateRuns p f now h => exact { hs with runs := .update RunEvolves.refl h }
  | updateAttempts p f h _ => exact { hs with attempts := .update AttemptEvolves.refl h }
  | updateOutbox p f h => exact { hs with outbox := .update OutboxEvolves.refl h }
  | record => exact { hs with }

theorem WorkflowWrite.evolves {scope : Scope} {s t : Store} (h : WorkflowWrite scope s t) :
    StoreEvolves s t := by
  have hs := StoreEvolves.refl s
  cases h with
  | insertWorkflowRun _ h =>
    obtain ⟨_, rfl⟩ := insertWorkflowRun_ok h
    exact { hs with workflowRuns := .append WorkflowRunEvolves.refl _ _ }
  | insertNodeRun _ h =>
    obtain ⟨_, _, _, rfl⟩ := insertNodeRun_ok h
    exact { hs with nodeRuns := .append NodeRunEvolves.refl _ _ }
  | insertRunEdge _ h =>
    obtain ⟨_, _, rfl⟩ := insertRunEdge_ok h
    exact { hs with edges := .append (fun _ => rfl) _ _ }
  | insertNodeExecution _ h =>
    obtain ⟨_, _, _, _, _, rfl⟩ := insertNodeExecution_ok h
    exact { hs with executions := .append NodeExecutionEvolves.refl _ _ }
  | updateWorkflowRuns p f h => exact { hs with workflowRuns := .update WorkflowRunEvolves.refl h }
  | updateNodeRuns p f h => exact { hs with nodeRuns := .update NodeRunEvolves.refl h }
  | updateNodeExecutions p f h =>
    exact { hs with executions := .update NodeExecutionEvolves.refl h }
  | deleteEvents => exact { hs with }

theorem Write.evolves {scope : Scope} {s t : Store}
    (h : Write scope s t) : StoreEvolves s t := by
  cases h with
  | execution h => exact h.evolves
  | workflow h => exact h.evolves
  | editCatalog => exact { StoreEvolves.refl s with }

theorem Writes.evolves {scope : Scope} {s t : Store}
    (h : Writes scope s t) : StoreEvolves s t := by
  induction h with
  | refl => exact .refl s
  | tail _ hw ih => exact ih.trans hw.evolves

/-- An Attempt as it was when `a` was its row: the same status, worker and identity. -/
def SameLease (a a' : AttemptRow) : Prop :=
  a.id = a'.id ∧ a.runId = a'.runId ∧ a.status = a'.status ∧ a.workerId = a'.workerId

theorem ExecutionWrite.attempt_origin {scope : Scope} {s t : Store}
    (h : ExecutionWrite scope s t) {a' : AttemptRow} (ha : a' ∈ t.runAttempts)
    (hlive : a'.status.isTerminal = false) :
    a'.status = .pendingDispatch ∨ scope.entry = some a'.status ∨
      ∃ a ∈ s.runAttempts, SameLease a a' := by
  have hkept (hmem : a' ∈ s.runAttempts) : ∃ a ∈ s.runAttempts, SameLease a a' :=
    ⟨a', hmem, rfl, rfl, rfl, rfl⟩
  cases h with
  | insertRunRequest _ h =>
    obtain ⟨_, rfl⟩ := insertRunRequest_ok h
    exact .inr (.inr (hkept ha))
  | insertRun _ h =>
    obtain ⟨_, _, _, _, _, rfl⟩ := insertRun_ok h
    exact .inr (.inr (hkept ha))
  | insertAttempt hrow h =>
    obtain ⟨_, rfl⟩ := insertAttempt_ok h
    rcases List.mem_append.mp ha with ha | ha
    · exact .inr (.inr (hkept ha))
    · rw [List.mem_singleton] at ha
      subst ha
      exact .inl hrow
  | insertOutbox h =>
    obtain ⟨_, rfl⟩ := insertOutbox_ok h
    exact .inr (.inr (hkept ha))
  | updateAttempts p f hevolves henters =>
    rcases update_cases ha with ⟨hmem, _⟩ | ⟨a, hmem, hp, rfl⟩
    · exact .inr (.inr (hkept hmem))
    · rcases henters a hmem hp hlive with ⟨hstatus, hworker⟩ | hentry
      · have hmoved := hevolves a hmem hp
        exact .inr (.inr ⟨a, hmem, hmoved.id.symm, hmoved.run.symm, hstatus.symm, hworker.symm⟩)
      · exact .inr (.inl hentry)
  | updateRuns => exact .inr (.inr (hkept ha))
  | updateOutbox => exact .inr (.inr (hkept ha))
  | record => exact .inr (.inr (hkept ha))

theorem WorkflowWrite.tables {scope : Scope} {s t : Store} (h : WorkflowWrite scope s t) :
    t.catalog = s.catalog ∧ t.runRequests = s.runRequests ∧ t.runs = s.runs ∧
      t.runAttempts = s.runAttempts ∧ t.outbox = s.outbox := by
  cases h with
  | insertWorkflowRun _ h =>
    obtain ⟨_, rfl⟩ := insertWorkflowRun_ok h
    exact ⟨rfl, rfl, rfl, rfl, rfl⟩
  | insertNodeRun _ h =>
    obtain ⟨_, _, _, rfl⟩ := insertNodeRun_ok h
    exact ⟨rfl, rfl, rfl, rfl, rfl⟩
  | insertRunEdge _ h =>
    obtain ⟨_, _, rfl⟩ := insertRunEdge_ok h
    exact ⟨rfl, rfl, rfl, rfl, rfl⟩
  | insertNodeExecution _ h =>
    obtain ⟨_, _, _, _, _, rfl⟩ := insertNodeExecution_ok h
    exact ⟨rfl, rfl, rfl, rfl, rfl⟩
  | _ => exact ⟨rfl, rfl, rfl, rfl, rfl⟩

theorem WorkflowWrite.runs {scope : Scope} {s t : Store} (h : WorkflowWrite scope s t) :
    t.runs = s.runs := h.tables.2.2.1

/-- A live Attempt that is not pending was already in its status, or entered it just now. -/
theorem Writes.attempt_origin {scope : Scope} {s t : Store}
    (h : Writes scope s t) {a' : AttemptRow} (ha : a' ∈ t.runAttempts)
    (hlive : a'.status.isTerminal = false) :
    a'.status = .pendingDispatch ∨ scope.entry = some a'.status ∨
      ∃ a ∈ s.runAttempts, SameLease a a' := by
  induction h generalizing a' with
  | refl => exact .inr (.inr ⟨a', ha, rfl, rfl, rfl, rfl⟩)
  | @tail u v _ hw ih =>
    have hlast : a'.status = .pendingDispatch ∨ scope.entry = some a'.status ∨
        ∃ a ∈ u.runAttempts, SameLease a a' := by
      cases hw with
      | execution hw => exact hw.attempt_origin ha hlive
      | workflow hw =>
        rw [hw.tables.2.2.2.1] at ha
        exact .inr (.inr ⟨a', ha, rfl, rfl, rfl, rfl⟩)
      | editCatalog => exact .inr (.inr ⟨a', ha, rfl, rfl, rfl, rfl⟩)
    rcases hlast with hpending | hentry | ⟨a, hmem, hid, hrun, hstatus, hworker⟩
    · exact .inl hpending
    · exact .inr (.inl hentry)
    · rw [← hstatus] at hlive ⊢
      rcases ih hmem hlive with hpending | hentry | ⟨b, hb, hid', hrun', hstatus', hworker'⟩
      · exact .inl hpending
      · exact .inr (.inl hentry)
      · exact .inr (.inr ⟨b, hb, hid'.trans hid, hrun'.trans hrun, hstatus'.trans hstatus,
          hworker'.trans hworker⟩)

/-- A Run of a later store: an old one, or a new one with its request. -/
def RunOrigin (scope : Scope) (s t : Store) (r : RunRow) : Prop :=
  (∃ r₀ ∈ s.runs, RunEvolves r₀ r) ∨ RunOf scope t r

theorem PinnedAs.kept {F : FloatFormat} {s t : Store} {id : Uuid} {column : SnapshotColumn}
    (h : PinnedAs F s id column) (ht : StoreEvolves s t) : PinnedAs F t id column := by
  obtain ⟨e, he, hpinned⟩ := h
  obtain ⟨e', he', hmoved⟩ := ht.executions.of_mem he
  refine ⟨e', he', ?_⟩
  rw [hmoved.columns]
  exact hpinned

theorem RunOf.evolves {scope : Scope} {s t : Store} {r r' : RunRow} (h : RunOf scope s r)
    (hr : RunEvolves r r') (ht : StoreEvolves s t) : RunOf scope t r' := by
  intro x hx
  have hrequest : r.requestId = some x := by
    rw [hr.columns] at hx
    exact hx
  rcases h x hrequest with hown | ⟨F, hactivating, ⟨n, hn, hid⟩, hrerun, hpinned⟩
  · exact .inl hown
  · obtain ⟨n', hn', hnode⟩ := ht.nodeRuns.of_mem hn
    refine .inr ⟨F, hactivating, ⟨n', hn', ?_⟩, ?_, ?_⟩
    · rw [hnode.columns]
      exact hid
    · rw [hr.columns]
      exact hrerun
    · rw [hr.columns]
      exact hpinned.kept ht

theorem RunOrigin.trans {scope : Scope} {s t u : Store} (h : ∀ r ∈ t.runs, RunOrigin scope s t r)
    (ht : StoreEvolves t u) {r : RunRow} (hr : RunOrigin scope t u r) : RunOrigin scope s u r := by
  rcases hr with ⟨r₁, hr₁, hmoved⟩ | hnew
  · rcases h r₁ hr₁ with ⟨r₀, hr₀, hmoved₀⟩ | hnew
    · exact .inl ⟨r₀, hr₀, hmoved₀.trans hmoved⟩
    · exact .inr (hnew.evolves hmoved ht)
  · exact .inr hnew

theorem Write.run_origin {scope : Scope} {s t : Store} (h : Write scope s t) :
    ∀ r ∈ t.runs, RunOrigin scope s t r := by
  intro r hr
  have hkept (hmem : r ∈ s.runs) : RunOrigin scope s t r := .inl ⟨r, hmem, .refl r⟩
  have hevolves := h.evolves
  cases h with
  | editCatalog => exact hkept hr
  | workflow h => exact hkept (h.runs ▸ hr)
  | execution h =>
    cases h with
    | insertRunRequest _ h =>
      obtain ⟨_, rfl⟩ := insertRunRequest_ok h
      exact hkept hr
    | insertRun hrow h =>
      obtain ⟨_, _, _, _, _, rfl⟩ := insertRun_ok h
      rcases List.mem_append.mp hr with hr | hr
      · exact hkept hr
      · rw [List.mem_singleton] at hr
        subst hr
        exact .inr (hrow.evolves (.refl r) hevolves)
    | insertAttempt _ h =>
      obtain ⟨_, rfl⟩ := insertAttempt_ok h
      exact hkept hr
    | insertOutbox h =>
      obtain ⟨_, rfl⟩ := insertOutbox_ok h
      exact hkept hr
    | updateRuns p f now h =>
      rcases update_cases hr with ⟨hmem, _⟩ | ⟨r₀, hmem, hp, rfl⟩
      · exact hkept hmem
      · exact .inl ⟨r₀, hmem, h r₀ hmem hp⟩
    | _ => exact hkept hr

theorem Writes.run_origin {scope : Scope} {s t : Store} (h : Writes scope s t) :
    ∀ r ∈ t.runs, RunOrigin scope s t r := by
  induction h with
  | refl =>
    intro r hr
    exact .inl ⟨r, hr, .refl r⟩
  | tail _ hw ih =>
    intro r hr
    exact RunOrigin.trans ih hw.evolves (hw.run_origin r hr)

theorem Write.requests {scope : Scope} {s t : Store} (h : Write scope s t)
    (hrequest : scope.request = none) (hlaunch : scope.launching = false) :
    t.runRequests = s.runRequests := by
  cases h with
  | editCatalog => rfl
  | workflow h => exact h.tables.2.1
  | execution h =>
    cases h with
    | insertRunRequest hscope _ => simp [hrequest, hlaunch] at hscope
    | insertRun _ h =>
      obtain ⟨_, _, _, _, _, rfl⟩ := insertRun_ok h
      rfl
    | insertAttempt _ h =>
      obtain ⟨_, rfl⟩ := insertAttempt_ok h
      rfl
    | insertOutbox h =>
      obtain ⟨_, rfl⟩ := insertOutbox_ok h
      rfl
    | _ => rfl

theorem Writes.requests {scope : Scope} {s t : Store} (h : Writes scope s t)
    (hrequest : scope.request = none) (hlaunch : scope.launching = false) :
    t.runRequests = s.runRequests := by
  induction h with
  | refl => rfl
  | tail _ hw ih => rw [hw.requests hrequest hlaunch, ih]

/-- The execution plane leaves the orchestrator's own tables alone, its events apart. -/
theorem ExecutionWrite.tables {scope : Scope} {s t : Store} (h : ExecutionWrite scope s t) :
    t.workflowRuns = s.workflowRuns ∧ t.workflowNodeRuns = s.workflowNodeRuns ∧
      t.workflowRunEdges = s.workflowRunEdges ∧
      t.workflowNodeExecutions = s.workflowNodeExecutions := by
  cases h with
  | insertRunRequest _ h =>
    obtain ⟨_, rfl⟩ := insertRunRequest_ok h
    exact ⟨rfl, rfl, rfl, rfl⟩
  | insertRun _ h =>
    obtain ⟨_, _, _, _, _, rfl⟩ := insertRun_ok h
    exact ⟨rfl, rfl, rfl, rfl⟩
  | insertAttempt _ h =>
    obtain ⟨_, rfl⟩ := insertAttempt_ok h
    exact ⟨rfl, rfl, rfl, rfl⟩
  | insertOutbox h =>
    obtain ⟨_, rfl⟩ := insertOutbox_ok h
    exact ⟨rfl, rfl, rfl, rfl⟩
  | _ => exact ⟨rfl, rfl, rfl, rfl⟩

theorem Write.nodeIds {scope : Scope} {s t : Store} (h : Write scope s t)
    (hlaunch : scope.launching = false) :
    t.workflowNodeRuns.map WorkflowNodeRunRow.id =
      s.workflowNodeRuns.map WorkflowNodeRunRow.id := by
  cases h with
  | editCatalog => rfl
  | execution h => rw [h.tables.2.1]
  | workflow h =>
    cases h with
    | updateNodeRuns p f h =>
      refine map_update fun n hn hp => ?_
      rw [(h n hn hp).columns]
    | insertWorkflowRun hscope _ => simp [hlaunch] at hscope
    | insertNodeRun hscope _ => simp [hlaunch] at hscope
    | insertRunEdge hscope _ => simp [hlaunch] at hscope
    | insertNodeExecution hscope _ => simp [hlaunch] at hscope
    | _ => rfl

theorem Writes.nodeIds {scope : Scope} {s t : Store} (h : Writes scope s t)
    (hlaunch : scope.launching = false) :
    t.workflowNodeRuns.map WorkflowNodeRunRow.id =
      s.workflowNodeRuns.map WorkflowNodeRunRow.id := by
  induction h with
  | refl => rfl
  | tail _ hw ih => rw [hw.nodeIds hlaunch, ih]

def Referenced (s : Store) : Prop :=
  ∀ r ∈ s.runs, (∃ j ∈ s.catalog.jobs, j.id = r.jobId) ∧
    (∃ x ∈ s.catalog.targets, x.id = r.targetId) ∧ ∃ q ∈ s.catalog.queues, q.id = r.queueId

theorem Write.catalog {scope : Scope} {s t : Store} (h : Write scope s t) :
    t.catalog = s.catalog ∨ Retains t.catalog s ∧ t.runs = s.runs := by
  cases h with
  | editCatalog catalog schedules hretains => exact .inr ⟨hretains, rfl⟩
  | workflow h => exact .inl h.tables.1
  | execution h =>
    left
    cases h with
    | insertRunRequest _ h =>
      obtain ⟨_, rfl⟩ := insertRunRequest_ok h
      rfl
    | insertRun _ h =>
      obtain ⟨_, _, _, _, _, rfl⟩ := insertRun_ok h
      rfl
    | insertAttempt _ h =>
      obtain ⟨_, rfl⟩ := insertAttempt_ok h
      rfl
    | insertOutbox h =>
      obtain ⟨_, rfl⟩ := insertOutbox_ok h
      rfl
    | _ => rfl

theorem Write.referenced {scope : Scope} {s t : Store} (h : Write scope s t)
    (hs : Referenced s) : Referenced t := by
  intro r hr
  rcases h.catalog with hcatalog | ⟨hretains, hruns⟩
  · rw [hcatalog]
    have hold (r₀ : RunRow) (hr₀ : r₀ ∈ s.runs) (hmoved : RunEvolves r₀ r) :
        (∃ j ∈ s.catalog.jobs, j.id = r.jobId) ∧ (∃ x ∈ s.catalog.targets, x.id = r.targetId) ∧
          ∃ q ∈ s.catalog.queues, q.id = r.queueId := by
      rw [hmoved.columns]
      exact hs r₀ hr₀
    cases h with
    | execution h =>
      cases h with
      | insertRun _ h =>
        obtain ⟨_, _, hqueue, hjob, htarget, rfl⟩ := insertRun_ok h
        rcases List.mem_append.mp hr with hr | hr
        · exact hs r hr
        · rw [List.mem_singleton] at hr
          subst hr
          exact ⟨hjob, htarget, hqueue⟩
      | updateRuns p f now h =>
        rcases update_cases hr with ⟨hmem, _⟩ | ⟨r₀, hmem, hp, rfl⟩
        · exact hs r hmem
        · exact hold r₀ hmem (h r₀ hmem hp)
      | insertRunRequest _ h =>
        obtain ⟨_, rfl⟩ := insertRunRequest_ok h
        exact hs r hr
      | insertAttempt _ h =>
        obtain ⟨_, rfl⟩ := insertAttempt_ok h
        exact hs r hr
      | insertOutbox h =>
        obtain ⟨_, rfl⟩ := insertOutbox_ok h
        exact hs r hr
      | _ => exact hs r hr
    | workflow h => exact hs r (h.runs ▸ hr)
    | editCatalog => exact hs r hr
  · rw [hruns] at hr
    obtain ⟨⟨j, hj, hjob⟩, ⟨x, hx, htarget⟩, q, hq, hqueue⟩ := hs r hr
    obtain ⟨j', hj', hjid, _⟩ := hretains.jobs j hj (.inl ⟨r, hr, hjob.symm⟩)
    obtain ⟨x', hx', hxid, _⟩ := hretains.targets x hx (.inl ⟨r, hr, htarget.symm⟩)
    obtain ⟨q', hq', hqid⟩ := hretains.queues q hq (.inl ⟨r, hr, hqueue.symm⟩)
    exact ⟨⟨j', hj', hjid.trans hjob⟩, ⟨x', hx', hxid.trans htarget⟩, q', hq', hqid.trans hqueue⟩

theorem Writes.referenced {scope : Scope} {s t : Store} (h : Writes scope s t)
    (hs : Referenced s) : Referenced t := by
  induction h with
  | refl => exact hs
  | tail _ hw ih => exact hw.referenced ih

theorem reachable_referenced {s : State} (h : Reachable s) : Referenced s.store := by
  refine h.invariant_of (P := fun s => Referenced s.store) (Q := fun s => KeysUnique s.store)
    (fun _ => reachable_keysUnique) ?_ ?_
  · rintro s ⟨catalog, schedules, _, _, rfl⟩ r hr
    cases hr
  · rintro s c t hk hs ⟨hc, rfl⟩
    exact (transact_writes hk hc).referenced hs

theorem execution_evolves {s t : State} (hs : Reachable s) (h : Execution s t) :
    StoreEvolves s.store t.store :=
  hs.relates (R := fun s t => StoreEvolves s.store t.store) (fun s => .refl s.store)
    (fun _ _ _ => StoreEvolves.trans) (fun _ _ _ hr hstep => (step_writes hr hstep).evolves) h

end StoreWrites
