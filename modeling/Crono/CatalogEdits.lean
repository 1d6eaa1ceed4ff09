import Crono.Capabilities
import Crono.ScheduleClaims
import Crono.WorkflowCatalog

/-! Edits of Jobs, Targets, Target Sets and Workflows, one definition per function of the adapter,
as steps beside those of the control plane. A resource stays in the Namespace its id was drawn for,
and a Target Set is never empty. -/
namespace CatalogEdits

open RunDomain WorkflowDomain SqlTable ControlPlaneSchema RunStore WorkflowStore StoreWrites
open ControlPlane (Retains)
open WorkflowCatalog (Graphs FreshGraph definitions storedWorkflow)
open Capabilities ScheduleClaims
open ExecutionInputs (FloatFormat)
open FallibleLists

def createJob (row : JobRow) (c : Catalog) : Except StoreError Catalog :=
  if !(c.queues.any fun q => q.id = row.queueId && q.enabled) then .error .notFound
  else if c.jobs.any fun j => j.id = row.id ||
      (j.namespaceId = row.namespaceId && j.name = row.name) then .error .conflict
  else .ok { c with jobs := c.jobs ++ [row] }

/-- The name and the definition of the row; identity and Namespace are kept. -/
def updateJob (id : Uuid) (row : JobRow) (c : Catalog) : Except StoreError Catalog :=
  match c.jobs.find? fun j => j.id = id with
  | none => .error .notFound
  | some j =>
    if !(c.queues.any fun q => q.id = row.queueId && (q.enabled || q.id = j.queueId)) then
      .error .notFound
    else if c.jobs.any fun x => x.id ≠ id && x.namespaceId = j.namespaceId && x.name = row.name then
      .error .conflict
    else .ok { c with
      jobs := update (fun x => x.id = id)
        (fun x => { row with id := x.id, namespaceId := x.namespaceId }) c.jobs }

def createTarget (row : TargetRow) (c : Catalog) : Except StoreError Catalog :=
  if c.targets.any fun t => t.id = row.id ||
      (t.namespaceId = row.namespaceId && t.name = row.name) then .error .conflict
  else .ok { c with targets := c.targets ++ [row] }

def updateTarget (id : Uuid) (row : TargetRow) (c : Catalog) : Except StoreError Catalog :=
  match c.targets.find? fun t => t.id = id with
  | none => .error .notFound
  | some t =>
    if c.targets.any fun x => x.id ≠ id && x.namespaceId = t.namespaceId && x.name = row.name then
      .error .conflict
    else .ok { c with
      targets := update (fun x => x.id = id)
        (fun x => { row with id := x.id, namespaceId := x.namespaceId }) c.targets }

/-- The foreign keys into `crono.targets`. -/
def targetReferenced (id : Uuid) (s : Store) : Bool :=
  (s.catalog.targetSetMembers.any fun m => m.targetId = id) ||
    (s.schedules.any fun row => row.targetId = some id) ||
    (s.runRequests.any fun q => q.targetId = some id) ||
    (s.runs.any fun r => r.targetId = id) ||
    (s.workflowRuns.any fun w => w.targetId = some id) ||
    s.workflowNodeExecutions.any fun e => e.targetId = id

def deleteTarget (id : Uuid) (s : Store) : Except StoreError Catalog :=
  if !(s.catalog.targets.any fun t => t.id = id) then .error .notFound
  else if targetReferenced id s then .error .inUse
  else .ok { s.catalog with targets := s.catalog.targets.filter fun t => t.id ≠ id }

def maxTargetSetMembers : ℕ := 1000

def validateTargetIds (targetIds : List Uuid) : Bool :=
  !targetIds.isEmpty && targetIds.length ≤ maxTargetSetMembers && targetIds.Nodup

/-- `target_rows_for_ids`: the named Targets of one Namespace. -/
def targetRowsForIds (c : Catalog) (namespaceId : Uuid) (ids : List Uuid) : List TargetRow :=
  (c.targets.filter fun t => t.namespaceId = namespaceId && t.id ∈ ids).insertionSort
    fun a b => a.name ≤ b.name

/-- `INSERT INTO crono.target_set_members`. -/
def insertMembers (targetSetId : Uuid) (ids : List Uuid) (c : Catalog) :
    Except StoreError Catalog :=
  if !ids.Nodup || c.targetSetMembers.any fun m => m.targetSetId = targetSetId && m.targetId ∈ ids
  then .error .conflict
  else if !(ids.all fun id => c.targets.any fun t => t.id = id) then .error .inUse
  else .ok { c with
    targetSetMembers := c.targetSetMembers ++ ids.map fun id => ⟨targetSetId, id⟩ }

def createTargetSet (row : TargetSetRow) (targetIds : List Uuid) (c : Catalog) :
    Except StoreError Catalog :=
  if !validateTargetIds targetIds then .error .invalidData
  else if c.targetSets.any fun ts => ts.id = row.id ||
      (ts.namespaceId = row.namespaceId && ts.name = row.name) then .error .conflict
  else if (targetRowsForIds c row.namespaceId targetIds).length ≠ targetIds.length then
    .error .notFound
  else insertMembers row.id targetIds { c with targetSets := c.targetSets ++ [row] }

/-- Replace the membership and the shared inputs in one transaction. -/
def updateTargetSet (id : Uuid) (name : String) (inputs : Value) (targetIds : List Uuid)
    (c : Catalog) : Except StoreError Catalog :=
  if !validateTargetIds targetIds then .error .invalidData
  else
    match c.targetSets.find? fun ts => ts.id = id with
    | none => .error .notFound
    | some row =>
      if c.targetSets.any fun ts => ts.id ≠ id && ts.namespaceId = row.namespaceId &&
          ts.name = name then .error .conflict
      else if (targetRowsForIds c row.namespaceId targetIds).length ≠ targetIds.length then
        .error .notFound
      else insertMembers id targetIds { c with
        targetSets := update (fun ts => ts.id = id)
          (fun ts => { ts with name := name, inputs := inputs }) c.targetSets
        targetSetMembers := c.targetSetMembers.filter fun m => m.targetSetId ≠ id }

inductive Edit where
  | queues (queues : List QueueRow)
  | schedules (schedules : List ScheduleRow)
  | createJob (row : JobRow)
  | updateJob (id : Uuid) (row : JobRow)
  | createTarget (row : TargetRow)
  | updateTarget (id : Uuid) (row : TargetRow)
  | deleteTarget (id : Uuid)
  | createTargetSet (row : TargetSetRow) (targetIds : List Uuid)
  | updateTargetSet (id : Uuid) (name : String) (inputs : Value) (targetIds : List Uuid)
  | createWorkflow (fresh : FreshGraph) (namespaceId : Uuid) (definition : WorkflowDefinition)
  | replaceWorkflow (fresh : FreshGraph) (namespaceId id : Uuid) (revision : ℕ)
      (definition : WorkflowDefinition)
  | deleteWorkflow (id : Uuid)

inductive Event where
  | edit (e : Edit)
  | control (c : ControlPlane.Command)

/-- The control plane with the tables of Workflow definitions. -/
structure State where
  control : ControlPlane.State
  graphs : Graphs

abbrev State.store (s : State) : Store := s.control.store

def saved (c : Catalog) : Except StoreError Catalog → Catalog
  | .ok edited => edited
  | .error _ => c

def editedGraphs (s : State) : Edit → Graphs
  | .createWorkflow fresh namespaceId definition => (WorkflowCatalog.write s.store.catalog.jobs
      fresh namespaceId none definition s.graphs).2
  | .replaceWorkflow fresh namespaceId id revision definition =>
    (WorkflowCatalog.write s.store.catalog.jobs fresh namespaceId (some (id, revision)) definition
      s.graphs).2
  | .deleteWorkflow id => (WorkflowCatalog.delete s.store.workflowRuns id s.graphs).2
  | _ => s.graphs

def editedCatalog (s : State) (e : Edit) : Catalog :=
  let c := s.store.catalog
  match e with
  | .queues queues => { c with queues := queues }
  | .schedules _ => c
  | .createJob row => saved c (createJob row c)
  | .updateJob id row => saved c (updateJob id row c)
  | .createTarget row => saved c (createTarget row c)
  | .updateTarget id row => saved c (updateTarget id row c)
  | .deleteTarget id => saved c (deleteTarget id s.store)
  | .createTargetSet row targetIds => saved c (createTargetSet row targetIds c)
  | .updateTargetSet id name inputs targetIds =>
    saved c (updateTargetSet id name inputs targetIds c)
  | .createWorkflow _ _ _ | .replaceWorkflow _ _ _ _ _ | .deleteWorkflow _ =>
    { c with workflows := definitions (editedGraphs s e) }

def editedSchedules (s : State) : Edit → List ScheduleRow
  | .schedules schedules => schedules
  | _ => s.store.schedules

def next (s : State) : Event → State
  | .edit e => ⟨ControlPlane.next s.control
      (.editCatalog (editedCatalog s e) (editedSchedules s e)), editedGraphs s e⟩
  | .control c => { s with control := ControlPlane.next s.control c }

def editing : ControlPlane.Command → Bool
  | .editCatalog _ _ => true
  | _ => false

/-- The database draws every id once, for one Namespace; Queues in use are not deleted. -/
def Enabled (owner : ResourceScope → Uuid) (s : State) : Event → Prop
  | .edit (.createJob row) => owner (.job row.id) = row.namespaceId
  | .edit (.createTarget row) => owner (.target row.id) = row.namespaceId
  | .edit (.createTargetSet row _) => owner (.targetSet row.id) = row.namespaceId
  | .edit (.createWorkflow fresh namespaceId _) => owner (.workflow fresh.workflowId) = namespaceId
  | .edit (.queues queues) => ∀ q ∈ s.store.catalog.queues,
      (∃ r ∈ s.store.runs, r.queueId = q.id) ∨
        (∃ e ∈ s.store.workflowNodeExecutions, e.queueId = q.id) → ∃ q' ∈ queues, q'.id = q.id
  | .edit _ => True
  | .control c => ControlPlane.Enabled s.control c ∧ editing c = false

/-- A migrated database holds Queues and Targets. -/
def initial (owner : ResourceScope → Uuid) (s : State) : Prop :=
  ∃ queues targets schedules, (targets.map TargetRow.id).Nodup ∧
    (∀ t ∈ targets, owner (.target t.id) = t.namespaceId) ∧
    s = ⟨⟨emptyStore ⟨queues, [], targets, [], [], []⟩ schedules, [], [], [], []⟩, ⟨[], [], []⟩⟩

def system (owner : ResourceScope → Uuid) : TransitionSystem State Event where
  initial := initial owner
  Enabled := Enabled owner
  next := next

structure Owned (owner : ResourceScope → Uuid) (c : Catalog) : Prop where
  jobs : ∀ j ∈ c.jobs, owner (.job j.id) = j.namespaceId
  targets : ∀ t ∈ c.targets, owner (.target t.id) = t.namespaceId
  targetSets : ∀ ts ∈ c.targetSets, owner (.targetSet ts.id) = ts.namespaceId
  workflows : ∀ w ∈ c.workflows, owner (.workflow w.id) = w.namespaceId

structure Stocked (c : Catalog) : Prop where
  members : ∀ m ∈ c.targetSetMembers, ∃ t ∈ c.targets, t.id = m.targetId
  nonempty : ∀ ts ∈ c.targetSets, ∃ m ∈ c.targetSetMembers, m.targetSetId = ts.id

structure Succeeds (owner : ResourceScope → Uuid) (s : Store) (c : Catalog) : Prop where
  retains : Retains c s
  owned : Owned owner c
  stocked : Stocked c
  sets : ∀ ts ∈ s.catalog.targetSets, ∃ ts' ∈ c.targetSets, ts'.id = ts.id

section Edits

variable {owner : ResourceScope → Uuid} {s : Store} {c : Catalog}

theorem Succeeds.refl (hk : CatalogKeys s) (ho : Owned owner s.catalog) (hs : Stocked s.catalog) :
    Succeeds owner s s.catalog :=
  ⟨retains_self hk, ho, hs, fun ts hts => ⟨ts, hts, rfl⟩⟩

theorem Succeeds.jobs (hs : Succeeds owner s s.catalog) {jobs : List JobRow}
    (hids : (jobs.map JobRow.id).Nodup) (howned : ∀ j ∈ jobs, owner (.job j.id) = j.namespaceId)
    (hkept : ∀ j ∈ s.catalog.jobs, ∃ j' ∈ jobs, j'.id = j.id ∧ j'.namespaceId = j.namespaceId) :
    Succeeds owner s { s.catalog with jobs := jobs } where
  retains := ⟨hids, hs.retains.target_ids, hs.retains.queues, fun j hj _ => hkept j hj,
    hs.retains.targets⟩
  owned := ⟨howned, hs.owned.targets, hs.owned.targetSets, hs.owned.workflows⟩
  stocked := ⟨hs.stocked.members, hs.stocked.nonempty⟩
  sets := hs.sets

theorem Succeeds.targets (hs : Succeeds owner s s.catalog) {targets : List TargetRow}
    (hids : (targets.map TargetRow.id).Nodup)
    (howned : ∀ t ∈ targets, owner (.target t.id) = t.namespaceId)
    (hkept : ∀ t ∈ s.catalog.targets, targetReferenced t.id s = true →
      ∃ t' ∈ targets, t'.id = t.id ∧ t'.namespaceId = t.namespaceId) :
    Succeeds owner s { s.catalog with targets := targets } where
  retains := by
    refine ⟨hs.retains.job_ids, hids, hs.retains.queues, hs.retains.jobs, ?_⟩
    intro t ht hused
    apply hkept t ht
    simp only [targetReferenced, Bool.or_eq_true, List.any_eq_true, decide_eq_true_eq]
    rcases hused with hrun | hexecution
    · exact .inl (.inl (.inr hrun))
    · exact .inr hexecution
  owned := ⟨hs.owned.jobs, howned, hs.owned.targetSets, hs.owned.workflows⟩
  stocked := by
    refine ⟨?_, hs.stocked.nonempty⟩
    intro m hm
    obtain ⟨t, ht, hid⟩ := hs.stocked.members m hm
    have hused : targetReferenced t.id s = true := by
      simp only [targetReferenced, Bool.or_eq_true, List.any_eq_true, decide_eq_true_eq]
      exact .inl (.inl (.inl (.inl (.inl ⟨m, hm, hid.symm⟩))))
    obtain ⟨t', ht', hid', _⟩ := hkept t ht hused
    exact ⟨t', ht', hid'.trans hid⟩
  sets := hs.sets

theorem createJob_ok {row : JobRow} {d : Catalog} (h : createJob row c = .ok d) :
    (∀ j ∈ c.jobs, j.id ≠ row.id) ∧ d = { c with jobs := c.jobs ++ [row] } := by
  obtain ⟨_, h⟩ := of_check h
  obtain ⟨hfresh, h⟩ := of_check h
  cases h
  exact ⟨fun j hj hid => hfresh (List.any_eq_true.mpr ⟨j, hj, by simp [hid]⟩), rfl⟩

theorem updateJob_ok {id : Uuid} {row : JobRow} {d : Catalog} (h : updateJob id row c = .ok d) :
    d = { c with
      jobs := update (fun x => x.id = id)
        (fun x => { row with id := x.id, namespaceId := x.namespaceId }) c.jobs } := by
  unfold updateJob at h
  split at h
  · cases h
  obtain ⟨_, h⟩ := of_check h
  obtain ⟨_, h⟩ := of_check h
  cases h
  rfl

theorem createTarget_ok {row : TargetRow} {d : Catalog} (h : createTarget row c = .ok d) :
    (∀ t ∈ c.targets, t.id ≠ row.id) ∧ d = { c with targets := c.targets ++ [row] } := by
  obtain ⟨hfresh, h⟩ := of_check h
  cases h
  exact ⟨fun t ht hid => hfresh (List.any_eq_true.mpr ⟨t, ht, by simp [hid]⟩), rfl⟩

theorem updateTarget_ok {id : Uuid} {row : TargetRow} {d : Catalog}
    (h : updateTarget id row c = .ok d) :
    d = { c with
      targets := update (fun x => x.id = id)
        (fun x => { row with id := x.id, namespaceId := x.namespaceId }) c.targets } := by
  unfold updateTarget at h
  split at h
  · cases h
  obtain ⟨_, h⟩ := of_check h
  cases h
  rfl

theorem deleteTarget_ok {id : Uuid} {d : Catalog} (h : deleteTarget id s = .ok d) :
    ¬ targetReferenced id s = true ∧
      d = { s.catalog with targets := s.catalog.targets.filter fun t => t.id ≠ id } := by
  obtain ⟨_, h⟩ := of_check h
  obtain ⟨hunused, h⟩ := of_check h
  cases h
  exact ⟨hunused, rfl⟩

theorem createJob_succeeds (hs : Succeeds owner s s.catalog) {row : JobRow}
    (hdrawn : owner (.job row.id) = row.namespaceId) (h : createJob row s.catalog = .ok c) :
    Succeeds owner s c := by
  obtain ⟨hfresh, rfl⟩ := createJob_ok h
  refine hs.jobs (nodup_append_key hs.retains.job_ids hfresh) ?_ ?_
  · intro j hj
    rcases List.mem_append.mp hj with hj | hj
    · exact hs.owned.jobs j hj
    · rw [List.mem_singleton.mp hj]
      exact hdrawn
  · exact fun j hj => ⟨j, List.mem_append_left _ hj, rfl, rfl⟩

theorem updateJob_succeeds (hs : Succeeds owner s s.catalog) {id : Uuid} {row : JobRow}
    (h : updateJob id row s.catalog = .ok c) : Succeeds owner s c := by
  obtain rfl := updateJob_ok h
  refine hs.jobs ?_ ?_ ?_
  · rw [map_update]
    · exact hs.retains.job_ids
    · exact fun _ _ _ => rfl
  · intro j hj
    rcases update_cases hj with ⟨hold, _⟩ | ⟨old, hold, _, rfl⟩
    · exact hs.owned.jobs j hold
    · exact hs.owned.jobs old hold
  · intro j hj
    refine ⟨_, mem_update.mpr ⟨j, hj, rfl⟩, ?_⟩
    split
    · exact ⟨rfl, rfl⟩
    · exact ⟨rfl, rfl⟩

theorem createTarget_succeeds (hs : Succeeds owner s s.catalog) {row : TargetRow}
    (hdrawn : owner (.target row.id) = row.namespaceId) (h : createTarget row s.catalog = .ok c) :
    Succeeds owner s c := by
  obtain ⟨hfresh, rfl⟩ := createTarget_ok h
  refine hs.targets (nodup_append_key hs.retains.target_ids hfresh) ?_ ?_
  · intro t ht
    rcases List.mem_append.mp ht with ht | ht
    · exact hs.owned.targets t ht
    · rw [List.mem_singleton.mp ht]
      exact hdrawn
  · exact fun t ht _ => ⟨t, List.mem_append_left _ ht, rfl, rfl⟩

theorem updateTarget_succeeds (hs : Succeeds owner s s.catalog) {id : Uuid} {row : TargetRow}
    (h : updateTarget id row s.catalog = .ok c) : Succeeds owner s c := by
  obtain rfl := updateTarget_ok h
  refine hs.targets ?_ ?_ ?_
  · rw [map_update]
    · exact hs.retains.target_ids
    · exact fun _ _ _ => rfl
  · intro t ht
    rcases update_cases ht with ⟨hold, _⟩ | ⟨old, hold, _, rfl⟩
    · exact hs.owned.targets t hold
    · exact hs.owned.targets old hold
  · intro t ht _
    refine ⟨_, mem_update.mpr ⟨t, ht, rfl⟩, ?_⟩
    split
    · exact ⟨rfl, rfl⟩
    · exact ⟨rfl, rfl⟩

theorem deleteTarget_succeeds (hs : Succeeds owner s s.catalog) {id : Uuid}
    (h : deleteTarget id s = .ok c) : Succeeds owner s c := by
  obtain ⟨hunused, rfl⟩ := deleteTarget_ok h
  refine hs.targets (hs.retains.target_ids.sublist (List.filter_sublist.map _)) ?_ ?_
  · exact fun t ht => hs.owned.targets t (List.mem_filter.mp ht).1
  · intro t ht hused
    refine ⟨t, List.mem_filter.mpr ⟨ht, ?_⟩, rfl, rfl⟩
    rw [decide_eq_true_eq]
    rintro rfl
    exact hunused hused

theorem insertMembers_ok {targetSetId : Uuid} {ids : List Uuid} {d : Catalog}
    (h : insertMembers targetSetId ids c = .ok d) :
    (∀ id ∈ ids, ∃ t ∈ c.targets, t.id = id) ∧ d = { c with
      targetSetMembers := c.targetSetMembers ++ ids.map fun id => ⟨targetSetId, id⟩ } := by
  obtain ⟨_, h⟩ := of_check h
  obtain ⟨hkeys, h⟩ := of_check h
  cases h
  refine ⟨?_, rfl⟩
  simpa using hkeys

theorem validateTargetIds_nonempty {targetIds : List Uuid}
    (h : ¬ (!validateTargetIds targetIds) = true) : ∃ id, id ∈ targetIds := by
  simp only [validateTargetIds, Bool.not_eq_true', Bool.not_eq_false, Bool.and_eq_true,
    List.isEmpty_eq_false_iff] at h
  exact List.exists_mem_of_ne_nil targetIds h.1.1

theorem createTargetSet_ok {row : TargetSetRow} {targetIds : List Uuid} {d : Catalog}
    (h : createTargetSet row targetIds c = .ok d) : (∃ id, id ∈ targetIds) ∧
      insertMembers row.id targetIds { c with targetSets := c.targetSets ++ [row] } = .ok d := by
  obtain ⟨hvalid, h⟩ := of_check h
  obtain ⟨_, h⟩ := of_check h
  obtain ⟨_, h⟩ := of_check h
  exact ⟨validateTargetIds_nonempty hvalid, h⟩

theorem updateTargetSet_ok {id : Uuid} {name : String} {inputs : Value} {targetIds : List Uuid}
    {d : Catalog} (h : updateTargetSet id name inputs targetIds c = .ok d) :
    (∃ id, id ∈ targetIds) ∧ insertMembers id targetIds { c with
      targetSets := update (fun ts => ts.id = id)
        (fun ts => { ts with name := name, inputs := inputs }) c.targetSets
      targetSetMembers := c.targetSetMembers.filter fun m => m.targetSetId ≠ id } = .ok d := by
  obtain ⟨hvalid, h⟩ := of_check h
  split at h
  · cases h
  obtain ⟨_, h⟩ := of_check h
  obtain ⟨_, h⟩ := of_check h
  exact ⟨validateTargetIds_nonempty hvalid, h⟩

/-- The members of an edited set replace its old ones. -/
theorem Succeeds.members (hs : Succeeds owner s s.catalog) {sets : List TargetSetRow}
    {members : List TargetSetMemberRow} {id : Uuid} {targetIds : List Uuid}
    (howned : ∀ ts ∈ sets, owner (.targetSet ts.id) = ts.namespaceId)
    (hkept : ∀ ts ∈ s.catalog.targetSets, ∃ ts' ∈ sets, ts'.id = ts.id)
    (hsets : ∀ ts ∈ sets, ts.id = id ∨ ∃ old ∈ s.catalog.targetSets, old.id = ts.id)
    (hmembers : ∀ m ∈ members, m ∈ s.catalog.targetSetMembers)
    (hothers : ∀ m ∈ s.catalog.targetSetMembers, m.targetSetId ≠ id → m ∈ members)
    (hnonempty : ∃ x, x ∈ targetIds)
    (h : insertMembers id targetIds
      { s.catalog with targetSets := sets, targetSetMembers := members } = .ok c) :
    Succeeds owner s c := by
  obtain ⟨htargets, rfl⟩ := insertMembers_ok h
  refine ⟨⟨hs.retains.job_ids, hs.retains.target_ids, hs.retains.queues, hs.retains.jobs,
    hs.retains.targets⟩, ⟨hs.owned.jobs, hs.owned.targets, howned, hs.owned.workflows⟩, ⟨?_, ?_⟩,
    hkept⟩
  · intro m hm
    rcases List.mem_append.mp hm with hm | hm
    · exact hs.stocked.members m (hmembers m hm)
    · obtain ⟨x, hx, rfl⟩ := List.mem_map.mp hm
      exact htargets x hx
  · intro ts hts
    by_cases hid : ts.id = id
    · obtain ⟨x, hx⟩ := hnonempty
      exact ⟨⟨id, x⟩, List.mem_append_right _ (List.mem_map_of_mem hx), hid.symm⟩
    · obtain ⟨old, hold, hsame⟩ := (hsets ts hts).resolve_left hid
      obtain ⟨m, hm, hown⟩ := hs.stocked.nonempty old hold
      refine ⟨m, List.mem_append_left _ (hothers m hm ?_), hown.trans hsame⟩
      rw [hown, hsame]
      exact hid

theorem createTargetSet_succeeds (hs : Succeeds owner s s.catalog) {row : TargetSetRow}
    {targetIds : List Uuid} (hdrawn : owner (.targetSet row.id) = row.namespaceId)
    (h : createTargetSet row targetIds s.catalog = .ok c) : Succeeds owner s c := by
  obtain ⟨hnonempty, h⟩ := createTargetSet_ok h
  refine hs.members ?_ ?_ ?_ (fun _ hm => hm) (fun _ hm _ => hm) hnonempty h
  · intro ts hts
    rcases List.mem_append.mp hts with hts | hts
    · exact hs.owned.targetSets ts hts
    · rw [List.mem_singleton.mp hts]
      exact hdrawn
  · exact fun ts hts => ⟨ts, List.mem_append_left _ hts, rfl⟩
  · intro ts hts
    rcases List.mem_append.mp hts with hts | hts
    · exact .inr ⟨ts, hts, rfl⟩
    · rw [List.mem_singleton.mp hts]
      exact .inl rfl

theorem updateTargetSet_succeeds (hs : Succeeds owner s s.catalog) {id : Uuid} {name : String}
    {inputs : Value} {targetIds : List Uuid}
    (h : updateTargetSet id name inputs targetIds s.catalog = .ok c) : Succeeds owner s c := by
  obtain ⟨hnonempty, h⟩ := updateTargetSet_ok h
  refine hs.members ?_ ?_ ?_ ?_ ?_ hnonempty h
  · intro ts hts
    rcases update_cases hts with ⟨hold, _⟩ | ⟨old, hold, _, rfl⟩
    · exact hs.owned.targetSets ts hold
    · exact hs.owned.targetSets old hold
  · intro ts hts
    refine ⟨_, mem_update.mpr ⟨ts, hts, rfl⟩, ?_⟩
    split
    · rfl
    · rfl
  · intro ts hts
    rcases update_cases hts with ⟨hold, _⟩ | ⟨old, hold, _, rfl⟩
    · exact .inr ⟨ts, hold, rfl⟩
    · exact .inr ⟨old, hold, rfl⟩
  · exact fun m hm => (List.mem_filter.mp hm).1
  · exact fun m hm hne => List.mem_filter.mpr ⟨hm, by simpa using hne⟩

theorem saved_succeeds (hs : Succeeds owner s s.catalog) {result : Except StoreError Catalog}
    (h : ∀ c, result = .ok c → Succeeds owner s c) :
    Succeeds owner s (saved s.catalog result) := by
  cases result with
  | error e => exact hs
  | ok c => exact h c rfl

end Edits

def OwnedGraphs (owner : ResourceScope → Uuid) (g : Graphs) : Prop :=
  ∀ w ∈ g.workflows, owner (.workflow w.id) = w.namespaceId

theorem OwnedGraphs.definitions {owner : ResourceScope → Uuid} {g : Graphs}
    (h : OwnedGraphs owner g) : ∀ d ∈ definitions g, owner (.workflow d.id) = d.namespaceId := by
  intro d hd
  obtain ⟨w, hw, rfl⟩ := List.mem_map.mp hd
  exact h w hw

/-- A write adds the row it has drawn an id for, or keeps the Namespace of every row. -/
theorem OwnedGraphs.write {owner : ResourceScope → Uuid} {g : Graphs} (h : OwnedGraphs owner g)
    (jobs : List JobRow) (fresh : FreshGraph) (namespaceId : Uuid)
    (existing : Option (Uuid × ℕ)) (definition : WorkflowDefinition)
    (hdrawn : existing = none → owner (.workflow fresh.workflowId) = namespaceId) :
    OwnedGraphs owner (WorkflowCatalog.write jobs fresh namespaceId existing definition g).2 := by
  rcases WorkflowCatalog.write_cases jobs fresh namespaceId existing definition g with
    ⟨e, hfailed⟩ | ⟨record, id, g₁, t, hwrite, hhead, hstep, _⟩
  · rw [hfailed]
    exact h
  rw [hwrite]
  intro w hw
  rw [hstep.workflows] at hw
  cases existing with
  | none =>
    obtain ⟨g₀, hinsert, hhead⟩ := ok_of_bind hhead
    cases hhead
    obtain ⟨_, rfl⟩ := WorkflowCatalog.insertWorkflow_ok hinsert
    rcases List.mem_append.mp hw with hw | hw
    · exact h w hw
    · rw [List.mem_singleton.mp hw]
      exact hdrawn rfl
  | some current =>
    obtain ⟨g₀, hupdate, hhead⟩ := ok_of_bind hhead
    cases hhead
    obtain ⟨_, rfl⟩ := WorkflowCatalog.updateWorkflow_ok hupdate
    rcases update_cases hw with ⟨hold, _⟩ | ⟨old, hold, _, rfl⟩
    · exact h w hold
    · exact h old hold

theorem OwnedGraphs.delete {owner : ResourceScope → Uuid} {g : Graphs} (h : OwnedGraphs owner g)
    (workflowRuns : List WorkflowRunRow) (id : Uuid) :
    OwnedGraphs owner (WorkflowCatalog.delete workflowRuns id g).2 := by
  rcases WorkflowCatalog.delete_cases workflowRuns id g with ⟨e, hfailed⟩ | hdeleted
  · rw [hfailed]
    exact h
  · rw [hdeleted]
    exact fun w hw => h w (List.mem_filter.mp hw).1

structure Invariant (owner : ResourceScope → Uuid) (s : State) : Prop where
  control : ControlPlane.Reachable s.control
  owned : Owned owner s.store.catalog
  stocked : Stocked s.store.catalog
  graphs : OwnedGraphs owner s.graphs

variable {owner : ResourceScope → Uuid} {s t : State}

theorem Invariant.succeeds_refl (h : Invariant owner s) :
    Succeeds owner s.store s.store.catalog :=
  .refl (reachable_catalogKeys h.control) h.owned h.stocked

theorem Invariant.editedGraphs (h : Invariant owner s) {e : Edit}
    (he : Enabled owner s (.edit e)) : OwnedGraphs owner (editedGraphs s e) := by
  cases e with
  | createWorkflow fresh namespaceId definition => exact h.graphs.write _ _ _ _ _ fun _ => he
  | replaceWorkflow fresh namespaceId id revision definition =>
    exact h.graphs.write _ _ _ _ _ nofun
  | deleteWorkflow id => exact h.graphs.delete _ id
  | _ => exact h.graphs

theorem Invariant.workflows (h : Invariant owner s) {workflows : List StoredWorkflow}
    (hworkflows : ∀ d ∈ workflows, owner (.workflow d.id) = d.namespaceId) :
    Succeeds owner s.store { s.store.catalog with workflows := workflows } := by
  have hs := h.succeeds_refl
  exact ⟨⟨hs.retains.job_ids, hs.retains.target_ids, hs.retains.queues, hs.retains.jobs,
    hs.retains.targets⟩, ⟨hs.owned.jobs, hs.owned.targets, hs.owned.targetSets, hworkflows⟩,
    ⟨hs.stocked.members, hs.stocked.nonempty⟩, hs.sets⟩

theorem Invariant.succeeds (h : Invariant owner s) {e : Edit} (he : Enabled owner s (.edit e)) :
    Succeeds owner s.store (editedCatalog s e) := by
  have hs := h.succeeds_refl
  cases e with
  | queues queues =>
    exact ⟨⟨hs.retains.job_ids, hs.retains.target_ids, he, hs.retains.jobs, hs.retains.targets⟩,
      ⟨hs.owned.jobs, hs.owned.targets, hs.owned.targetSets, hs.owned.workflows⟩,
      ⟨hs.stocked.members, hs.stocked.nonempty⟩, hs.sets⟩
  | schedules schedules => exact hs
  | createJob row => exact saved_succeeds hs fun _ => createJob_succeeds hs he
  | updateJob id row => exact saved_succeeds hs fun _ => updateJob_succeeds hs
  | createTarget row => exact saved_succeeds hs fun _ => createTarget_succeeds hs he
  | updateTarget id row => exact saved_succeeds hs fun _ => updateTarget_succeeds hs
  | deleteTarget id => exact saved_succeeds hs fun _ => deleteTarget_succeeds hs
  | createTargetSet row targetIds =>
    exact saved_succeeds hs fun _ => createTargetSet_succeeds hs he
  | updateTargetSet id name inputs targetIds =>
    exact saved_succeeds hs fun _ => updateTargetSet_succeeds hs
  | createWorkflow fresh namespaceId definition =>
    exact h.workflows (h.editedGraphs he).definitions
  | replaceWorkflow fresh namespaceId id revision definition =>
    exact h.workflows (h.editedGraphs he).definitions
  | deleteWorkflow id => exact h.workflows (h.editedGraphs he).definitions

theorem executionWrite_catalog {scope : Scope} {s t : Store} (h : ExecutionWrite scope s t) :
    t.catalog = s.catalog := by
  cases h with
  | insertRunRequest _ h =>
    obtain ⟨_, rfl⟩ := insertRunRequest_ok h
    rfl
  | insertRun _ h =>
    obtain ⟨_, _, _, _, _, rfl⟩ := insertRun_ok h
    rfl
  | insertAttempt _ h =>
    obtain ⟨_, rfl⟩ := insertAttempt_ok h
    rfl
  | insertOutbox h =>
    obtain ⟨_, rfl⟩ := insertOutbox_ok h
    rfl
  | _ => rfl

theorem executionWrites_catalog {scope : Scope} {s t : Store} (h : ExecutionWrites scope s t) :
    t.catalog = s.catalog := by
  induction h with
  | refl => rfl
  | tail _ hw ih => exact (executionWrite_catalog hw).trans ih

theorem launchExecutions_catalog {dispatch : Launching} {nodeId jobId : Uuid}
    {now : Instant} {executions : List WorkflowNodeExecutionRow} {s t : Store}
    (h : launchExecutions dispatch nodeId jobId now executions s = .ok t) :
    t.catalog = s.catalog := by
  induction executions generalizing s with
  | nil =>
    cases h
    rfl
  | cons e rest ih =>
    obtain ⟨s₁, h₁, h₂⟩ := ok_of_bind h
    have hrun : s₁.catalog = s.catalog :=
      executionWrites_catalog (createNormalRun_writes (.inl (rfl : (Scope.reserve nodeId).request =
        some (preparedExecution dispatch.floats nodeId jobId e).requestId)) h₁)
    have hrest := ih h₂
    exact hrest.trans hrun

theorem activate_catalog {dispatch : Launching} {now : Instant} {nodeId : Uuid}
    {s t : Store} (h : activate dispatch now nodeId s = .ok t) : t.catalog = s.catalog := by
  unfold activate at h
  split at h
  · cases h
    rfl
  · have hlaunched := launchExecutions_catalog h
    exact hlaunched

theorem activateRoots_catalog {F : FloatFormat} {fresh : FreshLaunch}
    {definition : StoredWorkflow} {now : Instant} {nodes : List StoredNode} {s t : Store}
    (h : activateRoots F fresh definition now nodes s = .ok t) : t.catalog = s.catalog := by
  induction nodes generalizing s with
  | nil =>
    cases h
    rfl
  | cons node rest ih =>
    unfold activateRoots at h
    split at h
    · exact ih h
    · obtain ⟨s₁, h₁, h₂⟩ := ok_of_bind h
      exact (ih h₂).trans (activate_catalog h₁)

theorem start_catalog (R : Rendering) (fresh : FreshLaunch) (launch : WorkflowLaunch)
    (now : Instant) (s : Store) : (start R fresh launch now s).2.catalog = s.catalog := by
  rcases start_cases R fresh launch now s with h | ⟨_, t, h, ht⟩
  · rw [h]
  · rw [ht]
    obtain ⟨_, _, s₁, s₂, s₃, h₁, h₂, h₃, h₄, _, _⟩ := startFresh_ok h
    obtain ⟨_, rfl⟩ := insertWorkflowRun_ok h₁
    obtain ⟨_, _, rfl, _⟩ := prepareNodes_ok h₂
    obtain ⟨rfl, _⟩ := insertRunEdges_ok h₃
    have hroots := activateRoots_catalog h₄
    exact hroots

theorem completeNodes_catalog (order : QueueOrder) (observed : Uuid → List RunStatus)
    (now : Instant) (nodes downstream : List Uuid) (s : Store) :
    (completeNodes order observed now nodes downstream s).2.catalog = s.catalog := by
  induction nodes generalizing downstream s with
  | nil => rfl
  | cons nodeId rest ih =>
    have hnode : (completeNode (observed nodeId) now nodeId s).2.catalog = s.catalog := by
      unfold completeNode
      split
      · rfl
      · rfl
    exact (ih _ _).trans hnode

theorem propagate_catalog {order : QueueOrder} {dispatch : Launching}
    {now : Instant} {rounds : ℕ} {queue : List Uuid} {s t : Store}
    (h : propagate order dispatch now rounds queue s = .ok t) : t.catalog = s.catalog := by
  induction rounds generalizing queue s with
  | zero =>
    cases queue with
    | nil =>
      cases h
      rfl
    | cons => cases h
  | succ rounds ih =>
    cases queue with
    | nil =>
      cases h
      rfl
    | cons id queue =>
      unfold propagate at h
      split at h
      · cases h
      · exact ih h
      · split at h
        · exact ih h
        · obtain ⟨s₁, h₁, h₂⟩ := ok_of_bind h
          exact (ih h₂).trans (activate_catalog h₁)
        · have hrest := ih h
          exact hrest

theorem reconcileInvocation_catalog (order : QueueOrder) (dispatch : Launching)
    (observed : Uuid → List RunStatus) (now : Instant) (workflowRunId : Uuid)
    (events : List (Uuid × Uuid)) (s : Store) :
    (reconcileInvocation order dispatch observed now workflowRunId events s).2.catalog =
      s.catalog := by
  rcases reconcileInvocation_cases order dispatch observed now workflowRunId events s with
    h | ⟨t, h, ht⟩
  · rw [h]
  · rw [ht]
    have hpropagated := propagate_catalog h
    exact hpropagated.trans (completeNodes_catalog _ _ _ _ _ s)

theorem cancel_catalog (now : Instant) (id : Uuid) (s : Store) :
    (cancel now id s).2.catalog = s.catalog := by
  rcases cancel_cases now id s with h | ⟨_, _, _, _, h⟩
  · rw [h]
  · rw [h]
    rfl

theorem transact_catalog (c : ControlPlane.State) {command : ControlPlane.Command}
    (h : editing command = false) :
    (ControlPlane.transact c command).catalog = c.store.catalog := by
  cases command with
  | createRuns => exact executionWrites_catalog (createRuns_writes _ _ _ _ _ _ _ _)
  | insertRerun => exact executionWrites_catalog (insertRerun_writes _ _ _ _ _ _ _)
  | commitSchedulePlan => exact executionWrites_catalog (commitSchedulePlan_writes _ _ _ _ _)
  | claimOutbox => exact executionWrites_catalog (claimOutbox_writes _ _ _ _ _ _)
  | markPublished => exact executionWrites_catalog (markPublished_writes _ _ _ _ _)
  | recordPublishFailure => exact executionWrites_catalog (recordPublishFailure_writes _ _ _ _ _)
  | claimAttempt => exact executionWrites_catalog (claimAttempt_writes _ _ _)
  | renewLease => exact executionWrites_catalog (renewLease_writes _ _ _)
  | recordAttemptOutput => exact executionWrites_catalog (recordAttemptOutput_writes _ _ _)
  | completeAttempt => exact executionWrites_catalog (completeAttempt_writes _ _ _ _)
  | reconcile => exact executionWrites_catalog (reconcile_writes _ _)
  | startWorkflow => exact start_catalog _ _ _ _ _
  | commitPass order dispatch now workflowRunId =>
    simp only [ControlPlane.transact]
    split
    · rfl
    · exact reconcileInvocation_catalog _ _ _ _ _ _ _
  | cancelWorkflow now workflowRunId => exact cancel_catalog now workflowRunId _
  | editCatalog catalog schedules => cases h
  | beginPass => rfl
  | observeNode => rfl
  | abortPass => rfl

def KeepsSets (c d : Catalog) : Prop := ∀ ts ∈ c.targetSets, ∃ ts' ∈ d.targetSets, ts'.id = ts.id

/-- Every step is one of the control plane. -/
theorem Invariant.control_step (h : Invariant owner s) {e : Event}
    (hstep : (system owner).Step s e t) : ∃ c, ControlPlane.Step s.control c t.control := by
  obtain ⟨he, rfl⟩ := hstep
  cases e with
  | edit e =>
    exact ⟨.editCatalog (editedCatalog s e) (editedSchedules s e), (h.succeeds he).retains, rfl⟩
  | control c => exact ⟨c, he.1, rfl⟩

theorem Invariant.step (h : Invariant owner s) {e : Event} (hstep : (system owner).Step s e t) :
    Invariant owner t ∧ KeepsSets s.store.catalog t.store.catalog := by
  obtain ⟨_, hcontrol⟩ := h.control_step hstep
  have hreachable := h.control.tail hcontrol
  obtain ⟨he, rfl⟩ := hstep
  cases e with
  | edit e =>
    have hedited := h.succeeds he
    exact ⟨⟨hreachable, hedited.owned, hedited.stocked, h.editedGraphs he⟩, hedited.sets⟩
  | control c =>
    have hsame : ((system owner).next s (.control c)).store.catalog = s.store.catalog :=
      transact_catalog s.control he.2
    refine ⟨⟨hreachable, ?_, ?_, h.graphs⟩, ?_⟩
    · rw [hsame]
      exact h.owned
    · rw [hsame]
      exact h.stocked
    · rw [hsame]
      exact fun ts hts => ⟨ts, hts, rfl⟩

theorem initial_invariant (h : (system owner).initial s) : Invariant owner s := by
  obtain ⟨queues, targets, schedules, hids, howned, rfl⟩ := h
  have hcontrol : ControlPlane.initial
      ⟨emptyStore ⟨queues, [], targets, [], [], []⟩ schedules, [], [], [], []⟩ :=
    ⟨⟨queues, [], targets, [], [], []⟩, schedules, List.nodup_nil, hids, rfl⟩
  refine ⟨.initial hcontrol, ⟨?_, howned, ?_, ?_⟩, ⟨?_, ?_⟩, ?_⟩
  · exact fun j hj => absurd hj List.not_mem_nil
  · exact fun ts hts => absurd hts List.not_mem_nil
  · exact fun w hw => absurd hw List.not_mem_nil
  · exact fun m hm => absurd hm List.not_mem_nil
  · exact fun ts hts => absurd hts List.not_mem_nil
  · exact fun w hw => absurd hw List.not_mem_nil

theorem reachable_invariant (h : (system owner).Reachable s) : Invariant owner s :=
  h.invariant (fun _ => initial_invariant) fun _ _ _ hs hstep => (hs.step hstep).1

theorem execution_control (hs : (system owner).Reachable s)
    (h : (system owner).Execution s t) : ControlPlane.Execution s.control t.control := by
  refine hs.relates (R := fun s t => ControlPlane.Execution s.control t.control) ?_ ?_ ?_ h
  · exact fun s => .refl s.control
  · exact fun _ _ _ => TransitionSystem.Execution.trans
  · intro s e t hr hstep
    obtain ⟨c, hcontrol⟩ := (reachable_invariant hr).control_step hstep
    exact .single hcontrol

theorem execution_keepsSets (hs : (system owner).Reachable s)
    (h : (system owner).Execution s t) : KeepsSets s.store.catalog t.store.catalog := by
  refine hs.relates (R := fun s t => KeepsSets s.store.catalog t.store.catalog) ?_ ?_ ?_ h
  · exact fun s ts hts => ⟨ts, hts, rfl⟩
  · intro s t u hst htu ts hts
    obtain ⟨ts₁, hts₁, hid₁⟩ := hst ts hts
    obtain ⟨ts₂, hts₂, hid₂⟩ := htu ts₁ hts₁
    exact ⟨ts₂, hts₂, hid₂.trans hid₁⟩
  · exact fun s e t hr hstep => ((reachable_invariant hr).step hstep).2

end CatalogEdits
