import Crono.RecursiveQuery
import Crono.WorkflowStore

/-! The three tables of Workflow definitions. A replacement deletes and inserts the whole graph in
one transaction, statement by statement; the rows of a definition read back as one
`StoredWorkflow`. -/
namespace WorkflowCatalog

open RunDomain WorkflowDomain SqlTable ControlPlaneSchema WorkflowStore
open FallibleLists

/-- `crono.workflows`. -/
structure WorkflowRow where
  id : Uuid
  namespaceId : Uuid
  name : String
  description : Option String
  revision : ℕ
  deriving DecidableEq, Repr

/-- `crono.workflow_nodes`. -/
structure NodeRow where
  id : Uuid
  workflowId : Uuid
  name : String
  jobId : Uuid
  deriving DecidableEq, Repr

/-- `crono.workflow_edges`. -/
structure EdgeRow where
  workflowId : Uuid
  fromNodeId : Uuid
  toNodeId : Uuid
  condition : DependencyCondition
  deriving DecidableEq, Repr

structure Graphs where
  workflows : List WorkflowRow
  nodes : List NodeRow
  edges : List EdgeRow
  deriving DecidableEq, Repr

def nodeName (g : Graphs) (id : Uuid) : Option String :=
  (g.nodes.find? fun n => n.id = id).map NodeRow.name

def storedNodes (g : Graphs) (id : Uuid) : List StoredNode :=
  ((g.nodes.filter fun n => n.workflowId = id).insertionSort fun a b => a.name ≤ b.name).map
    fun n => ⟨n.id, n.name, n.jobId⟩

def namedEdge (g : Graphs) (e : EdgeRow) : Option WorkflowEdge := do
  let source ← nodeName g e.fromNodeId
  let target ← nodeName g e.toNodeId
  return ⟨source, target, e.condition⟩

/-- `ORDER BY a.name, b.name`. -/
def edgeOrder (a b : WorkflowEdge) : Prop :=
  a.source < b.source ∨ (a.source = b.source ∧ a.target ≤ b.target)

instance : DecidableRel edgeOrder := fun a b => inferInstanceAs (Decidable
  (a.source < b.source ∨ (a.source = b.source ∧ a.target ≤ b.target)))

def storedEdges (g : Graphs) (id : Uuid) : List WorkflowEdge :=
  ((g.edges.filter fun e => e.workflowId = id).filterMap (namedEdge g)).insertionSort edgeOrder

def storedWorkflow (g : Graphs) (w : WorkflowRow) : StoredWorkflow :=
  ⟨w.id, w.namespaceId, w.name, w.description, w.revision, storedNodes g w.id, storedEdges g w.id⟩

def definitions (g : Graphs) : List StoredWorkflow := g.workflows.map (storedWorkflow g)

/-- `catalog`. -/
def readCatalog (g : Graphs) (id : Uuid) : Except StoreError StoredWorkflow :=
  match g.workflows.find? fun w => w.id = id with
  | none => .error .notFound
  | some w => .ok (storedWorkflow g w)

/-- `UNIQUE (namespace_id, name)`. -/
def nameTaken (g : Graphs) (id namespaceId : Uuid) (name : String) : Bool :=
  g.workflows.any fun w => w.id ≠ id && w.namespaceId = namespaceId && w.name = name

/-- The guard of the update in `write`. -/
def currentRevision (id namespaceId : Uuid) (revision : ℕ) (w : WorkflowRow) : Bool :=
  w.id = id && w.namespaceId = namespaceId && w.revision = revision

def replacedRow (definition : WorkflowDefinition) (w : WorkflowRow) : WorkflowRow :=
  { w with
    name := definition.name
    description := definition.description
    revision := w.revision + 1 }

def updateWorkflow (id namespaceId : Uuid) (revision : ℕ) (definition : WorkflowDefinition)
    (g : Graphs) : Except StoreError Graphs :=
  if 2 ^ 63 ≤ revision then .error .staleRevision
  else
    match g.workflows.find? (currentRevision id namespaceId revision) with
    | none => .error .staleRevision
    | some _ =>
      if 2 ^ 63 ≤ revision + 1 || !validateResourceName definition.name then .error .internal
      else if nameTaken g id namespaceId definition.name then .error .conflict
      else .ok { g with
        workflows := update (currentRevision id namespaceId revision) (replacedRow definition)
          g.workflows }

/-- `DELETE FROM crono.workflow_nodes`, which cascades to the edges. -/
def deleteNodes (id : Uuid) (g : Graphs) : Graphs :=
  { g with
    nodes := g.nodes.filter fun n => n.workflowId ≠ id
    edges := g.edges.filter fun e => e.workflowId ≠ id }

def insertWorkflow (id namespaceId : Uuid) (definition : WorkflowDefinition) (g : Graphs) :
    Except StoreError Graphs :=
  if g.workflows.any fun w => w.id = id then .error .conflict
  else if !validateResourceName definition.name then .error .internal
  else if nameTaken g id namespaceId definition.name then .error .conflict
  else .ok { g with
    workflows := g.workflows ++ [⟨id, namespaceId, definition.name, definition.description, 1⟩] }

def insertNode (row : NodeRow) (g : Graphs) : Except StoreError Graphs :=
  if g.nodes.any fun n => n.id = row.id || (n.workflowId = row.workflowId && n.name = row.name) then
    .error .conflict
  else if !validateResourceName row.name then .error .internal
  else .ok { g with nodes := g.nodes ++ [row] }

def belongs (g : Graphs) (workflowId nodeId : Uuid) : Bool :=
  g.nodes.any fun n => n.id = nodeId && n.workflowId = workflowId

def insertEdge (row : EdgeRow) (g : Graphs) : Except StoreError Graphs :=
  if g.edges.any fun e => e.workflowId = row.workflowId && e.fromNodeId = row.fromNodeId &&
      e.toNodeId = row.toNodeId then .error .conflict
  else if row.fromNodeId = row.toNodeId then .error .internal
  else if !belongs g row.workflowId row.fromNodeId || !belongs g row.workflowId row.toNodeId then
    .error .inUse
  else .ok { g with edges := g.edges ++ [row] }

def endpoints (e : EdgeRow) : Uuid × Uuid := (e.fromNodeId, e.toNodeId)

/-- The recursive query of `validate_workflow_graph`, complete after as many rounds as there are
edges. -/
def reachable (edges : List EdgeRow) : List (Uuid × Uuid) :=
  RecursiveQuery.rounds (edges.map endpoints) edges.length

/-- `crono.validate_workflow_graph`. -/
def validateWorkflowGraph (jobs : List JobRow) (g : Graphs) (id namespaceId : Uuid) : Bool :=
  let nodes := g.nodes.filter fun n => n.workflowId = id
  let edges := g.edges.filter fun e => e.workflowId = id
  1 ≤ nodes.length && nodes.length ≤ 64 && edges.length ≤ 256 &&
    (nodes.all fun n => jobs.all fun j => j.id ≠ n.jobId || j.namespaceId = namespaceId) &&
    (reachable edges).all fun r => r.1 ≠ r.2

/-- The ids the database draws for a definition. Node names are unique within a Workflow. -/
structure FreshGraph where
  workflowId : Uuid
  nodeId : String → Uuid

/-- The loop over the nodes in `write`. -/
def insertNodes (jobs : List JobRow) (fresh : FreshGraph) (id namespaceId : Uuid) :
    List WorkflowNode → Graphs → Except StoreError Graphs
  | [], g => .ok g
  | node :: rest, g =>
    match jobs.find? fun j => j.id = node.jobId with
    | none => .error .notFound
    | some job =>
      if job.namespaceId ≠ namespaceId then .error .invalidData
      else do
        let g ← insertNode ⟨fresh.nodeId node.name, id, node.name, node.jobId⟩ g
        insertNodes jobs fresh id namespaceId rest g

/-- `ids.get(name).ok_or(InvalidData)`. -/
def insertedId (fresh : FreshGraph) (definition : WorkflowDefinition) (name : String) :
    Except StoreError Uuid :=
  if definition.nodes.any fun n => n.name = name then .ok (fresh.nodeId name)
  else .error .invalidData

/-- The loop over the edges in `write`. -/
def insertEdges (fresh : FreshGraph) (definition : WorkflowDefinition) (id : Uuid) :
    List WorkflowEdge → Graphs → Except StoreError Graphs
  | [], g => .ok g
  | edge :: rest, g => do
    let source ← insertedId fresh definition edge.source
    let target ← insertedId fresh definition edge.target
    let g ← insertEdge ⟨id, source, target, edge.condition⟩ g
    insertEdges fresh definition id rest g

/-- The row of `crono.workflows` a definition is written to. -/
def writeHead (fresh : FreshGraph) (namespaceId : Uuid) (existing : Option (Uuid × ℕ))
    (definition : WorkflowDefinition) (g : Graphs) : Except StoreError (Uuid × Graphs) :=
  match existing with
  | some (id, revision) => do
    let g ← updateWorkflow id namespaceId revision definition g
    return (id, deleteNodes id g)
  | none => do
    let g ← insertWorkflow fresh.workflowId namespaceId definition g
    return (fresh.workflowId, g)

/-- The transaction of `write`, up to and with its commit. -/
def writeTransaction (jobs : List JobRow) (fresh : FreshGraph) (namespaceId : Uuid)
    (existing : Option (Uuid × ℕ)) (definition : WorkflowDefinition) (g : Graphs) :
    Except StoreError (WorkflowRecord × Graphs) := do
  let (id, g) ← writeHead fresh namespaceId existing definition g
  let g ← insertNodes jobs fresh id namespaceId definition.nodes g
  let g ← insertEdges fresh definition id definition.edges g
  let stored ← readCatalog g id
  let record ← StoredWorkflow.record stored
  if !validateWorkflowGraph jobs g id namespaceId then throw .internal
  return (record, g)

/-- Replace all definition rows under one optimistic catalog lock. -/
def write (jobs : List JobRow) (fresh : FreshGraph) (namespaceId : Uuid)
    (existing : Option (Uuid × ℕ)) (definition : WorkflowDefinition) (g : Graphs) :
    Except StoreError WorkflowRecord × Graphs :=
  match definition.validate with
  | .error _ => (.error .invalidData, g)
  | .ok () =>
    match writeTransaction jobs fresh namespaceId existing definition g with
    | .ok (record, t) => (.ok record, t)
    | .error e => (.error e, g)

/-- `delete`; invocations restrict it. -/
def delete (workflowRuns : List WorkflowRunRow) (id : Uuid) (g : Graphs) :
    Except StoreError Unit × Graphs :=
  if !g.workflows.any fun w => w.id = id then (.error .notFound, g)
  else if workflowRuns.any fun r => r.workflowId = id then (.error .inUse, g)
  else (.ok (), { deleteNodes id g with workflows := g.workflows.filter fun w => w.id ≠ id })

/-- Nothing of another Workflow changed in the tables of the graph. -/
structure Untouched (id : Uuid) (g t : Graphs) : Prop where
  nodes : ∀ other, other ≠ id →
    (t.nodes.filter fun n => n.workflowId = other) = g.nodes.filter fun n => n.workflowId = other
  edges : ∀ other, other ≠ id →
    (t.edges.filter fun e => e.workflowId = other) = g.edges.filter fun e => e.workflowId = other

theorem Untouched.refl (id : Uuid) (g : Graphs) : Untouched id g g :=
  ⟨fun _ _ => rfl, fun _ _ => rfl⟩

theorem Untouched.trans {id : Uuid} {g t u : Graphs} (h : Untouched id g t)
    (k : Untouched id t u) : Untouched id g u :=
  ⟨fun other hne => (k.nodes other hne).trans (h.nodes other hne),
    fun other hne => (k.edges other hne).trans (h.edges other hne)⟩

/-- Primary keys, and edges that join nodes of their own Workflow. -/
structure Keyed (g : Graphs) : Prop where
  workflows : (g.workflows.map WorkflowRow.id).Nodup
  nodes : (g.nodes.map NodeRow.id).Nodup
  joined : ∀ e ∈ g.edges, (∃ n ∈ g.nodes, n.id = e.fromNodeId ∧ n.workflowId = e.workflowId) ∧
    ∃ n ∈ g.nodes, n.id = e.toNodeId ∧ n.workflowId = e.workflowId

structure GraphStep (id : Uuid) (g t : Graphs) : Prop where
  keyed : Keyed g → Keyed t
  untouched : Untouched id g t
  workflows : t.workflows = g.workflows

theorem GraphStep.refl (id : Uuid) (g : Graphs) : GraphStep id g g :=
  ⟨fun h => h, .refl id g, rfl⟩

theorem GraphStep.trans {id : Uuid} {g t u : Graphs} (h : GraphStep id g t)
    (k : GraphStep id t u) : GraphStep id g u :=
  ⟨fun hk => k.keyed (h.keyed hk), h.untouched.trans k.untouched, k.workflows.trans h.workflows⟩

theorem deleteNodes_step (id : Uuid) (g : Graphs) : GraphStep id g (deleteNodes id g) where
  keyed := by
    intro h
    refine ⟨h.workflows, h.nodes.sublist (List.filter_sublist.map _), ?_⟩
    intro e he
    obtain ⟨he, hother⟩ := List.mem_filter.mp he
    have hkept {n : NodeRow} (hn : n ∈ g.nodes) (hown : n.workflowId = e.workflowId) :
        n ∈ (deleteNodes id g).nodes := by
      refine List.mem_filter.mpr ⟨hn, ?_⟩
      rw [hown]
      exact hother
    obtain ⟨⟨a, ha, haid, haown⟩, b, hb, hbid, hbown⟩ := h.joined e he
    exact ⟨⟨a, hkept ha haown, haid, haown⟩, b, hkept hb hbown, hbid, hbown⟩
  untouched := by
    constructor
    · intro other hne
      rw [deleteNodes, List.filter_filter]
      apply List.filter_congr
      intro n _
      by_cases hown : n.workflowId = other
      · simp [hown, hne]
      · simp [hown]
    · intro other hne
      rw [deleteNodes, List.filter_filter]
      apply List.filter_congr
      intro e _
      by_cases hown : e.workflowId = other
      · simp [hown, hne]
      · simp [hown]
  workflows := rfl

theorem insertNode_step {row : NodeRow} {g t : Graphs} (h : insertNode row g = .ok t) :
    GraphStep row.workflowId g t := by
  unfold insertNode at h
  split at h
  · cases h
  rename_i hfresh
  split at h
  · cases h
  cases h
  refine ⟨?_, ⟨?_, fun _ _ => rfl⟩, rfl⟩
  · intro hk
    refine ⟨hk.workflows, nodup_append_key hk.nodes ?_, ?_⟩
    · intro n hn hid
      apply hfresh
      exact List.any_eq_true.mpr ⟨n, hn, by simp [hid]⟩
    · intro e he
      obtain ⟨⟨a, ha, hsource⟩, b, hb, htarget⟩ := hk.joined e he
      exact ⟨⟨a, List.mem_append_left _ ha, hsource⟩, b, List.mem_append_left _ hb, htarget⟩
  · intro other hne
    rw [List.filter_append, List.filter_singleton]
    simp [Ne.symm hne]

theorem belongs_iff {g : Graphs} {workflowId nodeId : Uuid} :
    belongs g workflowId nodeId = true ↔
      ∃ n ∈ g.nodes, n.id = nodeId ∧ n.workflowId = workflowId := by
  simp [belongs]

theorem insertEdge_step {row : EdgeRow} {g t : Graphs} (h : insertEdge row g = .ok t) :
    GraphStep row.workflowId g t := by
  unfold insertEdge at h
  split at h
  · cases h
  split at h
  · cases h
  split at h
  · cases h
  rename_i hends
  cases h
  simp only [Bool.or_eq_true, Bool.not_eq_true', not_or, Bool.not_eq_false] at hends
  refine ⟨?_, ⟨fun _ _ => rfl, ?_⟩, rfl⟩
  · intro hk
    refine ⟨hk.workflows, hk.nodes, ?_⟩
    intro e he
    rcases List.mem_append.mp he with he | he
    · exact hk.joined e he
    · rw [List.mem_singleton.mp he]
      exact ⟨belongs_iff.mp hends.1, belongs_iff.mp hends.2⟩
  · intro other hne
    rw [List.filter_append, List.filter_singleton]
    simp [Ne.symm hne]

theorem insertNodes_step {jobs : List JobRow} {fresh : FreshGraph} {id namespaceId : Uuid}
    {nodes : List WorkflowNode} {g t : Graphs}
    (h : insertNodes jobs fresh id namespaceId nodes g = .ok t) : GraphStep id g t := by
  induction nodes generalizing g with
  | nil =>
    cases h
    exact .refl id _
  | cons node rest ih =>
    simp only [insertNodes] at h
    split at h
    · cases h
    split at h
    · cases h
    obtain ⟨g₁, h₁, h₂⟩ := ok_of_bind h
    exact (insertNode_step h₁).trans (ih h₂)

theorem insertEdges_step {fresh : FreshGraph} {definition : WorkflowDefinition} {id : Uuid}
    {edges : List WorkflowEdge} {g t : Graphs}
    (h : insertEdges fresh definition id edges g = .ok t) : GraphStep id g t := by
  induction edges generalizing g with
  | nil =>
    cases h
    exact .refl id _
  | cons edge rest ih =>
    obtain ⟨_, _, h⟩ := ok_of_bind h
    obtain ⟨_, _, h⟩ := ok_of_bind h
    obtain ⟨g₁, h₁, h₂⟩ := ok_of_bind h
    exact (insertEdge_step h₁).trans (ih h₂)

theorem nodeName_of_mem {g : Graphs} (hk : Keyed g) {n : NodeRow} (hn : n ∈ g.nodes) :
    nodeName g n.id = some n.name := by
  have hfind : (g.nodes.find? fun m => m.id = n.id) = some n := find?_key hk.nodes hn
  rw [nodeName, hfind]
  rfl

theorem Untouched.node {id : Uuid} {g t : Graphs} (h : Untouched id g t) {n : NodeRow}
    (hn : n ∈ g.nodes) (hother : n.workflowId ≠ id) : n ∈ t.nodes := by
  have hmem : n ∈ g.nodes.filter fun m => m.workflowId = n.workflowId :=
    List.mem_filter.mpr ⟨hn, by simp⟩
  rw [← h.nodes n.workflowId hother] at hmem
  exact (List.mem_filter.mp hmem).1

theorem Untouched.storedWorkflow {id : Uuid} {g t : Graphs} (h : Untouched id g t)
    (hg : Keyed g) (ht : Keyed t) {w : WorkflowRow} (hother : w.id ≠ id) :
    storedWorkflow t w = storedWorkflow g w := by
  have hnodes : storedNodes t w.id = storedNodes g w.id := by
    rw [storedNodes, storedNodes, h.nodes w.id hother]
  have hname {n : NodeRow} (hn : n ∈ g.nodes) (hown : n.workflowId = w.id) :
      nodeName t n.id = nodeName g n.id := by
    rw [nodeName_of_mem hg hn, nodeName_of_mem ht (h.node hn (hown ▸ hother))]
  have hedges : storedEdges t w.id = storedEdges g w.id := by
    rw [storedEdges, storedEdges, h.edges w.id hother]
    congr 1
    apply List.filterMap_congr
    intro e he
    obtain ⟨he, hown⟩ := List.mem_filter.mp he
    rw [decide_eq_true_eq] at hown
    obtain ⟨⟨a, ha, haid, haown⟩, b, hb, hbid, hbown⟩ := hg.joined e he
    rw [namedEdge, namedEdge, ← haid, ← hbid, hname ha (haown.trans hown),
      hname hb (hbown.trans hown)]
  rw [WorkflowCatalog.storedWorkflow, WorkflowCatalog.storedWorkflow, hnodes, hedges]

structure Sound (g : Graphs) : Prop extends Keyed g where
  valid : ∀ w ∈ g.workflows, (storedWorkflow g w).definition.validate = .ok ()

theorem updateWorkflow_ok {id namespaceId : Uuid} {revision : ℕ} {definition : WorkflowDefinition}
    {g t : Graphs} (h : updateWorkflow id namespaceId revision definition g = .ok t) :
    (∃ w ∈ g.workflows, w.id = id ∧ w.namespaceId = namespaceId ∧ w.revision = revision) ∧
      t = { g with
        workflows := update (currentRevision id namespaceId revision) (replacedRow definition)
          g.workflows } := by
  unfold updateWorkflow at h
  split at h
  · cases h
  split at h
  · cases h
  rename_i w hfind
  split at h
  · cases h
  split at h
  · cases h
  cases h
  have hcurrent := List.find?_some hfind
  simp only [currentRevision, Bool.and_eq_true, decide_eq_true_eq] at hcurrent
  exact ⟨⟨w, List.mem_of_find?_eq_some hfind, hcurrent.1.1, hcurrent.1.2, hcurrent.2⟩, rfl⟩

theorem insertWorkflow_ok {id namespaceId : Uuid} {definition : WorkflowDefinition} {g t : Graphs}
    (h : insertWorkflow id namespaceId definition g = .ok t) :
    (∀ w ∈ g.workflows, w.id ≠ id) ∧ t = { g with
      workflows := g.workflows ++
        [⟨id, namespaceId, definition.name, definition.description, 1⟩] } := by
  unfold insertWorkflow at h
  split at h
  · cases h
  rename_i hfresh
  split at h
  · cases h
  split at h
  · cases h
  cases h
  refine ⟨?_, rfl⟩
  intro w hw hid
  exact hfresh (List.any_eq_true.mpr ⟨w, hw, by simp [hid]⟩)

theorem readCatalog_ok {g : Graphs} {id : Uuid} {stored : StoredWorkflow}
    (h : readCatalog g id = .ok stored) :
    ∃ w ∈ g.workflows, w.id = id ∧ stored = storedWorkflow g w := by
  unfold readCatalog at h
  split at h
  · cases h
  · rename_i w hfind
    have hid := List.find?_some hfind
    rw [decide_eq_true_eq] at hid
    exact ⟨w, List.mem_of_find?_eq_some hfind, hid, (Except.ok.inj h).symm⟩

section Write

variable {jobs : List JobRow} {fresh : FreshGraph} {namespaceId : Uuid}
  {existing : Option (Uuid × ℕ)} {definition : WorkflowDefinition} {g t : Graphs}
  {record : WorkflowRecord}

/-- A write fails and changes nothing, or it writes one row and one graph, which it has read back
and checked. -/
theorem write_cases (jobs : List JobRow) (fresh : FreshGraph) (namespaceId : Uuid)
    (existing : Option (Uuid × ℕ)) (definition : WorkflowDefinition) (g : Graphs) :
    (∃ e, write jobs fresh namespaceId existing definition g = (.error e, g)) ∨
      ∃ record id g₁ t, write jobs fresh namespaceId existing definition g = (.ok record, t) ∧
        writeHead fresh namespaceId existing definition g = .ok (id, g₁) ∧ GraphStep id g₁ t ∧
        ∃ w ∈ t.workflows, w.id = id ∧ (storedWorkflow t w).definition.validate = .ok () := by
  unfold write
  split
  · exact .inl ⟨_, rfl⟩
  cases htransaction : writeTransaction jobs fresh namespaceId existing definition g with
  | error e => exact .inl ⟨e, rfl⟩
  | ok result =>
    obtain ⟨record, t⟩ := result
    right
    unfold writeTransaction at htransaction
    obtain ⟨⟨id, g₁⟩, hhead, h⟩ := ok_of_bind htransaction
    obtain ⟨g₂, hnodes, h⟩ := ok_of_bind h
    obtain ⟨g₃, hedges, h⟩ := ok_of_bind h
    obtain ⟨stored, hread, h⟩ := ok_of_bind h
    obtain ⟨record', hrecord, h⟩ := ok_of_bind h
    split at h
    · cases h
    cases h
    obtain ⟨w, hw, hid, rfl⟩ := readCatalog_ok hread
    exact ⟨record, id, g₁, t, rfl, hhead, (insertNodes_step hnodes).trans (insertEdges_step hedges),
      w, hw, hid, (record_ok hrecord).1⟩

theorem write_error {e : StoreError}
    (h : write jobs fresh namespaceId existing definition g = (.error e, t)) : t = g := by
  rcases write_cases jobs fresh namespaceId existing definition g with
    ⟨e', hfailed⟩ | ⟨record', id', g₁, t', hwrite, _⟩
  · rw [hfailed] at h
    exact (congrArg Prod.snd h).symm
  · rw [hwrite] at h
    cases h

/-- An edit of one Workflow: every definition is valid and no other one has changed. -/
structure Edits (id : Uuid) (g t : Graphs) : Prop where
  sound : Sound t
  others : ∀ d ∈ definitions t, d.id ≠ id → d ∈ definitions g

theorem Sound.edits {id : Uuid} (hs : Sound g) (ht : Keyed t) (huntouched : Untouched id g t)
    (hothers : ∀ w ∈ t.workflows, w.id ≠ id → w ∈ g.workflows)
    (hwritten : ∀ w ∈ t.workflows, w.id = id →
      (storedWorkflow t w).definition.validate = .ok ()) : Edits id g t := by
  have hread {w : WorkflowRow} (hid : w.id ≠ id) : storedWorkflow t w = storedWorkflow g w :=
    huntouched.storedWorkflow hs.toKeyed ht hid
  refine ⟨⟨ht, ?_⟩, ?_⟩
  · intro w hw
    by_cases hid : w.id = id
    · exact hwritten w hw hid
    · rw [hread hid]
      exact hs.valid w (hothers w hw hid)
  · intro d hd hne
    obtain ⟨w, hw, rfl⟩ := List.mem_map.mp hd
    rw [hread hne]
    exact List.mem_map_of_mem (hothers w hw hne)

/-- What a replacement at a revision does to the rows of `crono.workflows`. -/
structure Replaces (id : Uuid) (revision : ℕ) (g t : Graphs) : Prop where
  current : ∃ w ∈ g.workflows, w.id = id ∧ w.revision = revision
  ids : t.workflows.map WorkflowRow.id = g.workflows.map WorkflowRow.id
  others : ∀ w ∈ t.workflows, w.id ≠ id → w ∈ g.workflows
  next : ∀ w ∈ t.workflows, w.id = id → w.revision = revision + 1

theorem updateWorkflow_replaces {id : Uuid} {revision : ℕ} (hk : Keyed g)
    (h : updateWorkflow id namespaceId revision definition g = .ok t) :
    Replaces id revision g t := by
  obtain ⟨⟨v, hv, hid, hnamespace, hrevision⟩, rfl⟩ := updateWorkflow_ok h
  refine ⟨⟨v, hv, hid, hrevision⟩, map_update fun _ _ _ => rfl, ?_, ?_⟩
  · intro w hw hne
    rcases update_cases hw with ⟨hold, _⟩ | ⟨old, _, hcurrent, rfl⟩
    · exact hold
    · simp only [currentRevision, Bool.and_eq_true, decide_eq_true_eq] at hcurrent
      exact absurd hcurrent.1.1 hne
  · intro w hw hwid
    rcases update_cases hw with ⟨hold, hnot⟩ | ⟨old, _, hcurrent, rfl⟩
    · have hsame : w = v := row_unique hk.workflows hold hv (hwid.trans hid.symm)
      rw [hsame] at hnot
      simp [currentRevision, hid, hnamespace, hrevision] at hnot
    · simp only [currentRevision, Bool.and_eq_true, decide_eq_true_eq] at hcurrent
      change old.revision + 1 = revision + 1
      rw [hcurrent.2]

theorem Sound.replace {id : Uuid} {revision : ℕ} (hs : Sound g)
    (h : write jobs fresh namespaceId (some (id, revision)) definition g = (.ok record, t)) :
    Edits id g t ∧ Replaces id revision g t := by
  rcases write_cases jobs fresh namespaceId (some (id, revision)) definition g with
    ⟨e, hfailed⟩ | ⟨record', id', g₁, t', hwrite, hhead, hstep, w, hw, hwid, hvalid⟩
  · rw [hfailed] at h
    cases h
  rw [hwrite] at h
  cases h
  obtain ⟨g₀, hupdate, hhead⟩ := ok_of_bind hhead
  cases hhead
  have hreplaces := updateWorkflow_replaces hs.toKeyed hupdate
  have hkeyed : Keyed g₀ := by
    obtain ⟨_, rfl⟩ := updateWorkflow_ok hupdate
    exact ⟨hreplaces.ids ▸ hs.workflows, hs.nodes, hs.joined⟩
  have huntouched : Untouched id g g₀ := by
    obtain ⟨_, rfl⟩ := updateWorkflow_ok hupdate
    exact ⟨fun _ _ => rfl, fun _ _ => rfl⟩
  have hsteps := (deleteNodes_step id g₀).trans hstep
  have ht := hsteps.keyed hkeyed
  have hrows : t.workflows = g₀.workflows := hsteps.workflows
  have hreplaced : Replaces id revision g t :=
    ⟨hreplaces.current, hrows ▸ hreplaces.ids, hrows ▸ hreplaces.others, hrows ▸ hreplaces.next⟩
  refine ⟨hs.edits ht (huntouched.trans hsteps.untouched) hreplaced.others ?_, hreplaced⟩
  intro v hv hvid
  rw [row_unique ht.workflows hv hw (hvid.trans hwid.symm)]
  exact hvalid

theorem Sound.create (hs : Sound g)
    (h : write jobs fresh namespaceId none definition g = (.ok record, t)) :
    Edits fresh.workflowId g t ∧ (∀ w ∈ g.workflows, w.id ≠ fresh.workflowId) ∧
      ∀ w ∈ t.workflows, w.id ≠ fresh.workflowId → w ∈ g.workflows := by
  rcases write_cases jobs fresh namespaceId none definition g with
    ⟨e, hfailed⟩ | ⟨record', id', g₁, t', hwrite, hhead, hstep, w, hw, hwid, hvalid⟩
  · rw [hfailed] at h
    cases h
  rw [hwrite] at h
  cases h
  obtain ⟨g₀, hinsert, hhead⟩ := ok_of_bind hhead
  cases hhead
  obtain ⟨hfresh, rfl⟩ := insertWorkflow_ok hinsert
  have ht := hstep.keyed ⟨nodup_append_key hs.workflows hfresh, hs.nodes, hs.joined⟩
  have hothers : ∀ v ∈ t.workflows, v.id ≠ fresh.workflowId → v ∈ g.workflows := by
    intro v hv hne
    rw [hstep.workflows] at hv
    rcases List.mem_append.mp hv with hv | hv
    · exact hv
    · rw [List.mem_singleton.mp hv] at hne
      exact absurd rfl hne
  refine ⟨hs.edits ht ⟨hstep.untouched.nodes, hstep.untouched.edges⟩ hothers ?_, hfresh, hothers⟩
  intro v hv hvid
  rw [row_unique ht.workflows hv hw (hvid.trans hwid.symm)]
  exact hvalid

theorem delete_cases (workflowRuns : List WorkflowRunRow) (id : Uuid) (g : Graphs) :
    (∃ e, delete workflowRuns id g = (.error e, g)) ∨
      delete workflowRuns id g =
        (.ok (), { deleteNodes id g with workflows := g.workflows.filter fun w => w.id ≠ id }) := by
  unfold delete
  split
  · exact .inl ⟨_, rfl⟩
  split
  · exact .inl ⟨_, rfl⟩
  · exact .inr rfl

theorem Sound.delete (hs : Sound g) (workflowRuns : List WorkflowRunRow) (id : Uuid) :
    Edits id g (delete workflowRuns id g).2 ∧
      ∀ d ∈ definitions (WorkflowCatalog.delete workflowRuns id g).2, d ∈ definitions g := by
  rcases delete_cases workflowRuns id g with ⟨e, hfailed⟩ | hdeleted
  · rw [hfailed]
    exact ⟨⟨hs, fun _ hd _ => hd⟩, fun _ hd => hd⟩
  rw [hdeleted]
  have hkeyed := (deleteNodes_step id g).keyed hs.toKeyed
  have huntouched := (deleteNodes_step id g).untouched
  have hrows : ∀ w ∈ g.workflows.filter (fun w => w.id ≠ id), w ∈ g.workflows ∧ w.id ≠ id := by
    intro w hw
    obtain ⟨hw, hne⟩ := List.mem_filter.mp hw
    exact ⟨hw, by simpa using hne⟩
  have hedits : Edits id g
      { deleteNodes id g with workflows := g.workflows.filter fun w => w.id ≠ id } := by
    refine hs.edits ⟨hs.workflows.sublist (List.filter_sublist.map _), hkeyed.nodes,
      hkeyed.joined⟩ ⟨huntouched.nodes, huntouched.edges⟩ (fun w hw _ => (hrows w hw).1) ?_
    exact fun w hw hid => absurd hid (hrows w hw).2
  refine ⟨hedits, ?_⟩
  intro d hd
  apply hedits.others d hd
  obtain ⟨w, hw, rfl⟩ := List.mem_map.mp hd
  exact (hrows w hw).2

end Write

end WorkflowCatalog
