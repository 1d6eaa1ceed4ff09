import Crono.OptimisticWrites
import Crono.WorkflowEditor

/-! Workflows the server returns, loaded into the form and saved again. -/
namespace EditedWorkflows

open ControlPlaneSchema (StoredNode StoredWorkflow)
open FallibleLists
open ResourceNames (validateResourceName validateResourceName_ok)
open RunDomain (StoreError Uuid)
open SqlTable WorkflowDomain WorkflowValidation
open WorkflowCatalog (FreshGraph Graphs Keyed NodeRow Sound edgeOrder nodeName nodeName_of_mem
  readCatalog readCatalog_ok storedEdges storedNodes storedWorkflow write writeTransaction)
open WorkflowEditor hiding EdgeRow
open WorkflowStore (WorkflowRecord)

/-- `node_ids` of a record; the last row of a name wins. -/
def nodeId (stored : StoredWorkflow) (name : String) : Option Uuid :=
  (stored.nodes.reverse.find? fun node => node.name = name).map StoredNode.id

def nodeResource (stored : StoredWorkflow) (node : WorkflowNode) :
    Except StoreError WorkflowNodeResource :=
  match nodeId stored node.name with
  | some id => .ok ⟨id, node.name, node.jobId⟩
  | none => .error .internal

def workflowResource (stored : StoredWorkflow) : Except StoreError WorkflowResource := do
  let record ← WorkflowStore.StoredWorkflow.record stored
  let nodes ← record.definition.nodes.mapM (nodeResource stored)
  return ⟨record.id, record.namespaceId, record.definition.name, record.definition.description,
    record.revision, nodes, record.definition.edges⟩

def getWorkflow (g : Graphs) (id : Uuid) : Except StoreError WorkflowResource := do
  let stored ← readCatalog g id
  workflowResource stored

/-- A definition under the names of the form. -/
def resource (stored : StoredWorkflow) : WorkflowResource :=
  ⟨stored.id, stored.namespaceId, stored.name, stored.description, stored.revision,
    stored.nodes.map fun node => ⟨node.id, node.name, node.jobId⟩, stored.edges⟩

theorem resourceName_ok {value name : String} (h : WorkflowStore.resourceName value = .ok name) :
    validateResourceName value = .ok () := by
  rw [WorkflowStore.resourceName] at h
  split at h
  · rename_i hvalid
    exact validateResourceName_ok.mpr hvalid
  · cases h

theorem record_names {stored : StoredWorkflow} {record : WorkflowRecord}
    (h : WorkflowStore.StoredWorkflow.record stored = .ok record) :
    validateResourceName stored.name = .ok () ∧
      ∀ node ∈ stored.nodes, validateResourceName node.name = .ok () := by
  unfold WorkflowStore.StoredWorkflow.record at h
  obtain ⟨_, hname, h⟩ := ok_of_bind h
  obtain ⟨_, hnodes, _⟩ := ok_of_bind h
  refine ⟨resourceName_ok hname, fun node hnode => ?_⟩
  obtain ⟨_, hvalid⟩ := FallibleLists.mapM_succeeds_iff.mp ⟨_, hnodes⟩ node hnode
  exact resourceName_ok hvalid

theorem nodeId_of_mem {stored : StoredWorkflow} (hnames : (stored.nodes.map StoredNode.name).Nodup)
    {node : StoredNode} (hnode : node ∈ stored.nodes) : nodeId stored node.name = some node.id := by
  have hreverse : (stored.nodes.reverse.map StoredNode.name).Nodup := by
    rw [List.map_reverse, List.nodup_reverse]
    exact hnames
  have hfind : (stored.nodes.reverse.find? fun other => other.name = node.name) = some node :=
    find?_key hreverse (List.mem_reverse.mpr hnode)
  rw [nodeId, hfind]
  rfl

theorem definition_names (stored : StoredWorkflow) :
    stored.definition.nodes.map WorkflowNode.name = stored.nodes.map StoredNode.name := by
  rw [StoredWorkflow.definition, List.map_map]
  rfl

theorem workflowResource_of_record {stored : StoredWorkflow} {record : WorkflowRecord}
    (h : WorkflowStore.StoredWorkflow.record stored = .ok record) :
    workflowResource stored = .ok (resource stored) := by
  obtain ⟨hvalid, rfl⟩ := WorkflowStore.record_ok h
  have hnames := (validate_wellFormed hvalid).names
  rw [definition_names] at hnames
  have hnodes :
      stored.definition.nodes.mapM (nodeResource stored) = .ok (resource stored).nodes := by
    rw [FallibleLists.mapM_ok_iff, StoredWorkflow.definition, resource,
      List.forall₂_map_left_iff, List.forall₂_map_right_iff, List.forall₂_same]
    intro node hnode
    rw [nodeResource, nodeId_of_mem hnames hnode]
  rw [workflowResource, h]
  change (stored.definition.nodes.mapM (nodeResource stored) >>= fun nodes => pure
    (⟨stored.id, stored.namespaceId, stored.name, stored.description, stored.revision, nodes,
      stored.edges⟩ : WorkflowResource)) = .ok (resource stored)
  rw [hnodes]
  rfl

/-- What holds of every Workflow the server returns. -/
structure Valid (w : WorkflowResource) : Prop where
  name : validateResourceName w.name = .ok ()
  nodes : ∀ node ∈ w.nodes, validateResourceName node.name = .ok ()
  wellFormed : WellFormed ⟨w.name, w.description, (savedRequest w).nodes, w.edges⟩
  ids : (w.nodes.map WorkflowNodeResource.id).Nodup

theorem storedNodes_ids {g : Graphs} (h : Keyed g) (id : Uuid) :
    ((storedNodes g id).map StoredNode.id).Nodup := by
  rw [storedNodes, List.map_map]
  have hperm : (((g.nodes.filter fun n => n.workflowId = id).insertionSort
      fun a b => a.name ≤ b.name).map NodeRow.id).Perm
      ((g.nodes.filter fun n => n.workflowId = id).map NodeRow.id) :=
    (List.perm_insertionSort _ _).map _
  exact hperm.nodup_iff.mpr (h.nodes.sublist (List.filter_sublist.map _))

theorem getWorkflow_ok {g : Graphs} {id : Uuid} {w : WorkflowResource}
    (h : getWorkflow g id = .ok w) : ∃ row ∈ g.workflows, row.id = id ∧
      w = resource (storedWorkflow g row) ∧
      ∃ record, WorkflowStore.StoredWorkflow.record (storedWorkflow g row) = .ok record := by
  obtain ⟨stored, hread, h⟩ := ok_of_bind h
  obtain ⟨row, hrow, hid, rfl⟩ := readCatalog_ok hread
  cases hrecord : WorkflowStore.StoredWorkflow.record (storedWorkflow g row) with
  | error e =>
    rw [workflowResource, hrecord] at h
    cases h
  | ok record =>
    rw [workflowResource_of_record hrecord] at h
    cases h
    exact ⟨row, hrow, hid, rfl, record, hrecord⟩

theorem getWorkflow_valid {g : Graphs} (hg : Keyed g) {id : Uuid} {w : WorkflowResource}
    (h : getWorkflow g id = .ok w) : Valid w := by
  obtain ⟨row, _, _, rfl, record, hrecord⟩ := getWorkflow_ok h
  obtain ⟨hname, hnodes⟩ := record_names hrecord
  have hwellFormed := validate_wellFormed (WorkflowStore.record_ok hrecord).1
  refine ⟨hname, ?_, ?_, ?_⟩
  · intro node hnode
    obtain ⟨stored, hstored, rfl⟩ := List.mem_map.mp hnode
    exact hnodes stored hstored
  · rw [savedRequest, resource, List.map_map]
    exact hwellFormed
  · rw [resource, List.map_map]
    exact storedNodes_ids hg row.id

/-- The request of a Workflow that was loaded; an empty description is sent as none. -/
def loadedRequest (w : WorkflowResource) : CreateWorkflowRequest :=
  { savedRequest w with description := w.description.filter fun text => text ≠ "" }

section Load

variable {w : WorkflowResource}

theorem Valid.names (h : Valid w) : ((loadedNodes w).map JobRow.name).Nodup := by
  have hnames := h.wellFormed.names
  rw [savedRequest, List.map_map] at hnames
  rw [loadedNodes, List.map_map]
  exact hnames

theorem Valid.resolves (h : Valid w) {node : WorkflowNodeResource} (hnode : node ∈ w.nodes) :
    (rowKey (loadedNodes w) node.name).bind (rowName (loadedNodes w)) = some node.name := by
  have hrow : (⟨node.id, node.name, some node.jobId⟩ : JobRow) ∈ loadedNodes w :=
    List.mem_map.mpr ⟨node, hnode, rfl⟩
  have hfind : ((loadedNodes w).find? fun row => row.name = node.name) =
      some ⟨node.id, node.name, some node.jobId⟩ := find?_key h.names hrow
  have hkeys : ((loadedNodes w).map JobRow.key).Nodup := by
    rw [loadedNodes_keys]
    exact h.ids
  have hname := rowName_of_mem hkeys hrow
  rw [trimmed_valid (h.nodes node hnode)] at hname
  rw [rowKey, hfind]
  exact hname

theorem Valid.loadedNodes (h : Valid w) :
    List.Forall₂ Submits (loadedNodes w) (savedRequest w).nodes := by
  rw [WorkflowEditor.loadedNodes, savedRequest, List.forall₂_map_left_iff,
    List.forall₂_map_right_iff, List.forall₂_same]
  intro node hnode
  have hvalid := h.nodes node hnode
  refine ⟨?_, ?_, rfl⟩
  · rw [trimmed_valid hvalid]
    exact hvalid
  · exact (trimmed_valid hvalid).symm

theorem Valid.loadedEdges (h : Valid w) (keys : ℕ → Uuid) :
    List.Forall₂ (Resolves (rowName (WorkflowEditor.loadedNodes w))) (loadedEdges keys w)
      w.edges := by
  refine List.forall₂_iff_get.mpr ⟨List.length_mapIdx, fun i _ hi => ?_⟩
  have hedge := h.wellFormed.endpoints w.edges[i] (List.getElem_mem hi)
  have hend {name : String} (hname : ∃ node ∈ (savedRequest w).nodes, node.name = name) :
      (rowKey (WorkflowEditor.loadedNodes w) name).bind
        (rowName (WorkflowEditor.loadedNodes w)) = some name := by
    obtain ⟨_, hsaved, rfl⟩ := hname
    obtain ⟨node, hnode, rfl⟩ := List.mem_map.mp hsaved
    exact h.resolves hnode
  simp only [WorkflowEditor.loadedEdges, List.get_eq_getElem, List.getElem_mapIdx]
  exact ⟨hend hedge.2.1, hend hedge.2.2, hedge.1, rfl⟩

theorem Valid.requests (h : Valid w) (firstKey : Uuid) (keys : ℕ → Uuid) :
    Requests (Editor.new firstKey keys (some w)) (loadedRequest w) where
  name := ⟨h.name, (trimmed_valid h.name).symm⟩
  namespaceId := nofun
  bounds := ⟨h.wellFormed.nodes.1, h.wellFormed.nodes.2, h.wellFormed.edges⟩
  description := by
    change (w.description.getD "").length ≤ 500 ∧
      w.description.filter (fun text => text ≠ "") =
        if w.description.getD "" = "" then none else some (w.description.getD "")
    cases hdescription : w.description with
    | none => exact ⟨by decide, rfl⟩
    | some text =>
      refine ⟨(h.wellFormed.description text hdescription).2, ?_⟩
      by_cases hempty : text = ""
      · simp [hempty]
      · simp [hempty]
  nodes := h.loadedNodes
  unique := h.wellFormed.names
  edges := h.loadedEdges keys
  pairs := h.wellFormed.pairs

variable {quote : Char → String} {firstKey : Uuid} {keys : ℕ → Uuid}

theorem Valid.request (h : Valid w) :
    (Editor.new firstKey keys (some w)).request quote = .ok (loadedRequest w) := by
  have hkeys : ((Editor.new firstKey keys (some w)).nodes.map JobRow.key).Nodup := by
    change ((WorkflowEditor.loadedNodes w).map JobRow.key).Nodup
    rw [loadedNodes_keys]
    exact h.ids
  exact (request_iff hkeys).mpr (h.requests firstKey keys)

theorem loadedRequest_saved : loadedRequest w = savedRequest w ↔ w.description ≠ some "" := by
  obtain ⟨id, namespaceId, name, description, revision, nodes, edges⟩ := w
  cases description with
  | none => simp [loadedRequest, savedRequest]
  | some text => simp [loadedRequest, savedRequest, Option.filter]

theorem Valid.dirty (h : Valid w) :
    (Editor.new firstKey keys (some w)).dirty quote = false ↔ w.description ≠ some "" := by
  have hsaved : (Editor.new firstKey keys (some w)).saved = some (savedRequest w) := rfl
  rw [Editor.dirty, h.request, hsaved, ← loadedRequest_saved]
  simp [Editor.new, Except.toOption]

theorem request_congr {e t : Editor} (hname : e.name = t.name)
    (hnamespace : e.namespaceId = t.namespaceId) (hnodes : e.nodes = t.nodes)
    (hedges : e.edges = t.edges) (hdescription : e.description = t.description) :
    e.request quote = t.request quote := by
  rw [Editor.request, Editor.request, hname, hnamespace, hnodes, hedges, hdescription]

theorem replace_request (e : Editor) :
    (e.replace keys w).request quote = (Editor.new firstKey keys (some w)).request quote := by
  refine request_congr rfl rfl ?_ rfl rfl
  change (WorkflowEditor.loadedNodes w).map _ = WorkflowEditor.loadedNodes w
  conv_rhs => rw [← List.map_id (WorkflowEditor.loadedNodes w)]
  apply List.map_congr_left
  intro new _
  split
  · rename_i row hfind
    have hkey : row.key = new.key := by simpa using List.find?_some hfind
    rw [hkey]
    rfl
  · rfl

end Load

def nodeRow (fresh : FreshGraph) (id : Uuid) (node : WorkflowNode) : NodeRow :=
  ⟨fresh.nodeId node.name, id, node.name, node.jobId⟩

def edgeRow (fresh : FreshGraph) (id : Uuid) (edge : WorkflowEdge) : WorkflowCatalog.EdgeRow :=
  ⟨id, fresh.nodeId edge.source, fresh.nodeId edge.target, edge.condition⟩

section Save

variable {jobs : List ControlPlaneSchema.JobRow} {fresh : FreshGraph} {id namespaceId : Uuid}
  {definition : WorkflowDefinition} {g t : Graphs}

theorem insertNodes_rows {nodes : List WorkflowNode}
    (h : WorkflowCatalog.insertNodes jobs fresh id namespaceId nodes g = .ok t) :
    t = { g with nodes := g.nodes ++ nodes.map (nodeRow fresh id) } := by
  induction nodes generalizing g with
  | nil =>
    cases h
    rw [List.map_nil, List.append_nil]
  | cons node rest ih =>
    simp only [WorkflowCatalog.insertNodes] at h
    split at h
    · cases h
    split at h
    · cases h
    obtain ⟨g₁, hinsert, hrest⟩ := ok_of_bind h
    have hrow : g₁ = { g with nodes := g.nodes ++ [nodeRow fresh id node] } := by
      unfold WorkflowCatalog.insertNode at hinsert
      split at hinsert
      · cases hinsert
      split at hinsert
      · cases hinsert
      cases hinsert
      rfl
    rw [ih hrest, hrow, List.map_cons, List.append_assoc]
    rfl

theorem insertedId_ok {name : String} {found : Uuid}
    (h : WorkflowCatalog.insertedId fresh definition name = .ok found) :
    found = fresh.nodeId name ∧ ∃ node ∈ definition.nodes, node.name = name := by
  rw [WorkflowCatalog.insertedId] at h
  split at h
  · rename_i hany
    cases h
    exact ⟨rfl, by simpa using hany⟩
  · cases h

theorem insertEdges_rows {edges : List WorkflowEdge}
    (h : WorkflowCatalog.insertEdges fresh definition id edges g = .ok t) :
    t = { g with edges := g.edges ++ edges.map (edgeRow fresh id) } ∧
      ∀ edge ∈ edges, (∃ node ∈ definition.nodes, node.name = edge.source) ∧
        ∃ node ∈ definition.nodes, node.name = edge.target := by
  induction edges generalizing g with
  | nil =>
    cases h
    rw [List.map_nil, List.append_nil]
    exact ⟨rfl, nofun⟩
  | cons edge rest ih =>
    obtain ⟨source, hsource, h⟩ := ok_of_bind h
    obtain ⟨target, htarget, h⟩ := ok_of_bind h
    obtain ⟨g₁, hinsert, hrest⟩ := ok_of_bind h
    obtain ⟨rfl, hfirst⟩ := insertedId_ok hsource
    obtain ⟨rfl, hsecond⟩ := insertedId_ok htarget
    obtain ⟨htables, hends⟩ := ih hrest
    have hrow : g₁ = { g with edges := g.edges ++ [edgeRow fresh id edge] } := by
      unfold WorkflowCatalog.insertEdge at hinsert
      split at hinsert
      · cases hinsert
      split at hinsert
      · cases hinsert
      split at hinsert
      · cases hinsert
      cases hinsert
      rfl
    refine ⟨?_, List.forall_mem_cons.mpr ⟨⟨hfirst, hsecond⟩, hends⟩⟩
    rw [htables, hrow, List.map_cons, List.append_assoc]
    rfl

theorem storedNodes_definition (g : Graphs) (id : Uuid) :
    ((storedNodes g id).map fun node => (⟨node.name, node.jobId⟩ : WorkflowNode)) =
      ((g.nodes.filter fun n => n.workflowId = id).map
        fun n => (⟨n.name, n.jobId⟩ : WorkflowNode)).insertionSort fun a b => a.name ≤ b.name := by
  rw [storedNodes, List.map_map]
  exact List.map_insertionSort _ _ _ _ fun _ _ _ _ => Iff.rfl

/-- The rows of one definition, written after all others of its Workflow are gone, read back as
that definition in the order of its names. -/
theorem written_graph {g₀ : Graphs} (ht : Keyed t)
    (hnodes : t.nodes = (g₀.nodes.filter fun n => n.workflowId ≠ id) ++
      definition.nodes.map (nodeRow fresh id))
    (hedges : t.edges = (g₀.edges.filter fun e => e.workflowId ≠ id) ++
      definition.edges.map (edgeRow fresh id))
    (hends : ∀ edge ∈ definition.edges, (∃ node ∈ definition.nodes, node.name = edge.source) ∧
      ∃ node ∈ definition.nodes, node.name = edge.target) :
    ((storedNodes t id).map fun node => (⟨node.name, node.jobId⟩ : WorkflowNode)) =
        definition.nodes.insertionSort (fun a b => a.name ≤ b.name) ∧
      storedEdges t id = definition.edges.insertionSort edgeOrder := by
  have hname {name : String} (h : ∃ node ∈ definition.nodes, node.name = name) :
      nodeName t (fresh.nodeId name) = some name := by
    obtain ⟨node, hnode, rfl⟩ := h
    have hrow : nodeRow fresh id node ∈ t.nodes := by
      rw [hnodes]
      exact List.mem_append_right _ (List.mem_map_of_mem hnode)
    exact nodeName_of_mem ht hrow
  constructor
  · have hown : t.nodes.filter (fun n => n.workflowId = id) =
        definition.nodes.map (nodeRow fresh id) := by
      rw [hnodes]
      apply filter_replaced
      intro n hn
      obtain ⟨node, _, rfl⟩ := List.mem_map.mp hn
      rfl
    rw [storedNodes_definition, hown, List.map_map]
    congr 1
    exact List.map_id definition.nodes
  · have hown : t.edges.filter (fun e => e.workflowId = id) =
        definition.edges.map (edgeRow fresh id) := by
      rw [hedges]
      apply filter_replaced
      intro e he
      obtain ⟨edge, _, rfl⟩ := List.mem_map.mp he
      rfl
    rw [storedEdges, hown, List.filterMap_map]
    congr 1
    refine Eq.trans (List.filterMap_congr fun edge hedge => ?_) List.filterMap_some
    obtain ⟨hsource, htarget⟩ := hends edge hedge
    simp only [Function.comp_apply, WorkflowCatalog.namedEdge, edgeRow, hname hsource,
      hname htarget]
    rfl

/-- What a replacement wrote is what is returned next. -/
theorem replace_reads {revision : ℕ} {record : WorkflowRecord} (hs : Sound g)
    (h : write jobs fresh namespaceId (some (id, revision)) definition g = (.ok record, t)) :
    ∃ w, getWorkflow t id = .ok w ∧ w.name = definition.name ∧
      (savedRequest w).nodes = definition.nodes.insertionSort (fun a b => a.name ≤ b.name) ∧
      w.edges = definition.edges.insertionSort edgeOrder := by
  have ht : Keyed t := (hs.replace h).1.sound.toKeyed
  unfold write at h
  split at h
  · cases h
  cases htransaction : writeTransaction jobs fresh namespaceId (some (id, revision)) definition g
    with
  | error e =>
    rw [htransaction] at h
    cases h
  | ok result =>
    obtain ⟨record', t'⟩ := result
    rw [htransaction] at h
    cases h
    unfold writeTransaction at htransaction
    obtain ⟨⟨id', g₁⟩, hhead, h⟩ := ok_of_bind htransaction
    obtain ⟨g₀, hupdate, hhead⟩ := ok_of_bind hhead
    cases hhead
    obtain ⟨g₂, hnodes, h⟩ := ok_of_bind h
    obtain ⟨g₃, hedges, h⟩ := ok_of_bind h
    obtain ⟨stored, hread, h⟩ := ok_of_bind h
    obtain ⟨record', hrecord, h⟩ := ok_of_bind h
    split at h
    · cases h
    cases h
    obtain ⟨⟨v, hv, hid, hnamespace, hrevision⟩, rfl⟩ := WorkflowCatalog.updateWorkflow_ok hupdate
    have hrows := insertNodes_rows hnodes
    obtain ⟨htables, hends⟩ := insertEdges_rows hedges
    rw [hrows] at htables
    have hgraph := written_graph ht (by rw [htables]; rfl) (by rw [htables]; rfl) hends
    have hreturned : getWorkflow t id = .ok (resource stored) := by
      rw [getWorkflow, hread]
      exact workflowResource_of_record hrecord
    obtain ⟨row, hrow, hrowId, rfl⟩ := readCatalog_ok hread
    have hname : row.name = definition.name := by
      rw [htables] at hrow
      rcases update_cases hrow with ⟨hold, hnot⟩ | ⟨_, _, _, rfl⟩
      · have hsame : row = v := row_unique hs.workflows hold hv (hrowId.trans hid.symm)
        rw [hsame] at hnot
        simp [WorkflowCatalog.currentRevision, hid, hnamespace, hrevision] at hnot
      · rfl
    refine ⟨_, hreturned, hname, ?_, ?_⟩
    · rw [savedRequest, resource, List.map_map, ← hgraph.1, ← hrowId]
      rfl
    · rw [← hgraph.2, ← hrowId]
      rfl

/-- The nodes and the edges of a Workflow are returned in the order of their names. -/
theorem getWorkflow_sorted {w : WorkflowResource} (h : getWorkflow g id = .ok w) :
    (savedRequest w).nodes.insertionSort (fun a b => a.name ≤ b.name) = (savedRequest w).nodes ∧
      w.edges.insertionSort edgeOrder = w.edges := by
  obtain ⟨row, _, _, rfl, _⟩ := getWorkflow_ok h
  have hnodes : (savedRequest (resource (storedWorkflow g row))).nodes =
      ((g.nodes.filter fun n => n.workflowId = row.id).map
        fun n => (⟨n.name, n.jobId⟩ : WorkflowNode)).insertionSort fun a b => a.name ≤ b.name := by
    rw [← storedNodes_definition, savedRequest, resource, List.map_map]
    rfl
  have hnames : Std.Total fun a b : WorkflowNode => a.name ≤ b.name :=
    ⟨fun a b => le_total a.name b.name⟩
  have hnamesTrans : IsTrans WorkflowNode fun a b => a.name ≤ b.name :=
    ⟨fun _ _ _ => le_trans⟩
  have htotal : Std.Total edgeOrder := by
    refine ⟨fun a b => ?_⟩
    rcases lt_trichotomy a.source b.source with hlt | heq | hgt
    · exact .inl (.inl hlt)
    · rcases le_total a.target b.target with hle | hle
      · exact .inl (.inr ⟨heq, hle⟩)
      · exact .inr (.inr ⟨heq.symm, hle⟩)
    · exact .inr (.inl hgt)
  have htrans : IsTrans WorkflowEdge edgeOrder := by
    refine ⟨fun a b c hab hbc => ?_⟩
    rcases hab with hab | ⟨hab, hab'⟩
    · rcases hbc with hbc | ⟨hbc, _⟩
      · exact .inl (hab.trans hbc)
      · exact .inl (hbc ▸ hab)
    · rcases hbc with hbc | ⟨hbc, hbc'⟩
      · exact .inl (hab ▸ hbc)
      · exact .inr ⟨hab.trans hbc, hab'.trans hbc'⟩
  constructor
  · rw [hnodes]
    exact (List.pairwise_insertionSort _ _).insertionSort_eq
  · exact (List.pairwise_insertionSort edgeOrder _).insertionSort_eq

end Save

/-- A Workflow the server returns in some state of some run. -/
def Returned (w : WorkflowResource) : Prop :=
  ∃ s, OptimisticWrites.system.Reachable s ∧ ∃ id, getWorkflow s.graphs id = .ok w

def SameGraph (w v : WorkflowResource) : Prop :=
  v.name = w.name ∧ (savedRequest v).nodes = (savedRequest w).nodes ∧ v.edges = w.edges

theorem reachable_sound {s : OptimisticWrites.State} (h : OptimisticWrites.system.Reachable s) :
    Sound s.graphs := (OptimisticWrites.reachable_invariant h).sound

theorem Returned.valid {w : WorkflowResource} (h : Returned w) : Valid w := by
  obtain ⟨s, hs, id, hget⟩ := h
  exact getWorkflow_valid (reachable_sound hs).toKeyed hget

/-- Saving what was loaded, at the revision that was loaded, leaves the graph as it is. -/
theorem save_loaded {s : OptimisticWrites.State} (hs : OptimisticWrites.system.Reachable s)
    {id : Uuid} {w : WorkflowResource} (hget : getWorkflow s.graphs id = .ok w)
    {definition : WorkflowDefinition} (hdefinition : workflowDefinition (loadedRequest w) =
      .ok definition) (fresh : FreshGraph) : ∃ v, getWorkflow (OptimisticWrites.replaceOutcome s
        fresh w.namespaceId id w.revision definition).2 id = .ok v ∧ SameGraph w v := by
  have hsound := reachable_sound hs
  have hrequests := (getWorkflow_valid hsound.toKeyed hget).requests 0 fun _ => 0
  rw [hrequests.definition] at hdefinition
  cases hdefinition
  rcases hwrite : OptimisticWrites.replaceOutcome s fresh w.namespaceId id w.revision
      ⟨w.name, (loadedRequest w).description, (savedRequest w).nodes, w.edges⟩ with
    ⟨e | record, t⟩
  · have hsame : t = s.graphs := WorkflowCatalog.write_error hwrite
    refine ⟨w, ?_, rfl, rfl, rfl⟩
    change getWorkflow (OptimisticWrites.replaceOutcome s fresh w.namespaceId id w.revision
      ⟨w.name, (loadedRequest w).description, (savedRequest w).nodes, w.edges⟩).2 id = _
    rw [hwrite, hsame]
    exact hget
  · obtain ⟨v, hv, hname, hnodes, hedges⟩ := replace_reads hsound hwrite
    obtain ⟨hsortedNodes, hsortedEdges⟩ := getWorkflow_sorted hget
    refine ⟨v, ?_, hname, hnodes.trans hsortedNodes, hedges.trans hsortedEdges⟩
    change getWorkflow (OptimisticWrites.replaceOutcome s fresh w.namespaceId id w.revision
      ⟨w.name, (loadedRequest w).description, (savedRequest w).nodes, w.edges⟩).2 id = _
    rw [hwrite]
    exact hv

/-- A request of a draft joins the names its rows carry and leaves the server a cycle or a NUL to
find, and no dependency outlives its rows. A Workflow the server returns is requested as it was
loaded, unless its description is the empty text: that one is seen as changed. -/
theorem editor_agrees (quote : Char → String) :
    (∀ e, (system Returned).Reachable e →
      (∀ r, e.request quote = .ok r → List.Forall₂ (Joins e) e.edges r.edges ∧
        ∃ definition, workflowDefinition r = .ok definition ∧ OnlyCycleOrNul definition) ∧
      ∀ key, ∀ row ∈ (e.removeNode key).edges, ¬ row.Refers key) ∧
    (∀ e, ((system Returned).restrict Chosen).Reachable e → Attached e) ∧
    ∀ s, OptimisticWrites.system.Reachable s → ∀ id w, getWorkflow s.graphs id = .ok w →
      ∀ firstKey keys,
        let loaded := Editor.new firstKey keys (some w)
        loaded.request quote = .ok (loadedRequest w) ∧
          (loaded.request quote = .ok (savedRequest w) ↔ w.description ≠ some "") ∧
          (loaded.dirty quote = false ↔ w.description ≠ some "") ∧
          (∀ e : Editor, (e.replace keys w).request quote = loaded.request quote) ∧
          ∀ fresh definition, workflowDefinition (loadedRequest w) = .ok definition →
            ∃ v, getWorkflow (OptimisticWrites.replaceOutcome s fresh w.namespaceId id w.revision
              definition).2 id = .ok v ∧ SameGraph w v := by
  refine ⟨?_, fun e => reachable_attached, ?_⟩
  · intro e he
    have hkeys := reachable_keys (fun w hw => hw.valid.ids) he
    refine ⟨fun r hr => ?_, fun key row => removeNode_detaches⟩
    have hrequests := (request_iff hkeys).mp hr
    exact ⟨hrequests.joins, _, hrequests.definition, hrequests.onlyCycleOrNul⟩
  · intro s hs id w hget firstKey keys
    have hvalid := getWorkflow_valid (reachable_sound hs).toKeyed hget
    refine ⟨hvalid.request, ?_, hvalid.dirty, replace_request, ?_⟩
    · rw [hvalid.request, ← loadedRequest_saved]
      exact ⟨Except.ok.inj, congrArg Except.ok⟩
    · exact fun fresh definition hdefinition => save_loaded hs hget hdefinition fresh

def demoReturned : WorkflowResource :=
  ⟨50, 3, "nightly", none, 2, [⟨53, "a", 2⟩, ⟨54, "b", 2⟩], [⟨"a", "b", .success⟩]⟩

def demoRenamed : Editor :=
  WorkflowEditor.next (Editor.new 0 (fun i => i + 90) (some demoReturned)) (.renameNode 53 " c ")

theorem editor_agrees_demo :
    (Editor.new 0 (fun i => i + 90) (some demoReturned)).request String.singleton =
        .ok (savedRequest demoReturned) ∧
      ∃ r, demoRenamed.request String.singleton = .ok r ∧
        List.Forall₂ (Joins demoRenamed) demoRenamed.edges r.edges := by
  obtain ⟨hdrafts, _, hloads⟩ := editor_agrees String.singleton
  have hget : getWorkflow OptimisticWrites.demoReplaced.graphs 50 = .ok demoReturned := by
    decide +kernel
  obtain ⟨_, hsaved, _⟩ := hloads _ OptimisticWrites.demoReplaced_reachable 50 demoReturned hget 0
    fun i => i + 90
  have hrenamed : (system Returned).Reachable demoRenamed := by
    have hreturned : Returned demoReturned :=
      ⟨_, OptimisticWrites.demoReplaced_reachable, 50, hget⟩
    have hloaded : (system Returned).Reachable
        (Editor.new 0 (fun i => i + 90) (some demoReturned)) :=
      .initial ⟨0, fun i => i + 90, .inr ⟨_, hreturned, rfl⟩⟩
    exact hloaded.tail (e := .renameNode 53 " c ") ⟨trivial, rfl⟩
  have hok : demoRenamed.request String.singleton = .ok ⟨"nightly", none,
      [⟨"c", 2⟩, ⟨"b", 2⟩], [⟨"c", "b", .success⟩]⟩ := by decide +kernel
  exact ⟨hsaved.mpr nofun, _, hok, ((hdrafts demoRenamed hrenamed).1 _ hok).1⟩

def demoEmpty : OptimisticWrites.State :=
  OptimisticWrites.next OptimisticWrites.demoState
    (.create OptimisticWrites.demoGraph 3
      { OptimisticWrites.demoDefinition with description := some "" })

theorem demoEmpty_reachable : OptimisticWrites.system.Reachable demoEmpty := by
  refine (TransitionSystem.Reachable.initial OptimisticWrites.demoState_initial).tail
    (e := .create OptimisticWrites.demoGraph 3
      { OptimisticWrites.demoDefinition with description := some "" }) ⟨?_, rfl⟩
  intro d hd
  cases hd

/-- A Workflow with an empty description is loaded into a form that shows unsaved changes. -/
theorem empty_description_seen_as_changed :
    ¬ ∀ s, OptimisticWrites.system.Reachable s → ∀ id w, getWorkflow s.graphs id = .ok w →
      ∀ quote firstKey keys, (Editor.new firstKey keys (some w)).request quote =
        .ok (savedRequest w) ∧ (Editor.new firstKey keys (some w)).dirty quote = false := by
  intro hclaim
  have hget : getWorkflow demoEmpty.graphs 50 = .ok ⟨50, 3, "nightly", some "", 1,
      [⟨51, "a", 2⟩, ⟨52, "b", 2⟩], [⟨"a", "b", .success⟩]⟩ := by decide +kernel
  have hdirty : (Editor.new 0 (fun i => i + 90) (some ⟨50, 3, "nightly", some "", 1,
      [⟨51, "a", 2⟩, ⟨52, "b", 2⟩], [⟨"a", "b", .success⟩]⟩)).dirty String.singleton = true := by
    decide +kernel
  have hclean := (hclaim demoEmpty demoEmpty_reachable 50 _ hget String.singleton 0
    fun i => i + 90).2
  rw [hdirty] at hclean
  cases hclean

end EditedWorkflows
