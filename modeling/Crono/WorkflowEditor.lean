import Crono.ResourceNames
import Crono.TransitionSystem
import Crono.WorkflowValidation
import Mathlib.Logic.Function.Basic

/-! Drafts of the Workflow form. Dependencies are attached to rows, which keep their keys while
names change; a request resolves the keys to the names the rows carry by then. -/
namespace WorkflowEditor

open ArgumentTemplates (trim)
open FallibleLists
open ResourceNames RunDomain TextPatterns WorkflowDomain WorkflowValidation

structure JobRow where
  key : Uuid
  name : String
  job : Option Uuid
  deriving DecidableEq, Repr

def JobRow.empty (key : Uuid) : JobRow := ⟨key, "", none⟩

structure EdgeRow where
  key : Uuid
  source : Option Uuid
  target : Option Uuid
  condition : DependencyCondition
  deriving DecidableEq, Repr

def EdgeRow.empty (key : Uuid) : EdgeRow := ⟨key, none, none, .success⟩

structure WorkflowNodeResource where
  id : Uuid
  name : String
  jobId : Uuid
  deriving DecidableEq, Repr

structure WorkflowResource where
  id : Uuid
  namespaceId : Uuid
  name : String
  description : Option String
  revision : ℕ
  nodes : List WorkflowNodeResource
  edges : List WorkflowEdge
  deriving DecidableEq, Repr

structure CreateWorkflowRequest where
  name : String
  description : Option String
  nodes : List WorkflowNode
  edges : List WorkflowEdge
  deriving DecidableEq, Repr

structure Editor where
  editId : Option Uuid
  namespaceId : Option Uuid
  name : String
  description : String
  nodes : List JobRow
  edges : List EdgeRow
  revision : ℕ
  saved : Option CreateWorkflowRequest
  deriving DecidableEq, Repr

/-- The request that would leave a loaded Workflow as it is. -/
def savedRequest (w : WorkflowResource) : CreateWorkflowRequest :=
  ⟨w.name, w.description, w.nodes.map fun node => ⟨node.name, node.jobId⟩, w.edges⟩

def loadedNodes (w : WorkflowResource) : List JobRow :=
  w.nodes.map fun node => ⟨node.id, node.name, some node.jobId⟩

def rowKey (nodes : List JobRow) (name : String) : Option Uuid :=
  (nodes.find? fun node => node.name = name).map JobRow.key

def loadedEdges (keys : ℕ → Uuid) (w : WorkflowResource) : List EdgeRow :=
  w.edges.mapIdx fun i edge => ⟨keys i, rowKey (loadedNodes w) edge.source,
    rowKey (loadedNodes w) edge.target, edge.condition⟩

/-- `Editor::new`, with the keys it draws. -/
def Editor.new (firstKey : Uuid) (keys : ℕ → Uuid) (initial : Option WorkflowResource) : Editor :=
  { editId := initial.map WorkflowResource.id
    namespaceId := initial.map WorkflowResource.namespaceId
    name := initial.elim "" WorkflowResource.name
    description := (initial.bind WorkflowResource.description).getD ""
    nodes := initial.elim [JobRow.empty firstKey] loadedNodes
    edges := initial.elim [] (loadedEdges keys)
    revision := initial.elim 0 WorkflowResource.revision
    saved := initial.map savedRequest }

def Editor.replace (keys : ℕ → Uuid) (w : WorkflowResource) (e : Editor) : Editor :=
  let loaded := Editor.new 0 keys (some w)
  { e with
    nodes := loaded.nodes.map fun new =>
      match e.nodes.find? fun row => row.key = new.key with
      | some row => { row with name := new.name, job := new.job }
      | none => new
    namespaceId := loaded.namespaceId
    name := loaded.name
    description := loaded.description
    edges := loaded.edges
    revision := w.revision
    saved := loaded.saved }

def Editor.removeNode (key : Uuid) (e : Editor) : Editor :=
  { e with
    nodes := e.nodes.filter fun node => node.key ≠ key
    edges := e.edges.filter fun edge => edge.source ≠ some key && edge.target ≠ some key }

def Editor.clearJobs (e : Editor) : Editor :=
  { e with nodes := e.nodes.map fun row => { row with job := none } }

/-- `str::trim`. -/
def trimmed (value : String) : String := String.ofList (trim value.toList)

/-- `quote` is the debug form of a character. -/
def nameValidationMessage (quote : Char → String) (value : String) (required : Bool) :
    Option String :=
  if trimmed value = "" ∧ required = false then none
  else
    match validateResourceName (trimmed value) with
    | .ok () => none
    | .error e => some (e.message quote)

/-- The loop over the rows: the name each key stands for, and the nodes. -/
def requestNodes (quote : Char → String) : (names : Uuid → Option String) →
    (unique : List String) → List JobRow →
    Except String ((Uuid → Option String) × List WorkflowNode)
  | names, _, [] => .ok (names, [])
  | names, unique, row :: rows =>
    match nameValidationMessage quote (trimmed row.name) true with
    | some error => .error ("Job node name: " ++ error)
    | none =>
      if trimmed row.name ∈ unique then
        .error "Job node names must be unique within the Workflow."
      else
        match row.job with
        | none => .error "Choose an existing Job for every node."
        | some job => do
          let (names, nodes) ← requestNodes quote
            (Function.update names row.key (some (trimmed row.name)))
            (trimmed row.name :: unique) rows
          return (names, ⟨trimmed row.name, job⟩ :: nodes)

/-- The loop of `request_edges`. -/
def requestEdges (names : Uuid → Option String) : (pairs : List (String × String)) →
    List EdgeRow → Except String (List WorkflowEdge)
  | _, [] => .ok []
  | pairs, row :: rows =>
    match row.source.bind names with
    | none => .error "Choose a From Job for every dependency."
    | some source =>
      match row.target.bind names with
      | none => .error "Choose a To Job for every dependency."
      | some target =>
        if source = target then .error "A Job cannot depend on itself."
        else if (source, target) ∈ pairs then .error
          "These Jobs already have a dependency. Each From/To pair must be unique."
        else do
          let edges ← requestEdges names ((source, target) :: pairs) rows
          return ⟨source, target, row.condition⟩ :: edges

/-- Validate names, references, and obvious edge errors without checking cycles. -/
def Editor.request (quote : Char → String) (e : Editor) : Except String CreateWorkflowRequest :=
  match nameValidationMessage quote (trimmed e.name) true with
  | some error => .error error
  | none =>
    if e.namespaceId = none then .error "Select a Namespace."
    else if e.nodes = [] ∨ 64 < e.nodes.length then .error "Choose 1–64 Jobs for this Workflow."
    else do
      let (names, nodes) ← requestNodes quote (fun _ => none) [] e.nodes
      if 256 < e.edges.length then throw "A Workflow supports at most 256 dependencies."
      let edges ← requestEdges names [] e.edges
      if 500 < e.description.length then throw "Description must be at most 500 characters."
      return ⟨trimmed e.name, if e.description = "" then none else some e.description, nodes, edges⟩

/-- The form shows unsaved changes. -/
def Editor.dirty (quote : Char → String) (e : Editor) : Bool :=
  e.editId.isSome && (e.request quote).toOption ≠ e.saved

/-- `ResourceName::parse` of a trimmed text. -/
def parseName (value : String) : Except ResourceNameError String :=
  (validateResourceName (trimmed value)).map fun _ => trimmed value

/-- `WorkflowInput::definition`, up to the validation of the graph. -/
def workflowDefinition (r : CreateWorkflowRequest) :
    Except ResourceNameError WorkflowDefinition := do
  let name ← parseName r.name
  let nodes ← r.nodes.mapM fun node => do
    let name ← parseName node.name
    return (⟨name, node.jobId⟩ : WorkflowNode)
  let edges ← r.edges.mapM fun edge => do
    let source ← parseName edge.source
    let target ← parseName edge.target
    return (⟨source, target, edge.condition⟩ : WorkflowEdge)
  return ⟨name, r.description, nodes, edges⟩

theorem trimmed_trimmed (value : String) : trimmed (trimmed value) = trimmed value := by
  have hagain : trim (trim value.toList) = trim value.toList :=
    trimBy_of_tight (trimBy_tight whitespace value.toList)
  rw [trimmed, trimmed, String.toList_ofList, hagain]

theorem trimmed_valid {value : String} (h : validateResourceName value = .ok ()) :
    trimmed value = value := by
  have hmatches := validateResourceName_matches.mp (validateResourceName_ok.mp h)
  have htrim : trim value.toList = value.toList :=
    trimBy_of_tight (matches_namePattern_tight hmatches)
  rw [trimmed, htrim, String.ofList_toList]

theorem nameValidationMessage_none {quote : Char → String} {value : String} :
    nameValidationMessage quote value true = none ↔
      validateResourceName (trimmed value) = .ok () := by
  rw [nameValidationMessage, if_neg (by simp)]
  cases validateResourceName (trimmed value) with
  | ok _ => simp
  | error e => simp

theorem parseName_valid {value : String} (h : validateResourceName value = .ok ()) :
    parseName value = .ok value := by
  rw [parseName, trimmed_valid h, h]
  rfl

def rowName (rows : List JobRow) (key : Uuid) : Option String :=
  (rows.find? fun row => row.key = key).map fun row => trimmed row.name

def Submits (row : JobRow) (node : WorkflowNode) : Prop :=
  validateResourceName (trimmed row.name) = .ok () ∧ node.name = trimmed row.name ∧
    row.job = some node.jobId

def Resolves (names : Uuid → Option String) (row : EdgeRow) (edge : WorkflowEdge) : Prop :=
  row.source.bind names = some edge.source ∧ row.target.bind names = some edge.target ∧
    edge.source ≠ edge.target ∧ edge.condition = row.condition

theorem rowName_of_mem {rows : List JobRow} (hkeys : (rows.map JobRow.key).Nodup) {row : JobRow}
    (hrow : row ∈ rows) : rowName rows row.key = some (trimmed row.name) := by
  have hfind : (rows.find? fun other => other.key = row.key) = some row :=
    SqlTable.find?_key hkeys hrow
  rw [rowName, hfind]
  rfl

theorem rowName_some {rows : List JobRow} {key : Uuid} {name : String}
    (h : rowName rows key = some name) : ∃ row ∈ rows, row.key = key ∧ trimmed row.name = name := by
  obtain ⟨row, hfind, hname⟩ := Option.map_eq_some_iff.mp h
  have hkey : row.key = key := by simpa using List.find?_some hfind
  exact ⟨row, List.mem_of_find?_eq_some hfind, hkey, hname⟩

section Loops

variable {quote : Char → String} {names names' : Uuid → Option String} {unique : List String}
  {rows : List JobRow} {nodes : List WorkflowNode} {pairs : List (String × String)}
  {edgeRows : List EdgeRow} {edges : List WorkflowEdge}

theorem requestNodes_ok (h : requestNodes quote names unique rows = .ok (names', nodes)) :
    List.Forall₂ Submits rows nodes ∧ (nodes.map WorkflowNode.name).Nodup ∧
      ∀ node ∈ nodes, node.name ∉ unique := by
  induction rows generalizing names unique nodes with
  | nil =>
    cases h
    exact ⟨.nil, List.nodup_nil, nofun⟩
  | cons row rows ih =>
    rw [requestNodes] at h
    split at h
    · cases h
    rename_i hvalid
    split at h
    · cases h
    rename_i hfresh
    split at h
    · cases h
    rename_i job hjob
    obtain ⟨⟨found, rest⟩, hrest, h⟩ := ok_of_bind h
    cases h
    obtain ⟨hsubmits, hnodup, hunique⟩ := ih hrest
    rw [nameValidationMessage_none, trimmed_trimmed] at hvalid
    refine ⟨.cons ⟨hvalid, rfl, hjob⟩ hsubmits, ?_, ?_⟩
    · rw [List.map_cons, List.nodup_cons]
      refine ⟨fun hmem => ?_, hnodup⟩
      obtain ⟨node, hnode, hname⟩ := List.mem_map.mp hmem
      exact hunique node hnode (by rw [hname]; exact List.mem_cons_self)
    · intro node hnode
      rcases List.mem_cons.mp hnode with rfl | hnode
      · exact hfresh
      · exact fun hmem => hunique node hnode (List.mem_cons_of_mem _ hmem)

/-- Different keys stand for the names of their rows. -/
theorem requestNodes_names (h : requestNodes quote names unique rows = .ok (names', nodes))
    (hkeys : (rows.map JobRow.key).Nodup) :
    names' = fun key => (rowName rows key).or (names key) := by
  induction rows generalizing names unique nodes with
  | nil =>
    cases h
    rfl
  | cons row rows ih =>
    rw [requestNodes] at h
    split at h
    · cases h
    split at h
    · cases h
    split at h
    · cases h
    obtain ⟨⟨found, rest⟩, hrest, h⟩ := ok_of_bind h
    cases h
    rw [List.map_cons, List.nodup_cons] at hkeys
    rw [ih hrest hkeys.2]
    funext key
    by_cases hsame : row.key = key
    · subst hsame
      have hnone : rowName rows row.key = none := by
        cases hname : rowName rows row.key with
        | none => rfl
        | some name =>
          obtain ⟨other, hother, hkey, _⟩ := rowName_some hname
          exact absurd (hkey ▸ List.mem_map_of_mem hother) hkeys.1
      rw [hnone, Function.update_self]
      simp [rowName]
    · rw [Function.update_of_ne (Ne.symm hsame)]
      simp [rowName, hsame]

theorem requestNodes_complete (h : List.Forall₂ Submits rows nodes)
    (hnodup : (nodes.map WorkflowNode.name).Nodup) (hunique : ∀ node ∈ nodes, node.name ∉ unique) :
    ∃ names', requestNodes quote names unique rows = .ok (names', nodes) := by
  induction h generalizing names unique with
  | nil => exact ⟨names, rfl⟩
  | @cons row node rows nodes hrow _ ih =>
    obtain ⟨hvalid, hname, hjob⟩ := hrow
    rw [List.map_cons, List.nodup_cons] at hnodup
    have hfresh : trimmed row.name ∉ unique := hname ▸ hunique node List.mem_cons_self
    have hrest : ∀ other ∈ nodes, other.name ∉ trimmed row.name :: unique := by
      intro other hother hmem
      rcases List.mem_cons.mp hmem with hsame | hmem
      · exact hnodup.1 (hname ▸ hsame ▸ List.mem_map_of_mem hother)
      · exact hunique other (List.mem_cons_of_mem node hother) hmem
    obtain ⟨names', hnames'⟩ := @ih (Function.update names row.key (some (trimmed row.name)))
      (trimmed row.name :: unique) hnodup.2 hrest
    have hmessage : nameValidationMessage quote (trimmed row.name) true = none := by
      rw [nameValidationMessage_none, trimmed_trimmed]
      exact hvalid
    refine ⟨names', ?_⟩
    rw [requestNodes, hmessage]
    dsimp only
    rw [if_neg hfresh, hjob]
    dsimp only
    rw [hnames', ← hname]
    rfl

theorem requestEdges_cons (pairs : List (String × String)) (row : EdgeRow) (rows : List EdgeRow) :
    requestEdges names pairs (row :: rows) =
      match row.source.bind names with
      | none => .error "Choose a From Job for every dependency."
      | some source =>
        match row.target.bind names with
        | none => .error "Choose a To Job for every dependency."
        | some target =>
          if source = target then .error "A Job cannot depend on itself."
          else if (source, target) ∈ pairs then .error
            "These Jobs already have a dependency. Each From/To pair must be unique."
          else do
            let edges ← requestEdges names ((source, target) :: pairs) rows
            return ⟨source, target, row.condition⟩ :: edges := rfl

theorem requestEdges_ok (h : requestEdges names pairs edgeRows = .ok edges) :
    List.Forall₂ (Resolves names) edgeRows edges ∧
      (edges.map fun e => (e.source, e.target)).Nodup ∧
      ∀ e ∈ edges, (e.source, e.target) ∉ pairs := by
  induction edgeRows generalizing pairs edges with
  | nil =>
    cases h
    exact ⟨.nil, List.nodup_nil, nofun⟩
  | cons row rows ih =>
    rw [requestEdges_cons] at h
    split at h
    · cases h
    rename_i source hsource
    split at h
    · cases h
    rename_i target htarget
    split at h
    · cases h
    rename_i hdistinct
    split at h
    · cases h
    rename_i hfresh
    obtain ⟨rest, hrest, h⟩ := ok_of_bind h
    cases h
    obtain ⟨hresolves, hnodup, hpairs⟩ := ih hrest
    refine ⟨.cons ⟨hsource, htarget, hdistinct, rfl⟩ hresolves, ?_, ?_⟩
    · rw [List.map_cons, List.nodup_cons]
      refine ⟨fun hmem => ?_, hnodup⟩
      obtain ⟨e, he, hpair⟩ := List.mem_map.mp hmem
      exact hpairs e he (by rw [hpair]; exact List.mem_cons_self)
    · intro e he
      rcases List.mem_cons.mp he with rfl | he
      · exact hfresh
      · exact fun hmem => hpairs e he (List.mem_cons_of_mem _ hmem)

theorem requestEdges_complete (h : List.Forall₂ (Resolves names) edgeRows edges)
    (hnodup : (edges.map fun e => (e.source, e.target)).Nodup)
    (hpairs : ∀ e ∈ edges, (e.source, e.target) ∉ pairs) :
    requestEdges names pairs edgeRows = .ok edges := by
  induction h generalizing pairs with
  | nil => rfl
  | @cons row edge rows edges hrow _ ih =>
    obtain ⟨hsource, htarget, hdistinct, hcondition⟩ := hrow
    rw [List.map_cons, List.nodup_cons] at hnodup
    have hrest : ∀ e ∈ edges, (e.source, e.target) ∉ (edge.source, edge.target) :: pairs := by
      intro e he hmem
      rcases List.mem_cons.mp hmem with hsame | hmem
      · exact hnodup.1 (hsame ▸ List.mem_map_of_mem (f := fun e => (e.source, e.target)) he)
      · exact hpairs e (List.mem_cons_of_mem edge he) hmem
    rw [requestEdges_cons, hsource, htarget]
    dsimp only
    rw [if_neg hdistinct, if_neg (hpairs edge List.mem_cons_self), ih hnodup.2 hrest, ← hcondition]
    rfl

end Loops

structure Requests (e : Editor) (r : CreateWorkflowRequest) : Prop where
  name : validateResourceName r.name = .ok () ∧ r.name = trimmed e.name
  namespaceId : e.namespaceId ≠ none
  bounds : 1 ≤ r.nodes.length ∧ r.nodes.length ≤ 64 ∧ r.edges.length ≤ 256
  description : e.description.length ≤ 500 ∧
    r.description = if e.description = "" then none else some e.description
  nodes : List.Forall₂ Submits e.nodes r.nodes
  unique : (r.nodes.map WorkflowNode.name).Nodup
  edges : List.Forall₂ (Resolves (rowName e.nodes)) e.edges r.edges
  pairs : (r.edges.map fun e => (e.source, e.target)).Nodup

theorem requestNodes_rowName {quote : Char → String} {e : Editor} {names : Uuid → Option String}
    {nodes : List WorkflowNode} (hkeys : (e.nodes.map JobRow.key).Nodup)
    (h : requestNodes quote (fun _ => none) [] e.nodes = .ok (names, nodes)) :
    names = rowName e.nodes := by
  rw [requestNodes_names h hkeys]
  funext key
  exact Option.or_none

theorem request_ok {quote : Char → String} {e : Editor} {r : CreateWorkflowRequest}
    (hkeys : (e.nodes.map JobRow.key).Nodup) (h : e.request quote = .ok r) : Requests e r := by
  rw [Editor.request] at h
  split at h
  · cases h
  rename_i hname
  split at h
  · cases h
  rename_i hnamespace
  split at h
  · cases h
  rename_i hbounds
  obtain ⟨⟨names, nodes⟩, hnodes, h⟩ := ok_of_bind h
  dsimp only at h
  split at h
  · cases h
  rename_i hfew
  obtain ⟨edges, hedges, h⟩ := ok_of_bind h
  split at h
  · cases h
  rename_i hshort
  cases h
  obtain ⟨hsubmits, hunique, _⟩ := requestNodes_ok hnodes
  obtain ⟨hresolves, hpairs, _⟩ := requestEdges_ok hedges
  rw [nameValidationMessage_none, trimmed_trimmed] at hname
  rw [requestNodes_rowName hkeys hnodes] at hresolves
  simp only [not_or, Nat.not_lt] at hbounds
  refine ⟨⟨hname, rfl⟩, hnamespace, ?_, ⟨Nat.not_lt.mp hshort, rfl⟩, hsubmits, hunique,
    hresolves, hpairs⟩
  rw [← hsubmits.length_eq, ← hresolves.length_eq]
  exact ⟨List.length_pos_of_ne_nil hbounds.1, hbounds.2, Nat.not_lt.mp hfew⟩

theorem request_complete {quote : Char → String} {e : Editor} {r : CreateWorkflowRequest}
    (hkeys : (e.nodes.map JobRow.key).Nodup) (h : Requests e r) : e.request quote = .ok r := by
  obtain ⟨hvalid, hname⟩ := h.name
  obtain ⟨hpositive, hmany, hfew⟩ := h.bounds
  obtain ⟨hshort, hdescription⟩ := h.description
  obtain ⟨names, hnodes⟩ := @requestNodes_complete quote (fun _ => none) [] _ _ h.nodes h.unique
    fun _ _ => List.not_mem_nil
  have hedges := @requestEdges_complete _ [] _ _ h.edges h.pairs fun _ _ => List.not_mem_nil
  have hmessage : nameValidationMessage quote (trimmed e.name) true = none := by
    rw [nameValidationMessage_none, trimmed_trimmed, ← hname]
    exact hvalid
  rw [← h.nodes.length_eq] at hpositive hmany
  rw [← h.edges.length_eq] at hfew
  have hbounds : ¬ (e.nodes = [] ∨ 64 < e.nodes.length) := by
    rintro (hnil | hlong)
    · rw [hnil] at hpositive
      exact absurd hpositive (by decide)
    · exact absurd hmany (Nat.not_le.mpr hlong)
  rw [Editor.request, hmessage]
  dsimp only
  rw [if_neg h.namespaceId, if_neg hbounds, hnodes]
  change (if 256 < e.edges.length then _ else _) = _
  rw [if_neg (Nat.not_lt.mpr hfew), requestNodes_rowName hkeys hnodes, hedges]
  change (if 500 < e.description.length then _ else _) = _
  rw [if_neg (Nat.not_lt.mpr hshort), ← hname, ← hdescription]
  rfl

theorem request_iff {quote : Char → String} {e : Editor} {r : CreateWorkflowRequest}
    (hkeys : (e.nodes.map JobRow.key).Nodup) : e.request quote = .ok r ↔ Requests e r :=
  ⟨request_ok hkeys, request_complete hkeys⟩

section Server

variable {e : Editor} {r : CreateWorkflowRequest}

theorem workflowDefinition_eq (hname : validateResourceName r.name = .ok ())
    (hnodes : ∀ node ∈ r.nodes, validateResourceName node.name = .ok ())
    (hedges : ∀ edge ∈ r.edges, (∃ node ∈ r.nodes, node.name = edge.source) ∧
      ∃ node ∈ r.nodes, node.name = edge.target) :
    workflowDefinition r = .ok ⟨r.name, r.description, r.nodes, r.edges⟩ := by
  have hend {name : String} (h : ∃ node ∈ r.nodes, node.name = name) :
      parseName name = .ok name := by
    obtain ⟨node, hnode, rfl⟩ := h
    exact parseName_valid (hnodes node hnode)
  have hnodes' : (r.nodes.mapM fun node => do
      let name ← parseName node.name
      return (⟨name, node.jobId⟩ : WorkflowNode)) = .ok r.nodes := by
    refine FallibleLists.mapM_ok_iff.mpr (List.forall₂_same.mpr fun node hnode => ?_)
    rw [parseName_valid (hnodes node hnode)]
    rfl
  have hedges' : (r.edges.mapM fun edge => do
      let source ← parseName edge.source
      let target ← parseName edge.target
      return (⟨source, target, edge.condition⟩ : WorkflowEdge)) = .ok r.edges := by
    refine FallibleLists.mapM_ok_iff.mpr (List.forall₂_same.mpr fun edge hedge => ?_)
    rw [hend (hedges edge hedge).1, hend (hedges edge hedge).2]
    rfl
  rw [workflowDefinition, parseName_valid hname, hnodes', hedges']
  rfl

theorem Requests.node_of_row (h : Requests e r) {row : JobRow} (hrow : row ∈ e.nodes) :
    ∃ node ∈ r.nodes, node.name = trimmed row.name := by
  obtain ⟨i, hi, rfl⟩ := List.getElem_of_mem hrow
  have hlt : i < r.nodes.length := by rw [← h.nodes.length_eq]; exact hi
  have hsubmits := (List.forall₂_iff_get.mp h.nodes).2 i hi hlt
  exact ⟨r.nodes[i], List.getElem_mem hlt, hsubmits.2.1⟩

/-- The rows an edge of the request was attached to. -/
def Joins (e : Editor) (row : EdgeRow) (edge : WorkflowEdge) : Prop :=
  ∃ a ∈ e.nodes, ∃ b ∈ e.nodes, row.source = some a.key ∧ row.target = some b.key ∧
    edge = ⟨trimmed a.name, trimmed b.name, row.condition⟩

theorem Resolves.joins {row : EdgeRow} {edge : WorkflowEdge}
    (h : Resolves (rowName e.nodes) row edge) : Joins e row edge := by
  obtain ⟨source, target, condition⟩ := edge
  obtain ⟨hsource, htarget, _, hcondition⟩ := h
  obtain ⟨first, hfirst, hsource⟩ := Option.bind_eq_some_iff.mp hsource
  obtain ⟨second, hsecond, htarget⟩ := Option.bind_eq_some_iff.mp htarget
  obtain ⟨a, ha, rfl, rfl⟩ := rowName_some hsource
  obtain ⟨b, hb, rfl, rfl⟩ := rowName_some htarget
  cases hcondition
  exact ⟨a, ha, b, hb, hfirst, hsecond, rfl⟩

theorem Requests.joins (h : Requests e r) : List.Forall₂ (Joins e) e.edges r.edges :=
  h.edges.imp fun _ _ => Resolves.joins

theorem Requests.endpoints (h : Requests e r) : ∀ edge ∈ r.edges,
    edge.source ≠ edge.target ∧ (∃ node ∈ r.nodes, node.name = edge.source) ∧
      ∃ node ∈ r.nodes, node.name = edge.target := by
  intro edge hedge
  obtain ⟨i, hi, rfl⟩ := List.getElem_of_mem hedge
  have hlt : i < e.edges.length := by rw [h.edges.length_eq]; exact hi
  have hresolves := (List.forall₂_iff_get.mp h.edges).2 i hlt hi
  obtain ⟨a, ha, b, hb, _, _, hedge⟩ := hresolves.joins
  simp only [List.get_eq_getElem] at hresolves hedge
  refine ⟨hresolves.2.2.1, ?_, ?_⟩
  · rw [hedge]
    exact h.node_of_row ha
  · rw [hedge]
    exact h.node_of_row hb

theorem Requests.definition (h : Requests e r) :
    workflowDefinition r = .ok ⟨r.name, r.description, r.nodes, r.edges⟩ := by
  refine workflowDefinition_eq h.name.1 ?_ fun edge hedge => (h.endpoints edge hedge).2
  intro node hnode
  obtain ⟨i, hi, rfl⟩ := List.getElem_of_mem hnode
  have hlt : i < e.nodes.length := by rw [h.nodes.length_eq]; exact hi
  obtain ⟨hvalid, hname, _⟩ := (List.forall₂_iff_get.mp h.nodes).2 i hlt hi
  simp only [List.get_eq_getElem] at hname
  rw [hname]
  exact hvalid

/-- All that is left for the server to find: a directed cycle, or a NUL in the description. -/
def OnlyCycleOrNul (d : WorkflowDefinition) : Prop :=
  ∀ error, d.validate = .error error → (error = .cycle ∧ ¬ Acyclic d.edges) ∨
    (error = .description ∧ ∃ text, d.description = some text ∧ '\x00' ∈ text.toList)

theorem Requests.onlyCycleOrNul (h : Requests e r) :
    OnlyCycleOrNul ⟨r.name, r.description, r.nodes, r.edges⟩ := by
  obtain ⟨hpositive, hmany, hfew⟩ := h.bounds
  intro error herror
  by_cases hnul : ∃ text, r.description = some text ∧ '\x00' ∈ text.toList
  · right
    refine ⟨?_, hnul⟩
    obtain ⟨text, htext, hmem⟩ := hnul
    have hbounds : ¬ (r.nodes = [] ∨ 64 < r.nodes.length ∨ 256 < r.edges.length) := by
      rintro (hnil | hlong | hlong)
      · rw [hnil] at hpositive
        exact absurd hpositive (by decide)
      · exact absurd hmany (Nat.not_le.mpr hlong)
      · exact absurd hfew (Nat.not_le.mpr hlong)
    unfold WorkflowDefinition.validate at herror
    rw [if_neg hbounds, if_pos (by simp [htext, hmem])] at herror
    cases herror
    rfl
  · left
    push Not at hnul
    have hdescription : ∀ text, r.description = some text →
        '\x00' ∉ text.toList ∧ text.length ≤ 500 := by
      intro text htext
      refine ⟨hnul text htext, ?_⟩
      rw [h.description.2] at htext
      split at htext
      · cases htext
      · cases htext
        exact h.description.1
    have hwellFormed : WellFormed ⟨r.name, r.description, r.nodes, r.edges⟩ :=
      ⟨⟨hpositive, hmany⟩, hfew, hdescription, h.unique, h.endpoints, h.pairs⟩
    obtain ⟨hok, hcycle⟩ := validate_acyclic_iff hwellFormed
    by_cases hacyclic : Acyclic r.edges
    · rw [hok.mpr hacyclic] at herror
      cases herror
    · rw [hcycle.mpr hacyclic] at herror
      cases herror
      exact ⟨rfl, hacyclic⟩

end Server

inductive Operation where
  | setName (name : String)
  | setDescription (description : String)
  | selectNamespace (namespaceId : Option Uuid)
  | clearJobs
  | addJob (key : Uuid)
  | renameNode (key : Uuid) (name : String)
  | chooseJob (key : Uuid) (job : Option Uuid)
  | removeNode (key : Uuid)
  | addDependency (key : Uuid)
  | setSource (key : Uuid) (source : Option Uuid)
  | setTarget (key : Uuid) (target : Option Uuid)
  | setCondition (key : Uuid) (condition : DependencyCondition)
  | removeDependency (key : Uuid)
  | replace (keys : ℕ → Uuid) (w : WorkflowResource)
  | saved (request : CreateWorkflowRequest) (revision : ℕ) (firstKey : Uuid)

def setRow (key : Uuid) (f : JobRow → JobRow) (e : Editor) : Editor :=
  { e with nodes := e.nodes.map fun row => if row.key = key then f row else row }

def setEdge (key : Uuid) (f : EdgeRow → EdgeRow) (e : Editor) : Editor :=
  { e with edges := e.edges.map fun row => if row.key = key then f row else row }

/-- What the form does after its request is saved; a new draft starts over. -/
def Editor.afterSave (request : CreateWorkflowRequest) (revision : ℕ) (firstKey : Uuid)
    (e : Editor) : Editor :=
  let e := { e with revision := revision, saved := some request }
  if e.editId = none then
    { e with name := "", description := "", nodes := [JobRow.empty firstKey], edges := [] }
  else e

def next (e : Editor) : Operation → Editor
  | .setName name => { e with name := name }
  | .setDescription description => { e with description := description }
  | .selectNamespace namespaceId => { e with namespaceId := namespaceId }
  | .clearJobs => e.clearJobs
  | .addJob key => { e with nodes := e.nodes ++ [JobRow.empty key] }
  | .renameNode key name => setRow key (fun row => { row with name := name }) e
  | .chooseJob key job => setRow key (fun row => { row with job := job }) e
  | .removeNode key => e.removeNode key
  | .addDependency key => { e with edges := e.edges ++ [EdgeRow.empty key] }
  | .setSource key source => setEdge key (fun row => { row with source := source }) e
  | .setTarget key target => setEdge key (fun row => { row with target := target }) e
  | .setCondition key condition => setEdge key (fun row => { row with condition := condition }) e
  | .removeDependency key => { e with edges := e.edges.filter fun row => row.key ≠ key }
  | .replace keys w => e.replace keys w
  | .saved request revision firstKey => e.afterSave request revision firstKey

/-- A new row has a new key, and only what the server returned is loaded. -/
def Enabled (served : WorkflowResource → Prop) (e : Editor) : Operation → Prop
  | .addJob key => ∀ row ∈ e.nodes, row.key ≠ key
  | .replace _ w => served w
  | _ => True

def system (served : WorkflowResource → Prop) : TransitionSystem Editor Operation where
  initial e := ∃ firstKey keys, e = Editor.new firstKey keys none ∨
    ∃ w, served w ∧ e = Editor.new firstKey keys (some w)
  Enabled := Enabled served
  next := next

section Drafts

variable {served : WorkflowResource → Prop} {e : Editor}

theorem loadedNodes_keys (w : WorkflowResource) :
    (loadedNodes w).map JobRow.key = w.nodes.map WorkflowNodeResource.id := by
  rw [loadedNodes, List.map_map]
  rfl

theorem setRow_keys {key : Uuid} {f : JobRow → JobRow} (hf : ∀ row, (f row).key = row.key)
    (e : Editor) : (setRow key f e).nodes.map JobRow.key = e.nodes.map JobRow.key := by
  rw [setRow, List.map_map]
  apply List.map_congr_left
  intro row _
  simp only [Function.comp_apply]
  split
  · exact hf row
  · rfl

theorem clearJobs_keys (e : Editor) :
    e.clearJobs.nodes.map JobRow.key = e.nodes.map JobRow.key := by
  rw [Editor.clearJobs, List.map_map]
  rfl

theorem replace_keys (keys : ℕ → Uuid) (w : WorkflowResource) (e : Editor) :
    (e.replace keys w).nodes.map JobRow.key = w.nodes.map WorkflowNodeResource.id := by
  rw [← loadedNodes_keys, Editor.replace, List.map_map]
  apply List.map_congr_left
  intro new _
  simp only [Function.comp_apply]
  split
  · rename_i row hfind
    simpa using List.find?_some hfind
  · rfl

theorem next_keys (hserved : ∀ w, served w → (w.nodes.map WorkflowNodeResource.id).Nodup)
    (hkeys : (e.nodes.map JobRow.key).Nodup) {op : Operation} (henabled : Enabled served e op) :
    ((next e op).nodes.map JobRow.key).Nodup := by
  cases op with
  | addJob key =>
    change ((e.nodes ++ [JobRow.empty key]).map JobRow.key).Nodup
    rw [List.map_append, List.nodup_append]
    refine ⟨hkeys, List.nodup_singleton _, ?_⟩
    intro a ha b hb hab
    obtain ⟨row, hrow, rfl⟩ := List.mem_map.mp ha
    rw [List.map_singleton, List.mem_singleton] at hb
    exact henabled row hrow (hab.trans hb)
  | renameNode key name =>
    have hsame := @setRow_keys key (fun row => { row with name := name }) (fun _ => rfl) e
    exact hsame ▸ hkeys
  | chooseJob key job =>
    have hsame := @setRow_keys key (fun row => { row with job := job }) (fun _ => rfl) e
    exact hsame ▸ hkeys
  | clearJobs => exact clearJobs_keys e ▸ hkeys
  | removeNode key => exact hkeys.sublist (List.filter_sublist.map _)
  | replace keys w =>
    change ((e.replace keys w).nodes.map JobRow.key).Nodup
    rw [replace_keys]
    exact hserved w henabled
  | saved request revision firstKey =>
    change ((e.afterSave request revision firstKey).nodes.map JobRow.key).Nodup
    rw [Editor.afterSave]
    split
    · exact List.nodup_singleton _
    · exact hkeys
  | _ => exact hkeys

/-- The keys of the rows differ in every draft. -/
theorem reachable_keys (hserved : ∀ w, served w → (w.nodes.map WorkflowNodeResource.id).Nodup)
    (h : (system served).Reachable e) : (e.nodes.map JobRow.key).Nodup := by
  refine h.invariant (P := fun e => (e.nodes.map JobRow.key).Nodup) ?_ ?_
  · rintro _ ⟨firstKey, keys, rfl | ⟨w, hw, rfl⟩⟩
    · exact List.nodup_singleton _
    · rw [show (Editor.new firstKey keys (some w)).nodes = loadedNodes w from rfl, loadedNodes_keys]
      exact hserved w hw
  · rintro e op t hkeys ⟨henabled, rfl⟩
    exact next_keys hserved hkeys henabled

/-- The row is attached to the row of a Job. -/
def EdgeRow.Refers (row : EdgeRow) (key : Uuid) : Prop :=
  row.source = some key ∨ row.target = some key

theorem removeNode_detaches {key : Uuid} {row : EdgeRow} (h : row ∈ (e.removeNode key).edges) :
    ¬ row.Refers key := by
  obtain ⟨_, hkept⟩ := List.mem_filter.mp h
  rw [Bool.and_eq_true, decide_eq_true_eq, decide_eq_true_eq] at hkept
  rintro (hsource | htarget)
  · exact hkept.1 hsource
  · exact hkept.2 htarget

/-- Endpoints are chosen among the rows of the form. -/
def Chosen (e : Editor) : Operation → Prop
  | .setSource _ endpoint | .setTarget _ endpoint =>
      ∀ key, endpoint = some key → key ∈ e.nodes.map JobRow.key
  | _ => True

/-- Every dependency is attached to rows of the draft. -/
def Attached (e : Editor) : Prop :=
  ∀ row ∈ e.edges, ∀ key, row.Refers key → key ∈ e.nodes.map JobRow.key

theorem Attached.of_keys {t : Editor} (h : Attached e) (hedges : ∀ row ∈ t.edges, row ∈ e.edges)
    (hkeys : ∀ key ∈ e.nodes.map JobRow.key, key ∈ t.nodes.map JobRow.key) : Attached t :=
  fun row hrow key hrefers => hkeys key (h row (hedges row hrow) key hrefers)

theorem rowKey_mem {nodes : List JobRow} {name : String} {key : Uuid}
    (h : rowKey nodes name = some key) : key ∈ nodes.map JobRow.key := by
  obtain ⟨row, hfind, rfl⟩ := Option.map_eq_some_iff.mp h
  exact List.mem_map_of_mem (List.mem_of_find?_eq_some hfind)

theorem loadedEdges_attached {keys : ℕ → Uuid} {w : WorkflowResource} {row : EdgeRow}
    (hrow : row ∈ loadedEdges keys w) {key : Uuid} (h : row.Refers key) :
    key ∈ w.nodes.map WorkflowNodeResource.id := by
  obtain ⟨i, hi, rfl⟩ := List.mem_mapIdx.mp hrow
  rw [← loadedNodes_keys]
  rcases h with hsource | htarget
  · exact rowKey_mem hsource
  · exact rowKey_mem htarget

theorem setEdge_attached {edge : Uuid} {f : EdgeRow → EdgeRow} (h : Attached e)
    (hf : ∀ row ∈ e.edges, ∀ key, (f row).Refers key → key ∈ e.nodes.map JobRow.key) :
    Attached (setEdge edge f e) := by
  intro row hrow key hrefers
  obtain ⟨old, hold, rfl⟩ := List.mem_map.mp hrow
  split at hrefers
  · exact hf old hold key hrefers
  · exact h old hold key hrefers

theorem removeNode_attached (h : Attached e) (key : Uuid) : Attached (e.removeNode key) := by
  intro row hrow other hrefers
  have hne : other ≠ key := by
    rintro rfl
    exact removeNode_detaches hrow hrefers
  obtain ⟨node, hnode, rfl⟩ := List.mem_map.mp (h row (List.mem_of_mem_filter hrow) other hrefers)
  exact List.mem_map_of_mem (List.mem_filter.mpr ⟨hnode, by simpa using hne⟩)

theorem addDependency_attached (h : Attached e) (key : Uuid) :
    Attached { e with edges := e.edges ++ [EdgeRow.empty key] } := by
  intro row hrow other hrefers
  rcases List.mem_append.mp hrow with hrow | hrow
  · exact h row hrow other hrefers
  · rw [List.mem_singleton.mp hrow] at hrefers
    rcases hrefers with hsource | htarget
    · cases hsource
    · cases htarget

theorem replace_attached (keys : ℕ → Uuid) (w : WorkflowResource) (e : Editor) :
    Attached (e.replace keys w) := by
  intro row hrow other hrefers
  rw [replace_keys]
  exact loadedEdges_attached hrow hrefers

theorem next_attached (h : Attached e) {op : Operation} (hchosen : Chosen e op) :
    Attached (next e op) := by
  have hsame {t : Editor} (hedges : t.edges = e.edges)
      (hkeys : t.nodes.map JobRow.key = e.nodes.map JobRow.key) : Attached t :=
    h.of_keys (fun _ hrow => hedges ▸ hrow) fun _ hkey => hkeys ▸ hkey
  cases op with
  | addJob key =>
    refine h.of_keys (fun _ hrow => hrow) fun key hkey => ?_
    change key ∈ (e.nodes ++ [JobRow.empty _]).map JobRow.key
    rw [List.map_append]
    exact List.mem_append_left _ hkey
  | renameNode key name =>
    exact hsame rfl (@setRow_keys key (fun row => { row with name := name }) (fun _ => rfl) e)
  | chooseJob key job =>
    exact hsame rfl (@setRow_keys key (fun row => { row with job := job }) (fun _ => rfl) e)
  | clearJobs => exact hsame rfl (clearJobs_keys e)
  | removeNode key => exact removeNode_attached h key
  | addDependency key => exact addDependency_attached h key
  | setSource key source =>
    refine setEdge_attached h fun row hrow other hrefers => ?_
    rcases hrefers with hsource | htarget
    · exact hchosen other hsource
    · exact h row hrow other (.inr htarget)
  | setTarget key target =>
    refine setEdge_attached h fun row hrow other hrefers => ?_
    rcases hrefers with hsource | htarget
    · exact h row hrow other (.inl hsource)
    · exact hchosen other htarget
  | setCondition key condition =>
    exact setEdge_attached h fun row hrow other hrefers => h row hrow other hrefers
  | removeDependency key =>
    exact h.of_keys (fun _ hrow => List.mem_of_mem_filter hrow) fun _ hkey => hkey
  | replace keys w => exact replace_attached keys w e
  | saved request revision firstKey =>
    change Attached (e.afterSave request revision firstKey)
    rw [Editor.afterSave]
    split
    · exact fun row hrow => absurd hrow List.not_mem_nil
    · exact h
  | _ => exact h

/-- No dependency of the form is left attached to a row that is gone. -/
theorem reachable_attached (h : ((system served).restrict Chosen).Reachable e) : Attached e := by
  refine h.invariant ?_ ?_
  · rintro _ ⟨firstKey, keys, rfl | ⟨w, _, rfl⟩⟩
    · exact fun row hrow => absurd hrow List.not_mem_nil
    · intro row hrow key hrefers
      change key ∈ (loadedNodes w).map JobRow.key
      rw [loadedNodes_keys]
      exact loadedEdges_attached hrow hrefers
  · rintro e op t hattached ⟨⟨_, hchosen⟩, rfl⟩
    exact next_attached hattached hchosen

end Drafts

end WorkflowEditor
