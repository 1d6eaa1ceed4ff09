import Crono.RunDomain
import Mathlib.Data.List.Sort

/-! Workflow definitions, their validation, and the dependency decision of one node. -/
namespace WorkflowDomain

open RunDomain

inductive DependencyCondition where
  | success
  | failure
  | always
  deriving DecidableEq, Repr

structure WorkflowNode where
  name : String
  jobId : Uuid
  deriving DecidableEq, Repr

structure WorkflowEdge where
  source : String
  target : String
  condition : DependencyCondition
  deriving DecidableEq, Repr

structure WorkflowDefinition where
  name : String
  description : Option String
  nodes : List WorkflowNode
  edges : List WorkflowEdge
  deriving DecidableEq, Repr

inductive DefinitionError where
  | bounds
  | description
  | duplicateNode
  | invalidEdge
  | duplicateEdge
  | cycle
  deriving DecidableEq, Repr

/-- The messages `WorkflowDefinition::validate` returns. -/
def DefinitionError.message : DefinitionError → String
  | .bounds => "a Workflow requires 1–64 nodes and at most 256 edges"
  | .description => "description must be NUL-free and at most 500 characters"
  | .duplicateNode => "node names must be unique within the Workflow"
  | .invalidEdge => "edges must reference distinct existing nodes in this Workflow"
  | .duplicateEdge => "duplicate dependency endpoints are not allowed"
  | .cycle => "Workflow dependencies must not contain cycles"

/-- The `incoming` map: how many unvisited predecessors each name still has. -/
abbrev Incoming := List (String × ℕ)

def Incoming.get (m : Incoming) (name : String) : Option ℕ :=
  (m.find? fun e => e.1 = name).map Prod.snd

def Incoming.modify (m : Incoming) (name : String) (f : ℕ → ℕ) : Incoming :=
  m.map fun e => if e.1 = name then (e.1, f e.2) else e

def insertNodes (incoming : Incoming) : List WorkflowNode → Except DefinitionError Incoming
  | [] => .ok incoming
  | node :: nodes =>
    if (incoming.get node.name).isSome then .error .duplicateNode
    else insertNodes (incoming ++ [(node.name, 0)]) nodes

def insertEdges (incoming : Incoming) (pairs : List (String × String)) :
    List WorkflowEdge → Except DefinitionError Incoming
  | [] => .ok incoming
  | edge :: edges =>
    if edge.source = edge.target ∨ (incoming.get edge.source).isNone ∨
        (incoming.get edge.target).isNone then .error .invalidEdge
    else if (edge.source, edge.target) ∈ pairs then .error .duplicateEdge
    else insertEdges (incoming.modify edge.target (· + 1))
      ((edge.source, edge.target) :: pairs) edges

/-- `outgoing.get(node)`, in the order the edges were pushed. -/
def outgoingNames (edges : List WorkflowEdge) (name : String) : List String :=
  (edges.filter fun e => e.source = name).map WorkflowEdge.target

/-- One visit: decrement every downstream count, collecting the names that reach zero. -/
def releaseDownstream (incoming : Incoming) (released : List String) :
    List String → Incoming × List String
  | [] => (incoming, released)
  | name :: names =>
    match incoming.get name with
    | none => releaseDownstream incoming released names
    | some count =>
      releaseDownstream (incoming.modify name (· - 1))
        (if count - 1 = 0 then released ++ [name] else released) names

/-- The `while let Some(node) = ready.pop_front()` loop; every name enters `ready` at most
once, so one round per node is enough. -/
def visitReady (edges : List WorkflowEdge) :
    ℕ → Incoming → List String → ℕ → ℕ
  | 0, _, _, visited => visited
  | _ + 1, _, [], visited => visited
  | rounds + 1, incoming, node :: ready, visited =>
    let step := releaseDownstream incoming [] (outgoingNames edges node)
    visitReady edges rounds step.1 (ready ++ step.2) (visited + 1)

def WorkflowDefinition.validate (d : WorkflowDefinition) : Except DefinitionError Unit := do
  if d.nodes = [] ∨ 64 < d.nodes.length ∨ 256 < d.edges.length then
    throw .bounds
  if d.description.any fun value => value.toList.contains '\x00' || 500 < value.length then
    throw .description
  let incoming ← insertNodes [] d.nodes
  let incoming ← insertEdges incoming [] d.edges
  let ready := ((incoming.filter fun e => e.2 = 0).map Prod.fst).insertionSort (· ≤ ·)
  if visitReady d.edges d.nodes.length incoming ready 0 ≠ d.nodes.length then
    throw .cycle

inductive WorkflowNodeState where
  | pending
  | ready
  | running
  | succeeded
  | failed
  | skipped
  | cancelled
  | unknown
  deriving DecidableEq, Repr

def WorkflowNodeState.isTerminal : WorkflowNodeState → Bool
  | .pending | .ready | .running => false
  | .succeeded | .failed | .skipped | .cancelled | .unknown => true

inductive WorkflowState where
  | pending
  | running
  | succeeded
  | failed
  | cancelled
  deriving DecidableEq, Repr

inductive DependencyDecision where
  | waiting
  | ready
  | skipped
  deriving DecidableEq, Repr

def DependencyCondition.matches (condition : DependencyCondition) (state : WorkflowNodeState) :
    Bool :=
  match condition with
  | .success => state = .succeeded
  | .failure => state = .failed || state = .unknown
  | .always => true

def dependencyDecisionFrom (waiting : Bool) :
    List (DependencyCondition × WorkflowNodeState) → DependencyDecision
  | [] => if waiting then .waiting else .ready
  | (condition, state) :: incoming =>
    if !state.isTerminal then dependencyDecisionFrom true incoming
    else if !condition.matches state then .skipped
    else dependencyDecisionFrom waiting incoming

/-- Evaluate an AND join without trusting client-supplied execution states. -/
def dependencyDecision (incoming : List (DependencyCondition × WorkflowNodeState)) :
    DependencyDecision :=
  dependencyDecisionFrom false incoming

end WorkflowDomain
