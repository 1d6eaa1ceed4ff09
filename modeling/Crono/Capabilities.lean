import Crono.RunDomain
import Mathlib.Order.Basic
import Mathlib.Order.Nat

/-! The permission registry: the capabilities, their published identifiers, and the resources
each of them can be requested on. -/
namespace Capabilities

open RunDomain

inductive PermissionScope where
  | global
  | inNamespace
  deriving DecidableEq, Repr

inductive ResourceKind where
  | controlPlane | ofNamespace | queue | job | target | targetSet | schedule | workflow
  | workflowRun | run
  deriving DecidableEq, Repr

/-- Resource named by one authorization decision. -/
inductive ResourceScope where
  | controlPlane
  | ofNamespace (id : Uuid)
  | queue (id : Uuid)
  | job (id : Uuid)
  | target (id : Uuid)
  | targetSet (id : Uuid)
  | schedule (id : Uuid)
  | workflow (id : Uuid)
  | workflowRun (id : Uuid)
  | run (id : Uuid)
  deriving DecidableEq, Repr

def ResourceScope.kind : ResourceScope → ResourceKind
  | .controlPlane => .controlPlane
  | .ofNamespace _ => .ofNamespace
  | .queue _ => .queue
  | .job _ => .job
  | .target _ => .target
  | .targetSet _ => .targetSet
  | .schedule _ => .schedule
  | .workflow _ => .workflow
  | .workflowRun _ => .workflowRun
  | .run _ => .run

/-- Stable application permissions, in the order of the registry. -/
inductive Capability where
  | namespaceCreate | namespaceRead | namespaceDelete | queueCreate | queueRead | queueUpdate
  | queueDelete | jobCreate | jobRead | jobUpdate | jobExecute | targetCreate | targetRead
  | targetUpdate | targetDelete | targetUse | targetSetCreate | targetSetRead | targetSetUpdate
  | targetSetUse | scheduleCreate | scheduleRead | scheduleUpdate | workflowCreate | workflowRead
  | workflowUpdate | workflowDelete | workflowExecute | workflowRunRead | workflowRunCancel
  | runCreate | runRead | workerRead | monitorRead | overviewRead
  deriving DecidableEq, Repr

structure PermissionDefinition where
  identifier : String
  scope : PermissionScope
  resources : List ResourceKind

def Capability.definition : Capability → PermissionDefinition
  | .namespaceCreate => ⟨"crono.namespace.create", .global, [.controlPlane]⟩
  | .namespaceRead => ⟨"crono.namespace.read", .inNamespace, [.ofNamespace]⟩
  | .namespaceDelete => ⟨"crono.namespace.delete", .inNamespace, [.ofNamespace]⟩
  | .queueCreate => ⟨"crono.queue.create", .global, [.controlPlane]⟩
  | .queueRead => ⟨"crono.queue.read", .global, [.controlPlane, .queue]⟩
  | .queueUpdate => ⟨"crono.queue.update", .global, [.queue]⟩
  | .queueDelete => ⟨"crono.queue.delete", .global, [.queue]⟩
  | .jobCreate => ⟨"crono.job.create", .inNamespace, [.ofNamespace]⟩
  | .jobRead => ⟨"crono.job.read", .inNamespace, [.ofNamespace, .job]⟩
  | .jobUpdate => ⟨"crono.job.update", .inNamespace, [.job]⟩
  | .jobExecute => ⟨"crono.job.execute", .inNamespace, [.job]⟩
  | .targetCreate => ⟨"crono.target.create", .inNamespace, [.ofNamespace]⟩
  | .targetRead => ⟨"crono.target.read", .inNamespace, [.ofNamespace, .target]⟩
  | .targetUpdate => ⟨"crono.target.update", .inNamespace, [.target]⟩
  | .targetDelete => ⟨"crono.target.delete", .inNamespace, [.target]⟩
  | .targetUse => ⟨"crono.target.use", .inNamespace, [.target]⟩
  | .targetSetCreate => ⟨"crono.target_set.create", .inNamespace, [.ofNamespace]⟩
  | .targetSetRead => ⟨"crono.target_set.read", .inNamespace, [.ofNamespace, .targetSet]⟩
  | .targetSetUpdate => ⟨"crono.target_set.update", .inNamespace, [.targetSet]⟩
  | .targetSetUse => ⟨"crono.target_set.use", .inNamespace, [.targetSet]⟩
  | .scheduleCreate => ⟨"crono.schedule.create", .inNamespace, [.ofNamespace]⟩
  | .scheduleRead => ⟨"crono.schedule.read", .inNamespace, [.ofNamespace, .schedule]⟩
  | .scheduleUpdate => ⟨"crono.schedule.update", .inNamespace, [.schedule]⟩
  | .workflowCreate => ⟨"crono.workflow.create", .inNamespace, [.ofNamespace]⟩
  | .workflowRead => ⟨"crono.workflow.read", .inNamespace, [.ofNamespace, .workflow]⟩
  | .workflowUpdate => ⟨"crono.workflow.update", .inNamespace, [.workflow]⟩
  | .workflowDelete => ⟨"crono.workflow.delete", .inNamespace, [.workflow]⟩
  | .workflowExecute => ⟨"crono.workflow.execute", .inNamespace, [.workflow]⟩
  | .workflowRunRead => ⟨"crono.workflow_run.read", .inNamespace, [.workflow, .workflowRun]⟩
  | .workflowRunCancel => ⟨"crono.workflow_run.cancel", .inNamespace, [.workflowRun]⟩
  | .runCreate => ⟨"crono.run.create", .inNamespace, [.ofNamespace]⟩
  | .runRead => ⟨"crono.run.read", .inNamespace, [.run]⟩
  | .workerRead => ⟨"crono.worker.read", .global, [.controlPlane]⟩
  | .monitorRead => ⟨"crono.monitor.read", .global, [.controlPlane]⟩
  | .overviewRead => ⟨"crono.overview.read", .inNamespace, [.ofNamespace]⟩

def allCapabilities : List Capability :=
  [.namespaceCreate, .namespaceRead, .namespaceDelete, .queueCreate, .queueRead, .queueUpdate,
   .queueDelete, .jobCreate, .jobRead, .jobUpdate, .jobExecute, .targetCreate, .targetRead,
   .targetUpdate, .targetDelete, .targetUse, .targetSetCreate, .targetSetRead, .targetSetUpdate,
   .targetSetUse, .scheduleCreate, .scheduleRead, .scheduleUpdate, .workflowCreate,
   .workflowRead, .workflowUpdate, .workflowDelete, .workflowExecute, .workflowRunRead,
   .workflowRunCancel, .runCreate, .runRead, .workerRead, .monitorRead, .overviewRead]

/-- Parse an exact version-one identifier; unknown names never imply authority. -/
def Capability.fromPermissionId (identifier : String) : Option Capability :=
  allCapabilities.find? fun c => c.definition.identifier = identifier

/-- Check only structural resource compatibility; this grants no caller permission. -/
def Capability.acceptsResource (c : Capability) (resource : ResourceScope) : Bool :=
  c.definition.resources.contains resource.kind

theorem allCapabilities_ctorIdx (c : Capability) : allCapabilities[c.ctorIdx]? = some c := by
  cases c <;> rfl

theorem mem_allCapabilities (c : Capability) : c ∈ allCapabilities :=
  List.mem_of_getElem? (allCapabilities_ctorIdx c)

instance : LinearOrder Capability :=
  LinearOrder.lift' Capability.ctorIdx fun a b h => by
    have hsame : some a = some b := by
      rw [← allCapabilities_ctorIdx a, ← allCapabilities_ctorIdx b, h]
    exact Option.some.inj hsame

theorem fromPermissionId_identifier (c : Capability) :
    Capability.fromPermissionId c.definition.identifier = some c := by
  have hall : ∀ c ∈ allCapabilities,
      Capability.fromPermissionId c.definition.identifier = some c := by decide +kernel
  exact hall c (mem_allCapabilities c)

end Capabilities
