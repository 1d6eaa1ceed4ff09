import Crono.ApplicationCalls
import Crono.RunNamespaces

/-! Runs are created only under grants. Any number of calls create Runs, repeat them and start
Workflows, each with its own grants, while others edit the catalog between any two of their steps
and the orchestrator creates child Runs later. -/
namespace GrantedRuns

open RunDomain WorkflowDomain SqlTable ControlPlaneSchema RunStore WorkflowStore
open Capabilities GrantSets GrantPolicy ExecutionInputs ClientPrograms ApplicationCalls
open StoreWrites WorkflowNodes RunNamespaces
open CatalogEdits (State Event Owned Invariant)
open FallibleLists

inductive Request where
  | createRun (R : Rendering) (requestId jobId : Uuid) (target : TargetSelection)
      (inputs : Value) (fresh : FreshRuns) (now : Instant)
  | rerunRun (F : FloatFormat) (sourceId requestId runId : Uuid) (ids : DispatchIds)
      (now : Instant)
  | startWorkflow (R : Rendering) (id requestId : Uuid)
      (target : TargetSelection) (inputs : Value) (fresh : FreshLaunch) (now : Instant)

structure Caller where
  grants : GrantSet
  request : Request

def concluded {α : Type} (x : Call α) : Program Store Transaction (Except ApplicationError Unit) :=
  x.run.bind fun result => .done (result.map fun _ => ())

def program (caller : Caller) : Program Store Transaction (Except ApplicationError Unit) :=
  match caller.request with
  | .createRun R requestId jobId target inputs fresh now =>
    concluded (createRun R caller.grants requestId jobId target inputs fresh now)
  | .rerunRun F sourceId requestId runId ids now =>
    concluded (rerunRun F caller.grants sourceId requestId runId ids now)
  | .startWorkflow R id requestId target inputs fresh now =>
    concluded (startWorkflow R caller.grants id requestId target inputs fresh now)

def Denied {α : Type} (result : Except ApplicationError α) : Prop :=
  ∃ e, result = .error (.authorization e)

def Unchanged (s : Store) (tx : Transaction) : Prop := tx.apply s = s

def selectionUse : TargetSelection → List Capability
  | .target _ => [.targetUse]
  | .targetSet _ => [.targetSetUse, .targetUse]

def Request.capabilities : Request → List Capability
  | .createRun _ _ _ target _ _ _ => [.jobExecute, .runCreate] ++ selectionUse target
  | .rerunRun _ _ _ _ _ _ => [.runRead, .jobExecute, .targetUse, .runCreate]
  | .startWorkflow _ _ _ target _ _ _ =>
    [.workflowExecute, .jobExecute, .runCreate] ++ selectionUse target

/-- The caller holds in the Namespace everything its request asks for. -/
def Holds (caller : Caller) (namespaceId : Uuid) : Prop :=
  ∀ c ∈ caller.request.capabilities, caller.grants.allowsNamespace c namespaceId = true

theorem check_readOnly {α : Type} (result : Except ApplicationError α) :
    ReadOnly (check result).run := trivial

theorem ensure_readOnly (condition : Bool) (e : ApplicationError) :
    ReadOnly (ensure condition e).run := trivial

theorem query_readOnly {α : Type} (f : Store → Except StoreError α) : ReadOnly (query f).run :=
  fun _ => trivial

theorem authorize_readOnly (grants : GrantSet) (c : Capability) (resource : ResourceScope) :
    ReadOnly (ApplicationCalls.authorize grants c resource).run := fun _ => trivial

theorem visibility_readOnly (grants : GrantSet) (c : Capability) :
    ReadOnly (ApplicationCalls.visibility grants c).run := trivial

theorem authorizeEach_readOnly (grants : GrantSet) (c : Capability)
    (resources : List ResourceScope) : ReadOnly (authorizeEach grants c resources).run := by
  induction resources with
  | nil => trivial
  | cons resource rest ih => exact (authorize_readOnly _ _ _).bindExcept fun _ => ih

theorem executionTargets_readOnly (grants : GrantSet) (target : TargetSelection) :
    ReadOnly (executionTargets grants target).run := by
  cases target with
  | target id =>
    apply (authorize_readOnly _ _ _).bindExcept
    intro _
    apply (query_readOnly _).bindExcept
    exact fun _ => trivial
  | targetSet id =>
    apply (authorize_readOnly _ _ _).bindExcept
    intro _
    apply (query_readOnly _).bindExcept
    intro row
    apply (query_readOnly _).bindExcept
    intro targets
    apply (authorizeEach_readOnly _ _ _).bindExcept
    exact fun _ => trivial

theorem replayRuns_readOnly (requestId jobId : Uuid) (target : TargetSelection) (inputs : Value)
    (existing : RunRequestRow × Bool) :
    ReadOnly (replayRuns requestId jobId target inputs existing).run := by
  apply (check_readOnly _).bindExcept
  intro _
  apply (query_readOnly _).bindExcept
  exact fun _ => trivial

theorem getRun_readOnly (grants : GrantSet) (id : Uuid) :
    ReadOnly (ApplicationCalls.getRun grants id).run := by
  apply (authorize_readOnly _ _ _).bindExcept
  intro _
  apply (visibility_readOnly _ _).bindExcept
  exact fun _ => query_readOnly _

theorem existingRerun_readOnly (F : FloatFormat) (requestId sourceId : Uuid) :
    ReadOnly (existingRerun F requestId sourceId).run := by
  apply (query_readOnly _).bindExcept
  intro existing
  cases existing with
  | none => trivial
  | some _ =>
    apply (query_readOnly _).bindExcept
    exact fun _ => check_readOnly _

theorem workflowRunForRequest_readOnly (F : FloatFormat) (requestId : Uuid) (inputs : Value) :
    ReadOnly (workflowRunForRequest F requestId inputs).run := by
  apply (query_readOnly _).bindExcept
  intro existing
  cases existing with
  | none => trivial
  | some id =>
    apply (query_readOnly _).bindExcept
    intro record
    apply (ensure_readOnly _ _).bindExcept
    exact fun _ => trivial

theorem authorizeWorkflowReplay_readOnly (grants : GrantSet) (run : WorkflowRunRecord) :
    ReadOnly (authorizeWorkflowReplay grants run).run := by
  apply (authorizeEach_readOnly _ _ _).bindExcept
  intro _
  have hrest : ReadOnly (do
      let targets ← query fun s => .ok (StoreReads.workflowRunTargets run.id s)
      authorizeEach grants .targetUse (targets.map .target)
      ApplicationCalls.authorize grants .runCreate (.ofNamespace run.workflow.namespaceId) :
        Call Unit).run := by
    apply (query_readOnly _).bindExcept
    intro targets
    apply (authorizeEach_readOnly _ _ _).bindExcept
    exact fun _ => authorize_readOnly _ _ _
  cases htarget : run.target with
  | target id => exact hrest
  | targetSet id => exact (authorize_readOnly _ _ _).bindExcept fun _ => hrest

theorem validateWorkflowJobs_readOnly (grants : GrantSet) (namespaceId : Uuid) (c : Capability)
    (nodes : List WorkflowNode) :
    ReadOnly (validateWorkflowJobs grants namespaceId c nodes).run := by
  induction nodes with
  | nil => trivial
  | cons node rest ih =>
    apply (authorize_readOnly _ _ _).bindExcept
    intro _
    apply (query_readOnly _).bindExcept
    intro job
    exact (ensure_readOnly _ _).bindExcept fun _ => ih

theorem validateWorkflowNodes_readOnly (R : Rendering) (targetSetInputs : Option Value)
    (inputs : Value) (targets : List TargetRow) (nodes : List WorkflowNode) :
    ReadOnly (validateWorkflowNodes R targetSetInputs inputs targets nodes).run := by
  induction nodes with
  | nil => trivial
  | cons node rest ih =>
    apply (query_readOnly _).bindExcept
    intro job
    exact (check_readOnly _).bindExcept fun _ => ih

theorem ofStore_not_denied {α : Type} (result : Except StoreError α) :
    ¬ Denied (ofStore result) := by
  rintro ⟨e, he⟩
  cases result with
  | ok a => cases he
  | error e' => cases e' <;> cases he

abbrev Concludes {α : Type} (x : Call α) : Prop := Settles Denied x.run

theorem Concludes.bind {α β : Type} {x : Call α} {f : α → Call β} (h : Concludes x)
    (hf : ∀ a, Concludes (f a)) : Concludes (x >>= f) := by
  apply Settles.bind h
  intro r hr
  cases r with
  | ok a => exact hf a
  | error e =>
    rintro ⟨e', he⟩
    cases he
    exact hr ⟨e', rfl⟩

theorem query_concludes {α : Type} (f : Store → Except StoreError α) : Concludes (query f) :=
  fun s => ofStore_not_denied (f s)

theorem pure_concludes {α : Type} (a : α) : Concludes (pure a : Call α) := by
  rintro ⟨e, he⟩
  cases he

theorem error_concludes {α : Type} {e : ApplicationError} (h : ∀ a, e ≠ .authorization a) :
    Concludes (check (.error e) : Call α) := by
  rintro ⟨a, he⟩
  exact h a (Except.error.inj he)

theorem replayRuns_concludes (requestId jobId : Uuid) (target : TargetSelection) (inputs : Value)
    (existing : RunRequestRow × Bool) :
    Concludes (replayRuns requestId jobId target inputs existing) := by
  have hcheck : Concludes (check (ofStore (compareRunRequest existing jobId target inputs))) :=
    ofStore_not_denied _
  apply hcheck.bind
  intro _
  apply (query_concludes _).bind
  exact fun _ => pure_concludes _

theorem existingRerun_concludes (F : FloatFormat) (requestId sourceId : Uuid) :
    Concludes (existingRerun F requestId sourceId) := by
  apply (query_concludes _).bind
  intro existing
  cases existing with
  | none => exact pure_concludes _
  | some _ =>
    apply (query_concludes _).bind
    intro runs
    change ¬ Denied _
    rintro ⟨e, he⟩
    split at he
    · split at he
      · cases he
      · cases he
    · cases he

/-- Until the first transaction, a call may be denied at any step. -/
abbrev Safe {α : Type} (x : Call α) : Prop := Clean Unchanged Denied x.run

theorem safe_bind {α β : Type} {x : Call α} {f : α → Call β} (h : ReadOnly x.run)
    (hf : ∀ a, Safe (f a)) : Safe (x >>= f) := by
  apply h.clean_bind
  intro r
  cases r with
  | ok a => exact hf a
  | error e => trivial

theorem transact_safe {α β : Type} {tx : Transaction} {answer : Store → Except StoreError α}
    {f : α → Call β}
    (h : ∀ s a, answer s = .ok a → Concludes (f a) ∨ Unchanged s tx ∧ Safe (f a)) :
    Safe (transact tx answer >>= f) := by
  intro s
  change _ ∨ Settles Denied (Program.bind (.done (ofStore (answer s))) (ExceptT.bindCont f))
  cases hanswer : answer s with
  | error e => exact .inr (ofStore_not_denied (.error e : Except StoreError β))
  | ok a =>
    rcases h s a hanswer with hconcludes | ⟨hunchanged, hsafe⟩
    · exact .inr hconcludes
    · refine .inl ⟨hunchanged, ?_⟩
      change Clean Unchanged Denied
        (Program.bind (.done (ofStore (answer s))) (ExceptT.bindCont f))
      rw [hanswer]
      exact hsafe

theorem createRuns_safe (R : Rendering) (requestId jobId : Uuid) (target : TargetSelection)
    (inputs : Value) (fresh : FreshRuns) (now : Instant) :
    Safe (createRuns R requestId jobId target inputs fresh now) := by
  apply safe_bind (query_readOnly _)
  intro existing
  cases existing with
  | some existing => exact (replayRuns_readOnly _ _ _ _ existing).clean
  | none =>
    apply transact_safe
    intro s outcome _
    left
    cases outcome with
    | created =>
      apply (query_concludes _).bind
      exact fun _ => pure_concludes _
    | requestTaken =>
      apply (query_concludes _).bind
      intro existing
      cases existing with
      | none => exact error_concludes nofun
      | some existing => exact replayRuns_concludes _ _ _ _ existing

theorem insertRerun_safe (F : FloatFormat) (sourceId requestId runId : Uuid) (ids : DispatchIds)
    (now : Instant) : Safe (insertRerun F sourceId requestId runId ids now) := by
  apply safe_bind (existingRerun_readOnly _ _ _)
  intro existing
  cases existing with
  | some run => trivial
  | none =>
    apply transact_safe
    intro s outcome _
    left
    apply (existingRerun_concludes _ _ _).bind
    intro existing
    cases existing with
    | none => exact error_concludes nofun
    | some run => exact pure_concludes _

theorem start_replayed {R : Rendering} {fresh : FreshLaunch} {launch : WorkflowLaunch}
    {now : Instant} {s : Store} {record : WorkflowRunRecord}
    (h : (start R fresh launch now s).1 = .ok (record, false)) :
    (start R fresh launch now s).2 = s := by
  unfold start at h ⊢
  cases hfind : s.workflowRuns.find? fun w => w.requestId = launch.requestId with
  | some existing => rfl
  | none =>
    rw [hfind] at h
    rcases commit_cases s (startFresh R fresh launch now s) with ⟨a, t, hx, hc⟩ | ⟨e, _, hc⟩
    · rw [hc] at h
      obtain ⟨_, _, _, _, _, _, _, _, _, _, hanswer⟩ := startFresh_ok hx
      cases h
      cases hanswer
    · rw [hc]

theorem launchWorkflow_safe (R : Rendering) (grants : GrantSet) (fresh : FreshLaunch)
    (launch : WorkflowLaunch) (now : Instant) :
    Safe (launchWorkflow R grants fresh launch now) := by
  apply transact_safe
  rintro s ⟨record, created⟩ hanswer
  cases created with
  | true => exact .inl (pure_concludes _)
  | false =>
    refine .inr ⟨start_replayed hanswer, ?_⟩
    apply safe_bind (authorizeWorkflowReplay_readOnly _ _)
    exact fun _ => trivial

theorem createRun_safe (R : Rendering) (grants : GrantSet)
    (requestId jobId : Uuid) (target : TargetSelection) (inputs : Value) (fresh : FreshRuns)
    (now : Instant) : Safe (createRun R grants requestId jobId target inputs fresh now) := by
  apply safe_bind (check_readOnly _)
  intro _
  apply safe_bind (authorize_readOnly _ _ _)
  intro _
  apply safe_bind (query_readOnly _)
  intro job
  apply safe_bind (executionTargets_readOnly _ _)
  rintro ⟨selectionNamespace, targetSetInputs, targets⟩
  apply safe_bind (ensure_readOnly _ _)
  intro _
  apply safe_bind (check_readOnly _)
  intro _
  apply safe_bind (authorize_readOnly _ _ _)
  exact fun _ => createRuns_safe _ _ _ _ _ _ _

theorem rerunRun_safe (F : FloatFormat) (grants : GrantSet) (sourceId requestId runId : Uuid)
    (ids : DispatchIds) (now : Instant) :
    Safe (rerunRun F grants sourceId requestId runId ids now) := by
  apply safe_bind (getRun_readOnly _ _)
  intro source
  apply safe_bind (ensure_readOnly _ _)
  intro _
  apply safe_bind (ensure_readOnly _ _)
  intro _
  apply safe_bind (authorize_readOnly _ _ _)
  intro _
  apply safe_bind (query_readOnly _)
  intro job
  apply safe_bind (authorize_readOnly _ _ _)
  intro _
  apply safe_bind (authorize_readOnly _ _ _)
  exact fun _ => insertRerun_safe _ _ _ _ _ _

theorem startWorkflow_safe (R : Rendering) (grants : GrantSet)
    (id requestId : Uuid) (target : TargetSelection) (inputs : Value) (fresh : FreshLaunch)
    (now : Instant) :
    Safe (startWorkflow R grants id requestId target inputs fresh now) := by
  apply safe_bind (authorize_readOnly _ _ _)
  intro _
  apply safe_bind (check_readOnly _)
  intro _
  apply safe_bind (workflowRunForRequest_readOnly _ _ _)
  intro existing
  cases existing with
  | some existing =>
    apply safe_bind (ensure_readOnly _ _)
    intro _
    apply safe_bind (authorizeWorkflowReplay_readOnly _ _)
    exact fun _ => trivial
  | none =>
    apply safe_bind (query_readOnly _)
    intro workflow
    apply safe_bind (executionTargets_readOnly _ _)
    rintro ⟨namespaceId, targetSetInputs, targets⟩
    apply safe_bind (ensure_readOnly _ _)
    intro _
    apply safe_bind (validateWorkflowJobs_readOnly _ _ _ _)
    intro _
    apply safe_bind (validateWorkflowNodes_readOnly _ _ _ _ _)
    intro _
    apply safe_bind (authorize_readOnly _ _ _)
    exact fun _ => launchWorkflow_safe _ _ _ _ _

theorem concluded_clean {α : Type} {x : Call α} (h : Safe x) :
    Clean Unchanged Denied (concluded x) := by
  apply h.map
  rintro r ⟨e, he⟩
  cases r with
  | ok a => cases he
  | error e' =>
    cases he
    exact ⟨e, rfl⟩

theorem program_clean (caller : Caller) : Clean Unchanged Denied (program caller) := by
  obtain ⟨grants, request⟩ := caller
  cases request with
  | createRun => exact concluded_clean (createRun_safe _ _ _ _ _ _ _ _)
  | rerunRun => exact concluded_clean (rerunRun_safe _ _ _ _ _ _ _)
  | startWorkflow => exact concluded_clean (startWorkflow_safe _ _ _ _ _ _ _ _)

/-- The transaction of a caller creates Runs and invocations only where its grants allow it. -/
structure Grants (caller : Caller) (s : State) (tx : Transaction) : Prop where
  runs : ∀ r ∈ (tx.apply s.store).runs, (∀ r₀ ∈ s.store.runs, r₀.id ≠ r.id) →
    ∃ n, JobIn s.store.catalog r.jobId n ∧ TargetIn s.store.catalog r.targetId n ∧ Holds caller n
  invocations : ∀ w ∈ (tx.apply s.store).workflowRuns,
    (∀ w₀ ∈ s.store.workflowRuns, w₀.id ≠ w.id) → Holds caller w.namespaceId

section Establish

variable (owner : ResourceScope → Uuid) (caller : Caller)

abbrev Gives {α : Type} (P : α → State → Prop) (s : State) (x : Call α) : Prop :=
  Yields (CatalogEdits.system owner) State.store (fun tx => Event.control tx.command)
    (Grants caller) P s x

variable {owner caller} {s : State}

theorem query_gives {α : Type} (f : Store → Except StoreError α) :
    Gives owner caller (fun a t => f t.store = .ok a) s (query f) := by
  intro t ht
  refine ⟨ht, ?_⟩
  intro a ha
  cases hf : f t.store with
  | ok b =>
    rw [hf] at ha
    exact congrArg Except.ok (Except.ok.inj ha)
  | error e =>
    rw [hf] at ha
    cases ha

theorem check_gives {α : Type} (result : Except ApplicationError α) :
    Gives owner caller (fun a _ => result = .ok a) s (check result) :=
  ⟨.refl s, fun _ ha => ha⟩

theorem ensure_gives (condition : Bool) (e : ApplicationError) :
    Gives owner caller (fun _ _ => condition = true) s (ensure condition e) := by
  refine ⟨.refl s, ?_⟩
  intro a ha
  by_cases hc : condition = true
  · exact hc
  · rw [if_neg hc] at ha
    cases ha

theorem authorize_gives (grants : GrantSet) (c : Capability) (resource : ResourceScope) :
    Gives owner caller (fun _ t => GrantPolicy.authorize (StoreReads.namespaceFor t.store) grants c
      resource = .ok ()) s (ApplicationCalls.authorize grants c resource) := by
  intro t ht
  refine ⟨ht, ?_⟩
  intro a ha
  cases hf : GrantPolicy.authorize (StoreReads.namespaceFor t.store) grants c resource with
  | ok b => rfl
  | error e =>
    rw [hf] at ha
    cases ha

theorem transact_gives {α : Type} (tx : Transaction) (answer : Store → Except StoreError α)
    (h : ∀ t, (CatalogEdits.system owner).Execution s t → Grants caller t tx) :
    Gives owner caller (fun _ _ => True) s (transact tx answer) := by
  intro t ht henabled
  exact ⟨h t ht, ht.trans (.single ⟨henabled, rfl⟩), fun _ _ => trivial⟩

/-- A permission granted on a resource is granted in the Namespace the resource is found in. -/
theorem allowed_of_authorize {namespaceFor : NamespaceResolver} {grants : GrantSet}
    {c : Capability} {resource : ResourceScope} {n : Uuid}
    (hscope : c.definition.scope = .inNamespace)
    (hfound : ∀ m, resourceNamespace namespaceFor resource = .ok m → m = n)
    (h : GrantPolicy.authorize namespaceFor grants c resource = .ok ()) :
    grants.allowsNamespace c n = true := by
  have hincludes := grants.visibility_includes c n
  unfold GrantPolicy.authorize at h
  rw [hscope] at h
  split at h
  · cases h
  simp only [reduceCtorEq, if_false] at h
  split at h
  · cases h
  · rename_i hall
    rw [hall] at hincludes
    exact hincludes.symm
  · split at h
    · cases h
    · rename_i m hm
      split at h
      · rename_i hallowed
        rw [hfound m hm] at hallowed
        exact hallowed
      · cases h

theorem found_namespace {α : Type} {rows : List α} {p : α → Bool} {namespaceOf : α → Uuid}
    {m n : Uuid} (hrows : ∀ row ∈ rows, p row = true → n = namespaceOf row)
    (h : (rows.find? p).map namespaceOf = some m) : m = n := by
  obtain ⟨row, hfind, rfl⟩ := Option.map_eq_some_iff.mp h
  exact (hrows row (List.mem_of_find?_eq_some hfind) (List.find?_some hfind)).symm

def Drawn : ResourceScope → Prop
  | .job _ | .target _ | .targetSet _ | .workflow _ => True
  | _ => False

theorem namespaceFor_owner (hs : Invariant owner s) {resource : ResourceScope}
    (hdrawn : Drawn resource) {m : Uuid}
    (h : StoreReads.namespaceFor s.store resource = .ok (some m)) : m = owner resource := by
  cases resource with
  | job id =>
    refine found_namespace ?_ (Except.ok.inj h)
    intro j hj hid
    rw [← of_decide_eq_true hid]
    exact hs.owned.jobs j hj
  | target id =>
    refine found_namespace ?_ (Except.ok.inj h)
    intro t ht hid
    rw [← of_decide_eq_true hid]
    exact hs.owned.targets t ht
  | targetSet id =>
    refine found_namespace ?_ (Except.ok.inj h)
    intro ts hts hid
    rw [← of_decide_eq_true hid]
    exact hs.owned.targetSets ts hts
  | workflow id =>
    refine found_namespace ?_ (Except.ok.inj h)
    intro w hw hid
    rw [← of_decide_eq_true hid]
    exact hs.owned.workflows w hw
  | _ => exact hdrawn.elim

theorem resource_allowed (hs : Invariant owner s) {grants : GrantSet} {c : Capability}
    {resource : ResourceScope} (hscope : c.definition.scope = .inNamespace)
    (hdrawn : Drawn resource)
    (h : GrantPolicy.authorize (StoreReads.namespaceFor s.store) grants c resource = .ok ()) :
    grants.allowsNamespace c (owner resource) = true := by
  refine allowed_of_authorize hscope ?_ h
  intro m hm
  apply namespaceFor_owner hs hdrawn
  unfold resourceNamespace at hm
  split at hm
  · exact hdrawn.elim
  · split at hm
    · cases hm
    · cases hm
    · rename_i hfound
      cases hm
      exact hfound

theorem namespace_allowed {grants : GrantSet} {c : Capability} {n : Uuid}
    {namespaceFor : NamespaceResolver} (hscope : c.definition.scope = .inNamespace)
    (h : GrantPolicy.authorize namespaceFor grants c (.ofNamespace n) = .ok ()) :
    grants.allowsNamespace c n = true := by
  refine allowed_of_authorize hscope ?_ h
  intro m hm
  exact (Except.ok.inj hm).symm

theorem resource_gives (hs : (CatalogEdits.system owner).Reachable s) (grants : GrantSet)
    {c : Capability} {resource : ResourceScope} (hscope : c.definition.scope = .inNamespace)
    (hdrawn : Drawn resource) :
    Gives owner caller (fun _ _ => grants.allowsNamespace c (owner resource) = true) s
      (ApplicationCalls.authorize grants c resource) := by
  intro t ht
  have hgives : Gives owner caller _ s (ApplicationCalls.authorize grants c resource) :=
    authorize_gives grants c resource
  obtain ⟨_, hauthorized⟩ := hgives t ht
  refine ⟨ht, fun a ha => ?_⟩
  exact resource_allowed (CatalogEdits.reachable_invariant (hs.execution ht)) hscope hdrawn
    (hauthorized a ha)

theorem getJob_owner (hs : Invariant owner s) {id : Uuid} {job : JobRow}
    (h : StoreReads.getJob s.store id = .ok job) : job.namespaceId = owner (.job id) := by
  unfold StoreReads.getJob at h
  split at h
  · cases h
  · rename_i j hfind
    split at h
    · have hid := List.find?_some hfind
      rw [decide_eq_true_eq] at hid
      cases h
      rw [← hid]
      exact (hs.owned.jobs _ (List.mem_of_find?_eq_some hfind)).symm
    · cases h

theorem getTarget_owner (hs : Invariant owner s) {id : Uuid} {target : TargetRow}
    (h : StoreReads.getTarget s.store id = .ok target) :
    target.namespaceId = owner (.target id) := by
  unfold StoreReads.getTarget at h
  split at h
  · cases h
  · rename_i hfind
    have hid := List.find?_some hfind
    rw [decide_eq_true_eq] at hid
    cases h
    rw [← hid]
    exact (hs.owned.targets _ (List.mem_of_find?_eq_some hfind)).symm

theorem getTargetSet_owner (hs : Invariant owner s) {id : Uuid} {row : TargetSetRow}
    (h : StoreReads.getTargetSet s.store id = .ok row) :
    row ∈ s.store.catalog.targetSets ∧ row.namespaceId = owner (.targetSet id) := by
  unfold StoreReads.getTargetSet at h
  split at h
  · cases h
  · rename_i hfind
    have hid := List.find?_some hfind
    rw [decide_eq_true_eq] at hid
    cases h
    refine ⟨List.mem_of_find?_eq_some hfind, ?_⟩
    rw [← hid]
    exact (hs.owned.targetSets _ (List.mem_of_find?_eq_some hfind)).symm

/-- The members of a set that is still there: at least one, each of the Namespace of the set. -/
theorem loadTargetSetRecord_owner (hs : Invariant owner s) {row ts : TargetSetRow}
    {targets : List TargetRow} (hts : ts ∈ s.store.catalog.targetSets) (hid : ts.id = row.id)
    (h : StoreReads.loadTargetSetRecord row s.store = .ok targets) :
    ∃ x ∈ targets, owner (.target x.id) = row.namespaceId := by
  obtain ⟨m, hm, hown⟩ := hs.stocked.nonempty ts hts
  obtain ⟨x, hx, hxid⟩ := hs.stocked.members m hm
  unfold StoreReads.loadTargetSetRecord at h
  simp only at h
  split at h
  · rename_i hall
    cases h
    have hmem : x ∈ ((s.store.catalog.targetSetMembers.filter fun m =>
        m.targetSetId = row.id).flatMap fun m =>
        s.store.catalog.targets.filter fun t => t.id = m.targetId).insertionSort
          fun a b => a.name ≤ b.name := by
      rw [List.mem_insertionSort, List.mem_flatMap]
      refine ⟨m, List.mem_filter.mpr ⟨hm, ?_⟩, List.mem_filter.mpr ⟨hx, ?_⟩⟩
      · exact decide_eq_true (hown.trans hid)
      · exact decide_eq_true hxid
    refine ⟨x, hmem, ?_⟩
    rw [hs.owned.targets x hx]
    exact of_decide_eq_true (List.all_eq_true.mp hall x hmem)
  · cases h

theorem authorizeEach_gives (hs : (CatalogEdits.system owner).Reachable s) (grants : GrantSet)
    {c : Capability} (hscope : c.definition.scope = .inNamespace) (ids : List Uuid) :
    Gives owner caller (fun _ _ => ∀ id ∈ ids, grants.allowsNamespace c (owner (.target id)) = true)
      s (authorizeEach grants c (ids.map .target)) := by
  induction ids generalizing s with
  | nil => exact ⟨.refl s, fun _ _ id hid => absurd hid List.not_mem_nil⟩
  | cons id rest ih =>
    refine Yields.bind (resource_gives hs grants hscope trivial) ?_
    intro _ t ht hallowed
    refine Yields.mono ?_ (ih (hs.execution ht))
    intro _ _ hrest x hx
    rcases List.mem_cons.mp hx with rfl | hx
    · exact hallowed
    · exact hrest x hx

/-- The selection is authorized in the Namespace it is returned with. -/
theorem executionTargets_gives (hs : (CatalogEdits.system owner).Reachable s) (grants : GrantSet)
    (target : TargetSelection) :
    Gives owner caller (fun selected _ => ∀ c ∈ selectionUse target,
      grants.allowsNamespace c selected.1 = true) s (executionTargets grants target) := by
  cases target with
  | target id =>
    refine Yields.bind (resource_gives hs grants rfl trivial) ?_
    intro _ t ht hallowed
    refine Yields.bind (query_gives _) ?_
    intro row u hu hread
    have hureachable := (hs.execution ht).execution hu
    have howner := getTarget_owner (CatalogEdits.reachable_invariant hureachable) hread
    refine ⟨.refl u, ?_⟩
    intro selected hselected c hc
    cases hselected
    rw [List.mem_singleton.mp hc, howner]
    exact hallowed
  | targetSet id =>
    refine Yields.bind (resource_gives hs grants rfl trivial) ?_
    intro _ t ht hset
    refine Yields.bind (query_gives _) ?_
    intro row u hu hread
    have hureachable := (hs.execution ht).execution hu
    obtain ⟨hrow, howner⟩ :=
      getTargetSet_owner (CatalogEdits.reachable_invariant hureachable) hread
    refine Yields.bind (query_gives _) ?_
    intro targets v hv hmembers
    have hvreachable := hureachable.execution hv
    obtain ⟨ts, hts, hid⟩ := CatalogEdits.execution_keepsSets hureachable hv row hrow
    obtain ⟨x, hx, hxowner⟩ := loadTargetSetRecord_owner
      (CatalogEdits.reachable_invariant hvreachable) hts hid hmembers
    have heach : Gives owner caller (fun _ _ => ∀ id ∈ targets.map TargetRow.id,
        grants.allowsNamespace .targetUse (owner (.target id)) = true) v
        (authorizeEach grants .targetUse ((targets.map TargetRow.id).map .target)) :=
      authorizeEach_gives hvreachable grants rfl _
    rw [List.map_map] at heach
    refine Yields.bind heach ?_
    intro _ w _ hmember
    refine ⟨.refl w, ?_⟩
    intro selected hselected c hc
    cases hselected
    rcases List.mem_cons.mp hc with rfl | hc
    · rw [howner]
      exact hset
    · rw [List.mem_singleton.mp hc, ← hxowner]
      exact hmember x.id (List.mem_map_of_mem hx)

theorem jobIn_owner (hs : Invariant owner s) {jobId n : Uuid}
    (h : JobIn s.store.catalog jobId n) : n = owner (.job jobId) := by
  obtain ⟨j, hj, rfl, rfl⟩ := h
  exact (hs.owned.jobs j hj).symm

theorem targetIn_owner (hs : Invariant owner s) {targetId n : Uuid}
    (h : TargetIn s.store.catalog targetId n) : n = owner (.target targetId) := by
  obtain ⟨t, ht, rfl, rfl⟩ := h
  exact (hs.owned.targets t ht).symm

theorem executionWrites_workflowRuns {scope : Scope} {s t : Store}
    (h : ExecutionWrites scope s t) : t.workflowRuns = s.workflowRuns := by
  induction h with
  | refl => rfl
  | tail _ hw ih => exact hw.tables.1.trans ih

theorem grants_of_runs {tx : Transaction}
    (hworkflowRuns : (tx.apply s.store).workflowRuns = s.store.workflowRuns)
    (hruns : ∀ r ∈ (tx.apply s.store).runs, r ∈ s.store.runs ∨
      ∃ n, JobIn s.store.catalog r.jobId n ∧ TargetIn s.store.catalog r.targetId n ∧
        Holds caller n) : Grants caller s tx := by
  constructor
  · intro r hr hnew
    rcases hruns r hr with hold | hgranted
    · exact absurd rfl (hnew r hold)
    · exact hgranted
  · intro w hw hnew
    rw [hworkflowRuns] at hw
    exact absurd rfl (hnew w hw)

theorem createRuns_grants (hs : Invariant owner s) {R : Rendering} {requestId jobId : Uuid}
    {target : TargetSelection} {inputs : Value} {fresh : FreshRuns} {now : Instant}
    (hholds : Holds caller (owner (.job jobId))) :
    Grants caller s (.createRuns R requestId jobId target inputs fresh now) := by
  apply grants_of_runs
  · exact executionWrites_workflowRuns (createRuns_writes _ _ _ _ _ _ _ _)
  intro r hr
  simp only [Transaction.apply] at hr
  cases h : createRunsTransaction R requestId jobId target inputs fresh now s.store with
  | error e =>
    rw [h] at hr
    exact .inl hr
  | ok result =>
    rw [h] at hr
    rcases createRunsTransaction_jobs h r hr with hold | ⟨hjob, n, hjobIn, htargetIn⟩
    · exact .inl hold
    · refine .inr ⟨n, hjob ▸ hjobIn, htargetIn, ?_⟩
      rw [jobIn_owner hs hjobIn]
      exact hholds

/-- A re-run is placed where its source is. -/
theorem insertRerun_grants (hs : Invariant owner s) {F : FloatFormat}
    {sourceId requestId runId : Uuid} {ids : DispatchIds} {now : Instant} {source : RunRow}
    (hsource : source ∈ s.store.runs)
    (hid : source.id = sourceId) (hholds : Holds caller (owner (.job source.jobId))) :
    Grants caller s (.insertRerun F sourceId requestId runId ids now) := by
  apply grants_of_runs
  · exact executionWrites_workflowRuns (insertRerun_writes _ _ _ _ _ _ _)
  intro r hr
  simp only [Transaction.apply] at hr
  cases h : insertRerunTransaction F sourceId requestId runId ids now s.store with
  | error e =>
    rw [h] at hr
    exact .inl hr
  | ok result =>
    obtain ⟨outcome, t⟩ := result
    rw [h] at hr
    change r ∈ t.runs at hr
    rcases insertRerunTransaction_jobs h with rfl | ⟨source', hsource', hid', hruns, _⟩
    · exact .inl hr
    rcases hruns r hr with hold | ⟨hjob, htarget⟩
    · exact .inl hold
    have hkeys := (reachable_keysUnique hs.control).runs
    rw [row_unique hkeys hsource' hsource (hid'.trans hid.symm)] at hjob htarget
    obtain ⟨n, hjobIn, htargetIn⟩ := reachable_runsPlaced hs.control source hsource
    refine .inr ⟨n, hjob ▸ hjobIn, htarget ▸ htargetIn, ?_⟩
    rw [jobIn_owner hs hjobIn]
    exact hholds

theorem activate_runs {dispatch : Launching} {now : Instant} {nodeId : Uuid}
    {s t : Store} (h : activate dispatch now nodeId s = .ok t) :
    (∀ r ∈ t.runs, r ∈ s.runs ∨ ∃ n ∈ s.workflowNodeRuns, n.id = nodeId ∧ r.jobId = n.jobId) ∧
      ∀ n' ∈ t.workflowNodeRuns, ∃ n ∈ s.workflowNodeRuns, n.id = n'.id ∧ n.jobId = n'.jobId := by
  unfold activate at h
  split at h
  · cases h
    exact ⟨fun r hr => .inl hr, fun n hn => ⟨n, hn, rfl, rfl⟩⟩
  · rename_i node hfind
    obtain ⟨hruns, _, _, hnodes, _, _⟩ := WorkflowActivation.launchExecutions_tables h
    have hactivatable := List.find?_some hfind
    simp only [activatable, Bool.and_eq_true, decide_eq_true_eq] at hactivatable
    constructor
    · intro r hr
      rw [hruns] at hr
      rcases List.mem_append.mp hr with hr | hr
      · exact .inl hr
      · obtain ⟨e, _, rfl⟩ := List.mem_map.mp hr
        exact .inr ⟨node, List.mem_of_find?_eq_some hfind, hactivatable.1.1, rfl⟩
    · intro n' hn'
      rw [hnodes] at hn'
      rcases update_cases hn' with ⟨hold, _⟩ | ⟨n, hold, _, rfl⟩
      · exact ⟨n', hold, rfl, rfl⟩
      · exact ⟨n, hold, rfl, rfl⟩

theorem activateRoots_runs {F : FloatFormat} {fresh : FreshLaunch}
    {definition : StoredWorkflow} {now : Instant} {nodes : List StoredNode} {s t : Store}
    (h : activateRoots F fresh definition now nodes s = .ok t) :
    ∀ r ∈ t.runs, r ∈ s.runs ∨ ∃ node ∈ nodes, ∃ n ∈ s.workflowNodeRuns,
      n.id = fresh.nodeRunId node.name ∧ r.jobId = n.jobId := by
  induction nodes generalizing s with
  | nil =>
    cases h
    exact fun r hr => .inl hr
  | cons node rest ih =>
    simp only [activateRoots] at h
    split at h
    · intro r hr
      rcases ih h r hr with hold | ⟨m, hm, hrun⟩
      · exact .inl hold
      · exact .inr ⟨m, List.mem_cons_of_mem node hm, hrun⟩
    · obtain ⟨s₁, h₁, h₂⟩ := ok_of_bind h
      obtain ⟨hruns, hnodes⟩ := activate_runs h₁
      intro r hr
      rcases ih h₂ r hr with hr | ⟨m, hm, n', hn', hid, hjob⟩
      · rcases hruns r hr with hold | ⟨n, hn, hid, hjob⟩
        · exact .inl hold
        · exact .inr ⟨node, List.mem_cons_self, n, hn, hid, hjob⟩
      · obtain ⟨n, hn, hnid, hnjob⟩ := hnodes n' hn'
        exact .inr ⟨m, List.mem_cons_of_mem node hm, n, hn, hnid.trans hid, hjob.trans hnjob.symm⟩

/-- What a launch creates is in the Namespace of the definition it commits. -/
theorem start_created (R : Rendering) (fresh : FreshLaunch) (launch : WorkflowLaunch)
    (now : Instant) (s : Store) :
    (start R fresh launch now s).2 = s ∨ ∃ definition ∈ s.catalog.workflows,
      definition.id = launch.workflowId ∧
      (∀ r ∈ (start R fresh launch now s).2.runs, r ∈ s.runs ∨
        JobIn s.catalog r.jobId definition.namespaceId) ∧
      ∀ w ∈ (start R fresh launch now s).2.workflowRuns, w ∈ s.workflowRuns ∨
        w.namespaceId = definition.namespaceId := by
  rcases start_cases R fresh launch now s with hs | ⟨_, t, ht, hs⟩
  · exact .inl hs
  right
  rw [hs]
  obtain ⟨definition, hread, h⟩ := ok_of_bind ht
  split at h
  · cases h
  obtain ⟨s₁, h₁, h⟩ := ok_of_bind h
  obtain ⟨s₂, h₂, h⟩ := ok_of_bind h
  obtain ⟨s₃, h₃, h⟩ := ok_of_bind h
  obtain ⟨s₄, h₄, h⟩ := ok_of_bind h
  obtain ⟨_, _, h⟩ := ok_of_bind h
  cases h
  obtain ⟨hmem, hid⟩ := OptimisticWrites.catalog_ok hread
  have hroots := activateRoots_runs h₄
  obtain ⟨hruns, _⟩ := OptimisticWrites.activateRoots_pins h₄
  obtain ⟨hjobs, _⟩ := prepareNodes_jobs h₂
  have hfresh := OptimisticWrites.prepareNodes_fresh h₂
  obtain ⟨_, rfl⟩ := insertWorkflowRun_ok h₁
  obtain ⟨_, _, rfl, _⟩ := prepareNodes_ok h₂
  obtain ⟨rfl, _⟩ := insertRunEdges_ok h₃
  refine ⟨definition, hmem, hid, ?_, ?_⟩
  · intro r hr
    rcases hroots r hr with hold | ⟨node, hnode, n, hn, hnid, hjob⟩
    · exact .inl hold
    · right
      rw [hjob]
      rcases List.mem_append.mp hn with hn | hn
      · exact absurd hnid (hfresh n hn node hnode)
      · obtain ⟨node', hnode', rfl⟩ := List.mem_map.mp hn
        exact hjobs node' hnode'
  · intro w hw
    rw [hruns] at hw
    rcases List.mem_append.mp hw with hw | hw
    · exact .inl hw
    · rw [List.mem_singleton.mp hw]
      exact .inr rfl

theorem startWorkflow_grants (hs : Invariant owner s) {R : Rendering} {fresh : FreshLaunch}
    {launch : WorkflowLaunch} {now : Instant}
    (hholds : Holds caller (owner (.workflow launch.workflowId))) :
    Grants caller s (.startWorkflow R fresh launch now) := by
  rcases start_created R fresh launch now s.store with
    hsame | ⟨definition, hdefinition, hid, hruns, hworkflowRuns⟩
  · constructor
    · intro r hr hnew
      rw [Transaction.apply, hsame] at hr
      exact absurd rfl (hnew r hr)
    · intro w hw hnew
      rw [Transaction.apply, hsame] at hw
      exact absurd rfl (hnew w hw)
  have howner : owner (.workflow launch.workflowId) = definition.namespaceId := by
    rw [← hid]
    exact hs.owned.workflows definition hdefinition
  rw [howner] at hholds
  constructor
  · intro r hr hnew
    have hjobIn := (hruns r hr).resolve_left fun hold => hnew r hold rfl
    have hnext : ControlPlane.Reachable
        (ControlPlane.next s.control (.startWorkflow R fresh launch now)) :=
      hs.control.tail (e := .startWorkflow R fresh launch now) ⟨trivial, rfl⟩
    obtain ⟨n, hjobIn', htargetIn⟩ := reachable_runsPlaced hnext r hr
    have hcatalog :
        (ControlPlane.next s.control (.startWorkflow R fresh launch now)).store.catalog =
          s.store.catalog := CatalogEdits.start_catalog R fresh launch now s.store
    rw [hcatalog] at hjobIn' htargetIn
    rw [jobIn_owner hs hjobIn', ← jobIn_owner hs hjobIn] at htargetIn
    exact ⟨definition.namespaceId, hjobIn, htargetIn, hholds⟩
  · intro w hw hnew
    rw [(hworkflowRuns w hw).resolve_left fun hold => hnew w hold rfl]
    exact hholds

theorem holds_createRun {grants : GrantSet} {R : Rendering}
    {requestId jobId : Uuid} {target : TargetSelection} {inputs : Value} {fresh : FreshRuns}
    {now : Instant} {n : Uuid} (hjob : grants.allowsNamespace .jobExecute n = true)
    (hcreate : grants.allowsNamespace .runCreate n = true)
    (huse : ∀ c ∈ selectionUse target, grants.allowsNamespace c n = true) :
    Holds ⟨grants, .createRun R requestId jobId target inputs fresh now⟩ n := by
  intro c hc
  rcases List.mem_cons.mp hc with rfl | hc
  · exact hjob
  rcases List.mem_cons.mp hc with rfl | hc
  · exact hcreate
  · exact huse c hc

theorem createRuns_gives (hs : (CatalogEdits.system owner).Reachable s) (R : Rendering)
    (requestId jobId : Uuid) (target : TargetSelection) (inputs : Value) (fresh : FreshRuns)
    (now : Instant) (hholds : Holds caller (owner (.job jobId))) :
    Gives owner caller (fun _ _ => True) s
      (createRuns R requestId jobId target inputs fresh now) := by
  refine Yields.bind (query_gives _) ?_
  intro existing t ht _
  cases existing with
  | some existing => exact (replayRuns_readOnly _ _ _ _ existing).yields t
  | none =>
    refine Yields.bind (transact_gives _ _ ?_) ?_
    · intro u hu
      exact createRuns_grants (CatalogEdits.reachable_invariant ((hs.execution ht).execution hu))
        hholds
    · intro outcome u _ _
      apply ReadOnly.yields
      cases outcome with
      | created => exact (query_readOnly _).bindExcept fun _ => trivial
      | requestTaken =>
        apply (query_readOnly _).bindExcept
        intro existing
        cases existing with
        | none => trivial
        | some existing => exact replayRuns_readOnly _ _ _ _ existing

theorem createRun_gives (hs : (CatalogEdits.system owner).Reachable s) (R : Rendering)
    (grants : GrantSet) (requestId jobId : Uuid) (target : TargetSelection)
    (inputs : Value) (fresh : FreshRuns) (now : Instant) :
    Gives owner ⟨grants, .createRun R requestId jobId target inputs fresh now⟩
      (fun _ _ => True) s (createRun R grants requestId jobId target inputs fresh now) := by
  refine Yields.bind (check_gives _) ?_
  intro _ s₁ h₁ _
  have hs₁ := hs.execution h₁
  refine Yields.bind (resource_gives hs₁ grants rfl trivial) ?_
  intro _ s₂ h₂ hexecute
  have hs₂ := hs₁.execution h₂
  refine Yields.bind (query_gives _) ?_
  intro job s₃ h₃ hjob
  have hs₃ := hs₂.execution h₃
  have howner := getJob_owner (CatalogEdits.reachable_invariant hs₃) hjob
  refine Yields.bind (executionTargets_gives hs₃ grants target) ?_
  rintro ⟨selectionNamespace, targetSetInputs, targets⟩ s₄ h₄ huse
  have hs₄ := hs₃.execution h₄
  refine Yields.bind (ensure_gives _ _) ?_
  intro _ s₅ h₅ hsame
  have hs₅ := hs₄.execution h₅
  have hnamespace : job.namespaceId = selectionNamespace := of_decide_eq_true hsame
  refine Yields.bind (check_gives _) ?_
  intro _ s₆ h₆ _
  have hs₆ := hs₅.execution h₆
  refine Yields.bind (authorize_gives grants .runCreate (.ofNamespace job.namespaceId)) ?_
  intro _ s₇ h₇ hcreate
  refine createRuns_gives (hs₆.execution h₇) R requestId jobId target inputs fresh now ?_
  have hallowed := namespace_allowed rfl hcreate
  rw [howner] at hallowed hnamespace
  rw [← hnamespace] at huse
  exact holds_createRun hexecute hallowed huse

theorem visibility_gives (grants : GrantSet) (c : Capability) :
    Gives owner caller (fun scope _ => scope = grants.visibility c) s
      (ApplicationCalls.visibility grants c) := by
  refine ⟨.refl s, ?_⟩
  intro scope hscope
  unfold GrantPolicy.visibility at hscope
  split at hscope
  · exact (Except.ok.inj hscope).symm
  · cases hscope

theorem runRecord_ok {s : Store} {r : RunRow} {record : StoreReads.RunRecord}
    (h : StoreReads.runRecord s r = some record) :
    record.id = r.id ∧ record.jobId = r.jobId ∧ record.targetId = r.targetId ∧
      JobIn s.catalog r.jobId record.jobNamespace := by
  unfold StoreReads.runRecord at h
  obtain ⟨j, hj, h⟩ := Option.bind_eq_some_iff.mp h
  obtain ⟨t, _, h⟩ := Option.bind_eq_some_iff.mp h
  obtain ⟨q, _, h⟩ := Option.bind_eq_some_iff.mp h
  cases h
  have hid := List.find?_some hj
  rw [decide_eq_true_eq] at hid
  exact ⟨rfl, rfl, rfl, j, List.mem_of_find?_eq_some hj, hid, rfl⟩

def Stands (source : StoreReads.RunRecord) (s : State) : Prop :=
  ∃ r ∈ s.store.runs, r.id = source.id ∧ r.jobId = source.jobId ∧ r.targetId = source.targetId

theorem Stands.later {source : StoreReads.RunRecord} {t : State}
    (h : Stands source s) (hs : (CatalogEdits.system owner).Reachable s)
    (ht : (CatalogEdits.system owner).Execution s t) : Stands source t := by
  obtain ⟨r, hr, hid, hjob, htarget⟩ := h
  have hevolves := execution_evolves (CatalogEdits.reachable_invariant hs).control
    (CatalogEdits.execution_control hs ht)
  obtain ⟨r', hr', hmoved⟩ := hevolves.runs.of_mem hr
  refine ⟨r', hr', ?_, ?_, ?_⟩
  · rw [hmoved.columns]
    exact hid
  · rw [hmoved.columns]
    exact hjob
  · rw [hmoved.columns]
    exact htarget

theorem getRun_gives (hs : (CatalogEdits.system owner).Reachable s) (grants : GrantSet)
    (id : Uuid) :
    Gives owner caller (fun source t => Stands source t ∧
      grants.allowsNamespace .runRead (owner (.job source.jobId)) = true) s
      (ApplicationCalls.getRun grants id) := by
  refine Yields.bind (authorize_gives grants .runRead (.run id)) ?_
  intro _ s₁ h₁ _
  refine Yields.bind (visibility_gives grants .runRead) ?_
  rintro scope s₂ h₂ rfl
  refine Yields.mono_reachable ((hs.execution h₁).execution h₂) ?_ (query_gives _)
  intro source t ht hread
  unfold StoreReads.getRun at hread
  split at hread
  · cases hread
  split at hread
  · cases hread
  rename_i record hfind
  split at hread
  · rename_i hincludes
    cases hread
    obtain ⟨r, hr, hrecord⟩ := Option.bind_eq_some_iff.mp hfind
    obtain ⟨hid, hjob, htarget, hjobIn⟩ := runRecord_ok hrecord
    refine ⟨⟨r, List.mem_of_find?_eq_some hr, hid.symm, hjob.symm, htarget.symm⟩, ?_⟩
    rw [hjob, ← jobIn_owner (CatalogEdits.reachable_invariant ht) hjobIn,
      ← GrantSet.visibility_includes]
    exact hincludes
  · cases hread

theorem insertRerun_gives (F : FloatFormat) (hs : (CatalogEdits.system owner).Reachable s)
    {source : StoreReads.RunRecord} (hsource : Stands source s) (requestId runId : Uuid)
    (ids : DispatchIds) (now : Instant) (hholds : Holds caller (owner (.job source.jobId))) :
    Gives owner caller (fun _ _ => True) s (insertRerun F source.id requestId runId ids now) := by
  refine Yields.bind ((existingRerun_readOnly F requestId source.id).yields s) ?_
  intro existing t ht _
  cases existing with
  | some run => exact ⟨.refl t, fun _ _ => trivial⟩
  | none =>
    refine Yields.bind (transact_gives _ _ ?_) ?_
    · intro u hu
      obtain ⟨r, hr, hid, hjob, _⟩ := hsource.later hs (ht.trans hu)
      rw [← hjob] at hholds
      exact insertRerun_grants
        (CatalogEdits.reachable_invariant (hs.execution (ht.trans hu))) hr hid hholds
    · intro outcome u _ _
      apply ReadOnly.yields
      apply (existingRerun_readOnly _ _ _).bindExcept
      intro existing
      cases existing with
      | none => trivial
      | some run => trivial

theorem rerunRun_gives (F : FloatFormat) (hs : (CatalogEdits.system owner).Reachable s)
    (grants : GrantSet) (sourceId requestId runId : Uuid) (ids : DispatchIds) (now : Instant) :
    Gives owner ⟨grants, .rerunRun F sourceId requestId runId ids now⟩ (fun _ _ => True) s
      (rerunRun F grants sourceId requestId runId ids now) := by
  refine Yields.bind (getRun_gives hs grants sourceId) ?_
  rintro source s₁ h₁ ⟨hsource, hread⟩
  have hs₁ := hs.execution h₁
  -- its Job and its Target were drawn for one Namespace
  have hplace : owner (.target source.targetId) = owner (.job source.jobId) := by
    have hinvariant := CatalogEdits.reachable_invariant hs₁
    obtain ⟨r, hr, _, hjob, htarget⟩ := hsource
    obtain ⟨n, hjobIn, htargetIn⟩ := reachable_runsPlaced hinvariant.control r hr
    rw [← hjob, ← htarget, ← jobIn_owner hinvariant hjobIn, ← targetIn_owner hinvariant htargetIn]
  refine Yields.bind ((ensure_readOnly _ _).yields s₁) ?_
  intro _ s₂ h₂ _
  refine Yields.bind ((ensure_readOnly _ _).yields s₂) ?_
  intro _ s₃ h₃ _
  have hs₃ := hs₁.execution (h₂.trans h₃)
  refine Yields.bind (resource_gives hs₃ grants rfl trivial) ?_
  intro _ s₄ h₄ hexecute
  refine Yields.bind (query_gives _) ?_
  intro job s₅ h₅ hjob
  have hs₅ := hs₃.execution (h₄.trans h₅)
  have howner := getJob_owner (CatalogEdits.reachable_invariant hs₅) hjob
  refine Yields.bind (resource_gives hs₅ grants rfl trivial) ?_
  intro _ s₆ h₆ huse
  refine Yields.bind (authorize_gives grants .runCreate (.ofNamespace job.namespaceId)) ?_
  intro _ s₇ h₇ hcreate
  have hallowed := namespace_allowed rfl hcreate
  rw [howner] at hallowed
  rw [hplace] at huse
  have hlater := hsource.later hs₁ (((h₂.trans h₃).trans (h₄.trans h₅)).trans (h₆.trans h₇))
  refine insertRerun_gives F (hs₅.execution (h₆.trans h₇)) hlater requestId runId ids now ?_
  intro c hc
  simp only [Request.capabilities, List.mem_cons, List.not_mem_nil, or_false] at hc
  rcases hc with rfl | rfl | rfl | rfl
  · exact hread
  · exact hexecute
  · exact huse
  · exact hallowed

/-- A definition that reads back is valid, so it has a node. -/
theorem getWorkflow_owner (hs : Invariant owner s) {id : Uuid} {workflow : WorkflowRecord}
    (h : StoreReads.getWorkflow s.store id = .ok workflow) :
    workflow.namespaceId = owner (.workflow id) ∧ workflow.definition.nodes ≠ [] := by
  obtain ⟨stored, hread, hrecord⟩ := ok_of_bind h
  obtain ⟨hmem, hid⟩ := OptimisticWrites.catalog_ok hread
  obtain ⟨hvalid, hworkflow⟩ := record_ok hrecord
  rw [hworkflow]
  refine ⟨?_, ?_⟩
  · rw [← hid]
    exact (hs.owned.workflows stored hmem).symm
  · exact (WorkflowGraph.validate_ok hvalid).nonempty

theorem validateWorkflowJobs_gives (hs : (CatalogEdits.system owner).Reachable s)
    (grants : GrantSet) (namespaceId : Uuid) {c : Capability}
    (hscope : c.definition.scope = .inNamespace) {nodes : List WorkflowNode} (hnodes : nodes ≠ []) :
    Gives owner caller (fun _ _ => grants.allowsNamespace c namespaceId = true) s
      (validateWorkflowJobs grants namespaceId c nodes) := by
  cases nodes with
  | nil => exact absurd rfl hnodes
  | cons node rest =>
    refine Yields.bind (resource_gives hs grants hscope trivial) ?_
    intro _ s₁ h₁ hallowed
    refine Yields.bind (query_gives _) ?_
    intro job s₂ h₂ hjob
    have howner := getJob_owner
      (CatalogEdits.reachable_invariant ((hs.execution h₁).execution h₂)) hjob
    refine Yields.bind (ensure_gives _ _) ?_
    intro _ s₃ _ hsame
    refine Yields.mono ?_ ((validateWorkflowJobs_readOnly grants namespaceId c rest).yields s₃)
    intro _ _ _
    rw [← of_decide_eq_true hsame, howner]
    exact hallowed

theorem launchWorkflow_gives (hs : (CatalogEdits.system owner).Reachable s) (R : Rendering)
    (grants : GrantSet) (fresh : FreshLaunch) (launch : WorkflowLaunch) (now : Instant)
    (hholds : Holds caller (owner (.workflow launch.workflowId))) :
    Gives owner caller (fun _ _ => True) s (launchWorkflow R grants fresh launch now) := by
  refine Yields.bind (transact_gives _ _ ?_) ?_
  · intro t ht
    exact startWorkflow_grants (CatalogEdits.reachable_invariant (hs.execution ht)) hholds
  · rintro ⟨record, created⟩ t _ _
    apply ReadOnly.yields
    cases created with
    | true => trivial
    | false => exact (authorizeWorkflowReplay_readOnly _ _).bindExcept fun _ => trivial

theorem startWorkflow_gives (hs : (CatalogEdits.system owner).Reachable s) (R : Rendering)
    (grants : GrantSet) (id requestId : Uuid) (target : TargetSelection)
    (inputs : Value) (fresh : FreshLaunch) (now : Instant) :
    Gives owner ⟨grants, .startWorkflow R id requestId target inputs fresh now⟩
      (fun _ _ => True) s
      (startWorkflow R grants id requestId target inputs fresh now) := by
  refine Yields.bind (resource_gives hs grants rfl trivial) ?_
  intro _ s₁ h₁ hworkflow
  refine Yields.bind ((check_readOnly _).yields s₁) ?_
  intro _ s₂ h₂ _
  refine Yields.bind ((workflowRunForRequest_readOnly R.floats requestId inputs).yields s₂) ?_
  intro existing s₃ h₃ _
  have hs₃ := hs.execution (h₁.trans (h₂.trans h₃))
  cases existing with
  | some existing =>
    apply ReadOnly.yields
    apply (ensure_readOnly _ _).bindExcept
    intro _
    exact (authorizeWorkflowReplay_readOnly _ _).bindExcept fun _ => trivial
  | none =>
    refine Yields.bind (query_gives _) ?_
    intro workflow s₄ h₄ hread
    have hs₄ := hs₃.execution h₄
    obtain ⟨howner, hnodes⟩ := getWorkflow_owner (CatalogEdits.reachable_invariant hs₄) hread
    refine Yields.bind (executionTargets_gives hs₄ grants target) ?_
    rintro ⟨namespaceId, targetSetInputs, targets⟩ s₅ h₅ huse
    have hs₅ := hs₄.execution h₅
    refine Yields.bind (ensure_gives _ _) ?_
    intro _ s₆ h₆ hsame
    have hs₆ := hs₅.execution h₆
    have hnamespace : namespaceId = owner (.workflow id) := (of_decide_eq_true hsame).trans howner
    refine Yields.bind (validateWorkflowJobs_gives hs₆ grants namespaceId rfl hnodes) ?_
    intro _ s₇ h₇ hexecute
    refine Yields.bind ((validateWorkflowNodes_readOnly _ _ _ _ _).yields s₇) ?_
    intro _ s₈ h₈ _
    have hs₈ := hs₆.execution (h₇.trans h₈)
    refine Yields.bind (authorize_gives grants .runCreate (.ofNamespace namespaceId)) ?_
    intro _ s₉ h₉ hcreate
    have hallowed := namespace_allowed rfl hcreate
    refine launchWorkflow_gives (hs₈.execution h₉) R grants fresh _ now ?_
    change Holds _ (owner (.workflow id))
    rw [hnamespace] at hexecute hallowed
    intro c hc
    rcases List.mem_cons.mp hc with rfl | hc
    · exact hworkflow
    rcases List.mem_cons.mp hc with rfl | hc
    · exact hexecute
    rcases List.mem_cons.mp hc with rfl | hc
    · exact hallowed
    · rw [← hnamespace]
      exact huse c hc

end Establish

variable {owner : ResourceScope → Uuid}

def creates : ControlPlane.Command → Bool
  | .createRuns _ _ _ _ _ _ _ | .insertRerun _ _ _ _ _ _ | .startWorkflow _ _ _ _ => true
  | _ => false

/-- The catalog is edited by others, and everything else the control plane does goes on. -/
def Others : Event → Prop
  | .edit _ => True
  | .control c => creates c = false

/-- Calls and the others, interleaved step by step. -/
abbrev calls (owner : ResourceScope → Uuid) :
    TransitionSystem (Shared State Store Transaction Caller (Except ApplicationError Unit))
      (ClientEvent Event Caller) :=
  clientSystem (CatalogEdits.system owner) State.store (fun tx => Event.control tx.command) Others
    program

theorem program_gives {s : State} (hs : (CatalogEdits.system owner).Reachable s)
    (caller : Caller) :
    Ensures (CatalogEdits.system owner) State.store (fun tx => Event.control tx.command)
      (Grants caller) (fun _ _ => True) s (program caller) := by
  have hconcluded {α : Type} {x : Call α} (h : Gives owner caller (fun _ _ => True) s x) :
      Ensures (CatalogEdits.system owner) State.store (fun tx => Event.control tx.command)
        (Grants caller) (fun _ _ => True) s (concluded x) :=
    Ensures.bind h fun _ _ _ => trivial
  obtain ⟨grants, request⟩ := caller
  cases request with
  | createRun => exact hconcluded (createRun_gives hs _ _ _ _ _ _ _ _)
  | rerunRun => exact hconcluded (rerunRun_gives _ hs _ _ _ _ _ _)
  | startWorkflow => exact hconcluded (startWorkflow_gives hs _ _ _ _ _ _ _ _)

def CreatesRun (p : State × Transaction) (id : Uuid) : Prop :=
  (∀ r ∈ p.1.store.runs, r.id ≠ id) ∧ ∃ r ∈ (p.2.apply p.1.store).runs, r.id = id

def Launches (p : State × Transaction) (id : Uuid) : Prop :=
  (∀ w ∈ p.1.store.workflowRuns, w.id ≠ id) ∧
    ∃ w ∈ (p.2.apply p.1.store).workflowRuns, w.id = id

def ChildOf (s : Store) (w : WorkflowRunRow) (r : RunRow) : Prop :=
  ∃ n ∈ s.workflowNodeRuns, n.workflowRunId = w.id ∧ r.requestId = some n.id

/-- The Run was created by one of the transactions, or later for an invocation one of them
created. -/
def Created (s : Store) (performed : List (State × Transaction)) (r : RunRow) : Prop :=
  ∃ p ∈ performed, CreatesRun p r.id ∨ ∃ w ∈ s.workflowRuns, Launches p w.id ∧ ChildOf s w r

theorem Created.kept {s t : Store} {performed performed' : List (State × Transaction)}
    {r r' : RunRow} (h : Created s performed r) (hr : RunEvolves r r') (ht : StoreEvolves s t)
    (hperformed : ∀ p ∈ performed, p ∈ performed') : Created t performed' r' := by
  have hid : r'.id = r.id := by rw [hr.columns]
  have hrequest : r'.requestId = r.requestId := by rw [hr.columns]
  obtain ⟨p, hp, hcreates | ⟨w, hw, hlaunches, n, hn, hown, hnode⟩⟩ := h
  · refine ⟨p, hperformed p hp, .inl ?_⟩
    rw [hid]
    exact hcreates
  · obtain ⟨w', hw', hwmoved⟩ := ht.workflowRuns.of_mem hw
    obtain ⟨n', hn', hnmoved⟩ := ht.nodeRuns.of_mem hn
    have hwid : w'.id = w.id := by rw [hwmoved.columns]
    refine ⟨p, hperformed p hp, .inr ⟨w', hw', hwid ▸ hlaunches, n', hn', ?_, ?_⟩⟩
    · rw [hnmoved.columns, hwid]
      exact hown
    · rw [hrequest, hnode, hnmoved.columns]

/-- The Namespace of the Job of a Run is that of its Target, now as when it was created. -/
theorem placed_owner {s : State} (hs : Invariant owner s) {r : RunRow} (hr : r ∈ s.store.runs) :
    JobIn s.store.catalog r.jobId (owner (.job r.jobId)) ∧
      TargetIn s.store.catalog r.targetId (owner (.job r.jobId)) := by
  obtain ⟨n, hjobIn, htargetIn⟩ := reachable_runsPlaced hs.control r hr
  have hn := jobIn_owner hs hjobIn
  rw [hn] at hjobIn htargetIn
  exact ⟨hjobIn, htargetIn⟩

theorem created_granted {s : State} (hs : (CatalogEdits.system owner).Reachable s)
    {caller : Caller} {performed : List (State × Transaction)}
    (hperformed : ∀ p ∈ performed, Conducts (CatalogEdits.system owner)
      (fun tx => Event.control tx.command) Grants s caller p)
    {r : RunRow} (hr : r ∈ s.store.runs) (h : Created s.store performed r) :
    Holds caller (owner (.job r.jobId)) := by
  have hinvariant := CatalogEdits.reachable_invariant hs
  have hkeys := reachable_keysUnique hinvariant.control
  obtain ⟨p, hp, hcreated⟩ := h
  obtain ⟨hreachable, henabled, hgrants, hpast⟩ := hperformed p hp
  have hnext := hreachable.tail ⟨henabled, rfl⟩
  have hevolves := execution_evolves (CatalogEdits.reachable_invariant hnext).control
    (CatalogEdits.execution_control hnext hpast)
  have happly : ((CatalogEdits.system owner).next p.1 (.control p.2.command)).control.store =
      p.2.apply p.1.store := transact_command p.1.control p.2
  rw [happly] at hevolves
  rcases hcreated with ⟨hnew, r₁, hr₁, hid⟩ | ⟨w, hw, ⟨hnew, w₁, hw₁, hid⟩, n, hn, hown, hnode⟩
  · obtain ⟨r₂, hr₂, hmoved⟩ := hevolves.runs.of_mem hr₁
    have hsame : r₂ = r := row_unique hkeys.runs hr₂ hr (by rw [hmoved.columns]; exact hid)
    obtain ⟨m, hjobIn, _, hholds⟩ := hgrants.runs r₁ hr₁ fun r₀ hr₀ => hid ▸ hnew r₀ hr₀
    rw [jobIn_owner (CatalogEdits.reachable_invariant hreachable) hjobIn] at hholds
    rw [← hsame, hmoved.columns]
    exact hholds
  · obtain ⟨w₂, hw₂, hmoved⟩ := hevolves.workflowRuns.of_mem hw₁
    have hsame : w₂ = w :=
      row_unique hkeys.workflowRuns hw₂ hw (by rw [hmoved.columns]; exact hid)
    have hholds := hgrants.invocations w₁ hw₁ fun w₀ hw₀ => hid ▸ hnew w₀ hw₀
    have hnamespace : w.namespaceId = w₁.namespaceId := by rw [← hsame, hmoved.columns]
    have hjobIn := (reachable_placed hinvariant.control).nodes n hn w hw hown.symm
    rw [node_run_job hinvariant.control hn hr hnode, ← jobIn_owner hinvariant hjobIn, hnamespace]
    exact hholds

theorem others_writes {s t : State} {e : Event} (hs : Invariant owner s) (he : Others e)
    (h : (CatalogEdits.system owner).Step s e t) :
    ∃ scope, scope.request = none ∧ scope.launching = false ∧ Writes scope s.store t.store := by
  obtain ⟨henabled, rfl⟩ := h
  have hkeys := reachable_keysUnique hs.control
  cases e with
  | edit e =>
    exact ⟨.plain, rfl, rfl, .single (.editCatalog _ _ (hs.succeeds henabled).retains)⟩
  | control c =>
    refine ⟨scopeOf c, ?_, ?_, transact_writes hkeys henabled.1⟩
    · cases c <;> first | rfl | cases he
    · cases c <;> first | rfl | cases he

/-- Whatever a step of a call brings into being is on the record of the call. -/
theorem advance_creates (s : State)
    (c : Client State Store Transaction Caller (Except ApplicationError Unit)) :
    (∀ r ∈ (advanceState (CatalogEdits.system owner) (fun tx => Event.control tx.command) s
        c).store.runs, (∃ r₀ ∈ s.store.runs, r₀.id = r.id) ∨
          ∃ p ∈ (c.advance State.store s).performed, CreatesRun p r.id) ∧
      (∀ w ∈ (advanceState (CatalogEdits.system owner) (fun tx => Event.control tx.command) s
        c).store.workflowRuns, (∃ w₀ ∈ s.store.workflowRuns, w₀.id = w.id) ∨
          ∃ p ∈ (c.advance State.store s).performed, Launches p w.id) := by
  obtain ⟨caller, program, performed⟩ := c
  cases program with
  | done a => exact ⟨fun r hr => .inl ⟨r, hr, rfl⟩, fun w hw => .inl ⟨w, hw, rfl⟩⟩
  | read resume => exact ⟨fun r hr => .inl ⟨r, hr, rfl⟩, fun w hw => .inl ⟨w, hw, rfl⟩⟩
  | perform tx resume =>
    have happly : ((CatalogEdits.system owner).next s (.control tx.command)).store =
        tx.apply s.store := transact_command s.control tx
    have hrecorded : (s, tx) ∈ performed ++ [(s, tx)] :=
      List.mem_append_right _ (List.mem_singleton.mpr rfl)
    change (∀ r ∈ ((CatalogEdits.system owner).next s (.control tx.command)).store.runs, _) ∧
      (∀ w ∈ ((CatalogEdits.system owner).next s (.control tx.command)).store.workflowRuns, _)
    rw [happly]
    refine ⟨?_, ?_⟩
    · intro r hr
      by_cases hold : ∃ r₀ ∈ s.store.runs, r₀.id = r.id
      · exact .inl hold
      · refine .inr ⟨(s, tx), hrecorded, ?_, r, hr, rfl⟩
        exact fun r₀ hr₀ hid => hold ⟨r₀, hr₀, hid⟩
    · intro w hw
      by_cases hold : ∃ w₀ ∈ s.store.workflowRuns, w₀.id = w.id
      · exact .inl hold
      · refine .inr ⟨(s, tx), hrecorded, ?_, w, hw, rfl⟩
        exact fun w₀ hw₀ hid => hold ⟨w₀, hw₀, hid⟩

structure Accounted (x : Shared State Store Transaction Caller (Except ApplicationError Unit)) :
    Prop where
  runs : ∀ r ∈ x.state.store.runs, r.requestId.isSome = true →
    ∃ c ∈ x.clients, Created x.state.store c.performed r
  invocations : ∀ w ∈ x.state.store.workflowRuns, ∃ c ∈ x.clients, ∃ p ∈ c.performed,
    Launches p w.id

theorem Accounted.step {x y : Shared State Store Transaction Caller (Except ApplicationError Unit)}
    {e : ClientEvent Event Caller} (h : Accounted x)
    (hx : (CatalogEdits.system owner).Reachable x.state) (hstep : (calls owner).Step x e y) :
    Accounted y := by
  have hperformed := step_performed hstep
  have hexecution := step_execution hstep
  have hy := CatalogEdits.reachable_invariant (hx.execution hexecution)
  have hkeys := reachable_keysUnique hy.control
  have hevolves := execution_evolves (CatalogEdits.reachable_invariant hx).control
    (CatalogEdits.execution_control hx hexecution)
  -- rows that were there before
  have hrun {r₀ r : RunRow} (hr₀ : r₀ ∈ x.state.store.runs) (hmoved : RunEvolves r₀ r)
      (hsome : r.requestId.isSome = true) :
      ∃ c ∈ y.clients, Created y.state.store c.performed r := by
    rw [hmoved.columns] at hsome
    obtain ⟨c, hc, hcreated⟩ := h.runs r₀ hr₀ hsome
    obtain ⟨c', hc', hkept⟩ := hperformed c hc
    exact ⟨c', hc', hcreated.kept hmoved hevolves hkept⟩
  have hinvocation {w₀ w : WorkflowRunRow} (hw₀ : w₀ ∈ x.state.store.workflowRuns)
      (hid : w.id = w₀.id) : ∃ c ∈ y.clients, ∃ p ∈ c.performed, Launches p w.id := by
    obtain ⟨c, hc, p, hp, hlaunches⟩ := h.invocations w₀ hw₀
    obtain ⟨c', hc', hkept⟩ := hperformed c hc
    exact ⟨c', hc', p, hkept p hp, hid ▸ hlaunches⟩
  obtain ⟨he, rfl⟩ := hstep
  cases e with
  | environment e =>
    have hinvariant := CatalogEdits.reachable_invariant hx
    obtain ⟨scope, hrequest, hlaunch, hwrites⟩ := others_writes hinvariant he.1 ⟨he.2, rfl⟩
    have hsteady := Writes.steady hwrites hlaunch (reachable_keysUnique hinvariant.control)
    have hinvocations : ∀ w ∈ ((calls owner).next x (.environment e)).state.store.workflowRuns,
        ∃ c ∈ ((calls owner).next x (.environment e)).clients, ∃ p ∈ c.performed,
          Launches p w.id := by
      intro w hw
      obtain ⟨w₀, hw₀, hmoved⟩ := hsteady.workflowRuns w hw
      refine hinvocation hw₀ ?_
      rw [hmoved.columns]
    refine ⟨?_, hinvocations⟩
    intro r hr hsome
    rcases hwrites.run_origin r hr with ⟨r₀, hr₀, hmoved⟩ | hnew
    · exact hrun hr₀ hmoved hsome
    obtain ⟨requestId, hrequestId⟩ := Option.isSome_iff_exists.mp hsome
    rcases hnew requestId hrequestId with hown | ⟨_, _, ⟨n, hn, hnid⟩, _⟩
    · rw [hrequest] at hown
      cases hown
    · obtain ⟨w, hw, hwid⟩ :=
        (WorkflowProgress.reachable_orchestrated hy.control).phased.charted.owner n hn
      obtain ⟨c, hc, p, hp, hlaunches⟩ := hinvocations w hw
      exact ⟨c, hc, p, hp, .inr ⟨w, hw, hlaunches, n, hn, hwid.symm, hnid ▸ hrequestId⟩⟩
  | call caller =>
    exact ⟨fun r hr => hrun hr (.refl r), fun w hw => hinvocation hw rfl⟩
  | advance i =>
    obtain ⟨own, hget, _⟩ := he
    have hmem : own.advance State.store x.state ∈ ((calls owner).next x (.advance i)).clients := by
      simp only [clientSystem, hget]
      obtain ⟨hi, _⟩ := List.getElem?_eq_some_iff.mp hget
      exact List.mem_set hi _
    have hstate : ((calls owner).next x (.advance i)).state =
        advanceState (CatalogEdits.system owner) (fun tx => Event.control tx.command) x.state
          own := by
      simp only [clientSystem, hget]
    -- the step creates a row that was not there before, or the row is accounted for already
    have hnew : (∀ r ∈ ((calls owner).next x (.advance i)).state.store.runs,
          (∃ r₀ ∈ x.state.store.runs, r₀.id = r.id) ∨
            ∃ p ∈ (own.advance State.store x.state).performed, CreatesRun p r.id) ∧
        (∀ w ∈ ((calls owner).next x (.advance i)).state.store.workflowRuns,
          (∃ w₀ ∈ x.state.store.workflowRuns, w₀.id = w.id) ∨
            ∃ p ∈ (own.advance State.store x.state).performed, Launches p w.id) := by
      rw [hstate]
      exact advance_creates x.state own
    refine ⟨?_, ?_⟩
    · intro r hr hsome
      rcases hnew.1 r hr with ⟨r₀, hr₀, hid⟩ | ⟨p, hp, hcreates⟩
      · obtain ⟨r₁, hr₁, hmoved⟩ := hevolves.runs.of_mem hr₀
        have hsame : r₁ = r := row_unique hkeys.runs hr₁ hr (by rw [hmoved.columns]; exact hid)
        exact hrun hr₀ (hsame ▸ hmoved) hsome
      · exact ⟨_, hmem, p, hp, .inl hcreates⟩
    · intro w hw
      rcases hnew.2 w hw with ⟨w₀, hw₀, hid⟩ | ⟨p, hp, hlaunches⟩
      · exact hinvocation hw₀ hid.symm
      · exact ⟨_, hmem, p, hp, hlaunches⟩

theorem reachable_accounted
    {x : Shared State Store Transaction Caller (Except ApplicationError Unit)}
    (h : (calls owner).Reachable x) : Accounted x := by
  refine h.invariant_of (P := Accounted) (fun _ => reachable_shared) ?_ ?_
  · rintro ⟨state, clients⟩ ⟨⟨queues, targets, schedules, _, _, rfl⟩, _⟩
    exact ⟨fun r hr => absurd hr List.not_mem_nil, fun w hw => absurd hw List.not_mem_nil⟩
  · exact fun x e y hx hy hstep => hy.step hx hstep

/-- Nothing executes without grants. In any interleaving, a Run that a call created, itself or
through an invocation, is for a Job and a Target of one Namespace in which the caller holds
everything its request asks for; every requested Run was created by a call; and a call that was
denied has changed nothing. -/
theorem granted_runs {x : Shared State Store Transaction Caller (Except ApplicationError Unit)}
    (h : (calls owner).Reachable x) :
    (∀ c ∈ x.clients, ∀ r ∈ x.state.store.runs, Created x.state.store c.performed r →
      ∃ n, JobIn x.state.store.catalog r.jobId n ∧ TargetIn x.state.store.catalog r.targetId n ∧
        Holds c.caller n) ∧
    (∀ r ∈ x.state.store.runs, r.requestId.isSome = true →
      ∃ c ∈ x.clients, Created x.state.store c.performed r) ∧
    (∀ c ∈ x.clients, ∀ e, c.program = .done (.error (.authorization e)) →
      ∀ p ∈ c.performed, p.2.apply p.1.store = p.1.store) := by
  have hreachable := reachable_shared h
  refine ⟨?_, (reachable_accounted h).runs, ?_⟩
  · intro c hc r hr hcreated
    have hperformed : ∀ p ∈ c.performed, Conducts (CatalogEdits.system owner)
        (fun tx => Event.control tx.command) Grants x.state c.caller p :=
      performed_allowed (fun _ caller hs => program_gives hs caller) h c hc
    obtain ⟨hjobIn, htargetIn⟩ :=
      placed_owner (CatalogEdits.reachable_invariant hreachable) hr
    exact ⟨_, hjobIn, htargetIn, created_granted hreachable hperformed hr hcreated⟩
  · intro c hc e hdone
    exact failed_unchanged program_clean h c hc _ hdone ⟨e, rfl⟩

def demoGrantedAssignments : Assignments :=
  [Capability.jobExecute, .targetUse, .runCreate].foldl
    (fun a c => insertPermission a (.inNamespace 3) c) .empty

theorem demoGrantedAssignments_entries :
    insertEntries 0 [(.inNamespace 3, [.jobExecute, .targetUse, .runCreate])] .empty =
      .ok demoGrantedAssignments := by
  decide +kernel

def demoGranted : GrantSet :=
  ⟨demoGrantedAssignments, insertEntries_normal demoGrantedAssignments_entries⟩

def demoRequest : Request :=
  .createRun ControlPlane.demoRendering 5 2 (.target 4) (.object [])
    ⟨fun _ => 6, fun _ => ⟨7, 8⟩⟩ 0

def demoShared : Shared State Store Transaction Caller (Except ApplicationError Unit) :=
  ⟨⟨⟨emptyStore ⟨[ControlPlane.demoQueue], [], [ControlPlane.demoTarget], [], [], []⟩ [], [], [],
    [], []⟩, ⟨[], [], []⟩⟩, []⟩

/-- The Job is created, one caller holds the grants, the other holds none, and the Job is edited
before the Run is committed. -/
def demoInterleaving : List (ClientEvent Event Caller) :=
  [.environment (.edit (.createJob ControlPlane.demoJob)), .call ⟨demoGranted, demoRequest⟩,
    .call ⟨.default, demoRequest⟩, .advance 0, .advance 0, .advance 1, .advance 0, .advance 0,
    .environment (.edit (.updateJob 2 { ControlPlane.demoJob with name := "restore" })),
    .advance 0, .advance 0, .advance 0, .advance 0]

theorem demoInterleaving_admitted : (calls fun _ => 3).Admits demoShared demoInterleaving :=
  ⟨⟨trivial, rfl⟩, trivial, trivial, ⟨_, rfl, trivial⟩, ⟨_, rfl, trivial⟩, ⟨_, rfl, trivial⟩,
    ⟨_, rfl, trivial⟩, ⟨_, rfl, trivial⟩, ⟨trivial, trivial⟩, ⟨_, rfl, trivial⟩,
    ⟨_, rfl, trivial⟩, ⟨_, rfl, trivial, rfl⟩, ⟨_, rfl, trivial⟩, trivial⟩

def demoInterleaved : Shared State Store Transaction Caller (Except ApplicationError Unit) :=
  (calls fun _ => 3).run demoShared demoInterleaving

theorem granted_runs_demo :
    (∃ r ∈ demoInterleaved.state.store.runs, ∃ c ∈ demoInterleaved.clients,
      Created demoInterleaved.state.store c.performed r ∧
        ∃ n, JobIn demoInterleaved.state.store.catalog r.jobId n ∧
          TargetIn demoInterleaved.state.store.catalog r.targetId n ∧ Holds c.caller n) ∧
    ∃ c ∈ demoInterleaved.clients,
      c.program = .done (.error (.authorization .forbidden)) ∧
        ∀ p ∈ c.performed, p.2.apply p.1.store = p.1.store := by
  have hreachable : (calls fun _ => 3).Reachable demoInterleaved :=
    ⟨demoShared, ⟨⟨[ControlPlane.demoQueue], [ControlPlane.demoTarget], [], by decide, by decide,
      rfl⟩, rfl⟩, .of_admits demoInterleaving_admitted⟩
  obtain ⟨hgranted, hcreated, hdenied⟩ := granted_runs hreachable
  have hlength : demoInterleaved.state.store.runs.length = 1 := by decide +kernel
  obtain ⟨r, hruns⟩ := List.length_eq_one_iff.mp hlength
  have hr : r ∈ demoInterleaved.state.store.runs := by
    rw [hruns]
    exact List.mem_singleton.mpr rfl
  have hrequested : ∀ r ∈ demoInterleaved.state.store.runs, r.requestId.isSome = true := by
    decide +kernel
  obtain ⟨c, hc, hown⟩ := hcreated r hr (hrequested r hr)
  refine ⟨⟨r, hr, c, hc, hown, hgranted c hc r hr hown⟩, ?_⟩
  have hsecond : ∃ c, demoInterleaved.clients[1]? = some c ∧
      c.program = .done (.error (.authorization .forbidden)) := ⟨_, rfl, rfl⟩
  obtain ⟨c, hget, hprogram⟩ := hsecond
  have hc := List.mem_of_getElem? hget
  exact ⟨c, hc, hprogram, hdenied c hc _ hprogram⟩

end GrantedRuns
