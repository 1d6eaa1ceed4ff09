import Crono.GrantSets

/-! Decisions of the grant authorizer. The Namespace of a resource comes from a read-only
lookup; a single read and the filter of a list agree on every Namespace. -/
namespace GrantPolicy

open RunDomain Capabilities GrantSets

/-- Denial or policy dependency failure; none of these variants grants access. -/
inductive AuthorizationError where
  | unauthenticated
  | forbidden
  | notFound
  | unavailable
  deriving DecidableEq, Repr

/-- `ResourceNamespaceResolver::namespace_for`. -/
abbrev NamespaceResolver := ResourceScope → Except AuthorizationError (Option Uuid)

/-- Keep read-protected graphs and execution history indistinguishable from missing data. -/
def denial : Capability → AuthorizationError
  | .runRead | .workflowRead | .workflowRunRead => .notFound
  | _ => .forbidden

/-- The Namespace a decision is about: direct references are not looked up. -/
def resourceNamespace (namespaceFor : NamespaceResolver) :
    ResourceScope → Except AuthorizationError Uuid
  | .ofNamespace id => .ok id
  | resource =>
    match namespaceFor resource with
    | .error e => .error e
    | .ok none => .error .notFound
    | .ok (some id) => .ok id

/-- `GrantAuthorizer::authorize`. -/
def authorize (namespaceFor : NamespaceResolver) (grants : GrantSet) (c : Capability)
    (resource : ResourceScope) : Except AuthorizationError Unit :=
  if !c.acceptsResource resource then .error .forbidden
  else if c.definition.scope = .global then
    if grants.allowsGlobal c then .ok () else .error .forbidden
  else
    match grants.visibility c with
    | .none => .error (denial c)
    | .all => .ok ()
    | .namespaces _ =>
      match resourceNamespace namespaceFor resource with
      | .error e => .error e
      | .ok namespaceId =>
        if grants.allowsNamespace c namespaceId then .ok () else .error (denial c)

/-- `identifier.rsplit('.').next()`: what follows the last dot. -/
def lastSegment (identifier : String) : String :=
  String.ofList (identifier.toList.reverse.takeWhile (· ≠ '.')).reverse

/-- A permission whose lists are filtered by Namespace. -/
def readsNamespaces (c : Capability) : Bool :=
  c.definition.scope = .inNamespace && lastSegment c.definition.identifier = "read"

/-- `GrantAuthorizer::visibility`. -/
def visibility (grants : GrantSet) (c : Capability) : Except AuthorizationError VisibilityScope :=
  if readsNamespaces c then .ok (grants.visibility c) else .error .forbidden

/-- A decision on a resource of a known Namespace is the decision on that Namespace. -/
theorem authorize_iff {namespaceFor : NamespaceResolver} {grants : GrantSet} {c : Capability}
    {resource : ResourceScope} {namespaceId : Uuid} (hscope : c.definition.scope = .inNamespace)
    (haccepts : c.acceptsResource resource = true)
    (hexists : resourceNamespace namespaceFor resource = .ok namespaceId) :
    authorize namespaceFor grants c resource = .ok () ↔
      grants.allowsNamespace c namespaceId = true := by
  have hincludes := grants.visibility_includes c namespaceId
  unfold authorize
  simp only [haccepts, hscope, Bool.not_true, Bool.false_eq_true, if_false, reduceCtorEq]
  rw [← hincludes]
  cases hvisible : grants.visibility c with
  | all => simp [VisibilityScope.includes]
  | none => simp [VisibilityScope.includes]
  | namespaces ids =>
    rw [hvisible] at hincludes
    rw [hincludes]
    simp only [hexists]
    by_cases hallowed : grants.allowsNamespace c namespaceId = true
    · simp [hallowed]
    · simp [hallowed]

/-- The entries of a grant set decide its authority pair by pair, whatever their order and
splitting, and a single read succeeds exactly where the list filter shows the row. -/
theorem grant_authority_exact (entries : List (GrantScope × List Capability)) :
    ((∃ e, GrantSet.new entries = .error e) ↔
      256 < entries.length ∨
        ∃ e ∈ entries, ∃ c ∈ e.2, compatible e.1 c.definition.scope = false) ∧
    ∀ g, GrantSet.new entries = .ok g →
      (∀ c n, g.allowsNamespace c n = true ↔
        ∃ e ∈ entries, c ∈ e.2 ∧ (e.1 = .allNamespaces ∨ e.1 = .inNamespace n)) ∧
      (∀ c, g.allowsGlobal c = true ↔ ∃ e ∈ entries, c ∈ e.2 ∧ e.1 = .global) ∧
      (∀ entries' g', GrantSet.new entries' = .ok g' →
        (∀ scope c, Lists entries' scope c ↔ Lists entries scope c) → g' = g) ∧
      ∀ (namespaceFor : NamespaceResolver) (c : Capability) (resource : ResourceScope) (n : Uuid),
        readsNamespaces c = true → c.acceptsResource resource = true →
        resourceNamespace namespaceFor resource = .ok n →
        ∃ scope, visibility g c = .ok scope ∧
          (authorize namespaceFor g c resource = .ok () ↔ scope.includes n = true) := by
  constructor
  · rw [GrantSet.new_error_iff]
    simp [Compatible, maxGrantEntries]
  intro g hg
  have hcontains := GrantSet.new_contains hg
  refine ⟨?_, ?_, ?_, ?_⟩
  · intro c n
    rw [GrantSet.allowsNamespace, Bool.or_eq_true, hcontains, hcontains]
    constructor
    · rintro (⟨e, he, hscope, hc⟩ | ⟨e, he, hscope, hc⟩)
      · exact ⟨e, he, hc, .inl hscope⟩
      · exact ⟨e, he, hc, .inr hscope⟩
    · rintro ⟨e, he, hc, hscope | hscope⟩
      · exact .inl ⟨e, he, hscope, hc⟩
      · exact .inr ⟨e, he, hscope, hc⟩
  · intro c
    rw [GrantSet.allowsGlobal, hcontains]
    simp only [GrantSets.Lists, and_comm]
  · intro entries' g' hg' hsame
    apply GrantSet.ext_contains
    intro scope c
    rw [Bool.eq_iff_iff, GrantSet.new_contains hg', hcontains, hsame]
  · intro namespaceFor c resource n hreads haccepts hexists
    refine ⟨g.visibility c, by simp [visibility, hreads], ?_⟩
    simp only [readsNamespaces, Bool.and_eq_true, decide_eq_true_eq] at hreads
    rw [authorize_iff hreads.1 haccepts hexists, GrantSet.visibility_includes]

/-- Job 7 lives in Namespace 1; execution is granted there, reading also in Namespace 2. -/
def demoEntries : List (GrantScope × List Capability) :=
  [(.inNamespace 1, [.jobRead, .jobExecute]), (.inNamespace 2, [.jobRead]),
    (.global, [.queueRead])]

def demoNamespaceFor : NamespaceResolver
  | .job 7 => .ok (some 1)
  | _ => .ok none

theorem demoEntries_accepted : ∃ g, GrantSet.new demoEntries = .ok g := by
  have hcompatible : Compatible demoEntries := by
    unfold Compatible
    decide
  cases hnew : GrantSet.new demoEntries with
  | ok g => exact ⟨g, rfl⟩
  | error e =>
    rcases (GrantSet.new_error_iff demoEntries).mp ⟨e, hnew⟩ with hlength | hnot
    · simp [demoEntries, maxGrantEntries] at hlength
    · exact absurd hcompatible hnot

theorem grant_authority_exact_demo :
    ∃ g, GrantSet.new demoEntries = .ok g ∧
      (g.allowsNamespace .jobExecute 1 = true ↔ ∃ e ∈ demoEntries, .jobExecute ∈ e.2 ∧
        (e.1 = .allNamespaces ∨ e.1 = .inNamespace 1)) ∧
      ∃ scope, visibility g .jobRead = .ok scope ∧
        (authorize demoNamespaceFor g .jobRead (.job 7) = .ok () ↔ scope.includes 1 = true) := by
  obtain ⟨g, hg⟩ := demoEntries_accepted
  have hexact := (grant_authority_exact demoEntries).2 g hg
  exact ⟨g, hg, hexact.1 .jobExecute 1,
    hexact.2.2.2 demoNamespaceFor .jobRead (.job 7) 1 (by decide +kernel) rfl rfl⟩

end GrantPolicy
