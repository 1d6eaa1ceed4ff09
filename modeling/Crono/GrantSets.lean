import Crono.Capabilities
import Crono.OrderedMap

/-! Normalised authority. Permissions stay bound to the scope of the assignment that lists
them; a grant set is determined by the pairs of scope and permission its entries list. -/
namespace GrantSets

open RunDomain Capabilities

/-- Scope of one assignment; global authority never implies Namespace authority. -/
inductive GrantScope where
  | global
  | allNamespaces
  | inNamespace (namespaceId : Uuid)
  deriving DecidableEq, Repr

def GrantScope.rank : GrantScope → ℕ
  | .global => 0
  | .allNamespaces => 1
  | .inNamespace namespaceId => namespaceId + 2

instance : LinearOrder GrantScope :=
  LinearOrder.lift' GrantScope.rank fun a b h => by
    cases a <;> cases b <;> simp_all [GrantScope.rank]

inductive GrantError where
  | invalidDocument
  | unsupportedVersion
  | unknownPermission
  | incompatibleScope
  | tooLarge
  deriving DecidableEq, Repr

def maxGrantEntries : ℕ := 256

/-- `BTreeMap<GrantScope, BTreeSet<Capability>>`. -/
abbrev Assignments := OrderedMap GrantScope (OrderedSet Capability)

def compatible : GrantScope → PermissionScope → Bool
  | .global, .global => true
  | .inNamespace _, .inNamespace | .allNamespaces, .inNamespace => true
  | _, _ => false

def contains (a : Assignments) (scope : GrantScope) (c : Capability) : Bool :=
  (a.get scope).any fun permissions => OrderedSet.contains permissions c

/-- `assignments.entry(scope).or_default().insert(permission)`. -/
def insertPermission (a : Assignments) (scope : GrantScope) (c : Capability) : Assignments :=
  a.alter scope fun permissions => OrderedSet.insert (permissions.getD .empty) c

/-- The inner loop of `GrantSet::new`. -/
def insertPermissions (scope : GrantScope) : List Capability → Assignments →
    Except GrantError Assignments
  | [], a => .ok a
  | c :: rest, a =>
    if compatible scope c.definition.scope then
      insertPermissions scope rest (insertPermission a scope c)
    else .error .incompatibleScope

/-- The outer loop of `GrantSet::new`, from the entry with this index on. -/
def insertEntries : ℕ → List (GrantScope × List Capability) → Assignments →
    Except GrantError Assignments
  | _, [], a => .ok a
  | index, (scope, permissions) :: rest, a =>
    if maxGrantEntries ≤ index then .error .tooLarge
    else do
      let a ← insertPermissions scope permissions a
      insertEntries (index + 1) rest a

def Populated (a : Assignments) : Prop :=
  ∀ scope permissions, a.get scope = some permissions →
    ∃ c, OrderedSet.contains permissions c = true

structure Normal (a : Assignments) : Prop where
  compatible : ∀ scope c, contains a scope c = true → compatible scope c.definition.scope = true
  populated : Populated a
  bounded : a.entries.length ≤ maxGrantEntries

theorem contains_empty (scope : GrantScope) (c : Capability) :
    contains .empty scope c = false := rfl

theorem contains_insertPermission (a : Assignments) (scope scope' : GrantScope)
    (c c' : Capability) :
    contains (insertPermission a scope c) scope' c' = true ↔
      (scope' = scope ∧ c' = c) ∨ contains a scope' c' = true := by
  unfold contains insertPermission
  rw [OrderedMap.get_alter]
  by_cases h : scope' = scope
  · subst h
    cases a.get scope' <;> simp
  · simp [h]

/-- Assignments without empty sets are determined by their pairs. -/
theorem assignments_ext {a b : Assignments} (ha : Populated a) (hb : Populated b)
    (h : ∀ scope c, contains a scope c = contains b scope c) : a = b := by
  apply OrderedMap.ext_get
  intro scope
  have hpairs : ∀ c, (a.get scope).any (fun p => OrderedSet.contains p c) =
      (b.get scope).any fun p => OrderedSet.contains p c := h scope
  cases hga : a.get scope with
  | none =>
    cases hgb : b.get scope with
    | none => rfl
    | some q =>
      obtain ⟨c, hc⟩ := hb scope q hgb
      have hpair := hpairs c
      simp [hga, hgb, hc] at hpair
  | some p =>
    cases hgb : b.get scope with
    | none =>
      obtain ⟨c, hc⟩ := ha scope p hga
      have hpair := hpairs c
      simp [hga, hgb, hc] at hpair
    | some q =>
      have hsame : p = q := by
        apply OrderedSet.ext_contains
        intro c
        simpa [hga, hgb] using hpairs c
      rw [hsame]

/-- Some entry lists the permission at this scope. -/
def Lists (entries : List (GrantScope × List Capability)) (scope : GrantScope)
    (c : Capability) : Prop :=
  ∃ e ∈ entries, e.1 = scope ∧ c ∈ e.2

theorem lists_cons {scope scope' : GrantScope} {permissions : List Capability} {c : Capability}
    {rest : List (GrantScope × List Capability)} :
    Lists ((scope, permissions) :: rest) scope' c ↔
      (scope' = scope ∧ c ∈ permissions) ∨ Lists rest scope' c := by
  simp only [Lists, List.mem_cons, exists_eq_or_imp, eq_comm]

/-- Every listed permission may be assigned at the scope of its entry. -/
def Compatible (entries : List (GrantScope × List Capability)) : Prop :=
  ∀ e ∈ entries, ∀ c ∈ e.2, compatible e.1 c.definition.scope = true

theorem insertPermission_populated {a : Assignments} (h : Populated a) (scope : GrantScope)
    (c : Capability) : Populated (insertPermission a scope c) := by
  intro scope' permissions hget
  rw [insertPermission, OrderedMap.get_alter] at hget
  split at hget
  · cases hget
    exact ⟨c, (OrderedSet.contains_insert _ c c).mpr (.inl rfl)⟩
  · exact h scope' permissions hget

theorem insertPermissions_iff (scope : GrantScope) (permissions : List Capability)
    (a : Assignments) :
    (∃ b, insertPermissions scope permissions a = .ok b) ↔
      ∀ c ∈ permissions, compatible scope c.definition.scope = true := by
  induction permissions generalizing a with
  | nil => simp [insertPermissions]
  | cons c rest ih =>
    by_cases h : compatible scope c.definition.scope = true
    · simp [insertPermissions, h, ih]
    · simp [insertPermissions, h]

theorem insertPermissions_contains {scope : GrantScope} {permissions : List Capability}
    {a b : Assignments} (h : insertPermissions scope permissions a = .ok b)
    (scope' : GrantScope) (c : Capability) :
    contains b scope' c = true ↔
      (scope' = scope ∧ c ∈ permissions) ∨ contains a scope' c = true := by
  induction permissions generalizing a with
  | nil =>
    cases h
    simp
  | cons c' rest ih =>
    unfold insertPermissions at h
    split at h
    · rw [ih h, contains_insertPermission, List.mem_cons]
      tauto
    · cases h

theorem insertPermissions_populated {scope : GrantScope} {permissions : List Capability}
    {a b : Assignments} (ha : Populated a) (h : insertPermissions scope permissions a = .ok b) :
    Populated b := by
  induction permissions generalizing a with
  | nil =>
    cases h
    exact ha
  | cons c rest ih =>
    unfold insertPermissions at h
    split at h
    · exact ih (insertPermission_populated ha scope c) h
    · cases h

theorem insertEntries_cons {index : ℕ} {scope : GrantScope} {permissions : List Capability}
    {rest : List (GrantScope × List Capability)} {a b : Assignments} :
    insertEntries index ((scope, permissions) :: rest) a = .ok b ↔
      index < maxGrantEntries ∧ ∃ a₁, insertPermissions scope permissions a = .ok a₁ ∧
        insertEntries (index + 1) rest a₁ = .ok b := by
  rw [insertEntries]
  by_cases hindex : maxGrantEntries ≤ index
  · simp [hindex, Nat.not_lt.mpr hindex]
  · rw [if_neg hindex]
    cases insertPermissions scope permissions a with
    | error e => simp [bind, Except.bind]
    | ok a₁ => simp [bind, Except.bind, Nat.lt_of_not_le hindex]

theorem insertEntries_iff {index : ℕ} (entries : List (GrantScope × List Capability))
    (a : Assignments) (hindex : index ≤ maxGrantEntries) :
    (∃ b, insertEntries index entries a = .ok b) ↔
      index + entries.length ≤ maxGrantEntries ∧ Compatible entries := by
  induction entries generalizing index a with
  | nil => simp [insertEntries, hindex, Compatible]
  | cons e rest ih =>
    obtain ⟨scope, permissions⟩ := e
    constructor
    · rintro ⟨b, hb⟩
      obtain ⟨hlt, a₁, h₁, h₂⟩ := insertEntries_cons.mp hb
      obtain ⟨hlength, hrest⟩ := (ih a₁ hlt).mp ⟨b, h₂⟩
      refine ⟨by rw [List.length_cons]; omega, ?_⟩
      intro e he
      rcases List.mem_cons.mp he with rfl | he
      · exact (insertPermissions_iff scope permissions a).mp ⟨a₁, h₁⟩
      · exact hrest e he
    · rintro ⟨hlength, hcompatible⟩
      rw [List.length_cons] at hlength
      obtain ⟨a₁, h₁⟩ := (insertPermissions_iff scope permissions a).mpr
        (hcompatible _ List.mem_cons_self)
      obtain ⟨b, h₂⟩ := (ih a₁ (by omega : index + 1 ≤ maxGrantEntries)).mpr
        ⟨by omega, fun e he => hcompatible e (List.mem_cons_of_mem _ he)⟩
      exact ⟨b, insertEntries_cons.mpr ⟨by omega, a₁, h₁, h₂⟩⟩

theorem insertEntries_spec {index : ℕ} {entries : List (GrantScope × List Capability)}
    {a b : Assignments} (ha : Populated a) (h : insertEntries index entries a = .ok b) :
    Populated b ∧ ∀ scope c, contains b scope c = true ↔
      Lists entries scope c ∨ contains a scope c = true := by
  induction entries generalizing index a with
  | nil =>
    cases h
    exact ⟨ha, fun scope c => by simp [Lists]⟩
  | cons e rest ih =>
    obtain ⟨scope, permissions⟩ := e
    obtain ⟨_, a₁, h₁, h₂⟩ := insertEntries_cons.mp h
    obtain ⟨hpopulated, hcontains⟩ := ih (insertPermissions_populated ha h₁) h₂
    refine ⟨hpopulated, ?_⟩
    intro scope' c
    rw [hcontains, insertPermissions_contains h₁, lists_cons]
    tauto

/-- The keys of the map are scopes of entries, so there are no more of them. -/
theorem entries_length_le {entries : List (GrantScope × List Capability)} {a : Assignments}
    (hpopulated : Populated a)
    (hcontains : ∀ scope c, contains a scope c = true → Lists entries scope c) :
    a.entries.length ≤ entries.length := by
  have hnodup : (a.entries.map Prod.fst).Nodup := by
    rw [List.Nodup, List.pairwise_map]
    exact a.sorted.imp fun h => ne_of_lt h
  have hsub : a.entries.map Prod.fst ⊆ entries.map Prod.fst := by
    intro scope hscope
    obtain ⟨⟨scope', permissions⟩, hmem, rfl⟩ := List.mem_map.mp hscope
    have hget := OrderedMap.mem_entries.mp hmem
    obtain ⟨c, hc⟩ := hpopulated _ _ hget
    obtain ⟨e, he, hes, _⟩ := hcontains scope' c (by simp [contains, hget, hc])
    exact List.mem_map.mpr ⟨e, he, hes⟩
  have hlength := (List.subperm_of_subset hnodup hsub).length_le
  simpa using hlength

theorem insertEntries_normal {entries : List (GrantScope × List Capability)} {a : Assignments}
    (h : insertEntries 0 entries .empty = .ok a) : Normal a := by
  have hempty : Populated .empty := fun scope permissions hget => by cases hget
  obtain ⟨hpopulated, hcontains⟩ := insertEntries_spec hempty h
  obtain ⟨hlength, hcompatible⟩ :=
    (insertEntries_iff entries .empty (Nat.zero_le _)).mp ⟨a, h⟩
  have hlists : ∀ scope c, contains a scope c = true → Lists entries scope c := by
    intro scope c hc
    rcases (hcontains scope c).mp hc with hlists | hnone
    · exact hlists
    · cases hnone
  constructor
  · intro scope c hc
    obtain ⟨e, he, rfl, hmem⟩ := hlists scope c hc
    exact hcompatible e he c hmem
  · exact hpopulated
  · have hkeys := entries_length_le hpopulated hlists
    omega

/-- Immutable normalized authority. -/
structure GrantSet where
  assignments : Assignments
  normal : Normal assignments

/-- Normalize trusted assignments after verification, rejecting incompatible scopes. -/
def GrantSet.new (entries : List (GrantScope × List Capability)) : Except GrantError GrantSet :=
  match h : insertEntries 0 entries .empty with
  | .ok a => .ok ⟨a, insertEntries_normal h⟩
  | .error e => .error e

def developmentScope : PermissionScope → GrantScope
  | .global => .global
  | .inNamespace => .allNamespaces

def developmentAssignments : Assignments :=
  allCapabilities.foldl
    (fun a c => insertPermission a (developmentScope c.definition.scope) c) .empty

theorem developmentAssignments_entries :
    insertEntries 0 (allCapabilities.map fun c => (developmentScope c.definition.scope, [c]))
      .empty = .ok developmentAssignments := by
  decide +kernel

/-- Explicit authority for the fixed development identity, never a failure fallback. -/
def GrantSet.development : GrantSet :=
  ⟨developmentAssignments, insertEntries_normal developmentAssignments_entries⟩

def GrantSet.default : GrantSet :=
  ⟨.empty, insertEntries_normal (show insertEntries 0 [] .empty = .ok .empty from rfl)⟩

/-- SQL visibility constraint applied before counting and pagination. -/
inductive VisibilityScope where
  | all
  | namespaces (ids : OrderedSet Uuid)
  | none
  deriving DecidableEq

/-- The Namespaces a visibility constraint lets through. -/
def VisibilityScope.includes : VisibilityScope → Uuid → Bool
  | .all, _ => true
  | .namespaces ids, id => OrderedSet.contains ids id
  | .none, _ => false

def GrantSet.contains (g : GrantSet) (scope : GrantScope) (c : Capability) : Bool :=
  GrantSets.contains g.assignments scope c

/-- Authorize a global operation only through an explicit compatible global grant. -/
def GrantSet.allowsGlobal (g : GrantSet) (c : Capability) : Bool := g.contains .global c

/-- Authorize only the listed Namespace permission, or its explicit all-Namespace grant. -/
def GrantSet.allowsNamespace (g : GrantSet) (c : Capability) (namespaceId : Uuid) : Bool :=
  g.contains .allNamespaces c || g.contains (.inNamespace namespaceId) c

def GrantSet.assignedNamespaces (g : GrantSet) (c : Capability) : List Uuid :=
  g.assignments.entries.filterMap fun
    | (.inNamespace namespaceId, permissions) =>
      if OrderedSet.contains permissions c then some namespaceId else Option.none
    | _ => Option.none

/-- Return only Namespaces assigned this capability; other permissions cannot widen it. -/
def GrantSet.visibility (g : GrantSet) (c : Capability) : VisibilityScope :=
  if g.contains .allNamespaces c then .all
  else
    let ids := OrderedSet.collect (g.assignedNamespaces c)
    if (OrderedSet.toList ids).isEmpty then .none else .namespaces ids

theorem GrantSet.new_eq_ok {entries : List (GrantScope × List Capability)} {g : GrantSet} :
    GrantSet.new entries = .ok g ↔ insertEntries 0 entries .empty = .ok g.assignments := by
  unfold GrantSet.new
  split
  · rename_i a ha
    constructor
    · intro h
      cases h
      exact ha
    · intro h
      have hsame : a = g.assignments := Except.ok.inj (ha.symm.trans h)
      cases g
      cases hsame
      rfl
  · rename_i e he
    simp [he]

theorem GrantSet.new_contains {entries : List (GrantScope × List Capability)} {g : GrantSet}
    (h : GrantSet.new entries = .ok g) (scope : GrantScope) (c : Capability) :
    g.contains scope c = true ↔ Lists entries scope c := by
  have hempty : Populated .empty := fun scope permissions hget => by cases hget
  have hcontains := (insertEntries_spec hempty (GrantSet.new_eq_ok.mp h)).2 scope c
  simpa [GrantSet.contains, contains_empty] using hcontains

/-- `GrantSet::new` fails on too many entries and on an incompatible one, and only there. -/
theorem GrantSet.new_error_iff (entries : List (GrantScope × List Capability)) :
    (∃ e, GrantSet.new entries = .error e) ↔
      maxGrantEntries < entries.length ∨ ¬ Compatible entries := by
  have hok := insertEntries_iff entries .empty (Nat.zero_le maxGrantEntries)
  have hnew : (∃ g, GrantSet.new entries = .ok g) ↔
      ∃ a, insertEntries 0 entries .empty = .ok a := by
    constructor
    · rintro ⟨g, hg⟩
      exact ⟨g.assignments, GrantSet.new_eq_ok.mp hg⟩
    · rintro ⟨a, ha⟩
      exact ⟨⟨a, insertEntries_normal ha⟩, GrantSet.new_eq_ok.mpr ha⟩
  have hsplit : (∃ e, GrantSet.new entries = .error e) ↔
      ¬ ∃ g, GrantSet.new entries = .ok g := by
    cases GrantSet.new entries <;> simp
  rw [hsplit, hnew, hok, Nat.zero_add, not_and_or, Nat.not_le]

theorem GrantSet.ext_contains {g g' : GrantSet}
    (h : ∀ scope c, g.contains scope c = g'.contains scope c) : g = g' := by
  have hsame : g.assignments = g'.assignments :=
    assignments_ext g.normal.populated g'.normal.populated h
  cases g
  cases g'
  cases hsame
  rfl

theorem GrantSet.mem_assignedNamespaces {g : GrantSet} {c : Capability} {namespaceId : Uuid} :
    namespaceId ∈ g.assignedNamespaces c ↔ g.contains (.inNamespace namespaceId) c = true := by
  unfold GrantSet.assignedNamespaces GrantSet.contains GrantSets.contains
  rw [List.mem_filterMap]
  constructor
  · rintro ⟨⟨scope, permissions⟩, hmem, hsome⟩
    cases scope with
    | inNamespace id =>
      simp only [Option.ite_none_right_eq_some, Option.some.injEq] at hsome
      obtain ⟨hc, rfl⟩ := hsome
      rw [OrderedMap.mem_entries.mp hmem]
      exact hc
    | global => cases hsome
    | allNamespaces => cases hsome
  · intro hc
    rw [Option.any_eq_true] at hc
    obtain ⟨permissions, hget, hc⟩ := hc
    exact ⟨(.inNamespace namespaceId, permissions), OrderedMap.mem_entries.mpr hget, by simp [hc]⟩

theorem GrantSet.visibility_includes (g : GrantSet) (c : Capability) (namespaceId : Uuid) :
    (g.visibility c).includes namespaceId = g.allowsNamespace c namespaceId := by
  unfold GrantSet.visibility GrantSet.allowsNamespace
  by_cases hall : g.contains .allNamespaces c = true
  · simp [hall, VisibilityScope.includes]
  · have hids : OrderedSet.contains (OrderedSet.collect (g.assignedNamespaces c)) namespaceId =
        g.contains (.inNamespace namespaceId) c := by
      rw [Bool.eq_iff_iff, OrderedSet.contains_collect, GrantSet.mem_assignedNamespaces]
    rw [if_neg hall]
    simp only [Bool.not_eq_true] at hall
    rw [hall, Bool.false_or, ← hids]
    dsimp only
    split
    · rename_i hempty
      rw [List.isEmpty_iff] at hempty
      have hnot : namespaceId ∉
          OrderedSet.toList (OrderedSet.collect (g.assignedNamespaces c)) := by
        rw [hempty]
        exact List.not_mem_nil
      rw [OrderedSet.mem_toList, Bool.not_eq_true] at hnot
      rw [hnot]
      rfl
    · rfl

end GrantSets
