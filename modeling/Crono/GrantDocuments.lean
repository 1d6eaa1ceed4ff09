import Crono.FallibleLists
import Crono.GrantSets

/-! The versioned interchange of grants. A document is decoded field by field as the derived
deserialisers do, objects with every member of their text, so that a repeated or unknown
member is seen; encoding a grant set and decoding it gives the same set. -/
namespace GrantDocuments

open RunDomain Capabilities GrantSets FallibleLists

def maxGrantDocumentBytes : ℕ := 64 * 1024

/-- The crates below the interchange: `serde_json` between bytes and JSON texts, and the text
forms of `uuid`. -/
structure Crates where
  fromSlice : List UInt8 → Option Value
  toVec : Value → List UInt8
  parseStr : String → Option Uuid
  hyphenated : Uuid → String

/-- The fields of a derived struct with `deny_unknown_fields`, in their order: the members of
an object, each exactly once, or the elements of an array. -/
def structFields (names : List String) : Value → Option (List Value)
  | .object members =>
    if (members.all fun m => m.1 ∈ names) && decide (members.map Prod.fst).Nodup then
      names.mapM fun name => (members.find? fun m => m.1 = name).map Prod.snd
    else none
  | .array items => if items.length = names.length then some items else none
  | _ => none

/-- A `Vec` of decoded elements. -/
def decodeVec {α : Type} (decode : Value → Option α) : Value → Option (List α)
  | .array items => items.mapM decode
  | _ => none

def decodeString : Value → Option String
  | .string s => some s
  | _ => none

/-- A `u16`. -/
def decodeVersion : Value → Option ℕ
  | .number (.posInt n) => if n < 2 ^ 16 then some n else none
  | _ => none

def eqIgnoreAsciiCase (a b : String) : Bool :=
  a.toList.map Char.toLower = b.toList.map Char.toLower

/-- Accept standard hyphenated UUIDs, matching the published schema rather than UUID aliases. -/
def deserializeNamespace (k : Crates) : Value → Option Uuid
  | .string value =>
    match k.parseStr value with
    | none => none
    | some id => if eqIgnoreAsciiCase value (k.hyphenated id) then some id else none
  | _ => none

/-- An internally tagged value: its tag, and what is left for the variant. -/
def taggedContent : Value → Option (String × Value)
  | .object members =>
    match members.filter fun m => m.1 = "kind" with
    | [(_, .string kind)] => some (kind, .object (members.filter fun m => m.1 ≠ "kind"))
    | _ => none
  | .array (.string kind :: rest) => some (kind, .array rest)
  | _ => none

def decodeScope (k : Crates) (v : Value) : Option GrantScope :=
  match taggedContent v with
  | some ("global", content) => (structFields [] content).map fun _ => .global
  | some ("all_namespaces", content) => (structFields [] content).map fun _ => .allNamespaces
  | some ("namespace", content) =>
    match structFields ["namespace_id"] content with
    | some [id] => (deserializeNamespace k id).map .inNamespace
    | _ => none
  | _ => none

structure Assignment where
  scope : GrantScope
  permissions : List String
  deriving DecidableEq

def decodeAssignment (k : Crates) (v : Value) : Option Assignment :=
  match structFields ["scope", "permissions"] v with
  | some [scope, permissions] => do
    let scope ← decodeScope k scope
    let permissions ← decodeVec decodeString permissions
    return ⟨scope, permissions⟩
  | _ => none

structure GrantDocument where
  version : ℕ
  grants : List Assignment
  deriving DecidableEq

def decodeDocument (k : Crates) (v : Value) : Option GrantDocument :=
  match structFields ["version", "grants"] v with
  | some [version, grants] => do
    let version ← decodeVersion version
    let grants ← decodeVec (decodeAssignment k) grants
    return ⟨version, grants⟩
  | _ => none

def permissionIds (identifiers : List String) : Except GrantError (List Capability) :=
  identifiers.mapM fun identifier =>
    match Capability.fromPermissionId identifier with
    | some c => .ok c
    | none => .error .unknownPermission

def assignmentEntry (assignment : Assignment) :
    Except GrantError (GrantScope × List Capability) := do
  let permissions ← permissionIds assignment.permissions
  return (assignment.scope, permissions)

/-- Validate a canonical document obtained only from already-verified authority. -/
def fromVerifiedJson (k : Crates) : Option (List UInt8) → Except GrantError GrantSet
  | none => .ok GrantSet.default
  | some bytes =>
    if maxGrantDocumentBytes < bytes.length then .error .tooLarge
    else
      match (k.fromSlice bytes).bind (decodeDocument k) with
      | none => .error .invalidDocument
      | some document =>
        if document.version ≠ 1 then .error .unsupportedVersion
        else if maxGrantEntries < document.grants.length then .error .tooLarge
        else do
          let entries ← document.grants.mapM assignmentEntry
          GrantSet.new entries

def scopeValue (k : Crates) : GrantScope → Value
  | .global => .object [("kind", .string "global")]
  | .allNamespaces => .object [("kind", .string "all_namespaces")]
  | .inNamespace id =>
    .object [("kind", .string "namespace"), ("namespace_id", .string (k.hyphenated id))]

def assignmentValue (k : Crates) (entry : GrantScope × OrderedSet Capability) : Value :=
  .object [("scope", scopeValue k entry.1),
    ("permissions", .array ((OrderedSet.toList entry.2).map fun c =>
      .string c.definition.identifier))]

def documentValue (k : Crates) (g : GrantSet) : Value :=
  .object [("version", .number (.posInt 1)),
    ("grants", .array (g.assignments.entries.map (assignmentValue k)))]

/-- Encode normalized authority for trusted adapter interchange. -/
def toJson (k : Crates) (g : GrantSet) : Except GrantError (List UInt8) :=
  let bytes := k.toVec (documentValue k g)
  if maxGrantDocumentBytes < bytes.length then .error .tooLarge else .ok bytes

/-- The crates read back the text of this grant set: `serde_json` the document it wrote, and
`uuid` the Namespaces named there. -/
structure Crates.ReadsBack (k : Crates) (g : GrantSet) : Prop where
  document : k.fromSlice (k.toVec (documentValue k g)) = some (documentValue k g)
  namespaces : ∀ id c, g.contains (.inNamespace id) c = true →
    k.parseStr (k.hyphenated id) = some id

theorem decodeScope_scopeValue {k : Crates} {scope : GrantScope}
    (h : ∀ id, scope = .inNamespace id → k.parseStr (k.hyphenated id) = some id) :
    decodeScope k (scopeValue k scope) = some scope := by
  cases scope with
  | global => rfl
  | allNamespaces => rfl
  | inNamespace id =>
    have hid : deserializeNamespace k (.string (k.hyphenated id)) = some id := by
      simp [deserializeNamespace, h id rfl, eqIgnoreAsciiCase]
    simp only [scopeValue, decodeScope, taggedContent]
    simp [structFields, hid]

/-- An entry of the normalised map, with its permissions in order. -/
def entryOf (entry : GrantScope × OrderedSet Capability) : GrantScope × List Capability :=
  (entry.1, OrderedSet.toList entry.2)

def assignmentOf (entry : GrantScope × OrderedSet Capability) : Assignment :=
  ⟨entry.1, (OrderedSet.toList entry.2).map fun c => c.definition.identifier⟩

theorem decodeAssignment_assignmentValue {k : Crates} {entry : GrantScope × OrderedSet Capability}
    (h : ∀ id, entry.1 = .inNamespace id → k.parseStr (k.hyphenated id) = some id) :
    decodeAssignment k (assignmentValue k entry) = some (assignmentOf entry) := by
  have hfields : structFields ["scope", "permissions"] (assignmentValue k entry) =
      some [scopeValue k entry.1, .array ((OrderedSet.toList entry.2).map fun c =>
        .string c.definition.identifier)] := by
    simp [structFields, assignmentValue]
  have hpermissions : decodeVec decodeString (.array ((OrderedSet.toList entry.2).map fun c =>
      .string c.definition.identifier)) =
      some ((OrderedSet.toList entry.2).map fun c => c.definition.identifier) :=
    mapM_map_some fun c _ => rfl
  rw [decodeAssignment, hfields]
  simp [decodeScope_scopeValue h, hpermissions, assignmentOf]

theorem Crates.ReadsBack.entries {k : Crates} {g : GrantSet} (h : k.ReadsBack g)
    {entry : GrantScope × OrderedSet Capability} (hentry : entry ∈ g.assignments.entries) :
    ∀ id, entry.1 = .inNamespace id → k.parseStr (k.hyphenated id) = some id := by
  obtain ⟨scope, permissions⟩ := entry
  intro id hscope
  have hget := OrderedMap.mem_entries.mp hentry
  obtain ⟨c, hc⟩ := g.normal.populated scope permissions hget
  apply h.namespaces id c
  rw [← hscope]
  simp [GrantSet.contains, GrantSets.contains, hget, hc]

theorem decodeDocument_documentValue {k : Crates} {g : GrantSet} (h : k.ReadsBack g) :
    decodeDocument k (documentValue k g) =
      some ⟨1, g.assignments.entries.map assignmentOf⟩ := by
  have hfields : structFields ["version", "grants"] (documentValue k g) =
      some [.number (.posInt 1), .array (g.assignments.entries.map (assignmentValue k))] := by
    simp [structFields, documentValue]
  have hgrants : decodeVec (decodeAssignment k)
      (.array (g.assignments.entries.map (assignmentValue k))) =
        some (g.assignments.entries.map assignmentOf) :=
    mapM_map_some fun entry hentry => decodeAssignment_assignmentValue (h.entries hentry)
  rw [decodeDocument, hfields]
  simp [hgrants, decodeVersion]

theorem assignmentEntry_assignmentOf (entry : GrantScope × OrderedSet Capability) :
    assignmentEntry (assignmentOf entry) = .ok (entryOf entry) := by
  have hids : permissionIds (assignmentOf entry).permissions =
      .ok ((OrderedSet.toList entry.2).map id) :=
    mapM_map_ok fun c _ => by rw [fromPermissionId_identifier]; rfl
  rw [List.map_id] at hids
  rw [assignmentEntry, hids]
  rfl

theorem lists_entryOf {g : GrantSet} {scope : GrantScope} {c : Capability} :
    Lists (g.assignments.entries.map entryOf) scope c ↔ g.contains scope c = true := by
  unfold GrantSets.Lists GrantSet.contains GrantSets.contains
  constructor
  · rintro ⟨e, he, rfl, hc⟩
    obtain ⟨⟨scope, permissions⟩, hmem, rfl⟩ := List.mem_map.mp he
    simp only [entryOf] at hc ⊢
    rw [OrderedMap.mem_entries.mp hmem]
    exact OrderedSet.mem_toList.mp hc
  · intro hc
    rw [Option.any_eq_true] at hc
    obtain ⟨permissions, hget, hc⟩ := hc
    exact ⟨(scope, OrderedSet.toList permissions),
      List.mem_map.mpr ⟨(scope, permissions), OrderedMap.mem_entries.mpr hget, rfl⟩, rfl,
      OrderedSet.mem_toList.mpr hc⟩

theorem new_entryOf (g : GrantSet) : GrantSet.new (g.assignments.entries.map entryOf) = .ok g := by
  cases hnew : GrantSet.new (g.assignments.entries.map entryOf) with
  | error e =>
    rcases (GrantSet.new_error_iff _).mp ⟨e, hnew⟩ with hlength | hincompatible
    · rw [List.length_map] at hlength
      exact absurd g.normal.bounded (Nat.not_le.mpr hlength)
    · refine absurd ?_ hincompatible
      intro e he c hc
      exact g.normal.compatible e.1 c (lists_entryOf.mp ⟨e, he, rfl, hc⟩)
  | ok g' =>
    have hsame : g' = g := by
      apply GrantSet.ext_contains
      intro scope c
      rw [Bool.eq_iff_iff, GrantSet.new_contains hnew, lists_entryOf]
    rw [hsame]

theorem toJson_ok {k : Crates} {g : GrantSet} {bytes : List UInt8}
    (h : toJson k g = .ok bytes) :
    bytes = k.toVec (documentValue k g) ∧ bytes.length ≤ maxGrantDocumentBytes := by
  simp only [toJson] at h
  split at h
  · cases h
  · rename_i hlength
    cases h
    exact ⟨rfl, Nat.not_lt.mp hlength⟩

theorem fromVerifiedJson_toJson {k : Crates} {g : GrantSet} (hk : k.ReadsBack g)
    {bytes : List UInt8} (h : toJson k g = .ok bytes) :
    fromVerifiedJson k (some bytes) = .ok g := by
  obtain ⟨rfl, hlength⟩ := toJson_ok h
  have hdecoded : (k.fromSlice (k.toVec (documentValue k g))).bind (decodeDocument k) =
      some ⟨1, g.assignments.entries.map assignmentOf⟩ := by
    rw [hk.document]
    exact decodeDocument_documentValue hk
  have hentries : (g.assignments.entries.map assignmentOf).mapM assignmentEntry =
      .ok (g.assignments.entries.map entryOf) :=
    mapM_map_ok fun entry _ => assignmentEntry_assignmentOf entry
  have hcount : ¬ maxGrantEntries < (g.assignments.entries.map assignmentOf).length := by
    rw [List.length_map]
    exact Nat.not_lt.mpr g.normal.bounded
  rw [fromVerifiedJson, if_neg (Nat.not_lt.mpr hlength), hdecoded]
  simp only [ne_eq, not_true_eq_false, if_false, if_neg hcount, hentries]
  exact new_entryOf g

/-- The values a document gives a field: every member of that name, or the element at the
place of the field. -/
def fieldValues (names : List String) (name : String) : Value → List Value
  | .object members => (members.filter fun m => m.1 = name).map Prod.snd
  | .array items => (items[names.idxOf name]?).toList
  | _ => []

def NoStray (names : List String) (v : Value) : Prop :=
  ∀ members, v = .object members →
    (∀ m ∈ members, m.1 ∈ names) ∧ (members.map Prod.fst).Nodup

/-- A scope object has its kind once, and a Namespace only under the kind that has one. -/
def NoStrayScope (v : Value) : Prop :=
  ∀ members, v = .object members → (members.map Prod.fst).Nodup ∧
    ∀ m ∈ members, m.1 = "kind" ∨
      m.1 = "namespace_id" ∧ ("kind", Value.string "namespace") ∈ members

structure AdmissibleAssignment (k : Crates) (v : Value) : Prop where
  fields : NoStray ["scope", "permissions"] v
  scope : ∀ s ∈ fieldValues ["scope", "permissions"] "scope" v, NoStrayScope s
  permissions : ∀ items, .array items ∈ fieldValues ["scope", "permissions"] "permissions" v →
    ∀ p ∈ items, ∃ c : Capability, p = .string c.definition.identifier ∧
      ∀ s ∈ fieldValues ["scope", "permissions"] "scope" v,
        ∃ scope, decodeScope k s = some scope ∧ compatible scope c.definition.scope = true

/-- A document without an unknown or repeated field, an unknown permission, an incompatible
scope, another version or too many entries. -/
structure Admissible (k : Crates) (v : Value) : Prop where
  fields : NoStray ["version", "grants"] v
  version : ∀ x ∈ fieldValues ["version", "grants"] "version" v, x = .number (.posInt 1)
  count : ∀ items, .array items ∈ fieldValues ["version", "grants"] "grants" v →
    items.length ≤ maxGrantEntries
  assignments : ∀ items, .array items ∈ fieldValues ["version", "grants"] "grants" v →
    ∀ a ∈ items, AdmissibleAssignment k a

theorem structFields_object {names : List String} {members : List (String × Value)}
    {values : List Value} (h : structFields names (.object members) = some values) :
    (∀ m ∈ members, m.1 ∈ names) ∧ (members.map Prod.fst).Nodup ∧
      names.mapM (fun name => (members.find? fun m => m.1 = name).map Prod.snd) = some values := by
  simp only [structFields] at h
  split at h
  · rename_i hcheck
    simp only [Bool.and_eq_true, List.all_eq_true, decide_eq_true_eq] at hcheck
    exact ⟨hcheck.1, hcheck.2, h⟩
  · cases h

theorem structFields_noStray {names : List String} {v : Value} {values : List Value}
    (h : structFields names v = some values) : NoStray names v := by
  intro members hv
  subst hv
  obtain ⟨hknown, hnodup, _⟩ := structFields_object h
  exact ⟨hknown, hnodup⟩

theorem filter_key {members : List (String × Value)} {name : String} {value : Value}
    (hnodup : (members.map Prod.fst).Nodup)
    (hfind : members.find? (fun m => m.1 = name) = some (name, value)) :
    members.filter (fun m => m.1 = name) = [(name, value)] := by
  induction members with
  | nil => cases hfind
  | cons m rest ih =>
    rw [List.map_cons, List.nodup_cons] at hnodup
    by_cases hm : m.1 = name
    · have hnone : rest.filter (fun m => m.1 = name) = [] := by
        rw [List.filter_eq_nil_iff]
        intro m' hm' hname
        rw [decide_eq_true_eq] at hname
        exact hnodup.1 (List.mem_map.mpr ⟨m', hm', by rw [hname, hm]⟩)
      rw [List.find?_cons_of_pos (by simpa using hm)] at hfind
      cases hfind
      rw [List.filter_cons_of_pos (by simp), hnone]
    · rw [List.find?_cons_of_neg (by simpa using hm)] at hfind
      rw [List.filter_cons_of_neg (by simpa using hm)]
      exact ih hnodup.2 hfind

/-- The two fields of a decoded struct are the only values its text gives them. -/
theorem structFields_pair {first second : String} (hne : first ≠ second) {v x y : Value}
    (h : structFields [first, second] v = some [x, y]) :
    fieldValues [first, second] first v = [x] ∧ fieldValues [first, second] second v = [y] := by
  cases v with
  | object members =>
    obtain ⟨_, hnodup, hfields⟩ := structFields_object h
    simp only [List.mapM_cons, List.mapM_nil, Option.pure_def, Option.bind_eq_bind,
      Option.bind_some, Option.bind_eq_some_iff, Option.map_eq_some_iff] at hfields
    obtain ⟨x', ⟨⟨n₁, x''⟩, hfirst, rfl⟩, ys, ⟨y', ⟨⟨n₂, y''⟩, hsecond, rfl⟩, hys⟩, hxy⟩ := hfields
    have hn₁ := List.find?_some hfirst
    have hn₂ := List.find?_some hsecond
    simp only [decide_eq_true_eq] at hn₁ hn₂
    subst hn₁ hn₂
    cases hys
    cases hxy
    exact ⟨by simp [fieldValues, filter_key hnodup hfirst],
      by simp [fieldValues, filter_key hnodup hsecond]⟩
  | array items =>
    simp only [structFields] at h
    split at h
    · cases h
      simp [fieldValues, hne]
    · cases h
  | null => cases h
  | bool => cases h
  | number => cases h
  | string => cases h

theorem decodeVec_some {α : Type} {decode : Value → Option α} {v : Value} {ys : List α}
    (h : decodeVec decode v = some ys) :
    ∃ items, v = .array items ∧ items.mapM decode = some ys := by
  cases v with
  | array items => exact ⟨items, rfl, h⟩
  | null => cases h
  | bool => cases h
  | number => cases h
  | string => cases h
  | object => cases h

theorem decodeVersion_some {v : Value} {n : ℕ} (h : decodeVersion v = some n) :
    v = .number (.posInt n) := by
  cases v with
  | number number =>
    cases number with
    | posInt m =>
      simp only [decodeVersion] at h
      split at h
      · cases h
        rfl
      · cases h
    | negInt => cases h
    | float => cases h
    | negZero => cases h
  | null => cases h
  | bool => cases h
  | array => cases h
  | string => cases h
  | object => cases h

theorem decodeString_some {v : Value} {s : String} (h : decodeString v = some s) :
    v = .string s := by
  cases v with
  | string t =>
    cases h
    rfl
  | null => cases h
  | bool => cases h
  | number => cases h
  | array => cases h
  | object => cases h

theorem taggedContent_object {members : List (String × Value)} {kind : String} {content : Value}
    (h : taggedContent (.object members) = some (kind, content)) :
    members.filter (fun m => m.1 = "kind") = [("kind", .string kind)] ∧
      content = .object (members.filter fun m => m.1 ≠ "kind") := by
  simp only [taggedContent] at h
  split at h
  · rename_i name kind' hfilter
    cases h
    have hmem : (name, Value.string kind) ∈ members.filter (fun m => m.1 = "kind") := by
      rw [hfilter]
      exact List.mem_singleton_self _
    have hname : name = "kind" := by simpa using (List.mem_filter.mp hmem).2
    rw [hfilter, hname]
    exact ⟨rfl, rfl⟩
  · cases h

theorem nodup_of_split {members : List (String × Value)} {kind : String}
    (hkind : members.filter (fun m => m.1 = "kind") = [("kind", .string kind)])
    (hrest : ((members.filter fun m => m.1 ≠ "kind").map Prod.fst).Nodup) :
    (members.map Prod.fst).Nodup := by
  have hperm := (List.filter_append_perm (fun m : String × Value => m.1 = "kind") members).map
    Prod.fst
  refine hperm.nodup_iff.mp ?_
  rw [List.map_append, hkind]
  have hrest' : (members.filter fun m => !decide (m.1 = "kind")) =
      members.filter fun m => m.1 ≠ "kind" := by simp
  rw [hrest']
  refine List.nodup_cons.mpr ⟨?_, hrest⟩
  intro hmem
  obtain ⟨m, hm, hname⟩ := List.mem_map.mp hmem
  simp [hname] at hm

theorem decodeScope_content {k : Crates} {v : Value} {scope : GrantScope}
    (h : decodeScope k v = some scope) :
    ∃ kind content names values, taggedContent v = some (kind, content) ∧
      structFields names content = some values ∧
      (names = [] ∨ kind = "namespace" ∧ names = ["namespace_id"]) := by
  unfold decodeScope at h
  split at h
  · rename_i content htag
    obtain ⟨values, hvalues, _⟩ := Option.map_eq_some_iff.mp h
    exact ⟨_, content, [], values, htag, hvalues, .inl rfl⟩
  · rename_i content htag
    obtain ⟨values, hvalues, _⟩ := Option.map_eq_some_iff.mp h
    exact ⟨_, content, [], values, htag, hvalues, .inl rfl⟩
  · rename_i content htag
    split at h
    · rename_i id hvalues
      exact ⟨_, content, ["namespace_id"], [id], htag, hvalues, .inr ⟨rfl, rfl⟩⟩
    · cases h
  · cases h

theorem decodeScope_noStray {k : Crates} {v : Value} {scope : GrantScope}
    (h : decodeScope k v = some scope) : NoStrayScope v := by
  intro members hv
  subst hv
  obtain ⟨kind, content, names, values, htag, hvalues, hnames⟩ := decodeScope_content h
  obtain ⟨hkind, rfl⟩ := taggedContent_object htag
  obtain ⟨hknown, hnodup, _⟩ := structFields_object hvalues
  refine ⟨nodup_of_split hkind hnodup, ?_⟩
  intro m hm
  by_cases hmkind : m.1 = "kind"
  · exact .inl hmkind
  · right
    have hmem := hknown m (List.mem_filter.mpr ⟨hm, by simpa using hmkind⟩)
    rcases hnames with rfl | ⟨rfl, rfl⟩
    · exact absurd hmem List.not_mem_nil
    · refine ⟨List.mem_singleton.mp hmem, ?_⟩
      have hkindMem : ("kind", Value.string "namespace") ∈
          members.filter (fun m => m.1 = "kind") := by
        rw [hkind]
        exact List.mem_singleton_self _
      exact (List.mem_filter.mp hkindMem).1

theorem decodeAssignment_some {k : Crates} {v : Value} {a : Assignment}
    (h : decodeAssignment k v = some a) :
    ∃ scope permissions, structFields ["scope", "permissions"] v = some [scope, permissions] ∧
      decodeScope k scope = some a.scope ∧
      decodeVec decodeString permissions = some a.permissions := by
  unfold decodeAssignment at h
  split at h
  · rename_i scope permissions hfields
    simp only [Option.pure_def, Option.bind_eq_bind, Option.bind_eq_some_iff] at h
    obtain ⟨scope', hscope, permissions', hpermissions, ha⟩ := h
    cases ha
    exact ⟨scope, permissions, hfields, hscope, hpermissions⟩
  · cases h

theorem decodeDocument_some {k : Crates} {v : Value} {d : GrantDocument}
    (h : decodeDocument k v = some d) :
    ∃ version grants, structFields ["version", "grants"] v = some [version, grants] ∧
      decodeVersion version = some d.version ∧
      decodeVec (decodeAssignment k) grants = some d.grants := by
  unfold decodeDocument at h
  split at h
  · rename_i version grants hfields
    simp only [Option.pure_def, Option.bind_eq_bind, Option.bind_eq_some_iff] at h
    obtain ⟨version', hversion, grants', hgrants, hd⟩ := h
    cases hd
    exact ⟨version, grants, hfields, hversion, hgrants⟩
  · cases h

theorem fromPermissionId_some {identifier : String} {c : Capability}
    (h : Capability.fromPermissionId identifier = some c) :
    c.definition.identifier = identifier := by
  simpa using List.find?_some h

theorem assignmentEntry_ok {a : Assignment} {entry : GrantScope × List Capability}
    (h : assignmentEntry a = .ok entry) :
    entry.1 = a.scope ∧ permissionIds a.permissions = .ok entry.2 := by
  unfold assignmentEntry at h
  cases hids : permissionIds a.permissions with
  | error e =>
    rw [hids] at h
    cases h
  | ok permissions =>
    rw [hids] at h
    cases h
    exact ⟨rfl, rfl⟩

theorem permissionIds_mem {identifiers : List String} {permissions : List Capability}
    (h : permissionIds identifiers = .ok permissions) {identifier : String}
    (hmem : identifier ∈ identifiers) :
    ∃ c ∈ permissions, c.definition.identifier = identifier := by
  obtain ⟨c, hc, hid⟩ := mapM_ok_result h hmem
  refine ⟨c, hc, ?_⟩
  split at hid
  · rename_i c' hc'
    cases hid
    exact fromPermissionId_some hc'
  · cases hid

/-- What a document that yields a grant set went through. -/
theorem fromVerifiedJson_ok {k : Crates} {b : List UInt8} {g : GrantSet}
    (h : fromVerifiedJson k (some b) = .ok g) :
    b.length ≤ maxGrantDocumentBytes ∧ ∃ v d entries, k.fromSlice b = some v ∧
      decodeDocument k v = some d ∧ d.version = 1 ∧ d.grants.length ≤ maxGrantEntries ∧
      d.grants.mapM assignmentEntry = .ok entries ∧ GrantSet.new entries = .ok g := by
  simp only [fromVerifiedJson] at h
  split at h
  · cases h
  rename_i hlength
  split at h
  · cases h
  rename_i d hdocument
  obtain ⟨v, hv, hd⟩ := Option.bind_eq_some_iff.mp hdocument
  split at h
  · cases h
  rename_i hversion
  split at h
  · cases h
  rename_i hcount
  cases hentries : d.grants.mapM assignmentEntry with
  | error e =>
    rw [hentries] at h
    cases h
  | ok entries =>
    rw [hentries] at h
    exact ⟨Nat.not_lt.mp hlength, v, d, entries, hv, hd, by simpa using hversion,
      Nat.not_lt.mp hcount, hentries, h⟩

theorem admissibleAssignment_of_decoded {k : Crates} {v : Value} {a : Assignment}
    {entry : GrantScope × List Capability} (hdecoded : decodeAssignment k v = some a)
    (hentry : assignmentEntry a = .ok entry)
    (hcompatible : ∀ c ∈ entry.2, compatible entry.1 c.definition.scope = true) :
    AdmissibleAssignment k v := by
  obtain ⟨scope, permissions, hfields, hscope, hpermissions⟩ := decodeAssignment_some hdecoded
  obtain ⟨hscopes, hlists⟩ := structFields_pair (by decide) hfields
  obtain ⟨hentryScope, hids⟩ := assignmentEntry_ok hentry
  constructor
  · exact structFields_noStray hfields
  · intro s hs
    rw [hscopes, List.mem_singleton] at hs
    rw [hs]
    exact decodeScope_noStray hscope
  · intro items hitems p hp
    rw [hlists, List.mem_singleton] at hitems
    obtain ⟨items', hitems', hstrings⟩ := decodeVec_some hpermissions
    rw [hitems', Value.array.injEq] at hitems
    rw [hitems] at hp
    obtain ⟨identifier, hidentifier, hstring⟩ := (mapM_some_mem hstrings).2 p hp
    obtain ⟨c, hc, rfl⟩ := permissionIds_mem hids hidentifier
    refine ⟨c, decodeString_some hstring, ?_⟩
    intro s hs
    rw [hscopes, List.mem_singleton] at hs
    rw [hs]
    refine ⟨a.scope, hscope, ?_⟩
    rw [← hentryScope]
    exact hcompatible c hc

/-- A document that yields a grant set has none of the defects. -/
theorem admissible_of_ok {k : Crates} {b : List UInt8} {g : GrantSet}
    (h : fromVerifiedJson k (some b) = .ok g) :
    b.length ≤ maxGrantDocumentBytes ∧ ∃ v, k.fromSlice b = some v ∧ Admissible k v := by
  obtain ⟨hlength, v, d, entries, hv, hd, hversion, hcount, hentries, hnew⟩ :=
    fromVerifiedJson_ok h
  refine ⟨hlength, v, hv, ?_⟩
  obtain ⟨version, grants, hfields, hdecodedVersion, hdecodedGrants⟩ := decodeDocument_some hd
  obtain ⟨hversions, hgrants⟩ := structFields_pair (by decide) hfields
  obtain ⟨items', hitems', hassignments⟩ := decodeVec_some hdecodedGrants
  have hcompatible : Compatible entries := by
    by_contra hnot
    obtain ⟨e, he⟩ := (GrantSet.new_error_iff entries).mpr (.inr hnot)
    rw [hnew] at he
    cases he
  have hitem {items : List Value}
      (hitems : .array items ∈ fieldValues ["version", "grants"] "grants" v) :
      items = items' := by
    rw [hgrants, List.mem_singleton, hitems'] at hitems
    exact Value.array.inj hitems
  constructor
  · exact structFields_noStray hfields
  · intro x hx
    rw [hversions, List.mem_singleton] at hx
    rw [hx, decodeVersion_some hdecodedVersion, hversion]
  · intro items hitems
    rw [hitem hitems, ← (mapM_some_mem hassignments).1]
    exact hcount
  · intro items hitems a ha
    rw [hitem hitems] at ha
    obtain ⟨assignment, hassignment, hdecoded⟩ := (mapM_some_mem hassignments).2 a ha
    obtain ⟨entry, hentry, hok⟩ := mapM_ok_result hentries hassignment
    exact admissibleAssignment_of_decoded hdecoded hok (hcompatible entry hentry)

/-- Some assignment of the document names the permission at this scope. -/
def DocumentGrants (k : Crates) (b : List UInt8) (scope : GrantScope) (c : Capability) : Prop :=
  ∃ v d, k.fromSlice b = some v ∧ decodeDocument k v = some d ∧
    ∃ a ∈ d.grants, a.scope = scope ∧ c.definition.identifier ∈ a.permissions

theorem permissionIds_iff {identifiers : List String} {permissions : List Capability}
    (h : permissionIds identifiers = .ok permissions) (c : Capability) :
    c ∈ permissions ↔ c.definition.identifier ∈ identifiers := by
  constructor
  · intro hc
    obtain ⟨identifier, hmem, hid⟩ := mapM_ok_mem h hc
    split at hid
    · rename_i c' hc'
      cases hid
      rw [fromPermissionId_some hc']
      exact hmem
    · cases hid
  · intro hmem
    obtain ⟨c', hc', hid⟩ := permissionIds_mem h hmem
    have hsame : some c' = some c := by
      rw [← fromPermissionId_identifier c', hid, fromPermissionId_identifier]
    rw [← Option.some.inj hsame]
    exact hc'

theorem contains_iff_documentGrants {k : Crates} {b : List UInt8} {g : GrantSet}
    (h : fromVerifiedJson k (some b) = .ok g) (scope : GrantScope) (c : Capability) :
    g.contains scope c = true ↔ DocumentGrants k b scope c := by
  obtain ⟨_, v, d, entries, hv, hd, _, _, hentries, hnew⟩ := fromVerifiedJson_ok h
  rw [GrantSet.new_contains hnew]
  constructor
  · rintro ⟨entry, hentry, rfl, hc⟩
    obtain ⟨a, ha, hok⟩ := mapM_ok_mem hentries hentry
    obtain ⟨hscope, hids⟩ := assignmentEntry_ok hok
    exact ⟨v, d, hv, hd, a, ha, hscope.symm, (permissionIds_iff hids c).mp hc⟩
  · rintro ⟨v', d', hv', hd', a, ha, rfl, hc⟩
    rw [hv, Option.some.injEq] at hv'
    subst hv'
    rw [hd, Option.some.injEq] at hd'
    subst hd'
    obtain ⟨entry, hentry, hok⟩ := mapM_ok_result hentries ha
    obtain ⟨hscope, hids⟩ := assignmentEntry_ok hok
    exact ⟨entry, hentry, hscope, (permissionIds_iff hids c).mpr hc⟩

/-- Grant documents round-trip, encode canonically, and fail closed. -/
theorem grant_documents_round_trip (k : Crates) :
    (∀ g bytes, k.ReadsBack g → toJson k g = .ok bytes →
      fromVerifiedJson k (some bytes) = .ok g) ∧
    (∀ b g b', k.ReadsBack g → fromVerifiedJson k (some b) = .ok g → toJson k g = .ok b' →
      (∃ g', fromVerifiedJson k (some b') = .ok g' ∧ toJson k g' = .ok b') ∧
      ∀ b₂ g₂, fromVerifiedJson k (some b₂) = .ok g₂ →
        (∀ scope c, DocumentGrants k b₂ scope c ↔ DocumentGrants k b scope c) →
        toJson k g₂ = .ok b') ∧
    ∀ b g, fromVerifiedJson k (some b) = .ok g →
      b.length ≤ maxGrantDocumentBytes ∧ ∃ v, k.fromSlice b = some v ∧ Admissible k v := by
  refine ⟨?_, ?_, ?_⟩
  · intro g bytes hk h
    exact fromVerifiedJson_toJson hk h
  · intro b g b' hk hb hencoded
    refine ⟨⟨g, fromVerifiedJson_toJson hk hencoded, hencoded⟩, ?_⟩
    intro b₂ g₂ hb₂ hsame
    have hgrants : g₂ = g := by
      apply GrantSet.ext_contains
      intro scope c
      rw [Bool.eq_iff_iff, contains_iff_documentGrants hb₂, contains_iff_documentGrants hb, hsame]
    rw [hgrants]
    exact hencoded
  · intro b g h
    exact admissible_of_ok h

def demoText : String :=
  "\x7b\"version\":1,\"grants\":[\x7b\"scope\":\x7b\"kind\":\"namespace\",\"namespace_id\":" ++
    "\"00000000-0000-0000-0000-000000000001\"\x7d,\"permissions\":[\"crono.job.read\"]\x7d]\x7d"

def demoBytes : List UInt8 := demoText.toList.map fun c => UInt8.ofNat c.toNat

def demoValue : Value :=
  .object [("version", .number (.posInt 1)), ("grants", .array [.object
    [("scope", .object [("kind", .string "namespace"),
      ("namespace_id", .string "00000000-0000-0000-0000-000000000001")]),
    ("permissions", .array [.string "crono.job.read"])]])]

def demoCrates : Crates where
  fromSlice := fun b => if b = demoBytes then some demoValue else none
  toVec := fun v => if v = demoValue then demoBytes else []
  parseStr := fun s => if s = "00000000-0000-0000-0000-000000000001" then some 1 else none
  hyphenated := fun id => if id = 1 then "00000000-0000-0000-0000-000000000001" else ""

def demoAssignments : Assignments := insertPermission .empty (.inNamespace 1) .jobRead

theorem demoAssignments_entries :
    insertEntries 0 [(.inNamespace 1, [.jobRead])] .empty = .ok demoAssignments := rfl

def demoGrants : GrantSet := ⟨demoAssignments, insertEntries_normal demoAssignments_entries⟩

theorem demoCrates_readsBack : demoCrates.ReadsBack demoGrants := by
  constructor
  · decide +kernel
  · intro id c hc
    rcases (contains_insertPermission .empty (.inNamespace 1) (.inNamespace id) .jobRead c).mp hc
      with ⟨hscope, _⟩ | hnone
    · cases hscope
      decide +kernel
    · cases hnone

theorem demoGrants_encoded : toJson demoCrates demoGrants = .ok demoBytes := by
  decide +kernel

theorem grant_documents_round_trip_demo :
    fromVerifiedJson demoCrates (some demoBytes) = .ok demoGrants ∧
      (∃ g, fromVerifiedJson demoCrates (some demoBytes) = .ok g ∧
        toJson demoCrates g = .ok demoBytes) ∧
      ∃ v, demoCrates.fromSlice demoBytes = some v ∧ Admissible demoCrates v := by
  have hround := (grant_documents_round_trip demoCrates).1 demoGrants demoBytes
    demoCrates_readsBack demoGrants_encoded
  exact ⟨hround,
    ((grant_documents_round_trip demoCrates).2.1 demoBytes demoGrants demoBytes
      demoCrates_readsBack hround demoGrants_encoded).1,
    ((grant_documents_round_trip demoCrates).2.2 demoBytes demoGrants hround).2⟩

end GrantDocuments
