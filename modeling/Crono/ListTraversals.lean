import Crono.ListQueries
import Mathlib.Data.String.Basic

/-! A client that follows the cursors of a list operation, while the database changes between its
requests, sees in order and once everything that matched all along. -/
namespace ListTraversals

open RunDomain WorkflowDomain ControlPlaneSchema RunStore WorkflowStore SchedulePlanner
open Capabilities GrantSets GrantPolicy ApplicationCalls ListQueries KeysetPages
open FallibleLists

/-- Primary key, unique names within a scope, and the check on names. -/
structure NamedTable {ρ : Type} (rows : List ρ) (id scope : ρ → Uuid) (name : ρ → String) :
    Prop where
  ids : (rows.map id).Nodup
  names : (rows.map fun r => (scope r, name r)).Nodup
  canonical : ∀ r ∈ rows, validateResourceName (name r) = true

def Placed (db : Database) (namespaceId : Uuid) : Prop := ∃ n ∈ db.namespaces, n.id = namespaceId

def Queued (db : Database) (queueId : Uuid) : Prop :=
  ∃ q ∈ db.store.catalog.queues, q.id = queueId

/-- What the constraints of the schema say of the tables, and what their writers store. -/
structure Valid (db : Database) : Prop where
  namespaces : NamedTable db.namespaces NamespaceRow.id (fun _ => 0) NamespaceRow.name
  queues : NamedTable db.store.catalog.queues QueueRow.id (fun _ => 0) QueueRow.name
  jobs : NamedTable db.store.catalog.jobs JobRow.id JobRow.namespaceId JobRow.name
  jobColumns : ∀ j ∈ db.store.catalog.jobs, Placed db j.namespaceId ∧ Queued db j.queueId ∧
    j.maxAttempts ≤ 100
  targets : NamedTable db.store.catalog.targets TargetRow.id TargetRow.namespaceId TargetRow.name
  targetColumns : ∀ t ∈ db.store.catalog.targets, Placed db t.namespaceId
  targetSets : NamedTable db.store.catalog.targetSets TargetSetRow.id TargetSetRow.namespaceId
    TargetSetRow.name
  targetSetColumns : ∀ ts ∈ db.store.catalog.targetSets, Placed db ts.namespaceId
  /-- `target_rows_for_ids` admits members of the Namespace only. -/
  members : ∀ ts ∈ db.store.catalog.targetSets, ∀ member ∈ db.store.catalog.targetSetMembers,
    member.targetSetId = ts.id → ∀ t ∈ db.store.catalog.targets, t.id = member.targetId →
      t.namespaceId = ts.namespaceId
  schedules : NamedTable db.schedules (fun s => s.row.id) (fun s => s.row.namespaceId)
    ScheduleColumns.name
  scheduleRows : db.store.schedules = db.schedules.map ScheduleColumns.row
  scheduleColumns : ∀ s ∈ db.schedules, Placed db s.row.namespaceId ∧
    (∃ j ∈ db.store.catalog.jobs, j.id = s.row.jobId) ∧ s.config.maxCatchupRuns ≤ 1000 ∧
    ((∃ id, s.row.targetId = some id ∧ s.row.targetSetId = none ∧
        ∃ t ∈ db.store.catalog.targets, t.id = id) ∨
      ∃ id, s.row.targetId = none ∧ s.row.targetSetId = some id ∧
        ∃ ts ∈ db.store.catalog.targetSets, ts.id = id)
  workerIds : (db.workers.map WorkerPresenceRow.workerId).Nodup
  workerColumns : ∀ w ∈ db.workers, validateResourceName w.workerId = true ∧ Queued db w.queueId ∧
    w.concurrency ≤ 256
  workflows : NamedTable db.store.catalog.workflows StoredWorkflow.id StoredWorkflow.namespaceId
    StoredWorkflow.name
  /-- `write` validates a definition before it is stored. -/
  definitions : ∀ w ∈ db.store.catalog.workflows, ∃ record, StoredWorkflow.record w = .ok record
  runIds : (db.store.runs.map RunRow.id).Nodup ∧ ∀ r ∈ db.store.runs, r.id < 2 ^ 128
  workflowRunIds : (db.store.workflowRuns.map WorkflowRunRow.id).Nodup ∧
    ∀ w ∈ db.store.workflowRuns, w.id < 2 ^ 128
  /-- A launch stores the definition it validated, in its Namespace. -/
  invocations : ∀ w ∈ db.store.workflowRuns, w.definitionSnapshot.namespaceId = w.namespaceId ∧
    ∃ record, invocation db.store w.id = .ok record

def namedEntry (id : Uuid) (name : String) : Entry := ⟨.uuid id, name⟩

/-- The items that match the filter and the visibility. -/
def matching (op : ListOperation) (m : Moment) : List Entry :=
  match op with
  | .namespaces => (m.database.namespaces.filter fun n => m.visibility.includes n.id).map
      fun n => namedEntry n.id n.name
  | .queues => m.database.store.catalog.queues.map fun q => namedEntry q.id q.name
  | .jobs namespaceId => (m.database.store.catalog.jobs.filter fun j =>
      j.namespaceId = namespaceId && m.visibility.includes namespaceId).map
        fun j => namedEntry j.id j.name
  | .targets namespaceId => (m.database.store.catalog.targets.filter fun t =>
      t.namespaceId = namespaceId && m.visibility.includes namespaceId).map
        fun t => namedEntry t.id t.name
  | .targetSets namespaceId => (m.database.store.catalog.targetSets.filter fun ts =>
      ts.namespaceId = namespaceId && m.visibility.includes namespaceId).map
        fun ts => namedEntry ts.id ts.name
  | .schedules namespaceId => (m.database.schedules.filter fun s =>
      s.row.namespaceId = namespaceId && m.visibility.includes namespaceId).map
        fun s => namedEntry s.row.id s.name
  | .workers => m.database.workers.map fun w => workerEntry w.workerId
  | .workflows namespaceId => (m.database.store.catalog.workflows.filter fun w =>
      w.namespaceId = namespaceId && m.visibility.includes namespaceId).map
        fun w => namedEntry w.id w.name
  | .runs filter => (m.database.store.runs.filterMap
      (StoreReads.listedRun m.visibility filter none m.database.store)).map
        fun record => idEntry record.id
  | .workflowRuns workflowId => (m.database.store.workflowRuns.filter fun w =>
      w.workflowId = workflowId && m.visibility.includes w.namespaceId).map
        fun w => idEntry w.id

variable {κ : Type} [LinearOrder κ] (C : Collation κ)

def entryNumber (e : Entry) : ℕ :=
  match e.id with
  | .uuid id => id
  | .worker _ => 0

/-- Names ascend, ids descend. -/
def Precedes (op : ListOperation) (a b : Entry) : Prop :=
  match op with
  | .runs _ | .workflowRuns _ => entryNumber b < entryNumber a
  | _ => C.weight a.cursor < C.weight b.cursor

def Accepts (op : ListOperation) (cursor : String) : Prop :=
  match op with
  | .runs _ | .workflowRuns _ => ∃ id, parseBefore (some cursor) = .ok (some id)
  | _ => pageCursor (some cursor) = .ok (some cursor)

theorem mapM_loads {ρ α : Type} {load : ρ → Except StoreError α} {entry : ρ → Entry}
    {entry' : α → Entry} {rows : List ρ}
    (h : ∀ r ∈ rows, ∃ a, load r = .ok a ∧ entry' a = entry r) :
    ∃ items, rows.mapM load = .ok items ∧ items.map entry' = rows.map entry := by
  induction rows with
  | nil => exact ⟨[], rfl, rfl⟩
  | cons r rows ih =>
    obtain ⟨a, hload, hentry⟩ := h r List.mem_cons_self
    obtain ⟨items, hitems, hentries⟩ := ih fun r' hr' => h r' (List.mem_cons_of_mem r hr')
    refine ⟨a :: items, ?_, ?_⟩
    · rw [List.mapM_cons, hload, hitems]
      rfl
    · rw [List.map_cons, List.map_cons, hentry, hentries]

theorem named_eq {ρ : Type} (name : ρ → String) (rows : List ρ) (limit : ℕ)
    (after : Option String) : named C name rows limit after =
      (ordered (fun r => C.weight (name r)) (after.map C.weight) rows).take limit := by
  unfold named ordered
  cases after with
  | none => rfl
  | some cursor => rfl

theorem mem_named {ρ : Type} {name : ρ → String} {rows : List ρ} {limit : ℕ}
    {after : Option String} {r : ρ} (h : r ∈ named C name rows limit after) : r ∈ rows := by
  rw [named_eq] at h
  exact (mem_ordered.mp (List.mem_of_mem_take h)).1

theorem mem_cut {ι : Type} {limit : ℕ} {fetched : List ι} {i : ι} (h : i ∈ cut limit fetched) :
    i ∈ fetched := by
  unfold cut at h
  split at h
  · exact List.dropLast_subset _ h
  · exact h

/-- The cursor of a page: that of its last entry, when a row was left out. -/
def cursorOf (hasMore : Prop) [Decidable hasMore] (items : List Entry) : Option String :=
  if hasMore then items.getLast?.map Entry.cursor else none

theorem serves_named {ρ : Type} (name : ρ → String) {entry : ρ → Entry} {rows : List ρ}
    {limit : ℕ} (hentry : ∀ r, (entry r).cursor = name r)
    (hnames : ((rows.map entry).map Entry.cursor).Nodup) (hlimit : 0 < limit)
    (after : Option String) {items : List Entry}
    (hitems : items = (cut limit (named C name rows (limit + 1) after)).map entry) :
    Serves (fun e : Entry => C.weight e.cursor) limit (rows.map entry) (after.map C.weight) items
      ((cursorOf (limit < (named C name rows (limit + 1) after).length) items).map C.weight) := by
  have hkeys : (rows.map fun r => C.weight (entry r).cursor).Nodup := by
    have hweights := hnames.map C.injective
    rw [List.map_map, List.map_map] at hweights
    exact hweights
  have hserves := (serves_cut (after.map C.weight) hkeys hlimit).map
    (fun e : Entry => C.weight e.cursor) entry
  simp only [hentry] at hserves
  rw [← named_eq C name, ← hitems] at hserves
  unfold cursorOf
  split
  · rename_i hmore
    rw [if_pos hmore] at hserves
    simpa only [hitems, List.getLast?_map, Option.map_map, Function.comp_def, hentry] using hserves
  · rename_i hlast
    rw [if_neg hlast] at hserves
    exact hserves

theorem page_serves {ρ α : Type} {name : ρ → String} {entry : ρ → Entry} {entry' : α → Entry}
    {rows : List ρ} {limit : ℕ} {load : ρ → Except StoreError α} (cursor : α → String)
    (hentry : ∀ r, (entry r).cursor = name r) (hcursor : ∀ a, (entry' a).cursor = cursor a)
    (hload : ∀ r ∈ rows, ∃ a, load r = .ok a ∧ entry' a = entry r)
    (hnames : ((rows.map entry).map Entry.cursor).Nodup) (hlimit : 0 < limit)
    (after : Option String) :
    ∃ p, page (named C name rows (limit + 1) after) limit load cursor = .ok p ∧
      Serves (fun e : Entry => C.weight e.cursor) limit (rows.map entry) (after.map C.weight)
        (p.items.map entry') (p.nextCursor.map C.weight) := by
  obtain ⟨items, hitems, hentries⟩ := mapM_loads fun r hr => hload r (mem_named C (mem_cut hr))
  refine ⟨⟨items, if limit < (named C name rows (limit + 1) after).length then
    items.getLast?.map cursor else none⟩, ?_, ?_⟩
  · rw [page, ← cut, hitems]
    rfl
  · have hlast : (items.map entry').getLast?.map Entry.cursor = items.getLast?.map cursor := by
      rw [List.getLast?_map, Option.map_map]
      exact congrArg (fun f => items.getLast?.map f) (funext hcursor)
    have hserves := serves_named C name hentry hnames hlimit after hentries
    rw [cursorOf, hlast] at hserves
    exact hserves

theorem serves_unseen {ρ : Type} {limit : ℕ} {after : Option κ} {key : Entry → κ} {rows : List ρ}
    {entry : ρ → Entry} {seen : ρ → Bool} (h : ∀ r, seen r = false) :
    Serves key limit ((rows.filter seen).map entry) after [] none := by
  rw [List.filter_eq_nil_iff.mpr fun r _ => by rw [h r]; exact Bool.false_ne_true]
  exact serves_nil

theorem NamedTable.distinct {ρ : Type} {rows rows' : List ρ} {id scope : ρ → Uuid}
    {name : ρ → String} (h : NamedTable rows id scope name) (hrows : rows'.Sublist rows) {x : Uuid}
    (hscope : ∀ r ∈ rows', scope r = x) :
    ((rows'.map fun r => namedEntry (id r) (name r)).map Entry.cursor).Nodup := by
  rw [List.map_map]
  refine List.pairwise_map.mpr ?_
  refine (List.pairwise_map.mp (h.names.sublist (hrows.map _))).imp_of_mem ?_
  intro a b ha hb hne hname
  exact hne (Prod.ext ((hscope a ha).trans (hscope b hb).symm) hname)

theorem filterMap_entries {ρ τ : Type} {join : ρ → Option τ} {entry : τ → Entry}
    {entry₀ : ρ → Entry} {rows : List ρ}
    (h : ∀ r ∈ rows, ∃ t, join r = some t ∧ entry t = entry₀ r) :
    (rows.filterMap join).map entry = rows.map entry₀ := by
  induction rows with
  | nil => rfl
  | cons r rows ih =>
    obtain ⟨t, hjoin, hentry⟩ := h r List.mem_cons_self
    rw [List.filterMap_cons_some hjoin, List.map_cons, List.map_cons, hentry,
      ih fun r' hr' => h r' (List.mem_cons_of_mem r hr')]

section Scoped

variable {ρ τ α : Type} {rows : List ρ} {id owner : ρ → Uuid} {name : ρ → String}
  {join : ρ → Option τ}

theorem ofNamespace_entries {entry : τ → Entry} (namespaceId : Uuid) (visibility : VisibilityScope)
    (hrow : ∀ r ∈ rows, ∃ t, join r = some t ∧ entry t = namedEntry (id r) (name r)) :
    (ofNamespace namespaceId visibility owner join rows).map entry =
      (rows.filter fun r => owner r = namespaceId && visibility.includes namespaceId).map
        fun r => namedEntry (id r) (name r) :=
  filterMap_entries fun r hr => hrow r (List.mem_of_mem_filter hr)

theorem mem_ofNamespace {namespaceId : Uuid} {visibility : VisibilityScope} {t : τ}
    (h : t ∈ ofNamespace namespaceId visibility owner join rows) :
    ∃ r ∈ rows, join r = some t := by
  obtain ⟨r, hr, hjoin⟩ := List.mem_filterMap.mp h
  exact ⟨r, List.mem_of_mem_filter hr, hjoin⟩

/-- A page of the resources of a Namespace. -/
theorem scoped_serves (join : ρ → Option τ) (entry : τ → Entry) (entry' : α → Entry)
    (load : τ → Except StoreError α) (nameOf : τ → String) (cursor : α → String)
    (htable : NamedTable rows id owner name)
    (hentry : ∀ t, (entry t).cursor = nameOf t) (hcursor : ∀ a, (entry' a).cursor = cursor a)
    (hrow : ∀ r ∈ rows, ∃ t, join r = some t ∧ entry t = namedEntry (id r) (name r) ∧
      ∃ a, load t = .ok a ∧ entry' a = entry t)
    (namespaceId : Uuid) (visibility : VisibilityScope) {limit : ℕ} (hlimit : 0 < limit)
    (after : Option String) :
    ∃ p, page (named C nameOf (ofNamespace namespaceId visibility owner join rows) (limit + 1)
        after) limit load cursor = .ok p ∧
      Serves (fun e : Entry => C.weight e.cursor) limit ((rows.filter fun r =>
        owner r = namespaceId && visibility.includes namespaceId).map
          fun r => namedEntry (id r) (name r)) (after.map C.weight)
        (p.items.map entry') (p.nextCursor.map C.weight) := by
  have hentries : (ofNamespace namespaceId visibility owner join rows).map entry = _ :=
    ofNamespace_entries namespaceId visibility fun r hr => by
      obtain ⟨t, hjoin, hrow, _⟩ := hrow r hr
      exact ⟨t, hjoin, hrow⟩
  rw [← hentries]
  refine page_serves C cursor hentry hcursor ?_ ?_ hlimit after
  · intro t ht
    obtain ⟨r, hr, hjoin⟩ := mem_ofNamespace ht
    obtain ⟨t', hjoin', _, hload⟩ := hrow r hr
    rw [hjoin, Option.some_inj] at hjoin'
    exact hjoin' ▸ hload
  · rw [hentries]
    refine htable.distinct List.filter_sublist (x := namespaceId) fun r hr => ?_
    simp only [List.mem_filter, Bool.and_eq_true, decide_eq_true_eq] at hr
    exact hr.2.1

end Scoped

section Operations

variable {db : Database} (hdb : Valid db) {limit : ℕ} (hlimit : 0 < limit) (after : Option String)

theorem take_named {ρ : Type} (name : ρ → String) (rows : List ρ) :
    (named C name rows (limit + 1) after).take limit =
      cut limit (named C name rows (limit + 1) after) := by
  rw [named_eq]
  generalize ordered (fun r => C.weight (name r)) (after.map C.weight) rows = all
  unfold cut
  split
  · rename_i hmore
    rw [List.length_take] at hmore
    rw [List.dropLast_eq_take, List.length_take]
    exact congrArg (fun n => (all.take (limit + 1)).take n) (by omega)
  · rename_i hlast
    exact List.take_of_length_le (not_lt.mp hlast)

theorem resourceName_ok {name : String} (h : validateResourceName name = true) :
    resourceName name = .ok name := by
  rw [resourceName, if_pos h]

theorem mapM_resourceName {ρ : Type} {rows : List ρ} {name : ρ → String}
    (h : ∀ r ∈ rows, validateResourceName (name r) = true) :
    rows.mapM (fun r => resourceName (name r)) = .ok (rows.map name) := by
  induction rows with
  | nil => rfl
  | cons r rows ih =>
    rw [List.mapM_cons, resourceName_ok (h r List.mem_cons_self),
      ih fun r' hr' => h r' (List.mem_cons_of_mem r hr')]
    rfl

theorem find_id {ρ : Type} {rows : List ρ} {id : ρ → Uuid} {x : Uuid}
    (h : ∃ r ∈ rows, id r = x) : ∃ r ∈ rows, rows.find? (fun r => id r = x) = some r := by
  obtain ⟨r, hr, hid⟩ := h
  have hsome : (rows.find? fun r => id r = x).isSome = true :=
    List.find?_isSome.mpr ⟨r, hr, by simpa using hid⟩
  obtain ⟨found, hfound⟩ := Option.isSome_iff_exists.mp hsome
  exact ⟨found, List.mem_of_find?_eq_some hfound, hfound⟩

include hdb

theorem placed_name {namespaceId : Uuid} (h : Placed db namespaceId) :
    ∃ name, namespaceName db namespaceId = some name ∧ validateResourceName name = true := by
  obtain ⟨n, hn, hfound⟩ := find_id h
  exact ⟨n.name, by rw [namespaceName, hfound]; rfl, hdb.namespaces.canonical n hn⟩

theorem queued_name {queueId : Uuid} (h : Queued db queueId) :
    ∃ name, queueName db queueId = some name ∧ validateResourceName name = true := by
  obtain ⟨q, hq, hfound⟩ := find_id h
  exact ⟨q.name, by rw [queueName, hfound]; rfl, hdb.queues.canonical q hq⟩

theorem scheduleTarget_ok {s : ScheduleColumns} (hs : s ∈ db.schedules) :
    (∃ selection, targetSelection s.row.targetId s.row.targetSetId = .ok selection) ∧
      validateResourceName ((scheduleTargetName db s.row).getD "unknown") = true := by
  obtain ⟨_, _, _, ⟨id, htarget, hset, hexists⟩ | ⟨id, htarget, hset, hexists⟩⟩ :=
    hdb.scheduleColumns s hs
  · obtain ⟨t, ht, hfound⟩ := find_id hexists
    refine ⟨⟨.target id, by rw [htarget, hset]; rfl⟩, ?_⟩
    rw [scheduleTargetName, htarget, Option.bind_some, hfound]
    exact hdb.targets.canonical t ht
  · obtain ⟨ts, hts, hfound⟩ := find_id hexists
    refine ⟨⟨.targetSet id, by rw [htarget, hset]; rfl⟩, ?_⟩
    rw [scheduleTargetName, htarget, hset, Option.bind_some, hfound]
    exact hdb.targetSets.canonical ts hts

theorem loadMembers_ok {ts : TargetSetRow} (hts : ts ∈ db.store.catalog.targetSets) :
    ∃ targets, StoreReads.loadTargetSetRecord ts db.store = .ok targets ∧
      ∀ t ∈ targets, t ∈ db.store.catalog.targets := by
  have hmember {t : TargetRow} (ht : t ∈ ((db.store.catalog.targetSetMembers.filter
      fun member => member.targetSetId = ts.id).flatMap fun member =>
        db.store.catalog.targets.filter fun t => t.id = member.targetId).insertionSort
          fun a b => a.name ≤ b.name) :
      t ∈ db.store.catalog.targets ∧ t.namespaceId = ts.namespaceId := by
    simp only [List.mem_insertionSort, List.mem_flatMap, List.mem_filter, decide_eq_true_eq] at ht
    obtain ⟨member, ⟨hmember, hset⟩, ht, hid⟩ := ht
    exact ⟨ht, hdb.members ts hts member hmember hset t ht hid⟩
  refine ⟨_, if_pos ?_, fun t ht => (hmember ht).1⟩
  exact List.all_eq_true.mpr fun t ht => decide_eq_true (hmember ht).2

theorem loadTargetSetRecord_ok {ts : TargetSetRow} (hts : ts ∈ db.store.catalog.targetSets)
    {namespaceName : String} (hname : validateResourceName namespaceName = true) :
    ∃ record, loadTargetSetRecord db (ts, namespaceName) = .ok record ∧ record.targetSet = ts := by
  obtain ⟨targets, htargets, hmembers⟩ := loadMembers_ok hdb hts
  refine ⟨⟨ts, namespaceName, targets⟩, ?_, rfl⟩
  rw [loadTargetSetRecord, resourceName_ok (hdb.targetSets.canonical ts hts), htargets,
    resourceName_ok hname]
  simp only [bind, Except.bind, pure, Except.pure]
  rw [mapM_resourceName fun t ht => hdb.targets.canonical t (hmembers t ht)]

theorem catalog_ok {w : StoredWorkflow} (hw : w ∈ db.store.catalog.workflows) :
    catalog db.store.catalog w.id = .ok w := by
  have hfound : db.store.catalog.workflows.find? (fun x => x.id = w.id) = some w :=
    SqlTable.find?_key hdb.workflows.ids hw
  rw [catalog, hfound]

theorem loadWorkflow_ok {namespaceId : Uuid} {r : Uuid × String}
    (hr : r ∈ workflowRows namespaceId db) : ∃ record, loadWorkflow db r = .ok record ∧
      namedEntry record.id record.definition.name = namedEntry r.1 r.2 := by
  obtain ⟨w, hw, rfl⟩ := List.mem_map.mp hr
  have hw := List.mem_of_mem_filter hw
  obtain ⟨record, hrecord⟩ := hdb.definitions w hw
  refine ⟨record, ?_, ?_⟩
  · rw [loadWorkflow, catalog_ok hdb hw]
    exact hrecord
  · rw [(record_ok hrecord).2]
    rfl

include hlimit

theorem listNamespaces_serves (visibility : VisibilityScope) (now : Instant) :
    ∃ p, listNamespaces C visibility limit after db = .ok p ∧
      Serves (fun e : Entry => C.weight e.cursor) limit
        (matching .namespaces ⟨visibility, now, db⟩) (after.map C.weight)
        (p.items.map fun n => namedEntry n.id n.name) (p.nextCursor.map C.weight) := by
  have hload (n : NamespaceRow) (hn : n ∈ db.namespaces.filter fun n => visibility.includes n.id) :
      ∃ a, namespaceFromRow n = .ok a ∧ namedEntry a.id a.name = namedEntry n.id n.name := by
    refine ⟨n, ?_, rfl⟩
    rw [namespaceFromRow, resourceName_ok (hdb.namespaces.canonical n (List.mem_of_mem_filter hn))]
    rfl
  have hpage := page_serves C NamespaceRow.name (fun _ => rfl) (fun _ => rfl) hload
    (hdb.namespaces.distinct List.filter_sublist (x := 0) fun _ _ => rfl) hlimit after
  cases visibility with
  | none => exact ⟨emptyPage, rfl, serves_unseen fun _ => rfl⟩
  | all => exact hpage
  | namespaces ids => exact hpage

theorem listQueues_serves (visibility : VisibilityScope) (now : Instant) :
    ∃ p, listQueues C limit after db = .ok p ∧
      Serves (fun e : Entry => C.weight e.cursor) limit (matching .queues ⟨visibility, now, db⟩)
        (after.map C.weight) (p.items.map fun q => namedEntry q.id q.name)
        (p.nextCursor.map C.weight) := by
  have hload (q : QueueRow) (hq : q ∈ db.store.catalog.queues) :
      ∃ a, queueFromRow q = .ok a ∧ namedEntry a.id a.name = namedEntry q.id q.name := by
    refine ⟨q, ?_, rfl⟩
    rw [queueFromRow, resourceName_ok (hdb.queues.canonical q hq)]
    rfl
  exact page_serves C QueueRow.name (fun _ => rfl) (fun _ => rfl) hload
    (hdb.queues.distinct (List.Sublist.refl _) (x := 0) fun _ _ => rfl) hlimit after

theorem listJobs_serves (namespaceId : Uuid) (visibility : VisibilityScope) (now : Instant) :
    ∃ p, listJobs C namespaceId visibility limit after db = .ok p ∧
      Serves (fun e : Entry => C.weight e.cursor) limit
        (matching (.jobs namespaceId) ⟨visibility, now, db⟩) (after.map C.weight)
        (p.items.map fun r => namedEntry r.job.id r.job.name) (p.nextCursor.map C.weight) := by
  have hpage := scoped_serves C (joinedJob db) (fun r => namedEntry r.job.id r.job.name)
    (fun r => namedEntry r.job.id r.job.name) jobFromRow (fun r => r.job.name)
    (fun r => r.job.name) hdb.jobs (fun _ => rfl) (fun _ => rfl) ?_ namespaceId visibility hlimit
    after
  · cases visibility with
    | none => exact ⟨emptyPage, rfl, serves_unseen fun _ => Bool.and_false _⟩
    | all => exact hpage
    | namespaces ids => exact hpage
  · intro j hj
    obtain ⟨hplaced, hqueued, hattempts⟩ := hdb.jobColumns j hj
    obtain ⟨n, hn, hnamespace⟩ := placed_name hdb hplaced
    obtain ⟨q, hq, hqueue⟩ := queued_name hdb hqueued
    refine ⟨⟨j, n, q⟩, ?_, rfl, ⟨j, n, q⟩, ?_, rfl⟩
    · rw [joinedJob, hn, hq]
      rfl
    · rw [jobFromRow, if_neg (by simp only; omega), resourceName_ok hnamespace,
        resourceName_ok hqueue, resourceName_ok (hdb.jobs.canonical j hj)]
      rfl

theorem listTargets_serves (namespaceId : Uuid) (visibility : VisibilityScope) (now : Instant) :
    ∃ p, listTargets C namespaceId visibility limit after db = .ok p ∧
      Serves (fun e : Entry => C.weight e.cursor) limit
        (matching (.targets namespaceId) ⟨visibility, now, db⟩) (after.map C.weight)
        (p.items.map fun r => namedEntry r.target.id r.target.name)
        (p.nextCursor.map C.weight) := by
  have hpage := scoped_serves C (joinedTarget db) (fun r => namedEntry r.target.id r.target.name)
    (fun r => namedEntry r.target.id r.target.name) targetFromRow (fun r => r.target.name)
    (fun r => r.target.name) hdb.targets (fun _ => rfl) (fun _ => rfl) ?_ namespaceId
    visibility hlimit after
  · cases visibility with
    | none => exact ⟨emptyPage, rfl, serves_unseen fun _ => Bool.and_false _⟩
    | all => exact hpage
    | namespaces ids => exact hpage
  · intro t ht
    obtain ⟨n, hn, hnamespace⟩ := placed_name hdb (hdb.targetColumns t ht)
    refine ⟨⟨t, n⟩, ?_, rfl, ⟨t, n⟩, ?_, rfl⟩
    · rw [joinedTarget, hn]
      rfl
    · rw [targetFromRow, resourceName_ok hnamespace, resourceName_ok (hdb.targets.canonical t ht)]
      rfl

theorem listSchedules_serves (namespaceId : Uuid) (visibility : VisibilityScope)
    (now : Instant) :
    ∃ p, listSchedules C namespaceId visibility limit after db = .ok p ∧
      Serves (fun e : Entry => C.weight e.cursor) limit
        (matching (.schedules namespaceId) ⟨visibility, now, db⟩) (after.map C.weight)
        (p.items.map fun r => namedEntry r.schedule.row.id r.schedule.name)
        (p.nextCursor.map C.weight) := by
  have hpage := scoped_serves C (joinedSchedule db)
    (fun r => namedEntry r.schedule.row.id r.schedule.name)
    (fun r => namedEntry r.schedule.row.id r.schedule.name) scheduleFromRow
    (fun r => r.schedule.name) (fun r => r.schedule.name) hdb.schedules
    (fun _ => rfl) (fun _ => rfl) ?_ namespaceId visibility hlimit after
  · cases visibility with
    | none => exact ⟨emptyPage, rfl, serves_unseen fun _ => Bool.and_false _⟩
    | all => exact hpage
    | namespaces ids => exact hpage
  · intro s hs
    obtain ⟨hplaced, hjob, hruns, _⟩ := hdb.scheduleColumns s hs
    obtain ⟨n, hn, hnamespace⟩ := placed_name hdb hplaced
    obtain ⟨j, hj, hfound⟩ := find_id hjob
    obtain ⟨⟨selection, hselection⟩, htarget⟩ := scheduleTarget_ok hdb hs
    refine ⟨⟨s, n, j.name, scheduleTargetName db s.row⟩, ?_, rfl,
      ⟨s, n, j.name, scheduleTargetName db s.row⟩, ?_, rfl⟩
    · rw [joinedSchedule, hn, hfound]
      rfl
    · rw [scheduleFromRow, resourceName_ok (hdb.schedules.canonical s hs), hselection,
        if_neg (by simp only; omega), resourceName_ok hnamespace,
        resourceName_ok (hdb.jobs.canonical j hj), resourceName_ok htarget]
      rfl

theorem listWorkers_serves (visibility : VisibilityScope) (now : Instant) :
    ∃ p, listWorkers C limit after now db = .ok p ∧
      Serves (fun e : Entry => C.weight e.cursor) limit (matching .workers ⟨visibility, now, db⟩)
        (after.map C.weight) (p.items.map fun r => workerEntry r.worker.workerId)
        (p.nextCursor.map C.weight) := by
  have hjoin (w : WorkerPresenceRow) (hw : w ∈ db.workers) :
      ∃ t, joinedWorker db now w = some t ∧ workerEntry t.worker.workerId = workerEntry w.workerId ∧
        workerFromRow t = .ok t := by
    obtain ⟨_, hqueued, hconcurrency⟩ := hdb.workerColumns w hw
    obtain ⟨q, hq, _⟩ := queued_name hdb hqueued
    refine ⟨⟨w, q, activeExecutions db now w.workerId⟩, ?_, rfl, ?_⟩
    · rw [joinedWorker, hq]
      rfl
    · rw [workerFromRow, if_neg (by simp only; omega)]
  have hentries : (db.workers.filterMap (joinedWorker db now)).map
      (fun r => workerEntry r.worker.workerId) = db.workers.map fun w => workerEntry w.workerId :=
    filterMap_entries fun w hw => by
      obtain ⟨t, ht, hentry, _⟩ := hjoin w hw
      exact ⟨t, ht, hentry⟩
  rw [listWorkers, matching, ← hentries]
  refine page_serves C (fun r : WorkerRecord => r.worker.workerId) ?_ ?_ ?_ ?_ hlimit after
  · exact fun _ => rfl
  · exact fun _ => rfl
  · intro t ht
    obtain ⟨w, hw, hjoined⟩ := List.mem_filterMap.mp ht
    obtain ⟨t', ht', _, hload⟩ := hjoin w hw
    rw [hjoined, Option.some_inj] at ht'
    exact ⟨t, ht' ▸ hload, rfl⟩
  · rw [hentries, List.map_map]
    exact hdb.workerIds

theorem listTargetSets_serves (namespaceId : Uuid) (visibility : VisibilityScope)
    (now : Instant) :
    ∃ p, listTargetSets C namespaceId visibility limit after db = .ok p ∧
      Serves (fun e : Entry => C.weight e.cursor) limit
        (matching (.targetSets namespaceId) ⟨visibility, now, db⟩) (after.map C.weight)
        (p.items.map fun r => namedEntry r.targetSet.id r.targetSet.name)
        (p.nextCursor.map C.weight) := by
  have hpage := scoped_serves C (joinedTargetSet db) (fun r => namedEntry r.1.id r.1.name)
    (fun r => namedEntry r.targetSet.id r.targetSet.name) (loadTargetSetRecord db)
    (fun r => r.1.name) (fun r => r.targetSet.name) hdb.targetSets (fun _ => rfl) (fun _ => rfl) ?_
    namespaceId visibility hlimit after
  · have hsame (rows : List (TargetSetRow × String)) :
        (do
          let records ← ((named C (fun row => row.1.name) rows (limit + 1) after).take limit).mapM
            (loadTargetSetRecord db)
          return ⟨records,
            if limit < (named C (fun row => row.1.name) rows (limit + 1) after).length
            then records.getLast?.map fun r => r.targetSet.name else none⟩ : Except StoreError _) =
        page (named C (fun row => row.1.name) rows (limit + 1) after) limit (loadTargetSetRecord db)
          fun r => r.targetSet.name := by
      rw [take_named]
      rfl
    rw [← hsame] at hpage
    cases visibility with
    | none => exact ⟨emptyPage, rfl, serves_unseen fun _ => Bool.and_false _⟩
    | all => exact hpage
    | namespaces ids => exact hpage
  · intro ts hts
    obtain ⟨n, hn, hnamespace⟩ := placed_name hdb (hdb.targetSetColumns ts hts)
    obtain ⟨record, hrecord, hset⟩ := loadTargetSetRecord_ok hdb hts hnamespace
    refine ⟨(ts, n), ?_, rfl, record, hrecord, ?_⟩
    · rw [joinedTargetSet, hn]
      rfl
    · rw [hset]

theorem listWorkflows_serves (namespaceId : Uuid) (visibility : VisibilityScope)
    (now : Instant) :
    ∃ p, listWorkflows C namespaceId visibility limit after db = .ok p ∧
      Serves (fun e : Entry => C.weight e.cursor) limit
        (matching (.workflows namespaceId) ⟨visibility, now, db⟩) (after.map C.weight)
        (p.items.map fun r => namedEntry r.id r.definition.name) (p.nextCursor.map C.weight) := by
  rw [listWorkflows]
  split
  · rename_i hunseen
    refine ⟨emptyPage, rfl, serves_unseen fun w => ?_⟩
    simp only [hunseen, Bool.and_false]
  · rename_i hseen
    have hmatching : matching (.workflows namespaceId) ⟨visibility, now, db⟩ =
        (workflowRows namespaceId db).map fun r => namedEntry r.1 r.2 := by
      rw [Bool.not_eq_false] at hseen
      simp only [matching, workflowRows, List.map_map, hseen, Bool.and_true]
      rfl
    have hnames : ((matching (.workflows namespaceId) ⟨visibility, now, db⟩).map
        Entry.cursor).Nodup := by
      refine hdb.workflows.distinct List.filter_sublist (x := namespaceId) fun w hw => ?_
      simp only [List.mem_filter, Bool.and_eq_true, decide_eq_true_eq] at hw
      exact hw.2.1
    rw [hmatching] at hnames ⊢
    obtain ⟨items, hitems, hentries⟩ := mapM_loads fun r hr =>
      loadWorkflow_ok hdb (mem_named C (mem_cut hr))
    have hserves := serves_named C Prod.snd (fun _ => rfl) hnames hlimit after hentries
    rw [cursorOf, hentries, List.getLast?_map, Option.map_map] at hserves
    refine ⟨⟨items, if limit < (named C Prod.snd (workflowRows namespaceId db) (limit + 1)
      after).length then (cut limit (named C Prod.snd (workflowRows namespaceId db) (limit + 1)
        after)).getLast?.map Prod.snd else none⟩, ?_, ?_⟩
    · have hcut (rows : List (Uuid × String)) :
          (if limit < rows.length then rows.dropLast else rows) = cut limit rows := rfl
      simp only [hcut, hitems]
      rfl
    · rw [← hentries] at hserves
      exact hserves

end Operations

section History

open OrderDual

variable {ρ : Type} {id : ρ → Uuid} {rows : List ρ} {limit : ℕ}

theorem ordered_descending (before : Option Uuid) :
    ordered (fun r => toDual (id r)) (before.map toDual) rows =
      (rows.filter fun r => before.all fun x => id r < x).insertionSort fun a b => id b ≤ id a := by
  unfold ordered
  cases before with
  | none => rfl
  | some x => rfl

theorem page_eq (fetched : List ρ) : StoreReads.page fetched limit id =
    ⟨cut limit fetched, if limit < fetched.length then (cut limit fetched).getLast?.map id
      else none⟩ := by
  unfold StoreReads.page cut
  split <;> rfl

theorem serves_history (id : ρ → Uuid) (hids : (rows.map id).Nodup) (hlimit : 0 < limit)
    (before : Option Uuid)
    {p : StoreReads.Page ρ} (hp : p = StoreReads.page
      (((rows.filter fun r => before.all fun x => id r < x).insertionSort
        fun a b => id b ≤ id a).take (limit + 1)) limit id) :
    Serves (fun e : Entry => toDual (entryNumber e)) limit (rows.map fun r => idEntry (id r))
      (before.map toDual) (p.items.map fun r => idEntry (id r)) (p.nextCursor.map toDual) := by
  have hkeys : (rows.map fun r => toDual (id r)).Nodup := hids
  have hserves := (serves_cut (before.map toDual) hkeys hlimit).map
    (fun e : Entry => toDual (entryNumber e)) fun r => idEntry (id r)
  rw [ordered_descending] at hserves
  rw [hp, page_eq, apply_ite (Option.map toDual), Option.map_map]
  exact hserves

theorem runRecord_id {s : Store} {r : RunRow} {record : StoreReads.RunRecord}
    (h : StoreReads.runRecord s r = some record) : record.id = r.id := by
  obtain ⟨_, _, h⟩ := Option.bind_eq_some_iff.mp h
  obtain ⟨_, _, h⟩ := Option.bind_eq_some_iff.mp h
  obtain ⟨_, _, h⟩ := Option.bind_eq_some_iff.mp h
  rw [← Option.some_inj.mp h]

theorem listedRun_before (visibility : VisibilityScope) (filter : StoreReads.RunListFilter)
    (before : Option Uuid) (s : Store) : s.runs.filterMap
      (StoreReads.listedRun visibility filter before s) =
    (s.runs.filterMap (StoreReads.listedRun visibility filter none s)).filter
      fun record => before.all fun x => record.id < x := by
  rw [List.filter_filterMap]
  refine List.filterMap_congr fun r _ => ?_
  unfold StoreReads.listedRun
  cases hrecord : StoreReads.runRecord s r with
  | none => rfl
  | some record =>
    rw [Option.filter_filter, Option.filter_some, Option.filter_some, ← runRecord_id hrecord]
    simp only [Option.all_none, Bool.true_and, Bool.and_assoc]
    rw [Bool.and_comm, Bool.and_assoc]

theorem listedRun_ids {db : Database} (hdb : Valid db) (visibility : VisibilityScope)
    (filter : StoreReads.RunListFilter) : ((db.store.runs.filterMap
      (StoreReads.listedRun visibility filter none db.store)).map
        StoreReads.RunRecord.id).Nodup := by
  have hlisted {r : RunRow} {record : StoreReads.RunRecord}
      (h : StoreReads.listedRun visibility filter none db.store r = some record) :
      record.id = r.id := runRecord_id (Option.eq_some_of_filter_eq_some h)
  have hpairs := List.pairwise_map.mp hdb.runIds.1
  refine List.pairwise_map.mpr (List.pairwise_filterMap.mpr (hpairs.imp ?_))
  intro a b hne x hx y hy heq
  exact hne (by rw [← hlisted hx, ← hlisted hy, heq])

theorem listRuns_serves {db : Database} (hdb : Valid db) (hlimit : 0 < limit)
    (before : Option Uuid) (visibility : VisibilityScope) (filter : StoreReads.RunListFilter)
    (now : Instant) :
    ∃ p, StoreReads.listRuns visibility filter limit before db.store = .ok p ∧
      Serves (fun e : Entry => toDual (entryNumber e)) limit
        (matching (.runs filter) ⟨visibility, now, db⟩) (before.map toDual)
        (p.items.map fun r => idEntry r.id) (p.nextCursor.map toDual) := by
  have hserves := serves_history _ (listedRun_ids hdb visibility filter) hlimit before rfl
  rw [← listedRun_before] at hserves
  cases visibility with
  | none =>
    have hunseen : db.store.runs.filterMap
        (StoreReads.listedRun .none filter none db.store) = [] := by
      refine List.filterMap_eq_nil_iff.mpr fun r _ => ?_
      simp [StoreReads.listedRun, VisibilityScope.includes]
    refine ⟨⟨[], none⟩, rfl, ?_⟩
    rw [matching, hunseen]
    exact serves_nil
  | all => exact ⟨_, rfl, hserves⟩
  | namespaces ids => exact ⟨_, rfl, hserves⟩

theorem invocation_id {s : Store} {id : Uuid} {record : WorkflowRunRecord}
    (h : invocation s id = .ok record) : record.id = id := by
  unfold invocation at h
  split at h
  · cases h
  rename_i w hfound
  have hid : w.id = id := by simpa using List.find?_some hfound
  obtain ⟨_, _, h⟩ := ok_of_bind h
  obtain ⟨_, _, h⟩ := ok_of_bind h
  obtain ⟨_, _, h⟩ := ok_of_bind h
  rw [← Except.ok.inj h]
  exact hid

theorem getWorkflowRun_ok {db : Database} (hdb : Valid db) {w : WorkflowRunRow}
    (hw : w ∈ db.store.workflowRuns) {visibility : VisibilityScope}
    (hseen : visibility.includes w.namespaceId = true) :
    ∃ record, StoreReads.getWorkflowRun w.id visibility db.store = .ok record ∧
      record.id = w.id := by
  obtain ⟨hnamespace, record, hrecord⟩ := hdb.invocations w hw
  have hfound : db.store.workflowRuns.find? (fun x => x.id = w.id) = some w :=
    SqlTable.find?_key hdb.workflowRunIds.1 hw
  refine ⟨record, ?_, invocation_id hrecord⟩
  rw [StoreReads.getWorkflowRun, hfound]
  simp only [hnamespace, hseen, if_true]
  exact hrecord

theorem listWorkflowRuns_serves {db : Database} (hdb : Valid db) (hlimit : 0 < limit)
    (before : Option Uuid) (visibility : VisibilityScope) (workflowId : Uuid) (now : Instant) :
    ∃ p, StoreReads.listWorkflowRuns workflowId visibility limit before db.store = .ok p ∧
      Serves (fun e : Entry => toDual (entryNumber e)) limit
        (matching (.workflowRuns workflowId) ⟨visibility, now, db⟩) (before.map toDual)
        (p.items.map fun r => idEntry r.id) (p.nextCursor.map toDual) := by
  have hids : ((db.store.workflowRuns.filter fun w => w.workflowId = workflowId &&
      visibility.includes w.namespaceId).map WorkflowRunRow.id).Nodup :=
    hdb.workflowRunIds.1.sublist (List.filter_sublist.map _)
  have hrows : (((db.store.workflowRuns.filter fun w => w.workflowId = workflowId &&
      visibility.includes w.namespaceId).map WorkflowRunRow.id).filter
        fun y => before.all fun x => y < x) = (db.store.workflowRuns.filter fun w =>
          w.workflowId = workflowId && (before.all fun x => w.id < x) &&
            visibility.includes w.namespaceId).map WorkflowRunRow.id := by
    rw [List.filter_map, List.filter_filter]
    refine congrArg (List.map WorkflowRunRow.id) (List.filter_congr fun w _ => ?_)
    rw [Function.comp_apply, Bool.and_left_comm, Bool.and_assoc]
  have hserves := serves_history (fun x : Uuid => x) (by simpa using hids) hlimit before rfl
  rw [hrows] at hserves
  have hload : ∀ x ∈ (StoreReads.page (((db.store.workflowRuns.filter fun w =>
      w.workflowId = workflowId && (before.all fun x => w.id < x) &&
        visibility.includes w.namespaceId).map WorkflowRunRow.id).insertionSort
          (fun a b => b ≤ a) |>.take (limit + 1)) limit fun x => x).items,
      ∃ record, StoreReads.getWorkflowRun x visibility db.store = .ok record ∧
        idEntry record.id = idEntry x := by
    intro x hx
    rw [page_eq] at hx
    have hmem := List.mem_of_mem_take (mem_cut hx)
    rw [List.mem_insertionSort] at hmem
    obtain ⟨w, hw, rfl⟩ := List.mem_map.mp hmem
    simp only [List.mem_filter, Bool.and_eq_true] at hw
    obtain ⟨record, hrecord, hid⟩ := getWorkflowRun_ok hdb hw.1 hw.2.2
    exact ⟨record, hrecord, congrArg idEntry hid⟩
  obtain ⟨items, hitems, hentries⟩ := mapM_loads hload
  rw [← hentries, List.map_map] at hserves
  refine ⟨⟨items, _⟩, ?_, hserves⟩
  rw [StoreReads.listWorkflowRuns, hitems]
  rfl

end History

section Requests

variable {κ' : Type} [LinearOrder κ'] (key : Entry → κ') (position : String → κ')

/-- A request with an accepted cursor is answered with the page after it, and with a cursor that is
accepted. -/
structure Answered (op : ListOperation) (limit : ℕ) (cursor : Option String) (m : Moment)
    (p : Page Entry) : Prop where
  listed : op.list C limit cursor m = .ok p
  serves : Serves key limit (matching op m) (cursor.map position) p.items
    (p.nextCursor.map position)
  accepts : ∀ c ∈ p.nextCursor, Accepts op c

end Requests

theorem pageCursor_accepts {cursor : Option String}
    (h : ∀ c ∈ cursor, pageCursor (some c) = .ok (some c)) : pageCursor cursor = .ok cursor := by
  cases cursor with
  | none => rfl
  | some c => exact h c rfl

theorem byName_answered {op : ListOperation} {limit : ℕ} {cursor : Option String} {m : Moment}
    {α : Type} {entry : α → Entry} {list : Option String → Except StoreError (Page α)}
    (hop : op.list C limit cursor m = byName entry cursor list)
    (hcursor : ∀ c ∈ cursor, pageCursor (some c) = .ok (some c))
    (hlist : ∃ p, list cursor = .ok p ∧ Serves (fun e : Entry => C.weight e.cursor) limit
      (matching op m) (cursor.map C.weight) (p.items.map entry) (p.nextCursor.map C.weight))
    (hnames : ∀ e ∈ matching op m, validateResourceName e.cursor = true)
    (haccepts : Accepts op = fun c => pageCursor (some c) = .ok (some c)) :
    ∃ p, Answered C (fun e => C.weight e.cursor) C.weight op limit cursor m p := by
  obtain ⟨p, hp, hserves⟩ := hlist
  refine ⟨⟨p.items.map entry, p.nextCursor⟩, ?_, hserves, ?_⟩
  · rw [hop, byName, pageCursor_accepts hcursor]
    simp only [hp, answer]
  · intro c hc
    have hmap : C.weight c ∈ p.nextCursor.map C.weight := Option.mem_map_of_mem _ hc
    obtain ⟨e, he, hweight⟩ := hserves.cursor _ hmap
    have hname := hnames e (hserves.mem e (List.mem_of_getLast? he)).1
    rw [haccepts, ← C.injective hweight]
    exact if_pos hname

section ById

open OrderDual

def idPosition (cursor : String) : ℕᵒᵈ := toDual ((UuidText.parseStr cursor.toList).getD 0)

theorem parse_uuidText {id : Uuid} (h : id < 2 ^ 128) :
    UuidText.parseStr (uuidText id).toList = some id := by
  rw [uuidText, String.toList_ofList]
  exact UuidText.parseStr_hyphenated h

theorem parseBefore_accepts {cursor : Option String}
    (h : ∀ c ∈ cursor, ∃ id, parseBefore (some c) = .ok (some id)) :
    ∃ before, parseBefore cursor = .ok before ∧ before.map toDual = cursor.map idPosition := by
  cases cursor with
  | none => exact ⟨none, rfl, rfl⟩
  | some c =>
    obtain ⟨id, hid⟩ := h c rfl
    refine ⟨some id, hid, ?_⟩
    unfold parseBefore at hid
    simp only at hid
    split at hid
    · rename_i x hparse
      rw [Option.map_some, Option.map_some, idPosition, hparse, ← Option.some_inj.mp
        (Except.ok.inj hid)]
      rfl
    · cases hid

/-- An operation that lists by id. -/
theorem byId_answered {op : ListOperation} {limit : ℕ} {cursor : Option String} {m : Moment}
    {α : Type} {id : α → Uuid} {list : Option Uuid → Except StoreError (StoreReads.Page α)}
    (hop : op.list C limit cursor m = byId id cursor list)
    (hcursor : ∀ c ∈ cursor, ∃ id, parseBefore (some c) = .ok (some id))
    (hlist : ∀ before, ∃ p, list before = .ok p ∧
      Serves (fun e : Entry => toDual (entryNumber e)) limit (matching op m) (before.map toDual)
        (p.items.map fun a => idEntry (id a)) (p.nextCursor.map toDual))
    (hids : ∀ e ∈ matching op m, entryNumber e < 2 ^ 128)
    (haccepts : Accepts op = fun c => ∃ id, parseBefore (some c) = .ok (some id)) :
    ∃ p, Answered C (fun e => toDual (entryNumber e)) idPosition op limit cursor m p := by
  obtain ⟨before, hbefore, hposition⟩ := parseBefore_accepts hcursor
  obtain ⟨p, hp, hserves⟩ := hlist before
  have hnext : ∀ x ∈ p.nextCursor, UuidText.parseStr (uuidText x).toList = some x := by
    intro x hx
    have hmap : toDual x ∈ p.nextCursor.map toDual := Option.mem_map_of_mem _ hx
    obtain ⟨e, he, hnumber⟩ := hserves.cursor _ hmap
    have hbound := hids e (hserves.mem e (List.mem_of_getLast? he)).1
    rw [toDual.injective hnumber] at hbound
    exact parse_uuidText hbound
  have hpositions : (p.nextCursor.map uuidText).map idPosition = p.nextCursor.map toDual := by
    cases hcursor : p.nextCursor with
    | none => rfl
    | some x => rw [Option.map_some, Option.map_some, idPosition, hnext x hcursor]; rfl
  refine ⟨⟨p.items.map fun a => idEntry (id a), p.nextCursor.map uuidText⟩, ?_, ?_, ?_⟩
  · rw [hop, byId, hbefore]
    simp only [hp, answer, Except.map]
  · rw [hpositions, ← hposition]
    exact hserves
  · intro c hc
    obtain ⟨x, hx, rfl⟩ := Option.mem_map.mp hc
    rw [haccepts]
    refine ⟨x, ?_⟩
    rw [parseBefore]
    simp only [hnext x hx]

end ById

def Completed (visits : List (Moment × Page Entry)) : Prop :=
  ∃ v, visits.getLast? = some v ∧ v.2.nextCursor = none

/-- Between two pages, nothing that did not match before appears beyond the first of them. -/
def NothingAhead (precedes : Entry → Entry → Prop) (op : ListOperation)
    (visits : List (Moment × Page Entry)) : Prop :=
  visits.IsChain fun v w => ∀ e ∈ matching op w.1, (∀ x ∈ v.2.items, precedes x e) →
    e ∈ matching op v.1

/-- What the pages of a traversal are. -/
structure Paginated (precedes : Entry → Entry → Prop) (op : ListOperation) (limit : ℕ)
    (moments : List Moment) (visits : List (Moment × Page Entry)) : Prop where
  matched : ∀ v ∈ visits, ∀ e ∈ v.2.items, e ∈ matching op v.1
  ordered : (visits.flatMap fun v => v.2.items).Pairwise precedes
  once : ((visits.flatMap fun v => v.2.items).map Entry.id).Nodup
  /-- What matched at every request was on one of the pages. -/
  complete : Completed visits → ∀ id, (∀ v ∈ visits, ∃ e ∈ matching op v.1, e.id = id) →
    ∃ v ∈ visits, ∃ e ∈ v.2.items, e.id = id
  nonempty : ∀ v ∈ visits, v.2.nextCursor ≠ none → v.2.items ≠ []
  accepted : ∀ v ∈ visits, ∀ c ∈ v.2.nextCursor, Accepts op c
  /-- Requests enough for what matched at the first one reach the last page. -/
  terminates : ∀ m rest, moments = m :: rest → (matching op m).length < rest.length * limit →
    NothingAhead precedes op visits → Completed visits

section Walk

variable {C} {κ' : Type} [LinearOrder κ'] {key : Entry → κ'} {position : String → κ'}
  {op : ListOperation} {limit : Option ℕ} {n : ℕ}

def visitOf (op : ListOperation) (v : Moment × Page Entry) : Visit Entry :=
  ⟨matching op v.1, v.2.items⟩

theorem walk_cons (hlimit : pageLimit limit = .ok n) {cursor : Option String} {m : Moment}
    {p : Page Entry} (hp : Answered C key position op n cursor m p) (rest : List Moment) :
    op.walk C limit cursor (m :: rest) =
      (m, p) :: p.nextCursor.elim [] fun next => op.walk C limit (some next) rest := by
  rw [ListOperation.walk, ListOperation.request, hlimit]
  simp only [hp.listed]

theorem walk_items (visits : List (Moment × Page Entry)) :
    visits.flatMap (fun v => v.2.items) = (visits.map (visitOf op)).flatMap Visit.items := by
  rw [List.flatMap_map]
  rfl

theorem entry_same {m m' : Moment}
    (hstable : ∀ e ∈ matching op m, ∀ e' ∈ matching op m', e.id = e'.id → e.cursor = e'.cursor)
    {a b : Entry} (ha : a ∈ matching op m) (hb : b ∈ matching op m') (hid : a.id = b.id) :
    a = b := by
  have hcursor := hstable a ha b hb hid
  cases a
  cases b
  simp_all

theorem ids_nodup {entries : List Entry} (h : entries.Pairwise fun a b => key a < key b)
    (hsame : ∀ a ∈ entries, ∀ b ∈ entries, a.id = b.id → a = b) :
    (entries.map Entry.id).Nodup := by
  refine List.pairwise_map.mpr (h.imp_of_mem ?_)
  intro a b ha hb hlt hid
  rw [hsame a ha b hb hid] at hlt
  exact lt_irrefl _ hlt

/-- A finished traversal showed what matched at every request. -/
theorem traversal_complete {visits : List (Moment × Page Entry)}
    (h : Traverses key n none (visits.map (visitOf op)) none)
    (hsame : ∀ v ∈ visits, ∀ w ∈ visits, ∀ a ∈ matching op v.1, ∀ b ∈ matching op w.1,
      a.id = b.id → a = b) {id : ItemId}
    (hall : ∀ v ∈ visits, ∃ e ∈ matching op v.1, e.id = id) {first : Moment × Page Entry}
    (hfirst : first ∈ visits) : ∃ v ∈ visits, ∃ e ∈ v.2.items, e.id = id := by
  obtain ⟨e, he, hid⟩ := hall first hfirst
  have hrows : ∀ v ∈ visits.map (visitOf op), ∃ i ∈ v.rows, key i = key e ∧ i.id = id := by
    intro v hv
    obtain ⟨w, hw, rfl⟩ := List.mem_map.mp hv
    obtain ⟨i, hi, hidi⟩ := hall w hw
    rw [hsame w hw first hfirst i hi e he (hidi.trans hid.symm)] at hi
    exact ⟨e, hi, rfl, hid⟩
  obtain ⟨v, hv, i, hi, _, hidi⟩ := h.complete nofun hrows
  obtain ⟨w, hw, rfl⟩ := List.mem_map.mp hv
  exact ⟨w, hw, i, hi, hidi⟩

/-- When nothing appears ahead, each page but the last holds as much as is asked for. -/
theorem traversal_length {m : Moment} {p : Page Entry} {visits : List (Moment × Page Entry)}
    {next : Option κ'}
    (h : Traverses key n none (((m, p) :: visits).map (visitOf op)) next)
    (hkeys : ∀ v ∈ visits, ((matching op v.1).map key).Nodup)
    (hchain : NothingAhead (fun a b => key a < key b) op ((m, p) :: visits)) :
    visits.length * n ≤ (matching op m).length := by
  have hunextended : Unextended key (visitOf op (m, p) :: visits.map (visitOf op)) := by
    rw [← List.map_cons]
    refine List.isChain_map_of_isChain (visitOf op) ?_ hchain
    exact fun v w hvw e he hlater => List.mem_map_of_mem (hvw e he hlater)
  have hrows : ∀ w ∈ visits.map (visitOf op), (w.rows.map key).Nodup := by
    intro w hw
    obtain ⟨v, hv, rfl⟩ := List.mem_map.mp hw
    exact hkeys v hv
  rw [List.map_cons] at h
  have hbound := (h.length_le hrows hunextended).trans ordered_length_le
  rw [List.length_map] at hbound
  exact hbound

variable (hlimit : pageLimit limit = .ok n)
  (hanswers : ∀ cursor m, Valid m.database → (∀ c ∈ cursor, Accepts op c) →
    ∃ p, Answered C key position op n cursor m p)

include hlimit hanswers

theorem walk_answered {moments : List Moment} (hvalid : ∀ m ∈ moments, Valid m.database)
    (cursor : Option String) (hcursor : ∀ c ∈ cursor, Accepts op c) :
    ∀ v ∈ op.walk C limit cursor moments, v.1 ∈ moments ∧
      ∃ cursor, Answered C key position op n cursor v.1 v.2 := by
  induction moments generalizing cursor with
  | nil => nofun
  | cons m rest ih =>
    obtain ⟨p, hp⟩ := hanswers cursor m (hvalid m List.mem_cons_self) hcursor
    intro v hv
    rw [walk_cons hlimit hp] at hv
    rcases List.mem_cons.mp hv with rfl | hv
    · exact ⟨List.mem_cons_self, cursor, hp⟩
    · cases hnext : p.nextCursor with
      | none =>
        rw [hnext] at hv
        cases hv
      | some c =>
        rw [hnext] at hv
        have haccepts : ∀ d ∈ some c, Accepts op d := fun d hd => hp.accepts d (hnext ▸ hd)
        obtain ⟨hmem, hanswered⟩ :=
          ih (fun m' hm' => hvalid m' (List.mem_cons_of_mem m hm')) (some c) haccepts v hv
        exact ⟨List.mem_cons_of_mem m hmem, hanswered⟩

/-- The walk is a traversal, which ends with the last page or with the moments. -/
theorem walk_traverses {m : Moment} {rest : List Moment}
    (hvalid : ∀ m' ∈ m :: rest, Valid m'.database) (cursor : Option String)
    (hcursor : ∀ c ∈ cursor, Accepts op c) :
    ∃ next, Traverses key n (cursor.map position)
        ((op.walk C limit cursor (m :: rest)).map (visitOf op)) next ∧
      (Completed (op.walk C limit cursor (m :: rest)) → next = none) ∧
      (Completed (op.walk C limit cursor (m :: rest)) ∨
        (op.walk C limit cursor (m :: rest)).length = rest.length + 1) := by
  induction rest generalizing m cursor with
  | nil =>
    obtain ⟨p, hp⟩ := hanswers cursor m (hvalid m List.mem_cons_self) hcursor
    have hwalk : op.walk C limit cursor [m] = [(m, p)] := by
      rw [walk_cons hlimit hp]
      cases p.nextCursor <;> rfl
    rw [hwalk]
    refine ⟨p.nextCursor.map position, .last hp.serves, ?_, .inr rfl⟩
    rintro ⟨v, hv, hnone⟩
    rw [List.getLast?_singleton, Option.some_inj] at hv
    rw [← hv] at hnone
    rw [hnone]
    rfl
  | cons m' rest ih =>
    obtain ⟨p, hp⟩ := hanswers cursor m (hvalid m List.mem_cons_self) hcursor
    cases hnext : p.nextCursor with
    | none =>
      have hwalk : op.walk C limit cursor (m :: m' :: rest) = [(m, p)] := by
        rw [walk_cons hlimit hp, hnext, Option.elim_none]
      have hlast := hp.serves
      rw [hnext] at hlast
      rw [hwalk]
      exact ⟨none, .last hlast, fun _ => rfl, .inl ⟨(m, p), rfl, hnext⟩⟩
    | some c =>
      have hwalk : op.walk C limit cursor (m :: m' :: rest) =
          (m, p) :: op.walk C limit (some c) (m' :: rest) := by
        rw [walk_cons hlimit hp, hnext, Option.elim_some]
      have hserves := hp.serves
      rw [hnext] at hserves
      have haccepts : ∀ d ∈ some c, Accepts op d := fun d hd => hp.accepts d (hnext ▸ hd)
      obtain ⟨next, htraverses, hend, hlength⟩ :=
        ih (fun x hx => hvalid x (List.mem_cons_of_mem m hx)) (some c) haccepts
      have hcompleted : Completed (op.walk C limit cursor (m :: m' :: rest)) ↔
          Completed (op.walk C limit (some c) (m' :: rest)) := by
        rw [hwalk, Completed, Completed]
        cases hrest : op.walk C limit (some c) (m' :: rest) with
        | nil =>
          rw [hrest] at htraverses
          cases htraverses
        | cons v visits => rw [List.getLast?_cons_cons]
      refine ⟨next, ?_, fun h => hend (hcompleted.mp h), ?_⟩
      · rw [hwalk]
        exact .more hserves htraverses
      · rcases hlength with hdone | hlength
        · exact .inl (hcompleted.mpr hdone)
        · right
          rw [hwalk, List.length_cons, hlength, List.length_cons]

variable (key position) in
theorem walk_paginated {moments : List Moment} (hvalid : ∀ m ∈ moments, Valid m.database)
    (hstable : ∀ m ∈ moments, ∀ m' ∈ moments, ∀ e ∈ matching op m, ∀ e' ∈ matching op m',
      e.id = e'.id → e.cursor = e'.cursor)
    (hkeys : ∀ m ∈ moments, ((matching op m).map key).Nodup) :
    Paginated (fun a b => key a < key b) op n moments (op.walk C limit none moments) := by
  cases moments with
  | nil => exact ⟨nofun, .nil, .nil, nofun, nofun, nofun, nofun⟩
  | cons m rest =>
    obtain ⟨next, htraverses, hend, hlength⟩ :=
      walk_traverses hlimit hanswers hvalid none nofun
    have hpages := walk_answered hlimit hanswers hvalid none nofun
    obtain ⟨p, hp⟩ := hanswers none m (hvalid m List.mem_cons_self) nofun
    obtain ⟨visits, hwalk⟩ : ∃ visits, op.walk C limit none (m :: rest) = (m, p) :: visits :=
      ⟨_, walk_cons hlimit hp rest⟩
    have hsame : ∀ v ∈ op.walk C limit none (m :: rest), ∀ w ∈ op.walk C limit none (m :: rest),
        ∀ a ∈ matching op v.1, ∀ b ∈ matching op w.1, a.id = b.id → a = b :=
      fun v hv w hw _ ha _ hb => entry_same (hstable v.1 (hpages v hv).1 w.1 (hpages w hw).1) ha hb
    have hmatched : ∀ v ∈ op.walk C limit none (m :: rest), ∀ e ∈ v.2.items,
        e ∈ matching op v.1 :=
      fun v hv => htraverses.mem (visitOf op v) (List.mem_map_of_mem hv)
    have horder := htraverses.increasing
    rw [← walk_items] at horder
    refine ⟨hmatched, horder, ids_nodup horder ?_, ?_, ?_, ?_, ?_⟩
    · intro a ha b hb hid
      obtain ⟨v, hv, ha⟩ := List.mem_flatMap.mp ha
      obtain ⟨w, hw, hb⟩ := List.mem_flatMap.mp hb
      exact hsame v hv w hw a (hmatched v hv a ha) b (hmatched w hw b hb) hid
    · intro hcompleted id hall
      rw [hend hcompleted] at htraverses
      have hfirst : (m, p) ∈ op.walk C limit none (m :: rest) := hwalk ▸ List.mem_cons_self
      exact traversal_complete htraverses hsame hall hfirst
    · intro v hv hnext
      obtain ⟨_, cursor, hanswered⟩ := hpages v hv
      obtain ⟨c, hc⟩ := Option.ne_none_iff_exists'.mp hnext
      obtain ⟨i, hi, _⟩ := hanswered.serves.cursor (position c) (by rw [hc]; rfl)
      exact List.ne_nil_of_mem (List.mem_of_getLast? hi)
    · intro v hv c hc
      obtain ⟨_, cursor, hanswered⟩ := hpages v hv
      exact hanswered.accepts c hc
    · intro m₀ rest₀ hmoments hfew hchain
      obtain ⟨rfl, rfl⟩ := List.cons.inj hmoments
      rcases hlength with hdone | hlength
      · exact hdone
      rw [hwalk] at htraverses hchain
      rw [hwalk, List.length_cons, Nat.add_right_cancel_iff] at hlength
      have hbound := traversal_length htraverses (fun v hv =>
        hkeys v.1 (hpages v (hwalk ▸ List.mem_cons_of_mem _ hv)).1) hchain
      rw [hlength] at hbound
      exact absurd hbound (not_le.mpr hfew)

end Walk

/-- The entries of an operation have different cursors, all of them resource names. -/
structure Canonical (entries : List Entry) : Prop where
  distinct : (entries.map Entry.cursor).Nodup
  names : ∀ e ∈ entries, validateResourceName e.cursor = true

theorem NamedTable.canonicalEntries {ρ : Type} {rows rows' : List ρ} {id scope : ρ → Uuid}
    {name : ρ → String} (h : NamedTable rows id scope name) (hrows : rows'.Sublist rows) {x : Uuid}
    (hscope : ∀ r ∈ rows', scope r = x) :
    Canonical (rows'.map fun r => namedEntry (id r) (name r)) := by
  refine ⟨h.distinct hrows hscope, ?_⟩
  intro e he
  obtain ⟨r, hr, rfl⟩ := List.mem_map.mp he
  exact h.canonical r (hrows.subset hr)

theorem NamedTable.scopedEntries {ρ : Type} {rows : List ρ} {id scope : ρ → Uuid}
    {name : ρ → String} (h : NamedTable rows id scope name) (x : Uuid) (seen : Bool) :
    Canonical ((rows.filter fun r => scope r = x && seen).map
      fun r => namedEntry (id r) (name r)) := by
  refine h.canonicalEntries List.filter_sublist (x := x) fun r hr => ?_
  simp only [List.mem_filter, Bool.and_eq_true, decide_eq_true_eq] at hr
  exact hr.2.1

omit [LinearOrder κ] in
theorem canonical_weights {entries : List Entry} (h : Canonical entries) :
    (entries.map fun e => C.weight e.cursor).Nodup := by
  have hweights := h.distinct.map C.injective
  rw [List.map_map] at hweights
  exact hweights

theorem byName_paginated {op : ListOperation} {limit : Option ℕ} {n : ℕ}
    (hlimit : pageLimit limit = .ok n) {moments : List Moment}
    (hvalid : ∀ m ∈ moments, Valid m.database)
    (hstable : ∀ m ∈ moments, ∀ m' ∈ moments, ∀ e ∈ matching op m, ∀ e' ∈ matching op m',
      e.id = e'.id → e.cursor = e'.cursor)
    (hcanonical : ∀ m, Valid m.database → Canonical (matching op m))
    {α : Type} {entry : α → Entry} {list : Moment → Option String → Except StoreError (Page α)}
    (hop : ∀ cursor m, op.list C n cursor m = byName entry cursor (list m))
    (hlist : ∀ cursor m, Valid m.database → ∃ p, list m cursor = .ok p ∧
      Serves (fun e : Entry => C.weight e.cursor) n (matching op m) (cursor.map C.weight)
        (p.items.map entry) (p.nextCursor.map C.weight))
    (haccepts : Accepts op = fun c => pageCursor (some c) = .ok (some c)) :
    Paginated (fun a b => C.weight a.cursor < C.weight b.cursor) op n moments
      (op.walk C limit none moments) := by
  refine walk_paginated (fun e => C.weight e.cursor) C.weight hlimit ?_ hvalid
    hstable fun m hm => canonical_weights C (hcanonical m (hvalid m hm))
  intro cursor m hm hcursor
  rw [haccepts] at hcursor
  exact byName_answered C (hop cursor m) hcursor (hlist cursor m hm) (hcanonical m hm).names
    haccepts

open OrderDual in
/-- What an operation by id gives a traversal. -/
theorem byId_paginated {op : ListOperation} {limit : Option ℕ} {n : ℕ}
    (hlimit : pageLimit limit = .ok n) {moments : List Moment}
    (hvalid : ∀ m ∈ moments, Valid m.database)
    (hentries : ∀ m, Valid m.database → ∃ ids : List Uuid, matching op m = ids.map idEntry ∧
      ids.Nodup ∧ ∀ id ∈ ids, id < 2 ^ 128)
    {α : Type} {id : α → Uuid}
    {list : Moment → Option Uuid → Except StoreError (StoreReads.Page α)}
    (hop : ∀ cursor m, op.list C n cursor m = byId id cursor (list m))
    (hlist : ∀ before m, Valid m.database → ∃ p, list m before = .ok p ∧
      Serves (fun e : Entry => toDual (entryNumber e)) n (matching op m) (before.map toDual)
        (p.items.map fun a => idEntry (id a)) (p.nextCursor.map toDual))
    (haccepts : Accepts op = fun c => ∃ id, parseBefore (some c) = .ok (some id)) :
    Paginated (fun a b => entryNumber b < entryNumber a) op n moments
      (op.walk C limit none moments) := by
  refine walk_paginated (fun e => toDual (entryNumber e)) idPosition hlimit
    ?_ hvalid ?_ ?_
  · intro cursor m hm hcursor
    rw [haccepts] at hcursor
    refine byId_answered C (hop cursor m) hcursor (fun before => hlist before m hm) ?_ haccepts
    obtain ⟨ids, hids, _, hbound⟩ := hentries m hm
    intro e he
    rw [hids] at he
    obtain ⟨x, hx, rfl⟩ := List.mem_map.mp he
    exact hbound x hx
  · intro m hm m' hm' e he e' he' hid
    obtain ⟨ids, hids, _⟩ := hentries m (hvalid m hm)
    obtain ⟨ids', hids', _⟩ := hentries m' (hvalid m' hm')
    rw [hids] at he
    rw [hids'] at he'
    obtain ⟨x, _, rfl⟩ := List.mem_map.mp he
    obtain ⟨y, _, rfl⟩ := List.mem_map.mp he'
    rw [ItemId.uuid.inj hid]
  · intro m hm
    obtain ⟨ids, hids, hnodup, _⟩ := hentries m (hvalid m hm)
    rw [hids, List.map_map]
    exact hnodup.map toDual.injective

theorem workers_canonical {m : Moment} (hm : Valid m.database) :
    Canonical (matching .workers m) := by
  constructor
  · have hids : (matching .workers m).map Entry.cursor =
        m.database.workers.map WorkerPresenceRow.workerId := by
      rw [matching, List.map_map]
      rfl
    rw [hids]
    exact hm.workerIds
  · intro e he
    obtain ⟨w, hw, rfl⟩ := List.mem_map.mp he
    exact (hm.workerColumns w hw).1

theorem runs_ids {m : Moment} (hm : Valid m.database) (filter : StoreReads.RunListFilter) :
    ∃ ids : List Uuid, matching (.runs filter) m = ids.map idEntry ∧ ids.Nodup ∧
      ∀ id ∈ ids, id < 2 ^ 128 := by
  refine ⟨(m.database.store.runs.filterMap (StoreReads.listedRun m.visibility filter none
    m.database.store)).map StoreReads.RunRecord.id, ?_, listedRun_ids hm m.visibility filter, ?_⟩
  · rw [List.map_map]
    rfl
  intro id hid
  obtain ⟨record, hrecord, rfl⟩ := List.mem_map.mp hid
  obtain ⟨r, hr, hlisted⟩ := List.mem_filterMap.mp hrecord
  rw [runRecord_id (Option.eq_some_of_filter_eq_some hlisted)]
  exact hm.runIds.2 r hr

theorem workflowRuns_ids {m : Moment} (hm : Valid m.database) (workflowId : Uuid) :
    ∃ ids : List Uuid, matching (.workflowRuns workflowId) m = ids.map idEntry ∧ ids.Nodup ∧
      ∀ id ∈ ids, id < 2 ^ 128 := by
  refine ⟨(m.database.store.workflowRuns.filter fun w => w.workflowId = workflowId &&
    m.visibility.includes w.namespaceId).map WorkflowRunRow.id, ?_,
    hm.workflowRunIds.1.sublist (List.filter_sublist.map _), ?_⟩
  · rw [List.map_map]
    rfl
  intro id hid
  obtain ⟨w, hw, rfl⟩ := List.mem_map.mp hid
  exact hm.workflowRunIds.2 w (List.mem_of_mem_filter hw)

theorem pageLimit_ok {limit : Option ℕ} (hpos : 1 ≤ limit.getD defaultLimit)
    (hmax : limit.getD defaultLimit ≤ maxLimit) :
    pageLimit limit = .ok (limit.getD defaultLimit) := by
  rw [pageLimit]
  exact if_neg (by simp; omega)

/-- Following the cursors of any list operation, from any limit it accepts and while the database
changes without renaming what is listed, gives pages in order, without repetition and complete. -/
theorem list_pages_complete_and_once (op : ListOperation) (limit : Option ℕ)
    (hpos : 1 ≤ limit.getD defaultLimit) (hmax : limit.getD defaultLimit ≤ maxLimit)
    (moments : List Moment) (hvalid : ∀ m ∈ moments, Valid m.database)
    (hstable : ∀ m ∈ moments, ∀ m' ∈ moments, ∀ e ∈ matching op m, ∀ e' ∈ matching op m',
      e.id = e'.id → e.cursor = e'.cursor) :
    Paginated (Precedes C op) op (limit.getD defaultLimit) moments
      (op.walk C limit none moments) := by
  have hlimit := pageLimit_ok hpos hmax
  have hn : 0 < limit.getD defaultLimit := hpos
  cases op with
  | namespaces =>
    exact byName_paginated C hlimit hvalid hstable
      (fun m hm => hm.namespaces.canonicalEntries List.filter_sublist (x := 0) fun _ _ => rfl)
      (fun _ _ => rfl)
      (fun cursor m hm => listNamespaces_serves C hm hn cursor m.visibility m.now) rfl
  | queues =>
    exact byName_paginated C hlimit hvalid hstable
      (fun m hm => hm.queues.canonicalEntries (List.Sublist.refl _) (x := 0) fun _ _ => rfl)
      (fun _ _ => rfl) (fun cursor m hm => listQueues_serves C hm hn cursor m.visibility m.now) rfl
  | jobs namespaceId =>
    exact byName_paginated C hlimit hvalid hstable
      (fun m hm => hm.jobs.scopedEntries namespaceId _) (fun _ _ => rfl)
      (fun cursor m hm => listJobs_serves C hm hn cursor namespaceId m.visibility m.now) rfl
  | targets namespaceId =>
    exact byName_paginated C hlimit hvalid hstable
      (fun m hm => hm.targets.scopedEntries namespaceId _) (fun _ _ => rfl)
      (fun cursor m hm => listTargets_serves C hm hn cursor namespaceId m.visibility m.now) rfl
  | targetSets namespaceId =>
    exact byName_paginated C hlimit hvalid hstable
      (fun m hm => hm.targetSets.scopedEntries namespaceId _) (fun _ _ => rfl)
      (fun cursor m hm => listTargetSets_serves C hm hn cursor namespaceId m.visibility m.now) rfl
  | schedules namespaceId =>
    exact byName_paginated C hlimit hvalid hstable
      (fun m hm => hm.schedules.scopedEntries namespaceId _) (fun _ _ => rfl)
      (fun cursor m hm => listSchedules_serves C hm hn cursor namespaceId m.visibility m.now) rfl
  | workers =>
    exact byName_paginated C hlimit hvalid hstable (fun m hm => workers_canonical hm)
      (fun _ _ => rfl) (fun cursor m hm => listWorkers_serves C hm hn cursor m.visibility m.now) rfl
  | workflows namespaceId =>
    exact byName_paginated C hlimit hvalid hstable
      (fun m hm => hm.workflows.scopedEntries namespaceId _) (fun _ _ => rfl)
      (fun cursor m hm => listWorkflows_serves C hm hn cursor namespaceId m.visibility m.now) rfl
  | runs filter =>
    exact byId_paginated C hlimit hvalid (fun m hm => runs_ids hm filter) (fun _ _ => rfl)
      (fun before m hm => listRuns_serves hm hn before m.visibility filter m.now) rfl
  | workflowRuns workflowId =>
    exact byId_paginated C hlimit hvalid (fun m hm => workflowRuns_ids hm workflowId)
      (fun _ _ => rfl)
      (fun before m hm => listWorkflowRuns_serves hm hn before m.visibility workflowId m.now) rfl

def codePoints : Collation String := ⟨fun text => text, fun _ _ h => h⟩

def demoQueues (queues : List QueueRow) : Database where
  store := emptyStore ⟨queues, [], [], [], [], []⟩ []
  namespaces := []
  schedules := []
  workers := []

theorem NamedTable.empty {ρ : Type} {id scope : ρ → Uuid} {name : ρ → String} :
    NamedTable [] id scope name := ⟨.nil, .nil, nofun⟩

theorem demoQueues_valid {queues : List QueueRow}
    (h : NamedTable queues QueueRow.id (fun _ => 0) QueueRow.name) : Valid (demoQueues queues) where
  namespaces := .empty
  queues := h
  jobs := .empty
  jobColumns := fun _ hj => absurd hj List.not_mem_nil
  targets := .empty
  targetColumns := fun _ ht => absurd ht List.not_mem_nil
  targetSets := .empty
  targetSetColumns := fun _ hts => absurd hts List.not_mem_nil
  members := fun _ hts => absurd hts List.not_mem_nil
  schedules := .empty
  scheduleRows := rfl
  scheduleColumns := fun _ hs => absurd hs List.not_mem_nil
  workerIds := .nil
  workerColumns := fun _ hw => absurd hw List.not_mem_nil
  workflows := .empty
  definitions := fun _ hw => absurd hw List.not_mem_nil
  runIds := ⟨.nil, fun _ hr => absurd hr List.not_mem_nil⟩
  workflowRunIds := ⟨.nil, fun _ hw => absurd hw List.not_mem_nil⟩
  invocations := fun _ hw => absurd hw List.not_mem_nil

/-- One Queue is created behind the cursor and one ahead of it, and one is deleted. -/
def demoMoments : List Moment :=
  [⟨.all, 0, demoQueues [⟨1, "default", true⟩, ⟨2, "gpu", true⟩, ⟨3, "slow", true⟩]⟩,
    ⟨.all, 1, demoQueues [⟨1, "default", true⟩, ⟨2, "gpu", true⟩, ⟨4, "batch", true⟩,
      ⟨5, "large", true⟩]⟩,
    ⟨.all, 2, demoQueues [⟨2, "gpu", false⟩, ⟨4, "batch", true⟩, ⟨5, "large", true⟩]⟩]

theorem demo_pages_once :
    (ListOperation.queues.walk codePoints (some 1) none demoMoments).map
      (fun v => (v.2.items.map Entry.cursor, v.2.nextCursor)) =
        [(["default"], some "default"), (["gpu"], some "gpu"), (["large"], none)] ∧
    Paginated (Precedes codePoints .queues) .queues 1 demoMoments
      (ListOperation.queues.walk codePoints (some 1) none demoMoments) := by
  refine ⟨by decide +kernel, ?_⟩
  refine list_pages_complete_and_once codePoints .queues (some 1) (by decide) (by decide)
    demoMoments ?_ ?_
  · intro m hm
    simp only [demoMoments, List.mem_cons, List.not_mem_nil, or_false] at hm
    rcases hm with rfl | rfl | rfl
    all_goals exact demoQueues_valid ⟨by decide, by decide, by decide⟩
  · decide +kernel

end ListTraversals
