import Crono.WorkflowCatalog
import Crono.WorkflowGraph

/-! What `WorkflowDefinition::validate` accepts, exactly: bounds, names, endpoints and the absence
of a directed cycle. The database's recursive query gives the same verdict on cycles. -/
namespace WorkflowValidation

open RunDomain WorkflowDomain WorkflowGraph RankedGraph ControlPlaneSchema
open FallibleLists
open WorkflowCatalog (endpoints)

/-- The conditions on a definition other than its cycles. -/
structure WellFormed (d : WorkflowDefinition) : Prop where
  nodes : 1 ≤ d.nodes.length ∧ d.nodes.length ≤ 64
  edges : d.edges.length ≤ 256
  description : ∀ text, d.description = some text → '\x00' ∉ text.toList ∧ text.length ≤ 500
  names : (d.nodes.map WorkflowNode.name).Nodup
  endpoints : ∀ e ∈ d.edges, e.source ≠ e.target ∧ (∃ node ∈ d.nodes, node.name = e.source) ∧
    ∃ node ∈ d.nodes, node.name = e.target
  pairs : (d.edges.map fun e => (e.source, e.target)).Nodup

/-- No path of edges leads back to where it began. -/
def Acyclic (edges : List WorkflowEdge) : Prop :=
  ∀ a, ¬ Relation.TransGen (Precedes edges) a a

theorem insertNodes_ok_iff {m : Incoming} {nodes : List WorkflowNode} :
    (∃ m', insertNodes m nodes = .ok m') ↔ (nodes.map WorkflowNode.name).Nodup ∧
      ∀ node ∈ nodes, node.name ∉ Incoming.names m := by
  induction nodes generalizing m with
  | nil => simp [insertNodes]
  | cons node rest ih =>
    have hnames : Incoming.names (m ++ [(node.name, 0)]) = Incoming.names m ++ [node.name] := by
      simp [Incoming.names]
    unfold insertNodes
    cases hget : m.get node.name with
    | some count =>
      simp only [Option.isSome_some, if_true, reduceCtorEq, exists_false, false_iff]
      exact fun h => h.2 node List.mem_cons_self (mem_names hget)
    | none =>
      simp only [Option.isSome_none, Bool.false_eq_true, if_false]
      rw [ih, hnames, List.map_cons, List.nodup_cons]
      constructor
      · rintro ⟨hnodup, hfresh⟩
        refine ⟨⟨?_, hnodup⟩, ?_⟩
        · intro hmem
          obtain ⟨other, hother, hname⟩ := List.mem_map.mp hmem
          exact hfresh other hother
            (List.mem_append_right _ (List.mem_singleton.mpr hname))
        · intro other hother hmem
          rcases List.mem_cons.mp hother with rfl | hother
          · exact get_eq_none.mp hget hmem
          · exact hfresh other hother (List.mem_append_left _ hmem)
      · rintro ⟨⟨hfirst, hnodup⟩, hfresh⟩
        refine ⟨hnodup, ?_⟩
        intro other hother hmem
        rcases List.mem_append.mp hmem with hmem | hmem
        · exact hfresh other (List.mem_cons_of_mem node hother) hmem
        · exact hfirst (List.mem_map.mpr ⟨other, hother, List.mem_singleton.mp hmem⟩)

theorem insertEdges_ok_iff {m : Incoming} {pairs : List (String × String)}
    {edges : List WorkflowEdge} :
    (∃ m', insertEdges m pairs edges = .ok m') ↔
      (∀ e ∈ edges, e.source ≠ e.target ∧ e.source ∈ Incoming.names m ∧
        e.target ∈ Incoming.names m) ∧
      (edges.map fun e => (e.source, e.target)).Nodup ∧
      ∀ e ∈ edges, (e.source, e.target) ∉ pairs := by
  induction edges generalizing m pairs with
  | nil => simp [insertEdges]
  | cons edge rest ih =>
    have hvalid : (edge.source = edge.target ∨ (m.get edge.source).isNone = true ∨
        (m.get edge.target).isNone = true) ↔ ¬ (edge.source ≠ edge.target ∧
          edge.source ∈ Incoming.names m ∧ edge.target ∈ Incoming.names m) := by
      rw [Option.isNone_iff_eq_none, Option.isNone_iff_eq_none, get_eq_none, get_eq_none]
      tauto
    unfold insertEdges
    by_cases hends : edge.source ≠ edge.target ∧ edge.source ∈ Incoming.names m ∧
        edge.target ∈ Incoming.names m
    · rw [if_neg fun h => hvalid.mp h hends]
      by_cases hpair : (edge.source, edge.target) ∈ pairs
      · rw [if_pos hpair]
        refine iff_of_false (fun ⟨_, h⟩ => nomatch h) ?_
        exact fun h => h.2.2 edge List.mem_cons_self hpair
      · rw [if_neg hpair, ih, names_modify, List.map_cons, List.nodup_cons]
        constructor
        · rintro ⟨hrest, hnodup, hfresh⟩
          refine ⟨?_, ⟨?_, hnodup⟩, ?_⟩
          · intro e he
            rcases List.mem_cons.mp he with rfl | he
            · exact hends
            · exact hrest e he
          · intro hmem
            obtain ⟨e, he, heq⟩ := List.mem_map.mp hmem
            exact hfresh e he (heq ▸ List.mem_cons_self)
          · intro e he hmem
            rcases List.mem_cons.mp he with rfl | he
            · exact hpair hmem
            · exact hfresh e he (List.mem_cons_of_mem _ hmem)
        · rintro ⟨hall, ⟨hfirst, hnodup⟩, hfresh⟩
          refine ⟨fun e he => hall e (List.mem_cons_of_mem edge he), hnodup, ?_⟩
          intro e he hmem
          rcases List.mem_cons.mp hmem with heq | hmem
          · exact hfirst (List.mem_map.mpr ⟨e, he, heq⟩)
          · exact hfresh e (List.mem_cons_of_mem edge he) hmem
    · rw [if_pos (hvalid.mpr hends)]
      refine iff_of_false (fun ⟨_, h⟩ => nomatch h) ?_
      exact fun h => hends (h.1 edge List.mem_cons_self)

/-- `releaseDownstream` that stops at a decrement of zero. -/
def releaseChecked (incoming : Incoming) (released : List String) :
    List String → Option (Incoming × List String)
  | [] => some (incoming, released)
  | name :: names =>
    match incoming.get name with
    | none => releaseChecked incoming released names
    | some 0 => none
    | some (count + 1) =>
      releaseChecked (incoming.modify name (· - 1))
        (if count = 0 then released ++ [name] else released) names

/-- `visitReady` that stops at a decrement of zero, and answers only when nothing is ready. -/
def visitChecked (edges : List WorkflowEdge) : ℕ → Incoming → List String → ℕ → Option ℕ
  | _, _, [], visited => some visited
  | 0, _, _ :: _, _ => none
  | rounds + 1, incoming, node :: ready, visited =>
    match releaseChecked incoming [] (outgoingNames edges node) with
    | none => none
    | some (incoming, released) =>
      visitChecked edges rounds incoming (ready ++ released) (visited + 1)

/-- As long as the counts are those of the names still to release, no decrement underflows. -/
theorem releaseChecked_eq {base : String → ℕ} {m : Incoming} {released names : List String}
    (hcounts : ∀ name ∈ Incoming.names m, m.get name = some (base name + names.count name)) :
    releaseChecked m released names = some (releaseDownstream m released names) := by
  induction names generalizing m released with
  | nil => rfl
  | cons name rest ih =>
    cases hget : m.get name with
    | none =>
      simp only [releaseChecked, releaseDownstream, hget]
      apply ih
      intro other hother
      have hne : name ≠ other := fun heq => get_eq_none.mp hget (heq ▸ hother)
      rw [hcounts other hother, List.count_cons_of_ne hne]
    | some count =>
      have hcount := hcounts name (mem_names hget)
      rw [hget, List.count_cons_self] at hcount
      obtain ⟨before, hbefore⟩ : ∃ before, count = before + 1 :=
        ⟨base name + rest.count name, Option.some.inj hcount⟩
      rw [hbefore] at hget
      simp only [releaseChecked, releaseDownstream, hget, Nat.add_sub_cancel]
      apply ih
      intro other hother
      rw [names_modify] at hother
      rw [get_modify, hcounts other hother]
      split
      · rename_i heq
        rw [heq, List.count_cons_self]
        simp only [Option.map_some, Option.some.injEq]
        omega
      · rename_i hne
        rw [List.count_cons_of_ne fun heq => hne heq.symm]

/-- Names enter the queue once, so it is empty after as many rounds as there are names. -/
theorem visitChecked_eq {edges : List WorkflowEdge} {names : List String} {m : Incoming}
    {visited ready : List String} (hedges : ∀ e ∈ edges, e.target ∈ names)
    (h : Visiting edges names m visited ready) {rounds : ℕ}
    (hrounds : names.length ≤ visited.length + rounds) :
    visitChecked edges rounds m ready visited.length =
      some (visitReady edges rounds m ready visited.length) := by
  induction rounds generalizing m visited ready with
  | zero =>
    cases ready with
    | nil => rfl
    | cons node ready =>
      have hle := h.length_le
      rw [List.length_cons] at hle
      omega
  | succ rounds ih =>
    cases ready with
    | nil => rfl
    | cons node ready =>
      have hnext := ih (h.step hedges) (by rw [List.length_append, List.length_singleton]; omega)
      rw [List.length_append] at hnext
      simp only [visitChecked, visitReady, releaseChecked_eq h.release_counts]
      exact hnext

theorem visitChecked_more {edges : List WorkflowEdge} {rounds : ℕ} {m : Incoming}
    {ready : List String} {visited v : ℕ} (h : visitChecked edges rounds m ready visited = some v)
    (more : ℕ) : visitChecked edges (rounds + more) m ready visited = some v := by
  induction rounds generalizing m ready visited with
  | zero =>
    cases ready with
    | nil =>
      cases more <;> exact h
    | cons node ready => cases h
  | succ rounds ih =>
    cases ready with
    | nil =>
      rw [Nat.add_right_comm]
      exact h
    | cons node ready =>
      rw [Nat.add_right_comm]
      simp only [visitChecked] at h ⊢
      split at h
      · cases h
      · exact ih h

/-- The names that reach zero are released. -/
theorem releaseDownstream_complete {base : String → ℕ} {m : Incoming}
    {released names : List String}
    (hcounts : ∀ name ∈ Incoming.names m, m.get name = some (base name + names.count name))
    (hmem : ∀ name ∈ names, name ∈ Incoming.names m) {name : String}
    (hname : name ∈ released ∨ name ∈ names ∧ base name = 0) :
    name ∈ (releaseDownstream m released names).2 := by
  induction names generalizing m released with
  | nil =>
    rcases hname with hname | ⟨hname, _⟩
    · exact hname
    · cases hname
  | cons first rest ih =>
    have hcount := hcounts first (hmem first List.mem_cons_self)
    rw [List.count_cons_self] at hcount
    have hlast : base first + (rest.count first + 1) - 1 = base first + rest.count first := by
      omega
    simp only [releaseDownstream, hcount, hlast]
    apply ih
    · intro other hother
      rw [names_modify] at hother
      rw [get_modify, hcounts other hother]
      split
      · rename_i heq
        rw [heq, List.count_cons_self]
        simp only [Option.map_some, Option.some.injEq]
        omega
      · rename_i hne
        rw [List.count_cons_of_ne fun heq => hne heq.symm]
    · intro other hother
      rw [names_modify]
      exact hmem other (List.mem_cons_of_mem first hother)
    · rcases hname with hname | ⟨hname, hzero⟩
      · left
        split
        · exact List.mem_append_left _ hname
        · exact hname
      · rcases List.mem_cons.mp hname with rfl | hrest
        · by_cases hdone : base name + rest.count name = 0
          · rw [if_pos hdone]
            exact .inl (List.mem_append_right _ (List.mem_singleton.mpr rfl))
          · exact .inr ⟨List.count_pos_iff.mp (by omega), hzero⟩
        · exact .inr ⟨hrest, hzero⟩

def Exhaustive (edges : List WorkflowEdge) (names visited ready : List String) : Prop :=
  ∀ name ∈ names, remaining edges visited name = 0 → name ∈ visited ++ ready

theorem Exhaustive.step {edges : List WorkflowEdge} {names : List String} {m : Incoming}
    {visited ready : List String} {node : String}
    (hedges : ∀ e ∈ edges, e.target ∈ names)
    (hvisiting : Visiting edges names m visited (node :: ready))
    (h : Exhaustive edges names visited (node :: ready)) :
    Exhaustive edges names (visited ++ [node])
      (ready ++ (releaseDownstream m [] (outgoingNames edges node)).2) := by
  intro name hname hzero
  have hcounts := hvisiting.release_counts
  by_cases hbefore : remaining edges visited name = 0
  · have hold := h name hname hbefore
    simp only [List.mem_append, List.mem_cons] at hold ⊢
    tauto
  · -- its last unvisited predecessor was the node
    have hcount := hcounts name (hvisiting.keys.symm ▸ hname)
    rw [hvisiting.counts name hname, hzero, Nat.zero_add] at hcount
    have hpositive : 0 < (outgoingNames edges node).count name := by
      have heq := Option.some.inj hcount
      omega
    have hmem : ∀ other ∈ outgoingNames edges node, other ∈ Incoming.names m := by
      intro other hother
      obtain ⟨e, he, rfl⟩ := List.mem_map.mp hother
      rw [hvisiting.keys]
      exact hedges e (List.mem_filter.mp he).1
    have hreleased : name ∈ (releaseDownstream m [] (outgoingNames edges node)).2 :=
      releaseDownstream_complete hcounts hmem (.inr ⟨List.count_pos_iff.mp hpositive, hzero⟩)
    exact List.mem_append_right _ (List.mem_append_right _ hreleased)

/-- With nothing ready and no cycle every name is visited: one that is left would have a minimal one
below it. -/
theorem visited_all {edges : List WorkflowEdge} {names : List String} {m : Incoming}
    {visited : List String} (hedges : ∀ e ∈ edges, e.source ∈ names ∧ e.target ∈ names)
    (hacyclic : Acyclic edges) (hnodup : names.Nodup)
    (hvisiting : Visiting edges names m visited [])
    (h : Exhaustive edges names visited []) : visited.length = names.length := by
  have hall : ∀ name ∈ names, name ∈ visited := by
    by_contra hnot
    push Not at hnot
    obtain ⟨name, hname, hleft⟩ := hnot
    have hfinite : {x | x ∈ names ∧ x ∉ visited}.Finite :=
      names.finite_toSet.subset fun x hx => hx.1
    obtain ⟨first, ⟨hfirst, hunvisited⟩, hmin⟩ :=
      exists_minimal_of_acyclic hacyclic hfinite ⟨name, hname, hleft⟩
    have hzero : remaining edges visited first = 0 := by
      rw [remaining_eq_zero]
      rintro a ⟨e, he, rfl, htarget⟩
      by_contra hbefore
      exact hmin e.source ⟨(hedges e he).1, hbefore⟩ ⟨e, he, rfl, htarget⟩
    have hmem := h first hfirst hzero
    rw [List.append_nil] at hmem
    exact hunvisited hmem
  have hperm : visited.Perm names := by
    rw [List.perm_ext_iff_of_nodup hvisiting.ordered.nodup hnodup]
    intro name
    refine ⟨fun hmem => ?_, hall name⟩
    exact (hvisiting.released name (List.mem_append_left _ hmem)).1
  exact hperm.length_eq

theorem visitReady_complete {edges : List WorkflowEdge} {names : List String} {m : Incoming}
    {visited ready : List String} (hedges : ∀ e ∈ edges, e.source ∈ names ∧ e.target ∈ names)
    (hacyclic : Acyclic edges) (hnodup : names.Nodup)
    (hvisiting : Visiting edges names m visited ready)
    (h : Exhaustive edges names visited ready) {rounds : ℕ}
    (hrounds : names.length ≤ visited.length + rounds) :
    visitReady edges rounds m ready visited.length = names.length := by
  induction rounds generalizing m visited ready with
  | zero =>
    cases ready with
    | nil => exact visited_all hedges hacyclic hnodup hvisiting h
    | cons node ready =>
      have hle := hvisiting.length_le
      rw [List.length_cons] at hle
      omega
  | succ rounds ih =>
    cases ready with
    | nil => exact visited_all hedges hacyclic hnodup hvisiting h
    | cons node ready =>
      have htargets : ∀ e ∈ edges, e.target ∈ names := fun e he => (hedges e he).2
      have hnext := ih (hvisiting.step htargets) (h.step htargets hvisiting)
        (by rw [List.length_append, List.length_singleton]; omega)
      rw [List.length_append] at hnext
      exact hnext

/-- The queue the loop starts with. -/
def roots (incoming : Incoming) : List String :=
  ((incoming.filter fun e => e.2 = 0).map Prod.fst).insertionSort (· ≤ ·)

theorem loop_start {d : WorkflowDefinition} {m m' : Incoming}
    (hnodes : insertNodes [] d.nodes = .ok m) (hedges : insertEdges m [] d.edges = .ok m') :
    Incoming.names m' = d.nodes.map WorkflowNode.name ∧ (Incoming.names m').Nodup ∧
      (∀ e ∈ d.edges, e.source ∈ Incoming.names m' ∧ e.target ∈ Incoming.names m') ∧
      Visiting d.edges (Incoming.names m') m' [] (roots m') ∧
      Exhaustive d.edges (Incoming.names m') [] (roots m') := by
  obtain ⟨hnames, hnodup, hzero⟩ := insertNodes_ok hnodes List.nodup_nil
    (fun _ hx => absurd hx List.not_mem_nil)
  obtain ⟨hnames', hends, hcounts⟩ := insertEdges_ok hedges
  have htotal : ∀ name ∈ Incoming.names m',
      m'.get name = some (d.edges.countP fun e => e.target = name) := by
    intro name hname
    rw [hcounts name 0 (hzero name (hnames' ▸ hname)), Nat.zero_add]
  refine ⟨hnames'.trans hnames, hnames'.symm ▸ hnodup, hnames'.symm ▸ hends,
    visiting_start (hnames'.symm ▸ hnodup) htotal, ?_⟩
  intro name hname hremaining
  have hcount : (d.edges.countP fun e => e.target = name) = 0 := by
    rw [← hremaining]
    simp [remaining]
  have hget := htotal name hname
  rw [hcount, Incoming.get] at hget
  obtain ⟨e, hfind, hcount'⟩ := Option.map_eq_some_iff.mp hget
  have hkey := List.find?_some hfind
  rw [List.nil_append, roots, List.mem_insertionSort, List.mem_map]
  exact ⟨e, List.mem_filter.mpr ⟨List.mem_of_find?_eq_some hfind, decide_eq_true hcount'⟩,
    of_decide_eq_true hkey⟩

theorem description_iff {description : Option String} :
    (description.any fun value => value.toList.contains '\x00' || 500 < value.length) = false ↔
      ∀ text, description = some text → '\x00' ∉ text.toList ∧ text.length ≤ 500 := by
  cases description with
  | none => simp
  | some text => simp

/-- A definition whose names and edges go in is judged by its cycles alone. -/
theorem validate_eq {d : WorkflowDefinition} (h : WellFormed d) :
    ∃ m m', insertNodes [] d.nodes = .ok m ∧ insertEdges m [] d.edges = .ok m' ∧
      d.validate = if visitReady d.edges d.nodes.length m' (roots m') 0 ≠ d.nodes.length then
        .error .cycle else .ok () := by
  obtain ⟨m, hnodes⟩ : ∃ m, insertNodes [] d.nodes = .ok m :=
    insertNodes_ok_iff.mpr ⟨h.names, fun _ _ => List.not_mem_nil⟩
  obtain ⟨hnames, _, _⟩ := insertNodes_ok hnodes List.nodup_nil
    (fun _ hx => absurd hx List.not_mem_nil)
  have hname {name : String} (hmem : ∃ node ∈ d.nodes, node.name = name) :
      name ∈ Incoming.names m := by
    rw [hnames]
    exact List.mem_map.mpr hmem
  obtain ⟨m', hedges⟩ : ∃ m', insertEdges m [] d.edges = .ok m' := by
    refine insertEdges_ok_iff.mpr ⟨?_, h.pairs, fun _ _ => List.not_mem_nil⟩
    intro e he
    obtain ⟨hdistinct, hsource, htarget⟩ := h.endpoints e he
    exact ⟨hdistinct, hname hsource, hname htarget⟩
  refine ⟨m, m', hnodes, hedges, ?_⟩
  have hbounds : ¬ (d.nodes = [] ∨ 64 < d.nodes.length ∨ 256 < d.edges.length) := by
    rintro (hnil | hmany | hmany)
    · have hpositive := h.nodes.1
      rw [hnil] at hpositive
      exact absurd hpositive (by decide)
    · exact absurd h.nodes.2 (Nat.not_le.mpr hmany)
    · exact absurd h.edges (Nat.not_le.mpr hmany)
  have hdescription := description_iff.mpr h.description
  unfold WorkflowDefinition.validate
  rw [if_neg hbounds, if_neg (Bool.eq_false_iff.mp hdescription), hnodes]
  change (insertEdges m [] d.edges >>= _) = _
  rw [hedges]
  rfl

/-- Whatever is accepted meets every condition. -/
theorem validate_wellFormed {d : WorkflowDefinition} (h : d.validate = .ok ()) :
    WellFormed d := by
  unfold WorkflowDefinition.validate at h
  by_cases hbounds : d.nodes = [] ∨ 64 < d.nodes.length ∨ 256 < d.edges.length
  · rw [if_pos hbounds] at h
    cases h
  rw [if_neg hbounds] at h
  by_cases hdescription :
      (d.description.any fun value => value.toList.contains '\x00' || 500 < value.length) = true
  · rw [if_pos hdescription] at h
    cases h
  rw [if_neg hdescription] at h
  obtain ⟨m, hnodes, h⟩ := ok_of_bind h
  obtain ⟨m', hedges, _⟩ := ok_of_bind h
  obtain ⟨hnames, _, _⟩ := insertNodes_ok hnodes List.nodup_nil
    (fun _ hx => absurd hx List.not_mem_nil)
  obtain ⟨hends, hpairs, _⟩ := insertEdges_ok_iff.mp ⟨m', hedges⟩
  push Not at hbounds
  obtain ⟨hnonempty, hfew, hedgesFew⟩ := hbounds
  refine ⟨⟨List.length_pos_of_ne_nil hnonempty, hfew⟩, hedgesFew, ?_, ?_, ?_, hpairs⟩
  · exact description_iff.mp (Bool.eq_false_iff.mpr hdescription)
  · exact (insertNodes_ok_iff.mp ⟨m, hnodes⟩).1
  · intro e he
    obtain ⟨hdistinct, hsource, htarget⟩ := hends e he
    rw [hnames] at hsource htarget
    exact ⟨hdistinct, List.mem_map.mp hsource, List.mem_map.mp htarget⟩

theorem validate_acyclic_iff {d : WorkflowDefinition} (h : WellFormed d) :
    (d.validate = .ok () ↔ Acyclic d.edges) ∧
      (d.validate = .error .cycle ↔ ¬ Acyclic d.edges) := by
  obtain ⟨m, m', hnodes, hedges, hvalidate⟩ := validate_eq h
  obtain ⟨hnames, hnodup, hends, hvisiting, hexhaustive⟩ := loop_start hnodes hedges
  have hlength : (Incoming.names m').length = d.nodes.length := by
    rw [hnames, List.length_map]
  have hok : d.validate = .ok () ↔ Acyclic d.edges := by
    constructor
    · exact fun hvalid => (validate_ok hvalid).ranked.acyclic
    · intro hacyclic
      have henough : (Incoming.names m').length ≤ ([] : List String).length + d.nodes.length := by
        rw [hlength, List.length_nil, Nat.zero_add]
      have hall := visitReady_complete hends hacyclic hnodup hvisiting hexhaustive henough
      rw [hvalidate, if_neg]
      rw [not_not]
      exact hall.trans hlength
  refine ⟨hok, ?_⟩
  rw [← hok, hvalidate]
  split
  · simp
  · simp

/-- The rows of a definition, under the ids of its nodes. -/
def edgeRows (workflowId : Uuid) (ids : String → Uuid) (d : WorkflowDefinition) :
    List WorkflowCatalog.EdgeRow :=
  d.edges.map fun e => ⟨workflowId, ids e.source, ids e.target, e.condition⟩

theorem mem_reachable {edges : List WorkflowCatalog.EdgeRow} {a b : Uuid} :
    (a, b) ∈ WorkflowCatalog.reachable edges ↔
      Relation.TransGen (RecursiveQuery.Edge (edges.map endpoints)) a b := by
  rw [← RecursiveQuery.mem_rounds_length, List.length_map]
  rfl

theorem edge_rows_iff {workflowId : Uuid} {ids : String → Uuid} {d : WorkflowDefinition}
    {x y : Uuid} : RecursiveQuery.Edge ((edgeRows workflowId ids d).map endpoints) x y ↔
      ∃ e ∈ d.edges, ids e.source = x ∧ ids e.target = y := by
  simp only [RecursiveQuery.Edge, edgeRows, List.map_map, List.mem_map, Function.comp_apply,
    endpoints, Prod.mk.injEq]

theorem rows_path {workflowId : Uuid} {ids : String → Uuid} {d : WorkflowDefinition}
    (h : WellFormed d) (hids : ∀ a ∈ d.nodes, ∀ b ∈ d.nodes, ids a.name = ids b.name →
      a.name = b.name) {x y : Uuid}
    (hpath : Relation.TransGen
      (RecursiveQuery.Edge ((edgeRows workflowId ids d).map endpoints)) x y) :
    ∃ a ∈ d.nodes, ∃ b ∈ d.nodes, ids a.name = x ∧ ids b.name = y ∧
      Relation.TransGen (Precedes d.edges) a.name b.name := by
  induction hpath with
  | single hedge =>
    obtain ⟨e, he, rfl, rfl⟩ := edge_rows_iff.mp hedge
    obtain ⟨_, ⟨a, ha, hsource⟩, b, hb, htarget⟩ := h.endpoints e he
    exact ⟨a, ha, b, hb, by rw [hsource], by rw [htarget], .single ⟨e, he, hsource.symm,
      htarget.symm⟩⟩
  | tail _ hedge ih =>
    obtain ⟨a, ha, b, hb, hx, hy, hfirst⟩ := ih
    obtain ⟨e, he, hsource, rfl⟩ := edge_rows_iff.mp hedge
    obtain ⟨_, ⟨b', hb', hname⟩, c, hc, htarget⟩ := h.endpoints e he
    have hsame : b.name = e.source := by
      rw [← hname]
      apply hids b hb b' hb'
      rw [hy, ← hsource, hname]
    exact ⟨a, ha, c, hc, hx, by rw [htarget], hfirst.tail ⟨e, he, hsame.symm, htarget.symm⟩⟩

theorem query_cycle_iff {workflowId : Uuid} {ids : String → Uuid} {d : WorkflowDefinition}
    (h : WellFormed d) (hids : ∀ a ∈ d.nodes, ∀ b ∈ d.nodes, ids a.name = ids b.name →
      a.name = b.name) :
    (∃ r ∈ WorkflowCatalog.reachable (edgeRows workflowId ids d), r.1 = r.2) ↔
      ¬ Acyclic d.edges := by
  constructor
  · rintro ⟨⟨x, y⟩, hr, hxy⟩ hacyclic
    change x = y at hxy
    subst hxy
    obtain ⟨a, ha, b, hb, hx, hy, hpath⟩ := rows_path h hids (mem_reachable.mp hr)
    rw [← hids a ha b hb (hx.trans hy.symm)] at hpath
    exact hacyclic a.name hpath
  · intro hcyclic
    unfold Acyclic at hcyclic
    push Not at hcyclic
    obtain ⟨a, hpath⟩ := hcyclic
    refine ⟨(ids a, ids a), mem_reachable.mpr (hpath.lift ids ?_), rfl⟩
    rintro b c ⟨e, he, rfl, rfl⟩
    exact edge_rows_iff.mpr ⟨e, he, rfl, rfl⟩

/-- `validate` accepts exactly the well-formed definitions without a directed cycle; its loop ends
with an empty queue and no count below zero; and the recursive query of the database finds a cycle
exactly where it does. -/
theorem validate_exact (d : WorkflowDefinition) :
    (d.validate = .ok () ↔ WellFormed d ∧ Acyclic d.edges) ∧
    (∀ m m', insertNodes [] d.nodes = .ok m → insertEdges m [] d.edges = .ok m' →
      ∀ rounds, d.nodes.length ≤ rounds → visitChecked d.edges rounds m' (roots m') 0 =
        some (visitReady d.edges d.nodes.length m' (roots m') 0)) ∧
    (WellFormed d → ∀ workflowId ids, (∀ a ∈ d.nodes, ∀ b ∈ d.nodes, ids a.name = ids b.name →
        a.name = b.name) →
      (d.validate = .error .cycle ↔
        ∃ r ∈ WorkflowCatalog.reachable (edgeRows workflowId ids d), r.1 = r.2)) := by
  refine ⟨?_, ?_, ?_⟩
  · constructor
    · intro hvalid
      have hwellFormed := validate_wellFormed hvalid
      exact ⟨hwellFormed, (validate_acyclic_iff hwellFormed).1.mp hvalid⟩
    · rintro ⟨hwellFormed, hacyclic⟩
      exact (validate_acyclic_iff hwellFormed).1.mpr hacyclic
  · intro m m' hnodes hedges rounds hrounds
    obtain ⟨hnames, _, hends, hvisiting, _⟩ := loop_start hnodes hedges
    have henough : (Incoming.names m').length ≤ ([] : List String).length + d.nodes.length := by
      rw [hnames, List.length_map, List.length_nil, Nat.zero_add]
    have hloop := visitChecked_eq (fun e he => (hends e he).2) hvisiting henough
    obtain ⟨more, rfl⟩ := Nat.exists_eq_add_of_le hrounds
    exact visitChecked_more hloop more
  · intro hwellFormed workflowId ids hids
    rw [(validate_acyclic_iff hwellFormed).2, query_cycle_iff hwellFormed hids]

def demoCycle : WorkflowDefinition :=
  ⟨"cycle", none, [⟨"a", 1⟩, ⟨"b", 2⟩], [⟨"a", "b", .success⟩, ⟨"b", "a", .always⟩]⟩

theorem validate_exact_demo : demoCycle.validate = .error .cycle ∧
    ∃ r ∈ WorkflowCatalog.reachable
      (edgeRows 9 (fun name => if name = "a" then 1 else 2) demoCycle), r.1 = r.2 := by
  have hcycle : demoCycle.validate = .error .cycle := by decide +kernel
  refine ⟨hcycle, ((validate_exact demoCycle).2.2 ?_ 9 _ ?_).mp hcycle⟩
  · refine ⟨by decide, by decide, nofun, by decide, ?_, by decide⟩
    decide
  · decide

end WorkflowValidation
