import Crono.RankedGraph
import Crono.ControlPlaneSchema
import Mathlib.Data.List.Count

/-! The cycle check of `WorkflowDefinition::validate`: what it accepts has unique node names,
edges between its nodes, and a rank. -/
namespace WorkflowGraph

open RunDomain WorkflowDomain RankedGraph ControlPlaneSchema
open FallibleLists

/-- One name precedes another by an edge of the definition. -/
def Precedes (edges : List WorkflowEdge) (a b : String) : Prop :=
  ∃ e ∈ edges, e.source = a ∧ e.target = b

def remaining (edges : List WorkflowEdge) (visited : List String) (name : String) : ℕ :=
  edges.countP fun e => e.target = name && decide (e.source ∉ visited)

def Incoming.names (m : Incoming) : List String := m.map Prod.fst

theorem get_eq_none {m : Incoming} {name : String} :
    m.get name = none ↔ name ∉ Incoming.names m := by
  rw [Incoming.get, Option.map_eq_none_iff, List.find?_eq_none]
  constructor
  · intro h hmem
    obtain ⟨e, he, rfl⟩ := List.mem_map.mp hmem
    exact h e he (decide_eq_true rfl)
  · intro h e he hname
    exact h (List.mem_map.mpr ⟨e, he, of_decide_eq_true hname⟩)

theorem mem_names {m : Incoming} {name : String} {count : ℕ} (h : m.get name = some count) :
    name ∈ Incoming.names m := by
  by_contra hnot
  rw [get_eq_none.mpr hnot] at h
  cases h

theorem get_of_mem {m : Incoming} (hnodup : (Incoming.names m).Nodup) {e : String × ℕ}
    (he : e ∈ m) : m.get e.1 = some e.2 := by
  cases hfind : m.find? fun x => x.1 = e.1 with
  | none => exact absurd (decide_eq_true rfl) (List.find?_eq_none.mp hfind e he)
  | some x =>
    have hkey := List.find?_some hfind
    have hsame : x = e := List.inj_on_of_nodup_map hnodup (List.mem_of_find?_eq_some hfind) he
      (of_decide_eq_true hkey)
    rw [Incoming.get, hfind, hsame]
    rfl

@[simp] theorem names_modify (m : Incoming) (name : String) (f : ℕ → ℕ) :
    Incoming.names (m.modify name f) = Incoming.names m := by
  simp only [Incoming.names, Incoming.modify, List.map_map]
  apply List.map_congr_left
  intro e _
  simp only [Function.comp_apply]
  split <;> rfl

theorem get_modify (m : Incoming) (name other : String) (f : ℕ → ℕ) :
    (m.modify name f).get other = if other = name then (m.get other).map f else m.get other := by
  induction m with
  | nil => simp [Incoming.modify, Incoming.get]
  | cons e m ih =>
    obtain ⟨key, count⟩ := e
    simp only [Incoming.get, Incoming.modify, List.map_cons] at ih ⊢
    by_cases hkey : key = other
    · subst hkey
      by_cases hname : key = name
      · simp [hname]
      · simp [hname]
    · have hstep (x : ℕ) (rows : Incoming) :
          ((key, x) :: rows).find? (fun e => decide (e.1 = other)) =
            rows.find? fun e => decide (e.1 = other) := by
        rw [List.find?_cons_of_neg]
        simpa using hkey
      split
      · rw [hstep, hstep]
        exact ih
      · rw [hstep, hstep]
        exact ih

theorem get_append_zero {m : Incoming} {name : String} (hfresh : m.get name = none)
    (other : String) :
    (m ++ [(name, 0)]).get other = if other = name then some 0 else m.get other := by
  simp only [Incoming.get, List.find?_append] at hfresh ⊢
  by_cases h : other = name
  · subst h
    rw [Option.map_eq_none_iff] at hfresh
    simp [hfresh]
  · have hne : name ≠ other := fun he => h he.symm
    simp [h, hne]

theorem insertNodes_ok {m m' : Incoming} {nodes : List WorkflowNode}
    (h : insertNodes m nodes = .ok m') (hm : (Incoming.names m).Nodup)
    (hzero : ∀ name ∈ Incoming.names m, m.get name = some 0) :
    Incoming.names m' = Incoming.names m ++ nodes.map WorkflowNode.name ∧
      (Incoming.names m').Nodup ∧ ∀ name ∈ Incoming.names m', m'.get name = some 0 := by
  induction nodes generalizing m with
  | nil =>
    cases h
    exact ⟨by simp, hm, hzero⟩
  | cons node rest ih =>
    unfold insertNodes at h
    split at h
    · cases h
    rename_i hfresh
    have hnone : m.get node.name = none := by simpa using hfresh
    have hnames : Incoming.names (m ++ [(node.name, 0)]) =
        Incoming.names m ++ [node.name] := by
      simp [Incoming.names]
    have hnodup : (Incoming.names (m ++ [(node.name, 0)])).Nodup := by
      rw [hnames, List.nodup_append]
      refine ⟨hm, List.nodup_singleton _, ?_⟩
      intro a ha b hb hab
      rw [List.mem_singleton.mp hb] at hab
      exact get_eq_none.mp hnone (hab ▸ ha)
    have hcounts : ∀ name ∈ Incoming.names (m ++ [(node.name, 0)]),
        Incoming.get (m ++ [(node.name, 0)]) name = some 0 := by
      intro name hname
      rw [get_append_zero hnone]
      split
      · rfl
      · rename_i hne
        rw [hnames] at hname
        rcases List.mem_append.mp hname with hmem | hmem
        · exact hzero name hmem
        · exact absurd (List.mem_singleton.mp hmem) hne
    obtain ⟨hresult, hrest⟩ := ih h hnodup hcounts
    refine ⟨?_, hrest⟩
    rw [hresult, hnames, List.append_assoc, List.map_cons, List.singleton_append]

theorem insertEdges_ok {m m' : Incoming} {pairs : List (String × String)}
    {edges : List WorkflowEdge} (h : insertEdges m pairs edges = .ok m') :
    Incoming.names m' = Incoming.names m ∧
      (∀ e ∈ edges, e.source ∈ Incoming.names m ∧ e.target ∈ Incoming.names m) ∧
      ∀ name count, m.get name = some count →
        m'.get name = some (count + edges.countP fun e => e.target = name) := by
  induction edges generalizing m pairs with
  | nil =>
    cases h
    exact ⟨rfl, fun e he => absurd he List.not_mem_nil, fun _ _ hget => by simpa using hget⟩
  | cons edge rest ih =>
    unfold insertEdges at h
    split at h
    · cases h
    rename_i hvalid
    split at h
    · cases h
    obtain ⟨hnames, hmem, hcounts⟩ := ih h
    rw [names_modify] at hnames hmem
    have hends : edge.source ∈ Incoming.names m ∧ edge.target ∈ Incoming.names m := by
      simp only [not_or, Option.isNone_iff_eq_none, get_eq_none, not_not] at hvalid
      exact hvalid.2
    refine ⟨hnames, ?_, ?_⟩
    · intro e he
      rcases List.mem_cons.mp he with rfl | he
      · exact hends
      · exact hmem e he
    · intro name count hget
      have hmodified := get_modify m edge.target name (· + 1)
      rw [hget] at hmodified
      by_cases hname : name = edge.target
      · rw [if_pos hname] at hmodified
        rw [hcounts name _ hmodified, List.countP_cons_of_pos (by simp [hname])]
        simp only [Option.some.injEq]
        omega
      · rw [if_neg hname] at hmodified
        rw [hcounts name _ hmodified, List.countP_cons_of_neg]
        simp only [decide_eq_true_eq]
        exact fun he => hname he.symm

/-- The loop over the downstream names of a node that was just visited: `base` counts what
remains when all of them are released. -/
theorem releaseDownstream_spec {base : String → ℕ} {m : Incoming} {released names : List String}
    (hcounts : ∀ name ∈ Incoming.names m, m.get name = some (base name + names.count name))
    (hmem : ∀ name ∈ names, name ∈ Incoming.names m)
    (hreleased : ∀ name ∈ released, name ∉ names) (hnodup : released.Nodup) :
    Incoming.names (releaseDownstream m released names).1 = Incoming.names m ∧
      (∀ name ∈ Incoming.names m,
        (releaseDownstream m released names).1.get name = some (base name)) ∧
      (releaseDownstream m released names).2.Nodup ∧
      ∀ name ∈ (releaseDownstream m released names).2,
        name ∈ released ∨ name ∈ names ∧ base name = 0 := by
  induction names generalizing m released with
  | nil =>
    refine ⟨rfl, ?_, hnodup, fun name hname => .inl hname⟩
    intro name hname
    rw [releaseDownstream, hcounts name hname, List.count_nil, Nat.add_zero]
  | cons name rest ih =>
    have hcount := hcounts name (hmem name List.mem_cons_self)
    rw [List.count_cons_self] at hcount
    have hlast : base name + (rest.count name + 1) - 1 = base name + rest.count name := by omega
    simp only [releaseDownstream, hcount, hlast]
    have hcounts' : ∀ other ∈ Incoming.names (m.modify name (· - 1)),
        (m.modify name (· - 1)).get other = some (base other + rest.count other) := by
      intro other hother
      rw [names_modify] at hother
      rw [get_modify, hcounts other hother]
      split
      · rename_i heq
        rw [heq, List.count_cons_self]
        simp only [Option.map_some, Option.some.injEq]
        omega
      · rename_i hne
        rw [List.count_cons_of_ne fun he => hne he.symm]
    have hmem' : ∀ other ∈ rest, other ∈ Incoming.names (m.modify name (· - 1)) := by
      intro other hother
      rw [names_modify]
      exact hmem other (List.mem_cons_of_mem name hother)
    by_cases hdone : base name + rest.count name = 0
    · rw [if_pos hdone]
      have hfresh : name ∉ released := fun hold => hreleased name hold List.mem_cons_self
      have hreleased' : ∀ other ∈ released ++ [name], other ∉ rest := by
        intro other hother hrest
        rcases List.mem_append.mp hother with hold | hold
        · exact hreleased other hold (List.mem_cons_of_mem name hrest)
        · rw [List.mem_singleton.mp hold] at hrest
          exact absurd hrest (List.count_eq_zero.mp (by omega))
      have hnodup' : (released ++ [name]).Nodup := by
        rw [List.nodup_append]
        refine ⟨hnodup, List.nodup_singleton _, ?_⟩
        intro a ha b hb hab
        rw [List.mem_singleton.mp hb] at hab
        exact hfresh (hab ▸ ha)
      obtain ⟨hnames, hget, hresult, hwhich⟩ := ih hcounts' hmem' hreleased' hnodup'
      rw [names_modify] at hnames hget
      refine ⟨hnames, hget, hresult, ?_⟩
      intro other hother
      rcases hwhich other hother with hold | ⟨hrest, hzero⟩
      · rcases List.mem_append.mp hold with hold | hold
        · exact .inl hold
        · rw [List.mem_singleton.mp hold]
          exact .inr ⟨List.mem_cons_self, by omega⟩
      · exact .inr ⟨List.mem_cons_of_mem name hrest, hzero⟩
    · rw [if_neg hdone]
      have hreleased' : ∀ other ∈ released, other ∉ rest := fun other hother hrest =>
        hreleased other hother (List.mem_cons_of_mem name hrest)
      obtain ⟨hnames, hget, hresult, hwhich⟩ := ih hcounts' hmem' hreleased' hnodup
      rw [names_modify] at hnames hget
      refine ⟨hnames, hget, hresult, ?_⟩
      intro other hother
      exact (hwhich other hother).imp id fun ⟨hrest, hzero⟩ =>
        ⟨List.mem_cons_of_mem name hrest, hzero⟩

/-- The loop invariant: the counts are those of the unvisited predecessors, and a name that is
visited or ready has none left. -/
structure Visiting (edges : List WorkflowEdge) (names : List String) (m : Incoming)
    (visited ready : List String) : Prop where
  ordered : Ordered (Precedes edges) visited
  keys : Incoming.names m = names
  counts : ∀ name ∈ names, m.get name = some (remaining edges visited name)
  nodup : (visited ++ ready).Nodup
  released : ∀ name ∈ visited ++ ready, name ∈ names ∧ remaining edges visited name = 0

theorem remaining_eq_zero {edges : List WorkflowEdge} {visited : List String} {name : String} :
    remaining edges visited name = 0 ↔ ∀ a, Precedes edges a name → a ∈ visited := by
  simp only [remaining, List.countP_eq_zero, Bool.and_eq_true, decide_eq_true_eq, not_and,
    not_not]
  constructor
  · rintro h a ⟨e, he, rfl, htarget⟩
    exact h e he htarget
  · intro h e he htarget
    exact h e.source ⟨e, he, rfl, htarget⟩

/-- Visiting a name releases exactly its outgoing edges. -/
theorem remaining_visit {edges : List WorkflowEdge} {visited : List String} {node : String}
    (hfresh : node ∉ visited) (name : String) :
    remaining edges visited name =
      remaining edges (visited ++ [node]) name + (outgoingNames edges node).count name := by
  induction edges with
  | nil => rfl
  | cons e edges ih =>
    simp only [remaining, outgoingNames, List.countP_cons, List.filter_cons] at ih ⊢
    by_cases htarget : e.target = name
    · by_cases hsource : e.source = node
      · simp only [hsource, hfresh, htarget, decide_true, Bool.and_true, Bool.true_and, if_true,
          List.mem_append, List.mem_singleton, or_true, not_true, decide_false,
          List.map_cons, List.count_cons_self, not_false_eq_true, Bool.false_eq_true,
          if_false] at ih ⊢
        omega
      · simp only [hsource, htarget, decide_true, Bool.true_and, decide_false, if_false,
          List.mem_append, List.mem_singleton, or_false, Bool.false_eq_true] at ih ⊢
        omega
    · by_cases hsource : e.source = node
      · simp only [hsource, htarget, decide_false, Bool.false_and, decide_true, if_true,
          List.map_cons, Bool.false_eq_true, if_false] at ih ⊢
        rw [List.count_cons_of_ne htarget]
        omega
      · simp only [hsource, htarget, decide_false, Bool.false_and, Bool.false_eq_true,
          if_false] at ih ⊢
        omega

theorem Visiting.fresh {edges : List WorkflowEdge} {names : List String} {m : Incoming}
    {visited ready : List String} {node : String}
    (h : Visiting edges names m visited (node :: ready)) : node ∉ visited := by
  have hnodup := h.nodup
  rw [List.nodup_append] at hnodup
  exact fun hmem => hnodup.2.2 node hmem node List.mem_cons_self rfl

theorem Visiting.release_counts {edges : List WorkflowEdge} {names : List String} {m : Incoming}
    {visited ready : List String} {node : String}
    (h : Visiting edges names m visited (node :: ready)) :
    ∀ name ∈ Incoming.names m, m.get name = some
      (remaining edges (visited ++ [node]) name + (outgoingNames edges node).count name) := by
  intro name hname
  rw [h.counts name (h.keys ▸ hname), ← remaining_visit h.fresh]

theorem Visiting.length_le {edges : List WorkflowEdge} {names : List String} {m : Incoming}
    {visited ready : List String} (h : Visiting edges names m visited ready) :
    visited.length + ready.length ≤ names.length := by
  have hle := (List.subperm_of_subset h.nodup fun name hname =>
    (h.released name hname).1).length_le
  rwa [List.length_append] at hle

theorem Visiting.step {edges : List WorkflowEdge} {names : List String} {m : Incoming}
    {visited ready : List String} {node : String}
    (hedges : ∀ e ∈ edges, e.target ∈ names)
    (h : Visiting edges names m visited (node :: ready)) :
    Visiting edges names (releaseDownstream m [] (outgoingNames edges node)).1
      (visited ++ [node]) (ready ++ (releaseDownstream m [] (outgoingNames edges node)).2) := by
  have hfresh := h.fresh
  have hdone := (h.released node (List.mem_append_right _ List.mem_cons_self)).2
  have houtgoing : ∀ name ∈ outgoingNames edges node, Precedes edges node name := by
    intro name hname
    obtain ⟨e, he, rfl⟩ := List.mem_map.mp hname
    obtain ⟨he, hsource⟩ := List.mem_filter.mp he
    exact ⟨e, he, of_decide_eq_true hsource, rfl⟩
  have hcounts := h.release_counts
  have hmem : ∀ name ∈ outgoingNames edges node, name ∈ Incoming.names m := by
    intro name hname
    obtain ⟨e, he, _, htarget⟩ := houtgoing name hname
    rw [h.keys]
    exact htarget ▸ hedges e he
  obtain ⟨hnames, hget, hresult, hwhich⟩ := releaseDownstream_spec hcounts hmem
    (fun _ hx => absurd hx List.not_mem_nil) List.nodup_nil
  have hkept : visited ++ [node] ++ ready = visited ++ node :: ready := by simp
  have hold (name : String) (hname : name ∈ visited ++ node :: ready) :
      remaining edges (visited ++ [node]) name = 0 ∧
        (outgoingNames edges node).count name = 0 := by
    have hzero := (h.released name hname).2
    rw [remaining_visit hfresh] at hzero
    omega
  refine ⟨h.ordered.snoc hfresh (remaining_eq_zero.mp hdone), hnames.trans h.keys, ?_, ?_, ?_⟩
  · intro name hname
    exact hget name (h.keys.symm ▸ hname)
  · rw [← List.append_assoc, hkept, List.nodup_append]
    refine ⟨h.nodup, hresult, ?_⟩
    rintro a ha b hb rfl
    rcases hwhich a hb with hb | ⟨hb, _⟩
    · cases hb
    · exact List.count_eq_zero.mp (hold a ha).2 hb
  · intro name hname
    rw [← List.append_assoc, hkept] at hname
    rcases List.mem_append.mp hname with hname | hname
    · exact ⟨(h.released name hname).1, (hold name hname).1⟩
    · rcases hwhich name hname with hname | ⟨hname, hzero⟩
      · cases hname
      · obtain ⟨e, he, _, htarget⟩ := houtgoing name hname
        exact ⟨htarget ▸ hedges e he, hzero⟩

theorem visitReady_ordered {edges : List WorkflowEdge} {names : List String} {m : Incoming}
    {visited ready : List String} (hedges : ∀ e ∈ edges, e.target ∈ names)
    (h : Visiting edges names m visited ready) (rounds : ℕ) :
    ∃ order, Ordered (Precedes edges) order ∧ (∀ name ∈ order, name ∈ names) ∧
      visitReady edges rounds m ready visited.length = order.length := by
  induction rounds generalizing m visited ready with
  | zero =>
    exact ⟨visited, h.ordered, fun name hname => (h.released name
      (List.mem_append_left _ hname)).1, rfl⟩
  | succ rounds ih =>
    cases ready with
    | nil =>
      exact ⟨visited, h.ordered, fun name hname => (h.released name
        (List.mem_append_left _ hname)).1, rfl⟩
    | cons node ready =>
      have hstep := ih (h.step hedges)
      rw [List.length_append] at hstep
      exact hstep

/-- A definition the domain accepts. -/
structure Accepted (d : WorkflowDefinition) : Prop where
  nonempty : d.nodes ≠ []
  names : (d.nodes.map WorkflowNode.name).Nodup
  edges : ∀ e ∈ d.edges, (∃ node ∈ d.nodes, node.name = e.source) ∧
    ∃ node ∈ d.nodes, node.name = e.target
  ranked : Ranked (Precedes d.edges)

theorem visiting_start {edges : List WorkflowEdge} {m : Incoming}
    (hnodup : (Incoming.names m).Nodup)
    (hcounts : ∀ name ∈ Incoming.names m,
      m.get name = some (edges.countP fun e => e.target = name)) :
    Visiting edges (Incoming.names m) m []
      (((m.filter fun e => e.2 = 0).map Prod.fst).insertionSort (· ≤ ·)) := by
  have hcount (name : String) :
      remaining edges [] name = edges.countP fun e => e.target = name := by
    simp [remaining]
  have hsublist : ((m.filter fun e => e.2 = 0).map Prod.fst).Sublist (Incoming.names m) :=
    List.filter_sublist.map Prod.fst
  refine ⟨.nil, rfl, ?_, ?_, ?_⟩
  · intro name hname
    rw [hcount]
    exact hcounts name hname
  · rw [List.nil_append, (List.perm_insertionSort _ _).nodup_iff]
    exact hnodup.sublist hsublist
  · intro name hname
    rw [List.nil_append, List.mem_insertionSort] at hname
    obtain ⟨e, he, rfl⟩ := List.mem_map.mp hname
    obtain ⟨he, hzero⟩ := List.mem_filter.mp he
    have hmem : e.1 ∈ Incoming.names m := List.mem_map_of_mem he
    refine ⟨hmem, ?_⟩
    rw [hcount, ← Option.some.inj ((get_of_mem hnodup he).symm.trans (hcounts _ hmem))]
    exact of_decide_eq_true hzero

theorem validate_ok {d : WorkflowDefinition} (h : d.validate = .ok ()) : Accepted d := by
  unfold WorkflowDefinition.validate at h
  by_cases hbounds : d.nodes = [] ∨ 64 < d.nodes.length ∨ 256 < d.edges.length
  · rw [if_pos hbounds] at h
    cases h
  rw [if_neg hbounds] at h
  by_cases hdescription :
      (d.description.any fun value => value.toList.contains '\x00' || 500 < value.length) = true
  · rw [if_pos hdescription] at h
    cases h
  rw [if_neg hdescription] at h
  obtain ⟨m, hnodes, h⟩ := ok_of_bind h
  obtain ⟨m', hedges, h⟩ := ok_of_bind h
  obtain ⟨hnames, hnodup, hzero⟩ := insertNodes_ok hnodes List.nodup_nil
    (fun _ hx => absurd hx List.not_mem_nil)
  obtain ⟨hnames', hends, hcounts⟩ := insertEdges_ok hedges
  have hvisited : visitReady d.edges d.nodes.length m'
      (((m'.filter fun e => e.2 = 0).map Prod.fst).insertionSort (· ≤ ·)) 0 = d.nodes.length := by
    by_contra hcycle
    rw [if_pos hcycle] at h
    cases h
  have htotal : ∀ name ∈ Incoming.names m',
      m'.get name = some (d.edges.countP fun e => e.target = name) := by
    intro name hname
    rw [hcounts name 0 (hzero name (hnames' ▸ hname)), Nat.zero_add]
  have htargets : ∀ e ∈ d.edges, e.target ∈ Incoming.names m' := by
    intro e he
    rw [hnames']
    exact (hends e he).2
  obtain ⟨order, hordered, hmem, hlength⟩ :=
    visitReady_ordered htargets (visiting_start (hnames'.symm ▸ hnodup) htotal) d.nodes.length
  have hall : Incoming.names m' = d.nodes.map WorkflowNode.name := hnames'.trans hnames
  have hperm : order.Perm (Incoming.names m') := by
    apply (List.subperm_of_subset hordered.nodup hmem).perm_of_length_le
    rw [← hlength, List.length_nil, hvisited, hall, List.length_map]
  refine ⟨fun hnil => hbounds (.inl hnil), ?_, ?_, ?_⟩
  · rw [← hall, hnames']
    exact hnodup
  · intro e he
    have hboth := hends e he
    rw [← hnames', hall] at hboth
    exact ⟨List.mem_map.mp hboth.1, List.mem_map.mp hboth.2⟩
  · refine hordered.ranked ?_
    rintro a b ⟨e, he, _, rfl⟩
    exact hperm.mem_iff.mpr (htargets e he)

end WorkflowGraph
