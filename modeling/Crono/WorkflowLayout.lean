import Crono.KahnTraversal
import Crono.WorkflowValidation

/-! The graph preview of a Workflow. Every card stands in the layer that the longest path into its
node gives, nodes behind a cycle share a layer below, and the cards do not overlap. -/
namespace WorkflowLayout

open KahnTraversal RankedGraph WorkflowDomain
open RecursiveQuery (Edge)

def nodeWidth : ℕ := 224

def nodeHeight : ℕ := 128

def columnGap : ℕ := 88

def rowGap : ℕ := 96

def padding : ℕ := 72

structure NodePosition where
  index : ℕ
  depth : ℕ
  x : ℕ
  y : ℕ
  deriving DecidableEq, Repr

structure GraphLayout where
  nodes : List NodePosition
  width : ℕ
  height : ℕ
  unresolved : Bool
  deriving DecidableEq, Repr

/-- The `incoming` and `outgoing` vectors. -/
structure Links where
  incoming : List ℕ
  outgoing : List (List ℕ)

def Links.insert (count : ℕ) (links : Links) (edge : ℕ × ℕ) : Links :=
  if count ≤ edge.1 ∨ count ≤ edge.2 then links
  else ⟨links.incoming.modify edge.2 (· + 1), links.outgoing.modify edge.1 (· ++ [edge.2])⟩

def links (count : ℕ) (edges : List (ℕ × ℕ)) : Links :=
  edges.foldl (Links.insert count) ⟨List.replicate count 0, List.replicate count []⟩

structure Traversal where
  incoming : List ℕ
  depths : List ℕ
  visited : List Bool
  ready : List ℕ

def Traversal.start (count : ℕ) (incoming : List ℕ) : Traversal :=
  ⟨incoming, List.replicate count 0, List.replicate count false,
    (List.range incoming.length).filter fun index => incoming[index]? = some 0⟩

/-- One edge out of a visited node: the depth behind it and what is left before it. -/
def Traversal.release (nextDepth : ℕ) (t : Traversal) (downstream : ℕ) : Traversal :=
  { t with
    depths := t.depths.modify downstream fun depth => max depth nextDepth
    incoming := t.incoming.modify downstream (· - 1)
    ready := if t.incoming[downstream]?.any fun value => value - 1 = 0 then
      t.ready ++ [downstream] else t.ready }

def Traversal.visit (outgoing : List (List ℕ)) (t : Traversal) (index : ℕ) (rest : List ℕ) :
    Traversal :=
  (outgoing[index]?.getD []).foldl (Traversal.release (t.depths[index]?.getD 0 + 1))
    { t with visited := t.visited.set index true, ready := rest }

/-- The loop within some rounds; none when the queue is not empty by then. -/
def traverse (outgoing : List (List ℕ)) : (rounds : ℕ) → Traversal → Option Traversal
  | 0, t => if t.ready = [] then some t else none
  | rounds + 1, t =>
    match t.ready with
    | [] => some t
    | index :: rest => traverse outgoing rounds (t.visit outgoing index rest)

def Traversal.unresolved (t : Traversal) : Bool := t.visited.any fun value => !value

/-- Where the nodes stand that the loop did not visit. -/
def Traversal.draftDepth (t : Traversal) : ℕ :=
  ((t.depths.zip t.visited).filterMap fun node => if node.2 then some node.1 else none).max?.elim 0
    (· + 1)

def Traversal.finalDepths (t : Traversal) : List ℕ :=
  (t.depths.zip t.visited).map fun node => if node.2 then node.1 else t.draftDepth

def layers (depths : List ℕ) : ℕ := depths.max?.elim 1 (· + 1)

def sizes (depths : List ℕ) : List ℕ :=
  depths.foldl (fun sizes depth => sizes.modify depth (· + 1)) (List.replicate (layers depths) 0)

def rowWidth (size : ℕ) : ℕ := size * (nodeWidth + columnGap) - columnGap

def widest (depths : List ℕ) : ℕ := rowWidth ((sizes depths).max?.getD 1)

/-- The cards in definition order; `slots` counts those already in each layer. -/
def place (sizes : List ℕ) (widest : ℕ) : (slots : List ℕ) → (index : ℕ) → (depths : List ℕ) →
    List NodePosition
  | _, _, [] => []
  | slots, index, depth :: rest =>
    let offset := slots[depth]?.getD 0
    let width := rowWidth (sizes[depth]?.getD 0)
    ⟨index, depth, padding + (widest - width) / 2 + offset * (nodeWidth + columnGap),
        padding + depth * (nodeHeight + rowGap)⟩ ::
      place sizes widest (slots.modify depth (· + 1)) (index + 1) rest

def graphLayout (depths : List ℕ) (unresolved : Bool) : GraphLayout :=
  { nodes := place (sizes depths) (widest depths) (List.replicate (layers depths) 0) 0 depths
    width := widest depths + 2 * padding
    height := layers depths * (nodeHeight + rowGap) - rowGap + 2 * padding
    unresolved := unresolved }

/-- `layered_layout`, with a number of rounds for its loop. -/
def layeredLayout (rounds count : ℕ) (edges : List (ℕ × ℕ)) : Option GraphLayout :=
  (traverse (links count edges).outgoing rounds
    (Traversal.start count (links count edges).incoming)).map fun t =>
      graphLayout t.finalDepths t.unresolved

def inRange (count : ℕ) (edges : List (ℕ × ℕ)) : List (ℕ × ℕ) :=
  edges.filter fun e => decide (e.1 < count) && decide (e.2 < count)

theorem edge_inRange {count : ℕ} {edges : List (ℕ × ℕ)} {a b : ℕ} :
    Edge (inRange count edges) a b ↔ (a, b) ∈ edges ∧ a < count ∧ b < count := by
  simp [Edge, inRange]

theorem links_spec (count : ℕ) (edges : List (ℕ × ℕ)) :
    (links count edges).incoming.length = count ∧
    ∀ node < count,
      (links count edges).incoming[node]? = some (remaining (inRange count edges) [] node) ∧
      (links count edges).outgoing[node]? = some (outgoing (inRange count edges) node) := by
  induction edges using List.reverseRecOn with
  | nil =>
    refine ⟨List.length_replicate, fun node hnode => ?_⟩
    constructor
    · exact List.getElem?_replicate_of_lt hnode
    · exact List.getElem?_replicate_of_lt hnode
  | append_singleton edges edge ih =>
    obtain ⟨hlength, hlinks⟩ := ih
    obtain ⟨source, target⟩ := edge
    have hstep : links count (edges ++ [(source, target)]) =
        (links count edges).insert count (source, target) := by
      rw [links, List.foldl_concat]
      rfl
    have hfilter : inRange count (edges ++ [(source, target)]) = inRange count edges ++
        if source < count ∧ target < count then [(source, target)] else [] := by
      by_cases h : source < count ∧ target < count
      · simp [inRange, h]
      · simp only [not_and_or, Nat.not_lt] at h
        rcases h with h | h
        · simp [inRange, Nat.not_lt.mpr h]
        · simp [inRange, Nat.not_lt.mpr h]
    rw [hstep, hfilter, Links.insert]
    by_cases h : source < count ∧ target < count
    · rw [if_neg (by simp only; omega), if_pos h]
      refine ⟨by simpa using hlength, fun node hnode => ?_⟩
      obtain ⟨hin, hout⟩ := hlinks node hnode
      simp only [List.getElem?_modify, hin, hout, remaining, outgoing, List.countP_append,
        List.filter_append]
      constructor
      · by_cases htarget : target = node
        · simp [htarget]
        · simp [htarget]
      · by_cases hsource : source = node
        · simp [hsource]
        · simp [hsource]
    · rw [if_pos (by simp only; omega), if_neg h, List.append_nil]
      exact ⟨hlength, hlinks⟩

def Traversal.depth (t : Traversal) (node : ℕ) : ℕ := t.depths[node]?.getD 0

section Release

variable {nextDepth first : ℕ} {base : ℕ → ℕ} {rest : List ℕ} {t : Traversal}

theorem release_incoming {count : ℕ}
    (h : ∀ node < count, t.incoming[node]? = some (base node + (first :: rest).count node)) :
    ∀ node < count, (t.release nextDepth first).incoming[node]? =
      some (base node + rest.count node) := by
  intro node hnode
  simp only [Traversal.release, List.getElem?_modify, h node hnode, Option.map_eq_map,
    Option.map_some]
  by_cases hsame : first = node
  · rw [if_pos hsame, hsame, List.count_cons_self]
    rfl
  · rw [if_neg hsame, List.count_cons_of_ne hsame]

theorem release_depth (h : first < t.depths.length) (node : ℕ) :
    (t.release nextDepth first).depth node =
      if node = first then max (t.depth node) nextDepth else t.depth node := by
  simp only [Traversal.depth, Traversal.release, List.getElem?_modify]
  by_cases hsame : first = node
  · subst hsame
    rw [if_pos rfl, List.getElem?_eq_getElem h]
    simp
  · rw [if_neg (Ne.symm hsame)]
    simp [hsame]

theorem release_ready {left : ℕ} (h : t.incoming[first]? = some (left + 1)) :
    (t.release nextDepth first).ready = t.ready ++ if left = 0 then [first] else [] := by
  simp only [Traversal.release, h, Option.any_some, decide_eq_true_eq, Nat.add_sub_cancel]
  split
  · rfl
  · rw [List.append_nil]

/-- Each node that is ready appears once, at its last edge. -/
theorem released_cons {released : List ℕ} (hnodup : released.Nodup)
    (h : ∀ node, node ∈ released ↔ node ∈ rest ∧ base node = 0) :
    ((if base first + rest.count first = 0 then [first] else []) ++ released).Nodup ∧
    ∀ node, node ∈ (if base first + rest.count first = 0 then [first] else []) ++ released ↔
      node ∈ first :: rest ∧ base node = 0 := by
  by_cases hzero : base first + rest.count first = 0
  · rw [if_pos hzero, List.singleton_append, List.nodup_cons]
    have hlast : first ∉ rest := List.count_eq_zero.mp (by omega)
    refine ⟨⟨fun hmem => hlast ((h first).mp hmem).1, hnodup⟩, ?_⟩
    intro node
    rw [List.mem_cons, List.mem_cons, h]
    constructor
    · rintro (rfl | ⟨hmem, hbase⟩)
      · exact ⟨.inl rfl, by omega⟩
      · exact ⟨.inr hmem, hbase⟩
    · rintro ⟨rfl | hmem, hbase⟩
      · exact .inl rfl
      · exact .inr ⟨hmem, hbase⟩
  · rw [if_neg hzero, List.nil_append]
    refine ⟨hnodup, ?_⟩
    intro node
    rw [h, List.mem_cons]
    constructor
    · rintro ⟨hmem, hbase⟩
      exact ⟨.inr hmem, hbase⟩
    · rintro ⟨rfl | hmem, hbase⟩
      · exact ⟨List.count_pos_iff.mp (by omega), hbase⟩
      · exact ⟨hmem, hbase⟩

end Release

/-- The edges out of the visited node: `base` is what is left when all of them are released. -/
theorem release_spec {count nextDepth : ℕ} {base : ℕ → ℕ} {outs : List ℕ} {t : Traversal}
    (hincoming : ∀ node < count, t.incoming[node]? = some (base node + outs.count node))
    (houts : ∀ node ∈ outs, node < count) (hdepths : t.depths.length = count) :
    (∀ node < count,
      (outs.foldl (Traversal.release nextDepth) t).incoming[node]? = some (base node)) ∧
    (outs.foldl (Traversal.release nextDepth) t).visited = t.visited ∧
    (outs.foldl (Traversal.release nextDepth) t).depths.length = count ∧
    (∀ node, (outs.foldl (Traversal.release nextDepth) t).depth node =
      if node ∈ outs then max (t.depth node) nextDepth else t.depth node) ∧
    ∃ released, (outs.foldl (Traversal.release nextDepth) t).ready = t.ready ++ released ∧
      released.Nodup ∧ ∀ node, node ∈ released ↔ node ∈ outs ∧ base node = 0 := by
  induction outs generalizing t with
  | nil =>
    refine ⟨by simpa using hincoming, rfl, hdepths, fun _ => rfl, [], ?_, List.nodup_nil, ?_⟩
    · rw [List.append_nil]
      rfl
    · simp
  | cons first rest ih =>
    have hfirst : first < count := houts first List.mem_cons_self
    have hvalue := hincoming first hfirst
    rw [List.count_cons_self, ← Nat.add_assoc] at hvalue
    have hlength : (t.release nextDepth first).depths.length = count := by
      simpa [Traversal.release] using hdepths
    obtain ⟨hin, hvisited, hdepths', hdepth, released, hready, hnodup, hreleased⟩ :=
      ih (release_incoming hincoming) (fun node hnode => houts node (List.mem_cons_of_mem _ hnode))
        hlength
    obtain ⟨hnodup', hreleased'⟩ := released_cons hnodup hreleased
    refine ⟨hin, hvisited, hdepths', ?_, _, ?_, hnodup', hreleased'⟩
    · intro node
      rw [List.foldl_cons, hdepth, release_depth (hdepths ▸ hfirst)]
      by_cases hsame : node = first
      · by_cases hagain : node ∈ rest
        · simp [hsame]
        · simp [hsame]
      · simp [hsame]
    · rw [List.foldl_cons, hready, release_ready hvalue, List.append_assoc]

/-- The vectors hold what the traversal of the edges in range has counted. -/
structure Tracks (count : ℕ) (edges : List (ℕ × ℕ)) (order : List ℕ) (t : Traversal) : Prop where
  visiting : Visiting (inRange count edges) (List.range count) order t.ready
  layered : Layered (inRange count edges) order t.depth
  incoming : ∀ node < count,
    t.incoming[node]? = some (remaining (inRange count edges) order node)
  depths : t.depths.length = count
  visited : t.visited.length = count ∧
    ∀ node < count, t.visited[node]? = some (decide (node ∈ order))

section Loop

variable {count : ℕ} {edges : List (ℕ × ℕ)} {order : List ℕ} {t : Traversal}

theorem target_mem : ∀ e ∈ inRange count edges, e.2 ∈ List.range count :=
  fun _ he => List.mem_range.mpr (edge_inRange.mp he).2.2

theorem source_mem : ∀ e ∈ inRange count edges, e.1 ∈ List.range count :=
  fun _ he => List.mem_range.mpr (edge_inRange.mp he).2.1

theorem tracks_start (count : ℕ) (edges : List (ℕ × ℕ)) :
    Tracks count edges [] (Traversal.start count (links count edges).incoming) := by
  obtain ⟨hlength, hlinks⟩ := links_spec count edges
  have hready : (Traversal.start count (links count edges).incoming).ready =
      (List.range count).filter fun node =>
        decide (remaining (inRange count edges) [] node = 0) := by
    simp only [Traversal.start, hlength]
    apply List.filter_congr
    intro node hnode
    simp only [(hlinks node (List.mem_range.mp hnode)).1, Option.some.injEq]
  constructor
  · rw [hready]
    constructor
    · exact List.nodup_range.filter _
    · intro node hnode
      obtain ⟨hmem, hzero⟩ := List.mem_filter.mp hnode
      exact ⟨hmem, of_decide_eq_true hzero⟩
    · intro node hmem hzero
      exact List.mem_filter.mpr ⟨hmem, decide_eq_true hzero⟩
  · constructor
    · simp
    · intro node
      refine .inl ?_
      simp only [Traversal.depth, Traversal.start, List.getElem?_replicate]
      split <;> rfl
  · exact fun node hnode => (hlinks node hnode).1
  · exact List.length_replicate
  · refine ⟨List.length_replicate, fun node hnode => ?_⟩
    rw [Traversal.start, List.getElem?_replicate_of_lt hnode]
    rfl

theorem Tracks.visit {index : ℕ} {rest : List ℕ} (h : Tracks count edges order t)
    (hready : t.ready = index :: rest) :
    Tracks count edges (order ++ [index]) (t.visit (links count edges).outgoing index rest) := by
  have hvisiting := h.visiting
  rw [hready] at hvisiting
  have hindex : index < count := List.mem_range.mp
    (hvisiting.released index (List.mem_append_right _ List.mem_cons_self)).1
  have hout := ((links_spec count edges).2 index hindex).2
  have houts : ∀ node ∈ outgoing (inRange count edges) index, node < count :=
    fun node hnode => (edge_inRange.mp (mem_outgoing.mp hnode)).2.2
  have hincoming : ∀ node < count, t.incoming[node]? =
      some (remaining (inRange count edges) (order ++ [index]) node +
        (outgoing (inRange count edges) index).count node) := by
    intro node hnode
    rw [h.incoming node hnode, remaining_visit hvisiting.fresh]
  have hvisit : t.visit (links count edges).outgoing index rest =
      (outgoing (inRange count edges) index).foldl (Traversal.release (t.depth index + 1))
        { t with visited := t.visited.set index true, ready := rest } := by
    rw [Traversal.visit, hout]
    rfl
  obtain ⟨hin, hvisited, hlength, hdepth, released, hqueue, hnodup, hreleased⟩ :=
    @release_spec count (t.depth index + 1) _ (outgoing (inRange count edges) index)
      { t with visited := t.visited.set index true, ready := rest } hincoming houts h.depths
  rw [hvisit]
  constructor
  · rw [hqueue]
    exact hvisiting.step target_mem hnodup hreleased
  · exact h.layered.visit hvisiting hdepth
  · exact hin
  · exact hlength
  · rw [hvisited]
    refine ⟨by simpa using h.visited.1, fun node hnode => ?_⟩
    rw [List.getElem?_set]
    by_cases hsame : index = node
    · subst hsame
      simp [h.visited.1, hindex]
    · rw [if_neg hsame, h.visited.2 node hnode]
      simp [Ne.symm hsame]

theorem traverse_tracks (h : Tracks count edges order t) {rounds : ℕ}
    (hrounds : count ≤ order.length + rounds) :
    ∃ final order', traverse (links count edges).outgoing rounds t = some final ∧
      final.ready = [] ∧ Tracks count edges order' final := by
  have hle := h.visiting.length_le
  rw [List.length_range] at hle
  induction rounds generalizing order t with
  | zero =>
    have hnone : t.ready = [] := List.eq_nil_of_length_eq_zero (by omega)
    exact ⟨t, order, by rw [traverse, if_pos hnone], hnone, h⟩
  | succ rounds ih =>
    rw [traverse]
    cases hready : t.ready with
    | nil => exact ⟨t, order, rfl, hready, h⟩
    | cons index rest =>
      have hnext := h.visit hready
      refine ih hnext ?_ ?_
      · rw [List.length_append, List.length_singleton]
        omega
      · simpa using hnext.visiting.length_le

def Traversal.seen (t : Traversal) : List (Option ℕ) :=
  (t.depths.zip t.visited).map fun node => if node.2 then some node.1 else none

theorem draftDepth_eq (t : Traversal) :
    t.draftDepth = (t.seen.filterMap id).max?.elim 0 (· + 1) := by
  rw [Traversal.draftDepth, Traversal.seen, List.filterMap_map, Function.id_comp]

theorem finalDepths_eq (t : Traversal) :
    t.finalDepths = t.seen.map fun depth => depth.getD t.draftDepth := by
  rw [Traversal.finalDepths, Traversal.seen, List.map_map]
  apply List.map_congr_left
  rintro ⟨depth, seen⟩ _
  cases seen <;> rfl

theorem Tracks.seen_length (h : Tracks count edges order t) : t.seen.length = count := by
  rw [Traversal.seen, List.length_map, List.length_zip, h.depths, h.visited.1, Nat.min_self]

theorem Tracks.seen_eq (h : Tracks count edges order t) {node : ℕ} (hnode : node < count) :
    t.seen[node]? = some (if node ∈ order then some (t.depth node) else none) := by
  have hdepth : t.depths[node]? = some (t.depth node) := by
    have hlt : node < t.depths.length := by rw [h.depths]; exact hnode
    rw [Traversal.depth, List.getElem?_eq_getElem hlt, Option.getD_some]
  have hboth := List.getElem?_zip_eq_some.mpr
    (show t.depths[node]? = some (t.depth node, decide (node ∈ order)).1 ∧
      t.visited[node]? = some (t.depth node, decide (node ∈ order)).2 from
        ⟨hdepth, h.visited.2 node hnode⟩)
  rw [Traversal.seen, List.getElem?_map, hboth, Option.map_some]
  simp only [decide_eq_true_eq]

theorem Tracks.unresolved_eq (h : Tracks count edges order t) :
    t.unresolved = t.seen.any Option.isNone := by
  have hvisited : (t.depths.zip t.visited).map Prod.snd = t.visited :=
    List.map_snd_zip (by rw [h.depths, h.visited.1])
  rw [Traversal.unresolved, Traversal.seen, List.any_map, ← hvisited, List.any_map, hvisited]
  congr 1
  funext node
  obtain ⟨depth, seen⟩ := node
  cases seen <;> rfl

/-- A node has a depth exactly when the paths into it are bounded, and then that of the longest. -/
theorem Tracks.seen_iff (h : Tracks count edges order t) (hready : t.ready = []) {node depth : ℕ}
    (hnode : node < count) : t.seen[node]? = some (some depth) ↔
      Longest (Edge (inRange count edges)) depth node := by
  have hvisiting := h.visiting
  rw [hready] at hvisiting
  rw [h.seen_eq hnode, Option.some.injEq]
  constructor
  · intro heq
    split at heq
    · rename_i hmem
      rw [← Option.some.inj heq]
      exact h.layered.longest hvisiting hmem
    · cases heq
  · intro hlongest
    have hmem := hvisiting.visited_of_bounded source_mem (List.mem_range.mpr hnode) hlongest.2
    rw [if_pos hmem, (h.layered.longest hvisiting hmem).unique hlongest]

theorem Tracks.unresolved_iff (h : Tracks count edges order t) (hready : t.ready = []) :
    t.unresolved = true ↔ ∃ a, Relation.TransGen (Edge (inRange count edges)) a a := by
  have hvisiting := h.visiting
  rw [hready] at hvisiting
  constructor
  · intro hunresolved
    by_contra hacyclic
    push Not at hacyclic
    have hall := hvisiting.all_of_acyclic source_mem hacyclic
    obtain ⟨value, hvalue, hnot⟩ := List.any_eq_true.mp hunresolved
    obtain ⟨node, hlt, rfl⟩ := List.getElem_of_mem hvalue
    have hnode : node < count := by rw [← h.visited.1]; exact hlt
    have hseen := h.visited.2 node hnode
    rw [List.getElem?_eq_getElem hlt, Option.some.injEq] at hseen
    rw [hseen, decide_eq_true (hall node (List.mem_range.mpr hnode))] at hnot
    cases hnot
  · rintro ⟨a, hcycle⟩
    by_contra hresolved
    have hall : ∀ node < count, node ∈ order := by
      intro node hnode
      by_contra hleft
      refine hresolved (List.any_eq_true.mpr ⟨false, ?_, rfl⟩)
      have hseen := h.visited.2 node hnode
      rw [decide_eq_false hleft] at hseen
      exact List.mem_of_getElem? hseen
    have hranked : Ranked (Edge (inRange count edges)) := by
      refine ⟨t.depth, fun a b hab => ?_⟩
      exact h.layered.below a (hall a (edge_inRange.mp hab).2.1) b hab
    exact hranked.acyclic a hcycle

theorem seen_determined {edges' : List (ℕ × ℕ)} {order' : List ℕ} {t' : Traversal}
    (hsame : ∀ a b, Edge (inRange count edges) a b ↔ Edge (inRange count edges') a b)
    (h : Tracks count edges order t) (hready : t.ready = [])
    (h' : Tracks count edges' order' t') (hready' : t'.ready = []) : t.seen = t'.seen := by
  have hrelation : Edge (inRange count edges) = Edge (inRange count edges') :=
    funext fun a => funext fun b => propext (hsame a b)
  apply List.ext_getElem?
  intro node
  by_cases hnode : node < count
  · have hiff (depth : ℕ) : t.seen[node]? = some (some depth) ↔
        t'.seen[node]? = some (some depth) := by
      rw [h.seen_iff hready hnode, h'.seen_iff hready' hnode, hrelation]
    rw [h.seen_eq hnode, h'.seen_eq hnode] at hiff ⊢
    simp only [Option.some.injEq] at hiff ⊢
    exact Option.ext hiff
  · rw [List.getElem?_eq_none, List.getElem?_eq_none]
    · rw [h'.seen_length]; omega
    · rw [h.seen_length]; omega

end Loop

def Overlaps (p q : NodePosition) : Prop :=
  p.x < q.x + nodeWidth ∧ q.x < p.x + nodeWidth ∧ p.y < q.y + nodeHeight ∧ q.y < p.y + nodeHeight

section Cards

variable {depths : List ℕ} {depth : ℕ}

theorem lt_layers (h : depth ∈ depths) : depth < layers depths := by
  cases hmax : depths.max? with
  | none => rw [List.max?_eq_none_iff.mp hmax] at h; cases h
  | some deepest =>
    have hle := (List.max?_eq_some_iff.mp hmax).2 depth h
    rw [layers, hmax]
    exact Nat.lt_succ_of_le hle

theorem sizes_spec (depths : List ℕ) : (sizes depths).length = layers depths ∧
    ∀ depth < layers depths, (sizes depths)[depth]? = some (depths.count depth) := by
  have hfold (size : ℕ → ℕ) (sizes : List ℕ)
      (hsizes : ∀ depth < sizes.length, sizes[depth]? = some (size depth)) :
      (depths.foldl (fun sizes depth => sizes.modify depth (· + 1)) sizes).length =
        sizes.length ∧
      ∀ depth < sizes.length,
        (depths.foldl (fun sizes depth => sizes.modify depth (· + 1)) sizes)[depth]? =
          some (size depth + depths.count depth) := by
    induction depths generalizing size sizes with
    | nil => exact ⟨rfl, hsizes⟩
    | cons first rest ih =>
      have hstep := ih (fun depth => size depth + if depth = first then 1 else 0)
        (sizes.modify first (· + 1)) (by
          intro depth hdepth
          rw [List.length_modify] at hdepth
          rw [List.getElem?_modify, hsizes depth hdepth]
          by_cases hsame : first = depth
          · simp [hsame]
          · simp [hsame, Ne.symm hsame])
      rw [List.length_modify] at hstep
      refine ⟨hstep.1, fun depth hdepth => ?_⟩
      rw [List.foldl_cons, hstep.2 depth hdepth, List.count_cons]
      by_cases hsame : first = depth
      · simp [hsame]
        omega
      · simp [hsame, Ne.symm hsame]
  have hzero := hfold (fun _ => 0) (List.replicate (layers depths) 0) (by
    intro depth hdepth
    rw [List.length_replicate] at hdepth
    exact List.getElem?_replicate_of_lt hdepth)
  simpa only [sizes, List.length_replicate, Nat.zero_add] using hzero

theorem size_eq (h : depth ∈ depths) : (sizes depths)[depth]?.getD 0 = depths.count depth := by
  rw [(sizes_spec depths).2 depth (lt_layers h), Option.getD_some]

theorem rowWidth_mono {a b : ℕ} (h : a ≤ b) : rowWidth a ≤ rowWidth b := by
  unfold rowWidth
  have hmul := Nat.mul_le_mul_right (nodeWidth + columnGap) h
  omega

/-- No row is wider than the widest, and the widest is one of them. -/
theorem widest_spec (depths : List ℕ) :
    (∀ depth ∈ depths, rowWidth (depths.count depth) ≤ widest depths) ∧
      widest depths ≤ rowWidth depths.length := by
  obtain ⟨hlength, hsizes⟩ := sizes_spec depths
  cases hmax : (sizes depths).max? with
  | none =>
    have hempty := congrArg List.length (List.max?_eq_none_iff.mp hmax)
    rw [hlength, layers] at hempty
    cases hdeepest : depths.max? with
    | none => rw [hdeepest] at hempty; cases hempty
    | some deepest => rw [hdeepest] at hempty; cases hempty
  | some most =>
    obtain ⟨hmem, hmost⟩ := List.max?_eq_some_iff.mp hmax
    rw [widest, hmax, Option.getD_some]
    constructor
    · intro depth hdepth
      have hsize := hsizes depth (lt_layers hdepth)
      exact rowWidth_mono (hmost _ (List.mem_of_getElem? hsize))
    · obtain ⟨depth, hdepth, hget⟩ := List.getElem_of_mem hmem
      have hsize := hsizes depth (hlength ▸ hdepth)
      rw [List.getElem?_eq_getElem hdepth, Option.some.injEq, hget] at hsize
      rw [hsize]
      exact rowWidth_mono List.count_le_length

/-- The card of a node: its row is centred, and it stands behind the earlier ones of its layer. -/
def card (depths : List ℕ) (index depth : ℕ) : NodePosition :=
  ⟨index, depth, padding + (widest depths - rowWidth (depths.count depth)) / 2 +
    (depths.take index).count depth * (nodeWidth + columnGap),
    padding + depth * (nodeHeight + rowGap)⟩

theorem place_spec {sizes slots rest : List ℕ} {widest index : ℕ} {before : List ℕ}
    (hslots : ∀ depth ∈ rest, slots[depth]? = some (before.count depth))
    (hindex : before.length = index) (i : ℕ) :
    (place sizes widest slots index rest)[i]? = rest[i]?.map fun depth =>
      ⟨index + i, depth, padding + (widest - rowWidth (sizes[depth]?.getD 0)) / 2 +
        ((before ++ rest).take (index + i)).count depth * (nodeWidth + columnGap),
        padding + depth * (nodeHeight + rowGap)⟩ := by
  induction rest generalizing slots index before i with
  | nil => simp [place]
  | cons first rest ih =>
    cases i with
    | zero =>
      have hfirst := hslots first List.mem_cons_self
      simp only [place, List.getElem?_cons_zero, Option.map_some, hfirst, Option.getD_some,
        Nat.add_zero]
      rw [← hindex, List.take_left]
    | succ i =>
      have hnext : ∀ depth ∈ rest,
          (slots.modify first (· + 1))[depth]? = some ((before ++ [first]).count depth) := by
        intro depth hdepth
        rw [List.getElem?_modify, hslots depth (List.mem_cons_of_mem first hdepth),
          List.count_append]
        by_cases hsame : first = depth
        · simp [hsame]
        · simp [hsame]
      have hrest := ih hnext (by rw [List.length_append, List.length_singleton, hindex]) i
      rw [place, List.getElem?_cons_succ, List.getElem?_cons_succ, hrest, List.append_assoc,
        List.singleton_append, Nat.add_right_comm, Nat.add_assoc]

theorem nodes_getElem? (unresolved : Bool) (i : ℕ) :
    (graphLayout depths unresolved).nodes[i]? = depths[i]?.map (card depths i) := by
  have hslots : ∀ depth ∈ depths,
      (List.replicate (layers depths) 0)[depth]? = some (([] : List ℕ).count depth) :=
    fun depth hdepth => List.getElem?_replicate_of_lt (lt_layers hdepth)
  have hplace := @place_spec (sizes depths) _ depths (widest depths) 0 [] hslots rfl i
  rw [graphLayout, hplace]
  cases hdepth : depths[i]? with
  | none => rfl
  | some depth =>
    simp only [Option.map_some, Nat.zero_add, List.nil_append, card,
      size_eq (List.mem_of_getElem? hdepth)]

theorem mem_nodes {unresolved : Bool} {p : NodePosition}
    (h : p ∈ (graphLayout depths unresolved).nodes) :
    ∃ i depth, depths[i]? = some depth ∧ p = card depths i depth := by
  obtain ⟨i, hi⟩ := List.mem_iff_getElem?.mp h
  rw [nodes_getElem?] at hi
  obtain ⟨depth, hdepth, rfl⟩ := Option.map_eq_some_iff.mp hi
  exact ⟨i, depth, hdepth, rfl⟩

theorem count_take_lt {i j : ℕ} (hij : i < j) (hi : depths[i]? = some depth) :
    (depths.take i).count depth < (depths.take j).count depth := by
  have hone : (depths.take (i + 1)).count depth = (depths.take i).count depth + 1 := by
    rw [List.take_add_one, hi, List.count_append]
    simp
  have hle : (depths.take (i + 1)).count depth ≤ (depths.take j).count depth :=
    (List.take_sublist_take_left (Nat.succ_le_of_lt hij)).count_le depth
  omega

theorem count_take_lt_count {i : ℕ} (hi : depths[i]? = some depth) :
    (depths.take i).count depth < depths.count depth := by
  have hnext : i < max (i + 1) depths.length :=
    (Nat.lt_succ_self i).trans_le (Nat.le_max_left _ _)
  have hlt := count_take_lt hnext hi
  rwa [List.take_of_length_le (Nat.le_max_right _ _)] at hlt

theorem card_inside {i : ℕ} (hi : depths[i]? = some depth) (unresolved : Bool) :
    (card depths i depth).x + nodeWidth ≤ (graphLayout depths unresolved).width ∧
      (card depths i depth).y + nodeHeight ≤ (graphLayout depths unresolved).height := by
  have hmem := List.mem_of_getElem? hi
  have hoffset := count_take_lt_count hi
  have hrow := (widest_spec depths).1 depth hmem
  have hlayer := lt_layers hmem
  simp only [card, graphLayout, rowWidth, nodeWidth, nodeHeight, columnGap, rowGap,
    padding] at hrow ⊢
  omega

theorem card_disjoint {i j depth' : ℕ} (hij : i < j) (hi : depths[i]? = some depth) :
    ¬ Overlaps (card depths i depth) (card depths j depth') := by
  rintro ⟨_, hx, hy, hy'⟩
  by_cases hsame : depth = depth'
  · subst hsame
    have hoffset := count_take_lt hij hi
    simp only [card, nodeWidth, columnGap] at hx
    omega
  · simp only [card, nodeHeight, rowGap] at hy hy'
    omega

end Cards

def position (d : WorkflowDefinition) (name : String) : Option ℕ :=
  d.nodes.findIdx? fun node => node.name = name

/-- The edges of a definition between the positions of its nodes, as the preview passes them on. -/
def definitionLinks (d : WorkflowDefinition) : List (ℕ × ℕ) :=
  d.edges.filterMap fun e => do
    let source ← position d e.source
    let target ← position d e.target
    return (source, target)

def nameAt (d : WorkflowDefinition) (i : ℕ) : String := (d.nodes[i]?.map WorkflowNode.name).getD ""

theorem nameAt_position {d : WorkflowDefinition} {name : String} {i : ℕ}
    (h : position d name = some i) : name = nameAt d i := by
  obtain ⟨hlt, hname, _⟩ := List.findIdx?_eq_some_iff_getElem.mp h
  rw [nameAt, List.getElem?_eq_getElem hlt, Option.map_some, of_decide_eq_true hname]
  rfl

theorem definition_edge {d : WorkflowDefinition} {i j : ℕ} :
    Edge (inRange d.nodes.length (definitionLinks d)) i j ↔
      ∃ e ∈ d.edges, position d e.source = some i ∧ position d e.target = some j := by
  rw [edge_inRange, definitionLinks, List.mem_filterMap]
  constructor
  · rintro ⟨⟨e, he, hlink⟩, _⟩
    obtain ⟨source, hsource, hlink⟩ := Option.bind_eq_some_iff.mp hlink
    obtain ⟨target, htarget, hlink⟩ := Option.bind_eq_some_iff.mp hlink
    cases hlink
    exact ⟨e, he, hsource, htarget⟩
  · rintro ⟨e, he, hsource, htarget⟩
    have hlt {name : String} {k : ℕ} (h : position d name = some k) : k < d.nodes.length :=
      (List.findIdx?_eq_some_iff_getElem.mp h).1
    refine ⟨⟨e, he, ?_⟩, hlt hsource, hlt htarget⟩
    rw [hsource, htarget]
    rfl

theorem definition_cycle_iff {d : WorkflowDefinition} (h : WorkflowValidation.WellFormed d) :
    (∃ a, Relation.TransGen (Edge (inRange d.nodes.length (definitionLinks d))) a a) ↔
      ¬ WorkflowValidation.Acyclic d.edges := by
  constructor
  · rintro ⟨a, hcycle⟩ hacyclic
    refine hacyclic _ (hcycle.lift (nameAt d) ?_)
    intro i j hij
    obtain ⟨e, he, hsource, htarget⟩ := definition_edge.mp hij
    exact ⟨e, he, nameAt_position hsource, nameAt_position htarget⟩
  · intro hcyclic
    unfold WorkflowValidation.Acyclic at hcyclic
    push Not at hcyclic
    obtain ⟨name, hcycle⟩ := hcyclic
    refine ⟨(position d name).getD 0, hcycle.lift (fun name => (position d name).getD 0) ?_⟩
    rintro a b ⟨e, he, rfl, rfl⟩
    have hfound {name : String} (hname : ∃ node ∈ d.nodes, node.name = name) :
        position d name = some ((position d name).getD 0) := by
      obtain ⟨node, hnode, hname⟩ := hname
      have hsome : (position d name).isSome := by
        rw [position, List.findIdx?_isSome, List.any_eq_true]
        exact ⟨node, hnode, decide_eq_true hname⟩
      rw [← Option.some_get hsome, Option.getD_some]
    obtain ⟨_, hsource, htarget⟩ := h.endpoints e he
    exact definition_edge.mpr ⟨e, he, hfound hsource, hfound htarget⟩

/-- What the preview promises about the edges in range. -/
structure CorrectLayering (count : ℕ) (edges : List (ℕ × ℕ)) (g : GraphLayout) : Prop where
  unresolved : g.unresolved = true ↔
    ∃ a, Relation.TransGen (Edge (inRange count edges)) a a
  longest : (∀ a, ¬ Relation.TransGen (Edge (inRange count edges)) a a) → ∀ p ∈ g.nodes,
    Longest (Edge (inRange count edges)) p.depth p.index
  downwards : (∀ a, ¬ Relation.TransGen (Edge (inRange count edges)) a a) → ∀ p ∈ g.nodes,
    ∀ q ∈ g.nodes, Edge (inRange count edges) p.index q.index →
      p.depth < q.depth ∧ p.y + nodeHeight < q.y
  positions : g.nodes.map NodePosition.index = List.range count
  disjoint : g.nodes.Pairwise fun p q => ¬ Overlaps p q
  inside : ∀ p ∈ g.nodes, p.x + nodeWidth ≤ g.width ∧ p.y + nodeHeight ≤ g.height
  -- far from where a machine integer would saturate or wrap
  bounded : g.width ≤ 312 * count + 144 ∧ g.height ≤ 224 * count + 272

section Layout

variable {count : ℕ} {edges : List (ℕ × ℕ)} {order : List ℕ} {t : Traversal}

theorem Tracks.finalDepths_length (h : Tracks count edges order t) :
    t.finalDepths.length = count := by
  rw [finalDepths_eq, List.length_map, h.seen_length]

theorem Tracks.order_length (h : Tracks count edges order t) : order.length ≤ count := by
  have hle := h.visiting.length_le
  rw [List.length_range] at hle
  omega

theorem Tracks.seen_lt (h : Tracks count edges order t) {depth : ℕ} (hmem : some depth ∈ t.seen) :
    depth < count := by
  obtain ⟨node, hlt, hget⟩ := List.getElem_of_mem hmem
  have hseen := h.seen_eq (h.seen_length ▸ hlt)
  rw [List.getElem?_eq_getElem hlt, hget, Option.some.injEq] at hseen
  split at hseen
  · rename_i hvisited
    rw [Option.some.inj hseen]
    exact (h.layered.depth_lt hvisited).trans_le h.order_length
  · cases hseen

theorem Tracks.draftDepth_le (h : Tracks count edges order t) : t.draftDepth ≤ count := by
  rw [draftDepth_eq]
  cases hmax : (t.seen.filterMap id).max? with
  | none => exact Nat.zero_le _
  | some deepest =>
    obtain ⟨_, hmem, rfl⟩ := List.mem_filterMap.mp (List.max?_mem hmax)
    exact h.seen_lt hmem

theorem Tracks.layers_le (h : Tracks count edges order t) : layers t.finalDepths ≤ count + 1 := by
  cases hmax : t.finalDepths.max? with
  | none => rw [layers, hmax]; exact Nat.le_add_left 1 count
  | some deepest =>
    rw [layers, hmax]
    have hmem := List.max?_mem hmax
    rw [finalDepths_eq, List.mem_map] at hmem
    obtain ⟨seen, hseen, rfl⟩ := hmem
    cases seen with
    | none => exact Nat.succ_le_succ h.draftDepth_le
    | some depth => exact Nat.succ_le_succ (h.seen_lt hseen).le

/-- Without a cycle every node was visited, and its depth is the longest path into it. -/
theorem Tracks.longest (h : Tracks count edges order t) (hready : t.ready = [])
    (hacyclic : ∀ a, ¬ Relation.TransGen (Edge (inRange count edges)) a a) :
    ∀ p ∈ (graphLayout t.finalDepths t.unresolved).nodes,
      Longest (Edge (inRange count edges)) p.depth p.index := by
  intro p hp
  obtain ⟨i, depth, hdepth, rfl⟩ := mem_nodes hp
  have hi : i < count := by
    rw [← h.finalDepths_length]
    exact (List.getElem?_eq_some_iff.mp hdepth).1
  rw [finalDepths_eq, List.getElem?_map] at hdepth
  obtain ⟨seen, hseen, hvalue⟩ := Option.map_eq_some_iff.mp hdepth
  cases seen with
  | some found =>
    cases hvalue
    exact (h.seen_iff hready hi).mp hseen
  | none =>
    refine absurd (h.unresolved_iff hready) ?_
    rw [h.unresolved_eq, List.any_eq_true.mpr ⟨none, List.mem_of_getElem? hseen, rfl⟩]
    simpa using hacyclic

theorem Tracks.positions (h : Tracks count edges order t) :
    (graphLayout t.finalDepths t.unresolved).nodes.map NodePosition.index = List.range count := by
  apply List.ext_getElem?
  intro i
  rw [List.getElem?_map, nodes_getElem?]
  by_cases hi : i < count
  · have hlt : i < t.finalDepths.length := by rw [h.finalDepths_length]; exact hi
    rw [List.getElem?_range hi, List.getElem?_eq_getElem hlt]
    rfl
  · rw [List.getElem?_eq_none (by rw [h.finalDepths_length]; omega),
      List.getElem?_eq_none (by rw [List.length_range]; omega)]
    rfl

theorem cards_disjoint (depths : List ℕ) (unresolved : Bool) :
    (graphLayout depths unresolved).nodes.Pairwise fun p q => ¬ Overlaps p q := by
  rw [List.pairwise_iff_getElem]
  intro i j hi hj hij
  obtain ⟨depth, hdepth, hp⟩ := Option.map_eq_some_iff.mp
    ((nodes_getElem? unresolved i).symm.trans (List.getElem?_eq_getElem hi))
  obtain ⟨depth', _, hq⟩ := Option.map_eq_some_iff.mp
    ((nodes_getElem? unresolved j).symm.trans (List.getElem?_eq_getElem hj))
  rw [← hp, ← hq]
  exact card_disjoint hij hdepth

theorem Tracks.correct (h : Tracks count edges order t) (hready : t.ready = []) :
    CorrectLayering count edges (graphLayout t.finalDepths t.unresolved) where
  unresolved := h.unresolved_iff hready
  longest := h.longest hready
  downwards := by
    intro hacyclic p hp q hq hpq
    have hstep := (h.longest hready hacyclic q hq).2 _
      ((h.longest hready hacyclic p hp).1.step hpq)
    obtain ⟨i, depth, _, rfl⟩ := mem_nodes hp
    obtain ⟨j, depth', _, rfl⟩ := mem_nodes hq
    simp only [card, nodeHeight, rowGap] at hstep ⊢
    omega
  positions := h.positions
  disjoint := cards_disjoint t.finalDepths t.unresolved
  inside := by
    intro p hp
    obtain ⟨i, depth, hdepth, rfl⟩ := mem_nodes hp
    exact card_inside hdepth t.unresolved
  bounded := by
    have hwidth := (widest_spec t.finalDepths).2
    have hlayers := h.layers_le
    rw [h.finalDepths_length] at hwidth
    simp only [graphLayout, rowWidth, nodeWidth, nodeHeight, columnGap, rowGap,
      padding] at hwidth ⊢
    omega

end Layout

/-- For every draft the loop ends, and the layout is right and the same for every order of the
edges; on a definition that is well formed otherwise it finds a cycle where `validate` does. -/
theorem layered_layout_correct :
    (∀ count edges, ∃ g, CorrectLayering count edges g ∧ ∀ edges' rounds, edges'.Perm edges →
      count ≤ rounds → layeredLayout rounds count edges' = some g) ∧
    ∀ d : WorkflowDefinition, WorkflowValidation.WellFormed d → ∀ rounds, d.nodes.length ≤ rounds →
      ((layeredLayout rounds d.nodes.length (definitionLinks d)).map GraphLayout.unresolved =
        some true ↔ d.validate = .error .cycle) := by
  have hlayout (count : ℕ) (edges : List (ℕ × ℕ)) (rounds : ℕ) (hrounds : count ≤ rounds) :
      ∃ t order, Tracks count edges order t ∧ t.ready = [] ∧
        layeredLayout rounds count edges = some (graphLayout t.finalDepths t.unresolved) := by
    obtain ⟨t, order, ht, hready, htracks⟩ :=
      traverse_tracks (tracks_start count edges) (by simpa using hrounds)
    exact ⟨t, order, htracks, hready, by rw [layeredLayout, ht]; rfl⟩
  constructor
  · intro count edges
    obtain ⟨t, order, htracks, hready, _⟩ := hlayout count edges count le_rfl
    refine ⟨_, htracks.correct hready, fun edges' rounds hperm hrounds => ?_⟩
    obtain ⟨t', order', htracks', hready', heq⟩ := hlayout count edges' rounds hrounds
    have hsame : ∀ a b, Edge (inRange count edges') a b ↔ Edge (inRange count edges) a b := by
      intro a b
      rw [edge_inRange, edge_inRange, hperm.mem_iff]
    have hseen := seen_determined hsame htracks' hready' htracks hready
    rw [heq, finalDepths_eq, finalDepths_eq, draftDepth_eq, draftDepth_eq,
      htracks'.unresolved_eq, htracks.unresolved_eq, hseen]
  · intro d hd rounds hrounds
    obtain ⟨t, order, htracks, hready, heq⟩ := hlayout _ (definitionLinks d) rounds hrounds
    rw [heq, Option.map_some, Option.some.injEq, (htracks.correct hready).unresolved,
      definition_cycle_iff hd, (WorkflowValidation.validate_acyclic_iff hd).2]

theorem layered_layout_correct_demo :
    (layeredLayout 2 2 (definitionLinks WorkflowValidation.demoCycle)).map GraphLayout.unresolved =
      some true :=
  (layered_layout_correct.2 WorkflowValidation.demoCycle
    ⟨by decide, by decide, nofun, by decide, by decide, by decide⟩ 2 (by decide)).mpr
      (by decide +kernel)

end WorkflowLayout
