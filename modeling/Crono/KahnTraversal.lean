import Crono.RankedGraph
import Crono.RecursiveQuery
import Mathlib.Data.List.Count
import Mathlib.Data.List.Perm.Subperm

/-! Kahn's traversal of a finite graph. A vertex is visited when no edge into it is left from an
unvisited one; the vertices it visits are those into which paths have a bounded length, and the
depth counted on the way is the length of the longest. -/
namespace KahnTraversal

open RankedGraph
open RecursiveQuery (Edge)

section Paths

variable {α : Type*} {E : α → α → Prop} {m n : ℕ} {a b : α}

/-- Some path of `n` edges ends in a vertex. -/
inductive PathTo (E : α → α → Prop) : ℕ → α → Prop where
  | start (a : α) : PathTo E 0 a
  | step {n : ℕ} {a b : α} : PathTo E n a → E a b → PathTo E (n + 1) b

/-- No path of more than `n` edges ends in a vertex. -/
def Bounded (E : α → α → Prop) (n : ℕ) (a : α) : Prop := ∀ m, PathTo E m a → m ≤ n

/-- The longest path into a vertex has `n` edges. -/
def Longest (E : α → α → Prop) (n : ℕ) (a : α) : Prop := PathTo E n a ∧ Bounded E n a

theorem Longest.unique (h : Longest E m a) (h' : Longest E n a) : m = n :=
  Nat.le_antisymm (h'.2 m h.1) (h.2 n h'.1)

theorem Bounded.predecessor (h : Bounded E n b) (hab : E a b) : 0 < n ∧ Bounded E (n - 1) a := by
  have hlonger {m : ℕ} (hm : PathTo E m a) : m + 1 ≤ n := h (m + 1) (hm.step hab)
  have hpositive := hlonger (.start a)
  refine ⟨by omega, fun m hm => ?_⟩
  have hle := hlonger hm
  omega

end Paths

variable {α : Type*} [DecidableEq α] {edges : List (α × α)} {vertices visited ready : List α}
  {a b : α}

def remaining (edges : List (α × α)) (visited : List α) (b : α) : ℕ :=
  edges.countP fun e => e.2 = b && decide (e.1 ∉ visited)

def outgoing (edges : List (α × α)) (a : α) : List α :=
  (edges.filter fun e => e.1 = a).map Prod.snd

theorem mem_outgoing : b ∈ outgoing edges a ↔ Edge edges a b := by
  rw [outgoing, List.mem_map]
  constructor
  · rintro ⟨e, he, rfl⟩
    obtain ⟨he, hsource⟩ := List.mem_filter.mp he
    rw [← of_decide_eq_true hsource]
    exact he
  · intro h
    exact ⟨(a, b), List.mem_filter.mpr ⟨h, decide_eq_true rfl⟩, rfl⟩

theorem remaining_eq_zero :
    remaining edges visited b = 0 ↔ ∀ a, Edge edges a b → a ∈ visited := by
  simp only [remaining, List.countP_eq_zero, Bool.and_eq_true, decide_eq_true_eq, not_and,
    not_not]
  constructor
  · intro h a hab
    exact h (a, b) hab rfl
  · rintro h ⟨a, c⟩ he rfl
    exact h a he

theorem remaining_visit (hfresh : a ∉ visited) (b : α) : remaining edges visited b =
    remaining edges (visited ++ [a]) b + (outgoing edges a).count b := by
  induction edges with
  | nil => rfl
  | cons e edges ih =>
    obtain ⟨source, target⟩ := e
    simp only [remaining, outgoing, List.countP_cons, List.filter_cons] at ih ⊢
    by_cases hsource : source = a
    · subst hsource
      simp only [decide_true, if_true, List.map_cons, List.count_cons, List.mem_append,
        List.mem_singleton, or_true, not_true, decide_false, Bool.and_false, Bool.false_eq_true,
        if_false, hfresh, not_false_eq_true, Bool.and_true, decide_eq_true_eq, beq_iff_eq] at ih ⊢
      omega
    · simp only [hsource, decide_false, Bool.false_eq_true, if_false, List.mem_append,
        List.mem_singleton, or_false] at ih ⊢
      omega

/-- The loop invariant: a vertex is visited or ready exactly when nothing is left before it. -/
structure Visiting (edges : List (α × α)) (vertices visited ready : List α) : Prop where
  nodup : (visited ++ ready).Nodup
  released : ∀ b ∈ visited ++ ready, b ∈ vertices ∧ remaining edges visited b = 0
  exhaustive : ∀ b ∈ vertices, remaining edges visited b = 0 → b ∈ visited ++ ready

theorem Visiting.fresh (h : Visiting edges vertices visited (a :: ready)) : a ∉ visited :=
  fun hmem => List.disjoint_of_nodup_append h.nodup hmem List.mem_cons_self

theorem Visiting.predecessor (h : Visiting edges vertices visited ready) (hb : b ∈ visited ++ ready)
    (hab : Edge edges a b) : a ∈ visited :=
  remaining_eq_zero.mp (h.released b hb).2 a hab

theorem Visiting.length_le (h : Visiting edges vertices visited ready) :
    visited.length + ready.length ≤ vertices.length := by
  have hle := (List.subperm_of_subset h.nodup fun b hb => (h.released b hb).1).length_le
  rwa [List.length_append] at hle

/-- One round, with the vertices it releases in some order. -/
theorem Visiting.step (h : Visiting edges vertices visited (a :: ready)) {released : List α}
    (htargets : ∀ e ∈ edges, e.2 ∈ vertices) (hnodup : released.Nodup)
    (hreleased : ∀ b, b ∈ released ↔
      b ∈ outgoing edges a ∧ remaining edges (visited ++ [a]) b = 0) :
    Visiting edges vertices (visited ++ [a]) (ready ++ released) := by
  have hold : ∀ b ∈ visited ++ a :: ready, b ∉ released := by
    intro b hb hmem
    exact h.fresh (h.predecessor hb (mem_outgoing.mp ((hreleased b).mp hmem).1))
  have hsplit : (visited ++ [a]) ++ (ready ++ released) = (visited ++ a :: ready) ++ released := by
    simp
  constructor
  · rw [hsplit, List.nodup_append]
    refine ⟨h.nodup, hnodup, ?_⟩
    rintro b hb _ hmem rfl
    exact hold b hb hmem
  · intro b hb
    rw [hsplit] at hb
    rcases List.mem_append.mp hb with hb | hb
    · obtain ⟨hvertex, hzero⟩ := h.released b hb
      rw [remaining_visit h.fresh] at hzero
      exact ⟨hvertex, Nat.eq_zero_of_add_eq_zero_right hzero⟩
    · obtain ⟨hout, hzero⟩ := (hreleased b).mp hb
      exact ⟨htargets (a, b) (mem_outgoing.mp hout), hzero⟩
  · intro b hb hzero
    rw [hsplit]
    by_cases hout : b ∈ outgoing edges a
    · exact List.mem_append_right _ ((hreleased b).mpr ⟨hout, hzero⟩)
    · refine List.mem_append_left _ (h.exhaustive b hb ?_)
      rw [remaining_visit h.fresh, hzero, List.count_eq_zero.mpr hout]

/-- With an empty queue, what is visited is what paths of a bounded length lead to. -/
theorem Visiting.visited_of_bounded (h : Visiting edges vertices visited [])
    (hsources : ∀ e ∈ edges, e.1 ∈ vertices) (hb : b ∈ vertices) {n : ℕ}
    (hbounded : Bounded (Edge edges) n b) : b ∈ visited := by
  induction n generalizing b with
  | zero =>
    have hzero : remaining edges visited b = 0 :=
      remaining_eq_zero.mpr fun a hab => absurd (hbounded.predecessor hab).1 (lt_irrefl 0)
    simpa using h.exhaustive b hb hzero
  | succ n ih =>
    have hzero : remaining edges visited b = 0 :=
      remaining_eq_zero.mpr fun a hab => ih (hsources _ hab) (hbounded.predecessor hab).2
    simpa using h.exhaustive b hb hzero

theorem Visiting.all_of_acyclic (h : Visiting edges vertices visited [])
    (hsources : ∀ e ∈ edges, e.1 ∈ vertices)
    (hacyclic : ∀ a, ¬ Relation.TransGen (Edge edges) a a) : ∀ b ∈ vertices, b ∈ visited := by
  by_contra hnot
  push Not at hnot
  obtain ⟨b, hb, hleft⟩ := hnot
  have hfinite : {x | x ∈ vertices ∧ x ∉ visited}.Finite :=
    vertices.finite_toSet.subset fun x hx => hx.1
  obtain ⟨first, ⟨hfirst, hunvisited⟩, hmin⟩ :=
    exists_minimal_of_acyclic hacyclic hfinite ⟨b, hb, hleft⟩
  have hzero : remaining edges visited first = 0 := by
    rw [remaining_eq_zero]
    intro a ha
    by_contra hbefore
    exact hmin a ⟨hsources _ ha, hbefore⟩ ha
  have hmem := h.exhaustive first hfirst hzero
  rw [List.append_nil] at hmem
  exact hunvisited hmem

/-- The depths counted so far: one more than the deepest visited predecessor. -/
structure Layered (edges : List (α × α)) (visited : List α) (depth : α → ℕ) : Prop where
  below : ∀ a ∈ visited, ∀ b, Edge edges a b → depth a < depth b
  reached : ∀ b, depth b = 0 ∨ ∃ a ∈ visited, Edge edges a b ∧ depth b = depth a + 1

variable {depth depth' : α → ℕ}

/-- One round raises the depths behind the visited vertex and no visited one's. -/
theorem Layered.visit (h : Layered edges visited depth)
    (hv : Visiting edges vertices visited (a :: ready))
    (hdepth : ∀ b, depth' b = if b ∈ outgoing edges a then max (depth b) (depth a + 1)
      else depth b) : Layered edges (visited ++ [a]) depth' := by
  have hkept : ∀ b ∈ visited ++ [a], depth' b = depth b := by
    intro b hb
    have hb : b ∈ visited ++ a :: ready := by
      rw [← List.singleton_append, ← List.append_assoc]
      exact List.mem_append_left _ hb
    rw [hdepth, if_neg]
    exact fun hout => hv.fresh (hv.predecessor hb (mem_outgoing.mp hout))
  have hgrown (b : α) : depth b ≤ depth' b := by
    rw [hdepth]
    split
    · exact Nat.le_max_left _ _
    · exact Nat.le_refl _
  have hself := hkept a (by simp)
  constructor
  · intro c hc b hcb
    rw [hkept c hc]
    rcases List.mem_append.mp hc with hc | hc
    · exact (h.below c hc b hcb).trans_le (hgrown b)
    · rw [List.mem_singleton.mp hc] at hcb ⊢
      rw [hdepth, if_pos (mem_outgoing.mpr hcb)]
      exact Nat.le_max_right _ _
  · intro b
    have hbefore : depth' b = depth b →
        depth' b = 0 ∨ ∃ c ∈ visited ++ [a], Edge edges c b ∧ depth' b = depth' c + 1 := by
      intro hsame
      rcases h.reached b with hzero | ⟨c, hc, hcb, hone⟩
      · exact .inl (hsame.trans hzero)
      · have hc := List.mem_append_left [a] hc
        exact .inr ⟨c, hc, hcb, by rw [hsame, hone, hkept c hc]⟩
    by_cases hout : b ∈ outgoing edges a
    · rcases Nat.le_total (depth a + 1) (depth b) with hle | hle
      · exact hbefore (by rw [hdepth, if_pos hout, Nat.max_eq_left hle])
      · refine .inr ⟨a, by simp, mem_outgoing.mp hout, ?_⟩
        rw [hself, hdepth, if_pos hout, Nat.max_eq_right hle]
    · exact hbefore (by rw [hdepth, if_neg hout])

theorem Layered.longest (h : Layered edges visited depth)
    (hv : Visiting edges vertices visited ready) (hb : b ∈ visited) :
    Longest (Edge edges) (depth b) b := by
  have hbefore {a b : α} (hb : b ∈ visited) (hab : Edge edges a b) : a ∈ visited :=
    hv.predecessor (List.mem_append_left _ hb) hab
  constructor
  · obtain ⟨n, hn⟩ : ∃ n, depth b = n := ⟨_, rfl⟩
    induction n generalizing b with
    | zero =>
      rw [hn]
      exact .start b
    | succ n ih =>
      rcases h.reached b with hzero | ⟨a, ha, hab, hone⟩
      · omega
      · rw [hone]
        exact (ih ha (by omega)).step hab
  · intro m hm
    induction hm with
    | start => exact Nat.zero_le _
    | step _ hab ih =>
      have hlt := h.below _ (hbefore hb hab) _ hab
      have hle := ih (hbefore hb hab)
      omega

omit [DecidableEq α] in
/-- Below a visited vertex every depth is taken, so that depths stay below the number of visits. -/
theorem Layered.depth_lt (h : Layered edges visited depth) (hb : b ∈ visited) :
    depth b < visited.length := by
  have htaken (n : ℕ) : ∀ c ∈ visited, depth c = n → ∀ k ≤ n, k ∈ visited.map depth := by
    induction n with
    | zero =>
      intro c hc hzero k hk
      exact List.mem_map.mpr ⟨c, hc, by omega⟩
    | succ n ih =>
      intro c hc hdepth k hk
      by_cases hlast : k = n + 1
      · exact List.mem_map.mpr ⟨c, hc, by omega⟩
      · rcases h.reached c with hzero | ⟨a, ha, _, hone⟩
        · omega
        · exact ih a ha (by omega) k (by omega)
  have hsubset : List.range (depth b + 1) ⊆ visited.map depth := by
    intro k hk
    exact htaken (depth b) b hb rfl k (Nat.le_of_lt_succ (List.mem_range.mp hk))
  have hle := (List.subperm_of_subset List.nodup_range hsubset).length_le
  rwa [List.length_range, List.length_map] at hle

end KahnTraversal
