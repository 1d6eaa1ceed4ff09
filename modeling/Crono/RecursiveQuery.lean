import Mathlib.Data.Finset.Card
import Mathlib.Data.List.Dedup
import Mathlib.Logic.Function.Iterate
import Mathlib.Logic.Relation

/-! A `WITH RECURSIVE .. UNION` query over the edges of a graph, evaluated round by round. The pairs
from one origin grow in every round until they are closed, and there are no more destinations than
edges: as many rounds as edges compute the transitive closure. -/
namespace RecursiveQuery

variable {α : Type*} [DecidableEq α] {edges : List (α × α)}

/-- One round: the pairs so far, and those an edge extends them to. -/
def round (edges reach : List (α × α)) : List (α × α) :=
  (reach ++ reach.flatMap fun r => (edges.filter fun e => e.1 = r.2).map fun e => (r.1, e.2)).dedup

/-- The pairs after some rounds. -/
def rounds (edges : List (α × α)) (n : ℕ) : List (α × α) := (round edges)^[n] edges.dedup

def Edge (edges : List (α × α)) (a b : α) : Prop := (a, b) ∈ edges

theorem mem_round {reach : List (α × α)} {a b : α} :
    (a, b) ∈ round edges reach ↔ (a, b) ∈ reach ∨ ∃ c, (a, c) ∈ reach ∧ Edge edges c b := by
  simp only [round, List.mem_dedup, List.mem_append, List.mem_flatMap, List.mem_map,
    List.mem_filter, decide_eq_true_eq, Edge]
  constructor
  · rintro (h | ⟨⟨a', c⟩, hr, ⟨c', b'⟩, ⟨he, hc⟩, heq⟩)
    · exact .inl h
    · change c' = c at hc
      cases heq
      exact .inr ⟨c, hr, hc ▸ he⟩
  · rintro (h | ⟨c, hr, he⟩)
    · exact .inl h
    · exact .inr ⟨(a, c), hr, (c, b), ⟨he, rfl⟩, rfl⟩

theorem mem_rounds_zero {a b : α} : (a, b) ∈ rounds edges 0 ↔ Edge edges a b := List.mem_dedup

theorem mem_rounds_succ {n : ℕ} {a b : α} :
    (a, b) ∈ rounds edges (n + 1) ↔
      (a, b) ∈ rounds edges n ∨ ∃ c, (a, c) ∈ rounds edges n ∧ Edge edges c b := by
  rw [rounds, Function.iterate_succ_apply', mem_round]
  rfl

theorem rounds_path {n : ℕ} {a b : α} (h : (a, b) ∈ rounds edges n) :
    Relation.TransGen (Edge edges) a b := by
  induction n generalizing b with
  | zero => exact .single (mem_rounds_zero.mp h)
  | succ n ih =>
    rcases mem_rounds_succ.mp h with h | ⟨c, h, he⟩
    · exact ih h
    · exact (ih h).tail he

def found (edges : List (α × α)) (n : ℕ) (a : α) : Finset α :=
  ((edges.map Prod.snd).toFinset).filter fun b => (a, b) ∈ rounds edges n

theorem mem_found {n : ℕ} {a b : α} : b ∈ found edges n a ↔ (a, b) ∈ rounds edges n := by
  rw [found, Finset.mem_filter, and_iff_right_iff_imp]
  intro h
  obtain ⟨c, _, hlast⟩ := Relation.TransGen.tail'_iff.mp (rounds_path h)
  exact List.mem_toFinset.mpr (List.mem_map.mpr ⟨(c, b), hlast, rfl⟩)

/-- A round adds a destination, unless the last one did not either. -/
theorem found_grows (edges : List (α × α)) (a : α) (n : ℕ) :
    found edges (n + 1) a ⊆ found edges n a ∨ n < (found edges (n + 1) a).card := by
  have hmono (n : ℕ) : found edges n a ⊆ found edges (n + 1) a := by
    intro b hb
    exact mem_found.mpr (mem_rounds_succ.mpr (.inl (mem_found.mp hb)))
  have hstrict {n : ℕ} (h : ¬ found edges (n + 1) a ⊆ found edges n a) :
      (found edges n a).card < (found edges (n + 1) a).card :=
    Finset.card_lt_card ⟨hmono n, h⟩
  induction n with
  | zero =>
    by_cases hclosed : found edges 1 a ⊆ found edges 0 a
    · exact .inl hclosed
    · exact .inr (Nat.zero_lt_of_lt (hstrict hclosed))
  | succ n ih =>
    by_cases hclosed : found edges (n + 2) a ⊆ found edges (n + 1) a
    · exact .inl hclosed
    · right
      rcases ih with hbefore | hcard
      · -- nothing new to extend, so nothing new is found
        refine absurd ?_ hclosed
        intro b hb
        rcases mem_rounds_succ.mp (mem_found.mp hb) with hb | ⟨c, hc, he⟩
        · exact mem_found.mpr hb
        · have hold := mem_found.mp (hbefore (mem_found.mpr hc))
          exact mem_found.mpr (mem_rounds_succ.mpr (.inr ⟨c, hold, he⟩))
      · have hlt := hstrict hclosed
        omega

theorem found_closed (edges : List (α × α)) (a : α) :
    found edges (edges.length + 1) a ⊆ found edges edges.length a := by
  rcases found_grows edges a edges.length with hclosed | hcard
  · exact hclosed
  · have hle : (found edges (edges.length + 1) a).card ≤ edges.length := by
      calc (found edges (edges.length + 1) a).card
          ≤ (edges.map Prod.snd).toFinset.card := Finset.card_filter_le _ _
        _ ≤ (edges.map Prod.snd).length := List.toFinset_card_le _
        _ = edges.length := List.length_map _
    omega

theorem mem_rounds_length {a b : α} :
    (a, b) ∈ rounds edges edges.length ↔ Relation.TransGen (Edge edges) a b := by
  have hbase : ∀ n c, Edge edges a c → (a, c) ∈ rounds edges n := by
    intro n c he
    induction n with
    | zero => exact mem_rounds_zero.mpr he
    | succ n ih => exact mem_rounds_succ.mpr (.inl ih)
  constructor
  · exact rounds_path
  · intro h
    induction h with
    | single he => exact hbase _ _ he
    | tail _ he ih =>
      have hnext := mem_rounds_succ.mpr (.inr ⟨_, ih, he⟩)
      exact mem_found.mp (found_closed edges a (mem_found.mpr hnext))

end RecursiveQuery
