import Mathlib.Data.List.Nodup
import Mathlib.Logic.Relation
import Mathlib.Order.WellFoundedSet

/-! Directed graphs whose edges go up in rank. A visiting order in which every vertex comes
after its predecessors gives such a rank; a rank gives minimal vertices and makes a rule that
looks only at predecessors have exactly one solution. -/
namespace RankedGraph

variable {α β : Type*} {E : α → α → Prop}

/-- Every edge goes up in rank, so there is no cycle. -/
def Ranked (E : α → α → Prop) : Prop := ∃ rank : α → ℕ, ∀ a b, E a b → rank a < rank b

theorem Ranked.wellFounded (h : Ranked E) : WellFounded E := by
  obtain ⟨rank, hrank⟩ := h
  exact Subrelation.wf (fun {a b} hab => hrank a b hab) (measure rank).wf

/-- A property that holds somewhere holds at a vertex none of whose predecessors has it. -/
theorem Ranked.exists_minimal (h : Ranked E) {P : α → Prop} {a : α} (ha : P a) :
    ∃ b, P b ∧ ∀ c, E c b → ¬ P c := by
  obtain ⟨b, hb, hmin⟩ := h.wellFounded.has_min { x | P x } ⟨a, ha⟩
  exact ⟨b, hb, fun c hcb hc => hmin c hc hcb⟩

theorem Ranked.acyclic (h : Ranked E) (a : α) : ¬ Relation.TransGen E a a := by
  obtain ⟨rank, hrank⟩ := h
  have hup {a b : α} (hpath : Relation.TransGen E a b) : rank a < rank b := by
    induction hpath with
    | single hab => exact hrank _ _ hab
    | tail _ hbc ih => exact ih.trans (hrank _ _ hbc)
  exact fun hcycle => absurd (hup hcycle) (lt_irrefl _)

theorem exists_minimal_of_acyclic (hacyclic : ∀ a, ¬ Relation.TransGen E a a) {s : Set α}
    (hs : s.Finite) (hne : s.Nonempty) : ∃ b ∈ s, ∀ c ∈ s, ¬ E c b := by
  have hirrefl : Std.Irrefl (Relation.TransGen E) := ⟨hacyclic⟩
  have hstrict : IsStrictOrder α (Relation.TransGen E) := {}
  have hfounded : s.WellFoundedOn (Relation.TransGen E) := hs.wellFoundedOn
  obtain ⟨b, hb, hmin⟩ := (Set.wellFoundedOn_iff.mp hfounded).has_min s hne
  exact ⟨b, hb, fun c hc hcb => hmin c hc ⟨.single hcb, hc, hb⟩⟩

/-- The rule at a vertex depends on the values at its predecessors only. -/
def Local (E : α → α → Prop) (rule : α → (α → β) → β) : Prop :=
  ∀ a f g, (∀ b, E b a → f b = g b) → rule a f = rule a g

/-- The values at the vertices of `V` follow the rule. -/
def Solves (rule : α → (α → β) → β) (V : α → Prop) (f : α → β) : Prop :=
  ∀ a, V a → f a = rule a f

theorem Solves.unique (hE : Ranked E) {rule : α → (α → β) → β} (hrule : Local E rule)
    {V : α → Prop} (hV : ∀ a b, E a b → V b → V a) {f g : α → β} (hf : Solves rule V f)
    (hg : Solves rule V g) {a : α} (ha : V a) : f a = g a := by
  induction a using hE.wellFounded.induction with
  | _ a ih =>
    rw [hf a ha, hg a ha]
    apply hrule
    intro b hb
    exact ih b hb (hV b a hb ha)

theorem Ranked.exists_solution [Inhabited β] (hE : Ranked E) {rule : α → (α → β) → β}
    (hrule : Local E rule) : ∃ f, ∀ a, f a = rule a f := by
  classical
  let step (a : α) (values : ∀ b, E b a → β) : β :=
    rule a fun b => if hb : E b a then values b hb else default
  refine ⟨hE.wellFounded.fix step, ?_⟩
  intro a
  rw [WellFounded.fix_eq]
  apply hrule
  intro b hb
  simp only [hb, dite_true]

/-- Vertices in an order in which predecessors come first. -/
inductive Ordered (E : α → α → Prop) : List α → Prop where
  | nil : Ordered E []
  | snoc {visited x} : Ordered E visited → x ∉ visited → (∀ a, E a x → a ∈ visited) →
      Ordered E (visited ++ [x])

theorem Ordered.nodup {visited : List α} (h : Ordered E visited) : visited.Nodup := by
  induction h with
  | nil => exact List.nodup_nil
  | snoc _ hfresh _ ih =>
    rw [List.nodup_append]
    refine ⟨ih, List.nodup_singleton _, ?_⟩
    intro a ha b hb hab
    rw [List.mem_singleton.mp hb] at hab
    exact hfresh (hab ▸ ha)

theorem Ordered.idxOf_lt [DecidableEq α] {visited : List α} (h : Ordered E visited) {a b : α}
    (hab : E a b) (hb : b ∈ visited) : visited.idxOf a < visited.idxOf b := by
  induction h with
  | nil => cases hb
  | snoc _ hfresh hbefore ih =>
    rename_i visited x _
    rcases List.mem_append.mp hb with hmem | hx
    · have hlt := ih hmem
      have ha : a ∈ visited := List.idxOf_lt_length_iff.mp
        (hlt.trans (List.idxOf_lt_length_iff.mpr hmem))
      rw [List.idxOf_append_of_mem ha, List.idxOf_append_of_mem hmem]
      exact hlt
    · obtain rfl := List.mem_singleton.mp hx
      have ha := hbefore a hab
      rw [List.idxOf_append_of_mem ha, List.idxOf_append_of_notMem hfresh]
      have hlt := List.idxOf_lt_length_iff.mpr ha
      omega

theorem Ordered.ranked [DecidableEq α] {visited : List α} (h : Ordered E visited)
    (hall : ∀ a b, E a b → b ∈ visited) : Ranked E :=
  ⟨visited.idxOf, fun a b hab => h.idxOf_lt hab (hall a b hab)⟩

end RankedGraph
