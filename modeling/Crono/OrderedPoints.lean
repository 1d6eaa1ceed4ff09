import Mathlib.Data.Finset.Sort
import Mathlib.Order.Interval.Finset.Basic

/-! The points of a set in an interval of a locally finite order, as an increasing list. A
function that answers with the least point after its argument walks through that list. -/
namespace OrderedPoints

section Next

variable {α : Type*} [LinearOrder α] {G : Set α} {n : α}

/-- The least point after `t`. -/
abbrev Next (G : Set α) (t n : α) : Prop := IsLeast {g | g ∈ G ∧ t < g} n

theorem Next.le_of_lt {t g : α} (hn : Next G t n) (hg : g ∈ G) (hlt : g < n) : g ≤ t := by
  by_contra hafter
  exact absurd (hn.2 ⟨hg, not_le.mp hafter⟩) (not_le.mpr hlt)

end Next

variable {α : Type*} [LinearOrder α] [LocallyFiniteOrder α]

open scoped Classical in
/-- The points from `a` to `b`, in order. -/
noncomputable def points (G : Set α) (a b : α) : List α :=
  ((Finset.Icc a b).filter (· ∈ G)).sort (· ≤ ·)

variable {G : Set α} {a b n x : α}

@[simp] theorem mem_points : x ∈ points G a b ↔ x ∈ G ∧ a ≤ x ∧ x ≤ b := by
  simp only [points, Finset.mem_sort, Finset.mem_filter, Finset.mem_Icc]
  exact and_comm

theorem points_increasing (G : Set α) (a b : α) : (points G a b).Pairwise (· < ·) :=
  Finset.sortedLT_sort _ |>.pairwise

theorem eq_points {l : List α} (hl : l.Pairwise (· < ·))
    (hmem : ∀ x, x ∈ l ↔ x ∈ G ∧ a ≤ x ∧ x ≤ b) : l = points G a b := by
  have hperm : l.Perm (points G a b) := by
    rw [List.perm_ext_iff_of_nodup hl.nodup (points_increasing G a b).nodup]
    intro x
    rw [hmem, mem_points]
  exact hperm.eq_of_pairwise (fun _ _ _ _ h k => absurd h (lt_asymm k)) hl (points_increasing G a b)

theorem points_eq_nil (h : b < a) : points G a b = [] := by
  rw [List.eq_nil_iff_forall_not_mem]
  intro x hx
  obtain ⟨_, hax, hxb⟩ := mem_points.mp hx
  exact absurd (hax.trans hxb) (not_le.mpr h)

theorem points_cons (ha : a ∈ G) (hb : a ≤ b) (hn : Next G a n) :
    points G a b = a :: points G n b := by
  symm
  apply eq_points
  · rw [List.pairwise_cons]
    refine ⟨?_, points_increasing G n b⟩
    intro x hx
    exact hn.1.2.trans_le (mem_points.mp hx).2.1
  · intro x
    rw [List.mem_cons, mem_points]
    constructor
    · rintro (rfl | ⟨hx, hnx, hxb⟩)
      · exact ⟨ha, le_rfl, hb⟩
      · exact ⟨hx, hn.1.2.le.trans hnx, hxb⟩
    · rintro ⟨hx, hax, hxb⟩
      rcases hax.eq_or_lt with rfl | hlt
      · exact .inl rfl
      · exact .inr ⟨hx, hn.2 ⟨hx, hlt⟩, hxb⟩

theorem points_next (hn : Next G a n) (hmem : a ∉ G) : points G a b = points G n b := by
  symm
  apply eq_points (points_increasing G n b)
  intro x
  rw [mem_points]
  constructor
  · rintro ⟨hx, hnx, hxb⟩
    exact ⟨hx, hn.1.2.le.trans hnx, hxb⟩
  · rintro ⟨hx, hax, hxb⟩
    have hne : a ≠ x := fun h => hmem (h ▸ hx)
    exact ⟨hx, hn.2 ⟨hx, hax.lt_of_ne hne⟩, hxb⟩

end OrderedPoints
