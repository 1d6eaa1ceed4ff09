import Mathlib.Data.List.Forall2

/-! Computations that may fail: what a success says of the checks and steps before it, and what a
successful traversal of a list says of each item and of each result. -/
namespace FallibleLists

theorem ok_of_bind {ε α β : Type} {x : Except ε α} {f : α → Except ε β} {b : β}
    (h : (x >>= f) = .ok b) : ∃ a, x = .ok a ∧ f a = .ok b := by
  cases x with
  | error e => cases h
  | ok a => exact ⟨a, rfl, h⟩

/-- What follows a check that passed. -/
theorem of_check {ε α : Type} {p : Prop} [Decidable p] {e : ε} {x : Except ε α} {a : α}
    (h : (if p then .error e else x) = .ok a) : ¬ p ∧ x = .ok a := by
  by_cases hp : p
  · rw [if_pos hp] at h
    cases h
  · rw [if_neg hp] at h
    exact ⟨hp, h⟩

theorem forall₂_of_mem {α β : Type} {R : α → β → Prop} {xs : List α} {ys : List β}
    (h : List.Forall₂ R xs ys) {x : α} (hx : x ∈ xs) : ∃ y ∈ ys, R x y := by
  induction h with
  | nil => cases hx
  | cons hhead _ ih =>
    rcases List.mem_cons.mp hx with rfl | hx
    · exact ⟨_, List.mem_cons_self, hhead⟩
    · obtain ⟨y, hy, hrel⟩ := ih hx
      exact ⟨y, List.mem_cons_of_mem _ hy, hrel⟩

theorem forall₂_congr_mem {α β : Type} {R S : α → β → Prop} {xs : List α} {ys : List β}
    (h : ∀ x ∈ xs, ∀ y, R x y ↔ S x y) : List.Forall₂ R xs ys ↔ List.Forall₂ S xs ys := by
  rw [List.forall₂_iff_zip, List.forall₂_iff_zip]
  refine and_congr_right fun _ => ?_
  exact ⟨fun hall x y hmem => (h x (List.of_mem_zip hmem).1 y).mp (hall hmem),
    fun hall x y hmem => (h x (List.of_mem_zip hmem).1 y).mpr (hall hmem)⟩

section Except

variable {α β γ ε : Type} {f : α → Except ε β} {xs : List α} {ys : List β}

theorem mapM_ok_iff : xs.mapM f = .ok ys ↔ List.Forall₂ (fun x y => f x = .ok y) xs ys := by
  induction xs generalizing ys with
  | nil => simp [pure, Except.pure, eq_comm]
  | cons x rest ih =>
    rw [List.mapM_cons, List.forall₂_cons_left_iff]
    constructor
    · intro h
      obtain ⟨y, hy, h⟩ := ok_of_bind h
      obtain ⟨ys', hys, h⟩ := ok_of_bind h
      cases h
      exact ⟨y, ys', hy, ih.mp hys, rfl⟩
    · rintro ⟨y, ys', hy, hys, rfl⟩
      rw [hy, ih.mpr hys]
      rfl

theorem mapM_ok_result (h : xs.mapM f = .ok ys) {x : α} (hx : x ∈ xs) :
    ∃ y ∈ ys, f x = .ok y := forall₂_of_mem (mapM_ok_iff.mp h) hx

theorem mapM_ok_mem (h : xs.mapM f = .ok ys) {y : β} (hy : y ∈ ys) : ∃ x ∈ xs, f x = .ok y :=
  forall₂_of_mem (mapM_ok_iff.mp h).flip hy

theorem mapM_error {e : ε} (h : xs.mapM f = .error e) : ∃ x ∈ xs, f x = .error e := by
  induction xs with
  | nil => cases h
  | cons x rest ih =>
    rw [List.mapM_cons] at h
    cases hx : f x with
    | error e' =>
      rw [hx] at h
      cases h
      exact ⟨x, List.mem_cons_self, hx⟩
    | ok y =>
      rw [hx] at h
      cases hrest : rest.mapM f with
      | ok ys => simp [hrest, bind, Except.bind, pure, Except.pure] at h
      | error e' =>
        simp only [hrest, bind, Except.bind, Except.error.injEq] at h
        obtain ⟨x', hx', hfail⟩ := ih (h ▸ hrest)
        exact ⟨x', List.mem_cons_of_mem _ hx', hfail⟩

theorem mapM_succeeds_iff : (∃ ys, xs.mapM f = .ok ys) ↔ ∀ x ∈ xs, ∃ y, f x = .ok y := by
  constructor
  · rintro ⟨ys, h⟩ x hx
    obtain ⟨y, _, hy⟩ := mapM_ok_result h hx
    exact ⟨y, hy⟩
  · intro h
    cases hall : xs.mapM f with
    | ok ys => exact ⟨ys, rfl⟩
    | error e =>
      obtain ⟨x, hx, hfail⟩ := mapM_error hall
      obtain ⟨y, hy⟩ := h x hx
      rw [hy] at hfail
      cases hfail

theorem mapM_congr {g : α → Except ε β} (h : ∀ x ∈ xs, f x = g x) : xs.mapM f = xs.mapM g := by
  induction xs with
  | nil => rfl
  | cons x xs ih =>
    rw [List.mapM_cons, List.mapM_cons, h x List.mem_cons_self,
      ih fun y hy => h y (List.mem_cons_of_mem x hy)]

theorem mapM_map_ok {g : γ → α} {k : γ → β} {zs : List γ} (h : ∀ z ∈ zs, f (g z) = .ok (k z)) :
    (zs.map g).mapM f = .ok (zs.map k) := by
  rw [mapM_ok_iff, List.forall₂_map_left_iff, List.forall₂_map_right_iff, List.forall₂_same]
  exact h

theorem forM_ok_iff {g : α → Except ε Unit} {xs : List α} :
    xs.forM g = .ok () ↔ ∀ x ∈ xs, g x = .ok () := by
  induction xs with
  | nil => simp [pure, Except.pure]
  | cons x rest ih =>
    rw [List.forM_eq_forM, List.forM_cons, List.forall_mem_cons, ← ih]
    constructor
    · intro h
      obtain ⟨_, hx, hrest⟩ := ok_of_bind h
      exact ⟨hx, hrest⟩
    · rintro ⟨hx, hrest⟩
      rw [hx]
      exact hrest

end Except

section Option

variable {α β γ : Type} {f : α → Option β} {xs : List α} {ys : List β}

theorem mapM_map_some {g : γ → α} {k : γ → β} {zs : List γ} (h : ∀ z ∈ zs, f (g z) = some (k z)) :
    (zs.map g).mapM f = some (zs.map k) := by
  induction zs with
  | nil => rfl
  | cons z zs ih =>
    have hrest := ih fun y hy => h y (List.mem_cons_of_mem z hy)
    simp [List.mapM_cons, h z List.mem_cons_self, hrest]

theorem mapM_some_mem (h : xs.mapM f = some ys) :
    ys.length = xs.length ∧ ∀ x ∈ xs, ∃ y ∈ ys, f x = some y := by
  induction xs generalizing ys with
  | nil =>
    cases h
    exact ⟨rfl, fun x hx => absurd hx List.not_mem_nil⟩
  | cons x xs ih =>
    simp only [List.mapM_cons, Option.pure_def, Option.bind_eq_bind,
      Option.bind_eq_some_iff] at h
    obtain ⟨y, hy, ys', hys, hcons⟩ := h
    cases hcons
    obtain ⟨hlength, hmem⟩ := ih hys
    refine ⟨by simp [hlength], ?_⟩
    intro z hz
    rcases List.mem_cons.mp hz with rfl | hz
    · exact ⟨y, List.mem_cons_self, hy⟩
    · obtain ⟨w, hw, hzw⟩ := hmem z hz
      exact ⟨w, List.mem_cons_of_mem y hw, hzw⟩

end Option

end FallibleLists
