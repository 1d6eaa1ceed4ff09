import Mathlib.Data.List.Pairwise
import Mathlib.Order.Lattice
import Mathlib.Data.List.Perm.Basic
import Mathlib.Tactic.Tauto

/-! Maps ordered by their keys, as the list of their entries in increasing key order. Two
maps with the same lookups are equal, so an ordered map is a normal form. -/

structure OrderedMap (κ ν : Type*) [LinearOrder κ] where
  entries : List (κ × ν)
  sorted : entries.Pairwise fun a b => a.1 < b.1
  deriving DecidableEq

namespace OrderedMap

variable {κ ν : Type*} [LinearOrder κ]

def empty : OrderedMap κ ν := ⟨[], .nil⟩

def get (m : OrderedMap κ ν) (k : κ) : Option ν :=
  (m.entries.find? fun e => e.1 = k).map Prod.snd

def alterEntries (k : κ) (f : Option ν → ν) : List (κ × ν) → List (κ × ν)
  | [] => [(k, f none)]
  | e :: rest =>
    if k < e.1 then (k, f none) :: e :: rest
    else if e.1 = k then (k, f (some e.2)) :: rest
    else e :: alterEntries k f rest

theorem mem_alterEntries {k : κ} {f : Option ν → ν} {rows : List (κ × ν)} {e : κ × ν}
    (h : e ∈ alterEntries k f rows) : e.1 = k ∨ e ∈ rows := by
  induction rows with
  | nil =>
    rw [alterEntries, List.mem_singleton] at h
    exact .inl (by rw [h])
  | cons e' rest ih =>
    unfold alterEntries at h
    split at h
    · rcases List.mem_cons.mp h with h | h
      · exact .inl (by rw [h])
      · exact .inr h
    split at h
    · rcases List.mem_cons.mp h with h | h
      · exact .inl (by rw [h])
      · exact .inr (List.mem_cons_of_mem e' h)
    · rcases List.mem_cons.mp h with h | h
      · exact .inr (by rw [h]; exact List.mem_cons_self)
      · rcases ih h with hk | hmem
        · exact .inl hk
        · exact .inr (List.mem_cons_of_mem e' hmem)

theorem alterEntries_sorted {k : κ} {f : Option ν → ν} {rows : List (κ × ν)}
    (h : rows.Pairwise fun a b => a.1 < b.1) :
    (alterEntries k f rows).Pairwise fun a b => a.1 < b.1 := by
  induction rows with
  | nil => exact List.pairwise_singleton _ _
  | cons e rest ih =>
    obtain ⟨hfirst, hrest⟩ := List.pairwise_cons.mp h
    unfold alterEntries
    split
    · rename_i hlt
      refine List.pairwise_cons.mpr ⟨?_, h⟩
      intro b hb
      rcases List.mem_cons.mp hb with rfl | hb
      · exact hlt
      · exact hlt.trans (hfirst b hb)
    split
    · rename_i heq
      refine List.pairwise_cons.mpr ⟨?_, hrest⟩
      intro b hb
      rw [← heq]
      exact hfirst b hb
    · rename_i hnlt hne
      refine List.pairwise_cons.mpr ⟨?_, ih hrest⟩
      intro b hb
      rcases mem_alterEntries hb with hk | hb
      · rw [hk]
        exact lt_of_le_of_ne (not_lt.mp hnlt) hne
      · exact hfirst b hb

theorem alterEntries_last {k : κ} {f : Option ν → ν} {rows : List (κ × ν)}
    (h : ∀ e ∈ rows, e.1 < k) : alterEntries k f rows = rows ++ [(k, f none)] := by
  induction rows with
  | nil => rfl
  | cons e rest ih =>
    have hlt := h e List.mem_cons_self
    unfold alterEntries
    rw [if_neg (not_lt_of_gt hlt), if_neg (ne_of_lt hlt),
      ih fun x hx => h x (List.mem_cons_of_mem e hx), List.cons_append]

/-- `entry(k)` of an ordered map: its value becomes `f` of the value it had, if any. -/
def alter (m : OrderedMap κ ν) (k : κ) (f : Option ν → ν) : OrderedMap κ ν :=
  ⟨alterEntries k f m.entries, alterEntries_sorted m.sorted⟩

@[simp] theorem get_empty (k : κ) : (empty : OrderedMap κ ν).get k = none := rfl

theorem find_alterEntries {k : κ} {f : Option ν → ν} {rows : List (κ × ν)}
    (h : rows.Pairwise fun a b => a.1 < b.1) (k' : κ) :
    ((alterEntries k f rows).find? fun e => e.1 = k').map Prod.snd =
      if k' = k then some (f ((rows.find? fun e => e.1 = k).map Prod.snd))
      else (rows.find? fun e => e.1 = k').map Prod.snd := by
  induction rows with
  | nil =>
    by_cases hk : k' = k
    · simp [alterEntries, hk]
    · simp [alterEntries, hk, Ne.symm hk]
  | cons e rest ih =>
    obtain ⟨hfirst, hrest⟩ := List.pairwise_cons.mp h
    unfold alterEntries
    split
    · rename_i hlt
      -- the key is smaller than every key of the map
      have hnone : (e :: rest).find? (fun x => x.1 = k) = none := by
        rw [List.find?_eq_none]
        intro x hx
        rcases List.mem_cons.mp hx with rfl | hx
        · simp [ne_of_gt hlt]
        · simp [ne_of_gt (hlt.trans (hfirst x hx))]
      by_cases hk : k' = k
      · rw [hk, hnone]
        simp
      · simp [hk, List.find?_cons, Ne.symm hk]
    split
    · rename_i heq
      by_cases hk : k' = k
      · simp [hk, heq]
      · simp [hk, Ne.symm hk, heq]
    · rename_i _ hne
      by_cases hek : e.1 = k'
      · have hk : k' ≠ k := fun hk => hne (hek.trans hk)
        simp [hek, hk]
      · have hcons (x : κ) (hx : e.1 ≠ x) (ys : List (κ × ν)) :
            (e :: ys).find? (fun y => y.1 = x) = ys.find? fun y => y.1 = x :=
          List.find?_cons_of_neg (by simpa using hx)
        rw [hcons k' hek, hcons k hne, ih hrest]
        split
        · rfl
        · rw [hcons k' hek]

@[simp] theorem get_alter (m : OrderedMap κ ν) (k k' : κ) (f : Option ν → ν) :
    (m.alter k f).get k' = if k' = k then some (f (m.get k)) else m.get k' :=
  find_alterEntries m.sorted k'

theorem mem_entries {m : OrderedMap κ ν} {k : κ} {v : ν} :
    (k, v) ∈ m.entries ↔ m.get k = some v := by
  obtain ⟨rows, hsorted⟩ := m
  simp only [get]
  induction rows with
  | nil => simp
  | cons e rest ih =>
    obtain ⟨hfirst, hrest⟩ := List.pairwise_cons.mp hsorted
    obtain ⟨k', v'⟩ := e
    rw [List.mem_cons]
    by_cases hk : k' = k
    · subst hk
      have hnot : (k', v) ∉ rest := fun hmem => lt_irrefl k' (hfirst _ hmem)
      simp [hnot, eq_comm]
    · rw [List.find?_cons_of_neg (by simpa using hk), ← ih hrest]
      simp [Ne.symm hk]

theorem ext_get {m m' : OrderedMap κ ν} (h : ∀ k, m.get k = m'.get k) : m = m' := by
  have hnodup (m : OrderedMap κ ν) : m.entries.Nodup := by
    refine m.sorted.imp ?_
    intro a b hlt heq
    rw [heq] at hlt
    exact lt_irrefl b.1 hlt
  have hperm : m.entries.Perm m'.entries := by
    rw [List.perm_ext_iff_of_nodup (hnodup m) (hnodup m')]
    rintro ⟨k, v⟩
    rw [mem_entries, mem_entries, h k]
  have heq : m.entries = m'.entries :=
    hperm.eq_of_pairwise (fun a b _ _ hab hba => absurd hab (lt_asymm hba)) m.sorted m'.sorted
  cases m
  cases m'
  cases heq
  rfl

end OrderedMap

abbrev OrderedSet (α : Type*) [LinearOrder α] := OrderedMap α Unit

namespace OrderedSet

variable {α : Type*} [LinearOrder α]

def toList (s : OrderedSet α) : List α := s.entries.map Prod.fst

def contains (s : OrderedSet α) (x : α) : Bool := (s.get x).isSome

def insert (s : OrderedSet α) (x : α) : OrderedSet α := s.alter x fun _ => ()

def collect (xs : List α) : OrderedSet α := xs.foldl insert .empty

@[simp] theorem contains_empty (x : α) : contains .empty x = false := rfl

@[simp] theorem contains_insert (s : OrderedSet α) (x y : α) :
    contains (insert s x) y = true ↔ y = x ∨ contains s y = true := by
  unfold contains insert
  by_cases h : y = x
  · simp [h]
  · simp [h]

theorem contains_collect {xs : List α} {y : α} : contains (collect xs) y = true ↔ y ∈ xs := by
  have hfold (s : OrderedSet α) : contains (xs.foldl insert s) y = true ↔
      y ∈ xs ∨ contains s y = true := by
    induction xs generalizing s with
    | nil => simp
    | cons x xs ih =>
      rw [List.foldl_cons, ih, contains_insert, List.mem_cons]
      tauto
  simp [collect, hfold]

theorem mem_toList {s : OrderedSet α} {x : α} : x ∈ toList s ↔ contains s x = true := by
  unfold toList contains
  constructor
  · intro hx
    obtain ⟨⟨y, v⟩, hmem, rfl⟩ := List.mem_map.mp hx
    rw [OrderedMap.mem_entries.mp hmem]
    rfl
  · intro hx
    obtain ⟨v, hv⟩ := Option.isSome_iff_exists.mp hx
    exact List.mem_map.mpr ⟨(x, v), OrderedMap.mem_entries.mpr hv, rfl⟩

theorem ext_contains {s t : OrderedSet α} (h : ∀ x, contains s x = contains t x) : s = t := by
  apply OrderedMap.ext_get
  intro x
  have hx := h x
  unfold contains at hx
  cases hs : s.get x <;> cases ht : t.get x <;> simp_all

end OrderedSet
