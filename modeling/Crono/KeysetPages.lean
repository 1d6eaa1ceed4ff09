import Mathlib.Data.List.Chain
import Mathlib.Data.List.Nodup
import Mathlib.Data.List.Sort
import Mathlib.Order.Lattice

/-! Keyset pagination. A page holds the first items of a listing beyond a key, and the key of its
last item is the cursor of the next page. The listing may change between two pages; a traversal
follows the cursors. -/
namespace KeysetPages

variable {ι κ : Type*} [LinearOrder κ] (key : ι → κ)

/-- The key lies beyond the cursor, as every key does without one. -/
def Beyond (after : Option κ) (k : κ) : Prop := ∀ c ∈ after, c < k

def ordered (after : Option κ) (rows : List ι) : List ι :=
  (rows.filter fun i => after.all fun c => c < key i).insertionSort fun a b => key a ≤ key b

/-- `items` is the page of `rows` after a cursor, and `next` the cursor of the page that follows. -/
structure Serves (limit : ℕ) (rows : List ι) (after : Option κ) (items : List ι)
    (next : Option κ) : Prop where
  mem : ∀ i ∈ items, i ∈ rows ∧ Beyond after (key i)
  increasing : items.Pairwise fun a b => key a < key b
  covers : ∀ i ∈ rows, Beyond after (key i) → (∀ c ∈ next, key i ≤ c) → i ∈ items
  cursor : ∀ c ∈ next, ∃ i, items.getLast? = some i ∧ key i = c
  full : next ≠ none → items.length = limit

variable {key} {limit : ℕ} {rows : List ι} {after next : Option κ}

theorem mem_ordered {i : ι} : i ∈ ordered key after rows ↔ i ∈ rows ∧ Beyond after (key i) := by
  simp only [ordered, List.mem_insertionSort, List.mem_filter, Option.all_eq_true_iff_get,
    decide_eq_true_eq]
  refine and_congr_right fun _ => ?_
  cases after with
  | none => simp [Beyond]
  | some c => simp [Beyond]

theorem ordered_increasing (after : Option κ) (hkeys : (rows.map key).Nodup) :
    (ordered key after rows).Pairwise fun a b => key a < key b := by
  have hsorted : (ordered key after rows).Pairwise fun a b => key a ≤ key b :=
    List.pairwise_insertionSort (fun a b => key a ≤ key b) _
  have hdistinct : (ordered key after rows).Pairwise fun a b => key a ≠ key b := by
    have hperm : ((ordered key after rows).map key).Perm
        ((rows.filter fun i => after.all fun c => c < key i).map key) :=
      (List.perm_insertionSort _ _).map key
    exact List.pairwise_map.mp (hperm.nodup_iff.mpr (hkeys.sublist (List.filter_sublist.map key)))
  exact hsorted.imp₂ (fun _ _ => lt_of_le_of_ne) hdistinct

theorem serves_nil : Serves key limit [] after [] none :=
  ⟨nofun, .nil, nofun, nofun, fun h => absurd rfl h⟩

theorem serves_last (hkeys : (rows.map key).Nodup) :
    Serves key limit rows after (ordered key after rows) none where
  mem := fun _ => mem_ordered.mp
  increasing := ordered_increasing after hkeys
  covers := fun _ hi hbeyond _ => mem_ordered.mpr ⟨hi, hbeyond⟩
  cursor := nofun
  full := fun h => absurd rfl h

/-- The page is full and something is left. -/
theorem serves_more (hkeys : (rows.map key).Nodup) (hlimit : 0 < limit)
    (hmore : limit < (ordered key after rows).length) :
    Serves key limit rows after ((ordered key after rows).take limit)
      (((ordered key after rows).take limit).getLast?.map key) := by
  have hsplit := List.take_append_drop limit (ordered key after rows)
  have hincreasing := ordered_increasing after hkeys
  rw [← hsplit, List.pairwise_append] at hincreasing
  have hlength : ((ordered key after rows).take limit).length = limit := by
    rw [List.length_take, Nat.min_eq_left hmore.le]
  refine ⟨?_, hincreasing.1, ?_, ?_, fun _ => hlength⟩
  · exact fun i hi => mem_ordered.mp (List.mem_of_mem_take hi)
  · intro i hi hbeyond hnext
    have hmem : i ∈ ordered key after rows := mem_ordered.mpr ⟨hi, hbeyond⟩
    rw [← hsplit, List.mem_append] at hmem
    rcases hmem with hmem | hmem
    · exact hmem
    -- what was left out comes after the last item
    · have hne : (ordered key after rows).take limit ≠ [] := by
        rintro hnil
        rw [hnil, List.length_nil] at hlength
        exact hlimit.ne hlength
      have hlast := hnext (key (((ordered key after rows).take limit).getLast hne))
        (by rw [List.getLast?_eq_some_getLast hne]; rfl)
      exact absurd (hincreasing.2.2 _ (List.getLast_mem hne) i hmem) (not_lt.mpr hlast)
  · intro c hc
    obtain ⟨i, hi, hcursor⟩ := Option.map_eq_some_iff.mp hc
    exact ⟨i, hi, hcursor⟩

/-- One row beyond the limit was fetched; it says that the page is not the last and is dropped. -/
def cut (limit : ℕ) (fetched : List ι) : List ι :=
  if limit < fetched.length then fetched.dropLast else fetched

theorem serves_cut (after : Option κ) (hkeys : (rows.map key).Nodup) (hlimit : 0 < limit) :
    Serves key limit rows after (cut limit ((ordered key after rows).take (limit + 1)))
      (if limit < ((ordered key after rows).take (limit + 1)).length then
        (cut limit ((ordered key after rows).take (limit + 1))).getLast?.map key else none) := by
  by_cases hmore : limit < (ordered key after rows).length
  · have hfetched : limit < ((ordered key after rows).take (limit + 1)).length := by
      rw [List.length_take]
      exact Nat.lt_min.mpr ⟨Nat.lt_succ_self limit, hmore⟩
    have hcut : ((ordered key after rows).take (limit + 1)).dropLast =
        (ordered key after rows).take limit := by
      rw [List.dropLast_eq_take, List.length_take, List.take_take]
      exact congrArg (fun n => (ordered key after rows).take n) (by omega)
    simp only [cut, if_pos hfetched, hcut]
    exact serves_more hkeys hlimit hmore
  · have hfetched : (ordered key after rows).take (limit + 1) = ordered key after rows :=
      List.take_of_length_le (Nat.le_succ_of_le (not_lt.mp hmore))
    simp only [cut, hfetched, if_neg hmore]
    exact serves_last hkeys

theorem Serves.map {ι' : Type*} (key' : ι' → κ) (f : ι → ι') {items : List ι}
    (h : Serves (fun i => key' (f i)) limit rows after items next) :
    Serves key' limit (rows.map f) after (items.map f) next := by
  refine ⟨?_, List.pairwise_map.mpr h.increasing, ?_, ?_, ?_⟩
  · intro i hi
    obtain ⟨j, hj, rfl⟩ := List.mem_map.mp hi
    exact ⟨List.mem_map_of_mem (h.mem j hj).1, (h.mem j hj).2⟩
  · intro i hi hbeyond hnext
    obtain ⟨j, hj, rfl⟩ := List.mem_map.mp hi
    exact List.mem_map_of_mem (h.covers j hj hbeyond hnext)
  · intro c hc
    obtain ⟨j, hlast, hcursor⟩ := h.cursor c hc
    exact ⟨f j, by rw [List.getLast?_map, hlast]; rfl, hcursor⟩
  · rw [List.length_map]
    exact h.full

/-- What a listing held when a page of it was read, and the page. -/
structure Visit (ι : Type*) where
  rows : List ι
  items : List ι

variable (key) in
/-- From one cursor through the pages to the cursor of the last one. -/
inductive Traverses (limit : ℕ) : Option κ → List (Visit ι) → Option κ → Prop where
  | last {after next v} : Serves key limit v.rows after v.items next →
      Traverses limit after [v] next
  | more {after c next v visits} : Serves key limit v.rows after v.items (some c) →
      Traverses limit (some c) visits next → Traverses limit after (v :: visits) next

variable {v : Visit ι} {visits : List (Visit ι)}

theorem Serves.cursor_beyond {c : κ} {items : List ι}
    (h : Serves key limit rows after items (some c)) : Beyond after c := by
  obtain ⟨i, hi, rfl⟩ := h.cursor c rfl
  exact (h.mem i (List.mem_of_getLast? hi)).2

theorem Serves.le_cursor {c : κ} {items : List ι}
    (h : Serves key limit rows after items (some c)) : ∀ i ∈ items, key i ≤ c := by
  intro i hi
  obtain ⟨last, hlast, rfl⟩ := h.cursor c rfl
  obtain ⟨init, rfl⟩ := List.getLast?_eq_some_iff.mp hlast
  rcases List.mem_append.mp hi with hi | hi
  · exact ((List.pairwise_append.mp h.increasing).2.2 i hi last (List.mem_singleton_self _)).le
  · rw [List.mem_singleton.mp hi]

theorem Traverses.beyond (h : Traverses key limit after visits next) :
    ∀ v ∈ visits, ∀ i ∈ v.items, Beyond after (key i) := by
  induction h with
  | last hserves =>
    intro w hw i hi
    rw [List.mem_singleton.mp hw] at hi
    exact (hserves.mem i hi).2
  | more hserves _ ih =>
    intro w hw i hi
    rcases List.mem_cons.mp hw with rfl | hw
    · exact (hserves.mem i hi).2
    · exact fun k hk => (hserves.cursor_beyond k hk).trans (ih w hw i hi _ rfl)

theorem Traverses.mem (h : Traverses key limit after visits next) :
    ∀ v ∈ visits, ∀ i ∈ v.items, i ∈ v.rows := by
  induction h with
  | last hserves =>
    intro w hw i hi
    rw [List.mem_singleton.mp hw] at hi ⊢
    exact (hserves.mem i hi).1
  | more hserves _ ih =>
    intro w hw i hi
    rcases List.mem_cons.mp hw with rfl | hw
    · exact (hserves.mem i hi).1
    · exact ih w hw i hi

theorem Traverses.increasing (h : Traverses key limit after visits next) :
    (visits.flatMap Visit.items).Pairwise fun a b => key a < key b := by
  induction h with
  | last hserves => simpa using hserves.increasing
  | @more _ c _ v visits hserves hrest ih =>
    rw [List.flatMap_cons, List.pairwise_append]
    refine ⟨hserves.increasing, ih, ?_⟩
    intro a ha b hb
    obtain ⟨w, hw, hb⟩ := List.mem_flatMap.mp hb
    exact (hserves.le_cursor a ha).trans_lt (hrest.beyond w hw b hb c rfl)

/-- What every listing held under one key was on one of the pages. -/
theorem Traverses.complete {P : ι → Prop} {k : κ} (h : Traverses key limit after visits none)
    (hafter : Beyond after k) (hrows : ∀ v ∈ visits, ∃ i ∈ v.rows, key i = k ∧ P i) :
    ∃ v ∈ visits, ∃ i ∈ v.items, key i = k ∧ P i := by
  generalize hend : (none : Option κ) = next at h
  induction h with
  | last hserves =>
    subst hend
    obtain ⟨i, hi, rfl, hP⟩ := hrows _ (List.mem_singleton_self _)
    exact ⟨_, List.mem_singleton_self _, i, hserves.covers i hi hafter nofun, rfl, hP⟩
  | @more _ c _ v visits hserves hrest ih =>
    obtain ⟨i, hi, rfl, hP⟩ := hrows v List.mem_cons_self
    by_cases hcursor : key i ≤ c
    · have hserved : i ∈ v.items := by
        refine hserves.covers i hi hafter fun d hd => ?_
        rw [← Option.mem_some_iff.mp hd]
        exact hcursor
      exact ⟨v, List.mem_cons_self, i, hserved, rfl, hP⟩
    · have hbeyond : Beyond (some c) (key i) := by
        intro d hd
        rw [← Option.mem_some_iff.mp hd]
        exact not_le.mp hcursor
      obtain ⟨w, hw, hfound⟩ := ih hbeyond (fun w hw => hrows w (List.mem_cons_of_mem v hw)) hend
      exact ⟨w, List.mem_cons_of_mem v hw, hfound⟩

variable (key) in
/-- Between two pages nothing new appears beyond the first of them. -/
def Unextended (visits : List (Visit ι)) : Prop :=
  visits.IsChain fun v w => ∀ i ∈ w.rows, (∀ j ∈ v.items, key j < key i) →
    key i ∈ v.rows.map key

theorem Serves.remaining {c : κ} {w : Visit ι} (h : Serves key limit v.rows after v.items (some c))
    (hkeys : (w.rows.map key).Nodup)
    (hchain : ∀ i ∈ w.rows, (∀ j ∈ v.items, key j < key i) → key i ∈ v.rows.map key) :
    limit + (ordered key (some c) w.rows).length ≤ (ordered key after v.rows).length := by
  have hlater {j i : ι} (hj : j ∈ v.items) (hi : i ∈ ordered key (some c) w.rows) :
      key j < key i :=
    (h.le_cursor j hj).trans_lt ((mem_ordered.mp hi).2 c rfl)
  have hnodup : ((v.items ++ ordered key (some c) w.rows).map key).Nodup := by
    refine List.pairwise_map.mpr (List.pairwise_append.mpr ⟨?_, ?_, ?_⟩)
    · exact h.increasing.imp fun hlt => hlt.ne
    · exact (ordered_increasing (some c) hkeys).imp fun hlt => hlt.ne
    · exact fun j hj i hi => (hlater hj hi).ne
  have hsubset : (v.items ++ ordered key (some c) w.rows).map key ⊆
      (ordered key after v.rows).map key := by
    intro k hk
    obtain ⟨i, hi, rfl⟩ := List.mem_map.mp hk
    rcases List.mem_append.mp hi with hi | hi
    · exact List.mem_map_of_mem (mem_ordered.mpr (h.mem i hi))
    · obtain ⟨j, hj, heq⟩ := List.mem_map.mp
        (hchain i (mem_ordered.mp hi).1 fun j hj => hlater hj hi)
      rw [← heq]
      refine List.mem_map_of_mem (mem_ordered.mpr ⟨hj, fun d hd => ?_⟩)
      rw [heq]
      exact (h.cursor_beyond d hd).trans ((mem_ordered.mp hi).2 c rfl)
  have hlength := (List.subperm_of_subset hnodup hsubset).length_le
  rw [List.length_map, List.length_map, List.length_append, h.full (by simp)] at hlength
  exact hlength

theorem Traverses.length_le (h : Traverses key limit after (v :: visits) next)
    (hkeys : ∀ w ∈ visits, (w.rows.map key).Nodup) (hchain : Unextended key (v :: visits)) :
    visits.length * limit ≤ (ordered key after v.rows).length := by
  induction visits generalizing v after with
  | nil =>
    rw [List.length_nil, Nat.zero_mul]
    exact Nat.zero_le _
  | cons w visits ih =>
    cases h with
    | more hserves hrest =>
      obtain ⟨hstep, hchain⟩ := List.isChain_cons_cons.mp hchain
      have hremaining := hserves.remaining (hkeys w List.mem_cons_self) hstep
      have hih := ih hrest (fun u hu => hkeys u (List.mem_cons_of_mem w hu)) hchain
      rw [List.length_cons, Nat.succ_mul]
      omega

theorem ordered_length_le : (ordered key after rows).length ≤ rows.length := by
  rw [ordered, List.length_insertionSort]
  exact List.length_filter_le _ _

end KeysetPages
