import Mathlib.Data.List.Nodup
import Mathlib.Data.List.Sort
import Mathlib.Data.List.Perm.Basic

/-! Relational tables as lists of rows. `UPDATE .. WHERE` maps every row, an
`INSERT` appends, and a locking batch read filters, sorts and truncates. Keys are
column projections; nothing here fixes a schema. -/
namespace SqlTable

variable {α β κ : Type*}

/-- `UPDATE t SET f WHERE p`. -/
def update (p : α → Bool) (f : α → α) (rows : List α) : List α :=
  rows.map fun r => if p r then f r else r

/-- `SELECT .. WHERE p ORDER BY le FOR UPDATE SKIP LOCKED LIMIT n`. The rows other
transactions hold at that moment are the ones `locked` accepts. -/
def selectBatch (p locked : α → Bool) (le : α → α → Prop) [DecidableRel le] (limit : ℕ)
    (rows : List α) : List α :=
  ((rows.filter fun r => p r && !locked r).insertionSort le).take limit

theorem mem_update {p : α → Bool} {f : α → α} {rows : List α} {x : α} :
    x ∈ update p f rows ↔ ∃ r ∈ rows, x = if p r then f r else r := by
  simp only [update, List.mem_map]
  exact ⟨fun ⟨r, hr, h⟩ => ⟨r, hr, h.symm⟩, fun ⟨r, hr, h⟩ => ⟨r, hr, h.symm⟩⟩

theorem mem_update_of_not {p : α → Bool} {f : α → α} {rows : List α} {x : α}
    (hx : x ∈ rows) (hp : p x = false) : x ∈ update p f rows :=
  mem_update.mpr ⟨x, hx, by simp [hp]⟩

theorem update_cases {p : α → Bool} {f : α → α} {rows : List α} {x : α}
    (h : x ∈ update p f rows) :
    (x ∈ rows ∧ p x = false) ∨ ∃ r ∈ rows, p r = true ∧ x = f r := by
  obtain ⟨r, hr, rfl⟩ := mem_update.mp h
  by_cases hp : p r = true
  · exact .inr ⟨r, hr, hp, by simp [hp]⟩
  · rw [Bool.not_eq_true] at hp
    exact .inl (by simpa [hp] using hr)

theorem update_origin {p : α → Bool} {f : α → α} (key : α → κ) {rows : List α} {x : α}
    (h : x ∈ update p f rows) (hf : ∀ x, key (f x) = key x) : ∃ y ∈ rows, key y = key x := by
  rcases update_cases h with ⟨hx, _⟩ | ⟨y, hy, _, rfl⟩
  · exact ⟨x, hx, rfl⟩
  · exact ⟨y, hy, (hf y).symm⟩

theorem update_append (p : α → Bool) (f : α → α) (xs ys : List α) :
    update p f (xs ++ ys) = update p f xs ++ update p f ys := by
  simp [update]

theorem update_singleton (p : α → Bool) (f : α → α) (x : α) :
    update p f [x] = [if p x then f x else x] := rfl

theorem update_of_none {p : α → Bool} {f : α → α} {rows : List α}
    (h : ∀ r ∈ rows, p r = false) : update p f rows = rows := by
  rw [update]
  conv_rhs => rw [← List.map_id rows]
  apply List.map_congr_left
  intro r hr
  simp [h r hr]

theorem update_congr {p q : α → Bool} {f g : α → α} {rows : List α}
    (h : ∀ r ∈ rows, (if p r then f r else r) = if q r then g r else r) :
    update p f rows = update q g rows :=
  List.map_congr_left h

theorem update_update {p q : α → Bool} {f : α → α} (h : ∀ r, p r = true → q (f r) = false)
    (rows : List α) : update q f (update p f rows) = update (fun r => p r || q r) f rows := by
  rw [update, update, update, List.map_map]
  apply List.map_congr_left
  intro r _
  by_cases hp : p r = true
  · simp [hp, h r hp]
  · simp [hp]

theorem update_keys [DecidableEq κ] (key : α → κ) (f : α → α) (hf : ∀ x, key (f x) = key x)
    {k : κ} {keys : List κ} (hk : k ∉ keys) (rows : List α) :
    update (fun x => decide (key x ∈ keys)) f (update (fun x => decide (key x = k)) f rows) =
      update (fun x => decide (key x ∈ k :: keys)) f rows := by
  rw [update_update fun x hx => by rw [hf, of_decide_eq_true hx, decide_eq_false hk]]
  apply update_congr
  intro x _
  simp [List.mem_cons]

theorem map_update {p : α → Bool} {f : α → α} {key : α → κ} {rows : List α}
    (h : ∀ x ∈ rows, p x = true → key (f x) = key x) :
    (update p f rows).map key = rows.map key := by
  rw [update, List.map_map]
  apply List.map_congr_left
  intro x hx
  by_cases hp : p x = true
  · simp [hp, h x hx hp]
  · simp [hp]

theorem filter_update {p q : α → Bool} {f : α → α} (hq : ∀ r, q (f r) = q r)
    (rows : List α) : (update p f rows).filter q = update p f (rows.filter q) := by
  induction rows with
  | nil => rfl
  | cons r rows ih =>
    have hr : q (if p r then f r else r) = q r := by split <;> simp [hq]
    have hc : update p f (r :: rows) = (if p r then f r else r) :: update p f rows := rfl
    rw [hc]
    by_cases h : q r = true
    · rw [List.filter_cons_of_pos (by simpa [hr] using h), List.filter_cons_of_pos h, ih]
      rfl
    · rw [List.filter_cons_of_neg (by simpa [hr] using h), List.filter_cons_of_neg h, ih]

theorem filter_update_of_not {p q : α → Bool} {f : α → α} {rows : List α}
    (h : ∀ r ∈ rows, p r = true → q r = false ∧ q (f r) = false) :
    (update p f rows).filter q = rows.filter q := by
  induction rows with
  | nil => rfl
  | cons r rows ih =>
    have ih := ih fun y hy => h y (List.mem_cons_of_mem r hy)
    simp only [update, List.map_cons, List.filter_cons] at ih ⊢
    rw [ih]
    by_cases hp : p r = true
    · obtain ⟨hr, hfr⟩ := h r List.mem_cons_self hp
      simp [hp, hr, hfr]
    · simp [hp]

theorem row_unique {key : α → κ} {rows : List α} (hn : (rows.map key).Nodup) {x y : α}
    (hx : x ∈ rows) (hy : y ∈ rows) (h : key x = key y) : x = y :=
  List.inj_on_of_nodup_map hn hx hy h

theorem filter_replaced [DecidableEq κ] {key : α → κ} {x : κ} (old : List α) {new : List α}
    (h : ∀ a ∈ new, key a = x) :
    ((old.filter fun a => key a ≠ x) ++ new).filter (fun a => key a = x) = new := by
  rw [List.filter_append, List.filter_filter, List.filter_eq_nil_iff.mpr, List.nil_append,
    List.filter_eq_self]
  · intro a ha
    exact decide_eq_true (h a ha)
  · simp

theorem find?_row {p : α → Bool} {rows : List α} {x : α} (hx : x ∈ rows)
    (hp : ∀ y ∈ rows, p y = true ↔ y = x) : rows.find? p = some x := by
  cases hfind : rows.find? p with
  | none =>
    rw [List.find?_eq_none] at hfind
    exact absurd ((hp x hx).mpr rfl) (hfind x hx)
  | some y => rw [(hp y (List.mem_of_find?_eq_some hfind)).mp (List.find?_some hfind)]

theorem find?_key [DecidableEq κ] {key : α → κ} {rows : List α} (hn : (rows.map key).Nodup) {x : α}
    (hx : x ∈ rows) : rows.find? (fun y => key y = key x) = some x := by
  apply find?_row hx
  intro y hy
  rw [decide_eq_true_eq]
  constructor
  · exact row_unique hn hy hx
  · intro hsame
    rw [hsame]

theorem find?_filter_key {p q : α → Bool} {rows : List α}
    (h : ∀ x ∈ rows, ∀ y ∈ rows, q x = true → q y = true → p x = p y) :
    (rows.filter p).find? q = (rows.find? q).filter p := by
  induction rows with
  | nil => rfl
  | cons x rows ih =>
    have ih := ih fun y hy z hz =>
      h y (List.mem_cons_of_mem x hy) z (List.mem_cons_of_mem x hz)
    by_cases hq : q x = true
    · rw [List.find?_cons_of_pos hq]
      by_cases hp : p x = true
      · rw [List.filter_cons_of_pos hp, List.find?_cons_of_pos hq, Option.filter_some_pos hp]
      · rw [List.filter_cons_of_neg hp, ih, Option.filter_some_neg (by simpa using hp)]
        cases hfind : rows.find? q with
        | none => rfl
        | some y =>
          have hy := h x List.mem_cons_self y
            (List.mem_cons_of_mem x (List.mem_of_find?_eq_some hfind)) hq (List.find?_some hfind)
          exact Option.filter_some_neg (by simpa [← hy] using hp)
    · rw [List.find?_cons_of_neg hq]
      by_cases hp : p x = true
      · rw [List.filter_cons_of_pos hp, List.find?_cons_of_neg hq, ih]
      · rw [List.filter_cons_of_neg hp, ih]

theorem find?_filter_unique [DecidableEq κ] {key : α → κ} {p : α → Bool} {rows : List α}
    (hkeys : (rows.map key).Nodup) (k : κ) :
    (rows.filter p).find? (fun x => key x = k) = (rows.find? fun x => key x = k).filter p := by
  apply find?_filter_key
  intro x hx y hy hxk hyk
  rw [row_unique hkeys hx hy ((of_decide_eq_true hxk).trans (of_decide_eq_true hyk).symm)]

theorem countP_row {p : α → Bool} {rows : List α} (hn : rows.Nodup) {x : α} (hx : x ∈ rows)
    (hp : ∀ y ∈ rows, p y = true ↔ y = x) : rows.countP p = 1 := by
  classical
  have hsame : rows.countP p = rows.count x :=
    List.countP_congr fun y hy => by rw [hp y hy, beq_iff_eq]
  rw [hsame]
  exact List.count_eq_one_of_mem hn hx

theorem nodup_append_key {key : α → κ} {rows : List α} {x : α}
    (hn : (rows.map key).Nodup) (hx : ∀ r ∈ rows, key r ≠ key x) :
    ((rows ++ [x]).map key).Nodup := by
  rw [List.map_append, List.map_singleton, List.nodup_append]
  refine ⟨hn, List.nodup_singleton _, ?_⟩
  intro a ha b hb
  rw [List.mem_singleton] at hb
  obtain ⟨r, hr, rfl⟩ := List.mem_map.mp ha
  rw [hb]
  exact hx r hr

theorem mem_selectBatch {p locked : α → Bool} {le : α → α → Prop} [DecidableRel le]
    {limit : ℕ} {rows : List α} {x : α} (h : x ∈ selectBatch p locked le limit rows) :
    x ∈ rows ∧ p x = true := by
  have hx := (List.perm_insertionSort le _).mem_iff.mp (List.mem_of_mem_take h)
  rw [List.mem_filter, Bool.and_eq_true] at hx
  exact ⟨hx.1, hx.2.1⟩

theorem selectBatch_row {p locked : α → Bool} {le : α → α → Prop} [DecidableRel le] {rows : List α}
    (hn : rows.Nodup) {x : α} (hx : x ∈ rows) (hp : p x = true)
    (hlocked : ∀ y ∈ rows, locked y = false ↔ y = x) : selectBatch p locked le 1 rows = [x] := by
  classical
  have hfilter : (rows.filter fun y => p y && !locked y) = [x] := by
    have hsame : (rows.filter fun y => p y && !locked y) = rows.filter (· == x) := by
      apply List.filter_congr
      intro y hy
      by_cases hyx : y = x
      · simp [hyx, hp, (hlocked x hx).mpr rfl]
      · have hheld : locked y = true := by
          rw [← Bool.not_eq_false]
          exact fun hfree => hyx ((hlocked y hy).mp hfree)
        simp [hyx, hheld]
    rw [hsame, List.filter_beq, List.count_eq_one_of_mem hn hx]
    rfl
  rw [selectBatch, hfilter]
  rfl

/-- What an unobstructed batch read leaves for the next one. -/
theorem selectBatch_rest {p : α → Bool} (le : α → α → Prop) [DecidableRel le] {limit : ℕ}
    [DecidableEq κ] {key : α → κ} {rows : List α} (hn : (rows.map key).Nodup) :
    ((rows.filter p).filter fun x =>
      decide (key x ∉ (selectBatch p (fun _ => false) le limit rows).map key)).length =
      (rows.filter p).length - limit := by
  have hperm : ((rows.filter fun x => p x && !false).insertionSort le).Perm (rows.filter p) := by
    simpa using List.perm_insertionSort le (rows.filter p)
  unfold selectBatch
  generalize (rows.filter fun x => p x && !false).insertionSort le = sorted at hperm
  have hsorted : (sorted.map key).Nodup :=
    (hperm.map key).nodup_iff.mpr (hn.sublist (List.filter_sublist.map key))
  have hcount : ((rows.filter p).filter fun x =>
      decide (key x ∉ (sorted.take limit).map key)).length =
      (sorted.filter fun x => decide (key x ∉ (sorted.take limit).map key)).length :=
    (hperm.symm.filter _).length_eq
  rw [hcount, ← hperm.length_eq, ← List.length_drop]
  congr 1
  conv_lhs => rw [← List.take_append_drop limit sorted]
  rw [← List.take_append_drop limit sorted, List.map_append, List.nodup_append] at hsorted
  rw [List.filter_append, List.filter_eq_nil_iff.mpr, List.nil_append, List.filter_eq_self]
  · intro x hx
    rw [decide_eq_true_eq, List.take_append_drop]
    intro htaken
    exact hsorted.2.2 _ htaken _ (List.mem_map_of_mem hx) rfl
  · intro x hx
    rw [decide_eq_true_eq, not_not, List.take_append_drop]
    exact List.mem_map_of_mem hx

theorem selectBatch_nodup {p locked : α → Bool} {le : α → α → Prop} [DecidableRel le]
    {limit : ℕ} {rows : List α} {key : α → κ} (hn : (rows.map key).Nodup) :
    ((selectBatch p locked le limit rows).map key).Nodup := by
  have hs : ((rows.filter fun r => p r && !locked r).insertionSort le).map key |>.Nodup :=
    ((List.perm_insertionSort le _).map key).nodup_iff.mpr
      (hn.sublist (List.filter_sublist.map key))
  exact hs.sublist ((List.take_sublist _ _).map key)

/-- Every old row is still there, in place, moved on by `R`; new rows come after. -/
inductive Evolves (R : α → α → Prop) : List α → List α → Prop where
  | nil (news) : Evolves R [] news
  | cons {x y xs ys} : R x y → Evolves R xs ys → Evolves R (x :: xs) (y :: ys)

theorem Evolves.append {R : α → α → Prop} (hR : ∀ x, R x x) (rows news : List α) :
    Evolves R rows (rows ++ news) := by
  induction rows with
  | nil => exact .nil news
  | cons x xs ih => exact .cons (hR x) ih

theorem Evolves.refl {R : α → α → Prop} (hR : ∀ x, R x x) (rows : List α) :
    Evolves R rows rows := by
  simpa using Evolves.append hR rows []

theorem Evolves.trans {R : α → α → Prop} {rows rows' rows'' : List α} (h : Evolves R rows rows')
    (k : Evolves R rows' rows'') (hR : ∀ x y z, R x y → R y z → R x z) :
    Evolves R rows rows'' := by
  induction h generalizing rows'' with
  | nil => exact .nil _
  | cons hxy _ ih =>
    cases k with
    | cons hyz hys => exact .cons (hR _ _ _ hxy hyz) (ih hys)

theorem Evolves.update {R : α → α → Prop} (hR : ∀ x, R x x) {p : α → Bool} {f : α → α}
    {rows : List α} (h : ∀ x ∈ rows, p x = true → R x (f x)) :
    Evolves R rows (update p f rows) := by
  induction rows with
  | nil => exact .nil _
  | cons x xs ih =>
    refine .cons ?_ (ih fun y hy => h y (List.mem_cons_of_mem x hy))
    by_cases hp : p x = true
    · simpa [hp] using h x List.mem_cons_self hp
    · simpa [hp] using hR x

theorem Evolves.of_mem {R : α → α → Prop} {rows rows' : List α} (h : Evolves R rows rows')
    {x : α} (hx : x ∈ rows) : ∃ y ∈ rows', R x y := by
  induction h with
  | nil => cases hx
  | cons hxy _ ih =>
    rcases List.mem_cons.mp hx with rfl | hx
    · exact ⟨_, List.mem_cons_self, hxy⟩
    · obtain ⟨y, hy, hr⟩ := ih hx
      exact ⟨y, List.mem_cons_of_mem _ hy, hr⟩

theorem Evolves.filter {R : α → α → Prop} {q : α → Bool} (hq : ∀ x y, R x y → q y = q x)
    {rows rows' : List α} (h : Evolves R rows rows') :
    Evolves R (rows.filter q) (rows'.filter q) := by
  induction h with
  | nil => exact .nil _
  | @cons x y xs ys hxy _ ih =>
    by_cases hx : q x = true
    · have hy : q y = true := (hq x y hxy).trans hx
      rw [List.filter_cons_of_pos hx, List.filter_cons_of_pos hy]
      exact .cons hxy ih
    · have hy : ¬ q y = true := by rwa [hq x y hxy]
      rw [List.filter_cons_of_neg hx, List.filter_cons_of_neg hy]
      exact ih

theorem Evolves.eq_of_length {R : α → α → Prop} {rows rows' : List α} (h : Evolves R rows rows')
    (hlength : rows'.length = rows.length) (hfixed : ∀ x ∈ rows, ∀ y, R x y → y = x) :
    rows' = rows := by
  induction h with
  | nil => exact List.eq_nil_of_length_eq_zero hlength
  | @cons x y xs ys hxy _ ih =>
    rw [hfixed x List.mem_cons_self y hxy,
      ih (Nat.succ.inj hlength) fun z hz => hfixed z (List.mem_cons_of_mem x hz)]

theorem Evolves.of_key {R : α → α → Prop} {key : α → κ} (hk : ∀ x y, R x y → key y = key x)
    {rows rows' : List α} (h : Evolves R rows rows') (hn : (rows'.map key).Nodup) {x y : α}
    (hx : x ∈ rows) (hy : y ∈ rows') (hxy : key y = key x) : R x y := by
  obtain ⟨z, hz, hr⟩ := h.of_mem hx
  have hzy : z = y := row_unique hn hz hy (by rw [hk x z hr, hxy])
  exact hzy ▸ hr

end SqlTable
