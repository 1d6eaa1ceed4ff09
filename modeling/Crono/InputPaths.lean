import Crono.ControlPlaneSchema
import Crono.ExecutionInputs

/-! Paths into JSON values, and what merging does at a path: the last layer that touches it
decides. -/
namespace InputPaths

open RunDomain ExecutionInputs

/-- `get` of an object. -/
def lookup (key : String) (fields : List (String × Value)) : Option Value :=
  (fields.find? fun e => e.1 = key).map Prod.snd

def valueAt : List String → Value → Option Value
  | [], value => some value
  | key :: rest, .object fields => (lookup key fields).bind (valueAt rest)
  | _ :: _, _ => none

def BlockedAbove (path : List String) (value : Value) : Prop :=
  ∃ above below, path = above ++ below ∧ below ≠ [] ∧
    ∃ blocking, valueAt above value = some blocking ∧ isObject blocking = false

/-- A layer says something about a path: it has a value there, or a value above that leaves no room
for one. -/
def Touches (path : List String) (layer : Value) : Prop :=
  (∃ value, valueAt path layer = some value) ∨ BlockedAbove path layer

/-- What a layer that decides a path makes of it. -/
structure Decides (path : List String) (layer merged : Value) : Prop where
  blocked : BlockedAbove path layer → valueAt path merged = none
  replaced : ∀ value, valueAt path layer = some value → isObject value = false →
    valueAt path merged = some value
  opened : ∀ value, valueAt path layer = some value → isObject value = true →
    ∃ opened, valueAt path merged = some opened ∧ isObject opened = true

/-- The entries of an object are in key order, as in a `serde_json::Map`. -/
abbrev Sorted (fields : List (String × Value)) : Prop := fields.Pairwise fun a b => a.1 < b.1

mutual
/-- Every object inside is in key order. -/
def Ordered : Value → Prop
  | .object fields => Sorted fields ∧ OrderedFields fields
  | .array items => OrderedItems items
  | .null | .bool _ | .number _ | .string _ => True

def OrderedItems : List Value → Prop
  | [] => True
  | item :: rest => Ordered item ∧ OrderedItems rest

def OrderedFields : List (String × Value) → Prop
  | [] => True
  | (_, value) :: rest => Ordered value ∧ OrderedFields rest
end

theorem orderedFields_iff {fields : List (String × Value)} :
    OrderedFields fields ↔ ∀ e ∈ fields, Ordered e.2 := by
  induction fields with
  | nil => simp [OrderedFields]
  | cons field rest ih =>
    obtain ⟨key, value⟩ := field
    simp [OrderedFields, ih]

/-- Induction on the values inside a value. -/
theorem value_induction {P : Value → Prop} (null : P .null) (bool : ∀ b, P (.bool b))
    (number : ∀ n, P (.number n)) (string : ∀ text, P (.string text))
    (array : ∀ items, (∀ item ∈ items, P item) → P (.array items))
    (object : ∀ fields, (∀ e ∈ fields, P e.2) → P (.object fields)) (value : Value) : P value :=
  match value with
  | .null => null
  | .bool b => bool b
  | .number n => number n
  | .string text => string text
  | .array items => array items fun item _ =>
      value_induction null bool number string array object item
  | .object fields => object fields fun e _ =>
      value_induction null bool number string array object e.2
termination_by sizeOf value
decreasing_by
  · rename_i hitem
    have := List.sizeOf_lt_of_mem hitem
    simp
    omega
  · rename_i he
    have := List.sizeOf_lt_of_mem he
    have hpair : sizeOf e.2 < sizeOf e := by cases e; simp
    simp
    omega

theorem lookup_cons (key : String) (e : String × Value) (rest : List (String × Value)) :
    lookup key (e :: rest) = if e.1 = key then some e.2 else lookup key rest := by
  unfold lookup
  by_cases h : e.1 = key <;> simp [h]

theorem mem_iff_lookup {fields : List (String × Value)} (h : Sorted fields) {key : String}
    {value : Value} : (key, value) ∈ fields ↔ lookup key fields = some value :=
  OrderedMap.mem_entries (m := ⟨fields, h⟩)

theorem sorted_ext {fields fields' : List (String × Value)} (h : Sorted fields)
    (h' : Sorted fields') (heq : ∀ key, lookup key fields = lookup key fields') :
    fields = fields' := by
  have hmaps : (⟨fields, h⟩ : OrderedMap String Value) = ⟨fields', h'⟩ := OrderedMap.ext_get heq
  exact congrArg OrderedMap.entries hmaps

theorem Ordered.sorted {fields : List (String × Value)} (h : Ordered (.object fields)) :
    Sorted fields := by
  rw [Ordered] at h
  exact h.1

theorem Ordered.lookup {fields : List (String × Value)} (h : Ordered (.object fields))
    {key : String} {value : Value} (hvalue : lookup key fields = some value) : Ordered value := by
  rw [Ordered] at h
  exact orderedFields_iff.mp h.2 _ ((mem_iff_lookup h.1).mpr hvalue)

theorem Ordered.object {fields : List (String × Value)} (h : Sorted fields)
    (hvalues : ∀ key value, InputPaths.lookup key fields = some value → Ordered value) :
    Ordered (.object fields) := by
  rw [Ordered]
  exact ⟨h, orderedFields_iff.mpr fun e he => hvalues e.1 e.2 ((mem_iff_lookup h).mp he)⟩

theorem mergeFields_append {overlay base : List (String × Value)}
    (hsorted : Sorted overlay)
    (habove : ∀ e ∈ base, ∀ e' ∈ overlay, e.1 < e'.1) :
    mergeFields overlay base = base ++ overlay := by
  induction overlay generalizing base with
  | nil => rw [mergeFields, List.append_nil]
  | cons field rest ih =>
    obtain ⟨hfirst, hrest⟩ := List.pairwise_cons.mp hsorted
    rw [mergeFields, OrderedMap.alterEntries_last fun e he => habove e he field List.mem_cons_self,
      ih hrest ?_, List.append_assoc, List.singleton_append]
    intro e he e' he'
    rcases List.mem_append.mp he with he | he
    · exact habove e he e' (List.mem_cons_of_mem field he')
    · rw [List.mem_singleton.mp he]
      exact hfirst e' he'

theorem mergeValue_empty {value : Value} (hordered : Ordered value) :
    mergeValue value (.object []) = value := by
  cases value with
  | object fields =>
    rw [mergeValue, mergeFields_append hordered.sorted fun e he => absurd he List.not_mem_nil,
      List.nil_append]
  | null => rfl
  | bool => rfl
  | number => rfl
  | string => rfl
  | array => rfl

/-- What a field of the overlay becomes over the field of the base, if there is one. -/
def laid (value : Value) : Option Value → Value
  | some existing => mergeValue value existing
  | none => value

theorem mergeFields_sorted {overlay base : List (String × Value)} (h : Sorted base) :
    Sorted (mergeFields overlay base) := by
  induction overlay generalizing base with
  | nil => rwa [mergeFields]
  | cons field rest ih =>
    rw [mergeFields]
    exact ih (OrderedMap.alterEntries_sorted h)

/-- Merging is field by field. -/
theorem lookup_mergeFields {overlay base : List (String × Value)} (ho : Sorted overlay)
    (hb : Sorted base) (key : String) :
    lookup key (mergeFields overlay base) =
      match lookup key overlay with
      | none => lookup key base
      | some value => some (laid value (lookup key base)) := by
  induction overlay generalizing base with
  | nil => rfl
  | cons field rest ih =>
    obtain ⟨k, value⟩ := field
    obtain ⟨hfirst, hrest⟩ := List.pairwise_cons.mp ho
    rw [mergeFields, ih hrest (OrderedMap.alterEntries_sorted hb), lookup_cons]
    have haltered : lookup key (OrderedMap.alterEntries k (laid value) base) =
        if key = k then some (laid value (lookup k base)) else lookup key base :=
      OrderedMap.find_alterEntries hb key
    change (match lookup key rest with
      | none => lookup key (OrderedMap.alterEntries k (laid value) base)
      | some v => some (laid v (lookup key (OrderedMap.alterEntries k (laid value) base)))) = _
    by_cases hk : k = key
    · subst hk
      have hnone : lookup k rest = none := by
        unfold lookup
        rw [Option.map_eq_none_iff, List.find?_eq_none]
        intro e he
        simpa using (hfirst e he).ne'
      rw [hnone, haltered, if_pos rfl, if_pos rfl]
    · rw [haltered, if_neg (Ne.symm hk), if_neg hk]

theorem mergeValue_ordered {overlay : Value} (ho : Ordered overlay) {base : Value}
    (hb : Ordered base) : Ordered (mergeValue overlay base) := by
  induction overlay using value_induction generalizing base with
  | null => exact ho
  | bool => exact ho
  | number => exact ho
  | string => exact ho
  | array => exact ho
  | object fields ih =>
    cases base with
    | object existing =>
      rw [mergeValue]
      refine Ordered.object (mergeFields_sorted hb.sorted) ?_
      intro key value hvalue
      rw [lookup_mergeFields ho.sorted hb.sorted] at hvalue
      cases hoverlay : lookup key fields with
      | none =>
        rw [hoverlay] at hvalue
        exact hb.lookup hvalue
      | some upper =>
        rw [hoverlay] at hvalue
        cases hvalue
        have hmem := (mem_iff_lookup ho.sorted).mpr hoverlay
        cases hunder : lookup key existing with
        | none => exact ho.lookup hoverlay
        | some under => exact ih _ hmem (ho.lookup hoverlay) (hb.lookup hunder)
    | null => exact ho
    | bool => exact ho
    | number => exact ho
    | string => exact ho
    | array => exact ho

theorem mergeValue_not_object {overlay base : Value}
    (h : isObject overlay = false ∨ isObject base = false) : mergeValue overlay base = overlay := by
  cases overlay with
  | object fields =>
    cases base with
    | object existing => simp [isObject] at h
    | null => rfl
    | bool => rfl
    | number => rfl
    | string => rfl
    | array => rfl
  | null => rfl
  | bool => rfl
  | number => rfl
  | string => rfl
  | array => rfl

theorem isObject_mergeValue (overlay base : Value) :
    isObject (mergeValue overlay base) = isObject overlay := by
  cases overlay with
  | object fields => cases base <;> rfl
  | null => rfl
  | bool => rfl
  | number => rfl
  | string => rfl
  | array => rfl

theorem valueAt_not_object {path : List String} {value : Value} (hpath : path ≠ [])
    (h : isObject value = false) : valueAt path value = none := by
  cases path with
  | nil => exact absurd rfl hpath
  | cons key rest =>
    cases value with
    | object fields => cases h
    | null => rfl
    | bool => rfl
    | number => rfl
    | string => rfl
    | array => rfl

theorem valueAt_append (above below : List String) (value : Value) :
    valueAt (above ++ below) value = (valueAt above value).bind (valueAt below) := by
  induction above generalizing value with
  | nil => rfl
  | cons key rest ih =>
    cases value with
    | object fields =>
      simp only [List.cons_append, valueAt]
      cases lookup key fields with
      | none => rfl
      | some v => exact ih v
    | null => rfl
    | bool => rfl
    | number => rfl
    | string => rfl
    | array => rfl

theorem BlockedAbove.valueAt {path : List String} {value : Value} (h : BlockedAbove path value) :
    InputPaths.valueAt path value = none := by
  obtain ⟨above, below, rfl, hbelow, blocking, hblocking, hnot⟩ := h
  rw [valueAt_append, hblocking]
  exact valueAt_not_object hbelow hnot

theorem touches_nil (value : Value) : Touches [] value := Or.inl ⟨value, rfl⟩

theorem touches_of_not_object {path : List String} {value : Value} (h : isObject value = false) :
    Touches path value := by
  cases path with
  | nil => exact touches_nil value
  | cons key rest => exact Or.inr ⟨[], key :: rest, rfl, by simp, value, rfl, h⟩

theorem blockedAbove_cons {key : String} {rest : List String} {fields : List (String × Value)} :
    BlockedAbove (key :: rest) (.object fields) ↔
      ∃ value, lookup key fields = some value ∧ BlockedAbove rest value := by
  constructor
  · rintro ⟨above, below, hpath, hbelow, blocking, hblocking, hnot⟩
    cases above with
    | nil =>
      cases hblocking
      cases hnot
    | cons first above =>
      obtain ⟨rfl, rfl⟩ := List.cons.inj hpath
      obtain ⟨value, hvalue, hblocking⟩ := Option.bind_eq_some_iff.mp hblocking
      exact ⟨value, hvalue, above, below, rfl, hbelow, blocking, hblocking, hnot⟩
  · rintro ⟨value, hvalue, above, below, rfl, hbelow, blocking, hblocking, hnot⟩
    refine ⟨key :: above, below, rfl, hbelow, blocking, ?_, hnot⟩
    rw [InputPaths.valueAt, hvalue]
    exact hblocking

theorem touches_cons {key : String} {rest : List String} {fields : List (String × Value)} :
    Touches (key :: rest) (.object fields) ↔
      ∃ value, lookup key fields = some value ∧ Touches rest value := by
  unfold Touches
  rw [blockedAbove_cons]
  constructor
  · rintro (⟨found, hfound⟩ | ⟨value, hvalue, hblocked⟩)
    · obtain ⟨value, hvalue, hfound⟩ := Option.bind_eq_some_iff.mp hfound
      exact ⟨value, hvalue, Or.inl ⟨found, hfound⟩⟩
    · exact ⟨value, hvalue, Or.inr hblocked⟩
  · rintro ⟨value, hvalue, ⟨found, hfound⟩ | hblocked⟩
    · refine Or.inl ⟨found, ?_⟩
      rw [InputPaths.valueAt, hvalue]
      exact hfound
    · exact Or.inr ⟨value, hvalue, hblocked⟩

/-- A layer that does not touch a path leaves what is there. -/
theorem valueAt_untouched {path : List String} {overlay base : Value} (ho : Ordered overlay)
    (hb : Ordered base) (h : ¬ Touches path overlay) :
    valueAt path (mergeValue overlay base) = valueAt path base := by
  induction path generalizing overlay base with
  | nil => exact absurd (touches_nil overlay) h
  | cons key rest ih =>
    cases hoverlay : isObject overlay with
    | false => exact absurd (touches_of_not_object hoverlay) h
    | true =>
      cases hbase : isObject base with
      | false =>
        rw [mergeValue_not_object (Or.inr hbase), valueAt_not_object (by simp) hbase]
        rw [← Option.not_isSome_iff_eq_none, Option.isSome_iff_exists]
        exact fun hfound => h (Or.inl hfound)
      | true =>
        obtain ⟨fields, rfl⟩ : ∃ fields, overlay = .object fields := by
          cases overlay <;> simp [isObject] at hoverlay ⊢
        obtain ⟨existing, rfl⟩ : ∃ existing, base = .object existing := by
          cases base <;> simp [isObject] at hbase ⊢
        rw [touches_cons] at h
        rw [mergeValue, valueAt, valueAt, lookup_mergeFields ho.sorted hb.sorted]
        cases hoverlay : lookup key fields with
        | none => rfl
        | some upper =>
          have hrest : ¬ Touches rest upper := fun ht => h ⟨upper, hoverlay, ht⟩
          cases hunder : lookup key existing with
          | none =>
            change valueAt rest upper = none
            rw [← Option.not_isSome_iff_eq_none, Option.isSome_iff_exists]
            exact fun hfound => hrest (Or.inl hfound)
          | some under => exact ih (ho.lookup hoverlay) (hb.lookup hunder) hrest

theorem decides_self (path : List String) (layer : Value) : Decides path layer layer := by
  constructor
  · exact BlockedAbove.valueAt
  · intro value hvalue _
    exact hvalue
  · intro value hvalue hobject
    exact ⟨value, hvalue, hobject⟩

theorem Decides.of_field {key : String} {rest : List String}
    {fields merged : List (String × Value)} {upper child : Value}
    (hlayer : lookup key fields = some upper) (hmerged : lookup key merged = some child)
    (h : Decides rest upper child) : Decides (key :: rest) (.object fields) (.object merged) := by
  have hbelow : valueAt (key :: rest) (.object merged) = valueAt rest child := by
    rw [valueAt, hmerged]
    rfl
  have habove : valueAt (key :: rest) (.object fields) = valueAt rest upper := by
    rw [valueAt, hlayer]
    rfl
  constructor
  · intro hblocked
    obtain ⟨value, hvalue, hblocked⟩ := blockedAbove_cons.mp hblocked
    rw [hlayer] at hvalue
    cases hvalue
    rw [hbelow]
    exact h.blocked hblocked
  · rw [hbelow, habove]
    exact h.replaced
  · rw [hbelow, habove]
    exact h.opened

theorem decides_merge {path : List String} {overlay base : Value} (ho : Ordered overlay)
    (hb : Ordered base) (h : Touches path overlay) :
    Decides path overlay (mergeValue overlay base) := by
  induction path generalizing overlay base with
  | nil =>
    constructor
    · rintro ⟨above, below, hpath, hbelow, _⟩
      exact absurd (List.append_eq_nil_iff.mp hpath.symm).2 hbelow
    · rintro _ ⟨⟩ hnot
      rw [mergeValue_not_object (Or.inl hnot)]
      rfl
    · rintro _ ⟨⟩ hobject
      exact ⟨_, rfl, (isObject_mergeValue overlay base).trans hobject⟩
  | cons key rest ih =>
    by_cases hboth : isObject overlay = true ∧ isObject base = true
    · obtain ⟨hoverlay, hbase⟩ := hboth
      obtain ⟨fields, rfl⟩ : ∃ fields, overlay = .object fields := by
        cases overlay <;> simp [isObject] at hoverlay ⊢
      obtain ⟨existing, rfl⟩ : ∃ existing, base = .object existing := by
        cases base <;> simp [isObject] at hbase ⊢
      obtain ⟨upper, hupper, hrest⟩ := touches_cons.mp h
      have hchild := lookup_mergeFields ho.sorted hb.sorted key
      rw [hupper] at hchild
      rw [mergeValue]
      apply Decides.of_field hupper hchild
      cases hunder : lookup key existing with
      | none => exact decides_self rest upper
      | some under => exact ih (ho.lookup hupper) (hb.lookup hunder) hrest
    · rw [mergeValue_not_object]
      · exact decides_self _ overlay
      · rw [not_and_or, Bool.not_eq_true, Bool.not_eq_true] at hboth
        exact hboth

def mergeAll (layers : List Value) (base : Value) : Value :=
  layers.foldl (fun merged layer => mergeValue layer merged) base

theorem mergeAll_ordered {layers : List Value} (h : ∀ layer ∈ layers, Ordered layer) {base : Value}
    (hb : Ordered base) : Ordered (mergeAll layers base) := by
  induction layers generalizing base with
  | nil => exact hb
  | cons layer rest ih =>
    have hfirst := mergeValue_ordered (h layer List.mem_cons_self) hb
    exact ih (fun l hl => h l (List.mem_cons_of_mem _ hl)) hfirst

theorem valueAt_mergeAll_untouched {path : List String} {layers : List Value}
    (h : ∀ layer ∈ layers, Ordered layer) {base : Value} (hb : Ordered base)
    (hno : ∀ layer ∈ layers, ¬ Touches path layer) :
    valueAt path (mergeAll layers base) = valueAt path base := by
  induction layers generalizing base with
  | nil => rfl
  | cons layer rest ih =>
    have hlayer := h layer List.mem_cons_self
    have hrest := ih (fun l hl => h l (List.mem_cons_of_mem _ hl)) (mergeValue_ordered hlayer hb)
      fun l hl => hno l (List.mem_cons_of_mem _ hl)
    exact hrest.trans (valueAt_untouched hlayer hb (hno layer List.mem_cons_self))

theorem decides_mergeAll {path : List String} {before after : List Value} {layer : Value}
    (h : ∀ l ∈ before ++ layer :: after, Ordered l) {base : Value} (hb : Ordered base)
    (ht : Touches path layer) (hno : ∀ l ∈ after, ¬ Touches path l) :
    Decides path layer (mergeAll (before ++ layer :: after) base) := by
  have hlayer : Ordered layer := h layer (by simp)
  have hbefore : Ordered (mergeAll before base) :=
    mergeAll_ordered (fun l hl => h l (List.mem_append_left _ hl)) hb
  have hsplit : mergeAll (before ++ layer :: after) base =
      mergeAll after (mergeValue layer (mergeAll before base)) := by
    simp only [mergeAll, List.foldl_append, List.foldl_cons]
  have hkept := valueAt_mergeAll_untouched (fun l hl => h l (by simp [hl]))
    (mergeValue_ordered hlayer hbefore) hno
  have hdecides := decides_merge hlayer hbefore ht
  rw [hsplit]
  constructor
  · rw [hkept]
    exact hdecides.blocked
  · rw [hkept]
    exact hdecides.replaced
  · rw [hkept]
    exact hdecides.opened

theorem mergeValue_self {value : Value} (h : Ordered value) : mergeValue value value = value := by
  induction value using value_induction with
  | null => rfl
  | bool => rfl
  | number => rfl
  | string => rfl
  | array => rfl
  | object fields ih =>
    rw [mergeValue]
    congr 1
    refine sorted_ext (mergeFields_sorted h.sorted) h.sorted ?_
    intro key
    rw [lookup_mergeFields h.sorted h.sorted]
    cases hfound : lookup key fields with
    | none => rfl
    | some value =>
      exact congrArg some (ih _ ((mem_iff_lookup h.sorted).mpr hfound) (h.lookup hfound))

theorem mergeValue_idem {overlay : Value} (ho : Ordered overlay) {base : Value}
    (hb : Ordered base) :
    mergeValue overlay (mergeValue overlay base) = mergeValue overlay base := by
  induction overlay using value_induction generalizing base with
  | null => rfl
  | bool => rfl
  | number => rfl
  | string => rfl
  | array => rfl
  | object fields ih =>
    cases hbase : isObject base with
    | false => rw [mergeValue_not_object (Or.inr hbase), mergeValue_self ho]
    | true =>
      obtain ⟨existing, rfl⟩ : ∃ existing, base = .object existing := by
        cases base <;> simp [isObject] at hbase ⊢
      have honce : Sorted (mergeFields fields existing) := mergeFields_sorted hb.sorted
      simp only [mergeValue]
      congr 1
      refine sorted_ext (mergeFields_sorted honce) honce ?_
      intro key
      rw [lookup_mergeFields ho.sorted honce, lookup_mergeFields ho.sorted hb.sorted]
      cases hoverlay : lookup key fields with
      | none => rfl
      | some upper =>
        have hmem := (mem_iff_lookup ho.sorted).mpr hoverlay
        cases hunder : lookup key existing with
        | none => exact congrArg some (mergeValue_self (ho.lookup hoverlay))
        | some under =>
          exact congrArg some (ih _ hmem (ho.lookup hoverlay) (hb.lookup hunder))

theorem mergeValue_empty_overlay {base : Value} (h : isObject base = true) :
    mergeValue (.object []) base = base := by
  cases base <;> simp [isObject] at h
  rw [mergeValue, mergeFields]

theorem isObject_mergeAll {layers : List Value} (h : ∀ layer ∈ layers, isObject layer = true)
    {base : Value} (hb : isObject base = true) : isObject (mergeAll layers base) = true := by
  induction layers generalizing base with
  | nil => exact hb
  | cons layer rest ih =>
    have hfirst := (isObject_mergeValue layer base).trans (h layer List.mem_cons_self)
    exact ih (fun l hl => h l (List.mem_cons_of_mem _ hl)) hfirst

theorem validateFields_ok_iff {fields : List (String × Value)} :
    validateFields fields = .ok () ↔
      ∀ e ∈ fields, validSegment e.1 = true ∧ validateEntries e.2 = .ok () := by
  induction fields with
  | nil => simp [validateFields]
  | cons field rest ih =>
    obtain ⟨key, value⟩ := field
    rw [validateFields, List.forall_mem_cons, ← ih]
    cases validSegment key with
    | false => simp [bind, Except.bind, throw, throwThe, MonadExceptOf.throw]
    | true =>
      cases validateEntries value with
      | error e => simp [bind, Except.bind]
      | ok _ => simp [bind, Except.bind]

theorem validateEntries_mergeValue {overlay : Value} (ho : Ordered overlay)
    (hvo : validateEntries overlay = .ok ()) {base : Value} (hb : Ordered base)
    (hvb : validateEntries base = .ok ()) :
    validateEntries (mergeValue overlay base) = .ok () := by
  induction overlay using value_induction generalizing base with
  | null => exact hvo
  | bool => exact hvo
  | number => exact hvo
  | string => exact hvo
  | array => exact hvo
  | object fields ih =>
    cases hbase : isObject base with
    | false => rwa [mergeValue_not_object (Or.inr hbase)]
    | true =>
      obtain ⟨existing, rfl⟩ : ∃ existing, base = .object existing := by
        cases base <;> simp [isObject] at hbase ⊢
      rw [validateEntries, validateFields_ok_iff] at hvo hvb
      rw [mergeValue, validateEntries, validateFields_ok_iff]
      rintro ⟨key, value⟩ hmem
      have hfound := (mem_iff_lookup (mergeFields_sorted hb.sorted)).mp hmem
      rw [lookup_mergeFields ho.sorted hb.sorted] at hfound
      cases hoverlay : lookup key fields with
      | none =>
        rw [hoverlay] at hfound
        exact hvb _ ((mem_iff_lookup hb.sorted).mpr hfound)
      | some upper =>
        rw [hoverlay] at hfound
        cases hfound
        have hmem := (mem_iff_lookup ho.sorted).mpr hoverlay
        obtain ⟨hkey, hoverlay'⟩ := hvo _ hmem
        refine ⟨hkey, ?_⟩
        cases hunder : lookup key existing with
        | none => exact hoverlay'
        | some under =>
          exact ih _ hmem (ho.lookup hoverlay) hoverlay' (hb.lookup hunder)
            (hvb _ ((mem_iff_lookup hb.sorted).mpr hunder)).2

theorem validateEntries_mergeAll {layers : List Value} (h : ∀ layer ∈ layers, Ordered layer)
    (hv : ∀ layer ∈ layers, validateEntries layer = .ok ()) {base : Value} (hb : Ordered base)
    (hvb : validateEntries base = .ok ()) : validateEntries (mergeAll layers base) = .ok () := by
  induction layers generalizing base with
  | nil => exact hvb
  | cons layer rest ih =>
    have hfirst := h layer List.mem_cons_self
    exact ih (fun l hl => h l (List.mem_cons_of_mem _ hl))
      (fun l hl => hv l (List.mem_cons_of_mem _ hl)) (mergeValue_ordered hfirst hb)
      (validateEntries_mergeValue hfirst (hv layer List.mem_cons_self) hb hvb)

theorem mergeLayers_eq {F : FloatFormat} {layers : List Value}
    (hv : ∀ layer ∈ layers, validateInputs F layer = .ok ()) (base : Value) :
    mergeLayers F layers base = (do
      validateInputs F (mergeAll layers base)
      return mergeAll layers base) := by
  induction layers generalizing base with
  | nil => rfl
  | cons layer rest ih =>
    rw [mergeLayers, hv layer List.mem_cons_self]
    exact ih (fun l hl => hv l (List.mem_cons_of_mem _ hl)) (mergeValue layer base)

theorem mergeInputs_eq {F : FloatFormat} {layers : List Value}
    (hv : ∀ layer ∈ layers, validateInputs F layer = .ok ()) :
    mergeInputs F layers = (do
      validateInputs F (mergeAll layers (.object []))
      return mergeAll layers (.object [])) := mergeLayers_eq hv _

theorem mergeInputs_ok {F : FloatFormat} {layers : List Value}
    (hv : ∀ layer ∈ layers, validateInputs F layer = .ok ()) {merged : Value}
    (h : mergeInputs F layers = .ok merged) :
    merged = mergeAll layers (.object []) ∧ validateInputs F merged = .ok () := by
  rw [mergeInputs_eq hv] at h
  obtain ⟨_, hvalid, h⟩ := FallibleLists.ok_of_bind h
  cases h
  exact ⟨rfl, hvalid⟩

theorem ordered_empty : Ordered (.object []) := Ordered.object List.Pairwise.nil (by simp [lookup])

theorem mergeInputs_resumed {F : FloatFormat} {before after : List Value}
    (hordered : ∀ l ∈ before ++ after, Ordered l)
    (hvalid : ∀ l ∈ before ++ after, validateInputs F l = .ok ()) {merged : Value}
    (h : mergeInputs F before = .ok merged) :
    mergeInputs F (merged :: after) = mergeInputs F (before ++ after) := by
  obtain ⟨hbefore, hafter⟩ := List.forall_mem_append.mp hvalid
  obtain ⟨rfl, hresult⟩ := mergeInputs_ok hbefore h
  have hmerged := mergeAll_ordered (List.forall_mem_append.mp hordered).1 ordered_empty
  have hempty : mergeValue (mergeAll before (.object [])) (.object []) =
      mergeAll before (.object []) := mergeValue_empty hmerged
  rw [mergeInputs_eq hvalid, mergeInputs_eq (List.forall_mem_cons.mpr ⟨hresult, hafter⟩)]
  simp only [mergeAll, List.foldl_cons, List.foldl_append] at hempty ⊢
  rw [hempty]

theorem mergeInputs_empty_layer {F : FloatFormat} {before after : List Value}
    (hvalid : ∀ l ∈ before ++ after, validateInputs F l = .ok ()) :
    mergeInputs F (before ++ .object [] :: after) = mergeInputs F (before ++ after) := by
  obtain ⟨hbefore, hafter⟩ := List.forall_mem_append.mp hvalid
  have hempty : validateInputs F (.object []) = .ok () := rfl
  have hlonger := List.forall_mem_append.mpr ⟨hbefore, List.forall_mem_cons.mpr ⟨hempty, hafter⟩⟩
  have hobject : isObject (mergeAll before (.object [])) = true :=
    isObject_mergeAll (fun l hl => (validateInputs_ok_iff.mp (hbefore l hl)).1) rfl
  have hneutral := mergeValue_empty_overlay hobject
  rw [mergeInputs_eq hvalid, mergeInputs_eq hlonger]
  simp only [mergeAll, List.foldl_cons, List.foldl_append] at hneutral ⊢
  rw [hneutral]

theorem mergeInputs_repeated_layer {F : FloatFormat} {before after : List Value} {layer : Value}
    (hordered : ∀ l ∈ before ++ layer :: after, Ordered l)
    (hvalid : ∀ l ∈ before ++ layer :: after, validateInputs F l = .ok ()) :
    mergeInputs F (before ++ layer :: layer :: after) =
      mergeInputs F (before ++ layer :: after) := by
  obtain ⟨hbefore, hafter⟩ := List.forall_mem_append.mp hvalid
  have hlonger := List.forall_mem_append.mpr
    ⟨hbefore, List.forall_mem_cons.mpr ⟨hafter layer List.mem_cons_self, hafter⟩⟩
  have hmerged := mergeAll_ordered (List.forall_mem_append.mp hordered).1 ordered_empty
  have hidem := mergeValue_idem (hordered layer (by simp)) hmerged
  rw [mergeInputs_eq hvalid, mergeInputs_eq hlonger]
  simp only [mergeAll, List.foldl_cons, List.foldl_append] at hidem ⊢
  rw [hidem]

theorem mergeInputs_error {F : FloatFormat} {layers : List Value}
    (hordered : ∀ l ∈ layers, Ordered l) (hvalid : ∀ l ∈ layers, validateInputs F l = .ok ())
    {e : InputError} (h : mergeInputs F layers = .error e) : e = .tooLarge := by
  have hvalidated (l : Value) (hl : l ∈ layers) :=
    validateInputs_ok_iff.mp (hvalid l hl)
  have hobject : isObject (mergeAll layers (.object [])) = true :=
    isObject_mergeAll (fun l hl => (hvalidated l hl).1) rfl
  have hentries : validateEntries (mergeAll layers (.object [])) = .ok () :=
    validateEntries_mergeAll hordered (fun l hl => (hvalidated l hl).2.1) ordered_empty rfl
  rw [mergeInputs_eq hvalid, validateInputs, hobject, hentries] at h
  by_cases hlarge : maxInputBytes < encodedLength F (mergeAll layers (.object []))
  · simp [hlarge, bind, Except.bind, throw, throwThe, MonadExceptOf.throw] at h
    exact h.symm
  · simp [hlarge, bind, Except.bind, pure, Except.pure] at h

/-- At every path below the root the last layer that touches it decides; so merging may stop and
resume, an empty layer and a repeated one change nothing, and only the size can be refused. -/
theorem merge_inputs_last_writer_wins {F : FloatFormat} {layers : List Value}
    (hordered : ∀ l ∈ layers, Ordered l) (hvalid : ∀ l ∈ layers, validateInputs F l = .ok ()) :
    (∀ merged, mergeInputs F layers = .ok merged → ∀ path, path ≠ [] →
      ((∀ l ∈ layers, ¬ Touches path l) → valueAt path merged = none) ∧
      ∀ before layer after, layers = before ++ layer :: after → Touches path layer →
        (∀ l ∈ after, ¬ Touches path l) → Decides path layer merged) ∧
    (∀ before after, layers = before ++ after →
      (∀ merged, mergeInputs F before = .ok merged →
        mergeInputs F (merged :: after) = mergeInputs F layers) ∧
      mergeInputs F (before ++ .object [] :: after) = mergeInputs F layers) ∧
    (∀ before layer after, layers = before ++ layer :: after →
      mergeInputs F (before ++ layer :: layer :: after) = mergeInputs F layers) ∧
    ∀ e, mergeInputs F layers = .error e → e = .tooLarge := by
  refine ⟨?_, ?_, ?_, fun e => mergeInputs_error hordered hvalid⟩
  · intro merged h path hpath
    obtain ⟨rfl, _⟩ := mergeInputs_ok hvalid h
    constructor
    · intro hno
      rw [valueAt_mergeAll_untouched hordered ordered_empty hno]
      cases path with
      | nil => exact absurd rfl hpath
      | cons key rest => rfl
    · rintro before layer after rfl ht hno
      exact decides_mergeAll hordered ordered_empty ht hno
  · rintro before after rfl
    exact ⟨fun merged => mergeInputs_resumed hordered hvalid, mergeInputs_empty_layer hvalid⟩
  · rintro before layer after rfl
    exact mergeInputs_repeated_layer hordered hvalid

def demoLayers : List Value :=
  [.object [("a", .number (.posInt 5))], .object [("a", .object [("b", .bool true)])]]

theorem demoLayers_ordered : ∀ l ∈ demoLayers, Ordered l := by
  simp [demoLayers, Ordered, OrderedFields]

theorem reopened_object_decides :
    ∃ merged, mergeInputs ⟨fun _ => [], id, id⟩ demoLayers = .ok merged ∧
      valueAt ["a", "b"] merged = some (.bool true) := by
  have hvalid : ∀ l ∈ demoLayers, validateInputs ⟨fun _ => [], id, id⟩ l = .ok () := by decide
  have hmerged : mergeInputs ⟨fun _ => [], id, id⟩ demoLayers =
      .ok (.object [("a", .object [("b", .bool true)])]) := by decide
  have hlast : Touches ["a", "b"] (.object [("a", .object [("b", .bool true)])]) :=
    Or.inl ⟨.bool true, rfl⟩
  obtain ⟨hpaths, _⟩ := merge_inputs_last_writer_wins demoLayers_ordered hvalid
  obtain ⟨_, hlastWins⟩ := hpaths _ hmerged ["a", "b"] (by simp)
  have hdecides := hlastWins [.object [("a", .number (.posInt 5))]] _ [] rfl hlast (by simp)
  exact ⟨_, hmerged, hdecides.replaced _ rfl rfl⟩

end InputPaths
