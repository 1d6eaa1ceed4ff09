import Crono.ArgumentTemplates
import Crono.InputPaths
import Crono.TextPatterns

/-! The paths offered for previews and completion, and the placeholders that render. The collector
joins keys with dots on its way down; the renderer cuts a path at its dots. -/
namespace ScalarPaths

open RunDomain ExecutionInputs ArgumentTemplates DelimiterSearch InputPaths
open FallibleLists
open TextPatterns (whitespace)

def isScalar : Value → Bool
  | .string _ | .number _ | .bool _ => true
  | .null | .array _ | .object _ => false

def fieldPath (above key : String) : String :=
  if above.isEmpty then key else above ++ "." ++ key

mutual
def collectScalarPaths : (value : Value) → (above : String) → List String
  | .object fields, above => collectFields fields above
  | .null, _ | .bool _, _ | .number _, _ | .string _, _ | .array _, _ => []

def collectFields : (fields : List (String × Value)) → (above : String) → List String
  | [], _ => []
  | (key, nested) :: rest, above =>
    (if isScalar nested then [fieldPath above key]
      else collectScalarPaths nested (fieldPath above key)) ++ collectFields rest above
end

def scalarPaths (inputs : Value) : List String := collectScalarPaths inputs ""

mutual
def leafPaths : Value → List (List String)
  | .object fields => leafFields fields
  | .string _ | .number _ | .bool _ => [[]]
  | .null | .array _ => []

def leafFields : List (String × Value) → List (List String)
  | [] => []
  | (key, nested) :: rest => (leafPaths nested).map (key :: ·) ++ leafFields rest
end

/-- Keys joined with dots. -/
def dotted (keys : List String) : String :=
  String.ofList (['.'].intercalate (keys.map String.toList))

def placeholder (text : String) : List Char := opening ++ (text.toList ++ closing)

def Renders (quote : String → String) (F : FloatFormat) (inputs : Value) (text : String) : Prop :=
  ∃ outputs, renderArguments quote F [placeholder text] inputs = .ok outputs

theorem isScalar_iff (F : FloatFormat) (value : Value) :
    isScalar value = true ↔ ∃ text, scalarText F value = some text := by
  cases value <;> simp [isScalar, scalarText]

theorem leafFields_eq (fields : List (String × Value)) :
    leafFields fields = fields.flatMap fun e => (leafPaths e.2).map (e.1 :: ·) := by
  induction fields with
  | nil => rfl
  | cons field rest ih => rw [leafFields, ih, List.flatMap_cons]

/-- The collected key paths are those that lead to a scalar. -/
theorem mem_leafPaths {value : Value} (h : Ordered value) {keys : List String} :
    keys ∈ leafPaths value ↔ ∃ leaf, valueAt keys value = some leaf ∧ isScalar leaf = true := by
  induction value using value_induction generalizing keys with
  | object fields ih =>
    rw [leafPaths, leafFields_eq, List.mem_flatMap]
    constructor
    · rintro ⟨⟨key, nested⟩, hmem, hkeys⟩
      obtain ⟨below, hbelow, rfl⟩ := List.mem_map.mp hkeys
      have hfound := (mem_iff_lookup h.sorted).mp hmem
      rw [valueAt, hfound]
      exact (ih _ hmem (h.lookup hfound)).mp hbelow
    · rintro ⟨leaf, hleaf, hscalar⟩
      cases keys with
      | nil =>
        cases hleaf
        cases hscalar
      | cons key below =>
        obtain ⟨nested, hfound, hleaf⟩ := Option.bind_eq_some_iff.mp hleaf
        have hmem := (mem_iff_lookup h.sorted).mpr hfound
        refine ⟨(key, nested), hmem, List.mem_map.mpr ⟨below, ?_, rfl⟩⟩
        exact (ih _ hmem (h.lookup hfound)).mpr ⟨leaf, hleaf, hscalar⟩
  | null => cases keys <;> simp [leafPaths, valueAt, isScalar]
  | bool => cases keys <;> simp [leafPaths, valueAt, isScalar]
  | number => cases keys <;> simp [leafPaths, valueAt, isScalar]
  | string => cases keys <;> simp [leafPaths, valueAt, isScalar]
  | array => cases keys <;> simp [leafPaths, valueAt, isScalar]

theorem leafPaths_nodup {value : Value} (h : Ordered value) : (leafPaths value).Nodup := by
  induction value using value_induction with
  | object fields ih =>
    rw [leafPaths, leafFields_eq, List.nodup_flatMap]
    constructor
    · rintro ⟨key, nested⟩ hmem
      have hfound := (mem_iff_lookup h.sorted).mp hmem
      exact (ih _ hmem (h.lookup hfound)).map (List.cons_injective)
    · refine h.sorted.imp ?_
      rintro ⟨key, nested⟩ ⟨key', nested'⟩ hlt keys hkeys hkeys'
      obtain ⟨below, _, rfl⟩ := List.mem_map.mp hkeys
      obtain ⟨below', _, heq⟩ := List.mem_map.mp hkeys'
      exact absurd (List.cons.inj heq).1.symm hlt.ne
  | null => exact List.nodup_nil
  | bool => exact List.nodup_singleton _
  | number => exact List.nodup_singleton _
  | string => exact List.nodup_singleton _
  | array => exact List.nodup_nil

theorem segment_character {c : Char}
    (h : (lowercase c || ('0' ≤ c && c ≤ '9') || c = '_' || c = '-') = true) :
    c ≠ '.' ∧ c ≠ '}' ∧ whitespace c = false := by
  have hle (a b : Char) : a ≤ b ↔ a.toNat ≤ b.toNat := UInt32.le_iff_toNat_le
  have hne {d : Char} (hd : c.toNat ≠ d.toNat) : c ≠ d := fun heq => hd (congrArg Char.toNat heq)
  simp only [lowercase, Bool.or_eq_true, Bool.and_eq_true, decide_eq_true_eq, hle] at h
  have hrange : c.toNat = 45 ∨ (48 ≤ c.toNat ∧ c.toNat ≤ 57) ∨ c.toNat = 95 ∨
      (97 ≤ c.toNat ∧ c.toNat ≤ 122) := by
    rcases h with ((⟨hlow, hhigh⟩ | ⟨hlow, hhigh⟩) | rfl) | rfl
    · exact Or.inr (Or.inr (Or.inr ⟨hlow, hhigh⟩))
    · exact Or.inr (Or.inl ⟨hlow, hhigh⟩)
    · exact Or.inr (Or.inr (Or.inl rfl))
    · exact Or.inl rfl
  refine ⟨hne ?_, hne ?_, ?_⟩
  · change c.toNat ≠ 46
    omega
  · change c.toNat ≠ 125
    omega
  · rw [Bool.eq_false_iff]
    simp only [whitespace, ne_eq, Bool.or_eq_true, Bool.and_eq_true, decide_eq_true_eq]
    omega

/-- A key as the grammar of inputs has it: not empty, without a dot, a brace or a blank. -/
theorem validSegment_characters {segment : String} (h : validSegment segment = true) :
    segment.toList ≠ [] ∧ ∀ c ∈ segment.toList, c ≠ '.' ∧ c ≠ '}' ∧ whitespace c = false := by
  unfold validSegment at h
  cases htext : segment.toList with
  | nil => simp [htext] at h
  | cons first rest =>
    simp only [htext, Bool.and_eq_true, List.all_eq_true] at h
    refine ⟨List.cons_ne_nil _ _, ?_⟩
    intro c hc
    rcases List.mem_cons.mp hc with rfl | hc
    · apply segment_character
      rcases Bool.or_eq_true _ _ |>.mp h.1 with hlower | hunder
      · simp [hlower]
      · simp only [decide_eq_true_eq] at hunder
        simp [hunder]
    · exact segment_character (h.2 c hc)

theorem dotted_concat {above : List String} (hne : above ≠ []) (key : String) :
    dotted (above ++ [key]) = dotted above ++ "." ++ key := by
  have hjoined : ['.'].intercalate ((above ++ [key]).map String.toList) =
      ['.'].intercalate (above.map String.toList) ++ '.' :: key.toList := by
    induction above with
    | nil => exact absurd rfl hne
    | cons first rest ih =>
      cases rest with
      | nil => simp [List.intercalate_cons_cons]
      | cons second rest =>
        have hstep := ih (List.cons_ne_nil _ _)
        simp only [List.cons_append, List.map_cons, List.intercalate_cons_cons] at hstep ⊢
        rw [hstep]
        simp
  apply String.ext
  rw [dotted, hjoined]
  simp [dotted]

theorem dotted_ne_empty {above : List String} (hne : above ≠ [])
    (h : ∀ key ∈ above, validSegment key = true) : (dotted above).isEmpty = false := by
  cases above with
  | nil => exact absurd rfl hne
  | cons first rest =>
    have hfirst := (validSegment_characters (h first List.mem_cons_self)).1
    have htext : (dotted (first :: rest)).toList ≠ [] := by
      rw [dotted, String.toList_ofList]
      cases rest with
      | nil => simpa using hfirst
      | cons second rest => simp [List.intercalate_cons_cons, hfirst]
    rw [Bool.eq_false_iff]
    intro hempty
    apply htext
    rw [String.isEmpty_iff.mp hempty]
    rfl

theorem fieldPath_dotted {above : List String} (h : ∀ key ∈ above, validSegment key = true)
    (key : String) : fieldPath (dotted above) key = dotted (above ++ [key]) := by
  unfold fieldPath
  by_cases hne : above = []
  · subst hne
    simp [dotted]
  · rw [dotted_ne_empty hne h, dotted_concat hne]
    rfl

theorem splitOn_dotted {keys : List String} (hne : keys ≠ [])
    (h : ∀ key ∈ keys, validSegment key = true) :
    (dotted keys).toList.splitOn '.' = keys.map String.toList := by
  rw [dotted, String.toList_ofList]
  refine List.splitOn_intercalate '.' ?_ (by simpa using hne)
  intro text htext hdot
  obtain ⟨key, hkey, rfl⟩ := List.mem_map.mp htext
  exact ((validSegment_characters (h key hkey)).2 _ hdot).1 rfl

theorem collectScalarPaths_eq {value : Value} (hvalid : validateEntries value = .ok ())
    (hobject : isScalar value = false) {above : List String}
    (habove : ∀ key ∈ above, validSegment key = true) :
    collectScalarPaths value (dotted above) =
      (leafPaths value).map fun keys => dotted (above ++ keys) := by
  induction value using value_induction generalizing above with
  | object fields ih =>
    rw [validateEntries, validateFields_ok_iff] at hvalid
    rw [collectScalarPaths, leafPaths]
    induction fields with
    | nil => rfl
    | cons field rest ihrest =>
      obtain ⟨key, nested⟩ := field
      obtain ⟨⟨hkey, hnested⟩, hrest⟩ := List.forall_mem_cons.mp hvalid
      obtain ⟨ihnested, ihfields⟩ := List.forall_mem_cons.mp ih
      rw [collectFields, leafFields, List.map_append, List.map_map,
        ihrest ihfields hrest rfl, fieldPath_dotted habove]
      congr 1
      cases hscalar : isScalar nested with
      | true => cases nested <;> first | rfl | cases hscalar
      | false =>
        have hkeys : ∀ k ∈ above ++ [key], validSegment k = true :=
          List.forall_mem_append.mpr ⟨habove, by simpa using hkey⟩
        rw [if_neg (by simp), ihnested hnested hscalar hkeys]
        simp
  | null => rfl
  | bool => cases hobject
  | number => cases hobject
  | string => cases hobject
  | array => rfl

theorem resolve_eq_valueAt (segments : List (List Char)) (value : Value) :
    resolve segments value = valueAt (segments.map String.ofList) value := by
  induction segments generalizing value with
  | nil => rfl
  | cons segment rest ih =>
    cases value with
    | object fields =>
      rw [List.map_cons, resolve, valueAt]
      change (lookup (String.ofList segment) fields).bind (resolve rest) = _
      rw [funext ih]
    | null => rfl
    | bool => rfl
    | number => rfl
    | string => rfl
    | array => rfl

theorem valueAt_keys {keys : List String} {value leaf : Value}
    (h : validateEntries value = .ok ()) (hleaf : valueAt keys value = some leaf) :
    ∀ key ∈ keys, validSegment key = true := by
  induction keys generalizing value with
  | nil => simp
  | cons key rest ih =>
    cases value with
    | object fields =>
      obtain ⟨nested, hfound, hleaf⟩ := Option.bind_eq_some_iff.mp hleaf
      obtain ⟨e, he, rfl⟩ := Option.map_eq_some_iff.mp hfound
      have hkey : e.1 = key := by simpa using List.find?_some he
      rw [validateEntries, validateFields_ok_iff] at h
      obtain ⟨hsegment, hnested⟩ := h e (List.mem_of_find?_eq_some he)
      exact List.forall_mem_cons.mpr ⟨hkey ▸ hsegment, ih hnested hleaf⟩
    | null => cases hleaf
    | bool => cases hleaf
    | number => cases hleaf
    | string => cases hleaf
    | array => cases hleaf

section Inputs

variable {quote : String → String} {F : FloatFormat} {inputs : Value}

theorem isScalar_inputs (hvalid : validateInputs F inputs = .ok ()) : isScalar inputs = false := by
  have hobject := (validateInputs_ok_iff.mp hvalid).1
  cases inputs <;> first | rfl | cases hobject

theorem scalarPaths_eq (hvalid : validateInputs F inputs = .ok ()) :
    scalarPaths inputs = (leafPaths inputs).map dotted := by
  have hentries := (validateInputs_ok_iff.mp hvalid).2.1
  exact @collectScalarPaths_eq inputs hentries (isScalar_inputs hvalid) [] (by simp)

/-- The inputs are an object, so no scalar is found without a key. -/
theorem leafPaths_inputs (hordered : Ordered inputs) (hvalid : validateInputs F inputs = .ok ())
    {keys : List String} : keys ∈ leafPaths inputs ↔
      keys ≠ [] ∧ ∃ leaf, valueAt keys inputs = some leaf ∧ isScalar leaf = true := by
  rw [mem_leafPaths hordered]
  refine ⟨?_, fun h => h.2⟩
  rintro ⟨leaf, hleaf, hscalar⟩
  refine ⟨?_, leaf, hleaf, hscalar⟩
  rintro rfl
  cases hleaf
  rw [isScalar_inputs hvalid] at hscalar
  cases hscalar

theorem mem_scalarPaths (hordered : Ordered inputs) (hvalid : validateInputs F inputs = .ok ())
    {path : String} : path ∈ scalarPaths inputs ↔ ∃ keys leaf, path = dotted keys ∧ keys ≠ [] ∧
      valueAt keys inputs = some leaf ∧ isScalar leaf = true := by
  rw [scalarPaths_eq hvalid, List.mem_map]
  constructor
  · rintro ⟨keys, hkeys, rfl⟩
    obtain ⟨hne, leaf, hleaf, hscalar⟩ := (leafPaths_inputs hordered hvalid).mp hkeys
    exact ⟨keys, leaf, rfl, hne, hleaf, hscalar⟩
  · rintro ⟨keys, leaf, rfl, hne, hleaf, hscalar⟩
    exact ⟨keys, (leafPaths_inputs hordered hvalid).mpr ⟨hne, leaf, hleaf, hscalar⟩, rfl⟩

theorem dotted_injective (hvalid : validateInputs F inputs = .ok ()) {keys keys' : List String}
    {leaf leaf' : Value} (hleaf : valueAt keys inputs = some leaf) (hne : keys ≠ [])
    (hleaf' : valueAt keys' inputs = some leaf') (hne' : keys' ≠ [])
    (heq : dotted keys = dotted keys') : keys = keys' := by
  have hentries := (validateInputs_ok_iff.mp hvalid).2.1
  have hsplit := splitOn_dotted hne (valueAt_keys hentries hleaf)
  rw [heq, splitOn_dotted hne' (valueAt_keys hentries hleaf')] at hsplit
  exact (List.map_injective_iff.mpr fun _ _ h => String.toList_injective h) hsplit.symm

theorem scalarPaths_nodup (hordered : Ordered inputs) (hvalid : validateInputs F inputs = .ok ()) :
    (scalarPaths inputs).Nodup := by
  rw [scalarPaths_eq hvalid]
  refine (leafPaths_nodup hordered).map_on ?_
  intro keys hkeys keys' hkeys' heq
  obtain ⟨hne, leaf, hleaf, _⟩ := (leafPaths_inputs hordered hvalid).mp hkeys
  obtain ⟨hne', leaf', hleaf', _⟩ := (leafPaths_inputs hordered hvalid).mp hkeys'
  exact dotted_injective hvalid hleaf hne hleaf' hne' heq

/-- A placeholder that closes where it should is cut into one path between two empty texts. -/
theorem placeholder_splits {text : String} (hclosed : ¬ Doubled '}' (text.toList ++ ['}'])) :
    Splits (placeholder text) [.literal [], .path (trim text.toList), .literal []] := by
  have hopen : ¬ Doubled '{' ([] ++ ['{']) := not_doubled_short (by simp)
  have hrest : Splits [] [.literal []] := .plain (not_doubled_short (by simp))
  exact .placeholder hopen (by simp) hclosed hrest

theorem renders_iff (hvalid : validateInputs F inputs = .ok ()) {text : String}
    (hclosed : ¬ Doubled '}' (text.toList ++ ['}'])) : Renders quote F inputs text ↔
      validPath (trim text.toList) = true ∧
        ∃ rendered, pathText F inputs (trim text.toList) = some rendered := by
  have hsplits := placeholder_splits hclosed
  constructor
  · rintro ⟨outputs, h⟩
    obtain ⟨pieces, hpieces, hpaths⟩ := accepted_of_renderArguments h List.mem_cons_self
    rw [hpieces.unique hsplits] at hpaths
    refine ⟨hpaths _ (by simp), ?_⟩
    rw [renderArguments_valid hvalid] at h
    obtain ⟨output, houtput⟩ := mapM_succeeds_iff.mp ⟨outputs, h⟩ _ List.mem_cons_self
    obtain ⟨texts, htexts, _⟩ := (parseTemplate_render hsplits hpaths).mp houtput
    obtain ⟨rendered, _, hrendered⟩ := forall₂_of_mem htexts
      (show .path (trim text.toList) ∈ _ by simp)
    exact ⟨rendered, hrendered⟩
  · rintro ⟨hpath, rendered, hrendered⟩
    have hpaths : PathsValid [.literal [], .path (trim text.toList), .literal []] := by
      intro path hmem
      simp only [List.mem_cons, reduceCtorEq, Piece.path.injEq, List.not_mem_nil, or_false,
        false_or] at hmem
      rw [hmem]
      exact hpath
    have htexts : List.Forall₂ (fun piece t => pieceText F inputs piece = some t)
        [.literal [], .path (trim text.toList), .literal []] [[], rendered, []] :=
      .cons rfl (.cons hrendered (.cons rfl .nil))
    have houtput : parseTemplate quote F (some inputs) (placeholder text) = .ok _ :=
      (parseTemplate_render hsplits hpaths).mpr ⟨_, htexts, rfl⟩
    unfold Renders
    rw [renderArguments_valid hvalid, mapM_succeeds_iff]
    intro template htemplate
    rw [List.mem_singleton.mp htemplate]
    exact ⟨_, houtput⟩

/-- What the renderer finds at a valid path is what the collector lists. -/
theorem listed_iff (hordered : Ordered inputs) (hvalid : validateInputs F inputs = .ok ())
    (path : List Char) : String.ofList path ∈ scalarPaths inputs ↔
      validPath path = true ∧ ∃ rendered, pathText F inputs path = some rendered := by
  have hentries := (validateInputs_ok_iff.mp hvalid).2.1
  rw [mem_scalarPaths hordered hvalid]
  constructor
  · rintro ⟨keys, leaf, hpath, hne, hleaf, hscalar⟩
    have hsegments := valueAt_keys hentries hleaf
    have hsplit : path.splitOn '.' = keys.map String.toList := by
      rw [← splitOn_dotted hne hsegments, ← hpath, String.toList_ofList]
    constructor
    · unfold validPath
      rw [hsplit]
      have hnonempty : path ≠ [] := by
        rintro rfl
        have hempty := dotted_ne_empty hne hsegments
        rw [← hpath] at hempty
        exact absurd hempty (by decide)
      simpa [hnonempty] using hsegments
    · obtain ⟨rendered, hrendered⟩ := (isScalar_iff F leaf).mp hscalar
      refine ⟨rendered, ?_⟩
      rw [pathText, hsplit, resolve_eq_valueAt, List.map_map]
      have hid : String.ofList ∘ String.toList = id := funext fun _ => String.ofList_toList
      rw [hid, List.map_id, hleaf]
      exact hrendered
  · rintro ⟨hpath, rendered, hrendered⟩
    obtain ⟨leaf, hleaf, hscalar⟩ := Option.bind_eq_some_iff.mp hrendered
    rw [resolve_eq_valueAt] at hleaf
    refine ⟨_, leaf, ?_, ?_, hleaf, (isScalar_iff F leaf).mpr ⟨rendered, hscalar⟩⟩
    · have hid : String.toList ∘ String.ofList = id := funext fun _ => String.toList_ofList
      rw [dotted, List.map_map, hid, List.map_id, List.intercalate_splitOn]
    · simp

theorem dotted_characters {keys : List String} (h : ∀ key ∈ keys, validSegment key = true) :
    ∀ c ∈ (dotted keys).toList, c ≠ '}' ∧ whitespace c = false := by
  rw [dotted, String.toList_ofList]
  induction keys with
  | nil => simp
  | cons key rest ih =>
    obtain ⟨hkey, hrest⟩ := List.forall_mem_cons.mp h
    have hcharacters := (validSegment_characters hkey).2
    cases rest with
    | nil =>
      simp only [List.map_cons, List.map_nil, List.intercalate_singleton]
      exact fun c hc => (hcharacters c hc).2
    | cons second rest =>
      intro c hc
      simp only [List.map_cons, List.intercalate_cons_cons, List.mem_append,
        List.mem_singleton] at hc ih
      rcases hc with (hc | rfl) | hc
      · exact (hcharacters c hc).2
      · decide
      · exact ih hrest c hc

/-- A listed path has no brace and no blank, so its placeholder is read as it stands. -/
theorem listed_plain (hordered : Ordered inputs) (hvalid : validateInputs F inputs = .ok ())
    {path : String} (h : path ∈ scalarPaths inputs) :
    ¬ Doubled '}' (path.toList ++ ['}']) ∧ trim path.toList = path.toList := by
  obtain ⟨keys, leaf, rfl, _, hleaf, _⟩ := (mem_scalarPaths hordered hvalid).mp h
  have hentries := (validateInputs_ok_iff.mp hvalid).2.1
  have hcharacters := dotted_characters (valueAt_keys hentries hleaf)
  constructor
  · rw [doubled_concat]
    rintro (⟨hlast, _⟩ | hdoubled)
    · exact (hcharacters _ (List.mem_of_getLast? hlast)).1 rfl
    · exact (hcharacters _ (hdoubled.subset List.mem_cons_self)).1 rfl
  · apply TextPatterns.trimBy_of_tight
    constructor
    · intro c hc
      exact (hcharacters c (List.mem_of_head? hc)).2
    · intro c hc
      exact (hcharacters c (List.mem_of_getLast? hc)).2

/-- Every listed path renders; a placeholder without a closing delimiter of its own renders when
the text in it, trimmed, is listed; and a listed path belongs to one value only. -/
theorem scalar_paths_are_the_renderable_paths (quote : String → String)
    (hordered : Ordered inputs) (hvalid : validateInputs F inputs = .ok ()) :
    (∀ path ∈ scalarPaths inputs, Renders quote F inputs path) ∧
      (∀ text : String, ¬ Doubled '}' (text.toList ++ ['}']) →
        (Renders quote F inputs text ↔ String.ofList (trim text.toList) ∈ scalarPaths inputs)) ∧
      (scalarPaths inputs).Nodup ∧
      ∀ path ∈ scalarPaths inputs, ∃! keys : List String,
        keys ≠ [] ∧ path = dotted keys ∧ ∃ value, valueAt keys inputs = some value := by
  have hplaceholder (text : String) (hclosed : ¬ Doubled '}' (text.toList ++ ['}'])) :
      Renders quote F inputs text ↔ String.ofList (trim text.toList) ∈ scalarPaths inputs := by
    rw [renders_iff hvalid hclosed, listed_iff hordered hvalid]
  refine ⟨?_, hplaceholder, scalarPaths_nodup hordered hvalid, ?_⟩
  · intro path hpath
    obtain ⟨hclosed, htrim⟩ := listed_plain hordered hvalid hpath
    rw [hplaceholder path hclosed, htrim, String.ofList_toList]
    exact hpath
  · intro path hpath
    obtain ⟨keys, leaf, rfl, hne, hleaf, _⟩ := (mem_scalarPaths hordered hvalid).mp hpath
    refine ⟨keys, ⟨hne, rfl, leaf, hleaf⟩, ?_⟩
    rintro keys' ⟨hne', heq, value, hvalue⟩
    exact (dotted_injective hvalid hleaf hne hvalue hne' heq).symm

end Inputs

def demoFormat : FloatFormat := ⟨fun _ => [], id, id⟩

def demoInputs : Value :=
  .object [("a", .bool true), ("job", .object [("name", .string "backup")])]

theorem demoInputs_ordered : Ordered demoInputs := by
  have hkeys : Sorted [("a", Value.bool true), ("job", .object [("name", .string "backup")])] := by
    decide
  have hjob : Sorted [("name", Value.string "backup")] := by decide
  rw [demoInputs, Ordered]
  exact ⟨hkeys, by simp [OrderedFields, Ordered, hjob]⟩

theorem listed_path_renders_demo :
    Renders id demoFormat demoInputs "job.name" ∧ (scalarPaths demoInputs).Nodup := by
  obtain ⟨hlisted, _, hnodup, _⟩ :=
    @scalar_paths_are_the_renderable_paths demoFormat demoInputs id demoInputs_ordered (by decide)
  exact ⟨hlisted "job.name" (by decide), hnodup⟩

/-- Blanks around a path are dropped by the renderer and not listed. -/
theorem padded_path_renders_unlisted :
    Ordered demoInputs ∧ validateInputs demoFormat demoInputs = .ok () ∧
      ¬ (" a " ∈ scalarPaths demoInputs ↔ Renders id demoFormat demoInputs " a ") := by
  have hvalid : validateInputs demoFormat demoInputs = .ok () := by decide
  have hrenders : Renders id demoFormat demoInputs " a " := by
    have hclosed : ¬ Doubled '}' (" a ".toList ++ ['}']) :=
      findDoubled_none.mp (by decide)
    rw [renders_iff hvalid hclosed, ← listed_iff demoInputs_ordered hvalid]
    decide
  refine ⟨demoInputs_ordered, hvalid, ?_⟩
  rw [iff_true_right hrenders]
  decide

end ScalarPaths
