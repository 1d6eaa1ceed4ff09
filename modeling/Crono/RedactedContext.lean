import Crono.SecretRedaction

/-! The inputs a run publishes: everything below a sensitive key is replaced by the marker, and
every other text is searched for the collected secrets. -/
namespace RedactedContext

open RunDomain ExecutionInputs FencedReplacement WorkerOutput SecretRedaction
open ArgumentTemplates (scalarText)
open InputPaths (lookup value_induction)

mutual
/-- `Redactor::values`. -/
def values (redactor : Redactor) : Value → Value
  | .object fields => .object (fieldValues redactor fields)
  | .array items => .array (itemValues redactor items)
  | .string text => .string (String.ofList (redactor.text text.toList))
  | .null => .null
  | .bool b => .bool b
  | .number n => .number n

def itemValues (redactor : Redactor) : List Value → List Value
  | [] => []
  | item :: rest => values redactor item :: itemValues redactor rest

def fieldValues (redactor : Redactor) : List (String × Value) → List (String × Value)
  | [] => []
  | (key, value) :: rest =>
    (key, if sensitiveKey key.toList then .string "<redacted>" else values redactor value) ::
      fieldValues redactor rest
end

inductive Step where
  | key (key : String)
  | index (i : ℕ)
  deriving DecidableEq, Repr

def find : List Step → Value → Option Value
  | [], value => some value
  | .key key :: below, .object fields => (lookup key fields).bind (find below)
  | .index i :: below, .array items => items[i]?.bind (find below)
  | _ :: _, _ => none

def Innocuous (place : List Step) : Prop :=
  ∀ key, .key key ∈ place → sensitiveKey key.toList = false

def isLeaf : Value → Bool
  | .array _ | .object _ => false
  | .null | .bool _ | .number _ | .string _ => true

/-- A number or a boolean: printed as text where it is a secret, but not a text. -/
def isPrinted : Value → Bool
  | .bool _ | .number _ => true
  | .null | .string _ | .array _ | .object _ => false

def Silent (F : FloatFormat) (redactor : Redactor) (value : Value) : Prop :=
  ∀ text, scalarText F value = some text → ∀ s ∈ redactor.secrets, ¬ s <:+: text

/-- The published inputs show no secret, mark what is below a sensitive key, and keep the rest. -/
structure Hidden (F : FloatFormat) (redactor : Redactor) (inputs published : Value) : Prop where
  silent : ∀ place leaf, find place published = some leaf → Silent F redactor leaf
  marked : ∀ above key, Innocuous above → sensitiveKey key.toList = true →
    (∃ value, find (above ++ [.key key]) inputs = some value) →
      find (above ++ [.key key]) published = some (.string "<redacted>")
  kept : ∀ place leaf, Innocuous place → find place inputs = some leaf → isLeaf leaf = true →
    Silent F redactor leaf → find place published = some leaf

variable {redactor : Redactor}

theorem lookup_fieldValues (key : String) (fields : List (String × Value)) :
    lookup key (fieldValues redactor fields) = (lookup key fields).map fun value =>
      if sensitiveKey key.toList then .string "<redacted>" else values redactor value := by
  induction fields with
  | nil => rfl
  | cons field rest ih =>
    obtain ⟨k, value⟩ := field
    rw [fieldValues, InputPaths.lookup_cons, InputPaths.lookup_cons, ih]
    by_cases hk : k = key
    · rw [if_pos hk, if_pos hk, hk]
      rfl
    · rw [if_neg hk, if_neg hk]

theorem getElem?_itemValues (items : List Value) (i : ℕ) :
    (itemValues redactor items)[i]? = items[i]?.map (values redactor) := by
  induction items generalizing i with
  | nil => rfl
  | cons item rest ih =>
    cases i with
    | zero => rfl
    | succ i => exact ih i

theorem find_append (above below : List Step) (value : Value) :
    find (above ++ below) value = (find above value).bind (find below) := by
  induction above generalizing value with
  | nil => rfl
  | cons step above ih =>
    have hnext (found : Option Value) : found.bind (find (above ++ below)) =
        (found.bind (find above)).bind (find below) := by
      cases found with
      | none => rfl
      | some v => exact ih v
    cases step <;> cases value <;> first | rfl | exact hnext _

/-- Away from sensitive keys the walk keeps the shape. -/
theorem find_values {place : List Step} (h : Innocuous place) (value : Value) :
    find place (values redactor value) = (find place value).map (values redactor) := by
  induction place generalizing value with
  | nil => rfl
  | cons step below ih =>
    have hbelow := ih fun key hkey => h key (List.mem_cons_of_mem _ hkey)
    cases step with
    | key key =>
      cases value with
      | object fields =>
        rw [values, find, find, lookup_fieldValues, h key List.mem_cons_self]
        cases lookup key fields with
        | none => rfl
        | some nested => exact hbelow nested
      | null => rfl
      | bool => rfl
      | number => rfl
      | string => rfl
      | array => rfl
    | index i =>
      cases value with
      | array items =>
        rw [values, find, find, getElem?_itemValues]
        cases items[i]? with
        | none => rfl
        | some nested => exact hbelow nested
      | null => rfl
      | bool => rfl
      | number => rfl
      | string => rfl
      | object => rfl

theorem find_values_sensitive {above : List Step} (h : Innocuous above) {key : String}
    (hkey : sensitiveKey key.toList = true) (below : List Step) (value : Value) :
    find (above ++ .key key :: below) (values redactor value) =
      (find (above ++ [.key key]) value).bind fun _ => find below (.string "<redacted>") := by
  rw [find_append, find_append, find_values h]
  cases find above value with
  | none => rfl
  | some parent =>
    cases parent with
    | object fields =>
      change (find (.key key :: below) (values redactor (.object fields))) = _
      rw [values, find, lookup_fieldValues, hkey, Option.bind_some, find]
      cases lookup key fields <;> rfl
    | null => rfl
    | bool => rfl
    | number => rfl
    | string => rfl
    | array => rfl

theorem innocuous_or_sensitive (place : List Step) : Innocuous place ∨
    ∃ above key below, place = above ++ .key key :: below ∧ Innocuous above ∧
      sensitiveKey key.toList = true := by
  induction place with
  | nil => exact Or.inl (by simp [Innocuous])
  | cons step rest ih =>
    by_cases hstep : ∃ key, step = .key key ∧ sensitiveKey key.toList = true
    · obtain ⟨key, rfl, hkey⟩ := hstep
      exact Or.inr ⟨[], key, rest, rfl, by simp [Innocuous], hkey⟩
    · have hinnocuous : ∀ key, step = .key key → sensitiveKey key.toList = false := by
        intro key heq
        rw [Bool.eq_false_iff]
        exact fun hkey => hstep ⟨key, heq, hkey⟩
      have hcons {above : List Step} (h : Innocuous above) : Innocuous (step :: above) := by
        intro key hkey
        rcases List.mem_cons.mp hkey with heq | hkey
        · exact hinnocuous key heq.symm
        · exact h key hkey
      rcases ih with h | ⟨above, key, below, rfl, habove, hkey⟩
      · exact Or.inl (hcons h)
      · exact Or.inr ⟨step :: above, key, below, rfl, hcons habove, hkey⟩

/-- What the marker can hide. -/
abbrev Hideable (s : List Char) : Prop := FencedReplacement.Hideable '<' '>' "redacted".toList s

theorem text_eq (redactor : Redactor) (value : List Char) :
    redactor.text value = replaceAll '<' '>' "redacted".toList redactor.secrets value := by
  have hmarker : "<redacted>".toList = marker '<' '>' "redacted".toList := by decide
  unfold Redactor.text replaceAll
  rw [hmarker]

theorem not_infix_text (h : ∀ s ∈ redactor.secrets, Hideable s) (value : List Char) :
    ∀ s ∈ redactor.secrets, ¬ s <:+: redactor.text value := by
  intro s hs
  rw [text_eq]
  exact (h s hs).not_infix_replaceAll hs

theorem text_of_silent {value : List Char} (h : ∀ s ∈ redactor.secrets, ¬ s <:+: value) :
    redactor.text value = value := by
  rw [text_eq]
  exact replaceAll_of_not_infix h

theorem Hideable.not_infix_marker {s : List Char} (h : Hideable s) :
    ¬ s <:+: "<redacted>".toList := by
  have hmarker : "<redacted>".toList = marker '<' '>' "redacted".toList ++ [] := by decide
  rw [hmarker]
  intro hin
  rcases infix_marker_append h.noLeft h.noRight hin with hword | hnil
  · exact h.notInWord hword
  · exact h.nonempty (List.infix_nil.mp hnil)

theorem silent_marker {F : FloatFormat} (h : ∀ s ∈ redactor.secrets, Hideable s) :
    Silent F redactor (.string "<redacted>") := by
  rintro text ⟨⟩ s hs
  exact (h s hs).not_infix_marker

/-- What the published inputs need of the given ones: a number or a boolean that stays prints no
secret. -/
def PrintsNoSecret (F : FloatFormat) (redactor : Redactor) (inputs : Value) : Prop :=
  ∀ place leaf, Innocuous place → find place inputs = some leaf → isPrinted leaf = true →
    Silent F redactor leaf

theorem silent_values {F : FloatFormat} (h : ∀ s ∈ redactor.secrets, Hideable s) {value : Value}
    (hprinted : isPrinted value = true → Silent F redactor value) :
    Silent F redactor (values redactor value) := by
  cases value with
  | string text =>
    intro printed hprinted
    rw [values, scalarText, String.toList_ofList, Option.some.injEq] at hprinted
    rw [← hprinted]
    exact not_infix_text h text.toList
  | bool b => exact hprinted rfl
  | number n => exact hprinted rfl
  | null => rintro _ ⟨⟩
  | array items => rintro _ ⟨⟩
  | object fields => rintro _ ⟨⟩

theorem values_of_silent {F : FloatFormat} {leaf : Value} (hleaf : isLeaf leaf = true)
    (hsilent : Silent F redactor leaf) : values redactor leaf = leaf := by
  cases leaf with
  | string text => rw [values, text_of_silent (hsilent _ rfl), String.ofList_toList]
  | null => rfl
  | bool b => rfl
  | number n => rfl
  | array items => cases hleaf
  | object fields => cases hleaf

/-- The published inputs hide every collected secret exactly when no number and no boolean away from
sensitive keys prints one. -/
theorem published_inputs_hidden_iff (F : FloatFormat) (hF : PlainNumbers F) (inputs : Value)
    (arguments : List (List Char))
    (hideable : ∀ s ∈ (fromInputsAndArguments F hF inputs arguments).secrets, Hideable s) :
    Hidden F (fromInputsAndArguments F hF inputs arguments) inputs
        (values (fromInputsAndArguments F hF inputs arguments) inputs) ↔
      PrintsNoSecret F (fromInputsAndArguments F hF inputs arguments) inputs := by
  generalize fromInputsAndArguments F hF inputs arguments = redactor at *
  constructor
  · intro h place leaf hplace hleaf hprinted
    have hfound : find place (values redactor inputs) = some (values redactor leaf) := by
      rw [find_values hplace, hleaf]
      rfl
    have hsilent := h.silent place _ hfound
    cases leaf with
    | bool b => exact hsilent
    | number n => exact hsilent
    | null => cases hprinted
    | string text => cases hprinted
    | array items => cases hprinted
    | object fields => cases hprinted
  · intro h
    constructor
    · intro place leaf hleaf
      rcases innocuous_or_sensitive place with hplace | ⟨above, key, below, rfl, habove, hkey⟩
      · rw [find_values hplace] at hleaf
        obtain ⟨value, hvalue, rfl⟩ := Option.map_eq_some_iff.mp hleaf
        exact silent_values hideable (h place value hplace hvalue)
      · rw [find_values_sensitive habove hkey] at hleaf
        obtain ⟨_, _, hleaf⟩ := Option.bind_eq_some_iff.mp hleaf
        cases below with
        | nil =>
          cases hleaf
          exact silent_marker hideable
        | cons step below => cases step <;> cases hleaf
    · rintro above key habove hkey ⟨value, hvalue⟩
      rw [find_values_sensitive habove hkey, hvalue]
      rfl
    · intro place leaf hplace hleaf hisLeaf hsilent
      rw [find_values hplace, hleaf, Option.map_some, values_of_silent hisLeaf hsilent]

def plainFormat : FloatFormat := ⟨fun _ => ['0'], id, id⟩

theorem plainFormat_numbers : PlainNumbers plainFormat :=
  ⟨fun _ => List.cons_ne_nil _ _, fun _ => by simp [plainFormat]⟩

/-- A number below a sensitive key and a value under an innocuous one. -/
def demoInputs (port : Value) : Value :=
  .object [("password", .number (.posInt 1234)), ("port", port)]

def demoRedactor (port : Value) : Redactor :=
  fromInputsAndArguments plainFormat plainFormat_numbers (demoInputs port) []

theorem demo_secrets {port : Value} (h : collectedSecrets plainFormat (demoInputs port) [] =
    ["1234".toList]) {s : List Char} : s ∈ (demoRedactor port).secrets ↔ s = "1234".toList := by
  unfold demoRedactor fromInputsAndArguments
  rw [mem_ordered_secrets, h, List.mem_singleton]

theorem demo_hideable {port : Value} (h : collectedSecrets plainFormat (demoInputs port) [] =
    ["1234".toList]) : ∀ s ∈ (demoRedactor port).secrets, Hideable s := by
  intro s hs
  rw [(demo_secrets h).mp hs]
  constructor
  · decide
  · decide
  · decide
  · decide

/-- A text that repeats the secret is hidden. -/
theorem repeated_text_hidden : Hidden plainFormat (demoRedactor (.string "port 1234"))
    (demoInputs (.string "port 1234"))
    (values (demoRedactor (.string "port 1234")) (demoInputs (.string "port 1234"))) := by
  have hsecrets : collectedSecrets plainFormat (demoInputs (.string "port 1234")) [] =
      ["1234".toList] := by decide
  refine (published_inputs_hidden_iff plainFormat plainFormat_numbers _ []
    (demo_hideable hsecrets)).mpr ?_
  intro place leaf hplace hfound hprinted
  rcases place with _ | ⟨_ | _, below⟩
  · cases hfound
    cases hprinted
  · rename_i key
    obtain ⟨value, hvalue, hfound⟩ := Option.bind_eq_some_iff.mp hfound
    rw [InputPaths.lookup_cons, InputPaths.lookup_cons] at hvalue
    split at hvalue
    · rename_i hkey
      exact absurd (hplace key List.mem_cons_self) (by rw [← hkey]; decide)
    · split at hvalue
      · cases hvalue
        rcases below with _ | ⟨_ | _, below⟩
        · cases hfound
          cases hprinted
        · cases hfound
        · cases hfound
      · cases hvalue
  · cases hfound

/-- A number that repeats the secret is published as it is. -/
theorem repeated_number_published :
    (∀ s ∈ (demoRedactor (.number (.posInt 1234))).secrets, Hideable s) ∧
      ¬ Hidden plainFormat (demoRedactor (.number (.posInt 1234)))
        (demoInputs (.number (.posInt 1234)))
        (values (demoRedactor (.number (.posInt 1234))) (demoInputs (.number (.posInt 1234)))) := by
  have hsecrets : collectedSecrets plainFormat (demoInputs (.number (.posInt 1234))) [] =
      ["1234".toList] := by decide
  refine ⟨demo_hideable hsecrets, ?_⟩
  intro h
  exact h.silent [.key "port"] (.number (.posInt 1234)) rfl "1234".toList (by decide) "1234".toList
    ((demo_secrets hsecrets).mpr rfl) (List.infix_refl _)

end RedactedContext
