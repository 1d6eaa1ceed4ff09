import Crono.RunDomain
import Crono.OrderedMap
import Mathlib.Data.String.Basic

/-! Execution inputs: JSON objects that are validated, merged from the least to the most specific
layer, and bounded by the size of their encoding. -/
namespace ExecutionInputs

open RunDomain

def maxInputBytes : ℕ := 65536

inductive InputError where
  | notObject
  | tooLarge
  | invalidKey (key : String)
  | nulCharacter
  | invalidTemplate (message : String)
  | missingVariable (path : String)
  | nonScalarVariable (path : String)
  deriving DecidableEq, Repr

/-- How `serde_json` writes an `f64` and reads one back: from its decimal written out without an
exponent, and from its own text. Every result below holds for all of them. -/
structure FloatFormat where
  text : Decimal → List Char
  readPlain : Decimal → Decimal
  readText : Decimal → Decimal

def numberText (F : FloatFormat) : Number → List Char
  | .posInt n => Nat.toDigits 10 n
  | .negInt n => '-' :: Nat.toDigits 10 n
  | .float d => F.text d
  | .negZero => ['-', '0', '.', '0']

def escapedSize (c : Char) : ℕ :=
  if c = '"' ∨ c = '\\' ∨ c.toNat ∈ [8, 9, 10, 12, 13] then 2
  else if c.toNat < 32 then 6
  else c.utf8Size

def stringLength (text : String) : ℕ := 2 + (text.toList.map escapedSize).sum

def commaLength {α : Type*} (rest : List α) : ℕ := if rest.isEmpty then 0 else 1

mutual
/-- The length of `serde_json::to_vec`. -/
def encodedLength (F : FloatFormat) : Value → ℕ
  | .null => 4
  | .bool b => if b then 4 else 5
  | .number n => (numberText F n).length
  | .string text => stringLength text
  | .array items => 2 + itemsLength F items
  | .object fields => 2 + fieldsLength F fields

def itemsLength (F : FloatFormat) : List Value → ℕ
  | [] => 0
  | item :: rest => encodedLength F item + commaLength rest + itemsLength F rest

def fieldsLength (F : FloatFormat) : List (String × Value) → ℕ
  | [] => 0
  | (key, value) :: rest =>
    stringLength key + 1 + encodedLength F value + commaLength rest + fieldsLength F rest
end

def lowercase (c : Char) : Bool := 'a' ≤ c && c ≤ 'z'

def validSegment (segment : String) : Bool :=
  match segment.toList with
  | [] => false
  | first :: rest => (lowercase first || first = '_') && rest.all fun c =>
    lowercase c || ('0' ≤ c && c ≤ '9') || c = '_' || c = '-'

mutual
def validateEntries : Value → Except InputError Unit
  | .object fields => validateFields fields
  | .array items => validateItems items
  | .string text => if text.toList.contains (Char.ofNat 0) then .error .nulCharacter else .ok ()
  | .null | .bool _ | .number _ => .ok ()

def validateItems : List Value → Except InputError Unit
  | [] => .ok ()
  | item :: rest => do
    validateEntries item
    validateItems rest

def validateFields : List (String × Value) → Except InputError Unit
  | [] => .ok ()
  | (key, value) :: rest => do
    if !validSegment key then throw (.invalidKey key)
    validateEntries value
    validateFields rest
end

def isObject : Value → Bool
  | .object _ => true
  | _ => false

def validateInputs (F : FloatFormat) (value : Value) : Except InputError Unit :=
  if !isObject value then .error .notObject
  else do
    validateEntries value
    if maxInputBytes < encodedLength F value then throw .tooLarge

theorem validateInputs_ok_iff {F : FloatFormat} {value : Value} :
    validateInputs F value = .ok () ↔ isObject value = true ∧ validateEntries value = .ok () ∧
      encodedLength F value ≤ maxInputBytes := by
  unfold validateInputs
  cases isObject value with
  | false => simp
  | true =>
    cases validateEntries value with
    | error e => simp [bind, Except.bind]
    | ok u =>
      by_cases hlarge : maxInputBytes < encodedLength F value
      · simp [bind, Except.bind, throw, throwThe, MonadExceptOf.throw, hlarge]
      · simp [bind, Except.bind, pure, Except.pure, Nat.le_of_not_lt hlarge]

mutual
/-- `merge_value`, by its overlay: objects merge by key, anything else is replaced. -/
def mergeValue : (overlay base : Value) → Value
  | .object fields, .object base => .object (mergeFields fields base)
  | overlay, _ => overlay

def mergeFields : (overlay base : List (String × Value)) → List (String × Value)
  | [], base => base
  | (key, value) :: rest, base => mergeFields rest (OrderedMap.alterEntries key
    (fun existing => match existing with
      | some existing => mergeValue value existing
      | none => value) base)
end

/-- The loop of `merge_inputs`. -/
def mergeLayers (F : FloatFormat) : (layers : List Value) → (merged : Value) →
    Except InputError Value
  | [], merged => do
    validateInputs F merged
    return merged
  | layer :: rest, merged => do
    validateInputs F layer
    mergeLayers F rest (mergeValue layer merged)

def mergeInputs (F : FloatFormat) (layers : List Value) : Except InputError Value :=
  mergeLayers F layers (.object [])

end ExecutionInputs
