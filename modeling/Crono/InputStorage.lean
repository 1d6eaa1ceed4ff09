import Crono.InputPaths
import Crono.RunStore

/-! Execution inputs between the server and the worker. PostgreSQL stores numbers as exact decimals
and prints them without an exponent, so that a number may come back longer than it was written;
`serde_json` reads so many containers inside one another and no more, and the answer to a claim
puts two around the inputs. -/
namespace InputStorage

open RunDomain RunStore ExecutionInputs StoredValues
open InputPaths (Ordered OrderedItems OrderedFields mergeValue_empty)

mutual
def depth : Value → ℕ
  | .array items => 1 + itemsDepth items
  | .object fields => 1 + fieldsDepth fields
  | .null | .bool _ | .number _ | .string _ => 0

def itemsDepth : List Value → ℕ
  | [] => 0
  | item :: rest => max (depth item) (itemsDepth rest)

def fieldsDepth : List (String × Value) → ℕ
  | [] => 0
  | (_, value) :: rest => max (depth value) (fieldsDepth rest)
end

/-- The recursion limit of `serde_json` is 128, and the container that reaches it is refused. -/
def maxDepth : ℕ := 127

/-- Inputs in a `jsonb` column, as they are read back. -/
def readInputs (F : FloatFormat) (value : Value) : Option Value :=
  if maxDepth < depth value then none else some (stored F value)

/-- A snapshot is an object around its inputs and the lists of its arguments. -/
def snapshotDepth (snapshot : ExecutionSnapshot) : ℕ := 1 + max 1 (depth snapshot.inputs)

/-- The column `crono.runs.execution_snapshot`, as `claim_attempt` reads it. -/
def readColumn (F : FloatFormat) (snapshot : ExecutionSnapshot) : Option ExecutionSnapshot :=
  if maxDepth < snapshotDepth snapshot then none
  else some { snapshot with inputs := stored F snapshot.inputs }

/-- What the worker reads from the text the server writes for a number. -/
def sentNumber (F : FloatFormat) : Number → Number
  | .float d => .float (F.readText d)
  | n => n

/-- The worker decodes a `ClaimResponse`, an object around the snapshot. -/
def readResponse (F : FloatFormat) (snapshot : ExecutionSnapshot) : Option ExecutionSnapshot :=
  if maxDepth < 1 + snapshotDepth snapshot then none
  else some { snapshot with inputs := mapNumbers (sentNumber F) snapshot.inputs }

/-- The stored snapshot of a Run as it reaches the worker that claims it. -/
def delivered (F : FloatFormat) (snapshot : ExecutionSnapshot) : Option ExecutionSnapshot :=
  (readColumn F snapshot).bind (readResponse F)

/-- The bound both `execute_snapshot` and `prepare_input_file` check. -/
def boundedInputs (F : FloatFormat) (snapshot : ExecutionSnapshot) : Except String Unit :=
  if maxInputBytes < encodedLength F snapshot.inputs then
    .error "execution inputs exceed the worker limit"
  else .ok ()

/-- The first step of `execute_snapshot`. -/
def executeSnapshot (F : FloatFormat) (snapshot : ExecutionSnapshot) : Except String Unit :=
  boundedInputs F snapshot

def prepareInputFile (F : FloatFormat) (snapshot : ExecutionSnapshot) : Except String Unit :=
  boundedInputs F snapshot

def WorkerAccepts (F : FloatFormat) (column : ExecutionSnapshot) : Prop :=
  ∃ snapshot, delivered F column = some snapshot ∧ executeSnapshot F snapshot = .ok () ∧
    prepareInputFile F snapshot = .ok ()

/-- An integer that `serde_json` reads as one. -/
def Integral (d : Decimal) : Prop :=
  0 ≤ d.exponent ∧ -2 ^ 63 ≤ d.mantissa * 10 ^ d.exponent.toNat ∧
    d.mantissa * 10 ^ d.exponent.toNat < 2 ^ 64

instance (d : Decimal) : Decidable (Integral d) := inferInstanceAs (Decidable (_ ∧ _ ∧ _))

/-- The characters of an integer: its sign, its digits and a zero for each power of ten. -/
def integerLength (d : Decimal) : ℕ :=
  (if d.mantissa < 0 then 1 else 0) +
    if d.mantissa = 0 then 1
    else (Nat.toDigits 10 d.mantissa.natAbs).length + d.exponent.toNat

/-- How much longer a number comes back: an integer with all its digits, any other number as the
float that is read for it. -/
def numberGain (F : FloatFormat) (read : Decimal → Decimal) (n : Number) : ℤ :=
  (if Integral n.decimal then (integerLength n.decimal : ℤ)
    else (F.text (read n.decimal)).length) - (numberText F n).length

/-- The number that is read from the text `jsonb` prints, where `read` reads a float. -/
def returned (read : Decimal → Decimal) (n : Number) : Number :=
  let d := n.decimal
  let value := d.mantissa * 10 ^ d.exponent.toNat
  if 0 ≤ d.exponent ∧ 0 ≤ value ∧ value < 2 ^ 64 then .posInt value.toNat
  else if 0 ≤ d.exponent ∧ -2 ^ 63 ≤ value ∧ value < 0 then .negInt value.natAbs
  else .float (read d)

theorem sentNumber_storedNumber (F : FloatFormat) (n : Number) :
    sentNumber F (storedNumber F n) = returned (F.readText ∘ F.readPlain) n := by
  unfold storedNumber returned
  simp only
  split
  · rfl
  · split
    · rfl
    · rfl

theorem toDigits_length {m : ℕ} (hm : 0 < m) (e : ℕ) :
    (Nat.toDigits 10 (m * 10 ^ e)).length = (Nat.toDigits 10 m).length + e := by
  induction e with
  | zero => simp
  | succ e ih =>
    have hpow : m * 10 ^ (e + 1) = 10 * (m * 10 ^ e) := by
      rw [Nat.pow_succ, Nat.mul_comm 10, Nat.mul_assoc]
    have hpos : 0 < m * 10 ^ e := Nat.mul_pos hm (Nat.pow_pos (by decide))
    rw [hpow, Nat.toDigits_of_base_le (by decide) (Nat.le_mul_of_pos_right 10 hpos),
      Nat.mul_div_cancel_left _ (by decide), List.length_append, ih, List.length_singleton,
      Nat.add_assoc]

theorem natAbs_scaled (d : Decimal) : (d.mantissa * 10 ^ d.exponent.toNat).natAbs =
    d.mantissa.natAbs * 10 ^ d.exponent.toNat := by
  rw [Int.natAbs_mul, Int.natAbs_pow]
  rfl

theorem scaled_length (d : Decimal) :
    (Nat.toDigits 10 (d.mantissa * 10 ^ d.exponent.toNat).natAbs).length =
      if d.mantissa = 0 then 1
      else (Nat.toDigits 10 d.mantissa.natAbs).length + d.exponent.toNat := by
  rw [natAbs_scaled]
  by_cases hzero : d.mantissa = 0
  · rw [if_pos hzero, hzero]
    simp
  · rw [if_neg hzero]
    exact toDigits_length (Int.natAbs_pos.mpr hzero) _

theorem scaled_neg (d : Decimal) :
    d.mantissa * 10 ^ d.exponent.toNat < 0 ↔ d.mantissa < 0 := by
  have hpow : (0 : ℤ) < 10 ^ d.exponent.toNat := Int.pow_pos (by decide)
  constructor
  · intro h
    by_contra hle
    exact absurd (Int.mul_nonneg (not_lt.mp hle) hpow.le) (not_le.mpr h)
  · exact fun h => Int.mul_neg_of_neg_of_pos h hpow

theorem returned_integral (F : FloatFormat) (read : Decimal → Decimal) {n : Number}
    (h : Integral n.decimal) :
    (numberText F (returned read n)).length = integerLength n.decimal := by
  obtain ⟨hexponent, hleast, hgreatest⟩ := h
  have hlength := scaled_length n.decimal
  have hsign := scaled_neg n.decimal
  unfold returned integerLength
  simp only
  generalize n.decimal.mantissa * 10 ^ n.decimal.exponent.toNat = value at *
  by_cases hneg : value < 0
  · rw [if_neg (by omega), if_pos ⟨hexponent, hleast, hneg⟩, if_pos (hsign.mp hneg), ← hlength,
      numberText, List.length_cons, Nat.add_comm]
  · have hvalue : value.toNat = value.natAbs := by omega
    rw [if_pos ⟨hexponent, by omega, hgreatest⟩, if_neg (fun h => hneg (hsign.mpr h)), ← hlength,
      numberText, hvalue, Nat.zero_add]

theorem returned_float (read : Decimal → Decimal) {n : Number} (h : ¬ Integral n.decimal) :
    returned read n = .float (read n.decimal) := by
  unfold Integral at h
  unfold returned
  simp only
  rw [if_neg (by omega), if_neg (by omega)]

theorem returned_length (F : FloatFormat) (read : Decimal → Decimal) (n : Number) :
    ((numberText F (returned read n)).length : ℤ) =
      (numberText F n).length + numberGain F read n := by
  unfold numberGain
  by_cases h : Integral n.decimal
  · rw [if_pos h, returned_integral F read h]
    omega
  · rw [if_neg h, returned_float read h, numberText]
    omega

theorem numberGain_posInt (F : FloatFormat) (read : Decimal → Decimal) {n : ℕ} (h : n < 2 ^ 64) :
    numberGain F read (.posInt n) = 0 := by
  have hintegral : Integral (Number.posInt n).decimal := by
    simp only [Integral, Number.decimal, Int.toNat_zero, pow_zero, mul_one]
    omega
  have hdigits : integerLength (Number.posInt n).decimal = (Nat.toDigits 10 n).length := by
    unfold integerLength Number.decimal
    by_cases hzero : n = 0
    · simp [hzero]
    · simp [hzero]
  rw [numberGain, if_pos hintegral, hdigits, numberText, sub_self]

theorem numberGain_negInt (F : FloatFormat) (read : Decimal → Decimal) {n : ℕ} (hpos : 0 < n)
    (h : n ≤ 2 ^ 63) : numberGain F read (.negInt n) = 0 := by
  have hintegral : Integral (Number.negInt n).decimal := by
    simp only [Integral, Number.decimal, Int.toNat_zero, pow_zero, mul_one]
    omega
  have hdigits : integerLength (Number.negInt n).decimal = (Nat.toDigits 10 n).length + 1 := by
    have hzero : n ≠ 0 := hpos.ne'
    simp [integerLength, Number.decimal, hzero, hpos, Nat.add_comm]
  rw [numberGain, if_pos hintegral, hdigits, numberText, List.length_cons, sub_self]

def totalGain (F : FloatFormat) (read : Decimal → Decimal) (ns : List Number) : ℤ :=
  (ns.map (numberGain F read)).sum

theorem totalGain_integers (F : FloatFormat) (read : Decimal → Decimal) {ns : List Number}
    (h : ∀ n ∈ ns, (∃ m < 2 ^ 64, n = .posInt m) ∨ ∃ m, 0 < m ∧ m ≤ 2 ^ 63 ∧ n = .negInt m) :
    totalGain F read ns = 0 := by
  induction ns with
  | nil => rfl
  | cons n ns ih =>
    have hrest := ih fun m hm => h m (List.mem_cons_of_mem n hm)
    have hfirst : numberGain F read n = 0 := by
      rcases h n List.mem_cons_self with ⟨m, hm, rfl⟩ | ⟨m, hpos, hm, rfl⟩
      · exact numberGain_posInt F read hm
      · exact numberGain_negInt F read hpos hm
    unfold totalGain at hrest ⊢
    rw [List.map_cons, List.sum_cons, hfirst, hrest, Int.add_zero]

theorem totalGain_append (F : FloatFormat) (read : Decimal → Decimal) (ms ns : List Number) :
    totalGain F read (ms ++ ns) = totalGain F read ms + totalGain F read ns := by
  simp [totalGain]

theorem commaLength_map {f : Number → Number} (items : List Value) :
    commaLength (mapItems f items) = commaLength items := by
  cases items <;> rfl

theorem commaLength_mapFields {f : Number → Number} (fields : List (String × Value)) :
    commaLength (mapFields f fields) = commaLength fields := by
  cases fields <;> rfl

mutual
theorem encodedLength_returned (F : FloatFormat) (read : Decimal → Decimal) (v : Value) :
    (encodedLength F (mapNumbers (returned read) v) : ℤ) =
      encodedLength F v + totalGain F read (numbers v) := by
  cases v with
  | number n =>
    simp only [mapNumbers, encodedLength, numbers, totalGain, List.map_singleton,
      List.sum_singleton, returned_length]
  | array items =>
    have hitems := itemsLength_returned F read items
    simp only [mapNumbers, encodedLength, numbers]
    omega
  | object fields =>
    have hfields := fieldsLength_returned F read fields
    simp only [mapNumbers, encodedLength, numbers]
    omega
  | null => rfl
  | bool b => cases b <;> rfl
  | string text => exact (Int.add_zero _).symm

theorem itemsLength_returned (F : FloatFormat) (read : Decimal → Decimal) (items : List Value) :
    (itemsLength F (mapItems (returned read) items) : ℤ) =
      itemsLength F items + totalGain F read (itemNumbers items) := by
  cases items with
  | nil => rfl
  | cons item rest =>
    have hitem := encodedLength_returned F read item
    have hrest := itemsLength_returned F read rest
    simp only [mapItems, itemsLength, itemNumbers, totalGain_append, commaLength_map]
    omega

theorem fieldsLength_returned (F : FloatFormat) (read : Decimal → Decimal)
    (fields : List (String × Value)) :
    (fieldsLength F (mapFields (returned read) fields) : ℤ) =
      fieldsLength F fields + totalGain F read (fieldNumbers fields) := by
  cases fields with
  | nil => rfl
  | cons field rest =>
    obtain ⟨key, value⟩ := field
    have hvalue := encodedLength_returned F read value
    have hrest := fieldsLength_returned F read rest
    simp only [mapFields, fieldsLength, fieldNumbers, totalGain_append, commaLength_mapFields]
    omega
end

mutual
theorem depth_mapNumbers (f : Number → Number) (v : Value) : depth (mapNumbers f v) = depth v := by
  cases v with
  | array items => simp only [mapNumbers, depth, itemsDepth_mapItems]
  | object fields => simp only [mapNumbers, depth, fieldsDepth_mapFields]
  | number => rfl
  | null => rfl
  | bool => rfl
  | string => rfl

theorem itemsDepth_mapItems (f : Number → Number) (items : List Value) :
    itemsDepth (mapItems f items) = itemsDepth items := by
  cases items with
  | nil => rfl
  | cons item rest => simp only [mapItems, itemsDepth, depth_mapNumbers, itemsDepth_mapItems]

theorem fieldsDepth_mapFields (f : Number → Number) (fields : List (String × Value)) :
    fieldsDepth (mapFields f fields) = fieldsDepth fields := by
  cases fields with
  | nil => rfl
  | cons field rest =>
    simp only [mapFields, fieldsDepth, depth_mapNumbers, fieldsDepth_mapFields]
end

mutual
theorem validateEntries_mapNumbers (f : Number → Number) (v : Value) :
    validateEntries (mapNumbers f v) = validateEntries v := by
  cases v with
  | array items => simp only [mapNumbers, validateEntries, validateItems_mapItems]
  | object fields => simp only [mapNumbers, validateEntries, validateFields_mapFields]
  | number => rfl
  | null => rfl
  | bool => rfl
  | string => rfl

theorem validateItems_mapItems (f : Number → Number) (items : List Value) :
    validateItems (mapItems f items) = validateItems items := by
  cases items with
  | nil => rfl
  | cons item rest =>
    simp only [mapItems, validateItems, validateEntries_mapNumbers, validateItems_mapItems]

theorem validateFields_mapFields (f : Number → Number) (fields : List (String × Value)) :
    validateFields (mapFields f fields) = validateFields fields := by
  cases fields with
  | nil => rfl
  | cons field rest =>
    simp only [mapFields, validateFields, validateEntries_mapNumbers, validateFields_mapFields]
end

theorem isObject_mapNumbers (f : Number → Number) (v : Value) :
    isObject (mapNumbers f v) = isObject v := by
  cases v <;> rfl

theorem mapFields_keys (f : Number → Number) (fields : List (String × Value)) :
    (mapFields f fields).map Prod.fst = fields.map Prod.fst := by
  induction fields with
  | nil => rfl
  | cons field rest ih => simp only [mapFields, List.map_cons, ih]

mutual
theorem ordered_mapNumbers (f : Number → Number) {v : Value} (h : Ordered v) :
    Ordered (mapNumbers f v) := by
  cases v with
  | array items => exact orderedItems_mapItems f h
  | object fields =>
    refine ⟨?_, orderedFields_mapFields f h.2⟩
    have hkeys := h.1
    unfold InputPaths.Sorted at hkeys ⊢
    rw [← List.pairwise_map] at hkeys ⊢
    rwa [mapFields_keys]
  | number => trivial
  | null => trivial
  | bool => trivial
  | string => trivial

theorem orderedItems_mapItems (f : Number → Number) {items : List Value} (h : OrderedItems items) :
    OrderedItems (mapItems f items) := by
  cases items with
  | nil => trivial
  | cons item rest => exact ⟨ordered_mapNumbers f h.1, orderedItems_mapItems f h.2⟩

theorem orderedFields_mapFields (f : Number → Number) {fields : List (String × Value)}
    (h : OrderedFields fields) : OrderedFields (mapFields f fields) := by
  cases fields with
  | nil => trivial
  | cons field rest => exact ⟨ordered_mapNumbers f h.1, orderedFields_mapFields f h.2⟩
end

theorem mergeInputs_single {F : FloatFormat} {value : Value} (hordered : Ordered value) :
    (∃ merged, mergeInputs F [value] = .ok merged) ↔ validateInputs F value = .ok () := by
  simp only [mergeInputs, mergeLayers, mergeValue_empty hordered]
  cases validateInputs F value with
  | error e => simp [bind, Except.bind]
  | ok u => simp [bind, Except.bind, pure, Except.pure]

/-- So many containers inside one another, and no longer than the bound with the gain of every
number, where `read` reads a float. -/
def ReturnsWithin (F : FloatFormat) (read : Decimal → Decimal) (levels : ℕ) (value : Value) :
    Prop :=
  depth value ≤ levels ∧ (encodedLength F value : ℤ) + totalGain F read (numbers value) ≤
    maxInputBytes

/-- The input functions of `crono_execution`, whatever its templates render. -/
def rendering (F : FloatFormat) (describe : InputError → String)
    (render : List String → Value → Except String (List String))
    (snapshotBytes : ExecutionSnapshot → ℕ) : Rendering where
  mergeInputs := fun layers => (mergeInputs F layers).mapError describe
  renderArguments := render
  snapshotBytes := snapshotBytes
  floats := F

theorem delivered_eq (F : FloatFormat) (snapshot : ExecutionSnapshot) :
    delivered F snapshot =
      if depth snapshot.inputs ≤ 125 then
        some { snapshot with
          inputs := mapNumbers (returned (F.readText ∘ F.readPlain)) snapshot.inputs }
      else none := by
  have hinputs : mapNumbers (sentNumber F) (stored F snapshot.inputs) =
      mapNumbers (returned (F.readText ∘ F.readPlain)) snapshot.inputs := by
    rw [stored, mapNumbers_mapNumbers, mapNumbers_inj]
    exact fun n _ => sentNumber_storedNumber F n
  have hdepth : depth (stored F snapshot.inputs) = depth snapshot.inputs := depth_mapNumbers _ _
  unfold delivered readColumn snapshotDepth maxDepth
  by_cases hshallow : depth snapshot.inputs ≤ 125
  · rw [if_neg (by omega), if_pos hshallow, Option.bind_some]
    unfold readResponse snapshotDepth maxDepth
    simp only [hdepth, hinputs]
    rw [if_neg (by omega)]
  · rw [if_neg hshallow]
    split
    · rfl
    · rw [Option.bind_some]
      unfold readResponse snapshotDepth maxDepth
      simp only [hdepth]
      rw [if_pos (by omega)]

theorem workerAccepts_iff (F : FloatFormat) (snapshot : ExecutionSnapshot) :
    WorkerAccepts F snapshot ↔
      ReturnsWithin F (F.readText ∘ F.readPlain) 125 snapshot.inputs := by
  have hlength := encodedLength_returned F (F.readText ∘ F.readPlain) snapshot.inputs
  unfold WorkerAccepts ReturnsWithin
  rw [delivered_eq]
  by_cases hshallow : depth snapshot.inputs ≤ 125
  · rw [if_pos hshallow]
    simp only [Option.some.injEq, exists_eq_left', executeSnapshot, prepareInputFile, boundedInputs,
      and_self, hshallow, true_and, ← hlength, Int.ofNat_le]
    split
    · rename_i hlarge
      simp only [reduceCtorEq, false_iff, not_le]
      exact hlarge
    · rename_i hfits
      simp only [true_iff]
      exact not_lt.mp hfits
  · rw [if_neg hshallow]
    simp [hshallow]

theorem merged_iff {F : FloatFormat} {value : Value} (hordered : Ordered value)
    (hvalid : validateInputs F value = .ok ()) :
    (∃ column merged, readInputs F value = some column ∧ mergeInputs F [column] = .ok merged) ↔
      ReturnsWithin F F.readPlain 127 value := by
  obtain ⟨hobject, hentries, _⟩ := validateInputs_ok_iff.mp hvalid
  have hlength := encodedLength_returned F F.readPlain value
  unfold ReturnsWithin readInputs maxDepth
  by_cases hshallow : depth value ≤ 127
  · rw [if_neg (not_lt.mpr hshallow), and_iff_right hshallow, ← hlength, Int.ofNat_le]
    have hsingle := mergeInputs_single (F := F) (ordered_mapNumbers (returned F.readPlain) hordered)
    rw [validateInputs_ok_iff, isObject_mapNumbers, validateEntries_mapNumbers,
      and_iff_right hobject, and_iff_right hentries] at hsingle
    rw [← hsingle]
    constructor
    · rintro ⟨column, merged, hcolumn, hmerged⟩
      cases Option.some.inj hcolumn
      exact ⟨merged, hmerged⟩
    · rintro ⟨merged, hmerged⟩
      exact ⟨_, merged, rfl, hmerged⟩
  · rw [if_pos (not_le.mp hshallow)]
    simp [hshallow]

/-- The worker takes an execution the server has accepted exactly when its inputs have no more
than 125 containers inside one another and fit with what their numbers gain on the way to the
worker; inputs that were saved are merged again exactly when they have no more than 127 and fit
with what their numbers gain in the column. -/
theorem stored_inputs_accepted_iff (F : FloatFormat) :
    (∀ describe render bytes runId execution setInputs inputs trigger scheduledAt snapshot,
      executionSnapshotWithInputs (rendering F describe render bytes) runId execution setInputs
        inputs trigger scheduledAt = .ok snapshot →
      (WorkerAccepts F snapshot ↔
        ReturnsWithin F (F.readText ∘ F.readPlain) 125 snapshot.inputs)) ∧
    (∀ value, Ordered value → validateInputs F value = .ok () →
      ((∃ column merged, readInputs F value = some column ∧
          mergeInputs F [column] = .ok merged) ↔ ReturnsWithin F F.readPlain 127 value)) :=
  ⟨fun _ _ _ _ _ _ _ _ _ snapshot _ => workerAccepts_iff F snapshot,
    fun _ hordered hvalid => merged_iff hordered hvalid⟩

/-- The shortest text of an `f64`, with a sign in front of a positive exponent or without. -/
def shortestText (plus : List Char) (d : Decimal) : List Char :=
  let digits := Nat.toDigits 10 d.mantissa.natAbs
  let point : ℤ := digits.length + d.exponent
  let exponent := 'e' :: (if 0 < point then plus else []) ++ (toString (point - 1)).toList
  let text :=
    if d.exponent < 0 ∧ 0 < point ∧ point ≤ 16 then
      digits.take point.toNat ++ '.' :: digits.drop point.toNat
    else if d.exponent < 0 ∧ -5 < point ∧ point ≤ 0 then
      '0' :: '.' :: (List.replicate (-point).toNat '0' ++ digits)
    else
      match digits with
      | first :: second :: rest => first :: '.' :: second :: rest ++ exponent
      | short => short ++ exponent
  if d.mantissa < 0 then '-' :: text else text

def shortest (plus : List Char) : FloatFormat := ⟨shortestText plus, id, id⟩

example : [Decimal.mk 1 19, ⟨15, -8⟩, ⟨12340, -1⟩, ⟨-25, -3⟩].map
    (fun d => String.ofList (shortestText [] d)) = ["1e19", "1.5e-7", "1234.0", "-0.025"] := by
  decide

theorem stringLength_replicate (n : ℕ) :
    stringLength (String.ofList (List.replicate n 'x')) = 2 + n := by
  have hsize : escapedSize 'x' = 1 := by decide
  simp [stringLength, hsize]

/-- `1e19` beside a text, twelve bytes below the bound. -/
def demoInputs : Value :=
  .object [("count", .number (.float ⟨1, 19⟩)),
    ("note", .string (String.ofList (List.replicate 65500 'x')))]

theorem demoInputs_length (F : FloatFormat) :
    encodedLength F demoInputs = 65520 + (F.text ⟨1, 19⟩).length := by
  have hcount : stringLength "count" = 7 := by decide
  have hnote : stringLength "note" = 6 := by decide
  simp only [demoInputs, encodedLength, fieldsLength, numberText, stringLength_replicate, hcount,
    hnote, commaLength, List.isEmpty_cons, List.isEmpty_nil, if_true, Bool.false_eq_true, if_false]
  omega

theorem demoInputs_gain (F : FloatFormat) (read : Decimal → Decimal) :
    totalGain F read (numbers demoInputs) = 20 - (F.text ⟨1, 19⟩).length := by
  have hintegral : Integral (Number.float ⟨1, 19⟩).decimal := by decide
  have hlength : integerLength (Number.float ⟨1, 19⟩).decimal = 20 := by decide
  have hnumbers : numbers demoInputs = [.float ⟨1, 19⟩] := rfl
  rw [hnumbers, totalGain, List.map_singleton, List.sum_singleton, numberGain, if_pos hintegral,
    hlength]
  rfl

theorem demoInputs_too_large (F : FloatFormat) (read : Decimal → Decimal) (levels : ℕ) :
    ¬ ReturnsWithin F read levels demoInputs := by
  have hlength := demoInputs_length F
  unfold ReturnsWithin maxInputBytes
  rw [demoInputs_gain, hlength]
  omega

theorem demoInputs_valid {F : FloatFormat} (h : (F.text ⟨1, 19⟩).length ≤ 16) :
    validateInputs F demoInputs = .ok () := by
  have hnote :
      (String.ofList (List.replicate 65500 'x')).toList.contains (Char.ofNat 0) = false := by
    rw [String.toList_ofList, List.contains_eq_mem, decide_eq_false_iff_not, List.mem_replicate]
    decide
  refine validateInputs_ok_iff.mpr ⟨rfl, ?_, ?_⟩
  · have hkeys : validSegment "count" = true ∧ validSegment "note" = true := by decide
    simp only [demoInputs, validateEntries, validateFields, hkeys, hnote]
    rfl
  · rw [demoInputs_length, maxInputBytes]
    omega

theorem demoInputs_ordered : Ordered demoInputs :=
  ⟨List.pairwise_pair.mpr (by decide), trivial, trivial, trivial⟩

def demoExecution : ExecutionRow :=
  { namespaceId := 3, jobId := 2, targetId := 4, executor := .noop, queueId := 1
    queueName := "default", executable := none, shellCommand := none, jobArguments := []
    targetArguments := [], jobInputs := .object [], targetInputs := .object []
    idempotent := true, dryRun := false, maxAttempts := 2, retryInitialSeconds := 1
    retryMaxSeconds := 60, retryMultiplier := ⟨20, -1⟩, retryJitter := ⟨0, -1⟩ }

/-- What the server makes of invocation inputs, with no argument to render. -/
def demoSnapshot (F : FloatFormat) (inputs : Value) : Except String ExecutionSnapshot :=
  executionSnapshotWithInputs (rendering F (fun _ => "inputs") (fun _ _ => .ok []) fun _ => 0) 6
    demoExecution none inputs .manual none

theorem demoSnapshot_inputs {F : FloatFormat} {inputs : Value}
    (hvalid : validateInputs F inputs = .ok ()) (hordered : Ordered inputs) :
    ∃ snapshot, demoSnapshot F inputs = .ok snapshot ∧ snapshot.inputs = inputs := by
  have hempty : validateInputs F (.object []) = .ok () := rfl
  have hlayers : mergeInputs F [.object [], .object [], .object [], inputs] = .ok inputs := by
    have hself : mergeValue (.object []) (.object []) = .object [] := rfl
    simp only [mergeInputs, mergeLayers, hempty, hself, hvalid, mergeValue_empty hordered, bind,
      Except.bind, pure, Except.pure]
  have hrendered : (rendering F (fun _ => "inputs") (fun _ _ => .ok []) fun _ => 0).mergeInputs
      [.object [], .object [], .object [], inputs] = .ok inputs := by
    simp only [rendering, hlayers, Except.mapError]
  unfold demoSnapshot executionSnapshotWithInputs
  change ∃ snapshot, ((rendering F (fun _ => "inputs") (fun _ _ => .ok []) fun _ => 0).mergeInputs
      [.object [], .object [], .object [], inputs] >>= _) = .ok snapshot ∧ _
  rw [hrendered]
  exact ⟨_, rfl, rfl⟩

/-- Accepted on the way in, and refused by the worker on the way back. -/
def RefusedByWorker (F : FloatFormat) (inputs : Value) : Prop :=
  ∃ snapshot, demoSnapshot F inputs = .ok snapshot ∧ ¬ WorkerAccepts F snapshot

/-- Saved, and refused by the server itself when they are read back. -/
def RefusedOnReturn (F : FloatFormat) (inputs : Value) : Prop :=
  validateInputs F inputs = .ok () ∧
    ¬ ∃ column merged, readInputs F inputs = some column ∧ mergeInputs F [column] = .ok merged

theorem demoInputs_refused {F : FloatFormat} (h : (F.text ⟨1, 19⟩).length ≤ 16) :
    RefusedByWorker F demoInputs ∧ RefusedOnReturn F demoInputs := by
  have hvalid := demoInputs_valid h
  constructor
  · obtain ⟨snapshot, hsnapshot, hinputs⟩ := demoSnapshot_inputs hvalid demoInputs_ordered
    refine ⟨snapshot, hsnapshot, ?_⟩
    rw [workerAccepts_iff, hinputs]
    exact demoInputs_too_large F _ _
  · refine ⟨hvalid, ?_⟩
    rw [merged_iff demoInputs_ordered hvalid]
    exact demoInputs_too_large F _ _

/-- Objects inside one another. -/
def nested : ℕ → Value
  | 0 => .object []
  | n + 1 => .object [("a", nested n)]

theorem nested_depth (n : ℕ) : depth (nested n) = n + 1 := by
  induction n with
  | zero => rfl
  | succ n ih => simp [nested, depth, fieldsDepth, ih, Nat.add_comm]

theorem nested_ordered (n : ℕ) : Ordered (nested n) := by
  induction n with
  | zero => exact ⟨List.Pairwise.nil, trivial⟩
  | succ n ih => exact ⟨List.pairwise_singleton _ _, ih, trivial⟩

theorem nested_valid {F : FloatFormat} {n : ℕ} (h : 2 + 6 * n ≤ maxInputBytes) :
    validateInputs F (nested n) = .ok () := by
  have hsegment : validSegment "a" = true := by decide
  have hkey : stringLength "a" = 3 := by decide
  have hentries : validateEntries (nested n) = .ok () := by
    clear h
    induction n with
    | zero => rfl
    | succ n ih =>
      simp only [nested, validateEntries, validateFields, hsegment, ih]
      rfl
  have hlength : encodedLength F (nested n) = 2 + 6 * n := by
    clear h hentries
    induction n with
    | zero => rfl
    | succ n ih =>
      simp only [nested, encodedLength, fieldsLength, hkey, ih, commaLength, List.isEmpty_nil,
        if_true]
      omega
  refine validateInputs_ok_iff.mpr ⟨?_, hentries, hlength.trans_le h⟩
  cases n <;> rfl

/-- With the two objects around them, 126 objects are one more than the worker decodes. -/
theorem nested_refused (F : FloatFormat) : RefusedByWorker F (nested 125) := by
  obtain ⟨snapshot, hsnapshot, hinputs⟩ :=
    demoSnapshot_inputs (nested_valid (F := F) (by decide)) (nested_ordered 125)
  refine ⟨snapshot, hsnapshot, ?_⟩
  rw [workerAccepts_iff, hinputs, ReturnsWithin, nested_depth]
  omega

/-- `1e19` with either notation of the exponent, `1e19` or `1e+19`, and objects nested too deep. -/
theorem accepted_inputs_refused :
    (RefusedByWorker (shortest []) demoInputs ∧ RefusedOnReturn (shortest []) demoInputs) ∧
      (RefusedByWorker (shortest ['+']) demoInputs ∧ RefusedOnReturn (shortest ['+']) demoInputs) ∧
      RefusedByWorker (shortest []) (nested 125) :=
  ⟨demoInputs_refused (by decide), demoInputs_refused (by decide), nested_refused _⟩

def demoAttempts : Value := .object [("attempts", .number (.posInt 3))]

theorem demoAttempts_returns (read : Decimal → Decimal) {levels : ℕ} (h : 1 ≤ levels) :
    ReturnsWithin (shortest []) read levels demoAttempts := by
  have hnumbers : ∀ n ∈ numbers demoAttempts,
      (∃ m < 2 ^ 64, n = .posInt m) ∨ ∃ m, 0 < m ∧ m ≤ 2 ^ 63 ∧ n = .negInt m :=
    fun n hn => .inl ⟨3, by decide, List.mem_singleton.mp hn⟩
  refine ⟨h, ?_⟩
  rw [totalGain_integers _ _ hnumbers]
  decide +kernel

/-- Integers come back as they were. -/
theorem stored_inputs_accepted_iff_demo :
    (∃ snapshot, demoSnapshot (shortest []) demoAttempts = .ok snapshot ∧
      WorkerAccepts (shortest []) snapshot) ∧
    ∃ column merged, readInputs (shortest []) demoAttempts = some column ∧
      mergeInputs (shortest []) [column] = .ok merged := by
  have hordered : Ordered demoAttempts := ⟨List.pairwise_singleton _ _, trivial, trivial⟩
  have hvalid : validateInputs (shortest []) demoAttempts = .ok () := by decide +kernel
  obtain ⟨hworker, hmerged⟩ := stored_inputs_accepted_iff (shortest [])
  constructor
  · obtain ⟨snapshot, hsnapshot, hinputs⟩ := demoSnapshot_inputs hvalid hordered
    refine ⟨snapshot, hsnapshot, (hworker _ _ _ _ _ _ _ _ _ snapshot hsnapshot).mpr ?_⟩
    rw [hinputs]
    exact demoAttempts_returns _ (by decide)
  · exact (hmerged demoAttempts hordered hvalid).mpr (demoAttempts_returns _ (by decide))

end InputStorage
