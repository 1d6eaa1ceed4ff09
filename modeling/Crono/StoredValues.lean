import Crono.ExecutionInputs

/-! Values in `jsonb` columns. PostgreSQL stores numbers as exact decimals and prints them without
an exponent; `serde_json` reads a number from that text. -/
namespace StoredValues

open RunDomain ExecutionInputs

mutual
def mapNumbers (f : Number → Number) : Value → Value
  | .number n => .number (f n)
  | .array items => .array (mapItems f items)
  | .object fields => .object (mapFields f fields)
  | .null => .null
  | .bool b => .bool b
  | .string text => .string text

def mapItems (f : Number → Number) : List Value → List Value
  | [] => []
  | item :: rest => mapNumbers f item :: mapItems f rest

def mapFields (f : Number → Number) : List (String × Value) → List (String × Value)
  | [] => []
  | (key, value) :: rest => (key, mapNumbers f value) :: mapFields f rest
end

/-- What `serde_json` reads from the text `jsonb` prints for a number: an integer when the text
has no point and the value fits, and a float otherwise. -/
def storedNumber (F : FloatFormat) (n : Number) : Number :=
  let d := n.decimal
  let value := d.mantissa * 10 ^ d.exponent.toNat
  if 0 ≤ d.exponent ∧ 0 ≤ value ∧ value < 2 ^ 64 then .posInt value.toNat
  else if 0 ≤ d.exponent ∧ -2 ^ 63 ≤ value ∧ value < 0 then .negInt value.natAbs
  else .float (F.readPlain d)

/-- Inputs written to a `jsonb` column and read back. -/
def stored (F : FloatFormat) (value : Value) : Value := mapNumbers (storedNumber F) value

/-- The decimal `jsonb` prints. -/
def plain (d : Decimal) : Decimal :=
  if 0 ≤ d.exponent then ⟨d.mantissa * 10 ^ d.exponent.toNat, 0⟩ else d

def columnNumber (n : Number) : Number := .float (plain n.decimal)

def columnInputs (value : Value) : Value := mapNumbers columnNumber value

/-- An `f64` field; an integer is read as the float it was printed from. -/
def storedFloat (F : FloatFormat) (d : Decimal) : Decimal :=
  match storedNumber F (.float d) with
  | .float e => e
  | _ => d

/-- The `execution_snapshot` column as `jsonb` holds it. -/
def columnSnapshot (snapshot : ExecutionSnapshot) : ExecutionSnapshot :=
  { snapshot with
    inputs := columnInputs snapshot.inputs
    retryMultiplier := plain snapshot.retryMultiplier
    retryJitter := plain snapshot.retryJitter }

/-- `serde_json::from_value` of the column. -/
def decodeSnapshot (F : FloatFormat) (column : ExecutionSnapshot) : ExecutionSnapshot :=
  { column with
    inputs := stored F column.inputs
    retryMultiplier := storedFloat F column.retryMultiplier
    retryJitter := storedFloat F column.retryJitter }

def rereadColumn (F : FloatFormat) : SnapshotColumn → SnapshotColumn
  | .execution snapshot => .execution (decodeSnapshot F (columnSnapshot snapshot))
  | .renderError message inputs => .renderError message (stored F (columnInputs inputs))

@[simp] theorem rereadColumn_queueId (F : FloatFormat) (column : SnapshotColumn) :
    (rereadColumn F column).queueId = column.queueId := by
  cases column <;> rfl

mutual
def numbers : Value → List Number
  | .number n => [n]
  | .array items => itemNumbers items
  | .object fields => fieldNumbers fields
  | .null | .bool _ | .string _ => []

def itemNumbers : List Value → List Number
  | [] => []
  | item :: rest => numbers item ++ itemNumbers rest

def fieldNumbers : List (String × Value) → List Number
  | [] => []
  | (_, value) :: rest => numbers value ++ fieldNumbers rest
end

mutual
theorem mapNumbers_mapNumbers (f g : Number → Number) (v : Value) :
    mapNumbers g (mapNumbers f v) = mapNumbers (fun n => g (f n)) v := by
  cases v with
  | array items => simp only [mapNumbers, mapItems_mapItems]
  | object fields => simp only [mapNumbers, mapFields_mapFields]
  | number => rfl
  | null => rfl
  | bool => rfl
  | string => rfl

theorem mapItems_mapItems (f g : Number → Number) (items : List Value) :
    mapItems g (mapItems f items) = mapItems (fun n => g (f n)) items := by
  cases items with
  | nil => rfl
  | cons item rest => simp only [mapItems, mapNumbers_mapNumbers, mapItems_mapItems]

theorem mapFields_mapFields (f g : Number → Number) (fields : List (String × Value)) :
    mapFields g (mapFields f fields) = mapFields (fun n => g (f n)) fields := by
  cases fields with
  | nil => rfl
  | cons field rest => simp only [mapFields, mapNumbers_mapNumbers, mapFields_mapFields]
end

mutual
theorem numbers_mapNumbers (f : Number → Number) (v : Value) :
    numbers (mapNumbers f v) = (numbers v).map f := by
  cases v with
  | array items => simp only [mapNumbers, numbers, itemNumbers_mapItems]
  | object fields => simp only [mapNumbers, numbers, fieldNumbers_mapFields]
  | number => rfl
  | null => rfl
  | bool => rfl
  | string => rfl

theorem itemNumbers_mapItems (f : Number → Number) (items : List Value) :
    itemNumbers (mapItems f items) = (itemNumbers items).map f := by
  cases items with
  | nil => rfl
  | cons item rest =>
    simp only [mapItems, itemNumbers, numbers_mapNumbers, itemNumbers_mapItems, List.map_append]

theorem fieldNumbers_mapFields (f : Number → Number) (fields : List (String × Value)) :
    fieldNumbers (mapFields f fields) = (fieldNumbers fields).map f := by
  cases fields with
  | nil => rfl
  | cons field rest =>
    simp only [mapFields, fieldNumbers, numbers_mapNumbers, fieldNumbers_mapFields,
      List.map_append]
end

mutual
theorem mapNumbers_inj {f g : Number → Number} (v : Value) :
    mapNumbers f v = mapNumbers g v ↔ ∀ n ∈ numbers v, f n = g n := by
  cases v with
  | number n => simp [mapNumbers, numbers]
  | array items => simp only [mapNumbers, numbers, Value.array.injEq, mapItems_inj]
  | object fields => simp only [mapNumbers, numbers, Value.object.injEq, mapFields_inj]
  | null => simp [mapNumbers, numbers]
  | bool => simp [mapNumbers, numbers]
  | string => simp [mapNumbers, numbers]

theorem mapItems_inj {f g : Number → Number} (items : List Value) :
    mapItems f items = mapItems g items ↔ ∀ n ∈ itemNumbers items, f n = g n := by
  cases items with
  | nil => simp [mapItems, itemNumbers]
  | cons item rest =>
    simp only [mapItems, itemNumbers, List.cons.injEq, mapNumbers_inj, mapItems_inj,
      List.forall_mem_append]

theorem mapFields_inj {f g : Number → Number} (fields : List (String × Value)) :
    mapFields f fields = mapFields g fields ↔ ∀ n ∈ fieldNumbers fields, f n = g n := by
  cases fields with
  | nil => simp [mapFields, fieldNumbers]
  | cons field rest =>
    simp only [mapFields, fieldNumbers, List.cons.injEq, Prod.mk.injEq, true_and, mapNumbers_inj,
      mapFields_inj, List.forall_mem_append]
end

/-- A number of a column is read as a value that prints as the same number. -/
def ReadsBack (F : FloatFormat) (d : Decimal) : Prop :=
  plain (storedNumber F (.float d)).decimal = d

instance (F : FloatFormat) (d : Decimal) : Decidable (ReadsBack F d) :=
  inferInstanceAs (Decidable (_ = d))

/-- The numbers of an `execution_snapshot` column. -/
def columnNumbers (column : ExecutionSnapshot) : List Decimal :=
  (numbers column.inputs).map Number.decimal ++ [column.retryMultiplier, column.retryJitter]

def snapshotNumbers : SnapshotColumn → List Decimal
  | .execution snapshot => columnNumbers (columnSnapshot snapshot)
  | .renderError _ _ => []

/-- Every number of the snapshot column is read as a value that prints as the same number. -/
def Reproducible (F : FloatFormat) (column : SnapshotColumn) : Prop :=
  ∀ d ∈ snapshotNumbers column, ReadsBack F d

instance (F : FloatFormat) (column : SnapshotColumn) : Decidable (Reproducible F column) :=
  inferInstanceAs (Decidable (∀ d ∈ snapshotNumbers column, ReadsBack F d))

/-- An integer within 64 bits is read as itself; any other number is read as a float. -/
theorem storedNumber_cases (F : FloatFormat) (d : Decimal) :
    storedNumber F (.float d) = .float (F.readPlain d) ∨
    (storedNumber F (.float d)).decimal = plain d ∧ ∀ e, storedNumber F (.float d) ≠ .float e := by
  have hread : storedNumber F (.float d) =
      if 0 ≤ d.exponent ∧ 0 ≤ d.mantissa * 10 ^ d.exponent.toNat ∧
          d.mantissa * 10 ^ d.exponent.toNat < 2 ^ 64 then
        .posInt (d.mantissa * 10 ^ d.exponent.toNat).toNat
      else if 0 ≤ d.exponent ∧ -2 ^ 63 ≤ d.mantissa * 10 ^ d.exponent.toNat ∧
          d.mantissa * 10 ^ d.exponent.toNat < 0 then
        .negInt (d.mantissa * 10 ^ d.exponent.toNat).natAbs
      else .float (F.readPlain d) := rfl
  by_cases hpos : 0 ≤ d.exponent ∧ 0 ≤ d.mantissa * 10 ^ d.exponent.toNat ∧
      d.mantissa * 10 ^ d.exponent.toNat < 2 ^ 64
  · rw [hread, if_pos hpos]
    refine .inr ⟨?_, nofun⟩
    rw [plain, if_pos hpos.1, Number.decimal, Int.toNat_of_nonneg hpos.2.1]
  by_cases hneg : 0 ≤ d.exponent ∧ -2 ^ 63 ≤ d.mantissa * 10 ^ d.exponent.toNat ∧
      d.mantissa * 10 ^ d.exponent.toNat < 0
  · rw [hread, if_neg hpos, if_pos hneg]
    refine .inr ⟨?_, nofun⟩
    rw [plain, if_pos hneg.1, Number.decimal, Int.ofNat_natAbs_of_nonpos hneg.2.2.le, neg_neg]
  · rw [hread, if_neg hpos, if_neg hneg]
    exact .inl rfl

theorem plain_plain (d : Decimal) : plain (plain d) = plain d := by
  unfold plain
  split
  · simp
  · rfl

theorem storedFloat_readsBack (F : FloatFormat) (d : Decimal) :
    plain (storedFloat F (plain d)) = plain d ↔ ReadsBack F (plain d) := by
  unfold storedFloat ReadsBack
  rcases storedNumber_cases F (plain d) with hfloat | ⟨hsame, hinteger⟩
  · rw [hfloat]
    rfl
  · rw [hsame, plain_plain]
    split
    · rename_i e he
      exact absurd he (hinteger e)
    · exact Iff.rfl

theorem columnInputs_readsBack (F : FloatFormat) (value : Value) :
    columnInputs (stored F (columnInputs value)) = columnInputs value ↔
      ∀ n ∈ numbers (columnInputs value), ReadsBack F n.decimal := by
  unfold stored columnInputs
  rw [mapNumbers_mapNumbers, mapNumbers_mapNumbers, mapNumbers_inj, numbers_mapNumbers,
    List.forall_mem_map]
  simp only [columnNumber, ReadsBack, Number.decimal, Number.float.injEq]

/-- A snapshot column is encoded from what was decoded of it exactly when each of its numbers
is read back. -/
theorem columnSnapshot_decodeSnapshot (F : FloatFormat) (snapshot : ExecutionSnapshot) :
    columnSnapshot (decodeSnapshot F (columnSnapshot snapshot)) = columnSnapshot snapshot ↔
      ∀ d ∈ columnNumbers (columnSnapshot snapshot), ReadsBack F d := by
  simp only [columnSnapshot, decodeSnapshot, columnNumbers, ExecutionSnapshot.mk.injEq, true_and,
    and_true, List.forall_mem_append, List.forall_mem_map, List.forall_mem_cons,
    List.not_mem_nil, false_imp_iff, implies_true, columnInputs_readsBack, storedFloat_readsBack]

theorem sameValue_at {a b : Decimal} {e : ℤ} (ha : e ≤ a.exponent) (hb : e ≤ b.exponent) :
    a.sameValue b = true ↔ a.mantissa * 10 ^ (a.exponent - e).toNat =
      b.mantissa * 10 ^ (b.exponent - e).toNat := by
  have hshift (d : Decimal) (h : min a.exponent b.exponent ≤ d.exponent) :
      d.mantissa * 10 ^ (d.exponent - e).toNat =
        d.mantissa * 10 ^ (d.exponent - min a.exponent b.exponent).toNat *
          10 ^ (min a.exponent b.exponent - e).toNat := by
    have hsum : (d.exponent - e).toNat = (d.exponent - min a.exponent b.exponent).toNat +
        (min a.exponent b.exponent - e).toNat := by omega
    rw [hsum, pow_add, mul_assoc]
  have hpow : (10 : ℤ) ^ (min a.exponent b.exponent - e).toNat ≠ 0 :=
    Int.ne_of_gt (Int.pow_pos (by decide))
  rw [hshift a (min_le_left _ _), hshift b (min_le_right _ _), Int.mul_eq_mul_right_iff hpow]
  exact beq_iff_eq

theorem sameValue_refl (a : Decimal) : a.sameValue a = true := by
  rw [sameValue_at (Int.le_refl _) (Int.le_refl _)]

theorem sameValue_symm {a b : Decimal} (h : a.sameValue b = true) : b.sameValue a = true := by
  have ha : min a.exponent b.exponent ≤ a.exponent := min_le_left _ _
  have hb : min a.exponent b.exponent ≤ b.exponent := min_le_right _ _
  rw [sameValue_at hb ha]
  exact ((sameValue_at ha hb).mp h).symm

theorem sameValue_trans {a b c : Decimal} (h : a.sameValue b = true) (k : b.sameValue c = true) :
    a.sameValue c = true := by
  let e := min a.exponent (min b.exponent c.exponent)
  have ha : e ≤ a.exponent := by omega
  have hb : e ≤ b.exponent := by omega
  have hc : e ≤ c.exponent := by omega
  rw [sameValue_at ha hc]
  exact ((sameValue_at ha hb).mp h).trans ((sameValue_at hb hc).mp k)

mutual
theorem jsonbEq_refl (v : Value) : v.jsonbEq v = true := by
  cases v with
  | number n => exact sameValue_refl n.decimal
  | array items => exact jsonbEqList_refl items
  | object fields => exact jsonbEqFields_refl fields
  | null => rfl
  | bool b => simp [Value.jsonbEq]
  | string text => simp [Value.jsonbEq]

theorem jsonbEqList_refl (items : List Value) : Value.jsonbEqList items items = true := by
  cases items with
  | nil => rfl
  | cons item rest => simp only [Value.jsonbEqList, jsonbEq_refl, jsonbEqList_refl, Bool.and_self]

theorem jsonbEqFields_refl (fields : List (String × Value)) :
    Value.jsonbEqFields fields fields = true := by
  cases fields with
  | nil => rfl
  | cons field rest =>
    simp only [Value.jsonbEqFields, jsonbEq_refl, jsonbEqFields_refl, BEq.rfl, Bool.and_self]
end

mutual
/-- A value equal to another stays so exactly when its numbers keep their values. -/
theorem jsonbEq_mapNumbers {f : Number → Number} {v w : Value} (h : v.jsonbEq w = true) :
    (mapNumbers f v).jsonbEq w = true ↔
      ∀ n ∈ numbers v, (f n).decimal.sameValue n.decimal = true := by
  cases v with
  | number n =>
    cases w with
    | number m =>
      have hnm : n.decimal.sameValue m.decimal = true := h
      simp only [mapNumbers, numbers, List.forall_mem_singleton, Value.jsonbEq]
      exact ⟨fun hf => sameValue_trans hf (sameValue_symm hnm), fun hf => sameValue_trans hf hnm⟩
    | null | bool | string | array | object => cases h
  | array items =>
    cases w with
    | array items' => exact jsonbEqList_mapItems h
    | null | bool | string | number | object => cases h
  | object fields =>
    cases w with
    | object fields' => exact jsonbEqFields_mapFields h
    | null | bool | string | number | array => cases h
  | null => simp [mapNumbers, numbers, h]
  | bool b => simp [mapNumbers, numbers, h]
  | string text => simp [mapNumbers, numbers, h]

theorem jsonbEqList_mapItems {f : Number → Number} {items items' : List Value}
    (h : Value.jsonbEqList items items' = true) :
    Value.jsonbEqList (mapItems f items) items' = true ↔
      ∀ n ∈ itemNumbers items, (f n).decimal.sameValue n.decimal = true := by
  cases items with
  | nil => simp [mapItems, itemNumbers, h]
  | cons item rest =>
    cases items' with
    | nil => cases h
    | cons item' rest' =>
      simp only [Value.jsonbEqList, Bool.and_eq_true] at h
      simp only [mapItems, itemNumbers, Value.jsonbEqList, Bool.and_eq_true,
        List.forall_mem_append, jsonbEq_mapNumbers h.1, jsonbEqList_mapItems h.2]

theorem jsonbEqFields_mapFields {f : Number → Number} {fields fields' : List (String × Value)}
    (h : Value.jsonbEqFields fields fields' = true) :
    Value.jsonbEqFields (mapFields f fields) fields' = true ↔
      ∀ n ∈ fieldNumbers fields, (f n).decimal.sameValue n.decimal = true := by
  cases fields with
  | nil => simp [mapFields, fieldNumbers, h]
  | cons field rest =>
    cases fields' with
    | nil => cases h
    | cons field' rest' =>
      simp only [Value.jsonbEqFields, Bool.and_eq_true] at h
      simp only [mapFields, fieldNumbers, Value.jsonbEqFields, Bool.and_eq_true, h.1.1, true_and,
        List.forall_mem_append, jsonbEq_mapNumbers h.1.2, jsonbEqFields_mapFields h.2]
end

theorem jsonInputsEqual_iff {v w : Value} : jsonInputsEqual v w = true ↔ v.jsonbEq w = true := by
  rw [jsonInputsEqual, Bool.or_eq_true, decide_eq_true_eq]
  constructor
  · rintro (rfl | h)
    · exact jsonbEq_refl v
    · exact h
  · exact .inr

/-- The number `serde_json` reads from the column has the value that was written. -/
def KeepsValue (F : FloatFormat) (n : Number) : Prop :=
  (storedNumber F (columnNumber n)).decimal.sameValue n.decimal = true

instance (F : FloatFormat) (n : Number) : Decidable (KeepsValue F n) :=
  inferInstanceAs (Decidable (_ = true))

/-- Equal inputs are found equal after they were stored exactly when their numbers keep their
values. -/
theorem jsonInputsEqual_stored {F : FloatFormat} {v w : Value} (h : jsonInputsEqual v w = true) :
    jsonInputsEqual (stored F (columnInputs v)) w = true ↔ ∀ n ∈ numbers v, KeepsValue F n := by
  rw [jsonInputsEqual_iff] at h ⊢
  unfold stored columnInputs
  rw [mapNumbers_mapNumbers, jsonbEq_mapNumbers h]
  rfl

/-- `serde_json` reads each of two neighbouring floats as the other. -/
def neighbours : FloatFormat where
  text := fun d => if d = ⟨1, -24⟩ then "1e-24".toList else "1.0000000000000001e-24".toList
  readPlain := fun d => if d = ⟨1, -24⟩ then ⟨10000000000000001, -40⟩
    else if d = ⟨10000000000000001, -40⟩ then ⟨1, -24⟩ else d
  readText := id

def toleranceInputs (n : Number) : Value := .object [("tolerance", .number n)]

end StoredValues
