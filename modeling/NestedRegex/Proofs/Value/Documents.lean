import NestedRegex.Proofs.Decimal.Finite
import NestedRegex.Value.Json

namespace NestedRegex

namespace Scalar

/-- What a document keeps of a scalar. It has no form for a float that is infinite or not a
number. -/
def finite : Scalar → Scalar
  | .float bits => if (Float.ofBits bits).isFinite then .float bits else .null
  | s => s

variable {s : Scalar} {i : Int64} {bits : UInt64}

theorem finite_of_kind_ne (h : s.kind ≠ .float) : s.finite = s := by
  cases s with
  | float bits => exact absurd rfl h
  | _ => rfl

/-- No other scalar becomes an integer. -/
theorem finite_eq_int_iff : s.finite = .int i ↔ s = .int i := by
  cases s with
  | float bits =>
    rw [finite]
    split <;> simp
  | _ => rfl

/-- No other scalar becomes a float, and none becomes another float. -/
theorem finite_eq_float_iff :
    s.finite = .float bits ↔ s = .float bits ∧ (Float.ofBits bits).isFinite = true := by
  cases s with
  | float bits' =>
    rw [finite]
    split
    · next h =>
      refine ⟨fun e => ⟨e, ?_⟩, And.left⟩
      rwa [← Scalar.float.inj e]
    · next h =>
      refine iff_of_false nofun fun ⟨e, h'⟩ => h ?_
      rwa [Scalar.float.inj e]
  | _ => simp [finite]

end Scalar

namespace Value

mutual

/-- A value with other scalars in the same places. -/
def mapScalars (change : Scalar → Scalar) : Value → Value
  | .scalar s => .scalar (change s)
  | .seq vs => .seq (mapScalarsOfItems change vs)

def mapScalarsOfItems (change : Scalar → Scalar) : List Value → List Value
  | [] => []
  | v :: vs => mapScalars change v :: mapScalarsOfItems change vs

end

/-- The value that indices lead to, the outermost of them first. -/
def at? : Value → List Nat → Option Value
  | v, [] => some v
  | .scalar _, _ :: _ => none
  | .seq vs, index :: path => vs[index]?.bind fun v => v.at? path

variable {change : Scalar → Scalar} {s t : Scalar} {v : Value} {vs : List Value} {path : List Nat}

@[simp] theorem toJson_scalar (s : Scalar) : (scalar s).toJson = s.toJson := by
  rw [toJson]

@[simp] theorem toJson_seq (vs : List Value) : (seq vs).toJson = .array (toJsonItems vs) := by
  rw [toJson]

@[simp] theorem toJsonItems_nil : toJsonItems [] = [] := by
  rw [toJsonItems]

@[simp] theorem toJsonItems_cons (v : Value) (vs : List Value) :
    toJsonItems (v :: vs) = v.toJson :: toJsonItems vs := by
  rw [toJsonItems]

@[simp] theorem mapScalars_scalar (change : Scalar → Scalar) (s : Scalar) :
    (scalar s).mapScalars change = .scalar (change s) := by
  rw [mapScalars]

theorem mapScalarsOfItems_eq_map (change : Scalar → Scalar) (vs : List Value) :
    mapScalarsOfItems change vs = vs.map (mapScalars change) := by
  induction vs with
  | nil => rfl
  | cons v vs ih => rw [mapScalarsOfItems, ih, List.map_cons]

@[simp] theorem mapScalars_seq (change : Scalar → Scalar) (vs : List Value) :
    (seq vs).mapScalars change = .seq (vs.map (mapScalars change)) := by
  rw [mapScalars, mapScalarsOfItems_eq_map]

/-- Other scalars leave all else in its place. -/
theorem at?_mapScalars (change : Scalar → Scalar) (v : Value) (path : List Nat) :
    (v.mapScalars change).at? path = (v.at? path).map (mapScalars change) := by
  induction path generalizing v with
  | nil => rfl
  | cons index path ih =>
    cases v with
    | scalar s => rfl
    | seq vs =>
      rw [mapScalars_seq, at?, at?, List.getElem?_map]
      cases vs[index]? with
      | none => rfl
      | some v => exact ih v

theorem at?_mapScalars_eq_scalar_iff : (v.mapScalars change).at? path = some (.scalar t) ↔
    ∃ s, v.at? path = some (.scalar s) ∧ change s = t := by
  rw [at?_mapScalars, Option.map_eq_some_iff]
  constructor
  · intro ⟨w, hw, he⟩
    cases w with
    | scalar s => exact ⟨s, hw, Value.scalar.inj he⟩
    | seq vs => cases he
  · intro ⟨s, hs, he⟩
    exact ⟨.scalar s, hs, congrArg Value.scalar he⟩

/-- Integers of 64 bits stay what they are. -/
theorem scalar_integer (i : Int64) : (JsonNumber.integer i.toInt).scalar = .int i := by
  have hmin : Int64.minValue.toInt ≤ i.toInt := i.minValue_le_toInt
  have hmax : i.toInt ≤ Int64.maxValue.toInt := i.toInt_le
  rw [JsonNumber.scalar, if_pos ⟨hmin, hmax⟩, Int64.ofInt_toInt]

theorem ofJsonAt_scalar (path : List Nat) (s : Scalar) :
    ofJsonAt path s.toJson = .ok (.scalar s.finite) := by
  cases s with
  | int i =>
    rw [Scalar.toJson, ofJsonAt, scalar_integer]
    rfl
  | float bits =>
    rw [Scalar.toJson, Decimal.isFinite_ofBits, Scalar.finite]
    split <;> rw [ofJsonAt]
    rfl
  | _ =>
    rw [Scalar.toJson, ofJsonAt]
    rfl

mutual

/-- The value of a document that was made of a value, wherever it stands. -/
theorem ofJsonAt_toJson (path : List Nat) :
    ∀ v : Value, ofJsonAt path v.toJson = .ok (v.mapScalars Scalar.finite)
  | .scalar s => by rw [toJson_scalar, ofJsonAt_scalar, mapScalars_scalar]
  | .seq vs => by
    rw [toJson_seq, ofJsonAt, ofJsonItems_toJson path 0 vs]
    rfl

theorem ofJsonItems_toJson (path : List Nat) (index : Nat) : ∀ vs : List Value,
    ofJsonItems path index (toJsonItems vs) = .ok (mapScalarsOfItems Scalar.finite vs)
  | [] => by rw [toJsonItems_nil, ofJsonItems, mapScalarsOfItems]
  | v :: vs => by
    rw [toJsonItems_cons, ofJsonItems, ofJsonAt_toJson (index :: path) v,
      ofJsonItems_toJson path (index + 1) vs]
    rfl

end

/-- The value of the document that was made of a value is this value with null in the place of every
float that is infinite or not a number. So an integer stands in the one just where it stands in the
other, and likewise the bits of every finite float. -/
theorem ofJson_toJson (v : Value) :
    ofJson v.toJson = .ok (v.mapScalars Scalar.finite) ∧
    (∀ path i, (v.mapScalars Scalar.finite).at? path = some (.scalar (.int i)) ↔
      v.at? path = some (.scalar (.int i))) ∧
    ∀ path bits, (v.mapScalars Scalar.finite).at? path = some (.scalar (.float bits)) ↔
      v.at? path = some (.scalar (.float bits)) ∧ (Float.ofBits bits).isFinite = true := by
  refine ⟨ofJsonAt_toJson [] v, fun path i => ?_, fun path bits => ?_⟩
  · simp only [at?_mapScalars_eq_scalar_iff, Scalar.finite_eq_int_iff, exists_eq_right]
  · simp only [at?_mapScalars_eq_scalar_iff, Scalar.finite_eq_float_iff]
    constructor
    · intro ⟨s, hs, he, hfinite⟩
      exact ⟨he ▸ hs, hfinite⟩
    · intro ⟨hs, hfinite⟩
      exact ⟨_, hs, rfl, hfinite⟩

/-- An infinite float in front of the least integer and a zero with a sign. -/
example : ofJson (toJson (.seq [.scalar (.float 0xFFF0000000000000),
      .seq [.scalar (.int Int64.minValue), .scalar (.float 0x8000000000000000)]])) =
    .ok (.seq [.scalar .null,
      .seq [.scalar (.int Int64.minValue), .scalar (.float 0x8000000000000000)]]) := by
  rfl

end Value

end NestedRegex
