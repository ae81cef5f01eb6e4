import Mathlib
import NestedRegex.Decimal.Shortest

namespace NestedRegex.Decimal

open Float.Model (Format)
open Float.Model.UnpackedFloat

/-- A number taken apart is finite unless all bits of its exponent are set. -/
theorem isFinite_unpack (b : BitVec Format.binary64.numBits) :
    (unpack .binary64 b).isFinite = decide (unpackExponent b ≠ -1#11) := by
  rw [unpack]
  dsimp only
  split
  · next set =>
    rw [decide_eq_false (not_not_intro set)]
    split <;> rfl
  · next unset =>
    rw [decide_eq_true unset]
    split
    · split <;> rfl
    · rfl

/-- A number that is put together again stays finite, or stays what it is. -/
theorem isFinite_unpack_pack (b : BitVec Format.binary64.numBits) :
    (unpack .binary64 (pack .binary64 (unpack .binary64 b))).isFinite =
      (unpack .binary64 b).isFinite := by
  -- Only the bits of what is not a number can change, and they stay those of no number.
  rw [pack_unpack]
  split
  · next nan =>
    have set : unpackExponent b = -1#11 := (of_decide_eq_true nan).1
    rw [unpack_packedNaN, isFinite_unpack, decide_eq_false (not_not_intro set)]
    rfl
  · rfl

/-- Where the exponent of a number stands in its bits. -/
theorem toNat_unpackExponent (bits : UInt64) :
    (@unpackExponent .binary64 bits.toBitVec).toNat = bits.toNat / Nat.pow 2 52 % 2048 := by
  rw [unpackExponent, BitVec.toNat_cast, BitVec.extractLsb_toNat, Nat.shiftRight_eq_div_pow]
  rfl

/-- The bits of a finite number are those of a finite float. -/
theorem isFinite_ofBits (bits : UInt64) :
    (Float64.ofBits bits).isFinite = (Float.ofBits bits).isFinite := by
  have float : (Float.ofBits bits).isFinite = (unpack .binary64 bits.toBitVec).isFinite :=
    isFinite_unpack_pack bits.toBitVec
  have all : bits.toNat / Nat.pow 2 52 % 2048 = 2047 ↔
      @unpackExponent .binary64 bits.toBitVec = -1#11 := by
    rw [← toNat_unpackExponent]
    exact ⟨fun h => BitVec.eq_of_toNat_eq h, congrArg BitVec.toNat⟩
  rw [float, isFinite_unpack]
  unfold Float64.ofBits
  dsimp only
  split
  · next set =>
    rw [decide_eq_false (not_not_intro (all.1 set))]
    split <;> rfl
  · next unset =>
    rw [decide_eq_true (mt all.2 unset)]
    split
    · split <;> rfl
    · rfl

end NestedRegex.Decimal
