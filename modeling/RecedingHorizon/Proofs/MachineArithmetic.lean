import Mathlib
import RecedingHorizon.MachineScalar
import RecedingHorizon.Proofs.SpecialValues

/-!
# Arithmetic of the machine formats

A machine number is a packed sign, exponent and mantissa. An operation unpacks its operands, rounds
the exact result and packs it, which may overflow to an infinity (`BinaryArithmetic`). Packing keeps
the sign and makes nothing finite of what is not (`Packing.onSide_repack`,
`Packing.finite_of_repack`). So special values spread in every binary format, and its signs can be
trusted. The formats of a controller, binary64 and binary32, are such formats by definition of
`Float` and `Float32`.
-/

namespace RecedingHorizon

open Float.Model (Format UnpackedFloat)
open Float.Model.UnpackedFloat

/-! ## Packing -/

namespace Packing

variable {spec : Format} {s : Sign} {u v : UnpackedFloat}

/-- Numbers and infinities of the sign `s`, both zeros, and what is no number. -/
def OnSide (s : Sign) : UnpackedFloat → Prop
  | .infinity t => t = s
  | .finite t _ _ _ => t = s
  | .zero _ => True
  | .notANumber => True

theorem zero_lt_iff : (UnpackedFloat.zero .positive).lt u = true ↔ ¬ OnSide .negative u := by
  cases u with
  | infinity t => cases t <;> simp [UnpackedFloat.lt, UnpackedFloat.compare, OnSide]
  | finite t => cases t <;> simp [UnpackedFloat.lt, UnpackedFloat.compare, OnSide]
  | _ => simp [UnpackedFloat.lt, UnpackedFloat.compare, OnSide]

theorem lt_zero_iff : u.lt (.zero .positive) = true ↔ ¬ OnSide .positive u := by
  cases u with
  | infinity t => cases t <;> simp [UnpackedFloat.lt, UnpackedFloat.compare, OnSide]
  | finite t => cases t <;> simp [UnpackedFloat.lt, UnpackedFloat.compare, OnSide]
  | _ => simp [UnpackedFloat.lt, UnpackedFloat.compare, OnSide]

/-- What is read back of a value after it was packed. -/
def repack (spec : Format) (u : UnpackedFloat) : UnpackedFloat := unpack spec (pack spec u)

theorem repack_notANumber : repack spec .notANumber = .notANumber := unpack_packedNaN

theorem repack_zero (s : Sign) : repack spec (.zero s) = .zero s := unpack_packedZero

theorem repack_infinity (s : Sign) : repack spec (.infinity s) = .infinity s := by
  simp [repack, pack, packedInfinity, unpack]

theorem onSide_packComponents (s : Sign) (e : BitVec spec.exponentBits)
    (m : BitVec spec.mantissaBitsWithoutImplicit) :
    OnSide s (unpack spec (packComponents spec s e m)) := by
  rw [unpack]
  simp only [unpackSign_packComponents, Sign.ofBitVec_toBitVec]
  split_ifs <;> trivial

theorem isFinite_packComponents (s : Sign) {e : BitVec spec.exponentBits}
    (m : BitVec spec.mantissaBitsWithoutImplicit) (he : e ≠ BitVec.allOnes spec.exponentBits) :
    (unpack spec (packComponents spec s e m)).isFinite = true := by
  rw [unpack]
  simp only [unpackExponent_packComponents, BitVec.neg_one_eq_allOnes, if_neg he]
  split_ifs <;> rfl

theorem onSide_repack (h : OnSide s u) : OnSide s (repack spec u) := by
  cases u with
  | infinity t =>
    obtain rfl : t = s := h
    exact onSide_packComponents t _ _
  | finite t m e hm =>
    obtain rfl : t = s := h
    rw [repack, pack]
    split_ifs <;> exact onSide_packComponents t _ _
  | zero t =>
    rw [repack_zero]
    trivial
  | notANumber =>
    rw [repack_notANumber]
    trivial

theorem finite_of_repack (h : (repack spec u).isFinite = true) : u.isFinite = true := by
  cases u with
  | infinity t => rwa [repack_infinity] at h
  | notANumber => rwa [repack_notANumber] at h
  | _ => rfl

/-- The exponents of unpacked numbers are below the one that is kept for infinities. -/
theorem exponent_lt {b : BitVec spec.numBits} {m : ℕ} {e : ℤ} {hm : 0 < m}
    (hWidth : 2 ≤ spec.exponentBits) (h : unpack spec b = .finite s m e hm) :
    (e + spec.exponentBias + spec.mantissaBitsWithoutImplicit).toNat + 1 <
      2 ^ spec.exponentBits := by
  have hPower : 2 ^ 2 ≤ 2 ^ spec.exponentBits := Nat.pow_le_pow_right two_pos hWidth
  rw [unpack] at h
  split_ifs at h with hTop hMantissa hLow hMantissa
  · injection h with _ _ hExponent
    rw [hLow, BitVec.toNat_ofNat, Nat.zero_mod] at hExponent
    omega
  · injection h with _ _ hExponent
    have hBelow : (unpackExponent b).toNat ≠ 2 ^ spec.exponentBits - 1 := by
      rw [← BitVec.toNat_allOnes, ← BitVec.neg_one_eq_allOnes]
      exact mt BitVec.eq_of_toNat_eq hTop
    have hBits := (unpackExponent b).isLt
    omega

/-- Exponents below the one that is kept for infinities. -/
theorem ofNat_ne_allOnes {w k : ℕ} (hk : k + 1 < 2 ^ w) : BitVec.ofNat w k ≠ BitVec.allOnes w := by
  intro hTop
  have hValue := congrArg BitVec.toNat hTop
  rw [BitVec.toNat_allOnes, BitVec.toNat_ofNat, Nat.mod_eq_of_lt (by omega)] at hValue
  omega

theorem isFinite_repack_abs (hWidth : 2 ≤ spec.exponentBits) (b : BitVec spec.numBits) :
    (repack spec (unpack spec b).abs).isFinite = (unpack spec b).isFinite := by
  cases h : unpack spec b with
  | finite t m e hm =>
    have hExponent := exponent_lt hWidth h
    -- the exponent is that of a number that was read, so packing does not overflow
    rw [UnpackedFloat.abs, repack, pack, if_neg (by omega)]
    split_ifs
    · exact isFinite_packComponents _ _ (ofNat_ne_allOnes hExponent)
    · exact isFinite_packComponents _ _ (ofNat_ne_allOnes (by omega))
  | zero t => rw [UnpackedFloat.abs, repack_zero, UnpackedFloat.isFinite, UnpackedFloat.isFinite]
  | infinity t =>
    rw [UnpackedFloat.abs, repack_infinity, UnpackedFloat.isFinite, UnpackedFloat.isFinite]
  | notANumber => rw [UnpackedFloat.abs, repack_notANumber]

/-! ## Operations -/

theorem finite_of_add (h : (add spec u v).isFinite = true) :
    u.isFinite = true ∧ v.isFinite = true := by
  cases u with
  | infinity s =>
    cases v with
    | infinity t =>
      rw [add] at h
      split_ifs at h <;> cases h
    | _ => cases h
  | notANumber => cases v <;> cases h
  | _ =>
    cases v with
    | infinity | notANumber => cases h
    | _ => exact ⟨rfl, rfl⟩

theorem finite_of_sub (h : (sub spec u v).isFinite = true) :
    u.isFinite = true ∧ v.isFinite = true := by
  cases u with
  | infinity s =>
    cases v with
    | infinity t =>
      rw [sub] at h
      split_ifs at h <;> cases h
    | _ => cases h
  | notANumber => cases v <;> cases h
  | _ =>
    cases v with
    | infinity | notANumber => cases h
    | _ => exact ⟨rfl, rfl⟩

theorem finite_of_mul (h : (mul spec u v).isFinite = true) :
    u.isFinite = true ∧ v.isFinite = true := by
  cases u with
  | infinity | notANumber => cases v <;> cases h
  | _ =>
    cases v with
    | infinity | notANumber => cases h
    | _ => exact ⟨rfl, rfl⟩

theorem onSide_round (s : Sign) (m : ℕ) (e : ℤ) (a : Accuracy) :
    OnSide s (roundWithAccuracy spec s m e a) := by
  rw [roundWithAccuracy]
  simp only
  split_ifs <;> trivial

theorem onSide_normalize {m : ℤ} (hm : m ≤ 0) (e : ℤ) (s : Sign) :
    OnSide .negative (UnpackedFloat.normalize spec m e s) := by
  rw [UnpackedFloat.normalize]
  cases hCompare : compare m 0 with
  | lt => exact onSide_round _ _ _ _
  | eq => trivial
  | gt => exact absurd (Int.compare_eq_gt.mp hCompare) (not_lt.mpr hm)

theorem onSide_sub (hu : OnSide .negative u) (hv : OnSide .positive v) :
    OnSide .negative (sub spec u v) := by
  have hDifference : ∀ a b : ℕ, Sign.negative.apply a - Sign.positive.apply b ≤ 0 := by
    intro a b
    simp only [Sign.apply]
    omega
  cases u with
  | finite t m e hm =>
    obtain rfl : t = .negative := hu
    cases v with
    | finite t' m' e' hm' =>
      obtain rfl : t' = .positive := hv
      exact onSide_normalize (hDifference _ _) _ _
    | infinity t' =>
      obtain rfl : t' = .positive := hv
      rfl
    | zero => rfl
    | notANumber => trivial
  | infinity t =>
    obtain rfl : t = .negative := hu
    cases v with
    | infinity t' =>
      obtain rfl : t' = .positive := hv
      rfl
    | notANumber => trivial
    | _ => rfl
  | zero t =>
    cases v with
    | finite t' m' e' hm' =>
      obtain rfl : t' = .positive := hv
      rfl
    | infinity t' =>
      obtain rfl : t' = .positive := hv
      rfl
    | zero t' =>
      rw [sub]
      split_ifs <;> trivial
    | notANumber => trivial
  | notANumber => cases v <;> trivial

theorem onSide_square (u : UnpackedFloat) : OnSide .positive (mul spec u u) := by
  have hSign : ∀ t : Sign, t * t = .positive := by
    intro t
    cases t <;> rfl
  cases u with
  | finite t m e hm =>
    rw [mul, hSign]
    exact onSide_round _ _ _ _
  | infinity t => exact hSign t
  | _ => trivial

/-- The two absolute values that are not finite. -/
def IsBoundless (u : UnpackedFloat) : Prop := u = .infinity .positive ∨ u = .notANumber

theorem isBoundless_abs (h : ¬ u.isFinite = true) : IsBoundless u.abs := by
  cases u with
  | infinity => exact .inl rfl
  | notANumber => exact .inr rfl
  | _ => exact absurd rfl h

theorem isBoundless_square (h : ¬ u.isFinite = true) : IsBoundless (mul spec u u) := by
  cases u with
  | infinity t => cases t <;> exact .inl rfl
  | notANumber => exact .inr rfl
  | _ => exact absurd rfl h

theorem IsBoundless.repack (h : IsBoundless u) : IsBoundless (repack spec u) := by
  obtain rfl | rfl := h
  · exact .inl (repack_infinity _)
  · exact .inr repack_notANumber

theorem IsBoundless.mul {m : ℕ} {e : ℤ} {hm : 0 < m} (h : IsBoundless u) :
    IsBoundless (mul spec (.finite .positive m e hm) u) := by
  obtain rfl | rfl := h
  · exact .inl rfl
  · exact .inr rfl

theorem IsBoundless.not_le (h : IsBoundless u) (hv : v.isFinite = true) : ¬ u.le v = true := by
  obtain rfl | rfl := h
  · cases v with
    | infinity | notANumber => cases hv
    | _ => simp [UnpackedFloat.le, UnpackedFloat.compare]
  · simp [UnpackedFloat.le, UnpackedFloat.compare]

theorem IsBoundless.onSide_sub (h : IsBoundless v) (u : UnpackedFloat) :
    OnSide .negative (sub spec u v) := by
  obtain rfl | rfl := h
  · cases u with
    | infinity t => cases t <;> trivial
    | notANumber => trivial
    | _ => rfl
  · cases u <;> trivial

theorem exists_of_not_le_zero (hFinite : u.isFinite = true)
    (h : ¬ u.le (.zero .positive) = true) : ∃ m e hm, u = .finite .positive m e hm := by
  cases u with
  | finite t m e hm =>
    cases t with
    | positive => exact ⟨m, e, hm, rfl⟩
    | negative => exact absurd rfl h
  | zero => exact absurd rfl h
  | _ => cases hFinite

end Packing

/-! ## Machine numbers -/

/-- Scalars whose operations unpack their operands, round the result and pack it. -/
class BinaryArithmetic (S : Type) [Scalar S] where
  spec : Format
  two_le_exponentBits : 2 ≤ spec.exponentBits
  value : S → UnpackedFloat
  exists_bits (a : S) : ∃ b, value a = unpack spec b
  value_zero : value 0 = .zero .positive
  value_add (a b : S) : value (a + b) = Packing.repack spec (add spec (value a) (value b))
  value_sub (a b : S) : value (a - b) = Packing.repack spec (sub spec (value a) (value b))
  value_mul (a b : S) : value (a * b) = Packing.repack spec (mul spec (value a) (value b))
  value_abs (a : S) : value (Scalar.abs a) = Packing.repack spec (value a).abs
  isFinite_eq (a : S) : Scalar.isFinite a = (value a).isFinite
  le_iff (a b : S) : a ≤ b ↔ (value a).le (value b) = true
  lt_iff (a b : S) : a < b ↔ (value a).lt (value b) = true

instance : BinaryArithmetic Float where
  spec := .binary64
  two_le_exponentBits := by decide
  value a := a.toModel.unpack
  exists_bits _ := ⟨_, rfl⟩
  value_zero := rfl
  value_add _ _ := rfl
  value_sub _ _ := rfl
  value_mul _ _ := rfl
  value_abs _ := rfl
  isFinite_eq _ := rfl
  le_iff _ _ := decide_eq_true_iff
  lt_iff _ _ := decide_eq_true_iff

instance : BinaryArithmetic Float32 where
  spec := .binary32
  two_le_exponentBits := by decide
  value a := a.toModel.unpack
  exists_bits _ := ⟨_, rfl⟩
  value_zero := rfl
  value_add _ _ := rfl
  value_sub _ _ := rfl
  value_mul _ _ := rfl
  value_abs _ := rfl
  isFinite_eq _ := rfl
  le_iff _ _ := decide_eq_true_iff
  lt_iff _ _ := decide_eq_true_iff

namespace BinaryArithmetic

open Packing

variable {S : Type} [Scalar S] [BinaryArithmetic S] {a b : S}

theorem pos_iff : 0 < a ↔ ¬ OnSide .negative (value a) := by
  rw [lt_iff, value_zero, zero_lt_iff]

theorem neg_iff : a < 0 ↔ ¬ OnSide .positive (value a) := by
  rw [lt_iff, value_zero, lt_zero_iff]

instance : Scalar.SpreadsNonFinite S where
  finite_of_add h := by
    rw [isFinite_eq, value_add] at h
    simpa only [isFinite_eq] using finite_of_add (finite_of_repack h)
  finite_of_sub h := by
    rw [isFinite_eq, value_sub] at h
    simpa only [isFinite_eq] using finite_of_sub (finite_of_repack h)
  finite_of_mul h := by
    rw [isFinite_eq, value_mul] at h
    simpa only [isFinite_eq] using finite_of_mul (finite_of_repack h)
  isFinite_abs a := by
    obtain ⟨bits, hBits⟩ := exists_bits a
    rw [isFinite_eq, isFinite_eq, value_abs, hBits, isFinite_repack_abs two_le_exponentBits]
  finite_of_abs_le {a t} ht h := by
    rw [isFinite_eq] at ht ⊢
    rw [le_iff, value_abs] at h
    by_contra hNot
    exact (isBoundless_abs hNot).repack.not_le ht h
  finite_of_mul_abs_le {r a t} hr hPos ht h := by
    rw [isFinite_eq] at hr ht ⊢
    rw [le_iff, value_zero] at hPos
    obtain ⟨m, e, hm, hr⟩ := exists_of_not_le_zero hr hPos
    rw [le_iff, value_mul, value_abs, hr] at h
    by_contra hNot
    exact (isBoundless_abs hNot).repack.mul.repack.not_le ht h

instance : Scalar.KeepsSigns S where
  pos_of_sub_pos {a b} h hb := by
    rw [neg_iff, not_not] at hb
    rw [pos_iff] at h ⊢
    intro ha
    rw [value_sub] at h
    exact h (onSide_repack (onSide_sub ha hb))
  square_not_neg a := by
    rw [neg_iff, not_not, value_mul]
    exact onSide_repack (onSide_square _)
  finite_of_sub_square_pos {a b} h := by
    rw [pos_iff, value_sub, value_mul] at h
    rw [isFinite_eq]
    by_contra hNot
    exact h (onSide_repack ((isBoundless_square hNot).repack.onSide_sub _))
  pos_of_finite {a} hFinite h := by
    rw [isFinite_eq] at hFinite
    rw [le_iff, value_zero] at h
    obtain ⟨m, e, hm, ha⟩ := exists_of_not_le_zero hFinite h
    rw [lt_iff, value_zero, ha]
    rfl

end BinaryArithmetic

end RecedingHorizon
