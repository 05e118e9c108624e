import RecedingHorizon.Proofs.Finiteness

/-!
# Special values

What the theory of special values takes from an arithmetic. Overflow is allowed: a result may be
infinite when its operands are finite, but a result is finite only when its operands are
(`SpreadsNonFinite`), and the sign of a result can be trusted (`KeepsSigns`). Nothing is said of
rounding.

Exact arithmetic satisfies both, and so do the machine formats.
-/

namespace RecedingHorizon

namespace Scalar

/-- Arithmetic in which what is not finite spreads: results are finite only on finite operands, and
no finite number bounds an infinite absolute value or one that is no number. -/
class SpreadsNonFinite (S : Type) [Scalar S] : Prop where
  finite_of_add {a b : S} : isFinite (a + b) = true → isFinite a = true ∧ isFinite b = true
  finite_of_sub {a b : S} : isFinite (a - b) = true → isFinite a = true ∧ isFinite b = true
  finite_of_mul {a b : S} : isFinite (a * b) = true → isFinite a = true ∧ isFinite b = true
  isFinite_abs (a : S) : isFinite (abs a) = isFinite a
  finite_of_abs_le {a t : S} : isFinite t = true → abs a ≤ t → isFinite a = true
  finite_of_mul_abs_le {r a t : S} : isFinite r = true → ¬ r ≤ 0 → isFinite t = true →
    r * abs a ≤ t → isFinite a = true

/-- Arithmetic whose signs can be trusted: a positive difference is taken from a positive number
unless a negative one is subtracted, a square is never negative and leaves nothing positive when its
root is not finite. -/
class KeepsSigns (S : Type) [Scalar S] : Prop where
  pos_of_sub_pos {a b : S} : 0 < a - b → ¬ b < 0 → 0 < a
  square_not_neg (a : S) : ¬ a * a < 0
  finite_of_sub_square_pos {a b : S} : 0 < a - b * b → isFinite b = true
  pos_of_finite {a : S} : isFinite a = true → ¬ a ≤ 0 → 0 < a

end Scalar

/-! ## Exact arithmetic -/

namespace Extended

open Scalar

variable [Precision]

instance : SpreadsNonFinite Extended where
  finite_of_add h := by rwa [isFinite_add, Bool.and_eq_true] at h
  finite_of_sub h := by rwa [isFinite_sub, Bool.and_eq_true] at h
  finite_of_mul h := by rwa [isFinite_mul, Bool.and_eq_true] at h
  isFinite_abs a := by cases a <;> rfl
  finite_of_abs_le {a t} ht h := by
    obtain ⟨t, rfl⟩ := isFinite_iff.mp ht
    cases a with
    | finite => rfl
    | _ => exact h.elim
  finite_of_mul_abs_le {r a t} hr hPos ht h := by
    obtain ⟨r, rfl⟩ := isFinite_iff.mp hr
    obtain ⟨t, rfl⟩ := isFinite_iff.mp ht
    have hSign : SignType.sign r = 1 := sign_pos (not_le.mp hPos)
    cases a with
    | finite => rfl
    | nan =>
      rw [show finite r * Scalar.abs nan = unbounded (SignType.sign r * 0) from rfl, mul_zero] at h
      exact h.elim
    | _ =>
      change unbounded (SignType.sign r * 1) ≤ finite t at h
      rw [hSign] at h
      exact h.elim

instance : KeepsSigns Extended where
  pos_of_sub_pos {a b} h hb := by
    cases a with
    | finite a =>
      cases b with
      | finite b =>
        rw [finite_sub, zero_eq, finite_lt, sub_pos] at h
        rw [zero_eq, finite_lt, not_lt] at hb
        exact hb.trans_lt h
      | negInf => exact absurd trivial hb
      | _ => exact h.elim
    | posInf => trivial
    | _ => cases b <;> exact h.elim
  square_not_neg a := by
    cases a with
    | finite a => exact not_lt.mpr (mul_self_nonneg a)
    | _ => exact id
  finite_of_sub_square_pos {a b} h := by
    cases b with
    | finite => rfl
    | _ => cases a <;> exact h.elim
  pos_of_finite {a} hFinite h := by
    obtain ⟨a, rfl⟩ := isFinite_iff.mp hFinite
    exact not_le.mp fun hLe => h (finite_le.mpr hLe)

end Extended

end RecedingHorizon
