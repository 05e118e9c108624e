import RecedingHorizon.Proofs.ConvergedAnswers

/-!
# The order of numbers

Comparisons are laws of an order among numbers, and false where one side is no number. So a value
counts as a number when it compares with itself, and the running maximum of numbers is above a
threshold exactly when one of them is (`Scalar.lt_peak_iff`). Nothing is said of rounding.

Exact arithmetic is ordered so, and so are binary64 and binary32: there a comparison reads the sign,
the exponent and the mantissa in that order (`Packing.compare_eq_some`).
-/

namespace RecedingHorizon

namespace Scalar

/-- Arithmetic whose numbers are ordered. Differences of finite numbers are numbers, even where they
overflow. -/
class OrdersNumbers (S : Type) [Scalar S] : Prop where
  lt_irrefl (a : S) : ¬ a < a
  lt_of_lt_of_le {a b c : S} : a < b → b ≤ c → a < c
  le_of_not_le {a b : S} : a ≤ a → b ≤ b → ¬ a ≤ b → b ≤ a
  abs_le_self {a : S} : isFinite a = true → abs a ≤ abs a
  abs_sub_le_self {a b : S} : isFinite a = true → isFinite b = true → abs (a - b) ≤ abs (a - b)
  /-- A difference of zero is within the tolerance of round-off. -/
  sqrt_epsilon_not_neg : ¬ sqrt epsilon * larger 0 1 < (0 : S)

end Scalar

/-! ## Exact arithmetic -/

namespace Extended

open Scalar

variable [Precision]

instance : OrdersNumbers Extended where
  lt_irrefl a h := by
    cases a with
    | finite a => exact lt_irrefl a h
    | _ => exact h
  lt_of_lt_of_le {a b c} hLt hLe := by
    cases b with
    | finite b =>
      cases a with
      | finite a =>
        cases c with
        | finite c => exact lt_of_lt_of_le (finite_lt.mp hLt) (finite_le.mp hLe)
        | posInf => trivial
        | _ => exact hLe.elim
      | negInf =>
        cases c with
        | negInf | nan => exact hLe.elim
        | _ => trivial
      | _ => exact hLt.elim
    | posInf =>
      cases c with
      | posInf => exact hLt
      | _ => exact hLe.elim
    | _ => cases a <;> exact hLt.elim
  le_of_not_le {a b} ha hb h := by
    cases a with
    | finite a =>
      cases b with
      | finite b => exact finite_le.mpr (not_le.mp fun hLe => h (finite_le.mpr hLe)).le
      | negInf => trivial
      | posInf => exact absurd trivial h
      | nan => exact hb.elim
    | posInf =>
      cases b with
      | nan => exact hb.elim
      | _ => trivial
    | negInf =>
      cases b with
      | nan => exact hb.elim
      | _ => exact absurd trivial h
    | nan => exact ha.elim
  abs_le_self h := by
    obtain ⟨a, rfl⟩ := isFinite_iff.mp h
    exact le_rfl (a := |a|)
  abs_sub_le_self ha hb := by
    obtain ⟨a, rfl⟩ := isFinite_iff.mp ha
    obtain ⟨b, rfl⟩ := isFinite_iff.mp hb
    exact le_rfl (a := |a + -b|)
  sqrt_epsilon_not_neg := by
    rw [show (epsilon : Extended) = finite Precision.epsilon from rfl,
      sqrt_finite Precision.epsilon_pos.le, zero_eq, one_eq, larger_finite, finite_mul, finite_lt,
      not_lt]
    exact mul_nonneg (Real.sqrt_nonneg _) (le_max_left _ _)

end Extended

/-! ## Machine formats -/

open Float.Model (Format UnpackedFloat)
open Float.Model.UnpackedFloat

namespace Packing

variable {spec : Format} {u v : UnpackedFloat}

def IsNumber : UnpackedFloat → Prop
  | .notANumber => False
  | _ => True

theorem isNumber_of_isFinite (h : u.isFinite = true) : IsNumber u := by
  cases u with
  | notANumber => cases h
  | _ => trivial

/-- The place of a number in the order: by sign, then by exponent, then by mantissa. The negative
numbers run backwards. -/
def rank : UnpackedFloat → ℤ ×ₗ ℤ ×ₗ ℤ
  | .infinity .positive => toLex (2, toLex (0, 0))
  | .finite .positive m e _ => toLex (1, toLex (e, m))
  | .finite .negative m e _ => toLex (-1, toLex (-e, -m))
  | .infinity .negative => toLex (-2, toLex (0, 0))
  | _ => toLex (0, toLex (0, 0))

theorem compare_natCast (a b : ℕ) : compare (a : ℤ) (b : ℤ) = compare a b := by
  rw [← cmp_eq_compare, ← cmp_eq_compare]
  exact Int.natCast_strictMono.cmp_map_eq a b

theorem compare_neg (a b : ℤ) : compare (-a) (-b) = compare b a := by
  have hAnti : StrictAnti fun c : ℤ => -c := fun _ _ h => neg_lt_neg h
  rw [← cmp_eq_compare, ← cmp_eq_compare]
  exact hAnti.cmp_map_eq a b

theorem compare_eq_some (hu : IsNumber u) (hv : IsNumber v) :
    u.compare v = some (compare (rank u) (rank v)) := by
  cases u with
  | notANumber => exact hu.elim
  | infinity s =>
    cases v with
    | notANumber => exact hv.elim
    | zero => cases s <;> rfl
    | infinity t | finite t => cases s <;> cases t <;> rfl
  | zero =>
    cases v with
    | notANumber => exact hv.elim
    | zero => rfl
    | infinity t | finite t => cases t <;> rfl
  | finite s m e =>
    cases v with
    | notANumber => exact hv.elim
    | zero => cases s <;> rfl
    | infinity t => cases s <;> cases t <;> rfl
    | finite t m' e' =>
      cases s with
      | negative =>
        cases t with
        | negative =>
          change some ((compare e e').then (compare m m')).swap =
            some ((compare (-e) (-e')).then (compare (-(m : ℤ)) (-(m' : ℤ))))
          rw [compare_neg, compare_neg, compare_natCast, Ordering.swap_then,
            ← Std.OrientedOrd.eq_swap, ← Std.OrientedOrd.eq_swap]
        | positive => rfl
      | positive =>
        cases t with
        | negative => rfl
        | positive =>
          change some ((compare e e').then (compare m m')) =
            some ((compare e e').then (compare (m : ℤ) (m' : ℤ)))
          rw [compare_natCast]

theorem compare_eq_none (h : ¬ (IsNumber u ∧ IsNumber v)) : u.compare v = none := by
  cases u with
  | notANumber => cases v <;> rfl
  | _ =>
    cases v with
    | notANumber => rfl
    | _ => exact absurd ⟨trivial, trivial⟩ h

theorem lt_iff_rank_lt : u.lt v = true ↔ (IsNumber u ∧ IsNumber v) ∧ rank u < rank v := by
  rw [UnpackedFloat.lt]
  by_cases h : IsNumber u ∧ IsNumber v
  · rw [compare_eq_some h.1 h.2, beq_iff_eq, Option.some.injEq, compare_lt_iff_lt, and_iff_right h]
  · rw [compare_eq_none h]
    exact iff_of_false (by decide) fun hLt => h hLt.1

theorem le_iff_rank_le : u.le v = true ↔ (IsNumber u ∧ IsNumber v) ∧ rank u ≤ rank v := by
  rw [UnpackedFloat.le]
  by_cases h : IsNumber u ∧ IsNumber v
  · rw [compare_eq_some h.1 h.2, Option.any_some, Ordering.isLE_iff_ne_gt, and_iff_right h]
    exact compare_le_iff_le
  · rw [compare_eq_none h]
    exact iff_of_false (by decide) fun hLe => h hLe.1

theorem isNumber_repack (hWidth : 2 ≤ spec.exponentBits) (h : IsNumber u) :
    IsNumber (repack spec u) := by
  cases u with
  | notANumber => exact h.elim
  | zero t =>
    rw [repack_zero]
    trivial
  | infinity t =>
    rw [repack_infinity]
    trivial
  | finite t m e hm =>
    have hPower : 2 ^ 2 ≤ 2 ^ spec.exponentBits := Nat.pow_le_pow_right two_pos hWidth
    rw [repack, pack]
    split_ifs with hOverflow
    · change IsNumber (repack spec (.infinity t))
      rw [repack_infinity]
      trivial
    · exact isNumber_of_isFinite (isFinite_packComponents _ _ (ofNat_ne_allOnes (by omega)))
    · exact isNumber_of_isFinite (isFinite_packComponents _ _ (ofNat_ne_allOnes (by omega)))

theorem isNumber_round (s : Sign) (m : ℕ) (e : ℤ) (a : Accuracy) :
    IsNumber (roundWithAccuracy spec s m e a) := by
  rw [roundWithAccuracy]
  simp only
  split_ifs <;> trivial

theorem isNumber_normalize (m e : ℤ) (s : Sign) :
    IsNumber (UnpackedFloat.normalize spec m e s) := by
  rw [UnpackedFloat.normalize]
  cases compare m 0 with
  | eq => trivial
  | _ => exact isNumber_round _ _ _ _

theorem isNumber_sub (hu : u.isFinite = true) (hv : v.isFinite = true) :
    IsNumber (sub spec u v) := by
  cases u with
  | infinity | notANumber => cases hu
  | zero t =>
    cases v with
    | infinity | notANumber => cases hv
    | finite => trivial
    | zero t' =>
      rw [sub]
      split_ifs <;> trivial
  | finite t m e hm =>
    cases v with
    | infinity | notANumber => cases hv
    | zero => trivial
    | finite => exact isNumber_normalize _ _ _

theorem isNumber_abs (h : IsNumber u) : IsNumber u.abs := by
  cases u with
  | notANumber => exact h
  | _ => trivial

end Packing

namespace BinaryArithmetic

open Packing

variable {S : Type} [Scalar S] [BinaryArithmetic S]

theorem le_self_of_isNumber {a : S} (h : IsNumber (value a)) : a ≤ a := by
  rw [le_iff, le_iff_rank_le]
  exact ⟨⟨h, h⟩, le_rfl⟩

theorem isNumber_of_le_self {a : S} (h : a ≤ a) : IsNumber (value a) := by
  rw [le_iff, le_iff_rank_le] at h
  exact h.1.1

theorem abs_le_self_of_isNumber {a : S} (h : IsNumber (value a)) :
    Scalar.abs a ≤ Scalar.abs a := by
  apply le_self_of_isNumber
  rw [value_abs]
  exact isNumber_repack two_le_exponentBits (isNumber_abs h)

/-- The numbers of a binary format are ordered. -/
theorem ordersNumbers (hTolerance : ¬ Scalar.sqrt Scalar.epsilon * Scalar.larger 0 1 < (0 : S)) :
    Scalar.OrdersNumbers S where
  lt_irrefl a := by
    rw [lt_iff, lt_iff_rank_lt]
    exact fun h => lt_irrefl _ h.2
  lt_of_lt_of_le {a b c} := by
    rw [lt_iff, le_iff, lt_iff, lt_iff_rank_lt, le_iff_rank_le, lt_iff_rank_lt]
    rintro ⟨⟨ha, -⟩, hLt⟩ ⟨⟨-, hc⟩, hLe⟩
    exact ⟨⟨ha, hc⟩, hLt.trans_le hLe⟩
  le_of_not_le {a b} ha hb := by
    have hNumbers := And.intro (isNumber_of_le_self ha) (isNumber_of_le_self hb)
    rw [le_iff, le_iff, le_iff_rank_le, le_iff_rank_le, and_iff_right hNumbers,
      and_iff_right hNumbers.symm]
    exact fun h => (not_le.mp h).le
  abs_le_self {a} h := by
    rw [isFinite_eq] at h
    exact abs_le_self_of_isNumber (isNumber_of_isFinite h)
  abs_sub_le_self {a b} ha hb := by
    rw [isFinite_eq] at ha hb
    apply abs_le_self_of_isNumber
    rw [value_sub]
    exact isNumber_repack two_le_exponentBits (isNumber_sub ha hb)
  sqrt_epsilon_not_neg := hTolerance

instance : Scalar.OrdersNumbers Float := ordersNumbers (by decide +kernel)

instance : Scalar.OrdersNumbers Float32 := ordersNumbers (by decide +kernel)

end BinaryArithmetic

/-! ## The running maximum -/

namespace Scalar

variable {S : Type} [Scalar S] [OrdersNumbers S]

open OrdersNumbers

theorem lt_foldl_iff {t top : S} (hTop : top ≤ top) {l : List S} (hl : ∀ y ∈ l, abs y ≤ abs y) :
    t < l.foldl (fun top y => if abs y ≤ top then top else abs y) top ↔
      t < top ∨ ∃ y ∈ l, t < abs y := by
  induction l generalizing top with
  | nil => simp
  | cons y l ih =>
    have hy : abs y ≤ abs y := hl y List.mem_cons_self
    have hRest : ∀ z ∈ l, abs z ≤ abs z := fun z hz => hl z (List.mem_cons_of_mem _ hz)
    simp only [List.foldl_cons, List.mem_cons, exists_eq_or_imp, ← or_assoc]
    split_ifs with h
    · rw [ih hTop hRest, or_iff_left_of_imp fun hLt : t < abs y => lt_of_lt_of_le hLt h]
    · rw [ih hy hRest, or_iff_right_of_imp fun hLt => lt_of_lt_of_le hLt (le_of_not_le hy hTop h)]

/-- The peak of numbers is above a threshold exactly when one of their absolute values is. -/
theorem lt_peak_iff {t : S} {l : List S} (hEmpty : l = [] → ¬ t < 0)
    (hl : ∀ y ∈ l, abs y ≤ abs y) :
    t < peak l ↔ ∃ y ∈ l, t < abs y := by
  cases l with
  | nil => simpa [peak] using hEmpty rfl
  | cons x l =>
    rw [peak, lt_foldl_iff (hl x List.mem_cons_self) fun y hy => hl y (List.mem_cons_of_mem _ hy)]
    simp only [List.mem_cons, exists_eq_or_imp]

end Scalar

end RecedingHorizon
