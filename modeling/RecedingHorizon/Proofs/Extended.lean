import Mathlib.Analysis.SpecialFunctions.Sqrt
import Mathlib.Data.Sign.Basic
import RecedingHorizon.Scalar

/-!
# Extended real numbers

The real numbers with two infinities and a not-a-number, under the rules of
IEEE 754 for special values. A finite result is exact: it is neither rounded nor
does it overflow. The definitions of the controller read over these numbers say what it
computes in exact arithmetic, infinite bounds included.

Computations that start from finite numbers stay finite as long as nothing is
divided by zero. The lemmas here move `finite` out of every operation, so that a
statement about a computation becomes one about real numbers.
-/

namespace RecedingHorizon

inductive Extended
  | finite (r : ℝ)
  | posInf
  | negInf
  | nan

/-- The machine epsilon of the format that the exact numbers stand for. -/
class Precision where
  epsilon : ℝ
  epsilon_pos : 0 < epsilon

@[reducible] noncomputable def Precision.double : Precision where
  epsilon := 2⁻¹ ^ 52
  epsilon_pos := by positivity

theorem Precision.sqrt_epsilon_double : Real.sqrt Precision.double.epsilon = 2⁻¹ ^ 26 := by
  change Real.sqrt (2⁻¹ ^ 52) = _
  rw [pow_mul _ 26 2, Real.sqrt_sq (by positivity)]

namespace Extended

/-! ## Operations -/

/-- The infinity of a sign; no number for the sign zero. -/
def unbounded : SignType → Extended
  | .pos => posInf
  | .neg => negInf
  | .zero => nan

/-- The sign of a number, zero for a not-a-number. -/
noncomputable def sign : Extended → SignType
  | finite r => SignType.sign r
  | posInf => 1
  | negInf => -1
  | nan => 0

noncomputable def add : Extended → Extended → Extended
  | finite a, finite b => finite (a + b)
  | finite _, y => y
  | x, finite _ => x
  | posInf, posInf => posInf
  | negInf, negInf => negInf
  | _, _ => nan

noncomputable def neg : Extended → Extended
  | finite a => finite (-a)
  | posInf => negInf
  | negInf => posInf
  | nan => nan

/-- An infinity times zero is no number, and so is every product with one. -/
noncomputable def mul : Extended → Extended → Extended
  | finite a, finite b => finite (a * b)
  | x, y => unbounded (sign x * sign y)

open Classical in
/-- A finite number over an infinity is zero, over zero it is the infinity of
its sign. -/
noncomputable def div : Extended → Extended → Extended
  | finite a, finite b => if b = 0 then unbounded (SignType.sign a) else finite (a / b)
  | finite _, posInf => finite 0
  | finite _, negInf => finite 0
  | x, finite b => unbounded (sign x * if b < 0 then -1 else 1)
  | _, _ => nan

noncomputable def abs : Extended → Extended
  | finite a => finite |a|
  | nan => nan
  | _ => posInf

open Classical in
noncomputable def sqrt : Extended → Extended
  | finite a => if a < 0 then nan else finite (Real.sqrt a)
  | posInf => posInf
  | _ => nan

def isFinite : Extended → Bool
  | finite _ => true
  | _ => false

/-- The order of the extended reals. A not-a-number compares with nothing. -/
def le : Extended → Extended → Prop
  | finite a, finite b => a ≤ b
  | negInf, nan => False
  | negInf, _ => True
  | nan, posInf => False
  | _, posInf => True
  | _, _ => False

def lt : Extended → Extended → Prop
  | finite a, finite b => a < b
  | negInf, finite _ => True
  | negInf, posInf => True
  | finite _, posInf => True
  | _, _ => False

instance : LE Extended := ⟨le⟩

instance : LT Extended := ⟨lt⟩

open Classical in
noncomputable instance [Precision] : Scalar Extended where
  zero := finite 0
  one := finite 1
  add := add
  sub x y := add x (neg y)
  mul := mul
  div := div
  neg := neg
  decideLE _ _ := propDecidable _
  decideLT _ _ := propDecidable _
  abs := abs
  sqrt := sqrt
  isFinite := isFinite
  epsilon := finite Precision.epsilon
  infinity := posInf

/-! ## Finite numbers -/

section Finite

@[simp] theorem finite_le {a b : ℝ} : finite a ≤ finite b ↔ a ≤ b := Iff.rfl

@[simp] theorem finite_lt {a b : ℝ} : finite a < finite b ↔ a < b := Iff.rfl

variable [Precision]

@[simp] theorem zero_eq : (0 : Extended) = finite 0 := rfl

@[simp] theorem one_eq : (1 : Extended) = finite 1 := rfl

@[simp] theorem finite_add (a b : ℝ) : finite a + finite b = finite (a + b) := rfl

@[simp] theorem finite_sub (a b : ℝ) : finite a - finite b = finite (a - b) := by
  change finite (a + -b) = _
  rw [sub_eq_add_neg]

@[simp] theorem finite_mul (a b : ℝ) : finite a * finite b = finite (a * b) := rfl

@[simp] theorem finite_neg (a : ℝ) : -finite a = finite (-a) := rfl

theorem finite_div {a b : ℝ} (hb : b ≠ 0) : finite a / finite b = finite (a / b) := by
  change (if b = 0 then _ else _) = _
  rw [if_neg hb]

@[simp] theorem abs_finite (a : ℝ) : Scalar.abs (finite a) = finite |a| := rfl

theorem sqrt_finite {a : ℝ} (ha : 0 ≤ a) : Scalar.sqrt (finite a) = finite (Real.sqrt a) := by
  change (if a < 0 then _ else _) = _
  rw [if_neg (not_lt.mpr ha)]

@[simp] theorem isFinite_finite (a : ℝ) : Scalar.isFinite (finite a) = true := rfl

theorem isFinite_iff {x : Extended} : Scalar.isFinite x = true ↔ ∃ a, x = finite a := by
  constructor
  · intro h
    cases x with
    | finite a => exact ⟨a, rfl⟩
    | _ => cases h
  · rintro ⟨a, rfl⟩
    rfl

theorem two_eq : (Scalar.two : Extended) = finite 2 := by
  simp only [Scalar.two, one_eq, finite_add]
  norm_num

theorem half_eq : (Scalar.half : Extended) = finite 0.5 := by
  simp only [Scalar.half, one_eq, two_eq, finite_div two_ne_zero]
  norm_num

theorem sum_finite {n : ℕ} (f : Fin n → ℝ) :
    Scalar.sum (fun i => finite (f i)) = finite (∑ i, f i) := by
  unfold Scalar.sum
  induction n with
  | zero => simp
  | succ n ih => rw [Fin.foldl_succ_last, ih, finite_add, Fin.sum_univ_castSucc]

/-- The running maximum starts from one of the numbers, ends at one of them and
is never below the numbers that it has seen. -/
theorem foldl_larger_finite (l : List ℝ) (top : ℝ) :
    ∃ r, (l.map finite).foldl
        (fun top y => if Scalar.abs y ≤ top then top else Scalar.abs y) (finite top) = finite r ∧
      top ≤ r ∧ (∀ y ∈ l, |y| ≤ r) ∧ (r = top ∨ ∃ y ∈ l, r = |y|) := by
  induction l generalizing top with
  | nil => exact ⟨top, rfl, le_rfl, by simp, Or.inl rfl⟩
  | cons y l ih =>
    rw [List.map_cons, List.foldl_cons, abs_finite]
    by_cases h : |y| ≤ top
    · rw [if_pos (finite_le.mpr h)]
      obtain ⟨r, hr, hTop, hAll, hSome⟩ := ih top
      refine ⟨r, hr, hTop, ?_, ?_⟩
      · intro x hx
        rcases List.mem_cons.mp hx with rfl | hx
        · exact h.trans hTop
        · exact hAll x hx
      · rcases hSome with he | ⟨x, hx, he⟩
        · exact Or.inl he
        · exact Or.inr ⟨x, List.mem_cons_of_mem _ hx, he⟩
    · rw [if_neg (fun hc => h (finite_le.mp hc))]
      obtain ⟨r, hr, hTop, hAll, hSome⟩ := ih |y|
      refine ⟨r, hr, (not_le.mp h).le.trans hTop, ?_, ?_⟩
      · intro x hx
        rcases List.mem_cons.mp hx with rfl | hx
        · exact hTop
        · exact hAll x hx
      · rcases hSome with he | ⟨x, hx, he⟩
        · exact Or.inr ⟨y, List.mem_cons_self, he⟩
        · exact Or.inr ⟨x, List.mem_cons_of_mem _ hx, he⟩

/-- The peak of finite numbers is their largest absolute value. -/
theorem peak_finite {l : List ℝ} {r : ℝ} (hAll : ∀ y ∈ l, |y| ≤ r)
    (hLeast : ∀ b, 0 ≤ b → (∀ y ∈ l, |y| ≤ b) → r ≤ b) (hr : 0 ≤ r) :
    Scalar.peak (l.map finite) = finite r := by
  cases l with
  | nil =>
    have hZero : r = 0 := le_antisymm (hLeast 0 le_rfl (by simp)) hr
    rw [hZero]
    rfl
  | cons x l =>
    obtain ⟨t, ht, hTop, hRest, hSome⟩ := foldl_larger_finite l |x|
    have hPeak : Scalar.peak ((x :: l).map finite) = finite t := ht
    have hUpper : ∀ y ∈ x :: l, |y| ≤ t := by
      intro y hy
      rcases List.mem_cons.mp hy with rfl | hy
      · exact hTop
      · exact hRest y hy
    have hLower : t ≤ r := by
      rcases hSome with he | ⟨y, hy, he⟩
      · exact he ▸ hAll x List.mem_cons_self
      · exact he ▸ hAll y (List.mem_cons_of_mem _ hy)
    rw [hPeak, le_antisymm hLower (hLeast t ((abs_nonneg x).trans hTop) hUpper)]

theorem larger_finite (a b : ℝ) : Scalar.larger (finite a) (finite b) = finite (max a b) := by
  unfold Scalar.larger
  split
  · rename_i h
    rw [max_eq_left (finite_le.mp h)]
  · rename_i h
    rw [max_eq_right (not_le.mp fun hLe => h (finite_le.mpr hLe)).le]

end Finite

theorem unbounded_add_finite [Precision] (s : SignType) (a : ℝ) :
    unbounded s + finite a = unbounded s := by
  cases s <;> rfl

theorem finite_add_unbounded [Precision] (a : ℝ) (s : SignType) :
    finite a + unbounded s = unbounded s := by
  cases s <;> rfl

end Extended

end RecedingHorizon
