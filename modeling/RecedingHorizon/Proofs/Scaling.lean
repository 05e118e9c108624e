import RecedingHorizon.Proofs.CholeskyFactor
import RecedingHorizon.Proofs.Finiteness

/-!
# Scaling

A number that is not finite keeps its sign alone, and signs multiply. So products of extended
numbers commute and associate, a real factor distributes over sums, and a positive one cancels
from quotients and comparisons, without a condition on the other numbers.

Vectors and matrix products follow, and triangular solves: coefficients times `r` and a right side
times `r e` make the unknowns times `e` (`Triangular.solve_scale`). A positive multiple `e M` of a
real matrix has `√e` times the factor of `M` (`Mat.cholesky_smul`).
-/

namespace RecedingHorizon

open Extended Matrix

/-! ## Numbers -/

namespace Extended

theorem sign_unbounded (s : SignType) : sign (unbounded s) = s := by
  cases s <;> rfl

theorem finite_or_unbounded (x : Extended) : (∃ a, x = finite a) ∨ ∃ s, x = unbounded s := by
  cases x with
  | finite a => exact .inl ⟨a, rfl⟩
  | posInf => exact .inr ⟨1, rfl⟩
  | negInf => exact .inr ⟨-1, rfl⟩
  | nan => exact .inr ⟨0, rfl⟩

variable [Precision] {x y : Extended} {c e r : ℝ}

/-! ### Products -/

theorem finite_mul_unbounded (c : ℝ) (s : SignType) :
    finite c * unbounded s = unbounded (SignType.sign c * s) := by
  cases s <;> rfl

theorem pos_mul_unbounded (hr : 0 < r) (s : SignType) : finite r * unbounded s = unbounded s := by
  rw [finite_mul_unbounded, sign_pos hr, one_mul]

theorem unbounded_mul (s : SignType) (x : Extended) :
    unbounded s * x = unbounded (s * sign x) := by
  cases s <;> cases x <;> rfl

protected theorem sign_mul (x y : Extended) : sign (x * y) = sign x * sign y := by
  obtain ⟨a, rfl⟩ | ⟨s, rfl⟩ := finite_or_unbounded x
  · obtain ⟨b, rfl⟩ | ⟨t, rfl⟩ := finite_or_unbounded y
    · exact sign_mul a b
    · rw [finite_mul_unbounded, sign_unbounded, sign_unbounded, sign]
  · rw [unbounded_mul, sign_unbounded, sign_unbounded]

protected theorem mul_comm (x y : Extended) : x * y = y * x := by
  obtain ⟨a, rfl⟩ | ⟨s, rfl⟩ := finite_or_unbounded x
  · obtain ⟨b, rfl⟩ | ⟨t, rfl⟩ := finite_or_unbounded y
    · rw [finite_mul, finite_mul, mul_comm]
    · rw [finite_mul_unbounded, unbounded_mul, mul_comm, sign]
  · obtain ⟨b, rfl⟩ | ⟨t, rfl⟩ := finite_or_unbounded y
    · rw [finite_mul_unbounded, unbounded_mul, mul_comm, sign]
    · rw [unbounded_mul, unbounded_mul, sign_unbounded, sign_unbounded, mul_comm]

protected theorem mul_assoc (x y z : Extended) : x * y * z = x * (y * z) := by
  obtain ⟨s, rfl⟩ | ⟨a, rfl⟩ := (finite_or_unbounded x).symm
  · rw [unbounded_mul, unbounded_mul, unbounded_mul, Extended.sign_mul, mul_assoc]
  obtain ⟨s, rfl⟩ | ⟨b, rfl⟩ := (finite_or_unbounded y).symm
  · rw [finite_mul_unbounded, unbounded_mul, unbounded_mul, finite_mul_unbounded, mul_assoc]
  obtain ⟨s, rfl⟩ | ⟨c, rfl⟩ := (finite_or_unbounded z).symm
  · rw [finite_mul, finite_mul_unbounded, finite_mul_unbounded, finite_mul_unbounded, sign_mul,
      mul_assoc]
  · simp only [finite_mul, mul_assoc]

theorem one_mul_eq (x : Extended) : finite 1 * x = x := by
  obtain ⟨a, rfl⟩ | ⟨s, rfl⟩ := finite_or_unbounded x
  · rw [finite_mul, one_mul]
  · rw [finite_mul_unbounded, sign_one, one_mul]

theorem finite_mul_finite_mul (c e : ℝ) (x : Extended) :
    finite c * (finite e * x) = finite (c * e) * x := by
  rw [← Extended.mul_assoc, finite_mul]

theorem finite_mul_mul_finite_mul (c e : ℝ) (x y : Extended) :
    finite c * x * (finite e * y) = finite (c * e) * (x * y) := by
  rw [Extended.mul_assoc, ← Extended.mul_assoc x, Extended.mul_comm x, Extended.mul_assoc,
    finite_mul_finite_mul]

theorem mul_finite_mul (c : ℝ) (x y : Extended) : x * (finite c * y) = finite c * (x * y) := by
  rw [← Extended.mul_assoc, Extended.mul_comm x, Extended.mul_assoc]

/-! ### Sums -/

theorem unbounded_add_unbounded (s t : SignType) :
    unbounded s + unbounded t = unbounded (if s = t then s else 0) := by
  cases s <;> cases t <;> rfl

theorem finite_mul_add (c : ℝ) (x y : Extended) :
    finite c * (x + y) = finite c * x + finite c * y := by
  have hSigns : ∀ s t u : SignType,
      s * (if t = u then t else 0) = if s * t = s * u then s * t else 0 := by decide
  obtain ⟨a, rfl⟩ | ⟨s, rfl⟩ := finite_or_unbounded x
  · obtain ⟨b, rfl⟩ | ⟨t, rfl⟩ := finite_or_unbounded y
    · simp only [finite_add, finite_mul, mul_add]
    · rw [finite_add_unbounded, finite_mul, finite_mul_unbounded, finite_add_unbounded]
  · obtain ⟨b, rfl⟩ | ⟨t, rfl⟩ := finite_or_unbounded y
    · rw [unbounded_add_finite, finite_mul, finite_mul_unbounded, unbounded_add_finite]
    · rw [unbounded_add_unbounded, finite_mul_unbounded, finite_mul_unbounded,
        finite_mul_unbounded, unbounded_add_unbounded, hSigns]

theorem neg_eq_finite_mul (x : Extended) : -x = finite (-1) * x := by
  obtain ⟨a, rfl⟩ | ⟨s, rfl⟩ := finite_or_unbounded x
  · rw [finite_neg, finite_mul, neg_one_mul]
  · rw [finite_mul_unbounded, sign_neg neg_one_lt_zero]
    cases s <;> rfl

theorem finite_mul_neg (c : ℝ) (x : Extended) : finite c * -x = -(finite c * x) := by
  rw [neg_eq_finite_mul, neg_eq_finite_mul, mul_finite_mul]

theorem finite_mul_sub (c : ℝ) (x y : Extended) :
    finite c * (x - y) = finite c * x - finite c * y := by
  change finite c * (x + -y) = finite c * x + -(finite c * y)
  rw [finite_mul_add, finite_mul_neg]

theorem finite_mul_sum (c : ℝ) {n : ℕ} (f : Fin n → Extended) :
    Scalar.sum (fun i => finite c * f i) = finite c * Scalar.sum f := by
  unfold Scalar.sum
  induction n with
  | zero => exact (congrArg finite (mul_zero c)).symm
  | succ n ih => rw [Fin.foldl_succ_last, Fin.foldl_succ_last, ih, finite_mul_add]

/-! ### Quotients and comparisons -/

theorem finite_div_zero (a : ℝ) : finite a / finite 0 = unbounded (SignType.sign a) := if_pos rfl

theorem unbounded_div_finite (s : SignType) (b : ℝ) :
    unbounded s / finite b = unbounded (s * if b < 0 then -1 else 1) := by
  cases s <;> rfl

theorem finite_div_unbounded (a : ℝ) (s : SignType) :
    finite a / unbounded s = if s = 0 then nan else finite 0 := by
  cases s <;> rfl

theorem unbounded_div_unbounded (s t : SignType) : unbounded s / unbounded t = nan := by
  cases s <;> cases t <;> rfl

theorem finite_mul_div (c : ℝ) (x y : Extended) : finite c * x / y = finite c * (x / y) := by
  obtain ⟨a, rfl⟩ | ⟨s, rfl⟩ := finite_or_unbounded x
  · obtain ⟨b, rfl⟩ | ⟨t, rfl⟩ := finite_or_unbounded y
    · rcases eq_or_ne b 0 with rfl | hb
      · rw [finite_mul, finite_div_zero, finite_div_zero, finite_mul_unbounded, sign_mul]
      · rw [finite_mul, finite_div hb, finite_div hb, finite_mul, mul_div_assoc]
    · rw [finite_mul, finite_div_unbounded, finite_div_unbounded]
      split_ifs
      · exact (congrArg unbounded (mul_zero _)).symm
      · rw [finite_mul, mul_zero]
  · obtain ⟨b, rfl⟩ | ⟨t, rfl⟩ := finite_or_unbounded y
    · rw [finite_mul_unbounded, unbounded_div_finite, unbounded_div_finite, finite_mul_unbounded,
        mul_assoc]
    · rw [finite_mul_unbounded, unbounded_div_unbounded, unbounded_div_unbounded]
      exact (congrArg unbounded (mul_zero _)).symm

theorem finite_mul_div_finite_mul (hr : 0 < r) (x y : Extended) :
    finite r * x / (finite r * y) = x / y := by
  obtain ⟨a, rfl⟩ | ⟨s, rfl⟩ := finite_or_unbounded x
  · obtain ⟨b, rfl⟩ | ⟨t, rfl⟩ := finite_or_unbounded y
    · rcases eq_or_ne b 0 with rfl | hb
      · rw [finite_mul, finite_mul, mul_zero, finite_div_zero, finite_div_zero, sign_mul,
          sign_pos hr, one_mul]
      · rw [finite_mul, finite_mul, finite_div hb, finite_div (mul_ne_zero hr.ne' hb),
          mul_div_mul_left _ _ hr.ne']
    · rw [pos_mul_unbounded hr, finite_mul]
      cases t <;> rfl
  · obtain ⟨b, rfl⟩ | ⟨t, rfl⟩ := finite_or_unbounded y
    · rw [pos_mul_unbounded hr, finite_mul, unbounded_div_finite, unbounded_div_finite]
      simp only [mul_neg_iff, hr, hr.not_gt, true_and, false_and, or_false]
    · rw [pos_mul_unbounded hr, pos_mul_unbounded hr]

theorem finite_mul_le_iff (hr : 0 < r) : finite r * x ≤ finite r * y ↔ x ≤ y := by
  obtain ⟨a, rfl⟩ | ⟨s, rfl⟩ := finite_or_unbounded x
  · obtain ⟨b, rfl⟩ | ⟨t, rfl⟩ := finite_or_unbounded y
    · rw [finite_mul, finite_mul, finite_le, finite_le, mul_le_mul_iff_right₀ hr]
    · rw [pos_mul_unbounded hr, finite_mul]
      cases t <;> exact Iff.rfl
  · obtain ⟨b, rfl⟩ | ⟨t, rfl⟩ := finite_or_unbounded y
    · rw [pos_mul_unbounded hr, finite_mul]
      cases s <;> exact Iff.rfl
    · rw [pos_mul_unbounded hr, pos_mul_unbounded hr]

theorem finite_mul_lt_iff (hr : 0 < r) : finite r * x < finite r * y ↔ x < y := by
  obtain ⟨a, rfl⟩ | ⟨s, rfl⟩ := finite_or_unbounded x
  · obtain ⟨b, rfl⟩ | ⟨t, rfl⟩ := finite_or_unbounded y
    · rw [finite_mul, finite_mul, finite_lt, finite_lt, mul_lt_mul_iff_right₀ hr]
    · rw [pos_mul_unbounded hr, finite_mul]
      cases t <;> exact Iff.rfl
  · obtain ⟨b, rfl⟩ | ⟨t, rfl⟩ := finite_or_unbounded y
    · rw [pos_mul_unbounded hr, finite_mul]
      cases s <;> exact Iff.rfl
    · rw [pos_mul_unbounded hr, pos_mul_unbounded hr]

end Extended

/-! ## Vectors and products -/

namespace Vec

variable [Precision] {n : ℕ}

/-- Each entry times a real number. -/
noncomputable def scale (v : Vec Extended n) (c : ℝ) : Vec Extended n := v.map (finite c * ·)

@[simp] theorem get_scale (v : Vec Extended n) (c : ℝ) (i : Fin n) :
    (v.scale c).get i = finite c * v.get i :=
  Vector.getElem_map _ i.isLt

theorem scale_ofReal (v : Fin n → ℝ) (c : ℝ) : (ofReal v).scale c = ofReal (c • v) :=
  Vec.ext fun i => by
    rw [get_scale, get_ofReal, get_ofReal, finite_mul]
    rfl

theorem scale_one (v : Vec Extended n) : v.scale 1 = v :=
  Vec.ext fun i => by rw [get_scale, one_mul_eq]

theorem scale_sub (u v : Vec Extended n) (c : ℝ) :
    (u.scale c).sub (v.scale c) = (u.sub v).scale c :=
  Vec.ext fun i => by simp only [get_sub, get_scale, finite_mul_sub]

theorem isFinite_scale (v : Vec Extended n) (c : ℝ) : (v.scale c).isFinite = v.isFinite := by
  rw [Bool.eq_iff_iff, isFinite_iff, isFinite_iff]
  simp only [get_scale, isFinite_finite_mul]

end Vec

namespace Mat

variable [Precision] {m n : ℕ}

theorem scale_mulVec (M : Mat Extended m n) (c : ℝ) (v : Vec Extended n) :
    (M.scale (finite c)).mulVec v = (M.mulVec v).scale c := by
  apply Vec.ext
  intro i
  simp only [get_mulVec, entry_scale, Vec.get_scale, Extended.mul_comm _ (finite c),
    Extended.mul_assoc, finite_mul_sum]

theorem mulVec_scale (M : Mat Extended m n) (v : Vec Extended n) (c : ℝ) :
    M.mulVec (v.scale c) = (M.mulVec v).scale c := by
  apply Vec.ext
  intro i
  simp only [get_mulVec, Vec.get_scale, mul_finite_mul, finite_mul_sum]

theorem transposeMulVec_scale (M : Mat Extended m n) (v : Vec Extended m) (c : ℝ) :
    M.transposeMulVec (v.scale c) = (M.transposeMulVec v).scale c := by
  apply Vec.ext
  intro j
  simp only [get_transposeMulVec, Vec.get_scale, mul_finite_mul, finite_mul_sum]

end Mat

/-! ## Triangular systems -/

namespace Triangular

variable [Precision] {n : ℕ} {r : ℝ}

theorem foldl_sub_scale {k : ℕ} (c : ℝ) (f : Fin k → Extended) (b : Extended) :
    Fin.foldl k (fun rest j => rest - finite c * f j) (finite c * b) =
      finite c * Fin.foldl k (fun rest j => rest - f j) b := by
  induction k with
  | zero => rfl
  | succ k ih => rw [Fin.foldl_succ_last, Fin.foldl_succ_last, ih, finite_mul_sub]

/-- The products with the known unknowns and the right side carry the same factor `r e`, of which
the division by the pivot takes `r` away. -/
theorem unknowns_scale (hr : 0 < r) (e : ℝ) {a a' : Fin n → Fin n → Extended}
    {b b' : Fin n → Extended} (ha : ∀ i j, a' i j = finite r * a i j)
    (hb : ∀ i, b' i = finite (r * e) * b i) (k : ℕ) (hk : k ≤ n) :
    unknowns a' b' k hk = Vec.scale (unknowns a b k hk) e := by
  induction k with
  | zero => exact Vec.ext fun i => i.elim0
  | succ k ih =>
    rw [unknowns, ih, unknowns]
    simp only [ha, hb, Vec.get_scale, finite_mul_mul_finite_mul]
    rw [foldl_sub_scale, ← finite_mul_finite_mul, finite_mul_div_finite_mul hr, finite_mul_div]
    exact Vector.map_push.symm

theorem solve_scale (hr : 0 < r) (e : ℝ) {a a' : Fin n → Fin n → Extended}
    {b b' : Fin n → Extended} (ha : ∀ i j, a' i j = finite r * a i j)
    (hb : ∀ i, b' i = finite (r * e) * b i) : solve a' b' = (solve a b).scale e :=
  unknowns_scale hr e ha hb n le_rfl

theorem forward_scale (hr : 0 < r) (e : ℝ) (L : Mat Extended n n) (b : Vec Extended n) :
    forward (L.scale (finite r)) (b.scale (r * e)) = (forward L b).scale e := by
  refine solve_scale hr e (fun i j => ?_) fun i => Vec.get_scale b _ i
  rw [Mat.entry_scale, Extended.mul_comm]

theorem backward_scale (hr : 0 < r) (e : ℝ) (L : Mat Extended n n) (b : Vec Extended n) :
    backward (L.scale (finite r)) (b.scale (r * e)) = (backward L b).scale e := by
  have hSolve : solve (fun i j => (L.scale (finite r)).entry j.rev i.rev)
      (fun i => (b.scale (r * e)).get i.rev) =
        (solve (fun i j => L.entry j.rev i.rev) fun i => b.get i.rev).scale e := by
    refine solve_scale hr e (fun i j => ?_) fun i => Vec.get_scale b _ i.rev
    rw [Mat.entry_scale, Extended.mul_comm]
  apply Vec.ext
  intro i
  rw [backward, hSolve, backward]
  simp only [Vec.get_ofFn, Vec.get_scale]

end Triangular

namespace Mat

variable [Precision] {n : ℕ} {e r : ℝ}

theorem choleskySolve_scale (hr : 0 < r) (e : ℝ) (L : Mat Extended n n) (b : Vec Extended n) :
    (L.scale (finite r)).choleskySolve (b.scale (r * (r * e))) = (L.choleskySolve b).scale e := by
  rw [choleskySolve, Triangular.forward_scale hr, Triangular.backward_scale hr, choleskySolve]

/-! ## Factors -/

omit [Precision] in
theorem realColumn_smul (he : 0 < e) (M : Matrix (Fin (n + 1)) (Fin (n + 1)) ℝ) :
    realColumn (e • M) = Real.sqrt e • realColumn M := by
  have hRoot : Real.sqrt e ≠ 0 := (Real.sqrt_pos.mpr he).ne'
  funext i
  calc
    e * M i.succ 0 / Real.sqrt (e * M 0 0)
        = Real.sqrt e * (Real.sqrt e * M i.succ 0) / (Real.sqrt e * Real.sqrt (M 0 0)) := by
          rw [← mul_assoc, Real.mul_self_sqrt he.le, Real.sqrt_mul he.le]
    _ = Real.sqrt e * (M i.succ 0 / Real.sqrt (M 0 0)) := by
          rw [mul_div_mul_left _ _ hRoot, mul_div_assoc]

omit [Precision] in
theorem realRemainder_smul (he : 0 < e) (M : Matrix (Fin (n + 1)) (Fin (n + 1)) ℝ) :
    realRemainder (e • M) = e • realRemainder M := by
  ext i j
  simp only [realRemainder, realColumn_smul he, of_apply, Matrix.smul_apply, Pi.smul_apply,
    smul_eq_mul]
  rw [mul_mul_mul_comm, Real.mul_self_sqrt he.le, mul_sub]

theorem bordered_scale (corner : Extended) (column : Vec Extended n) (rest : Mat Extended n n)
    (c : ℝ) :
    (bordered corner column rest).scale (finite c) =
      bordered (corner * finite c) (column.scale c) (rest.scale (finite c)) := by
  apply Mat.ext
  intro i j
  rw [entry_scale, bordered, bordered, entry_ofFn, entry_ofFn]
  cases i using Fin.cases with
  | zero =>
    cases j using Fin.cases with
    | zero => rfl
    | succ j => exact congrArg finite (zero_mul c)
  | succ i =>
    cases j using Fin.cases with
    | zero => exact (Extended.mul_comm _ _).trans (Vec.get_scale column c i).symm
    | succ j => exact (entry_scale rest (finite c) i j).symm

/-- A positive multiple of a matrix has the root of the number times the factor. -/
theorem cholesky_smul (he : 0 < e) (M : Matrix (Fin n) (Fin n) ℝ) :
    (ofReal (e • M)).cholesky = (ofReal M).cholesky.map (·.scale (finite (Real.sqrt e))) := by
  induction n with
  | zero => exact congrArg some (Mat.ext fun i => i.elim0)
  | succ n ih =>
    rw [cholesky, cholesky, entry_ofReal, entry_ofReal, zero_eq]
    by_cases hPivot : 0 < M 0 0
    · have hPivot' : 0 < (e • M) 0 0 := mul_pos he hPivot
      have hRoot : finite (Real.sqrt ((e • M) 0 0)) =
          finite (Real.sqrt (M 0 0)) * finite (Real.sqrt e) := by
        rw [finite_mul, mul_comm]
        exact congrArg finite (Real.sqrt_mul he.le _)
      rw [if_pos (finite_lt.mpr hPivot), if_pos (finite_lt.mpr hPivot'), remainder_ofReal hPivot,
        remainder_ofReal hPivot', factorColumn_ofReal hPivot, factorColumn_ofReal hPivot',
        realRemainder_smul he, realColumn_smul he, ← Vec.scale_ofReal, ih, sqrt_finite hPivot.le,
        sqrt_finite hPivot'.le, hRoot, Option.map_map, Option.map_map]
      congr 1
      funext K
      exact (bordered_scale _ _ K _).symm
    · have hPivot' : ¬ 0 < (e • M) 0 0 := fun h => hPivot (pos_of_mul_pos_right h he.le)
      rw [if_neg (fun h => hPivot (finite_lt.mp h)), if_neg (fun h => hPivot' (finite_lt.mp h))]
      rfl

theorem hasSoundDiagonal_scale (hr : 0 < r) (L : Mat Extended n n) :
    (L.scale (finite r)).hasSoundDiagonal = L.hasSoundDiagonal := by
  have hZero : ∀ x : Extended, x * finite r ≤ 0 ↔ x ≤ 0 := by
    intro x
    rw [Extended.mul_comm, ← finite_mul_le_iff hr (x := x), zero_eq, finite_mul, mul_zero]
  simp only [hasSoundDiagonal, entry_scale, isFinite_mul, isFinite_finite, Bool.and_true, hZero]

end Mat

end RecedingHorizon
