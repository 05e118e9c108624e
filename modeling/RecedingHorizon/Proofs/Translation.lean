import RecedingHorizon.Proofs.Problem

/-!
# Translation

A vector of extended numbers can be moved by a real one, infinite entries and all. Sums, products
with real matrices and clamps follow the move, and so do triangular solves with the factor of a
real matrix: a right side moved by `M c` moves the solution by `c`
(`IsCholeskyFactor.choleskySolve_translate`).

So a solve follows every translation of its variables. With the linear cost moved by `-P c` and
the bounds by `A c` all iterates move by `c` and `A c`, while multipliers, residuals and status
stay (`Solver.IsFactored.solveWith_translate`, `solve_translation_equivariant`). Nothing is asked
of the bounds for this.
-/

namespace RecedingHorizon

open Extended Matrix

/-! ## Numbers -/

namespace Extended

variable [Precision] {x y lo hi : Extended} {a b r : ℝ}

theorem add_finite_zero (x : Extended) : x + finite 0 = x := by
  cases x with
  | finite r => rw [finite_add, add_zero]
  | _ => rfl

theorem add_finite_add_finite (x : Extended) (a b : ℝ) :
    x + finite a + finite b = x + finite (a + b) := by
  cases x with
  | finite r => rw [finite_add, finite_add, finite_add, add_assoc]
  | _ => rfl

theorem translate_add (x y : Extended) (a b : ℝ) :
    x + finite a + (y + finite b) = x + y + finite (a + b) := by
  cases x with
  | finite r =>
    cases y with
    | finite s => simp only [finite_add, add_add_add_comm]
    | _ => rfl
  | _ => cases y <;> rfl

theorem translate_neg (y : Extended) (b : ℝ) : -(y + finite b) = -y + finite (-b) := by
  cases y with
  | finite s => simp only [finite_add, finite_neg, neg_add]
  | _ => rfl

theorem translate_sub (x y : Extended) (a b : ℝ) :
    x + finite a - (y + finite b) = x - y + finite (a - b) := by
  change x + finite a + -(y + finite b) = x + -y + finite (a - b)
  rw [translate_neg, translate_add, sub_eq_add_neg]

theorem add_finite_add (x y : Extended) (a : ℝ) : x + finite a + y = x + y + finite a := by
  have h := translate_add x y a 0
  rwa [add_finite_zero, add_zero] at h

theorem add_finite_sub (x y : Extended) (a : ℝ) : x + finite a - y = x - y + finite a := by
  have h := translate_sub x y a 0
  rwa [add_finite_zero, sub_zero] at h

theorem add_finite_sub_add_finite (x y : Extended) (a : ℝ) :
    x + finite a - (y + finite a) = x - y := by
  rw [translate_sub, sub_self, add_finite_zero]

theorem finite_mul_translate (r : ℝ) (x : Extended) (a : ℝ) :
    finite r * (x + finite a) = finite r * x + finite (r * a) := by
  cases x with
  | finite s => simp only [finite_add, finite_mul, mul_add]
  | _ => exact (unbounded_add_finite _ _).symm

theorem translate_div (x : Extended) (a : ℝ) (hb : b ≠ 0) :
    (x + finite a) / finite b = x / finite b + finite (a / b) := by
  cases x with
  | finite s => rw [finite_add, finite_div hb, finite_div hb, finite_add, add_div]
  | nan => exact (unbounded_add_finite 0 _).symm
  | _ => exact (unbounded_add_finite _ _).symm

theorem translate_le_iff : x + finite a ≤ y + finite a ↔ x ≤ y := by
  cases x with
  | finite r =>
    cases y with
    | finite s => rw [finite_add, finite_add, finite_le, finite_le, add_le_add_iff_right]
    | _ => exact Iff.rfl
  | _ => cases y <;> exact Iff.rfl

theorem translate_lt_iff : x + finite a < y + finite a ↔ x < y := by
  cases x with
  | finite r =>
    cases y with
    | finite s => rw [finite_add, finite_add, finite_lt, finite_lt, add_lt_add_iff_right]
    | _ => exact Iff.rfl
  | _ => cases y <;> exact Iff.rfl

theorem clamp_translate :
    Scalar.clamp (lo + finite a) (hi + finite a) (x + finite a) =
      Scalar.clamp lo hi x + finite a := by
  simp only [Scalar.clamp, translate_lt_iff]
  split_ifs <;> rfl

theorem isFinite_translate (x : Extended) (a : ℝ) :
    Scalar.isFinite (x + finite a) = Scalar.isFinite x := by
  cases x <;> rfl

theorem sum_translate {n : ℕ} (f : Fin n → Extended) (g : Fin n → ℝ) :
    Scalar.sum (fun i => f i + finite (g i)) = Scalar.sum f + finite (∑ i, g i) := by
  unfold Scalar.sum
  induction n with
  | zero => exact (add_finite_zero 0).symm
  | succ n ih =>
    rw [Fin.foldl_succ_last, Fin.foldl_succ_last, ih, translate_add, Fin.sum_univ_castSucc]

end Extended

/-! ## Vectors and products -/

namespace Vec

variable [Precision] {n m N b : ℕ}

/-- A vector moved by a real one. -/
noncomputable def translate (v : Vec Extended n) (c : Fin n → ℝ) : Vec Extended n := v.add (ofReal c)

@[simp] theorem get_translate (v : Vec Extended n) (c : Fin n → ℝ) (i : Fin n) :
    (v.translate c).get i = v.get i + finite (c i) := by
  rw [translate, get_add, get_ofReal]

theorem translate_neg (v : Vec Extended n) (c : Fin n → ℝ) :
    v.translate (-c) = v.sub (ofReal c) :=
  Vec.ext fun i => by rw [get_translate, get_sub, get_ofReal]; rfl

theorem translate_translate (v : Vec Extended n) (c d : Fin n → ℝ) :
    (v.translate c).translate d = v.translate (c + d) :=
  Vec.ext fun i => by simp only [get_translate, add_finite_add_finite, Pi.add_apply]

theorem translate_zero (v : Vec Extended n) : v.translate 0 = v :=
  Vec.ext fun i => by rw [get_translate, Pi.zero_apply, add_finite_zero]

theorem sub_translate_self (v : Vec Extended n) (c : Fin n → ℝ) :
    (v.sub (ofReal c)).translate c = v := by
  rw [← translate_neg, translate_translate, neg_add_cancel, translate_zero]

theorem translate_ofReal (v c : Fin n → ℝ) : (ofReal v).translate c = ofReal (v + c) :=
  add_ofReal v c

theorem translate_add (u v : Vec Extended n) (c d : Fin n → ℝ) :
    (u.translate c).add (v.translate d) = (u.add v).translate (c + d) :=
  Vec.ext fun i => by simp only [get_add, get_translate, Extended.translate_add, Pi.add_apply]

theorem translate_sub (u v : Vec Extended n) (c d : Fin n → ℝ) :
    (u.translate c).sub (v.translate d) = (u.sub v).translate (c - d) :=
  Vec.ext fun i => by simp only [get_sub, get_translate, Extended.translate_sub, Pi.sub_apply]

theorem translate_sub_translate (u v : Vec Extended n) (c : Fin n → ℝ) :
    (u.translate c).sub (v.translate c) = u.sub v := by
  rw [translate_sub, sub_self, translate_zero]

theorem translate_append (u : Vec Extended n) (v : Vec Extended m) (c : Fin n → ℝ)
    (d : Fin m → ℝ) : u.translate c ++ v.translate d = translate (u ++ v) (Fin.append c d) := by
  apply Vec.ext
  intro i
  rw [get_translate]
  cases i using Fin.addCases with
  | left i => rw [get_append_castAdd, get_append_castAdd, get_translate, Fin.append_left]
  | right i => rw [get_append_natAdd, get_append_natAdd, get_translate, Fin.append_right]

theorem clamp_translate (lo hi v : Vec Extended n) (c : Fin n → ℝ) :
    clamp (lo.translate c) (hi.translate c) (v.translate c) = (clamp lo hi v).translate c :=
  Vec.ext fun i => by simp only [get_clamp, get_translate, Extended.clamp_translate]

theorem isFinite_translate (v : Vec Extended n) (c : Fin n → ℝ) :
    (v.translate c).isFinite = v.isFinite := by
  rw [Bool.eq_iff_iff, isFinite_iff, isFinite_iff]
  simp only [get_translate, Extended.isFinite_translate]

theorem firstDisorder_translate (lo hi : Vec Extended n) (c : Fin n → ℝ) :
    firstDisorder (lo.translate c) (hi.translate c) = firstDisorder lo hi := by
  simp only [firstDisorder, get_translate, translate_le_iff]

end Vec

namespace Mat

variable [Precision] {m n : ℕ} (M : Matrix (Fin m) (Fin n) ℝ)

theorem mulVec_translate (v : Vec Extended n) (c : Fin n → ℝ) :
    (ofReal M).mulVec (v.translate c) = ((ofReal M).mulVec v).translate (M *ᵥ c) :=
  Vec.ext fun i => by
    simp only [get_mulVec, entry_ofReal, Vec.get_translate, finite_mul_translate, sum_translate]
    rfl

theorem transposeMulVec_translate (v : Vec Extended m) (c : Fin m → ℝ) :
    (ofReal M).transposeMulVec (v.translate c) =
      ((ofReal M).transposeMulVec v).translate (Mᵀ *ᵥ c) :=
  Vec.ext fun j => by
    simp only [get_transposeMulVec, entry_ofReal, Vec.get_translate, finite_mul_translate,
      sum_translate]
    rfl

end Mat

/-! ## Triangular systems -/

namespace Triangular

variable [Precision] {n : ℕ}

theorem foldl_sub_translate {k : ℕ} (f : Fin k → Extended) (g : Fin k → ℝ) (b : Extended)
    (a : ℝ) :
    Fin.foldl k (fun rest j => rest - (f j + finite (g j))) (b + finite a) =
      Fin.foldl k (fun rest j => rest - f j) b + finite (a - ∑ j, g j) := by
  induction k with
  | zero => simp
  | succ k ih =>
    rw [Fin.foldl_succ_last, Fin.foldl_succ_last, ih, translate_sub, Fin.sum_univ_castSucc,
      sub_add_eq_sub_sub]

theorem push_translate {k : ℕ} (v : Vec Extended k) (x : Extended) (c : Fin (k + 1) → ℝ) :
    Vector.push (v.translate fun i => c i.castSucc) (x + finite (c (Fin.last k))) =
      Vec.translate (Vector.push v x) c := by
  apply Vec.ext
  intro i
  rw [Vec.get_translate]
  change (Vector.push _ _)[(i : ℕ)] = (Vector.push v x)[(i : ℕ)] + _
  cases i using Fin.lastCases with
  | last => simp
  | cast i =>
    have hi : (i.castSucc : ℕ) < k := i.isLt
    rw [Vector.getElem_push_lt hi, Vector.getElem_push_lt hi]
    exact Vec.get_translate v _ i

omit [Precision] in
/-- The terms of row `k` of a lower triangular matrix end at the diagonal. -/
theorem sum_row_eq {c : Fin n → Fin n → ℝ} (hLower : ∀ i j, i < j → c i j = 0) (x : Fin n → ℝ)
    {k : ℕ} (hk : k < n) :
    ∑ j, c ⟨k, hk⟩ j * x j =
      ∑ j : Fin k, c ⟨k, hk⟩ (j.castLE hk.le) * x (j.castLE hk.le) + c ⟨k, hk⟩ ⟨k, hk⟩ * x ⟨k, hk⟩ := by
  obtain ⟨d, rfl⟩ := Nat.exists_eq_add_of_le (Nat.succ_le_of_lt hk)
  have hRest : ∀ j : Fin d, c ⟨k, hk⟩ (Fin.natAdd (k + 1) j) = 0 := fun j =>
    hLower _ _ (Nat.lt_add_right (j : ℕ) (Nat.lt_succ_self k))
  rw [Fin.sum_univ_add]
  simp only [hRest, zero_mul, Finset.sum_const_zero, add_zero]
  rw [Fin.sum_univ_castSucc]
  rfl

/-- A right side moved by the image of `x` moves the unknowns by `x`. -/
theorem unknowns_translate {c : Fin n → Fin n → ℝ} (hLower : ∀ i j, i < j → c i j = 0)
    (hDiag : ∀ i, c i i ≠ 0) (b : Fin n → Extended) (x : Fin n → ℝ) (k : ℕ) (hk : k ≤ n) :
    unknowns (fun i j => finite (c i j)) (fun i => b i + finite (∑ j, c i j * x j)) k hk =
      Vec.translate (unknowns (fun i j => finite (c i j)) b k hk) fun i => x (i.castLE hk) := by
  induction k with
  | zero => exact Vec.ext fun i => i.elim0
  | succ k ih =>
    -- the known unknowns take their share of the move away and leave the pivot's
    have hPivot : (∑ j, c ⟨k, hk⟩ j * x j - ∑ j : Fin k, c ⟨k, hk⟩ ⟨j, j.isLt.trans hk⟩ *
        x (j.castLE (Nat.le_of_succ_le hk))) / c ⟨k, hk⟩ ⟨k, hk⟩ = x ⟨k, hk⟩ := by
      rw [sum_row_eq hLower]
      exact (congrArg (· / _) (add_sub_cancel_left _ _)).trans (mul_div_cancel_left₀ _ (hDiag _))
    rw [unknowns, ih, unknowns]
    simp only [Vec.get_translate, finite_mul_translate]
    rw [foldl_sub_translate, translate_div _ _ (hDiag _), hPivot]
    exact push_translate _ _ fun i => x (i.castLE hk)

theorem solve_translate {c : Fin n → Fin n → ℝ} (hLower : ∀ i j, i < j → c i j = 0)
    (hDiag : ∀ i, c i i ≠ 0) (b : Fin n → Extended) (x : Fin n → ℝ) :
    solve (fun i j => finite (c i j)) (fun i => b i + finite (∑ j, c i j * x j)) =
      (solve (fun i j => finite (c i j)) b).translate x :=
  unknowns_translate hLower hDiag b x n le_rfl

variable {R M : Matrix (Fin n) (Fin n) ℝ}

theorem forward_translate (hR : IsCholeskyFactor R M) (b : Vec Extended n) (x : Fin n → ℝ) :
    forward (Mat.ofReal R) (b.translate (R *ᵥ x)) = (forward (Mat.ofReal R) b).translate x := by
  have hEntries : (Mat.ofReal R).entry = fun i j => finite (R i j) := funext₂ (Mat.entry_ofReal R)
  have hRight : (b.translate (R *ᵥ x)).get = fun i => b.get i + finite (∑ j, R i j * x j) :=
    funext (Vec.get_translate b _)
  rw [forward, forward, hEntries, hRight]
  exact solve_translate hR.lower (fun i => (hR.diagonal_pos i).ne') b.get x

theorem backward_translate (hR : IsCholeskyFactor R M) (b : Vec Extended n) (x : Fin n → ℝ) :
    backward (Mat.ofReal R) (b.translate (Rᵀ *ᵥ x)) = (backward (Mat.ofReal R) b).translate x := by
  have hSolve := solve_translate (reversed_lower hR) (reversed_ne_zero hR) (fun i => b.get i.rev)
    fun i => x i.rev
  apply Vec.ext
  intro i
  have hEntry := congrArg (fun v : Vec Extended n => v.get i.rev) hSolve
  simp only [Vec.get_translate, Fin.rev_rev] at hEntry
  simp only [backward, Mat.entry_ofReal, Vec.get_ofFn, Vec.get_translate, transpose_mulVec_rev]
  exact hEntry

end Triangular

/-- The two triangular solves move by `c` when the right side moves by `M c`. -/
theorem IsCholeskyFactor.choleskySolve_translate [Precision] {n : ℕ} {R M : Matrix (Fin n) (Fin n) ℝ}
    (hR : IsCholeskyFactor R M) (b : Vec Extended n) (c : Fin n → ℝ) :
    (Mat.ofReal R).choleskySolve (b.translate (M *ᵥ c)) =
      ((Mat.ofReal R).choleskySolve b).translate c := by
  rw [← hR.mul_transpose, ← mulVec_mulVec, Mat.choleskySolve, Triangular.forward_translate hR,
    Triangular.backward_translate hR, Mat.choleskySolve]

/-! ## Solves -/

theorem Check.finite_translate [Precision] (what : String) {n : ℕ} (v : Vec Extended n)
    (c : Fin n → ℝ) : finite what (v.translate c) = finite what v := by
  rw [finite, finite, Vec.isFinite_translate]

theorem Check.ordered_translate [Precision] (what : String) {n : ℕ} (lo hi : Vec Extended n)
    (c : Fin n → ℝ) : ordered what (lo.translate c) (hi.translate c) = ordered what lo hi := by
  rw [ordered, ordered, Vec.firstDisorder_translate]

namespace Qp

variable [Precision] {n m : ℕ} {p : Problem n m} {t : Settings ℝ} {s : Solver Extended n m}

/-- The data of the same solve in variables moved by `c`. -/
noncomputable def Data.translate (d : Data Extended n m) (p : Problem n m) (c : Fin n → ℝ) :
    Data Extended n m where
  q := d.q.translate (-(p.P *ᵥ c))
  lower := d.lower.translate (p.A *ᵥ c)
  upper := d.upper.translate (p.A *ᵥ c)

noncomputable def Iterate.translate (it : Iterate Extended n m) (A : Matrix (Fin m) (Fin n) ℝ)
    (c : Fin n → ℝ) : Iterate Extended n m where
  x := it.x.translate c
  w := it.w.translate (A *ᵥ c)
  y := it.y

noncomputable def Solution.translate (sol : Solution Extended n m) (A : Matrix (Fin m) (Fin n) ℝ)
    (c : Fin n → ℝ) : Solution Extended n m :=
  { sol with
    z := sol.z.translate c
    w := sol.w.translate (A *ᵥ c) }

namespace Solver.IsFactored

theorem start_translate (h : s.IsFactored p t) (d : Data Extended n m) (z : Vec Extended n)
    (y : Vec Extended m) (c : Fin n → ℝ) :
    s.start (d.translate p c) (z.translate c) y = (s.start d z y).translate p.A c := by
  rw [start, h.constraints, Mat.mulVec_translate]
  simp only [Data.translate, Vec.clamp_translate]
  rw [start, h.constraints]
  rfl

theorem rightSide_translate (h : s.IsFactored p t) (d : Data Extended n m)
    (it : Iterate Extended n m) (c : Fin n → ℝ) :
    s.rightSide (d.translate p c) (it.translate p.A c) =
      (s.rightSide d it).translate (p.system t *ᵥ c) := by
  have hPull : (Vec.ofFn fun i => s.settings.rho * (it.translate p.A c).w.get i -
      (it.translate p.A c).y.get i) = Vec.translate (Vec.ofFn fun i =>
        s.settings.rho * it.w.get i - it.y.get i) (t.rho • (p.A *ᵥ c)) := by
    apply Vec.ext
    intro i
    simp only [Iterate.translate, h.settings, Settings.ofReal, Vec.get_ofFn, Vec.get_translate,
      finite_mul_translate, add_finite_sub]
    rfl
  have hMove : p.system t *ᵥ c = t.sigma • c - -(p.P *ᵥ c) + p.Aᵀ *ᵥ (t.rho • (p.A *ᵥ c)) := by
    rw [Problem.system, add_mulVec, add_mulVec, smul_mulVec, smul_mulVec, one_mulVec, mulVec_smul,
      mulVec_mulVec]
    abel
  apply Vec.ext
  intro j
  simp only [rightSide, hPull, h.constraints, Mat.transposeMulVec_translate]
  simp only [Iterate.translate, Data.translate, h.settings, Settings.ofReal, Vec.get_ofFn,
    Vec.get_translate, finite_mul_translate, translate_sub, translate_add, hMove]
  rfl

theorem relax_translate (h : s.IsFactored p t) (x : Vec Extended n) (w : Vec Extended m)
    (c : Fin n → ℝ) :
    s.relax (x.translate c) (w.translate (p.A *ᵥ c)) = (s.relax x w).translate (p.A *ᵥ c) := by
  apply Vec.ext
  intro i
  have hBlend : t.alpha * (p.A *ᵥ c) i + (1 - t.alpha) * (p.A *ᵥ c) i = (p.A *ᵥ c) i := by ring
  simp only [relax, h.constraints, h.settings, Settings.ofReal, Mat.mulVec_translate, Vec.get_ofFn,
    Vec.get_translate, one_eq, finite_sub, finite_mul_translate, translate_add, hBlend]

theorem step_translate (h : s.IsFactored p t) (d : Data Extended n m)
    (it : Iterate Extended n m) (c : Fin n → ℝ) :
    s.step (d.translate p c) (it.translate p.A c) = (s.step d it).translate p.A c := by
  obtain ⟨R, hFactor, hR⟩ := h.factor
  have hx : s.factor.choleskySolve (s.rightSide (d.translate p c) (it.translate p.A c)) =
      (s.factor.choleskySolve (s.rightSide d it)).translate c := by
    rw [h.rightSide_translate, hFactor, hR.choleskySolve_translate]
  have hRelax := h.relax_translate (s.factor.choleskySolve (s.rightSide d it)) it.w c
  have hShifted : ∀ r : Vec Extended m,
      (Vec.ofFn fun i => (r.translate (p.A *ᵥ c)).get i + it.y.get i / s.settings.rho) =
        Vec.translate (Vec.ofFn fun i => r.get i + it.y.get i / s.settings.rho) (p.A *ᵥ c) :=
    fun r => Vec.ext fun i => by simp only [Vec.get_ofFn, Vec.get_translate, add_finite_add]
  have hCut : ∀ r w : Vec Extended m,
      (Vec.ofFn fun i => it.y.get i + s.settings.rho *
        ((r.translate (p.A *ᵥ c)).get i - (w.translate (p.A *ᵥ c)).get i)) =
      Vec.ofFn fun i => it.y.get i + s.settings.rho * (r.get i - w.get i) :=
    fun r w => Vec.ext fun i => by
      simp only [Vec.get_ofFn, Vec.get_translate, add_finite_sub_add_finite]
  rw [step, hx]
  simp only [Iterate.translate, Data.translate, step, hRelax, hShifted, Vec.clamp_translate, hCut]

theorem run_translate (h : s.IsFactored p t) (d : Data Extended n m) (k : ℕ)
    (it : Iterate Extended n m) (c : Fin n → ℝ) :
    s.run (d.translate p c) k (it.translate p.A c) = (s.run d k it).translate p.A c := by
  induction k with
  | zero => rfl
  | succ k ih =>
    change s.step _ (s.run (d.translate p c) k (it.translate p.A c)) = _
    rw [ih, h.step_translate]
    rfl

theorem residuals_translate (h : s.IsFactored p t) (before after : Iterate Extended n m)
    (c : Fin n → ℝ) :
    s.residuals (before.translate p.A c) (after.translate p.A c) = s.residuals before after := by
  simp only [residuals, Iterate.translate, h.constraints, Mat.mulVec_translate,
    Vec.translate_sub_translate]

theorem answer_translate (h : s.IsFactored p t) (d : Data Extended n m) (z : Vec Extended n)
    (y : Vec Extended m) (k : ℕ) (c : Fin n → ℝ) :
    s.answer (d.translate p c) (z.translate c) y k = (s.answer d z y k).translate p.A c := by
  simp only [answer, h.start_translate, h.run_translate, h.step_translate, h.residuals_translate]
  rfl

/-- A solve with linear cost moved by `-P c` and bounds moved by `A c`, started from a point moved
by `c`, is refused for the same reason or gives the same answer moved by `c`. -/
theorem solveWith_translate (h : s.IsFactored p t) (d : Data Extended n m) (z : Vec Extended n)
    (y : Array Extended) (k : ℕ) (c : Fin n → ℝ) :
    s.solveWith (d.translate p c).q.toArray (d.translate p c).lower.toArray
        (d.translate p c).upper.toArray { z := (z.translate c).toArray, y } k =
      (·.translate p.A c) <$> s.solveWith d.q.toArray d.lower.toArray d.upper.toArray
        { z := z.toArray, y } k := by
  cases k with
  | zero => rfl
  | succ k =>
    simp only [solveWith, Check.length_toArray, ok_bind, map_bind, map_pure]
    simp only [Data.translate, Check.finite_translate, Check.ordered_translate]
    simp only [← h.answer_translate]
    rfl

end Solver.IsFactored

end Qp

/-! ## Problems -/

theorem Extended.IsInterval.translate [Precision] {lo hi : Extended} (h : IsInterval lo hi) (a : ℝ) :
    IsInterval (lo + finite a) (hi + finite a) where
  ordered := translate_le_iff.mpr h.ordered
  lower_lt := (translate_lt_iff (a := a)).mpr h.lower_lt
  lt_upper := (translate_lt_iff (a := a)).mpr h.lt_upper

/-- A box moved by a real vector. -/
noncomputable def Box.translate [Precision] {m : ℕ} (b : Box m) (c : Fin m → ℝ) : Box m where
  lower := b.lower.translate c
  upper := b.upper.translate c
  isInterval i := by
    rw [Vec.get_translate, Vec.get_translate]
    exact (b.isInterval i).translate (c i)

namespace Qp

/-- The problem in variables moved by `c`, whose feasible points are those of `p` moved by `c`. -/
noncomputable def Problem.translate [Precision] {n m : ℕ} (p : Problem n m) (c : Fin n → ℝ) :
    Problem n m where
  P := p.P
  A := p.A
  q := p.q - p.P *ᵥ c
  box := p.box.translate (p.A *ᵥ c)

/-- **Translation.** Move the linear cost of a solve by `-P c`, its bounds by `A c` and its first
point by `c`. The solve is then refused for the same reason as before, or it gives the same answer
with the point moved by `c` and the slack by `A c`. A problem with room between its bounds is
solved before and after the move. -/
theorem solve_translation_equivariant [Precision] {n m : ℕ} {p : Problem n m} {t : Settings ℝ}
    {s : Solver Extended n m} (hs : p.setup t = .ok s) (hP : p.P.IsSymm) (c : Fin n → ℝ) :
    (∀ (d : Data Extended n m) (z : Vec Extended n) (y : Vec Extended m) (k : ℕ),
      s.solveWith (d.q.sub (.ofReal (p.P *ᵥ c))).toArray (d.lower.add (.ofReal (p.A *ᵥ c))).toArray
          (d.upper.add (.ofReal (p.A *ᵥ c))).toArray
          { z := (z.add (.ofReal c)).toArray, y := y.toArray } k =
        (fun sol : Solution Extended n m =>
          { sol with z := sol.z.add (.ofReal c), w := sol.w.add (.ofReal (p.A *ᵥ c)) }) <$>
          s.solveWith d.q.toArray d.lower.toArray d.upper.toArray
            { z := z.toArray, y := y.toArray } k) ∧
    (∀ (z : Fin n → ℝ) (y : Fin m → ℝ) (k : ℕ), 1 ≤ k → ∃ sol,
      s.solveProblem p z y k = .ok sol ∧
      s.solveProblem (p.translate c) (z + c) y k =
        .ok { sol with z := sol.z.add (.ofReal c), w := sol.w.add (.ofReal (p.A *ᵥ c)) }) := by
  have hFactored := Problem.isFactored_of_setup hs hP
  have hSolves : ∀ (d : Data Extended n m) (z : Vec Extended n) (y : Vec Extended m) (k : ℕ),
      s.solveWith (d.q.sub (.ofReal (p.P *ᵥ c))).toArray (d.lower.translate (p.A *ᵥ c)).toArray
          (d.upper.translate (p.A *ᵥ c)).toArray
          { z := (z.translate c).toArray, y := y.toArray } k =
        (·.translate p.A c) <$> s.solveWith d.q.toArray d.lower.toArray d.upper.toArray
          { z := z.toArray, y := y.toArray } k := by
    intro d z y k
    have hMoved := hFactored.solveWith_translate d z y.toArray k c
    rwa [Data.translate, Vec.translate_neg] at hMoved
  refine ⟨hSolves, fun z y k hk => ?_⟩
  obtain ⟨k, rfl⟩ := Nat.exists_eq_add_of_le' hk
  have hSolve := s.solveProblem_eq_ok p z y k
  have hMoved := hSolves p.data (Vec.ofReal z) (Vec.ofReal y) (k + 1)
  refine ⟨_, hSolve, ?_⟩
  rw [Problem.data, Vec.sub_ofReal, Vec.translate_ofReal] at hMoved
  exact hMoved.trans (congrArg _ hSolve)

theorem clippedParabola_moved :
    letI := Precision.double
    let p : Problem 1 1 := .clippedParabola
    ∃ s sol, p.setup .standard = .ok s ∧ s.solveProblem p ![0] ![1] 3 = .ok sol ∧
      s.solveProblem (p.translate ![2]) (![0] + ![2]) ![1] 3 =
        .ok { sol with z := sol.z.add (.ofReal ![2]), w := sol.w.add (.ofReal (p.A *ᵥ ![2])) } := by
  let _ := Precision.double
  intro p
  obtain ⟨s, hs⟩ := Problem.exists_setup_clippedParabola
  obtain ⟨-, hSolves⟩ := solve_translation_equivariant hs isSymm_one ![2]
  obtain ⟨sol, hSolve, hMoved⟩ := hSolves ![0] ![1] 3 (by norm_num)
  exact ⟨s, sol, hs, hSolve, hMoved⟩

end Qp

end RecedingHorizon
