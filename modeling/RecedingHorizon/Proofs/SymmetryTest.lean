import RecedingHorizon.Proofs.NumberOrder
import RecedingHorizon.Proofs.Problem
import RecedingHorizon.Proofs.Refusal

/-!
# The symmetry test

A matrix is refused when two entries opposite each other across the diagonal are further apart than
round-off explains. The distance allowed is a share of the largest entry, but never less than this
share of one. So the test is relative for matrices with an entry of at least one, and absolute for
smaller ones: a small matrix passes however skewed it is, and is refused once it is multiplied
(`small_skewed_accepted`).
-/

namespace RecedingHorizon

open Extended Matrix

/-! ## Entries and the largest of them -/

namespace Mat

variable {S : Type} {m n : ℕ}

theorem mem_byColumns {M : Mat S m n} {x : S} :
    x ∈ M.byColumns ↔ ∃ i j, M.entry i j = x := by
  simp only [byColumns, List.mem_flatMap, List.mem_map, List.mem_finRange, true_and]
  exact exists_comm

variable [Scalar S]

theorem exists_maxAbs_eq (M : Mat S m n) (i : Fin m) (j : Fin n) :
    ∃ k l, M.maxAbs = Scalar.abs (M.entry k l) := by
  have hMem : M.entry i j ∈ M.byColumns := mem_byColumns.mpr ⟨i, j, rfl⟩
  obtain ⟨x, rest, hList⟩ := List.exists_cons_of_ne_nil (List.ne_nil_of_mem hMem)
  obtain ⟨y, hy, hPeak⟩ := Scalar.exists_mem_peak_eq x rest
  rw [← hList] at hy hPeak
  obtain ⟨k, l, rfl⟩ := mem_byColumns.mp hy
  exact ⟨k, l, hPeak⟩

/-- Two entries opposite each other are further apart than the test allows. -/
def IsSkewed (M : Mat S n n) : Prop :=
  ∃ i j, Scalar.sqrt Scalar.epsilon * Scalar.larger M.maxAbs 1 <
    Scalar.abs (M.entry i j - M.entry j i)

variable [Scalar.OrdersNumbers S]

open Scalar.OrdersNumbers

theorem lt_maxAbs_iff {M : Mat S m n} {t : S} (hEmpty : M.byColumns = [] → ¬ t < 0)
    (hM : ∀ i j, Scalar.abs (M.entry i j) ≤ Scalar.abs (M.entry i j)) :
    t < M.maxAbs ↔ ∃ i j, t < Scalar.abs (M.entry i j) := by
  have hNumbers : ∀ y ∈ M.byColumns, Scalar.abs y ≤ Scalar.abs y := by
    intro y hy
    obtain ⟨i, j, rfl⟩ := mem_byColumns.mp hy
    exact hM i j
  rw [maxAbs, Scalar.lt_peak_iff hEmpty hNumbers]
  constructor
  · rintro ⟨y, hy, hLt⟩
    obtain ⟨i, j, rfl⟩ := mem_byColumns.mp hy
    exact ⟨i, j, hLt⟩
  · rintro ⟨i, j, hLt⟩
    exact ⟨_, mem_byColumns.mpr ⟨i, j, rfl⟩, hLt⟩

/-- No entry of a finite matrix is above its largest one. -/
theorem not_maxAbs_lt {M : Mat S m n} (hM : M.isFinite = true) (i : Fin m) (j : Fin n) :
    ¬ M.maxAbs < Scalar.abs (M.entry i j) := by
  intro hLt
  have hEmpty : M.byColumns = [] → ¬ M.maxAbs < 0 := by
    intro hNil
    exact absurd (mem_byColumns.mpr ⟨i, j, rfl⟩) (List.eq_nil_iff_forall_not_mem.mp hNil _)
  exact lt_irrefl _ ((lt_maxAbs_iff hEmpty fun k l => abs_le_self ((isFinite_iff M).mp hM k l)).mpr
    ⟨i, j, hLt⟩)

/-- The test fails exactly on skewed matrices. -/
theorem isNearlySymmetric_eq_false_iff {M : Mat S n n} (hM : M.isFinite = true) :
    M.isNearlySymmetric = false ↔ M.IsSkewed := by
  have hFinite := (isFinite_iff M).mp hM
  have hEmpty : (M.sub M.transpose).byColumns = [] →
      ¬ Scalar.sqrt Scalar.epsilon * Scalar.larger M.maxAbs 1 < 0 := by
    intro hNil
    cases n with
    | zero => exact sqrt_epsilon_not_neg
    | succ n =>
      exact absurd (mem_byColumns.mpr ⟨0, 0, rfl⟩) (List.eq_nil_iff_forall_not_mem.mp hNil _)
  rw [isNearlySymmetric, Bool.not_eq_false', decide_eq_true_iff, lt_maxAbs_iff hEmpty]
  · simp only [entry_sub, entry_transpose, IsSkewed]
  · intro i j
    rw [entry_sub, entry_transpose]
    exact abs_sub_le_self (hFinite i j) (hFinite j i)

end Mat

/-! ## Refusals -/

section Refusals

variable {S : Type} {n m : ℕ}

variable [Scalar S] [Scalar.OrdersNumbers S]

theorem Check.symmetric_eq_error_iff {what : String} {M : Mat S n n} (hM : M.isFinite = true)
    {e : Fault S} : symmetric what M = .error e ↔ M.IsSkewed ∧ e = .notSymmetric what := by
  rw [symmetric, ite_ok_eq_error_iff, Bool.not_eq_true, Mat.isNearlySymmetric_eq_false_iff hM]

namespace Qp

omit [Scalar.OrdersNumbers S] in
theorem factorize_ne_notSymmetric {cost : Mat S n n} {constraints : Mat S m n} {rho sigma : S}
    {what : String} : factorize cost constraints rho sigma ≠ .error (.notSymmetric what) := by
  unfold factorize
  split
  · nofun
  · split <;> nofun

namespace Solver

theorem setup_notSymmetric_iff {P : Mat S n n} {A : Mat S m n} {settings : Settings S}
    (hSettings : settings.validate = .ok ()) (hP : P.isFinite = true) (hA : A.isFinite = true) :
    setup P A settings = .error (.notSymmetric "P") ↔ P.IsSkewed := by
  have hRest : ∀ f : Mat S n n → Solver S n m,
      f <$> factorize P A settings.rho settings.sigma ≠ .error (.notSymmetric "P") := by
    intro f h
    exact factorize_ne_notSymmetric (map_eq_error_iff.mp h)
  rw [setup, hSettings, ok_bind, prepare, Check.finiteEntries_eq_ok_iff.mpr hP, ok_bind,
    Check.finiteEntries_eq_ok_iff.mpr hA, ok_bind, check_bind_eq_error_iff,
    Check.symmetric_eq_error_iff hP, and_iff_left rfl, or_iff_left fun h => hRest _ h.2]

end Solver

end Qp

namespace StageCost

omit [Scalar.OrdersNumbers S] in
/-- A weight is refused in its own name. -/
theorem weight_ne_notSymmetric {what other : String} (hOther : other ≠ what) (M : Grid S) :
    ofGrids.weight what M ≠ .error (.notSymmetric other) := by
  unfold ofGrids.weight Check.square Check.finiteEntries Check.symmetric
  split
  · rw [ok_bind]
    split
    · rw [ok_bind]
      split
      · simp
      · intro h
        cases h
        exact hOther rfl
    · simp
  · simp

omit [Scalar.OrdersNumbers S] in
theorem weight_toGrid {what : String} {M : Mat S n n} (hM : M.isFinite = true) :
    ofGrids.weight what M.toGrid =
      if M.isNearlySymmetric then .ok M else .error (.notSymmetric what) := by
  rw [ofGrids.weight, Check.square_toGrid, ok_bind, Check.finiteEntries_eq_ok_iff.mpr hM, ok_bind,
    Check.symmetric]
  split <;> rfl

/-- The state weight is judged without regard to the input weight. -/
theorem ofGrids_notSymmetric_state_iff {Q : Mat S n n} (hQ : Q.isFinite = true) (R : Grid S) :
    ofGrids Q.toGrid R = .error (.notSymmetric "Q") ↔ Q.IsSkewed := by
  rw [ofGrids, weight_toGrid hQ, ← Mat.isNearlySymmetric_eq_false_iff hQ]
  cases Q.isNearlySymmetric with
  | false => simp
  | true =>
    rw [if_pos rfl, ok_bind]
    refine iff_of_false (fun h => ?_) nofun
    exact weight_ne_notSymmetric (by decide) R (map_eq_error_iff.mp h)

theorem ofGrids_notSymmetric_input_iff {Q : Mat S n n} {R : Mat S m m} (hQ : Q.isFinite = true)
    (hR : R.isFinite = true) :
    ofGrids Q.toGrid R.toGrid = .error (.notSymmetric "R") ↔ ¬ Q.IsSkewed ∧ R.IsSkewed := by
  rw [ofGrids, weight_toGrid hQ, weight_toGrid hR, ← Mat.isNearlySymmetric_eq_false_iff hQ,
    ← Mat.isNearlySymmetric_eq_false_iff hR]
  cases Q.isNearlySymmetric <;> cases R.isNearlySymmetric <;> simp [pure, Except.pure]

end StageCost

end Refusals

/-! ## Multiples of a matrix -/

namespace Mat

variable [Precision] {n : ℕ} {M : Matrix (Fin n) (Fin n) ℝ} {c : ℝ}

theorem isSkewed_ofReal_iff :
    (ofReal M).IsSkewed ↔ ∃ i j, symmetryTolerance M < |M i j - M j i| := by
  rw [← isNearlySymmetric_eq_false_iff (isFinite_ofReal M), ← Bool.not_eq_true,
    isNearlySymmetric_ofReal_iff]
  push Not
  rfl

theorem symmetryTolerance_smul (hc : 0 < c) :
    symmetryTolerance (c • M) =
      c * (Real.sqrt Precision.epsilon * max ‖fun i j => M i j‖ c⁻¹) := by
  have hNorm : ‖fun i j => (c • M) i j‖ = c * ‖fun i j => M i j‖ := by
    change ‖c • fun i j => M i j‖ = _
    rw [norm_smul, Real.norm_of_nonneg hc.le]
  rw [symmetryTolerance, hNorm, mul_left_comm, mul_max_of_nonneg _ _ hc.le, mul_inv_cancel₀ hc.ne']

/-- A multiple is compared with the largest entry or with the inverse of its factor. -/
theorem isSkewed_smul_iff (hc : 0 < c) :
    (ofReal (c • M)).IsSkewed ↔
      ∃ i j, Real.sqrt Precision.epsilon * max ‖fun i j => M i j‖ c⁻¹ < |M i j - M j i| := by
  rw [isSkewed_ofReal_iff, symmetryTolerance_smul hc]
  refine exists_congr fun i => exists_congr fun j => ?_
  rw [Matrix.smul_apply, Matrix.smul_apply, smul_eq_mul, smul_eq_mul, ← mul_sub, abs_mul,
    abs_of_pos hc, mul_lt_mul_iff_right₀ hc]

end Mat

namespace Qp.Problem

/-- A cost with one entry above the diagonal and none below. -/
def skewed (c : ℝ) : Problem 2 0 where
  P := c • !![1, 1; 0, 1]
  A := 0
  q := 0
  box := .univ 0

variable {c : ℝ}

theorem abs_skewed_le (hc : 0 ≤ c) (i j : Fin 2) : |(skewed c).P i j| ≤ c := by
  fin_cases i <;> fin_cases j <;> simp [skewed, abs_of_nonneg hc, hc]

theorem norm_skewed (hc : 0 ≤ c) : ‖fun i j => (skewed c).P i j‖ = c := by
  apply le_antisymm
  · exact (pi_norm_le_iff_of_nonneg hc).mpr fun i =>
      (pi_norm_le_iff_of_nonneg hc).mpr (abs_skewed_le hc i)
  · calc
      c = |(skewed c).P 0 0| := by simp [skewed, abs_of_nonneg hc]
      _ ≤ ‖fun j => (skewed c).P 0 j‖ := norm_le_pi_norm (fun j => (skewed c).P 0 j) 0
      _ ≤ ‖fun i j => (skewed c).P i j‖ := norm_le_pi_norm (fun i j => (skewed c).P i j) 0

theorem skewed_gap (hc : 0 ≤ c) : |(skewed c).P 0 1 - (skewed c).P 1 0| = c := by
  simp [skewed, abs_of_nonneg hc]

theorem mirror_skewed_posSemidef (hc : 0 ≤ c) : (Mat.mirror (skewed c).P).PosSemidef := by
  have hDiagonal : Mat.mirror (skewed c).P = c • 1 := by
    ext i j
    fin_cases i <;> fin_cases j <;> simp [Mat.mirror, skewed]
  rw [hDiagonal]
  exact PosSemidef.one.smul hc

end Qp.Problem

/-- **The symmetry test.** The test reads the largest entry of a matrix: no entry of a finite matrix
is above it, and it is the size of one of them. Of finite square matrices exactly the skewed ones
are refused as not symmetric: a cost in front of a factorization, a state weight, and an input
weight beside a state weight that passes. In exact arithmetic the multiple `c M` is skewed when two
entries of `M` opposite each other differ by more than `√ε` times the larger of `max |M|` and
`1 / c`. So the test is relative, and the same for every multiple, as long as the largest entry is
at least one. -/
theorem refused_iff_isSkewed {S : Type} [Scalar S] [Scalar.OrdersNumbers S] [Precision] :
    (∀ {m n : ℕ} (M : Mat S m n), M.isFinite = true → ∀ i j,
      ¬ M.maxAbs < Scalar.abs (M.entry i j) ∧ ∃ k l, M.maxAbs = Scalar.abs (M.entry k l)) ∧
    (∀ {n m : ℕ} (P : Mat S n n) (A : Mat S m n) (settings : Settings S),
      settings.validate = .ok () → P.isFinite = true → A.isFinite = true →
        (Qp.Solver.ofGrids P.toGrid A.toGrid settings = .error (.notSymmetric "P") ↔
          P.IsSkewed)) ∧
    (∀ {p : ℕ} (Q : Mat S p p) (R : Grid S), Q.isFinite = true →
      (StageCost.ofGrids Q.toGrid R = .error (.notSymmetric "Q") ↔ Q.IsSkewed)) ∧
    (∀ {p r : ℕ} (Q : Mat S p p) (R : Mat S r r), Q.isFinite = true → R.isFinite = true →
      (StageCost.ofGrids Q.toGrid R.toGrid = .error (.notSymmetric "R") ↔
        ¬ Q.IsSkewed ∧ R.IsSkewed)) ∧
    ∀ {n : ℕ} (M : Matrix (Fin n) (Fin n) ℝ) (c : ℝ), 0 < c →
      let size := ‖fun i j => M i j‖
      ((Mat.ofReal (c • M)).IsSkewed ↔
        ∃ i j, Real.sqrt Precision.epsilon * max size c⁻¹ < |M i j - M j i|) ∧
      (1 ≤ c * size → ((Mat.ofReal (c • M)).IsSkewed ↔
        ∃ i j, Real.sqrt Precision.epsilon * size < |M i j - M j i|)) := by
  refine ⟨?_, ?_, ?_, ?_, ?_⟩
  · intro m n M hM i j
    exact ⟨M.not_maxAbs_lt hM i j, M.exists_maxAbs_eq i j⟩
  · intro n m P A settings hSettings hP hA
    rw [Qp.Solver.ofGrids_toGrid, Qp.Solver.setup_notSymmetric_iff hSettings hP hA]
  · intro p Q R hQ
    exact StageCost.ofGrids_notSymmetric_state_iff hQ R
  · intro p r Q R hQ hR
    exact StageCost.ofGrids_notSymmetric_input_iff hQ hR
  · intro n M c hc size
    refine ⟨Mat.isSkewed_smul_iff hc, fun hLarge => ?_⟩
    have hInverse : c⁻¹ ≤ size := (inv_le_iff_one_le_mul₀' hc).mpr hLarge
    rw [Mat.isSkewed_smul_iff hc, max_eq_left hInverse]

/-- Matrices of binary64 with entries of one and an asymmetry of a half are refused, and in exact
arithmetic so is a large multiple of a small one. -/
theorem unit_skewed_refused :
    letI := Precision.double
    let P : Mat Float 2 2 := .ofFn ![![1, 0.5], ![0, 1]]
    let A : Mat Float 0 2 := .ofFn fun i => i.elim0
    Qp.Solver.ofGrids P.toGrid A.toGrid .standard = .error (.notSymmetric "P") ∧
    StageCost.ofGrids P.toGrid P.toGrid = .error (.notSymmetric "Q") ∧
    StageCost.ofGrids (Mat.identity 2 : Mat Float 2 2).toGrid P.toGrid =
      .error (.notSymmetric "R") ∧
    (¬ P.maxAbs < Scalar.abs (P.entry 0 1) ∧ ∃ k l, P.maxAbs = Scalar.abs (P.entry k l)) ∧
    (Mat.ofReal ((2 : ℝ) ^ 30 • (Qp.Problem.skewed (2⁻¹ ^ 30)).P)).IsSkewed := by
  let _ := Precision.double
  have hSmall : (0 : ℝ) ≤ 2⁻¹ ^ 30 := by positivity
  intro P A
  obtain ⟨hLargest, hCost, hState, hInput, hExact⟩ := refused_iff_isSkewed (S := Float)
  have hP : P.isFinite = true := by decide +kernel
  have hSkewed : P.IsSkewed := ⟨0, 1, by decide +kernel⟩
  have hIdentity : ¬ (Mat.identity 2 : Mat Float 2 2).IsSkewed := by
    unfold Mat.IsSkewed
    decide +kernel
  refine ⟨?_, ?_, ?_, hLargest P hP 0 1, ?_⟩
  · exact (hCost P A .standard (Settings.validate_eq_ok_iff.mpr (by decide +kernel)) hP
      (by decide +kernel)).mpr hSkewed
  · exact (hState P P.toGrid hP).mpr hSkewed
  · exact (hInput (Mat.identity 2) P (by decide +kernel) hP).mpr ⟨hIdentity, hSkewed⟩
  · refine (hExact (Qp.Problem.skewed _).P _ (by positivity)).1.mpr ⟨0, 1, ?_⟩
    rw [Qp.Problem.norm_skewed hSmall, Qp.Problem.skewed_gap hSmall]
    have hRoot : Real.sqrt Precision.epsilon = 2⁻¹ ^ 26 := Precision.sqrt_epsilon_double
    rw [hRoot]
    norm_num

/-- A small matrix passes with a zero opposite to its largest entry, beyond every share of that
entry. Multiplied by `2³⁰` it is refused. -/
theorem small_skewed_accepted :
    letI := Precision.double
    let p : Qp.Problem 2 0 := .skewed (2⁻¹ ^ 30)
    (∃ s, p.setup .standard = .ok s) ∧
      (∃ i j, Real.sqrt Precision.epsilon * ‖fun i j => p.P i j‖ < |p.P i j - p.P j i|) ∧
      ({ p with P := (2 : ℝ) ^ 30 • p.P } : Qp.Problem 2 0).setup .standard =
        .error (.notSymmetric "P") := by
  let _ := Precision.double
  intro p
  have hSmall : (0 : ℝ) ≤ 2⁻¹ ^ 30 := by positivity
  have hRoot : Real.sqrt Precision.epsilon = 2⁻¹ ^ 26 := Precision.sqrt_epsilon_double
  refine ⟨?_, ⟨0, 1, ?_⟩, ?_⟩
  · refine Qp.Problem.exists_setup_of_isNearlySymmetric (Mat.isNearlySymmetric_ofReal_iff.mpr ?_)
      Settings.standard_isValid (Qp.Problem.system_posDef (p := p.mirrored)
        (Qp.Problem.mirror_skewed_posSemidef hSmall) Settings.standard_isValid.rho_pos.le
        (by norm_num [Settings.standard]))
    intro i j
    have hGap := (abs_sub _ _).trans
      (add_le_add (Qp.Problem.abs_skewed_le hSmall i j) (Qp.Problem.abs_skewed_le hSmall j i))
    have hShare : Real.sqrt Precision.epsilon * 1 ≤ Mat.symmetryTolerance p.P :=
      mul_le_mul_of_nonneg_left (le_max_right _ _) (Real.sqrt_nonneg _)
    rw [hRoot] at hShare
    refine (hGap.trans ?_).trans hShare
    norm_num
  · rw [Qp.Problem.norm_skewed hSmall, Qp.Problem.skewed_gap hSmall, hRoot]
    norm_num
  · refine (Qp.Solver.setup_notSymmetric_iff ?_ (Mat.isFinite_ofReal _)
      (Mat.isFinite_ofReal _)).mpr ((Mat.isSkewed_smul_iff (by positivity)).mpr ⟨0, 1, ?_⟩)
    · exact Settings.validate_ofReal_eq_ok_iff.mpr Settings.standard_isValid
    · rw [Qp.Problem.norm_skewed hSmall, Qp.Problem.skewed_gap hSmall, hRoot]
      norm_num

end RecedingHorizon
