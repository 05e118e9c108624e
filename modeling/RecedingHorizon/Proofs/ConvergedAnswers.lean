import RecedingHorizon.Proofs.Acceptance
import RecedingHorizon.Proofs.MachineArithmetic

/-!
# Converged answers are finite

The running maximum behind a residual forgets what is no number as soon as a number follows, so a
small residual says little about the entries it was taken from: only the last one must be finite
(`Scalar.finite_last_of_peak`). But each entry of a product multiplies the whole vector. So the last
entry of `A x - w` shows what is not finite anywhere in `x`, and the last entry of `Aᵀ (w - w')`
what is not finite anywhere in `w` (`Solver.finite_of_primal`, `Solver.finite_of_dual`). The two
residuals together vouch for the answer, in every arithmetic in which special values spread.
-/

namespace RecedingHorizon

section Spreading

variable {S : Type} [Scalar S]

/-! ## The running maximum -/

namespace Scalar

theorem exists_mem_peak_eq (x : S) (l : List S) : ∃ y ∈ x :: l, peak (x :: l) = abs y := by
  induction l using List.reverseRecOn with
  | nil => exact ⟨x, List.mem_singleton_self x, rfl⟩
  | append_singleton l z ih =>
    rw [← List.cons_append, peak_concat]
    split_ifs
    · obtain ⟨y, hy, hPeak⟩ := ih
      exact ⟨y, List.mem_append_left [z] hy, hPeak⟩
    · exact ⟨z, List.mem_append_right (x :: l) (List.mem_singleton_self z), rfl⟩

variable [SpreadsNonFinite S]

open SpreadsNonFinite

/-- The last number of a list with a finite peak is finite. -/
theorem finite_last_of_peak {l : List S} {y : S} (h : isFinite (peak (l ++ [y])) = true) :
    isFinite y = true := by
  cases l with
  | nil => rwa [List.nil_append, peak, List.foldl_nil, isFinite_abs] at h
  | cons x l =>
    rw [peak_concat] at h
    split_ifs at h with hLe
    · exact finite_of_abs_le h hLe
    · rwa [isFinite_abs] at h

/-- The numbers before the last one are not vouched for. -/
example : isFinite (peak [0 / 0, (1 : Float)]) = true := by decide +kernel

theorem finite_of_sum {n : ℕ} {f : Fin n → S} (h : isFinite (sum f) = true) (i : Fin n) :
    isFinite (f i) = true := by
  unfold sum at h
  induction n with
  | zero => exact i.elim0
  | succ n ih =>
    rw [Fin.foldl_succ_last] at h
    obtain ⟨hInit, hLast⟩ := finite_of_add h
    cases i using Fin.lastCases with
    | last => exact hLast
    | cast i => exact ih hInit i

end Scalar

/-! ## Residuals of spreading arithmetic -/

namespace Vec

variable {n : ℕ}

omit [Scalar S] in
theorem toList_eq_ofFn (v : Vec S n) : v.toList = List.ofFn v.get := by
  have hEntries : v = ofFn v.get := Vec.ext fun i => (get_ofFn v.get i).symm
  conv_lhs => rw [hEntries]
  exact Vector.toList_ofFn

theorem exists_maxAbs_eq (v : Vec S (n + 1)) : ∃ y, v.maxAbs = Scalar.abs y := by
  rw [maxAbs, toList_eq_ofFn, List.ofFn_succ]
  obtain ⟨y, -, hPeak⟩ :=
    Scalar.exists_mem_peak_eq (v.get 0) (List.ofFn fun i => v.get (Fin.succ i))
  exact ⟨y, hPeak⟩

theorem finite_last_of_maxAbs [Scalar.SpreadsNonFinite S] {v : Vec S (n + 1)}
    (h : Scalar.isFinite v.maxAbs = true) : Scalar.isFinite (v.get (Fin.last n)) = true := by
  rw [maxAbs, toList_eq_ofFn, List.ofFn_succ_last] at h
  exact Scalar.finite_last_of_peak h

end Vec

open Scalar SpreadsNonFinite

variable [SpreadsNonFinite S]

namespace Mat

variable {m n : ℕ} {M : Mat S m n}

/-- Each entry of a product shows whether the whole vector is finite. -/
theorem finite_of_mulVec {v : Vec S n} {i : Fin m}
    (h : Scalar.isFinite ((M.mulVec v).get i) = true) : v.isFinite = true := by
  rw [get_mulVec] at h
  exact (Vec.isFinite_iff v).mpr fun j => (finite_of_mul (finite_of_sum h j)).2

theorem finite_of_transposeMulVec {v : Vec S m} {j : Fin n}
    (h : Scalar.isFinite ((M.transposeMulVec v).get j) = true) : v.isFinite = true := by
  rw [get_transposeMulVec] at h
  exact (Vec.isFinite_iff v).mpr fun i => (finite_of_mul (finite_of_sum h i)).2

end Mat

namespace Qp

variable {n m : ℕ} {s : Solver S n m} {before after : Iterate S n m} {t : S}

namespace Solver

/-- A small primal residual vouches for the point, when there is a row. -/
theorem finite_of_primal (hm : 0 < m) (ht : isFinite t = true)
    (h : (s.residuals before after).primal ≤ t) : after.x.isFinite = true := by
  obtain ⟨k, rfl⟩ := Nat.exists_eq_add_one.mpr hm
  obtain ⟨y, hy⟩ := ((s.constraints.mulVec after.x).sub after.w).exists_maxAbs_eq
  rw [residuals, hy] at h
  have hPeak := isFinite_abs y
  rw [finite_of_abs_le ht h, ← hy] at hPeak
  have hLast := Vec.finite_last_of_maxAbs hPeak
  rw [Vec.get_sub] at hLast
  exact Mat.finite_of_mulVec (finite_of_sub hLast).1

/-- A small dual residual vouches for the slack, when there is a variable. -/
theorem finite_of_dual (hn : 0 < n) (hRho : isFinite s.settings.rho = true)
    (hPos : ¬ s.settings.rho ≤ 0) (ht : isFinite t = true)
    (h : (s.residuals before after).dual ≤ t) : after.w.isFinite = true := by
  obtain ⟨k, rfl⟩ := Nat.exists_eq_add_one.mpr hn
  obtain ⟨y, hy⟩ := (s.constraints.transposeMulVec (after.w.sub before.w)).exists_maxAbs_eq
  rw [residuals, hy] at h
  have hPeak := isFinite_abs y
  rw [finite_of_mul_abs_le hRho hPos ht h, ← hy] at hPeak
  have hMove := (Vec.isFinite_iff _).mp
    (Mat.finite_of_transposeMulVec (Vec.finite_last_of_maxAbs hPeak))
  simp only [Vec.get_sub] at hMove
  exact (Vec.isFinite_iff _).mpr fun i => (finite_of_sub (hMove i)).1

end Solver

end Qp

end Spreading

/-- **Converged answers are finite.** In every arithmetic in which special values spread, binary64
and binary32 among them, an answer with the status converged has a finite point and a finite slack,
when there are variables and rows. -/
theorem converged_answer_finite {S : Type} [Scalar S] [Scalar.SpreadsNonFinite S] {P A : Grid S}
    {settings : Settings S} {s : Qp.Solver S P.rows A.rows}
    (hs : Qp.Solver.ofGrids P A settings = .ok s) (hn : 0 < P.rows) (hm : 0 < A.rows)
    {q lower upper : Array S} {warm : WarmStart S} {k : ℕ} {sol : Qp.Solution S P.rows A.rows}
    (h : s.solveWith q lower upper warm k = .ok sol) (hStatus : sol.status = .converged) :
    sol.z.isFinite = true ∧ sol.w.isFinite = true := by
  obtain ⟨_, _, hSetup⟩ := Qp.Solver.setup_of_ofGrids hs
  obtain ⟨hValid, -, -, -, L, -, rfl⟩ := Qp.Solver.setup_eq_ok_iff.mp hSetup
  obtain ⟨⟨hRho, hPos⟩, -, -, -, ⟨hPrimal, -⟩, hDual, -⟩ := Settings.validate_eq_ok_iff.mp hValid
  obtain ⟨d, z, y, j, -, -, -, -, -, rfl⟩ := Qp.Solver.exists_of_solveWith_eq_ok h
  obtain ⟨hPrimalLe, hDualLe⟩ := Qp.Residuals.status_eq_converged_iff.mp hStatus
  exact ⟨Qp.Solver.finite_of_primal hm hPrimal hPrimalLe,
    Qp.Solver.finite_of_dual hn hRho hPos hDual hDualLe⟩

/-- The start from the solution of `½ z² - z` over `-1 ≤ z ≤ 0` converges in binary64. -/
theorem clippedParabola_finite_binary64 :
    let P : Grid Float := { rows := 1, cols := 1, entries := .identity 1 }
    ∃ s sol, Qp.Solver.ofGrids P P .standard = .ok s ∧
      s.solveWith #[-1] #[-1] #[0] { z := #[0], y := #[1] } 5 = .ok sol ∧
      sol.status = .converged ∧ sol.z.isFinite = true ∧ sol.w.isFinite = true := by
  intro P
  have hRun : ((Qp.Solver.ofGrids P P .standard).bind fun s =>
      (s.solveWith #[-1] #[-1] #[0] { z := #[0], y := #[1] } 5).map (·.status)).toOption =
        some .converged := by decide +kernel
  cases hs : Qp.Solver.ofGrids P P .standard with
  | error fault =>
    rw [hs] at hRun
    cases hRun
  | ok s =>
    cases h : s.solveWith #[-1] #[-1] #[0] { z := #[0], y := #[1] } 5 with
    | error fault =>
      rw [hs, Except.bind, h] at hRun
      cases hRun
    | ok sol =>
      rw [hs, Except.bind, h] at hRun
      have hStatus : sol.status = .converged := Option.some.inj hRun
      exact ⟨s, sol, rfl, h, hStatus,
        converged_answer_finite hs one_pos one_pos h hStatus⟩

end RecedingHorizon
