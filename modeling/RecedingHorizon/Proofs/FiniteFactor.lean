import RecedingHorizon.Proofs.Acceptance
import RecedingHorizon.Proofs.MachineArithmetic

/-!
# Factors that are handed out are finite

The factorization lets an infinite pivot pass, and only the diagonal of its result is looked at. But
a pivot is what is left of a diagonal entry when the squares of its row of the factor are taken away
one after the other, and no positive number is left when one of these is infinite or no number. So
the entries below the diagonal are finite whenever all pivots are positive
(`Mat.finite_of_cholesky`).
-/

namespace RecedingHorizon

open Scalar KeepsSigns

variable {S : Type} [Scalar S] [KeepsSigns S]

namespace Mat

variable {n : ℕ}

/-- A matrix that is factored has a positive diagonal, and its factor has finite entries below
the diagonal. -/
theorem finite_of_cholesky {M L : Mat S n n} (h : M.cholesky = some L) :
    (∀ i, 0 < M.entry i i) ∧ ∀ i j, j < i → Scalar.isFinite (L.entry i j) = true := by
  induction n with
  | zero => exact ⟨fun i => i.elim0, fun i => i.elim0⟩
  | succ n ih =>
    rw [cholesky] at h
    split_ifs at h with hPivot
    obtain ⟨K, hK, rfl⟩ := Option.map_eq_some_iff.mp h
    obtain ⟨hDiagonal, hBelow⟩ := ih hK
    -- the diagonal of the remainder shows each square of the first column that was taken away
    have hTaken : ∀ i : Fin n, 0 < M.entry i.succ i.succ -
        M.factorColumn.get i * M.factorColumn.get i := by
      intro i
      have hi := hDiagonal i
      rwa [remainder, entry_ofFn] at hi
    constructor
    · intro i
      cases i using Fin.cases with
      | zero => exact hPivot
      | succ i => exact pos_of_sub_pos (hTaken i) (square_not_neg _)
    · intro i j hij
      rw [bordered, entry_ofFn]
      cases i using Fin.cases with
      | zero => exact absurd hij (Fin.not_lt_zero j)
      | succ i =>
        cases j using Fin.cases with
        | zero => exact finite_of_sub_square_pos (hTaken i)
        | succ j => exact hBelow i j (Fin.succ_lt_succ_iff.mp hij)

theorem sound_of_hasSoundDiagonal {L : Mat S n n} (h : L.hasSoundDiagonal = true) (i : Fin n) :
    Scalar.isFinite (L.entry i i) = true ∧ 0 < L.entry i i := by
  have hi := List.all_eq_true.mp h i (List.mem_finRange i)
  rw [Bool.and_eq_true, Bool.not_eq_true', decide_eq_false_iff_not] at hi
  exact ⟨hi.1, pos_of_finite hi.1 hi.2⟩

end Mat

/-- **Factors are finite.** In every arithmetic whose signs can be trusted, binary64 and binary32
among them, the factor that a setup hands out is finite on and below its diagonal, and the diagonal
is positive. -/
theorem factor_finite_of_ofGrids {P A : Grid S} {settings : Settings S}
    {s : Qp.Solver S P.rows A.rows} (hs : Qp.Solver.ofGrids P A settings = .ok s) :
    (∀ i j, j ≤ i → isFinite (s.factor.entry i j) = true) ∧ ∀ i, 0 < s.factor.entry i i := by
  obtain ⟨_, _, hSetup⟩ := Qp.Solver.setup_of_ofGrids hs
  obtain ⟨-, -, -, -, L, hFactor, rfl⟩ := Qp.Solver.setup_eq_ok_iff.mp hSetup
  obtain ⟨hCholesky, hSound⟩ := Qp.factorize_eq_ok_iff.mp hFactor
  have hDiagonal := Mat.sound_of_hasSoundDiagonal hSound
  refine ⟨fun i j hij => ?_, fun i => (hDiagonal i).2⟩
  obtain hij | rfl := hij.lt_or_eq
  · exact (Mat.finite_of_cholesky hCholesky).2 i j hij
  · exact (hDiagonal j).1

/-- A setup in binary64 with a row that couples the variables. -/
theorem coupled_factor_finite_binary64 :
    let P : Grid Float := { rows := 2, cols := 2, entries := ⟨#v[#v[4, 2], #v[2, 5]]⟩ }
    let A : Grid Float := { rows := 1, cols := 2, entries := ⟨#v[#v[1, 1]]⟩ }
    ∃ s, Qp.Solver.ofGrids P A .standard = .ok s ∧
      (∀ i j, j ≤ i → isFinite (s.factor.entry i j) = true) ∧ ∀ i, 0 < s.factor.entry i i := by
  intro P A
  have hSome : (Qp.Solver.ofGrids P A .standard).toOption.isSome = true := by decide +kernel
  cases hs : Qp.Solver.ofGrids P A .standard with
  | error fault =>
    rw [hs] at hSome
    cases hSome
  | ok s => exact ⟨s, rfl, factor_finite_of_ofGrids hs⟩

/-- A row whose square overflows makes an infinite pivot, which is refused at the end. -/
example :
    let P : Grid Float := { rows := 1, cols := 1, entries := ⟨#v[#v[1]]⟩ }
    let A : Grid Float := { rows := 1, cols := 1, entries := ⟨#v[#v[1e200]]⟩ }
    (match Qp.Solver.ofGrids P A .standard with
      | .ok _ => none
      | .error fault => some fault) == some (.factorization 1 .degeneratePivot) := by
  decide +kernel

end RecedingHorizon
