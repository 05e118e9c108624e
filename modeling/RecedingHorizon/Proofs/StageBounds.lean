import RecedingHorizon.Proofs.Limits

/-!
# Stacked bounds are bounds of every stage

The program of a controller bounds the rows of the constraint matrix. Between the stacked sides of
a set of bounds these rows say that the input of every stage lies in its box and that every
change of the input lies in its own, whatever the bounds are: infinite, crossed, or no numbers at
all. Bounds that were made from those of one stage put the same box on every stage and on every
transition (`stacked_bounds_iff`).
-/

namespace RecedingHorizon

open Extended Matrix

namespace Vec

variable {S : Type} [Scalar S] {m n N b : ℕ}

/-- Whether each entry lies between its bounds. -/
def Between (lo hi v : Vec S n) : Prop := ∀ i, lo.get i ≤ v.get i ∧ v.get i ≤ hi.get i

theorem between_append_iff {lo hi v : Vec S m} {lo' hi' v' : Vec S n} :
    Between (lo ++ lo') (hi ++ hi') (v ++ v') ↔ Between lo hi v ∧ Between lo' hi' v' := by
  refine (Fin.forall_fin_add _).trans ?_
  simp only [get_append_castAdd, get_append_natAdd]
  rfl

theorem between_iff_block {lo hi v : Vec S (N * b)} :
    Between lo hi v ↔ ∀ k, Between (lo.block k) (hi.block k) (v.block k) := by
  refine (Stage.forall_iff _).trans ?_
  simp only [← get_block]
  rfl

end Vec

namespace InputBounds

variable {S : Type} [Scalar S] {nu N : ℕ}

theorem ofStacked_toArray {n k : ℕ} (lo hi : Vec S n) (rateLo rateHi : Vec S k) :
    ofStacked lo.toArray hi.toArray rateLo.toArray rateHi.toArray = do
      Check.ordered "u_min_hat, u_max_hat" lo hi
      Check.ordered "du_min_hat, du_max_hat" rateLo rateHi
      return {
        inputMin := lo.toArray
        inputMax := hi.toArray
        rateMin := rateLo.toArray
        rateMax := rateHi.toArray } := by
  obtain ⟨lo, rfl⟩ := lo
  obtain ⟨rateLo, rfl⟩ := rateLo
  rw [ofStacked, Check.length_toArray, ok_bind, Check.length_toArray]
  rfl

/-- Bounds of one stage are repeated, and judged when they have been. -/
theorem ofStage_toArray (hN : 1 ≤ N) (lo hi rateLo rateHi : Vec S nu) :
    ofStage lo.toArray hi.toArray rateLo.toArray rateHi.toArray N =
      ofStacked (Vec.tile N lo).toArray (Vec.tile N hi).toArray (Vec.tile (N - 1) rateLo).toArray
        (Vec.tile (N - 1) rateHi).toArray := by
  rw [ofStage, if_neg (Nat.not_lt.mpr hN), lo.size_toArray]
  simp only [Check.length_toArray, ok_bind, tile_toArray]

/-- Bounds of one stage are accepted when there is a stage and the repeated bounds are in order. -/
theorem ofStage_eq_ok_iff {lo hi rateLo rateHi : Vec S nu} {b : InputBounds S} :
    ofStage lo.toArray hi.toArray rateLo.toArray rateHi.toArray N = .ok b ↔
      1 ≤ N ∧ (∀ i, (Vec.tile N lo).get i ≤ (Vec.tile N hi).get i) ∧
        (∀ i, (Vec.tile (N - 1) rateLo).get i ≤ (Vec.tile (N - 1) rateHi).get i) ∧
        b = {
          inputMin := (Vec.tile N lo).toArray
          inputMax := (Vec.tile N hi).toArray
          rateMin := (Vec.tile (N - 1) rateLo).toArray
          rateMax := (Vec.tile (N - 1) rateHi).toArray } := by
  by_cases hN : 1 ≤ N
  · rw [ofStage_toArray hN, ofStacked_toArray, check_bind_eq_ok_iff, check_bind_eq_ok_iff,
      Check.ordered_eq_ok_iff, Check.ordered_eq_ok_iff]
    simp only [hN, true_and, pure, Except.pure, Except.ok.injEq, eq_comm (a := b)]
  · rw [ofStage, if_pos (by omega)]
    simp only [hN, false_and, iff_false]
    intro h
    cases h

end InputBounds

/-- The constraint rows lie between stacked bounds exactly when each input and each change of the
input lie between their own. -/
theorem Plant.rows_between_iff [Precision] {nu N : ℕ} {lo hi : Vec Extended (N * nu)}
    {rateLo rateHi : Vec Extended ((N - 1) * nu)} {u : Fin (N * nu) → ℝ} :
    Vec.Between (lo ++ rateLo) (hi ++ rateHi)
        ((Mat.differences nu N).boxAbove.mulVec (Vec.ofReal u)) ↔
      (∀ k, Vec.Between (lo.block k) (hi.block k) ((Vec.ofReal u).block k)) ∧
        ∀ k, Vec.Between (rateLo.block k) (rateHi.block k)
          (((Vec.ofReal u).block (Stage.after k)).sub ((Vec.ofReal u).block (Stage.before k))) := by
  rw [constraints_ofReal, Mat.mulVec_ofReal, constraints_mulVec_append, Vec.between_append_iff,
    Vec.between_iff_block, Vec.between_iff_block]
  simp only [block_differences_ofReal]

/-- **Stacked bounds.** The rows of the constraint matrix lie between the stacked sides of a set of
bounds exactly when the input of each stage lies in its box and its change in each transition
lies in its own. When the bounds repeat those of one stage, the rows ask for just these at every
stage and in every transition. -/
theorem stacked_bounds_iff [Precision] (nu N : ℕ) :
    (∀ b : Sides nu N,
      ∃ lower upper, b.bounds.lower = lower.toArray ∧ b.bounds.upper = upper.toArray ∧
        ∀ u : Fin (N * nu) → ℝ,
          Vec.Between lower upper ((Mat.differences nu N).boxAbove.mulVec (Vec.ofReal u)) ↔
            (∀ k, Vec.Between (b.inputMin.block k) (b.inputMax.block k)
              ((Vec.ofReal u).block k)) ∧
            ∀ k, Vec.Between (b.rateMin.block k) (b.rateMax.block k)
              (((Vec.ofReal u).block (Stage.after k)).sub ((Vec.ofReal u).block (Stage.before k)))) ∧
    ∀ (lo hi rateLo rateHi : Vec Extended nu) (b : InputBounds Extended),
      InputBounds.ofStage lo.toArray hi.toArray rateLo.toArray rateHi.toArray N = .ok b →
      ∃ lower upper, b.lower = lower.toArray ∧ b.upper = upper.toArray ∧
        ∀ u : Fin (N * nu) → ℝ,
          Vec.Between lower upper ((Mat.differences nu N).boxAbove.mulVec (Vec.ofReal u)) ↔
            (∀ k : Fin N, Vec.Between lo hi ((Vec.ofReal u).block k)) ∧
            ∀ k : Fin (N - 1), Vec.Between rateLo rateHi
              (((Vec.ofReal u).block (Stage.after k)).sub ((Vec.ofReal u).block (Stage.before k))) := by
  constructor
  · intro b
    exact ⟨b.inputMin ++ b.rateMin, b.inputMax ++ b.rateMax, Vector.toArray_append.symm,
      Vector.toArray_append.symm, fun u => Plant.rows_between_iff⟩
  · intro lo hi rateLo rateHi b hb
    obtain ⟨-, -, -, rfl⟩ := InputBounds.ofStage_eq_ok_iff.mp hb
    refine ⟨_, _, Vector.toArray_append.symm, Vector.toArray_append.symm, fun u => ?_⟩
    rw [Plant.rows_between_iff]
    simp only [Vec.block_tile]

/-- Two inputs over three stages, not below zero, and changing by at most one: the inputs may
stay at zero but not rise by two in each transition. -/
theorem ramp_not_between :
    letI := Precision.double
    let lo : Vec Extended 2 := Vec.ofReal 0
    let hi : Vec Extended 2 := Vec.ofFn fun _ => posInf
    let rateLo : Vec Extended 2 := Vec.ofReal (-1)
    let rateHi : Vec Extended 2 := Vec.ofReal 1
    let rest : Fin (3 * 2) → ℝ := 0
    let ramp : Fin (3 * 2) → ℝ := fun i => 2 * (Stage.of i : ℕ)
    let rows := fun u => (Mat.differences 2 3).boxAbove.mulVec (Vec.ofReal u)
    ∃ b lower upper,
      InputBounds.ofStage lo.toArray hi.toArray rateLo.toArray rateHi.toArray 3 = .ok b ∧
      b.lower = lower.toArray ∧ b.upper = upper.toArray ∧
      Vec.Between lower upper (rows rest) ∧ ¬ Vec.Between lower upper (rows ramp) := by
  let _ := Precision.double
  intro lo hi rateLo rateHi rest ramp rows
  have hBox : ∀ i, (Vec.tile 3 lo).get i ≤ (Vec.tile 3 hi).get i := by
    intro i
    rw [Vec.get_tile, Vec.get_tile, Vec.get_ofReal, Vec.get_ofFn]
    trivial
  have hRate : ∀ i, (Vec.tile (3 - 1) rateLo).get i ≤ (Vec.tile (3 - 1) rateHi).get i := by
    intro i
    rw [Vec.get_tile, Vec.get_tile, Vec.get_ofReal, Vec.get_ofReal, finite_le]
    norm_num
  have hAccepted := InputBounds.ofStage_eq_ok_iff.mpr ⟨by norm_num, hBox, hRate, rfl⟩
  obtain ⟨lower, upper, hLower, hUpper, hRows⟩ := (stacked_bounds_iff 2 3).2 _ _ _ _ _ hAccepted
  refine ⟨_, lower, upper, hAccepted, hLower, hUpper, (hRows rest).mpr ⟨?_, ?_⟩, fun h => ?_⟩
  · intro k j
    rw [Vec.get_ofReal, Vec.get_ofFn, Vec.get_block, Vec.get_ofReal]
    exact ⟨finite_le.mpr le_rfl, trivial⟩
  · intro k j
    simp only [Vec.get_sub, Vec.get_block, rateLo, rateHi, rest, Vec.get_ofReal, finite_sub,
      finite_le]
    norm_num
  · have hRise := (((hRows ramp).mp h).2 0 0).2
    simp only [Vec.get_sub, Vec.get_block, rateHi, ramp, Vec.get_ofReal, finite_sub, finite_le,
      Stage.of_index] at hRise
    norm_num [Stage.after, Stage.before] at hRise

end RecedingHorizon
