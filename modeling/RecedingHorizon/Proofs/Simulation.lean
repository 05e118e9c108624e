import RecedingHorizon.Prediction
import RecedingHorizon.Proofs.Acceptance
import RecedingHorizon.Proofs.Stacking

/-!
# Prediction is simulation

`LinearModel.simulate` steps a model through a list of inputs, and `LinearModel.rollout` is
what it reaches with the first stages of a stacked input (`simulate_take_blocks`). Over the
reals the states of a rollout have a closed form, `response`, by induction on the stage.
Block `k` of a prediction is that closed form after `k + 1` stages, so it is the state that
the simulation reaches (`block_states_ofReal`, `predict_eq_simulate`).
-/

namespace RecedingHorizon

open Extended Matrix

/-! ## Simulation -/

/-- The stages of a stacked vector, first to last. -/
def Vec.blocks {S : Type} {N b : ℕ} (u : Vec S (N * b)) : List (Array S) :=
  List.ofFn fun k => (u.block k).toArray

theorem Vec.take_succ_blocks {S : Type} {N b : ℕ} (u : Vec S (N * b)) (k : Fin N) :
    u.blocks.take (k + 1) = u.blocks.take k ++ [(u.block k).toArray] := by
  have hk : (k : ℕ) < u.blocks.length := by simp [blocks]
  rw [List.take_succ_eq_append_getElem hk]
  simp [blocks]

namespace LinearModel

section Rollout

variable {S : Type} [Scalar S] {nx nu N : ℕ}

theorem step_toArray (model : LinearModel S nx nu) (x : Vec S nx) (u : Vec S nu) :
    model.step x.toArray u.toArray = .ok (model.next x u) := by
  rw [step, Check.length_toArray, Check.length_toArray]
  rfl

/-- The state after the first `k` stages of a stacked input. -/
def rollout (model : LinearModel S nx nu) (x : Vec S nx) (u : Vec S (N * nu)) :
    (k : ℕ) → k ≤ N → Vec S nx
  | 0, _ => x
  | k + 1, h => model.next (rollout model x u k (Nat.le_of_succ_le h)) (u.block ⟨k, h⟩)

theorem step_rollout (model : LinearModel S nx nu) (x : Vec S nx) (u : Vec S (N * nu))
    (k : Fin N) :
    model.step (model.rollout x u k k.isLt.le).toArray (u.block k).toArray =
      .ok (model.rollout x u (k + 1) k.isLt) :=
  model.step_toArray _ _

/-- The state after one step for each input of a list, up to the first that is refused. -/
def simulate (model : LinearModel S nx nu) (x : Array S) (inputs : List (Array S)) :
    Except (Fault S) (Array S) :=
  inputs.foldlM (fun x u => do return (← model.step x u).toArray) x

theorem simulate_concat (model : LinearModel S nx nu) (x : Array S) (inputs : List (Array S))
    (u : Array S) :
    model.simulate x (inputs ++ [u]) = do
      let last ← model.simulate x inputs
      return (← model.step last u).toArray := by
  simp only [simulate, List.foldlM_append, List.foldlM_cons, List.foldlM_nil, bind_pure]

/-- No step is refused in a simulation of the first stages. -/
theorem simulate_take_blocks (model : LinearModel S nx nu) (x : Vec S nx) (u : Vec S (N * nu))
    (k : ℕ) (hk : k ≤ N) :
    model.simulate x.toArray (u.blocks.take k) = .ok (model.rollout x u k hk).toArray := by
  induction k with
  | zero => rfl
  | succ k ih =>
    rw [Vec.take_succ_blocks u ⟨k, hk⟩, simulate_concat, ih (Nat.le_of_succ_le hk), ok_bind,
      model.step_rollout x u ⟨k, hk⟩, ok_bind]
    rfl

end Rollout

variable {nx nu N : ℕ} (A : Matrix (Fin nx) (Fin nx) ℝ) (B : Matrix (Fin nx) (Fin nu) ℝ)
  (x : Fin nx → ℝ) (u : Fin (N * nu) → ℝ)

def ofReal : LinearModel Extended nx nu where
  A := Mat.ofReal A
  B := Mat.ofReal B

/-- The state after the first `k` stages in closed form. -/
def response (k : ℕ) : Fin nx → ℝ :=
  A ^ k *ᵥ x + ∑ j : Fin N, if (j : ℕ) < k then (A ^ (k - 1 - j) * B) *ᵥ Stage.block u j else 0

theorem response_zero : response A B x u 0 = x := by simp [response]

theorem response_succ (k : Fin N) :
    response A B x u (k + 1) = A *ᵥ response A B x u k + B *ᵥ Stage.block u k := by
  -- a new stage applies `A` to each earlier share and adds its own
  have hShare : ∀ j : Fin N, (if (j : ℕ) < k + 1 then
        (A ^ ((k : ℕ) + 1 - 1 - j) * B) *ᵥ Stage.block u j else 0) =
      A *ᵥ (if (j : ℕ) < k then (A ^ ((k : ℕ) - 1 - j) * B) *ᵥ Stage.block u j else 0) +
        if k = j then B *ᵥ Stage.block u j else 0 := by
    intro j
    rcases lt_trichotomy (j : ℕ) k with hj | hj | hj
    · have hPower : (k : ℕ) + 1 - 1 - j = (k : ℕ) - 1 - j + 1 := by omega
      rw [if_pos (by omega), if_pos hj, if_neg (fun h => by omega), add_zero, mulVec_mulVec,
        ← Matrix.mul_assoc, ← pow_succ', hPower]
    · have hkj : k = j := Fin.ext hj.symm
      subst hkj
      rw [if_pos (by omega), if_neg (by omega), if_pos rfl, mulVec_zero, zero_add,
        show (k : ℕ) + 1 - 1 - k = 0 by omega, pow_zero, Matrix.one_mul]
    · rw [if_neg (by omega), if_neg (by omega), if_neg (fun h => by omega), mulVec_zero, add_zero]
  unfold response
  rw [Finset.sum_congr rfl fun j _ => hShare j, Finset.sum_add_distrib,
    Finset.sum_ite_eq, if_pos (Finset.mem_univ k), mulVec_add, mulVec_sum, mulVec_mulVec,
    ← pow_succ', add_assoc]

/-- A state that an input holds stays where it is while the input is repeated. -/
theorem response_tile {v : Fin nu → ℝ} (h : A *ᵥ x + B *ᵥ v = x) {k : ℕ} (hk : k ≤ N) :
    response A B x (Stage.tile N v) k = x := by
  induction k with
  | zero => exact response_zero ..
  | succ k ih => rw [response_succ A B x _ ⟨k, hk⟩, ih (Nat.le_of_succ_le hk), Stage.block_tile, h]

variable [Precision]

theorem ofGrids_ofReal :
    ofGrids { rows := nx, cols := nx, entries := Mat.ofReal A }
      { rows := nx, cols := nu, entries := Mat.ofReal B } = .ok (.ofReal A B) := by
  have hA : Check.finiteEntries "A" (Mat.ofReal A) = .ok () :=
    Check.finiteEntries_eq_ok_iff.mpr (Mat.isFinite_ofReal A)
  have hB : Check.finiteEntries "B" (Mat.ofReal B) = .ok () :=
    Check.finiteEntries_eq_ok_iff.mpr (Mat.isFinite_ofReal B)
  simp only [ofGrids, Check.square, dif_pos, ok_bind, Mat.castCols, hA, hB]
  rfl

/-- The entries of a model are real. -/
theorem exists_ofReal_of_ofGrids {A B : Grid Extended} {model : LinearModel Extended A.rows B.cols}
    (h : ofGrids A B = .ok model) : ∃ A' B', model = .ofReal A' B' := by
  obtain ⟨hA, hB⟩ := isFinite_of_ofGrids h
  obtain ⟨A', hA⟩ := Mat.exists_ofReal hA
  obtain ⟨B', hB⟩ := Mat.exists_ofReal hB
  exact ⟨A', B', by rw [ofReal, ← hA, ← hB]⟩

theorem next_ofReal (v : Fin nu → ℝ) :
    (ofReal A B).next (Vec.ofReal x) (Vec.ofReal v) = Vec.ofReal (A *ᵥ x + B *ᵥ v) := by
  simp only [next, ofReal, Mat.mulVec_ofReal, Vec.add_ofReal]

theorem rollout_ofReal (k : ℕ) (hk : k ≤ N) :
    (ofReal A B).rollout (Vec.ofReal x) (Vec.ofReal u) k hk =
      Vec.ofReal (response A B x u k) := by
  induction k with
  | zero => rw [rollout, response_zero]
  | succ k ih =>
    rw [rollout, ih, Vec.block_ofReal, next_ofReal, ← response_succ A B x u ⟨k, hk⟩]

end LinearModel

/-! ## Prediction -/

namespace Prediction

variable {nx nu N : ℕ} (A : Matrix (Fin nx) (Fin nx) ℝ) (B : Matrix (Fin nx) (Fin nu) ℝ)

def realE (N : ℕ) : Matrix (Fin (N * nx)) (Fin nx) ℝ :=
  Matrix.of fun i j => (A ^ ((Stage.of i : ℕ) + 1)) (Stage.offset i) j

def realF (N : ℕ) : Matrix (Fin (N * nx)) (Fin (N * nu)) ℝ :=
  Matrix.of fun i j => if Stage.of j ≤ Stage.of i then
    (A ^ ((Stage.of i : ℕ) - Stage.of j) * B) (Stage.offset i) (Stage.offset j) else 0

theorem block_realE_mulVec (x : Fin nx → ℝ) (k : Fin N) :
    Stage.block (realE A N *ᵥ x) k = A ^ ((k : ℕ) + 1) *ᵥ x := by
  funext j
  change ∑ i, realE A N (Stage.index k j) i * x i = ∑ i, (A ^ ((k : ℕ) + 1)) j i * x i
  simp only [realE, of_apply, Stage.of_index, Stage.offset_index]

theorem block_realF_mulVec (u : Fin (N * nu) → ℝ) (k : Fin N) :
    Stage.block (realF A B N *ᵥ u) k = ∑ j : Fin N, if (j : ℕ) < k + 1 then
      (A ^ ((k : ℕ) + 1 - 1 - j) * B) *ᵥ Stage.block u j else 0 := by
  funext o
  change ∑ i, realF A B N (Stage.index k o) i * u i = _
  rw [Stage.sum_eq, Finset.sum_apply]
  apply Finset.sum_congr rfl
  intro j _
  simp only [realF, of_apply, Stage.of_index, Stage.offset_index]
  by_cases hj : j ≤ k
  · rw [if_pos (Nat.lt_succ_of_le hj)]
    simp only [if_pos hj]
    rfl
  · rw [if_neg (fun h => hj (Nat.le_of_lt_succ h))]
    simp only [if_neg hj, zero_mul, Finset.sum_const_zero]
    rfl

theorem block_real_eq_response (x : Fin nx → ℝ) (u : Fin (N * nu) → ℝ) (k : Fin N) :
    Stage.block (realF A B N *ᵥ u + realE A N *ᵥ x) k = LinearModel.response A B x u (k + 1) := by
  rw [LinearModel.response, ← block_realE_mulVec, ← block_realF_mulVec, add_comm]
  rfl

variable [Precision]

theorem repeat_mul_ofReal {p : ℕ} (M : Matrix (Fin nx) (Fin p) ℝ) (k : ℕ) :
    Nat.repeat (Mat.ofReal A).mul k (Mat.ofReal M) = Mat.ofReal (A ^ k * M) := by
  induction k with
  | zero => rw [pow_zero, Matrix.one_mul]; rfl
  | succ k ih => rw [Nat.repeat, ih, Mat.mul_ofReal, ← Matrix.mul_assoc, ← pow_succ']

theorem unroll_ofReal (N : ℕ) :
    unroll (.ofReal A B) N =
      { E := Mat.ofReal (realE A N), F := Mat.ofReal (realF A B N) } := by
  have hE : (unroll (.ofReal A B) N).E = Mat.ofReal (realE A N) := by
    apply Mat.ext
    intro i j
    simp only [unroll, LinearModel.ofReal, Mat.entry_ofFn, get_iterates, repeat_mul_ofReal,
      Mat.entry_ofReal, realE, of_apply]
    rw [← pow_succ]
    rfl
  have hF : (unroll (.ofReal A B) N).F = Mat.ofReal (realF A B N) := by
    apply Mat.ext
    intro i j
    simp only [unroll, LinearModel.ofReal, Mat.entry_ofFn, get_iterates, repeat_mul_ofReal,
      Mat.entry_ofReal, realF, of_apply]
    split <;> rfl
  rw [← hE, ← hF]

theorem states_ofReal (N : ℕ) (x : Fin nx → ℝ) (u : Fin (N * nu) → ℝ) :
    (unroll (.ofReal A B) N).states (Vec.ofReal x) (Vec.ofReal u) =
      Vec.ofReal (realF A B N *ᵥ u + realE A N *ᵥ x) := by
  rw [unroll_ofReal, states, Mat.mulVec_ofReal, Mat.mulVec_ofReal, Vec.add_ofReal]

/-- Stage `k` of the prediction is the state that the simulation reaches after it. -/
theorem block_states_ofReal (x : Fin nx → ℝ) (u : Fin (N * nu) → ℝ) (k : Fin N) :
    ((unroll (.ofReal A B) N).states (Vec.ofReal x) (Vec.ofReal u)).block k =
      (LinearModel.ofReal A B).rollout (Vec.ofReal x) (Vec.ofReal u) (k + 1) k.isLt := by
  rw [states_ofReal, Vec.block_ofReal, block_real_eq_response, LinearModel.rollout_ofReal]

theorem predict_toArray {h p n : ℕ} (c : Prediction Extended h p n) (x : Vec Extended p)
    (u : Vec Extended n) : c.predict x.toArray u.toArray = .ok (c.states x u) := by
  rw [predict, Check.length_toArray, Check.length_toArray]
  rfl

/-- **Prediction.** Every model predicts over every positive number of stages, from every real
state and stacked input. Block `k` of the prediction is the state that the model steps to with
the first `k + 1` inputs. -/
theorem predict_eq_simulate {A B : Grid Extended} {model : LinearModel Extended A.rows B.cols}
    (hModel : LinearModel.ofGrids A B = .ok model) {N : ℕ} (hN : 1 ≤ N) (x : Fin A.rows → ℝ)
    (u : Fin (N * B.cols) → ℝ) :
    ∃ (c : Prediction Extended (N * A.rows) A.rows (N * B.cols)) (states : Fin (N * A.rows) → ℝ),
      ofModel model N = .ok c ∧
      c.predict (Vec.ofReal x).toArray (Vec.ofReal u).toArray = .ok (Vec.ofReal states) ∧
      ∀ k : Fin N, model.simulate (Vec.ofReal x).toArray ((Vec.ofReal u).blocks.take (k + 1)) =
        .ok ((Vec.ofReal states).block k).toArray := by
  obtain ⟨A', B', rfl⟩ := LinearModel.exists_ofReal_of_ofGrids hModel
  refine ⟨unroll (.ofReal A' B') N, realF A' B' N *ᵥ u + realE A' N *ᵥ x,
    if_neg (Nat.not_lt.mpr hN), ?_, fun k => ?_⟩
  · rw [predict_toArray, states_ofReal]
  · rw [LinearModel.simulate_take_blocks _ _ _ _ k.isLt, ← states_ofReal, block_states_ofReal]

omit [Precision] in
/-- A point mass pushed with `3` and then with `5`. -/
theorem point_mass_predict_eq_simulate :
    letI := Precision.double
    let A : Matrix (Fin 2) (Fin 2) ℝ := !![1, 1; 0, 1]
    let B : Matrix (Fin 2) (Fin 1) ℝ := !![0; 1]
    let x : Fin 2 → ℝ := ![1, -1]
    let u : Fin (2 * 1) → ℝ := ![3, 5]
    ∃ (model : LinearModel Extended 2 1) (c : Prediction Extended (2 * 2) 2 (2 * 1))
      (states : Fin (2 * 2) → ℝ),
      LinearModel.ofGrids { rows := 2, cols := 2, entries := Mat.ofReal A }
        { rows := 2, cols := 1, entries := Mat.ofReal B } = .ok model ∧
      ofModel model 2 = .ok c ∧
      c.predict (Vec.ofReal x).toArray (Vec.ofReal u).toArray = .ok (Vec.ofReal states) ∧
      model.simulate (Vec.ofReal x).toArray [(Vec.ofReal ![3]).toArray, (Vec.ofReal ![5]).toArray] =
        .ok ((Vec.ofReal states).block 1).toArray := by
  let _ := Precision.double
  intro A B x u
  have hModel := LinearModel.ofGrids_ofReal A B
  obtain ⟨c, states, hc, hPredict, hSimulate⟩ := predict_eq_simulate hModel one_le_two x u
  exact ⟨_, c, states, hModel, hc, hPredict, hSimulate 1⟩

end Prediction

end RecedingHorizon
