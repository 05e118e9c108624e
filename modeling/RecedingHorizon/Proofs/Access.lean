import RecedingHorizon.Assembly
import RecedingHorizon.Proofs.Acceptance
import RecedingHorizon.Proofs.Windows

/-!
# Accesses in range

The constructors of a controller work out their sizes and offsets each for itself: powers of `A`
down the blocks of `E`, responses on and below the block diagonal of `F`, copies of the weights,
first differences, a box above them. Each fills its matrix by windows that stay inside, and what
comes out is the matrix of the controller of the same name (`Assembly.build_eq_some`).

A linear cost, a prediction and an action judge the lengths that they are given before the first
product, and after that every slice and every product fits (`Assembly.linearCost_eq_some`,
`Assembly.predict_eq_some`, `Assembly.action_eq_some`).
-/

namespace RecedingHorizon

namespace Assembly

variable {S : Type} [Scalar S] {nx nu N : ℕ} (model : LinearModel S nx nu)

theorem entry_unroll_E (k : Fin N) (i j : Fin nx) :
    (Prediction.unroll model N).E.entry (Stage.index k i) j =
      (Nat.repeat model.A.mul k model.A).entry i j := by
  rw [Prediction.unroll, Mat.entry_ofFn, get_iterates, Stage.of_index, Stage.offset_index]
  rfl

theorem stateResponse?_toGrid :
    stateResponse? model.A.toGrid N = some (Prediction.unroll model N).E.toGrid := by
  let E := (Prediction.unroll model N).E
  have hEnd : E.partly (fun i _ => i < N * nx) = E := Mat.partly_eq_self fun i _ _ => i.isLt
  rw [stateResponse?, foldlM_range_eq_some (fun k =>
    ((E.partly fun i _ => i < k * nx).toGrid, (Nat.repeat model.A.mul k model.A).toGrid))]
  · dsimp only
    rw [hEnd]
    rfl
  · rw [Mat.partly_eq_zeros fun i _ => by simp]
    rfl
  · intro k hk
    have hWrite : (E.partly fun i _ => i < k * nx).toGrid.write? (k * nx) 0 nx nx
        (Nat.repeat model.A.mul k model.A).toGrid =
        some (E.partly fun i _ => i < (k + 1) * nx).toGrid := by
      refine Grid.write?_partly (Stage.window_le hk) (by omega) (fun a b => ?_) fun i j _ => ?_
      · simp only [Stage.mk_eq_index hk, Nat.zero_add]
        exact (entry_unroll_E model ⟨k, hk⟩ a b).symm
      · rw [Nat.succ_mul]
        omega
    dsimp only
    rw [hWrite, Option.bind_eq_bind, Option.bind_some, Grid.mul?_toGrid]
    rfl

theorem entry_unroll_F (k l : Fin N) (i : Fin nx) (j : Fin nu) :
    (Prediction.unroll model N).F.entry (Stage.index k i) (Stage.index l j) =
      if l ≤ k then (Nat.repeat model.A.mul (k - l) model.B).entry i j else 0 := by
  rw [Prediction.unroll, Mat.entry_ofFn, get_iterates]
  simp only [Stage.of_index, Stage.offset_index]
  rfl

/-- Above the block diagonal an input has no effect. -/
theorem le_of_entry_unroll_F_ne_zero {i : Fin (N * nx)} {j : Fin (N * nu)}
    (h : (Prediction.unroll model N).F.entry i j ≠ 0) : (j : ℕ) / nu ≤ i / nx := by
  rw [Prediction.unroll, Mat.entry_ofFn] at h
  by_contra hNot
  exact h (if_neg hNot)

theorem inputResponse?_toGrid :
    inputResponse? model.A.toGrid model.B.toGrid N = some (Prediction.unroll model N).F.toGrid := by
  let F := (Prediction.unroll model N).F
  rw [inputResponse?, Grid.products?_toGrid, Option.bind_eq_bind, Option.bind_some]
  refine Grid.foldlM_rows (fun k => k * nx) (Nat.zero_mul nx) rfl fun k hk => ?_
  rw [foldlM_range_eq_some fun l =>
    (F.partly fun i j => i < k * nx ∨ i < (k + 1) * nx ∧ j < l * nu).toGrid]
  · -- The inner loop ends on the diagonal. What lies beyond it in these rows is zero.
    rw [Mat.partly_congr]
    intro i j hNe
    have hLe := le_of_entry_unroll_F_ne_zero model hNe
    constructor
    · rw [Nat.succ_mul]
      omega
    · intro hRow
      have hStage : (i : ℕ) / nx < k + 1 := Nat.div_lt_of_lt_mul (hRow.trans_eq (Nat.mul_comm _ _))
      exact Or.inr ⟨hRow, (Nat.div_lt_iff_lt_mul (Stage.block_pos j)).mp (by omega)⟩
  · simp [F]
  · intro l hl
    have hl' : l < N := by omega
    have hWrite : (F.partly fun i j => i < k * nx ∨ i < (k + 1) * nx ∧ j < l * nu).toGrid.write?
        (k * nx) (l * nu) nx nu (Nat.repeat model.A.mul (k - l) model.B).toGrid =
        some (F.partly fun i j => i < k * nx ∨ i < (k + 1) * nx ∧ j < (l + 1) * nu).toGrid := by
      refine Grid.write?_partly (Stage.window_le hk) (Stage.window_le hl') (fun a b => ?_)
        fun i j _ => ?_
      · simp only [Stage.mk_eq_index hk, Stage.mk_eq_index hl']
        rw [entry_unroll_F, if_pos]
        exact Nat.le_of_lt_succ hl
      · rw [Nat.succ_mul, Nat.succ_mul]
        omega
    rw [Grid.getElem?_iterates model.A.mul model.B Mat.toGrid (by omega), Option.bind_eq_bind,
      Option.bind_some, hWrite]

theorem differences?_toGrid (nu N : ℕ) :
    (differences? nu N : Option (Grid S)) = some (Mat.differences nu N).toGrid := by
  let D : Mat S ((N - 1) * nu) (N * nu) := Mat.differences nu N
  have hEntry : ∀ i j, D.entry i j =
      if (j : ℕ) = i then -1 else if (j : ℕ) = i + nu then 1 else 0 := Mat.entry_ofFn _
  refine Grid.foldlM_rows (fun r => r) rfl rfl fun r hr => ?_
  have hInput : 0 < nu := Nat.pos_of_ne_zero fun hZero => by simp [hZero] at hr
  have hStages : 0 < N - 1 := Nat.pos_of_ne_zero fun hZero => by simp [hZero] at hr
  have hNext : r + nu + 1 ≤ N * nu := by
    have hSum : (N - 1) * nu + nu = N * nu := by
      rw [← Nat.succ_mul]
      congr 1
      omega
    omega
  have hDiagonal : (D.partly fun i _ => i < r).toGrid.set? r r (-1) =
      some (D.partly fun i j => i < r ∨ i = r ∧ j = r).toGrid := by
    refine Grid.write?_partly hr (by omega) (fun a b => ?_) fun i j _ => by omega
    rw [Mat.entry_ofFn, hEntry, if_pos]
    simp only
    omega
  have hBeside : (D.partly fun i j => i < r ∨ i = r ∧ j = r).toGrid.set? r (r + nu) 1 =
      some (D.partly fun i _ => i < r + 1).toGrid := by
    refine Grid.write?_partly hr hNext (fun a b => ?_) fun i j hNe => ?_
    · rw [Mat.entry_ofFn, hEntry, if_neg, if_pos]
      · simp only
        omega
      · simp only
        omega
    · rw [hEntry] at hNe
      have hOn : (j : ℕ) = i ∨ (j : ℕ) = i + nu := by
        by_contra hOff
        rw [not_or] at hOff
        rw [if_neg hOff.1, if_neg hOff.2] at hNe
        exact hNe rfl
      omega
  rw [hDiagonal, Option.bind_eq_bind, Option.bind_some, hBeside]

theorem boxAbove?_toGrid {k n : ℕ} (rates : Mat S k n) :
    boxAbove? rates.toGrid = some rates.boxAbove.toGrid := by
  let G : Mat S (n + k) n := rates.boxAbove
  have hStart : Mat.zeros (n + k) n = G.partly fun _ _ => False :=
    (Mat.partly_eq_zeros fun _ _ => id).symm
  have hEnd : G.partly (fun _ _ => True) = G := Mat.partly_eq_self fun _ _ _ => trivial
  have hIdentity : (Mat.zeros (n + k) n).toGrid.write? 0 0 n n (Mat.identity n : Mat S n n).toGrid =
      some (G.partly fun i _ => i < n).toGrid := by
    rw [hStart]
    refine Grid.write?_partly (by omega) (by omega) (fun a b => ?_) fun i j _ => by
      simp only [false_or]
      omega
    have hTop := Mat.entry_above_castAdd (Mat.identity n) rates a b
    simp only [Nat.zero_add]
    exact hTop.symm
  have hRates : (G.partly fun i _ => i < n).toGrid.write? n 0 k n rates.toGrid =
      some (G.partly fun _ _ => True).toGrid := by
    refine Grid.write?_partly le_rfl (by omega) (fun a b => ?_) fun i j _ => by
      simp only [true_iff]
      omega
    have hBottom := Mat.entry_above_natAdd (Mat.identity n) rates a b
    simp only [Nat.zero_add]
    exact hBottom.symm
  rw [boxAbove?]
  dsimp only
  rw [hIdentity, Option.bind_eq_bind, Option.bind_some, hRates, hEnd]

theorem hessian?_toGrid (gradient : Mat S (N * nu) (N * nx)) (F : Mat S (N * nx) (N * nu))
    (inputWeight : Mat S (N * nu) (N * nu)) :
    hessian? gradient.toGrid F.toGrid inputWeight.toGrid =
      some (Controller.hessian gradient F inputWeight).toGrid := by
  rw [hessian?, Grid.mul?_toGrid, Option.bind_eq_bind, Option.bind_some, Grid.add?_toGrid,
    Option.bind_some, Grid.transpose, Grid.add?_toGrid, Option.bind_some]
  rfl

end Assembly

/-! ## Assemblies of controllers -/

namespace Checked

variable {S α β γ δ : Type} {f : α → Checked S β} {h : γ → β}

theorem run_lift {x : Option β} {b : β} (hx : x = some b) :
    (liftM x : Checked S β).run = some (.ok b) := by
  rw [hx]
  rfl

theorem run_lift_bind {x : Option α} {a : α} {y : Option (Except (Fault S) β)} (hx : x = some a)
    (hNext : (f a).run = y) : (liftM x >>= f : Checked S β).run = y := by
  rw [hx]
  exact hNext

/-- Steps that are refused alike may be followed by steps that are. -/
theorem run_bind {x : Checked S α} {y : Except (Fault S) δ} {i : δ → α}
    {g : δ → Except (Fault S) γ} (hx : x.run = some (i <$> y))
    (hNext : ∀ a, (f (i a)).run = some (h <$> g a)) :
    (x >>= f).run = some (h <$> (y >>= g)) := by
  change x.run >>= ExceptT.bindCont f = _
  rw [hx]
  cases y with
  | error e => rfl
  | ok a => exact hNext a

theorem run_check_bind {x : Except (Fault S) α} {g : α → Except (Fault S) γ}
    (hNext : ∀ a, (f a).run = some (h <$> g a)) :
    (liftM x >>= f : Checked S β).run = some (h <$> (x >>= g)) :=
  run_bind (congrArg some (id_map x).symm) hNext

theorem run_length_bind {what : String} {v : Array S} {n : ℕ} {f : Vec S n → Checked S β}
    {g : Vec S n → Except (Fault S) γ}
    (hNext : ∀ u : Vec S n, u.toArray = v → (f u).run = some (h <$> g u)) :
    (liftM (Check.length what v n) >>= f : Checked S β).run =
      some (h <$> (Check.length what v n >>= g)) := by
  unfold Check.length
  split
  · exact hNext _ rfl
  · rfl

theorem run_ite {p : Prop} [Decidable p] {x : Checked S β} {y : p → Except (Fault S) γ}
    {e : Fault S} (hNext : ∀ hp, x.run = some (h <$> y hp)) :
    (if p then x else throw e).run = some (h <$> if hp : p then y hp else .error e) := by
  by_cases hp : p
  · rw [if_pos hp, dif_pos hp]
    exact hNext hp
  · rw [if_neg hp, dif_neg hp]
    rfl

end Checked

namespace Assembly

variable {S : Type} [Scalar S] {nx nu N : ℕ}

/-- The assembly of a controller: the same matrices with their shapes beside them. -/
def ofController (c : Controller S nx nu N) : Assembly S where
  horizon := N
  period := c.period
  A := c.model.A.toGrid
  B := c.model.B.toGrid
  E := c.prediction.E.toGrid
  F := c.prediction.F.toGrid
  stateWeight := c.stateWeight.toGrid
  inputWeight := c.inputWeight.toGrid
  differences := c.differences.toGrid
  gradient := c.gradient.toGrid
  n := N * nu
  m := N * nu + (N - 1) * nu
  qp := c.qp

theorem assemble_toGrid (stages_pos : 0 < N) (model : LinearModel S nx nu)
    (cost : StageCost S nx nu) (settings : Settings S) (period : S) :
    (assemble N model.A.toGrid model.B.toGrid cost.Q.toGrid cost.R.toGrid settings period).run =
      some (ofController <$> Controller.assemble stages_pos model cost settings period) := by
  let prediction := Prediction.unroll model N
  let inputWeight := cost.R.blockDiagonal N
  let gradient := prediction.F.transposeMul (cost.Q.blockDiagonal N)
  refine Checked.run_lift_bind (stateResponse?_toGrid model) ?_
  refine Checked.run_lift_bind (inputResponse?_toGrid model) ?_
  refine Checked.run_lift_bind (Grid.blockDiagonal?_toGrid cost.Q N) ?_
  refine Checked.run_lift_bind (Grid.blockDiagonal?_toGrid cost.R N) ?_
  refine Checked.run_lift_bind (Grid.transposeMul?_toGrid prediction.F _) ?_
  refine Checked.run_lift_bind (hessian?_toGrid gradient prediction.F inputWeight) ?_
  refine Checked.run_lift_bind (differences?_toGrid nu N) ?_
  refine Checked.run_lift_bind (boxAbove?_toGrid (Mat.differences nu N)) ?_
  rw [Qp.Solver.ofGrids_toGrid]
  exact Checked.run_check_bind fun qp => rfl

/-- Building never reaches for anything that is not there, and puts together the matrices of the
controller. -/
theorem build_eq_some {p r : ℕ} (N : ℕ) (model : LinearModel S nx nu) (cost : StageCost S p r)
    (settings : Settings S) (period : S) :
    (build N model cost settings period).run =
      some (ofController <$> Controller.build N model cost settings period) := by
  refine Checked.run_ite fun hN => Checked.run_check_bind fun _ => ?_
  refine Checked.run_ite fun (hp : p = nx) => Checked.run_ite fun (hr : r = nu) => ?_
  subst hp hr
  exact assemble_toGrid hN model cost settings period

variable (c : Controller S nx nu N)

theorem linearCost_eq_some (x : Array S) (ref : Reference S) :
    ((ofController c).linearCost x ref).run = some (Vector.toArray <$> c.linearCost x ref) := by
  refine Checked.run_check_bind fun x => ?_
  refine Checked.run_check_bind fun states => Checked.run_check_bind fun inputs => ?_
  let deviation : Vec S (N * nx) := (c.prediction.E.mulVec x).sub states
  refine Checked.run_lift_bind (Grid.mulVec?_toArray c.prediction.E x) ?_
  refine Checked.run_lift_bind (Slice.sub?_toArray (c.prediction.E.mulVec x) states) ?_
  refine Checked.run_lift_bind (Grid.mulVec?_toArray c.gradient deviation) ?_
  refine Checked.run_lift_bind (Grid.mulVec?_toArray c.inputWeight inputs) ?_
  exact Checked.run_lift (Slice.sub?_toArray _ _)

theorem predict_eq_some (x₀ u : Array S) :
    ((ofController c).predict x₀ u).run = some (Vector.toArray <$> c.prediction.predict x₀ u) := by
  refine Checked.run_check_bind fun x₀ => Checked.run_check_bind fun u => ?_
  refine Checked.run_lift_bind (Grid.mulVec?_toArray c.prediction.F u) ?_
  refine Checked.run_lift_bind (Grid.mulVec?_toArray c.prediction.E x₀) ?_
  exact Checked.run_lift (Slice.add?_toArray _ _)

/-- Whatever it is called with, an action reaches for nothing that is not there. -/
theorem action_eq_some (x : Array S) (ref : Reference S) (bounds : InputBounds S)
    (warm : WarmStart S) :
    ((ofController c).action x ref bounds warm).run =
      some ((fun act => (act.solution, act.control.toArray)) <$> c.action x ref bounds warm) := by
  let now : Fin N := ⟨0, c.stages_pos⟩
  obtain ⟨inputMin, inputMax, rateMin, rateMax⟩ := bounds
  -- The bounds are stacked as they were given, so each keeps the vector that it was found to be.
  refine Checked.run_length_bind ?_
  rintro (inputMin : Vec S (N * nu)) rfl
  refine Checked.run_length_bind ?_
  rintro (inputMax : Vec S (N * nu)) rfl
  refine Checked.run_length_bind ?_
  rintro rateMin rfl
  refine Checked.run_length_bind ?_
  rintro rateMax rfl
  refine Checked.run_bind (linearCost_eq_some c x ref) fun q => ?_
  refine Checked.run_lift_bind (Slice.stack?_eq _ _) ?_
  refine Checked.run_lift_bind (Slice.stack?_eq _ _) ?_
  refine Checked.run_check_bind fun (solution : Qp.Solution S (N * nu) _) => ?_
  refine Checked.run_lift_bind (Slice.read?_block solution.z now rfl) ?_
  refine Checked.run_lift_bind (Slice.read?_block inputMin now rfl) ?_
  refine Checked.run_lift_bind (Slice.read?_block inputMax now rfl) ?_
  exact Checked.run_lift_bind (Slice.clamp?_toArray _ _ _) rfl

end Assembly

end RecedingHorizon
