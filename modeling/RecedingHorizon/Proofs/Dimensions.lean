import RecedingHorizon.MachineScalar
import RecedingHorizon.Proofs.Refusal

/-!
# Sizes that agree

The sizes of a controller that is built are those of `nx` states and `nu` inputs over `N` stages
(`Assembly.IsSized`), except that without states the shape of `E` does not show the stages. A call
is refused for its lengths exactly when they do not fit, and the zero start, free bounds and set
points of a controller always fit (`build_sizes_agree`).
-/

namespace RecedingHorizon

/-! ## Sizes -/

section Sizes

variable {S : Type} {nx nu N : ℕ}

theorem Prediction.horizon_eq (P : Prediction S (N * nx) nx (N * nu)) :
    P.horizon = if nx = 0 then 0 else N := by
  rw [Prediction.horizon]
  split_ifs with hStates
  · simp [hStates]
  · rw [Nat.max_eq_left (Nat.pos_of_ne_zero hStates)]
    exact Nat.mul_div_cancel N (Nat.pos_of_ne_zero hStates)

/-- The sizes for `nx` states and `nu` inputs over `N` stages. -/
structure Assembly.IsSized (a : Assembly S) (nx nu N : ℕ) : Prop where
  horizon : a.horizon = N
  states : a.E.rows = N * nx ∧ a.E.cols = nx
  inputs : a.F.rows = N * nx ∧ a.F.cols = N * nu
  /-- By its type the cost matrix is `n` by `n`, and the constraint matrix `m` by `n`. -/
  cost : a.n = N * nu
  differences : a.differences.rows = (N - 1) * nu ∧ a.differences.cols = N * nu
  constraints : a.m = (2 * N - 1) * nu
  /-- Without states the shape of `E` does not show the stages. -/
  condensedHorizon : a.condensedHorizon = if nx = 0 then 0 else N

theorem Assembly.ofController_isSized (c : Controller S nx nu N) :
    (ofController c).IsSized nx nu N where
  horizon := rfl
  states := ⟨rfl, rfl⟩
  inputs := ⟨rfl, rfl⟩
  cost := rfl
  differences := ⟨rfl, rfl⟩
  constraints := by
    have hStages := c.stages_pos
    calc N * nu + (N - 1) * nu = (N + (N - 1)) * nu := (Nat.add_mul ..).symm
      _ = (2 * N - 1) * nu := by
        congr 1
        omega
  condensedHorizon := c.prediction.horizon_eq

end Sizes

/-! ## Calls -/

namespace Qp.Solver

variable {S : Type} [Scalar S] {n m : ℕ}

/-- A solve of vectors of the right lengths never speaks of lengths. -/
theorem not_isMismatch_solve (s : Solver S n m) (d : Data S n m) (z : Vec S n) (y : Vec S m) :
    ¬ IsMismatch (s.solve d.q.toArray d.lower.toArray d.upper.toArray
      { z := z.toArray, y := y.toArray }) := by
  rintro ⟨what, expected, got, -, hRefused⟩
  rw [solve] at hRefused
  cases hIter : s.settings.maxIter with
  | zero =>
    rw [hIter] at hRefused
    cases hRefused
  | succ j =>
    rw [hIter, solveWith_eq_error_iff] at hRefused
    rcases hRefused with ⟨-, h⟩ | ⟨-, ⟨-, h⟩ | ⟨-, ⟨-, h⟩ | ⟨-, _, h, -⟩⟩⟩ <;> cases h

end Qp.Solver

theorem size_tile_toArray {S : Type} {b : ℕ} (v : Vec S b) (N : ℕ) :
    (tile v.toArray N).size = N * b := by
  rw [size_tile, v.size_toArray]

namespace Call

variable {S : Type} {nx nu N : ℕ} {k : Call S}

theorem Fits.with_constant (h : k.Fits nx nu N) (x : Vec S nx) (u : Vec S nu) :
    Call.Fits nx nu N { k with reference := .constant x.toArray u.toArray N } :=
  { h with
    states := size_tile_toArray x N
    inputs := size_tile_toArray u N }

variable [Scalar S]

theorem Fits.with_unbounded (h : k.Fits nx nu N) :
    Call.Fits nx nu N { k with bounds := .unbounded nu N } :=
  { h with
    inputMin := Array.size_replicate
    inputMax := Array.size_replicate
    rateMin := Array.size_replicate
    rateMax := Array.size_replicate }

theorem Fits.with_coldStart (h : k.Fits nx nu N) (c : Controller S nx nu N) :
    Call.Fits nx nu N { k with warm := c.coldStart } :=
  { h with z := Vector.size_toArray _, y := Vector.size_toArray _ }

/-- Move to a set point from rest, without bounds. -/
def toward (c : Controller S nx nu N) (x goal : Vec S nx) (u : Vec S nu) : Call S where
  state := x.toArray
  reference := .constant goal.toArray u.toArray N
  bounds := .unbounded nu N
  warm := c.coldStart

theorem toward_fits (c : Controller S nx nu N) (x goal : Vec S nx) (u : Vec S nu) :
    (toward c x goal u).Fits nx nu N where
  state := x.size_toArray
  states := size_tile_toArray goal N
  inputs := size_tile_toArray u N
  inputMin := Array.size_replicate
  inputMax := Array.size_replicate
  rateMin := Array.size_replicate
  rateMax := Array.size_replicate
  z := Vector.size_toArray _
  y := Vector.size_toArray _

end Call

namespace Controller

variable {S : Type} [Scalar S] {nx nu p r N : ℕ} {c : Controller S nx nu N} {k : Call S}

theorem not_isMismatch_of_fits (c : Controller S nx nu N) (h : k.Fits nx nu N) :
    ¬ IsMismatch (c.respond k) := by
  rintro ⟨what, expected, got, hNe, hRefused⟩
  have hRespond := c.action_toArray ⟨k.state, h.state⟩ ⟨k.reference.states, h.states⟩
    ⟨k.reference.inputs, h.inputs⟩ ⟨k.bounds.inputMin, h.inputMin⟩
    ⟨k.bounds.inputMax, h.inputMax⟩ ⟨k.bounds.rateMin, h.rateMin⟩
    ⟨k.bounds.rateMax, h.rateMax⟩ k.warm
  exact c.qp.not_isMismatch_solve { q := c.tracking _ _ _, lower := _ ++ _, upper := _ ++ _ }
    ⟨k.warm.z, h.z⟩ ⟨k.warm.y, h.y⟩
    ⟨what, expected, got, hNe, map_eq_error_iff.mp (hRespond.symm.trans hRefused)⟩

/-- A controller refuses a call for its lengths exactly when they do not fit. -/
theorem isMismatch_iff_of_build {model : LinearModel S nx nu} {cost : StageCost S p r}
    {settings : Settings S} {period : S} (hc : build N model cost settings period = .ok c) :
    IsMismatch (c.respond k) ↔ ¬ k.Fits nx nu N := by
  refine ⟨fun hMismatch hFits => c.not_isMismatch_of_fits hFits hMismatch, ?_⟩
  obtain ⟨P, A, hSetup⟩ := exists_setup_of_build hc
  obtain ⟨hValid, -, -, -, L, -, hSolver⟩ := Qp.Solver.setup_eq_ok_iff.mp hSetup
  obtain ⟨-, -, -, hIter, -⟩ := Settings.validate_eq_ok_iff.mp hValid
  obtain ⟨j, hj⟩ := Nat.exists_eq_add_of_le' hIter
  refine c.respond_isMismatch (j := j) ?_
  rw [hSolver]
  exact hj

end Controller

/-- **Sizes agree.** For models and weights of all sizes, without states or without inputs among
them, building never reaches for an entry or a window that is not there and never multiplies what
does not fit; it yields the matrices of the controller. Of one that is built, the sizes are those of
`nx` states and `nu` inputs over `N` stages, but a model without states does not show its stages in
the shape of `E`. No linear cost, prediction or action leaves its vectors, whatever it is called
with. A call is refused for its lengths exactly when they do not fit, and the zero start, free
bounds and a set point always do. -/
theorem build_sizes_agree {S : Type} [Scalar S] {nx nu p r : ℕ} (N : ℕ)
    (model : LinearModel S nx nu) (cost : StageCost S p r) (settings : Settings S) (period : S) :
    (Assembly.build N model cost settings period).run =
      some (Assembly.ofController <$> Controller.build N model cost settings period) ∧
    ∀ c, Controller.build N model cost settings period = .ok c →
      let a := Assembly.ofController c
      a.IsSized nx nu N ∧
      (∀ x ref, (a.linearCost x ref).run = some (Vector.toArray <$> c.linearCost x ref)) ∧
      (∀ x₀ u, (a.predict x₀ u).run = some (Vector.toArray <$> c.prediction.predict x₀ u)) ∧
      (∀ k : Call S, (a.action k.state k.reference k.bounds k.warm).run =
        some ((fun act => (act.solution, act.control.toArray)) <$> c.respond k)) ∧
      (∀ k : Call S, IsMismatch (c.respond k) ↔ ¬ k.Fits nx nu N) ∧
      (∀ (x : Vec S nx) (u : Vec S nu), let ref := Reference.constant x.toArray u.toArray N
        Slice.tile? x.toArray N = some ref.states ∧ Slice.tile? u.toArray N = some ref.inputs) ∧
      (∀ x goal u, (Call.toward c x goal u).Fits nx nu N) ∧
      ∀ k : Call S, k.Fits nx nu N →
        Call.Fits nx nu N { k with warm := a.coldStart } ∧
        Call.Fits nx nu N { k with bounds := .unbounded nu N } ∧
        ∀ (x : Vec S nx) (u : Vec S nu),
          Call.Fits nx nu N { k with reference := .constant x.toArray u.toArray N } := by
  refine ⟨Assembly.build_eq_some N model cost settings period, fun c hc => ?_⟩
  refine ⟨Assembly.ofController_isSized c, Assembly.linearCost_eq_some c,
    Assembly.predict_eq_some c, fun k => Assembly.action_eq_some c _ _ _ _,
    fun k => Controller.isMismatch_iff_of_build hc,
    fun x u => ⟨Slice.tile?_eq _ N, Slice.tile?_eq _ N⟩, Call.toward_fits c, fun k hFits => ?_⟩
  exact ⟨hFits.with_coldStart c, hFits.with_unbounded, hFits.with_constant⟩

theorem integrator_sizes_agree :
    letI := Precision.double
    ∃ c : Controller Extended 1 1 2,
      Plant.integrator.build 2 (Settings.ofReal .standard) (.finite 0.02) = .ok c ∧
      (Assembly.ofController c).IsSized 1 1 2 ∧ ¬ IsMismatch (c.respond .hold) ∧
      Call.Fits 1 1 2 { Call.hold with bounds := .unbounded 1 2 } := by
  let _ := Precision.double
  obtain ⟨c, hc⟩ := Plant.exists_build_integrator two_pos
  obtain ⟨-, hBuilt⟩ := build_sizes_agree 2 Plant.integrator.model Plant.integrator.cost
    (Settings.ofReal .standard) (.finite 0.02)
  obtain ⟨hSized, -, -, -, hMismatch, -, -, hReplaced⟩ := hBuilt c hc
  have hFree := (hReplaced .hold Call.hold_fits).2.1
  exact ⟨c, hc, hSized, fun h => (hMismatch .hold).mp h Call.hold_fits, hFree⟩

/-- A controller over two stages whose model has one input and no states: the shape of `E` shows
no stages. -/
theorem stateless_condensedHorizon :
    let A : Grid Float := { rows := 0, cols := 0, entries := ⟨#v[]⟩ }
    let B : Grid Float := { rows := 0, cols := 1, entries := ⟨#v[]⟩ }
    let Q : Grid Float := { rows := 0, cols := 0, entries := ⟨#v[]⟩ }
    let R : Grid Float := { rows := 1, cols := 1, entries := ⟨#v[#v[1]]⟩ }
    ∃ (model : LinearModel Float 0 1) (cost : StageCost Float 0 1) (c : Controller Float 0 1 2),
      LinearModel.ofGrids A B = .ok model ∧ StageCost.ofGrids Q R = .ok cost ∧
      Controller.build 2 model cost .standard 0.1 = .ok c ∧
      (Assembly.ofController c).horizon = 2 ∧ (Assembly.ofController c).condensedHorizon = 0 := by
  intro A B Q R
  let build : Except (Fault Float) (Controller Float 0 1 2) := do
    let model ← LinearModel.ofGrids A B
    let cost ← StageCost.ofGrids Q R
    Controller.build 2 model cost .standard 0.1
  have hSome : build.toOption.isSome = true := by decide +kernel
  cases hBuild : build with
  | error fault =>
    rw [hBuild] at hSome
    cases hSome
  | ok c =>
    obtain ⟨model, hModel, hRest⟩ := bind_eq_ok_iff.mp hBuild
    obtain ⟨cost, hCost, hc⟩ := bind_eq_ok_iff.mp hRest
    have hSized := Assembly.ofController_isSized c
    exact ⟨model, cost, c, hModel, hCost, hc, hSized.horizon, hSized.condensedHorizon⟩

end RecedingHorizon
