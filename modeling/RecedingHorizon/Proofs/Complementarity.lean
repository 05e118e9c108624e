import RecedingHorizon.Proofs.Action

/-!
# Complementarity of slack and multipliers

The multipliers of a start are arbitrary. Those that a step leaves are `ρ` times what its
projection cuts off from the shifted slack, so they are normals of the box at the new slack.
Every solve ends with a step, so slack and multipliers of its answer complement each other
exactly, however early it stops (`slack_multipliers_complementary`): a multiplier that is not
zero holds its row on the bound to which it points, and none points to an infinite bound.
An action without limits has no multipliers at all.
-/

namespace RecedingHorizon

open Extended

/-- **Complementarity.** Whatever the point and the multipliers of the start are, the multipliers
of an answer are normals of the box at its slack. So a row strictly between its bounds has the
multiplier zero, a row without an upper bound has no positive multiplier, and one without a
lower bound has no negative one. When a controller is given unbounded limits, the multipliers
of every action are zero. -/
theorem slack_multipliers_complementary [Precision] :
    (∀ {n m : ℕ} {p : Qp.Problem n m} {t : Settings ℝ} {s : Qp.Solver Extended n m},
      p.setup t = .ok s → ∀ z₀ y₀ k, ∃ (w y : Fin m → ℝ) (sol : Qp.Solution Extended n m),
        s.solveProblem p z₀ y₀ (k + 1) = .ok sol ∧ sol.w = Vec.ofReal w ∧ sol.y = Vec.ofReal y ∧
        p.box.IsNormal w y ∧
        ∀ i, (p.box.lower.get i < finite (w i) → finite (w i) < p.box.upper.get i → y i = 0) ∧
          (p.box.upper.get i = posInf → y i ≤ 0) ∧ (p.box.lower.get i = negInf → 0 ≤ y i)) ∧
    ∀ {nx nu N : ℕ} {a : Plant nx nu} {settings : Settings Extended} {period : Extended}
      {c : Controller Extended nx nu N}, a.build N settings period = .ok c →
      ∀ (x : Fin nx → ℝ) (states : Fin (N * nx) → ℝ) (inputs z : Fin (N * nu) → ℝ)
        (y : Fin (N * nu + (N - 1) * nu) → ℝ), ∃ act : Action Extended nu N,
        c.action (Vec.ofReal x).toArray
          { states := (Vec.ofReal states).toArray, inputs := (Vec.ofReal inputs).toArray }
          (.unbounded nu N) (.ofReal z y) = .ok act ∧
        act.solution.y = Vec.zeros _ := by
  constructor
  · intro n m p t s hs z₀ y₀ k
    obtain ⟨u, v, hStep, hSolve⟩ := Qp.Problem.exists_step_of_setup hs z₀ y₀ k
    have hNormal : p.box.IsNormal v.w v.y := hStep.normal
    exact ⟨v.w, v.y, _, hSolve, rfl, rfl, hNormal, fun i => ⟨hNormal.eq_zero_of_lt,
      hNormal.nonpos_of_upper, hNormal.nonneg_of_lower⟩⟩
  · intro nx nu N a settings period c hc x states inputs z y
    obtain ⟨t, rfl, hBuilt⟩ := Plant.exists_isBuilt_of_build hc
    let free : Task nx nu N := { states, inputs, limits := .univ nu N }
    obtain ⟨u, v, hStep, hAction⟩ := hBuilt.exists_action x free z y
    have hNormal : (Limits.univ nu N).box.IsNormal v.w v.y := hStep.normal
    rw [Limits.box_univ] at hNormal
    refine ⟨_, Limits.bounds_univ ▸ hAction, ?_⟩
    rw [hNormal.eq_zero_of_univ, Vec.zeros_eq]

theorem clippedParabola_complementary :
    letI := Precision.double
    (∃ (s : Qp.Solver Extended 1 1) (w y : Fin 1 → ℝ) (sol : Qp.Solution Extended 1 1),
      Qp.Problem.clippedParabola.setup .standard = .ok s ∧
      s.solveProblem Qp.Problem.clippedParabola ![1] ![-7] 1 = .ok sol ∧
      sol.w = Vec.ofReal w ∧ sol.y = Vec.ofReal y ∧
      Qp.Problem.clippedParabola.box.IsNormal w y) ∧
    ∃ (c : Controller Extended 1 1 2) (act : Action Extended 1 2),
      Plant.integrator.build 2 (Settings.ofReal .standard) (finite 0.02) = .ok c ∧
      c.action (Vec.ofReal ![1]).toArray
        { states := (Vec.ofReal ![0, 0]).toArray, inputs := (Vec.ofReal ![0, 0]).toArray }
        (.unbounded 1 2) (.ofReal ![1, 1] ![5, -5, 5]) = .ok act ∧
      act.solution.y = Vec.zeros _ := by
  let _ := Precision.double
  obtain ⟨hSolves, hActions⟩ := slack_multipliers_complementary
  obtain ⟨s, hs⟩ := Qp.Problem.exists_setup_clippedParabola
  obtain ⟨w, y, sol, hSolve, hw, hy, hNormal, -⟩ := hSolves hs ![1] ![-7] 0
  obtain ⟨c, hc⟩ := Plant.exists_build_integrator two_pos
  obtain ⟨act, hAction, hZero⟩ := hActions hc ![1] ![0, 0] ![0, 0] ![1, 1] ![5, -5, 5]
  exact ⟨⟨s, w, y, sol, hs, hSolve, hw, hy, hNormal⟩, c, act, hc, hAction, hZero⟩

end RecedingHorizon
