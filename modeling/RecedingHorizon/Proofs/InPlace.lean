import RecedingHorizon.Proofs.Splitting
import RecedingHorizon.Qp.Workspace

/-!
# The iteration in place

Of all its buffers a step reads the iterate alone; whatever else it reads it has written before
(`Workspace.step_iterate`, `Workspace.step_residuals`). So a run in place is the run of the
recurrence, from any leftovers, in every arithmetic, and ends with the answer of a solve
(`Solver.answer_eq_solution`).

Over the reals the recurrence moves the pair of the point and the shifted slack `w + y / ρ`. From
the first step on this pair determines the slack, the multipliers and the rest of the run
(`Problem.step_eq_unshift`, `Problem.run_eq_of_pair_eq`).
-/

namespace RecedingHorizon

namespace Qp

open Extended Matrix

/-! ## Buffers -/

namespace Workspace

variable {S : Type} {n m : ℕ} [Scalar S] (s : Solver S n m) (d : Data S n m) (b : Workspace S n m)

/-- The point comes from the point, slack and multipliers in the buffers. -/
theorem updatePrimal_x :
    (b.updatePrimal s d).x = s.factor.choleskySolve (s.rightSide d b.iterate) := by
  have hSum : (Vec.ofFn fun j => s.settings.sigma * b.x.get j - d.q.get j).add
      (s.constraints.transposeMulVec
        (Vec.ofFn fun i => s.settings.rho * b.w.get i - b.y.get i)) =
      s.rightSide d b.iterate := by
    apply Vec.ext
    intro j
    rw [Vec.get_add, Solver.rightSide, Vec.get_ofFn, Vec.get_ofFn]
    rfl
  exact congrArg s.factor.choleskySolve hSum

/-- The image is taken anew, and the slack is still the one before the step. -/
theorem relaxed_eq :
    ((b.updatePrimal s d).relax s).relaxed = s.relax (s.step d b.iterate).x b.w :=
  congrArg (fun x => s.relax x b.w) (b.updatePrimal_x s d)

theorem step_w : (b.step s d).w = (s.step d b.iterate).w :=
  congrArg (fun r : Vec S m => Vec.clamp d.lower d.upper
    (Vec.ofFn fun i => r.get i + b.y.get i / s.settings.rho)) (b.relaxed_eq s d)

/-- The multipliers move by what the new slack leaves of the blend. -/
theorem step_y : (b.step s d).y = (s.step d b.iterate).y := by
  change (Vec.ofFn fun i => b.y.get i + s.settings.rho *
    (((b.updatePrimal s d).relax s).relaxed.get i - (b.step s d).w.get i)) = _
  rw [relaxed_eq, step_w]
  rfl

theorem step_iterate : (b.step s d).iterate = s.step d b.iterate := by
  change Iterate.mk (b.updatePrimal s d).x (b.step s d).w (b.step s d).y = _
  rw [updatePrimal_x, step_w, step_y]
  rfl

/-- The residuals read the image and the slacks of the step that is just finished. -/
theorem step_residuals :
    (b.step s d).residuals = s.residuals b.iterate (b.step s d).iterate := rfl

theorem run_succ (k : ℕ) : b.run s d (k + 1) = (b.run s d k).step s d := rfl

theorem run_iterate (k : ℕ) : (b.run s d k).iterate = s.run d k b.iterate := by
  induction k with
  | zero => rfl
  | succ k ih =>
    rw [run_succ, step_iterate, ih]
    rfl

theorem run_iterations (k : ℕ) : (b.run s d k).iterations = b.iterations + k := by
  induction k with
  | zero => rfl
  | succ k ih =>
    rw [run_succ, ← Nat.add_assoc, ← ih]
    rfl

theorem run_residuals (k : ℕ) :
    (b.run s d (k + 1)).residuals =
      s.residuals (s.run d k b.iterate) (s.run d (k + 1) b.iterate) := by
  rw [← run_iterate, ← run_iterate, run_succ, step_residuals]

end Workspace

/-- A solve answers with what the buffers hold in the end. -/
theorem Solver.answer_eq_solution {S : Type} {n m : ℕ} [Scalar S] (s : Solver S n m)
    (d : Data S n m) (z : Vec S n) (y : Vec S m) (k : ℕ) :
    s.answer d z y k = ((Workspace.load s d z y).run s d (k + 1)).solution s.settings := by
  let b : Workspace S n m := .load s d z y
  have hIterate : (b.run s d (k + 1)).iterate = s.run d (k + 1) (s.start d z y) :=
    b.run_iterate s d (k + 1)
  have hResiduals : (b.run s d (k + 1)).residuals = s.residuals (s.run d k (s.start d z y))
      (s.run d (k + 1) (s.start d z y)) := b.run_residuals s d k
  have hIterations : (b.run s d (k + 1)).iterations = k + 1 :=
    (b.run_iterations s d (k + 1)).trans (Nat.zero_add _)
  change _ = Solution.mk (b.run s d (k + 1)).iterate.x (b.run s d (k + 1)).iterate.y
    (b.run s d (k + 1)).iterate.w (b.run s d (k + 1)).iterations (b.run s d (k + 1)).residuals
    ((b.run s d (k + 1)).residuals.status s.settings)
  rw [hIterate, hResiduals, hIterations]
  rfl

/-! ## The pair that a run moves -/

namespace Problem

variable {n m : ℕ} (p : Problem n m) (t : Settings ℝ)

/-- The slack with the multipliers in units of the slack. -/
noncomputable def shifted (u : Point n m) : Fin m → ℝ := u.w + t.rho⁻¹ • u.y

/-- The iterate whose slack and multipliers are the two parts of a shifted slack. -/
noncomputable def unshift (x : Fin n → ℝ) (v : Fin m → ℝ) : Point n m where
  x := x
  w := p.box.project v
  y := t.rho • (v - p.box.project v)

variable {p t}

/-- The projection splits the shifted blend, and nothing of it is lost. -/
theorem shifted_step (hRho : t.rho ≠ 0) (u : Point n m) :
    shifted t (p.step t u) =
      t.alpha • (p.A *ᵥ (p.step t u).x) + (1 - t.alpha) • u.w + t.rho⁻¹ • u.y := by
  generalize hBlend : t.alpha • (p.A *ᵥ (p.step t u).x) + (1 - t.alpha) • u.w = r
  have hy : (p.step t u).y = u.y + t.rho • (r - (p.step t u).w) := by
    rw [← hBlend]
    rfl
  rw [shifted, hy, smul_add, inv_smul_smul₀ hRho]
  abel

theorem shifted_step_eq_add (hRho : t.rho ≠ 0) (u : Point n m) :
    shifted t (p.step t u) = shifted t u + t.alpha • (p.A *ᵥ (p.step t u).x - u.w) := by
  rw [shifted_step hRho, shifted, smul_sub, sub_smul, one_smul]
  abel

/-- After a step the shifted slack holds the slack and the multipliers. -/
theorem step_eq_unshift (hRho : t.rho ≠ 0) (u : Point n m) :
    p.step t u = p.unshift t (p.step t u).x (shifted t (p.step t u)) := by
  have hw : (p.step t u).w = p.box.project (shifted t (p.step t u)) := by
    rw [shifted_step hRho]
    rfl
  have hy : (p.step t u).y = t.rho • (shifted t (p.step t u) - (p.step t u).w) := by
    rw [shifted, add_sub_cancel_left, smul_inv_smul₀ hRho]
  ext1
  · rfl
  · exact hw
  · rw [hy, hw]
    rfl

theorem run_add (k i : ℕ) (u : Point n m) : p.run t (k + i) u = p.run t i (p.run t k u) := by
  induction i with
  | zero => rfl
  | succ i ih => rw [← Nat.add_assoc, run_succ, ih, run_succ]

/-- Runs that meet in the point and the shifted slack, each after a step, stay together. -/
theorem run_eq_of_pair_eq (hRho : t.rho ≠ 0) {u u' : Point n m} {j j' : ℕ}
    (hx : (p.run t (j + 1) u).x = (p.run t (j' + 1) u').x)
    (hShifted : shifted t (p.run t (j + 1) u) = shifted t (p.run t (j' + 1) u')) (i : ℕ) :
    p.run t (j + 1 + i) u = p.run t (j' + 1 + i) u' := by
  have hPoint : p.run t (j + 1) u = p.run t (j' + 1) u' := by
    rw [run_succ, run_succ] at hx hShifted ⊢
    rw [step_eq_unshift hRho, hx, hShifted, ← step_eq_unshift hRho]
  rw [run_add (j + 1), run_add (j' + 1), hPoint]

end Problem

/-- **Solving in place.** Buffers whose point, slack and multipliers are those of a start, with
anything in all others, run the recurrence: after `k` iterations they hold its `k`th iterate, and
the residuals of its last step when there was one. A solve answers with such buffers. Every step of
the recurrence moves the shifted slack `v = w + y / ρ` to `v + α (A x⁺ - w)`, of which `w⁺` is the
projection and `y⁺` the rest times `ρ`. So runs from any starts that meet in `x` and `v`, each
after a step, stay together. -/
theorem run_in_place [Precision] {n m : ℕ} {p : Problem n m} {t : Settings ℝ}
    {s : Solver Extended n m} (h : s.IsFactored p t) (z : Fin n → ℝ) (y : Fin m → ℝ)
    (b : Workspace Extended n m)
    (hb : b.iterate = s.start p.data (Vec.ofReal z) (Vec.ofReal y)) :
    let u := fun k => p.run t k (p.start z y)
    let v := fun k => Problem.shifted t (u k)
    (∀ k, (b.run s p.data k).iterate = .ofReal (u k) ∧
      (b.run s p.data k).iterations = b.iterations + k ∧
      (b.run s p.data (k + 1)).residuals = .ofReal (p.residuals t (u k) (u (k + 1)))) ∧
    (∀ k, s.solveProblem p z y (k + 1) =
      .ok (((Workspace.load s p.data (Vec.ofReal z) (Vec.ofReal y)).run s p.data (k + 1)).solution
        s.settings)) ∧
    (∀ k, v (k + 1) = v k + t.alpha • (p.A *ᵥ (u (k + 1)).x - (u k).w) ∧
      (u (k + 1)).w = p.box.project (v (k + 1)) ∧
      (u (k + 1)).y = t.rho • (v (k + 1) - p.box.project (v (k + 1)))) ∧
    ∀ z' y' j j', let u' := fun k => p.run t k (p.start z' y')
      (u (j + 1)).x = (u' (j' + 1)).x →
      v (j + 1) = Problem.shifted t (u' (j' + 1)) →
      ∀ i, u (j + 1 + i) = u' (j' + 1 + i) := by
  intro u v
  have hRho : t.rho ≠ 0 := h.valid.rho_pos.ne'
  rw [h.start_ofReal] at hb
  refine ⟨fun k => ⟨?_, b.run_iterations s p.data k, ?_⟩, fun k => ?_, fun k => ?_, ?_⟩
  · rw [b.run_iterate, hb, h.run_ofReal]
  · rw [b.run_residuals, hb, h.run_ofReal, h.run_ofReal, h.residuals_ofReal]
  · rw [Solver.solveProblem_eq_ok, Solver.answer_eq_solution]
  · have hUnshift := Problem.step_eq_unshift (p := p) hRho (u k)
    exact ⟨Problem.shifted_step_eq_add hRho (u k), congrArg Point.w hUnshift,
      congrArg Point.y hUnshift⟩
  · intro z' y' j j' u' hx hShifted
    exact Problem.run_eq_of_pair_eq hRho hx hShifted

/-- Two iterations on `½ z² - z` over `-1 ≤ z ≤ 0`, from buffers filled with what is no number. -/
theorem clippedParabola_run_in_place :
    letI := Precision.double
    let p : Problem 1 1 := .clippedParabola
    ∃ s, p.setup .standard = .ok s ∧
      let u := fun k => p.run .standard k (p.start ![2] ![3])
      let junk : Vec Extended 1 := Vec.ofFn fun _ => nan
      let b : Workspace Extended 1 1 :=
        { Workspace.load s p.data (Vec.ofReal ![2]) (Vec.ofReal ![3]) with
          slackBefore := junk, image := junk, relaxed := junk, rightSide := junk,
          rowScratch := junk, columnScratch := junk }
      (b.run s p.data 2).iterate = .ofReal (u 2) ∧
      (b.run s p.data 2).residuals = .ofReal (p.residuals .standard (u 1) (u 2)) ∧
      (u 2).w = p.box.project (Problem.shifted .standard (u 2)) := by
  let _ := Precision.double
  intro p
  obtain ⟨s, hs⟩ := Problem.exists_setup_clippedParabola
  refine ⟨s, hs, ?_⟩
  intro u junk b
  obtain ⟨hRun, -, hPair, -⟩ :=
    run_in_place (Problem.isFactored_of_setup hs isSymm_one) ![2] ![3] b rfl
  exact ⟨(hRun 2).1, (hRun 1).2.2, (hPair 1).2.1⟩

end Qp

end RecedingHorizon
