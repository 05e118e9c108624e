import RecedingHorizon.ClosedLoop
import RecedingHorizon.Proofs.Action

/-!
# Runs of the closed loop

A round that succeeds from every state of some kind, and leads to a state of that kind again,
makes a run that meets every demand (`ClosedLoop.run_of_round`). The states here are real
vectors of the sizes of the controller. An action from such a state has real answers of those
sizes again, so no run ever stops early, and every control lies in the box of the first stage
(`run_completes_in_boxes`).
-/

namespace RecedingHorizon

open Extended Matrix

/-! ## Rounds and runs -/

namespace ClosedLoop

section Runs

variable {S : Type} [Scalar S] {nx nu N : ℕ} {c : Controller S nx nu N} {α : Type}
  {demand : α → Demand S} {Holds : α → Round S nu N → Prop}

/-- What holds of every round from a kept state, and what the round keeps, holds along a run. -/
theorem run_of_round (Keeps : State S → Prop) {gs : List α}
    (hRound : ∀ g ∈ gs, ∀ s, Keeps s →
      ∃ r, round c (demand g) s = .ok r ∧ Holds g r ∧ Keeps r.after)
    {s : State S} (hs : Keeps s) :
    (run c (gs.map demand) s).fault = none ∧
      List.Forall₂ Holds gs (run c (gs.map demand) s).rounds := by
  induction gs generalizing s with
  | nil => exact ⟨rfl, .nil⟩
  | cons g gs ih =>
    rw [List.forall_mem_cons] at hRound
    obtain ⟨r, hr, hHolds, hAfter⟩ := hRound.1 s hs
    obtain ⟨hFault, hRounds⟩ := ih hRound.2 hAfter
    rw [List.map_cons, run, hr]
    exact ⟨hFault, .cons hHolds hRounds⟩

omit [Scalar S] in
theorem exists_rounds_of_two {run : Run S nu N} {g g' : α} (hFault : run.fault = none)
    (hRounds : List.Forall₂ Holds [g, g'] run.rounds) :
    ∃ r r', run = { rounds := [r, r'], fault := none } ∧ Holds g r ∧ Holds g' r' := by
  obtain ⟨rounds, fault⟩ := run
  cases hFault
  cases hRounds with
  | cons h hRest =>
    cases hRest with
    | cons h' hNil =>
      cases hNil
      exact ⟨_, _, rfl, h, h'⟩

end Runs

def State.ofReal {nx n m : ℕ} (x : Fin nx → ℝ) (z : Fin n → ℝ) (y : Fin m → ℝ) :
    State Extended where
  plant := (Vec.ofReal x).toArray
  warm := .ofReal z y

/-- Whether a state consists of real vectors of the sizes that a controller takes. -/
def State.IsReal (nx nu N : ℕ) (s : State Extended) : Prop :=
  ∃ (x : Fin nx → ℝ) (z : Fin (N * nu) → ℝ) (y : Fin (N * nu + (N - 1) * nu) → ℝ),
    s = .ofReal x z y

end ClosedLoop

/-- One round of a task, from the last answer. -/
def Task.demand {nx nu N : ℕ} (g : Task nx nu N) : ClosedLoop.Demand Extended where
  reference := g.reference
  bounds := g.limits.bounds

namespace Plant.IsBuilt

variable [Precision] {nx nu N : ℕ} {a : Plant nx nu} {c : Controller Extended nx nu N}
  {t : Settings ℝ}

/-- A round whose action gives a real control and a real answer moves the plant by the control
and hands the answer on. -/
theorem round_eq_ok (h : a.IsBuilt c t) {x : Fin nx → ℝ} {g : Task nx nu N}
    {z z' : Fin (N * nu) → ℝ} {y y' : Fin (N * nu + (N - 1) * nu) → ℝ} {v : Fin nu → ℝ}
    {act : Action Extended nu N}
    (hAction : c.action (Vec.ofReal x).toArray g.reference g.limits.bounds (.ofReal z y) = .ok act)
    (hControl : act.control = Vec.ofReal v) (hWarm : act.warmStart = .ofReal z' y') :
    ClosedLoop.round c g.demand (.ofReal x z y) =
      .ok { action := act, after := .ofReal (a.A *ᵥ x + a.B *ᵥ v) z' y' } := by
  have hStep : c.model.step (Vec.ofReal x).toArray act.control.toArray =
      .ok (Vec.ofReal (a.A *ᵥ x + a.B *ᵥ v)) := by
    rw [h.model, hControl, LinearModel.step_toArray, Plant.model, LinearModel.next_ofReal]
  simp only [ClosedLoop.round, Task.demand, ClosedLoop.State.ofReal, Option.getD_none, hAction,
    ok_bind, hStep, hWarm]
  rfl

/-- What a round does from any real state. -/
theorem exists_round (h : a.IsBuilt c t) (g : Task nx nu N) {s : ClosedLoop.State Extended}
    (hs : s.IsReal nx nu N) :
    ∃ r, ClosedLoop.round c g.demand s = .ok r ∧
      ((∃ v ∈ g.limits.inputs.block ⟨0, c.stages_pos⟩, r.action.control = Vec.ofReal v) ∧
        r.action.solution.iterations = t.maxIter) ∧ r.after.IsReal nx nu N := by
  obtain ⟨x, z, y, rfl⟩ := hs
  obtain ⟨_, v, -, hAction⟩ := h.exists_action x g z y
  have hRound := h.round_eq_ok hAction rfl rfl
  have hControl := (g.limits.inputs.block ⟨0, c.stages_pos⟩).project_mem
    (Stage.block v.x ⟨0, c.stages_pos⟩)
  exact ⟨_, hRound, ⟨⟨_, hControl, rfl⟩, rfl⟩, _, v.x, v.y, rfl⟩

/-- No run of tasks from a real state stops early, and its states stay real. -/
theorem run_isReal (h : a.IsBuilt c t) (tasks : List (Task nx nu N))
    {s : ClosedLoop.State Extended} (hs : s.IsReal nx nu N) :
    let run := ClosedLoop.run c (tasks.map Task.demand) s
    run.fault = none ∧ List.Forall₂ (fun _ r => r.after.IsReal nx nu N) tasks run.rounds := by
  refine ClosedLoop.run_of_round (·.IsReal nx nu N) (fun g _ s hs => ?_) hs
  obtain ⟨r, hRound, -, hAfter⟩ := h.exists_round g hs
  exact ⟨r, hRound, hAfter, hAfter⟩

end Plant.IsBuilt

/-- **Runs.** From every real state and start of the right sizes, and for all real references
and limits, which may change from round to round, a run meets every demand. Each control lies in
the box of the first stage of its round, and each action reports the number of iterations of the
settings. -/
theorem run_completes_in_boxes [Precision] {nx nu N : ℕ} {a : Plant nx nu}
    {settings : Settings Extended} {period : Extended} {c : Controller Extended nx nu N}
    (hc : a.build N settings period = .ok c) (x : Fin nx → ℝ) (z : Fin (N * nu) → ℝ)
    (y : Fin (N * nu + (N - 1) * nu) → ℝ) (tasks : List (Task nx nu N)) :
    let run := ClosedLoop.run c (tasks.map Task.demand) (.ofReal x z y)
    run.fault = none ∧ List.Forall₂ (fun g r =>
      (∃ v ∈ g.limits.inputs.block ⟨0, c.stages_pos⟩, r.action.control = Vec.ofReal v) ∧
        r.action.solution.iterations = settings.maxIter) tasks run.rounds := by
  obtain ⟨t, rfl, hBuilt⟩ := Plant.exists_isBuilt_of_build hc
  exact ClosedLoop.run_of_round (·.IsReal nx nu N) (fun g _ _ hs => hBuilt.exists_round g hs)
    ⟨x, z, y, rfl⟩

/-- Hold the states at `r` with inputs and changes of at most one. -/
def Task.hold (nx nu N : ℕ) (r : ℝ) : Task nx nu N where
  states := fun _ => r
  inputs := 0
  limits := .unit nu N

theorem integrator_run_completes :
    letI := Precision.double
    ∃ (c : Controller Extended 1 1 2) (r r' : ClosedLoop.Round Extended 1 2) (v v' : Fin 1 → ℝ),
      Plant.integrator.build 2 (Settings.ofReal .standard) (finite 0.02) = .ok c ∧
      ClosedLoop.run c [(Task.hold 1 1 2 0).demand, (Task.hold 1 1 2 7).demand]
        (.ofReal ![5] (0 : Fin (2 * 1) → ℝ) (0 : Fin (2 * 1 + (2 - 1) * 1) → ℝ)) =
          { rounds := [r, r'], fault := none } ∧
      (v ∈ (Limits.unit 1 2).inputs.block 0 ∧ r.action.control = Vec.ofReal v) ∧
      (v' ∈ (Limits.unit 1 2).inputs.block 0 ∧ r'.action.control = Vec.ofReal v') := by
  let _ := Precision.double
  obtain ⟨c, hc⟩ := Plant.exists_build_integrator two_pos
  obtain ⟨hFault, hRounds⟩ := run_completes_in_boxes hc ![5] 0 0 [.hold 1 1 2 0, .hold 1 1 2 7]
  obtain ⟨r, r', hRun, ⟨⟨v, hv⟩, -⟩, ⟨v', hv'⟩, -⟩ :=
    ClosedLoop.exists_rounds_of_two hFault hRounds
  exact ⟨c, r, r', v, v', hc, hRun, hv, hv'⟩

end RecedingHorizon
