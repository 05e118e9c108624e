import Mathlib.Order.Bounds.Basic
import RecedingHorizon.Proofs.Access
import RecedingHorizon.Proofs.Finiteness
import RecedingHorizon.Proofs.Limits

/-!
# Refused calls

What a controller says to a call of any lengths and entries. The checks of a call stand in
three functions; which fault is reported is decided by their order, which is lengths before
entries and entries before the order of the bounds.

The state and the reference have no check of their own. They enter every entry of the linear
cost, so a defect in them shows there (`IsBuilt.isFinite_get_tracking`), and the finiteness check
of the solver speaks for them.
-/

namespace RecedingHorizon

open Extended

theorem check_bind_eq_error_iff {ε β : Type} {x : Except ε Unit} {f : Unit → Except ε β} {e : ε} :
    x >>= f = .error e ↔ x = .error e ∨ x = .ok () ∧ f () = .error e := by
  cases x with
  | error e' => simp
  | ok _ => simp

theorem ite_ok_eq_error_iff {ε : Type} {c : Prop} [Decidable c] {e e' : ε} :
    (if c then .ok () else .error e : Except ε Unit) = .error e' ↔ ¬ c ∧ e' = e := by
  split <;> simp_all [eq_comm]

theorem map_eq_error_iff {ε α β : Type} {f : α → β} {x : Except ε α} {e : ε} :
    f <$> x = .error e ↔ x = .error e := by
  cases x with
  | error e' => exact ⟨fun h => congrArg Except.error (Except.error.inj h), fun h => h ▸ rfl⟩
  | ok a => exact ⟨nofun, nofun⟩

theorem exists_map_eq_ok_iff {ε α β : Type} {f : α → β} {x : Except ε α} :
    (∃ b, f <$> x = .ok b) ↔ ∃ a, x = .ok a := by
  cases x with
  | error e => exact ⟨nofun, nofun⟩
  | ok a => exact ⟨fun _ => ⟨a, rfl⟩, fun _ => ⟨f a, rfl⟩⟩

/-! ## Single checks -/

/-- The positions at which a lower bound does not stay below its upper one. -/
def disorder {S : Type} [LE S] (lower upper : Array S) : Set ℕ :=
  {i | ∃ lo ∈ lower[i]?, ∃ hi ∈ upper[i]?, ¬ lo ≤ hi}

def AllFinite {S : Type} [Scalar S] (v : Array S) : Prop := ∀ a ∈ v, Scalar.isFinite a = true

/-- Whether an outcome is the refusal of a wrong length. -/
def IsMismatch {S α : Type} (x : Except (Fault S) α) : Prop :=
  ∃ what expected got, got ≠ expected ∧ x = .error (.dimensionMismatch what expected got)

namespace Vec

variable {S : Type} [Scalar S] {n : ℕ}

theorem isFinite_iff_allFinite {v : Vec S n} : v.isFinite = true ↔ AllFinite v.toArray := by
  rw [isFinite, Vector.all_eq_true']
  simp only [AllFinite, Vector.mem_toArray_iff]

theorem mem_disorder_iff {lower upper : Vec S n} {i : ℕ} :
    i ∈ disorder lower.toArray upper.toArray ↔
      ∃ h : i < n, ¬ lower.get ⟨i, h⟩ ≤ upper.get ⟨i, h⟩ := by
  show (∃ lo ∈ lower.toArray[i]?, ∃ hi ∈ upper.toArray[i]?, ¬ lo ≤ hi) ↔ _
  simp only [Option.mem_def, Vector.getElem?_toArray, Vector.getElem?_eq_some_iff]
  constructor
  · rintro ⟨_, ⟨h, rfl⟩, _, ⟨_, rfl⟩, hNot⟩
    exact ⟨h, hNot⟩
  · rintro ⟨h, hNot⟩
    exact ⟨_, ⟨h, rfl⟩, _, ⟨h, rfl⟩, hNot⟩

theorem firstDisorder_eq_some_iff {lower upper : Vec S n} {i : Fin n} :
    firstDisorder lower upper = some i ↔ IsLeast (disorder lower.toArray upper.toArray) i := by
  rw [firstDisorder, ← Fin.find?_eq_find?_finRange, Fin.find?_eq_some_iff]
  simp only [Bool.not_eq_true', decide_eq_false_iff_not, Bool.not_eq_false', decide_eq_true_eq]
  constructor
  · rintro ⟨hNot, hBefore⟩
    refine ⟨mem_disorder_iff.mpr ⟨i.isLt, hNot⟩, fun j hj => ?_⟩
    obtain ⟨h, hNot'⟩ := mem_disorder_iff.mp hj
    by_contra hLt
    exact hNot' (hBefore ⟨j, h⟩ (not_le.mp hLt))
  · rintro ⟨hMem, hLeast⟩
    obtain ⟨_, hNot⟩ := mem_disorder_iff.mp hMem
    refine ⟨hNot, fun j hj => ?_⟩
    by_contra hNot'
    exact absurd (hLeast (mem_disorder_iff.mpr ⟨j.isLt, hNot'⟩)) (not_le.mpr hj)

theorem disorder_eq_empty_iff {lower upper : Vec S n} :
    disorder lower.toArray upper.toArray = ∅ ↔ ∀ i, lower.get i ≤ upper.get i := by
  rw [Set.eq_empty_iff_forall_notMem]
  simp only [mem_disorder_iff, not_exists, not_not]
  exact ⟨fun h i => h i i.isLt, fun h i hi => h ⟨i, hi⟩⟩

end Vec

namespace Check

variable {S : Type}

theorem length_bind_isMismatch {α : Type} {what : String} {v : Array S} {n : ℕ}
    {f : Vec S n → Except (Fault S) α} (h : ∀ hSize : v.size = n, IsMismatch (f ⟨v, hSize⟩)) :
    IsMismatch (length what v n >>= f) := by
  unfold length
  split
  · rename_i hSize
    exact h hSize
  · rename_i hSize
    exact ⟨what, n, v.size, hSize, rfl⟩

variable [Scalar S] {what : String} {n : ℕ} {e : Fault S}

theorem finite_eq_error_iff {v : Vec S n} :
    finite what v = .error e ↔ ¬ v.isFinite = true ∧ e = .nonFinite what := by
  rw [finite, ite_ok_eq_error_iff]

theorem ordered_eq_error_iff {lower upper : Vec S n} :
    ordered what lower upper = .error e ↔
      ∃ i, e = .invalidBounds what i ∧ IsLeast (disorder lower.toArray upper.toArray) i := by
  unfold ordered
  split
  · rename_i i hFirst
    have hLeast := Vec.firstDisorder_eq_some_iff.mp hFirst
    rw [Except.error.injEq]
    constructor
    · rintro rfl
      exact ⟨i, rfl, hLeast⟩
    · rintro ⟨j, rfl, hj⟩
      rw [hLeast.unique hj]
  · rename_i hFirst
    have hOrdered : ordered what lower upper = .ok () := by rw [ordered, hFirst]
    have hEmpty := Vec.disorder_eq_empty_iff.mpr (ordered_eq_ok_iff.mp hOrdered)
    rw [hEmpty]
    simp [IsLeast]

end Check

/-! ## Solves -/

namespace Qp.Solver

variable {S : Type} [Scalar S] {n m : ℕ} (s : Solver S n m) {d : Data S n m} {z : Vec S n}
  {y : Vec S m} {k : ℕ}

/-- A solve of data that fits is refused for the first defect: of the linear cost, of the start,
of the order of the bounds. -/
theorem solveWith_eq_error_iff {e : Fault S} :
    s.solveWith d.q.toArray d.lower.toArray d.upper.toArray { z := z.toArray, y := y.toArray }
        (k + 1) = .error e ↔
      (¬ d.q.isFinite = true ∧ e = .nonFinite "q") ∨ d.q.isFinite = true ∧
        ((¬ z.isFinite = true ∧ e = .nonFinite "warm start z") ∨ z.isFinite = true ∧
          ((¬ y.isFinite = true ∧ e = .nonFinite "warm start y") ∨ y.isFinite = true ∧
            ∃ i, e = .invalidBounds "l, u" i ∧
              IsLeast (disorder d.lower.toArray d.upper.toArray) i)) := by
  have hAnswer : (pure (s.answer d z y k) : Except (Fault S) _) ≠ .error e := nofun
  rw [solveWith_toArray]
  simp only [check_bind_eq_error_iff, Check.finite_eq_error_iff, Check.finite_eq_ok_iff,
    Check.ordered_eq_error_iff, hAnswer, and_false, or_false]

end Qp.Solver

/-! ## Calls -/

/-- What an action is called with, of any lengths and entries. -/
structure Call (S : Type) where
  state : Array S
  reference : Reference S
  bounds : InputBounds S
  warm : WarmStart S

namespace Call

variable {S : Type} [Scalar S]

/-- Whether the nine vectors have the lengths that a controller takes. -/
structure Fits (nx nu N : ℕ) (k : Call S) : Prop where
  state : k.state.size = nx
  states : k.reference.states.size = N * nx
  inputs : k.reference.inputs.size = N * nu
  inputMin : k.bounds.inputMin.size = N * nu
  inputMax : k.bounds.inputMax.size = N * nu
  rateMin : k.bounds.rateMin.size = (N - 1) * nu
  rateMax : k.bounds.rateMax.size = (N - 1) * nu
  z : k.warm.z.size = N * nu
  y : k.warm.y.size = N * nu + (N - 1) * nu

/-- Whether the state and the reference are finite. -/
structure IsMeasured (k : Call S) : Prop where
  state : AllFinite k.state
  states : AllFinite k.reference.states
  inputs : AllFinite k.reference.inputs

/-- The positions of the stacked bounds that are out of order. -/
def disorder (k : Call S) : Set ℕ := RecedingHorizon.disorder k.bounds.lower k.bounds.upper

end Call

namespace Controller

variable {S : Type} [Scalar S] {nx nu N : ℕ} (c : Controller S nx nu N) {k : Call S} {j : ℕ}

/-- The action of a controller on a call. -/
def respond (k : Call S) : Except (Fault S) (Action S nu N) :=
  c.action k.state k.reference k.bounds k.warm

/-- All lengths are judged before the first entry. -/
theorem respond_isMismatch (hIter : c.qp.settings.maxIter = j + 1) (h : ¬ k.Fits nx nu N) :
    IsMismatch (c.respond k) := by
  simp only [respond, action, linearCost, Qp.Solver.solve, hIter, Qp.Solver.solveWith, bind_assoc]
  refine Check.length_bind_isMismatch fun hInputMin => ?_
  refine Check.length_bind_isMismatch fun hInputMax => ?_
  refine Check.length_bind_isMismatch fun hRateMin => ?_
  refine Check.length_bind_isMismatch fun hRateMax => ?_
  refine Check.length_bind_isMismatch fun hState => ?_
  refine Check.length_bind_isMismatch fun hStates => ?_
  refine Check.length_bind_isMismatch fun hInputs => ?_
  rw [pure_bind]
  refine Check.length_bind_isMismatch fun _ => ?_
  refine Check.length_bind_isMismatch fun _ => ?_
  refine Check.length_bind_isMismatch fun _ => ?_
  refine Check.length_bind_isMismatch fun hz => ?_
  refine Check.length_bind_isMismatch fun hy => ?_
  exact absurd ⟨hState, hStates, hInputs, hInputMin, hInputMax, hRateMin, hRateMax, hz, hy⟩ h

end Controller

namespace Plant.IsBuilt

variable {nx nu N : ℕ} {a : Plant nx nu} {c : Controller Extended nx nu N} {t : Settings ℝ}
  {k : Call Extended}

theorem exists_maxIter_eq (h : a.IsBuilt c t) : ∃ j, c.qp.settings.maxIter = j + 1 := by
  obtain ⟨j, hj⟩ := Nat.exists_eq_add_of_le' h.valid.maxIter_pos
  refine ⟨j, ?_⟩
  rw [h.settings]
  exact hj

variable [Precision]

/-- A call that fits is a solve of its condensed program, whose linear cost shows the defects of
state and reference. -/
theorem exists_respond_eq (h : a.IsBuilt c t) (hInputs : 1 ≤ nu) (hFits : k.Fits nx nu N) :
    ∃ (d : Qp.Data Extended (N * nu) (N * nu + (N - 1) * nu)) (z : Vec Extended (N * nu))
      (y : Vec Extended (N * nu + (N - 1) * nu)) (j : ℕ)
      (f : Qp.Solution Extended (N * nu) (N * nu + (N - 1) * nu) → Action Extended nu N),
      (d.q.isFinite = true ↔ k.IsMeasured) ∧ (z.isFinite = true ↔ AllFinite k.warm.z) ∧
        (y.isFinite = true ↔ AllFinite k.warm.y) ∧
        disorder d.lower.toArray d.upper.toArray = k.disorder ∧
        c.respond k = f <$> c.qp.solveWith d.q.toArray d.lower.toArray d.upper.toArray
          { z := z.toArray, y := y.toArray } (j + 1) := by
  obtain ⟨j, hIter⟩ := h.exists_maxIter_eq
  have hMeasured := h.isFinite_tracking (Nat.mul_pos c.stages_pos hInputs) ⟨k.state, hFits.state⟩
    ⟨k.reference.states, hFits.states⟩ ⟨k.reference.inputs, hFits.inputs⟩
  have hRespond := c.action_toArray ⟨k.state, hFits.state⟩ ⟨k.reference.states, hFits.states⟩
    ⟨k.reference.inputs, hFits.inputs⟩ ⟨k.bounds.inputMin, hFits.inputMin⟩
    ⟨k.bounds.inputMax, hFits.inputMax⟩ ⟨k.bounds.rateMin, hFits.rateMin⟩
    ⟨k.bounds.rateMax, hFits.rateMax⟩ k.warm
  rw [Qp.Solver.solve, hIter] at hRespond
  refine ⟨{ q := c.tracking _ _ _, lower := _, upper := _ }, ⟨k.warm.z, hFits.z⟩,
    ⟨k.warm.y, hFits.y⟩, j, _, ?_, Vec.isFinite_iff_allFinite, Vec.isFinite_iff_allFinite, rfl,
    hRespond⟩
  rw [hMeasured, Bool.and_eq_true, Bool.and_eq_true, Vec.isFinite_iff_allFinite,
    Vec.isFinite_iff_allFinite, Vec.isFinite_iff_allFinite]
  exact ⟨fun hAll => ⟨hAll.1.1, hAll.1.2, hAll.2⟩,
    fun hAll => ⟨⟨hAll.state, hAll.states⟩, hAll.inputs⟩⟩

/-- A call that fits is refused for its first defect. -/
theorem respond_eq_error_iff (h : a.IsBuilt c t) (hInputs : 1 ≤ nu) (hFits : k.Fits nx nu N)
    {e : Fault Extended} :
    c.respond k = .error e ↔
      (¬ k.IsMeasured ∧ e = .nonFinite "q") ∨ k.IsMeasured ∧
        ((¬ AllFinite k.warm.z ∧ e = .nonFinite "warm start z") ∨ AllFinite k.warm.z ∧
          ((¬ AllFinite k.warm.y ∧ e = .nonFinite "warm start y") ∨ AllFinite k.warm.y ∧
            ∃ i, e = .invalidBounds "l, u" i ∧ IsLeast k.disorder i)) := by
  obtain ⟨d, z, y, j, f, hq, hz, hy, hBounds, hRespond⟩ := h.exists_respond_eq hInputs hFits
  rw [hRespond, map_eq_error_iff, Qp.Solver.solveWith_eq_error_iff, hq, hz, hy, hBounds]

theorem exists_respond_eq_ok_iff (h : a.IsBuilt c t) (hInputs : 1 ≤ nu) (hFits : k.Fits nx nu N) :
    (∃ act, c.respond k = .ok act) ↔
      k.IsMeasured ∧ AllFinite k.warm.z ∧ AllFinite k.warm.y ∧ k.disorder = ∅ := by
  obtain ⟨d, z, y, j, f, hq, hz, hy, hBounds, hRespond⟩ := h.exists_respond_eq hInputs hFits
  rw [hRespond, exists_map_eq_ok_iff, ← hBounds, Vec.disorder_eq_empty_iff]
  rw [Qp.Solver.exists_solveWith_eq_ok_iff, hq, hz, hy]
  exact and_iff_right (Nat.le_add_left 1 j)

end Plant.IsBuilt

/-- **Refused calls.** Whatever it is called with, an action reaches for no entry that is not
there. A controller with inputs accepts exactly the calls of the right lengths whose state,
reference and start are finite and whose bounds are in order. A wrong length is refused as such. In
a call of the right lengths any entry of the state or of the reference that is not finite is
reported in the name of the linear cost, then the start is judged, and of the bounds that are out
of order the first one is named. -/
theorem action_accepts_iff [Precision] {A B : Grid Extended}
    {model : LinearModel Extended A.rows B.cols} (hModel : LinearModel.ofGrids A B = .ok model)
    {p r N : ℕ} {cost : StageCost Extended p r} {settings : Settings Extended} {period : Extended}
    {c : Controller Extended A.rows B.cols N}
    (hc : Controller.build N model cost settings period = .ok c) (hInputs : 1 ≤ B.cols)
    (k : Call Extended) :
    ((Assembly.ofController c).action k.state k.reference k.bounds k.warm).run =
      some ((fun act => (act.solution, act.control.toArray)) <$> c.respond k) ∧
    (¬ k.Fits A.rows B.cols N → IsMismatch (c.respond k)) ∧
    (k.Fits A.rows B.cols N →
      (c.respond k = .error (.nonFinite "q") ↔ ¬ k.IsMeasured) ∧
      (c.respond k = .error (.nonFinite "warm start z") ↔
        k.IsMeasured ∧ ¬ AllFinite k.warm.z) ∧
      (c.respond k = .error (.nonFinite "warm start y") ↔
        k.IsMeasured ∧ AllFinite k.warm.z ∧ ¬ AllFinite k.warm.y) ∧
      (∀ i, c.respond k = .error (.invalidBounds "l, u" i) ↔
        k.IsMeasured ∧ AllFinite k.warm.z ∧ AllFinite k.warm.y ∧ IsLeast k.disorder i) ∧
      ((∃ act, c.respond k = .ok act) ↔
        k.IsMeasured ∧ AllFinite k.warm.z ∧ AllFinite k.warm.y ∧ k.disorder = ∅)) := by
  obtain ⟨hA, hB⟩ := LinearModel.isFinite_of_ofGrids hModel
  obtain ⟨a, ha⟩ := Plant.exists_of_build hA hB hInputs hc
  obtain ⟨t, -, hBuilt⟩ := Plant.exists_isBuilt_of_build ha
  refine ⟨Assembly.action_eq_some c _ _ _ _, fun hFits => ?_, fun hFits => ?_⟩
  · obtain ⟨j, hIter⟩ := hBuilt.exists_maxIter_eq
    exact c.respond_isMismatch hIter hFits
  · have hError := fun e => hBuilt.respond_eq_error_iff hInputs hFits (e := e)
    refine ⟨?_, ?_, ?_, fun i => ?_, hBuilt.exists_respond_eq_ok_iff hInputs hFits⟩
    · rw [hError]
      simp
    · rw [hError]
      simp
    · rw [hError]
      simp
    · rw [hError]
      simp

/-- Hold a scalar plant at zero over two stages, with inputs of at most one and free changes. -/
noncomputable def Call.hold : Call Extended where
  state := #[finite 0]
  reference := { states := #[finite 0, finite 0], inputs := #[finite 0, finite 0] }
  bounds := {
    inputMin := #[finite (-1), finite (-1)], inputMax := #[finite 1, finite 1]
    rateMin := #[negInf], rateMax := #[posInf] }
  warm := { z := #[finite 0, finite 0], y := #[finite 0, finite 0, finite 0] }

theorem Call.hold_fits : Call.hold.Fits 1 1 2 := by constructor <;> rfl

theorem integrator_action_accepts :
    letI := Precision.double
    let short : Call Extended := { Call.hold with state := #[] }
    ∃ (model : LinearModel Extended 1 1) (c : Controller Extended 1 1 2),
      LinearModel.ofGrids { rows := 1, cols := 1, entries := Mat.ofReal 1 }
        { rows := 1, cols := 1, entries := Mat.ofReal 1 } = .ok model ∧
      Controller.build 2 model Plant.integrator.cost (Settings.ofReal .standard) (finite 0.02) =
        .ok c ∧
      (∃ act, c.respond .hold = .ok act) ∧
      c.respond { Call.hold with state := #[nan] } = .error (.nonFinite "q") ∧
      IsMismatch (c.respond short) ∧
      ((Assembly.ofController c).action short.state short.reference short.bounds short.warm).run =
        some ((fun act => (act.solution, act.control.toArray)) <$> c.respond short) ∧
      c.respond { Call.hold with bounds := { Call.hold.bounds with rateMax := #[nan] } } =
        .error (.invalidBounds "l, u" 2) := by
  let _ := Precision.double
  intro short
  obtain ⟨c, hc⟩ := Plant.exists_build_integrator two_pos
  have hModel := LinearModel.ofGrids_ofReal Plant.integrator.A Plant.integrator.B
  obtain ⟨hRange, hShort, -⟩ := action_accepts_iff hModel hc le_rfl short
  have hState : AllFinite #[finite 0] := by simp [AllFinite]
  have hTwo : AllFinite #[finite 0, finite 0] := by simp [AllFinite]
  have hThree : AllFinite #[finite 0, finite 0, finite 0] := by simp [AllFinite]
  have hBox : finite (-1) ≤ finite 1 := finite_le.mpr (by norm_num)
  refine ⟨_, c, hModel, hc, ?_, ?_, ?_, hRange, ?_⟩
  · obtain ⟨-, -, hAnswers⟩ := action_accepts_iff hModel hc le_rfl .hold
    obtain ⟨-, -, -, -, hOk⟩ := hAnswers Call.hold_fits
    refine hOk.mpr ⟨⟨hState, hTwo, hTwo⟩, hTwo, hThree, ?_⟩
    have hOrdered := @Vec.disorder_eq_empty_iff Extended _ 3
      #v[finite (-1), finite (-1), negInf] #v[finite 1, finite 1, posInf]
    refine hOrdered.mpr fun i => ?_
    match i with
    | 0 => exact hBox
    | 1 => exact hBox
    | 2 => trivial
  · obtain ⟨-, -, hAnswers⟩ :=
      action_accepts_iff hModel hc le_rfl { Call.hold with state := #[nan] }
    obtain ⟨hState, -⟩ := hAnswers (by constructor <;> rfl)
    refine hState.mpr fun hMeasured => ?_
    have hNan := hMeasured.state nan (by simp)
    cases hNan
  · refine hShort fun hFits => ?_
    cases hFits.state
  · obtain ⟨-, -, hAnswers⟩ := action_accepts_iff hModel hc le_rfl
      { Call.hold with bounds := { Call.hold.bounds with rateMax := #[nan] } }
    obtain ⟨-, -, -, hBounds, -⟩ := hAnswers (by constructor <;> rfl)
    have hDisorder := @Vec.mem_disorder_iff Extended _ 3
      #v[finite (-1), finite (-1), negInf] #v[finite 1, finite 1, nan]
    refine (hBounds 2).mpr ⟨⟨hState, hTwo, hTwo⟩, hTwo, hThree, ?_, ?_⟩
    · exact hDisorder.mpr ⟨by omega, id⟩
    · intro i hi
      obtain ⟨_, hNot⟩ := hDisorder.mp hi
      by_contra hBefore
      have hCases : i = 0 ∨ i = 1 := by omega
      rcases hCases with rfl | rfl
      · exact hNot hBox
      · exact hNot hBox

end RecedingHorizon
