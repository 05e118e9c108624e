import Mathlib.Topology.Instances.Matrix
import Mathlib.Topology.MetricSpace.Sequences
import Mathlib.Topology.Order.MonotoneConvergence
import RecedingHorizon.Proofs.Energy

/-!
# Convergence

With a convex cost and a program that has an optimum, every run converges to an optimum,
for all valid settings and from every start (`solve_converges`).

From the first step on, the energy to an optimum decreases, and what it loses
bounds the defect `A x⁺ - w` and the move `x⁺ - x`, so both vanish in the limit. What a step
reads of an iterate, its `memory`, stays bounded and has a cluster point. The step is
continuous in the memory, so the cluster point belongs to an optimum. The energy to
that optimum decreases too, and it vanishes along a subsequence; so it vanishes.

Without regularization the energy does not see the points at all, only the shifted
slacks. The points then converge because each is a continuous function of the memory
before it.
-/

namespace RecedingHorizon

namespace Qp

open Filter Matrix Topology

/-! ## Decreasing energies -/

theorem antitone_of_decrease {V loss : ℕ → ℝ} (hLoss : ∀ k, 0 ≤ loss k)
    (hDecrease : ∀ k, V (k + 1) + loss k ≤ V k) : Antitone V :=
  antitone_nat_of_succ_le fun k => (le_add_of_nonneg_right (hLoss k)).trans (hDecrease k)

theorem tendsto_ciInf_of_antitone {V : ℕ → ℝ} (hV : ∀ k, 0 ≤ V k) (hAnti : Antitone V) :
    Tendsto V atTop (𝓝 (⨅ k, V k)) := by
  refine tendsto_atTop_ciInf hAnti ⟨0, ?_⟩
  rintro _ ⟨k, rfl⟩
  exact hV k

/-- What a nonnegative energy loses in a step tends to zero. -/
theorem tendsto_loss {V loss : ℕ → ℝ} (hV : ∀ k, 0 ≤ V k) (hLoss : ∀ k, 0 ≤ loss k)
    (hDecrease : ∀ k, V (k + 1) + loss k ≤ V k) : Tendsto loss atTop (𝓝 0) := by
  have hLimit := tendsto_ciInf_of_antitone hV (antitone_of_decrease hLoss hDecrease)
  have hDifference : Tendsto (fun k => V k - V (k + 1)) atTop (𝓝 0) := by
    rw [← sub_self (⨅ k, V k)]
    exact hLimit.sub ((tendsto_add_atTop_iff_nat 1).mpr hLimit)
  exact squeeze_zero hLoss (fun k => le_sub_iff_add_le'.mpr (hDecrease k)) hDifference

/-- A decreasing energy that vanishes along a subsequence vanishes. -/
theorem tendsto_of_antitone_of_subseq {V : ℕ → ℝ} (hV : ∀ k, 0 ≤ V k) (hAnti : Antitone V)
    {φ : ℕ → ℕ} (hφ : Tendsto φ atTop atTop) (hSub : Tendsto (V ∘ φ) atTop (𝓝 0)) :
    Tendsto V atTop (𝓝 0) := by
  have hLimit := tendsto_ciInf_of_antitone hV hAnti
  rwa [tendsto_nhds_unique (hLimit.comp hφ) hSub] at hLimit

theorem norm_le_sqrt_of_sq_le {E : Type} [SeminormedAddCommGroup E] {c d : ℝ} (hc : 0 < c) {g : E}
    (hBound : c * ‖g‖ ^ 2 ≤ d) : ‖g‖ ≤ Real.sqrt (d / c) := by
  apply Real.le_sqrt_of_sq_le
  rwa [le_div_iff₀' hc]

/-- A sequence whose squared norms are bounded by a vanishing quantity vanishes. -/
theorem tendsto_zero_of_sq_le {E : Type} [SeminormedAddCommGroup E] {c : ℝ} (hc : 0 < c)
    {f : ℕ → E} {d : ℕ → ℝ} (hBound : ∀ k, c * ‖f k‖ ^ 2 ≤ d k) (hd : Tendsto d atTop (𝓝 0)) :
    Tendsto f atTop (𝓝 0) := by
  have hRoot : Tendsto (fun k => Real.sqrt (d k / c)) atTop (𝓝 0) := by
    have hQuotient := (hd.div_const c).sqrt
    rwa [zero_div, Real.sqrt_zero] at hQuotient
  exact squeeze_zero_norm (fun k => norm_le_sqrt_of_sq_le hc (hBound k)) hRoot

theorem tendsto_zero_of_dot_le {N : ℕ} {c : ℝ} (hc : 0 < c) {f : ℕ → Fin N → ℝ} {d : ℕ → ℝ}
    (hBound : ∀ k, c * (f k ⬝ᵥ f k) ≤ d k) (hd : Tendsto d atTop (𝓝 0)) :
    Tendsto f atTop (𝓝 0) :=
  tendsto_zero_of_sq_le hc
    (fun k => (mul_le_mul_of_nonneg_left (norm_sq_le_dot_self (f k)) hc.le).trans (hBound k)) hd

namespace Problem

variable {n m : ℕ} {p : Problem n m} {t : Settings ℝ}

/-! ## What a step reads of an iterate -/

/-- The point, scaled so that the energy sees it, and the shifted slack. -/
noncomputable def memory (t : Settings ℝ) (u : Point n m) : (Fin n → ℝ) × (Fin m → ℝ) :=
  (Real.sqrt t.sigma • u.x, u.w + t.rho⁻¹ • u.y)

/-- The slack and the multipliers that a memory belongs to, and the point that the next
step finds. -/
noncomputable def restore (p : Problem n m) (t : Settings ℝ) (a : (Fin n → ℝ) × (Fin m → ℝ)) :
    Point n m where
  x := (p.system t)⁻¹ *ᵥ (Real.sqrt t.sigma • a.1 - p.q +
    p.Aᵀ *ᵥ (t.rho • p.box.project a.2 - t.rho • (a.2 - p.box.project a.2)))
  w := p.box.project a.2
  y := t.rho • (a.2 - p.box.project a.2)

theorem restore_memory (ht : t.IsValid) {u : Point n m} (hu : p.box.IsNormal u.w u.y) :
    p.restore t (memory t u) = { u with x := (p.step t u).x } := by
  have hw : p.box.project (u.w + t.rho⁻¹ • u.y) = u.w :=
    (Box.project_add_smul_eq_iff (inv_pos.mpr ht.rho_pos)).mpr hu
  have hy : t.rho • (u.w + t.rho⁻¹ • u.y - u.w) = u.y := by
    rw [add_sub_cancel_left, smul_inv_smul₀ ht.rho_pos.ne']
  have hx : Real.sqrt t.sigma • Real.sqrt t.sigma • u.x = t.sigma • u.x := by
    rw [smul_smul, Real.mul_self_sqrt ht.sigma_nonneg]
  simp only [restore, memory, hw, hy, hx]
  rfl

theorem restore_isNormal (ht : t.IsValid) (a : (Fin n → ℝ) × (Fin m → ℝ)) :
    p.box.IsNormal (p.restore t a).w (p.restore t a).y :=
  (Box.isNormal_smul_iff ht.rho_pos).mpr (Box.project_eq_iff.mp rfl)

section Continuity

variable (p t)

theorem continuous_project_snd :
    Continuous fun a : (Fin n → ℝ) × (Fin m → ℝ) => p.box.project a.2 :=
  p.box.continuous_project.comp continuous_snd

theorem continuous_restore_w : Continuous fun a => (p.restore t a).w := p.continuous_project_snd

theorem continuous_restore_y : Continuous fun a => (p.restore t a).y :=
  (continuous_snd.sub p.continuous_project_snd).const_smul t.rho

theorem continuous_restore_x : Continuous fun a => (p.restore t a).x := by
  have hPull : Continuous fun a : (Fin n → ℝ) × (Fin m → ℝ) =>
      t.rho • p.box.project a.2 - t.rho • (a.2 - p.box.project a.2) :=
    (p.continuous_project_snd.const_smul t.rho).sub (p.continuous_restore_y t)
  exact continuous_const.matrix_mulVec
    (((continuous_fst.const_smul (Real.sqrt t.sigma)).sub continuous_const).add
      (continuous_const.matrix_mulVec hPull))

end Continuity

theorem energy_eq_memory (ht : t.IsValid) (u u' : Point n m) :
    energy t u u' =
      t.rho * ((memory t u - memory t u').2 ⬝ᵥ (memory t u - memory t u').2) +
        t.alpha * ((memory t u - memory t u').1 ⬝ᵥ (memory t u - memory t u').1) := by
  have hSlack : (memory t u - memory t u').2 = u.w - u'.w + t.rho⁻¹ • (u.y - u'.y) := by
    rw [smul_sub]
    change u.w + _ - (u'.w + _) = _
    abel
  have hPoint : (memory t u - memory t u').1 = Real.sqrt t.sigma • (u.x - u'.x) := (smul_sub ..).symm
  rw [energy, hSlack, hPoint, smul_dotProduct, dotProduct_smul, smul_eq_mul, smul_eq_mul,
    ← mul_assoc (Real.sqrt t.sigma), Real.mul_self_sqrt ht.sigma_nonneg, mul_assoc t.alpha]

theorem norm_memory_sub_sq_le (ht : t.IsValid) (u u' : Point n m) :
    min t.rho t.alpha * ‖memory t u - memory t u'‖ ^ 2 ≤ energy t u u' := by
  generalize hGap : memory t u - memory t u' = gap
  have hSlack : min t.rho t.alpha * ‖gap.2‖ ^ 2 ≤ t.rho * (gap.2 ⬝ᵥ gap.2) :=
    mul_le_mul (min_le_left _ _) (norm_sq_le_dot_self _) (sq_nonneg _) ht.rho_pos.le
  have hPoint : min t.rho t.alpha * ‖gap.1‖ ^ 2 ≤ t.alpha * (gap.1 ⬝ᵥ gap.1) :=
    mul_le_mul (min_le_right _ _) (norm_sq_le_dot_self _) (sq_nonneg _) ht.alpha_pos.le
  have hSlack' : 0 ≤ t.rho * (gap.2 ⬝ᵥ gap.2) := mul_nonneg ht.rho_pos.le (dot_self_nonneg _)
  have hPoint' : 0 ≤ t.alpha * (gap.1 ⬝ᵥ gap.1) := mul_nonneg ht.alpha_pos.le (dot_self_nonneg _)
  rw [energy_eq_memory ht, hGap, Prod.norm_def]
  rcases max_choice ‖gap.1‖ ‖gap.2‖ with hMax | hMax
  · rw [hMax]
    linarith
  · rw [hMax]
    linarith

/-! ## The tail of a run -/

/-- The iterates of a run from the first step on. -/
structure IsTail (p : Problem n m) (t : Settings ℝ) (u : ℕ → Point n m) : Prop where
  step : ∀ k, u (k + 1) = p.step t (u k)
  normal : ∀ k, p.box.IsNormal (u k).w (u k).y

theorem run_isTail (ht : t.IsValid) (hUnit : IsUnit (p.system t).det) (u₀ : Point n m) :
    p.IsTail t fun k => p.run t (k + 1) u₀ where
  step _ := rfl
  normal _ := (step_isStep hUnit ht.rho_pos _).normal

theorem IsKKT.isStep {z : Fin n → ℝ} {y : Fin m → ℝ} (h : p.IsKKT z y) :
    p.IsStep t (p.rest z y) (p.rest z y) where
  stationary := by
    rw [rest_x, rest_w, rest_y, sub_self, sub_self, smul_zero, smul_zero, add_zero]
    exact h.stationary
  shift := by rw [rest_x, rest_w, sub_self, smul_zero, add_zero]
  normal := h.normal

namespace IsTail

variable {u : ℕ → Point n m} {z : Fin n → ℝ} {y : Fin m → ℝ}

/-- How far the image of the next point is from the slack. -/
def defect (p : Problem n m) (u : ℕ → Point n m) (k : ℕ) : Fin m → ℝ :=
  p.A *ᵥ (u (k + 1)).x - (u k).w

/-- The step of the point, scaled so that the energy sees it. -/
noncomputable def move (t : Settings ℝ) (u : ℕ → Point n m) (k : ℕ) : Fin n → ℝ :=
  Real.sqrt t.sigma • ((u (k + 1)).x - (u k).x)

theorem dot_move_eq (ht : t.IsValid) (k : ℕ) : move t u k ⬝ᵥ move t u k =
    t.sigma * (((u (k + 1)).x - (u k).x) ⬝ᵥ ((u (k + 1)).x - (u k).x)) := by
  rw [move, smul_dotProduct, dotProduct_smul, smul_eq_mul, smul_eq_mul, ← mul_assoc,
    Real.mul_self_sqrt ht.sigma_nonneg]

theorem defect_loss_nonneg (ht : t.IsValid) (k : ℕ) :
    0 ≤ t.alpha * (2 - t.alpha) * t.rho * (defect p u k ⬝ᵥ defect p u k) :=
  mul_nonneg ht.relaxation_pos.le (dot_self_nonneg _)

theorem move_loss_nonneg (ht : t.IsValid) (k : ℕ) :
    0 ≤ t.alpha * (move t u k ⬝ᵥ move t u k) :=
  mul_nonneg ht.alpha_pos.le (dot_self_nonneg _)

theorem loss_nonneg (ht : t.IsValid) (k : ℕ) :
    0 ≤ t.alpha * (2 - t.alpha) * t.rho * (defect p u k ⬝ᵥ defect p u k) +
      t.alpha * (move t u k ⬝ᵥ move t u k) :=
  add_nonneg (defect_loss_nonneg ht k) (move_loss_nonneg ht k)

variable (h : p.IsTail t u) (ht : t.IsValid) (hUnit : IsUnit (p.system t).det)

include h ht hUnit in
theorem isStep (k : ℕ) : p.IsStep t (u k) (u (k + 1)) :=
  h.step k ▸ step_isStep hUnit ht.rho_pos (u k)

variable (hP : p.P.PosSemidef)

include h ht hUnit hP

/-- A step takes the squares of the defect and of the move from the energy to an
optimum. -/
theorem energy_add_loss_le (hKKT : p.IsKKT z y) (k : ℕ) :
    energy t (u (k + 1)) (p.rest z y) +
      (t.alpha * (2 - t.alpha) * t.rho * (defect p u k ⬝ᵥ defect p u k) +
        t.alpha * (move t u k ⬝ᵥ move t u k)) ≤ energy t (u k) (p.rest z y) := by
  have hEnergy := (h.isStep ht hUnit k).energy_le hKKT.isStep ht hP (h.normal k) hKKT.normal
  have hDefect : p.A *ᵥ ((u (k + 1)).x - z) - ((u k).w - p.A *ᵥ z) = defect p u k := by
    rw [defect, mulVec_sub]
    abel
  have hDifference : (u (k + 1)).x - z - ((u k).x - z) = (u (k + 1)).x - (u k).x := by abel
  have hMove : t.alpha * (move t u k ⬝ᵥ move t u k) = t.alpha * t.sigma *
      (((u (k + 1)).x - (u k).x) ⬝ᵥ ((u (k + 1)).x - (u k).x)) := by
    rw [dot_move_eq ht, mul_assoc]
  simp only [rest_x, rest_w, hDefect, hDifference] at hEnergy
  rw [hMove, ← add_assoc]
  exact hEnergy

theorem antitone_energy (hKKT : p.IsKKT z y) : Antitone fun k => energy t (u k) (p.rest z y) :=
  antitone_of_decrease (loss_nonneg ht) (h.energy_add_loss_le ht hUnit hP hKKT)

theorem tendsto_defect_move (hKKT : p.IsKKT z y) :
    Tendsto (defect p u) atTop (𝓝 0) ∧ Tendsto (move t u) atTop (𝓝 0) := by
  have hLoss := tendsto_loss (fun k => energy_nonneg ht (u k) (p.rest z y)) (loss_nonneg ht)
    (h.energy_add_loss_le ht hUnit hP hKKT)
  constructor
  · exact tendsto_zero_of_dot_le ht.relaxation_pos
      (fun k => le_add_of_nonneg_right (move_loss_nonneg ht k)) hLoss
  · exact tendsto_zero_of_dot_le ht.alpha_pos
      (fun k => le_add_of_nonneg_left (defect_loss_nonneg ht k)) hLoss

/-- The memories stay in a ball around that of an optimum, so they have a cluster point. -/
theorem exists_cluster (hKKT : p.IsKKT z y) :
    ∃ a, ∃ φ : ℕ → ℕ, StrictMono φ ∧ Tendsto (fun j => memory t (u (φ j))) atTop (𝓝 a) := by
  let v := p.rest z y
  have hWeight : 0 < min t.rho t.alpha := lt_min ht.rho_pos ht.alpha_pos
  have hBall : ∀ k, memory t (u k) ∈
      Metric.closedBall (memory t v) (Real.sqrt (energy t (u 0) v / min t.rho t.alpha)) := by
    intro k
    rw [mem_closedBall_iff_norm]
    apply norm_le_sqrt_of_sq_le hWeight
    exact (norm_memory_sub_sq_le ht _ _).trans
      (h.antitone_energy ht hUnit hP hKKT (Nat.zero_le k))
  obtain ⟨a, -, φ, hMono, hLimit⟩ := tendsto_subseq_of_bounded Metric.isBounded_closedBall hBall
  exact ⟨a, φ, hMono, hLimit⟩

/-- A cluster point of the memories is the memory of an optimum. -/
theorem cluster_isKKT (hKKT : p.IsKKT z y) {a : (Fin n → ℝ) × (Fin m → ℝ)} {φ : ℕ → ℕ}
    (hφ : Tendsto φ atTop atTop) (ha : Tendsto (fun j => memory t (u (φ j))) atTop (𝓝 a)) :
    p.IsKKT (p.restore t a).x (p.restore t a).y ∧
      p.A *ᵥ (p.restore t a).x = (p.restore t a).w ∧ memory t (p.restore t a) = a := by
  have hNext : ∀ j, (p.restore t (memory t (u (φ j)))).x = (u (φ j + 1)).x := by
    intro j
    rw [restore_memory ht (h.normal _), h.step]
  have hSlack : ∀ j, (p.restore t (memory t (u (φ j)))).w = (u (φ j)).w := by
    intro j
    rw [restore_memory ht (h.normal _)]
  have hx : Tendsto (fun j => (u (φ j + 1)).x) atTop (𝓝 (p.restore t a).x) := by
    simp only [← hNext]
    exact ((p.continuous_restore_x t).tendsto a).comp ha
  have hw : Tendsto (fun j => (u (φ j)).w) atTop (𝓝 (p.restore t a).w) := by
    simp only [← hSlack]
    exact ((p.continuous_restore_w t).tendsto a).comp ha
  obtain ⟨hDefect, hMove⟩ := h.tendsto_defect_move ht hUnit hP hKKT
  have hImage : p.A *ᵥ (p.restore t a).x = (p.restore t a).w := by
    have hLimit : Tendsto (fun j => p.A *ᵥ (u (φ j + 1)).x - (u (φ j)).w) atTop
        (𝓝 (p.A *ᵥ (p.restore t a).x - (p.restore t a).w)) :=
      (((continuous_const.matrix_mulVec continuous_id).tendsto _).comp hx).sub hw
    exact sub_eq_zero.mp (tendsto_nhds_unique hLimit (hDefect.comp hφ))
  have hPoint : Real.sqrt t.sigma • (p.restore t a).x = a.1 := by
    have hLimit : Tendsto (fun j => Real.sqrt t.sigma • ((u (φ j + 1)).x - (u (φ j)).x)) atTop
        (𝓝 (Real.sqrt t.sigma • (p.restore t a).x - a.1)) := by
      simp only [smul_sub]
      exact (hx.const_smul _).sub ((continuous_fst.tendsto a).comp ha)
    exact sub_eq_zero.mp (tendsto_nhds_unique hLimit (hMove.comp hφ))
  have hMemory : memory t (p.restore t a) = a := by
    refine Prod.ext hPoint ?_
    change p.box.project a.2 + t.rho⁻¹ • (t.rho • (a.2 - p.box.project a.2)) = a.2
    rw [inv_smul_smul₀ ht.rho_pos.ne', add_sub_cancel]
  have hFixed : (p.step t (p.restore t a)).x = (p.restore t a).x := by
    have hRestore := congrArg Point.x (restore_memory ht (p.restore_isNormal ht a))
    rw [hMemory] at hRestore
    exact hRestore.symm
  have hStationary := (step_x_eq_iff hUnit).mp hFixed
  rw [hImage, sub_self, smul_zero, add_zero, sub_self, smul_zero] at hStationary
  exact ⟨⟨hStationary, hImage ▸ p.restore_isNormal ht a⟩, hImage, hMemory⟩

/-- The memories converge to any memory of an optimum that they cluster at. -/
theorem tendsto_memory {v : Point n m} (hv : v.w = p.A *ᵥ v.x) (hKKT : p.IsKKT v.x v.y)
    {φ : ℕ → ℕ} (hφ : Tendsto φ atTop atTop)
    (hSub : Tendsto (fun j => memory t (u (φ j))) atTop (𝓝 (memory t v))) :
    Tendsto (fun k => memory t (u k)) atTop (𝓝 (memory t v)) := by
  have hPoint : p.rest v.x v.y = v := Point.ext rfl hv.symm rfl
  have hAnti := h.antitone_energy ht hUnit hP hKKT
  rw [hPoint] at hAnti
  have hEnergySub : Tendsto (fun j => energy t (u (φ j)) v) atTop (𝓝 0) := by
    have hGap : Tendsto (fun j => memory t (u (φ j)) - memory t v) atTop (𝓝 0) := by
      rw [← sub_self (memory t v)]
      exact hSub.sub_const _
    have hForm : Continuous fun g : (Fin n → ℝ) × (Fin m → ℝ) =>
        t.rho * (g.2 ⬝ᵥ g.2) + t.alpha * (g.1 ⬝ᵥ g.1) :=
      (continuous_const.mul (continuous_snd.dotProduct continuous_snd)).add
        (continuous_const.mul (continuous_fst.dotProduct continuous_fst))
    have hZero := (hForm.tendsto 0).comp hGap
    simp only [Prod.fst_zero, Prod.snd_zero, dotProduct_zero, mul_zero, add_zero] at hZero
    simp only [energy_eq_memory ht]
    exact hZero
  have hEnergy : Tendsto (fun k => energy t (u k) v) atTop (𝓝 0) :=
    tendsto_of_antitone_of_subseq (fun _ => energy_nonneg ht _ _) hAnti hφ hEnergySub
  exact tendsto_sub_nhds_zero_iff.mp (tendsto_zero_of_sq_le (lt_min ht.rho_pos ht.alpha_pos)
    (fun k => norm_memory_sub_sq_le ht (u k) v) hEnergy)

/-- The iterates converge to an optimum with its slack and multipliers. -/
theorem exists_tendsto (hKKT : p.IsKKT z y) :
    ∃ z' y', p.IsKKT z' y' ∧ Tendsto (fun k => (u k).x) atTop (𝓝 z') ∧
      Tendsto (fun k => (u k).w) atTop (𝓝 (p.A *ᵥ z')) ∧
      Tendsto (fun k => (u k).y) atTop (𝓝 y') := by
  obtain ⟨a, φ, hMono, hSub⟩ := h.exists_cluster ht hUnit hP hKKT
  have hφ := hMono.tendsto_atTop
  obtain ⟨hOptimum, hImage, hMemory⟩ := h.cluster_isKKT ht hUnit hP hKKT hφ hSub
  have hLimit : Tendsto (fun k => memory t (u k)) atTop (𝓝 a) := by
    rw [← hMemory] at hSub ⊢
    exact h.tendsto_memory ht hUnit hP hImage.symm hOptimum hφ hSub
  have hRestore : ∀ k, p.restore t (memory t (u k)) = { u k with x := (u (k + 1)).x } := by
    intro k
    rw [restore_memory ht (h.normal k), h.step]
  have hx := ((p.continuous_restore_x t).tendsto a).comp hLimit
  have hw := ((p.continuous_restore_w t).tendsto a).comp hLimit
  have hy := ((p.continuous_restore_y t).tendsto a).comp hLimit
  simp only [Function.comp_def, hRestore] at hx hw hy
  rw [← hImage] at hw
  exact ⟨_, _, hOptimum, (tendsto_add_atTop_iff_nat 1).mp hx, hw, hy⟩

end IsTail

theorem tendsto_residuals (p : Problem n m) (t : Settings ℝ) {u : ℕ → Point n m} {z : Fin n → ℝ}
    (hx : Tendsto (fun k => (u k).x) atTop (𝓝 z))
    (hw : Tendsto (fun k => (u k).w) atTop (𝓝 (p.A *ᵥ z))) :
    Tendsto (fun k => (p.residuals t (u k) (u (k + 1))).primal) atTop (𝓝 0) ∧
      Tendsto (fun k => (p.residuals t (u k) (u (k + 1))).dual) atTop (𝓝 0) := by
  have hx' := (tendsto_add_atTop_iff_nat 1).mpr hx
  have hw' := (tendsto_add_atTop_iff_nat 1).mpr hw
  have hImage : Tendsto (fun k => p.A *ᵥ (u (k + 1)).x) atTop (𝓝 (p.A *ᵥ z)) :=
    ((continuous_const.matrix_mulVec continuous_id).tendsto z).comp hx'
  have hMove : Tendsto (fun k => p.Aᵀ *ᵥ ((u (k + 1)).w - (u k).w)) atTop (𝓝 0) := by
    have hApply : Continuous fun r : Fin m → ℝ => p.Aᵀ *ᵥ r :=
      continuous_const.matrix_mulVec continuous_id
    have hZero := (hApply.tendsto _).comp (hw'.sub hw)
    rwa [sub_self, mulVec_zero] at hZero
  constructor
  · have hPrimal := (hImage.sub hw').norm
    rwa [sub_self, norm_zero] at hPrimal
  · have hDual := hMove.norm.const_mul t.rho
    rwa [norm_zero, mul_zero] at hDual

end Problem

theorem eventually_converged [Precision] {t : Settings ℝ} (hPrimalTolerance : 0 < t.primalTolerance)
    (hDualTolerance : 0 < t.dualTolerance) {r : ℕ → Residuals ℝ}
    (hPrimal : Tendsto (fun k => (r k).primal) atTop (𝓝 0))
    (hDual : Tendsto (fun k => (r k).dual) atTop (𝓝 0)) :
    ∃ K, ∀ k, K ≤ k → (Residuals.ofReal (r k)).status t.ofReal = .converged := by
  have hBoth := (hPrimal.eventually (ge_mem_nhds hPrimalTolerance)).and
    (hDual.eventually (ge_mem_nhds hDualTolerance))
  obtain ⟨K, hK⟩ := eventually_atTop.mp hBoth
  refine ⟨K, fun k hk => ?_⟩
  obtain ⟨hp, hd⟩ := hK k hk
  exact if_pos ⟨hp, hd⟩

/-- **Convergence.** With a convex cost and a program that has an optimum, the answers
converge to an optimum as the number of iterations grows, from every start. The residuals
vanish, and with positive tolerances every large enough number of iterations reports
converged. -/
theorem solve_converges [Precision] {n m : ℕ} {p : Problem n m} {t : Settings ℝ}
    {s : Solver Extended n m} (hs : p.setup t = .ok s) (hP : p.P.PosSemidef)
    (hKKT : ∃ z y, p.IsKKT z y) (z₀ : Fin n → ℝ) (y₀ : Fin m → ℝ) :
    ∃ (z : ℕ → Fin n → ℝ) (w y : ℕ → Fin m → ℝ) (r : ℕ → Residuals ℝ) (status : ℕ → SolveStatus),
      (∀ k, s.solveProblem p z₀ y₀ (k + 1) = .ok {
        z := Vec.ofReal (z k)
        y := Vec.ofReal (y k)
        w := Vec.ofReal (w k)
        iterations := k + 1
        residuals := .ofReal (r k)
        status := status k }) ∧
      (∃ z' y', p.IsKKT z' y' ∧ Tendsto z atTop (𝓝 z') ∧ Tendsto y atTop (𝓝 y')) ∧
      Tendsto (fun k => (r k).primal) atTop (𝓝 0) ∧
      Tendsto (fun k => (r k).dual) atTop (𝓝 0) ∧
      (0 < t.primalTolerance → 0 < t.dualTolerance →
        ∃ K, ∀ k, K ≤ k → status k = .converged) := by
  have hSymm : p.P.IsSymm := by simpa using hP.isHermitian
  have hFactored := Problem.isFactored_of_setup hs hSymm
  obtain ⟨zOpt, yOpt, hOpt⟩ := hKKT
  let u : ℕ → Point n m := fun k => p.run t k (p.start z₀ y₀)
  have hTail := Problem.run_isTail hFactored.valid hFactored.isUnit_det (p.start z₀ y₀)
  obtain ⟨z', y', hLimit, hx, hw, hy⟩ :=
    hTail.exists_tendsto hFactored.valid hFactored.isUnit_det hP hOpt
  have hResiduals := Problem.tendsto_residuals p t (u := u)
    ((tendsto_add_atTop_iff_nat 1).mp hx) ((tendsto_add_atTop_iff_nat 1).mp hw)
  exact ⟨fun k => (u (k + 1)).x, fun k => (u (k + 1)).w, fun k => (u (k + 1)).y,
    fun k => p.residuals t (u k) (u (k + 1)), _, hFactored.solveProblem_eq_ok z₀ y₀,
    ⟨z', y', hLimit, hx, hy⟩, hResiduals.1, hResiduals.2,
    fun hPrimal hDual => eventually_converged hPrimal hDual hResiduals.1 hResiduals.2⟩

theorem clippedParabola_converges :
    letI := Precision.double
    ∃ (s : Solver Extended 1 1) (z : ℕ → Fin 1 → ℝ) (z' y' : Fin 1 → ℝ) (K : ℕ),
      Problem.clippedParabola.setup .standard = .ok s ∧
      (∀ k, ∃ sol, s.solveProblem Problem.clippedParabola ![1] ![0] (k + 1) = .ok sol ∧
        sol.z = Vec.ofReal (z k) ∧ (K ≤ k → sol.status = .converged)) ∧
      Problem.clippedParabola.IsKKT z' y' ∧ Tendsto z atTop (𝓝 z') := by
  let _ := Precision.double
  obtain ⟨s, hs⟩ := Problem.exists_setup_clippedParabola
  obtain ⟨z, w, y, r, status, hSolve, ⟨z', y', hKKT, hz, -⟩, -, -, hConverged⟩ :=
    solve_converges hs Problem.clippedParabola_posSemidef
      ⟨_, _, Problem.clippedParabola_isKKT⟩ ![1] ![0]
  obtain ⟨K, hK⟩ := hConverged (by norm_num [Settings.standard]) (by norm_num [Settings.standard])
  exact ⟨s, z, z', y', K, hs, fun k => ⟨_, hSolve k, rfl, hK k⟩, hKKT, hz⟩

end Qp

end RecedingHorizon
