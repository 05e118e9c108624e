import Mathlib.Topology.MetricSpace.Lipschitz
import RecedingHorizon.Proofs.RealMatrix

/-!
# Boxes

A box bounds each coordinate of a real vector from both sides. A side may be
infinite, but only outward, so that every box has points.

Clamping a real vector into a box gives its projection (`clamp_ofReal`), the point of the
box from which the way to the vector is a normal (`project_eq_iff`). Normals point
away from the box (`IsNormal.dot_sub_nonpos`) and are monotone
(`IsNormal.sub_dot_sub_nonneg`). The projection is continuous.
-/

namespace RecedingHorizon

open Extended Matrix

/-! ## One coordinate -/

namespace Extended

/-- Bounds that some real number satisfies: in order and not infinite inward. -/
structure IsInterval (lo hi : Extended) : Prop where
  ordered : lo ≤ hi
  lower_lt : lo < posInf
  lt_upper : negInf < hi

/-- The real number that a finite one stands for. -/
def toReal : Extended → ℝ
  | finite r => r
  | _ => 0

open Classical in
/-- The real form of clamping between two bounds. -/
noncomputable def clip (lo hi : Extended) (r : ℝ) : ℝ :=
  if finite r < lo then lo.toReal else if hi < finite r then hi.toReal else r

namespace IsInterval

variable {lo hi : Extended}

theorem lower_eq (h : IsInterval lo hi) {r : ℝ} (hr : finite r < lo) :
    lo = finite lo.toReal := by
  cases lo with
  | finite a => rfl
  | posInf => exact h.lower_lt.elim
  | negInf => exact hr.elim
  | nan => exact hr.elim

theorem upper_eq (h : IsInterval lo hi) {r : ℝ} (hr : hi < finite r) :
    hi = finite hi.toReal := by
  cases hi with
  | finite a => rfl
  | posInf => exact hr.elim
  | negInf => exact h.lt_upper.elim
  | nan => exact hr.elim

theorem lower_le_of_not_gt (h : IsInterval lo hi) {r : ℝ} (hr : ¬ finite r < lo) :
    lo ≤ finite r := by
  cases lo with
  | finite a => exact finite_le.mpr (not_lt.mp fun hLt => hr (finite_lt.mpr hLt))
  | posInf => exact h.lower_lt.elim
  | negInf => trivial
  | nan => exact h.lower_lt.elim

theorem le_upper_of_not_lt (h : IsInterval lo hi) {r : ℝ} (hr : ¬ hi < finite r) :
    finite r ≤ hi := by
  cases hi with
  | finite a => exact finite_le.mpr (not_lt.mp fun hLt => hr (finite_lt.mpr hLt))
  | posInf => trivial
  | negInf => exact h.lt_upper.elim
  | nan => exact h.lt_upper.elim

theorem clamp_finite [Precision] (h : IsInterval lo hi) (r : ℝ) :
    Scalar.clamp lo hi (finite r) = finite (clip lo hi r) := by
  unfold Scalar.clamp clip
  split_ifs with h₁ h₂
  · exact h.lower_eq h₁
  · exact h.upper_eq h₂
  · rfl

theorem clip_spec (h : IsInterval lo hi) (r : ℝ) :
    (lo ≤ finite (clip lo hi r) ∧ finite (clip lo hi r) ≤ hi) ∧
      (r < clip lo hi r → lo = finite (clip lo hi r)) ∧
      (clip lo hi r < r → hi = finite (clip lo hi r)) := by
  have hOrdered := h.ordered
  unfold clip
  split_ifs with h₁ h₂
  · have hLo := h.lower_eq h₁
    generalize lo.toReal = a at hLo ⊢
    subst hLo
    exact ⟨⟨finite_le.mpr le_rfl, hOrdered⟩, fun _ => rfl,
      fun hGt => absurd (finite_lt.mp h₁) hGt.le.not_gt⟩
  · have hHi := h.upper_eq h₂
    generalize hi.toReal = a at hHi ⊢
    subst hHi
    exact ⟨⟨hOrdered, finite_le.mpr le_rfl⟩,
      fun hLt => absurd (finite_lt.mp h₂) hLt.le.not_gt, fun _ => rfl⟩
  · exact ⟨⟨h.lower_le_of_not_gt h₁, h.le_upper_of_not_lt h₂⟩,
      fun hLt => absurd hLt (lt_irrefl r), fun hGt => absurd hGt (lt_irrefl r)⟩

/-- The clip is the point between the bounds that lies on the crossed bound
wherever it differs from the number. -/
theorem clip_eq_iff (h : IsInterval lo hi) {r p : ℝ} :
    clip lo hi r = p ↔
      (lo ≤ finite p ∧ finite p ≤ hi) ∧ (r < p → lo = finite p) ∧ (p < r → hi = finite p) := by
  constructor
  · rintro rfl
    exact h.clip_spec r
  · rintro ⟨⟨hLo, hHi⟩, hUp, hDown⟩
    obtain ⟨⟨hLo', hHi'⟩, hUp', hDown'⟩ := h.clip_spec r
    generalize clip lo hi r = q at hLo' hHi' hUp' hDown' ⊢
    rcases lt_trichotomy q p with hqp | hqp | hqp
    · -- one of the two points lies strictly on one side of `r`
      rcases lt_or_ge q r with hqr | hqr
      · rw [hDown' hqr, finite_le] at hHi
        exact absurd hHi hqp.not_ge
      · rw [hUp (hqr.trans_lt hqp), finite_le] at hLo'
        exact absurd hLo' hqp.not_ge
    · exact hqp
    · rcases lt_or_ge p r with hpr | hpr
      · rw [hDown hpr, finite_le] at hHi'
        exact absurd hHi' hqp.not_ge
      · rw [hUp' (hpr.trans_lt hqp), finite_le] at hLo
        exact absurd hLo hqp.not_ge

theorem clip_eq_self (h : IsInterval lo hi) {r : ℝ} (hLo : lo ≤ finite r)
    (hHi : finite r ≤ hi) : clip lo hi r = r :=
  h.clip_eq_iff.mpr ⟨⟨hLo, hHi⟩, fun hr => absurd hr (lt_irrefl r),
    fun hr => absurd hr (lt_irrefl r)⟩

theorem sub_clip_mul_nonpos (h : IsInterval lo hi) (r : ℝ) {t : ℝ} (hLo : lo ≤ finite t)
    (hHi : finite t ≤ hi) : (r - clip lo hi r) * (t - clip lo hi r) ≤ 0 := by
  obtain ⟨-, hUp, hDown⟩ := h.clip_spec r
  rcases lt_trichotomy r (clip lo hi r) with hr | hr | hr
  · rw [hUp hr, finite_le] at hLo
    exact mul_nonpos_of_nonpos_of_nonneg (by linarith) (by linarith)
  · rw [← hr, sub_self, zero_mul]
  · rw [hDown hr, finite_le] at hHi
    exact mul_nonpos_of_nonneg_of_nonpos (by linarith) (by linarith)

theorem abs_clip_sub_clip_le (h : IsInterval lo hi) (r s : ℝ) :
    |clip lo hi r - clip lo hi s| ≤ |r - s| := by
  obtain ⟨⟨hLo, hHi⟩, -⟩ := h.clip_spec r
  obtain ⟨⟨hLo', hHi'⟩, -⟩ := h.clip_spec s
  have hr := h.sub_clip_mul_nonpos r hLo' hHi'
  have hs := h.sub_clip_mul_nonpos s hLo hHi
  rw [← sq_le_sq, ← sub_nonneg]
  nlinarith [sq_nonneg ((r - s) - (clip lo hi r - clip lo hi s))]

/-- No point between the bounds is nearer to a number than its clip. -/
theorem abs_sub_clip_le (h : IsInterval lo hi) (r : ℝ) {t : ℝ} (hLo : lo ≤ finite t)
    (hHi : finite t ≤ hi) : |r - clip lo hi r| ≤ |r - t| := by
  have hAngle := h.sub_clip_mul_nonpos r hLo hHi
  rw [← sq_le_sq]
  nlinarith [sq_nonneg (t - clip lo hi r)]

end IsInterval

section Shift

variable {lo hi : Extended} {a b r : ℝ}

theorem le_finite_mono (h : lo ≤ finite a) (hab : a ≤ b) : lo ≤ finite b := by
  cases lo with
  | finite l => exact (finite_le.mp h).trans hab
  | posInf => exact h.elim
  | negInf => trivial
  | nan => exact h.elim

theorem finite_le_mono (h : finite b ≤ hi) (hab : a ≤ b) : finite a ≤ hi := by
  cases hi with
  | finite l => exact hab.trans (finite_le.mp h)
  | posInf => trivial
  | negInf => exact h.elim
  | nan => exact h.elim

variable [Precision]

theorem sub_finite_le_iff : lo - finite r ≤ finite a ↔ lo ≤ finite (a + r) := by
  cases lo with
  | finite l => rw [finite_sub, finite_le, finite_le, sub_le_iff_le_add]
  | posInf => exact Iff.rfl
  | negInf => exact Iff.rfl
  | nan => exact Iff.rfl

theorem le_add_finite_iff : finite a ≤ hi + finite r ↔ finite (a - r) ≤ hi := by
  cases hi with
  | finite l => rw [finite_add, finite_le, finite_le, sub_le_iff_le_add]
  | posInf => exact Iff.rfl
  | negInf => exact Iff.rfl
  | nan => exact Iff.rfl

end Shift

end Extended

/-! ## Boxes of vectors -/

structure Box (m : ℕ) where
  lower : Vec Extended m
  upper : Vec Extended m
  isInterval : ∀ i, IsInterval (lower.get i) (upper.get i)

namespace Box

variable {m : ℕ} (b : Box m)

instance : Membership (Fin m → ℝ) (Box m) :=
  ⟨fun b v => ∀ i, b.lower.get i ≤ finite (v i) ∧ finite (v i) ≤ b.upper.get i⟩

/-- Whether no entry of a vector exceeds its bounds by more than `r`. -/
def Within [Precision] (r : Extended) (v : Vec Extended m) : Prop :=
  ∀ i, b.lower.get i - r ≤ v.get i ∧ v.get i ≤ b.upper.get i + r

def univ (m : ℕ) : Box m where
  lower := Vec.ofFn fun _ => negInf
  upper := Vec.ofFn fun _ => posInf
  isInterval _ := by
    rw [Vec.get_ofFn, Vec.get_ofFn]
    exact ⟨trivial, trivial, trivial⟩

/-- The box between two real vectors. -/
def between (lo hi : Fin m → ℝ) (h : ∀ i, lo i ≤ hi i) : Box m where
  lower := Vec.ofReal lo
  upper := Vec.ofReal hi
  isInterval i := by
    rw [Vec.get_ofReal, Vec.get_ofReal]
    exact ⟨finite_le.mpr (h i), trivial, trivial⟩

noncomputable def project (v : Fin m → ℝ) : Fin m → ℝ :=
  fun i => clip (b.lower.get i) (b.upper.get i) (v i)

theorem clamp_ofReal [Precision] (v : Fin m → ℝ) :
    Vec.clamp b.lower b.upper (Vec.ofReal v) = Vec.ofReal (b.project v) := by
  apply Vec.ext
  intro i
  rw [Vec.get_clamp, Vec.get_ofReal, Vec.get_ofReal]
  exact (b.isInterval i).clamp_finite (v i)

/-- `y` is a normal of the box at its point `w`: in each coordinate in which `y` does
not vanish, `w` lies on the bound to which `y` points. -/
structure IsNormal (w y : Fin m → ℝ) : Prop where
  mem : w ∈ b
  upper : ∀ i, 0 < y i → b.upper.get i = finite (w i)
  lower : ∀ i, y i < 0 → b.lower.get i = finite (w i)

variable {b}

/-- A point is the projection of another one exactly when the way there is a
normal. -/
theorem project_eq_iff {v p : Fin m → ℝ} : b.project v = p ↔ b.IsNormal p (v - p) := by
  have hRows : b.project v = p ↔ ∀ i, (b.lower.get i ≤ finite (p i) ∧
      finite (p i) ≤ b.upper.get i) ∧ (v i < p i → b.lower.get i = finite (p i)) ∧
      (p i < v i → b.upper.get i = finite (p i)) :=
    funext_iff.trans (forall_congr' fun i => (b.isInterval i).clip_eq_iff)
  rw [hRows]
  constructor
  · intro h
    exact ⟨fun i => (h i).1, fun i hi => (h i).2.2 (sub_pos.mp hi),
      fun i hi => (h i).2.1 (sub_neg.mp hi)⟩
  · intro h i
    exact ⟨h.mem i, fun hi => h.lower i (sub_neg.mpr hi), fun hi => h.upper i (sub_pos.mpr hi)⟩

theorem isNormal_smul_iff {w y : Fin m → ℝ} {c : ℝ} (hc : 0 < c) :
    b.IsNormal w (c • y) ↔ b.IsNormal w y := by
  have hPos : ∀ i, 0 < (c • y) i ↔ 0 < y i := fun i => smul_pos_iff_of_pos_left hc
  have hNeg : ∀ i, (c • y) i < 0 ↔ y i < 0 := fun i => smul_neg_iff_of_pos_left hc
  constructor
  · intro h
    exact ⟨h.mem, fun i hi => h.upper i ((hPos i).mpr hi), fun i hi => h.lower i ((hNeg i).mpr hi)⟩
  · intro h
    exact ⟨h.mem, fun i hi => h.upper i ((hPos i).mp hi), fun i hi => h.lower i ((hNeg i).mp hi)⟩

theorem project_add_smul_eq_iff {w y : Fin m → ℝ} {c : ℝ} (hc : 0 < c) :
    b.project (w + c • y) = w ↔ b.IsNormal w y := by
  rw [project_eq_iff, add_sub_cancel_left, isNormal_smul_iff hc]

theorem isNormal_zero {w : Fin m → ℝ} (hw : w ∈ b) : b.IsNormal w 0 :=
  ⟨hw, fun _ h => absurd h (lt_irrefl 0), fun _ h => absurd h (lt_irrefl 0)⟩

theorem project_mem (v : Fin m → ℝ) : b.project v ∈ b := (project_eq_iff.mp rfl).mem

theorem project_eq_self {v : Fin m → ℝ} (hv : v ∈ b) : b.project v = v :=
  funext fun i => (b.isInterval i).clip_eq_self (hv i).1 (hv i).2

theorem mem_between {lo hi v : Fin m → ℝ} (h : ∀ i, lo i ≤ hi i)
    (hv : ∀ i, lo i ≤ v i ∧ v i ≤ hi i) : v ∈ between lo hi h := by
  intro i
  simp only [between, Vec.get_ofReal, finite_le]
  exact hv i

theorem within_ofReal_iff [Precision] {r : ℝ} {v : Fin m → ℝ} :
    b.Within (finite r) (Vec.ofReal v) ↔
      ∀ i, b.lower.get i ≤ finite (v i + r) ∧ finite (v i - r) ≤ b.upper.get i := by
  unfold Within
  simp only [Vec.get_ofReal, sub_finite_le_iff, le_add_finite_iff]

theorem within_zero_iff [Precision] {v : Fin m → ℝ} : b.Within 0 (Vec.ofReal v) ↔ v ∈ b := by
  rw [zero_eq, within_ofReal_iff]
  simp only [add_zero, sub_zero]
  rfl

theorem Within.mono [Precision] {r r' : ℝ} {v : Fin m → ℝ}
    (h : b.Within (finite r) (Vec.ofReal v)) (hr : r ≤ r') :
    b.Within (finite r') (Vec.ofReal v) := by
  rw [within_ofReal_iff] at h ⊢
  exact fun i => ⟨le_finite_mono (h i).1 (by linarith), finite_le_mono (h i).2 (by linarith)⟩

/-- A vector exceeds the bounds by no more than its distance from a point of the box. -/
theorem within_of_mem [Precision] {v w : Fin m → ℝ} (hw : w ∈ b) :
    b.Within (finite ‖v - w‖) (Vec.ofReal v) := by
  rw [within_ofReal_iff]
  intro i
  have hEntry := abs_le.mp (norm_le_pi_norm (v - w) i)
  rw [Pi.sub_apply] at hEntry
  exact ⟨le_finite_mono (hw i).1 (by linarith), finite_le_mono (hw i).2 (by linarith)⟩

/-- The projection is at least as near as any point of the box. -/
theorem abs_sub_project_le {v w : Fin m → ℝ} (hw : w ∈ b) (i : Fin m) :
    |v i - b.project v i| ≤ |v i - w i| :=
  (b.isInterval i).abs_sub_clip_le (v i) (hw i).1 (hw i).2

namespace IsNormal

variable {w w' y y' : Fin m → ℝ}

/-- No point of the box lies in the direction of a normal. -/
theorem dot_sub_nonpos (h : b.IsNormal w y) {t : Fin m → ℝ} (ht : t ∈ b) :
    y ⬝ᵥ (t - w) ≤ 0 := by
  apply Finset.sum_nonpos
  intro i _
  have hi := ht i
  rw [Pi.sub_apply]
  rcases lt_trichotomy (y i) 0 with hy | hy | hy
  · rw [h.lower i hy, finite_le] at hi
    exact mul_nonpos_of_nonpos_of_nonneg hy.le (sub_nonneg.mpr hi.1)
  · rw [hy, zero_mul]
  · rw [h.upper i hy, finite_le] at hi
    exact mul_nonpos_of_nonneg_of_nonpos hy.le (sub_nonpos.mpr hi.2)

theorem sub_dot_sub_nonneg (h : b.IsNormal w y) (h' : b.IsNormal w' y') :
    0 ≤ (y - y') ⬝ᵥ (w - w') := by
  have hw := h.dot_sub_nonpos h'.mem
  have hw' := h'.dot_sub_nonpos h.mem
  rw [← neg_sub w w', dotProduct_neg] at hw
  rw [sub_dotProduct]
  linarith

variable {i : Fin m}

/-- Strictly between its bounds an entry has no multiplier. -/
theorem eq_zero_of_lt (h : b.IsNormal w y) (hLo : b.lower.get i < finite (w i))
    (hHi : finite (w i) < b.upper.get i) : y i = 0 := by
  rcases lt_trichotomy (y i) 0 with hy | hy | hy
  · rw [h.lower i hy, finite_lt] at hLo
    exact absurd hLo (lt_irrefl _)
  · exact hy
  · rw [h.upper i hy, finite_lt] at hHi
    exact absurd hHi (lt_irrefl _)

theorem nonpos_of_upper (h : b.IsNormal w y) (hi : b.upper.get i = posInf) : y i ≤ 0 := by
  by_contra hy
  rw [h.upper i (not_le.mp hy)] at hi
  cases hi

theorem nonneg_of_lower (h : b.IsNormal w y) (hi : b.lower.get i = negInf) : 0 ≤ y i := by
  by_contra hy
  rw [h.lower i (not_le.mp hy)] at hi
  cases hi

theorem eq_zero_of_univ (h : (univ m).IsNormal w y) : y = 0 := by
  funext i
  exact le_antisymm (h.nonpos_of_upper (Vec.get_ofFn ..)) (h.nonneg_of_lower (Vec.get_ofFn ..))

end IsNormal

theorem continuous_project (b : Box m) : Continuous b.project := by
  apply continuous_pi
  intro i
  have hClip : Continuous (clip (b.lower.get i) (b.upper.get i)) := by
    refine LipschitzWith.continuous (K := 1) (LipschitzWith.of_dist_le_mul fun r s => ?_)
    rw [NNReal.coe_one, one_mul, Real.dist_eq, Real.dist_eq]
    exact (b.isInterval i).abs_clip_sub_clip_le r s
  exact hClip.comp (continuous_apply i)

end Box

end RecedingHorizon
