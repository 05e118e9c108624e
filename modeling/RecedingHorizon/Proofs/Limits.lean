import RecedingHorizon.Proofs.Box
import RecedingHorizon.Proofs.Condensation

/-!
# Limits on inputs and their changes

`Limits` are a box for the stacked inputs and a box for their changes from stage to stage. The
constraint rows of a controller hold the inputs above their first differences, in the same order
as the stacked bounds. So the rows meet the bounds to within some margin exactly when the input
of every stage and the change of every transition do (`Limits.within_iff`).
-/

namespace RecedingHorizon

open Extended Matrix

/-! ## Transitions -/

namespace Stage

variable {N b : ℕ}

/-- The stage that a transition leaves. -/
def before (k : Fin (N - 1)) : Fin N := ⟨k, by omega⟩

/-- The stage that a transition enters. -/
def after (k : Fin (N - 1)) : Fin N := ⟨k + 1, by omega⟩

theorem index_before (k : Fin (N - 1)) (j : Fin b) :
    (index (before k) j : ℕ) = index k j := rfl

theorem index_after (k : Fin (N - 1)) (j : Fin b) :
    (index (after k) j : ℕ) = index k j + b := by
  change b * (k + 1) + j = b * k + j + b
  ring

theorem forall_iff (P : Fin (N * b) → Prop) : (∀ i, P i) ↔ ∀ k j, P (index k j) :=
  ⟨fun h _ _ => h _, fun h i => index_of_offset i ▸ h (of i) (offset i)⟩

end Stage

/-- Block `k` of the first differences is the change of the input in transition `k`. -/
theorem Plant.block_differences_mulVec {nu N : ℕ} (u : Fin (N * nu) → ℝ) (k : Fin (N - 1)) :
    Stage.block (differences nu N *ᵥ u) k =
      Stage.block u (Stage.after k) - Stage.block u (Stage.before k) := by
  funext j
  have hPos : 0 < nu := j.pos
  have hTerm : ∀ i, differences nu N (Stage.index k j) i * u i =
      (if i = Stage.index (Stage.after k) j then u i else 0) -
        if i = Stage.index (Stage.before k) j then u i else 0 := by
    intro i
    simp only [differences, of_apply, Fin.ext_iff, Stage.index_after, Stage.index_before]
    by_cases hBefore : (i : ℕ) = Stage.index k j
    · have hAfter : (i : ℕ) ≠ Stage.index k j + nu := by omega
      rw [if_pos hBefore, if_neg hAfter, if_pos hBefore, neg_one_mul, zero_sub]
    · rw [if_neg hBefore, if_neg hBefore, ite_mul, one_mul, zero_mul, sub_zero]
  change ∑ i, differences nu N (Stage.index k j) i * u i = _
  rw [Finset.sum_congr rfl fun i _ => hTerm i, Finset.sum_sub_distrib, Finset.sum_ite_eq',
    Finset.sum_ite_eq', if_pos (Finset.mem_univ _), if_pos (Finset.mem_univ _)]
  rfl

theorem Plant.differences_mulVec_tile {nu N : ℕ} (v : Fin nu → ℝ) :
    differences nu N *ᵥ Stage.tile N v = 0 :=
  Stage.ext_block fun k => by
    rw [block_differences_mulVec, Stage.block_tile, Stage.block_tile, sub_self, Stage.block_zero]

theorem Plant.block_differences_ofReal [Precision] {nu N : ℕ} (u : Fin (N * nu) → ℝ)
    (k : Fin (N - 1)) : (Vec.ofReal (differences nu N *ᵥ u)).block k =
      ((Vec.ofReal u).block (Stage.after k)).sub ((Vec.ofReal u).block (Stage.before k)) := by
  rw [Vec.block_ofReal, Vec.block_ofReal, Vec.block_ofReal, Vec.sub_ofReal,
    block_differences_mulVec]

/-- The constraint rows hold the inputs above their first differences. -/
theorem Plant.constraints_mulVec {nu N : ℕ} (u : Fin (N * nu) → ℝ) :
    constraints nu N *ᵥ u = Fin.append u (differences nu N *ᵥ u) := by
  rw [constraints, Mat.stack_mulVec, one_mulVec]

theorem Plant.constraints_mulVec_append {nu N : ℕ} (u : Fin (N * nu) → ℝ) :
    Vec.ofReal (constraints nu N *ᵥ u) = Vec.ofReal u ++ Vec.ofReal (differences nu N *ᵥ u) := by
  rw [constraints_mulVec, Vec.append_ofReal]

/-! ## Parts of boxes -/

namespace Box

variable {m n N : ℕ}

/-- The box of vectors with one part in each of two boxes. -/
def append (b : Box m) (b' : Box n) : Box (m + n) where
  lower := b.lower ++ b'.lower
  upper := b.upper ++ b'.upper
  isInterval i := by
    cases i using Fin.addCases with
    | left i =>
      rw [Vec.get_append_castAdd, Vec.get_append_castAdd]
      exact b.isInterval i
    | right i =>
      rw [Vec.get_append_natAdd, Vec.get_append_natAdd]
      exact b'.isInterval i

theorem append_univ : (univ m).append (univ n) = univ (m + n) := by
  have hConst : ∀ e : Extended, (Vec.ofFn fun _ : Fin m => e) ++ (Vec.ofFn fun _ : Fin n => e) =
      Vec.ofFn fun _ => e := by
    intro e
    apply Vec.ext
    intro i
    cases i using Fin.addCases with
    | left i => rw [Vec.get_append_castAdd, Vec.get_ofFn, Vec.get_ofFn]
    | right i => rw [Vec.get_append_natAdd, Vec.get_ofFn, Vec.get_ofFn]
  simp only [append, univ, hConst]

/-- The box of one stage. -/
def block (b : Box (N * m)) (k : Fin N) : Box m where
  lower := b.lower.block k
  upper := b.upper.block k
  isInterval j := by
    rw [Vec.get_block, Vec.get_block]
    exact b.isInterval _

theorem mem_append_iff {b : Box m} {b' : Box n} {u : Fin m → ℝ} {v : Fin n → ℝ} :
    Fin.append u v ∈ b.append b' ↔ u ∈ b ∧ v ∈ b' := by
  refine (Fin.forall_fin_add _).trans ?_
  simp only [append, Vec.get_append_castAdd, Vec.get_append_natAdd, Fin.append_left,
    Fin.append_right]
  rfl

theorem mem_iff_block {b : Box (N * m)} {v : Fin (N * m) → ℝ} :
    v ∈ b ↔ ∀ k, Stage.block v k ∈ b.block k := by
  refine (Stage.forall_iff _).trans ?_
  simp only [← Vec.get_block]
  rfl

variable [Precision]

theorem within_append_iff {b : Box m} {b' : Box n} {r : Extended} {u : Vec Extended m}
    {v : Vec Extended n} : (b.append b').Within r (u ++ v) ↔ b.Within r u ∧ b'.Within r v := by
  refine (Fin.forall_fin_add _).trans ?_
  simp only [append, Vec.get_append_castAdd, Vec.get_append_natAdd]
  rfl

theorem within_iff_block {b : Box (N * m)} {r : Extended} {v : Vec Extended (N * m)} :
    b.Within r v ↔ ∀ k, (b.block k).Within r (v.block k) := by
  refine (Stage.forall_iff _).trans ?_
  simp only [← Vec.get_block]
  rfl

end Box

/-! ## Limits -/

/-- Sides for the stacked inputs and for their changes, in any order. -/
structure Sides (nu N : ℕ) where
  inputMin : Vec Extended (N * nu)
  inputMax : Vec Extended (N * nu)
  rateMin : Vec Extended ((N - 1) * nu)
  rateMax : Vec Extended ((N - 1) * nu)

/-- The sides as a controller takes them. -/
def Sides.bounds {nu N : ℕ} (b : Sides nu N) : InputBounds Extended where
  inputMin := b.inputMin.toArray
  inputMax := b.inputMax.toArray
  rateMin := b.rateMin.toArray
  rateMax := b.rateMax.toArray

theorem Sides.bounds_injective {nu N : ℕ} : Function.Injective (Sides.bounds : Sides nu N → _) := by
  rintro ⟨inputMin, inputMax, rateMin, rateMax⟩ ⟨inputMin', inputMax', rateMin', rateMax'⟩ h
  simpa [Sides.bounds, Vector.toArray_inj] using h

/-- A box for the stacked inputs and one for their changes. -/
structure Limits (nu N : ℕ) where
  inputs : Box (N * nu)
  rates : Box ((N - 1) * nu)

namespace Limits

variable {nu N : ℕ} (l : Limits nu N)

/-- The limits as a controller takes them. -/
def bounds : InputBounds Extended where
  inputMin := l.inputs.lower.toArray
  inputMax := l.inputs.upper.toArray
  rateMin := l.rates.lower.toArray
  rateMax := l.rates.upper.toArray

def sides : Sides nu N where
  inputMin := l.inputs.lower
  inputMax := l.inputs.upper
  rateMin := l.rates.lower
  rateMax := l.rates.upper

/-- Inputs and changes of at most one in each entry. -/
def unit (nu N : ℕ) : Limits nu N where
  inputs := .between (-1) 1 fun _ => by norm_num
  rates := .between (-1) 1 fun _ => by norm_num

theorem mem_inputs_unit {u : Fin (N * nu) → ℝ} (h : ∀ i, |u i| ≤ 1) : u ∈ (unit nu N).inputs :=
  Box.mem_between (fun _ => by norm_num) fun i => abs_le.mp (h i)

theorem zero_mem_rates_unit : 0 ∈ (unit nu N).rates :=
  Box.mem_between (fun _ => by norm_num) fun _ => by norm_num

/-- No limits at all. -/
def univ (nu N : ℕ) : Limits nu N where
  inputs := .univ _
  rates := .univ _

theorem bounds_univ [Precision] : (univ nu N).bounds = .unbounded nu N := by
  have hConst : ∀ n (e : Extended), (Vec.ofFn fun _ : Fin n => e).toArray = .replicate n e := by
    intro n e
    apply Array.ext
    · simp
    · intro i hi hi'
      simp [Vec.ofFn]
  simp only [bounds, univ, Box.univ, InputBounds.unbounded, hConst]
  rfl

/-- The limits in the order of the constraint rows. -/
def box : Box (N * nu + (N - 1) * nu) := l.inputs.append l.rates

theorem box_univ : (univ nu N).box = .univ _ := Box.append_univ

variable {l} in
theorem constraints_mulVec_mem_iff {u : Fin (N * nu) → ℝ} :
    Plant.constraints nu N *ᵥ u ∈ l.box ↔ u ∈ l.inputs ∧ Plant.differences nu N *ᵥ u ∈ l.rates := by
  rw [Plant.constraints_mulVec, box, Box.mem_append_iff]

variable [Precision]

/-- Whether no stacked input exceeds its box, and no change from one stage to the next exceeds
its own, by more than `r`. -/
structure Within (r : Extended) (u : Vec Extended (N * nu)) : Prop where
  inputs : ∀ k, (l.inputs.block k).Within r (u.block k)
  rates : ∀ k, (l.rates.block k).Within r ((u.block (Stage.after k)).sub (u.block (Stage.before k)))

theorem within_iff {r : Extended} {u : Fin (N * nu) → ℝ} :
    l.box.Within r (Vec.ofReal (Plant.constraints nu N *ᵥ u)) ↔ l.Within r (Vec.ofReal u) := by
  rw [Plant.constraints_mulVec_append, box, Box.within_append_iff, Box.within_iff_block,
    Box.within_iff_block]
  simp only [Plant.block_differences_ofReal]
  exact ⟨fun h => ⟨h.1, h.2⟩, fun h => ⟨h.inputs, h.rates⟩⟩

end Limits

end RecedingHorizon
