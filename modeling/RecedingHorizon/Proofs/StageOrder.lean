import RecedingHorizon.Proofs.Refusal
import RecedingHorizon.Proofs.StageBounds

/-!
# The order of the bounds of one stage

Bounds of one stage are judged when they have been repeated. The copies of a pair of bounds are out
of order where the pair is, once in every copy (`mem_disorder_tile_iff`), so the first position
reported lies in the first copy and is that of the stage (`isLeast_disorder_tile_iff`).

Without a copy nothing is judged. Over one stage there is no transition, so the bounds on the change
of the input are not looked at beyond their lengths (`ofStage_accepts_iff`).
-/

namespace RecedingHorizon

open Extended

namespace Vec

variable {S : Type} [Scalar S] {N b i : ℕ} {lo hi : Vec S b}

theorem mem_disorder_tile_iff :
    i ∈ disorder (tile N lo).toArray (tile N hi).toArray ↔
      i < N * b ∧ i % b ∈ disorder lo.toArray hi.toArray := by
  rw [mem_disorder_iff, mem_disorder_iff]
  simp only [get_tile]
  constructor
  · rintro ⟨h, hNot⟩
    exact ⟨h, Nat.mod_lt _ (Stage.block_pos ⟨i, h⟩), hNot⟩
  · rintro ⟨h, _, hNot⟩
    exact ⟨h, hNot⟩

/-- Each position of a disorder lies in the first copy too. -/
theorem lt_of_mem_disorder (hN : 0 < N) (h : i ∈ disorder lo.toArray hi.toArray) :
    i < N * b ∧ i % b = i := by
  obtain ⟨hLt, -⟩ := mem_disorder_iff.mp h
  exact ⟨hLt.trans_le (Nat.le_mul_of_pos_left b hN), Nat.mod_eq_of_lt hLt⟩

theorem disorder_tile_eq_empty_iff :
    disorder (tile N lo).toArray (tile N hi).toArray = ∅ ↔
      (0 < N → disorder lo.toArray hi.toArray = ∅) := by
  simp only [Set.eq_empty_iff_forall_notMem, mem_disorder_tile_iff]
  constructor
  · intro h hN i hi
    obtain ⟨hLt, hMod⟩ := lt_of_mem_disorder hN hi
    exact h i ⟨hLt, by rwa [hMod]⟩
  · rintro h i ⟨hLt, hi⟩
    exact h (Nat.pos_of_mul_pos_right (Nat.zero_lt_of_lt hLt)) _ hi

theorem isLeast_disorder_tile_iff :
    IsLeast (disorder (tile N lo).toArray (tile N hi).toArray) i ↔
      0 < N ∧ IsLeast (disorder lo.toArray hi.toArray) i := by
  constructor
  · rintro ⟨hMem, hLeast⟩
    obtain ⟨hLt, hMod⟩ := mem_disorder_tile_iff.mp hMem
    have hN : 0 < N := Nat.pos_of_mul_pos_right (Nat.zero_lt_of_lt hLt)
    have hCopies : ∀ j ∈ disorder lo.toArray hi.toArray, i ≤ j := by
      intro j hj
      obtain ⟨hjLt, hjMod⟩ := lt_of_mem_disorder hN hj
      exact hLeast (mem_disorder_tile_iff.mpr ⟨hjLt, by rwa [hjMod]⟩)
    have hFirst : i % b = i := le_antisymm (Nat.mod_le i b) (hCopies _ hMod)
    rw [hFirst] at hMod
    exact ⟨hN, hMod, hCopies⟩
  · rintro ⟨hN, hMem, hLeast⟩
    obtain ⟨hLt, hMod⟩ := lt_of_mem_disorder hN hMem
    refine ⟨mem_disorder_tile_iff.mpr ⟨hLt, by rwa [hMod]⟩, fun j hj => ?_⟩
    exact (hLeast (mem_disorder_tile_iff.mp hj).2).trans (Nat.mod_le j b)

end Vec

namespace InputBounds

variable {S : Type} [Scalar S] {nu N : ℕ}

theorem ofStage_isMismatch {inputMin inputMax rateMin rateMax : Array S} (hN : 1 ≤ N)
    (h : ¬ (inputMax.size = inputMin.size ∧ rateMin.size = inputMin.size ∧
      rateMax.size = inputMin.size)) :
    IsMismatch (ofStage inputMin inputMax rateMin rateMax N) := by
  rw [ofStage, if_neg (Nat.not_lt.mpr hN)]
  refine Check.length_bind_isMismatch fun hInputMax => ?_
  refine Check.length_bind_isMismatch fun hRateMin => ?_
  refine Check.length_bind_isMismatch fun hRateMax => ?_
  exact absurd ⟨hInputMax, hRateMin, hRateMax⟩ h

/-- Bounds of one stage whose lengths match are refused for the first pair that is out of order:
among the bounds on the input, then among those on its change if there is a transition. -/
theorem ofStage_eq_error_iff (hN : 1 ≤ N) (lo hi rateLo rateHi : Vec S nu) {e : Fault S} :
    ofStage lo.toArray hi.toArray rateLo.toArray rateHi.toArray N = .error e ↔
      (∃ i, e = .invalidBounds "u_min_hat, u_max_hat" i ∧
        IsLeast (disorder lo.toArray hi.toArray) i) ∨
      disorder lo.toArray hi.toArray = ∅ ∧ 2 ≤ N ∧
        ∃ i, e = .invalidBounds "du_min_hat, du_max_hat" i ∧
          IsLeast (disorder rateLo.toArray rateHi.toArray) i := by
  have hTransition : 0 < N - 1 ↔ 2 ≤ N := by omega
  rw [ofStage_toArray hN, ofStacked_toArray, check_bind_eq_error_iff, check_bind_eq_error_iff]
  simp only [Check.ordered_eq_error_iff, Check.ordered_eq_ok_iff, ← Vec.disorder_eq_empty_iff,
    Vec.isLeast_disorder_tile_iff, Vec.disorder_tile_eq_empty_iff, hTransition,
    Nat.lt_of_succ_le hN, true_and, forall_const, pure, Except.pure, reduceCtorEq, and_false,
    or_false, and_left_comm (b := 2 ≤ N), exists_and_left]

theorem exists_ofStage_eq_ok_iff (hN : 1 ≤ N) (lo hi rateLo rateHi : Vec S nu) :
    (∃ b, ofStage lo.toArray hi.toArray rateLo.toArray rateHi.toArray N = .ok b) ↔
      disorder lo.toArray hi.toArray = ∅ ∧
        (2 ≤ N → disorder rateLo.toArray rateHi.toArray = ∅) := by
  have hTransition : 0 < N - 1 ↔ 2 ≤ N := by omega
  simp only [ofStage_eq_ok_iff, ← Vec.disorder_eq_empty_iff, Vec.disorder_tile_eq_empty_iff,
    hTransition, hN, Nat.lt_of_succ_le hN, true_and, forall_const, exists_and_left, exists_eq,
    and_true]

end InputBounds

/-- **Bounds of one stage.** Over a horizon of at least one stage, bounds of one stage are accepted
exactly when their lengths match, the bounds on the input are in order and, over two stages or
more, so are those on its change. Otherwise the horizon is refused first, then a wrong length, then
the first pair of bounds on the input that is out of order, and then the first such pair of bounds
on its change. Entries of every kind are meant, also infinite ones and those that compare with
nothing. -/
theorem ofStage_accepts_iff {S : Type} [Scalar S] (inputMin inputMax rateMin rateMax : Array S)
    (N : ℕ) :
    let outcome := InputBounds.ofStage inputMin inputMax rateMin rateMax N
    let lengthsMatch := inputMax.size = inputMin.size ∧ rateMin.size = inputMin.size ∧
      rateMax.size = inputMin.size
    ((∃ b, outcome = .ok b) ↔ 1 ≤ N ∧ lengthsMatch ∧ disorder inputMin inputMax = ∅ ∧
      (2 ≤ N → disorder rateMin rateMax = ∅)) ∧
    (∀ h, outcome = .error (.invalidHorizon h) ↔ N = 0 ∧ h = 0) ∧
    (IsMismatch outcome ↔ 1 ≤ N ∧ ¬ lengthsMatch) ∧
    (∀ what i, outcome = .error (.invalidBounds what i) ↔ 1 ≤ N ∧ lengthsMatch ∧
      (what = "u_min_hat, u_max_hat" ∧ IsLeast (disorder inputMin inputMax) i ∨
        disorder inputMin inputMax = ∅ ∧ 2 ≤ N ∧
          what = "du_min_hat, du_max_hat" ∧ IsLeast (disorder rateMin rateMax) i)) := by
  intro outcome lengthsMatch
  rcases Nat.eq_zero_or_pos N with rfl | hN
  · have hOutcome : outcome = .error (.invalidHorizon 0) := rfl
    simp [hOutcome, IsMismatch, eq_comm]
  by_cases hLengths : lengthsMatch
  · obtain ⟨hInputMax, hRateMin, hRateMax⟩ := id hLengths
    have hOk : (∃ b, outcome = .ok b) ↔ _ := InputBounds.exists_ofStage_eq_ok_iff hN
      inputMin.toVector ⟨inputMax, hInputMax⟩ ⟨rateMin, hRateMin⟩ ⟨rateMax, hRateMax⟩
    have hError : ∀ e, outcome = .error e ↔ _ := fun e => InputBounds.ofStage_eq_error_iff hN
      inputMin.toVector ⟨inputMax, hInputMax⟩ ⟨rateMin, hRateMin⟩ ⟨rateMax, hRateMax⟩
    refine ⟨?_, fun h => ?_, ?_, fun what i => ?_⟩
    · rw [hOk]
      exact ⟨fun h => ⟨hN, hLengths, h⟩, fun h => h.2.2⟩
    · rw [hError]
      simp [hN.ne']
    · simp [IsMismatch, hError, hLengths]
    · rw [hError]
      simp [Nat.succ_le_of_lt hN, hLengths]
  · obtain ⟨what, expected, got, hNe, hOutcome⟩ : IsMismatch outcome :=
      InputBounds.ofStage_isMismatch hN hLengths
    simp [hOutcome, IsMismatch, hLengths, hN.ne', hNe, Nat.one_le_iff_ne_zero]

/-- Two inputs over two stages whose second upper bound is no number: the second position is
reported, although the bounds on the change of the first input are crossed. -/
theorem box_order_reported_first :
    letI := Precision.double
    InputBounds.ofStage #[finite 0, finite 0] #[posInf, nan] #[finite 1, negInf]
      #[finite 0, posInf] 2 = .error (.invalidBounds "u_min_hat, u_max_hat" 1) := by
  let _ := Precision.double
  have hDisorder := @Vec.mem_disorder_iff Extended _ 2 #v[finite 0, finite 0] #v[posInf, nan]
  have hLeast : IsLeast (disorder #[finite 0, finite 0] #[posInf, nan]) 1 := by
    refine ⟨hDisorder.mpr ⟨by omega, id⟩, fun i hi => ?_⟩
    obtain ⟨_, hNot⟩ := hDisorder.mp hi
    by_contra hBefore
    obtain rfl : i = 0 := by omega
    exact hNot trivial
  obtain ⟨-, -, -, hBounds⟩ := ofStage_accepts_iff #[finite 0, finite 0] #[posInf, nan]
    #[finite 1, negInf] #[finite 0, posInf] 2
  exact (hBounds _ 1).mpr ⟨by omega, ⟨rfl, rfl, rfl⟩, .inl ⟨rfl, hLeast⟩⟩

/-- Over one stage, bounds on the change of the input are accepted although they are crossed. -/
theorem crossed_rates_accepted :
    letI := Precision.double
    0 ∈ disorder #[finite 1] #[finite 0] ∧
      ∃ b, InputBounds.ofStage #[finite 0] #[finite 1] #[finite 1] #[finite 0] 1 = .ok b := by
  let _ := Precision.double
  have hCrossed := @Vec.mem_disorder_iff Extended _ 1 #v[finite 1] #v[finite 0]
  have hBox := @Vec.disorder_eq_empty_iff Extended _ 1 #v[finite 0] #v[finite 1]
  have hOk := InputBounds.exists_ofStage_eq_ok_iff (le_refl 1)
    #v[finite 0] #v[finite 1] #v[finite 1] #v[finite 0]
  refine ⟨hCrossed.mpr ⟨by omega, fun h => ?_⟩, hOk.mpr ⟨hBox.mpr fun i => ?_, by omega⟩⟩
  · exact absurd (finite_le.mp h) (by norm_num)
  · rw [Fin.fin_one_eq_zero i]
    exact finite_le.mpr zero_le_one

end RecedingHorizon
