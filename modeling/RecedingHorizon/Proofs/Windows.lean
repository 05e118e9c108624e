import Mathlib.Tactic.Common
import RecedingHorizon.Linear.Blocks
import RecedingHorizon.Prediction

/-!
# Matrices filled window by window

A matrix that is assembled in loops is, at every point of them, the finished matrix with zeros at
what is still to do (`Mat.partly`). A window inside it that is filled with its entries does the
entries of the window (`Grid.write?_partly`), so a loop of such windows never leaves the matrix and
ends with all of it, provided that the windows cover the entries that are not zero.

Products and sums of matrices that carry their shapes beside them are the typed ones where the
shapes fit.
-/

namespace RecedingHorizon

/-- A loop that moves from one state to the next reaches the last one. -/
theorem foldlM_range_eq_some {α : Type} {f : α → ℕ → Option α} (state : ℕ → α) {init : α} {N : ℕ}
    (hInit : init = state 0) (h : ∀ k < N, f (state k) k = some (state (k + 1))) :
    (List.range N).foldlM f init = some (state N) := by
  subst hInit
  induction N with
  | zero => rfl
  | succ N ih =>
    rw [List.range_succ, List.foldlM_append, ih fun k hk => h k (by omega), Option.bind_eq_bind,
      Option.bind_some, List.foldlM_cons, h N (by omega)]
    rfl

namespace Mat

variable {S : Type} [Scalar S] {m n p q : ℕ}

open Classical in
/-- The entries that are done, and zeros elsewhere. -/
noncomputable def partly (M : Mat S m n) (done : ℕ → ℕ → Prop) : Mat S m n :=
  ofFn fun k l => if done k l then M.entry k l else 0

theorem entry_partly {M : Mat S m n} {done : ℕ → ℕ → Prop} {k : Fin m} {l : Fin n}
    (h : done k l) : (M.partly done).entry k l = M.entry k l := by
  rw [partly, entry_ofFn, if_pos h]

theorem entry_partly_of_not {M : Mat S m n} {done : ℕ → ℕ → Prop} {k : Fin m} {l : Fin n}
    (h : ¬ done k l) : (M.partly done).entry k l = 0 := by
  rw [partly, entry_ofFn, if_neg h]

/-- Where the matrix is zero, it does not matter what is done. -/
theorem partly_congr {M : Mat S m n} {done done' : ℕ → ℕ → Prop}
    (h : ∀ k l, M.entry k l ≠ 0 → (done k l ↔ done' k l)) : M.partly done = M.partly done' := by
  apply Mat.ext
  intro k l
  by_cases hZero : M.entry k l = 0
  · by_cases hDone : done k l <;> by_cases hDone' : done' k l <;>
      simp [entry_partly, entry_partly_of_not, hDone, hDone', hZero]
  · by_cases hDone : done k l
    · rw [entry_partly hDone, entry_partly ((h k l hZero).mp hDone)]
    · rw [entry_partly_of_not hDone, entry_partly_of_not fun hDone' =>
        hDone ((h k l hZero).mpr hDone')]

theorem partly_eq_self {M : Mat S m n} {done : ℕ → ℕ → Prop}
    (h : ∀ k l, M.entry k l ≠ 0 → done k l) : M.partly done = M := by
  apply Mat.ext
  intro k l
  by_cases hDone : done k l
  · exact entry_partly hDone
  · rw [entry_partly_of_not hDone]
    exact (not_not.mp fun hNe => hDone (h k l hNe)).symm

theorem partly_eq_zeros {M : Mat S m n} {done : ℕ → ℕ → Prop} (h : ∀ k l, ¬ done k l) :
    M.partly done = zeros m n := by
  apply Mat.ext
  intro k l
  rw [entry_partly_of_not (h k l), zeros, entry_ofFn]

/-- Copying a block over its own window does the entries of the window. -/
theorem overwrite_partly {M : Mat S m n} {done : ℕ → ℕ → Prop} {i j : ℕ} {block : Mat S p q}
    (hRows : i + p ≤ m) (hCols : j + q ≤ n)
    (hBlock : ∀ (k : Fin p) (l : Fin q),
      block.entry k l = M.entry ⟨i + k, by omega⟩ ⟨j + l, by omega⟩) :
    (M.partly done).overwrite i j block =
      M.partly fun k l => done k l ∨ (i ≤ k ∧ k < i + p) ∧ j ≤ l ∧ l < j + q := by
  apply Mat.ext
  intro k l
  rw [overwrite, entry_ofFn]
  split
  · rename_i hIn
    rw [entry_partly (Or.inr (by omega)), hBlock]
    congr 1
    · exact Fin.ext (Nat.add_sub_cancel' hIn.1.1)
    · exact Fin.ext (Nat.add_sub_cancel' hIn.2.1)
  · rename_i hOut
    by_cases hDone : done k l
    · rw [entry_partly hDone, entry_partly (Or.inl hDone)]
    · have hNot : ¬ (done k l ∨ (i ≤ k ∧ (k : ℕ) < i + p) ∧ j ≤ l ∧ (l : ℕ) < j + q) := by
        rintro (h | h)
        · exact hDone h
        · omega
      rw [entry_partly_of_not hDone, entry_partly_of_not hNot]

end Mat

/-! ## Stages as windows -/

namespace Stage

variable {N b k : ℕ}

theorem window_le (hk : k < N) : k * b + b ≤ N * b := by
  rw [← Nat.succ_mul]
  exact Nat.mul_le_mul_right b hk

theorem mk_eq_index (hk : k < N) (a : Fin b) (h : k * b + a < N * b) :
    (⟨k * b + a, h⟩ : Fin (N * b)) = index ⟨k, hk⟩ a :=
  Fin.ext (congrArg (· + (a : ℕ)) (Nat.mul_comm k b))

theorem div_eq_iff_window (i : Fin (N * b)) (k : ℕ) :
    (i : ℕ) / b = k ↔ k * b ≤ i ∧ (i : ℕ) < k * b + b := by
  have hPos := block_pos i
  rw [Nat.div_eq_iff hPos]
  omega

end Stage

/-! ## Matrices -/

namespace Grid

variable {S : Type} [Scalar S] {m n p q : ℕ}

/-- A window inside the matrix is filled with its entries. -/
theorem write?_partly {M : Mat S m n} {done done' : ℕ → ℕ → Prop} {i j : ℕ} {block : Mat S p q}
    (hRows : i + p ≤ m) (hCols : j + q ≤ n)
    (hBlock : ∀ (k : Fin p) (l : Fin q),
      block.entry k l = M.entry ⟨i + k, by omega⟩ ⟨j + l, by omega⟩)
    (hDone : ∀ k l, M.entry k l ≠ 0 →
      (done' k l ↔ done k l ∨ (i ≤ k ∧ (k : ℕ) < i + p) ∧ j ≤ l ∧ (l : ℕ) < j + q)) :
    (M.partly done).toGrid.write? i j p q block.toGrid = some (M.partly done').toGrid := by
  have hFilled : M.partly done' = (M.partly done).overwrite i j block :=
    (Mat.partly_congr hDone).trans (Mat.overwrite_partly hRows hCols hBlock).symm
  rw [write?, if_pos ⟨⟨rfl, rfl⟩, hRows, hCols⟩, hFilled]

/-- A loop that does some rows more in each round fills the matrix. -/
theorem foldlM_rows {M : Mat S m n} {f : Grid S → ℕ → Option (Grid S)} {N : ℕ} (rows : ℕ → ℕ)
    (hStart : rows 0 = 0) (hEnd : rows N = m)
    (h : ∀ k < N, f (M.partly fun i _ => i < rows k).toGrid k =
      some (M.partly fun i _ => i < rows (k + 1)).toGrid) :
    (List.range N).foldlM f (Mat.zeros m n).toGrid = some M.toGrid := by
  have hAll : (M.partly fun i _ => i < rows N) = M :=
    Mat.partly_eq_self fun i _ _ => hEnd.symm ▸ i.isLt
  rw [foldlM_range_eq_some (fun k => (M.partly fun i _ => i < rows k).toGrid) _ h, hAll]
  rw [Mat.partly_eq_zeros fun i _ => by simp [hStart]]

theorem mul?_toGrid (M : Mat S m n) (N : Mat S n p) :
    M.toGrid.mul? N.toGrid = some (M.mul N).toGrid := dif_pos rfl

theorem transposeMul?_toGrid (M : Mat S m n) (N : Mat S m p) :
    M.toGrid.transposeMul? N.toGrid = some (M.transposeMul N).toGrid := dif_pos rfl

theorem add?_toGrid (M N : Mat S m n) : M.toGrid.add? N.toGrid = some (M.add N).toGrid :=
  dif_pos ⟨rfl, rfl⟩

theorem mulVec?_toArray (M : Mat S m n) (v : Vec S n) :
    M.toGrid.mulVec? v.toArray = some (M.mulVec v).toArray := dif_pos v.size_toArray

theorem iterates_zero {α : Type} (f : α → α) (x : α) : iterates f x 0 = #v[x] := rfl

theorem iterates_succ {α : Type} (f : α → α) (x : α) (k : ℕ) :
    iterates f x (k + 1) = (iterates f x k).push (f (iterates f x k).back) := rfl

theorem getElem?_iterates {α β : Type} (f : α → α) (x : α) (g : α → β) {k count : ℕ}
    (hk : k ≤ count) : ((iterates f x count).toArray.map g)[k]? = some (g (Nat.repeat f k x)) := by
  have hGet := get_iterates f x count ⟨k, by omega⟩
  rw [Array.getElem?_map, Array.getElem?_eq_getElem (by simp; omega), Option.map_some, ← hGet]
  rfl

theorem products?_toGrid (A : Mat S m m) (start : Mat S m n) (count : ℕ) :
    A.toGrid.products? start.toGrid count =
      some ((iterates A.mul start count).toArray.map Mat.toGrid) := by
  refine foldlM_range_eq_some (fun k => (iterates A.mul start k).toArray.map Mat.toGrid)
    (by simp [iterates_zero]) ?_
  intro k _
  have hLast : (iterates A.mul start k).back = Nat.repeat A.mul k start :=
    get_iterates A.mul start k (Fin.last k)
  rw [getElem?_iterates A.mul start Mat.toGrid (Nat.le_refl k), Option.bind_eq_bind,
    Option.bind_some, mul?_toGrid, Option.bind_some, iterates_succ, hLast, Vector.toArray_push,
    Array.map_push]
  rfl

theorem blockDiagonal?_toGrid (M : Mat S p q) (N : ℕ) :
    M.toGrid.blockDiagonal? N = some (M.blockDiagonal N).toGrid := by
  refine foldlM_rows (fun k => k * p) (Nat.zero_mul p) rfl fun k hk => ?_
  refine write?_partly (Stage.window_le hk) (Stage.window_le hk) (fun a b => ?_)
    fun (i : Fin (N * p)) (j : Fin (N * q)) hNe => ?_
  · simp only [Stage.mk_eq_index hk]
    rw [Mat.entry_blockDiagonal, Stage.of_index, Stage.of_index, if_pos rfl, Stage.offset_index,
      Stage.offset_index]
  · have hStage : (i : ℕ) / p = j / q := by
      by_contra hNot
      rw [Mat.entry_blockDiagonal] at hNe
      exact hNe (if_neg fun hOf => hNot (congrArg Fin.val hOf))
    have hWindow := Stage.div_eq_iff_window j k
    rw [← hStage, Stage.div_eq_iff_window i k] at hWindow
    change (i : ℕ) < (k + 1) * p ↔
      (i : ℕ) < k * p ∨ (k * p ≤ i ∧ (i : ℕ) < k * p + p) ∧ k * q ≤ j ∧ (j : ℕ) < k * q + q
    rw [Nat.succ_mul]
    omega

end Grid

/-! ## Vectors -/

theorem size_tile {S : Type} (v : Array S) (times : ℕ) : (tile v times).size = times * v.size :=
  Vector.size_toArray _

namespace Slice

variable {S : Type}

theorem read?_block {N b : ℕ} (v : Vec S (N * b)) (now : Fin N) (hNow : (now : ℕ) = 0) :
    read? v.toArray 0 b = some (v.block now).toArray := by
  have hFits : b ≤ N * b := Nat.le_mul_of_pos_left b now.pos
  have hSize : v.toArray.size = N * b := v.size_toArray
  rw [read?, if_pos (by omega)]
  congr 1
  apply Array.ext
  · rw [Array.size_extract, hSize, Vector.size_toArray]
    omega
  · intro k hk hk'
    rw [Vector.size_toArray] at hk'
    have hBlock := v.get_block now ⟨k, hk'⟩
    have hIndex : Stage.index now ⟨k, hk'⟩ = ⟨k, by omega⟩ := by
      apply Fin.ext
      simp [Stage.index, hNow]
    rw [hIndex] at hBlock
    rw [Array.getElem_extract]
    simp only [Nat.zero_add]
    exact hBlock.symm

theorem tile?_eq (v : Array S) (times : ℕ) : tile? v times = some (tile v times) := by
  have hSize := size_tile v times
  have hEnd : (tile v times).extract 0 (times * v.size) = tile v times := by
    rw [← hSize, Array.extract_size]
  rw [tile?, foldlM_range_eq_some fun k => (tile v times).extract 0 k]
  · rw [hEnd]
  · simp
  · intro k hk
    have hPos : 0 < v.size := Nat.pos_of_ne_zero fun hZero => by simp [hZero] at hk
    have hMax : max v.size 1 = v.size := Nat.max_eq_left hPos
    have hMod : k % max v.size 1 < v.size := by
      rw [hMax]
      exact Nat.mod_lt k hPos
    have hEntry : (tile v times)[k] = v[k % max v.size 1] := by
      have hTile : (tile v times)[k] = v.toVector.get (Stage.offset ⟨k, hk⟩) :=
        Vec.get_tile v.toVector ⟨k, hk⟩
      rw [hTile]
      simp only [hMax]
      rfl
    rw [Array.getElem?_eq_getElem hMod, Option.bind_eq_bind, Option.bind_some, ← hEntry]
    exact congrArg some (Array.push_extract_getElem _)

variable [Scalar S]

theorem stack?_eq (top bottom : Array S) : stack? top bottom = some (top ++ bottom) := by
  have hTop : write? (.replicate (top.size + bottom.size) (0 : S)) 0 top.size top =
      some (top ++ .replicate bottom.size 0) := by
    rw [write?, if_pos (by simp)]
    simp
  have hBottom : write? (top ++ .replicate bottom.size 0) top.size bottom.size bottom =
      some (top ++ bottom) := by
    have hRest : top.extract (top.size + bottom.size) (top.size + bottom.size) = #[] :=
      Array.extract_empty_of_stop_le_start (Nat.le_refl _)
    rw [write?, if_pos (by simp)]
    simp only [Array.extract_append, Array.size_append, Array.size_replicate]
    rw [hRest]
    simp
  rw [stack?, hTop, Option.bind_eq_bind, Option.bind_some, hBottom]

theorem add?_toArray {n : ℕ} (u v : Vec S n) :
    add? u.toArray v.toArray = some (u.add v).toArray := by
  obtain ⟨u, rfl⟩ := u
  exact dif_pos v.size_toArray

theorem sub?_toArray {n : ℕ} (u v : Vec S n) :
    sub? u.toArray v.toArray = some (u.sub v).toArray := by
  obtain ⟨u, rfl⟩ := u
  exact dif_pos v.size_toArray

theorem clamp?_toArray {n : ℕ} (lo hi v : Vec S n) :
    clamp? lo.toArray hi.toArray v.toArray = some (Vec.clamp lo hi v).toArray := by
  obtain ⟨v, rfl⟩ := v
  exact dif_pos ⟨lo.size_toArray, hi.size_toArray⟩

end Slice

end RecedingHorizon
