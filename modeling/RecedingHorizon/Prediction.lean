import RecedingHorizon.LinearModel
import RecedingHorizon.Linear.Stages

/-!
# Prediction over the horizon

The states `x₁, …, x_N` of a linear model, stacked by stage, are an affine
function of the first state and of the stacked inputs `u₀, …, u_{N-1}`:

  `(x₁, …, x_N) = E x₀ + F (u₀, …, u_{N-1})`.

Block row `i` of `E` is `A ^ (i + 1)`. Block `(i, j)` of `F` is
`A ^ (i - j) B` on and below the block diagonal and zero above it.
-/

namespace RecedingHorizon

/-- Prediction matrices for `h` stacked state entries from `p` state entries
and `n` stacked input entries. -/
structure Prediction (S : Type) (h p n : Nat) where
  E : Mat S h p
  F : Mat S h n

/-- `x, f x, f (f x), …` up to `k` applications. -/
def iterates {α : Type} (f : α → α) (x : α) : (k : Nat) → Vector α (k + 1)
  | 0 => #v[x]
  | k + 1 =>
    let known := iterates f x k
    known.push (f known.back)

theorem get_iterates {α : Type} (f : α → α) (x : α) (k : Nat) (i : Fin (k + 1)) :
    (iterates f x k).get i = Nat.repeat f i x := by
  induction k with
  | zero =>
    have hi : i = 0 := Fin.ext (by omega)
    subst hi
    rfl
  | succ k ih =>
    change ((iterates f x k).push (f (iterates f x k).back))[(i : Nat)] = _
    rw [Vector.getElem_push]
    split
    · next hi => exact ih ⟨i, hi⟩
    · next hi =>
      have hk : (i : Nat) = k + 1 := by omega
      have hlast : (iterates f x k).back = Nat.repeat f k x := ih (Fin.last k)
      rw [hk, Nat.repeat, hlast]

namespace Prediction

variable {S : Type} {nx nu h p n : Nat} [Scalar S]

/-- How many stages after stage `j` stage `i` comes. -/
def lag {N : Nat} (i j : Fin N) : Fin (N + 1) :=
  ⟨i - j, Nat.lt_succ_of_le (Nat.le_trans (Nat.sub_le ..) (Nat.le_of_lt i.isLt))⟩

/-- Unrolls the dynamics over `N` stages. -/
def unroll (model : LinearModel S nx nu) (N : Nat) :
    Prediction S (N * nx) nx (N * nu) :=
  let powers := iterates model.A.mul model.A N
  let responses := iterates model.A.mul model.B N
  { E := .ofFn fun i j => (powers.get (Stage.of i).castSucc).entry (Stage.offset i) j
    F := .ofFn fun i j =>
      if Stage.of j ≤ Stage.of i then
        (responses.get (lag (Stage.of i) (Stage.of j))).entry (Stage.offset i) (Stage.offset j)
      else
        0 }

/-- Unrolls the dynamics over a horizon of at least one stage. -/
def ofModel (model : LinearModel S nx nu) (N : Nat) :
    Except (Fault S) (Prediction S (N * nx) nx (N * nu)) :=
  if N < 1 then .error (.invalidHorizon N) else .ok (unroll model N)

/-- The number of stages as the shape of `E` shows it: its rows by its
columns. -/
def horizon (_ : Prediction S h p n) : Nat := h / max p 1

/-- The stacked states from `x₀` under the stacked inputs `u`. -/
def states (c : Prediction S h p n) (x₀ : Vec S p) (u : Vec S n) : Vec S h :=
  (c.F.mulVec u).add (c.E.mulVec x₀)

/-- The stacked states for vectors of any lengths. -/
def predict (c : Prediction S h p n) (x₀ u : Array S) : Except (Fault S) (Vec S h) := do
  let x₀ ← Check.length "x0" x₀ p
  let u ← Check.length "u_hat" u n
  return c.states x₀ u

end Prediction

end RecedingHorizon
