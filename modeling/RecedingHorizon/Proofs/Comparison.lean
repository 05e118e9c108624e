import Mathlib.Data.List.Forall2
import RecedingHorizon.Proofs.Loop

/-!
# Two loops side by side

Two computations agree when they end with the same fault, or both end without one and with
related values. Agreement passes through sequencing (`Agree.bind`).

When the rounds of two loops from related states agree, and lead to related states again, the two
runs go through equally many rounds, related pair by pair, and end with the same fault
(`ClosedLoop.run_agree`).
-/

namespace RecedingHorizon

/-- Either the same fault, or values in the relation `R`. -/
inductive Agree {ε α β : Type} (R : α → β → Prop) : Except ε α → Except ε β → Prop
  | ok {a : α} {b : β} (h : R a b) : Agree R (.ok a) (.ok b)
  | error (e : ε) : Agree R (.error e) (.error e)

namespace Agree

variable {ε α β γ δ : Type} {R R' : α → β → Prop} {Q : γ → δ → Prop} {x : Except ε α}
  {x' : Except ε β}

theorem refl (x : Except ε α) : Agree (· = ·) x x := by
  cases x with
  | ok a => exact .ok rfl
  | error e => exact .error e

theorem exists_of_ok (h : Agree R x x') {a : α} (hx : x = .ok a) : ∃ b, x' = .ok b ∧ R a b := by
  subst hx
  cases h with
  | ok h => exact ⟨_, rfl, h⟩

theorem imp (h : Agree R x x') (hR : ∀ a b, x = .ok a → x' = .ok b → R a b → R' a b) :
    Agree R' x x' := by
  cases h with
  | ok h => exact .ok (hR _ _ rfl rfl h)
  | error e => exact .error e

theorem bind {f : α → Except ε γ} {f' : β → Except ε δ} (hx : Agree R x x')
    (hf : ∀ a b, R a b → Agree Q (f a) (f' b)) : Agree Q (x >>= f) (x' >>= f') := by
  cases hx with
  | ok h => exact hf _ _ h
  | error e => exact .error e

theorem map (f : α → β) (x : Except ε α) : Agree (fun b a => b = f a) (f <$> x) x := by
  cases x with
  | ok a => exact .ok rfl
  | error e => exact .error e

end Agree

namespace ClosedLoop

variable {S : Type} [Scalar S] {nx nu N : ℕ} {c c' : Controller S nx nu N}
  {Holds : Round S nu N → Round S nu N → Prop}

/-- What holds of each pair of rounds from related states holds along two runs. -/
theorem run_agree (Asks : Demand S → Demand S → Prop) (Keeps : State S → State S → Prop)
    (hRound : ∀ d d' s s', Asks d d' → Keeps s s' →
      Agree (fun r r' => Holds r r' ∧ Keeps r.after r'.after) (round c d s) (round c' d' s'))
    {ds ds' : List (Demand S)} (hAsks : List.Forall₂ Asks ds ds') {s s' : State S}
    (hKeeps : Keeps s s') :
    (run c ds s).fault = (run c' ds' s').fault ∧
      List.Forall₂ Holds (run c ds s).rounds (run c' ds' s').rounds := by
  induction hAsks generalizing s s' with
  | nil => exact ⟨rfl, .nil⟩
  | cons hAsk _ ih =>
    have hAgree := hRound _ _ s s' hAsk hKeeps
    rw [run, run]
    generalize round c _ s = x at hAgree ⊢
    generalize round c' _ s' = x' at hAgree ⊢
    cases hAgree with
    | ok h =>
      obtain ⟨hFault, hRounds⟩ := ih h.2
      exact ⟨hFault, .cons h.1 hRounds⟩
    | error e => exact ⟨rfl, .nil⟩

omit [Scalar S] in
theorem exists_rounds_of_length {run : Run S nu N} (hFault : run.fault = none)
    (hLength : run.rounds.length = 2) : ∃ r s, run = { rounds := [r, s], fault := none } := by
  obtain ⟨rounds, fault⟩ := run
  obtain ⟨r, s, rfl⟩ := List.length_eq_two.mp hLength
  cases hFault
  exact ⟨r, s, rfl⟩

omit [Scalar S] in
/-- A run that goes with a run of two rounds has two rounds itself. -/
theorem exists_rounds_of_pair {run run' : Run S nu N} {r s : Round S nu N}
    (hRun : run = { rounds := [r, s], fault := none }) (hFault : run.fault = run'.fault)
    (hRounds : List.Forall₂ Holds run.rounds run'.rounds) :
    ∃ r' s', run' = { rounds := [r', s'], fault := none } ∧ Holds r r' ∧ Holds s s' := by
  subst hRun
  exact exists_rounds_of_two hFault.symm hRounds

end ClosedLoop

end RecedingHorizon
