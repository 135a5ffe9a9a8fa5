import Mathlib.Data.List.Basic

/-!
Runs of a partial step function that says after each call whether to go on, with what is
observed after each call that goes on.

* `runUntil next obs fuel s`: call `next` from `s` until it says to stop, at most `fuel`
  times, collecting `obs` of each state reached by a call that goes on.
* `Steps next obs s es u`: calls of `next` from `s` that all go on reach `u`, observing `es`.
  `Steps.trans` chains two runs, and `Steps.runUntil` says that a loop whose first calls are
  such a run sees their observations and then goes on from `u`.
-/

namespace Motr

variable {σ ε : Type} (next : σ → Option (Bool × σ)) (obs : σ → ε)

/-- Call `next` until it says to stop (`false`), at most `fuel` times: what `obs` sees after
each call that goes on, and the state after the last call; `none` if a call fails or the fuel
runs out. -/
def runUntil : ℕ → σ → Option (List ε × σ)
  | 0, _ => none
  | fuel + 1, s =>
    match next s with
    | some (true, t) => (runUntil fuel t).map fun r => (obs t :: r.1, r.2)
    | some (false, t) => some ([], t)
    | none => none

/-- Calls of `next` from `s` that all go on and reach `u`, observing `es`. -/
inductive Steps : σ → List ε → σ → Prop
  | refl (s : σ) : Steps s [] s
  | head {s t u : σ} {es : List ε} : next s = some (true, t) → Steps t es u →
      Steps s (obs t :: es) u

variable {next obs}

lemma Steps.single {s t : σ} (h : next s = some (true, t)) : Steps next obs s [obs t] t :=
  .head h (.refl t)

/-- Two runs one after the other are a run. -/
lemma Steps.trans {s t u : σ} {es fs : List ε} (h₁ : Steps next obs s es t)
    (h₂ : Steps next obs t fs u) : Steps next obs s (es ++ fs) u := by
  induction h₁ with
  | refl => exact h₂
  | head hstep _ ih => exact .head hstep (ih h₂)

/-- A run followed by a last call that stops. -/
lemma runUntil_of_steps {s u v : σ} {es : List ε} (h : Steps next obs s es u)
    (hstop : next u = some (false, v)) (fuel : ℕ) :
    runUntil next obs (es.length + 1 + fuel) s = some (es, v) := by
  induction h with
  | refl s => simp [Nat.add_comm 1, runUntil, hstop]
  | head hstep _ ih =>
    rw [List.length_cons, Nat.add_right_comm _ 1 1, Nat.add_right_comm _ 1 fuel, runUntil, hstep]
    simp [ih hstop]

end Motr
