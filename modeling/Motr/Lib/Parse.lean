import Mathlib

/-!
Parsers that read a list from its head, in `ExceptT ε Option`: `none` for a failed assertion,
an error, or a result with what is left of the input.

`ParseExtends err e x y` says that `y` is what `x` becomes on its input with `e` appended:
it fails the same assertion, it returns what `x` returns with `e` after what is left, or `x`
ran out of input, which it reports as `err`. The relation holds of `pure`, of `throw err` and
of an assertion, and `ParseExtends.bind` carries it through a sequence of parsers; a parser
built from these therefore either reads a prefix of its input or runs out of it.
-/

namespace Motr

variable {ε α β γ : Type}

/-- `y` is the run of `x` on its input with `e` appended. -/
def ParseExtends (err : ε) (e : List β) (x y : ExceptT ε Option (α × List β)) : Prop :=
  (x.run = none ∧ y.run = none) ∨
    (∃ a r, x.run = some (.ok (a, r)) ∧ y.run = some (.ok (a, r ++ e))) ∨
    x.run = some (.error err)

namespace ParseExtends

variable {err : ε} {e : List β}

lemma pure' (a : α) (r : List β) :
    ParseExtends err e (pure (a, r) : ExceptT ε Option (α × List β)) (pure (a, r ++ e)) :=
  .inr (.inl ⟨a, r, rfl, rfl⟩)

lemma throw' (y : ExceptT ε Option (α × List β)) :
    ParseExtends err e (throw err : ExceptT ε Option (α × List β)) y :=
  .inr (.inr rfl)

lemma lift_none :
    ParseExtends err e (ExceptT.lift none : ExceptT ε Option (α × List β)) (ExceptT.lift none) :=
  .inl ⟨rfl, rfl⟩

/-- The relation runs through a sequence: the continuation, run on what each side has left,
keeps it. -/
lemma bind {x y : ExceptT ε Option (α × List β)} {f : α × List β → ExceptT ε Option (γ × List β)}
    (h : ParseExtends err e x y) (hf : ∀ a r, ParseExtends err e (f (a, r)) (f (a, r ++ e))) :
    ParseExtends err e (x >>= f) (y >>= f) := by
  rcases h with ⟨hx, hy⟩ | ⟨a, r, hx, hy⟩ | hx
  · left
    simp [ExceptT.run_bind, hx, hy]
  · have hxf : (x >>= f).run = (f (a, r)).run := by simp [ExceptT.run_bind, hx]
    have hyf : (y >>= f).run = (f (a, r ++ e)).run := by simp [ExceptT.run_bind, hy]
    unfold ParseExtends
    rw [hxf, hyf]
    exact hf a r
  · right
    right
    simp [ExceptT.run_bind, hx]

end ParseExtends

end Motr
