import Mathlib

/-!
Positions that grow without bound, kept in a circular window `[O, O + S)` of a device:
position `p` is stored at `O + p % S` (`ringPhys`).

* `ringPhys_injOn`: positions of an interval of length `S` are stored at distinct places, so
  intervals of positions that lie in one such interval and do not meet are stored at places
  that do not meet.
* `ringPhys_add_of_lt`, `ringPhys_add_of_ge`: a run of at most `S` positions from `p` is
  stored from `ringPhys O S p` up to the end of the window, then from `O` on; it crosses the
  end of the window at most once.
-/

namespace Motr

/-- The place of position `p` in the circular window `[O, O + S)`. -/
def ringPhys (O S p : ℕ) : ℕ := O + p % S

variable {O S : ℕ}

lemma le_ringPhys (p : ℕ) : O ≤ ringPhys O S p := Nat.le_add_right _ _

lemma ringPhys_lt (hS : 0 < S) (p : ℕ) : ringPhys O S p < O + S := by
  unfold ringPhys
  have := Nat.mod_lt p hS
  omega

/-- Positions less than `S` apart are stored at distinct places. -/
lemma ringPhys_injOn (lo : ℕ) : Set.InjOn (ringPhys O S) (Set.Ico lo (lo + S)) := by
  intro p hp q hq h
  have hinj := Nat.mod_injOn_Ico lo S
  exact hinj (by simpa using hp) (by simpa using hq) (by simpa [ringPhys] using h)

/-- The `k`-th position of a run from `p`, before the run reaches the end of the window. -/
lemma ringPhys_add_of_lt {p k : ℕ} (h : p % S + k < S) :
    ringPhys O S (p + k) = ringPhys O S p + k := by
  have hk : k % S = k := Nat.mod_eq_of_lt (by omega)
  unfold ringPhys
  rw [Nat.add_mod, hk, Nat.mod_eq_of_lt h, Nat.add_assoc]

/-- The `k`-th position of a run from `p`, once the run has passed the end of the window,
within one turn of it. -/
lemma ringPhys_add_of_ge {p k : ℕ} (h₁ : S ≤ p % S + k) (h₂ : k < S) :
    ringPhys O S (p + k) = O + (p % S + k - S) := by
  have hk : k % S = k := Nat.mod_eq_of_lt h₂
  have hlt : p % S + k - S < S := by
    have := Nat.mod_lt p (show 0 < S by omega)
    omega
  unfold ringPhys
  rw [Nat.add_mod, hk, Nat.mod_eq_sub_mod h₁, Nat.mod_eq_of_lt hlt]

end Motr
