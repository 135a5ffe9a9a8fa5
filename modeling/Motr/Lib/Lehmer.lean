import Mathlib.Data.List.Perm.Basic
import Mathlib.Data.List.Nodup

/-!
Applying a Lehmer code to a list, one step at a time: step `i` takes the element at position
`t = i + k[i]` to position `i`, the elements from `i` to `t - 1` moving one place on. The
first `i` positions are then final, the element placed is the one taken, and the list stays
a permutation of what it was.
-/

namespace Motr

variable {α : Type*}

/-- The element `x` placed at position `i`, the elements from `i` up to `t - 1` moved one
place on and the element at `t` dropped: one step of a Lehmer code when `x` is the element at
`t`. -/
def moveDown (s : List α) (i t : ℕ) (x : α) : List α :=
  s.take i ++ x :: ((s.drop i).take (t - i) ++ s.drop (t + 1))

/-- The list cut around position `t`, with the part from `i` on. -/
lemma drop_eq_take_append_getElem_cons {s : List α} {i t : ℕ} (ht : t < s.length)
    (hit : i ≤ t) : s.drop i = (s.drop i).take (t - i) ++ s[t] :: s.drop (t + 1) := by
  conv_lhs => rw [← List.take_append_drop (t - i) (s.drop i)]
  rw [List.drop_drop, Nat.add_sub_cancel' hit, List.drop_eq_getElem_cons ht]

lemma moveDown_perm {s : List α} {i t : ℕ} (ht : t < s.length) (hit : i ≤ t) :
    (moveDown s i t s[t]).Perm s := by
  have hs : s = s.take i ++ ((s.drop i).take (t - i) ++ s[t] :: s.drop (t + 1)) := by
    rw [← drop_eq_take_append_getElem_cons ht hit, List.take_append_drop]
  conv_rhs => rw [hs]
  exact List.Perm.append_left _ List.perm_middle.symm

/-- The positions before `i` are left as they were. -/
lemma take_moveDown {s : List α} {i t : ℕ} (x : α) (hi : i ≤ s.length) :
    (moveDown s i t x).take i = s.take i := by
  simp [moveDown, List.length_take, Nat.min_eq_left hi]

/-- The element placed is at position `i`. -/
lemma getElem?_moveDown_self {s : List α} {i t : ℕ} (x : α) (hi : i ≤ s.length) :
    (moveDown s i t x)[i]? = some x := by
  rw [moveDown, List.getElem?_append_right (by simp [Nat.min_eq_left hi])]
  simp [Nat.min_eq_left hi]

end Motr
