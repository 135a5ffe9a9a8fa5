import Motr.Varr.Get

/-!
The cursor of `m0_varr_iter` on a tree of depth 2: `m0_varr_cursor_init(arr, va_depth)`, then
`m0_varr_cursor_next`. At index `k` the cursor's path holds slot `k / 2 ^ S` of `va_tree` and
object `k % 2 ^ S` of the leaf that slot points to. A step to the next object of the leaf moves
the last element of the path; a step past the last object of a leaf carries into `va_tree` and
walks down to object 0 of the next leaf. So the cursor visits the addresses `m0_varr_ele_get`
gives, in the order of the indices, and returns 0 once past the last.
-/

namespace Motr

/-- The cursor at index `k` of a tree of depth 2. -/
def leafCursor (a : Varr) (mem : ℕ → ℕ) (k : ℕ) : VarrCursor :=
  ⟨2, k, [⟨0, 1, a.tree⟩,
    ⟨k / 2 ^ (a.bufShift - a.objShift), M0_VA_TNODE_NR,
      a.tree + M0_VA_TNODEPTR_SIZE * (k / 2 ^ (a.bufShift - a.objShift))⟩,
    ⟨k % 2 ^ (a.bufShift - a.objShift), 2 ^ (a.bufShift - a.objShift),
      mem (a.tree + M0_VA_TNODEPTR_SIZE * (k / 2 ^ (a.bufShift - a.objShift))) +
        k % 2 ^ (a.bufShift - a.objShift) * 2 ^ a.objShift⟩]⟩

@[simp] lemma m0VarrCursorGet_leafCursor (a : Varr) (mem : ℕ → ℕ) (k : ℕ) :
    m0VarrCursorGet (leafCursor a mem k) =
      mem (a.tree + M0_VA_TNODEPTR_SIZE * (k / 2 ^ (a.bufShift - a.objShift))) +
        k % 2 ^ (a.bufShift - a.objShift) * 2 ^ a.objShift := rfl

/-! ### The next index, within a leaf or past its end -/

lemma succ_div_mod_of_lt {k p : ℕ} (h : k % p + 1 < p) :
    (k + 1) / p = k / p ∧ (k + 1) % p = k % p + 1 := by
  have hp : 0 < p := by omega
  have hk : k + 1 = p * (k / p) + (k % p + 1) := by
    have := Nat.div_add_mod k p
    omega
  rw [hk, Nat.mul_add_div hp, Nat.div_eq_of_lt h, Nat.mul_add_mod, Nat.mod_eq_of_lt h]
  exact ⟨Nat.add_zero _, rfl⟩

lemma succ_div_mod_of_eq {k p : ℕ} (h : k % p + 1 = p) :
    (k + 1) / p = k / p + 1 ∧ (k + 1) % p = 0 := by
  have hp : 0 < p := by omega
  have hk : k + 1 = p * (k / p + 1) := by
    have := Nat.div_add_mod k p
    rw [Nat.mul_succ]
    omega
  rw [hk, Nat.mul_div_cancel_left _ hp, Nat.mul_mod_right]
  exact ⟨rfl, rfl⟩

lemma Varr.maxIdxWithinLevel_depth (a : Varr) : a.maxIdxWithinLevel a.depth = a.nr - 1 := by
  simp [Varr.maxIdxWithinLevel, Varr.levelShift]

section DepthTwo

variable {a : Varr} (mem : ℕ → ℕ) (h2 : a.depth = 2)
include h2

/-- `m0_varr_cursor_init(arr, va_depth)`: index 0. -/
lemma m0VarrCursorInit_leaf (hS : a.bufShift - a.objShift < 32) (htree : a.tree ≠ 0) :
    m0VarrCursorInit a mem a.depth = some (.ok (leafCursor a mem 0)) := by
  rw [h2]
  simp [m0VarrCursorInit, varrCursorDescend, Varr.childrenOfLevel, Varr.deref, leafCursor, h2,
    hS, htree, Except.map]

/-- Past the last index the cursor stays, and `m0_varr_cursor_next` returns 0. -/
lemma m0VarrCursorNext_leafCursor_last {k : ℕ} (hk : a.nr - 1 < k + 1) :
    m0VarrCursorNext a mem (leafCursor a mem k) = (leafCursor a mem k, false) := by
  unfold m0VarrCursorNext m0VarrCursorMove
  rw [show (leafCursor a mem k).depth = a.depth from h2.symm, Varr.maxIdxWithinLevel_depth]
  exact if_pos hk

variable (hS : a.bufShift - a.objShift < 32)
include hS

/-- A step to the next object of the same leaf moves the leaf's element of the path. -/
lemma m0VarrCursorNext_leafCursor_of_lt {k : ℕ} (hk : k + 1 ≤ a.nr - 1)
    (hin : k % 2 ^ (a.bufShift - a.objShift) + 1 < 2 ^ (a.bufShift - a.objShift)) :
    m0VarrCursorNext a mem (leafCursor a mem k) = (leafCursor a mem (k + 1), true) := by
  obtain ⟨hdiv, hmod⟩ := succ_div_mod_of_lt hin
  have h32 : k % 2 ^ (a.bufShift - a.objShift) + 1 < 2 ^ 32 :=
    lt_of_lt_of_le hin (Nat.pow_le_pow_right (by norm_num) hS.le)
  have hcarry : varrCarryUp a (leafCursor a mem k).path 2
      (k % 2 ^ (a.bufShift - a.objShift) + 1) 1 =
      ((leafCursor a mem k).path, 2, k % 2 ^ (a.bufShift - a.objShift) + 1, 1) := by
    simp [varrCarryUp, leafCursor, hin]
  unfold m0VarrCursorNext m0VarrCursorMove
  rw [show (leafCursor a mem k).depth = a.depth from h2.symm, Varr.maxIdxWithinLevel_depth,
    show (leafCursor a mem k).done = k from rfl, if_neg (not_lt.mpr hk), if_neg (by omega), h2]
  simp only [show ((leafCursor a mem k).path.getD 2 .none).idx =
    k % 2 ^ (a.bufShift - a.objShift) from rfl, hcarry, Nat.sub_self, varrWalkDown]
  simp only [leafCursor, hdiv, hmod, Varr.buffIncr, h2, Nat.mod_eq_of_lt h32]
  simp [Nat.succ_mul, Nat.add_assoc]

omit hS in
/-- A step past the last object of a leaf carries into `va_tree`: the next slot there, and
object 0 of the leaf it points to. -/
lemma m0VarrCursorNext_leafCursor_carry {k : ℕ} (hk : k + 1 ≤ a.nr - 1)
    (hin : k % 2 ^ (a.bufShift - a.objShift) + 1 = 2 ^ (a.bufShift - a.objShift))
    (hleaf : (k + 1) / 2 ^ (a.bufShift - a.objShift) < M0_VA_TNODE_NR) :
    m0VarrCursorNext a mem (leafCursor a mem k) = (leafCursor a mem (k + 1), true) := by
  obtain ⟨hdiv, hmod⟩ := succ_div_mod_of_eq hin
  have hq : k / 2 ^ (a.bufShift - a.objShift) + 1 < 64 := hdiv ▸ hleaf
  -- the leaf's index wraps to 0, and one more slot of `va_tree` is carried
  have hwrap : (2 ^ (a.bufShift - a.objShift) &&& 2 ^ (a.bufShift - a.objShift) - 1) % 2 ^ 32 = 0 := by
    rw [Nat.and_two_pow_sub_one_eq_mod, Nat.mod_self, Nat.zero_mod]
  have hup : 2 ^ (a.bufShift - a.objShift) >>> a.logRadix 2 = 1 := by
    rw [Varr.logRadix, if_neg (by norm_num), if_pos h2.symm, Nat.shiftRight_eq_div_pow,
      Nat.div_self (Nat.two_pow_pos _)]
  have hcarry : varrCarryUp a (leafCursor a mem k).path 2
      (k % 2 ^ (a.bufShift - a.objShift) + 1) 1 =
      ((leafCursor a mem k).path.set 2 ⟨0, 2 ^ (a.bufShift - a.objShift),
          mem (a.tree + M0_VA_TNODEPTR_SIZE * (k / 2 ^ (a.bufShift - a.objShift))) +
            k % 2 ^ (a.bufShift - a.objShift) * 2 ^ a.objShift⟩,
        1, k / 2 ^ (a.bufShift - a.objShift) + 1, 1) := by
    rw [hin, varrCarryUp]
    simp only [leafCursor, List.getD_cons_succ, List.getD_cons_zero, le_refl, if_true, hwrap,
      hup]
    simp [varrCarryUp, M0_VA_TNODE_NR]
    omega
  unfold m0VarrCursorNext m0VarrCursorMove
  rw [show (leafCursor a mem k).depth = a.depth from h2.symm, Varr.maxIdxWithinLevel_depth,
    show (leafCursor a mem k).done = k from rfl, if_neg (not_lt.mpr hk), if_neg (by omega), h2]
  simp only [show ((leafCursor a mem k).path.getD 2 .none).idx =
    k % 2 ^ (a.bufShift - a.objShift) from rfl, hcarry]
  simp [leafCursor, varrWalkDown, hdiv, hmod, Varr.buffIncr, Varr.deref, h2, M0_VA_TNODEPTR_SIZE,
    mul_add, Nat.add_assoc]
  omega

/-- `m0_varr_cursor_next` from index `k`: the next index while there is one, else 0. -/
lemma m0VarrCursorNext_leafCursor {k : ℕ} (hk : k < a.nr)
    (hM : (a.nr - 1) / 2 ^ (a.bufShift - a.objShift) < M0_VA_TNODE_NR) :
    m0VarrCursorNext a mem (leafCursor a mem k) =
      if k + 1 < a.nr then (leafCursor a mem (k + 1), true) else (leafCursor a mem k, false) := by
  split_ifs with hnext
  · -- within the leaf, or into the next one
    have hmod := Nat.mod_lt k (Nat.two_pow_pos (a.bufShift - a.objShift))
    rcases Nat.lt_or_ge (k % 2 ^ (a.bufShift - a.objShift) + 1) (2 ^ (a.bufShift - a.objShift))
      with hin | hin
    · exact m0VarrCursorNext_leafCursor_of_lt mem h2 hS (by omega) hin
    · exact m0VarrCursorNext_leafCursor_carry mem h2 (by omega) (by omega)
        (lt_of_le_of_lt (Nat.div_le_div_right (by omega)) hM)
  · exact m0VarrCursorNext_leafCursor_last mem h2 (by omega)

/-- From index 0, `k` steps of `m0_varr_cursor_next` reach index `k`. -/
lemma iterate_m0VarrCursorNext (hM : (a.nr - 1) / 2 ^ (a.bufShift - a.objShift) < M0_VA_TNODE_NR)
    {k : ℕ} (hk : k < a.nr) :
    (fun cur => (m0VarrCursorNext a mem cur).1)^[k] (leafCursor a mem 0) = leafCursor a mem k := by
  induction k with
  | zero => rfl
  | succ k ih =>
    rw [Function.iterate_succ_apply', ih (by omega),
      m0VarrCursorNext_leafCursor mem h2 hS (by omega) hM, if_pos hk]

end DepthTwo

/-- After `m0_varr_init` returns 0 on up to `M0_VA_TNODE_NR` leaves of fewer than `2 ^ 32`
objects, a cursor set up at depth `va_depth` and moved by `m0_varr_cursor_next` visits the
addresses `m0_varr_ele_get` gives to the indices `0, 1, ..., va_nr - 1` in order, and
`m0_varr_cursor_next` returns 0 exactly when moving past the last index. -/
theorem m0VarrInit_depth_two_cursor {nr size bufsize : ℕ} (tree : ℕ) {alloc : ℕ → ℕ}
    (mem : ℕ → ℕ) (hnr : 0 < nr) (hsize : 0 < size) (hle : size ≤ bufsize)
    (hptr : M0_VA_TNODEPTR_SIZE ≤ bufsize) (hbuf : bufsize ≤ 2 ^ 63)
    (hleaves : nr ≤ M0_VA_TNODE_NR * 2 ^ (nearestPowerOfTwo bufsize - nearestPowerOfTwo size))
    (hS : nearestPowerOfTwo bufsize - nearestPowerOfTwo size < 32) (htree : tree ≠ 0)
    (halloc : ∀ n, alloc n ≠ 0) :
    ∃ arr mem' cache, m0VarrInit nr size bufsize tree alloc mem = some (0, arr, mem', cache) ∧
      ∃ cur, m0VarrCursorInit arr mem' arr.depth = some (.ok cur) ∧
        ∀ k < nr, (m0VarrEleGet arr mem' cache k).map Prod.fst =
            some (m0VarrCursorGet ((fun c => (m0VarrCursorNext arr mem' c).1)^[k] cur)) ∧
          (m0VarrCursorNext arr mem' ((fun c => (m0VarrCursorNext arr mem' c).1)^[k] cur)).2 =
            decide (k + 1 < nr) := by
  obtain ⟨mem', hinit, hslots, -⟩ := m0VarrInit_depth_two tree mem hnr hsize hle hptr hbuf
    hleaves (halloc 0) (fun j _ => halloc (1 + j))
  set S := nearestPowerOfTwo bufsize - nearestPowerOfTwo size with hSdef
  set arr : Varr := ⟨nr, nearestPowerOfTwo size, nearestPowerOfTwo bufsize,
    nearestPowerOfTwo bufsize - 3, (nr - 1) / 2 ^ S + 1, 2, tree⟩
  have hmax : arr.maxIdxWithinLevel 1 = (nr - 1) / 2 ^ S := Varr.maxIdxWithinLevel_one rfl
  have hM : (nr - 1) / 2 ^ S < M0_VA_TNODE_NR := by
    apply Nat.div_lt_of_lt_mul
    rw [Nat.mul_comm]
    omega
  refine ⟨arr, mem', _, hinit, leafCursor arr mem' 0,
    m0VarrCursorInit_leaf mem' rfl hS htree, fun k hk => ?_⟩
  have hmod : k % 2 ^ S < 2 ^ 32 :=
    lt_of_lt_of_le (Nat.mod_lt _ (Nat.two_pow_pos S)) (Nat.pow_le_pow_right (by norm_num) hS.le)
  have hleaf : k / 2 ^ S ≤ (nr - 1) / 2 ^ S := Nat.div_le_div_right (by omega)
  rw [iterate_m0VarrCursorNext mem' rfl hS hM hk, m0VarrCursorNext_leafCursor mem' rfl hS hk hM,
    show arr.nr = nr from rfl, m0VarrEleGet_depth_two rfl (show S < 64 by omega) (hmax ▸ hM) (hmax ▸ hslots)
      (fun j _ => halloc (1 + j)) rfl hk]
  refine ⟨?_, by split_ifs with h <;> simp [h]⟩
  rw [Option.map_some, m0VarrCursorGet_leafCursor, show arr.bufShift - arr.objShift = S from rfl,
    Nat.mod_eq_of_lt hmod, hslots _ hleaf]

/-- The theorem at three objects of `8` bytes in leaves of `16`, two to a leaf. -/
theorem m0VarrInit_depth_two_cursor_three :
    ∃ arr mem' cache, m0VarrInit 3 8 16 8 (fun n => 4096 * (n + 1)) (fun _ => 0) =
        some (0, arr, mem', cache) ∧
      ∃ cur, m0VarrCursorInit arr mem' arr.depth = some (.ok cur) ∧
        ∀ k < 3, (m0VarrEleGet arr mem' cache k).map Prod.fst =
            some (m0VarrCursorGet ((fun c => (m0VarrCursorNext arr mem' c).1)^[k] cur)) ∧
          (m0VarrCursorNext arr mem' ((fun c => (m0VarrCursorNext arr mem' c).1)^[k] cur)).2 =
            decide (k + 1 < 3) := by
  have h8 : nearestPowerOfTwo 8 = 3 := nearestPowerOfTwo_two_pow 3
  have h16 : nearestPowerOfTwo 16 = 4 := nearestPowerOfTwo_two_pow 4
  exact m0VarrInit_depth_two_cursor 8 (fun _ => 0) (by norm_num) (by norm_num) (by norm_num)
    (by norm_num [M0_VA_TNODEPTR_SIZE]) (by norm_num) (by rw [h8, h16]; norm_num [M0_VA_TNODE_NR])
    (by rw [h8, h16]; norm_num) (by norm_num) (fun n => by positivity)

end Motr
