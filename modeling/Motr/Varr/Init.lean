import Motr.Varr.Tree

/-!
What `m0_varr_init` builds for an array of at most `M0_VA_TNODE_NR` leaf buffers, a tree of
depth 2: the shape it computes, the leaf buffers `varr_buffers_alloc` writes into the slots of
`va_tree`, and the address `m0_varr_ele_get` returns for each index.

With `S = va_buf_shift - va_obj_shift` a leaf holds `2 ^ S` objects, and index `i` is object
`i % 2 ^ S` of leaf `i / 2 ^ S`. The object's place in its leaf passes through a `uint32_t`
(`index_within_level`, `buff_incr`), so past `2 ^ 32` objects a leaf two indices `2 ^ 32` apart
get one address.
-/

namespace Motr

/-! ### The shape -/

lemma nearestPowerOfTwoLoop_spec (num shift : ℕ) :
    num ≤ 2 ^ nearestPowerOfTwoLoop num shift ∧ shift ≤ nearestPowerOfTwoLoop num shift ∧
      ∀ k, shift ≤ k → k < nearestPowerOfTwoLoop num shift → 2 ^ k < num := by
  fun_induction nearestPowerOfTwoLoop num shift with
  | case1 shift hgt ih =>
    obtain ⟨hle, hshift, hlt⟩ := ih
    refine ⟨hle, by omega, fun k hk hkl => ?_⟩
    rcases Nat.eq_or_lt_of_le hk with rfl | hk'
    · exact hgt
    · exact hlt k hk' hkl
  | case2 shift hle =>
    exact ⟨not_lt.mp hle, le_rfl, fun k hk hkl => absurd hkl (not_lt.mpr hk)⟩

/-- `nearest_power_of_two(num)` is the least `k` with `num ≤ 2 ^ k`. -/
theorem nearestPowerOfTwo_le_iff (num k : ℕ) : nearestPowerOfTwo num ≤ k ↔ num ≤ 2 ^ k := by
  obtain ⟨hle, -, hlt⟩ := nearestPowerOfTwoLoop_spec num 0
  constructor
  · intro hk
    exact hle.trans (Nat.pow_le_pow_right (by norm_num) hk)
  · intro hk
    by_contra hgt
    have := hlt k (Nat.zero_le k) (not_le.mp hgt)
    omega

lemma nearestPowerOfTwo_two_pow (k : ℕ) : nearestPowerOfTwo (2 ^ k) = k := by
  apply le_antisymm ((nearestPowerOfTwo_le_iff _ _).mpr le_rfl)
  have := (nearestPowerOfTwo_le_iff (2 ^ k) (nearestPowerOfTwo (2 ^ k))).mp le_rfl
  exact (Nat.pow_le_pow_iff_right (by norm_num)).mp this

lemma nearestPowerOfTwo_mono {m n : ℕ} (h : m ≤ n) : nearestPowerOfTwo m ≤ nearestPowerOfTwo n :=
  (nearestPowerOfTwo_le_iff m _).mpr (h.trans ((nearestPowerOfTwo_le_iff n _).mp le_rfl))

/-- `total_leaf_buffers` rounds up: one leaf more than the one of the last index. -/
theorem totalLeafBuffers_eq {nr : ℕ} (hnr : 0 < nr) (S : ℕ) :
    totalLeafBuffers nr (2 ^ S) S = (nr - 1) / 2 ^ S + 1 := by
  have hp : 0 < 2 ^ S := Nat.two_pow_pos S
  unfold totalLeafBuffers
  rw [Nat.shiftRight_eq_div_pow, Nat.and_two_pow_sub_one_eq_mod]
  -- `nr` is `q` whole leaves and `r` objects more
  obtain ⟨q, r, hr, rfl⟩ : ∃ q r, r < 2 ^ S ∧ nr = 2 ^ S * q + r :=
    ⟨nr / 2 ^ S, nr % 2 ^ S, Nat.mod_lt _ hp, (Nat.div_add_mod nr _).symm⟩
  rw [Nat.mul_add_div hp, Nat.mul_add_mod, Nat.div_eq_of_lt hr, Nat.mod_eq_of_lt hr]
  split_ifs with h0
  · subst h0
    obtain ⟨q, rfl⟩ : ∃ q', q = q' + 1 :=
      Nat.exists_eq_succ_of_ne_zero (by rintro rfl; simp at hnr)
    rw [show 2 ^ S * (q + 1) + 0 - 1 = 2 ^ S * q + (2 ^ S - 1) by rw [Nat.mul_succ]; omega,
      Nat.mul_add_div hp, Nat.div_eq_of_lt (by omega)]
  · rw [show 2 ^ S * q + r - 1 = 2 ^ S * q + (r - 1) by omega, Nat.mul_add_div hp,
      Nat.div_eq_of_lt (by omega)]

/-- Up to `M0_VA_TNODE_NR` leaves hang from `va_tree`: the tree has depth 2. -/
lemma depthFind_of_le {total : ℕ} (h0 : 0 < total) (h : total ≤ M0_VA_TNODE_NR) (bps : ℕ) :
    depthFind bps total = some 2 := by
  unfold depthFind
  rw [if_neg h0.ne']
  simp only [depthFindLoop, M0_VA_TNODE_NR_SHIFT]
  simp only [M0_VA_TNODE_NR] at h
  simp [h]

/-! ### The levels of a tree of depth 2 -/

namespace Varr

variable {a : Varr}

/-- The slot of an index in its leaf: its object there, cut to a `uint32_t`. -/
lemma indexWithinLevel_depth (hS : a.bufShift - a.objShift < 64) (i : ℕ) :
    a.indexWithinLevel i a.depth = i % 2 ^ (a.bufShift - a.objShift) % 2 ^ 32 := by
  simp [indexWithinLevel, levelShift, lastNbitsSet, hS]

lemma levelShift_one (h2 : a.depth = 2) : a.levelShift 1 = a.bufShift - a.objShift := by
  simp [levelShift, h2]

lemma maxIdxWithinLevel_one (h2 : a.depth = 2) :
    a.maxIdxWithinLevel 1 = (a.nr - 1) / 2 ^ (a.bufShift - a.objShift) := by
  rw [maxIdxWithinLevel, levelShift_one h2, Nat.shiftRight_eq_div_pow]

/-- The slot of an index in `va_tree`: its leaf. -/
lemma indexWithinLevel_one (h2 : a.depth = 2) {i : ℕ}
    (hi : i / 2 ^ (a.bufShift - a.objShift) < M0_VA_TNODE_NR) :
    a.indexWithinLevel i 1 = i / 2 ^ (a.bufShift - a.objShift) := by
  have h64 : i / 2 ^ (a.bufShift - a.objShift) < 64 := hi
  have hmask : i / 2 ^ (a.bufShift - a.objShift) &&& 63 = i / 2 ^ (a.bufShift - a.objShift) :=
    Nat.and_two_pow_sub_one_of_lt_two_pow (show _ < 2 ^ 6 from h64)
  simp only [indexWithinLevel, levelShift_one h2, Nat.shiftRight_eq_div_pow, h2,
    lastNbitsSet, M0_VA_TNODE_NR_SHIFT]
  simp only [hmask, Nat.reduceEqDiff, if_false, if_true, Nat.reduceLT, Nat.reducePow, Nat.reduceSub]
  omega

end Varr

/-! ### `varr_buffers_alloc` at level 1 -/

/-- The cursor of `varr_buffers_alloc` at level 1, at slot `k` of `va_tree`. -/
def level1Cursor (tree k : ℕ) : VarrCursor :=
  ⟨1, k, [⟨0, 1, tree⟩, ⟨k, M0_VA_TNODE_NR, tree + M0_VA_TNODEPTR_SIZE * k⟩]⟩

@[simp] lemma m0VarrCursorGet_level1Cursor (tree k : ℕ) :
    m0VarrCursorGet (level1Cursor tree k) = tree + M0_VA_TNODEPTR_SIZE * k := rfl

lemma m0VarrCursorInit_one {a : Varr} (h : 1 ≤ a.depth) (mem : ℕ → ℕ) :
    m0VarrCursorInit a mem 1 = some (.ok (level1Cursor a.tree 0)) := by
  simp [m0VarrCursorInit, varrCursorDescend, Varr.childrenOfLevel, Varr.deref, level1Cursor, h,
    Except.map]

/-- Past the slot of the last index the cursor stops where it is. -/
lemma m0VarrCursorNext_level1_last {a : Varr} (mem : ℕ → ℕ) {k : ℕ}
    (hk : a.maxIdxWithinLevel 1 < k + 1) :
    m0VarrCursorNext a mem (level1Cursor a.tree k) = (level1Cursor a.tree k, false) := by
  unfold m0VarrCursorNext m0VarrCursorMove
  exact if_pos hk

/-- Up to it, one step takes the cursor to the next slot of `va_tree`, with no carry: the
slots of the indices are fewer than `M0_VA_TNODE_NR`. -/
lemma m0VarrCursorNext_level1 {a : Varr} (hd : a.depth ≠ 1) (mem : ℕ → ℕ) {k : ℕ}
    (hk : k + 1 ≤ a.maxIdxWithinLevel 1) (hM : a.maxIdxWithinLevel 1 < M0_VA_TNODE_NR) :
    m0VarrCursorNext a mem (level1Cursor a.tree k) = (level1Cursor a.tree (k + 1), true) := by
  have hk64 : k + 1 < 64 := lt_of_le_of_lt hk hM
  have hcarry : varrCarryUp a (level1Cursor a.tree k).path 1 (k + 1) 1 =
      ((level1Cursor a.tree k).path, 1, k + 1, 1) := by
    simp [varrCarryUp, level1Cursor, M0_VA_TNODE_NR]
    omega
  have hidx : ((level1Cursor a.tree k).path.getD 1 .none).idx = k := rfl
  unfold m0VarrCursorNext m0VarrCursorMove
  rw [show (level1Cursor a.tree k).depth = 1 from rfl, show (level1Cursor a.tree k).done = k from rfl,
    if_neg (not_lt.mpr hk), if_neg (by omega)]
  simp only [hidx, hcarry, Nat.sub_self, varrWalkDown]
  simp [level1Cursor, Varr.buffIncr, Ne.symm hd, M0_VA_TNODEPTR_SIZE]
  omega

lemma tnodeSlot_ne {tree j k : ℕ} (h : j ≠ k) :
    tree + M0_VA_TNODEPTR_SIZE * j ≠ tree + M0_VA_TNODEPTR_SIZE * k := by
  simp only [M0_VA_TNODEPTR_SIZE]
  omega

section AllocLevel1

variable {a : Varr} {alloc : ℕ → ℕ} (hd : a.depth ≠ 1)
  (hM : a.maxIdxWithinLevel 1 < M0_VA_TNODE_NR)
  (halloc : ∀ j ≤ a.maxIdxWithinLevel 1, alloc (1 + j) ≠ 0)
include hd hM halloc

/-- The loop of `varr_buffers_alloc` at level 1 from slot `k` of `va_tree`, `d` slots before the
slot of the last index: slot `j` gets the buffer of call `1 + j` of the allocator, and nothing
else in memory changes. -/
lemma varrAllocLevel_level1 (d : ℕ) :
    ∀ k (mem : ℕ → ℕ), k + d = a.maxIdxWithinLevel 1 →
    ∃ mem', varrAllocLevel a alloc mem (1 + k) (level1Cursor a.tree k) =
        .ok (mem', a.maxIdxWithinLevel 1 + 2) ∧
      (∀ j, k ≤ j → j ≤ a.maxIdxWithinLevel 1 →
        mem' (a.tree + M0_VA_TNODEPTR_SIZE * j) = alloc (1 + j)) ∧
      ∀ x, (∀ j, k ≤ j → j ≤ a.maxIdxWithinLevel 1 → x ≠ a.tree + M0_VA_TNODEPTR_SIZE * j) →
        mem' x = mem x := by
  induction d with
  | zero =>
    -- the slot of the last index: the cursor stops after it
    intro k mem hk
    refine ⟨Function.update mem (a.tree + M0_VA_TNODEPTR_SIZE * k) (alloc (1 + k)), ?_, ?_, ?_⟩
    · have hnext := m0VarrCursorNext_level1_last
        (Function.update mem (m0VarrCursorGet (level1Cursor a.tree k)) (alloc (1 + k)))
        (show a.maxIdxWithinLevel 1 < k + 1 by omega)
      rw [varrAllocLevel, if_neg (halloc k (by omega)), dif_neg (by rw [hnext]; exact Bool.false_ne_true),
        m0VarrCursorGet_level1Cursor, show 1 + k + 1 = a.maxIdxWithinLevel 1 + 2 by omega]
    · intro j hkj hjM
      obtain rfl : j = k := by omega
      exact Function.update_self _ _ _
    · intro x hx
      exact Function.update_of_ne (hx k le_rfl (by omega)) _ _
  | succ d ih =>
    intro k mem hk
    obtain ⟨mem', hrun, hslots, hframe⟩ :=
      ih (k + 1) (Function.update mem (a.tree + M0_VA_TNODEPTR_SIZE * k) (alloc (1 + k))) (by omega)
    refine ⟨mem', ?_, ?_, ?_⟩
    · have hnext := m0VarrCursorNext_level1 hd
        (Function.update mem (m0VarrCursorGet (level1Cursor a.tree k)) (alloc (1 + k)))
        (show k + 1 ≤ a.maxIdxWithinLevel 1 by omega) hM
      rw [varrAllocLevel, if_neg (halloc k (by omega)), dif_pos (by rw [hnext]), hnext,
        m0VarrCursorGet_level1Cursor, show 1 + k + 1 = 1 + (k + 1) by omega]
      exact hrun
    · intro j hkj hjM
      rcases Nat.eq_or_lt_of_le hkj with rfl | hlt
      · -- written at slot `j`, and kept by the rest of the loop
        rw [hframe _ (fun j' hj' _ => tnodeSlot_ne (by omega))]
        exact Function.update_self _ _ _
      · exact hslots j hlt hjM
    · intro x hx
      rw [hframe x (fun j hj hjM => hx j (by omega) hjM)]
      exact Function.update_of_ne (hx k le_rfl (by omega)) _ _

end AllocLevel1

/-! ### `m0_varr_init` and `m0_varr_ele_get` on a tree of depth 2 -/

/-- `varr_buffers_alloc` on a tree of depth 2: the leaf buffers, in the slots of `va_tree` up to
the one of the last index, from calls `1 ..` of the allocator. -/
lemma varrBuffersAlloc_depth_two {a : Varr} {alloc : ℕ → ℕ} (h2 : a.depth = 2)
    (hM : a.maxIdxWithinLevel 1 < M0_VA_TNODE_NR)
    (halloc : ∀ j ≤ a.maxIdxWithinLevel 1, alloc (1 + j) ≠ 0) (mem : ℕ → ℕ) :
    ∃ mem', varrBuffersAlloc a alloc (List.range' 1 (a.depth - 1)) mem 1 =
        some (.ok (mem', a.maxIdxWithinLevel 1 + 2)) ∧
      (∀ j ≤ a.maxIdxWithinLevel 1, mem' (a.tree + M0_VA_TNODEPTR_SIZE * j) = alloc (1 + j)) ∧
      ∀ x, (∀ j ≤ a.maxIdxWithinLevel 1, x ≠ a.tree + M0_VA_TNODEPTR_SIZE * j) →
        mem' x = mem x := by
  obtain ⟨mem', hrun, hslots, hframe⟩ :=
    varrAllocLevel_level1 (by omega) hM halloc (a.maxIdxWithinLevel 1) 0 mem (Nat.zero_add _)
  refine ⟨mem', ?_, fun j hj => hslots j (Nat.zero_le j) hj,
    fun x hx => hframe x fun j _ hj => hx j hj⟩
  rw [Nat.add_zero] at hrun
  rw [h2]
  simp [varrBuffersAlloc, m0VarrCursorInit_one (show 1 ≤ a.depth by omega), hrun]

/-- `m0_varr_init` on at most `M0_VA_TNODE_NR` leaves of objects, with a buffer of at least a
pointer and at most `2 ^ 63` bytes: it returns 0 with a tree of depth 2, whose slot `j` of
`va_tree` holds the buffer of call `1 + j` of the allocator. -/
theorem m0VarrInit_depth_two {nr size bufsize : ℕ} (tree : ℕ) {alloc : ℕ → ℕ} (mem : ℕ → ℕ)
    (hnr : 0 < nr) (hsize : 0 < size) (hle : size ≤ bufsize)
    (hptr : M0_VA_TNODEPTR_SIZE ≤ bufsize) (hbuf : bufsize ≤ 2 ^ 63)
    (hleaves : nr ≤ M0_VA_TNODE_NR * 2 ^ (nearestPowerOfTwo bufsize - nearestPowerOfTwo size))
    (halloc0 : alloc 0 ≠ 0)
    (halloc : ∀ j ≤ (nr - 1) / 2 ^ (nearestPowerOfTwo bufsize - nearestPowerOfTwo size),
      alloc (1 + j) ≠ 0) :
    ∃ mem', m0VarrInit nr size bufsize tree alloc mem =
        some (0, ⟨nr, nearestPowerOfTwo size, nearestPowerOfTwo bufsize,
          nearestPowerOfTwo bufsize - 3,
          (nr - 1) / 2 ^ (nearestPowerOfTwo bufsize - nearestPowerOfTwo size) + 1, 2, tree⟩,
          mem', ⟨0, 0, 0⟩) ∧
      (∀ j ≤ (nr - 1) / 2 ^ (nearestPowerOfTwo bufsize - nearestPowerOfTwo size),
        mem' (tree + M0_VA_TNODEPTR_SIZE * j) = alloc (1 + j)) ∧
      ∀ x, (∀ j ≤ (nr - 1) / 2 ^ (nearestPowerOfTwo bufsize - nearestPowerOfTwo size),
        x ≠ tree + M0_VA_TNODEPTR_SIZE * j) → mem' x = mem x := by
  have hbs3 : 3 ≤ nearestPowerOfTwo bufsize := by
    rw [← nearestPowerOfTwo_two_pow 3]
    exact nearestPowerOfTwo_mono hptr
  have hbs63 : nearestPowerOfTwo bufsize ≤ 63 := (nearestPowerOfTwo_le_iff _ _).mpr hbuf
  have hos : nearestPowerOfTwo size ≤ nearestPowerOfTwo bufsize := nearestPowerOfTwo_mono hle
  have hbps : (nearestPowerOfTwo bufsize + 256 - nearestPowerOfTwo M0_VA_TNODEPTR_SIZE) % 256 =
      nearestPowerOfTwo bufsize - 3 := by
    rw [show M0_VA_TNODEPTR_SIZE = 2 ^ 3 from rfl, nearestPowerOfTwo_two_pow]
    omega
  -- the slots of the indices in `va_tree` are those of `va_tree`
  have hleaf : (nr - 1) / 2 ^ (nearestPowerOfTwo bufsize - nearestPowerOfTwo size) <
      M0_VA_TNODE_NR := by
    apply Nat.div_lt_of_lt_mul
    rw [Nat.mul_comm]
    omega
  have hmax := Varr.maxIdxWithinLevel_one (a := ⟨nr, nearestPowerOfTwo size,
    nearestPowerOfTwo bufsize, nearestPowerOfTwo bufsize - 3,
    (nr - 1) / 2 ^ (nearestPowerOfTwo bufsize - nearestPowerOfTwo size) + 1, 2, tree⟩) rfl
  obtain ⟨mem', hrun, hslots, hframe⟩ :=
    varrBuffersAlloc_depth_two rfl (hmax ▸ hleaf) (hmax ▸ halloc) mem
  refine ⟨mem', ?_, hmax ▸ hslots, hmax ▸ hframe⟩
  unfold m0VarrInit
  rw [if_pos ⟨hnr, hsize, by omega, hle⟩]
  simp only [hbps]
  rw [if_neg (not_not.mpr ⟨by omega, by omega, by omega⟩), if_neg halloc0,
    totalLeafBuffers_eq hnr, depthFind_of_le (Nat.succ_pos _) hleaf]
  simp only [hrun]

/-- `m0_varr_ele_get` on a tree of depth 2 with an empty cache: object `i % 2 ^ S` of leaf
`i / 2 ^ S`, its place in the leaf cut to a `uint32_t`. -/
theorem m0VarrEleGet_depth_two {a : Varr} (h2 : a.depth = 2) (hS : a.bufShift - a.objShift < 64)
    {mem alloc : ℕ → ℕ} (hM : a.maxIdxWithinLevel 1 < M0_VA_TNODE_NR)
    (hslots : ∀ j ≤ a.maxIdxWithinLevel 1, mem (a.tree + M0_VA_TNODEPTR_SIZE * j) = alloc (1 + j))
    (halloc : ∀ j ≤ a.maxIdxWithinLevel 1, alloc (1 + j) ≠ 0)
    {c : VarrCache} (hc : c.buff = 0) {i : ℕ} (hi : i < a.nr) :
    m0VarrEleGet a mem c i =
      some (alloc (1 + i / 2 ^ (a.bufShift - a.objShift)) +
          i % 2 ^ (a.bufShift - a.objShift) % 2 ^ 32 * 2 ^ a.objShift,
        cacheUpdate a (alloc (1 + i / 2 ^ (a.bufShift - a.objShift))) i) := by
  have hleaf : i / 2 ^ (a.bufShift - a.objShift) ≤ a.maxIdxWithinLevel 1 := by
    rw [Varr.maxIdxWithinLevel_one h2]
    exact Nat.div_le_div_right (by omega)
  have hslot : a.buffIncr 1 a.tree (a.indexWithinLevel i 1) =
      a.tree + M0_VA_TNODEPTR_SIZE * (i / 2 ^ (a.bufShift - a.objShift)) := by
    have h64 := lt_of_le_of_lt hleaf hM
    rw [Varr.indexWithinLevel_one h2 h64, Varr.buffIncr, if_neg (by omega), Nat.mul_comm,
      Nat.mod_eq_of_lt (h64.trans (by norm_num [M0_VA_TNODE_NR]))]
  have hwalk : varrWalk a mem i a.tree (List.range' 1 (a.depth - 1)) =
      some (alloc (1 + i / 2 ^ (a.bufShift - a.objShift))) := by
    rw [h2]
    simp [varrWalk, hslot, hslots _ hleaf, halloc _ hleaf]
  have hfetch : cacheFetch c i = 0 := by simp [cacheFetch, hc]
  unfold m0VarrEleGet
  rw [if_pos hi, hfetch, if_neg (not_not.mpr rfl), hwalk]
  simp [Varr.buffIncr, Varr.indexWithinLevel_depth hS]

end Motr
