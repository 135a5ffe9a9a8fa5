import Motr.Vec.Ivec
import Motr.Pool.Machine

/-!
The virtual array of `lib/varr.c`: `nr` objects kept in leaf buffers under a radix tree of
pointer buffers, whose top level is the array `va_tree` of `M0_VA_TNODE_NR` pointers.

Memory holds pointers: `mem a` is the pointer at address `a` (0 for NULL), and buffers come from
an allocator, `alloc n` being the address `m0_varr_buf_alloc` returns at its `n`-th call (0 when
it fails). What `m0_varr_init` computes of the array is `Varr`; `varr_buffers_alloc` fills the
tree level after level with a cursor (`m0_varr_cursor_init`, `m0_varr_cursor_move`), and
`m0_varr_ele_get` walks it down from `va_tree`, through a one-buffer cache.

The indices a level takes from an object's index are cut to `uint32_t` where the source stores
them in one: the result of `index_within_level`, the increment of `buff_incr` and `vp_idx`.
The assertions of `safe_bitshift` on the shift amounts are not modelled, except the one of
`children_of_level` on a leaf of `2^32` objects or more.
-/

namespace Motr

/-- `M0_VA_TNODE_NR`: the pointers of `va_tree`. -/
def M0_VA_TNODE_NR : ℕ := 64

/-- `M0_VA_TNODEPTR_SIZE`: the size of a pointer. -/
def M0_VA_TNODEPTR_SIZE : ℕ := 8

/-- `M0_VA_TNODE_NR_SHIFT`: `M0_VA_TNODE_NR` is `2 ^ M0_VA_TNODE_NR_SHIFT`. -/
def M0_VA_TNODE_NR_SHIFT : ℕ := 6

/-! ### The shape `m0_varr_init` computes -/

/-- The loop of `nearest_power_of_two` at `aligned_num = 2 ^ shift`. -/
def nearestPowerOfTwoLoop (num shift : ℕ) : ℕ :=
  if num > 2 ^ shift then nearestPowerOfTwoLoop num (shift + 1) else shift
termination_by num - 2 ^ shift
decreasing_by
  have := Nat.pow_lt_pow_right (show 1 < 2 by norm_num) (Nat.lt_succ_self shift)
  omega

/-- `nearest_power_of_two(num)`: the least `shift` with `num ≤ 2 ^ shift`. -/
def nearestPowerOfTwo (num : ℕ) : ℕ := nearestPowerOfTwoLoop num 0

/-- `total_leaf_buffers(nr, obj_nr_in_1_cont, obj_nr_shift)`: the leaf buffers `nr` objects
need. -/
def totalLeafBuffers (nr objNrIn1Cont objNrShift : ℕ) : ℕ :=
  (nr >>> objNrShift) + if nr &&& (objNrIn1Cont - 1) = 0 then 0 else 1

/-- The loop of `depth_find` from `level`, with `fuel` rounds: one more than the first level
whose subtrees hold `total_leaves` leaves. `none` where the shift reaches 64, which
`safe_bitshift` asserts, or, with `va_bufptr_nr_shift = 0` and more than `M0_VA_TNODE_NR`
leaves, where the loop never ends: the fuel runs out only then, the shift growing by
`va_bufptr_nr_shift` each round. -/
def depthFindLoop (bufptrNrShift totalLeaves : ℕ) : ℕ → ℕ → Option ℕ
  | 0, _ => none
  | fuel + 1, level =>
    if 64 ≤ bufptrNrShift * (level - 1) + M0_VA_TNODE_NR_SHIFT then none
    else if totalLeaves ≤ 2 ^ (bufptrNrShift * (level - 1) + M0_VA_TNODE_NR_SHIFT) then
      some (level + 1)
    else depthFindLoop bufptrNrShift totalLeaves fuel (level + 1)

/-- `depth_find(total_leaves)`; `none` for its precondition `total_leaves > 0`. -/
def depthFind (bufptrNrShift totalLeaves : ℕ) : Option ℕ :=
  if totalLeaves = 0 then none else depthFindLoop bufptrNrShift totalLeaves 64 1

/-- What `m0_varr_init` sets of `struct m0_varr`: `va_nr`, `va_obj_shift`, `va_buf_shift`,
`va_bufptr_nr_shift`, `va_buff_nr`, `va_depth`, and the address of `va_tree`. -/
structure Varr where
  nr : ℕ
  objShift : ℕ
  bufShift : ℕ
  bufptrNrShift : ℕ
  buffNr : ℕ
  depth : ℕ
  tree : ℕ

/-- `struct varr_cache`: a leaf buffer (`vc_buff`, 0 for NULL) and the first and last indices
it is taken to hold. -/
structure VarrCache where
  buff : ℕ
  firstIndex : ℕ
  lastIndex : ℕ

namespace Varr

variable (a : Varr)

/-- `varr_obj_nr_in_buff`: the objects of a leaf buffer. -/
def objNrInBuff : ℕ := 2 ^ (a.bufShift - a.objShift)

/-- `log_radix(level)`: the bits of an index that pick a slot of a node at `level`. -/
def logRadix (level : ℕ) : ℕ :=
  if level ≤ 1 then (if level = 1 then M0_VA_TNODE_NR_SHIFT else 0)
  else if level = a.depth then a.bufShift - a.objShift else a.bufptrNrShift

/-- `children_of_level(level)`, a `uint32_t`: the slots of a node at `level`; `none` at a leaf
of `2 ^ 32` objects or more, where `safe_bitshift` on a `uint32_t` asserts. -/
def childrenOfLevel (level : ℕ) : Option ℕ :=
  if level ≤ 1 then some (if level = 1 then M0_VA_TNODE_NR else 1)
  else if level = a.depth then
    (if a.bufShift - a.objShift < 32 then some (2 ^ (a.bufShift - a.objShift)) else none)
  else some (2 ^ a.bufptrNrShift % 2 ^ 32)

/-- The bits of an index below those that pick its slot at `depth`: the `shift` of
`max_idx_within_level` and of `index_within_level`. -/
def levelShift (depth : ℕ) : ℕ :=
  if depth = a.depth then 0
  else a.bufShift - a.objShift + (a.depth - depth - 1) * a.bufptrNrShift

/-- `max_idx_within_level(depth)`: the last slot at `depth` that an index below `va_nr` takes. -/
def maxIdxWithinLevel (depth : ℕ) : ℕ := (a.nr - 1) >>> a.levelShift depth

/-- `last_nbits_set(n)`. -/
def lastNbitsSet (n : ℕ) : ℕ := if n < 64 then 2 ^ n - 1 else 2 ^ 64 - 1

/-- `index_within_level(target_idx, depth)`: the slot of `target_idx` in its node at `depth`,
returned as a `uint32_t`. -/
def indexWithinLevel (targetIdx depth : ℕ) : ℕ :=
  ((targetIdx >>> a.levelShift depth) &&& lastNbitsSet
    (if depth = a.depth then a.bufShift - a.objShift
      else if depth = 1 then M0_VA_TNODE_NR_SHIFT else a.bufptrNrShift)) % 2 ^ 32

/-- `buff_incr(depth, buff, inc)`, `inc` a `uint32_t`: `inc` objects on at the leaf level,
`inc` pointers on above it. -/
def buffIncr (depth buff inc : ℕ) : ℕ :=
  buff + inc % 2 ^ 32 * (if depth = a.depth then 2 ^ a.objShift else M0_VA_TNODEPTR_SIZE)

/-- `*(void **)buf` for the buffer of a path element at `level`: the one of level 0 is `&root`,
a local of `m0_varr_cursor_init` that holds `va_tree`. -/
def deref (mem : ℕ → ℕ) (level buf : ℕ) : ℕ := if level = 0 then a.tree else mem buf

end Varr

/-! ### `m0_varr_ele_get` -/

/-- The loop of `m0_varr_ele_get` over the levels `1 .. va_depth - 1`: the pointer in the slot
of `index` at each level is the buffer of the next; `none` for a NULL one, which it asserts. -/
def varrWalk (a : Varr) (mem : ℕ → ℕ) (index : ℕ) : ℕ → List ℕ → Option ℕ
  | holder, [] => some holder
  | holder, level :: levels =>
    if mem (a.buffIncr level holder (a.indexWithinLevel index level)) = 0 then none
    else varrWalk a mem index (mem (a.buffIncr level holder (a.indexWithinLevel index level)))
      levels

/-- `cache_fetch(index)`: the cached leaf buffer if it is taken to hold `index`, else NULL. -/
def cacheFetch (c : VarrCache) (index : ℕ) : ℕ :=
  if c.buff ≠ 0 ∧ c.firstIndex ≤ index ∧ index ≤ c.lastIndex then c.buff else 0

/-- `cache_update(holder, index)`: the leaf buffer `holder` of `index`, with the indices from the
first of its buffer to the last of its buffer or of the array. -/
def cacheUpdate (a : Varr) (holder index : ℕ) : VarrCache :=
  ⟨holder, index - a.indexWithinLevel index a.depth,
    min (index - a.indexWithinLevel index a.depth + a.objNrInBuff - 1) (a.nr - 1)⟩

/-- `m0_varr_ele_get(index)`: the address of the object, and the cache after; `none` for its
precondition `index < va_nr` or its assertion. -/
def m0VarrEleGet (a : Varr) (mem : ℕ → ℕ) (cache : VarrCache) (index : ℕ) :
    Option (ℕ × VarrCache) :=
  if index < a.nr then
    if cacheFetch cache index ≠ 0 then
      some (a.buffIncr a.depth (cacheFetch cache index) (a.indexWithinLevel index a.depth), cache)
    else
      (varrWalk a mem index a.tree (List.range' 1 (a.depth - 1))).map fun holder =>
        (a.buffIncr a.depth holder (a.indexWithinLevel index a.depth), cacheUpdate a holder index)
  else none

/-! ### The cursor -/

/-- `struct m0_varr_path_element`: the slot a path is at in a node (`vp_idx`), the node's slots
(`vp_width`) and the slot's address (`vp_buf`). -/
structure VarrPathElement where
  idx : ℕ
  width : ℕ
  buf : ℕ

/-- `struct m0_varr_cursor`: its level (`vc_depth`), the slots of that level before it
(`vc_done`) and its path from the root (`vc_path[0 .. vc_depth]`). -/
structure VarrCursor where
  depth : ℕ
  done : ℕ
  path : List VarrPathElement

/-- A path element of nothing, for reads past the path. -/
def VarrPathElement.none : VarrPathElement := ⟨0, 0, 0⟩

/-- The loop of `m0_varr_cursor_init` below level `d`, `k` levels deep, from the slot at `buf`:
follow its pointer to slot 0 of the node below; `-EINVAL` where the slot's address is NULL. The
slot of level 0 is `&root`, never NULL. -/
def varrCursorDescend (a : Varr) (mem : ℕ → ℕ) :
    ℕ → ℕ → ℕ → Option (Except ℤ (List VarrPathElement))
  | 0, _, _ => some (.ok [])
  | k + 1, d, buf =>
    if d ≠ 0 ∧ buf = 0 then some (.error (-EINVAL))
    else
      match a.childrenOfLevel (d + 1) with
      | none => none
      | some w =>
        (varrCursorDescend a mem k (d + 1) (a.deref mem d buf)).map
          (·.map (⟨0, w, a.deref mem d buf⟩ :: ·))

/-- `m0_varr_cursor_init(arr, depth)`: the cursor at slot 0 of level `depth`; `none` for its
precondition `depth <= va_depth`. -/
def m0VarrCursorInit (a : Varr) (mem : ℕ → ℕ) (depth : ℕ) : Option (Except ℤ VarrCursor) :=
  if depth ≤ a.depth then
    (varrCursorDescend a mem depth 0 a.tree).map
      (·.map fun rest => ⟨depth, 0, ⟨0, 1, a.tree⟩ :: rest⟩)
  else none

/-- `m0_varr_cursor_get`: the address of the cursor's slot. -/
def m0VarrCursorGet (cur : VarrCursor) : ℕ := (cur.path.getD cur.depth .none).buf

/-- The carry loop of `m0_varr_cursor_move` at level `d` with the slot `idx` reached there:
while it is past the node's last, keep its rest there and carry the rest up. It returns the
path, the level where the carry stops, the slot reached there and the carry into it. -/
def varrCarryUp (a : Varr) :
    List VarrPathElement → ℕ → ℕ → ℕ → List VarrPathElement × ℕ × ℕ × ℕ
  | path, 0, idx, inc => (path, 0, idx, inc)
  | path, d + 1, idx, inc =>
    if (path.getD (d + 1) .none).width ≤ idx then
      varrCarryUp a
        (path.set (d + 1) { path.getD (d + 1) .none with
          idx := (idx &&& ((path.getD (d + 1) .none).width - 1)) % 2 ^ 32 })
        d ((path.getD d .none).idx + (idx >>> a.logRadix (d + 1))) (idx >>> a.logRadix (d + 1))
    else (path, d + 1, idx, inc)

/-- The descent of `m0_varr_cursor_move` from level `d`, `k` levels: each slot below is the one
its index picks in the node the slot above points to. -/
def varrWalkDown (a : Varr) (mem : ℕ → ℕ) :
    ℕ → ℕ → List VarrPathElement → List VarrPathElement
  | 0, _, path => path
  | k + 1, d, path =>
    varrWalkDown a mem k (d + 1)
      (path.set (d + 1) { path.getD (d + 1) .none with
        buf := a.buffIncr (d + 1) (a.deref mem d (path.getD d .none).buf)
          (path.getD (d + 1) .none).idx })

/-- `m0_varr_cursor_move(cursor, inc)`: the cursor `inc` slots on, and `false` (0) when that
is past the last slot of its level, where it stays. -/
def m0VarrCursorMove (a : Varr) (mem : ℕ → ℕ) (cur : VarrCursor) (inc : ℕ) :
    VarrCursor × Bool :=
  if a.maxIdxWithinLevel cur.depth < cur.done + inc then (cur, false)
  else if cur.done + inc = cur.done then (cur, true)
  else
    let r := varrCarryUp a cur.path cur.depth ((cur.path.getD cur.depth .none).idx + inc) inc
    (⟨cur.depth, cur.done + inc, varrWalkDown a mem (cur.depth - r.2.1) r.2.1
      (r.1.set r.2.1 { r.1.getD r.2.1 .none with
        buf := a.buffIncr r.2.1 (r.1.getD r.2.1 .none).buf r.2.2.2,
        idx := r.2.2.1 % 2 ^ 32 })⟩, true)

/-- `m0_varr_cursor_next`. -/
def m0VarrCursorNext (a : Varr) (mem : ℕ → ℕ) (cur : VarrCursor) : VarrCursor × Bool :=
  m0VarrCursorMove a mem cur 1

lemma m0VarrCursorNext_done {a : Varr} {mem : ℕ → ℕ} {cur : VarrCursor}
    (h : (m0VarrCursorNext a mem cur).2 = true) :
    (m0VarrCursorNext a mem cur).1.done = cur.done + 1 ∧
      (m0VarrCursorNext a mem cur).1.depth = cur.depth ∧
      cur.done + 1 ≤ a.maxIdxWithinLevel cur.depth := by
  unfold m0VarrCursorNext m0VarrCursorMove at *
  -- the branch past the last slot returns `false`, and `split_ifs` drops it
  split_ifs at h ⊢ with hmax hsame
  · omega
  · exact ⟨rfl, rfl, by omega⟩

/-! ### `varr_buffers_alloc` and `m0_varr_init` -/

/-- The `do ... while (m0_varr_cursor_next(&cursor))` loop of `varr_buffers_alloc` at one level:
a buffer from the allocator for each slot the cursor visits, its address written in the slot.
`n` counts the calls to the allocator; `-ENOMEM` when one fails. -/
def varrAllocLevel (a : Varr) (alloc : ℕ → ℕ) (mem : ℕ → ℕ) (n : ℕ) (cur : VarrCursor) :
    Except ℤ ((ℕ → ℕ) × ℕ) :=
  if alloc n = 0 then .error (-ENOMEM)
  else if h : (m0VarrCursorNext a (Function.update mem (m0VarrCursorGet cur) (alloc n)) cur).2
    then
      varrAllocLevel a alloc (Function.update mem (m0VarrCursorGet cur) (alloc n)) (n + 1)
        (m0VarrCursorNext a (Function.update mem (m0VarrCursorGet cur) (alloc n)) cur).1
    else .ok (Function.update mem (m0VarrCursorGet cur) (alloc n), n + 1)
termination_by a.maxIdxWithinLevel cur.depth + 1 - cur.done
decreasing_by
  obtain ⟨hdone, hdepth, hle⟩ := m0VarrCursorNext_done h
  rw [hdone, hdepth]
  omega

/-- `varr_buffers_alloc`: the levels `1 .. va_depth - 1` one after the other. -/
def varrBuffersAlloc (a : Varr) (alloc : ℕ → ℕ) :
    List ℕ → (ℕ → ℕ) → ℕ → Option (Except ℤ ((ℕ → ℕ) × ℕ))
  | [], mem, n => some (.ok (mem, n))
  | i :: levels, mem, n =>
    match m0VarrCursorInit a mem i with
    | none => none
    | some (.error rc) => some (.error rc)
    | some (.ok cur) =>
      match varrAllocLevel a alloc mem n cur with
      | .error rc => some (.error rc)
      | .ok (mem', n') => varrBuffersAlloc a alloc levels mem' n'

/-- `m0_varr_init(arr, nr, size, bufsize)` for the array whose `va_tree` is at `tree`, in the
memory `mem`, with the allocator `alloc` (whose call 0 is `M0_ALLOC_PTR(arr->va_cache)`): the
return code, the array, the memory after and the cache; `none` for a failed precondition or
assertion, or a `depth_find` that never returns. On a failure the memory given back is the one
before: `m0_varr_fini` frees what was allocated, which the model does not follow. -/
def m0VarrInit (nr size bufsize tree : ℕ) (alloc : ℕ → ℕ) (mem : ℕ → ℕ) :
    Option (ℤ × Varr × (ℕ → ℕ) × VarrCache) :=
  if 0 < nr ∧ 0 < size ∧ 0 < bufsize ∧ size ≤ bufsize then
    let objShift := nearestPowerOfTwo size
    let bufShift := nearestPowerOfTwo bufsize
    -- `va_bufptr_nr_shift` is a `uint8_t`
    let bufptrNrShift := (bufShift + 256 - nearestPowerOfTwo M0_VA_TNODEPTR_SIZE) % 256
    -- `safe_bitshift` on the 64-bit `va_obj_size`, `va_bufsize` and `va_bufptr_nr`
    if ¬(objShift < 64 ∧ bufShift < 64 ∧ bufptrNrShift < 64) then none
    else if alloc 0 = 0 then some (-ENOMEM, ⟨nr, objShift, bufShift, bufptrNrShift, 0, 0, tree⟩,
      mem, ⟨0, 0, 0⟩)
    else
      let buffNr := totalLeafBuffers nr (2 ^ (bufShift - objShift)) (bufShift - objShift)
      match depthFind bufptrNrShift buffNr with
      | none => none
      | some depth =>
        match varrBuffersAlloc ⟨nr, objShift, bufShift, bufptrNrShift, buffNr, depth, tree⟩ alloc
            (List.range' 1 (depth - 1)) mem 1 with
        | none => none
        | some (.error rc) =>
          some (rc, ⟨nr, objShift, bufShift, bufptrNrShift, buffNr, depth, tree⟩, mem, ⟨0, 0, 0⟩)
        | some (.ok (mem', _)) =>
          some (0, ⟨nr, objShift, bufShift, bufptrNrShift, buffNr, depth, tree⟩, mem', ⟨0, 0, 0⟩)
  else none

end Motr
