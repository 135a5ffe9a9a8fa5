import Motr.Varr.Init
import Motr.Lib.Mem

/-!
`m0_varr_ele_get` over a run of calls, and the slots it gives.

`varr_cache` keeps the leaf buffer of the last index walked to, and the indices taken to share
it: from the first object of that leaf (`index - index_within_level(index, va_depth)`) on, as
many as a leaf holds. With leaves of at most `2 ^ 32` objects those are indices of that very
leaf, so whatever was fetched before, a call returns the address the walk from `va_tree` gives
(`m0VarrEleGet_cache_irrelevant`, for a tree of any depth over any memory).

On the tree of depth 2 that `m0_varr_init` builds for up to `M0_VA_TNODE_NR` leaves, with such
leaves and buffers from the allocator that share no byte, the slot of each index lies in its
leaf and the slots of distinct indices share no byte (`m0VarrInit_depth_two_slots`).
-/

namespace Motr

/-- The caches a run of `m0_varr_ele_get` calls leaves, from the empty one of `m0_varr_init`. -/
inductive VarrCacheReachable (a : Varr) (mem : ℕ → ℕ) : VarrCache → Prop
  | init : VarrCacheReachable a mem ⟨0, 0, 0⟩
  | get {c c' : VarrCache} {i p : ℕ} (h : VarrCacheReachable a mem c)
      (hget : m0VarrEleGet a mem c i = some (p, c')) : VarrCacheReachable a mem c'

/-- A cache holds when its buffer, if it has one, is where the walk from `va_tree` ends for
every index it is taken to hold. -/
def VarrCacheHolds (a : Varr) (mem : ℕ → ℕ) (c : VarrCache) : Prop :=
  c.buff ≠ 0 → ∀ j, c.firstIndex ≤ j → j ≤ c.lastIndex →
    varrWalk a mem j a.tree (List.range' 1 (a.depth - 1)) = some c.buff

/-! ### The walk reads only the leaf of an index -/

namespace Varr

variable {a : Varr}

/-- Above the leaves, the slot of an index is read from the bits that pick its leaf. -/
lemma indexWithinLevel_eq_of_div_eq {d i j : ℕ} (hd : d ≠ a.depth)
    (h : i / 2 ^ (a.bufShift - a.objShift) = j / 2 ^ (a.bufShift - a.objShift)) :
    a.indexWithinLevel i d = a.indexWithinLevel j d := by
  unfold indexWithinLevel levelShift
  rw [if_neg hd, Nat.shiftRight_add, Nat.shiftRight_add, Nat.shiftRight_eq_div_pow i,
    Nat.shiftRight_eq_div_pow j, h]

end Varr

lemma varrWalk_congr {a : Varr} {mem : ℕ → ℕ} {i j : ℕ} :
    ∀ (levels : List ℕ) (holder : ℕ), (∀ d ∈ levels, a.indexWithinLevel i d = a.indexWithinLevel j d) →
      varrWalk a mem i holder levels = varrWalk a mem j holder levels
  | [], _, _ => rfl
  | d :: levels, holder, h => by
    simp only [varrWalk, h d List.mem_cons_self]
    split_ifs
    · rfl
    · exact varrWalk_congr levels _ fun d' hd' => h d' (List.mem_cons_of_mem d hd')

/-- Two indices of one leaf walk to the same buffer. -/
lemma varrWalk_eq_of_div_eq {a : Varr} (mem : ℕ → ℕ) {i j : ℕ}
    (h : i / 2 ^ (a.bufShift - a.objShift) = j / 2 ^ (a.bufShift - a.objShift)) :
    varrWalk a mem i a.tree (List.range' 1 (a.depth - 1)) =
      varrWalk a mem j a.tree (List.range' 1 (a.depth - 1)) := by
  refine varrWalk_congr _ _ fun d hd => Varr.indexWithinLevel_eq_of_div_eq ?_ h
  rw [List.mem_range'_1] at hd
  omega

/-! ### One call, and a run of calls -/

section Cache

variable {a : Varr} {mem : ℕ → ℕ} (hS : a.bufShift - a.objShift ≤ 32)
include hS

/-- The indices `cache_update` takes a walked-to leaf to hold are those of its leaf. -/
lemma varrCacheHolds_cacheUpdate {i holder : ℕ}
    (hwalk : varrWalk a mem i a.tree (List.range' 1 (a.depth - 1)) = some holder) :
    VarrCacheHolds a mem (cacheUpdate a holder i) := by
  intro _ j hfirst hlast
  have hp : 0 < 2 ^ (a.bufShift - a.objShift) := Nat.two_pow_pos _
  have hmod : i % 2 ^ (a.bufShift - a.objShift) < 2 ^ 32 :=
    lt_of_lt_of_le (Nat.mod_lt _ hp) (Nat.pow_le_pow_right (by norm_num) hS)
  -- the cached indices run from the first object of the leaf of `i`, for at most a leaf
  have hiwl : a.indexWithinLevel i a.depth = i % 2 ^ (a.bufShift - a.objShift) := by
    rw [Varr.indexWithinLevel_depth (show a.bufShift - a.objShift < 64 by omega),
      Nat.mod_eq_of_lt hmod]
  have hdm := Nat.div_add_mod i (2 ^ (a.bufShift - a.objShift))
  simp only [cacheUpdate, hiwl, Varr.objNrInBuff] at hfirst hlast
  have hj : j / 2 ^ (a.bufShift - a.objShift) = i / 2 ^ (a.bufShift - a.objShift) := by
    apply Nat.div_eq_of_lt_le
    · rw [Nat.mul_comm]
      omega
    · rw [Nat.add_mul, Nat.one_mul, Nat.mul_comm]
      omega
  rw [varrWalk_eq_of_div_eq mem hj, hwalk]
  rfl

/-- A call keeps the cache holding. -/
lemma VarrCacheHolds.get {c c' : VarrCache} {i p : ℕ} (h : VarrCacheHolds a mem c)
    (hget : m0VarrEleGet a mem c i = some (p, c')) : VarrCacheHolds a mem c' := by
  unfold m0VarrEleGet at hget
  split_ifs at hget with hi hfetch
  · -- served from the cache, which stays
    obtain ⟨-, rfl⟩ := Prod.mk.inj (Option.some.inj hget)
    exact h
  · obtain ⟨holder, hwalk, hpc⟩ := Option.map_eq_some_iff.mp hget
    obtain ⟨-, rfl⟩ := Prod.mk.inj hpc
    exact varrCacheHolds_cacheUpdate hS hwalk

/-- Every cache a run of calls leaves holds. -/
lemma VarrCacheReachable.holds {c : VarrCache} (h : VarrCacheReachable a mem c) :
    VarrCacheHolds a mem c := by
  induction h with
  | init => exact fun h0 => absurd rfl h0
  | get _ hget ih => exact ih.get hS hget

omit hS in
/-- Under a cache that holds, a call returns what it returns with no cache. -/
lemma m0VarrEleGet_of_holds {c : VarrCache} (h : VarrCacheHolds a mem c) (i : ℕ) :
    (m0VarrEleGet a mem c i).map Prod.fst = (m0VarrEleGet a mem ⟨0, 0, 0⟩ i).map Prod.fst := by
  have hempty : cacheFetch ⟨0, 0, 0⟩ i = 0 := by simp [cacheFetch]
  unfold m0VarrEleGet
  rw [hempty, if_neg (not_not.mpr rfl)]
  split_ifs with hi hfetch
  · -- the cached leaf is the one the walk reaches
    obtain ⟨hbuff, hfirst, hlast⟩ : c.buff ≠ 0 ∧ c.firstIndex ≤ i ∧ i ≤ c.lastIndex := by
      by_contra hn
      exact hfetch (by simp [cacheFetch, hn])
    have hc : cacheFetch c i = c.buff := by simp [cacheFetch, hbuff, hfirst, hlast]
    rw [hc, h hbuff i hfirst hlast]
    rfl
  · simp only [Option.map_map]
  · rfl

/-- With leaves of at most `2 ^ 32` objects, `m0_varr_ele_get` does not depend on the indices
fetched before: after any run of calls it returns what it returns on the empty cache. -/
theorem m0VarrEleGet_cache_irrelevant {c : VarrCache} (hc : VarrCacheReachable a mem c)
    (i : ℕ) :
    (m0VarrEleGet a mem c i).map Prod.fst = (m0VarrEleGet a mem ⟨0, 0, 0⟩ i).map Prod.fst :=
  m0VarrEleGet_of_holds (hc.holds hS) i

end Cache

/-! ### The slots of a tree of depth 2 -/

/-- Object `r` of a leaf of `2 ^ S` objects of `2 ^ e` bytes ends within the leaf. -/
lemma slot_end_le {r S : ℕ} (hr : r < 2 ^ S) (e : ℕ) : r * 2 ^ e + 2 ^ e ≤ 2 ^ (S + e) := by
  calc r * 2 ^ e + 2 ^ e = (r + 1) * 2 ^ e := by ring
    _ ≤ 2 ^ S * 2 ^ e := Nat.mul_le_mul_right _ hr
    _ = 2 ^ (S + e) := (Nat.pow_add 2 S e).symm

/-- Distinct objects of one leaf share no byte. -/
lemma slot_disjoint {x y : ℕ} (h : x ≠ y) (base e : ℕ) :
    RangesDisjoint (base + x * 2 ^ e) (2 ^ e) (base + y * 2 ^ e) (2 ^ e) := by
  rcases Nat.lt_or_gt_of_ne h with hxy | hxy
  · have := Nat.mul_le_mul_right (2 ^ e) (Nat.succ_le_of_lt hxy)
    left
    rw [Nat.succ_mul] at this
    omega
  · have := Nat.mul_le_mul_right (2 ^ e) (Nat.succ_le_of_lt hxy)
    right; left
    rw [Nat.succ_mul] at this
    omega

/-- After `m0_varr_init` returns 0 on up to `M0_VA_TNODE_NR` leaves of at most `2 ^ 32` objects,
with buffers from the allocator that share no byte: after any run of calls, the slot of an index
lies inside the leaf buffer allocated for it, and the slots of distinct indices share no byte. -/
theorem m0VarrInit_depth_two_slots {nr size bufsize : ℕ} (tree : ℕ) {alloc : ℕ → ℕ}
    (mem : ℕ → ℕ) (hnr : 0 < nr) (hsize : 0 < size) (hle : size ≤ bufsize)
    (hptr : M0_VA_TNODEPTR_SIZE ≤ bufsize) (hbuf : bufsize ≤ 2 ^ 63)
    (hleaves : nr ≤ M0_VA_TNODE_NR * 2 ^ (nearestPowerOfTwo bufsize - nearestPowerOfTwo size))
    (hS : nearestPowerOfTwo bufsize - nearestPowerOfTwo size ≤ 32)
    (halloc : ∀ n, alloc n ≠ 0)
    (hbufs : ∀ m n, m ≠ n → RangesDisjoint (alloc m) (2 ^ nearestPowerOfTwo bufsize)
      (alloc n) (2 ^ nearestPowerOfTwo bufsize)) :
    ∃ arr mem' cache, m0VarrInit nr size bufsize tree alloc mem = some (0, arr, mem', cache) ∧
      ∀ c, VarrCacheReachable arr mem' c → ∀ i < nr, ∃ p,
        (m0VarrEleGet arr mem' c i).map Prod.fst = some p ∧
        alloc (1 + i / 2 ^ (nearestPowerOfTwo bufsize - nearestPowerOfTwo size)) ≤ p ∧
        p + 2 ^ nearestPowerOfTwo size ≤
          alloc (1 + i / 2 ^ (nearestPowerOfTwo bufsize - nearestPowerOfTwo size)) +
            2 ^ nearestPowerOfTwo bufsize ∧
        ∀ c', VarrCacheReachable arr mem' c' → ∀ j < nr, j ≠ i → ∃ q,
          (m0VarrEleGet arr mem' c' j).map Prod.fst = some q ∧
          RangesDisjoint p (2 ^ nearestPowerOfTwo size) q (2 ^ nearestPowerOfTwo size) := by
  obtain ⟨mem', hinit, hslots, -⟩ := m0VarrInit_depth_two tree mem hnr hsize hle hptr hbuf
    hleaves (halloc 0) (fun j _ => halloc (1 + j))
  have hos : nearestPowerOfTwo size ≤ nearestPowerOfTwo bufsize := nearestPowerOfTwo_mono hle
  set S := nearestPowerOfTwo bufsize - nearestPowerOfTwo size with hSdef
  set arr : Varr := ⟨nr, nearestPowerOfTwo size, nearestPowerOfTwo bufsize,
    nearestPowerOfTwo bufsize - 3, (nr - 1) / 2 ^ S + 1, 2, tree⟩
  have hmax : arr.maxIdxWithinLevel 1 = (nr - 1) / 2 ^ S := Varr.maxIdxWithinLevel_one rfl
  have hM : arr.maxIdxWithinLevel 1 < M0_VA_TNODE_NR := by
    rw [hmax]
    apply Nat.div_lt_of_lt_mul
    rw [Nat.mul_comm]
    omega
  -- every call, whatever came before, gives object `i % 2 ^ S` of leaf `i / 2 ^ S`
  have hget : ∀ c, VarrCacheReachable arr mem' c → ∀ i < nr,
      (m0VarrEleGet arr mem' c i).map Prod.fst =
        some (alloc (1 + i / 2 ^ S) + i % 2 ^ S * 2 ^ nearestPowerOfTwo size) := by
    intro c hc i hi
    have hmod : i % 2 ^ S < 2 ^ 32 :=
      lt_of_lt_of_le (Nat.mod_lt _ (Nat.two_pow_pos S)) (Nat.pow_le_pow_right (by norm_num) hS)
    rw [m0VarrEleGet_cache_irrelevant hS hc i,
      m0VarrEleGet_depth_two rfl (show S < 64 by omega) hM (hmax ▸ hslots)
        (fun j _ => halloc (1 + j)) rfl hi]
    rw [Option.map_some, show arr.bufShift - arr.objShift = S from rfl, Nat.mod_eq_of_lt hmod]
  refine ⟨arr, mem', _, hinit, fun c hc i hi => ⟨_, hget c hc i hi, Nat.le_add_right _ _, ?_,
    fun c' hc' j hj hji => ⟨_, hget c' hc' j hj, ?_⟩⟩⟩
  · have := slot_end_le (Nat.mod_lt i (Nat.two_pow_pos S)) (nearestPowerOfTwo size)
    rw [show S + nearestPowerOfTwo size = nearestPowerOfTwo bufsize by omega] at this
    omega
  · by_cases hleaf : i / 2 ^ S = j / 2 ^ S
    · -- one leaf: distinct objects of it
      have hobj : i % 2 ^ S ≠ j % 2 ^ S := fun h =>
        hji (by rw [← Nat.div_add_mod i (2 ^ S), ← Nat.div_add_mod j (2 ^ S), hleaf, h])
      rw [← hleaf]
      exact slot_disjoint hobj _ _
    · -- two leaves: inside two buffers that share no byte
      have hi' := slot_end_le (Nat.mod_lt i (Nat.two_pow_pos S)) (nearestPowerOfTwo size)
      have hj' := slot_end_le (Nat.mod_lt j (Nat.two_pow_pos S)) (nearestPowerOfTwo size)
      rw [show S + nearestPowerOfTwo size = nearestPowerOfTwo bufsize by omega] at hi' hj'
      exact (hbufs _ _ (by omega)).mono (Nat.le_add_right _ _) (by omega)
        (Nat.le_add_right _ _) (by omega)

/-- The theorem at three objects of `8` bytes in leaves of `16`, two to a leaf, from an allocator
that hands out the pages one after another. -/
theorem m0VarrInit_depth_two_slots_three :
    ∃ arr mem' cache, m0VarrInit 3 8 16 8 (fun n => 4096 * (n + 1)) (fun _ => 0) =
        some (0, arr, mem', cache) ∧
      ∀ c, VarrCacheReachable arr mem' c → ∀ i < 3, ∃ p,
        (m0VarrEleGet arr mem' c i).map Prod.fst = some p ∧
        4096 * (1 + i / 2 ^ (nearestPowerOfTwo 16 - nearestPowerOfTwo 8) + 1) ≤ p ∧
        p + 2 ^ nearestPowerOfTwo 8 ≤
          4096 * (1 + i / 2 ^ (nearestPowerOfTwo 16 - nearestPowerOfTwo 8) + 1) +
            2 ^ nearestPowerOfTwo 16 ∧
        ∀ c', VarrCacheReachable arr mem' c' → ∀ j < 3, j ≠ i → ∃ q,
          (m0VarrEleGet arr mem' c' j).map Prod.fst = some q ∧
          RangesDisjoint p (2 ^ nearestPowerOfTwo 8) q (2 ^ nearestPowerOfTwo 8) := by
  have h8 : nearestPowerOfTwo 8 = 3 := nearestPowerOfTwo_two_pow 3
  have h16 : nearestPowerOfTwo 16 = 4 := nearestPowerOfTwo_two_pow 4
  -- the pages are `4096` bytes apart, each longer than a leaf
  have hbufs : ∀ m n, m ≠ n → RangesDisjoint (4096 * (m + 1)) (2 ^ nearestPowerOfTwo 16)
      (4096 * (n + 1)) (2 ^ nearestPowerOfTwo 16) := by
    intro m n hmn
    rw [h16, RangesDisjoint]
    omega
  exact m0VarrInit_depth_two_slots 8 (fun _ => 0) (by norm_num) (by norm_num) (by norm_num)
    (by norm_num [M0_VA_TNODEPTR_SIZE]) (by norm_num) (by rw [h8, h16]; norm_num [M0_VA_TNODE_NR])
    (by rw [h8, h16]; norm_num) (fun n => by positivity) hbufs

end Motr
