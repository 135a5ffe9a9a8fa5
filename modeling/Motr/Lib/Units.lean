import Mathlib

/-!
Units of a line of offsets: the multiples of a unit size `u` that lie in an interval (the
unit starts of an extent), the mask that rounds an `n`-bit offset down to a multiple of
`2^k`, and arrays that hold one slot of a fixed size for each unit start of an extent.

* `unitStarts u a b`, split by `unitStarts_append` and counted by `length_unitStarts`: a
  difference of ceilings. `length_unitStarts_eq_div` and `length_unitStarts_eq_roundUp` are
  the two other forms the count takes in code: from the floors of the first and last
  offsets, and from an offset rounded up to a unit.
* `land_two_pow_sub_two_pow`: `y &&& (2^n - 2^k)` clears the low `k` bits of `y`.
* `unitSlots`: the slots, in an array of one slot per unit start of `[lo, hi)`, of the unit
  starts that lie in `[x, y)`; `unitSlots_eq` says they are one slice of the array.
-/

namespace Motr

/-! ### Unit starts -/

section UnitStarts

variable {u a b c x : Nat}

/-- The unit starts of `[a, b)`: the multiples of `u` there, in increasing order. -/
def unitStarts (u a b : Nat) : List Nat := (List.range' a (b - a)).filter fun x => x % u = 0

lemma mem_unitStarts : x ∈ unitStarts u a b ↔ a ≤ x ∧ x < b ∧ x % u = 0 := by
  simp only [unitStarts, List.mem_filter, List.mem_range'_1, decide_eq_true_eq]
  omega

lemma unitStarts_append (hab : a ≤ b) (hbc : b ≤ c) :
    unitStarts u a c = unitStarts u a b ++ unitStarts u b c := by
  have h : c - a = (b - a) + (c - b) := by omega
  rw [unitStarts, h, ← List.range'_append_1, List.filter_append, Nat.add_sub_cancel' hab]
  rfl

lemma unitStarts_succ (hab : a ≤ b) :
    unitStarts u a (b + 1) = unitStarts u a b ++ if b % u = 0 then [b] else [] := by
  rw [unitStarts_append hab (Nat.le_succ b)]
  by_cases hb : b % u = 0 <;> simp [unitStarts, hb]

/-- Past `b`, the ceiling of `· / u` steps up exactly at a multiple of `u`. -/
lemma add_div_eq_ceil_add (hu : 0 < u) (b : Nat) :
    (b + u) / u = (b + u - 1) / u + if b % u = 0 then 1 else 0 := by
  have hb := Nat.div_add_mod b u
  have hr := Nat.mod_lt b hu
  have hsplit : b + u - 1 = u * (b / u) + (b % u + u - 1) := by omega
  have hcarry : (b % u + u - 1) / u = if b % u = 0 then 0 else 1 := by
    split
    · exact Nat.div_eq_of_lt (by omega)
    · exact Nat.div_eq_of_lt_le (by omega) (by omega)
  rw [Nat.add_div_right b hu, hsplit, Nat.mul_add_div hu, hcarry]
  split <;> omega

/-- **The number of unit starts of `[a, b)`**: `⌈b/u⌉ - ⌈a/u⌉`. -/
theorem length_unitStarts (hu : 0 < u) (hab : a ≤ b) :
    (unitStarts u a b).length = (b + u - 1) / u - (a + u - 1) / u := by
  induction b, hab using Nat.le_induction with
  | base => simp [unitStarts]
  | succ b hab ih =>
    have hmono : (a + u - 1) / u ≤ (b + u - 1) / u := Nat.div_le_div_right (by omega)
    have hstep := add_div_eq_ceil_add hu b
    rw [unitStarts_succ hab, List.length_append, ih, show b + 1 + u - 1 = b + u by omega]
    split <;> simp_all; omega

/-- The count from the floors of the first and the last offset of a non-empty extent,
the start counting when it is a multiple itself. -/
theorem length_unitStarts_eq_div {s len : Nat} (hu : 0 < u) (hlen : 0 < len) :
    (unitStarts u s (s + len)).length =
      (s + len - 1) / u - s / u + if s % u = 0 then 1 else 0 := by
  have hend : (s + len - 1 + u) / u = (s + len - 1) / u + 1 := Nat.add_div_right _ hu
  have hstart := add_div_eq_ceil_add hu s
  have hmono : s / u ≤ (s + len - 1) / u := Nat.div_le_div_right (by omega)
  rw [length_unitStarts hu (by omega), show s + len + u - 1 = s + len - 1 + u by omega, hend,
    Nat.add_div_right s hu] at *
  split <;> simp_all <;> omega

/-- The count up to `x`, from `x` rounded up to a multiple of `u`: `(⌈x/u⌉·u - a) / u`. -/
theorem length_unitStarts_eq_roundUp (hu : 0 < u) (hax : a ≤ x) :
    (unitStarts u a x).length = ((x + u - 1) / u * u - a) / u := by
  rw [length_unitStarts hu hax]
  obtain ⟨m, hm⟩ : ∃ m, m = (x + u - 1) / u := ⟨_, rfl⟩
  obtain ⟨c, hc⟩ : ∃ c, c = (a + u - 1) / u := ⟨_, rfl⟩
  -- `c·u` is `a` rounded up: at least `a`, less than a unit above it
  have hc₁ : a ≤ c * u := by
    have := Nat.lt_div_mul_add (a := a + u - 1) hu
    rw [← hc] at this
    omega
  have hc₂ : c * u - a < u := by
    have := Nat.div_mul_le_self (a + u - 1) u
    rw [← hc] at this
    omega
  have hcm : c ≤ m := by
    rw [hm, hc]
    exact Nat.div_le_div_right (by omega)
  have hsplit : m * u - a = u * (m - c) + (c * u - a) := by
    have : m * u = u * (m - c) + c * u := by
      rw [Nat.mul_comm u, ← Nat.add_mul, Nat.sub_add_cancel hcm]
    omega
  rw [← hm, ← hc, hsplit, Nat.mul_add_div hu, Nat.div_eq_of_lt hc₂, Nat.add_zero]

/-- `x` rounded up to a unit is at most every unit start from `x` on. -/
lemma roundUp_le_of_mem {y : Nat} (hu : 0 < u) (hy : y ∈ unitStarts u x b) :
    (x + u - 1) / u * u ≤ y := by
  obtain ⟨hxy, -, hyu⟩ := mem_unitStarts.mp hy
  have hy' : y / u * u = y := Nat.div_mul_cancel (Nat.dvd_of_mod_eq_zero hyu)
  have hdiv : (x + u - 1) / u ≤ y / u := by
    rw [← Nat.lt_succ_iff, Nat.div_lt_iff_lt_mul hu, Nat.succ_mul, hy']
    omega
  calc (x + u - 1) / u * u ≤ y / u * u := Nat.mul_le_mul_right _ hdiv
    _ = y := hy'

end UnitStarts

/-! ### Rounding by a mask -/

/-- Masking the low `k` bits off an `n`-bit number rounds it down to a multiple of `2^k`: the
mask `~(2^k - 1)` of `n`-bit arithmetic is `2^n - 2^k`. -/
theorem land_two_pow_sub_two_pow {y n k : Nat} (hy : y < 2 ^ n) (hk : k ≤ n) :
    y &&& (2 ^ n - 2 ^ k) = y / 2 ^ k * 2 ^ k := by
  have hmask : 2 ^ n - 2 ^ k = (2 ^ (n - k) - 1) * 2 ^ k := by
    rw [Nat.sub_mul, Nat.one_mul, ← Nat.pow_add, Nat.sub_add_cancel hk]
  apply Nat.eq_of_testBit_eq
  intro i
  rw [Nat.testBit_land, hmask, Nat.testBit_mul_two_pow, Nat.testBit_mul_two_pow,
    Nat.testBit_two_pow_sub_one, ← Nat.shiftRight_eq_div_pow, Nat.testBit_shiftRight]
  by_cases hki : k ≤ i
  · rw [Nat.add_sub_cancel' hki]
    by_cases hin : i < n
    · simp [hki, show i - k < n - k by omega]
    · have hhigh : y.testBit i = false :=
        Nat.testBit_lt_two_pow (Nat.lt_of_lt_of_le hy (Nat.pow_le_pow_right (by omega) (by omega)))
      simp [hhigh]
  · simp [hki]

/-! ### Slots per unit start -/

section Slots

variable {α : Type}

/-- Slot `j` of an array of `csz` entries per slot. -/
def unitSlot (buf : List α) (csz j : Nat) : List α := (buf.drop (j * csz)).take csz

/-- The slots of the unit starts of `[lo, hi)` that lie in `[x, y)`, in order, in an array
holding one slot per unit start of `[lo, hi)`: a unit start's slot is the one of its index
among the unit starts of `[lo, hi)`. -/
def unitSlots (buf : List α) (csz u lo hi x y : Nat) : List α :=
  ((unitStarts u lo hi).zipIdx.filter fun p => x ≤ p.1 ∧ p.1 < y).flatMap fun p =>
    unitSlot buf csz p.2

/-- Consecutive slots are one slice. -/
lemma flatMap_unitSlot (buf : List α) (csz : Nat) :
    ∀ n a, (List.range' a n).flatMap (unitSlot buf csz) = (buf.drop (a * csz)).take (n * csz)
  | 0, _ => by simp
  | n + 1, a => by
    rw [List.range'_succ, List.flatMap_cons, flatMap_unitSlot buf csz n (a + 1), unitSlot,
      show (n + 1) * csz = csz + n * csz by ring, List.take_add, List.drop_drop,
      show (a + 1) * csz = a * csz + csz by ring]

/-- **The slots of the unit starts of `[x, y)` are one slice**: past the slots of the unit
starts before `x`, as many as there are unit starts in `[x, y)`. -/
theorem unitSlots_eq (buf : List α) (csz u : Nat) {lo hi x y : Nat} (hx : lo ≤ x)
    (hxy : x ≤ y) (hy : y ≤ hi) :
    unitSlots buf csz u lo hi x y =
      (buf.drop ((unitStarts u lo x).length * csz)).take ((unitStarts u x y).length * csz) := by
  have hsplit : unitStarts u lo hi = unitStarts u lo x ++ (unitStarts u x y ++ unitStarts u y hi) := by
    rw [← unitStarts_append hxy hy, ← unitStarts_append hx (hxy.trans hy)]
  have hbefore : ((unitStarts u lo x).zipIdx.filter fun p => x ≤ p.1 ∧ p.1 < y) = [] := by
    refine List.filter_eq_nil_iff.mpr fun p hp => ?_
    have := mem_unitStarts.mp (List.fst_mem_of_mem_zipIdx hp)
    simp; omega
  have hafter : ∀ k, ((unitStarts u y hi).zipIdx k |>.filter fun p => x ≤ p.1 ∧ p.1 < y) = [] :=
    fun k => List.filter_eq_nil_iff.mpr fun p hp => by
      have := mem_unitStarts.mp (List.fst_mem_of_mem_zipIdx hp)
      simp; omega
  have hinside : ∀ k, ((unitStarts u x y).zipIdx k |>.filter fun p => x ≤ p.1 ∧ p.1 < y) =
      (unitStarts u x y).zipIdx k :=
    fun k => List.filter_eq_self.mpr fun p hp => by
      have := mem_unitStarts.mp (List.fst_mem_of_mem_zipIdx hp)
      simp; omega
  rw [unitSlots, hsplit, List.zipIdx_append, List.zipIdx_append, List.filter_append,
    List.filter_append, hbefore, hafter, hinside, List.nil_append, List.append_nil, Nat.zero_add,
    ← List.flatMap_map Prod.snd (unitSlot buf csz), List.zipIdx_map_snd, flatMap_unitSlot]

end Slots

end Motr
