import Motr.Lib.Units

/-!
Extents and checksum units as `lib/ext.c`, `lib/cksum_utils.c` and `m0_round_up` of
`lib/misc.c` compute them.

Offsets (`m0_bindex_t`) are natural numbers. The extent map keeps every offset at most
`M0_BINDEX_MAX + 1 = 2^64 - 1`, so the sums the code forms of them do not wrap, and it takes
lengths only of extents that are not inverted; `m0_round_up` is the exception, adding a unit
to an offset and masking in 64 bits, and is modelled so. A failed `M0_ASSERT` or `M0_PRE` is
`none`.

What the checksum arithmetic means is stated with the unit starts of `Motr.Lib.Units`:
`m0ExtGetNumUnitStart_eq` (the count of unit starts of an extent) and `m0RoundUp_eq` (the
next multiple of a power of two, when it is below `2^64`).
-/

namespace Motr

/-- `M0_BINDEX_MAX`, the largest offset: `M0_BCOUNT_MAX - 1`. -/
def M0_BINDEX_MAX : Nat := 2 ^ 64 - 2

/-- `struct m0_ext`: the extent `[e_start, e_end)`. -/
structure Ext where
  eStart : Nat
  eEnd : Nat
  deriving DecidableEq, Repr

/-- `m0_ext_length`. -/
def m0ExtLength (e : Ext) : Nat := e.eEnd - e.eStart

/-- `m0_ext_is_empty`. -/
def m0ExtIsEmpty (e : Ext) : Bool := e.eEnd ≤ e.eStart

/-- `m0_ext_is_in`. -/
def m0ExtIsIn (e : Ext) (index : Nat) : Bool := e.eStart ≤ index ∧ index < e.eEnd

/-- `m0_ext_intersection`. -/
def m0ExtIntersection (e0 e1 : Ext) : Ext := ⟨max e0.eStart e1.eStart, min e0.eEnd e1.eEnd⟩

/-- `m0_ext_is_valid`. -/
def m0ExtIsValid (e : Ext) : Bool := e.eStart < e.eEnd

/-- `m0_ext_are_overlapping`: the intersection is valid. -/
def m0ExtAreOverlapping (e0 e1 : Ext) : Bool := m0ExtIsValid (m0ExtIntersection e0 e1)

/-- `m0_ext_is_partof`. -/
def m0ExtIsPartof (super sub : Ext) : Bool := m0ExtIsIn super sub.eStart && sub.eEnd ≤ super.eEnd

/-- `m0_is_po2`: `(val & (val - 1)) == 0`, which `0` passes too. -/
def m0IsPo2 (val : Nat) : Bool := val &&& (val - 1) = 0

/-- `m0_round_up`: `M0_PRE(m0_is_po2(size))`, then `(val + size - 1) & ~(size - 1)` in 64
bits, where the mask `~(size - 1)` is `2^64 - size`. -/
def m0RoundUp (val size : Nat) : Option Nat :=
  if m0IsPo2 size then some ((val + size - 1) % 2 ^ 64 &&& (2 ^ 64 - size)) else none

/-- `m0_ext_get_num_unit_start`: the unit starts of `[ext_start, ext_start + ext_len)`, from
the unit indices of its first and last offsets, the first counting when it is a unit start
itself. -/
def m0ExtGetNumUnitStart (extStart extLen unitSz : Nat) : Option Nat :=
  if unitSz = 0 then none
  else some ((extStart + extLen - 1) / unitSz - extStart / unitSz +
    if extStart % unitSz = 0 then 1 else 0)

/-- `m0_extent_get_unit_offset`. -/
def m0ExtentGetUnitOffset (off baseOff unitSz : Nat) : Option Nat :=
  if unitSz = 0 then none else some ((off - baseOff) / unitSz)

/-- `m0_ext_get_cksum_addr`: the address `b_addr + unit_offset * cs_size`, given as the byte
offset from `b_addr`. -/
def m0ExtGetCksumAddr (off baseOff unitSz csSize : Nat) : Option Nat :=
  if unitSz = 0 ∨ csSize = 0 then none
  else (m0ExtentGetUnitOffset off baseOff unitSz).map (· * csSize)

/-- `m0_ext_get_cksum_nob`: the bytes of the checksums of the unit starts of an extent. -/
def m0ExtGetCksumNob (extStart extLength unitSz csSize : Nat) : Option Nat :=
  if unitSz = 0 ∨ csSize = 0 then none
  else (m0ExtGetNumUnitStart extStart extLength unitSz).map (· * csSize)

/-! ### What the arithmetic counts -/

section Arith

variable {u s len x base cs : Nat}

/-- **`m0_ext_get_num_unit_start` counts the unit starts** of a non-empty extent. -/
theorem m0ExtGetNumUnitStart_eq (hu : 0 < u) (hlen : 0 < len) :
    m0ExtGetNumUnitStart s len u = some (unitStarts u s (s + len)).length := by
  rw [m0ExtGetNumUnitStart, if_neg (Nat.pos_iff_ne_zero.mp hu),
    length_unitStarts_eq_div hu hlen]

theorem m0ExtGetCksumNob_eq (hu : 0 < u) (hcs : 0 < cs) (hlen : 0 < len) :
    m0ExtGetCksumNob s len u cs = some ((unitStarts u s (s + len)).length * cs) := by
  rw [m0ExtGetCksumNob, if_neg (by omega), m0ExtGetNumUnitStart_eq hu hlen]
  rfl

/-- A power of two that `m0_is_po2` accepts, `0` apart. -/
lemma m0IsPo2_pow (hpo2 : m0IsPo2 u = true) (hu : 0 < u) : ∃ k, u = 2 ^ k := by
  have h : u &&& (u - 1) = 0 := by simpa [m0IsPo2] using hpo2
  exact (Nat.and_sub_one_eq_zero_iff_isPowerOfTwo (Nat.pos_iff_ne_zero.mp hu)).mp h

/-- Below `2^64` the multiples of `2^k` stop a unit short of `2^64`. -/
lemma mul_two_pow_le_of_lt {c k : Nat} (hk : k ≤ 64) (h : c * 2 ^ k < 2 ^ 64) :
    c * 2 ^ k ≤ 2 ^ 64 - 2 ^ k := by
  have hpow : 2 ^ 64 = 2 ^ (64 - k) * 2 ^ k := by rw [← Nat.pow_add, Nat.sub_add_cancel hk]
  rw [hpow] at h ⊢
  have hc : c < 2 ^ (64 - k) := Nat.lt_of_mul_lt_mul_right h
  have : c * 2 ^ k ≤ (2 ^ (64 - k) - 1) * 2 ^ k := Nat.mul_le_mul_right _ (by omega)
  rwa [Nat.sub_mul, Nat.one_mul] at this

/-- **`m0_round_up` to a power of two is the next multiple**, when that multiple is below
`2^64`: the sum `val + size - 1` does not wrap then. -/
theorem m0RoundUp_eq (hpo2 : m0IsPo2 u = true) (hu : 0 < u) (hx : (x + u - 1) / u * u < 2 ^ 64) :
    m0RoundUp x u = some ((x + u - 1) / u * u) := by
  obtain ⟨k, rfl⟩ := m0IsPo2_pow hpo2 hu
  rw [m0RoundUp, if_pos hpo2, Option.some.injEq]
  by_cases hk : k ≤ 64
  · -- the largest multiple below `2^64` leaves room for the unit
    have hle := mul_two_pow_le_of_lt hk hx
    have hpk : 2 ^ k ≤ 2 ^ 64 := Nat.pow_le_pow_right (by omega) hk
    have hlt : x + 2 ^ k - 1 < 2 ^ 64 := by
      have := Nat.lt_div_mul_add (a := x + 2 ^ k - 1) hu
      omega
    rw [Nat.mod_eq_of_lt hlt, land_two_pow_sub_two_pow hlt hk]
  · -- a unit beyond `2^64`: the only multiple below it is `0`, and so is `x`
    have hbig : 2 ^ 64 < 2 ^ k := Nat.pow_lt_pow_right (by omega) (by omega)
    have hzero : (x + 2 ^ k - 1) / 2 ^ k = 0 := by
      by_contra hne
      have : 2 ^ k ≤ (x + 2 ^ k - 1) / 2 ^ k * 2 ^ k :=
        Nat.le_mul_of_pos_left _ (Nat.pos_of_ne_zero hne)
      omega
    rw [hzero, Nat.zero_mul, Nat.sub_eq_zero_of_le hbig.le, Nat.and_zero]

/-- **The checksum address of an offset rounded up to its unit** is past the checksums of the
unit starts before it, counted from `base`. -/
theorem m0ExtGetCksumAddr_roundUp (hpo2 : m0IsPo2 u = true) (hu : 0 < u) (hcs : 0 < cs)
    (hbx : base ≤ x) (hx : (x + u - 1) / u * u < 2 ^ 64) :
    ((m0RoundUp x u).bind fun r => m0ExtGetCksumAddr r base u cs) =
      some ((unitStarts u base x).length * cs) := by
  rw [m0RoundUp_eq hpo2 hu hx, Option.bind_some, m0ExtGetCksumAddr, if_neg (by omega),
    m0ExtentGetUnitOffset, if_neg (by omega), length_unitStarts_eq_roundUp hu hbx]
  rfl

end Arith

end Motr
