import Motr.Emap.Ext

/-!
Identity masks of `dix/imask.c`, and the bit helpers of `lib/misc.c` they use.

An identity mask is a list of bit ranges `[e_start, e_end]`, both ends included, the end
possibly `IMASK_INF`. `m0_dix_imask_apply` copies, range after range, the bits of a key at
the positions a range selects into a zeroed result, and returns as `res_len_bits` the sum of
the ranges' actual sizes (`range_actual_size`). `m0_dix_layout_iter_init` stores that result as
the key DIX hashes to place a record (`m0_dix_target`).

The key is read through `buffer : ℕ → UInt8`, the bytes from the key's address on: the key is
the first `buf_len_bytes` of them, and a bit read past it is a byte of whatever follows.

* `bufBit`: bit `j` of a buffer is bit `j % 8` of byte `j / 8`; `m0BitGet_eq` and
  `bufBit_m0BitSet` say that `m0_bit_get` reads it and `m0_bit_set` ors it in.
* `imaskApplyLoop_held`: the two copy loops leave in the result exactly the bits of the key at
  the positions `imaskPositions` lists, and `m0DixImaskApply_eq` states the whole function so.
* `rangeActualSize_eq_inter`: the actual size of a range is its part below the end of the bit
  string when the range runs to the end, ends inside the string or is longer than it; then
  `m0DixImaskApply_exact` returns the masked bits of the key and reads nothing past it.
* `rangeActualSize_of_past`: a range that ends past the key but is not longer than the key is
  not cut, and `m0DixImaskApply_reads_past_key` shows the result then made of bits past the key.
-/

namespace Motr

/-- `IMASK_INF`: `~0ULL`, the end of a range that runs to the end of the key. -/
def IMASK_INF : ℕ := 2 ^ 64 - 1

/-- `M0_BYTES(bits_nr)`: the bytes that hold `bits_nr` bits. -/
def M0_BYTES (bitsNr : ℕ) : ℕ := (bitsNr + 7) / 8

/-- Bit `j` of a byte buffer: bit `j % 8` of byte `j / 8`. -/
def bufBit (buf : ℕ → UInt8) (j : ℕ) : Bool := (buf (j / 8)).toNat.testBit (j % 8)

/-- Bit `j` of a list of bytes, `false` past its end. -/
def listBit (bytes : List UInt8) (j : ℕ) : Bool := (bytes.getD (j / 8) 0).toNat.testBit (j % 8)

/-- `m0_bit_get`: bit `i % 8` of byte `M0_BYTES(i + 1) - 1`. -/
def m0BitGet (buffer : ℕ → UInt8) (i : ℕ) : Bool :=
  (buffer (M0_BYTES (i + 1) - 1)).toNat.testBit (i % 8)

/-- `m0_bit_set`: `*byte_val |= (0x1 & val) << bit_shift` at byte `M0_BYTES(i + 1) - 1`; a bit
already set stays set. -/
def m0BitSet (buffer : ℕ → UInt8) (i : ℕ) (val : Bool) : ℕ → UInt8 :=
  let byteNum := M0_BYTES (i + 1) - 1
  Function.update buffer byteNum
    (buffer byteNum ||| (if val then 1 else 0) <<< (i % 8).toUInt8)

/-- `range_size`: the bits of `[e_start, e_end]`, `IMASK_INF` for a range to the end; the
difference is taken in 64 bits. -/
def rangeSize (r : Ext) : ℕ :=
  if r.eEnd = IMASK_INF then IMASK_INF else (r.eEnd + 2 ^ 64 - r.eStart + 1) % 2 ^ 64

/-- `range_actual_size`: a range to the end, or one longer than the bit string, is cut at the
string's end `bs_len`; any other range is taken whole. -/
def rangeActualSize (r : Ext) (bsLen : ℕ) : ℕ :=
  let size := rangeSize r
  if size = IMASK_INF ∨ size > bsLen then (if bsLen > r.eStart then bsLen - r.eStart else 0)
  else size

/-- `ranges_size` (`imask_size`): the actual sizes summed in 64 bits. -/
def imaskSize (mask : List Ext) (bsLen : ℕ) : ℕ :=
  mask.foldl (fun res r => (res + rangeActualSize r bsLen) % 2 ^ 64) 0

/-- `mask_bit_copy`: bit `pos` of the key to bit `respos` of the result. -/
def maskBitCopy (buffer : ℕ → UInt8) (pos : ℕ) (res : ℕ → UInt8) (respos : ℕ) : ℕ → UInt8 :=
  m0BitSet res respos (m0BitGet buffer pos)

/-- The inner loop of `m0_dix_imask_apply` over a range from `start`: bit `start + j` of the
key (a 64-bit sum) to bit `k` of the result, while `j < rsize && k < mask_size`, `n` counting
the values of `j` left. Returns `k` and the result. -/
def imaskCopyLoop (buffer : ℕ → UInt8) (maskSize start : ℕ) :
    ℕ → ℕ → ℕ → (ℕ → UInt8) → ℕ × (ℕ → UInt8)
  | 0, _, k, res => (k, res)
  | n + 1, j, k, res =>
    if k < maskSize then
      imaskCopyLoop buffer maskSize start n (j + 1) (k + 1)
        (maskBitCopy buffer ((start + j) % 2 ^ 64) res k)
    else (k, res)

/-- The outer loop of `m0_dix_imask_apply`, over the ranges of the mask. -/
def imaskApplyLoop (buffer : ℕ → UInt8) (bsLen maskSize : ℕ) :
    List Ext → ℕ → (ℕ → UInt8) → ℕ × (ℕ → UInt8)
  | [], k, res => (k, res)
  | r :: rs, k, res =>
    let kr := imaskCopyLoop buffer maskSize r.eStart (rangeActualSize r bsLen) 0 k res
    imaskApplyLoop buffer bsLen maskSize rs kr.1 kr.2

/-- `m0_dix_imask_apply` on a key of `buf_len_bytes` bytes (`M0_PRE(buf_len_bytes != 0)`):
no result and length `0` for an empty mask size, otherwise the `M0_BYTES(mask_size)` bytes of
the zeroed allocation after the copy, and `mask_size`. The allocation does not fail here. -/
def m0DixImaskApply (buffer : ℕ → UInt8) (bufLenBytes : ℕ) (mask : List Ext) :
    Option (Option (List UInt8) × ℕ) :=
  if bufLenBytes = 0 then none
  else
    let bsLen := bufLenBytes * 8 % 2 ^ 64
    let maskSize := imaskSize mask bsLen
    if maskSize = 0 then some (none, 0)
    else
      let res := (imaskApplyLoop buffer bsLen maskSize mask 0 fun _ => 0).2
      some (some ((List.range (M0_BYTES maskSize)).map res), maskSize)

/-- The key positions the copy loops visit, in order: `start + j` for `j` below each range's
actual size. -/
def imaskPositions (bsLen : ℕ) (mask : List Ext) : List ℕ :=
  mask.flatMap fun r => (List.range (rangeActualSize r bsLen)).map fun j => (r.eStart + j) % 2 ^ 64

/-- What the mask means: the positions of `[e_start, e_end]` below `bs_len`, range after
range. -/
def imaskInter (bsLen : ℕ) (mask : List Ext) : List ℕ :=
  mask.flatMap fun r => List.range' r.eStart (min (r.eEnd + 1) bsLen - r.eStart)

/-! ### Bits of a buffer -/

section Bits

variable {buf : ℕ → UInt8} {bits : List Bool}

lemma M0_BYTES_succ_sub_one (i : ℕ) : M0_BYTES (i + 1) - 1 = i / 8 := by
  simp only [M0_BYTES]
  omega

lemma m0BitGet_eq (buffer : ℕ → UInt8) (i : ℕ) : m0BitGet buffer i = bufBit buffer i := by
  rw [m0BitGet, M0_BYTES_succ_sub_one, bufBit]

/-- The byte `m0_bit_set` ors in holds the one bit `val` at `i % 8`. -/
lemma testBit_bitSetByte (i t : ℕ) (val : Bool) :
    (((if val then 1 else 0 : UInt8) <<< (i % 8).toUInt8).toNat).testBit t =
      (val && t = i % 8) := by
  have hi : (i % 8).toUInt8.toNat = i % 8 := by
    simp [Nat.toUInt8]
    omega
  have hbit : ∀ m, ((if val then 1 else 0 : UInt8).toNat).testBit m = (val && m = 0) := by
    intro m
    rcases val with _ | _
    · simp
    · exact Bool.eq_iff_iff.mpr (by simp [Nat.testBit_one_eq_true_iff_self_eq_zero])
  rw [UInt8.toNat_shiftLeft, hi, Nat.mod_mod_of_dvd _ (by norm_num), Nat.testBit_mod_two_pow,
    Nat.testBit_shiftLeft, hbit]
  have hlt := Nat.mod_lt i (by norm_num : 8 > 0)
  rcases val with _ | _
  · simp
  · by_cases ht : t = i % 8
    · simp [ht, hlt]
    · have hne : t < 8 → i % 8 ≤ t → t - i % 8 ≠ 0 := by omega
      simp only [ht, decide_false, Bool.true_and]
      simpa using hne

/-- **`m0_bit_set` ors bit `i` in** and leaves every other bit. -/
lemma bufBit_m0BitSet (i j : ℕ) (val : Bool) :
    bufBit (m0BitSet buf i val) j = (bufBit buf j || (val && j = i)) := by
  simp only [bufBit, m0BitSet, M0_BYTES_succ_sub_one]
  by_cases hb : j / 8 = i / 8
  · rw [hb, Function.update_self, UInt8.toNat_or, Nat.testBit_or, testBit_bitSetByte]
    have : (j % 8 = i % 8) ↔ (j = i) := by omega
    simp [this]
  · rw [Function.update_of_ne hb]
    have : j ≠ i := fun h => hb (h ▸ rfl)
    simp [this]

/-- A byte is its eight bits. -/
lemma uint8_eq_of_testBit {a b : UInt8} (h : ∀ t < 8, a.toNat.testBit t = b.toNat.testBit t) :
    a = b := by
  apply UInt8.toNat_inj.mp
  apply Nat.eq_of_testBit_eq
  intro t
  rcases Nat.lt_or_ge t 8 with ht | ht
  · exact h t ht
  · rw [Nat.testBit_lt_two_pow (lt_of_lt_of_le a.toNat_lt (Nat.pow_le_pow_right (by norm_num) ht)),
      Nat.testBit_lt_two_pow (lt_of_lt_of_le b.toNat_lt (Nat.pow_le_pow_right (by norm_num) ht))]

/-- The bits of the first `m` bytes of a buffer, as a list. -/
lemma listBit_map_range (m j : ℕ) :
    listBit ((List.range m).map buf) j = (decide (j < 8 * m) && bufBit buf j) := by
  simp only [listBit, bufBit, List.getD_eq_getElem?_getD, List.getElem?_map]
  by_cases hj : j < 8 * m
  · simp [hj, show j / 8 < m by omega]
  · simp [hj, show ¬ j / 8 < m by omega]

/-- The result buffer holds exactly `bits`, zero past them. -/
def BitsHeld (res : ℕ → UInt8) (bits : List Bool) : Prop := ∀ j, bufBit res j = bits.getD j false

lemma bitsHeld_zero : BitsHeld (fun _ => 0) [] := by
  intro j
  simp [bufBit]

/-- One `m0_bit_set` at the next position appends its bit. -/
lemma BitsHeld.m0BitSet {res : ℕ → UInt8} (h : BitsHeld res bits) (val : Bool) :
    BitsHeld (m0BitSet res bits.length val) (bits ++ [val]) := by
  intro j
  rw [bufBit_m0BitSet, h j]
  rcases Nat.lt_trichotomy j bits.length with hj | rfl | hj
  · simp [List.getD_eq_getElem?_getD, List.getElem?_append_left hj, hj.ne]
  · simp [List.getD_eq_getElem?_getD]
  · simp [List.getD_eq_getElem?_getD, List.getElem?_eq_none (by omega : bits.length ≤ j),
      List.getElem?_eq_none (by simp; omega : (bits ++ [val]).length ≤ j), hj.ne']

end Bits

/-! ### The copy loops -/

section Loops

variable (buffer : ℕ → UInt8) (maskSize : ℕ)

/-- The inner loop, with room for all its steps below `mask_size`, appends the key bits at
`start + j`; the induction is on the steps left, with `j`, `k` and the bits held moving on. -/
lemma imaskCopyLoop_held (start : ℕ) :
    ∀ (n j : ℕ) (res : ℕ → UInt8) (bits : List Bool), BitsHeld res bits →
      bits.length + n ≤ maskSize →
      (imaskCopyLoop buffer maskSize start n j bits.length res).1 = bits.length + n ∧
      BitsHeld (imaskCopyLoop buffer maskSize start n j bits.length res).2
        (bits ++ (List.range' j n).map fun i => bufBit buffer ((start + i) % 2 ^ 64))
  | 0, j, res, bits, h, _ => by simpa [imaskCopyLoop] using h
  | n + 1, j, res, bits, h, hroom => by
    have hk : bits.length < maskSize := by omega
    have hstep := h.m0BitSet (bufBit buffer ((start + j) % 2 ^ 64))
    have ih := imaskCopyLoop_held start n (j + 1) _ _ hstep (by simp; omega)
    simp only [List.length_append, List.length_singleton, List.append_assoc,
      List.singleton_append] at ih
    rw [imaskCopyLoop, if_pos hk, maskBitCopy, m0BitGet_eq, List.range'_succ, List.map_cons]
    exact ⟨by omega, ih.2⟩

/-- The outer loop, with room for all the ranges' bits below `mask_size`, appends the key bits
at every position of `imaskPositions`. -/
lemma imaskApplyLoop_held (bsLen : ℕ) :
    ∀ (mask : List Ext) (res : ℕ → UInt8) (bits : List Bool), BitsHeld res bits →
      bits.length + (imaskPositions bsLen mask).length ≤ maskSize →
      BitsHeld (imaskApplyLoop buffer bsLen maskSize mask bits.length res).2
        (bits ++ (imaskPositions bsLen mask).map (bufBit buffer))
  | [], res, bits, h, _ => by simpa [imaskApplyLoop, imaskPositions] using h
  | r :: rs, res, bits, h, hroom => by
    have hlen : (imaskPositions bsLen (r :: rs)).length =
        rangeActualSize r bsLen + (imaskPositions bsLen rs).length := by
      simp [imaskPositions]
    obtain ⟨hk, hres⟩ := imaskCopyLoop_held buffer maskSize r.eStart (rangeActualSize r bsLen) 0
      res bits h (by omega)
    set kr := imaskCopyLoop buffer maskSize r.eStart (rangeActualSize r bsLen) 0 bits.length res
    have hk' : kr.1 = (bits ++ (List.range' 0 (rangeActualSize r bsLen)).map
        fun i => bufBit buffer ((r.eStart + i) % 2 ^ 64)).length := by
      simp [hk]
    have ih := imaskApplyLoop_held bsLen rs kr.2 _ hres (by simp; omega)
    rw [← hk'] at ih
    simp only [imaskApplyLoop]
    convert ih using 1
    simp [imaskPositions, List.range_eq_range', Function.comp_def]

/-- `ranges_size` is the number of positions visited, in 64 bits. -/
lemma imaskSize_eq (mask : List Ext) (bsLen : ℕ) :
    imaskSize mask bsLen = (imaskPositions bsLen mask).length % 2 ^ 64 := by
  -- the running sum stays below `2^64`, each step adding one range's count
  have hfold : ∀ (l : List Ext) (a : ℕ), a < 2 ^ 64 → l.foldl (fun res r =>
      (res + rangeActualSize r bsLen) % 2 ^ 64) a = (a + (imaskPositions bsLen l).length) % 2 ^ 64 := by
    intro l
    induction l with
    | nil =>
      intro a ha
      simp only [List.foldl_nil, imaskPositions, List.flatMap_nil, List.length_nil, Nat.add_zero]
      exact (Nat.mod_eq_of_lt ha).symm
    | cons r rs ih =>
      intro a ha
      rw [List.foldl_cons, ih _ (Nat.mod_lt _ (by norm_num))]
      simp only [imaskPositions, List.flatMap_cons, List.length_append, List.length_map,
        List.length_range]
      omega
  rw [imaskSize, hfold _ _ (by norm_num)]
  simp

end Loops

/-- **What `m0_dix_imask_apply` returns**, when the positions it visits number below `2^64`:
their count as `res_len_bits` and, unless there are none, a result whose bits are the key bits
at those positions, zero past them. -/
theorem m0DixImaskApply_eq (buffer : ℕ → UInt8) {n : ℕ} (mask : List Ext) (hn : 0 < n)
    (hlen : (imaskPositions (n * 8 % 2 ^ 64) mask).length < 2 ^ 64) :
    ∃ bytes, m0DixImaskApply buffer n mask =
      (if imaskPositions (n * 8 % 2 ^ 64) mask = [] then some (none, 0)
        else some (some bytes, (imaskPositions (n * 8 % 2 ^ 64) mask).length)) ∧
      bytes.length = M0_BYTES (imaskPositions (n * 8 % 2 ^ 64) mask).length ∧ ∀ j, listBit bytes j = ((imaskPositions (n * 8 % 2 ^ 64) mask).map (bufBit buffer)).getD j false := by
  rw [m0DixImaskApply, if_neg hn.ne']
  generalize n * 8 % 2 ^ 64 = bsLen at hlen ⊢
  set P := imaskPositions bsLen mask with hP
  have hsize : imaskSize mask bsLen = P.length := by
    rw [imaskSize_eq, Nat.mod_eq_of_lt hlen]
  have hheld := imaskApplyLoop_held buffer P.length bsLen mask (fun _ => 0) []
    bitsHeld_zero (by simp [hP])
  simp only [List.length_nil, List.nil_append, ← hP] at hheld
  set res := (imaskApplyLoop buffer bsLen P.length mask 0 fun _ => 0).2
  refine ⟨(List.range (M0_BYTES P.length)).map res, ?_, by simp, fun j => ?_⟩
  · by_cases hPe : P = []
    · simp [hsize, hPe]
    · have hP0 : P.length ≠ 0 := by simpa using hPe
      simp [hsize, hPe, hP0, res]
  · rw [listBit_map_range, hheld j]
    by_cases hj : j < 8 * M0_BYTES P.length
    · simp [hj]
    · have : P.length ≤ j := by simp only [M0_BYTES] at hj; omega
      simp [hj, List.getD_eq_getElem?_getD, List.getElem?_eq_none (by simpa using this)]

/-- Byte lists of one length are equal when their bits are. -/
lemma list_eq_of_listBit_eq {a b : List UInt8} (hl : a.length = b.length)
    (h : ∀ j, listBit a j = listBit b j) : a = b := by
  apply List.ext_getElem hl
  intro i hia hib
  apply uint8_eq_of_testBit
  intro t ht
  have := h (8 * i + t)
  simpa [listBit, show (8 * i + t) / 8 = i by omega, show (8 * i + t) % 8 = t by omega,
    List.getD_eq_getElem?_getD, List.getElem?_eq_getElem hia, List.getElem?_eq_getElem hib]
    using this

/-! ### The size of a range -/

section Range

variable {r : Ext} {bsLen : ℕ}

/-- A range that does not run to the end has `e_end - e_start + 1` bits. -/
lemma rangeSize_of_lt (hse : r.eStart ≤ r.eEnd) (hinf : r.eEnd < IMASK_INF) :
    rangeSize r = r.eEnd + 1 - r.eStart := by
  have hne : r.eEnd ≠ IMASK_INF := hinf.ne
  simp only [rangeSize, hne, if_false]
  simp only [IMASK_INF] at hinf
  omega

/-- **The actual size is the range's part below the end of the bit string** when the range
runs to the end, ends inside the string, or is longer than the string. -/
lemma rangeActualSize_eq_inter (hse : r.eStart ≤ r.eEnd) (he : r.eEnd ≤ IMASK_INF)
    (hbs : bsLen < 2 ^ 64)
    (hcut : r.eEnd = IMASK_INF ∨ r.eEnd < bsLen ∨ bsLen < r.eEnd + 1 - r.eStart) :
    rangeActualSize r bsLen = min (r.eEnd + 1) bsLen - r.eStart := by
  rcases Nat.lt_or_eq_of_le he with hinf | hinf
  · -- a bounded range: taken whole exactly when it ends inside the string
    have hsize := rangeSize_of_lt hse hinf
    simp only [IMASK_INF] at hinf hcut
    simp only [rangeActualSize, hsize, IMASK_INF, Nat.min_def]
    split_ifs <;> omega
  · -- a range to the end is cut at the end of the string
    have hsize : rangeSize r = IMASK_INF := by simp [rangeSize, hinf]
    simp only [rangeActualSize, hsize, true_or, if_true, Nat.min_def]
    simp only [IMASK_INF] at hinf
    split_ifs <;> omega

/-- **A range that ends past the bit string but is not longer than it is taken whole**, its
bits past the string included. -/
lemma rangeActualSize_of_past (hse : r.eStart ≤ r.eEnd) (hinf : r.eEnd < IMASK_INF)
    (hbs : bsLen < 2 ^ 64) (hshort : r.eEnd + 1 - r.eStart ≤ bsLen) :
    rangeActualSize r bsLen = r.eEnd + 1 - r.eStart := by
  have hsize := rangeSize_of_lt hse hinf
  simp only [IMASK_INF] at hinf
  simp only [rangeActualSize, hsize, IMASK_INF]
  split_ifs <;> omega

/-- The positions of a range below `2^64` are those of `[e_start, e_start + size)`. -/
lemma range_map_start_add (start m : ℕ) (h : start + m ≤ 2 ^ 64) :
    (List.range m).map (fun j => (start + j) % 2 ^ 64) = List.range' start m := by
  rw [List.range'_eq_map_range]
  apply List.map_congr_left
  intro j hj
  rw [List.mem_range] at hj
  exact Nat.mod_eq_of_lt (by omega)

end Range

/-- A mask whose every range is well formed (`e_start <= e_end`) and cut right at the end of a
bit string of `bsLen` bits: it runs to the end, ends inside the string or is longer than it. -/
def ImaskCutsRight (bsLen : ℕ) (mask : List Ext) : Prop :=
  ∀ r ∈ mask, r.eStart ≤ r.eEnd ∧ r.eEnd ≤ IMASK_INF ∧
    (r.eEnd = IMASK_INF ∨ r.eEnd < bsLen ∨ bsLen < r.eEnd + 1 - r.eStart)

/-- On such a mask the copy visits the positions of the ranges below the end of the string. -/
lemma imaskPositions_eq_inter {bsLen : ℕ} {mask : List Ext} (hbs : bsLen < 2 ^ 64)
    (hmask : ImaskCutsRight bsLen mask) : imaskPositions bsLen mask = imaskInter bsLen mask := by
  apply List.flatMap_congr
  intro r hr
  obtain ⟨hse, he, hcut⟩ := hmask r hr
  rw [rangeActualSize_eq_inter hse he hbs hcut, range_map_start_add]
  have he' : r.eEnd ≤ 2 ^ 64 - 1 := he
  rw [Nat.min_def]
  split_ifs <;> omega

/-- The masked positions lie below the end of the string. -/
lemma lt_of_mem_imaskInter {bsLen p : ℕ} {mask : List Ext} (hp : p ∈ imaskInter bsLen mask) :
    p < bsLen := by
  simp only [imaskInter, List.mem_flatMap, List.mem_range'_1] at hp
  obtain ⟨r, -, hlo, hhi⟩ := hp
  omega

section Exact

variable (buffer : ℕ → UInt8) {n : ℕ} {mask : List Ext}

/-- The key: the first `n` bytes of the buffer. -/
def imaskKey (buffer : ℕ → UInt8) (n : ℕ) : List UInt8 := (List.range n).map buffer

/-- **`m0_dix_imask_apply` on a mask cut right**: `res_len_bits` is the number of positions of
the ranges inside the key, and bit `j` of the result is the key bit at the `j`-th of them, in
range order; the bits are read from the key alone. -/
theorem m0DixImaskApply_exact (hn : 0 < n) (h64 : 8 * n < 2 ^ 64) (hmask : ImaskCutsRight (8 * n) mask)
    (hlen : (imaskInter (8 * n) mask).length < 2 ^ 64) :
    ∃ bytes, m0DixImaskApply buffer n mask =
      (if imaskInter (8 * n) mask = [] then some (none, 0)
        else some (some bytes, (imaskInter (8 * n) mask).length)) ∧
      bytes.length = M0_BYTES (imaskInter (8 * n) mask).length ∧
      ∀ j, listBit bytes j = ((imaskInter (8 * n) mask).map (listBit (imaskKey buffer n))).getD j false := by
  have hbs : n * 8 % 2 ^ 64 = 8 * n := by omega
  have hpos := imaskPositions_eq_inter h64 hmask
  obtain ⟨bytes, happly, hbytes, hbits⟩ := m0DixImaskApply_eq buffer mask hn
    (by rw [hbs, hpos]; exact hlen)
  rw [hbs, hpos] at happly hbytes hbits
  refine ⟨bytes, happly, hbytes, fun j => ?_⟩
  -- every masked position is inside the key, where the buffer and the key agree
  have hkey : (imaskInter (8 * n) mask).map (bufBit buffer) =
      (imaskInter (8 * n) mask).map (listBit (imaskKey buffer n)) := by
    apply List.map_congr_left
    intro p hp
    rw [imaskKey, listBit_map_range, decide_eq_true (lt_of_mem_imaskInter hp), Bool.true_and]
  rw [hbits, hkey]

/-- **Keys whose masked bit strings are equal get one masked key**, so `m0_dix_target` hashes
them alike; in particular the bytes past a key are never read. -/
theorem m0DixImaskApply_eq_of_masked_eq (buffer' : ℕ → UInt8) {n' : ℕ} (hn : 0 < n) (hn' : 0 < n')
    (h64 : 8 * n < 2 ^ 64) (h64' : 8 * n' < 2 ^ 64) (hmask : ImaskCutsRight (8 * n) mask)
    (hmask' : ImaskCutsRight (8 * n') mask) (hlen : (imaskInter (8 * n) mask).length < 2 ^ 64)
    (hlen' : (imaskInter (8 * n') mask).length < 2 ^ 64)
    (heq : (imaskInter (8 * n) mask).map (listBit (imaskKey buffer n)) =
      (imaskInter (8 * n') mask).map (listBit (imaskKey buffer' n'))) :
    m0DixImaskApply buffer n mask = m0DixImaskApply buffer' n' mask := by
  obtain ⟨bytes, happly, hbytes, hbits⟩ := m0DixImaskApply_exact buffer hn h64 hmask hlen
  obtain ⟨bytes', happly', hbytes', hbits'⟩ := m0DixImaskApply_exact buffer' hn' h64' hmask' hlen'
  have hl : (imaskInter (8 * n) mask).length = (imaskInter (8 * n') mask).length := by
    simpa using congrArg List.length heq
  have he : imaskInter (8 * n) mask = [] ↔ imaskInter (8 * n') mask = [] := by
    rw [← List.length_eq_zero_iff, hl, List.length_eq_zero_iff]
  have hb : bytes = bytes' :=
    list_eq_of_listBit_eq (by rw [hbytes, hbytes', hl]) fun j => by rw [hbits, hbits', heq]
  rw [happly, happly', hb, hl]
  by_cases h0 : imaskInter (8 * n) mask = []
  · simp [h0, he.mp h0]
  · simp [h0, mt he.mpr h0]

/-- The theorem at two one-byte keys that agree on the four bits of the mask `[[0, 3]]` and
differ above them, the second buffer also past the key. -/
theorem m0DixImaskApply_eq_of_masked_eq_low_bits :
    m0DixImaskApply (fun _ => 15) 1 [⟨0, 3⟩] =
      m0DixImaskApply (fun i => if i = 0 then 255 else 7) 1 [⟨0, 3⟩] :=
  m0DixImaskApply_eq_of_masked_eq (fun _ => 15) (fun i => if i = 0 then 255 else 7)
    (by decide) (by decide) (by decide) (by decide) (by simp [ImaskCutsRight, IMASK_INF])
    (by simp [ImaskCutsRight, IMASK_INF]) (by decide) (by decide) (by decide)

end Exact

/-- **A range that ends past the key but is no longer than the key makes
`m0_dix_imask_apply` read past the key**: `res_len_bits` is the whole range,
`e_end - e_start + 1`, more than its `8 n - e_start` bits inside the key; the last bit of the
result is bit `e_end` of the buffer, past the key, so that two buffers with the same key give
different results when they differ there. -/
theorem m0DixImaskApply_reads_past_key (buffer : ℕ → UInt8) {n : ℕ} {r : Ext} (hn : 0 < n)
    (hse : r.eStart ≤ r.eEnd) (hinf : r.eEnd < IMASK_INF) (hpast : 8 * n ≤ r.eEnd)
    (hshort : r.eEnd + 1 - r.eStart ≤ 8 * n) :
    ∃ bytes, m0DixImaskApply buffer n [r] = some (some bytes, r.eEnd + 1 - r.eStart) ∧
      min (r.eEnd + 1) (8 * n) - r.eStart < r.eEnd + 1 - r.eStart ∧
      listBit bytes (r.eEnd - r.eStart) = bufBit buffer r.eEnd ∧
      ∀ buffer' : ℕ → UInt8, (∀ i < n, buffer' i = buffer i) →
        bufBit buffer' r.eEnd ≠ bufBit buffer r.eEnd →
        m0DixImaskApply buffer' n [r] ≠ m0DixImaskApply buffer n [r] := by
  have hinf' : r.eEnd < 2 ^ 64 - 1 := hinf
  have hbs : n * 8 % 2 ^ 64 = 8 * n := by omega
  -- the copy visits the whole range `[e_start, e_end]`
  have hpos : imaskPositions (n * 8 % 2 ^ 64) [r] = List.range' r.eStart (r.eEnd + 1 - r.eStart) := by
    simp only [imaskPositions, List.flatMap_cons, List.flatMap_nil, List.append_nil, hbs,
      rangeActualSize_of_past hse hinf (by omega) hshort]
    exact range_map_start_add _ _ (by omega)
  have hne : List.range' r.eStart (r.eEnd + 1 - r.eStart) ≠ [] := by
    simp only [ne_eq, List.range'_eq_nil_iff]
    omega
  have hlast : ∀ (b : ℕ → UInt8) (bytes : List UInt8),
      (∀ j, listBit bytes j =
        ((List.range' r.eStart (r.eEnd + 1 - r.eStart)).map (bufBit b)).getD j false) →
      listBit bytes (r.eEnd - r.eStart) = bufBit b r.eEnd := by
    intro b bytes hb
    rw [hb, List.getD_eq_getElem?_getD, List.getElem?_map, List.getElem?_range' (by omega)]
    simp only [Option.map_some, Option.getD_some]
    congr 1
    omega
  have happ : ∀ b : ℕ → UInt8, ∃ bytes, m0DixImaskApply b n [r] =
      some (some bytes, r.eEnd + 1 - r.eStart) ∧ listBit bytes (r.eEnd - r.eStart) = bufBit b r.eEnd := by
    intro b
    obtain ⟨bytes, happly, -, hbits⟩ := m0DixImaskApply_eq b [r] hn (by rw [hpos]; simp; omega)
    rw [hpos, if_neg hne, List.length_range'] at happly
    rw [hpos] at hbits
    exact ⟨bytes, happly, hlast b bytes hbits⟩
  obtain ⟨bytes, happly, hbit⟩ := happ buffer
  refine ⟨bytes, happly, by omega, hbit, fun buffer' _ hdiff heq => hdiff ?_⟩
  obtain ⟨bytes', happly', hbit'⟩ := happ buffer'
  rw [happly, happly'] at heq
  have hb : bytes' = bytes := by simpa using heq
  rw [← hbit', ← hbit, hb]

/-- The failing input: a one-byte key and the mask `[[4, 10]]`; seven bits come back where the
key holds four of the range. -/
theorem m0DixImaskApply_reads_past_key_one_byte :
    ∃ bytes, m0DixImaskApply (fun _ => 0) 1 [⟨4, 10⟩] = some (some bytes, 10 + 1 - 4) ∧
      min (10 + 1) (8 * 1) - 4 < 10 + 1 - 4 ∧
      listBit bytes (10 - 4) = bufBit (fun _ => 0) 10 ∧
      ∀ buffer' : ℕ → UInt8, (∀ i < 1, buffer' i = 0) →
        bufBit buffer' 10 ≠ bufBit (fun _ => 0) 10 →
        m0DixImaskApply buffer' 1 [⟨4, 10⟩] ≠ m0DixImaskApply (fun _ => 0) 1 [⟨4, 10⟩] :=
  m0DixImaskApply_reads_past_key (fun _ => 0) (r := ⟨4, 10⟩) (by decide) (by decide)
    (by simp [IMASK_INF]) (by decide) (by decide)

end Motr
