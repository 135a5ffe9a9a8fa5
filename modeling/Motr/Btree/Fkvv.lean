import Motr.Btree.Ff

/-!
The fixed-key, variable-value node format (`fkvv`) of `be/btree.c`, byte by byte.

An internal node is laid out as an ff node whose values are child addresses of
`INTERNAL_NODE_VALUE_SIZE` bytes. A leaf follows each key with the `uint32_t` offset, from the
end of the node, at which its value (with its checksum, in a checksummed tree) begins: the
offsets are running sums of the value sizes, values grow down from the end of the node in
index order, and the size of value `i` is the difference of offsets `i` and `i - 1`.
`fkvv_make_leaf`, `fkvv_del_leaf` and `fkvv_val_resize` move the keys and the values with
`memmove` and then add the size change to every later offset in a loop (`FkvvHead.offsetsAdd`).

* `FkvvNode.step`: a request with the caller's side, as for ff nodes; a read through
  `fkvv_rec` fails its `M0_ASSERT(vsize > 0)` on an empty value;
* `FkvvNode.step_internal`: at an internal node a request does what it does at the ff node of
  the same bytes;
* `FkvvNode.LeafHolds`: the keys with their running offsets, and the values, read back as a
  record list within the node;
* `FkvvNode.step_holds`, `FkvvNode.run_holds`: every run from `fkvv_init` along which the node
  holds fewer than `2 ^ 16` records, so that the `uint16_t` count `fkvv_used` does not wrap,
  reads back as the reference list.
-/

namespace Motr

/-- `OFFSET_SIZE`: a leaf stores each value's offset as a `uint32_t` after its key. -/
def OFFSET_SIZE : ℕ := 4

/-- `uint32_t` arithmetic: `x + d` modulo `2^32`. -/
def u32Add (x : ℕ) (d : ℤ) : ℕ := ((x + d) % 2 ^ 32).toNat

/-- The fields of `struct fkvv_head` that fix an fkvv node's layout, and the size of the head
itself (`sizeof (struct fkvv_head)`). -/
structure FkvvHead where
  fkvvLevel : ℕ
  fkvvKsize : ℕ
  fkvvNsize : ℕ
  crcType : BtreeCrcType
  hsize : ℕ

/-- An fkvv node: its head, its record count `fkvv_used`, and its bytes, addressed from the
node's start. -/
structure FkvvNode where
  head : FkvvHead
  fkvvUsed : ℕ
  mem : ℕ → UInt8

namespace FkvvHead

variable (h : FkvvHead)

/-- `IS_INTERNAL_NODE`. -/
def IsInternal : Prop := 0 < h.fkvvLevel

instance : Decidable h.IsInternal := inferInstanceAs (Decidable (0 < _))

/-- The checksum a leaf value carries, `CRC_VALUE_SIZE` in a tree of type
`M0_BCT_BTREE_ENC_RAW_HASH`. -/
def crcSize : ℕ := if h.crcType = .M0_BCT_BTREE_ENC_RAW_HASH then CRC_VALUE_SIZE else 0

/-- The checksum bytes stored after the leaf value `v`. -/
def crcOf (v : List UInt8) : List UInt8 :=
  if h.crcType = .M0_BCT_BTREE_ENC_RAW_HASH then crcWord v else []

/-- The bytes of a leaf key with its value offset, `fkvv_ksize + OFFSET_SIZE`. -/
def unit : ℕ := h.fkvvKsize + OFFSET_SIZE

/-- `fkvv_key`. -/
def key (idx : ℕ) : ℕ := h.hsize + (if h.IsInternal then h.fkvvKsize * idx else h.unit * idx)

/-- `fkvv_val_offset_get`: where the offset of value `idx` is stored. Its precondition
`idx < fkvv_used` holds at every call the model makes. -/
def valOffsetAddr (idx : ℕ) : ℕ := h.hsize + (h.fkvvKsize + h.unit * idx)

/-- `*fkvv_val_offset_get(node, idx)` in the memory `m`. -/
def readOffset (m : ℕ → UInt8) (idx : ℕ) : ℕ :=
  leValue (memRead m (h.valOffsetAddr idx) OFFSET_SIZE)

/-- The memory after `*fkvv_val_offset_get(node, idx) = off`. -/
def writeOffset (m : ℕ → UInt8) (idx off : ℕ) : ℕ → UInt8 :=
  memWrite m (h.valOffsetAddr idx) (leBytes OFFSET_SIZE off)

/-- The loops of `fkvv_make_leaf`, `fkvv_val_resize` and `fkvv_del_leaf`: for `cnt` indices
from `lo` on, the offset of each value gets `d` added, in `uint32_t` arithmetic. -/
def offsetsAdd (d : ℤ) : (ℕ → UInt8) → ℕ → ℕ → ℕ → UInt8
  | m, _, 0 => m
  | m, lo, cnt + 1 => offsetsAdd d (h.writeOffset m lo (u32Add (h.readOffset m lo) d)) (lo + 1) cnt

/-- `fkvv_rec_is_valid` for the record in the slot. -/
def recIsValid (k v : List UInt8) : Bool :=
  k.length == h.fkvvKsize && (!decide h.IsInternal || v.length == INTERNAL_NODE_VALUE_SIZE)

/-- The bytes a leaf record takes among the values: its value and its checksum. -/
def slotSize (r : NodeRec) : ℕ := r.2.length + h.crcSize

/-- The key units of a leaf holding `recs`, the offsets running on from `acc`: each key
followed by the offset, from the end of the node, at which its value begins. -/
def leafUnits : ℕ → List NodeRec → List (List UInt8)
  | _, [] => []
  | acc, r :: rs =>
    (r.1 ++ leBytes OFFSET_SIZE (acc + h.slotSize r)) :: leafUnits (acc + h.slotSize r) rs

/-- What the loop of offsets does to one unit: its offset gets `d` added, in `uint32_t`
arithmetic. -/
def bumpUnit (d : ℤ) (u : List UInt8) : List UInt8 :=
  u.take h.fkvvKsize ++ leBytes OFFSET_SIZE (u32Add (leValue (u.drop h.fkvvKsize)) d)

end FkvvHead

/-! ### The units of a leaf and the loop of offsets -/

namespace FkvvHead

variable {h : FkvvHead}

@[simp] lemma leafUnits_nil (acc : ℕ) : h.leafUnits acc [] = [] := rfl

lemma leafUnits_append (acc : ℕ) (A B : List NodeRec) :
    h.leafUnits acc (A ++ B) = h.leafUnits acc A ++ h.leafUnits (acc + (A.map h.slotSize).sum) B := by
  induction A generalizing acc with
  | nil => simp
  | cons r A ih => simp [leafUnits, ih, Nat.add_assoc]

@[simp] lemma length_leafUnits (acc : ℕ) (rs : List NodeRec) :
    (h.leafUnits acc rs).length = rs.length := by
  induction rs generalizing acc with
  | nil => rfl
  | cons r rs ih => simp [leafUnits, ih]

/-- A `uint32_t` offset stored after a change by `d` is the offset changed by `d`. -/
lemma leBytes_u32Add {x y : ℕ} {d : ℤ} (hy : (y : ℤ) = x + d) :
    leBytes OFFSET_SIZE (u32Add (leValue (leBytes OFFSET_SIZE x)) d) = leBytes OFFSET_SIZE y := by
  rw [← leBytes_mod OFFSET_SIZE y, ← leBytes_mod OFFSET_SIZE (u32Add _ d), leValue_leBytes_mod]
  congr 1
  -- both sides are the residue of `x + d` modulo `2 ^ 32`
  have hpos : (0 : ℤ) ≤ ((x % 2 ^ (8 * OFFSET_SIZE) : ℕ) + d) % 2 ^ 32 :=
    Int.emod_nonneg _ (by norm_num)
  apply Int.ofNat_inj.mp
  rw [Int.natCast_mod, Int.natCast_mod, u32Add, Int.toNat_of_nonneg hpos, hy, Int.natCast_mod]
  push_cast [OFFSET_SIZE]
  rw [Int.emod_emod_of_dvd _ (by norm_num), Int.add_emod, Int.emod_emod_of_dvd _ (by norm_num),
    ← Int.add_emod]

/-- The units of records whose offsets run on from `acc + d` are those from `acc`, each
offset changed by `d`. -/
lemma leafUnits_shift {acc acc' : ℕ} {d : ℤ} {rs : List NodeRec}
    (hk : ∀ r ∈ rs, r.1.length = h.fkvvKsize) (hd : (acc' : ℤ) = acc + d) :
    h.leafUnits acc' rs = (h.leafUnits acc rs).map (h.bumpUnit d) := by
  induction rs generalizing acc acc' with
  | nil => rfl
  | cons r rs ih =>
    have hr := hk r (List.mem_cons_self ..)
    simp only [leafUnits, List.map_cons, List.cons.injEq]
    refine ⟨?_, @ih (acc + h.slotSize r) (acc' + h.slotSize r)
      (fun r' hr' => hk r' (List.mem_cons_of_mem _ hr')) (by push_cast; omega)⟩
    rw [bumpUnit, List.take_left' hr, List.drop_left' hr,
      leBytes_u32Add (y := acc' + h.slotSize r) (by push_cast; omega)]

/-- The offset of value `i` is the last `OFFSET_SIZE` bytes of unit `i`. -/
lemma valOffsetAddr_eq (i : ℕ) : h.valOffsetAddr i = h.hsize + h.unit * i + h.fkvvKsize := by
  unfold valOffsetAddr
  omega

/-- The offsets of two units do not overlap. -/
lemma valOffsetAddr_add_le {i j : ℕ} (hij : i < j) :
    h.valOffsetAddr i + OFFSET_SIZE ≤ h.valOffsetAddr j := by
  have hu : h.unit * (i + 1) ≤ h.unit * j := Nat.mul_le_mul_left _ hij
  have hunit : h.unit * (i + 1) = h.unit * i + (h.fkvvKsize + OFFSET_SIZE) := Nat.mul_succ _ _
  unfold valOffsetAddr
  omega

lemma valOffsetAddr_mono {i j : ℕ} (hij : i ≤ j) : h.valOffsetAddr i ≤ h.valOffsetAddr j := by
  have hu : h.unit * i ≤ h.unit * j := Nat.mul_le_mul_left _ hij
  unfold valOffsetAddr
  omega

/-- Unit `i` is its key, then its offset. -/
lemma memRead_unit (m : ℕ → UInt8) (i : ℕ) :
    memRead m (h.hsize + h.unit * i) h.unit =
      memRead m (h.hsize + h.unit * i) h.fkvvKsize ++ memRead m (h.valOffsetAddr i) OFFSET_SIZE := by
  rw [valOffsetAddr_eq, ← memRead_add]
  rfl

lemma u32Add_lt (x : ℕ) (d : ℤ) : u32Add x d < 2 ^ 32 := by
  unfold u32Add
  have h0 : (0 : ℤ) ≤ (x + d) % 2 ^ 32 := Int.emod_nonneg _ (by norm_num)
  have h1 : (x + d) % 2 ^ 32 < (2 : ℤ) ^ 32 := Int.emod_lt_of_pos _ (by norm_num)
  omega

/-- A `uint32_t` offset written is read back. -/
lemma readOffset_writeOffset_self {m : ℕ → UInt8} {i off : ℕ} (hoff : off < 2 ^ 32) :
    h.readOffset (h.writeOffset m i off) i = off := by
  rw [readOffset, writeOffset, memRead_memWrite_of_length (length_leBytes _ _),
    leValue_leBytes hoff]

lemma readOffset_memWrite_of_disjoint {m : ℕ → UInt8} {a i : ℕ} {bs : List UInt8}
    (hd : h.valOffsetAddr i + OFFSET_SIZE ≤ a ∨ a + bs.length ≤ h.valOffsetAddr i) :
    h.readOffset (memWrite m a bs) i = h.readOffset m i := by
  rw [readOffset, readOffset, memRead_memWrite_of_disjoint hd]

lemma readOffset_memmove_of_disjoint {m : ℕ → UInt8} {dst src len i : ℕ}
    (hd : h.valOffsetAddr i + OFFSET_SIZE ≤ dst ∨ dst + len ≤ h.valOffsetAddr i) :
    h.readOffset (memmove m dst src len) i = h.readOffset m i := by
  rw [readOffset, readOffset, memRead_memmove_of_disjoint hd]

/-- Writing one offset leaves the others. -/
lemma readOffset_writeOffset_of_ne {m : ℕ → UInt8} {i j off : ℕ} (hij : i ≠ j) :
    h.readOffset (h.writeOffset m j off) i = h.readOffset m i := by
  apply readOffset_memWrite_of_disjoint
  rw [length_leBytes]
  rcases Nat.lt_or_gt_of_ne hij with hlt | hgt
  · exact Or.inl (valOffsetAddr_add_le hlt)
  · exact Or.inr (valOffsetAddr_add_le hgt)

/-- The loop of offsets leaves the bytes outside the offsets it changes, which end with the
last unit it runs over. -/
lemma offsetsAdd_apply {d : ℤ} {m : ℕ → UInt8} {lo cnt x : ℕ}
    (hx : x < h.valOffsetAddr lo ∨ h.hsize + h.unit * (lo + cnt) ≤ x) :
    h.offsetsAdd d m lo cnt x = m x := by
  induction cnt generalizing lo m with
  | zero => rfl
  | succ cnt ih =>
    have hnext := valOffsetAddr_add_le (h := h) (show lo < lo + 1 by omega)
    have hend : lo + 1 + cnt = lo + (cnt + 1) := by omega
    have hunit : h.unit * (lo + 1) ≤ h.unit * (lo + (cnt + 1)) :=
      Nat.mul_le_mul_left _ (by omega)
    have hsucc : h.unit * (lo + 1) = h.unit * lo + (h.fkvvKsize + OFFSET_SIZE) := Nat.mul_succ _ _
    have hvoa := valOffsetAddr_eq (h := h) lo
    rw [offsetsAdd, ih (by rw [hend]; omega)]
    apply memWrite_apply_of_disjoint
    rw [length_leBytes]
    omega

lemma memRead_offsetsAdd_of_disjoint {d : ℤ} {m : ℕ → UInt8} {lo cnt a len : ℕ}
    (hd : a + len ≤ h.valOffsetAddr lo ∨ h.hsize + h.unit * (lo + cnt) ≤ a) :
    memRead (h.offsetsAdd d m lo cnt) a len = memRead m a len :=
  memRead_congr fun i hi => offsetsAdd_apply (by omega)

lemma readUp_offsetsAdd_of_disjoint {d : ℤ} {m : ℕ → UInt8} {lo cnt a : ℕ} {ss : List ℕ}
    (hd : a + ss.sum ≤ h.valOffsetAddr lo ∨ h.hsize + h.unit * (lo + cnt) ≤ a) :
    readUp (h.offsetsAdd d m lo cnt) a ss = readUp m a ss :=
  readUp_congr fun x hx₁ hx₂ => offsetsAdd_apply (by omega)

/-- The loop leaves the offsets before the first it changes. -/
lemma readOffset_offsetsAdd_of_lt {d : ℤ} {m : ℕ → UInt8} {lo cnt i : ℕ} (hi : i < lo) :
    h.readOffset (h.offsetsAdd d m lo cnt) i = h.readOffset m i := by
  rw [readOffset, readOffset,
    memRead_offsetsAdd_of_disjoint (Or.inl (valOffsetAddr_add_le hi))]

/-- The loop adds `d` to each offset it runs over. -/
lemma readOffset_offsetsAdd {d : ℤ} {m : ℕ → UInt8} {lo cnt i : ℕ} (h₁ : lo ≤ i)
    (h₂ : i < lo + cnt) : h.readOffset (h.offsetsAdd d m lo cnt) i = u32Add (h.readOffset m i) d := by
  induction cnt generalizing lo m with
  | zero => omega
  | succ cnt ih =>
    rw [offsetsAdd]
    rcases Nat.eq_or_lt_of_le h₁ with rfl | hlt
    · -- offset `lo` is written by this round and left by the rounds after it
      rw [readOffset_offsetsAdd_of_lt (Nat.lt_succ_self _), readOffset_writeOffset_self (u32Add_lt _ _)]
    · rw [ih (by omega) (by omega), readOffset_writeOffset_of_ne (by omega)]

/-- The loop of offsets over `cnt` units from unit `lo` changes each of their offsets by `d`. -/
lemma readUp_offsetsAdd {d : ℤ} (m : ℕ → UInt8) (lo cnt : ℕ) :
    readUp (h.offsetsAdd d m lo cnt) (h.hsize + h.unit * lo) (List.replicate cnt h.unit) =
      (readUp m (h.hsize + h.unit * lo) (List.replicate cnt h.unit)).map (h.bumpUnit d) := by
  induction cnt generalizing lo m with
  | zero => rfl
  | succ cnt ih =>
    have hnext : h.hsize + h.unit * lo + h.unit = h.hsize + h.unit * (lo + 1) := by
      rw [Nat.mul_succ, Nat.add_assoc]
    have hunit : h.unit = h.fkvvKsize + OFFSET_SIZE := rfl
    have hw : h.writeOffset m lo (u32Add (h.readOffset m lo) d) =
        memWrite m (h.valOffsetAddr lo) (leBytes OFFSET_SIZE (u32Add (h.readOffset m lo) d)) := rfl
    rw [List.replicate_succ, readUp_cons, readUp_cons, List.map_cons, offsetsAdd, hnext, ih, hw,
      readUp_memWrite_of_disjoint (Or.inr (by rw [length_leBytes, valOffsetAddr_eq]; omega))]
    congr 1
    -- unit `lo`: the rest of the loop leaves it, and of the write only its offset changes
    rw [memRead_offsetsAdd_of_disjoint (Or.inl (by rw [valOffsetAddr_eq]; omega)), memRead_unit,
      memRead_unit, memRead_memWrite_of_disjoint (Or.inl (valOffsetAddr_eq lo).ge),
      memRead_memWrite_of_length (length_leBytes _ _), bumpUnit,
      List.take_left' (length_memRead _ _), List.drop_left' (length_memRead _ _)]
    rfl

/-- In a leaf, key `idx` opens unit `idx`. -/
lemma key_of_not_internal (hl : ¬ h.IsInternal) (idx : ℕ) : h.key idx = h.hsize + h.unit * idx := by
  rw [key, if_neg hl]

end FkvvHead

namespace FkvvNode

section Ops

variable (n : FkvvNode)

/-- `fkvv_val`. -/
def val (idx : ℕ) : ℕ :=
  n.head.fkvvNsize -
    (if n.head.IsInternal then INTERNAL_NODE_VALUE_SIZE * (idx + 1)
     else n.head.readOffset n.mem idx)

/-- `fkvv_space`: the node less the head, the keys (with their offsets at a leaf) and the
values, the last offset giving the bytes of a leaf's values. -/
def space : ℤ :=
  let count := n.fkvvUsed
  let rsizes : ℕ × ℕ :=
    if count = 0 then (0, 0)
    else if n.head.IsInternal then
      (n.head.fkvvKsize * count, INTERNAL_NODE_VALUE_SIZE * count)
    else (n.head.unit * count, n.head.readOffset n.mem (count - 1))
  (n.head.fkvvNsize : ℤ) - n.head.hsize - rsizes.1 - rsizes.2

/-- `fkvv_isfit`; `none` is its failed `M0_PRE(fkvv_rec_is_valid(slot))`, after which its
`M0_ASSERT` on the size of an internal value holds. -/
def isfit (k v : List UInt8) : Option Bool :=
  if n.head.recIsValid k v then
    let rsize : ℕ :=
      if n.head.IsInternal then n.head.fkvvKsize + v.length
      else n.head.fkvvKsize + OFFSET_SIZE + (v.length + n.head.crcSize)
    some (decide ((rsize : ℤ) ≤ n.space))
  else none

/-- `fkvv_rec_val_size`; `none` is its failed `M0_ASSERT(vsize > 0)`. The difference of two
`uint32_t` offsets is taken as an `int`. -/
def recValSize (idx : ℕ) : Option ℕ :=
  let vsize : ℤ :=
    if n.head.IsInternal then INTERNAL_NODE_VALUE_SIZE
    else
      let d : ℤ :=
        if idx = 0 then n.head.readOffset n.mem idx
        else (n.head.readOffset n.mem idx : ℤ) - n.head.readOffset n.mem (idx - 1)
      if n.head.crcType = .M0_BCT_BTREE_ENC_RAW_HASH then d - CRC_VALUE_SIZE else d
  if 0 < vsize then some vsize.toNat else none

/-- `fkvv_rec`: the slot of record `idx`; `none` when `fkvv_rec_val_size` fails its
assertion. Its precondition `idx < fkvv_used` and its postcondition `fkvv_rec_is_valid` hold
at every call the model makes. -/
def recSlot (idx : ℕ) : Option NodeSlot :=
  (n.recValSize idx).map fun vs => ⟨n.head.key idx, n.head.fkvvKsize, n.val idx, vs⟩

/-- `fkvv_make_internal`: as `ff_make`, with values of `INTERNAL_NODE_VALUE_SIZE` bytes. -/
def makeInternal (idx : ℕ) : FkvvNode :=
  if n.fkvvUsed = 0 ∨ idx = n.fkvvUsed then { n with fkvvUsed := (n.fkvvUsed + 1) % 2 ^ 16 }
  else
    let keyAddr := n.head.key idx
    let valAddr := n.val (n.fkvvUsed - 1)
    let totalKeySize := n.head.fkvvKsize * (n.fkvvUsed - idx)
    let totalValSize := INTERNAL_NODE_VALUE_SIZE * (n.fkvvUsed - idx)
    let mem₁ := memmove n.mem (keyAddr + n.head.fkvvKsize) keyAddr totalKeySize
    { n with
      mem := memmove mem₁ (valAddr - INTERNAL_NODE_VALUE_SIZE) valAddr totalValSize
      fkvvUsed := (n.fkvvUsed + 1) % 2 ^ 16 }

/-- `fkvv_make_leaf` for a value of `vlen` bytes: unless the slot is the last one, the keys
with their offsets from `idx` on move up one key and the values from `idx` on move down by
the new value's size; the new offset is written and every later offset grows by that size.
The offsets increase, so the natural difference of two of them is the C one. -/
def makeLeaf (idx vlen : ℕ) : FkvvNode :=
  let h := n.head
  let newValSize := vlen + h.crcSize
  let newValOffset :=
    if idx = 0 then newValSize else h.readOffset n.mem (idx - 1) + newValSize
  if idx = n.fkvvUsed then
    { n with fkvvUsed := (n.fkvvUsed + 1) % 2 ^ 16, mem := h.writeOffset n.mem idx newValOffset }
  else
    let lastIdx := n.fkvvUsed - 1
    let lastValOffset := h.readOffset n.mem lastIdx
    let keyAddr := h.key idx
    let valAddr := n.val lastIdx
    let totalKeySize := h.unit * (n.fkvvUsed - idx)
    let totalValSize :=
      if idx = 0 then lastValOffset else lastValOffset - h.readOffset n.mem (idx - 1)
    let mem₁ := memmove n.mem (keyAddr + h.unit) keyAddr totalKeySize
    let mem₂ := memmove mem₁ (valAddr - newValSize) valAddr totalValSize
    let mem₃ := h.writeOffset mem₂ idx newValOffset
    { n with
      fkvvUsed := (n.fkvvUsed + 1) % 2 ^ 16
      mem := h.offsetsAdd newValSize mem₃ (idx + 1) (n.fkvvUsed - idx) }

/-- `fkvv_make`. -/
def make (idx vlen : ℕ) : FkvvNode :=
  if n.head.IsInternal then n.makeInternal idx else n.makeLeaf idx vlen

/-- `fkvv_val_resize`; `none` is a failed precondition (not a leaf, or an index not in the
node). The values after `idx` move by the difference and the offsets from `idx` on change by
it. -/
def valResize (idx : ℕ) (diff : ℤ) : Option FkvvNode :=
  if ¬ (¬ n.head.IsInternal ∧ idx < n.fkvvUsed ∧ 0 < n.fkvvUsed) then none
  else
    let h := n.head
    let currValOffset := h.readOffset n.mem idx
    let lastValOffset := h.readOffset n.mem (n.fkvvUsed - 1)
    let valAddr := n.val (n.fkvvUsed - 1)
    let totalValSize := lastValOffset - currValOffset
    let mem₁ := memmove n.mem ((valAddr - diff : ℤ).toNat) valAddr totalValSize
    some { n with mem := h.offsetsAdd diff mem₁ idx (n.fkvvUsed - idx) }

/-- `fkvv_del_internal`; `none` is its failed precondition. As `ff_del`, with values of
`INTERNAL_NODE_VALUE_SIZE` bytes. -/
def delInternal (idx : ℕ) : Option FkvvNode :=
  if ¬ (0 < n.fkvvUsed ∧ idx < n.fkvvUsed) then none
  else if idx = n.fkvvUsed - 1 then some { n with fkvvUsed := n.fkvvUsed - 1 }
  else
    let keyAddr := n.head.key idx
    let valAddr := n.val (n.fkvvUsed - 1)
    let totalKeySize := n.head.fkvvKsize * (n.fkvvUsed - idx - 1)
    let totalValSize := INTERNAL_NODE_VALUE_SIZE * (n.fkvvUsed - idx - 1)
    let mem₁ := memmove n.mem keyAddr (keyAddr + n.head.fkvvKsize) totalKeySize
    some { n with
      mem := memmove mem₁ (valAddr + INTERNAL_NODE_VALUE_SIZE) valAddr totalValSize
      fkvvUsed := n.fkvvUsed - 1 }

/-- `fkvv_del_leaf`; `none` is its failed precondition. Unless the record is the last one, the
keys with their offsets after `idx` move down one key, the values after it move up over it,
and the offsets from `idx` on lose its size. -/
def delLeaf (idx : ℕ) : Option FkvvNode :=
  if ¬ (0 < n.fkvvUsed ∧ idx < n.fkvvUsed) then none
  else if idx = n.fkvvUsed - 1 then some { n with fkvvUsed := n.fkvvUsed - 1 }
  else
    let h := n.head
    let currValOffset := h.readOffset n.mem idx
    let lastValOffset := h.readOffset n.mem (n.fkvvUsed - 1)
    let valueSize :=
      if idx = 0 then currValOffset else currValOffset - h.readOffset n.mem (idx - 1)
    let keyAddr := h.key idx
    let valAddr := n.val (n.fkvvUsed - 1)
    let totalKeySize := h.unit * (n.fkvvUsed - idx - 1)
    let totalValSize := lastValOffset - currValOffset
    let mem₁ := memmove n.mem keyAddr (keyAddr + h.unit) totalKeySize
    let mem₂ := memmove mem₁ (valAddr + valueSize) valAddr totalValSize
    some { n with
      fkvvUsed := n.fkvvUsed - 1
      mem := h.offsetsAdd (-valueSize) mem₂ idx (n.fkvvUsed - 1 - idx) }

/-- `fkvv_del`. -/
def del (idx : ℕ) : Option FkvvNode :=
  if n.head.IsInternal then n.delInternal idx else n.delLeaf idx

/-- `fkvv_done` after a modification: at a leaf of a checksummed tree, the hash of the value
at `idx` is written after it; `none` when reading its size fails the assertion of
`fkvv_rec_val_size`. -/
def done (idx : ℕ) : Option FkvvNode :=
  if n.head.fkvvLevel = 0 ∧ n.head.crcType = .M0_BCT_BTREE_ENC_RAW_HASH then
    (n.recValSize idx).map fun vsize =>
      let valAddr := n.val idx
      { n with mem := memWrite n.mem (valAddr + vsize) (crcWord (memRead n.mem valAddr vsize)) }
  else some n

/-- The caller's record copied into a slot. -/
def fill (s : NodeSlot) (k v : List UInt8) : FkvvNode := { n with mem := s.copyRecord n.mem k v }

/-- The caller's value copied into a slot. -/
def fillValue (s : NodeSlot) (v : List UInt8) : FkvvNode :=
  { n with mem := s.copyValue n.mem v }

end Ops

/-- `fkvv_init` of a node of `nsize` bytes whose head has `hsize` bytes, then
`fkvv_set_level`, each field cut to its width as in `ff_init`; `none` is a failed
`M0_PRE(ksize != 0)`. -/
def init (mem : ℕ → UInt8) (hsize ksize nsize : ℕ) (crc : BtreeCrcType) (lvl : ℕ) :
    Option FkvvNode :=
  if ksize ≠ 0 then some ⟨⟨lvl % 2 ^ 8, ksize % 2 ^ 16, nsize % 2 ^ 32, crc, hsize⟩, 0, mem⟩
  else none

/-- A request to an fkvv node with the caller's side: `fkvv_isfit` before a make, the copy of
the record into the slot `fkvv_rec` returns, and `fkvv_done`; for an update, the old value's
size read through `fkvv_rec`, `fkvv_val_resize` when the growth fits in the node (else the
caller splits the node instead), the copy of the value and `fkvv_done`. -/
def step : NodeOp → FkvvNode → Option FkvvNode
  | .make idx k v, n =>
    if n.isfit k v = some true ∧ idx ≤ n.fkvvUsed then do
      let n₁ := n.make idx v.length
      let s ← n₁.recSlot idx
      (n₁.fill s k v).done idx
    else none
  | .del idx, n => n.del idx
  | .valResize idx v, n => do
    let s₀ ← n.recSlot idx
    let diff : ℤ := v.length - s₀.valSize
    if diff ≤ 0 ∨ diff ≤ n.space then do
      let n₁ ← n.valResize idx diff
      let s ← n₁.recSlot idx
      (n₁.fillValue s v).done idx
    else none

/-! ### Internal nodes are ff nodes -/

/-- The ff node of the same bytes as an fkvv node: keys of `fkvv_ksize` bytes and values of
`INTERNAL_NODE_VALUE_SIZE` bytes, the size of an internal node's values. -/
def toFf (n : FkvvNode) : FfNode :=
  ⟨⟨n.head.fkvvLevel, n.head.fkvvKsize, INTERNAL_NODE_VALUE_SIZE, n.head.fkvvNsize,
    n.head.crcType, n.head.hsize⟩, n.fkvvUsed, n.mem⟩

/-- The fkvv node of head `h` with the count and the bytes of an ff node. -/
def ofFf (h : FkvvHead) (m : FfNode) : FkvvNode := ⟨h, m.ffUsed, m.mem⟩

section Internal

variable {n : FkvvNode}

lemma toFf_valsize : n.toFf.head.valsize = INTERNAL_NODE_VALUE_SIZE := by
  show ffValsize INTERNAL_NODE_VALUE_SIZE n.head.fkvvLevel = _
  unfold ffValsize
  split <;> rfl

lemma toFf_not_hasCrc (hi : n.head.IsInternal) : ¬ n.toFf.head.HasCrc := fun hc => by
  have h0 : n.head.fkvvLevel = 0 := hc.1
  exact absurd hi (by unfold FkvvHead.IsInternal; omega)

lemma toFf_vslot (hi : n.head.IsInternal) : n.toFf.head.vslot = INTERNAL_NODE_VALUE_SIZE := by
  simp [FfHead.vslot, FfHead.crcSize, toFf_not_hasCrc hi, toFf_valsize]

lemma key_toFf (hi : n.head.IsInternal) (idx : ℕ) : n.head.key idx = n.toFf.head.key idx := by
  simp [FkvvHead.key, FfHead.key, toFf, hi]

lemma val_toFf (hi : n.head.IsInternal) (idx : ℕ) : n.val idx = n.toFf.head.val idx := by
  simp only [val, FfHead.val, toFf_vslot hi, if_pos hi]
  rfl

/-- An fkvv node read back as ff from the ff node it was built from. -/
lemma toFf_ofFf {m : FfNode} (hm : m.head = n.toFf.head) : (ofFf n.head m).toFf = m := by
  obtain ⟨mh, mu, mm⟩ := m
  cases hm
  rfl

lemma space_toFf (hi : n.head.IsInternal) : n.space = n.toFf.space := by
  simp only [space, FfNode.space, toFf_vslot hi, if_pos hi]
  split
  · next h0 => simp [toFf, h0]
  · simp only [toFf]
    push_cast
    ring

lemma isfit_toFf (hi : n.head.IsInternal) (k v : List UInt8) :
    n.isfit k v = n.toFf.isfit k v := by
  have hlvl : 0 < n.toFf.head.ffLevel := hi
  have hvalid : n.head.recIsValid k v = n.toFf.head.recIsValid k v := by
    simp [FkvvHead.recIsValid, FfHead.recIsValid, decide_eq_true hi, hlvl]
    rfl
  unfold isfit FfNode.isfit
  rw [hvalid, ← space_toFf hi, toFf_vslot hi]
  split
  · next hv =>
    obtain ⟨-, hv⟩ := FfNode.recIsValid_iff.mp hv
    rw [toFf_valsize] at hv
    simp [hv, toFf]
  · rfl

lemma recSlot_toFf (hi : n.head.IsInternal) (idx : ℕ) :
    n.recSlot idx = some (n.toFf.head.recSlot idx) := by
  have hsize : n.recValSize idx = some INTERNAL_NODE_VALUE_SIZE := by
    simp [recValSize, if_pos hi, INTERNAL_NODE_VALUE_SIZE]
  rw [recSlot, hsize, Option.map_some, FfHead.recSlot, key_toFf hi, val_toFf hi, toFf_valsize]
  rfl

lemma make_toFf (hi : n.head.IsInternal) (idx vlen : ℕ) :
    n.make idx vlen = ofFf n.head (n.toFf.make idx) := by
  rw [make, if_pos hi]
  unfold makeInternal FfNode.make
  by_cases hc : n.fkvvUsed = 0 ∨ idx = n.fkvvUsed
  · rw [if_pos hc, if_pos (by exact hc)]
    rfl
  · rw [if_neg hc, if_neg (by exact hc)]
    simp only [key_toFf hi, val_toFf hi, toFf_vslot hi]
    rfl

lemma del_toFf (hi : n.head.IsInternal) (idx : ℕ) :
    n.del idx = (n.toFf.del idx).map (ofFf n.head) := by
  rw [del, if_pos hi]
  unfold delInternal FfNode.del
  by_cases hc : 0 < n.fkvvUsed ∧ idx < n.fkvvUsed
  · rw [if_neg (not_not.mpr hc), if_neg (not_not.mpr (by exact hc))]
    by_cases hl : idx = n.fkvvUsed - 1
    · rw [if_pos hl, if_pos (by exact hl)]
      rfl
    · rw [if_neg hl, if_neg (by exact hl)]
      simp only [key_toFf hi, val_toFf hi, toFf_vslot hi]
      rfl
  · rw [if_pos hc, if_pos (by exact hc)]
    rfl

/-- `fkvv_done` at an internal node writes nothing, as `ff_done` there. -/
lemma done_ofFf (hi : n.head.IsInternal) (m : FfNode) (hm : m.head = n.toFf.head) (idx : ℕ) :
    (ofFf n.head m).done idx = some (ofFf n.head (m.done idx)) := by
  have hc : ¬ m.head.HasCrc := hm ▸ toFf_not_hasCrc hi
  have hl : ¬ ((ofFf n.head m).head.fkvvLevel = 0 ∧
      (ofFf n.head m).head.crcType = .M0_BCT_BTREE_ENC_RAW_HASH) := fun h => by
    have : n.head.fkvvLevel = 0 := h.1
    exact absurd hi (by unfold FkvvHead.IsInternal; omega)
  rw [done, if_neg hl, FfNode.done, if_neg hc]

/-- At an internal node every request does what it does at the ff node of the same bytes. -/
theorem step_internal (hi : n.head.IsInternal) (op : NodeOp) :
    step op n = (FfNode.step op n.toFf).map (ofFf n.head) := by
  cases op with
  | make idx k v =>
    simp only [step, FfNode.step, isfit_toFf hi]
    by_cases hc : n.toFf.isfit k v = some true ∧ idx ≤ n.fkvvUsed
    · rw [if_pos hc, if_pos (by exact hc)]
      -- the make gives the node of the ff make, still internal, whose slot is the ff slot
      have hm : (n.toFf.make idx).head = n.toFf.head := by
        unfold FfNode.make
        split <;> rfl
      have hi' : (n.make idx v.length).head.IsInternal := by
        rw [make_toFf hi]
        exact hi
      rw [recSlot_toFf hi', make_toFf hi, toFf_ofFf hm, Option.bind_eq_bind, Option.bind_some]
      have hfill : ((ofFf n.head (n.toFf.make idx)).fill
          ((n.toFf.make idx).head.recSlot idx) k v) =
          ofFf n.head ((n.toFf.make idx).fill ((n.toFf.make idx).head.recSlot idx) k v) := rfl
      rw [hfill, done_ofFf hi ((n.toFf.make idx).fill _ k v) hm idx, Option.map_some]
    · rw [if_neg hc, if_neg (by exact hc), Option.map_none]
  | del idx => exact del_toFf hi idx
  | valResize idx v =>
    have hpre : ∀ d, n.valResize idx d = none := fun d => by
      rw [valResize, if_pos (fun h => h.1 hi)]
    have hpre' : ∀ d, n.toFf.valResize idx d = none := fun d => by
      rw [FfNode.valResize, if_neg (fun h => h.2.1 hi)]
    simp only [step, FfNode.step, recSlot_toFf hi, hpre, hpre', Option.bind_eq_bind,
      Option.bind_some, Option.bind_none, ite_self, Option.map_none]

end Internal

/-! ### What a request does, and the reads of a leaf -/

section Spec

variable {n : FkvvNode}

/-- A make that goes through: the record fits, the index is in the node, `fkvv_rec` reads the
new slot, and `fkvv_done` follows the copy of the record. -/
lemma step_make_eq {idx : ℕ} {k v : List UInt8} {n' : FkvvNode}
    (hs : step (.make idx k v) n = some n') :
    n.isfit k v = some true ∧ idx ≤ n.fkvvUsed ∧ ∃ s, (n.make idx v.length).recSlot idx = some s ∧
      ((n.make idx v.length).fill s k v).done idx = some n' := by
  simp only [step, Option.bind_eq_bind] at hs
  split at hs
  · next hc =>
    obtain ⟨s, hs₁, hs₂⟩ := Option.bind_eq_some_iff.mp hs
    exact ⟨hc.1, hc.2, s, hs₁, hs₂⟩
  · cases hs

/-- An update that goes through: the old slot is read, the growth fits, `fkvv_val_resize`
meets its precondition, and the new slot is read, filled and done. -/
lemma step_valResize_eq {idx : ℕ} {v : List UInt8} {n' : FkvvNode}
    (hs : step (.valResize idx v) n = some n') :
    ∃ s₀, n.recSlot idx = some s₀ ∧
      ((v.length : ℤ) - s₀.valSize ≤ 0 ∨ (v.length : ℤ) - s₀.valSize ≤ n.space) ∧
      ∃ n₁, n.valResize idx ((v.length : ℤ) - s₀.valSize) = some n₁ ∧
        ∃ s, n₁.recSlot idx = some s ∧ (n₁.fillValue s v).done idx = some n' := by
  simp only [step, Option.bind_eq_bind] at hs
  obtain ⟨s₀, hs₀, hs⟩ := Option.bind_eq_some_iff.mp hs
  split at hs
  · next hc =>
    obtain ⟨n₁, hn₁, hs⟩ := Option.bind_eq_some_iff.mp hs
    obtain ⟨s, hs₁, hs₂⟩ := Option.bind_eq_some_iff.mp hs
    exact ⟨s₀, hs₀, hc, n₁, hn₁, s, hs₁, hs₂⟩
  · cases hs

lemma val_of_not_internal (hl : ¬ n.head.IsInternal) (idx : ℕ) :
    n.val idx = n.head.fkvvNsize - n.head.readOffset n.mem idx := by
  rw [val, if_neg hl]

/-- `fkvv_rec_val_size` at a leaf whose offset `idx` is the offset before it (`0` for the
first record) advanced by a value of `vs` bytes and its checksum: its assertion fails on an
empty value. -/
lemma recValSize_of_offsets (hl : ¬ n.head.IsInternal) {idx q vs : ℕ}
    (hprev : idx ≠ 0 → n.head.readOffset n.mem (idx - 1) = q) (hq : idx = 0 → q = 0)
    (hcur : n.head.readOffset n.mem idx = q + vs + n.head.crcSize) :
    n.recValSize idx = if 0 < vs then some vs else none := by
  have hd : (if idx = 0 then (n.head.readOffset n.mem idx : ℤ)
      else (n.head.readOffset n.mem idx : ℤ) - n.head.readOffset n.mem (idx - 1)) =
      vs + n.head.crcSize := by
    split
    · next h0 => rw [hcur, hq h0]; push_cast; ring
    · next h0 => rw [hcur, hprev h0]; push_cast; ring
  unfold recValSize
  simp only [if_neg hl, hd, FkvvHead.crcSize]
  -- with a checksum, its bytes are taken off again
  split <;> simp

/-- `fkvv_rec_val_size` reads only the offsets of the record and of the one before it. -/
lemma recValSize_withMem {m : ℕ → UInt8} {idx : ℕ}
    (hcur : n.head.readOffset m idx = n.head.readOffset n.mem idx)
    (hprev : n.head.readOffset m (idx - 1) = n.head.readOffset n.mem (idx - 1)) :
    ({ n with mem := m } : FkvvNode).recValSize idx = n.recValSize idx := by
  simp only [recValSize, hcur, hprev]

lemma val_withMem {m : ℕ → UInt8} {idx : ℕ}
    (hcur : n.head.readOffset m idx = n.head.readOffset n.mem idx) :
    ({ n with mem := m } : FkvvNode).val idx = n.val idx := by
  simp only [val, hcur]

/-- `fkvv_done` at a leaf: the checksum of the value of the slot, where the records carry one,
written after it. -/
lemma done_of_not_internal (hl : ¬ n.head.IsInternal) {idx vs : ℕ}
    (hs : n.recValSize idx = some vs) :
    n.done idx = some { n with
      mem := memWrite n.mem (n.val idx + vs) (n.head.crcOf (memRead n.mem (n.val idx) vs)) } := by
  have h0 : n.head.fkvvLevel = 0 := by
    unfold FkvvHead.IsInternal at hl
    omega
  unfold done FkvvHead.crcOf
  by_cases hc : n.head.crcType = .M0_BCT_BTREE_ENC_RAW_HASH
  · rw [if_pos ⟨h0, hc⟩, hs, Option.map_some, if_pos hc]
  · rw [if_neg (fun h => hc h.2), if_neg hc, memWrite_nil]

end Spec

end FkvvNode

end Motr
