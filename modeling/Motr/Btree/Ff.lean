import Motr.Btree.Format

/-!
The fixed-format node (`ff`) of `be/btree.c`, byte by byte.

Keys of `ff_ksize` bytes grow up from the end of the head (`ff_key`); values of
`ff_valsize` bytes, each followed at a leaf by an 8-byte checksum when the tree stores
checksums, grow down from the end of the node (`ff_val`). `ff_make` and `ff_del` open and
close a slot with two `memmove`s, `ff_val_resize` only checks that the size does not change,
and `ff_done` writes the checksum.

The fields of the head that fix the layout (`FfHead`) never change once the node is
initialised; a node (`FfNode`) is its head, its count `ff_used` and its bytes.

* `FfNode.step`: a request with the caller's side: `ff_isfit` before a make, the copy into
  the slot `ff_rec` returns, then `ff_done`;
* `FfNode.Holds`: the key array and the value array read back as a record list, and they fit
  in the node;
* `FfNode.Holds.read_recSlot`, `FfNode.Holds.crc_word`, `FfNode.Holds.space_eq`: the records
  read through `ff_rec`, the checksum after each leaf value, and the free space;
* `FfNode.step_holds`: each request that leaves fewer than `2 ^ 16` records, so that the
  `uint16_t` count `ff_used` does not wrap, keeps `Holds` with the request applied to the list.
-/

namespace Motr

/-- The fields of `struct ff_head` that fix an ff node's layout, and the size of the head
itself (`sizeof (struct ff_head)`). -/
structure FfHead where
  ffLevel : ℕ
  ffKsize : ℕ
  ffVsize : ℕ
  ffNsize : ℕ
  crcType : BtreeCrcType
  hsize : ℕ

/-- An ff node: its head, its record count `ff_used`, and its bytes, addressed from the
node's start. -/
structure FfNode where
  head : FfHead
  ffUsed : ℕ
  mem : ℕ → UInt8

namespace FfHead

variable (h : FfHead)

/-- `ff_valsize`. -/
def valsize : ℕ := ffValsize h.ffVsize h.ffLevel

/-- Whether the records carry a checksum: at a leaf of a tree of type
`M0_BCT_BTREE_ENC_RAW_HASH`. -/
def HasCrc : Prop := h.ffLevel = 0 ∧ h.crcType = .M0_BCT_BTREE_ENC_RAW_HASH

instance : Decidable h.HasCrc := inferInstanceAs (Decidable (_ ∧ _))

/-- The `crc_size` of `ff_space`, `ff_make` and `ff_del`. -/
def crcSize : ℕ := if h.HasCrc then CRC_VALUE_SIZE else 0

/-- The bytes a value takes with its checksum, `ff_valsize + crc_size`. -/
def vslot : ℕ := h.valsize + h.crcSize

/-- `ff_key`. -/
def key (idx : ℕ) : ℕ := h.hsize + h.ffKsize * idx

/-- `ff_val`. -/
def val (idx : ℕ) : ℕ := h.ffNsize - h.vslot * (idx + 1)

/-- `ff_rec_is_valid` for the record in the slot. -/
def recIsValid (k v : List UInt8) : Bool :=
  k.length == h.ffKsize &&
    (if 0 < h.ffLevel then v.length == INTERNAL_NODE_VALUE_SIZE else v.length == h.ffVsize)

/-- `ff_rec`: the slot of record `idx`. Its precondition `idx <= ff_used` holds at every call
`FfNode.step` makes. -/
def recSlot (idx : ℕ) : NodeSlot := ⟨h.key idx, h.ffKsize, h.val idx, h.valsize⟩

/-- The checksum bytes stored after the value `v`. -/
def crcOf (v : List UInt8) : List UInt8 := if h.HasCrc then crcWord v else []

end FfHead

namespace FfNode

section Ops

variable (n : FfNode)

/-- `ff_space`. -/
def space : ℤ := (n.head.ffNsize : ℤ) - n.head.hsize - ((n.head.ffKsize + n.head.vslot) * n.ffUsed : ℕ)

/-- `ff_isfit`; `none` is its failed `M0_PRE(ff_rec_is_valid(slot))`. -/
def isfit (k v : List UInt8) : Option Bool :=
  if n.head.recIsValid k v then
    some (decide (((n.head.ffKsize + n.head.vslot : ℕ) : ℤ) ≤ n.space))
  else none

/-- `ff_make`: unless the slot is the last one, the keys and the values from `idx` on move
one slot on; the count grows, as the `uint16_t` it is. -/
def make (idx : ℕ) : FfNode :=
  if n.ffUsed = 0 ∨ idx = n.ffUsed then { n with ffUsed := (n.ffUsed + 1) % 2 ^ 16 }
  else
    let keyAddr := n.head.key idx
    let valAddr := n.head.val (n.ffUsed - 1)
    let mem₁ := memmove n.mem (keyAddr + n.head.ffKsize) keyAddr (n.head.ffKsize * (n.ffUsed - idx))
    { n with
      mem := memmove mem₁ (valAddr - n.head.vslot) valAddr (n.head.vslot * (n.ffUsed - idx))
      ffUsed := (n.ffUsed + 1) % 2 ^ 16 }

/-- `ff_del`; `none` is its failed `M0_PRE(h->ff_used > 0 && idx < h->ff_used)`. Unless the
record is the last one, the keys and the values after it move one slot back. -/
def del (idx : ℕ) : Option FfNode :=
  if ¬ (0 < n.ffUsed ∧ idx < n.ffUsed) then none
  else if idx = n.ffUsed - 1 then some { n with ffUsed := n.ffUsed - 1 }
  else
    let keyAddr := n.head.key idx
    let valAddr := n.head.val (n.ffUsed - 1)
    let mem₁ := memmove n.mem keyAddr (keyAddr + n.head.ffKsize)
      (n.head.ffKsize * (n.ffUsed - idx - 1))
    some { n with
      mem := memmove mem₁ (valAddr + n.head.vslot) valAddr (n.head.vslot * (n.ffUsed - idx - 1))
      ffUsed := n.ffUsed - 1 }

/-- `ff_val_resize`: values have one size, so it only checks its preconditions
`vsize_diff == 0`, a leaf, and an index in the node. -/
def valResize (idx : ℕ) (diff : ℤ) : Option FfNode :=
  if diff = 0 ∧ ¬ 0 < n.head.ffLevel ∧ idx < n.ffUsed ∧ 0 < n.ffUsed then some n else none

/-- `ff_done` after a modification: at a leaf of a tree that stores checksums, the hash of the
value at `idx` is written after it. -/
def done (idx : ℕ) : FfNode :=
  if n.head.HasCrc then
    let valAddr := n.head.val idx
    { n with
      mem := memWrite n.mem (valAddr + n.head.ffVsize)
        (crcWord (memRead n.mem valAddr n.head.ffVsize)) }
  else n

/-- The caller's record copied into a slot. -/
def fill (s : NodeSlot) (k v : List UInt8) : FfNode := { n with mem := s.copyRecord n.mem k v }

/-- The caller's value copied into a slot. -/
def fillValue (s : NodeSlot) (v : List UInt8) : FfNode := { n with mem := s.copyValue n.mem v }

end Ops

/-- `ff_init` of a node of `nsize` bytes whose head has `hsize` bytes, then `ff_set_level`:
the head is zeroed (no record), the sizes and the checksum type are set, each cut to the width
of its field (`uint16_t` sizes, a `uint32_t` node size, a `uint8_t` level), and the bytes after
the head are whatever the node held. `none` is a failed `M0_PRE(ksize != 0)` or
`M0_PRE(vsize != 0)`, checked on the `int` arguments. -/
def init (mem : ℕ → UInt8) (hsize ksize vsize nsize : ℕ) (crc : BtreeCrcType) (lvl : ℕ) :
    Option FfNode :=
  if ksize ≠ 0 ∧ vsize ≠ 0 then
    some ⟨⟨lvl % 2 ^ 8, ksize % 2 ^ 16, vsize % 2 ^ 16, nsize % 2 ^ 32, crc, hsize⟩, 0, mem⟩
  else none

/-- A request to an ff node with the caller's side: `ff_isfit` before a make (the caller only
makes a slot it has room for, at an index up to the count), the copy of the record into the
slot `ff_rec` returns, and `ff_done`; for an update, the size difference read through `ff_rec`,
`ff_val_resize`, the copy of the value and `ff_done`. -/
def step : NodeOp → FfNode → Option FfNode
  | .make idx k v, n =>
    if n.isfit k v = some true ∧ idx ≤ n.ffUsed then
      let n₁ := n.make idx
      some ((n₁.fill (n₁.head.recSlot idx) k v).done idx)
    else none
  | .del idx, n => n.del idx
  | .valResize idx v, n =>
    match n.valResize idx (v.length - (n.head.recSlot idx).valSize) with
    | some n₁ => some ((n₁.fillValue (n₁.head.recSlot idx) v).done idx)
    | none => none

/-! ### What each operation does -/

section Spec

variable {n : FfNode}

@[simp] lemma length_crcOf (h : FfHead) (v : List UInt8) : (h.crcOf v).length = h.crcSize := by
  unfold FfHead.crcOf FfHead.crcSize
  split <;> simp

lemma valsize_of_hasCrc {h : FfHead} (hc : h.HasCrc) : h.valsize = h.ffVsize := by
  simp [FfHead.valsize, ffValsize, hc.1]

lemma recIsValid_iff {h : FfHead} {k v : List UInt8} :
    h.recIsValid k v = true ↔ k.length = h.ffKsize ∧ v.length = h.valsize := by
  unfold FfHead.recIsValid FfHead.valsize ffValsize
  by_cases hl : h.ffLevel = 0 <;> simp [hl, Nat.pos_iff_ne_zero]

/-- `ff_isfit` accepts a valid record exactly when one more key and value fit after the
head. -/
lemma isfit_eq_some_true {k v : List UInt8} :
    n.isfit k v = some true ↔ (k.length = n.head.ffKsize ∧ v.length = n.head.valsize) ∧
      n.head.hsize + (n.head.ffKsize + n.head.vslot) * (n.ffUsed + 1) ≤ n.head.ffNsize := by
  unfold isfit space
  rw [← recIsValid_iff]
  split
  · simp only [Option.some.injEq, decide_eq_true_eq, true_and, *]
    push_cast
    constructor <;> intro h <;> nlinarith
  · simp_all

/-- `ff_make` at an index up to the count: the keys from `idx` on move up one key and the
values from `idx` on move down one value; both moves are of no bytes when the slot is the last
one, the branch `ff_make` takes without moving. -/
lemma make_eq {idx : ℕ} (hidx : idx ≤ n.ffUsed) :
    n.make idx = { n with
      ffUsed := (n.ffUsed + 1) % 2 ^ 16
      mem := memmove (memmove n.mem (n.head.key idx + n.head.ffKsize) (n.head.key idx)
          (n.head.ffKsize * (n.ffUsed - idx)))
        (n.head.ffNsize - n.head.vslot * idx - n.head.vslot * (n.ffUsed - idx) - n.head.vslot)
        (n.head.ffNsize - n.head.vslot * idx - n.head.vslot * (n.ffUsed - idx))
        (n.head.vslot * (n.ffUsed - idx)) } := by
  unfold make
  split
  · next h =>
    have h0 : n.ffUsed - idx = 0 := by omega
    simp only [h0, Nat.mul_zero, memmove_zero]
  · next h =>
    have hsum : n.head.vslot * idx + n.head.vslot * (n.ffUsed - idx) =
        n.head.vslot * (n.ffUsed - 1 + 1) := by
      rw [← Nat.mul_add]
      congr 1
      omega
    have hv : n.head.val (n.ffUsed - 1) =
        n.head.ffNsize - n.head.vslot * idx - n.head.vslot * (n.ffUsed - idx) := by
      unfold FfHead.val
      omega
    simp only [hv]

/-- `ff_del` at an index in the node: the keys and the values after `idx` move one slot back;
both moves are of no bytes when the record is the last one. -/
lemma del_eq_some {idx : ℕ} {n' : FfNode} :
    n.del idx = some n' ↔ idx < n.ffUsed ∧ n' = { n with
      ffUsed := n.ffUsed - 1
      mem := memmove (memmove n.mem (n.head.key idx) (n.head.key idx + n.head.ffKsize)
          (n.head.ffKsize * (n.ffUsed - idx - 1)))
        (n.head.ffNsize - n.head.vslot * idx - n.head.vslot -
          n.head.vslot * (n.ffUsed - idx - 1) + n.head.vslot)
        (n.head.ffNsize - n.head.vslot * idx - n.head.vslot - n.head.vslot * (n.ffUsed - idx - 1))
        (n.head.vslot * (n.ffUsed - idx - 1)) } := by
  unfold del
  split
  · next h =>
    simp only [reduceCtorEq, false_iff, not_and]
    omega
  · next h =>
    split
    · next hlast =>
      have h0 : n.ffUsed - idx - 1 = 0 := by omega
      simp only [h0, Nat.mul_zero, memmove_zero, Option.some.injEq]
      constructor
      · rintro rfl
        exact ⟨by omega, rfl⟩
      · rintro ⟨-, rfl⟩
        rfl
    · next hlast =>
      have hsum : n.head.vslot * idx + n.head.vslot + n.head.vslot * (n.ffUsed - idx - 1) =
          n.head.vslot * (n.ffUsed - 1 + 1) := by
        rw [← Nat.mul_succ, ← Nat.mul_add]
        congr 1
        omega
      have hv : n.head.val (n.ffUsed - 1) = n.head.ffNsize - n.head.vslot * idx -
          n.head.vslot - n.head.vslot * (n.ffUsed - idx - 1) := by
        unfold FfHead.val
        omega
      simp only [hv, Option.some.injEq]
      constructor
      · rintro rfl
        exact ⟨by omega, rfl⟩
      · rintro ⟨-, rfl⟩
        rfl

/-- `ff_done` after the value at `idx` was written: at a leaf of a checksummed tree the
checksum of the value follows it. -/
lemma done_memWrite {idx : ℕ} {M : ℕ → UInt8} {v : List UInt8} (hv : v.length = n.head.valsize) :
    ({ n with mem := memWrite M (n.head.val idx) v } : FfNode).done idx =
      { n with mem := memWrite M (n.head.val idx) (v ++ n.head.crcOf v) } := by
  unfold done FfHead.crcOf
  by_cases hc : n.head.HasCrc
  · have hvs : v.length = n.head.ffVsize := hv.trans (valsize_of_hasCrc hc)
    have hread : memRead (memWrite M (n.head.val idx) v) (n.head.val idx) n.head.ffVsize = v := by
      rw [← hvs]
      exact memRead_memWrite_self _ _
    rw [if_pos hc, if_pos hc]
    dsimp only
    rw [hread, ← hvs, memWrite_append]
  · rw [if_neg hc, if_neg hc, List.append_nil]

/-- A make with the caller's side: the room is made, then the record copied into the slot
`ff_rec` gives and its checksum written. -/
lemma step_make_eq {idx : ℕ} {k v : List UInt8} {n' : FfNode}
    (hs : step (.make idx k v) n = some n') :
    (k.length = n.head.ffKsize ∧ v.length = n.head.valsize) ∧
      n.head.hsize + (n.head.ffKsize + n.head.vslot) * (n.ffUsed + 1) ≤ n.head.ffNsize ∧
      idx ≤ n.ffUsed ∧
      n' = { n with
        ffUsed := (n.ffUsed + 1) % 2 ^ 16
        mem := memWrite (memWrite (n.make idx).mem (n.head.key idx) k) (n.head.val idx)
          (v ++ n.head.crcOf v) } := by
  simp only [step] at hs
  split at hs
  · next h =>
    obtain ⟨hfit, hidx⟩ := h
    obtain ⟨⟨hk, hv⟩, hroom⟩ := isfit_eq_some_true.mp hfit
    refine ⟨⟨hk, hv⟩, hroom, hidx, ?_⟩
    cases hs
    rw [make_eq hidx]
    exact done_memWrite hv
  · cases hs

/-- An update with the caller's side: `ff_val_resize` accepts only a value of the same size at
a leaf, which is copied into the slot `ff_rec` gives, with its checksum. -/
lemma step_valResize_eq {idx : ℕ} {v : List UInt8} {n' : FfNode}
    (hs : step (.valResize idx v) n = some n') :
    idx < n.ffUsed ∧ v.length = n.head.valsize ∧
      n' = { n with mem := memWrite n.mem (n.head.val idx) (v ++ n.head.crcOf v) } := by
  simp only [step, valResize, FfHead.recSlot] at hs
  split at hs
  · next n₁ h₁ =>
    obtain ⟨⟨hdiff, -, hidx, -⟩, hn⟩ := Option.ite_none_right_eq_some.mp h₁
    have hv : v.length = n.head.valsize := by omega
    cases hn
    cases hs
    exact ⟨hidx, hv, done_memWrite hv⟩
  · cases hs

/-- A request leaves the head as it is. -/
lemma step_head {op : NodeOp} {n' : FfNode} (hs : step op n = some n') : n'.head = n.head := by
  cases op with
  | make idx k v => obtain ⟨-, -, -, rfl⟩ := step_make_eq hs; rfl
  | del idx => obtain ⟨-, rfl⟩ := del_eq_some.mp hs; rfl
  | valResize idx v => obtain ⟨-, -, rfl⟩ := step_valResize_eq hs; rfl

end Spec

/-! ### The records an ff node holds -/

/-- The bytes of an ff node hold the records `recs` in index order: one per slot in use, of
the node's key and value sizes; the key array reads back as their keys and the value array
as their values, each followed by its checksum where the records carry one; and both arrays
fit in the node. -/
structure Holds (n : FfNode) (recs : List NodeRec) : Prop where
  used : n.ffUsed = recs.length
  sizes : ∀ r ∈ recs, r.1.length = n.head.ffKsize ∧ r.2.length = n.head.valsize
  keys : readUp n.mem n.head.hsize (List.replicate n.ffUsed n.head.ffKsize) = recs.map Prod.fst
  vals : readDown n.mem n.head.ffNsize (List.replicate n.ffUsed n.head.vslot) =
    recs.map fun r => r.2 ++ n.head.crcOf r.2
  fits : n.head.hsize + (n.head.ffKsize + n.head.vslot) * n.ffUsed ≤ n.head.ffNsize

section Holds

variable {n : FfNode} {l : List NodeRec}

/-- The key array cut at a slot: the keys before it and the keys from it on. -/
lemma Holds.keys_cut (h : n.Holds l) {j : ℕ} (hj : j ≤ n.ffUsed) :
    readUp n.mem n.head.hsize (List.replicate j n.head.ffKsize) = (l.take j).map Prod.fst ∧
      readUp n.mem (n.head.key j) (List.replicate (n.ffUsed - j) n.head.ffKsize) =
        (l.drop j).map Prod.fst := by
  have hcut : readUp n.mem n.head.hsize
      (List.replicate j n.head.ffKsize ++ List.replicate (n.ffUsed - j) n.head.ffKsize) =
      (l.take j).map Prod.fst ++ (l.drop j).map Prod.fst := by
    rw [← replicate_cut hj, h.keys, ← List.map_append, List.take_append_drop]
  have hlen : (List.replicate j n.head.ffKsize).length = ((l.take j).map Prod.fst).length := by
    simp [← h.used, hj]
  have := readUp_append_eq hcut hlen
  rwa [sum_replicate_eq] at this

/-- The value array cut at a slot: the values before it and the values from it on. -/
lemma Holds.vals_cut (h : n.Holds l) {j : ℕ} (hj : j ≤ n.ffUsed) :
    readDown n.mem n.head.ffNsize (List.replicate j n.head.vslot) =
        (l.take j).map (fun r => r.2 ++ n.head.crcOf r.2) ∧
      readDown n.mem (n.head.ffNsize - n.head.vslot * j)
          (List.replicate (n.ffUsed - j) n.head.vslot) =
        (l.drop j).map (fun r => r.2 ++ n.head.crcOf r.2) := by
  have hcut : readDown n.mem n.head.ffNsize
      (List.replicate j n.head.vslot ++ List.replicate (n.ffUsed - j) n.head.vslot) =
      (l.take j).map (fun r => r.2 ++ n.head.crcOf r.2) ++
        (l.drop j).map (fun r => r.2 ++ n.head.crcOf r.2) := by
    rw [← replicate_cut hj, h.vals, ← List.map_append, List.take_append_drop]
  have hlen : (List.replicate j n.head.vslot).length =
      ((l.take j).map (fun r => r.2 ++ n.head.crcOf r.2)).length := by
    simp [← h.used, hj]
  have := readDown_append_eq hcut hlen
  rwa [sum_replicate_eq] at this

/-- Record `i` in the node's bytes: its key, its value, and the checksum after the value. -/
lemma Holds.slot (h : n.Holds l) {i : ℕ} (hi : i < l.length) :
    memRead n.mem (n.head.key i) n.head.ffKsize = l[i].1 ∧
      memRead n.mem (n.head.val i) n.head.valsize = l[i].2 ∧
      memRead n.mem (n.head.val i + n.head.valsize) n.head.crcSize = n.head.crcOf l[i].2 := by
  have hu : i < n.ffUsed := h.used ▸ hi
  have hk := congrArg (fun L => L[i]?) h.keys
  have hv := congrArg (fun L => L[i]?) h.vals
  simp only [readUp_replicate, readDown_replicate, List.getElem?_map, List.getElem?_range hu,
    List.getElem?_eq_getElem hi, Option.map_some, Option.some.injEq] at hk hv
  have hval : n.head.ffNsize - n.head.vslot * (i + 1) = n.head.val i := rfl
  rw [hval, FfHead.vslot, memRead_add] at hv
  obtain ⟨hv₁, hv₂⟩ := List.append_inj hv (by simp [(h.sizes _ (List.getElem_mem hi)).2])
  exact ⟨hk, hv₁, hv₂⟩

/-- The records `ff_rec` reads at the slots in use are the records held. -/
theorem Holds.read_recSlot (h : n.Holds l) :
    (List.range n.ffUsed).map (fun i => (n.head.recSlot i).read n.mem) = l := by
  refine List.ext_getElem (by simp [h.used]) fun i h₁ h₂ => ?_
  obtain ⟨hk, hv, -⟩ := h.slot h₂
  simp [NodeSlot.read, FfHead.recSlot, hk, hv]

/-- Each leaf value of a checksummed tree is followed by its FNV-1 hash. -/
theorem Holds.crc_word (h : n.Holds l) (hc : n.head.HasCrc) {i : ℕ} (hi : i < l.length) :
    memRead n.mem (n.head.val i + n.head.valsize) CRC_VALUE_SIZE = crcWord l[i].2 := by
  have := (h.slot hi).2.2
  simpa [FfHead.crcSize, FfHead.crcOf, hc] using this

/-- `ff_space` is the node's bytes less the head and the bytes the records take, keys,
values and checksums, and it is not negative: the key array ends before the value array
begins. -/
theorem Holds.space_eq (h : n.Holds l) :
    n.space = (n.head.ffNsize : ℤ) - n.head.hsize -
      ((l.map fun r => r.1.length + r.2.length + n.head.crcSize).sum : ℕ) ∧ 0 ≤ n.space := by
  have hsum : (l.map fun r => r.1.length + r.2.length + n.head.crcSize).sum =
      (n.head.ffKsize + n.head.vslot) * n.ffUsed := by
    rw [List.map_congr_left (g := fun _ => n.head.ffKsize + n.head.vslot) fun r hr => by
      rw [(h.sizes r hr).1, (h.sizes r hr).2, FfHead.vslot, Nat.add_assoc]]
    simp [h.used, Nat.mul_comm]
  have hfits := h.fits
  refine ⟨by rw [space, hsum], ?_⟩
  unfold space
  omega

/-! ### Each request keeps the records -/

/-- A make that leaves fewer than `2 ^ 16` records keeps the records, with the new record
inserted at its index. -/
theorem step_make {idx : ℕ} {k v : List UInt8} {n' : FfNode} (h : n.Holds l)
    (hcap : l.length + 1 < 2 ^ 16) (hs : step (.make idx k v) n = some n') :
    n'.Holds (ntMake l idx (k, v)) := by
  obtain ⟨⟨hk, hv⟩, hroom, hidx, rfl⟩ := step_make_eq hs
  -- below `2 ^ 16` records the count does not wrap
  have hu : (n.ffUsed + 1) % 2 ^ 16 = n.ffUsed + 1 := Nat.mod_eq_of_lt (h.used ▸ hcap)
  obtain ⟨hK₁, hK₂⟩ := h.keys_cut hidx
  obtain ⟨hV₁, hV₂⟩ := h.vals_cut hidx
  -- the arithmetic of the two arrays cut at `idx`, with one slot more after the make
  have hKu : n.head.ffKsize * idx + n.head.ffKsize * (n.ffUsed - idx) =
      n.head.ffKsize * n.ffUsed := by
    rw [← Nat.mul_add, Nat.add_sub_cancel' hidx]
  have hVu : n.head.vslot * idx + n.head.vslot * (n.ffUsed - idx) = n.head.vslot * n.ffUsed := by
    rw [← Nat.mul_add, Nat.add_sub_cancel' hidx]
  have hroom' : n.head.hsize + (n.head.ffKsize * n.ffUsed + n.head.ffKsize) +
      (n.head.vslot * n.ffUsed + n.head.vslot) ≤ n.head.ffNsize := by
    have e : (n.head.ffKsize + n.head.vslot) * (n.ffUsed + 1) =
        n.head.ffKsize * n.ffUsed + n.head.ffKsize + (n.head.vslot * n.ffUsed + n.head.vslot) := by
      ring
    omega
  have hkey : n.head.key idx = n.head.hsize + (List.replicate idx n.head.ffKsize).sum := by
    rw [sum_replicate_eq]
    rfl
  have hval : n.head.val idx = n.head.ffNsize - n.head.vslot * idx - n.head.vslot := by
    unfold FfHead.val
    rw [Nat.mul_succ]
    omega
  have hbs : (v ++ n.head.crcOf v).length = n.head.vslot := by
    simp [hv, FfHead.vslot]
  rw [make_eq hidx, hu]
  dsimp only
  -- the copy of the key touches none of the values moved, so it commutes with their move
  rw [memWrite_memmove_comm (Or.inl (by rw [hk, hkey, sum_replicate_eq]; omega))
    (Or.inl (by rw [hk, hkey, sum_replicate_eq]; omega)), hval]
  refine ⟨?_, ?_, ?_, ?_, ?_⟩ <;> dsimp only
  · rw [length_ntMake _ (h.used ▸ hidx), h.used]
  · intro r hr
    rcases mem_ntMake.mp hr with rfl | hr
    · exact ⟨hk, hv⟩
    · exact h.sizes r hr
  · rw [ntMake_eq_take_drop_map, replicate_succ_cut hidx,
      readUp_memWrite_of_disjoint (Or.inl (by
        simp only [List.sum_append, List.sum_cons, sum_replicate_eq]; omega)),
      readUp_memmove_of_disjoint (Or.inl (by
        simp only [List.sum_append, List.sum_cons, sum_replicate_eq]; omega)),
      readUp_insert hkey hk (sum_replicate_eq _ _).symm, hK₁, hK₂]
  · rw [ntMake_eq_take_drop_map, replicate_succ_cut hidx,
      readDown_insert (by rw [sum_replicate_eq]) hbs (sum_replicate_eq _ _).symm
        (by simp only [sum_replicate_eq]; omega)]
    rw [readDown_memWrite_of_disjoint (by simp only [sum_replicate_eq]; omega)
        (Or.inr (by rw [hk, hkey]; simp only [sum_replicate_eq]; omega)),
      readDown_memmove_of_disjoint (by simp only [sum_replicate_eq]; omega)
        (Or.inr (by rw [hkey]; simp only [sum_replicate_eq]; omega)),
      readDown_memWrite_of_disjoint (by simp only [sum_replicate_eq]; omega)
        (Or.inr (by rw [hk, hkey]; simp only [sum_replicate_eq]; omega)),
      readDown_memmove_of_disjoint (by simp only [sum_replicate_eq]; omega)
        (Or.inr (by rw [hkey]; simp only [sum_replicate_eq]; omega)), hV₁, hV₂]
  · have e : (n.head.ffKsize + n.head.vslot) * (n.ffUsed + 1) =
        n.head.ffKsize * n.ffUsed + n.head.ffKsize + (n.head.vslot * n.ffUsed + n.head.vslot) := by
      ring
    omega

/-- A delete keeps the records, less the one at its index. -/
theorem step_del {idx : ℕ} {n' : FfNode} (h : n.Holds l) (hs : step (.del idx) n = some n') :
    n'.Holds (bnodeDel l idx) := by
  obtain ⟨hidx, rfl⟩ := del_eq_some.mp hs
  obtain ⟨hK₁, -⟩ := h.keys_cut hidx.le
  obtain ⟨-, hK₂⟩ := h.keys_cut (Nat.succ_le_of_lt hidx)
  obtain ⟨hV₁, -⟩ := h.vals_cut hidx.le
  obtain ⟨-, hV₂⟩ := h.vals_cut (Nat.succ_le_of_lt hidx)
  -- the arrays cut at `idx` and at `idx + 1`, around the record deleted
  have hKu : n.head.ffKsize * idx + n.head.ffKsize + n.head.ffKsize * (n.ffUsed - (idx + 1)) =
      n.head.ffKsize * n.ffUsed := by
    rw [← Nat.mul_succ, ← Nat.mul_add]
    congr 1
    omega
  have hVu : n.head.vslot * idx + n.head.vslot + n.head.vslot * (n.ffUsed - (idx + 1)) =
      n.head.vslot * n.ffUsed := by
    rw [← Nat.mul_succ, ← Nat.mul_add]
    congr 1
    omega
  have hfits : n.head.hsize + n.head.ffKsize * n.ffUsed + n.head.vslot * n.ffUsed ≤
      n.head.ffNsize := by
    have := h.fits
    rw [Nat.add_mul] at this
    omega
  have hcut : ∀ s : ℕ, List.replicate (n.ffUsed - 1) s =
      List.replicate idx s ++ List.replicate (n.ffUsed - (idx + 1)) s := fun s => by
    rw [replicate_cut (show idx ≤ n.ffUsed - 1 by omega)]
    congr 2
    omega
  have hkey : n.head.key idx = n.head.hsize + (List.replicate idx n.head.ffKsize).sum := by
    rw [sum_replicate_eq]
    rfl
  have hkey₁ : n.head.key (idx + 1) = n.head.key idx + n.head.ffKsize := by
    simp only [FfHead.key, Nat.mul_succ, Nat.add_assoc]
  have hlen : n.ffUsed - idx - 1 = n.ffUsed - (idx + 1) := by omega
  rw [hlen]
  refine ⟨?_, ?_, ?_, ?_, ?_⟩ <;> dsimp only
  · rw [length_bnodeDel _ (h.used ▸ hidx), h.used]
  · intro r hr
    have hr' : r ∈ l.take idx ++ l.drop (idx + 1) := hr
    rcases List.mem_append.mp hr' with hr' | hr'
    · exact h.sizes r (List.mem_of_mem_take hr')
    · exact h.sizes r (List.mem_of_mem_drop hr')
  · rw [bnodeDel_eq_take_drop_map, hcut,
      readUp_memmove_of_disjoint (Or.inl (by
        simp only [List.sum_append, sum_replicate_eq]; omega)),
      readUp_erase hkey (sum_replicate_eq _ _).symm, hK₁, ← hkey₁, hK₂]
  · rw [bnodeDel_eq_take_drop_map, hcut,
      readDown_erase (by rw [sum_replicate_eq]) (sum_replicate_eq _ _).symm
        (by simp only [sum_replicate_eq]; omega),
      readDown_memmove_of_disjoint (by simp only [sum_replicate_eq]; omega)
        (Or.inr (by rw [hkey]; simp only [sum_replicate_eq]; omega)),
      readDown_memmove_of_disjoint (by simp only [sum_replicate_eq]; omega)
        (Or.inr (by rw [hkey]; simp only [sum_replicate_eq]; omega)), hV₁,
      show n.head.ffNsize - n.head.vslot * idx - n.head.vslot =
        n.head.ffNsize - n.head.vslot * (idx + 1) by rw [Nat.mul_succ]; omega, hV₂]
  · rw [Nat.add_mul]
    have : n.head.ffKsize * (n.ffUsed - 1) + n.head.vslot * (n.ffUsed - 1) ≤
        n.head.ffKsize * n.ffUsed + n.head.vslot * n.ffUsed :=
      Nat.add_le_add (Nat.mul_le_mul_left _ (Nat.sub_le _ _))
        (Nat.mul_le_mul_left _ (Nat.sub_le _ _))
    omega

/-- An update keeps the records, with the value at its index replaced. -/
theorem step_valResize {idx : ℕ} {v : List UInt8} {n' : FfNode} (h : n.Holds l)
    (hs : step (.valResize idx v) n = some n') :
    n'.Holds (l.modify idx fun r => (r.1, v)) := by
  obtain ⟨hidx, hv, rfl⟩ := step_valResize_eq hs
  have hidx' : idx < l.length := h.used ▸ hidx
  obtain ⟨hV₁, -⟩ := h.vals_cut hidx.le
  obtain ⟨-, hV₂⟩ := h.vals_cut (Nat.succ_le_of_lt hidx)
  have hVu : n.head.vslot * idx + n.head.vslot + n.head.vslot * (n.ffUsed - (idx + 1)) =
      n.head.vslot * n.ffUsed := by
    rw [← Nat.mul_succ, ← Nat.mul_add]
    congr 1
    omega
  have hfits : n.head.hsize + n.head.ffKsize * n.ffUsed + n.head.vslot * n.ffUsed ≤
      n.head.ffNsize := by
    have := h.fits
    rw [Nat.add_mul] at this
    omega
  have hval : n.head.val idx = n.head.ffNsize - n.head.vslot * idx - n.head.vslot := by
    unfold FfHead.val
    rw [Nat.mul_succ]
    omega
  have hbs : (v ++ n.head.crcOf v).length = n.head.vslot := by
    simp [hv, FfHead.vslot]
  refine ⟨?_, ?_, ?_, ?_, h.fits⟩ <;> dsimp only
  · rw [List.length_modify, h.used]
  · intro r hr
    obtain ⟨i, hi, rfl⟩ := List.getElem_of_mem hr
    rw [List.getElem_modify]
    have hi' : i < l.length := by simpa using hi
    split
    · exact ⟨(h.sizes _ (List.getElem_mem hi')).1, hv⟩
    · exact h.sizes _ (List.getElem_mem hi')
  · -- the keys lie below the values, so the copy of the value leaves them
    have hmap : (l.modify idx fun r => (r.1, v)).map Prod.fst = l.map Prod.fst := by
      refine List.ext_getElem (by simp) fun i h₁ h₂ => ?_
      simp only [List.getElem_map, List.getElem_modify]
      split <;> rfl
    rw [readUp_memWrite_of_disjoint (Or.inl (by
        rw [sum_replicate_eq, hval]
        have : n.head.vslot * idx + n.head.vslot ≤ n.head.vslot * n.ffUsed := by omega
        omega)), h.keys, hmap]
  · rw [modify_eq_take_drop_map _ hidx', replicate_cut_at hidx, hval,
      readDown_overwrite (by rw [sum_replicate_eq]) hbs (by simp only [sum_replicate_eq]; omega),
      hV₁, show n.head.ffNsize - n.head.vslot * idx - n.head.vslot =
        n.head.ffNsize - n.head.vslot * (idx + 1) by rw [Nat.mul_succ]; omega, hV₂]

/-- Every request that leaves fewer than `2 ^ 16` records keeps the records, with the request
applied to them. -/
theorem step_holds (op : NodeOp) (n n' : FfNode) (l : List NodeRec) (h : n.Holds l)
    (hcap : (op.apply l).length < 2 ^ 16) (hs : step op n = some n') : n'.Holds (op.apply l) := by
  cases op with
  | make idx k v =>
    have hidx : idx ≤ l.length := h.used ▸ (step_make_eq hs).2.2.1
    exact step_make h (by rwa [NodeOp.apply, length_ntMake _ hidx] at hcap) hs
  | del idx => exact step_del h hs
  | valResize idx v => exact step_valResize h hs

/-- A node just initialised, whose head fits in it and whose size fits its `uint32_t` field,
holds no record. -/
lemma init_holds {mem : ℕ → UInt8} {hsize ksize vsize nsize lvl : ℕ} {crc : BtreeCrcType}
    {n : FfNode} (hinit : init mem hsize ksize vsize nsize crc lvl = some n)
    (hhead : hsize ≤ nsize) (hsmall : nsize < 2 ^ 32) : n.Holds [] := by
  unfold init at hinit
  split at hinit
  · cases hinit
    exact ⟨rfl, by simp, rfl, rfl, by dsimp only; rw [Nat.mod_eq_of_lt hsmall]; omega⟩
  · cases hinit

/-- From `ff_init`, every run of requests along which the node holds fewer than `2 ^ 16`
records reads back as the requests applied to the empty record list. -/
theorem run_holds {mem : ℕ → UInt8} {hsize ksize vsize nsize lvl : ℕ} {crc : BtreeCrcType}
    {n₀ n : FfNode} {ops : List NodeOp} (hinit : init mem hsize ksize vsize nsize crc lvl = some n₀)
    (hhead : hsize ≤ nsize) (hsmall : nsize < 2 ^ 32) (hcap : NodeOp.RunBelow (2 ^ 16) ops [])
    (hrun : NodeOp.runOn step ops n₀ = some n) : n.Holds (NodeOp.run ops []) :=
  NodeOp.runOn_holds step step_holds ops n₀ n [] (init_holds hinit hhead hsmall) hcap hrun

end Holds

end FfNode

end Motr
