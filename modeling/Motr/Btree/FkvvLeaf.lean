import Motr.Btree.Fkvv

/-!
The records an fkvv leaf holds, and the fkvv format as a whole.

A leaf holds the record list `recs` (`FkvvNode.LeafHolds`) when its key units read back as the
keys, each with the running offset of its value (`FkvvHead.leafUnits`), and its values, each
followed by its checksum, read back downward from the end of the node in index order:

* `LeafHolds.readOffset_eq`: offset `i` is the bytes the values `0..i` take
  (`FkvvHead.runOffset`), so the offsets increase strictly from a positive first one
  (`LeafHolds.readOffset_lt`, `LeafHolds.readOffset_zero_pos`);
* `LeafHolds.read_recSlot`, `LeafHolds.crc_word`: `fkvv_rec` reads the records back, and
  each value of a checksummed tree is followed by its hash;
* `LeafHolds.space_eq`: `fkvv_space` is the node less the head and the bytes in use;
* `step_make_leaf`, `step_del_leaf`, `step_valResize_leaf`: each request keeps the records;
* `Holds`, `step_holds`, `run_holds`: with the internal nodes, which are ff nodes
  (`step_internal`), every run from `fkvv_init` reads back as the reference list.
-/

namespace Motr

namespace FkvvHead

variable (h : FkvvHead)

/-- The running offset after the first `i` records: the bytes their values and checksums take
at the end of a leaf. -/
def runOffset (recs : List NodeRec) (i : ℕ) : ℕ := ((recs.take i).map h.slotSize).sum

/-- The bytes a record takes in a node besides its head: its key and value at an internal
node; at a leaf also the offset of its value and its checksum. -/
def recBytes (r : NodeRec) : ℕ :=
  if h.IsInternal then r.1.length + r.2.length else r.1.length + OFFSET_SIZE + h.slotSize r

variable {h} {l : List NodeRec}

@[simp] lemma length_crcOf (v : List UInt8) : (h.crcOf v).length = h.crcSize := by
  unfold crcOf crcSize
  split <;> simp

@[simp] lemma offsetsAdd_zero (d : ℤ) (m : ℕ → UInt8) (lo : ℕ) : h.offsetsAdd d m lo 0 = m := rfl

/-- A `uint32_t` offset changed by `d`, when the result is in range. -/
lemma u32Add_eq {x y : ℕ} {d : ℤ} (hy : (y : ℤ) = x + d) (hlt : y < 2 ^ 32) : u32Add x d = y := by
  unfold u32Add
  rw [← hy]
  omega

/-- The units of records whose first value changes by `d` bytes: each offset changes by `d`. -/
lemma leafUnits_cons_resize {acc : ℕ} {d : ℤ} {r : NodeRec} {v : List UInt8} {rs : List NodeRec}
    (hk : ∀ r' ∈ r :: rs, r'.1.length = h.fkvvKsize)
    (hd : (h.slotSize (r.1, v) : ℤ) = h.slotSize r + d) :
    h.leafUnits acc ((r.1, v) :: rs) = (h.leafUnits acc (r :: rs)).map (h.bumpUnit d) := by
  have hr := hk r (List.mem_cons_self ..)
  simp only [leafUnits, List.map_cons, List.cons.injEq]
  refine ⟨?_, leafUnits_shift (fun r' hr' => hk r' (List.mem_cons_of_mem _ hr'))
    (by push_cast; omega)⟩
  rw [bumpUnit, List.take_left' hr, List.drop_left' hr,
    leBytes_u32Add (y := acc + h.slotSize (r.1, v)) (by push_cast; omega)]

@[simp] lemma runOffset_zero : h.runOffset l 0 = 0 := by
  simp [runOffset]

lemma runOffset_succ {i : ℕ} (hi : i < l.length) :
    h.runOffset l (i + 1) = h.runOffset l i + h.slotSize l[i] := by
  have htake : l.take (i + 1) = l.take i ++ [l[i]] := by
    rw [List.take_add_one, List.getElem?_eq_getElem hi]
    rfl
  rw [runOffset, runOffset, htake, List.map_append, List.sum_append, List.map_singleton,
    List.sum_singleton]

/-- The values before `i` and the values from `i` on are all of them. -/
lemma runOffset_add_drop (i : ℕ) :
    h.runOffset l i + ((l.drop i).map h.slotSize).sum = (l.map h.slotSize).sum := by
  rw [runOffset, ← List.sum_append, ← List.map_append, List.take_append_drop]

lemma runOffset_length : h.runOffset l l.length = (l.map h.slotSize).sum := by
  rw [runOffset, List.take_length]

lemma runOffset_mono {i j : ℕ} (hij : i ≤ j) : h.runOffset l i ≤ h.runOffset l j := by
  have hcut := runOffset_add_drop (h := h) (l := l.take j) i
  rw [runOffset, List.take_take, Nat.min_eq_left hij] at hcut
  rw [runOffset, runOffset, ← hcut]
  exact Nat.le_add_right _ _

/-- Records whose values are not empty have strictly increasing running offsets. -/
lemma runOffset_lt {i j : ℕ} (hij : i < j) (hj : j ≤ l.length)
    (hpos : ∀ r ∈ l, 0 < r.2.length) : h.runOffset l i < h.runOffset l j := by
  have hi : i < l.length := by omega
  have hv := hpos _ (List.getElem_mem hi)
  calc h.runOffset l i
      < h.runOffset l i + h.slotSize l[i] := by unfold slotSize; omega
    _ = h.runOffset l (i + 1) := (runOffset_succ hi).symm
    _ ≤ h.runOffset l j := runOffset_mono hij

end FkvvHead

namespace FkvvNode

open FkvvHead

/-! ### The caller's copy and `fkvv_done` at a leaf -/

section Fill

variable {n : FkvvNode}

/-- A key copied into unit `idx` leaves the offsets up to `idx`. -/
lemma readOffset_memWrite_key (hl : ¬ n.head.IsInternal) {m : ℕ → UInt8} {idx j : ℕ}
    {k : List UInt8} (hk : k.length = n.head.fkvvKsize) (hj : j ≤ idx) :
    n.head.readOffset (memWrite m (n.head.key idx) k) j = n.head.readOffset m j := by
  apply readOffset_memWrite_of_disjoint
  rw [hk, key_of_not_internal hl]
  rcases Nat.eq_or_lt_of_le hj with rfl | hlt
  · exact Or.inr (valOffsetAddr_eq j).ge
  · have hu : n.head.unit * (j + 1) ≤ n.head.unit * idx := Nat.mul_le_mul_left _ hlt
    have hsucc : n.head.unit * (j + 1) = n.head.unit * j + (n.head.fkvvKsize + OFFSET_SIZE) :=
      Nat.mul_succ _ _
    rw [valOffsetAddr_eq]
    exact Or.inl (by omega)

/-- A value copied at or above the end of offset `idx` leaves the offsets up to `idx`. -/
lemma readOffset_memWrite_value {m : ℕ → UInt8} {idx j a : ℕ} {v : List UInt8}
    (hva : n.head.valOffsetAddr idx + OFFSET_SIZE ≤ a) (hj : j ≤ idx) :
    n.head.readOffset (memWrite m a v) j = n.head.readOffset m j := by
  have := valOffsetAddr_mono (h := n.head) hj
  exact readOffset_memWrite_of_disjoint (Or.inl (by omega))

/-- The caller's record copied into the slot `fkvv_rec` returned at a leaf, then `fkvv_done`:
the value and its checksum end up written as one. -/
lemma fill_done (hl : ¬ n.head.IsInternal) {idx : ℕ} {s : NodeSlot} {k v : List UInt8}
    {n' : FkvvNode} (hs : n.recSlot idx = some s) (hk : k.length = n.head.fkvvKsize)
    (hv : v.length = s.valSize) (hva : n.head.valOffsetAddr idx + OFFSET_SIZE ≤ s.valAddr)
    (hd : (n.fill s k v).done idx = some n') :
    n' = { n with mem := memWrite (memWrite n.mem s.keyAddr k) s.valAddr (v ++ n.head.crcOf v) } := by
  obtain ⟨vs, hvs, rfl⟩ := Option.map_eq_some_iff.mp hs
  have hoff : ∀ j ≤ idx, n.head.readOffset
      (memWrite (memWrite n.mem (n.head.key idx) k) (n.val idx) v) j = n.head.readOffset n.mem j :=
    fun j hj => by rw [readOffset_memWrite_value hva hj, readOffset_memWrite_key hl hk hj]
  have hsize := recValSize_withMem (n := n) (hoff idx le_rfl) (hoff (idx - 1) (Nat.sub_le _ _))
  have hread := memRead_memWrite_self (m := memWrite n.mem (n.head.key idx) k) (n.val idx) v
  rw [fill, NodeSlot.copyRecord,
    done_of_not_internal
      (n := { n with mem := (memWrite (memWrite n.mem (n.head.key idx) k) (n.val idx) v) }) hl
      (hsize.trans hvs), val_withMem (hoff idx le_rfl)] at hd
  dsimp only at hd hv ⊢
  rw [← hv, hread, memWrite_append] at hd
  exact (Option.some.inj hd).symm

/-- The caller's value copied into the slot `fkvv_rec` returned at a leaf, then `fkvv_done`. -/
lemma fillValue_done (hl : ¬ n.head.IsInternal) {idx : ℕ} {s : NodeSlot} {v : List UInt8}
    {n' : FkvvNode} (hs : n.recSlot idx = some s) (hv : v.length = s.valSize)
    (hva : n.head.valOffsetAddr idx + OFFSET_SIZE ≤ s.valAddr)
    (hd : (n.fillValue s v).done idx = some n') :
    n' = { n with mem := memWrite n.mem s.valAddr (v ++ n.head.crcOf v) } := by
  obtain ⟨vs, hvs, rfl⟩ := Option.map_eq_some_iff.mp hs
  have hoff : ∀ j ≤ idx, n.head.readOffset (memWrite n.mem (n.val idx) v) j =
      n.head.readOffset n.mem j := fun j hj => readOffset_memWrite_value hva hj
  have hsize := recValSize_withMem (n := n) (hoff idx le_rfl) (hoff (idx - 1) (Nat.sub_le _ _))
  have hread := memRead_memWrite_self (m := n.mem) (n.val idx) v
  rw [fillValue, NodeSlot.copyValue,
    done_of_not_internal (n := { n with mem := memWrite n.mem (n.val idx) v }) hl
      (hsize.trans hvs), val_withMem (hoff idx le_rfl)] at hd
  dsimp only at hd hv ⊢
  rw [← hv, hread, memWrite_append] at hd
  exact (Option.some.inj hd).symm

end Fill

/-- The bytes of an fkvv leaf hold the records `recs` in index order: one unit per record in
use, its key followed by the running offset of its value; the values, each followed by its
checksum where the records carry one, laid out downward from the end of the node; units and
values within the node, whose size fits the `uint32_t` offsets. -/
structure LeafHolds (n : FkvvNode) (recs : List NodeRec) : Prop where
  leaf : ¬ n.head.IsInternal
  used : n.fkvvUsed = recs.length
  sizes : ∀ r ∈ recs, r.1.length = n.head.fkvvKsize ∧ 0 < r.2.length
  units : readUp n.mem n.head.hsize (List.replicate n.fkvvUsed n.head.unit) =
    n.head.leafUnits 0 recs
  vals : readDown n.mem n.head.fkvvNsize (recs.map n.head.slotSize) =
    recs.map fun r => r.2 ++ n.head.crcOf r.2
  fits : n.head.hsize + n.head.unit * n.fkvvUsed + (recs.map n.head.slotSize).sum ≤
    n.head.fkvvNsize
  small : n.head.fkvvNsize < 2 ^ 32

section LeafHolds

variable {n : FkvvNode} {l : List NodeRec}

/-- The units cut at record `j`: those before it, and those from it on, whose offsets run on
from the bytes of the values before it. -/
lemma LeafHolds.units_cut (hH : n.LeafHolds l) {j : ℕ} (hj : j ≤ n.fkvvUsed) :
    readUp n.mem n.head.hsize (List.replicate j n.head.unit) = n.head.leafUnits 0 (l.take j) ∧
      readUp n.mem (n.head.hsize + n.head.unit * j)
          (List.replicate (n.fkvvUsed - j) n.head.unit) =
        n.head.leafUnits (n.head.runOffset l j) (l.drop j) := by
  have happ := leafUnits_append (h := n.head) 0 (l.take j) (l.drop j)
  rw [List.take_append_drop, Nat.zero_add] at happ
  have hcut : readUp n.mem n.head.hsize
      (List.replicate j n.head.unit ++ List.replicate (n.fkvvUsed - j) n.head.unit) =
      n.head.leafUnits 0 (l.take j) ++ n.head.leafUnits (n.head.runOffset l j) (l.drop j) := by
    rw [← replicate_cut hj, hH.units, happ]
    rfl
  have hlen : (List.replicate j n.head.unit).length = (n.head.leafUnits 0 (l.take j)).length := by
    simp [← hH.used, hj]
  have := readUp_append_eq hcut hlen
  rwa [sum_replicate_eq] at this

/-- The values cut at record `j`. -/
lemma LeafHolds.vals_cut (hH : n.LeafHolds l) (j : ℕ) :
    readDown n.mem n.head.fkvvNsize ((l.take j).map n.head.slotSize) =
        (l.take j).map (fun r => r.2 ++ n.head.crcOf r.2) ∧
      readDown n.mem (n.head.fkvvNsize - n.head.runOffset l j) ((l.drop j).map n.head.slotSize) =
        (l.drop j).map (fun r => r.2 ++ n.head.crcOf r.2) := by
  have hcut : readDown n.mem n.head.fkvvNsize
      ((l.take j).map n.head.slotSize ++ (l.drop j).map n.head.slotSize) =
      (l.take j).map (fun r => r.2 ++ n.head.crcOf r.2) ++
        (l.drop j).map (fun r => r.2 ++ n.head.crcOf r.2) := by
    rw [← List.map_append, List.take_append_drop, hH.vals, ← List.map_append,
      List.take_append_drop]
  exact readDown_append_eq hcut (by simp)

/-- Record `i` in the leaf's bytes: its key, its offset, and its value with its checksum. -/
lemma LeafHolds.slot (hH : n.LeafHolds l) {i : ℕ} (hi : i < l.length) :
    memRead n.mem (n.head.key i) n.head.fkvvKsize = l[i].1 ∧
      memRead n.mem (n.head.valOffsetAddr i) OFFSET_SIZE =
        leBytes OFFSET_SIZE (n.head.runOffset l (i + 1)) ∧
      memRead n.mem (n.head.fkvvNsize - n.head.runOffset l (i + 1)) (n.head.slotSize l[i]) =
        l[i].2 ++ n.head.crcOf l[i].2 := by
  have hu : i < n.fkvvUsed := hH.used ▸ hi
  have hdrop := List.drop_eq_getElem_cons hi
  obtain ⟨-, hU⟩ := hH.units_cut hu.le
  obtain ⟨-, hV⟩ := hH.vals_cut i
  rw [show n.fkvvUsed - i = n.fkvvUsed - (i + 1) + 1 by omega, List.replicate_succ,
    readUp_cons, hdrop, leafUnits, memRead_unit] at hU
  rw [hdrop, List.map_cons, readDown_cons, List.map_cons, Nat.sub_sub,
    ← runOffset_succ hi] at hV
  obtain ⟨hk, ho⟩ := List.append_inj (List.cons.inj hU).1
    (by simp [(hH.sizes _ (List.getElem_mem hi)).1])
  refine ⟨by rw [key_of_not_internal hH.leaf]; exact hk, by rw [ho, runOffset_succ hi],
    (List.cons.inj hV).1⟩

/-- The running offset after record `i` is within the node. -/
lemma LeafHolds.runOffset_lt_pow (hH : n.LeafHolds l) (i : ℕ) : n.head.runOffset l i < 2 ^ 32 := by
  have hle : n.head.runOffset l i ≤ (l.map n.head.slotSize).sum := by
    rw [← runOffset_add_drop (h := n.head) (l := l) i]
    exact Nat.le_add_right _ _
  have := hH.fits
  have := hH.small
  omega

/-- The offset stored for record `i` is the bytes the values `0..i` take. -/
theorem LeafHolds.readOffset_eq (hH : n.LeafHolds l) {i : ℕ} (hi : i < l.length) :
    n.head.readOffset n.mem i = n.head.runOffset l (i + 1) := by
  rw [readOffset, (hH.slot hi).2.1, leValue_leBytes (hH.runOffset_lt_pow _)]

/-- The offsets of a leaf increase strictly. -/
theorem LeafHolds.readOffset_lt (hH : n.LeafHolds l) {i j : ℕ} (hij : i < j)
    (hj : j < n.fkvvUsed) : n.head.readOffset n.mem i < n.head.readOffset n.mem j := by
  have hj' : j < l.length := hH.used ▸ hj
  rw [hH.readOffset_eq (by omega), hH.readOffset_eq hj']
  exact runOffset_lt (by omega) hj' fun r hr => (hH.sizes r hr).2

/-- The first offset of a leaf in use is positive. -/
theorem LeafHolds.readOffset_zero_pos (hH : n.LeafHolds l) (hu : 0 < n.fkvvUsed) :
    0 < n.head.readOffset n.mem 0 := by
  have h0 : 0 < l.length := hH.used ▸ hu
  rw [hH.readOffset_eq h0]
  have := runOffset_lt (h := n.head) (Nat.zero_lt_one) h0 fun r hr => (hH.sizes r hr).2
  rwa [runOffset_zero] at this

/-- `fkvv_rec` at record `i`: its key, and its value ending where the values before it
begin. -/
lemma LeafHolds.recSlot_eq (hH : n.LeafHolds l) {i : ℕ} (hi : i < l.length) :
    n.recSlot i = some ⟨n.head.key i, n.head.fkvvKsize,
      n.head.fkvvNsize - n.head.runOffset l (i + 1), l[i].2.length⟩ := by
  have hprev : i ≠ 0 → n.head.readOffset n.mem (i - 1) = n.head.runOffset l i := fun h0 => by
    rw [hH.readOffset_eq (by omega), Nat.sub_add_cancel (Nat.pos_of_ne_zero h0)]
  have hcur : n.head.readOffset n.mem i =
      n.head.runOffset l i + l[i].2.length + n.head.crcSize := by
    rw [hH.readOffset_eq hi, runOffset_succ hi, slotSize, Nat.add_assoc]
  have hsize : n.recValSize i = some l[i].2.length := by
    rw [recValSize_of_offsets hH.leaf hprev (fun h0 => by rw [h0, runOffset_zero]) hcur,
      if_pos (hH.sizes _ (List.getElem_mem hi)).2]
  rw [recSlot, hsize, Option.map_some, val_of_not_internal hH.leaf, hH.readOffset_eq hi]

/-- The value of record `i`, and the checksum after it. -/
lemma LeafHolds.value (hH : n.LeafHolds l) {i : ℕ} (hi : i < l.length) :
    memRead n.mem (n.head.fkvvNsize - n.head.runOffset l (i + 1)) l[i].2.length = l[i].2 ∧
      memRead n.mem (n.head.fkvvNsize - n.head.runOffset l (i + 1) + l[i].2.length)
        n.head.crcSize = n.head.crcOf l[i].2 := by
  have hv := (hH.slot hi).2.2
  rw [slotSize, memRead_add] at hv
  exact List.append_inj hv (by simp)

/-- The records `fkvv_rec` reads at the slots in use are the records held. -/
theorem LeafHolds.read_recSlot (hH : n.LeafHolds l) :
    (List.range n.fkvvUsed).map (fun i => (n.recSlot i).map (·.read n.mem)) = l.map some := by
  refine List.ext_getElem (by simp [hH.used]) fun i h₁ h₂ => ?_
  have hi : i < l.length := by simpa using h₂
  have hk := (hH.slot hi).1
  simp [hH.recSlot_eq hi, NodeSlot.read, hk, (hH.value hi).1]

/-- Each value of a checksummed leaf is followed by its FNV-1 hash. -/
theorem LeafHolds.crc_word (hH : n.LeafHolds l)
    (hc : n.head.crcType = .M0_BCT_BTREE_ENC_RAW_HASH) {i : ℕ} (hi : i < l.length) :
    memRead n.mem (n.val i + l[i].2.length) CRC_VALUE_SIZE = crcWord l[i].2 := by
  have := (hH.value hi).2
  rw [val_of_not_internal hH.leaf, hH.readOffset_eq hi]
  simpa [FkvvHead.crcSize, FkvvHead.crcOf, hc] using this

/-- `fkvv_space` of a leaf: the node less the head, the units and the values. -/
lemma LeafHolds.space_eq_units (hH : n.LeafHolds l) :
    n.space = (n.head.fkvvNsize : ℤ) - n.head.hsize - (n.head.unit * n.fkvvUsed : ℕ) -
      (l.map n.head.slotSize).sum := by
  -- the last offset is the bytes of all the values
  have hlast : (if n.fkvvUsed = 0 then 0 else n.head.readOffset n.mem (n.fkvvUsed - 1)) =
      (l.map n.head.slotSize).sum := by
    have hu := hH.used
    split
    · next h0 =>
      rw [List.eq_nil_of_length_eq_zero (by omega : l.length = 0)]
      rfl
    · next h0 =>
      rw [hH.readOffset_eq (by omega), Nat.sub_add_cancel (Nat.pos_of_ne_zero h0), hu,
        runOffset_length]
  rw [← hlast]
  unfold space
  by_cases h0 : n.fkvvUsed = 0
  · simp [h0]
  · simp [h0, hH.leaf]

/-- `fkvv_space` is the node less the head and the bytes the records take, keys, offsets,
values and checksums, and it is not negative. -/
theorem LeafHolds.space_eq (hH : n.LeafHolds l) :
    n.space = (n.head.fkvvNsize : ℤ) - n.head.hsize -
      ((l.map fun r => r.1.length + OFFSET_SIZE + n.head.slotSize r).sum : ℕ) ∧ 0 ≤ n.space := by
  have hsum : (l.map fun r => r.1.length + OFFSET_SIZE + n.head.slotSize r).sum =
      n.head.unit * n.fkvvUsed + (l.map n.head.slotSize).sum := by
    rw [List.map_congr_left (g := fun r => n.head.unit + n.head.slotSize r) fun r hr => by
      rw [(hH.sizes r hr).1]; rfl]
    simp [List.sum_map_add, hH.used, Nat.mul_comm]
  have hspace := hH.space_eq_units
  have hfits := hH.fits
  refine ⟨by rw [hspace, hsum]; push_cast; ring, ?_⟩
  rw [hspace]
  omega

/-! ### A make at a leaf -/

/-- `fkvv_isfit` at a leaf: the key has the node's size, and the unit and the value with its
checksum fit between the units and the values. -/
lemma LeafHolds.isfit_eq_some_true (hH : n.LeafHolds l) {k v : List UInt8}
    (hfit : n.isfit k v = some true) :
    k.length = n.head.fkvvKsize ∧
      n.head.hsize + n.head.unit * (n.fkvvUsed + 1) + n.head.runOffset l n.fkvvUsed +
        (v.length + n.head.crcSize) ≤ n.head.fkvvNsize := by
  unfold isfit at hfit
  split at hfit
  · next hv =>
    have hk : k.length = n.head.fkvvKsize := by
      simpa [FkvvHead.recIsValid, hH.leaf] using hv
    simp only [if_neg hH.leaf, Option.some.injEq, decide_eq_true_eq] at hfit
    rw [hH.space_eq_units] at hfit
    have hsucc : n.head.unit * (n.fkvvUsed + 1) =
        n.head.unit * n.fkvvUsed + (n.head.fkvvKsize + OFFSET_SIZE) := Nat.mul_succ _ _
    refine ⟨hk, ?_⟩
    rw [hH.used, runOffset_length, ← hH.used]
    omega
  · cases hfit

/-- `fkvv_make_leaf` at a leaf holding `l`: the units from `idx` on move up one unit, the values
from `idx` on move down by the bytes of the new value, offset `idx` is written and the offsets
after it grow by those bytes. At the end of the node the moves are empty and the loop does not
run, which is the code's shortcut there. -/
lemma LeafHolds.make_eq (hH : n.LeafHolds l) {idx vlen : ℕ} (hidx : idx ≤ n.fkvvUsed) :
    n.make idx vlen = { n with
      fkvvUsed := (n.fkvvUsed + 1) % 2 ^ 16
      mem := n.head.offsetsAdd ((vlen + n.head.crcSize : ℕ) : ℤ)
        (n.head.writeOffset
          (memmove (memmove n.mem (n.head.key idx + n.head.unit) (n.head.key idx)
              (n.head.unit * (n.fkvvUsed - idx)))
            (n.head.fkvvNsize - n.head.runOffset l n.fkvvUsed - (vlen + n.head.crcSize))
            (n.head.fkvvNsize - n.head.runOffset l n.fkvvUsed)
            (n.head.runOffset l n.fkvvUsed - n.head.runOffset l idx))
          idx (n.head.runOffset l idx + (vlen + n.head.crcSize)))
        (idx + 1) (n.fkvvUsed - idx) } := by
  have hu := hH.used
  have hnew : (if idx = 0 then vlen + n.head.crcSize
      else n.head.readOffset n.mem (idx - 1) + (vlen + n.head.crcSize)) =
      n.head.runOffset l idx + (vlen + n.head.crcSize) := by
    split
    · next h0 => rw [h0, runOffset_zero, Nat.zero_add]
    · next h0 => rw [hH.readOffset_eq (by omega), Nat.sub_add_cancel (Nat.pos_of_ne_zero h0)]
  rw [make, if_neg hH.leaf, makeLeaf]
  dsimp only
  rw [hnew]
  split
  · next hend =>
    -- at the end of the node both moves and the loop are empty
    subst hend
    simp only [Nat.sub_self, Nat.mul_zero, memmove_zero, offsetsAdd_zero]
  · next hend =>
    have hlast : n.head.readOffset n.mem (n.fkvvUsed - 1) = n.head.runOffset l n.fkvvUsed := by
      rw [hH.readOffset_eq (by omega), Nat.sub_add_cancel (by omega)]
    have htotal : (if idx = 0 then n.head.readOffset n.mem (n.fkvvUsed - 1)
        else n.head.readOffset n.mem (n.fkvvUsed - 1) - n.head.readOffset n.mem (idx - 1)) =
        n.head.runOffset l n.fkvvUsed - n.head.runOffset l idx := by
      split
      · next h0 => rw [h0, runOffset_zero, Nat.sub_zero, hlast]
      · next h0 =>
        rw [hlast, hH.readOffset_eq (by omega), Nat.sub_add_cancel (Nat.pos_of_ne_zero h0)]
    rw [htotal, val_of_not_internal hH.leaf, hlast]

/-- `fkvv_rec` at the new slot after a make: its value of `vlen` bytes ends where the values
before it begin; on an empty value the assertion of `fkvv_rec_val_size` fails. -/
lemma LeafHolds.make_recSlot (hH : n.LeafHolds l) {idx vlen : ℕ} (hidx : idx ≤ n.fkvvUsed)
    (hroom : n.head.hsize + n.head.unit * (n.fkvvUsed + 1) + n.head.runOffset l n.fkvvUsed +
      (vlen + n.head.crcSize) ≤ n.head.fkvvNsize) :
    (n.make idx vlen).recSlot idx = if 0 < vlen then
      some ⟨n.head.key idx, n.head.fkvvKsize,
        n.head.fkvvNsize - (n.head.runOffset l idx + (vlen + n.head.crcSize)), vlen⟩
      else none := by
  have hmono := runOffset_mono (h := n.head) (l := l) hidx
  have hsmall := hH.small
  have hkey := key_of_not_internal hH.leaf idx
  have hvoa := valOffsetAddr_eq (h := n.head) idx
  have hsucc : n.head.unit * (n.fkvvUsed + 1) = n.head.unit * n.fkvvUsed + n.head.unit :=
    Nat.mul_succ _ _
  have hidxU : n.head.unit * idx ≤ n.head.unit * n.fkvvUsed := Nat.mul_le_mul_left _ hidx
  have hunit : n.head.unit = n.head.fkvvKsize + OFFSET_SIZE := rfl
  have hhead : (n.make idx vlen).head = n.head := by rw [hH.make_eq hidx]
  have hl : ¬ (n.make idx vlen).head.IsInternal := hhead ▸ hH.leaf
  -- offset `idx` is the one the make writes, offset `idx - 1` the one before it
  have hcur : (n.make idx vlen).head.readOffset (n.make idx vlen).mem idx =
      n.head.runOffset l idx + vlen + (n.make idx vlen).head.crcSize := by
    rw [hH.make_eq hidx]
    dsimp only
    rw [readOffset_offsetsAdd_of_lt (Nat.lt_succ_self idx),
      readOffset_writeOffset_self (by omega), Nat.add_assoc]
  have hprev : idx ≠ 0 → (n.make idx vlen).head.readOffset (n.make idx vlen).mem (idx - 1) =
      n.head.runOffset l idx := by
    intro h0
    have hbefore := valOffsetAddr_add_le (h := n.head) (show idx - 1 < idx by omega)
    rw [hH.make_eq hidx]
    dsimp only
    rw [readOffset_offsetsAdd_of_lt (by omega), readOffset_writeOffset_of_ne (by omega),
      readOffset_memmove_of_disjoint (Or.inl (by omega)),
      readOffset_memmove_of_disjoint (Or.inl (by omega)),
      hH.readOffset_eq (by rw [← hH.used]; omega), Nat.sub_add_cancel (Nat.pos_of_ne_zero h0)]
  rw [recSlot, recValSize_of_offsets hl hprev (fun h0 => by rw [h0, runOffset_zero]) hcur]
  split
  · rw [Option.map_some, val_of_not_internal hl, hcur, hhead, Nat.add_assoc]
  · rfl

/-- The units after a make and the copy of the record: those before `idx` are left, unit
`idx` is the new key with its offset, and the units after it are the old ones from `idx` on,
moved up one unit with their offsets grown by the new value's bytes. -/
lemma LeafHolds.make_units (hH : n.LeafHolds l) {idx : ℕ} {k v : List UInt8}
    (hidx : idx ≤ n.fkvvUsed) (hk : k.length = n.head.fkvvKsize)
    (hroom : n.head.hsize + n.head.unit * (n.fkvvUsed + 1) + n.head.runOffset l n.fkvvUsed +
      (v.length + n.head.crcSize) ≤ n.head.fkvvNsize) :
    readUp (memWrite (memWrite (n.make idx v.length).mem (n.head.key idx) k)
        (n.head.fkvvNsize - (n.head.runOffset l idx + (v.length + n.head.crcSize)))
        (v ++ n.head.crcOf v))
      n.head.hsize (List.replicate (n.fkvvUsed + 1) n.head.unit) =
    n.head.leafUnits 0 (ntMake l idx (k, v)) := by
  obtain ⟨hU₁, hU₂⟩ := hH.units_cut hidx
  have hmono := runOffset_mono (h := n.head) (l := l) hidx
  have hkey := key_of_not_internal hH.leaf idx
  have hvoa := valOffsetAddr_eq (h := n.head) idx
  have hvoa₁ := valOffsetAddr_eq (h := n.head) (idx + 1)
  have hunit : n.head.unit = n.head.fkvvKsize + OFFSET_SIZE := rfl
  have hsucc : n.head.unit * (idx + 1) = n.head.unit * idx + n.head.unit := Nat.mul_succ _ _
  have hsucc' : n.head.unit * (n.fkvvUsed + 1) = n.head.unit * n.fkvvUsed + n.head.unit :=
    Nat.mul_succ _ _
  have hcnt : n.head.unit * idx + n.head.unit * (n.fkvvUsed - idx) = n.head.unit * n.fkvvUsed := by
    rw [← Nat.mul_add, Nat.add_sub_cancel' hidx]
  -- the reference units: the new key with its offset, and the units after it bumped
  have hshift : n.head.leafUnits (n.head.runOffset l idx + (v.length + n.head.crcSize))
      (l.drop idx) = (n.head.leafUnits (n.head.runOffset l idx) (l.drop idx)).map
        (n.head.bumpUnit ((v.length + n.head.crcSize : ℕ) : ℤ)) :=
    leafUnits_shift (fun r hr => (hH.sizes r (List.mem_of_mem_drop hr)).1) (by push_cast; ring)
  have href : n.head.leafUnits 0 (ntMake l idx (k, v)) = n.head.leafUnits 0 (l.take idx) ++
      (k ++ leBytes OFFSET_SIZE (n.head.runOffset l idx + (v.length + n.head.crcSize))) ::
        (n.head.leafUnits (n.head.runOffset l idx) (l.drop idx)).map
          (n.head.bumpUnit ((v.length + n.head.crcSize : ℕ) : ℤ)) := by
    rw [ntMake, leafUnits_append, Nat.zero_add, leafUnits, ← hshift]
    rfl
  rw [href, hH.make_eq hidx]
  dsimp only
  rw [replicate_succ_cut hidx, readUp_memWrite_of_disjoint (Or.inl (by
      simp only [List.sum_append, List.sum_cons, sum_replicate_eq]; omega)),
    readUp_append, readUp_cons, sum_replicate_eq]
  congr 1
  · -- the units before `idx` are left
    rw [readUp_memWrite_of_disjoint (Or.inl (by rw [sum_replicate_eq]; omega)),
      readUp_offsetsAdd_of_disjoint (Or.inl (by rw [sum_replicate_eq]; omega)), writeOffset,
      readUp_memWrite_of_disjoint (Or.inl (by rw [sum_replicate_eq]; omega)),
      readUp_memmove_of_disjoint (Or.inl (by rw [sum_replicate_eq]; omega)),
      readUp_memmove_of_disjoint (Or.inl (by rw [sum_replicate_eq]; omega)), hU₁]
  congr 1
  · -- unit `idx`: the new key, then the new offset
    rw [memRead_unit]
    congr 1
    · rw [← hkey, memRead_memWrite_of_length hk]
    · rw [memRead_memWrite_of_disjoint (Or.inr (by omega)),
        memRead_offsetsAdd_of_disjoint (Or.inl (by omega)), writeOffset,
        memRead_memWrite_of_length (length_leBytes _ _)]
  · -- the units from `idx` on, moved up one unit with their offsets grown
    have haddr : n.head.hsize + n.head.unit * idx + n.head.unit =
        n.head.hsize + n.head.unit * (idx + 1) := by omega
    have hsrc : n.head.key idx + (n.head.hsize + n.head.unit * (idx + 1) -
        (n.head.key idx + n.head.unit)) = n.head.hsize + n.head.unit * idx := by omega
    rw [readUp_memWrite_of_disjoint (Or.inr (by omega)), haddr, readUp_offsetsAdd, writeOffset,
      readUp_memWrite_of_disjoint (Or.inr (by rw [length_leBytes]; omega)),
      readUp_memmove_of_disjoint (Or.inl (by rw [sum_replicate_eq]; omega)),
      readUp_memmove (by omega) (by rw [sum_replicate_eq]; omega), hsrc, hU₂]

/-- The values after a make and the copy of the record: the new value with its checksum
between the values before `idx` and those from it on. -/
lemma LeafHolds.make_vals (hH : n.LeafHolds l) {idx : ℕ} {k v : List UInt8}
    (hidx : idx ≤ n.fkvvUsed) (hk : k.length = n.head.fkvvKsize)
    (hroom : n.head.hsize + n.head.unit * (n.fkvvUsed + 1) + n.head.runOffset l n.fkvvUsed +
      (v.length + n.head.crcSize) ≤ n.head.fkvvNsize) :
    readDown (memWrite (memWrite (n.make idx v.length).mem (n.head.key idx) k)
        (n.head.fkvvNsize - (n.head.runOffset l idx + (v.length + n.head.crcSize)))
        (v ++ n.head.crcOf v))
      n.head.fkvvNsize ((ntMake l idx (k, v)).map n.head.slotSize) =
    (ntMake l idx (k, v)).map fun r => r.2 ++ n.head.crcOf r.2 := by
  obtain ⟨hV₁, hV₂⟩ := hH.vals_cut idx
  have hdrop := runOffset_add_drop (h := n.head) (l := l) idx
  rw [← runOffset_length (h := n.head) (l := l), ← hH.used] at hdrop
  have hmono := runOffset_mono (h := n.head) (l := l) hidx
  have hR : ((l.take idx).map n.head.slotSize).sum = n.head.runOffset l idx := rfl
  have hS : n.head.slotSize (k, v) = v.length + n.head.crcSize := rfl
  have hkey := key_of_not_internal hH.leaf idx
  have hvoa := valOffsetAddr_eq (h := n.head) idx
  have hunit : n.head.unit = n.head.fkvvKsize + OFFSET_SIZE := rfl
  have hsucc : n.head.unit * (n.fkvvUsed + 1) = n.head.unit * n.fkvvUsed + n.head.unit :=
    Nat.mul_succ _ _
  have hend : n.head.unit * (idx + 1 + (n.fkvvUsed - idx)) = n.head.unit * (n.fkvvUsed + 1) := by
    congr 1
    omega
  have hidxU : n.head.unit * (idx + 1) ≤ n.head.unit * (n.fkvvUsed + 1) :=
    Nat.mul_le_mul_left _ (by omega)
  have hcnt : n.head.unit * idx + n.head.unit * (n.fkvvUsed - idx) = n.head.unit * n.fkvvUsed := by
    rw [← Nat.mul_add, Nat.add_sub_cancel' hidx]
  -- the insertion into the values, as `readDown_insert` reads it
  have hins := @readDown_insert n.mem n.head.fkvvNsize (n.head.fkvvNsize - n.head.runOffset l idx)
    (v.length + n.head.crcSize) ((l.drop idx).map n.head.slotSize).sum
    ((l.take idx).map n.head.slotSize) ((l.drop idx).map n.head.slotSize) (v ++ n.head.crcOf v)
    rfl (by simp) rfl (by omega)
  have e₁ : n.head.fkvvNsize - n.head.runOffset l idx - ((l.drop idx).map n.head.slotSize).sum =
      n.head.fkvvNsize - n.head.runOffset l n.fkvvUsed := by omega
  have e₂ : ((l.drop idx).map n.head.slotSize).sum =
      n.head.runOffset l n.fkvvUsed - n.head.runOffset l idx := by omega
  rw [e₁, e₂, Nat.sub_sub n.head.fkvvNsize (n.head.runOffset l idx), hV₁, hV₂] at hins
  rw [ntMake_eq_take_drop_map, ntMake_eq_take_drop_map, hH.make_eq hidx]
  dsimp only
  refine (readDown_congr (by simp only [List.sum_append, List.sum_cons]; omega)
    fun x hx₁ hx₂ => ?_).trans hins
  -- the changes to the units lie below the values
  simp only [List.sum_append, List.sum_cons] at hx₁
  apply memWrite_congr_apply
  rw [memWrite_apply_of_disjoint (Or.inr (by omega)), offsetsAdd_apply (Or.inr (by omega)),
    writeOffset, memWrite_apply_of_disjoint (Or.inr (by rw [length_leBytes]; omega))]
  exact memmove_congr_apply (memmove_apply_of_disjoint (Or.inr (by omega)))
    fun _ _ => memmove_apply_of_disjoint (Or.inr (by omega))

/-- A make at a leaf that leaves fewer than `2 ^ 16` records keeps the records, with the new
record inserted at its index. -/
theorem step_make_leaf (hH : n.LeafHolds l) {idx : ℕ} {k v : List UInt8} {n' : FkvvNode}
    (hcap : l.length + 1 < 2 ^ 16) (hs : step (.make idx k v) n = some n') :
    n'.LeafHolds (ntMake l idx (k, v)) := by
  obtain ⟨hfit, hidx, s, hslot, hdone⟩ := step_make_eq hs
  obtain ⟨hk, hroom⟩ := hH.isfit_eq_some_true hfit
  have hrec := hH.make_recSlot hidx hroom
  -- an empty value fails the assertion of `fkvv_rec_val_size`
  have hv : 0 < v.length := by
    by_contra h0
    rw [if_neg h0, hslot] at hrec
    cases hrec
  rw [if_pos hv] at hrec
  obtain rfl : s = _ := Option.some.inj (hslot.symm.trans hrec)
  have hhead : (n.make idx v.length).head = n.head := by rw [hH.make_eq hidx]
  have hused : (n.make idx v.length).fkvvUsed = n.fkvvUsed + 1 := by
    rw [hH.make_eq hidx]
    exact Nat.mod_eq_of_lt (hH.used ▸ hcap)
  have hmono := runOffset_mono (h := n.head) (l := l) hidx
  have hvoa := valOffsetAddr_eq (h := n.head) idx
  have hsucc : n.head.unit * (idx + 1) = n.head.unit * idx + (n.head.fkvvKsize + OFFSET_SIZE) :=
    Nat.mul_succ _ _
  have hidxU : n.head.unit * (idx + 1) ≤ n.head.unit * (n.fkvvUsed + 1) :=
    Nat.mul_le_mul_left _ (by omega)
  have hva : n.head.valOffsetAddr idx + OFFSET_SIZE ≤
      n.head.fkvvNsize - (n.head.runOffset l idx + (v.length + n.head.crcSize)) := by omega
  obtain rfl := fill_done (hhead ▸ hH.leaf) hrec (by rw [hhead]; exact hk) rfl
    (by rw [hhead]; exact hva) hdone
  have hsum : ((ntMake l idx (k, v)).map n.head.slotSize).sum =
      n.head.runOffset l n.fkvvUsed + (v.length + n.head.crcSize) := by
    have hdrop := runOffset_add_drop (h := n.head) (l := l) idx
    rw [← runOffset_length (h := n.head) (l := l), ← hH.used] at hdrop
    rw [ntMake_eq_take_drop_map, List.sum_append, List.sum_cons, ← hdrop]
    simp only [slotSize]
    unfold runOffset
    omega
  have hunits := hH.make_units hidx hk hroom
  have hvals := hH.make_vals hidx hk hroom
  -- the node of the make, with the record copied: the head and the count of the make
  generalize n.make idx v.length = n₁ at hhead hused hunits hvals ⊢
  obtain ⟨head₁, used₁, mem₁⟩ := n₁
  dsimp only at hhead hused hunits hvals ⊢
  subst hhead hused
  refine ⟨hH.leaf, ?_, ?_, hunits, hvals, ?_, hH.small⟩
  · rw [length_ntMake _ (hH.used ▸ hidx), hH.used]
  · intro r hr
    rcases mem_ntMake.mp hr with rfl | hr
    · exact ⟨hk, hv⟩
    · exact hH.sizes r hr
  · dsimp only
    rw [hsum]
    omega

/-! ### A delete at a leaf -/

/-- A delete at a leaf that goes through was at an index in the node. -/
lemma del_lt_of_not_internal (hl : ¬ n.head.IsInternal) {idx : ℕ} {n' : FkvvNode}
    (hs : n.del idx = some n') : idx < n.fkvvUsed := by
  rw [del, if_neg hl, delLeaf] at hs
  by_contra hidx
  rw [if_pos (fun h => hidx h.2)] at hs
  cases hs

/-- `fkvv_del_leaf` at a leaf holding `l`: the units after `idx` move down one unit, the values
after it move up over it, and the offsets from `idx` on lose its bytes. For the last record
the moves are empty and the loop does not run, which is the code's shortcut there. -/
lemma LeafHolds.del_eq (hH : n.LeafHolds l) {idx : ℕ} (hidx : idx < l.length) :
    n.del idx = some { n with
      fkvvUsed := n.fkvvUsed - 1
      mem := n.head.offsetsAdd (-((n.head.slotSize l[idx] : ℕ) : ℤ))
        (memmove (memmove n.mem (n.head.key idx) (n.head.key idx + n.head.unit)
            (n.head.unit * (n.fkvvUsed - idx - 1)))
          (n.head.fkvvNsize - n.head.runOffset l n.fkvvUsed + n.head.slotSize l[idx])
          (n.head.fkvvNsize - n.head.runOffset l n.fkvvUsed)
          (n.head.runOffset l n.fkvvUsed - n.head.runOffset l (idx + 1)))
        idx (n.fkvvUsed - 1 - idx) } := by
  have hu := hH.used
  rw [del, if_neg hH.leaf, delLeaf, if_neg (not_not.mpr ⟨by omega, by omega⟩)]
  split
  · next hend =>
    -- the last record: nothing moves and the loop does not run
    have h₁ : n.fkvvUsed - idx - 1 = 0 := by omega
    have h₂ : n.fkvvUsed - 1 - idx = 0 := by omega
    have h₃ : n.head.runOffset l n.fkvvUsed - n.head.runOffset l (idx + 1) = 0 := by
      rw [show idx + 1 = n.fkvvUsed by omega, Nat.sub_self]
    simp only [h₁, h₂, h₃, Nat.mul_zero, memmove_zero, offsetsAdd_zero]
  · next hend =>
    have hcur := hH.readOffset_eq hidx
    have hlast : n.head.readOffset n.mem (n.fkvvUsed - 1) = n.head.runOffset l n.fkvvUsed := by
      rw [hH.readOffset_eq (by omega), Nat.sub_add_cancel (by omega)]
    have hsize : (if idx = 0 then n.head.readOffset n.mem idx
        else n.head.readOffset n.mem idx - n.head.readOffset n.mem (idx - 1)) =
        n.head.slotSize l[idx] := by
      split
      · next h0 =>
        subst h0
        rw [hcur, runOffset_succ hidx, runOffset_zero, Nat.zero_add]
      · next h0 =>
        rw [hcur, hH.readOffset_eq (by omega), Nat.sub_add_cancel (Nat.pos_of_ne_zero h0),
          runOffset_succ hidx, Nat.add_sub_cancel_left]
    dsimp only
    rw [hsize, hcur, hlast, val_of_not_internal hH.leaf, hlast]

/-- The units after a delete: those before `idx` are left, and those after it move down one
unit with their offsets less the bytes of the deleted value. -/
lemma LeafHolds.del_units (hH : n.LeafHolds l) {idx : ℕ} (hidx : idx < l.length)
    {n₁ : FkvvNode} (hdel : n.del idx = some n₁) :
    readUp n₁.mem n.head.hsize (List.replicate n₁.fkvvUsed n.head.unit) =
      n.head.leafUnits 0 (bnodeDel l idx) := by
  have hu := hH.used
  obtain ⟨hU₁, -⟩ := hH.units_cut (j := idx) (by omega)
  obtain ⟨-, hU₂⟩ := hH.units_cut (j := idx + 1) (by omega)
  have hkey := key_of_not_internal hH.leaf idx
  have hvoa := valOffsetAddr_eq (h := n.head) idx
  have hmono := runOffset_mono (h := n.head) (l := l) (show idx + 1 ≤ n.fkvvUsed by omega)
  have hfits := hH.fits
  have hsum : (l.map n.head.slotSize).sum = n.head.runOffset l n.fkvvUsed := by
    rw [hu, runOffset_length]
  have hsucc : n.head.unit * (idx + 1) = n.head.unit * idx + n.head.unit := Nat.mul_succ _ _
  have hcnt : n.head.unit * (idx + 1) + n.head.unit * (n.fkvvUsed - (idx + 1)) =
      n.head.unit * n.fkvvUsed := by
    rw [← Nat.mul_add, Nat.add_sub_cancel' (by omega)]
  have hc₁ : n.fkvvUsed - idx - 1 = n.fkvvUsed - (idx + 1) := by omega
  have hc₂ : n.fkvvUsed - 1 - idx = n.fkvvUsed - (idx + 1) := by omega
  -- the reference units: those after `idx`, their offsets less the deleted value's bytes
  have hshift : n.head.leafUnits (n.head.runOffset l idx) (l.drop (idx + 1)) =
      (n.head.leafUnits (n.head.runOffset l (idx + 1)) (l.drop (idx + 1))).map
        (n.head.bumpUnit (-((n.head.slotSize l[idx] : ℕ) : ℤ))) :=
    leafUnits_shift (fun r hr => (hH.sizes r (List.mem_of_mem_drop hr)).1)
      (by rw [runOffset_succ hidx]; push_cast; ring)
  rw [hH.del_eq hidx] at hdel
  cases hdel
  dsimp only
  rw [hc₁, hc₂, bnodeDel, leafUnits_append, Nat.zero_add,
    replicate_cut (show idx ≤ n.fkvvUsed - 1 by omega), readUp_append, sum_replicate_eq,
    show n.fkvvUsed - 1 - idx = n.fkvvUsed - (idx + 1) by omega]
  congr 1
  · -- the units before `idx` are left
    rw [readUp_offsetsAdd_of_disjoint (Or.inl (by rw [sum_replicate_eq]; omega)),
      readUp_memmove_of_disjoint (Or.inl (by rw [sum_replicate_eq]; omega)),
      readUp_memmove_of_disjoint (Or.inl (by rw [sum_replicate_eq]; omega)), hU₁]
  · -- the units after `idx`, moved down one unit with their offsets lowered
    rw [readUp_offsetsAdd, readUp_memmove_of_disjoint (Or.inl (by rw [sum_replicate_eq]; omega)),
      readUp_memmove (by omega) (by rw [sum_replicate_eq]; omega),
      show n.head.key idx + n.head.unit + (n.head.hsize + n.head.unit * idx - n.head.key idx) =
        n.head.hsize + n.head.unit * (idx + 1) by omega, hU₂]
    exact hshift.symm

/-- The values after a delete: the values after `idx` moved up over it. -/
lemma LeafHolds.del_vals (hH : n.LeafHolds l) {idx : ℕ} (hidx : idx < l.length)
    {n₁ : FkvvNode} (hdel : n.del idx = some n₁) :
    readDown n₁.mem n.head.fkvvNsize ((bnodeDel l idx).map n.head.slotSize) =
      (bnodeDel l idx).map fun r => r.2 ++ n.head.crcOf r.2 := by
  have hu := hH.used
  obtain ⟨hV₁, -⟩ := hH.vals_cut idx
  obtain ⟨-, hV₂⟩ := hH.vals_cut (idx + 1)
  have hdrop := runOffset_add_drop (h := n.head) (l := l) (idx + 1)
  rw [← runOffset_length (h := n.head) (l := l), ← hu] at hdrop
  have hsucc := runOffset_succ (h := n.head) hidx
  have hR : ((l.take idx).map n.head.slotSize).sum = n.head.runOffset l idx := rfl
  have hfits := hH.fits
  have hsum : (l.map n.head.slotSize).sum = n.head.runOffset l n.fkvvUsed := by
    rw [hu, runOffset_length]
  have hkey := key_of_not_internal hH.leaf idx
  have hunits : n.head.unit * idx + n.head.unit * (n.fkvvUsed - idx - 1) ≤
      n.head.unit * n.fkvvUsed := by
    rw [← Nat.mul_add]
    exact Nat.mul_le_mul_left _ (by omega)
  have hloop : n.head.unit * (idx + (n.fkvvUsed - 1 - idx)) ≤ n.head.unit * n.fkvvUsed :=
    Nat.mul_le_mul_left _ (by omega)
  -- the deletion from the values, as `readDown_erase` reads it
  have hins := @readDown_erase n.mem n.head.fkvvNsize (n.head.fkvvNsize - n.head.runOffset l idx)
    (n.head.slotSize l[idx]) ((l.drop (idx + 1)).map n.head.slotSize).sum
    ((l.take idx).map n.head.slotSize) ((l.drop (idx + 1)).map n.head.slotSize) rfl rfl
    (by omega)
  have e₁ : n.head.fkvvNsize - n.head.runOffset l idx - n.head.slotSize l[idx] -
      ((l.drop (idx + 1)).map n.head.slotSize).sum =
      n.head.fkvvNsize - n.head.runOffset l n.fkvvUsed := by omega
  have e₂ : ((l.drop (idx + 1)).map n.head.slotSize).sum =
      n.head.runOffset l n.fkvvUsed - n.head.runOffset l (idx + 1) := by omega
  have e₃ : n.head.fkvvNsize - n.head.runOffset l idx - n.head.slotSize l[idx] =
      n.head.fkvvNsize - n.head.runOffset l (idx + 1) := by omega
  rw [e₁, e₂, e₃, hV₁, hV₂] at hins
  rw [hH.del_eq hidx] at hdel
  cases hdel
  dsimp only
  rw [bnodeDel_eq_take_drop_map, bnodeDel_eq_take_drop_map]
  refine (readDown_congr (by simp only [List.sum_append]; omega) fun x hx₁ hx₂ => ?_).trans hins
  -- the changes to the units lie below the values
  simp only [List.sum_append] at hx₁
  rw [offsetsAdd_apply (Or.inr (by omega))]
  exact memmove_congr_apply (memmove_apply_of_disjoint (Or.inr (by omega)))
    fun _ _ => memmove_apply_of_disjoint (Or.inr (by omega))

/-- A delete at a leaf keeps the records, less the one at its index. -/
theorem step_del_leaf (hH : n.LeafHolds l) {idx : ℕ} {n' : FkvvNode}
    (hs : step (.del idx) n = some n') : n'.LeafHolds (bnodeDel l idx) := by
  have hdel : n.del idx = some n' := hs
  have hidx : idx < l.length := hH.used ▸ del_lt_of_not_internal hH.leaf hdel
  have hunits := hH.del_units hidx hdel
  have hvals := hH.del_vals hidx hdel
  have hsum : ((bnodeDel l idx).map n.head.slotSize).sum + n.head.slotSize l[idx] =
      (l.map n.head.slotSize).sum := by
    have hdrop := runOffset_add_drop (h := n.head) (l := l) (idx + 1)
    rw [runOffset_succ hidx] at hdrop
    rw [bnodeDel_eq_take_drop_map, List.sum_append, ← hdrop]
    unfold runOffset
    omega
  have hfits := hH.fits
  have hless : n.head.unit * (n.fkvvUsed - 1) ≤ n.head.unit * n.fkvvUsed :=
    Nat.mul_le_mul_left _ (Nat.sub_le _ _)
  rw [hH.del_eq hidx] at hdel
  cases hdel
  refine ⟨hH.leaf, ?_, ?_, hunits, hvals, ?_, hH.small⟩ <;> dsimp only
  · rw [length_bnodeDel _ hidx, hH.used]
  · intro r hr
    rcases List.mem_append.mp hr with hr | hr
    · exact hH.sizes r (List.mem_of_mem_take hr)
    · exact hH.sizes r (List.mem_of_mem_drop hr)
  · omega

/-! ### An update at a leaf -/

/-- `fkvv_val_resize` that goes through was at an index in the node. -/
lemma valResize_lt {idx : ℕ} {d : ℤ} {n' : FkvvNode} (hs : n.valResize idx d = some n') :
    idx < n.fkvvUsed := by
  rw [valResize] at hs
  by_contra hidx
  rw [if_pos (fun h => hidx h.2.1)] at hs
  cases hs

/-- `fkvv_val_resize` at a leaf holding `l`: the values after `idx` move by the difference,
and the offsets from `idx` on change by it. -/
lemma LeafHolds.valResize_eq (hH : n.LeafHolds l) {idx : ℕ} (hidx : idx < l.length) (diff : ℤ) :
    n.valResize idx diff = some { n with
      mem := n.head.offsetsAdd diff
        (memmove n.mem (((n.head.fkvvNsize - n.head.runOffset l n.fkvvUsed : ℕ) : ℤ) - diff).toNat
          (n.head.fkvvNsize - n.head.runOffset l n.fkvvUsed)
          (n.head.runOffset l n.fkvvUsed - n.head.runOffset l (idx + 1)))
        idx (n.fkvvUsed - idx) } := by
  have hu := hH.used
  have hlast : n.head.readOffset n.mem (n.fkvvUsed - 1) = n.head.runOffset l n.fkvvUsed := by
    rw [hH.readOffset_eq (by omega), Nat.sub_add_cancel (by omega)]
  rw [valResize, if_neg (not_not.mpr ⟨hH.leaf, by omega, by omega⟩)]
  dsimp only
  rw [hH.readOffset_eq hidx, hlast, val_of_not_internal hH.leaf, hlast]

section Resize

variable {idx : ℕ} {v : List UInt8} {n₁ : FkvvNode}

/-- `fkvv_rec` at the resized slot: its new value ends where the values before it begin; on
an empty value the assertion of `fkvv_rec_val_size` fails. -/
lemma LeafHolds.valResize_recSlot (hH : n.LeafHolds l) (hidx : idx < l.length)
    (hroom : n.head.hsize + n.head.unit * n.fkvvUsed +
      (n.head.runOffset l n.fkvvUsed - n.head.slotSize l[idx]) + (v.length + n.head.crcSize) ≤
        n.head.fkvvNsize)
    (hres : n.valResize idx ((v.length : ℤ) - l[idx].2.length) = some n₁) :
    n₁.recSlot idx = if 0 < v.length then
      some ⟨n.head.key idx, n.head.fkvvKsize,
        n.head.fkvvNsize - (n.head.runOffset l idx + (v.length + n.head.crcSize)), v.length⟩
      else none := by
  have hu := hH.used
  have hsmall := hH.small
  have hsucc := runOffset_succ (h := n.head) hidx
  have hmono := runOffset_mono (h := n.head) (l := l) (show idx + 1 ≤ n.fkvvUsed by omega)
  have hvoa := valOffsetAddr_eq (h := n.head) idx
  have hunits : n.head.unit * (idx + 1) ≤ n.head.unit * n.fkvvUsed :=
    Nat.mul_le_mul_left _ (by omega)
  have hsuccU : n.head.unit * (idx + 1) = n.head.unit * idx + (n.head.fkvvKsize + OFFSET_SIZE) :=
    Nat.mul_succ _ _
  have hslot : n.head.slotSize l[idx] = l[idx].2.length + n.head.crcSize := rfl
  have hhead : n₁.head = n.head := by
    rw [hH.valResize_eq hidx] at hres
    cases hres
    rfl
  have hl : ¬ n₁.head.IsInternal := hhead ▸ hH.leaf
  -- offset `idx` changed by the difference, offset `idx - 1` left
  have hcur : n₁.head.readOffset n₁.mem idx =
      n.head.runOffset l idx + v.length + n₁.head.crcSize := by
    rw [hH.valResize_eq hidx] at hres
    cases hres
    dsimp only
    rw [readOffset_offsetsAdd le_rfl (by omega),
      readOffset_memmove_of_disjoint (Or.inl (by omega)), hH.readOffset_eq hidx]
    exact u32Add_eq (by push_cast; omega) (by omega)
  have hprev : idx ≠ 0 → n₁.head.readOffset n₁.mem (idx - 1) = n.head.runOffset l idx := by
    intro h0
    have hbefore := valOffsetAddr_add_le (h := n.head) (show idx - 1 < idx by omega)
    rw [hH.valResize_eq hidx] at hres
    cases hres
    dsimp only
    rw [readOffset_offsetsAdd_of_lt (by omega),
      readOffset_memmove_of_disjoint (Or.inl (by omega)),
      hH.readOffset_eq (by omega), Nat.sub_add_cancel (Nat.pos_of_ne_zero h0)]
  rw [recSlot, recValSize_of_offsets hl hprev (fun h0 => by rw [h0, runOffset_zero]) hcur]
  split
  · rw [Option.map_some, val_of_not_internal hl, hcur, hhead, Nat.add_assoc]
  · rfl

/-- The units after an update and the copy of the value: those before `idx` are left, and the
offsets from `idx` on change by the difference of the value sizes. -/
lemma LeafHolds.resize_units (hH : n.LeafHolds l) (hidx : idx < l.length)
    (hroom : n.head.hsize + n.head.unit * n.fkvvUsed +
      (n.head.runOffset l n.fkvvUsed - n.head.slotSize l[idx]) + (v.length + n.head.crcSize) ≤
        n.head.fkvvNsize)
    (hres : n.valResize idx ((v.length : ℤ) - l[idx].2.length) = some n₁) :
    readUp (memWrite n₁.mem
        (n.head.fkvvNsize - (n.head.runOffset l idx + (v.length + n.head.crcSize)))
        (v ++ n.head.crcOf v))
      n.head.hsize (List.replicate n.fkvvUsed n.head.unit) =
    n.head.leafUnits 0 (l.modify idx fun r => (r.1, v)) := by
  have hu := hH.used
  obtain ⟨hU₁, hU₂⟩ := hH.units_cut (j := idx) (by omega)
  have hsucc := runOffset_succ (h := n.head) hidx
  have hmono := runOffset_mono (h := n.head) (l := l) (show idx + 1 ≤ n.fkvvUsed by omega)
  have hvoa := valOffsetAddr_eq (h := n.head) idx
  have hcnt : n.head.unit * idx + n.head.unit * (n.fkvvUsed - idx) = n.head.unit * n.fkvvUsed := by
    rw [← Nat.mul_add, Nat.add_sub_cancel' (by omega)]
  have hslot : n.head.slotSize l[idx] = l[idx].2.length + n.head.crcSize := rfl
  -- the reference units: the offsets from `idx` on changed by the difference
  have href : n.head.leafUnits (n.head.runOffset l idx) ((l[idx].1, v) :: l.drop (idx + 1)) =
      (n.head.leafUnits (n.head.runOffset l idx) (l.drop idx)).map
        (n.head.bumpUnit ((v.length : ℤ) - l[idx].2.length)) := by
    rw [List.drop_eq_getElem_cons hidx]
    exact leafUnits_cons_resize (fun r hr => (hH.sizes r (List.mem_of_mem_drop
      (by rwa [← List.drop_eq_getElem_cons hidx] at hr))).1) (by simp only [slotSize]; push_cast; ring)
  rw [hH.valResize_eq hidx] at hres
  cases hres
  dsimp only
  rw [readUp_memWrite_of_disjoint (Or.inl (by rw [sum_replicate_eq]; omega)),
    replicate_cut (show idx ≤ n.fkvvUsed by omega), readUp_append, sum_replicate_eq,
    List.modify_eq_take_cons_drop hidx, leafUnits_append, Nat.zero_add]
  congr 1
  · -- the units before `idx` are left
    rw [readUp_offsetsAdd_of_disjoint (Or.inl (by rw [sum_replicate_eq]; omega)),
      readUp_memmove_of_disjoint (Or.inl (by rw [sum_replicate_eq]; omega)), hU₁]
  · -- the units from `idx` on, their offsets changed
    rw [readUp_offsetsAdd, readUp_memmove_of_disjoint (Or.inl (by rw [sum_replicate_eq]; omega)),
      hU₂]
    exact href.symm

/-- The values after an update and the copy of the value: the new value with its checksum in
place of the old one, the values after it moved by the difference. -/
lemma LeafHolds.resize_vals (hH : n.LeafHolds l) (hidx : idx < l.length)
    (hroom : n.head.hsize + n.head.unit * n.fkvvUsed +
      (n.head.runOffset l n.fkvvUsed - n.head.slotSize l[idx]) + (v.length + n.head.crcSize) ≤
        n.head.fkvvNsize)
    (hres : n.valResize idx ((v.length : ℤ) - l[idx].2.length) = some n₁) :
    readDown (memWrite n₁.mem
        (n.head.fkvvNsize - (n.head.runOffset l idx + (v.length + n.head.crcSize)))
        (v ++ n.head.crcOf v))
      n.head.fkvvNsize ((l.modify idx fun r => (r.1, v)).map n.head.slotSize) =
    (l.modify idx fun r => (r.1, v)).map fun r => r.2 ++ n.head.crcOf r.2 := by
  have hu := hH.used
  obtain ⟨hV₁, -⟩ := hH.vals_cut idx
  obtain ⟨-, hV₂⟩ := hH.vals_cut (idx + 1)
  have hdrop := runOffset_add_drop (h := n.head) (l := l) (idx + 1)
  rw [← runOffset_length (h := n.head) (l := l), ← hu] at hdrop
  have hsucc := runOffset_succ (h := n.head) hidx
  have hR : ((l.take idx).map n.head.slotSize).sum = n.head.runOffset l idx := rfl
  have hslot : n.head.slotSize l[idx] = l[idx].2.length + n.head.crcSize := rfl
  have hnew : n.head.slotSize (l[idx].1, v) = v.length + n.head.crcSize := rfl
  have hfits := hH.fits
  have hsum : (l.map n.head.slotSize).sum = n.head.runOffset l n.fkvvUsed := by
    rw [hu, runOffset_length]
  have hloop : n.head.unit * (idx + (n.fkvvUsed - idx)) = n.head.unit * n.fkvvUsed := by
    congr 1
    omega
  -- the resize in the values, as `readDown_resize` reads it
  have hins := @readDown_resize n.mem n.head.fkvvNsize (n.head.fkvvNsize - n.head.runOffset l idx)
    (n.head.slotSize l[idx]) (v.length + n.head.crcSize)
    ((l.drop (idx + 1)).map n.head.slotSize).sum ((l.take idx).map n.head.slotSize)
    ((l.drop (idx + 1)).map n.head.slotSize) (v ++ n.head.crcOf v) rfl (by simp) rfl
    (by omega) (by omega)
  have e₁ : n.head.fkvvNsize - n.head.runOffset l idx - (v.length + n.head.crcSize) -
      ((l.drop (idx + 1)).map n.head.slotSize).sum =
      (((n.head.fkvvNsize - n.head.runOffset l n.fkvvUsed : ℕ) : ℤ) -
        ((v.length : ℤ) - l[idx].2.length)).toNat := by omega
  have e₂ : n.head.fkvvNsize - n.head.runOffset l idx - n.head.slotSize l[idx] -
      ((l.drop (idx + 1)).map n.head.slotSize).sum =
      n.head.fkvvNsize - n.head.runOffset l n.fkvvUsed := by omega
  have e₃ : ((l.drop (idx + 1)).map n.head.slotSize).sum =
      n.head.runOffset l n.fkvvUsed - n.head.runOffset l (idx + 1) := by omega
  have e₄ : n.head.fkvvNsize - n.head.runOffset l idx - n.head.slotSize l[idx] =
      n.head.fkvvNsize - n.head.runOffset l (idx + 1) := by omega
  rw [e₁, e₂, e₃, e₄, Nat.sub_sub n.head.fkvvNsize (n.head.runOffset l idx), hV₁, hV₂] at hins
  rw [hH.valResize_eq hidx] at hres
  cases hres
  dsimp only
  rw [modify_eq_take_drop_map _ hidx, modify_eq_take_drop_map _ hidx]
  refine (readDown_congr (by simp only [List.sum_append, List.sum_cons]; omega)
    fun x hx₁ hx₂ => ?_).trans hins
  -- the loop of offsets lies below the values
  simp only [List.sum_append, List.sum_cons] at hx₁
  exact memWrite_congr_apply (offsetsAdd_apply (Or.inr (by omega)))

end Resize

/-- An update at a leaf keeps the records, with the value at its index replaced. -/
theorem step_valResize_leaf (hH : n.LeafHolds l) {idx : ℕ} {v : List UInt8} {n' : FkvvNode}
    (hs : step (.valResize idx v) n = some n') :
    n'.LeafHolds (l.modify idx fun r => (r.1, v)) := by
  obtain ⟨s₀, hs₀, hguard, n₁, hres, s, hslot, hdone⟩ := step_valResize_eq hs
  have hidx : idx < l.length := hH.used ▸ valResize_lt hres
  rw [hH.recSlot_eq hidx] at hs₀
  obtain rfl := Option.some.inj hs₀
  dsimp only at hguard hres
  have hsucc := runOffset_succ (h := n.head) hidx
  have hmono := runOffset_mono (h := n.head) (l := l) (show idx + 1 ≤ n.fkvvUsed by
    rw [hH.used]; omega)
  have hsum : (l.map n.head.slotSize).sum = n.head.runOffset l n.fkvvUsed := by
    rw [hH.used, runOffset_length]
  have hslotSize : n.head.slotSize l[idx] = l[idx].2.length + n.head.crcSize := rfl
  have hfits := hH.fits
  -- the growth fits: a shrink always does, a growth by the guard on `fkvv_space`
  have hroom : n.head.hsize + n.head.unit * n.fkvvUsed +
      (n.head.runOffset l n.fkvvUsed - n.head.slotSize l[idx]) + (v.length + n.head.crcSize) ≤
        n.head.fkvvNsize := by
    rcases hguard with hg | hg
    · omega
    · rw [hH.space_eq_units] at hg
      omega
  have hrec := hH.valResize_recSlot hidx hroom hres
  -- an empty value fails the assertion of `fkvv_rec_val_size`
  have hv : 0 < v.length := by
    by_contra h0
    rw [if_neg h0, hslot] at hrec
    cases hrec
  rw [if_pos hv] at hrec
  obtain rfl : s = _ := Option.some.inj (hslot.symm.trans hrec)
  have hhead : n₁.head = n.head := by
    rw [hH.valResize_eq hidx] at hres
    cases hres
    rfl
  have hused : n₁.fkvvUsed = n.fkvvUsed := by
    rw [hH.valResize_eq hidx] at hres
    cases hres
    rfl
  have hvoa := valOffsetAddr_eq (h := n.head) idx
  have hunit : n.head.unit * (idx + 1) ≤ n.head.unit * n.fkvvUsed :=
    Nat.mul_le_mul_left _ (by rw [hH.used]; omega)
  have hsuccU : n.head.unit * (idx + 1) = n.head.unit * idx + (n.head.fkvvKsize + OFFSET_SIZE) :=
    Nat.mul_succ _ _
  have hva : n.head.valOffsetAddr idx + OFFSET_SIZE ≤
      n.head.fkvvNsize - (n.head.runOffset l idx + (v.length + n.head.crcSize)) := by omega
  obtain rfl := fillValue_done (hhead ▸ hH.leaf) hrec rfl (by rw [hhead]; exact hva) hdone
  have hunits := hH.resize_units hidx hroom hres
  have hvals := hH.resize_vals hidx hroom hres
  have hsum' : ((l.modify idx fun r => (r.1, v)).map n.head.slotSize).sum +
      n.head.slotSize l[idx] = n.head.runOffset l n.fkvvUsed + (v.length + n.head.crcSize) := by
    have hdrop := runOffset_add_drop (h := n.head) (l := l) (idx + 1)
    rw [← runOffset_length (h := n.head) (l := l), ← hH.used] at hdrop
    rw [modify_eq_take_drop_map _ hidx, List.sum_append, List.sum_cons, ← hdrop, hsucc]
    simp only [slotSize]
    unfold runOffset
    omega
  obtain ⟨head₁, used₁, mem₁⟩ := n₁
  dsimp only at hhead hused hunits hvals ⊢
  subst hhead hused
  refine ⟨hH.leaf, ?_, ?_, hunits, hvals, ?_, hH.small⟩
  · rw [List.length_modify, hH.used]
  · intro r hr
    obtain ⟨i, hi, rfl⟩ := List.getElem_of_mem hr
    have hi' : i < l.length := by simpa using hi
    rw [List.getElem_modify]
    split
    · exact ⟨(hH.sizes _ (List.getElem_mem hi')).1, hv⟩
    · exact hH.sizes _ (List.getElem_mem hi')
  · dsimp only
    omega

end LeafHolds

/-! ### The fkvv format: internal nodes and leaves -/

/-- The bytes of an fkvv node hold the records `recs`: an internal node as the ff node of the
same bytes does, a leaf as `LeafHolds` says. -/
def Holds (n : FkvvNode) (recs : List NodeRec) : Prop :=
  (n.head.IsInternal ∧ n.toFf.Holds recs) ∨ n.LeafHolds recs

section Holds

variable {n : FkvvNode} {l : List NodeRec}

lemma Holds.leafHolds (h : n.Holds l) (hl : ¬ n.head.IsInternal) : n.LeafHolds l := by
  rcases h with ⟨hi, -⟩ | hH
  · exact absurd hi hl
  · exact hH

/-- Every request that leaves fewer than `2 ^ 16` records keeps the records, with the request
applied to them. -/
theorem step_holds (op : NodeOp) (n n' : FkvvNode) (l : List NodeRec) (h : n.Holds l)
    (hcap : (op.apply l).length < 2 ^ 16) (hs : step op n = some n') : n'.Holds (op.apply l) := by
  rcases h with ⟨hi, hH⟩ | hH
  · -- an internal node: the request at the ff node of the same bytes
    rw [step_internal hi] at hs
    obtain ⟨m, hm, rfl⟩ := Option.map_eq_some_iff.mp hs
    refine Or.inl ⟨hi, ?_⟩
    rw [toFf_ofFf (FfNode.step_head hm)]
    exact FfNode.step_holds op n.toFf m l hH hcap hm
  · right
    cases op with
    | make idx k v =>
      have hidx : idx ≤ l.length := hH.used ▸ (step_make_eq hs).2.1
      exact step_make_leaf hH (by rwa [NodeOp.apply, length_ntMake _ hidx] at hcap) hs
    | del idx => exact step_del_leaf hH hs
    | valResize idx v => exact step_valResize_leaf hH hs

/-- A node just initialised, whose head fits in it and whose size fits the `uint32_t`
offsets, holds no record. -/
lemma init_holds {mem : ℕ → UInt8} {hsize ksize nsize lvl : ℕ} {crc : BtreeCrcType}
    (hinit : init mem hsize ksize nsize crc lvl = some n) (hhead : hsize ≤ nsize)
    (hsmall : nsize < 2 ^ 32) : n.Holds [] := by
  unfold init at hinit
  split at hinit
  · cases hinit
    -- `simp` reads `2 ^ 32` as its value
    have hn : nsize % 4294967296 = nsize := Nat.mod_eq_of_lt hsmall
    by_cases hi : 0 < lvl % 2 ^ 8
    · exact Or.inl ⟨hi, rfl, by simp, rfl, rfl, by simpa [toFf, hn] using hhead⟩
    · exact Or.inr ⟨hi, rfl, by simp, rfl, rfl, by simpa [hn] using hhead, by simpa [hn] using hsmall⟩
  · cases hinit

/-- From `fkvv_init`, every run of requests along which the node holds fewer than `2 ^ 16`
records reads back as the requests applied to the empty record list. -/
theorem run_holds {mem : ℕ → UInt8} {hsize ksize nsize lvl : ℕ} {crc : BtreeCrcType}
    {n₀ : FkvvNode} {ops : List NodeOp} (hinit : init mem hsize ksize nsize crc lvl = some n₀)
    (hhead : hsize ≤ nsize) (hsmall : nsize < 2 ^ 32) (hcap : NodeOp.RunBelow (2 ^ 16) ops [])
    (hrun : NodeOp.runOn step ops n₀ = some n) : n.Holds (NodeOp.run ops []) :=
  NodeOp.runOn_holds step step_holds ops n₀ n [] (init_holds hinit hhead hsmall) hcap hrun

/-- The records `fkvv_rec` reads at the slots in use are the records held. -/
theorem Holds.read_recSlot (h : n.Holds l) :
    (List.range n.fkvvUsed).map (fun i => (n.recSlot i).map (·.read n.mem)) = l.map some := by
  rcases h with ⟨hi, hH⟩ | hH
  · rw [← hH.read_recSlot, List.map_map]
    exact List.map_congr_left fun i _ => by simp [recSlot_toFf hi, toFf]
  · exact hH.read_recSlot

/-- `fkvv_space` is the node less the head and the bytes the records take, and it is not
negative. -/
theorem Holds.space_eq (h : n.Holds l) :
    n.space = (n.head.fkvvNsize : ℤ) - n.head.hsize - ((l.map n.head.recBytes).sum : ℕ) ∧
      0 ≤ n.space := by
  rcases h with ⟨hi, hH⟩ | hH
  · -- internal records carry no checksum
    have hbytes : (l.map fun r => r.1.length + r.2.length + n.toFf.head.crcSize) =
        l.map n.head.recBytes := by
      simp [FkvvHead.recBytes, hi, FfHead.crcSize, toFf_not_hasCrc hi]
    rw [space_toFf hi, ← hbytes]
    exact hH.space_eq
  · have hbytes : (l.map fun r => r.1.length + OFFSET_SIZE + n.head.slotSize r) =
        l.map n.head.recBytes := by
      simp [FkvvHead.recBytes, hH.leaf]
    rw [← hbytes]
    exact hH.space_eq

end Holds

end FkvvNode

/-! ### The two formats with fixed-size keys -/

/-- The ff and fkvv formats implement the record list: every run of requests from `ff_init`
or `fkvv_init`, of a node that holds its head and whose size is a `uint32_t`, along which the
node holds fewer than `2 ^ 16` records (its count is a `uint16_t`), reads back through `ff_rec` / `fkvv_rec` as the requests applied to the empty list; each
checksummed leaf value is followed by its hash; the offsets of an fkvv leaf increase strictly
from a positive first one; and the free space is the node less its head and the bytes of the
records, never negative. -/
theorem nodeFormats_implement_records :
    (∀ (mem : ℕ → UInt8) (hsize ksize vsize nsize lvl : ℕ) (crc : BtreeCrcType)
        (ops : List NodeOp) (n₀ n : FfNode),
      FfNode.init mem hsize ksize vsize nsize crc lvl = some n₀ → hsize ≤ nsize → nsize < 2 ^ 32 →
      NodeOp.RunBelow (2 ^ 16) ops [] → NodeOp.runOn FfNode.step ops n₀ = some n →
        (List.range n.ffUsed).map (fun i => (n.head.recSlot i).read n.mem) =
          NodeOp.run ops [] ∧
        (n.head.HasCrc → ∀ i (hi : i < (NodeOp.run ops []).length),
          memRead n.mem (n.head.val i + n.head.valsize) CRC_VALUE_SIZE =
            crcWord (NodeOp.run ops [])[i].2) ∧
        n.space = (n.head.ffNsize : ℤ) - n.head.hsize -
          (((NodeOp.run ops []).map fun r => r.1.length + r.2.length + n.head.crcSize).sum : ℕ) ∧
        0 ≤ n.space) ∧
    (∀ (mem : ℕ → UInt8) (hsize ksize nsize lvl : ℕ) (crc : BtreeCrcType)
        (ops : List NodeOp) (n₀ n : FkvvNode),
      FkvvNode.init mem hsize ksize nsize crc lvl = some n₀ → hsize ≤ nsize → nsize < 2 ^ 32 →
      NodeOp.RunBelow (2 ^ 16) ops [] → NodeOp.runOn FkvvNode.step ops n₀ = some n →
        (List.range n.fkvvUsed).map (fun i => (n.recSlot i).map (·.read n.mem)) =
          (NodeOp.run ops []).map some ∧
        (¬ n.head.IsInternal →
          (∀ i j, i < j → j < n.fkvvUsed → n.head.readOffset n.mem i < n.head.readOffset n.mem j) ∧
          (0 < n.fkvvUsed → 0 < n.head.readOffset n.mem 0) ∧
          (n.head.crcType = .M0_BCT_BTREE_ENC_RAW_HASH → ∀ i (hi : i < (NodeOp.run ops []).length),
            memRead n.mem (n.val i + (NodeOp.run ops [])[i].2.length) CRC_VALUE_SIZE =
              crcWord (NodeOp.run ops [])[i].2)) ∧
        n.space = (n.head.fkvvNsize : ℤ) - n.head.hsize -
          (((NodeOp.run ops []).map n.head.recBytes).sum : ℕ) ∧
        0 ≤ n.space) := by
  refine ⟨?_, ?_⟩
  · intro mem hsize ksize vsize nsize lvl crc ops n₀ n hinit hhead hsmall hcap hrun
    have hH := FfNode.run_holds hinit hhead hsmall hcap hrun
    exact ⟨hH.read_recSlot, fun hc _ hi => hH.crc_word hc hi, hH.space_eq⟩
  · intro mem hsize ksize nsize lvl crc ops n₀ n hinit hhead hsmall hcap hrun
    have hH := FkvvNode.run_holds hinit hhead hsmall hcap hrun
    refine ⟨hH.read_recSlot, fun hl => ?_, hH.space_eq⟩
    have hL := hH.leafHolds hl
    exact ⟨fun _ _ hij hj => hL.readOffset_lt hij hj, hL.readOffset_zero_pos,
      fun hc _ hi => hL.crc_word hc hi⟩

/-- The theorem at a run of one make into an empty fkvv leaf and one into an empty ff leaf. -/
theorem nodeFormats_implement_records_one_make :
    ∃ (m : FfNode) (n : FkvvNode),
      NodeOp.runOn FfNode.step [.make 0 [7] [9]]
          ⟨⟨0, 1, 1, 64, .M0_BCT_NO_CRC, 16⟩, 0, fun _ => 0⟩ = some m ∧
        NodeOp.runOn FkvvNode.step [.make 0 [7] [9]]
          ⟨⟨0, 1, 64, .M0_BCT_BTREE_ENC_RAW_HASH, 16⟩, 0, fun _ => 0⟩ = some n ∧
        (List.range m.ffUsed).map (fun i => (m.head.recSlot i).read m.mem) = [([7], [9])] ∧
        (List.range n.fkvvUsed).map (fun i => (n.recSlot i).map (·.read n.mem)) =
          [some ([7], [9])] :=
  ⟨_, _, rfl, rfl,
    (nodeFormats_implement_records.1 (fun _ => 0) 16 1 1 64 0 .M0_BCT_NO_CRC [.make 0 [7] [9]]
      _ _ rfl (by decide) (by decide) (by decide) rfl).1,
    (nodeFormats_implement_records.2 (fun _ => 0) 16 1 64 0 .M0_BCT_BTREE_ENC_RAW_HASH
      [.make 0 [7] [9]] _ _ rfl (by decide) (by decide) (by decide) rfl).1⟩

/-- An empty value made at the first slot of an empty fkvv leaf without checksums:
`fkvv_isfit` accepts it, yet the offset `fkvv_make_leaf` stores for it is `0`, and `fkvv_rec`
then fails its assertion `vsize > 0`. -/
theorem fkvv_make_empty_value :
    let n₀ : FkvvNode := ⟨⟨0, 1, 64, .M0_BCT_NO_CRC, 16⟩, 0, fun _ => 0⟩
    FkvvNode.init (fun _ => 0) 16 1 64 .M0_BCT_NO_CRC 0 = some n₀ ∧
      n₀.isfit [7] [] = some true ∧
      (n₀.make 0 0).head.readOffset (n₀.make 0 0).mem 0 = 0 ∧
      (n₀.make 0 0).recSlot 0 = none := by
  intro n₀
  refine ⟨rfl, by decide, by decide, ?_⟩
  rw [FkvvNode.recSlot, Option.map_eq_none_iff]
  decide

end Motr
