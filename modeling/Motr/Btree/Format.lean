import Motr.Btree.Node
import Motr.Lib.Mem

/-!
What the byte formats of `be/btree.c` share, and what they are asked to implement.

A node format stores a node's records in the node's bytes. The tree code changes a node
through three requests, each followed by the copy of the caller's bytes into the slot that
`nt_rec` returns and by `nt_done`, which refreshes a leaf's checksum:

* make room at an index and write a record there (`nt_make`);
* delete the record at an index (`nt_del`);
* resize the value at an index and write the new value (`nt_val_resize`, on update).

`NodeOp` names these requests with the bytes they write, and `NodeOp.apply` says what each is
for on the list of records in index order: the slot operations `ntMake` and `bnodeDel` of the
node layer, and a value change that keeps the key. A format implements the record list when
a run of requests (`NodeOp.runOn`, stopping at the first one whose precondition fails)
reads back as the same requests applied to the list; `NodeOp.runOn_holds` reduces this to one
operation at a time. The count of records is a `uint16_t` in every format, so this holds of
the runs along which the list stays below `2 ^ 16` records (`NodeOp.RunBelow`).

The checksum a leaf record carries under `M0_BCT_BTREE_ENC_RAW_HASH` is the FNV-1 hash of its
value (`m0HashFncFnv1`), stored after the value as a `uint64_t` (`crcWord`).
-/

namespace Motr

/-- `enum m0_btree_crc_type`: how the records of a tree are checksummed. Only
`M0_BCT_BTREE_ENC_RAW_HASH` makes the node formats store a checksum after each leaf value. -/
inductive BtreeCrcType where
  | M0_BCT_NO_CRC
  | M0_BCT_USER_ENC_RAW_HASH
  | M0_BCT_USER_ENC_FORMAT_FOOTER
  | M0_BCT_USER_CRC_FUNCTION
  | M0_BCT_BTREE_ENC_RAW_HASH
  deriving DecidableEq, Repr

/-- `CRC_VALUE_SIZE`: a checksum is a `uint64_t`. -/
def CRC_VALUE_SIZE : ℕ := 8

/-- `m0_hash_fnc_fnv1`: the 64-bit FNV-1 hash of a buffer, `0` for an empty one. -/
def m0HashFncFnv1 (bs : List UInt8) : UInt64 :=
  if bs.length = 0 then 0
  else bs.foldl (fun v b => v * 1099511628211 ^^^ b.toUInt64) 14695981039346656037

/-- The bytes `*(uint64_t *)(val + vsize) = m0_hash_fnc_fnv1(val, vsize)` stores. -/
def crcWord (v : List UInt8) : List UInt8 := leBytes CRC_VALUE_SIZE (m0HashFncFnv1 v).toNat

@[simp] lemma length_crcWord (v : List UInt8) : (crcWord v).length = CRC_VALUE_SIZE := by
  simp [crcWord]

/-- A record as the tree code reads it from a slot: key bytes and value bytes. -/
abbrev NodeRec := List UInt8 × List UInt8

/-- A slot as `nt_rec` returns it: where the key and the value of a record are, and their
sizes. -/
structure NodeSlot where
  keyAddr : ℕ
  keySize : ℕ
  valAddr : ℕ
  valSize : ℕ

/-- The record a slot shows. -/
def NodeSlot.read (s : NodeSlot) (m : ℕ → UInt8) : NodeRec :=
  (memRead m s.keyAddr s.keySize, memRead m s.valAddr s.valSize)

/-- `COPY_RECORD`: the caller's key, then its value, copied into the slot. -/
def NodeSlot.copyRecord (s : NodeSlot) (m : ℕ → UInt8) (k v : List UInt8) : ℕ → UInt8 :=
  memWrite (memWrite m s.keyAddr k) s.valAddr v

/-- `COPY_VALUE`: the caller's value copied into the slot. -/
def NodeSlot.copyValue (s : NodeSlot) (m : ℕ → UInt8) (v : List UInt8) : ℕ → UInt8 :=
  memWrite m s.valAddr v

/-- A request to a node format, with the bytes the caller writes after it. -/
inductive NodeOp where
  /-- `nt_make` at the index, then the key and the value copied into the new slot. -/
  | make (idx : ℕ) (key val : List UInt8)
  /-- `nt_del` at the index. -/
  | del (idx : ℕ)
  /-- `nt_val_resize` at the index to the new value's size, then the value copied. -/
  | valResize (idx : ℕ) (val : List UInt8)

/-- What a request does to the records in index order. -/
def NodeOp.apply : NodeOp → List NodeRec → List NodeRec
  | .make idx k v, recs => ntMake recs idx (k, v)
  | .del idx, recs => bnodeDel recs idx
  | .valResize idx v, recs => recs.modify idx fun r => (r.1, v)

/-- A sequence of requests applied to a record list. -/
def NodeOp.run (ops : List NodeOp) (recs : List NodeRec) : List NodeRec :=
  ops.foldl (fun recs op => op.apply recs) recs

section Run

variable {N : Type} (step : NodeOp → N → Option N)

/-- A sequence of requests to a format, stopping at the first whose precondition fails. -/
def NodeOp.runOn : List NodeOp → N → Option N
  | [], n => some n
  | op :: ops, n => (step op n).bind (NodeOp.runOn ops)

/-- After each request of a run the record list has fewer than `b` records: with
`b = 2 ^ 16`, the `uint16_t` count of a node never wraps. -/
def NodeOp.RunBelow (b : ℕ) : List NodeOp → List NodeRec → Prop
  | [], _ => True
  | op :: ops, recs => (op.apply recs).length < b ∧ NodeOp.RunBelow b ops (op.apply recs)

instance NodeOp.decidableRunBelow (b : ℕ) :
    ∀ ops recs, Decidable (NodeOp.RunBelow b ops recs)
  | [], _ => isTrue trivial
  | op :: ops, recs =>
    haveI := NodeOp.decidableRunBelow b ops (op.apply recs)
    inferInstanceAs (Decidable (_ ∧ _))

/-- A relation between nodes and record lists that every request keeps, while the list stays
below a bound, holds over every run that stays below it: the format implements the record
list. -/
theorem NodeOp.runOn_holds {Holds : N → List NodeRec → Prop} {b : ℕ}
    (hstep : ∀ op n n' l, Holds n l → (op.apply l).length < b → step op n = some n' →
      Holds n' (op.apply l)) :
    ∀ (ops : List NodeOp) (n n' : N) (l : List NodeRec), Holds n l → NodeOp.RunBelow b ops l →
      NodeOp.runOn step ops n = some n' → Holds n' (NodeOp.run ops l) := by
  intro ops
  induction ops with
  | nil =>
    intro n n' l hl _ hrun
    cases hrun
    exact hl
  | cons op ops ih =>
    intro n n' l hl hb hrun
    obtain ⟨n₁, h₁, hrest⟩ := Option.bind_eq_some_iff.mp hrun
    exact ih n₁ n' (op.apply l) (hstep op n n₁ l hl hb.1 h₁) hb.2 hrest

end Run

/-! ### Arrays of slots of one size, cut at an index -/

lemma sum_replicate_eq (j s : ℕ) : (List.replicate j s).sum = s * j := by
  simp [Nat.mul_comm]

lemma replicate_cut {u idx : ℕ} (h : idx ≤ u) (s : ℕ) :
    List.replicate u s = List.replicate idx s ++ List.replicate (u - idx) s := by
  rw [← List.replicate_add, Nat.add_sub_cancel' h]

lemma replicate_succ_cut {u idx : ℕ} (h : idx ≤ u) (s : ℕ) :
    List.replicate (u + 1) s = List.replicate idx s ++ s :: List.replicate (u - idx) s := by
  rw [← List.replicate_succ, ← List.replicate_add]
  congr 1
  omega

lemma replicate_cut_at {u idx : ℕ} (h : idx < u) (s : ℕ) :
    List.replicate u s = List.replicate idx s ++ s :: List.replicate (u - (idx + 1)) s := by
  rw [← List.replicate_succ, ← List.replicate_add]
  congr 1
  omega

/-! ### The reference operations at a cut of the record list -/

section Cut

variable {R : Type}

lemma ntMake_eq_take_drop_map {S : Type} (f : R → S) {recs : List R} {idx : ℕ}
    (r : R) : (ntMake recs idx r).map f = (recs.take idx).map f ++ f r :: (recs.drop idx).map f := by
  simp [ntMake]

lemma bnodeDel_eq_take_drop_map {S : Type} (f : R → S) (recs : List R) (idx : ℕ) :
    (bnodeDel recs idx).map f = (recs.take idx).map f ++ (recs.drop (idx + 1)).map f := by
  simp [bnodeDel]

lemma modify_eq_take_drop_map {S : Type} (f : R → S) {recs : List R} {idx : ℕ}
    (h : idx < recs.length) (g : R → R) :
    (recs.modify idx g).map f =
      (recs.take idx).map f ++ f (g recs[idx]) :: (recs.drop (idx + 1)).map f := by
  simp [List.modify_eq_take_cons_drop h]

end Cut

end Motr
