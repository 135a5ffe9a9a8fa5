import Motr.Btree.GetCorrect
import Motr.Emap.Ext

/-!
The records and the cursor of the extent map of `be/extmap.c`, over the B+tree of its mapping
(`em_mapping`).

A segment `[L, H)` of prefix `P` with value `V` is the record of key `(P, H)` and value
`(L, V)`, which also holds the unit size of the segment's checksums and the checksums
(`er_cksum_nob` bytes); keys compare by prefix, then by offset (`be_emap_cmp`). A cursor holds
the segment it is on (`ec_seg`), the key of its record (`ec_key`), the prefix it walks
(`ec_prefix`), the unit size of checksums (`ec_unit_size`) and the checksums an application
gives a write (`ec_app_cksum_buf`). The tree is passed beside the cursor.

`emap_it_pack` writes the cursor's segment as a record through one of three wrappers of the
tree (`m0_btree_put`, `m0_btree_update` without flags, `m0_btree_del`, whose callbacks
succeed: `BtreeOp.apply`); `emap_it_get` and `be_emap_next` look a key up with a slant get and
a next iteration and open what they find (`emap_it_open`). On a valid tree each does to the
records what its spec says (`emapItPack_insert`, `emapItPack_update`, `emapItPack_delete`,
`emapItGet_eq`, `beEmapNext_eq`). The record's format header and footer, the version
counter and the lock are left out, and an allocation of a record buffer never fails.
-/

namespace Motr

/-- `ESRCH`. -/
def ESRCH : Int := 3

/-- `struct m0_be_emap_key`: the prefix of a segment and the end of its extent. -/
structure EmapKey where
  ekPrefix : Nat
  ekOffset : Nat

/-- `be_emap_cmp`: by prefix (`m0_uint128_cmp`), then by offset. -/
instance : LinearOrder EmapKey :=
  LinearOrder.lift' (fun k => toLex (k.ekPrefix, k.ekOffset)) fun a b h => by
    cases a
    cases b
    simp only [toLex_inj, Prod.mk.injEq] at h
    rw [h.1, h.2]

lemma EmapKey.lt_iff {k k' : EmapKey} :
    k < k' ↔ k.ekPrefix < k'.ekPrefix ∨ k.ekPrefix = k'.ekPrefix ∧ k.ekOffset < k'.ekOffset :=
  Prod.Lex.toLex_lt_toLex

lemma EmapKey.le_iff {k k' : EmapKey} :
    k ≤ k' ↔ k.ekPrefix < k'.ekPrefix ∨ k.ekPrefix = k'.ekPrefix ∧ k.ekOffset ≤ k'.ekOffset :=
  Prod.Lex.toLex_le_toLex

@[simp] lemma EmapKey.mk_lt_mk {p q x y : Nat} :
    (⟨p, x⟩ : EmapKey) < ⟨q, y⟩ ↔ p < q ∨ p = q ∧ x < y :=
  EmapKey.lt_iff

@[simp] lemma EmapKey.mk_le_mk {p q x y : Nat} :
    (⟨p, x⟩ : EmapKey) ≤ ⟨q, y⟩ ↔ p < q ∨ p = q ∧ x ≤ y :=
  EmapKey.le_iff

/-- `struct m0_be_emap_rec` with the checksums stored after it: `er_start`, `er_value`,
`er_unit_size`, and the `er_cksum_nob` checksum bytes. -/
structure EmapRec where
  erStart : Nat
  erValue : Nat
  erUnitSize : Nat
  erCksum : List UInt8
  deriving DecidableEq, Repr

/-- `struct m0_be_emap_seg`. -/
structure EmapSeg where
  eePre : Nat
  eeExt : Ext
  eeVal : Nat
  eeCksumBuf : List UInt8
  deriving DecidableEq, Repr

/-- `struct m0_be_emap_cursor`: the segment reached, the key of its record, the prefix walked,
the checksum unit size and the application's checksums. -/
structure EmapCursor where
  ecSeg : EmapSeg
  ecKey : EmapKey
  ecPrefix : Nat
  ecUnitSize : Nat
  ecAppCksumBuf : List UInt8

/-- The tree of an extent map. -/
abbrev EmapTree := Btree EmapKey EmapRec

/-- The segment of a record, as `emap_it_open` reads it. -/
def emapSegOf (k : EmapKey) (r : EmapRec) : EmapSeg :=
  ⟨k.ekPrefix, ⟨r.erStart, k.ekOffset⟩, r.erValue, r.erCksum⟩

/-- The record of a segment, as `emap_it_pack` writes it with the cursor's unit size. -/
def emapRecOf (seg : EmapSeg) (unitSize : Nat) : EmapRec :=
  ⟨seg.eeExt.eStart, seg.eeVal, unitSize, seg.eeCksumBuf⟩

/-- The key of a segment's record: its prefix and the end of its extent. -/
def emapKeyOf (seg : EmapSeg) : EmapKey := ⟨seg.eePre, seg.eeExt.eEnd⟩

/-- `emap_it_pack`: the cursor's segment written through `btree_func` as the record of its
key, which the cursor keeps (`it->ec_key`). -/
def emapItPack (btreeFunc : EmapKey → EmapRec → EmapTree → Option (EmapTree × Int))
    (it : EmapCursor) (t : EmapTree) : Option (EmapCursor × EmapTree × Int) :=
  (btreeFunc (emapKeyOf it.ecSeg) (emapRecOf it.ecSeg it.ecUnitSize) t).map fun r =>
    ({ it with ecKey := emapKeyOf it.ecSeg }, r.1, r.2)

section Wrappers

variable (bt : BtreeType EmapKey EmapRec)

/-- `be_emap_insert_wrapper`: `m0_btree_put`, the callback copying the key and the record. -/
def beEmapInsertWrapper (k : EmapKey) (r : EmapRec) (t : EmapTree) : Option (EmapTree × Int) :=
  (BtreeOp.put k r).apply bt t

/-- `be_emap_update_wrapper`: `m0_btree_update` without `BOF_INSERT_IF_NOT_FOUND`, the callback
copying the record. -/
def beEmapUpdateWrapper (k : EmapKey) (r : EmapRec) (t : EmapTree) : Option (EmapTree × Int) :=
  (BtreeOp.update k r false).apply bt t

/-- `be_emap_delete_wrapper`: `m0_btree_del` of the key. -/
def beEmapDeleteWrapper (k : EmapKey) (_ : EmapRec) (t : EmapTree) : Option (EmapTree × Int) :=
  (BtreeOp.del k).apply bt t

end Wrappers

/-- `emap_it_open` after a lookup: the record found (`emap_it_get_cb`) gives the cursor its
key, its segment and its unit size, and is `-ESRCH` when of another prefix than the cursor
walks; a lookup that found nothing leaves the cursor with its `-ENOENT`. -/
def emapItOpen (it : EmapCursor) : Option (EmapKey × EmapRec) → EmapCursor × Int
  | none => (it, -ENOENT)
  | some (k, r) =>
    ({ it with ecKey := k, ecSeg := emapSegOf k r, ecUnitSize := r.erUnitSize },
      if k.ekPrefix = it.ecPrefix then 0 else -ESRCH)

/-- `emap_it_get`: the first record at or after the cursor's key (`BOF_SLANT`). -/
def emapItGet (it : EmapCursor) (t : EmapTree) : Option (EmapCursor × Int) :=
  (btreeGet .BOF_SLANT it.ecKey t).map (emapItOpen it)

/-- `be_emap_next`: the first record after the cursor's key (`BOF_NEXT`). -/
def beEmapNext (it : EmapCursor) (t : EmapTree) : Option (EmapCursor × Int) :=
  (btreeIter .BOF_NEXT it.ecKey t).map (emapItOpen it)

/-- The cursor is on the record `(k, r)` of the prefix it walks, as `emap_it_open` leaves it
(its unit size apart). -/
def EmapCursor.On (it : EmapCursor) (k : EmapKey) (r : EmapRec) : Prop :=
  it.ecKey = k ∧ it.ecSeg = emapSegOf k r ∧ it.ecPrefix = k.ekPrefix

/-! ### The cursor's operations on a valid tree -/

section Spec

variable {bt : BtreeType EmapKey EmapRec} {t t' : EmapTree} {it it' : EmapCursor} {rc : Int}

/-- A successful insert of the cursor's segment puts its record under a key that was absent. -/
theorem emapItPack_insert (ht : t.Valid)
    (h : emapItPack (beEmapInsertWrapper bt) it t = some (it', t', 0)) :
    emapKeyOf it.ecSeg ∉ t.contents.map Prod.fst ∧ t'.Valid ∧
      t'.contents = kvPut t.contents (emapKeyOf it.ecSeg) (emapRecOf it.ecSeg it.ecUnitSize) ∧
      it' = { it with ecKey := emapKeyOf it.ecSeg } := by
  obtain ⟨⟨t₁, rc₁⟩, happ, hr⟩ := Option.map_eq_some_iff.mp h
  simp only [Prod.mk.injEq] at hr
  obtain ⟨rfl, rfl, rfl⟩ := hr
  obtain ⟨hv, hc, hrc⟩ := BtreeOp.apply_spec bt _ ht happ
  by_cases hk : emapKeyOf it.ecSeg ∈ t.contents.map Prod.fst
  · simp [BtreeOp.spec, putSpec, hk, EEXIST] at hrc
  · simp only [BtreeOp.spec, putSpec, hk, if_false] at hc
    exact ⟨hk, hv, by simpa using hc, rfl⟩

/-- A successful update of the cursor's segment replaces the record of a present key. -/
theorem emapItPack_update (ht : t.Valid)
    (h : emapItPack (beEmapUpdateWrapper bt) it t = some (it', t', 0)) :
    emapKeyOf it.ecSeg ∈ t.contents.map Prod.fst ∧ t'.Valid ∧
      t'.contents = kvPut t.contents (emapKeyOf it.ecSeg) (emapRecOf it.ecSeg it.ecUnitSize) ∧
      it' = { it with ecKey := emapKeyOf it.ecSeg } := by
  obtain ⟨⟨t₁, rc₁⟩, happ, hr⟩ := Option.map_eq_some_iff.mp h
  simp only [Prod.mk.injEq] at hr
  obtain ⟨rfl, rfl, rfl⟩ := hr
  obtain ⟨hv, hc, hrc⟩ := BtreeOp.apply_spec bt _ ht happ
  by_cases hk : emapKeyOf it.ecSeg ∈ t.contents.map Prod.fst
  · simp only [BtreeOp.spec, putSpec, hk, if_true] at hc
    exact ⟨hk, hv, by simpa using hc, rfl⟩
  · simp [BtreeOp.spec, putSpec, hk, ENOENT] at hrc

/-- A successful delete of the cursor's segment removes the record of a present key. -/
theorem emapItPack_delete (ht : t.Valid)
    (h : emapItPack (beEmapDeleteWrapper bt) it t = some (it', t', 0)) :
    emapKeyOf it.ecSeg ∈ t.contents.map Prod.fst ∧ t'.Valid ∧
      t'.contents = kvErase t.contents (emapKeyOf it.ecSeg) ∧
      it' = { it with ecKey := emapKeyOf it.ecSeg } := by
  obtain ⟨⟨t₁, rc₁⟩, happ, hr⟩ := Option.map_eq_some_iff.mp h
  simp only [Prod.mk.injEq] at hr
  obtain ⟨rfl, rfl, rfl⟩ := hr
  obtain ⟨hv, hc, hrc⟩ := BtreeOp.apply_spec bt _ ht happ
  by_cases hk : emapKeyOf it.ecSeg ∈ t.contents.map Prod.fst
  · simp only [BtreeOp.spec, delSpec, hk, if_true] at hc
    exact ⟨hk, hv, by simpa using hc, rfl⟩
  · simp [BtreeOp.spec, delSpec, hk, ENOENT] at hrc

/-- `emap_it_get` opens the first record at or after the cursor's key. -/
theorem emapItGet_eq (ht : t.Valid) (it : EmapCursor) :
    emapItGet it t = some (emapItOpen it (t.contents.find? fun r => decide (it.ecKey ≤ r.1))) := by
  rw [emapItGet, (btreeLookup_eq ht it.ecKey).1 .BOF_SLANT]
  rfl

/-- `be_emap_next` opens the first record after the cursor's key. -/
theorem beEmapNext_eq (ht : t.Valid) (it : EmapCursor) :
    beEmapNext it t = some (emapItOpen it (t.contents.find? fun r => decide (it.ecKey < r.1))) := by
  rw [beEmapNext, (btreeLookup_eq ht it.ecKey).2.1 .BOF_NEXT]
  rfl

/-- An open of a record of the prefix the cursor walks succeeds. -/
lemma emapItOpen_some {k : EmapKey} {r : EmapRec} (hk : k.ekPrefix = it.ecPrefix) :
    emapItOpen it (some (k, r)) =
      ({ it with ecKey := k, ecSeg := emapSegOf k r, ecUnitSize := r.erUnitSize }, 0) := by
  simp [emapItOpen, hk]

/-- A successful open puts the cursor on the record found, of the prefix it walks. -/
theorem emapItOpen_ok {o : Option (EmapKey × EmapRec)} (h : emapItOpen it o = (it', 0)) :
    ∃ k r, o = some (k, r) ∧ it'.On k r ∧ it'.ecUnitSize = r.erUnitSize ∧
      it'.ecPrefix = it.ecPrefix ∧ it'.ecAppCksumBuf = it.ecAppCksumBuf := by
  match o, h with
  | none, h => simp [emapItOpen, ENOENT] at h
  | some (k, r), h =>
    simp only [emapItOpen, Prod.mk.injEq] at h
    obtain ⟨rfl, hrc⟩ := h
    have hp : k.ekPrefix = it.ecPrefix := by
      by_contra hne
      simp [hne, ESRCH] at hrc
    exact ⟨k, r, rfl, ⟨rfl, rfl, hp.symm⟩, rfl, rfl, rfl⟩

end Spec

end Motr
