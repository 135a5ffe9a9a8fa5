import Motr.Emap.Cursor

/-!
`m0_be_emap_paste` and `be_emap_split` of `be/extmap.c`.

A paste of the extent `ext` with value `val` walks the segments it overlaps, from the one the
cursor is on. Each segment is cut in up to three parts (`length[0..2]`): the part left of
`ext`, the part in it, the part right of it. `be_emap_split` writes the non-empty parts as
records, updating the segment's own record for a part that ends where the segment does (the
key being that end) and inserting the others, and deletes the segment's record when no part
reaches its end. The part in `ext` is empty but on the last segment, where it is the whole
of `ext` (`length[1]`): the new extent is inserted only once, at the end, so that no two keys
mask each other while the map is porous. A part left of `ext` keeps the checksums of the
first unit starts of the segment, a part right of it those from the first unit start past
`ext`, when both the segment and the application carry checksums.

The callbacks `del`, `cut_left` and `cut_right` are shown the cursor's segment and may change
it; `NULL` is `none`. The arrays `bstart` and `cksum` of the C function live across the
iterations, and the model passes entries 0 and 2 from one iteration to the next (entry 1 is
set anew each time). A failed assertion is `none`.
-/

namespace Motr

/-- An entry of the vector `be_emap_split` is given: the length of the part (`v_count[i]`),
its value (`iv_index[i]`) and its checksums (`cksum[i]`). -/
structure SplitPart where
  count : Nat
  index : Nat
  cksum : List UInt8

/-- `m0_vec_is_empty`: every part has length zero. -/
def m0VecIsEmpty (vec : List SplitPart) : Bool := vec.all fun part => part.count = 0

/-- `m0_be_emap_ext_is_last`: the extent ends at the end of the name space. -/
def m0BeEmapExtIsLast (e : Ext) : Bool := e.eEnd = M0_BINDEX_MAX + 1

/-- The `nob` bytes at byte offset `off` of a buffer (`m0_buf` at `b_addr + off`). -/
def bufSlice (buf : List UInt8) (off nob : Nat) : List UInt8 := (buf.drop off).take nob

section Split

variable (bt : BtreeType EmapKey EmapRec)

/-- The loop of `be_emap_split` over the parts, `scan` being where the next part starts: a
non-empty part becomes the cursor's segment and is written, updating the record of the
segment when it ends where the segment did (`seg_end`), inserted otherwise. -/
def beEmapSplitLoop (segEnd : Nat) :
    List SplitPart → Nat → EmapCursor → EmapTree → Option (EmapCursor × EmapTree × Int)
  | [], _, it, t => some (it, t, 0)
  | part :: vec, scan, it, t =>
    if part.count = 0 then beEmapSplitLoop segEnd vec scan it t
    else
      let it := { it with ecSeg := { it.ecSeg with
        eeExt := ⟨scan, scan + part.count⟩, eeVal := part.index, eeCksumBuf := part.cksum } }
      let btreeFunc :=
        if scan + part.count = segEnd then beEmapUpdateWrapper bt else beEmapInsertWrapper bt
      match emapItPack btreeFunc it t with
      | none => none
      | some (it, t, rc) =>
        if rc = 0 then beEmapSplitLoop segEnd vec (scan + part.count) it t else some (it, t, rc)

/-- **`be_emap_split`**: the parts written from `scan` on; then, when they are all empty or
the last one stops short of the segment's end, the segment's record deleted and the cursor's
key moved to where the parts stopped; then the cursor put back on the record at its key
(`emap_it_get`). -/
def beEmapSplit (it : EmapCursor) (vec : List SplitPart) (scan : Nat) (t : EmapTree) :
    Option (EmapCursor × EmapTree × Int) :=
  let segEnd := it.ecSeg.eeExt.eEnd
  match beEmapSplitLoop bt segEnd vec scan it t with
  | none => none
  | some (it, t, rc) =>
    let deleted : Option (EmapCursor × EmapTree × Int) :=
      if rc = 0 ∧ (m0VecIsEmpty vec ∨ it.ecSeg.eeExt.eEnd ≠ segEnd) then
        let lastEnd := it.ecSeg.eeExt.eEnd
        (emapItPack (beEmapDeleteWrapper bt)
          { it with ecSeg := { it.ecSeg with eeExt := { it.ecSeg.eeExt with eEnd := segEnd } } }
          t).map fun r => ({ r.1 with ecKey := { r.1.ecKey with ekOffset := lastEnd } }, r.2)
      else some (it, t, rc)
    match deleted with
    | none => none
    | some (it, t, rc) =>
      if rc = 0 then (emapItGet it t).map fun r => (r.1, t, r.2) else some (it, t, rc)

end Split

/-! ### The paste -/

/-- A callback `cut_left` or `cut_right`: the segment, the clip and the segment's old value. -/
abbrev EmapCut := EmapSeg → Ext → Nat → EmapSeg

/-- The checksum bytes of one unit start of the cursor's segment (`cksum_unit_size`): its
checksum bytes over the number of unit starts of its extent, both asserted non-zero. -/
def pasteCksumUnitSize (it : EmapCursor) : Option Nat :=
  match m0ExtGetNumUnitStart it.ecSeg.eeExt.eStart (m0ExtLength it.ecSeg.eeExt)
      it.ecUnitSize with
  | none => none
  | some chunkCsCount =>
    if chunkCsCount = 0 then none
    else
      let cksumUnitSize := it.ecSeg.eeCksumBuf.length / chunkCsCount
      if cksumUnitSize = 0 then none else some cksumUnitSize

/-- The part left of the clip (`length[0] > 0`): `cut_left` is shown the segment, the part
takes the segment's value (`bstart[0]`) and, when checksums are computed, the checksums of
the unit starts of `[chunk.e_start, clip.e_start)`, the first of the segment's (`cksum[0]`).
An empty part leaves both entries as they were. -/
def pasteCutLeft (cutLeft : Option EmapCut) (it : EmapCursor) (clip : Ext)
    (valOrig length0 cksumUnitSize : Nat) (computeCksum : Bool) (prev : Nat × List UInt8) :
    Option (EmapCursor × Nat × List UInt8) :=
  if length0 = 0 then some (it, prev)
  else
    let it := match cutLeft with
      | none => it
      | some f => { it with ecSeg := f it.ecSeg clip valOrig }
    if computeCksum then
      (m0ExtGetCksumNob it.ecSeg.eeExt.eStart length0 it.ecUnitSize cksumUnitSize).map
        fun nob => (it, it.ecSeg.eeVal, bufSlice it.ecSeg.eeCksumBuf 0 nob)
    else some (it, it.ecSeg.eeVal, prev.2)

/-- The part right of the clip (`length[2] > 0`): `cut_right` is shown the segment, the part
takes the segment's value (`bstart[2]`) and, when checksums are computed, the checksums of
the unit starts of `[clip.e_end, chunk.e_end)`, from the unit of `clip.e_end` rounded up
(`cksum[2]`). -/
def pasteCutRight (cutRight : Option EmapCut) (it : EmapCursor) (clip : Ext)
    (valOrig length2 cksumUnitSize : Nat) (computeCksum : Bool) (prev : Nat × List UInt8) :
    Option (EmapCursor × Nat × List UInt8) :=
  if length2 = 0 then some (it, prev)
  else
    let eus := it.ecUnitSize
    let it := match cutRight with
      | none => it
      | some f => { it with ecSeg := f it.ecSeg clip valOrig }
    if computeCksum then
      match m0ExtGetCksumNob clip.eEnd length2 it.ecUnitSize cksumUnitSize,
        (m0RoundUp clip.eEnd eus).bind fun r =>
          m0ExtGetCksumAddr r it.ecSeg.eeExt.eStart eus cksumUnitSize with
      | some nob, some off => some (it, it.ecSeg.eeVal, bufSlice it.ecSeg.eeCksumBuf off nob)
      | _, _ => none
    else some (it, it.ecSeg.eeVal, prev.2)

section Paste

variable (bt : BtreeType EmapKey EmapRec) (ext0 : Ext) (val : Nat)
  (del : Option (EmapSeg → EmapSeg)) (cutLeft cutRight : Option EmapCut)

/-- The parts of the cursor's segment in one iteration of `m0_be_emap_paste`, `ext` being
what is left of `ext0`: the clip of the segment to `ext`, the lengths of the three parts
(`length[0..2]`, the middle one the whole of `ext0` on the segment where `ext` ends), their
values and checksums, the segment shown to `del` when nothing of it is left, and where the
split starts (the segment's start when a part is left of the clip, `ext0` otherwise). Entries
0 and 2 of `bstart` and `cksum` come in as `left` and `right` and go out changed or not. -/
def pasteParts (it : EmapCursor) (ext : Ext) (left right : Nat × List UInt8) :
    Option (EmapCursor × List SplitPart × Nat × (Nat × List UInt8) × (Nat × List UInt8)) :=
  let clip := m0ExtIntersection ext it.ecSeg.eeExt
  let length0 := clip.eStart - it.ecSeg.eeExt.eStart
  let length1 := if clip.eEnd = ext.eEnd then m0ExtLength ext0 else 0
  let length2 := it.ecSeg.eeExt.eEnd - clip.eEnd
  let valOrig := it.ecSeg.eeVal
  let computeCksum := decide (it.ecSeg.eeCksumBuf ≠ [] ∧ it.ecAppCksumBuf ≠ [])
  match (if computeCksum then pasteCksumUnitSize it else some 0) with
  | none => none
  | some cksumUnitSize =>
  match pasteCutLeft cutLeft it clip valOrig length0 cksumUnitSize computeCksum left with
  | none => none
  | some (it, left) =>
  match pasteCutRight cutRight it clip valOrig length2 cksumUnitSize computeCksum right with
  | none => none
  | some (it, right) =>
  let it := if length0 = 0 ∧ length2 = 0 then
      (match del with
        | none => it
        | some f => { it with ecSeg := f it.ecSeg })
    else it
  some (it,
    [⟨length0, left.1, left.2⟩, ⟨length1, val, it.ecAppCksumBuf⟩, ⟨length2, right.1, right.2⟩],
    (if 0 < length0 then it.ecSeg.eeExt.eStart else ext0.eStart), left, right)

/-- The loop of `m0_be_emap_paste`, `ext` being what is left of the extent `ext0` and
`left`, `right` the entries 0 and 2 of `bstart` and `cksum`: clip the cursor's segment to
`ext` (`M0_ASSERT(consumed > 0)`), cut it in parts and split it; then move on by what was
consumed, to the next segment (`be_emap_next`) unless the split deleted the segment and moved
the cursor already. A failed `be_emap_next` ends the loop with the rc of the split. -/
def m0BeEmapPasteLoop (it : EmapCursor) (t : EmapTree) (ext : Ext) (left right : Nat × List UInt8) :
    Option (EmapCursor × EmapTree × Int) :=
  if hemp : m0ExtIsEmpty ext then some (it, t, 0)
  else
    let consumed := m0ExtLength (m0ExtIntersection ext it.ecSeg.eeExt)
    if hcon : consumed = 0 then none
    else
      match pasteParts ext0 val del cutLeft cutRight it ext left right with
      | none => none
      | some (it, vec, scan, left, right) =>
      match beEmapSplit bt it vec scan t with
      | none => none
      | some (it, t, rc) =>
        if rc ≠ 0 then some (it, t, rc)
        else
          let ext' : Ext := ⟨ext.eStart + consumed, ext.eEnd⟩
          -- `M0_ASSERT(ext->e_start <= ext->e_end)`
          if ext'.eEnd < ext'.eStart then none
          else if m0ExtIsEmpty ext' then some (it, t, 0)
          else if m0VecIsEmpty vec then m0BeEmapPasteLoop it t ext' left right
          else if m0BeEmapExtIsLast it.ecSeg.eeExt then none
          else
            match beEmapNext it t with
            | none => none
            | some (it, rcNext) =>
              if rcNext ≠ 0 then some (it, t, 0) else m0BeEmapPasteLoop it t ext' left right
termination_by ext.eEnd - ext.eStart
decreasing_by
  all_goals
    simp only [m0ExtIsEmpty, decide_eq_true_eq, not_le] at hemp
    exact Nat.sub_lt_sub_left hemp (Nat.lt_add_of_pos_right (Nat.pos_of_ne_zero hcon))

/-- **`m0_be_emap_paste`** of `ext` with value `val`, the cursor on the segment holding
`ext.e_start` (`M0_PRE`): the cursor, the tree and the rc at the end
(`it->ec_op.bo_u.u_emap.e_rc`). -/
def m0BeEmapPaste (it : EmapCursor) (t : EmapTree) : Option (EmapCursor × EmapTree × Int) :=
  if m0ExtIsIn it.ecSeg.eeExt ext0.eStart then
    m0BeEmapPasteLoop bt ext0 val del cutLeft cutRight it t ext0 (0, []) (0, [])
  else none

end Paste

end Motr
