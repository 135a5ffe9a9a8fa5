import Mathlib

/-!
The xcode types of `xcode/xcode.h` and their objects, as the cursor of `xcode/cursor.c`
walks them.

A type is its aggregation, its atom type and its fields, each with its tag and its type. The
field of an opaque pointer is given the type `xf_opaque` resolves it to, so that a type is a
tree: a finite object of a recursive type is an object of a finite unrolling of it, on which
the cursor walks alike. `XcodeType.Inv` is `m0_xcode_type_invariant` on every type of the
tree; field names, offsets and sizes are not modelled.

An object is what `m0_xcode_next` visits: an atom with its value, or an aggregate with its
sub-objects in the order the cursor enters them. For a record and a typedef that is one per
field; for a sequence its counter and then its elements; for an array `max n 1` elements,
since the cursor compares the element number with the count only after the first element;
for a union its discriminator and the first field whose tag the discriminator holds, if any
(`XcodeObj.Wf`). The cursor has `M0_XCODE_DEPTH_MAX` frames, so an object can be walked only
when its height is at most that (`XcodeObj.height`).
-/

namespace Motr

/-- `M0_XCODE_DEPTH_MAX`, the number of frames of a cursor. -/
def M0_XCODE_DEPTH_MAX : ℕ := 10

/-- `enum m0_xcode_aggr`. -/
inductive XcodeAggr
  | M0_XA_RECORD
  | M0_XA_UNION
  | M0_XA_SEQUENCE
  | M0_XA_ARRAY
  | M0_XA_TYPEDEF
  | M0_XA_OPAQUE
  | M0_XA_ATOM
  deriving DecidableEq, Repr

/-- `enum m0_xode_atom_type`. -/
inductive XcodeAtype
  | M0_XAT_VOID
  | M0_XAT_U8
  | M0_XAT_U16
  | M0_XAT_U32
  | M0_XAT_U64
  deriving DecidableEq, Repr

/-- `xct_sizeof` of `M0_XT_VOID`, `M0_XT_U8`, `M0_XT_U16`, `M0_XT_U32` and `M0_XT_U64`. -/
def XcodeAtype.sizeof : XcodeAtype → ℕ
  | .M0_XAT_VOID => 0
  | .M0_XAT_U8 => 1
  | .M0_XAT_U16 => 2
  | .M0_XAT_U32 => 4
  | .M0_XAT_U64 => 8

/-- `struct m0_xcode_type`: `xct_aggr`, `xct_atype`, and the fields `xct_child`, each with its
`xf_tag` and its `xf_type`. -/
inductive XcodeType
  | mk (aggr : XcodeAggr) (atype : XcodeAtype) (child : List (ℕ × XcodeType))

/-- An object as the cursor walks it. -/
inductive XcodeObj
  | atom (v : ℕ)
  | agg (sub : List XcodeObj)

/-- `xct_aggr`. -/
def XcodeType.aggr : XcodeType → XcodeAggr
  | .mk aggr _ _ => aggr

/-- `min[aggr]` of `m0_xcode_type_invariant`: the fewest fields of an aggregation. -/
def XcodeAggr.minFields : XcodeAggr → ℕ
  | .M0_XA_UNION => 2
  | .M0_XA_SEQUENCE => 2
  | .M0_XA_ARRAY => 1
  | .M0_XA_TYPEDEF => 1
  | _ => 0

/-- `max[aggr]` of `m0_xcode_type_invariant`: the most fields of an aggregation, `none` for
`~0ULL`. -/
def XcodeAggr.maxFields : XcodeAggr → Option ℕ
  | .M0_XA_RECORD => none
  | .M0_XA_UNION => none
  | .M0_XA_SEQUENCE => some 2
  | .M0_XA_ARRAY => some 1
  | .M0_XA_TYPEDEF => some 1
  | _ => some 0

mutual
/-- `m0_xcode_type_invariant` of a type and of the types of its fields, on what the model keeps
of a type: the number of fields, the distinct tags of a union's branches, and the atom first
field of a union and of a sequence. -/
def XcodeType.Inv : XcodeType → Bool
  | .mk aggr _ child =>
    (aggr.minFields ≤ child.length && aggr.maxFields.all (child.length ≤ ·)) &&
    (aggr != .M0_XA_UNION || decide ((child.tail.map (·.1)).Nodup)) &&
    (!(aggr == .M0_XA_UNION || aggr == .M0_XA_SEQUENCE) ||
      child.head?.any (·.2.aggr == .M0_XA_ATOM)) &&
    XcodeType.InvFields child

/-- The invariant of the types of a list of fields. -/
def XcodeType.InvFields : List (ℕ × XcodeType) → Bool
  | [] => true
  | (_, t) :: fs => XcodeType.Inv t && XcodeType.InvFields fs
end

lemma XcodeType.invFields_iff {fs : List (ℕ × XcodeType)} :
    XcodeType.InvFields fs = true ↔ ∀ f ∈ fs, f.2.Inv = true := by
  induction fs with
  | nil => simp [XcodeType.InvFields]
  | cons f fs ih =>
    rcases f with ⟨tag, t⟩
    simp [XcodeType.InvFields, ih]

/-- The invariant holds of the type of every field. -/
lemma XcodeType.inv_field {aggr : XcodeAggr} {a : XcodeAtype} {child : List (ℕ × XcodeType)}
    (h : (XcodeType.mk aggr a child).Inv = true) {f : ℕ × XcodeType} (hf : f ∈ child) :
    f.2.Inv = true := by
  simp only [XcodeType.Inv, Bool.and_eq_true] at h
  exact XcodeType.invFields_iff.1 h.2 f hf

/-- `m0_xcode_tag` of a union or a sequence, from its first field and the sub-object there:
the atom's value, or the field's tag when the field is void. -/
def m0XcodeTag (f : ℕ × XcodeType) (sub : XcodeObj) : ℕ :=
  match f.2, sub with
  | .mk _ .M0_XAT_VOID _, _ => f.1
  | _, .atom v => v
  | _, .agg _ => 0

/-- `m0_xcode_is_byte_array`: a sequence of `M0_XT_U8`. -/
def m0XcodeIsByteArray : XcodeType → Bool
  | .mk .M0_XA_SEQUENCE _ [_, (_, .mk .M0_XA_ATOM .M0_XAT_U8 [])] => true
  | _ => false

mutual
/-- The objects of type `t`, as the cursor walks them. -/
def XcodeObj.Wf : XcodeType → XcodeObj → Bool
  | .mk .M0_XA_ATOM a [], .atom v => v < 2 ^ (8 * a.sizeof)
  | .mk .M0_XA_RECORD _ fs, .agg subs => XcodeObj.WfFields fs subs
  | .mk .M0_XA_TYPEDEF _ [f], .agg [s] => XcodeObj.Wf f.2 s
  | .mk .M0_XA_SEQUENCE _ [(ct, c), (_, e)], .agg (n :: els) =>
    XcodeObj.Wf c n && m0XcodeTag (ct, c) n == els.length && els.all (XcodeObj.Wf e)
  | .mk .M0_XA_ARRAY _ [(k, e)], .agg els => els.length == max k 1 && els.all (XcodeObj.Wf e)
  | .mk .M0_XA_UNION _ ((dt, d) :: brs), .agg (n :: rest) =>
    XcodeObj.Wf d n && XcodeObj.WfBranch (m0XcodeTag (dt, d) n) brs rest
  | _, _ => false

/-- The sub-objects of the fields of a record. -/
def XcodeObj.WfFields : List (ℕ × XcodeType) → List XcodeObj → Bool
  | [], [] => true
  | (_, t) :: fs, o :: os => XcodeObj.Wf t o && XcodeObj.WfFields fs os
  | _, _ => false

/-- The sub-objects of a union after its discriminator, `tag`: the first field of that tag,
or nothing. -/
def XcodeObj.WfBranch (tag : ℕ) : List (ℕ × XcodeType) → List XcodeObj → Bool
  | [], rest => rest.isEmpty
  | (bt, b) :: brs, rest =>
    if bt = tag then
      match rest with
      | [o] => XcodeObj.Wf b o
      | _ => false
    else XcodeObj.WfBranch tag brs rest
end

mutual
/-- The number of cursor frames an object takes. -/
def XcodeObj.height : XcodeObj → ℕ
  | .atom _ => 1
  | .agg subs => XcodeObj.heights subs + 1

/-- The most frames a sub-object of a list takes. -/
def XcodeObj.heights : List XcodeObj → ℕ
  | [] => 0
  | o :: os => max o.height (XcodeObj.heights os)
end

end Motr
