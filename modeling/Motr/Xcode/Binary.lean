import Motr.Xcode.Type
import Motr.Lib.LeBytes
import Motr.Dtm0.Log

/-!
`ctx_walk` of `xcode/xcode.c`, which encodes, decodes and sizes an object in one walk of the
cursor, for types without custom `xto_encode`, `xto_decode` and `xto_length`: at each atom it
copies `xct_sizeof` bytes between the object and the buffer (a byte array in one copy of all
its elements), and counts them.

The copy is of the object's memory, so the bytes of an atom are its little-endian bytes.
`m0_xcode_length` adds the sizes up in an `int`. A decode runs out of buffer when a copy is
short, which is `-EPROTO`; the cursor asserts when it would push a frame past its last, and
the walk of an object too deep for it is `none`. Allocations do not fail.
-/

namespace Motr

mutual
/-- The atoms `ctx_walk` copies from an object of type `t`, with their types, in order. -/
def xcodeAtoms : XcodeType → XcodeObj → List (XcodeAtype × ℕ)
  | .mk .M0_XA_ATOM a _, .atom v => [(a, v)]
  | .mk .M0_XA_RECORD _ fs, .agg subs => xcodeFieldAtoms fs subs
  | .mk .M0_XA_TYPEDEF _ fs, .agg subs => xcodeFieldAtoms fs subs
  | .mk .M0_XA_SEQUENCE _ [(_, c), (_, e)], .agg (n :: els) =>
    xcodeAtoms c n ++ els.flatMap (xcodeAtoms e)
  | .mk .M0_XA_ARRAY _ [(_, e)], .agg els => els.flatMap (xcodeAtoms e)
  | .mk .M0_XA_UNION _ ((dt, d) :: brs), .agg (n :: rest) =>
    xcodeAtoms d n ++ xcodeBranchAtoms (m0XcodeTag (dt, d) n) brs rest
  | _, _ => []

/-- The atoms of the sub-objects of the fields of a record. -/
def xcodeFieldAtoms : List (ℕ × XcodeType) → List XcodeObj → List (XcodeAtype × ℕ)
  | (_, t) :: fs, o :: os => xcodeAtoms t o ++ xcodeFieldAtoms fs os
  | _, _ => []

/-- The atoms of the branch of a union whose discriminator is `tag`. -/
def xcodeBranchAtoms (tag : ℕ) : List (ℕ × XcodeType) → List XcodeObj → List (XcodeAtype × ℕ)
  | [], _ => []
  | (bt, b) :: brs, rest =>
    if bt = tag then
      match rest with
      | [o] => xcodeAtoms b o
      | _ => []
    else xcodeBranchAtoms tag brs rest
end

/-- The bytes of an atom: its `xct_sizeof` bytes in memory. -/
def xcodeAtomBytes (a : XcodeAtype × ℕ) : List UInt8 := leBytes a.1.sizeof a.2

/-- The bytes `ctx_walk` copies to or from the buffer for an object. -/
def xcodeBytes (t : XcodeType) (o : XcodeObj) : List UInt8 := (xcodeAtoms t o).flatMap xcodeAtomBytes

/-- A count stored into an `int`: modulo `2^32`, in two's complement. -/
def toCInt (n : ℕ) : ℤ := if n % 2 ^ 32 < 2 ^ 31 then n % 2 ^ 32 else (n % 2 ^ 32 : ℕ) - 2 ^ 32

/-- **`m0_xcode_length`**: the sizes of the atoms, added up in `int length`. -/
def m0XcodeLength (t : XcodeType) (o : XcodeObj) : Option ℤ :=
  if o.height ≤ M0_XCODE_DEPTH_MAX then some (toCInt ((xcodeAtoms t o).map (·.1.sizeof)).sum)
  else none

/-- **`m0_xcode_encode`** into a buffer of `room` bytes: the bytes written, or `-EPROTO` when a
copy does not fit. -/
def m0XcodeEncode (t : XcodeType) (o : XcodeObj) (room : ℕ) : Option (Except ℤ (List UInt8)) :=
  if o.height ≤ M0_XCODE_DEPTH_MAX then
    some (if (xcodeBytes t o).length ≤ room then .ok (xcodeBytes t o) else .error (-EPROTO))
  else none

/-- A walk that may fail an assertion (`none`) or return an error code. -/
abbrev XcodeM := ExceptT ℤ Option

/-- A failed assertion. -/
def xcodeAssert {α : Type} : XcodeM α := ExceptT.lift none

/-- The push of a frame below frame `depth`: `m0_xcode_cursor_top` asserts it exists. -/
def xcodePush (depth : ℕ) : XcodeM Unit :=
  if depth + 1 < M0_XCODE_DEPTH_MAX then pure () else xcodeAssert

/-- The `n` elements of a sequence or an array, each decoded by `dec`. -/
def xcodeDecodeN (dec : List UInt8 → XcodeM (XcodeObj × List UInt8)) :
    ℕ → List UInt8 → XcodeM (List XcodeObj × List UInt8)
  | 0, bs => pure ([], bs)
  | n + 1, bs => do
    let (o, bs) ← dec bs
    let (os, bs) ← xcodeDecodeN dec n bs
    pure (o :: os, bs)

mutual
/-- `ctx_walk(ctx, XO_DEC)` from frame `depth`: the object of type `t` at the head of the
buffer, and what is left of the buffer. A union's branch and a sequence's length are those of
the discriminator and the counter just decoded. -/
def xcodeDecode (depth : ℕ) : XcodeType → List UInt8 → XcodeM (XcodeObj × List UInt8)
  | .mk .M0_XA_ATOM a _, bs =>
    if a.sizeof ≤ bs.length then pure (.atom (leValue (bs.take a.sizeof)), bs.drop a.sizeof)
    else throw (-EPROTO)
  | .mk .M0_XA_RECORD _ fs, bs => do
    let (subs, bs) ← xcodeDecodeFields depth fs bs
    pure (.agg subs, bs)
  | .mk .M0_XA_TYPEDEF _ fs, bs => do
    let (subs, bs) ← xcodeDecodeFields depth fs bs
    pure (.agg subs, bs)
  | .mk .M0_XA_SEQUENCE _ [(ct, c), (_, e)], bs => do
    xcodePush depth
    let (n, bs) ← xcodeDecode (depth + 1) c bs
    let (els, bs) ← xcodeDecodeN (xcodeDecode (depth + 1) e) (m0XcodeTag (ct, c) n) bs
    pure (.agg (n :: els), bs)
  | .mk .M0_XA_ARRAY _ [(k, e)], bs => do
    xcodePush depth
    let (els, bs) ← xcodeDecodeN (xcodeDecode (depth + 1) e) (max k 1) bs
    pure (.agg els, bs)
  | .mk .M0_XA_UNION _ ((dt, d) :: brs), bs => do
    xcodePush depth
    let (n, bs) ← xcodeDecode (depth + 1) d bs
    let (rest, bs) ← xcodeDecodeBranch (depth + 1) (m0XcodeTag (dt, d) n) brs bs
    pure (.agg (n :: rest), bs)
  | _, _ => xcodeAssert

/-- The sub-objects of the fields of a record at frame `depth`. -/
def xcodeDecodeFields (depth : ℕ) :
    List (ℕ × XcodeType) → List UInt8 → XcodeM (List XcodeObj × List UInt8)
  | [], bs => pure ([], bs)
  | (_, t) :: fs, bs => do
    xcodePush depth
    let (o, bs) ← xcodeDecode (depth + 1) t bs
    let (os, bs) ← xcodeDecodeFields depth fs bs
    pure (o :: os, bs)

/-- The branch of a union whose discriminator is `tag`, its object at frame `depth`. -/
def xcodeDecodeBranch (depth tag : ℕ) :
    List (ℕ × XcodeType) → List UInt8 → XcodeM (List XcodeObj × List UInt8)
  | [], bs => pure ([], bs)
  | (bt, b) :: brs, bs =>
    if bt = tag then do
      let (o, bs) ← xcodeDecode depth b bs
      pure ([o], bs)
    else xcodeDecodeBranch depth tag brs bs
end

/-- **`m0_xcode_decode`**: the object at the head of the buffer and what is left of it. -/
def m0XcodeDecode (t : XcodeType) (bs : List UInt8) : Option (Except ℤ (XcodeObj × List UInt8)) :=
  (xcodeDecode 0 t bs).run

end Motr
