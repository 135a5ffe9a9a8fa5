import Motr.Xcode.Binary
import Motr.Lib.CNumber
import Motr.Pool.Machine

/-!
The text form of xcode objects (`xcode/string.c`): `m0_xcode_print`, which writes an object
in the grammar `m0_xcode_read` parses, and `m0_xcode_read`, for types without custom
`xto_read` and without field readers.

Both follow the cursor. At the entry of a frame the printer writes the punctuation that the
frame's place among its parent's sub-objects calls for (`punctchar`), then the opening bracket
of its aggregation, then an atom's value in `%#lx`; at its exit, the closing bracket. A byte
array whose bytes are all printable is written instead as a string literal, without escapes.
The reader checks the same characters after skipping blanks and comments, reads an atom with
`sscanf(" %i %n")` (`" %li %n"` for 64 bits) and a string literal up to the next `"`.

A string is a list of characters, a byte each. The value `sscanf` stores is the one the C
standard gives for the conversion; a conversion whose value does not fit its `int` or `long`,
undefined in C, is `none`, as is the `%0c` of a void atom, and so is the value of a void atom
for the printer (`M0_IMPOSSIBLE`). A 16-bit atom receives the low half of the `int` `%i`
stores; the two bytes the store writes past it are not modelled. The output buffer of the
printer is large enough.
-/

namespace Motr

/-- `EOVERFLOW`. -/
def EOVERFLOW : Int := 75

/-- `structure[aggr][M0_XCODE_CURSOR_PRE]`. -/
def xcodeStructurePre : XcodeAggr → Option Char
  | .M0_XA_RECORD => some '('
  | .M0_XA_UNION => some '{'
  | .M0_XA_SEQUENCE => some '['
  | .M0_XA_ARRAY => some '<'
  | _ => none

/-- `structure[aggr][M0_XCODE_CURSOR_POST]`. -/
def xcodeStructurePost : XcodeAggr → Option Char
  | .M0_XA_RECORD => some ')'
  | .M0_XA_UNION => some '}'
  | .M0_XA_SEQUENCE => some ']'
  | .M0_XA_ARRAY => some '>'
  | _ => none

/-- `punctuation[aggr][min(order, 2)]`: what precedes the `order`-th sub-object of an object of
aggregation `aggr`. -/
def xcodePunctuation : XcodeAggr → ℕ → Option Char
  | .M0_XA_RECORD, 0 => none
  | .M0_XA_RECORD, _ => some ','
  | .M0_XA_UNION, 1 => some '|'
  | .M0_XA_SEQUENCE, 0 => none
  | .M0_XA_SEQUENCE, 1 => some ':'
  | .M0_XA_SEQUENCE, _ => some ','
  | .M0_XA_ARRAY, 0 => none
  | .M0_XA_ARRAY, _ => some ','
  | _, _ => none

/-- The value of an atom sub-object. -/
def XcodeObj.atomValue : XcodeObj → ℕ
  | .atom v => v
  | .agg _ => 0

/-- A byte the crude printability check of `quoted_string` passes: `' '` to `'~'`. -/
def xcodePrintable (b : ℕ) : Bool := 0x20 ≤ b && b ≤ 0x7e

/-- `quoted_string`: the bytes of a byte array when they are all printable. -/
def quotedString (t : XcodeType) (o : XcodeObj) : Option (List ℕ) :=
  if m0XcodeIsByteArray t then
    match o with
    | .agg (_ :: els) =>
      let bytes := els.map XcodeObj.atomValue
      if bytes.all xcodePrintable then some bytes else none
    | _ => none
  else none

/-- The sub-objects of a sequence or an array, the `i`-th printed by `pr` with the punctuation
`punct i`. -/
def xcodePrintElems (pr : Option Char → XcodeObj → Option (List Char))
    (punct : ℕ → Option Char) : ℕ → List XcodeObj → Option (List Char)
  | _, [] => some []
  | i, o :: os => do
    let s ← pr (punct i) o
    let ss ← xcodePrintElems pr punct (i + 1) os
    pure (s ++ ss)

mutual
/-- The text `m0_xcode_print` writes for an object of type `t` whose frame is entered with the
punctuation `punct`; `none` on a void atom. -/
def xcodePrint : XcodeType → Option Char → XcodeObj → Option (List Char)
  | .mk .M0_XA_ATOM a _, punct, .atom v =>
    if a = .M0_XAT_VOID then none else some (punct.toList ++ formatAltHex v)
  | .mk .M0_XA_RECORD _ fs, punct, .agg subs =>
    (xcodePrintFields .M0_XA_RECORD 0 fs subs).map fun s => punct.toList ++ '(' :: s ++ [')']
  | .mk .M0_XA_TYPEDEF _ fs, punct, .agg subs =>
    (xcodePrintFields .M0_XA_TYPEDEF 0 fs subs).map fun s => punct.toList ++ s
  | t@(.mk .M0_XA_SEQUENCE _ [(_, c), (_, e)]), punct, o@(.agg (n :: els)) =>
    match quotedString t o with
    | some bytes => some (punct.toList ++ '"' :: bytes.map Char.ofNat ++ ['"'])
    | none => do
      let sn ← xcodePrint c none n
      let ss ← xcodePrintElems (xcodePrint e) (xcodePunctuation .M0_XA_SEQUENCE) 1 els
      pure (punct.toList ++ '[' :: sn ++ ss ++ [']'])
  | .mk .M0_XA_ARRAY _ [(_, e)], punct, .agg els =>
    (xcodePrintElems (xcodePrint e) (xcodePunctuation .M0_XA_ARRAY) 0 els).map fun s =>
      punct.toList ++ '<' :: s ++ ['>']
  | .mk .M0_XA_UNION _ ((dt, d) :: brs), punct, .agg (n :: rest) => do
    let sn ← xcodePrint d none n
    let sb ← xcodePrintBranch (m0XcodeTag (dt, d) n) brs rest
    pure (punct.toList ++ '{' :: sn ++ sb ++ ['}'])
  | _, _, _ => none

/-- The fields of a record or a typedef from the `i`-th. -/
def xcodePrintFields (aggr : XcodeAggr) (i : ℕ) :
    List (ℕ × XcodeType) → List XcodeObj → Option (List Char)
  | (_, t) :: fs, o :: os => do
    let s ← xcodePrint t (xcodePunctuation aggr i) o
    let ss ← xcodePrintFields aggr (i + 1) fs os
    pure (s ++ ss)
  | _, _ => some []

/-- The branch of a union whose discriminator is `tag`. -/
def xcodePrintBranch (tag : ℕ) : List (ℕ × XcodeType) → List XcodeObj → Option (List Char)
  | [], _ => some []
  | (bt, b) :: brs, rest =>
    if bt = tag then
      match rest with
      | [o] => xcodePrint b (xcodePunctuation .M0_XA_UNION 1) o
      | _ => some []
    else xcodePrintBranch tag brs rest
end

/-- **`m0_xcode_print`** into a large enough buffer. -/
def m0XcodePrint (t : XcodeType) (o : XcodeObj) : Option (List Char) :=
  if o.height ≤ M0_XCODE_DEPTH_MAX then xcodePrint t none o else none

/-- The blanks `space_skip` passes over. -/
def xcodeBlank (c : Char) : Bool :=
  c = ' ' || c = '\t' || c = '\x0b' || c = '\n' || c = '\r'

/-- `space_skip` with `fuel` steps, each of which passes over at least one character. -/
def spaceSkipAux : ℕ → List Char → List Char
  | 0, str => str
  | fuel + 1, c :: cs =>
    if xcodeBlank c then spaceSkipAux fuel cs
    else if c = '#' then spaceSkipAux fuel (cs.dropWhile (· ≠ '\n'))
    else c :: cs
  | _ + 1, [] => []

/-- `space_skip`: blanks, and comments from `#` to the end of the line. -/
def spaceSkip (str : List Char) : List Char := spaceSkipAux str.length str

/-- `char_check`: the character `ch`, if any, and the blanks after it. -/
def charCheck (ch : Option Char) (str : List Char) : XcodeM (List Char) :=
  match ch, str with
  | none, str => pure str
  | some c, d :: ds => if d = c then pure (spaceSkip ds) else throw (-EPROTO)
  | some _, [] => throw (-EPROTO)

/-- The atom `sscanf(str, " %i %n")` reads (`" %li %n"` for 64 bits), stored into the atom as
`m0_xcode_read` stores it, and the text after the blanks that follow it. -/
def xcodeReadAtom (a : XcodeAtype) (str : List Char) : XcodeM (XcodeObj × List Char) :=
  match a, scanInt (str.dropWhile isCSpace) with
  | .M0_XAT_VOID, _ => xcodeAssert
  | _, none => throw (-EPROTO)
  | .M0_XAT_U64, some (v, rest) =>
    if -2 ^ 63 ≤ v ∧ v < 2 ^ 63 then pure (.atom (v % 2 ^ 64).toNat, rest.dropWhile isCSpace)
    else xcodeAssert
  | a, some (v, rest) =>
    if -2 ^ 31 ≤ v ∧ v < 2 ^ 31 then
      match a with
      -- a byte goes through the unsigned `bval`
      | .M0_XAT_U8 =>
        if (v % 2 ^ 32).toNat < 0x100 then pure (.atom (v % 2 ^ 32).toNat, rest.dropWhile isCSpace)
        else throw (-EOVERFLOW)
      | .M0_XAT_U16 => pure (.atom (v % 2 ^ 16).toNat, rest.dropWhile isCSpace)
      | _ => pure (.atom (v % 2 ^ 32).toNat, rest.dropWhile isCSpace)
    else xcodeAssert

/-- `string_literal` for a byte array whose first field is `f`, after the opening `"`: the
bytes up to the next `"`, or `xf_tag` of them for a void counter, and the text after the
character that closes them. -/
def stringLiteral (f : ℕ × XcodeType) (str : List Char) : XcodeM (XcodeObj × List Char) :=
  match f.2 with
  | .mk _ .M0_XAT_VOID _ =>
    pure (.agg (.atom 0 :: (str.take f.1).map fun c => .atom (c.toNat % 256)), str.drop (f.1 + 1))
  | .mk _ a _ =>
    match str.idxOf? '"' with
    | none => throw (-EPROTO)
    | some len =>
      pure (.agg (.atom (len % 2 ^ (8 * a.sizeof)) :: (str.take len).map fun c => .atom (c.toNat % 256)),
        str.drop (len + 1))

/-- The `n` sub-objects of a sequence or an array from the `i`-th, each read by `rd` with the
punctuation `punct i` and followed by the blanks of the parent's next step. -/
def xcodeReadElems (rd : Option Char → List Char → XcodeM (XcodeObj × List Char))
    (punct : ℕ → Option Char) : ℕ → ℕ → List Char → XcodeM (List XcodeObj × List Char)
  | _, 0, str => pure ([], str)
  | i, n + 1, str => do
    let (o, str) ← rd (punct i) str
    let (os, str) ← xcodeReadElems rd punct (i + 1) n (spaceSkip str)
    pure (o :: os, str)

mutual
/-- The object of type `t` that `m0_xcode_read` reads at frame `depth`, its frame entered
with the punctuation `punct`, and the text after it: the punctuation, the opening bracket,
the sub-objects each followed by the blanks of the parent's next step, then the blanks and
the closing bracket of the frame's exit. -/
def xcodeRead (depth : ℕ) : XcodeType → Option Char → List Char → XcodeM (XcodeObj × List Char)
  | .mk .M0_XA_ATOM a _, punct, str => do
    let str ← charCheck punct (spaceSkip str)
    let (o, str) ← xcodeReadAtom a str
    pure (o, spaceSkip str)
  | .mk .M0_XA_RECORD _ fs, punct, str => do
    let str ← charCheck punct (spaceSkip str)
    let str ← charCheck (some '(') str
    let (subs, str) ← xcodeReadFields depth .M0_XA_RECORD 0 fs str
    let str ← charCheck (some ')') (spaceSkip str)
    pure (.agg subs, str)
  | .mk .M0_XA_TYPEDEF _ fs, punct, str => do
    let str ← charCheck punct (spaceSkip str)
    let (subs, str) ← xcodeReadFields depth .M0_XA_TYPEDEF 0 fs str
    pure (.agg subs, spaceSkip str)
  | t@(.mk .M0_XA_SEQUENCE _ [(ct, c), (_, e)]), punct, str => do
    let str ← charCheck punct (spaceSkip str)
    -- a string literal stands for a byte array, and the cursor skips it
    if str.head? = some '"' ∧ m0XcodeIsByteArray t then stringLiteral (ct, c) str.tail
    else
      let str ← charCheck (some '[') str
      xcodePush depth
      let (n, str) ← xcodeRead (depth + 1) c (xcodePunctuation .M0_XA_SEQUENCE 0) str
      let (els, str) ← xcodeReadElems (xcodeRead (depth + 1) e)
        (xcodePunctuation .M0_XA_SEQUENCE) 1 (m0XcodeTag (ct, c) n) (spaceSkip str)
      let str ← charCheck (some ']') (spaceSkip str)
      pure (.agg (n :: els), str)
  | .mk .M0_XA_ARRAY _ [(k, e)], punct, str => do
    let str ← charCheck punct (spaceSkip str)
    let str ← charCheck (some '<') str
    xcodePush depth
    let (els, str) ← xcodeReadElems (xcodeRead (depth + 1) e)
      (xcodePunctuation .M0_XA_ARRAY) 0 (max k 1) str
    let str ← charCheck (some '>') (spaceSkip str)
    pure (.agg els, str)
  | .mk .M0_XA_UNION _ ((dt, d) :: brs), punct, str => do
    let str ← charCheck punct (spaceSkip str)
    let str ← charCheck (some '{') str
    xcodePush depth
    let (n, str) ← xcodeRead (depth + 1) d (xcodePunctuation .M0_XA_UNION 0) str
    let (rest, str) ← xcodeReadBranch (depth + 1) (m0XcodeTag (dt, d) n) brs (spaceSkip str)
    let str ← charCheck (some '}') (spaceSkip str)
    pure (.agg (n :: rest), str)
  | _, _, _ => xcodeAssert

/-- The fields of a record or a typedef from the `i`-th, each followed by the blanks of the
parent's next step. -/
def xcodeReadFields (depth : ℕ) (aggr : XcodeAggr) (i : ℕ) :
    List (ℕ × XcodeType) → List Char → XcodeM (List XcodeObj × List Char)
  | [], str => pure ([], str)
  | (_, t) :: fs, str => do
    xcodePush depth
    let (o, str) ← xcodeRead (depth + 1) t (xcodePunctuation aggr i) str
    let (os, str) ← xcodeReadFields depth aggr (i + 1) fs (spaceSkip str)
    pure (o :: os, str)

/-- The branch of a union whose discriminator is `tag`, at frame `depth`, followed by the
blanks of the union's next step. -/
def xcodeReadBranch (depth tag : ℕ) :
    List (ℕ × XcodeType) → List Char → XcodeM (List XcodeObj × List Char)
  | [], str => pure ([], str)
  | (bt, b) :: brs, str =>
    if bt = tag then do
      let (o, str) ← xcodeRead depth b (xcodePunctuation .M0_XA_UNION 1) str
      pure ([o], spaceSkip str)
    else xcodeReadBranch depth tag brs str
end

/-- **`m0_xcode_read`**: the object the whole string holds; `-EINVAL` when text is left after
it. -/
def m0XcodeRead (t : XcodeType) (str : List Char) : Option (Except ℤ XcodeObj) :=
  (do
    let (o, rest) ← xcodeRead 0 t none str
    if rest = [] then pure o else throw (-EINVAL) : XcodeM XcodeObj).run

end Motr
