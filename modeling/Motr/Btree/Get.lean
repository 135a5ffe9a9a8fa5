import Motr.Btree.Invariant

/-!
The lookups of `be/btree.c` with one thread: `m0_btree_get` (`BOF_EQUAL`, `BOF_SLANT`),
`m0_btree_minkey` and `m0_btree_maxkey` (`btree_get_kv_tick`), and `m0_btree_iter`
(`BOF_NEXT`, `BOF_PREV`, `btree_iter_kv_tick`).

A lookup goes down from the root as a put does (`P_NEXTDOWN`). When the leaf it reaches has
no answer (a slant get past the leaf's last key, an iteration past either end of the leaf),
the answer is at the near edge of the next subtree in the lookup's direction: the code finds
the deepest level of the path with a sibling slot in that direction (the pivot,
`btree_sibling_first_key` for a get, `i_pivot` for an iteration), takes that sibling, and
goes down its first (or last) children to a leaf (`P_SIBLING`). The model follows the path
recursively, as for a put: a level whose child found nothing (`some none`) looks for a
sibling itself, so the first level on the way back up with one is the pivot.

The record found is the one the callback `c_act` is shown; `some none` is `-ENOENT`. As
for the updates, a restart that can never succeed (a node deeper than `t_height`, an empty
node below the root) is `none`.
-/

namespace Motr

variable {K V : Type}

/-- The flag of a get. -/
inductive GetFlag where
  | BOF_EQUAL
  | BOF_SLANT
  deriving DecidableEq, Repr

/-- The direction of an iteration. -/
inductive IterFlag where
  | BOF_NEXT
  | BOF_PREV
  deriving DecidableEq, Repr

/-- The descent along the first (`first`) or the last children, child `0` or
`bnode_key_count` at each level, to the first or the last record of a leaf: the descent of
`m0_btree_minkey` and `m0_btree_maxkey` (an empty root leaf giving `-ENOENT`) and of
`P_SIBLING`. -/
def btreeEdgeRec (first : Bool) : Nat → BNode K V → Option (Option (K × V))
  | _, .leaf recs => some (if first then recs.head? else recs.getLast?)
  | 0, .inner _ _ => none
  | rem + 1, .inner lvl recs =>
    match recs[if first then 0 else bnodeKeyCount lvl recs.length]? with
    | none => none
    | some (_, child) =>
      -- a node below the root with no record sends the descent back to the root, forever
      if child.recCount = 0 then none else btreeEdgeRec first rem child

/-- The sibling in slot `sidx` of an internal node and the record at its near edge. -/
def btreeSiblingRec (first : Bool) (rem : Nat) (recs : List (K × BNode K V)) (sidx : Nat) :
    Option (Option (K × V)) :=
  match recs[sidx]? with
  | none => none
  | some (_, sib) => if sib.recCount = 0 then none else btreeEdgeRec first rem sib

/-- **`m0_btree_minkey`**: the first record of the tree, `-ENOENT` when it has none. -/
def btreeMinkey (t : Btree K V) : Option (Option (K × V)) :=
  btreeEdgeRec true (t.height - 1) t.root

/-- **`m0_btree_maxkey`**: the last record of the tree, `-ENOENT` when it has none. -/
def btreeMaxkey (t : Btree K V) : Option (Option (K × V)) :=
  btreeEdgeRec false (t.height - 1) t.root

section Lookup

variable [LinearOrder K]

/-- The get of key `k` below a node. In the leaf (`P_ACT`) a found key gives its record;
otherwise `BOF_EQUAL` gives `-ENOENT`, and `BOF_SLANT` the record at the slot `bnode_find`
gave, the first of key above `k`, or, past the last record, none here: a slant get then takes
the first record of the next sibling of the deepest level that has one
(`btree_sibling_first_key`), `-ENOENT` if none does. -/
def btreeGetNode (flag : GetFlag) (k : K) : Nat → BNode K V → Option (Option (K × V))
  | _, .leaf recs =>
    let r := bnodeFind (recs.map Prod.fst) recs.length k
    if r.2 then some recs[r.1]?
    else if flag = .BOF_EQUAL then some none
    else some recs[r.1]?
  | 0, .inner _ _ => none
  | rem + 1, .inner lvl recs =>
    let idx := bnodeChildIdx lvl recs k
    match recs[idx]? with
    | none => none
    | some (_, child) =>
      if child.recCount = 0 then none
      else
        match btreeGetNode flag k rem child with
        | some none =>
          -- `lev->l_idx < bnode_key_count(lev->l_node)`: this level has a next sibling
          if flag = .BOF_SLANT ∧ idx < bnodeKeyCount lvl recs.length then
            btreeSiblingRec true rem recs (idx + 1)
          else some none
        | r => r

/-- **`m0_btree_get`** of key `k` with flag `flag`. -/
def btreeGet (flag : GetFlag) (k : K) (t : Btree K V) : Option (Option (K × V)) :=
  btreeGetNode flag k (t.height - 1) t.root

/-- The iteration from key `k` below a node. In the leaf the slot is moved one on
(`sibling_index_get`): past the record of `k` if found for `BOF_NEXT`, one back for
`BOF_PREV`; a slot inside the leaf (`index_is_valid`) gives its record, one outside gives
none here. A level with a sibling slot in the direction (`l_idx < bnode_key_count` for
`BOF_NEXT`, `l_idx > 0` for `BOF_PREV`) is the pivot for the levels below it: the answer is
the first record of the next sibling, or the last of the previous one (`P_SIBLING`). -/
def btreeIterNode (flag : IterFlag) (k : K) : Nat → BNode K V → Option (Option (K × V))
  | _, .leaf recs =>
    let r := bnodeFind (recs.map Prod.fst) recs.length k
    let idx : Int := if flag = .BOF_NEXT then (if r.2 then r.1 + 1 else r.1) else r.1 - 1
    if 0 ≤ idx ∧ idx < recs.length then some recs[idx.toNat]? else some none
  | 0, .inner _ _ => none
  | rem + 1, .inner lvl recs =>
    let idx := bnodeChildIdx lvl recs k
    match recs[idx]? with
    | none => none
    | some (_, child) =>
      if child.recCount = 0 then none
      else
        match btreeIterNode flag k rem child with
        | some none =>
          if flag = .BOF_NEXT ∧ idx < bnodeKeyCount lvl recs.length then
            btreeSiblingRec true rem recs (idx + 1)
          else if flag = .BOF_PREV ∧ 0 < idx then btreeSiblingRec false rem recs (idx - 1)
          else some none
        | r => r

/-- **`m0_btree_iter`** from key `k` in direction `flag`. -/
def btreeIter (flag : IterFlag) (k : K) (t : Btree K V) : Option (Option (K × V)) :=
  btreeIterNode flag k (t.height - 1) t.root

/-! ### What a lookup is for -/

/-- **The record a get is for**, among the records `l` in key order: the record of `k`
(`BOF_EQUAL`), or the first of key at least `k` (`BOF_SLANT`). -/
def getSpec (flag : GetFlag) (k : K) (l : List (K × V)) : Option (K × V) :=
  match flag with
  | .BOF_EQUAL => l.find? fun r => decide (r.1 = k)
  | .BOF_SLANT => l.find? fun r => decide (k ≤ r.1)

/-- **The record an iteration is for**, among the records `l` in key order: the first of
key above `k` (`BOF_NEXT`), or the last of key below it (`BOF_PREV`). -/
def iterSpec (flag : IterFlag) (k : K) (l : List (K × V)) : Option (K × V) :=
  match flag with
  | .BOF_NEXT => l.find? fun r => decide (k < r.1)
  | .BOF_PREV => (l.filter fun r => decide (r.1 < k)).getLast?

end Lookup

end Motr
