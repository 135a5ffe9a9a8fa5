import Motr.Btree.Put

/-!
`m0_btree_del` with one thread: the state machine of `btree_del_kv_tick`.

The operation goes down from the root to the leaf (`P_NEXTDOWN`), and in the leaf
(`P_ACT`) fails with `-ENOENT` when the key is not there, and otherwise shows the record to
the callback `c_act` and deletes it when the callback succeeds. A node that is left without
a record (`bnode_isunderflow`) is freed and its record deleted from the level above, up the
path (`btree_del_resolve_underflow`); the root is never freed: when it is left with one
child it takes that child's records and the tree loses a level, and when it is left with
none it becomes an empty leaf of a tree of height one. As for the put, a restart that can
never succeed and a failed assertion are `none`.

The model follows the path recursively: `btreeDelNode` hands the level above the node done,
or the node after it lost a record (`DelUp`), which the level above frees when it has none
left; `btreeDelRoot` is the root's part of `btree_del_resolve_underflow`. `delSpec` says
what the operation is for, on the records of the tree.
-/

namespace Motr

variable {K V : Type}

/-- The arguments of a delete: the key of `bo_rec` and the rc of the callback `bo_cb.c_act`,
which is shown the record before it goes. -/
structure DelArgs (K : Type) where
  key : K
  actRc : Int

/-- The outcome of a delete at one level, for the level above: the node done, with the
operation's rc, or the node after it lost a record (`bnode_del` at this level), which the
level above frees if it is left with none. -/
inductive DelUp (K V : Type) where
  | done (n : BNode K V) (rc : Int)
  | shrunk (n : BNode K V)

/-- A level above the leaf, in `btree_del_resolve_underflow`: the child in slot `idx` of the
internal node `recs` came back done, or after it lost a record. With none left
(`bnode_isunderflow(lev->l_node, false)`) it is freed and its record is deleted from this
node (`bnode_del(lev->l_node, lev->l_idx)`), which has then lost a record in turn; otherwise
it stays in its slot. -/
def btreeDelInner (lvl : Nat) (recs : List (K × BNode K V)) (idx : Nat) (key : K) :
    DelUp K V → DelUp K V
  | .done c rc => .done (.inner lvl (recs.set idx (key, c))) rc
  | .shrunk c =>
    if bnodeIsunderflow c.recCount false then .shrunk (.inner lvl (bnodeDel recs idx))
    else .done (.inner lvl (recs.set idx (key, c))) 0

section Del

variable [LinearOrder K]

/-- `P_ACT` of `btree_del_kv_tick` in the leaf the descent reached: `-ENOENT` when
`bnode_find` did not find the key; otherwise the callback sees the record, and when it
succeeds the record is deleted. -/
def btreeDelLeaf (a : DelArgs K) (recs : List (K × V)) : DelUp K V :=
  let r := bnodeFind (recs.map Prod.fst) recs.length a.key
  if r.2 = false then .done (.leaf recs) (-ENOENT)
  else if a.actRc ≠ 0 then .done (.leaf recs) a.actRc
  else .shrunk (.leaf (bnodeDel recs r.1))

/-- The delete below a node, `rem` levels being left before the descent passes `t_height`:
the descent of `P_NEXTDOWN` (the child slot after `bnode_find`, one on when the key was
found), the leaf's `P_ACT`, and the levels of `btree_del_resolve_underflow` on the way
back. -/
def btreeDelNode (a : DelArgs K) : Nat → BNode K V → Option (DelUp K V)
  | _, .leaf recs => some (btreeDelLeaf a recs)
  | 0, .inner _ _ => none
  | rem + 1, .inner lvl recs =>
    let idx := bnodeChildIdx lvl recs a.key
    match recs[idx]? with
    | none => none
    | some (key, child) =>
      -- a node below the root with no record sends the descent back to the root, forever
      if child.recCount = 0 then none
      else (btreeDelNode a rem child).map (btreeDelInner lvl recs idx key)

/-- The root's part of `btree_del_resolve_underflow`: a root that lost the record of a
child keeps its place with two records or more; with none it becomes a leaf and the tree's
height one; with one (`root_case_handle` loaded that child, `l_sibling`, and restarts if it
has no record) the root takes the child's records (`bnode_move(root_child, root, D_RIGHT,
NR_MAX)`, none being left behind) and the tree loses a level. A leaf root keeps its place
whatever it holds. -/
def btreeDelRoot (bt : BtreeType K V) (height : Nat) : DelUp K V → Option (Btree K V × Int)
  | .done n rc => some (⟨n, height⟩, rc)
  | .shrunk (.leaf recs) => some (⟨.leaf recs, height⟩, 0)
  | .shrunk (.inner lvl recs) =>
    match recs with
    | [] => some (⟨.leaf [], 1⟩, 0)
    | [(_, child)] =>
      if child.recCount = 0 then none
      else (bnodeMoveAll bt child).map fun n => (⟨n, height - 1⟩, 0)
    | _ :: _ :: _ => some (⟨.inner lvl recs, height⟩, 0)

/-- **`m0_btree_del`**: the tree after the operation and its rc, `none` when an assertion
fails. -/
def btreeDel (bt : BtreeType K V) (a : DelArgs K) (t : Btree K V) : Option (Btree K V × Int) :=
  match btreeDelNode a (t.height - 1) t.root with
  | none => none
  | some up => btreeDelRoot bt t.height up

/-! ### What a delete is for -/

/-- **The records after a delete, and its rc**: `-ENOENT` when the key is absent, the
callback's rc when it fails, and otherwise the record removed. -/
def delSpec (a : DelArgs K) (l : List (K × V)) : List (K × V) × Int :=
  if a.key ∈ l.map Prod.fst then
    if a.actRc = 0 then (kvErase l a.key, 0) else (l, a.actRc)
  else (l, -ENOENT)

end Del

end Motr
