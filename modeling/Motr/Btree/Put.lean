import Motr.Btree.Invariant

/-!
`m0_btree_put` and `m0_btree_update` with one thread: the state machine of
`btree_put_kv_tick`.

The operation goes down from the root to the leaf (`P_NEXTDOWN`), gives a new node to every
level from the leaf up that may overflow (`P_ALLOC_REQUIRE`), checks the opcode against the
presence of the key (`P_SANITY_CHECK`), and then either writes the record into the leaf
(`P_MAKESPACE`, `P_ACT`) or splits the leaf and carries a new record up the path until a
level has room, splitting the root last by moving its records into a new node
(`btree_put_makespace_phase`, `btree_put_root_split_handle`). With one thread the locks,
the path checks and their restarts play no part. A restart that can never succeed (a node
deeper than `t_height`, an empty node below the root) and a failed assertion are `none`.

The model follows the path recursively: `btreePutNode` hands the level above either the
node done or a split (`PutUp`), with whether `P_ALLOC_REQUIRE` gave the level a new node.
`putSpec` says what the operation is for, on the records of the tree.
-/

namespace Motr

/-- `enum m0_btree_opcode`, the opcodes of the modelled operations. -/
inductive BtreeOpcode where
  | M0_BO_PUT
  | M0_BO_UPDATE
  | M0_BO_DEL
  deriving DecidableEq, Repr

/-- `EEXIST`. -/
def EEXIST : Int := 17

/-- `ENOENT`. -/
def ENOENT : Int := 2

variable {K V : Type}

/-- The arguments of a put or an update: the opcode, `BOF_INSERT_IF_NOT_FOUND` in
`bo_flags`, the record `bo_rec`, and the rc of the callback `bo_cb.c_act`, which writes the
record into the slot it is given when it returns `0`. -/
structure PutArgs (K V : Type) where
  opc : BtreeOpcode
  insertIfNotFound : Bool
  key : K
  val : V
  actRc : Int

/-- The outcome of a put at one level, for the level above: the node done, with the
operation's rc, or split into the new node (the left half), the key of the record to add
above, and the old node (the right half). -/
inductive PutUp (K V : Type) where
  | done (n : BNode K V) (rc : Int)
  | split (left : BNode K V) (sep : K) (right : BNode K V)

namespace BtreeType

/-- The sizes of a leaf record. -/
def leafSize (bt : BtreeType K V) (r : K × V) : Nat × Nat := (bt.ksize r.1, bt.vsize r.2)

/-- The sizes of an internal record, whose value is a node address. -/
def innerSize (bt : BtreeType K V) (r : K × BNode K V) : Nat × Nat :=
  (bt.ksize r.1, INTERNAL_NODE_VALUE_SIZE)

/-- The record sizes of a node. -/
def sizes (bt : BtreeType K V) : BNode K V → List (Nat × Nat)
  | .leaf recs => recs.map bt.leafSize
  | .inner _ recs => recs.map bt.innerSize

/-- `bnode_max_ksize`. -/
def maxKsize (bt : BtreeType K V) (n : BNode K V) : Nat := bt.nt.maxKsize n.level (bt.sizes n)

end BtreeType

/-- The records of a node moved into a new node of the same level (`bnode_move(src, tgt,
D_RIGHT, NR_MAX)` into an empty `tgt`), under the assertion that none is left behind: the
root split of a put and the root collapse of a delete both do this. -/
def bnodeMoveAll (bt : BtreeType K V) : BNode K V → Option (BNode K V)
  | .leaf recs =>
    let mv := bnodeMove bt.nt bt.leafSize 0 recs [] .D_RIGHT NR_MAX
    if mv.1.isEmpty then some (.leaf mv.2) else none
  | .inner lvl recs =>
    let mv := bnodeMove bt.nt bt.innerSize lvl recs [] .D_RIGHT NR_MAX
    if mv.1.isEmpty then some (.inner lvl mv.2) else none

section Put

variable [LinearOrder K]

/-- The second step of `btree_put_split_and_find` (finding the slot): the record of key `k`
goes to the left half when `k` is below the first key of the right half, at the slot
`bnode_find` gives in that half; but a key above the last key of an internal left half, a
key `bnode_find` does not read there, goes after it. Returns whether the record goes left,
and its slot. -/
def btreePutFindSlot {α : Type} (lvl : Nat) (left right : List (K × α)) (k : K) :
    Option (Bool × Nat) :=
  match right, left.getLast? with
  | r₀ :: _, some l₀ =>
    let onLeft := decide (k < r₀.1)
    if 0 < lvl ∧ onLeft = true ∧ l₀.1 < k then some (true, bnodeKeyCount lvl left.length + 1)
    else
      let tgt := if onLeft then left else right
      some (onLeft, (bnodeFind (tgt.map Prod.fst) (bnodeKeyCount lvl tgt.length) k).1)
  | _, _ => none

/-- `btree_put_split_and_find` on the records `cur` of the current node: records move left
into the new node until the two have about the same free space (`NR_EVEN`), the new node
being the left half and the current node the right half, each keeping `min_rec_count`
records; then the slot of the record of key `k` is found. Returns the halves, whether the
record goes left, and its slot. -/
def btreePutSplitAndFind {α : Type} (nt : NodeType) (sz : K × α → Nat × Nat) (lvl : Nat)
    (cur : List (K × α)) (k : K) : Option (List (K × α) × List (K × α) × Bool × Nat) :=
  let mv := bnodeMove nt sz lvl cur [] .D_LEFT NR_EVEN
  let minRecCount := if 0 < lvl then 2 else 1
  if mv.1.length < minRecCount ∨ mv.2.length < minRecCount then none
  else (btreePutFindSlot lvl mv.2 mv.1 k).map fun slot => (mv.2, mv.1, slot.1, slot.2)

/-- `P_ACT` on the leaf records `recs` whose slot `idx` was just made, or resized by
`vsizeDiff`: the callback writes the record; when it fails the change is undone by the
opcode, the slot being deleted for `M0_BO_PUT` and resized by `-vsizeDiff` otherwise (back to
its old record, or, for a made slot, `vsizeDiff` being `0`, left as it is). -/
def btreePutAct (nt : NodeType) (a : PutArgs K V) (recs : List (K × V)) (idx : Nat)
    (vsizeDiff : Int) : Option (PutUp K V) :=
  if a.actRc ≠ 0 then
    if a.opc = .M0_BO_PUT then some (.done (.leaf (bnodeDel recs idx)) a.actRc)
    else if nt.valResize 0 (-vsizeDiff) then some (.done (.leaf recs) a.actRc) else none
  else some (.done (.leaf (recs.set idx (a.key, a.val))) 0)

/-- `btree_put_makespace_phase` at the leaf: split it, make the slot in its half (or resize
it, for a found key, which `M0_ASSERT(vsize_diff > 0)` requires to grow), call the callback;
on failure undo by `i_key_found` (the slot deleted, or resized back) and move every record
back into the current node, on success hand up the first key of the right half. -/
def btreePutMakespaceLeaf (bt : BtreeType K V) (a : PutArgs K V) (found : Bool)
    (recs : List (K × V)) : Option (PutUp K V) :=
  match btreePutSplitAndFind bt.nt bt.leafSize 0 recs a.key with
  | none => none
  | some (left, right, onLeft, tidx) =>
    let tgt := if onLeft then left else right
    -- the slot before the callback, and the value size change of a found key
    let made : Option (List (K × V) × Int) :=
      if found then
        match tgt[tidx]? with
        | some old =>
          let vsizeDiff : Int := bt.vsize a.val - bt.vsize old.2
          if 0 < vsizeDiff ∧ bt.nt.valResize 0 vsizeDiff then some (tgt, vsizeDiff) else none
        | none => none
      else (bnodeMake bt.nt bt.leafSize 0 tgt tidx (a.key, a.val)).map (·, 0)
    match made with
    | none => none
    | some (tgt₁, vsizeDiff) =>
      let halves := fun t : List (K × V) => if onLeft then (t, right) else (left, t)
      if a.actRc ≠ 0 then
        if found ∧ bt.nt.valResize 0 (-vsizeDiff) = false then none
        else
          let back := halves (if found then tgt₁ else bnodeDel tgt₁ tidx)
          some (.done (.leaf (bnodeMove bt.nt bt.leafSize 0 back.1 back.2 .D_RIGHT NR_MAX).2)
            a.actRc)
      else
        let written := halves (tgt₁.set tidx (a.key, a.val))
        match written.2 with
        | r₀ :: _ => some (.split (.leaf written.1) r₀.1 (.leaf written.2))
        | [] => none

/-- The leaf step of `btree_put_kv_tick`: `bnode_find` at the leaf, `P_SANITY_CHECK`, then
`P_MAKESPACE` and `P_ACT`, or the makespace phase when the record does not fit, which needs
the level's new node (`M0_PRE(lev->l_alloc != NULL)`). -/
def btreePutLeaf (bt : BtreeType K V) (a : PutArgs K V) (alloc : Bool)
    (recs : List (K × V)) : Option (PutUp K V) :=
  let r := bnodeFind (recs.map Prod.fst) recs.length a.key
  let idx := r.1
  let found := r.2
  if found = true ∧ a.opc = .M0_BO_PUT then some (.done (.leaf recs) (-EEXIST))
  else if found = false ∧ a.opc = .M0_BO_UPDATE ∧ a.insertIfNotFound = false then
    some (.done (.leaf recs) (-ENOENT))
  else if found = false then
    -- `M0_ASSERT(opc == M0_BO_PUT || (opc == M0_BO_UPDATE && BOF_INSERT_IF_NOT_FOUND))`
    if a.opc = .M0_BO_DEL then none
    else if bt.nt.isfit 0 (recs.map bt.leafSize) idx (bt.leafSize (a.key, a.val)) then
      btreePutAct bt.nt a (ntMake recs idx (a.key, a.val)) idx 0
    else if alloc then btreePutMakespaceLeaf bt a false recs else none
  else
    -- `M0_ASSERT(bop->bo_opc == M0_BO_UPDATE)`
    if a.opc ≠ .M0_BO_UPDATE then none
    else
      match recs[idx]? with
      | none => none
      | some old =>
        let vsizeDiff : Int := bt.vsize a.val - bt.vsize old.2
        if vsizeDiff ≤ 0 ∨ vsizeDiff ≤ bt.nt.space 0 (recs.map bt.leafSize) then
          if bt.nt.valResize 0 vsizeDiff then btreePutAct bt.nt a recs idx vsizeDiff else none
        else if alloc then btreePutMakespaceLeaf bt a true recs else none

/-- A level above the leaf, in `btree_put_makespace_phase`: the child at `idx` of the
internal node `recs` came back done (the node is then unchanged but for the child), or
split, and the new record (the separator, the new node) goes in at `idx` when it fits; when
it does not, the node is split in turn, which needs its new node, and the key of the last
record of the left half goes up. -/
def btreePutInner (bt : BtreeType K V) (lvl : Nat) (recs : List (K × BNode K V)) (idx : Nat)
    (alloc : Bool) : PutUp K V → Option (PutUp K V)
  | .done c rc =>
    match recs[idx]? with
    | some (key, _) => some (.done (.inner lvl (recs.set idx (key, c))) rc)
    | none => none
  | .split l s r =>
    match recs[idx]? with
    | none => none
    | some (key, _) =>
      let recs₁ := recs.set idx (key, r)
      if bt.nt.isfit lvl (recs₁.map bt.innerSize) idx (bt.innerSize (s, l)) then
        some (.done (.inner lvl (ntMake recs₁ idx (s, l))) 0)
      else if alloc = false then none
      else
        match btreePutSplitAndFind bt.nt bt.innerSize lvl recs₁ s with
        | none => none
        | some (left, right, onLeft, tidx) =>
          match bnodeMake bt.nt bt.innerSize lvl (if onLeft then left else right) tidx (s, l) with
          | none => none
          | some tgt₁ =>
            let halves := if onLeft then (tgt₁, right) else (left, tgt₁)
            match halves.1.getLast? with
            | some (sep, _) => some (.split (.inner lvl halves.1) sep (.inner lvl halves.2))
            | none => none

/-- The put below a node, `rem` levels being left before the descent passes `t_height`:
the outcome for the level above, and whether `P_ALLOC_REQUIRE` gave this level a new node
(it does when this level and every level below it may overflow, `bnode_isoverflow` being
asked with the `max_ksize` of the child and the user record). -/
def btreePutNode (bt : BtreeType K V) (a : PutArgs K V) :
    Nat → BNode K V → Option (PutUp K V × Bool)
  | _, .leaf recs =>
    let alloc := bt.nt.isoverflow 0 (recs.map bt.leafSize) 0 (bt.leafSize (a.key, a.val))
    (btreePutLeaf bt a alloc recs).map (·, alloc)
  | 0, .inner _ _ => none
  | rem + 1, .inner lvl recs =>
    let idx := bnodeChildIdx lvl recs a.key
    match recs[idx]? with
    | none => none
    | some (_, child) =>
      -- a node below the root with no record sends the descent back to the root, forever
      if child.recCount = 0 then none
      else
        match btreePutNode bt a rem child with
        | none => none
        | some (up, childAlloc) =>
          let alloc := childAlloc && bt.nt.isoverflow lvl (recs.map bt.innerSize)
            (bt.maxKsize child) (bt.leafSize (a.key, a.val))
          (btreePutInner bt lvl recs idx alloc up).map (·, alloc)

/-- `btree_put_root_split_handle`: the root keeps its place; its records (the right half)
move into the extra node, and the root, one level up, gets the records `(sep, left)` and
`(sep, extra)`, the second key being one an internal node does not read. The tree grows by
one level, which must not pass `MAX_TREE_HEIGHT`. -/
def btreePutRootSplitHandle (bt : BtreeType K V) (height : Nat) (left : BNode K V) (sep : K)
    (right : BNode K V) : Option (Btree K V) :=
  match bnodeMoveAll bt right with
  | none => none
  | some extra =>
    let lvl := right.level + 1
    match bnodeMake bt.nt bt.innerSize lvl [] 0 (sep, left) with
    | none => none
    | some root₁ =>
      match bnodeMake bt.nt bt.innerSize lvl root₁ 1 (sep, extra) with
      | none => none
      | some root₂ => if MAX_TREE_HEIGHT < height + 1 then none else some ⟨.inner lvl root₂, height + 1⟩

/-- **`m0_btree_put` and `m0_btree_update`**: the tree after the operation and its rc,
`none` when an assertion fails. A split of the root needs the extra node of
`P_ALLOC_REQUIRE` (`M0_PRE(oi->i_extra_node != NULL)`). -/
def btreePut (bt : BtreeType K V) (a : PutArgs K V) (t : Btree K V) :
    Option (Btree K V × Int) :=
  match btreePutNode bt a (t.height - 1) t.root with
  | none => none
  | some (.done n rc, _) => some (⟨n, t.height⟩, rc)
  | some (.split l s r, alloc) =>
    if alloc then (btreePutRootSplitHandle bt t.height l s r).map (·, 0) else none

/-- An update with `BOF_INSERT_IF_NOT_FOUND` of a key the tree lacks, whose callback fails:
`P_MAKESPACE` made the slot, and `P_ACT` undoes by the opcode, resizing the slot by
`-vsize_diff = 0` instead of deleting it. The operation fails with the callback's rc, and
the slot stays in the leaf (shown with the record passed to `bnode_make`; the code leaves in
it whatever bytes it held). -/
theorem btreePut_upsert_failed_act_keeps_slot (bt : BtreeType K V) (k : K) (v : V) (rc : Int)
    (hrc : rc ≠ 0) (hfit : bt.nt.isfit 0 [] 0 (bt.leafSize (k, v)) = true)
    (hresize : bt.nt.valResize 0 0 = true) :
    btreePut bt ⟨.M0_BO_UPDATE, true, k, v, rc⟩ btreeCreate = some (⟨.leaf [(k, v)], 1⟩, rc) := by
  have hfind : bnodeFind ([] : List K) 0 k = (0, false) := by
    simp [bnodeFind, bnodeFindLoop]
  simp [btreePut, btreeCreate, btreePutNode, btreePutLeaf, hfind, hfit, btreePutAct, hrc, hresize,
    ntMake]

/-- The failing input: an empty tree of `ff` nodes, an update of key `1` inserting when not
found, and a callback returning `-1`. -/
theorem btreePut_upsert_failed_act_keeps_slot_ff :
    btreePut ⟨ffNodeType 64 16 8 8, fun _ => 8, fun _ => 8⟩
        ⟨.M0_BO_UPDATE, true, (1 : Nat), (7 : Nat), -1⟩ btreeCreate =
      some (⟨.leaf [(1, 7)], 1⟩, -1) :=
  btreePut_upsert_failed_act_keeps_slot _ 1 7 (-1) (by decide) (by decide) (by decide)

/-! ### What a put is for -/

/-- **The records after a put or an update, and its rc**, when the callback succeeds:
`M0_BO_PUT` inserts an absent key and fails with `-EEXIST` on a present one;
`M0_BO_UPDATE` replaces the value of a present key, and on an absent one fails with
`-ENOENT` unless `BOF_INSERT_IF_NOT_FOUND` makes it insert. -/
def putSpec (a : PutArgs K V) (l : List (K × V)) : List (K × V) × Int :=
  if a.key ∈ l.map Prod.fst then
    if a.opc = .M0_BO_PUT then (l, -EEXIST) else (kvPut l a.key a.val, 0)
  else if a.opc = .M0_BO_UPDATE ∧ a.insertIfNotFound = false then (l, -ENOENT)
  else (kvPut l a.key a.val, 0)

end Put

end Motr
