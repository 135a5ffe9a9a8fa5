import Motr.Btree.DelCorrect

/-!
Runs of operations on a tree made by `m0_btree_create`, against a reference map.

A run applies `m0_btree_put`, `m0_btree_update` (with or without `BOF_INSERT_IF_NOT_FOUND`)
and `m0_btree_del` one after the other, every callback succeeding (`BtreeOp.apply`,
`btreeRun`). What the tree is for is a finite map `K → Option V` on which the same
operations act (`BtreeOp.step`, `mapRun`); the records of a tree give one (`toMap`).

* `BtreeOp.apply_ok`: one operation on a valid tree gives a valid tree whose map is what the
  operation makes of the map before, with the same rc.
* `btreeRun_ok`: the same for a whole run from any valid tree, by induction on the run.
* `btreeRun_refines_map`: from `m0_btree_create`, whenever no assertion fails on the way,
  the tree is valid, its records are those of the reference map, and the rcs are the map's.
-/

namespace Motr

variable {K V : Type}

/-- An operation of a run, its callback succeeding: `m0_btree_put`, `m0_btree_update` with
or without `BOF_INSERT_IF_NOT_FOUND`, `m0_btree_del`. -/
inductive BtreeOp (K V : Type) where
  | put (k : K) (v : V)
  | update (k : K) (v : V) (insertIfNotFound : Bool)
  | del (k : K)

section Run

variable [LinearOrder K]

/-- One operation on a tree: the tree after it and its rc, `none` when an assertion fails. -/
def BtreeOp.apply (bt : BtreeType K V) : BtreeOp K V → Btree K V → Option (Btree K V × Int)
  | .put k v, t => btreePut bt ⟨.M0_BO_PUT, false, k, v, 0⟩ t
  | .update k v iinf, t => btreePut bt ⟨.M0_BO_UPDATE, iinf, k, v, 0⟩ t
  | .del k, t => btreeDel bt ⟨k, 0⟩ t

/-- A run of operations: the tree at the end and the rc of each operation, `none` when an
assertion fails on the way. -/
def btreeRun (bt : BtreeType K V) : List (BtreeOp K V) → Btree K V → Option (Btree K V × List Int)
  | [], t => some (t, [])
  | op :: ops, t =>
    match op.apply bt t with
    | none => none
    | some (t', rc) => (btreeRun bt ops t').map fun r => (r.1, rc :: r.2)

/-! ### The reference map -/

/-- **What an operation is for**, on a finite map: a put inserts an absent key and fails
with `-EEXIST` on a present one; an update replaces the value of a present key, and on an
absent one inserts it with `BOF_INSERT_IF_NOT_FOUND` and fails with `-ENOENT` without; a
delete removes a present key and fails with `-ENOENT` on an absent one. -/
def BtreeOp.step : BtreeOp K V → (K → Option V) → (K → Option V) × Int
  | .put k v, m => if (m k).isSome then (m, -EEXIST) else (Function.update m k (some v), 0)
  | .update k v iinf, m =>
    if (m k).isSome || iinf then (Function.update m k (some v), 0) else (m, -ENOENT)
  | .del k, m => if (m k).isSome then (Function.update m k none, 0) else (m, -ENOENT)

/-- A run on the reference map: the map at the end and the rc of each operation. -/
def mapRun : List (BtreeOp K V) → (K → Option V) → (K → Option V) × List Int
  | [], m => (m, [])
  | op :: ops, m => ((mapRun ops (op.step m).1).1, (op.step m).2 :: (mapRun ops (op.step m).1).2)

/-- The map of a list of records. -/
def toMap (l : List (K × V)) : K → Option V := fun k => l.lookup k

lemma toMap_kvPut (l : List (K × V)) (k : K) (v : V) :
    toMap (kvPut l k v) = Function.update (toMap l) k (some v) := by
  funext k'
  simp [toMap, lookup_kvPut, Function.update_apply]

lemma toMap_kvErase (l : List (K × V)) (k : K) :
    toMap (kvErase l k) = Function.update (toMap l) k none := by
  funext k'
  simp [toMap, lookup_kvErase, Function.update_apply]

lemma isSome_toMap (l : List (K × V)) (k : K) : (toMap l k).isSome ↔ k ∈ l.map Prod.fst :=
  isSome_lookup_iff

/-! ### The tree refines the map -/

/-- What an operation makes of the records of a tree, and its rc (`putSpec`, `delSpec`). -/
def BtreeOp.spec : BtreeOp K V → List (K × V) → List (K × V) × Int
  | .put k v, l => putSpec ⟨.M0_BO_PUT, false, k, v, 0⟩ l
  | .update k v iinf, l => putSpec ⟨.M0_BO_UPDATE, iinf, k, v, 0⟩ l
  | .del k, l => delSpec ⟨k, 0⟩ l

/-- On the map of a list of records, an operation does what its spec does to the records. -/
lemma BtreeOp.step_toMap (op : BtreeOp K V) (l : List (K × V)) :
    op.step (toMap l) = (toMap (op.spec l).1, (op.spec l).2) := by
  cases op with
  | put k v =>
    by_cases hk : k ∈ l.map Prod.fst <;>
      simp [BtreeOp.step, BtreeOp.spec, putSpec, isSome_toMap, hk, toMap_kvPut]
  | update k v iinf =>
    by_cases hk : k ∈ l.map Prod.fst <;> cases iinf <;>
      simp [BtreeOp.step, BtreeOp.spec, putSpec, isSome_toMap, hk, toMap_kvPut]
  | del k =>
    by_cases hk : k ∈ l.map Prod.fst <;>
      simp [BtreeOp.step, BtreeOp.spec, delSpec, isSome_toMap, hk, toMap_kvErase]

/-- One operation on a valid tree, whenever no assertion fails, gives a valid tree holding
the records of its spec, with its rc. -/
lemma BtreeOp.apply_spec (bt : BtreeType K V) (op : BtreeOp K V) {t t' : Btree K V}
    {rc : Int} (ht : t.Valid) (h : op.apply bt t = some (t', rc)) :
    t'.Valid ∧ t'.contents = (op.spec t.contents).1 ∧ rc = (op.spec t.contents).2 := by
  cases op with
  | put k v => exact btreePut_ok bt _ ht rfl h
  | update k v iinf => exact btreePut_ok bt _ ht rfl h
  | del k => exact btreeDel_ok bt _ ht h

/-- **One operation refines the map's**: on a valid tree, whenever no assertion fails, the
tree after it is valid, and its map and rc are those the operation gives on the map of the
tree before. -/
theorem BtreeOp.apply_ok (bt : BtreeType K V) (op : BtreeOp K V) {t t' : Btree K V}
    {rc : Int} (ht : t.Valid) (h : op.apply bt t = some (t', rc)) :
    t'.Valid ∧ toMap t'.contents = (op.step (toMap t.contents)).1 ∧
      rc = (op.step (toMap t.contents)).2 := by
  obtain ⟨hv, hc, hrc⟩ := op.apply_spec bt ht h
  rw [BtreeOp.step_toMap, hc, hrc]
  exact ⟨hv, rfl, rfl⟩

/-- **A run refines the map's**, from any valid tree, by induction on the run. -/
theorem btreeRun_ok (bt : BtreeType K V) :
    ∀ (ops : List (BtreeOp K V)) {t t' : Btree K V} {rcs : List Int}, t.Valid →
      btreeRun bt ops t = some (t', rcs) →
      t'.Valid ∧ toMap t'.contents = (mapRun ops (toMap t.contents)).1 ∧
        rcs = (mapRun ops (toMap t.contents)).2
  | [], t, t', rcs, ht, h => by
    obtain ⟨rfl, rfl⟩ := Prod.mk.inj (Option.some.inj h).symm
    exact ⟨ht, rfl, rfl⟩
  | op :: ops, t, t', rcs, ht, h => by
    cases hop : op.apply bt t with
    | none => simp [btreeRun, hop] at h
    | some res =>
      obtain ⟨t₁, rc⟩ := res
      simp only [btreeRun, hop] at h
      obtain ⟨r, hr, hres⟩ := Option.map_eq_some_iff.mp h
      obtain ⟨rfl, rfl⟩ := Prod.mk.inj hres
      -- the first operation, then the rest of the run from the tree it leaves
      obtain ⟨hv₁, hm₁, hrc₁⟩ := BtreeOp.apply_ok bt op ht hop
      obtain ⟨hv, hm, hrcs⟩ := btreeRun_ok bt ops hv₁ hr
      refine ⟨hv, ?_, ?_⟩
      · rw [hm, hm₁]
        rfl
      · rw [hrcs, hrc₁, hm₁]
        rfl

lemma toMap_btreeCreate : toMap (btreeCreate : Btree K V).contents = fun _ => none := by
  funext k
  simp [toMap, btreeCreate, Btree.contents]

/-- **A run from `m0_btree_create` refines the reference map**: whenever no assertion fails
on the way, the tree is valid, its records are exactly the pairs of the map the same
operations make from the empty map, and every operation returns the map's rc. -/
theorem btreeRun_refines_map (bt : BtreeType K V) (ops : List (BtreeOp K V)) {t : Btree K V}
    {rcs : List Int} (h : btreeRun bt ops btreeCreate = some (t, rcs)) :
    t.Valid ∧ (∀ k v, (k, v) ∈ t.contents ↔ (mapRun ops fun _ => none).1 k = some v) ∧
      rcs = (mapRun ops fun _ => none).2 := by
  obtain ⟨hv, hm, hrcs⟩ := btreeRun_ok bt ops btreeCreate_valid h
  rw [toMap_btreeCreate] at hm hrcs
  refine ⟨hv, fun k v => ?_, hrcs⟩
  rw [mem_iff_lookup hv.sorted, ← hm]
  rfl

/-- A run of fixed-format nodes of three records: four puts split the leaf and the root, an
upsert inserts, a put of a present key and an update of an absent one fail, and two deletes
empty the left leaf, which takes the root down to the right one. -/
theorem btreeRun_refines_map_ff :
    btreeRun ⟨ffNodeType 64 16 8 8, fun _ => 8, fun _ => 8⟩
        [.put 1 10, .put 2 20, .put 3 30, .put 4 40, .update 5 50 true, .put 2 99,
          .update 7 70 false, .del 1, .del 2, .del 9] btreeCreate =
      some (⟨.leaf [((3 : Nat), (30 : Nat)), (4, 40), (5, 50)], 1⟩,
        [0, 0, 0, 0, 0, -17, -2, 0, 0, -2]) ∧
    (⟨.leaf [((3 : Nat), (30 : Nat)), (4, 40), (5, 50)], 1⟩ : Btree Nat Nat).Valid ∧
    (∀ k v, (k, v) ∈ (⟨.leaf [((3 : Nat), (30 : Nat)), (4, 40), (5, 50)], 1⟩ :
        Btree Nat Nat).contents ↔
      (mapRun [.put 1 10, .put 2 20, .put 3 30, .put 4 40, .update 5 50 true, .put 2 99,
          .update 7 70 false, .del 1, .del 2, .del 9] fun _ => none).1 k = some v) ∧
    [0, 0, 0, 0, 0, -17, -2, 0, 0, -2] =
      (mapRun [.put (1 : Nat) (10 : Nat), .put 2 20, .put 3 30, .put 4 40, .update 5 50 true,
          .put 2 99, .update 7 70 false, .del 1, .del 2, .del 9] fun _ => none).2 :=
  have h : btreeRun ⟨ffNodeType 64 16 8 8, fun _ => 8, fun _ => 8⟩
      [.put 1 10, .put 2 20, .put 3 30, .put 4 40, .update 5 50 true, .put 2 99,
        .update 7 70 false, .del 1, .del 2, .del 9] btreeCreate =
      some (⟨.leaf [((3 : Nat), (30 : Nat)), (4, 40), (5, 50)], 1⟩,
        [0, 0, 0, 0, 0, -17, -2, 0, 0, -2]) := by
    decide +kernel
  ⟨h, btreeRun_refines_map _ _ h⟩

/-- Nodes of `512` bytes with the `104`-byte header of `struct ff_head`, keys of `8` bytes
and values of `400`: a record fits in an empty node, but a node holds only one. The second
put splits the leaf: `NR_EVEN` moves its only record into the new node, and
`M0_ASSERT(bnode_rec_count(current_node) >= min_rec_count)` of `btree_put_split_and_find`
fails. -/
theorem btreeRun_ff_one_record_asserts :
    (ffNodeType 512 104 8 400).isfit 0 [] 0 (8, 400) = true ∧
      btreeRun ⟨ffNodeType 512 104 8 400, fun _ => 8, fun _ => 400⟩
        [.put (1 : Nat) (10 : Nat), .put 2 20] btreeCreate = none := by
  constructor <;> decide +kernel

end Run

end Motr
