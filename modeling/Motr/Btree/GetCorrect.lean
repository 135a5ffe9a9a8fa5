import Motr.Btree.Get
import Motr.Btree.Run

/-!
The lookups answer from the records of the tree.

On a valid subtree each lookup returns (it never restarts for good, the levels left being
its height) exactly what its spec reads off the subtree's records in key order:

* `btreeEdgeRec_eq`: the first or the last record;
* `btreeGetNode_eq`: the record of the key, or the first at least the key (`getSpec`);
* `btreeIterNode_eq`: the first above the key, or the last below it (`iterSpec`).

At an internal node the records before the child the descent takes all lie below the key
and those after it above (`Chain.focus`); so when the child has no answer, the answer is at
the near edge of its sibling in the direction, which is what the pivot of the code takes.
`btreeLookup_reachable` then says, for every tree a run of puts, updates and deletes leaves,
that each lookup returns the record of least (or greatest) key with the property of its flag
(equal to, at least, above or below the key; any key for the minimum and the maximum), and
`-ENOENT` exactly when no key has it.
-/

namespace Motr

variable {K V : Type} [LinearOrder K]

/-! ### The edges of a subtree -/

section Edge

/-- A child of a valid internal node is valid at some bounds, and holds a record. -/
lemma WF.child {h : Nat} {lo hi : Option K} {lvl : Nat} {recs : List (K × BNode K V)}
    (hw : WF (h + 1) lo hi (.inner lvl recs)) {r : K × BNode K V} (hr : r ∈ recs) :
    ∃ a b, WF h a b r.2 ∧ r.2.contents ≠ [] := by
  obtain ⟨a, b, hwc, hpos⟩ := Chain.exists_of_mem hw.2 hr
  exact ⟨a, b, hwc, (WF.contents_sorted hwc).2.2 hpos⟩

/-- **The edge descent** of a valid subtree reaches its first or its last record. -/
theorem btreeEdgeRec_eq (first : Bool) :
    ∀ (h : Nat) {lo hi : Option K} {n : BNode K V}, WF h lo hi n →
      btreeEdgeRec first h n = some (if first then n.contents.head? else n.contents.getLast?) := by
  intro h
  induction h with
  | zero =>
    intro lo hi n hw
    cases n with
    | leaf recs => simp [btreeEdgeRec]
    | inner _ _ => simp [WF] at hw
  | succ h ih =>
    intro lo hi n hw
    cases n with
    | leaf _ => simp [WF] at hw
    | inner lvl recs =>
      have hne : recs ≠ [] := by
        rintro rfl
        simp [WF, Chain] at hw
      have hlvl : lvl = h + 1 := hw.1
      cases first with
      | true =>
        -- the first child holds the first record
        obtain ⟨⟨key, c⟩, rest, rfl⟩ := List.exists_cons_of_ne_nil hne
        obtain ⟨a, b, hwc, hnec⟩ := hw.child (List.mem_cons_self ..)
        have hpos : c.recCount ≠ 0 := by
          intro h0
          exact hnec (BNode.contents_eq_nil_of_recCount h0)
        simp only [btreeEdgeRec, if_true, List.getElem?_cons_zero, hpos, if_false, ih hwc,
          BNode.contents_inner, BNode.contentsF_cons]
        rw [List.head?_append_of_ne_nil _ hnec]
      | false =>
        -- the last child holds the last record
        obtain ⟨init, ⟨key, c⟩, rfl⟩ : ∃ init r, recs = init ++ [r] :=
          ⟨recs.dropLast, recs.getLast hne, (List.dropLast_append_getLast hne).symm⟩
        obtain ⟨a, b, hwc, hnec⟩ := hw.child (List.mem_append_right _ (List.mem_singleton_self _))
        have hpos : c.recCount ≠ 0 := by
          intro h0
          exact hnec (BNode.contents_eq_nil_of_recCount h0)
        have hidx : bnodeKeyCount lvl (init ++ [(key, c)]).length = init.length := by
          simp [bnodeKeyCount, hlvl]
        simp only [btreeEdgeRec, Bool.false_eq_true, if_false, hidx,
          List.getElem?_concat_length, hpos, ih hwc, BNode.contents_inner,
          BNode.contentsF_append, BNode.contentsF_cons, BNode.contentsF_nil, List.append_nil]
        rw [List.getLast?_append_of_ne_nil _ hnec]

/-- The sibling in a slot of a valid internal node gives the edge of its records. -/
lemma btreeSiblingRec_eq (first : Bool) {h : Nat} {lo hi : Option K} {lvl : Nat}
    {recs : List (K × BNode K V)} (hw : WF (h + 1) lo hi (.inner lvl recs)) {sidx : Nat}
    {key : K} {sib : BNode K V} (hs : recs[sidx]? = some (key, sib)) :
    btreeSiblingRec first h recs sidx =
      some (if first then sib.contents.head? else sib.contents.getLast?) := by
  obtain ⟨a, b, hws, hnes⟩ := hw.child (List.mem_of_getElem? hs)
  have hpos : sib.recCount ≠ 0 := fun h0 => hnes (BNode.contents_eq_nil_of_recCount h0)
  simp only [btreeSiblingRec, hs, hpos, if_false]
  exact btreeEdgeRec_eq first h hws

end Edge

/-! ### Get -/

section Get

/-- A get acts inside the block of records that may hold its key: the records before the
block lie below the key and those after it above, so the answer is the block's, or for a
slant get past the block, the first record after it. -/
lemma getSpec_append (flag : GetFlag) {k : K} {A B C : List (K × V)} (hA : ∀ r ∈ A, r.1 < k)
    (hB : ∀ r ∈ B, k < r.1) :
    getSpec flag k (A ++ C ++ B) =
      (getSpec flag k C).or (if flag = .BOF_SLANT then B.head? else none) := by
  cases flag with
  | BOF_EQUAL =>
    have hAn : A.find? (fun r => decide (r.1 = k)) = none :=
      List.find?_eq_none.mpr fun r hr => by simpa using ne_of_lt (hA r hr)
    have hBn : B.find? (fun r => decide (r.1 = k)) = none :=
      List.find?_eq_none.mpr fun r hr => by simpa using ne_of_gt (hB r hr)
    simp [getSpec, List.find?_append, hAn, hBn]
  | BOF_SLANT =>
    have hAn : A.find? (fun r => decide (k ≤ r.1)) = none :=
      List.find?_eq_none.mpr fun r hr => by simpa using hA r hr
    -- every record after the block passes, so the first of them is the answer there
    have hBh : B.find? (fun r => decide (k ≤ r.1)) = B.head? := by
      cases B with
      | nil => rfl
      | cons b B' =>
        exact List.find?_cons_of_pos (by simpa using le_of_lt (hB b (List.mem_cons_self ..)))
    simp [getSpec, List.find?_append, hAn, hBh]

/-- The get in a leaf with sorted records. -/
lemma btreeGetNode_leaf (flag : GetFlag) (k : K) (rem : Nat) {recs : List (K × V)}
    (hs : KeySorted recs) : btreeGetNode flag k rem (.leaf recs) = some (getSpec flag k recs) := by
  have hfind := bnodeFind_leaf hs k
  by_cases hk : k ∈ recs.map Prod.fst
  · -- the slot `bnode_find` gives holds the key
    have hget : recs[recs.countP fun r => r.1 < k]? = getSpec flag k recs := by
      cases flag with
      | BOF_EQUAL => rw [getSpec, find?_eq_key_of_mem hs hk, find?_ge_eq_getElem? hs]
      | BOF_SLANT => rw [getSpec, find?_ge_eq_getElem? hs]
    simp only [btreeGetNode, hfind, hk, decide_true, if_true, hget]
  · cases flag with
    | BOF_EQUAL =>
      have hnone : getSpec .BOF_EQUAL k recs = none :=
        List.find?_eq_none.mpr fun r hr h => hk (List.mem_map.mpr ⟨r, hr, by simpa using h⟩)
      simp [btreeGetNode, hfind, hk, hnone]
    | BOF_SLANT => simp [btreeGetNode, hfind, hk, getSpec, find?_ge_eq_getElem? hs]

/-- **The get below a valid subtree** returns, by induction on its height, the record
`getSpec` reads off the subtree's records. -/
theorem btreeGetNode_eq (flag : GetFlag) (k : K) :
    ∀ (h : Nat) {lo hi : Option K} {n : BNode K V}, WF h lo hi n → InBounds lo hi k →
      btreeGetNode flag k h n = some (getSpec flag k n.contents) := by
  intro h
  induction h with
  | zero =>
    intro lo hi n hw _
    cases n with
    | leaf recs => exact btreeGetNode_leaf flag k 0 hw.1
    | inner _ _ => simp [WF] at hw
  | succ h ih =>
    intro lo hi n hw hk
    cases n with
    | leaf _ => simp [WF] at hw
    | inner lvl recs =>
      obtain rfl : lvl = h + 1 := hw.1
      have hne : recs ≠ [] := by
        rintro rfl
        simp [WF, Chain] at hw
      -- the child the descent takes, and the records on either side of it
      obtain ⟨hsorted, -, -⟩ := Chain.keys_sorted (WF.bounded h) hw.2
      obtain ⟨A, key, c, B, rfl, hidx, hA, hB⟩ :=
        bnodeChildIdx_route (Nat.succ_pos h) hne k hsorted
      obtain ⟨a', b', hk', ⟨hwc, hpc⟩, hAc, hBc, -⟩ := Chain.focus (WF.bounded h) hB hw.2 hk hA
      have hget : (A ++ (key, c) :: B)[A.length]? = some (key, c) := by simp
      have hspec : getSpec flag k (BNode.contentsF (A ++ (key, c) :: B)) =
          (getSpec flag k c.contents).or
            (if flag = .BOF_SLANT then (BNode.contentsF B).head? else none) := by
        rw [BNode.contentsF_append, BNode.contentsF_cons, ← List.append_assoc]
        exact getSpec_append flag hAc hBc
      simp only [btreeGetNode, hidx, hget, Nat.pos_iff_ne_zero.mp hpc, if_false, ih hwc hk',
        BNode.contents_inner, hspec]
      cases hc : getSpec flag k c.contents with
      | some r => simp
      | none =>
        cases B with
        | nil =>
          -- the child is the last: no sibling after it
          have hkc : ¬ A.length < bnodeKeyCount (h + 1) (A.length + 1) := by
            simp [bnodeKeyCount]
          simp [hkc]
        | cons r B' =>
          obtain ⟨rk, rc⟩ := r
          cases flag with
          | BOF_EQUAL => simp
          | BOF_SLANT =>
            -- the first record after the child is the first of its next sibling
            have hs : (A ++ (key, c) :: (rk, rc) :: B')[A.length + 1]? = some (rk, rc) := by
              simp
            obtain ⟨-, -, -, hner⟩ :=
              hw.child (by simp : (rk, rc) ∈ A ++ (key, c) :: (rk, rc) :: B')
            have hlt : A.length < bnodeKeyCount (h + 1) (A ++ (key, c) :: (rk, rc) :: B').length := by
              simp [bnodeKeyCount]
            simp only [hlt, and_self, if_true, btreeSiblingRec_eq true hw hs, Option.none_or,
              BNode.contentsF_cons]
            rw [List.head?_append_of_ne_nil _ hner]

end Get

/-! ### Iteration -/

section Iter

/-- An iteration acts inside the block of records that may hold its key: the answer is the
block's, or past the block the first record after it (`BOF_NEXT`) or the last before it
(`BOF_PREV`). -/
lemma iterSpec_append (flag : IterFlag) {k : K} {A B C : List (K × V)} (hA : ∀ r ∈ A, r.1 < k)
    (hB : ∀ r ∈ B, k < r.1) :
    iterSpec flag k (A ++ C ++ B) =
      (iterSpec flag k C).or (if flag = .BOF_NEXT then B.head? else A.getLast?) := by
  cases flag with
  | BOF_NEXT =>
    have hAn : A.find? (fun r => decide (k < r.1)) = none :=
      List.find?_eq_none.mpr fun r hr => by simpa using le_of_lt (hA r hr)
    have hBh : B.find? (fun r => decide (k < r.1)) = B.head? := by
      cases B with
      | nil => rfl
      | cons b B' => exact List.find?_cons_of_pos (by simpa using hB b (List.mem_cons_self ..))
    simp [iterSpec, List.find?_append, hAn, hBh]
  | BOF_PREV =>
    -- the records below the key are those of the block below it and all those before it
    have hAf : A.filter (fun r => decide (r.1 < k)) = A :=
      List.filter_eq_self.mpr fun r hr => by simpa using hA r hr
    have hBf : B.filter (fun r => decide (r.1 < k)) = [] :=
      List.filter_eq_nil_iff.mpr fun r hr => by simpa using le_of_lt (hB r hr)
    simp [iterSpec, List.filter_append, hAf, hBf, List.getLast?_append]

/-- The iteration in a leaf with sorted records. -/
lemma btreeIterNode_leaf (flag : IterFlag) (k : K) (rem : Nat) {recs : List (K × V)}
    (hs : KeySorted recs) : btreeIterNode flag k rem (.leaf recs) = some (iterSpec flag k recs) := by
  have hfind := bnodeFind_leaf hs k
  have hle := @List.countP_le_length _ (fun r => decide (r.1 < k)) recs
  cases flag with
  | BOF_NEXT =>
    -- one slot past the key when it is there: the first record above it
    set n := recs.countP (fun r => r.1 ≤ k) with hn
    have hidx : (if k ∈ recs.map Prod.fst then ((recs.countP fun r => r.1 < k : Nat) : Int) + 1
        else (recs.countP fun r => r.1 < k : Nat)) = (n : Int) := by
      rw [hn, countP_key_le hs k]
      split_ifs <;> simp
    simp only [btreeIterNode, hfind, decide_eq_true_eq, if_true, hidx, iterSpec,
      find?_gt_eq_getElem? hs, ← hn]
    by_cases hlt : n < recs.length
    · simp [hlt]
    · simp [hlt]
  | BOF_PREV =>
    -- one slot back from the slot `bnode_find` gives: the last record below the key
    simp only [btreeIterNode, hfind, reduceCtorEq, if_false, iterSpec,
      getLast?_filter_lt_eq_getElem? hs]
    by_cases h0 : recs.countP (fun r => r.1 < k) = 0
    · simp [h0]
    · have hpos : 0 < recs.countP (fun r => r.1 < k) := Nat.pos_of_ne_zero h0
      have hcast : (((recs.countP fun r => r.1 < k : Nat) : Int) - 1).toNat =
          recs.countP (fun r => r.1 < k) - 1 := by omega
      simp only [h0, if_false, hcast]
      rw [if_pos ⟨by omega, by omega⟩]

/-- **The iteration below a valid subtree** returns, by induction on its height, the record
`iterSpec` reads off the subtree's records. -/
theorem btreeIterNode_eq (flag : IterFlag) (k : K) :
    ∀ (h : Nat) {lo hi : Option K} {n : BNode K V}, WF h lo hi n → InBounds lo hi k →
      btreeIterNode flag k h n = some (iterSpec flag k n.contents) := by
  intro h
  induction h with
  | zero =>
    intro lo hi n hw _
    cases n with
    | leaf recs => exact btreeIterNode_leaf flag k 0 hw.1
    | inner _ _ => simp [WF] at hw
  | succ h ih =>
    intro lo hi n hw hk
    cases n with
    | leaf _ => simp [WF] at hw
    | inner lvl recs =>
      obtain rfl : lvl = h + 1 := hw.1
      have hne : recs ≠ [] := by
        rintro rfl
        simp [WF, Chain] at hw
      obtain ⟨hsorted, -, -⟩ := Chain.keys_sorted (WF.bounded h) hw.2
      obtain ⟨A, key, c, B, rfl, hidx, hA, hB⟩ :=
        bnodeChildIdx_route (Nat.succ_pos h) hne k hsorted
      obtain ⟨a', b', hk', ⟨hwc, hpc⟩, hAc, hBc, -⟩ := Chain.focus (WF.bounded h) hB hw.2 hk hA
      have hget : (A ++ (key, c) :: B)[A.length]? = some (key, c) := by simp
      have hspec : iterSpec flag k (BNode.contentsF (A ++ (key, c) :: B)) =
          (iterSpec flag k c.contents).or
            (if flag = .BOF_NEXT then (BNode.contentsF B).head?
              else (BNode.contentsF A).getLast?) := by
        rw [BNode.contentsF_append, BNode.contentsF_cons, ← List.append_assoc]
        exact iterSpec_append flag hAc hBc
      simp only [btreeIterNode, hidx, hget, Nat.pos_iff_ne_zero.mp hpc, if_false, ih hwc hk',
        BNode.contents_inner, hspec]
      cases hc : iterSpec flag k c.contents with
      | some r => simp
      | none =>
        cases flag with
        | BOF_NEXT =>
          cases B with
          | nil =>
            have hkc : ¬ A.length < bnodeKeyCount (h + 1) (A.length + 1) := by
              simp [bnodeKeyCount]
            simp [hkc]
          | cons r B' =>
            -- the pivot's next sibling holds the first record above the key
            obtain ⟨rk, rc⟩ := r
            have hs : (A ++ (key, c) :: (rk, rc) :: B')[A.length + 1]? = some (rk, rc) := by
              simp
            obtain ⟨-, -, -, hner⟩ :=
              hw.child (by simp : (rk, rc) ∈ A ++ (key, c) :: (rk, rc) :: B')
            have hlt : A.length <
                bnodeKeyCount (h + 1) (A ++ (key, c) :: (rk, rc) :: B').length := by
              simp [bnodeKeyCount]
            simp only [hlt, and_self, if_true, btreeSiblingRec_eq true hw hs, Option.none_or,
              BNode.contentsF_cons]
            rw [List.head?_append_of_ne_nil _ hner]
        | BOF_PREV =>
          rcases List.eq_nil_or_concat' A with rfl | ⟨A', ⟨ak, ac⟩, rfl⟩
          · simp
          · -- the pivot's previous sibling holds the last record below the key
            have hs : (A' ++ [(ak, ac)] ++ (key, c) :: B)[(A' ++ [(ak, ac)]).length - 1]? =
                some (ak, ac) := by
              simp
            obtain ⟨-, -, -, hnea⟩ :=
              hw.child (by simp : (ak, ac) ∈ A' ++ [(ak, ac)] ++ (key, c) :: B)
            have hpos : 0 < (A' ++ [(ak, ac)]).length := by simp
            simp only [reduceCtorEq, false_and, if_false, true_and, hpos, if_true,
              btreeSiblingRec_eq false hw hs, Bool.false_eq_true, Option.none_or,
              BNode.contentsF_append, BNode.contentsF_cons, BNode.contentsF_nil, List.append_nil]
            rw [List.getLast?_append_of_ne_nil _ hnea]

end Iter

/-! ### Lookups on a tree -/

section Tree

/-- **The lookups on a valid tree** return what their specs read off its records. -/
theorem btreeLookup_eq {t : Btree K V} (ht : t.Valid) (k : K) :
    (∀ flag, btreeGet flag k t = some (getSpec flag k t.contents)) ∧
      (∀ flag, btreeIter flag k t = some (iterSpec flag k t.contents)) ∧
      btreeMinkey t = some t.contents.head? ∧ btreeMaxkey t = some t.contents.getLast? :=
  ⟨fun flag => btreeGetNode_eq flag k _ ht.2 ⟨by simp, by simp⟩,
    fun flag => btreeIterNode_eq flag k _ ht.2 ⟨by simp, by simp⟩,
    btreeEdgeRec_eq true _ ht.2, btreeEdgeRec_eq false _ ht.2⟩

/-- **The lookups on every tree a run leaves**: a get with `BOF_EQUAL` returns the record
of `k`, with `BOF_SLANT` the record of least key at least `k`; an iteration with `BOF_NEXT`
the record of least key above `k`, with `BOF_PREV` the record of greatest key below it;
`m0_btree_minkey` and `m0_btree_maxkey` the records of least and greatest key. Each gives
`-ENOENT` (`some none`) exactly when no key of the tree qualifies. -/
theorem btreeLookup_reachable (bt : BtreeType K V) (ops : List (BtreeOp K V)) {t : Btree K V}
    {rcs : List Int} (h : btreeRun bt ops btreeCreate = some (t, rcs)) (k : K) :
    (∃ r, btreeGet .BOF_EQUAL k t = some r ∧ IsLeastRec t.contents (· = k) r) ∧
      (∃ r, btreeGet .BOF_SLANT k t = some r ∧ IsLeastRec t.contents (k ≤ ·) r) ∧
      (∃ r, btreeIter .BOF_NEXT k t = some r ∧ IsLeastRec t.contents (k < ·) r) ∧
      (∃ r, btreeIter .BOF_PREV k t = some r ∧ IsGreatestRec t.contents (· < k) r) ∧
      (∃ r, btreeMinkey t = some r ∧ IsLeastRec t.contents (fun _ => True) r) ∧
      (∃ r, btreeMaxkey t = some r ∧ IsGreatestRec t.contents (fun _ => True) r) := by
  -- a tree a run leaves is valid, so its records are sorted by key
  have ht := (btreeRun_ok bt ops btreeCreate_valid h).1
  have hs := ht.sorted
  obtain ⟨hget, hiter, hmin, hmax⟩ := btreeLookup_eq ht k
  have hhead : t.contents.head? = t.contents.find? fun _ => decide True := by
    cases t.contents <;> simp
  have hlast : t.contents.getLast? = (t.contents.filter fun _ => decide True).getLast? := by
    simp
  refine ⟨⟨_, hget .BOF_EQUAL, isLeastRec_find? _ hs⟩, ⟨_, hget .BOF_SLANT, isLeastRec_find? _ hs⟩,
    ⟨_, hiter .BOF_NEXT, isLeastRec_find? _ hs⟩,
    ⟨_, hiter .BOF_PREV, isGreatestRec_getLast?_filter hs _⟩, ⟨_, hmin, ?_⟩, ⟨_, hmax, ?_⟩⟩
  · rw [hhead]
    exact isLeastRec_find? _ hs
  · rw [hlast]
    exact isGreatestRec_getLast?_filter hs _

/-- Five puts into fixed-format nodes of three records split the root leaf; the lookups from
key `2` then find `2` itself, its successor `3` in the next leaf, and its predecessor `1`. -/
theorem btreeLookup_reachable_ff :
    btreeRun ⟨ffNodeType 64 16 8 8, fun _ => 8, fun _ => 8⟩
        [.put 1 10, .put 2 20, .put 3 30, .put 4 40, .put 5 50] btreeCreate =
      some (⟨.inner 1 [((3 : Nat), .leaf [(1, (10 : Nat)), (2, 20)]),
          (3, .leaf [(3, 30), (4, 40), (5, 50)])], 2⟩, [0, 0, 0, 0, 0]) ∧
    let t : Btree Nat Nat := ⟨.inner 1 [(3, .leaf [(1, 10), (2, 20)]),
      (3, .leaf [(3, 30), (4, 40), (5, 50)])], 2⟩
    (∃ r, btreeGet .BOF_EQUAL 2 t = some r ∧ IsLeastRec t.contents (· = 2) r) ∧
      (∃ r, btreeGet .BOF_SLANT 2 t = some r ∧ IsLeastRec t.contents (2 ≤ ·) r) ∧
      (∃ r, btreeIter .BOF_NEXT 2 t = some r ∧ IsLeastRec t.contents (2 < ·) r) ∧
      (∃ r, btreeIter .BOF_PREV 2 t = some r ∧ IsGreatestRec t.contents (· < 2) r) ∧
      (∃ r, btreeMinkey t = some r ∧ IsLeastRec t.contents (fun _ => True) r) ∧
      (∃ r, btreeMaxkey t = some r ∧ IsGreatestRec t.contents (fun _ => True) r) :=
  have h : btreeRun ⟨ffNodeType 64 16 8 8, fun _ => 8, fun _ => 8⟩
      [.put 1 10, .put 2 20, .put 3 30, .put 4 40, .put 5 50] btreeCreate =
      some (⟨.inner 1 [((3 : Nat), .leaf [(1, (10 : Nat)), (2, 20)]),
        (3, .leaf [(3, 30), (4, 40), (5, 50)])], 2⟩, [0, 0, 0, 0, 0]) := by
    decide +kernel
  ⟨h, btreeLookup_reachable _ _ h 2⟩

end Tree

end Motr
