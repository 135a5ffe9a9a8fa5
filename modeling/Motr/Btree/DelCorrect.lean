import Motr.Btree.Del
import Motr.Btree.PutCorrect

/-!
The delete keeps the B+tree invariant and does what `delSpec` says, whatever the callback
returns.

* `btreeDelLeaf_ok`, `btreeDelInner_ok`: one level of the delete, against what it owes the
  level above (`DelUp.Ok`): the node done is valid, and a node that lost a record is valid
  unless it has none left, in which case the level above frees it.
* `btreeDelNode_ok`: the whole path, by induction on the levels left.
* `btreeDel_ok`: with the root's part (`btreeDelRoot_ok`: the root kept, made an empty leaf,
  or replaced by its only child), a delete takes a valid tree to a valid tree holding
  `delSpec`'s records, and returns its rc.
-/

namespace Motr

variable {K V : Type} [LinearOrder K]

/-! ### One level of the delete -/

section Level

/-- What one level of a delete owes the level above, for a node `n₀` and the records and rc
`spec` the delete should leave under it: a node done is valid, holds `spec.1`, returns
`spec.2` and keeps a record if `n₀` had one; a node that lost a record stays at its level,
holds `spec.1`, is valid unless it has no record left, and the delete succeeded. -/
def DelUp.Ok (h : Nat) (lo hi : Option K) (n₀ : BNode K V) (spec : List (K × V) × Int) :
    DelUp K V → Prop
  | .done n rc => WF h lo hi n ∧ (0 < n₀.recCount → 0 < n.recCount) ∧ n.contents = spec.1 ∧
      rc = spec.2
  | .shrunk n => n.level = h ∧ (0 < n.recCount → WF h lo hi n) ∧ n.contents = spec.1 ∧
      spec.2 = 0

/-- A delete acts inside the block of records that may hold its key. -/
lemma delSpec_append (a : DelArgs K) {A B C : List (K × V)} (hA : ∀ r ∈ A, r.1 < a.key)
    (hB : ∀ r ∈ B, a.key < r.1) :
    delSpec a (A ++ C ++ B) = (A ++ (delSpec a C).1 ++ B, (delSpec a C).2) := by
  have hmem := mem_keys_append_iff (C := C) hA hB
  by_cases hk : a.key ∈ C.map Prod.fst
  · rw [delSpec, delSpec, if_pos (hmem.mpr hk), if_pos hk]
    split_ifs <;> simp only [kvErase_append hA hB]
  · rw [delSpec, delSpec, if_neg (mt hmem.mp hk), if_neg hk]

/-- The leaf records after a delete that removes its record are valid. -/
lemma WF.leaf_kvErase {recs : List (K × V)} {lo hi : Option K} (hw : WF 0 lo hi (.leaf recs))
    (k : K) : WF 0 lo hi (.leaf (kvErase recs k)) :=
  ⟨keySorted_kvErase hw.1 k, fun r hr => hw.2 r (List.mem_filter.mp hr).1⟩

/-- The children of a valid internal node may take wider bounds. -/
lemma childOK_widens (h : Nat) : Widens (ChildOK (K := K) (V := V) h) :=
  fun _ _ _ _ _ hc ha hb => ⟨WF.widen hc.1 ha hb, hc.2⟩

variable (a : DelArgs K)

/-- **The leaf step**: a key that is not there gives `-ENOENT`, a failed callback its rc,
both leaving the leaf as it was; otherwise the record goes. -/
theorem btreeDelLeaf_ok {recs : List (K × V)} {lo hi : Option K}
    (hw : WF 0 lo hi (.leaf recs)) :
    (btreeDelLeaf a recs).Ok 0 lo hi (.leaf recs) (delSpec a recs) := by
  have hfind := bnodeFind_leaf hw.1 a.key
  by_cases hmem : a.key ∈ recs.map Prod.fst
  · by_cases hact : a.actRc = 0
    · -- the slot `bnode_find` gives is the record's sorted position
      have hdel : bnodeDel recs (recs.countP fun r => r.1 < a.key) = kvErase recs a.key := by
        rw [kvErase_eq_take_drop hw.1 hmem, bnodeDel]
      have hspec : delSpec a recs = (kvErase recs a.key, 0) := by simp [delSpec, hmem, hact]
      simp only [btreeDelLeaf, hfind, hmem, hact, decide_true, Bool.true_eq_false, ne_eq,
        not_true_eq_false, if_false, hspec, hdel]
      exact ⟨rfl, fun _ => WF.leaf_kvErase hw a.key, by simp, rfl⟩
    · have hspec : delSpec a recs = (recs, a.actRc) := by simp [delSpec, hmem, hact]
      simp only [btreeDelLeaf, hfind, hmem, hact, decide_true, Bool.true_eq_false, ne_eq,
        not_false_eq_true, if_true, if_false, hspec]
      exact ⟨hw, id, by simp, rfl⟩
  · have hspec : delSpec a recs = (recs, -ENOENT) := by simp [delSpec, hmem]
    simp only [btreeDelLeaf, hfind, hmem, decide_false, if_true, hspec]
    exact ⟨hw, id, by simp, rfl⟩

/-- **A level above the leaf**, given what the child's delete owes it: a child done, or one
that kept a record, stays in its slot; a child left without records goes, and the chain
closes over the gap (`Chain.del`). -/
theorem btreeDelInner_ok {h : Nat} {lo hi a' b' : Option K} {A B : List (K × BNode K V)}
    {key : K} {c : BNode K V} {up : DelUp K V}
    (hch : Chain (ChildOK h) lo hi (A ++ (key, c) :: B))
    (hctx : ∀ ms c', Chain (ChildOK h) a' b' (ms ++ [(key, c')]) →
      Chain (ChildOK h) lo hi (A ++ ms ++ (key, c') :: B))
    (hA : ∀ r ∈ BNode.contentsF A, r.1 < a.key) (hB : ∀ r ∈ BNode.contentsF B, a.key < r.1)
    (hc : 0 < c.recCount) (hup : up.Ok h a' b' c (delSpec a c.contents)) :
    (btreeDelInner (h + 1) (A ++ (key, c) :: B) A.length key up).Ok (h + 1) lo hi
      (.inner (h + 1) (A ++ (key, c) :: B)) (delSpec a (BNode.contentsF (A ++ (key, c) :: B))) := by
  have hspec : delSpec a (BNode.contentsF (A ++ (key, c) :: B)) =
      (BNode.contentsF A ++ (delSpec a c.contents).1 ++ BNode.contentsF B,
        (delSpec a c.contents).2) := by
    rw [BNode.contentsF_append, BNode.contentsF_cons, ← List.append_assoc]
    exact delSpec_append a hA hB
  rw [hspec]
  cases up with
  | done c' rc =>
    obtain ⟨hw', hpos', hcont, hrc⟩ := hup
    simp only [btreeDelInner, set_length_append]
    exact ⟨⟨rfl, by simpa using hctx [] c' ⟨hw', hpos' hc⟩⟩, fun _ => by simp,
      by simp [hcont], hrc⟩
  | shrunk c' =>
    obtain ⟨-, hw', hcont, hrc⟩ := hup
    by_cases hu : c'.recCount = 0
    · -- the child is freed and its record deleted
      have hdel : bnodeDel (A ++ (key, c) :: B) A.length = A ++ B := by simp [bnodeDel]
      have hnil : (delSpec a c.contents).1 = [] := by
        rw [← hcont, BNode.contents_eq_nil_of_recCount hu]
      simp only [btreeDelInner, bnodeIsunderflow_false, hu, beq_self_eq_true, if_true]
      refine ⟨rfl, fun hpos => ⟨rfl, ?_⟩, ?_, hrc⟩
      · have hlen : 2 ≤ (A ++ (key, c) :: B).length := by
          rw [BNode.recCount_inner, length_bnodeDel _ (by simp)] at hpos
          omega
        exact Chain.del (WF.bounded h) (childOK_widens h) hch hlen (by simp)
      · simp [hdel, hnil]
    · have hpos : 0 < c'.recCount := Nat.pos_of_ne_zero hu
      simp only [btreeDelInner, bnodeIsunderflow_false, beq_iff_eq, hu, if_false,
        set_length_append]
      exact ⟨⟨rfl, by simpa using hctx [] c' ⟨hw' hpos, hpos⟩⟩, fun _ => by simp,
        by simp [hcont], hrc.symm⟩

end Level

/-! ### The whole path, and the root -/

section Path

variable (bt : BtreeType K V) (a : DelArgs K)

/-- **The delete below a node**, by induction on the levels left below it: the outcome owes
the level above what `DelUp.Ok` says. -/
theorem btreeDelNode_ok :
    ∀ (rem h : Nat) {lo hi : Option K} {n : BNode K V} {up : DelUp K V},
      WF h lo hi n → InBounds lo hi a.key → btreeDelNode a rem n = some up →
      up.Ok h lo hi n (delSpec a n.contents)
  | _, 0, _, _, .leaf recs, _, hw, _, hdel => by
    simp only [btreeDelNode, Option.some.injEq] at hdel
    subst hdel
    exact btreeDelLeaf_ok a hw
  | _, _ + 1, _, _, .leaf _, _, hw, _, _ => by simp [WF] at hw
  | _, 0, _, _, .inner _ _, _, hw, _, _ => by simp [WF] at hw
  | 0, _ + 1, _, _, .inner _ _, _, _, _, hdel => by simp [btreeDelNode] at hdel
  | rem + 1, h + 1, lo, hi, .inner lvl recs, up, hw, hk, hdel => by
    obtain ⟨rfl, hch⟩ := hw
    have hne : recs ≠ [] := by
      rintro rfl
      simp [Chain] at hch
    -- the child the descent takes, its bounds, and the chain around it
    obtain ⟨hsorted, -, -⟩ := Chain.keys_sorted (WF.bounded h) hch
    obtain ⟨A, key, c, B, rfl, hidx, hA, hB⟩ :=
      bnodeChildIdx_route (Nat.succ_pos h) hne a.key hsorted
    obtain ⟨a', b', hk', ⟨hwc, hpc⟩, hAc, hBc, hctx⟩ := Chain.focus (WF.bounded h) hB hch hk hA
    have hget : (A ++ (key, c) :: B)[A.length]? = some (key, c) := by simp
    simp only [btreeDelNode, hidx, hget, Nat.pos_iff_ne_zero.mp hpc, if_false] at hdel
    cases hchild : btreeDelNode a rem c with
    | none => simp [hchild] at hdel
    | some upc =>
      rw [hchild, Option.map_some, Option.some.injEq] at hdel
      subst hdel
      exact btreeDelInner_ok a hch hctx hAc hBc hpc (btreeDelNode_ok rem h hwc hk' hchild)

/-- **The root's part**: a root done or kept with two records or more stays; one left with
no record is an empty leaf of a tree of height one; one left with a single child gives way to
it, one level down. -/
lemma btreeDelRoot_ok {height : Nat} {n₀ : BNode K V} {spec : List (K × V) × Int}
    {up : DelUp K V} {t' : Btree K V} {rc : Int} (hh : 0 < height)
    (hup : up.Ok (height - 1) none none n₀ spec) (h : btreeDelRoot bt height up = some (t', rc)) :
    t'.Valid ∧ t'.contents = spec.1 ∧ rc = spec.2 := by
  cases up with
  | done n rc' =>
    obtain ⟨hw, -, hcont, hrc⟩ := hup
    obtain ⟨rfl, rfl⟩ := Prod.mk.inj (Option.some.inj h).symm
    exact ⟨⟨hh, hw⟩, hcont, hrc⟩
  | shrunk n =>
    obtain ⟨hlvl, hw, hcont, hrc⟩ := hup
    cases n with
    | leaf recs =>
      obtain ⟨rfl, rfl⟩ := Prod.mk.inj (Option.some.inj h).symm
      refine ⟨⟨hh, ?_⟩, hcont, hrc.symm⟩
      -- a leaf root is valid even with no record left
      rcases Nat.eq_zero_or_pos recs.length with hz | hpos
      · rw [← hlvl, BNode.level_leaf, List.length_eq_zero_iff.mp hz]
        simp [WF, KeySorted]
      · exact hw hpos
    | inner lvl recs =>
      rcases recs with _ | ⟨⟨k, child⟩, _ | ⟨r₂, rs⟩⟩
      · -- the root lost its last record: the tree is made an empty leaf
        obtain ⟨rfl, rfl⟩ := Prod.mk.inj (Option.some.inj h).symm
        exact ⟨btreeCreate_valid, by simp [Btree.contents, ← hcont], hrc.symm⟩
      · -- one child left: it becomes the root
        simp only [btreeDelRoot] at h
        split_ifs at h with hc
        obtain ⟨n', hmv, hres⟩ := Option.map_eq_some_iff.mp h
        obtain ⟨rfl, rfl⟩ := Prod.mk.inj hres
        obtain rfl := bnodeMoveAll_eq hmv
        -- the only child lies one level below the root
        have hwr := hw (by simp)
        rcases hH : height - 1 with _ | h'
        · rw [hH] at hwr
          simp [WF] at hwr
        · rw [hH] at hwr
          obtain ⟨-, hwc, -⟩ := hwr
          exact ⟨⟨Nat.succ_pos h', hwc⟩, by simp [Btree.contents, ← hcont], hrc.symm⟩
      · obtain ⟨rfl, rfl⟩ := Prod.mk.inj (Option.some.inj h).symm
        exact ⟨⟨hh, hw (by simp)⟩, hcont, hrc.symm⟩

/-- **A delete keeps the tree invariant** and leaves the records and returns the rc
`delSpec` gives, whenever no assertion fails. -/
theorem btreeDel_ok {t t' : Btree K V} {rc : Int} (ht : t.Valid)
    (h : btreeDel bt a t = some (t', rc)) :
    t'.Valid ∧ t'.contents = (delSpec a t.contents).1 ∧ rc = (delSpec a t.contents).2 := by
  unfold btreeDel at h
  cases hn : btreeDelNode a (t.height - 1) t.root with
  | none => simp [hn] at h
  | some up =>
    rw [hn] at h
    exact btreeDelRoot_ok bt ht.1 (btreeDelNode_ok a _ _ ht.2 ⟨by simp, by simp⟩ hn) h

end Path

end Motr
