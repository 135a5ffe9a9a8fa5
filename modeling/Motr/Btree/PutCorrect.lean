import Motr.Btree.Put

/-!
The put keeps the tree valid and changes its records as `putSpec` says.

* `btreePutFindSlot_spec`: after a split, the slot found for a record is its sorted
  position in the node, counted in the half it goes to (`SlotOK`).
* `btreePutLeaf_ok`, `btreePutInner_ok`: one level of the put, when the callback succeeds:
  a node done is valid with the records `putSpec` gives; a split gives two valid halves
  whose records together are those (`PutUp.Ok`).
* `btreePutNode_ok`: the same for the whole path below a node, by induction on the levels.
* `btreePut_ok`: **the put keeps the tree invariant**, and the records and the rc are
  those of `putSpec`.
-/

namespace Motr

variable {K V : Type} [LinearOrder K]

/-! ### The slot of a record in a split node -/

section Slot

variable {α : Type}

/-- Where the record of key `k` goes in a node split after its `m`-th record, `S` being the
keys a search reads in the whole node: the slot in the half the flag names is the sorted
position of `k` among `S`, counted from the start of that half. -/
def SlotOK (S : List K) (k : K) (m : Nat) : Bool → Nat → Prop
  | true, tidx => tidx = S.countP (· < k) ∧ S.countP (· < k) ≤ m ∧
      (k ∈ S → S.countP (· < k) < m)
  | false, tidx => m ≤ S.countP (· < k) ∧ tidx = S.countP (· < k) - m

omit [LinearOrder K] in
lemma bnodeKeys_getElem? {lvl : Nat} {recs : List (K × α)} {i : Nat}
    (hi : i < bnodeKeyCount lvl recs.length) :
    (bnodeKeys lvl recs)[i]? = (recs[i]?).map Prod.fst := by
  simp [bnodeKeys, hi]

omit [LinearOrder K] in
/-- The keys a search reads in the left half are the first ones the whole node reads. -/
lemma bnodeKeys_left (lvl : Nat) (left right : List (K × α)) (hr : 0 < right.length) :
    (left.map Prod.fst).take (bnodeKeyCount lvl left.length) =
      (bnodeKeys lvl (left ++ right)).take (bnodeKeyCount lvl left.length) := by
  have hle : bnodeKeyCount lvl left.length ≤ left.length := bnodeKeyCount_le _ _
  have hle' : bnodeKeyCount lvl left.length ≤ bnodeKeyCount lvl (left ++ right).length := by
    simp only [List.length_append, bnodeKeyCount]
    split <;> omega
  rw [bnodeKeys, List.take_take, min_eq_left hle', List.map_append,
    List.take_append_of_le_length (by simpa using hle)]

omit [LinearOrder K] in
/-- The keys a search reads in the right half are the rest of those the whole node reads. -/
lemma bnodeKeys_right (lvl : Nat) (left right : List (K × α)) (hr : 0 < right.length) :
    (right.map Prod.fst).take (bnodeKeyCount lvl right.length) =
      (bnodeKeys lvl (left ++ right)).drop left.length := by
  have hc : bnodeKeyCount lvl (left ++ right).length - left.length =
      bnodeKeyCount lvl right.length := by
    simp only [List.length_append, bnodeKeyCount]
    split <;> omega
  rw [bnodeKeys, List.drop_take, hc, List.map_append, List.drop_left' (by simp)]

/-- **The slot found after a split.** On sorted keys, and for an internal node a key that
is no separator, the slot is the sorted position of the key in the node, in the half it
goes to; the corner case of an internal left half covers the one key `bnode_find` does not
read there. -/
theorem btreePutFindSlot_spec {lvl : Nat} {left right : List (K × α)} {k : K}
    {onLeft : Bool} {tidx : Nat} (h : btreePutFindSlot lvl left right k = some (onLeft, tidx))
    (hmin : 0 < lvl → 2 ≤ right.length)
    (hs : (bnodeKeys lvl (left ++ right)).Pairwise (· < ·))
    (hk : 0 < lvl → k ∉ bnodeKeys lvl (left ++ right)) :
    SlotOK (bnodeKeys lvl (left ++ right)) k left.length onLeft tidx := by
  obtain ⟨r₀, rt, rfl⟩ : ∃ r₀ rt, right = r₀ :: rt := by
    cases right with
    | nil => simp [btreePutFindSlot] at h
    | cons r₀ rt => exact ⟨r₀, rt, rfl⟩
  obtain ⟨l₀, hl₀⟩ : ∃ l₀, left.getLast? = some l₀ := by
    cases hl : left.getLast? with
    | none => simp [btreePutFindSlot, hl] at h
    | some l₀ => exact ⟨l₀, rfl⟩
  simp only [btreePutFindSlot, hl₀] at h
  set S := bnodeKeys lvl (left ++ r₀ :: rt) with hS
  set m := left.length with hm
  have hm0 : 0 < m := by
    have := List.getLast?_eq_getElem? ▸ hl₀
    by_contra h0
    simp [show left.length = 0 by omega] at this
  -- the first key of the right half and the last of the left half are read by a search
  have hcm : m < bnodeKeyCount lvl (left ++ r₀ :: rt).length := by
    have := hmin
    simp only [List.length_append, List.length_cons, bnodeKeyCount] at this ⊢
    split <;> omega
  have hSm : S[m]? = some r₀.1 := by
    rw [hS, bnodeKeys_getElem? hcm]
    simp [hm]
  have hSm1 : S[m - 1]? = some l₀.1 := by
    rw [hS, bnodeKeys_getElem? (by omega), List.getElem?_append_left (by omega),
      ← List.getLast?_eq_getElem?, hl₀]
    rfl
  have hsL := hs.sublist (List.take_sublist (bnodeKeyCount lvl m) S)
  have hsR := hs.sublist (List.drop_sublist m S)
  split_ifs at h with hcorner hon
  · -- the corner case: after the last key of an internal left half
    obtain ⟨rfl, rfl⟩ := Prod.mk.inj (Option.some.inj h).symm
    obtain ⟨hlvl, hon, hlt⟩ := hcorner
    have hle : S.countP (· < k) ≤ m :=
      countP_le_of_getElem? hs (lt_closed_down k) hSm (by simpa using le_of_lt (by simpa using hon))
    have hge : m - 1 < S.countP (· < k) :=
      lt_countP_of_getElem? hs (lt_closed_down k) hSm1 (by simpa using hlt)
    have hkc : bnodeKeyCount lvl m + 1 = m := by simp [bnodeKeyCount, hlvl]; omega
    exact ⟨by omega, hle, fun hkS => absurd hkS (hk hlvl)⟩
  · -- into the left half, among the keys a search reads there
    obtain ⟨rfl, rfl⟩ := Prod.mk.inj (Option.some.inj h).symm
    have hkr : k < r₀.1 := by simpa using hon
    rw [hon]
    have hle : S.countP (· < k) ≤ m :=
      countP_le_of_getElem? hs (lt_closed_down k) hSm (by simpa using le_of_lt hkr)
    rw [bnodeFind_eq _ k (by rw [List.length_map]; exact bnodeKeyCount_le _ _)
      (by rw [bnodeKeys_left lvl left (r₀ :: rt) (by simp)]; exact hsL),
      bnodeKeys_left lvl left (r₀ :: rt) (by simp), countP_take_of_pairwise hs (lt_closed_down k)]
    -- a search of an internal left half misses its last key, which is above `k` here
    have hmin' : S.countP (· < k) ≤ bnodeKeyCount lvl m := by
      unfold bnodeKeyCount
      split_ifs with hlvl
      · have hkl : k < l₀.1 := by
          rcases lt_or_eq_of_le (not_lt.mp fun hlt => hcorner ⟨hlvl, hon, hlt⟩) with hlt | heq
          · exact hlt
          · exact absurd (heq ▸ List.mem_of_getElem? hSm1) (hk hlvl)
        have := countP_le_of_getElem? hs (lt_closed_down k) hSm1 (by simpa using le_of_lt hkl)
        omega
      · exact hle
    have hmin'' : S.countP (· < k) ≤ bnodeKeyCount lvl left.length := hmin'
    refine ⟨by omega, hle, fun hkS => ?_⟩
    -- a key of the node below the first key of the right half comes before it
    obtain ⟨i, hi, hik⟩ := List.getElem_of_mem hkS
    obtain ⟨hmS, hSm'⟩ := List.getElem?_eq_some_iff.mp hSm
    have him : i < m := by
      by_contra hmi
      have hki : r₀.1 ≤ k := by
        rcases Nat.lt_or_eq_of_le (not_lt.mp hmi) with hmi | rfl
        · have := List.pairwise_iff_getElem.mp hs m i hmS hi hmi
          rw [hik, hSm'] at this
          exact le_of_lt this
        · rw [← hSm', hik]
      exact absurd hkr (not_lt.mpr hki)
    have : S.countP (· < k) ≤ i :=
      countP_le_of_getElem? hs (lt_closed_down k) (List.getElem?_eq_some_iff.mpr ⟨hi, hik⟩)
        (by simp)
    omega
  · -- into the right half, among the keys a search reads there
    obtain ⟨rfl, rfl⟩ := Prod.mk.inj (Option.some.inj h).symm
    have hkr : r₀.1 ≤ k := by simpa using hon
    rw [show decide (k < r₀.1) = false by simpa using hon]
    obtain ⟨hmS, hSm'⟩ := List.getElem?_eq_some_iff.mp hSm
    obtain ⟨hmS1, hSm1'⟩ := List.getElem?_eq_some_iff.mp hSm1
    have hl₀r₀ : l₀.1 < r₀.1 := by
      have := List.pairwise_iff_getElem.mp hs (m - 1) m hmS1 hmS (by omega)
      rwa [hSm1', hSm'] at this
    have hge : m - 1 < S.countP (· < k) :=
      lt_countP_of_getElem? hs (lt_closed_down k) hSm1 (by simpa using lt_of_lt_of_le hl₀r₀ hkr)
    rw [bnodeFind_eq _ k (by rw [List.length_map]; exact bnodeKeyCount_le _ _)
      (by rw [bnodeKeys_right lvl left (r₀ :: rt) (by simp)]; exact hsR),
      bnodeKeys_right lvl left (r₀ :: rt) (by simp), countP_drop_of_pairwise hs (lt_closed_down k)]
    exact ⟨by omega, rfl⟩

/-- **The split of `btree_put_split_and_find`**: the halves are the node's records cut in
two, neither empty, and the slot is the sorted position of the key (`SlotOK`). -/
theorem btreePutSplitAndFind_spec {nt : NodeType} {sz : K × α → Nat × Nat} {lvl : Nat}
    {cur left right : List (K × α)} {k : K} {onLeft : Bool} {tidx : Nat}
    (h : btreePutSplitAndFind nt sz lvl cur k = some (left, right, onLeft, tidx))
    (hs : (bnodeKeys lvl cur).Pairwise (· < ·)) (hk : 0 < lvl → k ∉ bnodeKeys lvl cur) :
    left ++ right = cur ∧ left ≠ [] ∧ right ≠ [] ∧
      SlotOK (bnodeKeys lvl cur) k left.length onLeft tidx := by
  unfold btreePutSplitAndFind at h
  dsimp only at h
  have hmove := bnodeMove_left nt sz lvl cur [] NR_EVEN
  rw [List.nil_append] at hmove
  set mv := bnodeMove nt sz lvl cur [] .D_LEFT NR_EVEN with hmv
  set minRecCount := if 0 < lvl then 2 else 1 with hmrc
  by_cases hmin : mv.1.length < minRecCount ∨ mv.2.length < minRecCount
  · rw [if_pos hmin] at h
    cases h
  rw [if_neg hmin] at h
  obtain ⟨⟨o, i⟩, hslot, hres⟩ := Option.map_eq_some_iff.mp h
  obtain ⟨rfl, rfl, rfl, rfl⟩ : mv.2 = left ∧ mv.1 = right ∧ o = onLeft ∧ i = tidx := by
    simpa using hres
  have hpos : 0 < minRecCount := by rw [hmrc]; split <;> omega
  refine ⟨hmove, List.ne_nil_of_length_pos (by omega), List.ne_nil_of_length_pos (by omega), ?_⟩
  rw [← hmove] at hs hk ⊢
  exact btreePutFindSlot_spec hslot (fun hlvl => by simp [hmrc, hlvl] at hmin; omega) hs hk

variable {R : Type} {S : List K} {k : K} {left right : List R} {tidx : Nat}

lemma SlotOK.make_left (h : SlotOK S k left.length true tidx) (x : R) :
    ntMake left tidx x ++ right = ntMake (left ++ right) (S.countP (· < k)) x := by
  obtain ⟨rfl, hle, -⟩ := h
  exact ntMake_append_left hle x

lemma SlotOK.make_right (h : SlotOK S k left.length false tidx) (x : R) :
    left ++ ntMake right tidx x = ntMake (left ++ right) (S.countP (· < k)) x := by
  obtain ⟨hle, rfl⟩ := h
  rw [ntMake_append_right, Nat.add_sub_cancel' hle]

lemma SlotOK.set_left (h : SlotOK S k left.length true tidx) (hkS : k ∈ S) (x : R) :
    left.set tidx x ++ right = (left ++ right).set (S.countP (· < k)) x := by
  obtain ⟨rfl, -, hlt⟩ := h
  exact set_append_left' (hlt hkS) x

lemma SlotOK.set_right (h : SlotOK S k left.length false tidx) (x : R) :
    left ++ right.set tidx x = (left ++ right).set (S.countP (· < k)) x := by
  obtain ⟨hle, rfl⟩ := h
  rw [set_append_right', Nat.add_sub_cancel' hle]

lemma SlotOK.le_left (h : SlotOK S k left.length true tidx) : tidx ≤ left.length := by
  obtain ⟨rfl, hle, -⟩ := h
  exact hle

lemma SlotOK.le_right (h : SlotOK S k left.length false tidx)
    (hS : S.length ≤ left.length + right.length) : tidx ≤ right.length := by
  obtain ⟨hle, rfl⟩ := h
  have := @List.countP_le_length _ (fun x => decide (x < k)) S
  omega

end Slot

section Level

/-- What one level of a put owes the level above, for a node `n₀` and the records and rc
`spec` the put should leave under it: a node done is valid, holds `spec.1`, returns
`spec.2` and keeps a record if `n₀` had one; a split gives two valid halves around the
separator, neither empty, whose records are together `spec.1`, and the put succeeded. -/
def PutUp.Ok (h : Nat) (lo hi : Option K) (n₀ : BNode K V) (spec : List (K × V) × Int) :
    PutUp K V → Prop
  | .done n rc => WF h lo hi n ∧ (0 < n₀.recCount → 0 < n.recCount) ∧ n.contents = spec.1 ∧
      rc = spec.2
  | .split l s r => WF h lo (some s) l ∧ WF h (some s) hi r ∧ 0 < l.recCount ∧
      0 < r.recCount ∧ l.contents ++ r.contents = spec.1 ∧ spec.2 = 0

/-- A put acts inside the block of records that may hold its key. -/
lemma putSpec_append (a : PutArgs K V) {A B C : List (K × V)} (hA : ∀ r ∈ A, r.1 < a.key)
    (hB : ∀ r ∈ B, a.key < r.1) :
    putSpec a (A ++ C ++ B) = (A ++ (putSpec a C).1 ++ B, (putSpec a C).2) := by
  have hmem := mem_keys_append_iff (C := C) hA hB
  by_cases hk : a.key ∈ C.map Prod.fst
  · rw [putSpec, putSpec, if_pos (hmem.mpr hk), if_pos hk]
    split_ifs <;> simp only [kvPut_append hA hB]
  · rw [putSpec, putSpec, if_neg (mt hmem.mp hk), if_neg hk]
    split_ifs <;> simp only [kvPut_append hA hB]

/-- `bnode_find` at a leaf with sorted records. -/
lemma bnodeFind_leaf {recs : List (K × V)} (hs : KeySorted recs) (k : K) :
    bnodeFind (recs.map Prod.fst) recs.length k =
      (recs.countP (fun r => r.1 < k), decide (k ∈ recs.map Prod.fst)) := by
  have hs' : ((recs.map Prod.fst).take recs.length).Pairwise (· < ·) := by
    rw [List.take_of_length_le (by simp)]
    exact hs
  have h := @bnodeFind_eq K _ (recs.map Prod.fst) recs.length k (by simp) hs'
  rw [List.take_of_length_le (by simp)] at h
  simpa [List.countP_map, Function.comp_def] using h

/-- The leaf records after a put that stores its record are valid. -/
lemma WF.leaf_kvPut {recs : List (K × V)} {lo hi : Option K} {k : K}
    (hw : WF 0 lo hi (.leaf recs)) (hk : InBounds lo hi k) (v : V) :
    WF 0 lo hi (.leaf (kvPut recs k v)) := by
  refine ⟨keySorted_kvPut hw.1 k v, fun r hr => ?_⟩
  rcases mem_kvPut.mp hr with rfl | ⟨hr, -⟩
  · exact hk
  · exact hw.2 r hr

variable (a : PutArgs K V)

omit [LinearOrder K] in
lemma btreePutAct_of_actRc (hact : a.actRc = 0) (nt : NodeType) (recs : List (K × V))
    (idx : Nat) (d : Int) :
    btreePutAct nt a recs idx d = some (.done (.leaf (recs.set idx (a.key, a.val))) 0) := by
  simp [btreePutAct, hact]

/-- Two leaves cut from the records of a put, before a record `r₀`, are a valid split. -/
lemma putUp_ok_leaf_split {recs L rt : List (K × V)} {lo hi : Option K} {r₀ : K × V}
    (hw : WF 0 lo hi (.leaf recs)) (hk : InBounds lo hi a.key) (hL : L ≠ [])
    (hcat : L ++ r₀ :: rt = kvPut recs a.key a.val) :
    (PutUp.split (.leaf L) r₀.1 (.leaf (r₀ :: rt))).Ok 0 lo hi (.leaf recs)
      (kvPut recs a.key a.val, 0) := by
  have hv := WF.leaf_kvPut hw hk a.val
  rw [← hcat] at hv
  obtain ⟨hl, hr⟩ := WF.leaf_split (x := r₀.2) (by simpa using hv.1) (by simpa using hv.2)
  exact ⟨hl, hr, List.length_pos_of_ne_nil hL, by simp, by simpa using hcat, rfl⟩

variable (bt : BtreeType K V)

/-- **The leaf split** of `btree_put_makespace_phase`, when the callback succeeds: two valid
leaves cut before the first key of the right one, holding together the records with the
new record stored. -/
theorem btreePutMakespaceLeaf_ok {found : Bool} {recs : List (K × V)} {lo hi : Option K}
    {up : PutUp K V} (hw : WF 0 lo hi (.leaf recs)) (hk : InBounds lo hi a.key)
    (hact : a.actRc = 0) (hfound : found = decide (a.key ∈ recs.map Prod.fst))
    (h : btreePutMakespaceLeaf bt a found recs = some up) :
    up.Ok 0 lo hi (.leaf recs) (kvPut recs a.key a.val, 0) := by
  unfold btreePutMakespaceLeaf at h
  cases hsf : btreePutSplitAndFind bt.nt bt.leafSize 0 recs a.key with
  | none => simp [hsf] at h
  | some res =>
    obtain ⟨left, right, onLeft, tidx⟩ := res
    have hkeys : bnodeKeys 0 recs = recs.map Prod.fst := by simp [bnodeKeys, bnodeKeyCount]
    obtain ⟨happ, hlne, hrne, hslot⟩ :=
      btreePutSplitAndFind_spec hsf (by rw [hkeys]; exact hw.1) (by simp)
    rw [hkeys] at hslot
    subst happ
    have hp : ((left ++ right).map Prod.fst).countP (· < a.key) =
        (left ++ right).countP (fun r => r.1 < a.key) := by
      simp [List.countP_map, Function.comp_def]
    simp only [hsf, hact, ne_eq, not_true_eq_false, if_false] at h
    split at h
    · exact absurd h (by simp)
    rename_i tgt₁ d hmade
    split at h
    · rename_i written r₀ rt hR
      obtain rfl := (Option.some.inj h).symm
      -- the two halves once the record is written are the records with it stored
      have hcat : (if onLeft then (tgt₁.set tidx (a.key, a.val), right)
          else (left, tgt₁.set tidx (a.key, a.val))).1 ++ (if onLeft then
            (tgt₁.set tidx (a.key, a.val), right) else (left, tgt₁.set tidx (a.key, a.val))).2 =
          kvPut (left ++ right) a.key a.val ∧ (if onLeft then (tgt₁.set tidx (a.key, a.val), right)
            else (left, tgt₁.set tidx (a.key, a.val))).1 ≠ [] := by
        cases found with
        | false =>
          have hk' : a.key ∉ (left ++ right).map Prod.fst := by simpa using hfound.symm
          obtain ⟨-, rfl, -⟩ : _ ∧ _ ∧ _ := by simpa using hmade
          rw [kvPut_eq_take_drop hw.1 hk', ← hp]
          cases onLeft with
          | true =>
            simp only [↓reduceIte]
            rw [set_ntMake_self _ hslot.le_left]
            exact ⟨hslot.make_left _, by simp [ntMake]⟩
          | false =>
            simp only [Bool.false_eq_true, ↓reduceIte]
            rw [set_ntMake_self _ (hslot.le_right (by simp))]
            exact ⟨hslot.make_right _, hlne⟩
        | true =>
          have hk' : a.key ∈ (left ++ right).map Prod.fst := by simpa using hfound.symm
          have htgt : tgt₁ = if onLeft then left else right := by
            simp only [if_true] at hmade
            split at hmade
            · split at hmade
              · exact (Prod.mk.inj (Option.some.inj hmade)).1.symm
              · exact absurd hmade (by simp)
            · exact absurd hmade (by simp)
          subst htgt
          rw [kvPut_eq_set hw.1 hk', ← hp]
          cases onLeft with
          | true =>
            simp only [↓reduceIte]
            exact ⟨hslot.set_left hk' _, by simpa using hlne⟩
          | false =>
            simp only [Bool.false_eq_true, ↓reduceIte]
            exact ⟨hslot.set_right _, hlne⟩
      rw [hR] at hcat ⊢
      exact putUp_ok_leaf_split a hw hk hcat.2 hcat.1
    · exact absurd h (by simp)

/-- **The leaf step of a put**, when the callback succeeds: the sanity check returns the
leaf unchanged with `-EEXIST` or `-ENOENT`; otherwise the record is stored, in place or by
a split. -/
theorem btreePutLeaf_ok {alloc : Bool} {recs : List (K × V)} {lo hi : Option K}
    {up : PutUp K V} (hw : WF 0 lo hi (.leaf recs)) (hk : InBounds lo hi a.key)
    (hact : a.actRc = 0) (h : btreePutLeaf bt a alloc recs = some up) :
    up.Ok 0 lo hi (.leaf recs) (putSpec a recs) := by
  have hp : (recs.map Prod.fst).countP (· < a.key) = recs.countP (fun r => r.1 < a.key) := by
    simp [List.countP_map, Function.comp_def]
  unfold btreePutLeaf at h
  rw [bnodeFind_leaf hw.1] at h
  dsimp only at h
  by_cases hmem : a.key ∈ recs.map Prod.fst
  · -- the key is found: `-EEXIST` for a put, the value replaced for an update
    simp only [hmem, decide_true, true_and, Bool.true_eq_false, false_and, if_false] at h
    by_cases hput : a.opc = .M0_BO_PUT
    · rw [if_pos hput] at h
      obtain rfl := (Option.some.inj h).symm
      simp [PutUp.Ok, putSpec, hmem, hput, hw]
    rw [if_neg hput] at h
    have hupd : a.opc = .M0_BO_UPDATE := by
      by_contra hne
      rw [if_pos hne] at h
      cases h
    rw [if_neg (not_not.mpr hupd)] at h
    have hspec : putSpec a recs = (kvPut recs a.key a.val, 0) := by
      simp [putSpec, hmem, hput]
    rw [hspec]
    obtain ⟨old, hold⟩ : ∃ old, recs[recs.countP (fun r => r.1 < a.key)]? = some old := by
      cases hr : recs[recs.countP (fun r => r.1 < a.key)]? with
      | none => rw [hr] at h; cases h
      | some old => exact ⟨old, rfl⟩
    rw [hold] at h
    dsimp only at h
    by_cases hfit : (bt.vsize a.val : Int) - bt.vsize old.2 ≤ 0 ∨
        (bt.vsize a.val : Int) - bt.vsize old.2 ≤ bt.nt.space 0 (recs.map bt.leafSize)
    · -- resized in place
      rw [if_pos hfit] at h
      split_ifs at h
      rw [btreePutAct_of_actRc a hact] at h
      obtain rfl := (Option.some.inj h).symm
      rw [← kvPut_eq_set hw.1 hmem]
      refine ⟨WF.leaf_kvPut hw hk a.val, fun _ => ?_, rfl, rfl⟩
      simp [kvPut]
    · rw [if_neg hfit] at h
      split_ifs at h
      exact btreePutMakespaceLeaf_ok a bt hw hk hact (by simp [hmem]) h
  · -- the key is absent: `-ENOENT` for an update without `BOF_INSERT_IF_NOT_FOUND`, the
    -- record inserted otherwise
    simp only [hmem, decide_false, Bool.false_eq_true, false_and, if_false, true_and,
      if_true] at h
    split_ifs at h with hupd hdel hfit halloc
    · obtain rfl := (Option.some.inj h).symm
      simp [PutUp.Ok, putSpec, hmem, hupd, hw]
    · have hspec : putSpec a recs = (kvPut recs a.key a.val, 0) := by
        simp [putSpec, hmem, hupd]
      rw [hspec, btreePutAct_of_actRc a hact] at *
      obtain rfl := (Option.some.inj h).symm
      rw [set_ntMake_self _ (by rw [← hp]; exact List.countP_le_length.trans (by simp)), ntMake,
        ← kvPut_eq_take_drop hw.1 hmem]
      refine ⟨WF.leaf_kvPut hw hk a.val, fun _ => ?_, rfl, rfl⟩
      simp [kvPut]
    · have hspec : putSpec a recs = (kvPut recs a.key a.val, 0) := by
        simp [putSpec, hmem, hupd]
      rw [hspec]
      exact btreePutMakespaceLeaf_ok a bt hw hk hact (by simp [hmem]) h

/-- The child predicate of `WF` at height `h`. -/
abbrev ChildOK (h : Nat) : Option K → Option K → BNode K V → Prop :=
  fun lo hi c => WF h lo hi c ∧ 0 < c.recCount

/-- **A level above the leaf**, given what the child's put owes it: a child done leaves the
node valid; a split child adds its new record where the child was, and if the node splits
in turn, its halves are valid around the key of the last record of the left one. -/
theorem btreePutInner_ok {h : Nat} {lo hi a' b' : Option K} {A B : List (K × BNode K V)}
    {key : K} {c : BNode K V} {alloc : Bool} {up up' : PutUp K V}
    (hctx : ∀ ms c', Chain (ChildOK h) a' b' (ms ++ [(key, c')]) →
      Chain (ChildOK h) lo hi (A ++ ms ++ (key, c') :: B))
    (hA : ∀ r ∈ BNode.contentsF A, r.1 < a.key) (hB : ∀ r ∈ BNode.contentsF B, a.key < r.1)
    (hc : 0 < c.recCount) (hup : up.Ok h a' b' c (putSpec a c.contents))
    (h' : btreePutInner bt (h + 1) (A ++ (key, c) :: B) A.length alloc up = some up') :
    up'.Ok (h + 1) lo hi (.inner (h + 1) (A ++ (key, c) :: B))
      (putSpec a (BNode.contentsF (A ++ (key, c) :: B))) := by
  have hspec : putSpec a (BNode.contentsF (A ++ (key, c) :: B)) =
      (BNode.contentsF A ++ (putSpec a c.contents).1 ++ BNode.contentsF B,
        (putSpec a c.contents).2) := by
    rw [BNode.contentsF_append, BNode.contentsF_cons, ← List.append_assoc]
    exact putSpec_append a hA hB
  rw [hspec]
  have hget : (A ++ (key, c) :: B)[A.length]? = some (key, c) := by simp
  cases up with
  | done c' rc =>
    obtain ⟨hw', hpos', hcont, hrc⟩ := hup
    simp only [btreePutInner, hget, set_length_append] at h'
    obtain rfl := (Option.some.inj h').symm
    exact ⟨⟨rfl, by simpa using hctx [] c' ⟨hw', hpos' hc⟩⟩, fun _ => by simp,
      by simp [hcont], hrc⟩
  | split l s r =>
    obtain ⟨hwl, hwr, hpl, hpr, hcont, hrc⟩ := hup
    simp only [btreePutInner, hget, set_length_append] at h'
    -- the new record `(s, l)` in place of the child, `(key, r)` after it
    have hch₂ : Chain (ChildOK h) lo hi (A ++ (s, l) :: (key, r) :: B) := by
      have := hctx [(s, l)] r ⟨⟨hwl, hpl⟩, hwr, hpr⟩
      simpa using this
    have hcont₂ : BNode.contentsF (A ++ (s, l) :: (key, r) :: B) =
        BNode.contentsF A ++ (putSpec a c.contents).1 ++ BNode.contentsF B := by
      simp [← hcont]
    split_ifs at h' with hfit halloc
    · obtain rfl := (Option.some.inj h').symm
      rw [ntMake_length_append]
      exact ⟨⟨rfl, hch₂⟩, fun _ => by simp, by simp [hcont₂], hrc.symm⟩
    · -- the node splits in turn: its separators, with `s` among them, increase strictly
      obtain ⟨hsorted, -, -⟩ := Chain.keys_sorted (WF.bounded h) hch₂
      have hkeys : bnodeKeys (h + 1) (A ++ (key, r) :: B) =
          A.map Prod.fst ++ ((key, r) :: B).dropLast.map Prod.fst := by
        rw [bnodeKeys_inner (Nat.succ_pos h), List.dropLast_append_cons, List.map_append]
      rw [List.dropLast_append_cons, List.dropLast_cons_cons, List.map_append,
        List.map_cons] at hsorted
      dsimp only at hsorted
      obtain ⟨hs₁, hsn, hp⟩ := pairwise_middle hsorted
      rw [← hkeys] at hs₁ hsn hp
      cases hsf : btreePutSplitAndFind bt.nt bt.innerSize (h + 1) (A ++ (key, r) :: B) s with
      | none => simp [hsf] at h'
      | some res =>
        obtain ⟨left, right, onLeft, tidx⟩ := res
        obtain ⟨happ, hlne, hrne, hslot⟩ := btreePutSplitAndFind_spec hsf hs₁ (fun _ => hsn)
        have hpA : (bnodeKeys (h + 1) (A ++ (key, r) :: B)).countP (· < s) = A.length := by
          rw [hp, List.length_map]
        simp only [hsf] at h'
        split at h'
        · exact absurd h' (by simp)
        rename_i tgt₁ hmk
        obtain ⟨-, rfl⟩ := bnodeMake_eq_some.mp hmk
        -- the halves with the new record are the node's records with it
        have hcat : (if onLeft then (ntMake (if onLeft then left else right) tidx (s, l), right)
            else (left, ntMake (if onLeft then left else right) tidx (s, l))).1 ++
            (if onLeft then (ntMake (if onLeft then left else right) tidx (s, l), right)
            else (left, ntMake (if onLeft then left else right) tidx (s, l))).2 =
            A ++ (s, l) :: (key, r) :: B := by
          cases onLeft with
          | true =>
            simp only [↓reduceIte]
            rw [hslot.make_left, hpA, happ, ntMake_length_append]
          | false =>
            simp only [Bool.false_eq_true, ↓reduceIte]
            rw [hslot.make_right, hpA, happ, ntMake_length_append]
        have hne₂ : (if onLeft then (ntMake (if onLeft then left else right) tidx (s, l), right)
            else (left, ntMake (if onLeft then left else right) tidx (s, l))).2 ≠ [] := by
          cases onLeft with
          | true => exact hrne
          | false => simp [ntMake]
        split at h'
        · rename_i sep lc hlast
          obtain rfl := (Option.some.inj h').symm
          obtain ⟨xs, hxs⟩ := List.getLast?_eq_some_iff.mp hlast
          rw [hxs, List.append_assoc, List.singleton_append] at hcat
          rw [← hcat, Chain.append_iff hne₂] at hch₂
          refine ⟨⟨rfl, hxs ▸ hch₂.1⟩, ⟨rfl, hch₂.2⟩, by simp [hxs],
            List.length_pos_of_ne_nil hne₂, ?_, hrc⟩
          rw [BNode.contents_inner, BNode.contents_inner, ← BNode.contentsF_append, hxs,
            List.append_assoc, List.singleton_append, hcat, hcont₂]
        · exact absurd h' (by simp)

end Level

/-! ### The whole path, and the root -/

section Path

variable (bt : BtreeType K V) (a : PutArgs K V)

/-- **The put below a node**, when the callback succeeds, by induction on the levels left
below it: the outcome owes the level above what `PutUp.Ok` says. -/
theorem btreePutNode_ok (hact : a.actRc = 0) :
    ∀ (rem h : Nat) {lo hi : Option K} {n : BNode K V} {up : PutUp K V} {alloc : Bool},
      WF h lo hi n → InBounds lo hi a.key → btreePutNode bt a rem n = some (up, alloc) →
      up.Ok h lo hi n (putSpec a n.contents)
  | _, 0, _, _, .leaf recs, _, _, hw, hk, hput => by
    simp only [btreePutNode, Option.map_eq_some_iff, Prod.mk.injEq] at hput
    obtain ⟨up', hleaf, rfl, -⟩ := hput
    exact btreePutLeaf_ok a bt hw hk hact hleaf
  | _, _ + 1, _, _, .leaf _, _, _, hw, _, _ => by simp [WF] at hw
  | _, 0, _, _, .inner _ _, _, _, hw, _, _ => by simp [WF] at hw
  | 0, _ + 1, _, _, .inner _ _, _, _, _, _, hput => by simp [btreePutNode] at hput
  | rem + 1, h + 1, lo, hi, .inner lvl recs, up, alloc, hw, hk, hput => by
    obtain ⟨rfl, hch⟩ := hw
    have hne : recs ≠ [] := by
      rintro rfl
      simp [Chain] at hch
    -- the child the descent takes, its bounds, and the chain around it
    obtain ⟨hsorted, -, -⟩ := Chain.keys_sorted (WF.bounded h) hch
    obtain ⟨A, key, c, B, rfl, hidx, hA, hB⟩ :=
      bnodeChildIdx_route (Nat.succ_pos h) hne a.key hsorted
    obtain ⟨a', b', hk', ⟨hwc, hpc⟩, hAc, hBc, hctx⟩ := Chain.focus (WF.bounded h) hB hch hk hA
    have hget : (A ++ (key, c) :: B)[A.length]? = some (key, c) := by simp
    simp only [btreePutNode, hidx, hget, Nat.pos_iff_ne_zero.mp hpc, if_false] at hput
    cases hchild : btreePutNode bt a rem c with
    | none => simp [hchild] at hput
    | some res =>
      obtain ⟨upc, allocc⟩ := res
      simp only [hchild, Option.map_eq_some_iff, Prod.mk.injEq] at hput
      obtain ⟨up', hinner, rfl, -⟩ := hput
      exact btreePutInner_ok a bt hctx hAc hBc hpc
        (btreePutNode_ok hact rem h hwc hk' hchild) hinner

omit [LinearOrder K] in
/-- Moving every record of a node into a new one keeps them. -/
lemma bnodeMoveAll_eq {bt : BtreeType K V} {n n' : BNode K V} (h : bnodeMoveAll bt n = some n') :
    n' = n := by
  cases n with
  | leaf recs =>
    have hmv := bnodeMove_right bt.nt bt.leafSize 0 recs [] NR_MAX
    simp only [bnodeMoveAll] at h
    split_ifs at h with hemp
    obtain rfl := (Option.some.inj h).symm
    rw [List.isEmpty_iff.mp hemp, List.nil_append, List.append_nil] at hmv
    rw [hmv]
  | inner lvl recs =>
    have hmv := bnodeMove_right bt.nt bt.innerSize lvl recs [] NR_MAX
    simp only [bnodeMoveAll] at h
    split_ifs at h with hemp
    obtain rfl := (Option.some.inj h).symm
    rw [List.isEmpty_iff.mp hemp, List.nil_append, List.append_nil] at hmv
    rw [hmv]

omit [LinearOrder K] in
/-- **The root split**: a new root one level up, over the two halves of the old root, both
under the separator. -/
lemma btreePutRootSplitHandle_eq {height : Nat} {l r : BNode K V} {s : K} {t' : Btree K V}
    (h : btreePutRootSplitHandle bt height l s r = some t') :
    t' = ⟨.inner (r.level + 1) [(s, l), (s, r)], height + 1⟩ := by
  unfold btreePutRootSplitHandle at h
  cases hmv : bnodeMoveAll bt r with
  | none => simp [hmv] at h
  | some extra =>
    obtain rfl := bnodeMoveAll_eq hmv
    simp only [hmv] at h
    split at h
    · exact absurd h (by simp)
    rename_i root₁ h₁
    obtain ⟨-, rfl⟩ := bnodeMake_eq_some.mp h₁
    split at h
    · exact absurd h (by simp)
    rename_i root₂ h₂
    obtain ⟨-, rfl⟩ := bnodeMake_eq_some.mp h₂
    split_ifs at h
    obtain rfl := (Option.some.inj h).symm
    simp [ntMake]

/-- **A put keeps the tree invariant** and, when the callback succeeds, leaves the records
and returns the rc `putSpec` gives, whenever no assertion fails. -/
theorem btreePut_ok {t t' : Btree K V} {rc : Int} (ht : t.Valid) (hact : a.actRc = 0)
    (h : btreePut bt a t = some (t', rc)) :
    t'.Valid ∧ t'.contents = (putSpec a t.contents).1 ∧ rc = (putSpec a t.contents).2 := by
  unfold btreePut at h
  cases hn : btreePutNode bt a (t.height - 1) t.root with
  | none => simp [hn] at h
  | some res =>
    obtain ⟨up, alloc⟩ := res
    have hok := btreePutNode_ok bt a hact _ _ ht.2 ⟨by simp, by simp⟩ hn
    rw [hn] at h
    cases up with
    | done n rc' =>
      obtain ⟨hw, -, hcont, hrc⟩ := hok
      obtain ⟨rfl, rfl⟩ := Prod.mk.inj (Option.some.inj h).symm
      exact ⟨⟨ht.1, hw⟩, hcont, hrc⟩
    | split l s r =>
      obtain ⟨hwl, hwr, hpl, hpr, hcont, hrc⟩ := hok
      simp only at h
      split_ifs at h
      obtain ⟨t'', hroot, hres⟩ := Option.map_eq_some_iff.mp h
      obtain ⟨rfl, rfl⟩ := Prod.mk.inj hres
      rw [btreePutRootSplitHandle_eq bt hroot, WF.level hwr]
      -- the root, one level up, over the two halves
      have hh : t.height - 1 + 1 = t.height + 1 - 1 := by have := ht.1; omega
      refine ⟨⟨Nat.succ_pos _, ?_⟩, ?_, hrc.symm⟩
      · rw [← hh]
        exact ⟨rfl, ⟨hwl, hpl⟩, hwr, hpr⟩
      · simp [Btree.contents, ← hcont]

end Path

end Motr
