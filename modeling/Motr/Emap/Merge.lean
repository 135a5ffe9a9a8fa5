import Motr.Emap.PasteRefine

/-!
`m0_be_emap_split` and `m0_be_emap_merge` of `be/extmap.c`, on a map whose segments of the
cursor's prefix tile the name space.

`m0_be_emap_split` cuts the cursor's segment into parts whose lengths add up to the segment's
(`be_emap_split` from the segment's start). `m0_be_emap_merge(delta)` deletes the record of the
cursor's segment, inserts it back shortened by `delta` unless that empties it, puts the cursor
back (`emap_it_get`), and moves the start of the next segment `delta` to the left
(`update_next_segment`), going to it with `be_emap_next` when the shortened segment was
inserted.

* `EmapTiles.around`: a segment of a tiling map, with the records before and after it, and the
  tilings on either side.
* `m0BeEmapSplit_spec`: the records of the non-empty parts take the place of the segment's,
  and the map still tiles.
* `m0BeEmapMerge_spec`: the segment loses its last `delta` offsets, or goes when they are all
  of it, the next segment gains them, nothing else changes, and the map still tiles.
-/

namespace Motr

section Ops

variable (bt : BtreeType EmapKey EmapRec)

/-- `m0_be_emap_split`: the cursor's segment cut into the parts of `vec`, whose lengths add up
to the segment's (`M0_PRE`); the index vector and the checksum buffers of the C function are
the parts' lengths, values and checksums. -/
def m0BeEmapSplit (it : EmapCursor) (vec : List SplitPart) (t : EmapTree) :
    Option (EmapCursor × EmapTree × Int) :=
  if (vec.map SplitPart.count).sum = m0ExtLength it.ecSeg.eeExt then
    beEmapSplit bt it vec it.ecSeg.eeExt.eStart t
  else none

/-- `emap_extent_update`: the cursor's segment takes the start and the value of `es`, which
has its prefix and its end (`M0_PRE`), and its record is updated. -/
def emapExtentUpdate (it : EmapCursor) (es : EmapSeg) (t : EmapTree) :
    Option (EmapCursor × EmapTree × Int) :=
  if it.ecSeg.eePre = es.eePre ∧ it.ecSeg.eeExt.eEnd = es.eeExt.eEnd then
    emapItPack (beEmapUpdateWrapper bt) { it with ecSeg := { it.ecSeg with
      eeExt := { it.ecSeg.eeExt with eStart := es.eeExt.eStart }, eeVal := es.eeVal } } t
  else none

/-- `update_next_segment`: the segment after the cursor's, or the cursor's own when `getNext`
is unset, moved `delta` to the left at its start. -/
def updateNextSegment (it : EmapCursor) (t : EmapTree) (delta : Nat) (getNext : Bool) :
    Option (EmapCursor × EmapTree × Int) :=
  match (if getNext then beEmapNext it t else some (it, 0)) with
  | none => none
  | some (it, rc) =>
    if rc = 0 then
      let it := { it with ecSeg := { it.ecSeg with
        eeExt := { it.ecSeg.eeExt with eStart := it.ecSeg.eeExt.eStart - delta } } }
      emapExtentUpdate bt it it.ecSeg t
    else some (it, t, rc)

/-- **`m0_be_emap_merge(delta)`** on a segment that is not the last and has at least `delta`
offsets (`M0_PRE`): its record deleted, and inserted back shortened by `delta` when something
is left of it; the cursor put back at its key; the next segment moved `delta` to the left. -/
def m0BeEmapMerge (it : EmapCursor) (t : EmapTree) (delta : Nat) :
    Option (EmapCursor × EmapTree × Int) :=
  if m0BeEmapExtIsLast it.ecSeg.eeExt = false ∧ delta ≤ m0ExtLength it.ecSeg.eeExt then
    match emapItPack (beEmapDeleteWrapper bt) it t with
    | none => none
    | some (it, t, rc) =>
      let ins : Option ((EmapCursor × EmapTree × Int) × Bool) :=
        if rc = 0 ∧ delta < m0ExtLength it.ecSeg.eeExt then
          (emapItPack (beEmapInsertWrapper bt) { it with ecSeg := { it.ecSeg with
            eeExt := { it.ecSeg.eeExt with eEnd := it.ecSeg.eeExt.eEnd - delta } } } t).map
            (·, true)
        else some ((it, t, rc), false)
      match ins with
      | none => none
      | some ((it, t, rc), inserted) =>
        if rc = 0 then
          match emapItGet it t with
          | none => none
          | some (it, rc) => if rc = 0 then updateNextSegment bt it t delta inserted
            else some (it, t, rc)
        else some (it, t, rc)
  else none

end Ops

/-! ### A segment of a map that tiles -/

/-- What a merge of `delta` is for, on a segment `s` and the segment `n` after it: `s` loses
its last `delta` offsets, or goes when they are all of it, and `n` gains them. -/
def mergeRecs (delta : Nat) (s n : EmapKey × EmapRec) : List (EmapKey × EmapRec) :=
  (if delta < recEnd s - recStart s then [(⟨s.1.ekPrefix, recEnd s - delta⟩, s.2)] else []) ++
    [(n.1, { n.2 with erStart := n.2.erStart - delta })]

/-- The parts of a split tile the interval of their lengths' sum from where they start. -/
lemma splitRecs_tiles {pre u : Nat} {vec : List SplitPart} : ∀ {scan : Nat},
    Tiles recStart recEnd scan (scan + (vec.map SplitPart.count).sum) (splitRecs pre u vec scan) := by
  induction vec with
  | nil => simp [splitRecs]
  | cons part vec ih =>
    intro scan
    by_cases h : part.count = 0
    · rw [splitRecs, if_pos h]
      simpa [h] using @ih scan
    · rw [splitRecs, if_neg h, tiles_cons]
      refine ⟨rfl, by simp only [recEnd]; omega, ?_⟩
      simpa [recEnd, Nat.add_assoc] using @ih (scan + part.count)

/-- The segments after a merge tile what the segment and the one after it tiled. -/
lemma mergeRecs_tiles {delta : Nat} {s n : EmapKey × EmapRec} (hs : recStart s < recEnd s)
    (hsn : recStart n = recEnd s) (hn : recStart n < recEnd n)
    (hd : delta ≤ recEnd s - recStart s) :
    Tiles recStart recEnd (recStart s) (recEnd n) (mergeRecs delta s n) := by
  unfold mergeRecs
  split_ifs with h
  · -- `s` keeps its first offsets, up to where `n` now starts
    simp only [List.singleton_append, tiles_cons, tiles_nil]
    simp only [recStart, recEnd, true_and, and_true] at hs hsn hn h ⊢
    omega
  · -- `s` goes: `n` starts where `s` did
    simp only [List.nil_append, tiles_cons, tiles_nil]
    simp only [recStart, recEnd, and_true] at hs hsn hn h hd ⊢
    omega

/-- **A segment cut out of the records of a map** whose segments of prefix `p` tile the name
space: the records of lower prefixes (`X`), the segments before it, which tile
`[0, start)` (`A`), the segment `s`, the segments after it, which tile
`[end, M0_BINDEX_MAX + 1)` (`B`), and the records of higher prefixes (`Y`). -/
structure SegCut (p : Nat) (l X A B Y : List (EmapKey × EmapRec)) (s : EmapKey × EmapRec) :
    Prop where
  eq : l = X ++ (A ++ s :: B) ++ Y
  lt_X : ∀ x ∈ X, x.1.ekPrefix < p
  prefix_eq : ∀ x ∈ A ++ s :: B, x.1.ekPrefix = p
  gt_Y : ∀ x ∈ Y, p < x.1.ekPrefix
  tiles_A : Tiles recStart recEnd 0 (recStart s) A
  start_lt : recStart s < recEnd s
  tiles_B : Tiles recStart recEnd (recEnd s) (M0_BINDEX_MAX + 1) B

namespace SegCut

variable {p : Nat} {l X A B Y : List (EmapKey × EmapRec)} {s : EmapKey × EmapRec}

/-- Every segment of a sorted map that tiles can be cut out. -/
theorem of_mem (hl : KeySorted l) (htile : EmapTiles p l) (hs : s ∈ l)
    (hp : s.1.ekPrefix = p) : ∃ X A B Y, SegCut p l X A B Y s := by
  have hsM : s ∈ emapRecs p l := List.mem_filter.mpr ⟨hs, by simpa using hp⟩
  obtain ⟨A, B, hAB⟩ := List.append_of_mem hsM
  have htiles := htile
  rw [EmapTiles, hAB, tiles_append] at htiles
  obtain ⟨b, hA, hsB⟩ := htiles
  obtain ⟨rfl, hlt, hB⟩ := tiles_cons.mp hsB
  refine ⟨l.filter (fun x => x.1.ekPrefix < p), A, B, l.filter (fun x => p < x.1.ekPrefix),
    ?_, ?_, ?_, ?_, hA, hlt, hB⟩
  · rw [← hAB]
    exact (emapRecs_partition hl p).symm
  · intro x hx
    simpa using (List.mem_filter.mp hx).2
  · intro x hx
    exact ekPrefix_of_mem_emapRecs (hAB ▸ hx)
  · intro x hx
    simpa using (List.mem_filter.mp hx).2

lemma eq_around (c : SegCut p l X A B Y s) : l = (X ++ A) ++ s :: (B ++ Y) := by
  rw [c.eq]
  simp

/-- On a sorted map, the records before the segment are below its key. -/
lemma lt_of_mem_before (c : SegCut p l X A B Y s) (hl : KeySorted l) :
    ∀ x ∈ X ++ A, x.1 < s.1 := by
  rw [c.eq_around, keySorted_append] at hl
  exact fun x hx => hl.2.2 x hx s List.mem_cons_self

/-- On a sorted map, the records after the segment are above its key. -/
lemma gt_of_mem_after (c : SegCut p l X A B Y s) (hl : KeySorted l) :
    ∀ x ∈ B ++ Y, s.1 < x.1 := by
  rw [c.eq_around, keySorted_append, keySorted_cons] at hl
  exact hl.2.1.1

/-- The records before the segment are below every key of its prefix past its start. -/
lemma lt_of_start_lt (c : SegCut p l X A B Y s) {y : Nat} (hy : recStart s < y) :
    ∀ x ∈ X ++ A, x.1 < ⟨p, y⟩ := by
  intro x hx
  rcases List.mem_append.mp hx with hx | hx
  · exact EmapKey.lt_iff.mpr (Or.inl (c.lt_X x hx))
  · have hp := c.prefix_eq x (List.mem_append_left _ hx)
    have hend := (c.tiles_A.mem hx).2.2
    have hlt : x.1.ekOffset < y := by
      simp only [recEnd] at hend
      omega
    exact EmapKey.lt_iff.mpr (Or.inr ⟨hp, hlt⟩)

/-- **The segment, and those after it up to `y`, replaced by segments `M` of the prefix that
tile the same interval**: the map still tiles. -/
theorem tiles_replace (c : SegCut p l X A B Y s) {M B' : List (EmapKey × EmapRec)} {y : Nat}
    (hM : Tiles recStart recEnd (recStart s) y M)
    (hB' : Tiles recStart recEnd y (M0_BINDEX_MAX + 1) B')
    (hp : ∀ x ∈ M ++ B', x.1.ekPrefix = p) : EmapTiles p (X ++ (A ++ M ++ B') ++ Y) := by
  have hpre : ∀ x ∈ A ++ M ++ B', x.1.ekPrefix = p := by
    intro x hx
    rw [List.append_assoc] at hx
    rcases List.mem_append.mp hx with hx | hx
    · exact c.prefix_eq x (List.mem_append_left _ hx)
    · exact hp x hx
  rw [EmapTiles, emapRecs_around c.lt_X hpre c.gt_Y]
  exact tiles_append.mpr ⟨y, tiles_append.mpr ⟨recStart s, c.tiles_A, hM⟩, hB'⟩

end SegCut

/-! ### The writes and lookups of a split and a merge, with their rc -/

section Steps

variable {bt : BtreeType EmapKey EmapRec} {t t' : EmapTree} {it it' : EmapCursor} {rc : Int}
  {Pre Rest : List (EmapKey × EmapRec)}

/-- A write of the cursor's segment returns the rc its btree operation's spec gives. -/
lemma emapItPack_rc (ht : t.Valid) (op : EmapKey → EmapRec → BtreeOp EmapKey EmapRec)
    (h : emapItPack (fun k r t => (op k r).apply bt t) it t = some (it', t', rc)) :
    rc = ((op (emapKeyOf it.ecSeg) (emapRecOf it.ecSeg it.ecUnitSize)).spec t.contents).2 := by
  obtain ⟨⟨t₁, rc₁⟩, happ, hr⟩ := Option.map_eq_some_iff.mp h
  simp only [Prod.mk.injEq] at hr
  obtain ⟨-, rfl, rfl⟩ := hr
  exact (BtreeOp.apply_spec bt _ ht happ).2.2

/-- An update of a present key and an insert of an absent one succeed. -/
lemma emapItPack_put_rc {c : Prop} [Decidable c] (ht : t.Valid)
    (hk : emapKeyOf it.ecSeg ∈ t.contents.map Prod.fst ↔ c)
    (h : emapItPack (if c then beEmapUpdateWrapper bt else beEmapInsertWrapper bt) it t =
      some (it', t', rc)) : rc = 0 := by
  split at h
  · next hc =>
    have hrc := emapItPack_rc ht (fun k r => .update k r false) h
    simpa [BtreeOp.spec, putSpec, hk.mpr hc] using hrc
  · next hc =>
    have hrc := emapItPack_rc ht (fun k r => .put k r) h
    simpa [BtreeOp.spec, putSpec, mt hk.mp hc] using hrc

/-- A delete of a present key succeeds. -/
lemma emapItPack_delete_rc (ht : t.Valid) (hk : emapKeyOf it.ecSeg ∈ t.contents.map Prod.fst)
    (h : emapItPack (beEmapDeleteWrapper bt) it t = some (it', t', rc)) : rc = 0 := by
  have hrc := emapItPack_rc ht (fun k _ => .del k) h
  simpa [BtreeOp.spec, delSpec, hk] using hrc

/-- The delete of the cursor's record takes it out from between the records around it, and
leaves the cursor as it was. -/
lemma emapItPack_delete_on {k : EmapKey} {r : EmapRec} (ht : t.Valid)
    (hc : t.contents = Pre ++ (k, r) :: Rest) (hPre : ∀ x ∈ Pre, x.1 < k)
    (hRest : ∀ x ∈ Rest, k < x.1) (hon : it.On k r)
    (h : emapItPack (beEmapDeleteWrapper bt) it t = some (it', t', rc)) :
    rc = 0 ∧ t'.Valid ∧ t'.contents = Pre ++ Rest ∧ it' = it := by
  have hkey : emapKeyOf it.ecSeg = k := by
    rw [hon.2.1]
    rfl
  have hk : emapKeyOf it.ecSeg ∈ t.contents.map Prod.fst := by
    rw [hkey, hc]
    simp
  obtain rfl := emapItPack_delete_rc ht hk h
  obtain ⟨-, hv, hc', rfl⟩ := emapItPack_delete ht h
  refine ⟨rfl, hv, by rw [hc', hkey, hc, kvErase_between hPre hRest], ?_⟩
  rw [hkey, ← hon.1]

/-- The insert of the cursor's segment puts its record between the records around it. -/
lemma emapItPack_insert_between (ht : t.Valid) (hc : t.contents = Pre ++ Rest)
    (hPre : ∀ x ∈ Pre, x.1 < emapKeyOf it.ecSeg) (hRest : ∀ x ∈ Rest, emapKeyOf it.ecSeg < x.1)
    (h : emapItPack (beEmapInsertWrapper bt) it t = some (it', t', rc)) :
    rc = 0 ∧ t'.Valid ∧
      t'.contents = Pre ++ (emapKeyOf it.ecSeg, emapRecOf it.ecSeg it.ecUnitSize) :: Rest ∧
      it' = { it with ecKey := emapKeyOf it.ecSeg } := by
  have hk : emapKeyOf it.ecSeg ∉ t.contents.map Prod.fst := by
    rw [hc, ← List.append_nil Pre, mem_keys_append_iff hPre hRest]
    simp
  have hrc := emapItPack_rc ht (fun k r => .put k r) h
  simp only [BtreeOp.spec, putSpec, hk, if_false] at hrc
  obtain rfl := hrc
  obtain ⟨-, hv, hc', rfl⟩ := emapItPack_insert ht h
  exact ⟨rfl, hv, by rw [hc', hc, kvPut_between hPre hRest], rfl⟩

/-- The update of the cursor's segment replaces its record in place. -/
lemma emapItPack_update_at {k : EmapKey} {v₀ : EmapRec} (ht : t.Valid)
    (hkey : emapKeyOf it.ecSeg = k) (hc : t.contents = Pre ++ (k, v₀) :: Rest)
    (hPre : ∀ x ∈ Pre, x.1 < k) (hRest : ∀ x ∈ Rest, k < x.1)
    (h : emapItPack (beEmapUpdateWrapper bt) it t = some (it', t', rc)) :
    rc = 0 ∧ t'.Valid ∧ t'.contents = Pre ++ (k, emapRecOf it.ecSeg it.ecUnitSize) :: Rest := by
  have hk : emapKeyOf it.ecSeg ∈ t.contents.map Prod.fst := by
    rw [hkey, hc]
    simp
  have hrc := emapItPack_rc ht (fun k r => .update k r false) h
  simp only [BtreeOp.spec, putSpec, hk, if_true] at hrc
  obtain rfl := hrc
  obtain ⟨-, hv, hc', -⟩ := emapItPack_update ht h
  rw [hkey] at hc'
  exact ⟨rfl, hv, by rw [hc', hc, kvPut_replace hPre hRest]⟩

/-- The cursor opened on a record of its prefix. -/
def EmapCursor.openAt (it : EmapCursor) (x : EmapKey × EmapRec) : EmapCursor :=
  { it with ecKey := x.1, ecSeg := emapSegOf x.1 x.2, ecUnitSize := x.2.erUnitSize }

/-- `emap_it_get` from a key between the records before `x` and `x`'s opens the cursor on
`x`. -/
lemma emapItGet_at {x : EmapKey × EmapRec} (ht : t.Valid) (hc : t.contents = Pre ++ x :: Rest)
    (hPre : ∀ y ∈ Pre, y.1 < it.ecKey) (hx : it.ecKey ≤ x.1) (hp : x.1.ekPrefix = it.ecPrefix) :
    emapItGet it t = some (it.openAt x, 0) := by
  rw [emapItGet_eq ht, hc, find?_append_cons (fun y hy => by simpa using hPre y hy)
    (by simpa using hx), emapItOpen_some hp]
  rfl

/-- `be_emap_next` from a key between the records before `x` and `x`'s opens the cursor on
`x`. -/
lemma beEmapNext_at {x : EmapKey × EmapRec} (ht : t.Valid) (hc : t.contents = Pre ++ x :: Rest)
    (hPre : ∀ y ∈ Pre, y.1 ≤ it.ecKey) (hx : it.ecKey < x.1) (hp : x.1.ekPrefix = it.ecPrefix) :
    beEmapNext it t = some (it.openAt x, 0) := by
  rw [beEmapNext_eq ht, hc, find?_append_cons (fun y hy => by simpa using hPre y hy)
    (by simpa using hx), emapItOpen_some hp]
  rfl

/-- **`update_next_segment` on the cursor's own record** (`get_next` unset): the record starts
`delta` further left, in place. -/
lemma updateNextSegment_at {n : EmapKey × EmapRec} {delta : Nat} (ht : t.Valid)
    (hc : t.contents = Pre ++ n :: Rest) (hPre : ∀ x ∈ Pre, x.1 < n.1)
    (hRest : ∀ x ∈ Rest, n.1 < x.1) (it₀ : EmapCursor)
    (h : updateNextSegment bt (it₀.openAt n) t delta false = some (it', t', rc)) :
    rc = 0 ∧ t'.Valid ∧
      t'.contents = Pre ++ (n.1, { n.2 with erStart := n.2.erStart - delta }) :: Rest := by
  simp only [updateNextSegment, if_true, emapExtentUpdate, and_self] at h
  exact emapItPack_update_at ht rfl hc hPre hRest h

end Steps

/-! ### Split -/

section Split

variable {bt : BtreeType EmapKey EmapRec} {t t' : EmapTree} {it it' : EmapCursor} {rc : Int}

/-- **Every write of the loop of `be_emap_split` succeeds** when the record of each non-empty
part is present just when the part ends where the segment does: that one is updated, the
others are inserted. -/
theorem beEmapSplitLoop_rc {segEnd : Nat} {vec : List SplitPart} :
    ∀ {scan : Nat} {it it' : EmapCursor} {t t' : EmapTree} {rc : Int}, t.Valid →
      (∀ x ∈ splitRecs it.ecSeg.eePre it.ecUnitSize vec scan,
        x.1 ∈ t.contents.map Prod.fst ↔ x.1.ekOffset = segEnd) →
      beEmapSplitLoop bt segEnd vec scan it t = some (it', t', rc) → rc = 0 := by
  induction vec with
  | nil =>
    intro scan it it' t t' rc _ _ h
    simp only [beEmapSplitLoop, Option.some.injEq, Prod.mk.injEq] at h
    exact h.2.2.symm
  | cons part vec ih =>
    intro scan it it' t t' rc ht hkeys h
    by_cases hc : part.count = 0
    · rw [beEmapSplitLoop, if_pos hc] at h
      rw [splitRecs, if_pos hc] at hkeys
      exact ih ht hkeys h
    · rw [beEmapSplitLoop, if_neg hc] at h
      rw [splitRecs, if_neg hc] at hkeys
      simp only at h
      split at h
      · simp at h
      · next it₁ t₁ rc₁ hpack =>
        -- the part's record is updated when it ends where the segment does, inserted otherwise
        obtain rfl : rc₁ = 0 := emapItPack_put_rc ht (by exact hkeys _ List.mem_cons_self) hpack
        rw [if_pos rfl] at h
        obtain ⟨hv₁, hc₁, rfl⟩ := emapItPack_put ht hpack
        refine ih hv₁ (fun x hx => ?_) h
        -- the later parts end past this one: their records keep their presence
        have hx' := mem_splitRecs hx
        rw [hc₁, mem_keys_kvPut]
        refine (or_iff_right fun h' => ?_).trans (hkeys x (List.mem_cons_of_mem _ hx))
        rw [h'] at hx'
        simp [emapKeyOf] at hx'

/-- The get that ends `be_emap_split` succeeds when the key it looks up is in the tree, of the
prefix the cursor walks. -/
lemma splitGet_rc {itG : EmapCursor} {t₂ : EmapTree} (ht : t₂.Valid)
    (hk : itG.ecKey ∈ t₂.contents.map Prod.fst) (hp : itG.ecKey.ekPrefix = itG.ecPrefix)
    (h : (emapItGet itG t₂).map (fun r => (r.1, t₂, r.2)) = some (it', t', rc)) : rc = 0 := by
  rw [emapItGet_eq ht, ← find?_eq_key_of_mem ht.sorted hk] at h
  obtain ⟨⟨k, r⟩, hy⟩ : ∃ y, t₂.contents.find? (fun s => decide (s.1 = itG.ecKey)) = some y := by
    obtain ⟨y, hy, hyk⟩ := List.mem_map.mp hk
    exact Option.isSome_iff_exists.mp (List.find?_isSome.mpr ⟨y, hy, by simpa using hyk⟩)
  have hkey : k = itG.ecKey := by simpa using List.find?_some hy
  rw [hy, hkey, emapItOpen_some hp] at h
  simp only [Option.map_some, Option.some.injEq, Prod.mk.injEq] at h
  exact h.2.2.symm

/-- **Every write and lookup of `be_emap_split` succeeds** when some part is not empty, the
parts' records are present just when they end where the segment does, and the segment's record
is present, of the prefix the cursor walks. -/
theorem beEmapSplit_rc {vec : List SplitPart} {scan : Nat} {rs : List (EmapKey × EmapRec)}
    (ht : t.Valid) (hrs : splitRecs it.ecSeg.eePre it.ecUnitSize vec scan = rs) (hne : rs ≠ [])
    (hkeys : ∀ x ∈ rs, x.1 ∈ t.contents.map Prod.fst ↔ x.1.ekOffset = it.ecSeg.eeExt.eEnd)
    (hseg : emapKeyOf it.ecSeg ∈ t.contents.map Prod.fst) (hpfx : it.ecSeg.eePre = it.ecPrefix)
    (h : beEmapSplit bt it vec scan t = some (it', t', rc)) : rc = 0 := by
  unfold beEmapSplit at h
  simp only at h
  split at h
  · simp at h
  · next itL tL rcL hloop =>
    obtain rfl := beEmapSplitLoop_rc ht (hrs ▸ hkeys) hloop
    obtain ⟨hvL, hcL, rfl⟩ := beEmapSplitLoop_spec ht hloop
    rw [hrs] at hcL h
    -- the get looks up the key of the last part, which the loop wrote
    obtain ⟨xl, hxl⟩ : ∃ xl, rs.getLast? = some xl :=
      Option.isSome_iff_exists.mp (List.getLast?_isSome.mpr hne)
    have hxp : xl.1.ekPrefix = it.ecSeg.eePre := (mem_splitRecs (hrs ▸ List.mem_of_getLast? hxl)).1
    have hxL : xl.1 ∈ tL.contents.map Prod.fst := hcL ▸ getLast_mem_keys_kvPuts hxl
    rw [hxl] at h
    split_ifs at h with hdel
    · -- the last part stops short of the segment's end: the segment's record is deleted
      split at h
      · simp at h
      · next itD tD rcD hD =>
        obtain ⟨⟨itD', tD', rcD'⟩, hpackD, hfeq⟩ := Option.map_eq_some_iff.mp hD
        simp only [Prod.mk.injEq] at hfeq
        obtain ⟨rfl, rfl, rfl⟩ := hfeq
        have hkD : emapKeyOf it.ecSeg ∈ tL.contents.map Prod.fst := hcL ▸ mem_keys_kvPuts hseg
        obtain rfl := emapItPack_delete_rc hvL (by simpa [splitCursor, emapSegOf, emapKeyOf, hxp] using hkD) hpackD
        obtain ⟨-, hvD, hcD, rfl⟩ := emapItPack_delete hvL hpackD
        rw [if_pos rfl] at h
        refine splitGet_rc hvD ?_ (by simp [splitCursor, emapSegOf, emapKeyOf, hxp, hpfx]) h
        -- the last part's key, which is not the segment's, is left by the delete
        have hoff : xl.1.ekOffset ≠ it.ecSeg.eeExt.eEnd := by
          rcases hdel.2 with hv | hv
          · exact absurd (hrs ▸ splitRecs_eq_nil_iff.mpr hv) hne
          · simpa [splitCursor, emapSegOf] using hv
        rw [hcD, mem_keys_kvErase]
        simp only [splitCursor, emapSegOf, emapKeyOf]
        exact ⟨hxL, fun h' => hoff (EmapKey.mk.inj h').2⟩
    · dsimp only at h
      rw [if_pos rfl] at h
      exact splitGet_rc hvL (by simpa [splitCursor] using hxL) (by simp [splitCursor, hxp, hpfx]) h

/-- **`m0_be_emap_split` on a segment of a map that tiles**: every step succeeds; the records
of the non-empty parts, of the segment's prefix and unit size, take the place of the segment's
record, and nothing else changes; the map still tiles. -/
theorem m0BeEmapSplit_spec {k : EmapKey} {r : EmapRec} {vec : List SplitPart} (ht : t.Valid)
    (htile : EmapTiles it.ecPrefix t.contents) (hmem : (k, r) ∈ t.contents) (hon : it.On k r)
    (hu : it.ecUnitSize = r.erUnitSize) (h : m0BeEmapSplit bt it vec t = some (it', t', rc)) :
    rc = 0 ∧ t'.Valid ∧ ∃ Pre Rest, t.contents = Pre ++ (k, r) :: Rest ∧
      t'.contents = Pre ++ splitRecs k.ekPrefix r.erUnitSize vec (recStart (k, r)) ++ Rest ∧
      EmapTiles it.ecPrefix t'.contents := by
  obtain ⟨-, hseg, hpfx⟩ := hon
  -- the parts' lengths add up to the segment's (`M0_PRE`)
  have hsum : (vec.map SplitPart.count).sum = recEnd (k, r) - recStart (k, r) := by
    by_contra hs
    simp only [m0BeEmapSplit, hseg, emapSegOf, m0ExtLength, Option.ite_none_right_eq_some] at h
    exact hs h.1
  rw [m0BeEmapSplit, if_pos (by rw [hsum, hseg]; rfl)] at h
  obtain ⟨X, A, B, Y, c⟩ := SegCut.of_mem ht.sorted htile hmem hpfx.symm
  have hbefore := c.lt_of_mem_before ht.sorted
  have hafter := c.gt_of_mem_after ht.sorted
  set rs := splitRecs k.ekPrefix r.erUnitSize vec (recStart (k, r)) with hrs_def
  have hrs : splitRecs it.ecSeg.eePre it.ecUnitSize vec it.ecSeg.eeExt.eStart = rs := by
    rw [hseg, hu]
    rfl
  -- the parts' records: of the prefix, ending inside the segment
  have hmemrs : ∀ x ∈ rs, x.1 = ⟨it.ecPrefix, x.1.ekOffset⟩ ∧ recStart (k, r) < x.1.ekOffset ∧
      x.1.ekOffset ≤ recEnd (k, r) := by
    intro x hx
    obtain ⟨hxp, hlo, hhi⟩ := mem_splitRecs hx
    have hlt := c.start_lt
    refine ⟨by rw [hpfx, ← hxp], hlo, by omega⟩
  have hne : rs ≠ [] := by
    intro hnil
    have hzero : (vec.map SplitPart.count).sum = 0 :=
      List.sum_eq_zero (by simpa [m0VecIsEmpty] using splitRecs_eq_nil_iff.mp hnil)
    have hlt := c.start_lt
    omega
  -- each part's record is present just when it is the segment's
  have hkeys : ∀ x ∈ rs, x.1 ∈ t.contents.map Prod.fst ↔ x.1.ekOffset = it.ecSeg.eeExt.eEnd := by
    intro x hx
    obtain ⟨hxk, hlo, hhi⟩ := hmemrs x hx
    rw [hseg]
    constructor
    · intro hx'
      by_contra hoff
      -- a part ending short of the segment lies between the records before it and the segment
      have hlt : x.1 < k := by
        rw [hxk, hpfx]
        exact EmapKey.lt_iff.mpr (Or.inr ⟨rfl, lt_of_le_of_ne hhi hoff⟩)
      have hA : ∀ y ∈ X ++ A, y.1 < x.1 := fun y hy => by
        rw [hxk]
        exact c.lt_of_start_lt hlo y hy
      have hB : ∀ y ∈ (k, r) :: (B ++ Y), x.1 < y.1 := by
        intro y hy
        rcases List.mem_cons.mp hy with rfl | hy
        · exact hlt
        · exact hlt.trans (hafter y hy)
      rw [c.eq_around, ← List.append_nil (X ++ A), mem_keys_append_iff hA hB] at hx'
      simp at hx'
    · intro hoff
      have hxk' : x.1 = k := by
        rw [hxk, hpfx]
        exact congrArg _ hoff
      rw [hxk', c.eq_around]
      simp
  have hsegk : emapKeyOf it.ecSeg = k := by
    rw [hseg]
    rfl
  obtain rfl := beEmapSplit_rc ht hrs hne hkeys (by rw [hsegk, c.eq_around]; simp)
    (by rw [hseg, hpfx]; rfl) h
  -- the records before the segment are below the parts', which end by the segment's end
  have hc : t.contents = (X ++ A) ++ (emapKeyOf it.ecSeg, r) :: (B ++ Y) := by
    rw [hsegk]
    exact c.eq_around
  have hPrs : ∀ y ∈ X ++ A, ∀ x ∈ rs, y.1 < x.1 := fun y hy x hx => by
    rw [(hmemrs x hx).1]
    exact c.lt_of_start_lt (hmemrs x hx).2.1 y hy
  have hend : ∀ x ∈ rs, x.1.ekOffset ≤ it.ecSeg.eeExt.eEnd := fun x hx => by
    rw [hseg]
    exact (hmemrs x hx).2.2
  obtain ⟨hv, hc', -⟩ :=
    beEmapSplit_replace ht hrs hc (fun y hy => hsegk ▸ hbefore y hy) hPrs hend h
  refine ⟨rfl, hv, X ++ A, B ++ Y, c.eq_around, hc', ?_⟩
  -- the parts tile the segment's interval
  have hM : Tiles recStart recEnd (recStart (k, r)) (recEnd (k, r)) rs := by
    have h' := @splitRecs_tiles k.ekPrefix r.erUnitSize vec (recStart (k, r))
    rwa [hsum, Nat.add_sub_cancel' c.start_lt.le] at h'
  have hp : ∀ x ∈ rs ++ B, x.1.ekPrefix = it.ecPrefix := by
    intro x hx
    rcases List.mem_append.mp hx with hx | hx
    · rw [(hmemrs x hx).1]
    · exact c.prefix_eq x (by simp [hx])
  rw [hc']
  simpa only [List.append_assoc] using c.tiles_replace hM c.tiles_B hp

end Split

/-! ### Merge -/

section Merge

variable {bt : BtreeType EmapKey EmapRec} {t t' : EmapTree} {it it' : EmapCursor} {rc : Int}

/-- `update_next_segment` with `get_next` set: the same, without the move, on the cursor that
`be_emap_next` leaves. -/
lemma updateNextSegment_next {it₁ : EmapCursor} {delta : Nat}
    (hn : beEmapNext it t = some (it₁, 0)) :
    updateNextSegment bt it t delta true = updateNextSegment bt it₁ t delta false := by
  simp [updateNextSegment, hn]

/-- **The steps of `m0_be_emap_merge(delta)`**, on the cursor's segment `s` cut out with the
segment `n` after it: every step succeeds, and `s` and `n` become `mergeRecs delta s n`. -/
theorem m0BeEmapMerge_cut {p : Nat} {X A B Y : List (EmapKey × EmapRec)} {k : EmapKey}
    {r : EmapRec} {n : EmapKey × EmapRec} {delta : Nat} (ht : t.Valid)
    (c : SegCut p t.contents X A (n :: B) Y (k, r)) (hon : it.On k r)
    (hu : it.ecUnitSize = r.erUnitSize) (h : m0BeEmapMerge bt it t delta = some (it', t', rc)) :
    rc = 0 ∧ t'.Valid ∧ t'.contents = X ++ (A ++ mergeRecs delta (k, r) n ++ B) ++ Y := by
  have hbefore := c.lt_of_mem_before ht.sorted
  have hafter := c.gt_of_mem_after ht.sorted
  have hc : t.contents = (X ++ A) ++ (k, r) :: n :: (B ++ Y) := c.eq_around
  have hkn : k < n.1 := hafter n List.mem_cons_self
  have hnB : ∀ x ∈ B ++ Y, n.1 < x.1 := by
    have hs := ht.sorted
    rw [hc, keySorted_append, keySorted_cons, keySorted_cons] at hs
    exact hs.2.1.2.1
  have hnp : n.1.ekPrefix = k.ekPrefix := by
    rw [c.prefix_eq n (by simp), c.prefix_eq (k, r) (by simp)]
  -- the cursor is on the segment: its fields are those of `(k, r)`
  obtain ⟨seg, key, pfx, us, app⟩ := it
  obtain ⟨hkey, hseg, hpfx⟩ := hon
  dsimp only at hkey hseg hpfx hu
  subst key seg pfx us
  unfold m0BeEmapMerge at h
  split_ifs at h with hpre
  -- the delete of the segment's record
  split at h
  · simp at h
  · next it₁ t₁ rc₁ hdel =>
    obtain ⟨rfl, hv₁, hc₁, rfl⟩ := emapItPack_delete_on ht hc hbefore hafter ⟨rfl, rfl, rfl⟩ hdel
    by_cases hlt : delta < recEnd (k, r) - recStart (k, r)
    · -- something is left of the segment: its record is inserted back, shortened
      rw [if_pos ⟨rfl, hlt⟩] at h
      dsimp only at h
      split at h
      · simp at h
      · next it₂ t₂ rc₂ ins hins =>
        obtain ⟨res, hpack, hres⟩ := Option.map_eq_some_iff.mp hins
        obtain ⟨rfl, rfl⟩ := Prod.mk.inj hres
        have hk' : (⟨k.ekPrefix, k.ekOffset - delta⟩ : EmapKey) ≤ k :=
          EmapKey.le_iff.mpr (Or.inr ⟨rfl, Nat.sub_le _ _⟩)
        have hPre : ∀ x ∈ X ++ A, x.1 < ⟨k.ekPrefix, k.ekOffset - delta⟩ := by
          rw [c.prefix_eq (k, r) (by simp)]
          exact c.lt_of_start_lt (by simp only [recStart, recEnd] at hlt ⊢; omega)
        have hRest : ∀ x ∈ n :: (B ++ Y), (⟨k.ekPrefix, k.ekOffset - delta⟩ : EmapKey) < x.1 :=
          fun x hx => lt_of_le_of_lt hk' (hafter x hx)
        obtain ⟨rfl, hv₂, hc₂, hit₂⟩ :=
          emapItPack_insert_between hv₁ hc₁ (by exact hPre) (by exact hRest) hpack
        -- the cursor is put back on the shortened segment, then moved to the next one
        set x : EmapKey × EmapRec := (⟨k.ekPrefix, k.ekOffset - delta⟩, r) with hx
        have hc₂' : t₂.contents = (X ++ A) ++ x :: n :: (B ++ Y) := hc₂
        have hget : emapItGet it₂ t₂ = some (it₂.openAt x, 0) :=
          emapItGet_at hv₂ hc₂' (by rw [hit₂]; exact hPre) (by rw [hit₂]; exact le_rfl)
            (by rw [hit₂])
        have hPreN : ∀ y ∈ (X ++ A) ++ [x], y.1 ≤ x.1 := by
          intro y hy
          rcases List.mem_append.mp hy with hy | hy
          · exact (hPre y hy).le
          · rw [List.mem_singleton.mp hy]
        have hc₂'' : t₂.contents = ((X ++ A) ++ [x]) ++ n :: (B ++ Y) := by
          rw [hc₂']
          simp
        have hnext : beEmapNext (it₂.openAt x) t₂ = some ((it₂.openAt x).openAt n, 0) :=
          beEmapNext_at hv₂ hc₂'' hPreN (hRest n List.mem_cons_self) (by rw [hnp, hit₂]; rfl)
        rw [hget] at h
        dsimp only at h
        rw [if_pos rfl, updateNextSegment_next hnext] at h
        obtain ⟨hrc, hv, hc'⟩ := updateNextSegment_at hv₂ hc₂''
          (fun y hy => lt_of_le_of_lt (hPreN y hy) (hRest n List.mem_cons_self)) hnB _ h
        refine ⟨hrc, hv, ?_⟩
        rw [hc', mergeRecs, if_pos hlt]
        simp [hx, recEnd]
    · rw [if_neg fun h' => hlt h'.2] at h
      dsimp only at h
      rw [if_pos rfl, emapItGet_at hv₁ hc₁ hbefore hkn.le hnp] at h
      dsimp only at h
      rw [if_pos rfl] at h
      obtain ⟨hrc, hv, hc'⟩ :=
        updateNextSegment_at hv₁ hc₁ (fun x hx => (hbefore x hx).trans hkn) hnB _ h
      refine ⟨hrc, hv, ?_⟩
      rw [hc', mergeRecs, if_neg hlt]
      simp

/-- The records after a merge are of the prefix of the segment or of the one after it. -/
lemma ekPrefix_of_mem_mergeRecs {delta : Nat} {s n x : EmapKey × EmapRec}
    (hx : x ∈ mergeRecs delta s n) : x.1.ekPrefix = s.1.ekPrefix ∨ x.1.ekPrefix = n.1.ekPrefix := by
  unfold mergeRecs at hx
  rcases List.mem_append.mp hx with hx | hx
  · split_ifs at hx
    · exact Or.inl (by rw [List.mem_singleton.mp hx])
    · exact absurd hx List.not_mem_nil
  · exact Or.inr (by rw [List.mem_singleton.mp hx])

/-- **`m0_be_emap_merge(delta)` on a segment of a map that tiles**: every step succeeds; the
segment `s` and the segment `n` after it become `mergeRecs delta s n`, nothing else changes,
and the map still tiles. -/
theorem m0BeEmapMerge_spec {k : EmapKey} {r : EmapRec} {delta : Nat} (ht : t.Valid)
    (htile : EmapTiles it.ecPrefix t.contents) (hmem : (k, r) ∈ t.contents) (hon : it.On k r)
    (hu : it.ecUnitSize = r.erUnitSize) (h : m0BeEmapMerge bt it t delta = some (it', t', rc)) :
    rc = 0 ∧ t'.Valid ∧ ∃ Pre n Rest, t.contents = Pre ++ (k, r) :: n :: Rest ∧
      recStart n = recEnd (k, r) ∧ t'.contents = Pre ++ mergeRecs delta (k, r) n ++ Rest ∧
      EmapTiles it.ecPrefix t'.contents := by
  -- the segment is not the last and holds at least `delta` offsets (`M0_PRE`)
  have hpre : m0BeEmapExtIsLast it.ecSeg.eeExt = false ∧ delta ≤ m0ExtLength it.ecSeg.eeExt := by
    by_contra hp
    rw [m0BeEmapMerge, if_neg hp] at h
    exact absurd h (by simp)
  simp only [m0BeEmapExtIsLast, hon.2.1, emapSegOf, m0ExtLength, decide_eq_false_iff_not] at hpre
  obtain ⟨X, A, B, Y, c⟩ := SegCut.of_mem ht.sorted htile hmem hon.2.2.symm
  cases B with
  | nil => exact absurd (tiles_nil.mp c.tiles_B) hpre.1
  | cons n B =>
    obtain ⟨hn, hlt, hB⟩ := tiles_cons.mp c.tiles_B
    obtain ⟨hrc, hv, hc'⟩ := m0BeEmapMerge_cut ht c hon hu h
    have hM := mergeRecs_tiles c.start_lt hn (hn ▸ hlt) hpre.2
    -- the records written are of the prefix
    have hp : ∀ x ∈ mergeRecs delta (k, r) n ++ B, x.1.ekPrefix = it.ecPrefix := by
      intro x hx
      rcases List.mem_append.mp hx with hx | hx
      · rcases ekPrefix_of_mem_mergeRecs hx with hx | hx
        · rw [hx]
          exact c.prefix_eq (k, r) (by simp)
        · rw [hx]
          exact c.prefix_eq n (by simp)
      · exact c.prefix_eq x (by simp [hx])
    refine ⟨hrc, hv, X ++ A, n, B ++ Y, by rw [c.eq]; simp, hn, by rw [hc']; simp, ?_⟩
    rw [hc']
    exact c.tiles_replace hM hB hp

/-- **Split and merge keep the tiling**: on a map whose segments of the cursor's prefix tile
the name space, with the cursor on the segment `(k, r)`, a split that returns succeeds and
puts the records of the non-empty parts in the segment's place, a merge of `delta` that
returns succeeds, shortens the segment by `delta` (removing it when that is all of it) and
moves the start of the segment after it `delta` to the left; nothing else changes, and the
segments still tile the name space. -/
theorem m0BeEmapSplitMerge_tiles {k : EmapKey} {r : EmapRec} (ht : t.Valid)
    (htile : EmapTiles it.ecPrefix t.contents) (hmem : (k, r) ∈ t.contents) (hon : it.On k r)
    (hu : it.ecUnitSize = r.erUnitSize) :
    (∀ vec it' t' rc, m0BeEmapSplit bt it vec t = some (it', t', rc) →
      rc = 0 ∧ t'.Valid ∧ ∃ Pre Rest, t.contents = Pre ++ (k, r) :: Rest ∧
        t'.contents = Pre ++ splitRecs k.ekPrefix r.erUnitSize vec (recStart (k, r)) ++ Rest ∧
        EmapTiles it.ecPrefix t'.contents) ∧
    (∀ delta it' t' rc, m0BeEmapMerge bt it t delta = some (it', t', rc) →
      rc = 0 ∧ t'.Valid ∧ ∃ Pre n Rest, t.contents = Pre ++ (k, r) :: n :: Rest ∧
        recStart n = recEnd (k, r) ∧ t'.contents = Pre ++ mergeRecs delta (k, r) n ++ Rest ∧
        EmapTiles it.ecPrefix t'.contents) :=
  ⟨fun _ _ _ _ h => m0BeEmapSplit_spec ht htile hmem hon hu h,
    fun _ _ _ _ h => m0BeEmapMerge_spec ht htile hmem hon hu h⟩

/-- A map of two segments, `[0, 10)` and `[10, M0_BINDEX_MAX + 1)`, in nodes of `1024` bytes,
with the cursor on the first: a split into parts of lengths `3`, `0` and `7` and a merge of
`4` succeed, and the segments after each tile the name space. -/
theorem m0BeEmapSplitMerge_tiles_two :
    ∃ itS itM,
      m0BeEmapSplit ⟨ffNodeType 1024 104 16 64, fun _ => 16, fun _ => 64⟩
          ⟨emapSegOf ⟨0, 10⟩ ⟨0, 7, 0, []⟩, ⟨0, 10⟩, 0, 0, []⟩
          [⟨3, 1, []⟩, ⟨0, 9, []⟩, ⟨7, 2, []⟩]
          ⟨.leaf [(⟨0, 10⟩, ⟨0, 7, 0, []⟩), (⟨0, M0_BINDEX_MAX + 1⟩, ⟨10, 8, 0, []⟩)], 1⟩ =
        some (itS, ⟨.leaf [(⟨0, 3⟩, ⟨0, 1, 0, []⟩), (⟨0, 10⟩, ⟨3, 2, 0, []⟩),
          (⟨0, M0_BINDEX_MAX + 1⟩, ⟨10, 8, 0, []⟩)], 1⟩, 0) ∧
      m0BeEmapMerge ⟨ffNodeType 1024 104 16 64, fun _ => 16, fun _ => 64⟩
          ⟨emapSegOf ⟨0, 10⟩ ⟨0, 7, 0, []⟩, ⟨0, 10⟩, 0, 0, []⟩
          ⟨.leaf [(⟨0, 10⟩, ⟨0, 7, 0, []⟩), (⟨0, M0_BINDEX_MAX + 1⟩, ⟨10, 8, 0, []⟩)], 1⟩ 4 =
        some (itM, ⟨.leaf [(⟨0, 6⟩, ⟨0, 7, 0, []⟩),
          (⟨0, M0_BINDEX_MAX + 1⟩, ⟨6, 8, 0, []⟩)], 1⟩, 0) ∧
      EmapTiles 0 [(⟨0, 3⟩, ⟨0, 1, 0, []⟩), (⟨0, 10⟩, ⟨3, 2, 0, []⟩),
        (⟨0, M0_BINDEX_MAX + 1⟩, ⟨10, 8, 0, []⟩)] ∧
      EmapTiles 0 [(⟨0, 6⟩, ⟨0, 7, 0, []⟩), (⟨0, M0_BINDEX_MAX + 1⟩, ⟨6, 8, 0, []⟩)] := by
  have hsplit : (m0BeEmapSplit ⟨ffNodeType 1024 104 16 64, fun _ => 16, fun _ => 64⟩
      ⟨emapSegOf ⟨0, 10⟩ ⟨0, 7, 0, []⟩, ⟨0, 10⟩, 0, 0, []⟩ [⟨3, 1, []⟩, ⟨0, 9, []⟩, ⟨7, 2, []⟩]
      ⟨.leaf [(⟨0, 10⟩, ⟨0, 7, 0, []⟩), (⟨0, M0_BINDEX_MAX + 1⟩, ⟨10, 8, 0, []⟩)], 1⟩).map
      (fun r => (r.2.1, r.2.2)) =
      some (⟨.leaf [(⟨0, 3⟩, ⟨0, 1, 0, []⟩), (⟨0, 10⟩, ⟨3, 2, 0, []⟩),
        (⟨0, M0_BINDEX_MAX + 1⟩, ⟨10, 8, 0, []⟩)], 1⟩, 0) := by
    decide +kernel
  have hmerge : (m0BeEmapMerge ⟨ffNodeType 1024 104 16 64, fun _ => 16, fun _ => 64⟩
      ⟨emapSegOf ⟨0, 10⟩ ⟨0, 7, 0, []⟩, ⟨0, 10⟩, 0, 0, []⟩
      ⟨.leaf [(⟨0, 10⟩, ⟨0, 7, 0, []⟩), (⟨0, M0_BINDEX_MAX + 1⟩, ⟨10, 8, 0, []⟩)], 1⟩ 4).map
      (fun r => (r.2.1, r.2.2)) =
      some (⟨.leaf [(⟨0, 6⟩, ⟨0, 7, 0, []⟩), (⟨0, M0_BINDEX_MAX + 1⟩, ⟨6, 8, 0, []⟩)], 1⟩, 0) := by
    decide +kernel
  obtain ⟨⟨itS, tS, rcS⟩, hS, hrS⟩ := Option.map_eq_some_iff.mp hsplit
  obtain ⟨rfl, rfl⟩ := Prod.mk.inj hrS
  obtain ⟨⟨itM, tM, rcM⟩, hM, hrM⟩ := Option.map_eq_some_iff.mp hmerge
  obtain ⟨rfl, rfl⟩ := Prod.mk.inj hrM
  have ht : (⟨.leaf [(⟨0, 10⟩, ⟨0, 7, 0, []⟩), (⟨0, M0_BINDEX_MAX + 1⟩, ⟨10, 8, 0, []⟩)], 1⟩ :
      EmapTree).Valid :=
    ⟨Nat.one_pos, by simp [WF, KeySorted, InBounds, M0_BINDEX_MAX]⟩
  have htile : EmapTiles 0
      [(⟨0, 10⟩, ⟨0, 7, 0, []⟩), (⟨0, M0_BINDEX_MAX + 1⟩, ⟨10, 8, 0, []⟩)] := by
    simp [EmapTiles, emapRecs, Tiles, recStart, recEnd, M0_BINDEX_MAX]
  have hon : EmapCursor.On ⟨emapSegOf ⟨0, 10⟩ ⟨0, 7, 0, []⟩, ⟨0, 10⟩, 0, 0, []⟩ ⟨0, 10⟩
      ⟨0, 7, 0, []⟩ := ⟨rfl, rfl, rfl⟩
  obtain ⟨-, -, -, -, -, -, htS⟩ :=
    (m0BeEmapSplitMerge_tiles ht htile List.mem_cons_self hon rfl).1 _ _ _ _ hS
  obtain ⟨-, -, -, -, -, -, -, -, htM⟩ :=
    (m0BeEmapSplitMerge_tiles ht htile List.mem_cons_self hon rfl).2 _ _ _ _ hM
  exact ⟨itS, itM, hS, hM, htS, htM⟩

end Merge

end Motr
