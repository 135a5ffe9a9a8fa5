import Motr.Emap.PasteCorrect

/-!
`m0_be_emap_paste` refines `pasteRecs`.

The records of an extent map are sorted by key, so those of the cursor's prefix `p` stand
between the records of smaller prefixes and those of larger ones (`emapRecs_partition`). On a
map whose segments of `p` tile the name space, the paste loop starts in the invariant
`PasteLoopInv` with everything before the cut segments as its prefix, and its spec lemma gives
the records after the run.

* `m0BeEmapPaste_refines`: after a successful paste without callbacks, the segments of `p`
  are `pasteRecs` of those before, and those of every other prefix are unchanged.
* `m0BeEmapPaste_correct`: what that says of the map, through the lemmas of
  `Motr.Emap.PasteSpec`.
-/

namespace Motr

/-- The prefix is the first component of the key order. -/
lemma ekPrefix_monotone : Monotone EmapKey.ekPrefix := fun k k' h => by
  rcases EmapKey.le_iff.mp h with h | ⟨h, -⟩
  · exact h.le
  · exact h.le

section Around

variable {p q : Nat} {X M Y : List (EmapKey × EmapRec)}

/-- The records of a tree, cut around prefix `p`. -/
lemma emapRecs_partition {l : List (EmapKey × EmapRec)} (hl : KeySorted l) (p : Nat) :
    l.filter (fun s => s.1.ekPrefix < p) ++ emapRecs p l ++
      l.filter (fun s => p < s.1.ekPrefix) = l :=
  filter_lt_append_eq_append_gt ekPrefix_monotone p hl

lemma ekPrefix_of_mem_emapRecs {l : List (EmapKey × EmapRec)} {s : EmapKey × EmapRec}
    (hs : s ∈ emapRecs p l) : s.1.ekPrefix = p := by
  simpa using (List.mem_filter.mp hs).2

/-- The records of prefix `p` in a list cut around them. -/
lemma emapRecs_around (hX : ∀ s ∈ X, s.1.ekPrefix < p) (hM : ∀ s ∈ M, s.1.ekPrefix = p)
    (hY : ∀ s ∈ Y, p < s.1.ekPrefix) : emapRecs p (X ++ M ++ Y) = M := by
  have hX' : emapRecs p X = [] :=
    List.filter_eq_nil_iff.mpr fun s hs => by simpa using (hX s hs).ne
  have hM' : emapRecs p M = M := List.filter_eq_self.mpr fun s hs => by simpa using hM s hs
  have hY' : emapRecs p Y = [] :=
    List.filter_eq_nil_iff.mpr fun s hs => by simpa using (hY s hs).ne'
  simp only [emapRecs, List.filter_append] at hX' hM' hY' ⊢
  rw [hX', hM', hY', List.nil_append, List.append_nil]

/-- The records of another prefix do not see those of `p`. -/
lemma emapRecs_around_of_ne (hM : ∀ s ∈ M, s.1.ekPrefix = p) (hq : q ≠ p) :
    emapRecs q (X ++ M ++ Y) = emapRecs q X ++ emapRecs q Y := by
  have hM' : emapRecs q M = [] :=
    List.filter_eq_nil_iff.mpr fun s hs => by simpa [hM s hs] using hq.symm
  simp only [emapRecs, List.filter_append] at hM' ⊢
  rw [hM', List.append_nil]

end Around

section Refine

variable {bt : BtreeType EmapKey EmapRec} {ext : Ext} {val : Nat} {it it' : EmapCursor}
  {t t' : EmapTree} {b : EmapKey × EmapRec}

/-- The pieces after a cut of the segments of one prefix are of that prefix. -/
lemma PasteCut.prefix_pasted {a N es ee : Nat} {P A B C : List (EmapKey × EmapRec)}
    {b₁ bₘ : EmapKey × EmapRec} (c : PasteCut a N es ee P A B C b₁ bₘ)
    (hP : ∀ s ∈ P, s.1.ekPrefix = p) (app : List UInt8) (val u uR : Nat) :
    ∀ s ∈ A ++ (if recStart b₁ < es then [leftRec app u es b₁] else []) ++
        (⟨b₁.1.ekPrefix, ee⟩, ⟨es, val, uR, app⟩) ::
        ((if ee < recEnd bₘ then [rightRec app uR ee bₘ] else []) ++ C),
      s.1.ekPrefix = p := by
  intro s hs
  simp only [List.mem_append, List.mem_cons] at hs
  rcases hs with (hA | hL) | rfl | hR | hC
  · exact hP s (c.mem_A hA)
  · split at hL
    · rw [List.mem_singleton.mp hL]
      exact hP b₁ c.mem_b₁
    · exact absurd hL List.not_mem_nil
  · exact hP b₁ c.mem_b₁
  · split at hR
    · rw [List.mem_singleton.mp hR]
      exact hP bₘ c.mem_bₘ
    · exact absurd hR List.not_mem_nil
  · exact hP s (c.mem_C hC)

/-- **A paste refines `pasteRecs`**: on a valid tree whose segments of the cursor's prefix
tile the name space, the cursor on the segment holding `ext.e_start`, a successful paste of a
non-empty `ext` with no callbacks leaves a valid tree, whose segments of the prefix are
`pasteRecs` of those before and whose segments of any other prefix are as before. -/
theorem m0BeEmapPaste_refines (ht : t.Valid) (htile : EmapTiles it.ecPrefix t.contents)
    (hb : emapSegAt it.ecPrefix t.contents ext.eStart = some b) (hon : it.On b.1 b.2)
    (hext : ext.eStart < ext.eEnd) (hee : ext.eEnd ≤ M0_BINDEX_MAX + 1)
    (h : m0BeEmapPaste bt ext val none none none it t = some (it', t', 0)) :
    t'.Valid ∧
      emapRecs it.ecPrefix t'.contents =
        pasteRecs ext val it.ecUnitSize it.ecAppCksumBuf (emapRecs it.ecPrefix t.contents) ∧
      ∀ q ≠ it.ecPrefix, emapRecs q t'.contents = emapRecs q t.contents := by
  -- the segments of the prefix, cut around the extent
  obtain ⟨A, B, C, b₁, bₘ, c⟩ := PasteCut.of_tiles htile (Nat.zero_le _) hext hee
  obtain rfl : b = b₁ := (Option.some.inj (c.pieceAt_start.symm.trans hb)).symm
  have hbp : b.1.ekPrefix = it.ecPrefix := hon.2.2.symm
  have hM : ∀ s ∈ emapRecs it.ecPrefix t.contents, s.1.ekPrefix = it.ecPrefix :=
    fun s hs => ekPrefix_of_mem_emapRecs hs
  have hmem : ∀ s ∈ B ++ [bₘ], s ∈ emapRecs it.ecPrefix t.contents := by
    intro s hs
    rw [c.eq]
    simp only [List.mem_append, List.mem_singleton] at hs
    simp only [List.mem_append, List.mem_cons]
    tauto
  -- the records of smaller and larger prefixes
  have hpart := emapRecs_partition ht.sorted it.ecPrefix
  set X := t.contents.filter fun s => s.1.ekPrefix < it.ecPrefix
  set Y := t.contents.filter fun s => it.ecPrefix < s.1.ekPrefix
  have hX : ∀ s ∈ X, s.1.ekPrefix < it.ecPrefix := fun s hs => by
    simpa using (List.mem_filter.mp hs).2
  have hY : ∀ s ∈ Y, it.ecPrefix < s.1.ekPrefix := fun s hs => by
    simpa using (List.mem_filter.mp hs).2
  -- the loop starts in its invariant, with `X ++ A` before the cut segments
  have inv : PasteLoopInv ext.eStart ext.eEnd it t ext.eStart (0, []) (0, []) (X ++ A) B C Y b bₘ :=
    { valid := ht
      contents := by
        calc t.contents = X ++ emapRecs it.ecPrefix t.contents ++ Y := hpart.symm
          _ = _ := by rw [c.eq]; simp only [List.append_assoc]
      head := c.head
      on := hon
      tiles := c.tiles_B
      start_lt := c.start_lt
      le_end := c.le_end
      end_le := (c.tiles.mem c.mem_bₘ).2.2
      prefix_eq := fun s hs => by rw [hM s (hmem s hs), hbp]
      pre_le := by
        intro s hs
        rcases List.mem_append.mp hs with hs | hs
        · exact EmapKey.le_iff.mpr (Or.inl (hbp ▸ hX s hs))
        · exact EmapKey.le_iff.mpr
            (Or.inr ⟨hbp ▸ hM s (c.mem_A hs), (c.tiles_A.mem hs).2.2⟩)
      start_le := c.start_le
      cur_lt := c.lt_end
      cur_lt_ee := hext
      es_le := le_rfl
      left_part := fun _ => ⟨rfl, rfl⟩
      right_nil := rfl }
  have hin : m0ExtIsIn it.ecSeg.eeExt ext.eStart = true := by
    simpa [m0ExtIsIn, hon.2.1, emapSegOf, recStart, recEnd] using And.intro c.start_le c.lt_end
  rw [m0BeEmapPaste, if_pos hin] at h
  obtain ⟨hv, hc⟩ := m0BeEmapPasteLoop_spec inv h
  -- the records after the run: `X`, the pasted segments of the prefix, `Y`
  have hnew : t'.contents = X ++ pasteRecs ext val it.ecUnitSize it.ecAppCksumBuf
      (emapRecs it.ecPrefix t.contents) ++ Y := by
    rw [hc, pasteRecs_eq c]
    simp only [List.append_assoc, List.cons_append]
  have hM' : ∀ s ∈ pasteRecs ext val it.ecUnitSize it.ecAppCksumBuf
      (emapRecs it.ecPrefix t.contents), s.1.ekPrefix = it.ecPrefix := by
    rw [pasteRecs_eq c]
    exact c.prefix_pasted hM _ _ _ _
  refine ⟨hv, by rw [hnew, emapRecs_around hX hM' hY], fun q hq => ?_⟩
  rw [hnew, emapRecs_around_of_ne hM' hq]
  conv_rhs => rw [← hpart]
  rw [emapRecs_around_of_ne hM hq]

/-- **What a paste does to the segments of prefix `p`**, from the records `l` to `l'`: a paste
of `ext` with value `val`, from a cursor of unit size `u` and application checksums `app` on
the segment `b` that held `ext.e_start`. The segments of `p` tile the name space again; every
offset of `ext` is in one segment, `ext` itself with value `val`; every other offset is in
what is left of its old segment, with the old value; the parts left and right of `ext` keep
the checksums of their unit starts; the segments of the other prefixes are as they were. -/
structure PasteOutcome (p : Nat) (ext : Ext) (val u : Nat) (app : List UInt8)
    (b : EmapKey × EmapRec) (l l' : List (EmapKey × EmapRec)) : Prop where
  tiles : EmapTiles p l'
  inside : ∃ uE, ∀ x, ext.eStart ≤ x → x < ext.eEnd →
    emapSegAt p l' x = some (⟨p, ext.eEnd⟩, ⟨ext.eStart, val, uE, app⟩)
  outside : ∀ x ≤ M0_BINDEX_MAX, x < ext.eStart ∨ ext.eEnd ≤ x →
    ∃ s s', emapSegAt p l x = some s ∧ emapSegAt p l' x = some s' ∧
      s'.2.erValue = s.2.erValue ∧
      recStart s' = (if x < ext.eStart then recStart s else max (recStart s) ext.eEnd) ∧
      recEnd s' = (if x < ext.eStart then min (recEnd s) ext.eStart else recEnd s)
  left : recStart b < ext.eStart →
    emapSegAt p l' (ext.eStart - 1) = some (leftRec app u ext.eStart b)
  right : ∀ bₘ, emapSegAt p l (ext.eEnd - 1) = some bₘ → ext.eEnd < recEnd bₘ →
    emapSegAt p l' ext.eEnd =
      some (rightRec app (if b.1 = bₘ.1 then u else bₘ.2.erUnitSize) ext.eEnd bₘ)
  others : ∀ q ≠ p, emapRecs q l' = emapRecs q l

theorem m0BeEmapPaste_correct (ht : t.Valid) (htile : EmapTiles it.ecPrefix t.contents)
    (hb : emapSegAt it.ecPrefix t.contents ext.eStart = some b) (hon : it.On b.1 b.2)
    (hext : ext.eStart < ext.eEnd) (hee : ext.eEnd ≤ M0_BINDEX_MAX + 1)
    (h : m0BeEmapPaste bt ext val none none none it t = some (it', t', 0)) :
    t'.Valid ∧ PasteOutcome it.ecPrefix ext val it.ecUnitSize it.ecAppCksumBuf b
      t.contents t'.contents := by
  obtain ⟨hv, hrecs, hother⟩ := m0BeEmapPaste_refines ht htile hb hon hext hee h
  have hp : ∀ s ∈ emapRecs it.ecPrefix t.contents, s.1.ekPrefix = it.ecPrefix :=
    fun s hs => ekPrefix_of_mem_emapRecs hs
  refine ⟨hv, ⟨?_, ?_, ?_, ?_, ?_, hother⟩⟩
  · rw [EmapTiles, hrecs]
    exact pasteRecs_tiles htile (Nat.zero_le _) hext hee
  · simp only [emapSegAt, hrecs]
    exact pieceAt_pasteRecs_inside htile (Nat.zero_le _) hext hee hp
  · intro x hx hout
    simp only [emapSegAt, hrecs]
    obtain ⟨s, s', hs, hs', -, hval, hstart, hend⟩ :=
      pieceAt_pasteRecs_outside htile (Nat.zero_le _) hext hee (Nat.zero_le x)
        (Nat.lt_succ_of_le hx) hout
    exact ⟨s, s', hs, hs', hval, hstart, hend⟩
  · intro hl
    simp only [emapSegAt, hrecs]
    exact pieceAt_pasteRecs_left htile (Nat.zero_le _) hext hee hb hl
  · intro bₘ hbₘ hr
    simp only [emapSegAt, hrecs]
    exact pieceAt_pasteRecs_right htile (Nat.zero_le _) hext hee hb hbₘ hr

/-- A paste of `[10, 20)` with value `5` into the map of one segment covering the name space,
in nodes of `1024` bytes: the segment is cut in three. -/
theorem m0BeEmapPaste_correct_ff :
    ∃ it', m0BeEmapPaste ⟨ffNodeType 1024 104 16 64, fun _ => 16, fun _ => 64⟩ ⟨10, 20⟩ 5
        none none none
        ⟨emapSegOf ⟨0, M0_BINDEX_MAX + 1⟩ ⟨0, 0, 0, []⟩, ⟨0, M0_BINDEX_MAX + 1⟩, 0, 0, []⟩
        ⟨.leaf [(⟨0, M0_BINDEX_MAX + 1⟩, ⟨0, 0, 0, []⟩)], 1⟩ =
      some (it', ⟨.leaf [(⟨0, 10⟩, ⟨0, 0, 0, []⟩), (⟨0, 20⟩, ⟨10, 5, 0, []⟩),
        (⟨0, M0_BINDEX_MAX + 1⟩, ⟨20, 0, 0, []⟩)], 1⟩, 0) ∧
      (⟨.leaf [(⟨0, 10⟩, ⟨0, 0, 0, []⟩), (⟨0, 20⟩, ⟨10, 5, 0, []⟩),
        (⟨0, M0_BINDEX_MAX + 1⟩, ⟨20, 0, 0, []⟩)], 1⟩ : EmapTree).Valid ∧
      PasteOutcome 0 ⟨10, 20⟩ 5 0 [] (⟨0, M0_BINDEX_MAX + 1⟩, ⟨0, 0, 0, []⟩)
        [(⟨0, M0_BINDEX_MAX + 1⟩, ⟨0, 0, 0, []⟩)]
        [(⟨0, 10⟩, ⟨0, 0, 0, []⟩), (⟨0, 20⟩, ⟨10, 5, 0, []⟩),
          (⟨0, M0_BINDEX_MAX + 1⟩, ⟨20, 0, 0, []⟩)] := by
  have hrun : (m0BeEmapPaste ⟨ffNodeType 1024 104 16 64, fun _ => 16, fun _ => 64⟩ ⟨10, 20⟩ 5
        none none none
        ⟨emapSegOf ⟨0, M0_BINDEX_MAX + 1⟩ ⟨0, 0, 0, []⟩, ⟨0, M0_BINDEX_MAX + 1⟩, 0, 0, []⟩
        ⟨.leaf [(⟨0, M0_BINDEX_MAX + 1⟩, ⟨0, 0, 0, []⟩)], 1⟩).map (fun r => (r.2.1, r.2.2)) =
      some (⟨.leaf [(⟨0, 10⟩, ⟨0, 0, 0, []⟩), (⟨0, 20⟩, ⟨10, 5, 0, []⟩),
        (⟨0, M0_BINDEX_MAX + 1⟩, ⟨20, 0, 0, []⟩)], 1⟩, 0) := by
    decide +kernel
  obtain ⟨⟨it', t', rc⟩, h, hr⟩ := Option.map_eq_some_iff.mp hrun
  obtain ⟨rfl, rfl⟩ := Prod.mk.inj hr
  have ht : (⟨.leaf [(⟨0, M0_BINDEX_MAX + 1⟩, ⟨0, 0, 0, []⟩)], 1⟩ : EmapTree).Valid :=
    ⟨Nat.one_pos, by simp [WF, KeySorted, InBounds]⟩
  have htile : EmapTiles 0 [(⟨0, M0_BINDEX_MAX + 1⟩, ⟨0, 0, 0, []⟩)] := by
    simp [EmapTiles, emapRecs, Tiles, recStart, recEnd, M0_BINDEX_MAX]
  exact ⟨it', h, m0BeEmapPaste_correct ht htile rfl ⟨rfl, rfl, rfl⟩ (by decide)
    (by simp [M0_BINDEX_MAX]) h⟩

end Refine

end Motr
