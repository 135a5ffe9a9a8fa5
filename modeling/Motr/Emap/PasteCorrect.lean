import Motr.Emap.Paste
import Motr.Emap.PasteSpec

/-!
`m0_be_emap_paste` without callbacks, on a map whose segments tile the name space, does what
`pasteRecs` says.

The proof follows the layers of the code.
* `be_emap_split` writes one record for each non-empty part (`splitRecs`); the records take
  the place of the segment's own (`beEmapSplit_replace`): every part is inserted but one
  that ends where the segment does, which updates the segment's record, and the record is
  deleted when no part does.
* `pasteParts_spec`: the parts of a segment in one iteration of the paste, the checksums of
  each being those of the unit starts in it (`leftCksum_eq`, `rightCksum_eq`).
* The loop (`m0BeEmapPasteLoop_spec`), by induction on the segments it walks before the one
  holding `ext.e_end - 1`: each is deleted, but for the part of the first one left of `ext`
  (`pasteLoop_next`), and the last is replaced by `ext` and its part right of `ext`
  (`pasteLoop_last`).
-/

namespace Motr

/-! ### `be_emap_split` -/

/-- The records the loop of `be_emap_split` writes for the parts `vec` from `scan` on, of
prefix `pre` and unit size `u`: one for each non-empty part, which starts where the part
before it ended. -/
def splitRecs (pre u : Nat) : List SplitPart → Nat → List (EmapKey × EmapRec)
  | [], _ => []
  | part :: vec, scan =>
    if part.count = 0 then splitRecs pre u vec scan
    else (⟨pre, scan + part.count⟩, ⟨scan, part.index, u, part.cksum⟩) ::
      splitRecs pre u vec (scan + part.count)

/-- The cursor after the loop of `be_emap_split`: on the last record written, if any. -/
def splitCursor (it : EmapCursor) : Option (EmapKey × EmapRec) → EmapCursor
  | none => it
  | some x => { it with ecSeg := emapSegOf x.1 x.2, ecKey := x.1 }

/-- Where the parts written end: the end of the last one, `e` when none is written. -/
def splitEnd (rs : List (EmapKey × EmapRec)) (e : Nat) : Nat :=
  (rs.getLast?.map fun r => r.1.ekOffset).getD e

section SplitRecs

variable {pre u : Nat}

lemma splitRecs_eq_nil_iff {vec : List SplitPart} :
    ∀ {scan : Nat}, splitRecs pre u vec scan = [] ↔ m0VecIsEmpty vec = true := by
  induction vec with
  | nil => simp [splitRecs, m0VecIsEmpty]
  | cons part vec ih =>
    intro scan
    by_cases h : part.count = 0
    · rw [splitRecs, if_pos h, ih]
      simp [m0VecIsEmpty, h]
    · simp [splitRecs, m0VecIsEmpty, h]

/-- Every record written is of prefix `pre` and ends past `scan`, by the end of the parts. -/
lemma mem_splitRecs {vec : List SplitPart} : ∀ {scan : Nat} {r : EmapKey × EmapRec},
    r ∈ splitRecs pre u vec scan → r.1.ekPrefix = pre ∧ scan < r.1.ekOffset ∧
      r.1.ekOffset ≤ scan + (vec.map SplitPart.count).sum := by
  induction vec with
  | nil => simp [splitRecs]
  | cons part vec ih =>
    intro scan r hr
    rw [List.map_cons, List.sum_cons]
    by_cases h : part.count = 0
    · rw [splitRecs, if_pos h] at hr
      have := ih hr
      omega
    · rw [splitRecs, if_neg h] at hr
      rcases List.mem_cons.mp hr with rfl | hr
      · exact ⟨rfl, by dsimp only; omega, by simp⟩
      · have := ih hr
        omega

lemma keySorted_splitRecs {vec : List SplitPart} :
    ∀ {scan : Nat}, KeySorted (splitRecs pre u vec scan) := by
  induction vec with
  | nil => simp [splitRecs]
  | cons part vec ih =>
    intro scan
    by_cases h : part.count = 0
    · rw [splitRecs, if_pos h]
      exact ih
    · rw [splitRecs, if_neg h, keySorted_cons]
      refine ⟨fun r hr => ?_, ih⟩
      obtain ⟨hp, hlt, -⟩ := mem_splitRecs hr
      exact EmapKey.lt_iff.mpr (Or.inr ⟨hp.symm, hlt⟩)

end SplitRecs

/-- The cursor on the last record written keeps its walk, and is at the end of the parts. -/
lemma splitCursor_getLast {it : EmapCursor} {rs : List (EmapKey × EmapRec)}
    (hpre : ∀ r ∈ rs, r.1.ekPrefix = it.ecSeg.eePre) :
    (splitCursor it rs.getLast?).ecSeg.eePre = it.ecSeg.eePre ∧
      (splitCursor it rs.getLast?).ecSeg.eeExt.eEnd = splitEnd rs it.ecSeg.eeExt.eEnd ∧
      (rs ≠ [] → (splitCursor it rs.getLast?).ecKey =
        ⟨it.ecSeg.eePre, splitEnd rs it.ecSeg.eeExt.eEnd⟩) ∧
      (splitCursor it rs.getLast?).ecPrefix = it.ecPrefix ∧
      (splitCursor it rs.getLast?).ecUnitSize = it.ecUnitSize ∧
      (splitCursor it rs.getLast?).ecAppCksumBuf = it.ecAppCksumBuf := by
  cases hl : rs.getLast? with
  | none =>
    have hrs : rs = [] := List.getLast?_eq_none_iff.mp hl
    simp [splitCursor, splitEnd, hrs]
  | some x =>
    have hx := hpre x (List.mem_of_getLast? hl)
    simp [splitCursor, splitEnd, hl, emapSegOf, ← hx]

section Split

variable {bt : BtreeType EmapKey EmapRec} {segEnd : Nat}

/-- An update or an insert of the cursor's segment puts its record. -/
lemma emapItPack_put {c : Prop} [Decidable c] {it it' : EmapCursor} {t t' : EmapTree}
    (ht : t.Valid)
    (h : emapItPack (if c then beEmapUpdateWrapper bt else beEmapInsertWrapper bt) it t =
      some (it', t', 0)) :
    t'.Valid ∧
      t'.contents = kvPut t.contents (emapKeyOf it.ecSeg) (emapRecOf it.ecSeg it.ecUnitSize) ∧
      it' = { it with ecKey := emapKeyOf it.ecSeg } := by
  split at h
  · exact (emapItPack_update ht h).2
  · exact (emapItPack_insert ht h).2

/-- **The loop of `be_emap_split`** puts the records of the non-empty parts, and leaves the
cursor on the last one. -/
theorem beEmapSplitLoop_spec {vec : List SplitPart} :
    ∀ {scan : Nat} {it it' : EmapCursor} {t t' : EmapTree}, t.Valid →
      beEmapSplitLoop bt segEnd vec scan it t = some (it', t', 0) →
      t'.Valid ∧
        t'.contents = kvPuts t.contents (splitRecs it.ecSeg.eePre it.ecUnitSize vec scan) ∧
        it' = splitCursor it (splitRecs it.ecSeg.eePre it.ecUnitSize vec scan).getLast? := by
  induction vec with
  | nil =>
    intro scan it it' t t' ht h
    simp only [beEmapSplitLoop, Option.some.injEq, Prod.mk.injEq] at h
    obtain ⟨rfl, rfl, -⟩ := h
    exact ⟨ht, rfl, rfl⟩
  | cons part vec ih =>
    intro scan it it' t t' ht h
    by_cases hc : part.count = 0
    · rw [beEmapSplitLoop, if_pos hc] at h
      rw [splitRecs, if_pos hc]
      exact ih ht h
    · rw [beEmapSplitLoop, if_neg hc] at h
      rw [splitRecs, if_neg hc]
      simp only at h
      split at h
      · simp at h
      · next it₁ t₁ rc₁ hpack =>
        split_ifs at h with hrc
        · subst hrc
          obtain ⟨hv₁, hc₁, rfl⟩ := emapItPack_put ht hpack
          obtain ⟨hv, hcon, rfl⟩ := ih hv₁ h
          refine ⟨hv, hcon.trans (by rw [hc₁]; rfl), ?_⟩
          cases hl :
              (splitRecs it.ecSeg.eePre it.ecUnitSize vec (scan + part.count)).getLast? with
          | none => simp [List.getLast?_cons, hl, splitCursor, emapSegOf, emapKeyOf]
          | some x => simp [List.getLast?_cons, hl, splitCursor]
        · simp only [Option.some.injEq, Prod.mk.injEq] at h
          exact absurd h.2.2 hrc

/-- The get that ends `be_emap_split` opens the cursor on the first record from its key. -/
lemma splitGet_spec {itG it' : EmapCursor} {t₂ t' : EmapTree} (ht : t₂.Valid)
    (h : (emapItGet itG t₂).map (fun r => (r.1, t₂, r.2)) = some (it', t', 0)) :
    t' = t₂ ∧ ∃ k r, t₂.contents.find? (fun s => decide (itG.ecKey ≤ s.1)) = some (k, r) ∧
      it'.On k r ∧ it'.ecUnitSize = r.erUnitSize ∧ it'.ecPrefix = itG.ecPrefix ∧
      it'.ecAppCksumBuf = itG.ecAppCksumBuf := by
  rw [emapItGet_eq ht, Option.map_some, Option.some.injEq, Prod.mk.injEq, Prod.mk.injEq] at h
  obtain ⟨hit, rfl, hrc⟩ := h
  obtain ⟨k, r, hf, hon, hu, hp, ha⟩ := emapItOpen_ok (Prod.ext hit hrc)
  exact ⟨rfl, k, r, hf, hon, hu, hp, ha⟩

/-- **`be_emap_split`** puts the records of the non-empty parts and, when none ends where the
segment does, deletes the segment's record; then it opens the cursor on the first record
from where the parts end. -/
theorem beEmapSplit_spec {vec : List SplitPart} {scan : Nat} {it it' : EmapCursor}
    {t t' : EmapTree} {rs : List (EmapKey × EmapRec)} (ht : t.Valid)
    (hrs : splitRecs it.ecSeg.eePre it.ecUnitSize vec scan = rs)
    (h : beEmapSplit bt it vec scan t = some (it', t', 0)) :
    t'.Valid ∧
      t'.contents = (if rs = [] ∨ splitEnd rs it.ecSeg.eeExt.eEnd ≠ it.ecSeg.eeExt.eEnd then
        kvErase (kvPuts t.contents rs) (emapKeyOf it.ecSeg) else kvPuts t.contents rs) ∧
      ∃ k r, t'.contents.find? (fun s =>
          decide (⟨it.ecSeg.eePre, splitEnd rs it.ecSeg.eeExt.eEnd⟩ ≤ s.1)) = some (k, r) ∧
        it'.On k r ∧ it'.ecUnitSize = r.erUnitSize ∧ it'.ecPrefix = it.ecPrefix ∧
        it'.ecAppCksumBuf = it.ecAppCksumBuf := by
  unfold beEmapSplit at h
  simp only at h
  split at h
  · simp at h
  · next itL tL rc hloop =>
    -- a write that fails is returned as it is: every write succeeded
    have hrc : rc = 0 := by
      by_contra hrc
      simp [hrc] at h
    subst hrc
    obtain ⟨hvL, hcL, rfl⟩ := beEmapSplitLoop_spec ht hloop
    rw [hrs] at hcL h
    have hpre : ∀ r ∈ rs, r.1.ekPrefix = it.ecSeg.eePre := fun r hr =>
      (mem_splitRecs (hrs ▸ hr)).1
    obtain ⟨hLpre, hLend, hLkey, hLpfx, -, hLapp⟩ := splitCursor_getLast hpre
    have hempty : m0VecIsEmpty vec = true ↔ rs = [] := by
      rw [← hrs]
      exact splitRecs_eq_nil_iff.symm
    have hcond : (m0VecIsEmpty vec = true ∨
        (splitCursor it rs.getLast?).ecSeg.eeExt.eEnd ≠ it.ecSeg.eeExt.eEnd) ↔
        (rs = [] ∨ splitEnd rs it.ecSeg.eeExt.eEnd ≠ it.ecSeg.eeExt.eEnd) := by
      rw [hempty, hLend]
    by_cases hdel : rs = [] ∨ splitEnd rs it.ecSeg.eeExt.eEnd ≠ it.ecSeg.eeExt.eEnd
    · -- the segment's record deleted, the cursor's key moved to where the parts end
      rw [if_pos ⟨rfl, hcond.mpr hdel⟩] at h
      split at h
      · simp at h
      · next itD tD rcD hD =>
        obtain ⟨⟨itD', tD', rcD'⟩, hpackD, hfeq⟩ := Option.map_eq_some_iff.mp hD
        simp only [Prod.mk.injEq] at hfeq
        obtain ⟨rfl, rfl, rfl⟩ := hfeq
        split_ifs at h with hrcD
        · subst hrcD
          obtain ⟨-, hvD, hcD, rfl⟩ := emapItPack_delete hvL hpackD
          obtain ⟨rfl, k, r, hf, hon, hu, hp, ha⟩ := splitGet_spec hvD h
          refine ⟨hvD, ?_, k, r, ?_, hon, hu, hp.trans hLpfx, ha.trans hLapp⟩
          · rw [if_pos hdel, hcD, hcL]
            simp [emapKeyOf, hLpre]
          · simpa [emapKeyOf, hLpre, hLend] using hf
        · simp only [Option.some.injEq, Prod.mk.injEq] at h
          exact absurd h.2.2 hrcD
    · -- the last part ends where the segment does: its record was updated
      rw [if_neg fun h' => hdel (hcond.mp h'.2)] at h
      simp only [if_true] at h
      have hne : rs ≠ [] := fun h' => hdel (Or.inl h')
      obtain ⟨rfl, k, r, hf, hon, hu, hp, ha⟩ := splitGet_spec hvL h
      refine ⟨hvL, by rw [if_neg hdel, hcL], k, r, ?_, hon, hu, hp.trans hLpfx,
        ha.trans hLapp⟩
      simpa [hLkey hne] using hf

/-- **`be_emap_split` on a segment's record**: the records of the non-empty parts, which end
by the segment's end, take the place of the segment's record. -/
theorem beEmapSplit_replace {vec : List SplitPart} {scan : Nat} {it it' : EmapCursor}
    {t t' : EmapTree} {rs Pre Rest : List (EmapKey × EmapRec)} {r₀ : EmapRec} (ht : t.Valid)
    (hrs : splitRecs it.ecSeg.eePre it.ecUnitSize vec scan = rs)
    (hc : t.contents = Pre ++ (emapKeyOf it.ecSeg, r₀) :: Rest)
    (hPre : ∀ s ∈ Pre, s.1 < emapKeyOf it.ecSeg) (hPrs : ∀ s ∈ Pre, ∀ x ∈ rs, s.1 < x.1)
    (hend : ∀ x ∈ rs, x.1.ekOffset ≤ it.ecSeg.eeExt.eEnd)
    (h : beEmapSplit bt it vec scan t = some (it', t', 0)) :
    t'.Valid ∧ t'.contents = Pre ++ rs ++ Rest ∧
      ∃ k r, (Pre ++ rs ++ Rest).find? (fun s =>
          decide (⟨it.ecSeg.eePre, splitEnd rs it.ecSeg.eeExt.eEnd⟩ ≤ s.1)) = some (k, r) ∧
        it'.On k r ∧ it'.ecUnitSize = r.erUnitSize ∧ it'.ecPrefix = it.ecPrefix ∧
        it'.ecAppCksumBuf = it.ecAppCksumBuf := by
  obtain ⟨hv, hcon, hfind⟩ := beEmapSplit_spec ht hrs h
  have hsorted : KeySorted rs := hrs ▸ keySorted_splitRecs
  have hpre : ∀ x ∈ rs, x.1.ekPrefix = it.ecSeg.eePre := fun x hx =>
    (mem_splitRecs (hrs ▸ hx)).1
  have hRest : ∀ s ∈ Rest, emapKeyOf it.ecSeg < s.1 := by
    have hs := ht.sorted
    rw [hc, keySorted_append, keySorted_cons] at hs
    exact hs.2.1.1
  have heq : t'.contents = Pre ++ rs ++ Rest := by
    rw [hcon, hc]
    rcases rs.eq_nil_or_concat' with rfl | ⟨rs₀, ⟨⟨p, o⟩, v⟩, rfl⟩
    · rw [if_pos (Or.inl rfl), kvPuts, List.foldl_nil, kvErase_between hPre hRest]
      simp
    · have hp : p = it.ecSeg.eePre := hpre (⟨p, o⟩, v) (by simp)
      have hsplitEnd : splitEnd (rs₀ ++ [(⟨p, o⟩, v)]) it.ecSeg.eeExt.eEnd = o := by
        simp [splitEnd]
      subst hp
      by_cases ho : o = it.ecSeg.eeExt.eEnd
      · -- the last part ends where the segment does: it replaces the record
        subst ho
        rw [if_neg (by simp [hsplitEnd])]
        exact kvPuts_replace_last hsorted hPre
          (fun r hr s hs => hPrs r hr s (List.mem_append_left _ hs)) hRest
      · -- every part ends before the segment does: the record is deleted after them
        rw [if_pos (Or.inr (by rw [hsplitEnd]; exact ho))]
        have hlast : (⟨it.ecSeg.eePre, o⟩ : EmapKey) < emapKeyOf it.ecSeg := by
          have ho' : o ≤ it.ecSeg.eeExt.eEnd := hend (⟨it.ecSeg.eePre, o⟩, v) (by simp)
          exact EmapKey.lt_iff.mpr (Or.inr ⟨rfl, lt_of_le_of_ne ho' ho⟩)
        refine kvPuts_erase_between hsorted hPre hPrs hRest fun s hs => ?_
        rcases List.mem_append.mp hs with hs | hs
        · exact lt_trans ((keySorted_append.mp hsorted).2.2 s hs _ List.mem_cons_self) hlast
        · rw [List.mem_singleton.mp hs]
          exact hlast
  exact ⟨hv, heq, heq ▸ hfind⟩

end Split

/-! ### The parts of a segment -/

section Parts

variable {it : EmapCursor} {b : EmapKey × EmapRec} {u cus x : Nat}

/-- The checksum bytes of one unit start of the cursor's segment, as the paste computes them:
the unit size and they are not zero. -/
lemma pasteCksumUnitSize_spec (hseg : it.ecSeg = emapSegOf b.1 b.2)
    (hLH : recStart b < recEnd b) (h : pasteCksumUnitSize it = some cus) :
    0 < it.ecUnitSize ∧ 0 < cus ∧
      cus = b.2.erCksum.length / (unitStarts it.ecUnitSize (recStart b) (recEnd b)).length := by
  unfold pasteCksumUnitSize at h
  rw [hseg] at h
  by_cases hu : it.ecUnitSize = 0
  · simp [m0ExtGetNumUnitStart, hu] at h
  · have hlen : 0 < m0ExtLength (emapSegOf b.1 b.2).eeExt := by
      simp only [m0ExtLength, emapSegOf]
      exact Nat.sub_pos_of_lt hLH
    have hend : (emapSegOf b.1 b.2).eeExt.eStart + m0ExtLength (emapSegOf b.1 b.2).eeExt =
        recEnd b := Nat.add_sub_cancel' hLH.le
    rw [m0ExtGetNumUnitStart_eq (Nat.pos_of_ne_zero hu) hlen, hend] at h
    simp only at h
    split_ifs at h with h0 h1
    rw [Option.some.injEq] at h
    subst h
    exact ⟨Nat.pos_of_ne_zero hu, Nat.pos_of_ne_zero h1, rfl⟩

/-- **The checksums of the part left of the clip** are those of its unit starts. -/
lemma leftCksum_eq (hu : 0 < u) (hcus : 0 < cus)
    (hc : cus = b.2.erCksum.length / (unitStarts u (recStart b) (recEnd b)).length)
    (hL : recStart b < x) (hx : x ≤ recEnd b) :
    (m0ExtGetCksumNob (recStart b) (x - recStart b) u cus).map (bufSlice b.2.erCksum 0) =
      some (segCksums b u (recStart b) x) := by
  rw [m0ExtGetCksumNob_eq hu hcus (Nat.sub_pos_of_lt hL), Option.map_some,
    Nat.add_sub_cancel' hL.le, segCksums, ← hc, unitSlots_eq _ _ _ le_rfl hL.le hx]
  simp [bufSlice, unitStarts]

/-- **The checksums of the part right of the clip** are those of its unit starts: from the
slot of the first unit start past the clip, which `m0_round_up` finds without wrapping when
there is one below the segment's end. -/
lemma rightCksum_eq {nob off : Nat} (hu : 0 < u) (hcus : 0 < cus)
    (hc : cus = b.2.erCksum.length / (unitStarts u (recStart b) (recEnd b)).length)
    (hL : recStart b ≤ x) (hx : x < recEnd b) (hH : recEnd b < 2 ^ 64)
    (hnob : m0ExtGetCksumNob x (recEnd b - x) u cus = some nob)
    (hoff : ((m0RoundUp x u).bind fun r => m0ExtGetCksumAddr r (recStart b) u cus) = some off) :
    bufSlice b.2.erCksum off nob = segCksums b u x (recEnd b) := by
  rw [m0ExtGetCksumNob_eq hu hcus (Nat.sub_pos_of_lt hx), Nat.add_sub_cancel' hx.le,
    Option.some.injEq] at hnob
  subst hnob
  rw [segCksums, ← hc, unitSlots_eq _ _ _ hL hx.le le_rfl]
  rcases Nat.eq_zero_or_pos (unitStarts u x (recEnd b)).length with h0 | hpos
  · simp [bufSlice, h0]
  · obtain ⟨y, hy⟩ := List.exists_mem_of_length_pos hpos
    have hpo2 : m0IsPo2 u = true := by
      by_contra hn
      simp [m0RoundUp, hn] at hoff
    have hround : (x + u - 1) / u * u < 2 ^ 64 :=
      lt_of_le_of_lt (roundUp_le_of_mem hu hy) (lt_trans (mem_unitStarts.mp hy).2.1 hH)
    rw [m0ExtGetCksumAddr_roundUp hpo2 hu hcus hL hround, Option.some.injEq] at hoff
    rw [← hoff]
    rfl

/-- `cut_left` without a callback keeps the cursor; a non-empty part takes the segment's value
and, when checksums are computed, the first bytes of its checksums. -/
lemma pasteCutLeft_none {clip : Ext} {v n : Nat} {c : Bool} {prev l : Nat × List UInt8}
    {it₁ : EmapCursor} (h : pasteCutLeft none it clip v n cus c prev = some (it₁, l)) :
    it₁ = it ∧ (n = 0 → l = prev) ∧
      (n ≠ 0 → l.1 = it.ecSeg.eeVal ∧
        (c = true → (m0ExtGetCksumNob it.ecSeg.eeExt.eStart n it.ecUnitSize cus).map
          (bufSlice it.ecSeg.eeCksumBuf 0) = some l.2) ∧
        (c = false → l.2 = prev.2)) := by
  unfold pasteCutLeft at h
  simp only at h
  split_ifs at h with hn hc
  · simp only [Option.some.injEq, Prod.mk.injEq] at h
    obtain ⟨rfl, rfl⟩ := h
    exact ⟨rfl, fun _ => rfl, fun hn' => absurd hn hn'⟩
  · obtain ⟨nob, hnob, hl⟩ := Option.map_eq_some_iff.mp h
    simp only [Prod.mk.injEq] at hl
    obtain ⟨rfl, rfl⟩ := hl
    refine ⟨rfl, fun h' => absurd h' hn, fun _ => ⟨rfl, fun _ => ?_, fun h' => ?_⟩⟩
    · rw [hnob, Option.map_some]
    · simp [hc] at h'
  · simp only [Option.some.injEq, Prod.mk.injEq] at h
    obtain ⟨rfl, rfl⟩ := h
    exact ⟨rfl, fun h' => absurd h' hn, fun _ => ⟨rfl, fun h' => absurd h' hc, fun _ => rfl⟩⟩

/-- `cut_right` without a callback keeps the cursor; a non-empty part takes the segment's
value and, when checksums are computed, the bytes from the slot of the clip's end rounded up
to a unit. -/
lemma pasteCutRight_none {clip : Ext} {v n : Nat} {c : Bool} {prev r : Nat × List UInt8}
    {it₁ : EmapCursor} (h : pasteCutRight none it clip v n cus c prev = some (it₁, r)) :
    it₁ = it ∧ (n = 0 → r = prev) ∧
      (n ≠ 0 → r.1 = it.ecSeg.eeVal ∧
        (c = true → ∃ nob off, m0ExtGetCksumNob clip.eEnd n it.ecUnitSize cus = some nob ∧
          ((m0RoundUp clip.eEnd it.ecUnitSize).bind fun x =>
            m0ExtGetCksumAddr x it.ecSeg.eeExt.eStart it.ecUnitSize cus) = some off ∧
          r.2 = bufSlice it.ecSeg.eeCksumBuf off nob) ∧
        (c = false → r.2 = prev.2)) := by
  unfold pasteCutRight at h
  simp only at h
  split_ifs at h with hn hc
  · simp only [Option.some.injEq, Prod.mk.injEq] at h
    obtain ⟨rfl, rfl⟩ := h
    exact ⟨rfl, fun _ => rfl, fun hn' => absurd hn hn'⟩
  · split at h
    · next nob off hnob hoff =>
      simp only [Option.some.injEq, Prod.mk.injEq] at h
      obtain ⟨rfl, rfl⟩ := h
      exact ⟨rfl, fun h' => absurd h' hn, fun _ =>
        ⟨rfl, fun _ => ⟨nob, off, hnob, hoff, rfl⟩, fun h' => by simp [hc] at h'⟩⟩
    · simp at h
  · simp only [Option.some.injEq, Prod.mk.injEq] at h
    obtain ⟨rfl, rfl⟩ := h
    exact ⟨rfl, fun h' => absurd h' hn, fun _ => ⟨rfl, fun h' => absurd h' hc, fun _ => rfl⟩⟩

/-- **The parts of a segment in one iteration of the paste**, without callbacks: the cursor
on segment `b` at `cur`, what is left of the extent being `[cur, ee)`. The part left of `cur`
and the part right of `ee` take the segment's value and the checksums of their unit starts,
when the segment and the application carry checksums; the part in between is the whole
extent on the last segment, empty before. -/
theorem pasteParts_spec {es ee cur val scan : Nat} {it₁ : EmapCursor} {vec : List SplitPart}
    {left right left' right' : Nat × List UInt8}
    (hseg : it.ecSeg = emapSegOf b.1 b.2) (hL : recStart b ≤ cur) (hcur : cur < recEnd b)
    (hee : cur < ee) (hH : recEnd b < 2 ^ 64)
    (h : pasteParts ⟨es, ee⟩ val none none none it ⟨cur, ee⟩ left right =
      some (it₁, vec, scan, left', right')) :
    it₁ = it ∧
      vec = [⟨cur - recStart b, left'.1, left'.2⟩,
        ⟨if ee ≤ recEnd b then ee - es else 0, val, it.ecAppCksumBuf⟩,
        ⟨recEnd b - min ee (recEnd b), right'.1, right'.2⟩] ∧
      scan = (if recStart b < cur then recStart b else es) ∧
      (recStart b < cur → left' = (b.2.erValue,
        if b.2.erCksum ≠ [] ∧ it.ecAppCksumBuf ≠ [] then segCksums b it.ecUnitSize (recStart b) cur
        else left.2)) ∧
      (ee < recEnd b → right' = (b.2.erValue,
        if b.2.erCksum ≠ [] ∧ it.ecAppCksumBuf ≠ [] then
          segCksums b it.ecUnitSize ee (recEnd b) else right.2)) ∧
      (recEnd b ≤ ee → right' = right) := by
  unfold pasteParts at h
  have hL' : b.2.erStart ≤ cur := hL
  simp only [hseg, m0ExtIntersection, emapSegOf, max_eq_left hL', ite_self] at h
  split at h
  · simp at h
  · next cus hcus =>
    split at h
    · simp at h
    · next it₂ l hl =>
      split at h
      · simp at h
      · next it₃ r hr =>
        obtain ⟨hit₂, -, hl1⟩ := pasteCutLeft_none hl
        subst it₂
        obtain ⟨hit₃, hr0, hr1⟩ := pasteCutRight_none hr
        subst it₃
        simp only [Option.some.injEq, Prod.mk.injEq] at h
        obtain ⟨rfl, rfl, rfl, rfl, rfl⟩ := h
        rw [hseg] at hl1 hr1
        -- the unit size and the checksum bytes of a unit, when checksums are computed
        have hck : b.2.erCksum ≠ [] ∧ it.ecAppCksumBuf ≠ [] → 0 < it.ecUnitSize ∧ 0 < cus ∧
            cus = b.2.erCksum.length / (unitStarts it.ecUnitSize (recStart b) (recEnd b)).length :=
          fun hc => pasteCksumUnitSize_spec hseg (lt_of_le_of_lt hL hcur)
            (by rwa [if_pos (decide_eq_true hc)] at hcus)
        refine ⟨rfl, ?_, ?_, fun hlt => ?_, fun hlt => ?_, fun hle => hr0 ?_⟩
        · by_cases hle : ee ≤ b.1.ekOffset
          · simp [m0ExtLength, recStart, recEnd, hle]
          · simp [recStart, recEnd, hle]
        · by_cases hlt : b.2.erStart < cur
          · simp [hseg, emapSegOf, recStart, hlt]
          · simp [recStart, hlt]
        · obtain ⟨hv, hc1, hc2⟩ := hl1 (Nat.sub_ne_zero_of_lt hlt)
          refine Prod.ext hv ?_
          by_cases hc : b.2.erCksum ≠ [] ∧ it.ecAppCksumBuf ≠ []
          · obtain ⟨hu, hcus', hcus_eq⟩ := hck hc
            have hsl := (leftCksum_eq hu hcus' hcus_eq hlt hcur.le).symm.trans
              (hc1 (decide_eq_true hc))
            rw [if_pos hc]
            exact (Option.some.inj hsl).symm
          · rw [if_neg hc]
            exact hc2 (decide_eq_false hc)
        · obtain ⟨hv, hc1, hc2⟩ := hr1 (Nat.sub_ne_zero_of_lt (min_lt_of_left_lt hlt))
          refine Prod.ext hv ?_
          by_cases hc : b.2.erCksum ≠ [] ∧ it.ecAppCksumBuf ≠ []
          · obtain ⟨hu, hcus', hcus_eq⟩ := hck hc
            obtain ⟨nob, off, hnob, hoff, hr2⟩ := hc1 (decide_eq_true hc)
            rw [(min_eq_left hlt.le : min ee b.1.ekOffset = ee)] at hnob hoff
            rw [if_pos hc, hr2]
            exact rightCksum_eq hu hcus' hcus_eq (hL.trans hee.le) hlt hH hnob hoff
          · rw [if_neg hc]
            exact hc2 (decide_eq_false hc)
        · rw [(min_eq_right hle : min ee b.1.ekOffset = b.1.ekOffset), Nat.sub_self]

end Parts

/-! ### The loop -/

/-- Where the loop of the paste of `[es, ee)` stands: the cursor on segment `b` at offset
`cur`, `b` first of the segments `B` the loop walks before `bₘ`, which holds `ee - 1`; the
records before `b` are `Pre`, those after `bₘ` are `C ++ Post`. A part is left of `cur` only
on the first segment, and no checksum is carried into a left or a right part. -/
structure PasteLoopInv (es ee : Nat) (it : EmapCursor) (t : EmapTree) (cur : Nat)
    (left right : Nat × List UInt8) (Pre B C Post : List (EmapKey × EmapRec))
    (b bₘ : EmapKey × EmapRec) : Prop where
  valid : t.Valid
  contents : t.contents = Pre ++ (B ++ bₘ :: C) ++ Post
  head : (B ++ bₘ :: C).head? = some b
  on : it.On b.1 b.2
  tiles : Tiles recStart recEnd (recStart b) (recStart bₘ) B
  start_lt : recStart bₘ < ee
  le_end : ee ≤ recEnd bₘ
  end_le : recEnd bₘ ≤ M0_BINDEX_MAX + 1
  prefix_eq : ∀ s ∈ B ++ [bₘ], s.1.ekPrefix = b.1.ekPrefix
  pre_le : ∀ s ∈ Pre, s.1 ≤ ⟨b.1.ekPrefix, recStart b⟩
  start_le : recStart b ≤ cur
  cur_lt : cur < recEnd b
  cur_lt_ee : cur < ee
  es_le : es ≤ cur
  left_part : recStart b < cur → cur = es ∧ left.2 = []
  right_nil : right.2 = []

namespace PasteLoopInv

variable {bt : BtreeType EmapKey EmapRec} {es ee val cur : Nat} {it it' : EmapCursor}
  {t t' : EmapTree} {left right : Nat × List UInt8} {Pre B C Post : List (EmapKey × EmapRec)}
  {b bₘ : EmapKey × EmapRec}

lemma seg (inv : PasteLoopInv es ee it t cur left right Pre B C Post b bₘ) :
    it.ecSeg = emapSegOf b.1 b.2 :=
  inv.on.2.1

/-- The segment the cursor is on ends by the end of the last one. -/
lemma end_le_end (inv : PasteLoopInv es ee it t cur left right Pre B C Post b bₘ) :
    recEnd b ≤ recEnd bₘ := by
  cases B with
  | nil =>
    have : bₘ = b := by simpa using inv.head
    rw [this]
  | cons s B =>
    have hs : s = b := by simpa using inv.head
    subst hs
    have := inv.tiles.2.2.le
    have := inv.start_lt
    have := inv.le_end
    omega

lemma end_lt_two_pow (inv : PasteLoopInv es ee it t cur left right Pre B C Post b bₘ) :
    recEnd b < 2 ^ 64 := by
  have := inv.end_le_end
  have := inv.end_le
  unfold M0_BINDEX_MAX at this
  omega

/-- The records before the cursor's segment are below its every key from its start on. -/
lemma pre_lt (inv : PasteLoopInv es ee it t cur left right Pre B C Post b bₘ) {y : Nat}
    (hy : recStart b < y) : ∀ s ∈ Pre, s.1 < ⟨b.1.ekPrefix, y⟩ := fun s hs =>
  lt_of_le_of_lt (inv.pre_le s hs) (EmapKey.lt_iff.mpr (Or.inr ⟨rfl, hy⟩))

/-- **One iteration of the loop**: the parts of the segment `b` and their split, which
succeeds; then, when the extent ends in `b`, the loop stops, and otherwise it goes on from the
end of `b`, moving the cursor with `be_emap_next` when the split did not. -/
lemma iter (inv : PasteLoopInv es ee it t cur left right Pre B C Post b bₘ)
    (h : m0BeEmapPasteLoop bt ⟨es, ee⟩ val none none none it t ⟨cur, ee⟩ left right =
      some (it', t', 0)) :
    ∃ vec scan left' right' it₂ t₂,
      pasteParts ⟨es, ee⟩ val none none none it ⟨cur, ee⟩ left right =
        some (it, vec, scan, left', right') ∧
      beEmapSplit bt it vec scan t = some (it₂, t₂, 0) ∧
      (ee ≤ recEnd b → it₂ = it' ∧ t₂ = t') ∧
      (recEnd b < ee → m0VecIsEmpty vec = true →
        m0BeEmapPasteLoop bt ⟨es, ee⟩ val none none none it₂ t₂ ⟨recEnd b, ee⟩ left' right' =
          some (it', t', 0)) ∧
      (recEnd b < ee → m0VecIsEmpty vec = false →
        m0BeEmapExtIsLast it₂.ecSeg.eeExt = false ∧ ∃ it₃ rcNext,
          beEmapNext it₂ t₂ = some (it₃, rcNext) ∧
          (rcNext = 0 → m0BeEmapPasteLoop bt ⟨es, ee⟩ val none none none it₃ t₂ ⟨recEnd b, ee⟩
            left' right' = some (it', t', 0))) := by
  have hcur := inv.cur_lt
  have hcee := inv.cur_lt_ee
  rw [m0BeEmapPasteLoop] at h
  have hemp : ¬ m0ExtIsEmpty ⟨cur, ee⟩ = true := by simpa [m0ExtIsEmpty] using hcee
  -- what is consumed: the segment's part of the extent
  have hcons : m0ExtLength (m0ExtIntersection ⟨cur, ee⟩ it.ecSeg.eeExt) =
      min ee (recEnd b) - cur := by
    have hL : b.2.erStart ≤ cur := inv.start_le
    rw [inv.seg]
    simp [m0ExtLength, m0ExtIntersection, emapSegOf, max_eq_left hL, recEnd]
  rw [dif_neg hemp] at h
  simp only [hcons] at h
  rw [dif_neg (by omega)] at h
  split at h
  · simp at h
  · next it₁ vec scan left' right' hpp =>
    obtain ⟨rfl, -⟩ := pasteParts_spec inv.seg inv.start_le hcur hcee inv.end_lt_two_pow hpp
    split at h
    · simp at h
    · next it₂ t₂ rc hsplit =>
      by_cases hrc : rc = 0
      · subst hrc
        have hext' : cur + (min ee (recEnd b) - cur) = min ee (recEnd b) := by omega
        simp only [ne_eq, not_true_eq_false, if_false, hext'] at h
        refine ⟨vec, scan, left', right', it₂, t₂, hpp, hsplit, fun hle => ?_, fun hlt hv => ?_,
          fun hlt hv => ?_⟩
        · rw [min_eq_left hle] at h
          simp [m0ExtIsEmpty] at h
          exact ⟨h.1, h.2⟩
        · rw [min_eq_right hlt.le] at h
          simpa [m0ExtIsEmpty, not_lt.mpr hlt.le, not_le.mpr hlt, hv] using h
        · rw [min_eq_right hlt.le] at h
          simp only [not_lt.mpr hlt.le, if_false, m0ExtIsEmpty, decide_eq_true_eq,
            not_le.mpr hlt, hv, Bool.false_eq_true] at h
          split_ifs at h with hlast
          split at h
          · simp at h
          · next it₃ rcNext hnext =>
            refine ⟨by simpa using hlast, it₃, rcNext, hnext, fun hr => ?_⟩
            simpa [hr] using h
      · simp [hrc] at h

/-- The record of `b` in the contents, with what comes after it. -/
lemma contents_seg (inv : PasteLoopInv es ee it t cur left right Pre B C Post b bₘ)
    {R : List (EmapKey × EmapRec)} (hR : B ++ bₘ :: C = b :: R) :
    t.contents = Pre ++ (emapKeyOf it.ecSeg, b.2) :: (R ++ Post) := by
  rw [inv.contents, hR, inv.seg]
  simp [emapKeyOf, emapSegOf]

/-- The records written on the cursor's segment, all between its start and its end, go
between the records before it and its own record. -/
lemma split_bounds (inv : PasteLoopInv es ee it t cur left right Pre B C Post b bₘ)
    {rs : List (EmapKey × EmapRec)}
    (hrs : ∀ x ∈ rs, x.1.ekPrefix = b.1.ekPrefix ∧ recStart b < x.1.ekOffset ∧
      x.1.ekOffset ≤ recEnd b) :
    (∀ s ∈ Pre, s.1 < emapKeyOf it.ecSeg) ∧ (∀ s ∈ Pre, ∀ x ∈ rs, s.1 < x.1) ∧
      (∀ x ∈ rs, x.1.ekOffset ≤ it.ecSeg.eeExt.eEnd) := by
  rw [inv.seg]
  refine ⟨inv.pre_lt (lt_of_le_of_lt inv.start_le inv.cur_lt), fun s hs x hx => ?_,
    fun x hx => (hrs x hx).2.2⟩
  obtain ⟨hp, hlo, -⟩ := hrs x hx
  have := inv.pre_lt hlo s hs
  rwa [← hp] at this

end PasteLoopInv

section Steps

variable {bt : BtreeType EmapKey EmapRec} {es ee val cur : Nat} {it it' : EmapCursor}
  {t t' : EmapTree} {left right : Nat × List UInt8} {Pre B C Post : List (EmapKey × EmapRec)}
  {b bₘ : EmapKey × EmapRec}

/-- **The last iteration**, on the segment `bₘ` that holds `ee - 1`: its part left of `cur`,
the extent and its part right of `ee` take its place. -/
theorem pasteLoop_last (inv : PasteLoopInv es ee it t cur left right Pre [] C Post b bₘ)
    (h : m0BeEmapPasteLoop bt ⟨es, ee⟩ val none none none it t ⟨cur, ee⟩ left right =
      some (it', t', 0)) :
    t'.Valid ∧ t'.contents = Pre ++
      (if recStart b < cur then [leftRec it.ecAppCksumBuf it.ecUnitSize cur b] else []) ++
      (⟨b.1.ekPrefix, ee⟩, ⟨es, val, it.ecUnitSize, it.ecAppCksumBuf⟩) ::
        ((if ee < recEnd bₘ then [rightRec it.ecAppCksumBuf it.ecUnitSize ee bₘ] else []) ++
          C ++ Post) := by
  have hb : bₘ = b := by simpa using inv.head
  subst hb
  obtain ⟨vec, scan, left', right', it₂, t₂, hpp, hsplit, hlast, -, -⟩ := inv.iter h
  obtain ⟨rfl, rfl⟩ := hlast inv.le_end
  obtain ⟨-, hvec, hscan, hleft, hright, -⟩ :=
    pasteParts_spec inv.seg inv.start_le inv.cur_lt inv.cur_lt_ee inv.end_lt_two_pow hpp
  have hL := inv.start_le
  have hee := inv.le_end
  have hes := inv.es_le
  have hcee := inv.cur_lt_ee
  -- the records written: the part left of `cur`, the extent, the part right of `ee`
  have hrs : splitRecs it.ecSeg.eePre it.ecUnitSize vec scan =
      (if recStart bₘ < cur then [leftRec it.ecAppCksumBuf it.ecUnitSize cur bₘ] else []) ++
        (⟨bₘ.1.ekPrefix, ee⟩, ⟨es, val, it.ecUnitSize, it.ecAppCksumBuf⟩) ::
        (if ee < recEnd bₘ then [rightRec it.ecAppCksumBuf it.ecUnitSize ee bₘ] else []) := by
    rw [hvec, hscan, inv.seg, if_pos hee, min_eq_left hee]
    by_cases hlc : recStart bₘ < cur
    · obtain ⟨rfl, hl2⟩ := inv.left_part hlc
      rw [hleft hlc]
      by_cases hre : ee < recEnd bₘ
      · rw [hright hre]
        simp [splitRecs, leftRec, rightRec, hlc, hre, hl2, inv.right_nil, emapSegOf,
          Nat.sub_eq_zero_iff_le, Nat.add_sub_cancel' hlc.le, Nat.add_sub_cancel' hcee.le,
          Nat.add_sub_cancel' hee, not_le.mpr hlc, not_le.mpr hcee, not_le.mpr hre]
        rfl
      · simp [splitRecs, leftRec, hlc, hre, hl2, emapSegOf, Nat.sub_eq_zero_iff_le,
          Nat.add_sub_cancel' hlc.le, Nat.add_sub_cancel' hcee.le, not_le.mpr hlc,
          not_le.mpr hcee, not_lt.mp hre]
    · have hcL : cur = recStart bₘ := le_antisymm (not_lt.mp hlc) hL
      by_cases hre : ee < recEnd bₘ
      · rw [hright hre]
        simp [splitRecs, rightRec, hre, hcL, inv.right_nil, emapSegOf,
          Nat.sub_eq_zero_iff_le, Nat.add_sub_cancel' (hes.trans hcee.le),
          Nat.add_sub_cancel' hee, not_le.mpr (lt_of_le_of_lt hes hcee), not_le.mpr hre]
        rfl
      · simp [splitRecs, hre, hcL, emapSegOf, Nat.sub_eq_zero_iff_le,
          Nat.add_sub_cancel' (hes.trans hcee.le), not_le.mpr (lt_of_le_of_lt hes hcee),
          not_lt.mp hre]
  -- every record written lies in the segment, past its start
  have hmem : ∀ x ∈ (if recStart bₘ < cur then [leftRec it.ecAppCksumBuf it.ecUnitSize cur bₘ]
      else []) ++ (⟨bₘ.1.ekPrefix, ee⟩, ⟨es, val, it.ecUnitSize, it.ecAppCksumBuf⟩) ::
        (if ee < recEnd bₘ then [rightRec it.ecAppCksumBuf it.ecUnitSize ee bₘ] else []),
      x.1.ekPrefix = bₘ.1.ekPrefix ∧ recStart bₘ < x.1.ekOffset ∧ x.1.ekOffset ≤ recEnd bₘ := by
    intro x hx
    simp only [List.mem_append, List.mem_cons, List.mem_ite_nil_right, List.not_mem_nil,
      or_false] at hx
    rcases hx with ⟨hlc, rfl⟩ | rfl | ⟨hre, rfl⟩
    · exact ⟨rfl, hlc, inv.cur_lt.le⟩
    · exact ⟨rfl, lt_of_le_of_lt hL hcee, hee⟩
    · exact ⟨rfl, lt_of_le_of_lt hL (lt_trans hcee hre), le_rfl⟩
  obtain ⟨hPre, hPrs, hend⟩ := inv.split_bounds hmem
  obtain ⟨hv, hc, -⟩ :=
    beEmapSplit_replace inv.valid hrs (inv.contents_seg (R := C) rfl) hPre hPrs hend hsplit
  refine ⟨hv, ?_⟩
  rw [hc]
  simp

/-- The segment after the first of `B`: the next of `B`, or `bₘ`; it starts where the first
ends, and is of the same prefix. -/
lemma PasteLoopInv.next_seg {b₀ : EmapKey × EmapRec} {B' : List (EmapKey × EmapRec)}
    (inv : PasteLoopInv es ee it t cur left right Pre (b₀ :: B') C Post b bₘ) :
    ∃ b' R', B' ++ bₘ :: C = b' :: R' ∧ recStart b' = recEnd b₀ ∧ recEnd b₀ < recEnd b' ∧
      b'.1.ekPrefix = b.1.ekPrefix := by
  have hB' : Tiles recStart recEnd (recEnd b₀) (recStart bₘ) B' := inv.tiles.2.2
  cases B' with
  | nil =>
    refine ⟨bₘ, C, rfl, hB'.symm, ?_, inv.prefix_eq bₘ (by simp)⟩
    have h0 : recEnd b₀ = recStart bₘ := hB'
    have := inv.start_lt
    have := inv.le_end
    omega
  | cons s B'' =>
    refine ⟨s, B'' ++ bₘ :: C, rfl, hB'.1, ?_, inv.prefix_eq s (by simp)⟩
    have := hB'.mem (List.mem_cons_self)
    omega

/-- **An iteration before the last**, on a segment `b` that ends before `ee`: `b` is deleted
but for its part left of `cur`, and the cursor moves on to the next segment, at its start. -/
theorem pasteLoop_next {b₀ : EmapKey × EmapRec} {B' : List (EmapKey × EmapRec)}
    (inv : PasteLoopInv es ee it t cur left right Pre (b₀ :: B') C Post b bₘ)
    (h : m0BeEmapPasteLoop bt ⟨es, ee⟩ val none none none it t ⟨cur, ee⟩ left right =
      some (it', t', 0)) :
    ∃ it₁ t₁ left₁ right₁ b', PasteLoopInv es ee it₁ t₁ (recEnd b) left₁ right₁
        (Pre ++ if recStart b < cur then [leftRec it.ecAppCksumBuf it.ecUnitSize cur b] else [])
        B' C Post b' bₘ ∧
      it₁.ecUnitSize = b'.2.erUnitSize ∧ it₁.ecAppCksumBuf = it.ecAppCksumBuf ∧
      b'.1.ekPrefix = b.1.ekPrefix ∧ recStart b' = recEnd b ∧
      m0BeEmapPasteLoop bt ⟨es, ee⟩ val none none none it₁ t₁ ⟨recEnd b, ee⟩ left₁ right₁ =
        some (it', t', 0) := by
  have hb : b₀ = b := by simpa using inv.head
  subst hb
  have hL := inv.start_le
  have hcur := inv.cur_lt
  have hlt : recEnd b₀ < ee := lt_of_le_of_lt inv.tiles.2.2.le inv.start_lt
  obtain ⟨b', R', hR', hb'start, hb'end, hb'pre⟩ := inv.next_seg
  obtain ⟨vec, scan, left', right', it₂, t₂, hpp, hsplit, -, hempty, hnext⟩ := inv.iter h
  obtain ⟨-, hvec, hscan, hleft, -, hright⟩ :=
    pasteParts_spec inv.seg hL hcur inv.cur_lt_ee inv.end_lt_two_pow hpp
  -- the records written: the part left of `cur`, if any
  have hrs : splitRecs it.ecSeg.eePre it.ecUnitSize vec scan =
      if recStart b₀ < cur then [leftRec it.ecAppCksumBuf it.ecUnitSize cur b₀] else [] := by
    rw [hvec, hscan, inv.seg, if_neg (not_le.mpr hlt), min_eq_right hlt.le, Nat.sub_self]
    by_cases hlc : recStart b₀ < cur
    · obtain ⟨-, hl2⟩ := inv.left_part hlc
      rw [hleft hlc]
      simp [splitRecs, leftRec, hlc, hl2, emapSegOf, Nat.sub_eq_zero_iff_le,
        Nat.add_sub_cancel' hlc.le, not_le.mpr hlc]
    · simp [splitRecs, le_antisymm (not_lt.mp hlc) hL]
  have hmem : ∀ x ∈ (if recStart b₀ < cur then [leftRec it.ecAppCksumBuf it.ecUnitSize cur b₀]
      else []), x.1.ekPrefix = b₀.1.ekPrefix ∧ recStart b₀ < x.1.ekOffset ∧
        x.1.ekOffset ≤ recEnd b₀ := by
    intro x hx
    simp only [List.mem_ite_nil_right, List.mem_singleton] at hx
    obtain ⟨hlc, rfl⟩ := hx
    exact ⟨rfl, hlc, hcur.le⟩
  obtain ⟨hPre, hPrs, hend⟩ := inv.split_bounds hmem
  obtain ⟨hv, hc, k, r, hf, hon, hu, hp, ha⟩ := beEmapSplit_replace inv.valid hrs
    (inv.contents_seg (R := B' ++ bₘ :: C) rfl) hPre hPrs hend hsplit
  rw [hR'] at hc hf
  have hb'key : b'.1 = ⟨b₀.1.ekPrefix, recEnd b'⟩ := by rw [← hb'pre]; rfl
  have hbPre : b'.1.ekPrefix = it.ecPrefix := hb'pre.trans inv.on.2.2.symm
  -- the cursor reaches the next segment: by the get of the split when nothing was written,
  -- by `be_emap_next` from the part left of `cur` otherwise
  obtain ⟨it₁, hon₁, hu₁, ha₁, hloop⟩ : ∃ it₁ : EmapCursor, it₁.On b'.1 b'.2 ∧
      it₁.ecUnitSize = b'.2.erUnitSize ∧ it₁.ecAppCksumBuf = it.ecAppCksumBuf ∧
      m0BeEmapPasteLoop bt ⟨es, ee⟩ val none none none it₁ t₂ ⟨recEnd b₀, ee⟩ left' right' =
        some (it', t', 0) := by
    have hnil := @splitRecs_eq_nil_iff it.ecSeg.eePre it.ecUnitSize vec scan
    rw [hrs] at hnil
    by_cases hlc : recStart b₀ < cur
    · rw [if_pos hlc] at hf hc hnil
      have hkey : (⟨it.ecSeg.eePre,
          splitEnd [leftRec it.ecAppCksumBuf it.ecUnitSize cur b₀] it.ecSeg.eeExt.eEnd⟩ :
          EmapKey) = ⟨b₀.1.ekPrefix, cur⟩ := by
        rw [inv.seg]
        rfl
      have hfind : (Pre ++ [leftRec it.ecAppCksumBuf it.ecUnitSize cur b₀] ++
          (b' :: R' ++ Post)).find? (fun s => decide ((⟨b₀.1.ekPrefix, cur⟩ : EmapKey) ≤ s.1)) =
          some (leftRec it.ecAppCksumBuf it.ecUnitSize cur b₀) := by
        rw [List.append_assoc, List.singleton_append]
        exact find?_append_cons (fun s hs => by simpa using inv.pre_lt hlc s hs)
          (by simp [leftRec])
      rw [hkey, hfind, Option.some.injEq] at hf
      have hk₂ : it₂.ecKey = ⟨b₀.1.ekPrefix, cur⟩ := hon.1.trans (congrArg Prod.fst hf).symm
      have hp₂ : it₂.ecPrefix = it.ecPrefix := hp
      obtain ⟨hlast, it₃, rcNext, hnx, hcont⟩ := hnext hlt (by simpa using hnil)
      have hnext' : (t₂.contents.find? fun s => decide (it₂.ecKey < s.1)) = some b' := by
        rw [hc, hk₂, List.cons_append]
        refine find?_append_cons (fun s hs => ?_) ?_
        · rcases List.mem_append.mp hs with hs | hs
          · simpa using (inv.pre_lt hlc s hs).le
          · rw [List.mem_singleton.mp hs]
            simp [leftRec]
        · rw [hb'key]
          exact decide_eq_true (EmapKey.lt_iff.mpr (Or.inr ⟨rfl, lt_trans hcur hb'end⟩))
      rw [beEmapNext_eq hv, hnext', emapItOpen_some (hbPre.trans hp₂.symm),
        Option.some.injEq, Prod.mk.injEq] at hnx
      obtain ⟨rfl, rfl⟩ := hnx
      exact ⟨{ it₂ with ecKey := b'.1, ecSeg := emapSegOf b'.1 b'.2, ecUnitSize := b'.2.erUnitSize },
        ⟨rfl, rfl, hp₂.trans hbPre.symm⟩, rfl, ha, hcont rfl⟩
    · rw [if_neg hlc] at hf hc hnil
      have hkey : (⟨it.ecSeg.eePre, splitEnd [] it.ecSeg.eeExt.eEnd⟩ : EmapKey) =
          ⟨b₀.1.ekPrefix, recEnd b₀⟩ := by
        rw [inv.seg]
        rfl
      have hfind : (Pre ++ [] ++ (b' :: R' ++ Post)).find?
          (fun s => decide ((⟨b₀.1.ekPrefix, recEnd b₀⟩ : EmapKey) ≤ s.1)) = some b' := by
        rw [List.append_nil, List.cons_append]
        refine find?_append_cons (fun s hs => ?_) ?_
        · simpa using inv.pre_lt (lt_of_le_of_lt hL hcur) s hs
        · rw [hb'key]
          exact decide_eq_true (EmapKey.le_iff.mpr (Or.inr ⟨rfl, hb'end.le⟩))
      rw [hkey, hfind, Option.some.injEq] at hf
      subst hf
      exact ⟨it₂, hon, hu, ha, hempty hlt (hnil.mp rfl)⟩
  have hR : recEnd b₀ ≤ ee := hlt.le
  refine ⟨it₁, t₂, left', right', b', ⟨hv, ?_, by rw [hR']; rfl, hon₁, ?_, inv.start_lt,
    inv.le_end, inv.end_le, fun s hs => ?_, fun s hs => ?_, hb'start.le, ?_, hlt, ?_,
    fun h' => absurd h' (by omega), ?_⟩, hu₁, ha₁, hb'pre, hb'start, hloop⟩
  · rw [hc, ← hR']
    simp
  · rw [hb'start]
    exact inv.tiles.2.2
  · rw [hb'pre]
    exact inv.prefix_eq s (List.mem_cons_of_mem _ hs)
  · rw [hb'pre, hb'start]
    rcases List.mem_append.mp hs with hs | hs
    · exact (inv.pre_lt (lt_of_le_of_lt hL hcur) s hs).le
    · simp only [List.mem_ite_nil_right, List.mem_singleton] at hs
      obtain ⟨-, rfl⟩ := hs
      exact EmapKey.le_iff.mpr (Or.inr ⟨rfl, hcur.le⟩)
  · exact hb'end
  · exact le_trans inv.es_le hcur.le
  · rw [hright hR]
    exact inv.right_nil

/-- **The loop of the paste**, from where `inv` says to its end: the segments it walks are
deleted but for the part of the first one left of `cur`, and the last one, `bₘ`, is replaced
by the extent and its part right of `ee`. These two take the cursor's unit size when the loop
stays on one segment, and that of `bₘ`, which the cursor has moved to, otherwise. -/
theorem m0BeEmapPasteLoop_spec :
    ∀ {B Pre : List (EmapKey × EmapRec)} {b : EmapKey × EmapRec} {it it' : EmapCursor}
      {t t' : EmapTree} {cur : Nat} {left right : Nat × List UInt8},
      PasteLoopInv es ee it t cur left right Pre B C Post b bₘ →
      m0BeEmapPasteLoop bt ⟨es, ee⟩ val none none none it t ⟨cur, ee⟩ left right =
        some (it', t', 0) →
      t'.Valid ∧ t'.contents = Pre ++
        (if recStart b < cur then [leftRec it.ecAppCksumBuf it.ecUnitSize cur b] else []) ++
        (⟨b.1.ekPrefix, ee⟩,
          ⟨es, val, if B = [] then it.ecUnitSize else bₘ.2.erUnitSize, it.ecAppCksumBuf⟩) ::
          ((if ee < recEnd bₘ then [rightRec it.ecAppCksumBuf
            (if B = [] then it.ecUnitSize else bₘ.2.erUnitSize) ee bₘ] else []) ++ C ++ Post) := by
  intro B
  induction B with
  | nil =>
    intro Pre b it it' t t' cur left right inv h
    simpa using pasteLoop_last inv h
  | cons b₀ B' ih =>
    intro Pre b it it' t t' cur left right inv h
    obtain ⟨it₁, t₁, left₁, right₁, b', inv', hu, ha, hpre, hstart, hloop⟩ := pasteLoop_next inv h
    obtain ⟨hv, hc⟩ := ih inv' hloop
    -- the loop goes on from the start of `b'`, with the unit size of `bₘ` in the end
    have huR : (if B' = [] then it₁.ecUnitSize else bₘ.2.erUnitSize) = bₘ.2.erUnitSize := by
      split_ifs with hB'
      · subst hB'
        have : bₘ = b' := by simpa using inv'.head
        rw [hu, this]
      · rfl
    refine ⟨hv, ?_⟩
    rw [hc, huR, if_neg (show ¬ recStart b' < recEnd b by rw [hstart]; exact lt_irrefl _), ha,
      hpre]
    simp

end Steps

end Motr
