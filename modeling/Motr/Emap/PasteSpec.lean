import Motr.Emap.Cursor
import Motr.Lib.Tiling

/-!
What a paste is for, on the segments of one prefix of an extent map.

The segments of a prefix, in key order, are its records (`emapRecs`); each covers
`[er_start, ek_offset)`, and the map's invariant is that they tile the name space
(`EmapTiles`). A paste of `[es, ee)` with value `val` leaves the segments before `es` as they
were; the segment `b₁` holding `es` is cut to its part left of `es` (`leftRec`); `[es, ee)`
becomes one segment of value `val`; the segment `bₘ` holding `ee - 1` is cut to its part
right of `ee` (`rightRec`); the segments after `ee` stay (`pasteRecs`). A part keeps the
value of its segment and, when the segment and the application both carry checksums, the
checksums of the unit starts that lie in it (`segCksums`: one slot per unit start of the
segment, `Motr.Lib.Units`).

* `pasteRecs_eq`: the segments after a paste, from a cut of the tiling around `[es, ee)`
  (`PasteCut`).
* `pasteRecs_tiles`: pasting into a tiling gives a tiling of the same interval.
* `pieceAt_pasteRecs_inside`, `pieceAt_pasteRecs_outside`: every offset of `[es, ee)` is in
  the new segment; every other one is in what is left of its old segment, with its value.
* `pieceAt_pasteRecs_left`, `pieceAt_pasteRecs_right`: the parts left and right of the
  extent.
-/

namespace Motr

/-- The start of a record's segment. -/
def recStart (s : EmapKey × EmapRec) : Nat := s.2.erStart

/-- The end of a record's segment: its key's offset. -/
def recEnd (s : EmapKey × EmapRec) : Nat := s.1.ekOffset

/-- The records of prefix `p`, in key order. -/
def emapRecs (p : Nat) (l : List (EmapKey × EmapRec)) : List (EmapKey × EmapRec) :=
  l.filter fun s => s.1.ekPrefix = p

/-- The segment of prefix `p` that holds offset `x`. -/
def emapSegAt (p : Nat) (l : List (EmapKey × EmapRec)) (x : Nat) : Option (EmapKey × EmapRec) :=
  pieceAt recStart recEnd (emapRecs p l) x

/-- **The invariant of an extent map** for prefix `p`: its segments tile the name space
`[0, M0_BINDEX_MAX + 1)`, non-empty, contiguous and not overlapping. -/
def EmapTiles (p : Nat) (l : List (EmapKey × EmapRec)) : Prop :=
  Tiles recStart recEnd 0 (M0_BINDEX_MAX + 1) (emapRecs p l)

/-- The checksums, in segment `s`'s, of its unit starts (for unit size `u`) that lie in
`[x, y)`: the checksum bytes of `s` hold one slot for each unit start of its extent, of
their number over the number of unit starts. -/
def segCksums (s : EmapKey × EmapRec) (u x y : Nat) : List UInt8 :=
  unitSlots s.2.erCksum (s.2.erCksum.length / (unitStarts u (recStart s) (recEnd s)).length) u
    (recStart s) (recEnd s) x y

/-- The part of segment `s` left of `x`, of unit size `u`: the value of `s` and, when `s` and
the application (`app`) both carry checksums, the checksums of its unit starts. -/
def leftRec (app : List UInt8) (u x : Nat) (s : EmapKey × EmapRec) : EmapKey × EmapRec :=
  (⟨s.1.ekPrefix, x⟩, ⟨recStart s, s.2.erValue, u,
    if s.2.erCksum ≠ [] ∧ app ≠ [] then segCksums s u (recStart s) x else []⟩)

/-- The part of segment `s` right of `x`, of unit size `u`, as `leftRec`. -/
def rightRec (app : List UInt8) (u x : Nat) (s : EmapKey × EmapRec) : EmapKey × EmapRec :=
  (s.1, ⟨x, s.2.erValue, u,
    if s.2.erCksum ≠ [] ∧ app ≠ [] then segCksums s u x (recEnd s) else []⟩)

@[simp] lemma recStart_leftRec {app : List UInt8} {u x : Nat} {s : EmapKey × EmapRec} :
    recStart (leftRec app u x s) = recStart s := rfl

@[simp] lemma recEnd_leftRec {app : List UInt8} {u x : Nat} {s : EmapKey × EmapRec} :
    recEnd (leftRec app u x s) = x := rfl

@[simp] lemma recStart_rightRec {app : List UInt8} {u x : Nat} {s : EmapKey × EmapRec} :
    recStart (rightRec app u x s) = x := rfl

@[simp] lemma recEnd_rightRec {app : List UInt8} {u x : Nat} {s : EmapKey × EmapRec} :
    recEnd (rightRec app u x s) = recEnd s := rfl

/-- **The segments after a paste** of `ext` with value `val` and the application's checksums
`app` into the segments `P`, `u` being the unit size of the cursor: the segments ending by
`ext.e_start`, the part of the segment holding `ext.e_start` left of it, `ext` itself, the
part of the segment holding `ext.e_end - 1` right of `ext`, the segments starting from
`ext.e_end`. The new segment and the right part have the unit size of the cursor when one
segment holds all of `ext`, and that of the last segment otherwise, to which the cursor has
moved. -/
def pasteRecs (ext : Ext) (val u : Nat) (app : List UInt8) (P : List (EmapKey × EmapRec)) :
    List (EmapKey × EmapRec) :=
  match pieceAt recStart recEnd P ext.eStart, pieceAt recStart recEnd P (ext.eEnd - 1) with
  | some b₁, some bₘ =>
    let uR := if b₁.1 = bₘ.1 then u else bₘ.2.erUnitSize
    P.filter (fun s => recEnd s ≤ ext.eStart) ++
      (if recStart b₁ < ext.eStart then [leftRec app u ext.eStart b₁] else []) ++
      (⟨b₁.1.ekPrefix, ext.eEnd⟩, ⟨ext.eStart, val, uR, app⟩) ::
        ((if ext.eEnd < recEnd bₘ then [rightRec app uR ext.eEnd bₘ] else []) ++
          P.filter fun s => ext.eEnd ≤ recStart s)
  | _, _ => P

/-! ### A tiling cut around the pasted extent -/

/-- A tiling `P = A ++ B ++ bₘ :: C` of `[a, N)` cut around the segments that overlap
`[es, ee)`: `b₁`, first of `B ++ [bₘ]`, holds `es`, and `bₘ` holds `ee - 1`. -/
structure PasteCut (a N es ee : Nat) (P A B C : List (EmapKey × EmapRec))
    (b₁ bₘ : EmapKey × EmapRec) : Prop where
  eq : P = A ++ B ++ bₘ :: C
  head : (B ++ bₘ :: C).head? = some b₁
  tiles_A : Tiles recStart recEnd a (recStart b₁) A
  start_le : recStart b₁ ≤ es
  lt_end : es < recEnd b₁
  tiles_B : Tiles recStart recEnd (recStart b₁) (recStart bₘ) B
  start_lt : recStart bₘ < ee
  le_end : ee ≤ recEnd bₘ
  lt : es < ee
  tiles_C : Tiles recStart recEnd (recEnd bₘ) N C

namespace PasteCut

variable {a N es ee : Nat} {P A B C : List (EmapKey × EmapRec)} {b₁ bₘ : EmapKey × EmapRec}

/-- A tiling cuts around any extent inside it. -/
theorem of_tiles (hP : Tiles recStart recEnd a N P) (has : a ≤ es) (hes : es < ee) (hee : ee ≤ N) :
    ∃ A B C b₁ bₘ, PasteCut a N es ee P A B C b₁ bₘ := by
  obtain ⟨A, B, C, b₁, bₘ, heq, hhead, hA, h₁, h₁', hB, hₘ, hₘ', hC⟩ :=
    hP.split_overlap has hes hee
  exact ⟨A, B, C, b₁, bₘ, heq, hhead, hA, h₁, h₁', hB, hₘ, hₘ', hes, hC⟩

/-- The overlapped segments from `b₁` on, which tile `[start b₁, N)`. -/
lemma tiles_tail (c : PasteCut a N es ee P A B C b₁ bₘ) :
    Tiles recStart recEnd (recStart b₁) N (B ++ bₘ :: C) :=
  tiles_append.mpr ⟨_, c.tiles_B, rfl, by have := c.start_lt; have := c.le_end; omega, c.tiles_C⟩

lemma tiles (c : PasteCut a N es ee P A B C b₁ bₘ) : Tiles recStart recEnd a N P := by
  rw [c.eq, List.append_assoc]
  exact tiles_append.mpr ⟨_, c.tiles_A, c.tiles_tail⟩

/-- The tail from `b₁` is `b₁` and the segments after it. -/
lemma tail_eq (c : PasteCut a N es ee P A B C b₁ bₘ) :
    ∃ R, B ++ bₘ :: C = b₁ :: R ∧ Tiles recStart recEnd (recEnd b₁) N R := by
  obtain ⟨R, hR⟩ : ∃ R, B ++ bₘ :: C = b₁ :: R := by
    cases hB : B ++ bₘ :: C with
    | nil => simp at hB
    | cons s R =>
      have := c.head
      rw [hB] at this
      cases this
      exact ⟨R, rfl⟩
  have ht := c.tiles_tail
  rw [hR] at ht
  exact ⟨R, hR, ht.2.2⟩

lemma mem_b₁ (c : PasteCut a N es ee P A B C b₁ bₘ) : b₁ ∈ P := by
  obtain ⟨R, hR, -⟩ := c.tail_eq
  rw [c.eq, List.append_assoc, hR]
  simp

lemma mem_bₘ (c : PasteCut a N es ee P A B C b₁ bₘ) : bₘ ∈ P := by
  rw [c.eq]
  simp

lemma mem_A (c : PasteCut a N es ee P A B C b₁ bₘ) {s} (hs : s ∈ A) : s ∈ P := by
  rw [c.eq]
  simp [hs]

lemma mem_C (c : PasteCut a N es ee P A B C b₁ bₘ) {s} (hs : s ∈ C) : s ∈ P := by
  rw [c.eq]
  simp [hs]

/-- `b₁` is `bₘ` exactly when no segment lies between them. -/
lemma key_eq_iff (c : PasteCut a N es ee P A B C b₁ bₘ) : b₁.1 = bₘ.1 ↔ B = [] := by
  constructor
  · intro hk
    cases B with
    | nil => rfl
    | cons s B' =>
      have hs : s = b₁ := by simpa using c.head
      subst hs
      have hB := c.tiles_B.2.2.le
      have : recEnd s = recEnd bₘ := by simp [recEnd, hk]
      have := c.start_lt
      have := c.le_end
      have := c.start_le
      have := c.lt_end
      omega
  · rintro rfl
    have : bₘ = b₁ := by simpa using c.head
    rw [this]

/-- The segments ending by `es` are those before the cut. -/
lemma filter_before (c : PasteCut a N es ee P A B C b₁ bₘ) :
    P.filter (fun s => recEnd s ≤ es) = A := by
  obtain ⟨R, hR, hRt⟩ := c.tail_eq
  rw [c.eq, List.append_assoc, hR, List.filter_append, List.filter_cons]
  have hA : A.filter (fun s => recEnd s ≤ es) = A := List.filter_eq_self.mpr fun s hs => by
    have := c.tiles_A.mem hs
    have := c.start_le
    simp only [decide_eq_true_eq]
    omega
  have hR' : R.filter (fun s => recEnd s ≤ es) = [] := List.filter_eq_nil_iff.mpr fun s hs => by
    have := hRt.mem hs
    have := c.lt_end
    simp only [decide_eq_true_eq]
    omega
  have hb : ¬ recEnd b₁ ≤ es := not_le.mpr c.lt_end
  simp [hA, hR', hb]

/-- The segments starting from `ee` are those after the cut. -/
lemma filter_after (c : PasteCut a N es ee P A B C b₁ bₘ) :
    P.filter (fun s => ee ≤ recStart s) = C := by
  rw [c.eq, List.filter_append, List.filter_append, List.filter_cons]
  have hA : A.filter (fun s => ee ≤ recStart s) = [] := List.filter_eq_nil_iff.mpr fun s hs => by
    have := c.tiles_A.mem hs
    have := c.start_le
    have := c.lt
    simp only [decide_eq_true_eq]
    omega
  have hB : B.filter (fun s => ee ≤ recStart s) = [] := List.filter_eq_nil_iff.mpr fun s hs => by
    have := c.tiles_B.mem hs
    have := c.start_lt
    simp only [decide_eq_true_eq]
    omega
  have hC : C.filter (fun s => ee ≤ recStart s) = C := List.filter_eq_self.mpr fun s hs => by
    have := c.tiles_C.mem hs
    have := c.le_end
    simp only [decide_eq_true_eq]
    omega
  have hm : ¬ ee ≤ recStart bₘ := not_le.mpr c.start_lt
  simp [hA, hB, hC, hm]

end PasteCut

/-! ### The segments after a paste -/

section Pasted

variable {a N : Nat} {ext : Ext} {val u : Nat} {app : List UInt8}
  {P A B C : List (EmapKey × EmapRec)} {b₁ bₘ : EmapKey × EmapRec}

/-- **The segments after a paste, on a cut tiling.** -/
theorem pasteRecs_eq (c : PasteCut a N ext.eStart ext.eEnd P A B C b₁ bₘ) :
    pasteRecs ext val u app P =
      A ++ (if recStart b₁ < ext.eStart then [leftRec app u ext.eStart b₁] else []) ++
        (⟨b₁.1.ekPrefix, ext.eEnd⟩,
          ⟨ext.eStart, val, if B = [] then u else bₘ.2.erUnitSize, app⟩) ::
        ((if ext.eEnd < recEnd bₘ then
            [rightRec app (if B = [] then u else bₘ.2.erUnitSize) ext.eEnd bₘ] else []) ++ C) := by
  have hP := c.tiles
  have h₁ : pieceAt recStart recEnd P ext.eStart = some b₁ :=
    hP.pieceAt_eq c.mem_b₁ c.start_le c.lt_end
  have hₘ : pieceAt recStart recEnd P (ext.eEnd - 1) = some bₘ := by
    have := c.start_lt
    have := c.le_end
    exact hP.pieceAt_eq c.mem_bₘ (by omega) (by omega)
  have huR : (if b₁.1 = bₘ.1 then u else bₘ.2.erUnitSize) =
      if B = [] then u else bₘ.2.erUnitSize := by
    simp only [c.key_eq_iff]
  rw [pasteRecs, h₁, hₘ]
  simp only
  rw [huR, c.filter_before, c.filter_after]

/-- The pieces after the cut tile what the overlapped segments tiled. -/
lemma PasteCut.tiles_pasted (c : PasteCut a N ext.eStart ext.eEnd P A B C b₁ bₘ)
    (app : List UInt8) (val u uR : Nat) :
    Tiles recStart recEnd a N
      (A ++ (if recStart b₁ < ext.eStart then [leftRec app u ext.eStart b₁] else []) ++
        (⟨b₁.1.ekPrefix, ext.eEnd⟩, ⟨ext.eStart, val, uR, app⟩) ::
        ((if ext.eEnd < recEnd bₘ then [rightRec app uR ext.eEnd bₘ] else []) ++ C)) := by
  -- the left part tiles `[start b₁, es)`, the right part `[ee, end bₘ)`
  have hL : Tiles recStart recEnd (recStart b₁) ext.eStart
      (if recStart b₁ < ext.eStart then [leftRec app u ext.eStart b₁] else []) := by
    split
    next h => exact ⟨rfl, h, rfl⟩
    next h => exact le_antisymm c.start_le (not_lt.mp h)
  have hR : Tiles recStart recEnd ext.eEnd (recEnd bₘ)
      (if ext.eEnd < recEnd bₘ then [rightRec app uR ext.eEnd bₘ] else []) := by
    split
    next h => exact ⟨rfl, h, rfl⟩
    next h => exact le_antisymm c.le_end (not_lt.mp h)
  rw [List.append_assoc]
  refine tiles_append.mpr ⟨_, c.tiles_A, tiles_append.mpr ⟨_, hL, ?_⟩⟩
  exact ⟨rfl, c.lt, tiles_append.mpr ⟨_, hR, c.tiles_C⟩⟩

/-- **Pasting into a tiling gives a tiling** of the same interval. -/
theorem pasteRecs_tiles (hP : Tiles recStart recEnd a N P) (has : a ≤ ext.eStart)
    (hext : ext.eStart < ext.eEnd) (hee : ext.eEnd ≤ N) :
    Tiles recStart recEnd a N (pasteRecs ext val u app P) := by
  obtain ⟨A, B, C, b₁, bₘ, c⟩ := PasteCut.of_tiles hP has hext hee
  rw [pasteRecs_eq c]
  exact c.tiles_pasted app val u _

/-- **Every offset of the extent is in the new segment**, of value `val`. -/
theorem pieceAt_pasteRecs_inside (hP : Tiles recStart recEnd a N P) (has : a ≤ ext.eStart)
    (hext : ext.eStart < ext.eEnd) (hee : ext.eEnd ≤ N) {p : Nat}
    (hp : ∀ s ∈ P, s.1.ekPrefix = p) :
    ∃ uR, ∀ x, ext.eStart ≤ x → x < ext.eEnd →
      pieceAt recStart recEnd (pasteRecs ext val u app P) x =
        some (⟨p, ext.eEnd⟩, ⟨ext.eStart, val, uR, app⟩) := by
  obtain ⟨A, B, C, b₁, bₘ, c⟩ := PasteCut.of_tiles hP has hext hee
  have hpt := c.tiles_pasted app val u (if B = [] then u else bₘ.2.erUnitSize)
  refine ⟨if B = [] then u else bₘ.2.erUnitSize, fun x hx hx' => ?_⟩
  rw [pasteRecs_eq c, hpt.pieceAt_eq (List.mem_append_right _ List.mem_cons_self) hx hx',
    hp b₁ c.mem_b₁]

/-- The segment a tiling cut finds at the extent's start is the one `pieceAt` finds. -/
lemma PasteCut.pieceAt_start (c : PasteCut a N ext.eStart ext.eEnd P A B C b₁ bₘ) :
    pieceAt recStart recEnd P ext.eStart = some b₁ :=
  c.tiles.pieceAt_eq c.mem_b₁ c.start_le c.lt_end

/-- The segment a tiling cut finds at the extent's last offset is the one `pieceAt` finds. -/
lemma PasteCut.pieceAt_last (c : PasteCut a N ext.eStart ext.eEnd P A B C b₁ bₘ) :
    pieceAt recStart recEnd P (ext.eEnd - 1) = some bₘ := by
  have := c.start_lt
  have := c.le_end
  exact c.tiles.pieceAt_eq c.mem_bₘ (by omega) (by omega)

/-- **The part left of the extent** is what is left of the segment that held its start. -/
theorem pieceAt_pasteRecs_left (hP : Tiles recStart recEnd a N P) (has : a ≤ ext.eStart)
    (hext : ext.eStart < ext.eEnd) (hee : ext.eEnd ≤ N)
    (hb₁ : pieceAt recStart recEnd P ext.eStart = some b₁) (hl : recStart b₁ < ext.eStart) :
    pieceAt recStart recEnd (pasteRecs ext val u app P) (ext.eStart - 1) =
      some (leftRec app u ext.eStart b₁) := by
  obtain ⟨A, B, C, b₁', bₘ, c⟩ := PasteCut.of_tiles hP has hext hee
  obtain rfl : b₁' = b₁ := Option.some.inj (c.pieceAt_start.symm.trans hb₁)
  have hpt := c.tiles_pasted app val u (if B = [] then u else bₘ.2.erUnitSize)
  rw [pasteRecs_eq c]
  exact hpt.pieceAt_eq (by simp [hl]) (by rw [recStart_leftRec]; omega)
    (by rw [recEnd_leftRec]; omega)

/-- **The part right of the extent** is what is left of the segment that held its last
offset, of the unit size `pasteRecs` gives it. -/
theorem pieceAt_pasteRecs_right (hP : Tiles recStart recEnd a N P) (has : a ≤ ext.eStart)
    (hext : ext.eStart < ext.eEnd) (hee : ext.eEnd ≤ N)
    (hb₁ : pieceAt recStart recEnd P ext.eStart = some b₁)
    (hbₘ : pieceAt recStart recEnd P (ext.eEnd - 1) = some bₘ) (hr : ext.eEnd < recEnd bₘ) :
    pieceAt recStart recEnd (pasteRecs ext val u app P) ext.eEnd =
      some (rightRec app (if b₁.1 = bₘ.1 then u else bₘ.2.erUnitSize) ext.eEnd bₘ) := by
  obtain ⟨A, B, C, b₁', bₘ', c⟩ := PasteCut.of_tiles hP has hext hee
  obtain rfl : b₁' = b₁ := Option.some.inj (c.pieceAt_start.symm.trans hb₁)
  obtain rfl : bₘ' = bₘ := Option.some.inj (c.pieceAt_last.symm.trans hbₘ)
  have huR : (if b₁'.1 = bₘ'.1 then u else bₘ'.2.erUnitSize) =
      if B = [] then u else bₘ'.2.erUnitSize := by
    simp only [c.key_eq_iff]
  have hpt := c.tiles_pasted app val u (if B = [] then u else bₘ'.2.erUnitSize)
  rw [huR, pasteRecs_eq c]
  exact hpt.pieceAt_eq (by simp [hr]) (by rw [recStart_rightRec]) (by rwa [recEnd_rightRec])

/-- **Every other offset is in what is left of its old segment**, with the old value: the
part left of the extent for an offset before it, the part right of it for one after. -/
theorem pieceAt_pasteRecs_outside (hP : Tiles recStart recEnd a N P) (has : a ≤ ext.eStart)
    (hext : ext.eStart < ext.eEnd) (hee : ext.eEnd ≤ N) {x : Nat} (hax : a ≤ x) (hxN : x < N)
    (hx : x < ext.eStart ∨ ext.eEnd ≤ x) :
    ∃ s s', pieceAt recStart recEnd P x = some s ∧
      pieceAt recStart recEnd (pasteRecs ext val u app P) x = some s' ∧
      s'.1.ekPrefix = s.1.ekPrefix ∧ s'.2.erValue = s.2.erValue ∧
      recStart s' = (if x < ext.eStart then recStart s else max (recStart s) ext.eEnd) ∧
      recEnd s' = (if x < ext.eStart then min (recEnd s) ext.eStart else recEnd s) := by
  obtain ⟨A, B, C, b₁, bₘ, c⟩ := PasteCut.of_tiles hP has hext hee
  have hpt := c.tiles_pasted app val u (if B = [] then u else bₘ.2.erUnitSize)
  rw [pasteRecs_eq c]
  have h₁ := c.start_le
  have h₁' := c.lt_end
  have hₘ := c.start_lt
  have hₘ' := c.le_end
  by_cases hxe : x < ext.eStart
  · by_cases hx₁ : x < recStart b₁
    · -- a segment before the cut, kept whole
      obtain ⟨A₁, s, A₂, hA, -, hs, hs', -⟩ := c.tiles_A.split hax hx₁
      have hmem : s ∈ A := by simp [hA]
      have hend := (c.tiles_A.mem hmem).2.2
      refine ⟨s, s, hP.pieceAt_eq (c.mem_A hmem) hs hs', hpt.pieceAt_eq (by simp [hmem]) hs hs',
        rfl, rfl, ?_, ?_⟩
      · rw [if_pos hxe]
      · rw [if_pos hxe]
        omega
    · -- the part of `b₁` left of the extent
      have hl : recStart b₁ < ext.eStart := by omega
      refine ⟨b₁, leftRec app u ext.eStart b₁, hP.pieceAt_eq c.mem_b₁ (by omega) (by omega),
        hpt.pieceAt_eq (by simp [hl]) (by simpa using not_lt.mp hx₁) (by simpa using hxe),
        rfl, rfl, ?_, ?_⟩
      · rw [if_pos hxe, recStart_leftRec]
      · rw [if_pos hxe, recEnd_leftRec]
        omega
  · have hxe' : ext.eEnd ≤ x := hx.resolve_left hxe
    by_cases hxₘ : x < recEnd bₘ
    · -- the part of `bₘ` right of the extent
      have hr : ext.eEnd < recEnd bₘ := by omega
      refine ⟨bₘ, rightRec app (if B = [] then u else bₘ.2.erUnitSize) ext.eEnd bₘ,
        hP.pieceAt_eq c.mem_bₘ (by omega) hxₘ,
        hpt.pieceAt_eq (by simp [hr]) (by simpa using hxe') (by simpa using hxₘ),
        rfl, rfl, ?_, ?_⟩
      · rw [if_neg hxe, recStart_rightRec]
        omega
      · rw [if_neg hxe, recEnd_rightRec]
    · -- a segment after the cut, kept whole
      obtain ⟨C₁, s, C₂, hC, -, hs, hs', -⟩ := c.tiles_C.split (not_lt.mp hxₘ) hxN
      have hmem : s ∈ C := by simp [hC]
      have hstart := (c.tiles_C.mem hmem).1
      refine ⟨s, s, hP.pieceAt_eq (c.mem_C hmem) hs hs', hpt.pieceAt_eq (by simp [hmem]) hs hs',
        rfl, rfl, ?_, ?_⟩
      · rw [if_neg hxe]
        omega
      · rw [if_neg hxe]

end Pasted

end Motr
