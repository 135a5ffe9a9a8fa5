import Motr.Be.Regmap
import Motr.Lib.SortedKV

/-!
What the region map does (`be/tx_regmap.c`), as operations on the sorted list of its regions.

A tree that keeps `m0_be_rdt__invariant` is a list of valid regions each of which ends at or
before the start of every later one (`RdtSorted`, `m0BeRdtInvariant_iff`). On such a list:

* `beRdtFindI_eq`: the binary search of `be_rdt_find_i` finds the number of regions that end at
  or before the address (`rdtIndex`), the one index `be_rdt_check_i` accepts
  (`beRdtCheckI_iff`);
* `m0BeRdtIns_eq`, `m0BeRdtDel_eq`: `m0_be_rdt_ins` puts a region at that index, and
  `m0_be_rdt_del` takes the region out of its place;
* `m0BeRegmapDel_eq`: `m0_be_regmap_del` of the extent `[b, e)` replaces each region by what is
  left of it outside the extent (`delPiece`), except that a region that holds the extent with
  room on both sides is kept whole;
* `m0BeRegmapAdd_spec`: `m0_be_regmap_add` then puts the copy of the new region where the extent
  was; a region that held it with room on both sides is split in two around it.

What the map says of a byte is `rdtView`: where the copy of the region that holds it has it, and
the generation of that region. The ops of the map are `BeRegmapOps.Lawful` when they move the
copy of a region with the region: a cut moves the start of the copy by the bytes cut off the
start, a split gives the new region the rest of the copy, and an add changes only where the copy
is. With such ops, `m0BeRegmapDel_spec` and `m0BeRegmapAdd_spec` say what the two calls do to
the view, and `beRdtFindI_spec` what the search under both finds.
-/

namespace Motr

/-! ### Regions -/

section RegD

/-- The end of a region: `be_reg_d_lb1` of a non-empty one. -/
def BeRegD.rdEnd (r : BeRegD) : ℕ := r.addr + r.size

@[simp] lemma m0BeRegDIsIn_iff (r : BeRegD) (p : ℕ) :
    m0BeRegDIsIn r p = true ↔ r.addr ≤ p ∧ p < r.rdEnd := by
  unfold m0BeRegDIsIn m0ExtIsIn regdExt
  exact decide_eq_true_iff

@[simp] lemma beRegDIsPartof_iff (s r : BeRegD) :
    beRegDIsPartof s r = true ↔ s.addr ≤ r.addr ∧ r.addr < s.rdEnd ∧ r.rdEnd ≤ s.rdEnd := by
  unfold beRegDIsPartof m0ExtIsPartof m0ExtIsIn regdExt
  rw [Bool.and_eq_true, decide_eq_true_iff, decide_eq_true_iff, and_assoc]
  rfl

@[simp] lemma beRegDAreOverlapping_iff (r r' : BeRegD) :
    beRegDAreOverlapping r r' = true ↔ max r.addr r'.addr < min r.rdEnd r'.rdEnd := by
  simp [beRegDAreOverlapping, m0ExtAreOverlapping, m0ExtIsValid, m0ExtIntersection, regdExt,
    BeRegD.rdEnd]

@[simp] lemma beRegDAreOverlapping_eq_false_iff (r r' : BeRegD) :
    beRegDAreOverlapping r r' = false ↔ min r.rdEnd r'.rdEnd ≤ max r.addr r'.addr := by
  rw [← Bool.not_eq_true, beRegDAreOverlapping_iff, not_lt]

@[simp] lemma m0BeRegDInvariant_iff (r : BeRegD) :
    m0BeRegDInvariant r = true ↔ r.addr ≠ 0 ∧ 0 < r.size := by
  simp [m0BeRegDInvariant]

@[simp] lemma m0BeRegEq_iff (r r' : BeRegD) :
    m0BeRegEq r r' = true ↔ r.size = r'.size ∧ r.addr = r'.addr := by
  simp [m0BeRegEq]

@[simp] lemma beRegDFb_eq (r : BeRegD) : beRegDFb r = r.addr := rfl

@[simp] lemma beRegDSize_eq (r : BeRegD) : beRegDSize r = r.size := rfl

lemma beRegDLb1_eq {r : BeRegD} (h : 0 < r.size) : beRegDLb1 r = r.rdEnd := by
  simp only [beRegDLb1, beRegDLb, BeRegD.rdEnd]
  omega

lemma beRegDLb_eq (r : BeRegD) : beRegDLb r = r.rdEnd - 1 := rfl

lemma beRegDFb1_eq (r : BeRegD) : beRegDFb1 r = r.addr - 1 := rfl

end RegD

/-! ### The tree as a sorted list -/

section Sorted

/-- The regions of a tree that keeps `m0_be_rdt__invariant`: each is valid and ends at or
before the start of every later one. -/
structure RdtSorted (rs : List BeRegD) : Prop where
  valid : ∀ r ∈ rs, m0BeRegDInvariant r = true
  sorted : rs.Pairwise fun r r' => r.rdEnd ≤ r'.addr

instance (rs : List BeRegD) : Decidable (RdtSorted rs) :=
  decidable_of_iff ((∀ r ∈ rs, m0BeRegDInvariant r = true) ∧
      rs.Pairwise fun r r' => r.rdEnd ≤ r'.addr)
    ⟨fun h => ⟨h.1, h.2⟩, fun h => ⟨h.1, h.2⟩⟩

@[simp] lemma rdtSorted_nil : RdtSorted [] := ⟨by simp, List.Pairwise.nil⟩

lemma rdtSorted_cons {x : BeRegD} {rs : List BeRegD} :
    RdtSorted (x :: rs) ↔ m0BeRegDInvariant x = true ∧ (∀ r ∈ rs, x.rdEnd ≤ r.addr) ∧
      RdtSorted rs := by
  constructor
  · rintro ⟨hv, hs⟩
    rw [List.pairwise_cons] at hs
    exact ⟨hv x (by simp), hs.1, fun r hr => hv r (by simp [hr]), hs.2⟩
  · rintro ⟨hx, hxs, hv, hs⟩
    refine ⟨?_, List.pairwise_cons.mpr ⟨hxs, hs⟩⟩
    intro r hr
    rcases List.mem_cons.mp hr with rfl | hr
    · exact hx
    · exact hv r hr

lemma rdtSorted_append {rs rs' : List BeRegD} :
    RdtSorted (rs ++ rs') ↔ RdtSorted rs ∧ RdtSorted rs' ∧
      ∀ r ∈ rs, ∀ r' ∈ rs', r.rdEnd ≤ r'.addr := by
  constructor
  · rintro ⟨hv, hs⟩
    rw [List.pairwise_append] at hs
    exact ⟨⟨fun r hr => hv r (by simp [hr]), hs.1⟩, ⟨fun r hr => hv r (by simp [hr]), hs.2.1⟩,
      hs.2.2⟩
  · rintro ⟨⟨hv, hs⟩, ⟨hv', hs'⟩, h⟩
    refine ⟨fun r hr => ?_, List.pairwise_append.mpr ⟨hs, hs', h⟩⟩
    rcases List.mem_append.mp hr with hr | hr
    · exact hv r hr
    · exact hv' r hr

lemma RdtSorted.sublist {rs rs' : List BeRegD} (h : RdtSorted rs) (hsub : rs'.Sublist rs) :
    RdtSorted rs' :=
  ⟨fun r hr => h.valid r (hsub.subset hr), h.sorted.sublist hsub⟩

/-- A valid region that starts where the regions before it have ended and ends where the
regions after it start keeps a tree sorted. -/
lemma RdtSorted.insert_append {P Q : List BeRegD} (h : RdtSorted (P ++ Q)) {x : BeRegD}
    (hx : m0BeRegDInvariant x = true) (hP : ∀ r ∈ P, r.rdEnd ≤ x.addr)
    (hQ : ∀ r ∈ Q, x.rdEnd ≤ r.addr) : RdtSorted (P ++ x :: Q) := by
  obtain ⟨hP', hQ', hPQ⟩ := rdtSorted_append.mp h
  refine rdtSorted_append.mpr ⟨hP', rdtSorted_cons.mpr ⟨hx, hQ, hQ'⟩, fun r hr r' hr' => ?_⟩
  rcases List.mem_cons.mp hr' with rfl | hr'
  · exact hP r hr
  · exact hPQ r hr r' hr'

lemma RdtSorted.size_pos {rs : List BeRegD} (h : RdtSorted rs) {r : BeRegD} (hr : r ∈ rs) :
    0 < r.size :=
  ((m0BeRegDInvariant_iff r).mp (h.valid r hr)).2

lemma RdtSorted.addr_lt_rdEnd {rs : List BeRegD} (h : RdtSorted rs) {r : BeRegD} (hr : r ∈ rs) :
    r.addr < r.rdEnd := by
  have := h.size_pos hr
  simp only [BeRegD.rdEnd]
  omega

/-- The order and overlap part of `m0_be_rdt__invariant`, on adjacent regions, is the order of
`RdtSorted` on all pairs. -/
lemma isChain_iff_rdtSorted {rs : List BeRegD} (hv : ∀ r ∈ rs, m0BeRegDInvariant r = true) :
    rs.IsChain (fun r r' => r.addr < r'.addr ∧ beRegDAreOverlapping r r' = false) ↔
      RdtSorted rs := by
  induction rs with
  | nil => simp
  | cons x t ih =>
    have hvt : ∀ r ∈ t, m0BeRegDInvariant r = true := fun r hr => hv r (by simp [hr])
    have hx := (m0BeRegDInvariant_iff x).mp (hv x (by simp))
    rw [List.isChain_cons, ih hvt, rdtSorted_cons]
    constructor
    · rintro ⟨hhead, ht⟩
      refine ⟨hv x (by simp), ?_, ht⟩
      cases t with
      | nil => simp
      | cons y t =>
        have hy := (m0BeRegDInvariant_iff y).mp (hvt y (by simp))
        have hxy := hhead y rfl
        have hxy' : x.rdEnd ≤ y.addr := by
          have := (beRegDAreOverlapping_eq_false_iff x y).mp hxy.2
          simp only [BeRegD.rdEnd] at this ⊢
          omega
        intro r hr
        rcases List.mem_cons.mp hr with rfl | hr
        · exact hxy'
        · have := (rdtSorted_cons.mp ht).2.1 r hr
          simp only [BeRegD.rdEnd] at *
          omega
    · rintro ⟨-, hxs, ht⟩
      refine ⟨fun y hy => ?_, ht⟩
      have hyt : y ∈ t := List.mem_of_mem_head? hy
      have hxy := hxs y hyt
      refine ⟨by simp only [BeRegD.rdEnd] at hxy; omega, ?_⟩
      rw [beRegDAreOverlapping_eq_false_iff]
      simp only [BeRegD.rdEnd] at hxy ⊢
      omega

lemma m0BeRdtInvariant_iff (rdt : BeRegDTree) :
    m0BeRdtInvariant rdt ↔ m0BeRdtSize rdt ≤ rdt.brtSizeMax ∧ RdtSorted rdt.brtR := by
  constructor
  · rintro ⟨hsize, hv, hc⟩
    exact ⟨hsize, (isChain_iff_rdtSorted hv).mp hc⟩
  · rintro ⟨hsize, hs⟩
    exact ⟨hsize, hs.valid, (isChain_iff_rdtSorted hs.valid).mpr hs⟩

end Sorted

/-! ### `be_rdt_find_i` -/

section Find

/-- The number of regions that end at or before `a`: the index at which `a` is in a sorted
tree. -/
def rdtIndex (rs : List BeRegD) (a : ℕ) : ℕ := rs.countP fun r => r.rdEnd ≤ a

variable {rs : List BeRegD} {a : ℕ}

lemma rdtIndex_le_length (rs : List BeRegD) (a : ℕ) : rdtIndex rs a ≤ rs.length :=
  List.countP_le_length

lemma RdtSorted.rdEnd_le_addr (h : RdtSorted rs) {i j : ℕ} (hij : i < j) (hj : j < rs.length) :
    rs[i].rdEnd ≤ rs[j].addr :=
  List.pairwise_iff_getElem.mp h.sorted i j (by omega) hj hij

/-- The ends of the regions of a sorted tree increase. -/
lemma RdtSorted.ends_increasing (h : RdtSorted rs) : (rs.map BeRegD.rdEnd).Pairwise (· < ·) := by
  rw [List.pairwise_map]
  exact h.sorted.imp_of_mem fun _ hr' hle => lt_of_le_of_lt hle (h.addr_lt_rdEnd hr')

/-- The regions before the index end at or before `a`; those from it on end after `a`. -/
lemma lt_rdtIndex_iff (h : RdtSorted rs) {j : ℕ} (hj : j < rs.length) :
    j < rdtIndex rs a ↔ rs[j].rdEnd ≤ a := by
  have hm : j < (rs.map BeRegD.rdEnd).length := by simpa using hj
  have hk : rdtIndex rs a = (rs.map BeRegD.rdEnd).countP fun x => decide (x ≤ a) := by
    rw [List.countP_map]
    rfl
  rw [hk]
  constructor
  · intro hlt
    simpa using getElem_of_lt_countP h.ends_increasing (le_closed_down a) hm hlt
  · intro hle
    exact lt_countP_of_getElem h.ends_increasing (le_closed_down a) hm (by simpa using hle)

lemma rdtIndex_le_of_lt_rdEnd (h : RdtSorted rs) {j : ℕ} (hj : j < rs.length)
    (ha : a < rs[j].rdEnd) : rdtIndex rs a ≤ j :=
  Nat.le_of_not_lt fun hlt => absurd ((lt_rdtIndex_iff h hj).mp hlt) (Nat.not_le.mpr ha)

/-- `be_rdt_check_i` accepts exactly the index of `a`. -/
theorem beRdtCheckI_iff {rdt : BeRegDTree} (h : RdtSorted rdt.brtR) (i : ℕ) :
    beRdtCheckI rdt a i = true ↔ i = rdtIndex rdt.brtR a := by
  obtain ⟨rs, m⟩ := rdt
  dsimp only at h ⊢
  -- `m0_be_rdt_size` is unfolded everywhere first, in the decidability instances too
  unfold beRdtCheckI m0BeRdtSize
  simp only [Bool.or_eq_true, Bool.and_eq_true, beq_iff_eq, bne_iff_ne, ne_eq,
    Bool.not_eq_true', decide_eq_true_eq, ← Bool.not_eq_true, m0BeRegDIsIn_iff, BeRegD.rdEnd]
  have hk := rdtIndex_le_length rs a
  constructor
  · rintro (⟨hn, rfl⟩ | ⟨hn, (((⟨⟨rfl, hin⟩, hgt⟩ | ⟨rfl, hin⟩) | ⟨hi, hin⟩) |
      ⟨⟨⟨⟨hi, hpos⟩, hin⟩, hlt⟩, hgt⟩)⟩)
    · -- the empty tree
      simp [List.length_eq_zero_iff.mp hn, rdtIndex]
    · -- past the last region: it ends at or before `a`
      have hl : rs.length - 1 < rs.length := by omega
      rw [List.getD_eq_getElem _ _ hl] at hin hgt
      have : rs.length - 1 < rdtIndex rs a :=
        (lt_rdtIndex_iff h hl).mpr (by simp only [BeRegD.rdEnd]; omega)
      omega
    · -- before the end of the first region
      have h0 : 0 < rs.length := by omega
      rw [List.getD_eq_getElem _ _ h0] at hin
      have : rdtIndex rs a ≤ 0 := rdtIndex_le_of_lt_rdEnd h h0 (by simp only [BeRegD.rdEnd]; omega)
      omega
    · -- inside the region at `i`, which starts after the one before it ends
      rw [List.getD_eq_getElem _ _ hi] at hin
      have h₁ : rdtIndex rs a ≤ i := rdtIndex_le_of_lt_rdEnd h hi (by simp only [BeRegD.rdEnd]; omega)
      rcases Nat.eq_zero_or_pos i with rfl | hpos
      · omega
      · have := (lt_rdtIndex_iff h (by omega : i - 1 < rs.length)).mpr
          (le_trans (h.rdEnd_le_addr (by omega) hi) hin.1)
        omega
    · -- between the region before `i` and the one at `i`
      rw [List.getD_eq_getElem _ _ hi] at hlt
      rw [List.getD_eq_getElem _ _ (by omega : i - 1 < rs.length)] at hin hgt
      have h₁ : rdtIndex rs a ≤ i := rdtIndex_le_of_lt_rdEnd h hi
        (lt_of_lt_of_le hlt (le_of_lt (h.addr_lt_rdEnd (List.getElem_mem hi))))
      have : i - 1 < rdtIndex rs a := (lt_rdtIndex_iff h (by omega : i - 1 < rs.length)).mpr
        (by simp only [BeRegD.rdEnd]; omega)
      omega
  · rintro rfl
    by_cases hn : rs.length = 0
    · exact Or.inl ⟨hn, by simp [List.length_eq_zero_iff.mp hn, rdtIndex]⟩
    refine Or.inr ⟨hn, ?_⟩
    by_cases hkn : rdtIndex rs a = rs.length
    · -- every region ends at or before `a`
      have hl : rs.length - 1 < rs.length := by omega
      have hend := (lt_rdtIndex_iff h hl).mp (show rs.length - 1 < rdtIndex rs a by omega)
      have hpos := h.addr_lt_rdEnd (List.getElem_mem hl)
      rw [List.getD_eq_getElem _ _ hl]
      simp only [BeRegD.rdEnd] at hend hpos
      exact Or.inl (Or.inl (Or.inl ⟨⟨hkn, by omega⟩, by omega⟩))
    have hklt : rdtIndex rs a < rs.length := by omega
    have hend : a < rs[rdtIndex rs a].rdEnd :=
      Nat.lt_of_not_le fun hle => by have := (lt_rdtIndex_iff h hklt).mpr hle; omega
    simp only [BeRegD.rdEnd] at hend
    by_cases hin : rs[rdtIndex rs a].addr ≤ a
    · -- inside the region at the index
      rw [List.getD_eq_getElem _ _ hklt]
      exact Or.inl (Or.inr ⟨hklt, hin, hend⟩)
    by_cases hk0 : rdtIndex rs a = 0
    · -- before the first region
      have h0 : 0 < rs.length := by omega
      rw [List.getD_eq_getElem _ _ h0]
      simp only [hk0] at hin
      exact Or.inl (Or.inl (Or.inr ⟨hk0, Or.inr (by omega)⟩))
    · -- between the region before the index and the one at it
      have hprev := (lt_rdtIndex_iff h (by omega : rdtIndex rs a - 1 < rs.length)).mp
        (show rdtIndex rs a - 1 < rdtIndex rs a by omega)
      have hpos := h.addr_lt_rdEnd (List.getElem_mem (by omega : rdtIndex rs a - 1 < rs.length))
      rw [List.getD_eq_getElem _ _ hklt,
        List.getD_eq_getElem _ _ (by omega : rdtIndex rs a - 1 < rs.length)]
      simp only [BeRegD.rdEnd] at hprev hpos
      exact Or.inr ⟨⟨⟨⟨hklt, by omega⟩, by omega⟩, by omega⟩, by omega⟩

/-- The loop of `be_rdt_find_i` keeps the index of `a` between its two ends, and stops with
them adjacent or equal. -/
lemma beRdtFindILoop_spec (h : RdtSorted rs) {b e : ℕ} (hb : b ≤ rdtIndex rs a)
    (he : rdtIndex rs a ≤ e) (hn : e ≤ rs.length) :
    (beRdtFindILoop rs a b e).1 ≤ rdtIndex rs a ∧ rdtIndex rs a ≤ (beRdtFindILoop rs a b e).2 ∧
      (beRdtFindILoop rs a b e).2 ≤ (beRdtFindILoop rs a b e).1 + 1 := by
  fun_induction beRdtFindILoop rs a b e with
  | case1 b e hlt mid hmid ih =>
    -- the region in the middle starts before `a`: so do all those before it end
    have hm : mid < rs.length := by omega
    rw [List.getD_eq_getElem _ _ hm] at hmid
    refine ih (Nat.le_of_not_lt fun hk => ?_) he hn
    have hend : rs[rdtIndex rs a].rdEnd ≤ rs[mid].addr := h.rdEnd_le_addr hk hm
    have := (lt_rdtIndex_iff h (by omega : rdtIndex rs a < rs.length)).mpr
      (show rs[rdtIndex rs a].rdEnd ≤ a by omega)
    omega
  | case2 b e hlt mid hmid ih =>
    -- the region in the middle starts at or after `a`: it ends after `a`
    have hm : mid < rs.length := by omega
    rw [List.getD_eq_getElem _ _ hm] at hmid
    have hpos := h.addr_lt_rdEnd (List.getElem_mem hm)
    exact ih hb (rdtIndex_le_of_lt_rdEnd h hm (by omega)) (by omega)
  | case3 b e hlt => exact ⟨hb, he, by omega⟩

/-- `be_rdt_find_i` on a sorted tree: the binary search finds the index of `a`, the number of
regions that end at or before it; its assertion and its postcondition
`be_rdt_check_i(rdt, addr, res)` hold. -/
theorem beRdtFindI_eq {rdt : BeRegDTree} (h : RdtSorted rdt.brtR) (a : ℕ) :
    beRdtFindI rdt a = some (rdtIndex rdt.brtR a) ∧ beRdtCheckI rdt a (rdtIndex rdt.brtR a) := by
  obtain ⟨h₁, h₂, h₃⟩ := beRdtFindILoop_spec h (Nat.zero_le (rdtIndex rdt.brtR a))
    (rdtIndex_le_length rdt.brtR a) le_rfl
  have hk := rdtIndex_le_length rdt.brtR a
  refine ⟨?_, (beRdtCheckI_iff h _).mpr rfl⟩
  simp only [beRdtFindI, beRdtCheckI_iff h, m0BeRdtSize]
  -- the index is one of the two ends the loop leaves
  set k := rdtIndex rdt.brtR a
  set p := beRdtFindILoop rdt.brtR a 0 rdt.brtR.length
  by_cases hp : p.2 = k
  · simp [hp, hk]
  · have hp1 : p.1 = k := by omega
    simp [hp, hp1, hk]

/-- **`be_rdt_find_i` on a sorted tree** is a binary search for the first region that ends
after the address: the regions before the index it returns end at or before the address, the
others after it, and the index is the one `be_rdt_check_i` accepts. -/
theorem beRdtFindI_spec {rdt : BeRegDTree} (h : RdtSorted rdt.brtR) (a : ℕ) :
    ∃ i ≤ rdt.brtR.length, beRdtFindI rdt a = some i ∧
      (∀ j, beRdtCheckI rdt a j = true ↔ j = i) ∧
      ∀ j (hj : j < rdt.brtR.length), j < i ↔ rdt.brtR[j].rdEnd ≤ a :=
  ⟨rdtIndex rdt.brtR a, rdtIndex_le_length _ _, (beRdtFindI_eq h a).1, beRdtCheckI_iff h,
    fun _ hj => lt_rdtIndex_iff h hj⟩

theorem beRdtFindI_spec_two :
    RdtSorted [⟨10, 5, 1, 0⟩, ⟨20, 5, 6, 0⟩] ∧
      ∃ i ≤ 2, beRdtFindI ⟨[⟨10, 5, 1, 0⟩, ⟨20, 5, 6, 0⟩], 3⟩ 22 = some i ∧
        (∀ j, beRdtCheckI ⟨[⟨10, 5, 1, 0⟩, ⟨20, 5, 6, 0⟩], 3⟩ 22 j = true ↔ j = i) ∧
        ∀ j (hj : j < 2), j < i ↔ ([⟨10, 5, 1, 0⟩, ⟨20, 5, 6, 0⟩] : List BeRegD)[j].rdEnd ≤ 22 :=
  have h : RdtSorted [⟨10, 5, 1, 0⟩, ⟨20, 5, 6, 0⟩] := by decide
  ⟨h, @beRdtFindI_spec ⟨[⟨10, 5, 1, 0⟩, ⟨20, 5, 6, 0⟩], 3⟩ h 22⟩

end Find

/-! ### Finding, inserting and deleting -/

section TreeOps

variable {rs : List BeRegD} {a : ℕ}

/-- The index of `a` in a list whose first part ends at or before `a` and whose rest ends
after it is the length of the first part. -/
lemma rdtIndex_append {L M : List BeRegD} (hL : ∀ r ∈ L, r.rdEnd ≤ a)
    (hM : ∀ r ∈ M, a < r.rdEnd) : rdtIndex (L ++ M) a = L.length := by
  rw [rdtIndex, List.countP_append, List.countP_eq_length.mpr (by simpa using hL),
    List.countP_eq_zero.mpr (by simpa using hM)]
  rfl

lemma rdEnd_le_of_mem_take (h : RdtSorted rs) {r : BeRegD} (hr : r ∈ rs.take (rdtIndex rs a)) :
    r.rdEnd ≤ a := by
  obtain ⟨j, hj, rfl⟩ := List.mem_iff_getElem.mp hr
  have hj' : j < rdtIndex rs a := by simp at hj; omega
  rw [List.getElem_take]
  exact (lt_rdtIndex_iff h (by simp at hj; omega)).mp hj'

lemma lt_rdEnd_of_mem_drop (h : RdtSorted rs) {r : BeRegD} (hr : r ∈ rs.drop (rdtIndex rs a)) :
    a < r.rdEnd := by
  obtain ⟨j, hj, rfl⟩ := List.mem_iff_getElem.mp hr
  rw [List.getElem_drop]
  have hlt : rdtIndex rs a + j < rs.length := by simp at hj; omega
  exact Nat.lt_of_not_le fun hle => by
    have := (lt_rdtIndex_iff h hlt).mpr hle
    omega

/-- `m0_be_rdt_find` on a sorted tree: the region at the index of `a`, `NULL` past the last. -/
lemma m0BeRdtFind_eq {rdt : BeRegDTree} (h : RdtSorted rdt.brtR) (a : ℕ) :
    m0BeRdtFind rdt a = some (if rdtIndex rdt.brtR a = rdt.brtR.length then none
      else some (rdtIndex rdt.brtR a)) := by
  unfold m0BeRdtFind m0BeRdtSize
  simp [(beRdtFindI_eq h a).1]

/-- A sorted tree in two around an address: the regions that end at or before it, as many as
its index, and those that end after it. -/
lemma RdtSorted.exists_split (h : RdtSorted rs) (a : ℕ) :
    ∃ L M, rs = L ++ M ∧ rdtIndex rs a = L.length ∧ (∀ r ∈ L, r.rdEnd ≤ a) ∧
      ∀ r ∈ M, a < r.rdEnd :=
  ⟨_, _, (List.take_append_drop (rdtIndex rs a) rs).symm, by simp [rdtIndex_le_length rs a],
    fun _ hr => rdEnd_le_of_mem_take h hr, fun _ hr => lt_rdEnd_of_mem_drop h hr⟩

lemma m0BeRdtFind_append {L M : List BeRegD} {m : ℕ} (h : RdtSorted (L ++ M))
    (hL : ∀ r ∈ L, r.rdEnd ≤ a) (hM : ∀ r ∈ M, a < r.rdEnd) :
    m0BeRdtFind ⟨L ++ M, m⟩ a = some (if M = [] then none else some L.length) := by
  rw [@m0BeRdtFind_eq ⟨L ++ M, m⟩ h a, rdtIndex_append hL hM]
  simp

lemma m0BeRdtNext_eq {rdt : BeRegDTree} {i : ℕ} (hi : i < rdt.brtR.length) :
    m0BeRdtNext rdt i = some (if i + 1 = rdt.brtR.length then none else some (i + 1)) := by
  unfold m0BeRdtNext m0BeRdtSize
  rw [if_pos hi]
  by_cases hlast : i + 1 = rdt.brtR.length
  · rw [if_pos hlast, if_pos (by omega)]
  · rw [if_neg hlast, if_neg (by omega)]

lemma insertIdx_length_append {α : Type} (P Q : List α) (x : α) :
    (P ++ Q).insertIdx P.length x = P ++ x :: Q := by
  induction P with
  | nil => simp [List.insertIdx_zero]
  | cons y P ih => simp [List.insertIdx_succ_cons, ih]

lemma eraseIdx_length_append {α : Type} (P Q : List α) (x : α) :
    (P ++ x :: Q).eraseIdx P.length = P ++ Q := by
  rw [List.eraseIdx_append_of_length_le le_rfl, Nat.sub_self, List.eraseIdx_cons_zero]

/-- `m0_be_rdt_ins` of a valid region that overlaps no region of a sorted tree with a free
slot: the region goes at its index. -/
theorem m0BeRdtIns_eq {rdt : BeRegDTree} {x : BeRegD} (h : RdtSorted rdt.brtR)
    (hx : m0BeRegDInvariant x = true) (hsize : m0BeRdtSize rdt < rdt.brtSizeMax) :
    m0BeRdtIns rdt x = some { rdt with brtR := (rdt.brtR.take (rdtIndex rdt.brtR x.addr) ++
      x :: rdt.brtR.drop (rdtIndex rdt.brtR x.addr)) } := by
  have hpos := ((m0BeRegDInvariant_iff x).mp hx).2
  have hk := rdtIndex_le_length rdt.brtR x.addr
  have hins := insertIdx_length_append (rdt.brtR.take (rdtIndex rdt.brtR x.addr))
    (rdt.brtR.drop (rdtIndex rdt.brtR x.addr)) x
  rw [List.take_append_drop, List.length_take, min_eq_left hk] at hins
  simp [m0BeRdtIns, hsize, hpos, (beRdtFindI_eq h _).1, hins]

/-- A valid region that overlaps no region of a sorted tree keeps it sorted when it is put at
its index. -/
lemma RdtSorted.insert (h : RdtSorted rs) {x : BeRegD} (hx : m0BeRegDInvariant x = true)
    (hfree : ∀ r ∈ rs, r.rdEnd ≤ x.addr ∨ x.rdEnd ≤ r.addr) :
    RdtSorted (rs.take (rdtIndex rs x.addr) ++ x :: rs.drop (rdtIndex rs x.addr)) := by
  -- the regions before the index end at or before `x`; those from it on end after its start,
  -- so, being free of it, start after its end
  refine RdtSorted.insert_append (by rwa [List.take_append_drop]) hx
    (fun r hr => rdEnd_le_of_mem_take h hr) fun r hr => ?_
  exact (hfree r (List.mem_of_mem_drop hr)).resolve_left
    (Nat.not_le.mpr (lt_rdEnd_of_mem_drop h hr))

/-- `m0_be_rdt_del` of a region of a sorted tree takes it out of its place; what follows it
is returned. -/
theorem m0BeRdtDel_eq {P R : List BeRegD} {x : BeRegD} {m : ℕ} (h : RdtSorted (P ++ x :: R)) :
    m0BeRdtDel ⟨P ++ x :: R, m⟩ x =
      some (⟨P ++ R, m⟩, if R = [] then none else some P.length) := by
  obtain ⟨hP, hxR, hPxR⟩ := rdtSorted_append.mp h
  obtain ⟨-, hxs, hR⟩ := rdtSorted_cons.mp hxR
  have hx := hxR.addr_lt_rdEnd (List.mem_cons_self)
  have hidx : rdtIndex (P ++ x :: R) x.addr = P.length := by
    refine rdtIndex_append (fun r hr => hPxR r hr x List.mem_cons_self) fun r hr => ?_
    rcases List.mem_cons.mp hr with rfl | hr
    · exact hx
    · exact lt_of_lt_of_le hx (le_trans (hxs r hr) (le_of_lt (hR.addr_lt_rdEnd hr)))
  have hlen : P.length < (P ++ x :: R).length := by simp
  have hget : (P ++ x :: R).getD P.length default = x := by
    rw [List.getD_append_right _ _ _ _ le_rfl, Nat.sub_self]
    rfl
  have hfind : beRdtFindI ⟨P ++ x :: R, m⟩ (beRegDFb x) = some P.length := by
    rw [(@beRdtFindI_eq ⟨P ++ x :: R, m⟩ h _).1]
    exact congrArg some hidx
  unfold m0BeRdtDel
  simp only [m0BeRdtSize, hfind, hget, eraseIdx_length_append, Option.bind_eq_bind,
    Option.bind_some, m0BeRegEq_iff, and_self, Option.pure_def]
  simp

/-- `m0_be_rdt_ins` of a valid region between the regions that end at or before its start and
those that end after it, in a sorted tree with a free slot. -/
lemma m0BeRdtIns_append {P Q : List BeRegD} {x : BeRegD} {m : ℕ} (h : RdtSorted (P ++ Q))
    (hx : m0BeRegDInvariant x = true) (hP : ∀ r ∈ P, r.rdEnd ≤ x.addr)
    (hQ : ∀ r ∈ Q, x.addr < r.rdEnd) (hsize : (P ++ Q).length < m) :
    m0BeRdtIns ⟨P ++ Q, m⟩ x = some ⟨P ++ x :: Q, m⟩ := by
  have hpos := ((m0BeRegDInvariant_iff x).mp hx).2
  have hfind : beRdtFindI ⟨P ++ Q, m⟩ (beRegDFb x) = some P.length := by
    rw [(@beRdtFindI_eq ⟨P ++ Q, m⟩ h _).1]
    exact congrArg some (rdtIndex_append hP hQ)
  unfold m0BeRdtIns
  rw [if_pos ⟨hsize, hpos⟩, hfind]
  simp [insertIdx_length_append]

end TreeOps

/-! ### `m0_be_regmap_del` -/

/-- Ops that move the copy of a region with the region: a cut moves the start of the copy by
the bytes cut off the start (`be_reg_area_cut`), a split gives the new region the rest of the
copy and the generation (`be_reg_area_split`), a delete changes nothing (`be_reg_area_del`),
and an add changes only where the copy is. -/
structure BeRegmapOps.Lawful {α : Type} (ops : BeRegmapOps α) : Prop where
  cut : ∀ d rd s e, ops.rmoCut d rd s e = some (d, { rd with buf := rd.buf + s })
  del : ∀ d rd, ops.rmoDel d rd = some d
  split : ∀ d rd rdNew, ops.rmoSplit d rd rdNew =
    some (d, { rdNew with buf := rd.buf + rd.size, genIdx := rd.genIdx })
  add : ∀ d rd d' rd', ops.rmoAdd d rd = some (d', rd') → rd' = { rd with buf := rd'.buf }

/-- The ops of both kinds of reg area move the copy of a region with the region. -/
lemma beRegAreaOps_lawful (type : BeRegAreaType) : (beRegAreaOps type).Lawful where
  cut _ _ _ _ := by cases type <;> rfl
  del _ _ := by cases type <;> rfl
  split _ _ _ := by cases type <;> rfl
  add d rd d' rd' h := by
    cases type with
    | dataCopy =>
      simp only [beRegAreaOps, beRegAreaOpsDataCopy, beRegAreaAddCopy] at h
      split_ifs at h
      cases h
      rfl
    | dataNocopy =>
      simp only [beRegAreaOps, beRegAreaOpsDataNocopy, beRegAreaAdd] at h
      split_ifs at h
      cases h
      rfl

/-- What `m0_be_regmap_del` of the extent `[b, e)` leaves of the region `r`: all of it when
they do not overlap, or when `r` holds the extent with room on both sides; its part before `b`;
its part from `e` on, with its copy; nothing when the extent covers it. -/
def delPiece (b e : ℕ) (r : BeRegD) : Option BeRegD :=
  if r.rdEnd ≤ b ∨ e ≤ r.addr then some r
  else if r.addr < b then
    if e < r.rdEnd then some r else some { r with size := b - r.addr }
  else if r.rdEnd ≤ e then none
  else some { r with addr := e, size := r.rdEnd - e, buf := r.buf + (e - r.addr) }

section Map

variable {α : Type} {ops : BeRegmapOps α} {b e : ℕ}

lemma delPiece_of_rdEnd_le {r : BeRegD} (h : r.rdEnd ≤ b) : delPiece b e r = some r := by
  simp [delPiece, h]

lemma delPiece_of_le_addr {r : BeRegD} (h : e ≤ r.addr) : delPiece b e r = some r := by
  simp [delPiece, h]

/-- A region the extent covers is deleted. -/
lemma delPiece_of_covered {r : BeRegD} (hr : 0 < r.size) (hb : b ≤ r.addr)
    (he : r.rdEnd ≤ e) : delPiece b e r = none := by
  simp only [delPiece]
  rw [if_neg (by simp only [BeRegD.rdEnd] at *; omega),
    if_neg (by simp only [BeRegD.rdEnd] at *; omega), if_pos he]

/-- A region that holds the extent with room on both sides is kept whole. -/
lemma delPiece_of_inside {r : BeRegD} (hb : r.addr < b) (he : e < r.rdEnd) :
    delPiece b e r = some r := by
  by_cases hbe : r.rdEnd ≤ b ∨ e ≤ r.addr
  · simp [delPiece, hbe]
  · simp [delPiece, hbe, hb, he]

lemma delPiece_of_cutEnd {r : BeRegD} (hb : r.addr < b) (hbe : b < r.rdEnd) (he : r.rdEnd ≤ e) :
    delPiece b e r = some { r with size := b - r.addr } := by
  simp only [delPiece]
  rw [if_neg (by omega), if_pos hb, if_neg (by omega)]

lemma delPiece_of_cutStart {r : BeRegD} (hb : b ≤ r.addr) (he : r.addr < e) (hre : e < r.rdEnd) :
    delPiece b e r =
      some { r with addr := e, size := r.rdEnd - e, buf := r.buf + (e - r.addr) } := by
  simp only [delPiece]
  rw [if_neg (by omega), if_neg (by omega), if_neg (by omega)]

/-- The regions before the extent are kept. -/
lemma filterMap_delPiece_of_rdEnd_le {L : List BeRegD} (hL : ∀ r ∈ L, r.rdEnd ≤ b) :
    L.filterMap (delPiece b e) = L := by
  induction L with
  | nil => rfl
  | cons x L ih =>
    rw [List.filterMap_cons, delPiece_of_rdEnd_le (hL x List.mem_cons_self),
      ih fun r hr => hL r (List.mem_cons_of_mem x hr)]

/-- The regions after the extent are kept. -/
lemma filterMap_delPiece_of_le_addr {L : List BeRegD} (hL : ∀ r ∈ L, e ≤ r.addr) :
    L.filterMap (delPiece b e) = L := by
  induction L with
  | nil => rfl
  | cons x L ih =>
    rw [List.filterMap_cons, delPiece_of_le_addr (hL x List.mem_cons_self),
      ih fun r hr => hL r (List.mem_cons_of_mem x hr)]

/-- The regions of `rd` are deleted: the regions at the start of a list that `rd` covers leave
nothing. -/
lemma filterMap_delPiece_dropWhile (rd : BeRegD) {T : List BeRegD}
    (hT : ∀ r ∈ T, 0 < r.size) :
    T.filterMap (delPiece rd.addr rd.rdEnd) =
      (T.dropWhile (beRegDIsPartof rd)).filterMap (delPiece rd.addr rd.rdEnd) := by
  induction T with
  | nil => rfl
  | cons x T ih =>
    by_cases hx : beRegDIsPartof rd x = true
    · obtain ⟨hb, -, he⟩ := (beRegDIsPartof_iff rd x).mp hx
      rw [List.filterMap_cons,
        delPiece_of_covered (hT x List.mem_cons_self) hb he, List.dropWhile_cons_of_pos hx]
      exact ih fun r hr => hT r (List.mem_cons_of_mem x hr)
    · rw [List.dropWhile_cons_of_neg hx]

/-- `be_regmap_reg_d_cut` with lawful ops. -/
lemma beRegmapRegDCut_eq (hops : ops.Lawful) (d : α) {rd : BeRegD}
    (hv : m0BeRegDInvariant rd = true) {cutStart cutEnd : ℕ} (hc : cutStart + cutEnd < rd.size) :
    beRegmapRegDCut ops d rd cutStart cutEnd = some (d,
      { rd with addr := rd.addr + cutStart, size := rd.size - cutStart - cutEnd,
                buf := rd.buf + cutStart }) := by
  simp [beRegmapRegDCut, hv, hc, hops.cut]

/-- The loop of `m0_be_regmap_del`, started at the first region of `T`, deletes the regions at
the start of `T` that `rd` covers. -/
lemma beRegmapDelLoop_eq (hops : ops.Lawful) (rd : BeRegD) {P T : List BeRegD}
    (h : RdtSorted (P ++ T)) (m : ℕ) (d : α) :
    beRegmapDelLoop ops rd ⟨P ++ T, m⟩ d (if T = [] then none else some P.length) =
      some (⟨P ++ T.dropWhile (beRegDIsPartof rd), m⟩, d,
        if T.dropWhile (beRegDIsPartof rd) = [] then none else some P.length) := by
  induction T with
  | nil => simp [beRegmapDelLoop]
  | cons x T ih =>
    have hget : (P ++ x :: T).getD P.length default = x := by
      rw [List.getD_append_right _ _ _ _ le_rfl, Nat.sub_self]
      rfl
    rw [if_neg (List.cons_ne_nil x T), beRegmapDelLoop]
    simp only [hget]
    by_cases hx : beRegDIsPartof rd x = true
    · -- `x` is covered: `rmo_del`, then `m0_be_rdt_del`, then on from the region after it
      have hPT : RdtSorted (P ++ T) :=
        h.sublist (List.Sublist.append_left (List.sublist_cons_self x T) P)
      have hdel : m0BeRdtDel ⟨P ++ x :: T, m⟩ x =
          some (⟨P ++ T, m⟩, if T = [] then none else some P.length) :=
        m0BeRdtDel_eq h
      rw [if_pos hx]
      split
      next d' rdt' next hd hdel' =>
        rw [hget, hdel, Option.some.injEq, Prod.mk.injEq] at hdel'
        rw [hops.del, Option.some.injEq] at hd
        obtain ⟨rfl, rfl⟩ := hdel'
        rw [← hd, List.dropWhile_cons_of_pos hx]
        exact ih hPT
      next _ hfail => exact (hfail d _ _ (hops.del d x) (by rw [hget]; exact hdel)).elim
    · rw [if_neg hx, List.dropWhile_cons_of_neg hx]
      simp

/-- A region of a sorted tree may be replaced by a valid part of it. -/
lemma RdtSorted.replace {P R : List BeRegD} {x x' : BeRegD} (h : RdtSorted (P ++ x :: R))
    (hv : m0BeRegDInvariant x' = true) (hlo : x.addr ≤ x'.addr) (hhi : x'.rdEnd ≤ x.rdEnd) :
    RdtSorted (P ++ x' :: R) := by
  obtain ⟨hP, hxR, hPxR⟩ := rdtSorted_append.mp h
  obtain ⟨-, hxs, hR⟩ := rdtSorted_cons.mp hxR
  refine rdtSorted_append.mpr ⟨hP, rdtSorted_cons.mpr ⟨hv, fun r hr => le_trans hhi (hxs r hr),
    hR⟩, fun r hr r' hr' => ?_⟩
  rcases List.mem_cons.mp hr' with rfl | hr'
  · exact le_trans (hPxR r hr x List.mem_cons_self) hlo
  · exact hPxR r hr r' (List.mem_cons_of_mem x hr')

lemma getD_length_append (P R : List BeRegD) (x : BeRegD) :
    (P ++ x :: R).getD P.length default = x := by
  rw [List.getD_append_right _ _ _ _ le_rfl, Nat.sub_self]
  rfl

/-- The first step of `m0_be_regmap_del` when the region in which `rd` starts begins before it
and ends within it: its end is cut off, and the walk goes on after it. -/
lemma beRegmapDelFirst_of_cut (hops : ops.Lawful) (d : α) {rd : BeRegD}
    (hrd : m0BeRegDInvariant rd = true) {L M : List BeRegD} {r : BeRegD} {m : ℕ}
    (h : RdtSorted (L ++ r :: M)) (hb : r.addr < rd.addr) (hbr : rd.addr < r.rdEnd)
    (he : r.rdEnd ≤ rd.rdEnd) :
    beRegmapDelFirst ops ⟨L ++ r :: M, m⟩ d rd (some L.length) =
      some (⟨L ++ { r with size := rd.addr - r.addr } :: M, m⟩, d,
        if M = [] then none else some (L.length + 1)) := by
  have hpos : 0 < rd.size := ((m0BeRegDInvariant_iff rd).mp hrd).2
  have hr := h.valid r (List.mem_append_right L List.mem_cons_self)
  have hcond : (m0BeRegDIsIn r (beRegDFb rd) && !m0BeRegDIsIn r (beRegDLb1 rd) &&
      !beRegDIsPartof rd r) = true := by
    simp only [beRegDLb1_eq hpos, Bool.and_eq_true, Bool.not_eq_true', beRegDFb_eq,
      m0BeRegDIsIn_iff, ← Bool.not_eq_true, beRegDIsPartof_iff]
    simp only [BeRegD.rdEnd] at hb hbr he ⊢
    omega
  have hcut : beRegmapRegDCut ops d r 0 (beRegDSize r - (beRegDFb rd - beRegDFb r)) =
      some (d, { r with size := rd.addr - r.addr }) := by
    rw [beRegmapRegDCut_eq hops d hr (by simp only [BeRegD.rdEnd] at *; simp; omega)]
    congr 3
    simp only [BeRegD.rdEnd] at *
    simp
    omega
  have hnext : m0BeRdtNext ⟨L ++ { r with size := rd.addr - r.addr } :: M, m⟩ L.length =
      some (if M = [] then none else some (L.length + 1)) := by
    rw [m0BeRdtNext_eq (by simp)]
    simp
  simp only [beRegmapDelFirst, getD_length_append, hcond, if_true, hcut, Option.bind_eq_bind,
    Option.bind_some, set_length_append, hnext, Option.pure_def]

/-- The first step of `m0_be_regmap_del` otherwise: nothing is cut. -/
lemma beRegmapDelFirst_of_not_cut (d : α) {rd : BeRegD} (hrd : m0BeRegDInvariant rd = true)
    {L M : List BeRegD} {r : BeRegD} {m : ℕ} (hnot : ¬(r.addr < rd.addr ∧ r.rdEnd ≤ rd.rdEnd)) :
    beRegmapDelFirst ops ⟨L ++ r :: M, m⟩ d rd (some L.length) =
      some (⟨L ++ r :: M, m⟩, d, some L.length) := by
  have hpos : 0 < rd.size := ((m0BeRegDInvariant_iff rd).mp hrd).2
  have hcond : (m0BeRegDIsIn r (beRegDFb rd) && !m0BeRegDIsIn r (beRegDLb1 rd) &&
      !beRegDIsPartof rd r) = false := by
    rw [Bool.eq_false_iff]
    intro hc
    simp only [beRegDLb1_eq hpos, Bool.and_eq_true, Bool.not_eq_true', beRegDFb_eq,
      m0BeRegDIsIn_iff, ← Bool.not_eq_true, beRegDIsPartof_iff] at hc
    simp only [BeRegD.rdEnd] at *
    omega
  simp only [beRegmapDelFirst, getD_length_append, hcond]
  rfl

/-- The last step of `m0_be_regmap_del`, at the first region the walk kept: its start is cut
off when it begins within `rd`, and the regions after it are past `rd`; so every region from
there on is what `delPiece` leaves of it. -/
lemma beRegmapDelLast_eq (hops : ops.Lawful) (d : α) {rd : BeRegD}
    (hrd : m0BeRegDInvariant rd = true) {P Q : List BeRegD} {m : ℕ} (h : RdtSorted (P ++ Q))
    (hQ : ∀ x Q', Q = x :: Q' → beRegDIsPartof rd x = false ∧ rd.addr < x.rdEnd ∧
      (rd.addr ≤ x.addr ∨ rd.rdEnd < x.rdEnd)) :
    beRegmapDelLast ops ⟨P ++ Q, m⟩ d rd (if Q = [] then none else some P.length) =
      some (⟨P ++ Q.filterMap (delPiece rd.addr rd.rdEnd), m⟩, d) := by
  obtain ⟨hb0, hpos⟩ := (m0BeRegDInvariant_iff rd).mp hrd
  cases Q with
  | nil => simp [beRegmapDelLast]
  | cons x Q' =>
    obtain ⟨hxp, hbx, hx⟩ := hQ x Q' rfl
    obtain ⟨-, hxQ, hsQ⟩ := rdtSorted_append.mp h
    obtain ⟨hxv, hxs, -⟩ := rdtSorted_cons.mp hxQ
    have hxpos := hxQ.size_pos List.mem_cons_self
    have hxp' := hxp
    rw [← Bool.not_eq_true, beRegDIsPartof_iff] at hxp'
    -- `x` ends past `rd` unless it ends before `rd`'s end with `rd` covering it, so the
    -- regions after `x` are past `rd`
    have hxe : rd.rdEnd < x.rdEnd ∨ rd.rdEnd ≤ x.addr := by
      simp only [BeRegD.rdEnd] at *
      omega
    have hQ' : Q'.filterMap (delPiece rd.addr rd.rdEnd) = Q' :=
      filterMap_delPiece_of_le_addr fun r hr => by
        have := hxs r hr
        simp only [BeRegD.rdEnd] at *
        omega
    rw [if_neg (List.cons_ne_nil x Q'), List.filterMap_cons, hQ']
    simp only [beRegmapDelLast, getD_length_append]
    by_cases hcut : rd.addr ≤ x.addr ∧ x.addr < rd.rdEnd
    · -- `x` begins within `rd` and ends after it: its start is cut off
      have hcond : (!m0BeRegDIsIn x (beRegDFb1 rd) && m0BeRegDIsIn x (beRegDLb rd)) = true := by
        simp only [beRegDFb1_eq, beRegDLb_eq, Bool.and_eq_true, Bool.not_eq_true',
          ← Bool.not_eq_true, m0BeRegDIsIn_iff]
        simp only [BeRegD.rdEnd] at *
        omega
      have hre : rd.rdEnd < x.rdEnd := by simp only [BeRegD.rdEnd] at *; omega
      rw [if_pos hcond, beRegmapRegDCut_eq hops d hxv (by
        simp only [beRegDSize_eq, beRegDLb_eq, BeRegD.rdEnd] at *; omega),
        delPiece_of_cutStart hcut.1 hcut.2 hre]
      simp only [Option.bind_eq_bind, Option.bind_some, Option.pure_def, Option.some.injEq,
        Prod.mk.injEq, and_true, set_length_append]
      simp only [beRegDSize_eq, beRegDLb_eq, BeRegD.rdEnd] at *
      congr 4 <;> omega
    · -- `x` is past `rd`, or holds it with room on both sides: it is kept
      have hcond : (!m0BeRegDIsIn x (beRegDFb1 rd) && m0BeRegDIsIn x (beRegDLb rd)) = false := by
        rw [Bool.eq_false_iff]
        intro hc
        simp only [beRegDFb1_eq, beRegDLb_eq, Bool.and_eq_true, Bool.not_eq_true',
          ← Bool.not_eq_true, m0BeRegDIsIn_iff] at hc
        simp only [BeRegD.rdEnd] at *
        omega
      have hkeep : delPiece rd.addr rd.rdEnd x = some x := by
        rcases Nat.lt_or_ge x.addr rd.addr with hlt | hge
        · exact delPiece_of_inside hlt (by simp only [BeRegD.rdEnd] at *; omega)
        · exact delPiece_of_le_addr (by simp only [BeRegD.rdEnd] at *; omega)
      rw [hcond, hkeep]
      rfl

/-- The head of what is left after dropping a prefix fails the test. -/
lemma not_of_dropWhile_eq_cons {p : BeRegD → Bool} {T Q' : List BeRegD} {x : BeRegD}
    (h : T.dropWhile p = x :: Q') : p x = false := by
  have hne : T.dropWhile p ≠ [] := by rw [h]; exact List.cons_ne_nil x Q'
  have := List.head_dropWhile_not p hne
  simp only [h, List.head_cons] at this
  simpa using this

/-- `m0_be_regmap_del` of a valid region from a sorted map with lawful ops: every region is
replaced by what `delPiece` leaves of it, and the state of the ops is unchanged. -/
theorem m0BeRegmapDel_eq (hops : ops.Lawful) {rm : BeRegmap} (d : α) {rd : BeRegD}
    (h : RdtSorted rm.brRdt.brtR) (hrd : m0BeRegDInvariant rd = true) :
    m0BeRegmapDel ops rm d rd = some ({ rm with brRdt := { rm.brRdt with
      brtR := rm.brRdt.brtR.filterMap (delPiece rd.addr rd.rdEnd) } }, d) := by
  obtain ⟨⟨rs, m⟩, soa⟩ := rm
  dsimp only at h ⊢
  obtain ⟨hb0, hpos⟩ := (m0BeRegDInvariant_iff rd).mp hrd
  -- the regions before the index of `rd`'s first byte are kept
  obtain ⟨L, M, rfl, -, hL, hM⟩ := h.exists_split rd.addr
  have hfind := @m0BeRdtFind_append rd.addr L M m h hL hM
  rw [List.filterMap_append, filterMap_delPiece_of_rdEnd_le hL]
  unfold m0BeRegmapDel
  rw [if_pos hrd]
  simp only [beRegmapFindFb, beRegDFb_eq, hfind, Option.bind_eq_bind, Option.bind_some]
  cases M with
  | nil =>
    -- no region ends after the first byte of `rd`
    simp [beRegmapDelFirst, beRegmapDelLoop, beRegmapDelLast]
  | cons r M =>
    have hr := hM r List.mem_cons_self
    have hMsorted := (rdtSorted_append.mp h).2.1
    have hafter : ∀ x ∈ M, rd.addr ≤ x.addr := fun x hx => by
      have := (rdtSorted_cons.mp hMsorted).2.1 x hx
      omega
    have hsizes : ∀ x ∈ r :: M, 0 < x.size := fun x hx => hMsorted.size_pos hx
    rw [if_neg (List.cons_ne_nil r M)]
    by_cases hfirst : r.addr < rd.addr ∧ r.rdEnd ≤ rd.rdEnd
    · -- the region in which `rd` starts ends within it: its end is cut off
      set r' : BeRegD := { r with size := rd.addr - r.addr } with hr'
      have hr'v : m0BeRegDInvariant r' = true := by
        have := (m0BeRegDInvariant_iff r).mp (hMsorted.valid r List.mem_cons_self)
        simp only [m0BeRegDInvariant_iff, r']
        omega
      have h' : RdtSorted ((L ++ [r']) ++ M) := by
        rw [List.append_assoc, List.singleton_append]
        exact h.replace hr'v le_rfl (by simp only [BeRegD.rdEnd, r'] at *; omega)
      have hloop := beRegmapDelLoop_eq hops rd h' m d
      rw [List.append_assoc, List.singleton_append, List.length_append, List.length_singleton]
        at hloop
      have hlast := @beRegmapDelLast_eq α ops hops d rd hrd (L ++ [r'])
        (M.dropWhile (beRegDIsPartof rd)) m (h'.sublist (List.Sublist.append_left (List.dropWhile_sublist _) _)) fun x Q' hQ => by
          have hxM : x ∈ M := (List.dropWhile_sublist _).subset (by rw [hQ]; exact List.mem_cons_self)
          exact ⟨not_of_dropWhile_eq_cons hQ, hM x (List.mem_cons_of_mem r hxM),
            Or.inl (hafter x hxM)⟩
      rw [List.length_append, List.length_singleton] at hlast
      rw [beRegmapDelFirst_of_cut hops d hrd h hfirst.1 hr hfirst.2, Option.bind_some,
        List.filterMap_cons, delPiece_of_cutEnd hfirst.1 hr hfirst.2, ← hr', hloop,
        Option.bind_some, hlast, Option.bind_some,
        filterMap_delPiece_dropWhile rd fun x hx => hsizes x (List.mem_cons_of_mem r hx)]
      simp
    · -- otherwise the walk starts at that region
      have hloop := beRegmapDelLoop_eq hops rd h m d
      rw [if_neg (List.cons_ne_nil r M)] at hloop
      have hlast := @beRegmapDelLast_eq α ops hops d rd hrd L
        ((r :: M).dropWhile (beRegDIsPartof rd)) m (h.sublist (List.Sublist.append_left (List.dropWhile_sublist _) _)) fun x Q' hQ => by
          have hxM : x ∈ r :: M :=
            (List.dropWhile_sublist _).subset (by rw [hQ]; exact List.mem_cons_self)
          refine ⟨not_of_dropWhile_eq_cons hQ, hM x hxM, ?_⟩
          rcases List.mem_cons.mp hxM with rfl | hxM
          · omega
          · exact Or.inl (hafter x hxM)
      rw [beRegmapDelFirst_of_not_cut d hrd hfirst, Option.bind_some]
      simp only [hloop, Option.bind_some, hlast, Option.pure_def, Option.some.injEq, Prod.mk.injEq,
        and_true]
      rw [← filterMap_delPiece_dropWhile rd hsizes]

end Map

/-! ### The map as a partial function from bytes to their copies -/

/-- Where the copy of the byte at `a` is, and its generation: read from the region of the map
that holds `a`, if any. -/
def rdtView (rs : List BeRegD) (a : ℕ) : Option (ℕ × ℕ) :=
  (rs.find? fun r => m0BeRegDIsIn r a).map fun r => (r.buf + (a - r.addr), r.genIdx)

/-- Some region of the map holds the extent `rd` with room on both sides. -/
def rdtAbsorbs (rs : List BeRegD) (rd : BeRegD) : Prop :=
  ∃ r ∈ rs, r.addr < rd.addr ∧ rd.rdEnd < r.rdEnd

instance (rs : List BeRegD) (rd : BeRegD) : Decidable (rdtAbsorbs rs rd) :=
  inferInstanceAs (Decidable (∃ r ∈ rs, r.addr < rd.addr ∧ rd.rdEnd < r.rdEnd))

section View

variable {rs : List BeRegD} {a : ℕ}

/-- In a sorted map the region that holds `a` gives the view of `a`. -/
lemma rdtView_eq_of_mem (h : RdtSorted rs) {r : BeRegD} (hr : r ∈ rs)
    (ha : r.addr ≤ a ∧ a < r.rdEnd) : rdtView rs a = some (r.buf + (a - r.addr), r.genIdx) := by
  induction rs with
  | nil => simp at hr
  | cons x rs ih =>
    obtain ⟨-, hxs, hs⟩ := rdtSorted_cons.mp h
    by_cases hx : x.addr ≤ a ∧ a < x.rdEnd
    · -- `x` holds `a`, so it is `r`: a later region starts at or after the end of `x`
      have hxr : x = r := by
        rcases List.mem_cons.mp hr with rfl | hr
        · rfl
        · have := hxs r hr
          omega
      subst hxr
      simp [rdtView, hx]
    · have hr' : r ∈ rs := by
        rcases List.mem_cons.mp hr with rfl | hr
        · exact absurd ha hx
        · exact hr
      have hxa : m0BeRegDIsIn x a = false := by
        rw [← Bool.not_eq_true, m0BeRegDIsIn_iff]
        exact hx
      simpa [rdtView, List.find?_cons, hxa] using ih hs hr'

/-- No region holds `a`: it has no view. -/
lemma rdtView_eq_none (h : ∀ r ∈ rs, ¬(r.addr ≤ a ∧ a < r.rdEnd)) : rdtView rs a = none := by
  simp only [rdtView, Option.map_eq_none_iff, List.find?_eq_none, m0BeRegDIsIn_iff]
  exact h

/-- Two regions of a sorted map that hold the same byte are one. -/
lemma RdtSorted.eq_of_mem (h : RdtSorted rs) {r r' : BeRegD} (hr : r ∈ rs) (hr' : r' ∈ rs)
    (ha : r.addr ≤ a ∧ a < r.rdEnd) (ha' : r'.addr ≤ a ∧ a < r'.rdEnd) : r = r' := by
  induction rs with
  | nil => simp at hr
  | cons x rs ih =>
    obtain ⟨-, hxs, hs⟩ := rdtSorted_cons.mp h
    rcases List.mem_cons.mp hr with hxr | hrt
    · rcases List.mem_cons.mp hr' with hxr' | hrt'
      · rw [hxr, hxr']
      · have := hxs r' hrt'
        subst hxr
        omega
    · rcases List.mem_cons.mp hr' with hxr' | hrt'
      · have := hxs r hrt
        subst hxr'
        omega
      · exact ih hs hrt hrt'

/-- What `delPiece` leaves of a region: the region itself when it does not meet the extent or
holds it with room on both sides, its part before the extent, or its part after it. -/
lemma delPiece_eq_some_cases {b e : ℕ} {r p : BeRegD} (hp : delPiece b e r = some p) :
    (p = r ∧ (r.rdEnd ≤ b ∨ e ≤ r.addr ∨ (r.addr < b ∧ e < r.rdEnd))) ∨
    (p = { r with size := b - r.addr } ∧ r.addr < b ∧ b < r.rdEnd ∧ r.rdEnd ≤ e) ∨
    (p = { r with addr := e, size := r.rdEnd - e, buf := r.buf + (e - r.addr) } ∧
      b ≤ r.addr ∧ r.addr < e ∧ e < r.rdEnd) := by
  unfold delPiece at hp
  by_cases h₁ : r.rdEnd ≤ b ∨ e ≤ r.addr
  · rw [if_pos h₁, Option.some.injEq] at hp
    exact Or.inl ⟨hp.symm, by omega⟩
  rw [if_neg h₁] at hp
  by_cases h₂ : r.addr < b
  · rw [if_pos h₂] at hp
    by_cases h₃ : e < r.rdEnd
    · rw [if_pos h₃, Option.some.injEq] at hp
      exact Or.inl ⟨hp.symm, Or.inr (Or.inr ⟨h₂, h₃⟩)⟩
    · rw [if_neg h₃, Option.some.injEq] at hp
      exact Or.inr (Or.inl ⟨hp.symm, h₂, by omega, by omega⟩)
  · rw [if_neg h₂] at hp
    by_cases h₃ : r.rdEnd ≤ e
    · rw [if_pos h₃] at hp
      cases hp
    · rw [if_neg h₃, Option.some.injEq] at hp
      exact Or.inr (Or.inr ⟨hp.symm, by omega, by omega, by omega⟩)

/-- A piece is a part of its region, and holds each of its bytes where the region did. -/
lemma delPiece_part {b e : ℕ} {r p : BeRegD} (hb : 0 < b) (hp : delPiece b e r = some p) :
    r.addr ≤ p.addr ∧ p.rdEnd ≤ r.rdEnd ∧ (p.addr ≠ 0 ∨ p.addr = r.addr) ∧
      (0 < r.size → 0 < p.size) ∧ p.genIdx = r.genIdx ∧
      ∀ a, p.addr ≤ a → p.buf + (a - p.addr) = r.buf + (a - r.addr) := by
  rcases delPiece_eq_some_cases hp with ⟨rfl, -⟩ | ⟨rfl, h₁, h₂, h₃⟩ | ⟨rfl, h₁, h₂, h₃⟩
  · simp
  · simp only [BeRegD.rdEnd] at h₁ h₂ h₃
    refine ⟨le_rfl, ?_, Or.inr rfl, fun _ => show 0 < b - r.addr by omega, rfl, fun _ _ => rfl⟩
    show r.addr + (b - r.addr) ≤ r.addr + r.size
    omega
  · simp only [BeRegD.rdEnd] at h₁ h₂ h₃
    refine ⟨show r.addr ≤ e by omega, ?_, Or.inl (show e ≠ 0 by omega),
      fun _ => show 0 < r.addr + r.size - e by omega, rfl, fun a ha => ?_⟩
    · show e + (r.addr + r.size - e) ≤ r.addr + r.size
      omega
    · change e ≤ a at ha
      show r.buf + (e - r.addr) + (a - e) = r.buf + (a - r.addr)
      omega

/-- The pieces `delPiece` leaves of a sorted map are sorted. -/
lemma RdtSorted.filterMap_delPiece (h : RdtSorted rs) {b e : ℕ} (hb : 0 < b) :
    RdtSorted (rs.filterMap (delPiece b e)) := by
  refine ⟨fun p hp => ?_, ?_⟩
  · obtain ⟨r, hr, hrp⟩ := List.mem_filterMap.mp hp
    obtain ⟨-, -, h0, hsize, -⟩ := delPiece_part hb hrp
    have hv := (m0BeRegDInvariant_iff r).mp (h.valid r hr)
    rw [m0BeRegDInvariant_iff]
    refine ⟨?_, hsize hv.2⟩
    rcases h0 with h0 | h0
    · exact h0
    · rw [h0]
      exact hv.1
  · refine h.sorted.filterMap (delPiece b e) fun r r' hrr' p hp p' hp' => ?_
    obtain ⟨-, hp₁, -⟩ := delPiece_part hb (Option.mem_def.mp hp)
    obtain ⟨hp'₁, -⟩ := delPiece_part hb (Option.mem_def.mp hp')
    omega

/-- A byte of a region that the deleted extent does not take stays in the piece of it, with
its copy where it was. -/
lemma delPiece_holds {b e : ℕ} {r : BeRegD} (ha : r.addr ≤ a ∧ a < r.rdEnd)
    (hout : ¬(b ≤ a ∧ a < e) ∨ (r.addr < b ∧ e < r.rdEnd)) :
    ∃ p, delPiece b e r = some p ∧ (p.addr ≤ a ∧ a < p.rdEnd) ∧
      p.buf + (a - p.addr) = r.buf + (a - r.addr) ∧ p.genIdx = r.genIdx := by
  unfold delPiece
  by_cases h₁ : r.rdEnd ≤ b ∨ e ≤ r.addr
  · exact ⟨r, by rw [if_pos h₁], ha, rfl, rfl⟩
  rw [if_neg h₁]
  by_cases h₂ : r.addr < b
  · rw [if_pos h₂]
    by_cases h₃ : e < r.rdEnd
    · exact ⟨r, by rw [if_pos h₃], ha, rfl, rfl⟩
    · -- the part before the extent, where `a` is
      rw [if_neg h₃]
      refine ⟨_, rfl, ⟨ha.1, ?_⟩, rfl, rfl⟩
      simp only [BeRegD.rdEnd] at *
      omega
  · rw [if_neg h₂]
    by_cases h₃ : r.rdEnd ≤ e
    · exfalso
      omega
    · -- the part after the extent, where `a` is
      rw [if_neg h₃]
      refine ⟨_, rfl, ⟨show e ≤ a by omega, ?_⟩, ?_, rfl⟩
      · simp only [BeRegD.rdEnd] at *
        omega
      · show r.buf + (e - r.addr) + (a - e) = r.buf + (a - r.addr)
        omega

/-- The view of the pieces `m0_be_regmap_del` leaves: the bytes of the extent have no copy any
more, unless a region holds the extent with room on both sides; every other byte keeps its
copy. -/
theorem rdtView_filterMap_delPiece (h : RdtSorted rs) {rd : BeRegD}
    (hrd : m0BeRegDInvariant rd = true) (a : ℕ) :
    rdtView (rs.filterMap (delPiece rd.addr rd.rdEnd)) a =
      if rd.addr ≤ a ∧ a < rd.rdEnd ∧ ¬rdtAbsorbs rs rd then none else rdtView rs a := by
  have hb : 0 < rd.addr := Nat.pos_of_ne_zero ((m0BeRegDInvariant_iff rd).mp hrd).1
  have hF : RdtSorted (rs.filterMap (delPiece rd.addr rd.rdEnd)) := h.filterMap_delPiece hb
  split_ifs with hin
  · -- no piece holds a byte of the extent
    apply rdtView_eq_none
    intro p hp hpa
    obtain ⟨r, hr, hrp⟩ := List.mem_filterMap.mp hp
    rcases delPiece_eq_some_cases hrp with ⟨rfl, hc⟩ | ⟨rfl, h₁, -, -⟩ | ⟨rfl, -, -, -⟩
    · rcases hc with hc | hc | hc
      · omega
      · omega
      · exact hin.2.2 ⟨p, hr, hc⟩
    · simp only [BeRegD.rdEnd] at hpa
      omega
    · simp only at hpa
      omega
  · by_cases hex : ∃ r ∈ rs, r.addr ≤ a ∧ a < r.rdEnd
    · obtain ⟨r, hr, ha⟩ := hex
      -- a byte of the extent that has a copy is in the region that holds the extent
      have hout : ¬(rd.addr ≤ a ∧ a < rd.rdEnd) ∨ (r.addr < rd.addr ∧ rd.rdEnd < r.rdEnd) := by
        by_cases hrd' : rd.addr ≤ a ∧ a < rd.rdEnd
        · obtain ⟨r₀, hr₀, h₀⟩ : rdtAbsorbs rs rd := by
            by_contra hn
            exact hin ⟨hrd'.1, hrd'.2, hn⟩
          have := h.eq_of_mem hr hr₀ ha ⟨by omega, by omega⟩
          subst this
          exact Or.inr h₀
        · exact Or.inl hrd'
      obtain ⟨p, hp, hpa, hpos, hgen⟩ := delPiece_holds ha hout
      rw [rdtView_eq_of_mem hF (List.mem_filterMap.mpr ⟨r, hr, hp⟩) hpa,
        rdtView_eq_of_mem h hr ha, hpos, hgen]
    · rw [rdtView_eq_none fun r hr ha => hex ⟨r, hr, ha⟩]
      apply rdtView_eq_none
      intro p hp hpa
      obtain ⟨r, hr, hrp⟩ := List.mem_filterMap.mp hp
      obtain ⟨h₁, h₂, -⟩ := delPiece_part hb hrp
      exact hex ⟨r, hr, by omega, by omega⟩

/-- The view of a map with a region put among the others: the region's bytes are read from it,
the others as before. -/
lemma rdtView_insert {P Q : List BeRegD} {x : BeRegD} (h : RdtSorted (P ++ x :: Q)) (a : ℕ) :
    rdtView (P ++ x :: Q) a = if x.addr ≤ a ∧ a < x.rdEnd
      then some (x.buf + (a - x.addr), x.genIdx) else rdtView (P ++ Q) a := by
  split_ifs with ha
  · exact rdtView_eq_of_mem h (List.mem_append_right P List.mem_cons_self) ha
  · have hxa : m0BeRegDIsIn x a = false := by
      rw [← Bool.not_eq_true, m0BeRegDIsIn_iff]
      exact ha
    simp only [rdtView, List.find?_append, List.find?_cons, hxa]

/-- No region of a sorted map holds with room on both sides an extent that starts where one of
its regions starts. -/
lemma RdtSorted.not_absorbs (h : RdtSorted rs) {x rd : BeRegD} (hx : x ∈ rs)
    (haddr : x.addr = rd.addr) : ¬rdtAbsorbs rs rd := by
  rintro ⟨r, hr, h₁, h₂⟩
  have hxa := h.addr_lt_rdEnd hx
  have hre : rd.addr ≤ rd.rdEnd := Nat.le_add_right _ _
  have hrx := h.eq_of_mem (a := rd.addr) hr hx ⟨by omega, by omega⟩ ⟨by omega, by omega⟩
  subst hrx
  omega

end View

section Del

variable {α : Type} {ops : BeRegmapOps α}

/-- **`m0_be_regmap_del`** of a valid region from a sorted map whose ops move the copy of a
region with the region: the map stays sorted and does not grow, the bytes of the region lose
their copy unless one region holds the region with room on both sides, and every other byte
keeps its copy. -/
theorem m0BeRegmapDel_spec (hops : ops.Lawful) {rm : BeRegmap} (d : α) {rd : BeRegD}
    (h : RdtSorted rm.brRdt.brtR) (hrd : m0BeRegDInvariant rd = true) :
    ∃ rm', m0BeRegmapDel ops rm d rd = some (rm', d) ∧
      rm'.brSplitOnAbsorb = rm.brSplitOnAbsorb ∧ rm'.brRdt.brtSizeMax = rm.brRdt.brtSizeMax ∧
      RdtSorted rm'.brRdt.brtR ∧ rm'.brRdt.brtR.length ≤ rm.brRdt.brtR.length ∧
      ∀ a, rdtView rm'.brRdt.brtR a =
        if rd.addr ≤ a ∧ a < rd.rdEnd ∧ ¬rdtAbsorbs rm.brRdt.brtR rd then none
        else rdtView rm.brRdt.brtR a := by
  have hb : 0 < rd.addr := Nat.pos_of_ne_zero ((m0BeRegDInvariant_iff rd).mp hrd).1
  exact ⟨_, m0BeRegmapDel_eq hops d h hrd, rfl, rfl, h.filterMap_delPiece hb,
    List.length_filterMap_le _ _, rdtView_filterMap_delPiece h hrd⟩

theorem m0BeRegmapDel_spec_cut :
    (beRegAreaOps .dataNocopy).Lawful ∧ RdtSorted [⟨10, 10, 100, 0⟩] ∧
      m0BeRegDInvariant ⟨15, 10, 0, 0⟩ = true ∧
      ∃ rm', m0BeRegmapDel (beRegAreaOps .dataNocopy) ⟨⟨[⟨10, 10, 100, 0⟩], 3⟩, true⟩
          (m0BeRegAreaInit ⟨2, 8⟩ .dataNocopy 0, fun _ => 0) ⟨15, 10, 0, 0⟩ =
          some (rm', (m0BeRegAreaInit ⟨2, 8⟩ .dataNocopy 0, fun _ => 0)) ∧
        rm'.brSplitOnAbsorb = true ∧ rm'.brRdt.brtSizeMax = 3 ∧ RdtSorted rm'.brRdt.brtR ∧
        rm'.brRdt.brtR.length ≤ 1 ∧
        ∀ a, rdtView rm'.brRdt.brtR a =
          if 15 ≤ a ∧ a < 25 ∧ ¬rdtAbsorbs [⟨10, 10, 100, 0⟩] ⟨15, 10, 0, 0⟩ then none
          else rdtView [⟨10, 10, 100, 0⟩] a :=
  have h : RdtSorted [⟨10, 10, 100, 0⟩] := by decide
  ⟨beRegAreaOps_lawful _, h, rfl,
    @m0BeRegmapDel_spec _ _ (beRegAreaOps_lawful _) ⟨⟨_, 3⟩, true⟩ _ _ h rfl⟩

end Del

/-! ### `m0_be_regmap_add` -/

section Add

variable {α : Type} {ops : BeRegmapOps α}

/-- `be_regmap_reg_d_split` of a region that holds `rd` with room on both sides: the region is
cut to end where `rd` ends, and the new region is the rest of it, with the rest of its copy. -/
lemma beRegmapRegDSplit_eq (hops : ops.Lawful) (d : α) {r rd : BeRegD}
    (hr : m0BeRegDInvariant r = true) (hrd : m0BeRegDInvariant rd = true)
    (h₁ : r.addr < rd.addr) (h₂ : rd.rdEnd < r.rdEnd) :
    beRegmapRegDSplit ops d r rd = some (d, { r with size := rd.rdEnd - r.addr },
      ⟨rd.rdEnd, r.rdEnd - rd.rdEnd, r.buf + (rd.rdEnd - r.addr), r.genIdx⟩) := by
  have hpos := ((m0BeRegDInvariant_iff rd).mp hrd).2
  have hrpos := ((m0BeRegDInvariant_iff r).mp hr).2
  unfold beRegmapRegDSplit
  rw [beRegDLb1_eq hpos, beRegDLb1_eq hrpos, beRegDFb_eq, beRegDFb_eq,
    if_pos ⟨by omega, by omega⟩, beRegmapRegDCut_eq hops d hr (by simp only [BeRegD.rdEnd] at *; omega)]
  simp only [Option.bind_eq_bind, Option.bind_some, hops.split, Option.pure_def,
    Option.some.injEq, Prod.mk.injEq, true_and]
  simp only [BeRegD.rdEnd] at *
  refine ⟨?_, ?_⟩
  · congr 1
    omega
  · congr 1
    omega

/-- Splitting a region in two parts that hold each byte where it was keeps the view. -/
lemma rdtView_split {L M : List BeRegD} {r r₁ r₂ : BeRegD} (h : RdtSorted (L ++ r :: M))
    (h' : RdtSorted (L ++ r₁ :: r₂ :: M)) (h₁ : r₁.addr = r.addr) (h₂ : r₁.rdEnd = r₂.addr)
    (h₃ : r₂.rdEnd = r.rdEnd) (hb : r₁.buf = r.buf) (hb₂ : r₂.buf = r.buf + (r₂.addr - r.addr))
    (hg₁ : r₁.genIdx = r.genIdx) (hg₂ : r₂.genIdx = r.genIdx) (a : ℕ) :
    rdtView (L ++ r₁ :: r₂ :: M) a = rdtView (L ++ r :: M) a := by
  have h'' : RdtSorted (L ++ r₂ :: M) :=
    h'.sublist (List.Sublist.append_left (List.sublist_cons_self r₁ _) L)
  -- the two parts lie one after the other over the region
  have e₁ : r₁.addr ≤ r₁.rdEnd := Nat.le_add_right _ _
  have e₂ : r₂.addr ≤ r₂.rdEnd := Nat.le_add_right _ _
  rw [rdtView_insert h' a, rdtView_insert h'' a, rdtView_insert h a]
  by_cases ha₁ : r₁.addr ≤ a ∧ a < r₁.rdEnd
  · rw [if_pos ha₁, if_pos (by omega), h₁, hb, hg₁]
  · rw [if_neg ha₁]
    by_cases ha₂ : r₂.addr ≤ a ∧ a < r₂.rdEnd
    · rw [if_pos ha₂, if_pos (by omega), hb₂, hg₂]
      congr 2
      omega
    · rw [if_neg ha₂, if_neg (by omega)]

/-- The pieces `m0_be_regmap_del` leaves of a map in which no region holds the extent with room
on both sides do not meet the extent. -/
lemma delPiece_avoids {rs : List BeRegD} {rd : BeRegD} (hnot : ¬rdtAbsorbs rs rd) {p : BeRegD}
    (hp : p ∈ rs.filterMap (delPiece rd.addr rd.rdEnd)) :
    p.rdEnd ≤ rd.addr ∨ rd.rdEnd ≤ p.addr := by
  obtain ⟨r, hr, hrp⟩ := List.mem_filterMap.mp hp
  rcases delPiece_eq_some_cases hrp with ⟨rfl, hc⟩ | ⟨rfl, h₁, -, -⟩ | ⟨rfl, -, -, -⟩
  · rcases hc with hc | hc | hc
    · exact Or.inl hc
    · exact Or.inr hc
    · exact absurd ⟨p, hr, hc⟩ hnot
  · left
    show r.addr + (rd.addr - r.addr) ≤ rd.addr
    omega
  · exact Or.inr le_rfl

/-- Splitting a region of a sorted tree at a byte inside it keeps the tree sorted. -/
lemma RdtSorted.split {L M : List BeRegD} {r : BeRegD} (h : RdtSorted (L ++ r :: M)) {c : ℕ}
    (h₁ : r.addr < c) (h₂ : c < r.rdEnd) (buf gen : ℕ) :
    RdtSorted (L ++ { r with size := c - r.addr } :: ⟨c, r.rdEnd - c, buf, gen⟩ :: M) := by
  have hr := (m0BeRegDInvariant_iff r).mp (h.valid r (List.mem_append_right L List.mem_cons_self))
  have hrM := (rdtSorted_cons.mp (rdtSorted_append.mp h).2.1).2.1
  have h' : RdtSorted ((L ++ [{ r with size := c - r.addr }]) ++ M) := by
    rw [List.append_assoc, List.singleton_append]
    refine h.replace ?_ le_rfl ?_
    · simp only [m0BeRegDInvariant_iff]
      omega
    · simp only [BeRegD.rdEnd] at *
      omega
  have h'' := h'.insert_append (x := ⟨c, r.rdEnd - c, buf, gen⟩)
    (by simp only [m0BeRegDInvariant_iff]; omega)
    (fun x hx => by
      rcases List.mem_append.mp hx with hx | hx
      · have := (rdtSorted_append.mp h).2.2 x hx r List.mem_cons_self
        show x.rdEnd ≤ c
        omega
      · rw [List.mem_singleton.mp hx]
        show r.addr + (c - r.addr) ≤ c
        omega)
    (fun x hx => by
      have := hrM x hx
      show c + (r.rdEnd - c) ≤ x.addr
      omega)
  simpa only [List.append_assoc, List.singleton_append] using h''

/-- What `m0_be_regmap_del` of `rd` leaves of a tree in which the region that held `rd` with
room on both sides has been split at the end of `rd`: the first part loses its bytes from the
start of `rd` on. -/
lemma filterMap_delPiece_split {L M : List BeRegD} {r rd : BeRegD} (buf gen : ℕ)
    (hL : ∀ x ∈ L, x.rdEnd ≤ rd.addr) (hM : ∀ x ∈ M, r.rdEnd ≤ x.addr) (hpos : 0 < rd.size)
    (h₁ : r.addr < rd.addr) (h₂ : rd.rdEnd < r.rdEnd) :
    (L ++ { r with size := rd.rdEnd - r.addr } :: ⟨rd.rdEnd, r.rdEnd - rd.rdEnd, buf, gen⟩ ::
      M).filterMap (delPiece rd.addr rd.rdEnd) =
      L ++ { r with size := rd.addr - r.addr } :: ⟨rd.rdEnd, r.rdEnd - rd.rdEnd, buf, gen⟩ :: M := by
  have hre : rd.addr < rd.rdEnd := Nat.lt_add_of_pos_right hpos
  have hafter : ∀ x ∈ (⟨rd.rdEnd, r.rdEnd - rd.rdEnd, buf, gen⟩ : BeRegD) :: M,
      rd.rdEnd ≤ x.addr := by
    intro x hx
    rcases List.mem_cons.mp hx with rfl | hx
    · exact le_rfl
    · have := hM x hx
      omega
  rw [List.filterMap_append, filterMap_delPiece_of_rdEnd_le hL, List.filterMap_cons,
    delPiece_of_cutEnd (r := { r with size := rd.rdEnd - r.addr }) h₁ (by show rd.addr < r.addr + (rd.rdEnd - r.addr); omega)
      (by show r.addr + (rd.rdEnd - r.addr) ≤ rd.rdEnd; omega),
    filterMap_delPiece_of_le_addr hafter]

/-- The absorb step of `m0_be_regmap_add` at the region that holds `rd` with room on both
sides, in a map that splits on absorb: the region is split around the end of `rd`, and the
part after it inserted after it. -/
lemma beRegmapAddAbsorb_of_absorb (hops : ops.Lawful) (d : α) {rd : BeRegD}
    (hrd : m0BeRegDInvariant rd = true) {L M : List BeRegD} {r : BeRegD} {m : ℕ}
    (h : RdtSorted (L ++ r :: M)) (h₁ : r.addr < rd.addr) (h₂ : rd.rdEnd < r.rdEnd)
    (hroom : (L ++ r :: M).length < m) :
    beRegmapAddAbsorb ops ⟨⟨L ++ r :: M, m⟩, true⟩ d rd (some L.length) =
      some (⟨⟨L ++ { r with size := rd.rdEnd - r.addr } ::
        ⟨rd.rdEnd, r.rdEnd - rd.rdEnd, r.buf + (rd.rdEnd - r.addr), r.genIdx⟩ :: M, m⟩, true⟩,
        d, false) := by
  obtain ⟨hb0, hpos⟩ := (m0BeRegDInvariant_iff rd).mp hrd
  have hre : rd.addr ≤ rd.rdEnd := Nat.le_add_right _ _
  have hr := h.valid r (List.mem_append_right L List.mem_cons_self)
  obtain ⟨-, hrM, -⟩ := rdtSorted_cons.mp (rdtSorted_append.mp h).2.1
  have hL : ∀ x ∈ L, x.rdEnd ≤ r.addr := fun x hx =>
    (rdtSorted_append.mp h).2.2 x hx r List.mem_cons_self
  -- the part of `r` up to the end of `rd`, in place of `r`
  have hr₁ : m0BeRegDInvariant { r with size := rd.rdEnd - r.addr } = true := by
    have := (m0BeRegDInvariant_iff r).mp hr
    simp only [m0BeRegDInvariant_iff, BeRegD.rdEnd] at *
    omega
  have h' : RdtSorted ((L ++ [{ r with size := rd.rdEnd - r.addr }]) ++ M) := by
    rw [List.append_assoc, List.singleton_append]
    exact h.replace hr₁ le_rfl (by simp only [BeRegD.rdEnd] at *; omega)
  have hins := m0BeRdtIns_append (x := ⟨rd.rdEnd, r.rdEnd - rd.rdEnd,
      r.buf + (rd.rdEnd - r.addr), r.genIdx⟩) (m := m) h'
    (by simp only [m0BeRegDInvariant_iff, BeRegD.rdEnd] at *; omega)
    (fun x hx => by
      rcases List.mem_append.mp hx with hx | hx
      · have := hL x hx
        show x.rdEnd ≤ rd.rdEnd
        omega
      · rw [List.mem_singleton.mp hx]
        simp only [BeRegD.rdEnd] at *
        omega)
    (fun x hx => by
      have := hrM x hx
      have := h.addr_lt_rdEnd (List.mem_append_right L (List.mem_cons_of_mem r hx))
      simp only [BeRegD.rdEnd] at *
      omega)
    (by simpa using hroom)
  rw [List.append_assoc, List.singleton_append, List.append_assoc, List.singleton_append] at hins
  have hcond : beRegDFb r < beRegDFb rd ∧ beRegDLb r > beRegDLb rd := by
    rw [beRegDFb_eq, beRegDFb_eq, beRegDLb_eq, beRegDLb_eq]
    exact ⟨h₁, by omega⟩
  simp only [beRegmapAddAbsorb, getD_length_append, hcond, and_self, if_true,
    beRegmapRegDSplit_eq hops d hr hrd h₁ h₂, Option.bind_eq_bind, Option.bind_some,
    set_length_append, hins, Option.pure_def]

/-- The absorb step of `m0_be_regmap_add` at a region that does not hold `rd` with room on both
sides changes nothing. -/
lemma beRegmapAddAbsorb_of_not_absorb (d : α) {rd : BeRegD} (hrd : m0BeRegDInvariant rd = true)
    {rm : BeRegmap} {i : ℕ}
    (hnot : ¬((rm.brRdt.brtR.getD i default).addr < rd.addr ∧
      rd.rdEnd < (rm.brRdt.brtR.getD i default).rdEnd)) :
    beRegmapAddAbsorb ops rm d rd (some i) = some (rm, d, false) := by
  have hpos := ((m0BeRegDInvariant_iff rd).mp hrd).2
  have hcond : ¬(beRegDFb (rm.brRdt.brtR.getD i default) < beRegDFb rd ∧
      beRegDLb (rm.brRdt.brtR.getD i default) > beRegDLb rd) := by
    simp only [beRegDFb_eq, beRegDLb_eq]
    simp only [BeRegD.rdEnd] at *
    omega
  simp only [beRegmapAddAbsorb, hcond, if_false]

/-- The region that holds `rd` with room on both sides, in a sorted tree cut at the start of
`rd`, is the first one that ends after that start. -/
lemma rdtAbsorbs_head {L M : List BeRegD} {rd : BeRegD} (h : RdtSorted (L ++ M))
    (hL : ∀ r ∈ L, r.rdEnd ≤ rd.addr) (hM : ∀ r ∈ M, rd.addr < r.rdEnd)
    (habs : rdtAbsorbs (L ++ M) rd) :
    ∃ r M', M = r :: M' ∧ r.addr < rd.addr ∧ rd.rdEnd < r.rdEnd := by
  obtain ⟨r₀, hr₀, h₁, h₂⟩ := habs
  have hre : rd.addr ≤ rd.rdEnd := Nat.le_add_right _ _
  rcases List.mem_append.mp hr₀ with hr₀ | hr₀
  · have := hL r₀ hr₀
    omega
  cases M with
  | nil => exact absurd hr₀ List.not_mem_nil
  | cons r M =>
    rcases List.mem_cons.mp hr₀ with rfl | hr₀
    · exact ⟨r₀, M, rfl, h₁, h₂⟩
    · -- a later region starts after the first ends, so after the start of `rd`
      have := (rdtSorted_cons.mp (rdtSorted_append.mp h).2.1).2.1 r₀ hr₀
      have := hM r List.mem_cons_self
      omega

/-- **`m0_be_regmap_add` in a map that splits on absorb**, with room for the regions it adds:
the tree stays sorted and grows by at most two regions; the bytes of `rd` are read from the
copy `rmo_add` makes of it, at the generation of `rd`, and every other byte as before. -/
theorem m0BeRegmapAdd_spec (hops : ops.Lawful) {rm : BeRegmap} (d : α) {rd : BeRegD}
    (hsoa : rm.brSplitOnAbsorb = true) (h : RdtSorted rm.brRdt.brtR)
    (hrd : m0BeRegDInvariant rd = true) {d' : α} {copy : BeRegD}
    (hadd : ops.rmoAdd d rd = some (d', copy))
    (hroom : rm.brRdt.brtR.length + (if rdtAbsorbs rm.brRdt.brtR rd then 2 else 1) ≤
      rm.brRdt.brtSizeMax) :
    ∃ rm', m0BeRegmapAdd ops rm d rd = some (rm', d') ∧
      rm'.brSplitOnAbsorb = true ∧ rm'.brRdt.brtSizeMax = rm.brRdt.brtSizeMax ∧
      RdtSorted rm'.brRdt.brtR ∧ copy ∈ rm'.brRdt.brtR ∧
      rm'.brRdt.brtR.length ≤
        rm.brRdt.brtR.length + (if rdtAbsorbs rm.brRdt.brtR rd then 2 else 1) ∧
      ∀ a, rdtView rm'.brRdt.brtR a = if rd.addr ≤ a ∧ a < rd.rdEnd
        then some (copy.buf + (a - rd.addr), rd.genIdx) else rdtView rm.brRdt.brtR a := by
  obtain ⟨⟨rs, m⟩, soa⟩ := rm
  dsimp only at hsoa h hroom ⊢
  subst hsoa
  have hpos := ((m0BeRegDInvariant_iff rd).mp hrd).2
  have hre : rd.addr ≤ rd.rdEnd := Nat.le_add_right _ _
  -- `rmo_add` changes only where the copy of `rd` is
  have hcopy := hops.add d rd d' copy hadd
  have hca : copy.addr = rd.addr := by rw [hcopy]
  have hce : copy.rdEnd = rd.rdEnd := by rw [hcopy]; rfl
  have hcg : copy.genIdx = rd.genIdx := by rw [hcopy]
  have hcv : m0BeRegDInvariant copy = true := by rw [hcopy]; exact hrd
  obtain ⟨L, M, rfl, -, hL, hM⟩ := h.exists_split rd.addr
  unfold m0BeRegmapAdd
  rw [if_pos hrd]
  simp only [beRegmapFindFb, beRegDFb_eq, m0BeRdtFind_append h hL hM, Option.bind_eq_bind,
    Option.bind_some]
  by_cases habs : rdtAbsorbs (L ++ M) rd
  · rw [if_pos habs] at hroom ⊢
    obtain ⟨r, M, rfl, hr⟩ := rdtAbsorbs_head h hL hM habs
    have hb : 0 < rd.addr := Nat.pos_of_ne_zero ((m0BeRegDInvariant_iff rd).mp hrd).1
    have hrM := (rdtSorted_cons.mp (rdtSorted_append.mp h).2.1).2.1
    have hT := h.split (c := rd.rdEnd) (by omega) hr.2 (r.buf + (rd.rdEnd - r.addr)) r.genIdx
    have hFeq := filterMap_delPiece_split (r.buf + (rd.rdEnd - r.addr)) r.genIdx hL hrM hpos
      hr.1 hr.2
    rw [if_neg (List.cons_ne_nil r M),
      beRegmapAddAbsorb_of_absorb hops d hrd h hr.1 hr.2 (by omega)]
    simp only [Option.bind_some, Bool.false_eq_true, if_false]
    rw [m0BeRegmapDel_eq hops d hT hrd]
    simp only [Option.bind_some, hadd]
    rw [hFeq]
    -- the part of the region before `rd`, and the part after it
    generalize hr' : ({ r with size := rd.addr - r.addr } : BeRegD) = r' at hFeq ⊢
    generalize hn : (⟨rd.rdEnd, r.rdEnd - rd.rdEnd, r.buf + (rd.rdEnd - r.addr), r.genIdx⟩ :
      BeRegD) = rdNew at hT hFeq ⊢
    have hr'e : r'.rdEnd = rd.addr := by
      rw [← hr']
      show r.addr + (rd.addr - r.addr) = rd.addr
      omega
    have hna : rdNew.addr = rd.rdEnd := by rw [← hn]
    have hne : rdNew.rdEnd = r.rdEnd := by
      rw [← hn]
      show rd.rdEnd + (r.rdEnd - rd.rdEnd) = r.rdEnd
      omega
    have hF : RdtSorted ((L ++ [r']) ++ rdNew :: M) := by
      rw [List.append_assoc, List.singleton_append, ← hFeq]
      exact hT.filterMap_delPiece hb
    -- the copy goes between them
    have hP : ∀ x ∈ L ++ [r'], x.rdEnd ≤ copy.addr := by
      intro x hx
      rw [hca]
      rcases List.mem_append.mp hx with hx | hx
      · exact hL x hx
      · rw [List.mem_singleton.mp hx, hr'e]
    have hQ : ∀ x ∈ rdNew :: M, copy.rdEnd ≤ x.addr := by
      intro x hx
      rw [hce]
      rcases List.mem_cons.mp hx with rfl | hx
      · rw [hna]
      · have := hrM x hx
        omega
    have hfin := hF.insert_append hcv hP hQ
    have hins := m0BeRdtIns_append (m := m) hF hcv hP (fun x hx => by
        have := hQ x hx
        have := hF.addr_lt_rdEnd (List.mem_append_right _ hx)
        have : copy.addr ≤ copy.rdEnd := Nat.le_add_right _ _
        omega)
      (by simp only [List.length_append, List.length_cons, List.length_nil] at hroom ⊢; omega)
    rw [List.append_assoc, List.singleton_append] at hins
    rw [hins]
    refine ⟨_, rfl, rfl, rfl, hfin, by simp, ?_, fun a => ?_⟩
    · simp only [List.length_append, List.length_cons, List.length_nil]
      omega
    rw [rdtView_insert hfin a, hca, hce, hcg]
    split_ifs with ha
    · rfl
    · -- elsewhere the view is that of the split tree after the delete, which is the old one
      rw [List.append_assoc, List.singleton_append, ← hFeq,
        rdtView_filterMap_delPiece hT hrd a, if_neg fun h' => ha ⟨h'.1, h'.2.1⟩]
      refine rdtView_split h hT rfl ?_ hne rfl ?_ rfl ?_ a
      · rw [hna]
        show r.addr + (rd.rdEnd - r.addr) = rd.rdEnd
        omega
      · rw [hna, ← hn]
      · rw [← hn]
  · rw [if_neg habs] at hroom ⊢
    have hb : 0 < rd.addr := Nat.pos_of_ne_zero ((m0BeRegDInvariant_iff rd).mp hrd).1
    -- no region holds `rd` with room on both sides: the absorb step changes nothing
    have hstep : beRegmapAddAbsorb ops ⟨⟨L ++ M, m⟩, true⟩ d rd
        (if M = [] then none else some L.length) = some (⟨⟨L ++ M, m⟩, true⟩, d, false) := by
      cases M with
      | nil => rfl
      | cons r M =>
        rw [if_neg (List.cons_ne_nil r M)]
        refine beRegmapAddAbsorb_of_not_absorb d hrd fun hc =>
          habs ⟨r, List.mem_append_right L List.mem_cons_self, ?_⟩
        simpa only [getD_length_append] using hc
    rw [hstep]
    simp only [Option.bind_some, Bool.false_eq_true, if_false]
    rw [m0BeRegmapDel_eq hops d h hrd]
    simp only [Option.bind_some, hadd]
    have hF := h.filterMap_delPiece hb (e := rd.rdEnd)
    have hlen := List.length_filterMap_le (delPiece rd.addr rd.rdEnd) (L ++ M)
    rw [@m0BeRdtIns_eq ⟨_, m⟩ copy hF hcv (by unfold m0BeRdtSize; dsimp only; omega)]
    -- what the delete leaves does not meet the copy
    have hfree : ∀ p ∈ (L ++ M).filterMap (delPiece rd.addr rd.rdEnd),
        p.rdEnd ≤ copy.addr ∨ copy.rdEnd ≤ p.addr := fun p hp => by
      rw [hca, hce]
      exact delPiece_avoids habs hp
    have hfin := hF.insert hcv hfree
    refine ⟨_, rfl, rfl, rfl, hfin, by simp, ?_, fun a => ?_⟩
    · simp only [List.length_append, List.length_cons, List.length_take, List.length_drop]
        at hlen ⊢
      omega
    rw [rdtView_insert hfin a, List.take_append_drop, hca, hce, hcg,
      rdtView_filterMap_delPiece h hrd a]
    split_ifs with ha ha'
    · rfl
    · exact absurd ⟨ha'.1, ha'.2.1⟩ ha
    · rfl

end Add

end Motr
