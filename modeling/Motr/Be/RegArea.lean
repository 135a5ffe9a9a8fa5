import Motr.Be.RegmapSpec

/-!
The reg area of a transaction (`be/tx_regmap.c`): the regions the transaction captured, in a
region map whose ops keep a copy of the bytes of each region in the buffer `bra_area`
(`DATA_COPY`), or keep the copy the caller points to (`DATA_NOCOPY`).

What the area holds is read through its map (`beRegAreaContent`): for each address of a
captured region, the byte of its copy and its generation. A data-copy area as its calls leave
it is `BeRegArea.Wf`: its map is sorted, has room for the regions a capture within the prepared
credit adds, and its copies lie in the used part of `bra_area`.

* `m0BeRegAreaCapture_spec`: a capture within the prepared credit copies the bytes of the
  region to the next free bytes of `bra_area`, and from then on the area holds them, at the
  generation of the region;
* `m0BeRegAreaUncapture_spec`: an uncapture drops the bytes of the region, unless one captured
  region holds it with room on both sides; right after the capture of the region it drops them
  all (`m0BeRegAreaCapture_uncapture`);
* `m0BeRegAreaMergeIn_spec`: `m0_be_reg_area_merge_in` into a no-copy area lays the bytes of the
  merged area over those the no-copy area held;
* `beRegArea_run_refines`: along every run of captures within the prepared credit and outside
  `bra_area`, uncaptures, resets and stores to memory outside `bra_area` from
  `m0_be_reg_area_init`, `m0_be_reg_area__invariant` holds, no such call fails an assertion, and
  the area holds for each captured byte the value it had when it was captured last;
* `beRegArea_run_tracks_captures`: along the same runs the region tree stays sorted and
  disjoint within `brt_size_max`, and the area holds exactly the bytes of the reference that
  adds a region on a capture and drops it on an uncapture, but for an uncapture strictly inside
  one region.
-/

namespace Motr

/-! ### The ops of a reg area -/

/-- `be_reg_area_add_copy` of a region with no copy yet: its copy goes to the next free bytes
of `bra_area`. -/
lemma beRegAreaAddCopy_eq {ra : BeRegArea} {mem : ℕ → UInt8} {rd : BeRegD}
    (hrd : m0BeRegDInvariant rd = true) (hbuf : rd.buf = 0) :
    beRegAreaAddCopy (ra, mem) rd = some (({ ra with braAreaUsed := ra.braAreaUsed + rd.size },
      memmove mem (ra.braArea + ra.braAreaUsed) rd.addr rd.size),
      { rd with buf := ra.braArea + ra.braAreaUsed }) := by
  simp [beRegAreaAddCopy, beRegAreaAlloc, beRegDCpy, hrd, hbuf]

lemma m0BeTxCreditLe_iff (c₀ c₁ : BeTxCredit) :
    m0BeTxCreditLe c₀ c₁ = true ↔ c₀.tcRegNr ≤ c₁.tcRegNr ∧ c₀.tcRegSize ≤ c₁.tcRegSize := by
  simp [m0BeTxCreditLe]

/-! ### What a data-copy area holds -/

/-- The bytes a reg area holds in memory `mem`: for each address of a captured region, the byte
of its copy and the generation of the region. -/
def beRegAreaContent (ra : BeRegArea) (mem : ℕ → UInt8) (a : ℕ) : Option (UInt8 × ℕ) :=
  (rdtView ra.braMap.brRdt.brtR a).map fun v => (mem v.1, v.2)

/-- The map of a reg area of either kind as its calls leave it: sorted, splitting on absorb,
with the slots `m0_be_reg_area_init` gave it and at most two regions for each capture but the
first; and the credit captured within the prepared one. -/
structure BeRegArea.MapWf (ra : BeRegArea) : Prop where
  sorted : RdtSorted ra.braMap.brRdt.brtR
  splitOnAbsorb : ra.braMap.brSplitOnAbsorb = true
  sizeMax : ra.braMap.brRdt.brtSizeMax =
    if ra.braPrepared.tcRegNr = 0 then 0 else ra.braPrepared.tcRegNr * 2 - 1
  size : ra.braMap.brRdt.brtR.length ≤ ra.braCaptured.tcRegNr * 2 - 1
  credit : m0BeTxCreditLe ra.braCaptured ra.braPrepared = true

/-- A data-copy reg area as its calls leave it: besides its map, the bytes of `bra_area` used
are those of the captured regions, and every copy lies in them. -/
structure BeRegArea.Wf (ra : BeRegArea) : Prop extends BeRegArea.MapWf ra where
  type : ra.braType = .dataCopy
  used : ra.braAreaUsed = ra.braCaptured.tcRegSize
  copies : ∀ a v, rdtView ra.braMap.brRdt.brtR a = some v →
    ra.braArea ≤ v.1 ∧ v.1 < ra.braArea + ra.braAreaUsed

section Wf

variable {ra : BeRegArea}

lemma BeRegArea.mapWf_init (prepared : BeTxCredit) (type : BeRegAreaType) (area : ℕ) :
    (m0BeRegAreaInit prepared type area).MapWf where
  sorted := rdtSorted_nil
  splitOnAbsorb := rfl
  sizeMax := rfl
  size := Nat.zero_le _
  credit := by simp [m0BeRegAreaInit, m0BeTxCreditLe]

lemma BeRegArea.wf_init (prepared : BeTxCredit) (area : ℕ) :
    (m0BeRegAreaInit prepared .dataCopy area).Wf where
  type := rfl
  sorted := rdtSorted_nil
  splitOnAbsorb := rfl
  sizeMax := rfl
  size := Nat.zero_le _
  used := rfl
  credit := by simp [m0BeRegAreaInit, m0BeTxCreditLe]
  copies _ _ h := by simp [m0BeRegAreaInit, m0BeRegmapInit, m0BeRdtInit, rdtView] at h

/-- The area holds nothing in the used part of `bra_area` that a capture writes after it. -/
lemma BeRegArea.Wf.used_le (hwf : ra.Wf) : ra.braAreaUsed ≤ ra.braPrepared.tcRegSize := by
  have := ((m0BeTxCreditLe_iff _ _).mp hwf.credit).2
  rw [hwf.used]
  exact this

/-- `m0_be_reg_area__invariant`, the `M0_PRE` and `M0_POST` of every call of the area. -/
lemma BeRegArea.Wf.invariant (hwf : ra.Wf) : m0BeRegAreaInvariant ra := by
  have hle := (m0BeTxCreditLe_iff _ _).mp hwf.credit
  have hsize := hwf.size
  have hmax := hwf.sizeMax
  refine ⟨(m0BeRdtInvariant_iff _).mpr ⟨?_, hwf.sorted⟩, hwf.used_le, hwf.credit⟩
  unfold m0BeRdtSize
  split_ifs at hmax with h0 <;> omega

/-- A capture adds at most two regions to the map, and only one to an empty map: the map of a
well-formed area after it has at most two regions for each capture but the first. -/
lemma BeRegArea.MapWf.size_add (hwf : ra.MapWf) (rd : BeRegD) :
    ra.braMap.brRdt.brtR.length +
      (if rdtAbsorbs ra.braMap.brRdt.brtR rd then 2 else 1) ≤
      (ra.braCaptured.tcRegNr + 1) * 2 - 1 := by
  have hsize := hwf.size
  by_cases h0 : ra.braCaptured.tcRegNr = 0
  · -- no capture yet: the map is empty, and nothing in it absorbs `rd`
    have hnil : ra.braMap.brRdt.brtR = [] := List.eq_nil_of_length_eq_zero (by omega)
    have hnot : ¬rdtAbsorbs ra.braMap.brRdt.brtR rd := by
      rw [hnil]
      rintro ⟨r, hr, -⟩
      exact List.not_mem_nil hr
    rw [if_neg hnot, hnil, h0]
    rfl
  · split_ifs <;> omega

/-- A capture within the prepared credit finds room in the map for the regions it adds. -/
lemma BeRegArea.MapWf.room (hwf : ra.MapWf) {rd : BeRegD}
    (hcr : m0BeTxCreditLe (m0BeTxCreditAdd ra.braCaptured (m0BeRegDCredit rd))
      ra.braPrepared = true) :
    ra.braMap.brRdt.brtR.length + (if rdtAbsorbs ra.braMap.brRdt.brtR rd then 2 else 1) ≤
      ra.braMap.brRdt.brtSizeMax := by
  have hnr := ((m0BeTxCreditLe_iff _ _).mp hcr).1
  have hadd := hwf.size_add rd
  rw [hwf.sizeMax]
  simp only [m0BeTxCreditAdd, m0BeRegDCredit] at hnr
  rw [if_neg (show ra.braPrepared.tcRegNr ≠ 0 by omega)]
  omega

end Wf

/-! ### Capture and uncapture -/

section Calls

variable {ra : BeRegArea}

/-- `m0_be_reg_area_capture` within the prepared credit into an area of either kind, from what
`rmo_add` of its ops makes of the region: the map is what `m0_be_regmap_add` makes of it, the
rest of the area and the memory what `rmo_add` left. -/
lemma BeRegArea.MapWf.capture (hwf : ra.MapWf) (mem : ℕ → UInt8) {rd : BeRegD}
    (hrd : m0BeRegDInvariant rd = true)
    (hcr : m0BeTxCreditLe (m0BeTxCreditAdd ra.braCaptured (m0BeRegDCredit rd))
      ra.braPrepared = true)
    {ra' : BeRegArea} {mem' : ℕ → UInt8} {copy : BeRegD}
    (hadd : (beRegAreaOps ra.braType).rmoAdd
      ({ ra with braCaptured := m0BeTxCreditAdd ra.braCaptured (m0BeRegDCredit rd) }, mem) rd =
      some ((ra', mem'), copy)) :
    ∃ rm', m0BeRegAreaCapture ra mem rd = some ({ ra' with braMap := rm' }, mem') ∧
      rm'.brSplitOnAbsorb = true ∧ rm'.brRdt.brtSizeMax = ra.braMap.brRdt.brtSizeMax ∧
      RdtSorted rm'.brRdt.brtR ∧ ¬rdtAbsorbs rm'.brRdt.brtR rd ∧
      rm'.brRdt.brtR.length ≤ (ra.braCaptured.tcRegNr + 1) * 2 - 1 ∧
      ∀ a, rdtView rm'.brRdt.brtR a = if rd.addr ≤ a ∧ a < rd.rdEnd
        then some (copy.buf + (a - rd.addr), rd.genIdx) else rdtView ra.braMap.brRdt.brtR a := by
  obtain ⟨rm', hrm, hsoa, hmax, hsorted, hmem, hlen, hview⟩ :=
    m0BeRegmapAdd_spec (beRegAreaOps_lawful ra.braType) _ hwf.splitOnAbsorb hwf.sorted hrd hadd
      (hwf.room hcr)
  -- the copy of `rd` is a region of the map, so no region holds `rd` with room on both sides
  have hcopy := (beRegAreaOps_lawful ra.braType).add _ rd _ copy hadd
  have hnot : ¬rdtAbsorbs rm'.brRdt.brtR rd := hsorted.not_absorbs hmem (by rw [hcopy])
  refine ⟨rm', ?_, hsoa, hmax, hsorted, hnot, le_trans hlen (hwf.size_add rd), hview⟩
  unfold m0BeRegAreaCapture
  rw [if_pos hrd, if_pos hcr]
  simp only [hrm, Option.bind_eq_bind, Option.bind_some, Option.pure_def]

/-- **`m0_be_reg_area_capture` into a data-copy area**, of a region with no copy yet and within
the prepared credit: the bytes of the region are copied to the next free bytes of `bra_area`,
the credit is counted, and the area holds the bytes of the region as memory held them, at the
generation of the region, and every other byte as before. -/
theorem m0BeRegAreaCapture_spec (hwf : ra.Wf) (mem : ℕ → UInt8) {rd : BeRegD}
    (hrd : m0BeRegDInvariant rd = true) (hbuf : rd.buf = 0)
    (hcr : m0BeTxCreditLe (m0BeTxCreditAdd ra.braCaptured (m0BeRegDCredit rd))
      ra.braPrepared = true) :
    ∃ ra', m0BeRegAreaCapture ra mem rd =
        some (ra', memmove mem (ra.braArea + ra.braAreaUsed) rd.addr rd.size) ∧
      ra'.Wf ∧ ra'.braArea = ra.braArea ∧ ra'.braPrepared = ra.braPrepared ∧
      ra'.braCaptured = m0BeTxCreditAdd ra.braCaptured (m0BeRegDCredit rd) ∧
      ¬rdtAbsorbs ra'.braMap.brRdt.brtR rd ∧
      ∀ a, beRegAreaContent ra' (memmove mem (ra.braArea + ra.braAreaUsed) rd.addr rd.size) a =
        if rd.addr ≤ a ∧ a < rd.rdEnd then some (mem a, rd.genIdx) else beRegAreaContent ra mem a := by
  -- the data-copy `rmo_add` takes the next bytes of `bra_area` and copies the region there
  have hadd : (beRegAreaOps ra.braType).rmoAdd
      ({ ra with braCaptured := m0BeTxCreditAdd ra.braCaptured (m0BeRegDCredit rd) }, mem) rd =
      some (({ ra with
          braCaptured := m0BeTxCreditAdd ra.braCaptured (m0BeRegDCredit rd)
          braAreaUsed := ra.braAreaUsed + rd.size },
        memmove mem (ra.braArea + ra.braAreaUsed) rd.addr rd.size),
        { rd with buf := ra.braArea + ra.braAreaUsed }) := by
    have hops : beRegAreaOps ra.braType = beRegAreaOpsDataCopy := by rw [hwf.type]; rfl
    rw [hops]
    exact beRegAreaAddCopy_eq hrd hbuf
  obtain ⟨rm', hcap, hsoa, hmax, hsorted, hnot, hlen, hview⟩ := hwf.capture mem hrd hcr hadd
  refine ⟨_, hcap, ?_, rfl, rfl, rfl, hnot, fun a => ?_⟩
  · refine
      { sorted := hsorted
        splitOnAbsorb := hsoa
        sizeMax := hmax ▸ hwf.sizeMax
        size := hlen
        credit := hcr
        type := hwf.type
        used := ?_
        copies := ?_ }
    · simp only [m0BeTxCreditAdd, m0BeRegDCredit, hwf.used]
    · -- the new copy is the next `rd.size` bytes of `bra_area`, the others are where they were
      intro a v hv
      rw [hview a] at hv
      split_ifs at hv with ha
      · cases hv
        simp only [BeRegD.rdEnd] at ha
        dsimp only
        omega
      · have := hwf.copies a v hv
        dsimp only
        omega
  · unfold beRegAreaContent
    rw [hview a]
    split_ifs with ha
    · simp only [Option.map_some]
      rw [memmove_apply_of_mem (by omega) (by simp only [BeRegD.rdEnd] at ha; omega)]
      congr 3
      omega
    · -- the bytes of the other copies lie before the new one
      cases hv : rdtView ra.braMap.brRdt.brtR a with
      | none => rfl
      | some v =>
        have := hwf.copies a v hv
        simp only [Option.map_some]
        rw [memmove_apply_of_disjoint (Or.inl (by omega))]

/-- **`m0_be_reg_area_uncapture` from a data-copy area**: the bytes of the region are dropped,
unless one captured region holds it with room on both sides, in which case nothing changes;
the credit captured stays counted. -/
theorem m0BeRegAreaUncapture_spec (hwf : ra.Wf) (mem : ℕ → UInt8) {rd : BeRegD}
    (hrd : m0BeRegDInvariant rd = true) :
    ∃ ra', m0BeRegAreaUncapture ra mem rd = some (ra', mem) ∧ ra'.Wf ∧
      ra'.braArea = ra.braArea ∧ ra'.braPrepared = ra.braPrepared ∧
      ra'.braCaptured = ra.braCaptured ∧
      ∀ a, beRegAreaContent ra' mem a =
        if rd.addr ≤ a ∧ a < rd.rdEnd ∧ ¬rdtAbsorbs ra.braMap.brRdt.brtR rd then none
        else beRegAreaContent ra mem a := by
  have hb : 0 < rd.addr := Nat.pos_of_ne_zero ((m0BeRegDInvariant_iff rd).mp hrd).1
  have hdel := m0BeRegmapDel_eq (beRegAreaOps_lawful ra.braType) (ra, mem) hwf.sorted hrd
  have hview := rdtView_filterMap_delPiece hwf.sorted hrd
  have hlen := List.length_filterMap_le (delPiece rd.addr rd.rdEnd) ra.braMap.brRdt.brtR
  refine ⟨{ ra with braMap := { ra.braMap with brRdt := { ra.braMap.brRdt with
    brtR := ra.braMap.brRdt.brtR.filterMap (delPiece rd.addr rd.rdEnd) } } }, ?_, ?_, rfl, rfl,
    rfl, fun a => ?_⟩
  · unfold m0BeRegAreaUncapture
    rw [if_pos hrd]
    simp only [hdel, Option.bind_eq_bind, Option.bind_some, Option.pure_def]
  · refine
      { sorted := hwf.sorted.filterMap_delPiece hb
        splitOnAbsorb := hwf.splitOnAbsorb
        sizeMax := hwf.sizeMax
        size := le_trans hlen hwf.size
        credit := hwf.credit
        type := hwf.type
        used := hwf.used
        copies := ?_ }
    -- what is left of the copies is where it was
    intro a v hv
    rw [hview a] at hv
    split_ifs at hv
    exact hwf.copies a v hv
  · unfold beRegAreaContent
    rw [hview a]
    split_ifs <;> rfl

/-- **`m0_be_reg_area_uncapture` right after `m0_be_reg_area_capture`** of the same region, in
a data-copy area: the area holds none of the bytes of the region and every other byte as before
the capture, while the credit of the region stays captured. -/
theorem m0BeRegAreaCapture_uncapture (hwf : ra.Wf) (mem : ℕ → UInt8) {rd : BeRegD}
    (hrd : m0BeRegDInvariant rd = true) (hbuf : rd.buf = 0)
    (hcr : m0BeTxCreditLe (m0BeTxCreditAdd ra.braCaptured (m0BeRegDCredit rd))
      ra.braPrepared = true) :
    ∃ ra' ra'' mem', m0BeRegAreaCapture ra mem rd = some (ra', mem') ∧
      m0BeRegAreaUncapture ra' mem' rd = some (ra'', mem') ∧ ra''.Wf ∧
      ra''.braCaptured = m0BeTxCreditAdd ra.braCaptured (m0BeRegDCredit rd) ∧
      ∀ a, beRegAreaContent ra'' mem' a =
        if rd.addr ≤ a ∧ a < rd.rdEnd then none else beRegAreaContent ra mem a := by
  obtain ⟨ra', hcap, hwf', -, -, hcap', hnot, hcontent⟩ :=
    m0BeRegAreaCapture_spec hwf mem hrd hbuf hcr
  obtain ⟨ra'', hunc, hwf'', -, -, hcap'', hcontent'⟩ := m0BeRegAreaUncapture_spec hwf' _ hrd
  refine ⟨ra', ra'', _, hcap, hunc, hwf'', hcap''.trans hcap', fun a => ?_⟩
  rw [hcontent' a, hcontent a]
  -- the copy the capture made is a region of its own, which the uncapture drops whole
  by_cases ha : rd.addr ≤ a ∧ a < rd.rdEnd
  · rw [if_pos ⟨ha.1, ha.2, hnot⟩, if_pos ha]
  · rw [if_neg fun h => ha ⟨h.1, h.2.1⟩, if_neg ha, if_neg ha]

theorem m0BeRegAreaCapture_uncapture_init :
    (m0BeRegAreaInit ⟨2, 8⟩ .dataCopy 100).Wf ∧ m0BeRegDInvariant ⟨10, 4, 0, 7⟩ = true ∧
      (⟨10, 4, 0, 7⟩ : BeRegD).buf = 0 ∧
      m0BeTxCreditLe (m0BeTxCreditAdd ⟨0, 0⟩ (m0BeRegDCredit ⟨10, 4, 0, 7⟩)) ⟨2, 8⟩ = true ∧
      ∃ ra' ra'' mem', m0BeRegAreaCapture (m0BeRegAreaInit ⟨2, 8⟩ .dataCopy 100) (fun _ => 0)
          ⟨10, 4, 0, 7⟩ = some (ra', mem') ∧
        m0BeRegAreaUncapture ra' mem' ⟨10, 4, 0, 7⟩ = some (ra'', mem') ∧ ra''.Wf ∧
        ra''.braCaptured = ⟨1, 4⟩ ∧
        ∀ a, beRegAreaContent ra'' mem' a = if 10 ≤ a ∧ a < 14 then none
          else beRegAreaContent (m0BeRegAreaInit ⟨2, 8⟩ .dataCopy 100) (fun _ => 0) a :=
  ⟨BeRegArea.wf_init _ _, rfl, rfl, rfl,
    m0BeRegAreaCapture_uncapture (BeRegArea.wf_init _ _) _ rfl rfl rfl⟩

/-- `m0_be_reg_area_reset`: the area holds nothing, and a capture may use all of it again. -/
lemma BeRegArea.Wf.reset (hwf : ra.Wf) : (m0BeRegAreaReset ra).Wf where
  type := hwf.type
  sorted := rdtSorted_nil
  splitOnAbsorb := hwf.splitOnAbsorb
  sizeMax := hwf.sizeMax
  size := Nat.zero_le _
  used := rfl
  credit := by simp [m0BeRegAreaReset, m0BeTxCreditLe]
  copies _ _ h := by simp [m0BeRegAreaReset, m0BeRegmapReset, m0BeRdtReset, rdtView] at h

lemma beRegAreaContent_reset (mem : ℕ → UInt8) (a : ℕ) :
    beRegAreaContent (m0BeRegAreaReset ra) mem a = none := by
  simp [beRegAreaContent, m0BeRegAreaReset, m0BeRegmapReset, m0BeRdtReset, rdtView]

/-- A store to memory outside `bra_area` leaves what the area holds. -/
lemma BeRegArea.Wf.content_update (hwf : ra.Wf) (mem : ℕ → UInt8) {x : ℕ} (v : UInt8)
    (hx : x < ra.braArea ∨ ra.braArea + ra.braPrepared.tcRegSize ≤ x) (a : ℕ) :
    beRegAreaContent ra (Function.update mem x v) a = beRegAreaContent ra mem a := by
  unfold beRegAreaContent
  cases hv : rdtView ra.braMap.brRdt.brtR a with
  | none => rfl
  | some w =>
    have := hwf.copies a w hv
    have := hwf.used_le
    simp only [Option.map_some]
    rw [Function.update_of_ne (by omega)]

end Calls

/-! ### Merging a reg area into a no-copy area -/

section MergeIn

/-- The credit `m0_be_reg_area_used` adds up over a list of regions, from `used`. -/
lemma foldl_m0BeTxCreditAdd (L : List BeRegD) (used : BeTxCredit) :
    L.foldl (fun used rd => m0BeTxCreditAdd used (m0BeRegDCredit rd)) used =
      ⟨used.tcRegNr + L.length, used.tcRegSize + (L.map BeRegD.size).sum⟩ := by
  induction L generalizing used with
  | nil => rfl
  | cons r L ih =>
    rw [List.foldl_cons, ih]
    simp only [m0BeTxCreditAdd, m0BeRegDCredit, List.length_cons, List.map_cons, List.sum_cons,
      BeTxCredit.mk.injEq]
    omega

lemma rdtView_cons (r : BeRegD) (L : List BeRegD) (a : ℕ) :
    rdtView (r :: L) a = if r.addr ≤ a ∧ a < r.rdEnd
      then some (r.buf + (a - r.addr), r.genIdx) else rdtView L a := by
  by_cases ha : r.addr ≤ a ∧ a < r.rdEnd
  · have hin : m0BeRegDIsIn r a = true := (m0BeRegDIsIn_iff r a).mpr ha
    simp only [rdtView, List.find?_cons, hin, if_pos ha, Option.map_some]
  · have hin : m0BeRegDIsIn r a = false := by
      rw [← Bool.not_eq_true, m0BeRegDIsIn_iff]
      exact ha
    simp only [rdtView, List.find?_cons, hin, if_neg ha]

/-- `be_reg_area_add` of a region with a copy: the region keeps it. -/
lemma beRegAreaAdd_eq {d : BeRegArea × (ℕ → UInt8)} {rd : BeRegD} (hbuf : rd.buf ≠ 0) :
    beRegAreaAdd d rd = some (d, rd) := by
  simp [beRegAreaAdd, hbuf]

/-- Capturing the regions of a sorted list with copies, one after the other, into a no-copy area
within its prepared credit: the area then holds each byte of the list at the copy the list has
for it, and every other byte as before. -/
lemma BeRegArea.MapWf.foldlM_capture {L : List BeRegD} (hL : RdtSorted L)
    (hbuf : ∀ r ∈ L, r.buf ≠ 0) (mem : ℕ → UInt8) {ra : BeRegArea} (hwf : ra.MapWf)
    (htype : ra.braType = .dataNocopy)
    (hcr : m0BeTxCreditLe ⟨ra.braCaptured.tcRegNr + L.length,
      ra.braCaptured.tcRegSize + (L.map BeRegD.size).sum⟩ ra.braPrepared = true) :
    ∃ ra', L.foldlM (fun s rd => m0BeRegAreaCapture s.1 s.2 rd) (ra, mem) = some (ra', mem) ∧
      ra'.MapWf ∧ ra'.braType = .dataNocopy ∧
      ra'.braCaptured = ⟨ra.braCaptured.tcRegNr + L.length,
        ra.braCaptured.tcRegSize + (L.map BeRegD.size).sum⟩ ∧
      ∀ a, rdtView ra'.braMap.brRdt.brtR a = (rdtView L a).or (rdtView ra.braMap.brRdt.brtR a) := by
  -- the induction is on the list, from any area that keeps the invariant of the map
  induction L generalizing ra with
  | nil =>
    refine ⟨ra, rfl, hwf, htype, by simp, fun a => ?_⟩
    simp [rdtView]
  | cons r L ih =>
    obtain ⟨hr, hrL, hL'⟩ := rdtSorted_cons.mp hL
    have hcrn := (m0BeTxCreditLe_iff _ _).mp hcr
    simp only [List.length_cons, List.map_cons, List.sum_cons] at hcrn
    have hcr₁ : m0BeTxCreditLe (m0BeTxCreditAdd ra.braCaptured (m0BeRegDCredit r))
        ra.braPrepared = true := by
      rw [m0BeTxCreditLe_iff]
      simp only [m0BeTxCreditAdd, m0BeRegDCredit]
      omega
    -- the capture of `r` keeps the copy `r` points to
    have hadd : (beRegAreaOps ra.braType).rmoAdd
        ({ ra with braCaptured := m0BeTxCreditAdd ra.braCaptured (m0BeRegDCredit r) }, mem) r =
        some (({ ra with braCaptured := m0BeTxCreditAdd ra.braCaptured (m0BeRegDCredit r) },
          mem), r) := by
      have hops : beRegAreaOps ra.braType = beRegAreaOpsDataNocopy := by rw [htype]; rfl
      rw [hops]
      exact beRegAreaAdd_eq (hbuf r List.mem_cons_self)
    obtain ⟨rm', hcap, hsoa, hmax, hsorted, -, hlen, hview⟩ := hwf.capture mem hr hcr₁ hadd
    have hwf₁ : BeRegArea.MapWf { ra with
        braCaptured := m0BeTxCreditAdd ra.braCaptured (m0BeRegDCredit r)
        braMap := rm' } :=
      { sorted := hsorted
        splitOnAbsorb := hsoa
        sizeMax := hmax ▸ hwf.sizeMax
        size := hlen
        credit := hcr₁ }
    obtain ⟨ra', hfold, hwf', htype', hcap', hview'⟩ :=
      ih hL' (fun x hx => hbuf x (List.mem_cons_of_mem r hx)) hwf₁ htype (by
        rw [m0BeTxCreditLe_iff]
        simp only [m0BeTxCreditAdd, m0BeRegDCredit]
        omega)
    refine ⟨ra', ?_, hwf', htype', ?_, fun a => ?_⟩
    · rw [List.foldlM_cons, hcap, Option.bind_eq_bind, Option.bind_some]
      exact hfold
    · rw [hcap']
      simp only [m0BeTxCreditAdd, m0BeRegDCredit, List.length_cons, List.map_cons,
        List.sum_cons, BeTxCredit.mk.injEq]
      omega
    · rw [hview' a, hview a, rdtView_cons]
      split_ifs with ha
      · -- the regions after `r` start where it ends
        rw [rdtView_eq_none fun x hx hxa => by have := hrL x hx; omega]
        rfl
      · rfl

/-- **`m0_be_reg_area_merge_in` into a no-copy area**, of an area whose regions all have
copies, within the prepared credit of the no-copy area: its captured credit grows by the credit
`m0_be_reg_area_used` counts in the merged area, and it then holds each byte the merged area
holds, at the copy and generation the merged area has for it, and every other byte as
before. -/
theorem m0BeRegAreaMergeIn_spec {ra src : BeRegArea} (hwf : ra.MapWf)
    (htype : ra.braType = .dataNocopy) (hsrc : RdtSorted src.braMap.brRdt.brtR)
    (hbuf : ∀ r ∈ src.braMap.brRdt.brtR, r.buf ≠ 0)
    (hcr : m0BeTxCreditLe (m0BeTxCreditAdd ra.braCaptured (m0BeRegAreaUsed src))
      ra.braPrepared = true) (mem : ℕ → UInt8) :
    ∃ ra', m0BeRegAreaMergeIn ra mem src = some (ra', mem) ∧ ra'.MapWf ∧
      ra'.braType = .dataNocopy ∧
      ra'.braCaptured = m0BeTxCreditAdd ra.braCaptured (m0BeRegAreaUsed src) ∧
      ∀ a, beRegAreaContent ra' mem a =
        (beRegAreaContent src mem a).or (beRegAreaContent ra mem a) := by
  have hused : m0BeTxCreditAdd ra.braCaptured (m0BeRegAreaUsed src) =
      ⟨ra.braCaptured.tcRegNr + src.braMap.brRdt.brtR.length,
        ra.braCaptured.tcRegSize + (src.braMap.brRdt.brtR.map BeRegD.size).sum⟩ := by
    rw [m0BeRegAreaUsed, foldl_m0BeTxCreditAdd]
    simp only [m0BeTxCreditAdd, Nat.zero_add]
  rw [hused] at hcr ⊢
  obtain ⟨ra', hfold, hwf', htype', hcap, hview⟩ := hwf.foldlM_capture hsrc hbuf mem htype hcr
  refine ⟨ra', hfold, hwf', htype', hcap, fun a => ?_⟩
  unfold beRegAreaContent
  rw [hview a]
  cases rdtView src.braMap.brRdt.brtR a <;> rfl

theorem m0BeRegAreaMergeIn_spec_one :
    (m0BeRegAreaInit ⟨4, 64⟩ .dataNocopy 0).MapWf ∧
      (m0BeRegAreaInit ⟨4, 64⟩ .dataNocopy 0).braType = .dataNocopy ∧
      RdtSorted [⟨10, 4, 200, 3⟩] ∧ (∀ r ∈ [(⟨10, 4, 200, 3⟩ : BeRegD)], r.buf ≠ 0) ∧
      m0BeTxCreditLe (m0BeTxCreditAdd ⟨0, 0⟩
        (m0BeRegAreaUsed ⟨⟨⟨[⟨10, 4, 200, 3⟩], 1⟩, true⟩, .dataCopy, 200, 4, ⟨1, 4⟩, ⟨1, 4⟩⟩))
        ⟨4, 64⟩ = true ∧
      ∃ ra', m0BeRegAreaMergeIn (m0BeRegAreaInit ⟨4, 64⟩ .dataNocopy 0) (fun _ => 0)
          ⟨⟨⟨[⟨10, 4, 200, 3⟩], 1⟩, true⟩, .dataCopy, 200, 4, ⟨1, 4⟩, ⟨1, 4⟩⟩ =
          some (ra', fun _ => 0) ∧
        ra'.MapWf ∧ ra'.braType = .dataNocopy ∧ ra'.braCaptured = ⟨1, 4⟩ ∧
        ∀ a, beRegAreaContent ra' (fun _ => 0) a =
          (beRegAreaContent ⟨⟨⟨[⟨10, 4, 200, 3⟩], 1⟩, true⟩, .dataCopy, 200, 4, ⟨1, 4⟩, ⟨1, 4⟩⟩
            (fun _ => 0) a).or
          (beRegAreaContent (m0BeRegAreaInit ⟨4, 64⟩ .dataNocopy 0) (fun _ => 0) a) :=
  have hsrc : RdtSorted [⟨10, 4, 200, 3⟩] := by decide
  have hbuf : ∀ r ∈ [(⟨10, 4, 200, 3⟩ : BeRegD)], r.buf ≠ 0 := by decide
  ⟨BeRegArea.mapWf_init _ _ _, rfl, hsrc, hbuf, rfl,
    m0BeRegAreaMergeIn_spec (BeRegArea.mapWf_init _ _ _) rfl hsrc hbuf rfl _⟩

end MergeIn

/-! ### Runs of a transaction -/

/-- What a transaction does with its data-copy reg area: it captures a region
(`m0_be_tx_capture`, which gives it no copy), uncaptures one, resets the area, or stores a byte
to memory. -/
inductive BeRegAreaCall
  | capture (rd : BeRegD)
  | uncapture (rd : BeRegD)
  | reset
  | store (a : ℕ) (v : UInt8)

/-- A reg area, the memory, and what the captures took: for each captured address, the byte it
held when it was captured last, and that capture's generation. -/
structure BeRegAreaUser where
  ra : BeRegArea
  mem : ℕ → UInt8
  taken : ℕ → Option (UInt8 × ℕ)

/-- The calls a transaction may make: capture a valid region within the prepared credit and
outside `bra_area` (the copy `be_reg_d_cpy` makes is a `memcpy`, whose source and target must
not overlap), uncapture a valid region, and store only outside `bra_area`. -/
def BeRegAreaCall.Allowed (u : BeRegAreaUser) : BeRegAreaCall → Prop
  | .capture rd => m0BeRegDInvariant rd = true ∧ rd.buf = 0 ∧
      m0BeTxCreditLe (m0BeTxCreditAdd u.ra.braCaptured (m0BeRegDCredit rd)) u.ra.braPrepared
        = true ∧
      (rd.rdEnd ≤ u.ra.braArea ∨ u.ra.braArea + u.ra.braPrepared.tcRegSize ≤ rd.addr)
  | .uncapture rd => m0BeRegDInvariant rd = true
  | .reset => True
  | .store a _ => a < u.ra.braArea ∨ u.ra.braArea + u.ra.braPrepared.tcRegSize ≤ a

/-- A call: a capture takes the bytes of the region as memory holds them when it is made; an
uncapture gives them back, unless the region lies strictly inside one region of the area, which
it leaves alone (the reference `be_ut_reg_area_check` keeps). -/
def beRegAreaStep (u : BeRegAreaUser) : BeRegAreaCall → Option BeRegAreaUser
  | .capture rd => (m0BeRegAreaCapture u.ra u.mem rd).map fun r =>
      ⟨r.1, r.2, fun a => if rd.addr ≤ a ∧ a < rd.rdEnd then some (u.mem a, rd.genIdx)
        else u.taken a⟩
  | .uncapture rd => (m0BeRegAreaUncapture u.ra u.mem rd).map fun r =>
      ⟨r.1, r.2, fun a =>
        if rd.addr ≤ a ∧ a < rd.rdEnd ∧ ¬rdtAbsorbs u.ra.braMap.brRdt.brtR rd then none
        else u.taken a⟩
  | .reset => some ⟨m0BeRegAreaReset u.ra, u.mem, fun _ => none⟩
  | .store a v => some ⟨u.ra, Function.update u.mem a v, u.taken⟩

/-- The states of a run of allowed calls from `m0_be_reg_area_init` of a data-copy area. -/
inductive BeRegAreaReachable : BeRegAreaUser → Prop
  | init (prepared : BeTxCredit) (area : ℕ) (mem : ℕ → UInt8) :
      BeRegAreaReachable ⟨m0BeRegAreaInit prepared .dataCopy area, mem, fun _ => none⟩
  | step {u u' : BeRegAreaUser} {c : BeRegAreaCall} : BeRegAreaReachable u → c.Allowed u →
      beRegAreaStep u c = some u' → BeRegAreaReachable u'

/-- What a run keeps: the area is well formed, and it holds what the captures took. -/
structure BeRegAreaUser.Inv (u : BeRegAreaUser) : Prop where
  wf : u.ra.Wf
  taken : ∀ a, beRegAreaContent u.ra u.mem a = u.taken a

section Step

variable {u : BeRegAreaUser}

lemma BeRegAreaUser.inv_init (prepared : BeTxCredit) (area : ℕ) (mem : ℕ → UInt8) :
    (⟨m0BeRegAreaInit prepared .dataCopy area, mem, fun _ => none⟩ : BeRegAreaUser).Inv where
  wf := BeRegArea.wf_init prepared area
  taken _ := by simp [beRegAreaContent, m0BeRegAreaInit, m0BeRegmapInit, m0BeRdtInit, rdtView]

/-- An allowed call succeeds and keeps the invariant; a capture writes memory only in
`bra_area`. -/
lemma BeRegAreaUser.Inv.step (hu : u.Inv) {c : BeRegAreaCall} (hc : c.Allowed u) :
    ∃ u', beRegAreaStep u c = some u' ∧ u'.Inv ∧ u'.ra.braArea = u.ra.braArea ∧
      u'.ra.braPrepared = u.ra.braPrepared ∧
      ∀ x, x < u.ra.braArea ∨ u.ra.braArea + u.ra.braPrepared.tcRegSize ≤ x →
        (c = .reset ∨ ∃ rd, c = .capture rd) → u'.mem x = u.mem x := by
  cases c with
  | capture rd =>
    obtain ⟨hrd, hbuf, hcr, -⟩ := hc
    obtain ⟨ra', hcap, hwf', harea, hprep, -, -, hcontent⟩ :=
      m0BeRegAreaCapture_spec hu.wf u.mem hrd hbuf hcr
    have hused := ((m0BeTxCreditLe_iff _ _).mp hcr).2
    have hu₀ := hu.wf.used
    simp only [beRegAreaStep, hcap, Option.map_some, Option.some.injEq, exists_eq_left']
    refine ⟨⟨hwf', fun a => ?_⟩, harea, hprep, fun x hx _ => ?_⟩
    · rw [hcontent a]
      dsimp only
      split_ifs
      · rfl
      · exact hu.taken a
    · -- the copy goes to the used part of `bra_area` that the credit allows
      simp only [m0BeTxCreditAdd, m0BeRegDCredit] at hused
      exact memmove_apply_of_disjoint (by omega)
  | uncapture rd =>
    obtain ⟨ra', hunc, hwf', harea, hprep, -, hcontent⟩ := m0BeRegAreaUncapture_spec hu.wf u.mem hc
    simp only [beRegAreaStep, hunc, Option.map_some, Option.some.injEq, exists_eq_left']
    refine ⟨⟨hwf', fun a => ?_⟩, harea, hprep, fun _ _ _ => trivial⟩
    -- the bytes the uncapture drops are those the reference gives back
    rw [hcontent a]
    dsimp only
    split_ifs
    · rfl
    · exact hu.taken a
  | reset =>
    exact ⟨_, rfl, ⟨hu.wf.reset, beRegAreaContent_reset u.mem⟩, rfl, rfl, fun _ _ _ => rfl⟩
  | store x v =>
    refine ⟨_, rfl, ⟨hu.wf, fun a => ?_⟩, rfl, rfl, fun _ _ h => ?_⟩
    · rw [hu.wf.content_update u.mem v hc a]
      exact hu.taken a
    · simp at h

end Step

/-- The invariant holds along every run. -/
lemma BeRegAreaReachable.inv {u : BeRegAreaUser} (h : BeRegAreaReachable u) : u.Inv := by
  induction h with
  | init prepared area mem => exact BeRegAreaUser.inv_init prepared area mem
  | step _ hc hstep ih =>
    obtain ⟨u'', hstep', hinv, -⟩ := ih.step hc
    rw [hstep, Option.some.injEq] at hstep'
    exact hstep' ▸ hinv

/-- **Along every run of a data-copy reg area** of captures within the prepared credit and
outside `bra_area`, uncaptures, resets and stores to memory outside `bra_area`:
`m0_be_reg_area__invariant` holds, no allowed call fails an assertion, a capture or a reset
changes no byte of memory outside `bra_area`, and the area holds for each captured byte the
value it had when it was last captured, with the generation of that capture. -/
theorem beRegArea_run_refines {u : BeRegAreaUser} (hu : BeRegAreaReachable u) :
    m0BeRegAreaInvariant u.ra ∧ (∀ a, beRegAreaContent u.ra u.mem a = u.taken a) ∧
      ∀ c : BeRegAreaCall, c.Allowed u → ∃ u', beRegAreaStep u c = some u' ∧
        ∀ x, x < u.ra.braArea ∨ u.ra.braArea + u.ra.braPrepared.tcRegSize ≤ x →
          (c = .reset ∨ ∃ rd, c = .capture rd) → u'.mem x = u.mem x := by
  have hinv := hu.inv
  refine ⟨hinv.wf.invariant, hinv.taken, fun c hc => ?_⟩
  obtain ⟨u', hstep, -, -, -, hmem⟩ := hinv.step hc
  exact ⟨u', hstep, hmem⟩

theorem beRegArea_run_refines_capture :
    ∃ u : BeRegAreaUser, BeRegAreaReachable u ∧ u.taken 11 = some (0, 7) ∧
      m0BeRegAreaInvariant u.ra ∧ beRegAreaContent u.ra u.mem 11 = some (0, 7) := by
  obtain ⟨ra', hcap, -⟩ := m0BeRegAreaCapture_spec (BeRegArea.wf_init ⟨2, 8⟩ 100) (fun _ => 0)
    (show m0BeRegDInvariant ⟨10, 4, 0, 7⟩ = true from rfl) rfl rfl
  have hu : BeRegAreaReachable ⟨ra', memmove (fun _ => 0) 100 10 4,
      fun a => if 10 ≤ a ∧ a < 14 then some (0, 7) else none⟩ :=
    .step (.init ⟨2, 8⟩ 100 fun _ => 0) (c := .capture ⟨10, 4, 0, 7⟩)
      ⟨rfl, rfl, rfl, Or.inl (by decide)⟩
      (by rw [beRegAreaStep, hcap]; rfl)
  obtain ⟨hinv, htaken, -⟩ := beRegArea_run_refines hu
  exact ⟨_, hu, rfl, hinv, htaken 11⟩

/-- **Along every run of captures and uncaptures** of a data-copy reg area (with resets and
stores to memory outside `bra_area`), the region tree stays sorted by address with its regions
non-empty and pairwise disjoint, within `brt_size_max`, which is `2 * tc_reg_nr - 1` of the
prepared credit; and the area holds exactly the bytes of the reference: each byte a capture
took, with its value then and that capture's generation, until an uncapture gives it back, an
uncapture strictly inside one region of the area giving back nothing. -/
theorem beRegArea_run_tracks_captures {u : BeRegAreaUser} (hu : BeRegAreaReachable u) :
    RdtSorted u.ra.braMap.brRdt.brtR ∧
      u.ra.braMap.brRdt.brtR.length ≤ u.ra.braMap.brRdt.brtSizeMax ∧
      u.ra.braMap.brRdt.brtSizeMax =
        (if u.ra.braPrepared.tcRegNr = 0 then 0 else u.ra.braPrepared.tcRegNr * 2 - 1) ∧
      ∀ a, beRegAreaContent u.ra u.mem a = u.taken a := by
  have hinv := hu.inv
  have hnr := ((m0BeTxCreditLe_iff _ _).mp hinv.wf.credit).1
  have hsize := hinv.wf.size
  refine ⟨hinv.wf.sorted, ?_, hinv.wf.sizeMax, hinv.taken⟩
  -- the captured slots bound the tree, and the prepared ones bound the captured
  rw [hinv.wf.sizeMax]
  split_ifs <;> omega

/-- A capture of `[10, 14)` at generation 7, then its uncapture: the area holds none of its
bytes, as the reference says. -/
theorem beRegArea_run_tracks_captures_uncapture :
    ∃ u : BeRegAreaUser, BeRegAreaReachable u ∧ u.taken 11 = none ∧
      RdtSorted u.ra.braMap.brRdt.brtR ∧ beRegAreaContent u.ra u.mem 11 = none := by
  have hrd : m0BeRegDInvariant ⟨10, 4, 0, 7⟩ = true := rfl
  obtain ⟨ra', hcap, hwf', -, -, -, hnot, -⟩ :=
    m0BeRegAreaCapture_spec (BeRegArea.wf_init ⟨2, 8⟩ 100) (fun _ => 0) hrd rfl rfl
  obtain ⟨ra'', hunc, -⟩ := m0BeRegAreaUncapture_spec hwf' (memmove (fun _ => 0) 100 10 4) hrd
  have hu₁ : BeRegAreaReachable ⟨ra', memmove (fun _ => 0) 100 10 4,
      fun a => if 10 ≤ a ∧ a < 14 then some (0, 7) else none⟩ :=
    .step (.init ⟨2, 8⟩ 100 fun _ => 0) (c := .capture ⟨10, 4, 0, 7⟩)
      ⟨rfl, rfl, rfl, Or.inl (by decide)⟩ (by rw [beRegAreaStep, hcap]; rfl)
  have hu₂ : BeRegAreaReachable ⟨ra'', memmove (fun _ => 0) 100 10 4,
      fun a => if 10 ≤ a ∧ a < 14 ∧ ¬rdtAbsorbs ra'.braMap.brRdt.brtR ⟨10, 4, 0, 7⟩ then none
        else if 10 ≤ a ∧ a < 14 then some (0, 7) else none⟩ :=
    .step hu₁ (c := .uncapture ⟨10, 4, 0, 7⟩) hrd (by rw [beRegAreaStep, hunc]; rfl)
  obtain ⟨hsorted, -, -, htaken⟩ := beRegArea_run_tracks_captures hu₂
  have h11 : (if 10 ≤ 11 ∧ 11 < 14 ∧ ¬rdtAbsorbs ra'.braMap.brRdt.brtR ⟨10, 4, 0, 7⟩ then none
      else if 10 ≤ 11 ∧ 11 < 14 then some ((0 : UInt8), 7) else none) = none :=
    if_pos ⟨by decide, by decide, hnot⟩
  exact ⟨_, hu₂, h11, hsorted, (htaken 11).trans h11⟩

end Motr
