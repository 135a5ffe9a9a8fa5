import Motr.Emap.Ext
import Motr.Lib.Mem

/-!
The region map of a transaction (`be/tx_regmap.c`): the regions of a segment a transaction has
captured, each with the place of its copy, kept sorted and without overlap.

`struct m0_be_reg_d_tree` is an array of `brt_size_max` slots whose first `brt_size` are used,
here the list of the used ones. `be_rdt_find_i` finds by binary search the index at which an
address is, or would be: the region that contains it, or the first one after it
(`be_rdt_check_i`). `m0_be_rdt_ins` and `m0_be_rdt_del` shift the array around that index.

`struct m0_be_regmap` adds and deletes regions over the tree. `m0_be_regmap_del` removes an
extent from the map in three steps: it cuts the end of the region in which the extent starts,
deletes every region the extent covers, and cuts the start of the region in which it ends.
`m0_be_regmap_add` deletes the extent before it inserts the new region; a region that
contains the new one with room on both sides is first split in two
(`be_regmap_reg_d_split`), or, when the map does not split on absorb, gets the new data copied
into it (`rmo_cpy`). The map calls its ops (`br_ops`, with `br_ops_data`) on every region it
adds, cuts, splits, copies into or deletes; they are passed to its functions here, since the
ops of a reg area act on the reg area that holds the map.

`struct m0_be_reg_area` is a map with a credit: `m0_be_reg_area_capture` counts the region in
`bra_captured`, asserts that the count stays within `bra_prepared`, and adds the region to
the map; `m0_be_reg_area_uncapture` deletes it. The ops of an `M0_BE_REG_AREA_DATA_COPY` area
copy the bytes of each new region into `bra_area`, from `bra_area_used` on; those of an
`M0_BE_REG_AREA_DATA_NOCOPY` area keep the copy the region points to.

Addresses are natural numbers, in one memory that holds the segment and the copies; the sums
the code forms of them do not wrap, as the regions are in the address space. A failed
`M0_PRE` or `M0_ASSERT` is `none`. The invariants the functions assert on entry and on exit
(`m0_be_rdt__invariant`, whose order and overlap parts are `M0_CHECK_EX` checks, and
`m0_be_reg_area__invariant`), and the other `M0_POST`s, are not checks here: they are what the
theorems prove. Left out: the segment of a region (`br_seg`; the regions of a map are of one
segment), the failure of the allocations in the init functions, and the fini functions.
-/

namespace Motr

/-- `struct m0_be_reg_d`: the region `[addr, addr + size)` (`rd_reg`), the address of its copy
(`rd_buf`, `0` for `NULL`) and its generation index (`rd_gen_idx`). -/
structure BeRegD where
  addr : ℕ
  size : ℕ
  buf : ℕ
  genIdx : ℕ
  deriving DecidableEq, Repr, Inhabited

section RegD

/-- `REGD_EXT`: the extent of the region. -/
def regdExt (rd : BeRegD) : Ext := ⟨rd.addr, rd.addr + rd.size⟩

/-- `m0_be_reg_d__invariant`: a region at a non-null address, of positive size. -/
def m0BeRegDInvariant (rd : BeRegD) : Bool := rd.addr != 0 && 0 < rd.size

/-- `m0_be_reg_d_is_in`. -/
def m0BeRegDIsIn (rd : BeRegD) (ptr : ℕ) : Bool := m0ExtIsIn (regdExt rd) ptr

/-- `be_reg_d_are_overlapping`. -/
def beRegDAreOverlapping (rd1 rd2 : BeRegD) : Bool :=
  m0ExtAreOverlapping (regdExt rd1) (regdExt rd2)

/-- `be_reg_d_is_partof`. -/
def beRegDIsPartof (super sub : BeRegD) : Bool := m0ExtIsPartof (regdExt super) (regdExt sub)

/-- `be_reg_d_fb`: the first byte. -/
def beRegDFb (rd : BeRegD) : ℕ := rd.addr

/-- `be_reg_d_fb1`: the byte before the first. -/
def beRegDFb1 (rd : BeRegD) : ℕ := beRegDFb rd - 1

/-- `be_reg_d_lb`: the last byte. -/
def beRegDLb (rd : BeRegD) : ℕ := rd.addr + rd.size - 1

/-- `be_reg_d_lb1`: the byte after the last. -/
def beRegDLb1 (rd : BeRegD) : ℕ := beRegDLb rd + 1

/-- `be_reg_d_size`. -/
def beRegDSize (rd : BeRegD) : ℕ := rd.size

/-- `m0_be_reg_eq`, the segment aside. -/
def m0BeRegEq (r1 r2 : BeRegD) : Bool := r1.size == r2.size && r1.addr == r2.addr

end RegD

/-! ### The tree -/

/-- `struct m0_be_reg_d_tree`: the used slots `brt_r[0 .. brt_size)`, and `brt_size_max`. -/
structure BeRegDTree where
  brtR : List BeRegD
  brtSizeMax : ℕ
  deriving DecidableEq, Repr

section Tree

/-- `m0_be_rdt_size`. -/
def m0BeRdtSize (rdt : BeRegDTree) : ℕ := rdt.brtR.length

/-- `m0_be_rdt_init`: an empty tree of `size_max` slots. -/
def m0BeRdtInit (sizeMax : ℕ) : BeRegDTree := ⟨[], sizeMax⟩

/-- `m0_be_rdt__invariant`: no more regions than slots, each region valid, and each region
starting before the next one and not overlapping it. -/
def m0BeRdtInvariant (rdt : BeRegDTree) : Prop :=
  m0BeRdtSize rdt ≤ rdt.brtSizeMax ∧ (∀ rd ∈ rdt.brtR, m0BeRegDInvariant rd = true) ∧
    rdt.brtR.IsChain fun r r' => r.addr < r'.addr ∧ beRegDAreOverlapping r r' = false

/-- `be_rdt_check_i`: `index` is where `addr` is, in the tree: the region at `index` contains
it, or `addr` lies between the region before `index` and the one at `index`. -/
def beRdtCheckI (rdt : BeRegDTree) (addr index : ℕ) : Bool :=
  let r := rdt.brtR
  let size := m0BeRdtSize rdt
  (size == 0 && index == 0) ||
  (size != 0 &&
   ((index == size && !m0BeRegDIsIn (r.getD (size - 1) default) addr &&
      decide (addr > (r.getD (size - 1) default).addr)) ||
    (index == 0 && (m0BeRegDIsIn (r.getD 0 default) addr ||
      decide (addr < (r.getD 0 default).addr))) ||
    (decide (index < size) && m0BeRegDIsIn (r.getD index default) addr) ||
    (decide (index < size) && decide (index > 0) &&
      !m0BeRegDIsIn (r.getD (index - 1) default) addr &&
      decide (addr < (r.getD index default).addr) &&
      decide (addr > (r.getD (index - 1) default).addr))))

/-- The loop of `be_rdt_find_i`: halve `[begin, end)` on the start address of the region in
the middle. -/
def beRdtFindILoop (r : List BeRegD) (addr begin end' : ℕ) : ℕ × ℕ :=
  if begin + 1 < end' then
    let mid := (begin + end') / 2
    if (r.getD mid default).addr < addr then beRdtFindILoop r addr mid end'
    else beRdtFindILoop r addr begin mid
  else (begin, end')
termination_by end' - begin
decreasing_by all_goals omega

/-- `be_rdt_find_i`: of the two ends the loop leaves, the one `be_rdt_check_i` accepts
(`size + 1` if neither does), asserted to be at most the size. -/
def beRdtFindI (rdt : BeRegDTree) (addr : ℕ) : Option ℕ :=
  let size := m0BeRdtSize rdt
  let ends := beRdtFindILoop rdt.brtR addr 0 size
  let res := size + 1
  let res := if beRdtCheckI rdt addr ends.1 then ends.1 else res
  let res := if beRdtCheckI rdt addr ends.2 then ends.2 else res
  if size == 0 || res ≤ size then some res else none

/-- `m0_be_rdt_find`: the index of the region that contains `addr` or follows it, `none` for
`NULL` (no region ends after `addr`). -/
def m0BeRdtFind (rdt : BeRegDTree) (addr : ℕ) : Option (Option ℕ) := do
  let i ← beRdtFindI rdt addr
  pure (if i = m0BeRdtSize rdt then none else some i)

/-- `m0_be_rdt_next`: the index after `prev`, `none` after the last. -/
def m0BeRdtNext (rdt : BeRegDTree) (prev : ℕ) : Option (Option ℕ) :=
  if prev < m0BeRdtSize rdt then
    some (if prev = m0BeRdtSize rdt - 1 then none else some (prev + 1))
  else none

/-- `m0_be_rdt_ins`: the region put at the index of its first byte, the regions from there on
shifted up a slot. -/
def m0BeRdtIns (rdt : BeRegDTree) (rd : BeRegD) : Option BeRegDTree :=
  if m0BeRdtSize rdt < rdt.brtSizeMax ∧ 0 < rd.size then do
    let index ← beRdtFindI rdt (beRegDFb rd)
    pure { rdt with brtR := rdt.brtR.insertIdx index rd }
  else none

/-- `m0_be_rdt_del`: the region at the index of the first byte of `rd`, asserted to be `rd`,
is taken out; the index is returned, `none` when no region follows. The assertion reads the
slot at that index, which is asserted here to be a used one. -/
def m0BeRdtDel (rdt : BeRegDTree) (rd : BeRegD) : Option (BeRegDTree × Option ℕ) :=
  if 0 < m0BeRdtSize rdt then do
    let index ← beRdtFindI rdt (beRegDFb rd)
    if index < m0BeRdtSize rdt ∧ m0BeRegEq (rdt.brtR.getD index default) rd = true then
      let rdt' := { rdt with brtR := rdt.brtR.eraseIdx index }
      pure (rdt', if index = m0BeRdtSize rdt' then none else some index)
    else none
  else none

/-- `m0_be_rdt_del` takes a region out. -/
lemma m0BeRdtDel_length {rdt rdt' : BeRegDTree} {rd : BeRegD} {next : Option ℕ}
    (h : m0BeRdtDel rdt rd = some (rdt', next)) : rdt'.brtR.length < rdt.brtR.length := by
  unfold m0BeRdtDel at h
  by_cases hsize : 0 < m0BeRdtSize rdt
  · rw [if_pos hsize, Option.bind_eq_bind, Option.bind_eq_some_iff] at h
    obtain ⟨index, -, h⟩ := h
    by_cases hi : index < m0BeRdtSize rdt ∧ m0BeRegEq (rdt.brtR.getD index default) rd = true
    · rw [if_pos hi, Option.pure_def, Option.some.injEq, Prod.mk.injEq] at h
      rw [← h.1, List.length_eraseIdx_of_lt hi.1]
      exact Nat.sub_lt hsize Nat.one_pos
    · rw [if_neg hi] at h
      cases h
  · rw [if_neg hsize] at h
    cases h

/-- `m0_be_rdt_reset`. -/
def m0BeRdtReset (rdt : BeRegDTree) : BeRegDTree := { rdt with brtR := [] }

end Tree

/-! ### The map -/

/-- `struct m0_be_regmap_ops`, over the state `α` they act on: `br_ops_data` and whatever
memory they touch. Each returns the region it was given a pointer to, as it leaves it. -/
structure BeRegmapOps (α : Type) where
  rmoAdd : α → BeRegD → Option (α × BeRegD)
  rmoDel : α → BeRegD → Option α
  rmoCpy : α → BeRegD → BeRegD → Option α
  rmoCut : α → BeRegD → ℕ → ℕ → Option (α × BeRegD)
  rmoSplit : α → BeRegD → BeRegD → Option (α × BeRegD)

/-- `struct m0_be_regmap`, its ops aside. -/
structure BeRegmap where
  brRdt : BeRegDTree
  brSplitOnAbsorb : Bool
  deriving DecidableEq, Repr

section Map

variable {α : Type} (ops : BeRegmapOps α)

/-- `m0_be_regmap_init`. -/
def m0BeRegmapInit (sizeMax : ℕ) (splitOnAbsorb : Bool) : BeRegmap :=
  ⟨m0BeRdtInit sizeMax, splitOnAbsorb⟩

/-- `m0_be_regmap__invariant`. -/
def m0BeRegmapInvariant (rm : BeRegmap) : Prop := m0BeRdtInvariant rm.brRdt

/-- `be_regmap_find_fb`. -/
def beRegmapFindFb (rm : BeRegmap) (rd : BeRegD) : Option (Option ℕ) :=
  m0BeRdtFind rm.brRdt (beRegDFb rd)

/-- `be_regmap_reg_d_cut`: `rmo_cut`, then `cut_start` bytes off the start of the region and
`cut_end` off its end. -/
def beRegmapRegDCut (d : α) (rd : BeRegD) (cutStart cutEnd : ℕ) : Option (α × BeRegD) :=
  if m0BeRegDInvariant rd = true ∧ rd.size > cutStart + cutEnd then do
    let (d, rd) ← ops.rmoCut d rd cutStart cutEnd
    let rd := { rd with size := rd.size - cutStart, addr := rd.addr + cutStart }
    pure (d, { rd with size := rd.size - cutEnd })
  else none

/-- `be_regmap_reg_d_split`: `rdi` is cut to end where `rd` ends, and `rd_new` is the rest of
it, which `rmo_split` completes (`rd_new` is a local whose other fields it sets). -/
def beRegmapRegDSplit (d : α) (rdi rd : BeRegD) : Option (α × BeRegD × BeRegD) :=
  let rdiBeforeRd := beRegDFb rd - beRegDFb rdi
  let rdiAfterRd := beRegDLb1 rdi - beRegDLb1 rd
  if rdiBeforeRd > 0 ∧ rdiAfterRd > 0 then do
    let rdNew : BeRegD := ⟨beRegDLb1 rd, rdiAfterRd, 0, 0⟩
    let (d, rdi) ← beRegmapRegDCut ops d rdi 0 rdiAfterRd
    let (d, rdNew) ← ops.rmoSplit d rdi rdNew
    pure (d, rdi, rdNew)
  else none

/-- The loop of `m0_be_regmap_del` that deletes, from `rdi` on, the regions `rd` covers. -/
def beRegmapDelLoop (rd : BeRegD) (rdt : BeRegDTree) (d : α) :
    Option ℕ → Option (BeRegDTree × α × Option ℕ)
  | none => some (rdt, d, none)
  | some i =>
    let rdi := rdt.brtR.getD i default
    if beRegDIsPartof rd rdi then
      match ops.rmoDel d rdi, hdel : m0BeRdtDel rdt rdi with
      | some d, some (rdt', next) =>
        have : rdt'.brtR.length < rdt.brtR.length := m0BeRdtDel_length hdel
        beRegmapDelLoop rd rdt' d next
      | _, _ => none
    else some (rdt, d, some i)
termination_by rdt.brtR.length

/-- The first step of `m0_be_regmap_del` ("first intersection"): when the region `rdi` in
which `rd` starts begins before it and ends within it, its end is cut off; the walk goes on
from the region after it. -/
def beRegmapDelFirst (rdt : BeRegDTree) (d : α) (rd : BeRegD) :
    Option ℕ → Option (BeRegDTree × α × Option ℕ)
  | some i =>
    let r := rdt.brtR.getD i default
    if m0BeRegDIsIn r (beRegDFb rd) && !m0BeRegDIsIn r (beRegDLb1 rd) &&
        !beRegDIsPartof rd r then do
      let cut := beRegDSize r - (beRegDFb rd - beRegDFb r)
      let (d, r) ← beRegmapRegDCut ops d r 0 cut
      let rdt := { rdt with brtR := rdt.brtR.set i r }
      let rdi ← m0BeRdtNext rdt i
      pure (rdt, d, rdi)
    else some (rdt, d, some i)
  | none => some (rdt, d, none)

/-- The last step of `m0_be_regmap_del` ("last intersection"): when the region `rdi` the walk
stopped at begins within `rd` and ends after it, its start is cut off. -/
def beRegmapDelLast (rdt : BeRegDTree) (d : α) (rd : BeRegD) :
    Option ℕ → Option (BeRegDTree × α)
  | some i =>
    let r := rdt.brtR.getD i default
    if !m0BeRegDIsIn r (beRegDFb1 rd) && m0BeRegDIsIn r (beRegDLb rd) then do
      let cut := beRegDSize r - (beRegDLb r - beRegDLb rd)
      let (d, r) ← beRegmapRegDCut ops d r cut 0
      pure ({ rdt with brtR := rdt.brtR.set i r }, d)
    else some (rdt, d)
  | none => some (rdt, d)

/-- `m0_be_regmap_del`: from the region in which `rd` starts, the first intersection, the
regions `rd` covers, and the last intersection. -/
def m0BeRegmapDel (rm : BeRegmap) (d : α) (rd : BeRegD) : Option (BeRegmap × α) :=
  if m0BeRegDInvariant rd then do
    let rdi ← beRegmapFindFb rm rd
    let (rdt, d, rdi) ← beRegmapDelFirst ops rm.brRdt d rd rdi
    let (rdt, d, rdi) ← beRegmapDelLoop ops rd rdt d rdi
    let (rdt, d) ← beRegmapDelLast ops rdt d rd rdi
    pure ({ rm with brRdt := rdt }, d)
  else none

/-- The absorb step of `m0_be_regmap_add`: when the region `rdi` in which `rd` starts holds it
with room on both sides, it is split around `rd` (the part after `rd` inserted as a region of
its own), or, without `br_split_on_absorb`, the data of `rd` is copied into it; the flag says
whether it was copied. -/
def beRegmapAddAbsorb (rm : BeRegmap) (d : α) (rd : BeRegD) :
    Option ℕ → Option (BeRegmap × α × Bool)
  | some i =>
    let r := rm.brRdt.brtR.getD i default
    if beRegDFb r < beRegDFb rd ∧ beRegDLb r > beRegDLb rd then
      if rm.brSplitOnAbsorb then do
        let (d, r, rdNew) ← beRegmapRegDSplit ops d r rd
        let rdt ← m0BeRdtIns { rm.brRdt with brtR := rm.brRdt.brtR.set i r } rdNew
        pure ({ rm with brRdt := rdt }, d, false)
      else do
        let d ← ops.rmoCpy d r rd
        pure (rm, d, true)
    else some (rm, d, false)
  | none => some (rm, d, false)

/-- `m0_be_regmap_add`: the absorb step; then, unless the data was copied into the region
that holds `rd`, the extent of `rd` is deleted and a copy of `rd`, through `rmo_add`,
inserted. -/
def m0BeRegmapAdd (rm : BeRegmap) (d : α) (rd : BeRegD) : Option (BeRegmap × α) :=
  if m0BeRegDInvariant rd then do
    let rdi ← beRegmapFindFb rm rd
    let (rm, d, copied) ← beRegmapAddAbsorb ops rm d rd rdi
    if copied then pure (rm, d)
    else do
      let (rm, d) ← m0BeRegmapDel ops rm d rd
      let (d, rdCopy) ← ops.rmoAdd d rd
      let rdt ← m0BeRdtIns rm.brRdt rdCopy
      pure ({ rm with brRdt := rdt }, d)
  else none

/-- `m0_be_regmap_reset`. -/
def m0BeRegmapReset (rm : BeRegmap) : BeRegmap := { rm with brRdt := m0BeRdtReset rm.brRdt }

end Map

/-! ### The reg area -/

/-- `enum m0_be_reg_area_type`. -/
inductive BeRegAreaType
  | dataCopy
  | dataNocopy
  deriving DecidableEq, Repr

/-- `struct m0_be_tx_credit`, of its region counts (`tc_cb_nr` and the debugging balance are
left out). -/
structure BeTxCredit where
  tcRegNr : ℕ
  tcRegSize : ℕ
  deriving DecidableEq, Repr

/-- `m0_be_tx_credit_add`. -/
def m0BeTxCreditAdd (c0 c1 : BeTxCredit) : BeTxCredit :=
  ⟨c0.tcRegNr + c1.tcRegNr, c0.tcRegSize + c1.tcRegSize⟩

/-- `m0_be_tx_credit_le`. -/
def m0BeTxCreditLe (c0 c1 : BeTxCredit) : Bool :=
  c0.tcRegNr ≤ c1.tcRegNr && c0.tcRegSize ≤ c1.tcRegSize

/-- `M0_BE_REG_D_CREDIT`: one region of its size. -/
def m0BeRegDCredit (rd : BeRegD) : BeTxCredit := ⟨1, rd.size⟩

/-- `struct m0_be_reg_area`; `bra_area` is the address of the buffer of the copies. -/
structure BeRegArea where
  braMap : BeRegmap
  braType : BeRegAreaType
  braArea : ℕ
  braAreaUsed : ℕ
  braPrepared : BeTxCredit
  braCaptured : BeTxCredit
  deriving DecidableEq, Repr

section Area

/-- `be_reg_area_alloc`: the next `size` bytes of `bra_area`. -/
def beRegAreaAlloc (ra : BeRegArea) (size : ℕ) : BeRegArea × ℕ :=
  ({ ra with braAreaUsed := ra.braAreaUsed + size }, ra.braArea + ra.braAreaUsed)

/-- `be_reg_d_cpy`: `memcpy` of the region to `dst`. -/
def beRegDCpy (mem : ℕ → UInt8) (dst : ℕ) (rd : BeRegD) : ℕ → UInt8 :=
  memmove mem dst rd.addr rd.size

/-- `be_reg_area_add_copy`: the region gets a copy in `bra_area`. -/
def beRegAreaAddCopy (d : BeRegArea × (ℕ → UInt8)) (rd : BeRegD) :
    Option ((BeRegArea × (ℕ → UInt8)) × BeRegD) :=
  if m0BeRegDInvariant rd = true ∧ rd.buf = 0 then
    let (ra, buf) := beRegAreaAlloc d.1 rd.size
    let rd := { rd with buf := buf }
    some ((ra, beRegDCpy d.2 rd.buf rd), rd)
  else none

/-- `be_reg_area_add`: the region keeps the copy it points to. -/
def beRegAreaAdd (d : BeRegArea × (ℕ → UInt8)) (rd : BeRegD) :
    Option ((BeRegArea × (ℕ → UInt8)) × BeRegD) :=
  if rd.buf ≠ 0 then some (d, rd) else none

/-- `be_reg_area_del`: nothing to do. -/
def beRegAreaDel (d : BeRegArea × (ℕ → UInt8)) (_rd : BeRegD) :
    Option (BeRegArea × (ℕ → UInt8)) :=
  some d

/-- `be_reg_area_cpy_copy`: the region's bytes copied into the copy of `super`. -/
def beRegAreaCpyCopy (d : BeRegArea × (ℕ → UInt8)) (super rd : BeRegD) :
    Option (BeRegArea × (ℕ → UInt8)) :=
  if m0BeRegDInvariant rd = true ∧ beRegDIsPartof super rd = true ∧ super.buf ≠ 0 ∧
      rd.buf = 0 then
    some (d.1, beRegDCpy d.2 (super.buf + (rd.addr - super.addr)) rd)
  else none

/-- `be_reg_area_cpy`: the copy of the region copied into the copy of `super`. -/
def beRegAreaCpy (d : BeRegArea × (ℕ → UInt8)) (super rd : BeRegD) :
    Option (BeRegArea × (ℕ → UInt8)) :=
  if m0BeRegDInvariant rd = true ∧ beRegDIsPartof super rd = true ∧ super.buf ≠ 0 ∧
      rd.buf ≠ 0 then
    some (d.1, memmove d.2 (super.buf + (rd.addr - super.addr)) rd.buf rd.size)
  else none

/-- `be_reg_area_cut`: the copy starts `cut_at_start` bytes further. -/
def beRegAreaCut (d : BeRegArea × (ℕ → UInt8)) (rd : BeRegD) (cutAtStart _cutAtEnd : ℕ) :
    Option ((BeRegArea × (ℕ → UInt8)) × BeRegD) :=
  some (d, { rd with buf := rd.buf + cutAtStart })

/-- `be_reg_area_split`: the new region's copy is the rest of the copy of the region it was
split from, of the same generation. -/
def beRegAreaSplit (d : BeRegArea × (ℕ → UInt8)) (rd rdNew : BeRegD) :
    Option ((BeRegArea × (ℕ → UInt8)) × BeRegD) :=
  some (d, { rdNew with buf := rd.buf + rd.size, genIdx := rd.genIdx })

/-- `be_reg_area_ops_data_copy`. -/
def beRegAreaOpsDataCopy : BeRegmapOps (BeRegArea × (ℕ → UInt8)) :=
  ⟨beRegAreaAddCopy, beRegAreaDel, beRegAreaCpyCopy, beRegAreaCut, beRegAreaSplit⟩

/-- `be_reg_area_ops_data_nocopy`. -/
def beRegAreaOpsDataNocopy : BeRegmapOps (BeRegArea × (ℕ → UInt8)) :=
  ⟨beRegAreaAdd, beRegAreaDel, beRegAreaCpy, beRegAreaCut, beRegAreaSplit⟩

/-- `be_reg_area_ops`. -/
def beRegAreaOps : BeRegAreaType → BeRegmapOps (BeRegArea × (ℕ → UInt8))
  | .dataCopy => beRegAreaOpsDataCopy
  | .dataNocopy => beRegAreaOpsDataNocopy

/-- `m0_be_reg_area_init`, with `bra_area` allocated at `area` for a `DATA_COPY` area: the map
has room for twice the prepared regions less one (an absorbed capture adds two regions), and
splits on absorb. -/
def m0BeRegAreaInit (prepared : BeTxCredit) (type : BeRegAreaType) (area : ℕ) : BeRegArea :=
  { braMap := m0BeRegmapInit (if prepared.tcRegNr = 0 then 0 else prepared.tcRegNr * 2 - 1) true
    braType := type
    braArea := if type = .dataCopy then area else 0
    braAreaUsed := 0
    braPrepared := prepared
    braCaptured := ⟨0, 0⟩ }

/-- `m0_be_reg_area__invariant`. -/
def m0BeRegAreaInvariant (ra : BeRegArea) : Prop :=
  m0BeRegmapInvariant ra.braMap ∧ ra.braAreaUsed ≤ ra.braPrepared.tcRegSize ∧
    m0BeTxCreditLe ra.braCaptured ra.braPrepared = true

/-- `m0_be_reg_area_used`: the credit of the regions of the map. -/
def m0BeRegAreaUsed (ra : BeRegArea) : BeTxCredit :=
  ra.braMap.brRdt.brtR.foldl (fun used rd => m0BeTxCreditAdd used (m0BeRegDCredit rd)) ⟨0, 0⟩

/-- `m0_be_reg_area_capture` of `rd` from the memory `mem`: the region is counted, the count
asserted to be within the prepared credit, and the region added to the map. -/
def m0BeRegAreaCapture (ra : BeRegArea) (mem : ℕ → UInt8) (rd : BeRegD) :
    Option (BeRegArea × (ℕ → UInt8)) :=
  if m0BeRegDInvariant rd then
    let captured := m0BeTxCreditAdd ra.braCaptured (m0BeRegDCredit rd)
    if m0BeTxCreditLe captured ra.braPrepared then do
      let ra := { ra with braCaptured := captured }
      let (map, ra', mem) ← m0BeRegmapAdd (beRegAreaOps ra.braType) ra.braMap (ra, mem) rd
      pure ({ ra' with braMap := map }, mem)
    else none
  else none

/-- `m0_be_reg_area_uncapture`. -/
def m0BeRegAreaUncapture (ra : BeRegArea) (mem : ℕ → UInt8) (rd : BeRegD) :
    Option (BeRegArea × (ℕ → UInt8)) :=
  if m0BeRegDInvariant rd then do
    let (map, ra', mem) ← m0BeRegmapDel (beRegAreaOps ra.braType) ra.braMap (ra, mem) rd
    pure ({ ra' with braMap := map }, mem)
  else none

/-- `m0_be_reg_area_merge_in`: each region of `src`, from the first to the last, captured into
`ra`. -/
def m0BeRegAreaMergeIn (ra : BeRegArea) (mem : ℕ → UInt8) (src : BeRegArea) :
    Option (BeRegArea × (ℕ → UInt8)) :=
  src.braMap.brRdt.brtR.foldlM (fun s rd => m0BeRegAreaCapture s.1 s.2 rd) (ra, mem)

/-- `m0_be_reg_area_reset`. -/
def m0BeRegAreaReset (ra : BeRegArea) : BeRegArea :=
  { ra with braMap := m0BeRegmapReset ra.braMap, braAreaUsed := 0, braCaptured := ⟨0, 0⟩ }

end Area

end Motr
