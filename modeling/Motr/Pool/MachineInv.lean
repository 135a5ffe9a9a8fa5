import Motr.Pool.Machine
import Mathlib.Data.List.Perm.Subperm
import Mathlib.Data.List.Nodup

/-!
The invariants of the pool machine, over every run of device events from the state where
every device is online and every spare slot unused.

* `PoolTransition`: the graph drawn above `m0_poolmach_state_transit`; `pnTransitOk_iff`: the
  `switch (old_state)` accepts exactly its edges from a known state.
* `PoolmachInv`: `pst_nr_failures` counts the devices that are not online;
  `po_failed_devices` holds each failed device (failed, repairing, repaired or rebalancing)
  once; every used spare slot holds a distinct failed device, and shows its state but for a
  device that failed again during its repair, whose slot still shows repairing (`SpareState`).
* `m0PoolmachStateTransit_inv`: a device event keeps the invariant, no assertion fails, and
  the event is applied exactly when it is an edge of the graph; `poolmachRun_inv`: so does
  every run.
* `SpareCovered`, `poolmachRun_covered`: while no more devices have failed than there are
  spare slots, each failed device holds a slot.
-/

namespace Motr

open PoolNdState

/-- The graph of node and device states drawn above `m0_poolmach_state_transit`. -/
inductive PoolTransition : PoolNdState → PoolNdState → Prop
  | online_offline : PoolTransition M0_PNDS_ONLINE M0_PNDS_OFFLINE
  | offline_online : PoolTransition M0_PNDS_OFFLINE M0_PNDS_ONLINE
  | online_failed : PoolTransition M0_PNDS_ONLINE M0_PNDS_FAILED
  | offline_failed : PoolTransition M0_PNDS_OFFLINE M0_PNDS_FAILED
  | failed_repairing : PoolTransition M0_PNDS_FAILED M0_PNDS_SNS_REPAIRING
  | repairing_failed : PoolTransition M0_PNDS_SNS_REPAIRING M0_PNDS_FAILED
  | repairing_repaired : PoolTransition M0_PNDS_SNS_REPAIRING M0_PNDS_SNS_REPAIRED
  | repaired_rebalancing : PoolTransition M0_PNDS_SNS_REPAIRED M0_PNDS_SNS_REBALANCING
  | rebalancing_repaired : PoolTransition M0_PNDS_SNS_REBALANCING M0_PNDS_SNS_REPAIRED
  | rebalancing_online : PoolTransition M0_PNDS_SNS_REBALANCING M0_PNDS_ONLINE

lemma PoolTransition.ne {old new : PoolNdState} (h : PoolTransition old new) : old ≠ new := by
  cases h <;> decide

/-- From a known state, the `switch (old_state)` accepts a new state exactly along an edge
of the graph. -/
theorem pnTransitOk_iff {old new : PoolNdState} (hold : old ≠ M0_PNDS_UNKNOWN)
    (hne : old ≠ new) : pnTransitOk old new = true ↔ PoolTransition old new := by
  constructor
  · intro h
    cases old <;> cases new <;> simp_all [pnTransitOk] <;> constructor
  · rintro ⟨⟩ <;> rfl

/-- A device counted in `pst_nr_failures`: one that is not online. -/
def PoolNdState.isFailed : PoolNdState → Bool
  | M0_PNDS_UNKNOWN | M0_PNDS_ONLINE => false
  | _ => true

/-- A device that has failed and is not back online: failed, repairing, repaired or
rebalancing. -/
def PoolNdState.isSnsFailed : PoolNdState → Bool
  | M0_PNDS_FAILED | M0_PNDS_SNS_REPAIRING | M0_PNDS_SNS_REPAIRED | M0_PNDS_SNS_REBALANCING =>
    true
  | _ => false

/-- The state `us` a spare slot may show for its device in state `s`: the device's own, or
repairing for a device that failed again during its repair. -/
def SpareState (us s : PoolNdState) : Prop :=
  s.isSnsFailed ∧ (us = s ∨ s = M0_PNDS_FAILED ∧ us = M0_PNDS_SNS_REPAIRING)

/-- The devices of the used spare slots. -/
def usedSlots (slots : List PoolSpareUsage) : List Nat :=
  (slots.map (·.psuDeviceIndex)).filter (· ≠ POOL_PM_SPARE_SLOT_UNUSED)

/-- **The invariant of the pool machine** once its failure vector is applied. -/
structure PoolmachInv (st : PoolmachState) : Prop where
  su_initialised : st.pstSuInitialised = true
  known : M0_PNDS_UNKNOWN ∉ st.pstDevicesArray
  nr_devices : st.pstDevicesArray.length ≤ POOL_PM_SPARE_SLOT_UNUSED
  nr_failures : st.pstNrFailures = st.pstDevicesArray.countP PoolNdState.isFailed
  failed_devices : ∀ i, i ∈ st.poFailedDevices ↔
    ∃ s, st.pstDevicesArray[i]? = some s ∧ s.isSnsFailed
  failed_nodup : st.poFailedDevices.Nodup
  failed_length : st.poFailedDevices.length = st.pstDevicesArray.countP PoolNdState.isSnsFailed
  spare_state : ∀ u ∈ st.pstSpareUsageArray, u.psuDeviceIndex ≠ POOL_PM_SPARE_SLOT_UNUSED →
    ∃ s, st.pstDevicesArray[u.psuDeviceIndex]? = some s ∧ SpareState u.psuDeviceState s
  spare_nodup : (usedSlots st.pstSpareUsageArray).Nodup

/-- Every failed device holds a spare slot. -/
def SpareCovered (st : PoolmachState) : Prop :=
  ∀ i s, st.pstDevicesArray[i]? = some s → s.isSnsFailed → i ∈ usedSlots st.pstSpareUsageArray

/-! ### The loops over the spare slots -/

section Slots

variable {i : Nat} {f : PoolSpareUsage → PoolSpareUsage} {l A B : List PoolSpareUsage}
  {u v : PoolSpareUsage}

@[simp] lemma length_spareSlotUpdate : (spareSlotUpdate i f l).length = l.length := by
  induction l with
  | nil => rfl
  | cons u us ih =>
    simp only [spareSlotUpdate]
    split <;> simp [ih]

/-- The slot loop changes the first slot of device `i`, or nothing when there is none. -/
lemma spareSlotUpdate_cases (i : Nat) (f : PoolSpareUsage → PoolSpareUsage) :
    ∀ l : List PoolSpareUsage,
      (∀ u ∈ l, u.psuDeviceIndex ≠ i) ∧ spareSlotUpdate i f l = l ∨
        ∃ A v B, l = A ++ v :: B ∧ (∀ u ∈ A, u.psuDeviceIndex ≠ i) ∧ v.psuDeviceIndex = i ∧
          spareSlotUpdate i f l = A ++ f v :: B
  | [] => Or.inl ⟨by simp, rfl⟩
  | u :: us => by
    by_cases hu : u.psuDeviceIndex = i
    · exact Or.inr ⟨[], u, us, rfl, by simp, hu, by simp [spareSlotUpdate, hu]⟩
    · rcases spareSlotUpdate_cases i f us with ⟨hn, he⟩ | ⟨A, v, B, rfl, hA, hv, he⟩
      · refine Or.inl ⟨?_, by simp [spareSlotUpdate, hu, he]⟩
        simpa [hu] using hn
      · refine Or.inr ⟨u :: A, v, B, rfl, ?_, hv, by simp [spareSlotUpdate, hu, he]⟩
        simpa [hu] using hA

/-- `spare_slot_of` finds the slot the loop changes. -/
lemma spareSlotOf_append (hA : ∀ u ∈ A, u.psuDeviceIndex ≠ i) (hv : v.psuDeviceIndex = i) :
    spareSlotOf i (A ++ v :: B) = some v := by
  rw [spareSlotOf, List.find?_append, List.find?_eq_none.mpr fun u hu => by simp [hA u hu],
    Option.none_or, List.find?_cons_of_pos (by simp [hv])]

lemma spareSlotOf_eq_none (h : ∀ u ∈ l, u.psuDeviceIndex ≠ i) : spareSlotOf i l = none :=
  List.find?_eq_none.mpr fun u hu => by simp [h u hu]

@[simp] lemma usedSlots_append : usedSlots (A ++ B) = usedSlots A ++ usedSlots B := by
  simp [usedSlots, List.filter_append]

lemma usedSlots_cons :
    usedSlots (u :: l) = if u.psuDeviceIndex = POOL_PM_SPARE_SLOT_UNUSED then usedSlots l
      else u.psuDeviceIndex :: usedSlots l := by
  by_cases h : u.psuDeviceIndex = POOL_PM_SPARE_SLOT_UNUSED <;> simp [usedSlots, h]

lemma mem_usedSlots : i ∈ usedSlots l ↔ i ≠ POOL_PM_SPARE_SLOT_UNUSED ∧
    ∃ u ∈ l, u.psuDeviceIndex = i := by
  simp only [usedSlots, List.mem_filter, List.mem_map, decide_eq_true_eq]
  tauto

/-- Distinct used slots: past the slot of device `i`, no slot is of `i`. -/
lemma not_mem_of_nodup_usedSlots (hn : (usedSlots (A ++ v :: B)).Nodup)
    (hv : v.psuDeviceIndex = i) (hi : i ≠ POOL_PM_SPARE_SLOT_UNUSED) :
    ∀ u ∈ B, u.psuDeviceIndex ≠ i := by
  intro u hu hui
  rw [usedSlots_append, usedSlots_cons, if_neg (hv ▸ hi), hv, List.nodup_append,
    List.nodup_cons] at hn
  exact hn.2.1.1 (mem_usedSlots.mpr ⟨hi, u, hu, hui⟩)

/-- With fewer used slots than slots, one is free. -/
lemma exists_unused_of_length_lt (h : (usedSlots l).length < l.length) :
    ∃ u ∈ l, u.psuDeviceIndex = POOL_PM_SPARE_SLOT_UNUSED := by
  have hlt : ((l.map (·.psuDeviceIndex)).filter (· ≠ POOL_PM_SPARE_SLOT_UNUSED)).length <
      (l.map (·.psuDeviceIndex)).length := by
    simpa [usedSlots] using h
  obtain ⟨x, hx, hpx⟩ := List.length_filter_lt_length_iff_exists.mp hlt
  obtain ⟨u, hu, rfl⟩ := List.mem_map.mp hx
  exact ⟨u, hu, by simpa using hpx⟩

end Slots

section SlotLoops

variable {i : Nat} {l : List PoolSpareUsage}

/-- `spare_usage_arr_update` for a device `i` without a slot: it takes the first free slot,
with its state `s`, and does so whenever fewer slots are used than there are. -/
lemma spareSlotUpdate_alloc (s : PoolNdState) (hne : ∀ u ∈ l, u.psuDeviceIndex ≠ i)
    (hi : i ≠ POOL_PM_SPARE_SLOT_UNUSED) (hn : (usedSlots l).Nodup) :
    let S := spareSlotUpdate POOL_PM_SPARE_SLOT_UNUSED (fun _ => ⟨i, s⟩) l
    (usedSlots S).Nodup ∧
      (∀ u ∈ S, u.psuDeviceIndex ≠ POOL_PM_SPARE_SLOT_UNUSED →
        u.psuDeviceIndex = i ∧ u.psuDeviceState = s ∨ u.psuDeviceIndex ≠ i ∧ u ∈ l) ∧
      (∀ j ∈ usedSlots l, j ∈ usedSlots S) ∧
      ((usedSlots l).length < l.length → i ∈ usedSlots S) := by
  intro S
  rcases spareSlotUpdate_cases POOL_PM_SPARE_SLOT_UNUSED (fun _ => ⟨i, s⟩) l with
    ⟨hfull, he⟩ | ⟨A, v, B, rfl, -, hv, he⟩
  · -- no free slot: nothing changes, and every slot is used
    simp only [S, he]
    refine ⟨hn, fun u hu _ => Or.inr ⟨hne u hu, hu⟩, fun j hj => hj, fun hlt => ?_⟩
    obtain ⟨u, hu, hunused⟩ := exists_unused_of_length_lt hlt
    exact absurd hunused (hfull u hu)
  · -- the first free slot takes the device
    have hl : usedSlots (A ++ v :: B) = usedSlots A ++ usedSlots B := by
      rw [usedSlots_append, usedSlots_cons, if_pos hv]
    have hS : usedSlots S = usedSlots A ++ i :: usedSlots B := by
      simp only [S, he, usedSlots_append, usedSlots_cons, if_neg hi]
    have hnot : i ∉ usedSlots (A ++ v :: B) := fun h =>
      let ⟨_, u, hu, hui⟩ := mem_usedSlots.mp h
      hne u hu hui
    rw [hl] at hn hnot
    refine ⟨?_, ?_, ?_, fun _ => by simp [hS]⟩
    · rw [hS, List.nodup_middle, List.nodup_cons]
      exact ⟨hnot, hn⟩
    · intro u hu hused
      simp only [S, he, List.mem_append, List.mem_cons] at hu
      rcases hu with hu | rfl | hu
      · exact Or.inr ⟨hne u (by simp [hu]), by simp [hu]⟩
      · exact Or.inl ⟨rfl, rfl⟩
      · exact Or.inr ⟨hne u (by simp [hu]), by simp [hu]⟩
    · intro j hj
      rw [hl] at hj
      rw [hS]
      simp only [List.mem_append, List.mem_cons] at hj ⊢
      tauto

/-- The loop of the repair states: the slot of device `i`, if any, takes the state `s`. -/
lemma spareSlotUpdate_state (s : PoolNdState) (hi : i ≠ POOL_PM_SPARE_SLOT_UNUSED)
    (hn : (usedSlots l).Nodup) :
    let S := spareSlotUpdate i (fun u => { u with psuDeviceState := s }) l
    usedSlots S = usedSlots l ∧
      ∀ u ∈ S, u.psuDeviceIndex = i ∧ u.psuDeviceState = s ∨ u.psuDeviceIndex ≠ i ∧ u ∈ l := by
  intro S
  rcases spareSlotUpdate_cases i (fun u => { u with psuDeviceState := s }) l with
    ⟨hnone, he⟩ | ⟨A, v, B, rfl, hA, hv, he⟩
  · refine ⟨by simp only [S, he], fun u hu => ?_⟩
    simp only [S, he] at hu
    exact Or.inr ⟨hnone u hu, hu⟩
  · have hB := not_mem_of_nodup_usedSlots hn hv hi
    refine ⟨by simp [S, he, usedSlots_cons], ?_⟩
    intro u hu
    simp only [S, he, List.mem_append, List.mem_cons] at hu
    rcases hu with hu | rfl | hu
    · exact Or.inr ⟨hA u hu, by simp [hu]⟩
    · exact Or.inl ⟨hv, by simp⟩
    · exact Or.inr ⟨hB u hu, by simp [hu]⟩

/-- The loop of the online case: the slot of device `i`, if any, is freed. -/
lemma spareSlotUpdate_clear (hi : i ≠ POOL_PM_SPARE_SLOT_UNUSED) (hn : (usedSlots l).Nodup) :
    let S := spareSlotUpdate i (fun u => { u with psuDeviceIndex := POOL_PM_SPARE_SLOT_UNUSED }) l
    (usedSlots S).Nodup ∧
      (∀ u ∈ S, u.psuDeviceIndex ≠ POOL_PM_SPARE_SLOT_UNUSED → u.psuDeviceIndex ≠ i ∧ u ∈ l) ∧
      ∀ j ≠ i, j ∈ usedSlots l → j ∈ usedSlots S := by
  intro S
  rcases spareSlotUpdate_cases i
      (fun u => { u with psuDeviceIndex := POOL_PM_SPARE_SLOT_UNUSED }) l with
    ⟨hnone, he⟩ | ⟨A, v, B, rfl, hA, hv, he⟩
  · simp only [S, he]
    exact ⟨hn, fun u hu _ => ⟨hnone u hu, hu⟩, fun _ _ hj => hj⟩
  · have hB := not_mem_of_nodup_usedSlots hn hv hi
    have hS : usedSlots S = usedSlots A ++ usedSlots B := by
      simp [S, he, usedSlots_cons]
    have hl : usedSlots (A ++ v :: B) = usedSlots A ++ i :: usedSlots B := by
      rw [usedSlots_append, usedSlots_cons, if_neg (hv ▸ hi), hv]
    rw [hl] at hn
    refine ⟨?_, ?_, ?_⟩
    · rw [hS]
      exact (List.nodup_middle.mp hn).of_cons
    · intro u hu hused
      simp only [S, he, List.mem_append, List.mem_cons] at hu
      rcases hu with hu | rfl | hu
      · exact ⟨hA u hu, by simp [hu]⟩
      · exact absurd rfl hused
      · exact ⟨hB u hu, by simp [hu]⟩
    · intro j hji hj
      rw [hl] at hj
      rw [hS]
      simp only [List.mem_append, List.mem_cons] at hj ⊢
      rcases hj with hj | rfl | hj
      · exact Or.inl hj
      · exact absurd rfl hji
      · exact Or.inr hj

end SlotLoops

/-! ### One device event -/

section Step

variable {st : PoolmachState} {ev : PoolmachEvent} {old new : PoolNdState} {i : Nat}

lemma PoolNdState.isFailed_of_isSnsFailed {s : PoolNdState} (h : s.isSnsFailed) :
    s.isFailed := by
  cases s <;> simp_all [PoolNdState.isSnsFailed, PoolNdState.isFailed]

lemma SpareState.isSnsFailed {us s : PoolNdState} (h : SpareState us s) : s.isSnsFailed := h.1

lemma getElem?_set_of_getElem? {l : List PoolNdState} (hi : l[i]? = some old) (s : PoolNdState)
    (j : Nat) : (l.set i s)[j]? = if i = j then some s else l[j]? := by
  have hlt : i < l.length := (List.getElem?_eq_some_iff.mp hi).1
  rw [List.getElem?_set, if_pos hlt]

namespace PoolmachInv

/-- A device in the failed list has failed. -/
lemma mem_failed (hinv : PoolmachInv st) (hi : st.pstDevicesArray[i]? = some old) :
    i ∈ st.poFailedDevices ↔ old.isSnsFailed := by
  rw [hinv.failed_devices]
  constructor
  · rintro ⟨s, hs, hf⟩
    rwa [Option.some.inj (hi.symm.trans hs)]
  · exact fun h => ⟨old, hi, h⟩

/-- A device holds a slot only once it has failed. -/
lemma slot_ne (hinv : PoolmachInv st) (hi : st.pstDevicesArray[i]? = some old)
    (hold : old.isSnsFailed = false) : ∀ u ∈ st.pstSpareUsageArray, u.psuDeviceIndex ≠ i := by
  intro u hu hui
  have hne : u.psuDeviceIndex ≠ POOL_PM_SPARE_SLOT_UNUSED := by
    have := (List.getElem?_eq_some_iff.mp hi).1
    have := hinv.nr_devices
    omega
  obtain ⟨s, hs, hss⟩ := hinv.spare_state u hu hne
  rw [hui, hi] at hs
  rw [← Option.some.inj hs] at hss
  simp [hss.isSnsFailed] at hold

/-- A device index is not the index of an unused slot. -/
lemma ne_unused (hinv : PoolmachInv st) (hi : st.pstDevicesArray[i]? = some old) :
    i ≠ POOL_PM_SPARE_SLOT_UNUSED := by
  have := (List.getElem?_eq_some_iff.mp hi).1
  have := hinv.nr_devices
  omega

/-- **The frame of a step**: the invariant after device `i` moves from `old` to `new`, from
what the step did to the failure count, the failed list and the slots. -/
lemma step (hinv : PoolmachInv st) (hi : st.pstDevicesArray[i]? = some old)
    (hnew : new ≠ M0_PNDS_UNKNOWN) {nr : Nat} {F : List Nat} {S : List PoolSpareUsage}
    (hnr : nr = st.pstNrFailures - (if old.isFailed then 1 else 0) +
      (if new.isFailed then 1 else 0))
    (hF : ∀ j, j ∈ F ↔ j = i ∧ new.isSnsFailed ∨ j ≠ i ∧ j ∈ st.poFailedDevices)
    (hFn : F.Nodup)
    (hFl : F.length = st.poFailedDevices.length - (if old.isSnsFailed then 1 else 0) +
      (if new.isSnsFailed then 1 else 0))
    (hS : ∀ u ∈ S, u.psuDeviceIndex ≠ POOL_PM_SPARE_SLOT_UNUSED →
      u.psuDeviceIndex = i ∧ SpareState u.psuDeviceState new ∨
        u.psuDeviceIndex ≠ i ∧ u ∈ st.pstSpareUsageArray)
    (hSn : (usedSlots S).Nodup) :
    PoolmachInv { st with
      pstDevicesArray := st.pstDevicesArray.set i new
      pstNrFailures := nr
      poFailedDevices := F
      pstSpareUsageArray := S } := by
  have hlt : i < st.pstDevicesArray.length := (List.getElem?_eq_some_iff.mp hi).1
  have hget : st.pstDevicesArray[i] = old := (List.getElem?_eq_some_iff.mp hi).2
  have hset := getElem?_set_of_getElem? hi new
  refine ⟨hinv.su_initialised, ?_, ?_, ?_, ?_, hFn, ?_, ?_, hSn⟩
  · intro hmem
    rcases List.mem_or_eq_of_mem_set hmem with h | h
    · exact hinv.known h
    · exact hnew h.symm
  · simpa using hinv.nr_devices
  · simp only
    rw [List.countP_set hlt, hget, hnr, hinv.nr_failures]
  · intro j
    simp only [hF, hset j]
    by_cases hij : i = j
    · subst hij
      simp [hinv.mem_failed hi]
    · simp [hij, Ne.symm hij, hinv.failed_devices j]
  · simp only
    rw [List.countP_set hlt, hget, hFl, hinv.failed_length]
  · intro u hu hne
    simp only [hset]
    rcases hS u hu hne with ⟨hui, hss⟩ | ⟨hui, hu'⟩
    · exact ⟨new, by simp [hui], hss⟩
    · rw [if_neg (Ne.symm hui)]
      exact hinv.spare_state u hu' hne

end PoolmachInv

/-- Every failed device keeps its slot when the slots a step leaves keep every device but
`i`, and `i`'s own when it stays failed. -/
lemma SpareCovered.step (hcov : SpareCovered st) (hi : st.pstDevicesArray[i]? = some old)
    {S : List PoolSpareUsage}
    (hS : ∀ j ≠ i, j ∈ usedSlots st.pstSpareUsageArray → j ∈ usedSlots S)
    (hSi : new.isSnsFailed → i ∈ usedSlots S) (st' : PoolmachState)
    (hdev : st'.pstDevicesArray = st.pstDevicesArray.set i new)
    (hslots : st'.pstSpareUsageArray = S) : SpareCovered st' := by
  intro j s hj hs
  rw [hdev, getElem?_set_of_getElem? hi] at hj
  rw [hslots]
  by_cases hij : i = j
  · subst hij
    rw [if_pos rfl] at hj
    exact hSi (Option.some.inj hj ▸ hs)
  · rw [if_neg hij] at hj
    exact hS j (Ne.symm hij) (hcov j s hj hs)

end Step

/-! ### From the applied failure vector -/

section Init

variable {nodes : List PoolNdState} {n k : Nat}

/-- Every device online and every slot unused satisfies the invariant, for a number of
devices that fits `pst_nr_devices`. -/
theorem PoolmachState.init_inv (hn : n ≤ POOL_PM_SPARE_SLOT_UNUSED) :
    PoolmachInv (PoolmachState.init nodes n k) where
  su_initialised := rfl
  known := by simp [PoolmachState.init, List.mem_replicate]
  nr_devices := by simpa [PoolmachState.init] using hn
  nr_failures := by simp [PoolmachState.init, List.countP_replicate, PoolNdState.isFailed]
  failed_devices := fun i => by
    simp [PoolmachState.init, List.getElem?_replicate, PoolNdState.isSnsFailed]
  failed_nodup := List.nodup_nil
  failed_length := by simp [PoolmachState.init, List.countP_replicate, PoolNdState.isSnsFailed]
  spare_state := fun u hu hne => by
    simp only [PoolmachState.init, List.mem_replicate] at hu
    exact absurd (hu.2 ▸ rfl) hne
  spare_nodup := by simp [PoolmachState.init, usedSlots]

/-- With every device online, no failed device lacks a slot. -/
theorem PoolmachState.init_covered : SpareCovered (PoolmachState.init nodes n k) := by
  intro i s hs hf
  simp only [PoolmachState.init, List.getElem?_replicate] at hs
  split at hs
  · obtain rfl := Option.some.inj hs
    simp [PoolNdState.isSnsFailed] at hf
  · cases hs

end Init

/-! ### The branches of step 4 -/

section FailedList

variable {F : List Nat} {i : Nat} {b : Bool}

/-- The failed list, kept as it is by a step that leaves device `i` failed or not as before. -/
lemma mem_keep_iff (h : i ∈ F ↔ b = true) : ∀ j, j ∈ F ↔ j = i ∧ b = true ∨ j ≠ i ∧ j ∈ F := by
  intro j
  by_cases hj : j = i
  · subst hj
    simp [h]
  · simp [hj]

lemma mem_append_failed_iff (hb : b = true) :
    ∀ j, j ∈ F ++ [i] ↔ j = i ∧ b = true ∨ j ≠ i ∧ j ∈ F := by
  intro j
  by_cases hj : j = i <;> simp [hj, hb]

lemma mem_erase_failed_iff (hn : F.Nodup) :
    ∀ j, j ∈ F.erase i ↔ j = i ∧ false = true ∨ j ≠ i ∧ j ∈ F := by
  intro j
  simp [hn.mem_erase_iff]

end FailedList

/-- What a device event along an edge leaves: the device in its new state, the invariant,
the spare slots as many as before, and every failed device still holding a slot while there
are slots enough. -/
structure DeviceStepped (st : PoolmachState) (ev : PoolmachEvent) (st' : PoolmachState) :
    Prop where
  devices : st'.pstDevicesArray = st.pstDevicesArray.set ev.peIndex ev.peState
  inv : PoolmachInv st'
  nr_spares : st'.pstSpareUsageArray.length = st.pstSpareUsageArray.length
  covered : SpareCovered st →
    st'.pstDevicesArray.countP PoolNdState.isSnsFailed ≤ st.pstSpareUsageArray.length →
      SpareCovered st'

section Branches

variable {st : PoolmachState} {ev : PoolmachEvent} {old : PoolNdState}

lemma devices_countP_pos (hi : st.pstDevicesArray[ev.peIndex]? = some old)
    {p : PoolNdState → Bool} (h : p old) : 0 < st.pstDevicesArray.countP p :=
  List.countP_pos_iff.mpr ⟨old, List.mem_of_getElem? hi, h⟩

namespace PoolmachInv

/-- The state a slot of the device shows. -/
lemma slot_state (hinv : PoolmachInv st) (hi : st.pstDevicesArray[ev.peIndex]? = some old)
    {u : PoolSpareUsage} (hu : u ∈ st.pstSpareUsageArray) (hui : u.psuDeviceIndex = ev.peIndex) :
    SpareState u.psuDeviceState old := by
  obtain ⟨s, hs, hss⟩ := hinv.spare_state u hu (hui ▸ hinv.ne_unused hi)
  rw [hui, hi] at hs
  rwa [Option.some.inj hs]

/-- No more slots are used than devices have failed. -/
lemma usedSlots_length_le (hinv : PoolmachInv st) :
    (usedSlots st.pstSpareUsageArray).length ≤ st.poFailedDevices.length := by
  refine (hinv.spare_nodup.subperm fun j hj => ?_).length_le
  obtain ⟨hne, u, hu, rfl⟩ := mem_usedSlots.mp hj
  obtain ⟨s, hs, hss⟩ := hinv.spare_state u hu hne
  exact (hinv.failed_devices _).mpr ⟨s, hs, hss.isSnsFailed⟩

end PoolmachInv

/-- An online device taken offline: it is counted as a failure. -/
lemma deviceUpdate_offline (hinv : PoolmachInv st)
    (hi : st.pstDevicesArray[ev.peIndex]? = some M0_PNDS_ONLINE)
    (hev : ev.peState = M0_PNDS_OFFLINE) :
    ∃ st', poolmachDeviceUpdate
        { st with pstDevicesArray := st.pstDevicesArray.set ev.peIndex ev.peState } ev
        M0_PNDS_ONLINE = some st' ∧ DeviceStepped st ev st' := by
  have hin : ev.peIndex ∉ st.poFailedDevices := by
    simp [hinv.mem_failed hi, PoolNdState.isSnsFailed]
  have hslot := hinv.slot_ne hi rfl
  refine ⟨{ st with
      pstDevicesArray := st.pstDevicesArray.set ev.peIndex ev.peState
      pstNrFailures := st.pstNrFailures + 1 }, by simp [poolmachDeviceUpdate, hev, hin],
    ⟨rfl, ?_, rfl, fun hcov _ => ?_⟩⟩
  · exact hinv.step hi (by simp [hev]) (by simp [hev, PoolNdState.isFailed])
      (mem_keep_iff (by simp [hin, hev, PoolNdState.isSnsFailed])) hinv.failed_nodup
      (by simp [hev, PoolNdState.isSnsFailed]) (fun u hu _ => Or.inr ⟨hslot u hu, hu⟩)
      hinv.spare_nodup
  · exact hcov.step hi (fun _ _ hj => hj) (by simp [hev, PoolNdState.isSnsFailed]) _ rfl rfl

/-- An online or offline device that fails: it takes the first free spare slot, if any, and
enters the failed list. -/
lemma deviceUpdate_failed_alloc (hinv : PoolmachInv st)
    (hi : st.pstDevicesArray[ev.peIndex]? = some old)
    (hold : old = M0_PNDS_ONLINE ∨ old = M0_PNDS_OFFLINE) (hev : ev.peState = M0_PNDS_FAILED) :
    ∃ st', poolmachDeviceUpdate
        { st with pstDevicesArray := st.pstDevicesArray.set ev.peIndex ev.peState } ev old =
        some st' ∧ DeviceStepped st ev st' := by
  have hnf : old.isSnsFailed = false := by rcases hold with rfl | rfl <;> rfl
  have hin : ev.peIndex ∉ st.poFailedDevices := by simp [hinv.mem_failed hi, hnf]
  have hslot := hinv.slot_ne hi hnf
  obtain ⟨hSn, hS, hsub, hfree⟩ := spareSlotUpdate_alloc ev.peState hslot
    (hinv.ne_unused hi) hinv.spare_nodup
  have hlt : ev.peIndex < st.pstDevicesArray.length := (List.getElem?_eq_some_iff.mp hi).1
  have hget : st.pstDevicesArray[ev.peIndex] = old := (List.getElem?_eq_some_iff.mp hi).2
  refine ⟨{ st with
      pstDevicesArray := st.pstDevicesArray.set ev.peIndex ev.peState
      pstSpareUsageArray := spareUsageArrUpdate ev st.pstSpareUsageArray
      pstNrFailures := if old = M0_PNDS_OFFLINE then st.pstNrFailures else st.pstNrFailures + 1
      poFailedDevices := st.poFailedDevices ++ [ev.peIndex] }, ?_, ⟨rfl, ?_, ?_, ?_⟩⟩
  · rcases hold with rfl | rfl <;> simp [poolmachDeviceUpdate, hev, hin]
  · have hnr : (if old = M0_PNDS_OFFLINE then st.pstNrFailures else st.pstNrFailures + 1) =
        st.pstNrFailures - (if old.isFailed then 1 else 0) +
          (if ev.peState.isFailed then 1 else 0) := by
      rcases hold with rfl | rfl
      · simp [hev, PoolNdState.isFailed]
      · -- an offline device was already counted
        have hpos : 0 < st.pstNrFailures :=
          hinv.nr_failures ▸ devices_countP_pos hi (p := PoolNdState.isFailed) rfl
        rw [if_pos rfl, hev]
        show st.pstNrFailures = st.pstNrFailures - 1 + 1
        omega
    refine hinv.step hi (by simp [hev]) hnr (mem_append_failed_iff (by rw [hev]; rfl))
      (List.nodup_append.mpr ⟨hinv.failed_nodup, List.nodup_singleton _,
        fun a ha b hb h => hin (List.mem_singleton.mp hb ▸ h ▸ ha)⟩)
      (by rw [hnf, hev]; simp [PoolNdState.isSnsFailed]) (fun u hu hne => ?_) hSn
    rcases hS u hu hne with ⟨hui, hus⟩ | h
    · exact Or.inl ⟨hui, by rw [hus, hev]; exact ⟨rfl, Or.inl rfl⟩⟩
    · exact Or.inr h
  · simp [spareUsageArrUpdate]
  · intro hcov hle
    refine hcov.step hi (fun j _ hj => hsub j hj) (fun _ => hfree ?_) _ rfl rfl
    -- fewer slots are used than devices have failed, one more of which fails now
    have hc : (st.pstDevicesArray.set ev.peIndex ev.peState).countP PoolNdState.isSnsFailed =
        st.pstDevicesArray.countP PoolNdState.isSnsFailed + 1 := by
      rw [List.countP_set hlt, hget, hnf, hev]
      rfl
    have hle' : (st.pstDevicesArray.set ev.peIndex ev.peState).countP PoolNdState.isSnsFailed ≤
        st.pstSpareUsageArray.length := hle
    have hlen := hinv.usedSlots_length_le
    rw [hinv.failed_length] at hlen
    omega


/-- A device that fails during its repair keeps its slot, which still shows repairing, and is
neither counted again nor listed again. -/
lemma deviceUpdate_failed_repairing (hinv : PoolmachInv st)
    (hi : st.pstDevicesArray[ev.peIndex]? = some M0_PNDS_SNS_REPAIRING)
    (hev : ev.peState = M0_PNDS_FAILED) :
    ∃ st', poolmachDeviceUpdate
        { st with pstDevicesArray := st.pstDevicesArray.set ev.peIndex ev.peState } ev
        M0_PNDS_SNS_REPAIRING = some st' ∧ DeviceStepped st ev st' := by
  have hin : ev.peIndex ∈ st.poFailedDevices := (hinv.mem_failed hi).mpr rfl
  have hpos : 0 < st.pstNrFailures :=
    hinv.nr_failures ▸ devices_countP_pos hi (p := PoolNdState.isFailed) rfl
  have hlen : 0 < st.poFailedDevices.length := List.length_pos_of_mem hin
  refine ⟨{ st with pstDevicesArray := st.pstDevicesArray.set ev.peIndex ev.peState },
    by simp [poolmachDeviceUpdate, hev, hin], ⟨rfl, ?_, rfl, fun hcov _ => ?_⟩⟩
  · refine hinv.step hi (by simp [hev]) (by rw [hev]; simp [PoolNdState.isFailed]; omega)
      (mem_keep_iff (by rw [hev]; exact iff_of_true hin rfl)) hinv.failed_nodup
      (by rw [hev]; simp [PoolNdState.isSnsFailed]; omega) (fun u hu hne => ?_) hinv.spare_nodup
    by_cases hui : u.psuDeviceIndex = ev.peIndex
    · -- the slot shows repairing, which `SpareState` allows for a failed device
      have hss := hinv.slot_state hi hu hui
      have hus : u.psuDeviceState = M0_PNDS_SNS_REPAIRING := by
        simpa [SpareState] using hss.2
      exact Or.inl ⟨hui, by rw [hev]; exact ⟨rfl, Or.inr ⟨rfl, hus⟩⟩⟩
    · exact Or.inr ⟨hui, hu⟩
  · exact hcov.step hi (fun _ _ hj => hj) (fun _ => hcov _ _ hi rfl) _ rfl rfl

/-- A failed device whose repair or rebalance moves on: its slot, if any, shows the new
state. -/
lemma deviceUpdate_sns (hinv : PoolmachInv st) (hi : st.pstDevicesArray[ev.peIndex]? = some old)
    (hold : old.isSnsFailed)
    (hev : ev.peState = M0_PNDS_SNS_REPAIRING ∨ ev.peState = M0_PNDS_SNS_REPAIRED ∨
      ev.peState = M0_PNDS_SNS_REBALANCING) :
    ∃ st', poolmachDeviceUpdate
        { st with pstDevicesArray := st.pstDevicesArray.set ev.peIndex ev.peState } ev old =
        some st' ∧ DeviceStepped st ev st' := by
  have hin : ev.peIndex ∈ st.poFailedDevices := (hinv.mem_failed hi).mpr hold
  have hnew : ev.peState.isSnsFailed := by rcases hev with h | h | h <;> rw [h] <;> rfl
  have hnewf : ev.peState.isFailed := PoolNdState.isFailed_of_isSnsFailed hnew
  have hpos : 0 < st.pstNrFailures :=
    hinv.nr_failures ▸ devices_countP_pos hi (PoolNdState.isFailed_of_isSnsFailed hold)
  have hlen : 0 < st.poFailedDevices.length := List.length_pos_of_mem hin
  obtain ⟨hused, hS⟩ := spareSlotUpdate_state ev.peState (hinv.ne_unused hi) hinv.spare_nodup
  refine ⟨{ st with
      pstDevicesArray := st.pstDevicesArray.set ev.peIndex ev.peState
      pstSpareUsageArray := spareSlotUpdate ev.peIndex
        (fun u => { u with psuDeviceState := ev.peState }) st.pstSpareUsageArray }, ?_,
    ⟨rfl, ?_, by simp, fun hcov _ => ?_⟩⟩
  · rcases hev with h | h | h <;> simp [poolmachDeviceUpdate, h, hin]
  · refine hinv.step hi (by rcases hev with h | h | h <;> simp [h])
      (by simp [hnewf, PoolNdState.isFailed_of_isSnsFailed hold]; omega)
      (mem_keep_iff (by simpa [hnew] using hin)) hinv.failed_nodup
      (by simp [hnew, hold]; omega) (fun u hu _ => ?_) (by rw [hused]; exact hinv.spare_nodup)
    rcases hS u hu with ⟨hui, hus⟩ | h
    · exact Or.inl ⟨hui, by rw [hus]; exact ⟨hnew, Or.inl rfl⟩⟩
    · exact Or.inr h
  · exact hcov.step hi (fun _ _ hj => hused ▸ hj) (fun _ => hused ▸ hcov _ _ hi hold) _ rfl rfl

/-- The `M0_PNDS_ONLINE` loop frees the slot of a device whose slot, if any, shows offline or
rebalancing. -/
lemma spareSlotClear_eq {i : Nat} {l : List PoolSpareUsage}
    (h : ∀ u ∈ l, u.psuDeviceIndex = i →
      u.psuDeviceState = M0_PNDS_OFFLINE ∨ u.psuDeviceState = M0_PNDS_SNS_REBALANCING) :
    spareSlotClear i l = some (spareSlotUpdate i
      (fun u => { u with psuDeviceIndex := POOL_PM_SPARE_SLOT_UNUSED }) l) := by
  rcases spareSlotUpdate_cases i
      (fun u => { u with psuDeviceIndex := POOL_PM_SPARE_SLOT_UNUSED }) l with
    ⟨hnone, he⟩ | ⟨A, v, B, rfl, hA, hv, he⟩
  · rw [he, spareSlotClear, spareSlotOf_eq_none hnone]
  · simp only [spareSlotClear, spareSlotOf_append hA hv, if_pos (h v (by simp) hv)]

/-- A device back online: its slot, if any, is freed, it is no longer counted as a failure,
and it leaves the failed list. -/
lemma deviceUpdate_online (hinv : PoolmachInv st) (hi : st.pstDevicesArray[ev.peIndex]? = some old)
    (hold : old = M0_PNDS_OFFLINE ∨ old = M0_PNDS_SNS_REBALANCING)
    (hev : ev.peState = M0_PNDS_ONLINE) :
    ∃ st', poolmachDeviceUpdate
        { st with pstDevicesArray := st.pstDevicesArray.set ev.peIndex ev.peState } ev old =
        some st' ∧ DeviceStepped st ev st' := by
  have hfailed : old.isFailed := by rcases hold with rfl | rfl <;> rfl
  have hpos : 0 < st.pstNrFailures := hinv.nr_failures ▸ devices_countP_pos hi hfailed
  -- a slot of the device shows rebalancing: an offline device has none
  have hslot : ∀ u ∈ st.pstSpareUsageArray, u.psuDeviceIndex = ev.peIndex →
      u.psuDeviceState = M0_PNDS_OFFLINE ∨ u.psuDeviceState = M0_PNDS_SNS_REBALANCING := by
    intro u hu hui
    have hss := hinv.slot_state hi hu hui
    rcases hold with rfl | rfl
    · exact absurd hss.isSnsFailed (by decide)
    · exact Or.inr (by simpa [SpareState] using hss.2)
  obtain ⟨hSn, hS, hsub⟩ := spareSlotUpdate_clear (hinv.ne_unused hi) hinv.spare_nodup
  have hnf : ev.peState.isSnsFailed = false := by rw [hev]; rfl
  refine ⟨{ st with
      pstDevicesArray := st.pstDevicesArray.set ev.peIndex ev.peState
      pstSpareUsageArray := spareSlotUpdate ev.peIndex
        (fun u => { u with psuDeviceIndex := POOL_PM_SPARE_SLOT_UNUSED }) st.pstSpareUsageArray
      pstNrFailures := st.pstNrFailures - 1
      poFailedDevices := if ev.peIndex ∈ st.poFailedDevices then
        st.poFailedDevices.erase ev.peIndex else st.poFailedDevices }, ?_,
    ⟨rfl, ?_, by simp, fun hcov _ => ?_⟩⟩
  · rcases hold with rfl | rfl <;>
      simp [poolmachDeviceUpdate, hev, spareSlotClear_eq hslot, Nat.pos_iff_ne_zero.mp hpos]
  · refine hinv.step hi (by simp [hev])
      (by rw [hev, hfailed]; simp [PoolNdState.isFailed]) ?_ ?_ ?_
      (fun u hu hne => Or.inr (hS u hu hne)) hSn
    · -- the failed list loses the device exactly when it held it
      by_cases hin : ev.peIndex ∈ st.poFailedDevices
      · rw [if_pos hin, hnf]
        exact mem_erase_failed_iff hinv.failed_nodup
      · rw [if_neg hin]
        exact mem_keep_iff (by simpa [hnf] using hin)
    · split
      · exact hinv.failed_nodup.erase _
      · exact hinv.failed_nodup
    · rw [hnf]
      by_cases hin : ev.peIndex ∈ st.poFailedDevices
      · have hsf : old.isSnsFailed := (hinv.mem_failed hi).mp hin
        rw [if_pos hin, List.length_erase_of_mem hin, if_pos hsf]
        simp
      · have hsf : old.isSnsFailed = false := by simpa [hinv.mem_failed hi] using hin
        rw [if_neg hin, hsf]
        simp
  · exact hcov.step hi hsub (by simp [hnf]) _ rfl rfl

/-- **Step 4 along an edge of the graph**, from a state of the invariant. -/
theorem poolmachDeviceUpdate_stepped (hinv : PoolmachInv st)
    (hi : st.pstDevicesArray[ev.peIndex]? = some old) (ht : PoolTransition old ev.peState) :
    ∃ st', poolmachDeviceUpdate
        { st with pstDevicesArray := st.pstDevicesArray.set ev.peIndex ev.peState } ev old =
        some st' ∧ DeviceStepped st ev st' := by
  -- one branch lemma for each edge; the edge is taken on a copy of the event's state
  suffices key : ∀ new, ev.peState = new → PoolTransition old new → ∃ st', poolmachDeviceUpdate
      { st with pstDevicesArray := st.pstDevicesArray.set ev.peIndex ev.peState } ev old =
      some st' ∧ DeviceStepped st ev st' from key _ rfl ht
  intro new hnew ht
  cases ht with
  | online_offline => exact deviceUpdate_offline hinv hi hnew
  | offline_online => exact deviceUpdate_online hinv hi (Or.inl rfl) hnew
  | online_failed => exact deviceUpdate_failed_alloc hinv hi (Or.inl rfl) hnew
  | offline_failed => exact deviceUpdate_failed_alloc hinv hi (Or.inr rfl) hnew
  | failed_repairing => exact deviceUpdate_sns hinv hi rfl (Or.inl hnew)
  | repairing_failed => exact deviceUpdate_failed_repairing hinv hi hnew
  | repairing_repaired => exact deviceUpdate_sns hinv hi rfl (Or.inr (Or.inl hnew))
  | repaired_rebalancing => exact deviceUpdate_sns hinv hi rfl (Or.inr (Or.inr hnew))
  | rebalancing_repaired => exact deviceUpdate_sns hinv hi rfl (Or.inr (Or.inl hnew))
  | rebalancing_online => exact deviceUpdate_online hinv hi (Or.inr rfl) hnew

/-- What `m0_poolmach_state_transit` does with a device event, from a state of the invariant:
along an edge of the graph it applies step 4; an event naming the device's state changes
nothing; any other event is refused with `-EINVAL`. -/
theorem m0PoolmachStateTransit_cases (hinv : PoolmachInv st)
    (hd : ev.peType = .M0_POOL_DEVICE) :
    (∃ old, st.pstDevicesArray[ev.peIndex]? = some old ∧ PoolTransition old ev.peState ∧
      m0PoolmachStateTransit st ev = (poolmachDeviceUpdate
        { st with pstDevicesArray := st.pstDevicesArray.set ev.peIndex ev.peState } ev
        old).map fun st => (st, 0)) ∨
    (st.pstDevicesArray[ev.peIndex]? = some ev.peState ∧
      m0PoolmachStateTransit st ev = some (st, 0)) ∨
    ((¬∃ old, st.pstDevicesArray[ev.peIndex]? = some old ∧
        (PoolTransition old ev.peState ∨ old = ev.peState)) ∧
      m0PoolmachStateTransit st ev = some (st, -EINVAL)) := by
  obtain ⟨ty, i, new⟩ := ev
  simp only at hd ⊢
  subst hd
  by_cases hv : new = M0_PNDS_UNKNOWN
  · -- no event may carry the unknown state
    subst hv
    refine Or.inr (Or.inr ⟨?_, by simp [m0PoolmachStateTransit, pnValidState]⟩)
    rintro ⟨old, hold, ht | rfl⟩
    · cases ht
    · exact hinv.known (List.mem_of_getElem? hold)
  cases hget : st.pstDevicesArray[i]? with
  | none =>
    exact Or.inr (Or.inr ⟨by simp,
      by simp [m0PoolmachStateTransit, pnValidState, hv, hget]⟩)
  | some old =>
    have hold : old ≠ M0_PNDS_UNKNOWN := fun h => hinv.known (h ▸ List.mem_of_getElem? hget)
    by_cases hsame : old = new
    · subst hsame
      exact Or.inr (Or.inl ⟨rfl, by
        simp [m0PoolmachStateTransit, pnValidState, hv, hget, hinv.su_initialised]⟩)
    by_cases ht : PoolTransition old new
    · exact Or.inl ⟨old, rfl, ht, by
        simp [m0PoolmachStateTransit, pnValidState, hv, hget, hinv.su_initialised, hsame,
          (pnTransitOk_iff hold hsame).mpr ht]⟩
    · refine Or.inr (Or.inr ⟨?_, by
        simp [m0PoolmachStateTransit, pnValidState, hv, hget, hinv.su_initialised, hsame,
          (pnTransitOk_iff hold hsame).not.mpr ht]⟩)
      rintro ⟨o, ho, h⟩
      obtain rfl := Option.some.inj ho
      exact h.elim ht hsame

/-- **The transitions the pool machine accepts are the edges of the graph**: from a state of
the invariant, a device event along an edge returns `0` with the device in its new state, one
naming the device's own state returns `0` and changes nothing, and any other returns
`-EINVAL` and changes nothing. -/
theorem m0PoolmachStateTransit_edges (hinv : PoolmachInv st)
    (hd : ev.peType = .M0_POOL_DEVICE) :
    (∀ old, st.pstDevicesArray[ev.peIndex]? = some old → PoolTransition old ev.peState →
      ∃ st', m0PoolmachStateTransit st ev = some (st', 0) ∧
        st'.pstDevicesArray = st.pstDevicesArray.set ev.peIndex ev.peState) ∧
    (st.pstDevicesArray[ev.peIndex]? = some ev.peState →
      m0PoolmachStateTransit st ev = some (st, 0)) ∧
    ((¬∃ old, st.pstDevicesArray[ev.peIndex]? = some old ∧
        (PoolTransition old ev.peState ∨ old = ev.peState)) →
      m0PoolmachStateTransit st ev = some (st, -EINVAL)) := by
  rcases m0PoolmachStateTransit_cases hinv hd with ⟨old, hi, ht, he⟩ | ⟨hi, he⟩ | ⟨hno, he⟩
  · -- along an edge
    refine ⟨fun old' hi' _ => ?_, fun hs => ?_, fun h => absurd ⟨old, hi, Or.inl ht⟩ h⟩
    · obtain rfl := Option.some.inj (hi.symm.trans hi')
      obtain ⟨st', hst', hstep⟩ := poolmachDeviceUpdate_stepped hinv hi ht
      exact ⟨st', by rw [he, hst']; rfl, hstep.devices⟩
    · exact absurd (Option.some.inj (hi.symm.trans hs)) ht.ne
  · -- the device's own state
    refine ⟨fun old hi' ht => ?_, fun _ => he, fun h => absurd ⟨_, hi, Or.inr rfl⟩ h⟩
    exact absurd (Option.some.inj (hi'.symm.trans hi)) ht.ne
  · -- refused
    exact ⟨fun old hi ht => absurd ⟨old, hi, Or.inl ht⟩ hno,
      fun hi => absurd ⟨_, hi, Or.inr rfl⟩ hno, fun _ => he⟩

/-- The theorem at the first failure of device `0` of two, with one spare slot. -/
theorem m0PoolmachStateTransit_edges_init :
    (∀ old, (PoolmachState.init [] 2 1).pstDevicesArray[0]? = some old →
        PoolTransition old M0_PNDS_FAILED →
      ∃ st', m0PoolmachStateTransit (PoolmachState.init [] 2 1)
          ⟨.M0_POOL_DEVICE, 0, M0_PNDS_FAILED⟩ = some (st', 0) ∧
        st'.pstDevicesArray = (PoolmachState.init [] 2 1).pstDevicesArray.set 0 M0_PNDS_FAILED) ∧
    ((PoolmachState.init [] 2 1).pstDevicesArray[0]? = some M0_PNDS_FAILED →
      m0PoolmachStateTransit (PoolmachState.init [] 2 1) ⟨.M0_POOL_DEVICE, 0, M0_PNDS_FAILED⟩ =
        some (PoolmachState.init [] 2 1, 0)) ∧
    ((¬∃ old, (PoolmachState.init [] 2 1).pstDevicesArray[0]? = some old ∧
        (PoolTransition old M0_PNDS_FAILED ∨ old = M0_PNDS_FAILED)) →
      m0PoolmachStateTransit (PoolmachState.init [] 2 1) ⟨.M0_POOL_DEVICE, 0, M0_PNDS_FAILED⟩ =
        some (PoolmachState.init [] 2 1, -EINVAL)) :=
  @m0PoolmachStateTransit_edges _ ⟨.M0_POOL_DEVICE, 0, M0_PNDS_FAILED⟩
    (@PoolmachState.init_inv [] 2 1 (by decide)) rfl

/-- **A device event keeps the invariant**, and no assertion fails: from a state of the
invariant, `m0_poolmach_state_transit` returns a state of the invariant with as many spare
slots, in which every failed device still holds a slot while there are slots enough. -/
theorem m0PoolmachStateTransit_inv (hinv : PoolmachInv st) (hd : ev.peType = .M0_POOL_DEVICE) :
    ∃ st' rc, m0PoolmachStateTransit st ev = some (st', rc) ∧ PoolmachInv st' ∧
      st'.pstSpareUsageArray.length = st.pstSpareUsageArray.length ∧
      (SpareCovered st →
        st'.pstDevicesArray.countP PoolNdState.isSnsFailed ≤ st.pstSpareUsageArray.length →
          SpareCovered st') := by
  rcases m0PoolmachStateTransit_cases hinv hd with ⟨old, hi, ht, he⟩ | ⟨-, he⟩ | ⟨-, he⟩
  · obtain ⟨st', hst', hstep⟩ := poolmachDeviceUpdate_stepped hinv hi ht
    exact ⟨st', 0, by rw [he, hst']; rfl, hstep.inv, hstep.nr_spares, hstep.covered⟩
  · exact ⟨st, 0, he, hinv, rfl, fun h _ => h⟩
  · exact ⟨st, -EINVAL, he, hinv, rfl, fun h _ => h⟩

end Branches

/-! ### Runs -/

/-- The states a run of events passes through, after each of them. -/
def poolmachTrace : List PoolmachEvent → PoolmachState → List PoolmachState
  | [], _ => []
  | ev :: evs, st =>
    match m0PoolmachStateTransit st ev with
    | none => []
    | some (st', _) => st' :: poolmachTrace evs st'

section Runs

variable {st : PoolmachState}

/-- **Every run of device events keeps the invariant** and fails no assertion. -/
theorem poolmachRun_inv : ∀ (evs : List PoolmachEvent) {st : PoolmachState}, PoolmachInv st →
    (∀ ev ∈ evs, ev.peType = .M0_POOL_DEVICE) →
    ∃ st' rcs, poolmachRun evs st = some (st', rcs) ∧ PoolmachInv st'
  | [], st, hinv, _ => ⟨st, [], rfl, hinv⟩
  | ev :: evs, st, hinv, hd => by
    obtain ⟨st₁, rc, h₁, hinv₁, -⟩ := m0PoolmachStateTransit_inv hinv (hd ev (by simp))
    obtain ⟨st', rcs, h, hinv'⟩ :=
      poolmachRun_inv evs hinv₁ fun ev' hev' => hd ev' (by simp [hev'])
    exact ⟨st', rc :: rcs, by simp [poolmachRun, h₁, h], hinv'⟩

/-- The theorem at a device of two that fails, is repaired and fails again, with one spare
slot. -/
theorem poolmachRun_inv_fail_twice :
    ∃ st' rcs, poolmachRun [⟨.M0_POOL_DEVICE, 0, M0_PNDS_FAILED⟩,
        ⟨.M0_POOL_DEVICE, 0, M0_PNDS_SNS_REPAIRING⟩, ⟨.M0_POOL_DEVICE, 0, M0_PNDS_FAILED⟩]
        (PoolmachState.init [] 2 1) = some (st', rcs) ∧ PoolmachInv st' :=
  poolmachRun_inv _ (PoolmachState.init_inv (by decide)) (by decide)

/-- **While no more devices have failed than there are spare slots, each holds one**: along
a run of device events from a state of the invariant where each failed device holds a slot,
if no state passed through has more failed devices than slots, each failed device at the end
holds a slot. -/
theorem poolmachRun_covered : ∀ (evs : List PoolmachEvent) {st st' : PoolmachState}
    {rcs : List Int}, PoolmachInv st → SpareCovered st →
    (∀ ev ∈ evs, ev.peType = .M0_POOL_DEVICE) →
    (∀ s ∈ poolmachTrace evs st,
      s.pstDevicesArray.countP PoolNdState.isSnsFailed ≤ st.pstSpareUsageArray.length) →
    poolmachRun evs st = some (st', rcs) → SpareCovered st'
  | [], st, st', rcs, _, hcov, _, _, h => by
    obtain ⟨rfl, -⟩ := Prod.mk.inj (Option.some.inj h).symm
    exact hcov
  | ev :: evs, st, st', rcs, hinv, hcov, hd, hb, h => by
    obtain ⟨st₁, rc, h₁, hinv₁, hlen₁, hcov₁⟩ := m0PoolmachStateTransit_inv hinv (hd ev (by simp))
    simp only [poolmachTrace, h₁, List.mem_cons, forall_eq_or_imp] at hb
    simp only [poolmachRun, h₁, Option.map_eq_some_iff] at h
    obtain ⟨⟨st'', rcs'⟩, hrun, hres⟩ := h
    obtain ⟨rfl, -⟩ := Prod.mk.inj hres
    exact poolmachRun_covered evs hinv₁ (hcov₁ hcov hb.1) (fun ev' hev' => hd ev' (by simp [hev']))
      (fun s hs => hlen₁ ▸ hb.2 s hs) hrun

/-- The theorem at a device of two that fails and is repaired, with one spare slot: no state
passed through has more than one failed device. -/
theorem poolmachRun_covered_fail_repair :
    (∀ s ∈ poolmachTrace [⟨.M0_POOL_DEVICE, 0, M0_PNDS_FAILED⟩,
        ⟨.M0_POOL_DEVICE, 0, M0_PNDS_SNS_REPAIRING⟩] (PoolmachState.init [] 2 1),
      s.pstDevicesArray.countP PoolNdState.isSnsFailed ≤ 1) ∧
    ∃ st' rcs, poolmachRun [⟨.M0_POOL_DEVICE, 0, M0_PNDS_FAILED⟩,
        ⟨.M0_POOL_DEVICE, 0, M0_PNDS_SNS_REPAIRING⟩] (PoolmachState.init [] 2 1) =
        some (st', rcs) ∧ SpareCovered st' := by
  have hb : ∀ s ∈ poolmachTrace [⟨.M0_POOL_DEVICE, 0, M0_PNDS_FAILED⟩,
      ⟨.M0_POOL_DEVICE, 0, M0_PNDS_SNS_REPAIRING⟩] (PoolmachState.init [] 2 1),
      s.pstDevicesArray.countP PoolNdState.isSnsFailed ≤ 1 := by
    decide
  exact ⟨hb, _, _, rfl, poolmachRun_covered _ (PoolmachState.init_inv (by decide))
    PoolmachState.init_covered (by decide) hb rfl⟩

end Runs

/-- A device that fails again during its repair keeps a slot that shows repairing: with two
devices and one spare slot, device `0` fails, is repaired and fails again; its slot shows
`M0_PNDS_SNS_REPAIRING` while the device is `M0_PNDS_FAILED`. -/
theorem poolmachRun_spare_state_stale :
    poolmachRun [⟨.M0_POOL_DEVICE, 0, M0_PNDS_FAILED⟩, ⟨.M0_POOL_DEVICE, 0, M0_PNDS_SNS_REPAIRING⟩,
        ⟨.M0_POOL_DEVICE, 0, M0_PNDS_FAILED⟩] (PoolmachState.init [] 2 1) =
      some ({ PoolmachState.init [] 2 1 with
        pstDevicesArray := [M0_PNDS_FAILED, M0_PNDS_ONLINE]
        pstNrFailures := 1
        pstSpareUsageArray := [⟨0, M0_PNDS_SNS_REPAIRING⟩]
        poFailedDevices := [0] }, [0, 0, 0]) := by
  decide

end Motr
