import Motr.Lib.SortedKV

/-!
The pool machine of `pool/pool_machine.c`: the states of the nodes and devices of a pool
version, its spare slots, its count of failures and the pool's list of failed devices, and
`m0_poolmach_state_transit`, which applies one event to them.

A node or device moves along the graph drawn above `m0_poolmach_state_transit`; an event that
names its current state changes nothing, and any other event is refused with `-EINVAL`.
Until the failure vector has been fetched (`pst_su_initialised`), a device event is queued
instead. For a device, the transit also allocates a spare slot when it fails from online or
offline (`spare_usage_arr_update`), writes the new state into its slot while it is repaired
and rebalanced, frees its slot when it comes back online, counts it in `pst_nr_failures`
while it is not online, and keeps it in `po_failed_devices` from its failure until it is back
online.

The arrays are lists, their lengths `pst_nr_nodes`, `pst_nr_devices` and `pst_nr_spares`; a
device of `po_failed_devices` is its index, the list being the pool's one version. A failed
assertion is `none`.
-/

namespace Motr

/-- `EINVAL`. -/
def EINVAL : Int := 22

/-- `enum m0_pool_nd_state`. -/
inductive PoolNdState
  | M0_PNDS_UNKNOWN
  | M0_PNDS_ONLINE
  | M0_PNDS_FAILED
  | M0_PNDS_OFFLINE
  | M0_PNDS_SNS_REPAIRING
  | M0_PNDS_SNS_REPAIRED
  | M0_PNDS_SNS_REBALANCING
  deriving DecidableEq, Repr

open PoolNdState

/-- `enum m0_poolmach_event_owner_type`. -/
inductive PoolmachEventOwnerType
  | M0_POOL_NODE
  | M0_POOL_DEVICE
  deriving DecidableEq, Repr

/-- `struct m0_poolmach_event`. -/
structure PoolmachEvent where
  peType : PoolmachEventOwnerType
  peIndex : Nat
  peState : PoolNdState
  deriving DecidableEq, Repr

/-- `POOL_PM_SPARE_SLOT_UNUSED`, the device index of an unused spare slot. -/
def POOL_PM_SPARE_SLOT_UNUSED : Nat := 0xFFFFFFFF

/-- `struct m0_pool_spare_usage`. -/
structure PoolSpareUsage where
  psuDeviceIndex : Nat
  psuDeviceState : PoolNdState
  deriving DecidableEq, Repr

/-- `struct m0_poolmach_state`, with the pool's `po_failed_devices`. -/
structure PoolmachState where
  pstNodesArray : List PoolNdState
  pstDevicesArray : List PoolNdState
  pstNrFailures : Nat
  pstSpareUsageArray : List PoolSpareUsage
  pstSuInitialised : Bool
  pstEventQueue : List PoolmachEvent
  poFailedDevices : List Nat
  deriving DecidableEq, Repr

/-- The states an event may carry (`M0_IN(event->pe_state, ...)`): all but unknown. -/
def pnValidState (s : PoolNdState) : Bool := s ≠ M0_PNDS_UNKNOWN

/-- The `switch (old_state)` of `m0_poolmach_state_transit`: whether a node or device in
`old` may take the event's state `new`. -/
def pnTransitOk : PoolNdState → PoolNdState → Bool
  | M0_PNDS_UNKNOWN, _ => true
  | M0_PNDS_ONLINE, new => new = M0_PNDS_OFFLINE || new = M0_PNDS_FAILED
  | M0_PNDS_OFFLINE, new => new = M0_PNDS_ONLINE || new = M0_PNDS_FAILED
  | M0_PNDS_FAILED, new => new = M0_PNDS_SNS_REPAIRING
  | M0_PNDS_SNS_REPAIRING, new => new = M0_PNDS_SNS_REPAIRED || new = M0_PNDS_FAILED
  | M0_PNDS_SNS_REPAIRED, new => new = M0_PNDS_SNS_REBALANCING
  | M0_PNDS_SNS_REBALANCING, new => new = M0_PNDS_ONLINE || new = M0_PNDS_SNS_REPAIRED

/-- The loops over the spare slots: the first slot of device index `i` is changed by `f`. -/
def spareSlotUpdate (i : Nat) (f : PoolSpareUsage → PoolSpareUsage) :
    List PoolSpareUsage → List PoolSpareUsage
  | [] => []
  | u :: us => if u.psuDeviceIndex = i then f u :: us else u :: spareSlotUpdate i f us

/-- `spare_usage_arr_update`: the first unused slot takes the device and its state; when no
slot is free, the pool version is left in the DUD state with nothing changed. -/
def spareUsageArrUpdate (ev : PoolmachEvent) (slots : List PoolSpareUsage) :
    List PoolSpareUsage :=
  spareSlotUpdate POOL_PM_SPARE_SLOT_UNUSED (fun _ => ⟨ev.peIndex, ev.peState⟩) slots

/-- The slot of device `i`, as the loops find it. -/
def spareSlotOf (i : Nat) (slots : List PoolSpareUsage) : Option PoolSpareUsage :=
  slots.find? fun u => u.psuDeviceIndex = i

/-- The loop of the `M0_PNDS_ONLINE` case, which clears the spare slot usage of a device
coming back from rebalancing: the slot of device `i`, if any, is freed; `none` when its state
is neither offline nor rebalancing (`M0_ASSERT`). -/
def spareSlotClear (i : Nat) (slots : List PoolSpareUsage) : Option (List PoolSpareUsage) :=
  match spareSlotOf i slots with
  | some u =>
    if u.psuDeviceState = M0_PNDS_OFFLINE ∨ u.psuDeviceState = M0_PNDS_SNS_REBALANCING then
      some (spareSlotUpdate i (fun u => { u with psuDeviceIndex := POOL_PM_SPARE_SLOT_UNUSED })
        slots)
    else none
  | none => some slots

/-- Step 4 of `m0_poolmach_state_transit` for a device event `ev` from `old`, the device
being `pd` of `pst_devices_array` (`in` standing for `pool_failed_devs_tlink_is_in(pd)` or
`disk_is_in(&pool->po_failed_devices, pd)`). -/
def poolmachDeviceUpdate (st : PoolmachState) (ev : PoolmachEvent) (old : PoolNdState) :
    Option PoolmachState :=
  let i := ev.peIndex
  let isIn := decide (i ∈ st.poFailedDevices)
  match ev.peState with
  | M0_PNDS_ONLINE =>
    match spareSlotClear i st.pstSpareUsageArray with
    | none => none
    | some slots =>
      if old = M0_PNDS_UNKNOWN then
        if isIn then none else some { st with pstSpareUsageArray := slots }
      else if old = M0_PNDS_OFFLINE ∨ old = M0_PNDS_SNS_REBALANCING then
        -- `M0_CNT_DEC(state->pst_nr_failures)`
        if st.pstNrFailures = 0 then none
        else some { st with
          pstSpareUsageArray := slots
          pstNrFailures := st.pstNrFailures - 1
          poFailedDevices := if isIn then st.poFailedDevices.erase i else st.poFailedDevices }
      else none
  | M0_PNDS_OFFLINE =>
    if isIn then none else some { st with pstNrFailures := st.pstNrFailures + 1 }
  | M0_PNDS_FAILED =>
    -- a spare slot is allocated only when the device fails from online or offline
    let slots := if old = M0_PNDS_UNKNOWN ∨ old = M0_PNDS_ONLINE ∨ old = M0_PNDS_OFFLINE then
      spareUsageArrUpdate ev st.pstSpareUsageArray else st.pstSpareUsageArray
    let nr := if old = M0_PNDS_OFFLINE ∨ old = M0_PNDS_SNS_REPAIRING then st.pstNrFailures
      else st.pstNrFailures + 1
    some { st with
      pstSpareUsageArray := slots
      pstNrFailures := nr
      poFailedDevices := if isIn then st.poFailedDevices else st.poFailedDevices ++ [i] }
  | M0_PNDS_SNS_REPAIRING | M0_PNDS_SNS_REPAIRED | M0_PNDS_SNS_REBALANCING =>
    -- change the repair spare slot usage
    let slots := spareSlotUpdate i (fun u => { u with psuDeviceState := ev.peState })
      st.pstSpareUsageArray
    if isIn then some { st with pstSpareUsageArray := slots }
    else some { st with
      pstSpareUsageArray := slots
      pstNrFailures := st.pstNrFailures + 1
      poFailedDevices := st.poFailedDevices ++ [i] }
  | M0_PNDS_UNKNOWN => some st

/-- **`m0_poolmach_state_transit`**: the state after the event and the rc. -/
def m0PoolmachStateTransit (st : PoolmachState) (ev : PoolmachEvent) :
    Option (PoolmachState × Int) :=
  if !pnValidState ev.peState then some (st, -EINVAL)
  else
    let arr := match ev.peType with
      | .M0_POOL_NODE => st.pstNodesArray
      | .M0_POOL_DEVICE => st.pstDevicesArray
    match arr[ev.peIndex]? with
    | none => some (st, -EINVAL)
    | some old =>
      if ev.peType = .M0_POOL_DEVICE ∧ !st.pstSuInitialised then
        -- the failure vector is yet to be fetched: the event waits in the queue
        some ({ st with pstEventQueue := st.pstEventQueue ++ [ev] }, 0)
      else if old = ev.peState then some (st, 0)
      else if !pnTransitOk old ev.peState then some (st, -EINVAL)
      else
        match ev.peType with
        | .M0_POOL_NODE =>
          some ({ st with pstNodesArray := st.pstNodesArray.set ev.peIndex ev.peState }, 0)
        | .M0_POOL_DEVICE =>
          (poolmachDeviceUpdate
            { st with pstDevicesArray := st.pstDevicesArray.set ev.peIndex ev.peState }
            ev old).map fun st => (st, 0)

/-- A run of events: the state at the end and the rc of each event. -/
def poolmachRun : List PoolmachEvent → PoolmachState → Option (PoolmachState × List Int)
  | [], st => some (st, [])
  | ev :: evs, st =>
    match m0PoolmachStateTransit st ev with
    | none => none
    | some (st, rc) => (poolmachRun evs st).map fun r => (r.1, rc :: r.2)

/-- The pool machine once its failure vector is applied with no failure: every device
online, every spare slot unused, no failure. -/
def PoolmachState.init (nodes : List PoolNdState) (nrDevices nrSpares : Nat) : PoolmachState where
  pstNodesArray := nodes
  pstDevicesArray := List.replicate nrDevices M0_PNDS_ONLINE
  pstNrFailures := 0
  pstSpareUsageArray := List.replicate nrSpares ⟨POOL_PM_SPARE_SLOT_UNUSED, M0_PNDS_UNKNOWN⟩
  pstSuInitialised := true
  pstEventQueue := []
  poFailedDevices := []

end Motr
