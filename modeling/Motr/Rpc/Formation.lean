import Mathlib
import Motr.Lib.SortedKV

/-!
The rpc formation machine (`rpc/formation2.c`, `rpc/packet.c`).

Items wait in two queues, `FRMQ_URGENT` for those whose deadline has passed and
`FRMQ_WAITING` for the others, each sorted by `item_less_or_equal` (priority descending, then
deadline ascending). `frm_balance` forms packets while `frm_is_ready`: `frm_fill_packet` walks
the urgent queue and then the waiting queue, skips the items that do not fit, removes those
that have failed and moves the others into the packet, then tops the packet up from the item
sources of the machine's connections; a non-empty packet goes to `fo_packet_ready`.

What the code leaves to its surroundings is an input here (`FrmEnv`): whether each packet's
allocation succeeds and what `fo_packet_ready` returns for it, the states of the item sources,
the time and whether the deadline timer arms. `frm_balance` stops only when the machine is not
ready or a packet comes out empty, and an item source may supply items for ever, so its loop
runs on fuel.

Fault injection, `frm_try_merging_item` (which does nothing), the deadline timer itself, the
item's state machine beyond `M0_RPC_ITEM_FAILED`, and the reference counts are not modelled.
-/

namespace Motr

/-- `enum m0_rpc_frm_state` once the machine is initialised. -/
inductive FrmState
  | idle
  | busy
  deriving DecidableEq, Repr

/-- `enum m0_rpc_frm_itemq_type`. -/
inductive FrmItemqType
  | urgent
  | waiting
  deriving DecidableEq, Repr

/-- An rpc item as formation sees it: its address, `ri_prio`, `ri_deadline`,
`m0_rpc_item_payload_size`, and whether its state is `M0_RPC_ITEM_FAILED`. -/
structure RpcItem where
  addr : ℕ
  riPrio : ℕ
  riDeadline : ℕ
  payloadSize : ℕ
  failed : Bool
  deriving DecidableEq, Repr

/-- The on-wire sizes that xcode computes once at start-up: `m0_rpc_item_onwire_header_size`
and `_footer_size`, `m0_rpc_packet_onwire_header_size()` and `_footer_size()`. An item's
header is never empty on the wire. -/
structure RpcOnwire where
  itemHeader : ℕ
  itemFooter : ℕ
  packetHeader : ℕ
  packetFooter : ℕ
  itemHeader_pos : 0 < itemHeader

/-- `struct m0_rpc_frm_constraints` (`fc_max_nr_segments` is not read by formation). -/
structure RpcFrmConstraints where
  fcMaxNrPacketsEnqed : ℕ
  fcMaxPacketSize : ℕ
  fcMaxNrBytesAccumulated : ℕ
  deriving DecidableEq, Repr

/-- `struct m0_rpc_packet`: its items in order and `rp_size`. -/
structure RpcPacket where
  rpItems : List RpcItem
  rpSize : ℕ
  deriving DecidableEq, Repr

/-- `struct m0_rpc_frm`: `f_state`, the two queues `f_itemq[FRMQ_URGENT]` and
`f_itemq[FRMQ_WAITING]`, and its counters. -/
structure RpcFrm where
  fState : FrmState
  fUrgent : List RpcItem
  fWaiting : List RpcItem
  fNrItems : ℕ
  fNrBytesAccumulated : ℕ
  fNrPacketsEnqed : ℕ
  deriving DecidableEq, Repr

/-- `struct m0_rpc_item_source_ops` over sources with state `σ`: `riso_has_item`, and
`riso_get_item`, which returns an item or NULL with the source's next state. -/
structure RpcItemSourceOps (σ : Type) where
  risoHasItem : σ → Bool
  risoGetItem : σ → ℕ → Option RpcItem × σ

/-- `m0_rpc_frm_constraints_get_defaults`. -/
def m0RpcFrmConstraintsGetDefaults : RpcFrmConstraints :=
  ⟨100, 4096, 4096⟩

/-- `m0_rpc_frm_init`: both queues empty, `FRM_IDLE`. -/
def m0RpcFrmInit : RpcFrm :=
  ⟨.idle, [], [], 0, 0, 0⟩

/-- `f_itemq[q]`. -/
def RpcFrm.fItemq (frm : RpcFrm) : FrmItemqType → List RpcItem
  | .urgent => frm.fUrgent
  | .waiting => frm.fWaiting

/-- The items on either queue. -/
def RpcFrm.queued (frm : RpcFrm) : List RpcItem :=
  frm.fUrgent ++ frm.fWaiting

section Sizes

variable (w : RpcOnwire) (c : RpcFrmConstraints)

/-- `m0_rpc_item_size`: the item's header, payload and footer on the wire. -/
def m0RpcItemSize (item : RpcItem) : ℕ :=
  w.itemHeader + item.payloadSize + w.itemFooter

/-- `item_less_or_equal`: the order of a queue, priority descending, then deadline ascending. -/
def itemLessOrEqual (i0 i1 : RpcItem) : Bool :=
  i1.riPrio < i0.riPrio || (i0.riPrio == i1.riPrio && i0.riDeadline ≤ i1.riDeadline)

/-- `itemq_invariant`: each item is `item_less_or_equal`-after the one before it. -/
def itemqInvariant (q : List RpcItem) : Prop :=
  q.IsChain fun i0 i1 => itemLessOrEqual i0 i1 = true

/-- `itemq_nr_bytes_acc`: the on-wire sizes of the items of a queue. -/
def itemqNrBytesAcc (q : List RpcItem) : ℕ :=
  (q.map (m0RpcItemSize w)).sum

/-- `frm_is_idle`. -/
def frmIsIdle (frm : RpcFrm) : Bool :=
  frm.fNrItems == 0 && frm.fNrPacketsEnqed == 0

/-- `frm_invariant`: the machine is idle exactly when `frm_is_idle`, both queues are sorted, and
the counters are the totals over the queues. -/
structure FrmInvariant (frm : RpcFrm) : Prop where
  idle : frm.fState = .idle ↔ frmIsIdle frm = true
  urgent : itemqInvariant frm.fUrgent
  waiting : itemqInvariant frm.fWaiting
  nrItems : frm.fNrItems = frm.fUrgent.length + frm.fWaiting.length
  nrBytes : frm.fNrBytesAccumulated = itemqNrBytesAcc w frm.fUrgent + itemqNrBytesAcc w frm.fWaiting

/-- `m0_rpc_packet_init`: no item, the packet's header and footer. -/
def m0RpcPacketInit : RpcPacket :=
  ⟨[], w.packetHeader + w.packetFooter⟩

/-- `m0_rpc_packet_add_item`: the item goes last. -/
def m0RpcPacketAddItem (p : RpcPacket) (item : RpcItem) : RpcPacket :=
  ⟨p.rpItems ++ [item], p.rpSize + m0RpcItemSize w item⟩

/-- `available_space_in_packet`; `none` when its precondition `rp_size <= fc_max_packet_size`
fails. -/
def availableSpaceInPacket (p : RpcPacket) : Option ℕ :=
  if p.rpSize ≤ c.fcMaxPacketSize then some (c.fcMaxPacketSize - p.rpSize) else none

/-- `frm_is_ready`: fewer packets in flight than allowed, and an urgent item or enough bytes. -/
def frmIsReady (frm : RpcFrm) : Bool :=
  decide (frm.fNrPacketsEnqed < c.fcMaxNrPacketsEnqed) &&
    (!frm.fUrgent.isEmpty || decide (c.fcMaxNrBytesAccumulated ≤ frm.fNrBytesAccumulated))

end Sizes

/-! ### The queues -/

/-- `frm_which_qtype`: urgent once `m0_time_now()` has reached the deadline. -/
def frmWhichQtype (now : ℕ) (item : RpcItem) : FrmItemqType :=
  if item.riDeadline ≤ now then .urgent else .waiting

/-- `__itemq_insert`: insertion sort, the new item before the first one that is not
`item_less_or_equal` to it, or last. -/
def itemqInsert (new : RpcItem) : List RpcItem → List RpcItem
  | [] => [new]
  | item :: q => if itemLessOrEqual item new then item :: itemqInsert new q else new :: item :: q

/-- Put `q` in place of `f_itemq[qt]`. -/
def RpcFrm.setItemq (frm : RpcFrm) (qt : FrmItemqType) (q : List RpcItem) : RpcFrm :=
  match qt with
  | .urgent => { frm with fUrgent := q }
  | .waiting => { frm with fWaiting := q }

/-- A field of an item changes where the item stands on its queue. -/
def RpcFrm.updateItem (frm : RpcFrm) (item item' : RpcItem) : RpcFrm :=
  { frm with
    fUrgent := frm.fUrgent.map fun x => if x = item then item' else x
    fWaiting := frm.fWaiting.map fun x => if x = item then item' else x }

/-- `__itemq_remove`: unlink the item from the queue it is on; `none` when it is on none
(`itemq_tlink_del_fini` asserts that it is linked). -/
def itemqRemove (frm : RpcFrm) (item : RpcItem) : Option RpcFrm :=
  if item ∈ frm.fUrgent then some { frm with fUrgent := frm.fUrgent.erase item }
  else if item ∈ frm.fWaiting then some { frm with fWaiting := frm.fWaiting.erase item }
  else none

/-- `item_move_to_urgent_queue`: unlink the item and insert it, as it is now, into the urgent
queue. -/
def itemMoveToUrgentQueue (frm : RpcFrm) (item : RpcItem) : Option RpcFrm :=
  (itemqRemove frm item).map fun frm' => { frm' with fUrgent := itemqInsert item frm'.fUrgent }

/-- What `m0_rpc_item_failed` does to an item still on a queue: its state becomes
`M0_RPC_ITEM_FAILED` where it stands, and formation is not told. `none`: it had failed
already. -/
def m0RpcItemFailed (frm : RpcFrm) (item : RpcItem) : Option RpcFrm :=
  if item.failed then none else some (frm.updateItem item { item with failed := true })

section Machine

variable (w : RpcOnwire) (c : RpcFrmConstraints)

/-- `frm_insert` at time `now`, `armOk` saying whether `m0_sm_timeout_arm` succeeds. The item
enters the queue of its deadline and its state becomes ENQUEUED or URGENT, no longer FAILED.
When the deadline timer of a waiting item cannot be armed, its deadline becomes 0 and it moves
to the urgent queue. `none`: the item is already on a queue. -/
def frmInsert (frm : RpcFrm) (item : RpcItem) (now : ℕ) (armOk : Bool) : Option RpcFrm :=
  if item.addr ∈ frm.queued.map (·.addr) then none
  else
    let qt := frmWhichQtype now item
    let item := { item with failed := false }
    let frm1 : RpcFrm := { frm.setItemq qt (itemqInsert item (frm.fItemq qt)) with
      fNrItems := frm.fNrItems + 1
      fNrBytesAccumulated := frm.fNrBytesAccumulated + m0RpcItemSize w item
      fState := if frm.fState = .idle then .busy else frm.fState }
    if qt = .waiting ∧ armOk = false then
      -- `ri_deadline = 0`, `item_move_to_urgent_queue`, `goto up`
      itemMoveToUrgentQueue (frm1.updateItem item { item with riDeadline := 0 })
        { item with riDeadline := 0 }
    else some frm1

/-- `frm_remove`: the item leaves its queue and the counters, and the machine becomes idle when
`frm_is_idle`. `none`: the preconditions `f_nr_items > 0` and `ri_itemq != NULL` fail. -/
def frmRemove (frm : RpcFrm) (item : RpcItem) : Option RpcFrm :=
  if frm.fNrItems = 0 then none
  else (itemqRemove frm item).map fun frm1 =>
    let frm2 := { frm1 with
      fNrItems := frm1.fNrItems - 1
      fNrBytesAccumulated := frm1.fNrBytesAccumulated - m0RpcItemSize w item }
    if frmIsIdle frm2 then { frm2 with fState := .idle } else frm2

/-- What `frm_fill_packet` has done so far: the machine, the packet, the items it moved from the
queues into the packet and those it removed as failed, in order, and whether it stopped on a
full packet (`goto out`). -/
structure FrmFill where
  frm : RpcFrm
  packet : RpcPacket
  moved : List RpcItem
  failed : List RpcItem
  out : Bool

/-- The walk of `frm_fill_packet` over one queue, as the deletion-safe `m0_tl_for` makes it:
over the items the queue held when the walk began. -/
def frmFillPacketItemq : List RpcItem → FrmFill → Option FrmFill
  | [], f => some f
  | item :: rest, f => do
    let avail ← availableSpaceInPacket c f.packet
    if avail = 0 then pure { f with out := true }
    else if avail < m0RpcItemSize w item then frmFillPacketItemq rest f
    else if item.failed then do
      -- cancelled while URGENT
      let frm ← frmRemove w f.frm item
      frmFillPacketItemq rest { f with frm := frm, failed := f.failed ++ [item] }
    else do
      let frm ← frmRemove w f.frm item
      frmFillPacketItemq rest { f with
        frm := frm
        packet := m0RpcPacketAddItem w f.packet item
        moved := f.moved ++ [item] }

section Sources

variable {σ : Type} (ops : RpcItemSourceOps σ)

/-- The loop `while (riso_has_item(source))` of `frm_fill_packet_from_item_sources` on one
source: the packet, the source's next state, and whether the packet is full (`goto out`).
`none`: the item the source gave does not fit (`M0_ASSERT`). -/
def frmFillPacketFromItemSource (src : σ) (p : RpcPacket) : Option (RpcPacket × σ × Bool) :=
  if ops.risoHasItem src then
    match h : availableSpaceInPacket c p with
    | none => none
    | some avail =>
      if avail ≤ w.itemHeader + w.itemFooter then some (p, src, true)
      else
        match ops.risoGetItem src (avail - (w.itemHeader + w.itemFooter)) with
        | (none, src') => some (p, src', false)
        | (some item, src') =>
          if hx : avail < m0RpcItemSize w item then none
          else frmFillPacketFromItemSource src' (m0RpcPacketAddItem w p item)
  else some (p, src, false)
termination_by c.fcMaxPacketSize - p.rpSize
decreasing_by
  have hpos : 0 < m0RpcItemSize w item := by
    have := w.itemHeader_pos
    unfold m0RpcItemSize
    omega
  unfold availableSpaceInPacket at h
  split_ifs at h with hp
  cases h
  simp only [m0RpcPacketAddItem]
  omega

/-- `frm_fill_packet_from_item_sources` over the item sources of the machine's active
connections, in order. -/
def frmFillPacketFromItemSources : List σ → RpcPacket → Option (RpcPacket × List σ)
  | [], p => some (p, [])
  | src :: srcs, p => do
    let (p1, src1, out) ← frmFillPacketFromItemSource w c ops src p
    if out then pure (p1, src1 :: srcs)
    else
      let (p2, srcs2) ← frmFillPacketFromItemSources srcs p1
      pure (p2, src1 :: srcs2)

/-- `frm_fill_packet`: the urgent queue, then the waiting queue, then the item sources, unless
the packet filled up on the way. -/
def frmFillPacket (srcs : List σ) (frm : RpcFrm) (p : RpcPacket) : Option (FrmFill × List σ) := do
  let f1 ← frmFillPacketItemq w c frm.fUrgent ⟨frm, p, [], [], false⟩
  if f1.out then pure (f1, srcs)
  else
    let f2 ← frmFillPacketItemq w c f1.frm.fWaiting f1
    if f2.out then pure (f2, srcs)
    else
      let (p3, srcs3) ← frmFillPacketFromItemSources w c ops srcs f2.packet
      pure ({ f2 with packet := p3 }, srcs3)

/-- What the surroundings decide during one call: whether `M0_ALLOC_PTR` gives the `k`-th
packet of `frm_balance`, whether `fo_packet_ready` takes it (returns 0), the states of the item
sources, and the fuel of `frm_balance`'s loop. -/
structure FrmEnv (σ : Type) where
  packetAlloc : ℕ → Bool
  packetReady : ℕ → Bool
  sources : List σ
  fuel : ℕ

/-- How an item left the queues: into a packet by `frm_fill_packet`, removed as failed by
`frm_fill_packet`, or removed by `m0_rpc_frm_remove_item`. -/
inductive FrmExit
  | packet (item : RpcItem) (p : RpcPacket)
  | failed (item : RpcItem)
  | removed (item : RpcItem)

/-- The item that left. -/
def FrmExit.item : FrmExit → RpcItem
  | .packet item _ => item
  | .failed item => item
  | .removed item => item

/-- The state of `frm_balance`'s loop, with what it has handed out: the packets given to
`fo_packet_ready` and how items left the queues. -/
structure FrmBalance (σ : Type) where
  frm : RpcFrm
  sources : List σ
  packetCount : ℕ
  packets : List RpcPacket
  exits : List FrmExit

/-- `fo_packet_ready` took the packet: `++f_nr_packets_enqed`, and the machine is busy. -/
def frmPacketEnqed (frm : RpcFrm) : RpcFrm :=
  { frm with
    fNrPacketsEnqed := frm.fNrPacketsEnqed + 1
    fState := if frm.fState = .idle then .busy else frm.fState }

/-- The loop of `frm_balance`: while `frm_is_ready`, allocate a packet, fill it, stop on an
empty one, and hand it to `fo_packet_ready`. -/
def frmBalanceLoop (env : FrmEnv σ) : ℕ → FrmBalance σ → Option (FrmBalance σ)
  | 0, _ => none
  | fuel + 1, b =>
    if frmIsReady c b.frm = false then some b
    else if env.packetAlloc b.packetCount = false then some b
    else do
      let (f, srcs) ← frmFillPacket w c ops b.sources b.frm (m0RpcPacketInit w)
      let exits := b.exits ++ f.failed.map .failed
      if f.packet.rpItems = [] then
        -- FRM_BALANCE_NOTE_1
        pure { b with frm := f.frm, sources := srcs, exits := exits }
      else
        frmBalanceLoop env fuel
          { frm := if env.packetReady b.packetCount then frmPacketEnqed f.frm else f.frm
            sources := srcs
            packetCount := b.packetCount + 1
            packets := b.packets ++ [f.packet]
            exits := exits ++ f.moved.map (FrmExit.packet · f.packet) }

/-- `frm_balance`. -/
def frmBalance (env : FrmEnv σ) (frm : RpcFrm) : Option (FrmBalance σ) :=
  frmBalanceLoop w c ops env env.fuel ⟨frm, env.sources, 0, [], []⟩

/-- `m0_rpc_frm_enq_item`. -/
def m0RpcFrmEnqItem (env : FrmEnv σ) (frm : RpcFrm) (item : RpcItem) (now : ℕ) (armOk : Bool) :
    Option (FrmBalance σ) :=
  (frmInsert w frm item now armOk).bind (frmBalance w c ops env)

/-- `m0_rpc_frm_item_deadline_passed`. -/
def m0RpcFrmItemDeadlinePassed (env : FrmEnv σ) (frm : RpcFrm) (item : RpcItem) :
    Option (FrmBalance σ) :=
  (itemMoveToUrgentQueue frm item).bind (frmBalance w c ops env)

/-- `m0_rpc_frm_run_formation`. -/
def m0RpcFrmRunFormation (env : FrmEnv σ) (frm : RpcFrm) : Option (FrmBalance σ) :=
  frmBalance w c ops env frm

/-- `m0_rpc_frm_packet_done`: one packet fewer in flight (`M0_CNT_DEC`: `none` at 0), idle
when `frm_is_idle`, then `frm_balance`. -/
def m0RpcFrmPacketDone (env : FrmEnv σ) (frm : RpcFrm) : Option (FrmBalance σ) :=
  if frm.fNrPacketsEnqed = 0 then none
  else
    let frm1 := { frm with fNrPacketsEnqed := frm.fNrPacketsEnqed - 1 }
    frmBalance w c ops env (if frmIsIdle frm1 then { frm1 with fState := .idle } else frm1)

end Sources

/-- `m0_rpc_frm_remove_item`. -/
def m0RpcFrmRemoveItem (frm : RpcFrm) (item : RpcItem) : Option RpcFrm :=
  frmRemove w frm item

end Machine

end Motr
