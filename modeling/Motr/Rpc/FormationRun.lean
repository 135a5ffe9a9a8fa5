import Motr.Rpc.Formation

/-!
Runs of the rpc formation machine (`rpc/formation2.c`).

A run is any sequence of `m0_rpc_frm_enq_item`, `m0_rpc_frm_item_deadline_passed`,
`m0_rpc_frm_remove_item`, `m0_rpc_frm_packet_done` and `m0_rpc_frm_run_formation` calls,
interleaved with `m0_rpc_item_failed` on queued items, each call with whatever its
surroundings decide (`FrmEnv`), and every enqueued item fitting in an empty packet
(`FrmReachable`). Along every run:

* `RpcFrm.Inv`: `frm_invariant` holds, no more packets are in flight than
  `fc_max_nr_packets_enqed`, no item is twice on the queues and every queued item fits in an
  empty packet;
* every packet handed to `fo_packet_ready` is non-empty and no larger than
  `fc_max_packet_size`;
* every item handed to the machine is on a queue or has left the queues exactly once, into a
  packet that carries it, as failed, or by `m0_rpc_frm_remove_item` (`FrmRun.Inv.ledger`);
* `frm_balance` returns with the machine not ready, after a failed packet allocation, or with
  both queues empty (`frmBalance_stop`).
-/

namespace Motr

/-! ### The order of a queue -/

lemma itemLessOrEqual_trans {a b d : RpcItem} (hab : itemLessOrEqual a b = true)
    (hbd : itemLessOrEqual b d = true) : itemLessOrEqual a d = true := by
  simp only [itemLessOrEqual, Bool.or_eq_true, decide_eq_true_eq, Bool.and_eq_true,
    beq_iff_eq] at *
  omega

/-- `item_less_or_equal` is total: an item not before another is after it. -/
lemma itemLessOrEqual_of_not {a b : RpcItem} (h : ¬itemLessOrEqual a b = true) :
    itemLessOrEqual b a = true := by
  simp only [itemLessOrEqual, Bool.or_eq_true, decide_eq_true_eq, Bool.and_eq_true,
    beq_iff_eq] at *
  omega

/-- `itemq_invariant` checks adjacent items; the order being transitive, every pair is in
order. -/
lemma itemqInvariant_iff_pairwise {q : List RpcItem} :
    itemqInvariant q ↔ q.Pairwise fun a b => itemLessOrEqual a b = true := by
  have : Trans (fun a b => itemLessOrEqual a b = true)
      (fun a b => itemLessOrEqual a b = true) (fun a b => itemLessOrEqual a b = true) :=
    ⟨itemLessOrEqual_trans⟩
  exact List.isChain_iff_pairwise

lemma itemqInsert_perm (x : RpcItem) (q : List RpcItem) : (itemqInsert x q).Perm (x :: q) := by
  induction q with
  | nil => rfl
  | cons a q ih =>
    rw [itemqInsert]
    split_ifs
    · exact (ih.cons a).trans (List.Perm.swap x a q)
    · rfl

/-- `__itemq_insert` keeps a queue sorted. -/
lemma itemqInvariant.insert {q : List RpcItem} (hq : itemqInvariant q) (x : RpcItem) :
    itemqInvariant (itemqInsert x q) := by
  rw [itemqInvariant_iff_pairwise] at *
  induction q with
  | nil => simp [itemqInsert]
  | cons a q ih =>
    obtain ⟨ha, hq⟩ := List.pairwise_cons.mp hq
    rw [itemqInsert]
    split_ifs with hax
    · -- `x` goes after `a`
      refine List.pairwise_cons.mpr ⟨fun y hy => ?_, ih hq⟩
      rcases List.mem_cons.mp ((itemqInsert_perm x q).mem_iff.mp hy) with rfl | hy
      · exact hax
      · exact ha y hy
    · -- `x` goes before `a`, hence before everything after `a`
      have hxa := itemLessOrEqual_of_not hax
      refine List.pairwise_cons.mpr ⟨fun y hy => ?_, List.pairwise_cons.mpr ⟨ha, hq⟩⟩
      rcases List.mem_cons.mp hy with rfl | hy
      · exact hxa
      · exact itemLessOrEqual_trans hxa (ha y hy)

lemma itemqInvariant.sublist {q q' : List RpcItem} (hq : itemqInvariant q) (h : q'.Sublist q) :
    itemqInvariant q' := by
  rw [itemqInvariant_iff_pairwise] at *
  exact hq.sublist h

/-- Only the priority and the deadline order a queue. -/
lemma itemqInvariant.map {q : List RpcItem} (hq : itemqInvariant q) {f : RpcItem → RpcItem}
    (hf : ∀ x, (f x).riPrio = x.riPrio ∧ (f x).riDeadline = x.riDeadline) :
    itemqInvariant (q.map f) := by
  unfold itemqInvariant at *
  rw [List.isChain_map]
  refine hq.imp fun a b hab => ?_
  simpa only [itemLessOrEqual, (hf a).1, (hf a).2, (hf b).1, (hf b).2] using hab

/-! ### The bytes of a queue -/

section Bytes

variable (w : RpcOnwire)

@[simp] lemma itemqNrBytesAcc_nil : itemqNrBytesAcc w [] = 0 := rfl

@[simp] lemma itemqNrBytesAcc_cons (x : RpcItem) (q : List RpcItem) :
    itemqNrBytesAcc w (x :: q) = m0RpcItemSize w x + itemqNrBytesAcc w q := by
  simp [itemqNrBytesAcc]

@[simp] lemma itemqNrBytesAcc_append (q q' : List RpcItem) :
    itemqNrBytesAcc w (q ++ q') = itemqNrBytesAcc w q + itemqNrBytesAcc w q' := by
  simp [itemqNrBytesAcc]

lemma itemqNrBytesAcc_perm {q q' : List RpcItem} (h : q.Perm q') :
    itemqNrBytesAcc w q = itemqNrBytesAcc w q' :=
  (h.map _).sum_nat

lemma m0RpcItemSize_pos (x : RpcItem) : 0 < m0RpcItemSize w x := by
  have := w.itemHeader_pos
  unfold m0RpcItemSize
  omega

end Bytes

/-! ### The machine's invariant -/

section Machine

variable (w : RpcOnwire) (c : RpcFrmConstraints)

/-- What every run keeps of the machine: `frm_invariant` with the counters as totals over
both queues, no more packets in flight than allowed, no item twice on the queues, and every
queued item fitting in an empty packet. -/
structure RpcFrm.Inv (frm : RpcFrm) : Prop where
  idle : frm.fState = .idle ↔ frmIsIdle frm = true
  urgent : itemqInvariant frm.fUrgent
  waiting : itemqInvariant frm.fWaiting
  nrItems : frm.fNrItems = frm.queued.length
  nrBytes : frm.fNrBytesAccumulated = itemqNrBytesAcc w frm.queued
  enqed_le : frm.fNrPacketsEnqed ≤ c.fcMaxNrPacketsEnqed
  nodup : (frm.queued.map (·.addr)).Nodup
  fits : ∀ x ∈ frm.queued, w.packetHeader + w.packetFooter + m0RpcItemSize w x ≤ c.fcMaxPacketSize

variable {w c}

lemma RpcFrm.Inv.frmInvariant {frm : RpcFrm} (hi : frm.Inv w c) : FrmInvariant w frm where
  idle := hi.idle
  urgent := hi.urgent
  waiting := hi.waiting
  nrItems := by rw [hi.nrItems, RpcFrm.queued, List.length_append]
  nrBytes := by rw [hi.nrBytes, RpcFrm.queued, itemqNrBytesAcc_append]

lemma rpcFrm_inv_init : m0RpcFrmInit.Inv w c where
  idle := by simp [m0RpcFrmInit, frmIsIdle]
  urgent := List.IsChain.nil
  waiting := List.IsChain.nil
  nrItems := rfl
  nrBytes := rfl
  enqed_le := Nat.zero_le _
  nodup := List.nodup_nil
  fits := by simp [m0RpcFrmInit, RpcFrm.queued]

/-- The facts of the invariant about the items alone carry over to a permutation of them with
one item more. -/
lemma RpcFrm.Inv.perm_cons {frm : RpcFrm} (hi : frm.Inv w c) {q : List RpcItem} {x : RpcItem}
    (hq : q.Perm (x :: frm.queued)) (hx : x.addr ∉ frm.queued.map (·.addr))
    (hfit : w.packetHeader + w.packetFooter + m0RpcItemSize w x ≤ c.fcMaxPacketSize) :
    (q.map (·.addr)).Nodup ∧
      ∀ y ∈ q, w.packetHeader + w.packetFooter + m0RpcItemSize w y ≤ c.fcMaxPacketSize := by
  refine ⟨(hq.map _).nodup_iff.mpr (List.nodup_cons.mpr ⟨hx, hi.nodup⟩), fun y hy => ?_⟩
  rcases List.mem_cons.mp (hq.mem_iff.mp hy) with rfl | hy
  · exact hfit
  · exact hi.fits y hy

/-- ... and to what is left when one item goes. -/
lemma RpcFrm.Inv.perm_uncons {frm : RpcFrm} (hi : frm.Inv w c) {q : List RpcItem} {x : RpcItem}
    (hq : frm.queued.Perm (x :: q)) :
    (q.map (·.addr)).Nodup ∧
      ∀ y ∈ q, w.packetHeader + w.packetFooter + m0RpcItemSize w y ≤ c.fcMaxPacketSize := by
  have hnd := (hq.map (·.addr)).nodup_iff.mp hi.nodup
  exact ⟨(List.nodup_cons.mp hnd).2, fun y hy => hi.fits y (hq.mem_iff.mpr (List.mem_cons_of_mem _ hy))⟩

/-! ### The operations on the queues -/

lemma itemqRemove_eq_some {frm frm' : RpcFrm} {x : RpcItem} (h : itemqRemove frm x = some frm') :
    ∃ U W, frm' = { frm with fUrgent := U, fWaiting := W } ∧ frm.queued.Perm (x :: (U ++ W)) ∧
      U.Sublist frm.fUrgent ∧ W.Sublist frm.fWaiting := by
  unfold itemqRemove at h
  split_ifs at h with hu hw
  · refine ⟨_, _, (Option.some.inj h).symm, ?_, List.erase_sublist, List.Sublist.refl _⟩
    exact (List.perm_cons_erase hu).append_right _
  · refine ⟨_, _, (Option.some.inj h).symm, ?_, List.Sublist.refl _, List.erase_sublist⟩
    exact ((List.perm_cons_erase hw).append_left _).trans List.perm_middle

/-- `if (frm_is_idle(frm)) frm->f_state = FRM_IDLE` changes the state alone. -/
lemma ite_frmIsIdle_eq (frm : RpcFrm) :
    (if frmIsIdle frm = true then { frm with fState := .idle } else frm) =
      { frm with fState := if frmIsIdle frm = true then .idle else frm.fState } := by
  split <;> rfl

/-- On a busy machine, `if (frm_is_idle(frm)) frm->f_state = FRM_IDLE` leaves it idle exactly
when `frm_is_idle`. -/
lemma idle_iff_of_busy {frm : RpcFrm} (h : frm.fState = .busy) :
    (if frmIsIdle frm = true then FrmState.idle else frm.fState) = .idle ↔ frmIsIdle frm = true := by
  split <;> simp_all

lemma frmRemove_eq_some {frm frm' : RpcFrm} {x : RpcItem} (h : frmRemove w frm x = some frm') :
    ∃ U W, frm.fNrItems ≠ 0 ∧ itemqRemove frm x = some { frm with fUrgent := U, fWaiting := W } ∧
      frm' = { frm with
        fUrgent := U
        fWaiting := W
        fNrItems := frm.fNrItems - 1
        fNrBytesAccumulated := frm.fNrBytesAccumulated - m0RpcItemSize w x
        fState := if (frm.fNrItems - 1 == 0 && frm.fNrPacketsEnqed == 0) = true then .idle
          else frm.fState } := by
  unfold frmRemove at h
  split_ifs at h with h0
  obtain ⟨frm1, h1, rfl⟩ := Option.map_eq_some_iff.mp h
  obtain ⟨U, W, rfl, -⟩ := itemqRemove_eq_some h1
  exact ⟨U, W, h0, h1, by rw [ite_frmIsIdle_eq]; rfl⟩

/-- `frm_remove` keeps the invariant; the item leaves the queues, which only shrink. -/
lemma RpcFrm.Inv.remove {frm frm' : RpcFrm} {x : RpcItem} (hi : frm.Inv w c)
    (h : frmRemove w frm x = some frm') :
    frm'.Inv w c ∧ frm.queued.Perm (x :: frm'.queued) ∧ frm'.fUrgent.Sublist frm.fUrgent ∧
      frm'.fWaiting.Sublist frm.fWaiting ∧ frm'.fNrPacketsEnqed = frm.fNrPacketsEnqed := by
  obtain ⟨U, W, h0, h1, rfl⟩ := frmRemove_eq_some h
  obtain ⟨_, _, he, hp, hU, hW⟩ := itemqRemove_eq_some h1
  simp only [RpcFrm.mk.injEq] at he
  obtain ⟨-, rfl, rfl, -⟩ := he
  have hlen := hp.length_eq
  have hbytes := itemqNrBytesAcc_perm w hp
  obtain ⟨hnd, hfit⟩ := hi.perm_uncons hp
  -- the machine held an item, so it was busy
  have hbusy : frm.fState = .busy := by
    cases hs : frm.fState
    · have := hi.idle.mp hs
      simp only [frmIsIdle, Bool.and_eq_true, beq_iff_eq] at this
      exact absurd this.1 h0
    · rfl
  simp only [List.length_cons, itemqNrBytesAcc_cons] at hlen hbytes
  refine ⟨⟨?_, hi.urgent.sublist hU, hi.waiting.sublist hW, ?_, ?_, hi.enqed_le, hnd, hfit⟩,
    hp, hU, hW, rfl⟩
  · exact idle_iff_of_busy
      (show ({ frm with fNrItems := frm.fNrItems - 1 } : RpcFrm).fState = .busy from hbusy)
  · simp only [RpcFrm.queued]
    rw [hi.nrItems]
    omega
  · simp only [RpcFrm.queued]
    rw [hi.nrBytes]
    omega

lemma map_update_of_not_mem {q : List RpcItem} {x x' : RpcItem} (h : x ∉ q) :
    q.map (fun y => if y = x then x' else y) = q := by
  induction q with
  | nil => rfl
  | cons a q ih =>
    rw [List.map_cons, if_neg (by rintro rfl; exact h List.mem_cons_self),
      ih (fun hx => h (List.mem_cons_of_mem _ hx))]

/-- A new item inserted into a queue, changed where it stands and unlinked again leaves the
queue as it was. -/
lemma erase_map_update_itemqInsert {q : List RpcItem} {x x' : RpcItem}
    (hx : x.addr ∉ q.map (·.addr)) (hx' : x'.addr = x.addr) :
    ((itemqInsert x q).map fun y => if y = x then x' else y).erase x' = q := by
  induction q with
  | nil => simp [itemqInsert]
  | cons a q ih =>
    have ha : a ≠ x := fun e => hx (by simp [e])
    have ha' : a ≠ x' := fun e => hx (by simp [← hx', e])
    have hq : x.addr ∉ q.map (·.addr) := fun h => hx (List.mem_cons_of_mem _ h)
    rw [itemqInsert]
    split_ifs
    · rw [List.map_cons, if_neg ha, List.erase_cons_tail (by simp [ha']), ih hq]
    · rw [List.map_cons, if_pos rfl, List.erase_cons_head, map_update_of_not_mem]
      exact fun hm => hx (List.mem_map_of_mem hm)

lemma ite_idle_busy (s : FrmState) : (if s = .idle then FrmState.busy else s) = .busy := by
  cases s <;> rfl

lemma frmInsert_eq_some {frm frm' : RpcFrm} {item : RpcItem} {now : ℕ} {armOk : Bool}
    (h : frmInsert w frm item now armOk = some frm') :
    item.addr ∉ frm.queued.map (·.addr) ∧ ∃ x : RpcItem, x.addr = item.addr ∧
      x.payloadSize = item.payloadSize ∧ frm'.fState = .busy ∧
      frm'.fNrItems = frm.fNrItems + 1 ∧
      frm'.fNrBytesAccumulated = frm.fNrBytesAccumulated + m0RpcItemSize w x ∧
      frm'.fNrPacketsEnqed = frm.fNrPacketsEnqed ∧
      ((frm'.fUrgent = itemqInsert x frm.fUrgent ∧ frm'.fWaiting = frm.fWaiting) ∨
        (frm'.fUrgent = frm.fUrgent ∧ frm'.fWaiting = itemqInsert x frm.fWaiting)) := by
  unfold frmInsert at h
  dsimp only at h
  by_cases hin : item.addr ∈ frm.queued.map (·.addr)
  · rw [if_pos hin] at h
    cases h
  rw [if_neg hin] at h
  refine ⟨hin, ?_⟩
  by_cases harm : frmWhichQtype now item = .waiting ∧ armOk = false
  · -- the deadline timer did not arm: the item ends on the urgent queue with deadline 0
    rw [if_pos harm, harm.1] at h
    set x : RpcItem := { item with failed := false }
    set x0 : RpcItem := { x with riDeadline := 0 }
    have hxU : x ∉ frm.fUrgent := fun hm =>
      hin (List.mem_map.mpr ⟨x, List.mem_append_left _ hm, rfl⟩)
    have hx0U : x0 ∉ frm.fUrgent := fun hm =>
      hin (List.mem_map.mpr ⟨x0, List.mem_append_left _ hm, rfl⟩)
    have hxW : x.addr ∉ frm.fWaiting.map (·.addr) := fun hm => by
      obtain ⟨y, hy, e⟩ := List.mem_map.mp hm
      exact hin (List.mem_map.mpr ⟨y, List.mem_append_right _ hy, e⟩)
    have hx0 : x0 ∈ (itemqInsert x frm.fWaiting).map fun y => if y = x then x0 else y :=
      List.mem_map.mpr ⟨x, (itemqInsert_perm x _).mem_iff.mpr List.mem_cons_self, if_pos rfl⟩
    simp only [itemMoveToUrgentQueue, itemqRemove, RpcFrm.updateItem, RpcFrm.setItemq,
      RpcFrm.fItemq, map_update_of_not_mem hxU, if_neg hx0U, if_pos hx0,
      @erase_map_update_itemqInsert frm.fWaiting x x0 hxW rfl, Option.map_some,
      Option.some.injEq] at h
    subst h
    exact ⟨x0, rfl, rfl, ite_idle_busy _, rfl, rfl, rfl, .inl ⟨rfl, rfl⟩⟩
  · rw [if_neg harm] at h
    refine ⟨{ item with failed := false }, rfl, rfl, ?_⟩
    cases hqt : frmWhichQtype now item <;>
      simp only [hqt, RpcFrm.setItemq, RpcFrm.fItemq, Option.some.injEq] at h <;>
      subst h <;>
      exact ⟨ite_idle_busy _, rfl, rfl, rfl, by simp⟩

/-- `frm_insert` keeps the invariant of an item that fits in an empty packet; the item, as
it now stands, joins the queues. -/
lemma RpcFrm.Inv.insert {frm frm' : RpcFrm} {item : RpcItem} {now : ℕ} {armOk : Bool}
    (hi : frm.Inv w c)
    (hfit : w.packetHeader + w.packetFooter + m0RpcItemSize w item ≤ c.fcMaxPacketSize)
    (h : frmInsert w frm item now armOk = some frm') :
    frm'.Inv w c ∧ ∃ x : RpcItem, x.addr = item.addr ∧ frm'.queued.Perm (x :: frm.queued) ∧
      frm'.fNrPacketsEnqed = frm.fNrPacketsEnqed := by
  obtain ⟨hin, x, hxa, hxp, hs, hn, hb, he, hq⟩ := frmInsert_eq_some h
  have hsize : m0RpcItemSize w x = m0RpcItemSize w item := by simp [m0RpcItemSize, hxp]
  have hp : frm'.queued.Perm (x :: frm.queued) := by
    rcases hq with ⟨hU, hW⟩ | ⟨hU, hW⟩ <;> rw [RpcFrm.queued, RpcFrm.queued, hU, hW]
    · exact (itemqInsert_perm x _).append_right _
    · exact ((itemqInsert_perm x _).append_left _).trans List.perm_middle
  obtain ⟨hnd, hfits⟩ := hi.perm_cons hp (hxa ▸ hin) (hsize ▸ hfit)
  have hsorted : itemqInvariant frm'.fUrgent ∧ itemqInvariant frm'.fWaiting := by
    rcases hq with ⟨hU, hW⟩ | ⟨hU, hW⟩ <;> rw [hU, hW]
    · exact ⟨hi.urgent.insert x, hi.waiting⟩
    · exact ⟨hi.urgent, hi.waiting.insert x⟩
  refine ⟨⟨?_, hsorted.1, hsorted.2, ?_, ?_, he ▸ hi.enqed_le, hnd, hfits⟩, x, hxa, hp, he⟩
  · simp [hs, frmIsIdle, hn]
  · rw [hn, hp.length_eq, hi.nrItems, List.length_cons]
  · rw [hb, itemqNrBytesAcc_perm w hp, hi.nrBytes, itemqNrBytesAcc_cons, Nat.add_comm]

/-- `item_move_to_urgent_queue` keeps the invariant and the items. -/
lemma RpcFrm.Inv.moveToUrgent {frm frm' : RpcFrm} {x : RpcItem} (hi : frm.Inv w c)
    (h : itemMoveToUrgentQueue frm x = some frm') :
    frm'.Inv w c ∧ frm'.queued.Perm frm.queued ∧ frm'.fNrPacketsEnqed = frm.fNrPacketsEnqed := by
  obtain ⟨frm1, h1, rfl⟩ := Option.map_eq_some_iff.mp h
  obtain ⟨U, W, rfl, hp, hU, hW⟩ := itemqRemove_eq_some h1
  have hp' : (itemqInsert x U ++ W).Perm frm.queued :=
    ((itemqInsert_perm x U).append_right W).trans hp.symm
  refine ⟨⟨hi.idle, (hi.urgent.sublist hU).insert x, hi.waiting.sublist hW, ?_, ?_, hi.enqed_le,
    (hp'.map _).nodup_iff.mpr hi.nodup, fun y hy => hi.fits y (hp'.mem_iff.mp hy)⟩, hp', rfl⟩
  · exact hi.nrItems.trans hp'.length_eq.symm
  · exact hi.nrBytes.trans (itemqNrBytesAcc_perm w hp').symm

/-- `m0_rpc_item_failed` on a queued item keeps the invariant: the failed item keeps its place,
its size and its address. -/
lemma RpcFrm.Inv.itemFailed {frm frm' : RpcFrm} {x : RpcItem} (hi : frm.Inv w c)
    (h : m0RpcItemFailed frm x = some frm') :
    frm'.Inv w c ∧ frm'.queued = frm.queued.map (fun y => if y = x then { x with failed := true } else y) ∧
      frm'.fNrPacketsEnqed = frm.fNrPacketsEnqed := by
  unfold m0RpcItemFailed at h
  split_ifs at h
  cases h
  set f : RpcItem → RpcItem := fun y => if y = x then { x with failed := true } else y
  -- the update changes no field that the invariant reads
  have hf : ∀ y, (f y).riPrio = y.riPrio ∧ (f y).riDeadline = y.riDeadline ∧
      (f y).addr = y.addr ∧ (f y).payloadSize = y.payloadSize := by
    intro y
    by_cases hy : y = x
    · subst hy
      simp [f]
    · simp [f, hy]
  have hq : (frm.updateItem x { x with failed := true }).queued = frm.queued.map f := by
    simp [RpcFrm.updateItem, RpcFrm.queued, f]
  have haddr : (frm.queued.map f).map (·.addr) = frm.queued.map (·.addr) := by
    rw [List.map_map]
    exact List.map_congr_left fun y _ => (hf y).2.2.1
  have hsize : ∀ y, m0RpcItemSize w (f y) = m0RpcItemSize w y := fun y => by
    simp only [m0RpcItemSize, (hf y).2.2.2]
  refine ⟨⟨hi.idle, hi.urgent.map fun y => ⟨(hf y).1, (hf y).2.1⟩,
    hi.waiting.map fun y => ⟨(hf y).1, (hf y).2.1⟩, ?_, ?_, hi.enqed_le, ?_, ?_⟩, hq, rfl⟩
  · rw [hq, List.length_map]
    exact hi.nrItems
  · rw [hq]
    refine hi.nrBytes.trans ?_
    rw [itemqNrBytesAcc, itemqNrBytesAcc, List.map_map]
    exact congrArg List.sum (List.map_congr_left fun y _ => hsize y).symm
  · rw [hq, haddr]
    exact hi.nodup
  · rw [hq]
    intro y hy
    obtain ⟨z, hz, rfl⟩ := List.mem_map.mp hy
    rw [hsize]
    exact hi.fits z hz

/-- `fo_packet_ready` took a packet while fewer than `fc_max_nr_packets_enqed` were in flight:
one more packet in flight, still within the limit. -/
lemma RpcFrm.Inv.packetEnqed {frm : RpcFrm} (hi : frm.Inv w c)
    (hlt : frm.fNrPacketsEnqed < c.fcMaxNrPacketsEnqed) : (frmPacketEnqed frm).Inv w c := by
  refine ⟨?_, hi.urgent, hi.waiting, hi.nrItems, hi.nrBytes, hlt, hi.nodup, hi.fits⟩
  simp [frmPacketEnqed, frmIsIdle, ite_idle_busy]

/-- One packet fewer in flight keeps the invariant (`m0_rpc_frm_packet_done` before its
`frm_balance`). -/
lemma RpcFrm.Inv.packetDone {frm : RpcFrm} (hi : frm.Inv w c) (h0 : frm.fNrPacketsEnqed ≠ 0) :
    (let frm1 := { frm with fNrPacketsEnqed := frm.fNrPacketsEnqed - 1 }
      if frmIsIdle frm1 = true then { frm1 with fState := .idle } else frm1).Inv w c := by
  have hbusy : frm.fState = .busy := by
    cases hs : frm.fState
    · have := hi.idle.mp hs
      simp only [frmIsIdle, Bool.and_eq_true, beq_iff_eq] at this
      exact absurd this.2 h0
    · rfl
  dsimp only
  rw [ite_frmIsIdle_eq]
  exact ⟨idle_iff_of_busy
      (show ({ frm with fNrPacketsEnqed := frm.fNrPacketsEnqed - 1 } : RpcFrm).fState = .busy
        from hbusy),
    hi.urgent, hi.waiting, hi.nrItems, hi.nrBytes, le_trans (Nat.sub_le _ _) hi.enqed_le,
    hi.nodup, hi.fits⟩

/-! ### `frm_fill_packet` -/

/-- One item of the walk: the packet is full, the item does not fit, or it leaves its queue as
failed or into the packet. -/
lemma frmFillPacketItemq_cons {x : RpcItem} {rest : List RpcItem} {f f' : FrmFill}
    (h : frmFillPacketItemq w c (x :: rest) f = some f') :
    ∃ avail, availableSpaceInPacket c f.packet = some avail ∧
      ((avail = 0 ∧ f' = { f with out := true }) ∨
      (avail ≠ 0 ∧ avail < m0RpcItemSize w x ∧ frmFillPacketItemq w c rest f = some f') ∨
      (avail ≠ 0 ∧ m0RpcItemSize w x ≤ avail ∧ x.failed = true ∧ ∃ frm, frmRemove w f.frm x = some frm ∧
        frmFillPacketItemq w c rest { f with frm := frm, failed := f.failed ++ [x] } = some f') ∨
      (avail ≠ 0 ∧ m0RpcItemSize w x ≤ avail ∧ x.failed = false ∧ ∃ frm, frmRemove w f.frm x = some frm ∧
        frmFillPacketItemq w c rest { f with
          frm := frm
          packet := m0RpcPacketAddItem w f.packet x
          moved := f.moved ++ [x] } = some f')) := by
  simp only [frmFillPacketItemq] at h
  obtain ⟨avail, havail, h⟩ := Option.bind_eq_some_iff.mp h
  refine ⟨avail, havail, ?_⟩
  split_ifs at h with h0 hlt hfail
  · exact .inl ⟨h0, (Option.some.inj h).symm⟩
  · exact .inr (.inl ⟨h0, hlt, h⟩)
  · obtain ⟨frm, hr, h⟩ := Option.bind_eq_some_iff.mp h
    exact .inr (.inr (.inl ⟨h0, Nat.le_of_not_lt hlt, hfail, frm, hr, h⟩))
  · obtain ⟨frm, hr, h⟩ := Option.bind_eq_some_iff.mp h
    exact .inr (.inr (.inr ⟨h0, Nat.le_of_not_lt hlt, by simpa using hfail, frm, hr, h⟩))

variable (w c) in
/-- What `frm_fill_packet` keeps along its walk: the machine's invariant, every item it moved
in the packet, and a non-empty packet within `fc_max_packet_size`. -/
structure FrmFill.Inv (f : FrmFill) : Prop where
  frm : f.frm.Inv w c
  moved : ∀ x ∈ f.moved, x ∈ f.packet.rpItems
  fits : f.packet.rpItems ≠ [] → f.packet.rpSize ≤ c.fcMaxPacketSize

/-- A later state `f'` of `frm_fill_packet` against an earlier one `f`: the queues only shrink,
the items that left them were moved or failed, the packet only grows, and the packets in
flight are as they were. -/
structure FrmFill.Le (f f' : FrmFill) : Prop where
  urgent : f'.frm.fUrgent.Sublist f.frm.fUrgent
  waiting : f'.frm.fWaiting.Sublist f.frm.fWaiting
  left : ∃ moved failed, f'.moved = f.moved ++ moved ∧ f'.failed = f.failed ++ failed ∧
    f.frm.queued.Perm (f'.frm.queued ++ moved ++ failed)
  packet : f.packet.rpItems.IsPrefix f'.packet.rpItems
  enqed : f'.frm.fNrPacketsEnqed = f.frm.fNrPacketsEnqed

/-- `goto out` changes nothing but the flag. -/
lemma FrmFill.Le.out (f : FrmFill) (b : Bool) : f.Le { f with out := b } :=
  ⟨List.Sublist.refl _, List.Sublist.refl _, ⟨[], [], by simp, by simp, by simp⟩,
    List.prefix_refl _, rfl⟩

lemma FrmFill.Le.refl (f : FrmFill) : f.Le f :=
  FrmFill.Le.out f f.out

lemma FrmFill.Le.trans {f g f' : FrmFill} (h₁ : f.Le g) (h₂ : g.Le f') : f.Le f' := by
  obtain ⟨m₁, d₁, hm₁, hd₁, hp₁⟩ := h₁.left
  obtain ⟨m₂, d₂, hm₂, hd₂, hp₂⟩ := h₂.left
  refine ⟨h₂.urgent.trans h₁.urgent, h₂.waiting.trans h₁.waiting,
    ⟨m₁ ++ m₂, d₁ ++ d₂, by rw [hm₂, hm₁, List.append_assoc], by rw [hd₂, hd₁, List.append_assoc],
      ?_⟩, h₁.packet.trans h₂.packet, h₂.enqed.trans h₁.enqed⟩
  refine hp₁.trans (((hp₂.append_right m₁).append_right d₁).trans ?_)
  rw [List.perm_iff_count]
  intro a
  simp only [List.count_append]
  omega

lemma availableSpaceInPacket_eq_some {p : RpcPacket} {avail : ℕ}
    (h : availableSpaceInPacket c p = some avail) :
    p.rpSize ≤ c.fcMaxPacketSize ∧ avail = c.fcMaxPacketSize - p.rpSize := by
  unfold availableSpaceInPacket at h
  split_ifs at h with hp
  exact ⟨hp, (Option.some.inj h).symm⟩

/-- An item no larger than the space left keeps the packet within `fc_max_packet_size`. -/
lemma m0RpcPacketAddItem_fits {p : RpcPacket} {avail : ℕ} {x : RpcItem}
    (havail : availableSpaceInPacket c p = some avail) (hx : m0RpcItemSize w x ≤ avail) :
    (m0RpcPacketAddItem w p x).rpSize ≤ c.fcMaxPacketSize := by
  obtain ⟨hp, rfl⟩ := availableSpaceInPacket_eq_some havail
  simp only [m0RpcPacketAddItem]
  omega

/-- An item removed as failed leaves the queues and the packet as it is. -/
lemma FrmFill.Inv.fail {f : FrmFill} {x : RpcItem} {frm : RpcFrm} (hf : f.Inv w c)
    (hr : frmRemove w f.frm x = some frm) :
    FrmFill.Inv w c { f with frm := frm, failed := f.failed ++ [x] } ∧
      f.Le { f with frm := frm, failed := f.failed ++ [x] } := by
  obtain ⟨hi, hp, hU, hW, he⟩ := hf.frm.remove hr
  refine ⟨⟨hi, hf.moved, hf.fits⟩, hU, hW, ⟨[], [x], by simp, rfl, ?_⟩, List.prefix_refl _, he⟩
  simpa using hp.trans (List.perm_append_singleton x frm.queued).symm

/-- An item moved into the packet leaves the queues and goes last in the packet. -/
lemma FrmFill.Inv.move {f : FrmFill} {x : RpcItem} {frm : RpcFrm} {avail : ℕ} (hf : f.Inv w c)
    (havail : availableSpaceInPacket c f.packet = some avail) (hx : m0RpcItemSize w x ≤ avail)
    (hr : frmRemove w f.frm x = some frm) :
    FrmFill.Inv w c { f with
        frm := frm, packet := m0RpcPacketAddItem w f.packet x, moved := f.moved ++ [x] } ∧
      f.Le { f with
        frm := frm, packet := m0RpcPacketAddItem w f.packet x, moved := f.moved ++ [x] } := by
  obtain ⟨hi, hp, hU, hW, he⟩ := hf.frm.remove hr
  refine ⟨⟨hi, ?_, fun _ => m0RpcPacketAddItem_fits havail hx⟩, hU, hW,
    ⟨[x], [], rfl, by simp, ?_⟩, List.prefix_append _ _, he⟩
  · intro y hy
    rcases List.mem_append.mp hy with hy | hy
    · exact List.mem_append_left _ (hf.moved y hy)
    · exact List.mem_append_right _ hy
  · simpa using hp.trans (List.perm_append_singleton x frm.queued).symm

/-- The walk over a queue keeps what `frm_fill_packet` keeps. -/
lemma FrmFill.Inv.walk {rest : List RpcItem} {f f' : FrmFill} (hf : f.Inv w c)
    (h : frmFillPacketItemq w c rest f = some f') : f'.Inv w c ∧ f.Le f' := by
  induction rest generalizing f with
  | nil => exact ⟨(Option.some.inj h) ▸ hf, (Option.some.inj h) ▸ FrmFill.Le.refl f⟩
  | cons x rest ih =>
    obtain ⟨avail, havail, hcase⟩ := frmFillPacketItemq_cons h
    rcases hcase with ⟨-, rfl⟩ | ⟨-, -, h⟩ | ⟨-, hx, -, frm, hr, h⟩ | ⟨-, hx, -, frm, hr, h⟩
    · -- `goto out`
      exact ⟨⟨hf.frm, hf.moved, hf.fits⟩, FrmFill.Le.out f true⟩
    · exact ih hf h
    · obtain ⟨hg, hle⟩ := hf.fail hr
      obtain ⟨hf', hle'⟩ := ih hg h
      exact ⟨hf', hle.trans hle'⟩
    · obtain ⟨hg, hle⟩ := hf.move havail hx hr
      obtain ⟨hf', hle'⟩ := ih hg h
      exact ⟨hf', hle.trans hle'⟩

/-- When the packet stays empty, the walk removes every item of its queue as failed: each item
fits in the empty packet, and one that had not failed would have gone into it. -/
lemma frmFillPacketItemq_empty {rest : List RpcItem} {f f' : FrmFill} (hf : f.Inv w c)
    (hpk : f.packet = m0RpcPacketInit w)
    (hfit : ∀ x ∈ rest, w.packetHeader + w.packetFooter + m0RpcItemSize w x ≤ c.fcMaxPacketSize)
    (h : frmFillPacketItemq w c rest f = some f') (hempty : f'.packet.rpItems = []) :
    f'.moved = f.moved ∧ f'.failed = f.failed ++ rest ∧ f'.out = f.out ∧ f'.packet = f.packet := by
  induction rest generalizing f with
  | nil =>
    cases h
    simp
  | cons x rest ih =>
    obtain ⟨avail, havail, hcase⟩ := frmFillPacketItemq_cons h
    have hx := hfit x List.mem_cons_self
    have hpos := m0RpcItemSize_pos w x
    have hsz : f.packet.rpSize = w.packetHeader + w.packetFooter := by rw [hpk]; rfl
    obtain ⟨-, havail'⟩ := availableSpaceInPacket_eq_some havail
    rcases hcase with ⟨h0, -⟩ | ⟨-, hlt, -⟩ | ⟨-, -, -, frm, hr, h⟩ | ⟨-, hle, -, frm, hr, h⟩
    · omega
    · omega
    · obtain ⟨hg, -⟩ := hf.fail hr
      obtain ⟨hm, hd, ho, hp⟩ := ih hg hpk (fun y hy => hfit y (List.mem_cons_of_mem _ hy)) h
      exact ⟨hm, by rw [hd, List.append_assoc, List.singleton_append], ho, hp⟩
    · -- the item went into the packet, which then is not empty
      obtain ⟨hg, -⟩ := hf.move havail hle hr
      have hpre := (hg.walk h).2.packet
      rw [hempty] at hpre
      simp [m0RpcPacketAddItem] at hpre

/-- The loop on a source that has an item, once `available_space_in_packet` is known. -/
lemma frmFillPacketFromItemSource_of_some {σ : Type} {ops : RpcItemSourceOps σ} {src : σ}
    {p : RpcPacket} {avail : ℕ} (hhas : ops.risoHasItem src = true)
    (havail : availableSpaceInPacket c p = some avail) :
    frmFillPacketFromItemSource w c ops src p =
      if avail ≤ w.itemHeader + w.itemFooter then some (p, src, true)
      else
        match ops.risoGetItem src (avail - (w.itemHeader + w.itemFooter)) with
        | (none, src') => some (p, src', false)
        | (some item, src') =>
          if avail < m0RpcItemSize w item then none
          else frmFillPacketFromItemSource w c ops src' (m0RpcPacketAddItem w p item) := by
  rw [frmFillPacketFromItemSource, if_pos hhas]
  split
  · simp_all
  · rename_i avail' heq
    rw [havail] at heq
    cases heq
    rfl

lemma frmFillPacketFromItemSource_of_none {σ : Type} {ops : RpcItemSourceOps σ} {src : σ}
    {p : RpcPacket} (hhas : ops.risoHasItem src = true)
    (hnone : availableSpaceInPacket c p = none) :
    frmFillPacketFromItemSource w c ops src p = none := by
  rw [frmFillPacketFromItemSource, if_pos hhas]
  split
  · rfl
  · simp_all

/-- The item sources add items after those already in the packet, each within the space left. -/
lemma frmFillPacketFromItemSource_grows {σ : Type} {ops : RpcItemSourceOps σ} {src : σ}
    {p : RpcPacket} (hp : p.rpItems ≠ [] → p.rpSize ≤ c.fcMaxPacketSize) {p' : RpcPacket}
    {src' : σ} {out : Bool} (h : frmFillPacketFromItemSource w c ops src p = some (p', src', out)) :
    p.rpItems.IsPrefix p'.rpItems ∧ (p'.rpItems ≠ [] → p'.rpSize ≤ c.fcMaxPacketSize) := by
  induction src, p using frmFillPacketFromItemSource.induct w c ops generalizing p' src' out with
  | case1 src p hhas hnone =>
    rw [frmFillPacketFromItemSource_of_none hhas hnone] at h
    cases h
  | case2 src p hhas avail havail hle =>
    rw [frmFillPacketFromItemSource_of_some hhas havail, if_pos hle] at h
    cases h
    exact ⟨List.prefix_refl _, hp⟩
  | case3 src p hhas avail havail hle src₁ hget =>
    rw [frmFillPacketFromItemSource_of_some hhas havail, if_neg hle] at h
    simp only [hget, Option.some.injEq, Prod.mk.injEq] at h
    obtain ⟨rfl, -, -⟩ := h
    exact ⟨List.prefix_refl _, hp⟩
  | case4 src p hhas avail havail hle item src₁ hget hlt =>
    rw [frmFillPacketFromItemSource_of_some hhas havail, if_neg hle] at h
    simp only [hget, if_pos hlt, reduceCtorEq] at h
  | case5 src p hhas avail havail hle item src₁ hget hlt ih =>
    rw [frmFillPacketFromItemSource_of_some hhas havail, if_neg hle] at h
    simp only [hget, if_neg hlt] at h
    obtain ⟨hpre, hfit⟩ := ih (fun _ => m0RpcPacketAddItem_fits havail (Nat.le_of_not_lt hlt)) h
    exact ⟨(List.prefix_append _ _).trans hpre, hfit⟩
  | case6 src p hhas =>
    rw [frmFillPacketFromItemSource, if_neg hhas] at h
    cases h
    exact ⟨List.prefix_refl _, hp⟩

lemma frmFillPacketFromItemSources_grows {σ : Type} {ops : RpcItemSourceOps σ} {srcs : List σ}
    {p : RpcPacket} (hp : p.rpItems ≠ [] → p.rpSize ≤ c.fcMaxPacketSize) {p' : RpcPacket}
    {srcs' : List σ} (h : frmFillPacketFromItemSources w c ops srcs p = some (p', srcs')) :
    p.rpItems.IsPrefix p'.rpItems ∧ (p'.rpItems ≠ [] → p'.rpSize ≤ c.fcMaxPacketSize) := by
  induction srcs generalizing p p' srcs' with
  | nil =>
    cases h
    exact ⟨List.prefix_refl _, hp⟩
  | cons src srcs ih =>
    simp only [frmFillPacketFromItemSources] at h
    obtain ⟨⟨p₁, src₁, out⟩, h₁, h⟩ := Option.bind_eq_some_iff.mp h
    obtain ⟨hpre₁, hfit₁⟩ := frmFillPacketFromItemSource_grows hp h₁
    split_ifs at h
    · cases h
      exact ⟨hpre₁, hfit₁⟩
    · obtain ⟨⟨p₂, srcs₂⟩, h₂, h⟩ := Option.bind_eq_some_iff.mp h
      cases h
      obtain ⟨hpre₂, hfit₂⟩ := ih hfit₁ h₂
      exact ⟨hpre₁.trans hpre₂, hfit₂⟩

/-- Items added to the packet from elsewhere leave the walk's ledger as it is. -/
lemma FrmFill.Le.packet_grow (f : FrmFill) {p : RpcPacket} (h : f.packet.rpItems.IsPrefix p.rpItems) :
    f.Le { f with packet := p } :=
  ⟨List.Sublist.refl _, List.Sublist.refl _, ⟨[], [], by simp, by simp, by simp⟩, h, rfl⟩

/-- `frm_fill_packet` keeps the machine's invariant; the packet only grows, within
`fc_max_packet_size` once it holds an item, and carries every item it took from the queues. -/
lemma FrmFill.Inv.fillPacket {σ : Type} {ops : RpcItemSourceOps σ} {srcs srcs' : List σ}
    {frm : RpcFrm} {p : RpcPacket} {f : FrmFill} (hf : FrmFill.Inv w c ⟨frm, p, [], [], false⟩)
    (h : frmFillPacket w c ops srcs frm p = some (f, srcs')) :
    f.Inv w c ∧ FrmFill.Le ⟨frm, p, [], [], false⟩ f := by
  simp only [frmFillPacket] at h
  obtain ⟨f₁, h₁, h⟩ := Option.bind_eq_some_iff.mp h
  obtain ⟨hf₁, hle₁⟩ := hf.walk h₁
  split_ifs at h with hout₁
  · cases h
    exact ⟨hf₁, hle₁⟩
  obtain ⟨f₂, h₂, h⟩ := Option.bind_eq_some_iff.mp h
  obtain ⟨hf₂, hle₂⟩ := hf₁.walk h₂
  split_ifs at h with hout₂
  · cases h
    exact ⟨hf₂, hle₁.trans hle₂⟩
  obtain ⟨⟨p₃, srcs₃⟩, h₃, h⟩ := Option.bind_eq_some_iff.mp h
  cases h
  obtain ⟨hpre, hfit⟩ := frmFillPacketFromItemSources_grows hf₂.fits h₃
  exact ⟨⟨hf₂.frm, fun x hx => hpre.subset (hf₂.moved x hx), hfit⟩,
    hle₁.trans (hle₂.trans (FrmFill.Le.packet_grow f₂ hpre))⟩

/-- An item on the urgent queue is not on the waiting queue. -/
lemma RpcFrm.Inv.not_mem_waiting {frm : RpcFrm} (hi : frm.Inv w c) {x : RpcItem}
    (hu : x ∈ frm.fUrgent) : x ∉ frm.fWaiting := by
  intro hw
  have hnd := hi.nodup
  rw [RpcFrm.queued, List.map_append] at hnd
  exact (List.nodup_append.mp hnd).2.2 _ (List.mem_map_of_mem hu) _ (List.mem_map_of_mem hw) rfl

/-- The walk over the queue `rest` left the packet empty: everything that left the queues was
`rest`, removed as failed. -/
lemma FrmFill.Le.of_empty {f f' : FrmFill} {rest : List RpcItem} (hle : f.Le f')
    (hm : f'.moved = f.moved) (hd : f'.failed = f.failed ++ rest) :
    f.frm.queued.Perm (f'.frm.queued ++ rest) := by
  obtain ⟨m, d, hm', hd', hp⟩ := hle.left
  rw [hm] at hm'
  rw [hd] at hd'
  obtain rfl : m = [] := by simpa using hm'
  obtain rfl : d = rest := (List.append_cancel_left hd').symm
  simpa using hp

/-- A packet that comes out of `frm_fill_packet` empty leaves both queues empty: every queued
item fits in the empty packet, so each one went into it or was removed as failed. -/
lemma frmFillPacket_empty {σ : Type} {ops : RpcItemSourceOps σ} {srcs srcs' : List σ}
    {frm : RpcFrm} {f : FrmFill} (hi : frm.Inv w c)
    (h : frmFillPacket w c ops srcs frm (m0RpcPacketInit w) = some (f, srcs'))
    (hempty : f.packet.rpItems = []) : f.frm.fUrgent = [] ∧ f.frm.fWaiting = [] := by
  have hf : FrmFill.Inv w c ⟨frm, m0RpcPacketInit w, [], [], false⟩ :=
    ⟨hi, by simp, by simp [m0RpcPacketInit]⟩
  simp only [frmFillPacket] at h
  obtain ⟨f₁, h₁, h⟩ := Option.bind_eq_some_iff.mp h
  obtain ⟨hf₁, hle₁⟩ := hf.walk h₁
  have hfitU : ∀ x ∈ frm.fUrgent, w.packetHeader + w.packetFooter + m0RpcItemSize w x ≤
      c.fcMaxPacketSize := fun x hx => hi.fits x (List.mem_append_left _ hx)
  -- the later steps only add to the packet, so it was empty after each walk
  have hempty₁ : f₁.packet.rpItems = [] := by
    split_ifs at h
    · cases h
      exact hempty
    obtain ⟨f₂, h₂, h⟩ := Option.bind_eq_some_iff.mp h
    have hpre := (hf₁.walk h₂).2.packet
    split_ifs at h
    · cases h
      exact List.eq_nil_of_prefix_nil (hempty ▸ hpre)
    obtain ⟨⟨p₃, srcs₃⟩, h₃, h⟩ := Option.bind_eq_some_iff.mp h
    cases h
    exact List.eq_nil_of_prefix_nil
      (hempty ▸ hpre.trans (frmFillPacketFromItemSources_grows (hf₁.walk h₂).1.fits h₃).1)
  obtain ⟨hm₁, hd₁, ho₁, hpk₁⟩ := frmFillPacketItemq_empty hf rfl hfitU h₁ hempty₁
  -- after the urgent walk the urgent queue is empty: what is left of it is on the waiting queue
  have hU₁ : f₁.frm.fUrgent = [] := by
    have hp := hle₁.of_empty hm₁ hd₁
    simp only [RpcFrm.queued] at hp
    have hp' : frm.fWaiting.Perm (f₁.frm.fUrgent ++ f₁.frm.fWaiting) :=
      (List.perm_append_left_iff frm.fUrgent).mp (hp.trans List.perm_append_comm)
    refine List.eq_nil_iff_forall_not_mem.mpr fun x hx => ?_
    exact hi.not_mem_waiting (hle₁.urgent.subset hx)
      (hp'.mem_iff.mpr (List.mem_append_left _ hx))
  rw [if_neg (by simp [ho₁])] at h
  obtain ⟨f₂, h₂, h⟩ := Option.bind_eq_some_iff.mp h
  obtain ⟨hf₂, hle₂⟩ := hf₁.walk h₂
  -- the item sources come last, so the frm after them is the one after the waiting walk
  have hlast : f.frm = f₂.frm ∧ f₂.packet.rpItems = [] := by
    split_ifs at h
    · cases h
      exact ⟨rfl, hempty⟩
    obtain ⟨⟨p₃, srcs₃⟩, h₃, h⟩ := Option.bind_eq_some_iff.mp h
    cases h
    exact ⟨rfl, List.eq_nil_of_prefix_nil
      (hempty ▸ (frmFillPacketFromItemSources_grows hf₂.fits h₃).1)⟩
  have hfitW : ∀ x ∈ f₁.frm.fWaiting, w.packetHeader + w.packetFooter + m0RpcItemSize w x ≤
      c.fcMaxPacketSize := fun x hx => hf₁.frm.fits x (List.mem_append_right _ hx)
  obtain ⟨hm₂, hd₂, -, -⟩ :=
    frmFillPacketItemq_empty hf₁ (hpk₁.trans rfl) hfitW h₂ hlast.2
  have hp := hle₂.of_empty hm₂ hd₂
  rw [RpcFrm.queued, hU₁, List.nil_append] at hp
  have hnil : f₂.frm.queued = [] :=
    List.Perm.eq_nil ((List.perm_append_right_iff _).mp (by simpa using hp.symm))
  rw [hlast.1]
  exact List.append_eq_nil_iff.mp hnil

/-! ### `frm_balance` -/

lemma frmIsReady_enqed_lt {frm : RpcFrm} (h : frmIsReady c frm = true) :
    frm.fNrPacketsEnqed < c.fcMaxNrPacketsEnqed := by
  simp only [frmIsReady, Bool.and_eq_true, decide_eq_true_eq] at h
  exact h.1

/-- A ready machine with an empty urgent queue and no bytes queued asks for no bytes. -/
lemma frmIsReady_max_bytes {frm : RpcFrm} (h : frmIsReady c frm = true) (hu : frm.fUrgent = [])
    (hb : frm.fNrBytesAccumulated = 0) : c.fcMaxNrBytesAccumulated = 0 := by
  simp only [frmIsReady, hu, hb, List.isEmpty_nil, Bool.not_true, Bool.false_or,
    Bool.and_eq_true, decide_eq_true_eq, Nat.le_zero] at h
  exact h.2

variable (w c) in
/-- What `frm_balance` keeps along its loop, with what it has handed out: the machine's
invariant, every packet handed to `fo_packet_ready` non-empty and within `fc_max_packet_size`,
and every item that went into a packet carried by a packet handed out. -/
structure FrmBalance.Inv {σ : Type} (b : FrmBalance σ) : Prop where
  frm : b.frm.Inv w c
  packets : ∀ p ∈ b.packets, p.rpItems ≠ [] ∧ p.rpSize ≤ c.fcMaxPacketSize
  exits : ∀ x p, FrmExit.packet x p ∈ b.exits → x ∈ p.rpItems ∧ p ∈ b.packets

@[simp] lemma FrmExit.item_failed (x : RpcItem) : (FrmExit.failed x).item = x := rfl

@[simp] lemma FrmExit.item_packet (x : RpcItem) (p : RpcPacket) : (FrmExit.packet x p).item = x :=
  rfl

@[simp] lemma FrmExit.item_removed (x : RpcItem) : (FrmExit.removed x).item = x := rfl

/-- The items a packet-forming round took from the queues are the items it logs as gone. -/
lemma FrmFill.Le.ledger {frm : RpcFrm} {p₀ p : RpcPacket} {f : FrmFill}
    (hle : FrmFill.Le ⟨frm, p₀, [], [], false⟩ f) (E : List FrmExit) :
    (frm.queued ++ E.map FrmExit.item).Perm
      (f.frm.queued ++ (E ++ f.failed.map FrmExit.failed ++ f.moved.map (FrmExit.packet · p)).map
        FrmExit.item) := by
  obtain ⟨m, d, hm, hd, hp⟩ := hle.left
  simp only [List.nil_append] at hm hd
  rw [hm, hd]
  have hf : (d.map FrmExit.failed).map FrmExit.item = d := by simp [List.map_map, Function.comp_def]
  have hm : (m.map (FrmExit.packet · p)).map FrmExit.item = m := by
    simp [List.map_map, Function.comp_def]
  rw [List.map_append, List.map_append, hf, hm]
  refine (hp.append_right _).trans ?_
  rw [List.perm_iff_count]
  intro a
  simp only [List.count_append]
  omega

/-- The loop of `frm_balance` keeps what it keeps, every item it takes from the queues is
logged once, and it stops with the machine not ready, after a failed packet allocation, or with
both queues empty (and then it was ready only because `fc_max_nr_bytes_accumulated` is 0). -/
lemma FrmBalance.Inv.loop {σ : Type} {ops : RpcItemSourceOps σ} {env : FrmEnv σ} {fuel : ℕ}
    {b b' : FrmBalance σ} (hb : b.Inv w c) (h : frmBalanceLoop w c ops env fuel b = some b') :
    b'.Inv w c ∧
      (b.frm.queued ++ b.exits.map FrmExit.item).Perm (b'.frm.queued ++ b'.exits.map FrmExit.item) ∧
      (frmIsReady c b'.frm = false ∨ env.packetAlloc b'.packetCount = false ∨
        (b'.frm.fUrgent = [] ∧ b'.frm.fWaiting = [] ∧ c.fcMaxNrBytesAccumulated = 0)) := by
  induction fuel generalizing b with
  | zero => cases h
  | succ fuel ih =>
    simp only [frmBalanceLoop] at h
    by_cases hready : frmIsReady c b.frm = false
    · rw [if_pos hready] at h
      cases h
      exact ⟨hb, List.Perm.refl _, .inl hready⟩
    rw [if_neg hready] at h
    by_cases halloc : env.packetAlloc b.packetCount = false
    · rw [if_pos halloc] at h
      cases h
      exact ⟨hb, List.Perm.refl _, .inr (.inl halloc)⟩
    rw [if_neg halloc] at h
    have hready' : frmIsReady c b.frm = true := by simpa using hready
    obtain ⟨⟨f, srcs⟩, hf, h⟩ := Option.bind_eq_some_iff.mp h
    dsimp only at h
    obtain ⟨hfi, hle⟩ := FrmFill.Inv.fillPacket ⟨hb.frm, by simp, by simp [m0RpcPacketInit]⟩ hf
    by_cases hempty : f.packet.rpItems = []
    · -- FRM_BALANCE_NOTE_1: the packet came out empty, and so did both queues
      rw [if_pos hempty] at h
      cases h
      have hmoved : f.moved = [] :=
        List.eq_nil_iff_forall_not_mem.mpr fun x hx => by simpa [hempty] using hfi.moved x hx
      obtain ⟨hU, hW⟩ := frmFillPacket_empty hb.frm hf hempty
      refine ⟨⟨hfi.frm, hb.packets, fun x p hx => ?_⟩, ?_, ?_⟩
      · rcases List.mem_append.mp hx with hx | hx
        · exact hb.exits x p hx
        · simp at hx
      · simpa [hmoved] using hle.ledger (p := f.packet) b.exits
      · by_cases hr : frmIsReady c f.frm = true
        · have hbytes : f.frm.fNrBytesAccumulated = 0 := by
            rw [hfi.frm.nrBytes, RpcFrm.queued, hU, hW]
            rfl
          exact .inr (.inr ⟨hU, hW, frmIsReady_max_bytes hr hU hbytes⟩)
        · exact .inl (by simpa using hr)
    · -- the packet goes to `fo_packet_ready`
      rw [if_neg hempty] at h
      have hlt : f.frm.fNrPacketsEnqed < c.fcMaxNrPacketsEnqed :=
        hle.enqed ▸ frmIsReady_enqed_lt hready'
      have hfrm : (if env.packetReady b.packetCount then frmPacketEnqed f.frm else f.frm).Inv w c := by
        split
        · exact hfi.frm.packetEnqed hlt
        · exact hfi.frm
      have hq : (if env.packetReady b.packetCount then frmPacketEnqed f.frm else f.frm).queued =
          f.frm.queued := by
        split <;> rfl
      have hb₁ : FrmBalance.Inv w c ({
          frm := if env.packetReady b.packetCount then frmPacketEnqed f.frm else f.frm
          sources := srcs
          packetCount := b.packetCount + 1
          packets := b.packets ++ [f.packet]
          exits := b.exits ++ f.failed.map .failed ++ f.moved.map (FrmExit.packet · f.packet) } :
          FrmBalance σ) := by
        refine ⟨hfrm, fun p hp => ?_, fun x p hx => ?_⟩
        · rcases List.mem_append.mp hp with hp | hp
          · exact hb.packets p hp
          · rw [List.mem_singleton.mp hp]
            exact ⟨hempty, hfi.fits hempty⟩
        · rcases List.mem_append.mp hx with hx | hx
          · rcases List.mem_append.mp hx with hx | hx
            · obtain ⟨hxp, hp⟩ := hb.exits x p hx
              exact ⟨hxp, List.mem_append_left _ hp⟩
            · simp at hx
          · obtain ⟨y, hy, he⟩ := List.mem_map.mp hx
            cases he
            exact ⟨hfi.moved x hy, List.mem_append_right _ List.mem_cons_self⟩
      obtain ⟨hb', hp', hstop⟩ := ih hb₁ h
      refine ⟨hb', ?_, hstop⟩
      rw [hq] at hp'
      exact (hle.ledger (p := f.packet) b.exits).trans hp'

/-- `m0_rpc_frm_packet_done` balances a machine that keeps the invariant and the items. -/
lemma RpcFrm.Inv.packetDone_balance {σ : Type} {ops : RpcItemSourceOps σ} {env : FrmEnv σ}
    {frm : RpcFrm} {b : FrmBalance σ} (hi : frm.Inv w c)
    (h : m0RpcFrmPacketDone w c ops env frm = some b) :
    ∃ frm', frm'.Inv w c ∧ frm'.queued = frm.queued ∧ frmBalance w c ops env frm' = some b := by
  unfold m0RpcFrmPacketDone at h
  split_ifs at h with h0
  exact ⟨_, hi.packetDone h0, by dsimp only; split <;> rfl, h⟩

/-! ### No assertion of `frm_fill_packet` fails -/

/-- An item on a queue of a machine keeping the invariant is unlinked from that queue. -/
lemma RpcFrm.Inv.itemqRemove_of_mem {frm : RpcFrm} (hi : frm.Inv w c) {qt : FrmItemqType}
    {x : RpcItem} (hx : x ∈ frm.fItemq qt) :
    itemqRemove frm x = some (frm.setItemq qt ((frm.fItemq qt).erase x)) := by
  cases qt with
  | urgent => exact if_pos hx
  | waiting =>
    have hu : x ∉ frm.fUrgent := fun hu => hi.not_mem_waiting hu hx
    simp only [itemqRemove, if_neg hu, if_pos (show x ∈ frm.fWaiting from hx)]
    rfl

/-- `frm_remove` of an item on a queue succeeds, and the queue loses that item. -/
lemma RpcFrm.Inv.frmRemove_of_mem {frm : RpcFrm} (hi : frm.Inv w c) {qt : FrmItemqType}
    {x : RpcItem} (hx : x ∈ frm.fItemq qt) :
    ∃ frm', frmRemove w frm x = some frm' ∧ frm'.fItemq qt = (frm.fItemq qt).erase x := by
  have hq : x ∈ frm.queued := by
    cases qt
    · exact List.mem_append_left _ hx
    · exact List.mem_append_right _ hx
  have h0 : frm.fNrItems ≠ 0 := by
    rw [hi.nrItems]
    exact List.ne_nil_of_mem hq ∘ List.eq_nil_of_length_eq_zero
  refine ⟨_, by rw [frmRemove, if_neg h0, hi.itemqRemove_of_mem hx, Option.map_some], ?_⟩
  cases qt <;> dsimp only <;> split <;> rfl

/-- The walk over the items of one queue trips no assertion: each item it unlinks is still on
that queue, and the packet stays within `fc_max_packet_size`. -/
lemma frmFillPacketItemq_ok {qt : FrmItemqType} {rest : List RpcItem} {f : FrmFill}
    (hf : f.Inv w c) (hsize : f.packet.rpSize ≤ c.fcMaxPacketSize)
    (hsub : rest.Sublist (f.frm.fItemq qt)) :
    ∃ f', frmFillPacketItemq w c rest f = some f' ∧ f'.packet.rpSize ≤ c.fcMaxPacketSize := by
  induction rest generalizing f with
  | nil => exact ⟨f, rfl, hsize⟩
  | cons x rest ih =>
    have havail : availableSpaceInPacket c f.packet = some (c.fcMaxPacketSize - f.packet.rpSize) :=
      if_pos hsize
    have hrest : rest.Sublist (f.frm.fItemq qt) := (List.sublist_cons_self x rest).trans hsub
    simp only [frmFillPacketItemq, havail, Option.bind_eq_bind, Option.bind_some]
    split_ifs with h0 hlt hfail
    · exact ⟨_, rfl, hsize⟩
    · exact ih hf hsize hrest
    all_goals
      obtain ⟨frm', hr, hq⟩ := hf.frm.frmRemove_of_mem (hsub.subset List.mem_cons_self)
      have hsub' : rest.Sublist (frm'.fItemq qt) := by
        rw [hq]
        simpa using hsub.erase x
      rw [hr, Option.bind_some]
    · exact ih (hf.fail hr).1 hsize hsub'
    · exact ih (hf.move havail (Nat.le_of_not_lt hlt) hr).1
        (m0RpcPacketAddItem_fits havail (Nat.le_of_not_lt hlt)) hsub'

/-- A source that honours the limit passed to `riso_get_item` gives items that fit, so the
loop on it trips no assertion. -/
lemma frmFillPacketFromItemSource_ok {σ : Type} {ops : RpcItemSourceOps σ}
    (hops : ∀ s lim item s', ops.risoGetItem s lim = (some item, s') → item.payloadSize ≤ lim)
    {src : σ} {p : RpcPacket} (hsize : p.rpSize ≤ c.fcMaxPacketSize) :
    ∃ p' src' out, frmFillPacketFromItemSource w c ops src p = some (p', src', out) ∧
      p'.rpSize ≤ c.fcMaxPacketSize := by
  induction src, p using frmFillPacketFromItemSource.induct w c ops with
  | case1 src p hhas hnone =>
    rw [availableSpaceInPacket, if_pos hsize] at hnone
    cases hnone
  | case2 src p hhas avail havail hle =>
    rw [frmFillPacketFromItemSource_of_some hhas havail, if_pos hle]
    exact ⟨p, src, true, rfl, hsize⟩
  | case3 src p hhas avail havail hle src₁ hget =>
    rw [frmFillPacketFromItemSource_of_some hhas havail, if_neg hle]
    simp only [hget]
    exact ⟨p, src₁, false, rfl, hsize⟩
  | case4 src p hhas avail havail hle item src₁ hget hlt =>
    -- the item's payload is within `avail` less an item's header and footer
    have hpay := hops _ _ _ _ hget
    simp only [m0RpcItemSize] at hlt
    omega
  | case5 src p hhas avail havail hle item src₁ hget hlt ih =>
    rw [frmFillPacketFromItemSource_of_some hhas havail, if_neg hle]
    simp only [hget, if_neg hlt]
    exact ih (m0RpcPacketAddItem_fits havail (Nat.le_of_not_lt hlt))
  | case6 src p hhas =>
    rw [frmFillPacketFromItemSource, if_neg hhas]
    exact ⟨p, src, false, rfl, hsize⟩

lemma frmFillPacketFromItemSources_ok {σ : Type} {ops : RpcItemSourceOps σ}
    (hops : ∀ s lim item s', ops.risoGetItem s lim = (some item, s') → item.payloadSize ≤ lim)
    {srcs : List σ} {p : RpcPacket} (hsize : p.rpSize ≤ c.fcMaxPacketSize) :
    (frmFillPacketFromItemSources w c ops srcs p).isSome := by
  induction srcs generalizing p with
  | nil => rfl
  | cons src srcs ih =>
    obtain ⟨p₁, src₁, out, h₁, hsize₁⟩ := @frmFillPacketFromItemSource_ok w c _ ops hops src p hsize
    simp only [frmFillPacketFromItemSources, h₁, Option.bind_eq_bind, Option.bind_some]
    split
    · rfl
    · obtain ⟨r, hr⟩ := Option.isSome_iff_exists.mp (ih hsize₁)
      rw [hr, Option.bind_some]
      rfl

end Machine

/-! ### Runs -/

/-- The calls of a run: the formation machine's entry points, and `m0_rpc_item_failed` on a
queued item. -/
inductive FrmCall
  | enqItem (item : RpcItem) (now : ℕ) (armOk : Bool)
  | deadlinePassed (item : RpcItem)
  | removeItem (item : RpcItem)
  | packetDone
  | runFormation
  | itemFailed (item : RpcItem)

/-- The machine with what its run has handed out so far: every item handed to
`m0_rpc_frm_enq_item`, every packet given to `fo_packet_ready`, and how items left the
queues. -/
structure FrmRun where
  frm : RpcFrm
  enqueued : List RpcItem
  packets : List RpcPacket
  exits : List FrmExit

/-- A run enqueues only items that fit in an empty packet. -/
def FrmCall.Allowed (w : RpcOnwire) (c : RpcFrmConstraints) : FrmCall → Prop
  | .enqItem item _ _ => w.packetHeader + w.packetFooter + m0RpcItemSize w item ≤ c.fcMaxPacketSize
  | _ => True

/-- A call ending in `frm_balance`, with the items it enqueued, joins the run's log. -/
def FrmRun.record {σ : Type} (r : FrmRun) (new : List RpcItem) (b : FrmBalance σ) : FrmRun :=
  ⟨b.frm, r.enqueued ++ new, r.packets ++ b.packets, r.exits ++ b.exits⟩

section Run

variable (w : RpcOnwire) (c : RpcFrmConstraints) {σ : Type} (ops : RpcItemSourceOps σ)

/-- One call of the run, in the surroundings `env`. -/
def frmStep (env : FrmEnv σ) (r : FrmRun) : FrmCall → Option FrmRun
  | .enqItem item now armOk =>
    (m0RpcFrmEnqItem w c ops env r.frm item now armOk).map (r.record [item])
  | .deadlinePassed item => (m0RpcFrmItemDeadlinePassed w c ops env r.frm item).map (r.record [])
  | .removeItem item => (m0RpcFrmRemoveItem w r.frm item).map fun frm =>
      { r with frm := frm, exits := r.exits ++ [.removed item] }
  | .packetDone => (m0RpcFrmPacketDone w c ops env r.frm).map (r.record [])
  | .runFormation => (m0RpcFrmRunFormation w c ops env r.frm).map (r.record [])
  | .itemFailed item => (m0RpcItemFailed r.frm item).map fun frm => { r with frm := frm }

/-- The states of the runs from `m0_rpc_frm_init`, whatever the surroundings decide at each
call. -/
inductive FrmReachable : FrmRun → Prop
  | init : FrmReachable ⟨m0RpcFrmInit, [], [], []⟩
  | step {r r' : FrmRun} {call : FrmCall} (env : FrmEnv σ) (h : FrmReachable r)
      (hc : call.Allowed w c) (hstep : frmStep w c ops env r call = some r') : FrmReachable r'

variable {w c ops}

variable (w c) in
/-- What every run keeps: the machine's invariant, every packet handed to `fo_packet_ready`
non-empty and within `fc_max_packet_size`, every item that went into a packet carried by a
packet handed out, and every item enqueued either on a queue or gone, once. -/
structure FrmRun.Inv (r : FrmRun) : Prop where
  frm : r.frm.Inv w c
  packets : ∀ p ∈ r.packets, p.rpItems ≠ [] ∧ p.rpSize ≤ c.fcMaxPacketSize
  exits : ∀ x p, FrmExit.packet x p ∈ r.exits → x ∈ p.rpItems ∧ p ∈ r.packets
  ledger : (r.enqueued.map (·.addr)).Perm (r.frm.queued.map (·.addr) ++ r.exits.map (·.item.addr))

lemma frmRun_inv_init : FrmRun.Inv w c ⟨m0RpcFrmInit, [], [], []⟩ :=
  ⟨rpcFrm_inv_init, by simp, by simp, by simp [m0RpcFrmInit, RpcFrm.queued]⟩

/-- A call that ends in `frm_balance` keeps the run's invariant, given the machine it balances
and the items it enqueued. -/
lemma FrmRun.Inv.record {r : FrmRun} (hr : r.Inv w c) {frm : RpcFrm} (hi : frm.Inv w c)
    {new : List RpcItem}
    (hq : ((r.enqueued ++ new).map (·.addr)).Perm
      (frm.queued.map (·.addr) ++ r.exits.map (·.item.addr)))
    {env : FrmEnv σ} {b : FrmBalance σ} (hb : frmBalance w c ops env frm = some b) :
    (r.record new b).Inv w c := by
  obtain ⟨hb', hp, -⟩ := FrmBalance.Inv.loop (b := ⟨frm, env.sources, 0, [], []⟩)
    ⟨hi, by simp, by simp⟩ hb
  simp only [List.map_nil, List.append_nil] at hp
  refine ⟨hb'.frm, fun p hp => ?_, fun x p hx => ?_, ?_⟩
  · rcases List.mem_append.mp hp with hp | hp
    · exact hr.packets p hp
    · exact hb'.packets p hp
  · rcases List.mem_append.mp hx with hx | hx
    · obtain ⟨hxp, hp⟩ := hr.exits x p hx
      exact ⟨hxp, List.mem_append_left _ hp⟩
    · obtain ⟨hxp, hp⟩ := hb'.exits x p hx
      exact ⟨hxp, List.mem_append_right _ hp⟩
  · have hpa : (frm.queued.map (·.addr)).Perm
        (b.frm.queued.map (·.addr) ++ b.exits.map (·.item.addr)) := by
      simpa [List.map_map, Function.comp_def] using hp.map (·.addr)
    refine hq.trans ((hpa.append_right _).trans ?_)
    simp only [FrmRun.record, List.map_append, List.append_assoc]
    exact List.Perm.append_left _ List.perm_append_comm

/-- Every call keeps the run's invariant. -/
lemma FrmRun.Inv.step {r r' : FrmRun} {call : FrmCall} {env : FrmEnv σ} (hr : r.Inv w c)
    (hc : call.Allowed w c) (h : frmStep w c ops env r call = some r') : r'.Inv w c := by
  cases call with
  | enqItem item now armOk =>
    obtain ⟨b, hb, rfl⟩ := Option.map_eq_some_iff.mp h
    obtain ⟨frm, h₁, hb⟩ := Option.bind_eq_some_iff.mp hb
    obtain ⟨hi, x, hxa, hp, -⟩ := hr.frm.insert hc h₁
    refine hr.record hi ?_ hb
    have hpa := (hp.map (·.addr)).symm
    rw [List.map_cons, hxa] at hpa
    rw [List.map_append, List.map_singleton]
    refine (List.perm_append_singleton _ _).trans ?_
    refine (hr.ledger.cons _).trans ?_
    exact (hpa.append_right _).trans (List.Perm.refl _)
  | deadlinePassed item =>
    obtain ⟨b, hb, rfl⟩ := Option.map_eq_some_iff.mp h
    obtain ⟨frm, h₁, hb⟩ := Option.bind_eq_some_iff.mp hb
    obtain ⟨hi, hp, -⟩ := hr.frm.moveToUrgent h₁
    refine hr.record hi ?_ hb
    rw [List.append_nil]
    exact hr.ledger.trans ((hp.symm.map _).append_right _)
  | removeItem item =>
    obtain ⟨frm, h₁, rfl⟩ := Option.map_eq_some_iff.mp h
    obtain ⟨hi, hp, -⟩ := hr.frm.remove h₁
    refine ⟨hi, hr.packets, fun x p hx => ?_, ?_⟩
    · rcases List.mem_append.mp hx with hx | hx
      · exact hr.exits x p hx
      · simp at hx
    · refine hr.ledger.trans ((hp.map (·.addr)).append_right _ |>.trans ?_)
      simp only [List.map_cons, List.map_append, List.map_nil, List.cons_append,
        FrmExit.item_removed]
      exact List.perm_middle.symm.trans
        (List.Perm.append_left _ (List.perm_append_singleton _ _).symm)
  | packetDone =>
    obtain ⟨b, hb, rfl⟩ := Option.map_eq_some_iff.mp h
    obtain ⟨frm, hi, hq, hb⟩ := hr.frm.packetDone_balance hb
    refine hr.record hi ?_ hb
    rw [List.append_nil, hq]
    exact hr.ledger
  | runFormation =>
    obtain ⟨b, hb, rfl⟩ := Option.map_eq_some_iff.mp h
    exact hr.record hr.frm (by rw [List.append_nil]; exact hr.ledger) hb
  | itemFailed item =>
    obtain ⟨frm, h₁, rfl⟩ := Option.map_eq_some_iff.mp h
    obtain ⟨hi, hq, -⟩ := hr.frm.itemFailed h₁
    refine ⟨hi, hr.packets, hr.exits, ?_⟩
    have haddr : frm.queued.map (·.addr) = r.frm.queued.map (·.addr) := by
      rw [hq, List.map_map]
      refine List.map_congr_left fun y _ => ?_
      by_cases hy : y = item <;> simp [hy]
    rw [haddr]
    exact hr.ledger

/-- Every state of every run keeps the run's invariant. -/
lemma FrmReachable.inv {r : FrmRun} (h : FrmReachable w c ops r) : r.Inv w c := by
  induction h with
  | init => exact frmRun_inv_init
  | step env _ hc hstep ih => exact ih.step hc hstep

end Run

/-! ### What every run of the machine keeps -/

section Results

variable {w : RpcOnwire} {c : RpcFrmConstraints} {σ : Type} {ops : RpcItemSourceOps σ}

/-- The run that enqueues one urgent item of 100 bytes of payload, which `frm_balance` sends at
once in a packet of its own. -/
lemma frmReachable_enq_one :
    FrmReachable (⟨8, 4, 16, 8, Nat.succ_pos 7⟩ : RpcOnwire) m0RpcFrmConstraintsGetDefaults
      (⟨fun _ => false, fun s _ => (none, s)⟩ : RpcItemSourceOps Unit)
      ⟨⟨.busy, [], [], 0, 0, 1⟩, [⟨1, 0, 0, 100, false⟩], [⟨[⟨1, 0, 0, 100, false⟩], 136⟩],
        [.packet ⟨1, 0, 0, 100, false⟩ ⟨[⟨1, 0, 0, 100, false⟩], 136⟩]⟩ :=
  .step ⟨fun _ => true, fun _ => true, [], 2⟩ .init
    (by exact show 16 + 8 + (8 + 100 + 4) ≤ 4096 by decide)
    (rfl : frmStep ⟨8, 4, 16, 8, Nat.succ_pos 7⟩ m0RpcFrmConstraintsGetDefaults
      (⟨fun _ => false, fun s _ => (none, s)⟩ : RpcItemSourceOps Unit)
      ⟨fun _ => true, fun _ => true, [], 2⟩ ⟨m0RpcFrmInit, [], [], []⟩
      (.enqItem ⟨1, 0, 0, 100, false⟩ 5 true) = some
      ⟨⟨.busy, [], [], 0, 0, 1⟩, [⟨1, 0, 0, 100, false⟩], [⟨[⟨1, 0, 0, 100, false⟩], 136⟩],
        [.packet ⟨1, 0, 0, 100, false⟩ ⟨[⟨1, 0, 0, 100, false⟩], 136⟩]⟩)

/-- Along every run, `frm_invariant` holds (the machine is idle exactly when it holds no item
and no packet is in flight, both queues are sorted by `item_less_or_equal`, and `f_nr_items`
and `f_nr_bytes_accumulated` are the totals over both queues), and no more packets are in
flight than `fc_max_nr_packets_enqed`. -/
theorem frmReachable_frmInvariant {r : FrmRun} (h : FrmReachable w c ops r) :
    FrmInvariant w r.frm ∧ r.frm.fNrPacketsEnqed ≤ c.fcMaxNrPacketsEnqed :=
  ⟨h.inv.frm.frmInvariant, h.inv.frm.enqed_le⟩

theorem frmReachable_frmInvariant_enq_one :
    FrmInvariant ⟨8, 4, 16, 8, Nat.succ_pos 7⟩ ⟨.busy, [], [], 0, 0, 1⟩ ∧ 1 ≤ 100 :=
  frmReachable_frmInvariant frmReachable_enq_one

/-- Along every run, every packet handed to `fo_packet_ready` carries an item and is no
larger than `fc_max_packet_size`, whatever the item sources give, as long as the enqueued items
fit in an empty packet. -/
theorem frmReachable_packets_fit {r : FrmRun} (h : FrmReachable w c ops r) :
    ∀ p ∈ r.packets, p.rpItems ≠ [] ∧ p.rpSize ≤ c.fcMaxPacketSize :=
  h.inv.packets

theorem frmReachable_packets_fit_enq_one :
    [(⟨1, 0, 0, 100, false⟩ : RpcItem)] ≠ [] ∧ 136 ≤ 4096 :=
  frmReachable_packets_fit frmReachable_enq_one _ (List.mem_singleton_self _)

/-- Along every run, every item handed to `m0_rpc_frm_enq_item` is on a queue or has left
the queues, and only once: into a packet that carries it and was handed to `fo_packet_ready`,
removed by `frm_fill_packet` as failed, or removed by `m0_rpc_frm_remove_item`. -/
theorem frmReachable_items_leave_once {r : FrmRun} (h : FrmReachable w c ops r) :
    (r.enqueued.map (·.addr)).Perm (r.frm.queued.map (·.addr) ++ r.exits.map (·.item.addr)) ∧
      ∀ x p, FrmExit.packet x p ∈ r.exits → x ∈ p.rpItems ∧ p ∈ r.packets :=
  ⟨h.inv.ledger, h.inv.exits⟩

theorem frmReachable_items_leave_once_enq_one :
    ([1] : List ℕ).Perm ([] ++ [1]) ∧
      ((⟨1, 0, 0, 100, false⟩ : RpcItem) ∈ [(⟨1, 0, 0, 100, false⟩ : RpcItem)] ∧
        (⟨[⟨1, 0, 0, 100, false⟩], 136⟩ : RpcPacket) ∈ [(⟨[⟨1, 0, 0, 100, false⟩], 136⟩ : RpcPacket)]) :=
  ⟨(frmReachable_items_leave_once frmReachable_enq_one).1,
    (frmReachable_items_leave_once frmReachable_enq_one).2 _ _ (List.mem_singleton_self _)⟩

/-- `frm_balance` on a machine keeping the invariant (as every machine of a run does, and
every machine it is called on) returns with the machine not ready, after a failed packet
allocation, or with both queues empty, which leaves it ready only when
`fc_max_nr_bytes_accumulated` is 0. -/
theorem frmBalance_stop {env : FrmEnv σ} {frm : RpcFrm} {b : FrmBalance σ} (hi : frm.Inv w c)
    (h : frmBalance w c ops env frm = some b) :
    frmIsReady c b.frm = false ∨ env.packetAlloc b.packetCount = false ∨
      (b.frm.fUrgent = [] ∧ b.frm.fWaiting = [] ∧ c.fcMaxNrBytesAccumulated = 0) :=
  (FrmBalance.Inv.loop ⟨hi, by simp, by simp⟩ h).2.2

theorem frmBalance_stop_init :
    frmIsReady ⟨100, 4096, 0⟩ m0RpcFrmInit = false ∨ (fun _ => true : ℕ → Bool) 0 = false ∨
      (m0RpcFrmInit.fUrgent = [] ∧ m0RpcFrmInit.fWaiting = [] ∧ (0 : ℕ) = 0) :=
  frmBalance_stop rpcFrm_inv_init
    (rfl : frmBalance ⟨8, 4, 16, 8, Nat.succ_pos 7⟩ ⟨100, 4096, 0⟩
      (⟨fun _ => false, fun s _ => (none, s)⟩ : RpcItemSourceOps Unit)
      ⟨fun _ => true, fun _ => true, [], 1⟩ m0RpcFrmInit = some ⟨m0RpcFrmInit, [], 0, [], []⟩)

/-- With item sources that honour the limit passed to `riso_get_item` and an empty packet
within `fc_max_packet_size`, `frm_fill_packet` on a machine keeping the invariant trips none of
its assertions on the queues and the sizes: each item it unlinks is still on its queue
(`frm_remove`'s preconditions), the packet stays within `fc_max_packet_size`
(`available_space_in_packet`'s), and every item a source gives fits
(`!item_will_exceed_packet_size`). The assertions on the kind of an item, a request when it
failed on a queue and one-way when a source gives it, are about the items callers hand in, and
the model's items carry no kind. -/
theorem frmFillPacket_ok {frm : RpcFrm} (hi : frm.Inv w c)
    (hops : ∀ s lim item s', ops.risoGetItem s lim = (some item, s') → item.payloadSize ≤ lim)
    (hpk : w.packetHeader + w.packetFooter ≤ c.fcMaxPacketSize) (srcs : List σ) :
    (frmFillPacket w c ops srcs frm (m0RpcPacketInit w)).isSome := by
  have hf : FrmFill.Inv w c ⟨frm, m0RpcPacketInit w, [], [], false⟩ :=
    ⟨hi, by simp, by simp [m0RpcPacketInit]⟩
  obtain ⟨f₁, h₁, hs₁⟩ := frmFillPacketItemq_ok hf hpk
    (show frm.fUrgent.Sublist (frm.fItemq .urgent) from List.Sublist.refl _)
  obtain ⟨f₂, h₂, hs₂⟩ := frmFillPacketItemq_ok (hf.walk h₁).1 hs₁
    (show f₁.frm.fWaiting.Sublist (f₁.frm.fItemq .waiting) from List.Sublist.refl _)
  simp only [frmFillPacket, h₁, Option.bind_eq_bind, Option.bind_some]
  split
  · rfl
  rw [h₂, Option.bind_some]
  split
  · rfl
  obtain ⟨r, hr⟩ :=
    Option.isSome_iff_exists.mp (@frmFillPacketFromItemSources_ok w c σ ops hops srcs _ hs₂)
  rw [hr, Option.bind_some]
  rfl

/-- A source that always has an item, each as large as the limit allows: `frm_fill_packet`
fills the packet from it without tripping an assertion. -/
theorem frmFillPacket_ok_greedy_source :
    (frmFillPacket ⟨8, 4, 16, 8, Nat.succ_pos 7⟩ m0RpcFrmConstraintsGetDefaults
      (⟨fun _ => true, fun s lim => (some ⟨s, 0, 0, lim, false⟩, s + 1)⟩ : RpcItemSourceOps ℕ)
      [0] m0RpcFrmInit (m0RpcPacketInit ⟨8, 4, 16, 8, Nat.succ_pos 7⟩)).isSome :=
  frmFillPacket_ok rpcFrm_inv_init
    (fun s lim item s' h => by
      simp only [Prod.mk.injEq, Option.some.injEq] at h
      rw [← h.1])
    (by decide) [0]

/-- Along every run: `frm_invariant` holds with no more packets in flight than
`fc_max_nr_packets_enqed`; every packet handed to `fo_packet_ready` carries an item and is within
`fc_max_packet_size`; every enqueued item is on a queue or has left them once, into a packet
handed out that carries it or as failed or removed; and `frm_balance`, called on a state of the
run, returns with the machine not ready, after a failed packet allocation, or with both queues
empty and `fc_max_nr_bytes_accumulated` 0. -/
theorem frmReachable_formation {r : FrmRun} (h : FrmReachable w c ops r) :
    (FrmInvariant w r.frm ∧ r.frm.fNrPacketsEnqed ≤ c.fcMaxNrPacketsEnqed) ∧
      (∀ p ∈ r.packets, p.rpItems ≠ [] ∧ p.rpSize ≤ c.fcMaxPacketSize) ∧
      ((r.enqueued.map (·.addr)).Perm (r.frm.queued.map (·.addr) ++ r.exits.map (·.item.addr)) ∧
        ∀ x p, FrmExit.packet x p ∈ r.exits → x ∈ p.rpItems ∧ p ∈ r.packets) ∧
      ∀ (env : FrmEnv σ) (b : FrmBalance σ), frmBalance w c ops env r.frm = some b →
        frmIsReady c b.frm = false ∨ env.packetAlloc b.packetCount = false ∨
          (b.frm.fUrgent = [] ∧ b.frm.fWaiting = [] ∧ c.fcMaxNrBytesAccumulated = 0) := by
  have hi := h.inv
  refine ⟨⟨hi.frm.frmInvariant, hi.frm.enqed_le⟩, hi.packets, ⟨hi.ledger, hi.exits⟩,
    fun env b hb => ?_⟩
  -- the loop of `frm_balance` keeps the machine's invariant and stops only on these grounds
  exact (FrmBalance.Inv.loop ⟨hi.frm, by simp, by simp⟩ hb).2.2

theorem frmReachable_formation_enq_one :
    ∃ r, FrmReachable (⟨8, 4, 16, 8, Nat.succ_pos 7⟩ : RpcOnwire) m0RpcFrmConstraintsGetDefaults
        (⟨fun _ => false, fun s _ => (none, s)⟩ : RpcItemSourceOps Unit) r ∧ r.packets ≠ [] ∧
      ∀ p ∈ r.packets, p.rpItems ≠ [] ∧ p.rpSize ≤ 4096 :=
  ⟨_, frmReachable_enq_one, List.cons_ne_nil _ _,
    (frmReachable_formation frmReachable_enq_one).2.1⟩

/-- `frm_balance` can return with the machine still ready and fewer packets in flight than
`fc_max_nr_packets_enqed`: from `m0_rpc_frm_init` with `fc_max_nr_bytes_accumulated` 0 the
machine is ready with both queues empty, and the first packet it fills stays empty
(`FRM_BALANCE_NOTE_1`). -/
theorem frmBalance_returns_ready :
    FrmReachable (⟨8, 4, 16, 8, Nat.succ_pos 7⟩ : RpcOnwire) ⟨100, 4096, 0⟩
        (⟨fun _ => false, fun s _ => (none, s)⟩ : RpcItemSourceOps Unit)
        ⟨m0RpcFrmInit, [], [], []⟩ ∧
      frmBalance ⟨8, 4, 16, 8, Nat.succ_pos 7⟩ ⟨100, 4096, 0⟩
        (⟨fun _ => false, fun s _ => (none, s)⟩ : RpcItemSourceOps Unit)
        ⟨fun _ => true, fun _ => true, [], 1⟩ m0RpcFrmInit = some ⟨m0RpcFrmInit, [], 0, [], []⟩ ∧
      frmIsReady ⟨100, 4096, 0⟩ m0RpcFrmInit = true ∧ m0RpcFrmInit.fNrPacketsEnqed < 100 :=
  ⟨.init, rfl, rfl, by decide⟩

end Results

end Motr
