import Motr.Btree.Put

/-!
The DTM0 log of `be/dtm0_log.c`: one record per transaction, holding its descriptor (the
states of its participants) and its payload, in the order the transactions first arrived.

`m0_be_dtm0_log_update` finds the record of the descriptor's transaction id
(`m0_be_dtm0_log_find`) and merges the descriptor into it (`dtm0_log__set`: the payload is
attached if the record has none, and each participant takes the larger of the two states,
`m0_dtm0_tx_desc_apply`), or appends a new record at the tail (`dtm0_log__insert`). The two
prune functions walk the log from its head: a record may be pruned when every record before
the first whose id is not below it is persistent and that record is the one asked for; the
prune then removes the records from the head through it.

The log is a list, the same for the persistent (`dl_persist`) and the volatile (`dl_inmem`)
form; transaction ids are of any linear order, `m0_dtm0_tid_cmp` being its comparison; a
descriptor keeps the states of its participants, whose fids only the preconditions read. A
failed precondition is `none`.
-/

namespace Motr

/-- `EPROTO`. -/
def EPROTO : Int := 71

/-- `enum m0_dtm0_tx_pa_state`, ordered as the numbers `max_check` compares. -/
inductive DtmPaState
  | M0_DTPS_INIT
  | M0_DTPS_INPROGRESS
  | M0_DTPS_EXECUTED
  | M0_DTPS_PERSISTENT
  deriving DecidableEq, Repr

/-- The value of a participant state. -/
def DtmPaState.toNat : DtmPaState → Nat
  | .M0_DTPS_INIT => 0
  | .M0_DTPS_INPROGRESS => 1
  | .M0_DTPS_EXECUTED => 2
  | .M0_DTPS_PERSISTENT => 3

instance : LinearOrder DtmPaState :=
  LinearOrder.lift' DtmPaState.toNat fun a b h => by
    cases a <;> cases b <;> first | rfl | cases h

/-- `struct m0_dtm0_tx_desc`: the transaction id and the states of its participants. -/
@[ext]
structure DtmTxDesc (T : Type) where
  dtdId : T
  dtdPs : List DtmPaState
  deriving DecidableEq, Repr

/-- `struct m0_dtm0_log_rec`: a descriptor and its payload (empty when not attached). -/
structure DtmLogRec (T : Type) where
  dlrTxd : DtmTxDesc T
  dlrPayload : List UInt8
  deriving DecidableEq, Repr

variable {T : Type} [LinearOrder T]

/-- `m0_dtm0_tx_desc_apply`: each participant of `tgt` takes the larger of its state and that
of `upd` (`max_check`). -/
def m0Dtm0TxDescApply (tgt upd : DtmTxDesc T) : DtmTxDesc T :=
  { tgt with dtdPs := List.zipWith max tgt.dtdPs upd.dtdPs }

/-- `m0_dtm0_tx_desc_state_eq`: every participant is in `state`. -/
def m0Dtm0TxDescStateEq (txd : DtmTxDesc T) (state : DtmPaState) : Bool :=
  txd.dtdPs.all (· = state)

/-- `m0_be_dtm0_log_find`: the first record whose id compares equal. -/
def m0BeDtm0LogFind (log : List (DtmLogRec T)) (id : T) : Option (DtmLogRec T) :=
  log.find? fun r => compare r.dlrTxd.dtdId id = .eq

/-- `dtm0_log__set`: the payload attached if the record has none, then the descriptor
applied; `none` when the descriptors differ in their number of participants (`M0_PRE` of
`m0_dtm0_tx_desc_apply`). -/
def dtm0LogSet (txd : DtmTxDesc T) (payload : List UInt8) (rec : DtmLogRec T) :
    Option (DtmLogRec T) :=
  if txd.dtdPs.length = rec.dlrTxd.dtdPs.length then
    some { dlrTxd := m0Dtm0TxDescApply rec.dlrTxd txd
           dlrPayload := if rec.dlrPayload = [] ∧ payload ≠ [] then payload else rec.dlrPayload }
  else none

/-- **`m0_be_dtm0_log_update`**: the record found for the descriptor's id is set, or a new one
is appended at the tail (`dtm0_log__insert`); the rc is `0`. -/
def m0BeDtm0LogUpdate (txd : DtmTxDesc T) (payload : List UInt8) :
    List (DtmLogRec T) → Option (List (DtmLogRec T))
  | [] => some [⟨txd, payload⟩]
  | r :: rs =>
    if compare r.dlrTxd.dtdId txd.dtdId = .eq then (dtm0LogSet txd payload r).map (· :: rs)
    else (m0BeDtm0LogUpdate txd payload rs).map (r :: ·)

/-- A run of updates, each a descriptor and its payload. -/
def dtm0LogRun : List (DtmTxDesc T × List UInt8) → List (DtmLogRec T) →
    Option (List (DtmLogRec T))
  | [], log => some log
  | (txd, payload) :: us, log => (m0BeDtm0LogUpdate txd payload log).bind (dtm0LogRun us)

/-- The walk of `m0_be_dtm0_plog_can_prune` and `m0_be_dtm0_log_prune` from the head of the
log: `-EPROTO` at a record not persistent, until the first record whose id is not below `id`;
then `M0_DTS_EQ` (`0`) if that record is `id`'s, and `-ENOENT` otherwise, or when the walk
runs out (`rc` is still `M0_DTS_LT`). -/
def dtm0LogPruneScan (id : T) : List (DtmLogRec T) → Int
  | [] => -ENOENT
  | r :: rs =>
    if !m0Dtm0TxDescStateEq r.dlrTxd .M0_DTPS_PERSISTENT then -EPROTO
    else
      match compare r.dlrTxd.dtdId id with
      | .lt => dtm0LogPruneScan id rs
      | .eq => 0
      | .gt => -ENOENT

/-- `m0_be_dtm0_plog_can_prune`. -/
def m0BeDtm0PlogCanPrune (id : T) (log : List (DtmLogRec T)) : Bool :=
  dtm0LogPruneScan id log = 0

/-- `m0_be_dtm0_plog_prune`: the records are deleted from the head through the first whose id
compares equal. -/
def m0BeDtm0PlogPrune (id : T) : List (DtmLogRec T) → List (DtmLogRec T)
  | [] => []
  | r :: rs => if compare r.dlrTxd.dtdId id = .eq then rs else m0BeDtm0PlogPrune id rs

/-- `m0_be_dtm0_log_prune`, of the volatile log: the walk, then the records popped from the
head through the one found. -/
def m0BeDtm0LogPrune (id : T) (log : List (DtmLogRec T)) : List (DtmLogRec T) × Int :=
  let rc := dtm0LogPruneScan id log
  if rc = 0 then (m0BeDtm0PlogPrune id log, 0) else (log, rc)

end Motr
