import Motr.Dtm0.Log
import Motr.Lib.PointwiseMax
import Mathlib.Data.List.Nodup
import Mathlib.Data.List.Perm.Basic

/-!
What the DTM0 log keeps over a run of `m0_be_dtm0_log_update`, and what its prune functions
decide.

A log built by updates holds one record per transaction id received, whose participant
states are the pointwise maximum of the descriptors received for that id (`LogMerges`); the
descriptors it holds therefore do not depend on the order in which they arrived
(`dtm0LogRun_perm`). The prune walk stops at the first record whose id is not below the one
asked for. On a log kept in id order, which updates arriving in id order keep, it succeeds
exactly when the log holds the id and every record up to it is persistent, and the prune
removes exactly the records up to it (`dtm0LogRun_prune_of_ordered`). Out of order, the walk
refuses ids it should prune and prunes past records it should keep.
-/

namespace Motr

open DtmPaState

variable {T : Type}

/-! ### The records and ids of a log -/

/-- The ids of the records of a log, in log order. -/
def logIds (log : List (DtmLogRec T)) : List T := log.map (·.dlrTxd.dtdId)

@[simp] lemma logIds_nil : logIds ([] : List (DtmLogRec T)) = [] := rfl

@[simp] lemma logIds_cons (r : DtmLogRec T) (log : List (DtmLogRec T)) :
    logIds (r :: log) = r.dlrTxd.dtdId :: logIds log := rfl

@[simp] lemma logIds_append (log log' : List (DtmLogRec T)) :
    logIds (log ++ log') = logIds log ++ logIds log' := List.map_append ..

lemma mem_logIds {id : T} {log : List (DtmLogRec T)} :
    id ∈ logIds log ↔ ∃ r ∈ log, r.dlrTxd.dtdId = id := List.mem_map

/-- The states of the descriptors of `id` among `H`. -/
def descsOf (H : List (DtmTxDesc T)) (id : T) : Set (List DtmPaState) :=
  {ps | ∃ d ∈ H, d.dtdId = id ∧ d.dtdPs = ps}

lemma descsOf_append_self (H : List (DtmTxDesc T)) (d : DtmTxDesc T) :
    descsOf (H ++ [d]) d.dtdId = insert d.dtdPs (descsOf H d.dtdId) := by
  ext ps
  simp only [descsOf, List.mem_append, List.mem_singleton, Set.mem_insert_iff, Set.mem_ofPred_eq]
  constructor
  · rintro ⟨d', hd' | rfl, hid, rfl⟩
    · exact Or.inr ⟨d', hd', hid, rfl⟩
    · exact Or.inl rfl
  · rintro (rfl | ⟨d', hd', hid, rfl⟩)
    · exact ⟨d, Or.inr rfl, rfl, rfl⟩
    · exact ⟨d', Or.inl hd', hid, rfl⟩

lemma descsOf_append_of_ne {H : List (DtmTxDesc T)} {d : DtmTxDesc T} {id : T}
    (hne : d.dtdId ≠ id) : descsOf (H ++ [d]) id = descsOf H id := by
  ext ps
  simp only [descsOf, List.mem_append, List.mem_singleton, Set.mem_ofPred_eq]
  constructor
  · rintro ⟨d', hd' | rfl, hid, rfl⟩
    · exact ⟨d', hd', hid, rfl⟩
    · exact absurd hid hne
  · rintro ⟨d', hd', hid, rfl⟩
    exact ⟨d', Or.inl hd', hid, rfl⟩

lemma descsOf_eq_empty {H : List (DtmTxDesc T)} {id : T} (h : id ∉ H.map (·.dtdId)) :
    descsOf H id = ∅ := by
  refine Set.eq_empty_of_forall_notMem fun ps ⟨d, hd, hid, _⟩ => h ?_
  exact List.mem_map.mpr ⟨d, hd, hid⟩

lemma descsOf_nonempty {H : List (DtmTxDesc T)} {id : T} (h : id ∈ H.map (·.dtdId)) :
    (descsOf H id).Nonempty := by
  obtain ⟨d, hd, hid⟩ := List.mem_map.mp h
  exact ⟨d.dtdPs, d, hd, hid, rfl⟩

lemma descsOf_congr {H H' : List (DtmTxDesc T)} (hH : ∀ d, d ∈ H ↔ d ∈ H') (id : T) :
    descsOf H id = descsOf H' id := by
  simp only [descsOf, hH]

/-- The descriptors of one transaction have the same participants, as `m0_dtm0_tx_desc_apply`
requires of the two descriptors it merges. -/
def ParticipantsAgree (H : List (DtmTxDesc T)) : Prop :=
  ∀ d ∈ H, ∀ d' ∈ H, d.dtdId = d'.dtdId → d.dtdPs.length = d'.dtdPs.length

lemma ParticipantsAgree.mono {H H' : List (DtmTxDesc T)} (h : ParticipantsAgree H)
    (hsub : H' ⊆ H) : ParticipantsAgree H' :=
  fun d hd d' hd' hid => h d (hsub hd) d' (hsub hd') hid

/-- A log that has merged the descriptors `H`: one record for each id of `H`, whose states are
the pointwise maximum of the descriptors of its id. -/
structure LogMerges (H : List (DtmTxDesc T)) (log : List (DtmLogRec T)) : Prop where
  nodup : (logIds log).Nodup
  ids : ∀ id, id ∈ logIds log ↔ id ∈ H.map (·.dtdId)
  merged : ∀ r ∈ log, IsPointwiseMax r.dlrTxd.dtdPs (descsOf H r.dlrTxd.dtdId)

lemma logMerges_nil : LogMerges [] ([] : List (DtmLogRec T)) :=
  ⟨List.nodup_nil, by simp, by simp⟩

lemma LogMerges.nodup_txds {H : List (DtmTxDesc T)} {log : List (DtmLogRec T)}
    (h : LogMerges H log) : (log.map (·.dlrTxd)).Nodup :=
  List.Nodup.of_map (·.dtdId) (by rw [List.map_map]; exact h.nodup)

/-- Two logs that have merged the same descriptors hold the same descriptors. -/
lemma LogMerges.mem_of_mem {H H' : List (DtmTxDesc T)} {log log' : List (DtmLogRec T)}
    (h : LogMerges H log) (h' : LogMerges H' log') (hH : ∀ d, d ∈ H ↔ d ∈ H')
    {d : DtmTxDesc T} (hd : d ∈ log.map (·.dlrTxd)) : d ∈ log'.map (·.dlrTxd) := by
  obtain ⟨r, hr, rfl⟩ := List.mem_map.mp hd
  have hid : r.dlrTxd.dtdId ∈ H.map (·.dtdId) := (h.ids _).mp (mem_logIds.mpr ⟨r, hr, rfl⟩)
  have hid' : r.dlrTxd.dtdId ∈ H'.map (·.dtdId) := by
    obtain ⟨d, hd, hdid⟩ := List.mem_map.mp hid
    exact List.mem_map.mpr ⟨d, (hH d).mp hd, hdid⟩
  obtain ⟨r', hr', hrid⟩ := mem_logIds.mp ((h'.ids _).mpr hid')
  -- both records are the pointwise maximum of the same descriptors
  have hps : r'.dlrTxd.dtdPs = r.dlrTxd.dtdPs := by
    have hm' := h'.merged r' hr'
    rw [hrid, ← descsOf_congr hH] at hm'
    exact hm'.unique (h.merged r hr) (descsOf_nonempty hid)
  exact List.mem_map.mpr ⟨r', hr', DtmTxDesc.ext hrid hps⟩

lemma LogMerges.perm {H H' : List (DtmTxDesc T)} {log log' : List (DtmLogRec T)}
    (h : LogMerges H log) (h' : LogMerges H' log') (hH : ∀ d, d ∈ H ↔ d ∈ H') :
    (log.map (·.dlrTxd)).Perm (log'.map (·.dlrTxd)) := by
  rw [List.perm_ext_iff_of_nodup h.nodup_txds h'.nodup_txds]
  exact fun d => ⟨h.mem_of_mem h' hH, h'.mem_of_mem h fun d => (hH d).symm⟩

/-! ### One update -/

section Update

variable (txd : DtmTxDesc T) (payload : List UInt8)

lemma dtm0LogSet_eq_some {rec : DtmLogRec T} (h : txd.dtdPs.length = rec.dlrTxd.dtdPs.length) :
    ∃ rec', dtm0LogSet txd payload rec = some rec' ∧
      rec'.dlrTxd = m0Dtm0TxDescApply rec.dlrTxd txd := by
  simp [dtm0LogSet, h]

lemma dtm0LogSet_id {rec rec' : DtmLogRec T} (h : dtm0LogSet txd payload rec = some rec') :
    rec'.dlrTxd.dtdId = rec.dlrTxd.dtdId := by
  unfold dtm0LogSet at h
  split at h
  · cases h
    rfl
  · cases h

/-- The update of an id the log does not hold keeps `LogMerges`. -/
lemma LogMerges.insert {H : List (DtmTxDesc T)} {log : List (DtmLogRec T)}
    (hinv : LogMerges H log) (hnew : txd.dtdId ∉ logIds log) :
    LogMerges (H ++ [txd]) (log ++ [⟨txd, payload⟩]) := by
  have hH : txd.dtdId ∉ H.map (·.dtdId) := fun h => hnew ((hinv.ids _).mpr h)
  refine ⟨?_, fun id => ?_, ?_⟩
  · have hids : logIds (log ++ [⟨txd, payload⟩]) = (logIds log).concat txd.dtdId := by simp
    rw [hids]
    exact hinv.nodup.concat hnew
  · simp [hinv.ids]
  · intro r hr
    rcases List.mem_append.mp hr with hr | hr
    · -- a record of another id: its descriptors are those it had
      have hne : txd.dtdId ≠ r.dlrTxd.dtdId := fun he =>
        hnew (he ▸ mem_logIds.mpr ⟨r, hr, rfl⟩)
      rw [descsOf_append_of_ne hne]
      exact hinv.merged r hr
    · -- the new record: the only descriptor of its id
      obtain rfl := List.mem_singleton.mp hr
      rw [descsOf_append_self, descsOf_eq_empty hH, insert_empty_eq]
      exact isPointwiseMax_singleton _

/-- The update of an id the log holds, at the record `r` between `A` and `B`, keeps
`LogMerges`. -/
lemma LogMerges.set {H : List (DtmTxDesc T)} {A B : List (DtmLogRec T)} {r r' : DtmLogRec T}
    (hinv : LogMerges H (A ++ r :: B)) (hr : r.dlrTxd.dtdId = txd.dtdId)
    (hr' : r'.dlrTxd = m0Dtm0TxDescApply r.dlrTxd txd)
    (hlen : txd.dtdPs.length = r.dlrTxd.dtdPs.length) :
    LogMerges (H ++ [txd]) (A ++ r' :: B) := by
  have hids : logIds (A ++ r' :: B) = logIds (A ++ r :: B) := by
    simp [hr', m0Dtm0TxDescApply]
  have hout : r.dlrTxd.dtdId ∉ logIds A ++ logIds B := by
    have := hinv.nodup
    rw [logIds_append, logIds_cons, List.nodup_middle, List.nodup_cons] at this
    exact this.1
  have hH : txd.dtdId ∈ H.map (·.dtdId) := hr ▸ (hinv.ids _).mp (by simp)
  refine ⟨hids ▸ hinv.nodup, fun id => ?_, ?_⟩
  · rw [hids, hinv.ids]
    simp only [List.map_append, List.mem_append, List.map_cons, List.map_nil,
      List.mem_singleton]
    constructor
    · exact Or.inl
    · rintro (h | rfl)
      exacts [h, hH]
  · intro q hq
    obtain hq | rfl | hq : q ∈ A ∨ q = r' ∨ q ∈ B := by simpa using hq
    rotate_left
    · -- the record set: the new descriptor merged into it by `max`
      have hm : IsPointwiseMax r.dlrTxd.dtdPs (descsOf H txd.dtdId) :=
        hr ▸ hinv.merged r (by simp)
      have hid : q.dlrTxd.dtdId = txd.dtdId := by rw [hr', ← hr]; rfl
      rw [hid, descsOf_append_self, hr']
      exact hm.insert_zipWith hlen
    all_goals
      -- a record of another id: its descriptors are those it had
      have hne : txd.dtdId ≠ q.dlrTxd.dtdId := fun he =>
        hout (by rw [hr, he, ← logIds_append]; exact mem_logIds.mpr ⟨q, by simp [hq], rfl⟩)
      rw [descsOf_append_of_ne hne]
      exact hinv.merged q (by simp [hq])

variable [LinearOrder T]

/-- An update of an id the log does not hold appends its record at the tail. -/
lemma m0BeDtm0LogUpdate_of_not_mem {log : List (DtmLogRec T)} (h : txd.dtdId ∉ logIds log) :
    m0BeDtm0LogUpdate txd payload log = some (log ++ [⟨txd, payload⟩]) := by
  induction log with
  | nil => rfl
  | cons r rs ih =>
    simp only [logIds_cons, List.mem_cons, not_or] at h
    rw [m0BeDtm0LogUpdate, if_neg (by rw [compare_eq_iff_eq]; exact Ne.symm h.1), ih h.2]
    rfl

/-- An update of an id the log holds sets the first record of that id. -/
lemma m0BeDtm0LogUpdate_of_mem {A B : List (DtmLogRec T)} {r : DtmLogRec T}
    (hA : txd.dtdId ∉ logIds A) (hr : r.dlrTxd.dtdId = txd.dtdId) :
    m0BeDtm0LogUpdate txd payload (A ++ r :: B) =
      (dtm0LogSet txd payload r).map (A ++ · :: B) := by
  induction A with
  | nil => simp [m0BeDtm0LogUpdate, hr]
  | cons a A ih =>
    simp only [logIds_cons, List.mem_cons, not_or] at hA
    rw [List.cons_append, m0BeDtm0LogUpdate,
      if_neg (by rw [compare_eq_iff_eq]; exact Ne.symm hA.1), ih hA.2, Option.map_map]
    rfl

lemma logIds_m0BeDtm0LogUpdate {log log' : List (DtmLogRec T)}
    (h : m0BeDtm0LogUpdate txd payload log = some log') :
    logIds log' = if txd.dtdId ∈ logIds log then logIds log else logIds log ++ [txd.dtdId] := by
  induction log generalizing log' with
  | nil =>
    cases h
    rfl
  | cons r rs ih =>
    rw [m0BeDtm0LogUpdate] at h
    split at h
    · -- the record of the id: set in place
      rename_i hc
      obtain ⟨r', hr', rfl⟩ := Option.map_eq_some_iff.mp h
      have hid := compare_eq_iff_eq.mp hc
      simp [dtm0LogSet_id txd payload hr', hid]
    · rename_i hc
      obtain ⟨rs', hrs', rfl⟩ := Option.map_eq_some_iff.mp h
      have hne : r.dlrTxd.dtdId ≠ txd.dtdId := fun he => hc (compare_eq_iff_eq.mpr he)
      rw [logIds_cons, ih hrs']
      split_ifs <;> simp_all [Ne.symm hne]

/-- **One update** keeps `LogMerges`, and succeeds while the descriptors of each id agree on
their participants. -/
lemma LogMerges.update {H : List (DtmTxDesc T)} {log : List (DtmLogRec T)}
    (hinv : LogMerges H log) (hagree : ParticipantsAgree (H ++ [txd])) :
    ∃ log', m0BeDtm0LogUpdate txd payload log = some log' ∧ LogMerges (H ++ [txd]) log' := by
  by_cases hmem : txd.dtdId ∈ logIds log
  · -- the record of the id, with no record of it before
    obtain ⟨r, hr, hid⟩ := mem_logIds.mp hmem
    obtain ⟨A, B, rfl⟩ := List.append_of_mem hr
    have hA : txd.dtdId ∉ logIds A := by
      have := hinv.nodup
      rw [logIds_append, logIds_cons, List.nodup_middle, List.nodup_cons, hid] at this
      exact fun h => this.1 (List.mem_append_left _ h)
    have hlen : txd.dtdPs.length = r.dlrTxd.dtdPs.length := by
      obtain ⟨d, hd, hdid⟩ := List.mem_map.mp ((hinv.ids _).mp hmem)
      have h₁ := (hinv.merged r hr).1 d.dtdPs ⟨d, hd, hdid.trans hid.symm, rfl⟩
      have h₂ := hagree d (List.mem_append_left _ hd) txd
        (List.mem_append_right _ (List.mem_singleton_self _)) hdid
      omega
    obtain ⟨r', hr', hr'd⟩ := dtm0LogSet_eq_some txd payload hlen
    refine ⟨A ++ r' :: B, ?_, hinv.set txd hid hr'd hlen⟩
    rw [m0BeDtm0LogUpdate_of_mem txd payload hA hid, hr']
    rfl
  · exact ⟨_, m0BeDtm0LogUpdate_of_not_mem txd payload hmem, hinv.insert txd payload hmem⟩

end Update

/-! ### Runs of updates -/

section Run

variable [LinearOrder T]

/-- A run of updates keeps `LogMerges`, over the descriptors it adds. -/
lemma LogMerges.run {H : List (DtmTxDesc T)} {log : List (DtmLogRec T)}
    (us : List (DtmTxDesc T × List UInt8)) (hinv : LogMerges H log)
    (hagree : ParticipantsAgree (H ++ us.map (·.1))) :
    ∃ log', dtm0LogRun us log = some log' ∧ LogMerges (H ++ us.map (·.1)) log' := by
  induction us generalizing H log with
  | nil => exact ⟨log, rfl, by simpa using hinv⟩
  | cons u us ih =>
    obtain ⟨txd, payload⟩ := u
    have hagree₁ : ParticipantsAgree (H ++ [txd]) := hagree.mono fun d hd => by
      simp only [List.mem_append, List.mem_singleton] at hd
      simp only [List.map_cons, List.mem_append, List.mem_cons]
      tauto
    obtain ⟨log₁, h₁, hinv₁⟩ := hinv.update txd payload hagree₁
    obtain ⟨log', h', hinv'⟩ := ih hinv₁ (by simpa using hagree)
    exact ⟨log', by simp [dtm0LogRun, h₁, h'], by simpa using hinv'⟩

/-- **Updates merge**: from the empty log, a run of updates whose descriptors of each id agree
on their participants succeeds, and leaves one record per id received, whose states are the
pointwise maximum of the descriptors received for that id. -/
theorem dtm0LogRun_merges (us : List (DtmTxDesc T × List UInt8))
    (hagree : ParticipantsAgree (us.map (·.1))) :
    ∃ log, dtm0LogRun us [] = some log ∧ LogMerges (us.map (·.1)) log := by
  simpa using LogMerges.run us logMerges_nil (by simpa using hagree)

/-- **Arrival order does not matter**: two runs of the same descriptors, in any orders and
with any repetitions, both succeed, and their logs hold the same descriptors. -/
theorem dtm0LogRun_order_irrelevant {us us' : List (DtmTxDesc T × List UInt8)}
    (hmem : ∀ d, d ∈ us.map (·.1) ↔ d ∈ us'.map (·.1))
    (hagree : ParticipantsAgree (us.map (·.1))) :
    ∃ log log', dtm0LogRun us [] = some log ∧ dtm0LogRun us' [] = some log' ∧
      (log.map (·.dlrTxd)).Perm (log'.map (·.dlrTxd)) := by
  obtain ⟨log, h, hinv⟩ := dtm0LogRun_merges us hagree
  obtain ⟨log', h', hinv'⟩ := dtm0LogRun_merges us' (hagree.mono fun d => (hmem d).mpr)
  exact ⟨log, log', h, h', hinv.perm hinv' hmem⟩

/-- The theorem at two updates of transaction `1`, its participant in progress and then
persistent, received in both orders. -/
theorem dtm0LogRun_order_irrelevant_swap :
    ∃ log log', dtm0LogRun [(⟨(1 : ℕ), [.M0_DTPS_INPROGRESS]⟩, []), (⟨1, [.M0_DTPS_PERSISTENT]⟩, [])]
        [] = some log ∧
      dtm0LogRun [(⟨(1 : ℕ), [.M0_DTPS_PERSISTENT]⟩, []), (⟨1, [.M0_DTPS_INPROGRESS]⟩, [])]
        [] = some log' ∧
      (log.map (·.dlrTxd)).Perm (log'.map (·.dlrTxd)) :=
  dtm0LogRun_order_irrelevant (fun d => by simp [or_comm]) (by unfold ParticipantsAgree; decide)

end Run

/-! ### Pruning -/

section Prune

variable [LinearOrder T]

/-- What the prune functions are to decide, as the comment above
`m0_be_dtm0_plog_can_prune` puts it: the log holds `id`, and every record whose id is not above
it is persistent. -/
def CanPruneSpec (id : T) (log : List (DtmLogRec T)) : Prop :=
  id ∈ logIds log ∧
    ∀ r ∈ log, r.dlrTxd.dtdId ≤ id → m0Dtm0TxDescStateEq r.dlrTxd M0_DTPS_PERSISTENT = true

instance (id : T) (log : List (DtmLogRec T)) : Decidable (CanPruneSpec id log) :=
  inferInstanceAs (Decidable (_ ∧ _))

/-- A log in increasing order of transaction id. -/
def LogOrdered (log : List (DtmLogRec T)) : Prop := (logIds log).Pairwise (· < ·)

/-- The walk of the prune functions on a log in id order decides `CanPruneSpec`. -/
lemma dtm0LogPruneScan_eq_zero_iff {id : T} {log : List (DtmLogRec T)} (hs : LogOrdered log) :
    dtm0LogPruneScan id log = 0 ↔ CanPruneSpec id log := by
  induction log with
  | nil => simp [dtm0LogPruneScan, CanPruneSpec, ENOENT]
  | cons r rs ih =>
    rw [LogOrdered, logIds_cons, List.pairwise_cons] at hs
    have hbelow : ∀ i ∈ logIds rs, r.dlrTxd.dtdId < i := hs.1
    by_cases hp : m0Dtm0TxDescStateEq r.dlrTxd M0_DTPS_PERSISTENT = true
    · rw [dtm0LogPruneScan, if_neg (by simp [hp])]
      cases hc : compare r.dlrTxd.dtdId id with
      | lt =>
        -- a record below `id`: the walk goes on
        have hlt := compare_lt_iff_lt.mp hc
        simp [ih hs.2, CanPruneSpec, hlt.ne', hlt.le, hp, or_imp, forall_and]
      | eq =>
        -- the record of `id`: every later record is above it
        obtain rfl := compare_eq_iff_eq.mp hc
        refine iff_of_true rfl ⟨List.mem_cons_self .., fun r' hr' hle => ?_⟩
        rcases List.mem_cons.mp hr' with rfl | hr'
        · exact hp
        · exact absurd hle (not_le.mpr (hbelow _ (mem_logIds.mpr ⟨r', hr', rfl⟩)))
      | gt =>
        -- a record above `id`: no later record is `id`'s
        have hgt := compare_gt_iff_gt.mp hc
        refine iff_of_false (by simp [ENOENT]) fun ⟨hmem, _⟩ => ?_
        rcases List.mem_cons.mp hmem with h | h
        · exact hgt.ne h
        · exact lt_asymm hgt (hbelow id h)
    · -- a record not persistent: `id` is not below it, or it would be reached
      rw [dtm0LogPruneScan, if_pos (by simp [hp])]
      refine iff_of_false (by simp [EPROTO]) fun ⟨hmem, hall⟩ => hp (hall r List.mem_cons_self ?_)
      rcases List.mem_cons.mp hmem with h | h
      · exact h.ge
      · exact (hbelow id h).le

/-- `m0_be_dtm0_plog_prune` on a log in id order that holds `id` removes exactly the records up
to `id`. -/
lemma m0BeDtm0PlogPrune_eq_filter {id : T} {log : List (DtmLogRec T)} (hs : LogOrdered log)
    (hid : id ∈ logIds log) :
    m0BeDtm0PlogPrune id log = log.filter fun r => id < r.dlrTxd.dtdId := by
  induction log with
  | nil => simp at hid
  | cons r rs ih =>
    rw [LogOrdered, logIds_cons, List.pairwise_cons] at hs
    rw [m0BeDtm0PlogPrune]
    split_ifs with hc
    · -- the record of `id`: every later record is above it
      have he := compare_eq_iff_eq.mp hc
      rw [List.filter_cons_of_neg (by simp [he]), eq_comm, List.filter_eq_self]
      intro r' hr'
      simpa [he] using hs.1 _ (mem_logIds.mpr ⟨r', hr', rfl⟩)
    · have hne : r.dlrTxd.dtdId ≠ id := fun he => hc (compare_eq_iff_eq.mpr he)
      have hid' : id ∈ logIds rs := by simpa [Ne.symm hne] using hid
      rw [List.filter_cons_of_neg (by simpa using (hs.1 id hid').le), ih hs.2 hid']

lemma m0BeDtm0LogPrune_eq {id : T} {log : List (DtmLogRec T)} :
    m0BeDtm0LogPrune id log = if dtm0LogPruneScan id log = 0 then (m0BeDtm0PlogPrune id log, 0)
      else (log, dtm0LogPruneScan id log) := rfl

/-- A log in id order stays so under an update whose id is not below any id of the log. -/
lemma m0BeDtm0LogUpdate_ordered {txd : DtmTxDesc T} {payload : List UInt8}
    {log log' : List (DtmLogRec T)} (hs : LogOrdered log) (hle : ∀ i ∈ logIds log, i ≤ txd.dtdId)
    (h : m0BeDtm0LogUpdate txd payload log = some log') :
    LogOrdered log' ∧ ∀ i ∈ logIds log', i ≤ txd.dtdId := by
  rw [LogOrdered, logIds_m0BeDtm0LogUpdate txd payload h]
  split_ifs with hmem
  · exact ⟨hs, hle⟩
  · refine ⟨List.pairwise_append.mpr ⟨hs, List.pairwise_singleton _ _, fun a ha b hb => ?_⟩,
      fun i hi => ?_⟩
    · obtain rfl := List.mem_singleton.mp hb
      exact lt_of_le_of_ne (hle a ha) fun he => hmem (he ▸ ha)
    · rcases List.mem_append.mp hi with hi | hi
      · exact hle i hi
      · exact (List.mem_singleton.mp hi).le

/-- Updates arriving in id order keep the log in id order. -/
lemma dtm0LogRun_ordered {us : List (DtmTxDesc T × List UInt8)} {log log' : List (DtmLogRec T)}
    (hus : (us.map (·.1.dtdId)).Pairwise (· ≤ ·)) (hs : LogOrdered log)
    (hle : ∀ i ∈ logIds log, ∀ u ∈ us, i ≤ u.1.dtdId) (h : dtm0LogRun us log = some log') :
    LogOrdered log' := by
  induction us generalizing log with
  | nil =>
    cases h
    exact hs
  | cons u us ih =>
    obtain ⟨txd, payload⟩ := u
    obtain ⟨log₁, h₁, h'⟩ := Option.bind_eq_some_iff.mp h
    obtain ⟨hs₁, hle₁⟩ :=
      m0BeDtm0LogUpdate_ordered hs (fun i hi => hle i hi _ List.mem_cons_self) h₁
    rw [List.map_cons, List.pairwise_cons] at hus
    exact ih hus.2 hs₁ (fun i hi u hu => (hle₁ i hi).trans (hus.1 _ (List.mem_map.mpr ⟨u, hu, rfl⟩))) h'

/-- **Pruning when updates arrive in id order**: both prune functions succeed exactly on
`CanPruneSpec`, and a successful prune keeps exactly the records above `id`. -/
theorem dtm0LogRun_prune_of_ordered {us : List (DtmTxDesc T × List UInt8)}
    {log : List (DtmLogRec T)} (hus : (us.map (·.1.dtdId)).Pairwise (· ≤ ·))
    (h : dtm0LogRun us [] = some log) (id : T) :
    (m0BeDtm0PlogCanPrune id log = true ↔ CanPruneSpec id log) ∧
      (CanPruneSpec id log →
        m0BeDtm0PlogPrune id log = log.filter fun r => id < r.dlrTxd.dtdId) ∧
      ((m0BeDtm0LogPrune id log).2 = 0 ↔ CanPruneSpec id log) ∧
      (CanPruneSpec id log →
        (m0BeDtm0LogPrune id log).1 = log.filter fun r => id < r.dlrTxd.dtdId) := by
  have hs : LogOrdered log := dtm0LogRun_ordered hus (by simp [LogOrdered]) (by simp) h
  have hscan : dtm0LogPruneScan id log = 0 ↔ CanPruneSpec id log :=
    dtm0LogPruneScan_eq_zero_iff hs
  have hprune := fun hspec : CanPruneSpec id log => m0BeDtm0PlogPrune_eq_filter hs hspec.1
  refine ⟨by simp [m0BeDtm0PlogCanPrune, hscan], hprune, ?_, fun hspec => ?_⟩
  · rw [m0BeDtm0LogPrune_eq]
    split_ifs with h0
    · exact iff_of_true rfl (hscan.mp h0)
    · exact iff_of_false h0 (mt hscan.mpr h0)
  · rw [m0BeDtm0LogPrune_eq, if_pos (hscan.mpr hspec), hprune hspec]

/-- The theorem at updates of ids `1`, `2` and `3` in order, every participant persistent,
pruned up to `2`. -/
theorem dtm0LogRun_prune_of_ordered_three :
    (m0BeDtm0PlogCanPrune 2 [⟨⟨(1 : ℕ), [.M0_DTPS_PERSISTENT]⟩, []⟩, ⟨⟨2, [.M0_DTPS_PERSISTENT]⟩, []⟩,
        ⟨⟨3, [.M0_DTPS_PERSISTENT]⟩, []⟩] = true ↔
      CanPruneSpec 2 [⟨⟨(1 : ℕ), [.M0_DTPS_PERSISTENT]⟩, []⟩, ⟨⟨2, [.M0_DTPS_PERSISTENT]⟩, []⟩,
        ⟨⟨3, [.M0_DTPS_PERSISTENT]⟩, []⟩]) ∧
    (CanPruneSpec 2 [⟨⟨(1 : ℕ), [.M0_DTPS_PERSISTENT]⟩, []⟩, ⟨⟨2, [.M0_DTPS_PERSISTENT]⟩, []⟩,
        ⟨⟨3, [.M0_DTPS_PERSISTENT]⟩, []⟩] →
      m0BeDtm0PlogPrune 2 [⟨⟨(1 : ℕ), [.M0_DTPS_PERSISTENT]⟩, []⟩, ⟨⟨2, [.M0_DTPS_PERSISTENT]⟩, []⟩,
          ⟨⟨3, [.M0_DTPS_PERSISTENT]⟩, []⟩] =
        [⟨⟨(1 : ℕ), [.M0_DTPS_PERSISTENT]⟩, []⟩, ⟨⟨2, [.M0_DTPS_PERSISTENT]⟩, []⟩,
          ⟨⟨3, [.M0_DTPS_PERSISTENT]⟩, []⟩].filter fun r => 2 < r.dlrTxd.dtdId) ∧
    ((m0BeDtm0LogPrune 2 [⟨⟨(1 : ℕ), [.M0_DTPS_PERSISTENT]⟩, []⟩, ⟨⟨2, [.M0_DTPS_PERSISTENT]⟩, []⟩,
        ⟨⟨3, [.M0_DTPS_PERSISTENT]⟩, []⟩]).2 = 0 ↔
      CanPruneSpec 2 [⟨⟨(1 : ℕ), [.M0_DTPS_PERSISTENT]⟩, []⟩, ⟨⟨2, [.M0_DTPS_PERSISTENT]⟩, []⟩,
        ⟨⟨3, [.M0_DTPS_PERSISTENT]⟩, []⟩]) ∧
    (CanPruneSpec 2 [⟨⟨(1 : ℕ), [.M0_DTPS_PERSISTENT]⟩, []⟩, ⟨⟨2, [.M0_DTPS_PERSISTENT]⟩, []⟩,
        ⟨⟨3, [.M0_DTPS_PERSISTENT]⟩, []⟩] →
      (m0BeDtm0LogPrune 2 [⟨⟨(1 : ℕ), [.M0_DTPS_PERSISTENT]⟩, []⟩, ⟨⟨2, [.M0_DTPS_PERSISTENT]⟩, []⟩,
          ⟨⟨3, [.M0_DTPS_PERSISTENT]⟩, []⟩]).1 =
        [⟨⟨(1 : ℕ), [.M0_DTPS_PERSISTENT]⟩, []⟩, ⟨⟨2, [.M0_DTPS_PERSISTENT]⟩, []⟩,
          ⟨⟨3, [.M0_DTPS_PERSISTENT]⟩, []⟩].filter fun r => 2 < r.dlrTxd.dtdId) :=
  @dtm0LogRun_prune_of_ordered ℕ _
    [(⟨1, [.M0_DTPS_PERSISTENT]⟩, []), (⟨2, [.M0_DTPS_PERSISTENT]⟩, []),
      (⟨3, [.M0_DTPS_PERSISTENT]⟩, [])] _ (by decide) (by decide) 2

/-- Updates arriving out of id order, ids `1`, `3` then `2`, every participant persistent. The
walk refuses `2`, although the log holds it and every record up to it is persistent, and it
accepts `3`, whose prune then keeps the record of `2`. -/
theorem dtm0LogRun_prune_out_of_order :
    ∃ log, dtm0LogRun [(⟨1, [M0_DTPS_PERSISTENT]⟩, []), (⟨3, [M0_DTPS_PERSISTENT]⟩, []),
        (⟨2, [M0_DTPS_PERSISTENT]⟩, [])] [] = some log ∧
      CanPruneSpec 2 log ∧ m0BeDtm0PlogCanPrune 2 log = false ∧
      m0BeDtm0LogPrune 2 log = (log, -ENOENT) ∧
      m0BeDtm0PlogCanPrune 3 log = true ∧ logIds (m0BeDtm0PlogPrune 3 log) = [2] ∧
      logIds (m0BeDtm0LogPrune 3 log).1 = [2] := by
  refine ⟨[⟨⟨1, [M0_DTPS_PERSISTENT]⟩, []⟩, ⟨⟨3, [M0_DTPS_PERSISTENT]⟩, []⟩,
    ⟨⟨2, [M0_DTPS_PERSISTENT]⟩, []⟩], ?_⟩
  decide

end Prune

end Motr
