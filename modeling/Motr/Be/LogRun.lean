import Motr.Be.LogIo

/-!
The BE log as its user drives it (`be/log.c`): space reserved with `m0_be_log_reserve` and
given back with `m0_be_log_unreserve`, records prepared for I/O with
`m0_be_log_record_io_prepare` on a reservation of `m0_be_log_reserved_size` of their I/O
sizes, and discarded with `m0_be_log_record_discard` in the order they were prepared.

Along every such run (`BeLogReachable`) the records not yet discarded lie end to end from
`lg_discarded` to `lg_current`, the reservations the user holds add up to `lg_reserved`, and
`m0_be_log__invariant` holds (`BeLogUser.Inv`). So no call the user may make fails an
assertion, the I/Os of a record go where its positions are in the circular buffer, and no
byte of a new record lands on a byte of a record not yet discarded (`beLog_run_safe`).

`m0_be_log_record_io_create` sizes the credit of the first I/O of a record for its buffer and
the header, and of every other I/O for its buffer and the footer, "because we don't know which
I/O is the last". The one I/O of a record of one I/O carries both, so when the footer does not
fit the padding of the first block count, `m0_be_io_add` fails its `M0_PRE`
(`m0BeLogRecordIoPrepare_one_io_overrun`); the runs above leave that room
(`beLogRecordIoSizes_le_credit`).
-/

namespace Motr

/-- The calls a user of the log makes. -/
inductive BeLogCall
  | reserve (size : ℕ)
  | unreserve (size : ℕ)
  | prepare (lioSize bufSize : List ℕ)
  | discard
  deriving DecidableEq, Repr

/-- The log with what its user keeps of it: the sizes it reserved and has neither used nor
given back, and the records it prepared and has not discarded, oldest first. -/
structure BeLogUser where
  log : BeLog
  reserved : List ℕ
  records : List BeLogRecord

/-- The calls the user may make: give back only a reservation it holds, prepare a record only
on a reservation of the I/O sizes it declared (and made its I/Os with) and with buffers no larger
than those, discard only the oldest record it prepared. A record of one I/O must also leave
room for the footer in the credit of that I/O, which `m0_be_log_record_io_create` sized for the
header only. -/
def BeLogCall.Allowed (cfg : BeLogCfg) (u : BeLogUser) : BeLogCall → Prop
  | .reserve _ => True
  | .unreserve size => size ∈ u.reserved
  | .prepare lioSize bufSize => lioSize ≠ [] ∧ List.Forall₂ (· ≤ ·) bufSize lioSize ∧
      (beLogRecordIoSizes cfg lioSize).sum ∈ u.reserved ∧
      (lioSize.length = 1 →
        m0Align (bufSize.sum + cfg.recordHeaderSize + cfg.recordFooterSize) (2 ^ cfg.bshift) ≤
          m0Align (lioSize.sum + cfg.recordHeaderSize) (2 ^ cfg.bshift))
  | .discard => u.records ≠ []

/-- A call, through the functions of the log. -/
def beLogStep (cfg : BeLogCfg) (u : BeLogUser) : BeLogCall → Option BeLogUser
  | .reserve size => (m0BeLogReserve cfg u.log size).map fun r =>
      ⟨r.1, if r.2 = 0 then size :: u.reserved else u.reserved, u.records⟩
  | .unreserve size => (m0BeLogUnreserve cfg u.log size).map fun log =>
      ⟨log, u.reserved.erase size, u.records⟩
  | .prepare lioSize bufSize => do
      let sizeReserved ← m0BeLogReservedSize cfg lioSize
      let r ← m0BeLogRecordIoPrepare cfg u.log lioSize bufSize sizeReserved
      pure ⟨r.1, u.reserved.erase sizeReserved, u.records ++ [r.2.1]⟩
  | .discard =>
    match u.records with
    | [] => none
    | record :: rest => (m0BeLogRecordDiscard cfg u.log record.lgrSize).map fun log =>
        ⟨log, u.reserved, rest⟩

/-- The states of a run of allowed calls from `m0_be_log_create`. -/
inductive BeLogReachable (cfg : BeLogCfg) : BeLogUser → Prop
  | create : BeLogReachable cfg ⟨m0BeLogCreate cfg, [], []⟩
  | step {u u' : BeLogUser} {c : BeLogCall} (h : BeLogReachable cfg u) (hc : c.Allowed cfg u)
      (hstep : beLogStep cfg u c = some u') : BeLogReachable cfg u'

/-- Records end to end from position `d` to position `c`. -/
def BeLogRecordsFrom : ℕ → List BeLogRecord → ℕ → Prop
  | d, [], c => d = c
  | d, r :: rs, c => r.lgrPosition = d ∧ BeLogRecordsFrom (d + r.lgrSize) rs c

/-- What a run keeps: the invariant of the log with no unplaced record, the reservations adding
up to `lg_reserved`, the records not discarded filling `[lg_discarded, lg_current)`, and
`lg_current` on a block boundary. -/
structure BeLogUser.Inv (cfg : BeLogCfg) (u : BeLogUser) : Prop where
  inv : m0BeLogInvariant cfg u.log = true
  placed : u.log.lgUnplacedExists = false
  reserved : u.reserved.sum = u.log.lgReserved
  records : BeLogRecordsFrom u.log.lgDiscarded u.records u.log.lgCurrent
  current_dvd : 2 ^ cfg.bshift ∣ u.log.lgCurrent

/-! ### The records end to end -/

lemma BeLogRecordsFrom.le {d c : ℕ} {rs : List BeLogRecord} (h : BeLogRecordsFrom d rs c) :
    d ≤ c := by
  induction rs generalizing d with
  | nil => exact Nat.le_of_eq h
  | cons r rs ih => exact le_trans (Nat.le_add_right _ _) (ih h.2)

lemma BeLogRecordsFrom.bounds {d c : ℕ} {rs : List BeLogRecord} (h : BeLogRecordsFrom d rs c) :
    ∀ r ∈ rs, d ≤ r.lgrPosition ∧ r.lgrPosition + r.lgrSize ≤ c := by
  induction rs generalizing d with
  | nil => exact fun r hr => absurd hr List.not_mem_nil
  | cons r' rs ih =>
    intro r hr
    rcases List.mem_cons.mp hr with rfl | hr
    · exact ⟨h.1.ge, h.1 ▸ h.2.le⟩
    · have := ih h.2 r hr
      omega

lemma BeLogRecordsFrom.append {d c : ℕ} {rs : List BeLogRecord} (h : BeLogRecordsFrom d rs c)
    (size : ℕ) : BeLogRecordsFrom d (rs ++ [⟨c, size⟩]) (c + size) := by
  induction rs generalizing d with
  | nil => exact ⟨Eq.symm h, by rw [h]; rfl⟩
  | cons r rs ih => exact ⟨h.1, ih h.2⟩

/-! ### Each call -/

lemma m0BeLogInvariant_iff {cfg : BeLogCfg} {log : BeLog} (h : log.lgUnplacedExists = false) :
    m0BeLogInvariant cfg log = true ↔ log.lgDiscarded ≤ log.lgCurrent ∧
      log.lgCurrent - log.lgDiscarded + log.lgReserved + log.lgFree = cfg.fshCbufSize := by
  simp [m0BeLogInvariant, h]

lemma BeLogUser.inv_create (cfg : BeLogCfg) : BeLogUser.Inv cfg ⟨m0BeLogCreate cfg, [], []⟩ :=
  ⟨by simp [m0BeLogInvariant, m0BeLogCreate], rfl, rfl, rfl, Nat.dvd_zero _⟩

/-- The I/Os of a record fit the credits `m0_be_log_record_io_create` gave them when its buffers
are no larger than the sizes it made its I/Os with: with two I/Os or more the first carries the
header and every other at most the footer, as their credits do; the one I/O of a record of one
I/O carries both, and fits only when the footer fits its padding. -/
lemma beLogRecordIoSizes_le_credit (cfg : BeLogCfg) {bufSize lioSize : List ℕ}
    (h : List.Forall₂ (· ≤ ·) bufSize lioSize)
    (hone : lioSize.length = 1 →
      m0Align (bufSize.sum + cfg.recordHeaderSize + cfg.recordFooterSize) (2 ^ cfg.bshift) ≤
        m0Align (lioSize.sum + cfg.recordHeaderSize) (2 ^ cfg.bshift)) :
    List.Forall₂ (· ≤ ·) (beLogRecordIoSizes cfg bufSize) (beLogRecordIoCredit cfg lioSize) := by
  cases h with
  | nil => exact List.Forall₂.nil
  | @cons a b as bs hab hrest =>
    cases hrest with
    | nil =>
      -- one I/O: header and footer both in it
      have := hone rfl
      simpa [beLogRecordIoSizes, beLogRecordIoCredit] using this
    | @cons a' b' as' bs' hab' hrest' =>
      -- two I/Os or more: the first is not the last
      unfold beLogRecordIoSizes beLogRecordIoCredit
      refine forall₂_mapIdx (fun i x y hxy => m0Align_mono ?_ _)
        (List.Forall₂.cons hab (List.Forall₂.cons hab' hrest'))
      simp only [List.length_cons, Nat.add_sub_cancel]
      split_ifs <;> omega

section Step

variable {cfg : BeLogCfg} {u : BeLogUser} (hu : u.Inv cfg)
include hu

lemma BeLogUser.Inv.counters :
    u.log.lgDiscarded ≤ u.log.lgCurrent ∧
      u.log.lgCurrent - u.log.lgDiscarded + u.log.lgReserved + u.log.lgFree = cfg.fshCbufSize :=
  (m0BeLogInvariant_iff hu.placed).mp hu.inv

lemma BeLogUser.Inv.reserve (size : ℕ) :
    ∃ u', beLogStep cfg u (.reserve size) = some u' ∧ u'.Inv cfg := by
  obtain ⟨hdc, hsum⟩ := hu.counters
  simp only [beLogStep, m0BeLogReserve]
  rw [if_pos hu.inv]
  split_ifs with hfree
  · -- `-EAGAIN`: nothing changes
    exact ⟨_, rfl, by simpa [EAGAIN] using hu⟩
  · refine ⟨_, rfl, ⟨?_, hu.placed, ?_, hu.records, hu.current_dvd⟩⟩
    · dsimp only
      rw [m0BeLogInvariant_iff (by exact hu.placed)]
      dsimp only
      omega
    · simp [hu.reserved, Nat.add_comm]

lemma BeLogUser.Inv.unreserve {size : ℕ} (hsize : size ∈ u.reserved) :
    ∃ u', beLogStep cfg u (.unreserve size) = some u' ∧ u'.Inv cfg := by
  obtain ⟨hdc, hsum⟩ := hu.counters
  have hle : size ≤ u.log.lgReserved := hu.reserved ▸ List.le_sum_of_mem hsize
  have herase := List.sum_erase hsize
  simp only [beLogStep, m0BeLogUnreserve]
  rw [if_pos ⟨hu.inv, hle⟩]
  refine ⟨_, rfl, ⟨?_, hu.placed, ?_, hu.records, hu.current_dvd⟩⟩
  · dsimp only
    rw [m0BeLogInvariant_iff (by exact hu.placed)]
    dsimp only
    omega
  · have := hu.reserved
    dsimp only
    omega

lemma BeLogUser.Inv.discard (hrec : u.records ≠ []) :
    ∃ u', beLogStep cfg u .discard = some u' ∧ u'.Inv cfg := by
  obtain ⟨hdc, hsum⟩ := hu.counters
  obtain ⟨r, rs, hrs⟩ := List.exists_cons_of_ne_nil hrec
  have hrecs := hu.records
  rw [hrs] at hrecs
  obtain ⟨hpos, hrest⟩ := hrecs
  have hend := hrest.le
  have hplaced := hu.placed
  simp only [beLogStep, m0BeLogRecordDiscard]
  rw [hrs]
  simp only [hplaced, Bool.false_eq_true, false_and, if_false, false_imp_iff]
  rw [if_pos ⟨hu.inv, hend, trivial⟩]
  -- the log after the discard keeps its invariant
  have hinv' : m0BeLogInvariant cfg ⟨u.log.lgCurrent, u.log.lgDiscarded + r.lgrSize,
      u.log.lgReserved, u.log.lgFree + r.lgrSize, false, u.log.lgUnplacedPos⟩ = true := by
    rw [m0BeLogInvariant_iff rfl]
    dsimp only
    omega
  rw [if_pos hinv']
  exact ⟨_, rfl, ⟨hinv', rfl, hu.reserved, by simpa [Nat.add_comm] using hrest, hu.current_dvd⟩⟩

/-- `m0_be_log_record_io_prepare` of a record the user may prepare: no assertion fails, the
record is placed at `lg_current`, its I/Os go where its positions are, and the run keeps its
invariant. -/
lemma BeLogUser.Inv.prepare (hcfg : cfg.Aligned) {lioSize bufSize : List ℕ}
    (hc : (BeLogCall.prepare lioSize bufSize).Allowed cfg u) :
    ∃ log' ios, m0BeLogRecordIoPrepare cfg u.log lioSize bufSize
        (beLogRecordIoSizes cfg lioSize).sum =
        some (log', ⟨u.log.lgCurrent, (beLogRecordIoSizes cfg bufSize).sum⟩, ios) ∧
      BeLogIosPlaced cfg u.log.lgCurrent (beLogRecordIoSizes cfg bufSize) ios ∧
      BeLogUser.Inv cfg ⟨log', u.reserved.erase (beLogRecordIoSizes cfg lioSize).sum,
        u.records ++ [⟨u.log.lgCurrent, (beLogRecordIoSizes cfg bufSize).sum⟩]⟩ := by
  obtain ⟨hne, hfor, hmem, hone⟩ := hc
  obtain ⟨hdc, hsum⟩ := hu.counters
  have hres := hu.reserved
  have herase := List.sum_erase hmem
  -- the record fits in the reservation, which fits in the circular buffer
  have hsr : (beLogRecordIoSizes cfg lioSize).sum ≤ u.log.lgReserved :=
    hu.reserved ▸ List.le_sum_of_mem hmem
  have hsize := sum_beLogRecordIoSizes_le cfg hfor
  have hbuf : bufSize ≠ [] := by
    rintro rfl
    exact hne (List.forall₂_nil_left_iff.mp hfor)
  obtain ⟨ios, hios, hplaced⟩ := beLogRecordIoTranslate_placed hcfg (beLogRecordIoSizes cfg bufSize)
    u.log.lgCurrent hu.current_dvd (fun s hs => dvd_of_mem_beLogRecordIoSizes cfg hs) (by omega)
  unfold m0BeLogRecordIoPrepare
  rw [if_pos ⟨hu.inv, hbuf⟩]
  simp only [if_pos (beLogRecordIoSizes_le_credit cfg hfor hone), hios, Option.bind_eq_bind,
    Option.bind_some, if_pos hsize]
  -- the counters after the record add up as before
  have hinv' : m0BeLogInvariant cfg ⟨u.log.lgCurrent + (beLogRecordIoSizes cfg bufSize).sum,
      u.log.lgDiscarded, u.log.lgReserved - (beLogRecordIoSizes cfg lioSize).sum,
      u.log.lgFree + ((beLogRecordIoSizes cfg lioSize).sum - (beLogRecordIoSizes cfg bufSize).sum),
      u.log.lgUnplacedExists, u.log.lgUnplacedPos⟩ = true := by
    rw [m0BeLogInvariant_iff (by exact hu.placed)]
    dsimp only
    omega
  rw [if_pos hinv']
  refine ⟨_, ios, rfl, hplaced, ⟨hinv', hu.placed, by dsimp only; omega,
    hu.records.append _, ?_⟩⟩
  exact Nat.dvd_add hu.current_dvd
    (List.dvd_sum fun s hs => dvd_of_mem_beLogRecordIoSizes cfg hs)

/-- Every call the user may make succeeds and keeps the invariant. -/
lemma BeLogUser.Inv.step (hcfg : cfg.Aligned) {c : BeLogCall} (hc : c.Allowed cfg u) :
    ∃ u', beLogStep cfg u c = some u' ∧ u'.Inv cfg := by
  cases c with
  | reserve size => exact hu.reserve size
  | unreserve size => exact hu.unreserve hc
  | prepare lioSize bufSize =>
    obtain ⟨log', ios, hprep, -, hinv⟩ := hu.prepare hcfg hc
    refine ⟨_, ?_, hinv⟩
    simp [beLogStep, m0BeLogReservedSize, hc.1, hprep]
  | discard => exact hu.discard hc

end Step

/-- The invariant holds along every run. -/
lemma BeLogReachable.inv {cfg : BeLogCfg} (hcfg : cfg.Aligned) {u : BeLogUser}
    (h : BeLogReachable cfg u) : u.Inv cfg := by
  induction h with
  | create => exact BeLogUser.inv_create cfg
  | step _ hc hstep ih =>
    obtain ⟨u'', hstep', hinv⟩ := ih.step hcfg hc
    rw [hstep, Option.some.injEq] at hstep'
    exact hstep' ▸ hinv

/-- Along every run of the calls its user may make, on a log store aligned to its blocks: the
counters of the log add up to its circular buffer, no call fails an assertion, and the I/Os of
a record prepared for writing send each byte to the place of its position, which is not the
place of any byte of a record not yet discarded. -/
theorem beLog_run_safe {cfg : BeLogCfg} (hcfg : cfg.Aligned) {u : BeLogUser}
    (hu : BeLogReachable cfg u) :
    u.log.lgCurrent - u.log.lgDiscarded + u.log.lgReserved + u.log.lgFree = cfg.fshCbufSize ∧
    (∀ c : BeLogCall, c.Allowed cfg u → (beLogStep cfg u c).isSome) ∧
    ∀ lioSize bufSize, (BeLogCall.prepare lioSize bufSize).Allowed cfg u →
      ∃ log' record ios, m0BeLogRecordIoPrepare cfg u.log lioSize bufSize
          (beLogRecordIoSizes cfg lioSize).sum = some (log', record, ios) ∧
        BeLogIosPlaced cfg record.lgrPosition (beLogRecordIoSizes cfg bufSize) ios ∧
        ∀ r ∈ u.records, ∀ p q, r.lgrPosition ≤ p → p < r.lgrPosition + r.lgrSize →
          record.lgrPosition ≤ q → q < record.lgrPosition + record.lgrSize →
          ringPhys cfg.fshCbufOffset cfg.fshCbufSize p ≠
            ringPhys cfg.fshCbufOffset cfg.fshCbufSize q := by
  have hinv := hu.inv hcfg
  obtain ⟨hdc, hsum⟩ := hinv.counters
  refine ⟨hsum, fun c hc => ?_, fun lioSize bufSize hc => ?_⟩
  · obtain ⟨u', hstep, -⟩ := hinv.step hcfg hc
    simp [hstep]
  · obtain ⟨log', ios, hprep, hplaced, -⟩ := hinv.prepare hcfg hc
    refine ⟨log', _, ios, hprep, hplaced, fun r hr p q hp hp' hq hq' => ?_⟩
    -- the new record and the records not discarded lie within one turn of the buffer
    have hbounds := hinv.records.bounds r hr
    have hsr : (beLogRecordIoSizes cfg lioSize).sum ≤ u.log.lgReserved :=
      hinv.reserved ▸ List.le_sum_of_mem hc.2.2.1
    have hsize := sum_beLogRecordIoSizes_le cfg hc.2.1
    dsimp only at hq hq'
    intro hpq
    have := ringPhys_injOn (O := cfg.fshCbufOffset) u.log.lgDiscarded
      (Set.mem_Ico.mpr ⟨by omega, by omega⟩) (Set.mem_Ico.mpr ⟨by omega, by omega⟩) hpq
    omega

/-- A log of 4096 bytes in blocks of 512 bytes: after a reservation of the space of one I/O of
1000 bytes, a record of 900 bytes is prepared with no assertion failing. -/
theorem beLog_run_safe_prepare :
    (beLogStep ⟨0, 4096, 9, 64, 64⟩ ⟨⟨0, 0, 1536, 2560, false, 0⟩, [1536], []⟩
      (.prepare [1000] [900])).isSome :=
  (beLog_run_safe (⟨by norm_num, by norm_num, by norm_num⟩ : BeLogCfg.Aligned ⟨0, 4096, 9, 64, 64⟩)
    (BeLogReachable.step (c := .reserve 1536) BeLogReachable.create trivial rfl)).2.1
    (.prepare [1000] [900])
    ⟨by simp, List.Forall₂.cons (by norm_num) List.Forall₂.nil, by decide, fun _ => by decide⟩

/-- A record of one I/O whose buffer, with the header and the footer, takes more blocks than the
size it made its I/O with takes with the header alone: `m0_be_log_record_io_create` gave that
I/O the credit of the header only, so `m0_be_io_add` fails its `M0_PRE` whatever the log and the
reservation. -/
theorem m0BeLogRecordIoPrepare_one_io_overrun (cfg : BeLogCfg) (log : BeLog) {s b : ℕ}
    (sizeReserved : ℕ)
    (h : m0Align (s + cfg.recordHeaderSize) (2 ^ cfg.bshift) <
      m0Align (b + cfg.recordHeaderSize + cfg.recordFooterSize) (2 ^ cfg.bshift)) :
    m0BeLogRecordIoPrepare cfg log [s] [b] sizeReserved = none := by
  have hno : ¬List.Forall₂ (· ≤ ·) (beLogRecordIoSizes cfg [b]) (beLogRecordIoCredit cfg [s]) := by
    simpa [beLogRecordIoSizes, beLogRecordIoCredit] using h
  unfold m0BeLogRecordIoPrepare
  split_ifs
  · simp [hno]
  · rfl

/-- A log in blocks of 4096 bytes with a record header of 68 bytes and a footer of 8: after a
reservation of `m0_be_log_reserved_size` of one I/O of 4028 bytes, the preparation of a record
of that one I/O with its whole buffer fails the `M0_PRE` of `m0_be_io_add`. -/
theorem m0BeLogRecordIoPrepare_one_io_overrun_4028 :
    BeLogReachable ⟨0, 1048576, 12, 68, 8⟩ ⟨⟨0, 0, 8192, 1040384, false, 0⟩, [8192], []⟩ ∧
      (beLogRecordIoSizes ⟨0, 1048576, 12, 68, 8⟩ [4028]).sum = 8192 ∧
      m0Align (4028 + 68) (2 ^ 12) < m0Align (4028 + 68 + 8) (2 ^ 12) ∧
      beLogStep ⟨0, 1048576, 12, 68, 8⟩ ⟨⟨0, 0, 8192, 1040384, false, 0⟩, [8192], []⟩
        (.prepare [4028] [4028]) = none := by
  have h : m0Align (4028 + 68) (2 ^ 12) < m0Align (4028 + 68 + 8) (2 ^ 12) := by decide
  refine ⟨BeLogReachable.step (c := .reserve 8192) BeLogReachable.create trivial rfl, by decide,
    h, ?_⟩
  simp only [beLogStep, m0BeLogReservedSize, m0BeLogRecordIoPrepare_one_io_overrun
    ⟨0, 1048576, 12, 68, 8⟩ _ _ h]
  rfl

end Motr
