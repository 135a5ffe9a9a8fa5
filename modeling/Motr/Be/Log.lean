import Mathlib

/-!
The BE log (`be/log.c`, `be/log_store.c`, `be/io.c`): the space accounting of the log, and the
place in the circular buffer of the log store that the I/O of a log record goes to.

The log counts positions that grow without bound: a record is placed at `lg_current`, records
are discarded from `lg_discarded` on, and the circular buffer is split into what the records
hold, `lg_current - lg_discarded`, what is reserved for the records to come, `lg_reserved`, and
what is free, `lg_free` (`m0_be_log__invariant`). The counters are unbounded here. A
precondition or an assertion that fails is `none`; the prepare of a record of more space than
is reserved, which the callers do not make, underflows `lg_reserved` in C and fails the
invariant here.

A record is written as a sequence of log I/Os, one buffer each, with the record header before
the first buffer and the footer after the last, each I/O padded to the block size. The I/O of a
buffer is a `m0_be_io` of one stob, a list of segments: a piece of the buffer and the offset in
the stob it goes to. `m0_be_log_store_io_translate` places an I/O at the position of its first
byte: `m0_be_io_stob_move` lays the segments from the place of that position in the circular
buffer, and cuts a segment that passes the end of the buffer in two (`be_io_vec_fork`), which
asserts that the credit of the I/O has room for one more segment; `m0_be_io_vec_pack` then
counts offsets and sizes in blocks, which asserts that they are aligned, and `m0_be_io_sort`
sorts the segments by stob offset. The buffer of a log I/O is block-aligned, so its offsets are
counted from its start.

Not modelled: the locks, the callbacks (`lg_got_space_cb`, `lc_full_cb`), the contents of the
record header and footer and of the padding, the read of a record, the log header write that
`m0_be_log_store_overwrites` triggers, `m0_be_log_record_skip_discard` (which sets
`lg_unplaced_exists`, here only read), and `lg_prev_record`, which only goes into the header.
-/

namespace Motr

/-- `EAGAIN`. -/
def EAGAIN : Int := 11

/-- `m0_align` to a power of two `align`: `(val + mask) & ~mask` with `mask = align - 1`, the
least multiple of `align` at or above `val`. -/
def m0Align (val align : ℕ) : ℕ := (val + align - 1) / align * align

/-- What the log reads of its store, the circular buffer `[fsh_cbuf_offset, fsh_cbuf_offset +
fsh_cbuf_size)` and the block shift of the stob (`m0_be_log_bshift`), and the sizes of the
record header and footer formats (`be_log_record_header_size`,
`be_log_record_footer_size`). -/
structure BeLogCfg where
  fshCbufOffset : ℕ
  fshCbufSize : ℕ
  bshift : ℕ
  recordHeaderSize : ℕ
  recordFooterSize : ℕ
  deriving DecidableEq, Repr

/-- The space counters of `struct m0_be_log`. -/
structure BeLog where
  lgCurrent : ℕ
  lgDiscarded : ℕ
  lgReserved : ℕ
  lgFree : ℕ
  lgUnplacedExists : Bool
  lgUnplacedPos : ℕ
  deriving DecidableEq, Repr

/-- `m0_be_log__invariant`, the lock aside. -/
def m0BeLogInvariant (cfg : BeLogCfg) (log : BeLog) : Bool :=
  log.lgDiscarded ≤ log.lgCurrent &&
  (!log.lgUnplacedExists || log.lgDiscarded ≤ log.lgUnplacedPos) &&
  log.lgCurrent - log.lgDiscarded + log.lgReserved + log.lgFree == cfg.fshCbufSize

/-- The log `m0_be_log_create` sets up: `be_log_level_enter` zeroes the counters, then frees
the whole circular buffer. -/
def m0BeLogCreate (cfg : BeLogCfg) : BeLog :=
  ⟨0, 0, 0, cfg.fshCbufSize, false, 0⟩

/-- `m0_be_log_reserve`: `-EAGAIN` when less is free. -/
def m0BeLogReserve (cfg : BeLogCfg) (log : BeLog) (size : ℕ) : Option (BeLog × ℤ) :=
  if m0BeLogInvariant cfg log then
    if log.lgFree < size then some (log, -EAGAIN)
    else some ({ log with lgFree := log.lgFree - size, lgReserved := log.lgReserved + size }, 0)
  else none

/-- `m0_be_log_unreserve`. -/
def m0BeLogUnreserve (cfg : BeLogCfg) (log : BeLog) (size : ℕ) : Option BeLog :=
  if m0BeLogInvariant cfg log ∧ size ≤ log.lgReserved then
    some { log with lgFree := log.lgFree + size, lgReserved := log.lgReserved - size }
  else none

/-- `m0_be_log_record_discard` of `size` bytes: the discard of the place of an unplaced record
counts nothing. -/
def m0BeLogRecordDiscard (cfg : BeLogCfg) (log : BeLog) (size : ℕ) : Option BeLog :=
  if m0BeLogInvariant cfg log ∧ log.lgDiscarded + size ≤ log.lgCurrent ∧
      (log.lgUnplacedExists →
        log.lgDiscarded = log.lgUnplacedPos ∨ log.lgDiscarded + size ≤ log.lgUnplacedPos) then
    let size := if log.lgUnplacedExists ∧ log.lgDiscarded = log.lgUnplacedPos then 0 else size
    let log' := { log with lgFree := log.lgFree + size, lgDiscarded := log.lgDiscarded + size }
    if m0BeLogInvariant cfg log' then some log' else none
  else none

/-- The sizes of the I/Os of a record whose buffers have the given sizes: the header before
the first, the footer after the last, each padded to the block. -/
def beLogRecordIoSizes (cfg : BeLogCfg) (size : List ℕ) : List ℕ :=
  size.mapIdx fun i s =>
    m0Align (s + (if i = 0 then cfg.recordHeaderSize else 0) +
      (if i = size.length - 1 then cfg.recordFooterSize else 0)) (2 ^ cfg.bshift)

/-- `m0_be_log_reserved_size`: the space of a record whose I/Os have buffers of at most the
given sizes. -/
def m0BeLogReservedSize (cfg : BeLogCfg) (lioSize : List ℕ) : Option ℕ :=
  if lioSize = [] then none else some (beLogRecordIoSizes cfg lioSize).sum

/-- A segment of a `m0_be_io`: `count` bytes at offset `user` of the buffer, to or from offset
`stob` of the stob. -/
structure BeIoSeg where
  user : ℕ
  stob : ℕ
  count : ℕ
  deriving DecidableEq, Repr

/-- The loop of `m0_be_io_stob_move` over the segments, each laid at `offset`, the end of the
one before, with room in the credit of the I/O for `spare` more segments. A segment that ends
past the window is cut at its end by `be_io_vec_fork`, the rest going to the window's start. -/
def beIoStobMoveLoop (winStart winEnd : ℕ) :
    ℕ → ℕ → List BeIoSeg → Option (List BeIoSeg)
  | _, _, [] => some []
  | spare, offset, s :: ss =>
    if winEnd < offset + s.count then
      if spare = 0 then none
      else
        let cut := s.count - (offset + s.count - winEnd)
        (fun rest => ⟨s.user, offset, cut⟩ ::
            ⟨s.user + cut, winStart, offset + s.count - winEnd⟩ :: rest) <$>
          beIoStobMoveLoop winStart winEnd (spare - 1) (offset + s.count - winEnd + winStart) ss
    else
      (⟨s.user, offset, s.count⟩ :: ·) <$>
        beIoStobMoveLoop winStart winEnd spare
          (if winEnd ≤ offset + s.count then offset + s.count - winEnd + winStart
           else offset + s.count) ss

/-- `m0_be_io_stob_move` of the segments of an I/O whose credit holds `regNr` segments, to
`offset` in the window `[winStart, winStart + winSize)`. -/
def m0BeIoStobMove (regNr : ℕ) (segs : List BeIoSeg) (offset winStart winSize : ℕ) :
    Option (List BeIoSeg) :=
  if winStart < winStart + winSize ∧ winStart ≤ offset ∧ offset < winStart + winSize ∧
      (∀ s ∈ segs.head?, s.stob = 0) then
    beIoStobMoveLoop winStart (winStart + winSize) (regNr - segs.length) offset segs
  else none

/-- `m0_stob_addr_pack`: an offset in blocks of `2 ^ shift` bytes; it asserts that the offset
is aligned. -/
def m0StobAddrPack (addr shift : ℕ) : Option ℕ :=
  if addr / 2 ^ shift * 2 ^ shift = addr then some (addr / 2 ^ shift) else none

/-- `m0_be_io_vec_pack`: the segments in blocks. -/
def m0BeIoVecPack (bshift : ℕ) (segs : List BeIoSeg) : Option (List BeIoSeg) :=
  segs.mapM fun s => do
    let user ← m0StobAddrPack s.user bshift
    let stob ← m0StobAddrPack s.stob bshift
    let count ← m0StobAddrPack s.count bshift
    pure ⟨user, stob, count⟩

/-- A pass of the bubble sort of `m0_stob_iovec_sort` over `cur :: segs`: the segment carried
forward, first `cur`, swaps with each next one of a lower stob offset; and whether it swapped. -/
def stobIovecSortPass (cur : BeIoSeg) : List BeIoSeg → List BeIoSeg × Bool
  | [] => ([cur], false)
  | s :: ss =>
    if s.stob < cur.stob then
      let r := stobIovecSortPass cur ss
      (s :: r.1, true)
    else
      let r := stobIovecSortPass s ss
      (cur :: r.1, r.2)

/-- The passes of `m0_stob_iovec_sort` until one swaps nothing, at most `fuel` of them. -/
def stobIovecSortLoop : ℕ → List BeIoSeg → List BeIoSeg
  | 0, segs => segs
  | _ + 1, [] => []
  | fuel + 1, s :: ss =>
    let r := stobIovecSortPass s ss
    if r.2 then stobIovecSortLoop fuel r.1 else r.1

/-- `m0_stob_iovec_sort`: the bubble sort of the segments by stob offset. A pass moves the
greatest segment not yet in place to its place, so `n` passes sort `n` segments and the last of
them swaps nothing. -/
def m0StobIovecSort (segs : List BeIoSeg) : List BeIoSeg :=
  stobIovecSortLoop segs.length segs

/-- `m0_be_log_store_io_translate` of an I/O whose credit holds `regNr` segments, its bytes
from position `position` on. -/
def m0BeLogStoreIoTranslate (cfg : BeLogCfg) (position regNr : ℕ) (segs : List BeIoSeg) :
    Option (List BeIoSeg) := do
  let moved ← m0BeIoStobMove regNr segs (cfg.fshCbufOffset + position % cfg.fshCbufSize)
    cfg.fshCbufOffset cfg.fshCbufSize
  let packed ← m0BeIoVecPack cfg.bshift moved
  pure (m0StobIovecSort packed)

/-- The segments `m0_be_log_store_io_credit` adds to the credit of a log I/O. -/
def m0BeLogStoreIoCredit : ℕ := 1

/-- The segments of the credit of a log I/O: one in `m0_be_log_record_io_create`, and the log
store's. -/
def beLogRecordIoRegNr : ℕ := 1 + m0BeLogStoreIoCredit

/-- A log record: its position and its size. -/
structure BeLogRecord where
  lgrPosition : ℕ
  lgrSize : ℕ
  deriving DecidableEq, Repr

/-- The I/Os of a record whose I/Os have the given sizes, from position `position` on: each
one segment of its whole buffer (`m0_be_io_add_nostob`), translated. -/
def beLogRecordIoTranslate (cfg : BeLogCfg) : ℕ → List ℕ → Option (List (List BeIoSeg))
  | _, [] => some []
  | position, s :: ss => do
    let io ← m0BeLogStoreIoTranslate cfg position beLogRecordIoRegNr [⟨0, 0, s⟩]
    let ios ← beLogRecordIoTranslate cfg (position + s) ss
    pure (io :: ios)

/-- The region size of the credit `m0_be_log_record_io_create(record, size_max)` gives the I/O
at each index: `size_max` with the header for the first I/O and the footer for every other
("we don't know which I/O is the last"), aligned to the block; the credit of the log store
(`m0_be_log_store_io_credit`) adds a region and no bytes. -/
def beLogRecordIoCredit (cfg : BeLogCfg) (sizeMax : List ℕ) : List ℕ :=
  sizeMax.mapIdx fun i s =>
    m0Align (s + if i = 0 then cfg.recordHeaderSize else cfg.recordFooterSize) (2 ^ cfg.bshift)

/-- `m0_be_log_record_io_prepare(record, SIO_WRITE, size_reserved)` of a new record whose I/Os
were made by `m0_be_log_record_io_create` with the sizes `sizeMax` and have buffers of the sizes
`bufSize`: the log after it, the record and its I/Os. Each I/O is added to its `m0_be_io`
whole, padded (`m0_be_io_add_nostob`), whose `M0_PRE` asks that it fit the I/O's credit. -/
def m0BeLogRecordIoPrepare (cfg : BeLogCfg) (log : BeLog) (sizeMax bufSize : List ℕ)
    (sizeReserved : ℕ) : Option (BeLog × BeLogRecord × List (List BeIoSeg)) :=
  if m0BeLogInvariant cfg log ∧ bufSize ≠ [] then do
    let sizes := beLogRecordIoSizes cfg bufSize
    if List.Forall₂ (· ≤ ·) sizes (beLogRecordIoCredit cfg sizeMax) then
      let ios ← beLogRecordIoTranslate cfg log.lgCurrent sizes
      let size := sizes.sum
      if size ≤ sizeReserved then
        let log' := { log with lgCurrent := log.lgCurrent + size,
                               lgFree := log.lgFree + (sizeReserved - size),
                               lgReserved := log.lgReserved - sizeReserved }
        if m0BeLogInvariant cfg log' then some (log', ⟨log.lgCurrent, size⟩, ios) else none
      else none
    else none
  else none

end Motr
