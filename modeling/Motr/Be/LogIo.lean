import Motr.Be.Log
import Motr.Lib.RingWindow

/-!
Where the I/O of a log record goes. An I/O of `len` bytes at position `pos`, in a log store
whose circular buffer `[O, O + S)` is aligned to its blocks, with `pos` and `len` aligned and
`len ≤ S`: `m0_be_log_store_io_translate` gives one or two segments, the first from the place
of `pos` to the end of the buffer and the second, if the I/O passes that end, from its start.
The fork of the second segment uses the one segment `m0_be_log_store_io_credit` adds to the
credit. Together the segments send byte `k` of the buffer to the place of position `pos + k`,
and no other byte (`m0BeLogStoreIoTranslate_placed`); so do the I/Os of a record, each at the
position where the one before it ends (`beLogRecordIoTranslate_placed`).
-/

namespace Motr

/-- A log store whose circular buffer is not empty and is aligned to the blocks of its stob. -/
structure BeLogCfg.Aligned (cfg : BeLogCfg) : Prop where
  size_pos : 0 < cfg.fshCbufSize
  offset_dvd : 2 ^ cfg.bshift ∣ cfg.fshCbufOffset
  size_dvd : 2 ^ cfg.bshift ∣ cfg.fshCbufSize

/-- Byte `k` of the buffer of an I/O whose segments count blocks of `B` bytes goes to byte
`addr` of the stob. -/
def BeIoSends (B : ℕ) (segs : List BeIoSeg) (k addr : ℕ) : Prop :=
  ∃ s ∈ segs, s.user * B ≤ k ∧ k < (s.user + s.count) * B ∧ addr = s.stob * B + (k - s.user * B)

/-- What the I/O of `len` bytes of a record at position `pos` is to be: at most the two
segments of its credit, together sending byte `k` of its buffer to the place of position
`pos + k`, and no more bytes than the buffer's. -/
structure BeLogIoPlaced (cfg : BeLogCfg) (pos len : ℕ) (segs : List BeIoSeg) : Prop where
  length_le : segs.length ≤ beLogRecordIoRegNr
  sends : ∀ k < len, BeIoSends (2 ^ cfg.bshift) segs k
    (ringPhys cfg.fshCbufOffset cfg.fshCbufSize (pos + k))
  count : (segs.map BeIoSeg.count).sum * 2 ^ cfg.bshift = len

/-- The I/Os of a record of the given sizes from position `pos` on, each placed where the one
before it ends. -/
def BeLogIosPlaced (cfg : BeLogCfg) : ℕ → List ℕ → List (List BeIoSeg) → Prop
  | _, [], [] => True
  | pos, s :: ss, io :: ios => BeLogIoPlaced cfg pos s io ∧ BeLogIosPlaced cfg (pos + s) ss ios
  | _, _, _ => False

/-! ### `m0_be_io_stob_move` of one segment -/

section StobMove

variable {winStart winEnd offset : ℕ} (s : BeIoSeg)

lemma beIoStobMoveLoop_one_of_le (spare : ℕ) (h : offset + s.count ≤ winEnd) :
    beIoStobMoveLoop winStart winEnd spare offset [s] = some [⟨s.user, offset, s.count⟩] := by
  simp [beIoStobMoveLoop, not_lt.mpr h]

/-- A segment that passes the end of the window is cut there, the rest going to its start;
the cut takes one segment of the credit. -/
lemma beIoStobMoveLoop_one_of_lt (spare : ℕ) (h : winEnd < offset + s.count)
    (hoff : offset ≤ winEnd) :
    beIoStobMoveLoop winStart winEnd (spare + 1) offset [s] =
      some [⟨s.user, offset, winEnd - offset⟩,
        ⟨s.user + (winEnd - offset), winStart, offset + s.count - winEnd⟩] := by
  have hcut : s.count - (offset + s.count - winEnd) = winEnd - offset := by omega
  simp [beIoStobMoveLoop, h, hcut]

end StobMove

/-! ### Packing and sorting -/

lemma m0StobAddrPack_of_dvd {addr shift : ℕ} (h : 2 ^ shift ∣ addr) :
    m0StobAddrPack addr shift = some (addr / 2 ^ shift) := by
  unfold m0StobAddrPack
  rw [if_pos (Nat.div_mul_cancel h)]

/-- A segment of aligned offsets and size, counted in blocks. -/
def BeIoSeg.pack (bshift : ℕ) (s : BeIoSeg) : BeIoSeg :=
  ⟨s.user / 2 ^ bshift, s.stob / 2 ^ bshift, s.count / 2 ^ bshift⟩

/-- A segment whose offsets and size are aligned to the block. -/
def BeIoSeg.Aligned (bshift : ℕ) (s : BeIoSeg) : Prop :=
  2 ^ bshift ∣ s.user ∧ 2 ^ bshift ∣ s.stob ∧ 2 ^ bshift ∣ s.count

lemma m0BeIoVecPack_of_aligned (bshift : ℕ) :
    ∀ segs : List BeIoSeg, (∀ s ∈ segs, s.Aligned bshift) →
      m0BeIoVecPack bshift segs = some (segs.map (BeIoSeg.pack bshift))
  | [], _ => rfl
  | s :: segs, h => by
    obtain ⟨hu, hs, hc⟩ := h s List.mem_cons_self
    have ih := m0BeIoVecPack_of_aligned bshift segs fun s' hs' => h s' (List.mem_cons_of_mem s hs')
    unfold m0BeIoVecPack at ih ⊢
    rw [List.mapM_cons, ih]
    simp [m0StobAddrPack_of_dvd hu, m0StobAddrPack_of_dvd hs, m0StobAddrPack_of_dvd hc,
      BeIoSeg.pack]

/-- Packed, an aligned segment sends the bytes it sent before. -/
lemma beIoSends_map_pack {bshift : ℕ} {segs : List BeIoSeg} (h : ∀ s ∈ segs, s.Aligned bshift)
    {k addr : ℕ} :
    BeIoSends (2 ^ bshift) (segs.map (BeIoSeg.pack bshift)) k addr ↔
      ∃ s ∈ segs, s.user ≤ k ∧ k < s.user + s.count ∧ addr = s.stob + (k - s.user) := by
  unfold BeIoSends
  simp only [List.mem_map, BeIoSeg.pack]
  constructor
  · rintro ⟨_, ⟨s, hs, rfl⟩, hk⟩
    obtain ⟨hu, hst, hc⟩ := h s hs
    rw [Nat.add_mul, Nat.div_mul_cancel hu, Nat.div_mul_cancel hc, Nat.div_mul_cancel hst] at hk
    exact ⟨s, hs, hk⟩
  · rintro ⟨s, hs, hk⟩
    obtain ⟨hu, hst, hc⟩ := h s hs
    refine ⟨_, ⟨s, hs, rfl⟩, ?_⟩
    rw [Nat.add_mul, Nat.div_mul_cancel hu, Nat.div_mul_cancel hc, Nat.div_mul_cancel hst]
    exact hk

lemma stobIovecSortPass_perm (cur : BeIoSeg) (segs : List BeIoSeg) :
    (stobIovecSortPass cur segs).1.Perm (cur :: segs) := by
  induction segs generalizing cur with
  | nil => exact List.Perm.refl _
  | cons s segs ih =>
    unfold stobIovecSortPass
    split_ifs
    · exact ((ih cur).cons s).trans (List.Perm.swap cur s segs)
    · exact (ih s).cons cur

/-- `m0_stob_iovec_sort` only reorders the segments. -/
lemma m0StobIovecSort_perm (segs : List BeIoSeg) : (m0StobIovecSort segs).Perm segs := by
  unfold m0StobIovecSort
  generalize segs.length = fuel
  induction fuel generalizing segs with
  | zero => exact List.Perm.refl _
  | succ fuel ih =>
    cases segs with
    | nil => exact List.Perm.refl _
    | cons s segs =>
      unfold stobIovecSortLoop
      dsimp only
      split_ifs
      · exact (ih _).trans (stobIovecSortPass_perm s segs)
      · exact stobIovecSortPass_perm s segs

lemma BeIoSends.perm {B k addr : ℕ} {segs segs' : List BeIoSeg} (h : BeIoSends B segs k addr)
    (hp : segs.Perm segs') : BeIoSends B segs' k addr := by
  obtain ⟨s, hs, hk⟩ := h
  exact ⟨s, hp.subset hs, hk⟩

/-! ### One I/O, and the I/Os of a record -/

section Placed

variable {cfg : BeLogCfg} (hcfg : cfg.Aligned)
include hcfg

lemma BeLogCfg.Aligned.dvd_ringPhys {p : ℕ} (hp : 2 ^ cfg.bshift ∣ p) :
    2 ^ cfg.bshift ∣ ringPhys cfg.fshCbufOffset cfg.fshCbufSize p :=
  Nat.dvd_add hcfg.offset_dvd ((Nat.dvd_mod_iff hcfg.size_dvd).mpr hp)

/-- The I/O of `len ≤ S` aligned bytes at an aligned position: one segment, or two where it
passes the end of the circular buffer, sending each byte to the place of its position. -/
theorem m0BeLogStoreIoTranslate_placed {pos len : ℕ} (hpos : 2 ^ cfg.bshift ∣ pos)
    (hlen : 2 ^ cfg.bshift ∣ len) (hlenS : len ≤ cfg.fshCbufSize) :
    ∃ segs, m0BeLogStoreIoTranslate cfg pos beLogRecordIoRegNr [⟨0, 0, len⟩] = some segs ∧
      BeLogIoPlaced cfg pos len segs := by
  have hS := hcfg.size_pos
  have hoff := hcfg.dvd_ringPhys hpos
  have hmod := Nat.mod_lt pos hS
  -- the place of `pos`, and what is left of the buffer from there
  set off := ringPhys cfg.fshCbufOffset cfg.fshCbufSize pos with hoffdef
  have hoffle : off < cfg.fshCbufOffset + cfg.fshCbufSize := ringPhys_lt hS pos
  have hmove : m0BeIoStobMove beLogRecordIoRegNr [⟨0, 0, len⟩] off cfg.fshCbufOffset
      cfg.fshCbufSize = beIoStobMoveLoop cfg.fshCbufOffset (cfg.fshCbufOffset + cfg.fshCbufSize)
        1 off [⟨0, 0, len⟩] := by
    unfold m0BeIoStobMove
    rw [if_pos ⟨by omega, le_ringPhys pos, hoffle, by simp⟩]
    rfl
  unfold m0BeLogStoreIoTranslate
  rw [show cfg.fshCbufOffset + pos % cfg.fshCbufSize = off from rfl, hmove]
  rcases Nat.lt_or_ge (cfg.fshCbufOffset + cfg.fshCbufSize) (off + len) with hpast | hin
  · -- two segments: to the end of the buffer, and from its start
    have hal : ∀ s ∈ [(⟨0, off, cfg.fshCbufOffset + cfg.fshCbufSize - off⟩ : BeIoSeg),
        ⟨0 + (cfg.fshCbufOffset + cfg.fshCbufSize - off), cfg.fshCbufOffset,
          off + len - (cfg.fshCbufOffset + cfg.fshCbufSize)⟩], s.Aligned cfg.bshift := by
      have hend : 2 ^ cfg.bshift ∣ cfg.fshCbufOffset + cfg.fshCbufSize :=
        Nat.dvd_add hcfg.offset_dvd hcfg.size_dvd
      simp only [List.mem_cons, List.not_mem_nil, or_false, forall_eq_or_imp, forall_eq,
        BeIoSeg.Aligned]
      exact ⟨⟨Nat.dvd_zero _, hoff, Nat.dvd_sub hend hoff⟩,
        ⟨by simpa using Nat.dvd_sub hend hoff, hcfg.offset_dvd,
          Nat.dvd_sub (Nat.dvd_add hoff hlen) hend⟩⟩
    rw [beIoStobMoveLoop_one_of_lt _ 0 hpast hoffle.le]
    simp only [Option.bind_eq_bind, Option.bind_some, m0BeIoVecPack_of_aligned _ _ hal]
    refine ⟨_, rfl, ⟨?_, fun k hk => ?_, ?_⟩⟩
    · simp [(m0StobIovecSort_perm _).length_eq, beLogRecordIoRegNr, m0BeLogStoreIoCredit]
    · refine BeIoSends.perm ((beIoSends_map_pack hal).mpr ?_) (m0StobIovecSort_perm _).symm
      rcases Nat.lt_or_ge k (cfg.fshCbufOffset + cfg.fshCbufSize - off) with hk1 | hk2
      · refine ⟨_, List.mem_cons_self, by simp, by simpa using hk1, ?_⟩
        rw [ringPhys_add_of_lt (by simp only [hoffdef, ringPhys] at hk1; omega), ← hoffdef]
        simp
      · refine ⟨_, List.mem_cons_of_mem _ List.mem_cons_self, by simpa using hk2, by simp; omega, ?_⟩
        rw [ringPhys_add_of_ge (by simp only [hoffdef, ringPhys] at hk2; omega) (by omega)]
        simp only [hoffdef, ringPhys]
        omega
    · rw [(List.Perm.map _ (m0StobIovecSort_perm _)).sum_eq]
      obtain ⟨-, ⟨-, -, hc1⟩, ⟨-, -, hc2⟩⟩ := And.intro trivial (And.intro (hal _ List.mem_cons_self)
        (hal _ (List.mem_cons_of_mem _ List.mem_cons_self)))
      simp only [List.map_cons, List.map_nil, List.sum_cons, List.sum_nil, BeIoSeg.pack,
        Nat.add_zero, Nat.add_mul, Nat.div_mul_cancel hc1, Nat.div_mul_cancel hc2]
      omega
  · -- one segment, within the buffer
    have hal : ∀ s ∈ [(⟨0, off, len⟩ : BeIoSeg)], s.Aligned cfg.bshift := by
      simpa [BeIoSeg.Aligned] using ⟨hoff, hlen⟩
    rw [beIoStobMoveLoop_one_of_le _ 1 hin]
    simp only [Option.bind_eq_bind, Option.bind_some, m0BeIoVecPack_of_aligned _ _ hal]
    refine ⟨_, rfl, ⟨?_, fun k hk => ?_, ?_⟩⟩
    · simp [(m0StobIovecSort_perm _).length_eq, beLogRecordIoRegNr, m0BeLogStoreIoCredit]
    · refine BeIoSends.perm ((beIoSends_map_pack hal).mpr ?_) (m0StobIovecSort_perm _).symm
      refine ⟨_, List.mem_cons_self, Nat.zero_le _, by simpa using hk, ?_⟩
      rw [ringPhys_add_of_lt (by simp only [hoffdef, ringPhys] at hin; omega), ← hoffdef]
      simp
    · rw [(List.Perm.map _ (m0StobIovecSort_perm _)).sum_eq]
      simp [BeIoSeg.pack, Nat.div_mul_cancel hlen]

/-- The I/Os of a record of aligned sizes, at most `S` bytes in all, from an aligned
position: each placed where the one before it ends. -/
theorem beLogRecordIoTranslate_placed :
    ∀ (sizes : List ℕ) (pos : ℕ), 2 ^ cfg.bshift ∣ pos → (∀ s ∈ sizes, 2 ^ cfg.bshift ∣ s) →
      sizes.sum ≤ cfg.fshCbufSize →
      ∃ ios, beLogRecordIoTranslate cfg pos sizes = some ios ∧ BeLogIosPlaced cfg pos sizes ios
  | [], _, _, _, _ => ⟨[], rfl, trivial⟩
  | s :: sizes, pos, hpos, hal, hsum => by
    have hs := hal s List.mem_cons_self
    rw [List.sum_cons] at hsum
    obtain ⟨io, hio, hplaced⟩ := m0BeLogStoreIoTranslate_placed hcfg hpos hs (by omega)
    obtain ⟨ios, hios, hrest⟩ := beLogRecordIoTranslate_placed sizes (pos + s) (Nat.dvd_add hpos hs)
      (fun s' hs' => hal s' (List.mem_cons_of_mem s hs')) (by omega)
    exact ⟨io :: ios, by simp [beLogRecordIoTranslate, hio, hios], hplaced, hrest⟩

end Placed

/-! ### The sizes of a record's I/Os -/

lemma dvd_m0Align (val : ℕ) {align : ℕ} : align ∣ m0Align val align :=
  Dvd.intro_left _ rfl

lemma m0Align_mono {v w : ℕ} (h : v ≤ w) (align : ℕ) : m0Align v align ≤ m0Align w align :=
  Nat.mul_le_mul_right _ (Nat.div_le_div_right (by omega))

lemma dvd_of_mem_beLogRecordIoSizes (cfg : BeLogCfg) {bufSize : List ℕ} {s : ℕ}
    (h : s ∈ beLogRecordIoSizes cfg bufSize) : 2 ^ cfg.bshift ∣ s := by
  obtain ⟨i, hi, rfl⟩ := List.mem_iff_getElem.mp h
  simp only [beLogRecordIoSizes, List.getElem_mapIdx]
  exact dvd_m0Align _

lemma forall₂_mapIdx {f g : ℕ → ℕ → ℕ} (hfg : ∀ i a b, a ≤ b → f i a ≤ g i b)
    {l₁ l₂ : List ℕ} (h : List.Forall₂ (· ≤ ·) l₁ l₂) :
    List.Forall₂ (· ≤ ·) (l₁.mapIdx f) (l₂.mapIdx g) := by
  induction h generalizing f g with
  | nil => exact List.Forall₂.nil
  | cons hab _ ih =>
    rw [List.mapIdx_cons, List.mapIdx_cons]
    exact List.Forall₂.cons (hfg 0 _ _ hab) (ih fun i a b h => hfg (i + 1) a b h)

/-- Buffers no larger than the I/Os reserved for make a record no larger than the reserve. -/
lemma sum_beLogRecordIoSizes_le (cfg : BeLogCfg) {bufSize lioSize : List ℕ}
    (h : List.Forall₂ (· ≤ ·) bufSize lioSize) :
    (beLogRecordIoSizes cfg bufSize).sum ≤ (beLogRecordIoSizes cfg lioSize).sum := by
  have hlen := h.length_eq
  apply List.Forall₂.sum_le_sum
  unfold beLogRecordIoSizes
  exact forall₂_mapIdx (fun i a b hab => by rw [hlen]; exact m0Align_mono (by omega) _) h

end Motr
