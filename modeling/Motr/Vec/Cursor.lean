import Mathlib

/-!
The cursor of a vector of segments (`m0_vec_cursor` of `lib/vec.c`): a segment index and an
offset into it, kept inside a non-empty segment or at the end by
`m0_vec_cursor_normalize`, which skips empty segments.

A vector is the list of its segment counts (`v_count`, with `v_nr` its length). A cursor is
`VecCursor v`, which carries `m0_vec_cursor_invariant`, the precondition of every cursor
function, as a field. Seen through `VecCursor.pos`, the byte of the segments laid end to end
that it is at, a cursor is a position in `[0, v.sum]`:

* `VecCursor.eq_of_pos_eq`: a cursor is fixed by its position;
* `m0VecCursorInit_pos`: `m0_vec_cursor_init` is at 0;
* `m0VecCursorMove_pos`, `m0VecCursorMove_snd`: `m0_vec_cursor_move` moves by the count, up to
  the end, and says whether it got there;
* `m0VecCursorMove_move`: two moves are one.
-/

namespace Motr

/-! ### The cursor and its functions -/

/-- `m0_vec_cursor_invariant` of a cursor at segment `seg`, offset `offset` of the vector of
counts `v`: inside a segment, or at the end at offset 0. -/
def VecCursorInvariant (v : List ℕ) (seg offset : ℕ) : Prop :=
  seg ≤ v.length ∧ (seg < v.length → offset < v.getD seg 0) ∧ (seg = v.length → offset = 0)

instance (v : List ℕ) (seg offset : ℕ) : Decidable (VecCursorInvariant v seg offset) :=
  inferInstanceAs (Decidable (_ ∧ _ ∧ _))

/-- `m0_vec_cursor` on the vector `v` (`vc_vec`), at segment `seg` (`vc_seg`) and offset
`offset` (`vc_offset`), keeping `m0_vec_cursor_invariant`. -/
@[ext]
structure VecCursor (v : List ℕ) where
  seg : ℕ
  offset : ℕ
  inv : VecCursorInvariant v seg offset

variable {v : List ℕ}

/-- `m0_vec_cursor_normalize`: skip the empty segments from `seg` on, each to its offset 0. -/
def m0VecCursorNormalize (v : List ℕ) (seg offset : ℕ) : ℕ × ℕ :=
  if seg < v.length ∧ v.getD seg 0 = 0 then m0VecCursorNormalize v (seg + 1) 0
  else (seg, offset)
termination_by v.length - seg

lemma sum_take_succ_getD (v : List ℕ) (i : ℕ) :
    (v.take (i + 1)).sum = (v.take i).sum + v.getD i 0 := by
  rcases Nat.lt_or_ge i v.length with h | h
  · rw [List.sum_take_succ v i h, List.getD_eq_getElem v 0 h]
  · rw [List.take_of_length_le h, List.take_of_length_le (by omega), List.getD_eq_default v 0 h,
      Nat.add_zero]

lemma sum_take_mono (v : List ℕ) {i j : ℕ} (h : i ≤ j) : (v.take i).sum ≤ (v.take j).sum :=
  (List.take_sublist_take_left h).sum_le_sum (by simp)

/-- Normalizing a cursor at a segment of the vector and an offset that is 0 or inside the
segment gives a cursor that keeps the invariant, at the same byte, no earlier segment. -/
lemma m0VecCursorNormalize_spec {seg offset : ℕ} (hseg : seg ≤ v.length)
    (hoff : offset = 0 ∨ offset < v.getD seg 0) :
    VecCursorInvariant v (m0VecCursorNormalize v seg offset).1
        (m0VecCursorNormalize v seg offset).2 ∧
      seg ≤ (m0VecCursorNormalize v seg offset).1 ∧
      (v.take (m0VecCursorNormalize v seg offset).1).sum + (m0VecCursorNormalize v seg offset).2 =
        (v.take seg).sum + offset := by
  fun_induction m0VecCursorNormalize v seg offset with
  | case1 seg offset hskip ih =>
    -- an empty segment: the offset was 0, and the next segment starts at the same byte
    obtain ⟨hinv, hle, hsum⟩ := ih hskip.1 (Or.inl rfl)
    have hoff0 : offset = 0 := by omega
    refine ⟨hinv, by omega, ?_⟩
    rw [hsum, sum_take_succ_getD, hskip.2, hoff0]
  | case2 seg offset hstop =>
    dsimp only
    refine ⟨⟨hseg, fun hlt => ?_, fun heq => ?_⟩, le_rfl, rfl⟩
    · have hne : v.getD seg 0 ≠ 0 := fun h => hstop ⟨hlt, h⟩
      omega
    · have hzero : v.getD seg 0 = 0 := List.getD_eq_default v 0 heq.ge
      omega

/-- The cursor `m0_vec_cursor_normalize` leaves at `(seg, offset)`. -/
def VecCursor.normalize (v : List ℕ) (seg offset : ℕ) (hseg : seg ≤ v.length)
    (hoff : offset = 0 ∨ offset < v.getD seg 0) : VecCursor v :=
  ⟨(m0VecCursorNormalize v seg offset).1, (m0VecCursorNormalize v seg offset).2,
    (m0VecCursorNormalize_spec hseg hoff).1⟩

/-- `m0_vec_cursor_init`: segment 0, offset 0, normalized. -/
def m0VecCursorInit (v : List ℕ) : VecCursor v :=
  VecCursor.normalize v 0 0 (Nat.zero_le _) (Or.inl rfl)

/-- `m0_vec_cursor_step`: the bytes left in the cursor's segment (its `M0_PRE` that the cursor
is not at the end is where its callers call it). -/
def m0VecCursorStep (c : VecCursor v) : ℕ := v.getD c.seg 0 - c.offset

lemma VecCursor.seg_le_normalize (v : List ℕ) (seg offset : ℕ) (hseg : seg ≤ v.length)
    (hoff : offset = 0 ∨ offset < v.getD seg 0) :
    seg ≤ (VecCursor.normalize v seg offset hseg hoff).seg :=
  (m0VecCursorNormalize_spec hseg hoff).2.1

/-- The loop of `m0_vec_cursor_move`: while there are bytes to move and the cursor is not at
the end, go to the next segment if the bytes left in this one are no more than those to move,
else move inside the segment; normalize after each round. -/
def vecCursorMoveLoop (c : VecCursor v) (count : ℕ) : VecCursor v :=
  if h : 0 < count ∧ c.seg < v.length then
    if hs : m0VecCursorStep c ≤ count then
      vecCursorMoveLoop (VecCursor.normalize v (c.seg + 1) 0 h.2 (Or.inl rfl))
        (count - m0VecCursorStep c)
    else
      vecCursorMoveLoop (VecCursor.normalize v c.seg (c.offset + count) c.inv.1
        (Or.inr (by unfold m0VecCursorStep at hs; omega))) 0
  else c
termination_by 2 * (v.length - c.seg) + (if count = 0 then 0 else 1)
decreasing_by
  · have := VecCursor.seg_le_normalize v (c.seg + 1) 0 h.2 (Or.inl rfl)
    have hc : count ≠ 0 := by omega
    simp only [hc, if_false]
    split <;> omega
  · have := VecCursor.seg_le_normalize v c.seg (c.offset + count) c.inv.1
      (Or.inr (by unfold m0VecCursorStep at hs; omega))
    have hc : count ≠ 0 := by omega
    simp only [hc, if_false, if_true]
    omega

/-- `m0_vec_cursor_move`: the cursor moved by `count` bytes, and whether it is at the end. -/
def m0VecCursorMove (c : VecCursor v) (count : ℕ) : VecCursor v × Bool :=
  (vecCursorMoveLoop c count, decide ((vecCursorMoveLoop c count).seg = v.length))

/-! ### A cursor is a position -/

/-- The byte of the segments laid end to end that a cursor is at. -/
def VecCursor.pos (c : VecCursor v) : ℕ := (v.take c.seg).sum + c.offset

namespace VecCursor

variable (c : VecCursor v)

lemma pos_normalize (seg offset : ℕ) (hseg : seg ≤ v.length)
    (hoff : offset = 0 ∨ offset < v.getD seg 0) :
    (VecCursor.normalize v seg offset hseg hoff).pos = (v.take seg).sum + offset :=
  (m0VecCursorNormalize_spec hseg hoff).2.2

/-- Inside a segment, the cursor is before the end of the segment. -/
lemma pos_add_step (h : c.seg < v.length) :
    c.pos + m0VecCursorStep c = (v.take (c.seg + 1)).sum := by
  have hoff := c.inv.2.1 h
  rw [sum_take_succ_getD, pos, m0VecCursorStep]
  omega

lemma step_pos (h : c.seg < v.length) : 0 < m0VecCursorStep c := by
  have := c.inv.2.1 h
  unfold m0VecCursorStep
  omega

lemma pos_of_seg_eq (h : c.seg = v.length) : c.pos = v.sum := by
  rw [pos, c.inv.2.2 h, h, List.take_length, Nat.add_zero]

lemma pos_lt_sum (h : c.seg < v.length) : c.pos < v.sum := by
  have hstep := c.pos_add_step h
  have hle := sum_take_mono v (show c.seg + 1 ≤ v.length by omega)
  rw [List.take_length] at hle
  have := c.step_pos h
  omega

lemma pos_add_step_le_sum (h : c.seg < v.length) : c.pos + m0VecCursorStep c ≤ v.sum := by
  have hle := sum_take_mono v (show c.seg + 1 ≤ v.length by omega)
  rw [List.take_length] at hle
  rw [c.pos_add_step h]
  exact hle

lemma pos_le_sum : c.pos ≤ v.sum := by
  rcases Nat.lt_or_ge c.seg v.length with h | h
  · exact (c.pos_lt_sum h).le
  · exact (c.pos_of_seg_eq (le_antisymm c.inv.1 h)).le

lemma pos_eq_sum_iff : c.pos = v.sum ↔ c.seg = v.length := by
  refine ⟨fun h => ?_, c.pos_of_seg_eq⟩
  by_contra hne
  have := c.pos_lt_sum (lt_of_le_of_ne c.inv.1 hne)
  omega

/-- A cursor in an earlier segment is at an earlier byte. -/
lemma pos_lt_of_seg_lt {c' : VecCursor v} (h : c.seg < c'.seg) : c.pos < c'.pos := by
  have hlt : c.seg < v.length := lt_of_lt_of_le h c'.inv.1
  have hstep := c.pos_add_step hlt
  have hmono := sum_take_mono v (show c.seg + 1 ≤ c'.seg by omega)
  have := c.step_pos hlt
  unfold pos at *
  omega

/-- A cursor is fixed by the byte it is at. -/
lemma eq_of_pos_eq {c' : VecCursor v} (h : c.pos = c'.pos) : c = c' := by
  have hseg : c.seg = c'.seg := by
    rcases lt_trichotomy c.seg c'.seg with hlt | heq | hgt
    · exact absurd h (c.pos_lt_of_seg_lt hlt).ne
    · exact heq
    · exact absurd h (c'.pos_lt_of_seg_lt hgt).ne'
  refine VecCursor.ext hseg ?_
  unfold pos at h
  rw [hseg] at h
  omega

end VecCursor

lemma m0VecCursorInit_pos (v : List ℕ) : (m0VecCursorInit v).pos = 0 := by
  simp [m0VecCursorInit, VecCursor.pos_normalize]

/-- The move loop moves the cursor by `count` bytes, up to the end of the vector. -/
lemma vecCursorMoveLoop_pos (c : VecCursor v) (count : ℕ) :
    (vecCursorMoveLoop c count).pos = min (c.pos + count) v.sum := by
  fun_induction vecCursorMoveLoop c count with
  | case1 c count h hstep ih =>
    -- to the start of the next segment, `m0VecCursorStep c` bytes on
    rw [ih, VecCursor.pos_normalize, ← c.pos_add_step h.2, Nat.add_zero]
    congr 1
    omega
  | case2 c count h hstep ih =>
    -- inside the segment, which ends no further than the vector
    have hle := (VecCursor.normalize v c.seg (c.offset + count) c.inv.1
      (Or.inr (by unfold m0VecCursorStep at hstep; omega))).pos_le_sum
    rw [VecCursor.pos_normalize] at hle
    rw [ih, VecCursor.pos_normalize, Nat.add_zero, Nat.min_eq_left hle,
      Nat.min_eq_left (show c.pos + count ≤ v.sum by unfold VecCursor.pos; omega)]
    unfold VecCursor.pos
    omega
  | case3 c count h =>
    -- nothing to move, or already at the end
    rcases Nat.eq_zero_or_pos count with h0 | hpos
    · rw [h0, Nat.add_zero, Nat.min_eq_left c.pos_le_sum]
    · have hend : c.seg = v.length := le_antisymm c.inv.1 (by omega)
      rw [c.pos_of_seg_eq hend]
      omega

@[simp] lemma m0VecCursorMove_fst_pos (c : VecCursor v) (count : ℕ) :
    (m0VecCursorMove c count).1.pos = min (c.pos + count) v.sum :=
  vecCursorMoveLoop_pos c count

/-- A move by no more than the bytes left in the cursor's segment moves by exactly that. -/
lemma m0VecCursorMove_pos_of_le_step (c : VecCursor v) (h : c.seg < v.length) {count : ℕ}
    (hc : count ≤ m0VecCursorStep c) : (m0VecCursorMove c count).1.pos = c.pos + count := by
  have := c.pos_add_step_le_sum h
  rw [m0VecCursorMove_fst_pos]
  omega

/-- `m0_vec_cursor_move` says whether the moved cursor is at the end of the vector. -/
lemma m0VecCursorMove_snd (c : VecCursor v) (count : ℕ) :
    (m0VecCursorMove c count).2 = true ↔ (m0VecCursorMove c count).1.pos = v.sum := by
  rw [VecCursor.pos_eq_sum_iff]
  simp [m0VecCursorMove]

lemma m0VecCursorMove_snd_eq_false (c : VecCursor v) (count : ℕ) :
    (m0VecCursorMove c count).2 = false ↔ (m0VecCursorMove c count).1.seg < v.length := by
  have := (vecCursorMoveLoop c count).inv.1
  simp only [m0VecCursorMove]
  rw [decide_eq_false_iff_not]
  omega

lemma m0VecCursorMove_zero (c : VecCursor v) : (m0VecCursorMove c 0).1 = c := by
  apply VecCursor.eq_of_pos_eq
  rw [m0VecCursorMove_fst_pos, Nat.add_zero, Nat.min_eq_left c.pos_le_sum]

/-- The flag `m0_vec_cursor_move` returns is read off the moved cursor. -/
lemma m0VecCursorMove_snd_eq (c : VecCursor v) (count : ℕ) :
    (m0VecCursorMove c count).2 = decide ((m0VecCursorMove c count).1.seg = v.length) := rfl

/-- Moving by `a` and then by `b` is moving by `a + b`. -/
lemma m0VecCursorMove_move (c : VecCursor v) (a b : ℕ) :
    m0VecCursorMove (m0VecCursorMove c a).1 b = m0VecCursorMove c (a + b) := by
  have hc : (m0VecCursorMove (m0VecCursorMove c a).1 b).1 = (m0VecCursorMove c (a + b)).1 := by
    apply VecCursor.eq_of_pos_eq
    simp only [m0VecCursorMove_fst_pos]
    omega
  refine Prod.ext hc ?_
  simp only [m0VecCursorMove_snd_eq, hc]

end Motr
