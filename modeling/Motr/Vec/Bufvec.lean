import Motr.Vec.Cursor
import Motr.Lib.Mem

/-!
Buffer vectors (`m0_bufvec` of `lib/vec.c`) and the functions that walk two of them at once with
`M0_BUFVEC_FOR2`: `m0_bufvec_cursor_copy`, `m0_bufvec_cursor_cmp`, `m0_bufvec_cursor_prefix`.

A bufvec is the address of each segment and the vector of their counts; its bytes are its
segments read from memory and laid end to end (`Bufvec.bytes`), and a cursor on it is a
position in them (`Motr.Vec.Cursor`). `M0_BUFVEC_FOR2` is `m0BufvecFor2`, the loop with its body
as a parameter, and `m0BufvecFor2_rule` is its loop rule. On the bytes:

* `m0BufvecCursorCopy_spec`: the copy writes the bytes of the source from its cursor over those
  of the destination from its cursor, as many as the shorter of the two and the count allow,
  when the destination's segments share no byte with each other or with the source's;
* `m0BufvecCursorCmp_spec`: the comparison is `bytesCmp` of what is left after the two cursors,
  cut to the shorter;
* `m0BufvecCursorPrefix_spec`: the prefix is the longest common one of the two.
-/

namespace Motr

/-! ### Segments laid end to end -/

section Flatten

variable {α : Type*} {L : List (List α)} {i k : ℕ}

lemma flatten_drop_add (hi : i < L.length) (hk : k ≤ L[i].length) :
    L.flatten.drop (((L.map List.length).take i).sum + k) = L[i].drop k ++ (L.drop (i + 1)).flatten := by
  rw [← List.drop_drop, List.drop_sum_flatten, List.drop_eq_getElem_cons hi, List.flatten_cons,
    List.drop_append_of_le_length hk]

lemma flatten_take_add (hi : i < L.length) (hk : k ≤ L[i].length) :
    L.flatten.take (((L.map List.length).take i).sum + k) = (L.take i).flatten ++ L[i].take k := by
  rw [List.take_add, List.take_sum_flatten, List.drop_sum_flatten, List.drop_eq_getElem_cons hi,
    List.flatten_cons, List.take_append_of_le_length hk]

lemma flatten_set (hi : i < L.length) (x : List α) :
    (L.set i x).flatten = (L.take i).flatten ++ x ++ (L.drop (i + 1)).flatten := by
  rw [List.set_eq_take_append_cons_drop, if_pos hi, List.flatten_append, List.flatten_cons,
    List.append_assoc]

/-- Writing `f` more bytes of `S` after the `c` already written over `D` from `p`. -/
lemma splice_extend {D S : List α} {p q c : ℕ} (f : ℕ) (hp : p + c ≤ D.length)
    (hq : q + c ≤ S.length) :
    (D.take p ++ (S.drop q).take c ++ D.drop (p + c)).take (p + c) ++ (S.drop (q + c)).take f ++
        (D.take p ++ (S.drop q).take c ++ D.drop (p + c)).drop (p + c + f) =
      D.take p ++ (S.drop q).take (c + f) ++ D.drop (p + c + f) := by
  have hlen : (D.take p ++ (S.drop q).take c).length = p + c := by
    simp only [List.length_append, List.length_take, List.length_drop]
    omega
  have hdrop : (D.take p ++ (S.drop q).take c ++ D.drop (p + c)).drop (p + c + f) =
      D.drop (p + c + f) := by
    rw [← List.drop_drop, List.drop_left' hlen, List.drop_drop]
  rw [List.take_left' hlen, hdrop, List.take_add, List.drop_drop]
  simp only [List.append_assoc]

end Flatten

/-! ### Bufvecs -/

/-- `m0_bufvec`: the address of each segment (`ov_buf`) and the vector of their counts
(`ov_vec`), one for each. -/
structure Bufvec where
  ovBuf : List ℕ
  ovVec : List ℕ
  length_eq : ovBuf.length = ovVec.length

namespace Bufvec

variable (m : ℕ → UInt8) (b : Bufvec)

/-- The segments of a bufvec, read from the memory `m`. -/
def segs : List (List UInt8) := List.zipWith (memRead m) b.ovBuf b.ovVec

/-- The bytes of a bufvec: its segments laid end to end. -/
def bytes : List UInt8 := (b.segs m).flatten

/-- The address of segment `i`. -/
def addr (i : ℕ) : ℕ := b.ovBuf.getD i 0

/-- No two segments of `d` share a byte, and none shares one with a segment of `s`: writing
through `d` changes no other byte of `d` and no byte of `s`. -/
def NoAlias (d s : Bufvec) : Prop :=
  (∀ i < d.ovVec.length, ∀ j < d.ovVec.length, i ≠ j →
      RangesDisjoint (d.addr i) (d.ovVec.getD i 0) (d.addr j) (d.ovVec.getD j 0)) ∧
    ∀ i < d.ovVec.length, ∀ j < s.ovVec.length,
      RangesDisjoint (d.addr i) (d.ovVec.getD i 0) (s.addr j) (s.ovVec.getD j 0)

instance (d s : Bufvec) : Decidable (NoAlias d s) := inferInstanceAs (Decidable (_ ∧ _))

/-- An address inside a segment of the bufvec. -/
def Covers (x : ℕ) : Prop :=
  ∃ i < b.ovVec.length, b.addr i ≤ x ∧ x < b.addr i + b.ovVec.getD i 0

@[simp] lemma length_segs : (b.segs m).length = b.ovVec.length := by
  simp [segs, b.length_eq]

lemma getElem_segs {i : ℕ} (h : i < (b.segs m).length) :
    (b.segs m)[i] = memRead m (b.addr i) (b.ovVec.getD i 0) := by
  have hi : i < b.ovVec.length := by simpa using h
  have hi' : i < b.ovBuf.length := by rw [b.length_eq]; exact hi
  simp [segs, addr, List.getElem?_eq_getElem hi, List.getElem?_eq_getElem hi']

@[simp] lemma map_length_segs : (b.segs m).map List.length = b.ovVec := by
  refine List.ext_getElem (by simp) fun i h₁ h₂ => ?_
  rw [List.getElem_map, getElem_segs, length_memRead, List.getD_eq_getElem _ _ h₂]

@[simp] lemma length_bytes : (b.bytes m).length = b.ovVec.sum := by
  rw [bytes, List.length_flatten, map_length_segs]

end Bufvec

/-- `bufvec_cursor_addr`: the address of the byte a cursor is at. -/
def bufvecCursorAddr (b : Bufvec) (c : VecCursor b.ovVec) : ℕ := b.addr c.seg + c.offset

/-! ### Reading and writing at a cursor -/

section Access

variable {m : ℕ → UInt8} {b : Bufvec} (c : VecCursor b.ovVec)

/-- From a cursor inside a segment, the bytes are the rest of its segment, read at its address,
then the later segments. -/
lemma Bufvec.drop_pos (h : c.seg < b.ovVec.length) :
    (b.bytes m).drop c.pos =
      memRead m (bufvecCursorAddr b c) (m0VecCursorStep c) ++ ((b.segs m).drop (c.seg + 1)).flatten := by
  have hi : c.seg < (b.segs m).length := by simpa using h
  have hk : c.offset ≤ ((b.segs m)[c.seg]).length := by
    rw [b.getElem_segs m hi, length_memRead]
    exact (c.inv.2.1 h).le
  have hpos : c.pos = (((b.segs m).map List.length).take c.seg).sum + c.offset := by
    rw [Bufvec.map_length_segs, VecCursor.pos]
  rw [Bufvec.bytes, hpos, flatten_drop_add hi hk, b.getElem_segs m hi, memRead_drop]
  rfl

/-- The `n` bytes at a cursor's address, no more than its segment has left, are the next `n`
bytes from its position. -/
lemma memRead_bufvecCursorAddr (h : c.seg < b.ovVec.length) {n : ℕ}
    (hn : n ≤ m0VecCursorStep c) :
    memRead m (bufvecCursorAddr b c) n = ((b.bytes m).drop c.pos).take n := by
  rw [Bufvec.drop_pos c h, List.take_append_of_le_length (by simpa using hn), memRead_take,
    Nat.min_eq_left hn]

/-- The range of `n` bytes from a cursor, inside its segment. -/
lemma bufvecCursorAddr_le (h : c.seg < b.ovVec.length) {n : ℕ} (hn : n ≤ m0VecCursorStep c) :
    b.addr c.seg ≤ bufvecCursorAddr b c ∧
      bufvecCursorAddr b c + n ≤ b.addr c.seg + b.ovVec.getD c.seg 0 := by
  have := c.inv.2.1 h
  unfold bufvecCursorAddr m0VecCursorStep at *
  omega

/-- A move of `n` bytes to a cursor of `d`, no more than its segment has left, writes them over
the bytes from its position when no two segments of `d` share a byte. -/
lemma Bufvec.bytes_memmove {d : Bufvec}
    (hd : ∀ i < d.ovVec.length, ∀ j < d.ovVec.length, i ≠ j →
      RangesDisjoint (d.addr i) (d.ovVec.getD i 0) (d.addr j) (d.ovVec.getD j 0))
    (c : VecCursor d.ovVec) (h : c.seg < d.ovVec.length) {n : ℕ} (hn : n ≤ m0VecCursorStep c)
    (src : ℕ) :
    d.bytes (memmove m (bufvecCursorAddr d c) src n) =
      (d.bytes m).take c.pos ++ memRead m src n ++ (d.bytes m).drop (c.pos + n) := by
  obtain ⟨hlo, hhi⟩ := bufvecCursorAddr_le c h hn
  have hi : c.seg < (d.segs m).length := by simpa using h
  have hoff := c.inv.2.1 h
  have hstep : c.offset + n ≤ d.ovVec.getD c.seg 0 := by unfold m0VecCursorStep at hn; omega
  -- the segment of the cursor is written, the others are not
  have hseg : d.segs (memmove m (bufvecCursorAddr d c) src n) =
      (d.segs m).set c.seg ((d.segs m)[c.seg].take c.offset ++ memRead m src n ++
        (d.segs m)[c.seg].drop (c.offset + n)) := by
    refine List.ext_getElem (by simp) fun j h₁ h₂ => ?_
    have hj' : j < d.ovVec.length := by simpa using h₁
    rw [List.getElem_set]
    simp only [Bufvec.getElem_segs]
    split_ifs with hj
    · -- the cursor's segment: the bytes before the cursor, those moved, those after them
      subst hj
      obtain ⟨r, hr⟩ := Nat.exists_eq_add_of_le hstep
      rw [hr, memRead_take, memRead_drop, Nat.min_eq_left (by omega), Nat.add_sub_cancel_left,
        memRead_add, memRead_add]
      unfold bufvecCursorAddr at *
      rw [memRead_memmove_of_disjoint (by omega), memRead_memmove le_rfl le_rfl, Nat.sub_self,
        Nat.add_zero, memRead_memmove_of_disjoint (by omega)]
    · exact memRead_memmove_of_rangesDisjoint (hd j hj' c.seg h (Ne.symm hj)) hlo hhi
  have hk : c.offset ≤ ((d.segs m)[c.seg]).length := by
    rw [d.getElem_segs m hi, length_memRead]
    exact hoff.le
  have hk' : c.offset + n ≤ ((d.segs m)[c.seg]).length := by
    rw [d.getElem_segs m hi, length_memRead]
    exact hstep
  have hpos : c.pos = (((d.segs m).map List.length).take c.seg).sum + c.offset := by
    rw [Bufvec.map_length_segs, VecCursor.pos]
  rw [Bufvec.bytes, hseg, flatten_set hi, Bufvec.bytes, hpos, flatten_take_add hi hk,
    Nat.add_assoc, flatten_drop_add hi hk']
  simp only [List.append_assoc]

/-- A move inside a segment of `d` leaves the bytes of a bufvec none of whose segments shares a
byte with that segment. -/
lemma Bufvec.bytes_memmove_of_disjoint {d s : Bufvec} {i : ℕ}
    (hs : ∀ j < s.ovVec.length,
      RangesDisjoint (d.addr i) (d.ovVec.getD i 0) (s.addr j) (s.ovVec.getD j 0))
    {dst src n : ℕ} (hlo : d.addr i ≤ dst) (hhi : dst + n ≤ d.addr i + d.ovVec.getD i 0) :
    s.bytes (memmove m dst src n) = s.bytes m := by
  unfold Bufvec.bytes
  congr 1
  refine List.ext_getElem (by simp) fun j h₁ h₂ => ?_
  rw [s.getElem_segs _ h₁, s.getElem_segs _ h₂]
  exact memRead_memmove_of_rangesDisjoint (hs j (by simpa using h₁)).symm hlo hhi

end Access

/-! ### `M0_BUFVEC_FOR2` -/

/-- What the body of `M0_BUFVEC_FOR2` does: go back to the loop's test, which moves both cursors
by the fragment the body leaves (it may shorten it), or leave the loop (`break`, `return`). -/
inductive For2Step (α : Type) where
  | next (frag : ℕ+) (a : α)
  | exit (a : α)

section For2

variable {v0 v1 : List ℕ} {α : Type}

/-- The fragment both cursors have left in their segments (`min_check` of the two steps). -/
def for2Frag (c0 : VecCursor v0) (c1 : VecCursor v1) : ℕ :=
  min (m0VecCursorStep c0) (m0VecCursorStep c1)

lemma for2Frag_pos {c0 : VecCursor v0} {c1 : VecCursor v1} (h0 : c0.seg < v0.length)
    (h1 : c1.seg < v1.length) : 0 < for2Frag c0 c1 :=
  lt_min (c0.step_pos h0) (c1.step_pos h1)

lemma for2_not_end {c0 : VecCursor v0} {c1 : VecCursor v1} {frag : ℕ}
    (h : ¬((m0VecCursorMove c0 frag).2 || (m0VecCursorMove c1 frag).2) = true) :
    (m0VecCursorMove c0 frag).1.seg < v0.length ∧ (m0VecCursorMove c1 frag).1.seg < v1.length := by
  rw [Bool.or_eq_true, not_or, Bool.not_eq_true, Bool.not_eq_true,
    m0VecCursorMove_snd_eq_false, m0VecCursorMove_snd_eq_false] at h
  exact h

/-- `M0_BUFVEC_FOR2(c0, c1, frag) body M0_BUFVEC_ENDFOR2`, from the loop's test on: move both
cursors by `frag` (both: the test is a bitwise `|`), leave the loop when either is at its end,
else run `body` on the fragment both have left. -/
def m0BufvecFor2 (body : ℕ+ → VecCursor v0 → VecCursor v1 → α → For2Step α)
    (c0 : VecCursor v0) (c1 : VecCursor v1) (frag : ℕ) (a : α) :
    VecCursor v0 × VecCursor v1 × α :=
  if h : ((m0VecCursorMove c0 frag).2 || (m0VecCursorMove c1 frag).2) = true then
    ((m0VecCursorMove c0 frag).1, (m0VecCursorMove c1 frag).1, a)
  else
    match body ⟨for2Frag (m0VecCursorMove c0 frag).1 (m0VecCursorMove c1 frag).1,
        for2Frag_pos (for2_not_end h).1 (for2_not_end h).2⟩
        (m0VecCursorMove c0 frag).1 (m0VecCursorMove c1 frag).1 a with
    | .exit a' => ((m0VecCursorMove c0 frag).1, (m0VecCursorMove c1 frag).1, a')
    | .next f a' => m0BufvecFor2 body (m0VecCursorMove c0 frag).1 (m0VecCursorMove c1 frag).1 f a'
termination_by v0.sum - (m0VecCursorMove c0 frag).1.pos
decreasing_by
  -- the body's fragment is not empty: the next test moves the first cursor on
  have hlt := (m0VecCursorMove c0 frag).1.pos_lt_sum (for2_not_end h).1
  have hf := f.pos
  rw [m0VecCursorMove_fst_pos (m0VecCursorMove c0 frag).1]
  omega

/-- The loop rule of `M0_BUFVEC_FOR2`: an invariant `I` of the moved cursors and the body's
state, kept by every round of the body that goes on, gives `Q` when the loop is left at the end
of either vector (`hend`) or by the body (`hexit`). -/
lemma m0BufvecFor2_rule (body : ℕ+ → VecCursor v0 → VecCursor v1 → α → For2Step α)
    (I Q : VecCursor v0 → VecCursor v1 → α → Prop)
    (hend : ∀ c0 c1 a, I c0 c1 a → c0.seg = v0.length ∨ c1.seg = v1.length → Q c0 c1 a)
    (hexit : ∀ c0 c1 a a' (h0 : c0.seg < v0.length) (h1 : c1.seg < v1.length), I c0 c1 a →
      body ⟨for2Frag c0 c1, for2Frag_pos h0 h1⟩ c0 c1 a = .exit a' → Q c0 c1 a')
    (hnext : ∀ c0 c1 a f a' (h0 : c0.seg < v0.length) (h1 : c1.seg < v1.length), I c0 c1 a →
      body ⟨for2Frag c0 c1, for2Frag_pos h0 h1⟩ c0 c1 a = .next f a' →
      I (m0VecCursorMove c0 f).1 (m0VecCursorMove c1 f).1 a')
    {c0 : VecCursor v0} {c1 : VecCursor v1} {frag : ℕ} {a : α}
    (h : I (m0VecCursorMove c0 frag).1 (m0VecCursorMove c1 frag).1 a) :
    Q (m0BufvecFor2 body c0 c1 frag a).1 (m0BufvecFor2 body c0 c1 frag a).2.1
      (m0BufvecFor2 body c0 c1 frag a).2.2 := by
  fun_induction m0BufvecFor2 body c0 c1 frag a with
  | case1 c0 c1 frag a hend' =>
    rw [Bool.or_eq_true, m0VecCursorMove_snd, m0VecCursorMove_snd, VecCursor.pos_eq_sum_iff,
      VecCursor.pos_eq_sum_iff] at hend'
    exact hend _ _ _ h hend'
  | case2 c0 c1 frag a hgo a' hbody =>
    exact hexit _ _ _ _ (for2_not_end hgo).1 (for2_not_end hgo).2 h hbody
  | case3 c0 c1 frag a hgo f a' hbody ih =>
    exact ih (hnext _ _ _ _ _ (for2_not_end hgo).1 (for2_not_end hgo).2 h hbody)

end For2

/-! ### `m0_bufvec_cursor_copy` -/

/-- What `m0_bufvec_cursor_copy` keeps across its loop: the memory, the bytes still to copy
(`num_bytes`) and those copied (`bytes_copied`). -/
structure BufvecCopyState where
  mem : ℕ → UInt8
  numBytes : ℕ
  bytesCopied : ℕ

/-- The body of `m0_bufvec_cursor_copy`: `break` when no byte is left to copy, else clip the
fragment to the bytes left and `memmove` it. -/
def bufvecCopyBody (d s : Bufvec) (frag : ℕ+) (dcur : VecCursor d.ovVec)
    (scur : VecCursor s.ovVec) (st : BufvecCopyState) : For2Step BufvecCopyState :=
  if h : st.numBytes = 0 then .exit st
  else
    let f : ℕ+ := ⟨min frag st.numBytes, lt_min frag.pos (Nat.pos_of_ne_zero h)⟩
    .next f ⟨memmove st.mem (bufvecCursorAddr d dcur) (bufvecCursorAddr s scur) f,
      st.numBytes - f, st.bytesCopied + f⟩

/-- `m0_bufvec_cursor_copy(dcur, scur, num_bytes)` in the memory `m`: the cursors after the
loop and its state, whose `bytesCopied` is what the function returns. -/
def m0BufvecCursorCopy (m : ℕ → UInt8) (d s : Bufvec) (dcur : VecCursor d.ovVec)
    (scur : VecCursor s.ovVec) (numBytes : ℕ) :
    VecCursor d.ovVec × VecCursor s.ovVec × BufvecCopyState :=
  m0BufvecFor2 (bufvecCopyBody d s) dcur scur 0 ⟨m, numBytes, 0⟩

section Copy

variable (m : ℕ → UInt8) (d s : Bufvec) (dcur : VecCursor d.ovVec) (scur : VecCursor s.ovVec)
  (n : ℕ)

/-- The invariant of the copy loop at the moved cursors: both are `bytesCopied` bytes on, the
bytes copied and those left make `n`, the destination has the source's bytes over its own from
its cursor, and no other byte of memory has changed. -/
structure CopyInv (c0 : VecCursor d.ovVec) (c1 : VecCursor s.ovVec) (st : BufvecCopyState) :
    Prop where
  dpos : c0.pos = dcur.pos + st.bytesCopied
  spos : c1.pos = scur.pos + st.bytesCopied
  count : st.numBytes + st.bytesCopied = n
  dst : d.bytes st.mem = (d.bytes m).take dcur.pos ++
    ((s.bytes m).drop scur.pos).take st.bytesCopied ++ (d.bytes m).drop (dcur.pos + st.bytesCopied)
  src : s.bytes st.mem = s.bytes m
  frame : ∀ x, ¬ d.Covers x → st.mem x = m x

variable {m d s dcur scur n}

/-- At the end of either bufvec, or with no byte left to copy, the copy has copied as many bytes
as the count and the two bufvecs allow. -/
lemma CopyInv.bytesCopied_eq {c0 : VecCursor d.ovVec} {c1 : VecCursor s.ovVec}
    {st : BufvecCopyState} (hI : CopyInv m d s dcur scur n c0 c1 st)
    (hstop : c0.seg = d.ovVec.length ∨ c1.seg = s.ovVec.length ∨ st.numBytes = 0) :
    st.bytesCopied = min n (min (d.ovVec.sum - dcur.pos) (s.ovVec.sum - scur.pos)) := by
  have h0 := c0.pos_le_sum
  have h1 := c1.pos_le_sum
  have := hI.dpos
  have := hI.spos
  have := hI.count
  rcases hstop with h | h | h
  · have := c0.pos_of_seg_eq h
    omega
  · have := c1.pos_of_seg_eq h
    omega
  · omega

/-- One round of the copy keeps the invariant: the fragment moved is inside the cursors'
segments, so it lands over the destination's bytes from its cursor and nowhere else. -/
lemma CopyInv.next (hna : d.NoAlias s) {c0 : VecCursor d.ovVec} {c1 : VecCursor s.ovVec}
    {st : BufvecCopyState} (hI : CopyInv m d s dcur scur n c0 c1 st)
    (h0 : c0.seg < d.ovVec.length) (h1 : c1.seg < s.ovVec.length) {f : ℕ}
    (hf : f ≤ for2Frag c0 c1) (hfn : f ≤ st.numBytes) :
    CopyInv m d s dcur scur n (m0VecCursorMove c0 f).1 (m0VecCursorMove c1 f).1
      ⟨memmove st.mem (bufvecCursorAddr d c0) (bufvecCursorAddr s c1) f, st.numBytes - f,
        st.bytesCopied + f⟩ := by
  have hf0 : f ≤ m0VecCursorStep c0 := le_trans hf (min_le_left _ _)
  have hf1 : f ≤ m0VecCursorStep c1 := le_trans hf (min_le_right _ _)
  obtain ⟨hlo, hhi⟩ := bufvecCursorAddr_le c0 h0 hf0
  have hd0 := c0.pos_add_step_le_sum h0
  have hs1 := c1.pos_add_step_le_sum h1
  have hcount := hI.count
  refine ⟨?_, ?_, by dsimp only; omega, ?_, ?_, fun x hx => ?_⟩
  · rw [m0VecCursorMove_pos_of_le_step c0 h0 hf0, hI.dpos, Nat.add_assoc]
  · rw [m0VecCursorMove_pos_of_le_step c1 h1 hf1, hI.spos, Nat.add_assoc]
  · -- the fragment read at the source cursor, written at the destination cursor
    dsimp only
    rw [Bufvec.bytes_memmove hna.1 c0 h0 hf0, memRead_bufvecCursorAddr c1 h1 hf1, hI.src,
      hI.spos, hI.dst, hI.dpos, ← Nat.add_assoc]
    have hdlen := Bufvec.length_bytes m d
    have hslen := Bufvec.length_bytes m s
    have hdpos := hI.dpos
    have hspos := hI.spos
    exact splice_extend f (by omega) (by omega)
  · dsimp only
    rw [Bufvec.bytes_memmove_of_disjoint (hna.2 c0.seg h0) hlo hhi, hI.src]
  · -- outside the destination's segments, in particular outside the cursor's one
    dsimp only
    have hout : ¬(d.addr c0.seg ≤ x ∧ x < d.addr c0.seg + d.ovVec.getD c0.seg 0) :=
      fun hin => hx ⟨c0.seg, h0, hin⟩
    rw [memmove_apply_of_disjoint (by omega), hI.frame x hx]

variable (m d s dcur scur n)

/-- `m0_bufvec_cursor_copy` returns the bytes it copied, as many as the count and what is left
after the two cursors allow, moves both cursors by them, and writes them over the destination's
bytes from its cursor, changing no other byte of memory. -/
theorem m0BufvecCursorCopy_spec (hna : d.NoAlias s) :
    CopyInv m d s dcur scur n (m0BufvecCursorCopy m d s dcur scur n).1
        (m0BufvecCursorCopy m d s dcur scur n).2.1 (m0BufvecCursorCopy m d s dcur scur n).2.2 ∧
      (m0BufvecCursorCopy m d s dcur scur n).2.2.bytesCopied =
        min n (min (d.ovVec.sum - dcur.pos) (s.ovVec.sum - scur.pos)) := by
  refine m0BufvecFor2_rule (bufvecCopyBody d s) (CopyInv m d s dcur scur n)
    (fun c0 c1 st => CopyInv m d s dcur scur n c0 c1 st ∧
      st.bytesCopied = min n (min (d.ovVec.sum - dcur.pos) (s.ovVec.sum - scur.pos)))
    (fun c0 c1 st hI hend => ⟨hI, hI.bytesCopied_eq (hend.elim Or.inl (Or.inr ∘ Or.inl))⟩)
    (fun c0 c1 st st' h0 h1 hI hbody => ?_) (fun c0 c1 st f st' h0 h1 hI hbody => ?_) ?_
  · -- `break`: nothing was left to copy
    unfold bufvecCopyBody at hbody
    split_ifs at hbody with hzero
    cases hbody
    exact ⟨hI, hI.bytesCopied_eq (Or.inr (Or.inr hzero))⟩
  · unfold bufvecCopyBody at hbody
    split_ifs at hbody with hzero
    cases hbody
    exact hI.next hna h0 h1 (min_le_left _ _) (min_le_right _ _)
  · -- before the loop: no byte copied, the cursors where they were
    rw [m0VecCursorMove_zero, m0VecCursorMove_zero]
    exact ⟨by simp, by simp, by simp, by simp, rfl, fun _ _ => rfl⟩

end Copy

/-! ### Walking two bufvecs in step -/

/-- The bytes left after a cursor. -/
def Bufvec.rest (m : ℕ → UInt8) (b : Bufvec) (c : VecCursor b.ovVec) : List UInt8 :=
  (b.bytes m).drop c.pos

section Lockstep

variable {m : ℕ → UInt8} {b0 b1 : Bufvec} {s0 : VecCursor b0.ovVec} {s1 : VecCursor b1.ovVec}

/-- Both cursors are `t` bytes on from `s0` and `s1`. -/
def For2At (s0 : VecCursor b0.ovVec) (s1 : VecCursor b1.ovVec) (c0 : VecCursor b0.ovVec)
    (c1 : VecCursor b1.ovVec) (t : ℕ) : Prop :=
  c0.pos = s0.pos + t ∧ c1.pos = s1.pos + t

@[simp] lemma length_rest (c : VecCursor b0.ovVec) : (b0.rest m c).length = b0.ovVec.sum - c.pos := by
  simp [Bufvec.rest]

lemma For2At.start : For2At s0 s1 (m0VecCursorMove s0 0).1 (m0VecCursorMove s1 0).1 0 := by
  simp [For2At, m0VecCursorMove_zero]

variable {c0 : VecCursor b0.ovVec} {c1 : VecCursor b1.ovVec} {t : ℕ}

/-- When either cursor is at its end, the cursors have gone over the shorter of the two rests. -/
lemma For2At.eq_min (hat : For2At s0 s1 c0 c1 t)
    (hend : c0.seg = b0.ovVec.length ∨ c1.seg = b1.ovVec.length) :
    t = min (b0.rest m s0).length (b1.rest m s1).length := by
  have h0 := c0.pos_le_sum
  have h1 := c1.pos_le_sum
  obtain ⟨hp0, hp1⟩ := hat
  simp only [length_rest]
  rcases hend with h | h
  · have := c0.pos_of_seg_eq h
    omega
  · have := c1.pos_of_seg_eq h
    omega

variable (h0 : c0.seg < b0.ovVec.length) (h1 : c1.seg < b1.ovVec.length) {f : ℕ}
  (hf : f ≤ for2Frag c0 c1)
include h0 h1 hf

/-- A fragment is within both rests. -/
lemma For2At.add_le (hat : For2At s0 s1 c0 c1 t) :
    t + f ≤ min (b0.rest m s0).length (b1.rest m s1).length := by
  have := c0.pos_add_step_le_sum h0
  have := c1.pos_add_step_le_sum h1
  have := min_le_left (m0VecCursorStep c0) (m0VecCursorStep c1)
  have := min_le_right (m0VecCursorStep c0) (m0VecCursorStep c1)
  obtain ⟨hp0, hp1⟩ := hat
  unfold for2Frag at hf
  simp only [length_rest]
  omega

lemma For2At.move (hat : For2At s0 s1 c0 c1 t) :
    For2At s0 s1 (m0VecCursorMove c0 f).1 (m0VecCursorMove c1 f).1 (t + f) := by
  rw [For2At, m0VecCursorMove_pos_of_le_step c0 h0 (le_trans hf (min_le_left _ _)),
    m0VecCursorMove_pos_of_le_step c1 h1 (le_trans hf (min_le_right _ _)), hat.1, hat.2]
  omega

/-- The fragment at the cursors' addresses is the next one of each rest. -/
lemma For2At.memRead (hat : For2At s0 s1 c0 c1 t) :
    memRead m (bufvecCursorAddr b0 c0) f = ((b0.rest m s0).drop t).take f ∧
      memRead m (bufvecCursorAddr b1 c1) f = ((b1.rest m s1).drop t).take f := by
  rw [memRead_bufvecCursorAddr c0 h0 (le_trans hf (min_le_left _ _)),
    memRead_bufvecCursorAddr c1 h1 (le_trans hf (min_le_right _ _)), hat.1, hat.2, Bufvec.rest,
    Bufvec.rest, List.drop_drop, List.drop_drop]
  exact ⟨rfl, rfl⟩

end Lockstep

/-! ### `m0_bufvec_cursor_cmp` -/

/-- The body of `m0_bufvec_cursor_cmp`: `memcmp` the fragment, `break` if it differs. -/
def bufvecCmpBody (m : ℕ → UInt8) (b0 b1 : Bufvec) (frag : ℕ+) (c0 : VecCursor b0.ovVec)
    (c1 : VecCursor b1.ovVec) (_ : ℤ) : For2Step ℤ :=
  let result := memcmp m (bufvecCursorAddr b0 c0) (bufvecCursorAddr b1 c1) frag
  if result ≠ 0 then .exit result else .next frag result

/-- `m0_bufvec_cursor_cmp(c0, c1)`. -/
def m0BufvecCursorCmp (m : ℕ → UInt8) (b0 b1 : Bufvec) (c0 : VecCursor b0.ovVec)
    (c1 : VecCursor b1.ovVec) : ℤ :=
  (m0BufvecFor2 (bufvecCmpBody m b0 b1) c0 c1 0 0).2.2

/-- After equal bytes, the comparison of two strings cut to one length is that of the first
fragment where they differ. -/
lemma bytesCmp_take_of_take_eq {A B : List UInt8} {t f L : ℕ} (hAB : A.take t = B.take t)
    (hf : t + f ≤ L) (hA : L ≤ A.length) (hB : L ≤ B.length)
    (hne : (A.drop t).take f ≠ (B.drop t).take f) :
    bytesCmp (A.take L) (B.take L) = bytesCmp ((A.drop t).take f) ((B.drop t).take f) := by
  obtain ⟨r, rfl⟩ := Nat.exists_eq_add_of_le hf
  have hsplit : ∀ X : List UInt8,
      X.take (t + f + r) = X.take t ++ ((X.drop t).take f ++ ((X.drop t).drop f).take r) := by
    intro X
    rw [Nat.add_assoc, List.take_add, List.take_add]
  rw [hsplit A, hsplit B, bytesCmp_append _ _ (by simp; omega), if_pos hAB,
    bytesCmp_append _ _ (by simp; omega), if_neg hne]

theorem m0BufvecCursorCmp_spec (m : ℕ → UInt8) (b0 b1 : Bufvec) (c0 : VecCursor b0.ovVec)
    (c1 : VecCursor b1.ovVec) :
    m0BufvecCursorCmp m b0 b1 c0 c1 =
      bytesCmp ((b0.rest m c0).take (min (b0.rest m c0).length (b1.rest m c1).length))
        ((b1.rest m c1).take (min (b0.rest m c0).length (b1.rest m c1).length)) := by
  refine m0BufvecFor2_rule (bufvecCmpBody m b0 b1)
    (fun c0' c1' r => ∃ t, For2At c0 c1 c0' c1' t ∧ r = 0 ∧
      (b0.rest m c0).take t = (b1.rest m c1).take t)
    (fun _ _ r => r = bytesCmp
      ((b0.rest m c0).take (min (b0.rest m c0).length (b1.rest m c1).length))
      ((b1.rest m c1).take (min (b0.rest m c0).length (b1.rest m c1).length)))
    (fun c0' c1' r ⟨t, hat, hr, heq⟩ hend => ?_) (fun c0' c1' r r' h0 h1 ⟨t, hat, hr, heq⟩ hbody => ?_)
    (fun c0' c1' r f r' h0 h1 ⟨t, hat, hr, heq⟩ hbody => ?_) ⟨0, For2At.start, rfl, by simp⟩
  · -- at the end of either: all of the shorter rest compared equal
    rw [hr, ← hat.eq_min hend, heq, bytesCmp_self]
  · -- a fragment that differs
    have hmem := hat.memRead (m := m) h0 h1 le_rfl
    have hle := hat.add_le (m := m) h0 h1 le_rfl
    simp only [bufvecCmpBody, memcmp, PNat.mk_coe] at hbody
    simp only [hmem.1, hmem.2] at hbody
    split_ifs at hbody with hne
    cases hbody
    exact (bytesCmp_take_of_take_eq heq hle (min_le_left _ _) (min_le_right _ _)
      fun h => hne (by rw [h, bytesCmp_self])).symm
  · -- a fragment that is equal: the cursors move on over it
    have hmem := hat.memRead (m := m) h0 h1 le_rfl
    have hle := hat.add_le (m := m) h0 h1 le_rfl
    simp only [bufvecCmpBody, memcmp, PNat.mk_coe] at hbody
    simp only [hmem.1, hmem.2] at hbody
    split_ifs at hbody with hne
    cases hbody
    have hfrag := (bytesCmp_eq_zero_iff
      (by simp only [List.length_take, List.length_drop]; omega)).mp (not_not.mp hne)
    refine ⟨t + for2Frag c0' c1', hat.move h0 h1 le_rfl, by simpa using hne, ?_⟩
    rw [List.take_add, List.take_add, heq, hfrag]

/-! ### `m0_bufvec_cursor_prefix` -/

/-- The body of `m0_bufvec_cursor_prefix` on the prefix so far: scan the fragment for the first
byte that differs and `return` the prefix up to it, else add the fragment to the prefix. -/
def bufvecPrefixBody (m : ℕ → UInt8) (b0 b1 : Bufvec) (frag : ℕ+) (c0 : VecCursor b0.ovVec)
    (c1 : VecCursor b1.ovVec) (common : ℕ) : For2Step ℕ :=
  match (List.range frag).find?
      (fun i => m (bufvecCursorAddr b0 c0 + i) != m (bufvecCursorAddr b1 c1 + i)) with
  | some i => .exit (common + i)
  | none => .next frag (common + frag)

/-- `m0_bufvec_cursor_prefix(c0, c1)`. -/
def m0BufvecCursorPrefix (m : ℕ → UInt8) (b0 b1 : Bufvec) (c0 : VecCursor b0.ovVec)
    (c1 : VecCursor b1.ovVec) : ℕ :=
  (m0BufvecFor2 (bufvecPrefixBody m b0 b1) c0 c1 0 0).2.2

section Prefix

variable {m : ℕ → UInt8} {a0 a1 n : ℕ}

lemma getElem?_memRead (i : ℕ) : (memRead m a0 n)[i]? = if i < n then some (m (a0 + i)) else none := by
  split_ifs with h <;> simp [memRead, h]

/-- A scan that finds no differing byte: the two ranges are equal. -/
lemma memRead_eq_of_find?_eq_none
    (h : (List.range n).find? (fun i => m (a0 + i) != m (a1 + i)) = none) :
    memRead m a0 n = memRead m a1 n := by
  rw [List.find?_eq_none] at h
  exact List.map_congr_left fun i hi => by simpa using h i hi

/-- A scan that finds a differing byte: the ranges agree before it and differ at it. -/
lemma memRead_of_find?_eq_some {i : ℕ}
    (h : (List.range n).find? (fun i => m (a0 + i) != m (a1 + i)) = some i) :
    i < n ∧ (memRead m a0 n).take i = (memRead m a1 n).take i ∧
      (memRead m a0 n)[i]? ≠ (memRead m a1 n)[i]? := by
  obtain ⟨hne, hi, hbefore⟩ := List.find?_range_eq_some.mp h
  have hin : i < n := List.mem_range.mp hi
  refine ⟨hin, ?_, ?_⟩
  · rw [memRead_take, memRead_take]
    exact List.map_congr_left fun j hj => by
      have := hbefore j (by simp at hj; omega)
      simpa using this
  · rw [getElem?_memRead, getElem?_memRead, if_pos hin, if_pos hin]
    simpa using hne

/-- The prefix where two lists first differ, cut to the shorter, is their longest common one. -/
lemma isGreatest_take_eq {A B : List UInt8} {r L : ℕ} (hr : r ≤ L) (heq : A.take r = B.take r)
    (hne : r < L → A[r]? ≠ B[r]?) : IsGreatest {j | j ≤ L ∧ A.take j = B.take j} r := by
  refine ⟨⟨hr, heq⟩, fun j ⟨hj, hjeq⟩ => le_of_not_gt fun hlt => hne (by omega) ?_⟩
  rw [← List.getElem?_take_of_lt hlt, hjeq, List.getElem?_take_of_lt hlt]

end Prefix

/-- `m0_bufvec_cursor_prefix` returns the length of the longest common prefix of what is left
after the two cursors, no longer than the shorter. -/
theorem m0BufvecCursorPrefix_spec (m : ℕ → UInt8) (b0 b1 : Bufvec) (c0 : VecCursor b0.ovVec)
    (c1 : VecCursor b1.ovVec) :
    IsGreatest {j | j ≤ min (b0.rest m c0).length (b1.rest m c1).length ∧
      (b0.rest m c0).take j = (b1.rest m c1).take j} (m0BufvecCursorPrefix m b0 b1 c0 c1) := by
  refine m0BufvecFor2_rule (bufvecPrefixBody m b0 b1)
    (fun c0' c1' r => For2At c0 c1 c0' c1' r ∧ (b0.rest m c0).take r = (b1.rest m c1).take r)
    (fun _ _ r => IsGreatest {j | j ≤ min (b0.rest m c0).length (b1.rest m c1).length ∧
      (b0.rest m c0).take j = (b1.rest m c1).take j} r)
    (fun c0' c1' r ⟨hat, heq⟩ hend => ?_) (fun c0' c1' r r' h0 h1 ⟨hat, heq⟩ hbody => ?_)
    (fun c0' c1' r f r' h0 h1 ⟨hat, heq⟩ hbody => ?_) ⟨For2At.start, rfl⟩
  · -- at the end of either: all of the shorter rest is common
    have hL := hat.eq_min (m := m) hend
    exact isGreatest_take_eq hL.le heq (by omega)
  · -- a differing byte `i` into the fragment
    have hmem := hat.memRead (m := m) h0 h1 le_rfl
    have hle := hat.add_le (m := m) h0 h1 le_rfl
    simp only [bufvecPrefixBody, PNat.mk_coe] at hbody
    split at hbody
    · rename_i i hfind
      cases hbody
      obtain ⟨hi, htake, hne⟩ := memRead_of_find?_eq_some hfind
      rw [hmem.1, hmem.2, List.take_take, List.take_take, Nat.min_eq_left hi.le] at htake
      rw [hmem.1, hmem.2, List.getElem?_take_of_lt hi, List.getElem?_take_of_lt hi,
        List.getElem?_drop, List.getElem?_drop] at hne
      refine isGreatest_take_eq (by omega) ?_ fun _ => hne
      rw [List.take_add, List.take_add, heq, htake]
    · cases hbody
  · -- no differing byte in the fragment: it is common
    have hmem := hat.memRead (m := m) h0 h1 le_rfl
    simp only [bufvecPrefixBody, PNat.mk_coe] at hbody
    split at hbody
    · cases hbody
    · rename_i hfind
      cases hbody
      have hfrag := memRead_eq_of_find?_eq_none hfind
      rw [hmem.1, hmem.2] at hfrag
      refine ⟨hat.move h0 h1 le_rfl, ?_⟩
      rw [List.take_add, List.take_add, heq, hfrag]

/-! ### The cursors as positions in the bytes -/

/-- Seen as a position in the bytes laid end to end, `m0_vec_cursor_init` is at 0,
`m0_vec_cursor_move` moves by the count up to the end and says whether it got there, and two
moves are one; over bufvecs whose destination aliases nothing, `m0_bufvec_cursor_copy` copies
what is left after the source cursor over what follows the destination cursor, as much as the
count and the shorter rest allow, moves both cursors by that and returns it;
`m0_bufvec_cursor_cmp` has the sign of the lexicographic order of the two rests cut to the
shorter, and `m0_bufvec_cursor_prefix` is their longest common prefix. -/
theorem m0BufvecCursor_refines :
    (∀ v : List ℕ, (m0VecCursorInit v).pos = 0) ∧
    (∀ (v : List ℕ) (c : VecCursor v) (count : ℕ),
      (m0VecCursorMove c count).1.pos = min (c.pos + count) v.sum ∧
        ((m0VecCursorMove c count).2 = true ↔ (m0VecCursorMove c count).1.pos = v.sum)) ∧
    (∀ (v : List ℕ) (c : VecCursor v) (a b : ℕ),
      m0VecCursorMove (m0VecCursorMove c a).1 b = m0VecCursorMove c (a + b)) ∧
    (∀ (m : ℕ → UInt8) (d s : Bufvec), d.NoAlias s →
      ∀ (dcur : VecCursor d.ovVec) (scur : VecCursor s.ovVec) (n : ℕ),
        (m0BufvecCursorCopy m d s dcur scur n).2.2.bytesCopied =
            min n (min (d.ovVec.sum - dcur.pos) (s.ovVec.sum - scur.pos)) ∧
          (m0BufvecCursorCopy m d s dcur scur n).1.pos =
            dcur.pos + min n (min (d.ovVec.sum - dcur.pos) (s.ovVec.sum - scur.pos)) ∧
          (m0BufvecCursorCopy m d s dcur scur n).2.1.pos =
            scur.pos + min n (min (d.ovVec.sum - dcur.pos) (s.ovVec.sum - scur.pos)) ∧
          d.bytes (m0BufvecCursorCopy m d s dcur scur n).2.2.mem =
            (d.bytes m).take dcur.pos ++ ((s.bytes m).drop scur.pos).take
              (min n (min (d.ovVec.sum - dcur.pos) (s.ovVec.sum - scur.pos))) ++
              (d.bytes m).drop
                (dcur.pos + min n (min (d.ovVec.sum - dcur.pos) (s.ovVec.sum - scur.pos)))) ∧
    (∀ (m : ℕ → UInt8) (b0 b1 : Bufvec) (c0 : VecCursor b0.ovVec) (c1 : VecCursor b1.ovVec),
      (m0BufvecCursorCmp m b0 b1 c0 c1).sign =
        if (b0.rest m c0).take (min (b0.rest m c0).length (b1.rest m c1).length) =
            (b1.rest m c1).take (min (b0.rest m c0).length (b1.rest m c1).length) then 0
        else if (b0.rest m c0).take (min (b0.rest m c0).length (b1.rest m c1).length) <
            (b1.rest m c1).take (min (b0.rest m c0).length (b1.rest m c1).length) then -1
        else 1) ∧
    (∀ (m : ℕ → UInt8) (b0 b1 : Bufvec) (c0 : VecCursor b0.ovVec) (c1 : VecCursor b1.ovVec),
      IsGreatest {j | j ≤ min (b0.rest m c0).length (b1.rest m c1).length ∧
        (b0.rest m c0).take j = (b1.rest m c1).take j} (m0BufvecCursorPrefix m b0 b1 c0 c1)) := by
  refine ⟨m0VecCursorInit_pos, fun v c count => ⟨m0VecCursorMove_fst_pos c count,
    m0VecCursorMove_snd c count⟩, fun v c a b => m0VecCursorMove_move c a b,
    fun m d s hna dcur scur n => ?_, fun m b0 b1 c0 c1 => ?_, m0BufvecCursorPrefix_spec⟩
  · obtain ⟨hI, hk⟩ := m0BufvecCursorCopy_spec m d s dcur scur n hna
    rw [← hk]
    exact ⟨rfl, hI.dpos, hI.spos, hI.dst⟩
  · rw [m0BufvecCursorCmp_spec, sign_bytesCmp (by simp)]

/-- Two bytes from a destination of two segments, one of them empty, over a source of one
segment: the copy stops at the end of the destination. -/
theorem m0BufvecCursor_refines_copy :
    Bufvec.NoAlias ⟨[0, 8, 10], [1, 0, 1], rfl⟩ ⟨[20], [3], rfl⟩ ∧
      (m0BufvecCursorCopy (fun x => x.toUInt8) ⟨[0, 8, 10], [1, 0, 1], rfl⟩ ⟨[20], [3], rfl⟩
        (m0VecCursorInit _) (m0VecCursorInit _) 5).2.2.bytesCopied = min 5 (min (2 - 0) (3 - 0)) :=
  ⟨by decide, by
    have h := (m0BufvecCursor_refines.2.2.2.1 (fun x => x.toUInt8) ⟨[0, 8, 10], [1, 0, 1], rfl⟩
      ⟨[20], [3], rfl⟩ (by decide) (m0VecCursorInit _) (m0VecCursorInit _) 5).1
    simpa [m0VecCursorInit_pos] using h⟩

end Motr
