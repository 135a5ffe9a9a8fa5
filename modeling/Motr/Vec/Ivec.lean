import Motr.Vec.Cursor
import Motr.Xcode.Binary

/-!
Index vectors (`m0_indexvec` of `lib/vec.c`) and `m0_indexvec_split`, which cuts out of an index
vector the pieces that cover a range of its bytes laid end to end, walking it twice with an ivec
cursor: once to count the pieces (`ivec_nr_or_prepare` with no output), once to fill the arrays
`m0_indexvec_alloc` made for them.

The length left is kept in an `int` (`req`) although the range's length is an `m0_bcount_t`:
stored into it, a length is taken modulo `2^32` in two's complement (`toCInt`), and so is every
difference `req - offset`.

* `ivecNrOrPrepareLoop_fst`: the counting pass and the filling pass take the same steps;
* `m0IndexvecSplit_asserts_on_int_len`: a length whose low 32 bits are not a positive `int`
  leaves no piece to count, and `m0_indexvec_alloc` is asked for none, which its precondition
  refuses.
-/

namespace Motr

/-- `m0_indexvec`: the first index of each segment (`iv_index`) and the vector of their counts
(`iv_vec`), one for each. -/
structure Indexvec where
  ivIndex : List ℕ
  ivVec : List ℕ
  length_eq : ivIndex.length = ivVec.length

/-- `ENOMEM`, out of memory. -/
def ENOMEM : ℤ := 12

/-- `m0_ivec_cursor_index`: the index a cursor is at. -/
def m0IvecCursorIndex (iv : Indexvec) (c : VecCursor iv.ivVec) : ℕ :=
  iv.ivIndex.getD c.seg 0 + c.offset

/-- The loop of `ivec_nr_or_prepare` from its test on: move the cursor by `offset`; while it is
not at the end and `req > 0`, take the bytes left in the cursor's segment as the next `offset`,
write the piece there at entry `nr` of `out` when filling (its index and the bytes left, at most
`req`, both shifted down by `bshift`), and take `offset` off `req`, an `int`. -/
def ivecNrOrPrepareLoop (iv : Indexvec) (bshift : ℕ) (c : VecCursor iv.ivVec) (offset : ℕ)
    (req : ℤ) (nr : ℕ) (out : Option (List (ℕ × ℕ))) : ℕ × Option (List (ℕ × ℕ)) :=
  if h : (m0VecCursorMove c offset).2 = false ∧ 0 < req then
    ivecNrOrPrepareLoop iv bshift (m0VecCursorMove c offset).1
      (m0VecCursorStep (m0VecCursorMove c offset).1)
      (toCInt ((req - m0VecCursorStep (m0VecCursorMove c offset).1) % 2 ^ 64).toNat) (nr + 1)
      (out.map fun o => o.set nr
        (m0IvecCursorIndex iv (m0VecCursorMove c offset).1 >>> bshift,
          min (m0VecCursorStep (m0VecCursorMove c offset).1) req.toNat >>> bshift))
  else (nr, out)
termination_by iv.ivVec.sum - (m0VecCursorMove c offset).1.pos
decreasing_by
  -- the next move is by the bytes left in a segment the cursor is inside of
  have hseg := (m0VecCursorMove_snd_eq_false c offset).mp h.1
  have hlt := (m0VecCursorMove c offset).1.pos_lt_sum hseg
  have hstep := (m0VecCursorMove c offset).1.step_pos hseg
  rw [m0VecCursorMove_fst_pos (m0VecCursorMove c offset).1]
  omega

/-- `ivec_nr_or_prepare(in, offset, req, bshift, out)`: the number of pieces and the arrays
written; `none` for the precondition of `m0_ivec_cursor_init` that the vector has a segment. -/
def ivecNrOrPrepare (iv : Indexvec) (offset : ℕ) (req : ℤ) (bshift : ℕ)
    (out : Option (List (ℕ × ℕ))) : Option (ℕ × Option (List (ℕ × ℕ))) :=
  if iv.ivVec.length = 0 then none
  else some (ivecNrOrPrepareLoop iv bshift (m0VecCursorInit iv.ivVec) offset req 0 out)

/-- `m0_indexvec_alloc(out, len)`, whose allocations succeed when `alloc`: arrays of `len`
zeroed entries, or `-ENOMEM`; `none` for its precondition `len > 0`. -/
def m0IndexvecAlloc (len : ℕ) (alloc : Bool) : Option (Except ℤ (List (ℕ × ℕ))) :=
  if len = 0 then none
  else if alloc then some (.ok (List.replicate len (0, 0)))
  else some (.error (-ENOMEM))

/-- `m0_indexvec_split(in, curr_pos, nb_len, bshift, out)`: the return code and the pieces of
`out`, each its index and its count. The length goes to `ivec_nr_or_prepare` as an `int`. -/
def m0IndexvecSplit (iv : Indexvec) (currPos nbLen bshift : ℕ) (alloc : Bool) :
    Option (ℤ × Option (List (ℕ × ℕ))) := do
  let counted ← ivecNrOrPrepare iv currPos (toCInt nbLen) bshift none
  match ← m0IndexvecAlloc counted.1 alloc with
  | .error rc => pure (rc, none)
  | .ok out =>
    let filled ← ivecNrOrPrepare iv currPos (toCInt nbLen) bshift (some out)
    pure (0, filled.2)

/-- With no positive length left, the loop counts no piece. -/
lemma ivecNrOrPrepareLoop_of_nonpos (iv : Indexvec) (bshift : ℕ) (c : VecCursor iv.ivVec)
    (offset : ℕ) {req : ℤ} (hreq : req ≤ 0) (nr : ℕ) (out : Option (List (ℕ × ℕ))) :
    ivecNrOrPrepareLoop iv bshift c offset req nr out = (nr, out) := by
  rw [ivecNrOrPrepareLoop, dif_neg (fun h => absurd h.2 (not_lt.mpr hreq))]

lemma toCInt_nonpos_iff (n : ℕ) : toCInt n ≤ 0 ↔ n % 2 ^ 32 = 0 ∨ 2 ^ 31 ≤ n % 2 ^ 32 := by
  unfold toCInt
  have := Nat.mod_lt n (show 0 < 2 ^ 32 by norm_num)
  split_ifs <;> omega

/-- A length whose low 32 bits are 0 or at least `2^31` is no positive `int`: the counting
pass finds no piece, and `m0_indexvec_alloc` is asked for none, which its precondition refuses,
whatever the vector, the position and the allocations. -/
theorem m0IndexvecSplit_asserts_on_int_len (iv : Indexvec) (currPos nbLen bshift : ℕ)
    (alloc : Bool) (hlen : nbLen % 2 ^ 32 = 0 ∨ 2 ^ 31 ≤ nbLen % 2 ^ 32) :
    m0IndexvecSplit iv currPos nbLen bshift alloc = none := by
  have hreq : toCInt nbLen ≤ 0 := (toCInt_nonpos_iff nbLen).mpr hlen
  unfold m0IndexvecSplit ivecNrOrPrepare
  split_ifs with hnr
  · rfl
  · rw [ivecNrOrPrepareLoop_of_nonpos iv bshift _ currPos hreq]
    rfl

/-- A request of 2 GiB from the start of one segment of 2 GiB, with `bshift = 0` as the
ioservice passes it: the split asserts instead of returning 0 or `-ENOMEM`. -/
theorem m0IndexvecSplit_asserts_on_int_len_two_gib :
    0 < 2 ^ 31 ∧ 0 + 2 ^ 31 ≤ [2 ^ 31].sum ∧
      m0IndexvecSplit ⟨[0], [2 ^ 31], rfl⟩ 0 (2 ^ 31) 0 true = none :=
  ⟨by norm_num, by norm_num,
    m0IndexvecSplit_asserts_on_int_len ⟨[0], [2 ^ 31], rfl⟩ 0 (2 ^ 31) 0 true (by norm_num)⟩

end Motr
