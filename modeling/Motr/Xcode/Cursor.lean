import Motr.Xcode.BinarySpec
import Motr.Lib.Steps

/-!
The cursor of `xcode/cursor.c`: `m0_xcode_next` walks an object with an explicit stack of
frames, each with the object, its field and element numbers and a flag
(`M0_XCODE_CURSOR_NONE`, `_PRE`, `_IN`, `_POST`). A call moves the top frame one step: a new
frame is entered (`PRE`); an aggregate goes to its next child, pushing a frame for it, or ends
(`POST`); a finished frame is popped and its parent is back `IN`. After the root is finished
the call returns `0`.

The frames are a list with the top first, the depth being the number of frames below the top.
An object is given, as in `Motr.Xcode.Type`, by its sub-objects in the order the cursor enters
them, so `m0_xcode_subobj` is a lookup among them by field and element number. `xcodeRun`
calls `m0_xcode_next` from `m0_xcode_cursor_init` until it returns `0` and records what a
caller sees after each call: the top frame's flag, the depth and the object.

* `xcodeWalk`: the walk the cursor is for, a `PRE` before and a `POST` after the walks of the
  sub-objects, each followed by the parent back `IN`.
* `xcodeFrame_steps`: from a frame just entered, the calls walk the object and leave the frame
  finished; the induction is on the object, each aggregation running through its children
  (`xcodeChildren_steps`).
* `m0XcodeNext_walk`: on every object of a type satisfying the invariant whose height fits
  the stack, `xcodeRun` sees exactly `xcodeWalk` and then returns `0`.
* `xcodeWalk_atoms`, `m0XcodeNext_atoms`: the atoms the walk enters are those of the codec,
  `xcodeAtoms` of `Motr.Xcode.Binary`, so `ctx_walk` copies what the cursor walks.
-/

namespace Motr

/-- `enum m0_xcode_cursor_flag`. -/
inductive XcodeCursorFlag
  | M0_XCODE_CURSOR_NONE
  | M0_XCODE_CURSOR_PRE
  | M0_XCODE_CURSOR_IN
  | M0_XCODE_CURSOR_POST
  deriving DecidableEq, Repr

/-- `struct m0_xcode_cursor_frame`: the object `s_obj` with its type, `s_fieldno`, `s_elno` and
`s_flag`; `s_datum` belongs to the caller. -/
structure XcodeFrame where
  sType : XcodeType
  sObj : XcodeObj
  sFieldno : ℕ
  sElno : ℕ
  sFlag : XcodeCursorFlag

/-- `xct_child`. -/
def XcodeType.child : XcodeType → List (ℕ × XcodeType)
  | .mk _ _ child => child

/-- `m0_xcode_cursor_init`: one frame, the object, nothing done. -/
def m0XcodeCursorInit (t : XcodeType) (o : XcodeObj) : List XcodeFrame :=
  [⟨t, o, 0, 0, .M0_XCODE_CURSOR_NONE⟩]

/-- `m0_xcode_subobj`: the sub-object of field `fieldno`, element `elno`, with the field's type
(`M0_PRE(fieldno < xct_nr)`): the field's own sub-object in a record, a typedef and for the
first field of a sequence and of a union, the element `elno` of a sequence or of an array, and
the branch of a union. -/
def m0XcodeSubobj (t : XcodeType) (o : XcodeObj) (fieldno elno : ℕ) :
    Option (XcodeType × XcodeObj) :=
  match t, o with
  | .mk aggr _ child, .agg subs => do
    let f ← child[fieldno]?
    let idx := match aggr with
      | .M0_XA_SEQUENCE => if fieldno = 0 then 0 else 1 + elno
      | .M0_XA_ARRAY => elno
      | .M0_XA_UNION => if fieldno = 0 then 0 else 1
      | _ => fieldno
    let sub ← subs[idx]?
    some (f.2, sub)
  | _, _ => none

/-- `m0_xcode_tag` of the top object: the tag of the field of an array, otherwise that of the
first field with its sub-object (`m0XcodeTag`). -/
def m0XcodeObjTag : XcodeType → XcodeObj → ℕ
  | .mk .M0_XA_ARRAY _ ((k, _) :: _), _ => k
  | .mk _ _ (f :: _), .agg (n :: _) => m0XcodeTag f n
  | _, _ => 0

/-- The element number checked against the tag: past the last element, the frame goes to
field `2`, past the fields of a sequence or an array. -/
def xcodeElnoCheck (tag : ℕ) (top : XcodeFrame) : XcodeFrame :=
  if tag ≤ top.sElno then { top with sElno := 0, sFieldno := 2 } else top

/-- The `M0_XCODE_CURSOR_IN` case of `m0_xcode_next`: the next field of a record or a typedef;
the first or next element of a sequence, the next one of an array (the case label of
`M0_XA_ARRAY` is inside the sequence's `else`); for a union, after the discriminator the first
branch whose tag it holds (or `xct_nr`), and after the branch `xct_nr`. An opaque or atom
frame is `M0_IMPOSSIBLE`. -/
def xcodeCursorIn (top : XcodeFrame) : Option XcodeFrame :=
  let nr := top.sType.child.length
  let tag := m0XcodeObjTag top.sType top.sObj
  match top.sType.aggr with
  | .M0_XA_RECORD | .M0_XA_TYPEDEF => some { top with sFieldno := top.sFieldno + 1 }
  | .M0_XA_SEQUENCE =>
    if top.sFieldno = 0 then some (xcodeElnoCheck tag { top with sElno := 0, sFieldno := 1 })
    else some (xcodeElnoCheck tag { top with sElno := top.sElno + 1 })
  | .M0_XA_ARRAY => some (xcodeElnoCheck tag { top with sElno := top.sElno + 1 })
  | .M0_XA_UNION =>
    if top.sFieldno ≠ 0 then some { top with sFieldno := nr }
    else some { top with sFieldno := 1 + top.sType.child.tail.findIdx fun f => f.1 = tag }
  | _ => none

/-- The `M0_XCODE_CURSOR_PRE` case of `m0_xcode_next`, also reached from `IN`: while a field is
left the frame is `IN` and, unless it is an atom, a frame for the sub-object is pushed (its
`m0_xcode_cursor_top` asserting room in `xcu_stack`); otherwise the frame is `POST`. -/
def xcodeCursorPre (top : XcodeFrame) (rest : List XcodeFrame) : Option (ℤ × List XcodeFrame) :=
  if top.sFieldno < top.sType.child.length then
    let top := { top with sFlag := .M0_XCODE_CURSOR_IN }
    if top.sType.aggr ≠ .M0_XA_ATOM then
      if rest.length + 1 < M0_XCODE_DEPTH_MAX then
        (m0XcodeSubobj top.sType top.sObj top.sFieldno top.sElno).map fun sub =>
          (1, ⟨sub.1, sub.2, 0, 0, .M0_XCODE_CURSOR_PRE⟩ :: top :: rest)
      else none
    else some (1, top :: rest)
  else some (1, { top with sFlag := .M0_XCODE_CURSOR_POST } :: rest)

/-- `m0_xcode_next`: `M0_PRE(xcu_depth >= 0)` and the type invariant of the top frame asserted;
`0` once the root is popped, `+1` otherwise. A popped frame's parent must not be finished
(`M0_ASSERT(top->s_flag < M0_XCODE_CURSOR_POST)`). -/
def m0XcodeNext : List XcodeFrame → Option (ℤ × List XcodeFrame)
  | [] => none
  | top :: rest =>
    if top.sType.Inv then
      match top.sFlag with
      | .M0_XCODE_CURSOR_NONE => some (1, { top with sFlag := .M0_XCODE_CURSOR_PRE } :: rest)
      | .M0_XCODE_CURSOR_IN => (xcodeCursorIn top).bind fun top => xcodeCursorPre top rest
      | .M0_XCODE_CURSOR_PRE => xcodeCursorPre top rest
      | .M0_XCODE_CURSOR_POST =>
        match rest with
        | [] => some (0, [])
        | parent :: rest =>
          if parent.sFlag = .M0_XCODE_CURSOR_POST then none
          else some (1, { parent with sFlag := .M0_XCODE_CURSOR_IN } :: rest)
    else none

/-- What a caller of `m0_xcode_next` sees of the cursor: the top frame's flag, the depth and
the object. -/
structure XcodeEvent where
  flag : XcodeCursorFlag
  depth : ℕ
  obj : XcodeObj

/-- The event of a cursor. -/
def xcodeEvent : List XcodeFrame → XcodeEvent
  | [] => ⟨.M0_XCODE_CURSOR_NONE, 0, .atom 0⟩
  | top :: rest => ⟨top.sFlag, rest.length, top.sObj⟩

/-- A call of `m0_xcode_next` as a step that goes on while it returns non-zero. -/
def xcodeNextStep (it : List XcodeFrame) : Option (Bool × List XcodeFrame) :=
  (m0XcodeNext it).map fun r => (decide (r.1 ≠ 0), r.2)

/-- Calls of `m0_xcode_next` until it returns `0`, at most `fuel` of them: the events after
each call that returns non-zero, and the cursor at the end. -/
def xcodeRun (fuel : ℕ) (it : List XcodeFrame) : Option (List XcodeEvent × List XcodeFrame) :=
  runUntil xcodeNextStep xcodeEvent fuel it

mutual
/-- The walk of an object at depth `d`: `PRE`, the walks of its sub-objects, `POST`. -/
def xcodeWalk (d : ℕ) : XcodeObj → List XcodeEvent
  | .atom v => [⟨.M0_XCODE_CURSOR_PRE, d, .atom v⟩, ⟨.M0_XCODE_CURSOR_POST, d, .atom v⟩]
  | .agg subs => ⟨.M0_XCODE_CURSOR_PRE, d, .agg subs⟩ ::
      (xcodeWalkSubs d (.agg subs) subs ++ [⟨.M0_XCODE_CURSOR_POST, d, .agg subs⟩])

/-- The walks of the sub-objects of `p`, each followed by `p` back `IN`. -/
def xcodeWalkSubs (d : ℕ) (p : XcodeObj) : List XcodeObj → List XcodeEvent
  | [] => []
  | o :: os => xcodeWalk (d + 1) o ++ ⟨.M0_XCODE_CURSOR_IN, d, p⟩ :: xcodeWalkSubs d p os
end

/-! ### Objects, types and walks -/

/-- Induction on an object, with the hypothesis for each of its sub-objects. -/
theorem XcodeObj.induction {P : XcodeObj → Prop} (hatom : ∀ v, P (.atom v))
    (hagg : ∀ subs, (∀ o ∈ subs, P o) → P (.agg subs)) : ∀ o, P o
  | .atom v => hatom v
  | .agg subs => hagg subs fun o ho =>
    have : sizeOf o < 1 + sizeOf subs := by
      have := List.sizeOf_lt_of_mem ho
      omega
    XcodeObj.induction hatom hagg o
termination_by o => sizeOf o

@[simp] lemma XcodeType.child_mk (aggr : XcodeAggr) (atype : XcodeAtype)
    (child : List (ℕ × XcodeType)) : (XcodeType.mk aggr atype child).child = child := rfl

@[simp] lemma XcodeType.aggr_mk (aggr : XcodeAggr) (atype : XcodeAtype)
    (child : List (ℕ × XcodeType)) : (XcodeType.mk aggr atype child).aggr = aggr := rfl

lemma xcodeWalk_eq_cons (d : ℕ) (o : XcodeObj) :
    xcodeWalk d o = ⟨.M0_XCODE_CURSOR_PRE, d, o⟩ :: (xcodeWalk d o).tail := by
  cases o <;> simp [xcodeWalk]

/-! ### One call -/

section Step

variable {top parent : XcodeFrame} {rest : List XcodeFrame}

/-- The `PRE` case does not read the flag it overwrites. -/
lemma xcodeCursorPre_flag (fl : XcodeCursorFlag) :
    xcodeCursorPre { top with sFlag := fl } rest = xcodeCursorPre top rest := rfl

lemma m0XcodeNext_pre (top : XcodeFrame) (rest : List XcodeFrame) (hinv : top.sType.Inv = true)
    (hfl : top.sFlag = .M0_XCODE_CURSOR_PRE) :
    m0XcodeNext (top :: rest) = xcodeCursorPre top rest := by
  simp [m0XcodeNext, hinv, hfl]

lemma m0XcodeNext_in (hinv : top.sType.Inv = true) (hfl : top.sFlag = .M0_XCODE_CURSOR_IN) :
    m0XcodeNext (top :: rest) = (xcodeCursorIn top).bind fun top => xcodeCursorPre top rest := by
  simp [m0XcodeNext, hinv, hfl]

/-- A finished frame is popped and its parent is back `IN`. -/
lemma m0XcodeNext_pop (top parent : XcodeFrame) (rest : List XcodeFrame)
    (hinv : top.sType.Inv = true) (hfl : top.sFlag = .M0_XCODE_CURSOR_POST)
    (hpar : parent.sFlag ≠ .M0_XCODE_CURSOR_POST) :
    m0XcodeNext (top :: parent :: rest) =
      some (1, { parent with sFlag := .M0_XCODE_CURSOR_IN } :: rest) := by
  simp [m0XcodeNext, hinv, hfl, hpar]

/-- While a field is left, the frame goes `IN` and a frame for the sub-object is pushed. -/
lemma xcodeCursorPre_push (top : XcodeFrame) {sub : XcodeType × XcodeObj}
    (hf : top.sFieldno < top.sType.child.length) (hagg : top.sType.aggr ≠ .M0_XA_ATOM)
    (hroom : rest.length + 1 < M0_XCODE_DEPTH_MAX)
    (hsub : m0XcodeSubobj top.sType top.sObj top.sFieldno top.sElno = some sub) :
    xcodeCursorPre top rest = some (1, ⟨sub.1, sub.2, 0, 0, .M0_XCODE_CURSOR_PRE⟩ ::
      { top with sFlag := .M0_XCODE_CURSOR_IN } :: rest) := by
  simp [xcodeCursorPre, hf, hagg, hroom, hsub]

/-- Past the last field the frame is finished. -/
lemma xcodeCursorPre_end (top : XcodeFrame) (hf : top.sType.child.length ≤ top.sFieldno) :
    xcodeCursorPre top rest = some (1, { top with sFlag := .M0_XCODE_CURSOR_POST } :: rest) := by
  simp [xcodeCursorPre, not_lt.mpr hf]

end Step

/-! ### Runs of the cursor -/

section Run

/-- A call that returns `+1`, as a run of one step. -/
lemma xcodeSteps_of_next {it : List XcodeFrame} (it' : List XcodeFrame)
    (h : m0XcodeNext it = some (1, it')) :
    Steps xcodeNextStep xcodeEvent it [xcodeEvent it'] it' :=
  Steps.single (by simp [xcodeNextStep, h])

/-- A frame walks its object at depth `d`: from the frame just entered on any `d` frames, the
calls see the walk past its `PRE` and leave the frame finished. -/
def XcodeFrameWalks (d : ℕ) (t : XcodeType) (o : XcodeObj) : Prop :=
  t.Inv = true ∧ ∀ F : List XcodeFrame, F.length = d → ∃ f e,
    Steps xcodeNextStep xcodeEvent (⟨t, o, 0, 0, .M0_XCODE_CURSOR_PRE⟩ :: F) (xcodeWalk d o).tail
      (⟨t, o, f, e, .M0_XCODE_CURSOR_POST⟩ :: F)

/-- The field and element numbers an `IN` call moves a frame to. -/
def xcodeAdvPos (t : XcodeType) (o : XcodeObj) (p : ℕ × ℕ) : ℕ × ℕ :=
  match xcodeCursorIn ⟨t, o, p.1, p.2, .M0_XCODE_CURSOR_IN⟩ with
  | some top => (top.sFieldno, top.sElno)
  | none => p

/-- The children a frame of depth `d` enters from position `p` on: each from the position
where its frame is pushed, with room for it, and walking at depth `d + 1`; past the last one
the position is past the fields. -/
def XcodeChildrenAt (t : XcodeType) (o : XcodeObj) (d : ℕ) :
    ℕ × ℕ → List (XcodeType × XcodeObj) → Prop
  | p, [] => t.child.length ≤ p.1
  | p, c :: cs => p.1 < t.child.length ∧ m0XcodeSubobj t o p.1 p.2 = some c ∧
      d + 1 < M0_XCODE_DEPTH_MAX ∧ XcodeFrameWalks (d + 1) c.1 c.2 ∧
      XcodeChildrenAt t o d (xcodeAdvPos t o p) cs

/-- An `IN` call of an aggregate only moves its field and element numbers. -/
lemma xcodeCursorIn_eq {t : XcodeType} {o : XcodeObj} (p : ℕ × ℕ)
    (hagg : t.aggr ≠ .M0_XA_ATOM) (hopq : t.aggr ≠ .M0_XA_OPAQUE) :
    xcodeCursorIn ⟨t, o, p.1, p.2, .M0_XCODE_CURSOR_IN⟩ =
      some ⟨t, o, (xcodeAdvPos t o p).1, (xcodeAdvPos t o p).2, .M0_XCODE_CURSOR_IN⟩ := by
  rcases t with ⟨aggr, atype, child⟩
  cases aggr <;> simp only [XcodeType.aggr_mk, ne_eq, not_true_eq_false] at hagg hopq <;>
    simp only [xcodeAdvPos, xcodeCursorIn, xcodeElnoCheck, XcodeType.aggr_mk] <;>
    split_ifs <;> rfl

/-- **The children loop**: from a call that enters position `p`, each child is pushed, walked
and popped, the frame going on to the next position, until it is finished. The induction is on
the children left. -/
lemma xcodeChildren_steps {t : XcodeType} {o : XcodeObj} {rest : List XcodeFrame}
    (hinv : t.Inv = true) (hagg : t.aggr ≠ .M0_XA_ATOM) (hopq : t.aggr ≠ .M0_XA_OPAQUE)
    (cs : List (XcodeType × XcodeObj)) :
    ∀ (p : ℕ × ℕ) (st : List XcodeFrame),
      m0XcodeNext st = xcodeCursorPre ⟨t, o, p.1, p.2, .M0_XCODE_CURSOR_IN⟩ rest →
      XcodeChildrenAt t o rest.length p cs →
      ∃ q : ℕ × ℕ, Steps xcodeNextStep xcodeEvent st
        (xcodeWalkSubs rest.length o (cs.map (·.2)) ++
          [⟨.M0_XCODE_CURSOR_POST, rest.length, o⟩])
        (⟨t, o, q.1, q.2, .M0_XCODE_CURSOR_POST⟩ :: rest) := by
  induction cs with
  | nil =>
    intro p st hst hend
    rw [xcodeCursorPre_end ⟨t, o, p.1, p.2, .M0_XCODE_CURSOR_IN⟩ hend] at hst
    exact ⟨p, by simpa [xcodeWalkSubs, xcodeEvent] using xcodeSteps_of_next _ hst⟩
  | cons c cs ih =>
    intro p st hst ⟨hf, hsub, hroom, ⟨hcinv, hwalk⟩, hcs⟩
    set top : XcodeFrame := ⟨t, o, p.1, p.2, .M0_XCODE_CURSOR_IN⟩ with htop
    -- the child's frame is pushed, walked, and popped back to the frame `IN`
    rw [xcodeCursorPre_push top hf hagg hroom hsub] at hst
    have s₁ := xcodeSteps_of_next _ hst
    obtain ⟨f, e, s₂⟩ := hwalk (top :: rest) rfl
    have s₃ := xcodeSteps_of_next _ (m0XcodeNext_pop ⟨c.1, c.2, f, e, .M0_XCODE_CURSOR_POST⟩ top
      rest hcinv rfl (by simp [htop]))
    -- the call after the pop enters the next position
    have hnext : m0XcodeNext (top :: rest) =
        xcodeCursorPre ⟨t, o, (xcodeAdvPos t o p).1, (xcodeAdvPos t o p).2,
          .M0_XCODE_CURSOR_IN⟩ rest := by
      rw [m0XcodeNext_in hinv rfl, htop, xcodeCursorIn_eq p hagg hopq, Option.bind_some]
    obtain ⟨q, s₄⟩ := ih _ _ hnext hcs
    refine ⟨q, ?_⟩
    have hrun := s₁.trans (s₂.trans (s₃.trans s₄))
    simp only [List.map_cons, xcodeWalkSubs]
    rw [xcodeWalk_eq_cons]
    simpa [xcodeEvent, htop] using hrun

end Run

/-! ### The children of each aggregation -/

section Children

variable {d : ℕ} {a : XcodeAtype}

/-- Walks of the sub-objects of a frame of depth `d`, from the induction on the object. -/
def XcodeSubsWalk (d : ℕ) (subs : List XcodeObj) : Prop :=
  ∀ o ∈ subs, ∀ ct : XcodeType, ct.Inv = true → o.Wf ct = true →
    d + 1 < M0_XCODE_DEPTH_MAX ∧ XcodeFrameWalks (d + 1) ct o

lemma XcodeObj.wfFields_cons {f : ℕ × XcodeType} {fs : List (ℕ × XcodeType)} {o : XcodeObj}
    {os : List XcodeObj} :
    XcodeObj.WfFields (f :: fs) (o :: os) = true ↔
      o.Wf f.2 = true ∧ XcodeObj.WfFields fs os = true := by
  rcases f with ⟨tag, ft⟩
  simp [XcodeObj.WfFields]

lemma XcodeObj.length_of_wfFields :
    ∀ {fs : List (ℕ × XcodeType)} {subs : List XcodeObj}, XcodeObj.WfFields fs subs = true →
      fs.length = subs.length
  | [], [], _ => rfl
  | _ :: _, _ :: _, h => by
    rw [List.length_cons, List.length_cons,
      XcodeObj.length_of_wfFields (XcodeObj.wfFields_cons.mp h).2]
  | [], _ :: _, h => by simp [XcodeObj.WfFields] at h
  | _ :: _, [], h => by
    rename_i f _
    rcases f with ⟨tag, ft⟩
    simp [XcodeObj.WfFields] at h

/-- **A record or a typedef** enters its fields in order, field `i` at `(i, 0)`. -/
lemma xcodeChildrenAt_fields {aggr : XcodeAggr}
    (haggr : aggr = .M0_XA_RECORD ∨ aggr = .M0_XA_TYPEDEF) {fs : List (ℕ × XcodeType)}
    {subs : List XcodeObj} (hinv : (XcodeType.mk aggr a fs).Inv = true)
    (hkids : XcodeSubsWalk d subs) :
    ∀ (l : List (ℕ × XcodeType)) (ss : List XcodeObj) (i : ℕ), fs.drop i = l → subs.drop i = ss →
      XcodeObj.WfFields l ss = true →
      XcodeChildrenAt (.mk aggr a fs) (.agg subs) d (i, 0) ((l.map (·.2)).zip ss) := by
  intro l
  induction l with
  | nil =>
    intro ss i hl _ _
    exact List.drop_eq_nil_iff.mp hl
  | cons f l ih =>
    intro ss i hl hs hwf
    rcases ss with _ | ⟨o, ss⟩
    · rcases f with ⟨tag, ft⟩
      simp [XcodeObj.WfFields] at hwf
    obtain ⟨ho, hwf'⟩ := XcodeObj.wfFields_cons.mp hwf
    have hfi : fs[i]? = some f := by rw [← List.head?_drop, hl]; rfl
    have hoi : subs[i]? = some o := by rw [← List.head?_drop, hs]; rfl
    have hi : i < fs.length := (List.getElem?_eq_some_iff.mp hfi).1
    obtain ⟨hroom, hwalk⟩ := hkids o (List.mem_of_getElem? hoi) f.2
      (XcodeType.inv_field hinv (List.mem_of_getElem? hfi)) ho
    have hadv : xcodeAdvPos (.mk aggr a fs) (.agg subs) (i, 0) = (i + 1, 0) := by
      rcases haggr with rfl | rfl <;> rfl
    refine ⟨hi, ?_, hroom, hwalk, ?_⟩
    · rcases haggr with rfl | rfl <;> simp [m0XcodeSubobj, hfi, hoi]
    · rw [hadv]
      exact ih ss (i + 1) (by rw [← List.tail_drop, hl]; rfl) (by rw [← List.tail_drop, hs]; rfl)
        hwf'

/-- The positions of the elements of a sequence of `L` elements: `(1, j)`, then `(2, 0)`. -/
def xcodeSeqPos (L j : ℕ) : ℕ × ℕ := if L ≤ j then (2, 0) else (1, j)

/-- **A sequence** enters its elements `j` at `(1, j)` until the count its counter holds. -/
lemma xcodeChildrenAt_seq {ct et : ℕ} {c e : XcodeType} {n : XcodeObj} {els : List XcodeObj}
    (hinv : (XcodeType.mk .M0_XA_SEQUENCE a [(ct, c), (et, e)]).Inv = true)
    (htag : m0XcodeTag (ct, c) n = els.length) (hels : ∀ o ∈ els, o.Wf e = true)
    (hkids : XcodeSubsWalk d (n :: els)) :
    ∀ (l : List XcodeObj) (j : ℕ), els.drop j = l →
      XcodeChildrenAt (.mk .M0_XA_SEQUENCE a [(ct, c), (et, e)]) (.agg (n :: els)) d
        (xcodeSeqPos els.length j) (l.map (e, ·)) := by
  have he : e.Inv = true := XcodeType.inv_field hinv (f := (et, e)) (by simp)
  intro l
  induction l with
  | nil =>
    intro j hl
    have : els.length ≤ j := List.drop_eq_nil_iff.mp hl
    simp [XcodeChildrenAt, xcodeSeqPos, this]
  | cons o l ih =>
    intro j hl
    have hoj : els[j]? = some o := by rw [← List.head?_drop, hl]; rfl
    have hj : j < els.length := (List.getElem?_eq_some_iff.mp hoj).1
    have hpos : xcodeSeqPos els.length j = (1, j) := by simp [xcodeSeqPos, not_le.mpr hj]
    obtain ⟨hroom, hwalk⟩ := hkids o (List.mem_cons_of_mem _ (List.mem_of_getElem? hoj)) e he
      (hels o (List.mem_of_getElem? hoj))
    have hadv : xcodeAdvPos (.mk .M0_XA_SEQUENCE a [(ct, c), (et, e)]) (.agg (n :: els)) (1, j) =
        xcodeSeqPos els.length (j + 1) := by
      simp [xcodeAdvPos, xcodeCursorIn, xcodeElnoCheck, m0XcodeObjTag, htag, xcodeSeqPos]
      split_ifs <;> rfl
    rw [hpos]
    refine ⟨by simp, ?_, hroom, hwalk, ?_⟩
    · simp [m0XcodeSubobj, Nat.add_comm 1 j, hoj]
    · rw [hadv]
      exact ih (j + 1) (by rw [← List.tail_drop, hl]; rfl)

/-- The positions of the elements of an array of tag `k`: `(0, j)`, then `(2, 0)` once past
the first element and the tag. -/
def xcodeArrPos (k j : ℕ) : ℕ × ℕ := if 0 < j ∧ k ≤ j then (2, 0) else (0, j)

/-- **An array** enters its elements `j` at `(0, j)`: `max k 1` of them, the first whatever
the tag `k`. -/
lemma xcodeChildrenAt_array {k : ℕ} {e : XcodeType} {els : List XcodeObj}
    (hinv : (XcodeType.mk .M0_XA_ARRAY a [(k, e)]).Inv = true)
    (hlen : els.length = max k 1) (hels : ∀ o ∈ els, o.Wf e = true)
    (hkids : XcodeSubsWalk d els) :
    ∀ (l : List XcodeObj) (j : ℕ), els.drop j = l →
      XcodeChildrenAt (.mk .M0_XA_ARRAY a [(k, e)]) (.agg els) d (xcodeArrPos k j)
        (l.map (e, ·)) := by
  have he : e.Inv = true := XcodeType.inv_field hinv (f := (k, e)) (by simp)
  intro l
  induction l with
  | nil =>
    intro j hl
    have : els.length ≤ j := List.drop_eq_nil_iff.mp hl
    have hpos : xcodeArrPos k j = (2, 0) := by
      simp only [xcodeArrPos]
      rw [if_pos (by omega)]
    simp [XcodeChildrenAt, hpos]
  | cons o l ih =>
    intro j hl
    have hoj : els[j]? = some o := by rw [← List.head?_drop, hl]; rfl
    have hj : j < els.length := (List.getElem?_eq_some_iff.mp hoj).1
    have hpos : xcodeArrPos k j = (0, j) := by
      simp only [xcodeArrPos]
      rw [if_neg (by omega)]
    obtain ⟨hroom, hwalk⟩ := hkids o (List.mem_of_getElem? hoj) e he (hels o (List.mem_of_getElem? hoj))
    have hadv : xcodeAdvPos (.mk .M0_XA_ARRAY a [(k, e)]) (.agg els) (0, j) =
        xcodeArrPos k (j + 1) := by
      simp only [xcodeAdvPos, xcodeCursorIn, xcodeElnoCheck, m0XcodeObjTag, xcodeArrPos,
        XcodeType.aggr_mk]
      by_cases hk : k ≤ j + 1 <;> simp [hk]
    rw [hpos]
    refine ⟨by simp, ?_, hroom, hwalk, ?_⟩
    · simp [m0XcodeSubobj, hoj]
    · rw [hadv]
      exact ih (j + 1) (by rw [← List.tail_drop, hl]; rfl)

/-- The branch a union's discriminator selects: the first field of its tag, with the one
sub-object after the discriminator, or no field of that tag and nothing after it. -/
lemma XcodeObj.wfBranch_cases {tag : ℕ} :
    ∀ {brs : List (ℕ × XcodeType)} {rest : List XcodeObj},
      XcodeObj.WfBranch tag brs rest = true →
      (∃ (i : ℕ) (h : i < brs.length) (o : XcodeObj),
        brs.findIdx (fun f => f.1 = tag) = i ∧ rest = [o] ∧ o.Wf brs[i].2 = true) ∨
      (brs.findIdx (fun f => f.1 = tag) = brs.length ∧ rest = [])
  | [], rest, h => by
    simp only [XcodeObj.WfBranch, List.isEmpty_iff] at h
    exact .inr ⟨rfl, h⟩
  | (bt, b) :: brs, rest, h => by
    by_cases hbt : bt = tag
    · simp only [XcodeObj.WfBranch, hbt, if_true] at h
      rcases rest with _ | ⟨o, _ | ⟨_, _⟩⟩ <;> simp only [Bool.false_eq_true] at h
      exact .inl ⟨0, by simp, o, by simp [List.findIdx_cons, hbt], rfl, h⟩
    · simp only [XcodeObj.WfBranch, hbt, if_false] at h
      rcases XcodeObj.wfBranch_cases h with ⟨i, hi, o, hidx, hrest, ho⟩ | ⟨hidx, hrest⟩
      · exact .inl ⟨i + 1, by simp; omega, o, by simp [List.findIdx_cons, hbt, hidx], hrest, ho⟩
      · exact .inr ⟨by simp [List.findIdx_cons, hbt, hidx], hrest⟩

end Children

/-! ### The atoms of a walk -/

section Atoms

variable {d : ℕ}

/-- The value `ctx_walk` copies at an event: that of an atom the cursor has just entered. -/
def XcodeEvent.atomValue (e : XcodeEvent) : Option ℕ :=
  if e.flag = .M0_XCODE_CURSOR_PRE then
    match e.obj with
    | .atom v => some v
    | .agg _ => none
  else none

/-- The values `ctx_walk` copies along a list of events, in order. -/
def xcodeWalkAtoms (evs : List XcodeEvent) : List ℕ := evs.filterMap XcodeEvent.atomValue

@[simp] lemma xcodeWalkAtoms_nil : xcodeWalkAtoms [] = [] := rfl

@[simp] lemma xcodeWalkAtoms_cons (e : XcodeEvent) (evs : List XcodeEvent) :
    xcodeWalkAtoms (e :: evs) = e.atomValue.toList ++ xcodeWalkAtoms evs := by
  cases h : e.atomValue <;> simp [xcodeWalkAtoms, h]

@[simp] lemma xcodeWalkAtoms_append (evs evs' : List XcodeEvent) :
    xcodeWalkAtoms (evs ++ evs') = xcodeWalkAtoms evs ++ xcodeWalkAtoms evs' :=
  List.filterMap_append

/-- The walks of sub-objects copy what each of them copies; the parent back `IN` copies
nothing. -/
lemma xcodeWalkAtoms_subs (p : XcodeObj) : ∀ os : List XcodeObj,
    xcodeWalkAtoms (xcodeWalkSubs d p os) =
      os.flatMap fun o => xcodeWalkAtoms (xcodeWalk (d + 1) o)
  | [] => rfl
  | o :: os => by simp [xcodeWalkSubs, xcodeWalkAtoms_subs p os, XcodeEvent.atomValue]

/-- An aggregate copies what the walks of its sub-objects copy, in order. -/
lemma xcodeWalkAtoms_agg (subs : List XcodeObj) :
    xcodeWalkAtoms (xcodeWalk d (.agg subs)) =
      subs.flatMap fun o => xcodeWalkAtoms (xcodeWalk (d + 1) o) := by
  simp [xcodeWalk, xcodeWalkAtoms_subs, XcodeEvent.atomValue]

/-- The walks of the sub-objects copy their atoms in the codec, from the induction on the
object. -/
def XcodeSubsAtoms (d : ℕ) (subs : List XcodeObj) : Prop :=
  ∀ o ∈ subs, ∀ t : XcodeType, o.Wf t = true →
    xcodeWalkAtoms (xcodeWalk (d + 1) o) = (xcodeAtoms t o).map (·.2)

lemma XcodeSubsAtoms.tail {o : XcodeObj} {os : List XcodeObj} (h : XcodeSubsAtoms d (o :: os)) :
    XcodeSubsAtoms d os :=
  fun o' ho' => h o' (List.mem_cons_of_mem _ ho')

/-- **The elements** of a sequence or an array, all of the element type. -/
lemma xcodeSubsAtoms_elements {e : XcodeType} {els : List XcodeObj}
    (hkids : XcodeSubsAtoms d els) (hels : ∀ o ∈ els, o.Wf e = true) :
    (els.flatMap fun o => xcodeWalkAtoms (xcodeWalk (d + 1) o)) =
      (els.flatMap (xcodeAtoms e)).map (·.2) := by
  rw [List.map_flatMap]
  exact List.flatMap_congr fun o ho => hkids o ho e (hels o ho)

/-- **The fields** of a record or a typedef, each of its own type. -/
lemma xcodeSubsAtoms_fields : ∀ {fs : List (ℕ × XcodeType)} {subs : List XcodeObj},
    XcodeSubsAtoms d subs → XcodeObj.WfFields fs subs = true →
    (subs.flatMap fun o => xcodeWalkAtoms (xcodeWalk (d + 1) o)) =
      (xcodeFieldAtoms fs subs).map (·.2)
  | [], [], _, _ => rfl
  | (tag, ft) :: fs, o :: os, hkids, hwf => by
    obtain ⟨ho, hwf'⟩ := XcodeObj.wfFields_cons.mp hwf
    rw [List.flatMap_cons, xcodeFieldAtoms, List.map_append, hkids o List.mem_cons_self ft ho,
      xcodeSubsAtoms_fields hkids.tail hwf']
  | [], _ :: _, _, hwf => by simp [XcodeObj.WfFields] at hwf
  | (tag, ft) :: fs, [], _, hwf => by simp [XcodeObj.WfFields] at hwf

/-- **The branch** of a union whose discriminator is `tag`: the sub-object after the
discriminator, of the first field of that tag, or none. -/
lemma xcodeSubsAtoms_branch {tag : ℕ} : ∀ {brs : List (ℕ × XcodeType)} {rest : List XcodeObj},
    XcodeSubsAtoms d rest → XcodeObj.WfBranch tag brs rest = true →
    (rest.flatMap fun o => xcodeWalkAtoms (xcodeWalk (d + 1) o)) =
      (xcodeBranchAtoms tag brs rest).map (·.2)
  | [], rest, _, hwf => by
    simp only [XcodeObj.WfBranch, List.isEmpty_iff] at hwf
    subst hwf
    rfl
  | (bt, b) :: brs, rest, hkids, hwf => by
    by_cases hbt : bt = tag
    · simp only [XcodeObj.WfBranch, hbt, if_true] at hwf
      rcases rest with _ | ⟨o, _ | ⟨_, _⟩⟩ <;> simp only [Bool.false_eq_true] at hwf
      simp [xcodeBranchAtoms, hbt, hkids o List.mem_cons_self b hwf]
    · simp only [XcodeObj.WfBranch, hbt, if_false] at hwf
      simp only [xcodeBranchAtoms, hbt, if_false]
      exact xcodeSubsAtoms_branch hkids hwf

/-- **The walk copies the codec's atoms**: the atoms the walk of an object of type `t` enters,
in order, hold the values `ctx_walk` copies, those of `xcodeAtoms`. The induction is on the
object; each aggregation lists its sub-objects as the codec does. -/
theorem xcodeWalk_atoms : ∀ (o : XcodeObj) (t : XcodeType) (d : ℕ), o.Wf t = true →
    xcodeWalkAtoms (xcodeWalk d o) = (xcodeAtoms t o).map (·.2) := by
  intro o
  induction o using XcodeObj.induction with
  | hatom v =>
    intro t d hwf
    rcases t with ⟨aggr, atype, child⟩
    obtain ⟨rfl, rfl⟩ : aggr = .M0_XA_ATOM ∧ child = [] := by
      cases aggr <;> rcases child with _ | ⟨_, _⟩ <;> simp_all [XcodeObj.Wf]
    simp [xcodeWalk, XcodeEvent.atomValue, xcodeAtoms]
  | hagg subs ih =>
    intro t d hwf
    have hkids : XcodeSubsAtoms d subs := fun o ho ct hwfo => ih o ho ct (d + 1) hwfo
    rw [xcodeWalkAtoms_agg]
    rcases t with ⟨aggr, atype, child⟩
    cases aggr with
    | M0_XA_RECORD =>
      rw [xcodeAtoms]
      exact xcodeSubsAtoms_fields hkids (by simpa [XcodeObj.Wf] using hwf)
    | M0_XA_TYPEDEF =>
      -- one field, as one sub-object
      obtain ⟨f, s, rfl, rfl, hfs⟩ : ∃ f s, child = [f] ∧ subs = [s] ∧ s.Wf f.2 = true := by
        rcases child with _ | ⟨f, _ | ⟨_, _⟩⟩ <;> rcases subs with _ | ⟨s, _ | ⟨_, _⟩⟩ <;>
          simp_all [XcodeObj.Wf]
      rcases f with ⟨tag, ft⟩
      rw [xcodeAtoms]
      exact xcodeSubsAtoms_fields hkids (by simpa [XcodeObj.WfFields] using hfs)
    | M0_XA_SEQUENCE =>
      rcases child with _ | ⟨⟨ct, c⟩, _ | ⟨⟨et, e⟩, _ | ⟨_, _⟩⟩⟩ <;>
        rcases subs with _ | ⟨n, els⟩ <;>
        simp only [XcodeObj.Wf, Bool.false_eq_true, Bool.and_eq_true, beq_iff_eq,
          List.all_eq_true] at hwf
      obtain ⟨⟨hn, -⟩, hels⟩ := hwf
      -- the counter, then the elements
      rw [List.flatMap_cons, xcodeAtoms, List.map_append, hkids n List.mem_cons_self c hn,
        xcodeSubsAtoms_elements hkids.tail hels]
    | M0_XA_ARRAY =>
      rcases child with _ | ⟨⟨k, e⟩, _ | ⟨_, _⟩⟩ <;>
        simp only [XcodeObj.Wf, Bool.false_eq_true, Bool.and_eq_true, beq_iff_eq,
          List.all_eq_true] at hwf
      rw [xcodeAtoms]
      exact xcodeSubsAtoms_elements hkids hwf.2
    | M0_XA_UNION =>
      rcases child with _ | ⟨⟨dt, dd⟩, brs⟩ <;> rcases subs with _ | ⟨n, rest⟩ <;>
        simp only [XcodeObj.Wf, Bool.false_eq_true, Bool.and_eq_true] at hwf
      obtain ⟨hn, hbr⟩ := hwf
      -- the discriminator, then the branch of its tag
      rw [List.flatMap_cons, xcodeAtoms, List.map_append, hkids n List.mem_cons_self dd hn,
        xcodeSubsAtoms_branch hkids.tail hbr]
    | M0_XA_OPAQUE => simp [XcodeObj.Wf] at hwf
    | M0_XA_ATOM => simp [XcodeObj.Wf] at hwf

end Atoms

/-! ### The walk -/

section Walk

/-- An aggregate walks when the children it enters from `(0, 0)` are its sub-objects. -/
lemma xcodeFrameWalks_of_children {t : XcodeType} {subs : List XcodeObj} {d : ℕ}
    (cs : List (XcodeType × XcodeObj)) (hinv : t.Inv = true) (hagg : t.aggr ≠ .M0_XA_ATOM)
    (hopq : t.aggr ≠ .M0_XA_OPAQUE) (hcs : cs.map (·.2) = subs)
    (hat : XcodeChildrenAt t (.agg subs) d (0, 0) cs) : XcodeFrameWalks d t (.agg subs) := by
  refine ⟨hinv, fun F hF => ?_⟩
  have hst := m0XcodeNext_pre ⟨t, .agg subs, 0, 0, .M0_XCODE_CURSOR_PRE⟩ F hinv rfl
  rw [← xcodeCursorPre_flag .M0_XCODE_CURSOR_IN] at hst
  obtain ⟨q, hq⟩ := xcodeChildren_steps hinv hagg hopq cs (0, 0) _ hst (hF ▸ hat)
  rw [hcs, hF] at hq
  exact ⟨q.1, q.2, by simpa [xcodeWalk] using hq⟩

/-- **A frame walks its object**: an object of a type satisfying the invariant, entered at
depth `d` with room for its height, is walked by the calls that follow and its frame finished.
The induction is on the object; each aggregation lists the children it enters. -/
theorem xcodeFrame_steps : ∀ (o : XcodeObj) (t : XcodeType) (d : ℕ), t.Inv = true →
    o.Wf t = true → d + o.height ≤ M0_XCODE_DEPTH_MAX → XcodeFrameWalks d t o := by
  intro o
  induction o using XcodeObj.induction with
  | hatom v =>
    intro t d hinv hwf _
    rcases t with ⟨aggr, atype, child⟩
    -- an atom has no field: its frame is finished by the first call
    obtain ⟨rfl, rfl⟩ : aggr = .M0_XA_ATOM ∧ child = [] := by
      cases aggr <;> rcases child with _ | ⟨_, _⟩ <;> simp_all [XcodeObj.Wf]
    refine ⟨hinv, fun F hF => ⟨0, 0, ?_⟩⟩
    have h := m0XcodeNext_pre ⟨.mk .M0_XA_ATOM atype [], .atom v, 0, 0, .M0_XCODE_CURSOR_PRE⟩ F
      hinv rfl
    rw [xcodeCursorPre_end _ (by simp)] at h
    simpa [xcodeWalk, xcodeEvent, hF] using xcodeSteps_of_next _ h
  | hagg subs ih =>
    intro t d hinv hwf hh
    -- each sub-object walks one frame further down
    have hkids : XcodeSubsWalk d subs := by
      intro o ho ct hct hwfo
      have hle := XcodeObj.height_le_heights ho
      have hpos := o.height_pos
      simp only [XcodeObj.height_agg] at hh
      exact ⟨by omega, ih o ho ct (d + 1) hct hwfo (by omega)⟩
    rcases t with ⟨aggr, atype, child⟩
    cases aggr with
    | M0_XA_RECORD =>
      have hwf' : XcodeObj.WfFields child subs = true := by simpa [XcodeObj.Wf] using hwf
      exact xcodeFrameWalks_of_children ((child.map (·.2)).zip subs) hinv (by simp) (by simp)
        (List.map_snd_zip (by simp [XcodeObj.length_of_wfFields hwf']))
        (by simpa using xcodeChildrenAt_fields (Or.inl rfl) hinv hkids child subs 0 rfl rfl hwf')
    | M0_XA_TYPEDEF =>
      obtain ⟨f, s, rfl, rfl, hfs⟩ : ∃ f s, child = [f] ∧ subs = [s] ∧ s.Wf f.2 = true := by
        rcases child with _ | ⟨f, _ | ⟨_, _⟩⟩ <;> rcases subs with _ | ⟨s, _ | ⟨_, _⟩⟩ <;>
          simp_all [XcodeObj.Wf]
      have hwf' : XcodeObj.WfFields [f] [s] = true := by
        rcases f with ⟨tag, ft⟩
        simpa [XcodeObj.WfFields] using hfs
      exact xcodeFrameWalks_of_children [(f.2, s)] hinv (by simp) (by simp) rfl
        (by simpa using xcodeChildrenAt_fields (Or.inr rfl) hinv hkids [f] [s] 0 rfl rfl hwf')
    | M0_XA_SEQUENCE =>
      rcases child with _ | ⟨⟨ct, c⟩, _ | ⟨⟨et, e⟩, _ | ⟨_, _⟩⟩⟩ <;>
        rcases subs with _ | ⟨n, els⟩ <;>
        simp only [XcodeObj.Wf, Bool.false_eq_true, Bool.and_eq_true, beq_iff_eq,
          List.all_eq_true] at hwf
      obtain ⟨⟨hn, htag⟩, hels⟩ := hwf
      obtain ⟨hroom, hwalk⟩ := hkids n List.mem_cons_self c
        (XcodeType.inv_field hinv (f := (ct, c)) (by simp)) hn
      -- the counter, then the elements from `(1, 0)`, or none if the count is `0`
      have hadv : xcodeAdvPos (.mk .M0_XA_SEQUENCE atype [(ct, c), (et, e)]) (.agg (n :: els))
          (0, 0) = xcodeSeqPos els.length 0 := by
        simp [xcodeAdvPos, xcodeCursorIn, xcodeElnoCheck, m0XcodeObjTag, htag, xcodeSeqPos]
        split_ifs <;> rfl
      refine xcodeFrameWalks_of_children ((c, n) :: els.map (e, ·)) hinv (by simp)
        (by simp) (by simp [Function.comp_def]) ⟨by simp, by simp [m0XcodeSubobj], hroom, hwalk, ?_⟩
      rw [hadv]
      exact xcodeChildrenAt_seq hinv htag hels hkids els 0 rfl
    | M0_XA_ARRAY =>
      rcases child with _ | ⟨⟨k, e⟩, _ | ⟨_, _⟩⟩ <;>
        simp only [XcodeObj.Wf, Bool.false_eq_true, Bool.and_eq_true, beq_iff_eq,
          List.all_eq_true] at hwf
      obtain ⟨hlen, hels⟩ := hwf
      have hat := xcodeChildrenAt_array hinv hlen hels hkids subs 0 rfl
      rw [show xcodeArrPos k 0 = (0, 0) by simp [xcodeArrPos]] at hat
      exact xcodeFrameWalks_of_children _ hinv (by simp) (by simp) (by simp [Function.comp_def]) hat
    | M0_XA_UNION =>
      rcases child with _ | ⟨⟨dt, dd⟩, brs⟩ <;> rcases subs with _ | ⟨n, rest⟩ <;>
        simp only [XcodeObj.Wf, Bool.false_eq_true, Bool.and_eq_true] at hwf
      obtain ⟨hn, hbr⟩ := hwf
      obtain ⟨hroom, hwalk⟩ := hkids n List.mem_cons_self dd
        (XcodeType.inv_field hinv (f := (dt, dd)) List.mem_cons_self) hn
      have hadv : xcodeAdvPos (.mk .M0_XA_UNION atype ((dt, dd) :: brs)) (.agg (n :: rest)) (0, 0) =
          (1 + brs.findIdx (fun f => f.1 = m0XcodeTag (dt, dd) n), 0) := by
        simp [xcodeAdvPos, xcodeCursorIn, m0XcodeObjTag]
        rfl
      rcases XcodeObj.wfBranch_cases hbr with ⟨i, hi, o, hidx, rfl, ho⟩ | ⟨hidx, rfl⟩
      · -- the discriminator, then the branch of its tag
        obtain ⟨hroom', hwalk'⟩ := hkids o (by simp) brs[i].2
          (XcodeType.inv_field hinv (List.mem_cons_of_mem _ (List.getElem_mem hi))) ho
        have hadv' : xcodeAdvPos (.mk .M0_XA_UNION atype ((dt, dd) :: brs)) (.agg [n, o])
            (1 + i, 0) = (1 + brs.length, 0) := by
          simp [xcodeAdvPos, xcodeCursorIn]
          omega
        refine xcodeFrameWalks_of_children [(dd, n), (brs[i].2, o)] hinv (by simp)
          (by simp) rfl ⟨by simp, by simp [m0XcodeSubobj], hroom, hwalk, ?_⟩
        rw [hadv, hidx]
        refine ⟨by simp; omega, ?_, hroom', hwalk', ?_⟩
        · simp [m0XcodeSubobj, Nat.add_comm 1 i, hi]
        · rw [hadv']
          simp [XcodeChildrenAt]
      · -- no branch of the tag: the discriminator only
        refine xcodeFrameWalks_of_children [(dd, n)] hinv (by simp) (by simp) rfl
          ⟨by simp, by simp [m0XcodeSubobj], hroom, hwalk, ?_⟩
        rw [hadv, hidx]
        simp [XcodeChildrenAt, Nat.add_comm]
    | M0_XA_OPAQUE => simp [XcodeObj.Wf] at hwf
    | M0_XA_ATOM => simp [XcodeObj.Wf] at hwf

/-- The run from `m0_xcode_cursor_init`: the first call enters the root, the frame walks it,
and the last call pops it. -/
lemma xcodeRun_cursorInit {t : XcodeType} {o : XcodeObj} (hinv : t.Inv = true)
    (hwf : o.Wf t = true) (hh : o.height ≤ M0_XCODE_DEPTH_MAX) :
    xcodeRun ((xcodeWalk 0 o).length + 1) (m0XcodeCursorInit t o) = some (xcodeWalk 0 o, []) := by
  -- the first call enters the root
  have s₀ : Steps xcodeNextStep xcodeEvent (m0XcodeCursorInit t o)
      [⟨.M0_XCODE_CURSOR_PRE, 0, o⟩] [⟨t, o, 0, 0, .M0_XCODE_CURSOR_PRE⟩] :=
    xcodeSteps_of_next [⟨t, o, 0, 0, .M0_XCODE_CURSOR_PRE⟩]
      (by simp [m0XcodeCursorInit, m0XcodeNext, hinv])
  obtain ⟨-, hwalk⟩ := xcodeFrame_steps o t 0 hinv hwf (by omega)
  obtain ⟨f, e, s₁⟩ := hwalk [] rfl
  -- the root finished, the last call pops it and returns `0`
  have hstop : xcodeNextStep [⟨t, o, f, e, .M0_XCODE_CURSOR_POST⟩] = some (false, []) := by
    simp [xcodeNextStep, m0XcodeNext, hinv]
  have hrun := runUntil_of_steps (s₀.trans s₁) hstop 0
  rw [xcodeWalk_eq_cons 0 o]
  simpa [xcodeRun] using hrun

/-- **`m0_xcode_next` walks the object**: on an object of a type satisfying
`m0_xcode_type_invariant` on every type of its tree, whose height fits the
`M0_XCODE_DEPTH_MAX` frames of the cursor, the calls from `m0_xcode_cursor_init` see exactly
the walk of the object, and the call after it returns `0` with the stack emptied. -/
theorem m0XcodeNext_walk {t : XcodeType} {o : XcodeObj} (hinv : t.Inv = true)
    (hwf : o.Wf t = true) (hh : o.height ≤ M0_XCODE_DEPTH_MAX) :
    xcodeRun ((xcodeWalk 0 o).length + 1) (m0XcodeCursorInit t o) = some (xcodeWalk 0 o, []) :=
  xcodeRun_cursorInit hinv hwf hh

theorem m0XcodeNext_walk_record :
    xcodeRun ((xcodeWalk 0 (.agg [.atom 7])).length + 1)
        (m0XcodeCursorInit (.mk .M0_XA_RECORD .M0_XAT_VOID [(0, .mk .M0_XA_ATOM .M0_XAT_U8 [])])
          (.agg [.atom 7])) =
      some (xcodeWalk 0 (.agg [.atom 7]), []) :=
  m0XcodeNext_walk (by decide) (by decide) (by decide)

/-- **The cursor enters the atoms the codec copies**: on an object as in `m0XcodeNext_walk`,
the calls from `m0_xcode_cursor_init` return `0` having entered, each at its `PRE`, the atoms
whose values `ctx_walk` copies to or from the buffer, in the order of `xcodeAtoms`, from which
`xcodeBytes` and `m0XcodeLength` are made. -/
theorem m0XcodeNext_atoms {t : XcodeType} {o : XcodeObj} (hinv : t.Inv = true)
    (hwf : o.Wf t = true) (hh : o.height ≤ M0_XCODE_DEPTH_MAX) :
    ∃ evs, xcodeRun ((xcodeWalk 0 o).length + 1) (m0XcodeCursorInit t o) = some (evs, []) ∧
      xcodeWalkAtoms evs = (xcodeAtoms t o).map (·.2) :=
  ⟨xcodeWalk 0 o, xcodeRun_cursorInit hinv hwf hh, xcodeWalk_atoms o t 0 hwf⟩

theorem m0XcodeNext_atoms_record :
    (XcodeType.mk .M0_XA_RECORD .M0_XAT_VOID [(0, .mk .M0_XA_ATOM .M0_XAT_U8 [])]).Inv = true ∧
    (XcodeObj.agg [.atom 7]).Wf
      (.mk .M0_XA_RECORD .M0_XAT_VOID [(0, .mk .M0_XA_ATOM .M0_XAT_U8 [])]) = true ∧
    (XcodeObj.agg [.atom 7]).height ≤ M0_XCODE_DEPTH_MAX ∧
    ∃ evs, xcodeRun ((xcodeWalk 0 (.agg [.atom 7])).length + 1)
        (m0XcodeCursorInit (.mk .M0_XA_RECORD .M0_XAT_VOID [(0, .mk .M0_XA_ATOM .M0_XAT_U8 [])])
          (.agg [.atom 7])) = some (evs, []) ∧ xcodeWalkAtoms evs = [7] :=
  ⟨by decide, by decide, by decide, m0XcodeNext_atoms (by decide) (by decide) (by decide)⟩

end Walk

end Motr
