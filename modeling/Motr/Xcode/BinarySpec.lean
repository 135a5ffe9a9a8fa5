import Motr.Xcode.Binary
import Motr.Lib.Parse

/-!
The binary round trip of xcode (`xcode/xcode.c`).

* `xcodeDecode_bytes`: an object of type `t`, walked from a frame from which the cursor has
  room for it, decodes from its bytes, whatever follows them.
* `xcodeDecode_append`: a decode that does not run out of buffer reads the same on a longer
  one; a decode that runs out fails with `-EPROTO`. Hence a strict prefix of an object's
  bytes fails with `-EPROTO` (`xcodeDecode_take`).
* `m0Xcode_round_trip`: for an object the cursor has room for and whose size fits an `int`,
  `m0_xcode_length` returns the size, `m0_xcode_encode` writes that many bytes and
  `m0_xcode_decode` reads the object back from them and fails on any shorter buffer.
  `m0Xcode_limits` shows an object too deep for the cursor and one too long for an `int`.
-/

namespace Motr

/-- Induction on a type, with the hypothesis for the type of each of its fields. -/
theorem XcodeType.induction {P : XcodeType → Prop}
    (h : ∀ aggr atype child, (∀ f ∈ child, P f.2) → P (.mk aggr atype child)) :
    ∀ t, P t
  | .mk aggr atype child => h aggr atype child fun f hf =>
    have : sizeOf f.2 < 1 + sizeOf aggr + sizeOf atype + sizeOf child := by
      have h1 := List.sizeOf_lt_of_mem hf
      have h2 : sizeOf f.2 < sizeOf f := by
        rcases f with ⟨tag, ft⟩
        simp only [Prod.mk.sizeOf_spec]
        omega
      omega
    XcodeType.induction h f.2
termination_by t => sizeOf t

section Height

@[simp] lemma XcodeObj.height_atom (v : ℕ) : (XcodeObj.atom v).height = 1 := rfl

@[simp] lemma XcodeObj.height_agg (subs : List XcodeObj) :
    (XcodeObj.agg subs).height = XcodeObj.heights subs + 1 := rfl

@[simp] lemma XcodeObj.heights_nil : XcodeObj.heights [] = 0 := rfl

@[simp] lemma XcodeObj.heights_cons (o : XcodeObj) (os : List XcodeObj) :
    XcodeObj.heights (o :: os) = max o.height (XcodeObj.heights os) := rfl

lemma XcodeObj.height_pos (o : XcodeObj) : 0 < o.height := by
  cases o <;> simp

lemma XcodeObj.height_le_heights {o : XcodeObj} {os : List XcodeObj} (h : o ∈ os) :
    o.height ≤ XcodeObj.heights os := by
  induction os with
  | nil => cases h
  | cons x xs ih =>
    rcases List.mem_cons.1 h with rfl | hx
    · simp
    · simp [ih hx]

end Height

section Bytes

@[simp] lemma xcodeBytes_eq (t : XcodeType) (o : XcodeObj) :
    xcodeBytes t o = (xcodeAtoms t o).flatMap xcodeAtomBytes := rfl

lemma length_flatMap_xcodeAtomBytes (as : List (XcodeAtype × ℕ)) :
    (as.flatMap xcodeAtomBytes).length = (as.map (·.1.sizeof)).sum := by
  induction as with
  | nil => rfl
  | cons a as ih => simp [xcodeAtomBytes, ih]

lemma toCInt_of_lt {n : ℕ} (h : n < 2 ^ 31) : toCInt n = n := by
  unfold toCInt
  rw [if_pos (by omega)]
  omega

end Bytes

section RoundTrip

/-- Objects of type `t` at frame `depth` decode from their bytes. -/
def XcodeRoundTrips (depth : ℕ) (t : XcodeType) : Prop :=
  ∀ o rest, o.Wf t = true → depth + o.height ≤ M0_XCODE_DEPTH_MAX →
    xcodeDecode depth t (xcodeBytes t o ++ rest) = pure (o, rest)

lemma xcodePush_of_lt (depth : ℕ) (h : depth + 1 < M0_XCODE_DEPTH_MAX) :
    xcodePush depth = pure () := by
  simp [xcodePush, h]

/-- The elements of a sequence or an array decode one after the other. -/
lemma xcodeDecodeN_bytes {dec : List UInt8 → XcodeM (XcodeObj × List UInt8)}
    {enc : XcodeObj → List UInt8} {els : List XcodeObj} (rest : List UInt8)
    (hdec : ∀ o ∈ els, ∀ rest, dec (enc o ++ rest) = pure (o, rest)) :
    xcodeDecodeN dec els.length (els.flatMap enc ++ rest) = pure (els, rest) := by
  induction els with
  | nil => rfl
  | cons o os ih =>
    have ho := hdec o List.mem_cons_self
    have hos := ih fun o' ho' => hdec o' (List.mem_cons_of_mem _ ho')
    simp only [List.length_cons, List.flatMap_cons, List.append_assoc, xcodeDecodeN, ho,
      pure_bind, hos]

/-- The fields of a record decode one after the other. -/
lemma xcodeDecodeFields_bytes {depth : ℕ} {fs : List (ℕ × XcodeType)}
    (hfs : ∀ f ∈ fs, XcodeRoundTrips (depth + 1) f.2) {subs : List XcodeObj} (rest : List UInt8)
    (hwf : XcodeObj.WfFields fs subs = true)
    (hh : depth + XcodeObj.heights subs + 1 ≤ M0_XCODE_DEPTH_MAX) :
    xcodeDecodeFields depth fs ((xcodeFieldAtoms fs subs).flatMap xcodeAtomBytes ++ rest) =
      pure (subs, rest) := by
  induction fs generalizing subs with
  | nil =>
    cases subs with
    | nil => rfl
    | cons o os => simp [XcodeObj.WfFields] at hwf
  | cons f fs ih =>
    rcases f with ⟨tag, t⟩
    cases subs with
    | nil => simp [XcodeObj.WfFields] at hwf
    | cons o os =>
      simp only [XcodeObj.WfFields, Bool.and_eq_true] at hwf
      simp only [XcodeObj.heights_cons] at hh
      have ho := hfs (tag, t) List.mem_cons_self o
        ((xcodeFieldAtoms fs os).flatMap xcodeAtomBytes ++ rest) hwf.1 (by omega)
      have hos := ih (fun f hf => hfs f (List.mem_cons_of_mem _ hf)) hwf.2 (by omega)
      have hpush := xcodePush_of_lt depth (by have := o.height_pos; omega)
      simp only [xcodeFieldAtoms, List.flatMap_append, List.append_assoc, xcodeDecodeFields,
        hpush, xcodeBytes_eq] at ho ⊢
      simp [ho, hos]

/-- The branch of a union decodes from its bytes. -/
lemma xcodeDecodeBranch_bytes {depth tag : ℕ} {brs : List (ℕ × XcodeType)}
    (hbrs : ∀ f ∈ brs, XcodeRoundTrips depth f.2) {sub : List XcodeObj} (rest : List UInt8)
    (hwf : XcodeObj.WfBranch tag brs sub = true)
    (hh : depth + XcodeObj.heights sub ≤ M0_XCODE_DEPTH_MAX) :
    xcodeDecodeBranch depth tag brs ((xcodeBranchAtoms tag brs sub).flatMap xcodeAtomBytes ++ rest) =
      pure (sub, rest) := by
  induction brs with
  | nil =>
    simp only [XcodeObj.WfBranch, List.isEmpty_iff] at hwf
    subst hwf
    rfl
  | cons f brs ih =>
    rcases f with ⟨bt, b⟩
    by_cases hbt : bt = tag
    case neg =>
      simp only [XcodeObj.WfBranch, hbt, if_false] at hwf
      simp only [xcodeBranchAtoms, hbt, if_false, xcodeDecodeBranch]
      exact ih (fun f hf => hbrs f (List.mem_cons_of_mem _ hf)) hwf
    case pos =>
      -- the branch is this field, and the union has its one sub-object
      simp only [XcodeObj.WfBranch, hbt, if_true] at hwf
      match sub, hwf with
      | [o], hwf =>
        have ho := hbrs (bt, b) List.mem_cons_self o rest hwf (by simpa using hh)
        simp only [xcodeBranchAtoms, hbt, if_true, xcodeDecodeBranch, xcodeBytes_eq] at ho ⊢
        simp [ho]

/-- The bytes of a list of objects of one type, one after the other. -/
lemma flatMap_xcodeAtoms_bytes (e : XcodeType) (els : List XcodeObj) :
    (els.flatMap (xcodeAtoms e)).flatMap xcodeAtomBytes = els.flatMap (xcodeBytes e) := by
  rw [List.flatMap_assoc]
  rfl

/-- **The round trip**: an object decodes from its bytes, whatever follows them, from a frame
below which the cursor has room for it. The induction is on the type, each aggregate decoding
its sub-objects with the hypothesis for their types. -/
theorem xcodeDecode_bytes (t : XcodeType) : ∀ depth, XcodeRoundTrips depth t := by
  induction t using XcodeType.induction with
  | h aggr atype child ih =>
  intro depth o rest hwf hh
  cases aggr with
  | M0_XA_ATOM =>
    rcases child with _ | ⟨_, _⟩ <;> rcases o with v | _ <;>
      simp only [XcodeObj.Wf, Bool.false_eq_true, decide_eq_true_eq] at hwf
    have hbytes : xcodeBytes (.mk .M0_XA_ATOM atype []) (.atom v) = leBytes atype.sizeof v := by
      simp [xcodeAtoms, xcodeAtomBytes]
    rw [hbytes, xcodeDecode, if_pos (by simp), List.take_left' (length_leBytes _ _),
      List.drop_left' (length_leBytes _ _), leValue_leBytes hwf]
  | M0_XA_RECORD =>
    rcases o with v | subs <;> simp only [XcodeObj.Wf, Bool.false_eq_true] at hwf
    have hfs := xcodeDecodeFields_bytes (fun f hf => ih f hf (depth + 1)) rest hwf
      (by simp only [XcodeObj.height_agg] at hh; omega)
    simp only [xcodeBytes_eq, xcodeAtoms, xcodeDecode, hfs, pure_bind]
  | M0_XA_TYPEDEF =>
    rcases child with _ | ⟨⟨tag, ft⟩, _ | ⟨_, _⟩⟩ <;> rcases o with v | _ | ⟨s, _ | ⟨_, _⟩⟩ <;>
      simp only [XcodeObj.Wf, Bool.false_eq_true] at hwf
    -- a typedef is walked as a record of one field
    have hfs := xcodeDecodeFields_bytes (fun f hf => ih f hf (depth + 1)) rest
      (show XcodeObj.WfFields [(tag, ft)] [s] = true by simp [XcodeObj.WfFields, hwf])
      (by simp only [XcodeObj.height_agg, XcodeObj.heights_cons, XcodeObj.heights_nil] at hh ⊢
          omega)
    simp only [xcodeBytes_eq, xcodeAtoms, xcodeDecode, hfs, pure_bind]
  | M0_XA_SEQUENCE =>
    rcases child with _ | ⟨⟨ct, c⟩, _ | ⟨⟨fst, e⟩, _ | ⟨_, _⟩⟩⟩ <;>
      rcases o with v | _ | ⟨n, els⟩ <;>
      simp only [XcodeObj.Wf, Bool.false_eq_true, Bool.and_eq_true, beq_iff_eq,
        List.all_eq_true] at hwf
    obtain ⟨⟨hn, hcount⟩, hels⟩ := hwf
    simp only [XcodeObj.height_agg, XcodeObj.heights_cons] at hh
    have hc := ih (ct, c) (by simp) (depth + 1) n
      ((els.flatMap (xcodeBytes e)) ++ rest) hn (by omega)
    have hdec : ∀ o ∈ els, ∀ rest,
        xcodeDecode (depth + 1) e (xcodeBytes e o ++ rest) = pure (o, rest) := fun o ho rest =>
      ih (fst, e) (by simp) (depth + 1) o rest (hels o ho)
        (by have := XcodeObj.height_le_heights ho; omega)
    have hpush := xcodePush_of_lt depth (by have := n.height_pos; omega)
    simp only [xcodeBytes_eq, xcodeAtoms, List.flatMap_append, flatMap_xcodeAtoms_bytes,
      List.append_assoc, xcodeDecode, hpush] at hc ⊢
    simp [hc, hcount, xcodeDecodeN_bytes rest hdec]
  | M0_XA_ARRAY =>
    rcases child with _ | ⟨⟨k, e⟩, _ | ⟨_, _⟩⟩ <;> rcases o with v | els <;>
      simp only [XcodeObj.Wf, Bool.false_eq_true, Bool.and_eq_true, beq_iff_eq,
        List.all_eq_true] at hwf
    obtain ⟨hlen, hels⟩ := hwf
    simp only [XcodeObj.height_agg] at hh
    have hdec : ∀ o ∈ els, ∀ rest,
        xcodeDecode (depth + 1) e (xcodeBytes e o ++ rest) = pure (o, rest) := fun o ho rest =>
      ih (k, e) (by simp) (depth + 1) o rest (hels o ho)
        (by have := XcodeObj.height_le_heights ho; omega)
    -- the cursor enters at least one element, so there is a frame below
    have hne : els ≠ [] := by
      rintro rfl
      have := le_max_right k 1
      simp only [List.length_nil] at hlen
      omega
    have hpush := xcodePush_of_lt depth (by
      obtain ⟨o, ho⟩ := List.exists_mem_of_ne_nil els hne
      have := XcodeObj.height_le_heights ho
      have := o.height_pos
      omega)
    simp only [xcodeBytes_eq, xcodeAtoms, flatMap_xcodeAtoms_bytes, xcodeDecode, hpush]
    simp [← hlen, xcodeDecodeN_bytes rest hdec]
  | M0_XA_UNION =>
    rcases child with _ | ⟨⟨dt, d⟩, brs⟩ <;> rcases o with v | _ | ⟨n, sub⟩ <;>
      simp only [XcodeObj.Wf, Bool.false_eq_true, Bool.and_eq_true] at hwf
    obtain ⟨hn, hbr⟩ := hwf
    simp only [XcodeObj.height_agg, XcodeObj.heights_cons] at hh
    have hb := xcodeDecodeBranch_bytes (fun f hf => ih f (List.mem_cons_of_mem _ hf) (depth + 1))
      rest hbr (by omega)
    have hd := ih (dt, d) List.mem_cons_self (depth + 1) n
      ((xcodeBranchAtoms (m0XcodeTag (dt, d) n) brs sub).flatMap xcodeAtomBytes ++ rest) hn
      (by omega)
    have hpush := xcodePush_of_lt depth (by have := n.height_pos; omega)
    simp only [xcodeBytes_eq, xcodeAtoms, List.flatMap_append, List.append_assoc, xcodeDecode,
      hpush] at hd ⊢
    simp [hd, hb]
  | M0_XA_OPAQUE =>
    rcases o with v | subs <;> simp [XcodeObj.Wf] at hwf

end RoundTrip

section Append

/-- Decodes of type `t` from frame `depth` read the same on a longer buffer, or ran out. -/
def XcodeDecodeExtends (depth : ℕ) (t : XcodeType) : Prop :=
  ∀ p e, ParseExtends (-EPROTO) e (xcodeDecode depth t p) (xcodeDecode depth t (p ++ e))

variable {α : Type} {e : List UInt8}

/-- A push of a frame asserts alike on both buffers. -/
lemma ParseExtends.xcodePush (depth : ℕ) {x y : XcodeM (α × List UInt8)}
    (h : ParseExtends (-EPROTO) e x y) :
    ParseExtends (-EPROTO) e (xcodePush depth >>= fun _ => x) (xcodePush depth >>= fun _ => y) := by
  unfold Motr.xcodePush
  split
  · simpa using h
  · exact .lift_none

lemma xcodeDecodeN_extends {dec : List UInt8 → XcodeM (XcodeObj × List UInt8)}
    (hdec : ∀ p, ParseExtends (-EPROTO) e (dec p) (dec (p ++ e))) (n : ℕ) :
    ∀ p, ParseExtends (-EPROTO) e (xcodeDecodeN dec n p) (xcodeDecodeN dec n (p ++ e)) := by
  induction n with
  | zero => exact fun p => .pure' _ _
  | succ n ih =>
    intro p
    exact (hdec p).bind fun _ r => (ih r).bind fun _ _ => .pure' _ _

lemma xcodeDecodeFields_extends {depth : ℕ} {fs : List (ℕ × XcodeType)}
    (hfs : ∀ f ∈ fs, XcodeDecodeExtends (depth + 1) f.2) :
    ∀ p, ParseExtends (-EPROTO) e (xcodeDecodeFields depth fs p)
      (xcodeDecodeFields depth fs (p ++ e)) := by
  induction fs with
  | nil => exact fun p => .pure' _ _
  | cons f fs ih =>
    intro p
    rcases f with ⟨tag, t⟩
    have ht := hfs (tag, t) List.mem_cons_self
    have hfs' := ih fun f hf => hfs f (List.mem_cons_of_mem _ hf)
    exact ParseExtends.xcodePush depth ((ht p e).bind fun _ r => (hfs' r).bind fun _ _ =>
      .pure' _ _)

lemma xcodeDecodeBranch_extends {depth tag : ℕ} {brs : List (ℕ × XcodeType)}
    (hbrs : ∀ f ∈ brs, XcodeDecodeExtends depth f.2) :
    ∀ p, ParseExtends (-EPROTO) e (xcodeDecodeBranch depth tag brs p)
      (xcodeDecodeBranch depth tag brs (p ++ e)) := by
  induction brs with
  | nil => exact fun p => .pure' _ _
  | cons f brs ih =>
    intro p
    rcases f with ⟨bt, b⟩
    unfold xcodeDecodeBranch
    split
    · exact (hbrs (bt, b) List.mem_cons_self p e).bind fun _ _ => .pure' _ _
    · exact ih (fun f hf => hbrs f (List.mem_cons_of_mem _ hf)) p

/-- A decode reads a prefix of its buffer, or runs out of it with `-EPROTO`, or asserts on
any longer buffer as well. -/
theorem xcodeDecode_append (t : XcodeType) : ∀ depth, XcodeDecodeExtends depth t := by
  induction t using XcodeType.induction with
  | h aggr atype child ih =>
  intro depth p e
  cases aggr with
  | M0_XA_ATOM =>
    unfold xcodeDecode
    by_cases hp : atype.sizeof ≤ p.length
    · have hpe : atype.sizeof ≤ (p ++ e).length := by simp; omega
      rw [if_pos hp, if_pos hpe, List.take_append_of_le_length hp,
        List.drop_append_of_le_length hp]
      exact .pure' _ _
    · rw [if_neg hp]
      exact .throw' _
  | M0_XA_RECORD =>
    exact (xcodeDecodeFields_extends (fun f hf => ih f hf (depth + 1)) p).bind fun _ _ =>
      .pure' _ _
  | M0_XA_TYPEDEF =>
    exact (xcodeDecodeFields_extends (fun f hf => ih f hf (depth + 1)) p).bind fun _ _ =>
      .pure' _ _
  | M0_XA_SEQUENCE =>
    rcases child with _ | ⟨⟨ct, c⟩, _ | ⟨⟨fst, el⟩, _ | ⟨_, _⟩⟩⟩
    case cons.cons.nil =>
      have hc := ih (ct, c) (by simp) (depth + 1)
      have hel := ih (fst, el) (by simp) (depth + 1)
      exact ParseExtends.xcodePush depth ((hc p e).bind fun n r =>
        (xcodeDecodeN_extends (fun q => hel q e) _ r).bind fun _ _ => .pure' _ _)
    all_goals exact .lift_none
  | M0_XA_ARRAY =>
    rcases child with _ | ⟨⟨k, el⟩, _ | ⟨_, _⟩⟩
    case cons.nil =>
      have hel := ih (k, el) (by simp) (depth + 1)
      exact ParseExtends.xcodePush depth
        ((xcodeDecodeN_extends (fun q => hel q e) _ p).bind fun _ _ => .pure' _ _)
    all_goals exact .lift_none
  | M0_XA_UNION =>
    rcases child with _ | ⟨⟨dt, d⟩, brs⟩
    case cons =>
      have hd := ih (dt, d) List.mem_cons_self (depth + 1)
      exact ParseExtends.xcodePush depth ((hd p e).bind fun n r =>
        (xcodeDecodeBranch_extends (fun f hf => ih f (List.mem_cons_of_mem _ hf) (depth + 1))
          r).bind fun _ _ => .pure' _ _)
    all_goals exact .lift_none
  | M0_XA_OPAQUE => exact .lift_none

/-- A strict prefix of the bytes of an object runs out: `-EPROTO`. -/
theorem xcodeDecode_take {depth : ℕ} {t : XcodeType} {o : XcodeObj} (hwf : o.Wf t = true)
    (hh : depth + o.height ≤ M0_XCODE_DEPTH_MAX) {k : ℕ} (hk : k < (xcodeBytes t o).length) :
    (xcodeDecode depth t ((xcodeBytes t o).take k)).run = some (.error (-EPROTO)) := by
  have hfull := xcodeDecode_bytes t depth o [] hwf hh
  rw [List.append_nil] at hfull
  have hext := xcodeDecode_append t depth ((xcodeBytes t o).take k) ((xcodeBytes t o).drop k)
  rw [List.take_append_drop, hfull] at hext
  rcases hext with ⟨-, hnone⟩ | ⟨a, r, -, hok⟩ | herr
  · cases hnone
  · -- the whole buffer would have been left over after the prefix's object
    have hdrop : (xcodeBytes t o).drop k = [] := by
      simp only [ExceptT.run_pure, Option.pure_def, Option.some.injEq, Except.ok.injEq,
        Prod.mk.injEq] at hok
      exact (List.append_eq_nil_iff.1 hok.2.symm).2
    simp only [List.drop_eq_nil_iff] at hdrop
    omega
  · exact herr

end Append

section Api

/-- **`m0_xcode_length`, `m0_xcode_encode`, `m0_xcode_decode`**: for an object the cursor has
room for and whose size fits an `int`, the length is the size, the encode writes the object's
bytes into any buffer that large, the decode reads the object back from them and stops right
after them, and fails with `-EPROTO` on any shorter buffer. -/
theorem m0Xcode_round_trip {t : XcodeType} {o : XcodeObj} (hwf : o.Wf t = true)
    (hh : o.height ≤ M0_XCODE_DEPTH_MAX) (hlen : (xcodeBytes t o).length < 2 ^ 31) :
    m0XcodeLength t o = some ((xcodeBytes t o).length : ℤ) ∧
      (∀ room, (xcodeBytes t o).length ≤ room →
        m0XcodeEncode t o room = some (.ok (xcodeBytes t o))) ∧
      (∀ rest, m0XcodeDecode t (xcodeBytes t o ++ rest) = some (.ok (o, rest))) ∧
      ∀ k < (xcodeBytes t o).length,
        m0XcodeDecode t ((xcodeBytes t o).take k) = some (.error (-EPROTO)) := by
  have hsize : ((xcodeAtoms t o).map (·.1.sizeof)).sum = (xcodeBytes t o).length := by
    rw [xcodeBytes_eq, length_flatMap_xcodeAtomBytes]
  refine ⟨?_, fun room hroom => ?_, fun rest => ?_, fun k hk => ?_⟩
  · rw [m0XcodeLength, if_pos hh, hsize, toCInt_of_lt hlen]
  · rw [m0XcodeEncode, if_pos hh, if_pos hroom]
  · rw [m0XcodeDecode, xcodeDecode_bytes t 0 o rest hwf (by omega)]
    rfl
  · exact xcodeDecode_take hwf (by omega) hk

theorem m0Xcode_round_trip_record :
    let t := XcodeType.mk .M0_XA_RECORD .M0_XAT_VOID
      [(0, .mk .M0_XA_ATOM .M0_XAT_U16 []), (0, .mk .M0_XA_SEQUENCE .M0_XAT_VOID
        [(0, .mk .M0_XA_ATOM .M0_XAT_U8 []), (0, .mk .M0_XA_ATOM .M0_XAT_U8 [])])]
    let o := XcodeObj.agg [.atom 513, .agg [.atom 2, .atom 104, .atom 105]]
    (o.Wf t = true ∧ o.height ≤ M0_XCODE_DEPTH_MAX ∧ (xcodeBytes t o).length < 2 ^ 31) ∧
      m0XcodeLength t o = some 5 ∧ m0XcodeDecode t (xcodeBytes t o) = some (.ok (o, [])) := by
  intro t o
  have hwf : o.Wf t = true := by decide
  have hh : o.height ≤ M0_XCODE_DEPTH_MAX := by decide
  have hlen : (xcodeBytes t o).length < 2 ^ 31 := by decide
  obtain ⟨hlength, -, hdec, -⟩ := m0Xcode_round_trip hwf hh hlen
  exact ⟨⟨hwf, hh, hlen⟩, hlength, by simpa using hdec []⟩

lemma XcodeObj.heights_replicate_atom (n v : ℕ) :
    XcodeObj.heights (List.replicate n (.atom v)) ≤ 1 := by
  induction n with
  | zero => simp
  | succ n ih => simp [List.replicate_succ, ih]

/-- A byte sequence with a 32-bit counter of `n` elements: `m0_xcode_length` stores its size,
`4 + n`, in an `int`. -/
lemma m0XcodeLength_byte_sequence (n : ℕ) (hn : n < 2 ^ 32) :
    let t := XcodeType.mk .M0_XA_SEQUENCE .M0_XAT_VOID
      [(0, .mk .M0_XA_ATOM .M0_XAT_U32 []), (0, .mk .M0_XA_ATOM .M0_XAT_U8 [])]
    let o := XcodeObj.agg (.atom n :: List.replicate n (.atom 0))
    o.Wf t = true ∧ o.height ≤ M0_XCODE_DEPTH_MAX ∧ m0XcodeLength t o = some (toCInt (4 + n)) := by
  intro t o
  have hh : o.height ≤ M0_XCODE_DEPTH_MAX := by
    have := XcodeObj.heights_replicate_atom n 0
    simp only [o, XcodeObj.height_agg, XcodeObj.heights_cons, XcodeObj.height_atom,
      M0_XCODE_DEPTH_MAX]
    omega
  refine ⟨?_, hh, ?_⟩
  · simp only [t, o, XcodeObj.Wf, m0XcodeTag, List.all_replicate, XcodeAtype.sizeof,
      List.length_replicate, beq_self_eq_true, Bool.and_true, Nat.reduceMul, Nat.reducePow]
    exact Bool.and_eq_true_iff.2 ⟨decide_eq_true (by omega), by split <;> rfl⟩
  · have hatoms : xcodeAtoms t o = (.M0_XAT_U32, n) :: List.replicate n (.M0_XAT_U8, 0) := by
      simp [t, o, xcodeAtoms, List.flatMap_replicate]
    rw [m0XcodeLength, if_pos hh, hatoms]
    simp [List.map_replicate, List.sum_replicate, XcodeAtype.sizeof]

/-- Two objects the round trip does not cover: eleven nested typedefs of a byte, which the
cursor has no frame for, and a byte sequence of `2^31` bytes, whose size does not fit an
`int`. -/
theorem m0Xcode_limits :
    (∃ t o, o.Wf t = true ∧ m0XcodeLength t o = none ∧ m0XcodeEncode t o 4096 = none ∧
      m0XcodeDecode t (xcodeBytes t o) = none) ∧
    ∃ t o, o.Wf t = true ∧ o.height ≤ M0_XCODE_DEPTH_MAX ∧
      m0XcodeLength t o = some (-(2 ^ 31 - 4)) := by
  refine ⟨⟨(fun t => XcodeType.mk .M0_XA_TYPEDEF .M0_XAT_VOID [(0, t)])^[10]
      (.mk .M0_XA_ATOM .M0_XAT_U8 []), (fun o => XcodeObj.agg [o])^[10] (.atom 7),
      by decide, rfl, rfl, rfl⟩, ?_⟩
  obtain ⟨hwf, hh, hlen⟩ := m0XcodeLength_byte_sequence (2 ^ 31) (by norm_num)
  refine ⟨_, _, hwf, hh, ?_⟩
  rw [hlen]
  unfold toCInt
  norm_num

end Api

end Motr
