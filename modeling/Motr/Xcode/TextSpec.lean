import Motr.Xcode.Text
import Motr.Xcode.BinarySpec

/-!
The text round trip of xcode (`xcode/string.c`): `m0_xcode_read` reads back what
`m0_xcode_print` writes, for the objects whose text it converts (`XcodeObj.Readable`): the
printed atoms are not void, a 32-bit atom is below `2^31` and a 64-bit one below `2^63`, so
that `%i` and `%li` convert their `%#lx` text, and a byte array printed as a string literal
with a counter holds no `"`, at which `string_literal` stops.

* `XcodeTextStop` is what may follow the text of an object inside its parent's: a punctuation
  character or a closing bracket, on which `space_skip`, `sscanf` and `strchr` all stop.
  `xcodeRead_spaceSkip`: the reader skips blanks first.
* `xcodeReadAtom_formatAltHex` and `stringLiteral_quoted`: an atom and a string literal read
  back.
* `xcodeRead_print`: an object of a type that keeps `m0_xcode_type_invariant`, walked from a
  frame with room for it, is printed with its punctuation first and read back from its text
  whatever follows it. Each aggregation is a lemma (`xcodeTextRoundTrips_record` and so on),
  over the fields, the elements or the branch of the aggregate (`xcodeReadFields_print`,
  `xcodeReadElems_print`, `xcodeReadBranch_print`).
* `m0XcodeRead_print`: hence `m0_xcode_print` succeeds and `m0_xcode_read` of its text returns
  the object. `m0XcodeRead_print_fails` shows an object of each kind `Readable` excludes.
-/

namespace Motr

/-- The atoms whose `%#lx` text the reader converts back to them: a value the printer has
(not void), and for 32 and 64 bits one that the `int` of `%i` or the `long` of `%li` holds. -/
def xcodeAtomReadable : XcodeAtype → ℕ → Bool
  | .M0_XAT_VOID, _ => false
  | .M0_XAT_U32, v => v < 2 ^ 31
  | .M0_XAT_U64, v => v < 2 ^ 63
  | _, _ => true

/-- A string literal that `string_literal` reads back: of the fixed length of a void counter,
or without a `"`. -/
def xcodeLiteralReadable (c : XcodeType) (bytes : List ℕ) : Bool :=
  match c with
  | .mk _ .M0_XAT_VOID _ => true
  | _ => !bytes.contains 34

mutual
/-- The objects of type `t` whose text `m0_xcode_read` reads back: the atoms and the string
literals that `m0_xcode_print` writes of them are readable. -/
def XcodeObj.Readable : XcodeType → XcodeObj → Bool
  | .mk .M0_XA_ATOM a _, .atom v => xcodeAtomReadable a v
  | .mk .M0_XA_RECORD _ fs, .agg subs => XcodeObj.ReadableFields fs subs
  | .mk .M0_XA_TYPEDEF _ fs, .agg subs => XcodeObj.ReadableFields fs subs
  | t@(.mk .M0_XA_SEQUENCE _ [(_, c), (_, e)]), o@(.agg (n :: els)) =>
    match quotedString t o with
    | some bytes => xcodeLiteralReadable c bytes
    | none => XcodeObj.Readable c n && els.all (XcodeObj.Readable e)
  | .mk .M0_XA_ARRAY _ [(_, e)], .agg els => els.all (XcodeObj.Readable e)
  | .mk .M0_XA_UNION _ ((dt, d) :: brs), .agg (n :: rest) =>
    XcodeObj.Readable d n && XcodeObj.ReadableBranch (m0XcodeTag (dt, d) n) brs rest
  | _, _ => false

/-- The sub-objects of the fields of a record. -/
def XcodeObj.ReadableFields : List (ℕ × XcodeType) → List XcodeObj → Bool
  | (_, t) :: fs, o :: os => XcodeObj.Readable t o && XcodeObj.ReadableFields fs os
  | _, _ => true

/-- The branch of a union whose discriminator is `tag`. -/
def XcodeObj.ReadableBranch (tag : ℕ) : List (ℕ × XcodeType) → List XcodeObj → Bool
  | [], _ => true
  | (bt, b) :: brs, rest =>
    if bt = tag then
      match rest with
      | [o] => XcodeObj.Readable b o
      | _ => true
    else XcodeObj.ReadableBranch tag brs rest
end

section Skip

/-- A text on which `space_skip` stops at once: empty, or starting with neither a blank nor
`#`. -/
def XcodeNoSkip (s : List Char) : Prop := ∀ c ∈ s.head?, xcodeBlank c = false ∧ c ≠ '#'

/-- The characters that end the text of an object inside its parent's: the punctuation and the
closing brackets. -/
def xcodeStopChars : List Char := [',', ':', '|', ')', '}', ']', '>']

/-- A text that may follow the text of an object inside its parent's. -/
def XcodeTextStop (s : List Char) : Prop := ∀ c ∈ s.head?, c ∈ xcodeStopChars

lemma spaceSkipAux_of_noSkip {s : List Char} (h : XcodeNoSkip s) (fuel : ℕ) :
    spaceSkipAux fuel s = s := by
  rcases fuel with _ | fuel
  · rfl
  · rcases s with _ | ⟨c, cs⟩
    · rfl
    · obtain ⟨hb, hh⟩ := h c rfl
      simp [spaceSkipAux, hb, hh]

lemma spaceSkip_of_noSkip {s : List Char} (h : XcodeNoSkip s) : spaceSkip s = s :=
  spaceSkipAux_of_noSkip h _

/-- `space_skip` stops where it would stop again: each step passes over a character, so the
fuel of the length of the text does not run out. -/
lemma noSkip_spaceSkipAux : ∀ (fuel : ℕ) (s : List Char), s.length ≤ fuel →
    XcodeNoSkip (spaceSkipAux fuel s)
  | 0, s, h => by
    obtain rfl : s = [] := List.length_eq_zero_iff.1 (by omega)
    intro c hc
    cases hc
  | fuel + 1, [], _ => by
    intro c hc
    cases hc
  | fuel + 1, c :: cs, h => by
    simp only [List.length_cons] at h
    simp only [spaceSkipAux]
    split_ifs with hb hh
    · exact noSkip_spaceSkipAux fuel cs (by omega)
    · exact noSkip_spaceSkipAux fuel _ (le_trans (List.length_dropWhile_le _ _) (by omega))
    · intro d hd
      simp only [List.head?_cons, Option.mem_def, Option.some.injEq] at hd
      subst hd
      exact ⟨by simpa using hb, hh⟩

lemma spaceSkip_spaceSkip (s : List Char) : spaceSkip (spaceSkip s) = spaceSkip s :=
  spaceSkip_of_noSkip (noSkip_spaceSkipAux _ _ le_rfl)

/-- The characters that start the text of an object or end it. -/
lemma spaceSkip_cons_of_mem (c : Char)
    (hc : c ∈ xcodeStopChars ++ ['(', '{', '[', '<', '"', '0']) (s : List Char) :
    spaceSkip (c :: s) = c :: s := by
  have hall : ∀ d ∈ xcodeStopChars ++ ['(', '{', '[', '<', '"', '0'],
      xcodeBlank d = false ∧ d ≠ '#' := by simp [xcodeStopChars, xcodeBlank]
  exact spaceSkip_of_noSkip fun d hd => by
    simp only [List.head?_cons, Option.mem_def, Option.some.injEq] at hd
    exact hd ▸ hall c hc

/-- The reader skips blanks first. -/
lemma xcodeRead_spaceSkip (depth : ℕ) (t : XcodeType) (punct : Option Char) (str : List Char) :
    xcodeRead depth t punct (spaceSkip str) = xcodeRead depth t punct str := by
  rw [xcodeRead.eq_def, xcodeRead.eq_def]
  split <;> simp only [spaceSkip_spaceSkip]

@[simp] lemma xcodeTextStop_nil : XcodeTextStop [] := fun _ h => by cases h

@[simp] lemma xcodeTextStop_cons (c : Char) (s : List Char) :
    XcodeTextStop (c :: s) ↔ c ∈ xcodeStopChars := by
  simp [XcodeTextStop]

namespace XcodeTextStop

variable {s r : List Char}

lemma append (hs : XcodeTextStop s) (hr : XcodeTextStop r) : XcodeTextStop (s ++ r) := by
  rcases s with _ | ⟨c, s⟩
  · exact hr
  · simpa using hs

lemma head (h : XcodeTextStop s) {P : Char → Prop} (hP : ∀ c ∈ xcodeStopChars, P c) :
    ∀ c ∈ s.head?, P c :=
  fun c hc => hP c (h c hc)

lemma spaceSkip (h : XcodeTextStop s) : Motr.spaceSkip s = s :=
  spaceSkip_of_noSkip (h.head (by simp [xcodeStopChars, xcodeBlank]))

lemma stopsConstant (h : XcodeTextStop s) : StopsConstant s :=
  h.head (by simp [xcodeStopChars, hexDigitValue])

lemma dropWhile (h : XcodeTextStop s) : s.dropWhile isCSpace = s := by
  rcases s with _ | ⟨c, s⟩
  · rfl
  · have hall : ∀ d ∈ xcodeStopChars, isCSpace d = false := by simp [xcodeStopChars, isCSpace]
    simp [h.head hall c rfl]

end XcodeTextStop

lemma xcodePunctuation_stop (aggr : XcodeAggr) (i : ℕ) :
    XcodeTextStop (xcodePunctuation aggr i).toList := by
  cases aggr <;> rcases i with _ | _ | i <;> simp [xcodePunctuation, xcodeStopChars]

/-- A punctuation that is printed, before a text, makes a text that may follow an object. -/
lemma XcodeTextStop.punct {p : Option Char} (hs : p.isSome) (hp : XcodeTextStop p.toList)
    (s : List Char) : XcodeTextStop (p.toList ++ s) := by
  rcases p with _ | c
  · cases hs
  · simpa using hp

@[simp] lemma charCheck_none (str : List Char) : charCheck none str = pure str := rfl

@[simp] lemma charCheck_some_cons (c : Char) (str : List Char) :
    charCheck (some c) (c :: str) = pure (Motr.spaceSkip str) := by
  simp [charCheck]

/-- The punctuation of an object, and the blanks after it. -/
lemma charCheck_punct {punct : Option Char} (hp : XcodeTextStop punct.toList) (s : List Char) :
    charCheck punct (spaceSkip (punct.toList ++ s)) = pure (spaceSkip s) := by
  rcases punct with _ | c
  · rfl
  · have hc : c ∈ xcodeStopChars := hp c rfl
    rw [Option.toList_some, List.singleton_append, spaceSkip_cons_of_mem c (List.mem_append_left _ hc),
      charCheck_some_cons]

end Skip

section Atoms

lemma formatAltHex_eq_cons (v : ℕ) : ∃ s, formatAltHex v = '0' :: s := by
  unfold formatAltHex
  split <;> simp

/-- An atom printed in `%#lx` reads back, when what follows cannot continue it. -/
lemma xcodeReadAtom_formatAltHex {a : XcodeAtype} {v : ℕ} (hv : v < 2 ^ (8 * a.sizeof))
    (hr : xcodeAtomReadable a v = true) {rest : List Char} (hrest : XcodeTextStop rest) :
    xcodeReadAtom a (formatAltHex v ++ rest) = pure (.atom v, rest) := by
  have hd : (formatAltHex v ++ rest).dropWhile isCSpace = formatAltHex v ++ rest := by
    obtain ⟨s, hs⟩ := formatAltHex_eq_cons v
    simp [hs, isCSpace]
  unfold xcodeReadAtom
  rw [hd, scanInt_formatAltHex v hrest.stopsConstant]
  cases a with
  | M0_XAT_VOID => simp [xcodeAtomReadable] at hr
  | M0_XAT_U8 =>
    simp only [XcodeAtype.sizeof] at hv
    have hrange : -2 ^ 31 ≤ (v : ℤ) ∧ (v : ℤ) < 2 ^ 31 := by omega
    have hmod : ((v : ℤ) % 2 ^ 32).toNat = v := by omega
    dsimp only
    rw [if_pos hrange, hmod, if_pos (by omega), hrest.dropWhile]
  | M0_XAT_U16 =>
    simp only [XcodeAtype.sizeof] at hv
    have hrange : -2 ^ 31 ≤ (v : ℤ) ∧ (v : ℤ) < 2 ^ 31 := by omega
    have hmod : ((v : ℤ) % 2 ^ 16).toNat = v := by omega
    dsimp only
    rw [if_pos hrange, hmod, hrest.dropWhile]
  | M0_XAT_U32 =>
    simp only [xcodeAtomReadable, decide_eq_true_eq] at hr
    have hrange : -2 ^ 31 ≤ (v : ℤ) ∧ (v : ℤ) < 2 ^ 31 := by omega
    have hmod : ((v : ℤ) % 2 ^ 32).toNat = v := by omega
    dsimp only
    rw [if_pos hrange, hmod, hrest.dropWhile]
  | M0_XAT_U64 =>
    simp only [xcodeAtomReadable, decide_eq_true_eq] at hr
    have hrange : -2 ^ 63 ≤ (v : ℤ) ∧ (v : ℤ) < 2 ^ 63 := by omega
    have hmod : ((v : ℤ) % 2 ^ 64).toNat = v := by omega
    dsimp only
    rw [if_pos hrange, hmod, hrest.dropWhile]

end Atoms

section Literal

variable {bytes : List ℕ}

lemma toNat_ofNat_of_printable {b : ℕ} (h : xcodePrintable b = true) : (Char.ofNat b).toNat = b := by
  simp only [xcodePrintable, Bool.and_eq_true, decide_eq_true_eq] at h
  rw [Char.toNat_ofNat, if_pos (Or.inl (by omega))]

/-- The bytes of a string literal, read back one character each. -/
lemma map_ofNat_atom (hpr : bytes.all xcodePrintable = true) :
    (bytes.map Char.ofNat).map (fun c => XcodeObj.atom (c.toNat % 256)) = bytes.map .atom := by
  simp only [List.all_eq_true] at hpr
  simp only [List.map_map]
  refine List.map_congr_left fun b hb => ?_
  have := hpr b hb
  simp only [xcodePrintable, Bool.and_eq_true, decide_eq_true_eq] at this
  simp [toNat_ofNat_of_printable (hpr b hb), Nat.mod_eq_of_lt (by omega : b < 256)]

/-- `strchr` finds the closing `"` of a string literal without one. -/
lemma idxOf?_quote (hpr : bytes.all xcodePrintable = true) (hq : bytes.contains 34 = false)
    (rest : List Char) : (bytes.map Char.ofNat ++ '"' :: rest).idxOf? '"' = some bytes.length := by
  induction bytes with
  | nil => simp [List.idxOf?_cons]
  | cons b bytes ih =>
    simp only [List.all_cons, Bool.and_eq_true, List.contains_cons, Bool.or_eq_false_iff,
      beq_eq_false_iff_ne] at hpr hq
    have hb : Char.ofNat b ≠ '"' := fun h => by
      have := toNat_ofNat_of_printable hpr.1
      rw [h] at this
      exact hq.1 (by simpa using this)
    simp [List.idxOf?_cons, hb, ih hpr.2 hq.2]

lemma drop_literal (rest : List Char) :
    (bytes.map Char.ofNat ++ '"' :: rest).drop (bytes.length + 1) = rest := by
  rw [List.append_cons]
  exact List.drop_left' (by simp)

/-- A string literal reads back: its bytes and, for a counter, their number, which a counter
that holds the number of bytes keeps. -/
lemma stringLiteral_quoted {ct v : ℕ} {a : XcodeAtype} (hv : v < 2 ^ (8 * a.sizeof))
    (htag : m0XcodeTag (ct, .mk .M0_XA_ATOM a []) (.atom v) = bytes.length)
    (hpr : bytes.all xcodePrintable = true)
    (hlit : xcodeLiteralReadable (.mk .M0_XA_ATOM a []) bytes = true) (rest : List Char) :
    stringLiteral (ct, .mk .M0_XA_ATOM a []) (bytes.map Char.ofNat ++ '"' :: rest) =
      pure (.agg (.atom v :: bytes.map .atom), rest) := by
  have hlen : (bytes.map Char.ofNat).length = bytes.length := List.length_map _
  unfold stringLiteral
  split
  case h_1 heq =>
    -- a fixed-length literal: the counter is void, and its tag is the length
    obtain rfl : a = .M0_XAT_VOID := by injection heq
    simp only [m0XcodeTag] at htag
    obtain rfl : v = 0 := by simpa [XcodeAtype.sizeof] using hv
    subst htag
    dsimp only
    rw [List.take_left' hlen, map_ofNat_atom hpr, drop_literal]
  case h_2 _ _ a' _ hne heq =>
    -- a counted literal: the counter holds the number of bytes, up to the `"`
    obtain rfl : a = a' := by injection heq
    have hcount : v = bytes.length := by
      rw [← htag]
      cases a <;> first | exact absurd rfl hne | rfl
    have hq : bytes.contains 34 = false := by
      cases a <;> first | exact absurd rfl hne | simpa [xcodeLiteralReadable] using hlit
    rw [idxOf?_quote hpr hq rest]
    dsimp only
    rw [← hcount, Nat.mod_eq_of_lt hv, hcount, List.take_left' hlen, map_ofNat_atom hpr,
      drop_literal]

end Literal

section Types

/-- The counter of a sequence is an atom. -/
lemma XcodeType.inv_counter {a : XcodeAtype} {ct : ℕ} {c : XcodeType}
    {rest : List (ℕ × XcodeType)} (h : (XcodeType.mk .M0_XA_SEQUENCE a ((ct, c) :: rest)).Inv = true) :
    c.aggr = .M0_XA_ATOM := by
  simp [XcodeType.Inv] at h
  exact h.1.2

lemma m0XcodeIsByteArray_elem {a : XcodeAtype} {ct fst : ℕ} {c e : XcodeType}
    (h : m0XcodeIsByteArray (.mk .M0_XA_SEQUENCE a [(ct, c), (fst, e)]) = true) :
    e = .mk .M0_XA_ATOM .M0_XAT_U8 [] := by
  unfold m0XcodeIsByteArray at h
  split at h
  case h_1 heq =>
    injection heq with _ _ hchild
    injection hchild with _ htl
    injection htl with hhd
    injection hhd
  case h_2 => cases h

lemma quotedString_eq_some {t : XcodeType} {n : XcodeObj} {els : List XcodeObj} {bytes : List ℕ}
    (h : quotedString t (.agg (n :: els)) = some bytes) :
    m0XcodeIsByteArray t = true ∧ bytes = els.map XcodeObj.atomValue ∧
      bytes.all xcodePrintable = true := by
  unfold quotedString at h
  split_ifs at h with hb
  dsimp only at h
  split_ifs at h with hp
  injection h with h
  subst h
  exact ⟨hb, rfl, hp⟩

/-- The elements of a byte array are the atoms of their values. -/
lemma map_atomValue_atom {els : List XcodeObj}
    (h : ∀ o ∈ els, o.Wf (.mk .M0_XA_ATOM .M0_XAT_U8 []) = true) :
    (els.map XcodeObj.atomValue).map .atom = els := by
  induction els with
  | nil => rfl
  | cons o os ih =>
    rcases o with v | subs
    · simp [XcodeObj.atomValue, ih fun o ho => h o (List.mem_cons_of_mem _ ho)]
    · simpa [XcodeObj.Wf] using h _ List.mem_cons_self

end Types

section RoundTrip

/-- Objects of type `t` at frame `depth` are printed with the punctuation they are given first,
and read back from their text whatever follows it that may follow an object. -/
def XcodeTextRoundTrips (depth : ℕ) (t : XcodeType) : Prop :=
  ∀ punct o, XcodeTextStop punct.toList → o.Wf t = true → o.Readable t = true →
    depth + o.height ≤ M0_XCODE_DEPTH_MAX →
    ∃ s, xcodePrint t punct o = some (punct.toList ++ s) ∧
      ∀ rest, XcodeTextStop rest →
        xcodeRead depth t punct (punct.toList ++ s ++ rest) = pure (o, rest)

/-- Every sub-object of a record, a sequence or an array but the first has its punctuation. -/
lemma xcodePunctuation_isSome {aggr : XcodeAggr}
    (h : aggr = .M0_XA_RECORD ∨ aggr = .M0_XA_SEQUENCE ∨ aggr = .M0_XA_ARRAY) {j : ℕ}
    (hj : 0 < j) : (xcodePunctuation aggr j).isSome := by
  rcases j with _ | _ | j
  · omega
  all_goals rcases h with rfl | rfl | rfl <;> rfl

/-- The fields of a record, from the `i`-th: their text, which starts with a punctuation past the
first field, reads back. -/
lemma xcodeReadFields_print {depth : ℕ} {fs : List (ℕ × XcodeType)}
    (hfs : ∀ f ∈ fs, XcodeTextRoundTrips (depth + 1) f.2) :
    ∀ (i : ℕ) {subs : List XcodeObj}, XcodeObj.WfFields fs subs = true →
      XcodeObj.ReadableFields fs subs = true →
      depth + XcodeObj.heights subs + 1 ≤ M0_XCODE_DEPTH_MAX →
      ∃ S, xcodePrintFields .M0_XA_RECORD i fs subs = some S ∧ (0 < i → XcodeTextStop S) ∧
        ∀ rest, XcodeTextStop rest →
          xcodeReadFields depth .M0_XA_RECORD i fs (spaceSkip (S ++ rest)) = pure (subs, rest) := by
  induction fs with
  | nil =>
    intro i subs hwf _ _
    cases subs with
    | nil =>
      refine ⟨[], rfl, fun _ => xcodeTextStop_nil, fun rest hrest => ?_⟩
      simp [xcodeReadFields, hrest.spaceSkip]
    | cons o os => simp [XcodeObj.WfFields] at hwf
  | cons f fs ih =>
    intro i subs hwf hrd hh
    rcases f with ⟨tag, t⟩
    cases subs with
    | nil => simp [XcodeObj.WfFields] at hwf
    | cons o os =>
      simp only [XcodeObj.WfFields, XcodeObj.ReadableFields, Bool.and_eq_true] at hwf hrd
      simp only [XcodeObj.heights_cons] at hh
      obtain ⟨s, hps, hrs⟩ := hfs (tag, t) List.mem_cons_self (xcodePunctuation .M0_XA_RECORD i) o
        (xcodePunctuation_stop _ _) hwf.1 hrd.1 (by omega)
      obtain ⟨S, hpS, hstop, hrS⟩ := ih (fun f hf => hfs f (List.mem_cons_of_mem _ hf)) (i + 1)
        hwf.2 hrd.2 (by omega)
      have hpush := xcodePush_of_lt depth (by have := o.height_pos; omega)
      refine ⟨(xcodePunctuation .M0_XA_RECORD i).toList ++ s ++ S,
        by simp [xcodePrintFields, hps, hpS], fun hi => ?_, fun rest hrest => ?_⟩
      · simpa using XcodeTextStop.punct (xcodePunctuation_isSome (by simp) hi)
          (xcodePunctuation_stop _ _) (s ++ S)
      · have ho := hrs (S ++ rest) ((hstop (by omega)).append hrest)
        simp only [List.append_assoc] at ho ⊢
        simp [xcodeReadFields, hpush, xcodeRead_spaceSkip, ho, hrS rest hrest]

/-- The elements of a sequence or an array, from the `i`-th, each printed by `pr` and read by
`rd`: their text, which starts with a punctuation past the first element, reads back. -/
lemma xcodeReadElems_print {pr : Option Char → XcodeObj → Option (List Char)}
    {rd : Option Char → List Char → XcodeM (XcodeObj × List Char)} {punct : ℕ → Option Char}
    (hpunct : ∀ j, XcodeTextStop (punct j).toList) (hsome : ∀ j, 0 < j → (punct j).isSome)
    (hskip : ∀ p str, rd p (spaceSkip str) = rd p str) {els : List XcodeObj}
    (hels : ∀ o ∈ els, ∀ p, XcodeTextStop p.toList →
      ∃ s, pr p o = some (p.toList ++ s) ∧
        ∀ rest, XcodeTextStop rest → rd p (p.toList ++ s ++ rest) = pure (o, rest))
    (i : ℕ) :
    ∃ S, xcodePrintElems pr punct i els = some S ∧ (0 < i → XcodeTextStop S) ∧
      ∀ rest, XcodeTextStop rest →
        xcodeReadElems rd punct i els.length (spaceSkip (S ++ rest)) = pure (els, rest) := by
  induction els generalizing i with
  | nil =>
    refine ⟨[], rfl, fun _ => xcodeTextStop_nil, fun rest hrest => ?_⟩
    simp [xcodeReadElems, hrest.spaceSkip]
  | cons o os ih =>
    obtain ⟨s, hps, hrs⟩ := hels o List.mem_cons_self (punct i) (hpunct i)
    obtain ⟨S, hpS, hstop, hrS⟩ := ih (fun o ho => hels o (List.mem_cons_of_mem _ ho)) (i + 1)
    refine ⟨(punct i).toList ++ s ++ S, by simp [xcodePrintElems, hps, hpS], fun hi => ?_,
      fun rest hrest => ?_⟩
    · simpa using XcodeTextStop.punct (hsome i hi) (hpunct i) (s ++ S)
    · have ho := hrs (S ++ rest) ((hstop (by omega)).append hrest)
      simp only [List.append_assoc] at ho ⊢
      simp [xcodeReadElems, hskip, ho, hrS rest hrest]

/-- The branch of a union: its text, which starts with `|` if there is one, reads back. -/
lemma xcodeReadBranch_print {depth tag : ℕ} {brs : List (ℕ × XcodeType)}
    (hbrs : ∀ f ∈ brs, XcodeTextRoundTrips depth f.2) {sub : List XcodeObj}
    (hwf : XcodeObj.WfBranch tag brs sub = true) (hrd : XcodeObj.ReadableBranch tag brs sub = true)
    (hh : depth + XcodeObj.heights sub ≤ M0_XCODE_DEPTH_MAX) :
    ∃ S, xcodePrintBranch tag brs sub = some S ∧ XcodeTextStop S ∧
      ∀ rest, XcodeTextStop rest →
        xcodeReadBranch depth tag brs (spaceSkip (S ++ rest)) = pure (sub, rest) := by
  induction brs with
  | nil =>
    simp only [XcodeObj.WfBranch, List.isEmpty_iff] at hwf
    subst hwf
    refine ⟨[], rfl, xcodeTextStop_nil, fun rest hrest => ?_⟩
    simp [xcodeReadBranch, hrest.spaceSkip]
  | cons f brs ih =>
    rcases f with ⟨bt, b⟩
    by_cases hbt : bt = tag
    case neg =>
      simp only [XcodeObj.WfBranch, XcodeObj.ReadableBranch, hbt, if_false] at hwf hrd
      obtain ⟨S, hpS, hstop, hrS⟩ := ih (fun f hf => hbrs f (List.mem_cons_of_mem _ hf)) hwf hrd
      refine ⟨S, by simp [xcodePrintBranch, hbt, hpS], hstop, fun rest hrest => ?_⟩
      simp only [xcodeReadBranch, hbt, if_false]
      exact hrS rest hrest
    case pos =>
      -- the branch is this field, printed after a `|`
      simp only [XcodeObj.WfBranch, XcodeObj.ReadableBranch, hbt, if_true] at hwf hrd
      -- a well-formed branch is one object
      rcases sub with _ | ⟨o, _ | ⟨o', os⟩⟩
      · simp at hwf
      · obtain ⟨s, hps, hrs⟩ := hbrs (bt, b) List.mem_cons_self (xcodePunctuation .M0_XA_UNION 1)
          o (xcodePunctuation_stop _ _) hwf hrd (by simpa using hh)
        refine ⟨(xcodePunctuation .M0_XA_UNION 1).toList ++ s,
          by simp [xcodePrintBranch, hbt, hps], by simp [xcodePunctuation, xcodeStopChars],
          fun rest hrest => ?_⟩
        have ho := hrs rest hrest
        simp only [List.append_assoc] at ho
        simp [xcodeReadBranch, hbt, xcodeRead_spaceSkip, ho, hrest.spaceSkip]
      · simp at hwf

end RoundTrip

-- The lemmas of the next section unfold the reader, the printer and the predicates on objects
-- side by side; their equation lemmas are generated here once, before those proofs start.
section
attribute [local simp] xcodeRead.eq_1 xcodePrint.eq_1 xcodeReadFields.eq_1 xcodePrintFields.eq_1
  xcodePunctuation.eq_1 XcodeObj.Wf.eq_1 XcodeObj.Readable.eq_1 xcodeAtomReadable.eq_1
  quotedString.eq_1 charCheck.eq_1 xcodeReadAtom.eq_1 xcodeLiteralReadable.eq_1
end

section Aggregates

variable {depth : ℕ} {a : XcodeAtype}

lemma xcodeTextRoundTrips_atom {child : List (ℕ × XcodeType)} :
    XcodeTextRoundTrips depth (.mk .M0_XA_ATOM a child) := by
  intro punct o hp hwf hrd _
  rcases child with _ | ⟨_, _⟩ <;> rcases o with v | _ <;>
    simp only [XcodeObj.Wf, Bool.false_eq_true, decide_eq_true_eq] at hwf
  simp only [XcodeObj.Readable] at hrd
  have ha : a ≠ .M0_XAT_VOID := by
    rintro rfl
    simp [xcodeAtomReadable] at hrd
  refine ⟨formatAltHex v, by simp [xcodePrint, ha], fun rest hrest => ?_⟩
  obtain ⟨s, hs⟩ := formatAltHex_eq_cons v
  have hskip : spaceSkip (formatAltHex v ++ rest) = formatAltHex v ++ rest := by
    rw [hs]
    exact spaceSkip_cons_of_mem '0' (by simp) _
  simp [xcodeRead, charCheck_punct hp, hskip, xcodeReadAtom_formatAltHex hwf hrd hrest,
    hrest.spaceSkip]

lemma xcodeTextRoundTrips_record {fs : List (ℕ × XcodeType)}
    (hfs : ∀ f ∈ fs, XcodeTextRoundTrips (depth + 1) f.2) :
    XcodeTextRoundTrips depth (.mk .M0_XA_RECORD a fs) := by
  intro punct o hp hwf hrd hh
  rcases o with v | subs
  · simp [XcodeObj.Wf] at hwf
  simp only [XcodeObj.Wf] at hwf
  simp only [XcodeObj.Readable] at hrd
  simp only [XcodeObj.height_agg] at hh
  obtain ⟨S, hS, -, hread⟩ := xcodeReadFields_print hfs 0 hwf hrd (by omega)
  refine ⟨'(' :: S ++ [')'], by simp [xcodePrint, hS], fun rest hrest => ?_⟩
  have hf := hread (')' :: rest) (by simp [xcodeStopChars])
  simp [xcodeRead, charCheck_punct hp, spaceSkip_cons_of_mem '(' (by simp), hf,
    spaceSkip_cons_of_mem ')' (by simp [xcodeStopChars]), hrest.spaceSkip]

lemma xcodeTextRoundTrips_typedef {child : List (ℕ × XcodeType)}
    (hf : ∀ f ∈ child, XcodeTextRoundTrips (depth + 1) f.2) :
    XcodeTextRoundTrips depth (.mk .M0_XA_TYPEDEF a child) := by
  intro punct o hp hwf hrd hh
  rcases child with _ | ⟨⟨tag, ft⟩, _ | ⟨_, _⟩⟩ <;> rcases o with v | _ | ⟨s, _ | ⟨_, _⟩⟩ <;>
    simp only [XcodeObj.Wf, Bool.false_eq_true] at hwf
  simp only [XcodeObj.Readable, XcodeObj.ReadableFields, Bool.and_true] at hrd
  simp only [XcodeObj.height_agg, XcodeObj.heights_cons, XcodeObj.heights_nil] at hh
  -- the one field of a typedef is printed and read with no punctuation
  obtain ⟨sf, hps, hrs⟩ := hf (tag, ft) List.mem_cons_self none s xcodeTextStop_nil hwf hrd
    (by omega)
  have hpush := xcodePush_of_lt depth (by have := s.height_pos; omega)
  refine ⟨sf, by simpa [xcodePrint, xcodePrintFields, xcodePunctuation] using hps,
    fun rest hrest => ?_⟩
  have ho := hrs rest hrest
  simp only [Option.toList_none, List.nil_append] at ho
  simp [xcodeRead, charCheck_punct hp, xcodeReadFields, hpush, xcodePunctuation,
    xcodeRead_spaceSkip, ho, hrest.spaceSkip]

lemma xcodeTextRoundTrips_array {child : List (ℕ × XcodeType)}
    (hf : ∀ f ∈ child, XcodeTextRoundTrips (depth + 1) f.2) :
    XcodeTextRoundTrips depth (.mk .M0_XA_ARRAY a child) := by
  intro punct o hp hwf hrd hh
  rcases child with _ | ⟨⟨k, e⟩, _ | ⟨_, _⟩⟩ <;> rcases o with v | els <;>
    simp only [XcodeObj.Wf, Bool.false_eq_true, Bool.and_eq_true, beq_iff_eq,
      List.all_eq_true] at hwf
  obtain ⟨hlen, hels⟩ := hwf
  simp only [XcodeObj.Readable, List.all_eq_true] at hrd
  simp only [XcodeObj.height_agg] at hh
  obtain ⟨S, hS, -, hrS⟩ := xcodeReadElems_print (xcodePunctuation_stop .M0_XA_ARRAY)
    (fun _ => xcodePunctuation_isSome (by simp)) (xcodeRead_spaceSkip (depth + 1) e)
    (fun o ho p hp => hf (k, e) List.mem_cons_self p o hp (hels o ho) (hrd o ho)
      (by have := XcodeObj.height_le_heights ho; omega)) 0
  -- the cursor enters at least one element, so there is a frame below
  have hpush := xcodePush_of_lt depth (by
    obtain ⟨o, ho⟩ := List.exists_mem_of_ne_nil els (by
      rintro rfl
      have := le_max_right k 1
      simp only [List.length_nil] at hlen
      omega)
    have := XcodeObj.height_le_heights ho
    have := o.height_pos
    omega)
  refine ⟨'<' :: S ++ ['>'], by simp [xcodePrint, hS], fun rest hrest => ?_⟩
  have he := hrS ('>' :: rest) (by simp [xcodeStopChars])
  rw [hlen] at he
  simp [xcodeRead, charCheck_punct hp, spaceSkip_cons_of_mem '<' (by simp), hpush, he,
    spaceSkip_cons_of_mem '>' (by simp [xcodeStopChars]), hrest.spaceSkip]

lemma xcodeTextRoundTrips_union {child : List (ℕ × XcodeType)}
    (hf : ∀ f ∈ child, XcodeTextRoundTrips (depth + 1) f.2) :
    XcodeTextRoundTrips depth (.mk .M0_XA_UNION a child) := by
  intro punct o hp hwf hrd hh
  rcases child with _ | ⟨⟨dt, d⟩, brs⟩ <;> rcases o with v | _ | ⟨n, sub⟩ <;>
    simp only [XcodeObj.Wf, Bool.false_eq_true, Bool.and_eq_true] at hwf
  obtain ⟨hn, hbr⟩ := hwf
  simp only [XcodeObj.Readable, Bool.and_eq_true] at hrd
  simp only [XcodeObj.height_agg, XcodeObj.heights_cons] at hh
  -- the discriminator is printed and read with no punctuation
  obtain ⟨sn, hpn, hrn⟩ := hf (dt, d) List.mem_cons_self none n xcodeTextStop_nil hn hrd.1
    (by omega)
  obtain ⟨S, hS, hstop, hrS⟩ := xcodeReadBranch_print
    (fun f hf' => hf f (List.mem_cons_of_mem _ hf')) hbr hrd.2 (by omega)
  have hpush := xcodePush_of_lt depth (by have := n.height_pos; omega)
  simp only [Option.toList_none, List.nil_append] at hpn
  refine ⟨'{' :: sn ++ S ++ ['}'], by simp [xcodePrint, hpn, hS], fun rest hrest => ?_⟩
  have hd := hrn (S ++ '}' :: rest) (hstop.append (by simp [xcodeStopChars]))
  simp only [Option.toList_none, List.nil_append] at hd
  have hb := hrS ('}' :: rest) (by simp [xcodeStopChars])
  simp [xcodeRead, charCheck_punct hp, spaceSkip_cons_of_mem '{' (by simp), hpush,
    xcodePunctuation, xcodeRead_spaceSkip, hd, hb,
    spaceSkip_cons_of_mem '}' (by simp [xcodeStopChars]), hrest.spaceSkip]

lemma xcodeTextRoundTrips_sequence {child : List (ℕ × XcodeType)}
    (hinv : (XcodeType.mk .M0_XA_SEQUENCE a child).Inv = true)
    (hf : ∀ f ∈ child, XcodeTextRoundTrips (depth + 1) f.2) :
    XcodeTextRoundTrips depth (.mk .M0_XA_SEQUENCE a child) := by
  intro punct o hp hwf hrd hh
  rcases child with _ | ⟨⟨ct, c⟩, _ | ⟨⟨fst, e⟩, _ | ⟨_, _⟩⟩⟩ <;>
    rcases o with v | _ | ⟨n, els⟩ <;>
    simp only [XcodeObj.Wf, Bool.false_eq_true, Bool.and_eq_true, beq_iff_eq,
      List.all_eq_true] at hwf
  obtain ⟨⟨hn, hcount⟩, hels⟩ := hwf
  simp only [XcodeObj.height_agg, XcodeObj.heights_cons] at hh
  cases hq : quotedString (.mk .M0_XA_SEQUENCE a [(ct, c), (fst, e)]) (.agg (n :: els)) with
  | some bytes =>
    -- a string literal, whose counter the invariant makes an atom
    obtain ⟨hba, rfl, hpr⟩ := quotedString_eq_some hq
    obtain rfl := m0XcodeIsByteArray_elem hba
    have hc := XcodeType.inv_counter hinv
    rcases c with ⟨caggr, ca, cc⟩
    obtain rfl : caggr = .M0_XA_ATOM := hc
    rcases cc with _ | ⟨_, _⟩ <;> rcases n with v | _ <;>
      simp only [XcodeObj.Wf, Bool.false_eq_true, decide_eq_true_eq] at hn
    have hlit : xcodeLiteralReadable (.mk .M0_XA_ATOM ca []) (els.map XcodeObj.atomValue) :=
      by simpa [XcodeObj.Readable, hq] using hrd
    have hl := stringLiteral_quoted hn (by rw [List.length_map]; exact hcount) hpr hlit
    rw [map_atomValue_atom hels] at hl
    simp only [List.map_map] at hl
    refine ⟨'"' :: (els.map XcodeObj.atomValue).map Char.ofNat ++ ['"'],
      by simp [xcodePrint, hq], fun rest hrest => ?_⟩
    simp [xcodeRead, charCheck_punct hp, spaceSkip_cons_of_mem '"' (by simp), hba, hl]
  | none =>
    -- brackets around the counter and the elements
    simp only [XcodeObj.Readable, hq, Bool.and_eq_true, List.all_eq_true] at hrd
    obtain ⟨sn, hpn, hrn⟩ := hf (ct, c) List.mem_cons_self none n xcodeTextStop_nil hn hrd.1
      (by omega)
    obtain ⟨S, hS, hstop, hrS⟩ := xcodeReadElems_print (xcodePunctuation_stop .M0_XA_SEQUENCE)
      (fun _ => xcodePunctuation_isSome (by simp)) (xcodeRead_spaceSkip (depth + 1) e)
      (fun o ho p hp => hf (fst, e) (by simp) p o hp (hels o ho) (hrd.2 o ho)
        (by have := XcodeObj.height_le_heights ho; omega)) 1
    have hpush := xcodePush_of_lt depth (by have := n.height_pos; omega)
    simp only [Option.toList_none, List.nil_append] at hpn
    refine ⟨'[' :: sn ++ S ++ [']'], by simp [xcodePrint, hq, hpn, hS], fun rest hrest => ?_⟩
    have hd := hrn (S ++ ']' :: rest) ((hstop one_pos).append (by simp [xcodeStopChars]))
    simp only [Option.toList_none, List.nil_append] at hd
    have he := hrS (']' :: rest) (by simp [xcodeStopChars])
    rw [← hcount] at he
    simp [xcodeRead, charCheck_punct hp, spaceSkip_cons_of_mem '[' (by simp), hpush,
      xcodePunctuation, xcodeRead_spaceSkip, hd, he,
      spaceSkip_cons_of_mem ']' (by simp [xcodeStopChars]), hrest.spaceSkip]

lemma xcodeTextRoundTrips_opaque {child : List (ℕ × XcodeType)} :
    XcodeTextRoundTrips depth (.mk .M0_XA_OPAQUE a child) := by
  intro punct o _ hwf
  rcases o with v | subs <;> simp [XcodeObj.Wf] at hwf

end Aggregates

/-- **The text round trip**: an object of a type that keeps `m0_xcode_type_invariant`, readable
and walked from a frame with room for it, is printed with its punctuation first and read back
from its text whatever follows it that may follow an object. The induction is on the type, each
aggregation reading its sub-objects with the hypothesis for their types. -/
theorem xcodeRead_print (t : XcodeType) (ht : t.Inv = true) :
    ∀ depth, XcodeTextRoundTrips depth t := by
  induction t using XcodeType.induction with
  | h aggr atype child ih =>
  have hf : ∀ depth, ∀ f ∈ child, XcodeTextRoundTrips depth f.2 :=
    fun depth f hf => ih f hf (XcodeType.inv_field ht hf) depth
  intro depth
  cases aggr with
  | M0_XA_ATOM => exact xcodeTextRoundTrips_atom
  | M0_XA_RECORD => exact xcodeTextRoundTrips_record (hf (depth + 1))
  | M0_XA_TYPEDEF => exact xcodeTextRoundTrips_typedef (hf (depth + 1))
  | M0_XA_SEQUENCE => exact xcodeTextRoundTrips_sequence ht (hf (depth + 1))
  | M0_XA_ARRAY => exact xcodeTextRoundTrips_array (hf (depth + 1))
  | M0_XA_UNION => exact xcodeTextRoundTrips_union (hf (depth + 1))
  | M0_XA_OPAQUE => exact xcodeTextRoundTrips_opaque


section Api

/-- **`m0_xcode_print` and `m0_xcode_read`**: for an object of a type that keeps
`m0_xcode_type_invariant`, which the cursor has room for and whose text the reader converts,
the print succeeds and the read of its text returns the object. -/
theorem m0XcodeRead_print {t : XcodeType} {o : XcodeObj} (ht : t.Inv = true)
    (hwf : o.Wf t = true) (hrd : o.Readable t = true) (hh : o.height ≤ M0_XCODE_DEPTH_MAX) :
    ∃ s, m0XcodePrint t o = some s ∧ m0XcodeRead t s = some (.ok o) := by
  obtain ⟨s, hps, hrs⟩ := xcodeRead_print t ht 0 none o xcodeTextStop_nil hwf hrd (by omega)
  have hread := hrs [] xcodeTextStop_nil
  simp only [Option.toList_none, List.nil_append, List.append_nil] at hps hread
  refine ⟨s, by rw [m0XcodePrint, if_pos hh, hps], ?_⟩
  simp [m0XcodeRead, hread]

theorem m0XcodeRead_print_record :
    let t := XcodeType.mk .M0_XA_RECORD .M0_XAT_VOID
      [(0, .mk .M0_XA_ATOM .M0_XAT_U16 []),
        (0, .mk .M0_XA_SEQUENCE .M0_XAT_VOID
          [(0, .mk .M0_XA_ATOM .M0_XAT_U8 []), (0, .mk .M0_XA_ATOM .M0_XAT_U8 [])]),
        (0, .mk .M0_XA_ARRAY .M0_XAT_VOID [(2, .mk .M0_XA_ATOM .M0_XAT_U32 [])]),
        (0, .mk .M0_XA_UNION .M0_XAT_VOID
          [(0, .mk .M0_XA_ATOM .M0_XAT_U8 []), (1, .mk .M0_XA_ATOM .M0_XAT_U64 []),
            (2, .mk .M0_XA_ATOM .M0_XAT_U8 [])])]
    let o := XcodeObj.agg [.atom 513, .agg [.atom 2, .atom 104, .atom 105],
      .agg [.atom 0, .atom 17], .agg [.atom 1, .atom 5]]
    (t.Inv = true ∧ o.Wf t = true ∧ o.Readable t = true ∧ o.height ≤ M0_XCODE_DEPTH_MAX) ∧
      m0XcodePrint t o = some "(0x201,\"hi\",<0,0x11>,{0x1|0x5})".toList ∧
      m0XcodeRead t "(0x201,\"hi\",<0,0x11>,{0x1|0x5})".toList = some (.ok o) := by
  intro t o
  have ht : t.Inv = true := by decide
  have hwf : o.Wf t = true := by decide
  have hrd : o.Readable t = true := by decide
  have hh : o.height ≤ M0_XCODE_DEPTH_MAX := by decide
  have hprint : m0XcodePrint t o = some "(0x201,\"hi\",<0,0x11>,{0x1|0x5})".toList := by decide
  obtain ⟨s, hps, hread⟩ := m0XcodeRead_print ht hwf hrd hh
  rw [hprint, Option.some.injEq] at hps
  exact ⟨⟨ht, hwf, hrd, hh⟩, hprint, hps ▸ hread⟩

/-- Three objects the round trip does not cover: a counted byte array holding a `"`, which
the printer writes as a string literal the reader cuts short; a 32-bit atom of `2^31`, whose
text `%i` does not convert to an `int`; and a fixed-length byte array with an unprintable
byte, whose void counter the printer cannot print. -/
theorem m0XcodeRead_print_fails :
    (∃ t o, t.Inv = true ∧ o.Wf t = true ∧ o.height ≤ M0_XCODE_DEPTH_MAX ∧
      m0XcodePrint t o = some ['"', '"', '"'] ∧
      m0XcodeRead t ['"', '"', '"'] = some (.error (-EINVAL))) ∧
    (∃ t o, t.Inv = true ∧ o.Wf t = true ∧ o.height ≤ M0_XCODE_DEPTH_MAX ∧
      m0XcodePrint t o = some "0x80000000".toList ∧ m0XcodeRead t "0x80000000".toList = none) ∧
    ∃ t o, t.Inv = true ∧ o.Wf t = true ∧ o.height ≤ M0_XCODE_DEPTH_MAX ∧
      m0XcodePrint t o = none := by
  refine ⟨⟨.mk .M0_XA_SEQUENCE .M0_XAT_VOID
      [(0, .mk .M0_XA_ATOM .M0_XAT_U8 []), (0, .mk .M0_XA_ATOM .M0_XAT_U8 [])],
      .agg [.atom 1, .atom 34], by decide, by decide, by decide, by decide, rfl⟩,
    ⟨.mk .M0_XA_ATOM .M0_XAT_U32 [], .atom (2 ^ 31), by decide, by decide, by decide, by decide,
      rfl⟩,
    .mk .M0_XA_SEQUENCE .M0_XAT_VOID
      [(1, .mk .M0_XA_ATOM .M0_XAT_VOID []), (0, .mk .M0_XA_ATOM .M0_XAT_U8 [])],
    .agg [.atom 0, .atom 7], by decide, by decide, by decide, rfl⟩

end Api

end Motr
