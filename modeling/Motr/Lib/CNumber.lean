import Mathlib

/-!
Integers as the C library writes and reads them: `printf("%#lx", v)`, which writes `0` or
`0x` and the lower-case hexadecimal digits, and the `%i` conversion of `scanf`, which reads
white space, an optional sign and an integer constant in the base its prefix gives (`0x` for
hexadecimal, `0` for octal, decimal otherwise), as `strtol` with base `0` does.

`scanInt_formatAltHex` is the round trip: what `%#lx` writes, `%i` reads back, provided the
text that follows cannot continue the constant.
-/

namespace Motr

/-- `isspace` in the C locale. -/
def isCSpace (c : Char) : Bool :=
  c = ' ' || c = '\t' || c = '\n' || c = '\x0b' || c = '\x0c' || c = '\r'

/-- The value of a hexadecimal digit of either case. -/
def hexDigitValue (c : Char) : Option ℕ :=
  if '0' ≤ c ∧ c ≤ '9' then some (c.toNat - '0'.toNat)
  else if 'a' ≤ c ∧ c ≤ 'f' then some (c.toNat - 'a'.toNat + 10)
  else if 'A' ≤ c ∧ c ≤ 'F' then some (c.toNat - 'A'.toNat + 10)
  else none

/-- The lower-case hexadecimal digit of a number below `16`. -/
def hexChar (d : ℕ) : Char := if d < 10 then Char.ofNat (48 + d) else Char.ofNat (87 + d)

/-- The digits of base `base` at the head of a string, accumulated onto `acc`, and the rest. -/
def scanDigits (base acc : ℕ) : List Char → ℕ × List Char
  | [] => (acc, [])
  | c :: cs =>
    match hexDigitValue c with
    | some d => if d < base then scanDigits base (acc * base + d) cs else (acc, c :: cs)
    | none => (acc, c :: cs)

/-- The integer constant at the head of a string and the rest: `0x` followed by a hexadecimal
digit opens a hexadecimal constant, `0` an octal one, another digit a decimal one. -/
def scanMagnitude : List Char → Option (ℕ × List Char)
  | '0' :: x :: c :: cs =>
    if (x = 'x' ∨ x = 'X') ∧ (hexDigitValue c).isSome then some (scanDigits 16 0 (c :: cs))
    else some (scanDigits 8 0 (x :: c :: cs))
  | '0' :: cs => some (scanDigits 8 0 cs)
  | c :: cs =>
    match hexDigitValue c with
    | some d => if d < 10 then some (scanDigits 10 d cs) else none
    | none => none
  | [] => none

/-- The `%i` conversion: white space, an optional sign, an integer constant. -/
def scanInt (s : List Char) : Option (ℤ × List Char) :=
  match s.dropWhile isCSpace with
  | '-' :: cs => (scanMagnitude cs).map fun r => (-(r.1 : ℤ), r.2)
  | '+' :: cs => (scanMagnitude cs).map fun r => ((r.1 : ℤ), r.2)
  | cs => (scanMagnitude cs).map fun r => ((r.1 : ℤ), r.2)

/-- `printf("%#lx", v)`: `0` for zero, otherwise `0x` and the hexadecimal digits. -/
def formatAltHex (v : ℕ) : List Char :=
  if v = 0 then ['0'] else '0' :: 'x' :: ((Nat.digits 16 v).reverse.map hexChar)

/-- Text that cannot continue an integer constant. -/
def StopsConstant (rest : List Char) : Prop :=
  ∀ c ∈ rest.head?, hexDigitValue c = none ∧ c ≠ 'x' ∧ c ≠ 'X'

lemma hexDigitValue_hexChar {d : ℕ} (h : d < 16) : hexDigitValue (hexChar d) = some d := by
  interval_cases d <;> rfl

/-- The digits of a list, written out and scanned back, accumulate as a fold. -/
lemma scanDigits_map_hexChar {base : ℕ} (acc : ℕ) {ds : List ℕ} {rest : List Char} (hb : base ≤ 16)
    (hds : ∀ d ∈ ds, d < base) (hrest : StopsConstant rest) :
    scanDigits base acc (ds.map hexChar ++ rest) =
      (ds.foldl (fun a d => a * base + d) acc, rest) := by
  induction ds generalizing acc with
  | nil =>
    cases rest with
    | nil => rfl
    | cons c cs =>
      have := (hrest c rfl).1
      simp [scanDigits, this]
  | cons d ds ih =>
    have hd := hds d List.mem_cons_self
    rw [List.map_cons, List.cons_append, scanDigits, hexDigitValue_hexChar (by omega)]
    simp only [hd, if_true, List.foldl_cons]
    exact ih _ fun d' hd' => hds d' (List.mem_cons_of_mem _ hd')

/-- What `%#lx` writes, `%i` reads back. -/
theorem scanInt_formatAltHex (v : ℕ) {rest : List Char} (hrest : StopsConstant rest) :
    scanInt (formatAltHex v ++ rest) = some ((v : ℤ), rest) := by
  unfold formatAltHex
  split
  case isTrue hv =>
    subst hv
    -- `0` reads as an octal constant with no digit after its prefix
    rcases rest with _ | ⟨x, cs⟩
    · rfl
    · obtain ⟨hx, hxx, hxX⟩ := hrest x rfl
      have hstop : scanDigits 8 0 (x :: cs) = (0, x :: cs) := by simp [scanDigits, hx]
      rcases cs with _ | ⟨c, cs⟩ <;>
        simp [scanInt, isCSpace, scanMagnitude, hxx, hxX, hstop]
  case isFalse hv =>
    have hdig : ∀ d ∈ (Nat.digits 16 v).reverse, d < 16 := fun d hd =>
      Nat.digits_lt_base (by norm_num) (List.mem_reverse.1 hd)
    obtain ⟨d, ds, hcons⟩ : ∃ d ds, (Nat.digits 16 v).reverse = d :: ds :=
      List.exists_cons_of_ne_nil (by
        rw [Ne, List.reverse_eq_nil_iff, Nat.digits_eq_nil_iff_eq_zero]
        exact hv)
    have hscan := scanDigits_map_hexChar 0 (le_refl 16) hdig hrest
    have hof : (Nat.digits 16 v).foldr (fun x y => x + 16 * y) 0 = v := by
      simpa [Nat.ofDigits_eq_foldr] using Nat.ofDigits_digits 16 v
    have hval : ((Nat.digits 16 v).reverse.foldl (fun a d => a * 16 + d) 0) = v := by
      calc _ = (Nat.digits 16 v).foldr (fun x y => x + 16 * y) 0 := by
            rw [List.foldl_reverse]
            congr 1
            funext x y
            ring
        _ = v := hof
    have hhead : (hexDigitValue (hexChar d)).isSome := by
      rw [hexDigitValue_hexChar (hdig d (by simp [hcons]))]
      rfl
    rw [hval] at hscan
    rw [hcons] at hscan ⊢
    simp only [List.map_cons, List.cons_append] at hscan
    simp only [List.map_cons, List.cons_append, scanInt, isCSpace, List.dropWhile_cons]
    simp [scanMagnitude, hhead, hscan]

end Motr
