import Motr.Lib.LeBytes

/-!
Bytes in memory, as C code reads and writes them through pointers. A memory is a function
from addresses to bytes; `memRead` reads `n` bytes, `memWrite` copies a buffer in, and
`memmove` copies `n` bytes as the C function does, as if through a buffer, so that the source
and the destination may overlap: it reads the memory as it was before the move.

Records of given sizes laid out one after the other, upward from an address (`readUp`) or
downward from one (`readDown`, the first record ending there), are read back as a list. The
lemmas say what each memory operation does to such a list:

* `readUp_append`, `readDown_append` cut a layout in two;
* `readUp_memmove`, `readDown_memmove`: records inside the destination of a move are read at
  the source;
* `readUp_memmove_of_disjoint`, `readUp_memWrite_of_disjoint` (and the downward forms):
  records outside a move's destination, or outside a write, are unchanged;
* `readUp_replicate`, `readDown_replicate`: records of one size are the slots of an array.
-/

namespace Motr

section Mem

variable (m : ℕ → UInt8)

/-- The `n` bytes from address `a`. -/
def memRead (a n : ℕ) : List UInt8 := (List.range n).map fun i => m (a + i)

/-- The memory after the bytes `bs` are copied to address `a`. -/
def memWrite (a : ℕ) (bs : List UInt8) : ℕ → UInt8 := fun x =>
  if a ≤ x ∧ x < a + bs.length then bs.getD (x - a) 0 else m x

/-- `memmove(dst, src, n)`: the `n` bytes at `src` copied to `dst`, read before the copy. -/
def memmove (dst src n : ℕ) : ℕ → UInt8 := fun x =>
  if dst ≤ x ∧ x < dst + n then m (src + (x - dst)) else m x

/-- The records of sizes `sizes` laid out upward from `a`. -/
def readUp : ℕ → List ℕ → List (List UInt8)
  | _, [] => []
  | a, s :: ss => memRead m a s :: readUp (a + s) ss

/-- The records of sizes `sizes` laid out downward from `b`: the first one ends at `b`. -/
def readDown : ℕ → List ℕ → List (List UInt8)
  | _, [] => []
  | b, s :: ss => memRead m (b - s) s :: readDown (b - s) ss

variable {m}

@[simp] lemma length_memRead (a n : ℕ) : (memRead m a n).length = n := by
  simp [memRead]

@[simp] lemma readUp_nil (a : ℕ) : readUp m a [] = [] := rfl

@[simp] lemma readUp_cons (a s : ℕ) (ss : List ℕ) :
    readUp m a (s :: ss) = memRead m a s :: readUp m (a + s) ss := rfl

@[simp] lemma readDown_nil (b : ℕ) : readDown m b [] = [] := rfl

@[simp] lemma readDown_cons (b s : ℕ) (ss : List ℕ) :
    readDown m b (s :: ss) = memRead m (b - s) s :: readDown m (b - s) ss := rfl

@[simp] lemma length_readUp (a : ℕ) (ss : List ℕ) : (readUp m a ss).length = ss.length := by
  induction ss generalizing a with
  | nil => rfl
  | cons s ss ih => simp [ih]

@[simp] lemma length_readDown (b : ℕ) (ss : List ℕ) :
    (readDown m b ss).length = ss.length := by
  induction ss generalizing b with
  | nil => rfl
  | cons s ss ih => simp [ih]

/-! ### Reading bytes -/

/-- A read sees only the bytes it reads. -/
lemma memRead_congr {m' : ℕ → UInt8} {a n : ℕ} (h : ∀ i < n, m (a + i) = m' (a + i)) :
    memRead m a n = memRead m' a n :=
  List.map_congr_left fun i hi => h i (List.mem_range.mp hi)

lemma memRead_add (a n k : ℕ) : memRead m a (n + k) = memRead m a n ++ memRead m (a + n) k := by
  simp only [memRead, List.range_add, List.map_append, List.map_map]
  congr 1
  exact List.map_congr_left fun i _ => by simp [Nat.add_assoc]

lemma memRead_take (a n k : ℕ) : (memRead m a n).take k = memRead m a (min k n) := by
  rcases Nat.le_total k n with h | h
  · rw [Nat.min_eq_left h, ← Nat.add_sub_cancel' h, memRead_add]
    exact List.take_left' (length_memRead a k)
  · rw [Nat.min_eq_right h, List.take_of_length_le (by simpa using h)]

lemma memRead_drop (a n k : ℕ) : (memRead m a n).drop k = memRead m (a + k) (n - k) := by
  rcases Nat.le_total k n with h | h
  · conv_lhs => rw [← Nat.add_sub_cancel' h, memRead_add]
    exact List.drop_left' (length_memRead a k)
  · rw [Nat.sub_eq_zero_of_le h, List.drop_of_length_le (by simpa using h)]
    rfl

/-- A buffer written is read back. -/
lemma memRead_memWrite_self (a : ℕ) (bs : List UInt8) :
    memRead (memWrite m a bs) a bs.length = bs := by
  refine List.ext_getElem (by simp) fun i h₁ h₂ => ?_
  have hi : i < bs.length := by simpa using h₁
  simp [memRead, memWrite, hi]

lemma memRead_memWrite_of_length {a n : ℕ} {bs : List UInt8} (h : bs.length = n) :
    memRead (memWrite m a bs) a n = bs := by
  subst h
  exact memRead_memWrite_self a bs

/-- A write leaves the bytes outside it. -/
lemma memRead_memWrite_of_disjoint {a b n : ℕ} {bs : List UInt8}
    (h : b + n ≤ a ∨ a + bs.length ≤ b) : memRead (memWrite m a bs) b n = memRead m b n :=
  memRead_congr fun i hi => by
    simp only [memWrite]
    rw [if_neg (by omega)]

/-- A move puts at its destination the bytes that were at its source. -/
lemma memRead_memmove {dst src len b n : ℕ} (hlo : dst ≤ b) (hhi : b + n ≤ dst + len) :
    memRead (memmove m dst src len) b n = memRead m (src + (b - dst)) n := by
  simp only [memRead]
  refine List.map_congr_left fun i hi => ?_
  have hi' := List.mem_range.mp hi
  simp only [memmove]
  rw [if_pos (by omega)]
  congr 1
  omega

/-- A move leaves the bytes outside its destination. -/
lemma memRead_memmove_of_disjoint {dst src len b n : ℕ} (h : b + n ≤ dst ∨ dst + len ≤ b) :
    memRead (memmove m dst src len) b n = memRead m b n :=
  memRead_congr fun i hi => by
    simp only [memmove]
    rw [if_neg (by omega)]

lemma memWrite_apply_of_disjoint {a x : ℕ} {bs : List UInt8} (h : x < a ∨ a + bs.length ≤ x) :
    memWrite m a bs x = m x := by
  simp only [memWrite]
  rw [if_neg (by omega)]

lemma memmove_apply_of_disjoint {dst src len x : ℕ} (h : x < dst ∨ dst + len ≤ x) :
    memmove m dst src len x = m x := by
  simp only [memmove]
  rw [if_neg (by omega)]

lemma memmove_apply_of_mem {dst src len x : ℕ} (hlo : dst ≤ x) (hhi : x < dst + len) :
    memmove m dst src len x = m (src + (x - dst)) := by
  simp only [memmove]
  rw [if_pos ⟨hlo, hhi⟩]

/-- A write keeps two memories equal at an address where they were. -/
lemma memWrite_congr_apply {m' : ℕ → UInt8} {a x : ℕ} {bs : List UInt8} (h : m x = m' x) :
    memWrite m a bs x = memWrite m' a bs x := by
  simp only [memWrite]
  split
  · rfl
  · exact h

/-- A move keeps two memories equal at an address where they were, and where the byte it
copies there was. -/
lemma memmove_congr_apply {m' : ℕ → UInt8} {dst src n x : ℕ} (h : m x = m' x)
    (hs : dst ≤ x → x < dst + n → m (src + (x - dst)) = m' (src + (x - dst))) :
    memmove m dst src n x = memmove m' dst src n x := by
  simp only [memmove]
  split
  · next hx => exact hs hx.1 hx.2
  · exact h

@[simp] lemma memWrite_nil (a : ℕ) : memWrite m a [] = m := by
  funext x
  simp only [memWrite, List.length_nil]
  rw [if_neg (by omega)]

@[simp] lemma memmove_zero (dst src : ℕ) : memmove m dst src 0 = m := by
  funext x
  simp only [memmove]
  rw [if_neg (by omega)]

/-- A move onto itself changes nothing. -/
@[simp] lemma memmove_self (a n : ℕ) : memmove m a a n = m := by
  funext x
  simp only [memmove]
  split_ifs with h
  · congr 1
    omega
  · rfl

/-- Two writes end to end are one write. -/
lemma memWrite_append (a : ℕ) (bs cs : List UInt8) :
    memWrite (memWrite m a bs) (a + bs.length) cs = memWrite m a (bs ++ cs) := by
  funext x
  simp only [memWrite, List.length_append]
  by_cases hc : a + bs.length ≤ x ∧ x < a + bs.length + cs.length
  · rw [if_pos hc, if_pos (by omega), List.getD_append_right _ _ _ _ (by omega), Nat.sub_sub]
  · rw [if_neg hc]
    by_cases hb : a ≤ x ∧ x < a + bs.length
    · rw [if_pos hb, if_pos (by omega), List.getD_append _ _ _ _ (by omega)]
    · rw [if_neg hb, if_neg (by omega)]

/-- A write and a move that touch different bytes commute. -/
lemma memWrite_memmove_comm {a dst src n : ℕ} {bs : List UInt8}
    (hd : a + bs.length ≤ dst ∨ dst + n ≤ a) (hs : a + bs.length ≤ src ∨ src + n ≤ a) :
    memWrite (memmove m dst src n) a bs = memmove (memWrite m a bs) dst src n := by
  funext x
  simp only [memWrite, memmove]
  by_cases hx : a ≤ x ∧ x < a + bs.length
  · rw [if_pos hx, if_neg (by omega), if_pos hx]
  · rw [if_neg hx]
    by_cases hm : dst ≤ x ∧ x < dst + n
    · rw [if_pos hm, if_pos hm, if_neg (by omega)]
    · rw [if_neg hm, if_neg hm, if_neg hx]

/-! ### Records laid out upward -/

lemma readUp_append (a : ℕ) (l₁ l₂ : List ℕ) :
    readUp m a (l₁ ++ l₂) = readUp m a l₁ ++ readUp m (a + l₁.sum) l₂ := by
  induction l₁ generalizing a with
  | nil => simp
  | cons s l₁ ih => simp [ih, Nat.add_assoc]

/-- The records read see only the bytes they span. -/
lemma readUp_congr {m' : ℕ → UInt8} {a : ℕ} {ss : List ℕ}
    (h : ∀ x, a ≤ x → x < a + ss.sum → m x = m' x) : readUp m a ss = readUp m' a ss := by
  induction ss generalizing a with
  | nil => rfl
  | cons s ss ih =>
    simp only [readUp_cons, List.sum_cons] at h ⊢
    rw [memRead_congr fun i hi => h (a + i) (by omega) (by omega),
      ih fun x hx₁ hx₂ => h x (by omega) (by omega)]

lemma readUp_memmove {dst src len a : ℕ} {ss : List ℕ} (hlo : dst ≤ a)
    (hhi : a + ss.sum ≤ dst + len) :
    readUp (memmove m dst src len) a ss = readUp m (src + (a - dst)) ss := by
  induction ss generalizing a with
  | nil => rfl
  | cons s ss ih =>
    simp only [readUp_cons, List.sum_cons] at hhi ⊢
    rw [memRead_memmove hlo (by omega), ih (by omega) (by omega)]
    congr 2
    omega

lemma readUp_memmove_of_disjoint {dst src len a : ℕ} {ss : List ℕ}
    (h : a + ss.sum ≤ dst ∨ dst + len ≤ a) :
    readUp (memmove m dst src len) a ss = readUp m a ss :=
  readUp_congr fun x _ _ => by
    simp only [memmove]
    rw [if_neg (by omega)]

lemma readUp_memWrite_of_disjoint {a b : ℕ} {bs : List UInt8} {ss : List ℕ}
    (h : b + ss.sum ≤ a ∨ a + bs.length ≤ b) : readUp (memWrite m a bs) b ss = readUp m b ss :=
  readUp_congr fun x _ _ => by
    simp only [memWrite]
    rw [if_neg (by omega)]

/-- A layout read as two lists, the first as long as its first part, is read part by part. -/
lemma readUp_append_eq {a : ℕ} {l₁ l₂ : List ℕ} {R₁ R₂ : List (List UInt8)}
    (h : readUp m a (l₁ ++ l₂) = R₁ ++ R₂) (hlen : l₁.length = R₁.length) :
    readUp m a l₁ = R₁ ∧ readUp m (a + l₁.sum) l₂ = R₂ := by
  rw [readUp_append] at h
  exact List.append_inj h (by simp [hlen])

/-- A record of `s` bytes inserted into an upward layout at `p`: the records from `p` on are
moved up by its size, then it is written in the room. -/
lemma readUp_insert {a p s len : ℕ} {l₁ l₂ : List ℕ} {bs : List UInt8} (hp : p = a + l₁.sum)
    (hs : bs.length = s) (hlen : len = l₂.sum) :
    readUp (memWrite (memmove m (p + s) p len) p bs) a (l₁ ++ s :: l₂) =
      readUp m a l₁ ++ bs :: readUp m p l₂ := by
  subst hp hs hlen
  rw [readUp_append, readUp_cons, readUp_memWrite_of_disjoint (Or.inl le_rfl),
    readUp_memmove_of_disjoint (Or.inl (by omega)), memRead_memWrite_self,
    readUp_memWrite_of_disjoint (Or.inr le_rfl), readUp_memmove le_rfl le_rfl, Nat.sub_self,
    Nat.add_zero]

/-- The record of `s` bytes at `p` erased from an upward layout: the records after it are
moved down over it. -/
lemma readUp_erase {a p s len : ℕ} {l₁ l₂ : List ℕ} (hp : p = a + l₁.sum)
    (hlen : len = l₂.sum) :
    readUp (memmove m p (p + s) len) a (l₁ ++ l₂) = readUp m a l₁ ++ readUp m (p + s) l₂ := by
  subst hp hlen
  rw [readUp_append, readUp_memmove_of_disjoint (Or.inl le_rfl), readUp_memmove le_rfl le_rfl,
    Nat.sub_self, Nat.add_zero]

/-- Records of one size are the slots of an array. -/
lemma readUp_replicate (a n s : ℕ) :
    readUp m a (List.replicate n s) = (List.range n).map fun i => memRead m (a + s * i) s := by
  induction n generalizing a with
  | zero => rfl
  | succ n ih =>
    rw [List.replicate_succ, readUp_cons, ih, List.range_succ_eq_map]
    simp only [List.map_cons, List.map_map, Nat.mul_zero, Nat.add_zero]
    congr 1
    exact List.map_congr_left fun i _ => by simp [Function.comp, Nat.mul_succ]; ring_nf

/-! ### Records laid out downward -/

lemma readDown_append (b : ℕ) (l₁ l₂ : List ℕ) :
    readDown m b (l₁ ++ l₂) = readDown m b l₁ ++ readDown m (b - l₁.sum) l₂ := by
  induction l₁ generalizing b with
  | nil => simp
  | cons s l₁ ih => simp [ih, Nat.sub_sub]

lemma readDown_congr {m' : ℕ → UInt8} {b : ℕ} {ss : List ℕ} (hsum : ss.sum ≤ b)
    (h : ∀ x, b - ss.sum ≤ x → x < b → m x = m' x) : readDown m b ss = readDown m' b ss := by
  induction ss generalizing b with
  | nil => rfl
  | cons s ss ih =>
    simp only [readDown_cons, List.sum_cons] at hsum h ⊢
    rw [memRead_congr fun i hi => h (b - s + i) (by omega) (by omega),
      ih (by omega) fun x hx₁ hx₂ => h x (by omega) (by omega)]

lemma readDown_memmove {dst src len b : ℕ} {ss : List ℕ} (hsum : ss.sum ≤ b)
    (hlo : dst + ss.sum ≤ b) (hhi : b ≤ dst + len) :
    readDown (memmove m dst src len) b ss = readDown m (src + (b - dst)) ss := by
  induction ss generalizing b with
  | nil => rfl
  | cons s ss ih =>
    simp only [readDown_cons, List.sum_cons] at hsum hlo ⊢
    have e : src + (b - s - dst) = src + (b - dst) - s := by omega
    rw [memRead_memmove (by omega) (by omega), ih (by omega) (by omega) (by omega), e]

lemma readDown_memmove_of_disjoint {dst src len b : ℕ} {ss : List ℕ} (hsum : ss.sum ≤ b)
    (h : b ≤ dst ∨ dst + len ≤ b - ss.sum) :
    readDown (memmove m dst src len) b ss = readDown m b ss :=
  readDown_congr hsum fun x _ _ => by
    simp only [memmove]
    rw [if_neg (by omega)]

lemma readDown_memWrite_of_disjoint {a b : ℕ} {bs : List UInt8} {ss : List ℕ}
    (hsum : ss.sum ≤ b) (h : b ≤ a ∨ a + bs.length ≤ b - ss.sum) :
    readDown (memWrite m a bs) b ss = readDown m b ss :=
  readDown_congr hsum fun x _ _ => by
    simp only [memWrite]
    rw [if_neg (by omega)]

/-- A downward layout read as two lists, the first as long as its first part, is read part
by part. -/
lemma readDown_append_eq {b : ℕ} {l₁ l₂ : List ℕ} {R₁ R₂ : List (List UInt8)}
    (h : readDown m b (l₁ ++ l₂) = R₁ ++ R₂) (hlen : l₁.length = R₁.length) :
    readDown m b l₁ = R₁ ∧ readDown m (b - l₁.sum) l₂ = R₂ := by
  rw [readDown_append] at h
  exact List.append_inj h (by simp [hlen])

/-- The record below `p` in a downward layout resized from `s` to `s'` bytes, the bytes
`bs`: the records below it are moved by the difference, then the new record is written. -/
lemma readDown_resize {b p s s' len : ℕ} {l₁ l₂ : List ℕ} {bs : List UInt8}
    (hp : p = b - l₁.sum) (hs : bs.length = s') (hlen : len = l₂.sum)
    (hold : l₁.sum + s + l₂.sum ≤ b) (hnew : l₁.sum + s' + l₂.sum ≤ b) :
    readDown (memWrite (memmove m (p - s' - len) (p - s - len) len) (p - s') bs) b
      (l₁ ++ s' :: l₂) = readDown m b l₁ ++ bs :: readDown m (p - s) l₂ := by
  subst hp hs hlen
  have e : b - l₁.sum - s - l₂.sum + (b - l₁.sum - bs.length - (b - l₁.sum - bs.length - l₂.sum))
      = b - l₁.sum - s := by omega
  rw [readDown_append, readDown_cons,
    readDown_memWrite_of_disjoint (by omega) (Or.inr (by omega)),
    readDown_memmove_of_disjoint (by omega) (Or.inr (by omega)), memRead_memWrite_self,
    readDown_memWrite_of_disjoint (by omega) (Or.inl le_rfl),
    readDown_memmove (by omega) (by omega) (by omega), e]

/-- A record of `s` bytes inserted into a downward layout below `p`: the records below `p` are
moved down by its size, then it is written in the room. -/
lemma readDown_insert {b p s len : ℕ} {l₁ l₂ : List ℕ} {bs : List UInt8} (hp : p = b - l₁.sum)
    (hs : bs.length = s) (hlen : len = l₂.sum) (hfit : l₁.sum + s + l₂.sum ≤ b) :
    readDown (memWrite (memmove m (p - len - s) (p - len) len) (p - s) bs) b
      (l₁ ++ s :: l₂) = readDown m b l₁ ++ bs :: readDown m p l₂ := by
  have h := readDown_resize (m := m) (s := 0) hp hs hlen (by omega) hfit
  rwa [Nat.sub_zero, Nat.sub_right_comm] at h

/-- A record of a downward layout written over in place. -/
lemma readDown_overwrite {b p s : ℕ} {l₁ l₂ : List ℕ} {bs : List UInt8} (hp : p = b - l₁.sum)
    (hs : bs.length = s) (hfit : l₁.sum + s + l₂.sum ≤ b) :
    readDown (memWrite m (p - s) bs) b (l₁ ++ s :: l₂) =
      readDown m b l₁ ++ bs :: readDown m (p - s) l₂ := by
  have h := @readDown_resize m b p s s l₂.sum l₁ l₂ bs hp hs rfl hfit hfit
  rwa [memmove_self] at h

/-- The record of `s` bytes below `p` erased from a downward layout: the records below it are
moved up over it. -/
lemma readDown_erase {b p s len : ℕ} {l₁ l₂ : List ℕ} (hp : p = b - l₁.sum)
    (hlen : len = l₂.sum) (hfit : l₁.sum + s + l₂.sum ≤ b) :
    readDown (memmove m (p - s - len + s) (p - s - len) len) b (l₁ ++ l₂) =
      readDown m b l₁ ++ readDown m (p - s) l₂ := by
  subst hp hlen
  have e : b - l₁.sum - s - l₂.sum + (b - l₁.sum - (b - l₁.sum - s - l₂.sum + s)) =
      b - l₁.sum - s := by omega
  rw [readDown_append, readDown_memmove_of_disjoint (by omega) (Or.inr (by omega)),
    readDown_memmove (by omega) (by omega) (by omega), e]

/-- Records of one size laid out downward are the slots of an array growing down. -/
lemma readDown_replicate (b n s : ℕ) :
    readDown m b (List.replicate n s) =
      (List.range n).map fun i => memRead m (b - s * (i + 1)) s := by
  induction n generalizing b with
  | zero => rfl
  | succ n ih =>
    rw [List.replicate_succ, readDown_cons, ih, List.range_succ_eq_map]
    simp only [List.map_cons, List.map_map, Nat.zero_add, Nat.mul_one]
    congr 1
    exact List.map_congr_left fun i _ => by
      simp only [Function.comp, Nat.sub_sub, Nat.succ_eq_add_one]
      congr 2
      ring

/-! ### Ranges that share no byte -/

/-- The byte ranges `[a, a + n)` and `[b, b + k)` share no byte. -/
def RangesDisjoint (a n b k : ℕ) : Prop := a + n ≤ b ∨ b + k ≤ a ∨ n = 0 ∨ k = 0

instance (a n b k : ℕ) : Decidable (RangesDisjoint a n b k) :=
  inferInstanceAs (Decidable (_ ∨ _ ∨ _ ∨ _))

lemma RangesDisjoint.symm {a n b k : ℕ} (h : RangesDisjoint a n b k) : RangesDisjoint b k a n := by
  unfold RangesDisjoint at *
  omega

/-- Ranges inside two ranges that share no byte share none. -/
lemma RangesDisjoint.mono {a n b k a' n' b' k' : ℕ} (h : RangesDisjoint a n b k)
    (ha : a ≤ a') (ha' : a' + n' ≤ a + n) (hb : b ≤ b') (hb' : b' + k' ≤ b + k) :
    RangesDisjoint a' n' b' k' := by
  unfold RangesDisjoint at *
  omega

/-- A move inside `[lo, lo + len)` leaves the bytes of a range that shares none with it. -/
lemma memRead_memmove_of_rangesDisjoint {a k lo len dst src n : ℕ}
    (hd : RangesDisjoint a k lo len) (hlo : lo ≤ dst) (hhi : dst + n ≤ lo + len) :
    memRead (memmove m dst src n) a k = memRead m a k := by
  rcases hd with h | h | h | h
  · exact memRead_memmove_of_disjoint (by omega)
  · exact memRead_memmove_of_disjoint (by omega)
  · simp [memRead, h]
  · rw [show n = 0 by omega, memmove_zero]

/-! ### Comparing bytes -/

/-- Two byte strings compared as `memcmp` compares them: the difference of the first two bytes
that differ, read as unsigned, or 0 if there is none. -/
def bytesCmp : List UInt8 → List UInt8 → ℤ
  | x :: xs, y :: ys => if x = y then bytesCmp xs ys else (x.toNat : ℤ) - y.toNat
  | _, _ => 0

/-- `memcmp(a, b, n)` in the memory `m`. -/
def memcmp (m : ℕ → UInt8) (a b n : ℕ) : ℤ := bytesCmp (memRead m a n) (memRead m b n)

@[simp] lemma bytesCmp_self (xs : List UInt8) : bytesCmp xs xs = 0 := by
  induction xs with
  | nil => rfl
  | cons x xs ih => simp [bytesCmp, ih]

lemma toNat_sub_toNat_ne_zero {x y : UInt8} (h : x ≠ y) : (x.toNat : ℤ) - y.toNat ≠ 0 := by
  have : x.toNat ≠ y.toNat := fun e => h (UInt8.toNat_inj.mp e)
  omega

lemma bytesCmp_eq_zero_iff {xs ys : List UInt8} (h : xs.length = ys.length) :
    bytesCmp xs ys = 0 ↔ xs = ys := by
  induction xs generalizing ys with
  | nil => cases ys <;> simp_all [bytesCmp]
  | cons x xs ih =>
    cases ys with
    | nil => simp at h
    | cons y ys =>
      by_cases hxy : x = y
      · simp [bytesCmp, hxy, ih (Nat.succ.inj h)]
      · simp [bytesCmp, hxy, toNat_sub_toNat_ne_zero hxy]

/-- Strings of one length compared after equal ones compare as they do. -/
lemma bytesCmp_append {xs ys : List UInt8} (xs' ys' : List UInt8) (h : xs.length = ys.length) :
    bytesCmp (xs ++ xs') (ys ++ ys') = if xs = ys then bytesCmp xs' ys' else bytesCmp xs ys := by
  induction xs generalizing ys with
  | nil => cases ys <;> simp_all
  | cons x xs ih =>
    cases ys with
    | nil => simp at h
    | cons y ys =>
      by_cases hxy : x = y
      · simp [bytesCmp, hxy, ih (Nat.succ.inj h)]
      · simp [bytesCmp, hxy]

/-- On strings of one length, the sign of `bytesCmp` is their lexicographic order. -/
lemma sign_bytesCmp {xs ys : List UInt8} (h : xs.length = ys.length) :
    (bytesCmp xs ys).sign = if xs = ys then 0 else if xs < ys then -1 else 1 := by
  induction xs generalizing ys with
  | nil => cases ys <;> simp_all [bytesCmp]
  | cons x xs ih =>
    cases ys with
    | nil => simp at h
    | cons y ys =>
      by_cases hxy : x = y
      · subst hxy
        simp [bytesCmp, ih (Nat.succ.inj h)]
      · -- the first bytes differ: they decide both
        have hlt : x :: xs < y :: ys ↔ x.toNat < y.toNat := by
          simp [List.cons_lt_cons_iff, hxy, UInt8.lt_iff_toNat_lt]
        have hne : x.toNat ≠ y.toNat := fun e => hxy (UInt8.toNat_inj.mp e)
        simp only [bytesCmp, hxy, if_false, List.cons.injEq, false_and, hlt]
        split_ifs
        · exact Int.sign_eq_neg_one_of_neg (by omega)
        · exact Int.sign_eq_one_of_pos (by omega)

end Mem

end Motr
