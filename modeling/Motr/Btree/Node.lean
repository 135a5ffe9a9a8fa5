import Motr.Lib.SortedKV

/-!
The node layer of `be/btree.c`, as the tree algorithm sees it.

A node is reached through its format (`struct node_type`), which stores the records and
answers the space questions. The tree algorithm only reads a node's level and its records
in index order, and asks the format how much space is left (`nt_space`), whether a record
fits at an index (`nt_isfit`) and whether the node may overflow (`nt_isoverflow`). So a
node is modelled by its level and its list of records, and the format by the three space
functions over the record sizes (`NodeType`); the byte layout of the formats is not
modelled here.

* `BNode`: a leaf holds key/value records, a node of level `l > 0` holds records whose
  value is a child, the key of its last record being ignored (`bnodeKeyCount`).
* `ntMake`, `bnodeDel`: the slot shifts of `nt_make` and `nt_del`; `bnodeMake` is `nt_make`
  under its precondition `bnode_isfit`.
* `bnodeFind`: the binary search of `bnode_find`; `bnodeFind_spec` says it returns the
  least index whose key is not below the search key, found exactly when that key is equal,
  and `bnodeFind_eq` states this as a count over sorted keys.
* `bnodeChildIdx`: the child a descent takes; `bnodeChildIdx_eq` counts the separators not
  above the key.
-/

namespace Motr

/-- `INTERNAL_NODE_VALUE_SIZE`: the value of an internal record is a node address. -/
def INTERNAL_NODE_VALUE_SIZE : Nat := 8

/-- `MAX_TREE_HEIGHT`: the root split refuses to grow the tree beyond it. -/
def MAX_TREE_HEIGHT : Nat := 5

/-- A node: a leaf (level `0`) with key/value records, or a node of level `level > 0`
whose records carry a child as value. -/
inductive BNode (K V : Type) where
  | leaf (recs : List (K × V))
  | inner (level : Nat) (recs : List (K × BNode K V))

section DecEq

variable {K V : Type} [DecidableEq K] [DecidableEq V]

mutual

/-- Equality of nodes is decidable, so that runs of the model can be checked. -/
def BNode.decEq : (a b : BNode K V) → Decidable (a = b)
  | .leaf r, .leaf r' =>
    if h : r = r' then isTrue (h ▸ rfl) else isFalse fun e => by cases e; exact h rfl
  | .inner l r, .inner l' r' =>
    if hl : l = l' then
      match BNode.decEqRecs r r' with
      | isTrue hr => isTrue (hl ▸ hr ▸ rfl)
      | isFalse hr => isFalse fun e => by cases e; exact hr rfl
    else isFalse fun e => by cases e; exact hl rfl
  | .leaf _, .inner _ _ => isFalse fun e => by cases e
  | .inner _ _, .leaf _ => isFalse fun e => by cases e

/-- Equality of the records of internal nodes is decidable. -/
def BNode.decEqRecs : (a b : List (K × BNode K V)) → Decidable (a = b)
  | [], [] => isTrue rfl
  | (k, c) :: r, (k', c') :: r' =>
    if hk : k = k' then
      match BNode.decEq c c', BNode.decEqRecs r r' with
      | isTrue hc, isTrue hr => isTrue (hk ▸ hc ▸ hr ▸ rfl)
      | isFalse hc, _ => isFalse fun e => by cases e; exact hc rfl
      | _, isFalse hr => isFalse fun e => by cases e; exact hr rfl
    else isFalse fun e => by cases e; exact hk rfl
  | [], _ :: _ => isFalse fun e => by cases e
  | _ :: _, [] => isFalse fun e => by cases e

end

instance : DecidableEq (BNode K V) := BNode.decEq

end DecEq

/-- The space accounting of a node format (`struct node_type`): `nt_space`, `nt_isfit`
and `nt_isoverflow`, each reading the node through its level and the (key size, value
size) of its records. -/
structure NodeType where
  /-- `nt_space`: the free bytes of a node. -/
  space : Nat → List (Nat × Nat) → Int
  /-- `nt_isfit`: whether a record of the given sizes fits at the given index. -/
  isfit : Nat → List (Nat × Nat) → Nat → Nat × Nat → Bool
  /-- `nt_isoverflow`, given the `max_ksize` of the level below and the user record. -/
  isoverflow : Nat → List (Nat × Nat) → Nat → Nat × Nat → Bool
  /-- `nt_max_ksize`. -/
  maxKsize : Nat → List (Nat × Nat) → Nat
  /-- Whether `nt_val_resize` accepts a change of the value size at the given level (its
  preconditions). -/
  valResize : Nat → Int → Bool

/-- `ff_valsize`: leaf values have the node's value size, internal values are addresses. -/
def ffValsize (vsize lvl : Nat) : Nat := if lvl = 0 then vsize else INTERNAL_NODE_VALUE_SIZE

/-- `ff_space`: the node size less the header and the fixed-size records. -/
def ffSpace (nsize hsize ksize vsize lvl : Nat) (recs : List (Nat × Nat)) : Int :=
  (nsize : Int) - hsize - (ksize + ffValsize vsize lvl) * recs.length

/-- The fixed-format node type `ff` for nodes of `nsize` bytes with a header of `hsize`
bytes, keys of `ksize` bytes and leaf values of `vsize` bytes, without checksums: a record
takes the node's fixed sizes whatever its own (`ff_isfit`, `ff_isoverflow`,
`ff_max_ksize`). -/
def ffNodeType (nsize hsize ksize vsize : Nat) : NodeType where
  space lvl recs := ffSpace nsize hsize ksize vsize lvl recs
  isfit lvl recs _ _ := decide (((ksize + ffValsize vsize lvl : Nat) : Int) ≤
    ffSpace nsize hsize ksize vsize lvl recs)
  isoverflow lvl recs _ _ := decide (ffSpace nsize hsize ksize vsize lvl recs <
    ((ksize + ffValsize vsize lvl : Nat) : Int))
  maxKsize _ _ := ksize
  valResize lvl diff := diff == 0 && lvl == 0

/-- A tree type: the node format and the sizes of keys and values. -/
structure BtreeType (K V : Type) where
  nt : NodeType
  ksize : K → Nat
  vsize : V → Nat

/-- `bnode_isunderflow`, the same in the three formats: with `predict`, whether one more
deletion empties the node. -/
def bnodeIsunderflow (recCount : Nat) (predict : Bool) : Bool :=
  (if predict && recCount != 0 then recCount - 1 else recCount) == 0

/-- Without a prediction, a node underflows when it has no record. -/
@[simp] lemma bnodeIsunderflow_false (recCount : Nat) :
    bnodeIsunderflow recCount false = (recCount == 0) := by
  simp [bnodeIsunderflow]

/-- `bnode_key_count`: the keys a search reads, all but the last in an internal node. -/
def bnodeKeyCount (lvl n : Nat) : Nat := if 0 < lvl then n - 1 else n

lemma bnodeKeyCount_le (lvl n : Nat) : bnodeKeyCount lvl n ≤ n := by
  unfold bnodeKeyCount
  split <;> omega

/-- `nt_make`: a slot is opened at `idx`, the records from `idx` on shifting right. The
model fills the new slot with the record the caller passes in `s_rec`. -/
def ntMake {R : Type} (recs : List R) (idx : Nat) (r : R) : List R :=
  recs.take idx ++ r :: recs.drop idx

/-- `bnode_make`: `nt_make` under its precondition `M0_PRE(bnode_isfit(slot))`; `none` is
the failed assertion. -/
def bnodeMake {R : Type} (nt : NodeType) (sz : R → Nat × Nat) (lvl : Nat) (recs : List R)
    (idx : Nat) (r : R) : Option (List R) :=
  if nt.isfit lvl (recs.map sz) idx (sz r) then some (ntMake recs idx r) else none

/-- `nt_del`: the record at `idx` is removed, the records after it shifting left. -/
def bnodeDel {R : Type} (recs : List R) (idx : Nat) : List R :=
  recs.take idx ++ recs.drop (idx + 1)

section Slots

variable {R : Type}

@[simp] lemma length_ntMake (recs : List R) {idx : Nat} (h : idx ≤ recs.length) (r : R) :
    (ntMake recs idx r).length = recs.length + 1 := by
  simp [ntMake]
  omega

@[simp] lemma length_bnodeDel (recs : List R) {idx : Nat} (h : idx < recs.length) :
    (bnodeDel recs idx).length = recs.length - 1 := by
  simp [bnodeDel]
  omega

/-- Deleting the slot just made gives the node back: the revert of a failed callback. -/
@[simp] lemma bnodeDel_ntMake (recs : List R) {idx : Nat} (h : idx ≤ recs.length) (r : R) :
    bnodeDel (ntMake recs idx r) idx = recs := by
  have hl : (recs.take idx).length = idx := by simp; omega
  have hd : (recs.take idx).drop (idx + 1) = [] := by simp [List.drop_eq_nil_iff, hl]
  simp [bnodeDel, ntMake, List.drop_append, hl, hd]

/-- Writing the record just made into its slot changes nothing. -/
@[simp] lemma set_ntMake_self (recs : List R) {idx : Nat} (h : idx ≤ recs.length) (r : R) :
    (ntMake recs idx r).set idx r = ntMake recs idx r := by
  have hl : (recs.take idx).length = idx := by simp; omega
  simp [ntMake, hl]

@[simp] lemma bnodeMake_eq_some {nt : NodeType} {sz : R → Nat × Nat} {lvl : Nat}
    {recs : List R} {idx : Nat} {r : R} {recs' : List R} :
    bnodeMake nt sz lvl recs idx r = some recs' ↔
      nt.isfit lvl (recs.map sz) idx (sz r) = true ∧ ntMake recs idx r = recs' := by
  unfold bnodeMake
  split <;> simp_all

/-! The slot operations at the boundary of a record list cut in two. -/

@[simp] lemma ntMake_length_append (A B : List R) (x : R) :
    ntMake (A ++ B) A.length x = A ++ x :: B := by
  simp [ntMake]

@[simp] lemma bnodeDel_length_append (A B : List R) (x : R) :
    bnodeDel (A ++ x :: B) A.length = A ++ B := by
  simp [bnodeDel, List.drop_append]

lemma ntMake_append_left {A B : List R} {i : Nat} (hi : i ≤ A.length) (x : R) :
    ntMake A i x ++ B = ntMake (A ++ B) i x := by
  simp [ntMake, List.take_append_of_le_length hi, List.drop_append_of_le_length hi]

lemma ntMake_append_right (A B : List R) (i : Nat) (x : R) :
    A ++ ntMake B i x = ntMake (A ++ B) (A.length + i) x := by
  have ht : A.take (A.length + i) = A := List.take_of_length_le (by omega)
  have hd : A.drop (A.length + i) = [] := List.drop_eq_nil_of_le (by omega)
  simp [ntMake, List.take_append, List.drop_append, ht, hd]

lemma set_append_left' {A B : List R} {i : Nat} (hi : i < A.length) (x : R) :
    A.set i x ++ B = (A ++ B).set i x := by
  rw [List.set_append_left i x hi]

lemma set_append_right' (A B : List R) (i : Nat) (x : R) :
    A ++ B.set i x = (A ++ B).set (A.length + i) x := by
  rw [List.set_append_right _ _ (by omega)]
  simp

lemma mem_ntMake {recs : List R} {idx : Nat} {r x : R} :
    x ∈ ntMake recs idx r ↔ x = r ∨ x ∈ recs := by
  constructor
  · intro hx
    rcases List.mem_append.mp hx with h | h
    · exact Or.inr (List.mem_of_mem_take h)
    · rcases List.mem_cons.mp h with h | h
      · exact Or.inl h
      · exact Or.inr (List.mem_of_mem_drop h)
  · rintro (rfl | h)
    · simp [ntMake]
    · rw [← List.take_append_drop idx recs] at h
      rcases List.mem_append.mp h with h | h <;> simp [ntMake, h]

lemma getD_eq_getElem_take {keys : List R} {c x : Nat} (d : R) (hc : c ≤ keys.length)
    (hx : x < c) (hx' : x < (keys.take c).length) : keys.getD x d = (keys.take c)[x] := by
  rw [List.getElem_take, List.getD_eq_getElem?_getD, List.getElem?_eq_getElem (by omega)]
  rfl

end Slots

/-! ### The binary search of `bnode_find` -/

section Find

variable {K : Type} [LinearOrder K]

/-- The loop of `bnode_find` on the keys `keys` with bounds `i < j`: `m = (i + j) / 2`, the
lower bound moves up past keys below `k`, the upper bound down to keys above it, and an
equal key ends the search with `i = j = m`. Returns the final `j` and whether `i = j`. -/
def bnodeFindLoop (keys : List K) (k : K) (i j : Int) : Int × Bool :=
  if _h : i + 1 < j then
    let m := (i + j) / 2
    match compare (keys.getD m.toNat k) k with
    | .lt => bnodeFindLoop keys k m j
    | .gt => bnodeFindLoop keys k i m
    | .eq => (m, true)
  else (j, decide (i = j))
termination_by (j - i).toNat
decreasing_by all_goals omega

/-- `bnode_find` over the first `c` keys of a node (`c = bnode_key_count`): the slot index
and whether the key was found. -/
def bnodeFind (keys : List K) (c : Nat) (k : K) : Nat × Bool :=
  let r := bnodeFindLoop keys k (-1) c
  (r.1.toNat, r.2)

/-- The invariant of the search loop: every key up to `i` is below `k`, every key from `j`
on (below `c`) is above it. -/
def FindInv (keys : List K) (c : Nat) (k : K) (i j : Int) : Prop :=
  -1 ≤ i ∧ i < j ∧ j ≤ c ∧
    (∀ x : Nat, (x : Int) ≤ i → keys.getD x k < k) ∧
    (∀ x : Nat, j ≤ (x : Int) → x < c → k < keys.getD x k)

/-- What the search returns: an index `j ≤ c` with every key before it below `k`, the key
at it (if any) not below `k`, and `found` exactly when that key is `k`. -/
def FindResult (keys : List K) (c : Nat) (k : K) (r : Int × Bool) : Prop :=
  0 ≤ r.1 ∧ r.1 ≤ c ∧
    (∀ x : Nat, (x : Int) < r.1 → keys.getD x k < k) ∧
    (∀ x : Nat, r.1 ≤ (x : Int) → x < c → k ≤ keys.getD x k) ∧
    (r.2 = true ↔ r.1 < c ∧ keys.getD r.1.toNat k = k)

/-- The loop keeps `FindInv` and ends in `FindResult`, given sorted keys. -/
lemma bnodeFindLoop_spec (keys : List K) (c : Nat) (k : K)
    (hs : ∀ x y : Nat, x < y → y < c → keys.getD x k < keys.getD y k) :
    ∀ i j : Int, FindInv keys c k i j → FindResult keys c k (bnodeFindLoop keys k i j) := by
  intro i j
  induction i, j using bnodeFindLoop.induct keys k with
  | case1 i j h m hlt ih =>
    intro ⟨hi0, hij, hjc, hlo, hhi⟩
    have hm : m = (i + j) / 2 := rfl
    rw [bnodeFindLoop, dif_pos h, ← hm]
    simp only [hlt]
    have hkm : keys.getD m.toNat k < k := (compare_lt_iff_lt).mp hlt
    refine ih ⟨by omega, by omega, hjc, fun x hx => ?_, hhi⟩
    rcases le_or_gt (x : Int) i with hxi | hxi
    · exact hlo x hxi
    · rcases lt_or_eq_of_le hx with hx | hx
      · exact lt_trans (hs x m.toNat (by omega) (by omega)) hkm
      · have : x = m.toNat := by omega
        rw [this]
        exact hkm
  | case2 i j h m hgt ih =>
    intro ⟨hi0, hij, hjc, hlo, hhi⟩
    have hm : m = (i + j) / 2 := rfl
    rw [bnodeFindLoop, dif_pos h, ← hm]
    simp only [hgt]
    have hkm : k < keys.getD m.toNat k := (compare_gt_iff_gt).mp hgt
    refine ih ⟨hi0, by omega, by omega, hlo, fun x hx hxc => ?_⟩
    rcases le_or_gt j (x : Int) with hxj | hxj
    · exact hhi x hxj hxc
    · rcases lt_or_eq_of_le hx with hx | hx
      · exact lt_trans hkm (hs m.toNat x (by omega) hxc)
      · have : x = m.toNat := by omega
        rw [this]
        exact hkm
  | case3 i j h m heq =>
    intro ⟨hi0, hij, hjc, hlo, hhi⟩
    have hm' : m = (i + j) / 2 := rfl
    rw [bnodeFindLoop, dif_pos h, ← hm']
    simp only [heq]
    have hm : keys.getD m.toNat k = k := compare_eq_iff_eq.mp heq
    refine ⟨by omega, by omega, fun x hx => ?_, fun x hx hxc => ?_, ?_⟩
    · rcases le_or_gt (x : Int) i with hxi | hxi
      · exact hlo x hxi
      · have := hs x m.toNat (by omega) (by omega)
        rwa [hm] at this
    · rcases lt_or_eq_of_le hx with hx | hx
      · have := hs m.toNat x (by omega) hxc
        rw [hm] at this
        exact le_of_lt this
      · have : x = m.toNat := by omega
        rw [this, hm]
    · simp only [true_iff]
      exact ⟨by omega, hm⟩
  | case4 i j h =>
    intro ⟨hi0, hij, hjc, hlo, hhi⟩
    rw [bnodeFindLoop, dif_neg h]
    refine ⟨by omega, hjc, fun x hx => hlo x (by omega),
      fun x hx hxc => le_of_lt (hhi x hx hxc), ?_⟩
    simp only [decide_eq_true_eq]
    constructor
    · intro hij'
      omega
    · rintro ⟨hjc', hk⟩
      have := hhi j.toNat (by omega) (by omega)
      rw [hk] at this
      exact absurd this (lt_irrefl k)

/-- **`bnode_find`**: on keys sorted strictly, the slot is the least index `j ≤ c` whose key
is not below `k` (or `c`), and the key is found exactly when it is `k`. -/
theorem bnodeFind_spec (keys : List K) (c : Nat) (k : K)
    (hs : ∀ x y : Nat, x < y → y < c → keys.getD x k < keys.getD y k) :
    (bnodeFind keys c k).1 ≤ c ∧
      (∀ x < (bnodeFind keys c k).1, keys.getD x k < k) ∧
      (∀ x, (bnodeFind keys c k).1 ≤ x → x < c → k ≤ keys.getD x k) ∧
      ((bnodeFind keys c k).2 = true ↔
        (bnodeFind keys c k).1 < c ∧ keys.getD (bnodeFind keys c k).1 k = k) := by
  have h := bnodeFindLoop_spec keys c k hs (-1) c
    ⟨le_refl _, by omega, le_refl _, fun x hx => by omega, fun x _ hxc => by
      exfalso; omega⟩
  obtain ⟨h0, hc, hlo, hhi, hf⟩ := h
  simp only [bnodeFind]
  refine ⟨by omega, fun x hx => hlo x (by omega), fun x hx hxc => hhi x (by omega) hxc, ?_⟩
  rw [hf]
  constructor <;> rintro ⟨h1, h2⟩ <;> exact ⟨by omega, h2⟩

/-- Keys strictly increasing among the first `c` compare so when read with `getD`. -/
lemma getD_lt_getD_of_pairwise {keys : List K} {c : Nat} (k : K) (hc : c ≤ keys.length)
    (hs : (keys.take c).Pairwise (· < ·)) :
    ∀ x y : Nat, x < y → y < c → keys.getD x k < keys.getD y k := by
  intro x y hxy hyc
  have hlen : (keys.take c).length = c := by simp; omega
  have hx : x < (keys.take c).length := by omega
  have hy : y < (keys.take c).length := by omega
  rw [getD_eq_getElem_take k hc (by omega) hx, getD_eq_getElem_take k hc hyc hy]
  exact List.pairwise_iff_getElem.mp hs x y hx hy hxy

/-- **`bnode_find` returns the least slot**: on keys strictly increasing in the tree's order,
the slot is the least `j ≤ c` such that `j = c` or the key at `j` is not below `k`, and the
key is reported found exactly when `j < c` and the key at `j` is `k`. -/
theorem bnodeFind_isLeast (keys : List K) {c : Nat} (k : K) (hc : c ≤ keys.length)
    (hs : (keys.take c).Pairwise (· < ·)) :
    IsLeast {j | j ≤ c ∧ (j = c ∨ k ≤ keys.getD j k)} (bnodeFind keys c k).1 ∧
      ((bnodeFind keys c k).2 = true ↔
        (bnodeFind keys c k).1 < c ∧ keys.getD (bnodeFind keys c k).1 k = k) := by
  obtain ⟨hle, hlo, hhi, hf⟩ := bnodeFind_spec keys c k (getD_lt_getD_of_pairwise k hc hs)
  refine ⟨⟨⟨hle, ?_⟩, fun j ⟨hjc, hj⟩ => ?_⟩, hf⟩
  · -- the slot is `c`, or the key at it is not below `k`
    rcases Nat.lt_or_ge (bnodeFind keys c k).1 c with hlt | hge
    · exact Or.inr (hhi _ le_rfl hlt)
    · exact Or.inl (le_antisymm hle hge)
  · -- every index before the slot holds a key below `k`
    by_contra hlt
    have hkey := hlo j (not_le.mp hlt)
    rcases hj with rfl | hkj
    · exact hlt (hle.trans le_rfl)
    · exact absurd hkey (not_lt.mpr hkj)

theorem bnodeFind_isLeast_three :
    IsLeast {j | j ≤ 3 ∧ (j = 3 ∨ 3 ≤ [1, 3, 5].getD j 3)} (bnodeFind [1, 3, 5] 3 3).1 ∧
      ((bnodeFind [1, 3, 5] 3 3).2 = true ↔
        (bnodeFind [1, 3, 5] 3 3).1 < 3 ∧ [1, 3, 5].getD (bnodeFind [1, 3, 5] 3 3).1 3 = 3) :=
  bnodeFind_isLeast [1, 3, 5] 3 (by decide) (by decide)

/-- **`bnode_find` on sorted keys**: the slot is the number of keys below `k` among the
first `c`, and the key is found exactly when it is one of them. -/
theorem bnodeFind_eq (keys : List K) {c : Nat} (k : K) (hc : c ≤ keys.length)
    (hs : (keys.take c).Pairwise (· < ·)) :
    bnodeFind keys c k = ((keys.take c).countP (· < k), decide (k ∈ keys.take c)) := by
  have hlen : (keys.take c).length = c := by simp; omega
  obtain ⟨hle, hlo, hhi, hf⟩ := bnodeFind_spec keys c k (getD_lt_getD_of_pairwise k hc hs)
  set j := (bnodeFind keys c k).1 with hj
  -- the slot is the count: the key before it is below `k`, the key at it is not
  have hcount : (keys.take c).countP (· < k) = j := by
    have hge : j ≤ (keys.take c).countP (· < k) := by
      rcases Nat.eq_zero_or_pos j with h0 | hpos
      · omega
      · have hx : j - 1 < (keys.take c).length := by omega
        have hlt := hlo (j - 1) (by omega)
        rw [getD_eq_getElem_take k hc (by omega) hx] at hlt
        have := lt_countP_of_getElem hs (lt_closed_down k) hx (by simpa using hlt)
        omega
    have hle' : (keys.take c).countP (· < k) ≤ j := by
      by_contra hgt
      have hx : j < (keys.take c).length := by
        have := @List.countP_le_length _ (fun x => decide (x < k)) (keys.take c)
        omega
      have hlt := getElem_of_lt_countP hs (lt_closed_down k) hx (by omega)
      have hkj := hhi j le_rfl (by omega)
      rw [getD_eq_getElem_take k hc (by omega) hx] at hkj
      exact absurd (by simpa using hlt) (not_lt.mpr hkj)
    omega
  -- found: the key at the slot is `k`, which happens exactly when `k` is among the keys
  have hfound : (bnodeFind keys c k).2 = decide (k ∈ keys.take c) := by
    rw [Bool.eq_iff_iff, hf, decide_eq_true_iff]
    constructor
    · rintro ⟨hjc, hkj⟩
      have hx : j < (keys.take c).length := by omega
      rw [getD_eq_getElem_take k hc hjc hx] at hkj
      exact hkj ▸ List.getElem_mem hx
    · intro hk
      obtain ⟨x, hx, hxk⟩ := List.mem_iff_getElem.mp hk
      have hjx : j ≤ x := by
        by_contra hxj
        have := hlo x (by omega)
        rw [getD_eq_getElem_take k hc (by omega) hx, hxk] at this
        exact lt_irrefl k this
      have hjl : j < (keys.take c).length := by omega
      refine ⟨by omega, ?_⟩
      rw [getD_eq_getElem_take k hc (by omega) hjl]
      have hkj := hhi j le_rfl (by omega)
      rw [getD_eq_getElem_take k hc (by omega) hjl] at hkj
      rcases Nat.lt_or_eq_of_le hjx with hlt | rfl
      · have := List.pairwise_iff_getElem.mp hs j x hjl hx hlt
        rw [hxk] at this
        exact le_antisymm (le_of_lt this) hkj
      · exact hxk
  exact Prod.ext hcount.symm hfound

/-- The keys a search reads in a node of level `lvl`: the first `bnode_key_count`. -/
def bnodeKeys {α : Type} (lvl : Nat) (recs : List (K × α)) : List K :=
  (recs.map Prod.fst).take (bnodeKeyCount lvl recs.length)

lemma bnodeFind_keys {α : Type} (lvl : Nat) (recs : List (K × α)) (k : K)
    (hs : (bnodeKeys lvl recs).Pairwise (· < ·)) :
    bnodeFind (recs.map Prod.fst) (bnodeKeyCount lvl recs.length) k =
      ((bnodeKeys lvl recs).countP (· < k), decide (k ∈ bnodeKeys lvl recs)) :=
  bnodeFind_eq _ k (by simp [bnodeKeyCount]; split <;> omega) hs

/-- The child slot of a descent (`P_NEXTDOWN`): the slot `bnode_find` returns, one further
when the key is found. -/
def bnodeChildIdx {α : Type} (lvl : Nat) (recs : List (K × α)) (k : K) : Nat :=
  let r := bnodeFind (recs.map Prod.fst) (bnodeKeyCount lvl recs.length) k
  if r.2 then r.1 + 1 else r.1

/-- **The child a descent takes**: past every separator not above the key. -/
theorem bnodeChildIdx_eq {α : Type} (lvl : Nat) (recs : List (K × α)) (k : K)
    (hs : (bnodeKeys lvl recs).Pairwise (· < ·)) :
    bnodeChildIdx lvl recs k = (bnodeKeys lvl recs).countP (· ≤ k) := by
  rw [bnodeChildIdx, bnodeFind_keys lvl recs k hs, countP_le_eq_countP_lt_add_count]
  -- strictly increasing keys hold `k` at most once
  have hnd : (bnodeKeys lvl recs).Nodup := hs.imp ne_of_lt
  by_cases hk : k ∈ bnodeKeys lvl recs
  · simp [hk, List.count_eq_one_of_mem hnd hk]
  · simp [hk, List.count_eq_zero_of_not_mem hk]

end Find

end Motr
