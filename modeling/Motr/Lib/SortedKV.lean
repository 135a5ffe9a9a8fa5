import Mathlib

/-!
Association lists sorted by key: the abstract view of an ordered key/value store.

A list of records `(k, v)` whose keys are strictly increasing represents a finite map (read
with `List.lookup`); the lemmas here say how the list operations a store performs (opening a
slot at the sorted position, replacing a value, removing a record, cutting the list in two)
act on that map. Nothing here is specific to one store.

* `countP_take_of_pairwise`, `getElem_of_lt_countP`, `lt_countP_of_getElem`: on a strictly
  increasing list the elements below `s` (or not above it) are the first `countP` ones.
* `kvPut`, `kvErase`: the map update and removal, as filters; `kvPut_eq_take_drop`,
  `kvPut_eq_set` and `kvErase_eq_take_drop` say that on a sorted list they are the slot
  operations at the sorted position, and `lookup_kvPut`, `lookup_kvErase` that they are
  `Function.update` of the map.
-/

namespace Motr

/-- A list cut in two at `A.length`: the slot there is the head of the second part. -/
@[simp] lemma set_length_append {R : Type} (A B : List R) (x y : R) :
    (A ++ x :: B).set A.length y = A ++ y :: B := by
  simp [List.set_append_right]

/-! ### Positions in a strictly increasing list -/

section Position

/- A test `p` closed downward (`x < y → p y → p x`, as `· < s` and `· ≤ s` are) holds on a
prefix of a strictly increasing list: the first `countP p` elements. -/

variable {α : Type} [LinearOrder α] {p : α → Bool}

/-- Past an element that fails the test, every element fails it. -/
lemma countP_eq_zero_of_cons {a : α} {t : List α} (h : (a :: t).Pairwise (· < ·))
    (hp : ∀ x y, x < y → p y = true → p x = true) (ha : p a = false) : t.countP p = 0 := by
  rw [List.countP_eq_zero]
  intro x hx hpx
  have hax : a < x := List.rel_of_pairwise_cons h hx
  simp [hp a x hax hpx] at ha

/-- The elements passing the test among the first `j`. -/
theorem countP_take_of_pairwise {l : List α} (hl : l.Pairwise (· < ·))
    (hp : ∀ x y, x < y → p y = true → p x = true) (j : Nat) :
    (l.take j).countP p = min j (l.countP p) := by
  induction l generalizing j with
  | nil => simp
  | cons a t ih =>
    cases j with
    | zero => simp
    | succ j =>
      have ht := ih hl.of_cons j
      rw [List.take_succ_cons]
      cases ha : p a with
      | true =>
        rw [List.countP_cons_of_pos ha, List.countP_cons_of_pos ha, ht]
        omega
      | false =>
        have hz := countP_eq_zero_of_cons hl hp ha
        rw [List.countP_cons_of_neg (by simp [ha]), List.countP_cons_of_neg (by simp [ha]), ht,
          hz]
        simp

theorem countP_drop_of_pairwise {l : List α} (hl : l.Pairwise (· < ·))
    (hp : ∀ x y, x < y → p y = true → p x = true) (j : Nat) :
    (l.drop j).countP p = l.countP p - j := by
  have h := @List.countP_append _ p (l.take j) (l.drop j)
  rw [List.take_append_drop, countP_take_of_pairwise hl hp] at h
  omega

/-- An element before the count passes the test. -/
lemma getElem_of_lt_countP {l : List α} (hl : l.Pairwise (· < ·))
    (hp : ∀ x y, x < y → p y = true → p x = true) {i : Nat} (hi : i < l.length)
    (h : i < l.countP p) : p l[i] = true := by
  have hc : (l.take (i + 1)).countP p = (l.take (i + 1)).length := by
    rw [countP_take_of_pairwise hl hp, List.length_take]
    omega
  have hmem : l[i] ∈ l.take (i + 1) := by
    rw [List.mem_iff_getElem]
    exact ⟨i, by simp; omega, by simp⟩
  exact List.countP_eq_length.mp hc _ hmem

/-- An element passing the test comes before the count. -/
lemma lt_countP_of_getElem {l : List α} (hl : l.Pairwise (· < ·))
    (hp : ∀ x y, x < y → p y = true → p x = true) {i : Nat} (hi : i < l.length)
    (h : p l[i] = true) : i < l.countP p := by
  have hall : ∀ x ∈ l.take (i + 1), p x = true := by
    intro x hx
    obtain ⟨j, hj, rfl⟩ := List.mem_iff_getElem.mp hx
    have hj' : j < i + 1 := by simp at hj; omega
    rw [List.getElem_take]
    rcases Nat.lt_succ_iff_lt_or_eq.mp hj' with hji | rfl
    · exact hp _ _ (List.pairwise_iff_getElem.mp hl j i _ hi hji) h
    · exact h
  have hc := List.countP_eq_length.mpr hall
  rw [countP_take_of_pairwise hl hp, List.length_take] at hc
  omega

/-- `getElem_of_lt_countP` read through `l[i]?`: an element that fails the test is not
before the count. -/
lemma countP_le_of_getElem? {l : List α} (hl : l.Pairwise (· < ·))
    (hp : ∀ x y, x < y → p y = true → p x = true) {i : Nat} {x : α} (hx : l[i]? = some x)
    (h : p x = false) : l.countP p ≤ i := by
  obtain ⟨hi, rfl⟩ := List.getElem?_eq_some_iff.mp hx
  by_contra hlt
  simp [getElem_of_lt_countP hl hp hi (by omega)] at h

/-- `lt_countP_of_getElem` read through `l[i]?`. -/
lemma lt_countP_of_getElem? {l : List α} (hl : l.Pairwise (· < ·))
    (hp : ∀ x y, x < y → p y = true → p x = true) {i : Nat} {x : α} (hx : l[i]? = some x)
    (h : p x = true) : i < l.countP p := by
  obtain ⟨hi, rfl⟩ := List.getElem?_eq_some_iff.mp hx
  exact lt_countP_of_getElem hl hp hi h

/-- `· < s` is closed downward. -/
lemma lt_closed_down (s : α) :
    ∀ x y : α, x < y → decide (y < s) = true → decide (x < s) = true := by
  intro x y hxy hy
  simpa using lt_trans hxy (by simpa using hy)

/-- `· ≤ s` is closed downward. -/
lemma le_closed_down (s : α) :
    ∀ x y : α, x < y → decide (y ≤ s) = true → decide (x ≤ s) = true := by
  intro x y hxy hy
  simpa using le_trans (le_of_lt hxy) (by simpa using hy)

/-- An element strictly inside a strictly increasing list: the rest still increases, does
not hold it, and the elements below it are those before it. -/
lemma pairwise_middle {l₁ l₂ : List α} {s : α} (h : (l₁ ++ s :: l₂).Pairwise (· < ·)) :
    (l₁ ++ l₂).Pairwise (· < ·) ∧ s ∉ l₁ ++ l₂ ∧ (l₁ ++ l₂).countP (· < s) = l₁.length := by
  rw [List.pairwise_append, List.pairwise_cons] at h
  obtain ⟨h₁, ⟨hs₂, h₂⟩, h₁₂⟩ := h
  have hlt₁ : ∀ x ∈ l₁, x < s := fun x hx => h₁₂ x hx s (by simp)
  refine ⟨List.pairwise_append.mpr ⟨h₁, h₂, fun x hx y hy => h₁₂ x hx y (by simp [hy])⟩, ?_, ?_⟩
  · rw [List.mem_append]
    rintro (hs | hs)
    · exact lt_irrefl s (hlt₁ s hs)
    · exact lt_irrefl s (hs₂ s hs)
  · rw [List.countP_append, List.countP_eq_length.mpr (fun x hx => by simpa using hlt₁ x hx),
      List.countP_eq_zero.mpr (fun x hx => by simpa using le_of_lt (hs₂ x hx))]
    simp

/-- Not above `s`: below it, or equal. -/
lemma countP_le_eq_countP_lt_add_count (l : List α) (s : α) :
    l.countP (· ≤ s) = l.countP (· < s) + l.count s := by
  induction l with
  | nil => simp
  | cons a t ih =>
    rw [List.countP_cons, List.countP_cons, List.count_cons, ih]
    rcases lt_trichotomy a s with h | rfl | h
    · simp [h, le_of_lt h, ne_of_lt h]
      omega
    · simp
      omega
    · simp [not_le.mpr h, not_lt.mpr (le_of_lt h), ne_of_gt h]

end Position

/-! ### Records sorted by key -/

section Records

variable {K V : Type} [LinearOrder K]

/-- Whether a key is among a list of keys, decided through the key order. -/
instance (priority := high) decidableMemKeys (k : K) (l : List K) : Decidable (k ∈ l) :=
  List.instDecidableMemOfLawfulBEq k l

/-- The keys of the records are strictly increasing. -/
def KeySorted (l : List (K × V)) : Prop := (l.map Prod.fst).Pairwise (· < ·)

@[simp] lemma keySorted_nil : KeySorted ([] : List (K × V)) := List.Pairwise.nil

lemma keySorted_append {l₁ l₂ : List (K × V)} :
    KeySorted (l₁ ++ l₂) ↔
      KeySorted l₁ ∧ KeySorted l₂ ∧ ∀ a ∈ l₁, ∀ b ∈ l₂, a.1 < b.1 := by
  simp only [KeySorted, List.map_append, List.pairwise_append, List.mem_map]
  constructor
  · rintro ⟨h₁, h₂, h⟩
    exact ⟨h₁, h₂, fun a ha b hb => h _ ⟨a, ha, rfl⟩ _ ⟨b, hb, rfl⟩⟩
  · rintro ⟨h₁, h₂, h⟩
    refine ⟨h₁, h₂, ?_⟩
    rintro _ ⟨a, ha, rfl⟩ _ ⟨b, hb, rfl⟩
    exact h a ha b hb

lemma keySorted_cons {r : K × V} {l : List (K × V)} :
    KeySorted (r :: l) ↔ (∀ b ∈ l, r.1 < b.1) ∧ KeySorted l := by
  simp [KeySorted, List.pairwise_cons]

lemma KeySorted.sublist {l₁ l₂ : List (K × V)} (h : KeySorted l₂) (hs : l₁.Sublist l₂) :
    KeySorted l₁ :=
  List.Pairwise.sublist (hs.map Prod.fst) h

/-- `k ↦ v` on the map of a sorted list: every record below `k`, then `(k, v)`, then every
record above `k`. -/
def kvPut (l : List (K × V)) (k : K) (v : V) : List (K × V) :=
  l.filter (fun r => r.1 < k) ++ (k, v) :: l.filter (fun r => k < r.1)

/-- The removal of `k` from the map of a list. -/
def kvErase (l : List (K × V)) (k : K) : List (K × V) :=
  l.filter (fun r => r.1 ≠ k)

/-- On a sorted list, the records below `k` are the first `countP` ones. -/
lemma take_countP_eq_filter {l : List (K × V)} (hl : KeySorted l) (k : K) :
    l.take (l.countP (fun r => r.1 < k)) = l.filter (fun r => r.1 < k) := by
  induction l with
  | nil => simp
  | cons a t ih =>
    rw [keySorted_cons] at hl
    by_cases ha : a.1 < k
    · rw [List.countP_cons_of_pos (by simpa using ha), List.take_succ_cons,
        List.filter_cons_of_pos (by simpa using ha), ih hl.2]
    · have hz : t.countP (fun r => r.1 < k) = 0 := by
        rw [List.countP_eq_zero]
        intro b hb hbk
        exact ha (lt_trans (hl.1 b hb) (by simpa using hbk))
      rw [List.countP_cons_of_neg (by simpa using ha), hz, List.filter_cons_of_neg
        (by simpa using ha)]
      refine (List.filter_eq_nil_iff.mpr fun b hb hbk => ?_).symm
      exact ha (lt_trans (hl.1 b hb) (by simpa using hbk))

lemma drop_countP_eq_filter {l : List (K × V)} (hl : KeySorted l) (k : K) :
    l.drop (l.countP (fun r => r.1 < k)) = l.filter (fun r => ¬ r.1 < k) := by
  induction l with
  | nil => simp
  | cons a t ih =>
    rw [keySorted_cons] at hl
    by_cases ha : a.1 < k
    · rw [List.countP_cons_of_pos (by simpa using ha), List.drop_succ_cons,
        List.filter_cons_of_neg (by simpa using ha), ih hl.2]
    · have hz : t.countP (fun r => r.1 < k) = 0 := by
        rw [List.countP_eq_zero]
        intro b hb hbk
        exact ha (lt_trans (hl.1 b hb) (by simpa using hbk))
      rw [List.countP_cons_of_neg (by simpa using ha), hz, List.drop_zero]
      refine (List.filter_eq_self.mpr fun b hb => ?_).symm
      rcases List.mem_cons.mp hb with rfl | hb
      · simpa using ha
      · simpa using fun hbk => ha (lt_trans (hl.1 b hb) hbk)

lemma filter_not_lt_of_not_mem {l : List (K × V)} {k : K} (hk : k ∉ l.map Prod.fst) :
    l.filter (fun r => ¬ r.1 < k) = l.filter (fun r => k < r.1) := by
  refine List.filter_congr fun r hr => ?_
  have hne : r.1 ≠ k := fun h => hk (List.mem_map.mpr ⟨r, hr, h⟩)
  simp only [not_lt, decide_eq_decide]
  exact ⟨fun h => lt_of_le_of_ne h hne.symm, le_of_lt⟩

/-- On a sorted list without `k`, `kvPut` opens the slot at the sorted position. -/
theorem kvPut_eq_take_drop {l : List (K × V)} (hl : KeySorted l) {k : K}
    (hk : k ∉ l.map Prod.fst) (v : V) :
    kvPut l k v = l.take (l.countP (fun r => r.1 < k)) ++ (k, v) ::
      l.drop (l.countP (fun r => r.1 < k)) := by
  rw [take_countP_eq_filter hl, drop_countP_eq_filter hl, filter_not_lt_of_not_mem hk, kvPut]

/-- The record of `k` in a sorted list that holds it sits at the sorted position. -/
lemma drop_countP_eq_cons {l : List (K × V)} (hl : KeySorted l) {k : K}
    (hk : k ∈ l.map Prod.fst) :
    ∃ v₀, l.drop (l.countP (fun r => r.1 < k)) =
      (k, v₀) :: l.drop (l.countP (fun r => r.1 < k) + 1) := by
  induction l with
  | nil => simp at hk
  | cons a t ih =>
    rw [keySorted_cons] at hl
    by_cases ha : a.1 < k
    · have hk' : k ∈ t.map Prod.fst := by
        rcases List.mem_cons.mp hk with h | h
        · exact absurd (h ▸ ha) (lt_irrefl k)
        · exact h
      rw [List.countP_cons_of_pos (by simpa using ha)]
      simpa using ih hl.2 hk'
    · have hz : t.countP (fun r => r.1 < k) = 0 := by
        rw [List.countP_eq_zero]
        intro b hb hbk
        exact ha (lt_trans (hl.1 b hb) (by simpa using hbk))
      rw [List.countP_cons_of_neg (by simpa using ha), hz]
      -- `a` is the first record not below `k`, and `k` is among the keys: so `a.1 = k`
      have hak : a.1 = k := by
        rcases List.mem_cons.mp hk with h | h
        · exact h.symm
        · obtain ⟨b, hb, rfl⟩ := List.mem_map.mp h
          exact absurd (hl.1 b hb) (not_lt.mpr (not_lt.mp ha))
      exact ⟨a.2, by simp [← hak]⟩

/-- On a sorted list holding `k`, `kvPut` replaces the record at the sorted position. -/
theorem kvPut_eq_set {l : List (K × V)} (hl : KeySorted l) {k : K}
    (hk : k ∈ l.map Prod.fst) (v : V) :
    kvPut l k v = l.set (l.countP (fun r => r.1 < k)) (k, v) := by
  obtain ⟨v₀, hd⟩ := drop_countP_eq_cons hl hk
  have hlen : l.countP (fun r => r.1 < k) < l.length := by
    by_contra hge
    rw [List.drop_eq_nil_of_le (not_lt.mp hge)] at hd
    simp at hd
  have hrest : l.filter (fun r => k < r.1) = l.drop (l.countP (fun r => r.1 < k) + 1) := by
    have hsub := drop_countP_eq_filter hl k
    rw [hd] at hsub
    have hs : KeySorted ((k, v₀) :: l.drop (l.countP (fun r => r.1 < k) + 1)) := by
      rw [← hd]
      exact hl.sublist (List.drop_sublist _ _)
    rw [keySorted_cons] at hs
    calc l.filter (fun r => k < r.1)
        = (l.filter (fun r => ¬ r.1 < k)).filter (fun r => k < r.1) := by
          rw [List.filter_filter]
          refine List.filter_congr fun r _ => ?_
          by_cases h : k < r.1
          · simp [h, not_lt.mpr (le_of_lt h)]
          · simp [h]
      _ = l.drop (l.countP (fun r => r.1 < k) + 1) := by
          rw [← hsub, List.filter_cons_of_neg (by simp)]
          exact List.filter_eq_self.mpr fun b hb => by simpa using hs.1 b hb
  rw [kvPut, ← take_countP_eq_filter hl k, hrest, List.set_eq_take_append_cons_drop,
    if_pos hlen]

/-- On a sorted list holding `k`, `kvErase` removes the record at the sorted position. -/
theorem kvErase_eq_take_drop {l : List (K × V)} (hl : KeySorted l) {k : K}
    (hk : k ∈ l.map Prod.fst) :
    kvErase l k = l.take (l.countP (fun r => r.1 < k)) ++
      l.drop (l.countP (fun r => r.1 < k) + 1) := by
  obtain ⟨v₀, hd⟩ := drop_countP_eq_cons hl hk
  have hs : KeySorted ((k, v₀) :: l.drop (l.countP (fun r => r.1 < k) + 1)) := by
    rw [← hd]
    exact hl.sublist (List.drop_sublist _ _)
  rw [keySorted_cons] at hs
  conv_lhs => rw [← List.take_append_drop (l.countP (fun r => r.1 < k)) l, hd]
  rw [kvErase, List.filter_append, List.filter_cons_of_neg (by simp)]
  congr 1
  · refine List.filter_eq_self.mpr fun b hb => ?_
    rw [take_countP_eq_filter hl] at hb
    have hbk : b.1 < k := by simpa using List.of_mem_filter hb
    simpa using ne_of_lt hbk
  · exact List.filter_eq_self.mpr fun b hb => by simpa using (ne_of_lt (hs.1 b hb)).symm

lemma mem_kvPut {l : List (K × V)} {k : K} {v : V} {r : K × V} :
    r ∈ kvPut l k v ↔ r = (k, v) ∨ (r ∈ l ∧ r.1 ≠ k) := by
  simp only [kvPut, List.mem_append, List.mem_cons, List.mem_filter, decide_eq_true_eq]
  constructor
  · rintro (⟨h, hr⟩ | rfl | ⟨h, hr⟩)
    · exact Or.inr ⟨h, ne_of_lt hr⟩
    · exact Or.inl rfl
    · exact Or.inr ⟨h, (ne_of_lt hr).symm⟩
  · rintro (rfl | ⟨h, hr⟩)
    · exact Or.inr (Or.inl rfl)
    · rcases lt_or_gt_of_ne hr with hr | hr
      · exact Or.inl ⟨h, hr⟩
      · exact Or.inr (Or.inr ⟨h, hr⟩)

theorem keySorted_kvPut {l : List (K × V)} (hl : KeySorted l) (k : K) (v : V) :
    KeySorted (kvPut l k v) := by
  rw [kvPut, keySorted_append, keySorted_cons]
  refine ⟨hl.sublist (List.filter_sublist), ⟨fun b hb => ?_, hl.sublist List.filter_sublist⟩,
    fun a ha b hb => ?_⟩
  · simpa using (List.mem_filter.mp hb).2
  · have hak : a.1 < k := by simpa using (List.mem_filter.mp ha).2
    rcases List.mem_cons.mp hb with rfl | hb
    · exact hak
    · exact lt_trans hak (by simpa using (List.mem_filter.mp hb).2)

theorem keySorted_kvErase {l : List (K × V)} (hl : KeySorted l) (k : K) :
    KeySorted (kvErase l k) :=
  hl.sublist List.filter_sublist

/-- The keys after a put: the key put and those before. -/
lemma mem_keys_kvPut {l : List (K × V)} {k k' : K} {v : V} :
    k' ∈ (kvPut l k v).map Prod.fst ↔ k' = k ∨ k' ∈ l.map Prod.fst := by
  simp only [List.mem_map, mem_kvPut]
  constructor
  · rintro ⟨x, rfl | ⟨hx, -⟩, rfl⟩
    · exact Or.inl rfl
    · exact Or.inr ⟨x, hx, rfl⟩
  · rintro (rfl | ⟨x, hx, rfl⟩)
    · exact ⟨(k', v), Or.inl rfl, rfl⟩
    · by_cases hk : x.1 = k
      · exact ⟨(k, v), Or.inl rfl, hk.symm⟩
      · exact ⟨x, Or.inr ⟨hx, hk⟩, rfl⟩

/-- The keys after a removal: those before but the key removed. -/
lemma mem_keys_kvErase {l : List (K × V)} {k k' : K} :
    k' ∈ (kvErase l k).map Prod.fst ↔ k' ∈ l.map Prod.fst ∧ k' ≠ k := by
  simp only [kvErase, List.mem_map, List.mem_filter, decide_eq_true_eq]
  constructor
  · rintro ⟨x, ⟨hx, hk⟩, rfl⟩
    exact ⟨⟨x, hx, rfl⟩, hk⟩
  · rintro ⟨⟨x, hx, rfl⟩, hk⟩
    exact ⟨x, ⟨hx, hk⟩, rfl⟩

/-- `kvPut` acts inside the block of records that may hold `k`. -/
lemma kvPut_append {A B C : List (K × V)} {k : K} (hA : ∀ r ∈ A, r.1 < k)
    (hB : ∀ r ∈ B, k < r.1) (v : V) :
    kvPut (A ++ C ++ B) k v = A ++ kvPut C k v ++ B := by
  have h₁ : A.filter (fun r => r.1 < k) = A := List.filter_eq_self.mpr (by simpa using hA)
  have h₂ : A.filter (fun r => k < r.1) = [] := List.filter_eq_nil_iff.mpr fun r hr => by
    simpa using le_of_lt (hA r hr)
  have h₃ : B.filter (fun r => r.1 < k) = [] := List.filter_eq_nil_iff.mpr fun r hr => by
    simpa using le_of_lt (hB r hr)
  have h₄ : B.filter (fun r => k < r.1) = B := List.filter_eq_self.mpr (by simpa using hB)
  simp [kvPut, List.filter_append, h₁, h₂, h₃, h₄]

lemma kvErase_append {A B C : List (K × V)} {k : K} (hA : ∀ r ∈ A, r.1 < k)
    (hB : ∀ r ∈ B, k < r.1) :
    kvErase (A ++ C ++ B) k = A ++ kvErase C k ++ B := by
  have h₁ : A.filter (fun r => r.1 ≠ k) = A := List.filter_eq_self.mpr fun r hr => by
    simpa using ne_of_lt (hA r hr)
  have h₂ : B.filter (fun r => r.1 ≠ k) = B := List.filter_eq_self.mpr fun r hr => by
    simpa using (ne_of_lt (hB r hr)).symm
  rw [kvErase, kvErase, List.filter_append, List.filter_append, h₁, h₂]

/-- A new key between `A`'s and `B`'s is put between them. -/
lemma kvPut_between {A B : List (K × V)} {k : K} (hA : ∀ r ∈ A, r.1 < k)
    (hB : ∀ r ∈ B, k < r.1) (v : V) :
    kvPut (A ++ B) k v = A ++ (k, v) :: B := by
  have h := kvPut_append (C := []) hA hB v
  simpa [kvPut] using h

/-- The value of a key between `A`'s and `B`'s is replaced in place. -/
lemma kvPut_replace {A B : List (K × V)} {k : K} (hA : ∀ r ∈ A, r.1 < k)
    (hB : ∀ r ∈ B, k < r.1) (v₀ v : V) :
    kvPut (A ++ (k, v₀) :: B) k v = A ++ (k, v) :: B := by
  have h := kvPut_append (C := [(k, v₀)]) hA hB v
  have hk : kvPut [(k, v₀)] k v = [(k, v)] := by simp [kvPut]
  rw [hk] at h
  simpa using h

/-- The record of a key between `A`'s and `B`'s is removed from between them. -/
lemma kvErase_between {A B : List (K × V)} {k : K} (hA : ∀ r ∈ A, r.1 < k)
    (hB : ∀ r ∈ B, k < r.1) (v : V) :
    kvErase (A ++ (k, v) :: B) k = A ++ B := by
  have h := kvErase_append (C := [(k, v)]) hA hB
  have hk : kvErase [(k, v)] k = [] := by simp [kvErase]
  rw [hk] at h
  simpa using h

/-- The records `rs` put one after the other. -/
def kvPuts (l rs : List (K × V)) : List (K × V) :=
  rs.foldl (fun l r => kvPut l r.1 r.2) l

/-- Puts keep every key. -/
lemma mem_keys_kvPuts {k : K} : ∀ {l rs : List (K × V)}, k ∈ l.map Prod.fst →
    k ∈ (kvPuts l rs).map Prod.fst
  | _, [], hk => hk
  | l, r :: rs, hk => by
    change k ∈ (kvPuts (kvPut l r.1 r.2) rs).map Prod.fst
    exact mem_keys_kvPuts (mem_keys_kvPut.mpr (Or.inr hk))

/-- The key of the last record put is there after the puts. -/
lemma getLast_mem_keys_kvPuts {l rs : List (K × V)} {r : K × V} (hr : rs.getLast? = some r) :
    r.1 ∈ (kvPuts l rs).map Prod.fst := by
  obtain ⟨rs₀, rfl⟩ := List.getLast?_eq_some_iff.mp hr
  simp only [kvPuts, List.foldl_append, List.foldl_cons, List.foldl_nil]
  exact mem_keys_kvPut.mpr (Or.inl rfl)

/-- Sorted records whose keys lie between `A`'s and `B`'s are put between them. -/
theorem kvPuts_between {B : List (K × V)} :
    ∀ {A rs : List (K × V)}, KeySorted rs → (∀ r ∈ A, ∀ s ∈ rs, r.1 < s.1) →
      (∀ r ∈ B, ∀ s ∈ rs, s.1 < r.1) → kvPuts (A ++ B) rs = A ++ rs ++ B
  | A, [], _, _, _ => by simp [kvPuts]
  | A, s :: rs, hs, hA, hB => by
    rw [keySorted_cons] at hs
    have hput : kvPut (A ++ B) s.1 s.2 = (A ++ [s]) ++ B := by
      rw [kvPut_between (fun r hr => hA r hr s List.mem_cons_self)
        (fun r hr => hB r hr s List.mem_cons_self)]
      simp
    have hA' : ∀ r ∈ A ++ [s], ∀ s' ∈ rs, r.1 < s'.1 := by
      intro r hr s' hs'
      rcases List.mem_append.mp hr with hr | hr
      · exact hA r hr s' (List.mem_cons_of_mem _ hs')
      · rw [List.mem_singleton.mp hr]
        exact hs.1 s' hs'
    have ih := kvPuts_between (A := A ++ [s]) hs.2 hA'
      (fun r hr s' hs' => hB r hr s' (List.mem_cons_of_mem _ hs'))
    change kvPuts (kvPut (A ++ B) s.1 s.2) rs = _
    rw [hput, ih]
    simp

/-- Sorted records below the key `k` of a record are put before it, which is then removed:
they take its place. -/
theorem kvPuts_erase_between {Pre Rest rs : List (K × V)} {k : K} {v₀ : V} (hrs : KeySorted rs)
    (hPre : ∀ r ∈ Pre, r.1 < k) (hPrs : ∀ r ∈ Pre, ∀ s ∈ rs, r.1 < s.1)
    (hRest : ∀ r ∈ Rest, k < r.1) (hk : ∀ s ∈ rs, s.1 < k) :
    kvErase (kvPuts (Pre ++ (k, v₀) :: Rest) rs) k = Pre ++ rs ++ Rest := by
  have hput : kvPuts (Pre ++ (k, v₀) :: Rest) rs = (Pre ++ rs) ++ (k, v₀) :: Rest := by
    refine kvPuts_between hrs hPrs fun r hr s hs => ?_
    rcases List.mem_cons.mp hr with rfl | hr
    · exact hk s hs
    · exact lt_trans (hk s hs) (hRest r hr)
  have hA : ∀ r ∈ Pre ++ rs, r.1 < k := by
    intro r hr
    rcases List.mem_append.mp hr with hr | hr
    · exact hPre r hr
    · exact hk r hr
  rw [hput, kvErase_between hA hRest]

/-- Sorted records whose last one has the key `k` of a record, the others being below it,
replace that record. -/
theorem kvPuts_replace_last {Pre Rest rs : List (K × V)} {k : K} {v₀ v : V}
    (hrs : KeySorted (rs ++ [(k, v)])) (hPre : ∀ r ∈ Pre, r.1 < k)
    (hPrs : ∀ r ∈ Pre, ∀ s ∈ rs, r.1 < s.1) (hRest : ∀ r ∈ Rest, k < r.1) :
    kvPuts (Pre ++ (k, v₀) :: Rest) (rs ++ [(k, v)]) = Pre ++ (rs ++ [(k, v)]) ++ Rest := by
  obtain ⟨hsorted, -, hbelow⟩ := keySorted_append.mp hrs
  have hk : ∀ s ∈ rs, s.1 < k := fun s hs => hbelow s hs (k, v) List.mem_cons_self
  have hput : kvPuts (Pre ++ (k, v₀) :: Rest) rs = (Pre ++ rs) ++ (k, v₀) :: Rest := by
    refine kvPuts_between hsorted hPrs fun r hr s hs => ?_
    rcases List.mem_cons.mp hr with rfl | hr
    · exact hk s hs
    · exact lt_trans (hk s hs) (hRest r hr)
  have hA : ∀ r ∈ Pre ++ rs, r.1 < k := by
    intro r hr
    rcases List.mem_append.mp hr with hr | hr
    · exact hPre r hr
    · exact hk r hr
  have hlast : kvPuts (Pre ++ (k, v₀) :: Rest) (rs ++ [(k, v)]) =
      kvPut (kvPuts (Pre ++ (k, v₀) :: Rest) rs) k v := by
    simp only [kvPuts, List.foldl_append, List.foldl_cons, List.foldl_nil]
  rw [hlast, hput, kvPut_replace hA hRest]
  simp

/-- The first element passing a test, past a prefix that fails it. -/
lemma find?_append_cons {α : Type} {q : α → Bool} {A B : List α} {a : α}
    (hA : ∀ x ∈ A, q x = false) (ha : q a = true) : (A ++ a :: B).find? q = some a := by
  rw [List.find?_append, List.find?_eq_none.mpr fun x hx => by simp [hA x hx], Option.none_or,
    List.find?_cons_of_pos ha]

/-- A sorted list cut by a monotone function `f` of the key at `p`: the records below `p`,
those at `p`, those above. -/
theorem filter_lt_append_eq_append_gt {β : Type} [LinearOrder β] {f : K → β} (hf : Monotone f)
    (p : β) : ∀ {l : List (K × V)}, KeySorted l →
      l.filter (fun r => f r.1 < p) ++ l.filter (fun r => f r.1 = p) ++
        l.filter (fun r => p < f r.1) = l
  | [], _ => by simp
  | a :: l, hl => by
    rw [keySorted_cons] at hl
    have ih := filter_lt_append_eq_append_gt hf p hl.2
    -- the records after `a` are at least as far as `a`
    have hge : ∀ r ∈ l, f a.1 ≤ f r.1 := fun r hr => hf (hl.1 r hr).le
    rcases lt_trichotomy (f a.1) p with h | h | h
    · simp only [List.filter_cons, h, ne_of_lt h, not_lt.mpr h.le, decide_true, decide_false,
        if_true, Bool.false_eq_true, if_false, List.cons_append, ih]
    · have hlt : l.filter (fun r => f r.1 < p) = [] := List.filter_eq_nil_iff.mpr fun r hr => by
        simpa [← h] using hge r hr
      rw [hlt, List.nil_append] at ih
      simp only [List.filter_cons, h, lt_irrefl, decide_true, decide_false, if_true,
        Bool.false_eq_true, if_false, hlt, List.nil_append, List.cons_append, ih]
    · have hlt : l.filter (fun r => f r.1 < p) = [] := List.filter_eq_nil_iff.mpr fun r hr => by
        simpa using (lt_of_lt_of_le h (hge r hr)).le
      have heq : l.filter (fun r => f r.1 = p) = [] := List.filter_eq_nil_iff.mpr fun r hr => by
        simpa using (ne_of_lt (lt_of_lt_of_le h (hge r hr))).symm
      rw [hlt, heq, List.nil_append, List.nil_append] at ih
      simp only [List.filter_cons, not_lt.mpr h.le, (ne_of_lt h).symm, h, decide_true,
        decide_false, if_true, Bool.false_eq_true, if_false, hlt, heq, List.nil_append, ih]

/-- A key above every key of `A` and below every key of `B` is a key of `A ++ C ++ B` only
through `C`. -/
lemma mem_keys_append_iff {A B C : List (K × V)} {k : K} (hA : ∀ r ∈ A, r.1 < k)
    (hB : ∀ r ∈ B, k < r.1) :
    k ∈ (A ++ C ++ B).map Prod.fst ↔ k ∈ C.map Prod.fst := by
  simp only [List.map_append, List.mem_append, List.mem_map]
  constructor
  · rintro ((⟨r, hr, hrk⟩ | hc) | ⟨r, hr, hrk⟩)
    · exact absurd (hrk ▸ hA r hr) (lt_irrefl _)
    · exact hc
    · exact absurd (hrk ▸ hB r hr) (lt_irrefl _)
  · exact fun hc => Or.inl (Or.inr hc)

/-! ### The map of a list -/

lemma lookup_cons_self (a : K) (b : V) (l : List (K × V)) : ((a, b) :: l).lookup a = some b := by
  simp

lemma lookup_cons_of_ne {k a : K} (h : k ≠ a) (b : V) (l : List (K × V)) :
    ((a, b) :: l).lookup k = l.lookup k := by
  rw [List.lookup_cons, beq_false_of_ne h]

/-- Filtering on the key keeps or drops every record of a key together. -/
lemma lookup_filter (l : List (K × V)) (q : K → Bool) (k : K) :
    (l.filter (fun r => q r.1)).lookup k = if q k then l.lookup k else none := by
  induction l with
  | nil => simp
  | cons a t ih =>
    obtain ⟨a, b⟩ := a
    by_cases hk : k = a
    · subst hk
      by_cases hq : q k
      · rw [List.filter_cons_of_pos (by simpa using hq), lookup_cons_self, if_pos hq,
          lookup_cons_self]
      · rw [List.filter_cons_of_neg (by simpa using hq), ih, if_neg hq, if_neg hq]
    · rw [lookup_cons_of_ne hk]
      by_cases hq : q a
      · rw [List.filter_cons_of_pos (by simpa using hq), lookup_cons_of_ne hk, ih]
      · rw [List.filter_cons_of_neg (by simpa using hq), ih]

/-- **`kvPut` is a map update.** -/
theorem lookup_kvPut (l : List (K × V)) (k k' : K) (v : V) :
    (kvPut l k v).lookup k' = if k' = k then some v else l.lookup k' := by
  rw [kvPut, List.lookup_append, lookup_filter l (fun x => decide (x < k))]
  rcases lt_trichotomy k' k with h | rfl | h
  · rw [lookup_cons_of_ne (ne_of_lt h), lookup_filter l (fun x => decide (k < x))]
    simp [h, ne_of_lt h, not_lt.mpr (le_of_lt h)]
  · simp
  · rw [lookup_cons_of_ne (ne_of_gt h), lookup_filter l (fun x => decide (k < x))]
    simp [h, ne_of_gt h, not_lt.mpr (le_of_lt h)]

/-- A list maps exactly its keys. -/
theorem isSome_lookup_iff : ∀ {l : List (K × V)} {k : K},
    (l.lookup k).isSome ↔ k ∈ l.map Prod.fst
  | [], _ => by simp
  | (a, b) :: rest, k => by
    by_cases hk : k = a
    · subst hk
      simp
    · rw [lookup_cons_of_ne hk, isSome_lookup_iff]
      simp [hk]

/-- In a list sorted by key, a record is there exactly when the list maps its key to its
value. -/
theorem mem_iff_lookup : ∀ {l : List (K × V)}, KeySorted l → ∀ {k : K} {v : V},
    (k, v) ∈ l ↔ l.lookup k = some v
  | [], _, _, _ => by simp
  | (a, b) :: rest, hl, k, v => by
    obtain ⟨ha, hrest⟩ := keySorted_cons.mp hl
    by_cases hk : k = a
    · subst hk
      -- the key heads the list, so it is nowhere in the rest
      have hnot : (k, v) ∉ rest := fun h => lt_irrefl k (ha (k, v) h)
      simp [hnot, eq_comm]
    · rw [lookup_cons_of_ne hk, List.mem_cons, ← mem_iff_lookup hrest]
      simp [hk]

/-- **`kvErase` is a map removal.** -/
theorem lookup_kvErase (l : List (K × V)) (k k' : K) :
    (kvErase l k).lookup k' = if k' = k then none else l.lookup k' := by
  rw [kvErase, lookup_filter l (fun x => decide (x ≠ k))]
  by_cases h : k' = k <;> simp [h]

/-! ### Searches -/

/-- `r` is the record of least key passing `p` in `l`; `none` when no key of `l` passes. -/
def IsLeastRec (l : List (K × V)) (p : K → Prop) : Option (K × V) → Prop
  | some r => r ∈ l ∧ p r.1 ∧ ∀ r' ∈ l, p r'.1 → r.1 ≤ r'.1
  | none => ∀ r ∈ l, ¬ p r.1

/-- `r` is the record of greatest key passing `p` in `l`; `none` when no key of `l` passes. -/
def IsGreatestRec (l : List (K × V)) (p : K → Prop) : Option (K × V) → Prop
  | some r => r ∈ l ∧ p r.1 ∧ ∀ r' ∈ l, p r'.1 → r'.1 ≤ r.1
  | none => ∀ r ∈ l, ¬ p r.1

/-- **In a sorted list the first record passing a test has the least key that passes.** -/
theorem isLeastRec_find? (p : K → Prop) [DecidablePred p] :
    ∀ {l : List (K × V)}, KeySorted l → IsLeastRec l p (l.find? fun r => decide (p r.1))
  | [], _ => by simp [IsLeastRec]
  | a :: t, hl => by
    obtain ⟨ha, ht⟩ := keySorted_cons.mp hl
    by_cases hpa : p a.1
    · rw [List.find?_cons_of_pos (by simpa using hpa)]
      refine ⟨by simp, hpa, fun r' hr' _ => ?_⟩
      rcases List.mem_cons.mp hr' with rfl | hr'
      · exact le_rfl
      · exact le_of_lt (ha r' hr')
    · rw [List.find?_cons_of_neg (by simpa using hpa)]
      -- the head fails the test: the answer is the rest's
      have ih := isLeastRec_find? p ht
      cases hres : t.find? (fun r => decide (p r.1)) with
      | none =>
        rw [hres] at ih
        intro r hr
        rcases List.mem_cons.mp hr with rfl | hr
        · exact hpa
        · exact ih r hr
      | some r =>
        rw [hres] at ih
        obtain ⟨hr, hpr, hle⟩ := ih
        refine ⟨List.mem_cons_of_mem _ hr, hpr, fun r' hr' hpr' => ?_⟩
        rcases List.mem_cons.mp hr' with rfl | hr'
        · exact absurd hpr' hpa
        · exact hle r' hr' hpr'

/-- **In a sorted list the last record passing a test has the greatest key that passes.** -/
theorem isGreatestRec_getLast?_filter {l : List (K × V)} (hl : KeySorted l) (p : K → Prop)
    [DecidablePred p] :
    IsGreatestRec l p ((l.filter fun r => decide (p r.1)).getLast?) := by
  have hs : KeySorted (l.filter fun r => decide (p r.1)) := hl.sublist List.filter_sublist
  cases hres : (l.filter fun r => decide (p r.1)).getLast? with
  | none =>
    intro r hr hpr
    have := List.getLast?_eq_none_iff.mp hres
    rw [List.filter_eq_nil_iff] at this
    exact this r hr (by simpa using hpr)
  | some r =>
    obtain ⟨ys, hys⟩ := List.getLast?_eq_some_iff.mp hres
    have hr : r ∈ l.filter fun r => decide (p r.1) := by simp [hys]
    rw [List.mem_filter] at hr
    refine ⟨hr.1, by simpa using hr.2, fun r' hr' hpr' => ?_⟩
    have hmem : r' ∈ ys ++ [r] := by
      rw [← hys, List.mem_filter]
      exact ⟨hr', by simpa using hpr'⟩
    rw [hys, keySorted_append] at hs
    rcases List.mem_append.mp hmem with hy | hy
    · exact le_of_lt (hs.2.2 r' hy r (by simp))
    · rw [List.mem_singleton.mp hy]

/-- On a sorted list, the first record failing a test closed downward on keys sits where
the records passing it end. -/
lemma find?_not_eq_getElem?_countP {q : K → Bool} (hq : ∀ x y, x < y → q y = true → q x = true) :
    ∀ {l : List (K × V)}, KeySorted l →
      l.find? (fun r => !q r.1) = l[l.countP fun r => q r.1]?
  | [], _ => by simp
  | a :: t, hl => by
    obtain ⟨ha, ht⟩ := keySorted_cons.mp hl
    by_cases hqa : q a.1
    · rw [List.find?_cons_of_neg (by simp [hqa]),
        @List.countP_cons_of_pos _ (fun r => q r.1) a t hqa, List.getElem?_cons_succ,
        find?_not_eq_getElem?_countP hq ht]
    · -- every key after a failing one fails too
      have hz : t.countP (fun r => q r.1) = 0 := by
        rw [List.countP_eq_zero]
        intro r hr hqr
        exact hqa (hq a.1 r.1 (ha r hr) hqr)
      rw [List.find?_cons_of_pos (by simp [hqa]), List.countP_cons_of_neg (by simpa using hqa),
        hz]
      rfl

/-- On a sorted list the first record of key at least `k` sits after the records below `k`. -/
lemma find?_ge_eq_getElem? {l : List (K × V)} (hl : KeySorted l) (k : K) :
    l.find? (fun r => decide (k ≤ r.1)) = l[l.countP fun r => r.1 < k]? := by
  have h := @find?_not_eq_getElem?_countP K V _ (fun x => decide (x < k))
    (fun x y => by simpa using (lt_closed_down k) x y) l hl
  have hf : (fun r : K × V => !decide (r.1 < k)) = fun r => decide (k ≤ r.1) := by
    funext r
    rw [← decide_not]
    exact decide_eq_decide.mpr not_lt
  rwa [hf] at h

/-- On a sorted list the first record of key above `k` sits after the records up to `k`. -/
lemma find?_gt_eq_getElem? {l : List (K × V)} (hl : KeySorted l) (k : K) :
    l.find? (fun r => decide (k < r.1)) = l[l.countP fun r => r.1 ≤ k]? := by
  have h := @find?_not_eq_getElem?_countP K V _ (fun x => decide (x ≤ k))
    (fun x y => by simpa using (le_closed_down k) x y) l hl
  have hf : (fun r : K × V => !decide (r.1 ≤ k)) = fun r => decide (k < r.1) := by
    funext r
    rw [← decide_not]
    exact decide_eq_decide.mpr not_le
  rwa [hf] at h

/-- On a sorted list the records up to `k` are those below it and the record of `k`, if
there is one. -/
lemma countP_key_le {l : List (K × V)} (hl : KeySorted l) (k : K) :
    l.countP (fun r => r.1 ≤ k) =
      l.countP (fun r => r.1 < k) + if k ∈ l.map Prod.fst then 1 else 0 := by
  have h := countP_le_eq_countP_lt_add_count (l.map Prod.fst) k
  simp only [List.countP_map] at h
  rw [show (fun r : K × V => decide (r.1 ≤ k)) = (fun x => decide (x ≤ k)) ∘ Prod.fst from rfl,
    show (fun r : K × V => decide (r.1 < k)) = (fun x => decide (x < k)) ∘ Prod.fst from rfl, h]
  congr 1
  split_ifs with hk
  · exact List.count_eq_one_of_mem (List.Pairwise.nodup hl) hk
  · exact List.count_eq_zero_of_not_mem hk

/-- On a sorted list holding `k`, its record is the first of key at least `k`. -/
lemma find?_eq_key_of_mem : ∀ {l : List (K × V)}, KeySorted l → ∀ {k : K},
    k ∈ l.map Prod.fst → l.find? (fun r => decide (r.1 = k)) = l.find? (fun r => decide (k ≤ r.1))
  | [], _, _, hk => by simp at hk
  | a :: t, hl, k, hk => by
    obtain ⟨ha, ht⟩ := keySorted_cons.mp hl
    rcases lt_trichotomy a.1 k with h | h | h
    · have hk' : k ∈ t.map Prod.fst := by
        rcases List.mem_cons.mp hk with h' | h'
        · exact absurd h' (ne_of_gt h)
        · exact h'
      rw [List.find?_cons_of_neg (by simpa using ne_of_lt h),
        List.find?_cons_of_neg (by simpa using h), find?_eq_key_of_mem ht hk']
    · rw [List.find?_cons_of_pos (by simpa using h), List.find?_cons_of_pos (by simp [h])]
    · -- `k` lies below the head, so below every key of the list: it cannot be one
      exfalso
      obtain ⟨r, hr, rfl⟩ := List.mem_map.mp hk
      rcases List.mem_cons.mp hr with rfl | hr
      · exact lt_irrefl _ h
      · exact lt_asymm h (ha r hr)

/-- On a sorted list the last record of key below `k` is the one before the first of key at
least `k`. -/
lemma getLast?_filter_lt_eq_getElem? {l : List (K × V)} (hl : KeySorted l) (k : K) :
    (l.filter fun r => decide (r.1 < k)).getLast? =
      if l.countP (fun r => r.1 < k) = 0 then none else l[l.countP (fun r => r.1 < k) - 1]? := by
  rw [← take_countP_eq_filter hl k, List.getLast?_take]
  split_ifs with h
  · rfl
  · have hlt : l.countP (fun r => r.1 < k) - 1 < l.length := by
      have := @List.countP_le_length _ (fun r => decide (r.1 < k)) l
      omega
    rw [List.getElem?_eq_getElem hlt]
    rfl

end Records

end Motr
