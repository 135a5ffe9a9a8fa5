import Motr.Btree.Move
import Motr.Lib.SortedKV

/-!
The B+tree invariant of `be/btree.c` and the records a tree holds.

The records of a tree are those of its leaves, left to right (`BNode.contents`). The
invariant is stated with explicit bounds, as in a separator chain: `WF h lo hi n` says that
`n` is a subtree whose leaves all lie `h` levels below it, whose node levels count the
levels down to the leaves, and whose keys all lie in `[lo, hi)`; an internal node's
records `(k₀, c₀) … (kₙ₋₁, cₙ₋₁)` give child `cᵢ` the bounds `[kᵢ₋₁, kᵢ)`, with `lo` for the
first child and `hi` for the last (`Chain`), the key of the last record being ignored, and
every child holds at least one record. Keys inside a node are then strictly increasing.

* `WF.contents_sorted`: the records of a valid subtree are sorted by key, within bounds.
* `Chain.focus`: the child a descent takes, with its bounds, and the chain rebuilt around
  whatever replaces it (a one-hole context); `Chain.append_iff`: a record list cut in two;
  `Chain.del`: a child removed, its neighbour taking over its bounds.
* `WF.widen`: a valid subtree stays valid under wider bounds.
-/

namespace Motr

variable {K V : Type}

namespace BNode

/-- `bnode_level`. -/
def level : BNode K V → Nat
  | .leaf _ => 0
  | .inner l _ => l

/-- `bnode_rec_count`. -/
def recCount : BNode K V → Nat
  | .leaf recs => recs.length
  | .inner _ recs => recs.length

@[simp] lemma level_leaf (recs : List (K × V)) : (BNode.leaf recs).level = 0 := rfl
@[simp] lemma level_inner (l : Nat) (recs : List (K × BNode K V)) :
    (BNode.inner l recs).level = l := rfl
@[simp] lemma recCount_leaf (recs : List (K × V)) : (BNode.leaf recs).recCount = recs.length :=
  rfl
@[simp] lemma recCount_inner (l : Nat) (recs : List (K × BNode K V)) :
    (BNode.inner l recs).recCount = recs.length := rfl

mutual

/-- The records of the leaves of a subtree, left to right. -/
def contents : BNode K V → List (K × V)
  | .leaf recs => recs
  | .inner _ recs => contentsF recs

/-- The records of the subtrees of a record list, left to right. -/
def contentsF : List (K × BNode K V) → List (K × V)
  | [] => []
  | (_, c) :: rest => contents c ++ contentsF rest

end

@[simp] lemma contents_leaf (recs : List (K × V)) : (BNode.leaf recs).contents = recs := by
  simp [contents]

@[simp] lemma contents_inner (l : Nat) (recs : List (K × BNode K V)) :
    (BNode.inner l recs).contents = contentsF recs := by
  simp [contents]

@[simp] lemma contentsF_nil : contentsF ([] : List (K × BNode K V)) = [] := by
  simp [contentsF]

@[simp] lemma contentsF_cons (k : K) (c : BNode K V) (rest : List (K × BNode K V)) :
    contentsF ((k, c) :: rest) = c.contents ++ contentsF rest := by
  simp [contentsF]

@[simp] lemma contentsF_append (l₁ l₂ : List (K × BNode K V)) :
    contentsF (l₁ ++ l₂) = contentsF l₁ ++ contentsF l₂ := by
  induction l₁ with
  | nil => simp
  | cons r rest ih =>
    obtain ⟨k, c⟩ := r
    simp [ih]

/-- A node without records holds none below it. -/
lemma contents_eq_nil_of_recCount {n : BNode K V} (h : n.recCount = 0) : n.contents = [] := by
  cases n with
  | leaf recs => simpa using h
  | inner l recs =>
    rw [recCount_inner, List.length_eq_zero_iff] at h
    simp [h]

end BNode

section Bounds

variable [LinearOrder K]

/-- `k` lies in `[lo, hi)`, a missing bound being unbounded. -/
def InBounds (lo hi : Option K) (k : K) : Prop :=
  (∀ l ∈ lo, l ≤ k) ∧ (∀ u ∈ hi, k < u)

/-- The separator chain of an internal node: the `i`-th child satisfies `P` within
`[kᵢ₋₁, kᵢ)`, the first from `lo`, the last up to `hi`. -/
def Chain (P : Option K → Option K → BNode K V → Prop) :
    Option K → Option K → List (K × BNode K V) → Prop
  | _, _, [] => False
  | lo, hi, [(_, c)] => P lo hi c
  | lo, hi, (k, c) :: r :: rs => P lo (some k) c ∧ Chain P (some k) hi (r :: rs)

/-- The subtree invariant: `WF h lo hi n`. -/
def WF : Nat → Option K → Option K → BNode K V → Prop
  | 0, lo, hi, .leaf recs => KeySorted recs ∧ ∀ r ∈ recs, InBounds lo hi r.1
  | h + 1, lo, hi, .inner lvl recs =>
    lvl = h + 1 ∧ Chain (fun a b c => WF h a b c ∧ 0 < c.recCount) lo hi recs
  | _, _, _, _ => False

/-- A lower bound `a` at most `b`, no bound being the least. -/
def LoLe (a b : Option K) : Prop := ∀ x ∈ a, ∃ y ∈ b, x ≤ y

/-- An upper bound `a` at most `b`, no bound being the greatest. -/
def HiLe (a b : Option K) : Prop := ∀ y ∈ b, ∃ x ∈ a, x ≤ y

lemma InBounds.mono {lo hi lo' hi' : Option K} {k : K} (h : InBounds lo hi k)
    (hlo : LoLe lo' lo) (hhi : HiLe hi hi') :
    InBounds lo' hi' k := by
  refine ⟨fun l hl => ?_, fun u hu => ?_⟩
  · obtain ⟨l₀, h₀, hl₀⟩ := hlo l hl
    exact le_trans hl₀ (h.1 l₀ h₀)
  · obtain ⟨u₀, h₀, hu₀⟩ := hhi u hu
    exact lt_of_lt_of_le (h.2 u₀ h₀) hu₀

/-- The records under a separator chain whose children hold sorted records within their
bounds, none empty, are sorted, within the chain's bounds, and not empty. -/
lemma Chain.contents {P : Option K → Option K → BNode K V → Prop}
    (hP : ∀ a b c, P a b c →
      KeySorted c.contents ∧ (∀ r ∈ c.contents, InBounds a b r.1) ∧ c.contents ≠ []) :
    ∀ {lo hi : Option K} {recs : List (K × BNode K V)}, Chain P lo hi recs →
      KeySorted (BNode.contentsF recs) ∧ (∀ r ∈ BNode.contentsF recs, InBounds lo hi r.1) ∧
        BNode.contentsF recs ≠ []
  | _, _, [], h => by simp [Chain] at h
  | lo, hi, [(k, c)], h => by
    simpa [Chain] using hP lo hi c h
  | lo, hi, (k, c) :: r :: rs, h => by
    obtain ⟨hc, hrest⟩ := h
    obtain ⟨hs₁, hb₁, hne₁⟩ := hP lo (some k) c hc
    obtain ⟨hs₂, hb₂, hne₂⟩ := Chain.contents hP hrest
    -- the separator lies below `hi`: some record after it does
    have hk : ∀ u ∈ hi, k < u := by
      obtain ⟨y, hy⟩ := List.exists_mem_of_ne_nil _ hne₂
      intro u hu
      exact lt_of_le_of_lt ((hb₂ y hy).1 k rfl) ((hb₂ y hy).2 u hu)
    refine ⟨?_, ?_, by simp [hne₁]⟩
    · rw [BNode.contentsF_cons, keySorted_append]
      refine ⟨hs₁, hs₂, fun a ha b hb => ?_⟩
      exact lt_of_lt_of_le ((hb₁ a ha).2 k rfl) ((hb₂ b hb).1 k rfl)
    · intro x hx
      rw [BNode.contentsF_cons, List.mem_append] at hx
      rcases hx with hx | hx
      · exact ⟨(hb₁ x hx).1, fun u hu => lt_trans ((hb₁ x hx).2 k rfl) (hk u hu)⟩
      · exact ⟨fun l hl => le_trans ((hb₁ _ (List.head_mem hne₁)).1 l hl)
          (le_trans (le_of_lt ((hb₁ _ (List.head_mem hne₁)).2 k rfl)) ((hb₂ x hx).1 k rfl)),
          (hb₂ x hx).2⟩

/-- **The records of a valid subtree** are sorted by key and lie within its bounds; a
valid subtree that holds a record holds a leaf record. -/
theorem WF.contents_sorted : ∀ {h : Nat} {lo hi : Option K} {n : BNode K V}, WF h lo hi n →
    KeySorted n.contents ∧ (∀ r ∈ n.contents, InBounds lo hi r.1) ∧
      (0 < n.recCount → n.contents ≠ [])
  | 0, lo, hi, .leaf recs, hw => by
    refine ⟨hw.1, hw.2, fun hpos => ?_⟩
    simpa [List.ne_nil_iff_length_pos] using hpos
  | h + 1, lo, hi, .inner lvl recs, hw => by
    have hc := Chain.contents (fun a b c hp => by
      obtain ⟨hs, hb, hne⟩ := WF.contents_sorted hp.1
      exact ⟨hs, hb, hne hp.2⟩) hw.2
    exact ⟨by simpa using hc.1, by simpa using hc.2.1, fun _ => by simpa using hc.2.2⟩
  | 0, _, _, .inner _ _, hw => by simp [WF] at hw
  | _ + 1, _, _, .leaf _, hw => by simp [WF] at hw

/-! ### The separator chain -/

section Chain

variable {P : Option K → Option K → BNode K V → Prop}

/-- What the chain lemmas need of the child predicate: the bounds of a child are in order
and its records lie within them. -/
def Bounded (P : Option K → Option K → BNode K V → Prop) : Prop :=
  ∀ a b c, P a b c → (∀ x ∈ a, ∀ y ∈ b, x < y) ∧ ∀ r ∈ c.contents, InBounds a b r.1

/-- The child predicate may take wider bounds. -/
def Widens (P : Option K → Option K → BNode K V → Prop) : Prop :=
  ∀ a b a' b' c, P a b c → LoLe a' a → HiLe b b' → P a' b' c

omit [LinearOrder K] in
@[simp] lemma chain_singleton {lo hi : Option K} {k : K} {c : BNode K V} :
    Chain P lo hi [(k, c)] ↔ P lo hi c := Iff.rfl

omit [LinearOrder K] in
lemma chain_cons {lo hi : Option K} {k : K} {c : BNode K V} {rest : List (K × BNode K V)}
    (hr : rest ≠ []) : Chain P lo hi ((k, c) :: rest) ↔ P lo (some k) c ∧ Chain P (some k) hi rest := by
  obtain ⟨r, rs, rfl⟩ := List.exists_cons_of_ne_nil hr
  exact Iff.rfl

omit [LinearOrder K] in
/-- **Cutting a record list** after the record of key `k`: `k` bounds both parts. -/
theorem Chain.append_iff {k : K} {c : BNode K V} {ys : List (K × BNode K V)} (hys : ys ≠ []) :
    ∀ {lo hi : Option K} {xs : List (K × BNode K V)},
      Chain P lo hi (xs ++ (k, c) :: ys) ↔
        Chain P lo (some k) (xs ++ [(k, c)]) ∧ Chain P (some k) hi ys
  | lo, hi, [] => by
    simp only [List.nil_append, chain_cons hys, chain_singleton]
  | lo, hi, (k₀, c₀) :: xs => by
    rw [List.cons_append, chain_cons (by simp), List.cons_append, chain_cons (by simp),
      Chain.append_iff hys]
    exact and_assoc.symm

/-- The bounds of a chain are in order. -/
lemma Chain.lt (hP : Bounded P) :
    ∀ {lo hi : Option K} {recs : List (K × BNode K V)}, Chain P lo hi recs →
      ∀ x ∈ lo, ∀ y ∈ hi, x < y
  | _, _, [], h => by simp [Chain] at h
  | lo, hi, [(k, c)], h => (hP lo hi c h).1
  | lo, hi, (k, c) :: r :: rs, h => by
    obtain ⟨hc, hrest⟩ := h
    intro x hx y hy
    exact lt_trans ((hP _ _ _ hc).1 x hx k rfl) (Chain.lt hP hrest k rfl y hy)

/-- The records under a chain lie within its bounds. -/
lemma Chain.bounds (hP : Bounded P) :
    ∀ {lo hi : Option K} {recs : List (K × BNode K V)}, Chain P lo hi recs →
      ∀ r ∈ BNode.contentsF recs, InBounds lo hi r.1
  | _, _, [], h => by simp [Chain] at h
  | lo, hi, [(k, c)], h => by simpa using (hP lo hi c h).2
  | lo, hi, (k, c) :: r :: rs, h => by
    obtain ⟨hc, hrest⟩ := h
    have hk : ∀ u ∈ hi, k < u := Chain.lt hP hrest k rfl
    intro x hx
    rw [BNode.contentsF_cons, List.mem_append] at hx
    rcases hx with hx | hx
    · have hb := (hP _ _ _ hc).2 x hx
      exact ⟨hb.1, fun u hu => lt_trans (hb.2 k rfl) (hk u hu)⟩
    · have hb := Chain.bounds hP hrest x hx
      exact ⟨fun l hl => le_trans (le_of_lt ((hP _ _ _ hc).1 l hl k rfl)) (hb.1 k rfl), hb.2⟩

/-- The separators of a chain (every key but the last) increase strictly, between its
bounds. -/
theorem Chain.keys_sorted (hP : Bounded P) :
    ∀ {lo hi : Option K} {recs : List (K × BNode K V)}, Chain P lo hi recs →
      (recs.dropLast.map Prod.fst).Pairwise (· < ·) ∧
        (∀ x ∈ lo, ∀ s ∈ recs.dropLast, x < s.1) ∧ ∀ y ∈ hi, ∀ s ∈ recs.dropLast, s.1 < y
  | _, _, [], h => by simp [Chain] at h
  | _, _, [(k, c)], _ => by simp
  | lo, hi, (k, c) :: r :: rs, h => by
    obtain ⟨hc, hrest⟩ := h
    obtain ⟨hs, hlo, hhi⟩ := Chain.keys_sorted hP hrest
    have hklo : ∀ x ∈ lo, x < k := fun x hx => (hP _ _ _ hc).1 x hx k rfl
    have hkhi : ∀ y ∈ hi, k < y := Chain.lt hP hrest k rfl
    rw [List.dropLast_cons_cons]
    refine ⟨?_, ?_, ?_⟩
    · rw [List.map_cons, List.pairwise_cons]
      refine ⟨fun b hb => ?_, hs⟩
      obtain ⟨s, hsm, rfl⟩ := List.mem_map.mp hb
      exact hlo k rfl s hsm
    · intro x hx s hsm
      rcases List.mem_cons.mp hsm with rfl | hsm
      · exact hklo x hx
      · exact lt_trans (hklo x hx) (hlo k rfl s hsm)
    · intro y hy s hsm
      rcases List.mem_cons.mp hsm with rfl | hsm
      · exact hkhi y hy
      · exact hhi y hy s hsm

/-- **The child a descent takes.** In a chain `A ++ (key, c) :: B` whose separators in `A` are
not above `k` and whose separator `key` is above it (when `c` is not the last child), `c`
has bounds containing `k`, the records before it are below `k` and those after it above,
and any chain over the bounds of `c` ending in `key` can take its place. -/
theorem Chain.focus (hP : Bounded P) {key k : K} {c : BNode K V} {B : List (K × BNode K V)}
    (hgt : B ≠ [] → k < key) :
    ∀ {lo hi : Option K} {A : List (K × BNode K V)}, Chain P lo hi (A ++ (key, c) :: B) →
      InBounds lo hi k → (∀ r ∈ A, r.1 ≤ k) →
      ∃ a b, InBounds a b k ∧ P a b c ∧
        (∀ r ∈ BNode.contentsF A, r.1 < k) ∧ (∀ r ∈ BNode.contentsF B, k < r.1) ∧
        ∀ ms c', Chain P a b (ms ++ [(key, c')]) → Chain P lo hi (A ++ ms ++ (key, c') :: B)
  | lo, hi, [], h, hk, _ => by
    by_cases hB : B = []
    · subst hB
      refine ⟨lo, hi, hk, h, by simp, by simp, fun ms c' hm => by simpa using hm⟩
    · rw [List.nil_append, chain_cons hB] at h
      have hkey := hgt hB
      refine ⟨lo, some key, ⟨hk.1, fun u hu => by cases hu; exact hkey⟩, h.1, by simp,
        fun r hr => lt_of_lt_of_le hkey ((Chain.bounds hP h.2 r hr).1 key rfl), ?_⟩
      intro ms c' hm
      rw [List.nil_append, Chain.append_iff hB]
      exact ⟨hm, h.2⟩
  | lo, hi, (k₀, c₀) :: A, h, hk, hle => by
    rw [List.cons_append, chain_cons (by simp)] at h
    have hk₀ : k₀ ≤ k := hle (k₀, c₀) (by simp)
    obtain ⟨a, b, hab, hc, hA, hB, hctx⟩ := Chain.focus hP hgt h.2 ⟨fun l hl => by cases hl; exact hk₀,
      hk.2⟩ (fun r hr => hle r (by simp [hr]))
    refine ⟨a, b, hab, hc, ?_, hB, ?_⟩
    · intro r hr
      rw [BNode.contentsF_cons, List.mem_append] at hr
      rcases hr with hr | hr
      · exact lt_of_lt_of_le (((hP _ _ _ h.1).2 r hr).2 k₀ rfl) hk₀
      · exact hA r hr
    · intro ms c' hm
      rw [List.cons_append, List.cons_append, chain_cons (by simp)]
      exact ⟨h.1, by simpa using hctx ms c' hm⟩

omit [LinearOrder K] in
/-- Every child of a chain satisfies the child predicate under some bounds. -/
lemma Chain.exists_of_mem : ∀ {lo hi : Option K} {recs : List (K × BNode K V)},
    Chain P lo hi recs → ∀ {r : K × BNode K V}, r ∈ recs → ∃ a b, P a b r.2
  | _, _, [], h, _, _ => by simp [Chain] at h
  | lo, hi, [(k, c)], h, r, hr => by
    obtain rfl := List.mem_singleton.mp hr
    exact ⟨lo, hi, h⟩
  | lo, hi, (k, c) :: r' :: rs, h, r, hr => by
    rcases List.mem_cons.mp hr with rfl | hr
    · exact ⟨lo, some k, h.1⟩
    · exact Chain.exists_of_mem h.2 hr

/-- A chain keeps its shape under a lower first bound. -/
lemma Chain.widen_lo (hW : Widens P) {lo' : Option K} :
    ∀ {lo hi : Option K} {recs : List (K × BNode K V)}, Chain P lo hi recs → LoLe lo' lo →
      Chain P lo' hi recs
  | _, _, [], h, _ => by simp [Chain] at h
  | _, _, [(k, c)], h, hl => hW _ _ _ _ c h hl (fun y hy => ⟨y, hy, le_rfl⟩)
  | _, _, (k, c) :: r :: rs, h, hl =>
    ⟨hW _ _ _ _ c h.1 hl (fun y hy => ⟨y, hy, le_rfl⟩), h.2⟩

/-- A chain keeps its shape under a higher last bound. -/
lemma Chain.widen_hi (hW : Widens P) {hi' : Option K} :
    ∀ {lo hi : Option K} {recs : List (K × BNode K V)}, Chain P lo hi recs → HiLe hi hi' →
      Chain P lo hi' recs
  | _, _, [], h, _ => by simp [Chain] at h
  | _, _, [(k, c)], h, hh => hW _ _ _ _ c h (fun x hx => ⟨x, hx, le_rfl⟩) hh
  | _, _, (k, c) :: r :: rs, h, hh => ⟨h.1, Chain.widen_hi hW h.2 hh⟩

/-- **Removing a child** of a chain of two or more: the child after it (or, for the last,
the one before) takes over its bounds. -/
theorem Chain.del (hP : Bounded P) (hW : Widens P) :
    ∀ {lo hi : Option K} {recs : List (K × BNode K V)} {idx : Nat}, Chain P lo hi recs →
      2 ≤ recs.length → idx < recs.length → Chain P lo hi (bnodeDel recs idx)
  | _, _, [], _, h, _, _ => by simp [Chain] at h
  | _, _, [_], _, _, hl, _ => by simp at hl
  | lo, hi, (k, c) :: r :: rs, 0, h, _, _ => by
    -- the next child takes the first child's lower bound
    have hlt : ∀ x ∈ lo, x < k := fun x hx => (hP _ _ _ h.1).1 x hx k rfl
    simpa [bnodeDel] using Chain.widen_lo hW h.2 fun x hx => ⟨k, rfl, le_of_lt (hlt x hx)⟩
  | lo, hi, (k, c) :: r :: rs, idx + 1, h, _, hidx => by
    by_cases hrs : rs = []
    · -- the last child goes: the one before it takes the upper bound
      subst hrs
      have hidx0 : idx = 0 := by simp at hidx; omega
      subst hidx0
      have hkhi : ∀ y ∈ hi, k < y := Chain.lt hP h.2 k rfl
      simpa [bnodeDel] using
        hW _ _ _ _ c h.1 (fun x hx => ⟨x, hx, le_rfl⟩) fun y hy => ⟨k, rfl, le_of_lt (hkhi y hy)⟩
    · have hrest := Chain.del hP hW h.2 (by simp; exact List.length_pos_of_ne_nil hrs)
        (by simpa using hidx)
      have hne : bnodeDel (r :: rs) idx ≠ [] := by
        apply List.ne_nil_of_length_pos
        rw [length_bnodeDel _ (by simpa using hidx)]
        simpa using List.length_pos_of_ne_nil hrs
      have heq : bnodeDel ((k, c) :: r :: rs) (idx + 1) = (k, c) :: bnodeDel (r :: rs) idx := by
        simp [bnodeDel]
      rw [heq, chain_cons hne]
      exact ⟨h.1, hrest⟩

end Chain

/-! ### The descent -/

omit [LinearOrder K] in
/-- An internal node's search reads every key but the last. -/
lemma bnodeKeys_inner {α : Type} {lvl : Nat} (hlvl : 0 < lvl) (recs : List (K × α)) :
    bnodeKeys lvl recs = recs.dropLast.map Prod.fst := by
  simp [bnodeKeys, bnodeKeyCount, hlvl, List.dropLast_eq_take]

/-- **The child a descent takes** in an internal node with sorted separators: the record
list is cut around it into the records before it, whose keys are not above `k`, and those
after it, the child's own key being above `k` unless it is the last. -/
theorem bnodeChildIdx_route {α : Type} {lvl : Nat} (hlvl : 0 < lvl) {recs : List (K × α)}
    (hne : recs ≠ []) (k : K) (hs : (recs.dropLast.map Prod.fst).Pairwise (· < ·)) :
    ∃ A key c B, recs = A ++ (key, c) :: B ∧ bnodeChildIdx lvl recs k = A.length ∧
      (∀ r ∈ A, r.1 ≤ k) ∧ (B ≠ [] → k < key) := by
  set S := recs.dropLast.map Prod.fst with hS
  rw [bnodeChildIdx_eq lvl recs k (by rw [bnodeKeys_inner hlvl]; exact hs), bnodeKeys_inner hlvl]
  set idx := S.countP (· ≤ k) with hidx
  have hlenS : S.length = recs.length - 1 := by simp [hS]
  have hlen : idx < recs.length := by
    have := @List.countP_le_length _ (fun x => decide (x ≤ k)) S
    have := List.length_pos_of_ne_nil hne
    omega
  -- every separator is the key of the record at its index
  have hSi : ∀ i (hi : i < S.length), S[i] = recs[i].1 := by
    intro i hi
    simp [hS, List.getElem_dropLast]
  refine ⟨recs.take idx, recs[idx].1, recs[idx].2, recs.drop (idx + 1), ?_, by simp; omega,
    fun r hr => ?_, fun hB => ?_⟩
  · simp
  · obtain ⟨i, hi, rfl⟩ := List.mem_iff_getElem.mp hr
    have hi' : i < idx := by simp at hi; omega
    have hiS : i < S.length := by omega
    have := getElem_of_lt_countP hs (le_closed_down k) hiS hi'
    rw [hSi i hiS] at this
    simpa using this
  · have hB' : idx < S.length := by
      have := List.length_pos_of_ne_nil hB
      simp at this
      omega
    by_contra hkey
    have := lt_countP_of_getElem hs (le_closed_down k) hB' (by rw [hSi idx hB']; simpa using hkey)
    omega

/-! ### Consequences of the invariant -/

/-- The level of a valid subtree is its height. -/
lemma WF.level : ∀ {h : Nat} {lo hi : Option K} {n : BNode K V}, WF h lo hi n → n.level = h
  | 0, _, _, .leaf _, _ => rfl
  | _ + 1, _, _, .inner _ _, hw => hw.1
  | 0, _, _, .inner _ _, hw => by simp [WF] at hw
  | _ + 1, _, _, .leaf _, hw => by simp [WF] at hw

/-- The children of a valid internal node satisfy what the chain lemmas need. -/
lemma WF.bounded (h : Nat) : Bounded (fun a b (c : BNode K V) => WF h a b c ∧ 0 < c.recCount) := by
  intro a b c ⟨hw, hpos⟩
  obtain ⟨-, hb, hne⟩ := WF.contents_sorted hw
  obtain ⟨r, hr⟩ := List.exists_mem_of_ne_nil _ (hne hpos)
  exact ⟨fun x hx y hy => lt_of_le_of_lt ((hb r hr).1 x hx) ((hb r hr).2 y hy), hb⟩

/-- **A valid subtree stays valid under wider bounds.** -/
theorem WF.widen : ∀ {h : Nat} {lo hi lo' hi' : Option K} {n : BNode K V}, WF h lo hi n →
    LoLe lo' lo → HiLe hi hi' → WF h lo' hi' n
  | 0, lo, hi, lo', hi', .leaf recs, hw, hl, hh =>
    ⟨hw.1, fun r hr => (hw.2 r hr).mono hl hh⟩
  | h + 1, lo, hi, lo', hi', .inner lvl recs, hw, hl, hh => by
    have hW : Widens (fun a b (c : BNode K V) => WF h a b c ∧ 0 < c.recCount) :=
      fun a b a' b' c hc ha hb => ⟨WF.widen hc.1 ha hb, hc.2⟩
    exact ⟨hw.1, Chain.widen_hi hW (Chain.widen_lo hW hw.2 hl) hh⟩
  | 0, _, _, _, _, .inner _ _, hw, _, _ => by simp [WF] at hw
  | _ + 1, _, _, _, _, .leaf _, hw, _, _ => by simp [WF] at hw

/-- A leaf whose sorted records lie in `[lo, hi)`, cut before a record of key `s`, gives two
valid leaves split at `s`. -/
lemma WF.leaf_split {L R : List (K × V)} {lo hi : Option K} {s : K} {x : V}
    (hs : KeySorted (L ++ (s, x) :: R)) (hb : ∀ r ∈ L ++ (s, x) :: R, InBounds lo hi r.1) :
    WF 0 lo (some s) (.leaf L) ∧ WF 0 (some s) hi (.leaf ((s, x) :: R)) := by
  rw [keySorted_append] at hs
  obtain ⟨hsL, hsR, hLR⟩ := hs
  refine ⟨⟨hsL, fun r hr => ⟨(hb r (by simp [hr])).1, fun u hu => ?_⟩⟩,
    ⟨hsR, fun r hr => ⟨fun l hl => ?_, (hb r (by simp [hr])).2⟩⟩⟩
  · cases hu
    exact hLR r hr (s, x) (by simp)
  · cases hl
    rcases List.mem_cons.mp hr with rfl | hr
    · exact le_rfl
    · exact le_of_lt ((keySorted_cons.mp hsR).1 r hr)

end Bounds

/-! ### Trees -/

/-- A tree (`struct td`): the root node and `t_height`. -/
structure Btree (K V : Type) where
  root : BNode K V
  height : Nat
  deriving DecidableEq

/-- The records of a tree. -/
def Btree.contents (t : Btree K V) : List (K × V) := t.root.contents

/-- `m0_btree_create`: an empty leaf as root, height one. -/
def btreeCreate : Btree K V := ⟨.leaf [], 1⟩

/-- **The B+tree invariant** of a whole tree: every leaf lies `t_height - 1` levels below
the root, levels count down to the leaves, the separator chains of `WF` hold under no bounds,
and no node but the root is empty. -/
def Btree.Valid [LinearOrder K] (t : Btree K V) : Prop :=
  0 < t.height ∧ WF (t.height - 1) none none t.root

theorem btreeCreate_valid [LinearOrder K] : (btreeCreate : Btree K V).Valid :=
  ⟨Nat.one_pos, by simp [btreeCreate, WF, KeySorted]⟩

/-- The records of a valid tree are sorted by key. -/
lemma Btree.Valid.sorted [LinearOrder K] {t : Btree K V} (ht : t.Valid) :
    KeySorted t.contents :=
  (WF.contents_sorted ht.2).1

end Motr
