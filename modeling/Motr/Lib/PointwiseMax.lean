import Mathlib.Order.Bounds.Basic
import Mathlib.Data.Set.Insert

/-!
The pointwise maximum of a set of lists of one length: the list whose entry at every position
is the greatest of the entries of the lists at that position. It is unique, and merging the
lists one at a time with `List.zipWith max` reaches it whatever their order.
-/

namespace Motr

variable {α : Type*} [LinearOrder α]

/-- `m` is the pointwise maximum of the lists of `S`: they all have its length, and each entry
of `m` is the greatest entry of the lists of `S` at its position. -/
def IsPointwiseMax (m : List α) (S : Set (List α)) : Prop :=
  (∀ l ∈ S, l.length = m.length) ∧
    ∀ (i : ℕ) x, m[i]? = some x → IsGreatest {y | ∃ l ∈ S, l[i]? = some y} x

lemma isPointwiseMax_singleton (l : List α) : IsPointwiseMax l {l} := by
  refine ⟨fun l' hl' => by rw [hl'], fun i x hx => ⟨⟨l, rfl, hx⟩, ?_⟩⟩
  rintro y ⟨l', rfl, hy⟩
  rw [hx] at hy
  exact (Option.some.inj hy).ge

/-- Merging one more list of the same length with `List.zipWith max`. -/
lemma IsPointwiseMax.insert_zipWith {m l : List α} {S : Set (List α)}
    (hm : IsPointwiseMax m S) (hl : l.length = m.length) :
    IsPointwiseMax (List.zipWith max m l) (insert l S) := by
  have hlen : (List.zipWith max m l).length = m.length := by simp [hl]
  refine ⟨?_, fun i x hx => ?_⟩
  · rintro l' (rfl | hl')
    · rw [hlen, hl]
    · rw [hlen, hm.1 l' hl']
  rw [List.getElem?_zipWith] at hx
  obtain ⟨a, ha, b, hb, rfl⟩ : ∃ a, m[i]? = some a ∧ ∃ b, l[i]? = some b ∧ max a b = x := by
    cases hma : m[i]? <;> cases hlb : l[i]? <;> simp_all
  obtain ⟨⟨l₀, hl₀, ha₀⟩, hub⟩ := hm.2 i a ha
  refine ⟨?_, ?_⟩
  · -- the larger of the two entries is attained, by a list of `S` or by `l`
    rcases le_total a b with hab | hab
    · exact ⟨l, Set.mem_insert _ _, by rw [hb, max_eq_right hab]⟩
    · exact ⟨l₀, Set.mem_insert_of_mem _ hl₀, by rw [ha₀, max_eq_left hab]⟩
  · rintro y ⟨l', (rfl | hl'), hy⟩
    · rw [hb] at hy
      exact (Option.some.inj hy) ▸ le_max_right a b
    · exact (hub ⟨l', hl', hy⟩).trans (le_max_left a b)

/-- The pointwise maximum of a nonempty set is unique. -/
lemma IsPointwiseMax.unique {m m' : List α} {S : Set (List α)} (hm : IsPointwiseMax m S)
    (hm' : IsPointwiseMax m' S) (hS : S.Nonempty) : m = m' := by
  obtain ⟨l, hl⟩ := hS
  have hlen : m.length = m'.length := (hm.1 l hl).symm.trans (hm'.1 l hl)
  refine List.ext_getElem? fun i => ?_
  cases hx : m[i]? with
  | none =>
    rw [List.getElem?_eq_none_iff] at hx
    rw [eq_comm, List.getElem?_eq_none_iff]
    omega
  | some x =>
    obtain ⟨x', hx'⟩ : ∃ x', m'[i]? = some x' := by
      have hi : i < m'.length := hlen ▸ (List.getElem?_eq_some_iff.mp hx).1
      exact ⟨m'[i], List.getElem?_eq_getElem hi⟩
    rw [hx', (hm.2 i x hx).unique (hm'.2 i x' hx')]

end Motr
