import Mathlib

/-!
Tilings of an interval of offsets by a list of pieces, piece `s` covering `[lo s, hi s)`:
the pieces follow each other without gap or overlap and none is empty. A tiling is read
through `pieceAt`, the piece that covers an offset.

* `tiles_append` cuts a tiling in two at a boundary, `Tiles.split` at the piece covering an
  offset, and `Tiles.mem` bounds every piece.
* `Tiles.split_overlap` cuts a tiling around the pieces that overlap an interval.
* `Tiles.pieceAt_eq`: a piece of a tiling is the one `pieceAt` finds for each of its
  offsets.
-/

namespace Motr

section Tiling

variable {α : Type} (lo hi : α → Nat)

/-- `l` tiles `[a, b)`: its first piece starts at `a`, each next one where the one before it
ends, the last ends at `b`, and no piece is empty. -/
def Tiles : Nat → Nat → List α → Prop
  | a, b, [] => a = b
  | a, b, s :: r => lo s = a ∧ a < hi s ∧ Tiles (hi s) b r

/-- The piece covering offset `x`. -/
def pieceAt (l : List α) (x : Nat) : Option α := l.find? fun s => lo s ≤ x ∧ x < hi s

variable {lo hi}

@[simp] lemma tiles_nil {a b : Nat} : Tiles lo hi a b [] ↔ a = b := Iff.rfl

@[simp] lemma tiles_cons {a b : Nat} {s : α} {r : List α} :
    Tiles lo hi a b (s :: r) ↔ lo s = a ∧ a < hi s ∧ Tiles lo hi (hi s) b r := Iff.rfl

lemma Tiles.le : ∀ {a b : Nat} {l : List α}, Tiles lo hi a b l → a ≤ b
  | _, _, [], h => le_of_eq h
  | _, _, _ :: _, ⟨_, hlt, hr⟩ => (le_of_lt hlt).trans hr.le

/-- A tiling of `[a, c)` cut between two pieces: a tiling of `[a, b)` and one of `[b, c)`. -/
theorem tiles_append : ∀ {a c : Nat} {l₁ l₂ : List α},
    Tiles lo hi a c (l₁ ++ l₂) ↔ ∃ b, Tiles lo hi a b l₁ ∧ Tiles lo hi b c l₂
  | a, c, [], l₂ => by simp
  | a, c, s :: r, l₂ => by
    rw [List.cons_append, tiles_cons, tiles_append]
    constructor
    · rintro ⟨h₁, h₂, b, h₃, h₄⟩
      exact ⟨b, ⟨h₁, h₂, h₃⟩, h₄⟩
    · rintro ⟨b, ⟨h₁, h₂, h₃⟩, h₄⟩
      exact ⟨h₁, h₂, b, h₃, h₄⟩

/-- Every piece of a tiling of `[a, b)` is a non-empty part of it. -/
theorem Tiles.mem : ∀ {a b : Nat} {l : List α}, Tiles lo hi a b l →
    ∀ {s}, s ∈ l → a ≤ lo s ∧ lo s < hi s ∧ hi s ≤ b
  | _, _, [], _, _, hs => absurd hs List.not_mem_nil
  | _, _, t :: r, ⟨h₁, h₂, h₃⟩, s, hs => by
    rcases List.mem_cons.mp hs with rfl | hs
    · exact ⟨h₁.ge, h₁ ▸ h₂, h₃.le⟩
    · have := h₃.mem hs
      omega

/-- **The piece covering an offset**: a tiling of `[a, b)` is cut around the piece that
covers `x ∈ [a, b)`. -/
theorem Tiles.split : ∀ {a b x : Nat} {l : List α}, Tiles lo hi a b l → a ≤ x → x < b →
    ∃ A s R, l = A ++ s :: R ∧ Tiles lo hi a (lo s) A ∧ lo s ≤ x ∧ x < hi s ∧
      Tiles lo hi (hi s) b R
  | _, _, _, [], h, hax, hxb => absurd (h ▸ hax) (not_le.mpr hxb)
  | a, b, x, s :: r, ⟨h₁, h₂, h₃⟩, hax, hxb => by
    by_cases hx : x < hi s
    · exact ⟨[], s, r, rfl, h₁.symm, h₁ ▸ hax, hx, h₃⟩
    · obtain ⟨A, t, R, rfl, hA, ht⟩ := h₃.split (not_lt.mp hx) hxb
      exact ⟨s :: A, t, R, rfl, ⟨h₁, h₂, hA⟩, ht⟩

/-- **The pieces overlapping `[x, y)`**, for `a ≤ x < y ≤ b`: a tiling of `[a, b)` is cut
into the pieces before them, the pieces from `s₁` (which covers `x`) up to the last one
`sₘ` (which covers `y - 1`), and the pieces after. -/
theorem Tiles.split_overlap {a b x y : Nat} {l : List α} (h : Tiles lo hi a b l) (hax : a ≤ x)
    (hxy : x < y) (hyb : y ≤ b) :
    ∃ A B C s₁ sₘ, l = A ++ B ++ sₘ :: C ∧ (B ++ sₘ :: C).head? = some s₁ ∧
      Tiles lo hi a (lo s₁) A ∧ lo s₁ ≤ x ∧ x < hi s₁ ∧ Tiles lo hi (lo s₁) (lo sₘ) B ∧
      lo sₘ < y ∧ y ≤ hi sₘ ∧ Tiles lo hi (hi sₘ) b C := by
  obtain ⟨A, s₁, R, rfl, hA, h₁x, hx₁, hR⟩ := h.split hax (by omega)
  have h₁ : Tiles lo hi (lo s₁) b (s₁ :: R) := ⟨rfl, by omega, hR⟩
  obtain ⟨B, sₘ, C, hBC, hB, hₘ, hyₘ, hC⟩ := h₁.split (x := y - 1) (by omega) (by omega)
  refine ⟨A, B, C, s₁, sₘ, by rw [List.append_assoc, ← hBC], by rw [← hBC]; rfl, hA, h₁x, hx₁,
    hB, by omega, by omega, hC⟩

/-- **A piece is the one covering each of its offsets.** -/
theorem Tiles.pieceAt_eq : ∀ {a b x : Nat} {l : List α}, Tiles lo hi a b l →
    ∀ {s}, s ∈ l → lo s ≤ x → x < hi s → pieceAt lo hi l x = some s
  | _, _, _, [], _, _, hs, _, _ => absurd hs List.not_mem_nil
  | _, _, x, t :: r, ⟨h₁, h₂, h₃⟩, s, hs, hlo, hhi => by
    rw [pieceAt, List.find?_cons]
    rcases List.mem_cons.mp hs with rfl | hs
    · simp [hlo, hhi]
    · have := h₃.mem hs
      have hskip : ¬ (lo t ≤ x ∧ x < hi t) := by omega
      simp only [hskip, decide_false]
      exact h₃.pieceAt_eq hs hlo hhi

end Tiling

end Motr
