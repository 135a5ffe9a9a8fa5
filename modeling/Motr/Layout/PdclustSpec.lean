import Motr.Layout.Pdclust

/-!
What the parity declustered map computes. `permute` builds a permutation of the `P` columns
and its inverse from every Lehmer code whose draws stay below their bounds (`permute_spec`);
the tile cache then always holds the permutation of its tile and its inverse
(`TileCacheOk`); and, for a layout `pdclust_populate` sizes, `m0_pdclust_instance_inv` undoes
`m0_pdclust_instance_map` and the map undoes the inverse, and the units of a group go to
distinct objects, on every tile whose Lehmer code is within bounds.

`m0_rnd` promises a draw below its bound, and keeps the promise except when the 48 high bits of
the generator's state are all ones (`m0Rnd_lt`, `m0Rnd_eq_max`); a tile drawn from such a state
fails the assertion of `permute`.
-/

namespace Motr

/-! ### Permutations of the columns, by position -/

section RangePerm

variable {n : ℕ} {s : List ℕ}

lemma length_of_perm_range (hs : s.Perm (List.range n)) : s.length = n := by
  rw [hs.length_eq, List.length_range]

lemma getD_lt_of_perm_range (hs : s.Perm (List.range n)) {p : ℕ} (hp : p < n) :
    s.getD p 0 < n := by
  have hp' : p < s.length := by rw [length_of_perm_range hs]; exact hp
  rw [List.getD_eq_getElem _ _ hp', ← List.mem_range, ← hs.mem_iff]
  exact List.getElem_mem _

lemma getD_inj_of_perm_range (hs : s.Perm (List.range n)) {p q : ℕ} (hp : p < n) (hq : q < n)
    (h : s.getD p 0 = s.getD q 0) : p = q := by
  have hp' : p < s.length := by rw [length_of_perm_range hs]; exact hp
  have hq' : q < s.length := by rw [length_of_perm_range hs]; exact hq
  rw [List.getD_eq_getElem _ _ hp', List.getD_eq_getElem _ _ hq'] at h
  exact (hs.nodup_iff.mpr List.nodup_range).getElem_inj_iff.mp h

lemma exists_getD_of_perm_range (hs : s.Perm (List.range n)) {x : ℕ} (hx : x < n) :
    ∃ p < n, s.getD p 0 = x := by
  obtain ⟨p, hp, rfl⟩ := List.getElem_of_mem (hs.mem_iff.mpr (List.mem_range.mpr hx))
  exact ⟨p, length_of_perm_range hs ▸ hp, List.getD_eq_getElem _ _ hp⟩

end RangePerm

lemma getD_set_self_of_lt {l : List ℕ} {i a : ℕ} (h : i < l.length) : (l.set i a).getD i 0 = a := by
  simp [List.getD_eq_getElem?_getD, h]

lemma getD_set_of_ne {l : List ℕ} {i j a : ℕ} (h : i ≠ j) : (l.set i a).getD j 0 = l.getD j 0 := by
  simp [List.getD_eq_getElem?_getD, List.getElem?_set_ne h]

lemma getD_eq_of_take_eq {l l' : List ℕ} {i p : ℕ} (h : l.take i = l'.take i) (hp : p < i) :
    l.getD p 0 = l'.getD p 0 := by
  rw [List.getD_eq_getElem?_getD, List.getD_eq_getElem?_getD, ← List.getElem?_take_of_lt hp, h,
    List.getElem?_take_of_lt hp]

/-! ### `permute` -/

/-- The loop of `permute` from step `i` keeps `s` a permutation of the columns, and sets `r`
at the column it places at each position, so that `r` inverts `s` on every position placed. -/
lemma permuteLoop_spec {n : ℕ} :
    ∀ (ks : List ℕ) (i : ℕ) (s r : List ℕ), s.Perm (List.range n) → r.length = n →
      (∀ m (h : m < ks.length), ks[m] + (i + m) < n) →
      (∀ p < i, r.getD (s.getD p 0) 0 = p) →
      ∃ s' r', permuteLoop n i ks s r = some (s', r') ∧ s'.Perm (List.range n) ∧
        r'.length = n ∧ ∀ p < i + ks.length, r'.getD (s'.getD p 0) 0 = p
  | [], i, s, r, hs, hr, _, hinv => ⟨s, r, rfl, hs, hr, by simpa using hinv⟩
  | k :: ks, i, s, r, hs, hr, hk, hinv => by
    have ht : k + i < n := by
      have := hk 0 (by simp)
      simpa only [List.getElem_cons_zero, Nat.add_zero] using this
    have hlen := length_of_perm_range hs
    have hki : k + i < s.length := by omega
    have hx : s.getD (k + i) 0 = s[k + i] := List.getD_eq_getElem ..
    -- the step: the column at `t = k + i` placed at `i`, and `r` set there
    have hs₁ : (moveDown s i (k + i) (s.getD (k + i) 0)).Perm (List.range n) := by
      rw [hx]
      exact (moveDown_perm (by omega) (by omega)).trans hs
    have hr₁ : (r.set (s.getD (k + i) 0) i).length = n := by rw [List.length_set, hr]
    have hinv₁ : ∀ p < i + 1, (r.set (s.getD (k + i) 0) i).getD
        ((moveDown s i (k + i) (s.getD (k + i) 0)).getD p 0) 0 = p := by
      intro p hp
      rcases Nat.lt_succ_iff_lt_or_eq.mp hp with hp | hpi
      · -- an earlier position: its column is not the one moved
        rw [getD_eq_of_take_eq (take_moveDown _ (by omega)) hp]
        have hne : s.getD (k + i) 0 ≠ s.getD p 0 := fun he =>
          absurd (getD_inj_of_perm_range hs ht (by omega) he) (by omega)
        rw [getD_set_of_ne hne, hinv p hp]
      · rw [hpi]
        have hplaced : (moveDown s i (k + i) (s.getD (k + i) 0)).getD i 0 = s.getD (k + i) 0 := by
          rw [List.getD_eq_getElem?_getD, getElem?_moveDown_self _ (by omega), Option.getD_some]
        rw [hplaced, getD_set_self_of_lt (by rw [hr]; exact getD_lt_of_perm_range hs ht)]
    obtain ⟨s', r', h, hs', hr', hinv'⟩ := permuteLoop_spec ks (i + 1) _ _ hs₁ hr₁
      (fun m hm => by
        have := hk (m + 1) (by simpa using hm)
        simpa only [List.getElem_cons_succ, Nat.add_assoc, Nat.add_comm 1] using this)
      hinv₁
    refine ⟨s', r', ?_, hs', hr', fun p hp => hinv' p (by simpa [Nat.add_assoc, Nat.add_comm 1] using hp)⟩
    rw [permuteLoop, if_pos ht]
    exact h

/-- The last assignment of `permute`, `r[s[n - 1]] = n - 1`, completes the inverse the loop
built on the first `n - 1` positions. -/
lemma permute_last {n : ℕ} {s r : List ℕ} (hs : s.Perm (List.range n)) (hr : r.length = n)
    (hinv : ∀ p < n - 1, r.getD (s.getD p 0) 0 = p) :
    ∀ p < n, (r.set (s.getD (n - 1) 0) (n - 1)).getD (s.getD p 0) 0 = p := by
  intro p hp
  rcases Nat.lt_or_ge p (n - 1) with hp' | hp'
  · -- a position placed by the loop
    have hne : s.getD (n - 1) 0 ≠ s.getD p 0 := fun he =>
      absurd (getD_inj_of_perm_range hs (by omega) hp he) (by omega)
    rw [getD_set_of_ne hne]
    exact hinv p hp'
  · -- the last position, which the loop leaves for the last element
    obtain rfl : p = n - 1 := by omega
    exact getD_set_self_of_lt (by rw [hr]; exact getD_lt_of_perm_range hs hp)

/-- **`permute`** builds, from a Lehmer code within bounds, a permutation `s` of the columns
and its inverse `r` (the postcondition of `permute`). -/
lemma permute_spec {n : ℕ} {k r : List ℕ} (hr : r.length = n)
    (hklen : n - 1 ≤ k.length) (hk : ∀ i (h : i < k.length), k[i] + i < n) :
    ∃ s r', permute n k (List.range n) r = some (s, r') ∧ s.Perm (List.range n) ∧
      r'.length = n ∧ ∀ p < n, r'.getD (s.getD p 0) 0 = p := by
  obtain ⟨s, r₁, h, hs, hr₁, hinv⟩ := permuteLoop_spec (k.take (n - 1)) 0 (List.range n) r
    (List.Perm.refl _) hr
    (fun m hm => by simpa using hk m (by simp at hm; omega)) (by simp)
  refine ⟨s, r₁.set (s.getD (n - 1) 0) (n - 1), by simp [permute, h], hs,
    by rw [List.length_set, hr₁], permute_last hs hr₁ fun p hp => hinv p (by simp; omega)⟩

/-- **`permute` keeps a permutation and builds its inverse**, from any permutation `s` of the
columns and a Lehmer code within bounds: `s` stays a permutation and `r` inverts it on both
sides; `m0_permute`, the same loop in `lib/misc.c`, does likewise. -/
theorem permute_builds_inverse {n : ℕ} {k s r : List ℕ} (hklen : n - 1 ≤ k.length)
    (hk : ∀ i < n - 1, k.getD i 0 + i < n) (hs : s.Perm (List.range n)) (hr : r.length = n) :
    (∃ s' r', permute n k s r = some (s', r') ∧ s'.Perm (List.range n) ∧
      ∀ i < n, s'.getD (r'.getD i 0) 0 = i ∧ r'.getD (s'.getD i 0) 0 = i) ∧
    (∃ s' r', m0Permute n k s r = some (s', r') ∧ s'.Perm (List.range n) ∧
      ∀ i < n, s'.getD (r'.getD i 0) 0 = i ∧ r'.getD (s'.getD i 0) 0 = i) := by
  obtain ⟨s₁, r₁, h, hs₁, hr₁, hinv⟩ := permuteLoop_spec (k.take (n - 1)) 0 s r hs hr
    (fun m hm => by
      have hm' : m < n - 1 := by simp at hm; omega
      have := hk m hm'
      simpa [List.getD_eq_getElem?_getD, List.getElem?_eq_getElem (by omega : m < k.length)]
        using this)
    (by simp)
  set r' := r₁.set (s₁.getD (n - 1) 0) (n - 1)
  have hright : ∀ p < n, r'.getD (s₁.getD p 0) 0 = p :=
    permute_last hs₁ hr₁ fun p hp => hinv p (by simp; omega)
  -- a right inverse of a permutation is a left inverse too
  have hleft : ∀ i < n, s₁.getD (r'.getD i 0) 0 = i := by
    intro i hi
    obtain ⟨p, hp, rfl⟩ := exists_getD_of_perm_range hs₁ hi
    rw [hright p hp]
  have hperm : permute n k s r = some (s₁, r') := by simp [permute, h, r']
  exact ⟨⟨s₁, r', hperm, hs₁, fun i hi => ⟨hleft i hi, hright i hi⟩⟩,
    ⟨s₁, r', hperm, hs₁, fun i hi => ⟨hleft i hi, hright i hi⟩⟩⟩

theorem permute_builds_inverse_three :
    (∃ s' r', permute 3 [2, 0, 0] [0, 1, 2] [0, 0, 0] = some (s', r') ∧ s'.Perm (List.range 3) ∧
      ∀ i < 3, s'.getD (r'.getD i 0) 0 = i ∧ r'.getD (s'.getD i 0) 0 = i) ∧
    (∃ s' r', m0Permute 3 [2, 0, 0] [0, 1, 2] [0, 0, 0] = some (s', r') ∧
      s'.Perm (List.range 3) ∧ ∀ i < 3, s'.getD (r'.getD i 0) 0 = i ∧ r'.getD (s'.getD i 0) 0 = i) :=
  permute_builds_inverse (by decide) (by decide) (by decide) (by decide)

/-- The permutation `permute` builds does not depend on the array the inverse is built in. -/
lemma permuteLoop_fst {n : ℕ} :
    ∀ (ks : List ℕ) (i : ℕ) (s r r' : List ℕ),
      (permuteLoop n i ks s r).map (·.1) = (permuteLoop n i ks s r').map (·.1)
  | [], _, _, _, _ => rfl
  | k :: ks, i, s, r, r' => by
    simp only [permuteLoop]
    split_ifs
    · exact permuteLoop_fst ks (i + 1) _ _ _
    · rfl

lemma permute_map_fst {n : ℕ} (k s r : List ℕ) :
    (permute n k s r).map (·.1) = (permuteLoop n 0 (k.take (n - 1)) s r).map (·.1) := by
  rw [permute, Option.map_map]
  rfl

lemma permute_fst (n : ℕ) (k s r r' : List ℕ) :
    (permute n k s r).map (·.1) = (permute n k s r').map (·.1) := by
  rw [permute_map_fst, permute_map_fst, permuteLoop_fst]

/-! ### The tile cache -/

section Tile

variable (attr : PdclustAttr) (gfid : M0Fid)

/-- The Lehmer code `permute_column` draws for tile `omega`. -/
def tileLcode (omega : ℕ) : Option (List ℕ) :=
  lcodeLoop attr.paP (attr.paP - 1) 0 (tileRstate attr gfid omega)

/-- The permutation of the columns of tile `omega`. -/
def tileColumns (omega : ℕ) : Option (List ℕ) :=
  (tileLcode attr gfid omega).bind fun k =>
    (permute attr.paP k (List.range attr.paP) (List.replicate attr.paP 0)).map (·.1)

/-- The Lehmer code of tile `omega` keeps the bound `m0_rnd` promises, `lcode[i] < P - i`. -/
def TileOk (omega : ℕ) : Prop :=
  ∃ k, tileLcode attr gfid omega = some k ∧ ∀ i (h : i < k.length), k[i] + i < attr.paP

/-- `pdclust_instance_invariant` of the tile cache, with the tile it is for: it holds the
permutation of its tile and the inverse of that permutation. -/
structure TileCacheOk (tc : TileCache) : Prop where
  columns : tileColumns attr gfid tc.tcTileNo = some tc.tcPermute
  perm : tc.tcPermute.Perm (List.range attr.paP)
  length : tc.tcInverse.length = attr.paP
  inverse : ∀ p < attr.paP, tc.tcInverse.getD (tc.tcPermute.getD p 0) 0 = p

variable {attr gfid}

lemma lcodeLoop_length {P : ℕ} :
    ∀ (n i : ℕ) (rstate : UInt64) {k : List ℕ}, lcodeLoop P n i rstate = some k → k.length = n
  | 0, _, _, _, h => by
    cases h
    rfl
  | n + 1, i, rstate, k, h => by
    simp only [lcodeLoop, Option.bind_eq_bind, Option.bind_eq_some_iff] at h
    obtain ⟨⟨v, rstate'⟩, -, ks, hks, hk⟩ := h
    cases hk
    simp [lcodeLoop_length n (i + 1) rstate' hks]

/-- The column the cache sends `t` to comes back through its inverse. -/
lemma TileCacheOk.permute_inverse {tc : TileCache} (htc : TileCacheOk attr gfid tc) {x : ℕ}
    (hx : x < attr.paP) :
    tc.tcInverse.getD x 0 < attr.paP ∧ tc.tcPermute.getD (tc.tcInverse.getD x 0) 0 = x := by
  obtain ⟨p, hp, rfl⟩ := exists_getD_of_perm_range htc.perm hx
  rw [htc.inverse p hp]
  exact ⟨hp, rfl⟩

/-- Two caches of one tile hold the same permutation. -/
lemma TileCacheOk.permute_eq {tc tc' : TileCache} (htc : TileCacheOk attr gfid tc)
    (htc' : TileCacheOk attr gfid tc') (hno : tc.tcTileNo = tc'.tcTileNo) :
    tc.tcPermute = tc'.tcPermute :=
  Option.some.inj (htc.columns.symm.trans (hno ▸ htc'.columns))

/-- `permute_column` on a cache of another tile rebuilds it for `omega`. -/
lemma permuteColumn_miss (tc : TileCache) (hlen : tc.tcInverse.length = attr.paP)
    {omega t : ℕ} (hno : tc.tcTileNo ≠ omega) (homega : TileOk attr gfid omega) (ht : t < attr.paP) :
    ∃ tc', permuteColumn attr gfid tc omega t = some (tc'.tcPermute.getD t 0, tc') ∧
      TileCacheOk attr gfid tc' ∧ tc'.tcTileNo = omega := by
  obtain ⟨k, hk, hkv⟩ := homega
  have hklen : k.length = attr.paP - 1 := lcodeLoop_length _ _ _ hk
  obtain ⟨s, r, hperm, hs, hr, hinv⟩ := permute_spec hlen hklen.ge hkv
  refine ⟨⟨omega, s, r, k⟩, ?_, ⟨?_, hs, hr, hinv⟩, rfl⟩
  · simp only [tileLcode] at hk
    simp [permuteColumn, ht, hno, hk, hperm]
  · -- the permutation does not depend on the inverse array it was built with
    have hfst := permute_fst attr.paP k (List.range attr.paP) (List.replicate attr.paP 0) tc.tcInverse
    rw [hperm] at hfst
    simp [tileColumns, hk, hfst]

/-- `permute_column` on a cache of its tile reads it. -/
lemma permuteColumn_hit {tc : TileCache} {omega t : ℕ} (hno : tc.tcTileNo = omega)
    (ht : t < attr.paP) :
    permuteColumn attr gfid tc omega t = some (tc.tcPermute.getD t 0, tc) := by
  simp [permuteColumn, ht, hno]

/-- **`permute_column`** leaves the cache holding tile `omega`, and returns the column `t` is
sent to. -/
lemma permuteColumn_spec {tc : TileCache} (htc : TileCacheOk attr gfid tc)
    {omega t : ℕ} (homega : TileOk attr gfid omega) (ht : t < attr.paP) :
    ∃ tc', permuteColumn attr gfid tc omega t = some (tc'.tcPermute.getD t 0, tc') ∧
      TileCacheOk attr gfid tc' ∧ tc'.tcTileNo = omega := by
  by_cases hno : tc.tcTileNo = omega
  · exact ⟨tc, permuteColumn_hit hno ht, htc, hno⟩
  · exact permuteColumn_miss tc htc.length hno homega ht

/-- `pdclust_instance_build` leaves the cache holding tile `0`. -/
lemma pdclustInstanceBuild_ok {pl : PdclustLayout} (hP : 0 < pl.plAttr.paP)
    (h0 : TileOk pl.plAttr gfid 0) :
    ∃ pi, pdclustInstanceBuild pl gfid = some pi ∧ pi.piLayout = pl ∧ pi.piGfid = gfid ∧
      TileCacheOk pl.plAttr gfid pi.piTileCache := by
  obtain ⟨tc', h, htc', -⟩ := permuteColumn_miss
    ⟨1, List.replicate pl.plAttr.paP 0, List.replicate pl.plAttr.paP 0,
      List.replicate pl.plAttr.paP 0⟩ (List.length_replicate ..) (by simp) h0 hP
  exact ⟨⟨pl, gfid, tc'⟩, by simp [pdclustInstanceBuild, h], rfl, rfl, htc'⟩

end Tile

/-! ### The generator -/

/-- The step of the generator of `m0_rnd`. -/
def m0RndNext (prev : UInt64) : UInt64 := prev * 0x5DEECE66D + 0xB

lemma m0Rnd_eq {max prev : UInt64} (hmax : max.toNat < 2 ^ 48) :
    m0Rnd max prev =
      some ((m0RndNext prev >>> 16) * max / (~~~(0 : UInt64) >>> 16), m0RndNext prev) := by
  have h : max >>> 48 = 0 := UInt64.toNat_inj.mp (by
    simp [UInt64.toNat_shiftRight, Nat.shiftRight_eq_div_pow]
    omega)
  simp [m0Rnd, m0RndNext, h]

/-- The number `m0_rnd` draws, over the naturals: the 48 high bits `x` of the new state,
times `max`, in 64 bits, over `2^48 - 1`. -/
lemma toNat_m0Rnd_draw (x max : UInt64) :
    ((x >>> 16) * max / (~~~(0 : UInt64) >>> 16)).toNat =
      x.toNat / 2 ^ 16 * max.toNat % 2 ^ 64 / (2 ^ 48 - 1) := by
  have hden : (~~~(0 : UInt64) >>> 16).toNat = 2 ^ 48 - 1 := by decide
  rw [UInt64.toNat_div, UInt64.toNat_mul, hden]
  simp [UInt64.toNat_shiftRight, Nat.shiftRight_eq_div_pow]

/-- **`m0_rnd` keeps its promise `result < max`** unless the 48 high bits of its new state are
all ones. -/
lemma m0Rnd_lt {max prev : UInt64} (hmax : 0 < max.toNat) (hmax' : max.toNat < 2 ^ 32)
    (htop : (m0RndNext prev).toNat / 2 ^ 16 ≠ 2 ^ 48 - 1) :
    ∃ v, m0Rnd max prev = some (v, m0RndNext prev) ∧ v.toNat < max.toNat := by
  refine ⟨_, m0Rnd_eq (by omega), ?_⟩
  rw [toNat_m0Rnd_draw, Nat.div_lt_iff_lt_mul (by norm_num)]
  have hx : (m0RndNext prev).toNat / 2 ^ 16 < 2 ^ 48 - 1 := by
    have := UInt64.toNat_lt (m0RndNext prev)
    omega
  generalize (m0RndNext prev).toNat / 2 ^ 16 = x at hx
  generalize max.toNat = m at hmax hmax'
  by_cases hov : x * m < 2 ^ 64
  · -- no wrap: `x < 2^48 - 1` keeps the product below `(2^48 - 1) * m`
    rw [Nat.mod_eq_of_lt hov, Nat.mul_comm m]
    exact Nat.mul_lt_mul_of_pos_right hx hmax
  · -- a wrapped product needs `m > 2^16`, and `(2^48 - 1) * m` is then past `2^64`
    have hm : 2 ^ 16 < m := by
      by_contra hm
      exact hov (calc x * m < 2 ^ 48 * 2 ^ 16 :=
          Nat.mul_lt_mul_of_lt_of_le (by omega) (by omega) (by omega)
        _ = 2 ^ 64 := by norm_num)
    calc x * m % 2 ^ 64 < 2 ^ 64 := Nat.mod_lt _ (by norm_num)
      _ ≤ (2 ^ 16 + 1) * (2 ^ 48 - 1) := by norm_num
      _ ≤ m * (2 ^ 48 - 1) := Nat.mul_le_mul_right _ hm

/-- **`m0_rnd` breaks its promise**: when the 48 high bits of its new state are all ones, it
draws `max` itself, for every `max` up to `2^16`. -/
lemma m0Rnd_eq_max {max prev : UInt64} (hmax : max.toNat ≤ 2 ^ 16)
    (htop : (m0RndNext prev).toNat / 2 ^ 16 = 2 ^ 48 - 1) :
    ∃ v, m0Rnd max prev = some (v, m0RndNext prev) ∧ v.toNat = max.toNat := by
  refine ⟨_, m0Rnd_eq (by omega), ?_⟩
  rw [toNat_m0Rnd_draw, htop, Nat.mod_eq_of_lt (by
    calc (2 ^ 48 - 1) * max.toNat ≤ (2 ^ 48 - 1) * 2 ^ 16 := Nat.mul_le_mul_left _ hmax
      _ < 2 ^ 64 := by norm_num)]
  exact Nat.mul_div_cancel_left _ (by norm_num)

/-- The draws of a tile keep their bounds while no state of the generator has its 48 high bits
all ones. -/
lemma lcodeLoop_lt {P : ℕ} (hP : P < 2 ^ 32) :
    ∀ (n i : ℕ) (rstate : UInt64), i + n < P →
      (∀ m < n, (m0RndNext^[m + 1] rstate).toNat / 2 ^ 16 ≠ 2 ^ 48 - 1) →
      ∃ k, lcodeLoop P n i rstate = some k ∧ ∀ m (h : m < k.length), k[m] + (i + m) < P
  | 0, _, _, _, _ => ⟨[], rfl, fun _ h => absurd h (Nat.not_lt_zero _)⟩
  | n + 1, i, rstate, hn, htop => by
    have hmax : ((P - i).toUInt64).toNat = P - i := by
      rw [UInt64.toNat_ofNat', Nat.mod_eq_of_lt (by omega)]
    have hv : ∃ v, m0Rnd (P - i).toUInt64 rstate = some (v, m0RndNext rstate) ∧
        v.toNat < ((P - i).toUInt64).toNat :=
      m0Rnd_lt (by omega) (by omega) (htop 0 (by omega))
    obtain ⟨v, hv, hlt⟩ := hv
    -- the later draws, from the next state of the generator
    obtain ⟨ks, hks, hkslt⟩ := lcodeLoop_lt hP n (i + 1) (m0RndNext rstate) (by omega)
      fun m hm => by
        have h := htop (m + 1) (by omega)
        rwa [Function.iterate_succ_apply] at h
    refine ⟨v.toNat :: ks, by simp [lcodeLoop, hv, hks], fun m hm => ?_⟩
    cases m with
    | zero => simp only [List.getElem_cons_zero]; omega
    | succ m =>
      have := hkslt m (by simpa using hm)
      simp only [List.getElem_cons_succ]
      omega

/-- A tile is within bounds when no state its draws go through has its 48 high bits all
ones. -/
lemma tileOk_of_draws {attr : PdclustAttr} {gfid : M0Fid} {omega : ℕ} (hP0 : 0 < attr.paP)
    (hP : attr.paP < 2 ^ 32)
    (htop : ∀ m < attr.paP - 1,
      (m0RndNext^[m + 1] (tileRstate attr gfid omega)).toNat / 2 ^ 16 ≠ 2 ^ 48 - 1) :
    TileOk attr gfid omega := by
  obtain ⟨k, hk, hlt⟩ := lcodeLoop_lt hP (attr.paP - 1) 0 _ (by omega) htop
  exact ⟨k, hk, fun m hm => by simpa using hlt m hm⟩

/-! ### Seeds that start a tile at the top state

`m0_hash` and the step of the generator are products by odd numbers modulo `2^64`, so both are
onto: whatever the high half of the seed, the global fid and the tile, some low half of the seed
starts the generator of the tile at any state chosen, in particular at the one whose next state
has its 48 high bits all ones. -/

section Top

open scoped UInt64.CommRing

/-- A shift of a 64-bit word by less than 64 is a product by a power of two. -/
lemma shiftLeft_eq_mul_two_pow (y : UInt64) (k : ℕ) (hk : k < 64) :
    y <<< k.toUInt64 = y * (2 ^ k : ℕ).toUInt64 := by
  apply UInt64.toNat_inj.mp
  simp [UInt64.toNat_shiftLeft, UInt64.toNat_mul, Nat.shiftLeft_eq, Nat.mod_eq_of_lt hk]

/-- `m0_hash` is the product by `0x9e37fffffffc0001`, its shifts and sums adding up the
product's terms. -/
lemma m0Hash_eq_mul (x : UInt64) : m0Hash x = x * 0x9e37fffffffc0001 := by
  have h18 : ∀ y : UInt64, y <<< 18 = y * 262144 := fun y =>
    shiftLeft_eq_mul_two_pow y 18 (by norm_num)
  have h33 : ∀ y : UInt64, y <<< 33 = y * 8589934592 := fun y =>
    shiftLeft_eq_mul_two_pow y 33 (by norm_num)
  have h3 : ∀ y : UInt64, y <<< 3 = y * 8 := fun y => shiftLeft_eq_mul_two_pow y 3 (by norm_num)
  have h4 : ∀ y : UInt64, y <<< 4 = y * 16 := fun y => shiftLeft_eq_mul_two_pow y 4 (by norm_num)
  have h2 : ∀ y : UInt64, y <<< 2 = y * 4 := fun y => shiftLeft_eq_mul_two_pow y 2 (by norm_num)
  simp only [m0Hash, h18, h33, h3, h4, h2]
  ring

/-- Every word is a hash: the product by the inverse of the multiplier modulo `2^64`. -/
lemma m0Hash_mul_inv (y : UInt64) : m0Hash (y * 0x6208001000040001) = y := by
  rw [m0Hash_eq_mul, mul_assoc,
    show (0x6208001000040001 : UInt64) * 0x9e37fffffffc0001 = 1 by decide, mul_one]

/-- Every state of the generator follows another. -/
lemma m0RndNext_pred (z : UInt64) : m0RndNext ((z - 0xB) * 0x7b13dfe05bcb1365) = z := by
  rw [m0RndNext, mul_assoc, show (0x7b13dfe05bcb1365 : UInt64) * 0x5DEECE66D = 1 by decide,
    mul_one, sub_add_cancel]

/-- The low half of a seed that starts the generator of tile `omega` at state `x`. -/
def seedLoFor (attr : PdclustAttr) (gfid : M0Fid) (omega : ℕ) (x : UInt64) : UInt64 :=
  (x ^^^ m0Hash (attr.paSeedHi + gfid.fKey)) * 0x6208001000040001 - omega.toUInt64 -
    gfid.fContainer

lemma tileRstate_seedLoFor (attr : PdclustAttr) (gfid : M0Fid) (omega : ℕ) (x : UInt64) :
    tileRstate { attr with paSeedLo := seedLoFor attr gfid omega x } gfid omega = x := by
  have hlo : seedLoFor attr gfid omega x + omega.toUInt64 + gfid.fContainer =
      (x ^^^ m0Hash (attr.paSeedHi + gfid.fKey)) * 0x6208001000040001 := by
    rw [seedLoFor]
    ring
  simp only [tileRstate, hlo, m0Hash_mul_inv]
  rw [UInt64.xor_comm x, ← UInt64.xor_assoc, UInt64.xor_self, UInt64.zero_xor]

end Top

/-- The draws of a tile never fail while their bounds have at most 48 bits. -/
lemma lcodeLoop_isSome {P : ℕ} (hP : P < 2 ^ 48) :
    ∀ (n i : ℕ) (rstate : UInt64), (lcodeLoop P n i rstate).isSome
  | 0, _, _ => rfl
  | n + 1, i, rstate => by
    have hmax : ((P - i).toUInt64).toNat < 2 ^ 48 := by
      rw [UInt64.toNat_ofNat', Nat.mod_eq_of_lt (by omega)]
      omega
    obtain ⟨ks, hks⟩ := Option.isSome_iff_exists.mp (lcodeLoop_isSome hP n (i + 1) (m0RndNext rstate))
    simp [lcodeLoop, m0Rnd_eq hmax, hks]

/-- **Every tile has a seed that breaks `m0_rnd`**: for every `P` from `2` to `2^16`, every
high half of the seed, global fid and tile `omega`, some low half of the seed makes the first
draw of the tile's Lehmer code `P` itself, not below `P`; `permute_column` of any column, on a
cache of another tile, then fails the assertion `t < n` of `permute`. -/
theorem permuteColumn_rnd_top_seed (attr : PdclustAttr) (hP : 2 ≤ attr.paP)
    (hP' : attr.paP ≤ 2 ^ 16) (gfid : M0Fid) (omega : ℕ) :
    ∃ lo k, tileLcode { attr with paSeedLo := lo } gfid omega = some (attr.paP :: k) ∧
      ∀ (tc : TileCache) (t : ℕ), tc.tcTileNo ≠ omega →
        permuteColumn { attr with paSeedLo := lo } gfid tc omega t = none := by
  -- the state before the top state, and a seed that starts the tile there
  set x₀ : UInt64 := (~~~0 - 0xB) * 0x7b13dfe05bcb1365
  set attr' := { attr with paSeedLo := seedLoFor attr gfid omega x₀ }
  have htop : (m0RndNext (tileRstate attr' gfid omega)).toNat / 2 ^ 16 = 2 ^ 48 - 1 := by
    rw [tileRstate_seedLoFor, m0RndNext_pred]
    decide
  have hmax : ((attr.paP - 0).toUInt64).toNat = attr.paP := by
    rw [UInt64.toNat_ofNat', Nat.mod_eq_of_lt (by omega), Nat.sub_zero]
  obtain ⟨v, hv, hvP⟩ := m0Rnd_eq_max (hmax ▸ hP') htop
  obtain ⟨k, hk⟩ := Option.isSome_iff_exists.mp
    (lcodeLoop_isSome (P := attr.paP) (by omega) (attr.paP - 1 - 1) 1
      (m0RndNext (tileRstate attr' gfid omega)))
  have hlcode : tileLcode attr' gfid omega = some (attr.paP :: k) := by
    obtain ⟨n, hn⟩ : ∃ n, attr.paP - 1 = n + 1 := ⟨attr.paP - 1 - 1, by omega⟩
    have hn' : attr.paP - 1 - 1 = n := by omega
    rw [hn'] at hk
    change lcodeLoop attr.paP (attr.paP - 1) 0 (tileRstate attr' gfid omega) = _
    rw [hmax] at hvP
    rw [hn, lcodeLoop, hv]
    simp [hk, hvP]
  refine ⟨seedLoFor attr gfid omega x₀, k, hlcode, fun tc t hno => ?_⟩
  change permuteColumn attr' gfid tc omega t = none
  -- the assertion `t < n` of `permute` fails at the first step, `t = P + 0`
  have hperm : ∀ r, permute attr.paP (attr.paP :: k) (List.range attr.paP) r = none := by
    intro r
    obtain ⟨n, hn⟩ : ∃ n, attr.paP - 1 = n + 1 := ⟨attr.paP - 1 - 1, by omega⟩
    rw [permute, hn, List.take_succ_cons, permuteLoop, if_neg (by omega)]
    rfl
  have hP'' : attr'.paP = attr.paP := rfl
  by_cases ht : t < attr.paP
  · simp only [tileLcode, hP''] at hlcode
    simp [permuteColumn, hP'', ht, hno, hlcode, hperm]
  · simp [permuteColumn, hP'', ht]

/-- `P = 4`, a seed of high half `0`, the global fid `(0, 0)` and tile `1`. -/
theorem permuteColumn_rnd_top_seed_four :
    2 ≤ 4 ∧ 4 ≤ 2 ^ 16 ∧
      ∃ lo k, tileLcode { (⟨2, 1, 0, 4, 0, 0⟩ : PdclustAttr) with paSeedLo := lo } ⟨0, 0⟩ 1 =
          some (4 :: k) ∧
        ∀ (tc : TileCache) (t : ℕ), tc.tcTileNo ≠ 1 →
          permuteColumn { (⟨2, 1, 0, 4, 0, 0⟩ : PdclustAttr) with paSeedLo := lo } ⟨0, 0⟩ tc 1 t =
            none :=
  ⟨by decide, by decide, permuteColumn_rnd_top_seed ⟨2, 1, 0, 4, 0, 0⟩ (by decide) (by decide) ⟨0, 0⟩ 1⟩

/-! ### The map and its inverse -/

/-- A layout as `pdclust_populate` leaves it: `N + K + S ≤ P`, and a tile of `C` groups of
`N + K + S` units fills `L` frames of the `P` objects, `C*(N+K+S) = L*P = lcm(N+K+S, P)`, a
32-bit number. -/
structure PdclustLayout.Ok (pl : PdclustLayout) : Prop where
  width_pos : 0 < pl.plAttr.width
  width_le : pl.plAttr.width ≤ pl.plAttr.paP
  tile : pl.plC * pl.plAttr.width = pl.plL * pl.plAttr.paP
  lcm : pl.plL * pl.plAttr.paP = Nat.lcm pl.plAttr.width pl.plAttr.paP
  tile_lt : pl.plL * pl.plAttr.paP < 2 ^ 32

namespace PdclustLayout.Ok

variable {pl : PdclustLayout} (hpl : pl.Ok)
include hpl

lemma P_pos : 0 < pl.plAttr.paP := hpl.width_pos.trans_le hpl.width_le

lemma tile_pos : 0 < pl.plL * pl.plAttr.paP := by
  rw [hpl.lcm]
  exact Nat.lcm_pos hpl.width_pos hpl.P_pos

lemma C_pos : 0 < pl.plC :=
  Nat.pos_of_mul_pos_right (hpl.tile ▸ hpl.tile_pos : 0 < pl.plC * pl.plAttr.width)

lemma L_pos : 0 < pl.plL := Nat.pos_of_mul_pos_right hpl.tile_pos

/-- A tile has no more frames than groups, a group having no more units than there are
objects. -/
lemma L_le_C : pl.plL ≤ pl.plC := by
  refine Nat.le_of_mul_le_mul_right ?_ hpl.P_pos
  calc pl.plL * pl.plAttr.paP = pl.plC * pl.plAttr.width := hpl.tile.symm
    _ ≤ pl.plC * pl.plAttr.paP := Nat.mul_le_mul_left _ hpl.width_le

end PdclustLayout.Ok

lemma mEnc_of_lt {width row column : ℕ} (h : column < width) :
    mEnc width row column = some ((row * width + column) % 2 ^ 64) := by
  rw [mEnc, if_pos h]

lemma mEnc_eq {width row column : ℕ} (h : column < width) (hlt : row * width + column < 2 ^ 64) :
    mEnc width row column = some (row * width + column) := by
  rw [mEnc, if_pos h, Nat.mod_eq_of_lt hlt]

/-- Reading back the row and the column of an element. -/
lemma mDec_mul_add {width row column : ℕ} (h : column < width) :
    mDec width (row * width + column) = (row, column) := by
  have hw : 0 < width := Nat.zero_lt_of_lt h
  simp only [mDec, Prod.mk.injEq]
  constructor
  · rw [Nat.add_comm, Nat.add_mul_div_right _ _ hw, Nat.div_eq_of_lt h, Nat.zero_add]
  · rw [Nat.add_comm, Nat.add_mul_mod_self_right, Nat.mod_eq_of_lt h]

lemma mul_add_div_of_lt {width column : ℕ} (row : ℕ) (h : column < width) :
    (row * width + column) / width = row :=
  congrArg Prod.fst (mDec_mul_add h)

lemma mul_add_mod_of_lt {width column : ℕ} (row : ℕ) (h : column < width) :
    (row * width + column) % width = column :=
  congrArg Prod.snd (mDec_mul_add h)

/-- Two numbers less than `P` apart with the same remainder modulo `P` are equal. -/
lemma eq_of_mod_eq_of_lt_add {P a b : ℕ} (hab : a % P = b % P) (ha : a < b + P) (hb : b < a + P) :
    a = b := by
  rcases le_total a b with h | h
  · have h₁ : (b - a) % P = 0 := Nat.sub_mod_eq_zero_of_mod_eq hab.symm
    rw [Nat.mod_eq_of_lt (by omega)] at h₁
    omega
  · have h₁ : (a - b) % P = 0 := Nat.sub_mod_eq_zero_of_mod_eq hab
    rw [Nat.mod_eq_of_lt (by omega)] at h₁
    omega

/-- A unit's row in the tile's `L × P` coordinates is at most its group's row, a group having no
more units than there are objects. -/
lemma div_le_of_lt_succ_mul {W P j u : ℕ} (hW : W ≤ P) (hu : u < W) : (j * W + u) / P ≤ j := by
  have hP : 0 < P := (Nat.zero_lt_of_lt hu).trans_le hW
  rw [← Nat.lt_succ_iff, Nat.div_lt_iff_lt_mul hP]
  calc j * W + u < (j + 1) * W := by rw [Nat.succ_mul]; omega
    _ ≤ (j + 1) * P := Nat.mul_le_mul_left _ hW

section Map

variable {pl : PdclustLayout} {gfid : M0Fid} {tc : TileCache}

/-- **`m0_pdclust_instance_map`** of unit `u` of group `g`: with `ω = g / C`, `j = g % C` and
`e = j*(N+K+S) + u`, the frame `ω*L + e/P` of the object the tile's permutation sends `e % P`
to. -/
lemma m0PdclustInstanceMap_eq (hpl : pl.Ok) (htc : TileCacheOk pl.plAttr gfid tc) {g u : ℕ}
    (homega : TileOk pl.plAttr gfid (g / pl.plC)) (hu : u < pl.plAttr.width) (hg : g < 2 ^ 64) :
    ∃ tc', m0PdclustInstanceMap ⟨pl, gfid, tc⟩ ⟨g, u⟩ =
        some (⟨g / pl.plC * pl.plL + (g % pl.plC * pl.plAttr.width + u) / pl.plAttr.paP,
          tc'.tcPermute.getD ((g % pl.plC * pl.plAttr.width + u) % pl.plAttr.paP) 0⟩,
          ⟨pl, gfid, tc'⟩) ∧
      TileCacheOk pl.plAttr gfid tc' ∧ tc'.tcTileNo = g / pl.plC := by
  have hj : g % pl.plC < pl.plC := Nat.mod_lt _ hpl.C_pos
  -- the unit's number in the tile is below the tile's size
  have he : g % pl.plC * pl.plAttr.width + u < pl.plL * pl.plAttr.paP := by
    rw [← hpl.tile]
    calc g % pl.plC * pl.plAttr.width + u < (g % pl.plC + 1) * pl.plAttr.width := by
          rw [Nat.succ_mul]; omega
      _ ≤ pl.plC * pl.plAttr.width := Nat.mul_le_mul_right _ hj
  have hr : (g % pl.plC * pl.plAttr.width + u) / pl.plAttr.paP < pl.plL :=
    (Nat.div_lt_iff_lt_mul hpl.P_pos).mpr he
  -- the frame is at most the group's number, so it does not wrap
  have hframe : g / pl.plC * pl.plL + (g % pl.plC * pl.plAttr.width + u) / pl.plAttr.paP ≤ g :=
    calc g / pl.plC * pl.plL + (g % pl.plC * pl.plAttr.width + u) / pl.plAttr.paP
        ≤ g / pl.plC * pl.plC + g % pl.plC :=
          Nat.add_le_add (Nat.mul_le_mul_left _ hpl.L_le_C) (div_le_of_lt_succ_mul hpl.width_le hu)
      _ = g := by rw [Nat.mul_comm]; exact Nat.div_add_mod g pl.plC
  obtain ⟨tc', hpc, htc', hno⟩ := permuteColumn_spec htc homega
    (Nat.mod_lt (g % pl.plC * pl.plAttr.width + u) hpl.P_pos)
  refine ⟨tc', ?_, htc', hno⟩
  simp only [m0PdclustInstanceMap, mDec]
  rw [mEnc_eq hu (by have := hpl.tile_lt; omega)]
  simp only [Option.bind_eq_bind, Option.bind_some, hpc]
  rw [mEnc_eq hr (by omega)]
  rfl

/-- **`m0_pdclust_instance_inv`** of frame `f` of object `t`: with `ω = f / L`, `r = f % L` and
`e = r*P + t'`, `t'` the column the tile's permutation sends to `t`, the unit `e % (N+K+S)` of
group `ω*C + e/(N+K+S)`, a 64-bit number. -/
lemma m0PdclustInstanceInv_eq (hpl : pl.Ok) (htc : TileCacheOk pl.plAttr gfid tc) {f t : ℕ}
    (homega : TileOk pl.plAttr gfid (f / pl.plL)) (ht : t < pl.plAttr.paP) :
    ∃ tc', m0PdclustInstanceInv ⟨pl, gfid, tc⟩ ⟨f, t⟩ =
        some (⟨(f / pl.plL * pl.plC +
            (f % pl.plL * pl.plAttr.paP + tc'.tcInverse.getD t 0) / pl.plAttr.width) % 2 ^ 64,
          (f % pl.plL * pl.plAttr.paP + tc'.tcInverse.getD t 0) % pl.plAttr.width⟩,
          ⟨pl, gfid, tc'⟩) ∧
      TileCacheOk pl.plAttr gfid tc' ∧ tc'.tcTileNo = f / pl.plL := by
  obtain ⟨tc', hpc, htc', hno⟩ := permuteColumn_spec htc homega ht
  have hinv := (htc'.permute_inverse ht).1
  have hr : f % pl.plL < pl.plL := Nat.mod_lt _ hpl.L_pos
  -- the column's number in the tile is below the tile's size
  have he : f % pl.plL * pl.plAttr.paP + tc'.tcInverse.getD t 0 < pl.plC * pl.plAttr.width := by
    rw [hpl.tile]
    calc f % pl.plL * pl.plAttr.paP + tc'.tcInverse.getD t 0
        < (f % pl.plL + 1) * pl.plAttr.paP := by rw [Nat.succ_mul]; omega
      _ ≤ pl.plL * pl.plAttr.paP := Nat.mul_le_mul_right _ hr
  have hj : (f % pl.plL * pl.plAttr.paP + tc'.tcInverse.getD t 0) / pl.plAttr.width < pl.plC :=
    (Nat.div_lt_iff_lt_mul hpl.width_pos).mpr he
  refine ⟨tc', ?_, htc', hno⟩
  simp only [m0PdclustInstanceInv, mDec]
  simp only [Option.bind_eq_bind, hpc, Option.bind_some]
  rw [mEnc_eq hinv (by have := hpl.tile_lt; have := hpl.tile; omega)]
  simp only [Option.bind_some]
  rw [mEnc_of_lt hj]
  rfl

/-- **The inverse undoes the map**: unit `u` of group `g` comes back from the frame and object
the map sends it to, whatever tiles the two caches hold, when the group's tile has its Lehmer
code within bounds. -/
theorem m0PdclustInstance_inv_map (hpl : pl.Ok) (htc : TileCacheOk pl.plAttr gfid tc)
    {tc'' : TileCache} (htc'' : TileCacheOk pl.plAttr gfid tc'') {g u : ℕ}
    (homega : TileOk pl.plAttr gfid (g / pl.plC)) (hu : u < pl.plAttr.width) (hg : g < 2 ^ 64) :
    ∃ tgt pi₁ pi₂, m0PdclustInstanceMap ⟨pl, gfid, tc⟩ ⟨g, u⟩ = some (tgt, pi₁) ∧
      m0PdclustInstanceInv ⟨pl, gfid, tc''⟩ tgt = some (⟨g, u⟩, pi₂) := by
  obtain ⟨tc₁, hmap, htc₁, hno₁⟩ := m0PdclustInstanceMap_eq hpl htc homega hu hg
  -- the unit's number `e` in the tile, read back as row `g % C` and column `u` of the groups
  have hediv := mul_add_div_of_lt (g % pl.plC) hu
  have hemod := mul_add_mod_of_lt (g % pl.plC) hu
  have he_lt : g % pl.plC * pl.plAttr.width + u < pl.plL * pl.plAttr.paP := by
    rw [← hpl.tile]
    calc g % pl.plC * pl.plAttr.width + u < (g % pl.plC + 1) * pl.plAttr.width := by
          rw [Nat.succ_mul]; omega
      _ ≤ pl.plC * pl.plAttr.width := Nat.mul_le_mul_right _ (Nat.mod_lt _ hpl.C_pos)
  generalize g % pl.plC * pl.plAttr.width + u = e at hmap hediv hemod he_lt
  have ht : e % pl.plAttr.paP < pl.plAttr.paP := Nat.mod_lt _ hpl.P_pos
  have hr : e / pl.plAttr.paP < pl.plL := (Nat.div_lt_iff_lt_mul hpl.P_pos).mpr he_lt
  have hdiv := mul_add_div_of_lt (g / pl.plC) hr
  have hmod := mul_add_mod_of_lt (g / pl.plC) hr
  obtain ⟨tc₂, hinv, htc₂, hno₂⟩ := m0PdclustInstanceInv_eq hpl htc'' (by rw [hdiv]; exact homega)
    (getD_lt_of_perm_range htc₁.perm ht)
  refine ⟨_, _, ⟨pl, gfid, tc₂⟩, hmap, ?_⟩
  rw [hinv]
  -- the second cache holds the same tile, so its inverse undoes the first one's permutation
  have hcol : tc₂.tcInverse.getD (tc₁.tcPermute.getD (e % pl.plAttr.paP) 0) 0 =
      e % pl.plAttr.paP := by
    rw [TileCacheOk.permute_eq htc₁ htc₂ (by rw [hno₁, hno₂, hdiv]), htc₂.inverse _ ht]
  have he : e / pl.plAttr.paP * pl.plAttr.paP + e % pl.plAttr.paP = e := Nat.div_add_mod' e _
  have hgrp : g / pl.plC * pl.plC + g % pl.plC = g := Nat.div_add_mod' g _
  simp only [hmod, hdiv, hcol, he, hediv, hemod, hgrp, Nat.mod_eq_of_lt hg]

/-- The layout of `N = 2`, `K = 1`, `S = 0`, `P = 3`, its tile `0` for global fid `(0, 0)`, and
the instance `pdclust_instance_build` makes of them. -/
lemma pdclustInstanceBuild_three :
    PdclustLayout.Ok ⟨⟨2, 1, 0, 3, 0, 0⟩, 1, 1⟩ ∧ TileOk (⟨2, 1, 0, 3, 0, 0⟩ : PdclustAttr) ⟨0, 0⟩ 0 ∧
    ∃ pi, pdclustInstanceBuild ⟨⟨2, 1, 0, 3, 0, 0⟩, 1, 1⟩ ⟨0, 0⟩ = some pi ∧
      TileCacheOk (⟨2, 1, 0, 3, 0, 0⟩ : PdclustAttr) ⟨0, 0⟩ pi.piTileCache := by
  have hok : TileOk (⟨2, 1, 0, 3, 0, 0⟩ : PdclustAttr) ⟨0, 0⟩ 0 :=
    tileOk_of_draws (by decide) (by decide) (by decide)
  obtain ⟨pi, hb, -, -, htc⟩ := @pdclustInstanceBuild_ok ⟨0, 0⟩ ⟨⟨2, 1, 0, 3, 0, 0⟩, 1, 1⟩
    (by decide) hok
  exact ⟨⟨by decide, by decide, by decide, by decide, by decide⟩, hok, pi, hb, htc⟩

/-- The theorem at `N = 2`, `K = 1`, `S = 0`, `P = 3`, a tile of one group over one frame, and
unit `1` of group `0`, with the cache `pdclust_instance_build` leaves. -/
theorem m0PdclustInstance_inv_map_built :
    ∃ pi, pdclustInstanceBuild ⟨⟨2, 1, 0, 3, 0, 0⟩, 1, 1⟩ ⟨0, 0⟩ = some pi ∧
      ∃ tgt pi₁ pi₂, m0PdclustInstanceMap ⟨⟨⟨2, 1, 0, 3, 0, 0⟩, 1, 1⟩, ⟨0, 0⟩, pi.piTileCache⟩
          ⟨0, 1⟩ = some (tgt, pi₁) ∧
        m0PdclustInstanceInv ⟨⟨⟨2, 1, 0, 3, 0, 0⟩, 1, 1⟩, ⟨0, 0⟩, pi.piTileCache⟩ tgt =
          some (⟨0, 1⟩, pi₂) := by
  obtain ⟨hpl, hok, pi, hb, htc⟩ := pdclustInstanceBuild_three
  exact ⟨pi, hb, m0PdclustInstance_inv_map hpl htc htc hok (by decide) (by decide)⟩

/-- **The map undoes the inverse**: frame `f` of object `t` is where the map sends the unit the
inverse finds there, whatever tiles the two caches hold, when the frame's tile has its Lehmer
code within bounds and the groups of the tile have 64-bit numbers. -/
theorem m0PdclustInstance_map_inv (hpl : pl.Ok) (htc : TileCacheOk pl.plAttr gfid tc)
    {tc'' : TileCache} (htc'' : TileCacheOk pl.plAttr gfid tc'') {f t : ℕ}
    (homega : TileOk pl.plAttr gfid (f / pl.plL)) (ht : t < pl.plAttr.paP)
    (hf : f / pl.plL * pl.plC + pl.plC - 1 < 2 ^ 64) :
    ∃ src pi₁ pi₂, m0PdclustInstanceInv ⟨pl, gfid, tc⟩ ⟨f, t⟩ = some (src, pi₁) ∧
      m0PdclustInstanceMap ⟨pl, gfid, tc''⟩ src = some (⟨f, t⟩, pi₂) := by
  obtain ⟨tc₁, hinv, htc₁, hno₁⟩ := m0PdclustInstanceInv_eq hpl htc homega ht
  -- the column `t'` the tile sends to `t`, and the unit's number `e` in the tile
  obtain ⟨ht', hcol₁⟩ := htc₁.permute_inverse ht
  generalize tc₁.tcInverse.getD t 0 = t' at hinv ht' hcol₁
  have hediv := mul_add_div_of_lt (f % pl.plL) ht'
  have hemod := mul_add_mod_of_lt (f % pl.plL) ht'
  have he_lt : f % pl.plL * pl.plAttr.paP + t' < pl.plC * pl.plAttr.width := by
    rw [hpl.tile]
    calc f % pl.plL * pl.plAttr.paP + t' < (f % pl.plL + 1) * pl.plAttr.paP := by
          rw [Nat.succ_mul]; omega
      _ ≤ pl.plL * pl.plAttr.paP := Nat.mul_le_mul_right _ (Nat.mod_lt _ hpl.L_pos)
  generalize f % pl.plL * pl.plAttr.paP + t' = e at hinv hediv hemod he_lt
  have hj : e / pl.plAttr.width < pl.plC := (Nat.div_lt_iff_lt_mul hpl.width_pos).mpr he_lt
  -- the group's number does not wrap
  have hg : f / pl.plL * pl.plC + e / pl.plAttr.width < 2 ^ 64 := by omega
  rw [Nat.mod_eq_of_lt hg] at hinv
  have hdiv := mul_add_div_of_lt (f / pl.plL) hj
  have hmod := mul_add_mod_of_lt (f / pl.plL) hj
  obtain ⟨tc₂, hmap, htc₂, hno₂⟩ := m0PdclustInstanceMap_eq hpl htc'' (by rw [hdiv]; exact homega)
    (Nat.mod_lt e hpl.width_pos) hg
  refine ⟨_, _, ⟨pl, gfid, tc₂⟩, hinv, ?_⟩
  rw [hmap]
  have he : e / pl.plAttr.width * pl.plAttr.width + e % pl.plAttr.width = e := Nat.div_add_mod' e _
  have hcol : tc₂.tcPermute.getD t' 0 = t := by
    rw [← TileCacheOk.permute_eq htc₁ htc₂ (by rw [hno₁, hno₂, hdiv]), hcol₁]
  have hframe : f / pl.plL * pl.plL + f % pl.plL = f := Nat.div_add_mod' f _
  simp only [hmod, hdiv, he, hediv, hemod, hcol, hframe]

/-- The theorem at `N = 2`, `K = 1`, `S = 0`, `P = 3` and object `2` of frame `0`, with the cache
`pdclust_instance_build` leaves. -/
theorem m0PdclustInstance_map_inv_built :
    ∃ pi, pdclustInstanceBuild ⟨⟨2, 1, 0, 3, 0, 0⟩, 1, 1⟩ ⟨0, 0⟩ = some pi ∧
      ∃ src pi₁ pi₂, m0PdclustInstanceInv ⟨⟨⟨2, 1, 0, 3, 0, 0⟩, 1, 1⟩, ⟨0, 0⟩, pi.piTileCache⟩
          ⟨0, 2⟩ = some (src, pi₁) ∧
        m0PdclustInstanceMap ⟨⟨⟨2, 1, 0, 3, 0, 0⟩, 1, 1⟩, ⟨0, 0⟩, pi.piTileCache⟩ src =
          some (⟨0, 2⟩, pi₂) := by
  obtain ⟨hpl, hok, pi, hb, htc⟩ := pdclustInstanceBuild_three
  exact ⟨pi, hb, m0PdclustInstance_map_inv hpl htc htc hok (by decide) (by decide)⟩

/-- **The units of a group go to distinct objects**: two units of one group are mapped to two
objects, whatever tiles the caches hold, when the group's tile has its Lehmer code within
bounds. -/
theorem m0PdclustInstanceMap_obj_ne (hpl : pl.Ok) (htc : TileCacheOk pl.plAttr gfid tc)
    {tc' : TileCache} (htc' : TileCacheOk pl.plAttr gfid tc') {g u u' : ℕ}
    (homega : TileOk pl.plAttr gfid (g / pl.plC)) (hg : g < 2 ^ 64) (hu : u < pl.plAttr.width)
    (hu' : u' < pl.plAttr.width) (hne : u ≠ u') :
    ∃ tgt tgt' pi₁ pi₂, m0PdclustInstanceMap ⟨pl, gfid, tc⟩ ⟨g, u⟩ = some (tgt, pi₁) ∧
      m0PdclustInstanceMap ⟨pl, gfid, tc'⟩ ⟨g, u'⟩ = some (tgt', pi₂) ∧ tgt.taObj ≠ tgt'.taObj := by
  obtain ⟨tc₁, hmap, htc₁, hno₁⟩ := m0PdclustInstanceMap_eq hpl htc homega hu hg
  obtain ⟨tc₂, hmap', htc₂, hno₂⟩ := m0PdclustInstanceMap_eq hpl htc' homega hu' hg
  refine ⟨_, _, _, _, hmap, hmap', fun hobj => hne ?_⟩
  have hP := hpl.P_pos
  rw [← TileCacheOk.permute_eq htc₁ htc₂ (hno₁.trans hno₂.symm)] at hobj
  -- the two units lie less than `N + K + S ≤ P` apart, so their columns differ
  have hcol := getD_inj_of_perm_range htc₁.perm (Nat.mod_lt _ hP) (Nat.mod_lt _ hP) hobj
  have := eq_of_mod_eq_of_lt_add hcol (by have := hpl.width_le; omega) (by have := hpl.width_le; omega)
  omega

/-- The theorem at `N = 2`, `K = 1`, `S = 0`, `P = 3` and units `0` and `1` of group `0`, with the
cache `pdclust_instance_build` leaves. -/
theorem m0PdclustInstanceMap_obj_ne_built :
    ∃ pi, pdclustInstanceBuild ⟨⟨2, 1, 0, 3, 0, 0⟩, 1, 1⟩ ⟨0, 0⟩ = some pi ∧
      ∃ tgt tgt' pi₁ pi₂, m0PdclustInstanceMap ⟨⟨⟨2, 1, 0, 3, 0, 0⟩, 1, 1⟩, ⟨0, 0⟩, pi.piTileCache⟩
          ⟨0, 0⟩ = some (tgt, pi₁) ∧
        m0PdclustInstanceMap ⟨⟨⟨2, 1, 0, 3, 0, 0⟩, 1, 1⟩, ⟨0, 0⟩, pi.piTileCache⟩ ⟨0, 1⟩ =
          some (tgt', pi₂) ∧ tgt.taObj ≠ tgt'.taObj := by
  obtain ⟨hpl, hok, pi, hb, htc⟩ := pdclustInstanceBuild_three
  exact ⟨pi, hb, m0PdclustInstanceMap_obj_ne hpl htc htc hok (by decide) (by decide) (by decide)
    (by decide)⟩

end Map

/-! ### `pdclust_populate`, and a tile out of bounds -/

/-- Seed `(3085457948261685060, 2^64 - 1)`, global fid `(0, 0)`, `N = 2`, `K = 1`, `S = 0` and
`P = 4`: the layout is populated and the instance built, but the first draw of tile `1` comes
from the top state of the generator, `m0_rnd(4)` returns `4`, and the map of unit `0` of group
`4` fails the assertion `t < n` of `permute`. -/
theorem m0PdclustInstanceMap_rnd_top :
    ∃ pl pi, pdclustPopulate ⟨2, 1, 0, 4, 3085457948261685060, 18446744073709551615⟩ = .ok pl ∧
      pdclustInstanceBuild pl ⟨0, 0⟩ = some pi ∧
      (m0Rnd 4 (tileRstate pl.plAttr ⟨0, 0⟩ 1)).map (·.1) = some 4 ∧
      m0PdclustInstanceMap pi ⟨4, 0⟩ = none := by
  refine ⟨⟨⟨2, 1, 0, 4, 3085457948261685060, 18446744073709551615⟩, 4, 3⟩, _, by decide, rfl, ?_⟩
  decide

end Motr
