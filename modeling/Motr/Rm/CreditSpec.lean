import Motr.Rm.Credit
import Motr.Lib.SortedKV

/-!
What granting a request does to the rwlock credits of an owner (`rm/rm.c`).

* `cachedCreditsHold_total`: when `cached_credits_hold` returns, and no other request pins a
  cached credit, it has moved credits of total `rin_want` from the cache to the held list;
  conservation is kept (`cachedCreditsHold_conserves`).
* `cachedCreditsRemove_total`: `cached_credits_remove` takes `min(c, rin_want)` off every
  pinned cached credit `c`, the whole request off each rather than what is left of it.
  `m0_rm_borrow_commit` and `m0_rm_revoke_commit` keep conservation exactly when that adds up
  to what the loan changes by (`m0RmBorrowCommit_conserves_iff`,
  `m0RmRevokeCommit_conserves_iff`), as it does when the pinned credits add up to the request
  (`m0RmBorrowCommit_conserves_of_total_eq`).
* `incomingCheckWith_overrun`: an owner with the credits `1` and `2` cached and a request for
  `2`. The scan pins both. Holding them fails the assertion that a pinned credit still meets
  what is left of the request, since the pin of `2`, the newer, comes first; lending them
  takes `3` off the cache for a loan of `2`, and the balance `owner_invariant` asserts fails.
-/

namespace Motr

/-- The identities of a list of credits are distinct. -/
def RmIdsNodup (l : List RmCredit) : Prop := (l.map (·.crId)).Nodup

instance (l : List RmCredit) : Decidable (RmIdsNodup l) :=
  inferInstanceAs (Decidable (List.Nodup _))

/-- What `cached_credits_remove` takes off a list of pinned credits: the request off each. -/
def rmCut (want : ℕ) (l : List RmCredit) : ℕ := (l.map fun c => min c.crDatum want).sum

/-- The credits of a list that the pins `pins` are stuck in. -/
def rmPinned (pins : List ℕ) (l : List RmCredit) : List RmCredit := l.filter (·.crId ∈ pins)

section Total

/-- `rwlock_cr_diff` is the truncated difference. -/
@[simp] lemma rwlockCrDiff_eq (self c1 : ℕ) : rwlockCrDiff self c1 = self - c1 := by
  unfold rwlockCrDiff
  split <;> omega

@[simp] lemma rmTotal_nil : rmTotal [] = 0 := rfl

@[simp] lemma rmTotal_cons (c : RmCredit) (l : List RmCredit) :
    rmTotal (c :: l) = c.crDatum + rmTotal l := by
  simp [rmTotal]

@[simp] lemma rmTotal_append (l₁ l₂ : List RmCredit) :
    rmTotal (l₁ ++ l₂) = rmTotal l₁ + rmTotal l₂ := by
  simp [rmTotal]

@[simp] lemma rmTotal_reverse (l : List RmCredit) : rmTotal l.reverse = rmTotal l := by
  simp [rmTotal]

lemma rmTotal_erase {c : RmCredit} {l : List RmCredit} (h : c ∈ l) :
    c.crDatum + rmTotal (l.erase c) = rmTotal l :=
  List.sum_map_erase _ h

/-- One credit of a list without duplicates replaced by another. -/
lemma rmTotal_map_replace {l : List RmCredit} {c : RmCredit} (c' : RmCredit) (hnd : l.Nodup)
    (h : c ∈ l) :
    rmTotal (l.map fun x => if x = c then c' else x) + c.crDatum = rmTotal l + c'.crDatum := by
  induction l with
  | nil => cases h
  | cons x xs ih =>
    rw [List.nodup_cons] at hnd
    by_cases hx : x = c
    · subst hx
      have hkeep : xs.map (fun y => if y = x then c' else y) = xs.map id :=
        List.map_congr_left fun y hy => if_neg fun e : y = x => hnd.1 (e ▸ hy)
      rw [List.map_id] at hkeep
      simp only [List.map_cons, if_pos, rmTotal_cons, hkeep]
      omega
    · have hc : c ∈ xs := (List.mem_cons.1 h).resolve_left (Ne.symm hx)
      have := ih hnd.2 hc
      simp only [List.map_cons, if_neg hx, rmTotal_cons]
      omega

@[simp] lemma rmCut_nil (want : ℕ) : rmCut want [] = 0 := rfl

@[simp] lemma rmCut_cons (want : ℕ) (c : RmCredit) (l : List RmCredit) :
    rmCut want (c :: l) = min c.crDatum want + rmCut want l := by
  simp [rmCut]

lemma rmCut_perm {want : ℕ} {l₁ l₂ : List RmCredit} (h : l₁.Perm l₂) :
    rmCut want l₁ = rmCut want l₂ :=
  (h.map _).sum_eq

end Total

section Ids

lemma rmCreditOf_mem {p : ℕ} {l : List RmCredit} {c : RmCredit} (h : rmCreditOf p l = some c) :
    c ∈ l ∧ c.crId = p :=
  ⟨List.mem_of_find?_eq_some h, by simpa using List.find?_some h⟩

lemma RmIdsNodup.nodup {l : List RmCredit} (h : RmIdsNodup l) : l.Nodup :=
  List.Nodup.of_map _ h

lemma RmIdsNodup.erase {l : List RmCredit} (h : RmIdsNodup l) (c : RmCredit) :
    RmIdsNodup (l.erase c) :=
  ((List.erase_sublist).map _).nodup h

/-- One credit replaced by another of the same identity. -/
lemma RmIdsNodup.replace {l : List RmCredit} (h : RmIdsNodup l) {c c' : RmCredit}
    (hid : c'.crId = c.crId) : RmIdsNodup (l.map fun x => if x = c then c' else x) := by
  have hids : (l.map fun x => if x = c then c' else x).map (·.crId) = l.map (·.crId) := by
    rw [List.map_map]
    refine List.map_congr_left fun x _ => ?_
    by_cases hx : x = c
    · simp [hx, hid]
    · simp [hx]
  unfold RmIdsNodup
  rw [hids]
  exact h

/-- The credits pinned by `p :: ps` are the one of `p` and those pinned by `ps` among the
others. -/
lemma rmPinned_cons_perm {C : List RmCredit} {c : RmCredit} {p : ℕ} (ps : List ℕ)
    (hids : RmIdsNodup C) (hc : c ∈ C) (hp : c.crId = p) :
    (rmPinned (p :: ps) C).Perm (c :: rmPinned ps (C.erase c)) := by
  have hperm := List.perm_cons_erase hc
  -- no other credit carries the identity of `c`
  have hfresh : p ∉ (C.erase c).map (·.crId) := by
    have := (hperm.map (·.crId)).nodup_iff.1 (show (C.map (·.crId)).Nodup from hids)
    rw [List.map_cons, List.nodup_cons, hp] at this
    exact this.1
  have hrest : rmPinned (p :: ps) (C.erase c) = rmPinned ps (C.erase c) := by
    refine List.filter_congr fun x hx => ?_
    have hxp : x.crId ≠ p := fun e => hfresh (e ▸ List.mem_map_of_mem hx)
    simp [hxp]
  have hhead : rmPinned (p :: ps) (c :: C.erase c) = c :: rmPinned ps (C.erase c) := by
    rw [rmPinned, List.filter_cons_of_pos (by simp [hp]), ← rmPinned, hrest]
  exact hhead ▸ hperm.filter _

end Ids

section Hold

/-- One run of the loop of `cached_credits_hold` over credits pinned by this request alone:
what it moves to `transfers` is what it takes off `rest`, and off the cache. -/
lemma cachedCreditsHoldLoop_total {fresh rest rest' : ℕ} {pins A K A' K' : List ℕ}
    {T C T' C' : List RmCredit} (hids : RmIdsNodup C) (hpin : ∀ c ∈ C, c.crProtectPins ≤ 1)
    (h : cachedCreditsHoldLoop fresh pins rest T C A K = some (rest', T', C', A', K')) :
    rmTotal T' + rest' = rmTotal T + rest ∧ rmTotal C' + rest = rmTotal C + rest' := by
  induction pins generalizing fresh rest T C A K with
  | nil =>
    simp only [cachedCreditsHoldLoop, Option.some.injEq, Prod.mk.injEq] at h
    obtain ⟨rfl, rfl, rfl, -, -⟩ := h
    omega
  | cons p ps ih =>
    rw [cachedCreditsHoldLoop] at h
    cases hfind : rmCreditOf p C with
    | none => simp [hfind] at h
    | some credit =>
      obtain ⟨hmem, -⟩ := rmCreditOf_mem hfind
      have hd := rmTotal_erase hmem
      have hone : ¬ credit.crProtectPins > 1 := by have := hpin credit hmem; omega
      simp only [hfind, hone, if_false] at h
      by_cases hint : rwlockCrIntersects rest credit.crDatum = true
      case neg => simp [hint] at h
      simp only [hint, Bool.not_true, Bool.false_eq_true, if_false] at h
      by_cases hsub : credit.crDatum ≤ rest
      case pos =>
        -- the credit moves whole
        simp only [rwlockCrIsSubset, hsub, decide_true, if_true] at h
        have hpin' : ∀ c ∈ C.erase credit, c.crProtectPins ≤ 1 :=
          fun c hc => hpin c (List.mem_of_mem_erase hc)
        obtain ⟨h1, h2⟩ := ih (hids.erase credit) hpin' h
        simp only [rmTotal_cons, rwlockCrDiff_eq] at h1 h2
        omega
      case neg =>
        -- the credit is split: `rest` moves, the difference stays cached
        simp only [rwlockCrIsSubset, hsub, decide_false, Bool.false_eq_true, if_false,
          rwlockCrDisjoin, show credit.crDatum > rest by omega, if_true] at h
        generalize hleft : ({ credit with
            crDatum := credit.crDatum - rest
            crProtectPins := credit.crProtectPins - 1 } : RmCredit) = left at h
        have hpin' : ∀ c ∈ C.map (fun c => if c = credit then left else c),
            c.crProtectPins ≤ 1 := by
          simp only [List.mem_map]
          rintro c ⟨x, hx, rfl⟩
          split
          · have := hpin credit hmem
            rw [← hleft]
            simp only
            omega
          · exact hpin x hx
        obtain ⟨h1, h2⟩ := ih (hids.replace (by rw [← hleft])) hpin' h
        have hrepl := rmTotal_map_replace left hids.nodup hmem
        have hleftd : left.crDatum = credit.crDatum - rest := by rw [← hleft]
        simp only [rmTotal_cons, rwlockCrDiff_eq] at h1 h2
        omega

/-- **`cached_credits_hold`**, when it returns and no other request pins a cached credit: the
credits it moved from the cache to the held list add up to `rin_want`. -/
theorem cachedCreditsHold_total {fresh : ℕ} {o o' : RmOwner} {inc inc' : RmIncoming} {rc : Int}
    (hids : RmIdsNodup o.roCached) (hpin : ∀ c ∈ o.roCached, c.crProtectPins ≤ 1)
    (h : cachedCreditsHold fresh o inc = some (o', inc', rc)) :
    rc = 0 ∧ o'.roBorrowed = o.roBorrowed ∧ o'.roSublet = o.roSublet ∧
      rmTotal o'.roHeld = rmTotal o.roHeld + inc.rinWant ∧
      rmTotal o'.roCached + inc.rinWant = rmTotal o.roCached := by
  unfold cachedCreditsHold at h
  split at h
  case h_1 => cases h
  case h_2 rest transfers cached added kept hloop =>
    by_cases hrest : rest = 0
    case neg => simp [hrest] at h
    simp only [hrest, ne_eq, not_true_eq_false, if_false, Option.some.injEq, Prod.mk.injEq] at h
    obtain ⟨rfl, -, rfl⟩ := h
    obtain ⟨h1, h2⟩ := cachedCreditsHoldLoop_total hids hpin hloop
    simp only [rmTotal_nil, hrest] at h1 h2
    refine ⟨rfl, rfl, rfl, ?_, ?_⟩
    · simp only [rmTotal_append, rmTotal_reverse]
      omega
    · omega

theorem cachedCreditsHold_conserves {fresh : ℕ} {o o' : RmOwner} {inc inc' : RmIncoming}
    {rc : Int} (hc : o.Conserves) (hids : RmIdsNodup o.roCached)
    (hpin : ∀ c ∈ o.roCached, c.crProtectPins ≤ 1)
    (h : cachedCreditsHold fresh o inc = some (o', inc', rc)) : o'.Conserves := by
  obtain ⟨-, hb, hs, hheld, hcached⟩ := cachedCreditsHold_total hids hpin h
  unfold RmOwner.Conserves at hc ⊢
  rw [hb, hs]
  omega

/-- The theorem at an owner that borrowed `2` and caches it whole, holding it for a local
request. -/
theorem cachedCreditsHold_conserves_local :
    ∃ o' inc' rc, cachedCreditsHold 20 ⟨[⟨10, 2, 0⟩], [], [], [⟨1, 2, 1⟩]⟩
        ⟨.M0_RIT_LOCAL, 2, [1]⟩ = some (o', inc', rc) ∧ o'.Conserves :=
  ⟨_, _, _, rfl, @cachedCreditsHold_conserves 20 ⟨[⟨10, 2, 0⟩], [], [], [⟨1, 2, 1⟩]⟩ _
    ⟨.M0_RIT_LOCAL, 2, [1]⟩ _ _ (by decide) (by decide) (by decide) rfl⟩

end Hold

section Remove

/-- One run of the loop of `cached_credits_remove`: every pinned credit leaves the cache and
all but `min(c, want)` of it comes back through the retained list. -/
lemma cachedCreditsRemoveLoop_total {want fresh : ℕ} {pins : List ℕ}
    {C R Rm C' R' Rm' : List RmCredit} (hids : RmIdsNodup C)
    (h : cachedCreditsRemoveLoop want fresh pins C R Rm = some (C', R', Rm')) :
    rmTotal C' + rmTotal R' + rmCut want (rmPinned pins C) = rmTotal C + rmTotal R := by
  induction pins generalizing fresh C R Rm with
  | nil =>
    simp only [cachedCreditsRemoveLoop, Option.some.injEq, Prod.mk.injEq] at h
    obtain ⟨rfl, rfl, -⟩ := h
    simp [rmPinned]
  | cons p ps ih =>
    rw [cachedCreditsRemoveLoop] at h
    cases hfind : rmCreditOf p C with
    | none => simp [hfind] at h
    | some credit =>
      obtain ⟨hmem, hid⟩ := rmCreditOf_mem hfind
      have hd := rmTotal_erase hmem
      rw [rmCut_perm (rmPinned_cons_perm ps hids hmem hid), rmCut_cons]
      simp only [hfind] at h
      by_cases hint : rwlockCrIntersects credit.crDatum want = true
      case neg =>
        -- a credit that misses the request is retained whole
        simp only [hint, Bool.not_false, if_true] at h
        have hzero : min credit.crDatum want = 0 := by
          simp only [rwlockCrIntersects, Bool.and_eq_true, decide_eq_true_eq, not_and_or,
            not_not] at hint
          omega
        have := ih (hids.erase credit) h
        simp only [rmTotal_cons] at this
        omega
      simp only [hint, Bool.not_true, Bool.false_eq_true, if_false, rwlockCrDiff_eq] at h
      by_cases hgt : credit.crDatum - want = 0
      case neg =>
        -- the remnant `c - want` is retained
        simp only [hgt, if_false] at h
        have := ih (hids.erase credit) h
        simp only [rmTotal_cons] at this
        omega
      case pos =>
        -- the remnant is empty: the credit goes whole
        simp only [hgt, if_true] at h
        have := ih (hids.erase credit) h
        omega

/-- **`cached_credits_remove`** takes `min(c, rin_want)` off the cache for every pinned cached
credit `c`, and returns `0`. -/
theorem cachedCreditsRemove_total {fresh : ℕ} {o o' : RmOwner} {inc : RmIncoming} {rc : Int}
    (hids : RmIdsNodup o.roCached) (h : cachedCreditsRemove fresh o inc = some (o', rc)) :
    rc = 0 ∧ o'.roBorrowed = o.roBorrowed ∧ o'.roSublet = o.roSublet ∧ o'.roHeld = o.roHeld ∧
      rmTotal o'.roCached + rmCut inc.rinWant (rmPinned inc.rinPins o.roCached) =
        rmTotal o.roCached := by
  unfold cachedCreditsRemove at h
  split at h
  case h_1 => cases h
  case h_2 cached retain remove hloop =>
    simp only [Option.some.injEq, Prod.mk.injEq] at h
    obtain ⟨rfl, rfl⟩ := h
    have := cachedCreditsRemoveLoop_total hids hloop
    simp only [rmTotal_nil, add_zero] at this
    refine ⟨rfl, rfl, rfl, rfl, ?_⟩
    simp only [rmTotal_append, rmTotal_reverse]
    omega

end Remove

section Commit

variable {fresh : ℕ} {o o' : RmOwner} {inc : RmIncoming} {rc : Int}

/-- **`m0_rm_borrow_commit`**, for a request that pinned cached credits, keeps conservation
exactly when the cache loses what is lent. -/
theorem m0RmBorrowCommit_conserves_iff (hc : o.Conserves) (hids : RmIdsNodup o.roCached)
    (hpins : inc.rinPins ≠ []) (h : m0RmBorrowCommit fresh o inc = some (o', rc)) :
    rc = 0 ∧ (o'.Conserves ↔ rmCut inc.rinWant (rmPinned inc.rinPins o.roCached) = inc.rinWant) := by
  unfold m0RmBorrowCommit at h
  simp only [hpins, if_false] at h
  obtain ⟨⟨o₁, rc₁⟩, hrem, hmap⟩ := Option.map_eq_some_iff.1 h
  obtain ⟨rfl, hb, hs, hh, hcached⟩ := cachedCreditsRemove_total hids hrem
  simp only [if_true, Prod.mk.injEq] at hmap
  obtain ⟨rfl, rfl⟩ := hmap
  refine ⟨rfl, ?_⟩
  unfold RmOwner.Conserves at hc ⊢
  simp only [rmTotal_cons, hb, hs, hh]
  omega

/-- The theorem at an owner that borrowed `2` and caches it whole, lending it on. -/
theorem m0RmBorrowCommit_conserves_iff_lend :
    ∃ o' rc, m0RmBorrowCommit 20 ⟨[⟨10, 2, 0⟩], [], [], [⟨1, 2, 1⟩]⟩ ⟨.M0_RIT_BORROW, 2, [1]⟩ =
        some (o', rc) ∧ rc = 0 ∧
      (o'.Conserves ↔ rmCut 2 (rmPinned [1] [⟨1, 2, 1⟩]) = 2) :=
  ⟨_, _, rfl, @m0RmBorrowCommit_conserves_iff 20 ⟨[⟨10, 2, 0⟩], [], [], [⟨1, 2, 1⟩]⟩ _
    ⟨.M0_RIT_BORROW, 2, [1]⟩ _ (by decide) (by decide) (by decide) rfl⟩

/-- **`m0_rm_revoke_commit`** keeps conservation exactly when the cache loses what the borrowed
loan is reduced by, `min(loan, rin_want)`. -/
theorem m0RmRevokeCommit_conserves_iff {cookie : ℕ} (hc : o.Conserves)
    (hids : RmIdsNodup o.roCached) (h : m0RmRevokeCommit fresh o inc cookie = some (o', rc)) :
    rc = 0 ∧ ∃ loan, rmCreditOf cookie o.roBorrowed = some loan ∧
      (o'.Conserves ↔
        rmCut inc.rinWant (rmPinned inc.rinPins o.roCached) = min loan.crDatum inc.rinWant) := by
  unfold m0RmRevokeCommit at h
  cases hfind : rmCreditOf cookie o.roBorrowed with
  | none => simp [hfind] at h
  | some loan =>
    simp only [hfind] at h
    obtain ⟨⟨o₁, rc₁⟩, hrem, hmap⟩ := Option.map_eq_some_iff.1 h
    obtain ⟨rfl, hb, hs, hh, hcached⟩ := cachedCreditsRemove_total hids hrem
    simp only [if_true, Prod.mk.injEq] at hmap
    obtain ⟨rfl, rfl⟩ := hmap
    refine ⟨rfl, loan, rfl, ?_⟩
    have hloan := rmTotal_erase (rmCreditOf_mem hfind).1
    -- the remnant of the loan, dropped when empty, counts `loan - rin_want` either way
    have hremnant : rmTotal (if loan.crDatum - inc.rinWant = 0 then []
        else [⟨fresh, loan.crDatum - inc.rinWant, 0⟩]) = loan.crDatum - inc.rinWant := by
      split <;> simp_all
    unfold RmOwner.Conserves at hc ⊢
    simp only [rwlockCrDiff_eq, rmTotal_append, hremnant, hb, hs, hh]
    omega

/-- The theorem at an owner that borrowed `2` and caches it whole, giving the loan back. -/
theorem m0RmRevokeCommit_conserves_iff_return :
    ∃ o' rc, m0RmRevokeCommit 20 ⟨[⟨10, 2, 0⟩], [], [], [⟨1, 2, 1⟩]⟩ ⟨.M0_RIT_LOCAL, 2, [1]⟩ 10 =
        some (o', rc) ∧ rc = 0 ∧ ∃ loan, rmCreditOf 10 [⟨10, 2, 0⟩] = some loan ∧
      (o'.Conserves ↔ rmCut 2 (rmPinned [1] [⟨1, 2, 1⟩]) = min loan.crDatum 2) :=
  ⟨_, _, rfl, @m0RmRevokeCommit_conserves_iff 20 ⟨[⟨10, 2, 0⟩], [], [], [⟨1, 2, 1⟩]⟩ _
    ⟨.M0_RIT_LOCAL, 2, [1]⟩ _ 10 (by decide) (by decide) rfl⟩

end Commit

/-- The pins of a request for `2` to an owner with `1` and `2` cached cover both credits, and
what they are granted breaks the owner: holding them fails an assertion, and lending them
leaves its balance broken. -/
theorem incomingCheckWith_overrun :
    ∃ o : RmOwner, o.Conserves ∧ RmIdsNodup o.roCached ∧
      (∃ o₁ pins, incomingCheckWith o ⟨.M0_RIT_LOCAL, 2, []⟩ = (o₁, ⟨.M0_RIT_LOCAL, 2, pins⟩, 0) ∧
        cachedCreditsHold 20 o₁ ⟨.M0_RIT_LOCAL, 2, pins⟩ = none) ∧
      ∃ o₁ pins o₂,
        incomingCheckWith o ⟨.M0_RIT_BORROW, 2, []⟩ = (o₁, ⟨.M0_RIT_BORROW, 2, pins⟩, 0) ∧
        m0RmBorrowCommit 20 o₁ ⟨.M0_RIT_BORROW, 2, pins⟩ = some (o₂, 0) ∧
        ¬ o₂.Conserves ∧ ownerInvariantBalance o₂ = false := by
  refine ⟨⟨[⟨10, 1, 0⟩, ⟨11, 2, 0⟩], [], [], [⟨1, 1, 0⟩, ⟨2, 2, 0⟩]⟩, by decide, by decide,
    ⟨_, _, rfl, by decide⟩, _, _, _, rfl, rfl, by decide, by decide⟩

end Motr
