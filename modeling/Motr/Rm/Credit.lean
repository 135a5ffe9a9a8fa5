import Mathlib

/-!
The credits of a resource owner of `rm/rm.c`, for the rwlock resource type of
`rm/rm_rwlock.c`, and what an incoming request does to them once granted.

A credit of the rwlock type is a count (`cr_datum`): a number of read locks, `RM_RW_WRITE_LOCK`
for the write lock. An owner keeps the credits it borrowed, those it sublet, and those it owns,
held or cached; in `ROS_ACTIVE` its borrowed credits join to its owned and sublet ones
(`owner_invariant`). `incoming_check_with` sticks a `M0_RPF_PROTECT` pin in each cached credit
that meets what is still wanted; a granted local request then moves the pinned credits to the
held list (`cached_credits_hold`), and a granted borrow request takes them off the cache
(`cached_credits_remove`) and records the loan (`m0_rm_borrow_commit`).

Lists are lists, a credit keeping its identity (its address) and the number of protect pins
stuck in it; `m0_rm_pin_add` and the list moves put their element at the head. Of
`incoming_check_with` the scan of the cache is modelled, not what it does next with the held
credits, the sublet ones and the creditor. Allocations do not fail. A failed assertion is
`none`.
-/

namespace Motr

/-- `RM_RW_WRITE_LOCK`. -/
def RM_RW_WRITE_LOCK : ℕ := 2 ^ 64 - 1

/-- `struct m0_rm_credit` of the rwlock type: its identity, `cr_datum`, and the number of
`M0_RPF_PROTECT` pins in `cr_pins`. -/
structure RmCredit where
  crId : ℕ
  crDatum : ℕ
  crProtectPins : ℕ
  deriving DecidableEq, Repr

/-- `rwlock_cr_intersects`. -/
def rwlockCrIntersects (self c1 : ℕ) : Bool := self ≠ 0 && c1 ≠ 0

/-- `rwlock_cr_join`; `none` past `RM_RW_WRITE_LOCK` (`M0_PRE`). -/
def rwlockCrJoin (self c1 : ℕ) : Option ℕ :=
  if self + c1 ≤ RM_RW_WRITE_LOCK then some (self + c1) else none

/-- `rwlock_cr_disjoin`, as coded: the new `self` and the intersection. When `self` is not
above `c1`, `self` is cleared before it is copied, so the intersection is `0`. -/
def rwlockCrDisjoin (self c1 : ℕ) : ℕ × ℕ :=
  if self > c1 then (self - c1, c1) else (0, 0)

/-- `rwlock_cr_diff`. -/
def rwlockCrDiff (self c1 : ℕ) : ℕ := if self > c1 then self - c1 else 0

/-- `rwlock_cr_is_subset`. -/
def rwlockCrIsSubset (self c1 : ℕ) : Bool := self ≤ c1

/-- `struct m0_rm_owner`: `ro_borrowed`, `ro_sublet`, and `ro_owned[OWOS_HELD]` and
`ro_owned[OWOS_CACHED]`. -/
structure RmOwner where
  roBorrowed : List RmCredit
  roSublet : List RmCredit
  roHeld : List RmCredit
  roCached : List RmCredit
  deriving DecidableEq, Repr

/-- `enum m0_rm_incoming_type`. -/
inductive RmIncomingType
  | M0_RIT_LOCAL
  | M0_RIT_BORROW
  | M0_RIT_REVOKE
  deriving DecidableEq, Repr

/-- `struct m0_rm_incoming`: its type, `rin_want`, and the credits its `M0_RPF_PROTECT` pins
are stuck in, `rin_pins` from its head. -/
structure RmIncoming where
  rinType : RmIncomingType
  rinWant : ℕ
  rinPins : List ℕ
  deriving DecidableEq, Repr

/-- The credit of a list a pin is stuck in. -/
def rmCreditOf (id : ℕ) (l : List RmCredit) : Option RmCredit := l.find? (·.crId = id)

/-- A protect pin more in a credit. -/
def RmCredit.pin (c : RmCredit) : RmCredit := { c with crProtectPins := c.crProtectPins + 1 }

/-- Step 1 of `incoming_check_with` over `ro_owned[OWOS_CACHED]`, for a request without
`RIF_RESERVE` and credits without barrier pins (`credit_reservation_check` returns `0`): each
credit that intersects `rest` gets a pin, at the head of `rin_pins`, and is taken off `rest`.
The pins, what is left of the request, and the cache with the pins stuck. -/
def incomingCheckCached (pins : List ℕ) (rest : ℕ) : List RmCredit → List ℕ × ℕ × List RmCredit
  | [] => (pins, rest, [])
  | r :: rs =>
    if rwlockCrIntersects r.crDatum rest then
      let (pins', rest', rs') := incomingCheckCached (r.crId :: pins) (rwlockCrDiff rest r.crDatum) rs
      (pins', rest', r.pin :: rs')
    else
      let (pins', rest', rs') := incomingCheckCached pins rest rs
      (pins', rest', r :: rs')

/-- `incoming_check_with` as far as the cache goes: the owner with the pins stuck in its cached
credits, the request with its pins, and what is left of the request for the held credits,
the sublet ones and the creditor. -/
def incomingCheckWith (owner : RmOwner) (inc : RmIncoming) : RmOwner × RmIncoming × ℕ :=
  let (pins, rest, cached) := incomingCheckCached inc.rinPins inc.rinWant owner.roCached
  ({ owner with roCached := cached }, { inc with rinPins := pins }, rest)

/-- The loop of `cached_credits_hold` over the pins from `pins` on, with `rest` still to
hold, the credits `transfers` moved so far (newest first), the cache, the pins added for split
credits and those kept, and `fresh` the identity of the next credit allocated. -/
def cachedCreditsHoldLoop (fresh : ℕ) :
    List ℕ → ℕ → List RmCredit → List RmCredit → List ℕ → List ℕ →
      Option (ℕ × List RmCredit × List RmCredit × List ℕ × List ℕ)
  | [], rest, transfers, cached, added, kept => some (rest, transfers, cached, added, kept)
  | p :: ps, rest, transfers, cached, added, kept =>
    match rmCreditOf p cached with
    | none => none
    | some credit =>
      if !rwlockCrIntersects rest credit.crDatum then none
      -- the credit is also pinned by another request: skip it
      else if credit.crProtectPins > 1 then
        cachedCreditsHoldLoop fresh ps (rwlockCrDiff rest credit.crDatum) transfers cached added
          (kept ++ [p])
      else if rwlockCrIsSubset credit.crDatum rest then
        cachedCreditsHoldLoop fresh ps (rwlockCrDiff rest credit.crDatum) (credit :: transfers)
          (cached.erase credit) added (kept ++ [p])
      else
        -- the intersection goes to the held list; the difference stays cached
        let (left, held) := rwlockCrDisjoin credit.crDatum rest
        let heldCredit : RmCredit := ⟨fresh, held, 1⟩
        cachedCreditsHoldLoop (fresh + 1) ps (rwlockCrDiff rest held) (heldCredit :: transfers)
          (cached.map fun c => if c = credit then
            { credit with crDatum := left, crProtectPins := credit.crProtectPins - 1 } else c)
          (fresh :: added) kept

/-- **`cached_credits_hold`**: the owner and the request after the pinned cached credits are
moved to the held list; `none` when an assertion fails, on a pin whose credit no longer
intersects what is left of the request or when something is left at the end
(`M0_POST(ergo(rc == 0, credit_is_empty(&rest)))`). -/
def cachedCreditsHold (fresh : ℕ) (owner : RmOwner) (inc : RmIncoming) :
    Option (RmOwner × RmIncoming × Int) :=
  match cachedCreditsHoldLoop fresh inc.rinPins inc.rinWant [] owner.roCached [] [] with
  | none => none
  | some (rest, transfers, cached, added, kept) =>
    if rest ≠ 0 then none
    else some ({ owner with roCached := cached, roHeld := transfers.reverse ++ owner.roHeld },
      { inc with rinPins := added ++ kept }, 0)

/-- The loop of `cached_credits_remove` over the pins: a pinned credit that does not intersect
the request is retained; one that does is removed and its difference with the whole request,
`remnant_credit_get`, is removed when empty and retained otherwise. -/
def cachedCreditsRemoveLoop (want : ℕ) (fresh : ℕ) :
    List ℕ → List RmCredit → List RmCredit → List RmCredit →
      Option (List RmCredit × List RmCredit × List RmCredit)
  | [], cached, retain, remove => some (cached, retain, remove)
  | p :: ps, cached, retain, remove =>
    match rmCreditOf p cached with
    | none => none
    | some credit =>
      if !rwlockCrIntersects credit.crDatum want then
        cachedCreditsRemoveLoop want fresh ps (cached.erase credit) (credit :: retain) remove
      else
        let remnant : RmCredit := ⟨fresh, rwlockCrDiff credit.crDatum want, 0⟩
        if remnant.crDatum = 0 then
          cachedCreditsRemoveLoop want (fresh + 1) ps (cached.erase credit) retain
            (remnant :: credit :: remove)
        else
          cachedCreditsRemoveLoop want (fresh + 1) ps (cached.erase credit) (remnant :: retain)
            (credit :: remove)

/-- **`cached_credits_remove`**: the retained credits go back to the cache, the removed ones are
freed; `rc` is `0`, no allocation failing. -/
def cachedCreditsRemove (fresh : ℕ) (owner : RmOwner) (inc : RmIncoming) :
    Option (RmOwner × Int) :=
  match cachedCreditsRemoveLoop inc.rinWant fresh inc.rinPins owner.roCached [] [] with
  | none => none
  | some (cached, retain, _) => some ({ owner with roCached := retain.reverse ++ cached }, 0)

/-- **`m0_rm_borrow_commit`**: the loan, a copy of `rin_want`, is added to `ro_sublet` once the
pinned cached credits are removed. -/
def m0RmBorrowCommit (fresh : ℕ) (owner : RmOwner) (inc : RmIncoming) : Option (RmOwner × Int) :=
  let loan : RmCredit := ⟨fresh, inc.rinWant, 0⟩
  let removed := if inc.rinPins = [] then some (owner, 0) else cachedCreditsRemove (fresh + 1) owner inc
  removed.map fun (owner', rc) =>
    if rc = 0 then ({ owner' with roSublet := loan :: owner'.roSublet }, 0) else (owner', rc)

/-- **`m0_rm_revoke_commit`**: the borrowed loan of cookie `cookie` is replaced by its
difference with `rin_want`, dropped when empty, once the pinned cached credits are removed. -/
def m0RmRevokeCommit (fresh : ℕ) (owner : RmOwner) (inc : RmIncoming) (cookie : ℕ) :
    Option (RmOwner × Int) :=
  match rmCreditOf cookie owner.roBorrowed with
  | none => none
  | some loan =>
    let remnant : RmCredit := ⟨fresh, rwlockCrDiff loan.crDatum inc.rinWant, 0⟩
    (cachedCreditsRemove (fresh + 1) owner inc).map fun (owner', rc) =>
      if rc = 0 then
        ({ owner' with
            roBorrowed := (if remnant.crDatum = 0 then [] else [remnant]) ++
              owner'.roBorrowed.erase loan }, 0)
      else (owner', rc)

/-- The sum of the counts of a list of credits, which `cro_join` accumulates. -/
def rmTotal (l : List RmCredit) : ℕ := (l.map (·.crDatum)).sum

/-- The balance `owner_invariant` checks of an owner in `ROS_ACTIVE`,
`credit_eq(&is.is_debit, &is.is_credit)`: as coded, the difference of what it borrowed and
what it owns and sublet is empty. -/
def ownerInvariantBalance (o : RmOwner) : Bool :=
  rwlockCrDiff (rmTotal o.roBorrowed) (rmTotal o.roHeld + rmTotal o.roCached + rmTotal o.roSublet) = 0

/-- Conservation: what an owner borrowed is what it owns, held and cached, and what it
sublet. -/
def RmOwner.Conserves (o : RmOwner) : Prop :=
  rmTotal o.roBorrowed = rmTotal o.roHeld + rmTotal o.roCached + rmTotal o.roSublet

instance (o : RmOwner) : Decidable o.Conserves := inferInstanceAs (Decidable (_ = _))

end Motr
