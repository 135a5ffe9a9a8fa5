import Motr.Lib.Lehmer
import Motr.Dtm0.Log

/-!
The parity declustered layout of `layout/pdclust.c`: `pdclust_populate`, which sizes the tile
of a layout, and `m0_pdclust_instance_map` and `m0_pdclust_instance_inv`, which take a unit of
a parity group to a frame of a target object and back.

A tile is `C` parity groups of `N + K + S` units read row by row and laid, row by row again,
over `L` frames of the `P` target objects; the columns of tile `ω` are then permuted by the
permutation `permute_column` draws from the instance's seed, its global fid and `ω`, through a
Lehmer code (`permute`). The instance keeps the permutation of one tile in its cache.

Counts are natural numbers, with the wrap-around of `m_enc` (64 bits) and of the product in
`pdclust_populate` (32 bits) written out; the hash and the generator work on `UInt64`. The
arrays of the tile cache are lists. A failed assertion is `none`.
-/

namespace Motr

/-- `struct m0_pdclust_attr`: the numbers of data, parity and spare units of a group, the
number of target objects, and the two halves of the seed. -/
structure PdclustAttr where
  paN : ℕ
  paK : ℕ
  paS : ℕ
  paP : ℕ
  paSeedHi : UInt64
  paSeedLo : UInt64
  deriving DecidableEq, Repr

/-- `struct m0_pdclust_layout`: the attributes and the tile's `pl_C` groups and `pl_L`
frames. -/
structure PdclustLayout where
  plAttr : PdclustAttr
  plC : ℕ
  plL : ℕ
  deriving DecidableEq, Repr

/-- The width of a parity group, `N + K + S`. -/
def PdclustAttr.width (attr : PdclustAttr) : ℕ := attr.paN + attr.paK + attr.paS

/-- `pdclust_populate`: `-EPROTO` when `N + K + S > P`; otherwise `B = P*(N+K+S)/m0_gcd64(N+K+S,
P)`, the product taken in 32 bits, and `C = B/(N+K+S)`, `L = B/P`. -/
def pdclustPopulate (attr : PdclustAttr) : Except Int PdclustLayout :=
  if attr.width > attr.paP then .error (-EPROTO)
  else
    let B := attr.paP * attr.width % 2 ^ 32 / Nat.gcd attr.width attr.paP
    .ok ⟨attr, B / attr.width, B / attr.paP⟩

/-- `m_enc`: the number, in 64 bits, of the element at `row`, `column` of a matrix of `width`
columns counted row by row; `none` when `column ≥ width` (`M0_ASSERT`). -/
def mEnc (width row column : ℕ) : Option ℕ :=
  if column < width then some ((row * width + column) % 2 ^ 64) else none

/-- `m_dec`: the row and the column of the element numbered `pos`. -/
def mDec (width pos : ℕ) : ℕ × ℕ := (pos / width, pos % width)

/-- `m0_hash`. -/
def m0Hash (x : UInt64) : UInt64 :=
  let y := x <<< 18
  let x := x - y
  let y := y <<< 33
  let x := x - y
  let y := y <<< 3
  let x := x + y
  let y := y <<< 3
  let x := x - y
  let y := y <<< 4
  let x := x + y
  let y := y <<< 2
  x + y

/-- `m0_rnd`: the number drawn for `max` and the generator's next state; `none` when `max` has
more than 48 bits (`M0_ASSERT`). -/
def m0Rnd (max prev : UInt64) : Option (UInt64 × UInt64) :=
  let result := prev * 0x5DEECE66D + 0xB
  if max >>> 48 = 0 then some ((result >>> 16) * max / (~~~(0 : UInt64) >>> 16), result) else none

/-- The loop of `permute_column` that draws the Lehmer code of a tile, from position `i` on:
`tc_lcode[i] = m0_rnd(P - i, &rstate)`, `n` times. -/
def lcodeLoop (P : ℕ) : ℕ → ℕ → UInt64 → Option (List ℕ)
  | 0, _, _ => some []
  | n + 1, i, rstate => do
    let (v, rstate) ← m0Rnd (P - i).toUInt64 rstate
    let ks ← lcodeLoop P n (i + 1) rstate
    some (v.toNat :: ks)

/-- The loop of `permute` from step `i`, for the codes `ks` still to apply: the element at
`t = k[i] + i` is moved to position `i` of `s` (`M0_ASSERT(t < n)`), and `r[x] = i`. -/
def permuteLoop (n : ℕ) : ℕ → List ℕ → List ℕ → List ℕ → Option (List ℕ × List ℕ)
  | _, [], s, r => some (s, r)
  | i, k :: ks, s, r =>
    let t := k + i
    if t < n then
      let x := s.getD t 0
      permuteLoop n (i + 1) ks (moveDown s i t x) (r.set x i)
    else none

/-- `permute`: the permutation of `s` whose Lehmer code is `k`, and its inverse built in `r`;
the loop runs `n - 1` times, the last element finding its place by itself. -/
def permute (n : ℕ) (k s r : List ℕ) : Option (List ℕ × List ℕ) :=
  (permuteLoop n 0 (k.take (n - 1)) s r).map fun sr =>
    (sr.1, sr.2.set (sr.1.getD (n - 1) 0) (n - 1))

/-- `m0_permute` of `lib/misc.c`, which `fd_permute` applies to the columns of a failure
domain tree: the loop of `permute` over `uint64_t` arrays. -/
def m0Permute (n : ℕ) (k s r : List ℕ) : Option (List ℕ × List ℕ) := permute n k s r

/-- `struct m0_fid`, the instance's global fid. -/
structure M0Fid where
  fContainer : UInt64
  fKey : UInt64
  deriving DecidableEq, Repr

/-- `struct tile_cache`. -/
structure TileCache where
  tcTileNo : ℕ
  tcPermute : List ℕ
  tcInverse : List ℕ
  tcLcode : List ℕ
  deriving DecidableEq, Repr

/-- The state the generator of tile `omega` starts from. -/
def tileRstate (attr : PdclustAttr) (gfid : M0Fid) (omega : ℕ) : UInt64 :=
  m0Hash (attr.paSeedHi + gfid.fKey) ^^^ m0Hash (attr.paSeedLo + omega.toUInt64 + gfid.fContainer)

/-- `permute_column`: the column that column `t` of tile `omega` is moved to, the cache being
first rebuilt for `omega` if it holds another tile; `none` when `t ≥ P` or when `permute`
fails its assertion. -/
def permuteColumn (attr : PdclustAttr) (gfid : M0Fid) (tc : TileCache) (omega t : ℕ) :
    Option (ℕ × TileCache) :=
  if t < attr.paP then
    let tc' : Option TileCache :=
      if tc.tcTileNo ≠ omega then do
        let lcode ← lcodeLoop attr.paP (attr.paP - 1) 0 (tileRstate attr gfid omega)
        let (s, r) ← permute attr.paP lcode (List.range attr.paP) tc.tcInverse
        some ⟨omega, s, r, lcode⟩
      else some tc
    tc'.map fun tc => (tc.tcPermute.getD t 0, tc)
  else none

/-- `struct m0_pdclust_instance`: the layout, the global fid and the tile cache. -/
structure PdclustInstance where
  piLayout : PdclustLayout
  piGfid : M0Fid
  piTileCache : TileCache
  deriving DecidableEq, Repr

/-- `struct m0_pdclust_src_addr`. -/
structure PdclustSrcAddr where
  saGroup : ℕ
  saUnit : ℕ
  deriving DecidableEq, Repr

/-- `struct m0_pdclust_tgt_addr`. -/
structure PdclustTgtAddr where
  taFrame : ℕ
  taObj : ℕ
  deriving DecidableEq, Repr

/-- **`m0_pdclust_instance_map`**: the tile `omega` and row `j` of the group, the row `r` and
column `t` of the unit in the tile's `L × P` coordinates, the column permuted, and the frame
`omega * L + r`. -/
def m0PdclustInstanceMap (pi : PdclustInstance) (src : PdclustSrcAddr) :
    Option (PdclustTgtAddr × PdclustInstance) := do
  let pl := pi.piLayout
  let (omega, j) := mDec pl.plC src.saGroup
  let e ← mEnc pl.plAttr.width j src.saUnit
  let (r, t) := mDec pl.plAttr.paP e
  let (obj, tc) ← permuteColumn pl.plAttr pi.piGfid pi.piTileCache omega t
  let frame ← mEnc pl.plL omega r
  some (⟨frame, obj⟩, { pi with piTileCache := tc })

/-- **`m0_pdclust_instance_inv`**: the steps of the map undone in reverse order, the column
read from the inverse permutation of the cache once `permute_column` has brought it to the
frame's tile. -/
def m0PdclustInstanceInv (pi : PdclustInstance) (tgt : PdclustTgtAddr) :
    Option (PdclustSrcAddr × PdclustInstance) := do
  let pl := pi.piLayout
  let (omega, r) := mDec pl.plL tgt.taFrame
  let (_, tc) ← permuteColumn pl.plAttr pi.piGfid pi.piTileCache omega tgt.taObj
  let t := tc.tcInverse.getD tgt.taObj 0
  let e ← mEnc pl.plAttr.paP r t
  let (j, u) := mDec pl.plAttr.width e
  let g ← mEnc pl.plC omega j
  some (⟨g, u⟩, { pi with piTileCache := tc })

/-- The tile cache as `pdclust_instance_build` leaves it: allocated zeroed for tile `1`, then
brought to tile `0` by `permute_column(pi, 0, 0)`. -/
def pdclustInstanceBuild (pl : PdclustLayout) (gfid : M0Fid) : Option PdclustInstance :=
  let P := pl.plAttr.paP
  let tc : TileCache := ⟨1, List.replicate P 0, List.replicate P 0, List.replicate P 0⟩
  (permuteColumn pl.plAttr gfid tc 0 0).map fun ctc => ⟨pl, gfid, ctc.2⟩

end Motr
