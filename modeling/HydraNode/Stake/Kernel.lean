import HydraNode.Arith.Compact
import HydraNode.Chain.BlockIndex
import HydraNode.Coins.View

/-!
# The proof-of-stake kernel check

`CheckStakeKernelHash` (`pos.cpp`) compares the hash of a stake's kernel with the target of
`nBits`. Below `nReduceBlocktimeHeight` it multiplies the target by the staked value; from that
height on (`fNoBNOverflow`) it divides the hash by the value instead, with
`bnProofOfStake /= bnWeight`, and `base_uint::operator/=` throws `uint_error("Division by
zero")` for a zero divisor.

The value is the coin's `nValue` as `GetStakeCoin` and `CheckKernel` read it from the coins
view, and neither of them looks at it: they check that the coin is there, that it is mature,
that the block holding it is found and, for `GetStakeCoin`, that none of the last
`coinbaseMaturity` blocks staked it already. A coin worth `0` passes them all, and the division
then throws (`zero_value_stake_divides_by_zero`).

The hash of the kernel (the stake modifier of `pindexPrev`, `blockFromTime`, the prevout and
`nTimeBlock`) is a parameter, `KernelHash`, since nothing here depends on how it is computed.
`error(...)` and `state.DoS(...)` return `false`; the model's `.error` is an exception.

## Main definitions

* `CheckStakeKernelHash`, `GetStakeCoin`, `CheckKernel`

## Main results

* `CheckStakeKernelHash_eq` — the whole check on the numbers, with the division's error
* `GetStakeCoin_eq_some` — when `GetStakeCoin` accepts a coin
* `zero_value_stake_divides_by_zero`
-/

namespace HydraNode

open base_uint

/-- What the kernel checks read of `Consensus::Params`. -/
structure KernelParams where
  nReduceBlocktimeHeight : ℕ
  nCoinbaseMaturity : ℕ
  nRBTCoinbaseMaturity : ℕ

/-- `Consensus::Params::CoinbaseMaturity`. -/
def KernelParams.CoinbaseMaturity (p : KernelParams) (height : ℕ) : ℕ :=
  if height < p.nReduceBlocktimeHeight then p.nCoinbaseMaturity else p.nRBTCoinbaseMaturity

/-- The mainnet values (`chainparams.cpp`): `nRBTCoinbaseMaturity` is
`nBlocktimeDownscaleFactor * 500` with the factor `4`. -/
def mainnetKernelParams : KernelParams where
  nReduceBlocktimeHeight := 477300
  nCoinbaseMaturity := 500
  nRBTCoinbaseMaturity := 2000

/-- `CStakeCache`: the time of a coin's block and its value, as the staker cached them. -/
structure CStakeCache where
  blockFromTime : UInt32
  amount : CAmount

section Kernel

variable {ι : Type} (p : KernelParams) (T : BlockTree ι) (nTime : ι → UInt32)
  (prevoutStake : ι → COutPoint) (KernelHash : UInt32 → COutPoint → UInt32 → arith_uint256)
  (view : CoinsMap)

/-- `CheckStakeKernelHash`: whether the kernel's hash meets the target, weighted by the value. -/
def CheckStakeKernelHash (nHeightPrev : ℕ) (nBits blockFromTime : UInt32) (prevoutValue : CAmount)
    (prevout : COutPoint) (nTimeBlock : UInt32) : Except String Bool :=
  if nTimeBlock < blockFromTime then .ok false
  else do
    let nHeight := nHeightPrev + 1
    let fNoBNOverflow := decide (p.nReduceBlocktimeHeight ≤ nHeight)
    -- `arith_uint256(nValueIn)` converts the `int64_t` to `uint64_t`
    let bnWeight : arith_uint256 := ofUInt64 (UInt64.ofInt prevoutValue)
    let bnTarget := if fNoBNOverflow then (SetCompact nBits).1
      else (SetCompact nBits).1.mul bnWeight
    let hashProofOfStake := KernelHash blockFromTime prevout nTimeBlock
    let bnProofOfStake ← if fNoBNOverflow then hashProofOfStake.div bnWeight
      else pure hashProofOfStake
    return !decide (bnProofOfStake.CompareTo bnTarget > 0)

/-- The loop of `GetStakeCoin` over the last `coinbaseMaturity` blocks from `prev`: the height of
the first one whose `prevoutStake` is the coin, if any. -/
def recentStakeHeight (prevout : COutPoint) : ℕ → ι → Option ℕ
  | 0, _ => none
  | i + 1, prev =>
    if prevoutStake prev = prevout then some (T.nHeight prev)
    else
      match T.pprev prev with
      | some q => recentStakeHeight prevout i q
      | none => none

/-- `GetStakeCoin`: the coin and the block holding it, or `none` where it rejects the stake. -/
def GetStakeCoin (prevout : COutPoint) (pindexPrev : ι) : Except String (Option (Coin × ι)) := do
  let some coinPrev := view prevout | return none
  let nHeight := T.nHeight pindexPrev + 1
  let coinbaseMaturity := p.CoinbaseMaturity nHeight
  if (nHeight : ℤ) - coinPrev.nHeight < coinbaseMaturity then return none
  let some (blockFrom : ι) ← T.GetAncestor pindexPrev coinPrev.nHeight | return none
  match recentStakeHeight T prevoutStake prevout coinbaseMaturity pindexPrev with
  | some coinHeight =>
    if (nHeight : ℤ) - coinHeight < coinbaseMaturity then return none
    else return some (coinPrev, blockFrom)
  | none => return some (coinPrev, blockFrom)

/-- The branch of `CheckKernel` for a prevout that is not in the cache; `spentCoin` is what
`GetSpentCoinFromMainChain` finds when the view has no coin. -/
def CheckKernelCoin (spentCoin : Option Coin) (pindexPrev : ι) (nBits nTimeBlock : UInt32)
    (prevout : COutPoint) : Except String Bool := do
  let some coinPrev := (view prevout).or spentCoin | return false
  let nHeight := T.nHeight pindexPrev + 1
  if (nHeight : ℤ) - coinPrev.nHeight < p.CoinbaseMaturity nHeight then return false
  let some (blockFrom : ι) ← T.GetAncestor pindexPrev coinPrev.nHeight | return false
  if coinPrev.IsSpent then return false
  CheckStakeKernelHash p KernelHash (T.nHeight pindexPrev) nBits (nTime blockFrom)
    coinPrev.out.nValue prevout nTimeBlock

/-- `CheckKernel` with a stake cache: a cached stake is checked from the cache and then again
without it. `CheckKernel` without a cache is this with the empty cache. -/
def CheckKernel (spentCoin : Option Coin) (cache : COutPoint → Option CStakeCache)
    (pindexPrev : ι) (nBits nTimeBlock : UInt32) (prevout : COutPoint) : Except String Bool :=
  match cache prevout with
  | none => CheckKernelCoin p T nTime KernelHash view spentCoin pindexPrev nBits nTimeBlock prevout
  | some stake => do
    if ← CheckStakeKernelHash p KernelHash (T.nHeight pindexPrev) nBits stake.blockFromTime
        stake.amount prevout nTimeBlock then
      CheckKernelCoin p T nTime KernelHash view spentCoin pindexPrev nBits nTimeBlock prevout
    else return false

/-! ### The kernel check on the numbers -/

/-- The weight is the value modulo `2 ^ 64`. -/
theorem toNat_weight (v : CAmount) :
    (ofUInt64 (UInt64.ofInt v) : arith_uint256).toNat = (v % 2 ^ 64).toNat :=
  toNat_ofUInt64_ofInt (by norm_num) v

/-- `CheckStakeKernelHash` on the numbers: from `nReduceBlocktimeHeight` on, the hash divided by
the weight is compared with the target, and a zero weight is the division's error; below it,
the hash is compared with the target times the weight, modulo `2 ^ 256`. -/
theorem CheckStakeKernelHash_eq (nHeightPrev : ℕ) (nBits blockFromTime : UInt32)
    (prevoutValue : CAmount) (prevout : COutPoint) (nTimeBlock : UInt32) :
    CheckStakeKernelHash p KernelHash nHeightPrev nBits blockFromTime prevoutValue prevout
        nTimeBlock =
      if nTimeBlock < blockFromTime then .ok false
      else if p.nReduceBlocktimeHeight ≤ nHeightPrev + 1 then
        if (prevoutValue % 2 ^ 64).toNat = 0 then .error "Division by zero"
        else .ok (decide ((KernelHash blockFromTime prevout nTimeBlock).toNat /
          (prevoutValue % 2 ^ 64).toNat ≤ (SetCompact nBits).1.toNat))
      else .ok (decide ((KernelHash blockFromTime prevout nTimeBlock).toNat ≤
        (SetCompact nBits).1.toNat * (prevoutValue % 2 ^ 64).toNat % 2 ^ 256)) := by
  have hw := toNat_weight prevoutValue
  by_cases htime : nTimeBlock < blockFromTime
  · simp only [CheckStakeKernelHash, if_pos htime]
  by_cases hR : p.nReduceBlocktimeHeight ≤ nHeightPrev + 1
  · by_cases h0 : (prevoutValue % 2 ^ 64).toNat = 0
    · -- a zero weight: `operator/=` throws before comparing
      simp only [CheckStakeKernelHash, if_neg htime, if_pos hR, if_pos h0, decide_eq_true hR,
        if_true, div_of_toNat_eq_zero _ _ (hw.trans h0)]
      rfl
    · obtain ⟨q, hq, hqv⟩ := div_eq (KernelHash blockFromTime prevout nTimeBlock)
        (ofUInt64 (UInt64.ofInt prevoutValue)) (by rw [hw]; exact h0)
      simp only [CheckStakeKernelHash, if_neg htime, if_pos hR, if_neg h0, decide_eq_true hR,
        if_true, hq, except_ok_bind, gt_iff_lt, CompareTo_pos_iff, hqv, hw]
      simp only [← Nat.not_lt, decide_not]
      rfl
  · simp only [CheckStakeKernelHash, if_neg htime, if_neg hR, decide_eq_false hR,
      Bool.false_eq_true, if_false, gt_iff_lt, CompareTo_pos_iff, toNat_mul, hw]
    simp only [← Nat.not_lt, decide_not]
    rfl

/-! ### `GetStakeCoin` and `CheckKernel` -/

/-- The loop finds nothing when none of the blocks it passes staked the coin. By induction on
the number of blocks left. -/
theorem recentStakeHeight_eq_none (prevout : COutPoint) : ∀ (n : ℕ) (prev : ι),
    (∀ k < n, ∀ b, T.walkBack prev k = some b → prevoutStake b ≠ prevout) →
      recentStakeHeight T prevoutStake prevout n prev = none
  | 0, _, _ => rfl
  | n + 1, prev, h => by
    rw [recentStakeHeight, if_neg (h 0 (by omega) prev rfl)]
    rcases hp : T.pprev prev with _ | q
    · rfl
    · exact recentStakeHeight_eq_none prevout n q fun k hk b hb =>
        h (k + 1) (by omega) b (by rw [BlockTree.walkBack_succ_of_pprev hp]; exact hb)

variable {T} in
/-- The block `GetAncestor` finds for a coin no higher than `pindexPrev`. -/
theorem GetAncestor_coin (hT : T.SkipsBuilt) (pindexPrev : ι) {h : ℕ}
    (hh : h ≤ T.nHeight pindexPrev) :
    ∃ blockFrom, T.walkBack pindexPrev (T.nHeight pindexPrev - h) = some blockFrom ∧
      T.GetAncestor pindexPrev h = .ok (some blockFrom) := by
  obtain ⟨blockFrom, hb⟩ := BlockTree.walkBack_isSome (T := T) (b := pindexPrev)
    (k := T.nHeight pindexPrev - h) (by omega)
  refine ⟨blockFrom, hb, ?_⟩
  rw [BlockTree.GetAncestor_eq hT, if_pos (by omega), Int.toNat_natCast, hb]

variable {T} in
/-- `GetStakeCoin` accepts a coin of the view that is mature, below `pindexPrev`, and not staked
by one of the last `coinbaseMaturity` blocks; nothing it checks reads the coin's value. -/
theorem GetStakeCoin_eq_some (hT : T.SkipsBuilt) {prevout : COutPoint} {pindexPrev : ι}
    {coin : Coin} (hview : view prevout = some coin)
    (hpos : 0 < p.CoinbaseMaturity (T.nHeight pindexPrev + 1))
    (hmature : p.CoinbaseMaturity (T.nHeight pindexPrev + 1) + coin.nHeight ≤
      T.nHeight pindexPrev + 1)
    (hfresh : ∀ k < p.CoinbaseMaturity (T.nHeight pindexPrev + 1), ∀ b,
      T.walkBack pindexPrev k = some b → prevoutStake b ≠ prevout) :
    ∃ blockFrom, T.walkBack pindexPrev (T.nHeight pindexPrev - coin.nHeight) = some blockFrom ∧
      GetStakeCoin p T prevoutStake view prevout pindexPrev = .ok (some (coin, blockFrom)) := by
  obtain ⟨blockFrom, hb, hanc⟩ := GetAncestor_coin hT pindexPrev
    (h := coin.nHeight) (by omega)
  refine ⟨blockFrom, hb, ?_⟩
  have hnot : ¬((T.nHeight pindexPrev + 1 : ℕ) - (coin.nHeight : ℤ) <
      (p.CoinbaseMaturity (T.nHeight pindexPrev + 1) : ℤ)) := by omega
  simp only [GetStakeCoin, hview, if_neg hnot, hanc, except_ok_bind,
    recentStakeHeight_eq_none T prevoutStake prevout _ pindexPrev hfresh]
  rfl

variable {T} in
/-- `CheckKernel` without a cache reaches `CheckStakeKernelHash` with the value of a mature,
unspent coin of the view below `pindexPrev`. -/
theorem CheckKernelCoin_eq (hT : T.SkipsBuilt) (spentCoin : Option Coin) {prevout : COutPoint}
    {pindexPrev : ι} {coin : Coin} (hview : view prevout = some coin)
    (hpos : 0 < p.CoinbaseMaturity (T.nHeight pindexPrev + 1))
    (hmature : p.CoinbaseMaturity (T.nHeight pindexPrev + 1) + coin.nHeight ≤
      T.nHeight pindexPrev + 1)
    (hunspent : coin.IsSpent = false) {blockFrom : ι}
    (hb : T.walkBack pindexPrev (T.nHeight pindexPrev - coin.nHeight) = some blockFrom)
    (nBits nTimeBlock : UInt32) :
    CheckKernelCoin p T nTime KernelHash view spentCoin pindexPrev nBits nTimeBlock prevout =
      CheckStakeKernelHash p KernelHash (T.nHeight pindexPrev) nBits (nTime blockFrom)
        coin.out.nValue prevout nTimeBlock := by
  have hanc : T.GetAncestor pindexPrev coin.nHeight = .ok (some blockFrom) := by
    rw [BlockTree.GetAncestor_eq hT, if_pos (by omega), Int.toNat_natCast, hb]
  have hnot : ¬((T.nHeight pindexPrev + 1 : ℕ) - (coin.nHeight : ℤ) <
      (p.CoinbaseMaturity (T.nHeight pindexPrev + 1) : ℤ)) := by omega
  simp only [CheckKernelCoin, hview, Option.some_or, if_neg hnot, hanc, except_ok_bind,
    hunspent, Bool.false_eq_true, if_false]

end Kernel

/-- A coin worth nothing reaches the division by zero. From `nReduceBlocktimeHeight` on, a coin
of the view that is mature and was not staked by one of the last `coinbaseMaturity` blocks is
accepted by `GetStakeCoin` whatever its value; for a value of `0` (a consensus-valid output),
`CheckStakeKernelHash` on it, and `CheckKernel` without a cache, throw
`uint_error("Division by zero")` at every `nBits` and every `nTimeBlock` not before the coin's
block. -/
theorem zero_value_stake_divides_by_zero {ι : Type} (p : KernelParams) (T : BlockTree ι)
    (hT : T.SkipsBuilt) (nTime : ι → UInt32) (prevoutStake : ι → COutPoint)
    (KernelHash : UInt32 → COutPoint → UInt32 → arith_uint256) (view : CoinsMap)
    (spentCoin : Option Coin) (pindexPrev : ι) (prevout : COutPoint) (coin : Coin)
    (hview : view prevout = some coin) (hzero : coin.out.nValue = 0)
    (hheight : p.nReduceBlocktimeHeight ≤ T.nHeight pindexPrev + 1)
    (hpos : 0 < p.CoinbaseMaturity (T.nHeight pindexPrev + 1))
    (hmature : p.CoinbaseMaturity (T.nHeight pindexPrev + 1) + coin.nHeight ≤
      T.nHeight pindexPrev + 1)
    (hfresh : ∀ k < p.CoinbaseMaturity (T.nHeight pindexPrev + 1), ∀ b,
      T.walkBack pindexPrev k = some b → prevoutStake b ≠ prevout) (nBits nTimeBlock : UInt32) :
    ∃ blockFrom, GetStakeCoin p T prevoutStake view prevout pindexPrev =
        .ok (some (coin, blockFrom)) ∧
      (nTime blockFrom ≤ nTimeBlock →
        CheckStakeKernelHash p KernelHash (T.nHeight pindexPrev) nBits (nTime blockFrom)
            coin.out.nValue prevout nTimeBlock = .error "Division by zero" ∧
        CheckKernel p T nTime KernelHash view spentCoin (fun _ => none) pindexPrev nBits
            nTimeBlock prevout = .error "Division by zero") := by
  obtain ⟨blockFrom, hb, hget⟩ := GetStakeCoin_eq_some p prevoutStake view hT hview hpos hmature
    hfresh
  refine ⟨blockFrom, hget, fun htime => ?_⟩
  have hkernel : CheckStakeKernelHash p KernelHash (T.nHeight pindexPrev) nBits (nTime blockFrom)
      coin.out.nValue prevout nTimeBlock = .error "Division by zero" := by
    rw [CheckStakeKernelHash_eq, if_neg (UInt32.not_lt.mpr htime), if_pos hheight, hzero]
    rfl
  have hunspent : coin.IsSpent = false := by
    simp [Coin.IsSpent, hzero]
  refine ⟨hkernel, ?_⟩
  rw [CheckKernel, CheckKernelCoin_eq p nTime KernelHash view hT spentCoin hview hpos hmature
    hunspent hb]
  exact hkernel

/-- A coin worth nothing from block `1000`, the only coin of its view. -/
def zeroStakeCoin : Coin := ⟨⟨0, []⟩, false, false, 1000⟩

/-- The view holding `zeroStakeCoin` at the outpoint `⟨0, 0⟩`. -/
def zeroStakeView : CoinsMap := fun o => if o = ⟨0, 0⟩ then some zeroStakeCoin else none

theorem stakeOutpoint_ne : (⟨0, 1⟩ : COutPoint) ≠ ⟨0, 0⟩ := by decide

/-- On mainnet, staking `zeroStakeCoin` on top of block `477299` of a chain whose blocks staked
another coin. -/
theorem zero_value_stake_divides_by_zero_mainnet :
    linearChain.SkipsBuilt ∧ zeroStakeView ⟨0, 0⟩ = some zeroStakeCoin ∧
    zeroStakeCoin.out.nValue = 0 ∧
    mainnetKernelParams.nReduceBlocktimeHeight ≤ linearChain.nHeight 477299 + 1 ∧
    0 < mainnetKernelParams.CoinbaseMaturity (linearChain.nHeight 477299 + 1) ∧
    mainnetKernelParams.CoinbaseMaturity (linearChain.nHeight 477299 + 1) +
      zeroStakeCoin.nHeight ≤ linearChain.nHeight 477299 + 1 ∧
    (∀ k < mainnetKernelParams.CoinbaseMaturity (linearChain.nHeight 477299 + 1), ∀ b,
      linearChain.walkBack 477299 k = some b →
        (fun _ => (⟨0, 1⟩ : COutPoint)) b ≠ (⟨0, 0⟩ : COutPoint)) ∧
    ∃ blockFrom, GetStakeCoin mainnetKernelParams linearChain (fun _ => ⟨0, 1⟩) zeroStakeView
        ⟨0, 0⟩ 477299 = .ok (some (zeroStakeCoin, blockFrom)) ∧
      ((fun _ => (0 : UInt32)) blockFrom ≤ 0 →
        CheckStakeKernelHash mainnetKernelParams (fun _ _ _ => zero)
            (linearChain.nHeight 477299) 0x1d00ffff ((fun _ => (0 : UInt32)) blockFrom)
            zeroStakeCoin.out.nValue ⟨0, 0⟩ 0 = .error "Division by zero" ∧
        CheckKernel mainnetKernelParams linearChain (fun _ => 0) (fun _ _ _ => zero)
            zeroStakeView none (fun _ => none) 477299 0x1d00ffff 0 ⟨0, 0⟩ =
          .error "Division by zero") :=
  ⟨linearChain_skipsBuilt, if_pos rfl, rfl, by decide, by decide, by decide,
    fun _ _ _ _ => stakeOutpoint_ne,
    zero_value_stake_divides_by_zero mainnetKernelParams linearChain linearChain_skipsBuilt
      (fun _ => 0) (fun _ => ⟨0, 1⟩) (fun _ _ _ => zero) zeroStakeView none 477299 ⟨0, 0⟩
      zeroStakeCoin (if_pos rfl) rfl (by decide) (by decide) (by decide)
      (fun _ _ _ _ => stakeOutpoint_ne) 0x1d00ffff 0⟩

end HydraNode
