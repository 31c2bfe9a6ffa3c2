import HydraNode.Contract.Block

/-!
# The fee of a delegated stake

A coin's owner may delegate its staking to a super staker, for a fee of `0` to `100` percent of
the reward. The super staker's wallet splits the reward with `SplitOfflineStakeReward`
(`pos.cpp`): its share is `fee` percent of the reward rounded down, paid with its own stake in
the coinstake's `vout[1]`, and the owner's share goes to `vout[2]`, an output that exists for a
fee below `100` (`IsDelegateOutputExist`). The validator does not see the fee; it recovers it
from the coinstake with `GetDelegationFeeTx`, as the staker's share in percent of the two
shares, rounded up, and `CheckProofOfStake` compares it with the fee of the delegation.

The two roundings undo each other only when the remainder of `reward * fee` by `100` is below
the reward (`GetDelegationFeeTx_CreateCoinStakeReward_iff`), which every reward of `100` or
more satisfies. A smaller reward may lose the fee: a reward of `1` with a fee of `50` pays the
staker nothing, and the fee recovered is `0` (`GetDelegationFeeTx_small_reward`).

## Main definitions

* `SplitOfflineStakeReward`, `IsDelegateOutputExist`, `GetDelegationFeeTx`
* `CreateCoinStakeReward` — the reward outputs of `CWallet::CreateCoinStake`

## Main results

* `GetDelegationFeeTx_CreateCoinStakeReward_iff`
* `GetDelegationFeeTx_small_reward`
-/

namespace HydraNode

/-- `SplitOfflineStakeReward`: `(nRewardOffline, nRewardStaker)`, the staker's share `fee`
percent of the reward rounded toward zero; `none` (`return false`) for a fee above `100`. -/
def SplitOfflineStakeReward (nReward : CAmount) (fee : ℕ) : Option (CAmount × CAmount) :=
  if 100 < fee then none
  else
    let nRewardStaker := (nReward * fee).tdiv 100
    some (nReward - nRewardStaker, nRewardStaker)

/-- `IsDelegateOutputExist`: a fee below `100` leaves the owner a share. -/
def IsDelegateOutputExist (inFee : ℤ) : Bool := decide (0 ≤ inFee) && decide (inFee < 100)

/-- `GetDelegationFeeTx`, with the value `nValueCoin` of the coin of the coinstake's first
input: the staker's share of the reward in percent, rounded up; `-1` for a transaction that is
not a coinstake with the outputs, or without a reward. -/
def GetDelegationFeeTx (tx : CTransaction) (nValueCoin : CAmount) (delegateOutputExist : Bool) :
    ℤ :=
  let minVoutSize := if delegateOutputExist then 3 else 2
  if !tx.IsCoinStake || tx.vout.length < minVoutSize || nValueCoin ≤ 0 then -1
  else
    let nValueStaker := (tx.vout.getD 1 CTxOut.null).nValue - nValueCoin
    let nValueDelegate := if delegateOutputExist then (tx.vout.getD 2 CTxOut.null).nValue else 0
    let nReward := nValueStaker + nValueDelegate
    if nReward ≤ 0 then -1 else (nValueStaker * 100 + nReward - 1).tdiv nReward

/-- `tx.vout[i].nValue = v`. -/
def CTransaction.setValue (tx : CTransaction) (i : ℕ) (v : CAmount) : CTransaction :=
  { tx with vout := tx.vout.modify i fun o => { o with nValue := v } }

/-- The reward step of `CWallet::CreateCoinStake` outside MPoS: `vout[1]` gets the credit of
the super staker's coin and its share of the reward, and `vout[2]`, when the fee leaves one, the
owner's share. `none` is `return false`. -/
def CreateCoinStakeReward (txNew : CTransaction) (nCredit nTotalReward : CAmount) (fee : ℕ) :
    Option CTransaction :=
  if nTotalReward < 0 then none
  else
    match SplitOfflineStakeReward nTotalReward fee with
    | none => none
    | some (nRewardOffline, nRewardStaker) =>
      let txNew := txNew.setValue 1 (nCredit + nRewardStaker)
      some (if IsDelegateOutputExist fee then txNew.setValue 2 nRewardOffline else txNew)

/-! ## Setting an output's value -/

@[simp] theorem CTransaction.length_vout_setValue (tx : CTransaction) (i : ℕ) (v : CAmount) :
    (tx.setValue i v).vout.length = tx.vout.length := by
  simp [CTransaction.setValue]

theorem CTransaction.nValue_getD_setValue (tx : CTransaction) {i j : ℕ} (v : CAmount)
    (hj : j < tx.vout.length) :
    ((tx.setValue i v).vout.getD j CTxOut.null).nValue =
      if i = j then v else (tx.vout.getD j CTxOut.null).nValue := by
  have hj' : j < (tx.vout.modify i fun o => { o with nValue := v }).length := by simpa using hj
  simp only [CTransaction.setValue, List.getD_eq_getElem _ _ hj', List.getD_eq_getElem _ _ hj,
    List.getElem_modify]
  split_ifs <;> rfl

/-- Setting the value of an output after the first keeps a coinstake a coinstake. -/
theorem CTransaction.IsCoinStake_setValue (tx : CTransaction) {i : ℕ} (hi : 1 ≤ i) (v : CAmount) :
    (tx.setValue i v).IsCoinStake = tx.IsCoinStake := by
  obtain ⟨j, rfl⟩ : ∃ j, i = j + 1 := ⟨i - 1, by omega⟩
  obtain ⟨vin, vout⟩ := tx
  -- the first output stays, and so does the number of outputs
  match vout, j with
  | [], _ => rfl
  | [_], _ => cases vin <;> simp [CTransaction.setValue, CTransaction.IsCoinStake]
  | _ :: _ :: _, 0 => cases vin <;> rfl
  | _ :: _ :: _, _ + 1 => cases vin <;> rfl

/-! ## The split and the recovered fee -/

theorem SplitOfflineStakeReward_eq {nReward : ℤ} {fee : ℕ} (hR : 0 ≤ nReward)
    (hfee : fee ≤ 100) :
    SplitOfflineStakeReward nReward fee =
      some (nReward - nReward * fee / 100, nReward * fee / 100) := by
  have hnn : 0 ≤ nReward * fee := Int.mul_nonneg hR (Int.natCast_nonneg _)
  simp [SplitOfflineStakeReward, show ¬100 < fee by omega, Int.tdiv_eq_ediv_of_nonneg hnn]

/-- What the reward step writes: the credit and the staker's share in `vout[1]`, the owner's
share in `vout[2]` when the fee leaves one, and the outputs otherwise as they were. -/
theorem CreateCoinStakeReward_spec {txNew tx : CTransaction} {nCredit R : ℤ} {fee : ℕ}
    (hR : 0 ≤ R) (hfee : fee ≤ 100)
    (hvout : (if IsDelegateOutputExist fee then 3 else 2) ≤ txNew.vout.length)
    (h : CreateCoinStakeReward txNew nCredit R fee = some tx) :
    tx.IsCoinStake = txNew.IsCoinStake ∧ tx.vout.length = txNew.vout.length ∧
      (tx.vout.getD 1 CTxOut.null).nValue = nCredit + R * fee / 100 ∧
      (if IsDelegateOutputExist fee then (tx.vout.getD 2 CTxOut.null).nValue else 0) =
        (if IsDelegateOutputExist fee then R - R * fee / 100 else 0) := by
  simp only [CreateCoinStakeReward, show ¬R < 0 by omega, if_false,
    SplitOfflineStakeReward_eq hR hfee] at h
  cases h
  have hlen₁ : 1 < txNew.vout.length := by split_ifs at hvout <;> omega
  have h₁ := CTransaction.nValue_getD_setValue txNew (i := 1) (nCredit + R * fee / 100) hlen₁
  rw [if_pos rfl] at h₁
  split_ifs with hdel
  · -- `vout[2]` is set after `vout[1]`, and leaves it as it is
    rw [if_pos hdel] at hvout
    have hlen : 1 < (txNew.setValue 1 (nCredit + R * fee / 100)).vout.length := by simpa
    have hlen' : 2 < (txNew.setValue 1 (nCredit + R * fee / 100)).vout.length := by simpa
    refine ⟨?_, by simp, ?_, ?_⟩
    · rw [CTransaction.IsCoinStake_setValue _ (by norm_num),
        CTransaction.IsCoinStake_setValue _ le_rfl]
    · rw [CTransaction.nValue_getD_setValue _ _ hlen, if_neg (by norm_num), h₁]
    · rw [CTransaction.nValue_getD_setValue _ _ hlen', if_pos rfl]
  · exact ⟨CTransaction.IsCoinStake_setValue _ le_rfl _, by simp, h₁, rfl⟩

/-- The two shares make up the reward. -/
theorem staker_add_delegate_eq {R : ℤ} {fee : ℕ} (hfee : fee ≤ 100) :
    R * fee / 100 + (if IsDelegateOutputExist fee then R - R * fee / 100 else 0) = R := by
  by_cases h100 : fee = 100
  · subst h100
    simp [IsDelegateOutputExist]
  · have hdel : IsDelegateOutputExist fee = true := by
      simp [IsDelegateOutputExist, show (fee : ℤ) < 100 by omega]
    rw [if_pos hdel]
    ring

/-- The rounding up of the validator undoes the rounding down of the wallet exactly when the
remainder of `R * fee` by `100` is below `R`. -/
theorem ceil_percent_floor_share_iff {R : ℤ} {fee : ℕ} (hR : 0 < R) :
    (R * fee / 100 * 100 + R - 1) / R = fee ↔ R * fee % 100 < R := by
  have hdiv := Int.emod_add_mul_ediv (R * fee) 100
  have hmod := Int.emod_nonneg (R * fee) (by norm_num : (100 : ℤ) ≠ 0)
  constructor
  · intro h
    by_contra hge
    -- the numerator falls short of `fee * R`, so its quotient falls short of `fee`
    have hnum : R * fee / 100 * 100 + R - 1 < fee * R := by linarith
    exact absurd (Int.ediv_lt_of_lt_mul hR hnum) (by omega)
  · intro h
    -- the numerator is `R * fee` and a remainder below `R`
    have hnum : R * fee / 100 * 100 + R - 1 = (R - 1 - R * fee % 100) + R * fee := by linarith
    rw [hnum, Int.add_mul_ediv_left _ _ (by omega), Int.ediv_eq_zero_of_lt (by omega) (by omega),
      zero_add]

/-- The staker's share in percent of the reward, rounded up: the fee, when the fee is `100` or
the remainder of `R * fee` by `100` is below `R`. -/
theorem ceil_percent_share_iff {R : ℤ} {fee : ℕ} (hR : 0 < R) (hfee : fee ≤ 100) :
    (R * fee / 100 * 100 + R - 1).tdiv R = fee ↔ (fee = 100 ∨ R * fee % 100 < R) := by
  have hs : 0 ≤ R * fee / 100 :=
    Int.ediv_nonneg (Int.mul_nonneg hR.le (Int.natCast_nonneg _)) (by norm_num)
  rw [Int.tdiv_eq_ediv_of_nonneg (by omega), ceil_percent_floor_share_iff hR]
  by_cases h100 : fee = 100
  · -- a fee of `100` leaves no remainder
    subst h100
    simp only [Nat.cast_ofNat, true_or, iff_true]
    rw [Int.mul_emod_left]
    exact hR
  · simp [h100]

/-- The recovered fee of the staker's own coinstake: for a reward `R` in `(0, MAX_MONEY]`, a fee of
at most `100` and a coin of positive value in the first input, the products the source computes
in `int64_t`, `nReward * fee` and `nValueStaker * 100 + nReward - 1`, stay below `2 ^ 63`, and
`GetDelegationFeeTx` returns the fee the wallet split the reward with exactly when the fee is
`100` or the remainder of `R * fee` by `100` is below `R`; so always for a reward of `100` or
more. -/
theorem GetDelegationFeeTx_CreateCoinStakeReward_iff {txNew tx : CTransaction}
    {coinValue R : ℤ} {fee : ℕ} (hR : 0 < R) (hmax : R ≤ MAX_MONEY) (hfee : fee ≤ 100)
    (hcoin : 0 < coinValue) (hstake : txNew.IsCoinStake = true)
    (hvout : (if IsDelegateOutputExist fee then 3 else 2) ≤ txNew.vout.length)
    (h : CreateCoinStakeReward txNew coinValue R fee = some tx) :
    (R * fee < 2 ^ 63 ∧ R * fee / 100 * 100 + R - 1 < 2 ^ 63) ∧
      (GetDelegationFeeTx tx coinValue (IsDelegateOutputExist fee) = fee ↔
        (fee = 100 ∨ R * fee % 100 < R)) := by
  obtain ⟨hstake', hlen, h₁, h₂⟩ := CreateCoinStakeReward_spec hR.le hfee hvout h
  have hsum := staker_add_delegate_eq (R := R) hfee
  -- the staker's share is what `vout[1]` holds beyond the coin, and the two shares are `R`
  have hstaker : (tx.vout.getD 1 CTxOut.null).nValue - coinValue = R * fee / 100 := by
    rw [h₁]
    ring
  -- below `MAX_MONEY` a hundred rewards fit in `int64_t`
  have hmax' : R * 101 < 2 ^ 63 := by
    rw [MAX_MONEY, COIN] at hmax
    omega
  have hprod : R * fee ≤ R * 100 := Int.mul_le_mul_of_nonneg_left (by exact_mod_cast hfee) hR.le
  refine ⟨⟨by omega, by omega⟩, ?_⟩
  simp only [GetDelegationFeeTx, hstake', hstake, hlen, h₂, hstaker, hsum]
  simp only [Bool.not_true, Bool.false_or, show ¬coinValue ≤ 0 by omega, decide_false,
    Bool.or_false, show ¬R ≤ 0 by omega, if_false, ← ceil_percent_share_iff hR hfee]
  rw [if_neg (by simpa using hvout)]

/-- A reward of `10000` split with a fee of `10` gives the fee back. -/
theorem GetDelegationFeeTx_stake_fee_ten :
    let txNew : CTransaction :=
      ⟨[⟨⟨5, 0⟩, []⟩], [⟨0, []⟩, ⟨0, p2pkhScript 3⟩, ⟨0, p2pkhScript 4⟩]⟩
    ∃ tx, CreateCoinStakeReward txNew 1000 10000 10 = some tx ∧
      GetDelegationFeeTx tx 1000 (IsDelegateOutputExist (10 : ℕ)) = (10 : ℕ) := by
  intro txNew
  obtain ⟨tx, h⟩ : ∃ tx, CreateCoinStakeReward txNew 1000 10000 10 = some tx := ⟨_, rfl⟩
  exact ⟨tx, h, (GetDelegationFeeTx_CreateCoinStakeReward_iff (by norm_num)
    (by norm_num [MAX_MONEY, COIN]) (by norm_num) (by norm_num) (by decide) (by decide)
    h).2.mpr (Or.inr (by norm_num))⟩

/-- A reward of `1` split with a fee of `50`: the staker's share rounds down to nothing, the
owner's output carries the whole reward, and the fee recovered from the coinstake is `0`,
which `CheckProofOfStake` compares with the delegation's `50`. -/
theorem GetDelegationFeeTx_small_reward :
    let txNew : CTransaction :=
      ⟨[⟨⟨5, 0⟩, []⟩], [⟨0, []⟩, ⟨0, p2pkhScript 3⟩, ⟨0, p2pkhScript 4⟩]⟩
    ∃ tx, CreateCoinStakeReward txNew 1000 1 50 = some tx ∧
      (tx.vout.getD 1 CTxOut.null).nValue = 1000 ∧ (tx.vout.getD 2 CTxOut.null).nValue = 1 ∧
      GetDelegationFeeTx tx 1000 (IsDelegateOutputExist 50) = 0 :=
  ⟨_, rfl, rfl, rfl, by decide⟩

end HydraNode
