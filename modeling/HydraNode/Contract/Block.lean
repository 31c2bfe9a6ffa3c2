import HydraNode.Contract.Results

/-!
# Connecting a block: fees, refunds, dividends and the reward check

`ConnectBlock` (`validation.cpp`) adds up, over the transactions of a block, the fees
(`nFees`), the gas refunds of the contract transactions (`gasRefunds`), the dividends earned by
each called contract (`dividendsPerAddress`) and the values that enter and leave
(`nValueIn`, `nValueOut`). After the loop it pays, in a proof-of-stake block, the dividends of
the contracts that have an owner (`contractOwnersDividents`), and `CheckReward` burns a part
of what remains of the fees and checks the reward transaction. The money supply then grows by
`nValueOut - nValueIn`.

This module models that accounting. The rest of `ConnectBlock` (scripts, the coin view, the
receipts, the index) does not change the amounts and is left out.

## What one transaction brings

`TxAccounting` is what the accounting reads of one transaction, with the facts the node
establishes before the loop reads it, carried as fields:

* `Consensus::CheckTxInputs` computes the fee `txfee` and keeps it in `MoneyRange`;
* `CheckBlock` keeps contract outputs out of the coinbase and the coinstake, so every contract
  transaction pays its fee like any other;
* `QtumTxConverter` gives every execution the transaction's fee as `nTransactionFee`, and
  `parseEthTXParams` bounds `gasLimit * gasPrice` by `INT64_MAX`.

The arithmetic follows the source's types: `nValueIn`, `nValueOut` and the money supply are
`uint64_t`, `sumGas` is a `u256`, and the burn is an `int64_t` quotient multiplied by a
`uint64_t` percentage.

## Main definitions

* `contractOutsAllowed` — the limit on contract outputs before `nRefundFixHeight`
* `TxAccounting`, `BlockAccounting`
* `connectTxAccounting`, `connectBlockAccounting` — the loop of `ConnectBlock`
* `addDividents` — the dividend outputs of a proof-of-stake block
* `CheckReward`
* `ConnectBlockReward` — the accounting, the dividends, `CheckReward` and the new money supply
-/

namespace HydraNode

/-- `COIN` (`amount.h`). -/
def COIN : CAmount := 100000000

/-- `MAX_MONEY` (`amount.h`). -/
def MAX_MONEY : CAmount := 107822406 * COIN + 25 * (COIN / 100)

/-- `MoneyRange` (`amount.h`). -/
def MoneyRange (nValue : CAmount) : Bool := 0 ≤ nValue && nValue ≤ MAX_MONEY

theorem moneyRange_zero : MoneyRange 0 = true := by decide

/-- The largest `uint32_t`. -/
def UINT32_MAX : ℕ := 2 ^ 32 - 1

/-- The largest `int32_t`. -/
def INT32_MAX : ℕ := 2 ^ 31 - 1

/-- `MIN_BURN_RATE_PERCENTAGE`, `MAX_BURN_RATE_PERCENTAGE` and `DEFAULT_BURN_RATE_PERCENTAGE`
(`dgp.h`). -/
def MIN_BURN_RATE_PERCENTAGE : ℕ := 0
def MAX_BURN_RATE_PERCENTAGE : ℕ := 100
def DEFAULT_BURN_RATE_PERCENTAGE : ℕ := 0

/-- The rule of `CheckTransaction` (`consensus/tx_verify.cpp`) on the number of contract
outputs: from `nContractOutsHeight` and below `nRefundFixHeight`, a transaction has at most
one. `CheckBlock` checks a block's transactions at `nHeight = chainActive.Height() + 1`. -/
def contractOutsAllowed (nContractOutsHeight nRefundFixHeight nHeight : ℤ)
    (contract_outs : ℕ) : Bool :=
  !(decide (nContractOutsHeight ≤ nHeight) && decide (nHeight < nRefundFixHeight) &&
    decide (1 < contract_outs))

/-- `dev::u256(x)` for an `int64_t` `x`. -/
def u256OfInt64 (x : CAmount) : ℕ := (x % 2 ^ 256).toNat

/-! ## The loop over the transactions -/

/-- `MINIMUM_GAS_LIMIT` (`validation.h`). -/
def MINIMUM_GAS_LIMIT : ℕ := 10000

/-- One iteration of the gas stipend checks of `ConnectBlock` over the executions of a contract
transaction, with the `u256` sum `sumGas`, and the limits on each execution's gas. The loop's
other checks (the fields of the VM version, the block gas limit and the minimum gas price) only
reject blocks and are left out. -/
def stipendStep (nTxFee : CAmount) (sumGas : ℕ) (q : QtumExecTx) : Except String ℕ :=
  let sumGas := (sumGas + q.gas * q.gasPrice) % 2 ^ 256
  if INT64_MAX < sumGas then .error "bad-tx-gas-stipend-overflow"
  else if u256OfInt64 nTxFee < sumGas then .error "bad-txns-fee-notenough"
  -- an execution the AAL creates (`rootVM = 0`) may name less gas
  else if q.gas < MINIMUM_GAS_LIMIT ∧ q.rootVM ≠ 0 then .error "bad-tx-too-little-gas"
  else if UINT32_MAX < q.gas then .error "bad-tx-too-much-gas"
  else .ok sumGas

/-- What the accounting of `ConnectBlock` reads of one transaction. -/
structure TxAccounting where
  isCoinBase : Bool
  /-- `view.GetValueIn(tx)`, read for every transaction but the coinbase. -/
  valueIn : CAmount
  /-- `tx.GetValueOut()`. -/
  valueOut : CAmount
  /-- The fee `Consensus::CheckTxInputs` computes; `0` for the coinstake. -/
  txfee : CAmount
  /-- For a transaction that creates or calls contracts and spends no contract coin, its
  executions with the results of the EVM, in the order of its outputs. -/
  contract : Option (List (QtumExecTx × ResultExecute))
  txfee_range : MoneyRange txfee = true
  contract_of_coinBase : isCoinBase = true → contract = none
  execs_ne_nil : ∀ execs ∈ contract, execs ≠ []
  transactionFee_eq : ∀ execs ∈ contract, ∀ e ∈ execs, (e.1.transactionFee : ℤ) = txfee
  stipend_le : ∀ execs ∈ contract, ∀ e ∈ execs, e.1.gas * e.1.gasPrice ≤ INT64_MAX

/-- A transaction that executes no contract, with the fee `CheckTxInputs` computed for it. -/
def TxAccounting.noContract (isCoinBase : Bool) (valueIn valueOut txfee : CAmount)
    (h : MoneyRange txfee = true) : TxAccounting :=
  ⟨isCoinBase, valueIn, valueOut, txfee, none, h, fun _ => rfl, by simp, by simp, by simp⟩

/-- The totals of the loop of `ConnectBlock`. -/
structure BlockAccounting where
  nFees : CAmount := 0
  gasRefunds : CAmount := 0
  nValueOut : ℕ := 0
  nValueIn : ℕ := 0
  dividendsPerAddress : OrdMap Address CAmount := ∅
  /-- The refund outputs the reward transaction must contain. -/
  checkVouts : List CTxOut := []
  contractAddresses : List Address := []
  contractOwners : List Address := []

/-- The dividends of one contract transaction merged into `dividendsPerAddress`. -/
def mergeDividends (m divs : OrdMap Address CAmount) : OrdMap Address CAmount :=
  divs.entries.foldl (fun m p => m.modify p.1 0 (· + p.2)) m

/-- The values of the transaction entered into `nValueIn` and `nValueOut`, `uint64_t` sums. -/
def addValues (acc : BlockAccounting) (tx : TxAccounting) : BlockAccounting :=
  if tx.isCoinBase then { acc with nValueOut := (acc.nValueOut + toUInt64 tx.valueOut) % 2 ^ 64 }
  else
    { acc with
      nValueIn := (acc.nValueIn + toUInt64 tx.valueIn) % 2 ^ 64
      nValueOut := (acc.nValueOut + toUInt64 tx.valueOut) % 2 ^ 64 }

/-- One iteration of the loop of `ConnectBlock`, for the amounts. -/
def connectTxAccounting (env : ProcessingEnv) (acc : BlockAccounting) (tx : TxAccounting) :
    Except String BlockAccounting :=
  let nFees := if tx.isCoinBase then acc.nFees else acc.nFees + tx.txfee
  if !tx.isCoinBase && !MoneyRange nFees then .error "bad-txns-accumulated-fee-outofrange"
  else
    let acc := addValues { acc with nFees } tx
    match tx.contract with
    | none => .ok acc
    | some execs =>
      match execs.foldlM (fun sumGas e => stipendStep tx.txfee sumGas e.1) 0 with
      | .error err => .error err
      | .ok _ =>
        match ByteCodeExec.processingResults env execs with
        | none => .error "bad-vm-exec-processing"
        | some (bcer, divs) =>
          .ok { acc with
            gasRefunds := acc.gasRefunds + (bcer.refundOutputs.map (·.nValue)).sum
            checkVouts := acc.checkVouts ++ bcer.refundOutputs
            contractAddresses := acc.contractAddresses ++ bcer.contractAddresses
            contractOwners := acc.contractOwners ++ bcer.contractOwners
            dividendsPerAddress := mergeDividends acc.dividendsPerAddress divs }

/-- The loop of `ConnectBlock` over the transactions of a block, then the check that the fees
cover the refunds. -/
def connectBlockAccounting (env : ProcessingEnv) (txs : List TxAccounting) :
    Except String BlockAccounting :=
  match txs.foldlM (connectTxAccounting env) {} with
  | .error err => .error err
  | .ok acc =>
    if acc.nFees < acc.gasRefunds then .error "bad-blk-fees-greater-gasrefund" else .ok acc

/-! ## After the loop -/

/-- One iteration of the loop over `dividendsPerAddress` of a proof-of-stake block, with
`contractOwner`, the dividend outputs and `contractOwnersDividents`. `getContractOwner`
answers `none` when the call to the economy contract fails; `contractOwner` then keeps the
owner read before it. A contract whose owner reads as the zero address earns nothing. -/
def dividendsStep (getContractOwner : Address → Option Address)
    (s : Address × List CTxOut × CAmount) (p : Address × CAmount) :
    Address × List CTxOut × CAmount :=
  let contractOwner := (getContractOwner p.1).getD s.1
  if contractOwner ≠ 0 then
    (contractOwner, s.2.1 ++ [⟨p.2, p2pkhScript contractOwner⟩], s.2.2 + p.2)
  else (contractOwner, s.2)

/-- The dividend outputs of a proof-of-stake block and `contractOwnersDividents`. -/
def addDividents (getContractOwner : Address → Option Address)
    (dividendsPerAddress : OrdMap Address CAmount) : List CTxOut × CAmount :=
  (dividendsPerAddress.entries.foldl (dividendsStep getContractOwner) (0, [], 0)).2

/-- The search of `CheckReward` for the expected outputs among those of the reward
transaction: each is found with `std::find` and erased, so an output serves once. -/
def matchVouts (vTempVouts : List CTxOut) : List CTxOut → Option (List CTxOut)
  | [] => some vTempVouts
  | v :: vs => if v ∈ vTempVouts then matchVouts (vTempVouts.erase v) vs else none

/-- What `CheckReward` reads besides the totals. -/
structure RewardParams where
  isProofOfStake : Bool
  /-- `GetBlockSubsidy(nHeight, consensusParams)`. -/
  subsidy : CAmount
  cached_coinBurnPercentage : ℕ
  /-- `tx.GetValueOut() - view.GetValueIn(tx)` for the coinstake. -/
  nActualStakeReward : CAmount
  /-- The outputs of the reward transaction: the coinstake, or the coinbase of a
  proof-of-work block. -/
  rewardVout : List CTxOut

/-- The burn rate after the range check. -/
def coinBurnPercentage (cached : ℕ) : ℕ :=
  if MAX_BURN_RATE_PERCENTAGE < cached ∨ cached < MIN_BURN_RATE_PERCENTAGE then
    DEFAULT_BURN_RATE_PERCENTAGE
  else cached

/-- `coinAmountThatSouldBeBurned`: the `int64_t` quotient, truncated towards zero, times the
`uint64_t` percentage, a `uint64_t`. -/
def coinAmountThatSouldBeBurned (nFees gasRefunds contractOwnersDividents : CAmount)
    (percentage : ℕ) : ℕ :=
  toUInt64 ((nFees - gasRefunds - contractOwnersDividents).tdiv 100 * percentage)

/-- `CheckReward`, up to the split of the reward between a staker and its delegate and the
MPoS outputs; it answers `burnedCoins`. -/
def CheckReward (p : RewardParams) (nFees gasRefunds contractOwnersDividents : CAmount)
    (vouts : List CTxOut) (nValueOut nValueIn : ℕ) : Except String CAmount :=
  match matchVouts p.rewardVout vouts with
  | none => .error "CheckReward(): Gas refund missing or reimbursement or add contract owner call"
  | some _ =>
    let coinAmount := coinAmountThatSouldBeBurned nFees gasRefunds contractOwnersDividents
      (coinBurnPercentage p.cached_coinBurnPercentage)
    let nFeesAfterBurn := toInt64 (nFees - coinAmount)
    let blockReward := nFeesAfterBurn + p.subsidy
    if !p.isProofOfStake then
      if blockReward < (p.rewardVout.map (·.nValue)).sum then .error "bad-cb-amount"
      else .ok (toInt64 coinAmount)
    else if blockReward < p.nActualStakeReward then .error "bad-cs-amount"
    -- `actualReward` is a `uint64_t`, and so is `subsidy - coinAmountThatSouldBeBurned`
    else if toUInt64 ((nValueOut : ℤ) - nValueIn) ≠ toUInt64 (p.subsidy - coinAmount) then
      .error "incorrect-block-reward"
    else if blockReward < gasRefunds then .error "bad-cs-gas-greater-than-reward"
    else .ok (toInt64 coinAmount)

/-- The system contract calls a proof-of-stake block's coinstake must make. -/
structure CoinstakeCalls where
  /-- `Economy::getCScriptForAddContract`. -/
  addContractScript : List Address → List Address → CScript
  /-- `Dgp::finishVote`'s script when a vote is in progress and expires at this height. -/
  finishVote : Option CScript

/-- What `ConnectBlock` leaves of a block's amounts. -/
structure BlockReward where
  accounting : BlockAccounting
  contractOwnersDividents : CAmount
  burnedCoins : CAmount
  /-- `pindex->nMoneySupply`. -/
  nMoneySupply : ℕ

/-- The expected outputs of the reward transaction: the refunds, and for a proof-of-stake
block the dividends and the system contract calls. -/
def checkVouts (p : RewardParams) (calls : CoinstakeCalls) (acc : BlockAccounting)
    (dividends : List CTxOut) : List CTxOut :=
  if p.isProofOfStake then
    acc.checkVouts ++ dividends ++
      (if acc.contractAddresses.length ≠ 0 then
        [⟨0, calls.addContractScript acc.contractAddresses acc.contractOwners⟩] else []) ++
      (calls.finishVote.map fun script => [⟨0, script⟩]).getD []
  else acc.checkVouts

/-- The amounts of `ConnectBlock` for a block whose predecessor left the money supply
`prevMoneySupply`. -/
def ConnectBlockReward (env : ProcessingEnv) (p : RewardParams) (calls : CoinstakeCalls)
    (getContractOwner : Address → Option Address) (prevMoneySupply : ℕ)
    (txs : List TxAccounting) : Except String BlockReward :=
  match connectBlockAccounting env txs with
  | .error err => .error err
  | .ok acc =>
    let (dividends, contractOwnersDividents) :=
      if p.isProofOfStake then addDividents getContractOwner acc.dividendsPerAddress else ([], 0)
    match CheckReward p acc.nFees acc.gasRefunds contractOwnersDividents
        (checkVouts p calls acc dividends) acc.nValueOut acc.nValueIn with
    | .error err => .error err
    | .ok burnedCoins =>
      .ok ⟨acc, contractOwnersDividents, burnedCoins,
        toUInt64 ((prevMoneySupply : ℤ) + acc.nValueOut - acc.nValueIn)⟩

end HydraNode
