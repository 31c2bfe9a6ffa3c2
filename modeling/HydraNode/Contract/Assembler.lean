import HydraNode.Contract.Reward

/-!
# The staker's coinstake passes `CheckReward`

`BlockAssembler::CreateNewBlock` (`miner.cpp`) adds up, over the transactions it puts into a
block, the amounts that `ConnectBlock` adds up again when the block is connected. These are the
fees (`nFees`) and, from `ByteCodeExec::processingResults`, the refunds (`bceResult.refundSender`,
`bceResult.refundOutputs`), the dividends per contract (`bceResult.dividendByContract`) and the
contracts created with their owners. For a proof-of-stake block it then builds the reward
transaction `originalRewardTx` from them:

* `CalculateRewardWithoutDividents` gives the staker the fees and the subsidy, less the refunds;
* `AddRefundTransactions` appends the refund outputs;
* `AddDividentsToCoinstakeTransaction` pays the dividends of the contracts that have an owner,
  out of the staker's output and out of `nFees`;
* `AddTransactionForSavingContractOwners` and `AddTransactionForFinishingVote` append the system
  contract calls;
* `BurnMinerFees` burns a share of what remains of the fees.

The wallet's `CreateCoinStake` then pays the staker `nFees - bceResult.refundSender` and the
subsidy, and appends the outputs of `originalRewardTx` after the staker's.

`CreateNewBlock_CheckReward` is the agreement of the two sides. The outputs after the staker's
are exactly those `ConnectBlock` expects. The reward is `nFees + subsidy - burnedCoins`, both in
`originalRewardTx` and in the coinstake the wallet builds from it. `CheckReward` accepts that
coinstake and burns what the assembler burnt.

The assembler merges the dividends with other code than the validator: `+=` for the contracts it
has seen, then `std::map::insert(first, last)`. `mergeDividendByContract_eq` and
`copyDividends_eq` show that the maps agree.

## What is assumed

The two sides see the same EVM results, contract owners, system contract calls, subsidy and burn
rate. The block's other checks are not modelled; the theorem assumes instead that the loop of
`ConnectBlock` accepts the block's transactions. That an execution uses at most its gas limit is
the assumption on the EVM of `HydraNode.Contract.Reward`. Of the wallet, the theorem takes the
reward `CreateCoinStake` pays and the outputs it appends.

None of this depends on the height. At the block of height `nRefundFixHeight`, the refunds and
the dividends may exceed the fees (`ConnectBlockReward_at_refundFixHeight`); the burn is then
negative on both sides alike.

## Main definitions

* `AmountsInv` — the amounts of the loop of `ConnectBlock` at every height
* `BlockAssembler.AssemblerState` — `nFees`, `bceResult` and its `dividendByContract`
* `BlockAssembler.addTxs` — the accounting of `AddToBlock` and `AttemptToAddContractToBlock`
* `BlockAssembler.CreateNewBlockReward` — the reward assembly of a proof-of-stake block

## Main results

* `connectBlockAccounting_amounts` — the run lemma for `AmountsInv`
* `BlockAssembler.addTxs_agrees` — the assembler's totals are the validator's
* `BlockAssembler.CreateNewBlockReward_eq` — the outputs and the fees the assembly leaves
* `CreateNewBlock_CheckReward` — the validator accepts the staker's coinstake
-/

namespace HydraNode

open ByteCodeExec

/-! ## Refunds, at every height -/

theorem refundSender_exceptionStep (env : ProcessingEnv) (q : QtumExecTx) (r : ResultExecute)
    (res : ByteCodeExecResult) : (exceptionStep env q r res).refundSender = res.refundSender := by
  simp only [exceptionStep]
  split_ifs <;> rfl

/-- An iteration of `processingResults` writes nothing into `refundSender`. -/
theorem processingStep_refundSender {env : ProcessingEnv} {s s' : ProcessingState}
    {e : QtumExecTx × ResultExecute} (h : processingStep env s e = some s') :
    s'.result.refundSender = s.result.refundSender := by
  simp only [processingStep] at h
  obtain ⟨s₁, hs₁, rfl⟩ := Option.map_eq_some_iff.mp h
  have h₁ : s₁.result.refundSender = s.result.refundSender := by
    split at hs₁
    · rw [chargeStep] at hs₁
      by_cases hbig : UINT64_MAX < e.1.gas ∨ UINT64_MAX < e.2.gasUsed ∨ UINT64_MAX < e.1.gasPrice
      · rw [if_pos hbig] at hs₁
        cases hs₁
      · rw [if_neg hbig] at hs₁
        cases hs₁
        exact refundSender_exceptionStep env _ _ _
    · cases hs₁
      exact refundSender_exceptionStep env _ _ _
  -- the condensing transaction, if any, only joins `valueTransfers`
  split_ifs <;> exact h₁

/-- The refunds `oldRefunds` writes are positive, and each is entered into `refundSender`. -/
theorem oldRefunds_spec {script : CScript} {res res' : ByteCodeExecResult}
    {amounts : List CAmount} (h : oldRefunds script res amounts = some res')
    (hres : res.refundSender = (res.refundOutputs.map (·.nValue)).sum)
    (hnn : 0 ≤ (res.refundOutputs.map (·.nValue)).sum) :
    res'.refundSender = (res'.refundOutputs.map (·.nValue)).sum ∧
      0 ≤ (res'.refundOutputs.map (·.nValue)).sum := by
  rw [oldRefunds] at h
  refine foldlM_option_inv (fun r : ByteCodeExecResult =>
    r.refundSender = (r.refundOutputs.map (·.nValue)).sum ∧
      0 ≤ (r.refundOutputs.map (·.nValue)).sum) ?_ h ⟨hres, hnn⟩
  rintro r a - r' hstep ⟨hr, hr₀⟩
  split_ifs at hstep with hneg hpos
  · cases hstep
    simp only [List.map_append, List.map_cons, List.map_nil, List.sum_append, List.sum_cons,
      List.sum_nil, add_zero]
    exact ⟨by rw [hr], Int.add_nonneg hr₀ (Int.le_of_lt hpos)⟩
  · cases hstep
    exact ⟨hr, hr₀⟩

/-- Both ways of refunding enter every refund output into `refundSender`. -/
theorem processingResults_refundSender {env : ProcessingEnv}
    {execs : List (QtumExecTx × ResultExecute)} {bcer : ByteCodeExecResult}
    {divs : OrdMap Address CAmount} (h : processingResults env execs = some (bcer, divs)) :
    bcer.refundSender = (bcer.refundOutputs.map (·.nValue)).sum ∧
      (env.nRefundFixHeight ≤ env.height ∨ 0 ≤ (bcer.refundOutputs.map (·.nValue)).sum) := by
  simp only [processingResults, Option.bind_eq_bind, Option.bind_eq_some_iff] at h
  obtain ⟨s, hrun, h⟩ := h
  -- the loop writes no refund
  have hsender : s.result.refundSender = 0 := foldlM_option_inv
    (fun t : ProcessingState => t.result.refundSender = 0)
    (fun _ _ _ _ hstep ht => (processingStep_refundSender hstep).trans ht) hrun rfl
  have hout : s.result.refundOutputs = [] := foldlM_option_inv
    (fun t : ProcessingState => t.result.refundOutputs = [])
    (fun _ _ _ _ hstep ht => by
      cases hc : isCharged env _
      · exact (processingStep_of_not_charged hc hstep).2.2.trans ht
      · exact (processingStep_of_charged hc hstep).2.2.2.trans ht) hrun rfl
  split_ifs at h with hfix
  · simp only [Option.some.injEq, Prod.mk.injEq] at h
    obtain ⟨rfl, -⟩ := h
    refine ⟨?_, Or.inl hfix⟩
    simp [hsender, hout]
  · rw [Option.bind_eq_some_iff] at h
    obtain ⟨res, hold, hres⟩ := h
    simp only [Option.some.injEq, Prod.mk.injEq] at hres
    obtain ⟨rfl, -⟩ := hres
    exact (oldRefunds_spec hold (by simp [hsender, hout]) (by simp [hout])).imp_right Or.inr

/-- At every height, one contract transaction's refunds are not negative, and its dividends,
none negative, are at most its fee, when its executions pass the stipend checks and use at most
their gas limits. -/
theorem processingResults_amounts {env : ProcessingEnv} {tx : TxAccounting}
    {execs : List (QtumExecTx × ResultExecute)} (hc : tx.contract = some execs)
    (hgas : ∀ e ∈ execs, e.2.gasUsed ≤ e.1.gas) {sumGas : ℕ}
    (hstip : execs.foldlM (fun sumGas e => stipendStep tx.txfee sumGas e.1) 0 = .ok sumGas)
    {bcer : ByteCodeExecResult} {divs : OrdMap Address CAmount}
    (hres : processingResults env execs = some (bcer, divs)) :
    0 ≤ (bcer.refundOutputs.map (·.nValue)).sum ∧ DividendsNonneg divs ∧
      divs.sumBy (fun _ x => x) ≤ tx.txfee := by
  have hfee := (moneyRange_iff _).mp tx.txfee_range
  have hmax := MAX_MONEY_lt
  unfold CAmount at hmax
  have hu := u256OfInt64_of_moneyRange tx.txfee_range
  -- the stipends fit in the fee, the gas charged in the stipends, the dividends in the gas
  have hstipend := stipend_of_ok hstip (Nat.zero_le _) (Nat.zero_le _) (tx.stipend_le execs hc)
  have hcharged := sum_map_charged_le env hgas
  have hdividends := sum_map_dividendOf_le env execs
  have hfee' : ∀ e ∈ execs, e.1.transactionFee = tx.txfee.toNat := fun e he => by
    have := tx.transactionFee_eq execs hc e he
    omega
  have hrefunds : 0 ≤ (bcer.refundOutputs.map (·.nValue)).sum := by
    rcases (processingResults_refundSender hres).2 with hfix | hnn
    · obtain ⟨hrefund, -, -⟩ := processingResults_of_bounded hres
        (tx.execs_ne_nil execs hc) hfix hfee' hgas (by omega) (by unfold INT64_MAX; omega)
      rw [hrefund]
      simp only [List.map_cons, List.map_nil, List.sum_cons, List.sum_nil, add_zero]
      unfold CAmount at *
      omega
    · exact hnn
  simp only [processingResults, Option.bind_eq_bind, Option.bind_eq_some_iff] at hres
  obtain ⟨s, hrun, hres⟩ := hres
  -- both ways of refunding keep the dividends of the loop
  have hdivs : divs = s.dividendByContract := by
    split_ifs at hres
    · simp only [Option.some.injEq, Prod.mk.injEq] at hres
      exact hres.2.symm
    · rw [Option.bind_eq_some_iff] at hres
      obtain ⟨_, -, hres⟩ := hres
      simp only [Option.some.injEq, Prod.mk.injEq] at hres
      exact hres.2.symm
  obtain ⟨-, hsumDiv, hnn, -⟩ := foldlM_processingStep_of_bounded hrun hgas (le_refl _)
    (by show (0 : ℤ) + _ ≤ _; unfold INT64_MAX; omega) (fun _ _ h => by simp at h)
  have hzero : ({} : ProcessingState).dividendByContract.sumBy (fun _ x => x) = 0 := rfl
  subst hdivs
  refine ⟨hrefunds, hnn, ?_⟩
  rw [hsumDiv, hzero]
  unfold CAmount at *
  omega

/-! ## The loop of `ConnectBlock`, at every height -/

@[simp] theorem addValues_checkVouts (acc : BlockAccounting) (tx : TxAccounting) :
    (addValues acc tx).checkVouts = acc.checkVouts := by
  simp only [addValues]
  split_ifs <;> rfl

@[simp] theorem addValues_contractAddresses (acc : BlockAccounting) (tx : TxAccounting) :
    (addValues acc tx).contractAddresses = acc.contractAddresses := by
  simp only [addValues]
  split_ifs <;> rfl

@[simp] theorem addValues_contractOwners (acc : BlockAccounting) (tx : TxAccounting) :
    (addValues acc tx).contractOwners = acc.contractOwners := by
  simp only [addValues]
  split_ifs <;> rfl

/-- `addValues` enters the transaction's output value, and the input value of every
transaction but the coinbase, modulo `2 ^ 64`. -/
theorem addValues_balance (acc : BlockAccounting) (tx : TxAccounting) :
    ((addValues acc tx).nValueOut - (addValues acc tx).nValueIn : ℤ) % 2 ^ 64 =
      ((acc.nValueOut : ℤ) - acc.nValueIn + tx.valueOut -
        if tx.isCoinBase then 0 else tx.valueIn) % 2 ^ 64 := by
  have hout := natCast_toUInt64 tx.valueOut
  have hin := natCast_toUInt64 tx.valueIn
  simp only [addValues]
  split_ifs <;> push_cast <;> omega

/-- Inversion of one iteration of the loop of `ConnectBlock`: the fees passed the range check,
the values were entered, and a contract transaction passed the stipend checks and
`processingResults`, whose results joined the totals. -/
theorem connectTxAccounting_eq_ok {env : ProcessingEnv} {acc acc' : BlockAccounting}
    {tx : TxAccounting} (h : connectTxAccounting env acc tx = .ok acc') :
    ∃ acc₁, acc₁ = addValues
        { acc with nFees := if tx.isCoinBase then acc.nFees else acc.nFees + tx.txfee } tx ∧
      (tx.isCoinBase = false → MoneyRange (acc.nFees + tx.txfee) = true) ∧
      (tx.contract = none ∧ acc' = acc₁ ∨
        ∃ execs sumGas bcer divs, tx.contract = some execs ∧
          execs.foldlM (fun sumGas e => stipendStep tx.txfee sumGas e.1) 0 = .ok sumGas ∧
          processingResults env execs = some (bcer, divs) ∧
          acc' = { acc₁ with
            gasRefunds := acc₁.gasRefunds + (bcer.refundOutputs.map (·.nValue)).sum
            checkVouts := acc₁.checkVouts ++ bcer.refundOutputs
            contractAddresses := acc₁.contractAddresses ++ bcer.contractAddresses
            contractOwners := acc₁.contractOwners ++ bcer.contractOwners
            dividendsPerAddress := mergeDividends acc₁.dividendsPerAddress divs }) := by
  simp only [connectTxAccounting] at h
  generalize hn : (if tx.isCoinBase then acc.nFees else acc.nFees + tx.txfee) = nFees at h
  split_ifs at h with hcheck
  subst hn
  refine ⟨_, rfl, fun hcb => by simpa [hcb] using hcheck, ?_⟩
  cases hc : tx.contract with
  | none =>
    simp only [hc] at h
    exact Or.inl ⟨rfl, (Except.ok.inj h).symm⟩
  | some execs =>
    simp only [hc] at h
    cases hstip : execs.foldlM (fun sumGas e => stipendStep tx.txfee sumGas e.1) 0 with
    | error err => simp [hstip] at h
    | ok sumGas =>
      cases hres : processingResults env execs with
      | none => simp [hstip, hres] at h
      | some r =>
        obtain ⟨bcer, divs⟩ := r
        simp only [hstip, hres] at h
        exact Or.inr ⟨execs, sumGas, bcer, divs, rfl, hstip, hres, (Except.ok.inj h).symm⟩

/-- A contract transaction is not the coinbase. -/
theorem TxAccounting.isCoinBase_of_contract {tx : TxAccounting}
    {execs : List (QtumExecTx × ResultExecute)} (hc : tx.contract = some execs) :
    tx.isCoinBase = false := by
  cases hcb : tx.isCoinBase
  · rfl
  · simp [tx.contract_of_coinBase hcb] at hc

/-- A transaction other than the coinbase enters its outputs, its inputs and its fee, so
`nValueOut - nValueIn + nFees` moves by `valueOut - valueIn + txfee` modulo `2 ^ 64`; the
coinbase enters its outputs. -/
theorem connectTxAccounting_balance {env : ProcessingEnv} {acc acc' : BlockAccounting}
    {tx : TxAccounting} (h : connectTxAccounting env acc tx = .ok acc') :
    ((acc'.nValueOut : ℤ) - acc'.nValueIn + acc'.nFees) % 2 ^ 64 =
      ((acc.nValueOut : ℤ) - acc.nValueIn + acc.nFees + tx.valueOut -
        if tx.isCoinBase then 0 else tx.valueIn - tx.txfee) % 2 ^ 64 := by
  obtain ⟨acc₁, hacc₁, -, hcases⟩ := connectTxAccounting_eq_ok h
  -- the contract results leave the values and the fees as `addValues` left them
  have hsame : acc'.nValueOut = acc₁.nValueOut ∧ acc'.nValueIn = acc₁.nValueIn ∧
      acc'.nFees = acc₁.nFees := by
    rcases hcases with ⟨-, rfl⟩ | ⟨-, -, -, -, -, -, -, rfl⟩ <;> exact ⟨rfl, rfl, rfl⟩
  obtain ⟨hout, hin, hfees⟩ := hsame
  subst hacc₁
  have hbal := addValues_balance
    { acc with nFees := if tx.isCoinBase then acc.nFees else acc.nFees + tx.txfee } tx
  rw [hout, hin, hfees, addValues_nFees]
  cases hcb : tx.isCoinBase <;> simp only [hcb, Bool.false_eq_true, if_true, if_false] at hbal ⊢ <;>
    unfold CAmount at * <;> omega

/-- What the loop of `ConnectBlock` keeps at every height, when the executions use at most their
gas: the fees are in range, the refunds are those of the expected outputs and not negative, and
the dividends, none negative, are at most the fees. -/
structure AmountsInv (acc : BlockAccounting) : Prop where
  nFees_range : MoneyRange acc.nFees = true
  gasRefunds_eq : acc.gasRefunds = (acc.checkVouts.map (·.nValue)).sum
  gasRefunds_nonneg : 0 ≤ acc.gasRefunds
  dividends_nonneg : DividendsNonneg acc.dividendsPerAddress
  dividends_le : acc.dividendsPerAddress.sumBy (fun _ x => x) ≤ acc.nFees

theorem amountsInv_empty : AmountsInv {} :=
  ⟨by decide, rfl, le_refl _, fun _ _ h => by simp at h, by simp⟩

/-- Step lemma: one transaction of the loop keeps `AmountsInv`. -/
theorem connectTxAccounting_amounts {env : ProcessingEnv} {acc acc' : BlockAccounting}
    {tx : TxAccounting} (h : connectTxAccounting env acc tx = .ok acc')
    (hgas : ∀ execs ∈ tx.contract, ∀ e ∈ execs, e.2.gasUsed ≤ e.1.gas)
    (hinv : AmountsInv acc) : AmountsInv acc' := by
  obtain ⟨acc₁, rfl, hrange, hcases⟩ := connectTxAccounting_eq_ok h
  have hfee := (moneyRange_iff _).mp tx.txfee_range
  have hle := hinv.dividends_le
  have hR := hinv.gasRefunds_eq
  have hR₀ := hinv.gasRefunds_nonneg
  -- the fees stay in range and do not decrease
  have hfees : MoneyRange (if tx.isCoinBase then acc.nFees else acc.nFees + tx.txfee) = true ∧
      acc.nFees ≤ (if tx.isCoinBase then acc.nFees else acc.nFees + tx.txfee) := by
    cases hcb : tx.isCoinBase
    · simp only [Bool.false_eq_true, if_false]
      exact ⟨hrange hcb, Int.le_add_of_nonneg_right hfee.1⟩
    · exact ⟨hinv.nFees_range, le_refl _⟩
  obtain ⟨hrange', hmono⟩ := hfees
  rcases hcases with ⟨-, rfl⟩ | ⟨execs, sumGas, bcer, divs, hc, hstip, hres, rfl⟩
  · refine ⟨by simpa using hrange', by simpa using hR, by simpa using hR₀,
      by simpa using hinv.dividends_nonneg, ?_⟩
    simp only [addValues_dividendsPerAddress, addValues_nFees]
    exact hle.trans hmono
  · obtain ⟨hrefund₀, hdivs₀, hdivle⟩ := processingResults_amounts hc (hgas execs hc) hstip hres
    have hcb := TxAccounting.isCoinBase_of_contract hc
    refine ⟨by simpa using hrange', ?_, ?_,
      dividendsNonneg_mergeDividends (by simpa using hinv.dividends_nonneg) hdivs₀, ?_⟩
    · simp [hR]
    · simp only [addValues_gasRefunds]
      exact Int.add_nonneg hR₀ hrefund₀
    · simp only [addValues_dividendsPerAddress, addValues_nFees, sumBy_mergeDividends, hcb,
        Bool.false_eq_true, if_false]
      exact Int.add_le_add hle hdivle

/-- Inversion of `connectBlockAccounting`: the loop succeeded, and the fees cover the refunds. -/
theorem connectBlockAccounting_eq_ok {env : ProcessingEnv} {txs : List TxAccounting}
    {acc : BlockAccounting} (h : connectBlockAccounting env txs = .ok acc) :
    txs.foldlM (connectTxAccounting env) {} = .ok acc ∧ acc.gasRefunds ≤ acc.nFees := by
  unfold connectBlockAccounting at h
  cases hrun : txs.foldlM (connectTxAccounting env) {} with
  | error err => simp [hrun] at h
  | ok acc₀ =>
    simp only [hrun] at h
    split_ifs at h with hcheck
    cases h
    exact ⟨rfl, not_lt.mp hcheck⟩

/-- Run lemma: an accepted loop of `ConnectBlock` keeps `AmountsInv`, and its final check bounds
the refunds by the fees. -/
theorem connectBlockAccounting_amounts {env : ProcessingEnv} {txs : List TxAccounting}
    {acc : BlockAccounting} (h : connectBlockAccounting env txs = .ok acc)
    (hgas : ∀ tx ∈ txs, ∀ execs ∈ tx.contract, ∀ e ∈ execs, e.2.gasUsed ≤ e.1.gas) :
    AmountsInv acc ∧ acc.gasRefunds ≤ acc.nFees := by
  obtain ⟨hrun, hle⟩ := connectBlockAccounting_eq_ok h
  exact ⟨foldlM_except_inv AmountsInv
    (fun _ tx htx _ hstep hinv => connectTxAccounting_amounts hstep (hgas tx htx) hinv)
    hrun amountsInv_empty, hle⟩

/-- A transaction that executes nothing only brings its fee and its values. -/
theorem connectTxAccounting_of_contract_eq_none {env : ProcessingEnv}
    {acc acc' : BlockAccounting} {tx : TxAccounting} (h : connectTxAccounting env acc tx = .ok acc')
    (hc : tx.contract = none) :
    acc' = addValues
      { acc with nFees := if tx.isCoinBase then acc.nFees else acc.nFees + tx.txfee } tx := by
  obtain ⟨acc₁, rfl, -, hcases⟩ := connectTxAccounting_eq_ok h
  rcases hcases with ⟨-, rfl⟩ | ⟨execs, -, -, -, hc', -⟩
  · rfl
  · simp [hc] at hc'

/-! ## What the validator expects of a proof-of-stake block -/

/-- The dividend outputs of the validator's loop add up to what it counts as paid. -/
theorem foldl_dividendsStep_sum (o : Address → Option Address) (l : List (Address × CAmount))
    (sv : Address × List CTxOut × CAmount) :
    ((l.foldl (dividendsStep o) sv).2.1.map (·.nValue)).sum - (l.foldl (dividendsStep o) sv).2.2 =
      (sv.2.1.map (·.nValue)).sum - sv.2.2 := by
  induction l generalizing sv with
  | nil => rfl
  | cons p l ih =>
    rw [List.foldl_cons, ih]
    simp only [dividendsStep]
    split_ifs
    · simp only [List.map_append, List.map_cons, List.map_nil, List.sum_append, List.sum_cons,
        List.sum_nil, add_zero]
      ring
    · rfl

theorem addDividents_sum (o : Address → Option Address) (m : OrdMap Address CAmount) :
    ((addDividents o m).1.map (·.nValue)).sum = (addDividents o m).2 := by
  have h := foldl_dividendsStep_sum o m.entries (0, [], 0)
  simp only [List.map_nil, List.sum_nil, sub_zero, sub_eq_zero] at h
  exact h

/-- Every expected output that the reward transaction carries, as often as it is expected, is
found. The induction is on the expected outputs. -/
theorem matchVouts_of_subperm {vTempVouts vouts : List CTxOut} (h : vouts.Subperm vTempVouts) :
    ∃ rest, matchVouts vTempVouts vouts = some rest := by
  induction vouts generalizing vTempVouts with
  | nil => exact ⟨vTempVouts, rfl⟩
  | cons v vs ih =>
    have hv : v ∈ vTempVouts := h.subset List.mem_cons_self
    have hvs : vs.Subperm (vTempVouts.erase v) := by simpa using h.erase v
    obtain ⟨rest, hrest⟩ := ih hvs
    exact ⟨rest, by rw [matchVouts, if_pos hv, hrest]⟩

/-- `CheckReward` accepts a proof-of-stake block whose reward transaction carries the expected
outputs, whose reward and value balance are the subsidy and the fees after the burn, and whose
reward covers the refunds. -/
theorem CheckReward_eq_ok_of_pos {p : RewardParams} {nFees gasRefunds cod : CAmount}
    {vouts : List CTxOut} {nValueOut nValueIn : ℕ} (hpos : p.isProofOfStake = true)
    (hm : vouts.Subperm p.rewardVout)
    (hreward : p.nActualStakeReward ≤ toInt64 (nFees - coinAmountThatSouldBeBurned nFees gasRefunds
      cod (coinBurnPercentage p.cached_coinBurnPercentage)) + p.subsidy)
    (hvalue : toUInt64 ((nValueOut : ℤ) - nValueIn) = toUInt64 (p.subsidy -
      coinAmountThatSouldBeBurned nFees gasRefunds cod (coinBurnPercentage p.cached_coinBurnPercentage)))
    (hrefunds : gasRefunds ≤ toInt64 (nFees - coinAmountThatSouldBeBurned nFees gasRefunds cod
      (coinBurnPercentage p.cached_coinBurnPercentage)) + p.subsidy) :
    CheckReward p nFees gasRefunds cod vouts nValueOut nValueIn =
      .ok (toInt64 (coinAmountThatSouldBeBurned nFees gasRefunds cod
        (coinBurnPercentage p.cached_coinBurnPercentage))) := by
  obtain ⟨rest, hrest⟩ := matchVouts_of_subperm hm
  simp [CheckReward, hrest, hpos, not_lt.mpr hreward, hvalue, not_lt.mpr hrefunds]

/-! ## The burn -/

theorem tdiv_mul_of_nonneg {x : ℤ} (hx : 0 ≤ x) {pct : ℕ} (hp : pct ≤ 100) :
    0 ≤ x.tdiv 100 * pct ∧ x.tdiv 100 * pct ≤ x := by
  rw [Int.tdiv_eq_ediv_of_nonneg hx]
  have hq : 0 ≤ x / 100 := Int.ediv_nonneg hx (by decide)
  refine ⟨Int.mul_nonneg hq (Int.natCast_nonneg _), ?_⟩
  calc x / 100 * pct ≤ x / 100 * 100 := Int.mul_le_mul_of_nonneg_left (by exact_mod_cast hp) hq
    _ ≤ x := Int.ediv_mul_le x (by decide)

/-- The hundredths of `x`, truncated towards zero, times a percentage lie between `x` and `0`. -/
theorem tdiv_mul_between (x : ℤ) {pct : ℕ} (hp : pct ≤ 100) :
    min x 0 ≤ x.tdiv 100 * pct ∧ x.tdiv 100 * pct ≤ max x 0 := by
  rcases le_total 0 x with hx | hx
  · obtain ⟨h₀, h₁⟩ := tdiv_mul_of_nonneg hx hp
    omega
  · -- truncation is symmetric: the quotient of `x` is minus that of `-x`
    obtain ⟨h₀, h₁⟩ := tdiv_mul_of_nonneg (neg_nonneg.mpr hx) hp
    have hneg : x.tdiv 100 * pct = -((-x).tdiv 100 * pct) := by
      rw [Int.neg_tdiv, neg_mul, neg_neg]
    omega

/-- The value balance `CheckReward` reads: when `nValueOut - nValueIn + nFees` is the stake reward
modulo `2 ^ 64`, and the stake reward is the fees and the subsidy less the burn `q`,
`nValueOut - nValueIn` is the subsidy less the burn modulo `2 ^ 64`. -/
theorem value_balance_emod {O I n A S q : ℤ} {c : ℕ} (hbal : (O - I + n) % 2 ^ 64 = A % 2 ^ 64)
    (hA : A = n - q + S) (hc : (c : ℤ) = q % 2 ^ 64) : (O - I) % 2 ^ 64 = (S - c) % 2 ^ 64 := by
  omega

/-- The burn, with the fees in range and the refunds and the dividends paid each between `0` and
the fees. The burn `q` lies between what remains of the fees and `0`, so every `int64_t` that the
assembler and `CheckReward` compute from it keeps its value, and the reward after the burn covers
the refunds. -/
theorem burn_toInt64 {n R D subsidy q : ℤ} {pct c : ℕ} (hn : MoneyRange n = true)
    (hR : 0 ≤ R ∧ R ≤ n) (hD : 0 ≤ D ∧ D ≤ n) (hsub : MoneyRange subsidy = true)
    (hp : pct ≤ 100) (hq : q = (n - R - D).tdiv 100 * pct) (hc : c = toUInt64 q) :
    toInt64 c = q ∧ toInt64 (n - c) = n - q ∧ toInt64 (n - D - c) = n - D - q ∧
      toInt64 (n + subsidy - R - D - c) = n + subsidy - R - D - q ∧ R ≤ n - q + subsidy := by
  have hmax := MAX_MONEY_lt
  have hn' := (moneyRange_iff _).mp hn
  have hs' := (moneyRange_iff _).mp hsub
  have hb := tdiv_mul_between (n - R - D) hp
  rw [← hq] at hb
  have hc' : (c : ℤ) = q % 2 ^ 64 := by rw [hc, natCast_toUInt64]
  unfold CAmount at hmax
  exact ⟨toInt64_eq_of_emod (by omega) (by omega) (by omega),
    toInt64_eq_of_emod (by omega) (by omega) (by omega),
    toInt64_eq_of_emod (by omega) (by omega) (by omega),
    toInt64_eq_of_emod (by omega) (by omega) (by omega), by omega⟩

/-! ## The assembler -/

namespace BlockAssembler

/-- What `BlockAssembler` adds up over the transactions it puts into a block: `nFees`,
`bceResult`, and `bceResult.dividendByContract`, which the model's `ByteCodeExecResult` leaves
out. -/
structure AssemblerState where
  nFees : CAmount := 0
  bceResult : ByteCodeExecResult := {}
  dividendByContract : OrdMap Address CAmount := ∅

/-- The merge of `exec.dividendByContract` into `bceResult.dividendByContract` in
`AttemptToAddContractToBlock`: `+=` for the contracts already there, then
`std::map::insert(first, last)`, which adds the others and overwrites none. -/
def mergeDividendByContract (dividendByContract execDividends : OrdMap Address CAmount) :
    OrdMap Address CAmount :=
  (execDividends.entries.foldl
    (fun m p => if m.contains p.1 then m.modify p.1 0 (· + p.2) else m)
    dividendByContract).insertMany execDividends.entries

/-- `AddToBlock`, for the amounts: the fee joins `nFees`. -/
def AddToBlock (s : AssemblerState) (tx : TxAccounting) : AssemblerState :=
  { s with nFees := s.nFees + tx.txfee }

/-- `AttemptToAddContractToBlock`, for the amounts: the results of `processingResults` join
`bceResult`, and the fee joins `nFees`. `none` is a failed processing, which leaves the
transaction out of the block. -/
def AttemptToAddContractToBlock (env : ProcessingEnv) (s : AssemblerState) (tx : TxAccounting)
    (execs : List (QtumExecTx × ResultExecute)) : Option AssemblerState := do
  let (testExecResult, execDividends) ← processingResults env execs
  some
    { nFees := s.nFees + tx.txfee
      bceResult := { s.bceResult with
        contractAddresses := s.bceResult.contractAddresses ++ testExecResult.contractAddresses
        contractOwners := s.bceResult.contractOwners ++ testExecResult.contractOwners
        usedGas := (s.bceResult.usedGas + testExecResult.usedGas) % 2 ^ 64
        refundSender := s.bceResult.refundSender + testExecResult.refundSender
        refundOutputs := s.bceResult.refundOutputs ++ testExecResult.refundOutputs
        -- the value transfers go into the block, and are then cleared
        valueTransfers := [] }
      dividendByContract := mergeDividendByContract s.dividendByContract execDividends }

/-- The amounts of one transaction the assembler adds to the block. A transaction that executes
contracts goes through `AttemptToAddContractToBlock`, any other through `AddToBlock`. The
condensing transactions the assembler appends after a contract transaction carry no fee. -/
def addTx (env : ProcessingEnv) (s : AssemblerState) (tx : TxAccounting) :
    Option AssemblerState :=
  match tx.contract with
  | none => some (AddToBlock s tx)
  | some execs => AttemptToAddContractToBlock env s tx execs

/-- The accounting of the transactions the assembler adds to a block, in their order, from
`resetBlock`. -/
def addTxs (env : ProcessingEnv) (txs : List TxAccounting) : Option AssemblerState :=
  txs.foldlM (addTx env) {}

/-- `originalRewardTx` of a proof-of-stake block as `CreateNewBlock` makes it: an empty output,
and the staker's output to `scriptPubKeyIn` with the null value of `CTxOut()`. -/
def coinstakeTemplate (scriptPubKeyIn : CScript) : List CTxOut :=
  [⟨0, []⟩, ⟨-1, scriptPubKeyIn⟩]

/-- `CalculateRewardWithoutDividents`: the staker's output gets the fees and the subsidy, less
the refunds. -/
def CalculateRewardWithoutDividents (subsidy : CAmount) (s : AssemblerState)
    (vout : List CTxOut) : List CTxOut :=
  vout.modify 1 fun o => { o with nValue := s.nFees + subsidy - s.bceResult.refundSender }

/-- `AddRefundTransactions`: the refund outputs are appended. -/
def AddRefundTransactions (s : AssemblerState) (vout : List CTxOut) : List CTxOut :=
  vout ++ s.bceResult.refundOutputs

/-- The loop of `AddDividentsToCoinstakeTransaction` that copies `bceResult.dividendByContract`
into `dividendsPerAddress`: `+=` for a contract already there, `insert` for another. -/
def copyDividends (dividendsPerAddress dividendByContract : OrdMap Address CAmount) :
    OrdMap Address CAmount :=
  dividendByContract.entries.foldl
    (fun m p => if m.contains p.1 then m.modify p.1 0 (· + p.2) else m.insert p.1 p.2)
    dividendsPerAddress

/-- One iteration of the loop of `AddDividentsToCoinstakeTransaction` over
`dividendsPerAddress`, with `contractOwner`, the outputs of `originalRewardTx`, `nFees` and the
dividend outputs. The dividend of a contract with an owner comes out of the staker's output and
out of `nFees`. -/
def addDividentStep (getContractOwner : Address → Option Address)
    (st : Address × List CTxOut × CAmount × List CTxOut) (p : Address × CAmount) :
    Address × List CTxOut × CAmount × List CTxOut :=
  let contractOwner := (getContractOwner p.1).getD st.1
  if contractOwner ≠ 0 then
    (contractOwner, st.2.1.modify 1 (fun o => { o with nValue := o.nValue - p.2 }),
      st.2.2.1 - p.2, st.2.2.2 ++ [⟨p.2, p2pkhScript contractOwner⟩])
  else (contractOwner, st.2)

/-- `AddDividentsToCoinstakeTransaction`: the outputs with the dividend outputs appended, and
`nFees`. -/
def AddDividentsToCoinstakeTransaction (getContractOwner : Address → Option Address)
    (s : AssemblerState) (vout : List CTxOut) (nFees : CAmount) : List CTxOut × CAmount :=
  let dividendsPerAddress := copyDividends ∅ s.dividendByContract
  let r := dividendsPerAddress.entries.foldl (addDividentStep getContractOwner)
    (0, vout, nFees, [])
  (r.2.1 ++ r.2.2.2, r.2.2.1)

/-- `AddTransactionForSavingContractOwners`: the call of the economy contract with the contracts
created and their owners. -/
def AddTransactionForSavingContractOwners (calls : CoinstakeCalls) (s : AssemblerState)
    (vout : List CTxOut) : List CTxOut :=
  vout ++ [⟨0, calls.addContractScript s.bceResult.contractAddresses s.bceResult.contractOwners⟩]

/-- `AddTransactionForFinishingVote`: the call that finishes the vote. -/
def AddTransactionForFinishingVote (scriptPubKey : CScript) (vout : List CTxOut) :
    List CTxOut :=
  vout ++ [⟨0, scriptPubKey⟩]

/-- `BurnMinerFees` of a proof-of-stake block. The burn is an `int64_t` quotient times the
`uint64_t` percentage, and it comes out of the staker's output and out of `nFees` in `uint64_t`
arithmetic. -/
def BurnMinerFees (burnRate : ℕ) (s : AssemblerState) (vout : List CTxOut) (nFees : CAmount) :
    List CTxOut × CAmount :=
  let coinAmountThatSouldBeBurned :=
    toUInt64 ((nFees - s.bceResult.refundSender).tdiv 100 * coinBurnPercentage burnRate)
  (vout.modify 1 fun o => { o with nValue := toInt64 (o.nValue - coinAmountThatSouldBeBurned) },
    toInt64 (nFees - coinAmountThatSouldBeBurned))

/-- The reward assembly of `CreateNewBlock` for a proof-of-stake block, from the accounting of
the transactions added: the outputs of `originalRewardTx` and `nFees` after `BurnMinerFees`.
`none` is the `nullptr` returned when the contracts created and their owners differ in number.
`calls.finishVote` is the vote in progress that expires at this height. -/
def CreateNewBlockReward (subsidy : CAmount) (burnRate : ℕ)
    (getContractOwner : Address → Option Address) (calls : CoinstakeCalls)
    (scriptPubKeyIn : CScript) (s : AssemblerState) : Option (List CTxOut × CAmount) :=
  let vout := AddRefundTransactions s
    (CalculateRewardWithoutDividents subsidy s (coinstakeTemplate scriptPubKeyIn))
  if s.bceResult.contractAddresses.length ≠ s.bceResult.contractOwners.length then none
  else
    let (vout, nFees) := AddDividentsToCoinstakeTransaction getContractOwner s vout s.nFees
    let vout := if s.bceResult.contractAddresses.length ≠ 0 then
      AddTransactionForSavingContractOwners calls s vout else vout
    let vout := calls.finishVote.elim vout fun scriptPubKey =>
      AddTransactionForFinishingVote scriptPubKey vout
    some (BurnMinerFees burnRate s vout nFees)

/-! ### The assembler's dividend maps are the validator's -/

theorem mergeDividendByContract_eq (m d : OrdMap Address CAmount) :
    mergeDividendByContract m d = mergeDividends m d := by
  apply OrdMap.ext_find?
  intro k
  rw [mergeDividendByContract, OrdMap.find?_insertMany,
    OrdMap.find?_foldl_modify_add_of_contains d.sorted, mergeDividends,
    OrdMap.find?_foldl_modify_add d.sorted]
  cases OrdMap.findList k d.entries with
  | none => simp
  | some v =>
    -- a contract new to the map gets its dividend from the insertion, as from `0 +`
    cases h : m.find? k <;> simp [OrdMap.findD, h]

/-- Inserting a contract new to the map is adding its dividend to `0`. -/
theorem copyDividendsStep_eq (m : OrdMap Address CAmount) (k : Address) (v : CAmount) :
    (if m.contains k then m.modify k 0 (· + v) else m.insert k v) = m.modify k 0 (· + v) := by
  split
  · rfl
  · rename_i h
    have hnone : m.find? k = none := by simpa [OrdMap.contains] using h
    simp [OrdMap.modify, hnone]

theorem copyDividends_eq (m : OrdMap Address CAmount) : copyDividends ∅ m = m := by
  have hcopy : copyDividends ∅ m = mergeDividends ∅ m := by
    simp only [copyDividends, mergeDividends, copyDividendsStep_eq]
  rw [hcopy]
  apply OrdMap.ext_find?
  intro k
  rw [mergeDividends, OrdMap.find?_foldl_modify_add m.sorted]
  show _ = OrdMap.findList k m.entries
  cases OrdMap.findList k m.entries <;> simp [OrdMap.findD]

/-! ### The assembler's totals are the validator's -/

/-- The assembler's totals agree with the validator's. -/
structure Agrees (s : AssemblerState) (acc : BlockAccounting) : Prop where
  nFees : s.nFees = acc.nFees
  refundSender : s.bceResult.refundSender = acc.gasRefunds
  refundOutputs : s.bceResult.refundOutputs = acc.checkVouts
  dividendByContract : s.dividendByContract = acc.dividendsPerAddress
  contractAddresses : s.bceResult.contractAddresses = acc.contractAddresses
  contractOwners : s.bceResult.contractOwners = acc.contractOwners

/-- Step lemma: the assembler adds every transaction but the coinbase that the validator's loop
accepts, and adds it as the validator does. -/
theorem addTx_agrees {env : ProcessingEnv} {s : AssemblerState} {acc acc' : BlockAccounting}
    {tx : TxAccounting} (h : connectTxAccounting env acc tx = .ok acc')
    (hcb : tx.isCoinBase = false) (hs : Agrees s acc) :
    ∃ s', addTx env s tx = some s' ∧ Agrees s' acc' := by
  obtain ⟨acc₁, rfl, -, hcases⟩ := connectTxAccounting_eq_ok h
  rcases hcases with ⟨hc, rfl⟩ | ⟨execs, -, bcer, divs, hc, -, hres, rfl⟩
  · refine ⟨AddToBlock s tx, by simp [addTx, hc], ?_⟩
    exact ⟨by simp [AddToBlock, hs.nFees, hcb], by simpa [AddToBlock] using hs.refundSender,
      by simpa [AddToBlock] using hs.refundOutputs,
      by simpa [AddToBlock] using hs.dividendByContract,
      by simpa [AddToBlock] using hs.contractAddresses,
      by simpa [AddToBlock] using hs.contractOwners⟩
  · refine ⟨_, by simp only [addTx, hc, AttemptToAddContractToBlock, hres, Option.bind_eq_bind,
      Option.bind_some]; rfl, ?_⟩
    exact ⟨by simp [hs.nFees, hcb],
      by simp [hs.refundSender, (processingResults_refundSender hres).1],
      by simp [hs.refundOutputs], by simp [mergeDividendByContract_eq, hs.dividendByContract],
      by simp [hs.contractAddresses], by simp [hs.contractOwners]⟩

/-- Run lemma: over transactions none of which is the coinbase, the assembler simulates the loop
of `ConnectBlock`. -/
theorem addTxs_agrees {env : ProcessingEnv} {s : AssemblerState} {acc₀ acc : BlockAccounting}
    {txs : List TxAccounting} (hrun : txs.foldlM (connectTxAccounting env) acc₀ = .ok acc)
    (hcb : ∀ tx ∈ txs, tx.isCoinBase = false) (hs : Agrees s acc₀) :
    ∃ s', txs.foldlM (addTx env) s = some s' ∧ Agrees s' acc :=
  foldlM_except_sim (g := addTx env) (fun acc s => Agrees s acc)
    (fun _ _ tx htx _ hstep hst => addTx_agrees hstep (hcb tx htx) hst) hrun hs

/-! ### The reward assembly -/

/-- The loop of `AddDividentsToCoinstakeTransaction` pays what the validator's loop over the
same map pays: the same owners and dividend outputs, taken out of the staker's output and out of
`nFees`. -/
theorem foldl_addDividentStep (o : Address → Option Address) (l : List (Address × CAmount))
    (a : CTxOut) (v : CAmount) (spk : CScript) (rest : List CTxOut) (n : CAmount) :
    l.foldl (addDividentStep o) (0, a :: ⟨v, spk⟩ :: rest, n, []) =
      ((l.foldl (dividendsStep o) (0, [], 0)).1,
        a :: ⟨v - (l.foldl (dividendsStep o) (0, [], 0)).2.2, spk⟩ :: rest,
        n - (l.foldl (dividendsStep o) (0, [], 0)).2.2, (l.foldl (dividendsStep o) (0, [], 0)).2.1) := by
  -- the loops keep the same owner and outputs, with what was paid taken out on the assembler's side
  have hstep : ∀ st sv, ∀ p ∈ l,
      st = (sv.1, a :: ⟨v - sv.2.2, spk⟩ :: rest, n - sv.2.2, sv.2.1) →
      addDividentStep o st p = ((dividendsStep o sv p).1,
        a :: ⟨v - (dividendsStep o sv p).2.2, spk⟩ :: rest, n - (dividendsStep o sv p).2.2,
        (dividendsStep o sv p).2.1) := by
    rintro st ⟨owner, outs, c⟩ p - rfl
    simp only [addDividentStep, dividendsStep]
    split_ifs <;> simp [sub_sub]
  exact foldl_rel (fun (st : Address × List CTxOut × CAmount × List CTxOut)
      (sv : Address × List CTxOut × CAmount) =>
        st = (sv.1, a :: ⟨v - sv.2.2, spk⟩ :: rest, n - sv.2.2, sv.2.1)) hstep (by simp)

theorem AddDividentsToCoinstakeTransaction_eq (o : Address → Option Address) (s : AssemblerState)
    (a : CTxOut) (v : CAmount) (spk : CScript) (rest : List CTxOut) (n : CAmount) :
    AddDividentsToCoinstakeTransaction o s (a :: ⟨v, spk⟩ :: rest) n =
      (a :: ⟨v - (addDividents o s.dividendByContract).2, spk⟩ ::
        (rest ++ (addDividents o s.dividendByContract).1), n - (addDividents o s.dividendByContract).2) := by
  simp only [AddDividentsToCoinstakeTransaction, copyDividends_eq, foldl_addDividentStep,
    addDividents, List.cons_append]

theorem BurnMinerFees_eq (burnRate : ℕ) (s : AssemblerState) (a : CTxOut) (v : CAmount)
    (spk : CScript) (rest : List CTxOut) (n : CAmount) :
    BurnMinerFees burnRate s (a :: ⟨v, spk⟩ :: rest) n =
      (a :: ⟨toInt64 (v - toUInt64 ((n - s.bceResult.refundSender).tdiv 100 *
          coinBurnPercentage burnRate)), spk⟩ :: rest,
        toInt64 (n - toUInt64 ((n - s.bceResult.refundSender).tdiv 100 *
          coinBurnPercentage burnRate))) := by
  simp [BurnMinerFees]

/-- The system contract calls are appended after the other outputs. -/
theorem contractCalls_append (calls : CoinstakeCalls) (s : AssemblerState) (vout : List CTxOut) :
    (calls.finishVote.elim
        (if s.bceResult.contractAddresses.length ≠ 0 then
          AddTransactionForSavingContractOwners calls s vout else vout)
        fun scriptPubKey => AddTransactionForFinishingVote scriptPubKey
          (if s.bceResult.contractAddresses.length ≠ 0 then
            AddTransactionForSavingContractOwners calls s vout else vout)) =
      vout ++ (if s.bceResult.contractAddresses.length ≠ 0 then
          [⟨0, calls.addContractScript s.bceResult.contractAddresses s.bceResult.contractOwners⟩]
        else []) ++ (calls.finishVote.map fun script => [⟨0, script⟩]).getD [] := by
  cases calls.finishVote <;> split_ifs <;>
    simp [AddTransactionForSavingContractOwners, AddTransactionForFinishingVote]

/-- The reward assembly, unfolded. After the empty output and the staker's output come the refund
outputs, the dividend outputs of the validator's loop over the same map, and the system contract
calls. The staker's output and `nFees` have lost the dividends paid and the burn `c`. -/
theorem CreateNewBlockReward_eq {subsidy : CAmount} {burnRate : ℕ}
    {o : Address → Option Address} {calls : CoinstakeCalls} {scriptPubKeyIn : CScript}
    {s : AssemblerState} {vout : List CTxOut} {nFees : CAmount}
    (h : CreateNewBlockReward subsidy burnRate o calls scriptPubKeyIn s = some (vout, nFees)) :
    ∃ c : ℕ, c = toUInt64 ((s.nFees - (addDividents o s.dividendByContract).2 -
        s.bceResult.refundSender).tdiv 100 * coinBurnPercentage burnRate) ∧
      vout = ⟨0, []⟩ :: ⟨toInt64 (s.nFees + subsidy - s.bceResult.refundSender -
          (addDividents o s.dividendByContract).2 - c), scriptPubKeyIn⟩ :: vout.drop 2 ∧
      vout.drop 2 = s.bceResult.refundOutputs ++ (addDividents o s.dividendByContract).1 ++
          (if s.bceResult.contractAddresses.length ≠ 0 then
            [⟨0, calls.addContractScript s.bceResult.contractAddresses s.bceResult.contractOwners⟩]
          else []) ++ (calls.finishVote.map fun script => [⟨0, script⟩]).getD [] ∧
      nFees = toInt64 (s.nFees - (addDividents o s.dividendByContract).2 - c) := by
  simp only [CreateNewBlockReward] at h
  by_cases hlen : s.bceResult.contractAddresses.length ≠ s.bceResult.contractOwners.length
  · rw [if_pos hlen] at h
    cases h
  rw [if_neg hlen] at h
  have hvout : AddRefundTransactions s (CalculateRewardWithoutDividents subsidy s
      (coinstakeTemplate scriptPubKeyIn)) =
        ⟨0, []⟩ :: ⟨s.nFees + subsidy - s.bceResult.refundSender, scriptPubKeyIn⟩ ::
          s.bceResult.refundOutputs := rfl
  rw [hvout, AddDividentsToCoinstakeTransaction_eq] at h
  simp only [contractCalls_append, List.cons_append, BurnMinerFees_eq, Option.some.injEq,
    Prod.mk.injEq] at h
  obtain ⟨rfl, rfl⟩ := h
  exact ⟨_, rfl, rfl, rfl, rfl⟩

end BlockAssembler

/-! ## The validator accepts the staker's coinstake -/

/-- `ConnectBlockReward` of a proof-of-stake block whose loop and `CheckReward` accept it. -/
theorem ConnectBlockReward_eq_ok_of_pos {env : ProcessingEnv} {p : RewardParams}
    {calls : CoinstakeCalls} {o : Address → Option Address} {prevMoneySupply : ℕ}
    {txs : List TxAccounting} {acc : BlockAccounting} {burned : CAmount}
    (hpos : p.isProofOfStake = true) (hacc : connectBlockAccounting env txs = .ok acc)
    (hcheck : CheckReward p acc.nFees acc.gasRefunds (addDividents o acc.dividendsPerAddress).2
      (checkVouts p calls acc (addDividents o acc.dividendsPerAddress).1) acc.nValueOut
      acc.nValueIn = .ok burned) :
    ConnectBlockReward env p calls o prevMoneySupply txs =
      .ok ⟨acc, (addDividents o acc.dividendsPerAddress).2, burned,
        toUInt64 ((prevMoneySupply : ℤ) + acc.nValueOut - acc.nValueIn)⟩ := by
  simp only [ConnectBlockReward, hacc, hpos, if_true]
  generalize addDividents o acc.dividendsPerAddress = d at hcheck ⊢
  obtain ⟨dividends, cod⟩ := d
  simp only [hcheck]

/-- The loop of `ConnectBlock` over a proof-of-stake block. The empty coinbase and the coinstake
execute nothing and bring no fee, so after them the totals are the assembler's at `resetBlock`.
When every other transaction pays its fee, the value balance of the block is the coinstake's less
the fees, modulo `2 ^ 64`. -/
theorem connectBlockAccounting_coinstake {env : ProcessingEnv} {cb cs : TxAccounting}
    {txs : List TxAccounting} {acc : BlockAccounting}
    (hrun : (cb :: cs :: txs).foldlM (connectTxAccounting env) {} = .ok acc)
    (hcb : cb.isCoinBase = true ∧ cb.valueOut = 0)
    (hcs : cs.isCoinBase = false ∧ cs.contract = none ∧ cs.txfee = 0)
    (htxs : ∀ tx ∈ txs, tx.isCoinBase = false ∧ tx.valueIn - tx.valueOut = tx.txfee) :
    (∃ acc₂, txs.foldlM (connectTxAccounting env) acc₂ = .ok acc ∧
        BlockAssembler.Agrees {} acc₂) ∧
      ((acc.nValueOut : ℤ) - acc.nValueIn + acc.nFees) % 2 ^ 64 =
        (cs.valueOut - cs.valueIn) % 2 ^ 64 := by
  obtain ⟨acc₁, h₁, hrun⟩ := foldlM_except_cons_eq_ok.mp hrun
  obtain ⟨acc₂, h₂, hrest⟩ := foldlM_except_cons_eq_ok.mp hrun
  have hbal₁ := connectTxAccounting_balance h₁
  have hbal₂ := connectTxAccounting_balance h₂
  have hacc₁ := connectTxAccounting_of_contract_eq_none h₁ (cb.contract_of_coinBase hcb.1)
  have hacc₂ := connectTxAccounting_of_contract_eq_none h₂ hcs.2.1
  refine ⟨⟨acc₂, hrest, ?_⟩, ?_⟩
  · subst hacc₁ hacc₂
    exact ⟨by simp [hcb.1, hcs.1, hcs.2.2], by simp, by simp, by simp, by simp, by simp⟩
  · -- a transaction that pays its fee leaves the balance as it is
    refine foldlM_except_inv (fun a : BlockAccounting =>
      ((a.nValueOut : ℤ) - a.nValueIn + a.nFees) % 2 ^ 64 = (cs.valueOut - cs.valueIn) % 2 ^ 64)
      (fun a tx htx a' hstep ha => ?_) hrest ?_
    · have hpays := (htxs tx htx).2
      rw [connectTxAccounting_balance hstep, (htxs tx htx).1, if_neg Bool.false_ne_true]
      unfold CAmount at *
      omega
    · simp only [hcb.1, hcb.2, hcs.1, hcs.2.2, if_true, Bool.false_eq_true, if_false] at hbal₁ hbal₂
      have hzero : (({} : BlockAccounting).nValueOut : ℤ) - ({} : BlockAccounting).nValueIn +
          ({} : BlockAccounting).nFees = 0 := rfl
      rw [hzero] at hbal₁
      unfold CAmount at *
      omega

/-- Blocks the staker assembles pass the validator's reward check. Let the loop of
`ConnectBlock` accept a proof-of-stake block: the empty coinbase, the coinstake, then transactions
that pay their fees and whose executions use at most their gas. Let the assembler have added the
same transactions, and let the wallet's coinstake pay the staker `nFees - refundSender` and the
subsidy and carry the outputs of `originalRewardTx` after the staker's. Then `ConnectBlock`
accepts the block: the outputs after the staker's are exactly those it expects, the reward of
`originalRewardTx` and of the coinstake is `nFees + subsidy - burnedCoins`, and the assembler's
`nFees` has lost the dividends paid and the burn of `CheckReward`. -/
theorem CreateNewBlock_CheckReward {env : ProcessingEnv} {p : RewardParams}
    {calls : CoinstakeCalls} {getContractOwner : Address → Option Address} {prevMoneySupply : ℕ}
    {cb cs : TxAccounting} {txs : List TxAccounting} {acc : BlockAccounting}
    {s : BlockAssembler.AssemblerState} {scriptPubKeyIn : CScript} {vout : List CTxOut}
    {nFees : CAmount}
    (hacc : connectBlockAccounting env (cb :: cs :: txs) = .ok acc)
    (hgas : ∀ tx ∈ txs, ∀ execs ∈ tx.contract, ∀ e ∈ execs, e.2.gasUsed ≤ e.1.gas)
    (hasm : BlockAssembler.addTxs env txs = some s)
    (hreward : BlockAssembler.CreateNewBlockReward p.subsidy p.cached_coinBurnPercentage
      getContractOwner calls scriptPubKeyIn s = some (vout, nFees))
    (hpos : p.isProofOfStake = true) (hsubsidy : MoneyRange p.subsidy = true)
    (hcb : cb.isCoinBase = true ∧ cb.valueOut = 0)
    (hcs : cs.isCoinBase = false ∧ cs.contract = none ∧ cs.txfee = 0 ∧
      cs.valueOut - cs.valueIn = p.nActualStakeReward)
    (htxs : ∀ tx ∈ txs, tx.isCoinBase = false ∧ tx.valueIn - tx.valueOut = tx.txfee)
    (hstake : p.nActualStakeReward =
      nFees - s.bceResult.refundSender + p.subsidy + ((vout.drop 2).map (·.nValue)).sum)
    (hout : (vout.drop 2).Subperm p.rewardVout) :
    ∃ r, ConnectBlockReward env p calls getContractOwner prevMoneySupply (cb :: cs :: txs) =
        .ok r ∧
      vout.drop 2 = checkVouts p calls r.accounting
        (addDividents getContractOwner r.accounting.dividendsPerAddress).1 ∧
      r.burnedCoins = toInt64 (coinAmountThatSouldBeBurned r.accounting.nFees
        r.accounting.gasRefunds r.contractOwnersDividents
        (coinBurnPercentage p.cached_coinBurnPercentage)) ∧
      (vout.map (·.nValue)).sum = r.accounting.nFees + p.subsidy - r.burnedCoins ∧
      p.nActualStakeReward = r.accounting.nFees + p.subsidy - r.burnedCoins ∧
      nFees = r.accounting.nFees - r.contractOwnersDividents - r.burnedCoins := by
  obtain ⟨hrun, hRle⟩ := connectBlockAccounting_eq_ok hacc
  obtain ⟨⟨acc₂, hrest, hagree₂⟩, hbal⟩ :=
    connectBlockAccounting_coinstake hrun hcb ⟨hcs.1, hcs.2.1, hcs.2.2.1⟩ htxs
  -- the assembler added the same transactions, with the same totals
  obtain ⟨s', hs', hagree⟩ :=
    BlockAssembler.addTxs_agrees hrest (fun tx htx => (htxs tx htx).1) hagree₂
  obtain rfl : s' = s := Option.some.inj (hs'.symm.trans hasm)
  -- the bounds of the validator's loop; the coinbase and the coinstake execute nothing
  have hgas' : ∀ tx ∈ cb :: cs :: txs, ∀ execs ∈ tx.contract, ∀ e ∈ execs,
      e.2.gasUsed ≤ e.1.gas := by
    intro tx htx execs hexecs
    rcases List.mem_cons.mp htx with rfl | htx
    · simp [tx.contract_of_coinBase hcb.1] at hexecs
    rcases List.mem_cons.mp htx with rfl | htx
    · simp [hcs.2.1] at hexecs
    exact hgas tx htx execs hexecs
  have hinv := (connectBlockAccounting_amounts hacc hgas').1
  -- the assembly, in the validator's terms
  obtain ⟨c, hc, hvout, htail, rfl⟩ := BlockAssembler.CreateNewBlockReward_eq hreward
  obtain ⟨hn, hR, hvouts, hdivs, haddrs, howners⟩ := hagree
  simp only [hn, hR, hvouts, hdivs, haddrs, howners] at hc hvout htail hstake ⊢
  have hD := addDividents_bounds getContractOwner hinv.dividends_nonneg
  have hDsum := addDividents_sum getContractOwner acc.dividendsPerAddress
  -- the assembler burns what `CheckReward` computes
  have hcv : coinAmountThatSouldBeBurned acc.nFees acc.gasRefunds
      (addDividents getContractOwner acc.dividendsPerAddress).2
      (coinBurnPercentage p.cached_coinBurnPercentage) = c := by
    rw [hc, sub_right_comm]
    rfl
  obtain ⟨q, hq⟩ : ∃ q, q = (acc.nFees - acc.gasRefunds -
      (addDividents getContractOwner acc.dividendsPerAddress).2).tdiv 100 *
        coinBurnPercentage p.cached_coinBurnPercentage := ⟨_, rfl⟩
  have hcq : (c : ℤ) = q % 2 ^ 64 := by
    rw [← hcv, hq]
    exact natCast_toUInt64 _
  obtain ⟨hburned, hafter, hminer, hstaker, hcover⟩ := burn_toInt64 hinv.nFees_range
    ⟨hinv.gasRefunds_nonneg, hRle⟩ ⟨hD.1, hD.2.trans hinv.dividends_le⟩ hsubsidy
    (coinBurnPercentage_le p.cached_coinBurnPercentage) hq (c := c) (by rw [← hcv, hq]; rfl)
  -- the outputs after the staker's are the refunds, the dividends, and calls of no value
  have htail' : vout.drop 2 =
      checkVouts p calls acc (addDividents getContractOwner acc.dividendsPerAddress).1 := by
    rw [htail]
    simp [checkVouts, hpos]
  have htailSum : ((vout.drop 2).map (·.nValue)).sum =
      acc.gasRefunds + (addDividents getContractOwner acc.dividendsPerAddress).2 := by
    simp only [htail', checkVouts, hpos, if_true, List.map_append, List.sum_append, hDsum,
      ← hinv.gasRefunds_eq]
    split_ifs <;> cases calls.finishVote <;> simp
  have hsum : (vout.map (·.nValue)).sum = toInt64 (acc.nFees + p.subsidy - acc.gasRefunds -
      (addDividents getContractOwner acc.dividendsPerAddress).2 - c) +
        ((vout.drop 2).map (·.nValue)).sum := by
    conv_lhs => rw [hvout]
    simp
  -- the coinstake's reward: the fees and the subsidy less the burn
  have hA : p.nActualStakeReward = acc.nFees - q + p.subsidy := by
    rw [hstake, hminer, htailSum]
    ring
  have hcheck : CheckReward p acc.nFees acc.gasRefunds
      (addDividents getContractOwner acc.dividendsPerAddress).2
      (checkVouts p calls acc (addDividents getContractOwner acc.dividendsPerAddress).1)
      acc.nValueOut acc.nValueIn = .ok (toInt64 c) := by
    rw [← hcv]
    refine CheckReward_eq_ok_of_pos hpos (htail' ▸ hout) ?_ ?_ ?_
    · rw [hcv, hafter, hA]
    · rw [hcv]
      exact congrArg Int.toNat (value_balance_emod (hcs.2.2.2 ▸ hbal) hA hcq)
    · rw [hcv, hafter]
      exact hcover
  refine ⟨_, ConnectBlockReward_eq_ok_of_pos hpos hacc hcheck, htail', ?_, ?_, ?_, ?_⟩ <;>
    dsimp only
  · rw [hcv]
  · rw [hsum, hstaker, htailSum, hburned]
    ring
  · rw [hA, hburned]
    ring
  · rw [hminer, hburned]

/-- `twoCallBlock` after `nRefundFixHeight` as the staker assembles it, with contract `7` owned
by `9`, a subsidy of `100000` and a burn rate of `10`. The staker's output of `originalRewardTx`
gets `1200000 + 100000 - 400000`, less the dividends of `200000` and the burn of `60000`; the
wallet adds the stake of `1000000` to it. -/
theorem CreateNewBlock_CheckReward_twoCallBlock :
    ∃ r, ConnectBlockReward ⟨1160400, 0, 1160400, 50⟩
        ⟨true, 100000, 10, 1240000, [⟨0, []⟩, ⟨1640000, p2pkhScript 3⟩, ⟨400000, p2pkhScript 5⟩,
          ⟨200000, p2pkhScript 9⟩]⟩
        ⟨fun _ _ => [], none⟩ (fun a => if a = 7 then some 9 else none) 1000000
        (twoCallBlock 2240000) = .ok r ∧
      ([⟨0, []⟩, ⟨640000, p2pkhScript 3⟩, ⟨400000, p2pkhScript 5⟩, ⟨200000, p2pkhScript 9⟩] :
          List CTxOut).drop 2 =
        checkVouts ⟨true, 100000, 10, 1240000, [⟨0, []⟩, ⟨1640000, p2pkhScript 3⟩,
            ⟨400000, p2pkhScript 5⟩, ⟨200000, p2pkhScript 9⟩]⟩ ⟨fun _ _ => [], none⟩ r.accounting
          (addDividents (fun a => if a = 7 then some 9 else none)
            r.accounting.dividendsPerAddress).1 ∧
      r.burnedCoins = toInt64 (coinAmountThatSouldBeBurned r.accounting.nFees
        r.accounting.gasRefunds r.contractOwnersDividents (coinBurnPercentage 10)) ∧
      (([⟨0, []⟩, ⟨640000, p2pkhScript 3⟩, ⟨400000, p2pkhScript 5⟩, ⟨200000, p2pkhScript 9⟩] :
          List CTxOut).map (·.nValue)).sum = r.accounting.nFees + 100000 - r.burnedCoins ∧
      (1240000 : CAmount) = r.accounting.nFees + 100000 - r.burnedCoins ∧
      (940000 : CAmount) = r.accounting.nFees - r.contractOwnersDividents - r.burnedCoins :=
  @CreateNewBlock_CheckReward _ _ _ _ _ _ _ _ _ _ (p2pkhScript 3) _ _ rfl (by decide) rfl rfl rfl
    (by decide) ⟨rfl, rfl⟩ ⟨rfl, rfl, rfl, by decide⟩ (by decide) (by decide) (by decide)

end HydraNode
