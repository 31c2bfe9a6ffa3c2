import HydraNode.Contract.Block
import HydraNode.Lib.Loop

/-!
# Refunds and dividends are paid out of the fees

A contract transaction pays its fee up front, and the execution hands back what the gas did not
use: from `nRefundFixHeight` on, one refund of the fee less the gas charged. The contracts it
calls earn at most half of that gas as dividends. So a transaction's refund and dividends are at
most its fee (`refunds_add_dividends_le`), and over a block the refunds and the dividends are at
most `nFees`: `AccountingInv` is that bound, kept by every transaction of the loop of
`ConnectBlock` (`connectTxAccounting_inv`) and so by the whole loop
(`connectBlockAccounting_inv`). What remains of the fees is then not negative, the burn of
`CheckReward` is a share of it, and the money supply of an accepted proof-of-stake block grows
by the subsidy less the burn (`ConnectBlockReward_of_bounded`).

`processingResults` reads the height `chainActive.Height()`, which while a block is connected is
the height of its parent. `CheckTransaction` stops limiting a transaction to one contract output
at the block's own height. At the block of height `nRefundFixHeight`, a transaction may thus have
two contract outputs and still be refunded the old way, once per execution, each time the whole
fee less that execution's gas. `ConnectBlockReward_at_refundFixHeight` is such a block: its
refunds and dividends exceed its fees, the burn is negative, and the money supply grows by more
than the subsidy.

The EVM is not part of the repository: that an execution uses at most its gas limit is assumed.

## Main definitions

* `AccountingInv` — the refunds and dividends are covered by the fees

## Main results

* `refunds_add_dividends_le` — one contract transaction
* `connectTxAccounting_inv`, `connectBlockAccounting_inv` — the loop of `ConnectBlock`
* `ConnectBlockReward_of_bounded` — from the block after `nRefundFixHeight` on
* `ConnectBlockReward_at_refundFixHeight` — at the block of height `nRefundFixHeight`
-/

namespace HydraNode

open ByteCodeExec

/-! ## Amounts -/

@[simp] theorem moneyRange_iff (x : ℤ) : MoneyRange x = true ↔ 0 ≤ x ∧ x ≤ MAX_MONEY := by
  simp [MoneyRange]

theorem MAX_MONEY_lt : MAX_MONEY < 2 ^ 62 := by decide

theorem u256OfInt64_of_moneyRange {x : ℤ} (h : MoneyRange x = true) : (u256OfInt64 x : ℤ) = x := by
  have hx := (moneyRange_iff x).mp h
  have := MAX_MONEY_lt
  unfold CAmount at this
  unfold u256OfInt64
  rw [Int.emod_eq_of_lt hx.1 (by omega), Int.toNat_of_nonneg hx.1]

/-! ## The gas stipend -/

/-- A stipend check that passes adds the stipend without wrapping, and keeps the sum within
`INT64_MAX` and the fee. -/
theorem stipendStep_of_ok {f : CAmount} {s r : ℕ} {q : QtumExecTx}
    (h : stipendStep f s q = .ok r) (hs : s ≤ INT64_MAX) (hq : q.gas * q.gasPrice ≤ INT64_MAX) :
    r = s + q.gas * q.gasPrice ∧ r ≤ INT64_MAX ∧ r ≤ u256OfInt64 f := by
  have hlt : s + q.gas * q.gasPrice < 2 ^ 256 := by unfold INT64_MAX at hs hq; omega
  simp only [stipendStep, Nat.mod_eq_of_lt hlt] at h
  split_ifs at h with h₁ h₂ h₃
  cases h
  exact ⟨rfl, Nat.le_of_not_lt h₁, Nat.le_of_not_lt h₂⟩

/-- The stipend checks that pass bound the stipends of the executions by the fee. The induction
is on the executions, with the sum so far below `INT64_MAX` and the fee. -/
theorem stipend_of_ok {f : CAmount} {execs : List (QtumExecTx × ResultExecute)} {s r : ℕ}
    (h : execs.foldlM (fun sumGas e => stipendStep f sumGas e.1) s = .ok r)
    (hs : s ≤ INT64_MAX) (hsf : s ≤ u256OfInt64 f)
    (hq : ∀ e ∈ execs, e.1.gas * e.1.gasPrice ≤ INT64_MAX) :
    s + (execs.map fun e => e.1.gas * e.1.gasPrice).sum ≤ u256OfInt64 f := by
  induction execs generalizing s with
  | nil => simpa using hsf
  | cons e es ih =>
    obtain ⟨s', h₁, h₂⟩ := foldlM_except_cons_eq_ok.mp h
    obtain ⟨rfl, hle, hlef⟩ := stipendStep_of_ok h₁ hs (hq e List.mem_cons_self)
    have := ih h₂ hle hlef fun e' he => hq e' (List.mem_cons_of_mem e he)
    simp only [List.map_cons, List.sum_cons]
    omega

/-! ## Dividends -/

theorem dividendsNonneg_entries {m : OrdMap Address CAmount} (h : DividendsNonneg m) :
    ∀ p ∈ m.entries, 0 ≤ p.2 :=
  fun p hp => h p.1 p.2 (m.find?_of_mem_entries hp)

theorem sumBy_foldl_modify (l : List (Address × CAmount)) (m : OrdMap Address CAmount) :
    (l.foldl (fun m p => m.modify p.1 0 (· + p.2)) m).sumBy (fun _ x => x) =
      m.sumBy (fun _ x => x) + (l.map (·.2)).sum := by
  induction l generalizing m with
  | nil => simp
  | cons p l ih =>
    rw [List.foldl_cons, ih, OrdMap.sumBy_modify_add, List.map_cons, List.sum_cons, add_assoc]

theorem sumBy_mergeDividends (m divs : OrdMap Address CAmount) :
    (mergeDividends m divs).sumBy (fun _ x => x) =
      m.sumBy (fun _ x => x) + divs.sumBy (fun _ x => x) :=
  sumBy_foldl_modify divs.entries m

theorem dividendsNonneg_foldl_modify {l : List (Address × CAmount)} {m : OrdMap Address CAmount}
    (hm : DividendsNonneg m) (hl : ∀ p ∈ l, 0 ≤ p.2) :
    DividendsNonneg (l.foldl (fun m p => m.modify p.1 0 (· + p.2)) m) := by
  induction l generalizing m with
  | nil => exact hm
  | cons p l ih =>
    exact ih (dividendsNonneg_modify hm p.1 (hl p List.mem_cons_self))
      fun q hq => hl q (List.mem_cons_of_mem p hq)

theorem dividendsNonneg_mergeDividends {m divs : OrdMap Address CAmount}
    (hm : DividendsNonneg m) (hd : DividendsNonneg divs) : DividendsNonneg (mergeDividends m divs) :=
  dividendsNonneg_foldl_modify hm (dividendsNonneg_entries hd)

/-- A step of the dividend payments pays the contract's dividend or nothing. -/
theorem dividendsStep_bounds (o : Address → Option Address) (s : Address × List CTxOut × CAmount)
    {p : Address × CAmount} (hp : 0 ≤ p.2) :
    s.2.2 ≤ (dividendsStep o s p).2.2 ∧ (dividendsStep o s p).2.2 ≤ s.2.2 + p.2 := by
  simp only [dividendsStep]
  split_ifs
  · exact ⟨Int.le_add_of_nonneg_right hp, le_refl _⟩
  · exact ⟨le_refl _, Int.le_add_of_nonneg_right hp⟩

theorem foldl_dividendsStep_bounds (o : Address → Option Address) (l : List (Address × CAmount))
    (s : Address × List CTxOut × CAmount) (hl : ∀ p ∈ l, 0 ≤ p.2) :
    s.2.2 ≤ (l.foldl (dividendsStep o) s).2.2 ∧
      (l.foldl (dividendsStep o) s).2.2 ≤ s.2.2 + (l.map (·.2)).sum := by
  induction l generalizing s with
  | nil => simp
  | cons p l ih =>
    rw [List.foldl_cons, List.map_cons, List.sum_cons]
    have h₁ := dividendsStep_bounds o s (hl p List.mem_cons_self)
    have h₂ := ih (dividendsStep o s p) fun q hq => hl q (List.mem_cons_of_mem p hq)
    unfold CAmount at *
    omega

/-- The dividends paid to owners are between nothing and all the dividends. -/
theorem addDividents_bounds (o : Address → Option Address) {m : OrdMap Address CAmount}
    (hm : DividendsNonneg m) :
    0 ≤ (addDividents o m).2 ∧ (addDividents o m).2 ≤ m.sumBy (fun _ x => x) := by
  have := foldl_dividendsStep_bounds o m.entries (0, [], 0) (dividendsNonneg_entries hm)
  simpa [addDividents, OrdMap.sumBy] using this

/-! ## The burn -/

theorem coinBurnPercentage_le (cached : ℕ) : coinBurnPercentage cached ≤ 100 := by
  unfold coinBurnPercentage MAX_BURN_RATE_PERCENTAGE DEFAULT_BURN_RATE_PERCENTAGE
  split_ifs <;> omega

/-- With what remains of the fees not negative and below `2 ^ 63`, the burn is that amount's
hundredths times the percentage, computed without wrapping. -/
theorem coinAmountThatSouldBeBurned_eq {nFees gasRefunds cod : ℤ} {pct : ℕ}
    (h₀ : 0 ≤ nFees - gasRefunds - cod) (h : nFees - gasRefunds - cod < 2 ^ 63) (hp : pct ≤ 100) :
    (coinAmountThatSouldBeBurned nFees gasRefunds cod pct : ℤ) =
      (nFees - gasRefunds - cod) / 100 * pct := by
  unfold coinAmountThatSouldBeBurned toUInt64
  rw [Int.tdiv_eq_ediv_of_nonneg h₀]
  have hq : 0 ≤ (nFees - gasRefunds - cod) / 100 := Int.ediv_nonneg h₀ (by decide)
  have h₁ : (nFees - gasRefunds - cod) / 100 * pct ≤ (nFees - gasRefunds - cod) / 100 * 100 :=
    Int.mul_le_mul_of_nonneg_left (by exact_mod_cast hp) hq
  have h₂ := Int.ediv_mul_le (nFees - gasRefunds - cod) (b := 100) (by decide)
  have h₃ : 0 ≤ (nFees - gasRefunds - cod) / 100 * pct := Int.mul_nonneg hq (Int.natCast_nonneg _)
  rw [Int.emod_eq_of_lt h₃ (by omega), Int.toNat_of_nonneg h₃]

/-- The burn is a share of what remains of the fees. -/
theorem coinAmountThatSouldBeBurned_le {nFees gasRefunds cod : ℤ} {pct : ℕ}
    (h₀ : 0 ≤ nFees - gasRefunds - cod) (h : nFees - gasRefunds - cod < 2 ^ 63) (hp : pct ≤ 100) :
    (coinAmountThatSouldBeBurned nFees gasRefunds cod pct : ℤ) ≤ nFees - gasRefunds - cod := by
  rw [coinAmountThatSouldBeBurned_eq h₀ h hp]
  have hq : 0 ≤ (nFees - gasRefunds - cod) / 100 := Int.ediv_nonneg h₀ (by decide)
  calc (nFees - gasRefunds - cod) / 100 * pct
      ≤ (nFees - gasRefunds - cod) / 100 * 100 :=
        Int.mul_le_mul_of_nonneg_left (by exact_mod_cast hp) hq
    _ ≤ nFees - gasRefunds - cod := Int.ediv_mul_le _ (by decide)

/-- What an accepted `CheckReward` answers, and the proof-of-stake check it passed. -/
theorem CheckReward_of_ok {p : RewardParams} {nFees gasRefunds cod : CAmount}
    {vouts : List CTxOut} {nValueOut nValueIn : ℕ} {burned : CAmount}
    (h : CheckReward p nFees gasRefunds cod vouts nValueOut nValueIn = .ok burned) :
    burned = toInt64 (coinAmountThatSouldBeBurned nFees gasRefunds cod
      (coinBurnPercentage p.cached_coinBurnPercentage)) ∧
    (p.isProofOfStake = true → toUInt64 ((nValueOut : ℤ) - nValueIn) =
      toUInt64 (p.subsidy - coinAmountThatSouldBeBurned nFees gasRefunds cod
        (coinBurnPercentage p.cached_coinBurnPercentage))) := by
  unfold CheckReward at h
  cases hm : matchVouts p.rewardVout vouts with
  | none => simp [hm] at h
  | some _ =>
    simp only [hm] at h
    cases hpos : p.isProofOfStake
    · -- proof of work: only the coinbase's value is checked
      simp only [hpos, Bool.not_false, if_true] at h
      split_ifs at h
      exact ⟨(Except.ok.inj h).symm, nofun⟩
    · simp only [hpos, Bool.not_true, Bool.false_eq_true, if_false] at h
      split_ifs at h with h₁ h₂ h₃
      exact ⟨(Except.ok.inj h).symm, fun _ => not_not.mp h₂⟩

/-- The outputs `matchVouts` finds are among the reward transaction's, each as often as it is
expected. The induction is on the expected outputs. -/
theorem matchVouts_subperm {vTempVouts vouts rest : List CTxOut}
    (h : matchVouts vTempVouts vouts = some rest) : vouts.Subperm vTempVouts := by
  induction vouts generalizing vTempVouts with
  | nil => exact List.nil_subperm
  | cons v vs ih =>
    unfold matchVouts at h
    split_ifs at h with hv
    exact ((List.subperm_cons v).mpr (ih h)).trans (List.perm_cons_erase hv).symm.subperm

/-- An accepted `CheckReward` found every expected output in the reward transaction. -/
theorem CheckReward_subperm {p : RewardParams} {nFees gasRefunds cod : CAmount}
    {vouts : List CTxOut} {nValueOut nValueIn : ℕ} {burned : CAmount}
    (h : CheckReward p nFees gasRefunds cod vouts nValueOut nValueIn = .ok burned) :
    vouts.Subperm p.rewardVout := by
  unfold CheckReward at h
  cases hm : matchVouts p.rewardVout vouts with
  | none => simp [hm] at h
  | some _ => exact matchVouts_subperm hm

/-! ## The loop of `ConnectBlock` -/

/-- The invariant of the loop of `ConnectBlock` under the gas bounds: the fees are in range, and
the refunds and the dividends so far, none negative, are covered by them. -/
structure AccountingInv (acc : BlockAccounting) : Prop where
  nFees_range : MoneyRange acc.nFees = true
  gasRefunds_nonneg : 0 ≤ acc.gasRefunds
  dividends_nonneg : DividendsNonneg acc.dividendsPerAddress
  covered : acc.gasRefunds + acc.dividendsPerAddress.sumBy (fun _ x => x) ≤ acc.nFees

theorem accountingInv_empty : AccountingInv {} :=
  ⟨by decide, le_refl _, fun _ _ h => by simp at h, by simp⟩

@[simp] theorem addValues_nFees (acc : BlockAccounting) (tx : TxAccounting) :
    (addValues acc tx).nFees = acc.nFees := by
  unfold addValues
  split_ifs <;> rfl

@[simp] theorem addValues_gasRefunds (acc : BlockAccounting) (tx : TxAccounting) :
    (addValues acc tx).gasRefunds = acc.gasRefunds := by
  unfold addValues
  split_ifs <;> rfl

@[simp] theorem addValues_dividendsPerAddress (acc : BlockAccounting) (tx : TxAccounting) :
    (addValues acc tx).dividendsPerAddress = acc.dividendsPerAddress := by
  unfold addValues
  split_ifs <;> rfl

/-- The fees after one transaction that `ConnectBlock` lets through: the coinbase adds none,
another transaction its fee, and the check keeps the sum in range. -/
theorem nFees_step {acc : BlockAccounting} {tx : TxAccounting} {nFees : CAmount}
    (hrange : MoneyRange acc.nFees = true)
    (hn : (if tx.isCoinBase then acc.nFees else acc.nFees + tx.txfee) = nFees)
    (hcheck : ¬(!tx.isCoinBase && !MoneyRange nFees) = true) :
    (0 ≤ nFees ∧ nFees ≤ MAX_MONEY) ∧ acc.nFees ≤ nFees := by
  have hfee := (moneyRange_iff _).mp tx.txfee_range
  cases hcb : tx.isCoinBase
  · simp only [hcb, Bool.false_eq_true, if_false] at hn
    subst hn
    refine ⟨by simpa [hcb] using hcheck, ?_⟩
    unfold CAmount at *
    omega
  · simp only [hcb, if_true] at hn
    subst hn
    exact ⟨(moneyRange_iff _).mp hrange, le_refl _⟩

/-- Inversion of `ConnectBlockReward`: an accepted block ran the loop, paid the owners'
dividends of a proof-of-stake block and passed `CheckReward`, and its reward is made of what they
returned. -/
theorem ConnectBlockReward_inv {env : ProcessingEnv} {p : RewardParams} {calls : CoinstakeCalls}
    {getContractOwner : Address → Option Address} {prevMoneySupply : ℕ}
    {txs : List TxAccounting} {r : BlockReward}
    (h : ConnectBlockReward env p calls getContractOwner prevMoneySupply txs = .ok r) :
    ∃ acc dividends cod burned,
      connectBlockAccounting env txs = .ok acc ∧
      (if p.isProofOfStake then addDividents getContractOwner acc.dividendsPerAddress
        else ([], 0)) = (dividends, cod) ∧
      CheckReward p acc.nFees acc.gasRefunds cod (checkVouts p calls acc dividends)
        acc.nValueOut acc.nValueIn = .ok burned ∧
      r = ⟨acc, cod, burned, toUInt64 ((prevMoneySupply : ℤ) + acc.nValueOut - acc.nValueIn)⟩ := by
  unfold ConnectBlockReward at h
  cases hacc : connectBlockAccounting env txs with
  | error err => simp [hacc] at h
  | ok acc =>
    simp only [hacc] at h
    generalize hd : (if p.isProofOfStake then addDividents getContractOwner acc.dividendsPerAddress
      else ([], 0)) = d at h
    obtain ⟨dividends, cod⟩ := d
    cases hreward : CheckReward p acc.nFees acc.gasRefunds cod (checkVouts p calls acc dividends)
        acc.nValueOut acc.nValueIn with
    | error err => simp [hreward] at h
    | ok burned =>
      simp only [hreward, Except.ok.injEq] at h
      exact ⟨acc, dividends, cod, burned, rfl, hd, hreward, h.symm⟩

/-- The dividends paid to owners, none in a proof-of-work block, are at most all of them. -/
theorem ownerDividends_bounds {o : Address → Option Address} {isPoS : Bool}
    {m : OrdMap Address CAmount} {dividends : List CTxOut} {cod : CAmount}
    (hm : DividendsNonneg m) (h : (if isPoS then addDividents o m else ([], 0)) = (dividends, cod)) :
    0 ≤ cod ∧ cod ≤ m.sumBy (fun _ x => x) := by
  have hall := addDividents_bounds o hm
  split_ifs at h
  · rw [h] at hall
    exact hall
  · cases h
    exact ⟨le_refl _, hall.1.trans hall.2⟩

section bounded

variable {env : ProcessingEnv} (hfix : env.nRefundFixHeight ≤ env.height)
include hfix

/-- The refund and the dividends of one contract transaction are paid out of its fee, when its
executions pass the stipend checks and use at most their gas limits. -/
theorem refunds_add_dividends_le {tx : TxAccounting} {execs : List (QtumExecTx × ResultExecute)}
    (hc : tx.contract = some execs) (hgas : ∀ e ∈ execs, e.2.gasUsed ≤ e.1.gas) {sumGas : ℕ}
    (hstip : execs.foldlM (fun sumGas e => stipendStep tx.txfee sumGas e.1) 0 = .ok sumGas)
    {bcer : ByteCodeExecResult} {divs : OrdMap Address CAmount}
    (hres : processingResults env execs = some (bcer, divs)) :
    0 ≤ (bcer.refundOutputs.map (·.nValue)).sum ∧ DividendsNonneg divs ∧
      (bcer.refundOutputs.map (·.nValue)).sum + divs.sumBy (fun _ x => x) ≤ tx.txfee := by
  have hfee := (moneyRange_iff _).mp tx.txfee_range
  have hmax := MAX_MONEY_lt
  unfold CAmount at hmax
  have hu := u256OfInt64_of_moneyRange tx.txfee_range
  -- the stipends fit in the fee, which every execution carries
  have hstipend := stipend_of_ok hstip (Nat.zero_le _) (Nat.zero_le _) (tx.stipend_le execs hc)
  have hfee' : ∀ e ∈ execs, e.1.transactionFee = tx.txfee.toNat := fun e he => by
    have := tx.transactionFee_eq execs hc e he
    omega
  obtain ⟨hrefund, hdivs, hnn⟩ := processingResults_of_bounded hres
    (tx.execs_ne_nil execs hc) hfix hfee' hgas (by omega) (by unfold INT64_MAX; omega)
  -- the dividends are at most the gas charged, which the refund leaves out
  have hcharged := sum_map_charged_le env hgas
  have hdividends := sum_map_dividendOf_le env execs
  rw [hrefund, hdivs]
  simp only [List.map_cons, List.map_nil, List.sum_cons, List.sum_nil, add_zero]
  unfold CAmount at *
  exact ⟨by omega, hnn, by omega⟩

/-- Step lemma: one transaction of the loop keeps the invariant. -/
theorem connectTxAccounting_inv {acc acc' : BlockAccounting} {tx : TxAccounting}
    (h : connectTxAccounting env acc tx = .ok acc')
    (hgas : ∀ execs ∈ tx.contract, ∀ e ∈ execs, e.2.gasUsed ≤ e.1.gas)
    (hinv : AccountingInv acc) : AccountingInv acc' := by
  have hfee := (moneyRange_iff _).mp tx.txfee_range
  have hrange := (moneyRange_iff _).mp hinv.nFees_range
  have hcovered := hinv.covered
  have hrefunds := hinv.gasRefunds_nonneg
  simp only [connectTxAccounting] at h
  generalize hn : (if tx.isCoinBase then acc.nFees else acc.nFees + tx.txfee) = nFees at h
  split_ifs at h with hcheck
  obtain ⟨hfees, hle⟩ := nFees_step hinv.nFees_range hn hcheck
  cases hc : tx.contract with
  | none =>
    simp only [hc] at h
    cases h
    refine ⟨by simpa using hfees, by simpa using hrefunds, by simpa using hinv.dividends_nonneg, ?_⟩
    simp only [addValues_gasRefunds, addValues_dividendsPerAddress, addValues_nFees]
    unfold CAmount at *
    omega
  | some execs =>
    simp only [hc] at h
    cases hstip : execs.foldlM (fun sumGas e => stipendStep tx.txfee sumGas e.1) 0 with
    | error err => simp [hstip] at h
    | ok sumGas =>
      cases hres : processingResults env execs with
      | none => simp [hstip, hres] at h
      | some r =>
        obtain ⟨bcer, divs⟩ := r
        simp only [hstip, hres] at h
        cases h
        -- a contract transaction is not the coinbase: its fee enters `nFees`
        have hcb : tx.isCoinBase = false := by
          cases hcb : tx.isCoinBase
          · rfl
          · simp [tx.contract_of_coinBase hcb] at hc
        simp only [hcb, Bool.false_eq_true, if_false] at hn
        subst hn
        obtain ⟨hrefund₀, hdivs₀, hpaid⟩ :=
          refunds_add_dividends_le hfix hc (hgas execs hc) hstip hres
        refine ⟨by simpa using hfees, ?_,
          dividendsNonneg_mergeDividends (by simpa using hinv.dividends_nonneg) hdivs₀, ?_⟩
        · simp only [addValues_gasRefunds]
          unfold CAmount at *
          omega
        · simp only [addValues_gasRefunds, addValues_dividendsPerAddress, addValues_nFees,
            sumBy_mergeDividends]
          unfold CAmount at *
          omega

/-- Run lemma: an accepted loop of `ConnectBlock` keeps the invariant, by the invariant rule of
folds that may fail. -/
theorem connectBlockAccounting_inv {txs : List TxAccounting} {acc : BlockAccounting}
    (h : connectBlockAccounting env txs = .ok acc)
    (hgas : ∀ tx ∈ txs, ∀ execs ∈ tx.contract, ∀ e ∈ execs, e.2.gasUsed ≤ e.1.gas) :
    AccountingInv acc := by
  unfold connectBlockAccounting at h
  cases hrun : txs.foldlM (connectTxAccounting env) {} with
  | error err => simp [hrun] at h
  | ok acc₀ =>
    simp only [hrun] at h
    split_ifs at h
    cases h
    exact foldlM_except_inv AccountingInv
      (fun _ tx htx _ hstep hinv => connectTxAccounting_inv hfix hstep (hgas tx htx) hinv)
      hrun accountingInv_empty

/-- The amounts of a block connected after `nRefundFixHeight`, when every execution uses at
most its gas limit: the refunds and the dividends paid to owners are covered by the fees, the
burn is a share of what remains, and for a proof-of-stake block the money supply grows by the
subsidy less the burn, in `uint64_t` arithmetic. -/
theorem ConnectBlockReward_of_bounded {p : RewardParams} {calls : CoinstakeCalls}
    {getContractOwner : Address → Option Address} {prevMoneySupply : ℕ}
    {txs : List TxAccounting} {r : BlockReward}
    (h : ConnectBlockReward env p calls getContractOwner prevMoneySupply txs = .ok r)
    (hgas : ∀ tx ∈ txs, ∀ execs ∈ tx.contract, ∀ e ∈ execs, e.2.gasUsed ≤ e.1.gas) :
    r.accounting.gasRefunds + r.contractOwnersDividents ≤ r.accounting.nFees ∧
    0 ≤ r.burnedCoins ∧
    r.burnedCoins ≤ r.accounting.nFees - r.accounting.gasRefunds - r.contractOwnersDividents ∧
    (p.isProofOfStake = true →
      (r.nMoneySupply : ℤ) = (prevMoneySupply + (p.subsidy - r.burnedCoins)) % 2 ^ 64) := by
  obtain ⟨acc, dividends, cod, burned, hacc, hdivs, hreward, rfl⟩ := ConnectBlockReward_inv h
  have hinv := connectBlockAccounting_inv hfix hacc hgas
  have hcod := ownerDividends_bounds hinv.dividends_nonneg hdivs
  obtain ⟨hburned, hpos⟩ := CheckReward_of_ok hreward
  -- what remains of the fees is not negative and in range, so the burn does not wrap
  have hrange := (moneyRange_iff _).mp hinv.nFees_range
  have hcovered := hinv.covered
  have hrefunds := hinv.gasRefunds_nonneg
  have hmax := MAX_MONEY_lt
  unfold CAmount at *
  have h₀ : (0 : ℤ) ≤ acc.nFees - acc.gasRefunds - cod := by omega
  have hle := coinAmountThatSouldBeBurned_le h₀ (by omega)
    (coinBurnPercentage_le p.cached_coinBurnPercentage)
  generalize coinAmountThatSouldBeBurned acc.nFees acc.gasRefunds cod
    (coinBurnPercentage p.cached_coinBurnPercentage) = c at hburned hle hpos
  rw [toInt64_of_lt (x := (c : ℤ)) (by omega) (by omega)] at hburned
  subst hburned
  dsimp only
  refine ⟨by omega, by omega, hle, fun hp => ?_⟩
  -- the supply grows by `nValueOut - nValueIn`, which the check equates with the subsidy
  -- less the burn modulo `2 ^ 64`
  have hsupply := hpos hp
  simp only [toUInt64] at hsupply ⊢
  omega

end bounded

/-- An accepted block's reward transaction carries every output `ConnectBlock` expects of it,
with the dividend outputs it paid. -/
theorem ConnectBlockReward_subperm {env : ProcessingEnv} {p : RewardParams}
    {calls : CoinstakeCalls} {getContractOwner : Address → Option Address} {prevMoneySupply : ℕ}
    {txs : List TxAccounting} {r : BlockReward}
    (h : ConnectBlockReward env p calls getContractOwner prevMoneySupply txs = .ok r) :
    ∃ dividends, (checkVouts p calls r.accounting dividends).Subperm p.rewardVout := by
  obtain ⟨acc, dividends, cod, burned, -, -, hreward, rfl⟩ := ConnectBlockReward_inv h
  exact ⟨dividends, CheckReward_subperm hreward⟩

/-- A block of four transactions: the coinbase; a coinstake that spends `1000000` and pays
`coinstakeOut`; a transaction with a fee of `800000` that calls contract `7` twice, each call with
a gas limit of `10000` at a gas price of `40`, a stipend of `400000` of which it uses `200000`;
and a plain transaction with a fee of `400000`. -/
def twoCallBlock (coinstakeOut : CAmount) : List TxAccounting :=
  [.noContract true 0 0 0 moneyRange_zero, .noContract false 1000000 coinstakeOut 0 moneyRange_zero,
    ⟨false, 800000, 0, 800000,
      some [(⟨⟨5, 0, 42, 0⟩, 10000, 40, false, 7, 800000, 5, 1⟩, ⟨5000, .None, 0, CTransaction.empty⟩),
        (⟨⟨5, 0, 42, 1⟩, 10000, 40, false, 7, 800000, 5, 1⟩, ⟨5000, .None, 0, CTransaction.empty⟩)],
      by decide, by simp, by decide, by decide, by decide⟩,
    .noContract false 500000 100000 400000 (by decide)]

/-- `twoCallBlock` after `nRefundFixHeight`, with contract `7` owned by `9`: one refund of
`800000 - 400000`, dividends of `200000`, fees of `1200000` and a burn of `60000`. -/
theorem ConnectBlockReward_afterRefundFix :
    ∃ r, ConnectBlockReward ⟨1160400, 0, 1160400, 50⟩
        ⟨true, 100000, 10, 1240000, [⟨0, []⟩, ⟨1640000, p2pkhScript 3⟩, ⟨400000, p2pkhScript 5⟩,
          ⟨200000, p2pkhScript 9⟩]⟩
        ⟨fun _ _ => [], none⟩ (fun a => if a = 7 then some 9 else none) 1000000
        (twoCallBlock 2240000) = .ok r ∧
      (r.accounting.gasRefunds + r.contractOwnersDividents ≤ r.accounting.nFees ∧
        0 ≤ r.burnedCoins ∧
        r.burnedCoins ≤ r.accounting.nFees - r.accounting.gasRefunds - r.contractOwnersDividents ∧
        (true = true → (r.nMoneySupply : ℤ) = (1000000 + (100000 - r.burnedCoins)) % 2 ^ 64)) := by
  obtain ⟨r, h⟩ : ∃ r, ConnectBlockReward ⟨1160400, 0, 1160400, 50⟩
      ⟨true, 100000, 10, 1240000, [⟨0, []⟩, ⟨1640000, p2pkhScript 3⟩, ⟨400000, p2pkhScript 5⟩,
        ⟨200000, p2pkhScript 9⟩]⟩
      ⟨fun _ _ => [], none⟩ (fun a => if a = 7 then some 9 else none) 1000000
      (twoCallBlock 2240000) = .ok r := ⟨_, rfl⟩
  exact ⟨r, h, ConnectBlockReward_of_bounded (by decide) h (by decide)⟩

/-- At the block of height `nRefundFixHeight`, `processingResults` reads the parent's height and
refunds the old way, while `CheckTransaction` at the block's height lets a transaction have two
contract outputs. In `twoCallBlock` the old way refunds `800000 - 200000` twice, against fees of
`1200000`. With contract `7` owned by `9` and a burn rate of `10`, the refunds and the dividends
exceed the fees, the burn is negative, and the money supply grows by `60000` against a subsidy of
`40000`. -/
theorem ConnectBlockReward_at_refundFixHeight :
    contractOutsAllowed 852800 1160400 (1160399 + 1) 2 = true ∧
    ∃ r, ConnectBlockReward ⟨1160399, 0, 1160400, 50⟩
        ⟨true, 40000, 10, 1260000, [⟨0, []⟩, ⟨860000, p2pkhScript 3⟩, ⟨600000, p2pkhScript 5⟩,
          ⟨600000, p2pkhScript 5⟩, ⟨200000, p2pkhScript 9⟩]⟩
        ⟨fun _ _ => [], none⟩ (fun a => if a = 7 then some 9 else none) 1000000
        (twoCallBlock 2260000) = .ok r ∧
      r.accounting.nFees < r.accounting.gasRefunds + r.contractOwnersDividents ∧
      r.burnedCoins < 0 ∧ (40000 : ℤ) < r.nMoneySupply - 1000000 :=
  ⟨rfl, _, rfl, by decide⟩

end HydraNode
