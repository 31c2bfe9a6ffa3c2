import HydraNode.Qtum.Condensing

/-!
# Processing the results of contract executions

`ByteCodeExec::processingResults` (`validation.cpp`) reads what the EVM returned for each
contract output of a transaction and turns it into what the block must contain: the gas
refund to the sender, the refunds of the value of failed executions, the condensing
transactions, the new contracts and, per called contract, the dividend its owner earns.

The EVM is not part of the repository; its results are the input `ResultExecute`. Machine
arithmetic follows the source's types: `gasUsed * gasPrice` is a `uint64_t` product, and
values stored into `int64_t` pass through `toInt64`.

From the height `nRefundFixHeight` on, the refund is `txFee - allGasFee`, the fee of the
transaction minus the gas charged. The source rejects a negative refund with
`txFee - allGasFee < 0`, but `txFee` is a `uint64_t`, so the difference is unsigned and the
test never holds; the refund output then carries the difference read as an `int64_t`.

## Main definitions

* `TransactionException`, `QtumExecTx`, `ResultExecute`, `ByteCodeExecResult`
* `ByteCodeExec.processingResults`
* `ByteCodeExec.charged`, `ByteCodeExec.dividendOf` — what one execution costs and earns

## Main results

* `ByteCodeExec.processingResults_of_bounded` — under the gas bounds, the refund is the fee
  minus the gas charged and the dividends sum to those of the executions
-/

namespace HydraNode

/-- `dev::eth::TransactionException`, as far as the processing tells its values apart. -/
inductive TransactionException where
  | None
  | RevertInstruction
  /-- Every other exception of the EVM. -/
  | other
  deriving DecidableEq, Repr

/-- A `QtumTransaction` with the fields the processing reads besides those the condensing
code reads. -/
structure QtumExecTx extends QtumTransaction where
  gas : ℕ
  gasPrice : ℕ
  isCreation : Bool
  receiveAddress : Address
  /-- `nTransactionFee`, a `uint64_t`. -/
  transactionFee : ℕ
  refundSender : Address
  /-- `getVersion().rootVM`: `0` for the executions the AAL creates, `1` for the EVM. -/
  rootVM : ℕ
  deriving DecidableEq, Repr

/-- `ResultExecute`: what the EVM returns for one execution, with the condensing transaction
it made. -/
structure ResultExecute where
  gasUsed : ℕ
  excepted : TransactionException
  newAddress : Address
  tx : CTransaction
  deriving DecidableEq, Repr

/-- `ByteCodeExecResult`. -/
structure ByteCodeExecResult where
  usedGas : ℕ := 0
  refundSender : CAmount := 0
  refundOutputs : List CTxOut := []
  valueTransfers : List CTransaction := []
  contractAddresses : List Address := []
  contractOwners : List Address := []
  execExceptions : List TransactionException := []
  deriving DecidableEq, Repr

/-- The chain parameters and the contract read that the processing depends on. -/
structure ProcessingEnv where
  /-- `chainActive.Height()`. -/
  height : ℤ
  QIP7Height : ℤ
  nRefundFixHeight : ℤ
  /-- What `Dgp::getDgpParam(ECONOMY_DIVIDEND, dividendPercentage)` leaves in the variable. -/
  dividendPercentage : ℕ

/-- `MIN_ECONOMY_DIVIDEND_PERCENTAGE`, `MAX_ECONOMY_DIVIDEND_PERCENTAGE` and
`DEFAULT_ECONOMY_DIVIDEND_PERCENTAGE` (`dgp.h`). -/
def MIN_ECONOMY_DIVIDEND_PERCENTAGE : ℕ := 0
def MAX_ECONOMY_DIVIDEND_PERCENTAGE : ℕ := 50
def DEFAULT_ECONOMY_DIVIDEND_PERCENTAGE : ℕ := 50

namespace ByteCodeExec

variable (env : ProcessingEnv)

/-- The dividend percentage after the range check. -/
def dividendPercentage : ℕ :=
  if MAX_ECONOMY_DIVIDEND_PERCENTAGE < env.dividendPercentage ∨
      env.dividendPercentage < MIN_ECONOMY_DIVIDEND_PERCENTAGE then
    DEFAULT_ECONOMY_DIVIDEND_PERCENTAGE
  else env.dividendPercentage

/-- Whether an execution is charged for its gas: it succeeded, or it reverted after
`QIP7Height`. -/
def isCharged (r : ResultExecute) : Bool :=
  r.excepted == .None ||
    (decide (env.QIP7Height ≤ env.height) && r.excepted == .RevertInstruction)

/-- The transaction that gives the value of a failed execution back to its sender. -/
def valueRefundTx (q : QtumExecTx) : CTransaction :=
  ⟨[⟨⟨q.hashWith, q.nVout⟩, CScript.pushOp [] OP_SPEND⟩],
    [⟨amountOfU256 q.value, p2pkhScript q.sender⟩]⟩

/-- The state of the loop of `processingResults`: the result, `allGasFee`,
`oldRefundAmounts`, and the member `dividendByContract`. -/
structure ProcessingState where
  result : ByteCodeExecResult := {}
  allGasFee : CAmount := 0
  oldRefundAmounts : List CAmount := []
  dividendByContract : OrdMap Address CAmount := ∅

/-- The part of an iteration for an execution that raised an exception. -/
def exceptionStep (q : QtumExecTx) (r : ResultExecute) (res : ByteCodeExecResult) :
    ByteCodeExecResult :=
  if r.excepted = .None then res
  else
    { res with
      valueTransfers := if 0 < q.value then res.valueTransfers ++ [valueRefundTx q]
        else res.valueTransfers
      usedGas := if decide (env.QIP7Height ≤ env.height) && r.excepted == .RevertInstruction
        then res.usedGas else (res.usedGas + r.gasUsed % 2 ^ 64) % 2 ^ 64 }

/-- The part of an iteration for a charged execution; `none` is `return false`. -/
def chargeStep (q : QtumExecTx) (r : ResultExecute) (s : ProcessingState) :
    Option ProcessingState :=
  if UINT64_MAX < q.gas ∨ UINT64_MAX < r.gasUsed ∨ UINT64_MAX < q.gasPrice then none
  else
    let gasUsed : ℕ := r.gasUsed % 2 ^ 64
    let gasFee : ℕ := gasUsed * q.gasPrice % 2 ^ 64
    let dividend := toInt64 (toInt64 ((r.gasUsed * q.gasPrice / 100 : ℕ)) * dividendPercentage env)
    some { s with
      result := { s.result with
        usedGas := (s.result.usedGas + gasUsed) % 2 ^ 64
        contractAddresses := if q.isCreation && r.excepted == .None
          then s.result.contractAddresses ++ [r.newAddress] else s.result.contractAddresses
        contractOwners := if q.isCreation && r.excepted == .None
          then s.result.contractOwners ++ [q.sender] else s.result.contractOwners }
      oldRefundAmounts := s.oldRefundAmounts ++ [toInt64 ((q.transactionFee : ℤ) - gasFee)]
      allGasFee := toInt64 (s.allGasFee + gasFee)
      dividendByContract := if q.isCreation then s.dividendByContract
        else s.dividendByContract.modify q.receiveAddress 0 (· + dividend) }

/-- One iteration of the loop of `processingResults`. -/
def processingStep (s : ProcessingState) (e : QtumExecTx × ResultExecute) :
    Option ProcessingState :=
  let s := { s with
    result := exceptionStep env e.1 e.2
      { s.result with execExceptions := s.result.execExceptions ++ [e.2.excepted] } }
  let s' := if isCharged env e.2 then chargeStep env e.1 e.2 s else some s
  s'.map fun s =>
    if e.2.tx = CTransaction.empty then s
    else { s with result := { s.result with valueTransfers := s.result.valueTransfers ++ [e.2.tx] } }

/-- The refunds before `nRefundFixHeight`: one per charged execution, each the whole fee
minus that execution's gas; a negative one is `return false`. -/
def oldRefunds (script : CScript) (res : ByteCodeExecResult) (amounts : List CAmount) :
    Option ByteCodeExecResult :=
  amounts.foldlM (fun res a =>
    if a < 0 then none
    else if 0 < a then
      some { res with refundOutputs := res.refundOutputs ++ [⟨a, script⟩]
                      refundSender := res.refundSender + a }
    else some res) res

/-- `processingResults`, over the executions of one transaction with their results, in
order; it returns the result and the member `dividendByContract`. `txs[0]` is the first
execution; the node never calls it without one. -/
def processingResults (execs : List (QtumExecTx × ResultExecute)) :
    Option (ByteCodeExecResult × OrdMap Address CAmount) := do
  let txFee := (execs.head?.map (·.1.transactionFee)).getD 0
  let script := p2pkhScript ((execs.head?.map (·.1.refundSender)).getD 0)
  let s ← execs.foldlM (processingStep env) {}
  if env.nRefundFixHeight ≤ env.height then
    -- `txFee - allGasFee < 0` is a test on an unsigned value: it never rejects
    let refund := toInt64 (txFee - s.allGasFee)
    some ({ s.result with
      refundOutputs := s.result.refundOutputs ++ [⟨refund, script⟩]
      refundSender := s.result.refundSender + refund }, s.dividendByContract)
  else
    let res ← oldRefunds script s.result s.oldRefundAmounts
    some (res, s.dividendByContract)

/-! ## Under the gas bounds -/

/-- The gas one execution is charged. -/
def charged (e : QtumExecTx × ResultExecute) : ℕ :=
  if isCharged env e.2 then e.2.gasUsed * e.1.gasPrice else 0

/-- The dividend one execution earns the contract it calls. -/
def dividendOf (e : QtumExecTx × ResultExecute) : ℕ :=
  if isCharged env e.2 && !e.1.isCreation then
    e.2.gasUsed * e.1.gasPrice / 100 * dividendPercentage env
  else 0

theorem dividendPercentage_le : dividendPercentage env ≤ 50 := by
  unfold dividendPercentage MAX_ECONOMY_DIVIDEND_PERCENTAGE DEFAULT_ECONOMY_DIVIDEND_PERCENTAGE
  split_ifs with h
  · exact le_refl _
  · omega

/-- An execution earns at most half of what it is charged. -/
theorem two_mul_dividendOf_le (e : QtumExecTx × ResultExecute) :
    2 * dividendOf env e ≤ charged env e := by
  -- `(x / 100) * p ≤ x / 2` for `p ≤ 50`
  have h₁ := Nat.div_mul_le_self (e.2.gasUsed * e.1.gasPrice) 100
  have h₂ : e.2.gasUsed * e.1.gasPrice / 100 * dividendPercentage env ≤
      e.2.gasUsed * e.1.gasPrice / 100 * 50 := Nat.mul_le_mul_left _ (dividendPercentage_le env)
  unfold dividendOf charged
  split_ifs with hd hc hc
  · omega
  · simp [hc] at hd
  · omega
  · omega

/-- What an execution is charged is at most the gas it pays for. -/
theorem charged_le {e : QtumExecTx × ResultExecute} (hgas : e.2.gasUsed ≤ e.1.gas) :
    charged env e ≤ e.1.gas * e.1.gasPrice := by
  unfold charged
  split_ifs
  · exact Nat.mul_le_mul_right _ hgas
  · exact Nat.zero_le _

/-- The gas charged over the executions is at most their stipends. -/
theorem sum_map_charged_le {execs : List (QtumExecTx × ResultExecute)}
    (hgas : ∀ e ∈ execs, e.2.gasUsed ≤ e.1.gas) :
    (execs.map (charged env)).sum ≤ (execs.map fun e => e.1.gas * e.1.gasPrice).sum :=
  List.sum_le_sum fun e he => charged_le env (hgas e he)

/-- The dividends over the executions are at most the gas charged. -/
theorem sum_map_dividendOf_le (execs : List (QtumExecTx × ResultExecute)) :
    (execs.map (dividendOf env)).sum ≤ (execs.map (charged env)).sum :=
  List.sum_le_sum fun e _ => by have := two_mul_dividendOf_le env e; omega

/-- Every value of the dividend map is not negative. -/
def DividendsNonneg (m : OrdMap Address CAmount) : Prop := ∀ k v, m.find? k = some v → 0 ≤ v

/-- Adding a dividend that is not negative keeps the values not negative. -/
theorem dividendsNonneg_modify {m : OrdMap Address CAmount} (hm : DividendsNonneg m)
    (k : Address) {d : CAmount} (hd : 0 ≤ d) : DividendsNonneg (m.modify k 0 (· + d)) := by
  intro k' v hv
  rw [OrdMap.modify, OrdMap.find?_insert] at hv
  split_ifs at hv with hk
  · cases hv
    have hx : 0 ≤ m.findD k 0 := by
      unfold OrdMap.findD
      cases h : m.find? k with
      | none => exact le_refl _
      | some x => exact hm k x h
    exact Int.add_nonneg hx hd
  · exact hm k' v hv

theorem refundOutputs_exceptionStep (q : QtumExecTx) (r : ResultExecute)
    (res : ByteCodeExecResult) : (exceptionStep env q r res).refundOutputs = res.refundOutputs := by
  unfold exceptionStep
  split_ifs <;> rfl

variable {env} {s s' : ProcessingState} {e : QtumExecTx × ResultExecute}

/-- An iteration for an execution that is not charged leaves the gas, the dividends and the
refunds as they were. -/
theorem processingStep_of_not_charged (hc : isCharged env e.2 = false)
    (hstep : processingStep env s e = some s') :
    s'.allGasFee = s.allGasFee ∧ s'.dividendByContract = s.dividendByContract ∧
    s'.result.refundOutputs = s.result.refundOutputs := by
  simp only [processingStep, hc, Bool.false_eq_true, if_false] at hstep
  obtain ⟨s₁, hs₁, rfl⟩ := Option.map_eq_some_iff.mp hstep
  cases hs₁
  -- the condensing transaction, if any, only joins `valueTransfers`
  by_cases ht : e.2.tx = CTransaction.empty <;> simp [ht, refundOutputs_exceptionStep]

/-- An iteration for a charged execution passed the checks of `chargeStep`, and adds the
gas fee to `allGasFee` and the dividend to the called contract. -/
theorem processingStep_of_charged (hc : isCharged env e.2 = true)
    (hstep : processingStep env s e = some s') :
    (e.1.gas ≤ UINT64_MAX ∧ e.2.gasUsed ≤ UINT64_MAX ∧ e.1.gasPrice ≤ UINT64_MAX) ∧
    s'.allGasFee = toInt64 (s.allGasFee + (e.2.gasUsed % 2 ^ 64 * e.1.gasPrice % 2 ^ 64 : ℕ)) ∧
    s'.dividendByContract = (if e.1.isCreation then s.dividendByContract
      else s.dividendByContract.modify e.1.receiveAddress 0 (· + toInt64
        (toInt64 ((e.2.gasUsed * e.1.gasPrice / 100 : ℕ)) * dividendPercentage env))) ∧
    s'.result.refundOutputs = s.result.refundOutputs := by
  simp only [processingStep, hc, if_true] at hstep
  obtain ⟨s₁, hs₁, rfl⟩ := Option.map_eq_some_iff.mp hstep
  unfold chargeStep at hs₁
  by_cases hbig : UINT64_MAX < e.1.gas ∨ UINT64_MAX < e.2.gasUsed ∨ UINT64_MAX < e.1.gasPrice
  · rw [if_pos hbig] at hs₁
    cases hs₁
  rw [if_neg hbig] at hs₁
  cases hs₁
  refine ⟨by simpa only [not_or, not_lt] using hbig, ?_⟩
  -- the condensing transaction, if any, only joins `valueTransfers`
  by_cases ht : e.2.tx = CTransaction.empty <;> simp [ht, refundOutputs_exceptionStep]

/-- The dividend as `chargeStep` computes it, through two `int64_t` conversions, is
`dividendOf` when the gas charged is below `INT64_MAX`. -/
theorem dividend_toInt64_eq (hc : isCharged env e.2 = true)
    (hk : e.1.isCreation = false) (hle : e.2.gasUsed * e.1.gasPrice ≤ INT64_MAX) :
    toInt64 (toInt64 ((e.2.gasUsed * e.1.gasPrice / 100 : ℕ)) * dividendPercentage env) =
      dividendOf env e := by
  have hmax : INT64_MAX < 2 ^ 63 := by unfold INT64_MAX; omega
  have hd := two_mul_dividendOf_le env e
  have hcharged : charged env e = e.2.gasUsed * e.1.gasPrice := by simp [charged, hc]
  have hof : dividendOf env e = e.2.gasUsed * e.1.gasPrice / 100 * dividendPercentage env := by
    simp [dividendOf, hc, hk]
  have hinner : toInt64 ((e.2.gasUsed * e.1.gasPrice / 100 : ℕ)) =
      ((e.2.gasUsed * e.1.gasPrice / 100 : ℕ) : ℤ) := toInt64_of_lt (by omega) (by omega)
  rw [hinner, ← Int.natCast_mul, toInt64_of_lt (by omega) (by omega), hof]

/-- One iteration under the bounds: `allGasFee` grows by the charged gas, the dividends by
the execution's dividend, and no refund is written. -/
theorem processingStep_of_bounded (hstep : processingStep env s e = some s')
    (hgas : e.2.gasUsed ≤ e.1.gas) (hs : 0 ≤ s.allGasFee)
    (hsum : s.allGasFee + (e.1.gas * e.1.gasPrice : ℕ) ≤ INT64_MAX)
    (hdiv : DividendsNonneg s.dividendByContract) :
    s'.allGasFee = s.allGasFee + charged env e ∧
    s'.dividendByContract.sumBy (fun _ x => x) =
      s.dividendByContract.sumBy (fun _ x => x) + dividendOf env e ∧
    DividendsNonneg s'.dividendByContract ∧
    s'.result.refundOutputs = s.result.refundOutputs := by
  cases hc : isCharged env e.2
  case false =>
    obtain ⟨hfee, hdivs, hrefund⟩ := processingStep_of_not_charged hc hstep
    simp [charged, dividendOf, hc, hfee, hdivs, hrefund, hdiv]
  case true =>
    obtain ⟨⟨-, hr, -⟩, hfee, hdivs, hrefund⟩ := processingStep_of_charged hc hstep
    -- nothing wraps: the charged gas is below `INT64_MAX`, and so is the dividend
    have hprod : e.2.gasUsed * e.1.gasPrice ≤ e.1.gas * e.1.gasPrice :=
      Nat.mul_le_mul_right _ hgas
    have hle : e.1.gas * e.1.gasPrice ≤ INT64_MAX := by unfold CAmount at hs hsum; omega
    have hmax : INT64_MAX < 2 ^ 63 := by unfold INT64_MAX; omega
    have hgasUsed : e.2.gasUsed % 2 ^ 64 = e.2.gasUsed :=
      Nat.mod_eq_of_lt (by unfold UINT64_MAX at hr; omega)
    have hgasFee : e.2.gasUsed * e.1.gasPrice % 2 ^ 64 = e.2.gasUsed * e.1.gasPrice :=
      Nat.mod_eq_of_lt (by omega)
    have hcharged : charged env e = e.2.gasUsed * e.1.gasPrice := by simp [charged, hc]
    have hfee' : s'.allGasFee = s.allGasFee + charged env e := by
      rw [hfee, hgasUsed, hgasFee, hcharged]
      exact toInt64_of_lt (by unfold CAmount at hs; omega) (by unfold CAmount at hs hsum; omega)
    cases hk : e.1.isCreation
    case true =>
      have hzero : dividendOf env e = 0 := by simp [dividendOf, hk]
      simp [hfee', hdivs, hk, hzero, hdiv, hrefund]
    case false =>
      rw [hdivs, hk, if_neg Bool.false_ne_true, OrdMap.sumBy_modify_add,
        dividend_toInt64_eq hc hk (by omega)]
      exact ⟨hfee', rfl, dividendsNonneg_modify hdiv _ (Int.natCast_nonneg _), hrefund⟩

/-- The loop under the bounds, by induction on the executions with the step lemma:
`allGasFee` grows by the gas charged, the dividends by those of the executions, and no
refund is written. -/
theorem foldlM_processingStep_of_bounded {execs : List (QtumExecTx × ResultExecute)}
    (hrun : execs.foldlM (processingStep env) s = some s')
    (hgas : ∀ e ∈ execs, e.2.gasUsed ≤ e.1.gas) (hs : 0 ≤ s.allGasFee)
    (hsum : s.allGasFee + ((execs.map fun e => e.1.gas * e.1.gasPrice).sum : ℕ) ≤ INT64_MAX)
    (hdiv : DividendsNonneg s.dividendByContract) :
    s'.allGasFee = s.allGasFee + ((execs.map (charged env)).sum : ℕ) ∧
    s'.dividendByContract.sumBy (fun _ x => x) =
      s.dividendByContract.sumBy (fun _ x => x) + ((execs.map (dividendOf env)).sum : ℕ) ∧
    DividendsNonneg s'.dividendByContract ∧
    s'.result.refundOutputs = s.result.refundOutputs := by
  induction execs generalizing s with
  | nil =>
    cases hrun
    simp [hdiv]
  | cons e es ih =>
    simp only [List.foldlM_cons, Option.bind_eq_bind, Option.bind_eq_some_iff] at hrun
    obtain ⟨s₁, h₁, hrest⟩ := hrun
    simp only [List.map_cons, List.sum_cons, Int.natCast_add] at hsum ⊢
    have hle := charged_le env (hgas e List.mem_cons_self)
    obtain ⟨hfee₁, hdiv₁, hnn₁, href₁⟩ := processingStep_of_bounded h₁ (hgas e List.mem_cons_self) hs
      (by unfold CAmount at *; omega) hdiv
    obtain ⟨hfee, hdivs, hnn, href⟩ := ih hrest (fun e' he => hgas e' (List.mem_cons_of_mem _ he))
      (by rw [hfee₁]; unfold CAmount at *; omega) (by rw [hfee₁]; unfold CAmount at *; omega) hnn₁
    refine ⟨?_, ?_, hnn, href.trans href₁⟩
    · rw [hfee, hfee₁, add_assoc]
    · rw [hdivs, hdiv₁, add_assoc]

/-- `processingResults` under the gas bounds, from `nRefundFixHeight` on. The executions share
the fee `txFee` and their gas stipends fit in it; then the one refund output pays the fee minus
the gas charged to the refund sender of the first execution, and the dividends, none negative,
sum to those of the executions. -/
theorem processingResults_of_bounded {execs : List (QtumExecTx × ResultExecute)}
    {res : ByteCodeExecResult} {divs : OrdMap Address CAmount} {txFee : ℕ}
    (h : processingResults env execs = some (res, divs)) (hne : execs ≠ [])
    (hfix : env.nRefundFixHeight ≤ env.height) (hfee : ∀ e ∈ execs, e.1.transactionFee = txFee)
    (hgas : ∀ e ∈ execs, e.2.gasUsed ≤ e.1.gas)
    (hsum : (execs.map fun e => e.1.gas * e.1.gasPrice).sum ≤ txFee) (hmax : txFee ≤ INT64_MAX) :
    res.refundOutputs = [⟨(txFee : ℤ) - ((execs.map (charged env)).sum : ℕ),
      p2pkhScript ((execs.head?.map (·.1.refundSender)).getD 0)⟩] ∧
    divs.sumBy (fun _ x => x) = ((execs.map (dividendOf env)).sum : ℕ) ∧ DividendsNonneg divs := by
  obtain ⟨e₀, es, rfl⟩ := List.exists_cons_of_ne_nil hne
  unfold processingResults at h
  simp only [List.head?_cons, Option.map_some, Option.getD_some, hfee e₀ List.mem_cons_self,
    Option.bind_eq_bind, Option.bind_eq_some_iff, if_pos hfix, Option.some.injEq, Prod.mk.injEq] at h
  obtain ⟨s, hrun, hres, hdivs⟩ := h
  -- the loop starts from the empty state, and charges at most the fee
  have hcharged := sum_map_charged_le env hgas
  obtain ⟨hall, hsumDiv, hnn, href⟩ := foldlM_processingStep_of_bounded hrun hgas (le_refl _)
    (by show (0 : ℤ) + _ ≤ _; omega) (fun _ _ h => by simp at h)
  have hall' : s.allGasFee = (((e₀ :: es).map (charged env)).sum : ℕ) := by
    rw [hall]
    exact Int.zero_add _
  subst hres hdivs
  refine ⟨?_, by simpa using hsumDiv, hnn⟩
  simp only [href, hall', List.nil_append, List.head?_cons, Option.map_some, Option.getD_some]
  rw [toInt64_of_le (by omega) (by omega)]

end ByteCodeExec

end HydraNode
