import HydraNode.Contract.Block

/-!
# Consensus reads of the system contracts

While a block is connected, the node reads system contracts through `CallContract`
(`validation.cpp`): the price oracle for the gas price of every contract output
(`PriceOracle::getPrice`, read by `QtumTxConverter::parseEthTXParams`), the LYDRA contract for
the locked amounts (`Lydra::getLockedHydraAmountPerAddress`), the DGP and economy contracts for
their parameters. `CallContract` runs the call against the tip block read from disk, whose time
it overwrites with `GetAdjustedTime()`, the node's own clock; `BuildEVMEnvironment` hands that
time to the EVM as the block's timestamp.

The EVM is not part of the repository. It is a parameter here, a function of the environment, the
called contract and the call data, against the contract state both nodes share: `Evm`.

`getPrice` sets its result only when the call is made; otherwise the caller's variable keeps
what it held, and in `parseEthTXParams` that variable is not initialised.

## Main definitions

* `EnvInfo`, `Evm`, `ChainTip`
* `CallContract`, `PriceOracle.getPrice`, `Lydra.getLockedHydraAmountPerAddress`
* `ethGasParams` — the gas price and gas limit of `parseEthTXParams`

## Main results

* `CallContract_eq_of_timestamp` — two nodes whose EVM does not read the timestamp get the same
  answers, whatever their clocks
* `getPrice_of_callString_none` — without a call string, the gas price is the uninitialised
  variable
* `gasStipend_depends_on_clock`
-/

namespace HydraNode

/-- `dev::eth::EnvInfo`, with the fields `BuildEVMEnvironment` sets. -/
structure EnvInfo where
  number : ℕ
  timestamp : ℕ
  difficulty : ℕ
  gasLimit : ℕ
  author : Address
  deriving DecidableEq, Repr

/-- The EVM, as a deterministic function of the environment, the called contract and the call
data, against the contract state; it answers the output of the call. -/
abbrev Evm := EnvInfo → Address → List UInt8 → List UInt8

/-- What `CallContract` reads of the chain: the tip's height, the tip block's difficulty bits
and the author `EthAddrFromScript` finds in it, and the DGP's block gas limit for the next
height. -/
structure ChainTip where
  nHeight : ℕ
  nBits : ℕ
  author : Address
  blockGasLimit : ℕ

/-- `BuildEVMEnvironment` for the tip block whose time is `nTime`. -/
def BuildEVMEnvironment (tip : ChainTip) (nTime : ℕ) : EnvInfo :=
  ⟨tip.nHeight + 1, nTime, tip.nBits, tip.blockGasLimit, tip.author⟩

/-- `CallContract`: one call, in a copy of the tip block whose time is the node's adjusted time
`GetAdjustedTime()`; it answers the outputs of the executions, one here. -/
def CallContract (evm : Evm) (tip : ChainTip) (adjustedTime : ℕ) (addrContract : Address)
    (opcode : List UInt8) : List (List UInt8) :=
  [evm (BuildEVMEnvironment tip adjustedTime) addrContract opcode]

/-- `ABIDeserialiser<u256>::deserialise`: the first 32 bytes of the output, big-endian. -/
def abiU256 (o : List UInt8) : ℕ :=
  (o.take 32).foldl (fun n b => n * 256 + b.toNat) 0

/-- `DEFAULT_GAS_PRICE` (`validation.h`). -/
def DEFAULT_GAS_PRICE : ℕ := 40

/-- The address of the price oracle contract. -/
def LockTripPriceOracleContract : Address := 0x92

namespace PriceOracle

/-- `PriceOracle::getPrice`, with `callString` the result of `generateCallString` and
`gasPrice` what the caller's variable holds before the call: the flag returned, and the
variable after the call. -/
def getPrice (evm : Evm) (tip : ChainTip) (adjustedTime : ℕ) (callString : Option (List UInt8))
    (gasPrice : ℕ) : Bool × ℕ :=
  match callString with
  | none => (false, gasPrice)
  | some data =>
    match CallContract evm tip adjustedTime LockTripPriceOracleContract data with
    | [] => (false, gasPrice)
    | o :: _ =>
      let gasPrice := abiU256 o % 2 ^ 64
      (true, if gasPrice = 0 then DEFAULT_GAS_PRICE else gasPrice)

end PriceOracle

namespace Lydra

/-- `Lydra::getLockedHydraAmountPerAddress`, reading the LYDRA contract at `lydraAddress`; as
for the gas price, `amount` keeps what it held when the call is not made. -/
def getLockedHydraAmountPerAddress (evm : Evm) (tip : ChainTip) (adjustedTime : ℕ)
    (lydraAddress : Address) (callString : Option (List UInt8)) (amount : ℕ) : Bool × ℕ :=
  match callString with
  | none => (false, amount)
  | some data =>
    match CallContract evm tip adjustedTime lydraAddress data with
    | [] => (false, amount)
    | o :: _ => (true, abiU256 o % 2 ^ 64)

end Lydra

/-- The gas price and gas limit `parseEthTXParams` reads for a contract output: the oracle's
price and the script's limit, or `1` and `INT32_MAX` for a coinstake call; `none` is
`return false`. -/
def ethGasParams (isCoinstakeCall : Bool) (oracleGasPrice gasLimitOfScript : ℕ) :
    Option (ℕ × ℕ) :=
  let gasPrice := if isCoinstakeCall then 1 else oracleGasPrice
  let gasLimit := if isCoinstakeCall then INT32_MAX else gasLimitOfScript
  if !isCoinstakeCall && (INT64_MAX < gasPrice || INT64_MAX < gasLimit) then none
  else if gasPrice ≠ 0 ∧ INT64_MAX / gasPrice < gasLimit then none
  else some (gasPrice, gasLimit)

/-! ## What the answers depend on -/

/-- The environment of a call differs between two nodes only in the timestamp. -/
theorem BuildEVMEnvironment_eq_iff (tip : ChainTip) (t₁ t₂ : ℕ) :
    BuildEVMEnvironment tip t₁ = BuildEVMEnvironment tip t₂ ↔ t₁ = t₂ := by
  constructor
  · intro h
    exact congrArg EnvInfo.timestamp h
  · rintro rfl
    rfl

/-- Non-interference of the clock, for an EVM that does not read the timestamp: two nodes that
share the chain get the same answers from every call, whatever their clocks. -/
theorem CallContract_eq_of_timestamp {evm : Evm}
    (hts : ∀ env t, evm { env with timestamp := t } = evm env) (tip : ChainTip) (t₁ t₂ : ℕ)
    (addrContract : Address) (opcode : List UInt8) :
    CallContract evm tip t₁ addrContract opcode = CallContract evm tip t₂ addrContract opcode := by
  simp only [CallContract, BuildEVMEnvironment]
  rw [← hts ⟨tip.nHeight + 1, t₂, tip.nBits, tip.blockGasLimit, tip.author⟩ t₁]

/-- When the call is made, the gas price does not depend on what the variable held. -/
theorem getPrice_of_callString_some (evm : Evm) (tip : ChainTip) (t : ℕ) (data : List UInt8)
    (g₁ g₂ : ℕ) :
    PriceOracle.getPrice evm tip t (some data) g₁ = PriceOracle.getPrice evm tip t (some data) g₂ :=
  rfl

/-- Without a call string, `getPrice` returns `false` and leaves the variable as it was: in
`parseEthTXParams`, whose `oracleGasPrice` is not initialised and whose caller ignores the flag,
the gas price is whatever the stack held. -/
theorem getPrice_of_callString_none (evm : Evm) (tip : ChainTip) (t g : ℕ) :
    PriceOracle.getPrice evm tip t none g = (false, g) :=
  rfl

/-- A price oracle that quotes `40` before time `1500` and `80` from then on, read by two nodes
that share the chain but whose clocks read `1000` and `2000`. A contract output with a gas limit
of `10000` in a transaction that pays a fee of `500000` passes the gas stipend check on the first
node and fails it on the second. -/
theorem gasStipend_depends_on_clock :
    let evm : Evm := fun env _ _ => List.replicate 31 0 ++ [if env.timestamp < 1500 then 40 else 80]
    let tip : ChainTip := ⟨1000, 7, 0, 40000000⟩
    let price₁ := (PriceOracle.getPrice evm tip 1000 (some [0x98, 0xd5, 0xfd, 0xca]) 0).2
    let price₂ := (PriceOracle.getPrice evm tip 2000 (some [0x98, 0xd5, 0xfd, 0xca]) 0).2
    ethGasParams false price₁ 10000 = some (40, 10000) ∧
      ethGasParams false price₂ 10000 = some (80, 10000) ∧
      stipendStep 500000 0 ⟨⟨5, 0, 42, 0⟩, 10000, price₁, false, 7, 500000, 5, 1⟩ = .ok 400000 ∧
      stipendStep 500000 0 ⟨⟨5, 0, 42, 0⟩, 10000, price₂, false, 7, 500000, 5, 1⟩ =
        .error "bad-txns-fee-notenough" := by
  decide

end HydraNode
