import HydraNode.Lib.Loop
import HydraNode.Lib.OrdMap
import HydraNode.Primitives

/-!
# The LYDRA spending checks

An address that holds LYDRA has part of its coins locked: the LYDRA contract reports a locked
amount per address, and a block may not leave an address with less than that. Two functions
of the node check it with the same code. `CheckBlockLydraSpending` (`validation.cpp`) runs
when a block is connected, over its transactions, with a fresh map of balances.
`BlockAssembler::CheckTransactionLydraSpending` (`miner.cpp`) runs while a block is
assembled, over one package of mempool transactions at a time, with a map of balances that
is a member of the assembler and lives across packages.

For each transaction (coinbase and coinstake aside, for the validator), both functions

1. scan the inputs: every input whose spent coin has a destination adds the coin's value to
   `addresses_inputs` of that destination and records it in the address index set; a
   destination seen for the first time gets its balance from the address index, the sum of
   its unspent outputs without the immature stake outputs;
2. scan the outputs into `addresses_outputs`;
3. check every recorded address once: `balance - inputs + outputs` must not fall below the
   locked amount, and becomes the address's balance.

The two differ in one branch: an input whose coin has no destination is skipped by the
validator and makes the miner return `false`. `checkTx` carries that branch as its
`rejectNoDest` argument.

## What is read from the node

`LydraView` is everything the checks read outside the transactions: the coins of the chain
tip (`pcoinsTip`), the destination extraction of `script/standard.cpp`, the key of the
address index, the unspent outputs the index holds, the height and the maturity, and the
LYDRA contract's locked amount, a parameter of the model that the EVM state provides. The
coin view is the tip's, so a coin created by a transaction of the same block or package is not
in it: the view answers with the null output, which has no destination.

The comparison `balance - inputs + outputs < locked_hydra_amount` compares an `int64_t`
with a `uint64_t`, so the left side is read as unsigned (`toUInt64`).

## Main definitions

* `LydraView`, `AddressUnspent`
* `checkTx` — one transaction, for either caller
* `CheckBlockLydraSpending`, `BlockAssembler.CheckTransactionLydraSpending`
-/

namespace HydraNode

/-- `CAddressUnspentValue`, with the fields the checks read. -/
structure AddressUnspent where
  satoshis : CAmount
  blockHeight : ℤ
  coinStake : Bool
  deriving DecidableEq, Repr

/-- What the LYDRA checks read from the node, for destinations of type `D`. -/
structure LydraView (D : Type*) where
  /-- `CCoinsViewCache(pcoinsTip).GetOutputFor`: the output a coin holds, `CTxOut.null` for
  a coin the tip does not hold. -/
  getOutputFor : COutPoint → CTxOut
  /-- `ExtractDestination(prevout, scriptPubKey, dest)`, for the script of a spent coin. -/
  extractPrevout : COutPoint → CScript → Option D
  /-- `ExtractDestination(scriptPubKey, dest)`, for the script of an output. -/
  extractDestination : CScript → Option D
  /-- `DecodeIndexKey(EncodeDestination(dest), hashBytes, type)`. -/
  indexKey : D → Option (H256 × ℕ)
  /-- `GetAddressUnspent(hashBytes, type, unspentOutputs)`. -/
  getAddressUnspent : H256 → ℕ → Option (List AddressUnspent)
  /-- `chainActive.Height()`. -/
  height : ℤ
  /-- `CoinbaseMaturity(chainActive.Height() + 1)`. -/
  coinbaseMaturity : ℤ
  /-- `Lydra::getLockedHydraAmountPerAddress`, the amount the LYDRA contract locks. -/
  locked : D → ℕ

/-- A map from destinations to balances, `std::map<CTxDestination, CAmount>`: `none` where
the map has no entry. -/
abbrev Balances (D : Type*) := D → Option CAmount

variable {D : Type*} [DecidableEq D] [Inhabited D]

/-- The state of the check of one transaction. -/
structure TxScan (D : Type*) [Inhabited D] where
  /-- `addresses_inputs`. -/
  inputs : D → CAmount := fun _ => 0
  /-- `addresses_outputs`. -/
  outputs : D → CAmount := fun _ => 0
  /-- `addresses_index`, a `std::set` of index keys in their order. -/
  index : OrdMap (H256 ×ₗ ℕ) Unit := ∅
  /-- `addrhash_dest`; `operator[]` reads the default destination where it has no entry. -/
  addrhashDest : H256 → D := fun _ => default

namespace LydraView

variable (v : LydraView D)

/-- `rembalance`: the value of the unspent outputs, without the stake outputs that are not
yet mature. -/
def rembalance (unspent : List AddressUnspent) : CAmount :=
  unspent.foldl (fun acc u =>
    if u.coinStake ∧ v.height - u.blockHeight + 1 < v.coinbaseMaturity then acc
    else acc + u.satoshis) 0

/-- One iteration of the input loop. `false` is the function's `return false`; the balances
keep what was stored before it. -/
def inputStep (rejectNoDest : Bool) (s : Balances D × TxScan D) (txin : CTxIn) :
    Bool × (Balances D × TxScan D) :=
  let prevout := v.getOutputFor txin.prevout
  match v.extractPrevout txin.prevout prevout.scriptPubKey with
  | none => (!rejectNoDest, s)
  | some dest =>
    match v.indexKey dest with
    | none => (false, s)
    | some (hashBytes, type) =>
      let t : TxScan D := { s.2 with
        index := s.2.index.insert (toLex (hashBytes, type)) ()
        addrhashDest := Function.update s.2.addrhashDest hashBytes dest
        inputs := Function.update s.2.inputs dest (s.2.inputs dest + prevout.nValue) }
      if (s.1 dest).isSome then (true, (s.1, t))
      else
        match v.getAddressUnspent hashBytes type with
        | none => (false, (s.1, t))
        | some unspent => (true, (Function.update s.1 dest (some (v.rembalance unspent)), t))

/-- One iteration of the output loop. -/
def outputStep (t : TxScan D) (out : CTxOut) : TxScan D :=
  match v.extractDestination out.scriptPubKey with
  | some dest => { t with outputs := Function.update t.outputs dest (t.outputs dest + out.nValue) }
  | none => t

/-- One iteration of the loop over `addresses_index`, with `addresses_index_checked` as the
list of hashes already checked. The balance is read through `operator[]`; every destination
of the index has one, stored by the input loop. -/
def addressStep (t : TxScan D) (s : Balances D × List H256) (key : H256 ×ₗ ℕ) :
    Bool × (Balances D × List H256) :=
  let hash := (ofLex key).1
  let dest := t.addrhashDest hash
  let balance := (s.1 dest).getD 0 - t.inputs dest + t.outputs dest
  if hash ∉ s.2 ∧ toUInt64 balance < v.locked dest then (false, s)
  else if hash ∉ s.2 then (true, (Function.update s.1 dest (some balance), hash :: s.2))
  else (true, s)

/-- The check of one transaction against the balances, and the balances it leaves. -/
def checkTx (rejectNoDest : Bool) (balances : Balances D) (tx : CTransaction) :
    Bool × Balances D :=
  let r := loopBreak (v.inputStep rejectNoDest) (balances, {}) tx.vin
  if !r.1 then (false, r.2.1)
  else
    let t := tx.vout.foldl v.outputStep r.2.2
    let r' := loopBreak (v.addressStep t) (r.2.1, []) t.index.keys
    (r'.1, r'.2.1)

/-- One iteration of the loop of `CheckBlockLydraSpending`: coinbase and coinstake are
skipped. -/
def blockStep (balances : Balances D) (tx : CTransaction) : Bool × Balances D :=
  if tx.IsCoinBase || tx.IsCoinStake then (true, balances) else v.checkTx false balances tx

end LydraView

/-- `CheckBlockLydraSpending`, over the transactions of a block with a fresh map. -/
def CheckBlockLydraSpending (v : LydraView D) (vtx : List CTransaction) : Bool :=
  (loopBreak v.blockStep (fun _ => none) vtx).1

namespace BlockAssembler

/-- `BlockAssembler::CheckTransactionLydraSpending` over a package, its transactions in the
order of `CTxMemPool::setEntries` (by transaction hash), with the assembler's map
`addresses_balances`; it returns the map as the call leaves it. -/
def CheckTransactionLydraSpending (v : LydraView D) (balances : Balances D)
    (package : List CTransaction) : Bool × Balances D :=
  loopBreak (v.checkTx true) balances package

end BlockAssembler

end HydraNode
