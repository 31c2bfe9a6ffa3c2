import HydraNode.Lib.OrdMap
import HydraNode.Primitives

/-!
# The condensing transaction

After a contract execution the EVM has recorded every value transfer between accounts in
`QtumState::transfers`. `CondensingTX::createCondensingTX` turns them into one ordinary
transaction: it spends the contract outputs (`Vin`s) of every address that took part and pays
each address its new balance, so that the coins held by contracts stay in the UTXO set.

The passes follow `src/qtum/qtumstate.cpp`:

1. `selectionVin` picks, for every address in a transfer, the `Vin` it currently owns. The
   sender's coins are the contract output of the transaction itself when it carries value.
2. `calculatePlusAndMinus` sums what each address receives and sends.
3. `createNewBalances` computes `old + plus - minus` per address, failing on an underflow.
   Its test reads `vins[a]` through `operator[]`, which inserts a default `Vin` for every
   address that had none; `OrdMap.touch` models that insertion.
4. `createVins` spends every `Vin` with a positive value that is alive or not deleted.
5. `createVout` pays every positive balance, in address order, numbering the outputs in
   `nVouts`, and stops with `voutOverflow` once more than `MAX_CONTRACT_VOUTS` are made.

The members of the class are the fields of `CondensingTX`; each pass is a function from it
to it. The EVM is not part of the repository, so what the passes read from the state is a
`CondensingEnv`: the `Vin` lookup `QtumState::vin` and whether an account is alive.

## Main definitions

* `TransferInfo`, `Vin`, `QtumTransaction`, `CondensingEnv`, `CondensingTX`
* `CondensingTX.selectionVin`, `calculatePlusAndMinus`, `createNewBalances`, `createVins`,
  `createVout`, `createCondensingTX`, `createVin`
-/

namespace HydraNode

/-- `TransferInfo`: one transfer of value recorded by `QtumState::transferBalance`. -/
structure TransferInfo where
  «from» : Address
  «to» : Address
  value : U256
  deriving DecidableEq, Repr

/-- `Vin`: the contract output an address currently owns. -/
structure Vin where
  hash : H256
  nVout : ℕ
  value : U256
  alive : UInt8
  deriving DecidableEq, Repr

/-- The value-initialised `Vin{}` that `std::map::operator[]` inserts. -/
def Vin.default : Vin := ⟨0, 0, 0, 0⟩

/-- The fields of `QtumTransaction` that the condensing code reads. -/
structure QtumTransaction where
  sender : Address
  value : U256
  hashWith : H256
  nVout : ℕ
  deriving DecidableEq, Repr

/-- What the condensing code reads from `QtumState`: `vin(a)`, and whether `account(a)`
exists and is alive. -/
structure CondensingEnv where
  vin : Address → Option Vin
  accountAlive : Address → Bool

/-- `MAX_CONTRACT_VOUTS` (`validation.h`). -/
def MAX_CONTRACT_VOUTS : ℕ := 1000

/-- The members of a `CondensingTX` object. -/
structure CondensingTX where
  plusMinusInfo : OrdMap Address (U256 × U256)
  balances : OrdMap Address U256
  nVouts : OrdMap Address ℕ
  vins : OrdMap Address Vin
  transfers : List TransferInfo
  deleteAddresses : List Address
  transaction : QtumTransaction
  voutOverflow : Bool

namespace CondensingTX

/-- The constructor: the maps start empty. -/
def mk' (transfers : List TransferInfo) (transaction : QtumTransaction)
    (deleteAddresses : List Address) : CondensingTX :=
  ⟨∅, ∅, ∅, ∅, transfers, deleteAddresses, transaction, false⟩

/-- `checkDeleteAddress`. -/
def checkDeleteAddress (c : CondensingTX) (addr : Address) : Bool := addr ∈ c.deleteAddresses

/-! ## `selectionVin` -/

/-- Store `state->vin(a)` under `a` when the state has one. -/
def selectStateVin (env : CondensingEnv) (vins : OrdMap Address Vin) (a : Address) :
    OrdMap Address Vin :=
  match env.vin a with
  | some v => vins.insert a v
  | none => vins

/-- The first block of the loop of `selectionVin`: when the source has no `Vin` yet it gets
`state->vin(from)`, and the sender of a value-carrying transaction gets the transaction's
own contract output instead. -/
def selectFromVin (env : CondensingEnv) (tx : QtumTransaction) (vins : OrdMap Address Vin)
    (a : Address) : OrdMap Address Vin :=
  if vins.contains a then vins
  else
    let vins := selectStateVin env vins a
    if a = tx.sender ∧ 0 < tx.value then vins.insert a ⟨tx.hashWith, tx.nVout, tx.value, 1⟩
    else vins

/-- The second block: when the target has no `Vin` yet it gets `state->vin(to)`. -/
def selectToVin (env : CondensingEnv) (vins : OrdMap Address Vin) (a : Address) :
    OrdMap Address Vin :=
  if vins.contains a then vins else selectStateVin env vins a

/-- One iteration of the loop of `selectionVin`. -/
def selectionVinStep (env : CondensingEnv) (tx : QtumTransaction) (vins : OrdMap Address Vin)
    (ti : TransferInfo) : OrdMap Address Vin :=
  selectToVin env (selectFromVin env tx vins ti.from) ti.to

/-- `selectionVin`. -/
def selectionVin (env : CondensingEnv) (c : CondensingTX) : CondensingTX :=
  { c with vins := c.transfers.foldl (selectionVinStep env c.transaction) c.vins }

/-! ## `calculatePlusAndMinus` -/

/-- One update of `plusMinusInfo[a]`: a new entry `fresh` when `a` has none (`!count`),
else the stored pair updated by `f`. -/
def recordFlow (pm : OrdMap Address (U256 × U256)) (a : Address) (fresh : U256 × U256)
    (f : U256 × U256 → U256 × U256) : OrdMap Address (U256 × U256) :=
  match pm.find? a with
  | none => pm.insert a fresh
  | some p => pm.insert a (f p)

/-- One iteration of the loop of `calculatePlusAndMinus`: the sender's minus and the
receiver's plus grow by the value. -/
def plusMinusStep (pm : OrdMap Address (U256 × U256)) (ti : TransferInfo) :
    OrdMap Address (U256 × U256) :=
  let pm := recordFlow pm ti.from (0, ti.value) fun p => (p.1, p.2 + ti.value)
  recordFlow pm ti.to (ti.value, 0) fun p => (p.1 + ti.value, p.2)

/-- `calculatePlusAndMinus`. -/
def calculatePlusAndMinus (c : CondensingTX) : CondensingTX :=
  { c with plusMinusInfo := c.transfers.foldl plusMinusStep c.plusMinusInfo }

/-! ## `createNewBalances` -/

/-- The test of `createNewBalances`,
`(vins.count(a) && vins[a].alive) || (!vins[a].alive && !checkDeleteAddress(a))`, read on
the map after `operator[]` has inserted its default. -/
def countsOldValue (c : CondensingTX) (vins : OrdMap Address Vin) (a : Address) : Bool :=
  let v := (vins.touch a Vin.default).findD a Vin.default
  (vins.contains a && v.alive != 0) || (v.alive == 0 && !c.checkDeleteAddress a)

/-- One iteration of `createNewBalances`: `none` is the early `return false`. Besides the
balance it records, the iteration leaves the default `Vin` that `operator[]` inserted. -/
def newBalanceStep (c : CondensingTX) (vins : OrdMap Address Vin)
    (balances : OrdMap Address U256) (a : Address) (p : U256 × U256) :
    Option (OrdMap Address Vin × OrdMap Address U256) :=
  let vins' := vins.touch a Vin.default
  let balance : U256 := if c.countsOldValue vins a then (vins'.findD a Vin.default).value else 0
  let balance := balance + p.1
  if balance < p.2 then none
  else some (vins', balances.insert a (balance - p.2))

/-- The loop of `createNewBalances` over the entries of `plusMinusInfo`, in address order.
On failure the maps keep what the iterations before the failing one wrote. -/
def newBalancesLoop (c : CondensingTX) :
    List (Address × (U256 × U256)) → OrdMap Address Vin → OrdMap Address U256 →
      Bool × OrdMap Address Vin × OrdMap Address U256
  | [], vins, balances => (true, vins, balances)
  | (a, p) :: rest, vins, balances =>
    match c.newBalanceStep vins balances a p with
    | none => (false, vins.touch a Vin.default, balances)
    | some (vins', balances') => newBalancesLoop c rest vins' balances'

/-- `createNewBalances`. -/
def createNewBalances (c : CondensingTX) : Bool × CondensingTX :=
  let r := c.newBalancesLoop c.plusMinusInfo.entries c.vins c.balances
  (r.1, { c with vins := r.2.1, balances := r.2.2 })

/-! ## `createVins` and `createVout` -/

/-- The scriptSig of a condensing input, `CScript() << OP_SPEND`. -/
def spendScript : CScript := CScript.pushOp [] OP_SPEND

/-- The test of `createVins`; `vins[v.first]` is the entry itself. -/
def spendsVin (c : CondensingTX) (a : Address) (v : Vin) : Bool :=
  (0 < v.value && v.alive != 0) || (0 < v.value && v.alive == 0 && !c.checkDeleteAddress a)

/-- `createVins`: one `OP_SPEND` input per spent `Vin`, in address order. -/
def createVins (c : CondensingTX) : List CTxIn :=
  c.vins.entries.filterMap fun e =>
    if c.spendsVin e.1 e.2 then some ⟨⟨e.2.hash, e.2.nVout⟩, spendScript⟩ else none

/-- The output script for `a`: a no-exec call when `a` is a live account, else pay to
public key hash. -/
def voutScript (env : CondensingEnv) (a : Address) : CScript :=
  if env.accountAlive a then
    let s := CScript.pushData (CScript.pushData (CScript.pushData [] [0]) [0]) [0]
    CScript.pushOp (CScript.pushData s a.asBytes) OP_CALL
  else
    let s := CScript.pushData (CScript.pushOp (CScript.pushOp [] OP_DUP) OP_HASH160) a.asBytes
    CScript.pushOp (CScript.pushOp s OP_EQUALVERIFY) OP_CHECKSIG

/-- The loop of `createVout` over the entries of `balances`: outputs so far, the output
counter, `nVouts`, and whether the limit was passed. -/
def voutLoop (env : CondensingEnv) :
    List (Address × U256) → List CTxOut → ℕ → OrdMap Address ℕ →
      List CTxOut × OrdMap Address ℕ × Bool
  | [], outs, _, nVouts => (outs, nVouts, false)
  | (a, b) :: rest, outs, count, nVouts =>
    let (outs, count, nVouts) :=
      if 0 < b then
        (outs ++ [⟨amountOfU256 b, voutScript env a⟩], count + 1, nVouts.insert a count)
      else (outs, count, nVouts)
    if MAX_CONTRACT_VOUTS < count then (outs, nVouts, true)
    else voutLoop env rest outs count nVouts

/-- `createVout`. -/
def createVout (env : CondensingEnv) (c : CondensingTX) : List CTxOut × CondensingTX :=
  let r := voutLoop env c.balances.entries [] 0 c.nVouts
  (r.1, { c with nVouts := r.2.1, voutOverflow := c.voutOverflow || r.2.2 })

/-- `createCondensingTX`, returning the transaction and the object as it is left: its
`balances`, `nVouts` and `voutOverflow` are read afterwards by `createVin` and
`reachedVoutLimit`. -/
def createCondensingTX (env : CondensingEnv) (c : CondensingTX) : CTransaction × CondensingTX :=
  let c := (c.selectionVin env).calculatePlusAndMinus
  let (ok, c) := c.createNewBalances
  if !ok then (CTransaction.empty, c)
  else
    let vin := c.createVins
    let (vout, c) := c.createVout env
    (if vin.isEmpty || vout.isEmpty then CTransaction.empty else ⟨vin, vout⟩, c)

/-- `createVin`: the `Vin` that every address of `balances` but the sender owns once the
condensing transaction is in a block: the output paying its positive balance, or a dead `Vin`
of value `0`. The transaction enters only through its hash `uintToh256(tx.GetHash())`, which is
`txHash` here. `nVouts[a]` reads `0` for an address that was not paid; the insertion that
`operator[]` then makes is never read again. The `std::unordered_map` that the source returns
has one entry per address, listed here in the order of `balances`. -/
def createVin (c : CondensingTX) (txHash : H256) : List (Address × Vin) :=
  c.balances.entries.filterMap fun e =>
    if e.1 = c.transaction.sender then none
    else if 0 < e.2 then some (e.1, ⟨txHash, c.nVouts.findD e.1 0, e.2, 1⟩)
    else some (e.1, ⟨txHash, 0, 0, 0⟩)

end CondensingTX

end HydraNode
