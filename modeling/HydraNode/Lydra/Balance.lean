import HydraNode.Lydra.Spending

/-!
# The LYDRA lock, stated on what an address owns

What the LYDRA check is for: after each transaction in which an address spends, what the
address owns must not be below its locked amount. The address owns its balance in the
address index before the block, plus what the block's transactions pay it, minus the coins
it spends, whether a coin is in the tip or was created earlier in the same block.
`lockRespected` states that, reading a coin through `coinAfter`, the tip extended by the
outputs of the block's earlier transactions; `getHash` is `CTransaction::GetHash`.

`CheckBlockLydraSpending` reads every coin through the tip alone. A coin created earlier in
the block is not there, so its spender is skipped, and an address can move coins it
received in the block without being checked. `CheckBlockLydraSpending_accepts_unlocked` is
such a block: the address ends below its lock, and the check accepts.

## Main definitions

* `LydraView.coinAfter`, `LydraView.spenders`, `LydraView.netAfter`
* `LydraView.lockRespected`

## Main results

* `CheckBlockLydraSpending_accepts_unlocked`
-/

namespace HydraNode

namespace LydraView

variable {D : Type*} [DecidableEq D] [Inhabited D] (v : LydraView D)
  (getHash : CTransaction → H256)

/-- The output an outpoint names once the transactions `done` of the block are connected:
an output of one of them, else the tip's coin. -/
def coinAfter (done : List CTransaction) (o : COutPoint) : CTxOut :=
  match done.find? (fun tx => getHash tx = o.hash) with
  | some tx => tx.vout.getD o.n CTxOut.null
  | none => v.getOutputFor o

/-- The destination that owns the coin an input spends, after `done`. -/
def ownerAfter (done : List CTransaction) (txin : CTxIn) : Option D :=
  v.extractPrevout txin.prevout (v.coinAfter getHash done txin.prevout).scriptPubKey

/-- What `a` receives in `tx`. -/
def received (a : D) (tx : CTransaction) : CAmount :=
  (tx.vout.map fun o => if v.extractDestination o.scriptPubKey = some a then o.nValue else 0).sum

/-- What `a` spends in `tx`, after `done`. -/
def spent (done : List CTransaction) (a : D) (tx : CTransaction) : CAmount :=
  (tx.vin.map fun i =>
    if v.ownerAfter getHash done i = some a then (v.coinAfter getHash done i.prevout).nValue
    else 0).sum

/-- The destinations that spend in `tx`, after `done`. -/
def spenders (done : List CTransaction) (tx : CTransaction) : List D :=
  tx.vin.filterMap (v.ownerAfter getHash done)

/-- The balance of `a` in the address index before the block. -/
def indexBalance (a : D) : CAmount :=
  match v.indexKey a with
  | some (hashBytes, type) => ((v.getAddressUnspent hashBytes type).map v.rembalance).getD 0
  | none => 0

/-- How the holdings of `a` change over the transactions `txs` of a block, each read after
those before it. -/
def netAfter (a : D) (txs : List CTransaction) : CAmount :=
  (txs.foldl (fun p tx => (p.1 ++ [tx], p.2 + v.received a tx - v.spent getHash p.1 a tx))
    ([], 0)).2

/-- The lock holds over the transactions `rest` that follow `done`. -/
def lockRespectedFrom : List CTransaction → List CTransaction → Bool
  | _, [] => true
  | done, tx :: rest =>
    (tx.IsCoinBase || tx.IsCoinStake || (v.spenders getHash done tx).all fun a =>
      decide ((v.locked a : ℤ) ≤ v.indexBalance a + v.netAfter getHash a (done ++ [tx]))) &&
      lockRespectedFrom (done ++ [tx]) rest

/-- The lock holds over the block `vtx`: after each transaction other than coinbase and
coinstake, every destination that spends in it owns at least its locked amount. -/
def lockRespected (vtx : List CTransaction) : Bool := v.lockRespectedFrom getHash [] vtx

end LydraView

/-- A block that moves locked coins. Address `1` owns two coins of `5`, all locked; address
`2` owns `1000`. `T₁` spends a coin of `1` and the coin of `2`, pays `1000` to `1` and `5` to
`3`; `T₂` spends that output of `1000` and pays it to `2`. After `T₂`, `1` owns `5`, below its
lock of `10`. The check reads `T₂`'s coin through the tip, which does not hold it, and so
never checks `1` there. -/
theorem CheckBlockLydraSpending_accepts_unlocked :
    CheckBlockLydraSpending (D := ℕ) ⟨fun o => if o.hash = 1 then ⟨5, [1]⟩
        else if o.hash = 2 then ⟨1000, [2]⟩ else CTxOut.null,
      fun _ s => if s.length = 1 then some (s.headD 0).toNat else none,
      fun s => if s.length = 1 then some (s.headD 0).toNat else none,
      fun d => some (U256.ofNat d, 1),
      fun h _ => some (if h = 1 then [⟨5, 0, false⟩, ⟨5, 0, false⟩]
        else if h = 2 then [⟨1000, 0, false⟩] else []),
      100, 500, fun d => if d = 1 then 10 else 0⟩
      [⟨[⟨⟨0, COutPoint.NULL_INDEX⟩, []⟩], [⟨0, [3]⟩]⟩,
        ⟨[⟨⟨1, 0⟩, []⟩, ⟨⟨2, 0⟩, []⟩], [⟨1000, [1]⟩, ⟨5, [3]⟩]⟩,
        ⟨[⟨⟨77, 0⟩, []⟩], [⟨1000, [2]⟩]⟩] = true ∧
    LydraView.lockRespected (D := ℕ) ⟨fun o => if o.hash = 1 then ⟨5, [1]⟩
        else if o.hash = 2 then ⟨1000, [2]⟩ else CTxOut.null,
      fun _ s => if s.length = 1 then some (s.headD 0).toNat else none,
      fun s => if s.length = 1 then some (s.headD 0).toNat else none,
      fun d => some (U256.ofNat d, 1),
      fun h _ => some (if h = 1 then [⟨5, 0, false⟩, ⟨5, 0, false⟩]
        else if h = 2 then [⟨1000, 0, false⟩] else []),
      100, 500, fun d => if d = 1 then 10 else 0⟩
      (fun tx => if tx.vout.length = 2 then 77 else 0)
      [⟨[⟨⟨0, COutPoint.NULL_INDEX⟩, []⟩], [⟨0, [3]⟩]⟩,
        ⟨[⟨⟨1, 0⟩, []⟩, ⟨⟨2, 0⟩, []⟩], [⟨1000, [1]⟩, ⟨5, [3]⟩]⟩,
        ⟨[⟨⟨77, 0⟩, []⟩], [⟨1000, [2]⟩]⟩] = false := by
  constructor <;> decide +kernel

end HydraNode
