import HydraNode.Primitives

/-!
# Coins and the view of the unspent outputs

A `Coin` (`coins.h`) is an unspent output together with the height of the block that created
it and whether its transaction is a coinbase or a coinstake. The height is kept in a 30-bit
field, so `Coin(out, nHeight, ...)` stores `nHeight` modulo `2 ^ 30`.

`CoinsMap` is what a coins view (`CCoinsView`) stands for: the partial map from outpoints to
the unspent coins it holds. The operations of `CCoinsViewCache` act on this map as
`CoinsMap.SpendCoin`, `CoinsMap.AddCoin`, `CoinsMap.HaveCoin` and `CoinsMap.AccessCoin` do;
the flags of the cache only decide what it writes to its parent, and `possible_overwrite`
steers those flags, so it does not appear here. `AccessByTxid` searches the outputs of one
transaction for an unspent one.

## Main definitions

* `Coin`, `Coin.ofTxOut`, `Coin.IsSpent`, `CScript.IsUnspendable`
* `CoinsMap` and its operations
-/

namespace HydraNode

/-- `OP_RETURN`. -/
def OP_RETURN : UInt8 := 0x6a

/-- `MAX_SCRIPT_SIZE`. -/
def MAX_SCRIPT_SIZE : ℕ := 129000

/-- `CScript::IsUnspendable`: a script that starts with `OP_RETURN` or is too long. Such an
output is never added to a coins view. -/
def CScript.IsUnspendable (s : CScript) : Bool :=
  s.head? == some OP_RETURN || decide (MAX_SCRIPT_SIZE < s.length)

/-- `Coin`: an unspent output, whether its transaction is a coinbase or a coinstake, and the
height of its block. -/
structure Coin where
  out : CTxOut
  fCoinBase : Bool
  fCoinStake : Bool
  nHeight : ℕ
  deriving DecidableEq, Repr

/-- `Coin(out, nHeight, fCoinBase, fCoinStake)`: `nHeight` goes into a 30-bit field. -/
def Coin.ofTxOut (out : CTxOut) (nHeight : ℕ) (fCoinBase fCoinStake : Bool) : Coin :=
  ⟨out, fCoinBase, fCoinStake, nHeight % 2 ^ 30⟩

/-- `Coin()`, the coin `Coin::Clear` leaves and `coinEmpty`: a null output. -/
def Coin.empty : Coin := ⟨CTxOut.null, false, false, 0⟩

/-- `Coin::IsSpent`: `out.IsNull()`, an output of value `-1`. -/
def Coin.IsSpent (c : Coin) : Bool := c.out.nValue == -1

@[simp] theorem Coin.IsSpent_empty : Coin.empty.IsSpent = true := rfl

theorem Coin.nHeight_ofTxOut_of_lt {out : CTxOut} {nHeight : ℕ} (h : nHeight < 2 ^ 30)
    (fCoinBase fCoinStake : Bool) : (Coin.ofTxOut out nHeight fCoinBase fCoinStake).nHeight = nHeight :=
  Nat.mod_eq_of_lt h

/-- The unspent coins of a coins view: what `GetCoin` answers for each outpoint. -/
abbrev CoinsMap := COutPoint → Option Coin

/-- `MAX_OUTPUTS_PER_BLOCK = dgpMaxBlockWeight / MIN_TRANSACTION_OUTPUT_WEIGHT`, with the
initial block weight `8000000` and `WITNESS_SCALE_FACTOR` times the 9 bytes of `CTxOut()`. -/
def MAX_OUTPUTS_PER_BLOCK : ℕ := 8000000 / (4 * 9)

namespace CoinsMap

variable (view : CoinsMap)

/-- `HaveCoin`. -/
def HaveCoin (outpoint : COutPoint) : Bool := (view outpoint).isSome

/-- `AccessCoin`: the coin, or `coinEmpty`. -/
def AccessCoin (outpoint : COutPoint) : Coin := (view outpoint).getD Coin.empty

/-- `SpendCoin(outpoint, &moveout)`: whether the view held a coin, the coin moved out, and the
view without it. -/
def SpendCoin (outpoint : COutPoint) : Bool × Coin × CoinsMap :=
  match view outpoint with
  | some coin => (true, coin, Function.update view outpoint none)
  | none => (false, Coin.empty, view)

/-- `AddCoin(outpoint, coin, possible_overwrite)`: the coin is assigned, unless its output is
unspendable. `none` is the failed `assert(!coin.IsSpent())`. -/
def AddCoin (outpoint : COutPoint) (coin : Coin) : Option CoinsMap :=
  if coin.IsSpent then none
  else if coin.out.scriptPubKey.IsUnspendable then some view
  else some (Function.update view outpoint (some coin))

/-- `AccessByTxid`: the coin of the first unspent output of `txid`, or `coinEmpty`. -/
def AccessByTxid (txid : H256) : Coin :=
  ((List.range MAX_OUTPUTS_PER_BLOCK).findSome? fun n => view ⟨txid, n⟩).getD Coin.empty

variable {view}

theorem SpendCoin_of_eq_some {outpoint : COutPoint} {coin : Coin} (h : view outpoint = some coin) :
    view.SpendCoin outpoint = (true, coin, Function.update view outpoint none) := by
  simp [SpendCoin, h]

theorem AddCoin_of_unspent {outpoint : COutPoint} {coin : Coin} (h : coin.IsSpent = false) :
    view.AddCoin outpoint coin = some (if coin.out.scriptPubKey.IsUnspendable then view
      else Function.update view outpoint (some coin)) := by
  unfold AddCoin
  split_ifs <;> simp_all

/-- A view that holds no output of `txid` answers `coinEmpty`. -/
theorem AccessByTxid_of_forall {txid : H256} (h : ∀ n, view ⟨txid, n⟩ = none) :
    view.AccessByTxid txid = Coin.empty := by
  simp [AccessByTxid, List.findSome?_eq_none_iff.mpr fun n _ => h n]

end CoinsMap

end HydraNode
