import HydraNode.Coins.View

/-!
# Connecting and disconnecting the coins of a block

`ConnectBlock` applies `UpdateCoins` to each transaction of a block: the coins its inputs spend
are moved into its undo data (`CTxUndo`), and its outputs become coins of the block's height
(`AddCoins`). The undo data of the transactions after the coinbase are kept in the block's undo
record. `DisconnectBlock` walks the block backwards: it spends every output again, checking it
against the block, and puts back the coins of the inputs from the undo data, last input first
(`ApplyTxInUndo`).

`ApplyTxInUndo` has a legacy path: an undo coin of height `0` is taken to be missing its
metadata, which it copies from another unspent output of the same transaction, and without one
the disconnection fails. A spent coin of height `0` whose transaction has no other unspent
output therefore cannot be put back (`DisconnectBlock_legacy_undo_fails`); and the height is
kept in 30 bits, so the coins of a block at a height of `2 ^ 30` or more do not compare equal to
its outputs. Apart from these, disconnecting a block undoes connecting it and reports a clean
disconnect (`DisconnectBlock_undoes_ConnectBlockCoins`).

## Main definitions

* `UpdateCoins`, `AddCoins`, `ConnectBlockCoins`
* `ApplyTxInUndo`, `DisconnectBlock`
* `TxUndoable`, `BlockUndoable` — what the transactions of a block need for the round trip

## Main results

* `foldlM_AddCoin`, `foldlM_spendInputStep`, `foldl_spendOutputStep`, `foldrM_restoreStep` —
  the four loops
* `UpdateCoins_eq`, `disconnectTx_UpdateCoins` — one transaction
* `DisconnectBlock_undoes_ConnectBlockCoins`, and `DisconnectBlock_legacy_undo_fails`
-/

namespace HydraNode

/-- `CTxUndo`: the coins the inputs of a transaction spent, in input order (`vprevout`). -/
abbrev CTxUndo := List Coin

/-- `DisconnectResult`. -/
inductive DisconnectResult
  | DISCONNECT_OK
  | DISCONNECT_UNCLEAN
  | DISCONNECT_FAILED
  deriving DecidableEq, Repr

open DisconnectResult

/-! ## Connecting -/

/-- `AddCoins(cache, tx, nHeight)`: output `i` of `tx` becomes a coin at `COutPoint(txid, i)`.
The flag `possible_overwrite` it passes is `fCoinbase`. -/
def AddCoins (view : CoinsMap) (txid : H256) (tx : CTransaction) (nHeight : ℕ) :
    Option CoinsMap :=
  tx.vout.zipIdx.foldlM (fun v p =>
    v.AddCoin ⟨txid, p.2⟩ (Coin.ofTxOut p.1 nHeight tx.IsCoinBase tx.IsCoinStake)) view

/-- One input of the loop of `UpdateCoins`: the input's coin is spent and moved to the end of
the undo data. `none` is the failed `assert(is_spent)`. -/
def spendInputStep (s : CTxUndo × CoinsMap) (txin : CTxIn) : Option (CTxUndo × CoinsMap) :=
  match s.2.SpendCoin txin.prevout with
  | (true, coin, v) => some (s.1 ++ [coin], v)
  | (false, _, _) => none

/-- The input loop of `UpdateCoins`. -/
def spendInputs (view : CoinsMap) (vin : List CTxIn) : Option (CTxUndo × CoinsMap) :=
  vin.foldlM spendInputStep ([], view)

/-- `UpdateCoins(tx, inputs, txundo, nHeight)`: the inputs of a transaction that is not a
coinbase are spent into `txundo`, then the outputs are added. -/
def UpdateCoins (view : CoinsMap) (txid : H256) (tx : CTransaction) (nHeight : ℕ) :
    Option (CTxUndo × CoinsMap) := do
  let (txundo, inputs) ← if tx.IsCoinBase then some ([], view) else spendInputs view tx.vin
  let inputs ← AddCoins inputs txid tx nHeight
  return (txundo, inputs)

/-- One transaction of the loop of `ConnectBlock`, at index `entry.2` of the block: the undo
data of a transaction after the first is appended to `blockundo`, the first's goes to
`undoDummy`. -/
def connectTx (getHash : CTransaction → H256) (nHeight : ℕ) (s : List CTxUndo × CoinsMap)
    (entry : CTransaction × ℕ) : Option (List CTxUndo × CoinsMap) :=
  (UpdateCoins s.2 (getHash entry.1) entry.1 nHeight).map fun r =>
    (if entry.2 = 0 then s.1 else s.1 ++ [r.1], r.2)

/-- The coins of `ConnectBlock`: `UpdateCoins` on each transaction in block order. -/
def ConnectBlockCoins (getHash : CTransaction → H256) (view : CoinsMap) (vtx : List CTransaction)
    (nHeight : ℕ) : Option (List CTxUndo × CoinsMap) :=
  vtx.zipIdx.foldlM (connectTx getHash nHeight) ([], view)

/-! ## Disconnecting -/

/-- `ApplyTxInUndo(undo, view, out)`. An undo coin of height `0` takes its height and coinbase
flag from another unspent output of its transaction, and fails without one. `none` is the
failed assertion of `AddCoin`. -/
def ApplyTxInUndo (undo : Coin) (view : CoinsMap) (out : COutPoint) :
    Option (DisconnectResult × CoinsMap) :=
  let fClean := !view.HaveCoin out
  let undo? : Option Coin :=
    if undo.nHeight = 0 then
      let alternate := view.AccessByTxid out.hash
      if !alternate.IsSpent then
        some { undo with nHeight := alternate.nHeight, fCoinBase := alternate.fCoinBase }
      else none
    else some undo
  match undo? with
  | none => some (DISCONNECT_FAILED, view)
  | some undo =>
    (view.AddCoin out undo).map fun v => (if fClean then DISCONNECT_OK else DISCONNECT_UNCLEAN, v)

/-- One input of the restore loop of `DisconnectBlock`. The status is `DISCONNECT_OK` while
`fClean` holds and `DISCONNECT_UNCLEAN` after; `DISCONNECT_FAILED` returns from the function,
so a loop that has failed does nothing more. -/
def restoreStep (s : DisconnectResult × CoinsMap) (input : CTxIn × Coin) :
    Option (DisconnectResult × CoinsMap) :=
  if s.1 = DISCONNECT_FAILED then some s
  else
    (ApplyTxInUndo input.2 s.2 input.1.prevout).map fun r =>
      (if r.1 = DISCONNECT_FAILED then DISCONNECT_FAILED
        else if r.1 = DISCONNECT_UNCLEAN then DISCONNECT_UNCLEAN else s.1, r.2)

/-- One output of the output loop of `DisconnectBlock`: a spendable output is spent, and the
disconnect is unclean unless the coin was there with the block's output, height and flags. -/
def spendOutputStep (txid : H256) (tx : CTransaction) (nHeight : ℕ)
    (s : DisconnectResult × CoinsMap) (output : CTxOut × ℕ) : DisconnectResult × CoinsMap :=
  if output.1.scriptPubKey.IsUnspendable then s
  else
    let r := s.2.SpendCoin ⟨txid, output.2⟩
    let ok := r.1 && r.2.1.out == output.1 && r.2.1.nHeight == nHeight &&
      r.2.1.fCoinBase == tx.IsCoinBase && r.2.1.fCoinStake == tx.IsCoinStake
    (if ok then s.1 else DISCONNECT_UNCLEAN, r.2.2)

/-- One transaction of the loop of `DisconnectBlock`, at index `entry.2` of the block: its
outputs are spent, then, after the coinbase, its inputs are restored from `blockUndo`. -/
def disconnectTx (getHash : CTransaction → H256) (nHeight : ℕ) (blockUndo : List CTxUndo)
    (s : DisconnectResult × CoinsMap) (entry : CTransaction × ℕ) :
    Option (DisconnectResult × CoinsMap) :=
  if s.1 = DISCONNECT_FAILED then some s
  else
    let tx := entry.1
    let s := tx.vout.zipIdx.foldl (spendOutputStep (getHash tx) tx nHeight) s
    if entry.2 = 0 then some s
    else
      let txundo := blockUndo.getD (entry.2 - 1) []
      if txundo.length ≠ tx.vin.length then some (DISCONNECT_FAILED, s.2)
      else (tx.vin.zip txundo).reverse.foldlM restoreStep s

/-- The coins of `CChainState::DisconnectBlock` for a block at height `nHeight` with the undo
record `blockUndo`: the transactions in reverse order. `none` is a failed assertion. -/
def DisconnectBlock (getHash : CTransaction → H256) (view : CoinsMap) (vtx : List CTransaction)
    (blockUndo : List CTxUndo) (nHeight : ℕ) : Option (DisconnectResult × CoinsMap) :=
  if blockUndo.length + 1 ≠ vtx.length then some (DISCONNECT_FAILED, view)
  else vtx.zipIdx.reverse.foldlM (disconnectTx getHash nHeight blockUndo) (DISCONNECT_OK, view)

/-! ## The coins a transaction adds -/

section outputs

variable (txid : H256) (nHeight : ℕ) (fCoinBase fCoinStake : Bool)

/-- The coins the outputs `outs`, numbered from `k`, add as outputs of `txid`. -/
def outputCoins : ℕ → List CTxOut → CoinsMap
  | _, [] => fun _ => none
  | k, out :: outs => fun o =>
    if o = ⟨txid, k⟩ ∧ out.scriptPubKey.IsUnspendable = false then
      some (Coin.ofTxOut out nHeight fCoinBase fCoinStake)
    else outputCoins (k + 1) outs o

theorem outputCoins_of_lt {o : COutPoint} : ∀ {k : ℕ} (outs : List CTxOut), o.n < k →
    outputCoins txid nHeight fCoinBase fCoinStake k outs o = none
  | _, [], _ => rfl
  | k, out :: outs, h => by
    have hne : o ≠ ⟨txid, k⟩ := fun he => by rw [he] at h; exact lt_irrefl k h
    simp only [outputCoins, hne, false_and, if_false]
    exact outputCoins_of_lt outs (Nat.lt_succ_of_lt h)

theorem outputCoins_cons_of_ne {o : COutPoint} {k : ℕ} {out : CTxOut} {outs : List CTxOut}
    (h : o ≠ ⟨txid, k⟩) :
    outputCoins txid nHeight fCoinBase fCoinStake k (out :: outs) o =
      outputCoins txid nHeight fCoinBase fCoinStake (k + 1) outs o := by
  simp [outputCoins, h]

/-- Every coin `outputCoins` adds sits at an output of `txid` whose script is spendable. -/
theorem outputCoins_isSome {o : COutPoint} : ∀ {k : ℕ} {outs : List CTxOut},
    (outputCoins txid nHeight fCoinBase fCoinStake k outs o).isSome →
      o.hash = txid ∧ ∃ out, outs[o.n - k]? = some out ∧ k ≤ o.n ∧
        out.scriptPubKey.IsUnspendable = false
  | _, [], h => by cases h
  | k, out :: outs, h => by
    by_cases ho : o = ⟨txid, k⟩ ∧ out.scriptPubKey.IsUnspendable = false
    · obtain ⟨rfl, hs⟩ := ho
      exact ⟨rfl, out, by simp, le_rfl, hs⟩
    · simp only [outputCoins, ho, if_false] at h
      obtain ⟨hh, out', hget, hk, hs⟩ := outputCoins_isSome h
      refine ⟨hh, out', ?_, Nat.le_of_succ_le hk, hs⟩
      rw [show o.n - k = o.n - (k + 1) + 1 by omega]
      simpa using hget

/-- The loop of `AddCoins` adds the coins of the outputs. The induction is on the outputs. -/
theorem foldlM_AddCoin : ∀ (outs : List CTxOut), (∀ out ∈ outs, out.nValue ≠ -1) →
    ∀ (k : ℕ) (w : CoinsMap),
    (outs.zipIdx k).foldlM (fun v p =>
      v.AddCoin ⟨txid, p.2⟩ (Coin.ofTxOut p.1 nHeight fCoinBase fCoinStake)) w =
      some fun o => (outputCoins txid nHeight fCoinBase fCoinStake k outs o).or (w o)
  | [], _, _, w => by
    simp only [List.zipIdx_nil, List.foldlM_nil, outputCoins, Option.none_or]
    rfl
  | out :: outs, hnull, k, w => by
    have hspent : (Coin.ofTxOut out nHeight fCoinBase fCoinStake).IsSpent = false := by
      simpa [Coin.IsSpent, Coin.ofTxOut] using hnull out List.mem_cons_self
    rw [List.zipIdx_cons, List.foldlM_cons, CoinsMap.AddCoin_of_unspent hspent]
    simp only [Option.bind_eq_bind, Option.bind_some]
    rw [foldlM_AddCoin outs (fun o ho => hnull o (List.mem_cons_of_mem out ho)) (k + 1)]
    congr 1
    funext o
    -- the new coin sits at `⟨txid, k⟩`, below the numbers of the later outputs
    by_cases ho : o = ⟨txid, k⟩
    · subst ho
      have hlt : (⟨txid, k⟩ : COutPoint).n < k + 1 := Nat.lt_succ_self k
      simp only [outputCoins_of_lt txid nHeight fCoinBase fCoinStake outs hlt, Option.none_or,
        outputCoins, true_and]
      split_ifs <;> simp_all [Coin.ofTxOut]
    · rw [outputCoins_cons_of_ne txid nHeight fCoinBase fCoinStake ho]
      split_ifs <;> simp [Function.update_of_ne ho]

/-- The coins of the later outputs: every coin of `outputCoins` from `k + 1` is one from `k`. -/
theorem outputCoins_isSome_of_succ {o : COutPoint} {k : ℕ} {out : CTxOut} {outs : List CTxOut}
    (h : (outputCoins txid nHeight fCoinBase fCoinStake (k + 1) outs o).isSome) :
    (outputCoins txid nHeight fCoinBase fCoinStake k (out :: outs) o).isSome := by
  have hne : o ≠ ⟨txid, k⟩ := by
    rintro rfl
    rw [outputCoins_of_lt txid nHeight fCoinBase fCoinStake outs (Nat.lt_succ_self k)] at h
    cases h
  rwa [outputCoins_cons_of_ne txid nHeight fCoinBase fCoinStake hne]

end outputs

/-! ## Disconnecting the outputs -/

section disconnect

variable {nHeight : ℕ} (txid : H256) (tx : CTransaction)

/-- The step of the output loop of `DisconnectBlock` on the first of the outputs whose coins
`outputCoins` adds in front of `w`: it takes back that coin, which matches the block, and
leaves the coins of the other outputs. -/
theorem spendOutputStep_outputCoins (hH : nHeight < 2 ^ 30) (r : DisconnectResult)
    {out : CTxOut} {outs : List CTxOut} {k : ℕ} {w : CoinsMap}
    (hfresh : ∀ o, (outputCoins txid nHeight tx.IsCoinBase tx.IsCoinStake k (out :: outs) o).isSome →
      w o = none) :
    spendOutputStep txid tx nHeight
        (r, fun o => (outputCoins txid nHeight tx.IsCoinBase tx.IsCoinStake k (out :: outs) o).or
          (w o)) (out, k) =
      (r, fun o => (outputCoins txid nHeight tx.IsCoinBase tx.IsCoinStake (k + 1) outs o).or
        (w o)) := by
  have hlt : (⟨txid, k⟩ : COutPoint).n < k + 1 := Nat.lt_succ_self k
  by_cases hs : out.scriptPubKey.IsUnspendable = true
  · -- an unspendable output added no coin and is skipped
    simp only [spendOutputStep, hs, if_true, Prod.mk.injEq, true_and]
    funext o
    simp [outputCoins, hs]
  · have hs' : out.scriptPubKey.IsUnspendable = false := by simpa using hs
    have hcoin : (outputCoins txid nHeight tx.IsCoinBase tx.IsCoinStake k (out :: outs)
        ⟨txid, k⟩).isSome := by simp [outputCoins, hs']
    simp only [spendOutputStep, hs', Bool.false_eq_true, if_false]
    rw [@CoinsMap.SpendCoin_of_eq_some
      (fun o => (outputCoins txid nHeight tx.IsCoinBase tx.IsCoinStake k (out :: outs) o).or (w o))
      _ (Coin.ofTxOut out nHeight tx.IsCoinBase tx.IsCoinStake) (by simp [outputCoins, hs'])]
    simp only [Coin.ofTxOut, Nat.mod_eq_of_lt hH, beq_self_eq_true, Bool.and_self, if_true,
      Prod.mk.injEq, true_and]
    funext o
    by_cases ho : o = ⟨txid, k⟩
    · subst ho
      rw [Function.update_self, outputCoins_of_lt txid nHeight _ _ outs hlt, Option.none_or,
        hfresh _ hcoin]
    · rw [Function.update_of_ne ho, outputCoins_cons_of_ne txid nHeight _ _ ho]

/-- At a height of `2 ^ 30` or more, the coin `AddCoins` wrote for a spendable output keeps the
height modulo `2 ^ 30`, so taking it back makes the disconnect unclean. -/
theorem spendOutputStep_of_two_pow_le (hH : 2 ^ 30 ≤ nHeight) (r : DisconnectResult)
    {out : CTxOut} {k : ℕ} {w : CoinsMap} (hs : out.scriptPubKey.IsUnspendable = false)
    (hw : w ⟨txid, k⟩ = some (Coin.ofTxOut out nHeight tx.IsCoinBase tx.IsCoinStake)) :
    (spendOutputStep txid tx nHeight (r, w) (out, k)).1 = DISCONNECT_UNCLEAN := by
  simp only [spendOutputStep, hs, Bool.false_eq_true, if_false, CoinsMap.SpendCoin_of_eq_some hw,
    Coin.ofTxOut]
  -- the comparison of the heights fails: `nHeight % 2 ^ 30 = nHeight` only below `2 ^ 30`
  have hne : (nHeight % 2 ^ 30 == nHeight) = false := by
    have := Nat.mod_lt nHeight (show 0 < 2 ^ 30 by norm_num)
    rw [beq_eq_false_iff_ne]
    omega
  rw [hne, Bool.and_false, Bool.false_and, Bool.false_and]
  rfl

/-- The output loop of `DisconnectBlock` takes back the coins `AddCoins` added, from a view that
held none of them. The induction is on the outputs. -/
theorem foldl_spendOutputStep (hH : nHeight < 2 ^ 30) (r : DisconnectResult) :
    ∀ (outs : List CTxOut) (k : ℕ) (w : CoinsMap),
    (∀ o, (outputCoins txid nHeight tx.IsCoinBase tx.IsCoinStake k outs o).isSome → w o = none) →
    (outs.zipIdx k).foldl (spendOutputStep txid tx nHeight)
      (r, fun o => (outputCoins txid nHeight tx.IsCoinBase tx.IsCoinStake k outs o).or (w o)) =
      (r, w)
  | [], _, w, _ => by
    simp only [List.zipIdx_nil, List.foldl_nil, outputCoins, Option.none_or]
  | out :: outs, k, w, hfresh => by
    rw [List.zipIdx_cons, List.foldl_cons, spendOutputStep_outputCoins txid tx hH r hfresh]
    exact foldl_spendOutputStep hH r outs (k + 1) w fun o ho =>
      hfresh o (outputCoins_isSome_of_succ txid nHeight _ _ ho)

end disconnect

/-! ## Spending and restoring the inputs -/

/-- A coin that `ApplyTxInUndo` puts back as it was: unspent, of a spendable output, and of a
height other than `0`, so that the legacy path is not taken. -/
structure Coin.Restorable (coin : Coin) : Prop where
  unspent : coin.IsSpent = false
  spendable : coin.out.scriptPubKey.IsUnspendable = false
  height_ne_zero : coin.nHeight ≠ 0

/-- The input loop of `UpdateCoins` over inputs with distinct prevouts, all of them in the view,
appends their coins to the undo data and takes them out of the view. The induction is on the
inputs; the later inputs read the view with the first coin taken out as they read `view`. -/
theorem foldlM_spendInputStep : ∀ (vin : List CTxIn) (acc : CTxUndo) (view : CoinsMap),
    (vin.map CTxIn.prevout).Nodup → (∀ txin ∈ vin, (view txin.prevout).isSome) →
    vin.foldlM spendInputStep (acc, view) =
      some (acc ++ vin.map (fun txin => view.AccessCoin txin.prevout),
        fun o => if o ∈ vin.map CTxIn.prevout then none else view o)
  | [], acc, view, _, _ => by simp
  | txin :: vin, acc, view, hnodup, hpresent => by
    obtain ⟨coin, hcoin⟩ := Option.isSome_iff_exists.mp (hpresent txin List.mem_cons_self)
    rw [List.map_cons, List.nodup_cons] at hnodup
    obtain ⟨hnotin, hnodup⟩ := hnodup
    have hkeep : ∀ txin' ∈ vin,
        Function.update view txin.prevout none txin'.prevout = view txin'.prevout :=
      fun txin' h' => Function.update_of_ne
        (fun he => hnotin (by rw [← he]; exact List.mem_map_of_mem h')) _ _
    have hstep : spendInputStep (acc, view) txin =
        some (acc ++ [coin], Function.update view txin.prevout none) := by
      simp [spendInputStep, CoinsMap.SpendCoin_of_eq_some hcoin]
    rw [List.foldlM_cons, hstep, Option.bind_eq_bind, Option.bind_some,
      foldlM_spendInputStep vin _ _ hnodup fun txin' h' => by
        rw [hkeep txin' h']
        exact hpresent txin' (List.mem_cons_of_mem txin h')]
    congr 2
    · have hcoins : ∀ txin' ∈ vin,
          CoinsMap.AccessCoin (Function.update view txin.prevout none) txin'.prevout =
            view.AccessCoin txin'.prevout :=
        fun txin' h' => by simp only [CoinsMap.AccessCoin, hkeep txin' h']
      rw [List.map_congr_left hcoins]
      simp [CoinsMap.AccessCoin, hcoin]
    · funext o
      by_cases ho : o = txin.prevout
      · simp [ho]
      · simp [ho]

/-- `ApplyTxInUndo` on an outpoint the view does not hold puts back a restorable coin as it was
and reports a clean disconnect. -/
theorem ApplyTxInUndo_of_absent {undo : Coin} {view : CoinsMap} {out : COutPoint}
    (hundo : undo.Restorable) (habsent : view out = none) :
    ApplyTxInUndo undo view out = some (DISCONNECT_OK, Function.update view out (some undo)) := by
  simp [ApplyTxInUndo, hundo.height_ne_zero, CoinsMap.HaveCoin, habsent,
    CoinsMap.AddCoin_of_unspent hundo.unspent, hundo.spendable]

/-- `ApplyTxInUndo` fails on an undo coin of height `0` when the view holds no output of its
transaction to copy the height and coinbase flag from. -/
theorem ApplyTxInUndo_of_legacy {undo : Coin} {view : CoinsMap} {out : COutPoint}
    (h0 : undo.nHeight = 0) (hnone : ∀ n, view ⟨out.hash, n⟩ = none) :
    ApplyTxInUndo undo view out = some (DISCONNECT_FAILED, view) := by
  simp [ApplyTxInUndo, h0, CoinsMap.AccessByTxid_of_forall hnone]

/-- The restore loop of `DisconnectBlock`, as the fold from the last input it runs as, puts back
the coins of inputs with distinct, restorable prevouts into a view that holds none of them, and
the disconnect stays clean. The induction is on the inputs. -/
theorem foldrM_restoreStep (view : CoinsMap) : ∀ (vin : List CTxIn) (u : CoinsMap),
    (vin.map CTxIn.prevout).Nodup →
    (∀ txin ∈ vin, ∃ coin, view txin.prevout = some coin ∧ coin.Restorable) →
    (∀ txin ∈ vin, u txin.prevout = none) →
    (vin.zip (vin.map fun txin => view.AccessCoin txin.prevout)).foldrM
        (fun input s => restoreStep s input) (DISCONNECT_OK, u) =
      some (DISCONNECT_OK, fun o => if o ∈ vin.map CTxIn.prevout then view o else u o)
  | [], u, _, _, _ => by simp
  | txin :: vin, u, hnodup, hcoins, habsent => by
    obtain ⟨coin, hcoin, hrest⟩ := hcoins txin List.mem_cons_self
    rw [List.map_cons, List.nodup_cons] at hnodup
    obtain ⟨hnotin, hnodup⟩ := hnodup
    -- the later inputs are put back first, and none of them is the first input's outpoint
    have hlater := foldrM_restoreStep view vin u hnodup
      (fun txin' h' => hcoins txin' (List.mem_cons_of_mem txin h'))
      (fun txin' h' => habsent txin' (List.mem_cons_of_mem txin h'))
    set w : CoinsMap := fun o => if o ∈ vin.map CTxIn.prevout then view o else u o with hw
    have hfree : w txin.prevout = none := by
      simp only [hw, if_neg hnotin]
      exact habsent txin List.mem_cons_self
    have hstep : restoreStep (DISCONNECT_OK, w) (txin, coin) =
        some (DISCONNECT_OK, Function.update w txin.prevout (some coin)) := by
      simp [restoreStep, ApplyTxInUndo_of_absent hrest hfree]
    rw [List.map_cons, List.zip_cons_cons, List.foldrM_cons, hlater, Option.bind_eq_bind,
      Option.bind_some, show view.AccessCoin txin.prevout = coin by simp [CoinsMap.AccessCoin, hcoin],
      hstep]
    congr 2
    funext o
    by_cases ho : o = txin.prevout
    · simp [ho, hcoin]
    · simp [hw, ho]

/-! ## One transaction -/

/-- What a transaction needs for disconnecting it to undo connecting it on `view`: the inputs of
a transaction other than the coinbase spend distinct coins of the view that can be put back as
they were, no output has the null value `-1`, and the view holds no coin at a spendable output of
the transaction. -/
structure TxUndoable (view : CoinsMap) (txid : H256) (tx : CTransaction) : Prop where
  nodup : tx.IsCoinBase = false → (tx.vin.map CTxIn.prevout).Nodup
  spends : tx.IsCoinBase = false →
    ∀ txin ∈ tx.vin, ∃ coin, view txin.prevout = some coin ∧ coin.Restorable
  notNull : ∀ out ∈ tx.vout, out.nValue ≠ -1
  fresh : ∀ (k : ℕ) (out : CTxOut), tx.vout[k]? = some out →
    out.scriptPubKey.IsUnspendable = false → view ⟨txid, k⟩ = none

/-- The view after the inputs of `tx` are spent, which is `view` for a coinbase. -/
def spentView (view : CoinsMap) (tx : CTransaction) : CoinsMap :=
  if tx.IsCoinBase then view else fun o => if o ∈ tx.vin.map CTxIn.prevout then none else view o

/-- The undo data `UpdateCoins` records: the coins the inputs spend, none for a coinbase. -/
def undoOf (view : CoinsMap) (tx : CTransaction) : CTxUndo :=
  if tx.IsCoinBase then [] else tx.vin.map fun txin => view.AccessCoin txin.prevout

/-- The view after `UpdateCoins`: the coins of the outputs in front of `spentView`. -/
def updatedView (view : CoinsMap) (txid : H256) (tx : CTransaction) (nHeight : ℕ) : CoinsMap :=
  fun o => (outputCoins txid nHeight tx.IsCoinBase tx.IsCoinStake 0 tx.vout o).or
    (spentView view tx o)

theorem spentView_eq_none {view : CoinsMap} {o : COutPoint} (tx : CTransaction)
    (h : view o = none) : spentView view tx o = none := by
  unfold spentView
  split_ifs <;> simp [h]

section tx

variable {view : CoinsMap} {txid : H256} {tx : CTransaction} {nHeight : ℕ}

theorem AddCoins_of_notNull (h : ∀ out ∈ tx.vout, out.nValue ≠ -1) (w : CoinsMap) :
    AddCoins w txid tx nHeight =
      some fun o => (outputCoins txid nHeight tx.IsCoinBase tx.IsCoinStake 0 tx.vout o).or (w o) :=
  foldlM_AddCoin txid nHeight _ _ tx.vout h 0 w

/-- `UpdateCoins` on a transaction whose inputs, unless it is the coinbase, spend distinct coins
of the view, and none of whose outputs has the null value, records `undoOf` and leaves
`updatedView`. -/
theorem UpdateCoins_eq (hnodup : tx.IsCoinBase = false → (tx.vin.map CTxIn.prevout).Nodup)
    (hpresent : tx.IsCoinBase = false → ∀ txin ∈ tx.vin, (view txin.prevout).isSome)
    (hnull : ∀ out ∈ tx.vout, out.nValue ≠ -1) :
    UpdateCoins view txid tx nHeight =
      some (undoOf view tx, updatedView view txid tx nHeight) := by
  cases hcb : tx.IsCoinBase with
  | true =>
    simp [UpdateCoins, hcb, AddCoins_of_notNull hnull, undoOf]
    funext o
    simp [updatedView, spentView, hcb]
  | false =>
    -- the inputs are spent first, then the outputs added to what is left
    have hspend := foldlM_spendInputStep tx.vin [] view (hnodup hcb) (hpresent hcb)
    simp only [List.nil_append] at hspend
    simp [UpdateCoins, hcb, spendInputs, hspend, AddCoins_of_notNull hnull, undoOf]
    funext o
    simp [updatedView, spentView, hcb]

theorem UpdateCoins_of_TxUndoable (h : TxUndoable view txid tx) :
    UpdateCoins view txid tx nHeight =
      some (undoOf view tx, updatedView view txid tx nHeight) :=
  UpdateCoins_eq h.nodup (fun hcb txin hin => by
    obtain ⟨coin, hcoin, _⟩ := h.spends hcb txin hin
    simp [hcoin]) h.notNull

/-- The output loop of `DisconnectBlock` on the view `UpdateCoins` left takes back the coins of
the outputs and leaves `spentView`, with the status unchanged. -/
theorem foldl_spendOutputStep_updatedView (hH : nHeight < 2 ^ 30) (h : TxUndoable view txid tx)
    (r : DisconnectResult) :
    tx.vout.zipIdx.foldl (spendOutputStep txid tx nHeight) (r, updatedView view txid tx nHeight) =
      (r, spentView view tx) := by
  refine foldl_spendOutputStep txid tx hH r tx.vout 0 _ fun o ho => ?_
  -- every coin of the outputs sits at a spendable output, where the view held nothing
  obtain ⟨hhash, out, hget, -, hs⟩ := outputCoins_isSome txid nHeight _ _ ho
  have ho' : o = ⟨txid, o.n⟩ := by rw [← hhash]
  rw [Nat.sub_zero] at hget
  rw [ho']
  exact spentView_eq_none tx (h.fresh o.n out hget hs)

variable (getHash : CTransaction → H256)

/-- Disconnecting one undoable transaction, at a place of the block that is `0` exactly when it
is the coinbase and with its undo data at that place of the block's undo record, undoes
`UpdateCoins` and keeps the disconnect clean. -/
theorem disconnectTx_UpdateCoins (hH : nHeight < 2 ^ 30) (h : TxUndoable view (getHash tx) tx)
    {blockUndo : List CTxUndo} {i : ℕ} (hi : i = 0 ↔ tx.IsCoinBase = true)
    (hundo : i ≠ 0 → blockUndo.getD (i - 1) [] = undoOf view tx) :
    disconnectTx getHash nHeight blockUndo
        (DISCONNECT_OK, updatedView view (getHash tx) tx nHeight) (tx, i) =
      some (DISCONNECT_OK, view) := by
  simp only [disconnectTx, reduceCtorEq, if_false, foldl_spendOutputStep_updatedView hH h]
  by_cases hi0 : i = 0
  · -- the coinbase: nothing was spent
    have hcb := hi.mp hi0
    simp [hi0, spentView, hcb]
  · have hcb : tx.IsCoinBase = false := by simpa [hi0] using hi
    have hrestore := foldrM_restoreStep view tx.vin (spentView view tx) (h.nodup hcb)
      (h.spends hcb) fun txin hin => by simp [spentView, hcb, List.mem_map_of_mem hin]
    simp only [hi0, if_false, hundo hi0, undoOf, hcb, Bool.false_eq_true, List.length_map,
      ne_eq, not_true_eq_false, List.foldlM_reverse, hrestore]
    congr 2
    funext o
    by_cases ho : o ∈ tx.vin.map CTxIn.prevout <;> simp [ho, spentView, hcb]

end tx

/-! ## A block -/

/-- What a block needs for disconnecting it to undo connecting it on `view`: each transaction is
`TxUndoable` on the view that the transactions before it leave. -/
def BlockUndoable (getHash : CTransaction → H256) (nHeight : ℕ) :
    CoinsMap → List CTransaction → Prop
  | _, [] => True
  | view, tx :: vtx => TxUndoable view (getHash tx) tx ∧
    ∀ r, UpdateCoins view (getHash tx) tx nHeight = some r → BlockUndoable getHash nHeight r.2 vtx

section block

variable (getHash : CTransaction → H256) {nHeight : ℕ}

/-- The transactions after the coinbase, from place `k` of the block on: connecting them appends
one undo record each, and disconnecting them, with those records at their places of the block's
undo record, gives back the view they were connected to. The induction is on the
transactions; the later ones are disconnected first. -/
theorem connectTx_disconnectTx (hH : nHeight < 2 ^ 30) : ∀ (vtx : List CTransaction) (k : ℕ)
    (acc : List CTxUndo) (view : CoinsMap), 0 < k → (∀ tx ∈ vtx, tx.IsCoinBase = false) →
    BlockUndoable getHash nHeight view vtx →
    ∃ undos view', (vtx.zipIdx k).foldlM (connectTx getHash nHeight) (acc, view) =
        some (acc ++ undos, view') ∧ undos.length = vtx.length ∧
      ∀ blockUndo : List CTxUndo,
        (∀ j < vtx.length, blockUndo.getD (k + j - 1) [] = undos.getD j []) →
        (vtx.zipIdx k).foldrM (fun entry s => disconnectTx getHash nHeight blockUndo s entry)
          (DISCONNECT_OK, view') = some (DISCONNECT_OK, view)
  | [], _, acc, view, _, _, _ => ⟨[], view, by simp, rfl, fun _ _ => rfl⟩
  | tx :: vtx, k, acc, view, hk, hcb, ⟨htx, hnext⟩ => by
    have hcbtx := hcb tx List.mem_cons_self
    have hU : UpdateCoins view (getHash tx) tx nHeight =
        some (undoOf view tx, updatedView view (getHash tx) tx nHeight) :=
      UpdateCoins_of_TxUndoable htx
    obtain ⟨undos, view', hconn, hlen, hdisc⟩ := connectTx_disconnectTx hH vtx (k + 1)
      (acc ++ [undoOf view tx]) _ (Nat.succ_pos k)
      (fun tx' h' => hcb tx' (List.mem_cons_of_mem tx h')) (hnext _ hU)
    refine ⟨undoOf view tx :: undos, view', ?_, by simp [hlen], fun blockUndo hB => ?_⟩
    · have hstep : connectTx getHash nHeight (acc, view) (tx, k) =
          some (acc ++ [undoOf view tx], updatedView view (getHash tx) tx nHeight) := by
        simp [connectTx, hU, hk.ne']
      rw [List.zipIdx_cons, List.foldlM_cons, hstep, Option.bind_eq_bind, Option.bind_some, hconn]
      simp
    · have hlater := hdisc blockUndo fun j hj => by
        have hj' := hB (j + 1) (by simp [hj])
        rw [show k + (j + 1) - 1 = k + 1 + j - 1 by omega] at hj'
        simpa using hj'
      rw [List.zipIdx_cons, List.foldrM_cons, hlater, Option.bind_eq_bind, Option.bind_some]
      exact disconnectTx_UpdateCoins getHash hH htx (by simp [hk.ne', hcbtx]) fun _ => by
        simpa using hB 0 (by simp)

/-- Disconnecting a block undoes connecting it: for a block whose first transaction is its only
coinbase, at a height that fits the 30 bits of `Coin::nHeight`, and whose transactions are each
undoable on the view they are connected to, `DisconnectBlock` with the undo record
`ConnectBlock` wrote gives back the view the block was connected to, and reports a clean
disconnect. -/
theorem DisconnectBlock_undoes_ConnectBlockCoins (view : CoinsMap) (cb : CTransaction)
    (vtx : List CTransaction) (hH : nHeight < 2 ^ 30) (hcb : cb.IsCoinBase = true)
    (hvtx : ∀ tx ∈ vtx, tx.IsCoinBase = false)
    (hundoable : BlockUndoable getHash nHeight view (cb :: vtx)) :
    ∃ blockUndo view', ConnectBlockCoins getHash view (cb :: vtx) nHeight = some (blockUndo, view') ∧
      DisconnectBlock getHash view' (cb :: vtx) blockUndo nHeight = some (DISCONNECT_OK, view) := by
  obtain ⟨hcbu, hnext⟩ := hundoable
  have hU : UpdateCoins view (getHash cb) cb nHeight =
      some ([], updatedView view (getHash cb) cb nHeight) := by
    rw [UpdateCoins_of_TxUndoable hcbu]
    simp [undoOf, hcb]
  obtain ⟨undos, view', hconn, hlen, hdisc⟩ :=
    connectTx_disconnectTx getHash hH vtx 1 [] _ Nat.one_pos hvtx (hnext _ hU)
  refine ⟨undos, view', ?_, ?_⟩
  · have hstep : connectTx getHash nHeight ([], view) (cb, 0) =
        some ([], updatedView view (getHash cb) cb nHeight) := by
      simp [connectTx, hU]
    simp only [ConnectBlockCoins, List.zipIdx_cons, zero_add, List.foldlM_cons, hstep,
      Option.bind_eq_bind, Option.bind_some, hconn, List.nil_append]
  · -- the transactions after the coinbase are disconnected first, the coinbase last
    have hlater := hdisc undos fun j _ => by simp
    simp only [DisconnectBlock, hlen, List.length_cons, ne_eq, not_true_eq_false, if_false,
      List.foldlM_reverse, List.zipIdx_cons, zero_add, List.foldrM_cons, hlater,
      Option.bind_eq_bind, Option.bind_some]
    exact disconnectTx_UpdateCoins getHash hH hcbu (by simp [hcb]) fun h => absurd rfl h

end block

/-- An output of an earlier transaction, spent by `spendTx`. -/
def spentOutPoint : COutPoint := ⟨5, 0⟩

/-- The coin at `spentOutPoint`, written at height `nHeight`. -/
def spentCoin (nHeight : ℕ) : Coin := ⟨⟨1, []⟩, false, false, nHeight⟩

/-- The view that holds only `spentCoin nHeight`. -/
def spentCoinView (nHeight : ℕ) : CoinsMap :=
  fun o => if o = spentOutPoint then some (spentCoin nHeight) else none

/-- A coinbase with one output of value `1`. -/
def oneOutputCoinbase : CTransaction := ⟨[⟨⟨0, COutPoint.NULL_INDEX⟩, []⟩], [⟨1, []⟩]⟩

/-- A transaction that spends `spentOutPoint` and has no outputs. -/
def spendTx : CTransaction := ⟨[⟨spentOutPoint, []⟩], []⟩

@[simp] theorem oneOutputCoinbase_IsCoinBase : oneOutputCoinbase.IsCoinBase = true := by decide

@[simp] theorem oneOutputCoinbase_vout : oneOutputCoinbase.vout = [⟨1, []⟩] := rfl

@[simp] theorem spendTx_IsCoinBase : spendTx.IsCoinBase = false := by decide

@[simp] theorem spendTx_vin : spendTx.vin = [⟨spentOutPoint, []⟩] := rfl

@[simp] theorem spendTx_vout : spendTx.vout = [] := rfl

theorem oneOutputCoinbase_TxUndoable (nHeight : ℕ) :
    TxUndoable (spentCoinView nHeight) 0 oneOutputCoinbase :=
  ⟨fun h => absurd h (by decide), fun h => absurd h (by decide),
    fun out hout => by simp_all,
    fun k out _ _ => by simp [spentCoinView, spentOutPoint]⟩

/-- The view after the coinbase: `spentOutPoint` still holds its coin. -/
theorem updatedView_oneOutputCoinbase (nHeight : ℕ) :
    updatedView (spentCoinView nHeight) 0 oneOutputCoinbase 1 spentOutPoint =
      some (spentCoin nHeight) := by
  simp [updatedView, spentView, outputCoins, spentCoinView, spentOutPoint]

theorem DisconnectBlock_undoes_ConnectBlockCoins_spend :
    ∃ blockUndo view', ConnectBlockCoins (fun _ => 0) (spentCoinView 1)
        (oneOutputCoinbase :: [spendTx]) 1 = some (blockUndo, view') ∧
      DisconnectBlock (fun _ => 0) view' (oneOutputCoinbase :: [spendTx]) blockUndo 1 =
        some (DISCONNECT_OK, spentCoinView 1) := by
  refine DisconnectBlock_undoes_ConnectBlockCoins (fun _ => 0) (spentCoinView 1)
    oneOutputCoinbase [spendTx] (by norm_num) (by simp) (by simp)
    ⟨oneOutputCoinbase_TxUndoable 1, fun r hr => ?_⟩
  rw [UpdateCoins_of_TxUndoable (oneOutputCoinbase_TxUndoable 1), Option.some_inj] at hr
  subst hr
  have hspend : TxUndoable (updatedView (spentCoinView 1) 0 oneOutputCoinbase 1) 0 spendTx :=
    ⟨fun _ => by simp,
      fun _ txin hin => ⟨spentCoin 1, by
        simp only [spendTx_vin, List.mem_singleton] at hin
        rw [hin, updatedView_oneOutputCoinbase], ⟨rfl, rfl, by decide⟩⟩,
      fun out hout => by simp at hout, fun k out hout => by simp at hout⟩
  exact ⟨hspend, fun _ _ => trivial⟩

/-- With the spent coin written at height `0`, the legacy path of `ApplyTxInUndo` finds no other
output of its transaction, and disconnecting the block fails. -/
theorem DisconnectBlock_legacy_undo_fails :
    ∃ blockUndo view', ConnectBlockCoins (fun _ => 0) (spentCoinView 0)
        (oneOutputCoinbase :: [spendTx]) 1 = some (blockUndo, view') ∧
      DisconnectBlock (fun _ => 0) view' (oneOutputCoinbase :: [spendTx]) blockUndo 1 =
        some (DISCONNECT_FAILED, view') := by
  set U := updatedView (spentCoinView 0) 0 oneOutputCoinbase 1 with hU
  have hconnect : ConnectBlockCoins (fun _ => 0) (spentCoinView 0)
      (oneOutputCoinbase :: [spendTx]) 1 = some ([[spentCoin 0]], updatedView U 0 spendTx 1) := by
    have hU1 : UpdateCoins (spentCoinView 0) 0 oneOutputCoinbase 1 = some ([], U) := by
      rw [UpdateCoins_of_TxUndoable (oneOutputCoinbase_TxUndoable 0)]
      simp [undoOf, hU]
    have hU2 : UpdateCoins U 0 spendTx 1 = some ([spentCoin 0], updatedView U 0 spendTx 1) := by
      rw [UpdateCoins_eq (fun _ => by simp) (fun _ txin hin => by
          simp only [spendTx_vin, List.mem_singleton] at hin
          simp [hin, hU, updatedView_oneOutputCoinbase]) (by simp)]
      simp [undoOf, CoinsMap.AccessCoin, hU, updatedView_oneOutputCoinbase]
    simp [ConnectBlockCoins, connectTx, hU1, hU2]
  -- the coinbase's coin is the only one left, at an output of another transaction
  have hnone : ∀ n, updatedView U 0 spendTx 1 ⟨spentOutPoint.hash, n⟩ = none := fun n => by
    by_cases hn : n = 0
    · simp [updatedView, spentView, outputCoins, spentOutPoint, hn]
    · simp [hU, updatedView, spentView, outputCoins, spentCoinView, spentOutPoint, hn]
  refine ⟨_, _, hconnect, ?_⟩
  simp [DisconnectBlock, disconnectTx, restoreStep,
    ApplyTxInUndo_of_legacy (show (spentCoin 0).nHeight = 0 from rfl) hnone]

end HydraNode
