import HydraNode.Qtum.CondensingValue
import HydraNode.Qtum.UTXO

/-!
# The contract outputs after a condensing transaction

Once the condensing transaction is made, `QtumState::execute` asks the `CondensingTX` object
for the `Vin`s it creates (`createVin`) and writes them into the state (`updateUTXO`). This
file states how the contract outputs of the state then agree with the transaction, and
proves it.

## The statement

`UTXOBookkeeping` is the property as one would first write it: every participant but the
sender with a positive balance owns a live `Vin` for its output of the transaction, at that
output's index, with that output's value; every other participant owns no live `Vin`; and
the other addresses keep theirs.

## What it needs

`createVin` records a balance as a `u256`, while the output carries its `CAmount`
conversion, the low 64 bits read as a signed number; under `EvmBounds` the two agree.
`createVin` also skips the sender, whose `Vin` stays as it was. A key holder that an earlier
execution paid owns a live `Vin`, and keeps it when it sends in a later one
(`utxoBookkeeping_fails`). `UTXOBookkeepingButSender` is the property with the sender set apart,
and `utxoBookkeeping_of_bounded` proves it.

## Main definitions

* `CondensingTX.vinFor`, `CondensingTX.utxoAfter`, `CondensingTX.UTXOBookkeeping`,
  `CondensingTX.UTXOBookkeepingButSender`

## Main results

* `CondensingTX.voutScript_injective` — an output script names one address
* `CondensingTX.createVin_eq` — `createVin` in closed form
* `CondensingTX.utxoBookkeeping_of_bounded`, `CondensingTX.utxoBookkeeping_fails`
-/

namespace HydraNode

/-- In a duplicate-free list an element sits at one index. -/
theorem List.eq_of_getElem?_eq_of_nodup {α : Type*} {l : List α} (hl : l.Nodup) {m k : ℕ}
    {a : α} (hm : l[m]? = some a) (hk : l[k]? = some a) : m = k := by
  obtain ⟨hm', rfl⟩ := List.getElem?_eq_some_iff.mp hm
  obtain ⟨hk', hk''⟩ := List.getElem?_eq_some_iff.mp hk
  exact hl.getElem_inj_iff.mp hk''.symm

namespace CondensingTX

/-- The output script names the address it pays. The two kinds of script already differ in
their first byte, and within a kind the address bytes sit at the same place. -/
theorem voutScript_injective (env : CondensingEnv) : Function.Injective (voutScript env) := by
  intro a b h
  apply Address.asBytes_injective
  unfold voutScript at h
  cases ha : env.accountAlive a <;> cases hb : env.accountAlive b <;>
    simp [ha, hb, CScript.pushOp, CScript.pushData, OP_PUSHDATA1] at h
  all_goals exact h

/-! ## `createVin` -/

/-- The `Vin` that `createVin` records for an address with its balance. -/
def vinFor (c : CondensingTX) (txHash : H256) (e : Address × U256) : Vin :=
  if 0 < e.2 then ⟨txHash, c.nVouts.findD e.1 0, e.2, 1⟩ else ⟨txHash, 0, 0, 0⟩

/-- `createVin` records `vinFor` for every address of `balances` but the sender. -/
theorem createVin_eq (c : CondensingTX) (txHash : H256) :
    c.createVin txHash = (c.balances.entries.filter fun e => e.1 ≠ c.transaction.sender).map
      fun e => (e.1, c.vinFor txHash e) := by
  unfold createVin
  rw [← filterMap_ite_eq_map_filter]
  congr 1
  funext e
  by_cases hs : e.1 = c.transaction.sender
  · simp [hs]
  · by_cases hb : 0 < e.2 <;> simp [hs, hb, vinFor]

/-- The addresses of `createVin` are distinct. -/
theorem nodup_createVin (c : CondensingTX) (txHash : H256) :
    ((c.createVin txHash).map Prod.fst).Nodup := by
  rw [createVin_eq, List.map_map]
  exact ((List.filter_sublist).map Prod.fst).nodup c.balances.keys_nodup

section utxo

variable (env : CondensingEnv) (ts : List TransferInfo) (tx : QtumTransaction)
  (del : List Address) (txHash : H256)

/-- The contract outputs after `createVin` and `updateUTXO`, for the condensing transaction
whose hash is `txHash`. -/
def utxoAfter : Address → Option Vin :=
  QtumState.updateUTXO env.vin ((createCondensingTX env (mk' ts tx del)).2.createVin txHash)

/-- `a` owns a live `Vin` of the transaction whose hash is `txHash`, at the index of the one
output of it that pays `a`, with that output's value. -/
def PaidVin (a : Address) : Prop :=
  ∃ v o, utxoAfter env ts tx del txHash a = some v ∧ v.alive ≠ 0 ∧ v.hash = txHash ∧
    (createCondensingTX env (mk' ts tx del)).1.vout[v.nVout]? = some o ∧
    o.scriptPubKey = voutScript env a ∧ (v.value.val : ℤ) = o.nValue ∧
    ∀ m o', (createCondensingTX env (mk' ts tx del)).1.vout[m]? = some o' →
      o'.scriptPubKey = voutScript env a → m = v.nVout

/-- The contract outputs agree with the condensing transaction of the transfers `ts` of an
execution of `tx` with the deleted addresses `del`, whose hash is `txHash`. -/
structure UTXOBookkeeping : Prop where
  /-- A participant other than the sender with a positive balance owns a live `Vin` of the
  transaction, at the index of the one output paying it, with that output's value. -/
  paid : (createCondensingTX env (mk' ts tx del)).1 ≠ CTransaction.empty →
    (createCondensingTX env (mk' ts tx del)).2.voutOverflow = false →
    ∀ a ∈ participants ts, a ≠ tx.sender → 0 < claimedBalance env ts tx del a →
      PaidVin env ts tx del txHash a
  /-- Every other participant owns no live `Vin`. -/
  unpaid : (createCondensingTX env (mk' ts tx del)).1 ≠ CTransaction.empty →
    (createCondensingTX env (mk' ts tx del)).2.voutOverflow = false →
    ∀ a ∈ participants ts, (a = tx.sender ∨ claimedBalance env ts tx del a ≤ 0) →
      ∀ v, utxoAfter env ts tx del txHash a = some v → v.alive = 0
  /-- An address outside the transfers keeps its `Vin`. -/
  untouched : (createCondensingTX env (mk' ts tx del)).1 ≠ CTransaction.empty →
    (createCondensingTX env (mk' ts tx del)).2.voutOverflow = false →
    ∀ a ∉ participants ts, utxoAfter env ts tx del txHash a = env.vin a

/-- `UTXOBookkeeping` as `createVin` makes it: it skips the sender, which keeps the `Vin` it had,
and the other participants own no live `Vin` unless they are paid. -/
structure UTXOBookkeepingButSender : Prop where
  paid : (createCondensingTX env (mk' ts tx del)).1 ≠ CTransaction.empty →
    (createCondensingTX env (mk' ts tx del)).2.voutOverflow = false →
    ∀ a ∈ participants ts, a ≠ tx.sender → 0 < claimedBalance env ts tx del a →
      PaidVin env ts tx del txHash a
  unpaid : (createCondensingTX env (mk' ts tx del)).1 ≠ CTransaction.empty →
    (createCondensingTX env (mk' ts tx del)).2.voutOverflow = false →
    ∀ a ∈ participants ts, a ≠ tx.sender → claimedBalance env ts tx del a ≤ 0 →
      ∀ v, utxoAfter env ts tx del txHash a = some v → v.alive = 0
  sender_kept : (createCondensingTX env (mk' ts tx del)).1 ≠ CTransaction.empty →
    (createCondensingTX env (mk' ts tx del)).2.voutOverflow = false →
    utxoAfter env ts tx del txHash tx.sender = env.vin tx.sender
  untouched : (createCondensingTX env (mk' ts tx del)).1 ≠ CTransaction.empty →
    (createCondensingTX env (mk' ts tx del)).2.voutOverflow = false →
    ∀ a ∉ participants ts, utxoAfter env ts tx del txHash a = env.vin a

variable {env ts tx del txHash} in
/-- With a sender that owns no live `Vin`, the bookkeeping of `createVin` is the one first
written down. -/
theorem UTXOBookkeepingButSender.toUTXOBookkeeping
    (h : UTXOBookkeepingButSender env ts tx del txHash)
    (hsender : ∀ v, env.vin tx.sender = some v → v.alive = 0) :
    UTXOBookkeeping env ts tx del txHash where
  paid := h.paid
  unpaid hne hflag a ha hcase v hv := by
    by_cases hs : a = tx.sender
    · rw [hs, h.sender_kept hne hflag] at hv
      exact hsender v hv
    · exact h.unpaid hne hflag a ha hs (hcase.resolve_left hs) v hv
  untouched := h.untouched

/-- After a successful `createNewBalances`, `createVin` records a `Vin` for every
participant but the sender, from its new balance. -/
theorem createVin_of_ok (hok : (afterSelection env ts tx del).createNewBalances.1 = true) :
    (createCondensingTX env (mk' ts tx del)).2.createVin txHash =
      ((plusMinus ts).keys.filter fun a => a ≠ tx.sender).map fun a =>
        (a, (createCondensingTX env (mk' ts tx del)).2.vinFor txHash
          (a, newBalance env ts tx del a)) := by
  obtain ⟨hbal, -⟩ := (createNewBalances_spec env ts tx del).2 hok
  have hentries : (createCondensingTX env (mk' ts tx del)).2.balances.entries =
      (plusMinus ts).keys.map fun a => (a, newBalance env ts tx del a) := by
    rw [snd_createCondensingTX_of_ok env ts tx del hok]
    exact hbal
  have hsender : (createCondensingTX env (mk' ts tx del)).2.transaction = tx := by
    rw [snd_createCondensingTX_of_ok env ts tx del hok]
    rfl
  rw [createVin_eq, hentries, hsender, List.filter_map, List.map_map]
  rfl

/-- After a successful `createNewBalances`, the sender and the addresses outside the
transfers keep their `Vin`. -/
theorem utxoAfter_of_not_mem (hok : (afterSelection env ts tx del).createNewBalances.1 = true)
    {a : Address} (ha : a ∉ participants ts ∨ a = tx.sender) :
    utxoAfter env ts tx del txHash a = env.vin a := by
  refine QtumState.updateUTXO_of_not_mem _ fun hmem => ?_
  rw [createVin_of_ok env ts tx del txHash hok, List.map_map] at hmem
  obtain ⟨b, hb, rfl⟩ := List.mem_map.mp hmem
  obtain ⟨hbk, hbs⟩ := List.mem_filter.mp hb
  rcases ha with ha | ha
  · exact ha ((mem_keys_plusMinus ts b).mp hbk)
  · exact (of_decide_eq_true hbs) ha

/-- After a successful `createNewBalances`, a participant other than the sender holds what
`updateUTXO` writes for its new balance. -/
theorem utxoAfter_of_mem (hok : (afterSelection env ts tx del).createNewBalances.1 = true)
    {a : Address} (ha : a ∈ participants ts) (hs : a ≠ tx.sender) :
    utxoAfter env ts tx del txHash a = QtumState.written (env.vin a)
      ((createCondensingTX env (mk' ts tx del)).2.vinFor txHash
        (a, newBalance env ts tx del a)) := by
  refine QtumState.updateUTXO_of_mem _ (nodup_createVin _ txHash) ?_
  rw [createVin_of_ok env ts tx del txHash hok]
  exact List.mem_map_of_mem (List.mem_filter.mpr ⟨(mem_keys_plusMinus ts a).mpr ha,
    decide_eq_true hs⟩)

/-- For the transfers the EVM records, the contract outputs agree with the condensing
transaction, the sender apart. -/
theorem utxoBookkeeping_of_bounded (hevm : EvmBounds env ts tx del) :
    UTXOBookkeepingButSender env ts tx del txHash := by
  have hsum := fun a (ha : a ∈ participants ts) => hevm.oldOf_add_inflow_lt ha
  have hout := fun a (_ : a ∈ participants ts) => hevm.outflow_lt a
  refine ⟨fun hne hflag a ha hs hpos => ?_, fun hne _ a ha hs hle v hv => ?_,
    fun hne _ => utxoAfter_of_not_mem env ts tx del txHash
      (createNewBalances_ok_of_ne_empty env ts tx del hne) (Or.inr rfl),
    fun hne _ a ha => utxoAfter_of_not_mem env ts tx del txHash
      (createNewBalances_ok_of_ne_empty env ts tx del hne) (Or.inl ha)⟩
  · have hok := createNewBalances_ok_of_ne_empty env ts tx del hne
    have htx := fst_createCondensingTX_of_ne_empty env ts tx del hne
    obtain ⟨hvout, hidx⟩ := createVout_of_bounded hsum hout hevm.claimedBalance_le hok hflag
    obtain ⟨k, hk, hkout⟩ := hidx a ha hpos
    have hnn := (createNewBalances_ok_iff_of_bounded hsum hout).mp hok a ha
    have hval := val_newBalance_of_bounded (hsum a ha) (hout a ha) hnn
    have hbpos := (newBalance_pos_iff_of_bounded (hsum a ha) (hout a ha) hnn).mpr hpos
    -- the `Vin` of `a`: live, numbered by `nVouts`, carrying the balance
    have hvin : (createCondensingTX env (mk' ts tx del)).2.vinFor txHash
        (a, newBalance env ts tx del a) = ⟨txHash, k, newBalance env ts tx del a, 1⟩ := by
      rw [snd_createCondensingTX_of_ok env ts tx del hok]
      simp [vinFor, hbpos, OrdMap.findD, hk]
    have hvout' : (createCondensingTX env (mk' ts tx del)).1.vout =
        ((plusMinus ts).keys.filter fun a => decide (0 < claimedBalance env ts tx del a)).map
          (fun a => ⟨claimedBalance env ts tx del a, voutScript env a⟩) := by
      rw [htx]
      exact hvout
    refine ⟨⟨txHash, k, newBalance env ts tx del a, 1⟩,
      ⟨claimedBalance env ts tx del a, voutScript env a⟩,
      by rw [utxoAfter_of_mem env ts tx del txHash hok ha hs, hvin,
        QtumState.written_of_alive _ (by decide : (1 : UInt8) ≠ 0)],
      (by decide : (1 : UInt8) ≠ 0), rfl, by rw [htx]; exact hkout, rfl, hval, fun m o' hm ho' => ?_⟩
    -- the output at `m` pays `a`, and only one output does
    rw [hvout', List.getElem?_map] at hm
    rw [hvout, List.getElem?_map] at hkout
    obtain ⟨b, hb, rfl⟩ := Option.map_eq_some_iff.mp hm
    have hba : b = a := voutScript_injective env ho'
    subst hba
    obtain ⟨b', hb', hb'eq⟩ := Option.map_eq_some_iff.mp hkout
    have hb'a : b' = b := voutScript_injective env (congrArg CTxOut.scriptPubKey hb'eq)
    subst hb'a
    exact List.eq_of_getElem?_eq_of_nodup ((plusMinus ts).keys_nodup.filter _) hb hb'
  · -- a balance of zero records a dead `Vin`
    have hok := createNewBalances_ok_of_ne_empty env ts tx del hne
    have hnn := (createNewBalances_ok_iff_of_bounded hsum hout).mp hok a ha
    have hzero : claimedBalance env ts tx del a = 0 := by omega
    have hb : ¬0 < newBalance env ts tx del a := fun h => by
      have := (newBalance_pos_iff_of_bounded (hsum a ha) (hout a ha) hnn).mp h
      omega
    rw [utxoAfter_of_mem env ts tx del txHash hok ha hs] at hv
    exact QtumState.alive_of_written (by simp [vinFor, hb]) hv

/-- The repository's `condensingtransactionbehavior_tests` scenario, with no `Vin`s before. -/
theorem utxoBookkeeping_shareTest :
    UTXOBookkeepingButSender ⟨fun _ => none, fun a => a ≠ 9⟩
      [⟨9, 1, 8000⟩, ⟨1, 2, 4000⟩, ⟨2, 3, 2000⟩, ⟨3, 1, 1000⟩, ⟨3, 2, 500⟩] ⟨9, 8000, 77, 0⟩ [9] 5 :=
  utxoBookkeeping_of_bounded _ _ _ _ _ ⟨forall_mem_participants.mpr (by decide +kernel),
    forall_mem_participants.mpr (by decide +kernel), by decide, by decide⟩

/-- Two executions from a state with no `Vin`s. In the first, the key holder `1` sends `100` to
the contract `2`, which pays it on to the key holder `3`: `createVin` records a live `Vin` for
`3`, of the output that pays it. In the second, `3` sends `50` to `2`. `3` takes part as the
sender, which `createVin` skips, so it keeps that live `Vin`. -/
theorem utxoBookkeeping_fails :
    let env₁ : CondensingEnv := ⟨fun _ => none, fun a => a = 2⟩
    let env₂ : CondensingEnv :=
      ⟨utxoAfter env₁ [⟨1, 2, 100⟩, ⟨2, 3, 100⟩] ⟨1, 100, 77, 0⟩ [] 5, fun a => a = 2⟩
    ¬UTXOBookkeeping env₂ [⟨3, 2, 50⟩] ⟨3, 50, 78, 0⟩ [] 6 := by
  intro env₁ env₂ h
  have hv := h.unpaid (by decide +kernel) (by decide +kernel) 3 (by decide +kernel) (Or.inl rfl)
    ⟨5, 0, 100, 1⟩ (by decide +kernel)
  exact absurd hv (by decide)

end utxo

end CondensingTX

end HydraNode
