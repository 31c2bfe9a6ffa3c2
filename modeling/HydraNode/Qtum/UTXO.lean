import HydraNode.Qtum.Condensing

/-!
# The contract outputs of the state

`QtumState` keeps, for every contract address, the contract output (`Vin`) it owns: a cache
`cacheUTXO` over the trie `stateUTXO`. `QtumState::vin` reads the cache and falls back to the
trie, caching what it finds, so the two together behave as one partial map from addresses to
`Vin`s; that map is the `vin` field of `CondensingEnv`. After a contract execution,
`deleteAccounts` kills the self-destructed accounts and marks their `Vin`s dead, and
`updateUTXO` writes the `Vin`s that `CondensingTX::createVin` computes from the condensing
transaction.

`updateUTXO` iterates a `std::unordered_map`, in an order the source does not fix. Its
iterations touch one address each, so for entries with distinct addresses the order does not
matter: `updateUTXO_of_mem` and `updateUTXO_of_not_mem` hold for every order.

## Main definitions

* `QtumState.deleteAccounts`, `QtumState.updateUTXO`
* `QtumState.condense` — the part of `QtumState::execute` that condenses the transfers of an
  execution and records the new `Vin`s

## Main results

* `QtumState.updateUTXO_of_mem`, `QtumState.updateUTXO_of_not_mem` — the map after the
  update, address by address
* `QtumState.deleteAccounts_vin_of_mem`, `QtumState.deleteAccounts_vin_of_not_mem`
-/

namespace HydraNode

namespace QtumState

/-! ## `deleteAccounts` -/

/-- A `Vin` marked dead, as `in->alive = 0` leaves it. -/
def Vin.kill (v : Vin) : Vin := { v with alive := 0 }

@[simp] theorem Vin.kill_kill (v : Vin) : Vin.kill (Vin.kill v) = Vin.kill v := rfl

/-- One iteration of `deleteAccounts`: the account is killed and its `Vin`, if any, marked
dead. -/
def deleteAccountStep (env : CondensingEnv) (addr : Address) : CondensingEnv where
  vin := match env.vin addr with
    | some v => Function.update env.vin addr (some (Vin.kill v))
    | none => env.vin
  accountAlive := fun a => env.accountAlive a && a != addr

/-- `deleteAccounts`, over the addresses of the `std::set` in order. -/
def deleteAccounts (env : CondensingEnv) (addrs : List Address) : CondensingEnv :=
  addrs.foldl deleteAccountStep env

theorem deleteAccountStep_vin (env : CondensingEnv) (addr a : Address) :
    (deleteAccountStep env addr).vin a =
      if a = addr then (env.vin a).map Vin.kill else env.vin a := by
  unfold deleteAccountStep
  by_cases ha : a = addr
  · subst ha
    cases h : env.vin a <;> simp [h]
  · cases env.vin addr <;> simp [ha]

/-- An address that is not deleted keeps its `Vin`. -/
theorem deleteAccounts_vin_of_not_mem (env : CondensingEnv) {addrs : List Address}
    {a : Address} (ha : a ∉ addrs) : (deleteAccounts env addrs).vin a = env.vin a := by
  induction addrs generalizing env with
  | nil => rfl
  | cons b rest ih =>
    rw [List.mem_cons, not_or] at ha
    rw [deleteAccounts, List.foldl_cons, ← deleteAccounts, ih _ ha.2, deleteAccountStep_vin,
      if_neg ha.1]

/-- A deleted address keeps its `Vin`, marked dead. The induction is on the addresses; the
last time `a` is met decides, and marking a `Vin` dead twice marks it dead once. -/
theorem deleteAccounts_vin_of_mem (env : CondensingEnv) {addrs : List Address} {a : Address}
    (ha : a ∈ addrs) : (deleteAccounts env addrs).vin a = (env.vin a).map Vin.kill := by
  induction addrs generalizing env with
  | nil => simp at ha
  | cons b rest ih =>
    rw [deleteAccounts, List.foldl_cons, ← deleteAccounts]
    by_cases har : a ∈ rest
    · rw [ih _ har, deleteAccountStep_vin]
      split_ifs <;> cases env.vin a <;> simp
    · have hab : a = b := (List.mem_cons.mp ha).resolve_right har
      rw [deleteAccounts_vin_of_not_mem _ har, deleteAccountStep_vin, if_pos hab]

/-- A deleted account is no longer alive; the others keep their state. -/
theorem deleteAccounts_accountAlive (env : CondensingEnv) (addrs : List Address) (a : Address) :
    (deleteAccounts env addrs).accountAlive a = (env.accountAlive a && !decide (a ∈ addrs)) := by
  induction addrs generalizing env with
  | nil => simp [deleteAccounts]
  | cons b rest ih =>
    rw [deleteAccounts, List.foldl_cons, ← deleteAccounts, ih]
    by_cases hab : a = b
    · subst hab
      simp [deleteAccountStep]
    · have hne : (a != b) = true := bne_iff_ne.mpr hab
      simp [deleteAccountStep, hab, hne]

/-! ## `updateUTXO` -/

/-- One iteration of `updateUTXO`: an existing `Vin` is overwritten field by field; a new one
is cached only when it is alive. -/
def updateUTXOStep (utxo : Address → Option Vin) (e : Address × Vin) : Address → Option Vin :=
  match utxo e.1 with
  | some _ => Function.update utxo e.1 (some e.2)
  | none => if 0 < e.2.alive then Function.update utxo e.1 (some e.2) else utxo

/-- `updateUTXO`, over the entries of the map in its iteration order. -/
def updateUTXO (utxo : Address → Option Vin) (vins : List (Address × Vin)) :
    Address → Option Vin :=
  vins.foldl updateUTXOStep utxo

/-- What the update writes under `a`, given what was there: the new `Vin` replaces an old
one, and is added when there was none only if it is alive. -/
def written (old : Option Vin) (v : Vin) : Option Vin :=
  if old.isSome || 0 < v.alive then some v else old

theorem updateUTXOStep_apply (utxo : Address → Option Vin) (e : Address × Vin) (a : Address) :
    updateUTXOStep utxo e a = if a = e.1 then written (utxo a) e.2 else utxo a := by
  unfold updateUTXOStep written
  by_cases ha : a = e.1
  · rw [if_pos ha, ha]
    cases h : utxo e.1 <;> by_cases hv : 0 < e.2.alive <;> simp [h, hv]
  · cases utxo e.1 <;> split_ifs <;> simp [ha]

/-- An address without an entry keeps its `Vin`. -/
theorem updateUTXO_of_not_mem (utxo : Address → Option Vin) {vins : List (Address × Vin)}
    {a : Address} (ha : a ∉ vins.map Prod.fst) : updateUTXO utxo vins a = utxo a := by
  induction vins generalizing utxo with
  | nil => rfl
  | cons e rest ih =>
    rw [List.map_cons, List.mem_cons, not_or] at ha
    rw [updateUTXO, List.foldl_cons, ← updateUTXO, ih _ ha.2, updateUTXOStep_apply, if_neg ha.1]

/-- An address with an entry, among entries with distinct addresses, holds what the update
writes; the induction is on the entries, and the one of `a` is the only one that touches it. -/
theorem updateUTXO_of_mem (utxo : Address → Option Vin) {vins : List (Address × Vin)}
    (hvins : (vins.map Prod.fst).Nodup) {a : Address} {v : Vin} (ha : (a, v) ∈ vins) :
    updateUTXO utxo vins a = written (utxo a) v := by
  induction vins generalizing utxo with
  | nil => simp at ha
  | cons e rest ih =>
    rw [List.map_cons, List.nodup_cons] at hvins
    rw [updateUTXO, List.foldl_cons, ← updateUTXO]
    rcases List.mem_cons.mp ha with rfl | ha'
    · rw [updateUTXO_of_not_mem _ hvins.1, updateUTXOStep_apply, if_pos rfl]
    · have hae : a ≠ e.1 := fun h => hvins.1 (h ▸ List.mem_map_of_mem ha')
      rw [ih _ hvins.2 ha', updateUTXOStep_apply, if_neg hae]

/-- A live `Vin` is always written. -/
theorem written_of_alive (old : Option Vin) {v : Vin} (hv : v.alive ≠ 0) :
    written old v = some v := by
  have : 0 < v.alive := by
    rw [UInt8.lt_iff_toNat_lt]
    have : v.alive.toNat ≠ 0 := fun h => hv (UInt8.toNat_inj.mp (by simpa using h))
    simpa [Nat.pos_iff_ne_zero] using this
  simp [written, this]

/-- A dead `Vin` leaves no live `Vin`: it replaces the old one, or nothing is written. -/
theorem alive_of_written {old : Option Vin} {v w : Vin} (hv : v.alive = 0)
    (hw : written old v = some w) : w.alive = 0 := by
  unfold written at hw
  split_ifs at hw with h
  · cases hw
    exact hv
  · cases old with
    | none => simp at hw
    | some u => simp at h

/-! ## The condensing part of `QtumState::execute` -/

/-- What `QtumState::execute` does after an execution that is kept and raised no exception:
it deletes the self-destructed accounts, builds the condensing transaction, and records the
`Vin`s it creates. `getHash` is `CTransaction::GetHash`. `none` is the exception thrown when
the output limit is reached, after which the state is reverted. -/
def condense (getHash : CTransaction → H256) (env : CondensingEnv)
    (transfers : List TransferInfo) (transaction : QtumTransaction) (del : List Address) :
    Option (CTransaction × CondensingEnv) :=
  let env := deleteAccounts env del
  let r := CondensingTX.createCondensingTX env (CondensingTX.mk' transfers transaction del)
  if r.2.voutOverflow then none
  else some (r.1, { env with vin := updateUTXO env.vin (r.2.createVin (getHash r.1)) })

end QtumState

end HydraNode
