import HydraNode.Lydra.Spending

/-!
# Undefined behaviour in the LYDRA checks

`LydraView.locked` of `HydraNode.Lydra.Spending` reads the locked amount of a destination as a
number. The code reads it with

```
Lydra l;
uint64_t locked_hydra_amount;
l.getLockedHydraAmountPerAddress(boost::get<CKeyID>(&dest)->GetReverseHex(), locked_hydra_amount);
```

in `CheckBlockLydraSpending` and in the address-index branch of `ConnectBlock`, which can go
wrong twice. `boost::get<CKeyID>` answers a null pointer for every destination that is not a
key hash, and a script hash or a witness program is one that the address index accepts
(`DecodeIndexKey` gives it the types 2 to 4), so the member call goes through the null pointer.
And `getLockedHydraAmountPerAddress` leaves its output unwritten when the contract call fails,
so the comparison that follows reads an uninitialised variable.

`LydraFault` names the two, and `checkTxE`, `CheckBlockLydraSpendingE` and
`connectBlockLydraCheckE` are the checks with the faults made explicit; `getLocked` is the
contract call for a key id, `none` where it fails.

## Results

Both checks fault on a transaction whose inputs spend script-hash or witness coins
(`LydraSpending_derefs_null_keyID`), and both fault when the call fails for the key of
the first address they check (`CheckBlockLydraSpendingE_uninitLocked`,
`connectBlockLydraCheckE_uninitLocked`). Where no fault occurs, `CheckBlockLydraSpendingE` is
`CheckBlockLydraSpending` of the view whose `locked` is the call's answer
(`CheckBlockLydraSpending_of_E`), and on a block whose inputs pay to key hashes with calls that
succeed it never faults (`CheckBlockLydraSpendingE_eq_ok`).

## Main definitions

* `CTxDestination`, `DecodeIndexKey`, `LydraFault`
* `LydraView.checkTxE`, `CheckBlockLydraSpendingE`
* `LydraView.connectBlockLydraCheckE`
-/

namespace HydraNode

/-- `CTxDestination` (`script/standard.h`), the destinations a script pays to. The variant
default-constructs to `CNoDestination`. -/
inductive CTxDestination
  | CNoDestination
  | CKeyID (id : Address)
  | CScriptID (id : Address)
  | WitnessV0ScriptHash (hash : H256)
  | WitnessV0KeyHash (hash : Address)
  | WitnessUnknown (version : ℕ) (program : List UInt8)
  deriving DecidableEq, Repr, Inhabited

/-- `boost::get<CKeyID>(&dest)`: the key id of a key-hash destination, a null pointer (`none`)
for the other kinds. -/
def CTxDestination.getKeyID : CTxDestination → Option Address
  | .CKeyID id => some id
  | _ => none

/-- `DecodeIndexKey(EncodeDestination(dest), hashBytes, type)`, the encoding read back as the
destination it encodes: the key of the address index for a key hash (type 1), a script hash
(2), a witness script hash (3) and a witness key hash (4). A 20-byte hash fills the low bytes
of `hashBytes`. `IsValidDestination` fails only for `CNoDestination`, which has no key either. -/
def DecodeIndexKey : CTxDestination → Option (H256 × ℕ)
  | .CKeyID id => some (U256.ofNat id.val, 1)
  | .CScriptID id => some (U256.ofNat id.val, 2)
  | .WitnessV0ScriptHash hash => some (hash, 3)
  | .WitnessV0KeyHash hash => some (U256.ofNat hash.val, 4)
  | _ => none

/-- What the LYDRA checks do that C++ leaves undefined. -/
inductive LydraFault
  /-- `boost::get<CKeyID>(&dest)->GetReverseHex()` on a destination that is not a key hash:
  a member call through the null pointer. -/
  | nullKeyID
  /-- A comparison with `locked_hydra_amount` after `getLockedHydraAmountPerAddress` returned
  `false` without writing it. -/
  | uninitLocked
  deriving DecidableEq, Repr

/-- `l.getLockedHydraAmountPerAddress(boost::get<CKeyID>(&dest)->GetReverseHex(), ...)`: the
pointer is dereferenced first, then the contract is called with the key id. -/
def getLockedHydraAmount (getLocked : Address → Option ℕ) (dest : CTxDestination) :
    Except LydraFault (Option ℕ) :=
  match dest.getKeyID with
  | none => .error .nullKeyID
  | some keyID => .ok (getLocked keyID)

/-- The fault the first check of an address runs into, if any: a first check always compares
with the locked amount. -/
def firstCheckFault (getLocked : Address → Option ℕ) (dest : CTxDestination) :
    Option LydraFault :=
  match getLockedHydraAmount getLocked dest with
  | .error e => some e
  | .ok none => some .uninitLocked
  | .ok (some _) => none

theorem firstCheckFault_of_getKeyID_eq_none (getLocked : Address → Option ℕ)
    {dest : CTxDestination} (h : dest.getKeyID = none) :
    firstCheckFault getLocked dest = some .nullKeyID := by
  simp [firstCheckFault, getLockedHydraAmount, h]

theorem firstCheckFault_CKeyID {getLocked : Address → Option ℕ} {keyID : Address}
    (h : getLocked keyID = none) :
    firstCheckFault getLocked (.CKeyID keyID) = some .uninitLocked := by
  simp [firstCheckFault, getLockedHydraAmount, CTxDestination.getKeyID, h]

theorem getLockedHydraAmount_eq_ok {getLocked : Address → Option ℕ} {dest : CTxDestination}
    {locked : Option ℕ} : getLockedHydraAmount getLocked dest = .ok locked ↔
      ∃ keyID, dest = .CKeyID keyID ∧ getLocked keyID = locked := by
  cases dest <;> simp [getLockedHydraAmount, CTxDestination.getKeyID]

namespace LydraView

section scan

variable {D : Type*} [DecidableEq D] [Inhabited D] (v : LydraView D)

/-- `d` is the destination of the coin an input of `tx` spends. -/
def InputDest (tx : CTransaction) (d : D) : Prop :=
  ∃ txin ∈ tx.vin, v.extractPrevout txin.prevout (v.getOutputFor txin.prevout).scriptPubKey = some d

/-- Every address of the index is the destination of an input of `tx`. -/
def IndexOfInputs (tx : CTransaction) (t : TxScan D) : Prop :=
  ∀ key ∈ t.index.keys, v.InputDest tx (t.addrhashDest (ofLex key).1)

/-- What an input does to the scan of a transaction, in both checks: its destination is recorded
under its index key. -/
def scanInput (t : TxScan D) (txin : CTxIn) : TxScan D :=
  let prevout := v.getOutputFor txin.prevout
  match v.extractPrevout txin.prevout prevout.scriptPubKey with
  | none => t
  | some dest =>
    match v.indexKey dest with
    | none => t
    | some (hashBytes, type) =>
      { t with
        index := t.index.insert (toLex (hashBytes, type)) ()
        addrhashDest := Function.update t.addrhashDest hashBytes dest
        inputs := Function.update t.inputs dest (t.inputs dest + prevout.nValue) }

theorem inputStep_scan (rejectNoDest : Bool) (s : Balances D × TxScan D) (txin : CTxIn) :
    (v.inputStep rejectNoDest s txin).2.2 = v.scanInput s.2 txin := by
  unfold inputStep scanInput
  dsimp only
  cases v.extractPrevout txin.prevout (v.getOutputFor txin.prevout).scriptPubKey with
  | none => rfl
  | some dest =>
    dsimp only
    cases v.indexKey dest with
    | none => rfl
    | some key =>
      dsimp only
      split
      · rfl
      · split <;> rfl

theorem indexOfInputs_scanInput {tx : CTransaction} {txin : CTxIn} (hin : txin ∈ tx.vin)
    {t : TxScan D} (ht : v.IndexOfInputs tx t) : v.IndexOfInputs tx (v.scanInput t txin) := by
  unfold scanInput
  dsimp only
  split
  · exact ht
  · rename_i dest hdest
    have hd : v.InputDest tx dest := ⟨txin, hin, hdest⟩
    split
    · exact ht
    · rename_i hashBytes type _
      intro key hkey
      rcases (OrdMap.mem_keys_insert _ _ _ _).mp hkey with rfl | hkey
      · simpa using hd
      · -- an older key keeps its destination unless the new one shares its hash
        by_cases hh : (ofLex key).1 = hashBytes
        · simpa [hh] using hd
        · simpa [hh] using ht key hkey

theorem mem_keys_scanInput {t : TxScan D} {key : H256 ×ₗ ℕ} (hkey : key ∈ t.index.keys)
    (txin : CTxIn) : key ∈ (v.scanInput t txin).index.keys := by
  unfold scanInput
  dsimp only
  split
  · exact hkey
  · split
    · exact hkey
    · exact (OrdMap.mem_keys_insert _ _ _ _).mpr (Or.inr hkey)

theorem keys_scanInput_ne_nil {t : TxScan D} {txin : CTxIn} {dest : D}
    (hdest : v.extractPrevout txin.prevout (v.getOutputFor txin.prevout).scriptPubKey = some dest)
    (hkey : (v.indexKey dest).isSome) : (v.scanInput t txin).index.keys ≠ [] := by
  obtain ⟨⟨hashBytes, type⟩, hk⟩ := Option.isSome_iff_exists.mp hkey
  have hmem : toLex (hashBytes, type) ∈ (v.scanInput t txin).index.keys := by
    simp only [scanInput, hdest, hk]
    exact (OrdMap.mem_keys_insert _ _ _ _).mpr (Or.inl rfl)
  exact List.ne_nil_of_mem hmem

/-- The input step of `CheckBlockLydraSpending` goes on when the input's destination has an
index key and the address index answers. -/
theorem inputStep_fst {txin : CTxIn}
    (hkey : ∀ d, v.extractPrevout txin.prevout (v.getOutputFor txin.prevout).scriptPubKey =
      some d → (v.indexKey d).isSome)
    (hunspent : ∀ hashBytes type, (v.getAddressUnspent hashBytes type).isSome)
    (s : Balances D × TxScan D) : (v.inputStep false s txin).1 = true := by
  unfold inputStep
  dsimp only
  split
  · rfl
  · rename_i dest hdest
    obtain ⟨⟨hashBytes, type⟩, hk⟩ := Option.isSome_iff_exists.mp (hkey dest hdest)
    obtain ⟨unspent, hu⟩ := Option.isSome_iff_exists.mp (hunspent hashBytes type)
    simp only [hk]
    split
    · rfl
    · simp only [hu]

@[simp] theorem index_foldl_outputStep (l : List CTxOut) (t : TxScan D) :
    (l.foldl v.outputStep t).index = t.index := by
  induction l generalizing t with
  | nil => rfl
  | cons o l ih =>
    rw [List.foldl_cons, ih]
    unfold outputStep
    split <;> rfl

@[simp] theorem addrhashDest_foldl_outputStep (l : List CTxOut) (t : TxScan D) :
    (l.foldl v.outputStep t).addrhashDest = t.addrhashDest := by
  induction l generalizing t with
  | nil => rfl
  | cons o l ih =>
    rw [List.foldl_cons, ih]
    unfold outputStep
    split <;> rfl

theorem indexOfInputs_foldl_outputStep {tx : CTransaction} {t : TxScan D}
    (ht : v.IndexOfInputs tx t) (l : List CTxOut) : v.IndexOfInputs tx (l.foldl v.outputStep t) := by
  intro key hkey
  rw [index_foldl_outputStep] at hkey
  rw [addrhashDest_foldl_outputStep]
  exact ht key hkey

/-! ### The input loops

Both input loops act on the scan through `scanInput`; `scan` reads the scan off the loop's state
and `hf` says the step acts through `scanInput`. -/

/-- Every address an input loop records is the destination of an input. The induction is the
loop's invariant rule. -/
theorem indexOfInputs_loop {σ : Type*} {f : σ → CTxIn → Bool × σ} {scan : σ → TxScan D}
    (hf : ∀ s txin, scan (f s txin).2 = v.scanInput (scan s) txin) (tx : CTransaction) {s : σ}
    (hs : scan s = {}) : v.IndexOfInputs tx (scan (loopBreak f s tx.vin).2) := by
  refine loopBreak_inv f (fun s => v.IndexOfInputs tx (scan s)) (fun s txin hin ht => ?_) ?_
  · rw [hf]
    exact v.indexOfInputs_scanInput hin ht
  · intro key hkey
    rw [hs] at hkey
    cases hkey

/-- An input loop that runs to its end records an address when one of the inputs has a
destination with an index key. -/
theorem keys_loop_ne_nil {σ : Type*} {f : σ → CTxIn → Bool × σ} {scan : σ → TxScan D}
    (hf : ∀ s txin, scan (f s txin).2 = v.scanInput (scan s) txin) {tx : CTransaction} {d : D}
    (hdest : v.InputDest tx d) (hkey : (v.indexKey d).isSome) {s : σ}
    (hrun : (loopBreak f s tx.vin).1 = true) : (scan (loopBreak f s tx.vin).2).index.keys ≠ [] := by
  obtain ⟨txin, hin, hd⟩ := hdest
  refine loopBreak_of_mem f (fun s => (scan s).index.keys ≠ []) hin (fun s _ => ?_)
    (fun s _ _ ht => ?_) hrun
  · rw [hf]
    exact v.keys_scanInput_ne_nil hd hkey
  · rw [hf]
    obtain ⟨key, hmem⟩ := List.exists_mem_of_ne_nil _ ht
    exact List.ne_nil_of_mem (v.mem_keys_scanInput hmem _)

end scan

/-! ## `CheckBlockLydraSpending` -/

variable (v : LydraView CTxDestination) (getLocked : Address → Option ℕ)

/-- `addressStep` with its faults: the pointer is dereferenced on every iteration, the locked
amount is read only by the first check of an address. -/
def addressStepE (t : TxScan CTxDestination) (s : Balances CTxDestination × List H256)
    (key : H256 ×ₗ ℕ) : Except LydraFault (Bool × (Balances CTxDestination × List H256)) :=
  let hash := (ofLex key).1
  let dest := t.addrhashDest hash
  let balance := (s.1 dest).getD 0 - t.inputs dest + t.outputs dest
  match getLockedHydraAmount getLocked dest with
  | .error e => .error e
  | .ok locked =>
    if hash ∉ s.2 then
      match locked with
      | none => .error .uninitLocked
      | some locked =>
        if toUInt64 balance < locked then .ok (false, s)
        else .ok (true, (Function.update s.1 dest (some balance), hash :: s.2))
    else .ok (true, s)

/-- `checkTx` with its faults. -/
def checkTxE (rejectNoDest : Bool) (balances : Balances CTxDestination) (tx : CTransaction) :
    Except LydraFault (Bool × Balances CTxDestination) :=
  let r := loopBreak (v.inputStep rejectNoDest) (balances, {}) tx.vin
  if !r.1 then .ok (false, r.2.1)
  else
    let t := tx.vout.foldl v.outputStep r.2.2
    match loopBreakE (addressStepE getLocked t) (r.2.1, []) t.index.keys with
    | .error e => .error e
    | .ok r' => .ok (r'.1, r'.2.1)

/-- `blockStep` with its faults. -/
def blockStepE (balances : Balances CTxDestination) (tx : CTransaction) :
    Except LydraFault (Bool × Balances CTxDestination) :=
  if tx.IsCoinBase || tx.IsCoinStake then .ok (true, balances)
  else v.checkTxE getLocked false balances tx

end LydraView

/-- `CheckBlockLydraSpending` with its faults. -/
def CheckBlockLydraSpendingE (v : LydraView CTxDestination) (getLocked : Address → Option ℕ)
    (vtx : List CTransaction) : Except LydraFault Bool :=
  match loopBreakE (v.blockStepE getLocked) (fun _ => none) vtx with
  | .error e => .error e
  | .ok r => .ok r.1

namespace LydraView

variable (v : LydraView CTxDestination) (getLocked : Address → Option ℕ)

/-! ## The address-index branch of `ConnectBlock` -/

/-- One iteration of the input loop of the address-index branch of `ConnectBlock`: no balance
is looked up, and an input whose destination has no index key rejects the block. The view's
coins are those of the block being connected. -/
def connectInputStep (t : TxScan CTxDestination) (txin : CTxIn) :
    Bool × TxScan CTxDestination :=
  let prevout := v.getOutputFor txin.prevout
  match v.extractPrevout txin.prevout prevout.scriptPubKey with
  | none => (true, t)
  | some dest =>
    match v.indexKey dest with
    | none => (false, t)
    | some (hashBytes, type) =>
      (true, { t with
        index := t.index.insert (toLex (hashBytes, type)) ()
        addrhashDest := Function.update t.addrhashDest hashBytes dest
        inputs := Function.update t.inputs dest (t.inputs dest + prevout.nValue) })

/-- One iteration of its loop over `addresses_index`: the balance is the value of all the
address's unspent outputs (when `GetAddressUnspent` fails the list stays empty), and
`locked_hydra_amount` is compared with whether the call wrote it or not. -/
def connectAddressStepE (t : TxScan CTxDestination) (u : Unit) (key : H256 ×ₗ ℕ) :
    Except LydraFault (Bool × Unit) :=
  let hashBytes := (ofLex key).1
  let unspent := (v.getAddressUnspent hashBytes (ofLex key).2).getD []
  let rembalance := unspent.foldl (fun acc o => acc + o.satoshis) 0
  let dest := t.addrhashDest hashBytes
  match getLockedHydraAmount getLocked dest with
  | .error e => .error e
  | .ok none => .error .uninitLocked
  | .ok (some locked) =>
    .ok (!decide (toUInt64 (rembalance - t.inputs dest + t.outputs dest) < locked), u)

/-- The LYDRA check of a transaction in the address-index branch of `ConnectBlock` (run when
`fAddressIndex` is set) for a block at height `nHeight`; `false` rejects the block. -/
def connectBlockLydraCheckE (nHeight nLydraHeight : ℤ) (tx : CTransaction) :
    Except LydraFault Bool :=
  if tx.IsCoinBase then .ok true
  else
    let r := loopBreak v.connectInputStep {} tx.vin
    if !r.1 then .ok false
    else
      let t := tx.vout.foldl v.outputStep r.2
      if nLydraHeight ≤ nHeight ∧ tx.IsCoinStake = false then
        match loopBreakE (v.connectAddressStepE getLocked t) () t.index.keys with
        | .error e => .error e
        | .ok r' => .ok r'.1
      else .ok true

theorem connectInputStep_scan (t : TxScan CTxDestination) (txin : CTxIn) :
    (v.connectInputStep t txin).2 = v.scanInput t txin := by
  unfold connectInputStep scanInput
  dsimp only
  cases v.extractPrevout txin.prevout (v.getOutputFor txin.prevout).scriptPubKey with
  | none => rfl
  | some dest =>
    dsimp only
    cases v.indexKey dest <;> rfl

theorem connectInputStep_fst {txin : CTxIn}
    (hkey : ∀ d, v.extractPrevout txin.prevout (v.getOutputFor txin.prevout).scriptPubKey =
      some d → (v.indexKey d).isSome) (t : TxScan CTxDestination) :
    (v.connectInputStep t txin).1 = true := by
  unfold connectInputStep
  dsimp only
  split
  · rfl
  · rename_i dest hdest
    obtain ⟨⟨hashBytes, type⟩, hk⟩ := Option.isSome_iff_exists.mp (hkey dest hdest)
    simp only [hk]

/-! ## Faults -/

variable {getLocked}

theorem addressStepE_of_firstCheckFault {t : TxScan CTxDestination}
    {s : Balances CTxDestination × List H256} {key : H256 ×ₗ ℕ} {e : LydraFault}
    (h : firstCheckFault getLocked (t.addrhashDest (ofLex key).1) = some e)
    (hnew : (ofLex key).1 ∉ s.2) : addressStepE getLocked t s key = .error e := by
  unfold addressStepE
  unfold firstCheckFault at h
  split at h
  · rename_i e' he
    cases h
    simp only [he]
  · rename_i he
    cases h
    simp only [he, hnew, not_false_eq_true, if_true]
  · cases h

theorem connectAddressStepE_of_firstCheckFault {t : TxScan CTxDestination} {key : H256 ×ₗ ℕ}
    {e : LydraFault} (h : firstCheckFault getLocked (t.addrhashDest (ofLex key).1) = some e) :
    v.connectAddressStepE getLocked t () key = .error e := by
  unfold connectAddressStepE
  unfold firstCheckFault at h
  split at h
  · rename_i e' he
    cases h
    simp only [he]
  · rename_i he
    cases h
    simp only [he]
  · cases h

/-- The address loop of a transaction faults at its first key when every input destination
faults at its first check. -/
theorem loopBreakE_of_firstCheckFault {σ : Type*} {tx : CTransaction}
    {t : TxScan CTxDestination} {e : LydraFault}
    {f : σ → H256 ×ₗ ℕ → Except LydraFault (Bool × σ)} {s : σ}
    (hI : v.IndexOfInputs tx t) (hne : t.index.keys ≠ [])
    (hfault : ∀ d, v.InputDest tx d → firstCheckFault getLocked d = some e)
    (hstep : ∀ key, firstCheckFault getLocked (t.addrhashDest (ofLex key).1) = some e →
      f s key = .error e) :
    loopBreakE f s t.index.keys = .error e := by
  obtain ⟨key, rest, hkeys⟩ := List.exists_cons_of_ne_nil hne
  have hkey : key ∈ t.index.keys := hkeys ▸ List.mem_cons_self
  rw [hkeys, ← List.nil_append (key :: rest)]
  exact loopBreakE_append_cons_of_error rfl (hstep key (hfault _ (hI key hkey)))

/-- A transaction with an input destination, every one of which has an index key and faults at
its first check with `e`, makes the check of `CheckBlockLydraSpending` fault with `e`. -/
theorem checkTxE_eq_error {e : LydraFault} (balances : Balances CTxDestination)
    {tx : CTransaction} (hunspent : ∀ hashBytes type, (v.getAddressUnspent hashBytes type).isSome)
    (hdest : ∃ d, v.InputDest tx d)
    (hfault : ∀ d, v.InputDest tx d → (v.indexKey d).isSome ∧ firstCheckFault getLocked d = some e) :
    v.checkTxE getLocked false balances tx = .error e := by
  have hrun : (loopBreak (v.inputStep false) (balances, {}) tx.vin).1 = true :=
    loopBreak_fst_of_forall _ (fun s txin hin =>
      v.inputStep_fst (fun d hd => (hfault d ⟨txin, hin, hd⟩).1) hunspent s) _
  have hf := v.inputStep_scan false
  obtain ⟨d, hd⟩ := hdest
  -- the address loop faults at its first key, whose destination is an input's
  have hloop := v.loopBreakE_of_firstCheckFault
    (v.indexOfInputs_foldl_outputStep (v.indexOfInputs_loop hf tx rfl) tx.vout)
    (by rw [index_foldl_outputStep]; exact v.keys_loop_ne_nil hf hd (hfault d hd).1 hrun)
    (fun d hd => (hfault d hd).2)
    (s := ((loopBreak (v.inputStep false) (balances, {}) tx.vin).2.1, []))
    (fun key hk => addressStepE_of_firstCheckFault hk List.not_mem_nil)
  unfold checkTxE
  simp only [hrun, Bool.not_true, Bool.false_eq_true, if_false, hloop]

/-- The same in `ConnectBlock`, for a transaction that is neither coinbase nor coinstake of a
block at or above the LYDRA height. -/
theorem connectBlockLydraCheckE_eq_error {e : LydraFault} {nHeight nLydraHeight : ℤ}
    (hheight : nLydraHeight ≤ nHeight) {tx : CTransaction} (hcb : tx.IsCoinBase = false)
    (hcs : tx.IsCoinStake = false) (hdest : ∃ d, v.InputDest tx d)
    (hfault : ∀ d, v.InputDest tx d → (v.indexKey d).isSome ∧ firstCheckFault getLocked d = some e) :
    v.connectBlockLydraCheckE getLocked nHeight nLydraHeight tx = .error e := by
  have hrun : (loopBreak v.connectInputStep {} tx.vin).1 = true :=
    loopBreak_fst_of_forall _ (fun t txin hin =>
      v.connectInputStep_fst (fun d hd => (hfault d ⟨txin, hin, hd⟩).1) t) _
  have hf : ∀ t txin, id (v.connectInputStep t txin).2 = v.scanInput (id t) txin :=
    v.connectInputStep_scan
  obtain ⟨d, hd⟩ := hdest
  have hloop := v.loopBreakE_of_firstCheckFault
    (v.indexOfInputs_foldl_outputStep (v.indexOfInputs_loop hf tx rfl) tx.vout)
    (by rw [index_foldl_outputStep]; exact v.keys_loop_ne_nil hf hd (hfault d hd).1 hrun)
    (fun d hd => (hfault d hd).2) (fun key hk => v.connectAddressStepE_of_firstCheckFault hk)
  simp only [id_eq] at hloop
  unfold connectBlockLydraCheckE
  simp only [hcb, hrun, hcs, hheight, and_self, Bool.not_true, Bool.false_eq_true, if_false,
    if_true, hloop]

/-! ## Without faults

`hlocked` says that the view reads the contract's answer as the locked amount of a key hash. -/

section refinement

variable (hlocked : ∀ keyID n, getLocked keyID = some n → v.locked (.CKeyID keyID) = n)
include hlocked

/-- An address step that does not fault is the step of the view. -/
theorem addressStep_of_addressStepE {t : TxScan CTxDestination}
    {s : Balances CTxDestination × List H256} {key : H256 ×ₗ ℕ}
    {r : Bool × (Balances CTxDestination × List H256)} (h : addressStepE getLocked t s key = .ok r) :
    v.addressStep t s key = r := by
  unfold addressStepE at h
  unfold addressStep
  dsimp only at h ⊢
  split at h
  · cases h
  · rename_i locked hl
    obtain ⟨keyID, hd, rfl⟩ := getLockedHydraAmount_eq_ok.mp hl
    by_cases hnew : (ofLex key).1 ∈ s.2
    · simp only [hnew, not_true_eq_false, false_and, if_false, Except.ok.injEq] at h ⊢
      exact h
    · cases hcall : getLocked keyID with
      | none => simp [hnew, hcall] at h
      | some n =>
        simp only [hnew, hcall, hd, hlocked keyID n hcall, not_false_eq_true, true_and,
          if_true] at h ⊢
        split_ifs at h ⊢ <;> exact Except.ok.inj h

/-- An address step on a key hash whose call succeeds does not fault. -/
theorem addressStepE_of_CKeyID {t : TxScan CTxDestination}
    {s : Balances CTxDestination × List H256} {key : H256 ×ₗ ℕ} {keyID : Address} {n : ℕ}
    (hd : t.addrhashDest (ofLex key).1 = .CKeyID keyID) (hcall : getLocked keyID = some n) :
    addressStepE getLocked t s key = .ok (v.addressStep t s key) := by
  unfold addressStepE addressStep
  dsimp only
  simp only [hd, getLockedHydraAmount, CTxDestination.getKeyID, hcall, hlocked keyID n hcall]
  by_cases hnew : (ofLex key).1 ∈ s.2
  · simp only [hnew, not_true_eq_false, false_and, if_false]
  · simp only [hnew, not_false_eq_true, true_and, if_true]
    split_ifs <;> rfl

theorem checkTx_of_checkTxE {rejectNoDest : Bool} {balances : Balances CTxDestination}
    {tx : CTransaction} {r : Bool × Balances CTxDestination}
    (h : v.checkTxE getLocked rejectNoDest balances tx = .ok r) :
    v.checkTx rejectNoDest balances tx = r := by
  unfold checkTxE at h
  unfold checkTx
  dsimp only at h ⊢
  split at h
  · rename_i hr
    rw [if_pos hr]
    exact Except.ok.inj h
  · rename_i hr
    rw [if_neg hr]
    split at h
    · cases h
    · rename_i r' hloop
      cases h
      rw [loopBreak_eq_of_loopBreakE (fun _ _ _ _ hs => v.addressStep_of_addressStepE hlocked hs)
        hloop]

/-- The check of a transaction whose input destinations are key hashes with calls that succeed
does not fault. -/
theorem checkTxE_eq_ok {rejectNoDest : Bool} {balances : Balances CTxDestination}
    {tx : CTransaction}
    (hkeys : ∀ d, v.InputDest tx d → ∃ keyID n, d = .CKeyID keyID ∧ getLocked keyID = some n) :
    v.checkTxE getLocked rejectNoDest balances tx = .ok (v.checkTx rejectNoDest balances tx) := by
  have hI := v.indexOfInputs_foldl_outputStep
    (v.indexOfInputs_loop (v.inputStep_scan rejectNoDest) tx (s := (balances, {})) rfl) tx.vout
  unfold checkTxE checkTx
  dsimp only
  split
  · rfl
  · -- every address of the index is an input's key hash
    rw [loopBreakE_eq_ok (g := v.addressStep _) (fun _ => True) (fun s key hkey _ => ?_) trivial]
    obtain ⟨keyID, n, hd, hcall⟩ := hkeys _ (hI key hkey)
    exact ⟨v.addressStepE_of_CKeyID hlocked hd hcall, trivial⟩

theorem blockStep_of_blockStepE {balances : Balances CTxDestination} {tx : CTransaction}
    {r : Bool × Balances CTxDestination} (h : v.blockStepE getLocked balances tx = .ok r) :
    v.blockStep balances tx = r := by
  unfold blockStepE at h
  unfold blockStep
  split at h
  · rename_i hskip
    rw [if_pos hskip]
    exact Except.ok.inj h
  · rename_i hskip
    rw [if_neg hskip]
    exact v.checkTx_of_checkTxE hlocked h

theorem blockStepE_eq_ok {balances : Balances CTxDestination} {tx : CTransaction}
    (hkeys : (tx.IsCoinBase || tx.IsCoinStake) = false →
      ∀ d, v.InputDest tx d → ∃ keyID n, d = .CKeyID keyID ∧ getLocked keyID = some n) :
    v.blockStepE getLocked balances tx = .ok (v.blockStep balances tx) := by
  unfold blockStepE blockStep
  split
  · rfl
  · rename_i hskip
    exact v.checkTxE_eq_ok hlocked (hkeys (by simpa using hskip))

end refinement

end LydraView

/-- The validator's check faults with `e` on a block whose transactions before `tx` are coinbase
or coinstake, when `tx` has an input destination and every one of them faults at its first
check with `e`. -/
theorem CheckBlockLydraSpendingE_eq_error (v : LydraView CTxDestination)
    {getLocked : Address → Option ℕ} {e : LydraFault}
    (hunspent : ∀ hashBytes type, (v.getAddressUnspent hashBytes type).isSome)
    {pre post : List CTransaction} {tx : CTransaction}
    (hpre : ∀ t ∈ pre, (t.IsCoinBase || t.IsCoinStake) = true)
    (htx : (tx.IsCoinBase || tx.IsCoinStake) = false) (hdest : ∃ d, v.InputDest tx d)
    (hfault : ∀ d, v.InputDest tx d → (v.indexKey d).isSome ∧ firstCheckFault getLocked d = some e) :
    CheckBlockLydraSpendingE v getLocked (pre ++ tx :: post) = .error e := by
  -- the transactions before `tx` are skipped, with the fresh map
  have hskip : loopBreakE (v.blockStepE getLocked) (fun _ => none) pre = .ok (true, fun _ => none) := by
    rw [loopBreakE_eq_ok (g := fun s _ => (true, s)) (fun _ => True)
      (fun s t ht _ => ⟨by simp [LydraView.blockStepE, hpre t ht], trivial⟩) trivial,
      loopBreak_eq_foldl _ (fun _ _ => rfl), List.foldl_fixed]
  have hstep : v.blockStepE getLocked (fun _ => none) tx = .error e := by
    simp only [LydraView.blockStepE, htx, Bool.false_eq_true, if_false]
    exact v.checkTxE_eq_error _ hunspent hdest hfault
  unfold CheckBlockLydraSpendingE
  rw [loopBreakE_append_cons_of_error hskip hstep]

/-- A script-hash or witness-program destination: one the address index accepts and that is not
a key hash. -/
theorem getKeyID_DecodeIndexKey {d : CTxDestination}
    (hd : (∃ id, d = .CScriptID id) ∨ (∃ hash, d = .WitnessV0ScriptHash hash) ∨
      ∃ hash, d = .WitnessV0KeyHash hash) :
    d.getKeyID = none ∧ (DecodeIndexKey d).isSome := by
  rcases hd with ⟨_, rfl⟩ | ⟨_, rfl⟩ | ⟨_, rfl⟩ <;> exact ⟨rfl, rfl⟩

/-- Both LYDRA checks dereference a null `CKeyID` pointer on a transaction that spends coins
of script hashes or witness programs: for every view whose index keys are `DecodeIndexKey`'s
and whose address index answers, every block whose transactions before `tx` are coinbase or
coinstake, and every `tx` that is neither, with an input destination, all of them of these
kinds. -/
theorem LydraSpending_derefs_null_keyID (v : LydraView CTxDestination)
    (getLocked : Address → Option ℕ) (hidx : v.indexKey = DecodeIndexKey)
    (hunspent : ∀ hashBytes type, (v.getAddressUnspent hashBytes type).isSome)
    {pre post : List CTransaction} {tx : CTransaction}
    (hpre : ∀ t ∈ pre, (t.IsCoinBase || t.IsCoinStake) = true)
    (hcb : tx.IsCoinBase = false) (hcs : tx.IsCoinStake = false) (hdest : ∃ d, v.InputDest tx d)
    (hkind : ∀ d, v.InputDest tx d → (∃ id, d = .CScriptID id) ∨
      (∃ hash, d = .WitnessV0ScriptHash hash) ∨ ∃ hash, d = .WitnessV0KeyHash hash)
    {nHeight nLydraHeight : ℤ} (hheight : nLydraHeight ≤ nHeight) :
    CheckBlockLydraSpendingE v getLocked (pre ++ tx :: post) = .error .nullKeyID ∧
      v.connectBlockLydraCheckE getLocked nHeight nLydraHeight tx = .error .nullKeyID := by
  have hfault : ∀ d, v.InputDest tx d →
      (v.indexKey d).isSome ∧ firstCheckFault getLocked d = some .nullKeyID := by
    intro d hd
    obtain ⟨hnone, hkey⟩ := getKeyID_DecodeIndexKey (hkind d hd)
    exact ⟨hidx ▸ hkey, firstCheckFault_of_getKeyID_eq_none getLocked hnone⟩
  refine ⟨CheckBlockLydraSpendingE_eq_error v hunspent hpre (by simp [hcb, hcs]) hdest hfault, ?_⟩
  exact v.connectBlockLydraCheckE_eq_error hheight hcb hcs hdest hfault

/-- `OP_EQUAL`. -/
def OP_EQUAL : UInt8 := 0x87

/-- The pay-to-script-hash script `OP_HASH160 <id> OP_EQUAL`. -/
def p2shScript (id : Address) : CScript :=
  CScript.pushOp (CScript.pushData (CScript.pushOp [] OP_HASH160) id.asBytes) OP_EQUAL

/-- The node's view where every coin pays 1000 to the script hash `7`. -/
def p2shView : LydraView CTxDestination where
  getOutputFor _ := ⟨1000, p2shScript 7⟩
  extractPrevout _ s := if s = p2shScript 7 then some (.CScriptID 7) else none
  extractDestination _ := none
  indexKey := DecodeIndexKey
  getAddressUnspent _ _ := some []
  height := 0
  coinbaseMaturity := 500
  locked _ := 0

/-- A coinbase. -/
def p2shCoinbase : CTransaction := ⟨[⟨⟨0, COutPoint.NULL_INDEX⟩, []⟩], [⟨0, []⟩]⟩

/-- A transaction that spends one pay-to-script-hash coin. -/
def p2shTx : CTransaction := ⟨[⟨⟨5, 0⟩, []⟩], [⟨900, []⟩]⟩

/-- Both checks fault on the block of `p2shCoinbase` and `p2shTx`, with a contract that locks
nothing. -/
theorem LydraSpending_derefs_null_keyID_p2sh :
    CheckBlockLydraSpendingE p2shView (fun _ => some 0) ([p2shCoinbase] ++ [p2shTx]) =
        .error .nullKeyID ∧
      p2shView.connectBlockLydraCheckE (fun _ => some 0) 0 0 p2shTx = .error .nullKeyID :=
  LydraSpending_derefs_null_keyID p2shView (fun _ => some 0) rfl (fun _ _ => rfl)
    (by decide) (by decide) (by decide)
    ⟨.CScriptID 7, ⟨⟨5, 0⟩, []⟩, List.mem_singleton_self _, by simp [p2shView]⟩
    (fun d ⟨txin, hin, hd⟩ => by
      simp only [p2shTx, List.mem_singleton] at hin
      subst hin
      simp only [p2shView, if_true, Option.some.injEq] at hd
      exact Or.inl ⟨7, hd.symm⟩)
    le_rfl

/-- Both checks read the locked amount uninitialised when the contract call fails for a key
hash: the validator's check on a transaction whose input destinations are all key hashes
whose calls fail. -/
theorem CheckBlockLydraSpendingE_uninitLocked (v : LydraView CTxDestination)
    {getLocked : Address → Option ℕ} (hidx : v.indexKey = DecodeIndexKey)
    (hunspent : ∀ hashBytes type, (v.getAddressUnspent hashBytes type).isSome)
    {pre post : List CTransaction} {tx : CTransaction}
    (hpre : ∀ t ∈ pre, (t.IsCoinBase || t.IsCoinStake) = true)
    (htx : (tx.IsCoinBase || tx.IsCoinStake) = false) (hdest : ∃ d, v.InputDest tx d)
    (hkind : ∀ d, v.InputDest tx d → ∃ keyID, d = .CKeyID keyID ∧ getLocked keyID = none) :
    CheckBlockLydraSpendingE v getLocked (pre ++ tx :: post) = .error .uninitLocked := by
  refine CheckBlockLydraSpendingE_eq_error v hunspent hpre htx hdest fun d hd => ?_
  obtain ⟨keyID, rfl, hcall⟩ := hkind d hd
  exact ⟨hidx ▸ rfl, firstCheckFault_CKeyID hcall⟩

/-- The same in `ConnectBlock`. -/
theorem connectBlockLydraCheckE_uninitLocked (v : LydraView CTxDestination)
    {getLocked : Address → Option ℕ} (hidx : v.indexKey = DecodeIndexKey)
    {nHeight nLydraHeight : ℤ} (hheight : nLydraHeight ≤ nHeight) {tx : CTransaction}
    (hcb : tx.IsCoinBase = false) (hcs : tx.IsCoinStake = false) (hdest : ∃ d, v.InputDest tx d)
    (hkind : ∀ d, v.InputDest tx d → ∃ keyID, d = .CKeyID keyID ∧ getLocked keyID = none) :
    v.connectBlockLydraCheckE getLocked nHeight nLydraHeight tx = .error .uninitLocked := by
  refine v.connectBlockLydraCheckE_eq_error hheight hcb hcs hdest fun d hd => ?_
  obtain ⟨keyID, rfl, hcall⟩ := hkind d hd
  exact ⟨hidx ▸ rfl, firstCheckFault_CKeyID hcall⟩

/-- Where it does not fault, the validator's check is `CheckBlockLydraSpending` of a view that
reads the contract's answers as the locked amounts of key hashes. -/
theorem CheckBlockLydraSpending_of_E (v : LydraView CTxDestination)
    {getLocked : Address → Option ℕ}
    (hlocked : ∀ keyID n, getLocked keyID = some n → v.locked (.CKeyID keyID) = n)
    {vtx : List CTransaction} {b : Bool} (h : CheckBlockLydraSpendingE v getLocked vtx = .ok b) :
    CheckBlockLydraSpending v vtx = b := by
  unfold CheckBlockLydraSpendingE at h
  split at h
  · cases h
  · rename_i r hloop
    cases h
    unfold CheckBlockLydraSpending
    rw [loopBreak_eq_of_loopBreakE (fun _ _ _ _ hs => v.blockStep_of_blockStepE hlocked hs)
      hloop]

/-- On a block whose checked transactions spend only coins of key hashes whose calls succeed,
the validator's check does not fault. -/
theorem CheckBlockLydraSpendingE_eq_ok (v : LydraView CTxDestination)
    {getLocked : Address → Option ℕ}
    (hlocked : ∀ keyID n, getLocked keyID = some n → v.locked (.CKeyID keyID) = n)
    {vtx : List CTransaction}
    (hkeys : ∀ tx ∈ vtx, (tx.IsCoinBase || tx.IsCoinStake) = false →
      ∀ d, v.InputDest tx d → ∃ keyID n, d = .CKeyID keyID ∧ getLocked keyID = some n) :
    CheckBlockLydraSpendingE v getLocked vtx = .ok (CheckBlockLydraSpending v vtx) := by
  unfold CheckBlockLydraSpendingE CheckBlockLydraSpending
  rw [loopBreakE_eq_ok (g := v.blockStep) (fun _ => True)
    (fun _ tx htx _ => ⟨v.blockStepE_eq_ok hlocked (hkeys tx htx), trivial⟩) trivial]

end HydraNode
