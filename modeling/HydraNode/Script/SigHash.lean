import HydraNode.Script.Param

/-!
# The signature hash of an `OP_SENDER` output

The sender of an `OP_SENDER` output signs the transaction with `SignatureHashOutput`
(`script/interpreter.cpp`), a BIP143-style hash in which the outputs enter through
`GetOutputWithoutSenderSig`: the output being signed, and under `SIGHASH_ALL` every `OP_SENDER`
output, is hashed with its sender's signature replaced by an empty one (`WithoutSenderSig`), so
that a signature does not have to cover itself. `PrecomputedTransactionData` caches the hashes
over all inputs and outputs.

Hashes are `CHashWriter::GetHash` of what is written to the writer: here a function `H` of the
bytes, left as a parameter, and the writer's `<<` is the little-endian serialization of each
field. The transaction keeps the fields the hash reads; `sigversion` is passed to
`SignatureHashOutput` but not read, and is left out.

Replacing the sender's signature of `OP_SENDER` outputs changes neither the script without it
nor whether the output is an `OP_SENDER` output (`WithoutSenderSig_UpdateSenderSig`,
`HasOpSender_UpdateSenderSig`), so it does not change the signature hash, with or without the
transaction's own cache (`SignatureHashOutput_sender_sig`). The cache agrees with the direct
computation when the transaction has an `OP_SENDER` output or no witness. A transaction with a
witness and no `OP_SENDER` output gets a ready cache whose `hashOutputsOpSender` was never set:
`SIGHASH_ALL` then signs the zero hash in place of the outputs
(`SignatureHashOutput_cache_without_sender`).

## Main definitions

* `CTxInSig`, `CTransactionSig` — the fields of a transaction the signature hash reads
* `GetOutputsOpSenderHash`, `PrecomputedTransactionData.ofTx`, `SignatureHashOutput`
* `SenderSigUpdate` — an output whose sender's signature may have been replaced

## Main results

* `SignatureHashOutput_congr` — the hash reads the cache only through three hashes
* `GetOutputsOpSenderHash_update` — the all-outputs hash does not see sender signatures
* `SignatureHashOutput_sender_sig`
-/

namespace HydraNode

/-! ## Transactions and their serialization -/

/-- `CTxIn`, with the fields the signature hash reads. -/
structure CTxInSig where
  prevout : COutPoint
  nSequence : ℕ
  /-- `scriptWitness.stack`. -/
  scriptWitness : List valtype
  deriving DecidableEq, Repr

/-- `CTransaction`, with the fields the signature hash reads. -/
structure CTransactionSig where
  nVersion : ℤ
  vin : List CTxInSig
  vout : List CTxOut
  nLockTime : ℕ
  deriving DecidableEq, Repr

/-- `CTransaction::HasWitness`. -/
def CTransactionSig.HasWitness (tx : CTransactionSig) : Bool :=
  tx.vin.any fun txin => !txin.scriptWitness.isEmpty

/-- `CTransaction::HasOpSender`: an output is an `OP_SENDER` output. -/
def CTransactionSig.HasOpSender (tx : CTransactionSig) : Bool :=
  tx.vout.any (·.scriptPubKey.HasOpSender)

/-- `ss << x` for an `int32_t`, a `uint32_t`, an `int64_t` and a `uint256`. -/
def serInt32 (x : ℤ) : List UInt8 := writeLE 4 (x % 2 ^ 32).toNat
def serUInt32 (x : ℕ) : List UInt8 := writeLE 4 x
def serInt64 (x : ℤ) : List UInt8 := writeLE 8 (toUInt64 x)
def serUint256 (h : H256) : List UInt8 := writeLE 32 h.val

/-- `ss << script`: its length as a `CompactSize`, then its bytes. -/
def serScript (s : CScript) : List UInt8 := WriteCompactSize s.length ++ s

def COutPoint.ser (o : COutPoint) : List UInt8 := serUint256 o.hash ++ serUInt32 o.n

def CTxOut.ser (o : CTxOut) : List UInt8 := serInt64 o.nValue ++ serScript o.scriptPubKey

def SIGHASH_ALL : UInt32 := 1
def SIGHASH_NONE : UInt32 := 2
def SIGHASH_SINGLE : UInt32 := 3
def SIGHASH_ANYONECANPAY : UInt32 := 0x80

/-! ## The hashes -/

section hashes

variable (H : List UInt8 → H256)

def GetPrevoutHash (tx : CTransactionSig) : H256 := H (tx.vin.flatMap (·.prevout.ser))

def GetSequenceHash (tx : CTransactionSig) : H256 := H (tx.vin.flatMap (serUInt32 ·.nSequence))

def GetOutputsHash (tx : CTransactionSig) : H256 := H (tx.vout.flatMap CTxOut.ser)

/-- `GetFirstPrevoutHash`, of `txTo.vin[0]`. -/
def GetFirstPrevoutHash (txin : CTxInSig) : H256 := H txin.prevout.ser

/-- `GetFirstSequenceHash`, of `txTo.vin[0]`. -/
def GetFirstSequenceHash (txin : CTxInSig) : H256 := H (serUInt32 txin.nSequence)

/-- `GetOutputWithoutSenderSig`. -/
def GetOutputWithoutSenderSig (output : CTxOut) : CTxOut :=
  ⟨output.nValue, output.scriptPubKey.WithoutSenderSig⟩

/-- What `GetOutputsOpSenderHash` writes of one output. -/
def opSenderBytes (txout : CTxOut) : List UInt8 :=
  if txout.scriptPubKey.HasOpSender then (GetOutputWithoutSenderSig txout).ser else txout.ser

/-- `GetOutputsOpSenderHash`: the outputs, each `OP_SENDER` output without its signature. -/
def GetOutputsOpSenderHash (tx : CTransactionSig) : H256 := H (tx.vout.flatMap opSenderBytes)

/-- `PrecomputedTransactionData`; a `uint256` that is not set is zero. -/
structure PrecomputedTransactionData where
  hashPrevouts : H256 := 0
  hashSequence : H256 := 0
  hashOutputs : H256 := 0
  hashOutputsOpSender : H256 := 0
  ready : Bool := false

/-- `PrecomputedTransactionData(txTo)`: filled for a transaction with a witness or an
`OP_SENDER` output, and `hashOutputsOpSender` only for the latter. -/
def PrecomputedTransactionData.ofTx (tx : CTransactionSig) : PrecomputedTransactionData :=
  if tx.HasWitness || tx.HasOpSender then
    { hashPrevouts := GetPrevoutHash H tx
      hashSequence := GetSequenceHash H tx
      hashOutputs := GetOutputsHash H tx
      hashOutputsOpSender := if tx.HasOpSender then GetOutputsOpSenderHash H tx else 0
      ready := true }
  else {}

end hashes

/-- `cacheready ? cache->field : direct`. -/
def fromCache (cache : Option PrecomputedTransactionData) (field : PrecomputedTransactionData → H256)
    (direct : H256) : H256 :=
  match cache with
  | some c => if c.ready then field c else direct
  | none => direct

/-- `SignatureHashOutput(scriptCode, txTo, nOut, nHashType, amount, sigversion, cache)`; `none`
where an `assert` fails. -/
def SignatureHashOutput (H : List UInt8 → H256) (scriptCode : CScript) (tx : CTransactionSig)
    (nOut : ℕ) (nHashType : UInt32) (amount : CAmount) (cache : Option PrecomputedTransactionData) :
    Option H256 :=
  if tx.vout.length ≤ nOut then none
  else
    let anyoneCanPay := nHashType &&& SIGHASH_ANYONECANPAY ≠ 0
    let baseType := nHashType &&& 0x1f
    -- under `SIGHASH_ANYONECANPAY`, the first input, which the source asserts there is
    let first : Option (H256 × H256) :=
      if anyoneCanPay then tx.vin.head?.map fun txin =>
        (GetFirstPrevoutHash H txin, GetFirstSequenceHash H txin)
      else some (0, 0)
    match first with
    | none => none
    | some (firstPrevouts, firstSequence) =>
      let hashPrevouts :=
        if anyoneCanPay then firstPrevouts
        else fromCache cache PrecomputedTransactionData.hashPrevouts (GetPrevoutHash H tx)
      let hashSequence :=
        if anyoneCanPay then firstSequence
        else if baseType ≠ SIGHASH_SINGLE ∧ baseType ≠ SIGHASH_NONE then
          fromCache cache PrecomputedTransactionData.hashSequence (GetSequenceHash H tx)
        else 0
      let hashOutputs :=
        if baseType ≠ SIGHASH_SINGLE ∧ baseType ≠ SIGHASH_NONE then
          fromCache cache PrecomputedTransactionData.hashOutputsOpSender
            (GetOutputsOpSenderHash H tx)
        else if baseType = SIGHASH_SINGLE ∧ nOut < tx.vout.length then
          H (GetOutputWithoutSenderSig (tx.vout.getD nOut CTxOut.null)).ser
        else 0
      some (H (serInt32 tx.nVersion ++ serUint256 hashPrevouts ++ serUint256 hashSequence ++
        (GetOutputWithoutSenderSig (tx.vout.getD nOut CTxOut.null)).ser ++ serScript scriptCode ++
        serInt64 amount ++ serUint256 hashOutputs ++ serUInt32 tx.nLockTime ++
        serUInt32 nHashType.toNat))

/-! ## Replacing sender signatures -/

/-- `o'` is the output `o`, or, for an `OP_SENDER` output, `o` with its sender's signature
replaced by `UpdateSenderSig`. The script and the signature together stay below `2 ^ 31` bytes,
below which `prevector<28, unsigned char>` holds the script it is built into
(`prevector.prevector_refines_vector`). -/
def SenderSigUpdate (o o' : CTxOut) : Prop :=
  o'.nValue = o.nValue ∧
    (o'.scriptPubKey = o.scriptPubKey ∨
      (o.scriptPubKey.HasOpSender = true ∧
        ∃ sig : List UInt8, o.scriptPubKey.length + sig.length + 5 < 2 ^ 31 ∧
          o.scriptPubKey.UpdateSenderSig sig = some o'.scriptPubKey))

theorem SenderSigUpdate.refl (o : CTxOut) : SenderSigUpdate o o := ⟨rfl, .inl rfl⟩

section update

variable {o o' : CTxOut}

theorem SenderSigUpdate.GetOutputWithoutSenderSig (h : SenderSigUpdate o o') :
    GetOutputWithoutSenderSig o' = GetOutputWithoutSenderSig o := by
  obtain ⟨hv, hs | ⟨-, sig, hsig, hupd⟩⟩ := h
  · simp [HydraNode.GetOutputWithoutSenderSig, hv, hs]
  · simp [HydraNode.GetOutputWithoutSenderSig, hv,
      WithoutSenderSig_UpdateSenderSig (by omega) hupd]

theorem SenderSigUpdate.HasOpSender (h : SenderSigUpdate o o') :
    o'.scriptPubKey.HasOpSender = o.scriptPubKey.HasOpSender := by
  obtain ⟨-, hs | ⟨-, sig, hsig, hupd⟩⟩ := h
  · rw [hs]
  · exact HasOpSender_UpdateSenderSig (by omega) hupd

/-- What the all-outputs hash writes of an output does not see its sender's signature: an
`OP_SENDER` output is written without it, and stays an `OP_SENDER` output. -/
theorem SenderSigUpdate.opSenderBytes (h : SenderSigUpdate o o') :
    opSenderBytes o' = opSenderBytes o := by
  rw [HydraNode.opSenderBytes, HydraNode.opSenderBytes, h.HasOpSender,
    h.GetOutputWithoutSenderSig]
  -- an output written whole has kept its script
  obtain ⟨hv, hs | ⟨hsender, -⟩⟩ := h
  · simp only [CTxOut.ser, hv, hs]
  · rw [if_pos hsender, if_pos hsender]

end update

section lists

variable {l l' : List CTxOut}

theorem flatMap_opSenderBytes (h : List.Forall₂ SenderSigUpdate l l') :
    l'.flatMap opSenderBytes = l.flatMap opSenderBytes := by
  induction h with
  | nil => rfl
  | cons ho _ ih => rw [List.flatMap_cons, List.flatMap_cons, ho.opSenderBytes, ih]

theorem any_HasOpSender (h : List.Forall₂ SenderSigUpdate l l') :
    l'.any (·.scriptPubKey.HasOpSender) = l.any (·.scriptPubKey.HasOpSender) := by
  induction h with
  | nil => rfl
  | cons ho _ ih => rw [List.any_cons, List.any_cons, ho.HasOpSender, ih]

theorem getD_GetOutputWithoutSenderSig (h : List.Forall₂ SenderSigUpdate l l') (i : ℕ) :
    GetOutputWithoutSenderSig (l'.getD i CTxOut.null) =
      GetOutputWithoutSenderSig (l.getD i CTxOut.null) := by
  induction h generalizing i with
  | nil => rfl
  | cons ho _ ih =>
    cases i with
    | zero => exact ho.GetOutputWithoutSenderSig
    | succ i => exact ih i

end lists

/-- The all-outputs hash of `SIGHASH_ALL` does not see the sender signatures. -/
theorem GetOutputsOpSenderHash_update (H : List UInt8 → H256) {tx tx' : CTransactionSig}
    (h : List.Forall₂ SenderSigUpdate tx.vout tx'.vout) :
    GetOutputsOpSenderHash H tx' = GetOutputsOpSenderHash H tx := by
  rw [GetOutputsOpSenderHash, GetOutputsOpSenderHash, flatMap_opSenderBytes h]

/-! ## What the signature hash reads -/

/-- The signature hash reads the cache only through the input hashes and the all-outputs hash,
and the outputs only through the one being signed, written without its signature. -/
theorem SignatureHashOutput_congr (H : List UInt8 → H256) {tx tx' : CTransactionSig}
    {cache cache' : Option PrecomputedTransactionData} (hver : tx'.nVersion = tx.nVersion)
    (hvin : tx'.vin = tx.vin) (hlock : tx'.nLockTime = tx.nLockTime)
    (hlen : tx'.vout.length = tx.vout.length)
    (hout : ∀ i, GetOutputWithoutSenderSig (tx'.vout.getD i CTxOut.null) =
      GetOutputWithoutSenderSig (tx.vout.getD i CTxOut.null))
    (hp : fromCache cache' PrecomputedTransactionData.hashPrevouts (GetPrevoutHash H tx') =
      fromCache cache PrecomputedTransactionData.hashPrevouts (GetPrevoutHash H tx))
    (hs : fromCache cache' PrecomputedTransactionData.hashSequence (GetSequenceHash H tx') =
      fromCache cache PrecomputedTransactionData.hashSequence (GetSequenceHash H tx))
    (ho : fromCache cache' PrecomputedTransactionData.hashOutputsOpSender
        (GetOutputsOpSenderHash H tx') =
      fromCache cache PrecomputedTransactionData.hashOutputsOpSender (GetOutputsOpSenderHash H tx))
    (scriptCode : CScript) (nOut : ℕ) (nHashType : UInt32) (amount : CAmount) :
    SignatureHashOutput H scriptCode tx' nOut nHashType amount cache' =
      SignatureHashOutput H scriptCode tx nOut nHashType amount cache := by
  simp only [SignatureHashOutput, hver, hvin, hlock, hlen, hout, hp, hs, ho]

/-- The cache's input hashes are those computed directly, whenever it is ready. -/
theorem fromCache_ofTx_hashPrevouts (H : List UInt8 → H256) (tx : CTransactionSig) :
    fromCache (some (PrecomputedTransactionData.ofTx H tx)) PrecomputedTransactionData.hashPrevouts
      (GetPrevoutHash H tx) = GetPrevoutHash H tx := by
  unfold PrecomputedTransactionData.ofTx
  split_ifs <;> rfl

theorem fromCache_ofTx_hashSequence (H : List UInt8 → H256) (tx : CTransactionSig) :
    fromCache (some (PrecomputedTransactionData.ofTx H tx)) PrecomputedTransactionData.hashSequence
      (GetSequenceHash H tx) = GetSequenceHash H tx := by
  unfold PrecomputedTransactionData.ofTx
  split_ifs <;> rfl

/-- The cache's all-outputs hash is the one computed directly when the transaction has an
`OP_SENDER` output or no witness; otherwise a ready cache holds zero. -/
theorem fromCache_ofTx_hashOutputsOpSender (H : List UInt8 → H256) (tx : CTransactionSig) :
    fromCache (some (PrecomputedTransactionData.ofTx H tx))
        PrecomputedTransactionData.hashOutputsOpSender (GetOutputsOpSenderHash H tx) =
      if tx.HasWitness = true ∧ tx.HasOpSender = false then 0 else GetOutputsOpSenderHash H tx := by
  unfold PrecomputedTransactionData.ofTx
  cases tx.HasWitness <;> cases tx.HasOpSender <;> rfl

/-! ## Independence of the sender signatures, and the cache -/

section sighash

variable (H : List UInt8 → H256) {tx tx' : CTransactionSig}

theorem GetPrevoutHash_congr (hvin : tx'.vin = tx.vin) : GetPrevoutHash H tx' = GetPrevoutHash H tx := by
  rw [GetPrevoutHash, GetPrevoutHash, hvin]

theorem GetSequenceHash_congr (hvin : tx'.vin = tx.vin) :
    GetSequenceHash H tx' = GetSequenceHash H tx := by
  rw [GetSequenceHash, GetSequenceHash, hvin]

/-- Without a cache, the signature hash does not see the sender signatures. -/
theorem SignatureHashOutput_update_none (hver : tx'.nVersion = tx.nVersion)
    (hvin : tx'.vin = tx.vin) (hlock : tx'.nLockTime = tx.nLockTime)
    (hout : List.Forall₂ SenderSigUpdate tx.vout tx'.vout) (scriptCode : CScript) (nOut : ℕ)
    (nHashType : UInt32) (amount : CAmount) :
    SignatureHashOutput H scriptCode tx' nOut nHashType amount none =
      SignatureHashOutput H scriptCode tx nOut nHashType amount none := by
  refine SignatureHashOutput_congr H hver hvin hlock hout.length_eq.symm
    (getD_GetOutputWithoutSenderSig hout) ?_ ?_ ?_ _ _ _ _
  · exact GetPrevoutHash_congr H hvin
  · exact GetSequenceHash_congr H hvin
  · exact GetOutputsOpSenderHash_update H hout

/-- With each transaction's own cache, the signature hash does not see the sender signatures:
the two caches are filled alike, as the transactions have the same inputs and the same
`OP_SENDER` outputs. -/
theorem SignatureHashOutput_update_ofTx (hver : tx'.nVersion = tx.nVersion)
    (hvin : tx'.vin = tx.vin) (hlock : tx'.nLockTime = tx.nLockTime)
    (hout : List.Forall₂ SenderSigUpdate tx.vout tx'.vout) (scriptCode : CScript) (nOut : ℕ)
    (nHashType : UInt32) (amount : CAmount) :
    SignatureHashOutput H scriptCode tx' nOut nHashType amount
        (some (PrecomputedTransactionData.ofTx H tx')) =
      SignatureHashOutput H scriptCode tx nOut nHashType amount
        (some (PrecomputedTransactionData.ofTx H tx)) := by
  have hwit : tx'.HasWitness = tx.HasWitness := by
    rw [CTransactionSig.HasWitness, CTransactionSig.HasWitness, hvin]
  have hsender : tx'.HasOpSender = tx.HasOpSender := any_HasOpSender hout
  refine SignatureHashOutput_congr H hver hvin hlock hout.length_eq.symm
    (getD_GetOutputWithoutSenderSig hout) ?_ ?_ ?_ _ _ _ _
  · rw [fromCache_ofTx_hashPrevouts, fromCache_ofTx_hashPrevouts, GetPrevoutHash_congr H hvin]
  · rw [fromCache_ofTx_hashSequence, fromCache_ofTx_hashSequence, GetSequenceHash_congr H hvin]
  · rw [fromCache_ofTx_hashOutputsOpSender, fromCache_ofTx_hashOutputsOpSender, hwit, hsender,
      GetOutputsOpSenderHash_update H hout]

/-- The transaction's own cache gives the hash computed without one, when the transaction has
an `OP_SENDER` output or no witness. -/
theorem SignatureHashOutput_ofTx (h : tx.HasOpSender = true ∨ tx.HasWitness = false)
    (scriptCode : CScript) (nOut : ℕ) (nHashType : UInt32) (amount : CAmount) :
    SignatureHashOutput H scriptCode tx nOut nHashType amount
        (some (PrecomputedTransactionData.ofTx H tx)) =
      SignatureHashOutput H scriptCode tx nOut nHashType amount none := by
  have ho : ¬(tx.HasWitness = true ∧ tx.HasOpSender = false) := by
    rcases h with h | h <;> simp [h]
  refine SignatureHashOutput_congr H rfl rfl rfl rfl (fun _ => rfl)
    (fromCache_ofTx_hashPrevouts H tx) (fromCache_ofTx_hashSequence H tx) ?_ _ _ _ _
  rw [fromCache_ofTx_hashOutputsOpSender, if_neg ho]
  rfl

end sighash

theorem SignatureHashOutput_sender_sig (H : List UInt8 → H256) :
    (∀ tx tx' : CTransactionSig, tx'.nVersion = tx.nVersion → tx'.vin = tx.vin →
      tx'.nLockTime = tx.nLockTime → List.Forall₂ SenderSigUpdate tx.vout tx'.vout →
      ∀ scriptCode nOut nHashType amount,
        SignatureHashOutput H scriptCode tx' nOut nHashType amount none =
            SignatureHashOutput H scriptCode tx nOut nHashType amount none ∧
          SignatureHashOutput H scriptCode tx' nOut nHashType amount
              (some (PrecomputedTransactionData.ofTx H tx')) =
            SignatureHashOutput H scriptCode tx nOut nHashType amount
              (some (PrecomputedTransactionData.ofTx H tx))) ∧
    (∀ tx : CTransactionSig, (tx.HasOpSender = true ∨ tx.HasWitness = false) →
      ∀ scriptCode nOut nHashType amount,
        SignatureHashOutput H scriptCode tx nOut nHashType amount
            (some (PrecomputedTransactionData.ofTx H tx)) =
          SignatureHashOutput H scriptCode tx nOut nHashType amount none) :=
  ⟨fun _ _ hver hvin hlock hout _ _ _ _ =>
      ⟨SignatureHashOutput_update_none H hver hvin hlock hout _ _ _ _,
        SignatureHashOutput_update_ofTx H hver hvin hlock hout _ _ _ _⟩,
    fun _ h _ _ _ _ => SignatureHashOutput_ofTx H h _ _ _ _⟩

/-- A hash for running the signature hash: the sum of the bytes. -/
def byteSumHash (b : List UInt8) : H256 := Fin.ofNat (2 ^ 256) (b.map UInt8.toNat).sum

/-- Signing the one output of a transaction, before and after its sender's signature `[7]` is
replaced with `[1, 2]`. -/
theorem SignatureHashOutput_sender_sig_signed :
    List.Forall₂ SenderSigUpdate [⟨5, [0x00, 0x01, 7, OP_SENDER]⟩]
        [⟨5, [0x00, 0x02, 1, 2, OP_SENDER]⟩] ∧
      SignatureHashOutput byteSumHash [] ⟨2, [⟨⟨0, 0⟩, 0, []⟩],
          [⟨5, [0x00, 0x02, 1, 2, OP_SENDER]⟩], 0⟩ 0 SIGHASH_ALL 5 none =
        SignatureHashOutput byteSumHash [] ⟨2, [⟨⟨0, 0⟩, 0, []⟩],
          [⟨5, [0x00, 0x01, 7, OP_SENDER]⟩], 0⟩ 0 SIGHASH_ALL 5 none ∧
      (CTransactionSig.HasOpSender ⟨2, [⟨⟨0, 0⟩, 0, []⟩], [⟨5, [0x00, 0x01, 7, OP_SENDER]⟩], 0⟩ =
          true ∧
        SignatureHashOutput byteSumHash [] ⟨2, [⟨⟨0, 0⟩, 0, []⟩],
            [⟨5, [0x00, 0x01, 7, OP_SENDER]⟩], 0⟩ 0 SIGHASH_ALL 5
            (some (PrecomputedTransactionData.ofTx byteSumHash
              ⟨2, [⟨⟨0, 0⟩, 0, []⟩], [⟨5, [0x00, 0x01, 7, OP_SENDER]⟩], 0⟩)) =
          SignatureHashOutput byteSumHash [] ⟨2, [⟨⟨0, 0⟩, 0, []⟩],
            [⟨5, [0x00, 0x01, 7, OP_SENDER]⟩], 0⟩ 0 SIGHASH_ALL 5 none) := by
  have hupd : SenderSigUpdate ⟨5, [0x00, 0x01, 7, OP_SENDER]⟩ ⟨5, [0x00, 0x02, 1, 2, OP_SENDER]⟩ :=
    ⟨rfl, .inr ⟨by decide +kernel, [1, 2], by decide, by decide +kernel⟩⟩
  have hsender : CTransactionSig.HasOpSender
      ⟨2, [⟨⟨0, 0⟩, 0, []⟩], [⟨5, [0x00, 0x01, 7, OP_SENDER]⟩], 0⟩ = true := by
    decide +kernel
  obtain ⟨hind, hcache⟩ := SignatureHashOutput_sender_sig byteSumHash
  exact ⟨.cons hupd .nil, (hind ⟨2, [⟨⟨0, 0⟩, 0, []⟩], [⟨5, [0x00, 0x01, 7, OP_SENDER]⟩], 0⟩
    ⟨2, [⟨⟨0, 0⟩, 0, []⟩], [⟨5, [0x00, 0x02, 1, 2, OP_SENDER]⟩], 0⟩ rfl rfl rfl
    (.cons hupd .nil) _ _ _ _).1, hsender,
    hcache _ (.inl hsender) _ _ _ _⟩

/-- A transaction with a witness and no `OP_SENDER` output gets a ready cache whose
`hashOutputsOpSender` is zero: under `SIGHASH_ALL` the cached hash signs zero where the
direct one signs the outputs. -/
theorem SignatureHashOutput_cache_without_sender :
    CTransactionSig.HasWitness ⟨2, [⟨⟨0, 0⟩, 0, [[1]]⟩], [⟨1, []⟩], 0⟩ = true ∧
      CTransactionSig.HasOpSender ⟨2, [⟨⟨0, 0⟩, 0, [[1]]⟩], [⟨1, []⟩], 0⟩ = false ∧
      SignatureHashOutput byteSumHash [] ⟨2, [⟨⟨0, 0⟩, 0, [[1]]⟩], [⟨1, []⟩], 0⟩ 0 SIGHASH_ALL 0
          (some (PrecomputedTransactionData.ofTx byteSumHash
            ⟨2, [⟨⟨0, 0⟩, 0, [[1]]⟩], [⟨1, []⟩], 0⟩)) ≠
        SignatureHashOutput byteSumHash [] ⟨2, [⟨⟨0, 0⟩, 0, [[1]]⟩], [⟨1, []⟩], 0⟩ 0 SIGHASH_ALL 0
          none := by
  decide +kernel

end HydraNode
