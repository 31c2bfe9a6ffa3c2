import HydraNode.Contract.Coinstake
import HydraNode.Lib.Merkle

/-!
# The transactions the node regenerates

The account abstraction layer (AAL) moves the coins held by contracts only through
transactions the node builds itself: the condensing transactions and the refunds of
`processingResults`, whose inputs spend contract outputs with the one-opcode script `OP_SPEND`.
A block carries them, and `ConnectBlock` (`validation.cpp`) checks that it carries exactly them.
Its loop over the transactions builds `checkBlock.vtx`: every transaction of the block without
an `OP_SPEND` input and, after each contract transaction it executes, the `valueTransfers` of
that execution. After the loop it compares the hash of `checkBlock`, whose merkle root it
recomputes, with the block's. In the loop it also rejects an input without `OP_SPEND` that spends
a coin whose script creates or calls a contract.

The hashes are an ideal hash here: `MerkleHash` with `MerkleHash.CollisionResistant`. The hash
of an inner node is the double SHA-256 of 64 bytes, so a transaction of 64 bytes can pass for an
inner node; the results below take blocks without such transactions. The header comparison is
then the comparison of the roots `ConnectBlock` recomputes (`aalMatches`).

Under that model, an accepted block whose merkle root `CheckBlock` found unmutated is the list
the loop built, provided the value transfers of the loop are `OP_SPEND` transactions and none is
repeated (`vtx_eq_checkBlockVtx_of_accepted`). `checkBlock`'s root is computed without the
mutation test, so the proof takes `Merkle.eq_append_of_computeRoot_eq` and then counts the
`OP_SPEND` transactions on both sides.

The coinstake is left out. The loop only pushes it; its `OP_COINSTAKE_CALL` outputs are executed
after the loop, and the `valueTransfers` of that execution go nowhere. A coinstake call that
carries value and fails yields a refund that `checkBlock` never holds, and the block is accepted
without it (`checkBlockVtx_drops_coinstake_refund`).

## Main definitions

* `GetScriptOp`, `CScript.Find`, `CScript.HasOpCreate`, `CScript.HasOpCall`,
  `CScript.HasOpSpend`, and the same tests of a transaction
* `AALTx`, `checkBlockStep`, `checkBlockVtx`, `loopTransfers`
* `MerkleHash`, `BlockMerkleRoot`, `CheckBlockMerkleRoot`, `aalMatches`

## Main results

* `checkBlockVtx_eq_ok_iff` — the list the loop builds
* `vtx_eq_checkBlockVtx_of_accepted`
* `checkBlockVtx_drops_coinstake_refund`
-/

namespace HydraNode

/-! ## Opcodes of a script -/

/-- `ReadLE16` and `ReadLE32`: a little-endian number. -/
def readLE (b : List UInt8) : ℕ := b.foldr (fun x n => x.toNat + 256 * n) 0

/-- The operand size of a push opcode `op < OP_PUSHDATA4 + 1`, and the script after its length
bytes; `none` where the length bytes run past the end. -/
def pushSize (op : UInt8) (rest : CScript) : Option (ℕ × CScript) :=
  if op < OP_PUSHDATA1 then some (op.toNat, rest)
  else if op = OP_PUSHDATA1 then
    if rest.length < 1 then none else some (readLE (rest.take 1), rest.drop 1)
  else if op = OP_PUSHDATA2 then
    if rest.length < 2 then none else some (readLE (rest.take 2), rest.drop 2)
  else if rest.length < 4 then none else some (readLE (rest.take 4), rest.drop 4)

/-- `GetScriptOp`: the opcode at the start of the script and the script after it and its
operand; `none` at the end of the script, or where the operand runs past it. -/
def GetScriptOp : CScript → Option (UInt8 × CScript)
  | [] => none
  | op :: rest =>
    if op ≤ OP_PUSHDATA4 then
      match pushSize op rest with
      | none => none
      | some (nSize, rest) => if rest.length < nSize then none else some (op, rest.drop nSize)
    else some (op, rest)

/-- The loop of `CScript::Find`, for at most `n` more opcodes. -/
def findLoop (op : UInt8) : ℕ → CScript → ℕ
  | 0, _ => 0
  | n + 1, s =>
    match GetScriptOp s with
    | none => 0
    | some (o, rest) => (if o = op then 1 else 0) + findLoop op n rest

/-- `CScript::Find`: how many times `op` is read as an opcode. Each opcode read takes a byte, so
`s.length` reads are enough (`findLoop_fuel`). -/
def CScript.Find (s : CScript) (op : UInt8) : ℕ := findLoop op s.length s

/-- `CScript::HasOpCreate`, `HasOpCall` and `HasOpCoinstakeCall`: the opcode is read exactly
once. -/
def CScript.HasOpCreate (s : CScript) : Bool := s.Find OP_CREATE == 1
def CScript.HasOpCall (s : CScript) : Bool := s.Find OP_CALL == 1
def CScript.HasOpCoinstakeCall (s : CScript) : Bool := s.Find OP_COINSTAKE_CALL == 1

/-- `CScript::HasOpSpend`: the script is the one opcode `OP_SPEND`. -/
def CScript.HasOpSpend (s : CScript) : Bool := s == [OP_SPEND]

/-- `CTransaction::HasOpSpend`: an input spends with `OP_SPEND`. -/
def CTransaction.HasOpSpend (tx : CTransaction) : Bool := tx.vin.any (·.scriptSig.HasOpSpend)

/-- `CTransaction::HasCreateOrCall`. -/
def CTransaction.HasCreateOrCall (tx : CTransaction) : Bool :=
  tx.vout.any fun o => o.scriptPubKey.HasOpCreate || o.scriptPubKey.HasOpCall

/-- `CTransaction::HasOpCoinstakeCall`. -/
def CTransaction.HasOpCoinstakeCall (tx : CTransaction) : Bool :=
  tx.vout.any (·.scriptPubKey.HasOpCoinstakeCall)

theorem pushSize_length_le {op : UInt8} {rest r : CScript} {n : ℕ}
    (h : pushSize op rest = some (n, r)) : r.length ≤ rest.length := by
  simp only [pushSize] at h
  split_ifs at h <;> cases h <;> simp

/-- Every opcode read takes at least a byte. -/
theorem GetScriptOp_length_lt {s rest : CScript} {o : UInt8}
    (h : GetScriptOp s = some (o, rest)) : rest.length < s.length := by
  match s, h with
  | op :: r, h =>
    simp only [GetScriptOp] at h
    split_ifs at h
    · cases hp : pushSize op r with
      | none => simp [hp] at h
      | some p =>
        obtain ⟨n, r'⟩ := p
        simp only [hp] at h
        split_ifs at h
        cases h
        have := pushSize_length_le hp
        simp only [List.length_drop, List.length_cons]
        omega
    · cases h
      simp

/-- Fuel beyond the length of the script reads no more opcodes. -/
theorem findLoop_succ {op : UInt8} : ∀ {n : ℕ} {s : CScript}, s.length ≤ n →
    findLoop op (n + 1) s = findLoop op n s
  | 0, s, h => by
    rw [List.length_eq_zero_iff.mp (Nat.le_zero.mp h)]
    rfl
  | n + 1, s, h => by
    cases hs : GetScriptOp s with
    | none => simp only [findLoop, hs]
    | some p =>
      obtain ⟨o, rest⟩ := p
      have hlt := GetScriptOp_length_lt hs
      have hstep : ∀ m, findLoop op (m + 1) s = (if o = op then 1 else 0) + findLoop op m rest :=
        fun m => by simp only [findLoop, hs]
      rw [hstep, hstep, findLoop_succ (by omega)]

theorem findLoop_fuel {op : UInt8} {n : ℕ} {s : CScript} (h : s.length ≤ n) :
    findLoop op n s = s.Find op := by
  induction n, h using Nat.le_induction with
  | base => rfl
  | succ k hk ih => rw [findLoop_succ (by omega), ih]

/-! ## The loop of `ConnectBlock` -/

/-- A transaction of the block with the `valueTransfers` of its execution: for a contract
transaction the loop executes, those of `processingResults` in the loop; for the coinstake,
those of the pass after the loop that executes its `OP_COINSTAKE_CALL` outputs; none
otherwise. -/
structure AALTx where
  tx : CTransaction
  valueTransfers : List CTransaction

/-- Whether the loop executes the transaction: it creates or calls a contract and spends no
contract coin. A coinstake call leaves the loop first, for the pass after it. -/
def AALTx.executedInLoop (t : AALTx) : Bool :=
  !t.tx.HasOpCoinstakeCall && (t.tx.HasCreateOrCall && !t.tx.HasOpSpend)

/-- The input check of the loop: outside the coinbase, an input whose script is not `OP_SPEND`
spends no coin whose script creates or calls a contract. `coinScript` is
`view.AccessCoin(prevout).out.scriptPubKey`. -/
def contractSpendOk (coinScript : COutPoint → CScript) (tx : CTransaction) : Bool :=
  tx.IsCoinBase || tx.vin.all fun i =>
    i.scriptSig.HasOpSpend ||
      !((coinScript i.prevout).HasOpCreate || (coinScript i.prevout).HasOpCall)

/-- One iteration of the loop of `ConnectBlock`, for `checkBlock.vtx`. -/
def checkBlockStep (coinScript : COutPoint → CScript) (vtx : List CTransaction) (t : AALTx) :
    Except String (List CTransaction) :=
  if !contractSpendOk coinScript t.tx then .error "bad-txns-invalid-contract-spend"
  else
    let vtx := if t.tx.HasOpSpend then vtx else vtx ++ [t.tx]
    if t.tx.HasOpCoinstakeCall then
      if t.tx.IsCoinStake then .ok vtx else .error "bad-txns-invalid-contract-spend"
    else if t.tx.HasCreateOrCall && !t.tx.HasOpSpend then .ok (vtx ++ t.valueTransfers)
    else .ok vtx

/-- `checkBlock.vtx` after the loop; the pass over the coinstake calls adds nothing to it. -/
def checkBlockVtx (coinScript : COutPoint → CScript) (txs : List AALTx) :
    Except String (List CTransaction) :=
  txs.foldlM (checkBlockStep coinScript) []

/-- What an iteration adds to `checkBlock.vtx`. -/
def AALTx.checkBlockPart (t : AALTx) : List CTransaction :=
  (if t.tx.HasOpSpend then [] else [t.tx]) ++ (if t.executedInLoop then t.valueTransfers else [])

/-- The checks an iteration makes. -/
def AALTx.Admitted (coinScript : COutPoint → CScript) (t : AALTx) : Prop :=
  contractSpendOk coinScript t.tx = true ∧
    (t.tx.HasOpCoinstakeCall = true → t.tx.IsCoinStake = true)

/-- The value transfers the loop puts into `checkBlock`. -/
def loopTransfers (txs : List AALTx) : List CTransaction :=
  txs.flatMap fun t => if t.executedInLoop then t.valueTransfers else []

variable {coinScript : COutPoint → CScript}

theorem checkBlockStep_eq_ok_iff {vtx vtx' : List CTransaction} {t : AALTx} :
    checkBlockStep coinScript vtx t = .ok vtx' ↔
      t.Admitted coinScript ∧ vtx' = vtx ++ t.checkBlockPart := by
  unfold checkBlockStep AALTx.Admitted AALTx.checkBlockPart AALTx.executedInLoop
  cases hs : contractSpendOk coinScript t.tx <;>
    cases hc : t.tx.HasOpCoinstakeCall <;> cases hk : t.tx.IsCoinStake <;>
    cases hsp : t.tx.HasOpSpend <;> cases hcc : t.tx.HasCreateOrCall <;>
    simp [eq_comm (a := vtx')]

/-- The run of the loop: it passes when every iteration is admitted, and it builds the parts
of the transactions in order. The induction is on the transactions. -/
theorem foldlM_checkBlockStep_eq_ok_iff :
    ∀ {txs : List AALTx} {vtx vtx' : List CTransaction},
      txs.foldlM (checkBlockStep coinScript) vtx = .ok vtx' ↔
        (∀ t ∈ txs, t.Admitted coinScript) ∧ vtx' = vtx ++ txs.flatMap AALTx.checkBlockPart
  | [], vtx, vtx' => by
    rw [foldlM_except_nil_eq_ok]
    simp [eq_comm (a := vtx')]
  | t :: ts, vtx, vtx' => by
    rw [foldlM_except_cons_eq_ok]
    constructor
    · rintro ⟨v, hv, hrun⟩
      obtain ⟨ht, rfl⟩ := checkBlockStep_eq_ok_iff.mp hv
      obtain ⟨hts, rfl⟩ := foldlM_checkBlockStep_eq_ok_iff.mp hrun
      exact ⟨List.forall_mem_cons.mpr ⟨ht, hts⟩, by simp⟩
    · rintro ⟨hall, rfl⟩
      obtain ⟨ht, hts⟩ := List.forall_mem_cons.mp hall
      exact ⟨_, checkBlockStep_eq_ok_iff.mpr ⟨ht, rfl⟩,
        foldlM_checkBlockStep_eq_ok_iff.mpr ⟨hts, by simp⟩⟩

theorem checkBlockVtx_eq_ok_iff {txs : List AALTx} {vtx : List CTransaction} :
    checkBlockVtx coinScript txs = .ok vtx ↔
      (∀ t ∈ txs, t.Admitted coinScript) ∧ vtx = txs.flatMap AALTx.checkBlockPart := by
  rw [checkBlockVtx, foldlM_checkBlockStep_eq_ok_iff, List.nil_append]

theorem loopTransfers_cons (t : AALTx) (ts : List AALTx) :
    loopTransfers (t :: ts) =
      (if t.executedInLoop then t.valueTransfers else []) ++ loopTransfers ts := rfl

section transfers

variable {txs : List AALTx} (hsp : ∀ v ∈ loopTransfers txs, v.HasOpSpend = true)
include hsp

/-- When the value transfers spend with `OP_SPEND`, the transactions of `checkBlock` without
`OP_SPEND` are those of the block. -/
theorem filter_not_hasOpSpend_checkBlockPart :
    (txs.flatMap AALTx.checkBlockPart).filter (fun v => !v.HasOpSpend) =
      (txs.map AALTx.tx).filter (fun v => !v.HasOpSpend) := by
  induction txs with
  | nil => rfl
  | cons t ts ih =>
    rw [loopTransfers_cons, List.forall_mem_append] at hsp
    obtain ⟨ht, hts⟩ := hsp
    simp only [List.flatMap_cons, List.filter_append, List.map_cons, ih hts,
      AALTx.checkBlockPart]
    by_cases he : t.executedInLoop
    · rw [if_pos he] at ht
      have hnil : t.valueTransfers.filter (fun v => !v.HasOpSpend) = [] :=
        List.filter_eq_nil_iff.mpr fun v hv => by simp [ht v hv]
      cases h : t.tx.HasOpSpend <;> simp [he, h, hnil]
    · cases h : t.tx.HasOpSpend <;> simp [he, h]

/-- ... and those with `OP_SPEND` are the value transfers. -/
theorem filter_hasOpSpend_checkBlockPart :
    (txs.flatMap AALTx.checkBlockPart).filter (·.HasOpSpend) = loopTransfers txs := by
  induction txs with
  | nil => rfl
  | cons t ts ih =>
    rw [loopTransfers_cons, List.forall_mem_append] at hsp
    obtain ⟨ht, hts⟩ := hsp
    rw [List.flatMap_cons, List.filter_append, ih hts, loopTransfers_cons]
    simp only [AALTx.checkBlockPart, List.filter_append]
    by_cases he : t.executedInLoop
    · rw [if_pos he] at ht
      have hall : t.valueTransfers.filter (·.HasOpSpend) = t.valueTransfers :=
        List.filter_eq_self.mpr ht
      cases h : t.tx.HasOpSpend <;> simp [he, h, hall]
    · cases h : t.tx.HasOpSpend <;> simp [he, h]

end transfers

/-! ## The comparison of `ConnectBlock` -/

/-- An ideal double SHA-256 for a block, with values in `D`: the hash of a transaction, the hash
of a pair of hashes, and `uint256()`; with the length of the serialization, without witness, that
the hash of a transaction reads. -/
structure MerkleHash (D : Type*) where
  txHash : CTransaction → D
  pairHash : D → D → D
  zero : D
  txSize : CTransaction → ℕ

/-- The hash as collision resistant: no two transactions and no two pairs share a hash. The hash
of a pair is the double SHA-256 of the 64 bytes of the two hashes, so a transaction whose
serialization is 64 bytes long may have the hash of a pair; no other does. -/
structure MerkleHash.CollisionResistant {D : Type*} (h : MerkleHash D) : Prop where
  txHash_injective : Function.Injective h.txHash
  pairHash_injective : Function.Injective2 h.pairHash
  pairHash_ne_txHash : ∀ a b tx, h.txSize tx ≠ 64 → h.pairHash a b ≠ h.txHash tx

/-- The roots of a header that `ConnectBlock` recomputes for `checkBlock`; it copies the other
fields from the block. -/
structure HeaderRoots (D : Type*) where
  hashMerkleRoot : D
  hashStateRoot : D
  hashUTXORoot : D
  deriving DecidableEq

variable {D : Type*} [DecidableEq D]

/-- `BlockMerkleRoot`, with the flag `mutated` that `ComputeMerkleRoot` sets when asked. -/
def BlockMerkleRoot (h : MerkleHash D) (vtx : List CTransaction) : D × Bool :=
  Merkle.computeRoot h.pairHash h.zero (vtx.map h.txHash)

/-- The merkle check of `CheckBlock`. -/
def CheckBlockMerkleRoot (h : MerkleHash D) (hashMerkleRoot : D) (vtx : List CTransaction) :
    Except String Unit :=
  if hashMerkleRoot ≠ (BlockMerkleRoot h vtx).1 then .error "bad-txnmrklroot"
  else if (BlockMerkleRoot h vtx).2 then .error "bad-txns-duplicate"
  else .ok ()

/-- The comparison `checkBlock.GetHash() != block.GetHash()` under a collision-resistant
`GetHash`: `checkBlock`'s header, with the merkle root of `checkVtx` and the roots of the state
after the block, is the block's. -/
def aalMatches (h : MerkleHash D) (roots : HeaderRoots D) (checkVtx : List CTransaction)
    (stateRoot utxoRoot : D) : Bool :=
  decide (HeaderRoots.mk (BlockMerkleRoot h checkVtx).1 stateRoot utxoRoot = roots)

/-- The hash as a free tree, which has no collisions: the model of a collision-resistant hash
that the results below are run on. -/
inductive HashTree
  | tx (t : CTransaction)
  | pair (a b : HashTree)
  | zero
  deriving DecidableEq

/-- `MerkleHash` over `HashTree`. Its pairs have no transaction's hash, whatever the size; the
size counts the fields of the serialization of a transaction whose scripts are empty. -/
def MerkleHash.free : MerkleHash HashTree :=
  ⟨.tx, .pair, .zero, fun tx => 10 + 41 * tx.vin.length + 9 * tx.vout.length⟩

theorem MerkleHash.free_collisionResistant : MerkleHash.free.CollisionResistant where
  txHash_injective _ _ h := HashTree.tx.inj h
  pairHash_injective _ _ _ _ h := HashTree.pair.inj h
  pairHash_ne_txHash _ _ _ _ := HashTree.noConfusion

/-- Two lists of transactions whose hashes extend one another extend one another. -/
theorem eq_append_of_map_eq_append {α β : Type*} {g : α → β} (hg : Function.Injective g)
    {l₁ l₂ : List α} {s' : List β} (h : l₂.map g = l₁.map g ++ s')
    (hs' : ∀ y ∈ s', y ∈ l₁.map g) : ∃ s, l₂ = l₁ ++ s ∧ ∀ x ∈ s, x ∈ l₁ := by
  obtain ⟨p, s, rfl, hp, rfl⟩ := List.map_eq_append_iff.mp h
  obtain rfl := (List.map_injective_iff.mpr hg) hp
  refine ⟨s, rfl, fun x hx => ?_⟩
  exact (List.mem_map_of_injective hg).mp (hs' _ (List.mem_map_of_mem hx))

variable {h : MerkleHash D}

/-- `CheckBlock` passes the root of two different transactions. -/
theorem CheckBlockMerkleRoot_pair (hcr : h.CollisionResistant) {a b : CTransaction}
    (hab : a ≠ b) : CheckBlockMerkleRoot h (BlockMerkleRoot h [a, b]).1 [a, b] = .ok () := by
  have hne : h.txHash a ≠ h.txHash b := hcr.txHash_injective.ne hab
  simp [CheckBlockMerkleRoot, BlockMerkleRoot, Merkle.computeRoot_pair, hne]

/-- Under a collision-resistant hash, a list of transactions whose merkle root is that of a block
whose root `CheckBlock` found unmutated is the block followed by some of its own
transactions, when no transaction of either is 64 bytes long. -/
theorem exists_append_of_blockMerkleRoot_eq (hcr : h.CollisionResistant)
    {B C : List CTransaction} {root : D} (hB : CheckBlockMerkleRoot h root B = .ok ())
    (hC : (BlockMerkleRoot h C).1 = root) (hBne : B ≠ []) (hCne : C ≠ [])
    (hB64 : ∀ tx ∈ B, h.txSize tx ≠ 64) (hC64 : ∀ tx ∈ C, h.txSize tx ≠ 64) :
    ∃ s, C = B ++ s ∧ ∀ x ∈ s, x ∈ B := by
  have hroot : (BlockMerkleRoot h B).1 = root ∧ (BlockMerkleRoot h B).2 = false := by
    simp only [CheckBlockMerkleRoot] at hB
    split_ifs at hB with h₁ h₂
    exact ⟨(not_not.mp h₁).symm, Bool.eq_false_iff.mpr h₂⟩
  -- the leaves are the hashes of transactions that are not 64 bytes long, which no pair has
  have hleaf : ∀ l : List CTransaction, (∀ tx ∈ l, h.txSize tx ≠ 64) → ∀ x ∈ l.map h.txHash,
      Merkle.Depth h.pairHash (· ∈ h.txHash '' {tx | h.txSize tx ≠ 64}) 0 x := by
    intro l hl x hx
    obtain ⟨tx, htx, rfl⟩ := List.mem_map.mp hx
    exact .leaf ⟨tx, hl tx htx, rfl⟩
  obtain ⟨s', hs', hmem⟩ := Merkle.eq_append_of_computeRoot_eq hcr.pairHash_injective
    (fun a b ⟨tx, hsize, htx⟩ => hcr.pairHash_ne_txHash a b tx hsize htx.symm) (hleaf B hB64)
    (hleaf C hC64) (by simpa using hBne) (by simpa using hCne) hroot.2 (hroot.1.trans hC.symm)
  exact eq_append_of_map_eq_append hcr.txHash_injective hs' hmem

/-- When the value transfers of the loop spend with `OP_SPEND` and none is repeated,
`checkBlock` adds none of the block's own transactions to it: those without `OP_SPEND` occur
once on each side, and one with `OP_SPEND` would repeat a value transfer. -/
theorem eq_nil_of_flatMap_checkBlockPart_eq_append {txs : List AALTx} {s : List CTransaction}
    (hsp : ∀ v ∈ loopTransfers txs, v.HasOpSpend = true) (hnodup : (loopTransfers txs).Nodup)
    (hCs : txs.flatMap AALTx.checkBlockPart = txs.map AALTx.tx ++ s)
    (hsB : ∀ x ∈ s, x ∈ txs.map AALTx.tx) : s = [] := by
  have hs_sp : ∀ x ∈ s, x.HasOpSpend = true := by
    have hfilter := filter_not_hasOpSpend_checkBlockPart hsp
    rw [hCs, List.filter_append, List.append_right_eq_self] at hfilter
    intro x hx
    simpa using List.filter_eq_nil_iff.mp hfilter x hx
  have hloopeq : loopTransfers txs = (txs.map AALTx.tx).filter (·.HasOpSpend) ++ s := by
    rw [← filter_hasOpSpend_checkBlockPart hsp, hCs, List.filter_append,
      List.filter_eq_self.mpr hs_sp]
  rw [hloopeq] at hnodup
  refine List.eq_nil_iff_forall_not_mem.mpr fun x hx => ?_
  exact List.disjoint_of_nodup_append hnodup (List.mem_filter.mpr ⟨hsB x hx, hs_sp x hx⟩) hx

/-- The input check lets a coin whose script creates or calls a contract go only to a
transaction with an `OP_SPEND` input. -/
theorem hasOpSpend_of_spends_contract {t : AALTx} (hadm : t.Admitted coinScript)
    (hcb : t.tx.IsCoinBase = false) {i : CTxIn} (hi : i ∈ t.tx.vin)
    (hcall : ((coinScript i.prevout).HasOpCreate || (coinScript i.prevout).HasOpCall) = true) :
    t.tx.HasOpSpend = true := by
  have hall := hadm.1
  simp only [contractSpendOk, hcb, Bool.false_or, List.all_eq_true] at hall
  have hi' := hall i hi
  simp only [hcall, Bool.not_true, Bool.or_false] at hi'
  exact List.any_eq_true.mpr ⟨i, hi, hi'⟩

/-- What the loop puts into `checkBlock` is a transaction of the block or a value transfer. -/
theorem mem_of_mem_flatMap_checkBlockPart {txs : List AALTx} {x : CTransaction}
    (hx : x ∈ txs.flatMap AALTx.checkBlockPart) : x ∈ txs.map AALTx.tx ++ loopTransfers txs := by
  obtain ⟨t, ht, hxt⟩ := List.mem_flatMap.mp hx
  rcases List.mem_append.mp hxt with hx | hx
  · split_ifs at hx
    · cases hx
    · rw [List.mem_singleton.mp hx]
      exact List.mem_append_left _ (List.mem_map_of_mem ht)
  · exact List.mem_append_right _ (List.mem_flatMap.mpr ⟨t, ht, hx⟩)

/-- An accepted block is the list its loop built, when `CheckBlock` found its merkle root
unmutated, no transaction of the block or of the loop's value transfers is 64 bytes long, the
value transfers spend with `OP_SPEND` and none of them is repeated; and then every transaction
outside the coinbase that spends a coin whose script creates or calls a contract is one of those
value transfers. -/
theorem vtx_eq_checkBlockVtx_of_accepted (hcr : h.CollisionResistant) {txs : List AALTx}
    {checkVtx : List CTransaction} {roots : HeaderRoots D} {stateRoot utxoRoot : D}
    (hmerkle : CheckBlockMerkleRoot h roots.hashMerkleRoot (txs.map AALTx.tx) = .ok ())
    (hloop : checkBlockVtx coinScript txs = .ok checkVtx)
    (haal : aalMatches h roots checkVtx stateRoot utxoRoot = true)
    (hcb : ∃ t ∈ txs, t.tx.HasOpSpend = false)
    (hsp : ∀ v ∈ loopTransfers txs, v.HasOpSpend = true) (hnodup : (loopTransfers txs).Nodup)
    (h64 : ∀ tx ∈ txs.map AALTx.tx ++ loopTransfers txs, h.txSize tx ≠ 64) :
    txs.map AALTx.tx = checkVtx ∧
      ∀ t ∈ txs, t.tx.IsCoinBase = false → ∀ i ∈ t.tx.vin,
        ((coinScript i.prevout).HasOpCreate || (coinScript i.prevout).HasOpCall) = true →
          t.tx ∈ loopTransfers txs := by
  obtain ⟨hadm, rfl⟩ := checkBlockVtx_eq_ok_iff.mp hloop
  have hC : (BlockMerkleRoot h (txs.flatMap AALTx.checkBlockPart)).1 = roots.hashMerkleRoot := by
    simp only [aalMatches, decide_eq_true_eq] at haal
    rw [← haal]
  obtain ⟨t₀, ht₀, hsp₀⟩ := hcb
  obtain ⟨s, hCs, hsB⟩ := exists_append_of_blockMerkleRoot_eq hcr hmerkle hC
    (List.ne_nil_of_mem (List.mem_map_of_mem ht₀))
    (List.ne_nil_of_mem (a := t₀.tx) (List.mem_flatMap.mpr
      ⟨t₀, ht₀, by simp [AALTx.checkBlockPart, hsp₀]⟩))
    (fun tx htx => h64 tx (List.mem_append_left _ htx))
    (fun tx htx => h64 tx (mem_of_mem_flatMap_checkBlockPart htx))
  obtain rfl := eq_nil_of_flatMap_checkBlockPart_eq_append hsp hnodup hCs hsB
  rw [List.append_nil] at hCs
  refine ⟨hCs.symm, fun t ht hcb i hi hcall => ?_⟩
  rw [← filter_hasOpSpend_checkBlockPart hsp, hCs]
  exact List.mem_filter.mpr ⟨List.mem_map_of_mem ht, hasOpSpend_of_spends_contract (hadm t ht)
    hcb hi hcall⟩

/-- A block of a coinbase, a contract call and the transaction that condenses the coins of a
contract, on the free hash; the coin at `⟨6, 0⟩` is the contract's. -/
theorem vtx_eq_checkBlockVtx_of_accepted_callBlock :
    let coinScript : COutPoint → CScript := fun o =>
      if o.hash = 6 then CScript.pushOp [] OP_CALL else p2pkhScript 3
    let cb : CTransaction := ⟨[⟨⟨0, COutPoint.NULL_INDEX⟩, []⟩], [⟨0, []⟩]⟩
    let call : CTransaction := ⟨[⟨⟨5, 0⟩, []⟩], [⟨100, CScript.pushOp [] OP_CALL⟩]⟩
    let vt : CTransaction := ⟨[⟨⟨6, 0⟩, [OP_SPEND]⟩], [⟨100, p2pkhScript 3⟩]⟩
    let txs : List AALTx := [⟨cb, []⟩, ⟨call, [vt]⟩, ⟨vt, []⟩]
    txs.map AALTx.tx = [cb, call, vt] ∧
      ∀ t ∈ txs, t.tx.IsCoinBase = false → ∀ i ∈ t.tx.vin,
        ((coinScript i.prevout).HasOpCreate || (coinScript i.prevout).HasOpCall) = true →
          t.tx ∈ loopTransfers txs := by
  intro coinScript cb call vt txs
  exact vtx_eq_checkBlockVtx_of_accepted MerkleHash.free_collisionResistant (by rfl)
    (show checkBlockVtx coinScript txs = .ok [cb, call, vt] by rfl)
    (show aalMatches MerkleHash.free
      ⟨(BlockMerkleRoot MerkleHash.free [cb, call, vt]).1, .zero, .zero⟩ [cb, call, vt]
        .zero .zero = true by decide)
    ⟨⟨cb, []⟩, List.mem_cons_self, rfl⟩ (by decide) (by decide) (by decide)

/-! ## The coinstake calls -/

/-- A coinstake whose call to the economy contract carries `1000` and fails, with the gas limit
`INT32_MAX` and the gas price `1` that `parseEthTXParams` gives a coinstake call, all of it used by
the exception. Its execution gives
the value back by a refund that spends the call's output with `OP_SPEND`; the loop builds
`checkBlock` as the block without it, and the block, which is its own `checkBlock`, passes. -/
theorem checkBlockVtx_drops_coinstake_refund :
    let cb : CTransaction := ⟨[⟨⟨0, COutPoint.NULL_INDEX⟩, []⟩], [⟨0, []⟩]⟩
    let cs : CTransaction := ⟨[⟨⟨5, 0⟩, []⟩], [⟨0, []⟩, ⟨10000, p2pkhScript 3⟩,
      ⟨1000, coinstakeCallScript [0x12, 0x34, 0x56, 0x78] LockTripEconomyContract⟩]⟩
    let q : QtumExecTx := ⟨⟨3, 1000, 7, 2⟩, INT32_MAX, 1, false, LockTripEconomyContract, 0, 3, 1⟩
    let r : ResultExecute := ⟨INT32_MAX, .other, 0, CTransaction.empty⟩
    (ByteCodeExec.processingResults ⟨2000, 0, 0, 50⟩ [(q, r)]).map (·.1.valueTransfers) =
        some [ByteCodeExec.valueRefundTx q] ∧
      checkBlockVtx (fun _ => p2pkhScript 3) [⟨cb, []⟩, ⟨cs, [ByteCodeExec.valueRefundTx q]⟩] =
        .ok [cb, cs] ∧
      CheckBlockMerkleRoot MerkleHash.free (BlockMerkleRoot MerkleHash.free [cb, cs]).1
        [cb, cs] = .ok () ∧
      ByteCodeExec.valueRefundTx q ∉ [cb, cs] := by
  intro cb cs q r
  refine ⟨by rfl, by rfl, CheckBlockMerkleRoot_pair MerkleHash.free_collisionResistant
    (by decide), by decide⟩

end HydraNode
