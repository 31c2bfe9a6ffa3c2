import HydraNode.Lydra.Spending

/-!
# The staker's LYDRA filter

`BlockAssembler::addPackageTxs` walks the mempool by ancestor score and, for each package it
meets (a transaction with its unconfirmed ancestors), runs `TestPackageTransactions` and
`CheckTransactionLydraSpending`, then adds the package's transactions in the order
`SortForBlock` gives, until one of them fails to be added. The map `addresses_balances` is
cleared when the loop starts and then kept across packages: a package the check rejects, or
one that passes and is not added, leaves in it what its transactions wrote.

The walk over the mempool, the ancestor sets and the modified-entry bookkeeping only decide
which packages are met and in which order. `Package` records what the loop then reads of
one: its transactions in the two orders, the verdict of `TestPackageTransactions`, and how
many of its sorted transactions are added.

## Refinement

The miner's check of a transaction that passes is a check the validator passes too
(`checkTx_sim`): the two differ only where an input has no destination, which stops the
miner. So when no package is rejected by the LYDRA check and every package that passes is
added whole, in the order the check met it, the validator accepts the block
(`CheckBlockLydraSpending_addPackageTxs`). Without that, the map keeps the writes of
transactions that never reach the block, and `addPackageTxs_block_fails` is a block the
validator rejects.

## Main definitions

* `BlockAssembler.Package`, `BlockAssembler.addPackageTxs`

## Main results

* `LydraView.checkTx_sim`
* `BlockAssembler.CheckBlockLydraSpending_addPackageTxs`
* `BlockAssembler.addPackageTxs_block_fails`
-/

namespace HydraNode

variable {D : Type*} [DecidableEq D] [Inhabited D]

namespace LydraView

variable (v : LydraView D)

/-- An input step of the miner that goes on is one of the validator. -/
theorem inputStep_sim {s s' : Balances D × TxScan D} {txin : CTxIn}
    (h : v.inputStep true s txin = (true, s')) : v.inputStep false s txin = (true, s') := by
  unfold inputStep at h ⊢
  -- only the branch without a destination differs, and there the miner stops
  cases hd : v.extractPrevout txin.prevout (v.getOutputFor txin.prevout).scriptPubKey with
  | none => simp [hd] at h
  | some dest => simpa [hd] using h

/-- A transaction the miner's check passes is one the validator's check passes, with the
same balances after it. -/
theorem checkTx_sim {balances balances' : Balances D} {tx : CTransaction}
    (h : v.checkTx true balances tx = (true, balances')) :
    v.checkTx false balances tx = (true, balances') := by
  unfold checkTx at h ⊢
  rcases hr : loopBreak (v.inputStep true) (balances, {}) tx.vin with ⟨ok, r⟩
  rw [hr] at h
  cases ok
  · simp at h
  · -- the input loops agree; the output loop and the address loop do not read the flag
    rw [loopBreak_of_sim (v.inputStep true) (fun _ _ _ _ hs => v.inputStep_sim hs) hr]
    simpa using h

/-- The validator's step on a transaction that is neither coinbase nor coinstake is the
check of the transaction. -/
theorem blockStep_of_normal {balances : Balances D} {tx : CTransaction}
    (hcb : tx.IsCoinBase = false) (hcs : tx.IsCoinStake = false) :
    v.blockStep balances tx = v.checkTx false balances tx := by
  simp [blockStep, hcb, hcs]

end LydraView

namespace BlockAssembler

/-- A package as the selection loop of `addPackageTxs` meets it. -/
structure Package where
  /-- Its transactions in the order of `CTxMemPool::setEntries`, by transaction hash. -/
  entries : List CTransaction
  /-- Its transactions in the order `SortForBlock` gives. -/
  sortedEntries : List CTransaction
  /-- The verdict of `TestPackageTransactions`. -/
  testPackage : Bool
  /-- How many of `sortedEntries` are added before one fails to be added or time runs out;
  the rest are skipped. -/
  added : ℕ

variable (v : LydraView D)

/-- One package of the loop of `addPackageTxs`: the map `addresses_balances` and the
transactions added so far. -/
def addPackageStep (s : Balances D × List CTransaction) (p : Package) :
    Balances D × List CTransaction :=
  if !p.testPackage then s
  else
    let r := CheckTransactionLydraSpending v s.1 p.entries
    if r.1 then (r.2, s.2 ++ p.sortedEntries.take p.added) else (r.2, s.2)

/-- The transactions `addPackageTxs` adds to the block from the packages it meets, in this
order; `addresses_balances` is cleared first. -/
def addPackageTxs (packages : List Package) : List CTransaction :=
  (packages.foldl (addPackageStep v) (fun _ => none, [])).2

/-- Every package that passes `TestPackageTransactions` passes the LYDRA check and is added
whole, in the order the check met it. -/
def AllPass : Balances D × List CTransaction → List Package → Prop
  | _, [] => True
  | s, p :: ps =>
    (p.testPackage = true → (CheckTransactionLydraSpending v s.1 p.entries).1 = true ∧
      p.sortedEntries.take p.added = p.entries) ∧ AllPass (addPackageStep v s p) ps

/-- The run invariant of the selection loop when every package passes: the map is what the
miner's check leaves after the added transactions, in the order they were added. The
induction is on the packages. -/
theorem loopBreak_checkTx_addPackageStep (packages : List Package)
    (s : Balances D × List CTransaction)
    (hs : loopBreak (v.checkTx true) (fun _ => none) s.2 = (true, s.1))
    (hpass : AllPass v s packages) :
    loopBreak (v.checkTx true) (fun _ => none) (packages.foldl (addPackageStep v) s).2 =
      (true, (packages.foldl (addPackageStep v) s).1) := by
  induction packages generalizing s with
  | nil => exact hs
  | cons p ps ih =>
    obtain ⟨hp, hps⟩ := hpass
    rw [List.foldl_cons]
    refine ih _ ?_ hps
    by_cases ht : p.testPackage = true
    · -- the package passes and is added whole: the check ran over exactly what is added
      obtain ⟨hok, hwhole⟩ := hp ht
      have hcheck : CheckTransactionLydraSpending v s.1 p.entries =
          (true, (CheckTransactionLydraSpending v s.1 p.entries).2) := Prod.ext hok rfl
      have hstep : addPackageStep v s p =
          ((CheckTransactionLydraSpending v s.1 p.entries).2, s.2 ++ p.entries) := by
        simp [addPackageStep, ht, hok, hwhole]
      rw [hstep, loopBreak_append, hs]
      exact hcheck
    · have hstep : addPackageStep v s p = s := by simp [addPackageStep, ht]
      rw [hstep]
      exact hs

/-- Refinement of the validator's check by the miner's: when every package that passes
`TestPackageTransactions` passes the LYDRA check and is added whole in the order the check
met it, and no transaction of the mempool is a coinbase or a coinstake, the transactions
`addPackageTxs` selects pass `CheckBlockLydraSpending`. -/
theorem CheckBlockLydraSpending_addPackageTxs (packages : List Package)
    (hpass : AllPass v (fun _ => none, []) packages)
    (hnormal : ∀ tx ∈ addPackageTxs v packages, tx.IsCoinBase = false ∧ tx.IsCoinStake = false) :
    CheckBlockLydraSpending v (addPackageTxs v packages) = true := by
  have hminer := loopBreak_checkTx_addPackageStep v packages (fun _ => none, []) rfl hpass
  -- the miner's run over the selected transactions is a run of the validator's check
  have hval := loopBreak_of_sim (v.checkTx true) (g := v.checkTx false)
    (fun _ _ _ _ hs => v.checkTx_sim hs) hminer
  have hblock := loopBreak_of_sim (v.checkTx false) (g := v.blockStep)
    (fun _ tx htx _ hs => by
      rw [v.blockStep_of_normal (hnormal tx htx).1 (hnormal tx htx).2]
      exact hs) hval
  unfold CheckBlockLydraSpending
  rw [addPackageTxs, hblock]

/-- One package in which address `2`, which has nothing locked, spends its coin of `1000`: it
passes and is added, and the validator accepts the block. -/
theorem CheckBlockLydraSpending_addPackageTxs_unlocked :
    CheckBlockLydraSpending (D := ℕ) ⟨fun o => if o.hash = 1 then ⟨5, [1]⟩
        else if o.hash = 2 then ⟨1000, [2]⟩ else CTxOut.null,
      fun _ s => if s.length = 1 then some (s.headD 0).toNat else none,
      fun s => if s.length = 1 then some (s.headD 0).toNat else none,
      fun d => some (U256.ofNat d, 1),
      fun h _ => some (if h = 1 then [⟨5, 0, false⟩, ⟨5, 0, false⟩]
        else if h = 2 then [⟨1000, 0, false⟩] else []),
      100, 500, fun d => if d = 1 then 10 else 0⟩
      (addPackageTxs ⟨fun o => if o.hash = 1 then ⟨5, [1]⟩
        else if o.hash = 2 then ⟨1000, [2]⟩ else CTxOut.null,
      fun _ s => if s.length = 1 then some (s.headD 0).toNat else none,
      fun s => if s.length = 1 then some (s.headD 0).toNat else none,
      fun d => some (U256.ofNat d, 1),
      fun h _ => some (if h = 1 then [⟨5, 0, false⟩, ⟨5, 0, false⟩]
        else if h = 2 then [⟨1000, 0, false⟩] else []),
      100, 500, fun d => if d = 1 then 10 else 0⟩
        [⟨[⟨[⟨⟨2, 0⟩, []⟩], [⟨1000, [3]⟩]⟩], [⟨[⟨⟨2, 0⟩, []⟩], [⟨1000, [3]⟩]⟩], true, 1⟩]) = true :=
  CheckBlockLydraSpending_addPackageTxs _ _ ⟨fun _ => ⟨by decide +kernel, rfl⟩, trivial⟩
    (by decide +kernel)

/-- Writes of a rejected package stay in the map. Address `1` owns two coins of `5`, all
locked; address `2` owns `1000`. In the package `[T₁, T₂]`, `T₁` spends a coin of `1` and the
coin of `2` and pays `1000` to `1`; `T₂` spends `T₁`'s output, which the tip does not hold, so
the check stops there, with `1005` stored for `1`. The next package, `T₃`, spends the other
coin of `1`: against `1005` it passes, and it is added. The validator, from the index
balance `10`, rejects the block. -/
theorem addPackageTxs_block_fails :
    addPackageTxs (D := ℕ) ⟨fun o => if o.hash = 1 then ⟨5, [1]⟩
        else if o.hash = 2 then ⟨1000, [2]⟩ else CTxOut.null,
      fun _ s => if s.length = 1 then some (s.headD 0).toNat else none,
      fun s => if s.length = 1 then some (s.headD 0).toNat else none,
      fun d => some (U256.ofNat d, 1),
      fun h _ => some (if h = 1 then [⟨5, 0, false⟩, ⟨5, 0, false⟩]
        else if h = 2 then [⟨1000, 0, false⟩] else []),
      100, 500, fun d => if d = 1 then 10 else 0⟩
      [⟨[⟨[⟨⟨1, 0⟩, []⟩, ⟨⟨2, 0⟩, []⟩], [⟨1000, [1]⟩, ⟨5, [3]⟩]⟩, ⟨[⟨⟨77, 0⟩, []⟩], [⟨1000, [2]⟩]⟩],
        [⟨[⟨⟨1, 0⟩, []⟩, ⟨⟨2, 0⟩, []⟩], [⟨1000, [1]⟩, ⟨5, [3]⟩]⟩, ⟨[⟨⟨77, 0⟩, []⟩], [⟨1000, [2]⟩]⟩],
        true, 2⟩,
       ⟨[⟨[⟨⟨1, 1⟩, []⟩], [⟨5, [3]⟩]⟩], [⟨[⟨⟨1, 1⟩, []⟩], [⟨5, [3]⟩]⟩], true, 1⟩] =
      [⟨[⟨⟨1, 1⟩, []⟩], [⟨5, [3]⟩]⟩] ∧
    CheckBlockLydraSpending (D := ℕ) ⟨fun o => if o.hash = 1 then ⟨5, [1]⟩
        else if o.hash = 2 then ⟨1000, [2]⟩ else CTxOut.null,
      fun _ s => if s.length = 1 then some (s.headD 0).toNat else none,
      fun s => if s.length = 1 then some (s.headD 0).toNat else none,
      fun d => some (U256.ofNat d, 1),
      fun h _ => some (if h = 1 then [⟨5, 0, false⟩, ⟨5, 0, false⟩]
        else if h = 2 then [⟨1000, 0, false⟩] else []),
      100, 500, fun d => if d = 1 then 10 else 0⟩
      [⟨[⟨⟨0, COutPoint.NULL_INDEX⟩, []⟩], [⟨0, [3]⟩]⟩, ⟨[⟨⟨1, 1⟩, []⟩], [⟨5, [3]⟩]⟩] = false := by
  constructor <;> decide +kernel

end BlockAssembler

end HydraNode
