import HydraNode.Contract.Reward
import HydraNode.Stake.Subsidy

/-!
# The system contract calls of the coinstake

A proof-of-stake block's coinstake may carry `OP_COINSTAKE_CALL` outputs, which `ConnectBlock`
executes after the other transactions. Two calls are expected of it: `addContract` on the economy
contract, to record the owners of the contracts the block created, and `finishVote` on the DGP
contract, when a vote expires at the block's height. `CheckReward` looks for each expected output
among the coinstake's outputs; it does not look at the others.

`CheckQtumTransaction` (`consensus/tx_verify.cpp`) limits the calls: a coinstake calls the
economy contract at most once, the DGP contract at most once and only with the `finishVote`
selector, and no other contract; an ordinary call may not invoke `addContract` or `finishVote`.
`QtumCallsOk` says that, and `CheckQtumTransaction_eq_ok_iff` proves it is exactly what the loop
accepts. It says nothing of what the economy call does: a block that created no contracts, whose
coinstake calls `addContract` for contracts and owners of the staker's choosing, is accepted
(`ConnectBlockReward_accepts_injected_calls`), and so is a `finishVote` before the vote expires.

The selectors are those the contracts' ABI gives (`getContractFunctionHex`); `SystemAbi` holds
them.

## Main definitions

* `QtumType`, `ContractCall`, `SystemAbi`
* `CheckQtumTransaction`, `CheckDgp`
* `coinstakeCallScript`

## Main results

* `CheckQtumTransaction_eq_ok_iff`
* `ConnectBlockReward_accepts_injected_calls`
-/

namespace HydraNode

/-- The opcode of a contract output, as `getQtumType` answers it. -/
inductive QtumType where
  | OP_CREATE
  | OP_CALL
  | OP_COINSTAKE_CALL
  deriving DecidableEq, Repr

/-- A converted contract output, with the fields `CheckQtumTransaction` and `CheckDgp` read. -/
structure ContractCall where
  qtumType : QtumType
  receiveAddress : Address
  data : List UInt8
  deriving DecidableEq, Repr

/-- The four-byte selectors of `addContract` and `finishVote` in the contracts' ABI. -/
structure SystemAbi where
  addContract : List UInt8
  finishVote : List UInt8

/-- `LockTripEconomyContract` and `LockTripDgpContract`. -/
def LockTripEconomyContract : Address := 0x90
def LockTripDgpContract : Address := 0x91

/-- `dev::toHex(data).substr(0, 8)` compared with a selector: the first four bytes. -/
def selects (data selector : List UInt8) : Bool := data.take 4 == selector

/-- `CScriptNum(VersionVM::GetEVMDefault().toRaw()).getvch()`: format `0` and root VM `1` make
the raw version `4`, one byte. -/
def EVMDefaultVersion : List UInt8 := [0x04]

/-- The output script of a coinstake call, as `getCScriptForAddContract` and `Dgp::finishVote`
build it: the VM version, the call data, the contract and `OP_COINSTAKE_CALL`. -/
def coinstakeCallScript (data : List UInt8) (contract : Address) : CScript :=
  CScript.pushOp (CScript.pushData (CScript.pushData (CScript.pushData [] EVMDefaultVersion) data)
    contract.asBytes) OP_COINSTAKE_CALL

section checks

variable (abi : SystemAbi)

/-- One iteration of `CheckQtumTransaction`, with `hasEconomyCall` and `hasDGPCall`. -/
def checkQtumStep (s : Bool × Bool) (c : ContractCall) : Except String (Bool × Bool) :=
  if c.qtumType = .OP_CALL ∧ c.receiveAddress = LockTripEconomyContract ∧
      selects c.data abi.addContract then
    .error "bad-txns-cannot-call-addcontract-of-economy-contract"
  else if c.qtumType = .OP_CALL ∧ c.receiveAddress = LockTripDgpContract ∧
      selects c.data abi.finishVote then
    .error "bad-txns-cannot-call-finish-vote-outside-coinstake"
  else if c.qtumType = .OP_COINSTAKE_CALL then
    if c.receiveAddress = LockTripEconomyContract then
      if s.1 then .error "bad-txns-coinstake-call-calling-economy-more-than-once"
      else .ok (true, s.2)
    else if c.receiveAddress = LockTripDgpContract then
      if !selects c.data abi.finishVote then
        .error "bad-txns-coinstake-can-call-only-finish-vote-inside-coinstake"
      else if s.2 then .error "bad-txns-coinstake-call-calling-dgp-more-than-once"
      else .ok (s.1, true)
    else .error "bad-txns-coinstake-call-on-different-than-economy-dgp-contract"
  else .ok s

/-- `CheckQtumTransaction`, over the converted outputs of a transaction. -/
def CheckQtumTransaction (calls : List ContractCall) : Except String Unit :=
  match calls.foldlM (checkQtumStep abi) (false, false) with
  | .ok _ => .ok ()
  | .error err => .error err

/-- What `CheckDgp` reads of the DGP contract; `none` where the call fails. -/
structure DgpView where
  hasVoteInProgress : Option Bool
  voteBlockExpiration : Option ℕ

/-- `CheckDgp`: when a vote in progress expires at the height `nHeight`, a call to the DGP
contract with the `finishVote` selector must be among the calls. -/
def CheckDgp (dgp : DgpView) (nHeight : ℕ) (calls : List ContractCall) : Bool :=
  match dgp.hasVoteInProgress with
  | none => false
  | some false => true
  | some true =>
    match dgp.voteBlockExpiration with
    | none => false
    | some expiration =>
      if expiration ≤ nHeight then
        calls.any fun c => c.receiveAddress == LockTripDgpContract && selects c.data abi.finishVote
      else true

/-! ## What `CheckQtumTransaction` accepts -/

/-- A coinstake call to `contract`. -/
def IsCoinstakeCallTo (contract : Address) (c : ContractCall) : Bool :=
  decide (c.qtumType = .OP_COINSTAKE_CALL) && decide (c.receiveAddress = contract)

/-- The calls of one output that `CheckQtumTransaction` lets through on their own. -/
def CallAllowed (c : ContractCall) : Prop :=
  ¬(c.qtumType = .OP_CALL ∧ c.receiveAddress = LockTripEconomyContract ∧
    selects c.data abi.addContract) ∧
  ¬(c.qtumType = .OP_CALL ∧ c.receiveAddress = LockTripDgpContract ∧
    selects c.data abi.finishVote) ∧
  (c.qtumType = .OP_COINSTAKE_CALL → c.receiveAddress = LockTripEconomyContract ∨
    (c.receiveAddress = LockTripDgpContract ∧ selects c.data abi.finishVote))

/-- What `CheckQtumTransaction` accepts: every call allowed on its own, and at most one
coinstake call to each of the economy and DGP contracts. -/
structure QtumCallsOk (calls : List ContractCall) : Prop where
  allowed : ∀ c ∈ calls, CallAllowed abi c
  economy_once : (calls.filter (IsCoinstakeCallTo LockTripEconomyContract)).length ≤ 1
  dgp_once : (calls.filter (IsCoinstakeCallTo LockTripDgpContract)).length ≤ 1

/-- One step of the loop, stated without its errors: it goes on exactly when the call is
allowed and does not repeat a coinstake call already seen, and it records the call. -/
theorem checkQtumStep_eq_ok_iff (s s' : Bool × Bool) (c : ContractCall) :
    checkQtumStep abi s c = .ok s' ↔
      CallAllowed abi c ∧
      (IsCoinstakeCallTo LockTripEconomyContract c → s.1 = false) ∧
      (IsCoinstakeCallTo LockTripDgpContract c → s.2 = false) ∧
      s' = (s.1 || IsCoinstakeCallTo LockTripEconomyContract c,
        s.2 || IsCoinstakeCallTo LockTripDgpContract c) := by
  obtain ⟨e, d⟩ := s
  obtain ⟨t, a, data⟩ := c
  have hne : LockTripEconomyContract ≠ LockTripDgpContract := by decide
  cases t with
  | OP_CREATE => simp [checkQtumStep, CallAllowed, IsCoinstakeCallTo, eq_comm (a := s')]
  | OP_CALL =>
    simp only [checkQtumStep, CallAllowed, IsCoinstakeCallTo]
    split_ifs <;> simp_all [eq_comm (a := s')]
  | OP_COINSTAKE_CALL =>
    -- the flags matter only for a call to the economy or the DGP contract
    by_cases ha : a = LockTripEconomyContract
    · subst ha
      cases e <;> simp [checkQtumStep, CallAllowed, IsCoinstakeCallTo, hne, eq_comm (a := s')]
    · by_cases hd : a = LockTripDgpContract
      · subst hd
        simp only [checkQtumStep, CallAllowed, IsCoinstakeCallTo]
        cases selects data abi.finishVote <;> cases d <;> simp [hne.symm, eq_comm (a := s')]
      · simp [checkQtumStep, CallAllowed, IsCoinstakeCallTo, ha, hd]

/-- A count of at most one, taken with a flag for what was seen before: the head either is
not counted, or is the one and the flag was clear. -/
theorem length_filter_cons_add_toNat_le_one {α : Type*} (P : α → Bool) (a : α) (l : List α)
    (f : Bool) :
    ((a :: l).filter P).length + f.toNat ≤ 1 ↔
      (P a = true → f = false) ∧ (l.filter P).length + (f || P a).toNat ≤ 1 := by
  cases hP : P a <;> cases f <;> simp [hP]

/-- The run: from the flags `(e, d)`, the loop accepts exactly the calls allowed one by one
whose coinstake calls to each contract, counted with its flag, are at most one. The induction
is on the calls. -/
theorem foldlM_checkQtumStep_ok_iff (calls : List ContractCall) (e d : Bool) :
    (∃ s', calls.foldlM (checkQtumStep abi) (e, d) = .ok s') ↔
      (∀ c ∈ calls, CallAllowed abi c) ∧
      (calls.filter (IsCoinstakeCallTo LockTripEconomyContract)).length + e.toNat ≤ 1 ∧
      (calls.filter (IsCoinstakeCallTo LockTripDgpContract)).length + d.toNat ≤ 1 := by
  induction calls generalizing e d with
  | nil =>
    refine ⟨fun _ => ?_, fun _ => ⟨(e, d), rfl⟩⟩
    cases e <;> cases d <;> simp
  | cons c cs ih =>
    simp only [foldlM_except_cons_eq_ok, List.forall_mem_cons,
      length_filter_cons_add_toNat_le_one]
    constructor
    · rintro ⟨s', s₁, h₁, h₂⟩
      obtain ⟨hc, he, hd, rfl⟩ := (checkQtumStep_eq_ok_iff abi _ _ c).mp h₁
      obtain ⟨hcs, hecs, hdcs⟩ := (ih _ _).mp ⟨s', h₂⟩
      exact ⟨⟨hc, hcs⟩, ⟨he, hecs⟩, ⟨hd, hdcs⟩⟩
    · rintro ⟨⟨hc, hcs⟩, ⟨he, hecs⟩, ⟨hd, hdcs⟩⟩
      obtain ⟨s', hs'⟩ := (ih _ _).mpr ⟨hcs, hecs, hdcs⟩
      exact ⟨s', _, (checkQtumStep_eq_ok_iff abi _ _ c).mpr ⟨hc, he, hd, rfl⟩, hs'⟩

/-- `CheckQtumTransaction` accepts exactly the calls `QtumCallsOk` describes. -/
theorem CheckQtumTransaction_eq_ok_iff (calls : List ContractCall) :
    CheckQtumTransaction abi calls = .ok () ↔ QtumCallsOk abi calls := by
  have h := foldlM_checkQtumStep_ok_iff abi calls false false
  simp only [Bool.toNat_false, Nat.add_zero] at h
  unfold CheckQtumTransaction
  constructor
  · intro hok
    cases hrun : calls.foldlM (checkQtumStep abi) (false, false) with
    | error err => simp [hrun] at hok
    | ok s' =>
      obtain ⟨hall, he, hd⟩ := h.mp ⟨s', hrun⟩
      exact ⟨hall, he, hd⟩
  · intro ⟨hall, he, hd⟩
    obtain ⟨s', hrun⟩ := h.mpr ⟨hall, he, hd⟩
    simp [hrun]

end checks

/-! ## The outputs of the coinstake -/

/-- What `CheckReward` does guarantee of a proof-of-stake block: its coinstake carries the
`addContract` call for the contracts the block created, and the `finishVote` call when a vote
expires at its height. -/
theorem ConnectBlockReward_coinstake_calls_present {env : ProcessingEnv} {p : RewardParams}
    {calls : CoinstakeCalls} {getContractOwner : Address → Option Address} {prevMoneySupply : ℕ}
    {txs : List TxAccounting} {r : BlockReward}
    (h : ConnectBlockReward env p calls getContractOwner prevMoneySupply txs = .ok r)
    (hpos : p.isProofOfStake = true) :
    (r.accounting.contractAddresses ≠ [] →
      ⟨0, calls.addContractScript r.accounting.contractAddresses r.accounting.contractOwners⟩ ∈
        p.rewardVout) ∧
    ∀ script ∈ calls.finishVote, ⟨0, script⟩ ∈ p.rewardVout := by
  obtain ⟨dividends, hsub⟩ := ConnectBlockReward_subperm h
  simp only [checkVouts, hpos, if_true] at hsub
  refine ⟨fun hne => hsub.subset ?_, fun script hs => hsub.subset ?_⟩
  · simp [List.length_eq_zero_iff, hne]
  · rw [Option.mem_def] at hs
    simp [hs]

/-- A proof-of-stake block of a coinbase and a coinstake that spends `10000` and pays `10000` and
the subsidy of the first mainnet proof-of-stake block, `1508751516`. -/
def stakeBlock : List TxAccounting :=
  [.noContract true 0 0 0 moneyRange_zero, .noContract false 10000 1508761516 0 moneyRange_zero]

/-- `stakeBlock` when a vote expires at its height: its coinstake carries the `finishVote`
call. -/
theorem ConnectBlockReward_stakeBlock_finishVote :
    let finishVote := coinstakeCallScript [0x9a, 0xbc, 0xde, 0xf0] LockTripDgpContract
    let p : RewardParams := ⟨true, 1508751516, 0, 1508751516,
      [⟨0, []⟩, ⟨1508761516, p2pkhScript 3⟩, ⟨0, finishVote⟩]⟩
    ∃ r, ConnectBlockReward ⟨5000, 0, 0, 50⟩ p ⟨fun _ _ => [], some finishVote⟩ (fun _ => none)
        1000000 stakeBlock = .ok r ∧
      (r.accounting.contractAddresses ≠ [] →
        ⟨0, ([] : CScript)⟩ ∈ p.rewardVout) ∧
      ∀ script ∈ some finishVote, ⟨0, script⟩ ∈ p.rewardVout := by
  intro finishVote p
  obtain ⟨r, h⟩ : ∃ r, ConnectBlockReward ⟨5000, 0, 0, 50⟩ p ⟨fun _ _ => [], some finishVote⟩
      (fun _ => none) 1000000 stakeBlock = .ok r := ⟨_, rfl⟩
  exact ⟨r, h, ConnectBlockReward_coinstake_calls_present h rfl⟩

/-- `stakeBlock` at height `5001`, the first proof-of-stake block of mainnet, whose subsidy
`GetBlockSubsidy` gives as `1508751516` with no vote. It created no contract, and no vote is in
progress. Its coinstake calls `addContract` on the economy contract, with the staker's own data
after the selector, and `finishVote` on the DGP contract; it pays nothing else. The calls pass
`CheckQtumTransaction` and `CheckDgp`, the block expects no call of its coinstake, and
`ConnectBlock`'s amounts accept it. -/
theorem ConnectBlockReward_accepts_injected_calls :
    let abi : SystemAbi := ⟨[0x12, 0x34, 0x56, 0x78], [0x9a, 0xbc, 0xde, 0xf0]⟩
    let calls : List ContractCall :=
      [⟨.OP_COINSTAKE_CALL, LockTripEconomyContract, [0x12, 0x34, 0x56, 0x78, 0x0b, 0x0e]⟩,
        ⟨.OP_COINSTAKE_CALL, LockTripDgpContract, [0x9a, 0xbc, 0xde, 0xf0]⟩]
    GetBlockSubsidy mainnetSubsidyParams [] [] 5001 = .ok 1508751516 ∧
    CheckQtumTransaction abi calls = .ok () ∧ CheckDgp abi ⟨some false, none⟩ 5001 calls = true ∧
    ∃ r, ConnectBlockReward ⟨5000, 0, 0, 50⟩
        ⟨true, 1508751516, 0, 1508751516, [⟨0, []⟩, ⟨1508761516, p2pkhScript 3⟩,
          ⟨0, coinstakeCallScript [0x12, 0x34, 0x56, 0x78, 0x0b, 0x0e] LockTripEconomyContract⟩,
          ⟨0, coinstakeCallScript [0x9a, 0xbc, 0xde, 0xf0] LockTripDgpContract⟩]⟩
        ⟨fun _ _ => [], none⟩ (fun _ => none) 1000000
        stakeBlock = .ok r ∧
      r.accounting.contractAddresses = [] := by
  refine ⟨GetBlockSubsidy_first_stake_block, by decide, by decide, _, rfl, rfl⟩

end HydraNode
