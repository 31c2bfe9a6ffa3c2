import HydraNode.Stake.Delegation
import HydraNode.Contract.Assembler

/-!
# The MPoS reward outputs

While MPoS is active (`nFirstMPoSBlock ≤ nPrevHeight < nLastMPoSBlock`) a proof-of-stake
block's reward is cut into `nMPoSRewardRecipients` pieces; the staker keeps one, and each
recipient read back from the chain gets the others. A recipient is a `BlockScript`
(`pos.cpp`): the script of an earlier block's staker, and for a delegated stake the owner's
script and the delegation fee. `GetMPoSOutputs` pays a plain recipient the whole piece and
splits a delegated one with `SplitOfflineStakeReward`; the owner's output is left out when the
fee is `100` (`IsDelegateOutputExist`). The wallet appends these outputs to the coinstake
(`CreateMPoSOutputs`); the validator computes the same list and looks for each output in what
the first search of `CheckReward` left of the coinstake, with `std::find` and `erase`.

Each recipient's outputs are worth exactly the piece, so the outputs are worth the piece times
the number of recipients (`GetMPoSOutputs_spec`). The search is a multiset containment, no more:
it accepts a coinstake exactly when its outputs contain the expected outputs and the MPoS
outputs together, counted with multiplicity (`checkRewardOutputs_iff`). That covers the coinstake
the wallet built, and also every coinstake with further outputs, a second copy of an MPoS
output among them.

The list of recipients, which `GetMPoSOutputScripts` reads from the block index and the script
cache, is a parameter: both sides read it at `pindexPrev->nHeight`.

## Main definitions

* `BlockScript`, `GetMPoSOutputs`, `CreateMPoSOutputs`
* `checkRewardOutputs` — the two searches of `CheckReward` over the coinstake's outputs

## Main results

* `GetMPoSOutputs_spec`
* `checkRewardOutputs_iff`
-/

namespace HydraNode

/-- `BlockScript` (`pos.cpp`): an MPoS recipient. -/
structure BlockScript where
  stakerScript : CScript
  delegateScript : CScript
  fee : UInt8
  hasDelegate : Bool

/-- The outputs of one recipient, `none` when `SplitOfflineStakeReward` fails. -/
def recipientOutputs (nRewardPiece : CAmount) (blockScript : BlockScript) :
    Option (List CTxOut) :=
  if blockScript.hasDelegate then
    match SplitOfflineStakeReward nRewardPiece blockScript.fee.toNat with
    | none => none
    | some (nRewardDelegate, nRewardStaker) =>
      some (⟨nRewardStaker, blockScript.stakerScript⟩ ::
        if IsDelegateOutputExist blockScript.fee.toNat then
          [⟨nRewardDelegate, blockScript.delegateScript⟩] else [])
  else some [⟨nRewardPiece, blockScript.stakerScript⟩]

/-- `GetMPoSOutputs` for the recipients `GetMPoSOutputScripts` read, `none` when it failed:
the outputs of each recipient in turn, and `none` at the first split that fails. -/
def GetMPoSOutputs (mposScriptList : Option (List BlockScript)) (nRewardPiece : CAmount) :
    Option (List CTxOut) :=
  match mposScriptList with
  | none => none
  | some scripts => (scripts.mapM (recipientOutputs nRewardPiece)).map List.flatten

/-- `CreateMPoSOutputs`: the MPoS outputs appended to the coinstake's. -/
def CreateMPoSOutputs (vout : List CTxOut) (mposScriptList : Option (List BlockScript))
    (nRewardPiece : CAmount) : Option (List CTxOut) :=
  (GetMPoSOutputs mposScriptList nRewardPiece).map (vout ++ ·)

/-- The MPoS part of `CheckReward`: each MPoS output is looked for in `vTempVouts`, what the
first search left of the coinstake's outputs, and erased. -/
def CheckRewardMPoS (vTempVouts : List CTxOut) (mposOutputList : Option (List CTxOut)) :
    Except String Unit :=
  match mposOutputList with
  | none => .error "CheckReward(): cannot create the list of MPoS outputs"
  | some outputs =>
    match matchVouts vTempVouts outputs with
    | none => .error "bad-cs-mpos-missing"
    | some _ => .ok ()

/-- The two searches of `CheckReward` over the coinstake's outputs `coinstakeVout`: first the
expected outputs `vouts` (refunds, dividends, system calls), then the MPoS outputs. -/
def checkRewardOutputs (coinstakeVout vouts : List CTxOut)
    (mposOutputList : Option (List CTxOut)) : Except String Unit :=
  match matchVouts coinstakeVout vouts with
  | none => .error "CheckReward(): Gas refund missing or reimbursement or add contract owner call"
  | some vTempVouts => CheckRewardMPoS vTempVouts mposOutputList

/-! ## What each recipient is paid -/

/-- What a recipient is paid: for a delegated stake the staker `fee` percent of the piece,
rounded down, and the owner the rest, whose output is left out at a fee of `100`; a plain
recipient the whole piece. -/
def recipientShares (p : CAmount) (b : BlockScript) : List CTxOut :=
  if b.hasDelegate then
    ⟨p * b.fee.toNat / 100, b.stakerScript⟩ ::
      if b.fee.toNat < 100 then [⟨p - p * b.fee.toNat / 100, b.delegateScript⟩] else []
  else [⟨p, b.stakerScript⟩]

/-- A recipient's fee, when it has a delegate, is one `SplitOfflineStakeReward` accepts. -/
def BlockScript.FeeInRange (b : BlockScript) : Prop := b.hasDelegate = true → b.fee.toNat ≤ 100

theorem IsDelegateOutputExist_natCast (fee : ℕ) :
    IsDelegateOutputExist fee = decide (fee < 100) := by
  simp [IsDelegateOutputExist]

theorem recipientOutputs_eq {p : CAmount} (hp : 0 ≤ p) {b : BlockScript} (hb : b.FeeInRange) :
    recipientOutputs p b = some (recipientShares p b) := by
  by_cases hd : b.hasDelegate = true
  · rw [recipientOutputs, recipientShares, if_pos hd, if_pos hd,
      SplitOfflineStakeReward_eq hp (hb hd), IsDelegateOutputExist_natCast]
    by_cases hfee : b.fee.toNat < 100 <;> simp [hfee]
  · rw [recipientOutputs, recipientShares, if_neg hd, if_neg hd]

/-- Each recipient is paid the piece, however it is split. -/
theorem sum_recipientShares {p : CAmount} {b : BlockScript} (hb : b.FeeInRange) :
    ((recipientShares p b).map (·.nValue)).sum = p := by
  rw [recipientShares]
  split_ifs with hd hfee
  · simp
  · -- a fee of `100` leaves the staker the whole piece
    have h100 : b.fee.toNat = 100 := by have := hb hd; omega
    simp [h100]
  · simp

section Recipients

variable {p : CAmount}

theorem mapM_recipientOutputs (hp : 0 ≤ p) :
    ∀ {scripts : List BlockScript}, (∀ b ∈ scripts, b.FeeInRange) →
      scripts.mapM (recipientOutputs p) = some (scripts.map (recipientShares p))
  | [], _ => rfl
  | b :: scripts, hb => by
    rw [List.mapM_cons, recipientOutputs_eq hp (hb b List.mem_cons_self),
      mapM_recipientOutputs hp fun b' hb' => hb b' (List.mem_cons_of_mem b hb')]
    rfl

theorem sum_flatMap_recipientShares :
    ∀ {scripts : List BlockScript}, (∀ b ∈ scripts, b.FeeInRange) →
      ((scripts.flatMap (recipientShares p)).map (·.nValue)).sum = p * scripts.length
  | [], _ => by simp
  | b :: scripts, hb => by
    rw [List.flatMap_cons, List.map_append, List.sum_append,
      sum_recipientShares (hb b List.mem_cons_self),
      sum_flatMap_recipientShares fun b' hb' => hb b' (List.mem_cons_of_mem b hb'),
      List.length_cons]
    push_cast
    ring

/-- The outputs of every recipient in turn, each worth the piece: `GetMPoSOutputs` succeeds on
every list of recipients whose fees are in range, and pays out the piece once per recipient. -/
theorem GetMPoSOutputs_spec (hp : 0 ≤ p) {scripts : List BlockScript}
    (hb : ∀ b ∈ scripts, b.FeeInRange) :
    GetMPoSOutputs (some scripts) p = some (scripts.flatMap (recipientShares p)) ∧
      ((scripts.flatMap (recipientShares p)).map (·.nValue)).sum = p * scripts.length := by
  refine ⟨?_, sum_flatMap_recipientShares hb⟩
  rw [GetMPoSOutputs, mapM_recipientOutputs hp hb, Option.map_some, List.flatMap_def]

end Recipients

/-! ## The searches of `CheckReward` -/

/-- Searching for `l₁ ++ l₂` is searching for `l₁`, then for `l₂` in what is left. -/
theorem matchVouts_append (vTempVouts l₁ l₂ : List CTxOut) :
    matchVouts vTempVouts (l₁ ++ l₂) = (matchVouts vTempVouts l₁).bind (matchVouts · l₂) := by
  induction l₁ generalizing vTempVouts with
  | nil => rfl
  | cons v vs ih =>
    simp only [List.cons_append, matchVouts]
    split_ifs
    · exact ih _
    · rfl

/-- The two searches accept exactly the coinstakes whose outputs contain the expected outputs
and the MPoS outputs, counted with multiplicity. -/
theorem checkRewardOutputs_iff (coinstakeVout vouts outputs : List CTxOut) :
    checkRewardOutputs coinstakeVout vouts (some outputs) = .ok () ↔
      (vouts ++ outputs).Subperm coinstakeVout := by
  constructor
  · intro h
    rw [checkRewardOutputs] at h
    split at h
    · cases h
    · rename_i vTempVouts hfirst
      rw [CheckRewardMPoS] at h
      split at h
      · cases h
      · rename_i rest hsecond
        exact @matchVouts_subperm _ _ rest (by rw [matchVouts_append, hfirst]; exact hsecond)
  · intro h
    obtain ⟨rest, hrest⟩ := matchVouts_of_subperm h
    rw [matchVouts_append] at hrest
    cases hfirst : matchVouts coinstakeVout vouts with
    | none => rw [hfirst] at hrest; cases hrest
    | some vTempVouts =>
      rw [hfirst, Option.bind_some] at hrest
      simp [checkRewardOutputs, hfirst, CheckRewardMPoS, hrest]

/-! ## The wallet's coinstake against the validator's search -/

/-- The MPoS outputs of every recipient list with fees in range are worth the piece once per
recipient, split as `recipientShares` says; the validator's searches accept the coinstake the
wallet built from outputs that carry the expected ones, and accept exactly the coinstakes whose
outputs contain the expected outputs and the MPoS outputs, counted with multiplicity. -/
theorem MPoS_outputs_conserve_and_match (scripts : List BlockScript) (p : CAmount) (hp : 0 ≤ p)
    (hfee : ∀ b ∈ scripts, b.FeeInRange) :
    GetMPoSOutputs (some scripts) p = some (scripts.flatMap (recipientShares p)) ∧
      ((scripts.flatMap (recipientShares p)).map (·.nValue)).sum = p * scripts.length ∧
      (∀ txVout vouts : List CTxOut, vouts.Subperm txVout →
        ∃ built, CreateMPoSOutputs txVout (some scripts) p = some built ∧
          checkRewardOutputs built vouts (GetMPoSOutputs (some scripts) p) = .ok ()) ∧
      (∀ coinstakeVout vouts : List CTxOut,
        checkRewardOutputs coinstakeVout vouts (GetMPoSOutputs (some scripts) p) = .ok () ↔
          (vouts ++ scripts.flatMap (recipientShares p)).Subperm coinstakeVout) := by
  obtain ⟨hout, hsum⟩ := GetMPoSOutputs_spec hp hfee
  refine ⟨hout, hsum, fun txVout vouts hvouts => ?_, fun coinstakeVout vouts => ?_⟩
  · refine ⟨txVout ++ scripts.flatMap (recipientShares p), by rw [CreateMPoSOutputs, hout]; rfl, ?_⟩
    rw [hout, checkRewardOutputs_iff]
    exact hvouts.append (List.Subperm.refl _)
  · rw [hout, checkRewardOutputs_iff]

theorem MPoS_outputs_fifty_percent :
    (0 : CAmount) ≤ 100 ∧ (∀ b ∈ ([⟨[1], [2], 50, true⟩] : List BlockScript), b.FeeInRange) ∧
      GetMPoSOutputs (some [⟨[1], [2], 50, true⟩]) 100 = some [⟨50, [1]⟩, ⟨50, [2]⟩] := by
  have hfee : ∀ b ∈ ([⟨[1], [2], 50, true⟩] : List BlockScript), b.FeeInRange := by
    intro b hb _
    rw [List.mem_singleton] at hb
    subst hb
    decide
  exact ⟨by norm_num, hfee, (MPoS_outputs_conserve_and_match _ 100 (by norm_num) hfee).1⟩

/-- One delegated recipient at a fee of `50` and a piece of `100`: the wallet appends
`[⟨50, [1]⟩, ⟨50, [2]⟩]`, and the validator accepts that coinstake with a second copy of the
staker's output as well. -/
theorem MPoS_match_accepts_duplicate :
    CreateMPoSOutputs [⟨0, []⟩] (some [⟨[1], [2], 50, true⟩]) 100 =
        some [⟨0, []⟩, ⟨50, [1]⟩, ⟨50, [2]⟩] ∧
      checkRewardOutputs [⟨0, []⟩, ⟨50, [1]⟩, ⟨50, [2]⟩, ⟨50, [1]⟩] []
        (GetMPoSOutputs (some [⟨[1], [2], 50, true⟩]) 100) = .ok () ∧
      ([⟨0, []⟩, ⟨50, [1]⟩, ⟨50, [2]⟩, ⟨50, [1]⟩] : List CTxOut) ≠
        [⟨0, []⟩, ⟨50, [1]⟩, ⟨50, [2]⟩] := by
  refine ⟨rfl, rfl, by simp⟩

end HydraNode
