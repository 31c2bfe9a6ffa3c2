import HydraNode.Primitives
import HydraNode.Lib.Loop

/-!
# The block subsidy

`GetBlockSubsidy` (`validation.cpp`) pays a fixed share of `totalCoinsSupply` to each of the
first `nLastPOWBlock` blocks, and after them a reward that follows an ever growing supply: it
starts from `initialCoinsSupply * 100` and compounds it once per block, at the percentage the
DGP contract voted (`Dgp::fillBlockRewardBlocksInfo` and `fillBlockRewardPercentageInfo`
return the vote heights `B` and the percentages `P`, each a `std::vector<uint64_t>` read from
a separate contract call).

Two things decide what this code does, and neither is what its structure suggests.

* The loop over the vote history is written
  `for (int j = B[i - 1]; i < B[i]; i++)` inside `for (int i = 1; i < P.size(); i++)`: it
  declares `j` and then tests and increments `i`. For a history whose heights are above their
  indices (every real history: heights start at `5001`), the inner loop runs `i` up to the end
  of `B` and reads `B[B.size()]`, or `P[P.size()]` first when `P` is the shorter list. Both are
  reads past the end of a vector. So does `P[P.size() - 1]` when `B` has votes and `P` has none
  (`GetBlockSubsidy_reads_past_vote_history`).
* The supply is scaled by `100` and multiplied by the percentage in `int64_t`. With no vote the
  rate is `20` percent a year, a quarter of it per block from `nRewardFixHeight` on, and the
  product `lastPercentage * prevTotalSupplay` leaves `int64_t` once the supply has grown by a
  factor of about `2.5`. Each block adds at least the increment of the first, so a linear lower
  bound suffices: at every mainnet height from `9000000` on the computation overflows
  (`GetBlockSubsidy_overflows`).

Undefined behaviour is an error of the model, `SubsidyUB`, raised where the source reaches it,
so the computation stops at the first such step; up to it every value is the exact one.
Conversions that C++ defines by reduction modulo a power of two (a `uint64_t` to `int`, a signed
operand of an unsigned operation) are modelled as that reduction.

## Main definitions

* `SubsidyParams`, `mainnetSubsidyParams` — what `GetBlockSubsidy` reads of the consensus
  parameters
* `voteHistoryLoop`, `compoundLoop`, `GetBlockSubsidy`

## Main results

* `GetBlockSubsidy_reads_past_vote_history`
* `GetBlockSubsidy_overflows`
-/

namespace HydraNode

/-- What `GetBlockSubsidy` reads of `Consensus::Params`. -/
structure SubsidyParams where
  nLastPOWBlock : ℤ
  totalCoinsSupply : CAmount
  initialCoinsSupply : CAmount
  /-- An `int`. -/
  blocksPerYear : ℤ
  nRewardFixHeight : ℤ
  nRewardOffsetHeight : ℤ
  nRewardOffsetAmount : CAmount
  nReduceBlocktimeHeight : ℤ
  nBlocktimeDownscaleFactor : ℤ

/-- `Consensus::Params::BlocktimeDownscaleFactor`. -/
def SubsidyParams.BlocktimeDownscaleFactor (p : SubsidyParams) (height : ℤ) : ℤ :=
  if height < p.nReduceBlocktimeHeight then 1 else p.nBlocktimeDownscaleFactor

/-- The mainnet values (`CChainParams` and `CMainParams` in `chainparams.cpp`). -/
def mainnetSubsidyParams : SubsidyParams where
  nLastPOWBlock := 5000
  totalCoinsSupply := 1858593274150085
  initialCoinsSupply := 1858593274150085
  blocksPerYear := 246375
  nRewardFixHeight := 658600
  nRewardOffsetHeight := 658600
  nRewardOffsetAmount := 33018156505135300
  nReduceBlocktimeHeight := 477300
  nBlocktimeDownscaleFactor := 4

/-- The undefined behaviour `GetBlockSubsidy` can reach. -/
inductive SubsidyUB where
  /-- `std::vector::operator[]` at an index past the end. -/
  | outOfRange
  /-- A signed operation whose exact value does not fit its type. -/
  | signedOverflow
  /-- An integer division by zero. -/
  | divByZero
  deriving DecidableEq, Repr

/-! ## Machine integers -/

/-- The result of a signed `bits`-bit operation whose exact value is `x`: the value when it
fits, undefined behaviour otherwise. -/
def checkedSigned (bits : ℕ) (x : ℤ) : Except SubsidyUB ℤ :=
  if -2 ^ (bits - 1) ≤ x ∧ x < 2 ^ (bits - 1) then .ok x else .error .signedOverflow

/-- An `int64_t` operation. -/
def int64Of (x : ℤ) : Except SubsidyUB ℤ := checkedSigned 64 x

/-- An `int` operation. -/
def int32Of (x : ℤ) : Except SubsidyUB ℤ := checkedSigned 32 x

/-- `x / y` on `int64_t`: truncated toward zero. -/
def int64Div (x y : ℤ) : Except SubsidyUB ℤ :=
  if y = 0 then .error .divByZero else int64Of (x.tdiv y)

/-- `x % y` on `int64_t`, undefined exactly where `x / y` is. -/
def int64Mod (x y : ℤ) : Except SubsidyUB ℤ :=
  match int64Div x y with
  | .error e => .error e
  | .ok _ => .ok (x.tmod y)

/-- A `uint64_t` converted to `int`: the low 32 bits, read as a signed number. -/
def toInt32 (n : ℕ) : ℤ :=
  let low : ℕ := n % 2 ^ 32
  if low < 2 ^ 31 then (low : ℤ) else (low : ℤ) - 2 ^ 32

/-- `v[i]` for a `std::vector<uint64_t>`; a negative `i` is a huge `size_t`. -/
def voteAt (v : List UInt64) (i : ℤ) : Except SubsidyUB UInt64 :=
  match v[i.toNat]? with
  | some x => if 0 ≤ i then .ok x else .error .outOfRange
  | none => .error .outOfRange

/-! ## The loops -/

/-- `prevTotalSupplay += (P[i] * prevTotalSupplay) / blocksPerYear` with the `uint64_t`
percentage `pct`: the signed operands are converted to `uint64_t`, the product and the quotient
are taken there, and the sum is stored back into the `int64_t`. -/
def voteStep (pct : UInt64) (blocksPerYear prev : ℤ) : Except SubsidyUB ℤ :=
  if toUInt64 blocksPerYear = 0 then .error .divByZero
  else
    let product := pct.toNat * toUInt64 prev % 2 ^ 64
    let sum : ℕ := toUInt64 prev + product / toUInt64 blocksPerYear
    .ok (toInt64 sum)

/-- The two loops over the vote history,
```
for (int i = 1; i < P.size(); i++)
    for (int j = B[i - 1]; i < B[i]; i++)
        prevTotalSupplay += (P[i] * prevTotalSupplay) / blocksPerYear;
```
as one loop over `i` and `prevTotalSupplay`: `atInner` is true at the inner loop's condition
`i < B[i]` and false at the outer loop's `i < P.size()`. Every pass increments `i`, and the
inner condition reads `B[i]`, so the loop ends within `P.size() + B.size()` passes. -/
def voteHistoryLoop (B P : List UInt64) (blocksPerYear : ℤ) (atInner : Bool) (i : ℕ)
    (prev : ℤ) : Except SubsidyUB ℤ :=
  if atInner then
    if h : i < B.length then
      if i < B[i].toNat then
        match P[i]? with
        | none => .error .outOfRange
        | some pct =>
          match voteStep pct blocksPerYear prev with
          | .ok prev' => voteHistoryLoop B P blocksPerYear true (i + 1) prev'
          | .error e => .error e
      else voteHistoryLoop B P blocksPerYear false (i + 1) prev
    else .error .outOfRange
  else if i < P.length then
    -- `int j = B[i - 1]` reads the vector once
    if i - 1 < B.length then voteHistoryLoop B P blocksPerYear true i prev
    else .error .outOfRange
  else .ok prev
termination_by (P.length + B.length + 1 - i, if atInner then 0 else 1)
decreasing_by all_goals first | (left; omega) | (right; simp [*])

/-- The divisor of the pass at height `i`: a year's blocks, and four times as many from
`nRewardFixHeight` on. -/
def rewardDivisor (p : SubsidyParams) (blocksPerYear i : ℤ) : Except SubsidyUB ℤ :=
  if p.nRewardFixHeight ≤ i then int64Of (blocksPerYear * 4) else .ok blocksPerYear

/-- One pass of `for (int i = lastHeight; i < nHeight; i++)`: the supply grows by
`lastPercentage` percent of a year's blocks, a quarter of that from `nRewardFixHeight` on. -/
def compoundStep (p : SubsidyParams) (lastPercentage blocksPerYear : ℤ) (i prev : ℤ) :
    Except SubsidyUB ℤ := do
  let divisor ← rewardDivisor p blocksPerYear i
  let product ← int64Of (lastPercentage * prev)
  let increment ← int64Div product divisor
  int64Of (prev + increment)

/-- `n` passes of the loop from height `i`. -/
def compoundLoop (p : SubsidyParams) (lastPercentage blocksPerYear : ℤ) :
    ℕ → ℤ → ℤ → Except SubsidyUB ℤ
  | 0, _, prev => .ok prev
  | n + 1, i, prev => do
    let prev' ← compoundStep p lastPercentage blocksPerYear i prev
    compoundLoop p lastPercentage blocksPerYear n (i + 1) prev'

/-- The last vote, `(lastPercentage, lastHeight)`, both converted to `int`; the defaults `20`
and `5001` when `B` is empty. The guard checks `B` and the percentage is read from `P`. -/
def lastVote (B P : List UInt64) : Except SubsidyUB (ℤ × ℤ) :=
  if 0 < B.length then do
    let pct ← voteAt P (P.length - 1)
    let height ← voteAt B (B.length - 1)
    pure (toInt32 pct.toNat, toInt32 height.toNat)
  else pure (20, 5001)

/-- `GetBlockSubsidy(nHeight, consensusParams)` for the vote history `B`, `P` that the DGP
contract returns. -/
def GetBlockSubsidy (p : SubsidyParams) (B P : List UInt64) (nHeight : ℤ) :
    Except SubsidyUB CAmount :=
  if nHeight ≤ p.nLastPOWBlock then do
    let divisionRemainder ←
      if nHeight = p.nLastPOWBlock then int64Mod p.totalCoinsSupply p.nLastPOWBlock else pure 0
    let share ← int64Div p.totalCoinsSupply p.nLastPOWBlock
    int64Of (share + divisionRemainder)
  else do
    let blocktimeDownscaleFactor := p.BlocktimeDownscaleFactor nHeight
    let prevTotalSupplay ← int64Of (p.initialCoinsSupply * 100)
    let blocksPerYear ← int32Of (p.blocksPerYear * 100)
    let (lastPercentage, lastHeight) ← lastVote B P
    let prevTotalSupplay ← voteHistoryLoop B P blocksPerYear false 1 prevTotalSupplay
    let prevTotalSupplay ← compoundLoop p lastPercentage blocksPerYear
      (nHeight - lastHeight).toNat lastHeight prevTotalSupplay
    let prevTotalSupplay ← if p.nRewardOffsetHeight ≤ nHeight then
      int64Of (prevTotalSupplay - p.nRewardOffsetAmount) else pure prevTotalSupplay
    let product ← int64Of (lastPercentage * prevTotalSupplay)
    let reward ← int64Div product blocksPerYear
    let scale ← int64Of (100 * blocktimeDownscaleFactor)
    int64Div reward scale

/-! ## Machine integers, one operation at a time -/

theorem checkedSigned_of_fits {bits : ℕ} {x : ℤ} (h₀ : -2 ^ (bits - 1) ≤ x)
    (h : x < 2 ^ (bits - 1)) : checkedSigned bits x = .ok x :=
  if_pos ⟨h₀, h⟩

theorem int64Of_of_fits {x : ℤ} (h₀ : -2 ^ 63 ≤ x) (h : x < 2 ^ 63) : int64Of x = .ok x :=
  checkedSigned_of_fits h₀ h

theorem int32Of_of_fits {x : ℤ} (h₀ : -2 ^ 31 ≤ x) (h : x < 2 ^ 31) : int32Of x = .ok x :=
  checkedSigned_of_fits h₀ h

theorem int64Div_of_nonneg {x y : ℤ} (hx : 0 ≤ x) (hx' : x < 2 ^ 63) (hy : 0 < y) :
    int64Div x y = .ok (x / y) := by
  have hq : x / y ≤ x := Int.ediv_le_self y hx
  rw [int64Div, if_neg (by omega), Int.tdiv_eq_ediv_of_nonneg hx,
    int64Of_of_fits (by have := Int.ediv_nonneg hx hy.le; omega) (by omega)]

/-- A larger divisor gives a smaller quotient of a non-negative number. -/
theorem ediv_le_ediv_of_le_divisor {a b c : ℤ} (ha : 0 ≤ a) (hb : 0 < b) (hbc : b ≤ c) :
    a / c ≤ a / b := by
  have hq : 0 ≤ a / c := Int.ediv_nonneg ha (by omega)
  rw [Int.le_ediv_iff_mul_le hb]
  calc a / c * b ≤ a / c * c := Int.mul_le_mul_of_nonneg_left hbc hq
    _ ≤ a := Int.ediv_mul_le a (by omega)

theorem voteStep_eq {blocksPerYear : ℤ} (h : toUInt64 blocksPerYear ≠ 0) (pct : UInt64)
    (prev : ℤ) :
    voteStep pct blocksPerYear prev = .ok (toInt64 ((toUInt64 prev +
      pct.toNat * toUInt64 prev % 2 ^ 64 / toUInt64 blocksPerYear : ℕ) : ℤ)) :=
  if_neg h

/-! ## The vote history is read past its end -/

section VoteHistory

variable {B P : List UInt64} {blocksPerYear : ℤ}

/-- Once every vote height is above its index, the inner loop's condition holds at every `i`
inside `B`: the loop only leaves by reading past the end of `B`, or of `P` first. -/
theorem voteHistoryLoop_inner_outOfRange (hbpy : toUInt64 blocksPerYear ≠ 0)
    (hB : ∀ (k : ℕ) (h : k < B.length), k < B[k].toNat) (i : ℕ) (prev : ℤ) :
    voteHistoryLoop B P blocksPerYear true i prev = .error .outOfRange := by
  rw [voteHistoryLoop, if_pos rfl]
  by_cases hi : i < B.length
  · rw [dif_pos hi, if_pos (hB i hi)]
    cases hP : P[i]? with
    | none => rfl
    | some pct =>
      simp only [voteStep_eq hbpy]
      exact voteHistoryLoop_inner_outOfRange hbpy hB (i + 1) _
  · rw [dif_neg hi]
termination_by B.length - i

/-- With two percentages the outer loop starts, and never comes back. -/
theorem voteHistoryLoop_outOfRange (hbpy : toUInt64 blocksPerYear ≠ 0)
    (hB : ∀ (k : ℕ) (h : k < B.length), k < B[k].toNat) (hP : 2 ≤ P.length) (prev : ℤ) :
    voteHistoryLoop B P blocksPerYear false 1 prev = .error .outOfRange := by
  rw [voteHistoryLoop, if_neg Bool.false_ne_true, if_pos (by omega)]
  by_cases hB0 : 0 < B.length
  · rw [if_pos (by omega)]
    exact voteHistoryLoop_inner_outOfRange hbpy hB 1 prev
  · rw [if_neg (by omega)]

/-- A history of at most one percentage leaves the supply as it is: the outer loop's condition
fails at once. -/
theorem voteHistoryLoop_of_length_le_one (hP : P.length ≤ 1) (prev : ℤ) :
    voteHistoryLoop B P blocksPerYear false 1 prev = .ok prev := by
  rw [voteHistoryLoop, if_neg Bool.false_ne_true, if_neg (by omega)]

theorem lastVote_of_ne_nil (hB : B ≠ []) (hP : P ≠ []) :
    lastVote B P = .ok (toInt32 (P.getLast hP).toNat, toInt32 (B.getLast hB).toNat) := by
  have hB0 : 0 < B.length := List.length_pos_iff.mpr hB
  have hP0 : 0 < P.length := List.length_pos_iff.mpr hP
  have hvote : ∀ (v : List UInt64) (hv : v ≠ []), voteAt v (v.length - 1 : ℕ) = .ok (v.getLast hv) := by
    intro v hv
    have hlt : v.length - 1 < v.length := by have := List.length_pos_iff.mpr hv; omega
    simp [voteAt, List.getElem?_eq_getElem hlt, List.getLast_eq_getElem]
  have hcastP : ((P.length : ℤ) - 1) = ((P.length - 1 : ℕ) : ℤ) := by omega
  have hcastB : ((B.length : ℤ) - 1) = ((B.length - 1 : ℕ) : ℤ) := by omega
  rw [lastVote, if_pos hB0, hcastP, hvote P hP, except_ok_bind, hcastB, hvote B hB,
    except_ok_bind]
  rfl

theorem lastVote_nil (P : List UInt64) : lastVote [] P = .ok (20, 5001) := rfl

/-- Votes in `B` and no percentage in `P`: `P[P.size() - 1]` reads at `SIZE_MAX`. -/
theorem lastVote_of_nil_right (hB : B ≠ []) : lastVote B [] = .error .outOfRange := by
  rw [lastVote, if_pos (List.length_pos_iff.mpr hB)]
  rfl

end VoteHistory

theorem mainnet_initialSupply :
    int64Of (mainnetSubsidyParams.initialCoinsSupply * 100) = .ok 185859327415008500 :=
  int64Of_of_fits (by norm_num [mainnetSubsidyParams]) (by norm_num [mainnetSubsidyParams])

theorem mainnet_blocksPerYear :
    int32Of (mainnetSubsidyParams.blocksPerYear * 100) = .ok 24637500 :=
  int32Of_of_fits (by norm_num [mainnetSubsidyParams]) (by norm_num [mainnetSubsidyParams])

/-- The first proof-of-stake block on mainnet, with no vote: the supply of the default last vote
at height `5001`, compounded no time, at `20` percent a year. -/
theorem GetBlockSubsidy_first_stake_block :
    GetBlockSubsidy mainnetSubsidyParams [] [] 5001 = .ok 1508751516 := by
  rw [GetBlockSubsidy, if_neg (by norm_num [mainnetSubsidyParams])]
  simp only [mainnet_initialSupply, mainnet_blocksPerYear, lastVote_nil, except_ok_bind,
    voteHistoryLoop_of_length_le_one (B := []) (P := []) (by simp)]
  decide

/-- On mainnet, every history with two percentages whose heights are above their indices, and
every history with votes but no percentage, makes `GetBlockSubsidy` read a vote vector past its
end, at every height after the proof-of-work blocks. -/
theorem GetBlockSubsidy_reads_past_vote_history (B P : List UInt64) (nHeight : ℤ)
    (hHeight : mainnetSubsidyParams.nLastPOWBlock < nHeight)
    (hvotes : (2 ≤ P.length ∧ ∀ (k : ℕ) (h : k < B.length), k < B[k].toNat) ∨
      (B ≠ [] ∧ P = [])) :
    GetBlockSubsidy mainnetSubsidyParams B P nHeight = .error .outOfRange := by
  have hbpy : toUInt64 24637500 ≠ 0 := by decide
  rw [GetBlockSubsidy, if_neg (by omega)]
  simp only [mainnet_initialSupply, mainnet_blocksPerYear, except_ok_bind]
  rcases hvotes with ⟨hP, hB⟩ | ⟨hB, rfl⟩
  · have hloop := voteHistoryLoop_outOfRange (P := P) hbpy hB hP 185859327415008500
    by_cases hB0 : B = []
    · subst hB0
      simp only [lastVote_nil, except_ok_bind, hloop]
      rfl
    · have hP0 : P ≠ [] := List.ne_nil_of_length_pos (by omega)
      simp only [lastVote_of_ne_nil hB0 hP0, except_ok_bind, hloop]
      rfl
  · simp only [lastVote_of_nil_right hB]
    rfl

theorem GetBlockSubsidy_reads_past_two_votes :
    mainnetSubsidyParams.nLastPOWBlock < 200000 ∧
      GetBlockSubsidy mainnetSubsidyParams [5001, 100000] [20, 15] 200000 = .error .outOfRange :=
  ⟨by decide, GetBlockSubsidy_reads_past_vote_history [5001, 100000] [20, 15] 200000
    (by decide) (.inl ⟨by decide, by decide⟩)⟩

/-! ## The supply overflows

`OkOrOverflow post r`: the computation `r` stops with a signed overflow or returns a value that
satisfies `post`. Overflow is what the reasoning below cannot exclude and does not need to: once
the postcondition of the last operation is `False`, the computation overflows. -/

/-- `r` stops with a signed overflow or returns a value satisfying `post`. -/
def OkOrOverflow {α : Type} (post : α → Prop) (r : Except SubsidyUB α) : Prop :=
  r = .error .signedOverflow ∨ ∃ y, r = .ok y ∧ post y

section OkOrOverflow

variable {α β : Type} {P Q' : α → Prop} {Q : β → Prop}

theorem OkOrOverflow.of_ok {a : α} (h : P a) : OkOrOverflow P (.ok a) := .inr ⟨a, rfl, h⟩

theorem OkOrOverflow.bind {r : Except SubsidyUB α} {f : α → Except SubsidyUB β}
    (hr : OkOrOverflow P r) (hf : ∀ y, P y → OkOrOverflow Q (f y)) :
    OkOrOverflow Q (r >>= f) := by
  rcases hr with hr | ⟨y, rfl, hy⟩
  · exact .inl (by rw [hr]; rfl)
  · exact hf y hy

theorem OkOrOverflow.eq_error {r : Except SubsidyUB α} (h : OkOrOverflow (fun _ => False) r) :
    r = .error .signedOverflow := by
  rcases h with h | ⟨_, _, hf⟩
  · exact h
  · exact hf.elim

/-- An `int64_t` operation returns its exact value, which then fits. -/
theorem int64Of_okOrOverflow (x : ℤ) :
    OkOrOverflow (fun y => y = x ∧ -2 ^ 63 ≤ x ∧ x < 2 ^ 63) (int64Of x) := by
  by_cases h : -2 ^ 63 ≤ x ∧ x < 2 ^ 63
  · exact .inr ⟨x, int64Of_of_fits h.1 h.2, rfl, h⟩
  · exact .inl (if_neg h)

theorem OkOrOverflow.mono {r : Except SubsidyUB α} (h : OkOrOverflow P r)
    (hPQ : ∀ y, P y → Q' y) : OkOrOverflow Q' r := by
  rcases h with h | ⟨y, hr, hy⟩
  · exact .inl h
  · exact .inr ⟨y, hr, hPQ y hy⟩

end OkOrOverflow

section Compound

variable {p : SubsidyParams} {lastPercentage blocksPerYear x₀ : ℤ}

/-- One block adds at least the increment at the starting supply `x₀` and the slower of the two
rates, whichever branch the height takes. -/
theorem compoundStep_okOrOverflow (hL : 0 ≤ lastPercentage) (hbpy : 0 < blocksPerYear)
    (hbpy' : blocksPerYear * 4 < 2 ^ 63) (i : ℤ) {prev : ℤ} (hx₀ : 0 ≤ x₀) (hprev : x₀ ≤ prev) :
    OkOrOverflow (fun y => prev + lastPercentage * x₀ / (blocksPerYear * 4) ≤ y)
      (compoundStep p lastPercentage blocksPerYear i prev) := by
  rw [compoundStep]
  -- the divisor is one year's blocks, or four times as many
  have hdiv : OkOrOverflow (fun d => d = blocksPerYear ∨ d = blocksPerYear * 4)
      (rewardDivisor p blocksPerYear i) := by
    rw [rewardDivisor]
    split_ifs
    · rw [int64Of_of_fits (by omega) hbpy']
      exact .of_ok (.inr rfl)
    · exact .of_ok (.inl rfl)
  refine hdiv.bind fun d hd => (int64Of_okOrOverflow _).bind fun product hproduct => ?_
  obtain ⟨rfl, -, hlt⟩ := hproduct
  have hnn : 0 ≤ lastPercentage * prev := Int.mul_nonneg hL (by omega)
  have hd0 : 0 < d := by omega
  rw [int64Div_of_nonneg hnn hlt hd0, except_ok_bind]
  refine (int64Of_okOrOverflow _).mono fun y hy => ?_
  obtain ⟨rfl, -⟩ := hy
  -- the increment at `prev` and rate `d` is at least the one at `x₀` and the slower rate
  have hslow : lastPercentage * prev / (blocksPerYear * 4) ≤ lastPercentage * prev / d := by
    rcases hd with rfl | rfl
    · exact ediv_le_ediv_of_le_divisor hnn hbpy (by omega)
    · exact le_rfl
  have hstart : lastPercentage * x₀ / (blocksPerYear * 4) ≤
      lastPercentage * prev / (blocksPerYear * 4) :=
    Int.ediv_le_ediv (by omega) (Int.mul_le_mul_of_nonneg_left hprev hL)
  omega

/-- `n` blocks add at least `n` times the first increment. -/
theorem compoundLoop_okOrOverflow (hL : 0 ≤ lastPercentage) (hbpy : 0 < blocksPerYear)
    (hbpy' : blocksPerYear * 4 < 2 ^ 63) (hx₀ : 0 ≤ x₀) :
    ∀ (n : ℕ) (i : ℤ) {prev : ℤ}, x₀ ≤ prev →
      OkOrOverflow (fun y => prev + n * (lastPercentage * x₀ / (blocksPerYear * 4)) ≤ y)
        (compoundLoop p lastPercentage blocksPerYear n i prev)
  | 0, _, _, _ => .of_ok (by simp)
  | n + 1, i, prev, hprev => by
    have hc : 0 ≤ lastPercentage * x₀ / (blocksPerYear * 4) :=
      Int.ediv_nonneg (Int.mul_nonneg hL hx₀) (by omega)
    rw [compoundLoop]
    refine (compoundStep_okOrOverflow hL hbpy hbpy' i hx₀ hprev).bind fun y hy => ?_
    refine (compoundLoop_okOrOverflow hL hbpy hbpy' hx₀ n (i + 1) (by omega)).mono
      fun z hz => ?_
    push_cast
    nlinarith

end Compound

/-- With no vote, every mainnet height from `9000000` on overflows `int64_t`: the supply has
passed `INT64_MAX / 20` by then, and `lastPercentage * prevTotalSupplay` no longer fits. -/
theorem GetBlockSubsidy_overflows (nHeight : ℤ) (hHeight : 9000000 ≤ nHeight) :
    GetBlockSubsidy mainnetSubsidyParams [] [] nHeight = .error .signedOverflow := by
  rw [GetBlockSubsidy, if_neg (by norm_num [mainnetSubsidyParams]; omega)]
  simp only [mainnet_initialSupply, mainnet_blocksPerYear, lastVote_nil, except_ok_bind,
    voteHistoryLoop_of_length_le_one (B := []) (P := []) (by simp)]
  refine OkOrOverflow.eq_error ((@compoundLoop_okOrOverflow mainnetSubsidyParams 20 24637500
    185859327415008500 (by norm_num) (by norm_num) (by norm_num) (by norm_num) _ 5001 _
      le_rfl).bind fun y hy => ?_)
  -- at least `8994999` blocks of at least `37718787907` each
  have hn : (8994999 : ℤ) ≤ ((nHeight - 5001).toNat : ℕ) := by omega
  have hy' : 185859327415008500 + 8994999 * 37718787907 ≤ y := by
    have hc : (20 : ℤ) * 185859327415008500 / (24637500 * 4) = 37718787907 := by norm_num
    rw [hc] at hy
    have := mul_le_mul_of_nonneg_right hn (show (0 : ℤ) ≤ 37718787907 by norm_num)
    linarith
  rw [if_pos (by norm_num [mainnetSubsidyParams]; omega)]
  refine (int64Of_okOrOverflow _).bind fun z hz => ?_
  obtain ⟨rfl, -⟩ := hz
  refine (int64Of_okOrOverflow _).bind fun w hw => ?_
  obtain ⟨-, -, hlt⟩ := hw
  norm_num [mainnetSubsidyParams] at hlt
  omega

theorem GetBlockSubsidy_overflows_nine_million :
    (9000000 : ℤ) ≤ 9000000 ∧
      GetBlockSubsidy mainnetSubsidyParams [] [] 9000000 = .error .signedOverflow :=
  ⟨le_rfl, GetBlockSubsidy_overflows 9000000 le_rfl⟩

end HydraNode
