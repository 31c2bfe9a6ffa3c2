import HydraNode.Chain.BlockIndex

/-!
# Relative lock times

`CalculateSequenceLocks` (`consensus/tx_verify.cpp`) turns the relative lock times of a
transaction's inputs (BIP68) into one pair of the last invalid height and the last invalid
median time, starting from `-1` and taking maxima, each input's first valid height or time
minus one. `EvaluateSequenceLocks` then asks that the block's height and its parent's median
time be above the pair. The off-by-one bookkeeping cancels: the transaction passes exactly when
every input's own rule holds, a height lock at the block's height and a time lock at the
parent's median time past (`SequenceLocks_iff`).

The arithmetic is exact here, in `ℤ`. In the source the heights are `int`, and for an entry of
`prevHeights` at `INT_MIN`, or at `INT_MAX` with a positive height lock, an `int` intermediate
overflows (`sequence_lock_int_overflow`); for heights in `[0, 2 ^ 31 - 2 ^ 16]` nothing does.

Only what the loop reads of a transaction is modelled, its version and the sequence numbers of
its inputs. The ancestors are found with `GetAncestor` of `Chain.BlockIndex`; a null ancestor,
dereferenced in the source, and the two failed assertions are errors.

## Main definitions

* `CalculateSequenceLocks`, `EvaluateSequenceLocks`, `SequenceLocks`
* `InputLockMet` — the rule for one input
* `SequenceLockInRange` — the `int` and `int64_t` intermediates of one input fit their types

## Main results

* `sequenceLockLoop_spec` — the lock pair against the block, input by input
* `SequenceLocks_iff`
-/

namespace HydraNode

/-- `CTxIn::SEQUENCE_LOCKTIME_DISABLE_FLAG`. -/
def SEQUENCE_LOCKTIME_DISABLE_FLAG : UInt32 := (1 : UInt32) <<< 31
/-- `CTxIn::SEQUENCE_LOCKTIME_TYPE_FLAG`. -/
def SEQUENCE_LOCKTIME_TYPE_FLAG : UInt32 := (1 : UInt32) <<< 22
/-- `CTxIn::SEQUENCE_LOCKTIME_MASK`. -/
def SEQUENCE_LOCKTIME_MASK : UInt32 := 0x0000ffff
/-- `CTxIn::SEQUENCE_LOCKTIME_GRANULARITY`. -/
def SEQUENCE_LOCKTIME_GRANULARITY : ℕ := 9
/-- `LOCKTIME_VERIFY_SEQUENCE`. -/
def LOCKTIME_VERIFY_SEQUENCE : UInt32 := (1 : UInt32) <<< 0

/-- What `CalculateSequenceLocks` reads of a transaction: its version and the `nSequence` of each
input, in order. -/
structure SequenceLockTx where
  nVersion : Int32
  vinSequence : List UInt32
  deriving DecidableEq, Repr

/-- The relative lock an input asks for, `nSequence & SEQUENCE_LOCKTIME_MASK`. -/
def lockValue (nSequence : UInt32) : ℕ := (nSequence &&& SEQUENCE_LOCKTIME_MASK).toNat

/-- `static_cast<uint32_t>(tx.nVersion) >= 2 && flags & LOCKTIME_VERIFY_SEQUENCE`. -/
def fEnforceBIP68 (tx : SequenceLockTx) (flags : UInt32) : Prop :=
  tx.nVersion.toUInt32 ≥ 2 ∧ flags &&& LOCKTIME_VERIFY_SEQUENCE ≠ 0

instance (tx : SequenceLockTx) (flags : UInt32) : Decidable (fEnforceBIP68 tx flags) :=
  inferInstanceAs (Decidable (_ ∧ _))

section Model

variable {ι : Type} (T : BlockTree ι) (nTime : ι → UInt32)

/-- `block.GetAncestor(height)->GetMedianTimePast()`; a null ancestor is an error. -/
def ancestorMedianTime (block : ι) (height : ℤ) : Except String ℤ :=
  T.GetAncestor block height >>= fun
    | some a => .ok (T.GetMedianTimePast nTime a)
    | none => .error "null CBlockIndex"

/-- One input of the loop of `CalculateSequenceLocks`, on the lock pair so far: the new pair, and
the height the input leaves in `prevHeights`. -/
def sequenceLockStep (block : ι) (lock : ℤ × ℤ) (nSequence : UInt32) (nCoinHeight : ℤ) :
    Except String ((ℤ × ℤ) × ℤ) :=
  -- an input with the disable flag has no lock, and its height is set to `0`
  if nSequence &&& SEQUENCE_LOCKTIME_DISABLE_FLAG ≠ 0 then .ok (lock, 0)
  else if nSequence &&& SEQUENCE_LOCKTIME_TYPE_FLAG ≠ 0 then
    ancestorMedianTime T nTime block (max (nCoinHeight - 1) 0) >>= fun nCoinTime =>
    .ok ((lock.1, max lock.2
      (nCoinTime + ((lockValue nSequence <<< SEQUENCE_LOCKTIME_GRANULARITY : ℕ) : ℤ) - 1)),
      nCoinHeight)
  else .ok ((max lock.1 (nCoinHeight + lockValue nSequence - 1), lock.2), nCoinHeight)

/-- The loop over the inputs, each with its entry of `prevHeights`. -/
def sequenceLockLoop (block : ι) : ℤ × ℤ → List (UInt32 × ℤ) → Except String ((ℤ × ℤ) × List ℤ)
  | lock, [] => .ok (lock, [])
  | lock, (nSequence, nCoinHeight) :: rest =>
    sequenceLockStep T nTime block lock nSequence nCoinHeight >>= fun r =>
    sequenceLockLoop block r.1 rest >>= fun r' => .ok (r'.1, r.2 :: r'.2)

/-- `CalculateSequenceLocks(tx, flags, prevHeights, block)`: the lock pair, and `prevHeights` as
the loop leaves it. -/
def CalculateSequenceLocks (tx : SequenceLockTx) (flags : UInt32) (prevHeights : List ℤ)
    (block : ι) : Except String ((ℤ × ℤ) × List ℤ) :=
  if prevHeights.length ≠ tx.vinSequence.length then
    .error "assert prevHeights->size() == tx.vin.size()"
  -- the semantics of nLockTime are the last invalid height/time, so `-1` lets any pass
  else if ¬fEnforceBIP68 tx flags then .ok ((-1, -1), prevHeights)
  else sequenceLockLoop T nTime block (-1, -1) (tx.vinSequence.zip prevHeights)

/-- `EvaluateSequenceLocks(block, lockPair)`. -/
def EvaluateSequenceLocks (block : ι) (lockPair : ℤ × ℤ) : Except String Bool :=
  match T.pprev block with
  | none => .error "assert block.pprev"
  | some pprev =>
    let nBlockTime := T.GetMedianTimePast nTime pprev
    if lockPair.1 ≥ T.nHeight block ∨ lockPair.2 ≥ nBlockTime then .ok false else .ok true

/-- `SequenceLocks(tx, flags, prevHeights, block)`. -/
def SequenceLocks (tx : SequenceLockTx) (flags : UInt32) (prevHeights : List ℤ) (block : ι) :
    Except String Bool :=
  CalculateSequenceLocks T nTime tx flags prevHeights block >>= fun r =>
  EvaluateSequenceLocks T nTime block r.1

/-! ## The rule -/

/-- The median time past of the ancestor of `block` at `height`. -/
def ancestorMTP (block : ι) (height : ℕ) : ℤ :=
  match T.walkBack block (T.nHeight block - height) with
  | some a => T.GetMedianTimePast nTime a
  | none => 0

/-- BIP68 for one input of a transaction in `block`, whose parent is `pprev`: unless disabled, a
time lock asks that the parent's median time be at least the median time of the block before the
coin's, plus `512` seconds a unit, and a height lock that the block be at least the lock's number
of blocks above the coin. -/
def InputLockMet (block pprev : ι) (nSequence : UInt32) (nCoinHeight : ℤ) : Prop :=
  nSequence &&& SEQUENCE_LOCKTIME_DISABLE_FLAG = 0 →
    if nSequence &&& SEQUENCE_LOCKTIME_TYPE_FLAG ≠ 0 then
      ancestorMTP T nTime block (max (nCoinHeight - 1) 0).toNat +
          ((lockValue nSequence <<< SEQUENCE_LOCKTIME_GRANULARITY : ℕ) : ℤ) ≤
        T.GetMedianTimePast nTime pprev
    else nCoinHeight + lockValue nSequence ≤ T.nHeight block

end Model

/-- A value that fits a signed `bits`-bit integer. -/
def FitsSigned (bits : ℕ) (x : ℤ) : Prop := -2 ^ (bits - 1) ≤ x ∧ x < 2 ^ (bits - 1)

instance (bits : ℕ) (x : ℤ) : Decidable (FitsSigned bits x) := inferInstanceAs (Decidable (_ ∧ _))

/-- The `int` and `int64_t` values the loop computes for one input fit their types:
`nCoinHeight-1` and `nCoinTime + (int64_t)(... << GRANULARITY) - 1` for a time lock,
`nCoinHeight + (int)(...) - 1` for a height lock, each operation on its own. The shift is on
`uint32_t` and does not wrap, the lock being below `2 ^ 16`. -/
def SequenceLockInRange (nCoinTime : ℤ) (nSequence : UInt32) (nCoinHeight : ℤ) : Prop :=
  nSequence &&& SEQUENCE_LOCKTIME_DISABLE_FLAG = 0 →
    if nSequence &&& SEQUENCE_LOCKTIME_TYPE_FLAG ≠ 0 then
      FitsSigned 32 (nCoinHeight - 1) ∧
      FitsSigned 64 (nCoinTime + ((lockValue nSequence <<< SEQUENCE_LOCKTIME_GRANULARITY : ℕ) : ℤ)) ∧
      FitsSigned 64
        (nCoinTime + ((lockValue nSequence <<< SEQUENCE_LOCKTIME_GRANULARITY : ℕ) : ℤ) - 1)
    else FitsSigned 32 (nCoinHeight + lockValue nSequence) ∧
      FitsSigned 32 (nCoinHeight + lockValue nSequence - 1)

instance (nCoinTime : ℤ) (nSequence : UInt32) (nCoinHeight : ℤ) :
    Decidable (SequenceLockInRange nCoinTime nSequence nCoinHeight) :=
  inferInstanceAs (Decidable (_ → _))

/-! ## The loop against the block -/

section Spec

variable {ι : Type} {T : BlockTree ι} (nTime : ι → UInt32)

/-- With the skip pointers built, the ancestor lookup of a time lock finds the ancestor the rule
means, for every height the loop asks for. -/
theorem ancestorMedianTime_eq (hT : T.SkipsBuilt) {block : ι} {height : ℤ} (h0 : 0 ≤ height)
    (hle : height ≤ T.nHeight block) :
    ancestorMedianTime T nTime block height = .ok (ancestorMTP T nTime block height.toNat) := by
  obtain ⟨a, ha⟩ := BlockTree.walkBack_isSome (T := T) (b := block)
    (k := T.nHeight block - height.toNat) (Nat.sub_le _ _)
  rw [ancestorMedianTime, BlockTree.GetAncestor_eq hT block height, if_pos ⟨h0, hle⟩, ha,
    except_ok_bind, ancestorMTP, ha]

/-- One input: its height is kept unless the lock is disabled, and each component of the pair
stays below a bound exactly when it was below it and the input's own last invalid value is. -/
theorem sequenceLockStep_spec (hT : T.SkipsBuilt) (block : ι) (lock : ℤ × ℤ)
    (nSequence : UInt32) {nCoinHeight : ℤ} (hh : nCoinHeight ≤ T.nHeight block) :
    ∃ lock' h', sequenceLockStep T nTime block lock nSequence nCoinHeight = .ok (lock', h') ∧
      h' = (if nSequence &&& SEQUENCE_LOCKTIME_DISABLE_FLAG ≠ 0 then 0 else nCoinHeight) ∧
      (∀ c, lock'.1 < c ↔ lock.1 < c ∧ (nSequence &&& SEQUENCE_LOCKTIME_DISABLE_FLAG = 0 →
        nSequence &&& SEQUENCE_LOCKTIME_TYPE_FLAG = 0 →
          nCoinHeight + lockValue nSequence - 1 < c)) ∧
      (∀ c, lock'.2 < c ↔ lock.2 < c ∧ (nSequence &&& SEQUENCE_LOCKTIME_DISABLE_FLAG = 0 →
        nSequence &&& SEQUENCE_LOCKTIME_TYPE_FLAG ≠ 0 →
          ancestorMTP T nTime block (max (nCoinHeight - 1) 0).toNat +
            ((lockValue nSequence <<< SEQUENCE_LOCKTIME_GRANULARITY : ℕ) : ℤ) - 1 < c)) := by
  by_cases hdis : nSequence &&& SEQUENCE_LOCKTIME_DISABLE_FLAG ≠ 0
  · refine ⟨lock, 0, by rw [sequenceLockStep, if_pos hdis], by rw [if_pos hdis], ?_, ?_⟩ <;>
      intro c <;> simp [hdis]
  have hdis' : nSequence &&& SEQUENCE_LOCKTIME_DISABLE_FLAG = 0 := not_not.mp hdis
  by_cases htype : nSequence &&& SEQUENCE_LOCKTIME_TYPE_FLAG ≠ 0
  · -- a time lock: the median time of the block before the coin's
    have hanc := @ancestorMedianTime_eq _ _ nTime hT block _ (le_max_right (nCoinHeight - 1) 0)
      (by omega)
    refine ⟨_, nCoinHeight, by rw [sequenceLockStep, if_neg hdis, if_pos htype, hanc,
      except_ok_bind], by rw [if_neg hdis], fun c => ?_, fun c => ?_⟩
    · simp [htype]
    · rw [max_lt_iff]
      simp [hdis', htype]
  · have htype' : nSequence &&& SEQUENCE_LOCKTIME_TYPE_FLAG = 0 := not_not.mp htype
    refine ⟨_, nCoinHeight, by rw [sequenceLockStep, if_neg hdis, if_neg htype],
      by rw [if_neg hdis], fun c => ?_, fun c => ?_⟩
    · rw [max_lt_iff]
      simp [hdis', htype']
    · simp [htype']

/-- The whole loop, by induction on the inputs with the lock pair generalized: it succeeds, sets
the height of each disabled input to `0`, and each component of the final pair is below a bound
exactly when the initial one and every input's last invalid value are. -/
theorem sequenceLockLoop_spec (hT : T.SkipsBuilt) (block : ι) :
    ∀ (l : List (UInt32 × ℤ)) (lock : ℤ × ℤ), (∀ p ∈ l, p.2 ≤ T.nHeight block) →
    ∃ lock' hs, sequenceLockLoop T nTime block lock l = .ok (lock', hs) ∧
      hs = l.map (fun p => if p.1 &&& SEQUENCE_LOCKTIME_DISABLE_FLAG ≠ 0 then 0 else p.2) ∧
      (∀ c, lock'.1 < c ↔ lock.1 < c ∧ ∀ p ∈ l, p.1 &&& SEQUENCE_LOCKTIME_DISABLE_FLAG = 0 →
        p.1 &&& SEQUENCE_LOCKTIME_TYPE_FLAG = 0 → p.2 + lockValue p.1 - 1 < c) ∧
      (∀ c, lock'.2 < c ↔ lock.2 < c ∧ ∀ p ∈ l, p.1 &&& SEQUENCE_LOCKTIME_DISABLE_FLAG = 0 →
        p.1 &&& SEQUENCE_LOCKTIME_TYPE_FLAG ≠ 0 →
          ancestorMTP T nTime block (max (p.2 - 1) 0).toNat +
            ((lockValue p.1 <<< SEQUENCE_LOCKTIME_GRANULARITY : ℕ) : ℤ) - 1 < c)
  | [], lock, _ => ⟨lock, [], rfl, rfl, fun c => by simp, fun c => by simp⟩
  | (nSequence, nCoinHeight) :: rest, lock, hle => by
    obtain ⟨lock₁, h₁, hstep, hh₁, hfst₁, hsnd₁⟩ :=
      sequenceLockStep_spec nTime hT block lock nSequence (hle _ List.mem_cons_self)
    obtain ⟨lock', hs, hloop, hhs, hfst, hsnd⟩ :=
      sequenceLockLoop_spec hT block rest lock₁ fun p hp => hle p (List.mem_cons_of_mem _ hp)
    refine ⟨lock', h₁ :: hs, ?_, by rw [hh₁, hhs, List.map_cons], ?_, ?_⟩
    · rw [sequenceLockLoop, hstep, except_ok_bind, hloop, except_ok_bind]
    · intro c
      rw [hfst, hfst₁]
      simp only [List.mem_cons, forall_eq_or_imp, and_assoc]
    · intro c
      rw [hsnd, hsnd₁]
      simp only [List.mem_cons, forall_eq_or_imp, and_assoc]

end Spec

theorem lockValue_lt (nSequence : UInt32) : lockValue nSequence < 2 ^ 16 := by
  have h : nSequence &&& SEQUENCE_LOCKTIME_MASK ≤ SEQUENCE_LOCKTIME_MASK := UInt32.and_le_right
  have hmask : SEQUENCE_LOCKTIME_MASK.toNat = 2 ^ 16 - 1 := rfl
  rw [lockValue]
  have := UInt32.le_iff_toNat_le.mp h
  omega

/-- Coin heights in `[0, nHeight]` with `nHeight` at most `2 ^ 31 - 2 ^ 16`, and a median time in
`uint32_t` range, keep every intermediate in range. -/
theorem SequenceLockInRange_of_le {nCoinTime nCoinHeight nHeight : ℤ} (nSequence : UInt32)
    (h0 : 0 ≤ nCoinHeight) (hh : nCoinHeight ≤ nHeight) (hH : nHeight ≤ 2 ^ 31 - 2 ^ 16)
    (ht0 : 0 ≤ nCoinTime) (ht : nCoinTime < 2 ^ 32) :
    SequenceLockInRange nCoinTime nSequence nCoinHeight := by
  have hv := lockValue_lt nSequence
  have hshift : lockValue nSequence <<< SEQUENCE_LOCKTIME_GRANULARITY =
      lockValue nSequence * 2 ^ 9 := Nat.shiftLeft_eq _ _
  intro _
  split_ifs
  · simp only [FitsSigned, hshift]
    push_cast
    omega
  · simp only [FitsSigned]
    omega

section Law

variable {ι : Type} {T : BlockTree ι} (nTime : ι → UInt32)

/-- One input's rule is its last invalid height below the block's height and its last invalid
time below the parent's median time. -/
theorem InputLockMet_iff (block pprev : ι) (nSequence : UInt32) (nCoinHeight : ℤ) :
    InputLockMet T nTime block pprev nSequence nCoinHeight ↔
      (nSequence &&& SEQUENCE_LOCKTIME_DISABLE_FLAG = 0 →
        nSequence &&& SEQUENCE_LOCKTIME_TYPE_FLAG = 0 →
          nCoinHeight + lockValue nSequence - 1 < T.nHeight block) ∧
      (nSequence &&& SEQUENCE_LOCKTIME_DISABLE_FLAG = 0 →
        nSequence &&& SEQUENCE_LOCKTIME_TYPE_FLAG ≠ 0 →
          ancestorMTP T nTime block (max (nCoinHeight - 1) 0).toNat +
            ((lockValue nSequence <<< SEQUENCE_LOCKTIME_GRANULARITY : ℕ) : ℤ) - 1 <
          T.GetMedianTimePast nTime pprev) := by
  unfold InputLockMet
  by_cases htype : nSequence &&& SEQUENCE_LOCKTIME_TYPE_FLAG = 0 <;> simp [htype]

theorem EvaluateSequenceLocks_eq {block pprev : ι} (hp : T.pprev block = some pprev)
    (lockPair : ℤ × ℤ) :
    EvaluateSequenceLocks T nTime block lockPair =
      .ok (decide (lockPair.1 < T.nHeight block ∧ lockPair.2 < T.GetMedianTimePast nTime pprev)) := by
  simp only [EvaluateSequenceLocks, hp]
  by_cases h : lockPair.1 ≥ T.nHeight block ∨ lockPair.2 ≥ T.GetMedianTimePast nTime pprev
  · rw [if_pos h, decide_eq_false (by omega)]
  · rw [if_neg h, decide_eq_true (by omega)]

/-- The law: with the skip pointers built, a parent, and every coin height at most the block's,
`SequenceLocks` succeeds, and it holds exactly when BIP68 is not enforced or every input's own
rule holds. The initial `-1` of both components is below the block's positive height and the
parent's median time, which is not negative. -/
theorem SequenceLocks_iff (hT : T.SkipsBuilt) (tx : SequenceLockTx) (flags : UInt32)
    (prevHeights : List ℤ) {block pprev : ι} (hp : T.pprev block = some pprev)
    (hlen : prevHeights.length = tx.vinSequence.length)
    (hle : ∀ h ∈ prevHeights, h ≤ T.nHeight block) :
    ∃ b, SequenceLocks T nTime tx flags prevHeights block = .ok b ∧
      (b = true ↔ ¬fEnforceBIP68 tx flags ∨
        ∀ p ∈ tx.vinSequence.zip prevHeights, InputLockMet T nTime block pprev p.1 p.2) := by
  have hH : 1 ≤ T.nHeight block := by rw [T.height_pprev block pprev hp]; omega
  have hMTP := (T.GetMedianTimePast_mem nTime pprev).1
  by_cases hE : fEnforceBIP68 tx flags
  · obtain ⟨lock', hs, hloop, -, hfst, hsnd⟩ := sequenceLockLoop_spec nTime hT block
      (tx.vinSequence.zip prevHeights) (-1, -1) fun p hp => hle p.2 (List.of_mem_zip hp).2
    refine ⟨_, by rw [SequenceLocks, CalculateSequenceLocks, if_neg (by omega), if_neg (not_not.mpr hE),
      hloop, except_ok_bind, EvaluateSequenceLocks_eq nTime hp], ?_⟩
    rw [decide_eq_true_iff, hfst, hsnd]
    simp only [InputLockMet_iff, hE, not_true_eq_false, false_or]
    constructor
    · rintro ⟨⟨-, hheight⟩, -, htime⟩ p hmem
      exact ⟨hheight p hmem, htime p hmem⟩
    · intro hall
      exact ⟨⟨by omega, fun p hmem => (hall p hmem).1⟩, by omega, fun p hmem => (hall p hmem).2⟩
  · refine ⟨_, by rw [SequenceLocks, CalculateSequenceLocks, if_neg (by omega), if_pos hE,
      except_ok_bind, EvaluateSequenceLocks_eq nTime hp], ?_⟩
    simp only [hE, not_false_eq_true, true_or, iff_true, decide_eq_true_iff]
    omega

/-- BIP68 is enforced exactly: with the skip pointers built, a parent, and every coin height at
most the block's, `SequenceLocks` succeeds and holds exactly when BIP68 is not enforced or every
input's own rule holds; and when the coin heights are not negative and the block is at most at
`2 ^ 31 - 2 ^ 16`, no `int` or `int64_t` intermediate of the loop overflows. -/
theorem bip68_sequence_locks_exact (hT : T.SkipsBuilt) (tx : SequenceLockTx) (flags : UInt32)
    (prevHeights : List ℤ) {block pprev : ι} (hp : T.pprev block = some pprev)
    (hlen : prevHeights.length = tx.vinSequence.length)
    (hle : ∀ h ∈ prevHeights, h ≤ T.nHeight block) :
    (∃ b, SequenceLocks T nTime tx flags prevHeights block = .ok b ∧
      (b = true ↔ ¬fEnforceBIP68 tx flags ∨
        ∀ p ∈ tx.vinSequence.zip prevHeights, InputLockMet T nTime block pprev p.1 p.2)) ∧
    ((∀ h ∈ prevHeights, 0 ≤ h) → (T.nHeight block : ℤ) ≤ 2 ^ 31 - 2 ^ 16 →
      ∀ p ∈ tx.vinSequence.zip prevHeights,
        SequenceLockInRange (ancestorMTP T nTime block (max (p.2 - 1) 0).toNat) p.1 p.2) := by
  refine ⟨SequenceLocks_iff nTime hT tx flags prevHeights hp hlen hle, fun h0 hH p hmem => ?_⟩
  have hmemh := (List.of_mem_zip hmem).2
  -- the median time of an ancestor is a median of `uint32_t` times
  have hMTP : 0 ≤ ancestorMTP T nTime block (max (p.2 - 1) 0).toNat ∧
      ancestorMTP T nTime block (max (p.2 - 1) 0).toNat < 2 ^ 32 := by
    unfold ancestorMTP
    split
    · exact T.GetMedianTimePast_mem nTime _
    · norm_num
  exact SequenceLockInRange_of_le p.1 (h0 p.2 hmemh) (hle p.2 hmemh) hH hMTP.1 hMTP.2

/-- A version-2 transaction with one input locked for one block, spent one block above its
coin. -/
theorem bip68_sequence_locks_exact_linear :
    linearChain.SkipsBuilt ∧ linearChain.pprev 1 = some 0 ∧
    [(0 : ℤ)].length = (⟨2, [1]⟩ : SequenceLockTx).vinSequence.length ∧
    (∀ h ∈ [(0 : ℤ)], h ≤ linearChain.nHeight 1) ∧
    (∃ b, SequenceLocks linearChain (fun _ => 0) ⟨2, [1]⟩ 1 [0] 1 = .ok b ∧
      (b = true ↔ ¬fEnforceBIP68 ⟨2, [1]⟩ 1 ∨
        ∀ p ∈ (⟨2, [1]⟩ : SequenceLockTx).vinSequence.zip [(0 : ℤ)],
          InputLockMet linearChain (fun _ => 0) 1 0 p.1 p.2)) := by
  have hp : linearChain.pprev 1 = some 0 := rfl
  have hlen : [(0 : ℤ)].length = (⟨2, [1]⟩ : SequenceLockTx).vinSequence.length := rfl
  have hle : ∀ h ∈ [(0 : ℤ)], h ≤ linearChain.nHeight 1 := by simp [linearChain]
  exact ⟨linearChain_skipsBuilt, hp, hlen, hle,
    (bip68_sequence_locks_exact (fun _ => 0) linearChain_skipsBuilt ⟨2, [1]⟩ 1 [0] hp hlen hle).1⟩

/-- An `int` intermediate overflows at the ends of the `int` range: a height lock of `0` on a coin
height of `INT_MIN`, below the height of every block, computes `INT_MIN - 1`; a height lock of `1`
on a coin at `INT_MAX`, in a block at `INT_MAX`, computes `INT_MAX + 1`. -/
theorem sequence_lock_int_overflow :
    (-2 ^ 31 : ℤ) ≤ linearChain.nHeight 1 ∧ ¬SequenceLockInRange 0 0 (-2 ^ 31) ∧
    linearChain.pprev (2 ^ 31 - 1) = some (2 ^ 31 - 2) ∧
    ((2 ^ 31 - 1 : ℕ) : ℤ) ≤ linearChain.nHeight (2 ^ 31 - 1) ∧
    ¬SequenceLockInRange 0 1 (2 ^ 31 - 1) :=
  ⟨by decide, by decide, rfl, le_refl _, by decide⟩

end Law

end HydraNode
