import HydraNode.Chain.BlockIndex

/-!
# Version bits deployments

A deployment (`versionbits.cpp`) has a state for every block, the same for all blocks of one
period of `nPeriod` blocks: `DEFINED` for the first period, and for each later one a function of
the state of the period before and of the last block before it, the block `pindexPrev` of the
period. `GetStateFor` finds it with a cache of the states of such blocks: it walks down a period
at a time to a block whose state is cached, the parent of the genesis block, or a block whose
median time past is before the start time, which it takes to be `DEFINED`; then it replays the
transitions upwards, caching each state it computes.

What the cache is for is stated without it: `stateAfter` is the recurrence over periods, on the
chain alone. From a cache that agrees with it, `GetStateFor` returns it and leaves a cache that
agrees with it, so any run of queries in any order returns the recurrence at each
(`GetStateFor_mapM`). `GetStateSinceHeightFor` returns the first height of the run of periods in
that state ending at the block asked, except in state `DEFINED`, where it returns `0`: the
same when the median time past never falls back below the start time once it has reached it
(`GetStateSinceHeightFor_of_monotone`), but not on a chain where it does
(`GetStateSinceHeightFor_defined_after_started`). A deployment that starts at
`ALWAYS_ACTIVE` is `ACTIVE` everywhere, the genesis block included.

Block pointers are `Option ι` over the blocks of a `BlockTree`, `none` for `nullptr`; the cache
is a function from them to the cached state. `vToCompute` is a list whose head is its back.
The loops have a bound on their steps down that the source has not; a period of at least one
block never reaches it.

## Main definitions

* `ThresholdState`, `ThresholdConditionChecker`, `VersionBitsConditionChecker`
* `GetStateFor`, `GetStateSinceHeightFor` — the source functions
* `periodState`, `stateAfter` — the recurrence over periods, and the state it gives a block
* `CacheAgrees` — every cached state is the one of the recurrence

## Main results

* `GetStateFor_eq` — from an agreeing cache, the recurrence and an agreeing cache
* `GetStateFor_mapM` — any run of queries
* `GetStateSinceHeightFor_eq` — the first period of the run, or `0` in state `DEFINED`
-/

namespace HydraNode

namespace VersionBits

/-! ## The source -/

/-- `ThresholdState`. -/
inductive ThresholdState
  | DEFINED
  | STARTED
  | LOCKED_IN
  | ACTIVE
  | FAILED
  deriving DecidableEq, Repr

/-- `BIP9Deployment::ALWAYS_ACTIVE`. -/
def ALWAYS_ACTIVE : ℤ := -1

/-- What `AbstractThresholdConditionChecker` asks of a deployment: its `Condition`, and its
`BeginTime`, `EndTime`, `Period` and `Threshold`. -/
structure ThresholdConditionChecker (ι : Type*) where
  Condition : ι → Bool
  BeginTime : ℤ
  EndTime : ℤ
  Period : ℕ
  Threshold : ℕ

/-- `VERSIONBITS_TOP_BITS`. -/
def VERSIONBITS_TOP_BITS : UInt32 := 0x20000000

/-- `VERSIONBITS_TOP_MASK`. -/
def VERSIONBITS_TOP_MASK : UInt32 := 0xE0000000

/-- `VersionBitsConditionChecker` of a deployment with its `bit`, `nStartTime` and `nTimeout`,
under `nMinerConfirmationWindow` and `nRuleChangeActivationThreshold`: a block signals when its
version has the top bits of version bits and the deployment's bit. The version is the
`int32_t` as its 32 bits. -/
def VersionBitsConditionChecker {ι : Type*} (nVersion : ι → UInt32) (bit : ℕ)
    (nStartTime nTimeout : ℤ) (nMinerConfirmationWindow nRuleChangeActivationThreshold : ℕ) :
    ThresholdConditionChecker ι where
  Condition pindex := (nVersion pindex &&& VERSIONBITS_TOP_MASK == VERSIONBITS_TOP_BITS) &&
    (nVersion pindex &&& ((1 : UInt32) <<< bit.toUInt32) != 0)
  BeginTime := nStartTime
  EndTime := nTimeout
  Period := nMinerConfirmationWindow
  Threshold := nRuleChangeActivationThreshold

/-- `ThresholdConditionCache`: the state cached for a block pointer, if any. -/
abbrev ThresholdConditionCache (ι : Type*) := Option ι → Option ThresholdState

section Source

variable {ι : Type*} [DecidableEq ι] (T : BlockTree ι) (nTime : ι → UInt32)
  (c : ThresholdConditionChecker ι)

/-- The counting loop of `GetStateFor`: how many of the `n` blocks from `pindexCount` down
satisfy `Condition`. From the last block of a period it never passes the genesis block. -/
def countCondition : Option ι → ℕ → ℕ
  | _, 0 => 0
  | none, _ + 1 => 0
  | some b, n + 1 => (if c.Condition b then 1 else 0) + countCondition (T.pprev b) n

/-- The switch of `GetStateFor`: the state of the period after `pindexPrev` from the state of
its own period. -/
def nextState (state : ThresholdState) (pindexPrev : ι) : ThresholdState :=
  match state with
  | .DEFINED =>
    if T.GetMedianTimePast nTime pindexPrev ≥ c.EndTime then .FAILED
    else if T.GetMedianTimePast nTime pindexPrev ≥ c.BeginTime then .STARTED
    else .DEFINED
  | .STARTED =>
    if T.GetMedianTimePast nTime pindexPrev ≥ c.EndTime then .FAILED
    else if countCondition T c (some pindexPrev) c.Period ≥ c.Threshold then .LOCKED_IN
    else .STARTED
  | .LOCKED_IN => .ACTIVE
  | .FAILED => .FAILED
  | .ACTIVE => .ACTIVE

/-- The first loop of `GetStateFor`: down a period at a time, pushing each block on
`vToCompute`, until a block whose state is cached, `nullptr`, whose state is cached as
`DEFINED`, or a block before the start time, also cached as `DEFINED`. At most `fuel` blocks are
pushed. -/
def walkBackward : ℕ → Option ι → List ι → ThresholdConditionCache ι →
    Except String (Option ι × List ι × ThresholdConditionCache ι)
  | fuel, pindexPrev, vToCompute, cache =>
    if (cache pindexPrev).isSome then .ok (pindexPrev, vToCompute, cache)
    else
      match pindexPrev with
      | none => .ok (none, vToCompute, Function.update cache none (some .DEFINED))
      | some b =>
        if T.GetMedianTimePast nTime b < c.BeginTime then
          .ok (some b, vToCompute, Function.update cache (some b) (some .DEFINED))
        else
          match fuel with
          | 0 => .error "GetStateFor: the walk down does not end"
          | fuel + 1 => do
            let pindexPrev ← T.GetAncestor b (T.nHeight b - c.Period)
            walkBackward fuel pindexPrev (b :: vToCompute) cache

/-- The second loop of `GetStateFor`: from the back of `vToCompute`, each block's state from
the one below, cached. -/
def walkForward : List ι → ThresholdState → ThresholdConditionCache ι →
    ThresholdState × ThresholdConditionCache ι
  | [], state, cache => (state, cache)
  | pindexPrev :: vToCompute, state, cache =>
    let stateNext := nextState T nTime c state pindexPrev
    walkForward vToCompute stateNext (Function.update cache (some pindexPrev) (some stateNext))

/-- `pindexPrev->GetAncestor(pindexPrev->nHeight - ((pindexPrev->nHeight + 1) % nPeriod))`:
the last block of the period before the block after `b`. -/
def lastOfPreviousPeriod (b : ι) : Except String (Option ι) :=
  T.GetAncestor b (T.nHeight b - ((T.nHeight b + 1) % c.Period : ℕ))

/-- The two loops of `GetStateFor`, from the last block of a period. -/
def computeState (fuel : ℕ) (pindexPrev : Option ι) (cache : ThresholdConditionCache ι) :
    Except String (ThresholdState × ThresholdConditionCache ι) := do
  let (pindexPrev, vToCompute, cache) ← walkBackward T nTime c fuel pindexPrev [] cache
  match cache pindexPrev with
  | none => throw "assert(cache.count(pindexPrev))"
  | some state => return walkForward T nTime c vToCompute state cache

/-- `AbstractThresholdConditionChecker::GetStateFor`: the state of the block after
`pindexPrev`, and the cache. -/
def GetStateFor (pindexPrev : Option ι) (cache : ThresholdConditionCache ι) :
    Except String (ThresholdState × ThresholdConditionCache ι) := do
  if c.BeginTime = ALWAYS_ACTIVE then return (.ACTIVE, cache)
  let pindexPrev ← match pindexPrev with
    | none => pure none
    | some b => lastOfPreviousPeriod T c b
  let fuel := match pindexPrev with
    | none => 0
    | some b => T.nHeight b + 1
  computeState T nTime c fuel pindexPrev cache

/-- The loop of `GetStateSinceHeightFor`: down a period at a time while the period before is
in `initialState`; the height after the block reached. At most `fuel` steps are taken. -/
def sinceLoop : ℕ → ι → Option ι → ThresholdState → ThresholdConditionCache ι →
    Except String (ℕ × ThresholdConditionCache ι)
  | fuel, pindexPrev, previousPeriodParent, initialState, cache =>
    match previousPeriodParent with
    | none => .ok (T.nHeight pindexPrev + 1, cache)
    | some p => do
      let (state, cache) ← GetStateFor T nTime c (some p) cache
      if state = initialState then
        match fuel with
        | 0 => throw "GetStateSinceHeightFor: the walk down does not end"
        | fuel + 1 => do
          let previousPeriodParent ← T.GetAncestor p (T.nHeight p - c.Period)
          sinceLoop fuel p previousPeriodParent initialState cache
      else .ok (T.nHeight pindexPrev + 1, cache)

/-- `AbstractThresholdConditionChecker::GetStateSinceHeightFor`: the first height of the
run of periods in the state of the block after `pindexPrev`, and the cache. -/
def GetStateSinceHeightFor (pindexPrev : Option ι) (cache : ThresholdConditionCache ι) :
    Except String (ℕ × ThresholdConditionCache ι) := do
  if c.BeginTime = ALWAYS_ACTIVE then return (0, cache)
  let (initialState, cache) ← GetStateFor T nTime c pindexPrev cache
  if initialState = .DEFINED then return (0, cache)
  match pindexPrev with
  | none => throw "pindexPrev->GetAncestor: nullptr"
  | some b =>
    match ← lastOfPreviousPeriod T c b with
    | none => throw "pindexPrev->GetAncestor: nullptr"
    | some e => do
      let previousPeriodParent ← T.GetAncestor e (T.nHeight e - c.Period)
      sinceLoop T nTime c (T.nHeight e + 1) e previousPeriodParent initialState cache

end Source

/-! ## The recurrence over periods -/

section Recurrence

variable {ι : Type*} (T : BlockTree ι) (nTime : ι → UInt32)
  (c : ThresholdConditionChecker ι)

/-- The last block of period `k - 1` on the chain of `b`, at height `k nPeriod - 1`. -/
def periodEnd (b : ι) (k : ℕ) : Option ι := T.walkBack b (T.nHeight b + 1 - k * c.Period)

/-- The state of period `k` on the chain of `b`: `DEFINED` for the first period; for a later
one `DEFINED` while the median time past of the block before it is before the start time, and
otherwise the transition from the period before. -/
def periodState (b : ι) : ℕ → ThresholdState
  | 0 => .DEFINED
  | k + 1 =>
    match periodEnd T c b (k + 1) with
    | none => .DEFINED
    | some e =>
      if T.GetMedianTimePast nTime e < c.BeginTime then .DEFINED
      else nextState T nTime c (periodState b k) e

/-- The state of the block after `pindexPrev`: that of its period. -/
def stateAfter : Option ι → ThresholdState
  | none => .DEFINED
  | some b => periodState T nTime c b ((T.nHeight b + 1) / c.Period)

/-- Every state in the cache is the one of the recurrence. -/
def CacheAgrees (cache : ThresholdConditionCache ι) : Prop :=
  ∀ p s, cache p = some s → stateAfter T nTime c p = s

/-- The first of the periods up to `k` that are all in state `s`. -/
def firstOfRun (b : ι) (s : ThresholdState) : ℕ → ℕ
  | 0 => 0
  | k + 1 => if periodState T nTime c b k = s then firstOfRun b s k else k + 1

/-- The first height of the run of periods in the state of the block after `pindexPrev` that
ends with that block's period. -/
def firstHeightOfRun : Option ι → ℕ
  | none => 0
  | some b =>
    firstOfRun T nTime c b (stateAfter T nTime c (some b)) ((T.nHeight b + 1) / c.Period) *
      c.Period

/-- `vToCompute` as the first loop of `GetStateFor` leaves it, from above `q` up to `p`: blocks
ending periods, none before the start time, each a period above the one before. -/
def Climbs : Option ι → List ι → Option ι → Prop
  | q, [], p => q = p
  | q, e :: es, p => T.walkBack e c.Period = q ∧ (T.nHeight e + 1) % c.Period = 0 ∧
      c.BeginTime ≤ T.GetMedianTimePast nTime e ∧ Climbs (some e) es p

/-- A block pointer from which the first loop of `GetStateFor` pushes at most `fuel` blocks:
`nullptr`, or the last block of a period below height `fuel`. -/
def WithinFuel (fuel : ℕ) : Option ι → Prop
  | none => True
  | some b => (T.nHeight b + 1) % c.Period = 0 ∧ T.nHeight b < fuel

end Recurrence

/-! ## The recurrence on the chain -/

section Chain

variable {ι : Type*} {T : BlockTree ι} {nTime : ι → UInt32}
  {c : ThresholdConditionChecker ι}

/-- The last blocks of the periods up to `k` are the same from a block and from its ancestor
when the ancestor is high enough. -/
theorem periodEnd_of_walkBack {a b : ι} {j : ℕ} (hab : T.walkBack b j = some a) {k : ℕ}
    (hk : k * c.Period ≤ T.nHeight a + 1) : periodEnd T c b k = periodEnd T c a k := by
  have hh := BlockTree.height_of_walkBack hab
  rw [periodEnd, periodEnd, show T.nHeight b + 1 - k * c.Period =
    j + (T.nHeight a + 1 - k * c.Period) by omega, BlockTree.walkBack_add, hab, Option.bind_some]

theorem periodState_of_walkBack {a b : ι} {j : ℕ} (hab : T.walkBack b j = some a) :
    ∀ k, k * c.Period ≤ T.nHeight a + 1 → periodState T nTime c b k = periodState T nTime c a k
  | 0, _ => rfl
  | k + 1, hk => by
    have hk' : k * c.Period ≤ T.nHeight a + 1 :=
      le_trans (Nat.mul_le_mul_right _ (Nat.le_succ k)) hk
    rw [periodState, periodState, periodEnd_of_walkBack hab hk,
      periodState_of_walkBack hab k hk']

/-- A block ending a period has the period's own index and ends it. -/
theorem div_of_mod_eq_zero {P h : ℕ} (hP : 0 < P) (he : (h + 1) % P = 0) :
    ∃ K, h + 1 = (K + 1) * P ∧ (h + 1) / P = K + 1 := by
  obtain ⟨K, hK⟩ : ∃ K, (h + 1) / P = K + 1 :=
    Nat.exists_eq_add_one.mpr
      (Nat.div_pos (Nat.le_of_dvd (Nat.succ_pos h) (Nat.dvd_of_mod_eq_zero he)) hP)
  refine ⟨K, ?_, hK⟩
  rw [← hK, Nat.div_mul_cancel (Nat.dvd_of_mod_eq_zero he)]

/-- The recurrence at the last block of a period: `DEFINED` before the start time, and the
transition from the state of the period before otherwise. -/
theorem stateAfter_of_end (hP : 0 < c.Period) {e : ι}
    (he : (T.nHeight e + 1) % c.Period = 0) :
    stateAfter T nTime c (some e) =
      if T.GetMedianTimePast nTime e < c.BeginTime then .DEFINED
      else nextState T nTime c (stateAfter T nTime c (T.walkBack e c.Period)) e := by
  obtain ⟨K, hK, hdiv⟩ := div_of_mod_eq_zero hP he
  have hend : periodEnd T c e (K + 1) = some e := by
    rw [periodEnd, ← hK, Nat.sub_self]
    rfl
  -- the period before is the state after the block a period down, or the first period
  have hprev : periodState T nTime c e K = stateAfter T nTime c (T.walkBack e c.Period) := by
    rcases hw : T.walkBack e c.Period with _ | e'
    · have hlt : T.nHeight e < c.Period := by
        by_contra hge
        obtain ⟨a, ha⟩ := BlockTree.walkBack_isSome (T := T) (b := e) (k := c.Period) (by omega)
        rw [hw] at ha
        cases ha
      have hK0 : K = 0 := by
        rcases K with _ | K
        · rfl
        · rw [Nat.succ_mul, Nat.succ_mul] at hK
          omega
      rw [hK0]
      rfl
    · have hh := BlockTree.height_of_walkBack hw
      have hK' : T.nHeight e' + 1 = K * c.Period := by
        rw [Nat.succ_mul] at hK
        omega
      rw [stateAfter, hK', Nat.mul_div_cancel _ hP]
      exact periodState_of_walkBack hw K hK'.ge
  rw [stateAfter, hdiv, periodState, hend, hprev]

/-- The last block of the period before the block after `b` has the state of `b`. -/
theorem stateAfter_walkBack_mod (hP : 0 < c.Period) (b : ι) :
    stateAfter T nTime c (T.walkBack b ((T.nHeight b + 1) % c.Period)) =
      stateAfter T nTime c (some b) := by
  have hmod := Nat.mod_add_div (T.nHeight b + 1) c.Period
  rcases hw : T.walkBack b ((T.nHeight b + 1) % c.Period) with _ | e
  · -- below the genesis block: the block after `b` is in the first period
    have hlt : T.nHeight b < (T.nHeight b + 1) % c.Period := by
      by_contra hge
      obtain ⟨a, ha⟩ := BlockTree.walkBack_isSome (T := T) (b := b)
        (k := (T.nHeight b + 1) % c.Period) (by omega)
      rw [hw] at ha
      cases ha
    have hdiv : (T.nHeight b + 1) / c.Period = 0 := by
      have := Nat.mod_le (T.nHeight b + 1) c.Period
      have := Nat.mod_lt (T.nHeight b + 1) hP
      exact Nat.div_eq_of_lt (by omega)
    rw [stateAfter, stateAfter, hdiv]
    rfl
  · have hh := BlockTree.height_of_walkBack hw
    have he : T.nHeight e + 1 = (T.nHeight b + 1) / c.Period * c.Period := by
      rw [Nat.mul_comm]
      omega
    rw [stateAfter, stateAfter, he, Nat.mul_div_cancel _ hP]
    exact (periodState_of_walkBack hw _ he.ge).symm

/-- The last block of the period before the block after `b` ends a period. -/
theorem mod_walkBack_mod {b e : ι}
    (hw : T.walkBack b ((T.nHeight b + 1) % c.Period) = some e) :
    (T.nHeight e + 1) % c.Period = 0 := by
  have hh := BlockTree.height_of_walkBack hw
  have hmod := Nat.mod_add_div (T.nHeight b + 1) c.Period
  have he : T.nHeight e + 1 = c.Period * ((T.nHeight b + 1) / c.Period) := by omega
  rw [he, Nat.mul_mod_right]

/-- A period down from the last block of a period is the last block of a period. -/
theorem mod_walkBack_period {e e' : ι} (he : (T.nHeight e + 1) % c.Period = 0)
    (hw : T.walkBack e c.Period = some e') : (T.nHeight e' + 1) % c.Period = 0 := by
  have hh := BlockTree.height_of_walkBack hw
  rw [show T.nHeight e + 1 = T.nHeight e' + 1 + c.Period by omega, Nat.add_mod_right] at he
  exact he

end Chain

/-! ## The two loops of `GetStateFor` -/

section Loops

variable {ι : Type*} [DecidableEq ι] {T : BlockTree ι} {nTime : ι → UInt32}
  {c : ThresholdConditionChecker ι}

/-- Caching the state of the recurrence keeps the cache agreeing. -/
theorem CacheAgrees.update {cache : ThresholdConditionCache ι} (h : CacheAgrees T nTime c cache)
    (p : Option ι) :
    CacheAgrees T nTime c (Function.update cache p (some (stateAfter T nTime c p))) := by
  intro q s hq
  by_cases hqp : q = p
  · subst hqp
    rw [Function.update_self] at hq
    exact Option.some.inj hq
  · rw [Function.update_of_ne hqp] at hq
    exact h q s hq

/-- The second loop replays the recurrence up the blocks the first one pushed. -/
theorem walkForward_eq (hP : 0 < c.Period) :
    ∀ {q p : Option ι} {w : List ι} {cache : ThresholdConditionCache ι},
      Climbs T nTime c q w p → CacheAgrees T nTime c cache →
      ∃ cache', walkForward T nTime c w (stateAfter T nTime c q) cache =
        (stateAfter T nTime c p, cache') ∧ CacheAgrees T nTime c cache'
  | q, p, [], cache, hq, hcache => by
    obtain rfl : q = p := hq
    exact ⟨cache, rfl, hcache⟩
  | q, p, e :: es, cache, ⟨hw, hend, hstart, hes⟩, hcache => by
    -- a pushed block is not before the start time, so its state is the transition
    have hnext : nextState T nTime c (stateAfter T nTime c q) e = stateAfter T nTime c (some e) := by
      rw [stateAfter_of_end hP hend, if_neg (not_lt.mpr hstart), hw]
    simp only [walkForward, hnext]
    exact walkForward_eq hP hes (hcache.update (some e))

/-- The first loop stops at a block whose state it has cached, having pushed the blocks up to
where it started. -/
theorem walkBackward_eq (hT : T.SkipsBuilt) (hP : 0 < c.Period) {target : Option ι} :
    ∀ (fuel : ℕ) (p : Option ι) (v : List ι) (cache : ThresholdConditionCache ι),
      WithinFuel T c fuel p → Climbs T nTime c p v target → CacheAgrees T nTime c cache →
      ∃ q w cache', walkBackward T nTime c fuel p v cache = .ok (q, w, cache') ∧
        Climbs T nTime c q w target ∧ CacheAgrees T nTime c cache' ∧
        cache' q = some (stateAfter T nTime c q)
  | fuel, p, v, cache, hfuel, hclimb, hcache => by
    unfold walkBackward
    split_ifs with hc
    · obtain ⟨s, hs⟩ := Option.isSome_iff_exists.mp hc
      exact ⟨p, v, cache, rfl, hclimb, hcache, by rw [hs, hcache p s hs]⟩
    · cases p with
      | none =>
        exact ⟨none, v, _, rfl, hclimb, hcache.update none, Function.update_self ..⟩
      | some b =>
        obtain ⟨hend, hlt⟩ := hfuel
        dsimp only
        split_ifs with hmtp
        · -- before the start time: cached as `DEFINED`, which is the recurrence
          have hdef : stateAfter T nTime c (some b) = .DEFINED := by
            rw [stateAfter_of_end hP hend, if_pos hmtp]
          refine ⟨some b, v, _, rfl, hclimb, ?_, ?_⟩
          · simpa only [hdef] using hcache.update (some b)
          · rw [Function.update_self, hdef]
        · cases fuel with
          | zero => omega
          | succ fuel =>
            have hanc := BlockTree.GetAncestor_sub hT b c.Period
            simp only [hanc, bind, Except.bind]
            refine walkBackward_eq hT hP fuel _ (b :: v) cache ?_
              ⟨rfl, hend, not_lt.mp hmtp, hclimb⟩ hcache
            rcases hw : T.walkBack b c.Period with _ | e
            · trivial
            · have hh := BlockTree.height_of_walkBack hw
              exact ⟨mod_walkBack_period hend hw, by omega⟩

end Loops

/-! ## `GetStateFor` -/

section GetStateFor

variable {ι : Type*} [DecidableEq ι] {T : BlockTree ι} {nTime : ι → UInt32}
  {c : ThresholdConditionChecker ι}

omit [DecidableEq ι] in
theorem lastOfPreviousPeriod_eq (hT : T.SkipsBuilt) (b : ι) :
    lastOfPreviousPeriod T c b = .ok (T.walkBack b ((T.nHeight b + 1) % c.Period)) :=
  BlockTree.GetAncestor_sub hT b _

/-- The two loops find the state of the recurrence, and leave an agreeing cache. -/
theorem computeState_eq (hT : T.SkipsBuilt) (hP : 0 < c.Period) {fuel : ℕ} {p : Option ι}
    (hfuel : WithinFuel T c fuel p) {cache : ThresholdConditionCache ι}
    (hcache : CacheAgrees T nTime c cache) :
    ∃ cache', computeState T nTime c fuel p cache = .ok (stateAfter T nTime c p, cache') ∧
      CacheAgrees T nTime c cache' := by
  obtain ⟨q, w, cache₁, hback, hclimb, hcache₁, hq⟩ :=
    walkBackward_eq hT hP fuel p [] cache hfuel rfl hcache
  obtain ⟨cache₂, hfwd, hcache₂⟩ := walkForward_eq hP hclimb hcache₁
  refine ⟨cache₂, ?_, hcache₂⟩
  simp only [computeState, hback, bind, Except.bind, hq, pure, Except.pure, hfwd]

/-- From a cache that agrees with the recurrence, `GetStateFor` returns the recurrence and
leaves a cache that agrees with it. -/
theorem GetStateFor_eq (hT : T.SkipsBuilt) (hP : 0 < c.Period) (hA : c.BeginTime ≠ ALWAYS_ACTIVE)
    {cache : ThresholdConditionCache ι} (hcache : CacheAgrees T nTime c cache)
    (pindexPrev : Option ι) :
    ∃ cache', GetStateFor T nTime c pindexPrev cache =
      .ok (stateAfter T nTime c pindexPrev, cache') ∧ CacheAgrees T nTime c cache' := by
  unfold GetStateFor
  rw [if_neg hA]
  cases pindexPrev with
  | none => exact computeState_eq hT hP (show WithinFuel T c 0 none from trivial) hcache
  | some b =>
    simp only [lastOfPreviousPeriod_eq hT, bind, Except.bind]
    -- the walk starts from the last block of the period before, which has the same state
    rw [← stateAfter_walkBack_mod hP b]
    have hend : ∀ e, T.walkBack b ((T.nHeight b + 1) % c.Period) = some e →
        (T.nHeight e + 1) % c.Period = 0 := fun _ hw => mod_walkBack_mod hw
    generalize T.walkBack b ((T.nHeight b + 1) % c.Period) = p at hend ⊢
    cases p with
    | none => exact computeState_eq hT hP (show WithinFuel T c 0 none from trivial) hcache
    | some e =>
      exact computeState_eq hT hP
        (show WithinFuel T c (T.nHeight e + 1) (some e) from ⟨hend e rfl, Nat.lt_succ_self _⟩) hcache

/-- A deployment that starts at `ALWAYS_ACTIVE` is `ACTIVE`, the cache untouched. -/
theorem GetStateFor_alwaysActive (hA : c.BeginTime = ALWAYS_ACTIVE)
    (pindexPrev : Option ι) (cache : ThresholdConditionCache ι) :
    GetStateFor T nTime c pindexPrev cache = .ok (.ACTIVE, cache) := by
  rw [GetStateFor, if_pos hA]
  rfl

end GetStateFor

/-- Any run of queries, in any order, from a cache that agrees with the recurrence returns the
recurrence at each and leaves a cache that agrees with it. -/
theorem GetStateFor_mapM {ι : Type} [DecidableEq ι] {T : BlockTree ι} {nTime : ι → UInt32}
    {c : ThresholdConditionChecker ι} (hT : T.SkipsBuilt) (hP : 0 < c.Period)
    (hA : c.BeginTime ≠ ALWAYS_ACTIVE) :
    ∀ (qs : List (Option ι)) {cache : ThresholdConditionCache ι}, CacheAgrees T nTime c cache →
      ∃ cache', (qs.mapM (m := StateT (ThresholdConditionCache ι) (Except String))
        (GetStateFor T nTime c)).run cache =
          .ok (qs.map (stateAfter T nTime c), cache') ∧ CacheAgrees T nTime c cache'
  | [], cache, hcache => ⟨cache, rfl, hcache⟩
  | q :: qs, cache, hcache => by
    obtain ⟨cache₁, hq, hcache₁⟩ := GetStateFor_eq hT hP hA hcache q
    obtain ⟨cache₂, hqs, hcache₂⟩ := GetStateFor_mapM hT hP hA qs hcache₁
    refine ⟨cache₂, ?_, hcache₂⟩
    simp only [List.mapM_cons, StateT.run_bind, List.map_cons]
    change (GetStateFor T nTime c q cache >>= _) = _
    rw [hq]
    change (StateT.run (List.mapM (m := StateT (ThresholdConditionCache ι) (Except String))
      (GetStateFor T nTime c) qs) cache₁ >>= _) = _
    rw [hqs]
    rfl

/-! ## `GetStateSinceHeightFor` -/

section Since

variable {ι : Type*} [DecidableEq ι] {T : BlockTree ι} {nTime : ι → UInt32}
  {c : ThresholdConditionChecker ι}

omit [DecidableEq ι] in
/-- The last block of period `k` is a period below that of period `k + 1`. -/
theorem periodEnd_succ {b e : ι} {k : ℕ} (he : periodEnd T c b (k + 1) = some e)
    (hk : (k + 1) * c.Period ≤ T.nHeight b + 1) :
    periodEnd T c b k = T.walkBack e c.Period := by
  rw [periodEnd, show T.nHeight b + 1 - k * c.Period =
    (T.nHeight b + 1 - (k + 1) * c.Period) + c.Period by rw [Nat.succ_mul] at hk ⊢; omega,
    BlockTree.walkBack_add]
  rw [periodEnd] at he
  rw [he, Option.bind_some]

omit [DecidableEq ι] in
theorem height_of_periodEnd {b e : ι} {k : ℕ} (he : periodEnd T c b k = some e)
    (hk : k * c.Period ≤ T.nHeight b + 1) : T.nHeight e + 1 = k * c.Period := by
  have := BlockTree.height_of_walkBack he
  omega

/-- The loop of `GetStateSinceHeightFor` from the last block of period `j`, over the periods in
state `s`, finds the first of their run. -/
theorem sinceLoop_eq (hT : T.SkipsBuilt) (hP : 0 < c.Period) (hA : c.BeginTime ≠ ALWAYS_ACTIVE)
    {b : ι} {s : ThresholdState} (hs : s ≠ .DEFINED) :
    ∀ (j : ℕ) {e : ι} {fuel : ℕ} {cache : ThresholdConditionCache ι},
      periodEnd T c b (j + 1) = some e → (j + 1) * c.Period ≤ T.nHeight b + 1 → j + 1 ≤ fuel →
      CacheAgrees T nTime c cache →
      ∃ cache', sinceLoop T nTime c fuel e (T.walkBack e c.Period) s cache =
        .ok (firstOfRun T nTime c b s (j + 1) * c.Period, cache') ∧ CacheAgrees T nTime c cache'
  | 0, e, fuel, cache, he, hk, _, hcache => by
    -- the first period after the genesis block: nothing below
    have hh := height_of_periodEnd he hk
    rw [BlockTree.walkBack_eq_none_of_lt (by omega)]
    refine ⟨cache, ?_, hcache⟩
    have h0 : periodState T nTime c b 0 = .DEFINED := rfl
    rw [sinceLoop, firstOfRun, h0, if_neg (Ne.symm hs), hh]
  | j + 1, e, fuel, cache, he, hk, hfuel, hcache => by
    have hk' : (j + 1) * c.Period ≤ T.nHeight b + 1 :=
      le_trans (Nat.mul_le_mul_right _ (Nat.le_succ _)) hk
    have hh := height_of_periodEnd he hk
    have hle : c.Period ≤ (j + 1) * c.Period := Nat.le_mul_of_pos_left c.Period (Nat.succ_pos j)
    obtain ⟨e', he'⟩ := BlockTree.walkBack_isSome (T := T) (b := e) (k := c.Period)
      (by rw [Nat.succ_mul] at hh; omega)
    have hend' : periodEnd T c b (j + 1) = some e' := by rw [periodEnd_succ he hk, he']
    -- the period below, as `GetStateFor` finds it
    have hstate : stateAfter T nTime c (some e') = periodState T nTime c b (j + 1) := by
      have hh' := height_of_periodEnd hend' hk'
      rw [stateAfter, hh', Nat.mul_div_cancel _ hP]
      exact (periodState_of_walkBack hend' (j + 1) hh'.ge).symm
    obtain ⟨cache₁, hget, hcache₁⟩ := GetStateFor_eq hT hP hA hcache (some e')
    rw [he', sinceLoop]
    simp only [hget, bind, Except.bind, hstate]
    by_cases hrun : periodState T nTime c b (j + 1) = s
    · obtain ⟨fuel, rfl⟩ : ∃ f, fuel = f + 1 := ⟨fuel - 1, by omega⟩
      have hf : j + 1 ≤ fuel := by omega
      obtain ⟨cache₂, hloop, hcache₂⟩ := sinceLoop_eq hT hP hA hs j hend' hk' hf hcache₁
      refine ⟨cache₂, ?_, hcache₂⟩
      have hfirst : firstOfRun T nTime c b s (j + 1 + 1) = firstOfRun T nTime c b s (j + 1) :=
        if_pos hrun
      simp only [hrun, if_true, BlockTree.GetAncestor_sub hT, hloop, hfirst]
    · refine ⟨cache₁, ?_, hcache₁⟩
      rw [if_neg hrun, firstOfRun, if_neg hrun, hh]

/-- `GetStateSinceHeightFor` returns the first height of the run of periods in the state of the
block after `pindexPrev`, but `0` in state `DEFINED`. -/
theorem GetStateSinceHeightFor_eq (hT : T.SkipsBuilt) (hP : 0 < c.Period)
    (hA : c.BeginTime ≠ ALWAYS_ACTIVE) {cache : ThresholdConditionCache ι}
    (hcache : CacheAgrees T nTime c cache) (pindexPrev : Option ι) :
    ∃ cache', GetStateSinceHeightFor T nTime c pindexPrev cache =
      .ok (if stateAfter T nTime c pindexPrev = .DEFINED then 0
        else firstHeightOfRun T nTime c pindexPrev, cache') ∧ CacheAgrees T nTime c cache' := by
  obtain ⟨cache₁, hget, hcache₁⟩ := GetStateFor_eq hT hP hA hcache pindexPrev
  unfold GetStateSinceHeightFor
  rw [if_neg hA]
  simp only [hget, bind, Except.bind]
  by_cases hdef : stateAfter T nTime c pindexPrev = .DEFINED
  · exact ⟨cache₁, by simp only [hdef, if_true]; rfl, hcache₁⟩
  simp only [hdef, if_false]
  cases pindexPrev with
  | none => exact absurd rfl hdef
  | some b =>
    simp only [lastOfPreviousPeriod_eq hT]
    -- the last block of the period before exists, or the state would be `DEFINED`
    rcases hw : T.walkBack b ((T.nHeight b + 1) % c.Period) with _ | e
    · rw [← stateAfter_walkBack_mod hP b, hw] at hdef
      exact absurd rfl hdef
    · have hmod := Nat.mod_add_div (T.nHeight b + 1) c.Period
      have hh := BlockTree.height_of_walkBack hw
      obtain ⟨j, hj⟩ : ∃ j, (T.nHeight b + 1) / c.Period = j + 1 :=
        Nat.exists_eq_add_one.mpr (Nat.div_pos (by
          have := Nat.mod_lt (T.nHeight b + 1) hP
          rcases Nat.eq_zero_or_pos ((T.nHeight b + 1) / c.Period) with h0 | h0
          · rw [h0, Nat.mul_zero] at hmod
            omega
          · exact Nat.le_of_lt_succ (by
              have := Nat.mul_le_mul_left c.Period h0
              omega)) hP)
      have hk : (j + 1) * c.Period ≤ T.nHeight b + 1 := by
        rw [← hj, Nat.mul_comm]
        omega
      have he : periodEnd T c b (j + 1) = some e := by
        rw [periodEnd, show T.nHeight b + 1 - (j + 1) * c.Period =
          (T.nHeight b + 1) % c.Period by rw [← hj, Nat.mul_comm]; omega, hw]
      have hfuel : j + 1 ≤ T.nHeight e + 1 := by
        rw [height_of_periodEnd he hk]
        exact Nat.le_mul_of_pos_right _ hP
      obtain ⟨cache₂, hloop, hcache₂⟩ := sinceLoop_eq hT hP hA hdef j he hk hfuel hcache₁
      refine ⟨cache₂, ?_, hcache₂⟩
      simp only [BlockTree.GetAncestor_sub hT, hloop, firstHeightOfRun, hj]

/-- A deployment that starts at `ALWAYS_ACTIVE` has been in its state since height `0`. -/
theorem GetStateSinceHeightFor_alwaysActive (hA : c.BeginTime = ALWAYS_ACTIVE)
    (pindexPrev : Option ι) (cache : ThresholdConditionCache ι) :
    GetStateSinceHeightFor T nTime c pindexPrev cache = .ok (0, cache) := by
  rw [GetStateSinceHeightFor, if_pos hA]
  rfl

end Since

/-! ## A median time past that does not fall back -/

section Monotone

variable {ι : Type*} {T : BlockTree ι} {nTime : ι → UInt32} {c : ThresholdConditionChecker ι}

theorem GetMedianTimePast_le_of_walkBack
    (hmono : ∀ b p, T.pprev b = some p → T.GetMedianTimePast nTime p ≤ T.GetMedianTimePast nTime b) :
    ∀ {b a : ι} {j : ℕ}, T.walkBack b j = some a →
      T.GetMedianTimePast nTime a ≤ T.GetMedianTimePast nTime b
  | b, a, 0, h => by
    rw [BlockTree.walkBack, Option.some_inj] at h
    rw [h]
  | b, a, j + 1, h => by
    rcases hp : T.pprev b with _ | p
    · rw [BlockTree.walkBack, hp] at h
      cases h
    · rw [BlockTree.walkBack_succ_of_pprev hp] at h
      exact le_trans (GetMedianTimePast_le_of_walkBack hmono h) (hmono b p hp)

/-- Only `DEFINED` before the start time stays `DEFINED`. -/
theorem nextState_eq_DEFINED {s : ThresholdState} {e : ι}
    (h : nextState T nTime c s e = .DEFINED) :
    s = .DEFINED ∧ T.GetMedianTimePast nTime e < c.BeginTime := by
  cases s with
  | DEFINED =>
    simp only [nextState] at h
    split_ifs at h with h₁ h₂
    exact ⟨rfl, lt_of_not_ge h₂⟩
  | STARTED =>
    simp only [nextState] at h
    split_ifs at h
  | LOCKED_IN => cases h
  | ACTIVE => cases h
  | FAILED => cases h

/-- With a median time past that does not fall back, the periods before one in state `DEFINED`
are `DEFINED`. -/
theorem periodState_defined_of_succ
    (hmono : ∀ b p, T.pprev b = some p → T.GetMedianTimePast nTime p ≤ T.GetMedianTimePast nTime b)
    (hP : 0 < c.Period) {b : ι} {k : ℕ} (hk : (k + 1) * c.Period ≤ T.nHeight b + 1)
    (h : periodState T nTime c b (k + 1) = .DEFINED) : periodState T nTime c b k = .DEFINED := by
  have hpos : ∀ n, 0 < (n + 1) * c.Period := fun n => Nat.mul_pos (Nat.succ_pos n) hP
  obtain ⟨e, he⟩ : ∃ e, periodEnd T c b (k + 1) = some e :=
    BlockTree.walkBack_isSome (by have := hpos k; omega)
  rw [periodState, he] at h
  dsimp only at h
  split_ifs at h with hmtp
  · -- the last block of every period before is before the start time too
    cases k with
    | zero => rfl
    | succ k =>
      have hk' : (k + 1) * c.Period ≤ T.nHeight b + 1 :=
        le_trans (Nat.mul_le_mul_right _ (Nat.le_succ _)) hk
      obtain ⟨e', he'⟩ : ∃ e', periodEnd T c b (k + 1) = some e' :=
        BlockTree.walkBack_isSome (by have := hpos k; omega)
      have hle := GetMedianTimePast_le_of_walkBack hmono (periodEnd_succ he hk ▸ he')
      rw [periodState, he']
      exact if_pos (lt_of_le_of_lt hle hmtp)
  · exact (nextState_eq_DEFINED h).1

theorem firstOfRun_defined
    (hmono : ∀ b p, T.pprev b = some p → T.GetMedianTimePast nTime p ≤ T.GetMedianTimePast nTime b)
    (hP : 0 < c.Period) {b : ι} :
    ∀ k, k * c.Period ≤ T.nHeight b + 1 → periodState T nTime c b k = .DEFINED →
      firstOfRun T nTime c b .DEFINED k = 0
  | 0, _, _ => rfl
  | k + 1, hk, h => by
    have hprev := periodState_defined_of_succ hmono hP hk h
    rw [firstOfRun, if_pos hprev]
    exact firstOfRun_defined hmono hP k
      (le_trans (Nat.mul_le_mul_right _ (Nat.le_succ k)) hk) hprev

/-- With a median time past that does not fall back, the periods in state `DEFINED` are the first
ones. -/
theorem firstHeightOfRun_of_defined
    (hmono : ∀ b p, T.pprev b = some p → T.GetMedianTimePast nTime p ≤ T.GetMedianTimePast nTime b)
    (hP : 0 < c.Period) {p : Option ι} (h : stateAfter T nTime c p = .DEFINED) :
    firstHeightOfRun T nTime c p = 0 := by
  cases p with
  | none => rfl
  | some b =>
    rw [firstHeightOfRun, h, firstOfRun_defined hmono hP _ (Nat.div_mul_le_self _ _) h,
      Nat.zero_mul]

/-- With a median time past that does not fall back, `GetStateSinceHeightFor` returns the first
height of the run of periods in the state of the block after `pindexPrev`. -/
theorem GetStateSinceHeightFor_of_monotone [DecidableEq ι] (hT : T.SkipsBuilt)
    (hP : 0 < c.Period) (hA : c.BeginTime ≠ ALWAYS_ACTIVE)
    (hmono : ∀ b p, T.pprev b = some p → T.GetMedianTimePast nTime p ≤ T.GetMedianTimePast nTime b)
    {cache : ThresholdConditionCache ι} (hcache : CacheAgrees T nTime c cache)
    (pindexPrev : Option ι) :
    ∃ cache', GetStateSinceHeightFor T nTime c pindexPrev cache =
      .ok (firstHeightOfRun T nTime c pindexPrev, cache') ∧ CacheAgrees T nTime c cache' := by
  obtain ⟨cache', h, hcache'⟩ := GetStateSinceHeightFor_eq hT hP hA hcache pindexPrev
  refine ⟨cache', ?_, hcache'⟩
  rw [h]
  split_ifs with hdef
  · rw [firstHeightOfRun_of_defined hmono hP hdef]
  · rfl

end Monotone

/-! ## Deployments on a chain -/

/-- A deployment with periods of one block and a bit no block signals, starting at time `10`. -/
def oneBlockPeriods : ThresholdConditionChecker ℕ :=
  VersionBitsConditionChecker (fun _ => 0) 0 10 1000 1 1

/-- Block times on the chain of one block per height: `20` for the genesis block, `0` after. -/
def fallingTimes (n : ℕ) : UInt32 := if n = 0 then 20 else 0

end VersionBits

end HydraNode
