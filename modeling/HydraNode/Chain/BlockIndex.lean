import HydraNode.Lib.Loop

/-!
# The block index and its skip list

Every `CBlockIndex` (`chain.h`, `chain.cpp`) points to its parent `pprev` and to one earlier
block `pskip`, set once by `BuildSkip` to the ancestor at `GetSkipHeight(nHeight)`.
`GetAncestor(height)` walks down from a block, taking the skip pointer where it does not
overshoot and `pprev` otherwise, and `LastCommonAncestor` brings two blocks to one height with
it and then steps both down until they meet.

The blocks are any type `ι`. A `BlockTree` gives each block its `pprev`, `pskip` and `nHeight`,
with the laws the block index keeps as fields: a parent is one block lower, only a block at
height zero has no parent, and there is one such block, the genesis block. The skip pointers
are a separate hypothesis, `SkipsBuilt`: each is what `BuildSkip` would set it to. Heights are
natural numbers (`int` in the source, never negative in the index); the height asked of
`GetAncestor` is an integer, as in the source.

What the walk is for is stated without it: the ancestor `k` blocks down is `pprev` followed `k`
times (`walkBack`). The skip pointers change how fast `GetAncestor` gets there, never where.

## Main definitions

* `GetSkipHeight`, `BlockTree.GetAncestor`, `BlockTree.BuildSkip`,
  `BlockTree.LastCommonAncestor` — the source functions
* `BlockTree.walkBack`, `BlockTree.IsAncestor`, `BlockTree.IsLastCommonAncestor` — what they
  compute
* `BlockTree.SkipsBuilt` — every skip pointer was set by `BuildSkip`

## Main results

* `GetSkipHeight_lt` — the skip height is below the height, so the walk ends
* `BlockTree.GetAncestor_eq` — `GetAncestor` is `walkBack`, and `nullptr` out of range
* `BlockTree.LastCommonAncestor_spec` — it returns the deepest common ancestor
* `skip_list_correct` — the three together
-/

namespace HydraNode

/-- `InvertLowestOne`: turn the lowest `1` bit of `n` into a `0`. -/
def InvertLowestOne (n : ℕ) : ℕ := n &&& (n - 1)

/-- `GetSkipHeight`: the height the skip pointer of a block at `height` jumps back to. -/
def GetSkipHeight (height : ℕ) : ℕ :=
  if height < 2 then 0
  else if height &&& 1 ≠ 0 then InvertLowestOne (InvertLowestOne (height - 1)) + 1
  else InvertLowestOne height

theorem InvertLowestOne_le (n : ℕ) : InvertLowestOne n ≤ n - 1 := Nat.and_le_right

/-- The skip height is strictly below every positive height. -/
theorem GetSkipHeight_lt {n : ℕ} (hn : 1 ≤ n) : GetSkipHeight n < n := by
  unfold GetSkipHeight
  split_ifs with h₂ hodd
  · omega
  · -- an odd height: both inversions stay below `n - 1`
    have h₁ := InvertLowestOne_le (n - 1)
    have h₂ := InvertLowestOne_le (InvertLowestOne (n - 1))
    omega
  · have := InvertLowestOne_le n
    omega

/-- The block index: the parent, the skip pointer and the height of each block, with a parent one
block lower, a parent for every block above the genesis block, and one genesis block. -/
structure BlockTree (ι : Type*) where
  pprev : ι → Option ι
  pskip : ι → Option ι
  nHeight : ι → ℕ
  height_pprev : ∀ b p, pprev b = some p → nHeight b = nHeight p + 1
  height_of_pprev_none : ∀ b, pprev b = none → nHeight b = 0
  genesis_unique : ∀ g g', nHeight g = 0 → nHeight g' = 0 → g = g'

namespace BlockTree

variable {ι : Type*} (T : BlockTree ι)

/-! ### Following `pprev` -/

/-- Follow `pprev` `k` times. -/
def walkBack : ι → ℕ → Option ι
  | b, 0 => some b
  | b, k + 1 =>
    match T.pprev b with
    | some p => walkBack p k
    | none => none

/-- `a` is `b` or one of its ancestors. -/
def IsAncestor (a b : ι) : Prop := ∃ k, T.walkBack b k = some a

/-- `c` is the deepest common ancestor of `a` and `b`. -/
def IsLastCommonAncestor (a b c : ι) : Prop :=
  T.IsAncestor c a ∧ T.IsAncestor c b ∧
    ∀ c', T.IsAncestor c' a → T.IsAncestor c' b → T.nHeight c' ≤ T.nHeight c

variable {T}

theorem pprev_of_pos {b : ι} (hb : 0 < T.nHeight b) : ∃ p, T.pprev b = some p := by
  rcases h : T.pprev b with _ | p
  · have := T.height_of_pprev_none b h
    omega
  · exact ⟨p, rfl⟩

theorem walkBack_succ_of_pprev {b p : ι} (hp : T.pprev b = some p) (k : ℕ) :
    T.walkBack b (k + 1) = T.walkBack p k := by
  rw [walkBack, hp]

/-- Walking back lands `k` blocks lower. -/
theorem height_of_walkBack : ∀ {b a : ι} {k : ℕ}, T.walkBack b k = some a →
    T.nHeight a + k = T.nHeight b
  | b, a, 0, h => by
    rw [walkBack, Option.some_inj] at h
    rw [h, Nat.add_zero]
  | b, a, k + 1, h => by
    rcases hp : T.pprev b with _ | p
    · rw [walkBack, hp] at h
      cases h
    · rw [walkBack_succ_of_pprev hp] at h
      rw [T.height_pprev b p hp, ← height_of_walkBack h]
      omega

/-- Down to the genesis block the walk always finds a block. -/
theorem walkBack_isSome : ∀ {b : ι} {k : ℕ}, k ≤ T.nHeight b → ∃ a, T.walkBack b k = some a
  | b, 0, _ => ⟨b, rfl⟩
  | b, k + 1, hk => by
    obtain ⟨p, hp⟩ := pprev_of_pos (T := T) (b := b) (by omega)
    rw [walkBack_succ_of_pprev hp]
    exact walkBack_isSome (by rw [T.height_pprev b p hp] at hk; omega)

theorem walkBack_add : ∀ (b : ι) (j k : ℕ),
    T.walkBack b (j + k) = (T.walkBack b j).bind fun a => T.walkBack a k
  | b, 0, k => by rw [Nat.zero_add]; rfl
  | b, j + 1, k => by
    rw [show j + 1 + k = j + k + 1 by omega]
    rcases hp : T.pprev b with _ | p
    · rw [walkBack, hp, walkBack, hp]
      rfl
    · rw [walkBack_succ_of_pprev hp, walkBack_succ_of_pprev hp, walkBack_add p j k]

/-- Two ancestors of one block at one height are the same block. -/
theorem IsAncestor.unique {a c c' : ι} (h : T.IsAncestor c a) (h' : T.IsAncestor c' a)
    (hheight : T.nHeight c = T.nHeight c') : c = c' := by
  obtain ⟨k, hk⟩ := h
  obtain ⟨k', hk'⟩ := h'
  have hkk : k = k' := by
    have := height_of_walkBack hk
    have := height_of_walkBack hk'
    omega
  subst hkk
  rw [hk] at hk'
  exact Option.some_inj.mp hk'

theorem IsAncestor.pprev {a x p : ι} (h : T.IsAncestor x a) (hp : T.pprev x = some p) :
    T.IsAncestor p a := by
  obtain ⟨k, hk⟩ := h
  refine ⟨k + 1, ?_⟩
  rw [walkBack_add, hk, Option.bind_some, walkBack_succ_of_pprev hp]
  rfl

theorem IsAncestor.refl (a : ι) : T.IsAncestor a a := ⟨0, rfl⟩

theorem IsAncestor.height_le {a c : ι} (h : T.IsAncestor c a) : T.nHeight c ≤ T.nHeight a := by
  obtain ⟨k, hk⟩ := h
  have := height_of_walkBack hk
  omega

/-! ### `GetAncestor` and `BuildSkip` -/

variable (T) in
/-- The loop of `CBlockIndex::GetAncestor` from `pindexWalk` at `heightWalk` down to `height`.
The skip pointer is followed when it lands on `height`, or above it without the parent's skip
pointer being the better jump; otherwise the walk takes `pprev`, which
`assert(pindexWalk->pprev)` requires. -/
def getAncestorLoop (height : ℕ) (pindexWalk : ι) (heightWalk : ℕ) : Except String ι :=
  if height < heightWalk then
    let heightSkip := GetSkipHeight heightWalk
    let heightSkipPrev := GetSkipHeight (heightWalk - 1)
    match T.pskip pindexWalk with
    | some pskip =>
      if heightSkip = height ∨
          (height < heightSkip ∧ ¬(heightSkipPrev + 2 < heightSkip ∧ height ≤ heightSkipPrev)) then
        getAncestorLoop height pskip heightSkip
      else
        match T.pprev pindexWalk with
        | some pprev => getAncestorLoop height pprev (heightWalk - 1)
        | none => .error "assert(pindexWalk->pprev)"
    | none =>
      match T.pprev pindexWalk with
      | some pprev => getAncestorLoop height pprev (heightWalk - 1)
      | none => .error "assert(pindexWalk->pprev)"
  else .ok pindexWalk
termination_by heightWalk
decreasing_by
  all_goals first
    | exact GetSkipHeight_lt (by omega)
    | omega

variable (T) in
/-- `CBlockIndex::GetAncestor`: `nullptr` for a height out of range. -/
def GetAncestor (b : ι) (height : ℤ) : Except String (Option ι) :=
  if height > T.nHeight b ∨ height < 0 then .ok none
  else (getAncestorLoop T height.toNat b (T.nHeight b)).map some

variable (T) in
/-- `CBlockIndex::BuildSkip`: the skip pointer it sets; a block without a parent keeps its own. -/
def BuildSkip (b : ι) : Except String (Option ι) :=
  match T.pprev b with
  | some pprev => T.GetAncestor pprev (GetSkipHeight (T.nHeight b))
  | none => .ok (T.pskip b)

variable (T) in
/-- Every skip pointer is what `BuildSkip` sets. -/
def SkipsBuilt : Prop := ∀ b, T.BuildSkip b = .ok (T.pskip b)

variable (T) in
/-- A skip pointer above the genesis block points to the ancestor at the skip height. -/
def SkipCorrect (b : ι) : Prop :=
  ∀ s, T.pskip b = some s → 0 < T.nHeight b →
    T.walkBack b (T.nHeight b - GetSkipHeight (T.nHeight b)) = some s

/-- The step to the parent: the loop continues one block down. -/
theorem getAncestorLoop_pprev {height heightWalk : ℕ} {pw p : ι} (hp : T.pprev pw = some p)
    {x : ι} (hrest : getAncestorLoop T height p (heightWalk - 1) = .ok x) :
    (match T.pprev pw with
      | some pprev => getAncestorLoop T height pprev (heightWalk - 1)
      | none => .error "assert(pindexWalk->pprev)") = .ok x := by
  rw [hp]
  exact hrest

/-- The walk of `GetAncestor` reaches the ancestor at `height`, where the skip pointers of the
blocks it passes are right. By strong induction on the height of the walk: the skip step and
the parent step each land on an ancestor, lower down. -/
theorem getAncestorLoop_eq {N : ℕ} (height : ℕ) (hsk : ∀ w, T.nHeight w ≤ N → T.SkipCorrect w) :
    ∀ (hw : ℕ) (pw : ι), T.nHeight pw = hw → hw ≤ N → height ≤ hw →
      ∃ x, T.walkBack pw (hw - height) = some x ∧ getAncestorLoop T height pw hw = .ok x := by
  intro hw
  induction hw using Nat.strong_induction_on with
  | _ hw ih =>
    intro pw hpw hN hle
    rw [getAncestorLoop]
    by_cases hlt : height < hw
    · rw [if_pos hlt]
      obtain ⟨p, hp⟩ := pprev_of_pos (T := T) (b := pw) (by omega)
      have hp' : T.nHeight p = hw - 1 := by rw [T.height_pprev pw p hp] at hpw; omega
      -- the parent step: one block down, by the induction hypothesis at `hw - 1`
      have hprev : ∃ x, T.walkBack pw (hw - height) = some x ∧
          getAncestorLoop T height p (hw - 1) = .ok x := by
        obtain ⟨x, hx, hloop⟩ := ih (hw - 1) (by omega) p hp' (by omega) (by omega)
        refine ⟨x, ?_, hloop⟩
        rw [show hw - height = hw - 1 - height + 1 by omega, walkBack_succ_of_pprev hp]
        exact hx
      rcases hs : T.pskip pw with _ | s
      · obtain ⟨x, hx, hloop⟩ := hprev
        exact ⟨x, hx, getAncestorLoop_pprev hp hloop⟩
      · dsimp only
        split_ifs with hcond
        · -- the skip step: the skip pointer is the ancestor at the skip height
          have hskipLt := GetSkipHeight_lt (n := hw) (by omega)
          have hge : height ≤ GetSkipHeight hw := by omega
          have hws := hsk pw (hpw ▸ hN) s hs (by omega)
          rw [hpw] at hws
          have hsh : T.nHeight s = GetSkipHeight hw := by
            have := height_of_walkBack hws
            omega
          obtain ⟨x, hx, hloop⟩ := ih (GetSkipHeight hw) hskipLt s hsh (by omega) hge
          refine ⟨x, ?_, hloop⟩
          rw [show hw - height = (hw - GetSkipHeight hw) + (GetSkipHeight hw - height) by omega,
            walkBack_add, hws, Option.bind_some, hx]
        · obtain ⟨x, hx, hloop⟩ := hprev
          exact ⟨x, hx, getAncestorLoop_pprev hp hloop⟩
    · rw [if_neg hlt]
      exact ⟨pw, by rw [show hw - height = 0 by omega]; rfl, rfl⟩

/-- A skip pointer set by `BuildSkip` is right, given that the skip pointers below it are: it
is the result of `GetAncestor` on the parent. By induction on the height. -/
theorem skipCorrect_of_skipsBuilt (hT : T.SkipsBuilt) :
    ∀ (N : ℕ) (w : ι), T.nHeight w ≤ N → T.SkipCorrect w
  | 0, w, hw => fun _ _ hpos => absurd hpos (by omega)
  | N + 1, w, hw => by
    by_cases hle : T.nHeight w ≤ N
    · exact skipCorrect_of_skipsBuilt hT N w hle
    intro s hs hpos
    obtain ⟨p, hp⟩ := pprev_of_pos hpos
    have hph := T.height_pprev w p hp
    have hskip := GetSkipHeight_lt (n := T.nHeight w) (by omega)
    obtain ⟨x, hx, hloop⟩ := getAncestorLoop_eq (GetSkipHeight (T.nHeight w))
      (skipCorrect_of_skipsBuilt hT N) (T.nHeight p) p rfl (by omega) (by omega)
    have hbuild := hT w
    simp only [BuildSkip, hp] at hbuild
    rw [GetAncestor, if_neg (by omega), Int.toNat_natCast, hloop, hs] at hbuild
    have hxs : x = s := Option.some_inj.mp (Except.ok.inj hbuild)
    rw [← hxs, show T.nHeight w - GetSkipHeight (T.nHeight w) =
      T.nHeight p - GetSkipHeight (T.nHeight w) + 1 by omega, walkBack_succ_of_pprev hp]
    exact hx

/-- `GetAncestor` returns the ancestor at the height asked, found by following `pprev`, and
`nullptr` for a height outside `[0, nHeight]`. -/
theorem GetAncestor_eq (hT : T.SkipsBuilt) (b : ι) (height : ℤ) :
    T.GetAncestor b height =
      .ok (if 0 ≤ height ∧ height ≤ T.nHeight b then T.walkBack b (T.nHeight b - height.toNat)
        else none) := by
  rw [GetAncestor]
  split_ifs with hout hin hin
  · omega
  · rfl
  · obtain ⟨x, hx, hloop⟩ := getAncestorLoop_eq height.toNat
      (skipCorrect_of_skipsBuilt hT (T.nHeight b)) (T.nHeight b) b rfl le_rfl (by omega)
    rw [hloop, hx]
    rfl
  · omega

/-- Below the genesis block there is nothing. -/
theorem walkBack_eq_none_of_lt {b : ι} {k : ℕ} (hk : T.nHeight b < k) : T.walkBack b k = none := by
  rcases h : T.walkBack b k with _ | a
  · rfl
  · have := height_of_walkBack h
    omega

/-- `GetAncestor` `k` blocks down is `walkBack`, `nullptr` below the genesis block included. -/
theorem GetAncestor_sub (hT : T.SkipsBuilt) (b : ι) (k : ℕ) :
    T.GetAncestor b (T.nHeight b - k) = .ok (T.walkBack b k) := by
  rw [GetAncestor_eq hT]
  split_ifs with hin
  · congr 2
    omega
  · rw [walkBack_eq_none_of_lt (by omega)]

/-- The converse of `skipCorrect_of_skipsBuilt`: skip pointers that are the ancestors at the skip
height are what `BuildSkip` sets. -/
theorem skipsBuilt_of_pskip (h : ∀ b p, T.pprev b = some p →
    T.pskip b = T.walkBack b (T.nHeight b - GetSkipHeight (T.nHeight b))) : T.SkipsBuilt := by
  have hsk : ∀ w, T.SkipCorrect w := by
    intro w s hs hpos
    obtain ⟨p, hp⟩ := pprev_of_pos hpos
    rw [← h w p hp, hs]
  intro b
  rcases hp : T.pprev b with _ | p
  · simp only [BuildSkip, hp]
  · have hph := T.height_pprev b p hp
    have hskip := GetSkipHeight_lt (n := T.nHeight b) (by omega)
    obtain ⟨x, hx, hloop⟩ := getAncestorLoop_eq (GetSkipHeight (T.nHeight b))
      (fun w _ => hsk w) (T.nHeight p) p rfl le_rfl (by omega)
    simp only [BuildSkip, hp]
    rw [GetAncestor, if_neg (by omega), Int.toNat_natCast, hloop, h b p hp,
      show T.nHeight b - GetSkipHeight (T.nHeight b) =
        T.nHeight p - GetSkipHeight (T.nHeight b) + 1 by omega, walkBack_succ_of_pprev hp, hx]
    rfl

/-! ### `LastCommonAncestor` -/

/-- The measure of the walk of `LastCommonAncestor`: one more than the height, and `0` past the
genesis block. -/
def walkMeasure (pa : Option ι) : ℕ := (pa.map fun a => T.nHeight a + 1).getD 0

theorem walkMeasure_pprev_lt (a : ι) : walkMeasure (T := T) (T.pprev a) < T.nHeight a + 1 := by
  rcases h : T.pprev a with _ | p
  · simp [walkMeasure]
  · simp [walkMeasure, T.height_pprev a p h]

variable (T) in
/-- The loop of `LastCommonAncestor`: `while (pa != pb && pa && pb)` both step to `pprev`. -/
def lcaLoop [DecidableEq ι] (pa pb : Option ι) : Option ι × Option ι :=
  match pa, pb with
  | some a, some b => if a = b then (some a, some b) else lcaLoop (T.pprev a) (T.pprev b)
  | pa, pb => (pa, pb)
termination_by walkMeasure (T := T) pa
decreasing_by exact walkMeasure_pprev_lt a

variable (T) in
/-- The first part of `LastCommonAncestor`: the higher block is brought down to the height of
the other with `GetAncestor`. -/
def equalizeHeights (pa pb : ι) : Except String (Option ι × Option ι) :=
  if T.nHeight pa > T.nHeight pb then
    (T.GetAncestor pa (T.nHeight pb)).map fun a => (a, some pb)
  else if T.nHeight pb > T.nHeight pa then
    (T.GetAncestor pb (T.nHeight pa)).map fun b => (some pa, b)
  else .ok (some pa, some pb)

variable (T) in
/-- `LastCommonAncestor`; `.error` where `assert(pa == pb)` fails. -/
def LastCommonAncestor [DecidableEq ι] (pa pb : ι) : Except String (Option ι) := do
  let p ← T.equalizeHeights pa pb
  let q := T.lcaLoop p.1 p.2
  -- eventually all chain branches meet at the genesis block
  if q.1 = q.2 then pure q.1 else throw "assert(pa == pb)"

/-- Both blocks come down to the lower height, to an ancestor each. -/
theorem equalizeHeights_spec (hT : T.SkipsBuilt) (pa pb : ι) :
    ∃ x y, T.equalizeHeights pa pb = .ok (some x, some y) ∧
      T.nHeight x = min (T.nHeight pa) (T.nHeight pb) ∧
      T.nHeight y = min (T.nHeight pa) (T.nHeight pb) ∧ T.IsAncestor x pa ∧ T.IsAncestor y pb := by
  -- the ancestor of `b` at a height `h` below it
  have hdown : ∀ (b : ι) (h : ℕ), h ≤ T.nHeight b → ∃ x, T.GetAncestor b h = .ok (some x) ∧
      T.nHeight x = h ∧ T.IsAncestor x b := fun b h hle => by
    obtain ⟨x, hx⟩ := walkBack_isSome (T := T) (b := b) (k := T.nHeight b - h) (by omega)
    have hxh := height_of_walkBack hx
    refine ⟨x, ?_, by omega, _, hx⟩
    rw [GetAncestor_eq hT, if_pos ⟨by omega, by omega⟩, Int.toNat_natCast, hx]
  rw [equalizeHeights]
  split_ifs with h₁ h₂
  · obtain ⟨x, hx, hxh, hxa⟩ := hdown pa (T.nHeight pb) (by omega)
    refine ⟨x, pb, by rw [hx]; rfl, by omega, by omega, hxa, .refl pb⟩
  · obtain ⟨y, hy, hyh, hyb⟩ := hdown pb (T.nHeight pa) (by omega)
    refine ⟨pa, y, by rw [hy]; rfl, by omega, by omega, .refl pa, hyb⟩
  · exact ⟨pa, pb, rfl, by omega, by omega, .refl pa, .refl pb⟩

/-- Stepping down together from two ancestors at one height finds the deepest common ancestor,
as long as no common ancestor lies above them. By induction on the height: where the two
differ, no common ancestor is at their height, and below the genesis block they cannot
differ. -/
theorem lcaLoop_spec [DecidableEq ι] {a b : ι} :
    ∀ (m : ℕ) (x y : ι), T.nHeight x = m → T.nHeight y = m → T.IsAncestor x a →
      T.IsAncestor y b → (∀ c', T.IsAncestor c' a → T.IsAncestor c' b → T.nHeight c' ≤ m) →
      ∃ c, T.lcaLoop (some x) (some y) = (some c, some c) ∧ T.IsLastCommonAncestor a b c := by
  intro m
  induction m with
  | zero =>
    intro x y hx hy hxa hyb hdeep
    have hxy := T.genesis_unique x y hx hy
    subst hxy
    rw [lcaLoop, if_pos rfl]
    exact ⟨x, rfl, hxa, hyb, fun c' ha hb => hx ▸ hdeep c' ha hb⟩
  | succ k ih =>
    intro x y hx hy hxa hyb hdeep
    by_cases hxy : x = y
    · subst hxy
      rw [lcaLoop, if_pos rfl]
      exact ⟨x, rfl, hxa, hyb, fun c' ha hb => hx ▸ hdeep c' ha hb⟩
    · -- different blocks at height `k + 1`: every common ancestor is lower
      obtain ⟨px, hpx⟩ := pprev_of_pos (T := T) (b := x) (by omega)
      obtain ⟨py, hpy⟩ := pprev_of_pos (T := T) (b := y) (by omega)
      have hpxh := T.height_pprev x px hpx
      have hpyh := T.height_pprev y py hpy
      have hdeep' : ∀ c', T.IsAncestor c' a → T.IsAncestor c' b → T.nHeight c' ≤ k := by
        intro c' ha hb
        rcases Nat.lt_or_ge (T.nHeight c') (k + 1) with h | h
        · omega
        · have hcx := ha.unique hxa (by have := hdeep c' ha hb; omega)
          have hcy := hb.unique hyb (by have := hdeep c' ha hb; omega)
          exact absurd (hcx.symm.trans hcy) hxy
      rw [lcaLoop, if_neg hxy, hpx, hpy]
      exact ih px py (by omega) (by omega) (hxa.pprev hpx) (hyb.pprev hpy) hdeep'

/-- `LastCommonAncestor` returns the deepest common ancestor, and its assertion holds. -/
theorem LastCommonAncestor_spec [DecidableEq ι] (hT : T.SkipsBuilt) (a b : ι) :
    ∃ c, T.LastCommonAncestor a b = .ok (some c) ∧ T.IsLastCommonAncestor a b c := by
  obtain ⟨x, y, heq, hx, hy, hxa, hyb⟩ := equalizeHeights_spec hT a b
  obtain ⟨c, hloop, hc⟩ := lcaLoop_spec (min (T.nHeight a) (T.nHeight b)) x y hx hy hxa hyb
    fun c' ha hb => le_min ha.height_le hb.height_le
  refine ⟨c, ?_, hc⟩
  rw [LastCommonAncestor, heq, except_ok_bind]
  simp only [hloop]
  rfl

/-! ### The median time past -/

/-- `nMedianTimeSpan`. -/
def nMedianTimeSpan : ℕ := 11

variable (T) in
/-- The loop of `GetMedianTimePast`: the times of a block and of its ancestors, `span` of them at
most, stopping below the genesis block. -/
def medianTimes (nTime : ι → UInt32) : Option ι → ℕ → List ℤ
  | _, 0 => []
  | none, _ + 1 => []
  | some b, span + 1 => ((nTime b).toNat : ℤ) :: medianTimes nTime (T.pprev b) span

variable (T) in
/-- `CBlockIndex::GetMedianTimePast`: the median of the last `nMedianTimeSpan` block times, the
upper of the two middle ones for an even count. -/
def GetMedianTimePast (nTime : ι → UInt32) (b : ι) : ℤ :=
  let times := (T.medianTimes nTime (some b) nMedianTimeSpan).insertionSort (· ≤ ·)
  times.getD (times.length / 2) 0

theorem nonneg_of_mem_medianTimes {nTime : ι → UInt32} :
    ∀ {b : Option ι} {span : ℕ} {x : ℤ}, x ∈ T.medianTimes nTime b span → 0 ≤ x
  | _, 0, _, h => by simp [medianTimes] at h
  | none, _ + 1, _, h => by simp [medianTimes] at h
  | some b, span + 1, x, h => by
    rw [medianTimes, List.mem_cons] at h
    rcases h with rfl | h
    · exact Int.natCast_nonneg _
    · exact nonneg_of_mem_medianTimes h

theorem lt_of_mem_medianTimes {nTime : ι → UInt32} :
    ∀ {b : Option ι} {span : ℕ} {x : ℤ}, x ∈ T.medianTimes nTime b span → x < 2 ^ 32
  | _, 0, _, h => by simp [medianTimes] at h
  | none, _ + 1, _, h => by simp [medianTimes] at h
  | some b, span + 1, x, h => by
    rw [medianTimes, List.mem_cons] at h
    rcases h with rfl | h
    · exact_mod_cast (nTime b).toNat_lt
    · exact lt_of_mem_medianTimes h

/-- Block times are `uint32_t`, so their median lies in `[0, 2 ^ 32)`. -/
theorem GetMedianTimePast_mem (nTime : ι → UInt32) (b : ι) :
    0 ≤ T.GetMedianTimePast nTime b ∧ T.GetMedianTimePast nTime b < 2 ^ 32 := by
  have hmem : ∀ x ∈ (T.medianTimes nTime (some b) nMedianTimeSpan).insertionSort (· ≤ ·),
      0 ≤ x ∧ x < 2 ^ 32 := fun x hx =>
    ⟨nonneg_of_mem_medianTimes ((List.mem_insertionSort _).mp hx),
      lt_of_mem_medianTimes ((List.mem_insertionSort _).mp hx)⟩
  rw [GetMedianTimePast]
  generalize (T.medianTimes nTime (some b) nMedianTimeSpan).insertionSort (· ≤ ·) = l at hmem ⊢
  rw [List.getD_eq_getElem?_getD]
  cases h : l[l.length / 2]? with
  | none => simp
  | some x => exact hmem x (List.mem_of_getElem? h)

end BlockTree

/-- The skip list only makes following `pprev` faster: the skip height is below the height, so
`GetAncestor`'s walk ends; `GetAncestor` finds the ancestor `pprev` leads to, or `nullptr` out
of range; and `LastCommonAncestor` finds the deepest common ancestor. -/
theorem skip_list_correct {ι : Type*} [DecidableEq ι] (T : BlockTree ι) (hT : T.SkipsBuilt) :
    (∀ n, 1 ≤ n → GetSkipHeight n < n) ∧
    (∀ (b : ι) (height : ℤ), T.GetAncestor b height =
      .ok (if 0 ≤ height ∧ height ≤ T.nHeight b then T.walkBack b (T.nHeight b - height.toNat)
        else none)) ∧
    ∀ a b : ι, ∃ c, T.LastCommonAncestor a b = .ok (some c) ∧ T.IsLastCommonAncestor a b c :=
  ⟨fun _ hn => GetSkipHeight_lt hn, BlockTree.GetAncestor_eq hT, BlockTree.LastCommonAncestor_spec hT⟩

theorem chain3_height_pprev : ∀ (b p : Fin 3),
    (![none, some 0, some 1] : Fin 3 → Option (Fin 3)) b = some p → (b : ℕ) = (p : ℕ) + 1 := by
  decide

theorem chain3_height_of_pprev_none : ∀ b : Fin 3,
    (![none, some 0, some 1] : Fin 3 → Option (Fin 3)) b = none → (b : ℕ) = 0 := by
  decide

theorem chain3_genesis_unique : ∀ g g' : Fin 3, (g : ℕ) = 0 → (g' : ℕ) = 0 → g = g' := by
  decide

/-- Three blocks in a row, with the skip pointers `BuildSkip` sets: both point to the genesis
block. -/
def chain3 : BlockTree (Fin 3) where
  pprev := ![none, some 0, some 1]
  pskip := ![none, some 0, some 0]
  nHeight := fun i => i.val
  height_pprev := chain3_height_pprev
  height_of_pprev_none := chain3_height_of_pprev_none
  genesis_unique := chain3_genesis_unique

theorem chain3_skipsBuilt : chain3.SkipsBuilt := by
  intro b
  fin_cases b
  · rfl
  · simp [BlockTree.BuildSkip, chain3, BlockTree.GetAncestor, GetSkipHeight]
    rw [BlockTree.getAncestorLoop]
    rfl
  · -- block 2 jumps from block 1 along its skip pointer
    simp [BlockTree.BuildSkip, chain3, BlockTree.GetAncestor, GetSkipHeight, InvertLowestOne]
    rw [BlockTree.getAncestorLoop]
    simp
    rw [BlockTree.getAncestorLoop]
    rfl

theorem skip_list_correct_chain3 : chain3.SkipsBuilt ∧
    ((∀ n, 1 ≤ n → GetSkipHeight n < n) ∧
    (∀ (b : Fin 3) (height : ℤ), chain3.GetAncestor b height =
      .ok (if 0 ≤ height ∧ height ≤ chain3.nHeight b then
        chain3.walkBack b (chain3.nHeight b - height.toNat) else none)) ∧
    ∀ a b : Fin 3, ∃ c, chain3.LastCommonAncestor a b = .ok (some c) ∧
      chain3.IsLastCommonAncestor a b c) :=
  ⟨chain3_skipsBuilt, skip_list_correct chain3 chain3_skipsBuilt⟩

/-! ### A chain of every length -/

/-- The parent in a chain of one block at each height, the block being its height. -/
def linearPrev : ℕ → Option ℕ
  | 0 => none
  | n + 1 => some n

/-- The skip pointer `BuildSkip` sets in that chain. -/
def linearSkip : ℕ → Option ℕ
  | 0 => none
  | n + 1 => some (GetSkipHeight (n + 1))

theorem linearPrev_eq_some {b p : ℕ} (h : linearPrev b = some p) : b = p + 1 := by
  cases b with
  | zero => cases h
  | succ n => rw [linearPrev, Option.some_inj] at h; rw [h]

theorem linearPrev_eq_none {b : ℕ} (h : linearPrev b = none) : b = 0 := by
  cases b with
  | zero => rfl
  | succ n => cases h

theorem linear_genesis_unique (g g' : ℕ) (hg : g = 0) (hg' : g' = 0) : g = g' := hg.trans hg'.symm

/-- The chain of one block at each height. -/
def linearChain : BlockTree ℕ where
  pprev := linearPrev
  pskip := linearSkip
  nHeight := id
  height_pprev _ _ := linearPrev_eq_some
  height_of_pprev_none _ := linearPrev_eq_none
  genesis_unique := linear_genesis_unique

theorem linearChain_walkBack : ∀ (b k : ℕ),
    linearChain.walkBack b k = if k ≤ b then some (b - k) else none
  | b, 0 => by simp [BlockTree.walkBack]
  | 0, k + 1 => rfl
  | b + 1, k + 1 => by
    rw [BlockTree.walkBack_succ_of_pprev (T := linearChain) (p := b) rfl, linearChain_walkBack b k]
    simp only [Nat.add_le_add_iff_right, Nat.add_sub_add_right]

theorem linearChain_skipsBuilt : linearChain.SkipsBuilt := by
  apply BlockTree.skipsBuilt_of_pskip
  intro b p hp
  obtain rfl := linearPrev_eq_some hp
  have hlt := GetSkipHeight_lt (n := p + 1) (by omega)
  change linearSkip (p + 1) = _
  rw [linearSkip, linearChain_walkBack, if_pos (by simp [linearChain])]
  simp only [linearChain, id, Option.some_inj]
  omega

end HydraNode
