import Mathlib

/-!
# Merkle roots with the last node doubled

The root of a list of hashes, computed level by level: a level hashes neighbouring pairs, and
a level of odd length pairs its last element with itself. Because of the doubling, two lists can
share a root: `[a, b, c]` and `[a, b, c, c]` have the same levels from the first on. The
computation therefore also reports whether some level paired two equal neighbours; such a list
is called mutated.

For a pair hash `f` that is injective and never yields a leaf, the root determines a list that
is not mutated up to an extension by its own elements: a list with the same root is the first
followed by elements of the first (`eq_append_of_computeRoot_eq`). The list with the same root
may itself be mutated, as `[a, b, c, c]` is. The proof goes through the depth of a hash, the
number of levels above the leaves it was computed at, which the hypotheses make unique.

## Main definitions

* `Merkle.level`, `Merkle.levelMutated`
* `Merkle.computeRoot` — the root, and whether a level was mutated
* `Merkle.Depth`

## Main results

* `Merkle.computeRoot_of_length_le_one`, `Merkle.computeRoot_of_two_le` — the equations of the
  loop
* `Merkle.eq_append_of_level_eq_append` — one level determines the level below up to an
  extension
* `Merkle.eq_append_of_computeRoot_eq`
-/

namespace Merkle

open Function

variable {α : Type*} (f : α → α → α)

/-- One level up: neighbouring pairs hashed, the last element of an odd level paired with
itself. -/
def level : List α → List α
  | [] => []
  | [a] => [f a a]
  | a :: b :: t => f a b :: level t

@[simp]
theorem length_level : ∀ l : List α, (level f l).length = (l.length + 1) / 2
  | [] => by simp [level]
  | [_] => by simp [level]
  | _ :: _ :: t => by
    simp only [level, List.length_cons, length_level t]
    omega

theorem level_ne_nil {l : List α} (h : l ≠ []) : level f l ≠ [] :=
  List.ne_nil_of_length_pos (by
    have := List.length_pos_iff.mpr h
    simp only [length_level]
    omega)

variable {f}

/-- Every element of a list is an argument of a hash of the level above it. -/
theorem exists_mem_level_of_mem : ∀ {l : List α} {x : α}, x ∈ l →
    ∃ u v, f u v ∈ level f l ∧ (x = u ∨ x = v)
  | [a], x, hx => by
    simp only [List.mem_singleton] at hx
    exact ⟨a, a, by simp [level], .inl hx⟩
  | a :: b :: t, x, hx => by
    simp only [List.mem_cons] at hx
    rcases hx with rfl | rfl | hx
    · exact ⟨x, b, by simp [level], .inl rfl⟩
    · exact ⟨a, x, by simp [level], .inr rfl⟩
    · obtain ⟨u, v, huv, hx⟩ := exists_mem_level_of_mem hx
      exact ⟨u, v, by simp [level, huv], hx⟩

/-- What holds of the arguments of every hash of the level above holds of the list. -/
theorem forall_mem_of_level {L : α → Prop} {l : List α}
    (hL : ∀ u v, f u v ∈ level f l → L u ∧ L v) : ∀ x ∈ l, L x := by
  intro x hx
  obtain ⟨u, v, huv, hxu | hxv⟩ := exists_mem_level_of_mem (f := f) hx
  · exact hxu ▸ (hL u v huv).1
  · exact hxv ▸ (hL u v huv).2

/-- The arguments of a hash of a level are elements of the level below. -/
theorem mem_of_mem_level (hf : Injective2 f) : ∀ {l : List α} {u v : α}, f u v ∈ level f l →
    u ∈ l ∧ v ∈ l
  | [a], u, v, h => by
    simp only [level, List.mem_singleton] at h
    obtain ⟨rfl, rfl⟩ := hf.eq_iff.mp h
    simp
  | a :: b :: t, u, v, h => by
    simp only [level, List.mem_cons] at h
    rcases h with h | h
    · obtain ⟨rfl, rfl⟩ := hf.eq_iff.mp h
      simp
    · obtain ⟨hu, hv⟩ := mem_of_mem_level hf h
      simp [hu, hv]

/-! ## Depth -/

section depth

variable (f) (Leaf : α → Prop)

/-- `Depth k x`: `x` is the hash of a perfect tree of height `k` whose leaves satisfy
`Leaf`. -/
inductive Depth : ℕ → α → Prop
  | leaf {x : α} : Leaf x → Depth 0 x
  | node {k : ℕ} {a b : α} : Depth k a → Depth k b → Depth (k + 1) (f a b)

variable {f Leaf}

/-- With an injective hash that never yields a leaf, a hash has one depth. -/
theorem Depth.unique (hf : Injective2 f) (hleaf : ∀ a b, ¬Leaf (f a b)) {j k : ℕ} {x : α}
    (hj : Depth f Leaf j x) (hk : Depth f Leaf k x) : j = k := by
  induction hj generalizing k with
  | leaf hx =>
    cases hk with
    | leaf _ => rfl
    | node _ _ => exact absurd hx (hleaf _ _)
  | @node k' a b _ _ iha _ =>
    generalize hx : f a b = y at hk
    cases hk with
    | leaf hy => exact absurd (hx ▸ hy) (hleaf a b)
    | node hc _ =>
      obtain ⟨rfl, rfl⟩ := hf.eq_iff.mp hx
      rw [iha hc]

theorem depth_level {k : ℕ} : ∀ {l : List α}, (∀ x ∈ l, Depth f Leaf k x) →
    ∀ y ∈ level f l, Depth f Leaf (k + 1) y
  | [], _, _, hy => by simp [level] at hy
  | [a], hl, _, hy => by
    have ha := hl a (by simp)
    simp only [level, List.mem_singleton] at hy
    exact hy ▸ .node ha ha
  | a :: b :: t, hl, y, hy => by
    simp only [level, List.mem_cons] at hy
    rcases hy with rfl | hy
    · exact .node (hl a (by simp)) (hl b (by simp))
    · exact depth_level (fun x hx => hl x (by simp [hx])) y hy

end depth

/-! ## The levels by height -/

/-- The level `k` steps above the leaves. -/
def levels (f : α → α → α) (l : List α) : ℕ → List α
  | 0 => l
  | k + 1 => level f (levels f l k)

theorem levels_succ' (l : List α) : ∀ k, levels f l (k + 1) = levels f (level f l) k
  | 0 => rfl
  | k + 1 => by rw [levels, levels_succ' l k, levels]

/-- The number of nodes `k` levels up: the number of leaves divided by `2 ^ k`, rounded up. -/
theorem length_levels (l : List α) : ∀ k, (levels f l k).length = (l.length + 2 ^ k - 1) / 2 ^ k
  | 0 => by simp [levels]
  | k + 1 => by
    have hpos : 0 < 2 ^ k := Nat.two_pow_pos k
    rw [levels, length_level, length_levels l k, ← Nat.add_div_right _ hpos,
      Nat.div_div_eq_div_mul, pow_succ]
    congr 1
    omega

/-- A node of a level hashes the two nodes below it, the last node of an odd level with
itself. -/
theorem getD_level (z : α) : ∀ (l : List α) (i : ℕ), i < (l.length + 1) / 2 →
    (level f l).getD i z = f (l.getD (2 * i) z)
      (if 2 * i + 1 < l.length then l.getD (2 * i + 1) z else l.getD (2 * i) z)
  | [], _, h => by simp at h
  | [a], i, h => by
    obtain rfl : i = 0 := by simp at h; omega
    simp [level]
  | a :: b :: t, 0, _ => by simp [level]
  | a :: b :: t, i + 1, h => by
    simp only [List.length_cons] at h
    rw [level, List.getD_cons_succ, getD_level z t i (by omega),
      show 2 * (i + 1) = 2 * i + 1 + 1 by omega, List.getD_cons_succ, List.getD_cons_succ,
      List.getD_cons_succ, List.getD_cons_succ]
    simp only [List.length_cons, Nat.add_lt_add_iff_right]


/-! ## The loop -/

variable (f) [DecidableEq α]

/-- Whether a level pairs two equal neighbours. -/
def levelMutated : List α → Bool
  | a :: b :: t => decide (a = b) || levelMutated t
  | _ => false

/-- The loop of the root computation, for at most `n` more levels, with the mutation flag so
far. -/
def rootLoop : ℕ → List α → Bool → List α × Bool
  | 0, hs, m => (hs, m)
  | n + 1, hs, m =>
    if hs.length ≤ 1 then (hs, m) else rootLoop n (level f hs) (m || levelMutated hs)

/-- The root of `hs`, `z` for the empty list, and whether a level was mutated. A level at least
halves a list of two or more, so `hs.length` rounds of the loop are enough. -/
def computeRoot (z : α) (hs : List α) : α × Bool :=
  let r := rootLoop f hs.length hs false
  (r.1.headD z, r.2)

/-- The flag the loop starts with is or-ed into its result. -/
theorem rootLoop_flag : ∀ (n : ℕ) (hs : List α) (m : Bool),
    rootLoop f n hs m = ((rootLoop f n hs false).1, m || (rootLoop f n hs false).2)
  | 0, _, _ => by simp [rootLoop]
  | n + 1, hs, m => by
    by_cases h : hs.length ≤ 1
    · simp [rootLoop, h]
    · simp only [rootLoop, h, if_false, Bool.false_or]
      rw [rootLoop_flag n _ (m || _), rootLoop_flag n _ (levelMutated hs), Bool.or_assoc]

/-- Once the list is short enough for the fuel, more fuel changes nothing. -/
theorem rootLoop_succ : ∀ {n : ℕ} {hs : List α}, hs.length ≤ n + 1 → ∀ m,
    rootLoop f (n + 1) hs m = rootLoop f n hs m
  | 0, hs, h, m => by simp [rootLoop, h]
  | n + 1, hs, h, m => by
    by_cases h₁ : hs.length ≤ 1
    · simp [rootLoop, h₁]
    · have hlev : (level f hs).length ≤ n + 1 := by simp only [length_level]; omega
      rw [rootLoop, if_neg h₁, rootLoop_succ hlev, rootLoop, if_neg h₁]

theorem rootLoop_fuel {n : ℕ} (n' : ℕ) {hs : List α} (h : hs.length ≤ n + 1) (h' : n ≤ n')
    (m : Bool) : rootLoop f n' hs m = rootLoop f n hs m := by
  induction n', h' using Nat.le_induction with
  | base => rfl
  | succ k hk ih => rw [rootLoop_succ f (by omega), ih]

theorem computeRoot_of_length_le_one {z : α} {hs : List α} (h : hs.length ≤ 1) :
    computeRoot f z hs = (hs.headD z, false) := by
  match hs, h with
  | [], _ => rfl
  | [_], _ => rfl

/-- Two leaves hash to their pair, which is mutated when they are equal. -/
theorem computeRoot_pair (z a b : α) : computeRoot f z [a, b] = (f a b, decide (a = b)) := by
  simp [computeRoot, rootLoop, level, levelMutated]

/-- A list of two or more has the root of the level above it, and is mutated when that level
or one above it is. -/
theorem computeRoot_of_two_le {z : α} {hs : List α} (h : 2 ≤ hs.length) :
    computeRoot f z hs =
      ((computeRoot f z (level f hs)).1,
        levelMutated hs || (computeRoot f z (level f hs)).2) := by
  obtain ⟨n, hn⟩ : ∃ n, hs.length = n + 1 := ⟨hs.length - 1, by omega⟩
  have hfuel : rootLoop f n (level f hs) (levelMutated hs) =
      rootLoop f (level f hs).length (level f hs) (levelMutated hs) :=
    rootLoop_fuel f n (Nat.le_succ _) (by simp only [length_level]; omega) _
  simp only [computeRoot, hn, rootLoop, show ¬n + 1 ≤ 1 by omega, if_false, Bool.false_or, hfuel]
  rw [rootLoop_flag f _ _ (levelMutated hs)]

section depth

variable {f} {Leaf : α → Prop}

/-- The root of a non-empty list of depth `k` has depth `k` plus the number of levels, the
least `d` with `l.length ≤ 2 ^ d`. -/
theorem depth_computeRoot {z : α} {k : ℕ} {l : List α} (hl : ∀ x ∈ l, Depth f Leaf k x)
    (hne : l ≠ []) : Depth f Leaf (k + Nat.clog 2 l.length) (computeRoot f z l).1 := by
  induction hlen : l.length using Nat.strong_induction_on generalizing k l with
  | _ n ih =>
    by_cases h : l.length ≤ 1
    · obtain ⟨x, rfl⟩ : ∃ x, l = [x] := by
        match l, h, hne with
        | [x], _, _ => exact ⟨x, rfl⟩
      rw [computeRoot_of_length_le_one f h, ← hlen]
      simpa using hl x (by simp)
    · have hlev : (level f l).length < n := by simp only [length_level]; omega
      have hdepth := ih _ hlev (depth_level hl) (level_ne_nil f hne) rfl
      rw [computeRoot_of_two_le f (by omega), ← hlen, Nat.clog_of_two_le (by omega) (by omega)]
      rw [length_level, show l.length + 2 - 1 = l.length + 1 by omega] at *
      rwa [show k + (Nat.clog 2 ((l.length + 1) / 2) + 1) =
        k + 1 + Nat.clog 2 ((l.length + 1) / 2) by omega]

end depth

/-- The root of a non-empty list is the one node `Nat.clog 2` of its length levels up. -/
theorem computeRoot_eq_getD_levels {z : α} {l : List α} (hne : l ≠ []) :
    (computeRoot f z l).1 = (levels f l (Nat.clog 2 l.length)).getD 0 z := by
  induction hlen : l.length using Nat.strong_induction_on generalizing l with
  | _ n ih =>
    by_cases h : l.length ≤ 1
    · obtain ⟨x, rfl⟩ : ∃ x, l = [x] := by
        match l, h, hne with
        | [x], _, _ => exact ⟨x, rfl⟩
      rw [← hlen, computeRoot_of_length_le_one f h, Nat.clog_of_right_le_one h]
      rfl
    · have hlev : (level f l).length < n := by simp only [length_level]; omega
      rw [computeRoot_of_two_le f (by omega), ih _ hlev (level_ne_nil f hne) rfl, ← hlen,
        Nat.clog_of_two_le (n := l.length) (by omega) (by omega), levels_succ', length_level,
        show l.length + 2 - 1 = l.length + 1 by omega]

/-! ## Recovering a list from its root -/

variable {f}

/-- One level determines an unmutated level below it up to an extension: a list whose level
is `level f l₁` followed by hashes of elements satisfying `L` is `l₁` followed by such
elements. The induction follows the pairs of `l₁`. -/
theorem eq_append_of_level_eq_append (hf : Injective2 f) {L : α → Prop} :
    ∀ {l₁ l₂ s' : List α}, (∀ x ∈ l₁, L x) → levelMutated l₁ = false →
      (∀ u v, f u v ∈ s' → L u ∧ L v) → level f l₂ = level f l₁ ++ s' →
      ∃ s, l₂ = l₁ ++ s ∧ ∀ x ∈ s, L x
  | [], l₂, s', _, _, hs', h =>
    -- every element of `l₂` is an argument of a hash in `s'`
    ⟨l₂, rfl, forall_mem_of_level (f := f) fun u v huv => hs' u v (by simpa [h, level] using huv)⟩
  | [a], l₂, s', hl, _, hs', h => by
    match l₂, h with
    | [c], h =>
      simp only [level, List.singleton_append, List.cons.injEq] at h
      obtain ⟨⟨rfl, -⟩, rfl⟩ := And.imp_left hf.eq_iff.mp h
      exact ⟨[], rfl, by simp⟩
    | c :: d :: t, h =>
      simp only [level, List.singleton_append, List.cons.injEq] at h
      obtain ⟨⟨hc, hd⟩, ht⟩ := And.imp_left hf.eq_iff.mp h
      refine ⟨a :: t, by rw [hc, hd]; rfl, fun x hx => ?_⟩
      simp only [List.mem_cons] at hx
      rcases hx with rfl | hx
      · exact hl x (by simp)
      · exact forall_mem_of_level (fun u v huv => hs' u v (ht ▸ huv)) x hx
  | a :: b :: t₁, l₂, s', hl, hmut, hs', h => by
    simp only [levelMutated, Bool.or_eq_false_iff, decide_eq_false_iff_not] at hmut
    match l₂, h with
    | [c], h =>
      -- the doubled last element would pair `a` with `b = a`
      simp only [level, List.cons_append, List.cons.injEq] at h
      obtain ⟨⟨rfl, rfl⟩, -⟩ := And.imp_left hf.eq_iff.mp h
      exact absurd rfl hmut.1
    | c :: d :: t₂, h =>
      simp only [level, List.cons_append, List.cons.injEq] at h
      obtain ⟨⟨rfl, rfl⟩, ht⟩ := And.imp_left hf.eq_iff.mp h
      obtain ⟨s, rfl, hs⟩ :=
        eq_append_of_level_eq_append hf (fun x hx => hl x (by simp [hx])) hmut.2 hs' ht
      exact ⟨s, rfl, hs⟩

/-- A list has no level above it exactly when it has at most one element. -/
theorem clog_eq_zero_iff {n : ℕ} : Nat.clog 2 n = 0 ↔ n ≤ 1 := by
  refine ⟨fun h => ?_, fun h => Nat.clog_of_right_le_one h 2⟩
  by_contra hn
  have := Nat.clog_pos (b := 2) (n := n) (by norm_num) (by omega)
  omega

section root

variable {Leaf : α → Prop} (hf : Injective2 f) (hleaf : ∀ a b, ¬Leaf (f a b))
include hf hleaf

/-- Two non-empty lists of one depth with the same root, the first not mutated: the second is
the first followed by elements of the first. The induction is on the length of the first,
level by level; depth rules out roots of lists with different numbers of levels. -/
theorem eq_append_of_computeRoot_eq {z : α} {k : ℕ} {l₁ l₂ : List α}
    (h₁ : ∀ x ∈ l₁, Depth f Leaf k x) (h₂ : ∀ x ∈ l₂, Depth f Leaf k x)
    (hne₁ : l₁ ≠ []) (hne₂ : l₂ ≠ []) (hmut : (computeRoot f z l₁).2 = false)
    (h : (computeRoot f z l₁).1 = (computeRoot f z l₂).1) :
    ∃ s, l₂ = l₁ ++ s ∧ ∀ x ∈ s, x ∈ l₁ := by
  induction hlen : l₁.length using Nat.strong_induction_on generalizing k l₁ l₂ with
  | _ n ih =>
    have hlevels : Nat.clog 2 l₁.length = Nat.clog 2 l₂.length := by
      have := (depth_computeRoot (z := z) h₁ hne₁).unique hf hleaf
        (h ▸ depth_computeRoot (z := z) h₂ hne₂)
      omega
    -- both lists have a level above them, or neither has
    have hiff : l₁.length ≤ 1 ↔ l₂.length ≤ 1 := by
      rw [← clog_eq_zero_iff, ← clog_eq_zero_iff, hlevels]
    have hpos₁ := List.length_pos_iff.mpr hne₁
    have hpos₂ := List.length_pos_iff.mpr hne₂
    by_cases hl₁ : l₁.length ≤ 1
    · have hl₂ := hiff.mp hl₁
      rw [computeRoot_of_length_le_one f hl₁, computeRoot_of_length_le_one f hl₂] at h
      obtain ⟨x, rfl⟩ := (List.length_eq_one_iff (l := l₁)).mp (by omega)
      obtain ⟨y, rfl⟩ := (List.length_eq_one_iff (l := l₂)).mp (by omega)
      exact ⟨[], by simpa using h.symm, by simp⟩
    · have hl₂ : 2 ≤ l₂.length := by
        have := hiff.not.mp hl₁
        omega
      rw [computeRoot_of_two_le f (by omega)] at hmut h
      rw [computeRoot_of_two_le f hl₂] at h
      simp only [Bool.or_eq_false_iff] at hmut
      obtain ⟨s', hs', hmem⟩ := ih _ (by simp only [length_level]; omega) (depth_level h₁)
        (depth_level h₂) (level_ne_nil f hne₁) (level_ne_nil f hne₂) hmut.2 h rfl
      exact eq_append_of_level_eq_append hf (fun x hx => hx) hmut.1
        (fun u v huv => mem_of_mem_level hf (hmem _ huv)) hs'

end root

end Merkle
