import Mathlib

/-!
# Alternating sums of non-increasing terms, and halving sequences

For a sequence `t` of natural numbers, `altTail t j m` is the alternating sum
`t j - t (j + 1) + t (j + 2) - ⋯ ± t (j + m)`. When the terms do not increase from `j` on, every
such sum lies between `0` and its first term (`altTail_mem`): an alternating series is bracketed
by its partial sums, here for finite sums and with no limit taken. A sequence that at least
halves at each step from `j` on is at most `t j / 2 ^ m` at `j + m` (`mul_two_pow_le`), so it
reaches `0` once `2 ^ m` passes `t j` (`eq_zero_of_lt_two_pow`).

## Main definitions

* `Series.altTail`

## Main results

* `Series.altTail_succ` — the alternating sum grown at its far end
* `Series.altTail_mem` — the bracket `0 ≤ altTail t j m ≤ t j`
* `Series.mul_two_pow_le`, `Series.eq_zero_of_lt_two_pow`
-/

namespace Series

variable (t : ℕ → ℕ)

/-- `t j - t (j + 1) + ⋯ ± t (j + m)`, split off at its first term. -/
def altTail (j : ℕ) : ℕ → ℤ
  | 0 => t j
  | m + 1 => t j - altTail (j + 1) m

@[simp] theorem altTail_zero (j : ℕ) : altTail t j 0 = t j := rfl

theorem altTail_succ_left (j m : ℕ) : altTail t j (m + 1) = t j - altTail t (j + 1) m := rfl

/-- The alternating sum grown at its far end. By induction on the length. -/
theorem altTail_succ : ∀ (j m : ℕ),
    altTail t j (m + 1) = altTail t j m + (-1) ^ (m + 1) * t (j + m + 1)
  | j, 0 => by
    rw [altTail_succ_left, altTail_zero, altTail_zero, Nat.add_zero]
    ring
  | j, m + 1 => by
    rw [altTail_succ_left, altTail_succ j.succ m, altTail_succ_left,
      show j.succ + m + 1 = j + (m + 1) + 1 by omega]
    ring

variable {t}

/-- The bracket: with terms that do not increase from `j` on, the alternating sum from `j` is
at least `0` and at most its first term. By induction on the length, the sum from `j + 1` lying
in `[0, t (j + 1)]`. -/
theorem altTail_mem {j : ℕ} (hanti : ∀ k, j ≤ k → t (k + 1) ≤ t k) :
    ∀ m, 0 ≤ altTail t j m ∧ altTail t j m ≤ t j := by
  intro m
  induction m generalizing j with
  | zero => simp
  | succ m ih =>
    obtain ⟨h0, h1⟩ := ih (j := j + 1) fun k hk => hanti k (by omega)
    have hj : (t (j + 1) : ℤ) ≤ t j := by exact_mod_cast hanti j le_rfl
    rw [altTail_succ_left]
    constructor <;> omega

/-- A sequence that at least halves at each step from `j` on. -/
theorem mul_two_pow_le {j : ℕ} (hhalf : ∀ k, j ≤ k → 2 * t (k + 1) ≤ t k) :
    ∀ m, t (j + m) * 2 ^ m ≤ t j
  | 0 => by simp
  | m + 1 => by
    have h := mul_two_pow_le hhalf m
    have hstep := hhalf (j + m) (by omega)
    calc t (j + (m + 1)) * 2 ^ (m + 1) = 2 * t (j + m + 1) * 2 ^ m := by
          rw [pow_succ, ← Nat.add_assoc]; ring
      _ ≤ t (j + m) * 2 ^ m := Nat.mul_le_mul_right _ hstep
      _ ≤ t j := h

theorem eq_zero_of_lt_two_pow {j m : ℕ} (hhalf : ∀ k, j ≤ k → 2 * t (k + 1) ≤ t k)
    (hlt : t j < 2 ^ m) : t (j + m) = 0 := by
  have h := mul_two_pow_le hhalf m
  by_contra hne
  have : 2 ^ m ≤ t (j + m) * 2 ^ m := Nat.le_mul_of_pos_left _ (Nat.pos_of_ne_zero hne)
  omega

end Series
