import HydraNode.Arith.Compact
import HydraNode.Lib.Loop
import HydraNode.Lib.Series

/-!
# The proof-of-stake difficulty retarget

`CalculateNextWorkRequired` (`pow.cpp`) computes the next target from the last one, `T`, and the
spacing between the last two blocks. Before `QIP9Height`, or when `CheckQIP9BlockTimeDiff` holds
(`ignore`), it scales `T` by `(6 S + 2 A) / (8 S)` with the target spacing `S` and the actual
spacing `A` capped at `10 S`; after it, `mul_exp` multiplies `T` by a truncated Taylor series of
`exp (p / q)`, `p = 2 (A - S) / (mask + 1)` with `A` capped at `20 S`. A result that is `0` or above
the limit becomes the limit, and `GetCompact` encodes it.

`mul_exp` sums the terms `aₙ₊₁ = ⌊⌊aₙ |p| / q⌋ / (n + 1)⌋`, subtracting the odd ones when `p < 0`,
until a term is `0`. Its model `mulExpLoop` runs on `arith_uint256` as the source does; `expTerm`
and `expSum` are the same terms and partial sums in `ℕ` and `ℤ`, where nothing wraps. The terms
fall at least by half from the third on while `2 |p| ≤ 3 q`, so they vanish by index `258`, and
`mul_exp_eq` shows that then `mul_exp` returns the exact partial sum: no intermediate wraps and
the loop ends.

The linear branch does not keep its direction for the smallest target: at `T = 1` and a spacing
below `S` the product rounds down to `0`, which becomes the limit (`retarget_one_jumps_to_limit`).
From `T = 2` on, on mainnet and testnet both branches move the target the right way and
monotonically in the capped spacing, and the result stays in `(0, posLimit]`
(`pos_retarget_direction_and_range`). The two networks share the spacings, timespans and masks
and differ in `nReduceBlocktimeHeight` and `posLimit`; `PowParams.Qtum` is what they share, with a
`posLimit` below `2 ^ 240`, under which nothing in the retarget wraps.

`CheckQIP9BlockTimeDiff` is not modelled: its answer is the input `ignore`. Heights are natural
numbers and block times integers; the `int64_t` arithmetic on times of `uint32_t` range is exact.

## Main definitions

* `mul_exp`, `CalculateNextWorkRequired`, `mainnetPowParams`, `testnetPowParams`, `PowParams.Qtum`
* `expTerm`, `expSum` — the series in exact arithmetic

## Main results

* `mul_exp_eq` — `mul_exp` computes the exact partial sum
* `pos_retarget_direction_and_range`
-/

namespace HydraNode

open base_uint

/-! ## `mul_exp` -/

/-- The next term of `mul_exp`: the term times the truncated factor, divided by `q` (given as the
divisor `bq` it becomes), then by the counter. -/
def mulExpNext (abs_p : UInt64) (bq a : arith_uint256) (n : UInt64) :
    Except String arith_uint256 :=
  -- `a * abs_p` is `operator*(const base_uint&, uint32_t)`, so the factor is truncated to 32 bits;
  -- the counter becomes a divisor through `base_uint(uint64_t)`
  (a.mulU32 abs_p.toUInt32).div bq >>= fun a => a.div (ofUInt64 n)

theorem ofUInt64_toNat_ne_zero_of_mulExpNext {abs_p : UInt64} {bq a b : arith_uint256}
    {n : UInt64} (h : mulExpNext abs_p bq a n = .ok b) : n.toNat ≠ 0 := by
  obtain ⟨x, -, hx⟩ := except_bind_eq_ok_iff.mp h
  have := toNat_ne_zero_of_div_eq_ok hx
  rwa [toNat_ofUInt64 (by norm_num)] at this

/-- The loop of `mul_exp` from the term `a`, the sum `result` and the counter `n`, dividing by
`bq`. Once the counter wraps to `0` the division by it throws, so the loop ends before. -/
def mulExpLoop (abs_p : UInt64) (bq : arith_uint256) (isNegative : Bool)
    (a result : arith_uint256) (n : UInt64) : Except String arith_uint256 :=
  if a.CompareTo zero > 0 then
    match h : mulExpNext abs_p bq a (n + 1) with
    | .ok a' =>
      mulExpLoop abs_p bq isNegative a'
        (if isNegative && (n + 1) % 2 == 1 then result.sub a' else result.add a') (n + 1)
    | .error e => .error e
  else .ok result
termination_by 2 ^ 64 - n.toNat
decreasing_by
  have hne := ofUInt64_toNat_ne_zero_of_mulExpNext h
  rw [UInt64.toNat_add, UInt64.toNat_one] at hne ⊢
  have hlt := n.toNat_lt
  have hmod : (n.toNat + 1) % 2 ^ 64 = n.toNat + 1 := by
    apply Nat.mod_eq_of_lt
    by_contra hge
    have : n.toNat + 1 = 2 ^ 64 := by omega
    rw [this, Nat.mod_self] at hne
    exact hne rfl
  rw [hmod]
  omega

/-- `mul_exp(a, p, q)`: `a * exp(p / q)` "where `|p / q|` is small". -/
def mul_exp (a : arith_uint256) (p q : ℤ) : Except String arith_uint256 :=
  let isNegative := decide (p < 0)
  let abs_p : UInt64 := UInt64.ofInt (if p ≥ 0 then p else -p)
  -- `/ q` converts the `int64_t` through `uint64_t` to `base_uint`
  mulExpLoop abs_p (ofUInt64 (UInt64.ofInt q)) isNegative a a 0

/-! ## The series in exact arithmetic -/

/-- The terms `mul_exp` adds: `a₀ = a`, `aₙ₊₁ = ⌊⌊aₙ P / q⌋ / (n + 1)⌋`. -/
def expTerm (a P q : ℕ) : ℕ → ℕ
  | 0 => a
  | n + 1 => expTerm a P q n * P / q / (n + 1)

/-- The partial sums of the terms, the odd ones subtracted for a negative exponent. -/
def expSum (a P q : ℕ) (isNegative : Bool) : ℕ → ℤ
  | 0 => a
  | n + 1 =>
    if isNegative && (n + 1) % 2 == 1 then expSum a P q isNegative n - expTerm a P q (n + 1)
    else expSum a P q isNegative n + expTerm a P q (n + 1)

section Series

variable {a P q : ℕ} {isNegative : Bool}

@[simp] theorem expTerm_zero : expTerm a P q 0 = a := rfl

theorem expTerm_succ (n : ℕ) : expTerm a P q (n + 1) = expTerm a P q n * P / q / (n + 1) := rfl

theorem expTerm_one : expTerm a P q 1 = a * P / q := by
  rw [expTerm_succ, expTerm_zero, Nat.zero_add, Nat.div_one]

/-- After a zero term every term is zero. -/
theorem expTerm_add_eq_zero {k : ℕ} (h : expTerm a P q k = 0) :
    ∀ m, expTerm a P q (k + m) = 0
  | 0 => h
  | m + 1 => by
    rw [← Nat.add_assoc, expTerm_succ, expTerm_add_eq_zero h m, Nat.zero_mul, Nat.zero_div,
      Nat.zero_div]

/-- After a zero term the partial sums stay where they are. -/
theorem expSum_add_of_expTerm_eq_zero {k : ℕ} (h : expTerm a P q k = 0) :
    ∀ m, expSum a P q isNegative (k + m) = expSum a P q isNegative k
  | 0 => rfl
  | m + 1 => by
    have hz := expTerm_add_eq_zero h (m + 1)
    rw [← Nat.add_assoc] at hz ⊢
    rw [expSum, hz, expSum_add_of_expTerm_eq_zero h m]
    split <;> simp

/-- One step of the terms, without the floors. -/
theorem expTerm_succ_mul_le (n : ℕ) :
    expTerm a P q (n + 1) * (q * (n + 1)) ≤ expTerm a P q n * P := by
  rw [expTerm_succ, Nat.div_div_eq_div_mul]
  exact Nat.div_mul_le_self _ _

/-- With `2 P ≤ 3 q` the term at `n + 1` is at most `3 / (2 (n + 1))` of the one before. -/
theorem expTerm_succ_ratio (hq : 0 < q) (hP : 2 * P ≤ 3 * q) (n : ℕ) :
    2 * (n + 1) * expTerm a P q (n + 1) ≤ 3 * expTerm a P q n := by
  have h := expTerm_succ_mul_le (a := a) (P := P) (q := q) n
  have hmul : 2 * (n + 1) * expTerm a P q (n + 1) * q ≤ 3 * expTerm a P q n * q :=
    calc 2 * (n + 1) * expTerm a P q (n + 1) * q
        = 2 * (expTerm a P q (n + 1) * (q * (n + 1))) := by ring
      _ ≤ 2 * (expTerm a P q n * P) := Nat.mul_le_mul_left _ h
      _ = expTerm a P q n * (2 * P) := by ring
      _ ≤ expTerm a P q n * (3 * q) := Nat.mul_le_mul_left _ hP
      _ = 3 * expTerm a P q n * q := by ring
  exact Nat.le_of_mul_le_mul_right hmul hq

/-- From the second term on the terms do not increase. -/
theorem expTerm_succ_le (hq : 0 < q) (hP : 2 * P ≤ 3 * q) {n : ℕ} (hn : 1 ≤ n) :
    expTerm a P q (n + 1) ≤ expTerm a P q n := by
  have h := expTerm_succ_ratio (a := a) hq hP n
  have : 4 * expTerm a P q (n + 1) ≤ 2 * (n + 1) * expTerm a P q (n + 1) :=
    Nat.mul_le_mul_right _ (by omega)
  omega

/-- From the third term on the terms at least halve. -/
theorem two_mul_expTerm_succ_le (hq : 0 < q) (hP : 2 * P ≤ 3 * q) {n : ℕ} (hn : 2 ≤ n) :
    2 * expTerm a P q (n + 1) ≤ expTerm a P q n := by
  have h := expTerm_succ_ratio (a := a) hq hP n
  have : 6 * expTerm a P q (n + 1) ≤ 2 * (n + 1) * expTerm a P q (n + 1) :=
    Nat.mul_le_mul_right _ (by omega)
  omega

/-- Every term is at most twice the first. -/
theorem expTerm_le (hq : 0 < q) (hP : 2 * P ≤ 3 * q) : ∀ n, expTerm a P q n ≤ 2 * a
  | 0 => by rw [expTerm_zero]; omega
  | 1 => by have := expTerm_succ_ratio (a := a) hq hP 0; simp at this ⊢; omega
  | n + 2 => (expTerm_succ_le hq hP (by omega)).trans (expTerm_le hq hP (n + 1))

/-- The terms vanish by index `258`. -/
theorem expTerm_258 (hq : 0 < q) (hP : 2 * P ≤ 3 * q) (ha : a < 2 ^ 255) :
    expTerm a P q 258 = 0 :=
  Series.eq_zero_of_lt_two_pow (t := expTerm a P q) (j := 2) (m := 256)
    (fun _ hk => two_mul_expTerm_succ_le hq hP hk)
    (by have := expTerm_le (a := a) hq hP 2; omega)

/-! ### A positive exponent -/

theorem le_expSum_false : ∀ n, (a : ℤ) ≤ expSum a P q false n
  | 0 => le_rfl
  | n + 1 => by
    have := le_expSum_false n
    simp only [expSum, Bool.false_and, Bool.false_eq_true, if_false]
    omega

/-- The sum with the last term counted twice does not grow from the third term on. -/
theorem expSum_false_add_le (hq : 0 < q) (hP : 2 * P ≤ 3 * q) : ∀ n, 2 ≤ n →
    expSum a P q false n + expTerm a P q n ≤
      a + expTerm a P q 1 + 2 * expTerm a P q 2
  | 0, h | 1, h => absurd h (by omega)
  | 2, _ => by
    simp only [expSum, Bool.false_and, Bool.false_eq_true, if_false]
    push_cast
    omega
  | n + 3, _ => by
    have ih := expSum_false_add_le hq hP (n + 2) (by omega)
    have hhalf := two_mul_expTerm_succ_le (a := a) hq hP (n := n + 2) (by omega)
    rw [show n + 3 = n + 2 + 1 from rfl, expSum]
    simp only [Bool.false_and, Bool.false_eq_true, if_false]
    omega

/-- The partial sums of a positive exponent stay below `6 a`. -/
theorem expSum_false_le (hq : 0 < q) (hP : 2 * P ≤ 3 * q) (n : ℕ) :
    expSum a P q false n ≤ 6 * a := by
  have h1 : 2 * expTerm a P q 1 ≤ 3 * a := by
    have := expTerm_succ_ratio (a := a) hq hP 0; simpa using this
  have h2 := expTerm_succ_le (a := a) hq hP (n := 1) le_rfl
  match n with
  | 0 => simp only [expSum]; omega
  | 1 => simp only [expSum, Bool.false_and, Bool.false_eq_true, if_false]; push_cast; omega
  | n + 2 =>
    have := expSum_false_add_le (a := a) hq hP (n + 2) (by omega)
    push_cast at this h1 h2 ⊢
    omega

theorem expTerm_mono_P {P' : ℕ} (hPP : P ≤ P') : ∀ n, expTerm a P q n ≤ expTerm a P' q n
  | 0 => le_rfl
  | n + 1 => by
    rw [expTerm_succ, expTerm_succ]
    exact Nat.div_le_div_right (Nat.div_le_div_right
      (Nat.mul_le_mul (expTerm_mono_P hPP n) hPP))

/-- A larger positive exponent gives larger partial sums. -/
theorem expSum_false_mono {P' : ℕ} (hPP : P ≤ P') :
    ∀ n, expSum a P q false n ≤ expSum a P' q false n
  | 0 => le_rfl
  | n + 1 => by
    have ih := expSum_false_mono hPP n
    have ht := expTerm_mono_P (a := a) (q := q) hPP (n + 1)
    simp only [expSum, Bool.false_and, Bool.false_eq_true, if_false]
    omega

/-! ### A negative exponent -/

/-- With `P ≤ q` no term exceeds the one before. -/
theorem expTerm_succ_le_of_le (hq : 0 < q) (hP : P ≤ q) (n : ℕ) :
    expTerm a P q (n + 1) ≤ expTerm a P q n := by
  have h := expTerm_succ_mul_le (a := a) (P := P) (q := q) n
  have : expTerm a P q (n + 1) * q ≤ expTerm a P q n * q :=
    calc expTerm a P q (n + 1) * q ≤ expTerm a P q (n + 1) * (q * (n + 1)) :=
          Nat.mul_le_mul_left _ (Nat.le_mul_of_pos_right _ (by omega))
      _ ≤ expTerm a P q n * P := h
      _ ≤ expTerm a P q n * q := Nat.mul_le_mul_left _ hP
  exact Nat.le_of_mul_le_mul_right this hq

/-- The sums of a negative exponent are `a` minus the alternating sum from the first term. -/
theorem expSum_true_succ : ∀ m,
    expSum a P q true (m + 1) = a - Series.altTail (expTerm a P q) 1 m
  | 0 => by simp [expSum]
  | m + 1 => by
    rw [expSum, expSum_true_succ m, Series.altTail_succ, show 1 + m + 1 = m + 1 + 1 by omega]
    rcases Nat.even_or_odd m with ⟨r, hr⟩ | ⟨r, hr⟩
    · have hodd : (m + 1 + 1) % 2 = 0 := by omega
      simp only [Bool.true_and, hodd, beq_iff_eq, Nat.zero_ne_one, if_false]
      rw [show m + 1 = 2 * r + 1 by omega, pow_succ, pow_mul]
      norm_num
      ring
    · have hodd : (m + 1 + 1) % 2 = 1 := by omega
      simp only [Bool.true_and, hodd, beq_self_eq_true, if_true]
      rw [show m + 1 = 2 * (r + 1) by omega, pow_mul]
      norm_num
      ring

/-- Every partial sum of a negative exponent lies between `a - a₁` and `a`. -/
theorem expSum_true_mem (hq : 0 < q) (hP : P ≤ q) (n : ℕ) :
    (a : ℤ) - expTerm a P q 1 ≤ expSum a P q true n ∧ expSum a P q true n ≤ a := by
  match n with
  | 0 => simp [expSum]
  | m + 1 =>
    obtain ⟨h0, h1⟩ := Series.altTail_mem (t := expTerm a P q) (j := 1)
      (fun k _ => expTerm_succ_le_of_le hq hP k) m
    rw [expSum_true_succ]
    constructor <;> omega

/-- From the second term on, a partial sum of a negative exponent is at most `a - a₁ + a₂`. -/
theorem expSum_true_le_of_two_le (hq : 0 < q) (hP : P ≤ q) {n : ℕ} (hn : 2 ≤ n) :
    expSum a P q true n ≤ a - expTerm a P q 1 + expTerm a P q 2 := by
  obtain ⟨m, rfl⟩ : ∃ m, n = m + 2 := ⟨n - 2, by omega⟩
  obtain ⟨-, h1⟩ := Series.altTail_mem (t := expTerm a P q) (j := 2)
    (fun k _ => expTerm_succ_le_of_le hq hP k) m
  rw [expSum_true_succ, Series.altTail_succ_left]
  simp only [Nat.reduceAdd] at h1 ⊢
  omega

/-- A negative exponent one larger in size gives a smaller sum while `(P + 1)² ≤ q`: the first
term grows by at least `⌊a / q⌋`, and the second term of the larger exponent is at most that. -/
theorem expSum_true_succ_le (hq : 0 < q) (hsq : (P + 1) * (P + 1) ≤ q) {n n' : ℕ} (hn : 2 ≤ n) :
    expSum a (P + 1) q true n ≤ expSum a P q true n' := by
  have hP1 : P + 1 ≤ q := le_trans (Nat.le_mul_of_pos_right _ (by omega)) hsq
  have hle := expSum_true_le_of_two_le (a := a) hq hP1 hn
  have hge := (expSum_true_mem (a := a) hq (by omega : P ≤ q) n').1
  -- the first terms: `⌊a P / q⌋ + ⌊a / q⌋ ≤ ⌊a (P + 1) / q⌋`
  have hx : expTerm a P q 1 + a / q ≤ expTerm a (P + 1) q 1 := by
    rw [expTerm_one, expTerm_one, Nat.mul_succ]
    exact Nat.div_add_div_le_add_div
  -- the second term: `a₁ (P + 1) ≤ a (P + 1)² / q ≤ a`
  have hu : expTerm a (P + 1) q 2 ≤ a / q := by
    have hprod : expTerm a (P + 1) q 1 * (P + 1) ≤ a :=
      calc expTerm a (P + 1) q 1 * (P + 1) = (P + 1) * (a * (P + 1) / q) := by
            rw [expTerm_one, Nat.mul_comm]
        _ ≤ (P + 1) * (a * (P + 1)) / q := Nat.mul_div_le_mul_div_assoc _ _ _
        _ ≤ a * q / q := Nat.div_le_div_right (by
            calc (P + 1) * (a * (P + 1)) = a * ((P + 1) * (P + 1)) := by ring
              _ ≤ a * q := Nat.mul_le_mul_left _ hsq)
        _ = a := Nat.mul_div_cancel a hq
    calc expTerm a (P + 1) q 2 = expTerm a (P + 1) q 1 * (P + 1) / q / 2 := rfl
      _ ≤ expTerm a (P + 1) q 1 * (P + 1) / q := Nat.div_le_self _ _
      _ ≤ a / q := Nat.div_le_div_right hprod
  omega

/-- A negative exponent of larger size gives a smaller sum, while its square is at most `q`. -/
theorem expSum_true_anti (hq : 0 < q) {P' : ℕ} (hPP : P ≤ P') (hsq : P' * P' ≤ q) {n : ℕ}
    (hn : 2 ≤ n) : expSum a P' q true n ≤ expSum a P q true n := by
  induction P', hPP using Nat.le_induction with
  | base => exact le_rfl
  | succ P' hPP ih =>
    have hsq' : P' * P' ≤ q := le_trans (Nat.mul_le_mul (by omega) (by omega)) hsq
    exact (expSum_true_succ_le hq hsq hn).trans (ih hsq')

/-! ### Every intermediate fits in 256 bits -/

/-- No product of a term by `P` reaches `2 ^ 256` when `a (2 P + 6) < 2 ^ 256`. -/
theorem expTerm_mul_lt (hq : 0 < q) (hP : 2 * P ≤ 3 * q) (ha : a * (2 * P + 6) < 2 ^ 256)
    (k : ℕ) : expTerm a P q k * P < 2 ^ 256 := by
  have hsplit : a * (2 * P + 6) = 2 * a * P + 6 * a := by ring
  calc expTerm a P q k * P ≤ 2 * a * P := Nat.mul_le_mul_right _ (expTerm_le hq hP k)
    _ < 2 ^ 256 := by omega

/-- The partial sums stay in `[0, 2 ^ 256)`: in `[a - a₁, a]` for a negative exponent and in
`[a, 6 a]` otherwise. -/
theorem expSum_mem_range (hq : 0 < q) (hP : 2 * P ≤ 3 * q) (hneg : isNegative = true → P ≤ q)
    (ha : 6 * a < 2 ^ 256) (k : ℕ) :
    0 ≤ expSum a P q isNegative k ∧ expSum a P q isNegative k < 2 ^ 256 := by
  cases isNegative with
  | true =>
    obtain ⟨h0, h1⟩ := expSum_true_mem (a := a) hq (hneg rfl) k
    have h1a : expTerm a P q 1 ≤ a := expTerm_succ_le_of_le hq (hneg rfl) 0
    constructor <;> omega
  | false =>
    have h0 := le_expSum_false (a := a) (P := P) (q := q) k
    have h1 := expSum_false_le (a := a) hq hP k
    constructor <;> omega

end Series

/-! ## `mul_exp` computes the series -/

section Machine

variable (abs_p : UInt64) (bq : arith_uint256) (isNegative : Bool)

theorem UInt64.mod_two_beq_one (x : UInt64) : (x % 2 == 1) = (x.toNat % 2 == 1) := by
  rw [Bool.eq_iff_iff]
  simp only [beq_iff_eq, ← UInt64.toNat_inj, UInt64.toNat_mod]
  rfl

/-- The next term, when the product does not wrap. -/
theorem mulExpNext_eq {Q : ℕ} (hQ : bq.toNat = Q) (hQpos : 0 < Q) {a : arith_uint256}
    {n : UInt64} (hmul : a.toNat * abs_p.toUInt32.toNat < 2 ^ 256) (hn : n.toNat ≠ 0) :
    ∃ a', mulExpNext abs_p bq a n = .ok a' ∧
      a'.toNat = a.toNat * abs_p.toUInt32.toNat / Q / n.toNat := by
  have hprod : (a.mulU32 abs_p.toUInt32).toNat = a.toNat * abs_p.toUInt32.toNat := by
    rw [toNat_mulU32]
    exact Nat.mod_eq_of_lt hmul
  obtain ⟨x, hx, hxv⟩ := div_eq (a.mulU32 abs_p.toUInt32) bq (by omega)
  obtain ⟨y, hy, hyv⟩ := div_eq x (ofUInt64 n : arith_uint256)
    (by rwa [toNat_ofUInt64 (by norm_num)])
  refine ⟨y, ?_, ?_⟩
  · rw [mulExpNext, hx, except_ok_bind, hy]
  · rw [hyv, hxv, hprod, hQ, toNat_ofUInt64 (by norm_num)]

/-- The loop ends at a zero term. -/
theorem mulExpLoop_of_eq_zero {a result : arith_uint256} {n : UInt64} (h : a.toNat = 0) :
    mulExpLoop abs_p bq isNegative a result n = .ok result := by
  rw [mulExpLoop, if_neg]
  rw [gt_iff_lt, CompareTo_pos_iff, toNat_zero, h]
  exact Nat.lt_irrefl 0

/-- One pass of the loop at a positive term. -/
theorem mulExpLoop_of_next {a a' result : arith_uint256} {n : UInt64} (hpos : 0 < a.toNat)
    (hnext : mulExpNext abs_p bq a (n + 1) = .ok a') :
    mulExpLoop abs_p bq isNegative a result n =
      mulExpLoop abs_p bq isNegative a'
        (if isNegative && (n + 1) % 2 == 1 then result.sub a' else result.add a') (n + 1) := by
  rw [mulExpLoop, if_pos (by rw [gt_iff_lt, CompareTo_pos_iff, toNat_zero]; exact hpos)]
  split
  · rename_i b heq
    rw [hnext] at heq
    cases heq
    rfl
  · rename_i e heq
    rw [hnext] at heq
    cases heq

/-- The sum the loop carries, one step on, when it does not wrap. -/
theorem toNat_mulExpSum {A P Q k : ℕ} {result a' : arith_uint256} {n : UInt64}
    (hk : n.toNat = k + 1) (hr : (result.toNat : ℤ) = expSum A P Q isNegative k)
    (ha' : a'.toNat = expTerm A P Q (k + 1))
    (hS : 0 ≤ expSum A P Q isNegative (k + 1) ∧ expSum A P Q isNegative (k + 1) < 2 ^ 256) :
    (((if isNegative && n % 2 == 1 then result.sub a' else result.add a').toNat : ℕ) : ℤ) =
      expSum A P Q isNegative (k + 1) := by
  rw [UInt64.mod_two_beq_one, hk]
  rw [expSum] at hS ⊢
  by_cases hc : (isNegative && (k + 1) % 2 == 1) = true
  · rw [if_pos hc] at hS
    rw [if_pos hc, if_pos hc, toNat_sub, hr, ha', show ((2 ^ (32 * (256 / 32)) : ℕ) : ℤ) = 2 ^ 256 by norm_num]
    exact Int.emod_eq_of_lt hS.1 hS.2
  · rw [if_neg hc] at hS
    rw [if_neg hc, if_neg hc]
    have hlt : result.toNat + a'.toNat < 2 ^ 256 := by omega
    rw [toNat_add, show 32 * (256 / 32) = 256 from rfl, Nat.mod_eq_of_lt hlt]
    push_cast
    rw [hr, ha']

/-- The loop from the term at `k`, the sum at `k` and the counter `k`, up to a zero term at
`k + d`, returns the sum at `k + d`, where no product or sum wraps. By induction on `d`; the loop
stops earlier at an earlier zero term, after which the sums do not change. -/
theorem mulExpLoop_run {A P Q : ℕ} (hP : abs_p.toUInt32.toNat = P) (hQ : bq.toNat = Q)
    (hQpos : 0 < Q) (hterm : ∀ k, expTerm A P Q k * P < 2 ^ 256)
    (hsum : ∀ k, 0 ≤ expSum A P Q isNegative k ∧ expSum A P Q isNegative k < 2 ^ 256) :
    ∀ d k (a result : arith_uint256) (n : UInt64), n.toNat = k → k + d < 2 ^ 64 →
      expTerm A P Q (k + d) = 0 → a.toNat = expTerm A P Q k →
      (result.toNat : ℤ) = expSum A P Q isNegative k →
      ∃ r, mulExpLoop abs_p bq isNegative a result n = .ok r ∧
        (r.toNat : ℤ) = expSum A P Q isNegative (k + d) := by
  intro d
  induction d with
  | zero =>
    intro k a result n _ _ hz ha hr
    exact ⟨result, mulExpLoop_of_eq_zero abs_p bq isNegative (ha.trans hz), hr⟩
  | succ d ih =>
    intro k a result n hn hkd hz ha hr
    by_cases h0 : a.toNat = 0
    · -- an earlier zero term: the sums stay put from `k` on
      refine ⟨result, mulExpLoop_of_eq_zero abs_p bq isNegative h0, ?_⟩
      rw [hr, expSum_add_of_expTerm_eq_zero (ha ▸ h0)]
    have hn1 : (n + 1).toNat = k + 1 := by
      rw [UInt64.toNat_add, UInt64.toNat_one, hn]
      exact Nat.mod_eq_of_lt (by omega)
    obtain ⟨a', hnext, ha'⟩ := mulExpNext_eq abs_p bq hQ hQpos (a := a) (n := n + 1)
      (by rw [hP, ha]; exact hterm k) (by omega)
    have ha'k : a'.toNat = expTerm A P Q (k + 1) := by
      rw [ha', hP, ha, hn1, expTerm_succ]
    rw [mulExpLoop_of_next abs_p bq isNegative (by omega) hnext]
    rw [show k + (d + 1) = k + 1 + d by omega] at hz hkd ⊢
    exact ih (k + 1) a' _ (n + 1) hn1 hkd hz ha'k
      (toNat_mulExpSum isNegative hn1 hr ha'k (hsum (k + 1)))

end Machine

/-- The factor `mul_exp` multiplies by is `|p|`, for `|p| < 2 ^ 32`. -/
theorem toNat_abs_p {p : ℤ} (hp : p.natAbs < 2 ^ 32) :
    (UInt64.ofInt (if p ≥ 0 then p else -p)).toUInt32.toNat = p.natAbs := by
  simp only [UInt64.toNat_toUInt32, UInt64.ofInt, UInt64.toNat_ofNat']
  split_ifs <;> omega

/-- `mul_exp` returns the exact partial sum of its series at index `258`, where the terms have
ended, when `2 |p| ≤ 3 q`, `|p| ≤ q` for a negative `p`, and `a (2 |p| + 6) < 2 ^ 256`: then no
product and no partial sum wraps, and the loop stops at the first zero term. -/
theorem mul_exp_eq (a : arith_uint256) (p q : ℤ) (hq : 0 < q) (hq64 : q < 2 ^ 64)
    (hp32 : p.natAbs < 2 ^ 32) (hP : 2 * p.natAbs ≤ 3 * q.toNat)
    (hneg : p < 0 → p.natAbs ≤ q.toNat) (ha : a.toNat * (2 * p.natAbs + 6) < 2 ^ 256) :
    expTerm a.toNat p.natAbs q.toNat 258 = 0 ∧
    ∃ r, mul_exp a p q = .ok r ∧
      (r.toNat : ℤ) = expSum a.toNat p.natAbs q.toNat (decide (p < 0)) 258 := by
  have hQ : 0 < q.toNat := by omega
  have hsplit : a.toNat * (2 * p.natAbs + 6) = 2 * a.toNat * p.natAbs + 6 * a.toNat := by ring
  have hz : expTerm a.toNat p.natAbs q.toNat 258 = 0 := expTerm_258 hQ hP (by omega)
  refine ⟨hz, ?_⟩
  exact mulExpLoop_run _ _ (decide (p < 0)) (toNat_abs_p hp32)
    ((toNat_ofUInt64_ofInt (by norm_num) q).trans (by omega)) hQ (expTerm_mul_lt hQ hP ha)
    (expSum_mem_range hQ hP (fun h => hneg (of_decide_eq_true h)) (by omega)) 258 0 a a 0 rfl
    (by norm_num) hz rfl rfl

/-! ## The retarget -/

/-- What the retarget reads of `Consensus::Params`. -/
structure PowParams where
  powLimit : arith_uint256
  posLimit : arith_uint256
  QIP9Height : ℕ
  nReduceBlocktimeHeight : ℕ
  nPowTargetTimespan : ℤ
  nPowTargetTimespanV2 : ℤ
  nRBTPowTargetTimespan : ℤ
  nRBTPowTargetTimespanV2 : ℤ
  nPowTargetSpacing : ℤ
  nRBTPowTargetSpacing : ℤ
  nStakeTimestampMask : UInt32
  nRBTStakeTimestampMask : UInt32
  fPowNoRetargeting : Bool
  fPoSNoRetargeting : Bool

namespace PowParams

variable (params : PowParams)

/-- `Consensus::Params::TargetSpacing`. -/
def TargetSpacing (height : ℕ) : ℤ :=
  if height < params.nReduceBlocktimeHeight then params.nPowTargetSpacing
  else params.nRBTPowTargetSpacing

/-- `Consensus::Params::TargetTimespan`. -/
def TargetTimespan (height : ℕ) (ignore : Bool) : ℤ :=
  if height < params.QIP9Height then params.nPowTargetTimespan
  else if params.QIP9Height ≤ height ∧ height < params.nReduceBlocktimeHeight then
    if ignore then params.nPowTargetTimespan else params.nPowTargetTimespanV2
  else if ignore then params.nRBTPowTargetTimespan else params.nRBTPowTargetTimespanV2

/-- `Consensus::Params::DifficultyAdjustmentInterval`, an `int64_t` division. -/
def DifficultyAdjustmentInterval (height : ℕ) (ignore : Bool) : ℤ :=
  (params.TargetTimespan height ignore).tdiv (params.TargetSpacing height)

/-- `Consensus::Params::StakeTimestampMask`, read into a `uint32_t`. -/
def StakeTimestampMask (height : ℕ) : UInt32 :=
  if height < params.nReduceBlocktimeHeight then params.nStakeTimestampMask
  else params.nRBTStakeTimestampMask

/-- `GetLimit` (`pow.cpp`); its height argument is unused. -/
def GetLimit (fProofOfStake : Bool) : arith_uint256 :=
  if fProofOfStake then params.posLimit else params.powLimit

end PowParams

/-- The mainnet values (`chainparams.cpp`): `posLimit = 2 ^ 224 - 1`, `powLimit = 2 ^ 240 - 1`. -/
def mainnetPowParams : PowParams where
  powLimit := ⟨[0xffffffff, 0xffffffff, 0xffffffff, 0xffffffff, 0xffffffff, 0xffffffff,
    0xffffffff, 0x0000ffff], rfl⟩
  posLimit := ⟨[0xffffffff, 0xffffffff, 0xffffffff, 0xffffffff, 0xffffffff, 0xffffffff,
    0xffffffff, 0], rfl⟩
  QIP9Height := 5500
  nReduceBlocktimeHeight := 477300
  nPowTargetTimespan := 16 * 60
  nPowTargetTimespanV2 := 4000
  nRBTPowTargetTimespan := 4 * 60
  nRBTPowTargetTimespanV2 := 1000
  nPowTargetSpacing := 2 * 64
  nRBTPowTargetSpacing := 32
  nStakeTimestampMask := 15
  nRBTStakeTimestampMask := 3
  fPowNoRetargeting := true
  fPoSNoRetargeting := false

/-- The testnet values: those of mainnet but for `nReduceBlocktimeHeight = 270200` and
`posLimit = 2 ^ 240 - 1`. -/
def testnetPowParams : PowParams :=
  { mainnetPowParams with
    nReduceBlocktimeHeight := 270200
    posLimit := ⟨[0xffffffff, 0xffffffff, 0xffffffff, 0xffffffff, 0xffffffff, 0xffffffff,
      0xffffffff, 0x0000ffff], rfl⟩ }

/-- The retarget parameters the networks share (`CChainParams`): the spacings `128` and `32`, the
timespans, the masks `15` and `3`, `QIP9Height = 5500` before `nReduceBlocktimeHeight`, and
proof-of-stake retargeting on; and a positive `posLimit` below `2 ^ 240`. -/
structure PowParams.Qtum (params : PowParams) : Prop where
  QIP9Height_eq : params.QIP9Height = 5500
  QIP9Height_le : params.QIP9Height ≤ params.nReduceBlocktimeHeight
  nPowTargetTimespan_eq : params.nPowTargetTimespan = 16 * 60
  nPowTargetTimespanV2_eq : params.nPowTargetTimespanV2 = 4000
  nRBTPowTargetTimespan_eq : params.nRBTPowTargetTimespan = 4 * 60
  nRBTPowTargetTimespanV2_eq : params.nRBTPowTargetTimespanV2 = 1000
  nPowTargetSpacing_eq : params.nPowTargetSpacing = 2 * 64
  nRBTPowTargetSpacing_eq : params.nRBTPowTargetSpacing = 32
  nStakeTimestampMask_eq : params.nStakeTimestampMask = 15
  nRBTStakeTimestampMask_eq : params.nRBTStakeTimestampMask = 3
  fPoSNoRetargeting_eq : params.fPoSNoRetargeting = false
  posLimit_pos : 0 < (params.GetLimit true).toNat
  posLimit_lt : (params.GetLimit true).toNat < 2 ^ 240

theorem mainnetPowParams_qtum : mainnetPowParams.Qtum :=
  ⟨rfl, by decide, rfl, rfl, rfl, rfl, rfl, rfl, rfl, rfl, rfl, by decide, by decide⟩

theorem testnetPowParams_qtum : testnetPowParams.Qtum :=
  ⟨rfl, by decide, rfl, rfl, rfl, rfl, rfl, rfl, rfl, rfl, rfl, by decide, by decide⟩

/-- The two caps each branch puts on the actual spacing: a negative spacing counts as the target
spacing, and a spacing above `cap` target spacings as `cap` of them. -/
def clampSpacing (nTargetSpacing nActualSpacing cap : ℤ) : ℤ :=
  let nActualSpacing := if nActualSpacing < 0 then nTargetSpacing else nActualSpacing
  if nActualSpacing > nTargetSpacing * cap then nTargetSpacing * cap else nActualSpacing

/-- The branch before `QIP9Height`: `bnNew *= (nInterval - 1) * S + 2 A; bnNew /= (nInterval + 1) S`.
-/
def retargetLinear (bnNew : arith_uint256) (nTargetSpacing nActualSpacing nInterval : ℤ) :
    Except String arith_uint256 :=
  let nActualSpacing := clampSpacing nTargetSpacing nActualSpacing 10
  -- `bnNew *= int64_t` is `operator*=(uint32_t)`: the factor is converted to 32 bits
  let bnNew := bnNew.mulU32
    (UInt32.ofInt ((nInterval - 1) * nTargetSpacing + nActualSpacing + nActualSpacing))
  bnNew.div (ofUInt64 (UInt64.ofInt ((nInterval + 1) * nTargetSpacing)))

/-- The branch from `QIP9Height` on: `mul_exp` with the spacing capped at `20 S`. The mask plus
one is a `uint32_t`; the `int64_t` divisions by it truncate. -/
def retargetExp (bnNew : arith_uint256) (nTargetSpacing nActualSpacing nInterval : ℤ)
    (stakeTimestampMask : UInt32) : Except String arith_uint256 :=
  let nActualSpacing := clampSpacing nTargetSpacing nActualSpacing 20
  let m : ℤ := (stakeTimestampMask + 1).toNat
  mul_exp bnNew ((2 * (nActualSpacing - nTargetSpacing)).tdiv m)
    (((nInterval + 1) * nTargetSpacing).tdiv m)

/-- The branch `CalculateNextWorkRequired` takes at `nHeight`, on the decoded `bnNew`. -/
def retargetBranch (params : PowParams) (nHeight : ℕ) (ignore : Bool) (bnNew : arith_uint256)
    (nActualSpacing : ℤ) : Except String arith_uint256 :=
  let nTargetSpacing := params.TargetSpacing nHeight
  let nInterval := params.DifficultyAdjustmentInterval nHeight ignore
  if nHeight < params.QIP9Height ∨ ignore = true then
    retargetLinear bnNew nTargetSpacing nActualSpacing nInterval
  else
    retargetExp bnNew nTargetSpacing nActualSpacing nInterval (params.StakeTimestampMask nHeight)

/-- The end of `CalculateNextWorkRequired`: a target that is `0` or above the limit becomes the
limit, and `GetCompact` encodes it; a failed assertion of `GetCompact` is an error. -/
def finishRetarget (bnTargetLimit bnNew : arith_uint256) : Except String UInt32 :=
  let bnNew := if bnNew.CompareTo zero ≤ 0 ∨ bnNew.CompareTo bnTargetLimit > 0 then bnTargetLimit
    else bnNew
  match GetCompact bnNew false with
  | some nCompact => .ok nCompact
  | none => .error "GetCompact: assertion failed"

/-- `CalculateNextWorkRequired(pindexLast, nFirstBlockTime, params, fProofOfStake)`, with the
height, `nBits` and block time of `pindexLast`, and `ignore` standing for
`CheckQIP9BlockTimeDiff(pindexLast)`. -/
def CalculateNextWorkRequired (params : PowParams) (nHeightLast : ℕ) (nBits : UInt32)
    (nBlockTime nFirstBlockTime : ℤ) (fProofOfStake ignore : Bool) : Except String UInt32 :=
  if (if fProofOfStake then params.fPoSNoRetargeting else params.fPowNoRetargeting) then
    .ok nBits
  else do
    let nHeight := nHeightLast + 1
    let bnNew ← retargetBranch params nHeight ignore (SetCompact nBits).1
      (nBlockTime - nFirstBlockTime)
    finishRetarget (params.GetLimit fProofOfStake) bnNew

/-! ### The branches in exact arithmetic -/

/-- The caps on the spacing: the result lies in `[0, cap S]`, is at least `S` for a spacing of
at least `S`, and at most `S` for a smaller one. -/
theorem clampSpacing_spec {S A cap : ℤ} (hS : 0 ≤ S) (hcap : 1 ≤ cap) :
    0 ≤ clampSpacing S A cap ∧ clampSpacing S A cap ≤ S * cap ∧
      (S ≤ A → S ≤ clampSpacing S A cap) ∧ (A < S → clampSpacing S A cap ≤ S) := by
  have hScap : S ≤ S * cap := le_mul_of_one_le_right hS hcap
  simp only [clampSpacing]
  split_ifs <;> omega

/-- The exact new target of the linear branch with `nInterval = I`. -/
def linearTarget (T : ℕ) (S C I : ℤ) : ℤ := T * ((I - 1) * S + C + C) / ((I + 1) * S)

/-- The linear branch computes `linearTarget` when nothing wraps. -/
theorem retargetLinear_eq (x : arith_uint256) {S A I : ℤ} (hS : 0 < S) (hI : 1 ≤ I)
    (hM : (I - 1) * S + 2 * (S * 10) < 2 ^ 16) (hD : (I + 1) * S < 2 ^ 64)
    (hx : x.toNat < 2 ^ 240) :
    ∃ y, retargetLinear x S A I = .ok y ∧
      (y.toNat : ℤ) = linearTarget x.toNat S (clampSpacing S A 10) I := by
  obtain ⟨h0, h1, -, -⟩ := clampSpacing_spec (A := A) hS.le (show (1 : ℤ) ≤ 10 by norm_num)
  simp only [retargetLinear]
  generalize clampSpacing S A 10 = C at h0 h1 ⊢
  have hM0 : 0 ≤ (I - 1) * S := mul_nonneg (by omega) hS.le
  have hD0 : 0 < (I + 1) * S := mul_pos (by omega) hS
  -- the factor fits in 16 bits and the divisor in 64
  have hfac : (UInt32.ofInt ((I - 1) * S + C + C)).toNat = ((I - 1) * S + C + C).toNat := by
    simp only [UInt32.ofInt, UInt32.toNat_ofNat']
    omega
  have hprod : (x.mulU32 (UInt32.ofInt ((I - 1) * S + C + C))).toNat =
      x.toNat * ((I - 1) * S + C + C).toNat := by
    rw [toNat_mulU32, hfac]
    apply Nat.mod_eq_of_lt
    calc x.toNat * ((I - 1) * S + C + C).toNat < 2 ^ 240 * 2 ^ 16 :=
          Nat.mul_lt_mul_of_lt_of_le hx (by omega) (by positivity)
      _ = 2 ^ (32 * (256 / 32)) := by norm_num
  have hdiv : (ofUInt64 (UInt64.ofInt ((I + 1) * S)) : arith_uint256).toNat =
      ((I + 1) * S).toNat := by
    rw [toNat_ofUInt64_ofInt (by norm_num)]
    congr 1
    omega
  obtain ⟨y, hy, hyv⟩ := div_eq (x.mulU32 (UInt32.ofInt ((I - 1) * S + C + C)))
    (ofUInt64 (UInt64.ofInt ((I + 1) * S))) (by rw [hdiv]; omega)
  refine ⟨y, hy, ?_⟩
  rw [hyv, hprod, hdiv, linearTarget, Int.natCast_div, Nat.cast_mul, Int.toNat_of_nonneg (by omega),
    Int.toNat_of_nonneg hD0.le]

section LinearTarget

variable {T : ℕ} {S C C' I : ℤ}

theorem linearTarget_mono (hD : 0 < (I + 1) * S) (hCC : C ≤ C') :
    linearTarget T S C I ≤ linearTarget T S C' I :=
  Int.ediv_le_ediv hD (mul_le_mul_of_nonneg_left (by omega) (Int.natCast_nonneg _))

/-- At the target spacing the factor is `(nInterval + 1) S / ((nInterval + 1) S)`. -/
theorem linearTarget_self (hD : 0 < (I + 1) * S) : linearTarget T S S I = T := by
  rw [linearTarget, show (I - 1) * S + S + S = (I + 1) * S by ring]
  exact Int.mul_ediv_cancel _ hD.ne'

/-- From `T = 2` on the factor, at least `(nInterval - 1) / (nInterval + 1)`, leaves at least
`1`, once `2 (nInterval - 1) ≥ nInterval + 1`. -/
theorem linearTarget_pos (hT : 2 ≤ T) (hS : 0 < S) (hI : 3 ≤ I) (hC : 0 ≤ C) :
    0 < linearTarget T S C I := by
  have hD : 0 < (I + 1) * S := mul_pos (by omega) hS
  apply Int.le_ediv_of_mul_le hD
  have hnum : 0 ≤ (I - 1) * S + C + C := by nlinarith
  calc 1 * ((I + 1) * S) ≤ 2 * ((I - 1) * S + C + C) := by nlinarith
    _ ≤ T * ((I - 1) * S + C + C) :=
      mul_le_mul_of_nonneg_right (by exact_mod_cast hT) hnum

end LinearTarget

/-- The sum `mul_exp` returns, in exact arithmetic: the partial sum at index `258`. -/
def expValue (a : ℕ) (p q : ℤ) : ℤ := expSum a p.natAbs q.toNat (decide (p < 0)) 258

/-- The exact new target of the exponential branch. -/
def expTarget (T : ℕ) (S C I : ℤ) (mask : UInt32) : ℤ :=
  expValue T ((2 * (C - S)).tdiv (mask + 1).toNat) (((I + 1) * S).tdiv (mask + 1).toNat)

/-- At the spacings and masks of the networks the exponent of the exponential branch lies in
`[-16, 304]` and the divisor is `256`, in both eras of the target spacing. -/
theorem exp_exponent_mem {S C : ℤ} {mask : UInt32} (hSm : (S = 128 ∧ mask = 15) ∨ (S = 32 ∧ mask = 3))
    (h0 : 0 ≤ C) (h1 : C ≤ S * 20) :
    -16 ≤ (2 * (C - S)).tdiv (mask + 1).toNat ∧ (2 * (C - S)).tdiv (mask + 1).toNat ≤ 304 ∧
      ((31 + 1) * S).tdiv (mask + 1).toNat = 256 := by
  rcases hSm with ⟨rfl, rfl⟩ | ⟨rfl, rfl⟩
  · refine ⟨?_, ?_, by decide⟩
    · exact le_trans (by decide) (Int.tdiv_le_tdiv (by decide) (show 2 * (0 - 128) ≤ 2 * (C - 128) by omega))
    · exact le_trans (Int.tdiv_le_tdiv (by decide) (show 2 * (C - 128) ≤ 2 * (128 * 20 - 128) by omega)) (by decide)
  · refine ⟨?_, ?_, by decide⟩
    · exact le_trans (by decide) (Int.tdiv_le_tdiv (by decide) (show 2 * (0 - 32) ≤ 2 * (C - 32) by omega))
    · exact le_trans (Int.tdiv_le_tdiv (by decide) (show 2 * (C - 32) ≤ 2 * (32 * 20 - 32) by omega)) (by decide)

/-- At every exponent in `[-16, 304]` and `q = 256`, `mul_exp` of a target below `2 ^ 240` sees
every exact intermediate fit in 256 bits, ends by the 258th term, and returns the exact sum. -/
theorem mul_exp_256_eq (x : arith_uint256) (hx : x.toNat < 2 ^ 240) {p : ℤ} (hp0 : -16 ≤ p)
    (hp1 : p ≤ 304) :
    (∀ k, expTerm x.toNat p.natAbs 256 k * p.natAbs < 2 ^ 256 ∧
      0 ≤ expSum x.toNat p.natAbs 256 (decide (p < 0)) k ∧
      expSum x.toNat p.natAbs 256 (decide (p < 0)) k < 2 ^ 256) ∧
    expTerm x.toNat p.natAbs 256 258 = 0 ∧
    ∃ r, mul_exp x p 256 = .ok r ∧ (r.toNat : ℤ) = expValue x.toNat p 256 := by
  have hP : 2 * p.natAbs ≤ 3 * 256 := by omega
  have hbound : x.toNat * (2 * p.natAbs + 6) < 2 ^ 256 :=
    calc x.toNat * (2 * p.natAbs + 6) < 2 ^ 240 * 2 ^ 16 :=
          Nat.mul_lt_mul_of_lt_of_le hx (by omega) (by positivity)
      _ = 2 ^ 256 := by norm_num
  obtain ⟨hz, r, hr, hrv⟩ := mul_exp_eq x p 256 (by norm_num) (by norm_num) (by omega) (by omega)
    (fun _ => by omega) hbound
  refine ⟨fun k => ⟨expTerm_mul_lt (by norm_num) hP hbound k, ?_⟩, hz, r, hr, hrv⟩
  exact expSum_mem_range (by norm_num) hP (fun h => by have := of_decide_eq_true h; omega)
    (by omega) k

/-- The exponential branch computes `expTarget` at the spacings and masks of the networks. -/
theorem retargetExp_eq (x : arith_uint256) {S A : ℤ} {mask : UInt32}
    (hSm : (S = 128 ∧ mask = 15) ∨ (S = 32 ∧ mask = 3)) (hx : x.toNat < 2 ^ 240) :
    ∃ y, retargetExp x S A 31 mask = .ok y ∧
      (y.toNat : ℤ) = expTarget x.toNat S (clampSpacing S A 20) 31 mask := by
  have hS : 0 ≤ S := by rcases hSm with ⟨rfl, -⟩ | ⟨rfl, -⟩ <;> norm_num
  obtain ⟨h0, h1, -, -⟩ := clampSpacing_spec (A := A) hS (show (1 : ℤ) ≤ 20 by norm_num)
  obtain ⟨hp0, hp1, hq⟩ := exp_exponent_mem hSm h0 h1
  simp only [retargetExp, expTarget]
  rw [hq]
  exact (mul_exp_256_eq x hx hp0 hp1).2.2

/-! ### The exponential series at `q = 256` -/

/-- `exp 0 = 1`: a zero exponent gives back `a`. -/
theorem expValue_zero (a : ℕ) (q : ℤ) : expValue a 0 q = a := by
  have h1 : expTerm a 0 q.toNat 1 = 0 := by rw [expTerm_one, Nat.mul_zero, Nat.zero_div]
  rw [expValue, Int.natAbs_zero, show (258 : ℕ) = 1 + 257 from rfl,
    expSum_add_of_expTerm_eq_zero h1]
  simp [expSum, h1]

/-- The sum is monotone in the exponent over `[-16, 304]`: through the positive exponents by
`expSum_false_mono`, across `0` by the two bounds `a`, and through the negative ones by
`expSum_true_anti`, since `16 ^ 2 ≤ 256`. -/
theorem expValue_mono (a : ℕ) {p p' : ℤ} (hp : -16 ≤ p) (hpp : p ≤ p') (hp' : p' ≤ 304) :
    expValue a p 256 ≤ expValue a p' 256 := by
  have hq : (0 : ℕ) < (256 : ℤ).toNat := by decide
  simp only [expValue]
  by_cases h0 : 0 ≤ p
  · rw [decide_eq_false (by omega), decide_eq_false (by omega)]
    exact expSum_false_mono (by omega) 258
  by_cases h0' : 0 ≤ p'
  · rw [decide_eq_true (by omega), decide_eq_false (by omega)]
    have h1 := (expSum_true_mem (a := a) (P := p.natAbs) hq (by omega) 258).2
    have h2 := le_expSum_false (a := a) (P := p'.natAbs) (q := (256 : ℤ).toNat) 258
    omega
  · rw [decide_eq_true (by omega), decide_eq_true (by omega)]
    exact expSum_true_anti hq (by omega) (le_trans (Nat.mul_le_mul (by omega) (by omega))
      (show 16 * 16 ≤ (256 : ℤ).toNat by decide)) (by norm_num)

/-- The sum is positive for a positive `a`: a negative exponent of size at most `16` takes at
most `a / 16` off. -/
theorem expValue_pos {a : ℕ} (ha : 1 ≤ a) {p : ℤ} (hp : -16 ≤ p) : 0 < expValue a p 256 := by
  have hq : (0 : ℕ) < (256 : ℤ).toNat := by decide
  simp only [expValue]
  by_cases h0 : 0 ≤ p
  · rw [decide_eq_false (by omega)]
    have := le_expSum_false (a := a) (P := p.natAbs) (q := (256 : ℤ).toNat) 258
    omega
  · rw [decide_eq_true (by omega)]
    have h1 := (expSum_true_mem (a := a) (P := p.natAbs) hq (by omega) 258).1
    have h2 : expTerm a p.natAbs (256 : ℤ).toNat 1 < a := by
      rw [expTerm_one]
      apply Nat.div_lt_of_lt_mul
      calc a * p.natAbs ≤ a * 16 := Nat.mul_le_mul_left _ (by omega)
        _ < (256 : ℤ).toNat * a := by rw [show (256 : ℤ).toNat = 256 from rfl]; omega
    omega

section ExpTarget

variable {T : ℕ} {S C C' : ℤ} {mask : UInt32}

/-- Monotone in the capped spacing: the exponent is, by `Int.tdiv_le_tdiv`, and the sum is in the
exponent. -/
theorem expTarget_mono (hSm : (S = 128 ∧ mask = 15) ∨ (S = 32 ∧ mask = 3)) (h0 : 0 ≤ C)
    (hCC : C ≤ C') (h1 : C' ≤ S * 20) : expTarget T S C 31 mask ≤ expTarget T S C' 31 mask := by
  obtain ⟨hp0, -, hq⟩ := exp_exponent_mem hSm h0 (le_trans hCC h1)
  obtain ⟨-, hp1', -⟩ := exp_exponent_mem hSm (le_trans h0 hCC) h1
  have hpp : (2 * (C - S)).tdiv (mask + 1).toNat ≤ (2 * (C' - S)).tdiv (mask + 1).toNat :=
    Int.tdiv_le_tdiv (by simp only [Nat.cast_pos]; rcases hSm with ⟨-, rfl⟩ | ⟨-, rfl⟩ <;> decide)
      (by omega)
  rw [expTarget, expTarget, hq]
  exact expValue_mono T hp0 hpp hp1'

theorem expTarget_self : expTarget T S S 31 mask = T := by
  rw [expTarget, sub_self, mul_zero, Int.zero_tdiv, expValue_zero]

theorem expTarget_pos (hT : 1 ≤ T) (hSm : (S = 128 ∧ mask = 15) ∨ (S = 32 ∧ mask = 3))
    (h0 : 0 ≤ C) (h1 : C ≤ S * 20) : 0 < expTarget T S C 31 mask := by
  obtain ⟨hp0, -, hq⟩ := exp_exponent_mem hSm h0 h1
  rw [expTarget, hq]
  exact expValue_pos hT hp0

end ExpTarget

/-! ### The clamp to the limit and the encoding -/

/-- On a positive target, `finishRetarget` encodes the smaller of it and the limit, truncated to
its top 23 bits at byte granularity. -/
theorem finishRetarget_eq (L y : arith_uint256) (hy : 0 < y.toNat) :
    ∃ c k, finishRetarget L y = .ok c ∧ IsCompactShift (min y.toNat L.toNat) k ∧
      (SetCompact c).1.toNat = min y.toNat L.toNat / 256 ^ k * 256 ^ k := by
  have hsel : (if y.CompareTo zero ≤ 0 ∨ y.CompareTo L > 0 then L else y).toNat =
      min y.toNat L.toNat := by
    simp only [CompareTo_nonpos_iff, gt_iff_lt, CompareTo_pos_iff, toNat_zero]
    split_ifs <;> omega
  obtain ⟨c, k, hget, hk, hc, -⟩ :=
    SetCompact_GetCompact (if y.CompareTo zero ≤ 0 ∨ y.CompareTo L > 0 then L else y)
  rw [hsel] at hk hc
  exact ⟨c, k, by simp only [finishRetarget, hget], hk, hc⟩

/-! ### The networks -/

/-- The cap the branch at `nHeight` puts on the actual spacing. -/
def cappedSpacing (params : PowParams) (nHeight : ℕ) (ignore : Bool) (nActualSpacing : ℤ) : ℤ :=
  clampSpacing (params.TargetSpacing nHeight) nActualSpacing
    (if nHeight < params.QIP9Height ∨ ignore = true then 10 else 20)

/-- The new target of the branch at `nHeight` in exact arithmetic, from the capped spacing `C`. -/
def newTarget (params : PowParams) (nHeight : ℕ) (ignore : Bool) (T : ℕ) (C : ℤ) : ℤ :=
  if nHeight < params.QIP9Height ∨ ignore = true then
    linearTarget T (params.TargetSpacing nHeight) C
      (params.DifficultyAdjustmentInterval nHeight ignore)
  else
    expTarget T (params.TargetSpacing nHeight) C
      (params.DifficultyAdjustmentInterval nHeight ignore) (params.StakeTimestampMask nHeight)

namespace PowParams.Qtum

variable {params : PowParams} (hp : params.Qtum) {nHeight : ℕ} {ignore : Bool}
include hp

theorem TargetSpacing_eq :
    params.TargetSpacing nHeight = if nHeight < params.nReduceBlocktimeHeight then 128 else 32 := by
  simp only [PowParams.TargetSpacing, hp.nPowTargetSpacing_eq, hp.nRBTPowTargetSpacing_eq]
  norm_num

/-- The linear branch runs with `nInterval = 7`: `960 / 128` and `240 / 32`. -/
theorem linear_era (h : nHeight < params.QIP9Height ∨ ignore = true) :
    params.DifficultyAdjustmentInterval nHeight ignore = 7 ∧
      (params.TargetSpacing nHeight = 128 ∨ params.TargetSpacing nHeight = 32) := by
  have hle := hp.QIP9Height_le
  simp only [PowParams.DifficultyAdjustmentInterval, PowParams.TargetTimespan, hp.TargetSpacing_eq,
    hp.nPowTargetTimespan_eq, hp.nRBTPowTargetTimespan_eq, hp.QIP9Height_eq] at h ⊢
  rw [hp.QIP9Height_eq] at hle
  -- the two era boundaries, `QIP9Height` and `nReduceBlocktimeHeight`
  rcases Nat.lt_or_ge nHeight 5500 with h1 | h1 <;>
    rcases Nat.lt_or_ge nHeight params.nReduceBlocktimeHeight with h2 | h2
  all_goals first | omega | simp_all [Nat.not_lt.mpr]

/-- The exponential branch runs with `nInterval = 31` (`4000 / 128` and `1000 / 32`), and with
the mask `15` for the spacing `128` and `3` for `32`. -/
theorem exp_era (h : ¬(nHeight < params.QIP9Height ∨ ignore = true)) :
    params.DifficultyAdjustmentInterval nHeight ignore = 31 ∧
      ((params.TargetSpacing nHeight = 128 ∧ params.StakeTimestampMask nHeight = 15) ∨
        (params.TargetSpacing nHeight = 32 ∧ params.StakeTimestampMask nHeight = 3)) := by
  have hle := hp.QIP9Height_le
  simp only [PowParams.DifficultyAdjustmentInterval, PowParams.TargetTimespan,
    PowParams.StakeTimestampMask, hp.TargetSpacing_eq, hp.nPowTargetTimespanV2_eq,
    hp.nRBTPowTargetTimespanV2_eq, hp.nStakeTimestampMask_eq, hp.nRBTStakeTimestampMask_eq,
    hp.QIP9Height_eq] at h ⊢
  rw [hp.QIP9Height_eq] at hle
  rcases Nat.lt_or_ge nHeight params.nReduceBlocktimeHeight with h2 | h2
  all_goals first | omega | simp_all [Nat.not_lt.mpr]

theorem TargetSpacing_mem (nHeight : ℕ) :
    0 < params.TargetSpacing nHeight ∧ params.TargetSpacing nHeight ≤ 128 := by
  rw [hp.TargetSpacing_eq]
  split_ifs <;> norm_num

/-- The capped spacing lies in `[0, 20 S]` in both branches, on the side of `S` the raw spacing
is on. -/
theorem cappedSpacing_spec (nHeight : ℕ) (ignore : Bool) (A : ℤ) :
    0 ≤ cappedSpacing params nHeight ignore A ∧
      cappedSpacing params nHeight ignore A ≤ params.TargetSpacing nHeight * 20 ∧
      (params.TargetSpacing nHeight ≤ A →
        params.TargetSpacing nHeight ≤ cappedSpacing params nHeight ignore A) ∧
      (A < params.TargetSpacing nHeight →
        cappedSpacing params nHeight ignore A ≤ params.TargetSpacing nHeight) := by
  have hS := (hp.TargetSpacing_mem nHeight).1
  have hcap : (1 : ℤ) ≤ if nHeight < params.QIP9Height ∨ ignore = true then 10 else 20 := by
    split_ifs <;> norm_num
  obtain ⟨h0, h1, h2, h3⟩ := clampSpacing_spec (A := A) hS.le hcap
  refine ⟨h0, h1.trans (mul_le_mul_of_nonneg_left ?_ hS.le), h2, h3⟩
  split_ifs <;> norm_num

/-- Each branch computes its exact new target, for a previous target below `2 ^ 240`. -/
theorem retargetBranch_eq (nHeight : ℕ) (ignore : Bool) (x : arith_uint256) (A : ℤ)
    (hx : x.toNat < 2 ^ 240) :
    ∃ y, retargetBranch params nHeight ignore x A = .ok y ∧
      (y.toNat : ℤ) = newTarget params nHeight ignore x.toNat
        (cappedSpacing params nHeight ignore A) := by
  obtain ⟨hS0, hS1⟩ := hp.TargetSpacing_mem nHeight
  by_cases hb : nHeight < params.QIP9Height ∨ ignore = true
  · obtain ⟨hI, -⟩ := hp.linear_era hb
    simp only [retargetBranch, newTarget, cappedSpacing, if_pos hb, hI]
    exact retargetLinear_eq x hS0 (by norm_num) (by omega) (by omega) hx
  · obtain ⟨hI, hSm⟩ := hp.exp_era hb
    simp only [retargetBranch, newTarget, cappedSpacing, if_neg hb, hI]
    exact retargetExp_eq x hSm hx

/-! #### The new target against the previous one -/

variable {T : ℕ} {C C' : ℤ}

theorem newTarget_mono (h0 : 0 ≤ C) (hCC : C ≤ C') (h1 : C' ≤ params.TargetSpacing nHeight * 20) :
    newTarget params nHeight ignore T C ≤ newTarget params nHeight ignore T C' := by
  by_cases hb : nHeight < params.QIP9Height ∨ ignore = true
  · obtain ⟨hI, -⟩ := hp.linear_era hb
    simp only [newTarget, if_pos hb, hI]
    exact linearTarget_mono (by linarith [(hp.TargetSpacing_mem nHeight).1]) hCC
  · obtain ⟨hI, hSm⟩ := hp.exp_era hb
    simp only [newTarget, if_neg hb, hI]
    exact expTarget_mono hSm h0 hCC h1

/-- At the target spacing the target stays where it was. -/
theorem newTarget_self : newTarget params nHeight ignore T (params.TargetSpacing nHeight) = T := by
  by_cases hb : nHeight < params.QIP9Height ∨ ignore = true
  · obtain ⟨hI, -⟩ := hp.linear_era hb
    simp only [newTarget, if_pos hb, hI]
    exact linearTarget_self (by linarith [(hp.TargetSpacing_mem nHeight).1])
  · obtain ⟨hI, -⟩ := hp.exp_era hb
    simp only [newTarget, if_neg hb, hI]
    exact expTarget_self

theorem newTarget_pos (hT : 2 ≤ T) (h0 : 0 ≤ C) (h1 : C ≤ params.TargetSpacing nHeight * 20) :
    0 < newTarget params nHeight ignore T C := by
  by_cases hb : nHeight < params.QIP9Height ∨ ignore = true
  · obtain ⟨hI, -⟩ := hp.linear_era hb
    simp only [newTarget, if_pos hb, hI]
    exact linearTarget_pos hT (hp.TargetSpacing_mem nHeight).1 (by norm_num) h0
  · obtain ⟨hI, hSm⟩ := hp.exp_era hb
    simp only [newTarget, if_neg hb, hI]
    exact expTarget_pos (by omega) hSm h0 h1

/-- The exponent and the divisor the exponential branch passes to `mul_exp`: the exponent lies
in `[-16, 304]` and the divisor is `256`. -/
theorem exp_exponent_mem (hb : ¬(nHeight < params.QIP9Height ∨ ignore = true)) (A : ℤ) :
    -16 ≤ (2 * (cappedSpacing params nHeight ignore A - params.TargetSpacing nHeight)).tdiv
        (params.StakeTimestampMask nHeight + 1).toNat ∧
      (2 * (cappedSpacing params nHeight ignore A - params.TargetSpacing nHeight)).tdiv
        (params.StakeTimestampMask nHeight + 1).toNat ≤ 304 ∧
      ((params.DifficultyAdjustmentInterval nHeight ignore + 1) *
        params.TargetSpacing nHeight).tdiv (params.StakeTimestampMask nHeight + 1).toNat = 256 := by
  obtain ⟨hI, hSm⟩ := hp.exp_era hb
  obtain ⟨h0, h1, -, -⟩ := hp.cappedSpacing_spec nHeight ignore A
  rw [hI]
  exact HydraNode.exp_exponent_mem hSm h0 h1

end PowParams.Qtum

/-! ### The retarget of a proof-of-stake block -/

/-- What the retarget of a proof-of-stake block aims at before the compact encoding: the exact new
target from the capped spacing, clamped to `posLimit`. -/
def posTarget (params : PowParams) (nHeightLast : ℕ) (ignore : Bool) (T : ℕ)
    (nActualSpacing : ℤ) : ℕ :=
  min (newTarget params (nHeightLast + 1) ignore T
      (cappedSpacing params (nHeightLast + 1) ignore nActualSpacing)).toNat
    (params.GetLimit true).toNat

namespace PowParams.Qtum

variable {params : PowParams} (hp : params.Qtum) {nHeightLast : ℕ} {ignore : Bool} {T : ℕ}
include hp

theorem posTarget_pos (hT : 2 ≤ T) (A : ℤ) : 0 < posTarget params nHeightLast ignore T A := by
  obtain ⟨h0, h1, -, -⟩ := hp.cappedSpacing_spec (nHeightLast + 1) ignore A
  have hV : 0 < newTarget params (nHeightLast + 1) ignore T _ := hp.newTarget_pos hT h0 h1
  have hL := hp.posLimit_pos
  rw [posTarget]
  omega

theorem posTarget_mono {A A' : ℤ}
    (hAA : cappedSpacing params (nHeightLast + 1) ignore A ≤
      cappedSpacing params (nHeightLast + 1) ignore A') :
    posTarget params nHeightLast ignore T A ≤ posTarget params nHeightLast ignore T A' := by
  obtain ⟨h0, -, -, -⟩ := hp.cappedSpacing_spec (nHeightLast + 1) ignore A
  obtain ⟨-, h1, -, -⟩ := hp.cappedSpacing_spec (nHeightLast + 1) ignore A'
  have hV : newTarget params (nHeightLast + 1) ignore T _ ≤ newTarget params _ ignore T _ :=
    hp.newTarget_mono h0 hAA h1
  simp only [posTarget]
  omega

/-- A spacing of at least `S` does not lower a target under the limit. -/
theorem le_posTarget {A : ℤ} (hTL : T ≤ (params.GetLimit true).toNat)
    (hA : params.TargetSpacing (nHeightLast + 1) ≤ A) :
    T ≤ posTarget params nHeightLast ignore T A := by
  obtain ⟨-, h1, h2, -⟩ := hp.cappedSpacing_spec (nHeightLast + 1) ignore A
  have hV : newTarget params (nHeightLast + 1) ignore T _ ≤ newTarget params _ ignore T _ :=
    hp.newTarget_mono (hp.TargetSpacing_mem (nHeightLast + 1)).1.le (h2 hA) h1
  rw [hp.newTarget_self] at hV
  rw [posTarget]
  omega

/-- A spacing below `S` does not raise it. -/
theorem posTarget_le {A : ℤ} (hA : A < params.TargetSpacing (nHeightLast + 1)) :
    posTarget params nHeightLast ignore T A ≤ T := by
  obtain ⟨h0, -, -, h3⟩ := hp.cappedSpacing_spec (nHeightLast + 1) ignore A
  have hS := (hp.TargetSpacing_mem (nHeightLast + 1)).1
  have hV : newTarget params (nHeightLast + 1) ignore T _ ≤ newTarget params _ ignore T _ :=
    hp.newTarget_mono h0 (h3 hA) (by linarith)
  rw [hp.newTarget_self] at hV
  rw [posTarget]
  omega

/-- The whole retarget of a proof-of-stake block, for a previous target in `[2, 2 ^ 240)`: it
succeeds, with `posTarget` truncated to its compact form. -/
theorem CalculateNextWorkRequired_eq (nHeightLast : ℕ) (ignore : Bool) (nBits : UInt32) (t1 t0 : ℤ)
    (hT : 2 ≤ (SetCompact nBits).1.toNat) (hTL : (SetCompact nBits).1.toNat < 2 ^ 240) :
    ∃ c k, CalculateNextWorkRequired params nHeightLast nBits t1 t0 true ignore = .ok c ∧
      IsCompactShift (posTarget params nHeightLast ignore (SetCompact nBits).1.toNat (t1 - t0)) k ∧
      (SetCompact c).1.toNat =
        posTarget params nHeightLast ignore (SetCompact nBits).1.toNat (t1 - t0) / 256 ^ k *
          256 ^ k := by
  obtain ⟨y, hy, hyv⟩ := hp.retargetBranch_eq (nHeightLast + 1) ignore _ (t1 - t0) hTL
  obtain ⟨h0, h1, -, -⟩ := hp.cappedSpacing_spec (nHeightLast + 1) ignore (t1 - t0)
  have hV : 0 < newTarget params (nHeightLast + 1) ignore _ _ := hp.newTarget_pos hT h0 h1
  obtain ⟨c, k, hfin, hk, hc⟩ := finishRetarget_eq (params.GetLimit true) y (by omega)
  have hmin : min y.toNat (params.GetLimit true).toNat =
      posTarget params nHeightLast ignore (SetCompact nBits).1.toNat (t1 - t0) := by
    rw [posTarget]
    omega
  rw [hmin] at hk hc
  refine ⟨c, k, ?_, hk, hc⟩
  simp only [CalculateNextWorkRequired, if_true, hp.fPoSNoRetargeting_eq, Bool.false_eq_true,
    if_false, hy, except_ok_bind, hfin]

end PowParams.Qtum

/-- The proof-of-stake retarget, on every network with Qtum's spacings, timespans and masks and a
`posLimit` below `2 ^ 240` (mainnet, with `2 ^ 224 - 1`, and testnet, with `2 ^ 240 - 1`), for a
previous target `T` in `[2, posLimit]`: it succeeds and lands in `(0, posLimit]`; it does not
lower `T` on a spacing of at least the target spacing and does not raise it on a smaller one; it
is monotone in the capped spacing; and the exponential branch calls `mul_exp` with an exponent in
`[-16, 304]` and the divisor `256`, where every exact intermediate fits in 256 bits, the terms
end by index `258` and `mul_exp` returns the exact sum. -/
theorem pos_retarget_direction_and_range (params : PowParams) (hp : params.Qtum)
    (nHeightLast : ℕ) (nBits : UInt32) (ignore : Bool)
    (hT : 2 ≤ (SetCompact nBits).1.toNat)
    (hTL : (SetCompact nBits).1.toNat ≤ (params.GetLimit true).toNat) :
    (∀ t1 t0 : ℤ, ∃ c,
      CalculateNextWorkRequired params nHeightLast nBits t1 t0 true ignore = .ok c ∧
        0 < (SetCompact c).1.toNat ∧
        (SetCompact c).1.toNat ≤ (params.GetLimit true).toNat) ∧
    (∀ (t1 t0 : ℤ) c,
      CalculateNextWorkRequired params nHeightLast nBits t1 t0 true ignore = .ok c →
        (params.TargetSpacing (nHeightLast + 1) ≤ t1 - t0 →
          (SetCompact nBits).1.toNat ≤ (SetCompact c).1.toNat) ∧
        (t1 - t0 < params.TargetSpacing (nHeightLast + 1) →
          (SetCompact c).1.toNat ≤ (SetCompact nBits).1.toNat)) ∧
    (∀ (t1 t0 t1' t0' : ℤ) c c',
      cappedSpacing params (nHeightLast + 1) ignore (t1 - t0) ≤
          cappedSpacing params (nHeightLast + 1) ignore (t1' - t0') →
      CalculateNextWorkRequired params nHeightLast nBits t1 t0 true ignore = .ok c →
      CalculateNextWorkRequired params nHeightLast nBits t1' t0' true ignore = .ok c' →
        (SetCompact c).1.toNat ≤ (SetCompact c').1.toNat) ∧
    (∀ A : ℤ, ¬(nHeightLast + 1 < params.QIP9Height ∨ ignore = true) →
      -16 ≤ (2 * (cappedSpacing params (nHeightLast + 1) ignore A -
          params.TargetSpacing (nHeightLast + 1))).tdiv
          (params.StakeTimestampMask (nHeightLast + 1) + 1).toNat ∧
        (2 * (cappedSpacing params (nHeightLast + 1) ignore A -
          params.TargetSpacing (nHeightLast + 1))).tdiv
          (params.StakeTimestampMask (nHeightLast + 1) + 1).toNat ≤ 304 ∧
        ((params.DifficultyAdjustmentInterval (nHeightLast + 1) ignore + 1) *
          params.TargetSpacing (nHeightLast + 1)).tdiv
          (params.StakeTimestampMask (nHeightLast + 1) + 1).toNat = 256) ∧
    (∀ p : ℤ, -16 ≤ p → p ≤ 304 →
      (∀ k, expTerm (SetCompact nBits).1.toNat p.natAbs 256 k * p.natAbs < 2 ^ 256 ∧
        0 ≤ expSum (SetCompact nBits).1.toNat p.natAbs 256 (decide (p < 0)) k ∧
        expSum (SetCompact nBits).1.toNat p.natAbs 256 (decide (p < 0)) k < 2 ^ 256) ∧
      expTerm (SetCompact nBits).1.toNat p.natAbs 256 258 = 0 ∧
      ∃ r, mul_exp (SetCompact nBits).1 p 256 = .ok r ∧
        (r.toNat : ℤ) = expValue (SetCompact nBits).1.toNat p 256) := by
  have hT240 : (SetCompact nBits).1.toNat < 2 ^ 240 := lt_of_le_of_lt hTL hp.posLimit_lt
  -- every run encodes `posTarget`, truncated to its compact form
  have hrun := fun t1 t0 => hp.CalculateNextWorkRequired_eq nHeightLast ignore nBits t1 t0 hT hT240
  refine ⟨?range, ?direction, ?mono, fun A hb => hp.exp_exponent_mem hb A,
    fun p hp0 hp1 => mul_exp_256_eq _ hT240 hp0 hp1⟩
  case range =>
    intro t1 t0
    obtain ⟨c, k, hc, hk, hv⟩ := hrun t1 t0
    refine ⟨c, hc, ?_, ?_⟩
    · rw [hv]
      exact hk.trunc_pos (hp.posTarget_pos hT _)
    · rw [hv]
      exact (Nat.div_mul_le_self _ _).trans (min_le_right _ _)
  case direction =>
    intro t1 t0 c hc
    obtain ⟨c', k, hc', hk, hv⟩ := hrun t1 t0
    obtain rfl : c = c' := Except.ok.inj (hc.symm.trans hc')
    constructor
    · intro hA
      rw [hv]
      exact SetCompact_le_trunc (by omega) hk (hp.le_posTarget hTL hA)
    · intro hA
      rw [hv]
      exact (Nat.div_mul_le_self _ _).trans (hp.posTarget_le hA)
  case mono =>
    intro t1 t0 t1' t0' c c' hAA hc hc'
    obtain ⟨d, k, hd, hk, hv⟩ := hrun t1 t0
    obtain ⟨d', k', hd', hk', hv'⟩ := hrun t1' t0'
    obtain rfl : c = d := Except.ok.inj (hc.symm.trans hd)
    obtain rfl : c' = d' := Except.ok.inj (hc'.symm.trans hd')
    rw [hv, hv']
    exact hk.trunc_mono hk' (hp.posTarget_mono hAA)

/-- The genesis `nBits` at the first block of the exponential branch on mainnet, and on testnet a
previous target `0xffff · 2 ^ 216` above mainnet's `posLimit`. -/
theorem pos_retarget_direction_and_range_genesis :
    mainnetPowParams.Qtum ∧ testnetPowParams.Qtum ∧
    2 ≤ (SetCompact 0x1d00ffff).1.toNat ∧
    (SetCompact 0x1d00ffff).1.toNat ≤ (mainnetPowParams.GetLimit true).toNat ∧
    (∃ c, CalculateNextWorkRequired mainnetPowParams 5500 0x1d00ffff 128 0 true false = .ok c ∧
      0 < (SetCompact c).1.toNat ∧
      (SetCompact c).1.toNat ≤ (mainnetPowParams.GetLimit true).toNat) ∧
    (mainnetPowParams.GetLimit true).toNat < (SetCompact 0x1e00ffff).1.toNat ∧
    (SetCompact 0x1e00ffff).1.toNat ≤ (testnetPowParams.GetLimit true).toNat ∧
    ∃ c, CalculateNextWorkRequired testnetPowParams 5500 0x1e00ffff 128 0 true false = .ok c ∧
      0 < (SetCompact c).1.toNat ∧
      (SetCompact c).1.toNat ≤ (testnetPowParams.GetLimit true).toNat :=
  have hT : 2 ≤ (SetCompact 0x1d00ffff).1.toNat := by decide
  have hTL : (SetCompact 0x1d00ffff).1.toNat ≤ (mainnetPowParams.GetLimit true).toNat := by decide
  have hT' : 2 ≤ (SetCompact 0x1e00ffff).1.toNat := by decide
  have hTL' : (SetCompact 0x1e00ffff).1.toNat ≤ (testnetPowParams.GetLimit true).toNat := by
    decide
  ⟨mainnetPowParams_qtum, testnetPowParams_qtum, hT, hTL,
    (pos_retarget_direction_and_range mainnetPowParams mainnetPowParams_qtum 5500 0x1d00ffff
      false hT hTL).1 128 0,
    by decide, hTL',
    (pos_retarget_direction_and_range testnetPowParams testnetPowParams_qtum 5500 0x1e00ffff
      false hT' hTL').1 128 0⟩

/-- At `T = 1` in the linear branch the direction fails: a spacing of `0`, below the target
spacing `128`, rounds the new target down to `0`, which becomes the limit `0x1d00ffff`, far
above `1`; the target spacing itself keeps `1`, so the result also falls as the spacing grows. -/
theorem retarget_one_jumps_to_limit :
    (SetCompact 0x01010000).1.toNat = 1 ∧ mainnetPowParams.TargetSpacing (5100 + 1) = 128 ∧
    CalculateNextWorkRequired mainnetPowParams 5100 0x01010000 0 0 true false = .ok 0x1d00ffff ∧
    (SetCompact 0x1d00ffff).1.toNat = 0xffff * 2 ^ 208 ∧
    CalculateNextWorkRequired mainnetPowParams 5100 0x01010000 128 0 true false =
      .ok 0x01010000 :=
  ⟨by decide, rfl, by decide, by decide, by decide⟩

end HydraNode
