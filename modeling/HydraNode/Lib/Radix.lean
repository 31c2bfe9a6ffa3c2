import Mathlib

/-!
# Big-endian groups of bits

A stream of bits cut into groups of `w` bits, the first group most significant, has the value
`groupsValue w`: the digits in base `2 ^ w` read from the front. Regrouping a stream into groups
of another width keeps that value, up to the bits added or left over at the end, and this module
collects what such loops need:

* appending a group shifts the value by `w` bits (`groupsValue_append`), and a list of `w`-bit
  groups of length `n` is below `2 ^ (w n)` and determined by its value (`groupsValue_lt`,
  `groupsValue_inj`);
* the low `s + t` bits of a number are its low `s` bits and, above them, the `t`-bit group at
  `s` (`mod_two_pow_add`);
* a count of whole groups and a remainder below the width are determined by their sum
  (`eq_of_mul_add_eq`, `div_mod_of_mul_add`);
* the `n` groups of `w` bits of a number, most significant first, are worth its low `w n` bits
  (`groupsValue_range_map`), and a group shifted above a smaller one is their sum
  (`shiftLeft_xor_eq_add`);
* a number read most significant digit first by a conversion loop (`horner`) has those digits
  back when the first is not a zero (`digits_horner_zero`), and lies between its leading digit
  and the next one times the weight of the others (`bounds_of_digits_reverse`); a buffer sized
  by a rational approximation of a ratio of logarithms holds every number of a given length
  (`pow_le_pow_div_add_one`).
-/

namespace Radix

/-- The value of a list of `w`-bit groups, the first one most significant. -/
def groupsValue (w : ℕ) (xs : List ℕ) : ℕ := Nat.ofDigits (2 ^ w) xs.reverse

@[simp] theorem groupsValue_nil (w : ℕ) : groupsValue w [] = 0 := rfl

theorem groupsValue_append (w : ℕ) (xs ys : List ℕ) :
    groupsValue w (xs ++ ys) = groupsValue w xs * 2 ^ (w * ys.length) + groupsValue w ys := by
  rw [groupsValue, List.reverse_append, Nat.ofDigits_append, List.length_reverse, ← pow_mul,
    groupsValue, groupsValue]
  ring

theorem groupsValue_concat (w : ℕ) (xs : List ℕ) (x : ℕ) :
    groupsValue w (xs ++ [x]) = groupsValue w xs * 2 ^ w + x := by
  rw [groupsValue_append]
  simp [groupsValue]

theorem groupsValue_cons (w : ℕ) (x : ℕ) (xs : List ℕ) :
    groupsValue w (x :: xs) = x * 2 ^ (w * xs.length) + groupsValue w xs := by
  rw [← List.singleton_append, groupsValue_append]
  simp [groupsValue]

@[simp] theorem groupsValue_replicate_zero (w n : ℕ) : groupsValue w (List.replicate n 0) = 0 := by
  induction n with
  | zero => rfl
  | succ n ih => rw [List.replicate_succ, groupsValue_cons, ih]; simp

section Bounded

variable {w : ℕ}

theorem groupsValue_lt (hw : 0 < w) {xs : List ℕ} (hx : ∀ x ∈ xs, x < 2 ^ w) :
    groupsValue w xs < 2 ^ (w * xs.length) := by
  have h := Nat.ofDigits_lt_base_pow_length (Nat.one_lt_two_pow hw.ne')
    (l := xs.reverse) fun x hm => hx x (List.mem_reverse.mp hm)
  rwa [List.length_reverse, ← pow_mul] at h

/-- Lists of `w`-bit groups of one length with one value are equal. -/
theorem groupsValue_inj (hw : 0 < w) {xs ys : List ℕ} (hl : xs.length = ys.length)
    (hx : ∀ x ∈ xs, x < 2 ^ w) (hy : ∀ y ∈ ys, y < 2 ^ w) (h : groupsValue w xs = groupsValue w ys) :
    xs = ys := by
  have := @Nat.ofDigits_inj_of_len_eq (2 ^ w) (Nat.one_lt_two_pow hw.ne') xs.reverse ys.reverse
    (by simpa using hl) (fun x hm => hx x (List.mem_reverse.mp hm))
    (fun y hm => hy y (List.mem_reverse.mp hm)) h
  exact List.reverse_injective this

end Bounded

/-! ### Bits of a number -/

/-- The low `s + t` bits: the `t`-bit group at `s` above the low `s` bits. -/
theorem mod_two_pow_add (a s t : ℕ) :
    a % 2 ^ (s + t) = a / 2 ^ s % 2 ^ t * 2 ^ s + a % 2 ^ s := by
  rw [pow_add, Nat.mod_mul]
  ring

/-- A number shifted up by `f` bits and topped with `v < 2 ^ f`, cut to `b + f` bits, is its
own low `b` bits shifted. -/
theorem mul_two_pow_add_mod {a v b f : ℕ} (hv : v < 2 ^ f) :
    (a * 2 ^ f + v) % 2 ^ (b + f) = a % 2 ^ b * 2 ^ f + v := by
  have hdiv : (a * 2 ^ f + v) / 2 ^ f = a := by
    rw [Nat.add_comm, Nat.add_mul_div_right _ _ (Nat.two_pow_pos f), Nat.div_eq_of_lt hv,
      Nat.zero_add]
  have hmod : (a * 2 ^ f + v) % 2 ^ f = v := by
    rw [Nat.add_comm, Nat.add_mul_mod_self_right, Nat.mod_eq_of_lt hv]
  rw [Nat.add_comm b f, mod_two_pow_add _ f b, hdiv, hmod]

/-- Cutting to `m` bits does not change the bits below `m`. -/
theorem mod_mod_two_pow_of_le {a m n : ℕ} (h : n ≤ m) : a % 2 ^ m % 2 ^ n = a % 2 ^ n :=
  Nat.mod_mod_of_dvd a (Nat.pow_dvd_pow 2 h)

/-- Whole groups of width `f` and a remainder below `f` are determined by their sum. -/
theorem eq_of_mul_add_eq {a b r s f : ℕ} (hr : r < f) (hs : s < f) (h : a * f + r = b * f + s) :
    a = b ∧ r = s := by
  have hf : 0 < f := by omega
  have hdiv : (a * f + r) / f = (b * f + s) / f := by rw [h]
  have hmod : (a * f + r) % f = (b * f + s) % f := by rw [h]
  rw [Nat.add_comm, Nat.add_mul_div_right _ _ hf, Nat.div_eq_of_lt hr, Nat.add_comm (b * f),
    Nat.add_mul_div_right _ _ hf, Nat.div_eq_of_lt hs] at hdiv
  rw [Nat.mul_add_mod_of_lt hr, Nat.mul_add_mod_of_lt hs] at hmod
  exact ⟨by simpa using hdiv, hmod⟩

/-- A value written as whole groups of `B` above a remainder below `B`. -/
theorem div_mod_of_mul_add {q r B V : ℕ} (hr : r < B) (h : q * B + r = V) : V / B = q ∧ V % B = r := by
  subst h
  constructor
  · rw [Nat.add_comm, Nat.add_mul_div_right _ _ (by omega), Nat.div_eq_of_lt hr, Nat.zero_add]
  · rw [Nat.add_comm, Nat.add_mul_mod_self_right, Nat.mod_eq_of_lt hr]

/-! ### The groups of a number -/

/-- The `n` groups of `w` bits of `x`, most significant first, are worth its low `w n` bits. -/
theorem groupsValue_range_map (w n x : ℕ) :
    groupsValue w ((List.range n).map fun i => x / 2 ^ (w * (n - 1 - i)) % 2 ^ w) =
      x % 2 ^ (w * n) := by
  induction n generalizing x with
  | zero => simp [Nat.mod_one]
  | succ n ih =>
    -- the first `n` groups are those of `x` without its last group
    have hfirst : ((List.range n).map fun i => x / 2 ^ (w * (n + 1 - 1 - i)) % 2 ^ w) =
        (List.range n).map fun i => x / 2 ^ w / 2 ^ (w * (n - 1 - i)) % 2 ^ w := by
      refine List.map_congr_left fun i hi => ?_
      rw [List.mem_range] at hi
      rw [Nat.div_div_eq_div_mul, ← pow_add, show w * (n + 1 - 1 - i) = w + w * (n - 1 - i) by
        rw [show n + 1 - 1 - i = (n - 1 - i) + 1 by omega]
        ring]
    rw [List.range_succ, List.map_append, hfirst, List.map_singleton, groupsValue_concat, ih,
      show n + 1 - 1 - n = 0 by omega, Nat.mul_zero, pow_zero, Nat.div_one,
      show w * (n + 1) = w + w * n by ring, mod_two_pow_add]

/-- A number shifted up by `i` bits, with one below `2 ^ i` in the bits it freed. -/
theorem shiftLeft_xor_eq_add {a b i : ℕ} (hb : b < 2 ^ i) : a <<< i ^^^ b = a * 2 ^ i + b := by
  rw [← Nat.shiftLeft_eq, Nat.shiftLeft_add_eq_or_of_lt hb]
  apply Nat.eq_of_testBit_eq
  intro j
  rw [Nat.testBit_xor, Nat.testBit_or]
  by_cases hj : j < i
  · have hlow : (a <<< i).testBit j = false := by
      rw [Nat.testBit_shiftLeft]
      simp [hj]
    rw [hlow, Bool.false_xor, Bool.false_or]
  · have hhigh : b.testBit j = false :=
      Nat.testBit_eq_false_of_lt (lt_of_lt_of_le hb (Nat.pow_le_pow_right (by norm_num) (by omega)))
    rw [hhigh, Bool.xor_false, Bool.or_false]

/-! ## Conversion between bases

A conversion loop reads digits most significant first and accumulates `n * m + x` (`horner`),
into a buffer of digits of another base kept least significant first. -/

/-- The number `n` followed by the digits `xs` in base `m`, the first one most significant. -/
def horner (m n : ℕ) (xs : List ℕ) : ℕ := xs.foldl (fun n x => n * m + x) n

@[simp] theorem horner_nil (m n : ℕ) : horner m n [] = n := rfl

@[simp] theorem horner_cons (m n x : ℕ) (xs : List ℕ) :
    horner m n (x :: xs) = horner m (n * m + x) xs := rfl

theorem horner_eq (m n : ℕ) (xs : List ℕ) :
    horner m n xs = n * m ^ xs.length + Nat.ofDigits m xs.reverse := by
  induction xs generalizing n with
  | nil => simp
  | cons x xs ih =>
    rw [horner_cons, ih, List.reverse_cons, Nat.ofDigits_append, List.length_reverse,
      Nat.ofDigits_singleton, List.length_cons, pow_succ]
    ring

theorem le_horner {m : ℕ} (hm : 0 < m) (n : ℕ) (xs : List ℕ) : n ≤ horner m n xs := by
  rw [horner_eq]
  exact le_add_right (Nat.le_mul_of_pos_right n (Nat.pow_pos hm))

/-- Digits below `m` after `n` stay below `(n + 1) m ^ k`. -/
theorem horner_lt {m : ℕ} {xs : List ℕ} (hx : ∀ x ∈ xs, x < m) (n : ℕ) :
    horner m n xs < (n + 1) * m ^ xs.length := by
  induction xs generalizing n with
  | nil => simp
  | cons x xs ih =>
    have hxm := hx x (List.mem_cons_self ..)
    calc horner m n (x :: xs) = horner m (n * m + x) xs := rfl
      _ < (n * m + x + 1) * m ^ xs.length := ih (fun y hy => hx y (List.mem_cons_of_mem x hy)) _
      _ ≤ (n + 1) * m * m ^ xs.length := Nat.mul_le_mul_right _ (by nlinarith)
      _ = (n + 1) * m ^ (x :: xs).length := by rw [List.length_cons, pow_succ]; ring

/-- A number is at least its leading digit times the weight of the digits after it. -/
theorem mul_pow_le_horner (m n : ℕ) (xs : List ℕ) : n * m ^ xs.length ≤ horner m n xs := by
  rw [horner_eq]
  exact le_add_right le_rfl

/-- The digits of `N`, most significant first, are read back as `N`. -/
theorem horner_zero_digits (m N : ℕ) : horner m 0 (Nat.digits m N).reverse = N := by
  rw [horner_eq, List.reverse_reverse, zero_mul, zero_add, Nat.ofDigits_digits]

/-- The most significant digit is not a zero. -/
theorem head?_digits_reverse_ne_zero (m N : ℕ) : (Nat.digits m N).reverse.head? ≠ some 0 := by
  rw [List.head?_reverse]
  intro h
  have hne : Nat.digits m N ≠ [] := by
    rintro hnil
    rw [hnil] at h
    cases h
  have hlast := Nat.getLast_digit_ne_zero m (Nat.digits_ne_nil_iff_ne_zero.mp hne)
  rw [List.getLast?_eq_some_getLast hne, Option.some_inj] at h
  exact hlast h

/-- A number lies between its leading digit and the next one, times the weight of the digits
after it. -/
theorem bounds_of_digits_reverse {m N x : ℕ} {xs : List ℕ} (hm : 1 < m)
    (h : (Nat.digits m N).reverse = x :: xs) :
    x * m ^ xs.length ≤ N ∧ N < (x + 1) * m ^ xs.length := by
  have hN : horner m x xs = N := by
    rw [← horner_zero_digits m N, h, horner_cons, zero_mul, zero_add]
  have hxs : ∀ y ∈ xs, y < m := fun y hy =>
    Nat.digits_lt_base hm (List.mem_reverse.mp (by rw [h]; exact List.mem_cons_of_mem x hy))
  rw [← hN]
  exact ⟨mul_pow_le_horner m x xs, horner_lt hxs x⟩

/-- A list of digits below `m` with no leading zero is the list of digits of its number. -/
theorem digits_horner_zero {m : ℕ} (hm : 1 < m) {xs : List ℕ} (hx : ∀ x ∈ xs, x < m)
    (hhead : xs.head? ≠ some 0) : (Nat.digits m (horner m 0 xs)).reverse = xs := by
  rw [horner_eq, zero_mul, zero_add, Nat.digits_ofDigits m hm xs.reverse
    (fun l hl => hx l (List.mem_reverse.mp hl)) (fun h => ?_), List.reverse_reverse]
  rw [List.getLast_reverse]
  intro h0
  exact hhead (by rw [List.head?_eq_some_head (List.reverse_ne_nil_iff.mp h), h0])

/-- A buffer of `p n / q + 1` digits of base `b` holds `n` digits of base `a`, from a block of `s`
digits that `t` digits hold, with `t / s ≤ p / q`, and the `s` shorter lengths. -/
theorem pow_le_pow_div_add_one {a b s t p q : ℕ} (hs : 0 < s) (hq : 0 < q) (hb : 0 < b)
    (hst : a ^ s ≤ b ^ t) (hpq : t * q ≤ p * s) (hr : ∀ r < s, a ^ r ≤ b ^ (p * r / q + 1))
    (n : ℕ) : a ^ n ≤ b ^ (p * n / q + 1) := by
  obtain ⟨k, r, hrs, rfl⟩ : ∃ k r, r < s ∧ n = s * k + r :=
    ⟨n / s, n % s, Nat.mod_lt n hs, (Nat.div_add_mod n s).symm⟩
  -- the `k` whole blocks take `t k` digits, and the rest at most its own share
  have hdiv : t * k + p * r / q ≤ p * (s * k + r) / q := by
    rw [Nat.le_div_iff_mul_le hq]
    calc (t * k + p * r / q) * q = t * q * k + p * r / q * q := by ring
      _ ≤ p * s * k + p * r := Nat.add_le_add (Nat.mul_le_mul_right _ hpq) (Nat.div_mul_le_self _ _)
      _ = p * (s * k + r) := by ring
  calc a ^ (s * k + r) = (a ^ s) ^ k * a ^ r := by rw [pow_add, pow_mul]
    _ ≤ (b ^ t) ^ k * b ^ (p * r / q + 1) := Nat.mul_le_mul (Nat.pow_le_pow_left hst k) (hr r hrs)
    _ = b ^ (t * k + p * r / q + 1) := by rw [← pow_mul, ← pow_add, Nat.add_assoc]
    _ ≤ b ^ (p * (s * k + r) / q + 1) := Nat.pow_le_pow_right hb (by omega)

/-- The digits of a number, most significant first, read from a buffer that holds them least
significant first and padded with zeros: drop at most the padding from the top, then the zeros
left. -/
theorem dropWhile_drop_reverse {b : ℕ} (hb : 1 < b) {L : List ℕ} (hL : ∀ x ∈ L, x < b) {k : ℕ}
    (hk : Nat.ofDigits b L < b ^ k) :
    (L.reverse.drop (L.length - k)).dropWhile (· = 0) = (Nat.digits b (Nat.ofDigits b L)).reverse := by
  set D := Nat.digits b (Nat.ofDigits b L)
  have hpad : L = D ++ List.replicate (L.length - D.length) 0 :=
    ((Nat.setInvOn_digitsAppend_ofDigits hb L.length).1 ⟨rfl, hL⟩).symm
  have hD : D.length ≤ k := (Nat.digits_length_le_iff hb _).mpr hk
  have hlen : L.length = D.length + (L.length - D.length) := by
    have := congrArg List.length hpad
    rw [List.length_append, List.length_replicate] at this
    exact this
  set z := L.length - D.length
  have hrev : L.reverse = List.replicate z 0 ++ D.reverse := by
    rw [hpad, List.reverse_append, List.reverse_replicate]
  rw [hrev, List.drop_append_of_le_length (by rw [List.length_replicate]; omega), List.drop_replicate,
    List.dropWhile_append_of_pos (fun x hx => by simp [(List.mem_replicate.mp hx).2])]
  -- the top digit is not a zero
  rcases List.eq_nil_or_concat D with hnil | ⟨D', d, hcat⟩
  · rw [hnil]
    rfl
  · have hd : d ≠ 0 := by
      have hne : D ≠ [] := by simp [hcat]
      have := Nat.getLast_digit_ne_zero b (Nat.digits_ne_nil_iff_ne_zero.mp hne)
      simpa [D, hcat] using this
    rw [hcat, List.concat_eq_append, List.reverse_concat, List.dropWhile_cons_of_neg (by simpa using hd)]

end Radix
