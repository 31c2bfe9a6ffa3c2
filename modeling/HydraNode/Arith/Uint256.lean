import HydraNode.Lib.Limbs

/-!
# `base_uint`: arithmetic on 32-bit limbs

`base_uint<BITS>` (`arith_uint256.h`, `arith_uint256.cpp`) holds an unsigned number in
`WIDTH = BITS / 32` limbs `pn` of type `uint32_t`, the least significant first; its one
instance is `arith_uint256`. Every operator is a loop over the limbs, and each is modelled as
the loop it is: `+=` and `*= uint32_t` pass a 64-bit carry up, `*=` runs one such row per
limb of the multiplier and drops what falls outside the `i + j < WIDTH` triangle, `<<=` and
`>>=` OR the two halves of each shifted limb into a zeroed array, `bits()` and `CompareTo`
scan from the top limb down, and `/=` is a shift-and-subtract loop aligned by `bits()` that
throws `uint_error` for a zero divisor.

`toNat` is the number the limbs stand for, `Nat.ofDigits (2 ^ 32)` of the limbs; the results
say that each operator computes its operation on `toNat` modulo `2 ^ (32 * WIDTH)`.

## Main definitions

* `base_uint` — the limbs, with their number as a field
* `base_uint.add`, `sub`, `mulU32`, `mul`, `shiftLeft`, `shiftRight`, `div`
* `base_uint.bits`, `base_uint.CompareTo`

## Main results

* `base_uint.toNat_add`, `toNat_sub`, `toNat_mulU32`, `toNat_mul`
* `base_uint.toNat_shiftLeft`, `toNat_shiftRight`, `bits_eq_size`, `CompareTo_eq`
* `base_uint.div_eq`, `base_uint.div_of_toNat_eq_zero`
* `arith_uint256_ops_mod_two_pow` — all of it at `BITS = 256`
-/

namespace HydraNode

open Limbs

/-- `base_uint<BITS>`: `BITS / 32` limbs of 32 bits, the least significant first. -/
structure base_uint (BITS : ℕ) where
  pn : List UInt32
  length_pn : pn.length = BITS / 32

/-- `arith_uint256`. -/
abbrev arith_uint256 := base_uint 256

namespace base_uint

variable {BITS : ℕ}

/-- The number the limbs stand for. -/
def toNat (a : base_uint BITS) : ℕ := Nat.ofDigits (2 ^ 32) (a.pn.map UInt32.toNat)

/-! ### The limb loops -/

/-- `operator++` on the limbs: `while (i < WIDTH && ++pn[i] == 0) i++`. -/
def incLimbs : List UInt32 → List UInt32
  | [] => []
  | x :: xs => (x + 1) :: if x + 1 = 0 then incLimbs xs else xs

/-- The end of every carry step: `pn[i] = n & 0xffffffff; carry = n >> 32`. -/
def splitLimb (n : UInt64) : UInt32 × UInt64 := ((n &&& 0xffffffff).toUInt32, n >>> 32)

/-- One limb of `operator+=`: `n = carry + pn[i] + b.pn[i]` in 64 bits. -/
def addStep (carry : UInt64) (x : UInt32 × UInt32) : UInt32 × UInt64 :=
  splitLimb (carry + x.1.toUInt64 + x.2.toUInt64)

/-- One limb of `operator*=(uint32_t b32)`: `n = carry + (uint64_t)b32 * pn[i]`. -/
def mulU32Step (b32 : UInt32) (carry : UInt64) (x : UInt32) : UInt32 × UInt64 :=
  splitLimb (carry + b32.toUInt64 * x.toUInt64)

/-- One limb of row `j` of `operator*=`:
`n = carry + a.pn[i + j] + (uint64_t)pn[j] * b.pn[i]`, with `x = pn[j]`. -/
def mulAddStep (x : UInt32) (carry : UInt64) (o : UInt32 × UInt32) : UInt32 × UInt64 :=
  splitLimb (carry + o.1.toUInt64 + x.toUInt64 * o.2.toUInt64)

/-- Row `j` of `operator*=`: the accumulator's limbs from `j` on get `x` times the low limbs of
`b`, `for (int i = 0; i + j < WIDTH; i++)`; the last carry is dropped. -/
def mulRow (x : UInt32) (acc b : List UInt32) (j : ℕ) : List UInt32 :=
  acc.take j ++ (carryLoop (mulAddStep x) 0 ((acc.drop j).zip b)).1

/-- The rows of `operator*=` for `j = 0, …, n - 1`. -/
def mulRows (pn b : List UInt32) (acc : List UInt32) (n : ℕ) : List UInt32 :=
  (List.range n).foldl (fun acc j => mulRow (pn.getD j 0) acc b j) acc

/-- One pass of the loop of `operator<<=`, at limb `i` of the old value `a`, with
`k = shift / 32` and `s = shift % 32`: the top `s` bits of `a.pn[i]` go to limb `i + k + 1`,
the rest to limb `i + k`. -/
def shlStep (W : ℕ) (a : List UInt32) (k s : ℕ) (pn : List UInt32) (i : ℕ) : List UInt32 :=
  let pn := if i + k + 1 < W ∧ s ≠ 0 then
    pn.modify (i + k + 1) (· ||| a.getD i 0 >>> (32 - s).toUInt32) else pn
  if i + k < W then pn.modify (i + k) (· ||| a.getD i 0 <<< s.toUInt32) else pn

/-- One pass of the loop of `operator>>=`, at limb `i` of the old value `a`: the low `s` bits
of `a.pn[i]` go to limb `i - k - 1`, the rest to limb `i - k`. The source's `i - k - 1 >= 0`
is on `int`. -/
def shrStep (a : List UInt32) (k s : ℕ) (pn : List UInt32) (i : ℕ) : List UInt32 :=
  let pn := if k + 1 ≤ i ∧ s ≠ 0 then
    pn.modify (i - k - 1) (· ||| a.getD i 0 <<< (32 - s).toUInt32) else pn
  if k ≤ i then pn.modify (i - k) (· ||| a.getD i 0 >>> s.toUInt32) else pn

/-- The inner loop of `bits()` on a nonzero limb `x`:
`for (int nbits = 31; nbits > 0; nbits--) if (x & 1U << nbits) return nbits + 1;`, then `1`.
`limbBits x n` tries `nbits = n, …, 1`. -/
def limbBits (x : UInt32) : ℕ → ℕ
  | 0 => 1
  | n + 1 => if x &&& (1 : UInt32) <<< (n + 1).toUInt32 ≠ 0 then n + 2 else limbBits x n

/-- The outer loop of `bits()`: `for (int pos = WIDTH - 1; pos >= 0; pos--) if (pn[pos]) …`,
then `0`. `bitsLoop pn n` tries `pos = n - 1, …, 0`. -/
def bitsLoop (pn : List UInt32) : ℕ → ℕ
  | 0 => 0
  | pos + 1 =>
    if pn.getD pos 0 ≠ 0 then 32 * pos + limbBits (pn.getD pos 0) 31 else bitsLoop pn pos

/-- The loop of `CompareTo`, from the top limb down: `compareLoop a b n` compares the limbs
`n - 1, …, 0`. -/
def compareLoop (a b : List UInt32) : ℕ → ℤ
  | 0 => 0
  | i + 1 =>
    if a.getD i 0 < b.getD i 0 then -1
    else if a.getD i 0 > b.getD i 0 then 1
    else compareLoop a b i

theorem length_shlStep (W : ℕ) (a : List UInt32) (k s : ℕ) (pn : List UInt32) (i : ℕ) :
    (shlStep W a k s pn i).length = pn.length := by
  unfold shlStep
  split_ifs <;> simp

theorem length_shrStep (a : List UInt32) (k s : ℕ) (pn : List UInt32) (i : ℕ) :
    (shrStep a k s pn i).length = pn.length := by
  unfold shrStep
  split_ifs <;> simp

theorem length_incLimbs : ∀ l : List UInt32, (incLimbs l).length = l.length
  | [] => rfl
  | x :: xs => by
    by_cases h : x + 1 = 0 <;> simp [incLimbs, h, length_incLimbs xs]

theorem length_mulRow (x : UInt32) {acc b : List UInt32} {j : ℕ} (hj : j ≤ acc.length)
    (hb : acc.length - j ≤ b.length) : (mulRow x acc b j).length = acc.length := by
  simp only [mulRow, List.length_append, List.length_take, length_carryLoop, List.length_zip,
    List.length_drop]
  omega

theorem length_mulRows (pn b : List UInt32) {n : ℕ} (hb : n ≤ b.length) :
    ∀ {acc : List UInt32}, acc.length = b.length → n ≤ acc.length →
      (mulRows pn b acc n).length = acc.length := by
  induction n with
  | zero => intro acc _ _; rfl
  | succ n ih =>
    intro acc hacc hn
    rw [mulRows, List.range_succ, List.foldl_append, List.foldl_cons, List.foldl_nil, ← mulRows,
      length_mulRow _ (by rw [ih (by omega) hacc (by omega)]; omega)
        (by rw [ih (by omega) hacc (by omega)]; omega),
      ih (by omega) hacc (by omega)]

theorem length_complement (a : base_uint BITS) : (a.pn.map (~~~ ·)).length = BITS / 32 :=
  (List.length_map _).trans a.length_pn

theorem length_inc (a : base_uint BITS) : (incLimbs a.pn).length = BITS / 32 :=
  (length_incLimbs a.pn).trans a.length_pn

theorem length_add (a b : base_uint BITS) :
    (carryLoop addStep 0 (a.pn.zip b.pn)).1.length = BITS / 32 := by
  simp [a.length_pn, b.length_pn]

theorem length_mulU32 (a : base_uint BITS) (b32 : UInt32) :
    (carryLoop (mulU32Step b32) 0 a.pn).1.length = BITS / 32 := by
  simp [a.length_pn]

theorem length_mul (a b : base_uint BITS) :
    (mulRows a.pn b.pn (List.replicate (BITS / 32) 0) (BITS / 32)).length = BITS / 32 := by
  rw [length_mulRows _ _ (by rw [b.length_pn]) (by simp [b.length_pn]) (by simp),
    List.length_replicate]

theorem length_shiftLeft (a : base_uint BITS) (shift : ℕ) :
    ((List.range (BITS / 32)).foldl (shlStep (BITS / 32) a.pn (shift / 32) (shift % 32))
      (List.replicate (BITS / 32) 0)).length = BITS / 32 :=
  foldl_inv _ (fun l => l.length = BITS / 32)
    (fun l i hl => (length_shlStep _ _ _ _ l i).trans hl) _ _ List.length_replicate

theorem length_shiftRight (a : base_uint BITS) (shift : ℕ) :
    ((List.range (BITS / 32)).foldl (shrStep a.pn (shift / 32) (shift % 32))
      (List.replicate (BITS / 32) 0)).length = BITS / 32 :=
  foldl_inv _ (fun l => l.length = BITS / 32)
    (fun l i hl => (length_shrStep _ _ _ l i).trans hl) _ _ List.length_replicate

theorem length_setBit (a : base_uint BITS) (shift : ℕ) :
    (a.pn.modify (shift / 32) (· ||| (1 : UInt32) <<< (shift &&& 31).toUInt32)).length =
      BITS / 32 :=
  (List.length_modify _ _ _).trans a.length_pn

theorem length_ofUInt64 (b : UInt64) :
    ((b.toUInt32 :: (b >>> 32).toUInt32 :: List.replicate (BITS / 32 - 2) 0).take
      (BITS / 32)).length = BITS / 32 := by
  simp only [List.length_take, List.length_cons, List.length_replicate]
  omega

/-! ### The operators -/

/-- `base_uint()`: all limbs zero. -/
def zero : base_uint BITS := ⟨List.replicate (BITS / 32) 0, List.length_replicate⟩

/-- `base_uint(uint64_t b)`: the low and the high half of `b` in the two lowest limbs. (For a
`WIDTH` below `2` the source writes past the array; the model keeps the low limb.) -/
def ofUInt64 (b : UInt64) : base_uint BITS :=
  ⟨(b.toUInt32 :: (b >>> 32).toUInt32 :: List.replicate (BITS / 32 - 2) 0).take (BITS / 32),
    length_ofUInt64 b⟩

/-- `GetLow64()`: `pn[0] | (uint64_t)pn[1] << 32`. -/
def GetLow64 (a : base_uint BITS) : UInt64 :=
  (a.pn.getD 0 0).toUInt64 ||| (a.pn.getD 1 0).toUInt64 <<< 32

/-- `operator~`. -/
def complement (a : base_uint BITS) : base_uint BITS := ⟨a.pn.map (~~~ ·), length_complement a⟩

/-- `operator++`. -/
def inc (a : base_uint BITS) : base_uint BITS := ⟨incLimbs a.pn, length_inc a⟩

/-- Unary `operator-`: `~` then `++`, the two's complement. -/
def neg (a : base_uint BITS) : base_uint BITS := a.complement.inc

/-- `operator+=`. -/
def add (a b : base_uint BITS) : base_uint BITS :=
  ⟨(carryLoop addStep 0 (a.pn.zip b.pn)).1, length_add a b⟩

/-- `operator-=`: `*this += -b`. -/
def sub (a b : base_uint BITS) : base_uint BITS := a.add b.neg

/-- `operator*=(uint32_t b32)`. -/
def mulU32 (a : base_uint BITS) (b32 : UInt32) : base_uint BITS :=
  ⟨(carryLoop (mulU32Step b32) 0 a.pn).1, length_mulU32 a b32⟩

/-- `operator*=(const base_uint& b)`: the rows into a zeroed accumulator. -/
def mul (a b : base_uint BITS) : base_uint BITS :=
  ⟨mulRows a.pn b.pn (List.replicate (BITS / 32) 0) (BITS / 32), length_mul a b⟩

/-- `operator<<=(unsigned int shift)`: the limbs of the old value ORed, shifted, into a zeroed
array. The shift is taken as any natural number. -/
def shiftLeft (a : base_uint BITS) (shift : ℕ) : base_uint BITS :=
  ⟨(List.range (BITS / 32)).foldl (shlStep (BITS / 32) a.pn (shift / 32) (shift % 32))
    (List.replicate (BITS / 32) 0), length_shiftLeft a shift⟩

/-- `operator>>=(unsigned int shift)`. -/
def shiftRight (a : base_uint BITS) (shift : ℕ) : base_uint BITS :=
  ⟨(List.range (BITS / 32)).foldl (shrStep a.pn (shift / 32) (shift % 32))
    (List.replicate (BITS / 32) 0), length_shiftRight a shift⟩

/-- `bits()`: the position of the highest bit set plus one, or zero. -/
def bits (a : base_uint BITS) : ℕ := bitsLoop a.pn (BITS / 32)

/-- `CompareTo`: `-1`, `1` or `0`. -/
def CompareTo (a b : base_uint BITS) : ℤ := compareLoop a.pn b.pn (BITS / 32)

/-- `pn[shift / 32] |= (1 << (shift & 31))`: the quotient's bit in `operator/=`. -/
def setBit (a : base_uint BITS) (shift : ℕ) : base_uint BITS :=
  ⟨a.pn.modify (shift / 32) (· ||| (1 : UInt32) <<< (shift &&& 31).toUInt32),
    length_setBit a shift⟩

/-- The loop of `operator/=`: `divLoop num div q n` runs the passes for
`shift = n - 1, …, 0`. A pass subtracts the aligned divisor when `num >= div` and sets the
quotient's bit `shift`; every pass shifts the divisor back by one. -/
def divLoop (num div q : base_uint BITS) : ℕ → base_uint BITS
  | 0 => q
  | shift + 1 =>
    if num.CompareTo div ≥ 0 then
      divLoop (num.sub div) (div.shiftRight 1) (q.setBit shift) shift
    else divLoop num (div.shiftRight 1) q shift

/-- `operator/=`: `uint_error("Division by zero")` for a zero divisor, the quotient `0` when
the divisor has more bits than the dividend, and otherwise the loop from
`shift = num_bits - div_bits` down, with the divisor shifted to align with the dividend. -/
def div (a b : base_uint BITS) : Except String (base_uint BITS) :=
  let num_bits := a.bits
  let div_bits := b.bits
  if div_bits = 0 then .error "Division by zero"
  else if div_bits > num_bits then .ok zero
  else
    let shift := num_bits - div_bits
    .ok (divLoop a (b.shiftLeft shift) zero (shift + 1))

/-! ### One carry step -/

theorem splitLimb_value (n : UInt64) :
    (splitLimb n).1.toNat + 2 ^ 32 * (splitLimb n).2.toNat = n.toNat := by
  have hmask : (0xffffffff : UInt64).toNat = 2 ^ 32 - 1 := rfl
  have h32 : (32 : UInt64).toNat % 64 = 32 := rfl
  rw [splitLimb, UInt64.toNat_toUInt32, UInt64.toNat_and, hmask, Nat.and_two_pow_sub_one_eq_mod,
    Nat.mod_mod, UInt64.toNat_shiftRight, h32, Nat.shiftRight_eq_div_pow, Nat.mod_add_div]

theorem toNat_lt_of_mem (l : List UInt32) : ∀ x ∈ l.map UInt32.toNat, x < 2 ^ 32 := by
  intro x hx
  obtain ⟨y, -, rfl⟩ := List.mem_map.mp hx
  exact y.toNat_lt

/-- A sum of a carry below `2 ^ 32` and a product of two limbs plus a limb fits 64 bits. -/
theorem mulAdd_lt {c o x y : ℕ} (hc : c < 2 ^ 32) (ho : o < 2 ^ 32) (hx : x < 2 ^ 32)
    (hy : y < 2 ^ 32) : c + o + x * y < 2 ^ 64 := by
  have hxy : x * y ≤ (2 ^ 32 - 1) * (2 ^ 32 - 1) := Nat.mul_le_mul (by omega) (by omega)
  omega

theorem addStep_value {c : UInt64} (hc : c.toNat ≤ 1) (x : UInt32 × UInt32) :
    (addStep c x).1.toNat + 2 ^ 32 * (addStep c x).2.toNat = x.1.toNat + x.2.toNat + c.toNat := by
  have h₁ := x.1.toNat_lt
  have h₂ := x.2.toNat_lt
  rw [addStep, splitLimb_value]
  simp only [UInt64.toNat_add, UInt32.toNat_toUInt64]
  omega

theorem addStep_carry {c : UInt64} (hc : c.toNat ≤ 1) (x : UInt32 × UInt32) :
    (addStep c x).2.toNat ≤ 1 := by
  have h := addStep_value hc x
  have h₁ := x.1.toNat_lt
  have h₂ := x.2.toNat_lt
  omega

theorem mulU32Step_value (b32 : UInt32) {c : UInt64} (hc : c.toNat < 2 ^ 32) (x : UInt32) :
    (mulU32Step b32 c x).1.toNat + 2 ^ 32 * (mulU32Step b32 c x).2.toNat =
      b32.toNat * x.toNat + c.toNat := by
  have hlt := mulAdd_lt hc (by norm_num : (0 : ℕ) < 2 ^ 32) b32.toNat_lt x.toNat_lt
  rw [mulU32Step, splitLimb_value]
  simp only [UInt64.toNat_add, UInt64.toNat_mul, UInt32.toNat_toUInt64]
  rw [Nat.mod_eq_of_lt (a := b32.toNat * x.toNat) (by omega)]
  omega

theorem mulU32Step_carry (b32 : UInt32) {c : UInt64} (hc : c.toNat < 2 ^ 32) (x : UInt32) :
    (mulU32Step b32 c x).2.toNat < 2 ^ 32 := by
  have h := mulU32Step_value b32 hc x
  have hlt := mulAdd_lt hc (by norm_num : (0 : ℕ) < 2 ^ 32) b32.toNat_lt x.toNat_lt
  omega

theorem mulAddStep_value (x : UInt32) {c : UInt64} (hc : c.toNat < 2 ^ 32) (o : UInt32 × UInt32) :
    (mulAddStep x c o).1.toNat + 2 ^ 32 * (mulAddStep x c o).2.toNat =
      o.1.toNat + x.toNat * o.2.toNat + c.toNat := by
  have hlt := mulAdd_lt hc o.1.toNat_lt x.toNat_lt o.2.toNat_lt
  rw [mulAddStep, splitLimb_value]
  simp only [UInt64.toNat_add, UInt64.toNat_mul, UInt32.toNat_toUInt64]
  rw [Nat.mod_eq_of_lt (a := x.toNat * o.2.toNat) (by omega)]
  omega

theorem mulAddStep_carry (x : UInt32) {c : UInt64} (hc : c.toNat < 2 ^ 32) (o : UInt32 × UInt32) :
    (mulAddStep x c o).2.toNat < 2 ^ 32 := by
  have h := mulAddStep_value x hc o
  have hlt := mulAdd_lt hc o.1.toNat_lt x.toNat_lt o.2.toNat_lt
  omega

/-! ### Addition, negation, subtraction -/

/-- The modulus `2 ^ (32 * WIDTH)`. -/
theorem pow_width : (2 ^ 32 : ℕ) ^ (BITS / 32) = 2 ^ (32 * (BITS / 32)) := (pow_mul 2 32 _).symm

theorem toNat_lt (a : base_uint BITS) : a.toNat < 2 ^ (32 * (BITS / 32)) := by
  have h := Nat.ofDigits_lt_base_pow_length (by norm_num) (toNat_lt_of_mem a.pn)
  rwa [List.length_map, a.length_pn, pow_width] at h

/-- A number below the modulus that is congruent to `v` is `v` reduced. -/
theorem eq_mod_of_add_mul {A M c v : ℕ} (hA : A < M) (h : A + M * c = v) : A = v % M := by
  rw [← h, Nat.add_mul_mod_self_left, Nat.mod_eq_of_lt hA]

theorem toNat_add (a b : base_uint BITS) :
    (a.add b).toNat = (a.toNat + b.toNat) % 2 ^ (32 * (BITS / 32)) := by
  have hloop := carryLoop_value (2 ^ 32) addStep UInt32.toNat (fun x => x.1.toNat + x.2.toNat)
    UInt64.toNat (fun c => c.toNat ≤ 1) (fun _ x hc => addStep_carry hc x)
    (fun _ x hc => by rw [addStep_value hc]) 0 (a.pn.zip b.pn) (by decide)
  have hlen : (a.pn.zip b.pn).length = BITS / 32 := by simp [a.length_pn, b.length_pn]
  rw [ofDigits_map_zip_add _ _ _ _ _ (by rw [a.length_pn, b.length_pn]), a.length_pn,
    ← b.length_pn, List.take_length, hlen, pow_width, UInt64.toNat_zero, Nat.add_zero] at hloop
  exact eq_mod_of_add_mul (a.add b).toNat_lt hloop

theorem toNat_incLimbs :
    ∀ l : List UInt32, Nat.ofDigits (2 ^ 32) ((incLimbs l).map UInt32.toNat) =
      (Nat.ofDigits (2 ^ 32) (l.map UInt32.toNat) + 1) % (2 ^ 32) ^ l.length
  | [] => by simp [incLimbs]
  | x :: xs => by
    have hx := x.toNat_lt
    have hrest := Nat.ofDigits_lt_base_pow_length (by norm_num) (toNat_lt_of_mem xs)
    rw [List.length_map] at hrest
    have h1 : (x + 1).toNat = (x.toNat + 1) % 2 ^ 32 := by rw [UInt32.toNat_add, UInt32.toNat_one]
    rw [incLimbs, List.map_cons, List.map_cons, Nat.ofDigits_cons, Nat.ofDigits_cons,
      List.length_cons, pow_succ' (2 ^ 32 : ℕ) xs.length]
    by_cases hwrap : x + 1 = 0
    · -- the limb wraps to zero and the carry moves on
      have hx' : x.toNat = 2 ^ 32 - 1 := by
        have h := congrArg UInt32.toNat hwrap
        rw [h1, UInt32.toNat_zero] at h
        omega
      rw [if_pos hwrap, toNat_incLimbs xs, hwrap, UInt32.toNat_zero, Nat.zero_add, hx',
        show 2 ^ 32 - 1 + 2 ^ 32 * Nat.ofDigits (2 ^ 32) (xs.map UInt32.toNat) + 1 =
          2 ^ 32 * (Nat.ofDigits (2 ^ 32) (xs.map UInt32.toNat) + 1) by omega,
        Nat.mul_mod_mul_left]
    · -- the limb does not wrap, and the loop stops
      have hlow : x.toNat + 1 < 2 ^ 32 := by
        have h : (x + 1).toNat ≠ 0 := fun h => hwrap (UInt32.toNat_inj.mp h)
        rw [h1] at h
        omega
      have hlt : x.toNat + 2 ^ 32 * Nat.ofDigits (2 ^ 32) (xs.map UInt32.toNat) + 1 <
          2 ^ 32 * (2 ^ 32) ^ xs.length :=
        calc x.toNat + 2 ^ 32 * Nat.ofDigits (2 ^ 32) (xs.map UInt32.toNat) + 1
            < 2 ^ 32 + 2 ^ 32 * Nat.ofDigits (2 ^ 32) (xs.map UInt32.toNat) := by omega
          _ = 2 ^ 32 * (Nat.ofDigits (2 ^ 32) (xs.map UInt32.toNat) + 1) := by ring
          _ ≤ 2 ^ 32 * (2 ^ 32) ^ xs.length := Nat.mul_le_mul_left _ hrest
      rw [if_neg hwrap, h1, Nat.mod_eq_of_lt hlow, Nat.mod_eq_of_lt hlt, Nat.add_right_comm]

theorem toNat_inc (a : base_uint BITS) :
    a.inc.toNat = (a.toNat + 1) % 2 ^ (32 * (BITS / 32)) := by
  rw [inc, toNat, toNat_incLimbs, a.length_pn, pow_width]
  rfl

theorem toNat_complement (a : base_uint BITS) :
    a.complement.toNat = 2 ^ (32 * (BITS / 32)) - 1 - a.toNat := by
  have h := ofDigits_map_complement_add (by norm_num) _ (toNat_lt_of_mem a.pn)
  have hmap : (a.pn.map (~~~ ·)).map UInt32.toNat =
      (a.pn.map UInt32.toNat).map fun x => 2 ^ 32 - 1 - x := by
    simp [Function.comp_def, UInt32.toNat_not]
  rw [List.length_map, a.length_pn, pow_width, ← hmap] at h
  simp only [complement, toNat]
  omega

/-- The two's complement: `-a` stands for `2 ^ (32 * WIDTH) - a`, and `-0` for `0`. -/
theorem toNat_neg (a : base_uint BITS) :
    a.neg.toNat = (2 ^ (32 * (BITS / 32)) - a.toNat) % 2 ^ (32 * (BITS / 32)) := by
  have hlt := a.toNat_lt
  rw [neg, toNat_inc, toNat_complement]
  congr 1
  omega

theorem toNat_sub (a b : base_uint BITS) :
    ((a.sub b).toNat : ℤ) = ((a.toNat : ℤ) - b.toNat) % (2 ^ (32 * (BITS / 32)) : ℕ) := by
  have hb := b.toNat_lt
  rw [sub, toNat_add, toNat_neg, Nat.add_mod_mod, Int.natCast_emod, Nat.cast_add,
    Nat.cast_sub hb.le, show (a.toNat : ℤ) + (((2 ^ (32 * (BITS / 32)) : ℕ) : ℤ) - b.toNat) =
      a.toNat - b.toNat + ((2 ^ (32 * (BITS / 32)) : ℕ) : ℤ) by ring, ← Int.emod_eq_add_self_emod]

/-! ### Words of 64 bits -/

theorem toNat_zero : (zero : base_uint BITS).toNat = 0 := by
  rw [zero, toNat, List.map_replicate, UInt32.toNat_zero, Nat.ofDigits_replicate_zero]

/-- `base_uint(uint64_t b)` stands for `b`, once there are two limbs to hold it. -/
theorem toNat_ofUInt64 (hw : 2 ≤ BITS / 32) (b : UInt64) :
    (ofUInt64 b : base_uint BITS).toNat = b.toNat := by
  have hlen : (b.toUInt32 :: (b >>> 32).toUInt32 :: List.replicate (BITS / 32 - 2) 0).length =
      BITS / 32 := by simp; omega
  have hb := b.toNat_lt
  have h32 : (32 : UInt64).toNat % 64 = 32 := rfl
  rw [ofUInt64, toNat]
  simp only [List.take_of_length_le hlen.le, List.map_cons, List.map_replicate, UInt32.toNat_zero,
    Nat.ofDigits_cons, Nat.ofDigits_replicate_zero, UInt64.toNat_toUInt32,
    UInt64.toNat_shiftRight, h32, Nat.shiftRight_eq_div_pow]
  omega

/-- `base_uint(uint64_t)` of an `int64_t`: the value modulo `2 ^ 64`. -/
theorem toNat_ofUInt64_ofInt (hw : 2 ≤ BITS / 32) (v : ℤ) :
    (ofUInt64 (UInt64.ofInt v) : base_uint BITS).toNat = (v % 2 ^ 64).toNat := by
  rw [toNat_ofUInt64 hw]
  simp only [UInt64.ofInt, UInt64.toNat_ofNat']
  omega

/-- `GetLow64()` is the value modulo `2 ^ 64`. -/
theorem toNat_GetLow64 (hw : 2 ≤ BITS / 32) (a : base_uint BITS) :
    a.GetLow64.toNat = a.toNat % 2 ^ 64 := by
  obtain ⟨x₀, x₁, rest, hpn⟩ : ∃ x₀ x₁ rest, a.pn = x₀ :: x₁ :: rest := by
    rcases h : a.pn with _ | ⟨x₀, _ | ⟨x₁, rest⟩⟩
    · have := a.length_pn; rw [h] at this; simp at this; omega
    · have := a.length_pn; rw [h] at this; simp at this; omega
    · exact ⟨x₀, x₁, rest, rfl⟩
  have h₀ := x₀.toNat_lt
  have h₁ := x₁.toNat_lt
  have h32 : (32 : UInt64).toNat % 64 = 32 := rfl
  have hor : x₀.toNat ||| x₁.toNat * 2 ^ 32 = x₀.toNat + 2 ^ 32 * x₁.toNat := by
    rw [Nat.or_comm, Nat.mul_comm, ← Nat.two_pow_add_eq_or_of_lt h₀, Nat.add_comm]
  rw [GetLow64, toNat, hpn, List.getD_cons_zero, List.getD_cons_succ, List.getD_cons_zero,
    UInt64.toNat_or, UInt64.toNat_shiftLeft, h32, UInt32.toNat_toUInt64, UInt32.toNat_toUInt64,
    Nat.shiftLeft_eq, Nat.mod_eq_of_lt (by omega : x₁.toNat * 2 ^ 32 < 2 ^ 64), hor]
  simp only [List.map_cons, Nat.ofDigits_cons]
  omega

/-! ### Multiplication -/

theorem toNat_mulU32 (a : base_uint BITS) (b32 : UInt32) :
    (a.mulU32 b32).toNat = (a.toNat * b32.toNat) % 2 ^ (32 * (BITS / 32)) := by
  have hloop := carryLoop_value (2 ^ 32) (mulU32Step b32) UInt32.toNat
    (fun x => b32.toNat * x.toNat) UInt64.toNat (fun c => c.toNat < 2 ^ 32)
    (fun _ x hc => mulU32Step_carry b32 hc x) (fun _ x hc => by rw [mulU32Step_value b32 hc])
    0 a.pn (by decide)
  rw [ofDigits_map_mul_left (2 ^ 32) b32.toNat UInt32.toNat a.pn, a.length_pn, pow_width,
    UInt64.toNat_zero, Nat.add_zero] at hloop
  rw [mul_comm]
  exact eq_mod_of_add_mul (a.mulU32 b32).toNat_lt hloop

/-- The value of a list of limbs, split where its first `j` limbs end. -/
theorem ofDigits_take_add_drop (l : List UInt32) {j : ℕ} (hj : j ≤ l.length) :
    Nat.ofDigits (2 ^ 32) (l.map UInt32.toNat) =
      Nat.ofDigits (2 ^ 32) ((l.take j).map UInt32.toNat) +
        (2 ^ 32) ^ j * Nat.ofDigits (2 ^ 32) ((l.drop j).map UInt32.toNat) := by
  conv_lhs => rw [← List.take_append_drop j l]
  rw [List.map_append, Nat.ofDigits_append, List.length_map, List.length_take, min_eq_left hj]

/-- Row `j` of `operator*=` adds `x · 2 ^ (32 j) · b` to the accumulator, modulo its width:
the limbs of `b` beyond the triangle only carry weight above the width. -/
theorem mulRow_value (x : UInt32) {acc b : List UInt32} {j : ℕ} (hj : j ≤ acc.length)
    (hb : acc.length - j ≤ b.length) :
    Nat.ofDigits (2 ^ 32) ((mulRow x acc b j).map UInt32.toNat) =
      (Nat.ofDigits (2 ^ 32) (acc.map UInt32.toNat) +
        (2 ^ 32) ^ j * x.toNat * Nat.ofDigits (2 ^ 32) (b.map UInt32.toNat)) %
          (2 ^ 32) ^ acc.length := by
  have hzip : ((acc.drop j).zip b).length = acc.length - j := by simp; omega
  -- the carry loop over the limbs from `j` on
  have hloop := carryLoop_value (2 ^ 32) (mulAddStep x) UInt32.toNat
    (fun o => o.1.toNat + x.toNat * o.2.toNat) UInt64.toNat (fun c => c.toNat < 2 ^ 32)
    (fun _ o hc => mulAddStep_carry x hc o) (fun _ o hc => by rw [mulAddStep_value x hc])
    0 ((acc.drop j).zip b) (by decide)
  have hsum := ofDigits_map_zip_add (2 ^ 32) UInt32.toNat (fun y : UInt32 => x.toNat * y.toNat)
    (acc.drop j) b (by rw [List.length_drop]; exact hb)
  rw [hsum, List.length_drop, ofDigits_map_mul_left (2 ^ 32) x.toNat UInt32.toNat, hzip,
    UInt64.toNat_zero, Nat.add_zero] at hloop
  have hrow : Nat.ofDigits (2 ^ 32) ((mulRow x acc b j).map UInt32.toNat) =
      Nat.ofDigits (2 ^ 32) ((acc.take j).map UInt32.toNat) + (2 ^ 32) ^ j *
        Nat.ofDigits (2 ^ 32) ((carryLoop (mulAddStep x) 0 ((acc.drop j).zip b)).1.map
          UInt32.toNat) := by
    rw [mulRow, List.map_append, Nat.ofDigits_append, List.length_map, List.length_take,
      min_eq_left hj]
  have hpow : (2 ^ 32 : ℕ) ^ acc.length = (2 ^ 32) ^ j * (2 ^ 32) ^ (acc.length - j) := by
    rw [← pow_add]; congr 1; omega
  have hlt := Nat.ofDigits_lt_base_pow_length (by norm_num)
    (toNat_lt_of_mem (mulRow x acc b j))
  rw [List.length_map, length_mulRow x hj hb] at hlt
  -- what the row drops: the last carry, and the limbs of `b` beyond the triangle
  refine eq_mod_of_add_mul hlt (c := (carryLoop (mulAddStep x) 0 ((acc.drop j).zip b)).2.toNat +
    x.toNat * Nat.ofDigits (2 ^ 32) ((b.drop (acc.length - j)).map UInt32.toNat)) ?_
  rw [hrow, ofDigits_take_add_drop acc hj, ofDigits_take_add_drop b hb, hpow]
  calc _ = Nat.ofDigits (2 ^ 32) ((acc.take j).map UInt32.toNat) + (2 ^ 32) ^ j *
          (Nat.ofDigits (2 ^ 32) ((carryLoop (mulAddStep x) 0 ((acc.drop j).zip b)).1.map
            UInt32.toNat) + (2 ^ 32) ^ (acc.length - j) *
              (carryLoop (mulAddStep x) 0 ((acc.drop j).zip b)).2.toNat) +
        (2 ^ 32) ^ j * (2 ^ 32) ^ (acc.length - j) * x.toNat *
          Nat.ofDigits (2 ^ 32) ((b.drop (acc.length - j)).map UInt32.toNat) := by ring
    _ = _ := by rw [hloop]; ring

/-- After the rows `0, …, n - 1`, the accumulator has gained the low `n` limbs of the
multiplier times `b`, modulo the width. -/
theorem mulRows_value (pn b : List UInt32) (hpn : pn.length = b.length) :
    ∀ {n : ℕ}, n ≤ b.length → ∀ {acc : List UInt32}, acc.length = b.length →
      Nat.ofDigits (2 ^ 32) ((mulRows pn b acc n).map UInt32.toNat) =
        (Nat.ofDigits (2 ^ 32) (acc.map UInt32.toNat) +
          Nat.ofDigits (2 ^ 32) ((pn.take n).map UInt32.toNat) *
            Nat.ofDigits (2 ^ 32) (b.map UInt32.toNat)) % (2 ^ 32) ^ b.length
  | 0, _, acc, hacc => by
    have hlt := Nat.ofDigits_lt_base_pow_length (by norm_num) (toNat_lt_of_mem acc)
    rw [List.length_map, hacc] at hlt
    rw [mulRows, List.range_zero, List.foldl_nil, List.take_zero, List.map_nil,
      Nat.ofDigits_nil, Nat.zero_mul, Nat.add_zero, Nat.mod_eq_of_lt hlt]
  | n + 1, hn, acc, hacc => by
    have hlen := length_mulRows pn b (n := n) (by omega) hacc (by omega)
    have hpn' : n < (pn.map UInt32.toNat).length := by rw [List.length_map]; omega
    rw [mulRows, List.range_succ, List.foldl_append, List.foldl_cons, List.foldl_nil, ← mulRows,
      mulRow_value _ (by omega) (by omega), hlen, hacc,
      mulRows_value pn b hpn (n := n) (by omega) hacc, Nat.mod_add_mod,
      List.map_take (i := n + 1), ofDigits_take_succ _ hpn', ← List.map_take, List.getElem_map,
      List.getD_eq_getElem _ _ (by omega)]
    congr 1
    ring

theorem toNat_mul (a b : base_uint BITS) :
    (a.mul b).toNat = (a.toNat * b.toNat) % 2 ^ (32 * (BITS / 32)) := by
  have h := mulRows_value a.pn b.pn (a.length_pn.trans b.length_pn.symm) (n := BITS / 32)
    b.length_pn.ge (show (List.replicate (BITS / 32) (0 : UInt32)).length = b.pn.length by
      rw [List.length_replicate, b.length_pn])
  rw [List.map_replicate, UInt32.toNat_zero, Nat.ofDigits_replicate_zero, Nat.zero_add,
    List.take_of_length_le a.length_pn.le, b.length_pn, pow_width] at h
  exact h

/-! ### Shifts

Both shifts are proved bit by bit: bit `n` of a value is bit `n % 32` of its limb `n / 32`, and
a limb's bit is set at the end of a shift loop iff one of the passes ORed it in. -/

theorem testBit_toNat (a : base_uint BITS) (n : ℕ) :
    a.toNat.testBit n = (a.pn.getD (n / 32) 0).toNat.testBit (n % 32) := by
  rw [toNat, testBit_ofDigits (by norm_num) _ (toNat_lt_of_mem a.pn), ← UInt32.toNat_zero,
    List.getD_map]

theorem getD_pn_of_le (a : base_uint BITS) {j : ℕ} (hj : BITS / 32 ≤ j) : a.pn.getD j 0 = 0 :=
  List.getD_eq_default _ _ (a.length_pn ▸ hj)

theorem testBit_shlStep {W : ℕ} (a : List UInt32) (k s : ℕ) {pn : List UInt32}
    (hpn : pn.length = W) (i r q : ℕ) :
    ((shlStep W a k s pn i).getD r 0).toNat.testBit q = true ↔
      (pn.getD r 0).toNat.testBit q = true ∨
        ((r = i + k + 1 ∧ i + k + 1 < W ∧ s ≠ 0 ∧
            (a.getD i 0 >>> (32 - s).toUInt32).toNat.testBit q = true) ∨
          (r = i + k ∧ i + k < W ∧ (a.getD i 0 <<< s.toUInt32).toNat.testBit q = true)) := by
  rw [shlStep, testBit_getD_ite_modify_or, length_ite_modify, testBit_getD_ite_modify_or, hpn]
  tauto

theorem testBit_shrStep {W : ℕ} (a : List UInt32) (k s : ℕ) {pn : List UInt32}
    (hpn : pn.length = W) (i r q : ℕ) :
    ((shrStep a k s pn i).getD r 0).toNat.testBit q = true ↔
      (pn.getD r 0).toNat.testBit q = true ∨
        ((k + 1 ≤ i ∧ s ≠ 0 ∧ r = i - k - 1 ∧ i - k - 1 < W ∧
            (a.getD i 0 <<< (32 - s).toUInt32).toNat.testBit q = true) ∨
          (k ≤ i ∧ r = i - k ∧ i - k < W ∧
            (a.getD i 0 >>> s.toUInt32).toNat.testBit q = true)) := by
  rw [shrStep, testBit_getD_ite_modify_or, length_ite_modify, testBit_getD_ite_modify_or, hpn]
  tauto

/-- The zeroed array the shift loops start from has no bit set. -/
theorem testBit_getD_replicate_zero (W r q : ℕ) :
    ((List.replicate W (0 : UInt32)).getD r 0).toNat.testBit q = false := by
  rw [List.getD_eq_getElem?_getD, List.getElem?_replicate]
  split_ifs <;> simp

/-- A limb's bit after the whole loop of `operator<<=`: one of the passes ORed it in. -/
theorem testBit_shiftLeft_pn (a : base_uint BITS) (shift r q : ℕ) :
    ((a.shiftLeft shift).pn.getD r 0).toNat.testBit q = true ↔
      ∃ i < BITS / 32,
        (r = i + shift / 32 + 1 ∧ i + shift / 32 + 1 < BITS / 32 ∧ shift % 32 ≠ 0 ∧
            (a.pn.getD i 0 >>> (32 - shift % 32).toUInt32).toNat.testBit q = true) ∨
          (r = i + shift / 32 ∧ i + shift / 32 < BITS / 32 ∧
            (a.pn.getD i 0 <<< (shift % 32).toUInt32).toNat.testBit q = true) := by
  have h := foldl_range_accum (shlStep (BITS / 32) a.pn (shift / 32) (shift % 32))
    (fun l => l.length = BITS / 32) (fun l i hl => (length_shlStep _ _ _ _ l i).trans hl)
    (fun l => (l.getD r 0).toNat.testBit q = true) _
    (fun l i hl => testBit_shlStep a.pn _ _ hl i r q) (BITS / 32) (List.replicate (BITS / 32) 0)
    List.length_replicate
  rw [testBit_getD_replicate_zero, Bool.false_eq_true, false_or] at h
  exact h

/-- A limb's bit after the whole loop of `operator>>=`. -/
theorem testBit_shiftRight_pn (a : base_uint BITS) (shift r q : ℕ) :
    ((a.shiftRight shift).pn.getD r 0).toNat.testBit q = true ↔
      ∃ i < BITS / 32,
        (shift / 32 + 1 ≤ i ∧ shift % 32 ≠ 0 ∧ r = i - shift / 32 - 1 ∧
            i - shift / 32 - 1 < BITS / 32 ∧
            (a.pn.getD i 0 <<< (32 - shift % 32).toUInt32).toNat.testBit q = true) ∨
          (shift / 32 ≤ i ∧ r = i - shift / 32 ∧ i - shift / 32 < BITS / 32 ∧
            (a.pn.getD i 0 >>> (shift % 32).toUInt32).toNat.testBit q = true) := by
  have h := foldl_range_accum (shrStep a.pn (shift / 32) (shift % 32))
    (fun l => l.length = BITS / 32) (fun l i hl => (length_shrStep _ _ _ l i).trans hl)
    (fun l => (l.getD r 0).toNat.testBit q = true) _
    (fun l i hl => testBit_shrStep a.pn _ _ hl i r q) (BITS / 32) (List.replicate (BITS / 32) 0)
    List.length_replicate
  rw [testBit_getD_replicate_zero, Bool.false_eq_true, false_or] at h
  exact h

/-- `<<=` multiplies by `2 ^ shift` modulo the width, for every shift. -/
theorem toNat_shiftLeft (a : base_uint BITS) (shift : ℕ) :
    (a.shiftLeft shift).toNat = a.toNat * 2 ^ shift % 2 ^ (32 * (BITS / 32)) := by
  apply Nat.eq_of_testBit_eq
  intro n
  rw [testBit_toNat, Nat.testBit_mod_two_pow, Nat.testBit_mul_two_pow, testBit_toNat]
  apply Bool.eq_iff_iff.mpr
  rw [testBit_shiftLeft_pn]
  simp only [Bool.and_eq_true, decide_eq_true_eq]
  have hs : shift % 32 < 32 := Nat.mod_lt _ (by norm_num)
  constructor
  · rintro ⟨i, -, ⟨hr, hW, hs0, hb⟩ | ⟨hr, hW, hb⟩⟩
    · -- bit `n` came from the top of limb `i`, ORed into the limb above
      rw [testBit_shiftRight_toUInt32 _ (by omega)] at hb
      have hq := lt_of_testBit _ hb
      refine ⟨by omega, by omega, ?_⟩
      rwa [show (n - shift) / 32 = i by omega,
        show (n - shift) % 32 = 32 - shift % 32 + n % 32 by omega]
    · -- bit `n` came from the bottom of limb `i`
      rw [testBit_shiftLeft_toUInt32 _ hs] at hb
      simp only [Bool.and_eq_true, decide_eq_true_eq] at hb
      obtain ⟨-, hq, hb⟩ := hb
      refine ⟨by omega, by omega, ?_⟩
      rwa [show (n - shift) / 32 = i by omega, show (n - shift) % 32 = n % 32 - shift % 32 by omega]
  · rintro ⟨hn, hS, hb⟩
    have hj : (n - shift) / 32 < BITS / 32 := by omega
    by_cases hq : shift % 32 ≤ n % 32
    · refine ⟨(n - shift) / 32, hj, .inr ⟨by omega, by omega, ?_⟩⟩
      rw [testBit_shiftLeft_toUInt32 _ hs]
      simp only [Bool.and_eq_true, decide_eq_true_eq]
      refine ⟨by omega, hq, ?_⟩
      rwa [show n % 32 - shift % 32 = (n - shift) % 32 by omega]
    · refine ⟨(n - shift) / 32, hj, .inl ⟨by omega, by omega, by omega, ?_⟩⟩
      rw [testBit_shiftRight_toUInt32 _ (by omega)]
      rwa [show 32 - shift % 32 + n % 32 = (n - shift) % 32 by omega]

/-- `>>=` divides by `2 ^ shift`, for every shift. -/
theorem toNat_shiftRight (a : base_uint BITS) (shift : ℕ) :
    (a.shiftRight shift).toNat = a.toNat / 2 ^ shift := by
  apply Nat.eq_of_testBit_eq
  intro n
  rw [testBit_toNat, Nat.testBit_div_two_pow, testBit_toNat]
  apply Bool.eq_iff_iff.mpr
  rw [testBit_shiftRight_pn]
  have hs : shift % 32 < 32 := Nat.mod_lt _ (by norm_num)
  constructor
  · rintro ⟨i, -, ⟨hk, hs0, hr, -, hb⟩ | ⟨hk, hr, -, hb⟩⟩
    · -- bit `n` came from the bottom of limb `i`, ORed into the limb below
      rw [testBit_shiftLeft_toUInt32 _ (by omega)] at hb
      simp only [Bool.and_eq_true, decide_eq_true_eq] at hb
      obtain ⟨-, hq, hb⟩ := hb
      rwa [show (n + shift) / 32 = i by omega,
        show (n + shift) % 32 = n % 32 - (32 - shift % 32) by omega]
    · -- bit `n` came from the top of limb `i`
      rw [testBit_shiftRight_toUInt32 _ hs] at hb
      have hq := lt_of_testBit _ hb
      rwa [show (n + shift) / 32 = i by omega,
        show (n + shift) % 32 = shift % 32 + n % 32 by omega]
  · intro hb
    -- a set bit of `a` lies in one of its limbs
    have hj : (n + shift) / 32 < BITS / 32 := by
      by_contra hj
      rw [getD_pn_of_le a (by omega), UInt32.toNat_zero, Nat.zero_testBit] at hb
      exact Bool.false_ne_true hb
    by_cases hq : shift % 32 + n % 32 < 32
    · refine ⟨(n + shift) / 32, hj, .inr ⟨by omega, by omega, by omega, ?_⟩⟩
      rw [testBit_shiftRight_toUInt32 _ hs]
      rwa [show shift % 32 + n % 32 = (n + shift) % 32 by omega]
    · refine ⟨(n + shift) / 32, hj, .inl ⟨by omega, by omega, by omega, by omega, ?_⟩⟩
      rw [testBit_shiftLeft_toUInt32 _ (by omega)]
      simp only [Bool.and_eq_true, decide_eq_true_eq]
      refine ⟨by omega, by omega, ?_⟩
      rwa [show n % 32 - (32 - shift % 32) = (n + shift) % 32 by omega]

/-! ### Bit length and comparison -/

/-- The scan of one limb finds its bit length: the bit it tests is set, or the limb lies below
it. -/
theorem limbBits_eq_size (x : UInt32) (hx : x ≠ 0) :
    ∀ n, n < 32 → x.toNat < 2 ^ (n + 1) → limbBits x n = x.toNat.size
  | 0, _, hlt => by
    have h1 : x.toNat = 1 := by
      have : x.toNat ≠ 0 := fun h => hx (UInt32.toNat_inj.mp (h.trans UInt32.toNat_zero.symm))
      omega
    rw [limbBits, h1, Nat.size_one]
  | n + 1, hn, hlt => by
    by_cases hbit : x.toNat.testBit (n + 1) = true
    · rw [limbBits, if_pos ((and_one_shiftLeft_ne_zero x hn).mpr hbit)]
      apply le_antisymm
      · exact Nat.lt_size.mpr (Nat.ge_two_pow_of_testBit hbit)
      · exact Nat.size_le.mpr hlt
    · rw [limbBits, if_neg (fun h => hbit ((and_one_shiftLeft_ne_zero x hn).mp h))]
      -- bit `n + 1` is clear, and every bit above it too
      apply limbBits_eq_size x hx n (by omega)
      apply Nat.lt_pow_two_of_testBit
      intro i hi
      rcases Nat.eq_or_lt_of_le hi with rfl | hi'
      · simpa using hbit
      · exact Nat.testBit_lt_two_pow (hlt.trans_le (Nat.pow_le_pow_right (by norm_num) hi'))

theorem bitsLoop_eq_size (pn : List UInt32) :
    ∀ n, n ≤ pn.length → bitsLoop pn n = (Nat.ofDigits (2 ^ 32) ((pn.take n).map UInt32.toNat)).size
  | 0, _ => by simp [bitsLoop]
  | n + 1, hn => by
    have hn' : n < (pn.map UInt32.toNat).length := by rw [List.length_map]; omega
    have hlow := Nat.ofDigits_lt_base_pow_length (by norm_num)
      (toNat_lt_of_mem (pn.take n))
    rw [List.length_map, List.length_take, min_eq_left (by omega), ← pow_mul] at hlow
    rw [bitsLoop, List.map_take, ofDigits_take_succ _ hn', ← List.map_take, List.getElem_map,
      ← List.getD_eq_getElem pn 0 (by omega), ← pow_mul]
    by_cases hx : pn.getD n 0 = 0
    · rw [if_neg (not_not.mpr hx), hx, UInt32.toNat_zero, Nat.mul_zero, Nat.add_zero,
        bitsLoop_eq_size pn n (by omega)]
    · -- the top nonzero limb gives the bit length
      have hpos : 0 < (pn.getD n 0).toNat :=
        Nat.pos_of_ne_zero fun h => hx (UInt32.toNat_inj.mp (h.trans UInt32.toNat_zero.symm))
      rw [if_pos hx, size_add_two_pow_mul hlow hpos,
        limbBits_eq_size _ hx 31 (by norm_num) (pn.getD n 0).toNat_lt]

/-- `bits()` is the bit length. -/
theorem bits_eq_size (a : base_uint BITS) : a.bits = a.toNat.size := by
  rw [bits, bitsLoop_eq_size a.pn _ a.length_pn.ge, List.take_of_length_le a.length_pn.le]
  rfl

theorem compareLoop_eq (a b : List UInt32) :
    ∀ n, n ≤ a.length → n ≤ b.length →
      compareLoop a b n =
        if Nat.ofDigits (2 ^ 32) ((a.take n).map UInt32.toNat) <
            Nat.ofDigits (2 ^ 32) ((b.take n).map UInt32.toNat) then -1
        else if Nat.ofDigits (2 ^ 32) ((b.take n).map UInt32.toNat) <
            Nat.ofDigits (2 ^ 32) ((a.take n).map UInt32.toNat) then 1
        else 0
  | 0, _, _ => by simp [compareLoop]
  | n + 1, ha, hb => by
    have ha' : n < (a.map UInt32.toNat).length := by rw [List.length_map]; omega
    have hb' : n < (b.map UInt32.toNat).length := by rw [List.length_map]; omega
    have hA := Nat.ofDigits_lt_base_pow_length (by norm_num) (toNat_lt_of_mem (a.take n))
    have hB := Nat.ofDigits_lt_base_pow_length (by norm_num) (toNat_lt_of_mem (b.take n))
    rw [List.length_map, List.length_take, min_eq_left (by omega)] at hA hB
    rw [compareLoop, List.map_take, List.map_take, ofDigits_take_succ _ ha',
      ofDigits_take_succ _ hb', ← List.map_take, ← List.map_take, List.getElem_map,
      List.getElem_map, ← List.getD_eq_getElem a 0 (by omega),
      ← List.getD_eq_getElem b 0 (by omega)]
    by_cases hlt : a.getD n 0 < b.getD n 0
    · -- the limbs differ at `n`: they decide
      rw [if_pos hlt, if_pos (add_mul_lt_add_mul hA (UInt32.lt_iff_toNat_lt.mp hlt))]
    · by_cases hgt : a.getD n 0 > b.getD n 0
      · have hgt' := UInt32.lt_iff_toNat_lt.mp hgt
        rw [if_neg hlt, if_pos hgt, if_neg (not_lt.mpr (add_mul_lt_add_mul hB hgt').le),
          if_pos (add_mul_lt_add_mul hB hgt')]
      · -- equal limbs at `n`: the limbs below decide
        have heq : (a.getD n 0).toNat = (b.getD n 0).toNat := by
          have h₁ := mt UInt32.lt_iff_toNat_lt.mpr hlt
          have h₂ := mt UInt32.lt_iff_toNat_lt.mpr hgt
          omega
        rw [if_neg hlt, if_neg hgt, compareLoop_eq a b n (by omega) (by omega), heq]
        simp only [Nat.add_lt_add_iff_right]

/-- `CompareTo` agrees with the order on the numbers. -/
theorem CompareTo_eq (a b : base_uint BITS) :
    a.CompareTo b = if a.toNat < b.toNat then -1 else if b.toNat < a.toNat then 1 else 0 := by
  rw [CompareTo, compareLoop_eq a.pn b.pn _ a.length_pn.ge b.length_pn.ge,
    List.take_of_length_le a.length_pn.le, List.take_of_length_le b.length_pn.le]
  rfl

/-- `a > b`. -/
theorem CompareTo_pos_iff (a b : base_uint BITS) : 0 < a.CompareTo b ↔ b.toNat < a.toNat := by
  rw [CompareTo_eq]
  split_ifs <;> omega

/-- `a <= b`. -/
theorem CompareTo_nonpos_iff (a b : base_uint BITS) : a.CompareTo b ≤ 0 ↔ a.toNat ≤ b.toNat := by
  rw [CompareTo_eq]
  split_ifs <;> omega

/-! ### Division -/

/-- Subtraction that does not wrap. -/
theorem toNat_sub_of_le (a b : base_uint BITS) (h : b.toNat ≤ a.toNat) :
    (a.sub b).toNat = a.toNat - b.toNat := by
  have hs := toNat_sub a b
  have ha := a.toNat_lt
  rw [← Nat.cast_sub h, ← Int.natCast_emod, Nat.mod_eq_of_lt (by omega)] at hs
  exact_mod_cast hs

/-- Setting the quotient's bit ORs `2 ^ shift` into the value. -/
theorem toNat_setBit (a : base_uint BITS) {shift : ℕ} (hs : shift < 32 * (BITS / 32)) :
    (a.setBit shift).toNat = a.toNat ||| 2 ^ shift := by
  apply Nat.eq_of_testBit_eq
  intro n
  have hmask : shift &&& 31 = shift % 32 := Nat.and_two_pow_sub_one_eq_mod shift 5
  have hone : ∀ j, (1 : ℕ).testBit j = decide (0 = j) := fun j => by
    rw [← pow_zero 2, Nat.testBit_two_pow]
  rw [testBit_toNat, Nat.testBit_or, testBit_toNat, Nat.testBit_two_pow, setBit,
    testBit_getD_modify_or, hmask, testBit_shiftLeft_toUInt32 _ (Nat.mod_lt _ (by norm_num)),
    a.length_pn, UInt32.toNat_one, hone]
  congr 1
  -- the mask's bit sits at limb `shift / 32`, bit `shift % 32`
  rw [Bool.eq_iff_iff]
  simp only [Bool.and_eq_true, decide_eq_true_eq]
  omega

/-- A bit ORed in above a multiple of twice its place value adds it. -/
theorem or_two_pow_of_dvd {q s : ℕ} (h : 2 ^ (s + 1) ∣ q) : q ||| 2 ^ s = q + 2 ^ s := by
  obtain ⟨c, rfl⟩ := h
  rw [← Nat.two_pow_add_eq_or_of_lt (Nat.pow_lt_pow_right (by norm_num) (Nat.lt_succ_self s))]

/-- What holds before the pass `shift = n - 1` of the loop of `operator/=`, dividing `A` by
`d`: the remainder `num` and the quotient `q` account for `A`, the remainder is below the
divisor aligned one place up, the quotient has no bit below `n`, and the divisor is aligned
at `n - 1`. -/
structure DivInv (A d : ℕ) (num div q : base_uint BITS) (n : ℕ) : Prop where
  account : num.toNat + q.toNat * d = A
  rem_lt : num.toNat < d * 2 ^ n
  quot_dvd : 2 ^ n ∣ q.toNat
  aligned : 0 < n → div.toNat = d * 2 ^ (n - 1)
  width : n ≤ 32 * (BITS / 32)

/-- One pass keeps the invariant, whether it subtracts or not. -/
theorem DivInv.step {A d : ℕ} {num div q : base_uint BITS} {s : ℕ}
    (h : DivInv A d num div q (s + 1)) :
    if num.CompareTo div ≥ 0 then DivInv A d (num.sub div) (div.shiftRight 1) (q.setBit s) s
    else DivInv A d num (div.shiftRight 1) q s := by
  have hdiv : div.toNat = d * 2 ^ s := h.aligned (Nat.succ_pos s)
  have hshift : 0 < s → (div.shiftRight 1).toNat = d * 2 ^ (s - 1) := fun hs => by
    rw [toNat_shiftRight, hdiv, pow_one, show s = s - 1 + 1 by omega, pow_succ, ← mul_assoc,
      Nat.mul_div_cancel _ (by norm_num), Nat.add_sub_cancel]
  have hpow : d * 2 ^ (s + 1) = 2 * (d * 2 ^ s) := by ring
  have hrem := h.rem_lt
  rw [CompareTo_eq]
  by_cases hlt : num.toNat < div.toNat
  · -- the divisor does not fit: only the divisor moves
    rw [if_pos hlt, if_neg (by decide)]
    exact ⟨h.account, hdiv ▸ hlt, (pow_dvd_pow 2 (Nat.le_succ s)).trans h.quot_dvd, hshift,
      by have := h.width; omega⟩
  · -- the divisor fits: subtract it and set bit `s` of the quotient
    have hge : div.toNat ≤ num.toNat := Nat.le_of_not_lt hlt
    rw [if_neg hlt]
    rw [if_pos (by split_ifs <;> decide)]
    have hq : (q.setBit s).toNat = q.toNat + 2 ^ s := by
      rw [toNat_setBit q (by have := h.width; omega), or_two_pow_of_dvd h.quot_dvd]
    refine ⟨?_, ?_, ?_, hshift, by have := h.width; omega⟩
    · rw [toNat_sub_of_le _ _ hge, hq, ← h.account, hdiv]
      have : d * 2 ^ s ≤ num.toNat := hdiv ▸ hge
      rw [Nat.add_mul, Nat.mul_comm (2 ^ s) d]
      omega
    · rw [toNat_sub_of_le _ _ hge, hdiv]
      omega
    · rw [hq]
      exact Nat.dvd_add ((pow_dvd_pow 2 (Nat.le_succ s)).trans h.quot_dvd) dvd_rfl

/-- The loop ends with the quotient. -/
theorem divLoop_eq {A d : ℕ} (hd : 0 < d) :
    ∀ (n : ℕ) (num div q : base_uint BITS), DivInv A d num div q n →
      (divLoop num div q n).toNat = A / d
  | 0, num, div, q, h => by
    have hacc := h.account
    have hlt : num.toNat < d := by simpa using h.rem_lt
    rw [divLoop, ← hacc, Nat.add_mul_div_right _ _ hd, Nat.div_eq_of_lt hlt, Nat.zero_add]
  | s + 1, num, div, q, h => by
    have hstep := h.step
    rw [divLoop]
    split_ifs at hstep ⊢ with hc
    · exact divLoop_eq hd s _ _ _ hstep
    · exact divLoop_eq hd s _ _ _ hstep

/-- The invariant holds before the first pass, with the divisor aligned to the dividend's top
bit. -/
theorem DivInv.start (a b : base_uint BITS) (hb : 0 < b.toNat) (hle : b.bits ≤ a.bits) :
    DivInv a.toNat b.toNat a (b.shiftLeft (a.bits - b.bits)) zero (a.bits - b.bits + 1) := by
  rw [bits_eq_size, bits_eq_size] at hle ⊢
  have hsb : 0 < b.toNat.size := Nat.size_pos.mpr hb
  have hsa : a.toNat.size ≤ 32 * (BITS / 32) := Nat.size_le.mpr a.toNat_lt
  have hbtop : 2 ^ (b.toNat.size - 1) ≤ b.toNat := Nat.lt_size.mp (by omega)
  have hexp : b.toNat.size - 1 + (a.toNat.size - b.toNat.size + 1) = a.toNat.size := by omega
  -- the aligned divisor stays below `2 ^ size a`, inside the width
  have hfit : b.toNat * 2 ^ (a.toNat.size - b.toNat.size) < 2 ^ (32 * (BITS / 32)) :=
    calc b.toNat * 2 ^ (a.toNat.size - b.toNat.size)
        < 2 ^ b.toNat.size * 2 ^ (a.toNat.size - b.toNat.size) :=
          Nat.mul_lt_mul_of_pos_right (Nat.lt_size_self _) (by positivity)
      _ = 2 ^ a.toNat.size := by rw [← pow_add]; congr 1; omega
      _ ≤ 2 ^ (32 * (BITS / 32)) := Nat.pow_le_pow_right (by norm_num) hsa
  refine ⟨by rw [toNat_zero, Nat.zero_mul, Nat.add_zero], ?_, by rw [toNat_zero]; exact dvd_zero _,
    fun _ => by rw [toNat_shiftLeft, Nat.mod_eq_of_lt hfit, Nat.add_sub_cancel], by omega⟩
  calc a.toNat < 2 ^ a.toNat.size := Nat.lt_size_self _
    _ = 2 ^ (b.toNat.size - 1) * 2 ^ (a.toNat.size - b.toNat.size + 1) := by rw [← pow_add, hexp]
    _ ≤ b.toNat * 2 ^ (a.toNat.size - b.toNat.size + 1) := Nat.mul_le_mul_right _ hbtop

/-- `operator/=` divides, rounding down, by every nonzero divisor. -/
theorem div_eq (a b : base_uint BITS) (hb : b.toNat ≠ 0) :
    ∃ q, a.div b = .ok q ∧ q.toNat = a.toNat / b.toNat := by
  have hb' : 0 < b.toNat := Nat.pos_of_ne_zero hb
  have hbits : b.bits ≠ 0 := by rw [bits_eq_size]; exact (Nat.size_pos.mpr hb').ne'
  by_cases hgt : b.bits > a.bits
  · -- the divisor has more bits: it exceeds the dividend
    refine ⟨zero, by simp only [div, if_neg hbits, if_pos hgt], ?_⟩
    rw [bits_eq_size, bits_eq_size] at hgt
    have hlt : a.toNat < b.toNat :=
      calc a.toNat < 2 ^ a.toNat.size := Nat.lt_size_self _
        _ ≤ 2 ^ (b.toNat.size - 1) := Nat.pow_le_pow_right (by norm_num) (by omega)
        _ ≤ b.toNat := Nat.lt_size.mp (by omega)
    rw [toNat_zero, Nat.div_eq_of_lt hlt]
  · refine ⟨divLoop a (b.shiftLeft (a.bits - b.bits)) zero (a.bits - b.bits + 1),
      by simp only [div, if_neg hbits, if_neg hgt], ?_⟩
    exact divLoop_eq hb' _ _ _ _ (DivInv.start a b hb' (Nat.le_of_not_lt hgt))

/-- `operator/=` throws for a zero divisor. -/
theorem div_of_toNat_eq_zero (a b : base_uint BITS) (hb : b.toNat = 0) :
    a.div b = .error "Division by zero" := by
  have hbits : b.bits = 0 := by rw [bits_eq_size, hb, Nat.size_zero]
  simp only [div, if_pos hbits]

/-- A division that returns had a nonzero divisor. -/
theorem toNat_ne_zero_of_div_eq_ok {a b q : base_uint BITS} (h : a.div b = .ok q) :
    b.toNat ≠ 0 := by
  intro hb
  rw [div_of_toNat_eq_zero a b hb] at h
  cases h

end base_uint

open base_uint in
/-- `arith_uint256` computes modulo `2 ^ 256`: every operator is its operation on the numbers,
reduced, the comparison is the order, and division rounds down or throws on a zero divisor. -/
theorem arith_uint256_ops_mod_two_pow (a b : arith_uint256) (b32 : UInt32) (s : ℕ) :
    (a.add b).toNat = (a.toNat + b.toNat) % 2 ^ 256 ∧
    ((a.sub b).toNat : ℤ) = ((a.toNat : ℤ) - b.toNat) % 2 ^ 256 ∧
    (a.mul b).toNat = a.toNat * b.toNat % 2 ^ 256 ∧
    (a.mulU32 b32).toNat = a.toNat * b32.toNat % 2 ^ 256 ∧
    (a.shiftLeft s).toNat = a.toNat * 2 ^ s % 2 ^ 256 ∧
    (a.shiftRight s).toNat = a.toNat / 2 ^ s ∧
    a.bits = a.toNat.size ∧
    a.CompareTo b = (if a.toNat < b.toNat then -1 else if b.toNat < a.toNat then 1 else 0) ∧
    (b.toNat ≠ 0 → ∃ q, a.div b = .ok q ∧ q.toNat = a.toNat / b.toNat) ∧
    (b.toNat = 0 → a.div b = .error "Division by zero") := by
  -- `WIDTH = 8` limbs of 32 bits
  have hw : 32 * (256 / 32) = 256 := by norm_num
  have hsub := toNat_sub a b
  rw [hw, Nat.cast_pow, Nat.cast_ofNat] at hsub
  refine ⟨?_, hsub, ?_, ?_, ?_, toNat_shiftRight a s, bits_eq_size a, CompareTo_eq a b,
    div_eq a b, div_of_toNat_eq_zero a b⟩
  · rw [toNat_add, hw]
  · rw [toNat_mul, hw]
  · rw [toNat_mulU32, hw]
  · rw [toNat_shiftLeft, hw]

end HydraNode
