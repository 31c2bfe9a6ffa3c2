import HydraNode.Arith.Uint256

/-!
# The compact form of a target

`arith_uint256::SetCompact` and `GetCompact` (`arith_uint256.cpp`) read and write the 32-bit
`nBits` of a block header: a size `nSize` in bytes in the top byte, a sign bit `0x00800000`, and
a 23-bit mantissa `nWord`, standing for `nWord · 256 ^ (nSize - 3)`. `GetCompact` takes
`nSize = (bits() + 7) / 8` and the three bytes below it, and moves the mantissa down a byte
when its top bit would read as the sign; `SetCompact` shifts the mantissa back, and for the
sizes up to three shifts it down first, so that its two flags read the shifted word.

On numbers, both directions are one formula: the mantissa of `X` at size `s` is
`X · 2 ^ 24 / 256 ^ s`, and a mantissa `m` at size `s` stands for `m · 256 ^ s / 2 ^ 24`.
`GetCompact` picks the least `s` with `2 X < 256 ^ s` (`IsCompactSize`), which keeps the
mantissa below the sign bit; what the round trip keeps of `X` is then `X` with its low
`s - 3` bytes cleared: its most significant 23 bits at byte granularity (`IsCompactShift`).

## Main definitions

* `SetCompact`, `GetCompact` — the two functions, with `GetCompact`'s assertions as `none`
* `IsCompactSize`, `IsCompactShift` — the size and the truncation on numbers
* `IsCanonicalCompact` — the compact words `GetCompact` produces

## Main results

* `SetCompact_value`, `SetCompact_fNegative`, `SetCompact_fOverflow`, `GetCompact_spec` —
  the two functions on numbers
* `compact_roundtrip` — `SetCompact ∘ GetCompact` truncates and raises no flag, and
  `GetCompact ∘ SetCompact` is the identity on canonical words
-/

namespace HydraNode

open base_uint

/-- `arith_uint256::SetCompact`: the number, `*pfNegative` and `*pfOverflow`. -/
def SetCompact (nCompact : UInt32) : arith_uint256 × Bool × Bool :=
  let nSize := (nCompact >>> 24).toNat
  let nWord := nCompact &&& 0x007fffff
  -- up to three bytes the mantissa is shifted down, and the flags read the shifted word
  let nWord := if nSize ≤ 3 then nWord >>> (8 * (3 - nSize)).toUInt32 else nWord
  let value : arith_uint256 :=
    if nSize ≤ 3 then ofUInt64 nWord.toUInt64
    else (ofUInt64 nWord.toUInt64).shiftLeft (8 * (nSize - 3))
  (value, nWord ≠ 0 && nCompact &&& 0x00800000 ≠ 0,
    nWord ≠ 0 && (nSize > 34 || (nWord > 0xff && nSize > 33) || (nWord > 0xffff && nSize > 32)))

/-- The first mantissa of `GetCompact`: the three bytes below the size `nSize`, in the low
64 bits shifted up or the number shifted down, cut to `uint32_t`. -/
def compactMantissa (x : arith_uint256) (nSize : ℕ) : UInt32 :=
  if nSize ≤ 3 then (x.GetLow64 <<< (8 * (3 - nSize)).toUInt64).toUInt32
  else (x.shiftRight (8 * (nSize - 3))).GetLow64.toUInt32

/-- `arith_uint256::GetCompact`; `none` where one of its two assertions fails. -/
def GetCompact (x : arith_uint256) (fNegative : Bool) : Option UInt32 :=
  let nSize := (x.bits + 7) / 8
  let nCompact := compactMantissa x nSize
  -- the 0x00800000 bit denotes the sign: a mantissa that has it moves down a byte
  let renorm := nCompact &&& 0x00800000 ≠ 0
  let nCompact := if renorm then nCompact >>> 8 else nCompact
  let nSize := if renorm then nSize + 1 else nSize
  if nCompact &&& ~~~0x007fffff = 0 ∧ nSize < 256 then
    let nCompact := nCompact ||| nSize.toUInt32 <<< 24
    some (nCompact ||| if fNegative && nCompact &&& 0x007fffff ≠ 0 then 0x00800000 else 0)
  else none

/-! ### The fields of a compact word -/

theorem toNat_nSize (c : UInt32) : (c >>> 24).toNat = c.toNat / 2 ^ 24 := by
  rw [UInt32.toNat_shiftRight, show (24 : UInt32).toNat % 32 = 24 from rfl,
    Nat.shiftRight_eq_div_pow]

theorem toNat_nWord (c : UInt32) : (c &&& 0x007fffff).toNat = c.toNat % 2 ^ 23 := by
  rw [UInt32.toNat_and, show (0x007fffff : UInt32).toNat = 2 ^ 23 - 1 from rfl,
    Nat.and_two_pow_sub_one_eq_mod]

/-- The sign bit, and the bit that makes `GetCompact` move its mantissa down. -/
theorem and_sign_ne_zero (c : UInt32) : c &&& 0x00800000 ≠ 0 ↔ c.toNat / 2 ^ 23 % 2 = 1 := by
  have h : (c &&& 0x00800000).toNat = (c.toNat.testBit 23).toNat * 2 ^ 23 := by
    rw [UInt32.toNat_and, show (0x00800000 : UInt32).toNat = 2 ^ 23 from rfl, Nat.and_two_pow]
  rw [Ne, ← UInt32.toNat_inj, h, UInt32.toNat_zero, Nat.testBit_eq_decide_div_mod_eq]
  by_cases hb : c.toNat / 2 ^ 23 % 2 = 1
  · rw [decide_eq_true hb, Bool.toNat_true, Nat.one_mul]
    exact ⟨fun _ => hb, fun _ => by positivity⟩
  · rw [decide_eq_false hb, Bool.toNat_false, Nat.zero_mul]
    exact ⟨fun h => absurd rfl h, fun h => absurd h hb⟩

/-- A word below `2 ^ 23` has no bit outside the mantissa. -/
theorem and_not_mantissa_eq_zero {c : UInt32} (hc : c.toNat < 2 ^ 23) :
    c &&& ~~~0x007fffff = 0 := by
  rw [← UInt32.toNat_inj, UInt32.toNat_and, UInt32.toNat_zero,
    show (~~~0x007fffff : UInt32).toNat = 2 ^ 23 * 511 from rfl]
  apply Nat.eq_of_testBit_eq
  intro i
  rw [Nat.testBit_and, Nat.zero_testBit, Nat.testBit_two_pow_mul]
  by_cases hi : 23 ≤ i
  · rw [Nat.testBit_lt_two_pow (hc.trans_le (Nat.pow_le_pow_right (by norm_num) hi)),
      Bool.false_and]
  · simp [hi]

/-- `256 ^ s` and the shifts of whole bytes. -/
theorem pow_256 (s : ℕ) : (256 : ℕ) ^ s = 2 ^ (8 * s) := by
  rw [pow_mul]; norm_num

/-- A mantissa `m` at size `s` stands for `m · 256 ^ s / 2 ^ 24`: shifted down below three bytes,
up above. -/
theorem compact_value_eq (m s : ℕ) :
    m * 256 ^ s / 2 ^ 24 = if s ≤ 3 then m / 2 ^ (8 * (3 - s)) else m * 2 ^ (8 * (s - 3)) := by
  rw [pow_256]
  split_ifs with hs
  · rw [show (2 : ℕ) ^ 24 = 2 ^ (8 * (3 - s)) * 2 ^ (8 * s) by rw [← pow_add]; congr 1; omega,
      Nat.mul_div_mul_right _ _ (by positivity)]
  · rw [show (2 : ℕ) ^ (8 * s) = 2 ^ (8 * (s - 3)) * 2 ^ 24 by rw [← pow_add]; congr 1; omega,
      ← Nat.mul_assoc, Nat.mul_div_cancel _ (by positivity)]

/-! ### `SetCompact` on numbers -/

theorem SetCompact_value (c : UInt32) :
    (SetCompact c).1.toNat = c.toNat % 2 ^ 23 * 256 ^ (c.toNat / 2 ^ 24) / 2 ^ 24 % 2 ^ 256 := by
  have hw : 2 ≤ 256 / 32 := by norm_num
  have hm : c.toNat % 2 ^ 23 < 2 ^ 23 := Nat.mod_lt _ (by norm_num)
  rw [compact_value_eq, SetCompact]
  simp only [toNat_nSize]
  split_ifs with hs
  · -- up to three bytes: the shifted word, which fits
    have hsh : (8 * (3 - c.toNat / 2 ^ 24)).toUInt32.toNat % 32 = 8 * (3 - c.toNat / 2 ^ 24) := by
      simp; omega
    have hlt : c.toNat % 2 ^ 23 / 2 ^ (8 * (3 - c.toNat / 2 ^ 24)) < 2 ^ 256 :=
      calc c.toNat % 2 ^ 23 / 2 ^ (8 * (3 - c.toNat / 2 ^ 24)) ≤ c.toNat % 2 ^ 23 :=
            Nat.div_le_self _ _
        _ < 2 ^ 256 := hm.trans (by norm_num)
    rw [toNat_ofUInt64 hw, UInt32.toNat_toUInt64, UInt32.toNat_shiftRight, hsh, toNat_nWord,
      Nat.shiftRight_eq_div_pow, Nat.mod_eq_of_lt hlt]
  · rw [toNat_shiftLeft, toNat_ofUInt64 hw, UInt32.toNat_toUInt64, toNat_nWord]

/-- The word `SetCompact`'s flags read: the mantissa, shifted down for the sizes up to three. -/
theorem toNat_shiftedWord (c : UInt32) :
    (if (c >>> 24).toNat ≤ 3 then
      (c &&& 0x007fffff) >>> (8 * (3 - (c >>> 24).toNat)).toUInt32 else c &&& 0x007fffff).toNat =
      c.toNat % 2 ^ 23 / 256 ^ (3 - c.toNat / 2 ^ 24) := by
  rw [toNat_nSize]
  split_ifs with hs
  · have hsh : (8 * (3 - c.toNat / 2 ^ 24)).toUInt32.toNat % 32 = 8 * (3 - c.toNat / 2 ^ 24) := by
      simp; omega
    rw [UInt32.toNat_shiftRight, hsh, toNat_nWord, Nat.shiftRight_eq_div_pow, pow_256]
  · rw [toNat_nWord, Nat.sub_eq_zero_of_le (by omega), pow_zero, Nat.div_one]

theorem SetCompact_fNegative (c : UInt32) :
    (SetCompact c).2.1 = true ↔
      c.toNat % 2 ^ 23 / 256 ^ (3 - c.toNat / 2 ^ 24) ≠ 0 ∧ c.toNat / 2 ^ 23 % 2 = 1 := by
  rw [SetCompact]
  simp only [Bool.and_eq_true, decide_eq_true_eq, and_sign_ne_zero]
  rw [Ne, ← UInt32.toNat_inj, toNat_shiftedWord, UInt32.toNat_zero]

theorem SetCompact_fOverflow (c : UInt32) :
    (SetCompact c).2.2 = true ↔
      c.toNat % 2 ^ 23 / 256 ^ (3 - c.toNat / 2 ^ 24) ≠ 0 ∧
        (34 < c.toNat / 2 ^ 24 ∨
          (0xff < c.toNat % 2 ^ 23 / 256 ^ (3 - c.toNat / 2 ^ 24) ∧ 33 < c.toNat / 2 ^ 24) ∨
          (0xffff < c.toNat % 2 ^ 23 / 256 ^ (3 - c.toNat / 2 ^ 24) ∧ 32 < c.toNat / 2 ^ 24)) := by
  rw [SetCompact]
  simp only [Bool.and_eq_true, Bool.or_eq_true, decide_eq_true_eq, gt_iff_lt,
    UInt32.lt_iff_toNat_lt]
  rw [Ne, ← UInt32.toNat_inj, toNat_shiftedWord, UInt32.toNat_zero, toNat_nSize,
    show (0xff : UInt32).toNat = 0xff from rfl, show (0xffff : UInt32).toNat = 0xffff from rfl,
    or_assoc]

/-! ### `GetCompact` on numbers -/

/-- `s` is the size in bytes of the compact form of `X`: the least `s` with `2 X < 256 ^ s`,
which keeps the mantissa `X · 2 ^ 24 / 256 ^ s` below the sign bit. -/
def IsCompactSize (X s : ℕ) : Prop := 2 * X < 256 ^ s ∧ (s = 0 ∨ 256 ^ (s - 1) ≤ 2 * X)

theorem IsCompactSize.unique {X s t : ℕ} (hs : IsCompactSize X s) (ht : IsCompactSize X t) :
    s = t := by
  -- a smaller size of the two would leave `2 X` both below and above `256 ^ (t - 1)`
  have key : ∀ {s t}, IsCompactSize X s → IsCompactSize X t → ¬s < t := by
    intro s t hs ht hlt
    have hlt' := hs.1
    rcases ht.2 with rfl | hle
    · omega
    · have := Nat.pow_le_pow_right (by norm_num : 0 < 256) (Nat.le_sub_one_of_lt hlt)
      omega
  rcases Nat.lt_trichotomy s t with h | h | h
  · exact absurd h (key hs ht)
  · exact h
  · exact absurd h (key ht hs)

theorem mantissa_lt {X s : ℕ} (h : IsCompactSize X s) : X * 2 ^ 24 / 256 ^ s < 2 ^ 23 := by
  rw [Nat.div_lt_iff_lt_mul (by positivity)]
  have := h.1
  calc X * 2 ^ 24 = 2 ^ 23 * (2 * X) := by ring
    _ < 2 ^ 23 * 256 ^ s := Nat.mul_lt_mul_of_pos_left this (by positivity)

/-- The first mantissa is `X · 2 ^ 24 / 256 ^ nSize`, for a size that holds `X`. -/
theorem toNat_compactMantissa (x : arith_uint256) {n : ℕ} (hX : x.toNat < 256 ^ n) :
    (compactMantissa x n).toNat = x.toNat * 2 ^ 24 / 256 ^ n := by
  have hw : 2 ≤ 256 / 32 := by norm_num
  rw [pow_256] at hX ⊢
  rw [compactMantissa]
  split_ifs with hn
  · -- the low 64 bits are all of `x`, shifted up below `2 ^ 24`
    have h24 : (2 : ℕ) ^ 24 = 2 ^ (8 * (3 - n)) * 2 ^ (8 * n) := by rw [← pow_add]; congr 1; omega
    have hlt : x.toNat * 2 ^ (8 * (3 - n)) < 2 ^ 24 := by
      rw [h24, Nat.mul_comm (2 ^ _)]
      exact Nat.mul_lt_mul_of_pos_right hX (by positivity)
    have hsh : (8 * (3 - n)).toUInt64.toNat % 64 = 8 * (3 - n) := by simp; omega
    rw [UInt64.toNat_toUInt32, UInt64.toNat_shiftLeft, hsh, toNat_GetLow64 hw,
      Nat.mod_eq_of_lt (hX.trans_le (Nat.pow_le_pow_right (by norm_num) (by omega))),
      Nat.shiftLeft_eq, Nat.mod_eq_of_lt (hlt.trans (by norm_num)),
      Nat.mod_eq_of_lt (hlt.trans (by norm_num)), h24, ← Nat.mul_assoc,
      Nat.mul_div_cancel _ (by positivity)]
  · -- the number shifted down by all but its top three bytes
    have h8n : (2 : ℕ) ^ (8 * n) = 2 ^ (8 * (n - 3)) * 2 ^ 24 := by
      rw [← pow_add]; congr 1; omega
    have hlt : x.toNat / 2 ^ (8 * (n - 3)) < 2 ^ 24 := by
      rw [Nat.div_lt_iff_lt_mul (by positivity), Nat.mul_comm, ← h8n]
      exact hX
    rw [UInt64.toNat_toUInt32, toNat_GetLow64 hw, toNat_shiftRight,
      Nat.mod_eq_of_lt (hlt.trans (by norm_num)), Nat.mod_eq_of_lt (hlt.trans (by norm_num)), h8n,
      Nat.mul_div_mul_right _ _ (by positivity)]

/-- The word `GetCompact` builds from a mantissa below `2 ^ 24` and a size. -/
theorem toNat_or_size {m : UInt32} {s : ℕ} (hm : m.toNat < 2 ^ 24) (hs : s < 256) :
    (m ||| s.toUInt32 <<< 24).toNat = m.toNat + 2 ^ 24 * s := by
  have hs' : s.toUInt32.toNat = s := by simp; omega
  rw [UInt32.toNat_or, UInt32.toNat_shiftLeft, hs', show (24 : UInt32).toNat % 32 = 24 from rfl,
    Nat.shiftLeft_eq, Nat.mod_eq_of_lt (by omega), Nat.or_comm, Nat.mul_comm,
    ← Nat.two_pow_add_eq_or_of_lt hm, Nat.add_comm]

/-- `GetCompact` without the sign: the mantissa and the size, at the least size whose mantissa
stays below the sign bit. Its assertions hold. -/
theorem GetCompact_spec (x : arith_uint256) :
    ∃ s, IsCompactSize x.toNat s ∧
      GetCompact x false = some (UInt32.ofNat (x.toNat * 2 ^ 24 / 256 ^ s + 2 ^ 24 * s)) := by
  have hX : x.toNat < 2 ^ 256 := x.toNat_lt
  have hsize : x.toNat.size ≤ 256 := Nat.size_le.mpr hX
  -- the size `n` of `bits()` in bytes holds `x`, and with its top byte in use
  have hXn : x.toNat < 256 ^ ((x.bits + 7) / 8) := by
    rw [pow_256, bits_eq_size]
    exact (Nat.lt_size_self _).trans_le (Nat.pow_le_pow_right (by norm_num) (by omega))
  have hXn' : (x.bits + 7) / 8 ≠ 0 → 256 ^ ((x.bits + 7) / 8 - 1) ≤ x.toNat := fun hn => by
    rw [pow_256, bits_eq_size] at *
    exact Nat.lt_size.mp (by omega)
  have hn : (x.bits + 7) / 8 ≤ 32 := by rw [bits_eq_size]; omega
  have hm0 := toNat_compactMantissa x hXn
  have hm0lt : x.toNat * 2 ^ 24 / 256 ^ ((x.bits + 7) / 8) < 2 ^ 24 := by
    rw [Nat.div_lt_iff_lt_mul (by positivity), Nat.mul_comm]
    exact Nat.mul_lt_mul_of_pos_left hXn (by positivity)
  simp only [GetCompact, Bool.false_and, Bool.false_eq_true, if_false, UInt32.or_zero]
  by_cases hr : 2 ^ 23 ≤ x.toNat * 2 ^ 24 / 256 ^ ((x.bits + 7) / 8)
  · -- the top bit is set: one byte more, and the mantissa moves down
    have hrenorm : compactMantissa x ((x.bits + 7) / 8) &&& 0x00800000 ≠ 0 := by
      rw [and_sign_ne_zero, hm0]; omega
    have hm : (compactMantissa x ((x.bits + 7) / 8) >>> 8).toNat =
        x.toNat * 2 ^ 24 / 256 ^ ((x.bits + 7) / 8 + 1) := by
      rw [UInt32.toNat_shiftRight, show (8 : UInt32).toNat % 32 = 8 from rfl,
        Nat.shiftRight_eq_div_pow, hm0, Nat.div_div_eq_div_mul, pow_succ (256 : ℕ)]
    have hmlt : x.toNat * 2 ^ 24 / 256 ^ ((x.bits + 7) / 8 + 1) < 2 ^ 23 := by
      rw [← hm, UInt32.toNat_shiftRight, show (8 : UInt32).toNat % 32 = 8 from rfl,
        Nat.shiftRight_eq_div_pow, hm0]
      omega
    refine ⟨(x.bits + 7) / 8 + 1, ⟨?_, .inr ?_⟩, ?_⟩
    · rw [pow_succ]; omega
    · rw [Nat.add_sub_cancel]
      rw [Nat.le_div_iff_mul_le (by positivity)] at hr
      omega
    · rw [if_pos hrenorm, if_pos hrenorm, if_pos ⟨and_not_mantissa_eq_zero (hm ▸ hmlt),
        by omega⟩, Option.some_inj, ← UInt32.toNat_inj, toNat_or_size (by omega) (by omega), hm,
        UInt32.toNat_ofNat', Nat.mod_eq_of_lt (by omega)]
  · -- the top bit is clear: the size of `bits()` stands
    have hrenorm : ¬compactMantissa x ((x.bits + 7) / 8) &&& 0x00800000 ≠ 0 := by
      rw [and_sign_ne_zero, hm0]; omega
    refine ⟨(x.bits + 7) / 8, ⟨?_, ?_⟩, ?_⟩
    · rw [Nat.le_div_iff_mul_le (by positivity), not_le] at hr
      omega
    · by_cases hn0 : (x.bits + 7) / 8 = 0
      · exact .inl hn0
      · exact .inr ((hXn' hn0).trans (Nat.le_mul_of_pos_left _ (by norm_num)))
    · rw [if_neg hrenorm, if_neg hrenorm, if_pos ⟨and_not_mantissa_eq_zero (by omega),
        by omega⟩, Option.some_inj, ← UInt32.toNat_inj, toNat_or_size (by omega) (by omega), hm0,
        UInt32.toNat_ofNat', Nat.mod_eq_of_lt (by omega)]

/-! ### The round trip -/

/-- `k` is the number of low bytes the compact form drops from `X`: the least `k` that brings
`X / 256 ^ k` below `2 ^ 23`, so that `X / 256 ^ k · 256 ^ k` is `X` cut to its most
significant 23 bits at byte granularity. -/
def IsCompactShift (X k : ℕ) : Prop := X / 256 ^ k < 2 ^ 23 ∧ (k = 0 ∨ 2 ^ 23 ≤ X / 256 ^ (k - 1))

/-- The words `GetCompact` produces without the sign: zero, or a nonzero size with the sign bit
clear, a mantissa of at least `0x8000` with no set bit in the bytes below the size, and no
overflow. -/
def IsCanonicalCompact (c : UInt32) : Prop :=
  c = 0 ∨
    (0 < c.toNat / 2 ^ 24 ∧ c.toNat / 2 ^ 23 % 2 = 0 ∧ 0x8000 ≤ c.toNat % 2 ^ 23 ∧
      c.toNat % 2 ^ 23 % 256 ^ (3 - c.toNat / 2 ^ 24) = 0 ∧ (SetCompact c).2.2 = false)

/-- Three bytes of mantissa below the size: `256 ^ s = 256 ^ (s - 3) · 2 ^ 24` from three bytes
on. -/
theorem pow_256_of_three_le {s : ℕ} (hs : 3 ≤ s) : (256 : ℕ) ^ s = 256 ^ (s - 3) * 2 ^ 24 := by
  rw [show (2 : ℕ) ^ 24 = 256 ^ 3 by norm_num, ← pow_add, Nat.sub_add_cancel hs]

/-- Reading the mantissa of `X` back keeps `X` with its low `s - 3` bytes cleared. -/
theorem compact_value_mantissa (X s : ℕ) :
    X * 2 ^ 24 / 256 ^ s * 256 ^ s / 2 ^ 24 = X / 256 ^ (s - 3) * 256 ^ (s - 3) := by
  by_cases hs : s ≤ 3
  · -- up to three bytes nothing is dropped
    have h24 : (2 : ℕ) ^ 24 = 256 ^ (3 - s) * 256 ^ s := by
      rw [show (2 : ℕ) ^ 24 = 256 ^ 3 by norm_num, ← pow_add, Nat.sub_add_cancel hs]
    rw [Nat.sub_eq_zero_of_le hs, pow_zero, Nat.div_one, Nat.mul_one, h24, ← Nat.mul_assoc,
      Nat.mul_div_cancel _ (by positivity), Nat.mul_assoc, Nat.mul_div_cancel _ (by positivity)]
  · rw [pow_256_of_three_le (by omega), Nat.mul_div_mul_right _ _ (by positivity),
      ← Nat.mul_assoc, Nat.mul_div_cancel _ (by positivity)]

theorem IsCompactSize.compactShift {X s : ℕ} (h : IsCompactSize X s) :
    IsCompactShift X (s - 3) := by
  obtain ⟨hlt, hmin⟩ := h
  constructor
  · by_cases hs : 3 ≤ s
    · rw [Nat.div_lt_iff_lt_mul (by positivity)]
      rw [pow_256_of_three_le hs] at hlt
      have : 2 * X < 2 * (2 ^ 23 * 256 ^ (s - 3)) := by
        calc 2 * X < 256 ^ (s - 3) * 2 ^ 24 := hlt
          _ = 2 * (2 ^ 23 * 256 ^ (s - 3)) := by ring
      omega
    · have : (256 : ℕ) ^ s ≤ 256 ^ 2 := Nat.pow_le_pow_right (by norm_num) (by omega)
      rw [Nat.sub_eq_zero_of_le (by omega), pow_zero, Nat.div_one]
      omega
  · -- from four bytes on, one byte fewer would not fit below the sign bit
    by_cases hs : 4 ≤ s
    · refine .inr ?_
      rcases hmin with rfl | hle
      · omega
      · rw [Nat.le_div_iff_mul_le (by positivity)]
        rw [show s - 1 = s - 3 - 1 + 3 by omega, pow_add,
          show (256 : ℕ) ^ 3 = 2 * 2 ^ 23 by norm_num] at hle
        rw [show s - 3 - 1 = s - 3 - 1 from rfl]
        have : 2 * (2 ^ 23 * 256 ^ (s - 3 - 1)) ≤ 2 * X := by
          calc 2 * (2 ^ 23 * 256 ^ (s - 3 - 1)) = 256 ^ (s - 3 - 1) * (2 * 2 ^ 23) := by ring
            _ ≤ 2 * X := hle
        omega
    · exact .inl (by omega)

/-- Below `2 ^ 256` the compact size is at most 33 bytes, and at 33 the mantissa has two. -/
theorem IsCompactSize.le_33 {X s : ℕ} (h : IsCompactSize X s) (hX : X < 2 ^ 256) :
    s ≤ 33 ∧ (s = 33 → X * 2 ^ 24 / 256 ^ s < 2 ^ 16) := by
  rcases h.2 with rfl | hle
  · omega
  · have hs : s ≤ 33 := by
      by_contra hs
      have h33 : (256 : ℕ) ^ 33 ≤ 256 ^ (s - 1) := Nat.pow_le_pow_right (by norm_num) (by omega)
      have h264 : (256 : ℕ) ^ 33 = 2 ^ 256 * 256 := by rw [pow_succ, pow_256]
      omega
    refine ⟨hs, fun h33 => ?_⟩
    subst h33
    rw [Nat.div_lt_iff_lt_mul (by positivity)]
    calc X * 2 ^ 24 < 2 ^ 256 * 2 ^ 24 := Nat.mul_lt_mul_of_pos_right hX (by positivity)
      _ = 2 ^ 16 * 256 ^ 33 := by norm_num

/-- A canonical mantissa at its size stands for a number whose compact form it is. -/
theorem IsCompactSize.of_mantissa {m s : ℕ} (hs : 0 < s) (hlo : 0x8000 ≤ m) (hhi : m < 2 ^ 23)
    (hexact : m * 256 ^ s / 2 ^ 24 * 2 ^ 24 = m * 256 ^ s) :
    IsCompactSize (m * 256 ^ s / 2 ^ 24) s := by
  constructor
  · apply Nat.lt_of_mul_lt_mul_right (a := 2 ^ 24)
    calc 2 * (m * 256 ^ s / 2 ^ 24) * 2 ^ 24 = 2 * m * 256 ^ s := by rw [Nat.mul_assoc, hexact]; ring
      _ < 2 ^ 24 * 256 ^ s := Nat.mul_lt_mul_of_pos_right (by omega) (by positivity)
      _ = 256 ^ s * 2 ^ 24 := Nat.mul_comm _ _
  · refine .inr (Nat.le_of_mul_le_mul_right (c := 2 ^ 24) ?_ (by positivity))
    calc 256 ^ (s - 1) * 2 ^ 24 ≤ 256 ^ (s - 1) * (512 * m) :=
          Nat.mul_le_mul_left _ (by omega)
      _ = 2 * m * (256 ^ (s - 1) * 256) := by ring
      _ = 2 * m * 256 ^ s := by rw [← pow_succ, Nat.sub_add_cancel hs]
      _ = 2 * (m * 256 ^ s / 2 ^ 24) * 2 ^ 24 := by
          rw [Nat.mul_assoc 2 (m * 256 ^ s / 2 ^ 24), hexact, Nat.mul_assoc]

/-- A mantissa with no set bit in the bytes below its size is read back exactly. -/
theorem compact_value_mul (m s : ℕ) (hm : m % 256 ^ (3 - s) = 0) :
    m * 256 ^ s / 2 ^ 24 * 2 ^ 24 = m * 256 ^ s := by
  apply Nat.div_mul_cancel
  have h24 : (2 : ℕ) ^ 24 = 256 ^ (3 - s) * 256 ^ min s 3 := by
    rw [← pow_add, show 3 - s + min s 3 = 3 by omega]; norm_num
  rw [h24]
  exact Nat.mul_dvd_mul (Nat.dvd_of_mod_eq_zero hm) (pow_dvd_pow 256 (min_le_left s 3))

/-- A word without overflow, and with a mantissa of at least `0x8000`, stands for a number
below `2 ^ 256`. -/
theorem compact_value_lt {c : UInt32} (hlo : 0x8000 ≤ c.toNat % 2 ^ 23)
    (hov : (SetCompact c).2.2 = false) :
    c.toNat % 2 ^ 23 * 256 ^ (c.toNat / 2 ^ 24) / 2 ^ 24 < 2 ^ 256 := by
  have hm : c.toNat % 2 ^ 23 < 2 ^ 23 := Nat.mod_lt _ (by norm_num)
  rw [Bool.eq_false_iff, Ne, SetCompact_fOverflow] at hov
  rw [compact_value_eq]
  split_ifs with hs
  · exact (Nat.div_le_self _ _).trans_lt (hm.trans (by norm_num))
  · -- from four bytes on the overflow test bounds the size by the mantissa
    rw [Nat.sub_eq_zero_of_le (by omega), pow_zero, Nat.div_one] at hov
    have h33 : c.toNat / 2 ^ 24 ≤ 33 := by
      by_contra h
      exact hov ⟨by omega, .inr (.inl ⟨by omega, by omega⟩)⟩
    rcases Nat.lt_or_ge (c.toNat / 2 ^ 24) 33 with h32 | h33'
    · have hpow : (2 : ℕ) ^ (8 * (c.toNat / 2 ^ 24 - 3)) ≤ 2 ^ 232 :=
        Nat.pow_le_pow_right (by norm_num) (by omega)
      calc c.toNat % 2 ^ 23 * 2 ^ (8 * (c.toNat / 2 ^ 24 - 3))
          ≤ c.toNat % 2 ^ 23 * 2 ^ 232 := Nat.mul_le_mul_left _ hpow
        _ < 2 ^ 23 * 2 ^ 232 := Nat.mul_lt_mul_of_pos_right hm (by positivity)
        _ ≤ 2 ^ 256 := by norm_num
    · -- at 33 bytes the mantissa has at most two
      have hsz : c.toNat / 2 ^ 24 = 33 := by omega
      have hw : c.toNat % 2 ^ 23 ≤ 0xffff := by
        by_contra h
        exact hov ⟨by omega, .inr (.inr ⟨by omega, by omega⟩)⟩
      rw [hsz]
      calc c.toNat % 2 ^ 23 * 2 ^ (8 * (33 - 3)) < 2 ^ 16 * 2 ^ (8 * (33 - 3)) :=
            Nat.mul_lt_mul_of_pos_right (by omega) (by positivity)
        _ = 2 ^ 256 := by norm_num

/-- `SetCompact ∘ GetCompact`: `x` cut to its top 23 bits at byte granularity, and no flag. -/
theorem SetCompact_GetCompact (x : arith_uint256) :
    ∃ c k, GetCompact x false = some c ∧ IsCompactShift x.toNat k ∧
      (SetCompact c).1.toNat = x.toNat / 256 ^ k * 256 ^ k ∧ (SetCompact c).2 = (false, false) := by
  obtain ⟨s, hs, hget⟩ := GetCompact_spec x
  have hX : x.toNat < 2 ^ 256 := x.toNat_lt
  obtain ⟨h33, hmant33⟩ := hs.le_33 hX
  have hM := mantissa_lt hs
  have hval := compact_value_mantissa x.toNat s
  generalize x.toNat * 2 ^ 24 / 256 ^ s = M at hget hM hmant33 hval
  -- the fields of the word: the mantissa, the size, and a clear sign bit
  have hc : (UInt32.ofNat (M + 2 ^ 24 * s)).toNat = M + 2 ^ 24 * s := by
    rw [UInt32.toNat_ofNat', Nat.mod_eq_of_lt (by omega)]
  have hsize : (M + 2 ^ 24 * s) / 2 ^ 24 = s := by omega
  have hword : (M + 2 ^ 24 * s) % 2 ^ 23 = M := by omega
  have hsign : (M + 2 ^ 24 * s) / 2 ^ 23 % 2 = 0 := by omega
  refine ⟨_, s - 3, hget, hs.compactShift, ?_, ?_⟩
  · rw [SetCompact_value, hc, hsize, hword, hval, Nat.mod_eq_of_lt]
    exact (Nat.div_mul_le_self _ _).trans_lt hX
  · have hneg : (SetCompact (UInt32.ofNat (M + 2 ^ 24 * s))).2.1 = false := by
      rw [Bool.eq_false_iff, Ne, SetCompact_fNegative, hc, hsign]
      omega
    have hov : (SetCompact (UInt32.ofNat (M + 2 ^ 24 * s))).2.2 = false := by
      rw [Bool.eq_false_iff, Ne, SetCompact_fOverflow, hc, hsize, hword]
      rintro ⟨-, h | ⟨-, h⟩ | ⟨hw, h⟩⟩
      · omega
      · omega
      · -- at 33 bytes the mantissa has at most two
        have h16 := hmant33 (by omega)
        have hle : M / 256 ^ (3 - s) ≤ M := Nat.div_le_self _ _
        omega
    exact Prod.ext hneg hov

-- `0x800001` keeps its top two bytes: size 4, mantissa `0x8000`
example : GetCompact (ofUInt64 0x800001) false = some 0x04008000 := by decide
example : (SetCompact 0x04008000).1.toNat = 0x800000 := by decide

/-- `GetCompact ∘ SetCompact` is the identity on the canonical words. -/
theorem GetCompact_SetCompact {c : UInt32} (hc : IsCanonicalCompact c) :
    GetCompact (SetCompact c).1 false = some c := by
  obtain ⟨s, hs, hget⟩ := GetCompact_spec (SetCompact c).1
  rw [hget]
  rcases hc with rfl | ⟨hs0, hsign, hlo, hexact, hov⟩
  · -- the zero word reads as zero, whose compact form is zero again
    have h0 : (SetCompact 0).1.toNat = 0 := by rw [SetCompact_value]; rfl
    rw [h0] at hs ⊢
    have hs' : s = 0 := by
      rcases hs.2 with h | h
      · exact h
      · have := Nat.one_le_pow (s - 1) 256 (by norm_num)
        omega
    rw [hs']
    rfl
  · have hval : (SetCompact c).1.toNat = c.toNat % 2 ^ 23 * 256 ^ (c.toNat / 2 ^ 24) / 2 ^ 24 := by
      rw [SetCompact_value, Nat.mod_eq_of_lt (compact_value_lt hlo hov)]
    have hmul := compact_value_mul _ _ hexact
    have hsz := IsCompactSize.of_mantissa hs0 hlo (Nat.mod_lt _ (by norm_num)) hmul
    rw [← hval] at hsz hmul
    rw [hs.unique hsz, hmul, Nat.mul_div_cancel _ (by positivity)]
    congr 1
    apply UInt32.toNat_inj.mp
    have hlt := c.toNat_lt
    rw [UInt32.toNat_ofNat']
    omega

/-! ### What the truncation keeps -/

/-- A larger number drops at least as many bytes. -/
theorem IsCompactShift.le_of_le {X Y k l : ℕ} (hk : IsCompactShift X k) (hl : IsCompactShift Y l)
    (hXY : X ≤ Y) : k ≤ l := by
  by_contra h
  obtain ⟨-, hk0 | hk1⟩ := hk
  · omega
  -- `2 ^ 23 ≤ X / 256 ^ (k - 1) ≤ Y / 256 ^ (k - 1) ≤ Y / 256 ^ l < 2 ^ 23`
  have hdiv : Y / 256 ^ (k - 1) ≤ Y / 256 ^ l :=
    Nat.div_le_div_left (Nat.pow_le_pow_right (by norm_num) (by omega)) (by positivity)
  have hXY' := Nat.div_le_div_right (c := 256 ^ (k - 1)) hXY
  have := hl.1
  omega

/-- The truncation is monotone. -/
theorem IsCompactShift.trunc_mono {X Y k l : ℕ} (hk : IsCompactShift X k)
    (hl : IsCompactShift Y l) (hXY : X ≤ Y) : X / 256 ^ k * 256 ^ k ≤ Y / 256 ^ l * 256 ^ l := by
  rcases Nat.eq_or_lt_of_le (hk.le_of_le hl hXY) with rfl | hlt
  · exact Nat.mul_le_mul_right _ (Nat.div_le_div_right hXY)
  -- dropping more bytes: `Y` keeps at least `2 ^ 15` units of `256 ^ l`, more than all of `X`
  obtain ⟨-, hl0 | hl1⟩ := hl
  · omega
  have hYl : 2 ^ 15 ≤ Y / 256 ^ l := by
    rw [show l = l - 1 + 1 by omega, pow_succ (256 : ℕ), ← Nat.div_div_eq_div_mul]
    omega
  have hX : X < 2 ^ 23 * 256 ^ k := (Nat.div_lt_iff_lt_mul (by positivity)).mp hk.1
  refine le_of_lt ?_
  calc X / 256 ^ k * 256 ^ k ≤ X := Nat.div_mul_le_self _ _
    _ < 2 ^ 23 * 256 ^ k := hX
    _ = 2 ^ 15 * 256 ^ (k + 1) := by rw [pow_succ]; ring
    _ ≤ 2 ^ 15 * 256 ^ l := Nat.mul_le_mul_left _ (Nat.pow_le_pow_right (by norm_num) hlt)
    _ ≤ Y / 256 ^ l * 256 ^ l := Nat.mul_le_mul_right _ hYl

/-- A positive number stays positive. -/
theorem IsCompactShift.trunc_pos {X k : ℕ} (hk : IsCompactShift X k) (hX : 0 < X) :
    0 < X / 256 ^ k * 256 ^ k := by
  rcases Nat.eq_zero_or_pos k with rfl | hkpos
  · simpa using hX
  obtain ⟨-, hk0 | hk1⟩ := hk
  · omega
  have : 0 < X / 256 ^ k := by
    rw [show k = k - 1 + 1 by omega, pow_succ (256 : ℕ), ← Nat.div_div_eq_div_mul]
    omega
  positivity

/-- A number of at most 23 significant bits at byte granularity is kept whole. -/
theorem IsCompactShift.trunc_eq_of_mul {X k m e : ℕ} (hk : IsCompactShift X k)
    (hX : X = m * 256 ^ e) (hm : m < 2 ^ 23) : X / 256 ^ k * 256 ^ k = X := by
  have hke : k ≤ e := by
    by_contra h
    obtain ⟨-, hk0 | hk1⟩ := hk
    · omega
    have : X / 256 ^ (k - 1) ≤ X / 256 ^ e :=
      Nat.div_le_div_left (Nat.pow_le_pow_right (by norm_num) (by omega)) (by positivity)
    rw [hX, Nat.mul_div_cancel _ (by positivity)] at this
    rw [hX] at hk1
    omega
  apply Nat.div_mul_cancel
  rw [hX]
  exact Dvd.dvd.mul_left (pow_dvd_pow 256 hke) m

/-- A decoded word below `2 ^ 240` is its mantissa times a power of `256`: it did not wrap. -/
theorem SetCompact_eq_mul (c : UInt32) (h : (SetCompact c).1.toNat < 2 ^ 240) :
    ∃ m e, m < 2 ^ 23 ∧ (SetCompact c).1.toNat = m * 256 ^ e := by
  have hm := Nat.mod_lt c.toNat (show 0 < 2 ^ 23 by norm_num)
  have hval := SetCompact_value c
  generalize c.toNat % 2 ^ 23 = m at hm hval
  generalize c.toNat / 2 ^ 24 = s at hval
  by_cases hs : s ≤ 3
  · -- up to three bytes the mantissa is shifted right
    have h24 : (2 : ℕ) ^ 24 = 256 ^ (3 - s) * 256 ^ s := by
      rw [show (2 : ℕ) ^ 24 = 256 ^ 3 by norm_num, ← pow_add, Nat.sub_add_cancel hs]
    rw [h24, Nat.mul_div_mul_right _ _ (by positivity)] at hval
    have hlt : m / 256 ^ (3 - s) < 2 ^ 23 := lt_of_le_of_lt (Nat.div_le_self _ _) hm
    refine ⟨m / 256 ^ (3 - s), 0, hlt, ?_⟩
    rw [hval, Nat.mod_eq_of_lt (by omega), pow_zero, Nat.mul_one]
  rw [pow_256_of_three_le (by omega), ← Nat.mul_assoc, Nat.mul_div_cancel _ (by positivity)] at hval
  by_cases hs30 : s - 3 ≤ 29
  · -- at most 29 bytes of shift: no wrap
    have hlt : m * 256 ^ (s - 3) < 2 ^ 256 :=
      calc m * 256 ^ (s - 3) < 2 ^ 23 * 256 ^ 29 :=
            Nat.mul_lt_mul_of_lt_of_le hm (Nat.pow_le_pow_right (by norm_num) hs30) (by positivity)
        _ ≤ 2 ^ 256 := by norm_num
    exact ⟨m, s - 3, hm, by rw [hval, Nat.mod_eq_of_lt hlt]⟩
  · -- 30 bytes or more: the word is a multiple of `2 ^ 240`, so below `2 ^ 240` it is `0`
    have hdvd : 2 ^ 240 ∣ m * 256 ^ (s - 3) % 2 ^ 256 := by
      rw [Nat.dvd_mod_iff (pow_dvd_pow 2 (by norm_num))]
      apply Dvd.dvd.mul_left
      rw [pow_256]
      exact pow_dvd_pow 2 (by omega)
    rw [← hval] at hdvd
    obtain ⟨j, hj⟩ := hdvd
    refine ⟨0, 0, by norm_num, ?_⟩
    rw [hj] at h ⊢
    have : j = 0 := by omega
    simp [this]

/-- A decoded word below `2 ^ 240` is its own truncation. -/
theorem SetCompact_trunc_eq (c : UInt32) (h : (SetCompact c).1.toNat < 2 ^ 240) :
    ∃ k, IsCompactShift (SetCompact c).1.toNat k ∧
      (SetCompact c).1.toNat / 256 ^ k * 256 ^ k = (SetCompact c).1.toNat := by
  obtain ⟨-, k, -, hk, -⟩ := SetCompact_GetCompact (SetCompact c).1
  obtain ⟨m, e, hm, hme⟩ := SetCompact_eq_mul c h
  exact ⟨k, hk, hk.trunc_eq_of_mul hme hm⟩

/-- The truncation of a number at or above a decoded word is still at or above it. -/
theorem SetCompact_le_trunc {c : UInt32} {X k : ℕ} (h : (SetCompact c).1.toNat < 2 ^ 240)
    (hk : IsCompactShift X k) (hcX : (SetCompact c).1.toNat ≤ X) :
    (SetCompact c).1.toNat ≤ X / 256 ^ k * 256 ^ k := by
  obtain ⟨k', hk', heq⟩ := SetCompact_trunc_eq c h
  calc (SetCompact c).1.toNat = (SetCompact c).1.toNat / 256 ^ k' * 256 ^ k' := heq.symm
    _ ≤ X / 256 ^ k * 256 ^ k := hk'.trunc_mono hk hcX

-- the `nBits` of the main network's genesis block, and of the regression test network's
example : GetCompact (SetCompact 0x1f00ffff).1 false = some 0x1f00ffff := by decide
example : GetCompact (SetCompact 0x207fffff).1 false = some 0x207fffff := by decide

/-- The compact form round-trips: read back, a number keeps its top 23 bits at byte
granularity, no more than it had, and raises no flag; and a canonical word is the compact form
of the number it stands for. -/
theorem compact_roundtrip :
    (∀ x : arith_uint256, ∃ c k, GetCompact x false = some c ∧ IsCompactShift x.toNat k ∧
        (SetCompact c).1.toNat = x.toNat / 256 ^ k * 256 ^ k ∧
        (SetCompact c).1.toNat ≤ x.toNat ∧ (SetCompact c).2 = (false, false)) ∧
      ∀ c : UInt32, IsCanonicalCompact c → GetCompact (SetCompact c).1 false = some c := by
  refine ⟨fun x => ?_, fun c hc => GetCompact_SetCompact hc⟩
  obtain ⟨c, k, hget, hk, hval, hflags⟩ := SetCompact_GetCompact x
  exact ⟨c, k, hget, hk, hval, hval ▸ Nat.div_mul_le_self _ _, hflags⟩

/-- The genesis `nBits` is canonical and comes back. -/
theorem compact_roundtrip_genesis :
    IsCanonicalCompact 0x1d00ffff ∧ GetCompact (SetCompact 0x1d00ffff).1 false = some 0x1d00ffff :=
  have hc : IsCanonicalCompact 0x1d00ffff := .inr ⟨by decide, by decide, by decide, by decide,
    by decide⟩
  ⟨hc, compact_roundtrip.2 _ hc⟩

end HydraNode
