import HydraNode.Lib.Radix
import HydraNode.Util.BaseEncodings
import HydraNode.Util.TokenStr

/-!
# Base58 and Base58Check

`EncodeBase58` (`base58.cpp`) writes a byte string as a number in base 58, after a `1` for each
leading zero byte, and `DecodeBase58` reads it back. Both convert in place: a buffer of digits,
most significant first, is multiplied by the old base and the next digit is added, by a carry
loop from the last digit that stops once the carry is zero and the digits in use are passed;
`assert(carry == 0)` then checks that the number still fits. The encoder's buffer has
`len * 138 / 100 + 1` digits of base 58, the decoder's `strlen * 733 / 1000 + 1` of base 256,
`log 256 / log 58` and its inverse rounded up, stored into an `int`.

One step of the carry loop adds the carried digit to the buffer's value times the base, and
leaves a carry exactly when the result does not fit (`carryIn_ok`, `carryIn_error`). The
assertion therefore fails exactly when the whole number does not fit the buffer, which does not
happen while the size is computed exactly (`pow_le_encodeSize`, `pow_le_decodeSize`); so
`DecodeBase58 (EncodeBase58 b) = b` and the Base58Check round trip hold for every byte string
whose buffer size is an `int`. At about three billion bytes the size wraps around to zero and the
assertion fails (`EncodeBase58_assert_fails`). A string `DecodeBase58` accepts is the encoding of
its result, once its surrounding spaces are removed (`EncodeBase58_of_DecodeBase58`).

Byte strings are lists of `UInt8`; the buffers are lists of digits, least significant first, so
that the loop runs from the head. Strings are lists of characters, and the string overloads stop
at the first `NUL`; a character beyond one byte has no entry in `mapBase58`. A failed assertion
and the `std::length_error` of a buffer of negative size are errors; `return false` is `none`.
`Hash` is a parameter: its 32 bytes as they lie in memory.

## Main definitions

* `carryLoop`, `carryIn` — the conversion loops
* `EncodeBase58`, `DecodeBase58`, `EncodeBase58Check`, `DecodeBase58Check`

## Main results

* `EncodeBase58_eq`, `DecodeBase58_eq_some` — what the two functions compute
* `DecodeBase58_EncodeBase58`, `DecodeBase58Check_EncodeBase58Check` — the round trips
* `DecodeBase58_ne_error` — the decoder's assertion holds
* `EncodeBase58_of_DecodeBase58` — the decoder accepts one spelling of each byte string
-/

namespace HydraNode

namespace Base58

open Radix

/-! ## The source -/

/-- `pszBase58`. -/
def pszBase58 : List Char := "123456789ABCDEFGHJKLMNPQRSTUVWXYZabcdefghijkmnopqrstuvwxyz".toList

/-- `mapBase58`. -/
def mapBase58 : List ℤ := [
  -1, -1, -1, -1, -1, -1, -1, -1, -1, -1, -1, -1, -1, -1, -1, -1,
  -1, -1, -1, -1, -1, -1, -1, -1, -1, -1, -1, -1, -1, -1, -1, -1,
  -1, -1, -1, -1, -1, -1, -1, -1, -1, -1, -1, -1, -1, -1, -1, -1,
  -1, 0, 1, 2, 3, 4, 5, 6, 7, 8, -1, -1, -1, -1, -1, -1,
  -1, 9, 10, 11, 12, 13, 14, 15, 16, -1, 17, 18, 19, 20, 21, -1,
  22, 23, 24, 25, 26, 27, 28, 29, 30, 31, 32, -1, -1, -1, -1, -1,
  -1, 33, 34, 35, 36, 37, 38, 39, 40, 41, 42, 43, -1, 44, 45, 46,
  47, 48, 49, 50, 51, 52, 53, 54, 55, 56, 57, -1, -1, -1, -1, -1,
  -1, -1, -1, -1, -1, -1, -1, -1, -1, -1, -1, -1, -1, -1, -1, -1,
  -1, -1, -1, -1, -1, -1, -1, -1, -1, -1, -1, -1, -1, -1, -1, -1,
  -1, -1, -1, -1, -1, -1, -1, -1, -1, -1, -1, -1, -1, -1, -1, -1,
  -1, -1, -1, -1, -1, -1, -1, -1, -1, -1, -1, -1, -1, -1, -1, -1,
  -1, -1, -1, -1, -1, -1, -1, -1, -1, -1, -1, -1, -1, -1, -1, -1,
  -1, -1, -1, -1, -1, -1, -1, -1, -1, -1, -1, -1, -1, -1, -1, -1,
  -1, -1, -1, -1, -1, -1, -1, -1, -1, -1, -1, -1, -1, -1, -1, -1,
  -1, -1, -1, -1, -1, -1, -1, -1, -1, -1, -1, -1, -1, -1, -1, -1
  ]

/-- An integer stored into an `int`: the low 32 bits, read as a signed number. -/
def toInt32 (x : ℤ) : ℤ :=
  let low := x % 2 ^ 32
  if low < 2 ^ 31 then low else low - 2 ^ 32

/-- The carry loop of both directions, from the last digit of the buffer:
`for (i = 0; (carry != 0 || i < length) && it != rend; ++it, ++i)` with
`carry += mul * *it; *it = carry % base; carry /= base;`. It returns the digits, the carry and
`i` when the loop stops. -/
def carryLoop (base mul length : ℕ) : ℕ → ℕ → List ℕ → List ℕ × ℕ × ℕ
  | carry, i, [] => ([], carry, i)
  | carry, i, d :: ds =>
    if carry ≠ 0 ∨ i < length then
      let carry := carry + mul * d
      let (ds', carry', i') := carryLoop base mul length (carry / base) (i + 1) ds
      (carry % base :: ds', carry', i')
    else (d :: ds, carry, i)

/-- One digit of the outer loop: carry it into the buffer, `assert(carry == 0)`, and
`length = i`. -/
def carryIn (base mul : ℕ) (st : List ℕ × ℕ) (x : ℕ) : Except String (List ℕ × ℕ) :=
  let (buf, length) := st
  let (buf', carry, i) := carryLoop base mul length x 0 buf
  if carry = 0 then .ok (buf', i) else .error "assert(carry == 0)"

/-- The digits from `begin() + (size - length)` on, after the leading zeros. -/
def significant (buf : List ℕ) (length : ℕ) : List ℕ :=
  (buf.reverse.drop (buf.length - length)).dropWhile (· = 0)

/-- `EncodeBase58`. -/
def EncodeBase58 (b : List UInt8) : Except String (List Char) :=
  let zeroes := (b.takeWhile (· = 0)).length
  let rest := b.dropWhile (· = 0)
  let size := toInt32 ((rest.length * 138 / 100 + 1 : ℕ) : ℤ)
  if size < 0 then .error "std::length_error"
  else
    match (rest.map UInt8.toNat).foldlM (carryIn 58 256) (List.replicate size.toNat 0, 0) with
    | .error e => .error e
    | .ok (b58, length) =>
      .ok (List.replicate zeroes '1' ++ (significant b58 length).map fun d => pszBase58.getD d '1')

/-- The loop over the characters of `DecodeBase58`; `none` at a character `mapBase58` does not
know. -/
def decodeChars : List ℕ × ℕ → List Char → Except String (Option (List ℕ × ℕ))
  | st, [] => .ok (some st)
  | st, c :: cs =>
    let carry := tableValue mapBase58 c
    if carry = -1 then .ok none
    else
      match carryIn 256 58 st carry.toNat with
      | .error e => .error e
      | .ok st' => decodeChars st' cs

/-- `DecodeBase58`, for the string overload: `str.c_str()` ends at the first `NUL`. -/
def DecodeBase58 (str : List Char) : Except String (Option (List UInt8)) :=
  let psz := (str.takeWhile (· ≠ '\x00')).dropWhile IsSpace
  let zeroes := (psz.takeWhile (· = '1')).length
  let psz := psz.dropWhile (· = '1')
  let size := toInt32 ((psz.length * 733 / 1000 + 1 : ℕ) : ℤ)
  if size < 0 then .error "std::length_error"
  else
    match decodeChars (List.replicate size.toNat 0, 0) (psz.takeWhile fun c => !IsSpace c) with
    | .error e => .error e
    | .ok none => .ok none
    | .ok (some (b256, length)) =>
      if (psz.dropWhile fun c => !IsSpace c).dropWhile IsSpace ≠ [] then .ok none
      else .ok (some (List.replicate zeroes 0 ++ (significant b256 length).map Nat.toUInt8))

/-- `EncodeBase58Check`: the bytes and the first four bytes of their hash. -/
def EncodeBase58Check (Hash : List UInt8 → Vector UInt8 32) (vchIn : List UInt8) :
    Except String (List Char) :=
  EncodeBase58 (vchIn ++ (Hash vchIn).toList.take 4)

/-- `DecodeBase58Check`. -/
def DecodeBase58Check (Hash : List UInt8 → Vector UInt8 32) (str : List Char) :
    Except String (Option (List UInt8)) := do
  let some vchRet ← DecodeBase58 str | return none
  if vchRet.length < 4 then return none
  if (Hash (vchRet.take (vchRet.length - 4))).toList.take 4 ≠ vchRet.drop (vchRet.length - 4) then
    return none
  return some (vchRet.take (vchRet.length - 4))

/-! ## The carry loop -/

section Loop

variable {base mul length : ℕ}

theorem ofDigits_lt_of_cons_lt (hb : 0 < base) {ds : List ℕ} {d k : ℕ}
    (h : Nat.ofDigits base (d :: ds) < base ^ k) : Nat.ofDigits base ds < base ^ (k - 1) := by
  rw [Nat.ofDigits_cons] at h
  rcases k with _ | k
  · rw [pow_zero] at h ⊢
    nlinarith
  · rw [pow_succ] at h
    rw [Nat.add_sub_cancel]
    nlinarith

/-- The carry loop adds the carry to the digits times `mul`; what does not fit is left in the
carry. With no carry left, the digits from where the loop stopped on are zero. -/
theorem carryLoop_spec (hb : 1 < base) {ds : List ℕ} (hd : ∀ d ∈ ds, d < base) {carry i : ℕ}
    (hz : Nat.ofDigits base ds < base ^ (length - i)) {ds' : List ℕ} {carry' i' : ℕ}
    (h : carryLoop base mul length carry i ds = (ds', carry', i')) :
    ds'.length = ds.length ∧ (∀ d ∈ ds', d < base) ∧
      Nat.ofDigits base ds' + carry' * base ^ ds.length = Nat.ofDigits base ds * mul + carry ∧
      (carry' = 0 → Nat.ofDigits base ds' < base ^ (i' - i)) ∧ i ≤ i' := by
  induction ds generalizing carry i ds' carry' i' with
  | nil =>
    simp only [carryLoop, Prod.mk.injEq] at h
    obtain ⟨rfl, rfl, rfl⟩ := h
    simp
  | cons d ds ih =>
    rw [carryLoop] at h
    split_ifs at h with hc
    · -- a digit is written and the rest of the carry goes on
      set C := carry + mul * d
      dsimp only at h
      rcases hr : carryLoop base mul length (C / base) (i + 1) ds with ⟨ds₁, c₁, i₁⟩
      rw [hr] at h
      obtain ⟨rfl, rfl, rfl⟩ : C % base :: ds₁ = ds' ∧ c₁ = carry' ∧ i₁ = i' := by
        simpa using h
      have hz' : Nat.ofDigits base ds < base ^ (length - (i + 1)) := by
        have := ofDigits_lt_of_cons_lt (by omega) hz
        rwa [show length - i - 1 = length - (i + 1) by omega] at this
      obtain ⟨hlen, hlt, hval, hfit, hi⟩ :=
        ih (fun x hx => hd x (List.mem_cons_of_mem d hx)) hz' hr
      have hC : C % base < base := Nat.mod_lt _ (by omega)
      refine ⟨by simp [hlen], ?_, ?_, fun h0 => ?_, by omega⟩
      · intro x hx
        rcases List.mem_cons.mp hx with rfl | hx
        · exact hC
        · exact hlt x hx
      · rw [Nat.ofDigits_cons, Nat.ofDigits_cons, List.length_cons, pow_succ]
        calc C % base + base * Nat.ofDigits base ds₁ + c₁ * (base ^ ds.length * base)
            = C % base + base * (Nat.ofDigits base ds₁ + c₁ * base ^ ds.length) := by ring
          _ = C % base + base * (C / base) + base * Nat.ofDigits base ds * mul := by rw [hval]; ring
          _ = (d + base * Nat.ofDigits base ds) * mul + carry := by rw [Nat.mod_add_div]; ring
      · have hk := hfit h0
        rw [Nat.ofDigits_cons, show i₁ - i = i₁ - (i + 1) + 1 by omega, pow_succ]
        nlinarith
    · -- the carry is zero and the digits in use are passed: nothing changes
      obtain ⟨rfl, rfl, rfl⟩ : d :: ds = ds' ∧ carry = carry' ∧ i = i' := by simpa using h
      have hzero : Nat.ofDigits base (d :: ds) = 0 := by
        rw [show length - i = 0 by omega, pow_zero] at hz
        omega
      obtain rfl : carry = 0 := by omega
      refine ⟨rfl, hd, ?_, fun _ => ?_, le_refl i⟩
      · rw [hzero]
        simp
      · rw [hzero]
        exact Nat.pow_pos (by omega)

/-- A buffer of `size` digits of base `base`, least significant first, that holds `N`, with
its digits from `length` on zero. -/
structure Holds (base size : ℕ) (st : List ℕ × ℕ) (N : ℕ) : Prop where
  length_eq : st.1.length = size
  lt_base : ∀ d ∈ st.1, d < base
  value_eq : Nat.ofDigits base st.1 = N
  lt_pow : N < base ^ st.2

theorem holds_replicate (hb : 0 < base) (size : ℕ) : Holds base size (List.replicate size 0, 0) 0 where
  length_eq := List.length_replicate
  lt_base := fun d hd => (List.mem_replicate.mp hd).2 ▸ hb
  value_eq := Nat.ofDigits_replicate_zero
  lt_pow := by simp

theorem Holds.lt_pow_size (hb : 1 < base) {size : ℕ} {st : List ℕ × ℕ} {N : ℕ}
    (h : Holds base size st N) : N < base ^ size := by
  rw [← h.value_eq, ← h.length_eq]
  exact Nat.ofDigits_lt_base_pow_length hb h.lt_base

/-- The digits a buffer shows are those of its number. -/
theorem Holds.significant_eq (hb : 1 < base) {size : ℕ} {st : List ℕ × ℕ} {N : ℕ}
    (h : Holds base size st N) : significant st.1 st.2 = (Nat.digits base N).reverse := by
  rw [significant, dropWhile_drop_reverse hb h.lt_base (h.value_eq ▸ h.lt_pow), h.value_eq]

/-- A digit carried into a buffer whose number still fits after it: the assertion holds. -/
theorem carryIn_ok (hb : 1 < base) {size : ℕ} {st : List ℕ × ℕ} {N x : ℕ}
    (h : Holds base size st N) (hfit : N * mul + x < base ^ size) :
    ∃ st', carryIn base mul st x = .ok st' ∧ Holds base size st' (N * mul + x) := by
  obtain ⟨buf, length⟩ := st
  rcases hr : carryLoop base mul length x 0 buf with ⟨buf', c, i⟩
  obtain ⟨hlen, hlt, hval, hfits, -⟩ :=
    carryLoop_spec hb h.lt_base (by rw [Nat.sub_zero, h.value_eq]; exact h.lt_pow) hr
  rw [h.length_eq, h.value_eq] at hval
  -- the buffer takes all of the number, so no carry is left
  have hc : c = 0 := by
    by_contra hc
    have : base ^ size ≤ c * base ^ size := Nat.le_mul_of_pos_left _ (Nat.pos_of_ne_zero hc)
    omega
  subst hc
  rw [zero_mul, Nat.add_zero] at hval
  refine ⟨(buf', i), ?_, ⟨hlen.trans h.length_eq, hlt, hval, ?_⟩⟩
  · simp only [carryIn, hr]
    rfl
  · have := hfits rfl
    rw [Nat.sub_zero, hval] at this
    exact this

/-- A digit carried into a buffer whose number no longer fits after it: the assertion fails. -/
theorem carryIn_error (hb : 1 < base) {size : ℕ} {st : List ℕ × ℕ} {N x : ℕ}
    (h : Holds base size st N) (hover : base ^ size ≤ N * mul + x) :
    carryIn base mul st x = .error "assert(carry == 0)" := by
  obtain ⟨buf, length⟩ := st
  rcases hr : carryLoop base mul length x 0 buf with ⟨buf', c, i⟩
  obtain ⟨hlen, hlt, hval, -, -⟩ :=
    carryLoop_spec hb h.lt_base (by rw [Nat.sub_zero, h.value_eq]; exact h.lt_pow) hr
  rw [h.length_eq, h.value_eq] at hval
  have hbuf : Nat.ofDigits base buf' < base ^ size := by
    rw [← h.length_eq, ← hlen]
    exact Nat.ofDigits_lt_base_pow_length hb hlt
  have hc : c ≠ 0 := by
    rintro rfl
    omega
  simp only [carryIn, hr, if_neg hc]

/-- The outer loop over digits whose number fits: it ends with the buffer holding it. -/
theorem foldlM_carryIn_ok (hb : 1 < base) (hmul : 0 < mul) {size : ℕ} {xs : List ℕ}
    {st : List ℕ × ℕ} {N : ℕ} (h : Holds base size st N) (hfit : horner mul N xs < base ^ size) :
    ∃ st', xs.foldlM (carryIn base mul) st = .ok st' ∧ Holds base size st' (horner mul N xs) := by
  induction xs generalizing st N with
  | nil => exact ⟨st, rfl, h⟩
  | cons x xs ih =>
    rw [horner_cons] at hfit ⊢
    obtain ⟨st₁, hst₁, h₁⟩ := carryIn_ok hb h (lt_of_le_of_lt (le_horner hmul _ xs) hfit)
    obtain ⟨st', hst', h'⟩ := ih h₁ hfit
    refine ⟨st', ?_, h'⟩
    rw [List.foldlM_cons, hst₁]
    exact hst'

/-- The outer loop over digits whose number does not fit: the assertion fails on the way. -/
theorem foldlM_carryIn_error (hb : 1 < base) {size : ℕ} {xs : List ℕ}
    {st : List ℕ × ℕ} {N : ℕ} (h : Holds base size st N) (hover : base ^ size ≤ horner mul N xs) :
    xs.foldlM (carryIn base mul) st = .error "assert(carry == 0)" := by
  induction xs generalizing st N with
  | nil => exact absurd (h.lt_pow_size hb) (not_lt.mpr hover)
  | cons x xs ih =>
    rw [horner_cons] at hover
    rw [List.foldlM_cons]
    by_cases hfit : N * mul + x < base ^ size
    · obtain ⟨st₁, hst₁, h₁⟩ := carryIn_ok hb h hfit
      rw [hst₁]
      exact ih h₁ hover
    · rw [carryIn_error hb h (by omega)]
      rfl

/-- A run that succeeds leaves the buffer holding the whole number. -/
theorem foldlM_carryIn_holds (hb : 1 < base) (hmul : 0 < mul) {size : ℕ} {xs : List ℕ}
    {st st' : List ℕ × ℕ} {N : ℕ} (h : Holds base size st N)
    (hrun : xs.foldlM (carryIn base mul) st = .ok st') : Holds base size st' (horner mul N xs) := by
  by_cases hfit : horner mul N xs < base ^ size
  · obtain ⟨st'', hrun', h'⟩ := foldlM_carryIn_ok hb hmul h hfit
    rw [hrun'] at hrun
    cases hrun
    exact h'
  · rw [foldlM_carryIn_error hb h (not_lt.mp hfit)] at hrun
    cases hrun

end Loop

/-! ## The sizes of the buffers -/

/-- `log 256 / log 58 < 138 / 100`: eight bytes fit in eleven digits of base 58. -/
theorem pow_le_encodeSize (n : ℕ) : 256 ^ n ≤ 58 ^ (n * 138 / 100 + 1) := by
  rw [Nat.mul_comm]
  exact pow_le_pow_div_add_one (s := 8) (t := 11) (by norm_num) (by norm_num) (by norm_num)
    (by norm_num) (by norm_num) (by decide) n

/-- `log 58 / log 256 < 733 / 1000`: seventy-one digits of base 58 fit in fifty-two bytes. -/
theorem pow_le_decodeSize (n : ℕ) : 58 ^ n ≤ 256 ^ (n * 733 / 1000 + 1) := by
  rw [Nat.mul_comm]
  exact pow_le_pow_div_add_one (s := 71) (t := 52) (by norm_num) (by norm_num) (by norm_num)
    (by norm_num) (by norm_num) (by decide) n

theorem toInt32_of_lt {x : ℤ} (h₀ : 0 ≤ x) (h : x < 2 ^ 31) : toInt32 x = x := by
  have hmod : x % 2 ^ 32 = x := Int.emod_eq_of_lt h₀ (by omega)
  simp only [toInt32, hmod, if_pos h]

/-! ## The alphabet -/

set_option maxRecDepth 8000 in
/-- The table reads each character of the alphabet back as its digit; no such character is a
`NUL` or a space, and only the digit zero is written `1`. -/
theorem pszBase58_spec : ∀ d < 58, tableValue mapBase58 (pszBase58.getD d '1') = d ∧
    pszBase58.getD d '1' ≠ '\x00' ∧ IsSpace (pszBase58.getD d '1') = false ∧
    (pszBase58.getD d '1' = '1' ↔ d = 0) := by
  decide

set_option maxRecDepth 8000 in
/-- Every character the table knows has a digit, and is the alphabet's character for it. -/
theorem mapBase58_spec : ∀ c, tableValue mapBase58 c ≠ -1 →
    0 ≤ tableValue mapBase58 c ∧ tableValue mapBase58 c < 58 ∧
      pszBase58.getD (tableValue mapBase58 c).toNat '1' = c :=
  forall_char (by decide) fun c hc h => absurd (tableValue_of_le (show mapBase58.length ≤ c.toNat by
    rw [show mapBase58.length = 256 from rfl]; exact hc)) h

/-- The characters of digits below `58` are read back as those digits. -/
theorem decodeChars_map (st : List ℕ × ℕ) {ds : List ℕ} (hd : ∀ d ∈ ds, d < 58) :
    decodeChars st (ds.map fun d => pszBase58.getD d '1') =
      (ds.foldlM (carryIn 256 58) st).map some := by
  induction ds generalizing st with
  | nil => rfl
  | cons d ds ih =>
    have hv := (pszBase58_spec d (hd d (List.mem_cons_self ..))).1
    rw [List.map_cons, decodeChars, hv, if_neg (by omega), List.foldlM_cons, Int.toNat_natCast]
    cases carryIn 256 58 st d with
    | error e => rfl
    | ok st' => exact ih st' fun x hx => hd x (List.mem_cons_of_mem d hx)

/-- The decoder's loop never fails its assertion while `(N + 1) 58 ^ k` fits the buffer. -/
theorem decodeChars_ne_error {size : ℕ} {st : List ℕ × ℕ} {N : ℕ} (h : Holds 256 size st N)
    {cs : List Char} (hfit : (N + 1) * 58 ^ cs.length ≤ 256 ^ size) (e : String) :
    decodeChars st cs ≠ .error e := by
  induction cs generalizing st N with
  | nil => exact fun h => by cases h
  | cons c cs ih =>
    rw [decodeChars]
    split_ifs with hc
    · exact fun h => by cases h
    obtain ⟨h0, h58, -⟩ := mapBase58_spec c hc
    set v := (tableValue mapBase58 c).toNat
    have hv : v < 58 := by omega
    rw [List.length_cons, pow_succ] at hfit
    -- the next number is below `(N + 1) 58`, and the rest fits after it
    have hnext : (N * 58 + v + 1) * 58 ^ cs.length ≤ 256 ^ size :=
      calc (N * 58 + v + 1) * 58 ^ cs.length ≤ (N + 1) * 58 * 58 ^ cs.length :=
            Nat.mul_le_mul_right _ (by omega)
        _ = (N + 1) * (58 ^ cs.length * 58) := by ring
        _ ≤ 256 ^ size := hfit
    have hk : 1 ≤ 58 ^ cs.length := Nat.one_le_pow _ _ (by norm_num)
    have hstep : N * 58 + v + 1 ≤ 256 ^ size := le_trans (Nat.le_mul_of_pos_right _ hk) hnext
    have hfit' : N * 58 + v < 256 ^ size := by omega
    obtain ⟨st', hst', h'⟩ := carryIn_ok (by norm_num) h hfit'
    rw [hst']
    exact ih h' hnext

/-- A run of the decoder's loop that reaches the end read only characters of the alphabet. -/
theorem decodeChars_eq_some {st st' : List ℕ × ℕ} {cs : List Char}
    (h : decodeChars st cs = .ok (some st')) :
    ∃ D : List ℕ, (∀ d ∈ D, d < 58) ∧ cs = D.map (fun d => pszBase58.getD d '1') ∧
      D.foldlM (carryIn 256 58) st = .ok st' := by
  induction cs generalizing st with
  | nil =>
    obtain rfl : st = st' := by simpa [decodeChars] using h
    exact ⟨[], by simp, rfl, rfl⟩
  | cons c cs ih =>
    rw [decodeChars] at h
    split_ifs at h with hc
    · cases h
    obtain ⟨h0, h58, hch⟩ := mapBase58_spec c hc
    cases hstep : carryIn 256 58 st (tableValue mapBase58 c).toNat with
    | error e =>
      rw [hstep] at h
      cases h
    | ok st₁ =>
      rw [hstep] at h
      obtain ⟨D, hD, rfl, hrun⟩ := ih h
      refine ⟨(tableValue mapBase58 c).toNat :: D, ?_, by rw [List.map_cons, hch], ?_⟩
      · intro d hd
        rcases List.mem_cons.mp hd with rfl | hd
        · omega
        · exact hD d hd
      · rw [List.foldlM_cons, hstep]
        exact hrun

/-! ## Encoding and decoding -/

/-- A `1` for each leading zero byte, then the digits of base 58 of the number the other bytes
make. -/
theorem EncodeBase58_eq {b : List UInt8}
    (hb : (b.dropWhile (· = 0)).length * 138 / 100 + 1 < 2 ^ 31) :
    EncodeBase58 b = .ok (List.replicate (b.takeWhile (· = 0)).length '1' ++
      (Nat.digits 58 (horner 256 0 ((b.dropWhile (· = 0)).map UInt8.toNat))).reverse.map
        fun d => pszBase58.getD d '1') := by
  set rest := b.dropWhile (· = 0)
  set n := rest.length * 138 / 100 + 1
  have hsize : toInt32 (n : ℤ) = n := toInt32_of_lt (by omega) (by exact_mod_cast hb)
  have hfit : horner 256 0 (rest.map UInt8.toNat) < 58 ^ n :=
    calc horner 256 0 (rest.map UInt8.toNat) < (0 + 1) * 256 ^ (rest.map UInt8.toNat).length :=
          horner_lt (bytes_lt rest) 0
      _ = 256 ^ rest.length := by rw [List.length_map, zero_add, one_mul]
      _ ≤ 58 ^ n := pow_le_encodeSize _
  obtain ⟨⟨b58, length⟩, hrun, hst⟩ :=
    foldlM_carryIn_ok (by norm_num) (by norm_num) (holds_replicate (by norm_num) n) hfit
  unfold EncodeBase58
  dsimp only
  rw [hsize, if_neg (by omega), Int.toNat_natCast, hrun]
  dsimp only
  rw [hst.significant_eq (by norm_num)]

example : EncodeBase58 [0, 0, 1, 255] = .ok "119p".toList := by decide

/-- The run of `1`s before digits with no leading zero is the run written. -/
theorem takeWhile_one_canonical (z : ℕ) {D : List ℕ} (hD : ∀ d ∈ D, d < 58)
    (hhead : D.head? ≠ some 0) :
    (D.map fun d => pszBase58.getD d '1').takeWhile (· = '1') = [] ∧
      (List.replicate z '1' ++ D.map fun d => pszBase58.getD d '1').takeWhile (· = '1') =
        List.replicate z '1' := by
  have hfirst : (D.map fun d => pszBase58.getD d '1').takeWhile (· = '1') = [] := by
    rcases D with _ | ⟨d, D'⟩
    · rfl
    · have hd0 : d ≠ 0 := fun h => hhead (by rw [h]; rfl)
      have hne := (pszBase58_spec d (hD d (List.mem_cons_self ..))).2.2.2
      rw [List.map_cons,
        List.takeWhile_cons_of_neg (by rw [decide_eq_true_eq]; exact fun h => hd0 (hne.mp h))]
  refine ⟨hfirst, ?_⟩
  rw [List.takeWhile_append_of_pos (by simp), hfirst, List.append_nil]

/-- A string of the form `EncodeBase58` writes, a run of `1`s and then digits with no leading
zero, is read as the zero bytes and the bytes of the number of the digits. -/
theorem DecodeBase58_canonical (z : ℕ) {D : List ℕ} (hD : ∀ d ∈ D, d < 58)
    (hhead : D.head? ≠ some 0) (hlen : D.length < 2 ^ 31) :
    DecodeBase58 (List.replicate z '1' ++ D.map fun d => pszBase58.getD d '1') =
      .ok (some (List.replicate z 0 ++ (Nat.digits 256 (horner 58 0 D)).reverse.map Nat.toUInt8)) := by
  set ds := D.map fun d => pszBase58.getD d '1'
  have hchar : ∀ c ∈ ds, c ≠ '\x00' ∧ IsSpace c = false := by
    intro c hc
    obtain ⟨d, hd, rfl⟩ := List.mem_map.mp hc
    obtain ⟨-, hnul, hsp, -⟩ := pszBase58_spec d (hD d hd)
    exact ⟨hnul, hsp⟩
  obtain ⟨hfirst, hzeroes⟩ := takeWhile_one_canonical z hD hhead
  have hones : ∀ c ∈ List.replicate z '1', c = '1' := fun c hc => (List.mem_replicate.mp hc).2
  set s := List.replicate z '1' ++ ds
  have hs : ∀ c ∈ s, c ≠ '\x00' ∧ IsSpace c = false := by
    intro c hc
    rcases List.mem_append.mp hc with hc | hc
    · rw [hones c hc]
      decide
    · exact hchar c hc
  -- the scan for the end, the spaces and the `1`s
  have hcstr : s.takeWhile (· ≠ '\x00') = s :=
    List.takeWhile_eq_self_iff.mpr fun c hc => by simpa using (hs c hc).1
  have hspace : s.dropWhile IsSpace = s :=
    List.dropWhile_eq_self_iff.mpr fun hl => by simpa using (hs _ (List.getElem_mem hl)).2
  have hrest : s.dropWhile (· = '1') = ds := by
    rw [List.dropWhile_append_of_pos (by simp)]
    have hsplit := List.takeWhile_append_dropWhile (p := (· = '1')) (l := ds)
    rw [hfirst, List.nil_append] at hsplit
    exact hsplit
  have hbody : ds.takeWhile (fun c => !IsSpace c) = ds :=
    List.takeWhile_eq_self_iff.mpr fun c hc => by simp [(hchar c hc).2]
  have hend : ds.dropWhile (fun c => !IsSpace c) = [] :=
    List.dropWhile_eq_nil_iff.mpr fun c hc => by simp [(hchar c hc).2]
  -- the buffer
  set m := D.length * 733 / 1000 + 1
  have hdslen : ds.length = D.length := List.length_map ..
  have hsize : toInt32 (m : ℤ) = m := toInt32_of_lt (by omega) (by push_cast; omega)
  have hfit : horner 58 0 D < 256 ^ m :=
    calc horner 58 0 D < (0 + 1) * 58 ^ D.length := horner_lt hD 0
      _ = 58 ^ D.length := by rw [zero_add, one_mul]
      _ ≤ 256 ^ m := pow_le_decodeSize _
  obtain ⟨⟨b256, length⟩, hrun, hst⟩ :=
    foldlM_carryIn_ok (by norm_num) (by norm_num) (holds_replicate (by norm_num) m) hfit
  unfold DecodeBase58
  dsimp only
  rw [hcstr, hspace, hrest, hdslen, hsize, if_neg (by omega), Int.toNat_natCast, hbody,
    decodeChars_map _ hD, hrun]
  dsimp only [Except.map]
  rw [hend, List.dropWhile_nil, if_neg fun h => h rfl, hzeroes, List.length_replicate,
    hst.significant_eq (by norm_num)]

/-- The bytes after the leading zeros are the digits of their number. -/
theorem digits_dropWhile_zero (b : List UInt8) :
    (Nat.digits 256 (horner 256 0 ((b.dropWhile (· = 0)).map UInt8.toNat))).reverse.map
      Nat.toUInt8 = b.dropWhile (· = 0) := by
  have hhead : ((b.dropWhile (· = 0)).map UInt8.toNat).head? ≠ some 0 := by
    have hnot := List.head?_dropWhile_not (fun x => decide (x = 0)) b
    rw [List.head?_map]
    cases hr : (b.dropWhile (· = 0)).head? with
    | none => simp
    | some x =>
      rw [hr] at hnot
      have hx : x ≠ 0 := by simpa using hnot
      have hx' : x.toNat ≠ 0 := fun h => hx (UInt8.toNat_inj.mp (by rw [h]; rfl))
      simpa using hx'
  rw [digits_horner_zero (m := 256) (by norm_num) (bytes_lt _) hhead, List.map_map]
  conv_rhs => rw [← List.map_id (b.dropWhile (· = 0))]
  exact List.map_congr_left fun x _ => by simp

/-- A leading run of one value, as long as it is. -/
theorem takeWhile_eq_replicate {α : Type} [DecidableEq α] (a : α) (l : List α) :
    l.takeWhile (· = a) = List.replicate (l.takeWhile (· = a)).length a :=
  List.eq_replicate_iff.mpr ⟨rfl, fun x hx => by simpa using List.mem_takeWhile_imp hx⟩

/-- The decoder reads back what the encoder writes, while the encoder's buffer size is an
`int`; the encoding starts with a `1` for each leading zero byte. -/
theorem DecodeBase58_EncodeBase58 {b : List UInt8} (hb : b.length * 138 / 100 + 1 < 2 ^ 31) :
    ∃ s, EncodeBase58 b = .ok s ∧
      s.takeWhile (· = '1') = List.replicate (b.takeWhile (· = 0)).length '1' ∧
      DecodeBase58 s = .ok (some b) := by
  have hrest : (b.dropWhile (· = 0)).length ≤ b.length := List.length_dropWhile_le _ _
  set N := horner 256 0 ((b.dropWhile (· = 0)).map UInt8.toNat)
  have hD : ∀ d ∈ (Nat.digits 58 N).reverse, d < 58 :=
    fun d hd => Nat.digits_lt_base (by norm_num) (List.mem_reverse.mp hd)
  -- the digits fit the encoder's buffer, which is shorter than `2 ^ 31`
  have hDlen : (Nat.digits 58 N).reverse.length < 2 ^ 31 := by
    have hN : N < 58 ^ ((b.dropWhile (· = 0)).length * 138 / 100 + 1) :=
      calc N < (0 + 1) * 256 ^ ((b.dropWhile (· = 0)).map UInt8.toNat).length :=
            horner_lt (bytes_lt _) 0
        _ = 256 ^ (b.dropWhile (· = 0)).length := by rw [List.length_map, zero_add, one_mul]
        _ ≤ _ := pow_le_encodeSize _
    have hlen := (Nat.digits_length_le_iff (by norm_num) N).mpr hN
    rw [List.length_reverse]
    omega
  refine ⟨_, EncodeBase58_eq (by omega), (takeWhile_one_canonical _ hD
    (head?_digits_reverse_ne_zero 58 N)).2, ?_⟩
  rw [DecodeBase58_canonical _ hD (head?_digits_reverse_ne_zero 58 N) hDlen, horner_zero_digits,
    digits_dropWhile_zero, ← takeWhile_eq_replicate, List.takeWhile_append_dropWhile]

/-- The decoder's assertion holds on every string shorter than the size that wraps around. -/
theorem DecodeBase58_ne_error {str : List Char} (hs : str.length * 733 / 1000 + 1 < 2 ^ 31)
    (e : String) : DecodeBase58 str ≠ .error e := by
  set psz := ((str.takeWhile (· ≠ '\x00')).dropWhile IsSpace).dropWhile (· = '1')
  have hpsz : psz.length ≤ str.length :=
    calc psz.length ≤ ((str.takeWhile (· ≠ '\x00')).dropWhile IsSpace).length :=
          List.length_dropWhile_le _ _
      _ ≤ (str.takeWhile (· ≠ '\x00')).length := List.length_dropWhile_le _ _
      _ ≤ str.length := (List.takeWhile_prefix _).length_le
  set m := psz.length * 733 / 1000 + 1
  have hsize : toInt32 (m : ℤ) = m := toInt32_of_lt (by omega) (by push_cast; omega)
  set body := psz.takeWhile fun c => !IsSpace c
  have hbody : body.length ≤ psz.length := (List.takeWhile_prefix _).length_le
  have hfit : (0 + 1) * 58 ^ body.length ≤ 256 ^ m :=
    calc (0 + 1) * 58 ^ body.length = 58 ^ body.length := by rw [zero_add, one_mul]
      _ ≤ 58 ^ psz.length := Nat.pow_le_pow_right (by norm_num) hbody
      _ ≤ 256 ^ m := pow_le_decodeSize _
  have hloop := decodeChars_ne_error (holds_replicate (by norm_num) m) hfit e
  unfold DecodeBase58
  dsimp only
  rw [hsize, if_neg (by omega), Int.toNat_natCast]
  revert hloop
  cases decodeChars (List.replicate m 0, 0) body with
  | error e' =>
    intro h
    dsimp only
    exact fun h' => h (by rw [Except.error.inj h'])
  | ok r =>
    intro _
    rcases r with _ | ⟨b256, length⟩
    · exact fun h => by cases h
    · dsimp only
      split_ifs <;> exact fun h => by cases h

/-- The characters `DecodeBase58` reads as `1`s and digits: those up to the first `NUL`, after
the leading spaces and before the next space. -/
def readPart (str : List Char) : List Char :=
  ((str.takeWhile (· ≠ '\x00')).dropWhile IsSpace).takeWhile fun c => !IsSpace c

/-- A string the decoder accepts reads as a run of `1`s and then digits with no leading zero,
and the result is the zero bytes and the bytes of the number of the digits. -/
theorem DecodeBase58_eq_some {str : List Char} {v : List UInt8}
    (h : DecodeBase58 str = .ok (some v)) :
    ∃ z D, (∀ d ∈ D, d < 58) ∧ D.head? ≠ some 0 ∧
      readPart str = List.replicate z '1' ++ D.map (fun d => pszBase58.getD d '1') ∧
      v = List.replicate z 0 ++ (Nat.digits 256 (horner 58 0 D)).reverse.map Nat.toUInt8 := by
  unfold DecodeBase58 at h
  dsimp only at h
  set psz₀ := (str.takeWhile (· ≠ '\x00')).dropWhile IsSpace
  set z := (psz₀.takeWhile (· = '1')).length
  set psz := psz₀.dropWhile (· = '1')
  set body := psz.takeWhile fun c => !IsSpace c
  set size := toInt32 ((psz.length * 733 / 1000 + 1 : ℕ) : ℤ)
  by_cases hneg : size < 0
  · rw [if_pos hneg] at h
    cases h
  rw [if_neg hneg] at h
  cases hdc : decodeChars (List.replicate size.toNat 0, 0) body with
  | error e =>
    rw [hdc] at h
    cases h
  | ok r =>
    rw [hdc] at h
    rcases r with _ | ⟨b256, length⟩
    · cases h
    dsimp only at h
    by_cases hend : (psz.dropWhile fun c => !IsSpace c).dropWhile IsSpace ≠ []
    · rw [if_pos hend] at h
      cases h
    rw [if_neg hend] at h
    obtain ⟨D, hD, hbody, hrun⟩ := decodeChars_eq_some hdc
    have hst := foldlM_carryIn_holds (by norm_num) (by norm_num) (holds_replicate (by norm_num) _) hrun
    -- the first digit is not a zero: the decoder skipped every leading `1`
    have hhead : D.head? ≠ some 0 := by
      intro h0
      obtain ⟨D', rfl⟩ : ∃ D', D = 0 :: D' := ⟨D.tail, by cases D <;> simp_all⟩
      have hnot := List.head?_dropWhile_not (fun x => decide (x = '1')) psz₀
      have hb' : psz.takeWhile (fun c => !IsSpace c) = _ := hbody
      have h1 : pszBase58.getD 0 '1' = '1' := rfl
      rcases hpsz : psz with _ | ⟨y, ys⟩
      · rw [hpsz] at hb'
        cases hb'
      · rw [hpsz, List.takeWhile_cons] at hb'
        split_ifs at hb'
        · obtain ⟨rfl, -⟩ := List.cons.inj hb'
          rw [show psz₀.dropWhile (· = '1') = psz from rfl, hpsz] at hnot
          dsimp only at hnot
          rw [h1] at hnot
          simp at hnot
        · cases hb'
    refine ⟨z, D, hD, hhead, ?_, ?_⟩
    · have hsplit : psz₀ = List.replicate z '1' ++ psz := by
        rw [← takeWhile_eq_replicate, List.takeWhile_append_dropWhile]
      show psz₀.takeWhile _ = _
      rw [hsplit, List.takeWhile_append_of_pos (by simp [IsSpace])]
      exact congrArg _ hbody
    · rw [hst.significant_eq (by norm_num)] at h
      exact (Option.some.inj (Except.ok.inj h)).symm

/-- A string the decoder accepts is the encoding of its result, once the spaces around it and
what follows a `NUL` are removed: the decoder accepts one spelling of each byte string. -/
theorem EncodeBase58_of_DecodeBase58 {str : List Char} {v : List UInt8}
    (hs : str.length < 2 ^ 30) (h : DecodeBase58 str = .ok (some v)) :
    EncodeBase58 v = .ok (readPart str) := by
  obtain ⟨z, D, hD', hhead, hread, rfl⟩ := DecodeBase58_eq_some h
  set N := horner 58 0 D
  set B := (Nat.digits 256 N).reverse.map Nat.toUInt8
  have hdig : ∀ d ∈ (Nat.digits 256 N).reverse, d < 256 :=
    fun d hd => Nat.digits_lt_base (by norm_num) (List.mem_reverse.mp hd)
  have hBnat : B.map UInt8.toNat = (Nat.digits 256 N).reverse := by
    rw [List.map_map]
    conv_rhs => rw [← List.map_id (Nat.digits 256 N).reverse]
    exact List.map_congr_left fun d hd => by
      simp [Nat.mod_eq_of_lt (hdig d hd)]
  -- the bytes of the number start with a nonzero byte
  have hfirst : B.takeWhile (· = 0) = [] := by
    have h0 := head?_digits_reverse_ne_zero 256 N
    rcases hrev : (Nat.digits 256 N).reverse with _ | ⟨d, ds⟩
    · simp only [B, hrev, List.map_nil, List.takeWhile_nil]
    · have hd : d < 256 := hdig d (by rw [hrev]; exact List.mem_cons_self ..)
      have hd0 : d ≠ 0 := fun h => h0 (by rw [hrev, h]; rfl)
      simp only [B, hrev, List.map_cons]
      rw [List.takeWhile_cons_of_neg]
      rw [decide_eq_true_eq]
      intro hzero
      apply hd0
      have := congrArg UInt8.toNat hzero
      simpa [Nat.mod_eq_of_lt hd] using this
  have htake : (List.replicate z 0 ++ B).takeWhile (· = 0) = List.replicate z 0 := by
    rw [List.takeWhile_append_of_pos (by simp), hfirst, List.append_nil]
  have hdrop : (List.replicate z 0 ++ B).dropWhile (· = 0) = B := by
    rw [List.dropWhile_append_of_pos (by simp)]
    have hsplit := List.takeWhile_append_dropWhile (p := (· = (0 : UInt8))) (l := B)
    rw [hfirst, List.nil_append] at hsplit
    exact hsplit
  -- the bytes fit the encoder's buffer
  have hD : D.length ≤ str.length := by
    have h1 := congrArg List.length hread
    have h2 : (readPart str).length ≤ str.length :=
      calc (readPart str).length ≤ ((str.takeWhile (· ≠ '\x00')).dropWhile IsSpace).length :=
            (List.takeWhile_prefix _).length_le
        _ ≤ (str.takeWhile (· ≠ '\x00')).length := List.length_dropWhile_le _ _
        _ ≤ str.length := (List.takeWhile_prefix _).length_le
    rw [List.length_append, List.length_map] at h1
    omega
  have hBlen : B.length ≤ D.length * 733 / 1000 + 1 := by
    have hN : N < 256 ^ (D.length * 733 / 1000 + 1) :=
      calc N < (0 + 1) * 58 ^ D.length := horner_lt hD' 0
        _ = 58 ^ D.length := by rw [zero_add, one_mul]
        _ ≤ _ := pow_le_decodeSize _
    rw [List.length_map, List.length_reverse]
    exact (Nat.digits_length_le_iff (by norm_num) N).mpr hN
  rw [EncodeBase58_eq (by rw [hdrop]; omega), htake, hdrop, hBnat, horner_zero_digits,
    List.length_replicate, digits_horner_zero (by norm_num) hD' hhead, hread]

set_option maxRecDepth 8000 in
/-- The string ` 119p ` is read as `[0, 0, 1, 255]`, whose encoding is `119p`. -/
theorem EncodeBase58_of_DecodeBase58_spaced :
    (" 119p ".toList.length < 2 ^ 30 ∧ DecodeBase58 " 119p ".toList = .ok (some [0, 0, 1, 255])) ∧
      EncodeBase58 [0, 0, 1, 255] = .ok (readPart " 119p ".toList) :=
  ⟨⟨by decide, by decide⟩, EncodeBase58_of_DecodeBase58 (by decide) (by decide)⟩

/-- Base58Check reads back what it writes: the check bytes are those of the hash of the rest. -/
theorem DecodeBase58Check_EncodeBase58Check (Hash : List UInt8 → Vector UInt8 32) {b : List UInt8}
    (hb : (b.length + 4) * 138 / 100 + 1 < 2 ^ 31) :
    ∃ s, EncodeBase58Check Hash b = .ok s ∧ DecodeBase58Check Hash s = .ok (some b) := by
  set check := (Hash b).toList.take 4
  have hcheck : check.length = 4 := by simp [check]
  have hlen : (b ++ check).length - 4 = b.length := by
    rw [List.length_append, hcheck, Nat.add_sub_cancel]
  obtain ⟨s, hs, -, hd⟩ := DecodeBase58_EncodeBase58 (b := b ++ check)
    (by rw [List.length_append, hcheck]; exact hb)
  refine ⟨s, hs, ?_⟩
  rw [DecodeBase58Check, hd]
  simp only [bind, Except.bind, hlen, List.take_left' rfl, List.drop_left' rfl,
    if_neg (show ¬(b ++ check).length < 4 by rw [List.length_append, hcheck]; omega)]
  rw [if_neg (not_not.mpr rfl)]
  rfl

/-- A string with no `NUL` and no space is read whole. -/
theorem readPart_eq_self {str : List Char} (h : ∀ c ∈ str, c ≠ '\x00' ∧ IsSpace c = false) :
    readPart str = str := by
  have hcstr : str.takeWhile (· ≠ '\x00') = str :=
    List.takeWhile_eq_self_iff.mpr fun c hc => by simpa using (h c hc).1
  have hspace : str.dropWhile IsSpace = str :=
    List.dropWhile_eq_self_iff.mpr fun hl => by simpa using (h _ (List.getElem_mem hl)).2
  rw [readPart, hcstr, hspace]
  exact List.takeWhile_eq_self_iff.mpr fun c hc => by simp [(h c hc).2]

/-- A string the decoder accepts that is read whole and does not start with a `1` has, for the
value `d` of its first character, a value between `d 58 ^ k` and `(d + 1) 58 ^ k`, where `k`
characters follow; the bytes are those of that value. -/
theorem DecodeBase58_value {str rest : List Char} {c : Char} {v : List UInt8}
    (h : DecodeBase58 str = .ok (some v)) (hread : readPart str = c :: rest) (hc : c ≠ '1') :
    ∃ N, v = (Nat.digits 256 N).reverse.map Nat.toUInt8 ∧
      (tableValue mapBase58 c).toNat * 58 ^ rest.length ≤ N ∧
      N < ((tableValue mapBase58 c).toNat + 1) * 58 ^ rest.length := by
  obtain ⟨z, D, hD, -, hpart, rfl⟩ := DecodeBase58_eq_some h
  rw [hread] at hpart
  -- the first character is not a `1`, so there are no zero bytes in front
  obtain rfl : z = 0 := by
    rcases z with _ | z
    · rfl
    · rw [List.replicate_succ, List.cons_append] at hpart
      exact absurd (List.cons.inj hpart).1 hc
  rw [List.replicate_zero, List.nil_append] at hpart
  rcases D with _ | ⟨d, D'⟩
  · cases hpart
  rw [List.map_cons] at hpart
  obtain ⟨rfl, rfl⟩ := List.cons.inj hpart
  have hd := hD d (List.mem_cons_self ..)
  have hD' : ∀ x ∈ D', x < 58 := fun x hx => hD x (List.mem_cons_of_mem d hx)
  have hN : horner 58 0 (d :: D') = horner 58 d D' := by rw [horner_cons, zero_mul, zero_add]
  rw [(pszBase58_spec d hd).1, Int.toNat_natCast, List.length_map]
  refine ⟨horner 58 0 (d :: D'), by rw [List.replicate_zero, List.nil_append], ?_, ?_⟩
  · rw [hN]
    exact mul_pow_le_horner 58 d D'
  · rw [hN]
    exact horner_lt hD' d

/-- What `DecodeBase58Check` returns is the decoded string without its four check bytes. -/
theorem DecodeBase58Check_eq_some {Hash : List UInt8 → Vector UInt8 32} {str : List Char}
    {data : List UInt8} (h : DecodeBase58Check Hash str = .ok (some data)) :
    ∃ v, DecodeBase58 str = .ok (some v) ∧ 4 ≤ v.length ∧ data = v.take (v.length - 4) := by
  unfold DecodeBase58Check at h
  cases hdec : DecodeBase58 str with
  | error e =>
    rw [hdec] at h
    cases h
  | ok r =>
    rw [hdec] at h
    rcases r with _ | v
    · cases h
    refine ⟨v, rfl, ?_⟩
    simp only [bind, Except.bind, pure, Except.pure] at h
    by_cases hlen : v.length < 4
    · rw [if_pos hlen] at h
      cases h
    rw [if_neg hlen] at h
    split_ifs at h
    · cases h
    · exact ⟨by omega, (Option.some.inj (Except.ok.inj h)).symm⟩

/-- `DecodeBase58Check` fails only where `DecodeBase58` does. -/
theorem DecodeBase58Check_ne_error (Hash : List UInt8 → Vector UInt8 32) {str : List Char}
    (hs : str.length * 733 / 1000 + 1 < 2 ^ 31) (e : String) : DecodeBase58Check Hash str ≠ .error e := by
  unfold DecodeBase58Check
  have hne := DecodeBase58_ne_error hs e
  revert hne
  cases DecodeBase58 str with
  | error e' => exact fun hne h => hne (by rw [Except.error.inj h])
  | ok r =>
    intro _
    rcases r with _ | v
    · exact fun h => by cases h
    · simp only [bind, Except.bind, pure, Except.pure]
      split_ifs <;> exact fun h => by cases h

/-- Base58Check writes a nonempty string: the empty one decodes to no check bytes. -/
theorem EncodeBase58Check_ne_nil (Hash : List UInt8 → Vector UInt8 32) {b : List UInt8}
    (hb : (b.length + 4) * 138 / 100 + 1 < 2 ^ 31) : EncodeBase58Check Hash b ≠ .ok [] := by
  obtain ⟨s, hs, hdec⟩ := DecodeBase58Check_EncodeBase58Check Hash hb
  intro h
  rw [h] at hs
  obtain rfl := Except.ok.inj hs
  have h0 : DecodeBase58Check Hash [] = .ok none := rfl
  rw [h0] at hdec
  cases hdec

/-- At `3112295142` bytes the encoder's buffer size is `2 ^ 32`, which as an `int` is zero: the
first byte does not fit, and the assertion fails. -/
theorem EncodeBase58_assert_fails :
    EncodeBase58 (List.replicate 3112295142 1) = .error "assert(carry == 0)" := by
  have hrest : (List.replicate 3112295142 (1 : UInt8)).dropWhile (· = 0) =
      List.replicate 3112295142 1 := by
    rw [List.dropWhile_replicate, if_neg (by decide)]
  have hsize : toInt32 ((3112295142 * 138 / 100 + 1 : ℕ) : ℤ) = 0 := by decide
  unfold EncodeBase58
  dsimp only
  rw [hrest, List.length_replicate, hsize, if_neg (by decide), Int.toNat_zero, List.map_replicate,
    show 3112295142 = 3112295141 + 1 from rfl, List.replicate_succ,
    foldlM_carryIn_error (by norm_num) (holds_replicate (by norm_num) 0)
      (by rw [pow_zero, horner_cons]; exact le_horner (by norm_num) _ _)]

/-- For every byte string whose encoder buffer size is an `int`, `EncodeBase58` succeeds with a
`1` for each leading zero byte and `DecodeBase58` reads the bytes back; the same holds for
Base58Check with the four check bytes; and on every string whose decoder buffer size is an `int`
the decoder's assertion holds. -/
theorem base58_roundtrip_int_sized :
    (∀ b : List UInt8, b.length * 138 / 100 + 1 < 2 ^ 31 →
      ∃ s, EncodeBase58 b = .ok s ∧
        s.takeWhile (· = '1') = List.replicate (b.takeWhile (· = 0)).length '1' ∧
        DecodeBase58 s = .ok (some b)) ∧
    (∀ (Hash : List UInt8 → Vector UInt8 32) (b : List UInt8),
      (b.length + 4) * 138 / 100 + 1 < 2 ^ 31 →
      ∃ s, EncodeBase58Check Hash b = .ok s ∧ DecodeBase58Check Hash s = .ok (some b)) ∧
    (∀ (str : List Char) (e : String), str.length * 733 / 1000 + 1 < 2 ^ 31 →
      DecodeBase58 str ≠ .error e) :=
  ⟨fun _ hb => DecodeBase58_EncodeBase58 hb,
    fun Hash _ hb => DecodeBase58Check_EncodeBase58Check Hash hb,
    fun _ e hs => DecodeBase58_ne_error hs e⟩

/-- Two bytes, the first a zero byte written as a leading `1`. -/
theorem base58_roundtrip_int_sized_zero_led :
    ∃ s, EncodeBase58 [0, 57] = .ok s ∧ s.takeWhile (· = '1') = ['1'] ∧
      DecodeBase58 s = .ok (some [0, 57]) :=
  base58_roundtrip_int_sized.1 [0, 57] (by norm_num)


end Base58

end HydraNode
