import HydraNode.Lib.Radix

/-!
# Regrouping bits: `ConvertBits`, Base64 and Base32

`ConvertBits<frombits, tobits, pad>` (`util/strencodings.h`) reads a sequence of `frombits`-bit
values as one stream of bits, first value first and most significant bit first, and writes it out
in groups of `tobits` bits. An accumulator holds the bits not yet written; with `pad` the last
group is filled with zero bits, without it the conversion fails when the bits left over are a
whole input value or not all zero. `EncodeBase64` and `EncodeBase32` regroup bytes into 6- and
5-bit values, write each as a character of their alphabet and pad with `=` to a multiple of four,
resp. eight characters; `DecodeBase64` and `DecodeBase32` undo it and report whether the string
was valid.

With the value of a list of groups (`Radix.groupsValue`), one pass of the loop keeps an identity
(`convertStep_inv`): the groups written so far, followed by the bits held back, are the input read
so far. The rest follows from it:

* regrouping back without padding returns the input, followed by `⌊pad / frombits⌋` zero values
  when the padding was that long (`ConvertBits_roundtrip`). So from bytes to 5 or 6 bits and back
  the input comes back, but from 5 or 6 bits to bytes and back a zero value is added when the
  padding reaches a whole input value (`bit_regrouping_counterexamples`);
* regrouping without padding succeeds exactly on the results of regrouping with padding
  (`ConvertBits_nopad_ok_iff`);
* `DecodeBase64 (EncodeBase64 b) = (b, true)` and `DecodeBase32 (EncodeBase32 b) = (b, true)`,
  and a valid Base64 string is the encoding of what it decodes to. The Base32 table reads capital
  letters as their small ones, so a valid Base32 string is the encoding of its result only once
  its capitals are made small; and the string overloads stop at the first `NUL`.

Strings are lists of characters, byte strings lists of `UInt8`; a character beyond one byte has
no entry in the decoding tables and is read as an invalid one. The values passed between the
loops are natural numbers, the accumulator a natural number masked as in the source.

## Main definitions

* `ConvertBits`, `EncodeBase64`, `DecodeBase64`, `EncodeBase32`, `DecodeBase32`

## Main results

* `ConvertBits_pad_spec`, `ConvertBits_nopad_spec` — the two conversions on values
* `ConvertBits_roundtrip`, `ConvertBits_nopad_ok_iff`
* `bit_regrouping_invertible_canonical`
-/

namespace HydraNode

open Radix

/-! ## `ConvertBits` -/

/-- The inner loop `while (bits >= tobits) { bits -= tobits; outfn((acc >> bits) & maxv); }`,
with the values written and the bits left. It runs at most `bits` times; the fuel is `bits`. -/
def convertDrain (tobits acc : ℕ) : ℕ → ℕ → List ℕ × ℕ
  | 0, bits => ([], bits)
  | fuel + 1, bits =>
    if bits ≥ tobits then
      let (outs, bits') := convertDrain tobits acc fuel (bits - tobits)
      (((acc >>> (bits - tobits)) &&& ((1 <<< tobits) - 1)) :: outs, bits')
    else ([], bits)

/-- One pass of the outer loop over an input value `v`: the accumulator `acc`, the count `bits`
of bits it holds back, and the values written so far. -/
def convertStep (frombits tobits : ℕ) (s : ℕ × ℕ × List ℕ) (v : ℕ) : ℕ × ℕ × List ℕ :=
  let (acc, bits, out) := s
  let acc := ((acc <<< frombits) ||| v) &&& ((1 <<< (frombits + tobits - 1)) - 1)
  let bits := bits + frombits
  let (outs, bits) := convertDrain tobits acc bits bits
  (acc, bits, out ++ outs)

/-- `ConvertBits<frombits, tobits, pad>`: the values written, and whether it succeeded. -/
def ConvertBits (frombits tobits : ℕ) (pad : Bool) (xs : List ℕ) : List ℕ × Bool :=
  let maxv := (1 <<< tobits) - 1
  let (acc, bits, out) := xs.foldl (convertStep frombits tobits) (0, 0, [])
  if pad then
    ((if bits ≠ 0 then out ++ [(acc <<< (tobits - bits)) &&& maxv] else out), true)
  else if bits ≥ frombits ∨ (acc <<< (tobits - bits)) &&& maxv ≠ 0 then (out, false)
  else (out, true)

/-! ## Base64 and Base32 -/

/-- `pbase64`. -/
def pbase64 : List Char := "ABCDEFGHIJKLMNOPQRSTUVWXYZabcdefghijklmnopqrstuvwxyz0123456789+/".toList

/-- `pbase32`. -/
def pbase32 : List Char := "abcdefghijklmnopqrstuvwxyz234567".toList

/-- `decode64_table`. -/
def decode64_table : List ℤ := [
    -1, -1, -1, -1, -1, -1, -1, -1, -1, -1, -1, -1, -1, -1, -1, -1, -1, -1, -1, -1,
    -1, -1, -1, -1, -1, -1, -1, -1, -1, -1, -1, -1, -1, -1, -1, -1, -1, -1, -1, -1,
    -1, -1, -1, 62, -1, -1, -1, 63, 52, 53, 54, 55, 56, 57, 58, 59, 60, 61, -1, -1,
    -1, -1, -1, -1, -1, 0, 1, 2, 3, 4, 5, 6, 7, 8, 9, 10, 11, 12, 13, 14,
    15, 16, 17, 18, 19, 20, 21, 22, 23, 24, 25, -1, -1, -1, -1, -1, -1, 26, 27, 28,
    29, 30, 31, 32, 33, 34, 35, 36, 37, 38, 39, 40, 41, 42, 43, 44, 45, 46, 47, 48,
    49, 50, 51, -1, -1, -1, -1, -1, -1, -1, -1, -1, -1, -1, -1, -1, -1, -1, -1, -1,
    -1, -1, -1, -1, -1, -1, -1, -1, -1, -1, -1, -1, -1, -1, -1, -1, -1, -1, -1, -1,
    -1, -1, -1, -1, -1, -1, -1, -1, -1, -1, -1, -1, -1, -1, -1, -1, -1, -1, -1, -1,
    -1, -1, -1, -1, -1, -1, -1, -1, -1, -1, -1, -1, -1, -1, -1, -1, -1, -1, -1, -1,
    -1, -1, -1, -1, -1, -1, -1, -1, -1, -1, -1, -1, -1, -1, -1, -1, -1, -1, -1, -1,
    -1, -1, -1, -1, -1, -1, -1, -1, -1, -1, -1, -1, -1, -1, -1, -1, -1, -1, -1, -1,
    -1, -1, -1, -1, -1, -1, -1, -1, -1, -1, -1, -1, -1, -1, -1, -1
  ]

/-- `decode32_table`. -/
def decode32_table : List ℤ := [
    -1, -1, -1, -1, -1, -1, -1, -1, -1, -1, -1, -1, -1, -1, -1, -1, -1, -1, -1, -1,
    -1, -1, -1, -1, -1, -1, -1, -1, -1, -1, -1, -1, -1, -1, -1, -1, -1, -1, -1, -1,
    -1, -1, -1, -1, -1, -1, -1, -1, -1, -1, 26, 27, 28, 29, 30, 31, -1, -1, -1, -1,
    -1, -1, -1, -1, -1, 0, 1, 2, 3, 4, 5, 6, 7, 8, 9, 10, 11, 12, 13, 14,
    15, 16, 17, 18, 19, 20, 21, 22, 23, 24, 25, -1, -1, -1, -1, -1, -1, 0, 1, 2,
    3, 4, 5, 6, 7, 8, 9, 10, 11, 12, 13, 14, 15, 16, 17, 18, 19, 20, 21, 22,
    23, 24, 25, -1, -1, -1, -1, -1, -1, -1, -1, -1, -1, -1, -1, -1, -1, -1, -1, -1,
    -1, -1, -1, -1, -1, -1, -1, -1, -1, -1, -1, -1, -1, -1, -1, -1, -1, -1, -1, -1,
    -1, -1, -1, -1, -1, -1, -1, -1, -1, -1, -1, -1, -1, -1, -1, -1, -1, -1, -1, -1,
    -1, -1, -1, -1, -1, -1, -1, -1, -1, -1, -1, -1, -1, -1, -1, -1, -1, -1, -1, -1,
    -1, -1, -1, -1, -1, -1, -1, -1, -1, -1, -1, -1, -1, -1, -1, -1, -1, -1, -1, -1,
    -1, -1, -1, -1, -1, -1, -1, -1, -1, -1, -1, -1, -1, -1, -1, -1, -1, -1, -1, -1,
    -1, -1, -1, -1, -1, -1, -1, -1, -1, -1, -1, -1, -1, -1, -1, -1
  ]

/-- `table[(unsigned char)c]`; a character beyond one byte has no entry. -/
def tableValue (table : List ℤ) (c : Char) : ℤ := table.getD c.toNat (-1)

/-- The encoders: regroup the bytes into `width`-bit values, write each as its character and pad
with `=` to a multiple of `block` characters (`while (str.size() % block) str += '='`). -/
def encodeWith (alphabet : List Char) (width block : ℕ) (b : List UInt8) : List Char :=
  let str := (ConvertBits 8 width true (b.map UInt8.toNat)).1.map fun v => alphabet.getD v 'A'
  str ++ List.replicate ((block - str.length % block) % block) '='

/-- `EncodeBase64`. -/
def EncodeBase64 (b : List UInt8) : List Char := encodeWith pbase64 6 4 b

/-- `EncodeBase32`. -/
def EncodeBase32 (b : List UInt8) : List Char := encodeWith pbase32 5 8 b

/-- The decoders, for the string overloads: `str.c_str()` ends at the first `NUL`; the values are
read while the table knows the character, regrouped into bytes, and the rest must be at most
`block - 1` characters `=` making the length a multiple of `block`. The result comes with
`!*pf_invalid`. -/
def decodeWith (table : List ℤ) (width block : ℕ) (str : List Char) : List UInt8 × Bool :=
  let p := str.takeWhile (· ≠ '\x00')
  let val := (p.takeWhile fun c => tableValue table c ≠ -1).map fun c => (tableValue table c).toNat
  let (ret, valid) := ConvertBits width 8 false val
  let rest := p.drop val.length
  let valid := valid && rest.all (· == '=') && p.length % block == 0 && rest.length < block
  (ret.map Nat.toUInt8, valid)

/-- `DecodeBase64(str, pf_invalid)`. -/
def DecodeBase64 (str : List Char) : List UInt8 × Bool := decodeWith decode64_table 6 4 str

/-- `DecodeBase32(str, pf_invalid)`. -/
def DecodeBase32 (str : List Char) : List UInt8 × Bool := decodeWith decode32_table 5 8 str

/-! ## The conversion on values -/

section Convert

variable {frombits tobits : ℕ}

theorem mask_eq_mod (x t : ℕ) : x &&& ((1 <<< t) - 1) = x % 2 ^ t := by
  rw [Nat.one_shiftLeft, Nat.and_two_pow_sub_one_eq_mod]

/-- The inner loop writes the `tobits`-bit groups of the low `bits` bits of `acc`, from the top,
and keeps the bits below a whole group. -/
theorem convertDrain_spec (ht : 0 < tobits) (acc : ℕ) :
    ∀ fuel bits, bits ≤ fuel →
      (convertDrain tobits acc fuel bits).2 < tobits ∧
      (convertDrain tobits acc fuel bits).1.length * tobits + (convertDrain tobits acc fuel bits).2
        = bits ∧
      (∀ o ∈ (convertDrain tobits acc fuel bits).1, o < 2 ^ tobits) ∧
      groupsValue tobits (convertDrain tobits acc fuel bits).1 * 2 ^ (convertDrain tobits acc fuel bits).2
        + acc % 2 ^ (convertDrain tobits acc fuel bits).2 = acc % 2 ^ bits := by
  intro fuel
  induction fuel with
  | zero =>
    intro bits hb
    obtain rfl : bits = 0 := by omega
    simp [convertDrain, ht]
  | succ fuel ih =>
    intro bits hb
    by_cases hge : bits ≥ tobits
    · obtain ⟨h1, h2, h3, h4⟩ := ih (bits - tobits) (by omega)
      simp only [convertDrain, if_pos hge, mask_eq_mod, Nat.shiftRight_eq_div_pow]
      refine ⟨h1, by rw [List.length_cons, Nat.add_mul, Nat.one_mul]; omega, ?_, ?_⟩
      · intro o ho
        rcases List.mem_cons.mp ho with rfl | ho
        · exact Nat.mod_lt _ (Nat.two_pow_pos _)
        · exact h3 o ho
      · -- the group at `bits - tobits`, above what the rest of the loop writes
        set outs := (convertDrain tobits acc fuel (bits - tobits)).1
        set b := (convertDrain tobits acc fuel (bits - tobits)).2
        have hexp : tobits * outs.length + b = bits - tobits := by rw [Nat.mul_comm]; exact h2
        calc groupsValue tobits (acc / 2 ^ (bits - tobits) % 2 ^ tobits :: outs) * 2 ^ b
              + acc % 2 ^ b
            = acc / 2 ^ (bits - tobits) % 2 ^ tobits * 2 ^ (tobits * outs.length + b)
              + (groupsValue tobits outs * 2 ^ b + acc % 2 ^ b) := by
              rw [groupsValue_cons, pow_add]; ring
          _ = acc / 2 ^ (bits - tobits) % 2 ^ tobits * 2 ^ (bits - tobits)
              + acc % 2 ^ (bits - tobits) := by rw [hexp, h4]
          _ = acc % 2 ^ bits := by
              rw [← mod_two_pow_add, Nat.sub_add_cancel hge]
    · simp only [convertDrain, if_neg hge]
      simp
      omega

/-- What the outer loop keeps, having read `xs`: the groups `out` it wrote, then the `bits`
bits it holds back at the bottom of `acc`, are the bits of `xs`. -/
structure ConvertInv (frombits tobits : ℕ) (xs : List ℕ) (acc bits : ℕ) (out : List ℕ) : Prop where
  bits_lt : bits < tobits
  out_lt : ∀ o ∈ out, o < 2 ^ tobits
  length_eq : out.length * tobits + bits = frombits * xs.length
  value_eq : groupsValue tobits out * 2 ^ bits + acc % 2 ^ bits = groupsValue frombits xs

theorem convertInv_nil (ht : 0 < tobits) : ConvertInv frombits tobits [] 0 0 [] :=
  ⟨ht, by simp, by simp, by simp⟩

/-- One pass of the outer loop keeps the invariant: the accumulator takes the value's bits
below the ones held back, and the mask keeps all of these. -/
theorem convertStep_inv (ht : 0 < tobits) {xs : List ℕ} {acc bits : ℕ} {out : List ℕ} {v : ℕ}
    (hv : v < 2 ^ frombits) (h : ConvertInv frombits tobits xs acc bits out) :
    ConvertInv frombits tobits (xs ++ [v]) (convertStep frombits tobits (acc, bits, out) v).1
      (convertStep frombits tobits (acc, bits, out) v).2.1
      (convertStep frombits tobits (acc, bits, out) v).2.2 := by
  set acc' := ((acc <<< frombits) ||| v) &&& ((1 <<< (frombits + tobits - 1)) - 1) with hacc'
  have hacc : acc' = (acc * 2 ^ frombits + v) % 2 ^ (frombits + tobits - 1) := by
    rw [hacc', mask_eq_mod, ← Nat.shiftLeft_add_eq_or_of_lt hv, Nat.shiftLeft_eq]
  have hlow : acc' % 2 ^ (bits + frombits) = acc % 2 ^ bits * 2 ^ frombits + v := by
    rw [hacc, mod_mod_two_pow_of_le (by have := h.bits_lt; omega), mul_two_pow_add_mod hv]
  obtain ⟨h1, h2, h3, h4⟩ := convertDrain_spec ht acc' (bits + frombits) (bits + frombits) le_rfl
  simp only [convertStep]
  rw [← hacc']
  set outs := (convertDrain tobits acc' (bits + frombits) (bits + frombits)).1
  set b := (convertDrain tobits acc' (bits + frombits) (bits + frombits)).2
  refine ⟨h1, ?_, ?_, ?_⟩
  · intro o ho
    rcases List.mem_append.mp ho with ho | ho
    · exact h.out_lt o ho
    · exact h3 o ho
  · have := h.length_eq
    rw [List.length_append, Nat.add_mul, List.length_append, List.length_singleton, Nat.mul_add,
      Nat.mul_one]
    omega
  · have hexp : tobits * outs.length + b = bits + frombits := by rw [Nat.mul_comm]; exact h2
    calc groupsValue tobits (out ++ outs) * 2 ^ b + acc' % 2 ^ b
        = groupsValue tobits out * 2 ^ (tobits * outs.length + b)
          + (groupsValue tobits outs * 2 ^ b + acc' % 2 ^ b) := by
          rw [groupsValue_append, pow_add]; ring
      _ = groupsValue tobits out * 2 ^ (bits + frombits) + acc % 2 ^ bits * 2 ^ frombits + v := by
          rw [hexp, h4, hlow]; ring
      _ = (groupsValue tobits out * 2 ^ bits + acc % 2 ^ bits) * 2 ^ frombits + v := by
          rw [pow_add]; ring
      _ = groupsValue frombits (xs ++ [v]) := by rw [h.value_eq, groupsValue_concat]

/-- The outer loop keeps the invariant over the whole input. -/
theorem convertRun_inv (ht : 0 < tobits) :
    ∀ (xs : List ℕ), (∀ x ∈ xs, x < 2 ^ frombits) →
      ∀ (ys : List ℕ) (acc bits : ℕ) (out : List ℕ), ConvertInv frombits tobits ys acc bits out →
        ConvertInv frombits tobits (ys ++ xs) (xs.foldl (convertStep frombits tobits) (acc, bits, out)).1
          (xs.foldl (convertStep frombits tobits) (acc, bits, out)).2.1
          (xs.foldl (convertStep frombits tobits) (acc, bits, out)).2.2
  | [], _ => by
    intro ys acc bits out h
    simpa using h
  | x :: xs, hx => by
    intro ys acc bits out h
    have hstep := convertStep_inv ht (hx x List.mem_cons_self) h
    have := convertRun_inv ht xs (fun y hy => hx y (List.mem_cons_of_mem x hy)) (ys ++ [x]) _ _ _ hstep
    simpa using this

end Convert

/-- The zero bits the padding adds after `n` values of `frombits` bits. -/
def padBits (frombits tobits n : ℕ) : ℕ := (tobits - frombits * n % tobits) % tobits

theorem padBits_lt (frombits n : ℕ) {tobits : ℕ} (ht : 0 < tobits) :
    padBits frombits tobits n < tobits :=
  Nat.mod_lt _ ht

/-- The last group, `(acc << (tobits - bits)) & maxv`: the held-back bits at its top. -/
theorem shiftLeft_mask_eq {acc bits t : ℕ} (h : bits ≤ t) :
    (acc <<< (t - bits)) &&& ((1 <<< t) - 1) = acc % 2 ^ bits * 2 ^ (t - bits) := by
  have := mul_two_pow_add_mod (a := acc) (b := bits) (Nat.two_pow_pos (t - bits))
  simp only [Nat.add_zero, Nat.add_sub_cancel' h] at this
  rw [mask_eq_mod, Nat.shiftLeft_eq, this]

section Spec

variable {frombits tobits : ℕ}

/-- The outer loop from the start: the bits held back are the input's bits beyond whole groups. -/
theorem convertRun_spec (ht : 0 < tobits) {xs : List ℕ} (hx : ∀ x ∈ xs, x < 2 ^ frombits) :
    ConvertInv frombits tobits xs (xs.foldl (convertStep frombits tobits) (0, 0, [])).1
      (xs.foldl (convertStep frombits tobits) (0, 0, [])).2.1
      (xs.foldl (convertStep frombits tobits) (0, 0, [])).2.2 ∧
    (xs.foldl (convertStep frombits tobits) (0, 0, [])).2.1 = frombits * xs.length % tobits := by
  have h := convertRun_inv ht xs hx [] 0 0 [] (convertInv_nil ht)
  rw [List.nil_append] at h
  refine ⟨h, ?_⟩
  rw [← h.length_eq, Nat.add_comm, Nat.add_mul_mod_self_right, Nat.mod_eq_of_lt h.bits_lt]

/-- With padding: the groups are the input's bits followed by `padBits` zero bits. -/
theorem ConvertBits_pad_spec (ht : 0 < tobits) {xs : List ℕ} (hx : ∀ x ∈ xs, x < 2 ^ frombits) :
    (ConvertBits frombits tobits true xs).2 = true ∧
    (∀ o ∈ (ConvertBits frombits tobits true xs).1, o < 2 ^ tobits) ∧
    (ConvertBits frombits tobits true xs).1.length * tobits =
      frombits * xs.length + padBits frombits tobits xs.length ∧
    groupsValue tobits (ConvertBits frombits tobits true xs).1 =
      groupsValue frombits xs * 2 ^ padBits frombits tobits xs.length := by
  obtain ⟨h, hbits⟩ := convertRun_spec ht hx
  rcases hs : xs.foldl (convertStep frombits tobits) (0, 0, []) with ⟨acc, bits, out⟩
  rw [hs] at h hbits
  simp only at h hbits
  simp only [ConvertBits, hs, if_true]
  refine ⟨by simp, ?_⟩
  by_cases hb0 : bits = 0
  · -- no bits held back: nothing to pad
    have hpad : padBits frombits tobits xs.length = 0 := by
      simp [padBits, ← hbits, hb0]
    subst hb0
    have hv := h.value_eq
    simp only [pow_zero, Nat.mul_one, Nat.mod_one, Nat.add_zero] at hv
    refine ⟨h.out_lt, ?_, ?_⟩ <;> simp only [ne_eq, not_true_eq_false, if_false, hpad]
    · have := h.length_eq
      omega
    · simpa using hv
  · -- one more group, the held-back bits at its top
    have hpad : padBits frombits tobits xs.length = tobits - bits := by
      rw [padBits, ← hbits, Nat.mod_eq_of_lt (by omega)]
    have hle : bits ≤ tobits := h.bits_lt.le
    have h2 : 2 ^ tobits = 2 ^ bits * 2 ^ (tobits - bits) := by
      rw [← pow_add, Nat.add_sub_cancel' hle]
    simp only [ne_eq, hb0, not_false_eq_true, if_true, shiftLeft_mask_eq hle, hpad]
    refine ⟨?_, ?_, ?_⟩
    · intro o ho
      rcases List.mem_append.mp ho with ho | ho
      · exact h.out_lt o ho
      · rw [List.mem_singleton.mp ho, h2]
        exact Nat.mul_lt_mul_of_pos_right (Nat.mod_lt _ (Nat.two_pow_pos _)) (Nat.two_pow_pos _)
    · have := h.length_eq
      rw [List.length_append, List.length_singleton, Nat.add_mul, Nat.one_mul]
      omega
    · calc groupsValue tobits (out ++ [acc % 2 ^ bits * 2 ^ (tobits - bits)])
          = (groupsValue tobits out * 2 ^ bits + acc % 2 ^ bits) * 2 ^ (tobits - bits) := by
            rw [groupsValue_concat, h2]
            ring
        _ = groupsValue frombits xs * 2 ^ (tobits - bits) := by rw [h.value_eq]

/-- Without padding: the groups are the input's bits beyond the last whole group, and the
conversion succeeds iff those are fewer than an input value and all zero. -/
theorem ConvertBits_nopad_spec (ht : 0 < tobits) {xs : List ℕ} (hx : ∀ x ∈ xs, x < 2 ^ frombits) :
    (∀ o ∈ (ConvertBits frombits tobits false xs).1, o < 2 ^ tobits) ∧
    (ConvertBits frombits tobits false xs).1.length * tobits + frombits * xs.length % tobits =
      frombits * xs.length ∧
    groupsValue tobits (ConvertBits frombits tobits false xs).1 =
      groupsValue frombits xs / 2 ^ (frombits * xs.length % tobits) ∧
    ((ConvertBits frombits tobits false xs).2 = true ↔
      frombits * xs.length % tobits < frombits ∧
        groupsValue frombits xs % 2 ^ (frombits * xs.length % tobits) = 0) := by
  obtain ⟨h, hbits⟩ := convertRun_spec ht hx
  rcases hs : xs.foldl (convertStep frombits tobits) (0, 0, []) with ⟨acc, bits, out⟩
  rw [hs] at h hbits
  simp only at h hbits
  rw [← hbits]
  obtain ⟨hdiv, hmod⟩ := div_mod_of_mul_add (Nat.mod_lt acc (Nat.two_pow_pos bits)) h.value_eq
  have hmask := @shiftLeft_mask_eq acc bits tobits h.bits_lt.le
  have hout : (ConvertBits frombits tobits false xs).1 = out := by
    simp only [ConvertBits, hs, Bool.false_eq_true, if_false]
    split <;> rfl
  have hok : (ConvertBits frombits tobits false xs).2 = true ↔ bits < frombits ∧ acc % 2 ^ bits = 0 := by
    simp only [ConvertBits, hs, Bool.false_eq_true, if_false, hmask]
    split
    · rename_i hc
      simp only [Bool.false_eq_true, false_iff, not_and]
      intro hlt h0
      rcases hc with hc | hc
      · omega
      · simp [h0] at hc
    · rename_i hc
      simp only [not_or, not_le, ne_eq, Decidable.not_not] at hc
      simp only [true_iff]
      refine ⟨hc.1, ?_⟩
      rcases Nat.mul_eq_zero.mp hc.2 with h0 | h0
      · exact h0
      · exact absurd h0 (Nat.two_pow_pos _).ne'
  rw [hout, hok, hdiv, hmod]
  exact ⟨h.out_lt, h.length_eq, rfl, Iff.rfl⟩

end Spec

/-! ## Converting back -/

section Roundtrip

variable {frombits tobits : ℕ}

/-- Regrouping back without padding returns the input, followed by a zero value for each whole
`frombits` bits of padding. -/
theorem ConvertBits_roundtrip (hf : 0 < frombits) (ht : 0 < tobits) {xs : List ℕ}
    (hx : ∀ x ∈ xs, x < 2 ^ frombits) :
    ConvertBits tobits frombits false (ConvertBits frombits tobits true xs).1 =
      (xs ++ List.replicate (padBits frombits tobits xs.length / frombits) 0, true) := by
  obtain ⟨-, hy_lt, hy_len, hy_val⟩ := ConvertBits_pad_spec ht hx
  obtain ⟨hz_lt, hz_len, hz_val, hz_ok⟩ := ConvertBits_nopad_spec hf hy_lt
  set pad := padBits frombits tobits xs.length
  set y := (ConvertBits frombits tobits true xs).1
  set zs := xs ++ List.replicate (pad / frombits) 0
  -- the bits of `y` are whole groups of `frombits`, `zs.length` of them, and `pad % frombits`
  have hsplit : tobits * y.length = frombits * zs.length + pad % frombits := by
    have := Nat.div_add_mod pad frombits
    rw [Nat.mul_comm, hy_len, List.length_append, List.length_replicate, Nat.mul_add]
    omega
  have hm : tobits * y.length % frombits = pad % frombits := by
    rw [hsplit, Nat.mul_comm frombits, Nat.mul_add_mod_of_lt (Nat.mod_lt _ hf)]
  have hvalue : groupsValue tobits y = groupsValue frombits zs * 2 ^ (pad % frombits) := by
    rw [hy_val, groupsValue_append, groupsValue_replicate_zero, Nat.add_zero, List.length_replicate,
      Nat.mul_assoc, ← pow_add, Nat.div_add_mod]
  have hzs_lt : ∀ x ∈ zs, x < 2 ^ frombits := by
    intro x hm'
    rcases List.mem_append.mp hm' with hm' | hm'
    · exact hx x hm'
    · rw [List.eq_of_mem_replicate hm']
      exact Nat.two_pow_pos _
  refine Prod.ext ?_ ?_
  · apply groupsValue_inj hf _ hz_lt hzs_lt
    · rw [hz_val, hm, hvalue, Nat.mul_div_cancel _ (Nat.two_pow_pos _)]
    · rw [hm, hsplit] at hz_len
      have := Nat.eq_of_mul_eq_mul_left hf (by rw [Nat.mul_comm]; omega :
        frombits * (ConvertBits tobits frombits false y).1.length = frombits * zs.length)
      exact this
  · refine hz_ok.mpr ⟨?_, ?_⟩
    · rw [hm]
      exact lt_of_le_of_lt (Nat.mod_le _ _) (padBits_lt _ _ ht)
    · rw [hm, hvalue, Nat.mul_mod_left]

/-- Into groups no wider than the values, the padding is less than a value: the input comes back. -/
theorem ConvertBits_roundtrip_of_le (hf : 0 < frombits) (ht : 0 < tobits) (htf : tobits ≤ frombits)
    {xs : List ℕ} (hx : ∀ x ∈ xs, x < 2 ^ frombits) :
    ConvertBits tobits frombits false (ConvertBits frombits tobits true xs).1 = (xs, true) := by
  rw [ConvertBits_roundtrip hf ht hx,
    Nat.div_eq_of_lt (lt_of_lt_of_le (padBits_lt frombits xs.length ht) htf), List.replicate_zero,
    List.append_nil]

/-- A regrouping without padding that succeeds is undone by regrouping with padding. -/
theorem ConvertBits_pad_of_nopad (hf : 0 < frombits) (ht : 0 < tobits) {ys : List ℕ}
    (hy : ∀ y ∈ ys, y < 2 ^ tobits) (hok : (ConvertBits tobits frombits false ys).2 = true) :
    (ConvertBits frombits tobits true (ConvertBits tobits frombits false ys).1).1 = ys := by
  obtain ⟨hz_lt, hz_len, hz_val, hz_ok⟩ := ConvertBits_nopad_spec hf hy
  obtain ⟨hm_lt, hm0⟩ := hz_ok.mp hok
  set z := (ConvertBits tobits frombits false ys).1
  obtain ⟨-, hy'_lt, hy'_len, hy'_val⟩ := ConvertBits_pad_spec ht hz_lt
  -- both lists hold the bits of `z` and fewer than `tobits` zero bits
  have hys : ys.length * tobits = frombits * z.length + tobits * ys.length % frombits := by
    rw [Nat.mul_comm frombits, hz_len, Nat.mul_comm]
  obtain ⟨hl, hpad⟩ := eq_of_mul_add_eq hm_lt (padBits_lt frombits z.length ht)
    (by omega : (ConvertBits frombits tobits true z).1.length * tobits
        + tobits * ys.length % frombits = ys.length * tobits + padBits frombits tobits z.length)
  apply groupsValue_inj ht hl hy'_lt hy
  rw [hy'_val, ← hpad, hz_val]
  exact Nat.div_mul_cancel (Nat.dvd_of_mod_eq_zero hm0)

/-- Without padding, regrouping succeeds exactly on the results of regrouping with padding. -/
theorem ConvertBits_nopad_ok_iff (hf : 0 < frombits) (ht : 0 < tobits) {ys : List ℕ}
    (hy : ∀ y ∈ ys, y < 2 ^ tobits) :
    (ConvertBits tobits frombits false ys).2 = true ↔
      ∃ xs, (∀ x ∈ xs, x < 2 ^ frombits) ∧ (ConvertBits frombits tobits true xs).1 = ys := by
  constructor
  · intro hok
    exact ⟨_, (ConvertBits_nopad_spec hf hy).1, ConvertBits_pad_of_nopad hf ht hy hok⟩
  · rintro ⟨xs, hx, rfl⟩
    rw [ConvertBits_roundtrip hf ht hx]

end Roundtrip

/-! ## The codecs -/

/-- The padding `=` signs: the count making the length a multiple of `block`. -/
theorem add_padCount_mod (a : ℕ) {block : ℕ} (hb : 0 < block) :
    (a + (block - a % block) % block) % block = 0 := by
  have hr := Nat.mod_lt a hb
  by_cases h0 : a % block = 0
  · simp [h0]
  · rw [Nat.mod_eq_of_lt (by omega : block - a % block < block), Nat.add_mod,
      Nat.mod_eq_of_lt (by omega : block - a % block < block),
      show a % block + (block - a % block) = block by omega, Nat.mod_self]

/-- Fewer than `block` signs making the length a multiple of `block` are the encoder's count. -/
theorem padCount_unique {a r block : ℕ} (hr : r < block) (h : (a + r) % block = 0) :
    r = (block - a % block) % block := by
  have hb : 0 < block := by omega
  have hq := Nat.mod_lt a hb
  rw [Nat.add_mod, Nat.mod_eq_of_lt hr] at h
  obtain ⟨k, hk⟩ := Nat.dvd_of_mod_eq_zero h
  have hk2 : k < 2 := by
    by_contra hk2
    have : block * 2 ≤ block * k := Nat.mul_le_mul_left block (by omega)
    omega
  interval_cases k
  · simp at hk
    obtain ⟨h1, rfl⟩ : a % block = 0 ∧ r = 0 := by omega
    simp [h1]
  · rw [Nat.mod_eq_of_lt (by omega : block - a % block < block)]
    omega

/-- What a codec needs of its alphabet and its table: the table reads each character of the
alphabet as its index, knows neither `=` nor `NUL`, and reads every character it knows as a
`width`-bit value. -/
structure IsCodec (alphabet : List Char) (table : List ℤ) (width : ℕ) : Prop where
  decode_encode : ∀ v < 2 ^ width, tableValue table (alphabet.getD v 'A') = v
  pad_invalid : tableValue table '=' = -1
  nul_invalid : tableValue table '\x00' = -1
  value_mem : ∀ c, tableValue table c ≠ -1 → 0 ≤ tableValue table c ∧ tableValue table c < 2 ^ width

/-- A character as the decoder reads it back: the alphabet's character at its value, if the table
knows it. -/
def normChar (alphabet : List Char) (table : List ℤ) (c : Char) : Char :=
  if tableValue table c = -1 then c else alphabet.getD (tableValue table c).toNat 'A'

section Codec

variable {alphabet : List Char} {table : List ℤ} {width block : ℕ}

theorem IsCodec.toNat_lt (hC : IsCodec alphabet table width) {c : Char}
    (hc : tableValue table c ≠ -1) : (tableValue table c).toNat < 2 ^ width := by
  obtain ⟨h0, hlt⟩ := hC.value_mem c hc
  rw [Int.toNat_lt h0]
  exact_mod_cast hlt

theorem IsCodec.encode_valid (hC : IsCodec alphabet table width) {v : ℕ} (hv : v < 2 ^ width) :
    tableValue table (alphabet.getD v 'A') ≠ -1 := by
  rw [hC.decode_encode v hv]
  omega

theorem IsCodec.encode_ne_nul (hC : IsCodec alphabet table width) {v : ℕ} (hv : v < 2 ^ width) :
    alphabet.getD v 'A' ≠ '\x00' := by
  intro h
  have := hC.encode_valid hv
  rw [h, hC.nul_invalid] at this
  exact this rfl

theorem bytes_lt (b : List UInt8) : ∀ x ∈ b.map UInt8.toNat, x < 2 ^ 8 := by
  intro x hx
  obtain ⟨c, -, rfl⟩ := List.mem_map.mp hx
  exact c.toNat_lt

/-- Decoding an encoding gives the bytes back, and reports it valid. -/
theorem decodeWith_encodeWith (hC : IsCodec alphabet table width) (hw0 : 0 < width)
    (hw : width ≤ 8) (hb : 0 < block) (b : List UInt8) :
    decodeWith table width block (encodeWith alphabet width block b) = (b, true) := by
  obtain ⟨-, hy_lt, -, -⟩ := ConvertBits_pad_spec hw0 (bytes_lt b)
  have hround := ConvertBits_roundtrip (by omega : 0 < 8) hw0 (bytes_lt b)
  rw [Nat.div_eq_of_lt (lt_of_lt_of_le (padBits_lt _ _ hw0) hw), List.replicate_zero,
    List.append_nil] at hround
  have henc : encodeWith alphabet width block b =
      (ConvertBits 8 width true (b.map UInt8.toNat)).1.map (fun v => alphabet.getD v 'A') ++
        List.replicate ((block - (ConvertBits 8 width true (b.map UInt8.toNat)).1.length % block)
          % block) '=' := by
    simp only [encodeWith, List.length_map]
  rw [henc]
  generalize (ConvertBits 8 width true (b.map UInt8.toNat)).1 = y at hy_lt hround ⊢
  generalize hk : (block - y.length % block) % block = k
  have hy_valid : ∀ c ∈ y.map (fun v => alphabet.getD v 'A'), tableValue table c ≠ -1 := by
    intro c hc
    obtain ⟨v, hv, rfl⟩ := List.mem_map.mp hc
    exact hC.encode_valid (hy_lt v hv)
  -- no `NUL` in the encoding, the alphabet part is read as values and the `=` signs end it
  have hnul : (y.map (fun v => alphabet.getD v 'A') ++ List.replicate k '=').takeWhile
      (· ≠ '\x00') = y.map (fun v => alphabet.getD v 'A') ++ List.replicate k '=' := by
    rw [List.takeWhile_eq_self_iff]
    intro c hc
    rcases List.mem_append.mp hc with hc | hc
    · obtain ⟨v, hv, rfl⟩ := List.mem_map.mp hc
      simpa using hC.encode_ne_nul (hy_lt v hv)
    · rw [List.eq_of_mem_replicate hc]
      decide
  have hval : (y.map (fun v => alphabet.getD v 'A') ++ List.replicate k '=').takeWhile
      (fun c => tableValue table c ≠ -1) = y.map (fun v => alphabet.getD v 'A') := by
    rw [List.takeWhile_append_of_pos (by simpa using hy_valid), List.takeWhile_replicate]
    simp [hC.pad_invalid]
  have hvals : ((y.map fun v => alphabet.getD v 'A').map fun c => (tableValue table c).toNat) = y := by
    rw [List.map_map]
    conv_rhs => rw [← List.map_id y]
    apply List.map_congr_left
    intro v hv
    simp only [Function.comp_apply, id]
    rw [hC.decode_encode v (hy_lt v hv)]
    rfl
  have hlen : (y.length + k) % block = 0 := by
    rw [← hk]
    exact add_padCount_mod _ hb
  simp only [decodeWith, hnul, hval, hvals, hround]
  have hk_lt : k < block := by
    rw [← hk]
    exact Nat.mod_lt _ hb
  simp [List.map_map, Function.comp_def, hlen, hk_lt]

/-- A string the decoder accepts, with no `NUL` in it, is the encoding of what it decodes to, once
each character is read back through the table (`normChar`). -/
theorem encodeWith_of_decodeWith (hC : IsCodec alphabet table width) (hw0 : 0 < width)
    {s : List Char} {ret : List UInt8} (hs : '\x00' ∉ s)
    (h : decodeWith table width block s = (ret, true)) :
    s.map (normChar alphabet table) = encodeWith alphabet width block ret := by
  have hnul : s.takeWhile (· ≠ '\x00') = s := by
    rw [List.takeWhile_eq_self_iff]
    intro c hc
    simp only [ne_eq, decide_eq_true_eq]
    intro heq
    exact hs (heq ▸ hc)
  simp only [decodeWith, hnul, List.length_map] at h
  -- the characters the table reads, then the rest
  have hvalid : ∀ c ∈ s.takeWhile (fun c => decide (tableValue table c ≠ -1)),
      tableValue table c ≠ -1 := fun c hc => by simpa using List.mem_takeWhile_imp hc
  obtain ⟨rest, hsplit⟩ := List.takeWhile_prefix (fun c => decide (tableValue table c ≠ -1)) (l := s)
  generalize s.takeWhile (fun c => decide (tableValue table c ≠ -1)) = vc at h hsplit hvalid
  subst hsplit
  rw [List.drop_left] at h
  set val := vc.map fun c => (tableValue table c).toNat with hval
  have hval_lt : ∀ v ∈ val, v < 2 ^ width := by
    intro v hv
    obtain ⟨c, hc, rfl⟩ := List.mem_map.mp hv
    exact hC.toNat_lt (hvalid c hc)
  obtain ⟨hret, hok⟩ := Prod.mk.inj h
  simp only [Bool.and_eq_true, beq_iff_eq, decide_eq_true_eq, List.all_eq_true] at hok
  obtain ⟨⟨⟨hconv, hrest⟩, hmod⟩, hrest_lt⟩ := hok
  -- the bytes decoded, as values, regroup back into `val`
  obtain ⟨hz_lt, -, -, -⟩ := @ConvertBits_nopad_spec width 8 (by norm_num) val hval_lt
  have hback := ConvertBits_pad_of_nopad (by omega : 0 < 8) hw0 hval_lt hconv
  have hbytes : ret.map UInt8.toNat = (ConvertBits width 8 false val).1 := by
    rw [← hret, List.map_map]
    conv_rhs => rw [← List.map_id (ConvertBits width 8 false val).1]
    apply List.map_congr_left
    intro v hv
    simp only [Function.comp_apply, id, Nat.toUInt8]
    exact UInt8.toNat_ofNat_of_lt' (hz_lt v hv)
  have henc : encodeWith alphabet width block ret =
      val.map (fun v => alphabet.getD v 'A') ++ List.replicate ((block - val.length % block) % block) '=' := by
    simp only [encodeWith, hbytes, hback, List.length_map]
  rw [henc, List.map_append]
  congr 1
  · -- the characters the table reads come back as the alphabet's
    rw [hval, List.map_map]
    apply List.map_congr_left
    intro c hc
    simp [normChar, hvalid c hc]
  · -- the rest is the encoder's count of `=` signs
    have hcount : rest.length = (block - val.length % block) % block := by
      apply padCount_unique hrest_lt
      rw [List.length_map]
      simpa using hmod
    calc rest.map (normChar alphabet table) = rest := by
          conv_rhs => rw [← List.map_id rest]
          apply List.map_congr_left
          intro c hc
          rw [show c = '=' by simpa using hrest c hc]
          simp [normChar, hC.pad_invalid]
      _ = List.replicate rest.length '=' :=
          List.eq_replicate_iff.mpr ⟨rfl, fun c hc => by simpa using hrest c hc⟩
      _ = List.replicate ((block - val.length % block) % block) '=' := by rw [hcount]

end Codec

/-! ## The two alphabets -/

/-- A fact about every table entry a character can read: those of the 256 bytes, and `-1`. -/
theorem forall_tableValue {table : List ℤ} (hlen : table.length = 256) {P : ℤ → Prop}
    (hP : P (-1)) (h : ∀ n < 256, P (table.getD n (-1))) (c : Char) : P (tableValue table c) := by
  by_cases hc : c.toNat < 256
  · exact h _ hc
  · rw [tableValue, List.getD_eq_default _ _ (by omega)]
    exact hP

/-- A fact about every character, from one about the 256 bytes and one about the others. -/
theorem forall_char {P : Char → Prop} (h : ∀ n < 256, P (Char.ofNat n))
    (hbig : ∀ c : Char, 256 ≤ c.toNat → P c) (c : Char) : P c := by
  by_cases hc : c.toNat < 256
  · rw [← Char.ofNat_toNat c]
    exact h _ hc
  · exact hbig c (by omega)

theorem tableValue_of_le {table : List ℤ} {c : Char} (h : table.length ≤ c.toNat) :
    tableValue table c = -1 :=
  List.getD_eq_default _ _ h

set_option maxRecDepth 8000 in
theorem base64_isCodec : IsCodec pbase64 decode64_table 6 where
  decode_encode := by decide
  pad_invalid := by decide
  nul_invalid := by decide
  value_mem := forall_tableValue (P := fun x => x ≠ -1 → 0 ≤ x ∧ x < 2 ^ 6) rfl
    (fun h => absurd rfl h) (by decide)

set_option maxRecDepth 8000 in
theorem base32_isCodec : IsCodec pbase32 decode32_table 5 where
  decode_encode := by decide
  pad_invalid := by decide
  nul_invalid := by decide
  value_mem := forall_tableValue (P := fun x => x ≠ -1 → 0 ≤ x ∧ x < 2 ^ 5) rfl
    (fun h => absurd rfl h) (by decide)

set_option maxRecDepth 8000 in
/-- Base64 reads each character it knows back as itself. -/
theorem normChar_base64 : ∀ c, normChar pbase64 decode64_table c = c :=
  forall_char (by decide) fun c hc => by
    simp [normChar, tableValue_of_le (show decode64_table.length ≤ c.toNat by
      rw [show decode64_table.length = 256 from rfl]; exact hc)]

set_option maxRecDepth 8000 in
/-- Base32 reads each capital letter back as its small one, and every other character as
itself. -/
theorem normChar_base32 : ∀ c, normChar pbase32 decode32_table c = c.toLower :=
  forall_char (by decide) fun c hc => by
    have hup : ¬(c.val ≥ 'A'.val ∧ c.val ≤ 'Z'.val) := by
      intro h
      have := UInt32.le_iff_toNat_le.mp h.2
      simp at this
      omega
    have hlow : c.toLower = c := by
      unfold Char.toLower
      rw [dif_neg hup]
    rw [hlow]
    simp [normChar, tableValue_of_le (show decode32_table.length ≤ c.toNat by
      rw [show decode32_table.length = 256 from rfl]; exact hc)]

theorem DecodeBase64_EncodeBase64 (b : List UInt8) : DecodeBase64 (EncodeBase64 b) = (b, true) :=
  decodeWith_encodeWith base64_isCodec (by norm_num) (by norm_num) (by norm_num) b

theorem DecodeBase32_EncodeBase32 (b : List UInt8) : DecodeBase32 (EncodeBase32 b) = (b, true) :=
  decodeWith_encodeWith base32_isCodec (by norm_num) (by norm_num) (by norm_num) b

example : EncodeBase64 [0x66, 0x6f, 0x6f, 0x62] = "Zm9vYg==".toList := by decide
example : DecodeBase64 "Zm9vYg==".toList = ([0x66, 0x6f, 0x6f, 0x62], true) := by decide
example : EncodeBase32 [0x66, 0x6f] = "mzxq====".toList := by decide

theorem EncodeBase64_of_DecodeBase64 {s : List Char} {ret : List UInt8} (hs : '\x00' ∉ s)
    (h : DecodeBase64 s = (ret, true)) : s = EncodeBase64 ret := by
  have := encodeWith_of_decodeWith base64_isCodec (by norm_num) hs h
  rwa [show normChar pbase64 decode64_table = id from funext normChar_base64, List.map_id] at this

theorem EncodeBase32_of_DecodeBase32 {s : List Char} {ret : List UInt8} (hs : '\x00' ∉ s)
    (h : DecodeBase32 s = (ret, true)) : s.map Char.toLower = EncodeBase32 ret := by
  have := encodeWith_of_decodeWith base32_isCodec (by norm_num) hs h
  rwa [show normChar pbase32 decode32_table = Char.toLower from funext normChar_base32] at this

/-- Bit regrouping and the two codecs: from bytes to 5 or 6 bits and back the input comes back,
from 5 or 6 bits to bytes and back it comes back followed by `⌊padBits / frombits⌋` zeros, a
regrouping without padding succeeds exactly on the results of one with padding, both codecs
round-trip, and a string the decoders accept with no `NUL` in it is the encoding of its result,
for Base32 once its capitals are made small. -/
theorem bit_regrouping_invertible_canonical :
    (∀ xs : List ℕ, (∀ x ∈ xs, x < 2 ^ 8) →
      ConvertBits 5 8 false (ConvertBits 8 5 true xs).1 = (xs, true) ∧
      ConvertBits 6 8 false (ConvertBits 8 6 true xs).1 = (xs, true)) ∧
    (∀ xs : List ℕ, (∀ x ∈ xs, x < 2 ^ 5) →
      ConvertBits 8 5 false (ConvertBits 5 8 true xs).1 =
        (xs ++ List.replicate (padBits 5 8 xs.length / 5) 0, true)) ∧
    (∀ xs : List ℕ, (∀ x ∈ xs, x < 2 ^ 6) →
      ConvertBits 8 6 false (ConvertBits 6 8 true xs).1 =
        (xs ++ List.replicate (padBits 6 8 xs.length / 6) 0, true)) ∧
    (∀ f t : ℕ, (f, t) ∈ [(8, 5), (5, 8), (8, 6), (6, 8)] → ∀ ys : List ℕ, (∀ y ∈ ys, y < 2 ^ t) →
      ((ConvertBits t f false ys).2 = true ↔
        ∃ xs, (∀ x ∈ xs, x < 2 ^ f) ∧ (ConvertBits f t true xs).1 = ys)) ∧
    (∀ b : List UInt8,
      DecodeBase64 (EncodeBase64 b) = (b, true) ∧ DecodeBase32 (EncodeBase32 b) = (b, true)) ∧
    (∀ (s : List Char) (ret : List UInt8), '\x00' ∉ s → DecodeBase64 s = (ret, true) →
      s = EncodeBase64 ret) ∧
    (∀ (s : List Char) (ret : List UInt8), '\x00' ∉ s → DecodeBase32 s = (ret, true) →
      s.map Char.toLower = EncodeBase32 ret) := by
  refine ⟨fun xs hx => ⟨?_, ?_⟩, fun xs hx => ?_, fun xs hx => ?_, ?_,
    fun b => ⟨DecodeBase64_EncodeBase64 b, DecodeBase32_EncodeBase32 b⟩,
    fun s ret hs h => EncodeBase64_of_DecodeBase64 hs h,
    fun s ret hs h => EncodeBase32_of_DecodeBase32 hs h⟩
  · exact ConvertBits_roundtrip_of_le (by norm_num) (by norm_num) (by norm_num) hx
  · exact ConvertBits_roundtrip_of_le (by norm_num) (by norm_num) (by norm_num) hx
  · exact ConvertBits_roundtrip (by norm_num) (by norm_num) hx
  · exact ConvertBits_roundtrip (by norm_num) (by norm_num) hx
  · intro f t hft ys hy
    have hpos : 0 < f ∧ 0 < t := by
      simp only [List.mem_cons, Prod.mk.injEq, List.not_mem_nil, or_false] at hft
      omega
    exact ConvertBits_nopad_ok_iff hpos.1 hpos.2 hy

/-- Two bytes regrouped into 5-bit and into 6-bit values and back. -/
theorem bit_regrouping_invertible_canonical_two_bytes :
    ConvertBits 5 8 false (ConvertBits 8 5 true [255, 1]).1 = ([255, 1], true) ∧
      ConvertBits 6 8 false (ConvertBits 8 6 true [255, 1]).1 = ([255, 1], true) :=
  bit_regrouping_invertible_canonical.1 [255, 1] (by decide)

/-- From two 5-bit values to bytes and back gives three values; a Base32 string in capitals is
accepted and is not the encoding of its result; the string overload of `DecodeBase64` stops at a
`NUL` and accepts what follows it. -/
theorem bit_regrouping_counterexamples :
    ConvertBits 8 5 false (ConvertBits 5 8 true [0, 0]).1 = ([0, 0, 0], true) ∧
    DecodeBase32 "AAAAAAAA".toList = ([0, 0, 0, 0, 0], true) ∧
    EncodeBase32 [0, 0, 0, 0, 0] = "aaaaaaaa".toList ∧
    DecodeBase64 "AA==\x00A".toList = ([0], true) ∧ EncodeBase64 [0] = "AA==".toList := by
  decide

end HydraNode
