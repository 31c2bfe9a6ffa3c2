import HydraNode.Lib.Radix

/-!
# Bech32

`bech32::Encode` and `bech32::Decode` (`bech32.cpp`) write and read a human-readable part, the
separator `1` and a list of 5-bit values followed by a checksum of six more. The checksum is
computed by `PolyMod`, a shift register over 30 bits whose step multiplies by `x` modulo the
generator `g` of a BCH code over `GF(32)`: the top five bits fall out, and for each of them a
multiple `{2 ^ n} k(x)` of `k = x ^ 6 mod g` is added, five constants of the source
(`GEN_eq`).

A step is linear in exclusive or (`polyModStep_xor`), and fed with zeros it never takes a
nonzero state to zero (`polyModStep_zero_ne_zero`). The first makes the checksum of
`CreateChecksum` what `VerifyChecksum` expects, so that `Decode` reads back what `Encode` writes
(`Decode_Encode`); the second makes a single changed value change the register's result, so
that a valid string with one data character replaced by one of another value is rejected
(`Decode_set_eq_none`). `Decode` accepts upper case strings too, and a character replaced by
itself in the other case keeps its value: such a string may still be valid.

A `std::string` is the list of its characters and `data` the list of its bytes as numbers.
`CHARSET[c]` past the end of the charset is not modelled; every value `Encode` is given here is
below `32`. The register's `uint32_t` does not overflow: it stays below `2 ^ 30`. `Decode`
returns `{}` on failure, which no successful decode returns, as its human-readable part is not
empty; it is modelled as `none`.

## Main definitions

* `CHARSET`, `CHARSET_REV`
* `polyModStep`, `PolyMod`, `ExpandHRP`, `VerifyChecksum`, `CreateChecksum`
* `Encode`, `Decode`

## Main results

* `polyModRun_xor` — the register is linear in exclusive or
* `VerifyChecksum_CreateChecksum` — the checksum written is the checksum expected
* `Decode_Encode` — the round trip
* `Decode_set_eq_none` — one changed value is detected
-/

namespace HydraNode

namespace Bech32

open Radix

/-! ## The source -/

/-- `CHARSET`: the character of each 5-bit value. -/
def CHARSET : List Char := "qpzry9x8gf2tvdw0s3jn54khce6mua7l".toList

/-- `CHARSET_REV`: the value of each character below `128`, `-1` where there is none. -/
def CHARSET_REV : List ℤ := [
  -1, -1, -1, -1, -1, -1, -1, -1, -1, -1, -1, -1, -1, -1, -1, -1,
  -1, -1, -1, -1, -1, -1, -1, -1, -1, -1, -1, -1, -1, -1, -1, -1,
  -1, -1, -1, -1, -1, -1, -1, -1, -1, -1, -1, -1, -1, -1, -1, -1,
  15, -1, 10, 17, 21, 20, 26, 30, 7, 5, -1, -1, -1, -1, -1, -1,
  -1, 29, -1, 24, 13, 25, 9, 8, 23, -1, 18, 22, 31, 27, 19, -1,
  1, 0, 3, 16, 11, 28, 12, 14, 6, 4, 2, -1, -1, -1, -1, -1,
  -1, 29, -1, 24, 13, 25, 9, 8, 23, -1, 18, 22, 31, 27, 19, -1,
  1, 0, 3, 16, 11, 28, 12, 14, 6, 4, 2, -1, -1, -1, -1, -1]

/-- One step of the loop of `PolyMod`: shift in `v_i`, and add `{2 ^ n} k(x)` for each bit `n`
of the coefficient `c0` that falls out. -/
def polyModStep (c v_i : ℕ) : ℕ :=
  let c0 := c >>> 25
  let c := ((c &&& 0x1ffffff) <<< 5) ^^^ v_i
  let c := if c0 &&& 1 ≠ 0 then c ^^^ 0x3b6a57b2 else c
  let c := if c0 &&& 2 ≠ 0 then c ^^^ 0x26508e6d else c
  let c := if c0 &&& 4 ≠ 0 then c ^^^ 0x1ea119fa else c
  let c := if c0 &&& 8 ≠ 0 then c ^^^ 0x3d4233dd else c
  if c0 &&& 16 ≠ 0 then c ^^^ 0x2a1462b3 else c

/-- `PolyMod`. -/
def PolyMod (v : List ℕ) : ℕ := v.foldl polyModStep 1

/-- `LowerCase`. -/
def LowerCase (c : Char) : Char :=
  if 'A' ≤ c ∧ c ≤ 'Z' then Char.ofNat (c.toNat - 'A'.toNat + 'a'.toNat) else c

/-- `ExpandHRP`: the high bits of each character, a zero, and the low five bits of each. -/
def ExpandHRP (hrp : List Char) : List ℕ :=
  hrp.map (fun c => c.toNat >>> 5) ++ 0 :: hrp.map (fun c => c.toNat &&& 0x1f)

/-- `VerifyChecksum`. -/
def VerifyChecksum (hrp : List Char) (values : List ℕ) : Bool :=
  PolyMod (ExpandHRP hrp ++ values) == 1

/-- `CreateChecksum`: the six 5-bit groups of what makes the register end at `1`. -/
def CreateChecksum (hrp : List Char) (values : List ℕ) : List ℕ :=
  let enc := ExpandHRP hrp ++ values ++ List.replicate 6 0
  let mod := PolyMod enc ^^^ 1
  (List.range 6).map fun i => (mod >>> (5 * (5 - i))) &&& 31

/-- `bech32::Encode`. -/
def Encode (hrp : List Char) (values : List ℕ) : List Char :=
  let checksum := CreateChecksum hrp values
  let combined := values ++ checksum
  hrp ++ '1' :: combined.map fun c => CHARSET.getD c '\x00'

/-- The first loop of `Decode`: `none` on a character outside `[33, 126]` that is not a letter,
and otherwise whether a lower case and an upper case letter occur. -/
def scanCase (lower upper : Bool) : List Char → Option (Bool × Bool)
  | [] => some (lower, upper)
  | c :: cs =>
    if 'a' ≤ c ∧ c ≤ 'z' then scanCase true upper cs
    else if 'A' ≤ c ∧ c ≤ 'Z' then scanCase lower true cs
    else if c.toNat < 33 ∨ c.toNat > 126 then none
    else scanCase lower upper cs

/-- `str.rfind(c)`: the index of the last `c`. -/
def rfind (c : Char) : List Char → Option ℕ
  | [] => none
  | x :: xs =>
    match rfind c xs with
    | some i => some (i + 1)
    | none => if x = c then some 0 else none

/-- `CHARSET_REV[c]`, `none` where it is `-1`. -/
def charValue (c : Char) : Option ℕ :=
  let rev := CHARSET_REV.getD c.toNat (-1)
  if rev = -1 then none else some rev.toNat

/-- The loop over the data characters of `Decode`: their values, `none` at one without. -/
def decodeValues (cs : List Char) : Option (List ℕ) := cs.mapM charValue

/-- `bech32::Decode`. -/
def Decode (str : List Char) : Option (List Char × List ℕ) :=
  match scanCase false false str with
  | none => none
  | some (lower, upper) =>
    if lower ∧ upper then none
    else
      match rfind '1' str with
      | none => none
      | some pos =>
        if str.length > 90 ∨ pos = 0 ∨ pos + 7 > str.length then none
        else
          match decodeValues (str.drop (pos + 1)) with
          | none => none
          | some values =>
            let hrp := (str.take pos).map LowerCase
            if !VerifyChecksum hrp values then none
            else some (hrp, values.take (values.length - 6))

example : Decode (Encode "a".toList [0, 1, 2]) = some ("a".toList, [0, 1, 2]) := by decide

/-! ## The register -/

/-- The multiples of `k(x)` added for the set bits of the coefficient that falls out. -/
def genXor (c0 : ℕ) : ℕ :=
  (if c0.testBit 0 then 0x3b6a57b2 else 0) ^^^ (if c0.testBit 1 then 0x26508e6d else 0) ^^^
    (if c0.testBit 2 then 0x1ea119fa else 0) ^^^ (if c0.testBit 3 then 0x3d4233dd else 0) ^^^
    (if c0.testBit 4 then 0x2a1462b3 else 0)

theorem and_two_pow_ne_zero (x i : ℕ) : x &&& 2 ^ i ≠ 0 ↔ x.testBit i = true := by
  rw [Nat.and_two_pow]
  cases x.testBit i <;> simp

theorem ite_xor_eq (p : Prop) [Decidable p] (x k : ℕ) :
    (if p then x ^^^ k else x) = x ^^^ if p then k else 0 := by
  split_ifs <;> simp

/-- A step shifts, adds the input, and adds `genXor` of what falls out. -/
theorem polyModStep_eq (c v : ℕ) :
    polyModStep c v = ((c &&& 0x1ffffff) <<< 5) ^^^ v ^^^ genXor (c >>> 25) := by
  have e0 : c >>> 25 &&& 1 ≠ 0 ↔ (c >>> 25).testBit 0 = true := and_two_pow_ne_zero _ 0
  have e1 : c >>> 25 &&& 2 ≠ 0 ↔ (c >>> 25).testBit 1 = true := and_two_pow_ne_zero _ 1
  have e2 : c >>> 25 &&& 4 ≠ 0 ↔ (c >>> 25).testBit 2 = true := and_two_pow_ne_zero _ 2
  have e3 : c >>> 25 &&& 8 ≠ 0 ↔ (c >>> 25).testBit 3 = true := and_two_pow_ne_zero _ 3
  have e4 : c >>> 25 &&& 16 ≠ 0 ↔ (c >>> 25).testBit 4 = true := and_two_pow_ne_zero _ 4
  simp only [polyModStep, ite_xor_eq, e0, e1, e2, e3, e4]
  simp only [genXor, Nat.xor_assoc]

theorem ite_bxor (p q : Bool) (k : ℕ) :
    (if (p ^^ q) = true then k else 0) = (if p = true then k else 0) ^^^ if q = true then k else 0 := by
  cases p <;> cases q <;> simp

theorem genXor_xor (a b : ℕ) : genXor (a ^^^ b) = genXor a ^^^ genXor b := by
  simp only [genXor, Nat.testBit_xor, ite_bxor]
  ac_rfl

/-- A step is linear in exclusive or, in the state and the input together. -/
theorem polyModStep_xor (c d v w : ℕ) :
    polyModStep (c ^^^ d) (v ^^^ w) = polyModStep c v ^^^ polyModStep d w := by
  rw [polyModStep_eq, polyModStep_eq, polyModStep_eq, Nat.and_xor_distrib_right,
    Nat.shiftLeft_xor_distrib, Nat.shiftRight_xor_distrib, genXor_xor]
  ac_rfl

/-- The loop of `PolyMod` from the state `c`. -/
def polyModRun (c : ℕ) (v : List ℕ) : ℕ := v.foldl polyModStep c

theorem PolyMod_eq (v : List ℕ) : PolyMod v = polyModRun 1 v := rfl

@[simp] theorem polyModRun_nil (c : ℕ) : polyModRun c [] = c := rfl

@[simp] theorem polyModRun_cons (c x : ℕ) (xs : List ℕ) :
    polyModRun c (x :: xs) = polyModRun (polyModStep c x) xs := rfl

theorem polyModRun_append (c : ℕ) (xs ys : List ℕ) :
    polyModRun c (xs ++ ys) = polyModRun (polyModRun c xs) ys := by
  rw [polyModRun, List.foldl_append]
  rfl

/-- The register is linear in exclusive or over inputs of one length. -/
theorem polyModRun_xor (c d : ℕ) (xs ys : List ℕ) (h : xs.length = ys.length) :
    polyModRun (c ^^^ d) (List.zipWith (· ^^^ ·) xs ys) = polyModRun c xs ^^^ polyModRun d ys := by
  induction xs generalizing ys c d with
  | nil =>
    obtain rfl : ys = [] := List.eq_nil_of_length_eq_zero h.symm
    rfl
  | cons x xs ih =>
    cases ys with
    | nil => simp at h
    | cons y ys =>
      rw [List.zipWith_cons_cons, polyModRun_cons, polyModRun_cons, polyModRun_cons,
        polyModStep_xor, ih _ _ _ (by simpa using h)]

theorem zipWith_xor_replicate_zero (xs : List ℕ) :
    List.zipWith (· ^^^ ·) xs (List.replicate xs.length 0) = xs := by
  induction xs with
  | nil => rfl
  | cons x xs ih => rw [List.length_cons, List.replicate_succ, List.zipWith_cons_cons, ih, Nat.xor_zero]

theorem zipWith_replicate_zero_xor (xs : List ℕ) :
    List.zipWith (· ^^^ ·) (List.replicate xs.length 0) xs = xs := by
  induction xs with
  | nil => rfl
  | cons x xs ih => rw [List.length_cons, List.replicate_succ, List.zipWith_cons_cons, ih, Nat.zero_xor]

/-! ### Bounds -/

theorem ite_lt_two_pow (p : Prop) [Decidable p] {k n : ℕ} (hk : k < 2 ^ n) :
    (if p then k else 0) < 2 ^ n := by
  split_ifs
  · exact hk
  · exact Nat.two_pow_pos n

@[simp] theorem genXor_zero : genXor 0 = 0 := by decide

theorem genXor_lt (c0 : ℕ) : genXor c0 < 2 ^ 30 := by
  unfold genXor
  refine Nat.xor_lt_two_pow (Nat.xor_lt_two_pow (Nat.xor_lt_two_pow (Nat.xor_lt_two_pow ?_ ?_) ?_) ?_) ?_ <;>
    exact ite_lt_two_pow _ (by norm_num)

theorem shift_lt (c : ℕ) : (c &&& 0x1ffffff) <<< 5 < 2 ^ 30 := by
  have h : c &&& 0x1ffffff < 2 ^ 25 := Nat.and_lt_two_pow c (by norm_num)
  rw [Nat.shiftLeft_eq]
  omega

/-- The register stays within 30 bits. -/
theorem polyModStep_lt (c : ℕ) {v : ℕ} (hv : v < 2 ^ 30) : polyModStep c v < 2 ^ 30 := by
  rw [polyModStep_eq]
  exact Nat.xor_lt_two_pow (Nat.xor_lt_two_pow (shift_lt c) hv) (genXor_lt _)

theorem polyModRun_lt {c : ℕ} (hc : c < 2 ^ 30) {vs : List ℕ} (hv : ∀ v ∈ vs, v < 2 ^ 30) :
    polyModRun c vs < 2 ^ 30 := by
  induction vs generalizing c with
  | nil => exact hc
  | cons v vs ih =>
    exact ih (polyModStep_lt c (hv v (List.mem_cons_self ..)))
      fun w hw => hv w (List.mem_cons_of_mem _ hw)

/-! ### Fed with zeros, and fed from zero -/

/-- Only a zero coefficient falling out adds nothing to the low five bits. -/
theorem genXor_mod_eq_zero : ∀ c0 < 32, genXor c0 % 32 = 0 → c0 = 0 := by decide

/-- A step fed with zero takes no nonzero state to zero: the register, multiplying by `x`, is
invertible. -/
theorem polyModStep_zero_ne_zero {c : ℕ} (hc : c < 2 ^ 30) (h : c ≠ 0) : polyModStep c 0 ≠ 0 := by
  intro h0
  rw [polyModStep_eq, Nat.xor_zero, Nat.xor_eq_zero_iff] at h0
  have hlo : c &&& 0x1ffffff = c % 2 ^ 25 := Nat.and_two_pow_sub_one_eq_mod c 25
  have hhi : c >>> 25 = c / 2 ^ 25 := Nat.shiftRight_eq_div_pow c 25
  rw [hlo, hhi, Nat.shiftLeft_eq] at h0
  have hc0 : c / 2 ^ 25 = 0 := by
    apply genXor_mod_eq_zero _ (by omega)
    rw [← h0]
    omega
  rw [hc0, genXor_zero] at h0
  omega

theorem polyModRun_zeros_ne_zero {c : ℕ} (hc : c < 2 ^ 30) (h : c ≠ 0) (n : ℕ) :
    polyModRun c (List.replicate n 0) ≠ 0 := by
  induction n generalizing c with
  | zero => exact h
  | succ n ih =>
    rw [List.replicate_succ, polyModRun_cons]
    exact ih (polyModStep_lt c (by norm_num)) (polyModStep_zero_ne_zero hc h)

theorem polyModStep_zero_left (v : ℕ) : polyModStep 0 v = v := by
  rw [polyModStep_eq, Nat.zero_and, Nat.zero_shiftLeft, Nat.zero_shiftRight, genXor_zero,
    Nat.zero_xor, Nat.xor_zero]

/-- Fed from zero with at most six 5-bit values, the register holds their value: nothing falls
out. -/
theorem polyModRun_zero (xs : List ℕ) (hlen : xs.length ≤ 6) (hx : ∀ x ∈ xs, x < 32) :
    polyModRun 0 xs = groupsValue 5 xs := by
  induction xs using List.reverseRecOn with
  | nil => rfl
  | append_singleton ys y ih =>
    have hys : ys.length ≤ 5 := by simp at hlen; omega
    have hy : y < 2 ^ 5 := hx y (by simp)
    rw [polyModRun_append, ih (by omega) fun x hx' => hx x (by simp [hx']), polyModRun_cons,
      polyModRun_nil, polyModStep_eq, groupsValue_concat]
    -- the value so far is below `2 ^ 25`
    have hG : groupsValue 5 ys < 2 ^ 25 :=
      lt_of_lt_of_le (groupsValue_lt (by norm_num) fun x hx' => hx x (by simp [hx']))
        (Nat.pow_le_pow_right (by norm_num) (by omega))
    rw [show (0x1ffffff : ℕ) = 2 ^ 25 - 1 by norm_num, Nat.and_two_pow_sub_one_eq_mod,
      Nat.mod_eq_of_lt hG, Nat.shiftRight_eq_div_pow, Nat.div_eq_of_lt hG,
      genXor_zero, Nat.xor_zero, shiftLeft_xor_eq_add hy]

/-! ## The checksum -/

theorem and_thirtyOne_lt (x : ℕ) : x &&& 31 < 32 := Nat.and_lt_two_pow (n := 5) x (by norm_num)

/-- The checksum values are the six 5-bit groups of the number, most significant first. -/
theorem checksum_groups (M : ℕ) :
    ((List.range 6).map fun i => (M >>> (5 * (5 - i))) &&& 31) =
      (List.range 6).map fun i => M / 2 ^ (5 * (6 - 1 - i)) % 2 ^ 5 := by
  refine List.map_congr_left fun i _ => ?_
  rw [Nat.shiftRight_eq_div_pow, show (31 : ℕ) = 2 ^ 5 - 1 from rfl,
    Nat.and_two_pow_sub_one_eq_mod]

/-- From a state `S`, the groups of what six zeros would leave, added to `1`, bring the register
to `1`: fed from zero they are that number, and the register is linear. -/
theorem polyModRun_checksum {S : ℕ} (hS : S < 2 ^ 30) :
    polyModRun S ((List.range 6).map fun i =>
      ((polyModRun S (List.replicate 6 0) ^^^ 1) >>> (5 * (5 - i))) &&& 31) = 1 := by
  set R := polyModRun S (List.replicate 6 0)
  have hR : R < 2 ^ 30 := polyModRun_lt hS (by simp)
  set groups := (List.range 6).map fun i => ((R ^^^ 1) >>> (5 * (5 - i))) &&& 31 with hgroups
  have hlen : groups.length = 6 := by simp [groups]
  have hg : ∀ g ∈ groups, g < 32 := by
    intro g hg
    obtain ⟨i, -, rfl⟩ := List.mem_map.mp hg
    exact and_thirtyOne_lt _
  have hzero : polyModRun 0 groups = R ^^^ 1 := by
    rw [polyModRun_zero groups (by omega) hg, hgroups, checksum_groups, groupsValue_range_map,
      Nat.mod_eq_of_lt (Nat.xor_lt_two_pow hR (by norm_num))]
  have hlin := polyModRun_xor S 0 (List.replicate groups.length 0) groups (by simp)
  rw [Nat.xor_zero, zipWith_replicate_zero_xor, hlen, hzero] at hlin
  rw [hlin, Nat.xor_xor_cancel_left]

theorem CreateChecksum_eq (hrp : List Char) (values : List ℕ) :
    CreateChecksum hrp values = (List.range 6).map fun i =>
      ((polyModRun (polyModRun 1 (ExpandHRP hrp ++ values)) (List.replicate 6 0) ^^^ 1) >>>
        (5 * (5 - i))) &&& 31 := by
  rw [CreateChecksum, PolyMod_eq, polyModRun_append]

/-- The checksum `CreateChecksum` writes is the one `VerifyChecksum` expects. -/
theorem VerifyChecksum_CreateChecksum (hrp : List Char) (values : List ℕ)
    (h : ∀ x ∈ ExpandHRP hrp ++ values, x < 2 ^ 30) :
    VerifyChecksum hrp (values ++ CreateChecksum hrp values) = true := by
  have hS : polyModRun 1 (ExpandHRP hrp ++ values) < 2 ^ 30 := polyModRun_lt (by norm_num) h
  rw [VerifyChecksum, PolyMod_eq, ← List.append_assoc, polyModRun_append, CreateChecksum_eq,
    polyModRun_checksum hS]
  rfl

/-! ## The round trip -/

/-- The characters of the values below `32`: printable, not upper case, not the separator, and
read back as their value. -/
theorem CHARSET_spec : ∀ v < 32,
    (33 ≤ (CHARSET.getD v '\x00').toNat ∧ (CHARSET.getD v '\x00').toNat ≤ 126) ∧
      ¬('A' ≤ CHARSET.getD v '\x00' ∧ CHARSET.getD v '\x00' ≤ 'Z') ∧
      CHARSET.getD v '\x00' ≠ '1' ∧ CHARSET_REV.getD (CHARSET.getD v '\x00').toNat (-1) = v := by
  decide

theorem Encode_eq (hrp : List Char) (values : List ℕ) :
    Encode hrp values =
      hrp ++ '1' :: (values ++ CreateChecksum hrp values).map fun c => CHARSET.getD c '\x00' := rfl

theorem length_CreateChecksum (hrp : List Char) (values : List ℕ) :
    (CreateChecksum hrp values).length = 6 := by
  simp [CreateChecksum]

theorem CreateChecksum_lt (hrp : List Char) (values : List ℕ) :
    ∀ x ∈ CreateChecksum hrp values, x < 32 := by
  intro x hx
  obtain ⟨i, -, rfl⟩ := List.mem_map.mp hx
  exact and_thirtyOne_lt _

theorem ExpandHRP_lt {hrp : List Char} (h : ∀ c ∈ hrp, c.toNat < 256) :
    ∀ x ∈ ExpandHRP hrp, x < 32 := by
  intro x hx
  rcases List.mem_append.mp hx with hx | hx
  · obtain ⟨c, hc, rfl⟩ := List.mem_map.mp hx
    have := h c hc
    rw [Nat.shiftRight_eq_div_pow]
    omega
  · rcases List.mem_cons.mp hx with rfl | hx
    · norm_num
    · obtain ⟨c, -, rfl⟩ := List.mem_map.mp hx
      exact and_thirtyOne_lt _

/-- A string of printable characters with no upper case letter passes the case scan. -/
theorem scanCase_of_forall {l : List Char}
    (h : ∀ c ∈ l, (33 ≤ c.toNat ∧ c.toNat ≤ 126) ∧ ¬('A' ≤ c ∧ c ≤ 'Z')) (lower : Bool) :
    ∃ lower', scanCase lower false l = some (lower', false) := by
  induction l generalizing lower with
  | nil => exact ⟨lower, rfl⟩
  | cons c l ih =>
    obtain ⟨⟨h33, h126⟩, hup⟩ := h c (List.mem_cons_self ..)
    have ih' := fun lower => ih (fun d hd => h d (List.mem_cons_of_mem _ hd)) lower
    rw [scanCase]
    by_cases hlow : 'a' ≤ c ∧ c ≤ 'z'
    · rw [if_pos hlow]
      exact ih' true
    · rw [if_neg hlow, if_neg hup, if_neg (by omega)]
      exact ih' lower

theorem rfind_eq_none {c : Char} {l : List Char} (h : c ∉ l) : rfind c l = none := by
  induction l with
  | nil => rfl
  | cons x l ih =>
    rw [List.mem_cons, not_or] at h
    rw [rfind, ih h.2, if_neg (Ne.symm h.1)]

/-- The last `c` of a string, followed by none. -/
theorem rfind_append_cons {c : Char} (xs : List Char) {ys : List Char} (h : c ∉ ys) :
    rfind c (xs ++ c :: ys) = some xs.length := by
  induction xs with
  | nil => rw [List.nil_append, rfind, rfind_eq_none h, if_pos rfl, List.length_nil]
  | cons x xs ih => rw [List.cons_append, rfind, ih, List.length_cons]

theorem decodeValues_map {vs : List ℕ} (h : ∀ v ∈ vs, v < 32) :
    decodeValues (vs.map fun c => CHARSET.getD c '\x00') = some vs := by
  induction vs with
  | nil => rfl
  | cons v vs ih =>
    have hv := (CHARSET_spec v (h v (List.mem_cons_self ..))).2.2.2
    have ih' := ih fun w hw => h w (List.mem_cons_of_mem _ hw)
    unfold decodeValues at ih' ⊢
    rw [List.map_cons, List.mapM_cons, ih']
    simp only [charValue, hv]
    simp

theorem LowerCase_of_not_upper {c : Char} (h : ¬('A' ≤ c ∧ c ≤ 'Z')) : LowerCase c = c := by
  rw [LowerCase, if_neg h]

/-- `Decode` reads back what `Encode` writes, for a human-readable part of printable characters
with no upper case letter, values of five bits, and at most `90` characters in all. -/
theorem Decode_Encode {hrp : List Char} {values : List ℕ} (hne : hrp ≠ [])
    (hhrp : ∀ c ∈ hrp, (33 ≤ c.toNat ∧ c.toNat ≤ 126) ∧ ¬('A' ≤ c ∧ c ≤ 'Z'))
    (hv : ∀ v ∈ values, v < 32) (hlen : hrp.length + values.length + 7 ≤ 90) :
    Decode (Encode hrp values) = some (hrp, values) := by
  set cks := CreateChecksum hrp values
  have hall : ∀ v ∈ values ++ cks, v < 32 := by
    intro v hv'
    rcases List.mem_append.mp hv' with h | h
    · exact hv v h
    · exact CreateChecksum_lt hrp values v h
  have hdata : ∀ c ∈ (values ++ cks).map (fun c => CHARSET.getD c '\x00'),
      ((33 ≤ c.toNat ∧ c.toNat ≤ 126) ∧ ¬('A' ≤ c ∧ c ≤ 'Z')) ∧ c ≠ '1' := by
    intro c hc
    obtain ⟨v, hv', rfl⟩ := List.mem_map.mp hc
    obtain ⟨h1, h2, h3, -⟩ := CHARSET_spec v (hall v hv')
    exact ⟨⟨h1, h2⟩, h3⟩
  -- the case scan, the separator, and the lengths
  obtain ⟨lower, hscan⟩ : ∃ lower, scanCase false false (Encode hrp values) = some (lower, false) := by
    refine scanCase_of_forall (fun c hc => ?_) false
    rw [Encode_eq, List.mem_append, List.mem_cons] at hc
    rcases hc with hc | rfl | hc
    · exact hhrp c hc
    · decide
    · exact (hdata c hc).1
  have hrf : rfind '1' (Encode hrp values) = some hrp.length :=
    rfind_append_cons hrp fun hc => (hdata '1' hc).2 rfl
  have hsize : (Encode hrp values).length = hrp.length + 1 + (values.length + 6) := by
    simp [Encode_eq, length_CreateChecksum]
    omega
  have hpos : hrp.length ≠ 0 := by simpa using hne
  have hdrop : (Encode hrp values).drop (hrp.length + 1) =
      (values ++ cks).map fun c => CHARSET.getD c '\x00' := by
    rw [Encode_eq, ← List.singleton_append, ← List.append_assoc, List.drop_left' (by simp)]
  have htake : (Encode hrp values).take hrp.length = hrp := by
    rw [Encode_eq, List.take_left']
    rfl
  have hlower : hrp.map LowerCase = hrp := by
    conv_rhs => rw [← List.map_id hrp]
    exact List.map_congr_left fun c hc => LowerCase_of_not_upper (hhrp c hc).2
  have hcheck : VerifyChecksum hrp (values ++ cks) = true := by
    refine VerifyChecksum_CreateChecksum hrp values fun x hx => ?_
    rcases List.mem_append.mp hx with hx | hx
    · exact lt_trans (ExpandHRP_lt (fun c hc => by have := (hhrp c hc).1; omega) x hx) (by norm_num)
    · exact lt_trans (hv x hx) (by norm_num)
  unfold Decode
  rw [hscan]
  simp only [Bool.false_eq_true, and_false, if_false]
  rw [hrf]
  dsimp only
  rw [if_neg (by omega), hdrop, decodeValues_map hall]
  dsimp only
  simp only [htake, hlower, hcheck, Bool.not_true, Bool.false_eq_true, if_false]
  rw [List.length_append, length_CreateChecksum, Nat.add_sub_cancel, List.take_left' rfl]

/-! ## A changed value is detected -/

theorem toNat_lt_two_pow (c : Char) : c.toNat < 2 ^ 21 := by
  have h := c.valid
  simp only [UInt32.isValidChar, Nat.isValidChar] at h
  have : c.toNat = c.val.toNat := rfl
  omega

/-- Every character expands to values below `2 ^ 30`. -/
theorem ExpandHRP_lt_two_pow (hrp : List Char) : ∀ x ∈ ExpandHRP hrp, x < 2 ^ 30 := by
  intro x hx
  rcases List.mem_append.mp hx with hx | hx
  · obtain ⟨c, -, rfl⟩ := List.mem_map.mp hx
    have := toNat_lt_two_pow c
    rw [Nat.shiftRight_eq_div_pow]
    omega
  · rcases List.mem_cons.mp hx with rfl | hx
    · norm_num
    · obtain ⟨c, -, rfl⟩ := List.mem_map.mp hx
      exact lt_trans (and_thirtyOne_lt _) (by norm_num)

set_option maxRecDepth 8000 in
theorem CHARSET_REV_le : ∀ x ∈ CHARSET_REV, x ≤ 31 := by decide

theorem charValue_lt {c : Char} {v : ℕ} (h : charValue c = some v) : v < 32 := by
  simp only [charValue] at h
  split_ifs at h with hrev
  obtain rfl := Option.some.inj h
  have hle : CHARSET_REV.getD c.toNat (-1) ≤ 31 := by
    rw [List.getD_eq_getElem?_getD]
    cases hget : CHARSET_REV[c.toNat]? with
    | none => simp
    | some x => exact CHARSET_REV_le x (List.mem_of_getElem? hget)
  omega

/-- The characters of the charset have values, and none is the separator. -/
theorem charValue_of_mem_CHARSET {c : Char} (hc : c ∈ CHARSET) :
    (charValue c).isSome ∧ c ≠ '1' := by
  obtain ⟨v, hv, rfl⟩ := List.mem_iff_getElem.mp hc
  have hlen : CHARSET.length = 32 := rfl
  obtain ⟨-, -, hsep, hrev⟩ := CHARSET_spec v (by omega)
  rw [List.getD_eq_getElem _ _ hv] at hsep hrev
  refine ⟨?_, hsep⟩
  simp only [charValue, hrev]
  simp

theorem decodeValues_cons (c : Char) (cs : List Char) :
    decodeValues (c :: cs) = (charValue c).bind fun v => (decodeValues cs).map (v :: ·) := by
  unfold decodeValues
  rw [List.mapM_cons]
  cases charValue c <;> cases cs.mapM charValue <;> rfl

/-- Each decoded value is the value of its character. -/
theorem decodeValues_getElem {cs : List Char} {vs : List ℕ} (h : decodeValues cs = some vs) :
    vs.length = cs.length ∧ ∀ k (hk : k < cs.length), charValue cs[k] = vs[k]? := by
  induction cs generalizing vs with
  | nil =>
    obtain rfl : vs = [] := Option.some.inj h.symm
    exact ⟨rfl, fun k hk => absurd hk (by simp)⟩
  | cons c cs ih =>
    rw [decodeValues_cons] at h
    obtain ⟨v, hv, h⟩ := Option.bind_eq_some_iff.mp h
    obtain ⟨ws, hws, rfl⟩ := Option.map_eq_some_iff.mp h
    obtain ⟨hlen, hget⟩ := ih hws
    refine ⟨by simp [hlen], fun k hk => ?_⟩
    rcases k with _ | k
    · simpa using hv
    · simpa using hget k (by simpa using hk)

theorem decodeValues_lt {cs : List Char} {vs : List ℕ} (h : decodeValues cs = some vs) :
    ∀ v ∈ vs, v < 32 := by
  induction cs generalizing vs with
  | nil =>
    obtain rfl : vs = [] := Option.some.inj h.symm
    simp
  | cons c cs ih =>
    rw [decodeValues_cons] at h
    obtain ⟨v, hv, h⟩ := Option.bind_eq_some_iff.mp h
    obtain ⟨ws, hws, rfl⟩ := Option.map_eq_some_iff.mp h
    intro w hw
    rcases List.mem_cons.mp hw with rfl | hw
    · exact charValue_lt hv
    · exact ih hws w hw

/-- Replacing a character by one with the value `v'` replaces its value. -/
theorem decodeValues_set {cs : List Char} {vs : List ℕ} (h : decodeValues cs = some vs)
    {x : Char} {v' : ℕ} (hx : charValue x = some v') (k : ℕ) :
    decodeValues (cs.set k x) = some (vs.set k v') := by
  induction cs generalizing vs k with
  | nil =>
    obtain rfl : vs = [] := Option.some.inj h.symm
    rfl
  | cons c cs ih =>
    rw [decodeValues_cons] at h
    obtain ⟨v, hv, h⟩ := Option.bind_eq_some_iff.mp h
    obtain ⟨ws, hws, rfl⟩ := Option.map_eq_some_iff.mp h
    rcases k with _ | k
    · rw [List.set_cons_zero, decodeValues_cons, hx, List.set_cons_zero]
      simp [hws]
    · rw [List.set_cons_succ, decodeValues_cons, hv, List.set_cons_succ]
      simp [ih hws k]

theorem rfind_eq_none_iff {c : Char} {l : List Char} : rfind c l = none ↔ c ∉ l := by
  refine ⟨fun h hc => ?_, rfind_eq_none⟩
  induction l with
  | nil => simp at hc
  | cons x l ih =>
    rw [rfind] at h
    cases hr : rfind c l with
    | some i => rw [hr] at h; cases h
    | none =>
      rw [hr] at h
      dsimp only at h
      rcases List.mem_cons.mp hc with rfl | hc
      · rw [if_pos rfl] at h
        cases h
      · exact ih hr hc

/-- Changing a character after the last `c` to another one keeps it the last. -/
theorem rfind_set {c x : Char} {l : List Char} {pos j : ℕ} (h : rfind c l = some pos)
    (hj : pos < j) (hx : x ≠ c) : rfind c (l.set j x) = some pos := by
  induction l generalizing pos j with
  | nil => cases h
  | cons y l ih =>
    obtain ⟨j, rfl⟩ : ∃ j', j = j' + 1 := ⟨j - 1, by omega⟩
    rw [List.set_cons_succ, rfind]
    rw [rfind] at h
    cases hr : rfind c l with
    | some i =>
      rw [hr] at h
      obtain rfl : i + 1 = pos := Option.some.inj h
      rw [ih hr (by omega)]
    | none =>
      rw [hr] at h
      have hnone : rfind c (l.set j x) = none := by
        rw [rfind_eq_none_iff] at hr ⊢
        intro hc
        rcases List.mem_or_eq_of_mem_set hc with hc | hc
        · exact hr hc
        · exact hx hc.symm
      rw [hnone]
      exact h

/-- One value changed after the human-readable part makes the checksum fail: the difference is
a nonzero value followed by zeros, which the register never brings back to zero. -/
theorem VerifyChecksum_set {hrp : List Char} {values : List ℕ}
    (h : VerifyChecksum hrp values = true) (hv : ∀ v ∈ values, v < 32) {k : ℕ}
    (hk : k < values.length) {v' : ℕ} (hv' : v' < 32) (hne : v' ≠ values[k]) :
    VerifyChecksum hrp (values.set k v') = false := by
  set e := values[k] ^^^ v'
  have he : e ≠ 0 := fun h0 => hne (Nat.xor_eq_zero_iff.mp h0).symm
  have he30 : e < 2 ^ 30 :=
    Nat.xor_lt_two_pow (lt_trans (hv _ (List.getElem_mem hk)) (by norm_num))
      (lt_trans hv' (by norm_num))
  have hsplit : values = values.take k ++ values[k] :: values.drop (k + 1) := by
    rw [List.getElem_cons_drop, List.take_append_drop]
  have hset : values.set k v' = values.take k ++ v' :: values.drop (k + 1) := by
    rw [List.set_eq_take_append_cons_drop, if_pos hk]
  set S := polyModRun 1 (ExpandHRP hrp ++ values.take k)
  set post := values.drop (k + 1)
  -- the changed run is the original one plus the run of the difference from zero
  have hlin := polyModRun_xor S 0 (values[k] :: post) (e :: List.replicate post.length 0)
    (by simp)
  rw [Nat.xor_zero, List.zipWith_cons_cons, zipWith_xor_replicate_zero,
    Nat.xor_xor_cancel_left, polyModRun_cons 0 e, polyModStep_zero_left] at hlin
  have hdiff := polyModRun_zeros_ne_zero he30 he post.length
  unfold VerifyChecksum at h ⊢
  rw [PolyMod_eq] at h ⊢
  rw [hsplit, ← List.append_assoc, polyModRun_append] at h
  rw [hset, ← List.append_assoc, polyModRun_append, hlin]
  rw [beq_iff_eq] at h
  rw [h, beq_eq_false_iff_ne]
  intro h1
  exact hdiff (by rw [← Nat.xor_right_inj (x := 1), h1, Nat.xor_zero])

/-- What a successful `Decode` has read: the separator, the values of the data characters, and a
checksum that verifies. -/
theorem Decode_eq_some {s : List Char} {r : List Char × List ℕ} (h : Decode s = some r) :
    ∃ pos values, rfind '1' s = some pos ∧ decodeValues (s.drop (pos + 1)) = some values ∧
      VerifyChecksum ((s.take pos).map LowerCase) values = true := by
  unfold Decode at h
  split at h
  · cases h
  split_ifs at h with hcase
  split at h
  · cases h
  rename_i pos hpos
  split_ifs at h with hlen
  split at h
  · cases h
  rename_i values hvals
  refine ⟨pos, values, hpos, hvals, ?_⟩
  dsimp only at h
  split_ifs at h with hcheck
  simpa using hcheck

/-- A valid string with one data character replaced by a charset character of another value is
rejected. -/
theorem Decode_set_eq_none {s : List Char} {r : List Char × List ℕ} (hs : Decode s = some r)
    {pos j : ℕ} (hpos : rfind '1' s = some pos) (hj : pos < j) (hjs : j < s.length) {c : Char}
    (hc : c ∈ CHARSET) (hval : charValue c ≠ charValue s[j]) : Decode (s.set j c) = none := by
  obtain ⟨pos₀, values, hpos₀, hvals, hcheck⟩ := Decode_eq_some hs
  obtain rfl : pos = pos₀ := Option.some.inj (hpos.symm.trans hpos₀)
  obtain ⟨hsome, hsep⟩ := charValue_of_mem_CHARSET hc
  obtain ⟨v', hv'⟩ := Option.isSome_iff_exists.mp hsome
  -- the data character sits at `k` among the data
  set k := j - (pos + 1)
  have hdrop : (s.set j c).drop (pos + 1) = (s.drop (pos + 1)).set k c := by
    rw [List.drop_set, if_neg (by omega)]
  have htake : (s.set j c).take pos = s.take pos := List.take_set_of_le (by omega)
  obtain ⟨hlen, hget⟩ := decodeValues_getElem hvals
  have hk : k < (s.drop (pos + 1)).length := by
    rw [List.length_drop]
    omega
  have hsj : (s.drop (pos + 1))[k] = s[j] := by
    rw [List.getElem_drop]
    congr 1
    omega
  have hkv : k < values.length := hlen ▸ hk
  have hne : v' ≠ values[k] := by
    intro heq
    apply hval
    rw [hv', ← hsj, hget k hk, List.getElem?_eq_getElem hkv, heq]
  have hfail := VerifyChecksum_set hcheck (decodeValues_lt hvals) hkv (charValue_lt hv') hne
  -- whatever the case scan says, the checksum of the changed string fails
  cases hd : Decode (s.set j c) with
  | none => rfl
  | some r' =>
    obtain ⟨pos', values', hpos', hvals', hcheck'⟩ := Decode_eq_some hd
    rw [rfind_set hpos hj hsep] at hpos'
    obtain rfl := Option.some.inj hpos'
    rw [hdrop, decodeValues_set hvals hv' k] at hvals'
    obtain rfl := Option.some.inj hvals'
    rw [htake, hfail] at hcheck'
    cases hcheck'

/-! ## The constants -/

/-- Multiplication by `{2}` in `GF(32) = GF(2)[x] / (x ^ 5 + x ^ 3 + 1)`, an element being the
five bits of its coefficients. -/
def gf32MulTwo (a : ℕ) : ℕ := if a &&& 16 = 0 then a <<< 1 else ((a <<< 1) &&& 31) ^^^ 9

/-- Multiplication in `GF(32)`, by shifting and adding. -/
def gf32Mul (a b : ℕ) : ℕ :=
  (List.range 5).foldl (fun acc i => if a.testBit i then acc ^^^ gf32MulTwo^[i] b else acc) 0

/-- The coefficients of `k(x) = x ^ 6 mod g(x)`, the highest first. -/
def kCoeffs : List ℕ := [29, 22, 20, 21, 29, 18]

/-- What a step adds for the coefficient `c0` that falls out is `c0 * k(x)`, coefficient by
coefficient in `GF(32)`: the step multiplies by `x` modulo `g`. -/
theorem genXor_eq_gf32Mul : ∀ c0 < 32, genXor c0 = groupsValue 5 (kCoeffs.map (gf32Mul c0)) := by
  decide

/-- For every lower case human-readable part of printable characters and every list of 5-bit
values that fit in 90 characters, `Decode` reads back what `Encode` writes; a valid string with a
data character replaced by a charset character of another value is rejected; and the constants
of the step are the multiples of `k(x)` in `GF(32)`. -/
theorem bech32_roundtrip_detects_substitution :
    (∀ (hrp : List Char) (values : List ℕ), hrp ≠ [] →
      (∀ c ∈ hrp, (33 ≤ c.toNat ∧ c.toNat ≤ 126) ∧ ¬('A' ≤ c ∧ c ≤ 'Z')) →
      (∀ v ∈ values, v < 32) → hrp.length + values.length + 7 ≤ 90 →
      Decode (Encode hrp values) = some (hrp, values)) ∧
    (∀ (s : List Char) (r : List Char × List ℕ) (pos j : ℕ) (c : Char), Decode s = some r →
      rfind '1' s = some pos → pos < j → (hjs : j < s.length) → c ∈ CHARSET →
      charValue c ≠ charValue s[j] → Decode (s.set j c) = none) ∧
    (∀ c0 < 32, genXor c0 = groupsValue 5 (kCoeffs.map (gf32Mul c0))) :=
  ⟨fun _ _ hne hhrp hv hlen => Decode_Encode hne hhrp hv hlen,
    fun _ _ _ _ _ hs hpos hj hjs hc hval => Decode_set_eq_none hs hpos hj hjs hc hval,
    genXor_eq_gf32Mul⟩

/-- The human-readable part `bc` with the values `0` and `31` comes back. -/
theorem bech32_roundtrip_detects_substitution_bc :
    Decode (Encode ['b', 'c'] [0, 31]) = some (['b', 'c'], [0, 31]) :=
  bech32_roundtrip_detects_substitution.1 _ _ (by simp)
    (by
      intro c hc
      simp only [List.mem_cons, List.not_mem_nil, or_false] at hc
      rcases hc with rfl | rfl <;> decide)
    (by decide) (by decide)

/-- A valid upper case string with its data character `Q` replaced by the charset character `q`
is still valid: `Decode` reads both cases, and the two have one value. -/
theorem Decode_set_other_case :
    Decode "!1Q78730330".toList = some (['!'], [0, 30, 7]) ∧
      "!1Q78730330".toList.set 2 'q' = "!1q78730330".toList ∧ 'q' ∈ CHARSET ∧ 'q' ≠ 'Q' ∧
      Decode "!1q78730330".toList = some (['!'], [0, 30, 7]) := by
  refine ⟨by decide, rfl, by decide, by decide, by decide⟩

end Bech32

end HydraNode
