import HydraNode.Primitives

/-!
# Token amounts as decimal strings

The wallet shows and reads token amounts with `FormatToken` and `ParseToken`
(`util/tokenstr.cpp`): an amount `n` of a token with `decimals` decimal places is written as the
quotient and the remainder of `n` by `10 ^ decimals`, the remainder padded with zeros to
`decimals` digits, and read back digit by digit.

`powBase10` returns `0` for the exponent `0`, not `1`. A token with no decimals then divides by
zero in `FormatToken`, which throws, and `ParseToken` multiplies every whole part by zero and
accepts no digit after the point, so that it reads every string it accepts as `0`
(`FormatToken_zero_decimals`). From one decimal on, the two are inverse up to `10 ^ 77`
(`ParseToken_FormatToken`), and every amount `ParseToken` accepts is one of those
(`ParseToken_lt`).

`dev::s256` is boost's 256-bit signed-magnitude integer, whose arithmetic does not check for
overflow: a result keeps its sign and its magnitude is truncated to 256 bits (`wrap256`). Its
division throws on a zero divisor, which `FormatToken` models as `none`. Boost and `libdevcore`
are not part of the repository; `s256::str()` is modelled as the decimal digits of a value, and
the `s256` read from a string of digits as their value in base ten. A string is the list of its
characters.

## Main definitions

* `wrap256`, `powBase10`, `FormatToken`
* `parseFraction`, `parseWhole`, `ParseToken`

## Main results

* `ParseToken_FormatToken` — a nonnegative amount below `10 ^ 77` reads back, for `1` to `76`
  decimals
* `ParseToken_lt` — what `ParseToken` accepts is such an amount
* `FormatToken_ParseToken_roundtrip`
-/

namespace HydraNode

/-! ## `dev::s256` -/

/-- An `s256` result: its sign, and its magnitude truncated to 256 bits. -/
def wrap256 (x : ℤ) : ℤ := x.sign * ((x.natAbs % 2 ^ 256 : ℕ) : ℤ)

/-- `powBase10`: `0` for the exponent `0`, otherwise `1` multiplied by ten `exponent` times. -/
def powBase10 (exponent : ℕ) : ℤ :=
  if exponent = 0 then 0 else Nat.iterate (fun power => wrap256 (power * 10)) exponent 1

/-- `s256::str()` of a nonnegative value: its decimal digits, most significant first. -/
def decimalStr (n : ℕ) : List Char :=
  if n < 10 then [Char.ofNat (n + 48)] else decimalStr (n / 10) ++ [Char.ofNat (n % 10 + 48)]
termination_by n
decreasing_by omega

/-- `s256::str()`. -/
def s256Str (x : ℤ) : List Char := if x < 0 then '-' :: decimalStr x.natAbs else decimalStr x.toNat

/-! ## Characters -/

/-- `IsDigit`. -/
def IsDigit (c : Char) : Bool := '0' ≤ c && c ≤ '9'

/-- `IsSpace`. -/
def IsSpace (c : Char) : Bool :=
  c == ' ' || c == '\x0c' || c == '\n' || c == '\r' || c == '\t' || c == '\x0b'

/-- `c - '0'`, as an `int`. -/
def digitValue (c : Char) : ℤ := (c.toNat : ℤ) - 48

/-- The value of a string of digits in base ten. -/
def readDigits (l : List Char) : ℤ := l.foldl (fun acc c => acc * 10 + digitValue c) 0

/-- `dev::s256(strWhole)`. -/
def s256OfDigits (strWhole : List Char) : ℤ := wrap256 (readDigits strWhole)

/-- `ValidAsCString`: no embedded NUL character. -/
def ValidAsCString (str : List Char) : Bool := !str.contains '\x00'

/-- `TrimString` with its default pattern, the characters of `IsSpace`. -/
def TrimString (str : List Char) : List Char :=
  ((str.dropWhile IsSpace).reverse.dropWhile IsSpace).reverse

/-! ## Formatting and parsing -/

/-- `FormatToken`; `none` where `n_abs / coin` throws on a zero `coin`. -/
def FormatToken (decimals : ℕ) (n : ℤ) : Option (List Char) :=
  let coin := powBase10 decimals
  if coin = 0 then none
  else
    let n_abs := if n > 0 then n else -n
    let quotient := n_abs.tdiv coin
    let remainder := n_abs.tmod coin
    let strQuotient := s256Str quotient
    let strRemainder := s256Str remainder
    -- `while (strRemainder.size() < decimals) strRemainder.insert(0, 1, '0')`
    let strRemainder := List.replicate (decimals - strRemainder.length) '0' ++ strRemainder
    let str := strQuotient ++ '.' :: strRemainder
    some (if n < 0 then '-' :: str else str)

/-- The loop over the digits after the point: `while (IsDigit(*p) && (nMult > 0))`. It returns
`nUnits` and what `p` points at. -/
def parseFraction (nMult nUnits : ℤ) : List Char → ℤ × List Char
  | [] => (nUnits, [])
  | c :: cs =>
    if IsDigit c && decide (0 < nMult) then
      parseFraction (nMult.tdiv 10) (wrap256 (nUnits + wrap256 (nMult * digitValue c))) cs
    else (nUnits, c :: cs)

/-- The loop of `ParseToken` over the whole part: the digits before the point, `nUnits`, and
what `p` points at when the loop ends; `none` where it returns `false`. -/
def parseWhole (coin : ℤ) (strWhole : List Char) : List Char → Option (List Char × ℤ × List Char)
  | [] => some (strWhole, 0, [])
  | c :: cs =>
    if c = '.' then
      match parseFraction (coin.tdiv 10) 0 cs with
      | (nUnits, p) => some (strWhole, nUnits, p)
    else if IsSpace c then none
    else if !IsDigit c then none
    else parseWhole coin (strWhole ++ [c]) cs

/-- `ParseToken`; `none` where it returns `false`. -/
def ParseToken (decimals : ℕ) (token_string : List Char) : Option ℤ :=
  if !ValidAsCString token_string then none
  else
    let str := TrimString token_string
    if str.isEmpty then none
    else
      let coin := powBase10 decimals
      match parseWhole coin [] str with
      | none => none
      | some (strWhole, nUnits, p) =>
        if p ≠ [] then none
        -- `77 - decimals` is an `unsigned int`: the guard against 256-bit overflow
        else if ((77 - (decimals : ℤ)) % 2 ^ 32).toNat < strWhole.length then none
        else if nUnits < 0 ∨ coin < nUnits then none
        else
          let nWhole := s256OfDigits strWhole
          some (wrap256 (wrap256 (nWhole * coin) + nUnits))

/-! ## Arithmetic without overflow -/

theorem wrap256_of_lt {x : ℤ} (h0 : 0 ≤ x) (h : x < 2 ^ 256) : wrap256 x = x := by
  unfold wrap256
  rcases h0.lt_or_eq with hpos | rfl
  · have habs : x.natAbs < 2 ^ 256 := by omega
    rw [Int.sign_eq_one_of_pos hpos, one_mul, Nat.mod_eq_of_lt habs, Int.natAbs_of_nonneg h0]
  · rfl

theorem ten_pow_lt_two_pow_256 {k : ℕ} (hk : k ≤ 77) : (10 : ℤ) ^ k < 2 ^ 256 :=
  lt_of_le_of_lt (pow_le_pow_right₀ (by norm_num) hk) (by norm_num)

/-- The loop of `powBase10` does not wrap up to `10 ^ 77`. -/
theorem iterate_timesTen {k : ℕ} (hk : k ≤ 77) :
    Nat.iterate (fun power => wrap256 (power * 10)) k 1 = 10 ^ k := by
  induction k with
  | zero => rfl
  | succ k ih =>
    rw [Function.iterate_succ_apply', ih (by omega), ← pow_succ,
      wrap256_of_lt (by positivity) (ten_pow_lt_two_pow_256 hk)]

theorem powBase10_eq {d : ℕ} (h1 : 1 ≤ d) (h : d ≤ 77) : powBase10 d = 10 ^ d := by
  rw [powBase10, if_neg (by omega), iterate_timesTen h]

/-! ## Digits -/

theorem digitValue_ofNat {k : ℕ} (hk : k < 10) : digitValue (Char.ofNat (k + 48)) = k := by
  interval_cases k <;> rfl

theorem IsDigit_ofNat {k : ℕ} (hk : k < 10) : IsDigit (Char.ofNat (k + 48)) = true := by
  interval_cases k <;> rfl

theorem digitValue_bounds {c : Char} (h : IsDigit c = true) : 0 ≤ digitValue c ∧ digitValue c ≤ 9 := by
  simp only [IsDigit, Bool.and_eq_true, decide_eq_true_eq] at h
  obtain ⟨h0, h9⟩ := h
  have h0' : 48 ≤ c.toNat := h0
  have h9' : c.toNat ≤ 57 := h9
  unfold digitValue
  omega

/-- A digit is neither a space nor the point. -/
theorem IsSpace_of_IsDigit {c : Char} (h : IsDigit c = true) : IsSpace c = false ∧ c ≠ '.' := by
  simp only [IsDigit, Bool.and_eq_true, decide_eq_true_eq] at h
  obtain ⟨h0, -⟩ := h
  refine ⟨?_, by rintro rfl; exact absurd h0 (by decide)⟩
  simp only [IsSpace, Bool.or_eq_false_iff, beq_eq_false_iff_ne]
  refine ⟨⟨⟨⟨⟨?_, ?_⟩, ?_⟩, ?_⟩, ?_⟩, ?_⟩ <;> rintro rfl <;> exact absurd h0 (by decide)

theorem forall_IsDigit_decimalStr (n : ℕ) : ∀ c ∈ decimalStr n, IsDigit c = true := by
  induction n using Nat.strong_induction_on with
  | _ n ih =>
    rw [decimalStr]
    split_ifs with h
    · simpa using IsDigit_ofNat h
    · intro c hc
      rcases List.mem_append.mp hc with hc | hc
      · exact ih (n / 10) (by omega) c hc
      · rw [List.mem_singleton.mp hc]
        exact IsDigit_ofNat (Nat.mod_lt _ (by omega))

/-- `s256::str()` writes at most `k` digits for a value below `10 ^ k`. -/
theorem length_decimalStr_le {n k : ℕ} (hk : 1 ≤ k) (h : n < 10 ^ k) : (decimalStr n).length ≤ k := by
  induction n using Nat.strong_induction_on generalizing k with
  | _ n ih =>
    rw [decimalStr]
    split_ifs with h10
    · simpa using hk
    · -- a value of two digits or more needs `k ≥ 2`, and its quotient by ten `k - 1` digits
      have hk2 : 2 ≤ k := by
        by_contra hk2
        obtain rfl : k = 1 := by omega
        omega
      have hq : n / 10 < 10 ^ (k - 1) := by
        rw [Nat.div_lt_iff_lt_mul (by norm_num), ← pow_succ, Nat.sub_add_cancel (by omega)]
        exact h
      rw [List.length_append, List.length_singleton]
      have := ih (n / 10) (by omega) (by omega) hq
      omega

theorem foldl_readDigits (a : ℤ) (l : List Char) :
    l.foldl (fun acc c => acc * 10 + digitValue c) a = a * 10 ^ l.length + readDigits l := by
  induction l generalizing a with
  | nil => simp [readDigits]
  | cons c l ih =>
    unfold readDigits at ih ⊢
    rw [List.foldl_cons, List.foldl_cons, ih, ih (0 * 10 + digitValue c), List.length_cons, pow_succ]
    ring

theorem readDigits_cons (c : Char) (l : List Char) :
    readDigits (c :: l) = digitValue c * 10 ^ l.length + readDigits l := by
  rw [readDigits, List.foldl_cons, foldl_readDigits]
  ring

theorem readDigits_append_singleton (l : List Char) (c : Char) :
    readDigits (l ++ [c]) = readDigits l * 10 + digitValue c := by
  rw [readDigits, List.foldl_append, List.foldl_cons, List.foldl_nil]
  rfl

theorem readDigits_decimalStr (n : ℕ) : readDigits (decimalStr n) = n := by
  induction n using Nat.strong_induction_on with
  | _ n ih =>
    rw [decimalStr]
    split_ifs with h
    · rw [readDigits_cons, digitValue_ofNat h]
      simp [readDigits]
    · rw [readDigits_append_singleton, ih (n / 10) (by omega), digitValue_ofNat (Nat.mod_lt _ (by omega))]
      omega

/-- Leading zeros do not change the value. -/
theorem readDigits_replicate_zero_append (k : ℕ) (l : List Char) :
    readDigits (List.replicate k '0' ++ l) = readDigits l := by
  induction k with
  | zero => rfl
  | succ k ih =>
    rw [List.replicate_succ, List.cons_append, readDigits_cons, ih, show digitValue '0' = 0 from rfl,
      zero_mul, zero_add]

/-- A string of `k` digits is worth less than `10 ^ k`. -/
theorem readDigits_bounds {l : List Char} (h : ∀ c ∈ l, IsDigit c = true) :
    0 ≤ readDigits l ∧ readDigits l < 10 ^ l.length := by
  induction l with
  | nil => simp [readDigits]
  | cons c l ih =>
    obtain ⟨ih0, ih1⟩ := ih fun c hc => h c (List.mem_cons_of_mem _ hc)
    obtain ⟨hd0, hd9⟩ := digitValue_bounds (h c (List.mem_cons_self ..))
    have hpow : (0 : ℤ) < 10 ^ l.length := by positivity
    have hmul : digitValue c * 10 ^ l.length ≤ 9 * 10 ^ l.length :=
      mul_le_mul_of_nonneg_right hd9 hpow.le
    rw [readDigits_cons, List.length_cons, pow_succ]
    constructor
    · have := mul_nonneg hd0 hpow.le
      omega
    · omega

/-! ## The loops of `ParseToken` -/

theorem tdiv_ten_pow_succ (k : ℕ) : ((10 : ℤ) ^ (k + 1)).tdiv 10 = 10 ^ k := by
  rw [Int.tdiv_eq_ediv_of_nonneg (by positivity), pow_succ, Int.mul_ediv_cancel _ (by norm_num)]

/-- After the point, `ParseToken` reads exactly as many digits as `coin` has zeros: on `k` digits
from `nMult = 10 ^ k / 10` it adds their value and stops at the end. -/
theorem parseFraction_digits {ds : List Char} (hds : ∀ c ∈ ds, IsDigit c = true) {acc : ℤ}
    (h0 : 0 ≤ acc) (hb : acc + 10 ^ ds.length ≤ 2 ^ 256) :
    parseFraction (((10 : ℤ) ^ ds.length).tdiv 10) acc ds = (acc + readDigits ds, []) := by
  induction ds generalizing acc with
  | nil => simp [parseFraction, readDigits]
  | cons c cs ih =>
    obtain ⟨hd0, hd9⟩ := digitValue_bounds (hds c (List.mem_cons_self ..))
    have hpow : (0 : ℤ) < 10 ^ cs.length := by positivity
    have hmul : 10 ^ cs.length * digitValue c ≤ 9 * 10 ^ cs.length := by
      rw [mul_comm]
      exact mul_le_mul_of_nonneg_right hd9 hpow.le
    have hmul0 := mul_nonneg hpow.le hd0
    rw [List.length_cons, pow_succ] at hb
    rw [List.length_cons, tdiv_ten_pow_succ, parseFraction,
      if_pos (by simp [hds c (List.mem_cons_self ..), hpow]),
      wrap256_of_lt hmul0 (by omega), wrap256_of_lt (by omega) (by omega),
      ih (fun c hc => hds c (List.mem_cons_of_mem _ hc)) (by omega) (by omega), readDigits_cons]
    congr 1
    ring

/-- What the loop after the point adds stays below `10 * nMult`. -/
theorem parseFraction_bound {cs : List Char} {nMult acc u : ℤ} {p : List Char}
    (h : parseFraction nMult acc cs = (u, p)) (hm : 0 ≤ nMult) (ha : 0 ≤ acc)
    (hb : acc + 10 * nMult ≤ 2 ^ 256) : acc ≤ u ∧ (u = acc ∨ u < acc + 10 * nMult) := by
  induction cs generalizing nMult acc with
  | nil =>
    simp only [parseFraction, Prod.mk.injEq] at h
    exact ⟨h.1.le, .inl h.1.symm⟩
  | cons c cs ih =>
    unfold parseFraction at h
    split_ifs at h with hc
    · simp only [Bool.and_eq_true, decide_eq_true_eq] at hc
      obtain ⟨hdig, hpos⟩ := hc
      obtain ⟨hd0, hd9⟩ := digitValue_bounds hdig
      have hmul : nMult * digitValue c ≤ 9 * nMult := by
        rw [mul_comm]
        exact mul_le_mul_of_nonneg_right hd9 hm
      have hmul0 := mul_nonneg hm hd0
      have hq : nMult.tdiv 10 = nMult / 10 := Int.tdiv_eq_ediv_of_nonneg hm
      rw [wrap256_of_lt hmul0 (by omega), wrap256_of_lt (by omega) (by omega)] at h
      -- the next digit is worth a tenth as much, so what follows stays below `nMult`
      obtain ⟨h1, h2⟩ := ih h (by omega) (by omega) (by omega)
      refine ⟨by omega, .inr ?_⟩
      rcases h2 with h2 | h2 <;> omega
    · simp only [Prod.mk.injEq] at h
      exact ⟨h.1.le, .inl h.1.symm⟩

/-- The loop over the whole part keeps the digits up to the point, then reads the fraction. -/
theorem parseWhole_digits_point {ws : List Char} (hws : ∀ c ∈ ws, IsDigit c = true) (coin : ℤ)
    (acc rest : List Char) :
    parseWhole coin acc (ws ++ '.' :: rest) =
      some (acc ++ ws, (parseFraction (coin.tdiv 10) 0 rest).1, (parseFraction (coin.tdiv 10) 0 rest).2) := by
  induction ws generalizing acc with
  | nil => simp [parseWhole]
  | cons c ws ih =>
    obtain ⟨hspace, hpoint⟩ := IsSpace_of_IsDigit (hws c (List.mem_cons_self ..))
    rw [List.cons_append, parseWhole, if_neg hpoint, if_neg (by simp [hspace]),
      if_neg (by simp [hws c (List.mem_cons_self ..)]), ih (fun c hc => hws c (List.mem_cons_of_mem _ hc)),
      List.append_assoc, List.singleton_append]

/-- What the loop over the whole part accepts: digits, and then nothing or a fraction. -/
theorem parseWhole_spec {coin : ℤ} {s acc w : List Char} {u : ℤ} {p : List Char}
    (h : parseWhole coin acc s = some (w, u, p)) :
    ∃ ws, w = acc ++ ws ∧ (∀ c ∈ ws, IsDigit c = true) ∧
      (u = 0 ∨ ∃ rest, parseFraction (coin.tdiv 10) 0 rest = (u, p)) := by
  induction s generalizing acc with
  | nil =>
    simp only [parseWhole, Option.some.injEq, Prod.mk.injEq] at h
    obtain ⟨rfl, rfl, -⟩ := h
    exact ⟨[], by simp, by simp, .inl rfl⟩
  | cons c s ih =>
    unfold parseWhole at h
    split_ifs at h with hpoint hspace hdig
    · -- the point: the digits so far, and the fraction after it
      obtain ⟨rfl, hfrac⟩ : acc = w ∧ parseFraction (coin.tdiv 10) 0 s = (u, p) := by
        revert h
        obtain ⟨u', p'⟩ := parseFraction (coin.tdiv 10) 0 s
        simp only [Option.some.injEq, Prod.mk.injEq]
        rintro ⟨rfl, rfl, rfl⟩
        exact ⟨rfl, rfl, rfl⟩
      exact ⟨[], by simp, by simp, .inr ⟨s, hfrac⟩⟩
    · obtain ⟨ws, rfl, hws, hu⟩ := ih h
      refine ⟨c :: ws, by simp, ?_, hu⟩
      intro d hd
      rcases List.mem_cons.mp hd with rfl | hd
      · simpa using hdig
      · exact hws d hd

/-! ## The round trip -/

theorem dropWhile_IsSpace_of_forall {l : List Char} (h : ∀ c ∈ l, IsSpace c = false) :
    l.dropWhile IsSpace = l := by
  cases l with
  | nil => rfl
  | cons c l => rw [List.dropWhile_cons_of_neg (by simp [h c (List.mem_cons_self ..)])]

/-- A string without spaces is its own trim. -/
theorem TrimString_of_forall {l : List Char} (h : ∀ c ∈ l, IsSpace c = false) : TrimString l = l := by
  rw [TrimString, dropWhile_IsSpace_of_forall h,
    dropWhile_IsSpace_of_forall (fun c hc => h c (List.mem_reverse.mp hc)), List.reverse_reverse]

/-- A string of digits and points is a valid C string. -/
theorem ValidAsCString_of_forall {l : List Char} (h : ∀ c ∈ l, IsDigit c = true ∨ c = '.') :
    ValidAsCString l = true := by
  have hnul : '\x00' ∉ l := fun hc => by
    rcases h _ hc with h | h <;> revert h <;> decide
  simpa [ValidAsCString] using hnul

/-- A value of fewer than `77 - d` digits, shifted by `d` decimals, with `d` decimals after it,
stays below `10 ^ 77`, and so within `s256`. -/
theorem mul_pow_add_lt {d : ℕ} {W P : ℤ} (hd : d ≤ 77) (hW0 : 0 ≤ W) (hW : W < 10 ^ (77 - d))
    (hP0 : 0 ≤ P) (hP : P < 10 ^ d) : 0 ≤ W * 10 ^ d + P ∧ W * 10 ^ d + P < 10 ^ 77 := by
  have hpow : (0 : ℤ) < 10 ^ d := by positivity
  have hmul : (W + 1) * 10 ^ d ≤ 10 ^ (77 - d) * 10 ^ d :=
    mul_le_mul_of_nonneg_right (by omega) hpow.le
  rw [← pow_add, Nat.sub_add_cancel hd, add_mul, one_mul] at hmul
  exact ⟨by positivity, by linarith⟩

theorem wrap256_value {d : ℕ} {W P : ℤ} (hd : d ≤ 77) (hW0 : 0 ≤ W) (hW : W < 10 ^ (77 - d))
    (hP0 : 0 ≤ P) (hP : P < 10 ^ d) : wrap256 (wrap256 (W * 10 ^ d) + P) = W * 10 ^ d + P := by
  obtain ⟨h0, hlt⟩ := mul_pow_add_lt hd hW0 hW hP0 hP
  have h77 : (10 : ℤ) ^ 77 < 2 ^ 256 := ten_pow_lt_two_pow_256 le_rfl
  have hmul : wrap256 (W * 10 ^ d) = W * 10 ^ d :=
    wrap256_of_lt (mul_nonneg hW0 (by positivity)) (by linarith)
  rw [hmul, wrap256_of_lt h0 (by linarith)]

/-- `ParseToken` of digits, the point, and exactly `d` digits: the whole part shifted by `d`
decimals, plus the fraction. -/
theorem ParseToken_digits_point {d : ℕ} {ws pad : List Char} (h1 : 1 ≤ d) (h76 : d ≤ 76)
    (hws : ∀ c ∈ ws, IsDigit c = true) (hpad : ∀ c ∈ pad, IsDigit c = true) (hlen : pad.length = d)
    (hwlen : ws.length ≤ 77 - d) :
    ParseToken d (ws ++ '.' :: pad) = some (readDigits ws * 10 ^ d + readDigits pad) := by
  have hall : ∀ c ∈ ws ++ '.' :: pad, IsDigit c = true ∨ c = '.' := by
    intro c hc
    rcases List.mem_append.mp hc with hc | hc
    · exact .inl (hws c hc)
    · rcases List.mem_cons.mp hc with rfl | hc
      · exact .inr rfl
      · exact .inl (hpad c hc)
  have hspace : ∀ c ∈ ws ++ '.' :: pad, IsSpace c = false := by
    intro c hc
    rcases hall c hc with h | rfl
    · exact (IsSpace_of_IsDigit h).1
    · rfl
  obtain ⟨hW0, hW⟩ := readDigits_bounds hws
  obtain ⟨hP0, hP⟩ := readDigits_bounds hpad
  rw [hlen] at hP
  have hW' : readDigits ws < 10 ^ (77 - d) :=
    lt_of_lt_of_le hW (pow_le_pow_right₀ (by norm_num) hwlen)
  -- after the point, `nMult` starts at `10 ^ (d - 1)` and reads the `d` digits
  have hfrac : parseFraction (((10 : ℤ) ^ d).tdiv 10) 0 pad = (readDigits pad, []) := by
    have h := @parseFraction_digits pad hpad 0 le_rfl
      (by rw [zero_add, hlen]; exact (ten_pow_lt_two_pow_256 (by omega)).le)
    rwa [hlen, zero_add] at h
  have hguard : ¬((77 - (d : ℤ)) % 2 ^ 32).toNat < ws.length := by omega
  have hunits : ¬(readDigits pad < 0 ∨ 10 ^ d < readDigits pad) := by omega
  unfold ParseToken
  rw [ValidAsCString_of_forall hall, TrimString_of_forall hspace, powBase10_eq h1 (by omega)]
  simp only [Bool.not_true, Bool.false_eq_true, if_false]
  rw [parseWhole_digits_point hws, hfrac]
  simp only [ne_eq, not_true_eq_false, if_false, List.nil_append]
  rw [if_neg hguard, if_neg hunits, s256OfDigits, wrap256_of_lt hW0 (by
    linarith [ten_pow_lt_two_pow_256 (show 77 - d ≤ 77 by omega)]), wrap256_value (by omega) hW0 hW' hP0 hP]
  -- the string is not empty: it holds the point
  have hne : (ws ++ '.' :: pad).isEmpty = false := by cases ws <;> rfl
  rw [hne]
  rfl

/-- `FormatToken` of a nonnegative amount: the quotient, the point, and the remainder padded to
`d` digits. -/
theorem FormatToken_eq {d : ℕ} {n : ℤ} (h1 : 1 ≤ d) (h77 : d ≤ 77) (hn : 0 ≤ n) :
    FormatToken d n = some (decimalStr (n / 10 ^ d).toNat ++ '.' ::
      (List.replicate (d - (decimalStr (n % 10 ^ d).toNat).length) '0' ++
        decimalStr (n % 10 ^ d).toNat)) := by
  have habs : (if n > 0 then n else -n) = n := by split_ifs <;> omega
  have hq : 0 ≤ n / 10 ^ d := Int.ediv_nonneg hn (by positivity)
  have hr : 0 ≤ n % 10 ^ d := Int.emod_nonneg _ (by positivity)
  unfold FormatToken
  dsimp only
  rw [powBase10_eq h1 h77, if_neg (by positivity), habs, Int.tdiv_eq_ediv_of_nonneg hn,
    Int.tmod_eq_emod_of_nonneg hn]
  simp only [s256Str, if_neg (not_lt.mpr hq), if_neg (not_lt.mpr hr), if_neg (not_lt.mpr hn)]

/-- The remainder, padded to `d` digits, is `d` digits worth the remainder. -/
theorem padded_spec {d r : ℕ} (hr : r < 10 ^ d) (h1 : 1 ≤ d) :
    (List.replicate (d - (decimalStr r).length) '0' ++ decimalStr r).length = d ∧
      (∀ c ∈ List.replicate (d - (decimalStr r).length) '0' ++ decimalStr r, IsDigit c = true) ∧
      readDigits (List.replicate (d - (decimalStr r).length) '0' ++ decimalStr r) = r := by
  have hlen := length_decimalStr_le h1 hr
  refine ⟨by simp; omega, ?_, by rw [readDigits_replicate_zero_append, readDigits_decimalStr]⟩
  intro c hc
  rcases List.mem_append.mp hc with hc | hc
  · rw [(List.mem_replicate.mp hc).2]
    rfl
  · exact forall_IsDigit_decimalStr r c hc

/-- From one to `76` decimals, `ParseToken` reads back what `FormatToken` writes of an amount in
`[0, 10 ^ 77)`. -/
theorem ParseToken_FormatToken {d : ℕ} {n : ℤ} (h1 : 1 ≤ d) (h76 : d ≤ 76) (hn0 : 0 ≤ n)
    (hn : n < 10 ^ 77) : ∃ s, FormatToken d n = some s ∧ ParseToken d s = some n := by
  have hpow : (0 : ℤ) < 10 ^ d := by positivity
  have hq0 : 0 ≤ n / 10 ^ d := Int.ediv_nonneg hn0 hpow.le
  have hr0 : 0 ≤ n % 10 ^ d := Int.emod_nonneg _ hpow.ne'
  have hq : ((n / 10 ^ d).toNat : ℤ) = n / 10 ^ d := Int.toNat_of_nonneg hq0
  have hr : ((n % 10 ^ d).toNat : ℤ) = n % 10 ^ d := Int.toNat_of_nonneg hr0
  -- the quotient has at most `77 - d` digits, the remainder at most `d`
  have hqlt : (n / 10 ^ d).toNat < 10 ^ (77 - d) := by
    have : n / 10 ^ d < 10 ^ (77 - d) := by
      rw [Int.ediv_lt_iff_lt_mul hpow, ← pow_add, Nat.sub_add_cancel (by omega)]
      exact hn
    exact_mod_cast hq ▸ this
  have hrlt : (n % 10 ^ d).toNat < 10 ^ d := by
    exact_mod_cast hr ▸ Int.emod_lt_of_pos n hpow
  obtain ⟨hlen, hdig, hval⟩ := padded_spec hrlt h1
  refine ⟨_, FormatToken_eq h1 (by omega) hn0, ?_⟩
  rw [ParseToken_digits_point h1 h76 (forall_IsDigit_decimalStr _) hdig hlen
    (length_decimalStr_le (by omega) hqlt), readDigits_decimalStr, hval, hq, hr, mul_comm,
    Int.mul_ediv_add_emod]

/-- Every amount `ParseToken` accepts, from one to `76` decimals, lies in `[0, 10 ^ 77)`. -/
theorem ParseToken_lt {d : ℕ} {s : List Char} {v : ℤ} (h1 : 1 ≤ d) (h76 : d ≤ 76)
    (h : ParseToken d s = some v) : 0 ≤ v ∧ v < 10 ^ 77 := by
  unfold ParseToken at h
  dsimp only at h
  rw [powBase10_eq h1 (by omega)] at h
  split_ifs at h with hvalid hempty
  split at h
  · cases h
  · rename_i w u p hparse
    split_ifs at h with hp hguard hunits
    obtain rfl := Option.some.inj h
    -- `[] ++ ws` is `ws`: the whole part is the digits `w`
    obtain ⟨w, rfl, hws, hu⟩ := parseWhole_spec hparse
    have hwlen : w.length ≤ 77 - d := by omega
    obtain ⟨hW0, hW⟩ := readDigits_bounds hws
    have hW' : readDigits w < 10 ^ (77 - d) :=
      lt_of_lt_of_le hW (pow_le_pow_right₀ (by norm_num) hwlen)
    -- the fraction is below `10 * 10 ^ (d - 1)`
    have hu' : 0 ≤ u ∧ u < 10 ^ d := by
      have hpow : (0 : ℤ) < 10 ^ d := by positivity
      rcases hu with rfl | ⟨rest, hfrac⟩
      · exact ⟨le_rfl, hpow⟩
      · have hd : ((10 : ℤ) ^ d).tdiv 10 = 10 ^ (d - 1) := by
          obtain ⟨k, rfl⟩ : ∃ k, d = k + 1 := ⟨d - 1, by omega⟩
          rw [tdiv_ten_pow_succ, Nat.add_sub_cancel]
        rw [hd] at hfrac
        have h10 : 10 * (10 : ℤ) ^ (d - 1) = 10 ^ d := by
          rw [← pow_succ', Nat.sub_add_cancel h1]
        obtain ⟨hu0, hu1⟩ := parseFraction_bound hfrac (by positivity) le_rfl
          (by rw [zero_add, h10]; exact (ten_pow_lt_two_pow_256 (by omega)).le)
        refine ⟨hu0, ?_⟩
        rcases hu1 with rfl | hu1
        · exact hpow
        · omega
    rw [s256OfDigits, wrap256_of_lt hW0 (by
      linarith [ten_pow_lt_two_pow_256 (show 77 - d ≤ 77 by omega)]),
      wrap256_value (by omega) hW0 hW' hu'.1 hu'.2]
    exact mul_pow_add_lt (by omega) hW0 hW' hu'.1 hu'.2

theorem FormatToken_ParseToken_roundtrip :
    (∀ d : ℕ, 1 ≤ d → d ≤ 76 → ∀ n : ℤ, 0 ≤ n → n < 10 ^ 77 →
      ∃ s, FormatToken d n = some s ∧ ParseToken d s = some n) ∧
    (∀ d : ℕ, 1 ≤ d → d ≤ 76 → ∀ s v, ParseToken d s = some v →
      ∃ s', FormatToken d v = some s' ∧ ParseToken d s' = some v) := by
  refine ⟨fun d h1 h76 n hn0 hn => ParseToken_FormatToken h1 h76 hn0 hn, ?_⟩
  intro d h1 h76 s v h
  obtain ⟨hv0, hv⟩ := ParseToken_lt h1 h76 h
  exact ParseToken_FormatToken h1 h76 hv0 hv

/-- An amount of a token with eight decimals, `1.23456789`. -/
theorem FormatToken_ParseToken_roundtrip_eight :
    (1 ≤ 8 ∧ 8 ≤ 76 ∧ (0 : ℤ) ≤ 123456789 ∧ (123456789 : ℤ) < 10 ^ 77) ∧
      ∃ s, FormatToken 8 123456789 = some s ∧ ParseToken 8 s = some 123456789 :=
  ⟨⟨by norm_num, by norm_num, by norm_num, by norm_num⟩,
    FormatToken_ParseToken_roundtrip.1 8 (by norm_num) (by norm_num) 123456789 (by norm_num)
      (by norm_num)⟩

/-! ## No decimals -/

/-- With no decimals, `coin` is zero and `FormatToken` throws. -/
theorem FormatToken_zero_decimals_eq_none (n : ℤ) : FormatToken 0 n = none := rfl

/-- With no decimals, every string `ParseToken` accepts reads as `0`. -/
theorem ParseToken_zero_decimals_eq_zero {s : List Char} {v : ℤ} (h : ParseToken 0 s = some v) :
    v = 0 := by
  unfold ParseToken at h
  dsimp only at h
  rw [show powBase10 0 = 0 from rfl] at h
  split_ifs at h with hvalid hempty
  split at h
  · cases h
  · split_ifs at h with hp hguard hunits
    obtain rfl := Option.some.inj h
    -- `nUnits` lies in `[0, coin] = [0, 0]`
    obtain rfl : ‹ℤ› = 0 := by omega
    simp [wrap256]

/-- With no decimals `FormatToken` throws on every amount, and `ParseToken` reads every string it
accepts as `0`, the string `5` among them. -/
theorem FormatToken_zero_decimals :
    (∀ n, FormatToken 0 n = none) ∧ ParseToken 0 ['5'] = some 0 ∧
      ∀ s v, ParseToken 0 s = some v → v = 0 :=
  ⟨FormatToken_zero_decimals_eq_none, by decide +kernel,
    fun _ _ h => ParseToken_zero_decimals_eq_zero h⟩

end HydraNode
